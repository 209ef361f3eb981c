import CorpusRunner.Proofs.ProgramMatches

/-!
# The program refines the system of lists

Every step of `run-corpus.mjs` and `corpus-worker.mjs` on the texts of their files is matched by
the system of `CorpusRunner.System`: a worker's and a harvest's by the same step, which is
possible or refused on both sides (`worker_step`, `harvest_step`), and the look at the ledger
behind the recovery by none at all.
-/

namespace CorpusRunner

namespace Program

/-! ## The worker -/

/-- A worker reads its ledger. -/
theorem load_step {h : Host} {w : Worker} {v : CorpusRunner.Worker} {d : Disk}
    {e : CorpusRunner.Disk} (hw : WorkerMatches h w v) (hd : DiskMatches d e) :
    ∃ w', w.load h d = some w' ∧
      WorkerMatches h w' { v with
        thread := .loaded
        queue := v.cfg.all.tests.filter (fun t => !(readLedger e.progress).has t)
        unstarted := v.cfg.concurrency.toNat } := by
  obtain ⟨c, hc, hall, hconc⟩ := hw.handed
  have hqueue : v.cfg.all.tests.filter (fun t => !(readLedger e.progress).has t) =
      v.cfg.all.tests.filter (fun t => !d.ledger.has t) := by
    simp only [hd.has_eq]
  refine ⟨{ w with thread := .loaded
                   queue := v.cfg.all.tests.filter (fun t => !d.ledger.has t)
                   unstarted := c.concurrency.toNat }, ?_, ?_⟩
  · rw [Worker.load, hc]
    change (c.all h).bind _ = _
    rw [hall]
    rfl
  · exact { hw with
      thread := rfl
      queue := hqueue
      unstarted := congrArg Int.toNat hconc.symm
      claimed := fun t ht => hw.named t (List.mem_of_mem_filter ht)
      settled := by simp }

/-- A worker that writes its map. -/
theorem DiskMatches.write_registry {d : Disk} {e : CorpusRunner.Disk} (hd : DiskMatches d e)
    {m : JsMap JsString Reg} {m' : JsMap JsString CorpusRunner.Reg}
    (hm : m' = m.mapValues Reg.plain) (hne : ∀ t ∈ m.keys, t ≠ []) :
    DiskMatches { d with inflight := some (registryText m) }
      { e with inflight := CorpusRunner.registry m' } := by
  subst hm
  apply hd.write
  · exact readInflightText_registryText hne
  · intro x hx
    apply hne
    rw [← JsMap.keys_mapValues Reg.plain, ← listed_registry]
    exact List.mem_map_of_mem hx

/-- What a worker's step leads to from matching states. -/
abbrev Pairs (h : Host) (x : Worker × Disk) (y : CorpusRunner.Worker × CorpusRunner.Disk) : Prop :=
  WorkerMatches h x.1 y.1 ∧ DiskMatches x.2 y.2

/-- A worker on the texts can do what the worker on the lists can. -/
theorem worker_step {h : Host} {w : Worker} {v : CorpusRunner.Worker} {d : Disk}
    {e : CorpusRunner.Disk} (hw : WorkerMatches h w v) (hd : DiskMatches d e) (we : WorkerEvent) :
    Option.Rel (Pairs h) (w.step h d we) (v.step e we) := by
  have hslot := hw.takeSlot
  obtain ⟨cfg, thread, queue, unstarted, looping, inFlight⟩ := v
  obtain ⟨corpusCfg, thread', queue', unstarted', looping', inFlight'⟩ := w
  obtain rfl : thread = thread' := hw.thread
  obtain rfl : queue = queue' := hw.queue
  obtain rfl : unstarted = unstarted' := hw.unstarted
  obtain rfl : looping = looping' := hw.looping
  have hmap : inFlight = inFlight'.mapValues Reg.plain := hw.inFlight
  have hrunning : ∀ t ∈ inFlight'.keys, t ≠ [] := hw.running
  cases thread <;> cases we
  case boot.load =>
    obtain ⟨w', hload, hw'⟩ := load_step hw hd
    simp only [Worker.step, hload, Option.map_some]
    exact .some ⟨hw', hd⟩
  case loaded.clear =>
    obtain ⟨c, hc, -, hsame⟩ := hw.handed
    have hconc : c.concurrency = cfg.concurrency := hsame
    simp only [Worker.step, CorpusRunner.Worker.step, hc, Option.bind_eq_bind, Option.bind_some,
      Option.pure_def, hconc]
    refine .some ⟨{ hw with thread := rfl, settled := ?_ }, hd.write_registry hmap hrunning⟩
    intro r
    split <;> simp
  case idle.claim now =>
    cases queue with
    | nil => exact .none
    | cons t rest =>
      simp only [Worker.step, CorpusRunner.Worker.step]
      generalize Worker.takeSlot _ = a at hslot ⊢
      generalize CorpusRunner.Worker.takeSlot _ = b at hslot ⊢
      cases hslot with
      | none => exact .none
      | some hslot =>
        have hset : inFlight.set t ⟨now, none⟩ =
            (inFlight'.set t ⟨now, .null⟩).mapValues Reg.plain := by
          rw [hmap, JsMap.mapValues_set]
          rfl
        have hkeys : ∀ t' ∈ (inFlight'.set t ⟨now, .null⟩).keys, t' ≠ [] := by
          intro t' ht'
          rcases JsMap.mem_keys_set.mp ht' with ht' | rfl
          · exact hrunning t' ht'
          · exact hw.claimed t' (by simp)
        exact .some ⟨{ hslot with
          thread := rfl
          queue := rfl
          inFlight := hset
          claimed := fun t' ht' => hw.claimed t' (List.mem_cons_of_mem _ ht')
          running := hkeys
          settled := by simp }, hd⟩
  case idle.slotEnd =>
    cases queue with
    | nil =>
      simp only [Worker.step, CorpusRunner.Worker.step]
      generalize Worker.takeSlot _ = a at hslot ⊢
      generalize CorpusRunner.Worker.takeSlot _ = b at hslot ⊢
      cases hslot with
      | none => exact .none
      | some hslot => exact .some ⟨hslot, hd⟩
    | cons t rest => exact .none
  case idle.settle r =>
    have hkeys : inFlight.keys = inFlight'.keys := by rw [hmap, JsMap.keys_mapValues]
    simp only [Worker.step, CorpusRunner.Worker.step, hkeys]
    split
    · rename_i hr
      refine .some ⟨{ hw with thread := rfl, settled := ?_ }, hd⟩
      rintro r' ⟨⟩
      exact hrunning _ hr.2
    · exact .none
  case claimed.register t =>
    exact .some ⟨{ hw with thread := rfl, settled := by simp },
      hd.write_registry hmap hrunning⟩
  case registered.spawn t t' pid =>
    simp only [Worker.step, CorpusRunner.Worker.step]
    split
    · exact .some ⟨{ hw with thread := rfl, settled := by simp }, hd⟩
    · exact .none
  case registered.spawnThrows t t' =>
    simp only [Worker.step, CorpusRunner.Worker.step]
    split
    · exact .some ⟨{ hw with thread := rfl, settled := by simp }, hd⟩
    · exact .none
  case spawned.mirror t pid =>
    have hmirror : inFlight.modify t (fun v => { v with pid := pid }) =
        (inFlight'.modify t (fun v => { v with pid := .of pid })).mapValues Reg.plain := by
      rw [hmap, JsMap.mapValues_modify]
      intro v
      simp [Reg.plain]
    refine .some ⟨{ hw with
      thread := rfl
      inFlight := hmirror
      running := ?_
      settled := by simp }, hd.write_registry hmirror ?_⟩
    all_goals simpa using hrunning
  case settled.append r =>
    have hr : r.test ≠ [] := hw.settled r rfl
    exact .some ⟨{ hw with thread := rfl, settled := by simp }, hd.append hr⟩
  case appended.deregister t =>
    have hdelete : inFlight.delete t = (inFlight'.delete t).mapValues Reg.plain := by
      rw [hmap, JsMap.mapValues_delete]
    have hkeys : ∀ t' ∈ (inFlight'.delete t).keys, t' ≠ [] := by
      intro t' ht'
      rw [JsMap.keys_delete] at ht'
      exact hrunning t' (List.mem_of_mem_filter ht')
    exact .some ⟨{ hw with
      thread := rfl
      looping := rfl
      inFlight := hdelete
      running := hkeys
      settled := by simp }, hd.write_registry hdelete hkeys⟩
  all_goals exact .none

/-! ## The harvest -/

/-- The two harvests stand at the same place and have read the same entries. -/
inductive PhaseMatches : HarvestPhase → CorpusRunner.HarvestPhase → Prop
  | readInflight : PhaseMatches .readInflight .readInflight
  | readLedger {entries : List Entry} : (∀ x ∈ entries, x.test ≠ []) →
      PhaseMatches (.readLedger (entries.map Entry.item)) (.readLedger entries)
  | reap {entries targets : List Entry} : (∀ x ∈ targets, x.test ≠ []) →
      PhaseMatches (.reap (entries.map Entry.item) (targets.map Entry.item))
        (.reap entries targets)
  | append {targets : List Entry} {marked : List JsString} : (∀ x ∈ targets, x.test ≠ []) →
      PhaseMatches (.append (targets.map Entry.item) marked) (.append targets)
  | clear {marked : List JsString} : PhaseMatches (.clear marked) .clear

/-- What a step of the harvest leads to from matching phases: another phase, or its return. -/
inductive HarvestMatches : (HarvestPhase ⊕ List JsString) × Disk →
    Option CorpusRunner.HarvestPhase × CorpusRunner.Disk → Prop
  | next {phase phase' d e} : PhaseMatches phase phase' → DiskMatches d e →
      HarvestMatches (.inl phase, d) (some phase', e)
  | done {marked d e} : DiskMatches d e → HarvestMatches (.inr marked, d) (none, e)

theorem harvest_step (reason : JsString) (b : Bool) {phase : HarvestPhase}
    {phase' : CorpusRunner.HarvestPhase} {d : Disk} {e : CorpusRunner.Disk}
    (hp : PhaseMatches phase phase') (hd : DiskMatches d e) :
    HarvestMatches (Harvest.step ⟨reason, b, phase⟩ d)
      (CorpusRunner.Harvest.step ⟨reason, b, phase'⟩ e) := by
  cases hp with
  | readInflight =>
    have hread : d.registry = e.inflight.map Entry.item := hd.registry
    simp only [Harvest.step, hread]
    exact .next (.readLedger hd.listed) hd
  | @readLedger entries hne =>
    simp only [Harvest.step, harvestTargets_item b entries hd.has_eq]
    refine .next (.reap fun x hx => ?_) hd
    exact hne x (mem_harvestTargets hx).1
  | @reap entries targets hne =>
    cases entries with
    | nil => exact .next (.append hne) hd
    | cons x entries => exact .next (.reap hne) hd
  | @append targets marked hne =>
    cases targets with
    | nil => exact .next .clear hd
    | cons x targets =>
      refine .next (.append fun y hy => hne y (by simp [hy])) ?_
      apply hd.append
      exact hne x (by simp)
  | clear => exact .done (hd.write rfl (by simp))

/-! ## The supervisor -/

/-- The look behind the recovery belongs to the recovery's end. -/
inductive PcMatches (h : Host) : Pc → CorpusRunner.Pc → Prop
  | rmProgress : PcMatches h .rmProgress .rmProgress
  | rmInflight : PcMatches h .rmInflight .rmInflight
  | harvest {reason b phase phase' k} : PhaseMatches phase phase' →
      PcMatches h (.harvest ⟨reason, b, phase⟩ k) (.harvest ⟨reason, b, phase'⟩ k)
  | guard : PcMatches h .guard (.top 0)
  | top {n} : PcMatches h (.top n) (.top n)
  | launch {n before} : PcMatches h (.launch n before) (.launch n before)
  | await {n before w v} : WorkerMatches h w v →
      PcMatches h (.await n before w) (.await n before v)
  | exited {n before how} : PcMatches h (.exited n before how) (.exited n before how)
  | returned {n before result} :
      PcMatches h (.returned n before result) (.returned n before result)
  | clean : PcMatches h .clean .clean
  | broke {aborted} : PcMatches h (.broke aborted) (.broke aborted)

structure SupervisorMatches (h : Host) (s : Supervisor) (p : CorpusRunner.Supervisor) : Prop where
  settings : SettingsMatch h s.settings s.all p.cfg
  startedAt : p.startedAt = s.startedAt
  pc : PcMatches h s.pc p.pc

theorem tally_matches {h : Host} {s : Settings} {all : List JsString} {cfg : Config}
    (hs : SettingsMatch h s all cfg) (noProgress : Int) (before after : Nat)
    (result : CycleResult) :
    PcMatches h (tally s noProgress before after result).1
      (CorpusRunner.tally cfg noProgress before after result) := by
  simp only [tally, CorpusRunner.tally, hs.maxNoProgress]
  split
  · split
    · exact .broke
    · exact .top
  · exact .top

/-- What a step of the supervisor leads to from matching states. -/
abbrev Outcomes (h : Host) (x : Option Supervisor × Disk × List JsString)
    (y : Option CorpusRunner.Supervisor × CorpusRunner.Disk) : Prop :=
  Option.Rel (SupervisorMatches h) x.1 y.1 ∧ DiskMatches x.2.1 y.2

/-- But for the look at the ledger, a supervisor on the texts does what the one on the lists
does. -/
theorem supervisor_step {h : Host} {s : Supervisor} {p : CorpusRunner.Supervisor} {d : Disk}
    {e : CorpusRunner.Disk} (minutes : Int → JsString) (hs : SupervisorMatches h s p)
    (hd : DiskMatches d e) (hguard : s.pc ≠ .guard) (now : Int) :
    Option.Rel (Outcomes h) (s.step h minutes d now) (p.step e now) := by
  obtain ⟨settings, all, startedAt, pc⟩ := s
  obtain ⟨cfg, startedAt', pc'⟩ := p
  obtain ⟨hset, hstart, hpc⟩ := hs
  obtain rfl : startedAt' = startedAt := hstart
  have hall : cfg.all.tests = all := hset.all
  have hsize : d.ledger.size = (readLedger e.progress).size := hd.size_eq
  have at_ : ∀ {pc pc'} (t : Int), PcMatches h pc pc' →
      Option.Rel (SupervisorMatches h) (some ⟨settings, all, t, pc⟩) (some ⟨cfg, t, pc'⟩) :=
    fun t hpc => .some ⟨hset, rfl, hpc⟩
  cases hpc with
  | rmProgress =>
    have hd' : DiskMatches { d with progress := none } { e with progress := [] } :=
      { hd with progress := rfl, named := by simp }
    exact .some ⟨at_ _ .rmInflight, hd'⟩
  | rmInflight => exact .some ⟨at_ _ (.harvest .readInflight), hd.write rfl (by simp)⟩
  | @harvest reason b phase phase' k hp =>
    have hstep := harvest_step reason b hp hd
    simp only [Supervisor.step, CorpusRunner.Supervisor.step]
    generalize Harvest.step _ d = x at hstep ⊢
    generalize CorpusRunner.Harvest.step _ e = y at hstep ⊢
    cases hstep with
    | next hp' hd' => exact .some ⟨at_ _ (.harvest hp'), hd'⟩
    | done hd' =>
      cases k with
      | startup => exact .some ⟨at_ _ .guard, hd'⟩
      | cycle noProgress before after result =>
        exact .some ⟨at_ _ (tally_matches hset noProgress before after result), hd'⟩
  | guard => exact absurd rfl hguard
  | top =>
    simp only [Supervisor.step, CorpusRunner.Supervisor.step, hall, hd.has_eq, hsize]
    split
    · exact .some ⟨at_ _ .broke, hd⟩
    · exact .some ⟨at_ _ .launch, hd⟩
  | launch => exact .some ⟨at_ _ (.await (.launched hset)), hd⟩
  | await hw => exact .none
  | exited => exact .some ⟨at_ _ .returned, hd⟩
  | @returned noProgress before result =>
    simp only [Supervisor.step, CorpusRunner.Supervisor.step, hsize]
    cases result with
    | done => exact .some ⟨at_ _ .clean, hd⟩
    | stall =>
      have hreason : CorpusRunner.stallReason cfg = stallReason settings := by
        rw [CorpusRunner.stallReason, hset.stallMs]
        rfl
      rw [hreason]
      exact .some ⟨at_ _ (.harvest .readInflight), hd⟩
    | exit what => exact .some ⟨at_ _ (.harvest .readInflight), hd⟩
  | clean => exact .some ⟨at_ _ .top, hd.write rfl (by simp)⟩
  | broke =>
    subst hall
    obtain ⟨m, d', hwrite, hd'⟩ := hd.writeOutputs minutes cfg.all.tests startedAt' now
    simp only [Supervisor.step, hwrite]
    exact .some ⟨.none, hd'⟩

/-- The look at the ledger changes nothing that the lists know of. -/
theorem guard_step {h : Host} {s : Supervisor} {p : CorpusRunner.Supervisor} {d : Disk}
    (minutes : Int → JsString) (hs : SupervisorMatches h s p) (hguard : s.pc = .guard)
    (now : Int) : ∃ s' lines, s.step h minutes d now = some (some s', d, lines) ∧
      SupervisorMatches h s' p ∧ s'.pc ≠ .guard := by
  obtain ⟨settings, all, startedAt, pc⟩ := s
  obtain ⟨hset, hstart, hpc⟩ := hs
  obtain rfl : pc = .guard := hguard
  refine ⟨_, _, rfl, ⟨hset, hstart, ?_⟩, by simp⟩
  generalize p.pc = pc at hpc ⊢
  cases hpc
  exact .top

/-! ## The system -/

/-- The output directory `dir` and who works on it. -/
structure SysMatches (h : Host) (dir : AbsPath) (s : Sys) (t : CorpusRunner.Sys) : Prop where
  dir : s.dir = dir
  disk : DiskMatches s.disk t.disk
  sup : Option.Rel (SupervisorMatches h) s.sup t.sup
  orphans : List.Forall₂ (WorkerMatches h) s.orphans t.orphans

theorem current_matched {h : Host} {s : Sys} {t : CorpusRunner.Sys}
    (hsup : Option.Rel (SupervisorMatches h) s.sup t.sup) :
    List.Forall₂ (WorkerMatches h) s.current t.current := by
  unfold Sys.current CorpusRunner.Sys.current
  generalize s.sup = a at hsup ⊢
  generalize t.sup = b at hsup ⊢
  cases hsup with
  | none => exact .nil
  | @some x y hxy =>
    obtain ⟨settings, all, at_, pc⟩ := x
    obtain ⟨cfg, at', pc'⟩ := y
    have hpc : PcMatches h pc pc' := hxy.pc
    cases hpc with
    | await hw => exact .cons hw .nil
    | _ => exact .nil

/-- The event of the lists that stands for an event of the program. A call stands for a start
with the configuration that its arguments and its environment give. -/
inductive StandsFor (h : Host) : Event → CorpusRunner.Event → Prop
  | start {inv : Invocation} {all : List JsString} {cfg : Config} :
      SettingsMatch h inv.settings all cfg → StandsFor h (.start inv) (.start cfg inv.fresh)
  | sup {now} : StandsFor h (.sup now) (.sup now)
  | stall : StandsFor h .stall .stall
  | worker {e} : StandsFor h (.worker e) (.worker e)
  | workerExits : StandsFor h .workerExits .workerExits
  | workerDies {what} : StandsFor h (.workerDies what) (.workerDies what)
  | orphan {i e} : StandsFor h (.orphan i e) (.orphan i e)
  | orphanExits {i} : StandsFor h (.orphanExits i) (.orphanExits i)
  | orphanDies {i} : StandsFor h (.orphanDies i) (.orphanDies i)
  | interrupt : StandsFor h .interrupt .interrupt
  | containerCrash : StandsFor h .containerCrash .containerCrash

/-- The numbers of a call are safe integers. -/
def Event.Safe : Event → Prop
  | .start inv => inv.settings.Safe
  | _ => True

instance : DecidablePred Event.Safe
  | .start inv => inferInstanceAs (Decidable inv.settings.Safe)
  | .sup _ | .stall | .worker _ | .workerExits | .workerDies _ | .orphan _ _ | .orphanExits _
  | .orphanDies _ | .interrupt | .containerCrash => inferInstanceAs (Decidable True)

/-- The steps that the lists have as well: a call for this directory that is one for a run, and
whatever is not the look behind the recovery. -/
def Shared (s : Sys) : Event → Prop
  | .start inv => inv.settings.outDir = s.dir ∧ inv.help = false ∧ inv.listOnly = false
  | .sup _ => ∀ p ∈ s.sup, p.pc ≠ .guard
  | _ => True

/-- Such a step is possible or refused on both sides, and leads to matching states. -/
theorem step_rel {h : Host} (minutes : Int → JsString) {dir : AbsPath} {s : Sys}
    {t : CorpusRunner.Sys} {e : Event} {e' : CorpusRunner.Event} (ht : SysMatches h dir s t)
    (he : StandsFor h e e') (hshared : Shared s e) :
    Option.Rel (SysMatches h dir) (s.step h minutes e) (t.step e') := by
  obtain ⟨dir', disk, sup, orphans, console⟩ := s
  obtain ⟨disk', sup', orphans', fallen, clock⟩ := t
  obtain ⟨hd, hdisk, hsup, horphans⟩ := ht
  cases he with
  | @start inv all cfg hcfg =>
    obtain ⟨hdir, hhelp, hlist⟩ := hshared
    cases hsup with
    | some hsup => exact .none
    | none =>
      simp only [Sys.step, Sys.start, CorpusRunner.Sys.step, hdir, hcfg.resolved, hhelp, hlist,
        true_and, if_true, Bool.false_eq_true, if_false]
      cases inv.fresh with
      | true => exact .some ⟨hd, hdisk, .some ⟨hcfg, rfl, .rmProgress⟩, horphans⟩
      | false => exact .some ⟨hd, hdisk, .some ⟨hcfg, rfl, .harvest .readInflight⟩, horphans⟩
  | @sup now =>
    cases hsup with
    | none => exact .none
    | @some p q hpq =>
      have hstep := supervisor_step minutes hpq hdisk (hshared p rfl) now
      simp only [Sys.step, CorpusRunner.Sys.step]
      generalize Supervisor.step h minutes p disk now = x at hstep ⊢
      generalize CorpusRunner.Supervisor.step q disk' now = y at hstep ⊢
      cases hstep with
      | none => exact .none
      | some hout => exact .some ⟨hd, hout.2, hout.1, horphans⟩
  | stall =>
    cases hsup with
    | none => exact .none
    | @some p q hpq =>
      obtain ⟨settings, all, at_, pc⟩ := p
      obtain ⟨cfg, _, pc'⟩ := q
      obtain ⟨hset, rfl, hpc⟩ := hpq
      cases hpc with
      | await hw => exact .some ⟨hd, hdisk, .some ⟨hset, rfl, .returned⟩, horphans⟩
      | exited => exact .some ⟨hd, hdisk, .some ⟨hset, rfl, .returned⟩, horphans⟩
      | _ => exact .none
  | @worker we =>
    cases hsup with
    | none => exact .none
    | @some p q hpq =>
      obtain ⟨settings, all, at_, pc⟩ := p
      obtain ⟨cfg, _, pc'⟩ := q
      obtain ⟨hset, rfl, hpc⟩ := hpq
      cases hpc with
      | @await noProgress before w v hw =>
        have hstep := worker_step hw hdisk we
        simp only [Sys.step, CorpusRunner.Sys.step]
        generalize Worker.step h w disk we = x at hstep ⊢
        generalize CorpusRunner.Worker.step v disk' we = y at hstep ⊢
        cases hstep with
        | none => exact .none
        | some hout => exact .some ⟨hd, hout.2, .some ⟨hset, rfl, .await hout.1⟩, horphans⟩
      | _ => exact .none
  | workerExits =>
    cases hsup with
    | none => exact .none
    | @some p q hpq =>
      obtain ⟨settings, all, at_, pc⟩ := p
      obtain ⟨cfg, _, pc'⟩ := q
      obtain ⟨hset, rfl, hpc⟩ := hpq
      cases hpc with
      | await hw =>
        simp only [Sys.step, CorpusRunner.Sys.step, hw.canExit_eq, hw.thread]
        split
        · exact .some ⟨hd, hdisk, .some ⟨hset, rfl, .exited⟩, horphans⟩
        split
        · exact .some ⟨hd, hdisk, .some ⟨hset, rfl, .exited⟩, horphans⟩
        · exact .none
      | _ => exact .none
  | workerDies =>
    cases hsup with
    | none => exact .none
    | @some p q hpq =>
      obtain ⟨settings, all, at_, pc⟩ := p
      obtain ⟨cfg, _, pc'⟩ := q
      obtain ⟨hset, rfl, hpc⟩ := hpq
      cases hpc with
      | await hw => exact .some ⟨hd, hdisk, .some ⟨hset, rfl, .exited⟩, horphans⟩
      | _ => exact .none
  | @orphan i we =>
    have hi := rel_getElem? horphans i
    simp only [Sys.step, CorpusRunner.Sys.step]
    generalize orphans[i]? = x at hi ⊢
    generalize orphans'[i]? = y at hi ⊢
    cases hi with
    | none => exact .none
    | @some w v hw =>
      have hstep := worker_step hw hdisk we
      simp only
      generalize Worker.step h w disk we = x at hstep ⊢
      generalize CorpusRunner.Worker.step v disk' we = y at hstep ⊢
      cases hstep with
      | none => exact .none
      | some hout => exact .some ⟨hd, hout.2, hsup, rel_set horphans i hout.1⟩
  | @orphanExits i =>
    have hi := rel_getElem? horphans i
    simp only [Sys.step, CorpusRunner.Sys.step]
    generalize orphans[i]? = x at hi ⊢
    generalize orphans'[i]? = y at hi ⊢
    cases hi with
    | none => exact .none
    | some hw =>
      simp only [hw.canExit_eq, hw.thread]
      split
      · exact .some ⟨hd, hdisk, hsup, rel_eraseIdx horphans i⟩
      · exact .none
  | @orphanDies i =>
    have hi := rel_getElem? horphans i
    simp only [Sys.step, CorpusRunner.Sys.step]
    generalize orphans[i]? = x at hi ⊢
    generalize orphans'[i]? = y at hi ⊢
    cases hi with
    | none => exact .none
    | some hw => exact .some ⟨hd, hdisk, hsup, rel_eraseIdx horphans i⟩
  | interrupt =>
    cases hsup with
    | none => exact .none
    | some hpq =>
      refine .some ⟨hd, hdisk, .none, List.rel_append horphans ?_⟩
      apply current_matched
      exact .some hpq
  | containerCrash => exact .some ⟨hd, hdisk, .none, .nil⟩

/-- What the lists do not have changes nothing that they know of. -/
theorem unshared_step {h : Host} {minutes : Int → JsString} {dir : AbsPath} {s s' : Sys}
    {t : CorpusRunner.Sys} {e : Event} (ht : SysMatches h dir s t) (hshared : ¬ Shared s e)
    (hs : s.step h minutes e = some s') : SysMatches h dir s' t := by
  cases e with
  | start inv =>
    simp only [Sys.step, Sys.start] at hs
    split at hs
    case isFalse => cases hs
    rename_i hfree
    split at hs
    case h_1 => cases hs
    split at hs
    · obtain rfl := Option.some.inj hs
      exact { ht with }
    rename_i hhelp
    split at hs
    · obtain rfl := Option.some.inj hs
      exact { ht with }
    rename_i hlist
    exact absurd ⟨hfree.2, by simpa using hhelp, by simpa using hlist⟩ hshared
  | sup now =>
    obtain ⟨p, hp, hguard⟩ : ∃ p, s.sup = some p ∧ p.pc = .guard := by
      simpa [Shared] using hshared
    have hsup := ht.sup
    rw [hp] at hsup
    obtain ⟨q, hq, hpq⟩ := rel_some_left hsup
    obtain ⟨p', lines, hstep, hp', -⟩ := guard_step (d := s.disk) minutes hpq hguard now
    simp only [Sys.step, hp, hstep] at hs
    obtain rfl := Option.some.inj hs
    refine { ht with sup := ?_ }
    rw [hq]
    exact .some hp'
  | _ => exact absurd trivial hshared

theorem exists_standsFor {h : Host} {minutes : Int → JsString} {s s' : Sys} {e : Event}
    (hs : s.step h minutes e = some s') : ∃ e', StandsFor h e e' := by
  cases e with
  | start inv =>
    simp only [Sys.step, Sys.start] at hs
    split at hs
    case isFalse => cases hs
    split at hs
    case h_1 => cases hs
    rename_i all hall
    exact ⟨.start ⟨⟨all, (all_spec hall).2⟩, inv.settings.concurrency, inv.settings.stallMs,
      inv.settings.maxNoProgress⟩ inv.fresh, .start ⟨hall, rfl, rfl, rfl, rfl⟩⟩
  | sup => exact ⟨_, .sup⟩
  | stall => exact ⟨_, .stall⟩
  | worker => exact ⟨_, .worker⟩
  | workerExits => exact ⟨_, .workerExits⟩
  | workerDies => exact ⟨_, .workerDies⟩
  | orphan => exact ⟨_, .orphan⟩
  | orphanExits => exact ⟨_, .orphanExits⟩
  | orphanDies => exact ⟨_, .orphanDies⟩
  | interrupt => exact ⟨_, .interrupt⟩
  | containerCrash => exact ⟨_, .containerCrash⟩

/-- The lists simulate the texts. -/
theorem simulates (h : Host) (minutes : Int → JsString) (dir : AbsPath)
    (ok : Sys → Event → Prop) :
    Simulates (Sys.step h minutes) ok CorpusRunner.Sys.step (SysMatches h dir) (StandsFor h) := by
  intro s e s' t ht _ hs
  by_cases hshared : Shared s e
  · obtain ⟨e', he⟩ := exists_standsFor hs
    have hstep := step_rel minutes ht he hshared
    rw [hs] at hstep
    obtain ⟨t', ht', hm⟩ := rel_some_left hstep
    exact ⟨[e'], t', .single trivial ht', hm, by simpa using he⟩
  · exact ⟨[], t, .refl, unshared_step ht hshared hs, by simp⟩

/-- A start that a call with this output directory makes, with numbers that are safe integers. -/
def Called (h : Host) (dir : AbsPath) : CorpusRunner.Event → Prop
  | .start cfg fresh => ∃ inv : Invocation, SettingsMatch h inv.settings cfg.all.tests cfg ∧
      inv.settings.Safe ∧ inv.settings.outDir = dir ∧ inv.help = false ∧ inv.listOnly = false ∧
      inv.fresh = fresh
  | _ => True

/-- Such an event is one of the program, unless the program is about to look. -/
theorem exists_called {h : Host} {dir : AbsPath} {e' : CorpusRunner.Event}
    (he' : Called h dir e') : ∃ e : Event, StandsFor h e e' ∧ e.Safe ∧ ∀ s : Sys, s.dir = dir →
      Shared s e ∨ ∃ now p, e = .sup now ∧ s.sup = some p ∧ p.pc = .guard := by
  cases e' with
  | start cfg fresh =>
    obtain ⟨inv, hset, hsafe, hdir, hhelp, hlist, rfl⟩ := he'
    exact ⟨_, .start hset, hsafe, fun s hs => .inl ⟨hdir.trans hs.symm, hhelp, hlist⟩⟩
  | sup now =>
    refine ⟨_, .sup, trivial, fun s _ => ?_⟩
    by_cases hguard : ∃ p, s.sup = some p ∧ p.pc = .guard
    · obtain ⟨p, hp, hpc⟩ := hguard
      exact .inr ⟨now, p, rfl, hp, hpc⟩
    · exact .inl fun p hp hpc => hguard ⟨p, hp, hpc⟩
  | stall => exact ⟨_, .stall, trivial, fun _ _ => .inl trivial⟩
  | worker => exact ⟨_, .worker, trivial, fun _ _ => .inl trivial⟩
  | workerExits => exact ⟨_, .workerExits, trivial, fun _ _ => .inl trivial⟩
  | workerDies => exact ⟨_, .workerDies, trivial, fun _ _ => .inl trivial⟩
  | orphan => exact ⟨_, .orphan, trivial, fun _ _ => .inl trivial⟩
  | orphanExits => exact ⟨_, .orphanExits, trivial, fun _ _ => .inl trivial⟩
  | orphanDies => exact ⟨_, .orphanDies, trivial, fun _ _ => .inl trivial⟩
  | interrupt => exact ⟨_, .interrupt, trivial, fun _ _ => .inl trivial⟩
  | containerCrash => exact ⟨_, .containerCrash, trivial, fun _ _ => .inl trivial⟩

/-- The texts simulate the lists, with a look of their own now and then. -/
theorem realizes (h : Host) (minutes : Int → JsString) (dir : AbsPath) :
    Simulates CorpusRunner.Sys.step (fun _ e => Called h dir e) (Sys.step h minutes)
      (fun t s => SysMatches h dir s t) (fun e' e => StandsFor h e e' ∧ e.Safe) := by
  intro t e' t' s ht hcalled hs
  obtain ⟨e, he, hsafe, hshared⟩ := exists_called hcalled
  rcases hshared s ht.dir with hshared | ⟨now, p, rfl, hp, hguard⟩
  · have hstep := step_rel minutes ht he hshared
    rw [hs] at hstep
    obtain ⟨s', hs', hm⟩ := rel_some_right hstep
    exact ⟨[e], s', .single trivial hs', hm, by simpa using ⟨he, hsafe⟩⟩
  · have hunshared : ¬ Shared s (.sup now) := fun hl => hl p hp hguard
    have hsup := ht.sup
    rw [hp] at hsup
    obtain ⟨q, hq, hpq⟩ := rel_some_left hsup
    obtain ⟨p', lines, hlook, -, hpc'⟩ := guard_step (d := s.disk) minutes hpq hguard now
    have hs₁ : s.step h minutes (.sup now) =
        some { s with sup := some p', console := s.console ++ lines } := by
      simp only [Sys.step, hp, hlook]
    have hguard₁ : Shared { s with sup := some p', console := s.console ++ lines } (.sup now) := by
      rintro p ⟨⟩
      exact hpc'
    have hm₁ := unshared_step ht hunshared hs₁
    have hstep := step_rel minutes hm₁ he hguard₁
    rw [hs] at hstep
    obtain ⟨s₂, hs₂, hm₂⟩ := rel_some_right hstep
    refine ⟨[.sup now, .sup now], s₂, ?_, hm₂, by simpa using ⟨he, hsafe⟩⟩
    exact .cons trivial hs₁ (.single trivial hs₂)

theorem sysMatches_fresh (h : Host) (dir : AbsPath) :
    SysMatches h dir (Sys.fresh dir) (CorpusRunner.Sys.idle .empty) where
  dir := rfl
  disk :=
    { progress := rfl
      named := by simp [CorpusRunner.Sys.idle, CorpusRunner.Disk.empty]
      registry := rfl
      listed := by simp [CorpusRunner.Sys.idle, CorpusRunner.Disk.empty]
      results := by simp [CorpusRunner.Sys.idle, CorpusRunner.Disk.empty] }
  sup := .none
  orphans := .nil

/-- **Refinement.** Where the numbers of all calls are safe integers, whatever a directory's
supervisors and workers do with the texts of their files is what the system of lists can do, and
the files then hold what its lists hold; and what the system of lists can do from such calls with
this directory, they can do. -/
theorem refinement (h : Host) (minutes : Int → JsString) (dir : AbsPath) :
    (∀ es s, Run (Sys.step h minutes) (fun _ e => e.Safe) (Sys.fresh dir) es s →
      ∃ es' t, Run CorpusRunner.Sys.step unrestricted (CorpusRunner.Sys.idle .empty) es' t ∧
        SysMatches h dir s t ∧ ∀ e' ∈ es', ∃ e ∈ es, StandsFor h e e') ∧
    ∀ es' t, Run CorpusRunner.Sys.step (fun _ e => Called h dir e)
        (CorpusRunner.Sys.idle .empty) es' t →
      ∃ es s, Run (Sys.step h minutes) (fun _ e => e.Safe) (Sys.fresh dir) es s ∧
        SysMatches h dir s t ∧ ∀ e ∈ es, ∃ e' ∈ es', StandsFor h e e' := by
  constructor
  · intro es s hrun
    exact hrun.simulate (simulates h minutes dir _) (sysMatches_fresh h dir)
  · intro es' t hrun
    obtain ⟨es, s, hrun', hm, hes⟩ :=
      hrun.simulate (realizes h minutes dir) (sysMatches_fresh h dir)
    refine ⟨es, s, hrun'.of_events fun e he => ?_, hm, fun e he => ?_⟩
    · obtain ⟨-, -, -, hsafe⟩ := hes e he
      exact hsafe
    · obtain ⟨e', he', hstands, -⟩ := hes e he
      exact ⟨e', he', hstands⟩

/-- The first test is recorded and its slot is not free again when the container crashes. -/
def firstRecord : List Event :=
  [.start plainCall] ++ List.replicate 8 (.sup 5) ++
  [.load, .clear, .claim 1, .register, .spawn (js "test-a.js") (some 11), .mirror, .claim 2,
    .register, .spawn (js "test-b.js") none, .mirror, .slotEnd, .slotEnd,
    .settle ⟨js "test-a.js", .pass, 7, some 0, none, [], none⟩, .append].map Event.worker ++
  [.containerCrash]

theorem safe_firstRecord : ∀ e ∈ firstRecord, e.Safe := by
  decide

theorem refinement_firstRecord :
    ∃ s t, execute (Sys.step twoTestHost (fun _ => [])) unrestricted
        (Sys.fresh plainCall.settings.outDir) firstRecord = some s ∧
      SysMatches twoTestHost plainCall.settings.outDir s t ∧
      s.disk.progress = some (appended (.ran ⟨js "test-a.js", .pass, 7, some 0, none, [], none⟩)) ∧
      (readLedger t.disk.progress).has (js "test-a.js") = true := by
  have hrun : (execute (Sys.step twoTestHost (fun _ => [])) unrestricted
      (Sys.fresh plainCall.settings.outDir) firstRecord).map (fun s => s.disk.progress) =
      some (some (appended (.ran ⟨js "test-a.js", .pass, 7, some 0, none, [], none⟩))) := by
    decide +kernel
  obtain ⟨s, hs, hprogress⟩ := Option.map_eq_some_iff.mp hrun
  obtain ⟨es', t, -, hm, -⟩ := (refinement twoTestHost (fun _ => []) plainCall.settings.outDir).1
    firstRecord s ((run_of_execute hs).of_events safe_firstRecord)
  refine ⟨s, t, hs, hm, hprogress, ?_⟩
  rw [← hm.disk.has_eq, Disk.ledger, hprogress]
  decide +kernel

end Program

end CorpusRunner
