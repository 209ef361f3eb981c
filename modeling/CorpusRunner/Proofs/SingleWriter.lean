import CorpusRunner.Proofs.ProcessSteps
import CorpusRunner.Proofs.LedgerSafety

/-!
# When there is a single writer

A worker outlives an interrupted supervisor, its pid is kept nowhere, and the startup harvest
takes it for dead. If it is, whenever a startup harvest comes to its end, then no two workers
are ever alive together, and none appends for an earlier supervisor than the one that
harvested last.
-/

namespace CorpusRunner

open ProcTable

/-- Before the loop. -/
def Pc.inStartup : Pc → Bool
  | .rmProgress => true
  | .rmInflight => true
  | .harvest _ k => k = .startup
  | _ => false

/-- Whether the supervisor's next step is the last one of its startup harvest. -/
def Sys.startupEnds (s : Sys) : Bool :=
  match s.pc with
  | some (.harvest ⟨_, _, .clear⟩ .startup) => true
  | _ => false

/-- No worker of an earlier supervisor is alive when a startup harvest comes to its end. -/
def lone (w : World) : WorldEvent → Prop
  | .prog (.sup _) _ _ => w.sys.startupEnds = true → w.sys.orphans = []
  | _ => True

instance (w : World) (e : WorldEvent) : Decidable (lone w e) := by
  induction e using WorldEvent.casesOn with
  | prog e pid pgid =>
    induction e using Event.casesOn <;> dsimp only [lone] <;> infer_instance
  | _ => dsimp only [lone]; infer_instance

/-- The places of the live workers. -/
def World.places (w : World) : List Nat :=
  w.os.orphans ++ w.sys.current.map (fun _ => w.os.worker)

/-- The processes at `places` are workers that belong to supervisors from `harvested` on, and
they are the only workers that run. -/
structure Placed (procs : List (Proc Role)) (harvested : Nat) (places : List Nat) : Prop where
  role : ∀ k ∈ places, ∃ p n, procs[k]? = some p ∧ p.role = .worker n ∧ harvested ≤ n
  running : ∀ (k : Nat) p n, procs[k]? = some p → p.role = .worker n → p.running = true →
    k ∈ places

namespace Placed

variable {procs procs' : List (Proc Role)} {harvested : Nat} {places : List Nat}

theorem aged (h : Placed procs harvested places) (ha : Aged procs procs') :
    Placed procs' harvested places := by
  refine ⟨fun k hk => ?_, fun k q n hq hr hrun => ?_⟩
  · obtain ⟨p, n, hp, hr, hn⟩ := h.role k hk
    obtain ⟨q, hq, hl⟩ := ha.get hp
    exact ⟨q, n, hq, hl.role.trans hr, hn⟩
  · obtain ⟨p, hp, hl, -⟩ := ha.later k q hq
    exact h.running k p n hp (hl.role.symm.trans hr) (hl.running hrun)

/-- A process that is no worker is created. -/
theorem append (h : Placed procs harvested places) {q : Proc Role}
    (hq : ∀ n, q.role ≠ .worker n) : Placed (procs ++ [q]) harvested places := by
  refine ⟨fun k hk => ?_, fun k p n hp hr hrun => ?_⟩
  · obtain ⟨p, n, hp, hr, hn⟩ := h.role k hk
    obtain ⟨hlt, -⟩ := List.getElem?_eq_some_iff.mp hp
    exact ⟨p, n, by rwa [List.getElem?_append_left hlt], hr, hn⟩
  · rcases getElem?_created hp with hp | ⟨-, rfl⟩
    · exact h.running k p n hp hr hrun
    · exact absurd hr (hq n)

/-- The only live worker ends. -/
theorem ends {k : Nat} (h : Placed procs harvested [k]) : Placed (ends k procs) harvested [] := by
  refine ⟨by simp, fun i q n hq hr hrun => ?_⟩
  obtain ⟨p, hp, hl, -⟩ := (Aged.ends k procs).later i q hq
  obtain rfl : i = k := by
    simpa using h.running i p n hp (hl.role.symm.trans hr) (hl.running hrun)
  rw [not_running_of_ends hq] at hrun
  cases hrun

/-- A worker is launched while none is alive. -/
theorem launch (h : Placed procs harvested []) {pid session : Nat} (hs : harvested ≤ session) :
    Placed (procs ++ [.created pid pid (.worker session)]) harvested [procs.length] := by
  refine ⟨fun k hk => ?_, fun k p n hp hr hrun => ?_⟩
  · obtain rfl := List.mem_singleton.mp hk
    exact ⟨_, session, List.getElem?_concat_length, rfl, hs⟩
  · rcases getElem?_created hp with hp | ⟨rfl, -⟩
    · simpa using h.running k p n hp hr hrun
    · simp

theorem empty : Placed [] harvested [] := ⟨by simp, by simp⟩

end Placed

structure WriterInv (w : World) : Prop where
  orphans : w.os.orphans.length = w.sys.orphans.length
  few : w.sys.orphans.length ≤ 1
  /-- As long as a worker without a supervisor is alive, no later supervisor has harvested. -/
  waits : w.sys.orphans ≠ [] → ∀ p, w.sys.sup = some p → p.pc.inStartup = true
  session : w.os.harvested ≤ w.os.session
  placed : Placed w.os.procs w.os.harvested w.places

namespace WriterInv

theorem init (d : Disk) : WriterInv (World.idle d) where
  orphans := rfl
  few := by simp [World.idle, Sys.idle]
  waits := by simp [World.idle, Sys.idle]
  session := by simp [World.idle]
  placed := .empty

/-- What an event that creates no worker and ends none leaves of the table. -/
theorem placed_of_table {w w' : World} {e : WorldEvent} (h : WriterInv w)
    (ht : TableStep w e w'.os.procs) (hne : ∀ pid pgid, e ≠ .prog .containerCrash pid pgid)
    (hw : ∀ now pid pgid np before, e = .prog (.sup now) pid pgid →
      w.sys.pc ≠ some (.launch np before)) :
    Placed w'.os.procs w.os.harvested w.places := by
  cases ht with
  | aged ha => exact h.placed.aged ha
  | created q hc heq =>
    rw [heq]
    cases hc with
    | worker hpc => exact absurd hpc (hw _ _ _ _ _ rfl)
    | fork hp _ ht =>
      refine h.placed.append fun n hn => ?_
      have hr : (Proc.role _) = _ := hn
      simp only [Proc.created] at hr
      rw [hr] at ht
      cases ht
    | _ => exact h.placed.append (by simp [Proc.created])
  | emptied pid pgid he => exact absurd he (hne pid pgid)

/-- A step of the supervisor that neither launches a worker nor ends its startup. -/
theorem sup_frame {s s' : Sys} {os os' : Os} {cfg : Config} {at_ : Int} {pc : Pc}
    (h : WriterInv ⟨s, os⟩) (hsup : s.sup = some ⟨cfg, at_, pc⟩)
    (horph : s'.orphans = s.orphans) (hcur : s.current = []) (hcur' : s'.current = [])
    (hos : os'.orphans = os.orphans ∧ os'.session = os.session ∧ os'.harvested = os.harvested)
    (hp : Aged os.procs os'.procs)
    (hpc : pc.inStartup = true → ∀ p, s'.sup = some p → p.pc.inStartup = true) :
    WriterInv ⟨s', os'⟩ := by
  obtain ⟨ho, hses, hhar⟩ := hos
  have hplaced := h.placed
  simp only [World.places, hcur, List.map_nil, List.append_nil] at hplaced
  refine ⟨?_, ?_, ?_, ?_, ?_⟩
  · simp only [ho, horph]
    exact h.orphans
  · simp only [horph]
    exact h.few
  · simp only [horph]
    exact fun hne => hpc (h.waits hne _ hsup)
  · simp only [hses, hhar]
    exact h.session
  · simp only [World.places, hcur', List.map_nil, List.append_nil, ho, hhar]
    exact hplaced.aged hp

/-- The supervisor's steps. -/
theorem sup_step {d d' : Disk} {cfg : Config} {at_ now : Int} {pc : Pc} {p' : Option Supervisor}
    {orphans fallen fallen' : List Worker} {clock : Nat} {os os' : Os} {pid pgid : Pid}
    (h : WriterInv ⟨⟨d, some ⟨cfg, at_, pc⟩, orphans, fallen, clock⟩, os⟩)
    (hok : lone ⟨⟨d, some ⟨cfg, at_, pc⟩, orphans, fallen, clock⟩, os⟩ (.prog (.sup now) pid pgid))
    (hs : SupStep cfg at_ d now pc p' d') (ho : os.supStep pid pc = some os') :
    WriterInv ⟨⟨d', p', orphans, fallen', clock⟩, os'⟩ := by
  -- past its startup the supervisor's worker is the only one there may be
  have alone : pc.inStartup = false → orphans = [] :=
    fun hf => Sys.orphans_eq_nil h.waits rfl hf
  have nobody : orphans = [] → os.orphans = [] := by
    intro heq
    subst heq
    exact List.length_eq_zero_iff.mp h.orphans
  have hplaced := h.placed
  cases hs with
  | launch np before =>
    obtain rfl := alone rfl
    have hno := nobody rfl
    simp only [World.places, Sys.current, hno, List.map_nil, List.append_nil] at hplaced
    simp only [Os.supStep] at ho
    split at ho
    · rw [← Option.some.inj ho]
      exact ⟨h.orphans, h.few, fun hne => absurd rfl hne, h.session, by
        simpa [World.places, Sys.current, hno] using hplaced.launch h.session⟩
    · cases ho
  | clearStartup reason b =>
    obtain rfl : orphans = [] := hok rfl
    have hno := nobody rfl
    simp only [World.places, Sys.current, hno, List.map_nil, List.append_nil] at hplaced
    simp only [Os.supStep, Option.some.injEq] at ho
    subst ho
    refine ⟨h.orphans, h.few, fun hne => absurd rfl hne, Nat.le_refl _, ?_⟩
    simp only [World.places, Sys.current, hno, List.map_nil, List.append_nil]
    exact ⟨by simp, hplaced.running⟩
  | clearCycle reason b np before after result =>
    simp only [Os.supStep, Option.some.injEq] at ho
    subst ho
    refine h.sup_frame rfl rfl rfl ?_ ⟨rfl, rfl, rfl⟩ (.refl _) (by simp [Pc.inStartup])
    rcases tally_cases cfg np before after result with ⟨np', ht⟩ | ht <;> rw [ht] <;> rfl
  | reap reason b k e es targets =>
    simp only [Os.supStep, Option.some.injEq] at ho
    subst ho
    refine h.sup_frame rfl rfl rfl rfl ⟨rfl, rfl, rfl⟩ (aged_reapPid _ _) ?_
    intro hst p hp
    cases hp
    exact hst
  | outputs aborted =>
    simp only [Os.supStep, Option.some.injEq] at ho
    subst ho
    exact h.sup_frame rfl rfl rfl rfl ⟨rfl, rfl, rfl⟩ (.ends _ _) (by simp)
  | _ =>
    simp only [Os.supStep, Option.some.injEq] at ho
    subst ho
    refine h.sup_frame rfl rfl rfl rfl ⟨rfl, rfl, rfl⟩ (.refl _) ?_
    intro hst p hp
    cases hp
    exact hst

/-- The one worker without a supervisor has ended. -/
theorem orphan_gone {d : Disk} {sup : Option Supervisor} {orphans fallen fallen' : List Worker}
    {clock i k : Nat} {os : Os} {v : Worker}
    (h : WriterInv ⟨⟨d, sup, orphans, fallen, clock⟩, os⟩) (hi : orphans[i]? = some v)
    (hk : os.orphans[i]? = some k) :
    WriterInv ⟨⟨d, sup, orphans.eraseIdx i, fallen', clock⟩,
      { os with procs := ends k os.procs, orphans := os.orphans.eraseIdx i }⟩ := by
  have hplaced := h.placed
  have hlen := h.orphans
  have hfew := h.few
  simp only at hlen hfew
  obtain ⟨v', rfl⟩ : ∃ v', orphans = [v'] := by
    refine List.length_eq_one_iff.mp ?_
    have := (List.getElem?_eq_some_iff.mp hi).1
    omega
  obtain ⟨k', hk'⟩ : ∃ k', os.orphans = [k'] := List.length_eq_one_iff.mp hlen
  have hi0 : i = 0 := by
    have := (List.getElem?_eq_some_iff.mp hi).1
    simpa using this
  subst hi0
  obtain rfl : k' = k := by simpa [hk'] using hk
  have hcur : (Sys.mk d sup [v'] fallen clock).current = [] :=
    Sys.current_eq_nil (fun _ _ _ => rfl) (h.waits (by simp))
  have hcur' : (Sys.mk d sup [] fallen' clock).current = [] := hcur
  simp only [World.places, hcur, hk', List.map_nil, List.append_nil] at hplaced
  refine ⟨by simp [hk'], by simp, by simp, h.session, ?_⟩
  simpa [World.places, hcur', hk'] using hplaced.ends

/-- The supervisor's worker has ended; there is no other one. -/
theorem worker_gone {d : Disk} {cfg : Config} {at_ np : Int} {before clock : Nat} {v : Worker}
    {pc : Pc} {fallen fallen' : List Worker} {os : Os} {procs : List (Proc Role)}
    (h : WriterInv ⟨⟨d, some ⟨cfg, at_, .await np before v⟩, [], fallen, clock⟩, os⟩)
    (hp : Aged os.procs procs)
    (hcur : (Sys.mk d (some ⟨cfg, at_, pc⟩) [] fallen' clock).current = []) :
    WriterInv ⟨⟨d, some ⟨cfg, at_, pc⟩, [], fallen', clock⟩,
      { os with procs := ends os.worker procs }⟩ := by
  have hno : os.orphans = [] := List.length_eq_zero_iff.mp h.orphans
  have hplaced := h.placed
  refine ⟨h.orphans, h.few, fun hne => absurd rfl hne, h.session, ?_⟩
  simp only [World.places, Sys.current, hno, List.map_nil, List.map_cons,
    List.nil_append] at hplaced
  simp only [World.places, hcur, hno, List.map_nil, List.append_nil]
  exact (hplaced.aged hp).ends

theorem step {w w' : World} {e : WorldEvent} (h : WriterInv w) (hok : lone w e)
    (hs : w.step e = some w') : WriterInv w' := by
  have ht := World.table hs
  rcases World.step_cases hs with ⟨ev, pid, pgid, rfl, hsys, hos⟩ | ⟨hne, procs, rfl⟩
  · obtain ⟨⟨d, sup, orphans, fallen, clock⟩, os⟩ := w
    obtain ⟨s', os'⟩ := w'
    have hos : os.step ⟨d, sup, orphans, fallen, clock⟩ pid pgid ev = some os' := hos
    have hplaced := h.placed
    have hlen := h.orphans
    have hfew := h.few
    have hwaits := h.waits
    simp only at hlen hfew hwaits
    -- while a worker has its supervisor, there is no other one
    have alone : ∀ p, sup = some p → p.pc.inStartup = false → orphans = [] ∧ os.orphans = [] := by
      intro p hp hf
      have hor : orphans = [] := Sys.orphans_eq_nil h.waits hp hf
      exact ⟨hor, List.length_eq_zero_iff.mp (by rw [hlen, hor]; rfl)⟩
    cases sysStep_of_step hsys with
    | start cfg fresh =>
      have htab := h.placed_of_table ht (by simp) (by simp)
      simp only [Os.step] at hos
      split at hos
      · simp only [Option.some.injEq] at hos
        subst hos
        refine ⟨hlen, hfew, ?_, Nat.le_succ_of_le h.session, ?_⟩
        · rintro - p ⟨⟩
          cases fresh <;> rfl
        · cases fresh <;> exact htab
      · cases hos
    | sup hsup => exact h.sup_step hok hsup hos
    | @stallAwait cfg at_ np before v =>
      obtain ⟨rfl, -⟩ := alone _ rfl rfl
      obtain rfl := Option.some.inj hos
      exact h.worker_gone (aged_hardKill _ _) rfl
    | @stallExited cfg at_ np before how =>
      obtain ⟨rfl, hno⟩ := alone _ rfl rfl
      have htab := h.placed_of_table ht (by simp) (by simp)
      simp only [Os.step, Option.some.injEq] at hos
      subst hos
      exact ⟨hlen, hfew, fun hne => absurd rfl hne, h.session, htab⟩
    | @worker cfg at_ np before v v' d' we hw =>
      obtain ⟨rfl, hno⟩ := alone _ rfl rfl
      have htab := h.placed_of_table ht (by simp) (by simp)
      obtain ⟨hwk, horph, hses, hhar⟩ := workerStep_fields (k := os.worker) (v := v) hos
      refine ⟨by rw [horph]; exact hlen, hfew, fun hne => absurd rfl hne, ?_, ?_⟩
      · rw [hses, hhar]
        exact h.session
      · change Placed os'.procs os'.harvested (os'.orphans ++ [os'.worker])
        rw [hwk, horph, hhar]
        exact htab
    | @workerExits cfg at_ np before v hx =>
      obtain ⟨rfl, -⟩ := alone _ rfl rfl
      obtain rfl := Option.some.inj hos
      exact h.worker_gone (.refl _) rfl
    | @workerThrows cfg at_ np before v hx =>
      obtain ⟨rfl, -⟩ := alone _ rfl rfl
      obtain rfl := Option.some.inj hos
      exact h.worker_gone (.refl _) rfl
    | @workerDies cfg at_ np before v what =>
      obtain ⟨rfl, -⟩ := alone _ rfl rfl
      obtain rfl := Option.some.inj hos
      exact h.worker_gone (.refl _) rfl
    | @orphan p i v v' d' we hi hw =>
      have htab := h.placed_of_table ht (by simp) (by simp)
      simp only [Os.step, hi] at hos
      split at hos
      · rename_i k v'' hk hv
        obtain ⟨hwk, horph, hses, hhar⟩ := workerStep_fields hos
        refine ⟨by rw [horph]; simpa using hlen, by simpa using hfew, ?_, ?_, ?_⟩
        · intro _ p' hp'
          exact hwaits (by rintro rfl; simp at hi) p' hp'
        · rw [hses, hhar]
          exact h.session
        · simp only [World.places, Sys.current, hwk, horph, hhar] at htab ⊢
          exact htab
      · cases hos
    | @orphanExits p i v hi hx =>
      obtain ⟨k, hk, rfl⟩ := Option.map_eq_some_iff.mp hos
      exact h.orphan_gone hi hk
    | @orphanDies p i v hi =>
      obtain ⟨k, hk, rfl⟩ := Option.map_eq_some_iff.mp hos
      exact h.orphan_gone hi hk
    | @interrupt p =>
      simp only [Os.step, Option.some.injEq] at hos
      subst hos
      refine ⟨?_, Sys.length_interrupted (fun _ _ _ => rfl) h.few h.waits, by simp, h.session, ?_⟩
      · simpa using hlen
      · have hcur : (Sys.mk d none (orphans ++
            (Sys.mk d (some p) orphans fallen clock).current) fallen clock).current = [] := rfl
        simp only [World.places, hcur, List.map_nil, List.append_nil]
        exact hplaced.aged (Aged.ends os.supervisor os.procs)
    | @containerCrash p =>
      simp only [Os.step, Option.some.injEq] at hos
      subst hos
      exact ⟨rfl, by simp, by simp, h.session, .empty⟩
  · have htab := h.placed_of_table ht (fun pid pgid => hne _ pid pgid)
      (fun now pid pgid _ _ he => absurd he (hne _ pid pgid))
    exact ⟨h.orphans, h.few, h.waits, h.session, htab⟩

theorem of_run {d : Disk} {es : List WorldEvent} {w : World}
    (h : Run World.step lone (World.idle d) es w) : WriterInv w :=
  h.invariant (init d) fun _ _ _ hI hok hs => hI.step hok hs

end WriterInv

/-- At most one worker's process runs, and a worker without a supervisor takes a step only as
long as no later supervisor than its own has come to the end of its startup harvest. -/
structure SingleWriter (w : World) : Prop where
  one : w.sys.live.length ≤ 1
  process : ∀ (k k' : Nat) p p' n n', w.os.procs[k]? = some p → w.os.procs[k']? = some p' →
    p.role = .worker n → p'.role = .worker n' → p.running = true → p'.running = true → k = k'
  current : ∀ i we pid pgid w', w.step (.prog (.orphan i we) pid pgid) = some w' →
    ∃ k p n, w.os.orphans[i]? = some k ∧ w.os.procs[k]? = some p ∧ p.role = .worker n ∧
      w.os.harvested ≤ n

/-- **Single writer.** It holds in every state of a run in which no worker of an earlier
supervisor is alive when a startup harvest comes to its end. -/
theorem singleWriter {d : Disk} {es : List WorldEvent} {w : World}
    (h : Run World.step lone (World.idle d) es w) : SingleWriter w := by
  have hI := WriterInv.of_run h
  have hone : w.sys.live.length ≤ 1 := by
    have hle := Sys.length_interrupted (fun _ _ _ => rfl) hI.few hI.waits
    rw [List.length_append] at hle
    rw [Sys.live, List.length_append]
    omega
  refine ⟨hone, fun k k' p p' n n' hp hp' hr hr' hrun hrun' => ?_, ?_⟩
  · have hk := hI.placed.running k p n hp hr hrun
    have hk' := hI.placed.running k' p' n' hp' hr' hrun'
    have hlen : w.places.length ≤ 1 := by
      rw [Sys.live, List.length_append] at hone
      rw [World.places, List.length_append, List.length_map, hI.orphans]
      omega
    cases hpl : w.places with
    | nil => simp [hpl] at hk
    | cons a l =>
      obtain rfl : l = [] := by
        rw [hpl, List.length_cons] at hlen
        exact List.length_eq_zero_iff.mp (by omega)
      simp only [hpl, List.mem_singleton] at hk hk'
      rw [hk, hk']
  · intro i we pid pgid w' hs
    rcases World.step_cases hs with ⟨ev, pid', pgid', he, -, hos⟩ | ⟨hne, -⟩
    · simp only [WorldEvent.prog.injEq] at he
      obtain ⟨rfl, rfl, rfl⟩ := he
      simp only [Os.step] at hos
      split at hos
      · rename_i k v hk hv
        obtain ⟨p, n, hp, hr, hn⟩ :=
          hI.placed.role k (List.mem_append_left _ (List.mem_of_getElem? hk))
        exact ⟨k, p, n, hk, hp, hr, hn⟩
      · cases hos
    · exact absurd rfl (hne _ _ _)

/-- Two tests, one slot. -/
def oneSlot : Config := { twoTests with concurrency := 1 }

/-- A supervisor, its startup harvest of an empty registry, and a worker that has one child. -/
def workerAtWork : List WorldEvent :=
  [.prog (.start oneSlot false) 10 10] ++ List.replicate 7 (.prog (.sup 1) 11 0) ++
  [.load, .clear, .claim 1, .register, .spawn (js "a") (some 12), .mirror].map
    (fun e => .prog (.worker e) 0 0)

/-- The worker outlives its supervisor, and ends before the next one is started. -/
def workerEndsFirst : List WorldEvent :=
  workerAtWork ++ [.prog .interrupt 0 0, .prog (.orphanDies 0) 0 0,
    .prog (.start oneSlot false) 13 13] ++ List.replicate 9 (.prog (.sup 2) 14 0)

theorem singleWriter_workerEndsFirst :
    ∃ w, execute World.step lone (World.idle Disk.empty) workerEndsFirst = some w ∧
      w.sys.live.length = 1 ∧ SingleWriter w := by
  have single : ∀ w, execute World.step lone (World.idle Disk.empty) workerEndsFirst = some w →
      SingleWriter w := fun w hw => singleWriter (run_of_execute hw)
  exact ⟨_, rfl, rfl, single _ rfl⟩

/-- Ctrl-C, and the same command again: the second supervisor marks the test that the first
one's worker is running and launches a worker of its own. Then the first worker appends. -/
def interruptedWhileRunning : List WorldEvent :=
  workerAtWork ++ [.prog .interrupt 0 0, .prog (.start oneSlot false) 13 13] ++
  List.replicate 9 (.prog (.sup 2) 14 0) ++
  [.prog (.orphan 0 (.settle (passRec (js "a")))) 0 0, .prog (.orphan 0 .append) 0 0]

/-- Two workers are alive, and the older one has overwritten a crash mark. -/
theorem singleWriter_fails_interrupt :
    ∃ w, execute World.step unrestricted (World.idle Disk.empty) interruptedWhileRunning =
        some w ∧
      w.sys.live.length = 2 ∧
      w.sys.disk.progress = [.crashMark (js "a") startupReason, .ran (passRec (js "a"))] ∧
      w.os.harvested = 2 ∧
      w.os.orphans.map (fun k => w.os.procs[k]?.map Proc.role) = [some (.worker 1)] ∧
      ¬ SingleWriter w :=
  ⟨_, rfl, rfl, rfl, rfl, rfl, fun h => absurd h.one (by decide)⟩

end CorpusRunner
