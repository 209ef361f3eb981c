import CorpusRunner.Proofs.Children

/-!
# Interrupt and resume

Supervisors are interrupted and containers restarted at any step, and the run is started again
on the same directory; no test wedges. A test that `inflight.json` lists without a line when
the container goes down is taken for a suspect and marked; every other selected test ends up
with its verdict, provided that no worker outlives its supervisor into a later one's startup
harvest.
-/

namespace CorpusRunner

open ProcTable

/-- Tests that exit by themselves, supervisors that are interrupted, and containers that are
restarted; no worker of an earlier supervisor is alive when a startup harvest reads
`inflight.json`. -/
def calm (verdict : JsString → RunStatus) (w : World) : WorldEvent → Prop
  | .prog (.start _ fresh) _ _ => fresh = false
  | .prog (.sup _) _ _ => w.sys.startupReads = true → w.sys.orphans = []
  | .prog (.worker we) _ _ =>
    ∀ v ∈ w.sys.current, calmEvent verdict v w.os.worker w.os.procs we
  | .prog (.orphan i we) _ _ =>
    ∀ p ∈ (w.sys.orphans.zip w.os.orphans)[i]?.toList, calmEvent verdict p.1 p.2 w.os.procs we
  | .prog .stall _ _ => False
  | .prog (.workerDies _) _ _ => False
  | .prog (.orphanDies _) _ _ => False
  | _ => True

instance (verdict : JsString → RunStatus) (w : World) (e : WorldEvent) :
    Decidable (calm verdict w e) := by
  induction e using WorldEvent.casesOn with
  | prog e pid pgid =>
    induction e using Event.casesOn <;> dsimp only [calm] <;> infer_instance
  | _ => dsimp only [calm]; infer_instance

/-- At some restart of the container `t` was listed in `inflight.json` and had no line. -/
def Lost (verdict : JsString → RunStatus) (es : List WorldEvent) (t : JsString) : Prop :=
  ∃ es₁ es₂ pid pgid w, es = es₁ ++ .prog .containerCrash pid pgid :: es₂ ∧
    Run World.step (calm verdict) (World.idle Disk.empty) es₁ w ∧
    t ∈ listed w.sys.disk.inflight ∧ t ∉ recorded w.sys.disk.progress

theorem Lost.append {verdict : JsString → RunStatus} {es : List WorldEvent} {t : JsString}
    (h : Lost verdict es t) (e : WorldEvent) : Lost verdict (es ++ [e]) t := by
  obtain ⟨es₁, es₂, pid, pgid, w, rfl, h1, h2, h3⟩ := h
  exact ⟨es₁, es₂ ++ [e], pid, pgid, w, by simp, h1, h2, h3⟩

/-- A test gets lost in a restart of the container. -/
theorem lost_append_cases {verdict : JsString → RunStatus} {es : List WorldEvent}
    {e : WorldEvent} {t : JsString} {w : World}
    (hr : Run World.step (calm verdict) (World.idle Disk.empty) es w)
    (h : Lost verdict (es ++ [e]) t) : Lost verdict es t ∨
      (∃ pid pgid, e = .prog .containerCrash pid pgid) ∧ t ∈ listed w.sys.disk.inflight ∧
        t ∉ recorded w.sys.disk.progress := by
  obtain ⟨es₁, es₂, pid, pgid, w₁, heq, h1, h2, h3⟩ := h
  induction es₂ using List.reverseRecOn with
  | nil =>
    obtain ⟨rfl, he⟩ := List.append_inj' heq rfl
    obtain rfl := hr.det h1
    exact .inr ⟨⟨pid, pgid, by simpa using he⟩, h2, h3⟩
  | append_singleton es₂ e' _ =>
    have heq' : es ++ [e] = (es₁ ++ .prog .containerCrash pid pgid :: es₂) ++ [e'] := by
      simpa using heq
    obtain ⟨rfl, -⟩ := List.append_inj' heq' rfl
    exact .inl ⟨es₁, es₂, pid, pgid, w₁, rfl, h1, h2, h3⟩

/-- Listed without a line. -/
def Disk.Suspect (d : Disk) (t : JsString) : Prop := t ∈ listed d.inflight ∧ t ∉ recorded d.progress

/-- The harvest that is due or in progress will mark `t`. -/
def HarvestPhase.Owes (d : Disk) (t : JsString) : HarvestPhase → Prop
  | .readInflight => d.Suspect t
  | .readLedger _ => d.Suspect t
  | .reap _ targets => t ∈ listed targets
  | .append targets => t ∈ listed targets
  | .clear => False

def Pc.Owes (d : Disk) (t : JsString) : Pc → Prop
  | .harvest h _ => h.phase.Owes d t
  | _ => False

def Sys.Owes (s : Sys) (t : JsString) : Prop :=
  s.orphans = [] ∧
    match s.sup with
    | none => s.disk.Suspect t
    | some p => p.pc.Owes s.disk t

/-- After the startup a harvest is due only if the worker's pool has thrown. -/
def Harvest.CalmOk (cfg : Config) (d : Disk) (h : Harvest) : Resume → Prop
  | .startup => h.reason = startupReason ∧ h.onlyOldest = false
  | .cycle _ _ _ _ => d.inflight = [] ∧ arrayLimit ≤ cfg.concurrency

/-- Where the supervisor stands when nothing is killed but with the container. -/
def Pc.CalmOk (cfg : Config) (d : Disk) : Pc → Prop
  | .harvest h k => h.phase.Ok d ∧ h.CalmOk cfg d k
  | .top _ => d.inflight = []
  | .launch _ _ => d.inflight = []
  | .await _ _ v => v.cfg = cfg
  | .exited _ _ .zero => d.inflight = []
  | .exited _ _ (.abnormal _) => d.inflight = [] ∧ arrayLimit ≤ cfg.concurrency
  | .returned _ _ .done => d.inflight = []
  | .returned _ _ (.exit _) => d.inflight = [] ∧ arrayLimit ≤ cfg.concurrency
  | .clean => True
  | .broke false => d.inflight = [] ∧ Complete cfg d.progress
  | .broke true => d.inflight = [] ∧ arrayLimit ≤ cfg.concurrency
  | _ => False

/-- A line is the verdict, or the mark of a test that was lost. -/
def CalmLine (verdict : JsString → RunStatus) (es : List WorldEvent) (r : Rec) : Prop :=
  (∃ r', r = .ran r' ∧ r'.status = verdict r'.test) ∨
    ∃ t, r = .crashMark t startupReason ∧ Lost verdict es t

theorem CalmLine.append {verdict : JsString → RunStatus} {es : List WorldEvent} {r : Rec}
    (h : CalmLine verdict es r) (e : WorldEvent) : CalmLine verdict (es ++ [e]) r :=
  h.imp_right fun ⟨t, heq, hl⟩ => ⟨t, heq, hl.append e⟩

/-- The live workers with their places. -/
def World.workers (w : World) : List (Worker × Nat) :=
  w.sys.current.map (fun v => (v, w.os.worker)) ++ w.sys.orphans.zip w.os.orphans

structure CalmInv (verdict : JsString → RunStatus) (es : List WorldEvent) (w : World) :
    Prop where
  few : w.sys.orphans.length ≤ 1
  places : w.os.orphans.length = w.sys.orphans.length
  bound : ∀ p ∈ w.workers, p.2 < w.os.procs.length
  tests : ∀ q ∈ w.os.procs, ∀ t j, q.role = .test t j → j < w.os.procs.length
  waits : w.sys.orphans ≠ [] → ∀ p, w.sys.sup = some p → p.pc.beforeRead = true
  nodup : (recorded w.sys.disk.progress).Nodup
  lines : ∀ r ∈ w.sys.disk.progress, CalmLine verdict es r
  pc : ∀ p, w.sys.sup = some p → p.pc.CalmOk p.cfg w.sys.disk
  workers : ∀ p ∈ w.workers, p.1.Inv w.sys.disk ∧ p.1.Children verdict p.2 w.os.procs
  listed : (listed w.sys.disk.inflight).Nodup
  suspects : w.workers = [] → ∀ t, w.sys.disk.Suspect t → Lost verdict es t
  owed : ∀ t, Lost verdict es t →
    .crashMark t startupReason ∈ w.sys.disk.progress ∨ w.sys.Owes t

theorem not_lost_nil {verdict : JsString → RunStatus} {t : JsString} : ¬ Lost verdict [] t := by
  rintro ⟨es₁, es₂, pid, pgid, w, heq, -⟩
  simp at heq

namespace CalmInv

variable {verdict : JsString → RunStatus} {es : List WorldEvent}

theorem init : CalmInv verdict [] (World.idle Disk.empty) where
  few := by simp [World.idle, Sys.idle]
  places := rfl
  bound := by simp [World.idle, Sys.idle, World.workers, Sys.current]
  tests := by simp [World.idle]
  waits := by simp [World.idle, Sys.idle]
  nodup := by simp [World.idle, Sys.idle, Disk.empty]
  lines := by simp [World.idle, Sys.idle, Disk.empty]
  pc := by simp [World.idle, Sys.idle]
  workers := by simp [World.idle, Sys.idle, World.workers, Sys.current]
  listed := by simp [World.idle, Sys.idle, Disk.empty]
  suspects := by simp [World.idle, Sys.idle, Disk.empty, Disk.Suspect]
  owed := fun t h => absurd h not_lost_nil

theorem tests_aged {w : World} {procs : List (Proc Role)} (h : CalmInv verdict es w)
    (ha : Aged w.os.procs procs) :
    ∀ q ∈ procs, ∀ t j, q.role = .test t j → j < procs.length := by
  intro q hq t j hr
  obtain ⟨p, hp, hl⟩ := ha.mem hq
  rw [ha.length]
  exact h.tests p hp t j (hl.role.symm.trans hr)

/-- A step that leaves the lines alone, after which no worker is alive. -/
theorem frame {w w' : World} {e : WorldEvent} (h : CalmInv verdict es w)
    (hprog : w'.sys.disk.progress = w.sys.disk.progress)
    (hlist : (CorpusRunner.listed w'.sys.disk.inflight).Nodup)
    (hor : w'.sys.orphans = []) (hcur : w'.sys.current = []) (hos : w'.os.orphans = [])
    (htests : ∀ q ∈ w'.os.procs, ∀ t j, q.role = .test t j → j < w'.os.procs.length)
    (hpc : ∀ p, w'.sys.sup = some p → p.pc.CalmOk p.cfg w'.sys.disk)
    (hsus : ∀ t, w'.sys.disk.Suspect t → Lost verdict (es ++ [e]) t)
    (howed : ∀ t, Lost verdict (es ++ [e]) t →
      .crashMark t startupReason ∈ w.sys.disk.progress ∨ w'.sys.Owes t) :
    CalmInv verdict (es ++ [e]) w' where
  few := by simp [hor]
  places := by simp [hor, hos]
  bound := by simp [World.workers, hor, hcur]
  tests := htests
  waits := fun hne => absurd hor hne
  nodup := by rw [hprog]; exact h.nodup
  lines := fun r hr => (h.lines r (hprog ▸ hr)).append e
  pc := hpc
  workers := by simp [World.workers, hor, hcur]
  listed := hlist
  suspects := fun _ => hsus
  owed := fun t hl => by rw [hprog]; exact howed t hl

/-- The supervisor's steps. -/
theorem sup_step {d d' : Disk} {cfg : Config} {at_ now : Int} {pc : Pc} {p' : Option Supervisor}
    {orphans fallen fallen' : List Worker} {clock : Nat} {os os' : Os} {pid pgid : Pid}
    (h : CalmInv verdict es ⟨⟨d, some ⟨cfg, at_, pc⟩, orphans, fallen, clock⟩, os⟩)
    (hrun : Run World.step (calm verdict) (World.idle Disk.empty) es
      ⟨⟨d, some ⟨cfg, at_, pc⟩, orphans, fallen, clock⟩, os⟩)
    (hok : calm verdict ⟨⟨d, some ⟨cfg, at_, pc⟩, orphans, fallen, clock⟩, os⟩
      (.prog (.sup now) pid pgid))
    (hs : SupStep cfg at_ d now pc p' d') (ho : os.supStep pid pc = some os') :
    CalmInv verdict (es ++ [.prog (.sup now) pid pgid])
      ⟨⟨d', p', orphans, fallen', clock⟩, os'⟩ := by
  have hpc : pc.CalmOk cfg d := h.pc _ rfl
  -- a supervisor takes no step while an earlier one's worker is alive
  obtain rfl : orphans = [] := by
    by_contra hne
    have hw : pc.beforeRead = true := h.waits hne _ rfl
    cases pc with
    | rmProgress => exact hpc
    | rmInflight => exact hpc
    | harvest hv k =>
      obtain ⟨reason, b, phase⟩ := hv
      simp only [Pc.beforeRead, Bool.and_eq_true, decide_eq_true_eq] at hw
      obtain ⟨rfl, rfl⟩ := hw
      exact hne (hok rfl)
    | _ => cases hw
  have hor : os.orphans = [] := List.length_eq_zero_iff.mp h.places
  have hlist : (CorpusRunner.listed d.inflight).Nodup := h.listed
  have lost : ∀ t, Lost verdict (es ++ [.prog (.sup now) pid pgid]) t → Lost verdict es t := by
    intro t hl
    rcases lost_append_cases hrun hl with hl | ⟨⟨pid', pgid', he⟩, -⟩
    · exact hl
    · simp at he
  have owed : ∀ t, Lost verdict (es ++ [.prog (.sup now) pid pgid]) t →
      .crashMark t startupReason ∈ d.progress ∨ pc.Owes d t :=
    fun t hl => (h.owed t (lost t hl)).imp_right And.right
  have nobody : (World.mk ⟨d, some ⟨cfg, at_, pc⟩, [], fallen, clock⟩ os).workers = [] := by
    cases hs <;> simp [World.workers, Sys.current]
  have suspects : ∀ t, d.Suspect t → Lost verdict (es ++ [.prog (.sup now) pid pgid]) t :=
    fun t ht => (h.suspects nobody t ht).append _
  have never : ∀ t, ¬ Disk.Suspect { d with inflight := [] } t := by simp [Disk.Suspect]
  cases hs with
  | rmProgress => exact hpc.elim
  | rmInflight => exact hpc.elim
  | readInflight reason b k =>
    obtain rfl := Option.some.inj ho
    exact h.frame rfl hlist rfl rfl hor h.tests (by rintro p ⟨⟩; exact ⟨rfl, hpc.2⟩)
      suspects fun t hl => (owed t hl).imp_right fun hp => ⟨rfl, hp⟩
  | readLedger reason b k inflight =>
    obtain rfl := Option.some.inj ho
    obtain ⟨hph, hk⟩ := hpc
    obtain rfl : inflight = d.inflight := hph
    refine h.frame rfl hlist rfl rfl hor h.tests ?_ suspects fun t hl =>
      (owed t hl).imp_right fun hp => ⟨rfl, ?_⟩
    · intro p hp
      cases hp
      exact ⟨targetsOk_harvestTargets b hlist, hk⟩
    · obtain ⟨hin, hrec⟩ : d.Suspect t := hp
      cases k with
      | startup =>
        obtain rfl : b = false := hk.2
        obtain ⟨e, he, rfl⟩ := List.mem_map.mp hin
        exact List.mem_map_of_mem (mem_harvestTargets_all he hrec)
      | cycle np before after result => simp [hk.1] at hin
  | reap reason b k e es' targets =>
    obtain rfl := Option.some.inj ho
    exact h.frame rfl hlist rfl rfl hor (h.tests_aged (aged_reapPid _ _))
      (by rintro p ⟨⟩; exact hpc)
      suspects fun t hl => (owed t hl).imp_right fun hp => ⟨rfl, hp⟩
  | reaped reason b k targets =>
    obtain rfl := Option.some.inj ho
    exact h.frame rfl hlist rfl rfl hor h.tests (by rintro p ⟨⟩; exact hpc)
      suspects fun t hl => (owed t hl).imp_right fun hp => ⟨rfl, hp⟩
  | mark reason b k e targets =>
    obtain rfl := Option.some.inj ho
    obtain ⟨hph, hk⟩ := hpc
    have hph : TargetsOk d (e :: targets) := hph
    have hmem := hph.mem e (by simp)
    -- of an empty registry nothing is marked
    obtain ⟨rfl, rfl⟩ : k = .startup ∧ reason = startupReason := by
      cases k with
      | startup => exact ⟨rfl, hk.1⟩
      | cycle np before after result => simp [hk.1] at hmem
    have hunrec := hph.unrecorded e (by simp)
    have hlost := suspects e.test ⟨List.mem_map_of_mem hmem, hunrec⟩
    exact {
      few := by simp
      places := by simp [hor]
      bound := by simp [World.workers, Sys.current]
      tests := h.tests
      waits := by simp
      nodup := recorded_nodup_append h.nodup hunrec
      lines := fun r hr => by
        rcases List.mem_append.mp hr with hr | hr
        · exact (h.lines r hr).append _
        · exact .inr ⟨e.test, List.mem_singleton.mp hr, hlost⟩
      pc := by rintro p ⟨⟩; exact ⟨hph.tail, hk⟩
      workers := by simp [World.workers, Sys.current]
      listed := hlist
      suspects := fun _ t ht => suspects t ⟨ht.1, fun hr => ht.2 (by simp [hr])⟩
      owed := fun t hl => by
        rcases owed t hl with hm | hm
        · exact .inl (List.mem_append_left _ hm)
        · rcases List.mem_cons.mp (show t ∈ e.test :: CorpusRunner.listed targets from hm)
            with rfl | hm
          · exact .inl (by simp)
          · exact .inr ⟨rfl, hm⟩ }
  | marked reason b k =>
    obtain rfl := Option.some.inj ho
    exact h.frame rfl hlist rfl rfl hor h.tests
      (by rintro p ⟨⟩; exact ⟨trivial, hpc.2⟩) suspects fun t hl =>
      (owed t hl).imp_right fun hp => absurd (show t ∈ CorpusRunner.listed [] from hp) (by simp)
  | clearStartup reason b =>
    obtain rfl := Option.some.inj ho
    exact h.frame rfl (by simp) rfl rfl hor h.tests (by rintro p ⟨⟩; rfl)
      (fun t ht => absurd ht (never t)) fun t hl => (owed t hl).imp_right False.elim
  | clearCycle reason b np before after result =>
    obtain rfl := Option.some.inj ho
    refine h.frame rfl (by simp) rfl ?_ hor h.tests ?_ (fun t ht => absurd ht (never t))
      fun t hl => (owed t hl).imp_right False.elim
    · rcases tally_cases cfg np before after result with ⟨np', ht⟩ | ht <;>
        simp [ht, Sys.current]
    · intro p hp
      cases hp
      rcases tally_cases cfg np before after result with ⟨np', ht⟩ | ht <;> simp only [ht]
      · rfl
      · exact ⟨rfl, hpc.2.2⟩
  | leave np hall =>
    obtain rfl := Option.some.inj ho
    exact h.frame rfl hlist rfl rfl hor h.tests (by rintro p ⟨⟩; exact ⟨hpc, hall⟩)
      suspects fun t hl => (owed t hl).imp_right False.elim
  | enter np t ht hr =>
    obtain rfl := Option.some.inj ho
    exact h.frame rfl hlist rfl rfl hor h.tests (by rintro p ⟨⟩; exact hpc)
      suspects fun t hl => (owed t hl).imp_right False.elim
  | launch np before =>
    simp only [Os.supStep] at ho
    split at ho
    · obtain rfl := Option.some.inj ho
      have hin : d.inflight = [] := hpc
      have htests : ∀ q ∈ os.procs ++ [.created pid pid (.worker os.session)], ∀ t j,
          q.role = .test t j → j < os.procs.length := by
        intro q hq t j hr
        rcases List.mem_append.mp hq with hq | hq
        · exact h.tests q hq t j hr
        · rw [List.mem_singleton.mp hq] at hr
          cases hr
      have hone : ∀ p ∈ (World.mk ⟨d, some ⟨cfg, at_, .await np before (.launched cfg)⟩, [],
          fallen', clock⟩ { os with procs := os.procs ++ [.created pid pid (.worker os.session)]
                                    worker := os.procs.length }).workers,
          p = (.launched cfg, os.procs.length) := by
        simp [World.workers, Sys.current]
      exact {
        few := by simp
        places := by simp [hor]
        bound := fun p hp => by simp [hone p hp]
        tests := fun q hq t j hr => by
          have := htests q hq t j hr
          simp only [List.length_append]
          omega
        waits := by simp
        nodup := h.nodup
        lines := fun r hr => (h.lines r hr).append _
        pc := by rintro p ⟨⟩; rfl
        workers := fun p hp => by
          rw [hone p hp]
          exact ⟨.of_launched hin, .of_launched fun q hq t hr =>
            absurd (htests q hq t _ hr) (Nat.lt_irrefl _)⟩
        listed := hlist
        suspects := by simp [World.workers, Sys.current]
        owed := fun t hl => (owed t hl).imp_right False.elim }
    · cases ho
  | exitZero np before =>
    obtain rfl := Option.some.inj ho
    exact h.frame rfl hlist rfl rfl hor h.tests (by rintro p ⟨⟩; exact hpc)
      suspects fun t hl => (owed t hl).imp_right False.elim
  | exitAbnormal np before what =>
    obtain rfl := Option.some.inj ho
    exact h.frame rfl hlist rfl rfl hor h.tests (by rintro p ⟨⟩; exact hpc)
      suspects fun t hl => (owed t hl).imp_right False.elim
  | done np before =>
    obtain rfl := Option.some.inj ho
    exact h.frame rfl hlist rfl rfl hor h.tests (by rintro p ⟨⟩; trivial)
      suspects fun t hl => (owed t hl).imp_right False.elim
  | stalled => exact hpc.elim
  | exited np before what =>
    obtain rfl := Option.some.inj ho
    exact h.frame rfl hlist rfl rfl hor h.tests (by rintro p ⟨⟩; exact ⟨trivial, hpc⟩)
      suspects fun t hl => (owed t hl).imp_right False.elim
  | clean =>
    obtain rfl := Option.some.inj ho
    exact h.frame rfl (by simp) rfl rfl hor h.tests (by rintro p ⟨⟩; rfl)
      (fun t ht => absurd ht (never t)) fun t hl => (owed t hl).imp_right False.elim
  | outputs aborted =>
    obtain rfl := Option.some.inj ho
    exact h.frame rfl hlist rfl rfl hor (h.tests_aged (.ends _ _)) (by simp)
      suspects fun t hl => (owed t hl).imp_right False.elim

/-- A step of a live worker, wherever its supervisor is. -/
theorem worker_step {s s' : Sys} {e : WorldEvent} {os os' : Os} {v v' : Worker} {k : Nat}
    {we : WorkerEvent} (h : CalmInv verdict es ⟨s, os⟩)
    (hw : (World.mk s os).workers = [(v, k)]) (hs : WorkerStep v s.disk we v' s'.disk)
    (hok : calmEvent verdict v k os.procs we) (ho : os.workerStep k v we = some os')
    (hw' : (World.mk s' os').workers = [(v', k)])
    (hplaces : s'.orphans.length = s.orphans.length) (hos : os'.orphans = os.orphans)
    (hwaits : s'.orphans ≠ [] → ∀ p, s'.sup = some p → p.pc.beforeRead = true)
    (hpc : ∀ p, s'.sup = some p → p.pc.CalmOk p.cfg s'.disk)
    (hlost : ∀ t, Lost verdict (es ++ [e]) t → Lost verdict es t)
    (howes : ∀ t, ¬ s.Owes t) : CalmInv verdict (es ++ [e]) ⟨s', os'⟩ := by
  obtain ⟨hinv, hch⟩ := h.workers (v, k) (by simp [hw])
  have hinv' := hinv.step hs
  have hch' := hch.step hs hok ho
  have hbound : k < os.procs.length := h.bound (v, k) (by simp [hw])
  have hgrow : os.procs.length ≤ os'.procs.length := by
    rcases workerStep_procs ho with hp | ⟨t, x, -, -, hp⟩ | ⟨r, -, hp⟩
    · rw [hp]
    · rw [hp, List.length_append]
      omega
    · rw [hp, (aged_hardKill _ _).length]
  exact {
    few := by rw [hplaces]; exact h.few
    places := by rw [hplaces, hos]; exact h.places
    bound := fun p hp => by
      obtain rfl : p = (v', k) := by simpa [hw'] using hp
      exact lt_of_lt_of_le hbound hgrow
    tests := fun q hq t j hr => by
      rcases workerStep_procs ho with hp | ⟨t', x, -, -, hp⟩ | ⟨r, -, hp⟩
      · rw [hp] at hq ⊢
        exact h.tests q hq t j hr
      · rw [hp] at hq ⊢
        rw [List.length_append]
        rcases List.mem_append.mp hq with hq | hq
        · exact Nat.lt_add_right _ (h.tests q hq t j hr)
        · rw [List.mem_singleton.mp hq] at hr
          obtain ⟨-, rfl⟩ : t' = t ∧ k = j := by simpa [Proc.created] using hr
          exact Nat.lt_add_right _ hbound
      · rw [hp] at hq ⊢
        rw [(aged_hardKill _ _).length]
        obtain ⟨p, hp', hl⟩ := (aged_hardKill _ _).mem hq
        exact h.tests p hp' t j (hl.role.symm.trans hr)
    waits := hwaits
    nodup := Sys.Inv.nodup_workerStep hinv h.nodup hs
    lines := fun r hr => by
      generalize hd : s'.disk = d' at hs hr
      cases hs with
      | @append r' ht =>
        rcases List.mem_append.mp hr with hr | hr
        · exact (h.lines r hr).append e
        · rw [List.mem_singleton.mp hr]
          exact .inl ⟨r', rfl, hch.settled r' ht⟩
      | _ => exact (h.lines r hr).append e
    pc := hpc
    workers := fun p hp => by
      obtain rfl : p = (v', k) := by simpa [hw'] using hp
      exact ⟨hinv', hch'⟩
    listed := by
      change (CorpusRunner.listed s'.disk.inflight).Nodup
      rw [hinv'.mirror, listed_registry]
      exact v'.shown.keys_nodup
    suspects := by simp [hw']
    owed := fun t hl => by
      rcases h.owed t (hlost t hl) with hm | hm
      · refine .inl ?_
        rcases hs.progress_cases with hp | ⟨r, hp⟩ <;> rw [hp]
        · exact hm
        · exact List.mem_append_left _ hm
      · exact absurd hm (howes t) }

/-- A step that leaves the files and the workers alone. -/
theorem still {s s' : Sys} {os os' : Os} {e : WorldEvent} (h : CalmInv verdict es ⟨s, os⟩)
    (hdisk : s'.disk = s.disk) (hwork : (World.mk s' os').workers = (World.mk s os).workers)
    (hor : s'.orphans.length ≤ 1) (hplaces : os'.orphans.length = s'.orphans.length)
    (hgrow : os.procs.length ≤ os'.procs.length)
    (hprocs : Unharmed os.procs os'.procs)
    (hwaits : s'.orphans ≠ [] → ∀ p, s'.sup = some p → p.pc.beforeRead = true)
    (hpc : ∀ p, s'.sup = some p → p.pc.CalmOk p.cfg s'.disk)
    (hlost : ∀ t, Lost verdict (es ++ [e]) t → Lost verdict es t)
    (howes : ∀ t, s.Owes t → s'.Owes t) : CalmInv verdict (es ++ [e]) ⟨s', os'⟩ where
  few := hor
  places := hplaces
  bound := fun p hp => lt_of_lt_of_le (h.bound p (hwork ▸ hp)) hgrow
  tests := fun q hq t j hr => by
    obtain ⟨p, hp, hpr, -⟩ := hprocs q hq t j hr
    exact lt_of_lt_of_le (h.tests p hp t j hpr) hgrow
  waits := hwaits
  nodup := by simp only [hdisk]; exact h.nodup
  lines := fun r hr => (h.lines r (by simpa only [hdisk] using hr)).append e
  pc := hpc
  workers := fun p hp => by
    obtain ⟨hinv, hch⟩ := h.workers p (hwork ▸ hp)
    exact ⟨by simp only [hdisk]; exact hinv, hch.frame hprocs⟩
  listed := by simp only [hdisk]; exact h.listed
  suspects := fun hno t ht => (h.suspects (hwork ▸ hno) t (by simpa only [hdisk] using ht)).append e
  owed := fun t hl => by
    simp only [hdisk]
    exact (h.owed t (hlost t hl)).imp_right (howes t)

/-- What is owed stays owed when the supervisor ends before it has paid. -/
theorem suspect_of_owes {s : Sys} {os : Os} (h : CalmInv verdict es ⟨s, os⟩) {t : JsString}
    (ht : s.Owes t) : s.disk.Suspect t := by
  obtain ⟨-, ht⟩ := ht
  cases hsup : s.sup with
  | none => simpa only [hsup] using ht
  | some p =>
    simp only [hsup] at ht
    have hpc := h.pc p hsup
    obtain ⟨cfg, at_, pc⟩ := p
    cases pc with
    | harvest hv k =>
      obtain ⟨reason, b, phase⟩ := hv
      obtain ⟨hph, -⟩ := hpc
      cases phase with
      | readInflight => exact ht
      | readLedger inflight => exact ht
      | reap entries targets =>
        obtain ⟨e, he, rfl⟩ := List.mem_map.mp ht
        exact ⟨List.mem_map_of_mem (hph.mem e he), hph.unrecorded e he⟩
      | append targets =>
        obtain ⟨e, he, rfl⟩ := List.mem_map.mp ht
        exact ⟨List.mem_map_of_mem (hph.mem e he), hph.unrecorded e he⟩
      | clear => exact ht.elim
    | _ => exact ht.elim

/-- The current worker has ended by itself. -/
theorem worker_gone {d : Disk} {cfg : Config} {at_ np : Int} {before : Nat} {v : Worker}
    {how : WorkerEnd} {fallen : List Worker} {clock : Nat} {os : Os} {e : WorldEvent}
    (h : CalmInv verdict es ⟨⟨d, some ⟨cfg, at_, .await np before v⟩, [], fallen, clock⟩, os⟩)
    (hno : os.orphans = []) (hin : d.inflight = [])
    (hpc : (Pc.exited np before how).CalmOk cfg d)
    (hlost : ∀ t, Lost verdict (es ++ [e]) t → Lost verdict es t) :
    CalmInv verdict (es ++ [e]) ⟨⟨d, some ⟨cfg, at_, .exited np before how⟩, [], fallen, clock⟩,
      { os with procs := ends os.worker os.procs }⟩ := by
  refine h.frame rfl h.listed rfl rfl hno (h.tests_aged (.ends _ _)) ?_ ?_ fun t hl =>
    (h.owed t (hlost t hl)).imp_right fun ho => absurd ho.2 id
  · intro p hp
    cases hp
    exact hpc
  · intro t ht
    have hm : t ∈ CorpusRunner.listed d.inflight := ht.1
    simp [hin] at hm

theorem step {w w' : World} {e : WorldEvent} (h : CalmInv verdict es w)
    (hrun : Run World.step (calm verdict) (World.idle Disk.empty) es w)
    (hok : calm verdict w e) (hs : w.step e = some w') : CalmInv verdict (es ++ [e]) w' := by
  have hlost : (∀ pid pgid, e ≠ .prog .containerCrash pid pgid) →
      ∀ t, Lost verdict (es ++ [e]) t → Lost verdict es t := by
    intro hne t hl
    rcases lost_append_cases hrun hl with hl | ⟨⟨pid, pgid, he⟩, -⟩
    · exact hl
    · exact absurd he (hne pid pgid)
  rcases World.step_cases hs with ⟨ev, pid, pgid, rfl, hsys, hos⟩ | ⟨hne, procs, rfl⟩
  · obtain ⟨⟨d, sup, orphans, fallen, clock⟩, os⟩ := w
    obtain ⟨s', os'⟩ := w'
    have hos : os.step ⟨d, sup, orphans, fallen, clock⟩ pid pgid ev = some os' := hos
    have hfew := h.few
    have hwaits := h.waits
    have hplaces := h.places
    simp only at hfew hwaits hplaces
    have alone : ∀ p, sup = some p → p.pc.beforeRead = false → orphans = [] ∧ os.orphans = [] := by
      intro p hp hf
      have hor : orphans = [] := Sys.orphans_eq_nil h.waits hp hf
      exact ⟨hor, List.length_eq_zero_iff.mp (by rw [hplaces, hor]; rfl)⟩
    cases sysStep_of_step hsys with
    | start cfg fresh =>
      obtain rfl : fresh = false := hok
      simp only [Os.step] at hos
      split at hos
      · obtain rfl := Option.some.inj hos
        refine h.still rfl rfl hfew hplaces (by simp) (.append rfl) ?_ ?_
          (hlost (by simp)) fun t ht => ht
        · rintro - p ⟨⟩
          rfl
        · intro p hp
          cases hp
          exact ⟨trivial, rfl, rfl⟩
      · cases hos
    | sup hsup => exact h.sup_step hrun hok hsup hos
    | stallAwait => exact hok.elim
    | stallExited => exact hok.elim
    | @worker cfg at_ np before v v' d' we hw =>
      obtain ⟨rfl, hno⟩ := alone _ rfl rfl
      obtain ⟨hwk, horph, -, -⟩ := workerStep_fields (k := os.worker) (v := v) hos
      have hcfg : v.cfg = cfg := h.pc _ rfl
      refine h.worker_step (v := v) (k := os.worker) ?_ hw ?_ hos ?_ rfl horph
        (fun hne => absurd rfl hne) (by rintro p ⟨⟩; exact hw.cfg_eq.trans hcfg) (hlost (by simp))
        fun t ht => ht.2
      · simp [World.workers, Sys.current]
      · exact hok v (by simp [Sys.current])
      · change [(v', os'.worker)] ++ [].zip os'.orphans = _
        rw [hwk]
        rfl
    | @workerExits cfg at_ np before v hx =>
      obtain ⟨rfl, hno⟩ := alone _ rfl rfl
      obtain rfl := Option.some.inj hos
      obtain ⟨hinv, -⟩ := h.workers (v, os.worker) (by simp [World.workers, Sys.current])
      have hin : d.inflight = [] := (show v.Inv d from hinv).inflight_of_canExit hx
      exact h.worker_gone hno hin hin (hlost (by simp))
    | @workerThrows cfg at_ np before v hx =>
      obtain ⟨rfl, hno⟩ := alone _ rfl rfl
      obtain rfl := Option.some.inj hos
      obtain ⟨hinv, -⟩ := h.workers (v, os.worker) (by simp [World.workers, Sys.current])
      obtain ⟨-, hge, -, hin⟩ :=
        (show v.Inv d from hinv).of_rejected hx
      obtain rfl : v.cfg = cfg := h.pc _ rfl
      exact h.worker_gone hno hin ⟨hin, hge⟩ (hlost (by simp))
    | workerDies => exact hok.elim
    | @orphan p i v v' d' we hi hw =>
      obtain ⟨rfl, rfl⟩ := eq_singleton_of_get hfew hi
      obtain ⟨k, hk⟩ : ∃ k, os.orphans = [k] := List.length_eq_one_iff.mp hplaces
      have hcur : ∀ d' v'' clock', (Sys.mk d' sup [v''] fallen clock').current = [] :=
        fun _ _ _ => Sys.current_eq_nil (fun _ _ _ => rfl) (hwaits (by simp))
      simp only [Os.step, hk, List.getElem?_cons_zero] at hos
      obtain ⟨-, horph, -, -⟩ := workerStep_fields hos
      refine h.worker_step (v := v) (k := k) ?_ hw ?_ hos ?_ (by simp) horph
        (fun _ => hwaits (by simp)) ?_ (hlost (by simp)) fun t ht => absurd ht.1 (by simp)
      · simp [World.workers, hcur, hk]
      · exact hok (v, k) (by simp [hk])
      · simp [World.workers, hcur, horph, hk]
      · intro q hq
        have hb := hwaits (by simp) q hq
        have hc := h.pc q hq
        obtain ⟨cfg, at_, pc⟩ := q
        cases pc with
        | harvest hv k' =>
          obtain ⟨reason, b, phase⟩ := hv
          simp only [Pc.beforeRead, Bool.and_eq_true, decide_eq_true_eq] at hb
          obtain ⟨rfl, rfl⟩ := hb
          exact ⟨trivial, hc.2⟩
        | rmProgress => exact hc
        | rmInflight => exact hc
        | _ => cases hb
    | @orphanExits p i v hi hx =>
      obtain ⟨rfl, rfl⟩ := eq_singleton_of_get hfew hi
      obtain ⟨k, hk⟩ : ∃ k, os.orphans = [k] := List.length_eq_one_iff.mp hplaces
      have hcur : (Sys.mk d sup [v] fallen clock).current = [] :=
        Sys.current_eq_nil (fun _ _ _ => rfl) (hwaits (by simp))
      obtain ⟨hinv, -⟩ := h.workers (v, k) (by simp [World.workers, hcur, hk])
      have hin : d.inflight = [] :=
        hx.elim (show v.Inv d from hinv).inflight_of_canExit fun ht => (hinv.of_rejected ht).2.2.2
      obtain ⟨k', hk', rfl⟩ := Option.map_eq_some_iff.mp hos
      refine h.frame rfl h.listed rfl hcur (by simp [hk]) (h.tests_aged (.ends _ _)) h.pc ?_
        fun t hl => (h.owed t (hlost (by simp) t hl)).imp_right fun ho => absurd ho.1 (by simp)
      intro t ht
      have hm : t ∈ CorpusRunner.listed d.inflight := ht.1
      simp [hin] at hm
    | orphanDies => exact hok.elim
    | @interrupt p =>
      obtain rfl := Option.some.inj hos
      -- either its worker goes on, or an earlier one that it has not waited for
      have hor : orphans = [] ∧ os.orphans = [] ∨
          orphans ≠ [] ∧ (Sys.mk d (some p) orphans fallen clock).current = [] := by
        by_cases hc : orphans = []
        · exact .inl ⟨hc, List.length_eq_zero_iff.mp (by rw [hplaces, hc]; rfl)⟩
        · exact .inr ⟨hc, Sys.current_eq_nil (fun _ _ _ => rfl) (hwaits hc)⟩
      refine h.still rfl ?_ (Sys.length_interrupted (fun _ _ _ => rfl) h.few h.waits)
        (by simpa using hplaces) (by simp [ends]) (.ends _)
        (by simp) (by simp) (hlost (by simp)) fun t ht => ⟨?_, h.suspect_of_owes ht⟩
      · rcases hor with ⟨rfl, hno⟩ | ⟨-, hcur⟩
        · change List.zip ([] ++ _) (os.orphans ++ _) = _
          simp [World.workers, hno, List.map_prod_left_eq_zip]
        · change List.zip (orphans ++ _) (os.orphans ++ _) = _
          simp [World.workers, hcur]
      · obtain ⟨rfl, hp⟩ := ht
        obtain ⟨cfg, at_, pc⟩ := p
        cases pc with
        | await => exact hp.elim
        | _ => rfl
    | @containerCrash p =>
      obtain rfl := Option.some.inj hos
      refine h.frame rfl h.listed rfl rfl rfl (by simp) (by simp) ?_ fun t hl => ?_
      · intro t ht
        exact ⟨es, [], pid, pgid, _, rfl, hrun, ht⟩
      · rcases lost_append_cases hrun hl with hl | ⟨-, hsus⟩
        · exact (h.owed t hl).imp_right fun ho => ⟨rfl, h.suspect_of_owes ho⟩
        · exact .inr ⟨rfl, hsus⟩
  · have hgrow : w.os.procs.length ≤ procs.length := World.length_procs_le hs (hne _)
    exact h.still rfl rfl h.few h.places hgrow (.of_step hs hne) h.waits h.pc
      (hlost fun pid pgid => hne _ pid pgid) fun t ht => ht

theorem of_run {w : World}
    (h : Run World.step (calm verdict) (World.idle Disk.empty) es w) : CalmInv verdict es w := by
  have key := h.traceInvariant (I := fun es w =>
    Run World.step (calm verdict) (World.idle Disk.empty) es w ∧ CalmInv verdict es w)
    ⟨.refl, init⟩ fun _ _ _ _ hI hok hs => ⟨.snoc hI.1 hok hs, hI.2.step hI.1 hok hs⟩
  exact key.2

end CalmInv

/-- What the ledger says of the tests of a selection: the verdict, or that the test was in
flight without a line at a restart of the container. -/
def Resumed (verdict : JsString → RunStatus) (es : List WorldEvent) (cfg : Config)
    (lines : List Rec) : Prop :=
  ∀ t ∈ cfg.all.tests, ∃ r, (readLedger lines).get? t = some r ∧
    (Lost verdict es t → r = .crashMark t startupReason) ∧
    (¬ Lost verdict es t → ∃ r', r = .ran r' ∧ r'.status = verdict t)

/-- **Interrupt and resume.** Whatever has been interrupted and restarted before: when a
supervisor ends by itself, its tests have their verdicts, but for those that were in flight
without a line when the container went down. It may give up only where `CONCURRENCY` is no
array's length. -/
theorem resumeTransparent {verdict : JsString → RunStatus} {es : List WorldEvent} {w w' : World}
    {p : Supervisor} {now : Int} {pid pgid : Pid}
    (h : Run World.step (calm verdict) (World.idle Disk.empty) es w) (hp : w.sys.sup = some p)
    (hgives : p.cfg.concurrency < arrayLimit ∨ p.pc ≠ .broke true)
    (hs : w.step (.prog (.sup now) pid pgid) = some w') (hend : w'.sys.sup = none) :
    Resumed verdict es p.cfg w'.sys.disk.progress := by
  have hI := CalmInv.of_run h
  obtain ⟨b, hb, hprog⟩ : ∃ b, p.pc = .broke b ∧
      w'.sys.disk.progress = w.sys.disk.progress := by
    rcases World.step_cases hs with ⟨ev, pid', pgid', he, hsys, -⟩ | ⟨hne, -⟩
    · simp only [WorldEvent.prog.injEq] at he
      obtain ⟨rfl, rfl, rfl⟩ := he
      obtain ⟨⟨d, sup, orphans, fallen, clock⟩, os⟩ := w
      obtain ⟨s', os'⟩ := w'
      obtain rfl : sup = some p := hp
      cases sysStep_of_step hsys with
      | @sup cfg at_ _ pc p' d' hsup =>
        obtain rfl : p' = none := hend
        cases hsup with
        | outputs aborted => exact ⟨aborted, rfl, rfl⟩
    · exact absurd rfl (hne _ _ _)
  have hpc := hI.pc p hp
  rw [hb] at hpc hgives
  have hall : Complete p.cfg w.sys.disk.progress := by
    cases b with
    | false => exact hpc.2
    | true =>
      rcases hgives with hlt | hne
      · exact absurd hlt (Int.not_lt.mpr hpc.2)
      · exact absurd rfl hne
  intro t ht
  rw [hprog]
  obtain ⟨r, hr⟩ := get?_readLedger_isSome (hall t ht)
  obtain ⟨hmem, rfl⟩ := mem_of_get?_readLedger hr
  refine ⟨r, hr, fun hl => ?_, fun hl => ?_⟩
  · rcases hI.owed r.test hl with hm | ⟨-, hm⟩
    · exact Option.some.inj (hr.symm.trans (get?_readLedger_of_nodup hI.nodup hm))
    · simp only [hp, hb, Pc.Owes] at hm
  · rcases hI.lines r hmem with ⟨r', rfl, hv⟩ | ⟨t, rfl, hl'⟩
    · exact ⟨r', rfl, hv⟩
    · exact absurd hl' hl

def allPass (_ : JsString) : RunStatus := .pass

/-- The supervisor is interrupted while `a` runs; its worker goes on to `b`, and the container
is restarted. The next supervisor is interrupted in its harvest; the one after that is about
to end. -/
def restartedWhileRunning : List WorldEvent :=
  workerAtWork ++ [.prog .interrupt 0 0] ++
  [.settle (passRec (js "a")), .append, .deregister, .claim 2, .register,
    .spawn (js "b") (some 14), .mirror].map (fun e => .prog (.orphan 0 e) 0 0) ++
  [.prog .containerCrash 0 0, .prog (.start oneSlot false) 3 3] ++
  List.replicate 3 (.prog (.sup 5) 0 0) ++
  [.prog .interrupt 0 0, .prog (.start oneSlot false) 4 4] ++
  List.replicate 8 (.prog (.sup 6) 0 0)

theorem resumeTransparent_restarted :
    ∃ w w', execute World.step (calm allPass) (World.idle Disk.empty) restartedWhileRunning =
        some w ∧ w.step (.prog (.sup 7) 0 0) = some w' ∧
      Resumed allPass restartedWhileRunning oneSlot w'.sys.disk.progress := by
  have resumed : ∀ w w' p, execute World.step (calm allPass) (World.idle Disk.empty)
      restartedWhileRunning = some w → w.sys.sup = some p → p.cfg.concurrency < arrayLimit →
      w.step (.prog (.sup 7) 0 0) = some w' → w'.sys.sup = none →
      Resumed allPass restartedWhileRunning p.cfg w'.sys.disk.progress :=
    fun w w' p hw hp hlt hs hend => resumeTransparent (run_of_execute hw) hp (.inl hlt) hs hend
  exact ⟨_, _, rfl, rfl, resumed _ _ _ rfl rfl (by decide) rfl rfl⟩

/-- `b` would pass, and ends up as `crash`. -/
theorem resume_fails_restart :
    ∃ w w', execute World.step (calm allPass) (World.idle Disk.empty) restartedWhileRunning =
        some w ∧ w.step (.prog (.sup 7) 0 0) = some w' ∧ w'.sys.sup = none ∧
      ((readLedger w'.sys.disk.progress).get? (js "a")).map Rec.status = some .pass ∧
      ((readLedger w'.sys.disk.progress).get? (js "b")).map Rec.status = some .crash ∧
      (allPass (js "b")).toStatus ≠ .crash :=
  ⟨_, _, rfl, rfl, rfl, rfl, rfl, by decide⟩

end CorpusRunner
