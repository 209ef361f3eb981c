import CorpusRunner.Proofs.RerunInvariant
import CorpusRunner.Proofs.Termination

/-!
# Sessions on one output directory

Nothing is killed and no stall is declared; supervisors are started one after the other, each
with a selection and a concurrency of its own, and `runOne` gives every test a fixed status.
Then the ledger depends neither on the schedules nor on how the work is split into sessions.
-/

namespace CorpusRunner

/-- The undisturbed run: sessions with at least one slot, and the status `verdict` for every
test that settles. -/
def undisturbed (verdict : JsString → RunStatus) (_ : Sys) : Event → Prop
  | .start cfg fresh => fresh = false ∧ 1 ≤ cfg.concurrency
  | .sup _ => True
  | .worker (.settle r) => r.status = verdict r.test
  | .worker _ => True
  | .workerExits => True
  | _ => False

instance (verdict : JsString → RunStatus) (s : Sys) (e : Event) :
    Decidable (undisturbed verdict s e) := by
  induction e using Event.casesOn with
  | worker we =>
    induction we using WorkerEvent.casesOn <;> dsimp only [undisturbed] <;> infer_instance
  | _ => dsimp only [undisturbed]; infer_instance

/-- `Array.from` starts at least one slot, and does not throw. -/
structure Config.Slotted (cfg : Config) : Prop where
  one : 1 ≤ cfg.concurrency
  limit : cfg.concurrency < arrayLimit

/-- The run of one session, after its start. -/
def inSession (verdict : JsString → RunStatus) (s : Sys) (e : Event) : Prop :=
  undisturbed verdict s e ∧ inLoop s e

theorem supervised_of_undisturbed {verdict : JsString → RunStatus} {s : Sys} {e : Event}
    (h : undisturbed verdict s e) : supervised s e := by
  cases e with
  | start cfg fresh => exact h.1
  | interrupt => exact h.elim
  | _ => trivial

/-- The sessions that a run has started. -/
def sessions (es : List Event) : List Config :=
  es.filterMap fun e => match e with
    | .start cfg _ => some cfg
    | _ => none

/-- The union of their selections. -/
def union (es : List Event) : List JsString := (sessions es).flatMap (fun cfg => cfg.all.tests)

theorem sessions_append_start (es : List Event) (cfg : Config) (fresh : Bool) :
    sessions (es ++ [.start cfg fresh]) = sessions es ++ [cfg] := by
  simp [sessions]

theorem sessions_append {es : List Event} {e : Event} (h : ∀ cfg fresh, e ≠ .start cfg fresh) :
    sessions (es ++ [e]) = sessions es := by
  unfold sessions
  rw [List.filterMap_append]
  cases e with
  | start cfg fresh => exact absurd rfl (h cfg fresh)
  | _ => simp

/-! ## The invariant -/

/-- Where an undisturbed supervisor stands. -/
def Pc.QuietOk (cfg : Config) (d : Disk) : Pc → Prop
  | .harvest _ k => k = .startup
  | .top _ => True
  | .launch _ _ => True
  | .await _ _ _ => True
  | .exited _ _ .zero => Complete cfg d.progress
  | .returned _ _ .done => Complete cfg d.progress
  | .clean => Complete cfg d.progress
  | .broke b => b = false ∧ Complete cfg d.progress
  | _ => False

structure QuietInv (verdict : JsString → RunStatus) (s : Sys) : Prop where
  sys : s.Inv
  fallen : s.fallen = []
  verdicts : ∀ r ∈ s.disk.progress, r.status = (verdict r.test).toStatus
  settled : ∀ w ∈ s.current, ∀ r, w.thread = .settled r → r.status = verdict r.test
  pc : ∀ p, s.sup = some p → p.cfg.Slotted ∧ p.pc.QuietOk p.cfg s.disk

/-- The registry is empty unless a worker is running. -/
theorem QuietInv.inflight_eq_nil {verdict : JsString → RunStatus} {s : Sys}
    (h : QuietInv verdict s) (hc : s.current = []) : s.disk.inflight = [] := by
  have := h.sys.registry
  rw [hc, h.fallen] at this
  exact this.eq_nil

/-- A startup harvest has nothing to mark. -/
theorem QuietInv.targets_eq_nil {verdict : JsString → RunStatus} {s : Sys}
    (h : QuietInv verdict s) (hc : s.current = []) {targets : List Entry}
    (ht : TargetsOk s.disk targets) : targets = [] := by
  refine List.eq_nil_iff_forall_not_mem.mpr fun e he => ?_
  have := ht.mem e he
  rw [h.inflight_eq_nil hc] at this
  simp at this

theorem QuietInv.init (verdict : JsString → RunStatus) :
    QuietInv verdict (Sys.idle Disk.empty) where
  sys := .init
  fallen := rfl
  verdicts := by simp [Sys.idle, Disk.empty]
  settled := by simp [Sys.idle, Sys.current]
  pc := by simp [Sys.idle]

theorem QuietInv.sup_pc {verdict : JsString → RunStatus} {cfg : Config} {at_ now : Int}
    {pc : Pc} {d d' : Disk} {clock : Nat} {p' : Option Supervisor}
    (h : QuietInv verdict (Sys.mk d (some ⟨cfg, at_, pc⟩) [] [] clock))
    (hs : SupStep cfg at_ d now pc p' d') :
    d'.progress = d.progress ∧ ∀ p, p' = some p → p.cfg = cfg ∧ p.pc.QuietOk cfg d' := by
  have hpc : pc.QuietOk cfg d := (h.pc _ rfl).2
  have hok : pc.Ok cfg d [] := h.sys.pc _ rfl
  cases hs with
  | rmProgress => exact hok.elim
  | rmInflight => exact hok.elim
  | mark reason b k e targets =>
    have := h.targets_eq_nil (by simp [Sys.current]) hok
    cases this
  | clearCycle reason b np before after result => cases hpc
  | exitAbnormal => exact hpc.elim
  | stalled => exact hpc.elim
  | exited => exact hpc.elim
  | leave np hall => exact ⟨rfl, by rintro p ⟨⟩; exact ⟨rfl, rfl, hall⟩⟩
  | outputs => exact ⟨rfl, by simp⟩
  | exitZero => exact ⟨rfl, by rintro p ⟨⟩; exact ⟨rfl, hpc⟩⟩
  | done => exact ⟨rfl, by rintro p ⟨⟩; exact ⟨rfl, hpc⟩⟩
  | readInflight => exact ⟨rfl, by rintro p ⟨⟩; exact ⟨rfl, hpc⟩⟩
  | readLedger => exact ⟨rfl, by rintro p ⟨⟩; exact ⟨rfl, hpc⟩⟩
  | reap => exact ⟨rfl, by rintro p ⟨⟩; exact ⟨rfl, hpc⟩⟩
  | reaped => exact ⟨rfl, by rintro p ⟨⟩; exact ⟨rfl, hpc⟩⟩
  | marked => exact ⟨rfl, by rintro p ⟨⟩; exact ⟨rfl, hpc⟩⟩
  | _ => exact ⟨rfl, by rintro p ⟨⟩; exact ⟨rfl, trivial⟩⟩

theorem QuietInv.step {verdict : JsString → RunStatus} {s s' : Sys} {e : Event}
    (h : QuietInv verdict s) (hok : undisturbed verdict s e)
    (hlimit : ∀ cfg fresh, e = .start cfg fresh → cfg.concurrency < arrayLimit)
    (hs : s.step e = some s') : QuietInv verdict s' := by
  have hsys := h.sys.step (supervised_of_undisturbed hok) hs
  have horph := h.sys.orphans
  have hfall := h.fallen
  obtain ⟨d, sup, orphans, fallen, clock⟩ := s
  obtain rfl : orphans = [] := horph
  obtain rfl : fallen = [] := hfall
  cases sysStep_of_step hs with
  | start cfg fresh =>
    obtain ⟨rfl, hc⟩ := hok
    exact ⟨hsys, rfl, h.verdicts, by simp [Sys.current, startupHarvest],
      by rintro p ⟨⟩; exact ⟨⟨hc, hlimit cfg _ rfl⟩, rfl⟩⟩
  | @sup cfg at_ now pc p' d' hsup =>
    obtain ⟨hp, hq⟩ := h.sup_pc hsup
    have hc := (h.pc _ rfl).1
    refine ⟨hsys, by simp, ?_, ?_, ?_⟩
    · rw [show (Sys.disk _).progress = d.progress from hp]
      exact h.verdicts
    · intro w hw r hr
      -- a worker that has just been launched has settled nothing
      cases hsup <;> simp [Sys.current, startupHarvest] at hw
      case clearCycle reason b np before after result =>
        rcases tally_cases cfg np before after result with ⟨np', ht⟩ | ht <;> simp [ht] at hw
      case launch => simp [hw, Worker.launched] at hr
    · rintro p hp'
      obtain ⟨hcfg, hqo⟩ := hq p hp'
      rw [hcfg]
      exact ⟨hc, hqo⟩
  | stallAwait => exact hok.elim
  | stallExited => exact hok.elim
  | @worker cfg at_ np before w w' d' we hw' =>
    have hc := (h.pc _ rfl).1
    refine ⟨hsys, rfl, ?_, ?_, by rintro p ⟨⟩; exact ⟨hc, trivial⟩⟩
    · cases hw' with
      | @append r ht =>
        intro a ha
        rcases List.mem_append.mp ha with ha | ha
        · exact h.verdicts a ha
        · rw [List.mem_singleton] at ha
          rw [ha, Rec.status_ran, Rec.test_ran, h.settled w (by simp [Sys.current]) r ht]
      | _ => exact h.verdicts
    · intro v hv r hr
      obtain rfl : v = w' := by simpa [Sys.current] using hv
      cases hw' with
      | slotEnd ht hq hs₁ =>
        obtain ⟨-, hth, -, -, -⟩ := Worker.takeSlot_frame hs₁
        rw [hth, ht] at hr
        cases hr
      | settle => cases hr; exact hok
      | _ => cases hr
  | @workerExits cfg at_ np before w hx =>
    have hc : cfg.Slotted := (h.pc _ rfl).1
    have hone := hc.one
    have hpc : _ ∧ w.cfg = cfg ∧ w.Inv d := h.sys.pc _ rfl
    refine ⟨hsys, rfl, h.verdicts, by simp [Sys.current], ?_⟩
    intro p hp
    cases hp
    have hall := (hpc.2.2.complete_of_canExit (by rw [hpc.2.1]; omega) hx).2
    rw [hpc.2.1] at hall
    exact ⟨hc, hall⟩
  | @workerThrows cfg at_ np before w ht =>
    have hc : cfg.Slotted := (h.pc _ rfl).1
    have hpc : _ ∧ w.cfg = cfg ∧ w.Inv d := h.sys.pc _ rfl
    obtain ⟨-, rfl, hw⟩ := hpc
    exact absurd hc.limit (Int.not_lt.mpr (hw.of_rejected ht).2.1)
  | workerDies => exact hok.elim
  | orphan hi => simp at hi
  | orphanExits hi => simp at hi
  | orphanDies hi => simp at hi
  | interrupt => exact hok.elim
  | containerCrash => exact hok.elim

/-- What the sessions of a run have done. -/
structure SessionInv (verdict : JsString → RunStatus) (es : List Event) (s : Sys) : Prop where
  quiet : QuietInv verdict s
  current : ∀ p, s.sup = some p → (sessions es).getLast? = some p.cfg
  origin : ∀ t ∈ recorded s.disk.progress, t ∈ union es
  finished : ∀ cfg ∈ sessions es,
    Complete cfg s.disk.progress ∨ ∃ p, s.sup = some p ∧ p.cfg = cfg
  spawned : ∀ t, spawns es t =
    if t ∈ recorded s.disk.progress ∨ ∃ w ∈ s.current, t ∈ w.running then 1 else 0
  summary : s.sup = none → ∀ cfg, (sessions es).getLast? = some cfg → ∃ at_ now,
    s.disk.summary = some (writeOutputs cfg.all.tests s.disk.progress at_ now)

namespace SessionInv

variable {verdict : JsString → RunStatus} {es : List Event}

theorem init : SessionInv verdict [] (Sys.idle Disk.empty) where
  quiet := .init verdict
  current := by simp [Sys.idle]
  origin := by simp [Sys.idle, Disk.empty]
  finished := by simp [sessions]
  spawned := by simp [Sys.idle, Disk.empty, Sys.current]
  summary := by simp [sessions]

theorem union_append {e : Event} (h : ∀ cfg fresh, e ≠ .start cfg fresh) :
    union (es ++ [e]) = union es := by
  rw [union, union, sessions_append h]

/-- The supervisor's steps run no test. -/
theorem running_of_supStep {cfg : Config} {at_ now : Int} {d d' : Disk} {pc : Pc}
    {p' : Option Supervisor} (hs : SupStep cfg at_ d now pc p' d') (orphans fallen : List Worker)
    (clock : Nat) : (∀ w ∈ (Sys.mk d (some ⟨cfg, at_, pc⟩) orphans fallen clock).current,
        w.running = []) ∧
      ∀ w ∈ (Sys.mk d' p' orphans fallen clock).current, w.running = [] := by
  cases hs with
  | clearCycle reason b np before after result =>
    rcases tally_cases cfg np before after result with ⟨np', h⟩ | h <;> simp [h, Sys.current]
  | launch => simp [Sys.current, Worker.launched, Worker.running, Thread.running]
  | _ => simp [Sys.current, startupHarvest]

theorem sup_step {cfg : Config} {at_ now : Int} {pc : Pc} {d d' : Disk} {clock : Nat}
    {p' : Option Supervisor}
    (h : SessionInv verdict es (Sys.mk d (some ⟨cfg, at_, pc⟩) [] [] clock))
    (hq' : QuietInv verdict (Sys.mk d' p' [] [] clock)) (hs : SupStep cfg at_ d now pc p' d') :
    SessionInv verdict (es ++ [.sup now]) (Sys.mk d' p' [] [] clock) := by
  have hne : ∀ c fresh, Event.sup now ≠ .start c fresh := by simp
  obtain ⟨hp, hcfg⟩ := h.quiet.sup_pc hs
  have hlast := h.current _ rfl
  have hpc := (h.quiet.pc _ rfl).2
  obtain ⟨hrun, hrun'⟩ := running_of_supStep hs [] [] clock
  refine ⟨hq', ?_, ?_, ?_, ?_, ?_⟩
  · rintro p hp'
    rw [sessions_append hne, (hcfg p hp').1]
    exact hlast
  · rw [union_append hne, show (Sys.disk _).progress = d.progress from hp]
    exact h.origin
  · rw [sessions_append hne, show (Sys.disk _).progress = d.progress from hp]
    intro c hc
    rcases h.finished c hc with hall | ⟨p, ⟨⟩, rfl⟩
    · exact .inl hall
    · cases hs with
      | outputs => exact .inl hpc.2
      | _ => exact .inr ⟨_, rfl, (hcfg _ rfl).1⟩
  · intro t
    rw [spawns_append_of_none rfl, h.spawned t,
      show (Sys.mk d' p' [] [] clock).disk.progress = d.progress from hp]
    have h1 : ¬ ∃ w ∈ (Sys.mk d (some ⟨cfg, at_, pc⟩) [] [] clock).current, t ∈ w.running := by
      rintro ⟨w, hw, ht⟩
      simp [hrun w hw] at ht
    have h2 : ¬ ∃ w ∈ (Sys.mk d' p' [] [] clock).current, t ∈ w.running := by
      rintro ⟨w, hw, ht⟩
      simp [hrun' w hw] at ht
    simp only [h1, h2, or_false]
  · intro hend c hc
    rw [sessions_append hne, hlast, Option.some.injEq] at hc
    subst hc
    obtain rfl : p' = none := hend
    cases hs
    exact ⟨_, _, rfl⟩

theorem worker_step {cfg : Config} {at_ np : Int} {before : Nat} {w w' : Worker} {d d' : Disk}
    {clock : Nat} {we : WorkerEvent}
    (h : SessionInv verdict es (Sys.mk d (some ⟨cfg, at_, .await np before w⟩) [] [] clock))
    (hq' : QuietInv verdict
      (Sys.mk d' (some ⟨cfg, at_, .await np before w'⟩) [] [] (clockAfter clock we)))
    (hs : WorkerStep w d we w' d') :
    SessionInv verdict (es ++ [.worker we])
      (Sys.mk d' (some ⟨cfg, at_, .await np before w'⟩) [] [] (clockAfter clock we)) := by
  have hne : ∀ c fresh, Event.worker we ≠ .start c fresh := by simp
  have hpc : _ ∧ w.cfg = cfg ∧ w.Inv d := h.quiet.sys.pc _ rfl
  obtain ⟨-, hwc, hw⟩ := hpc
  have hlast := h.current _ rfl
  have hgrow : ∀ t, t ∈ recorded d.progress → t ∈ recorded d'.progress := by
    intro t ht
    rcases hs.progress_cases with hp | ⟨r, hp⟩ <;> rw [hp]
    · exact ht
    · simp [ht]
  refine ⟨hq', ?_, ?_, ?_, ?_, by simp⟩
  · intro p hp
    cases hp
    rw [sessions_append hne]
    exact hlast
  · rw [union_append hne]
    intro t ht
    cases hs with
    | @append r hth =>
      have ht' : t ∈ recorded d.progress ∨ t = r.test := by simpa using ht
      rcases ht' with ht' | rfl
      · exact h.origin t ht'
      · have hall := (mem_remaining.mp (hw.append_remaining hth)).1
        rw [hwc] at hall
        exact List.mem_flatMap.mpr ⟨cfg, List.mem_of_mem_getLast? hlast, hall⟩
    | _ => exact h.origin t ht
  · rw [sessions_append hne]
    intro c hc
    rcases h.finished c hc with hall | ⟨p, ⟨⟩, rfl⟩
    · exact .inl fun t ht => hgrow t (hall t ht)
    · exact .inr ⟨_, rfl, rfl⟩
  · intro t
    have hold := h.spawned t
    simp only [Sys.current, List.mem_singleton, exists_eq_left] at hold ⊢
    rw [spawns_append, hold]
    cases hsp : we.spawned with
    | none =>
      simp only [Event.spawned, hsp, reduceCtorEq, if_false, Nat.add_zero]
      refine if_congr ?_ rfl rfl
      by_cases hr : t ∈ recorded d'.progress
      · refine iff_of_true ?_ (.inl hr)
        cases hs with
        | @append r hth =>
          have hr' : t ∈ recorded d.progress ∨ t = r.test := by simpa using hr
          rcases hr' with hr' | rfl
          · exact .inl hr'
          · have hk : r.test ∈ w.inFlight.keys := by simpa [Worker.ThreadOk, hth] using hw.thread
            exact .inr (by simpa [Worker.running, Thread.running, hth] using hk)
        | _ => exact .inl hr
      · rw [hs.mem_running hw t hr, hsp]
        have hr' : t ∉ recorded d.progress := fun h => hr (hgrow t h)
        simp [hr, hr']
    | some a =>
      obtain ⟨-, hnot, hrec, rfl⟩ := hs.spawned_fresh hw hsp
      simp only [Event.spawned, hsp, Option.some.injEq]
      by_cases hat : a = t
      · subst hat
        have hrun : a ∈ w'.running := (hs.mem_running hw a hrec).mpr (.inr hsp)
        simp [hrec, hnot, hrun]
      · rw [if_neg hat, Nat.add_zero]
        refine if_congr ?_ rfl rfl
        by_cases hr : t ∈ recorded d'.progress
        · simp [hr]
        · rw [hs.mem_running hw t hr, hsp]
          simp [hat]

theorem step {s s' : Sys} {e : Event} (h : SessionInv verdict es s)
    (hok : undisturbed verdict s e)
    (hlimit : ∀ cfg fresh, e = .start cfg fresh → cfg.concurrency < arrayLimit)
    (hs : s.step e = some s') : SessionInv verdict (es ++ [e]) s' := by
  have hq' := h.quiet.step hok hlimit hs
  have horph := h.quiet.sys.orphans
  have hfall := h.quiet.fallen
  obtain ⟨d, sup, orphans, fallen, clock⟩ := s
  obtain rfl : orphans = [] := horph
  obtain rfl : fallen = [] := hfall
  cases sysStep_of_step hs with
  | start cfg fresh =>
    refine ⟨hq', ?_, ?_, ?_, ?_, by simp⟩
    · intro p hp
      cases hp
      simp [sessions_append_start]
    · intro t ht
      have := h.origin t ht
      simp only [union, sessions_append_start, List.flatMap_append]
      exact List.mem_append_left _ this
    · intro c hc
      rw [sessions_append_start] at hc
      rcases List.mem_append.mp hc with hc | hc
      · rcases h.finished c hc with hall | ⟨p, hp, -⟩
        · exact .inl hall
        · cases hp
      · rw [List.mem_singleton] at hc
        exact .inr ⟨_, rfl, hc.symm⟩
    · intro t
      obtain ⟨rfl, -⟩ := hok
      have := h.spawned t
      rw [spawns_append_of_none rfl, this]
      simp [Sys.current, startupHarvest]
  | sup hsup =>
    simp only [ite_self] at hq' ⊢
    exact h.sup_step hq' hsup
  | worker hw' => exact h.worker_step hq' hw'
  | @workerExits cfg at_ np before w hx =>
    have hne : ∀ c fresh, Event.workerExits ≠ .start c fresh := by simp
    have hlast := h.current _ rfl
    refine ⟨hq', ?_, ?_, ?_, ?_, by simp⟩
    · intro p hp
      cases hp
      rw [sessions_append hne]
      exact hlast
    · rw [union_append hne]
      exact h.origin
    · rw [sessions_append hne]
      intro c hc
      rcases h.finished c hc with hall | ⟨p, ⟨⟩, rfl⟩
      · exact .inl hall
      · exact .inr ⟨_, rfl, rfl⟩
    · intro t
      rw [spawns_append_of_none rfl, h.spawned t]
      simp [Sys.current, running_of_canExit hx]
  | @workerThrows cfg at_ np before w ht => cases (hq'.pc _ rfl).2
  | stallAwait => exact hok.elim
  | stallExited => exact hok.elim
  | workerDies => exact hok.elim
  | orphan hi => simp at hi
  | orphanExits hi => simp at hi
  | orphanDies hi => simp at hi
  | interrupt => exact hok.elim
  | containerCrash => exact hok.elim

theorem of_run {s : Sys} (h : Run Sys.step (undisturbed verdict) (Sys.idle Disk.empty) es s)
    (hlimit : ∀ cfg ∈ sessions es, cfg.concurrency < arrayLimit) : SessionInv verdict es s := by
  refine h.traceInvariant (I := fun es s =>
    (∀ cfg ∈ sessions es, cfg.concurrency < arrayLimit) → SessionInv verdict es s)
    (fun _ => .init) (fun es s e s' hI hok hs hlimit => ?_) hlimit
  refine (hI fun cfg hcfg => hlimit cfg ?_).step hok ?_ hs
  · rw [sessions, List.filterMap_append]
    exact List.mem_append_left _ hcfg
  · rintro cfg fresh rfl
    exact hlimit cfg (by simp [sessions_append_start])

end SessionInv

/-! ## The end of a session -/

theorem Complete.results {verdict : JsString → RunStatus} {cfg : Config} {lines : List Rec}
    (h : Complete cfg lines) (hv : ∀ r ∈ lines, r.status = (verdict r.test).toStatus) :
    (cfg.all.tests.filterMap (readLedger lines).get?).map Rec.result =
      cfg.all.tests.map (fun t => ⟨t, some (verdict t).toStatus⟩) := by
  have key : ∀ l : List JsString, (∀ t ∈ l, t ∈ recorded lines) →
      (l.filterMap (readLedger lines).get?).map Rec.result =
        l.map (fun t => ⟨t, some (verdict t).toStatus⟩) := by
    intro l hl
    induction l with
    | nil => rfl
    | cons t l ih =>
      obtain ⟨r, hr⟩ := get?_readLedger_isSome (hl t (by simp))
      obtain ⟨hmem, rfl⟩ := mem_of_get?_readLedger hr
      rw [List.filterMap_cons_some hr, List.map_cons, List.map_cons,
        ih fun t ht => hl t (by simp [ht]), Rec.result, hv r hmem]
  exact key _ h

/-- The steps of the startup harvest that are left, when it has nothing to mark. -/
def Pc.startupRank (d : Disk) : Pc → Nat
  | .harvest h .startup =>
    match h.phase with
    | .readInflight => 5 + d.inflight.length
    | .readLedger l => 4 + l.length
    | .reap entries _ => 3 + entries.length
    | .append _ => 2
    | .clear => 1
  | _ => 0

def Sys.startupRank (s : Sys) : Nat :=
  match s.pc with
  | some pc => pc.startupRank s.disk
  | none => 0

/-- A state of the session that was started with `cfg`. -/
structure InSession (verdict : JsString → RunStatus) (cfg : Config) (s : Sys) : Prop where
  quiet : QuietInv verdict s
  cfg : ∀ p, s.sup = some p → p.cfg = cfg

namespace InSession

variable {verdict : JsString → RunStatus} {cfg : Config} {s s' : Sys} {e : Event}

theorem step (h : InSession verdict cfg s) (hok : inSession verdict s e)
    (hs : s.step e = some s') : InSession verdict cfg s' := by
  have hstart : ∀ cfg fresh, e = .start cfg fresh → cfg.concurrency < arrayLimit := by
    rintro cfg fresh rfl
    exact hok.2.elim
  refine ⟨h.quiet.step hok.1 hstart hs, ?_⟩
  obtain ⟨d, sup, orphans, fallen, clock⟩ := s
  cases sysStep_of_step hs with
  | @sup cfg' at_ now pc p' d' hsup =>
    have hcfg : cfg' = cfg := h.cfg _ rfl
    have horph := h.quiet.sys.orphans
    have hfall := h.quiet.fallen
    obtain rfl : orphans = [] := horph
    obtain rfl : fallen = [] := hfall
    intro p hp
    rw [((h.quiet.sup_pc hsup).2 p hp).1]
    exact hcfg
  | @worker cfg' =>
    have hcfg : cfg' = cfg := h.cfg _ rfl
    intro p hp
    cases hp
    exact hcfg
  | workerExits | workerThrows =>
    have hcfg := h.cfg _ rfl
    rintro p ⟨⟩
    exact hcfg
  | stallAwait => exact hok.1.elim
  | stallExited => exact hok.1.elim
  | workerDies => exact hok.1.elim
  | _ => exact hok.2.elim

/-- After the startup harvest a session is in the loop. -/
theorem loopInv (h : InSession verdict cfg s) (hh : ∀ hv, s.pc ≠ some (.harvest hv .startup)) :
    LoopInv cfg s := by
  intro p hp
  have hcfg := h.cfg p hp
  obtain ⟨hc, hq⟩ := h.quiet.pc p hp
  have hok := h.quiet.sys.pc p hp
  have hin : (∀ np before w, p.pc ≠ .await np before w) → s.disk.inflight = [] := by
    intro hne
    refine h.quiet.inflight_eq_nil ?_
    unfold Sys.current
    split
    · rename_i heq
      obtain rfl := Option.some.inj (hp.symm.trans heq)
      exact absurd rfl (hne _ _ _)
    · rfl
  refine ⟨hcfg, ?_⟩
  obtain ⟨cfg', at_, pc⟩ := p
  obtain rfl : cfg' = cfg := hcfg
  cases pc with
  | rmProgress => exact hok.elim
  | rmInflight => exact hok.elim
  | harvest hv k =>
    obtain rfl : k = .startup := hq
    exact absurd (by rw [Sys.pc, hp]; rfl) (hh hv)
  | top np => exact ⟨hin (by simp), .inl hc.one⟩
  | launch np before => exact ⟨hin (by simp), hc.one⟩
  | await np before w => exact ⟨hc.one, hok.2⟩
  | exited np before how =>
    cases how with
    | zero => exact ⟨hc.one, hq, hin (by simp)⟩
    | abnormal what => exact hq.elim
  | returned np before result =>
    cases result with
    | done => exact ⟨hc.one, hq⟩
    | stall => exact hq.elim
    | exit what => exact hq.elim
  | clean => exact ⟨hc.one, hq⟩
  | broke b => trivial

theorem rank_of_loopInv (h : LoopInv cfg s) : s.startupRank = 0 := by
  unfold Sys.startupRank
  cases hp : s.pc with
  | none => rfl
  | some pc =>
    obtain ⟨p, hp', rfl⟩ := Option.map_eq_some_iff.mp hp
    have hl := (h p hp').2
    simp only
    unfold Pc.startupRank
    split
    · rename_i hpc
      rw [hpc] at hl
      obtain ⟨-, -, -, np, before, after, result, hk, -⟩ := hl
      cases hk
    · rfl

/-- The steps of the startup harvest come to its end. -/
theorem rank_lt (h : InSession verdict cfg s) {hv : Harvest}
    (hpc : s.pc = some (.harvest hv .startup)) (hok : inSession verdict s e)
    (hs : s.step e = some s') : s'.startupRank < s.startupRank := by
  have hin := hok.2
  obtain ⟨d, sup, orphans, fallen, clock⟩ := s
  cases sysStep_of_step hs with
  | @sup cfg' at_ now pc p' d' hsup =>
    obtain rfl : pc = .harvest hv .startup := by simpa [Sys.pc] using hpc
    have hphase : hv.phase.Ok d := h.quiet.sys.pc _ rfl
    cases hsup with
    | mark reason b k a targets =>
      have := h.quiet.targets_eq_nil (by simp [Sys.current]) hphase
      cases this
    | readLedger reason b k inflight =>
      simp [Sys.startupRank, Sys.pc, Pc.startupRank]
    | _ => simp [Sys.startupRank, Sys.pc, Pc.startupRank]
  | stallAwait => cases hpc
  | stallExited => cases hpc
  | worker => cases hpc
  | workerExits | workerThrows => cases hpc
  | workerDies => cases hpc
  | _ => exact hin.elim

/-- A session is over after finitely many steps. -/
theorem terminates (h : InSession verdict cfg s) :
    Terminates Sys.step (inSession verdict) s := by
  refine acc_of_measure (I := InSession verdict cfg)
    ((wellFounded_lt (α := ℕ)).prod_lex (wellFounded_lt (α := ℕ ×ₗ ℕ ×ₗ ℕ ×ₗ ℕ)))
    (fun s => (s.startupRank, s.measure cfg)) (fun _ _ _ hI hok hs => hI.step hok hs) ?_ h
  intro t e t' hI hok hs
  by_cases hh : ∃ hv, t.pc = some (.harvest hv .startup)
  · obtain ⟨hv, hpc⟩ := hh
    exact Prod.Lex.left _ _ (hI.rank_lt hpc hok hs)
  · have hl := hI.loopInv fun hv hpc => hh ⟨hv, hpc⟩
    rw [rank_of_loopInv hl, rank_of_loopInv (hl.step hok.2 hs)]
    exact Prod.Lex.right _ (measure_step_lt hl hok.2 hs)

/-- As long as its supervisor runs, a session can go on. -/
theorem enabled (hsup : s.sup ≠ none) : ∃ t, Steps Sys.step (inSession verdict) s t := by
  rcases Sys.progress hsup with ⟨t, ht⟩ | ⟨w, -, ⟨e, hr, hs⟩ | hs | ⟨-, -, t, -, hs⟩⟩
  · exact ⟨t, .sup 0, ⟨trivial, trivial⟩, ht⟩
  · refine steps_of_isSome hs ⟨?_, trivial⟩
    cases e with
    | settle r => exact hr.elim
    | _ => trivial
  · exact steps_of_isSome hs ⟨trivial, trivial⟩
  · exact steps_of_isSome (hs ⟨t, verdict t, 0, none, none, [], none⟩ rfl) ⟨rfl, trivial⟩

end InSession

/-- The run of a session whose tests all have a line: no worker is launched. -/
structure Cached (verdict : JsString → RunStatus) (cfg : Config) (lines : List Rec) (s : Sys) :
    Prop where
  session : InSession verdict cfg s
  ledger : s.disk.progress = lines
  pc : ∀ p, s.sup = some p →
    (∃ hv, p.pc = .harvest hv .startup) ∨ (∃ np, p.pc = .top np) ∨ ∃ b, p.pc = .broke b

theorem Cached.step {verdict : JsString → RunStatus} {cfg : Config} {lines : List Rec}
    {s s' : Sys} {e : Event} (hall : Complete cfg lines) (h : Cached verdict cfg lines s)
    (hok : inSession verdict s e) (hs : s.step e = some s') : Cached verdict cfg lines s' := by
  have hses := h.session.step hok hs
  have horph := h.session.quiet.sys.orphans
  have hfall := h.session.quiet.fallen
  obtain ⟨d, sup, orphans, fallen, clock⟩ := s
  obtain rfl : orphans = [] := horph
  obtain rfl : fallen = [] := hfall
  have hled : d.progress = lines := h.ledger
  cases sysStep_of_step hs with
  | @sup cfg' at_ now pc p' d' hsup =>
    have hcfg : cfg' = cfg := h.session.cfg _ rfl
    subst hcfg
    refine ⟨hses, (h.session.quiet.sup_pc hsup).1.trans hled, ?_⟩
    have hpc := h.pc _ rfl
    cases hsup with
    | enter np t ht hr => exact absurd (hled ▸ hall t ht) hr
    | leave => rintro p ⟨⟩; exact .inr (.inr ⟨_, rfl⟩)
    | clearStartup => rintro p ⟨⟩; exact .inr (.inl ⟨_, rfl⟩)
    | outputs => simp
    | readInflight => rintro p ⟨⟩; simpa using hpc
    | readLedger => rintro p ⟨⟩; simpa using hpc
    | reap => rintro p ⟨⟩; simpa using hpc
    | reaped => rintro p ⟨⟩; simpa using hpc
    | mark => rintro p ⟨⟩; simpa using hpc
    | marked => rintro p ⟨⟩; simpa using hpc
    | _ => simp at hpc
  | worker => simpa using h.pc _ rfl
  | workerExits | workerThrows => simpa using h.pc _ rfl
  | stallAwait => exact hok.1.elim
  | stallExited => exact hok.1.elim
  | workerDies => exact hok.1.elim
  | _ => exact hok.2.elim

/-- The session of `cfg`, right after its start. -/
theorem InSession.of_start {verdict : JsString → RunStatus} {cfg : Config} {s s₁ : Sys}
    (h : QuietInv verdict s) (hc : cfg.Slotted) (hs : s.step (.start cfg false) = some s₁) :
    InSession verdict cfg s₁ := by
  refine ⟨h.step (e := Event.start cfg false) ⟨rfl, hc.one⟩ ?_ hs, ?_⟩
  · rintro _ _ ⟨⟩
    exact hc.limit
  obtain ⟨d, sup, orphans, fallen, clock⟩ := s
  cases sysStep_of_step hs with
  | start => rintro p ⟨⟩; rfl

/-- Every session that has been started has slots. -/
theorem concurrency_of_mem_sessions {verdict : JsString → RunStatus} {es : List Event}
    {s₀ s : Sys} (h : Run Sys.step (undisturbed verdict) s₀ es s) :
    ∀ cfg ∈ sessions es, 1 ≤ cfg.concurrency := by
  induction h with
  | refl => simp [sessions]
  | @snoc es e s' s'' _ hok _ ih =>
    by_cases he : ∃ cfg fresh, e = .start cfg fresh
    · obtain ⟨cfg, fresh, rfl⟩ := he
      rw [sessions_append_start]
      intro c hc
      rcases List.mem_append.mp hc with hc | hc
      · exact ih c hc
      · obtain rfl := List.mem_singleton.mp hc
        exact hok.2
    · rw [sessions_append fun cfg fresh h => he ⟨cfg, fresh, h⟩]
      exact ih

/-- A summary without its times. -/
def Summary.untimed (sm : Summary) : Summary :=
  { sm with startedAt := 0, finishedAt := 0, durationMs := 0 }

theorem untimed_writeJsonResults (results : List Result) (startedAt finishedAt : Int) :
    (writeJsonResults results startedAt finishedAt).untimed = writeJsonResults results 0 0 := by
  simp [writeJsonResults, Summary.untimed]

/-- What a run of sessions comes to, when the last of them has ended. -/
structure SessionsAgree (verdict : JsString → RunStatus) (es : List Event) (s : Sys) : Prop where
  /-- The ledger holds the union of the selections, with the verdicts. -/
  ledger : ∀ t, ((readLedger s.disk.progress).get? t).map Rec.status =
    if t ∈ union es then some (verdict t).toStatus else none
  executed : ∀ t, spawns es t = if t ∈ union es then 1 else 0
  /-- The last session's summary lists its selection, and but for the times it is the one of
  any session that has run this selection alone. -/
  summary : ∀ cfg, (sessions es).getLast? = some cfg → ∃ sm, s.disk.summary = some sm ∧
    sm.results = cfg.all.tests.map (fun t => ⟨t, some (verdict t).toStatus⟩) ∧
    ∀ es' s' cfg', Run Sys.step (undisturbed verdict) (Sys.idle Disk.empty) es' s' →
      s'.sup = none → sessions es' = [cfg'] → cfg'.concurrency < arrayLimit →
      cfg'.all = cfg.all → ∃ sm', s'.disk.summary = some sm' ∧ sm'.untimed = sm.untimed
  /-- A session that is repeated appends nothing. -/
  again : ∀ cfg ∈ sessions es, ∀ s₁, s.step (.start cfg false) = some s₁ → ∀ es' s',
    Run Sys.step (inSession verdict) s₁ es' s' → s'.disk.progress = s.disk.progress
  /-- A further session, whatever it selects, comes to its end. -/
  ends : ∀ cfg s₁, cfg.Slotted → s.step (.start cfg false) = some s₁ →
    Terminates Sys.step (inSession verdict) s₁ ∧
    ∀ es' s', Run Sys.step (inSession verdict) s₁ es' s' →
      (∀ t, ¬ Steps Sys.step (inSession verdict) s' t) → s'.sup = none

namespace SessionInv

variable {verdict : JsString → RunStatus} {es : List Event} {s : Sys}

/-- Between two sessions the union of the selections is recorded, and nothing else. -/
theorem mem_recorded (h : SessionInv verdict es s) (hend : s.sup = none) (t : JsString) :
    t ∈ recorded s.disk.progress ↔ t ∈ union es := by
  refine ⟨h.origin t, fun ht => ?_⟩
  obtain ⟨cfg, hcfg, ht⟩ := List.mem_flatMap.mp ht
  rcases h.finished cfg hcfg with hall | ⟨p, hp, -⟩
  · exact hall t ht
  · rw [hend] at hp
    cases hp

/-- The summary that the last session has written. -/
theorem results (h : SessionInv verdict es s) (hend : s.sup = none) {cfg : Config}
    (hlast : (sessions es).getLast? = some cfg) : ∃ at_ now, s.disk.summary = some
      (writeJsonResults (cfg.all.tests.map (fun t => ⟨t, some (verdict t).toStatus⟩)) at_ now) := by
  obtain ⟨at_, now, hsm⟩ := h.summary hend cfg hlast
  refine ⟨at_, now, hsm.trans ?_⟩
  have hall : Complete cfg s.disk.progress := by
    intro t ht
    rw [h.mem_recorded hend]
    exact List.mem_flatMap.mpr ⟨cfg, List.mem_of_mem_getLast? hlast, ht⟩
  simp only [writeOutputs, hall.results h.quiet.verdicts]

end SessionInv

/-- **Schedule and session independence.** When tests have fixed verdicts and nothing is
killed, the ledger, the number of executions and the last summary depend only on the
selections, not on the schedules, the concurrencies or the order of the sessions, as long as
every concurrency is an array's length. -/
theorem sessionIndependence {verdict : JsString → RunStatus} {es : List Event} {s : Sys}
    (h : Run Sys.step (undisturbed verdict) (Sys.idle Disk.empty) es s)
    (hlimit : ∀ cfg ∈ sessions es, cfg.concurrency < arrayLimit) (hend : s.sup = none) :
    SessionsAgree verdict es s := by
  have hI := SessionInv.of_run h hlimit
  have hmem := hI.mem_recorded hend
  have hcur : s.current = [] := by simp [Sys.current, hend]
  refine ⟨fun t => ?_, fun t => ?_, fun cfg hlast => ?_, ?_, ?_⟩
  · split
    · rename_i ht
      obtain ⟨r, hr⟩ := get?_readLedger_isSome ((hmem t).mpr ht)
      obtain ⟨hin, rfl⟩ := mem_of_get?_readLedger hr
      rw [hr, Option.map_some, hI.quiet.verdicts r hin]
    · rename_i ht
      rw [JsMap.get?_eq_none.mpr (by rwa [mem_keys_readLedger, hmem]), Option.map_none]
  · rw [hI.spawned t]
    simp only [hcur, List.not_mem_nil, false_and, exists_false, or_false, hmem]
  · obtain ⟨at_, now, hsm⟩ := hI.results hend hlast
    refine ⟨_, hsm, rfl, fun es' s' cfg' h' hend' hone hlt hall => ?_⟩
    have hlast' : (sessions es').getLast? = some cfg' := by simp [hone]
    have hlimit' : ∀ c ∈ sessions es', c.concurrency < arrayLimit := by simpa [hone] using hlt
    obtain ⟨at', now', hsm'⟩ := (SessionInv.of_run h' hlimit').results hend' hlast'
    refine ⟨_, hsm', ?_⟩
    rw [untimed_writeJsonResults, untimed_writeJsonResults, hall]
  · intro cfg hcfg s₁ hs es' s' hr
    have hc : cfg.Slotted := ⟨concurrency_of_mem_sessions h cfg hcfg, hlimit cfg hcfg⟩
    have hall : Complete cfg s.disk.progress := fun t ht =>
      (hmem t).mpr (List.mem_flatMap.mpr ⟨cfg, hcfg, ht⟩)
    have hstart : Cached verdict cfg s.disk.progress s₁ := by
      refine ⟨.of_start hI.quiet hc hs, ?_, ?_⟩
      all_goals
        obtain ⟨d, sup, orphans, fallen, clock⟩ := s
        cases sysStep_of_step hs
      · rfl
      · intro p hp
        cases hp
        exact .inl ⟨_, rfl⟩
    exact (hr.invariant hstart fun _ _ _ hC hok hstep => hC.step hall hok hstep).ledger
  · intro cfg s₁ hc hs
    have hstart := InSession.of_start hI.quiet hc hs
    refine ⟨hstart.terminates, fun es' s' hr hstuck => ?_⟩
    by_contra hne
    obtain ⟨t, ht⟩ : ∃ t, Steps Sys.step (inSession verdict) s' t := InSession.enabled hne
    exact hstuck t ht

/-- Three tests in the directory. -/
def threeTests : Corpus :=
  ⟨[js "test-c.js", js "test-a.js", js "test-b.js"], by decide, fun f => f = js "test-b.js" ||
    f = js "test-c.js"⟩

/-- The first session selects two tests by filters, the second one by a manifest. -/
def filtered : Config :=
  Cli.config threeTests
    { filters := [js "-a", js "-b"], listFile := none, concurrency := some 2
      testTimeoutMs := none, stallMs := none, limit := none, maxNoProgress := none }

def manifest : Config :=
  Cli.config threeTests
    { filters := [], listFile := some (js "c\nb # again\n"), concurrency := some 1
      testTimeoutMs := none, stallMs := none, limit := none, maxNoProgress := none }

/-- `test-b.js` skips itself. -/
def skipB (t : JsString) : RunStatus := if t = js "test-b.js" then .skip else .pass

def skipRec (t : JsString) : RunRec := ⟨t, skipB t, 5, some 0, none, [], none⟩

/-- In the first session `test-b.js` is the first to settle; the second one finds it done. -/
def twoSessions : List Event :=
  [.start filtered false] ++ List.replicate 7 (.sup 1) ++
  [.load, .clear, .claim 1, .register, .spawn (js "test-a.js") (some 11), .mirror,
    .claim 2, .register, .spawn (js "test-b.js") (some 12), .mirror,
    .settle (skipRec (js "test-b.js")), .append, .deregister, .slotEnd,
    .settle (skipRec (js "test-a.js")), .append, .deregister, .slotEnd].map Event.worker ++
  [.workerExits] ++ List.replicate 5 (.sup 2) ++
  [.start manifest false] ++ List.replicate 7 (.sup 3) ++
  [.load, .clear, .claim 4, .register, .spawn (js "test-c.js") (some 13), .mirror,
    .settle (skipRec (js "test-c.js")), .append, .deregister, .slotEnd].map Event.worker ++
  [.workerExits] ++ List.replicate 5 (.sup 5)

theorem sessionIndependence_twoSessions :
    ∃ s, execute Sys.step (undisturbed skipB) (Sys.idle Disk.empty) twoSessions = some s ∧
      recorded s.disk.progress = [js "test-b.js", js "test-a.js", js "test-c.js"] ∧
      s.disk.summary.map Summary.results =
        some [⟨js "test-b.js", some .skip⟩, ⟨js "test-c.js", some .pass⟩] ∧
      SessionsAgree skipB twoSessions s := by
  have agree : ∀ s, execute Sys.step (undisturbed skipB) (Sys.idle Disk.empty) twoSessions =
      some s → s.sup = none → SessionsAgree skipB twoSessions s :=
    fun s hs hend => sessionIndependence (run_of_execute hs)
      (by simp [twoSessions, sessions, filtered, manifest, Cli.config, knob,
        arrayLimit]) hend
  exact ⟨_, rfl, rfl, rfl, agree _ rfl rfl⟩

/-- One test, and `CONCURRENCY=4294967296`. -/
def tooWide : Config :=
  Cli.config oneTest { negativeConcurrency with concurrency := some 4294967296 }

/-- The workers of four cycles exit with 1, and the session is given up. -/
def rejectedSession : List Event :=
  [.start tooWide false] ++ List.replicate 5 (.sup 1) ++
  (List.replicate 4 ([.sup 2, .sup 2, .worker .load, .worker .clear, .workerExits] ++
    List.replicate 7 (.sup 2))).flatten ++ [.sup 3]

/-- The knob lets 2^32 through; `runPool` throws in every worker, the test is never run and the
ledger stays empty. -/
theorem sessionIndependence_fails_arrayLimit :
    ∃ s, execute Sys.step (undisturbed skipB) (Sys.idle Disk.empty) rejectedSession = some s ∧
      s.sup = none ∧ sessions rejectedSession = [tooWide] ∧ 1 ≤ tooWide.concurrency ∧
      tooWide.all.tests = [js "test-a.js"] ∧ s.disk.progress = [] ∧
      ¬ SessionsAgree skipB rejectedSession s := by
  refine ⟨_, rfl, rfl, rfl, by decide, by decide, rfl, fun h => ?_⟩
  have hnone := h.executed (js "test-a.js")
  have hmem : js "test-a.js" ∈ union rejectedSession := by decide
  rw [if_pos hmem] at hnone
  exact absurd hnone (by decide)

end CorpusRunner
