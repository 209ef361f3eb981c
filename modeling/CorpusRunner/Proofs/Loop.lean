import CorpusRunner.Proofs.Protocol

/-!
# The supervisor's loop

The `while (true)` loop from its entry: one supervisor, its successive workers, and nothing
that starts, interrupts or crashes them from outside. A worker may take any step, die, exit or
be declared stalled.
-/

namespace CorpusRunner

/-- The events of the loop: steps of the supervisor and of its worker. -/
def inLoop (_ : Sys) : Event → Prop
  | .sup _ => True
  | .stall => True
  | .worker _ => True
  | .workerExits => True
  | .workerDies _ => True
  | _ => False

instance (s : Sys) (e : Event) : Decidable (inLoop s e) := by
  induction e using Event.casesOn <;> dsimp only [inLoop] <;> infer_instance

/-- The loop is entered: the startup harvest has emptied the registry. -/
def loopEntry (cfg : Config) (lines : List Rec) (summary : Option Summary) (startedAt : Int)
    (clock : Nat) : Sys :=
  ⟨⟨lines, [], summary⟩, some ⟨cfg, startedAt, .top 0⟩, [], [], clock⟩

/-- `all.filter((t) => !done.has(t))`. -/
def remaining (cfg : Config) (lines : List Rec) : List JsString :=
  cfg.all.tests.filter (fun t => decide (t ∉ recorded lines))

/-- Every selected test has a line. -/
def Complete (cfg : Config) (lines : List Rec) : Prop :=
  ∀ t ∈ cfg.all.tests, t ∈ recorded lines

theorem remaining_eq_nil_iff {cfg : Config} {lines : List Rec} :
    remaining cfg lines = [] ↔ Complete cfg lines := by
  simp [remaining, Complete, List.filter_eq_nil_iff]

theorem mem_remaining {cfg : Config} {lines : List Rec} {t : JsString} :
    t ∈ remaining cfg lines ↔ t ∈ cfg.all.tests ∧ t ∉ recorded lines := by
  simp [remaining]

theorem remaining_nodup (cfg : Config) (lines : List Rec) : (remaining cfg lines).Nodup :=
  cfg.all.nodup.filter _

/-- A line takes its test out of what remains. -/
theorem remaining_append (cfg : Config) (lines : List Rec) (r : Rec) :
    remaining cfg (lines ++ [r]) =
      (remaining cfg lines).filter (fun t => decide (t ≠ r.test)) := by
  unfold remaining
  rw [List.filter_filter]
  refine List.filter_congr fun t _ => ?_
  simp [Bool.and_comm]

theorem length_remaining_append_lt {cfg : Config} {lines : List Rec} {r : Rec}
    (h : r.test ∈ remaining cfg lines) :
    (remaining cfg (lines ++ [r])).length < (remaining cfg lines).length := by
  rw [remaining_append]
  refine List.length_filter_lt_length_iff_exists.mpr ⟨r.test, h, by simp⟩

/-- The line of the first test that remains. -/
theorem remaining_append_head {cfg : Config} {lines : List Rec} {r : Rec}
    {rest : List JsString} (h : remaining cfg lines = r.test :: rest) :
    remaining cfg (lines ++ [r]) = rest := by
  have hnd := remaining_nodup cfg lines
  rw [h, List.nodup_cons] at hnd
  rw [remaining_append, h, List.filter_cons_of_neg (by simp), List.filter_eq_self]
  intro a ha
  rw [decide_eq_true_eq]
  intro heq
  subst heq
  exact hnd.1 ha

/-- The registry lists selected tests, each once. -/
structure Listed (cfg : Config) (d : Disk) : Prop where
  nodup : (listed d.inflight).Nodup
  selected : ∀ t ∈ listed d.inflight, t ∈ cfg.all.tests

theorem Listed.nil {cfg : Config} {d : Disk} (h : d.inflight = []) : Listed cfg d :=
  ⟨by simp [h], by simp [h]⟩

/-- A worker's registry lists what it has claimed. -/
theorem Worker.Inv.listed {w : Worker} {d : Disk} (h : w.Inv d) : Listed w.cfg d where
  nodup := by
    rw [h.mirror, listed_registry]
    exact w.shown.keys_nodup
  selected := by
    intro t ht
    rw [h.mirror, listed_registry] at ht
    exact h.order.subset (List.mem_append_left _ (w.keys_shown_sublist.subset ht))

/-- A test that a worker records had remained. -/
theorem Worker.Inv.append_remaining {w : Worker} {d : Disk} {r : RunRec} (h : w.Inv d)
    (ht : w.thread = .settled r) : r.test ∈ remaining w.cfg d.progress := by
  have hk : r.test ∈ w.inFlight.keys := by simpa [Worker.ThreadOk, ht] using h.thread
  refine mem_remaining.mpr ⟨h.order.subset (List.mem_append_left _ hk), fun hr => ?_⟩
  have := (h.held _ hk).mp hr
  simp [ht] at this

/-- What holds at each point of the loop. A cycle is only entered with a slot to run it. -/
def Pc.LoopOk (cfg : Config) (d : Disk) : Pc → Prop
  | .rmProgress => False
  | .rmInflight => False
  | .harvest h k => 1 ≤ cfg.concurrency ∧ Listed cfg d ∧ h.phase.Ok d ∧
      ∃ np before after result, k = .cycle np before after result ∧ result ≠ .done
  | .top _ => d.inflight = [] ∧ (1 ≤ cfg.concurrency ∨ Complete cfg d.progress)
  | .launch _ _ => d.inflight = [] ∧ 1 ≤ cfg.concurrency
  | .await _ _ w => 1 ≤ cfg.concurrency ∧ w.cfg = cfg ∧ w.Inv d
  | .exited _ _ .zero => 1 ≤ cfg.concurrency ∧ Complete cfg d.progress ∧ d.inflight = []
  | .exited _ _ (.abnormal _) => 1 ≤ cfg.concurrency ∧ Listed cfg d
  | .returned _ _ .done => 1 ≤ cfg.concurrency ∧ Complete cfg d.progress
  | .returned _ _ _ => 1 ≤ cfg.concurrency ∧ Listed cfg d
  | .clean => 1 ≤ cfg.concurrency ∧ Complete cfg d.progress
  | .broke _ => True

def LoopInv (cfg : Config) (s : Sys) : Prop :=
  ∀ p, s.sup = some p → p.cfg = cfg ∧ p.pc.LoopOk cfg s.disk

theorem tally_of_le {cfg : Config} {np : Int} {before after : Nat} {result : CycleResult}
    (h : after ≤ before) (hr : result ≠ .done) :
    tally cfg np before after result =
      if np + 1 ≥ cfg.maxNoProgress then .broke true else .top (np + 1) := by
  unfold tally
  rw [if_pos ⟨h, hr⟩]

theorem tally_of_lt {cfg : Config} {np : Int} {before after : Nat} {result : CycleResult}
    (h : before < after) : tally cfg np before after result = .top 0 := by
  unfold tally
  rw [if_neg (by omega)]

theorem tally_loopOk {cfg : Config} {d : Disk} {np : Int} {before after : Nat}
    {result : CycleResult} (hc : 1 ≤ cfg.concurrency) (hd : d.inflight = []) :
    (tally cfg np before after result).LoopOk cfg d := by
  rcases tally_cases cfg np before after result with ⟨np', h⟩ | h <;> rw [h]
  · exact ⟨hd, .inl hc⟩
  · trivial

namespace LoopInv

variable {cfg : Config} {s s' : Sys} {e : Event}

theorem entry {lines : List Rec} {summary : Option Summary} {startedAt : Int} {clock : Nat}
    (h : 1 ≤ cfg.concurrency ∨ Complete cfg lines) :
    LoopInv cfg (loopEntry cfg lines summary startedAt clock) := by
  intro p hp
  cases hp
  exact ⟨rfl, rfl, h⟩

/-- A step of the supervisor. -/
theorem sup_step {d d' : Disk} {at_ now : Int} {pc : Pc} {p' : Option Supervisor}
    (h : pc.LoopOk cfg d) (hs : SupStep cfg at_ d now pc p' d') :
    ∀ p, p' = some p → p.cfg = cfg ∧ p.pc.LoopOk cfg d' := by
  cases hs with
  | rmProgress => exact h.elim
  | rmInflight => exact h.elim
  | readInflight reason b k =>
    intro p hp
    cases hp
    exact ⟨rfl, h.1, h.2.1, rfl, h.2.2.2⟩
  | readLedger reason b k inflight =>
    intro p hp
    cases hp
    have hl : inflight = d.inflight := h.2.2.1
    refine ⟨rfl, h.1, h.2.1, ?_, h.2.2.2⟩
    rw [hl]
    exact targetsOk_harvestTargets b h.2.1.nodup
  | reap => rintro p ⟨⟩; exact ⟨rfl, h⟩
  | reaped => rintro p ⟨⟩; exact ⟨rfl, h⟩
  | mark reason b k e targets =>
    intro p hp
    cases hp
    have ht : TargetsOk d (e :: targets) := h.2.2.1
    exact ⟨rfl, h.1, ⟨h.2.1.nodup, h.2.1.selected⟩, ht.tail, h.2.2.2⟩
  | marked => rintro p ⟨⟩; exact ⟨rfl, h.1, h.2.1, trivial, h.2.2.2⟩
  | clearStartup =>
    obtain ⟨-, -, -, np, before, after, result, hk, -⟩ := h
    cases hk
  | clearCycle => rintro p ⟨⟩; exact ⟨rfl, tally_loopOk h.1 rfl⟩
  | leave => rintro p ⟨⟩; exact ⟨rfl, trivial⟩
  | enter np t ht hr =>
    intro p hp
    cases hp
    refine ⟨rfl, h.1, ?_⟩
    rcases h.2 with hc | hall
    · exact hc
    · exact absurd (hall t ht) hr
  | launch =>
    intro p hp
    cases hp
    exact ⟨rfl, h.2, rfl, .of_launched h.1⟩
  | exitZero => rintro p ⟨⟩; exact ⟨rfl, h.1, h.2.1⟩
  | exitAbnormal => rintro p ⟨⟩; exact ⟨rfl, h⟩
  | done => rintro p ⟨⟩; exact ⟨rfl, h⟩
  | stalled => rintro p ⟨⟩; exact ⟨rfl, h.1, h.2, trivial, _, _, _, _, rfl, by simp⟩
  | exited => rintro p ⟨⟩; exact ⟨rfl, h.1, h.2, trivial, _, _, _, _, rfl, by simp⟩
  | clean => rintro p ⟨⟩; exact ⟨rfl, rfl, .inl h.1⟩
  | outputs => simp

theorem step (h : LoopInv cfg s) (hok : inLoop s e) (hs : s.step e = some s') :
    LoopInv cfg s' := by
  obtain ⟨d, sup, orphans, fallen, clock⟩ := s
  cases sysStep_of_step hs with
  | @sup cfg' at_ now pc p' d' hsup =>
    obtain ⟨hcfg, hpc⟩ := h _ rfl
    obtain rfl : cfg' = cfg := hcfg
    exact sup_step hpc hsup
  | @stallAwait cfg' at_ np before w =>
    obtain ⟨hcfg, hc, hwc, hw⟩ := h _ rfl
    obtain rfl : cfg' = cfg := hcfg
    intro p hp
    cases hp
    exact ⟨rfl, hc, hwc ▸ hw.listed⟩
  | @stallExited cfg' at_ np before how =>
    obtain ⟨hcfg, hpc⟩ := h _ rfl
    obtain rfl : cfg' = cfg := hcfg
    intro p hp
    cases hp
    cases how with
    | zero => exact ⟨rfl, hpc.1, .nil hpc.2.2⟩
    | abnormal what => exact ⟨rfl, hpc⟩
  | @worker cfg' at_ np before w w' d' we hw' =>
    obtain ⟨hcfg, hc, hwc, hw⟩ := h _ rfl
    intro p hp
    cases hp
    exact ⟨hcfg, hc, hw'.cfg_eq.trans hwc, hw.step hw'⟩
  | @workerExits cfg' at_ np before w hx =>
    obtain ⟨hcfg, hc, hwc, hw⟩ := h _ rfl
    intro p hp
    cases hp
    have hall := (hw.complete_of_canExit (by rw [hwc]; omega) hx).2
    exact ⟨hcfg, hc, hwc ▸ hall, hw.inflight_of_canExit hx⟩
  | @workerThrows cfg' at_ np before w hx =>
    obtain ⟨hcfg, hc, hwc, hw⟩ := h _ rfl
    intro p hp
    cases hp
    exact ⟨hcfg, hc, hwc ▸ hw.listed⟩
  | @workerDies cfg' at_ np before w what =>
    obtain ⟨hcfg, hc, hwc, hw⟩ := h _ rfl
    intro p hp
    cases hp
    exact ⟨hcfg, hc, hwc ▸ hw.listed⟩
  | _ => exact hok.elim

/-- Lines are only appended. -/
theorem progress_append (h : LoopInv cfg s) (hok : inLoop s e) (hs : s.step e = some s') :
    ∃ l, s'.disk.progress = s.disk.progress ++ l := by
  obtain ⟨d, sup, orphans, fallen, clock⟩ := s
  cases sysStep_of_step hs with
  | @sup cfg' at_ now pc p' d' hsup =>
    obtain ⟨-, hpc⟩ := h _ rfl
    cases hsup with
    | rmProgress => exact hpc.elim
    | mark => exact ⟨_, rfl⟩
    | _ => exact ⟨[], by simp⟩
  | @worker cfg' at_ np before w w' d' we hw' =>
    cases hw' with
    | append => exact ⟨_, rfl⟩
    | _ => exact ⟨[], by simp⟩
  | stallAwait => exact ⟨[], by simp⟩
  | stallExited => exact ⟨[], by simp⟩
  | workerExits | workerThrows => exact ⟨[], by simp⟩
  | workerDies => exact ⟨[], by simp⟩
  | _ => exact hok.elim

/-- Outside of `runWorkerOnce` the supervisor can take its next step. -/
theorem sup_enabled {p : Supervisor} (hp : s.sup = some p)
    (ha : ∀ np before w, p.pc ≠ .await np before w) : ∃ t, s.step (.sup 0) = some t := by
  obtain ⟨d, sup, orphans, fallen, clock⟩ := s
  obtain rfl : sup = some p := hp
  obtain ⟨cfg, at_, pc⟩ := p
  have hsome : (Supervisor.step ⟨cfg, at_, pc⟩ d 0).isSome := by
    cases pc with
    | await np before w => exact absurd rfl (ha np before w)
    | harvest h k =>
      simp only [Supervisor.step]
      split
      · rfl
      · cases k <;> rfl
    | top np => simp only [Supervisor.step]; split <;> rfl
    | returned np before result => cases result <;> rfl
    | _ => rfl
  obtain ⟨⟨p', d'⟩, hp⟩ := Option.isSome_iff_exists.mp hsome
  simp only [Sys.step, hp]
  exact ⟨_, rfl⟩

/-- As long as the supervisor runs, something can happen. -/
theorem enabled (hok : s.sup ≠ none) : ∃ t, Steps Sys.step inLoop s t := by
  obtain ⟨p, hp⟩ := Option.ne_none_iff_exists'.mp hok
  by_cases ha : ∃ np before w, p.pc = .await np before w
  · obtain ⟨d, sup, orphans, fallen, clock⟩ := s
    obtain rfl : sup = some p := hp
    obtain ⟨cfg, at_, pc⟩ := p
    obtain ⟨np, before, w, rfl⟩ := ha
    exact ⟨_, .stall, trivial, rfl⟩
  · obtain ⟨t, ht⟩ := sup_enabled hp fun np before w h => ha ⟨np, before, w, h⟩
    exact ⟨t, .sup 0, trivial, ht⟩

end LoopInv

theorem step_worker_isSome {s : Sys} {cfg : Config} {at_ np : Int} {before : Nat} {w : Worker}
    {we : WorkerEvent} (hs : s.sup = some ⟨cfg, at_, .await np before w⟩)
    (hw : (w.step s.disk we).isSome) : (s.step (.worker we)).isSome := by
  obtain ⟨⟨w', d'⟩, hw⟩ := Option.isSome_iff_exists.mp hw
  simp [Sys.step, hs, hw]

/-- What can happen while a supervisor runs: a step of its own or, while it awaits its worker,
a routine step of the worker, its exit, or the settling of the first test in flight. -/
theorem Sys.progress {s : Sys} (hsup : s.sup ≠ none) :
    (∃ t, s.step (.sup 0) = some t) ∨ ∃ w, s.current = [w] ∧
      ((∃ e : WorkerEvent, e.routine s.clock 0 ∧ (s.step (.worker e)).isSome) ∨
        (s.step .workerExits).isSome ∨
        w.looping = 0 ∧ (s.step (.workerDies [])).isSome ∧
          ∃ t, w.inFlight.keys.head? = some t ∧
            ∀ r : RunRec, r.test = t → (s.step (.worker (.settle r))).isSome) := by
  obtain ⟨⟨cfg, at_, pc⟩, hp⟩ := Option.ne_none_iff_exists'.mp hsup
  by_cases ha : ∃ np before w, pc = .await np before w
  · obtain ⟨np, before, w, rfl⟩ := ha
    refine .inr ⟨w, by simp [Sys.current, hp], ?_⟩
    rcases w.progress s.disk s.clock 0 with ⟨e, hr, hs⟩ | hx | ⟨ht, hu, hlo, t, rest, hk⟩
    · exact .inl ⟨e, hr, step_worker_isSome hp hs⟩
    · refine .inr (.inl ?_)
      rcases hx with hx | hx
      · simp [Sys.step, hp, hx]
      · simp only [Sys.step, hp, if_pos hx]
        split <;> rfl
    · refine .inr (.inr ⟨hlo, by simp [Sys.step, hp], t, by simp [hk], ?_⟩)
      intro r hr
      apply step_worker_isSome hp
      simp [Worker.step, ht, hu, hk, hr]
  · exact .inl (LoopInv.sup_enabled hp fun np before w h => ha ⟨np, before, w, h⟩)

/-- The events of `inLoop` keep the invariant over a run. -/
theorem LoopInv.of_run {cfg : Config} {ok : Sys → Event → Prop} (hsub : ∀ s e, ok s e → inLoop s e)
    {s s' : Sys} {es : List Event} (h : LoopInv cfg s) (hr : Run Sys.step ok s es s') :
    LoopInv cfg s' :=
  hr.invariant h fun _ _ _ hI hok hs => hI.step (hsub _ _ hok) hs

/-- What is complete stays so. -/
theorem LoopInv.complete_of_run {cfg : Config} {ok : Sys → Event → Prop}
    (hsub : ∀ s e, ok s e → inLoop s e) {s s' : Sys} {es : List Event} (h : LoopInv cfg s)
    (hr : Run Sys.step ok s es s') (hall : Complete cfg s.disk.progress) :
    Complete cfg s'.disk.progress := by
  refine (hr.invariant (I := fun t => LoopInv cfg t ∧ Complete cfg t.disk.progress) ⟨h, hall⟩
    fun s e s' hI hok hs => ?_).2
  obtain ⟨l, hl⟩ := hI.1.progress_append (hsub _ _ hok) hs
  refine ⟨hI.1.step (hsub _ _ hok) hs, fun t ht => ?_⟩
  rw [hl, recorded_append]
  exact List.mem_append_left _ (hI.2 t ht)

theorem length_remaining_append_le (cfg : Config) (lines l : List Rec) :
    (remaining cfg (lines ++ l)).length ≤ (remaining cfg lines).length := by
  refine (List.monotone_filter_right _ fun t ht => ?_).length_le
  simp only [decide_eq_true_eq] at ht ⊢
  exact fun hr => ht (by simp [hr])

/-! ## Cycles -/

/-- The control point of the supervisor, if there is one. -/
def Sys.pc (s : Sys) : Option Pc := s.sup.map Supervisor.pc

/-- The supervisor stands at the top of the loop, or has left it. -/
def Sys.between (s : Sys) : Bool :=
  match s.pc with
  | some (.top _) => true
  | some (.broke _) => true
  | _ => false

/-- The events of one cycle: the loop's, up to the next top or break. -/
def withinCycle (ok : Sys → Event → Prop) (s : Sys) (e : Event) : Prop :=
  ok s e ∧ s.between = false

/-- One cycle of the loop, from its top to the next top or to a break. -/
def Cycle (ok : Sys → Event → Prop) (s s' : Sys) : Prop :=
  s.between = true ∧ s'.between = true ∧
    ∃ e s₁ es, ok s e ∧ s.step e = some s₁ ∧ Run Sys.step (withinCycle ok) s₁ es s'

/-- So many cycles, one after the other. -/
def Cycles (ok : Sys → Event → Prop) : Nat → Sys → Sys → Prop
  | 0, s, s' => s' = s
  | n + 1, s, s' => ∃ t, Cycle ok s t ∧ Cycles ok n t s'

/-- A run that starts between two cycles stands between two cycles or within one. -/
theorem run_cycles {ok : Sys → Event → Prop} {s s' : Sys} {es : List Event}
    (h0 : s.between = true) (h : Run Sys.step ok s es s') :
    (s'.between = true) ∨ ∃ t e t₁ es₁ es₂, es = es₁ ++ e :: es₂ ∧ t.between = true ∧
      Run Sys.step ok s es₁ t ∧ ok t e ∧ t.step e = some t₁ ∧
      Run Sys.step (withinCycle ok) t₁ es₂ s' := by
  induction h with
  | refl => exact .inl h0
  | @snoc es e s' s'' hr hok hs ih =>
    by_cases hb : s'.between = true
    · exact .inr ⟨s', e, s'', es, [], rfl, hb, hr, hok, hs, .refl⟩
    · rw [Bool.not_eq_true] at hb
      rcases ih with ih | ⟨t, e', t₁, es₁, es₂, rfl, h1, h2, h3, h4, h5⟩
      · rw [ih] at hb
        cases hb
      · exact .inr ⟨t, e', t₁, es₁, es₂ ++ [e], by simp, h1, h2, h3, h4, .snoc h5 ⟨hok, hb⟩ hs⟩

/-- A run that ends at a top or a break ends with a cycle. -/
theorem last_cycle {ok : Sys → Event → Prop} {s s' : Sys} {es : List Event}
    (h0 : s.between = true) (h : Run Sys.step ok s es s') (h1 : s'.between = true) :
    s' = s ∨ ∃ t es', es'.length < es.length ∧ t.between = true ∧ Run Sys.step ok s es' t ∧
      Cycle ok t s' := by
  cases h with
  | refl => exact .inl rfl
  | @snoc es e u s'' hr hok hs =>
    refine .inr ?_
    by_cases hb : u.between = true
    · exact ⟨u, es, by simp, hb, hr, hb, h1, e, s', [], hok, hs, .refl⟩
    · rw [Bool.not_eq_true] at hb
      rcases run_cycles h0 hr with h | ⟨t, e', t₁, es₁, es₂, rfl, g1, g2, g3, g4, g5⟩
      · rw [h] at hb
        cases hb
      · exact ⟨t, es₁, by simp, g1, g2, g1, h1, e', t₁, es₂ ++ [e], g3, g4,
          .snoc g5 ⟨hok, hb⟩ hs⟩

/-- What a cycle preserves holds at every top and break that a run comes to. -/
theorem cycle_induction {ok : Sys → Event → Prop} {P : Sys → Prop} {s : Sys}
    (h0 : s.between = true) (hP : P s) (hcyc : ∀ t t', P t → Cycle ok t t' → P t') :
    ∀ {es s'}, Run Sys.step ok s es s' → s'.between = true → P s' := by
  have key : ∀ n es s', es.length < n → Run Sys.step ok s es s' → s'.between = true → P s' := by
    intro n
    induction n with
    | zero => intro es s' h; omega
    | succ n ih =>
      intro es s' hlen hr hb
      rcases last_cycle h0 hr hb with rfl | ⟨t, es', hlt, hbt, hrt, hct⟩
      · exact hP
      · exact hcyc t s' (ih es' t (by omega) hrt hbt) hct
  intro es s' hr hb
  exact key _ es s' (Nat.lt_succ_self _) hr hb

theorem Cycle.run {ok : Sys → Event → Prop} {s s' : Sys} (h : Cycle ok s s') :
    ∃ es, Run Sys.step ok s es s' := by
  obtain ⟨-, -, e, s₁, es, hok, hs, hr⟩ := h
  exact ⟨e :: es, .cons hok hs (hr.mono fun _ _ h => h.1)⟩

theorem Cycle.mono {ok ok' : Sys → Event → Prop} (hsub : ∀ s e, ok s e → ok' s e) {s s' : Sys}
    (h : Cycle ok s s') : Cycle ok' s s' := by
  obtain ⟨h1, h2, e, s₁, es, hok, hs, hr⟩ := h
  exact ⟨h1, h2, e, s₁, es, hsub _ _ hok, hs, hr.mono fun t e h => ⟨hsub t e h.1, h.2⟩⟩

/-- The first step of a cycle: the loop is left, or a worker is about to be launched. -/
theorem top_step {ok : Sys → Event → Prop} (hsub : ∀ s e, ok s e → inLoop s e) {cfg : Config}
    {s s₁ : Sys} {e : Event} {np : Int} (hl : LoopInv cfg s) (hs : s.pc = some (.top np))
    (hok : ok s e) (hstep : s.step e = some s₁) :
    s₁.disk = s.disk ∧ s₁.fallen = s.fallen ∧
      (s₁.pc = some (.broke false) ∧ Complete cfg s.disk.progress ∨
        s₁.pc = some (.launch np (readLedger s.disk.progress).size) ∧
          remaining cfg s.disk.progress ≠ []) := by
  have hloop := hsub _ _ hok
  obtain ⟨d, sup, orphans, fallen, clock⟩ := s
  cases sup with
  | none => cases hs
  | some p =>
    obtain ⟨cfg', at_, pc⟩ := p
    obtain rfl : pc = .top np := by simpa [Sys.pc] using hs
    obtain ⟨hcfg, -⟩ := hl _ rfl
    obtain rfl : cfg' = cfg := hcfg
    cases sysStep_of_step hstep with
    | sup hsup =>
      cases hsup with
      | leave _ hall => exact ⟨rfl, rfl, .inl ⟨rfl, hall⟩⟩
      | enter _ t ht hr =>
        exact ⟨rfl, rfl, .inr ⟨rfl, List.ne_nil_of_mem (mem_remaining.mpr ⟨ht, hr⟩)⟩⟩
    | _ => exact hloop.elim

theorem pc_of_between {s : Sys} (h : s.between = true) :
    ∃ pc, s.pc = some pc ∧ ((∃ np, pc = .top np) ∨ ∃ b, pc = .broke b) := by
  unfold Sys.between at h
  split at h
  · rename_i np hpc
    exact ⟨_, hpc, .inl ⟨np, rfl⟩⟩
  · rename_i b hpc
    exact ⟨_, hpc, .inr ⟨b, rfl⟩⟩
  · cases h

/-- Nothing happens within a cycle once it has come to its end. -/
theorem withinCycle_between {ok : Sys → Event → Prop} {s s' : Sys} {es : List Event}
    (hb : s.between = true) (h : Run Sys.step (withinCycle ok) s es s') : s' = s := by
  cases es with
  | nil => exact h.nil_inv
  | cons e es =>
    obtain ⟨t, hok, -, -⟩ := h.cons_inv
    rw [hok.2] at hb
    cases hb

/-- After the supervisor's end the loop has no more steps. -/
theorem not_step_of_ended {s t : Sys} {e : Event} (h : s.sup = none) (hok : inLoop s e)
    (hs : s.step e = some t) : False := by
  obtain ⟨d, sup, orphans, fallen, clock⟩ := s
  obtain rfl : sup = none := h
  cases sysStep_of_step hs <;> exact hok.elim

/-- Out of the loop the supervisor writes its outputs and ends. -/
theorem broke_step {s t : Sys} {e : Event} {b : Bool} (h : s.pc = some (.broke b))
    (hok : inLoop s e) (hs : s.step e = some t) :
    t.sup = none ∧ t.disk.progress = s.disk.progress := by
  obtain ⟨d, sup, orphans, fallen, clock⟩ := s
  cases sysStep_of_step hs with
  | sup hsup =>
    cases h
    cases hsup
    exact ⟨rfl, rfl⟩
  | stallAwait => cases h
  | stallExited => cases h
  | worker => cases h
  | workerExits | workerThrows => cases h
  | workerDies => cases h
  | _ => exact hok.elim

/-- The supervisor ends at a break. -/
theorem ended_step {s t : Sys} {e : Event} (hok : inLoop s e) (hs : s.step e = some t)
    (h : t.sup = none) : ∃ b, s.pc = some (.broke b) := by
  obtain ⟨d, sup, orphans, fallen, clock⟩ := s
  cases sysStep_of_step hs with
  | sup hsup =>
    obtain rfl := h
    cases hsup
    exact ⟨_, rfl⟩
  | stallAwait => cases h
  | stallExited => cases h
  | worker => cases h
  | workerExits | workerThrows => cases h
  | workerDies => cases h
  | _ => exact hok.elim

/-- A cycle starts at a top. -/
theorem Cycle.top {ok : Sys → Event → Prop} (hsub : ∀ s e, ok s e → inLoop s e) {s s' : Sys}
    (h : Cycle ok s s') : ∃ np, s.pc = some (.top np) := by
  obtain ⟨hb, hb', e, s₁, es, hok, hs, hr⟩ := h
  obtain ⟨pc, hpc, ⟨np, rfl⟩ | ⟨b, rfl⟩⟩ := pc_of_between hb
  · exact ⟨np, hpc⟩
  · have hend := (broke_step hpc (hsub _ _ hok) hs).1
    cases es with
    | nil =>
      obtain rfl := hr.nil_inv
      simp [Sys.between, Sys.pc, hend] at hb'
    | cons e' es =>
      obtain ⟨u, hok', hs', -⟩ := hr.cons_inv
      exact (not_step_of_ended hend (hsub _ _ hok'.1) hs').elim

end CorpusRunner
