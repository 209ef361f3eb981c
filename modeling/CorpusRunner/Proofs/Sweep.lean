import CorpusRunner.Proofs.FifoSweep

/-!
# When a sweep steps over every wedging test
-/

namespace CorpusRunner

/-- A cycle that leads to an abort has marked a test. -/
theorem recorded_of_abort {W : Finset JsString} {cfg : Config} {s s' : Sys}
    (hlimit : cfg.concurrency < arrayLimit) (hl : LoopInv cfg s) (hf : s.fallen = [])
    (hc : Cycle (poisoned W) s s') (hb : s'.pc = some (.broke true)) :
    ∃ t, t ∈ recorded s'.disk.progress ∧ t ∉ recorded s.disk.progress := by
  obtain ⟨np, hpc⟩ := hc.top fun _ _ => inLoop_of_poisoned
  obtain ⟨pc, hpc', -, heff⟩ := cycle_effect (.inr hlimit) hl hf hpc hc
  obtain rfl : pc = .broke true := Option.some.inj (hpc'.symm.trans hb)
  generalize hlines : s'.disk.progress = lines' at heff
  generalize hpcs : Pc.broke true = pc at heff
  cases heff with
  | left => cases hpcs
  | complete => cases hpcs
  | @blocked t note a rest ht hW hrem =>
    refine ⟨a, by simp, ?_⟩
    have : a ∈ remaining cfg s.disk.progress := by simp [hrem]
    exact (mem_remaining.mp this).2
  | worked => cases hpcs

theorem poisoned_of_rejecting {W : Finset JsString} {s : Sys} {e : Event} (h : rejecting s e) :
    poisoned W s e := by
  cases e with
  | worker we =>
    cases we with
    | load | clear => trivial
    | _ => exact h.elim
  | sup | workerExits => trivial
  | _ => exact h.elim

/-- Where `runPool` throws, a test that remains is never recorded. -/
theorem limit_of_sweepComplete {W : Finset JsString} {cfg : Config} {lines : List Rec}
    {summary : Option Summary} {startedAt : Int} {clock : Nat}
    (h : SweepComplete W cfg (loopEntry cfg lines summary startedAt clock)) :
    Complete cfg lines ∨ cfg.concurrency < arrayLimit := by
  by_contra hcon
  rw [not_or, Int.not_lt] at hcon
  obtain ⟨hrem, hc⟩ := hcon
  obtain ⟨es, s, hrun, hend, hlines⟩ := rejected_loop hc hrem summary startedAt clock 0
  have hrun' := hrun.mono fun _ _ => poisoned_of_rejecting (W := W)
  refine hrem (hlines ▸ (h.recorded es s hrun' ?_).2)
  rintro t ⟨e, hok, hs⟩
  exact not_step_of_ended hend (inLoop_of_poisoned hok) hs

/-- **Completeness of a sweep.** With `CONCURRENCY` and `MAX_NOPROGRESS` at least 1, whatever
has been recorded before and whichever tests wedge, every sweep ends with all selected tests
recorded and none is aborted after growth, if and only if `runPool` does not throw, or has
nothing to do, and what remains is `Passable`. -/
theorem sweepComplete_iff (W : Finset JsString) (cfg : Config) (lines : List Rec)
    (summary : Option Summary) (startedAt : Int) (clock : Nat) (hc : 1 ≤ cfg.concurrency)
    (hm : 1 ≤ cfg.maxNoProgress) :
    SweepComplete W cfg (loopEntry cfg lines summary startedAt clock) ↔
      (Complete cfg lines ∨ cfg.concurrency < arrayLimit) ∧
        Passable W cfg.concurrency.toNat cfg.maxNoProgress.toNat (remaining cfg lines) := by
  constructor
  · intro h
    have hlimit := limit_of_sweepComplete h
    refine ⟨hlimit, ?_⟩
    rcases hlimit with hall | hlt
    · rw [remaining_eq_nil_iff.mpr hall]
      exact passable_nil (by omega)
    · by_contra hp
      obtain ⟨es, s, s', hr, hcy, hb, hl, hf⟩ := exists_abort summary startedAt clock hc hlt hm hp
      have hcy' := hcy.mono fun _ _ => poisoned_of_fifo
      obtain ⟨t, ht, hnot⟩ := recorded_of_abort hlt hl hf hcy' hb
      exact hnot (h.aborted es s 1 s' (hr.mono fun _ _ => poisoned_of_fifo) hm
        ⟨s', hcy', rfl⟩ hb t ht)
  · rintro ⟨hlimit, hp⟩
    exact sweepComplete_of_passable summary startedAt clock hc hm hlimit hp

/-- Five tests, and the knobs' defaults. -/
def fiveTests : Config :=
  ⟨⟨[js "a", js "b", js "c", js "w", js "z"], by decide⟩, 4, 90000, 4⟩

/-- The second position is not hit, and no five successive ones are. -/
theorem sweepComplete_iff_lastTest :
    SweepComplete {js "z"} fiveTests (loopEntry fiveTests [] none 0 0) := by
  refine (sweepComplete_iff {js "z"} fiveTests [] none 0 0 (by decide) (by decide)).mpr ?_
  refine ⟨.inr (by decide), ⟨0, by decide, by decide⟩, fun s => ?_⟩
  cases s with
  | zero => exact ⟨0, by decide, by decide⟩
  | succ s =>
    refine ⟨4, by decide, fun h => ?_⟩
    have hlt := lt_length_of_hit h
    have : (remaining fiveTests []).length = 5 := by decide
    omega

/-- A cycle in which the tests are spawned, none settles and the worker dies. -/
def wedgedCycle (ts : List JsString) : List Event :=
  [.sup 0, .sup 0, .worker .load, .worker .clear] ++
  ts.flatMap (fun t => [.worker (.claim 0), .worker .register, .worker (.spawn t (some 7)),
    .worker .mirror]) ++
  [.workerDies (js "SIGKILL")] ++ List.replicate (8 + ts.length) (.sup 0)

/-- `w` is in flight in four cycles, each of which marks another test; then the sweep is given
up. -/
def abortedSweep : List Event :=
  wedgedCycle [js "a", js "b", js "c", js "w"] ++ wedgedCycle [js "b", js "c", js "w", js "z"] ++
  wedgedCycle [js "c", js "w", js "z"] ++ wedgedCycle [js "w", js "z"] ++ [.sup 0]

/-- One wedging test, the fourth, and the defaults: `z` is never recorded, though every cycle
before the abort has recorded a test. -/
theorem sweepComplete_fails_fourthTest :
    (∃ s, execute Sys.step (poisoned {js "w"}) (loopEntry fiveTests [] none 0 0) abortedSweep =
        some s ∧ s.sup = none ∧
        s.disk.progress = [js "a", js "b", js "c", js "w"].map
          (fun t => .crashMark t (exitReason (js "SIGKILL")))) ∧
      ¬ SweepComplete {js "w"} fiveTests (loopEntry fiveTests [] none 0 0) := by
  refine ⟨⟨_, rfl, rfl, rfl⟩, fun h => ?_⟩
  have ended : ∀ s, execute Sys.step (poisoned {js "w"}) (loopEntry fiveTests [] none 0 0)
      abortedSweep = some s → s.sup = none → Complete fiveTests s.disk.progress :=
    fun s hs hend => (h.recorded _ s (run_of_execute hs) fun t ⟨e, hok, hstep⟩ =>
      not_step_of_ended hend (inLoop_of_poisoned hok) hstep).2
  have hall := ended _ rfl rfl (js "z") (by decide)
  exact absurd hall (by decide)

end CorpusRunner
