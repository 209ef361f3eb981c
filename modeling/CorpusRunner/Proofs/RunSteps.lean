import CorpusRunner.RunOne
import CorpusRunner.Misc.Run

/-!
# What a handler of `runOne` can do

The step function of one test read backwards, and the two facts that the later invariants come
from: `finalize` does nothing twice (`RunStep.resolved_of_settled`), and a timer that is armed
after a step was armed before it or has been armed by that step (`RunStep.mem_pending`).
-/

namespace CorpusRunner

theorem classify_ne_timeout (out err : JsString) (code : Option Int) :
    classify out err code ≠ .timeout := by
  unfold classify
  split
  · split <;> simp
  · simp

namespace RunOne

/-! ## The helpers, field by field -/

section Finalize

variable {s : RunOne} {now : Nat} {status : RunStatus} {code : Option Int}
  {signal : Option JsString} {errorMsg : JsString}

theorem finalize_of_settled (h : s.settled = true) :
    s.finalize now status code signal errorMsg = s := by
  simp [finalize, h]

theorem resolved_finalize (h : s.settled = false) :
    (s.finalize now status code signal errorMsg).resolved =
      s.resolved ++ [s.record now status code signal errorMsg] := by
  simp [finalize, h]

@[simp] theorem settled_finalize :
    (s.finalize now status code signal errorMsg).settled = true := by
  unfold finalize
  split
  · assumption
  · rfl

@[simp] theorem test_finalize : (s.finalize now status code signal errorMsg).test = s.test := by
  unfold finalize
  split <;> rfl

@[simp] theorem started_finalize :
    (s.finalize now status code signal errorMsg).started = s.started := by
  unfold finalize
  split <;> rfl

@[simp] theorem killed_finalize :
    (s.finalize now status code signal errorMsg).killed = s.killed := by
  unfold finalize
  split <;> rfl

theorem mem_pending_finalize {t : Timer Callback}
    (h : t ∈ (s.finalize now status code signal errorMsg).timers.pending) :
    t ∈ s.timers.pending := by
  unfold finalize at h
  split at h
  · exact h
  · simp only [Timers.mem_clearTimeout] at h
    exact h.1.1.1

theorem raise_of_settled {killError : Option JsString} (h : s.settled = true) :
    s.raise now killError = s := by
  cases killError with
  | none => rfl
  | some msg => exact finalize_of_settled h

theorem mem_pending_raise {killError : Option JsString} {t : Timer Callback}
    (h : t ∈ (s.raise now killError).timers.pending) : t ∈ s.timers.pending := by
  cases killError with
  | none => exact h
  | some msg => exact mem_pending_finalize h

end Finalize

end RunOne

/-- The branches of `RunOne.step`. -/
inductive RunStep (s : RunOne) (now : Nat) : RunEvent → RunOne → Prop
  | stdout (d : List UInt8) : RunStep s now (.stdout d) { s with out := appendChunk s.out d }
  | stderr (d : List UInt8) : RunStep s now (.stderr d) { s with err := appendChunk s.err d }
  | error (msg : JsString) : RunStep s now (.error msg) (s.onError now msg)
  | exit : RunStep s now .exit (s.onExit now)
  | close : RunStep s now .close (s.onEnd now)
  | kill {t : Timer Callback} {killError : Option JsString} (h : t ∈ s.timers.pending)
      (hc : t.callback = .kill) (hx : s.exited = false ∨ killError = none) :
      RunStep s now (.fire t killError) ((s.disarm t).onCap now killError)
  | reap {t : Timer Callback} (h : t ∈ s.timers.pending) (hc : t.callback = .reap) :
      RunStep s now (.fire t none) ((s.disarm t).onReap now)
  | grace {t : Timer Callback} (h : t ∈ s.timers.pending) (hc : t.callback = .grace) :
      RunStep s now (.fire t none) ((s.disarm t).onEnd now)

theorem runStep_of_step {s s' : RunOne} {now : Nat} {e : RunEvent}
    (h : s.step (now, e) = some s') : RunStep s now e s' := by
  cases e with
  | stdout d => exact Option.some.inj h ▸ .stdout d
  | stderr d => exact Option.some.inj h ▸ .stderr d
  | error msg => exact Option.some.inj h ▸ .error msg
  | exit => exact Option.some.inj h ▸ .exit
  | close => exact Option.some.inj h ▸ .close
  | fire t killError =>
    simp only [RunOne.step] at h
    split at h
    · rename_i ht
      split at h
      · rename_i hc
        split at h
        · rename_i hx
          exact Option.some.inj h ▸ .kill ht hc hx
        · cases h
      · rename_i hc
        split at h
        · rename_i hx
          subst hx
          exact Option.some.inj h ▸ .reap ht hc
        · cases h
      · rename_i hc
        split at h
        · rename_i hx
          subst hx
          exact Option.some.inj h ▸ .grace ht hc
        · cases h
    · cases h

namespace RunStep

variable {s s' : RunOne} {now : Nat} {e : RunEvent}

/-- What is settled stays as it is. -/
theorem resolved_of_settled (h : RunStep s now e s') (hs : s.settled = true) :
    s'.settled = true ∧ s'.resolved = s.resolved := by
  cases h with
  | stdout | stderr | exit => exact ⟨hs, rfl⟩
  | error =>
    rw [RunOne.onError, RunOne.finalize_of_settled hs]
    exact ⟨hs, rfl⟩
  | close =>
    rw [RunOne.onEnd, RunOne.finalize_of_settled hs]
    exact ⟨hs, rfl⟩
  | @kill t =>
    rw [RunOne.onCap, RunOne.raise_of_settled (s := (s.disarm t).markKilled) hs]
    exact ⟨hs, rfl⟩
  | @reap t =>
    rw [RunOne.onReap, RunOne.finalize_of_settled (s := s.disarm t) hs]
    exact ⟨hs, rfl⟩
  | @grace t =>
    rw [RunOne.onEnd, RunOne.finalize_of_settled (s := s.disarm t) hs]
    exact ⟨hs, rfl⟩

/-- The test and its start are fixed, and a record names the test. -/
theorem test_eq (h : RunStep s now e s') : s'.test = s.test ∧ s'.started = s.started := by
  have hraise : ∀ (u : RunOne) (killError : Option JsString),
      (u.raise now killError).test = u.test ∧ (u.raise now killError).started = u.started := by
    intro u killError
    cases killError with
    | none => exact ⟨rfl, rfl⟩
    | some msg => exact ⟨RunOne.test_finalize, RunOne.started_finalize⟩
  cases h with
  | stdout | stderr | exit => exact ⟨rfl, rfl⟩
  | error => exact ⟨RunOne.test_finalize, RunOne.started_finalize⟩
  | close => exact ⟨RunOne.test_finalize, RunOne.started_finalize⟩
  | @kill t killError => exact hraise (s.disarm t).markKilled killError
  | reap => exact ⟨RunOne.test_finalize, RunOne.started_finalize⟩
  | grace => exact ⟨RunOne.test_finalize, RunOne.started_finalize⟩

theorem test_of_mem_resolved (h : RunStep s now e s') {r : RunRec} (hr : r ∈ s'.resolved) :
    r ∈ s.resolved ∨ r.test = s.test := by
  have hfinalize : ∀ {u : RunOne} {status : RunStatus} {code : Option Int}
      {signal : Option JsString} {errorMsg : JsString},
      r ∈ (u.finalize now status code signal errorMsg).resolved →
      r ∈ u.resolved ∨ r.test = u.test := by
    intro u status code signal errorMsg hr
    by_cases hu : u.settled = true
    · rw [RunOne.finalize_of_settled hu] at hr
      exact .inl hr
    · rw [RunOne.resolved_finalize (by simpa using hu), List.mem_append, List.mem_singleton] at hr
      rcases hr with hr | hr
      · exact .inl hr
      · exact .inr (by rw [hr]; rfl)
  cases h with
  | stdout | stderr | exit => exact .inl hr
  | error => exact hfinalize hr
  | close => exact hfinalize hr
  | @kill t killError =>
    cases killError with
    | none => exact .inl hr
    | some msg => exact hfinalize (u := (s.disarm t).markKilled) hr
  | @reap t => exact hfinalize (u := s.disarm t) hr
  | @grace t => exact hfinalize (u := s.disarm t) hr

/-- The timer that fires is gone, and of the timers that are armed after a step only one is new:
a grace timer, or the reap timer that the kill timer arms. -/
theorem mem_pending (h : RunStep s now e s') {u : Timer Callback}
    (hu : u ∈ s'.timers.pending) :
    (u ∈ s.timers.pending ∧ ∀ killError, e ≠ .fire u killError) ∨
      (u.callback = .grace ∧ u.due = now + 250) ∨
      (u.callback = .reap ∧ u.due = now + 3000 ∧
        ∃ t killError, e = .fire t killError ∧ t ∈ s.timers.pending ∧ t.callback = .kill) := by
  -- what is left of the table behind a timer that fires
  have hfire : ∀ {t : Timer Callback} {killError : Option JsString}, t ∈ s.timers.pending →
      u ∈ (s.disarm t).timers.pending →
      u ∈ s.timers.pending ∧ ∀ killError', RunEvent.fire t killError ≠ .fire u killError' := by
    intro t killError ht hu
    have hleft := (Timers.mem_clearTimeout_id ht).mp hu
    refine ⟨hleft.1, ?_⟩
    intro killError' heq
    exact hleft.2 (RunEvent.fire.inj heq).1.symm
  cases h with
  | stdout | stderr => exact .inl ⟨hu, by simp⟩
  | error => exact .inl ⟨RunOne.mem_pending_finalize hu, by simp⟩
  | close => exact .inl ⟨RunOne.mem_pending_finalize hu, by simp⟩
  | exit =>
    rcases Timers.mem_setTimeout.mp hu with hu | hu
    · exact .inl ⟨hu, by simp⟩
    · have hdue : timerDelay 250 = 250 := rfl
      refine .inr (.inl ⟨?_, ?_⟩)
      · rw [hu]
      · rw [hu, hdue]
  | @kill t killError ht hc =>
    rcases Timers.mem_setTimeout.mp hu with hu | hu
    · exact .inl (hfire ht (RunOne.mem_pending_raise (s := (s.disarm t).markKilled) hu))
    · have hdue : timerDelay 3000 = 3000 := rfl
      refine .inr (.inr ⟨?_, ?_, t, killError, rfl, ht, hc⟩)
      · rw [hu]
      · rw [hu, hdue]
  | @reap t ht => exact .inl (hfire ht (RunOne.mem_pending_finalize (s := s.disarm t) hu))
  | @grace t ht => exact .inl (hfire ht (RunOne.mem_pending_finalize (s := s.disarm t) hu))

end RunStep

end CorpusRunner
