import CorpusRunner.Introspect
import CorpusRunner.Misc.Run

/-!
# When `run` resolves

`run` resolves once and is never rejected if `spawn` returns a child with its streams: until then
its timer is armed, and the timer needs no word from the child. If `spawn` throws, `finish` reads
`t` before its declaration and throws as well, so that the promise is rejected; it is rejected too
if a stream is missing (`resolves_iff`).
-/

namespace CorpusRunner

namespace Introspect

namespace Call

variable {s s' : Call} {e : CallEvent}

/-- The branches of `Call.step`. -/
inductive Step (s : Call) : CallEvent → Call → Prop
  | stdout {d : List UInt8} (h : s.onStdout = true) :
      Step s (.stdout d) { s with out := s.out ++ decodeUtf8 d }
  | stderr {d : List UInt8} (h : s.onEnd = true) :
      Step s (.stderr d) { s with err := s.err ++ decodeUtf8 d }
  | close {code : Option Int} (h : s.onEnd = true) : Step s (.close code) (s.onClose code)
  | error {e : JsString} (h : s.onEnd = true) : Step s (.error e) (s.onError e)
  | fire {t : Timer Unit} {killError : Option JsString} (h : t ∈ s.timers.pending) :
      Step s (.fire t killError)
        (onTimeout { s with timers := s.timers.clearTimeout (some t.id) } killError)

theorem step_of_eq (h : s.step e = some s') : Step s e s' := by
  cases e with
  | stdout d =>
    obtain ⟨hon, hs⟩ := Option.ite_none_right_eq_some.mp h
    exact Option.some.inj hs ▸ .stdout hon
  | stderr d =>
    obtain ⟨hon, hs⟩ := Option.ite_none_right_eq_some.mp h
    exact Option.some.inj hs ▸ .stderr hon
  | close code =>
    obtain ⟨hon, hs⟩ := Option.ite_none_right_eq_some.mp h
    exact Option.some.inj hs ▸ .close hon
  | error e =>
    obtain ⟨hon, hs⟩ := Option.ite_none_right_eq_some.mp h
    exact Option.some.inj hs ▸ .error hon
  | fire t killError =>
    obtain ⟨ht, hs⟩ := Option.ite_none_right_eq_some.mp h
    exact Option.some.inj hs ▸ .fire ht

/-! ## A child with its streams -/

/-- The executor has come to its end, and what `res` was called with goes by `done`. -/
structure Listening (s : Call) : Prop where
  thrown : s.thrown = none
  onEnd : s.onEnd = true
  declared : ∃ t, s.t = some t
  resolved : if s.done then ∃ r, s.resolved = [r] else s.resolved = []

/-- As long as nothing has settled the call, its timer is armed. -/
structure Ok (s : Call) : Prop extends Listening s where
  armed : s.done = false → ∃ t, t ∈ s.timers.pending

theorem done_finish (h : s.Listening) (r : Outcome) : (s.finish r).1.done = true := by
  obtain ⟨t, ht⟩ := h.declared
  unfold finish
  split
  · assumption
  · simp only [ht]

/-- Whatever settles the call first does so. -/
theorem ok_finish (h : s.Listening) (r : Outcome) : (s.finish r).1.Ok := by
  have hdone := done_finish h r
  refine ⟨?_, fun hnot => absurd (hdone.symm.trans hnot) (by decide)⟩
  obtain ⟨t, ht⟩ := h.declared
  have hresolved := h.resolved
  unfold finish
  split
  · exact h
  · rename_i hnot
    rw [if_neg hnot] at hresolved
    simp only [ht]
    exact ⟨h.thrown, h.onEnd, ⟨t, rfl⟩, ⟨r, by simp [hresolved]⟩⟩

theorem listening_raise (h : s.Listening) (killError : Option JsString) :
    (s.raise killError).Listening := by
  cases killError with
  | none => exact h
  | some e =>
    rw [raise, if_pos h.onEnd]
    exact (ok_finish h _).toListening

theorem listening_clear (h : s.Listening) (timers : Timers Unit) : { s with timers }.Listening :=
  ⟨h.thrown, h.onEnd, h.declared, h.resolved⟩

theorem Ok.step (h : s.Ok) (hs : Step s e s') : s'.Ok := by
  cases hs with
  | stdout => exact ⟨⟨h.thrown, h.onEnd, h.declared, h.resolved⟩, h.armed⟩
  | stderr => exact ⟨⟨h.thrown, h.onEnd, h.declared, h.resolved⟩, h.armed⟩
  | close => exact ok_finish h.toListening _
  | error => exact ok_finish h.toListening _
  | fire => exact ok_finish (listening_raise (listening_clear h.toListening _) _) _

/-- The timer settles the call, whatever the kill raises. -/
theorem Ok.fire (h : s.Ok) {t : Timer Unit} (ht : t ∈ s.timers.pending)
    (killError : Option JsString) :
    ∃ s', s.step (.fire t killError) = some s' ∧ s'.Ok ∧ s'.done = true := by
  have hcleared := listening_clear h.toListening (s.timers.clearTimeout (some t.id))
  have hraised := listening_raise hcleared killError
  exact ⟨_, if_pos ht, ok_finish hraised _, done_finish hraised _⟩

theorem Ok.promise_of_done (h : s.Ok) (hdone : s.done = true) :
    ∃ r, s.promise = some (.ok r) := by
  have hresolved := h.resolved
  rw [if_pos hdone] at hresolved
  obtain ⟨r, hr⟩ := hresolved
  exact ⟨r, by simp [promise, h.thrown, hr]⟩

theorem ok_run (args : List JsString) (timeout : Int) (now : Nat) :
    (run args timeout now (.child true true)).Ok := by
  refine ⟨⟨rfl, rfl, ⟨0, rfl⟩, rfl⟩, ?_⟩
  intro _
  exact ⟨_, Timers.mem_setTimeout.mpr (.inr rfl)⟩

theorem Ok.of_run {es : List CallEvent} (h : s.Ok) (hrun : Run Call.step unrestricted s es s') :
    s'.Ok :=
  hrun.invariant h fun _ _ _ hok _ hs => hok.step (step_of_eq hs)

/-! ## The promise -/

/-- The promise is not rejected, it is resolved at most once, and as long as it is not, a timer is
armed that resolves it, whatever the kill raises. -/
structure Resolves (s : Call) : Prop where
  notRejected : ∀ e, s.promise ≠ some (.error e)
  once : s.resolved.length ≤ 1
  pending : s.resolved = [] → ∃ t ∈ s.timers.pending, ∀ killError,
    ∃ s' r, s.step (.fire t killError) = some s' ∧ s'.promise = some (.ok r)

theorem Ok.resolves (h : s.Ok) : s.Resolves := by
  have hresolved := h.resolved
  cases hdone : s.done with
  | true =>
    rw [if_pos hdone] at hresolved
    obtain ⟨r, hr⟩ := hresolved
    exact ⟨by simp [promise, h.thrown, hr], by simp [hr], by simp [hr]⟩
  | false =>
    rw [hdone, if_neg Bool.false_ne_true] at hresolved
    refine ⟨by simp [promise, h.thrown, hresolved], by simp [hresolved], ?_⟩
    intro _
    obtain ⟨t, ht⟩ := h.armed hdone
    refine ⟨t, ht, fun killError => ?_⟩
    obtain ⟨s', hs', hok, hdone'⟩ := h.fire ht killError
    obtain ⟨r, hr⟩ := hok.promise_of_done hdone'
    exact ⟨s', r, hs', hr⟩

/-- A call that has thrown keeps what it has thrown. -/
theorem finish_thrown (s : Call) (r : Outcome) : (s.finish r).1.thrown = s.thrown := by
  unfold finish
  split
  · rfl
  · cases s.t <;> rfl

theorem Step.thrown_eq (h : Step s e s') : s'.thrown = s.thrown := by
  cases h with
  | stdout | stderr => rfl
  | close | error => exact finish_thrown s _
  | @fire t killError ht =>
    rw [onTimeout, finish_thrown]
    cases killError with
    | none => rfl
    | some e =>
      rw [raise]
      split
      · exact finish_thrown _ _
      · rfl

theorem promise_of_thrown {exn : Exn} (h : s.thrown = some exn) :
    s.promise = some (.error exn) := by
  simp only [promise, h]

/-- Without a child, or without its streams, the executor throws. -/
theorem thrown_run (args : List JsString) (timeout : Int) (now : Nat) {o : Spawn}
    (h : o ≠ .child true true) : ∃ exn, (run args timeout now o).thrown = some exn := by
  cases o with
  | throws e => exact ⟨.uninitialized, rfl⟩
  | child stdout stderr =>
    cases stdout with
    | false => exact ⟨.noStream, rfl⟩
    | true =>
      cases stderr with
      | false => exact ⟨.noStream, rfl⟩
      | true => exact absurd rfl h

theorem resolves_iff (args : List JsString) (timeout : Int) (now : Nat) (o : Spawn) :
    (∀ es s, Run Call.step unrestricted (run args timeout now o) es s → s.Resolves) ↔
      o = .child true true := by
  constructor
  · intro h
    by_contra ho
    obtain ⟨exn, hexn⟩ := thrown_run args timeout now ho
    exact (h [] _ .refl).notRejected exn (promise_of_thrown hexn)
  · intro ho es s hrun
    subst ho
    exact ((ok_run args timeout now).of_run hrun).resolves

end Call

end Introspect

end CorpusRunner
