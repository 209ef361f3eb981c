import CorpusRunner.Proofs.RunOnce

/-!
# When a record says `timeout`

The status is chosen when the record is made, from the flag that the kill timer sets. The flag
does not say whether the child had exited by then: a child that exits in time and whose pipes
stay open, so that `close` has not come when the cap runs out, gets `timeout` beside its exit
code (`RunOne.exactVerdict_fails_exitInTime`). Otherwise the verdict is exact, but for a kill
that raises, whose record says `fail` (`RunOne.exactVerdict_iff`).
-/

namespace CorpusRunner

namespace RunEvent

/-- The kill timer fires. -/
def firesCap : RunEvent → Bool
  | .fire t _ => decide (t.callback = .kill)
  | _ => false

/-- The handler of `error` is called. -/
def raises : RunEvent → Bool
  | .error _ => true
  | .fire _ killError => killError.isSome
  | _ => false

end RunEvent

/-- Whether the kill timer has fired, and if so, whether the child had exited by then; `exited` is
whether it had before these events. -/
def capFired (exited : Bool) : List (Nat × RunEvent) → Option Bool
  | [] => none
  | e :: es =>
    if e.2.firesCap then some exited else capFired (exited || decide (e.2 = .exit)) es

def exitSeen (es : List (Nat × RunEvent)) : Bool := es.any (fun e => decide (e.2 = .exit))

/-- The kill timer fired while the child had not exited. -/
def CapBeforeExit (es : List (Nat × RunEvent)) : Prop := capFired false es = some false

/-- The kill timer fired although the child had exited. -/
def CapAfterExit (es : List (Nat × RunEvent)) : Prop := capFired false es = some true

/-- The child exited, and the kill timer had not fired. -/
def ExitInTime (es : List (Nat × RunEvent)) : Prop := exitSeen es = true ∧ ¬ CapBeforeExit es

def Raised (es : List (Nat × RunEvent)) : Prop := ∃ e ∈ es, e.2.raises = true

theorem raised_snoc {es : List (Nat × RunEvent)} {e : Nat × RunEvent} :
    Raised (es ++ [e]) ↔ Raised es ∨ e.2.raises = true := by
  constructor
  · intro ⟨a, ha, hraises⟩
    rw [List.mem_append, List.mem_singleton] at ha
    rcases ha with ha | rfl
    · exact .inl ⟨a, ha, hraises⟩
    · exact .inr hraises
  · intro h
    rcases h with ⟨a, ha, hraises⟩ | hraises
    · exact ⟨a, List.mem_append_left _ ha, hraises⟩
    · exact ⟨e, by simp, hraises⟩

theorem capFired_snoc (exited : Bool) (es : List (Nat × RunEvent)) (e : Nat × RunEvent) :
    capFired exited (es ++ [e]) = (capFired exited es).or
      (if e.2.firesCap then some (exited || exitSeen es) else none) := by
  induction es generalizing exited with
  | nil => simp [capFired, exitSeen]
  | cons a es ih =>
    rw [List.cons_append, capFired, capFired]
    split
    · rfl
    · rw [ih]
      simp [exitSeen, Bool.or_assoc]

namespace RunOne

/-- What a record should say: `timeout` if the kill timer fired before the child's exit and not
otherwise, and the classification of the exit code if the child exited in time. The events are
those up to the one that settles, in the state `s`. -/
structure ExactVerdict (s : RunOne) (es : List (Nat × RunEvent)) (r : RunRec) : Prop where
  timeout : r.status = .timeout ↔ CapBeforeExit es
  inTime : ExitInTime es → ¬ Raised es → r.status = classify s.out s.err s.ending.code

/-! ## The flag against the events -/

theorem killed_of_step {s s' : RunOne} {now : Nat} {e : RunEvent} (h : RunStep s now e s') :
    s'.killed = (s.killed || e.firesCap) := by
  cases h with
  | stdout | stderr | exit => exact (Bool.or_false _).symm
  | error => exact killed_finalize.trans (Bool.or_false _).symm
  | close => exact killed_finalize.trans (Bool.or_false _).symm
  | @kill t killError _ hc =>
    have hset : ((s.disarm t).onCap now killError).killed = true := by
      cases killError with
      | none => rfl
      | some msg => exact killed_finalize
    simp [hset, RunEvent.firesCap, hc]
  | reap _ hc => simp [onReap, disarm, RunEvent.firesCap, hc]
  | grace _ hc => simp [onEnd, disarm, RunEvent.firesCap, hc]

theorem settled_of_raises {s s' : RunOne} {now : Nat} {e : RunEvent} (h : RunStep s now e s')
    (he : e.raises = true) : s'.settled = true := by
  cases h with
  | stdout | stderr | exit | close => cases he
  | error => exact settled_finalize
  | @kill t killError =>
    cases killError with
    | none => cases he
    | some msg => exact settled_finalize (s := (s.disarm t).markKilled)
  | reap => cases he
  | grace => cases he

/-- What the state shows of the events so far. -/
structure Watched (es : List (Nat × RunEvent)) (s : RunOne) : Prop where
  killed : s.killed = (capFired false es).isSome
  reaps : ∀ t ∈ s.timers.pending, t.callback = .reap → s.killed = true
  raised : s.settled = false → ¬ Raised es

theorem Watched.of_spawned (test : JsString) (flags : List JsString) (ending : Ending)
    (timeout : Int) (now : Nat) : Watched [] (spawned test flags ending timeout now) where
  killed := rfl
  reaps := by
    intro t ht hc
    rcases Timers.mem_setTimeout.mp ht with ht | ht
    · simp [begin, Timers.empty] at ht
    · rw [ht] at hc
      cases hc
  raised := by
    rintro - ⟨e, he, -⟩
    cases he

theorem Watched.step {es : List (Nat × RunEvent)} {s s' : RunOne} {now : Nat} {e : RunEvent}
    (h : Watched es s) (hstep : RunStep s now e s') : Watched (es ++ [(now, e)]) s' where
  killed := by
    rw [killed_of_step hstep, h.killed, capFired_snoc]
    cases capFired false es <;> cases e.firesCap <;> rfl
  reaps := by
    intro t ht hc
    rw [killed_of_step hstep, Bool.or_eq_true]
    rcases hstep.mem_pending ht with ⟨ht, -⟩ | ⟨hg, -⟩ | ⟨-, -, u, killError, rfl, -, hu⟩
    · exact .inl (h.reaps t ht hc)
    · rw [hc] at hg
      cases hg
    · exact .inr (by simp [RunEvent.firesCap, hu])
  raised := by
    intro hs' hraised
    rcases raised_snoc.mp hraised with hraised | hraises
    · have hs : s.settled = false := by
        by_contra hs
        rw [(hstep.resolved_of_settled (by simpa using hs)).1] at hs'
        cases hs'
      exact h.raised hs hraised
    · rw [settled_of_raises hstep hraises] at hs'
      cases hs'

theorem Watched.run {test : JsString} {flags : List JsString} {ending : Ending} {timeout : Int}
    {now : Nat} {es : List (Nat × RunEvent)} {s : RunOne}
    (h : Run RunOne.step unrestricted (spawned test flags ending timeout now) es s) :
    Watched es s := by
  apply h.traceInvariant (Watched.of_spawned test flags ending timeout now)
  intro es t e t' ht _ hstep
  exact ht.step (runStep_of_step hstep)

/-- The step that settles: an `error`, or the flag decides. -/
theorem verdict_of_step {s s' : RunOne} {now : Nat} {e : RunEvent} {r : RunRec}
    (h : RunStep s now e s') (hs : s.settled = false) (hempty : s.resolved = [])
    (hreaps : ∀ t ∈ s.timers.pending, t.callback = .reap → s.killed = true)
    (hr : s'.resolved = [r]) :
    (e.raises = true ∧ r.status = .fail) ∨
      (e.raises = false ∧ e.firesCap = false ∧
        r.status = if s.killed then .timeout else classify s.out s.err s.ending.code) := by
  -- the record that the first `finalize` makes is the one
  have hrec : ∀ (u : RunOne) (status : RunStatus) (code : Option Int) (signal : Option JsString)
      (errorMsg : JsString), u.settled = false → u.resolved = [] →
      (u.finalize now status code signal errorMsg).resolved = [r] → r.status = status := by
    intro u status code signal errorMsg hu hempty hr
    rw [resolved_finalize hu, hempty, List.nil_append, List.cons.injEq] at hr
    rw [← hr.1]
    rfl
  cases h with
  | stdout | stderr | exit =>
    rw [show s.resolved = [r] from hr] at hempty
    cases hempty
  | error => exact .inl ⟨rfl, hrec s _ _ _ _ hs hempty hr⟩
  | close => exact .inr ⟨rfl, rfl, hrec s _ _ _ _ hs hempty hr⟩
  | @kill t killError =>
    cases killError with
    | none =>
      rw [show s.resolved = [r] from hr] at hempty
      cases hempty
    | some msg => exact .inl ⟨rfl, hrec (s.disarm t).markKilled _ _ _ _ hs hempty hr⟩
  | @reap t ht hc =>
    refine .inr ⟨rfl, by simp [RunEvent.firesCap, hc], ?_⟩
    rw [hreaps t ht hc, if_pos rfl]
    exact hrec (s.disarm t) _ _ _ _ hs hempty hr
  | @grace t ht hc =>
    refine .inr ⟨rfl, by simp [RunEvent.firesCap, hc], ?_⟩
    exact hrec (s.disarm t) _ _ _ _ hs hempty hr

/-- The verdict is exact unless the kill timer fires behind the child's exit, or an `error` makes
the record of a child that is past its cap. -/
theorem exactVerdict_iff {test : JsString} {flags : List JsString} {ending : Ending}
    {timeout : Int} {start : Nat} {es : List (Nat × RunEvent)} {s s' : RunOne}
    {e : Nat × RunEvent} {r : RunRec}
    (h : Run RunOne.step unrestricted (spawned test flags ending timeout start) es s)
    (hs : s.settled = false) (hstep : s.step e = some s') (hr : s'.resolved = [r]) :
    s.ExactVerdict (es ++ [e]) r ↔
      (CapAfterExit (es ++ [e]) → Raised (es ++ [e])) ∧
        (CapBeforeExit (es ++ [e]) → ¬ Raised (es ++ [e])) := by
  have hempty : s.resolved = [] := ((Once.of_started (.spawned ..)).run h).unresolved hs
  have hwatched := Watched.run h
  rcases verdict_of_step (runStep_of_step hstep) hs hempty hwatched.reaps hr with
    ⟨hraises, hstatus⟩ | ⟨hraises, hcap, hstatus⟩
  · -- an `error`: the record says `fail`, which is wrong of a child past its cap
    have hraised : Raised (es ++ [e]) := raised_snoc.mpr (.inr hraises)
    constructor
    · intro hexact
      refine ⟨fun _ => hraised, ?_⟩
      intro hbefore
      have := hexact.timeout.mpr hbefore
      rw [hstatus] at this
      cases this
    · intro hcond
      refine ⟨?_, fun _ hnot => absurd hraised hnot⟩
      rw [hstatus]
      exact ⟨fun h => (by cases h), fun hbefore => absurd hraised (hcond.2 hbefore)⟩
  · have hraised : ¬ Raised (es ++ [e]) := by
      rw [raised_snoc, not_or, hraises]
      exact ⟨hwatched.raised hs, Bool.false_ne_true⟩
    have hfired : capFired false (es ++ [e]) = capFired false es := by
      rw [capFired_snoc, hcap]
      cases capFired false es <;> rfl
    have hkilled := hwatched.killed
    rw [← hfired] at hkilled
    cases hc : capFired false (es ++ [e]) with
    | none =>
      rw [hc] at hkilled
      rw [hkilled] at hstatus
      have hbefore : ¬ CapBeforeExit (es ++ [e]) := by simp [CapBeforeExit, hc]
      have hafter : ¬ CapAfterExit (es ++ [e]) := by simp [CapAfterExit, hc]
      refine ⟨fun _ => ⟨fun h => absurd h hafter, fun h => absurd h hbefore⟩, fun _ => ?_⟩
      refine ⟨⟨fun h => ?_, fun h => absurd h hbefore⟩, fun _ _ => hstatus⟩
      exact absurd (hstatus.symm.trans h) (classify_ne_timeout s.out s.err s.ending.code)
    | some exited =>
      rw [hc] at hkilled
      rw [hkilled] at hstatus
      cases exited with
      | false =>
        have hbefore : CapBeforeExit (es ++ [e]) := hc
        have hafter : ¬ CapAfterExit (es ++ [e]) := by simp [CapAfterExit, hc]
        refine ⟨fun _ => ⟨fun h => absurd h hafter, fun _ => hraised⟩, fun _ => ?_⟩
        exact ⟨⟨fun _ => hbefore, fun _ => hstatus⟩, fun h => absurd hbefore h.2⟩
      | true =>
        have hbefore : ¬ CapBeforeExit (es ++ [e]) := by simp [CapBeforeExit, hc]
        refine ⟨fun hexact => absurd (hexact.timeout.mp hstatus) hbefore, fun hcond => ?_⟩
        exact absurd (hcond.1 hc) hraised

/-! ## A child that exits in time -/

/-- A child that prints nothing and exits with 0, while what it has left running keeps its pipes
open. -/
def quickChild : RunOne := spawned (js "test-quick.js") [] ⟨some 0, none⟩ 1000 0

/-- It exits 100 ms before its cap, and the kill timer fires. -/
def quickEvents : List (Nat × RunEvent) := [(900, .exit), (1000, .fire ⟨0, 1000, .kill⟩ none)]

/-- The state at 1000 ms; the grace timer is due at 1150. -/
def quickCapped : RunOne := ((quickChild.onExit 900).disarm ⟨0, 1000, .kill⟩).onCap 1000 none

theorem run_quickChild : Run RunOne.step unrestricted quickChild quickEvents quickCapped :=
  .cons trivial rfl (Run.single trivial rfl)

/-- The record of the child says `timeout`, with exit code 0. -/
theorem exactVerdict_fails_exitInTime : ∃ s' r,
    Run RunOne.step unrestricted quickChild quickEvents quickCapped ∧
      quickCapped.settled = false ∧
      quickCapped.step (1150, .fire ⟨1, 1150, .grace⟩ none) = some s' ∧ s'.resolved = [r] ∧
      ExitInTime (quickEvents ++ [(1150, .fire ⟨1, 1150, .grace⟩ none)]) ∧
      r.status = .timeout ∧ r.exitCode = some 0 ∧
      classify quickCapped.out quickCapped.err quickCapped.ending.code = .pass ∧
      ¬ quickCapped.ExactVerdict (quickEvents ++ [(1150, .fire ⟨1, 1150, .grace⟩ none)]) r := by
  have hinTime : ExitInTime (quickEvents ++ [(1150, .fire ⟨1, 1150, .grace⟩ none)]) :=
    ⟨rfl, by simp [CapBeforeExit, quickEvents, capFired, RunEvent.firesCap]⟩
  refine ⟨_, _, run_quickChild, rfl, rfl, rfl, hinTime, rfl, rfl, by decide, ?_⟩
  intro hexact
  exact hinTime.2 (hexact.timeout.mp rfl)

/-- A child that is past its cap when it exits gets what it should. -/
theorem exactVerdict_iff_silentChild : ∃ s' r,
    silentChildCapped.step (4000, .fire ⟨1, 4000, .reap⟩ none) = some s' ∧ s'.resolved = [r] ∧
      silentChildCapped.ExactVerdict
        ([(1000, .fire ⟨0, 1000, .kill⟩ none)] ++ [(4000, .fire ⟨1, 4000, .reap⟩ none)]) r := by
  refine ⟨_, _, rfl, rfl, (exactVerdict_iff run_silentChild rfl rfl rfl).mpr ⟨?_, ?_⟩⟩
  · intro hafter
    cases hafter
  · rintro - ⟨e, he, hraises⟩
    simp only [List.cons_append, List.nil_append, List.mem_cons, List.not_mem_nil, or_false] at he
    rcases he with rfl | rfl <;> cases hraises

end RunOne

end CorpusRunner
