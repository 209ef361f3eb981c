import CorpusRunner.Proofs.RunSteps

/-!
# One record for each test

Whatever calls the handlers of `runOne`, in whatever order and how often, its promise is resolved
once, and what it is resolved with stays. Until then a timer is armed: the kill timer, which arms
the reap timer unless the kill raises, or the reap timer, which settles (`RunOne.Once`). A child
that is never heard of again and cannot be killed gives a record all the same.
-/

namespace CorpusRunner

namespace RunOne

/-- What `spawn` leaves behind. -/
inductive Started : RunOne → Prop
  | spawned (test : JsString) (flags : List JsString) (ending : Ending) (timeout : Int)
      (now : Nat) : Started (spawned test flags ending timeout now)
  | threw (test : JsString) (flags : List JsString) (msg : JsString) (now : Nat) :
      Started (threw test flags msg now)

/-- The variable for a timer with the callback. -/
def timerVar (s : RunOne) : Callback → Option Nat
  | .kill => s.killTimer
  | .reap => s.reapTimer
  | .grace => s.graceTimer

/-- The timer is armed, and its variable holds it. -/
def Armed (s : RunOne) (t : Timer Callback) : Prop :=
  t ∈ s.timers.pending ∧ s.timerVar t.callback = some t.id

/-- The invariant of every order of events. -/
structure Once (s : RunOne) : Prop where
  unresolved : s.settled = false → s.resolved = []
  resolved : s.settled = true → ∃ r, s.resolved = [r]
  armed : s.settled = false → ∃ t, s.Armed t ∧ t.callback ≠ .grace

variable {s s' : RunOne} {now : Nat} {e : RunEvent}

theorem once_of_settled (hs : s.settled = true) {r : RunRec} (hr : s.resolved = [r]) :
    s.Once where
  unresolved := by simp [hs]
  resolved := fun _ => ⟨r, hr⟩
  armed := by simp [hs]

/-- The first `finalize` settles. -/
theorem once_finalize {status : RunStatus} {code : Option Int} {signal : Option JsString}
    {errorMsg : JsString} (hs : s.settled = false) (hr : s.resolved = []) :
    (s.finalize now status code signal errorMsg).Once := by
  apply once_of_settled settled_finalize
  rw [resolved_finalize hs, hr]
  rfl

theorem armed_armReap (s : RunOne) (now : Nat) :
    ∃ t, (s.armReap now).Armed t ∧ t.callback = .reap := by
  refine ⟨⟨s.timers.next, now + timerDelay 3000, .reap⟩, ⟨?_, rfl⟩, rfl⟩
  exact Timers.mem_setTimeout.mpr (.inr rfl)

/-- After the cap the record is settled, or the reap timer is armed. -/
theorem once_onCap {killError : Option JsString} (hs : s.settled = false) (hr : s.resolved = []) :
    (s.onCap now killError).Once := by
  cases killError with
  | none =>
    obtain ⟨t, ht, hc⟩ := armed_armReap s.markKilled now
    exact {
      unresolved := fun _ => hr
      resolved := by
        intro h
        rw [show (s.onCap now none).settled = s.settled from rfl, hs] at h
        cases h
      armed := fun _ => ⟨t, ht, by simp [hc]⟩ }
  | some msg =>
    have hfin : (s.markKilled.onError now msg).Once := once_finalize hs hr
    obtain ⟨r, hr'⟩ := hfin.resolved settled_finalize
    exact once_of_settled (s := s.onCap now (some msg)) settled_finalize hr'

theorem Once.of_started (h : Started s) : s.Once := by
  cases h with
  | spawned test flags ending timeout now =>
    exact {
      unresolved := fun _ => rfl
      resolved := by
        intro h
        cases h
      armed := by
        intro _
        refine ⟨⟨0, now + timerDelay timeout, .kill⟩, ⟨?_, rfl⟩, by simp⟩
        exact Timers.mem_setTimeout.mpr (.inr rfl) }
  | threw test flags msg now => exact once_finalize rfl rfl

/-- No handler breaks the invariant. -/
theorem Once.step (h : s.Once) (hstep : RunStep s now e s') : s'.Once := by
  by_cases hs : s.settled = true
  · obtain ⟨hs', hr'⟩ := hstep.resolved_of_settled hs
    obtain ⟨r, hr⟩ := h.resolved hs
    exact once_of_settled hs' (hr'.trans hr)
  · have hs : s.settled = false := by simpa using hs
    have hr := h.unresolved hs
    cases hstep with
    | stdout | stderr => exact ⟨h.unresolved, h.resolved, h.armed⟩
    | error => exact once_finalize hs hr
    | close => exact once_finalize hs hr
    | exit =>
      -- a grace timer more; the timer that was armed still is
      obtain ⟨t, ⟨ht, hvar⟩, hc⟩ := h.armed hs
      have hkept : (s.onExit now).timerVar t.callback = s.timerVar t.callback := by
        cases hcb : t.callback with
        | grace => exact absurd hcb hc
        | kill | reap => rfl
      refine ⟨h.unresolved, h.resolved, fun _ => ⟨t, ⟨?_, hkept.trans hvar⟩, hc⟩⟩
      exact Timers.mem_setTimeout.mpr (.inl ht)
    | @kill t => exact once_onCap (s := s.disarm t) hs hr
    | @reap t => exact once_finalize (s := s.disarm t) hs hr
    | @grace t => exact once_finalize (s := s.disarm t) hs hr

theorem Once.run {es : List (Nat × RunEvent)} (h : s.Once)
    (hrun : Run RunOne.step unrestricted s es s') : s'.Once := by
  apply hrun.invariant h
  intro t e t' ht _ hstep
  exact ht.step (runStep_of_step hstep)

/-- An armed timer can fire. -/
theorem step_fire (now : Nat) {t : Timer Callback} (ht : t ∈ s.timers.pending) :
    ∃ s', s.step (now, .fire t none) = some s' := by
  cases hc : t.callback with
  | kill => exact ⟨(s.disarm t).onCap now none, by simp [RunOne.step, ht, hc]⟩
  | reap => exact ⟨(s.disarm t).onReap now, by simp [RunOne.step, ht, hc]⟩
  | grace => exact ⟨(s.disarm t).onEnd now, by simp [RunOne.step, ht, hc]⟩

/-- The reap timer settles. -/
theorem settled_of_fire_reap {t : Timer Callback} {killError : Option JsString}
    (hc : t.callback = .reap) (hstep : s.step (now, .fire t killError) = some s') :
    s'.settled = true := by
  cases runStep_of_step hstep with
  | kill _ hkill =>
    rw [hc] at hkill
    cases hkill
  | reap => exact settled_finalize
  | grace => exact settled_finalize

/-- Every timer that fires settles, or it is the kill timer and the reap timer is armed now. -/
theorem settled_or_reap_of_fire {t : Timer Callback} {killError : Option JsString}
    (hstep : s.step (now, .fire t killError) = some s') :
    s'.settled = true ∨ ∃ u, s'.Armed u ∧ u.callback = .reap := by
  cases runStep_of_step hstep with
  | kill => exact .inr (armed_armReap _ _)
  | reap => exact .inl settled_finalize
  | grace => exact .inl settled_finalize

/-- The timer's firing, whenever it comes and whatever the kill raises, settles the record or arms
the reap timer, and the firing of that one settles it. -/
def Leads (s : RunOne) (t : Timer Callback) : Prop :=
  (∀ now, ∃ s', s.step (now, .fire t none) = some s') ∧
    ∀ now killError s', s.step (now, .fire t killError) = some s' → s'.settled = true ∨
      ∃ u, s'.Armed u ∧ u.callback = .reap ∧
        (∀ now', ∃ s'', s'.step (now', .fire u none) = some s'') ∧
        ∀ now' killError' s'', s'.step (now', .fire u killError') = some s'' → s''.settled = true

theorem leads_of_armed {t : Timer Callback} (ht : s.Armed t) : s.Leads t := by
  refine ⟨fun now => step_fire now ht.1, ?_⟩
  intro now killError s' hstep
  rcases settled_or_reap_of_fire hstep with hs | ⟨u, hu, hc⟩
  · exact .inl hs
  · refine .inr ⟨u, hu, hc, fun now' => step_fire now' hu.1, ?_⟩
    intro now' killError' s'' hstep'
    exact settled_of_fire_reap hc hstep'

/-- Timers that fire when they are due settle a record, with nothing from the child. -/
theorem settles_by_timers {t : Timer Callback} (ht : s.Armed t) :
    ∃ es s', (∀ e ∈ es, ∃ u : Timer Callback, e = (u.due, .fire u none)) ∧
      Run RunOne.step unrestricted s es s' ∧ s'.settled = true := by
  obtain ⟨s₁, h₁⟩ := step_fire t.due ht.1
  have hfirst : Run RunOne.step unrestricted s [(t.due, .fire t none)] s₁ :=
    Run.single trivial h₁
  rcases settled_or_reap_of_fire h₁ with hs | ⟨u, hu, hc⟩
  · exact ⟨_, s₁, by simp, hfirst, hs⟩
  · obtain ⟨s₂, h₂⟩ := step_fire u.due hu.1
    exact ⟨_, s₂, by simp, hfirst.snoc trivial h₂, settled_of_fire_reap hc h₂⟩

end RunOne

open RunOne in
/-- `runOne` gives one record and keeps no slot for good: whatever happened so far, its promise
is resolved at most once, a record that it is resolved with is the record for good, and as long
as there is none an armed timer leads to one, without a further word from the child. -/
theorem RunOne.resolves_once {s₀ s : RunOne} {es : List (Nat × RunEvent)} (h₀ : Started s₀)
    (h : Run RunOne.step unrestricted s₀ es s) :
    s.resolved.length ≤ 1 ∧
      (∀ r ∈ s.resolved, ∀ es' s', Run RunOne.step unrestricted s es' s' → s'.resolved = [r]) ∧
      (s.settled = true ↔ s.resolved.length = 1) ∧
      (s.settled = false → ∃ t, s.Armed t ∧ s.Leads t) ∧
      ∃ es' s', (∀ e ∈ es', ∃ u : Timer Callback, e = (u.due, .fire u none)) ∧
        Run RunOne.step unrestricted s es' s' ∧ ∃ r, s'.resolved = [r] := by
  have hinv := (Once.of_started h₀).run h
  by_cases hs : s.settled = true
  · obtain ⟨r, hr⟩ := hinv.resolved hs
    refine ⟨by simp [hr], ?_, by simp [hs, hr], by simp [hs], [], s, by simp, .refl, r, hr⟩
    intro r' hr' es' s' hrun
    have hkept : s'.settled = true ∧ s'.resolved = s.resolved := by
      apply hrun.invariant ⟨hs, rfl⟩
      intro t e t' ht _ hstep
      have hstep' := (runStep_of_step hstep).resolved_of_settled ht.1
      exact ⟨hstep'.1, hstep'.2.trans ht.2⟩
    rw [hr, List.mem_singleton] at hr'
    rw [hkept.2, hr, hr']
  · have hs : s.settled = false := by simpa using hs
    have hr := hinv.unresolved hs
    obtain ⟨t, ht, -⟩ := hinv.armed hs
    obtain ⟨es', s', hfire, hrun, hs'⟩ := settles_by_timers ht
    refine ⟨by simp [hr], by simp [hr], by simp [hs, hr], ?_, es', s', hfire, hrun, ?_⟩
    · intro _
      exact ⟨t, ht, leads_of_armed ht⟩
    · exact (hinv.run hrun).resolved hs'

namespace RunOne

/-- A child that is never heard of. -/
def silentChild : RunOne := spawned (js "test-hang.js") [] ⟨none, none⟩ 1000 0

/-- It at its cap. -/
def silentChildCapped : RunOne := (silentChild.disarm ⟨0, 1000, .kill⟩).onCap 1000 none

theorem run_silentChild : Run RunOne.step unrestricted silentChild
    [(1000, .fire ⟨0, 1000, .kill⟩ none)] silentChildCapped :=
  Run.single trivial rfl

theorem resolves_once_silentChild : silentChildCapped.resolved = [] ∧
    ∃ es' s', (∀ e ∈ es', ∃ u : Timer Callback, e = (u.due, .fire u none)) ∧
      Run RunOne.step unrestricted silentChildCapped es' s' ∧ ∃ r, s'.resolved = [r] :=
  ⟨rfl, (resolves_once (.spawned ..) run_silentChild).2.2.2.2⟩

end RunOne

end CorpusRunner
