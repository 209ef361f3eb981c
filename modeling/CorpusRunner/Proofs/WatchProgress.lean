import CorpusRunner.Proofs.StallBound

/-!
# The clock is never stuck

A clock that ticks only when nothing is left to do might not tick at all. Here it is always so
that something can be done, and without a word from the children: as long as `runWorkerOnce` has
not returned, the worker has a step to take, a timer is due, or the clock ticks
(`Watch.exists_step`).
-/

namespace CorpusRunner

/-- What is left to a child: its output and its end, and how long its pipes stay open. -/
def WatchEvent.fromChild : WatchEvent → Bool
  | .child _ (.fire ..) => false
  | .child .. | .released _ => true
  | _ => false

namespace Watch

variable {s s' : Watch}

/-- No poll is passed over. -/
theorem now_le_next_of_step {e : WatchEvent} (h : s.now ≤ s.poll.next) (hstep : WatchStep s e s') :
    s'.now ≤ s'.poll.next := by
  cases hstep with
  | poll hnext =>
    simp only [onPoll]
    split
    · exact Nat.le_add_right _ _
    · exact Nat.le_add_right _ _
  | tick hquiet => exact (quiet_iff.mp hquiet).2.2.2.2.1
  | worker | spawn | spawnThrows | settle | child | released | rejects | exits => exact h

theorem advance_isSome {e : WorkerEvent} (runs : JsMap JsString RunOne) (held : List JsString)
    (h : (s.worker.step s.disk e).isSome) : ∃ s', s.advance e runs held = some s' := by
  obtain ⟨p, hp⟩ := Option.isSome_iff_exists.mp h
  exact ⟨_, by rw [advance, hp]; rfl⟩

/-- A step that the worker takes by itself. -/
theorem exists_step_of_routine {e : WorkerEvent} (hresult : s.result = none)
    (hroutine : e.routine s.now 0) (h : (s.worker.step s.disk e).isSome) :
    ∃ e s', e.fromChild = false ∧ s.step e = some s' := by
  have hown : e.own s.now = true → ∃ e s', e.fromChild = false ∧ s.step e = some s' := by
    intro hown
    obtain ⟨s', hs'⟩ := advance_isSome s.runs s.held h
    exact ⟨.worker e, s', rfl, by simp only [step, if_pos hresult, if_pos hown, hs']⟩
  cases e with
  | claim n => exact hown (by simpa [WorkerEvent.own, WorkerEvent.routine] using hroutine)
  | spawn t pid =>
    obtain ⟨s', hs'⟩ := advance_isSome
      (s.runs.set t (.spawned t [] ⟨none, none⟩ s.timeout s.now)) (s.held ++ [t]) h
    exact ⟨.spawn t pid [] ⟨none, none⟩, s', rfl, by simp only [step, if_pos hresult, hs']⟩
  | spawnThrows => exact absurd hroutine id
  | settle => exact absurd hroutine id
  | load | clear | slotEnd | register | mirror | append | deregister => exact hown rfl

/-- A test that has settled can be handed over. -/
theorem exists_step_of_settled {t : JsString} {run : RunOne} (h : s.Inv) (hresult : s.result = none)
    (hidle : s.worker.thread = .idle) (hu : s.worker.unstarted = 0)
    (hrun : s.runs.get? t = some run) (hsettled : run.settled = true) :
    ∃ e s', e.fromChild = false ∧ s.step e = some s' := by
  obtain ⟨htest, htime, hflight⟩ := h.runs t run hrun
  obtain ⟨r, hr⟩ := htime.once.resolved hsettled
  have hkey : r.test ∈ s.worker.inFlight.keys := by
    rw [htime.tests r (by simp [hr]), htest]
    exact Worker.mem_keys_iff_startedAt.mpr ⟨_, hflight⟩
  have hstep : (s.worker.step s.disk (.settle r)).isSome := by
    simp [Worker.step, hidle, hu, hkey]
  obtain ⟨s', hs'⟩ := advance_isSome (s.runs.delete t) s.held hstep
  exact ⟨.settle t, s', rfl, by simp only [step, if_pos hresult, hrun, Option.map_some, hr, hs']⟩

/-- A timer that is due can fire. -/
theorem exists_step_of_due {t : JsString} {run : RunOne} {u : Timer Callback}
    (hresult : s.result = none) (hidle : s.worker.thread = .idle) (hu : s.worker.unstarted = 0)
    (hrun : s.runs.get? t = some run) (hmem : u ∈ run.timers.pending) (hdue : u.due ≤ s.now) :
    ∃ e s', e.fromChild = false ∧ s.step e = some s' := by
  obtain ⟨run', hfire⟩ := RunOne.step_fire s.now hmem
  have hready : s.worker.thread = .idle ∧ s.worker.unstarted = 0 ∧
      (RunEvent.fire u none).due s.now = true := ⟨hidle, hu, by simpa [RunEvent.due] using hdue⟩
  exact ⟨.child t (.fire u none), { s with runs := s.runs.set t run' }, rfl,
    by simp only [step, if_pos hresult, if_pos hready, hrun, hfire, Option.map_some]⟩

/-- A worker whose slots all wait or have returned: something is due, or the clock ticks. -/
theorem Inv.exists_step_of_waiting (h : s.Inv) (hnext : s.now ≤ s.poll.next)
    (hresult : s.result = none) (hidle : s.worker.thread = .idle) (hu : s.worker.unstarted = 0)
    (hl : s.worker.looping = 0) (hdrained : s.drained = false) :
    ∃ e s', e.fromChild = false ∧ s.step e = some s' := by
  by_cases hquiet : s.quiet = true
  · exact ⟨.tick, { s with now := s.now + 1 }, rfl, by
      simp only [Watch.step, if_pos hresult, if_pos hquiet]⟩
  by_cases hpoll : s.poll.next = s.now
  · exact ⟨.poll, s.onPoll, rfl, by simp only [Watch.step, if_pos hresult, if_pos hpoll]⟩
  by_contra hstuck
  -- otherwise every test is awaited in silence, and then the clock ticks
  apply hquiet
  refine quiet_iff.mpr ⟨hidle, hu, hl, hdrained, by omega, ?_⟩
  intro a run hrun
  refine ⟨?_, ?_⟩
  · by_contra hsettled
    exact hstuck (exists_step_of_settled h hresult hidle hu hrun (by simpa using hsettled))
  · intro u hmem
    by_contra hdue
    exact hstuck (exists_step_of_due hresult hidle hu hrun hmem (Nat.le_of_not_lt hdue))

theorem Inv.exists_step (h : s.Inv) (hnext : s.now ≤ s.poll.next) (hresult : s.result = none) :
    ∃ e s', e.fromChild = false ∧ s.step e = some s' := by
  rcases s.worker.progress s.disk s.now 0 with
    ⟨e, hroutine, hstep⟩ | (hexit | hthread) | ⟨hidle, hu, hl, t, rest, hkeys⟩
  · exact exists_step_of_routine hresult hroutine hstep
  · obtain ⟨hidle, hu, hl, -⟩ := Worker.canExit_iff.mp hexit
    cases hdrained : s.drained with
    | false => exact h.exists_step_of_waiting hnext hresult hidle hu hl hdrained
    | true =>
      have hrunning : s.worker.thread ≠ .rejected := by simp [hidle]
      exact ⟨.exits, { s with result := some .done }, rfl, by
        simp only [Watch.step, if_pos hresult, if_neg hrunning, if_pos hdrained]⟩
  · exact ⟨.exits, { s with result := some (.exit (js "1")) }, rfl, by
      simp only [Watch.step, if_pos hresult, if_pos hthread]⟩
  · have hbusy : s.worker.canExit = false := by simp [Worker.canExit, hkeys]
    exact h.exists_step_of_waiting hnext hresult hidle hu hl (drained_of_not_canExit hbusy)

/-- As long as `runWorkerOnce` has not returned, something can happen that is not left to the
children. -/
theorem exists_step {cfg : Config} {timeout : Int} {phase : Nat} {lines : List Rec}
    {es : List WatchEvent}
    (h : Run Watch.step unrestricted (launched cfg timeout phase lines) es s)
    (hresult : s.result = none) : ∃ e s', e.fromChild = false ∧ s.step e = some s' := by
  have hinv : s.Inv ∧ s.now ≤ s.poll.next := by
    apply h.invariant (I := fun s => s.Inv ∧ s.now ≤ s.poll.next)
    · exact ⟨.of_launched .., Nat.zero_le _⟩
    · intro u e u' hu _ hstep
      obtain ⟨-, hstep⟩ := watchStep_of_step hstep
      exact ⟨hu.1.step hstep, now_le_next_of_step hu.2 hstep⟩
  exact hinv.1.exists_step hinv.2 hresult

end Watch

end CorpusRunner
