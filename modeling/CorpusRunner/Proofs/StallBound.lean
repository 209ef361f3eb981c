import CorpusRunner.Proofs.WatchSteps

/-!
# How long a test takes, and how long the ledger stands still

A call of `runOne` settles at most `TEST_TIMEOUT_MS` and the 3000 ms of the reap timer after its
start (`RunOne.OnTime`), so no test is in flight for longer (`Watch.Inv`). Between two polls that
see the ledger grow there is therefore no more than that, as long as a test is missing in it: a
worker is given up for a stall only when there is nothing left for it to do, if `STALL_MS` is at
least the sum of the two (`Watch.recorded_of_stall`).
-/

namespace CorpusRunner

/-! ## One test -/

namespace RunOne

/-- A call at time `now`, whose kill timer was armed for at most `cap`. -/
structure OnTime (s : RunOne) (now cap : Nat) : Prop where
  once : s.Once
  tests : ∀ r ∈ s.resolved, r.test = s.test
  /-- No timer has been passed over. -/
  due : ∀ t ∈ s.timers.pending, now ≤ t.due
  kill : ∀ t ∈ s.timers.pending, t.callback = .kill → t.due ≤ s.started + cap
  reap : ∀ t ∈ s.timers.pending, t.callback = .reap → t.due ≤ s.started + cap + 3000

variable {s s' : RunOne} {now cap : Nat}

theorem OnTime.of_spawned (test : JsString) (flags : List JsString) (ending : Ending)
    (timeout : Int) (now : Nat) :
    (spawned test flags ending timeout now).OnTime now (timerDelay timeout) := by
  have htimer : ∀ t ∈ (spawned test flags ending timeout now).timers.pending,
      t = ⟨0, now + timerDelay timeout, .kill⟩ := by
    intro t ht
    simpa [spawned, begin, Timers.empty] using ht
  refine ⟨.of_started (.spawned ..), by simp [spawned, begin], ?_, ?_, ?_⟩
  · intro t ht
    rw [htimer t ht]
    exact Nat.le_add_right _ _
  · intro t ht _
    rw [htimer t ht]
    exact Nat.le_refl _
  · intro t ht hc
    rw [htimer t ht] at hc
    cases hc

theorem OnTime.of_threw (test : JsString) (flags : List JsString) (msg : JsString) (now cap : Nat) :
    (threw test flags msg now).OnTime now cap := by
  have hnone : (threw test flags msg now).timers.pending = [] := rfl
  refine ⟨.of_started (.threw ..), ?_, by simp [hnone], by simp [hnone], by simp [hnone]⟩
  intro r hr
  rw [threw, resolved_finalize rfl] at hr
  rw [List.mem_singleton.mp hr]
  rfl

/-- A handler that is called now leaves the call on time. -/
theorem OnTime.step {e : RunEvent} (h : s.OnTime now cap) (hstep : RunStep s now e s') :
    s'.OnTime now cap := by
  obtain ⟨htest, hstarted⟩ := hstep.test_eq
  refine ⟨h.once.step hstep, ?_, ?_, ?_, ?_⟩
  · intro r hr
    rw [htest]
    rcases hstep.test_of_mem_resolved hr with hr | hr
    · exact h.tests r hr
    · exact hr
  · intro t ht
    rcases hstep.mem_pending ht with ⟨ht, -⟩ | ⟨-, hdue⟩ | ⟨-, hdue, -⟩
    · exact h.due t ht
    · omega
    · omega
  · intro t ht hc
    rw [hstarted]
    rcases hstep.mem_pending ht with ⟨ht, -⟩ | ⟨hgrace, -⟩ | ⟨hreap, -⟩
    · exact h.kill t ht hc
    · rw [hc] at hgrace
      cases hgrace
    · rw [hc] at hreap
      cases hreap
  · intro t ht hc
    rw [hstarted]
    rcases hstep.mem_pending ht with ⟨ht, -⟩ | ⟨hgrace, -⟩ | ⟨-, hdue, u, -, -, hu, hkill⟩
    · exact h.reap t ht hc
    · rw [hc] at hgrace
      cases hgrace
    · -- the kill timer was not overdue when it fired
      have hearly := h.due u hu
      have hlate := h.kill u hu hkill
      omega

/-- As long as it has not settled, something is due in time. -/
theorem OnTime.deadline (h : s.OnTime now cap) (hs : s.settled = false) :
    ∃ t ∈ s.timers.pending, t.due ≤ s.started + cap + 3000 := by
  obtain ⟨t, ⟨ht, -⟩, hc⟩ := h.once.armed hs
  refine ⟨t, ht, ?_⟩
  cases hcb : t.callback with
  | kill =>
    have hdue := h.kill t ht hcb
    omega
  | reap => exact h.reap t ht hcb
  | grace => exact absurd hcb hc

theorem OnTime.tick (h : s.OnTime now cap) (hdue : ∀ t ∈ s.timers.pending, now < t.due) :
    s.OnTime (now + 1) cap :=
  { h with due := hdue }

end RunOne

/-! ## All tests in flight -/

namespace Watch

/-- A selected test is not recorded. -/
def Missing (s : Watch) : Prop := ∃ t ∈ s.worker.cfg.all.tests, t ∉ recorded s.disk.progress

structure Inv (s : Watch) : Prop where
  worker : s.worker.Inv s.disk
  /-- A test in flight is awaited, or the thread is at it. -/
  awaited : ∀ t n, s.worker.startedAt t = some n → t ∈ s.runs.keys ∨ s.worker.Handles t
  handled : ∀ t, s.worker.Handles t → s.runs.get? t = none
  runs : ∀ t run, s.runs.get? t = some run → run.test = t ∧
    run.OnTime s.now (timerDelay s.timeout) ∧ s.worker.startedAt t = some run.started
  /-- Between claim and spawn no time passes. -/
  fresh : ∀ t, s.worker.thread = .claimed t ∨ s.worker.thread = .registered t →
    s.worker.startedAt t = some s.now
  deadline : ∀ t n, s.worker.startedAt t = some n →
    n ≤ s.now ∧ s.now ≤ n + timerDelay s.timeout + 3000
  counted : s.poll.lastCount ≤ (readLedger s.disk.progress).size
  /-- While a test is missing in the ledger, the next poll sees it grown, or a test is in flight
  that was when the last growth was seen. -/
  grows : s.Missing →
    s.poll.lastCount < (readLedger s.disk.progress).size ∨ s.now = s.poll.lastGrow ∨
      ∃ t n, s.worker.startedAt t = some n ∧ t ∉ recorded s.disk.progress ∧ n ≤ s.poll.lastGrow
  /-- Only a slot has children. -/
  slot : s.held ≠ [] → 0 < s.worker.cfg.concurrency

namespace Inv

variable {s s' : Watch}

theorem of_launched (cfg : Config) (timeout : Int) (phase : Nat) (lines : List Rec) :
    (launched cfg timeout phase lines).Inv where
  worker := .of_launched rfl
  awaited := by
    intro t n h
    cases h
  handled := fun _ _ => rfl
  runs := by
    intro t run h
    cases h
  fresh := by
    rintro t (h | h) <;> cases h
  deadline := by
    intro t n h
    cases h
  counted := Nat.le_refl _
  grows := fun _ => .inr (.inl rfl)
  slot := fun h => absurd rfl h

/-- A step of the worker that changes neither the tests in flight nor the ledger. -/
theorem keep {w : Worker} {d : Disk} (h : s.Inv) (hw : w.Inv d) (hcfg : w.cfg = s.worker.cfg)
    (hstarted : ∀ t, w.startedAt t = s.worker.startedAt t)
    (hhandles : ∀ t, w.Handles t ↔ s.worker.Handles t)
    (hfresh : ∀ t, w.thread = .claimed t ∨ w.thread = .registered t →
      s.worker.thread = .claimed t ∨ s.worker.thread = .registered t)
    (hprogress : d.progress = s.disk.progress) :
    ({ s with worker := w, disk := d } : Watch).Inv where
  worker := hw
  awaited := by
    intro t n ht
    rw [hhandles]
    exact h.awaited t n ((hstarted t).symm.trans ht)
  handled := fun t ht => h.handled t ((hhandles t).mp ht)
  runs := by
    intro t run hrun
    rw [hstarted]
    exact h.runs t run hrun
  fresh := by
    intro t ht
    rw [hstarted]
    exact h.fresh t (hfresh t ht)
  deadline := fun t n ht => h.deadline t n ((hstarted t).symm.trans ht)
  counted := by
    rw [hprogress]
    exact h.counted
  grows := by
    simp only [Missing, hprogress, hcfg, hstarted]
    exact h.grows
  slot := by
    rw [hcfg]
    exact h.slot

theorem claim {w : Worker} {t : JsString} (h : s.Inv) (hw : w.Inv s.disk)
    (hcfg : w.cfg = s.worker.cfg) (hidle : s.worker.thread = .idle)
    (hthread : w.thread = .claimed t)
    (hnew : s.worker.startedAt t = none)
    (hstarted : ∀ a, w.startedAt a = if a = t then some s.now else s.worker.startedAt a) :
    ({ s with worker := w } : Watch).Inv where
  worker := hw
  awaited := by
    intro a n ha
    by_cases hat : a = t
    · exact .inr (.inl (by rw [hthread, hat]))
    · rw [hstarted, if_neg hat] at ha
      rcases h.awaited a n ha with hrun | hhandles
      · exact .inl hrun
      · exact absurd hhandles (Worker.not_handles_of_idle hidle a)
  handled := by
    intro a ha
    have hat : a = t := (Worker.handles_claimed hthread a).mp ha
    cases hrun : s.runs.get? a with
    | none => rfl
    | some run =>
      have hflight := (h.runs a run hrun).2.2
      rw [hat, hnew] at hflight
      cases hflight
  runs := by
    intro a run hrun
    obtain ⟨htest, htime, hflight⟩ := h.runs a run hrun
    refine ⟨htest, htime, ?_⟩
    rw [hstarted, if_neg, hflight]
    intro heq
    subst heq
    rw [hnew] at hflight
    cases hflight
  fresh := by
    intro a ha
    have hat : a = t := (Worker.handles_claimed hthread a).mp (by
      rcases ha with ha | ha
      · exact .inl ha
      · exact .inr (.inl ha))
    rw [hstarted, if_pos hat]
  deadline := by
    intro a n ha
    rw [hstarted] at ha
    split at ha
    · obtain rfl := Option.some.inj ha
      exact ⟨Nat.le_refl _, by simp only; omega⟩
    · exact h.deadline a n ha
  counted := h.counted
  slot := by
    rw [hcfg]
    exact h.slot
  grows := by
    simp only [Missing, hcfg]
    intro hmissing
    rcases h.grows hmissing with hlast | hnow | ⟨a, n, ha, hrec, hn⟩
    · exact .inl hlast
    · exact .inr (.inl hnow)
    · refine .inr (.inr ⟨a, n, ?_, hrec, hn⟩)
      rw [hstarted, if_neg, ha]
      intro heq
      subst heq
      rw [hnew] at ha
      cases ha

/-- A record is appended. -/
theorem append {w : Worker} {d : Disk} {r : RunRec} (h : s.Inv) (hw : w.Inv d)
    (hcfg : w.cfg = s.worker.cfg) (hsettled : s.worker.thread = .settled r)
    (hthread : w.thread = .appended r.test)
    (hstarted : ∀ a, w.startedAt a = s.worker.startedAt a)
    (hprogress : d.progress = s.disk.progress ++ [.ran r]) :
    ({ s with worker := w, disk := d } : Watch).Inv := by
  have hhandles : ∀ a, w.Handles a ↔ s.worker.Handles a := by
    intro a
    rw [Worker.handles_appended hthread, Worker.handles_settled hsettled]
  have hflight : r.test ∈ s.worker.inFlight.keys := by
    simpa [Worker.ThreadOk, hsettled] using h.worker.thread
  have hmissing : r.test ∉ recorded s.disk.progress := by
    rw [h.worker.held r.test hflight, hsettled]
    simp
  have hsize : (readLedger d.progress).size = (readLedger s.disk.progress).size + 1 := by
    rw [hprogress, size_readLedger_append, Rec.test_ran, if_neg hmissing]
  have hcounted := h.counted
  refine ⟨hw, ?_, ?_, ?_, ?_, ?_, ?_, ?_, ?_⟩
  · intro a n ha
    rw [hhandles]
    exact h.awaited a n ((hstarted a).symm.trans ha)
  · intro a ha
    exact h.handled a ((hhandles a).mp ha)
  · intro a run hrun
    rw [hstarted]
    exact h.runs a run hrun
  · rintro a (ha | ha) <;> rw [hthread] at ha <;> cases ha
  · intro a n ha
    exact h.deadline a n ((hstarted a).symm.trans ha)
  · simp only
    omega
  · intro _
    left
    simp only
    omega
  · simp only [hcfg]
    exact h.slot

/-- A test is over. -/
theorem deregister {w : Worker} {d : Disk} {t : JsString} (h : s.Inv) (hw : w.Inv d)
    (hcfg : w.cfg = s.worker.cfg) (happended : s.worker.thread = .appended t)
    (hidle : w.thread = .idle)
    (hstarted : ∀ a, w.startedAt a = if a = t then none else s.worker.startedAt a)
    (hprogress : d.progress = s.disk.progress) :
    ({ s with worker := w, disk := d } : Watch).Inv := by
  have hother : ∀ {a n}, w.startedAt a = some n → a ≠ t ∧ s.worker.startedAt a = some n := by
    intro a n ha
    rw [hstarted] at ha
    split at ha
    · cases ha
    · rename_i hat
      exact ⟨hat, ha⟩
  refine ⟨hw, ?_, ?_, ?_, ?_, ?_, ?_, ?_, ?_⟩
  · intro a n ha
    obtain ⟨hat, ha⟩ := hother ha
    rcases h.awaited a n ha with hrun | hhandles
    · exact .inl hrun
    · exact absurd ((Worker.handles_appended happended a).mp hhandles) hat
  · intro a ha
    exact absurd ha (Worker.not_handles_of_idle hidle a)
  · intro a run hrun
    obtain ⟨htest, htime, hflight⟩ := h.runs a run hrun
    refine ⟨htest, htime, ?_⟩
    rw [hstarted, if_neg, hflight]
    intro heq
    subst heq
    rw [h.handled a ((Worker.handles_appended happended a).mpr rfl)] at hrun
    cases hrun
  · rintro a (ha | ha) <;> rw [hidle] at ha <;> cases ha
  · intro a n ha
    exact h.deadline a n (hother ha).2
  · rw [hprogress]
    exact h.counted
  · simp only [Missing, hprogress, hcfg]
    intro hmissing
    rcases h.grows hmissing with hlast | hnow | ⟨a, n, ha, hrec, hn⟩
    · exact .inl hlast
    · exact .inr (.inl hnow)
    · -- the test that is over has its record
      refine .inr (.inr ⟨a, n, ?_, hrec, hn⟩)
      rw [hstarted, if_neg, ha]
      intro heq
      subst heq
      have hflight : a ∈ s.worker.inFlight.keys := Worker.mem_keys_iff_startedAt.mpr ⟨n, ha⟩
      exact hrec ((h.worker.held a hflight).mpr happended)
  · simp only [hcfg]
    exact h.slot

/-- `spawn` has returned or thrown, and the worker awaits the test from now on. -/
theorem begins {w : Worker} {d : Disk} {t : JsString} {run : RunOne} {held : List JsString}
    (h : s.Inv) (hw : w.Inv d)
    (hcfg : w.cfg = s.worker.cfg) (hregistered : s.worker.thread = .registered t)
    (hthread : ∀ a, ¬ w.Handles a) (hstarted : ∀ a, w.startedAt a = s.worker.startedAt a)
    (hprogress : d.progress = s.disk.progress) (htest : run.test = t) (hnow : run.started = s.now)
    (htime : run.OnTime s.now (timerDelay s.timeout)) :
    ({ s with worker := w, disk := d, runs := s.runs.set t run, held } : Watch).Inv where
  worker := hw
  awaited := by
    intro a n ha
    left
    rcases h.awaited a n ((hstarted a).symm.trans ha) with hrun | hhandles
    · exact JsMap.mem_keys_set.mpr (.inl hrun)
    · exact JsMap.mem_keys_set.mpr (.inr ((Worker.handles_registered hregistered a).mp hhandles))
  handled := fun a ha => absurd ha (hthread a)
  runs := by
    intro a run' hrun
    rw [JsMap.get?_set] at hrun
    split at hrun
    · rename_i hat
      obtain rfl := Option.some.inj hrun
      refine ⟨htest.trans hat.symm, htime, ?_⟩
      rw [hstarted, hat, hnow]
      exact h.fresh t (.inr hregistered)
    · rw [hstarted]
      exact h.runs a run' hrun
  fresh := by
    intro a ha
    refine absurd ?_ (hthread a)
    rcases ha with ha | ha
    · exact .inl ha
    · exact .inr (.inl ha)
  deadline := fun a n ha => h.deadline a n ((hstarted a).symm.trans ha)
  counted := by
    rw [hprogress]
    exact h.counted
  grows := by
    simp only [Missing, hprogress, hcfg, hstarted]
    exact h.grows
  slot := by
    intro _
    -- the test is in flight, so it has taken a slot
    have hslots := h.worker.slots
    have hflight : t ∈ s.worker.inFlight.keys := by
      simpa [Worker.ThreadOk, hregistered] using h.worker.thread
    have hpos := List.length_pos_of_mem hflight
    rw [JsMap.length_keys] at hpos
    simp only [hcfg]
    omega

/-- A promise is handed over. -/
theorem settle {w : Worker} {t : JsString} {run : RunOne} {r : RunRec} (h : s.Inv)
    (hw : w.Inv s.disk) (hcfg : w.cfg = s.worker.cfg) (hidle : s.worker.thread = .idle)
    (hthread : w.thread = .settled r) (hstarted : ∀ a, w.startedAt a = s.worker.startedAt a)
    (hrun : s.runs.get? t = some run) (hr : r ∈ run.resolved) :
    ({ s with worker := w, runs := s.runs.delete t } : Watch).Inv where
  worker := hw
  awaited := by
    intro a n ha
    rw [Worker.handles_settled hthread]
    rcases h.awaited a n ((hstarted a).symm.trans ha) with hawaited | hhandles
    · by_cases hat : a = t
      · obtain ⟨htest, htime, -⟩ := h.runs t run hrun
        right
        rw [htime.tests r hr, htest, hat]
      · left
        rw [JsMap.keys_delete, List.mem_filter]
        exact ⟨hawaited, by simpa using hat⟩
    · exact absurd hhandles (Worker.not_handles_of_idle hidle a)
  handled := by
    intro a ha
    obtain ⟨htest, htime, -⟩ := h.runs t run hrun
    have hat : a = t := ((Worker.handles_settled hthread a).mp ha).trans
      ((htime.tests r hr).trans htest)
    rw [JsMap.get?_delete, if_pos hat]
  runs := by
    intro a run' hrun'
    rw [JsMap.get?_delete] at hrun'
    split at hrun'
    · cases hrun'
    · rw [hstarted]
      exact h.runs a run' hrun'
  fresh := by
    intro a ha
    rw [hthread] at ha
    rcases ha with ha | ha <;> cases ha
  deadline := fun a n ha => h.deadline a n ((hstarted a).symm.trans ha)
  counted := h.counted
  grows := by
    simp only [Missing, hcfg, hstarted]
    exact h.grows
  slot := by
    rw [hcfg]
    exact h.slot

/-- A handler of an awaited test. -/
theorem child {t : JsString} {run run' : RunOne} {e : RunEvent} (h : s.Inv)
    (hrun : s.runs.get? t = some run) (hstep : RunStep run s.now e run') :
    ({ s with runs := s.runs.set t run' } : Watch).Inv where
  worker := h.worker
  awaited := by
    intro a n ha
    rcases h.awaited a n ha with hawaited | hhandles
    · exact .inl (JsMap.mem_keys_set.mpr (.inl hawaited))
    · exact .inr hhandles
  handled := by
    intro a ha
    have hnone := h.handled a ha
    rw [JsMap.get?_set, if_neg, hnone]
    intro hat
    rw [hat, hrun] at hnone
    cases hnone
  runs := by
    intro a run'' hrun''
    rw [JsMap.get?_set] at hrun''
    split at hrun''
    · rename_i hat
      obtain rfl := Option.some.inj hrun''
      obtain ⟨htest, htime, hflight⟩ := h.runs t run hrun
      obtain ⟨htest', hstarted'⟩ := hstep.test_eq
      refine ⟨htest'.trans (htest.trans hat.symm), htime.step hstep, ?_⟩
      rw [hstarted', hat]
      exact hflight
    · exact h.runs a run'' hrun''
  fresh := h.fresh
  deadline := h.deadline
  counted := h.counted
  grows := h.grows
  slot := h.slot

/-- A child is gone, with its pipes. -/
theorem released (h : s.Inv) (t : JsString) :
    ({ s with held := s.held.filter (· ≠ t) } : Watch).Inv :=
  { h with
    slot := by
      intro hne
      apply h.slot
      rintro hnil
      exact hne (by simp [hnil]) }

theorem poll (h : s.Inv) : s.onPoll.Inv := by
  refine ⟨h.worker, h.awaited, h.handled, h.runs, h.fresh, h.deadline, ?_, ?_, h.slot⟩
  · simp only [onPoll]
    split
    · exact Nat.le_refl _
    · exact h.counted
  · simp only [onPoll]
    split
    · exact fun _ => .inr (.inl rfl)
    · exact h.grows

/-- A worker that waits has a test in flight, as long as a test is missing. -/
theorem exists_inFlight (h : s.Inv) (hquiet : s.quiet = true) (hmissing : s.Missing) :
    ∃ t n, s.worker.startedAt t = some n ∧ t ∉ recorded s.disk.progress := by
  obtain ⟨hidle, hu, hl, hdrained, -, -⟩ := quiet_iff.mp hquiet
  have hkeys : s.worker.inFlight.keys ≠ [] := by
    intro hnil
    -- only what the children have left open keeps the worker from its end
    have hexit : s.worker.canExit = true := by simp [Worker.canExit, hidle, hu, hl, hnil]
    have hheld : s.held ≠ [] := by simpa [drained, hexit] using hdrained
    obtain ⟨t, ht, hrec⟩ := hmissing
    exact hrec ((h.worker.complete_of_canExit (h.slot hheld) hexit).2 t ht)
  obtain ⟨t, rest, ht⟩ := List.exists_cons_of_ne_nil hkeys
  have hflight : t ∈ s.worker.inFlight.keys := by simp [ht]
  obtain ⟨n, hn⟩ := Worker.mem_keys_iff_startedAt.mp hflight
  refine ⟨t, n, hn, ?_⟩
  rw [h.worker.held t hflight, hidle]
  simp

theorem tick (h : s.Inv) (hquiet : s.quiet = true) :
    ({ s with now := s.now + 1 } : Watch).Inv := by
  obtain ⟨hidle, -, -, -, -, hruns⟩ := quiet_iff.mp hquiet
  refine ⟨h.worker, h.awaited, h.handled, ?_, ?_, ?_, h.counted, ?_, h.slot⟩
  · intro t run hrun
    obtain ⟨htest, htime, hflight⟩ := h.runs t run hrun
    exact ⟨htest, htime.tick (hruns t run hrun).2, hflight⟩
  · intro t ht
    rw [show s.worker.thread = .idle from hidle] at ht
    rcases ht with ht | ht <;> cases ht
  · intro t n ht
    have hstart := (h.deadline t n ht).1
    -- the test is awaited, and the timer that settles it is not due yet
    rcases h.awaited t n ht with hawaited | hhandles
    · obtain ⟨run, hrun⟩ := JsMap.mem_keys_iff_get?.mp hawaited
      obtain ⟨-, htime, hflight⟩ := h.runs t run hrun
      obtain ⟨hsettled, hdue⟩ := hruns t run hrun
      obtain ⟨u, hu, hlate⟩ := htime.deadline hsettled
      have hnext := hdue u hu
      rw [ht] at hflight
      have hsame : n = run.started := Option.some.inj hflight
      simp only
      omega
    · exact absurd hhandles (Worker.not_handles_of_idle hidle t)
  · intro hmissing
    rcases h.grows hmissing with hlast | hnow | hflight
    · exact .inl hlast
    · obtain ⟨t, n, ht, hrec⟩ := h.exists_inFlight hquiet hmissing
      have hstart := (h.deadline t n ht).1
      refine .inr (.inr ⟨t, n, ht, hrec, ?_⟩)
      rw [← hnow]
      exact hstart
    · exact .inr (.inr hflight)

/-- The worker's own steps. -/
theorem worker_step {e : WorkerEvent} {w : Worker} {d : Disk} (h : s.Inv)
    (hstep : WorkerStep s.worker s.disk e w d) (hown : e.own s.now = true) :
    ({ s with worker := w, disk := d } : Watch).Inv := by
  have hinv := h.worker.step hstep
  have hcfg := hstep.cfg_eq
  cases hstep with
  | load ht =>
    apply h.keep hinv hcfg (fun _ => rfl) _ _ rfl
    · intro t
      simp [Worker.Handles, ht]
    · simp
  | clear ht | clearRejects ht =>
    apply h.keep hinv hcfg (fun _ => rfl) _ _ rfl
    · intro t
      simp [Worker.Handles, ht]
    · simp
  | @claim now t rest w₁ ht hq =>
    have hnow : now = s.now := by simpa [WorkerEvent.own] using hown
    have hnew : s.worker.startedAt t = none := by
      rw [Worker.startedAt, JsMap.get?_eq_none.mpr (Worker.head_notMem h.worker.nodup hq)]
      rfl
    apply h.claim hinv hcfg ht rfl hnew
    intro a
    rw [Worker.startedAt, JsMap.get?_set, hnow]
    split <;> rfl
  | @slotEnd w₁ ht hq hs =>
    obtain ⟨-, hthread, -, hflight, -⟩ := Worker.takeSlot_frame hs
    apply h.keep hinv hcfg _ _ _ rfl
    · intro t
      rw [Worker.startedAt, hflight]
      rfl
    · intro t
      simp [Worker.Handles, hthread]
    · simp [hthread]
  | register ht =>
    apply h.keep hinv hcfg (fun _ => rfl) _ _ rfl
    · intro t
      simp [Worker.Handles, ht]
    · simp [ht]
  | spawn | spawnThrows | settle => cases hown
  | @mirror t pid ht =>
    apply h.keep hinv hcfg _ _ _ rfl
    · intro a
      rw [Worker.startedAt, JsMap.get?_modify, Worker.startedAt]
      split
      · rw [Option.map_map]
        rfl
      · rfl
    · intro a
      simp [Worker.Handles, ht]
    · simp
  | append ht => exact h.append hinv hcfg ht rfl (fun _ => rfl) rfl
  | deregister ht =>
    apply h.deregister hinv hcfg ht rfl _ rfl
    intro a
    rw [Worker.startedAt, JsMap.get?_delete]
    split <;> rfl

/-- Every step keeps the invariant. -/
theorem step {e : WatchEvent} (h : s.Inv) (hstep : WatchStep s e s') : s'.Inv := by
  cases hstep with
  | worker hw hown => exact h.worker_step hw hown
  | @spawn t pid flags ending w d hw =>
    have hinv := h.worker.step hw
    cases hw with
    | spawn ht =>
      apply h.begins hinv rfl ht _ (fun _ => rfl) rfl rfl rfl (.of_spawned ..)
      simp [Worker.Handles]
  | @spawnThrows t flags msg w d hw =>
    have hinv := h.worker.step hw
    cases hw with
    | spawnThrows ht =>
      apply h.begins hinv rfl ht _ (fun _ => rfl) rfl RunOne.test_finalize RunOne.started_finalize
        (.of_threw ..)
      simp [Worker.Handles]
  | settle hrun hr hw =>
    have hinv := h.worker.step hw
    cases hw with
    | settle ht => exact h.settle hinv rfl ht rfl (fun _ => rfl) hrun hr
  | child _ _ hrun hr => exact h.child hrun hr
  | released => exact h.released _
  | exits | rejects => exact { h with }
  | poll => exact h.poll
  | tick hquiet => exact h.tick hquiet

end Inv

/-! ## The verdict -/

/-- The two settings do not change. -/
theorem settings_of_step {s s' : Watch} {e : WatchEvent} (h : WatchStep s e s') :
    s'.worker.cfg = s.worker.cfg ∧ s'.timeout = s.timeout := by
  cases h with
  | worker hw | spawn hw | spawnThrows hw => exact ⟨hw.cfg_eq, rfl⟩
  | settle _ _ hw => exact ⟨hw.cfg_eq, rfl⟩
  | child | released | rejects | exits | poll | tick => exact ⟨rfl, rfl⟩

/-- A poll that gives the worker up finds every test recorded. -/
theorem Inv.recorded_of_poll {s : Watch} (h : s.Inv)
    (hbound : (timerDelay s.timeout : Int) + 3000 ≤ s.worker.cfg.stallMs)
    (hstall : s.onPoll.result = some .stall) :
    ∀ t ∈ s.worker.cfg.all.tests, t ∈ recorded s.disk.progress := by
  intro t ht
  by_contra hrec
  have hlong : s.worker.cfg.stallMs < (s.now : Int) - s.onPoll.poll.lastGrow := by
    by_contra hnot
    simp only [onPoll] at hstall hnot
    rw [if_neg hnot] at hstall
    cases hstall
  by_cases hcount : s.poll.lastCount < (readLedger s.disk.progress).size
  · simp only [onPoll, if_pos hcount] at hlong
    omega
  · simp only [onPoll, if_neg hcount] at hlong
    rcases h.grows ⟨t, ht, hrec⟩ with hlast | hnow | ⟨a, n, ha, -, hn⟩
    · exact hcount hlast
    · omega
    · have hdeadline := (h.deadline a n ha).2
      omega

/-- A worker is given up for a stall only when nothing is left for it to do. -/
theorem recorded_of_stall {cfg : Config} {timeout : Int} {phase : Nat} {lines : List Rec}
    {es : List WatchEvent} {s : Watch}
    (hbound : (timerDelay timeout : Int) + 3000 ≤ cfg.stallMs)
    (h : Run Watch.step unrestricted (launched cfg timeout phase lines) es s)
    (hstall : s.result = some .stall) : ∀ t ∈ cfg.all.tests, t ∈ recorded s.disk.progress := by
  have hinv : s.Inv ∧ (s.worker.cfg = cfg ∧ s.timeout = timeout) ∧
      (s.result = some .stall → ∀ t ∈ cfg.all.tests, t ∈ recorded s.disk.progress) := by
    apply h.invariant (I := fun s => s.Inv ∧ (s.worker.cfg = cfg ∧ s.timeout = timeout) ∧
      (s.result = some .stall → ∀ t ∈ cfg.all.tests, t ∈ recorded s.disk.progress))
    · refine ⟨.of_launched .., ⟨rfl, rfl⟩, ?_⟩
      intro hresult
      cases hresult
    · intro u e u' ⟨hu, ⟨hcfg, htimeout⟩, _⟩ _ hstep
      obtain ⟨hnone, hstep⟩ := watchStep_of_step hstep
      obtain ⟨hcfg', htimeout'⟩ := settings_of_step hstep
      refine ⟨hu.step hstep, ⟨hcfg'.trans hcfg, htimeout'.trans htimeout⟩, ?_⟩
      cases hstep with
      | poll =>
        rw [← hcfg]
        apply hu.recorded_of_poll
        rw [hcfg, htimeout]
        exact hbound
      | exits | rejects =>
        intro hresult
        cases hresult
      | _ =>
        intro hresult
        rw [show u.result = some .stall from hresult] at hnone
        cases hnone
  exact hinv.2.2 hstall

end Watch

end CorpusRunner
