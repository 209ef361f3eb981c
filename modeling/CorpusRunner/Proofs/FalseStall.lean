import CorpusRunner.Proofs.StallBound

/-!
# A stall that is none

`STALL_MS` "must exceed TEST_TIMEOUT_MS". More is needed: a child that survives its SIGKILL is
recorded only when the reap timer fires, 3000 ms after the kill, and if `STALL_MS` is smaller
than the sum, a poll between the two finds that nothing has grown for too long. The worker that
is killed then was about to record a timeout. So the requirement is that `STALL_MS` be at least
`TEST_TIMEOUT_MS + 3000` (`Watch.noFalseStall_iff`), which the default meets.
-/

namespace CorpusRunner

namespace Watch

/-- Whatever the tests, the ledger, the children and the phase of the poll are: `runWorkerOnce`
does not give a worker up for a stall that has a test to finish. -/
def NoFalseStall (timeout stallMs : Int) : Prop :=
  ∀ (cfg : Config) (phase : Nat) (lines : List Rec) (es : List WatchEvent) (s : Watch),
    cfg.stallMs = stallMs → 0 < cfg.concurrency → 1 ≤ phase → phase ≤ 3000 →
    Run Watch.step unrestricted (launched cfg timeout phase lines) es s →
    s.result = some .stall → ∀ t ∈ cfg.all.tests, t ∈ recorded s.disk.progress

/-! ## A child that hangs -/

def hungTest : JsString := js "test-hang.js"

/-- One test, in one slot. -/
def hungConfig (stallMs : Int) : Config := ⟨⟨[hungTest], by simp⟩, 1, stallMs, 4⟩

/-- The test is running and nothing is heard of it; `cap` is when its kill timer is due, and at
`limit` comes the poll that this is about. -/
structure Hung (cap limit : Nat) (s : Watch) : Prop where
  result : s.result = none
  idle : s.worker.thread = .idle
  unstarted : s.worker.unstarted = 0
  looping : s.worker.looping = 0
  running : s.worker.canExit = false
  missing : hungTest ∉ recorded s.disk.progress
  /-- The kill timer or the reap timer is armed, and no other. -/
  run : ∃ run u, s.runs.get? hungTest = some run ∧ (∀ a, a ≠ hungTest → s.runs.get? a = none) ∧
    run.settled = false ∧ run.timers.pending = [u] ∧ s.now ≤ u.due ∧
    (u.callback = .kill ∧ u.due = cap ∨ u.callback = .reap ∧ u.due = cap + 3000)
  lastGrow : s.poll.lastGrow = 0
  counted : (readLedger s.disk.progress).size ≤ s.poll.lastCount
  next : s.now ≤ s.poll.next
  phase : ∃ k, s.poll.next + 3000 * k = limit

/-- No timer is due. -/
def Calm (s : Watch) : Prop :=
  ∀ t run, s.runs.get? t = some run → ∀ u ∈ run.timers.pending, s.now < u.due

/-- The events between the launch and the child's silence. -/
def hungStart : List WatchEvent :=
  [.worker .load, .worker .clear, .worker (.claim 0), .worker .register,
    .spawn hungTest (some 7) [] ⟨none, none⟩, .worker .mirror]

theorem exists_hung (timeout stallMs : Int) {phase limit : Nat}
    (hphase : ∃ k, phase + 3000 * k = limit) :
    ∃ s, Run Watch.step unrestricted (launched (hungConfig stallMs) timeout phase []) hungStart s ∧
      s.now = 0 ∧ s.worker.cfg = hungConfig stallMs ∧ Hung (timerDelay timeout) limit s := by
  refine ⟨_, .cons trivial rfl (.cons trivial rfl (.cons trivial rfl (.cons trivial rfl
    (.cons trivial rfl (Run.single trivial rfl))))), rfl, rfl, ?_⟩
  have hother : ∀ (run : RunOne) (a : JsString), a ≠ hungTest →
      ((JsMap.empty : JsMap JsString RunOne).set hungTest run).get? a = none := by
    intro run a ha
    rw [JsMap.get?_set, if_neg ha]
    rfl
  exact {
    result := rfl
    idle := rfl
    unstarted := rfl
    looping := rfl
    running := rfl
    missing := List.not_mem_nil
    run := ⟨_, _, rfl, hother _, rfl, rfl, Nat.zero_le _, .inl ⟨rfl, Nat.zero_add _⟩⟩
    lastGrow := rfl
    counted := Nat.le_refl _
    next := Nat.zero_le _
    phase := hphase }

namespace Hung

variable {cap limit : Nat} {s : Watch}

/-- Only the one test has timers. -/
theorem eq_run {run run' : RunOne} {t : JsString} (hrun : s.runs.get? hungTest = some run)
    (hother : ∀ a, a ≠ hungTest → s.runs.get? a = none) (hrun' : s.runs.get? t = some run') :
    run' = run := by
  by_cases ht : t = hungTest
  · rw [ht, hrun] at hrun'
    exact (Option.some.inj hrun').symm
  · rw [hother t ht] at hrun'
    cases hrun'

theorem calm_of_pending {run : RunOne} {u : Timer Callback}
    (hrun : s.runs.get? hungTest = some run) (hother : ∀ a, a ≠ hungTest → s.runs.get? a = none)
    (hpending : run.timers.pending = [u]) (hlate : s.now < u.due) : s.Calm := by
  intro t run' hrun' v hv
  rw [eq_run hrun hother hrun', hpending, List.mem_singleton] at hv
  rw [hv]
  exact hlate

/-- The kill timer fires if it is due; the child survives. -/
theorem calm (h : Hung cap limit s) (hlimit : limit ≤ cap + 3000) (hnow : s.now < limit) :
    ∃ es s', Run Watch.step unrestricted s es s' ∧ s'.now = s.now ∧ s'.worker = s.worker ∧
      Hung cap limit s' ∧ s'.Calm := by
  obtain ⟨run, u, hrun, hother, hsettled, hpending, hdue, hkind⟩ := h.run
  by_cases hlate : s.now < u.due
  · exact ⟨[], s, .refl, rfl, rfl, h, calm_of_pending hrun hother hpending hlate⟩
  · have hkill : u.callback = .kill ∧ u.due = cap := by
      rcases hkind with hkill | ⟨-, hreap⟩
      · exact hkill
      · omega
    have hmem : u ∈ run.timers.pending := by simp [hpending]
    have hfire : run.step (s.now, .fire u none) = some ((run.disarm u).onCap s.now none) := by
      simp [RunOne.step, hmem, hkill.1]
    have hleft : ((run.disarm u).onCap s.now none).timers.pending =
        [⟨run.timers.next, s.now + 3000, .reap⟩] := by
      have hcleared : (run.timers.clearTimeout (some u.id)).pending = [] := by
        simp [Timers.clearTimeout, hpending]
      exact congrArg (· ++ [⟨run.timers.next, s.now + 3000, Callback.reap⟩]) hcleared
    have hstep : s.step (.child hungTest (.fire u none)) =
        some { s with runs := s.runs.set hungTest ((run.disarm u).onCap s.now none) } := by
      have hready : s.worker.thread = .idle ∧ s.worker.unstarted = 0 ∧
          (RunEvent.fire u none).due s.now = true :=
        ⟨h.idle, h.unstarted, by simpa [RunEvent.due] using Nat.le_of_not_lt hlate⟩
      simp only [Watch.step, if_pos h.result, if_pos hready, hrun, hfire]
      rfl
    have hget : (s.runs.set hungTest ((run.disarm u).onCap s.now none)).get? hungTest =
        some ((run.disarm u).onCap s.now none) := by
      rw [JsMap.get?_set, if_pos rfl]
    have hrest : ∀ a, a ≠ hungTest →
        (s.runs.set hungTest ((run.disarm u).onCap s.now none)).get? a = none := by
      intro a ha
      rw [JsMap.get?_set, if_neg ha]
      exact hother a ha
    refine ⟨_, _, Run.single trivial hstep, rfl, rfl, { h with run := ?_ }, ?_⟩
    · refine ⟨_, _, hget, hrest, hsettled, hleft, Nat.le_add_right _ _, .inr ⟨rfl, ?_⟩⟩
      have hnow' := hkill.2
      simp only
      omega
    · exact calm_of_pending hget hrest hleft (Nat.lt_add_of_pos_right (by decide))

/-- A poll before the one at `limit` finds that `STALL_MS` has not passed. -/
theorem polled (h : Hung cap limit s) (hcalm : s.Calm) (hnow : s.now < limit)
    (hearly : (limit : Int) - 3000 ≤ s.worker.cfg.stallMs) :
    ∃ es s', Run Watch.step unrestricted s es s' ∧ s'.now = s.now ∧ s'.worker = s.worker ∧
      Hung cap limit s' ∧ s'.Calm ∧ s'.now < s'.poll.next := by
  by_cases hnext : s.now < s.poll.next
  · exact ⟨[], s, .refl, rfl, rfl, h, hcalm, hnext⟩
  · have hpoll : s.poll.next = s.now := Nat.le_antisymm (Nat.le_of_not_lt hnext) h.next
    obtain ⟨k, hk⟩ := h.phase
    obtain ⟨j, rfl⟩ : ∃ j, k = j + 1 := ⟨k - 1, by omega⟩
    have hstep : s.step .poll = some s.onPoll := by
      simp only [Watch.step, if_pos h.result, if_pos hpoll]
    have hsame : s.onPoll.poll = { s.poll with next := s.now + 3000 } := by
      simp only [onPoll, if_neg (Nat.not_lt.mpr h.counted)]
    have hresult : s.onPoll.result = none := by
      simp only [onPoll, if_neg (Nat.not_lt.mpr h.counted), h.lastGrow]
      rw [if_neg]
      omega
    refine ⟨_, _, Run.single trivial hstep, rfl, rfl, ?_, hcalm, ?_⟩
    · exact { h with
        result := hresult
        lastGrow := by
          rw [hsame]
          exact h.lastGrow
        counted := by
          rw [hsame]
          exact h.counted
        next := by
          rw [hsame]
          exact Nat.le_add_right _ _
        phase := by
          rw [hsame]
          exact ⟨j, by simp only; omega⟩ }
    · rw [hsame]
      exact Nat.lt_add_of_pos_right (by decide)

theorem ticked (h : Hung cap limit s) (hcalm : s.Calm) (hnext : s.now < s.poll.next) :
    s.step .tick = some { s with now := s.now + 1 } ∧
      Hung cap limit { s with now := s.now + 1 } := by
  obtain ⟨run, u, hrun, hother, hsettled, hpending, hdue, hkind⟩ := h.run
  have hquiet : s.quiet = true := by
    have hdrained := drained_of_not_canExit h.running
    refine quiet_iff.mpr ⟨h.idle, h.unstarted, h.looping, hdrained, hnext, ?_⟩
    intro t run' hrun'
    refine ⟨?_, hcalm t run' hrun'⟩
    rw [eq_run hrun hother hrun']
    exact hsettled
  have hstep : s.step .tick = some { s with now := s.now + 1 } := by
    simp only [Watch.step, if_pos h.result, if_pos hquiet]
  refine ⟨hstep, { h with run := ?_, next := hnext }⟩
  exact ⟨run, u, hrun, hother, hsettled, hpending, hcalm _ run hrun u (by simp [hpending]), hkind⟩

/-- A millisecond passes. -/
theorem advance (h : Hung cap limit s) (hlimit : limit ≤ cap + 3000) (hnow : s.now < limit)
    (hearly : (limit : Int) - 3000 ≤ s.worker.cfg.stallMs) :
    ∃ es s', Run Watch.step unrestricted s es s' ∧ s'.now = s.now + 1 ∧ s'.worker = s.worker ∧
      Hung cap limit s' := by
  obtain ⟨es₁, s₁, hrun₁, hnow₁, hworker₁, h₁, hcalm₁⟩ := h.calm hlimit hnow
  rw [← hnow₁] at hnow
  rw [← hworker₁] at hearly
  obtain ⟨es₂, s₂, hrun₂, hnow₂, hworker₂, h₂, hcalm₂, hnext₂⟩ := h₁.polled hcalm₁ hnow hearly
  obtain ⟨hstep, h₃⟩ := h₂.ticked hcalm₂ hnext₂
  refine ⟨_, _, (hrun₁.trans hrun₂).snoc trivial hstep, ?_, hworker₂.trans hworker₁, h₃⟩
  simp only [hnow₂, hnow₁]

/-- The time of the poll comes. -/
theorem wait (h : Hung cap limit s) (hlimit : limit ≤ cap + 3000)
    (hearly : (limit : Int) - 3000 ≤ s.worker.cfg.stallMs) :
    ∀ n, s.now + n ≤ limit → ∃ es s', Run Watch.step unrestricted s es s' ∧ s'.now = s.now + n ∧
      s'.worker = s.worker ∧ Hung cap limit s' := by
  intro n
  induction n with
  | zero => exact fun _ => ⟨[], s, .refl, rfl, rfl, h⟩
  | succ n ih =>
    intro hn
    obtain ⟨es₁, s₁, hrun₁, hnow₁, hworker₁, h₁⟩ := ih (by omega)
    rw [← hworker₁] at hearly
    obtain ⟨es₂, s₂, hrun₂, hnow₂, hworker₂, h₂⟩ := h₁.advance hlimit (by omega) hearly
    exact ⟨_, s₂, hrun₁.trans hrun₂, by omega, hworker₂.trans hworker₁, h₂⟩

/-- The poll at `limit` gives the worker up. -/
theorem stalls (h : Hung cap limit s) (hnow : s.now = limit)
    (hlate : s.worker.cfg.stallMs < (limit : Int)) :
    ∃ s', s.step .poll = some s' ∧ s'.result = some .stall ∧ s'.disk = s.disk := by
  have hpoll : s.poll.next = s.now := by
    obtain ⟨k, hk⟩ := h.phase
    have hnext := h.next
    omega
  refine ⟨s.onPoll, by simp only [Watch.step, if_pos h.result, if_pos hpoll], ?_, rfl⟩
  simp only [onPoll, if_neg (Nat.not_lt.mpr h.counted), h.lastGrow]
  rw [if_pos]
  omega

end Hung

/-- A poll that comes after `STALL_MS` and not after the reap timer gives a worker up that has a
test to finish. -/
theorem exists_falseStall {timeout stallMs : Int} {phase limit : Nat}
    (hphase : ∃ k, phase + 3000 * k = limit) (hlate : stallMs < (limit : Int))
    (hearly : (limit : Int) - 3000 ≤ stallMs) (hlimit : limit ≤ timerDelay timeout + 3000) :
    ∃ es s, Run Watch.step unrestricted (launched (hungConfig stallMs) timeout phase []) es s ∧
      s.result = some .stall ∧ hungTest ∉ recorded s.disk.progress := by
  obtain ⟨s₀, hrun₀, hnow₀, hcfg₀, h₀⟩ := exists_hung timeout stallMs hphase
  have hstall₀ : s₀.worker.cfg.stallMs = stallMs := by
    rw [hcfg₀]
    rfl
  obtain ⟨es₁, s₁, hrun₁, hnow₁, hworker₁, h₁⟩ :=
    h₀.wait hlimit (by rw [hstall₀]; exact hearly) limit (by omega)
  have hstall₁ : s₁.worker.cfg.stallMs < (limit : Int) := by
    rw [hworker₁, hstall₀]
    exact hlate
  obtain ⟨s₂, hstep, hresult, hdisk⟩ := h₁.stalls (by omega) hstall₁
  refine ⟨_, s₂, (hrun₀.trans hrun₁).snoc trivial hstep, hresult, ?_⟩
  rw [hdisk]
  exact h₁.missing

/-! ## The requirement on `STALL_MS` -/

/-- Beyond the documented requirement, `STALL_MS` has to leave the reap timer its 3000 ms. -/
theorem noFalseStall_iff {timeout stallMs : Int} (htimeout : 1 ≤ timeout)
    (hstall : timeout < stallMs) :
    NoFalseStall timeout stallMs ↔ (timerDelay timeout : Int) + 3000 ≤ stallMs := by
  constructor
  · intro hsafe
    by_contra hshort
    -- the poll at the first millisecond after `STALL_MS`
    obtain ⟨limit, hlimit⟩ : ∃ limit : Nat, (limit : Int) = stallMs + 1 :=
      ⟨(stallMs + 1).toNat, by omega⟩
    obtain ⟨phase, hfirst, hlast, hphase⟩ :
        ∃ phase, 1 ≤ phase ∧ phase ≤ 3000 ∧ ∃ k, phase + 3000 * k = limit :=
      ⟨(limit - 1) % 3000 + 1, by omega, by omega, (limit - 1) / 3000, by omega⟩
    have hfalse : ∃ es s,
        Run Watch.step unrestricted (launched (hungConfig stallMs) timeout phase []) es s ∧
          s.result = some .stall ∧ hungTest ∉ recorded s.disk.progress :=
      exists_falseStall hphase (by omega) (by omega) (by omega)
    obtain ⟨es, s, hrun, hresult, hmissing⟩ := hfalse
    apply hmissing
    apply hsafe (hungConfig stallMs) phase [] es s rfl Int.one_pos hfirst hlast hrun hresult
    simp [hungConfig]
  · intro hbound cfg phase lines es s hcfg _ _ _ hrun hresult
    apply recorded_of_stall _ hrun hresult
    rw [hcfg]
    exact hbound

/-- With the default cap of 30 s and the default of `STALL_MS` no worker is given up wrongly. -/
theorem noFalseStall_iff_default : NoFalseStall 30000 90000 :=
  (noFalseStall_iff (by decide) (by decide)).mpr (by decide)

/-- A cap of 31 s and a `STALL_MS` that exceeds it by 1 ms, with the first poll after 3000 ms: the
poll at 33 s gives the worker up, whose test would be recorded at 34 s. -/
theorem noFalseStall_fails_reap : (1 : Int) ≤ 31000 ∧ (31000 : Int) < 31001 ∧
    (∃ es s, Run Watch.step unrestricted (launched (hungConfig 31001) 31000 3000 []) es s ∧
      s.result = some .stall ∧ hungTest ∈ (hungConfig 31001).all.tests ∧
      hungTest ∉ recorded s.disk.progress) ∧ ¬ NoFalseStall 31000 31001 := by
  have hstall : ∃ es s,
      Run Watch.step unrestricted (launched (hungConfig 31001) 31000 3000 []) es s ∧
        s.result = some .stall ∧ hungTest ∉ recorded s.disk.progress := by
    have hphase : ∃ k, 3000 + 3000 * k = 33000 := ⟨10, rfl⟩
    exact exists_falseStall hphase (by decide) (by decide) (by decide)
  obtain ⟨es, s, hrun, hresult, hmissing⟩ := hstall
  have hselected : hungTest ∈ (hungConfig 31001).all.tests := by simp [hungConfig]
  refine ⟨by decide, by decide, ⟨es, s, hrun, hresult, hselected, hmissing⟩, ?_⟩
  intro hsafe
  exact hmissing (hsafe (hungConfig 31001) 3000 [] es s rfl (by decide) (by decide) (by decide)
    hrun hresult hungTest hselected)

/-- The default of `STALL_MS` leaves the reap timer its time, whatever the cap is. -/
theorem noFalseStall_of_default (c : Corpus) (cli : Cli) (hdefault : cli.stallMs = none)
    (htimeout : 1 ≤ knob cli.testTimeoutMs 30000) :
    NoFalseStall (knob cli.testTimeoutMs 30000) (cli.config c).stallMs := by
  have hstall : (cli.config c).stallMs =
      max 90000 (knob cli.testTimeoutMs 30000 * 2 + 15000) := by
    simp [Cli.config, hdefault, knob]
  have hdelay := timerDelay_le htimeout
  intro cfg phase lines es s hcfg _ _ _ hrun hresult
  apply recorded_of_stall _ hrun hresult
  omega

end Watch

end CorpusRunner
