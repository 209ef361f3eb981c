import CorpusRunner.Proofs.WorkerInvariant
import CorpusRunner.Proofs.RunOnce
import CorpusRunner.Watch

/-!
# What a step under watch can do

`Watch.step` read backwards, and the one thing that the bound on a test's time needs to know of
the worker's own steps: which tests are in flight, and since when (`Worker.startedAt`).
-/

namespace CorpusRunner

/-- The branches of `Watch.step`. -/
inductive WatchStep (s : Watch) : WatchEvent → Watch → Prop
  | worker {e : WorkerEvent} {w : Worker} {d : Disk} (h : WorkerStep s.worker s.disk e w d)
      (hown : e.own s.now = true) : WatchStep s (.worker e) { s with worker := w, disk := d }
  | spawn {t : JsString} {pid : Option Pid} {flags : List JsString} {ending : Ending}
      {w : Worker} {d : Disk} (h : WorkerStep s.worker s.disk (.spawn t pid) w d) :
      WatchStep s (.spawn t pid flags ending)
        { s with worker := w, disk := d
                 runs := s.runs.set t (.spawned t flags ending s.timeout s.now)
                 held := s.held ++ [t] }
  | spawnThrows {t : JsString} {flags : List JsString} {msg : JsString} {w : Worker} {d : Disk}
      (h : WorkerStep s.worker s.disk (.spawnThrows t) w d) :
      WatchStep s (.spawnThrows t flags msg)
        { s with worker := w, disk := d, runs := s.runs.set t (.threw t flags msg s.now) }
  | settle {t : JsString} {run : RunOne} {r : RunRec} {w : Worker} {d : Disk}
      (hrun : s.runs.get? t = some run) (hr : r ∈ run.resolved)
      (h : WorkerStep s.worker s.disk (.settle r) w d) :
      WatchStep s (.settle t) { s with worker := w, disk := d, runs := s.runs.delete t }
  | child {t : JsString} {e : RunEvent} {run run' : RunOne} (hidle : s.worker.thread = .idle)
      (hdue : e.due s.now = true) (hrun : s.runs.get? t = some run)
      (h : RunStep run s.now e run') :
      WatchStep s (.child t e) { s with runs := s.runs.set t run' }
  | released {t : JsString} (h : s.runs.get? t = none) :
      WatchStep s (.released t) { s with held := s.held.filter (· ≠ t) }
  | rejects (h : s.worker.thread = .rejected) :
      WatchStep s .exits { s with result := some (.exit (js "1")) }
  | exits (h : s.drained = true) : WatchStep s .exits { s with result := some .done }
  | poll (h : s.poll.next = s.now) : WatchStep s .poll s.onPoll
  | tick (h : s.quiet = true) : WatchStep s .tick { s with now := s.now + 1 }

theorem Watch.advance_cases {s s' : Watch} {e : WorkerEvent} {runs : JsMap JsString RunOne}
    {held : List JsString} (h : s.advance e runs held = some s') :
    ∃ w d, WorkerStep s.worker s.disk e w d ∧
      s' = { s with worker := w, disk := d, runs, held } := by
  obtain ⟨⟨w, d⟩, hw, hs⟩ := Option.map_eq_some_iff.mp h
  exact ⟨w, d, workerStep_of_step hw, hs.symm⟩

theorem watchStep_of_step {s s' : Watch} {e : WatchEvent} (h : s.step e = some s') :
    s.result = none ∧ WatchStep s e s' := by
  unfold Watch.step at h
  split at h
  · rename_i hresult
    refine ⟨hresult, ?_⟩
    cases e with
    | worker e =>
      simp only at h
      split at h
      · rename_i hown
        obtain ⟨w, d, hw, rfl⟩ := Watch.advance_cases h
        exact .worker hw hown
      · cases h
    | spawn t pid flags ending =>
      obtain ⟨w, d, hw, rfl⟩ := Watch.advance_cases h
      exact .spawn hw
    | spawnThrows t flags msg =>
      obtain ⟨w, d, hw, rfl⟩ := Watch.advance_cases h
      exact .spawnThrows hw
    | settle t =>
      simp only at h
      split at h
      · rename_i r rest hres
        obtain ⟨run, hrun, hr⟩ := Option.map_eq_some_iff.mp hres
        obtain ⟨w, d, hw, rfl⟩ := Watch.advance_cases h
        exact .settle hrun (by simp [hr]) hw
      · cases h
    | child t e =>
      simp only at h
      split at h
      · rename_i hidle
        split at h
        · rename_i run hrun
          obtain ⟨run', hstep, hs⟩ := Option.map_eq_some_iff.mp h
          rw [← hs]
          exact .child hidle.1 hidle.2.2 hrun (runStep_of_step hstep)
        · cases h
      · cases h
    | released t =>
      simp only at h
      split at h
      · rename_i hnone
        exact Option.some.inj h ▸ .released (Option.isNone_iff_eq_none.mp hnone)
      · cases h
    | exits =>
      simp only at h
      split at h
      · rename_i hthread
        exact Option.some.inj h ▸ .rejects hthread
      · split at h
        · rename_i hdrained
          exact Option.some.inj h ▸ .exits hdrained
        · cases h
    | poll =>
      simp only at h
      split at h
      · rename_i hnext
        exact Option.some.inj h ▸ .poll hnext
      · cases h
    | tick =>
      simp only at h
      split at h
      · rename_i hquiet
        exact Option.some.inj h ▸ .tick hquiet
      · cases h
  · cases h

theorem Watch.quiet_iff {s : Watch} : s.quiet = true ↔
    s.worker.thread = .idle ∧ s.worker.unstarted = 0 ∧ s.worker.looping = 0 ∧
      s.drained = false ∧ s.now < s.poll.next ∧
      ∀ t run, s.runs.get? t = some run →
        run.settled = false ∧ ∀ u ∈ run.timers.pending, s.now < u.due := by
  simp only [Watch.quiet, Bool.and_eq_true, decide_eq_true_eq, beq_iff_eq, Bool.not_eq_true',
    List.all_eq_true, JsMap.get?_eq_some]
  constructor
  · rintro ⟨⟨⟨⟨⟨hidle, hu⟩, hl⟩, hdrained⟩, hruns⟩, hnext⟩
    exact ⟨hidle, hu, hl, hdrained, hnext, fun t run hrun => hruns _ hrun⟩
  · rintro ⟨hidle, hu, hl, hdrained, hnext, hruns⟩
    exact ⟨⟨⟨⟨⟨hidle, hu⟩, hl⟩, hdrained⟩, fun p hp => hruns p.1 p.2 hp⟩, hnext⟩

/-- A worker with a test in flight is not at its end. -/
theorem Watch.drained_of_not_canExit {s : Watch} (h : s.worker.canExit = false) :
    s.drained = false := by
  rw [Watch.drained, h, Bool.false_and]

/-! ## The tests in flight -/

namespace Worker

/-- When the test was claimed, if it is in flight. -/
def startedAt (w : Worker) (t : JsString) : Option Nat := (w.inFlight.get? t).map Reg.startedAt

theorem mem_keys_iff_startedAt {w : Worker} {t : JsString} :
    t ∈ w.inFlight.keys ↔ ∃ n, w.startedAt t = some n := by
  rw [JsMap.mem_keys_iff_get?]
  constructor
  · rintro ⟨v, hv⟩
    exact ⟨v.startedAt, by simp [startedAt, hv]⟩
  · rintro ⟨n, hn⟩
    obtain ⟨v, hv, -⟩ := Option.map_eq_some_iff.mp hn
    exact ⟨v, hv⟩

/-- Where the thread is with the test, when the worker does not await it. -/
def Handles (w : Worker) (t : JsString) : Prop :=
  w.thread = .claimed t ∨ w.thread = .registered t ∨ w.thread = .appended t ∨
    ∃ r, w.thread = .settled r ∧ r.test = t

section Handles

variable {w : Worker} {t : JsString}

theorem not_handles_of_idle (h : w.thread = .idle) (a : JsString) : ¬ w.Handles a := by
  simp [Handles, h]

theorem handles_claimed (h : w.thread = .claimed t) (a : JsString) : w.Handles a ↔ a = t := by
  simp [Handles, h, eq_comm]

theorem handles_registered (h : w.thread = .registered t) (a : JsString) :
    w.Handles a ↔ a = t := by
  simp [Handles, h, eq_comm]

theorem handles_appended (h : w.thread = .appended t) (a : JsString) : w.Handles a ↔ a = t := by
  simp [Handles, h, eq_comm]

theorem handles_settled {r : RunRec} (h : w.thread = .settled r) (a : JsString) :
    w.Handles a ↔ a = r.test := by
  simp [Handles, h, eq_comm]

end Handles

end Worker

end CorpusRunner
