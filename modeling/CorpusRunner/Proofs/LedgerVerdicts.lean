import CorpusRunner.Proofs.RecordTruth

/-!
# The worker's lines are its children's

Under watch the handlers of all running tests take turns with the worker's own steps and with the
clock. Whatever the order, a test has at most one call of `runOne`, none if the ledger had it
already, and the line that the worker appends for it is what that call resolves with on the events
of the test's own child: the children do not mix (`Watch.ledger_of_children`).
-/

namespace CorpusRunner

/-! ## What a run under watch says about one test -/

/-- The milliseconds that the event takes. -/
def WatchEvent.millis : WatchEvent → Nat
  | .tick => 1
  | _ => 0

/-- The test whose call the event makes or goes on with. -/
def WatchEvent.about : WatchEvent → Option JsString
  | .spawn t .. | .spawnThrows t .. | .child t _ => some t
  | _ => none

def elapsed (es : List WatchEvent) : Nat := (es.map WatchEvent.millis).sum

/-- The events, each with the time at which it comes. -/
def timed (now : Nat) : List WatchEvent → List (Nat × WatchEvent)
  | [] => []
  | e :: es => (now, e) :: timed (now + e.millis) es

/-- The call of `runOne` for the test that the event makes. -/
def makesCall (timeout : Int) (t : JsString) : Nat × WatchEvent → Option RunOne
  | (now, .spawn t' _ flags ending) =>
    if t' = t then some (.spawned t flags ending timeout now) else none
  | (now, .spawnThrows t' flags msg) => if t' = t then some (.threw t flags msg now) else none
  | _ => none

/-- The handler of the test's call that the event runs. -/
def runsHandler (t : JsString) : Nat × WatchEvent → Option (Nat × RunEvent)
  | (now, .child t' e) => if t' = t then some (now, e) else none
  | _ => none

/-- The calls of `runOne` that are made for the test. -/
def calls (timeout : Int) (es : List WatchEvent) (t : JsString) : List RunOne :=
  (timed 0 es).filterMap (makesCall timeout t)

/-- What the handlers of the test's call get to see. -/
def childEvents (es : List WatchEvent) (t : JsString) : List (Nat × RunEvent) :=
  (timed 0 es).filterMap (runsHandler t)

theorem elapsed_snoc (es : List WatchEvent) (e : WatchEvent) :
    elapsed (es ++ [e]) = elapsed es + e.millis := by
  simp [elapsed]

theorem timed_snoc (now : Nat) (es : List WatchEvent) (e : WatchEvent) :
    timed now (es ++ [e]) = timed now es ++ [(now + elapsed es, e)] := by
  induction es generalizing now with
  | nil => rfl
  | cons a es ih => simp [timed, ih, elapsed, Nat.add_assoc]

section Snoc

variable {timeout : Int} {es : List WatchEvent} {e : WatchEvent} {t : JsString}

theorem calls_snoc : calls timeout (es ++ [e]) t =
    calls timeout es t ++ (makesCall timeout t (elapsed es, e)).toList := by
  rw [calls, timed_snoc, List.filterMap_append, Nat.zero_add]
  rfl

theorem childEvents_snoc :
    childEvents (es ++ [e]) t = childEvents es t ++ (runsHandler t (elapsed es, e)).toList := by
  rw [childEvents, timed_snoc, List.filterMap_append, Nat.zero_add]
  rfl

/-- An event about another test, or about none. -/
theorem calls_of_about_ne (h : e.about ≠ some t) :
    calls timeout (es ++ [e]) t = calls timeout es t := by
  have hnone : makesCall timeout t (elapsed es, e) = none := by
    cases e with
    | spawn | spawnThrows => exact if_neg fun heq => h (congrArg some heq)
    | _ => rfl
  rw [calls_snoc, hnone]
  exact List.append_nil _

theorem childEvents_of_about_ne (h : e.about ≠ some t) :
    childEvents (es ++ [e]) t = childEvents es t := by
  have hnone : runsHandler t (elapsed es, e) = none := by
    cases e with
    | child => exact if_neg fun heq => h (congrArg some heq)
    | _ => rfl
  rw [childEvents_snoc, hnone]
  exact List.append_nil _

theorem about_ne (h : e.about = none) (a : JsString) : e.about ≠ some a := by
  rw [h]
  simp

theorem calls_of_about_none (h : e.about = none) (a : JsString) :
    calls timeout (es ++ [e]) a = calls timeout es a :=
  calls_of_about_ne (about_ne h a)

theorem childEvents_of_about_none (h : e.about = none) (a : JsString) :
    childEvents (es ++ [e]) a = childEvents es a :=
  childEvents_of_about_ne (about_ne h a)

end Snoc

/-- The record is what the only call for its test resolves with, on the events of its own child,
and says nothing of it that is not so. -/
def RecordOf (timeout : Int) (es : List WatchEvent) (r : RunRec) : Prop :=
  ∃ call run, calls timeout es r.test = [call] ∧
    Run RunOne.step unrestricted call (childEvents es r.test) run ∧ run.resolved = [r] ∧
    run.Truthful (timerDelay timeout) (childEvents es r.test) r

theorem RecordOf.frame {timeout : Int} {es : List WatchEvent} {e : WatchEvent} {r : RunRec}
    (h : RecordOf timeout es r) (habout : e.about ≠ some r.test) :
    RecordOf timeout (es ++ [e]) r := by
  rw [RecordOf, calls_of_about_ne habout, childEvents_of_about_ne habout]
  exact h

/-! ## The invariant -/

namespace Watch

/-- What is known after the events, when the worker has appended the records. -/
structure Traced (cfg : Config) (timeout : Int) (lines : List Rec) (rs : List RunRec)
    (es : List WatchEvent) (s : Watch) : Prop where
  inv : s.Inv
  settings : s.worker.cfg = cfg ∧ s.timeout = timeout
  clock : s.now = elapsed es
  progress : s.disk.progress = lines ++ rs.map .ran
  nodup : (rs.map RunRec.test).Nodup
  selected : ∀ r ∈ rs, r.test ∈ cfg.all.tests ∧ r.test ∉ recorded lines
  records : ∀ r ∈ rs, RecordOf timeout es r
  /-- The record that is about to be appended. -/
  settled : ∀ r, s.worker.thread = .settled r → RecordOf timeout es r
  awaited : ∀ t run, s.runs.get? t = some run → ∃ call, calls timeout es t = [call] ∧
    Run RunOne.step unrestricted call (childEvents es t) run ∧
    run.Told s.now (timerDelay timeout) (childEvents es t)
  /-- A call that has been made is awaited, handed over or recorded. -/
  made : ∀ t, calls timeout es t ≠ [] →
    t ∈ s.runs.keys ∨ (∃ r, s.worker.thread = .settled r ∧ r.test = t) ∨ t ∈ rs.map RunRec.test
  /-- Only a call has handlers. -/
  silent : ∀ t, calls timeout es t = [] → childEvents es t = []

namespace Traced

variable {cfg : Config} {timeout : Int} {lines : List Rec} {rs : List RunRec}
  {es : List WatchEvent} {s s' : Watch} {e : WatchEvent}

theorem of_launched (cfg : Config) (timeout : Int) (phase : Nat) (lines : List Rec) :
    Traced cfg timeout lines [] [] (launched cfg timeout phase lines) where
  inv := .of_launched ..
  settings := ⟨rfl, rfl⟩
  clock := rfl
  progress := (List.append_nil lines).symm
  nodup := .nil
  selected := by simp
  records := by simp
  settled := by
    intro r h
    cases h
  awaited := by
    intro t run h
    cases h
  made := fun _ h => absurd rfl h
  silent := fun _ _ => rfl

/-- A test in flight is selected, and as long as its record is not appended, not recorded. -/
theorem of_inFlight (h : Traced cfg timeout lines rs es s) {t : JsString}
    (ht : t ∈ s.worker.inFlight.keys) (hthread : s.worker.thread ≠ .appended t) :
    t ∈ cfg.all.tests ∧ t ∉ recorded lines ∧ t ∉ rs.map RunRec.test := by
  have hrec : t ∉ recorded s.disk.progress := by
    rw [h.inv.worker.held t ht]
    exact hthread
  rw [h.progress, recorded_append, List.mem_append, not_or] at hrec
  refine ⟨?_, hrec.1, ?_⟩
  · rw [← h.settings.1]
    exact h.inv.worker.order.subset (List.mem_append_left _ ht)
  · simpa [recorded, Function.comp_def] using hrec.2

/-- An awaited test is in flight, and the thread is not at it. -/
theorem of_awaited (h : Traced cfg timeout lines rs es s) {t : JsString} {run : RunOne}
    (hrun : s.runs.get? t = some run) :
    t ∈ s.worker.inFlight.keys ∧ s.worker.thread ≠ .appended t := by
  refine ⟨Worker.mem_keys_iff_startedAt.mpr ⟨_, (h.inv.runs t run hrun).2.2⟩, ?_⟩
  intro happended
  rw [h.inv.handled t (.inr (.inr (.inl happended)))] at hrun
  cases hrun

/-- A step in which no call is made, goes on or is handed over, and no record appended. -/
theorem keep (h : Traced cfg timeout lines rs es s) (hinv : s'.Inv) (habout : e.about = none)
    (hset : s'.worker.cfg = s.worker.cfg ∧ s'.timeout = s.timeout)
    (hclock : s'.now = s.now + e.millis) (hprogress : s'.disk.progress = s.disk.progress)
    (hruns : s'.runs = s.runs)
    (hthread : ∀ r, s'.worker.thread = .settled r ↔ s.worker.thread = .settled r)
    (htold : ∀ t run es', s.runs.get? t = some run →
      run.Told s.now (timerDelay timeout) es' → run.Told s'.now (timerDelay timeout) es') :
    Traced cfg timeout lines rs (es ++ [e]) s' := by
  have hcalls : ∀ t, calls timeout (es ++ [e]) t = calls timeout es t := calls_of_about_none habout
  have hevents : ∀ t, childEvents (es ++ [e]) t = childEvents es t :=
    childEvents_of_about_none habout
  exact {
    inv := hinv
    settings := ⟨hset.1.trans h.settings.1, hset.2.trans h.settings.2⟩
    clock := by rw [elapsed_snoc, hclock, h.clock]
    progress := hprogress.trans h.progress
    nodup := h.nodup
    selected := h.selected
    records := fun r hr => (h.records r hr).frame (about_ne habout _)
    settled := fun r hr => (h.settled r ((hthread r).mp hr)).frame (about_ne habout _)
    awaited := by
      intro t run hrun
      rw [hruns] at hrun
      obtain ⟨call, hcall, hrun', htold'⟩ := h.awaited t run hrun
      rw [hcalls, hevents]
      exact ⟨call, hcall, hrun', htold t run _ hrun htold'⟩
    made := by
      simp only [hcalls, hruns, hthread]
      exact h.made
    silent := by
      simp only [hcalls, hevents]
      exact h.silent }

/-- The record that is at hand is appended. -/
theorem append {w : Worker} {d : Disk} {r : RunRec} (h : Traced cfg timeout lines rs es s)
    (hinv : ({ s with worker := w, disk := d } : Watch).Inv) (habout : e.about = none)
    (hmillis : e.millis = 0) (hcfg : w.cfg = s.worker.cfg) (hat : s.worker.thread = .settled r)
    (hthread : w.thread = .appended r.test)
    (hprogress : d.progress = s.disk.progress ++ [.ran r]) :
    Traced cfg timeout lines (rs ++ [r]) (es ++ [e]) { s with worker := w, disk := d } := by
  have hcalls : ∀ t, calls timeout (es ++ [e]) t = calls timeout es t := calls_of_about_none habout
  have hevents : ∀ t, childEvents (es ++ [e]) t = childEvents es t :=
    childEvents_of_about_none habout
  have hflight : r.test ∈ s.worker.inFlight.keys := by
    simpa [Worker.ThreadOk, hat] using h.inv.worker.thread
  obtain ⟨hselected, hlines, hnew⟩ := h.of_inFlight hflight (by simp [hat])
  exact {
    inv := hinv
    settings := ⟨hcfg.trans h.settings.1, h.settings.2⟩
    clock := by rw [elapsed_snoc, hmillis, ← h.clock]; rfl
    progress := by
      simp only [hprogress, h.progress, List.map_append, List.map_cons, List.map_nil,
        List.append_assoc]
    nodup := by
      rw [List.map_append, List.map_singleton, List.nodup_append]
      refine ⟨h.nodup, by simp, ?_⟩
      intro a ha b hb hab
      rw [List.mem_singleton.mp hb] at hab
      exact hnew (hab ▸ ha)
    selected := by
      intro a ha
      rcases List.mem_append.mp ha with ha | ha
      · exact h.selected a ha
      · rw [List.mem_singleton.mp ha]
        exact ⟨hselected, hlines⟩
    records := by
      intro a ha
      rcases List.mem_append.mp ha with ha | ha
      · exact (h.records a ha).frame (about_ne habout _)
      · rw [List.mem_singleton.mp ha]
        exact (h.settled r hat).frame (about_ne habout _)
    settled := by
      intro a ha
      rw [show w.thread = .settled a from ha] at hthread
      cases hthread
    awaited := by
      simp only [hcalls, hevents]
      exact h.awaited
    made := by
      intro t ht
      rw [hcalls] at ht
      rcases h.made t ht with hrun | ⟨a, ha, rfl⟩ | hrec
      · exact .inl hrun
      · obtain rfl : r = a := Thread.settled.inj (hat.symm.trans ha)
        exact .inr (.inr (by simp))
      · exact .inr (.inr (by simp [hrec]))
    silent := by
      simp only [hcalls, hevents]
      exact h.silent }

/-- A promise is handed over. -/
theorem settle {w : Worker} {t : JsString} {run : RunOne} {r : RunRec}
    (h : Traced cfg timeout lines rs es s)
    (hinv : ({ s with worker := w, runs := s.runs.delete t } : Watch).Inv)
    (hcfg : w.cfg = s.worker.cfg) (hidle : s.worker.thread = .idle)
    (hthread : w.thread = .settled r) (hrun : s.runs.get? t = some run) (hr : r ∈ run.resolved) :
    Traced cfg timeout lines rs (es ++ [.settle t])
      { s with worker := w, runs := s.runs.delete t } := by
  have habout : (WatchEvent.settle t).about = none := rfl
  have hcalls : ∀ a, calls timeout (es ++ [.settle t]) a = calls timeout es a :=
    calls_of_about_none habout
  have hevents : ∀ a, childEvents (es ++ [.settle t]) a = childEvents es a :=
    childEvents_of_about_none habout
  obtain ⟨call, hcall, hcallRun, htold⟩ := h.awaited t run hrun
  have htest : r.test = t := (htold.onTime.tests r hr).trans (h.inv.runs t run hrun).1
  have hof : RecordOf timeout es r := by
    refine ⟨call, run, ?_, ?_, ?_, ?_⟩
    · rw [htest]
      exact hcall
    · rw [htest]
      exact hcallRun
    · -- what is resolved with anything is settled
      cases hs : run.settled with
      | false => simp [htold.onTime.once.unresolved hs] at hr
      | true =>
        obtain ⟨r', hr'⟩ := htold.onTime.once.resolved hs
        rw [hr', List.mem_singleton] at hr
        rw [hr', hr]
    · rw [htest]
      exact htold.records r hr
  exact {
    inv := hinv
    settings := ⟨hcfg.trans h.settings.1, h.settings.2⟩
    clock := by rw [elapsed_snoc, ← h.clock]; rfl
    progress := h.progress
    nodup := h.nodup
    selected := h.selected
    records := fun a ha => (h.records a ha).frame (about_ne habout _)
    settled := by
      intro a ha
      obtain rfl : r = a := Thread.settled.inj (hthread.symm.trans ha)
      exact hof.frame (about_ne habout _)
    awaited := by
      intro a run' hrun'
      rw [JsMap.get?_delete] at hrun'
      split at hrun'
      · cases hrun'
      · rw [hcalls, hevents]
        exact h.awaited a run' hrun'
    made := by
      intro a ha
      rw [hcalls] at ha
      rcases h.made a ha with hawaited | ⟨r', hr', -⟩ | hrec
      · by_cases hat : a = t
        · exact .inr (.inl ⟨r, hthread, htest.trans hat.symm⟩)
        · left
          rw [JsMap.keys_delete, List.mem_filter]
          exact ⟨hawaited, by simpa using hat⟩
      · rw [hidle] at hr'
        cases hr'
      · exact .inr (.inr hrec)
    silent := by
      simp only [hcalls, hevents]
      exact h.silent }

/-- The test that is about to get its child has none yet. -/
theorem calls_of_registered (h : Traced cfg timeout lines rs es s) {t : JsString}
    (ht : s.worker.thread = .registered t) : calls timeout es t = [] := by
  by_contra hcalls
  have hflight : t ∈ s.worker.inFlight.keys := by
    simpa [Worker.ThreadOk, ht] using h.inv.worker.thread
  rcases h.made t hcalls with hawaited | ⟨r, hr, -⟩ | hrec
  · obtain ⟨run, hrun⟩ := JsMap.mem_keys_iff_get?.mp hawaited
    rw [h.inv.handled t (.inr (.inl ht))] at hrun
    cases hrun
  · rw [ht] at hr
    cases hr
  · exact (h.of_inFlight hflight (by simp [ht])).2.2 hrec

/-- `runOne` is called. -/
theorem begins {w : Worker} {d : Disk} {t : JsString} {run : RunOne} {held : List JsString}
    (h : Traced cfg timeout lines rs es s)
    (hinv : ({ s with worker := w, disk := d, runs := s.runs.set t run, held } : Watch).Inv)
    (habout : e.about = some t) (hmillis : e.millis = 0)
    (hmakes : makesCall timeout t (elapsed es, e) = some run)
    (hquiet : runsHandler t (elapsed es, e) = none) (hcfg : w.cfg = s.worker.cfg)
    (ht : s.worker.thread = .registered t) (hthread : ∀ r, w.thread ≠ .settled r)
    (hprogress : d.progress = s.disk.progress) (htold : run.Told s.now (timerDelay timeout) []) :
    Traced cfg timeout lines rs (es ++ [e])
      { s with worker := w, disk := d, runs := s.runs.set t run, held } := by
  have hnone := h.calls_of_registered ht
  have hcall : calls timeout (es ++ [e]) t = [run] := by
    rw [calls_snoc, hnone, hmakes]
    rfl
  have hevents : childEvents (es ++ [e]) t = [] := by
    rw [childEvents_snoc, h.silent t hnone, hquiet]
    rfl
  have hne : ∀ {a}, a ≠ t → e.about ≠ some a := by
    intro a ha heq
    rw [habout] at heq
    exact ha (Option.some.inj heq).symm
  -- a record is of a test that has had its call
  have hother : ∀ {r}, RecordOf timeout es r → r.test ≠ t := by
    rintro r ⟨call, -, hc, -⟩ rfl
    rw [hnone] at hc
    cases hc
  exact {
    inv := hinv
    settings := ⟨hcfg.trans h.settings.1, h.settings.2⟩
    clock := by rw [elapsed_snoc, hmillis, ← h.clock]; rfl
    progress := hprogress.trans h.progress
    nodup := h.nodup
    selected := h.selected
    records := fun r hr => (h.records r hr).frame (hne (hother (h.records r hr)))
    settled := fun r hr => absurd hr (hthread r)
    awaited := by
      intro a run' hrun'
      rw [JsMap.get?_set] at hrun'
      split at hrun'
      · rename_i hat
        obtain rfl := Option.some.inj hrun'
        rw [hat, hcall, hevents]
        exact ⟨run, rfl, .refl, htold⟩
      · rename_i hat
        rw [calls_of_about_ne (hne hat), childEvents_of_about_ne (hne hat)]
        exact h.awaited a run' hrun'
    made := by
      intro a ha
      by_cases hat : a = t
      · exact .inl (JsMap.mem_keys_set.mpr (.inr hat))
      · rw [calls_of_about_ne (hne hat)] at ha
        rcases h.made a ha with hawaited | ⟨r, hr, -⟩ | hrec
        · exact .inl (JsMap.mem_keys_set.mpr (.inl hawaited))
        · rw [ht] at hr
          cases hr
        · exact .inr (.inr hrec)
    silent := by
      intro a ha
      by_cases hat : a = t
      · rw [hat]
        exact hevents
      · rw [calls_of_about_ne (hne hat)] at ha
        rw [childEvents_of_about_ne (hne hat)]
        exact h.silent a ha }

/-- A handler of an awaited test runs. -/
theorem child {t : JsString} {run run' : RunOne} {e : RunEvent}
    (h : Traced cfg timeout lines rs es s)
    (hinv : ({ s with runs := s.runs.set t run' } : Watch).Inv)
    (hidle : s.worker.thread = .idle) (hdue : e.due s.now = true)
    (hrun : s.runs.get? t = some run) (hstep : RunStep run s.now e run') :
    Traced cfg timeout lines rs (es ++ [.child t e]) { s with runs := s.runs.set t run' } := by
  have hcalls : ∀ a, calls timeout (es ++ [.child t e]) a = calls timeout es a := by
    intro a
    rw [calls_snoc]
    exact List.append_nil _
  have hevents : childEvents (es ++ [.child t e]) t = childEvents es t ++ [(s.now, e)] := by
    rw [childEvents_snoc, h.clock, runsHandler, if_pos rfl]
    rfl
  have hne : ∀ {a}, a ≠ t → (WatchEvent.child t e).about ≠ some a :=
    fun ha heq => ha (Option.some.inj heq).symm
  obtain ⟨hflight, hthread⟩ := h.of_awaited hrun
  exact {
    inv := hinv
    settings := h.settings
    clock := by rw [elapsed_snoc, ← h.clock]; rfl
    progress := h.progress
    nodup := h.nodup
    selected := h.selected
    records := by
      intro r hr
      -- the records so far are of other tests
      have hnew := (h.of_inFlight hflight hthread).2.2
      refine (h.records r hr).frame (hne ?_)
      rintro rfl
      exact hnew (List.mem_map.mpr ⟨r, hr, rfl⟩)
    settled := by
      intro r hr
      rw [show s.worker.thread = .settled r from hr] at hidle
      cases hidle
    awaited := by
      intro a run'' hrun''
      rw [hcalls]
      rw [JsMap.get?_set] at hrun''
      split at hrun''
      · rename_i hat
        obtain rfl := Option.some.inj hrun''
        obtain ⟨call, hcall, hcallRun, htold⟩ := h.awaited t run hrun
        rw [hat, hevents]
        exact ⟨call, hcall, hcallRun.snoc trivial hstep.step_eq, htold.step hdue hstep⟩
      · rename_i hat
        rw [childEvents_of_about_ne (hne hat)]
        exact h.awaited a run'' hrun''
    made := by
      intro a ha
      rw [hcalls] at ha
      rcases h.made a ha with hawaited | hsettled | hrec
      · exact .inl (JsMap.mem_keys_set.mpr (.inl hawaited))
      · exact .inr (.inl hsettled)
      · exact .inr (.inr hrec)
    silent := by
      intro a ha
      rw [hcalls] at ha
      have hat : a ≠ t := by
        rintro rfl
        obtain ⟨call, hcall, -⟩ := h.awaited a run hrun
        rw [ha] at hcall
        cases hcall
      rw [childEvents_of_about_ne (hne hat)]
      exact h.silent a ha }

/-- The worker's own steps: one of them appends the record that is at hand, and the others leave
the records and the calls alone. -/
theorem worker_step {e : WorkerEvent} {w : Worker} {d : Disk}
    (h : Traced cfg timeout lines rs es s) (hstep : WorkerStep s.worker s.disk e w d)
    (hown : e.own s.now = true) : ∃ rs', Traced cfg timeout lines rs' (es ++ [.worker e])
      { s with worker := w, disk := d } := by
  have hinv := h.inv.step (.worker hstep hown)
  have hcfg := hstep.cfg_eq
  have hkeep : d.progress = s.disk.progress →
      (∀ r, w.thread = .settled r ↔ s.worker.thread = .settled r) →
      ∃ rs', Traced cfg timeout lines rs' (es ++ [.worker e])
        { s with worker := w, disk := d } :=
    fun hprogress hthread =>
      ⟨rs, h.keep hinv rfl ⟨hcfg, rfl⟩ rfl hprogress rfl hthread (fun _ _ _ _ => id)⟩
  cases hstep with
  | append ht => exact ⟨_, h.append hinv rfl rfl hcfg ht rfl rfl⟩
  | slotEnd ht _ hs =>
    apply hkeep rfl
    obtain ⟨-, hthread, -⟩ := Worker.takeSlot_frame hs
    simp [hthread]
  | spawn | spawnThrows | settle => cases hown
  | load ht | clear ht | clearRejects ht | claim ht | register ht | mirror ht | deregister ht =>
    apply hkeep rfl
    simp [ht]

/-- Every step keeps the invariant. -/
theorem step (h : Traced cfg timeout lines rs es s) (hstep : WatchStep s e s') :
    ∃ rs', Traced cfg timeout lines rs' (es ++ [e]) s' := by
  have hinv := h.inv.step hstep
  cases hstep with
  | worker hw hown => exact h.worker_step hw hown
  | @spawn t pid flags ending w d hw =>
    have hmakes : makesCall timeout t (elapsed es, .spawn t pid flags ending) =
        some (.spawned t flags ending s.timeout s.now) := by
      rw [makesCall, if_pos rfl, h.clock, h.settings.2]
    have htold := RunOne.Told.of_spawned t flags ending timeout s.now
    rw [← h.settings.2] at htold
    have hcfg := hw.cfg_eq
    cases hw with
    | spawn ht =>
      refine ⟨rs, h.begins hinv rfl rfl hmakes rfl hcfg ht (by simp) rfl ?_⟩
      rw [← h.settings.2]
      exact htold
  | @spawnThrows t flags msg w d hw =>
    have hmakes : makesCall timeout t (elapsed es, .spawnThrows t flags msg) =
        some (.threw t flags msg s.now) := by
      rw [makesCall, if_pos rfl, h.clock]
    have hcfg := hw.cfg_eq
    cases hw with
    | spawnThrows ht =>
      exact ⟨rs, h.begins hinv rfl rfl hmakes rfl hcfg ht (by simp) rfl (.of_threw ..)⟩
  | settle hrun hr hw =>
    have hcfg := hw.cfg_eq
    cases hw with
    | settle ht => exact ⟨rs, h.settle hinv hcfg ht rfl hrun hr⟩
  | child hidle hdue hrun hr => exact ⟨rs, h.child hinv hidle hdue hrun hr⟩
  | released | rejects | exits | poll =>
    exact ⟨rs, h.keep hinv rfl ⟨rfl, rfl⟩ rfl rfl rfl (fun _ => .rfl) (fun _ _ _ _ => id)⟩
  | tick hquiet =>
    refine ⟨rs, h.keep hinv rfl ⟨rfl, rfl⟩ rfl rfl rfl (fun _ => .rfl) ?_⟩
    intro t run es' hrun htold
    exact htold.tick ((quiet_iff.mp hquiet).2.2.2.2.2 t run hrun).2

theorem run {phase : Nat}
    (h : Run Watch.step unrestricted (launched cfg timeout phase lines) es s) :
    ∃ rs, Traced cfg timeout lines rs es s := by
  refine h.traceInvariant (I := fun es s => ∃ rs, Traced cfg timeout lines rs es s) ?_ ?_
  · exact ⟨[], .of_launched ..⟩
  · intro es u e u' ⟨rs, hu⟩ _ hstep
    exact hu.step (watchStep_of_step hstep).2

end Traced

/-- However the handlers of the running tests take turns with the worker and the clock, whose
timers fire when they are due: what the worker has appended are records of different tests, each
of them what the one call of `runOne` for its test resolves with on the events of that test's child
alone, and true of it (`RunOne.Truthful`; the cap is the delay of the kill timer). A call is made
only for a selected test that the ledger did not have, at most one for a test, and its outcome is
on the ledger or the test is still in flight. -/
theorem ledger_of_children {cfg : Config} {timeout : Int} {phase : Nat} {lines : List Rec}
    {es : List WatchEvent} {s : Watch}
    (h : Run Watch.step unrestricted (launched cfg timeout phase lines) es s) :
    ∃ rs : List RunRec, s.disk.progress = lines ++ rs.map .ran ∧ (rs.map RunRec.test).Nodup ∧
      (∀ r ∈ rs, RecordOf timeout es r) ∧
      ∀ t, calls timeout es t = [] ∨ (∃ call, calls timeout es t = [call]) ∧
        t ∈ cfg.all.tests ∧ t ∉ recorded lines ∧
        (t ∈ rs.map RunRec.test ∨ t ∈ s.worker.inFlight.keys) := by
  obtain ⟨rs, htraced⟩ := Traced.run h
  refine ⟨rs, htraced.progress, htraced.nodup, htraced.records, ?_⟩
  intro t
  by_cases hcalls : calls timeout es t = []
  · exact .inl hcalls
  · right
    rcases htraced.made t hcalls with hawaited | ⟨r, hr, rfl⟩ | hrec
    · obtain ⟨run, hrun⟩ := JsMap.mem_keys_iff_get?.mp hawaited
      obtain ⟨call, hcall, -⟩ := htraced.awaited t run hrun
      obtain ⟨hflight, hthread⟩ := htraced.of_awaited hrun
      obtain ⟨hselected, hnew, -⟩ := htraced.of_inFlight hflight hthread
      exact ⟨⟨call, hcall⟩, hselected, hnew, .inr hflight⟩
    · obtain ⟨call, -, hcall, -⟩ := htraced.settled r hr
      have hflight : r.test ∈ s.worker.inFlight.keys := by
        simpa [Worker.ThreadOk, hr] using htraced.inv.worker.thread
      obtain ⟨hselected, hnew, -⟩ := htraced.of_inFlight hflight (by simp [hr])
      exact ⟨⟨call, hcall⟩, hselected, hnew, .inr hflight⟩
    · obtain ⟨r, hr, rfl⟩ := List.mem_map.mp hrec
      obtain ⟨call, -, hcall, -⟩ := htraced.records r hr
      obtain ⟨hselected, hnew⟩ := htraced.selected r hr
      exact ⟨⟨call, hcall⟩, hselected, hnew, .inl hrec⟩

/-! ## Two tests at once -/

def slowTest : JsString := js "test-slow.js"

def fastTest : JsString := js "test-fast.js"

/-- Both in flight, and a cap of 1 ms. -/
def mixedConfig : Config := ⟨⟨[slowTest, fastTest], by decide⟩, 2, 31000, 4⟩

/-- The test that is claimed first is killed at its cap; the other one ends before that. -/
def mixedEvents : List WatchEvent :=
  [.worker .load, .worker .clear, .worker (.claim 0), .worker .register,
    .spawn slowTest (some 7) [] ⟨none, some (js "SIGKILL")⟩, .worker .mirror,
    .worker (.claim 0), .worker .register,
    .spawn fastTest (some 8) [] ⟨some 0, none⟩, .worker .mirror,
    .child slowTest (.stdout [0x61]), .child fastTest .exit, .child fastTest .close,
    .settle fastTest, .worker .append, .worker .deregister, .worker .slotEnd,
    .tick, .child slowTest (.fire ⟨0, 1, .kill⟩ none), .child slowTest .close,
    .settle slowTest, .worker .append]

/-- The lines stand in the order in which the tests settle, and each is its own test's. -/
theorem ledger_of_children_mixed : ∃ (s : Watch) (rs : List RunRec),
    Run Watch.step unrestricted (launched mixedConfig 1 3000 []) mixedEvents s ∧
      s.disk.progress = rs.map .ran ∧
      s.disk.progress.map Rec.test = [fastTest, slowTest] ∧
      (∀ r ∈ rs, RecordOf 1 mixedEvents r) ∧
      childEvents mixedEvents slowTest = [(0, .stdout [0x61]), (1, .fire ⟨0, 1, .kill⟩ none),
        (1, .close)] := by
  have hrun : ∃ s, Run Watch.step unrestricted (launched mixedConfig 1 3000 []) mixedEvents s ∧
      s.disk.progress.map Rec.test = [fastTest, slowTest] :=
    ⟨_, run_of_execute rfl, rfl⟩
  obtain ⟨s, hrun, htests⟩ := hrun
  obtain ⟨rs, hprogress, -, hrecords, -⟩ := ledger_of_children hrun
  exact ⟨s, rs, hrun, hprogress, htests, hrecords, rfl⟩

end Watch

end CorpusRunner
