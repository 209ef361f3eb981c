import CorpusRunner.Misc.Simulation
import CorpusRunner.Program
import CorpusRunner.Proofs.Handoff
import CorpusRunner.Proofs.TestSelection

/-!
# The files and what they hold

A state of the program on its files matches a state of the system of lists when the texts hold
what the lists hold, and both stand at the same place. Here: the files, the registry, the targets
of a harvest, the configuration, and a worker.
-/

namespace CorpusRunner

namespace Program

/-! ## The files -/

/-- The files hold what the lists hold. -/
structure DiskMatches (d : Disk) (e : CorpusRunner.Disk) : Prop where
  progress : d.progress.getD [] = ledgerText e.progress
  named : ∀ r ∈ e.progress, r.test ≠ []
  registry : d.registry = e.inflight.map Entry.item
  listed : ∀ x ∈ e.inflight, x.test ≠ []
  results : ∀ m, e.summary = some m → ∃ rs : List Rec, rs.map Rec.result = m.results ∧
    summaryOf (rs.map Rec.toJson) m.startedAt m.finishedAt = some m ∧
    d.results = some (resultsText m (rs.map Rec.toJson))

/-- The records come back as the objects that were written for them. -/
theorem DiskMatches.ledger_eq {d : Disk} {e : CorpusRunner.Disk} (h : DiskMatches d e) :
    d.ledger = (readLedger e.progress).mapValues Rec.toJson := by
  have htext := h.progress
  rw [← readLedgerText_ledgerText h.named, ← htext, Disk.ledger]
  cases d.progress with
  | none => rfl
  | some text => rfl

theorem DiskMatches.has_eq {d : Disk} {e : CorpusRunner.Disk} (h : DiskMatches d e)
    (t : JsString) : d.ledger.has t = (readLedger e.progress).has t := by
  rw [h.ledger_eq, JsMap.has_mapValues]

theorem DiskMatches.size_eq {d : Disk} {e : CorpusRunner.Disk} (h : DiskMatches d e) :
    d.ledger.size = (readLedger e.progress).size := by
  rw [h.ledger_eq, JsMap.size_mapValues]

/-- An append of a record to both. -/
theorem DiskMatches.append {d : Disk} {e : CorpusRunner.Disk} (h : DiskMatches d e) {r : Rec}
    (hr : r.test ≠ []) : DiskMatches (d.append r) { e with progress := e.progress ++ [r] } where
  progress := by
    change d.progress.getD [] ++ appended r = _
    rw [h.progress]
    simp [ledgerText]
  named := by
    intro r' hr'
    rcases List.mem_append.mp hr' with hr' | hr'
    · exact h.named r' hr'
    · obtain rfl := List.mem_singleton.mp hr'
      exact hr
  registry := h.registry
  listed := h.listed
  results := h.results

/-- A whole-file write of the registry to both. -/
theorem DiskMatches.write {d : Disk} {e : CorpusRunner.Disk} (h : DiskMatches d e)
    {inflight : Option JsString} {entries : List Entry}
    (hread : Disk.registry { d with inflight } = entries.map Entry.item)
    (hlisted : ∀ x ∈ entries, x.test ≠ []) :
    DiskMatches { d with inflight } { e with inflight := entries } where
  progress := h.progress
  named := h.named
  registry := hread
  listed := hlisted
  results := h.results

/-! ## The results -/

theorem member_status (r : Rec) :
    r.toJson.member (js "status") = some (.string r.status.text) := by
  have hne : ∀ {k v} {m : JsString × Json}, m ∈ optional k v → js k ≠ js "status" →
      m.1 ≠ js "status" := by
    intro k v m hm hk
    rwa [mem_optional hm]
  rw [Rec.toJson, Json.member_cons_of_ne (by decide)]
  cases r with
  | ran r =>
    have hsplit : (Rec.ran r).details = (js "status", .string r.status.toStatus.text) ::
        ([(js "durationMs", .number (.ofInt r.durationMs)),
          (js "exitCode", (r.exitCode.map (fun c => .number (.ofInt c))).getD .null)] ++
        (optional "signal" (r.signal.map .string) ++
        (optional "flags" (if r.flags = [] then none else some (.array (r.flags.map .string))) ++
        optional "tail" (r.tail.map .string)))) := by
      simp [Rec.details]
    rw [hsplit]
    apply Json.member_first
    intro m hm
    simp only [List.mem_append, List.mem_cons, List.not_mem_nil, or_false] at hm
    rcases hm with (rfl | rfl) | hm | hm | hm
    · change js "durationMs" ≠ _; decide
    · change js "exitCode" ≠ _; decide
    · exact hne hm (by decide)
    · exact hne hm (by decide)
    · exact hne hm (by decide)
  | crashMark t note =>
    apply Json.member_first
    intro m hm
    simp only [List.mem_cons, List.not_mem_nil, or_false] at hm
    rcases hm with rfl | rfl
    · change js "durationMs" ≠ _; decide
    · change js "note" ≠ _; decide

theorem ofJson_text (st : Status) : Status.ofJson (some (.string st.text)) = some st :=
  Status.ofJson_eq_some.mpr rfl

/-- The object of a record is summed up as the record. -/
theorem result_toJson (r : Rec) : Json.result r.toJson = some r.result := by
  rw [Json.result, Rec.member_test, member_status, ofJson_text]
  rfl

theorem mapM_result_toJson (rs : List Rec) :
    (rs.map Rec.toJson).mapM Json.result = some (rs.map Rec.result) := by
  rw [List.mapM_map]
  exact mapM_eq_some_map fun r _ => result_toJson r

/-- The selected entries. -/
theorem DiskMatches.selectedResults {d : Disk} {e : CorpusRunner.Disk} (h : DiskMatches d e)
    (all : List JsString) : Program.selectedResults all d =
      (all.filterMap (readLedger e.progress).get?).map Rec.toJson := by
  rw [Program.selectedResults, h.ledger_eq, List.map_filterMap]
  simp only [JsMap.get?_mapValues]

/-- The selected entries are found by their names, so both reports are written. -/
theorem exists_writeOutputs (minutes : Int → JsString) (all : List JsString)
    (startedAt now : Int) (d : Disk) :
    ∃ m, summaryOf (Program.selectedResults all d) startedAt now = some m ∧
      Program.writeOutputs minutes all startedAt now d = some (m,
        { d with results := some (resultsText m (Program.selectedResults all d))
                 summary := some (summaryMd minutes m) }) := by
  have hnamed : ∀ e ∈ Program.selectedResults all d,
      ∃ t, e.member (js "test") = some (.string t) := by
    intro e he
    obtain ⟨t, -, ht⟩ := List.mem_filterMap.mp he
    refine ⟨t, ?_⟩
    unfold Disk.ledger at ht
    split at ht
    · cases ht
    · exact member_of_get?_readLedgerText ht
  obtain ⟨m, hm⟩ := exists_summaryOf_iff.mpr hnamed
  exact ⟨m, hm, by rw [Program.writeOutputs, hm, Option.map_some]⟩

/-- The end of a run on both. -/
theorem DiskMatches.writeOutputs {d : Disk} {e : CorpusRunner.Disk} (h : DiskMatches d e)
    (minutes : Int → JsString) (all : List JsString) (startedAt now : Int) :
    ∃ m d', Program.writeOutputs minutes all startedAt now d = some (m, d') ∧ DiskMatches d'
      { e with summary := some (CorpusRunner.writeOutputs all e.progress startedAt now) } := by
  have hresults := h.selectedResults all
  have hsummary : summaryOf (Program.selectedResults all d) startedAt now =
      some (CorpusRunner.writeOutputs all e.progress startedAt now) := by
    rw [hresults]
    exact summaryOf_eq_some.mpr ⟨_, mapM_result_toJson _, rfl⟩
  obtain ⟨m, hm, hwrite⟩ := exists_writeOutputs minutes all startedAt now d
  obtain rfl := Option.some.inj (hsummary.symm.trans hm)
  refine ⟨_, _, hwrite, ?_⟩
  exact {
    progress := h.progress
    named := h.named
    registry := h.registry
    listed := h.listed
    results := by
      rintro m ⟨⟩
      rw [hresults] at hsummary ⊢
      exact ⟨_, rfl, hsummary, rfl⟩ }

/-! ## The registry -/

/-- What is read of a `pid` again. -/
def PidField.plain : PidField → Option Pid
  | .null => none
  | .undefined => none
  | .pid n => some n

def Reg.plain (v : Reg) : CorpusRunner.Reg := ⟨v.startedAt, v.pid.plain⟩

@[simp] theorem plain_of (pid : Option Pid) : (PidField.of pid).plain = pid := by
  cases pid <;> rfl

theorem ofJson_toJson {test : JsString} (h : test ≠ []) (v : Reg) :
    Item.ofJson (v.toJson test) = some (Entry.item ⟨test, v.startedAt, v.pid.plain⟩) := by
  obtain ⟨c, t, rfl⟩ := List.exists_cons_of_ne_nil h
  obtain ⟨startedAt, pid⟩ := v
  cases pid <;> rfl

/-- The registry is read as what the worker's map holds. -/
theorem readInflightText_registryText {m : JsMap JsString Reg} (h : ∀ t ∈ m.keys, t ≠ []) :
    readInflightText (registryText m) =
      (CorpusRunner.registry (m.mapValues Reg.plain)).map Entry.item := by
  have key : ∀ entries : List (JsString × Reg), (∀ e ∈ entries, e.1 ≠ []) →
      (entries.map (fun e => e.2.toJson e.1)).filterMap Item.ofJson =
        entries.map (fun e => Entry.item ⟨e.1, e.2.startedAt, e.2.pid.plain⟩) := by
    intro entries
    induction entries with
    | nil => exact fun _ => rfl
    | cons e entries ih =>
      intro hne
      rw [List.map_cons, List.filterMap_cons_some (ofJson_toJson (hne e (by simp)) e.2),
        ih fun e' he' => hne e' (by simp [he']), List.map_cons]
  rw [registryText, readInflightText_array, key _ fun e he => h _ (List.mem_map_of_mem he)]
  simp only [CorpusRunner.registry, JsMap.mapValues, List.map_map]
  rfl

/-! ## The targets of a harvest -/

theorem started_item (e : Entry) : e.item.started JsonNumber.value = (e.startedAt : Rat) := by
  change (JsonNumber.ofNat e.startedAt).value = _
  rw [JsonNumber.ofNat, value_ofInt]
  rfl

/-- The harvest chooses the same elements. -/
theorem harvestTargets_item (b : Bool) (entries : List Entry) {done : JsMap JsString Json}
    {done' : JsMap JsString Rec} (h : ∀ t, done.has t = done'.has t) :
    harvestTargets b (entries.map Entry.item) done =
      (CorpusRunner.harvestTargets b entries done').map Entry.item := by
  apply targetsOf_map Entry.item b entries
  · exact fun _ => rfl
  · intro a b
    rw [started_item, started_item, Nat.cast_le]
  · exact h

/-! ## The configuration -/

/-- No selected test has an empty name, and none is selected twice. -/
theorem all_spec {h : Host} {s : Settings} {all : List JsString} (hall : s.all h = some all) :
    (∀ t ∈ all, t ≠ []) ∧ all.Nodup := by
  unfold Settings.all Host.resolveTestSet at hall
  split at hall
  · obtain rfl := Option.some.inj hall
    exact ⟨fun _ ht => ne_nil_of_mem_resolveTestSet ht, resolveTestSet_nodup _ _ _ _⟩
  · obtain ⟨text, -, rfl⟩ := Option.map_eq_some_iff.mp hall
    exact ⟨fun _ ht => ne_nil_of_mem_resolveTestSet ht, resolveTestSet_nodup _ _ _ _⟩

/-- The constants of a supervisor and of the one it matches. -/
structure SettingsMatch (h : Host) (s : Settings) (all : List JsString) (cfg : Config) :
    Prop where
  resolved : s.all h = some all
  all : cfg.all.tests = all
  concurrency : cfg.concurrency = s.concurrency
  stallMs : cfg.stallMs = s.stallMs
  maxNoProgress : cfg.maxNoProgress = s.maxNoProgress

/-! ## The worker -/

structure WorkerMatches (h : Host) (w : Worker) (v : CorpusRunner.Worker) : Prop where
  /-- What it was handed is what it will take it for. -/
  handed : ∃ c, workerCfg (some w.corpusCfg) = some c ∧ c.all h = some v.cfg.all.tests ∧
    c.concurrency = v.cfg.concurrency
  named : ∀ t ∈ v.cfg.all.tests, t ≠ []
  thread : v.thread = w.thread
  queue : v.queue = w.queue
  unstarted : v.unstarted = w.unstarted
  looping : v.looping = w.looping
  inFlight : v.inFlight = w.inFlight.mapValues Reg.plain
  claimed : ∀ t ∈ w.queue, t ≠ []
  running : ∀ t ∈ w.inFlight.keys, t ≠ []
  settled : ∀ r, w.thread = .settled r → r.test ≠ []

theorem WorkerMatches.launched {h : Host} {s : Settings} {all : List JsString} {cfg : Config}
    (hs : SettingsMatch h s all cfg) :
    WorkerMatches h (.launched s.corpusCfg) (.launched cfg) where
  handed := by
    refine ⟨s.handed, workerCfg_corpusCfg s, ?_, hs.concurrency.symm⟩
    rw [handed_all, hs.resolved]
    exact congrArg some hs.all.symm
  named := by
    intro t ht
    exact (all_spec hs.resolved).1 t (hs.all ▸ ht)
  thread := rfl
  queue := rfl
  unstarted := rfl
  looping := rfl
  inFlight := rfl
  claimed := by simp [Worker.launched]
  running := by simp [Worker.launched]
  settled := by simp [Worker.launched]

/-- The two workers take the same slot. -/
theorem WorkerMatches.takeSlot {h : Host} {w : Worker} {v : CorpusRunner.Worker}
    (hw : WorkerMatches h w v) : Option.Rel (WorkerMatches h) w.takeSlot v.takeSlot := by
  rw [Worker.takeSlot, CorpusRunner.Worker.takeSlot, hw.unstarted, hw.looping]
  cases nextSlot w.unstarted w.looping with
  | none => exact .none
  | some n => exact .some { hw with unstarted := rfl, looping := rfl }

theorem WorkerMatches.canExit_eq {h : Host} {w : Worker} {v : CorpusRunner.Worker}
    (hw : WorkerMatches h w v) : v.canExit = w.canExit := by
  simp only [Worker.canExit, CorpusRunner.Worker.canExit, hw.thread, hw.unstarted, hw.looping,
    hw.inFlight, JsMap.keys_mapValues]

end Program

end CorpusRunner
