import CorpusRunner.Proofs.LedgerSafety
import CorpusRunner.Proofs.ProgramRefines
import CorpusRunner.Proofs.ReportText

/-!
# The files over whole runs

What the refinement carries over from the lists to the texts: in a supervised run the text of
`progress.jsonl` is one whole line for each recorded test, it only grows, and an entry that
`readLedger` finds in it is found in every later text (`ledger_on_disk`).
-/

namespace CorpusRunner

/-- As long as no test has two lines, the tests stand in the order of their lines. -/
theorem keys_readLedger_of_nodup {lines : List Rec} (h : (recorded lines).Nodup) :
    (readLedger lines).keys = recorded lines := by
  induction lines using List.reverseRecOn with
  | nil => rfl
  | append_singleton lines r ih =>
    rw [recorded_append, recorded_singleton] at h ⊢
    have hr : r.test ∉ recorded lines := by
      intro hmem
      exact (List.nodup_append.mp h).2.2 _ hmem _ (by simp) rfl
    rw [readLedger_append, JsMap.keys_set_of_notMem (by rwa [mem_keys_readLedger]),
      ih (List.nodup_append.mp h).1]

/-- A supervisor that leaves the loop by itself has everything recorded. -/
def Leaves (s : Sys) : Prop :=
  ∀ p ∈ s.sup, p.pc = .broke false → ∀ t ∈ p.cfg.all.tests, t ∈ recorded s.disk.progress

theorem WorkerStep.recorded_subset {w w' : Worker} {d d' : Disk} {e : WorkerEvent}
    (h : WorkerStep w d e w' d') : ∀ t ∈ recorded d.progress, t ∈ recorded d'.progress := by
  cases h with
  | append => intro t ht; simp [ht]
  | _ => exact fun _ ht => ht

theorem Leaves.step {s s' : Sys} {e : Event} (h : Leaves s) (hs : s.step e = some s') :
    Leaves s' := by
  obtain ⟨d, sup, orphans, fallen, clock⟩ := s
  cases sysStep_of_step hs with
  | start cfg fresh =>
    rintro p ⟨⟩ hpc
    cases fresh <;> cases hpc
  | @sup cfg at_ now pc p' d' hsup =>
    cases hsup with
    | leave np hall =>
      rintro p ⟨⟩ -
      exact hall
    | clearCycle reason b np before after result =>
      rintro p ⟨⟩ hpc
      change tally cfg np before after result = _ at hpc
      rcases tally_cases cfg np before after result with ⟨np', htally⟩ | htally <;>
        cases htally.symm.trans hpc
    | outputs => exact fun p hp => nomatch hp
    | _ =>
      rintro p ⟨⟩ hpc
      cases hpc
  | orphan hi hw =>
    intro p hp hpc t ht
    exact hw.recorded_subset t (h p hp hpc t ht)
  | orphanExits => exact h
  | orphanDies => exact h
  | interrupt => exact fun p hp => nomatch hp
  | containerCrash => exact fun p hp => nomatch hp
  | _ =>
    rintro p ⟨⟩ hpc
    cases hpc

theorem Leaves.of_run {ok : Sys → Event → Prop} {es : List Event} {s : Sys}
    (hrun : Run Sys.step ok (Sys.idle Disk.empty) es s) : Leaves s :=
  hrun.invariant (fun _ hp => nomatch hp) fun _ _ _ h _ hs => h.step hs

namespace Program

/-- No supervisor is ended without its worker, and no run starts with `--fresh`. -/
def supervised (_ : Sys) : Event → Prop
  | .start inv => inv.fresh = false
  | .interrupt => False
  | _ => True

instance (s : Sys) : DecidablePred (supervised s)
  | .start inv => inferInstanceAs (Decidable (inv.fresh = false))
  | .interrupt => inferInstanceAs (Decidable False)
  | .sup _ | .stall | .worker _ | .workerExits | .workerDies _ | .orphan _ _ | .orphanExits _
  | .orphanDies _ | .containerCrash => inferInstanceAs (Decidable True)

/-- The tests whose child the worker has spawned and whose record it has not appended. -/
def Worker.running (w : Worker) : List JsString := w.thread.running w.inFlight.keys

theorem WorkerMatches.running_eq {h : Host} {w : Worker} {v : CorpusRunner.Worker}
    (hw : WorkerMatches h w v) : v.running = w.running := by
  rw [Worker.running, CorpusRunner.Worker.running, hw.thread, hw.inFlight, JsMap.keys_mapValues]

theorem StandsFor.supervised {h : Host} {s : Sys} {t : CorpusRunner.Sys} {e : Event}
    {e' : CorpusRunner.Event} (he : StandsFor h e e') (hok : Program.supervised s e) :
    CorpusRunner.supervised t e' := by
  cases he with
  | start => exact hok
  | interrupt => exact hok.elim
  | _ => exact trivial

/-- A supervised run is matched by one of the lists. -/
theorem supervised_matched {h : Host} {minutes : Int → JsString} {dir : AbsPath} {s s' : Sys}
    {t : CorpusRunner.Sys} {es : List Event}
    (hrun : Run (Sys.step h minutes) supervised s es s') (ht : SysMatches h dir s t) :
    ∃ es' t', Run CorpusRunner.Sys.step CorpusRunner.supervised t es' t' ∧
      SysMatches h dir s' t' := by
  obtain ⟨es', t', hrun', ht', hes'⟩ := hrun.simulate (simulates h minutes dir _) ht
  refine ⟨es', t', ?_, ht'⟩
  have hevents : ∀ e ∈ es, supervised s e := Run.events (P := supervised s) hrun
  apply Run.of_events (P := CorpusRunner.supervised t) hrun'
  intro e' he'
  obtain ⟨e, he, hstands⟩ := hes' e' he'
  exact hstands.supervised (hevents e he)

/-- The registry's text lists what the lists list. -/
theorem DiskMatches.listed_eq {d : Disk} {e : CorpusRunner.Disk} (h : DiskMatches d e) :
    d.registry.map Item.test = CorpusRunner.listed e.inflight := by
  rw [h.registry, List.map_map]
  rfl

theorem current_left {h : Host} {dir : AbsPath} {s : Sys} {t : CorpusRunner.Sys}
    (ht : SysMatches h dir s t) {w : Worker} (hw : w ∈ s.current) :
    ∃ v ∈ t.current, WorkerMatches h w v := by
  have hcurrent := current_matched ht.sup
  obtain ⟨i, hi⟩ := List.mem_iff_getElem?.mp hw
  have hrel := rel_getElem? hcurrent i
  rw [hi] at hrel
  obtain ⟨v, hv, hwv⟩ := rel_some_left hrel
  exact ⟨v, List.mem_of_getElem? hv, hwv⟩

/-- An entry that is found is the record of one line. -/
theorem DiskMatches.get?_eq {d : Disk} {e : CorpusRunner.Disk} (h : DiskMatches d e)
    (t : JsString) : d.ledger.get? t = ((readLedger e.progress).get? t).map Rec.toJson := by
  rw [h.ledger_eq, JsMap.get?_mapValues]

theorem ledgerText_isPrefix {l l' : List Rec} (h : l <+: l') : ledgerText l <+: ledgerText l' := by
  obtain ⟨k, rfl⟩ := h
  exact ⟨ledgerText k, by simp [ledgerText]⟩

/-- **The ledger on the disk.** In every state that a supervised run of a directory reaches whose
appends and writes are whole, the text of `progress.jsonl` is one whole line for each recorded
test, in the order in which they are read back; every test that the worker has spawned and not
recorded stands in the text of `inflight.json`; and in every later state the text continues this
one, and every entry that is found in this one is found unchanged. -/
theorem ledger_on_disk {h : Host} {minutes : Int → JsString} {dir : AbsPath} {s : Sys}
    {es : List Event} (hrun : Run (Sys.step h minutes) supervised (Sys.fresh dir) es s) :
    (∃ lines : List Rec, s.disk.progress.getD [] = ledgerText lines ∧
      (recorded lines).Nodup ∧ s.disk.ledger.keys = recorded lines ∧
      ∀ r ∈ lines, s.disk.ledger.get? r.test = some r.toJson) ∧
    (∀ w ∈ s.current, ∀ t ∈ w.running, t ∈ s.disk.registry.map Item.test) ∧
    ∀ es' s', Run (Sys.step h minutes) supervised s es' s' →
      s.disk.progress.getD [] <+: s'.disk.progress.getD [] ∧
      ∀ t v, s.disk.ledger.get? t = some v → s'.disk.ledger.get? t = some v := by
  obtain ⟨es₁, t, hrun₁, ht⟩ := supervised_matched hrun (sysMatches_fresh h dir)
  have hI := Sys.Inv.of_run hrun₁
  refine ⟨⟨t.disk.progress, ht.disk.progress, hI.nodup, ?_, ?_⟩, ?_, ?_⟩
  · rw [ht.disk.ledger_eq, JsMap.keys_mapValues, keys_readLedger_of_nodup hI.nodup]
  · intro r hr
    rw [ht.disk.get?_eq, get?_readLedger_of_nodup hI.nodup hr]
    rfl
  · intro w hw a ha
    obtain ⟨v, hv, hwv⟩ := current_left ht hw
    rw [ht.disk.listed_eq]
    apply running_listed hI v
    · simp [CorpusRunner.Sys.live, hv]
    · rwa [hwv.running_eq]
  · intro es' s' hrun'
    obtain ⟨es₂, t', hrun₂, ht'⟩ := supervised_matched hrun' ht
    have hI' := Sys.Inv.of_run (hrun₁.trans hrun₂)
    have hextends := progress_extends hI hrun₂
    constructor
    · rw [ht.disk.progress, ht'.disk.progress]
      exact ledgerText_isPrefix hextends
    · intro a v hv
      rw [ht.disk.get?_eq] at hv
      obtain ⟨r, hr, rfl⟩ := Option.map_eq_some_iff.mp hv
      obtain ⟨hmem, rfl⟩ := mem_of_get?_readLedger hr
      rw [ht'.disk.get?_eq, get?_readLedger_of_nodup hI'.nodup (hextends.subset hmem)]
      rfl

theorem ledger_on_disk_firstRecord :
    ∃ s, execute (Sys.step twoTestHost (fun _ => [])) supervised
        (Sys.fresh plainCall.settings.outDir) firstRecord = some s ∧
      s.disk.ledger.keys = [js "test-a.js"] ∧
      ∃ lines : List Rec, s.disk.progress.getD [] = ledgerText lines ∧ (recorded lines).Nodup := by
  have hrun : (execute (Sys.step twoTestHost (fun _ => [])) supervised
      (Sys.fresh plainCall.settings.outDir) firstRecord).map (fun s => s.disk.ledger.keys) =
      some [js "test-a.js"] := by
    decide +kernel
  obtain ⟨s, hs, hkeys⟩ := Option.map_eq_some_iff.mp hrun
  obtain ⟨⟨lines, htext, hnodup, -⟩, -⟩ := ledger_on_disk (run_of_execute hs)
  exact ⟨s, hs, hkeys, lines, htext, hnodup⟩

/-! ## The end of a run -/

/-- Where every test has an entry of its own, the entries stand in the order of the tests. -/
theorem map_test_filterMap {f : JsString → Option Rec} {all : List JsString}
    (h : ∀ t ∈ all, ∃ r, f t = some r ∧ r.test = t) :
    (all.filterMap f).map Rec.test = all := by
  induction all with
  | nil => rfl
  | cons t all ih =>
    obtain ⟨r, hr, rfl⟩ := h t (by simp)
    rw [List.filterMap_cons_some hr, List.map_cons, ih fun t' ht' => h t' (by simp [ht'])]

/-- **The report of a run.** What a supervisor writes at its end, with exact rates, is the text of
an object that has the entries which `progress.jsonl` holds of the selected tests, and their
summary; unless the run was given up, these are the entries of all selected tests, one of each. -/
theorem report_of_run {h : Host} {minutes : Int → JsString} {dir : AbsPath} {s s' : Sys}
    {es : List Event} {settings : Settings} {all : List JsString} {startedAt now : Int}
    {aborted : Bool} (hrun : Run (Sys.step h minutes) unrestricted (Sys.fresh dir) es s)
    (hsup : s.sup = some ⟨settings, all, startedAt, .broke aborted⟩)
    (hs : s.step h minutes (.sup now) = some s') :
    ∃ items rs text v, items = all.filterMap s.disk.ledger.get? ∧
      items.mapM Json.result = some rs ∧ s'.disk.results = some text ∧
      jsonParse text = some v ∧ v.member (js "results") = some (.array items) ∧
      Summary.ofJson v = some (writeJsonResults rs startedAt now) ∧
      Conserved rs (writeJsonResults rs startedAt now) ∧
      (aborted = false →
        items.map (fun e => e.member (js "test")) = all.map (fun t => some (.string t))) := by
  obtain ⟨es₁, t, hrun₁, ht, -⟩ := hrun.simulate (simulates h minutes dir _)
    (sysMatches_fresh h dir)
  have hitems : all.filterMap s.disk.ledger.get? =
      (all.filterMap (readLedger t.disk.progress).get?).map Rec.toJson :=
    ht.disk.selectedResults all
  have hrs : (all.filterMap s.disk.ledger.get?).mapM Json.result =
      some ((all.filterMap (readLedger t.disk.progress).get?).map Rec.result) := by
    rw [hitems, mapM_result_toJson]
  obtain ⟨m, hm, hwrite⟩ := exists_writeOutputs minutes all startedAt now s.disk
  have hresults : s'.disk.results =
      some (resultsText m (all.filterMap s.disk.ledger.get?)) := by
    simp only [Sys.step, hsup, Supervisor.step, hwrite, Option.some.injEq] at hs
    rw [← hs]
    rfl
  have hread := Summary.ofJson_toJson hm
  obtain ⟨rs, hrs', rfl⟩ := summaryOf_eq_some.mp hm
  obtain rfl := Option.some.inj (hrs'.symm.trans hrs)
  refine ⟨_, _, _, _, rfl, hrs, hresults,
    jsonParse_stringifyIndent _ (List.forall_mem_singleton.mpr rfl), rfl, hread, ?_, ?_⟩
  · apply conserved_of_known
    intro r hr
    obtain ⟨x, -, rfl⟩ := List.mem_map.mp hr
    exact Option.some_ne_none _
  · rintro rfl
    have hrel := ht.sup
    rw [hsup] at hrel
    obtain ⟨⟨cfg, at_, pc⟩, hq, hset, -, hpc⟩ := rel_some_left hrel
    have hpc' : pc = .broke false := by
      cases hpc
      rfl
    have hall : ∀ a ∈ all, a ∈ recorded t.disk.progress := by
      intro a ha
      exact Leaves.of_run hrun₁ _ hq hpc' a (hset.all ▸ ha)
    have htests : (all.filterMap (readLedger t.disk.progress).get?).map Rec.test = all := by
      apply map_test_filterMap
      intro a ha
      obtain ⟨r, hr⟩ := get?_readLedger_isSome (hall a ha)
      exact ⟨r, hr, (mem_of_get?_readLedger hr).2⟩
    rw [hitems]
    conv_rhs => rw [← htests]
    simp only [List.map_map, Function.comp_def, Rec.member_test]

/-- Both tests run, and nothing remains. -/
def bothTests : List Event :=
  [.start plainCall] ++ List.replicate 8 (.sup 5) ++
  [.load, .clear, .claim 1, .register, .spawn (js "test-a.js") (some 11), .mirror, .claim 2,
    .register, .spawn (js "test-b.js") none, .mirror, .slotEnd, .slotEnd,
    .settle ⟨js "test-b.js", .fail, 9, some 1, none, [], none⟩, .append, .deregister, .slotEnd,
    .settle ⟨js "test-a.js", .pass, 7, some 0, none, [], none⟩, .append, .deregister,
    .slotEnd].map Event.worker ++
  [.workerExits] ++ List.replicate 4 (.sup 9)

theorem report_of_run_bothTests :
    ∃ s s' v, execute (Sys.step twoTestHost (fun _ => [])) unrestricted
        (Sys.fresh plainCall.settings.outDir) bothTests = some s ∧
      s.step twoTestHost (fun _ => []) (.sup 9) = some s' ∧
      s'.disk.results.bind jsonParse = some v ∧
      ∃ items, v.member (js "results") = some (.array items) ∧
        items.map (fun e => e.member (js "test")) =
          [some (.string (js "test-a.js")), some (.string (js "test-b.js"))] := by
  have hrun : (execute (Sys.step twoTestHost (fun _ => [])) unrestricted
      (Sys.fresh plainCall.settings.outDir) bothTests).map (fun s => s.sup) =
      some (some ⟨plainCall.settings, [js "test-a.js", js "test-b.js"], 5, .broke false⟩) := by
    decide +kernel
  obtain ⟨s, hs, hsup⟩ := Option.map_eq_some_iff.mp hrun
  obtain ⟨s', hs'⟩ : ∃ s', s.step twoTestHost (fun _ => []) (.sup 9) = some s' := by
    obtain ⟨m, -, hwrite⟩ := exists_writeOutputs (fun _ => []) [js "test-a.js", js "test-b.js"] 5 9
      s.disk
    simp [Sys.step, hsup, Supervisor.step, hwrite]
  obtain ⟨items, rs, text, v, -, -, htext, hv, hitems, -, -, htests⟩ :=
    report_of_run (run_of_execute hs) hsup hs'
  refine ⟨s, s', v, hs, hs', ?_, items, hitems, htests rfl⟩
  rw [htext]
  exact hv

end Program

end CorpusRunner
