import CorpusRunner.IntrospectServer
import CorpusRunner.Misc.JsonRead
import CorpusRunner.Misc.Utf8Encode
import CorpusRunner.Proofs.IntrospectDriver

/-!
# What is served of a report

Requests come at any time between the steps of the driver. The reports that are served are
snapshots that only grow: a test that has an entry keeps it, what the probe has found stays, and a
report that says `DONE` or `ERROR` is the last one (`served_reports`).
-/

namespace CorpusRunner

namespace Introspect

/-! ## The report grows -/

/-- `tests`, `pass` and `fail` of the summary. -/
def countsOf (tests : List TestEntry) : Nat × Nat × Nat :=
  let pass := (tests.filter (fun t => decide (t.status = .pass))).length
  (tests.length, pass, tests.length - pass)

structure Report.Grows (old new : Report) : Prop where
  tests : old.tests <+: new.tests
  probe : old.probe = .pending ∨ new.probe = old.probe
  flagMatrix : old.flagMatrix = none ∨ new.flagMatrix = old.flagMatrix
  status : old.status = .running ∨ new = old

theorem Report.Grows.refl (r : Report) : r.Grows r :=
  ⟨List.prefix_rfl, .inr rfl, .inr rfl, .inr rfl⟩

theorem Report.Grows.trans {a b c : Report} (h : a.Grows b) (h' : b.Grows c) : a.Grows c where
  tests := h.tests.trans h'.tests
  probe := by
    rcases h.probe with hpending | heq
    · exact .inl hpending
    · exact heq ▸ h'.probe
  flagMatrix := by
    rcases h.flagMatrix with hnone | heq
    · exact .inl hnone
    · exact heq ▸ h'.flagMatrix
  status := by
    rcases h.status with hrunning | rfl
    · exact .inl hrunning
    · exact h'.status

namespace Driver

variable {s s' : Driver} {e : DriverEvent}

/-- What the stage says about the parts of the report that are set once. -/
structure Ready (s : Driver) : Prop where
  probe : s.stage = .probe → s.report.probe = .pending
  flagMatrix : s.stage = .probe ∨ (∃ rs, s.stage = .matrix rs) → s.report.flagMatrix = none
  status : s.stage = .ended ↔ s.report.status ≠ .running
  call : s.stage = .ended → s.call = none
  summary : s.report.status = .done → s.report.summary = some (countsOf s.report.tests)

theorem ready_start (files : Files) : (start files).Ready where
  probe := fun _ => rfl
  flagMatrix := fun _ => rfl
  status := by simp [start]
  call := by simp [start]
  summary := by simp [start]

theorem grows_fail (h : s.report.status = .running) (exn : Exn) :
    s.report.Grows (s.fail exn).report :=
  ⟨List.prefix_rfl, .inr rfl, .inr rfl, .inl h⟩

theorem ready_fail (hcall : s.call = none) (exn : Exn) : (s.fail exn).Ready where
  probe := by simp [fail]
  flagMatrix := by simp [fail]
  status := by simp [fail]
  call := fun _ => hcall
  summary := by simp [fail]

/-- The head of the loop sets neither the probe nor the flag matrix. -/
theorem next_spec (hcall : s.call = none) (hstatus : s.report.status = .running)
    (ids : List JsString) (i : Nat) :
    (s.next ids i).Ready ∧ s.report.Grows (s.next ids i).report := by
  unfold next
  split
  · refine ⟨⟨by simp [finish], by simp [finish], by simp [finish], fun _ => hcall, fun _ => rfl⟩,
      ?_⟩
    exact ⟨List.prefix_rfl, .inr rfl, .inr rfl, .inl hstatus⟩
  · simp only
    split
    · refine ⟨ready_fail ?_ _, ⟨List.prefix_rfl, .inr rfl, .inr rfl, .inl hstatus⟩⟩
      exact hcall
    · refine ⟨⟨by simp, by simp, by simp [hstatus], by simp, by simp [hstatus]⟩, ?_⟩
      exact ⟨List.prefix_rfl, .inr rfl, .inr rfl, .inl hstatus⟩

theorem resume_spec (h : s.Ready) (hcall : s.call = none) (hstage : s.stage ≠ .ended)
    (r : Outcome) : (s.resume r).Ready ∧ s.report.Grows (s.resume r).report := by
  have hstatus : s.report.status = .running := by
    by_contra hne
    exact hstage (h.status.mpr hne)
  cases hs : s.stage with
  | probe =>
    simp only [resume, hs]
    have hmatrix := h.flagMatrix (.inl hs)
    refine ⟨⟨by simp, fun _ => hmatrix, by simp [hstatus], by simp, by simp [hstatus]⟩, ?_⟩
    exact ⟨List.prefix_rfl, .inl (h.probe hs), .inr rfl, .inl hstatus⟩
  | matrix results =>
    have hmatrix := h.flagMatrix (.inr ⟨_, hs⟩)
    simp only [resume, hs]
    split
    · refine ⟨⟨by simp, fun _ => hmatrix, by simp [hstatus], by simp, by simp [hstatus]⟩, ?_⟩
      exact Report.Grows.refl _
    · split
      · refine ⟨ready_fail ?_ _, ⟨List.prefix_rfl, .inr rfl, .inl hmatrix, .inl hstatus⟩⟩
        exact hcall
      · have hset : s.report.Grows { s.report with flagMatrix := some (.of (results ++ [r])) } :=
          ⟨List.prefix_rfl, .inr rfl, .inl hmatrix, .inl hstatus⟩
        obtain ⟨hready, hgrows⟩ := next_spec
          (s := { s with report := { s.report with flagMatrix := some (.of (results ++ [r])) } })
          hcall hstatus _ 0
        exact ⟨hready, hset.trans hgrows⟩
  | test ids i id flags =>
    simp only [resume, hs]
    have hset : s.report.Grows { s.report with tests := s.report.tests ++ [.of id flags r] } :=
      ⟨List.prefix_append _ _, .inr rfl, .inr rfl, .inl hstatus⟩
    obtain ⟨hready, hgrows⟩ := next_spec
      (s := { s with report := { s.report with tests := s.report.tests ++ [.of id flags r] } })
      hcall hstatus ids (i + 1)
    exact ⟨hready, hset.trans hgrows⟩
  | ended => exact absurd hs hstage

/-- A step of the driver lets the report grow. -/
theorem Ready.step (h : s.Ready) (hs : Step s e s') : s'.Ready ∧ s.report.Grows s'.report := by
  cases hs with
  | spawn hcall hcommand =>
    refine ⟨⟨h.probe, h.flagMatrix, h.status, ?_, h.summary⟩, .refl _⟩
    intro hended
    cases (command_ended hended).symm.trans hcommand
  | child hcall _ =>
    refine ⟨⟨h.probe, h.flagMatrix, h.status, ?_, h.summary⟩, .refl _⟩
    intro hended
    cases (h.call hended).symm.trans hcall
  | resolved hcall _ =>
    have hstage : s.stage ≠ .ended := by
      intro hended
      cases (h.call hended).symm.trans hcall
    exact resume_spec (s := { s with call := none })
      ⟨h.probe, h.flagMatrix, h.status, fun _ => rfl, h.summary⟩ rfl hstage _
  | rejected hcall _ =>
    have hstatus : s.report.status = .running := by
      by_contra hne
      cases (h.call (h.status.mpr hne)).symm.trans hcall
    exact ⟨ready_fail rfl _, grows_fail hstatus _⟩

/-- A report that says so has an entry for every test. -/
theorem Reached.done {files : Files} {es : List DriverEvent} (h : Reached files es s)
    (hready : s.Ready) (hdone : s.report.status = .done) : s.entries = files.listed := by
  have hended : s.stage = .ended := hready.status.mpr (by simp [hdone])
  rcases h.place with ⟨hgood, -⟩ | ⟨hlost, -⟩
  · have hplace := hgood.place
    simp only [Place, hended] at hplace
    rw [← h.same]
    exact hplace.2.2.1
  · rcases hlost.way with ⟨hne, -⟩ | ⟨-, -, herror⟩
    · exact absurd hended hne
    · cases hdone.symm.trans herror

end Driver

/-! ## A client -/

def Json.code? : Json → Option (Option Int)
  | .null => some none
  | v => v.int?.map some

def TestStatus.ofText (s : JsString) : Option TestStatus :=
  if s = js "TIMEOUT" then some .timeout
  else if s = js "PASS" then some .pass
  else if s = js "FAIL" then some .fail
  else none

def TestEntry.ofJson (v : Json) : Option TestEntry := do
  let test ← v.at_ "test" Json.string?
  let flags ← v.at_ "flags" (Json.items? Json.string?)
  let exit ← v.at_ "exit" Json.code?
  let status ← v.at_ "status" (fun s => s.string?.bind TestStatus.ofText)
  let stderrTail ← v.at_ "stderrTail" Json.string?
  pure { test, flags, exit, status, stderrTail }

/-- What a client takes from a report. -/
structure View where
  status : JsString
  probe : Json
  tests : List TestEntry
  /-- `tests`, `pass` and `fail` of the summary. -/
  summary : Option (Nat × Nat × Nat)

def Report.view (r : Report) : View :=
  { status := r.status.text, probe := r.probe.toJson, tests := r.tests, summary := r.summary }

theorem code?_codeJson (code : Option Int) : Json.code? (codeJson code) = some code := by
  cases code with
  | none => rfl
  | some n =>
    rw [codeJson, Json.code?, int?_ofInt]
    · rfl
    · simp

theorem TestEntry.ofJson_toJson (t : TestEntry) : TestEntry.ofJson t.toJson = some t := by
  have htest : t.toJson.at_ "test" Json.string? = some t.test := rfl
  have hflags : t.toJson.at_ "flags" (Json.items? Json.string?) = some t.flags :=
    items?_map fun _ _ => rfl
  have hexit : t.toJson.at_ "exit" Json.code? = some t.exit := code?_codeJson t.exit
  have hstatus : t.toJson.at_ "status" (fun s => s.string?.bind TestStatus.ofText) =
      some t.status := by
    have htext : TestStatus.ofText t.status.text = some t.status := by
      cases t.status <;> rfl
    exact htext
  have htail : t.toJson.at_ "stderrTail" Json.string? = some t.stderrTail := rfl
  rw [TestEntry.ofJson, htest, hflags, hexit, hstatus, htail]
  rfl

theorem members_toJson (h : Host) (finishedAt : Option Int) (r : Report) :
    (r.toJson h finishedAt).member (js "status") = some (.string r.status.text) ∧
    (r.toJson h finishedAt).member (js "probe") = some r.probe.toJson ∧
    (r.toJson h finishedAt).member (js "tests") = some (.array (r.tests.map TestEntry.toJson)) ∧
    (r.toJson h finishedAt).member (js "summary") = r.summary.map summaryJson := by
  cases hmatrix : r.flagMatrix <;> cases hsummary : r.summary <;> cases finishedAt <;>
    cases herror : r.error <;> simp only [Report.toJson, hmatrix, hsummary, herror] <;>
    exact ⟨rfl, rfl, rfl, rfl⟩

def readSummary (v : Json) : Option (Nat × Nat × Nat) := do
  let tests ← v.at_ "tests" Json.nat?
  let pass ← v.at_ "pass" Json.nat?
  let fail ← v.at_ "fail" Json.nat?
  pure (tests, pass, fail)

theorem readSummary_summaryJson (m : Nat × Nat × Nat) : readSummary (summaryJson m) = some m := by
  obtain ⟨tests, pass, fail⟩ := m
  have htests : (summaryJson (tests, pass, fail)).at_ "tests" Json.nat? = some tests :=
    nat?_ofInt tests
  have hpass : (summaryJson (tests, pass, fail)).at_ "pass" Json.nat? = some pass :=
    nat?_ofInt pass
  have hfail : (summaryJson (tests, pass, fail)).at_ "fail" Json.nat? = some fail :=
    nat?_ofInt fail
  rw [readSummary, htests, hpass, hfail]
  rfl

def View.ofJson (v : Json) : Option View := do
  let status ← v.at_ "status" Json.string?
  let probe ← v.member (js "probe")
  let tests ← v.at_ "tests" (Json.items? TestEntry.ofJson)
  pure { status, probe, tests, summary := v.at_ "summary" readSummary }

/-- A body, as a client reads it. -/
def View.read (body : List UInt8) : Option View := (jsonParse (decodeUtf8 body)).bind View.ofJson

/-- A client reads the report that is served. -/
theorem View.read_toJson (h : Host) (finishedAt : Option Int) (r : Report) :
    View.read (encodeUtf8 (stringifyIndent 0 (r.toJson h finishedAt))) = some r.view := by
  have hread : jsonParse (decodeUtf8 (encodeUtf8 (stringifyIndent 0 (r.toJson h finishedAt) ++
      []))) = some (r.toJson h finishedAt) := jsonParse_indentBytes _ rfl (by simp)
  rw [List.append_nil] at hread
  obtain ⟨hstatus, hprobe, htests, hsummary⟩ := members_toJson h finishedAt r
  have hitems : Json.items? TestEntry.ofJson (.array (r.tests.map TestEntry.toJson)) =
      some r.tests := items?_map fun t _ => TestEntry.ofJson_toJson t
  have hcounts : (r.summary.map summaryJson).bind readSummary = r.summary := by
    cases r.summary with
    | none => rfl
    | some m => exact readSummary_summaryJson m
  rw [View.read, hread, Option.bind_some, View.ofJson]
  simp only [Json.at_, hstatus, hprobe, htests, hsummary, hcounts, Option.bind_some, hitems]
  rfl

/-! ## The bodies that are served -/

/-- A report and its `finishedAt`, as they are when a request comes. -/
abbrev Snapshot := Report × Option Int

def Snapshot.body (h : Host) (snap : Snapshot) : JsString :=
  stringifyIndent 0 (snap.1.toJson h snap.2)

/-- The second snapshot is taken later. -/
def Snapshot.Before (old new : Snapshot) : Prop :=
  old.1.Grows new.1 ∧ (old.1.status ≠ .running → new = old)

/-- The answer to what is not `/file`. -/
def Response.isReport (r : Response) : Bool :=
  decide (r.statusCode = 200 ∧ r.contentType = some (js "application/json; charset=utf-8"))

/-- The bodies that are sent for reports. -/
def bodiesOf (responses : List Response) : List JsString :=
  (responses.filter Response.isReport).map Response.body

structure Serves (host : Host) (files : Files) (s : Server) : Prop where
  same : s.host = host
  ready : s.driver.Ready
  reached : ∃ ds, s.driver.Reached files ds
  seen : ∃ seen : List Snapshot, bodiesOf s.responses = seen.map (Snapshot.body host) ∧
    seen.Pairwise Snapshot.Before ∧ ∀ snap ∈ seen, snap.Before (s.driver.report, s.finishedAt)

variable {s s' : Server} {e : ServerEvent} {host : Host} {files : Files}

theorem serves_start (host : Host) (files : Files) : Serves host files (.start host files) where
  same := rfl
  ready := Driver.ready_start files
  reached := ⟨[], rfl, .inl ⟨Driver.good_start files, by simp⟩⟩
  seen := ⟨[], rfl, .nil, by simp⟩

/-- A report that is done is never touched again. -/
theorem Driver.Ready.running {d d' : Driver} {e : DriverEvent} (h : d.Ready)
    (hs : Driver.Step d e d') : d.report.status = .running := by
  by_contra hne
  have hended := h.status.mpr hne
  cases hs with
  | spawn _ hcommand => cases (Driver.command_ended hended).symm.trans hcommand
  | child hcall _ => cases (h.call hended).symm.trans hcall
  | resolved hcall _ => cases (h.call hended).symm.trans hcall
  | rejected hcall _ => cases (h.call hended).symm.trans hcall

theorem bodiesOf_answer (s : Server) (url : Url) : bodiesOf [s.answer url] = [] ∨
    bodiesOf [s.answer url] = [Snapshot.body s.host (s.driver.report, s.finishedAt)] := by
  rcases url with e | ⟨pathname, p⟩
  · exact .inl rfl
  · simp only [Server.answer]
    split
    · split <;> exact .inl rfl
    · exact .inr rfl

theorem Serves.step (h : Serves host files s) (hs : s.step e = some s') :
    Serves host files s' := by
  obtain ⟨seen, hbodies, hpairs, hall⟩ := h.seen
  cases e with
  | driver e now =>
    obtain ⟨d, hd, rfl⟩ := Option.map_eq_some_iff.mp hs
    have hstep := Driver.step_of_eq hd
    obtain ⟨ds, hreached⟩ := h.reached
    obtain ⟨hready, hgrows⟩ := h.ready.step hstep
    refine ⟨h.same, hready, ⟨_, hreached.step hstep⟩, seen, hbodies, hpairs, ?_⟩
    intro snap hsnap
    obtain ⟨hold, hsame⟩ := hall snap hsnap
    refine ⟨hold.trans hgrows, fun hne => ?_⟩
    have hnow := congrArg Prod.fst (hsame hne)
    rw [← hnow, h.ready.running hstep] at hne
    exact absurd rfl hne
  | request url =>
    obtain rfl := Option.some.inj hs
    have hself : Snapshot.Before (s.driver.report, s.finishedAt)
        (s.driver.report, s.finishedAt) := ⟨.refl _, fun _ => rfl⟩
    have hbodies' : bodiesOf (s.responses ++ [s.answer url]) =
        seen.map (Snapshot.body host) ++ bodiesOf [s.answer url] := by
      rw [← hbodies]
      simp [bodiesOf]
    rcases bodiesOf_answer s url with heq | heq
    · rw [heq, List.append_nil] at hbodies'
      exact ⟨h.same, h.ready, h.reached, seen, hbodies', hpairs, hall⟩
    · rw [heq, h.same] at hbodies'
      refine ⟨h.same, h.ready, h.reached, seen ++ [(s.driver.report, s.finishedAt)], ?_, ?_, ?_⟩
      · rw [List.map_append]
        exact hbodies'
      · rw [List.pairwise_append]
        refine ⟨hpairs, List.pairwise_singleton _ _, ?_⟩
        intro snap hsnap new hnew
        rw [List.mem_singleton.mp hnew]
        exact hall snap hsnap
      · intro snap hsnap
        rcases List.mem_append.mp hsnap with hsnap | hsnap
        · exact hall snap hsnap
        · rw [List.mem_singleton.mp hsnap]
          exact hself

theorem serves_of_run {es : List ServerEvent}
    (h : Run Server.step unrestricted (.start host files) es s) : Serves host files s :=
  h.invariant (serves_start host files) fun _ _ _ ht _ hs => ht.step hs

theorem text_eq_done {status : ReportStatus} (h : status.text = js "DONE") : status = .done := by
  cases status with
  | running => exact absurd h (by decide)
  | done => rfl
  | error => exact absurd h (by decide)

/-- What two clients see, one after the other. -/
theorem views_of_before (h : Host) {old new : Snapshot} (hbefore : old.Before new) :
    ∃ v w, View.read (encodeUtf8 (Snapshot.body h old)) = some v ∧
      View.read (encodeUtf8 (Snapshot.body h new)) = some w ∧ v.tests <+: w.tests ∧
      (v.probe = Probe.toJson .pending ∨ w.probe = v.probe) ∧
      (v.status ≠ js "RUNNING" → Snapshot.body h new = Snapshot.body h old) := by
  obtain ⟨hgrows, hlast⟩ := hbefore
  refine ⟨old.1.view, new.1.view, View.read_toJson .., View.read_toJson .., hgrows.tests, ?_, ?_⟩
  · rcases hgrows.probe with hpending | hsame
    · exact .inl (congrArg Probe.toJson hpending)
    · exact .inr (congrArg Probe.toJson hsame)
  · intro hstatus
    rw [hlast fun hrunning => hstatus (congrArg ReportStatus.text hrunning)]

/-- **Reports only grow.** Requests may come at any time between the steps of the driver, whatever
becomes of its children. Every report that is served can be read, and of two of them the later one
has the entries of the earlier one in front, and what the probe had found; a report that does not
say `RUNNING` is sent unchanged from then on. The entries are those of the first tests of the
list, in order, and of all of them in a report that says `DONE`, with their summary. -/
theorem served_reports (host : Host) (files : Files) (es : List ServerEvent) (s : Server)
    (h : Run Server.step unrestricted (.start host files) es s) :
    (bodiesOf s.responses).Pairwise (fun old new => ∃ v w,
      View.read (encodeUtf8 old) = some v ∧ View.read (encodeUtf8 new) = some w ∧
      v.tests <+: w.tests ∧ (v.probe = Probe.toJson .pending ∨ w.probe = v.probe) ∧
      (v.status ≠ js "RUNNING" → new = old)) ∧
    ∀ body ∈ bodiesOf s.responses, ∃ v, View.read (encodeUtf8 body) = some v ∧
      v.tests.map TestEntry.test <+: files.listed ∧
      (v.status = js "DONE" → v.tests.map TestEntry.test = files.listed ∧
        v.summary = some (countsOf v.tests)) := by
  have hserves := serves_of_run h
  obtain ⟨seen, hbodies, hpairs, hall⟩ := hserves.seen
  obtain ⟨ds, hreached⟩ := hserves.reached
  rw [hbodies]
  constructor
  · rw [List.pairwise_map]
    exact hpairs.imp fun hbefore => views_of_before host hbefore
  · intro body hbody
    obtain ⟨snap, hsnap, rfl⟩ := List.mem_map.mp hbody
    obtain ⟨hgrows, hlast⟩ := hall snap hsnap
    refine ⟨snap.1.view, View.read_toJson .., ?_, ?_⟩
    · exact (hgrows.tests.map TestEntry.test).trans hreached.entries_listed
    · intro hstatus
      have hdone : snap.1.status = .done := text_eq_done hstatus
      have hnow : s.driver.report = snap.1 :=
        congrArg Prod.fst (hlast (by simp [hdone]))
      rw [← hnow] at hdone ⊢
      exact ⟨hreached.done hserves.ready hdone, hserves.ready.summary hdone⟩

def quietHost : Host where
  version := js "v20.19.0"
  versions := .null
  execPath := js "/usr/local/bin/node"
  look := fun _ => .error (js "Error: ENOENT")
  readFile := fun _ => .error (js "Error: ENOENT")
  stack := fun _ => js "ReferenceError"
  startedAt := 0

/-- One test is listed. -/
def oneTest : Files where
  here := [js "home"]
  redwall := .ok (js "gc-basic\n")
  existsSync := fun _ => true
  readFileSync := fun _ => .ok (js "// Flags: --expose-gc\n")

/-- The root page is asked for before the first step and twice at the end, a file in between. -/
def pageThenRun : List ServerEvent :=
  [.request (.ok (js "/", none))] ++
  ((List.replicate 9
    [DriverEvent.spawn 0 (.child true true), .child (.close (some 0)), .settled]).flatten.map
      (.driver · 5)) ++
  [.request (.ok (js "/", none)), .request (.ok (js "/file", some (js "/x"))),
    .request (.ok (js "/", none))]

theorem served_reports_oneTest :
    ∃ s, Run Server.step unrestricted (.start quietHost oneTest) pageThenRun s ∧
      s.driver.report.status = .done ∧ (bodiesOf s.responses).length = 3 ∧
      ∀ body ∈ bodiesOf s.responses, ∃ v, View.read (encodeUtf8 body) = some v ∧
        (v.status = js "DONE" → v.tests.map TestEntry.test = [js "test-gc-basic.js"]) := by
  have hrun : (execute Server.step unrestricted (.start quietHost oneTest) pageThenRun).map
      (fun s => (s.driver.report.status, (bodiesOf s.responses).length)) = some (.done, 3) := by
    decide +kernel
  obtain ⟨s, hs, heq⟩ := Option.map_eq_some_iff.mp hrun
  have hlisted : oneTest.listed = [js "test-gc-basic.js"] := by decide +kernel
  refine ⟨s, run_of_execute hs, congrArg Prod.fst heq, congrArg Prod.snd heq, ?_⟩
  intro body hbody
  obtain ⟨v, hread, -, hdone⟩ := (served_reports _ _ _ _ (run_of_execute hs)).2 body hbody
  exact ⟨v, hread, fun hstatus => hlisted ▸ (hdone hstatus).1⟩

end Introspect

end CorpusRunner
