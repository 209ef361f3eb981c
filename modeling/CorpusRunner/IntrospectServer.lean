import CorpusRunner.Introspect
import CorpusRunner.Misc.Calendar
import CorpusRunner.Misc.JsMap
import CorpusRunner.Misc.JsonIndent

/-!
# The server of the autopsy

`introspect-serve.mjs:39-47`, `65-69` and `104-116`: the report as an object, and the server,
which answers between any two steps of the driver. How a URL is taken apart and what the file
system holds are given to it.
-/

namespace CorpusRunner

namespace Introspect

/-! ## The report as an object -/

def codeJson : Option Int → Json
  | some code => .number (.ofInt code)
  | none => .null

def Probe.toJson : Probe → Json
  | .pending => .object [(js "__pending", .bool true)]
  | .parsed v => v
  | .probeError killed exit stdoutTail stderrTail =>
    .object [(js "__probeError", .bool true), (js "killed", .bool killed),
      (js "exit", codeJson exit), (js "stdoutTail", .string stdoutTail),
      (js "stderrTail", .string stderrTail)]

def TestStatus.text : TestStatus → JsString
  | .timeout => js "TIMEOUT"
  | .pass => js "PASS"
  | .fail => js "FAIL"

def TestEntry.toJson (t : TestEntry) : Json :=
  .object [(js "test", .string t.test), (js "flags", .array (t.flags.map .string)),
    (js "exit", codeJson t.exit), (js "status", .string t.status.text),
    (js "stderrTail", .string t.stderrTail)]

def RunTail.toJson (t : RunTail) : Json :=
  .object ([(js "exit", codeJson t.exit)] ++
    (t.killed.map fun b => (js "killed", Json.bool b)).toList ++
    [(js "stdoutTail", .string t.stdoutTail), (js "stderrTail", .string t.stderrTail)])

def FlagMatrix.toJson (m : FlagMatrix) : Json :=
  .object (m.combos.map (fun (k, text) => (k, Json.string text)) ++
    (m.unhandledRejection.map fun t => (js "__unhandledRejection", t.toJson)).toList ++
    (m.gcMissingCall.map fun t => (js "__gcMissingCall", t.toJson)).toList)

def ReportStatus.text : ReportStatus → JsString
  | .running => js "RUNNING"
  | .done => js "DONE"
  | .error => js "ERROR"

/-- A path that `fsScout` looks at. -/
inductive Found where
  | directory (names : List JsString)
  | file (size : Nat)

/-- What the process sees. -/
structure Host where
  version : JsString
  versions : Json
  execPath : JsString
  /-- `statSync` and, of a directory, `readdirSync`. -/
  look : JsString → Except JsString Found
  /-- `readFileSync(f, 'utf8')`; `null` is `none`. -/
  readFile : Option JsString → Except JsString JsString
  /-- `String(e && e.stack || e)`. -/
  stack : Exn → JsString
  startedAt : Int

/-- `fsScout`. -/
def fsScout (h : Host) : JsMap JsString Json :=
  JsMap.setAll (fun p =>
    match h.look p with
    | .ok (.directory names) => .array ((names.take 60).map .string)
    | .ok (.file size) => .string (js "file " ++ natDigits size ++ js "b")
    | .error e => .string (js "__err " ++ e.take 80)) .empty
    [js "/", js "/usr", js "/usr/lib", js "/bin", js "/.jsh", h.execPath]

def Host.env (h : Host) : Json :=
  .object [(js "node", .string h.version), (js "versions", h.versions),
    (js "execPath", .string h.execPath), (js "fsScout", .object (fsScout h).entries)]

/-- `REPORT.summary`. -/
def summaryJson : Nat × Nat × Nat → Json
  | (tests, pass, fail) =>
    .object [(js "tests", .number (.ofInt tests)), (js "pass", .number (.ofInt pass)),
      (js "fail", .number (.ofInt fail))]

/-- `REPORT`; what is set later stands behind what it is created with. -/
def Report.toJson (h : Host) (finishedAt : Option Int) (r : Report) : Json :=
  .object ([(js "status", .string r.status.text),
    (js "startedAt", .string (isoString h.startedAt)), (js "env", h.env),
    (js "probe", r.probe.toJson), (js "tests", .array (r.tests.map TestEntry.toJson)),
    (js "progress", .string r.progress)] ++
    (r.flagMatrix.map fun m => (js "flagMatrix", m.toJson)).toList ++
    (r.summary.map fun m => (js "summary", summaryJson m)).toList ++
    (finishedAt.map fun t => (js "finishedAt", Json.string (isoString t))).toList ++
    (r.error.map fun e => (js "error", Json.string (h.stack e))).toList)

/-! ## The server -/

/-- `new URL(q.url, 'http://x')`, which may throw; its `pathname` and `searchParams.get('p')`. -/
abbrev Url := Except JsString (JsString × Option JsString)

structure Response where
  statusCode : Nat
  contentType : Option JsString
  body : JsString
  deriving DecidableEq

structure Server where
  host : Host
  driver : Driver
  finishedAt : Option Int
  responses : List Response

def Server.start (host : Host) (files : Files) : Server :=
  { host, driver := .start files, finishedAt := none, responses := [] }

def Server.report (s : Server) : Json := s.driver.report.toJson s.host s.finishedAt

/-- The handler of a request. -/
def Server.answer (s : Server) : Url → Response
  | .error e => { statusCode := 500, contentType := none, body := e }
  | .ok (pathname, p) =>
    if pathname = js "/file" then
      match s.host.readFile p with
      | .ok text =>
        { statusCode := 200, contentType := some (js "text/plain; charset=utf-8"), body := text }
      | .error e =>
        { statusCode := 404, contentType := some (js "text/plain; charset=utf-8"), body := e }
    else
      { statusCode := 200, contentType := some (js "application/json; charset=utf-8")
        body := stringifyIndent 0 s.report }

inductive ServerEvent where
  | driver (e : DriverEvent) (now : Int)
  | request (url : Url)

def Server.step (s : Server) : ServerEvent → Option Server
  | .driver e now =>
    (s.driver.step e).map fun d =>
      { s with
        driver := d
        finishedAt := if d.report.status = .done then s.finishedAt.or (some now)
          else s.finishedAt }
  | .request url => some { s with responses := s.responses ++ [s.answer url] }

end Introspect

end CorpusRunner
