import CorpusRunner.Lib.Flags
import CorpusRunner.Lib.TestSet
import CorpusRunner.Misc.Json
import CorpusRunner.Misc.Path
import CorpusRunner.Misc.Timers
import CorpusRunner.Misc.Utf8

/-!
# The runtime autopsy

`introspect-serve.mjs`: `run` over the events of its child (`Call`), and the driver, which awaits
one `run` after the other and puts what comes of it into the report (`Driver`). What an `error`
event without a handler does to the process, the server, and the file that `save` writes are not
part of it.
-/

namespace CorpusRunner

namespace Introspect

/-! ## One child -/

/-- What `run` resolves with. -/
structure Outcome where
  code : Option Int
  out : JsString
  err : JsString
  killed : Bool
  deriving DecidableEq, Repr

/-- What is thrown. -/
inductive Exn where
  /-- `t` is read before its declaration has been executed. -/
  | uninitialized
  /-- `on` is read from a stream that is not there. -/
  | noStream
  /-- By a read of a file. -/
  | fs (e : JsString)
  deriving DecidableEq, Repr

/-- What `spawn` does. A child has no streams where it could not be given any. -/
inductive Spawn where
  | throws (e : JsString)
  | child (stdout stderr : Bool)
  deriving DecidableEq, Repr

/-- The variables of one call of `run`. -/
structure Call where
  args : List JsString
  out : JsString
  err : JsString
  done : Bool
  /-- `t`; `none` before its declaration has been executed. -/
  t : Option Nat
  timers : Timers Unit
  /-- The handler of `stdout` is set. -/
  onStdout : Bool
  /-- The handlers of `stderr`, `close` and `error` are set. -/
  onEnd : Bool
  /-- What `res` has been called with. -/
  resolved : List Outcome
  /-- What the executor has thrown. -/
  thrown : Option Exn

namespace Call

def begin (args : List JsString) : Call :=
  { args, out := [], err := [], done := false, t := none, timers := .empty
    onStdout := false, onEnd := false, resolved := [], thrown := none }

/-- `finish`, with what it throws (`introspect-serve.mjs:26`). -/
def finish (s : Call) (r : Outcome) : Call × Option Exn :=
  if s.done then (s, none)
  else
    let s := { s with done := true }
    match s.t with
    | none => (s, some .uninitialized)
    | some t =>
      ({ s with timers := s.timers.clearTimeout (some t), resolved := s.resolved ++ [r] }, none)

/-- `const t = setTimeout(...)`. -/
def arm (s : Call) (timeout : Int) (now : Nat) : Call :=
  { s with t := some s.timers.next, timers := s.timers.setTimeout now timeout () }

/-- The handler of `close`. -/
def onClose (s : Call) (code : Option Int) : Call := (s.finish ⟨code, s.out, s.err, false⟩).1

/-- The handler of `error`. -/
def onError (s : Call) (e : JsString) : Call :=
  (s.finish ⟨some (-1), s.out, s.err ++ e, false⟩).1

/-- The `error` that a kill may raise; where it has no handler, it is thrown and caught. -/
def raise (s : Call) (killError : Option JsString) : Call :=
  match killError with
  | some e => if s.onEnd then s.onError e else s
  | none => s

/-- The callback of the timer, once it has been taken out of the table. -/
def onTimeout (s : Call) (killError : Option JsString) : Call :=
  let s := s.raise killError
  (s.finish ⟨none, s.out, s.err, true⟩).1

/-- The promise that `run` has returned. -/
def promise (s : Call) : Option (Except Exn Outcome) :=
  match s.thrown with
  | some e => some (.error e)
  | none => s.resolved.head?.map .ok

end Call

/-- `run`, up to the end of the executor (`introspect-serve.mjs:23-37`). -/
def run (args : List JsString) (timeout : Int) (now : Nat) (spawn : Spawn) : Call :=
  let s := Call.begin args
  match spawn with
  | .throws e =>
    let (s, exn) := s.finish ⟨some (-1), s.out, e, false⟩
    { s with thrown := exn }
  | .child stdout stderr =>
    let s := s.arm timeout now
    if !stdout then { s with thrown := some .noStream }
    else if !stderr then { s with onStdout := true, thrown := some .noStream }
    else { s with onStdout := true, onEnd := true }

inductive CallEvent where
  | stdout (d : List UInt8)
  | stderr (d : List UInt8)
  | close (code : Option Int)
  | error (e : JsString)
  | fire (t : Timer Unit) (killError : Option JsString)
  deriving DecidableEq

/-- A handler runs. -/
def Call.step (s : Call) : CallEvent → Option Call
  | .stdout d => if s.onStdout then some { s with out := s.out ++ decodeUtf8 d } else none
  | .stderr d => if s.onEnd then some { s with err := s.err ++ decodeUtf8 d } else none
  | .close code => if s.onEnd then some (s.onClose code) else none
  | .error e => if s.onEnd then some (s.onError e) else none
  | .fire t killError =>
    if t ∈ s.timers.pending then
      let s := { s with timers := s.timers.clearTimeout (some t.id) }
      some (s.onTimeout killError)
    else none

/-! ## The report -/

/-- `s.slice(-n)`. -/
def lastUnits (s : JsString) (n : Nat) : JsString := s.drop (s.length - n)

inductive TestStatus where
  | timeout
  | pass
  | fail
  deriving DecidableEq, Repr

/-- An entry of `REPORT.tests` (`introspect-serve.mjs:95`). -/
structure TestEntry where
  test : JsString
  flags : List JsString
  exit : Option Int
  status : TestStatus
  stderrTail : JsString
  deriving DecidableEq, Repr

def TestEntry.of (id : JsString) (flags : List JsString) (r : Outcome) : TestEntry :=
  { test := id, flags, exit := r.code
    status := if r.killed then .timeout else if r.code = some 0 then .pass else .fail
    stderrTail := lastUnits r.err 1200 }

/-- `REPORT.probe` (`introspect-serve.mjs:77-78`). -/
inductive Probe where
  | pending
  | parsed (v : Json)
  | probeError (killed : Bool) (exit : Option Int) (stdoutTail stderrTail : JsString)

def Probe.of (r : Outcome) : Probe :=
  match jsonParse r.out with
  | some v => .parsed v
  | none => .probeError r.killed r.code (lastUnits r.out 3000) (lastUnits r.err 1500)

/-- The flags that `flagMatrix` asks for `global.gc` under. -/
def combos : List (List JsString) :=
  [[], [js "--expose-gc"], [js "--expose-gc", js "--experimental-vm-modules"],
    [js "--expose-internals", js "--expose-gc"],
    [js "--expose-internals", js "--expose-gc", js "--experimental-vm-modules"]]

/-- What `flagMatrix` runs under each of the combos. -/
def gcScript : JsString :=
  js "console.log(JSON.stringify(\x7bgc:typeof global.gc, weakref:typeof WeakRef, " ++
    js "finreg:typeof FinalizationRegistry\x7d))"

/-- Whether an unhandled rejection is fatal. -/
def rejectionScript : JsString :=
  js "Promise.reject(new Error(\"UNHANDLED_PROBE\")); " ++
    js "setTimeout(()=>console.log(\"SURVIVED\"),100)"

/-- What a call of a missing `global.gc` does. -/
def gcCallScript : JsString :=
  js "(async()=>\x7b if(typeof global.gc!==\"function\")\x7bconsole.log(\"NO_GC\"); " ++
    js "await global.gc(); \x7d \x7d)().then(()=>console.log(\"OK\")); " ++
    js "setTimeout(()=>console.log(\"END\"),100)"

/-- What `flagMatrix` gives to `run`, in this order (`introspect-serve.mjs:50-67`). -/
def matrixArgs : List (List JsString) :=
  combos.map (· ++ [js "-e", gcScript]) ++
    [[js "-e", rejectionScript],
      [js "--expose-internals", js "--expose-gc", js "--experimental-vm-modules", js "-e",
        gcCallScript]]

/-- What is kept of the last two runs; of the last one not `killed`. -/
structure RunTail where
  exit : Option Int
  killed : Option Bool
  stdoutTail : JsString
  stderrTail : JsString
  deriving DecidableEq, Repr

/-- `REPORT.flagMatrix`. -/
structure FlagMatrix where
  combos : List (JsString × JsString)
  unhandledRejection : Option RunTail
  gcMissingCall : Option RunTail
  deriving DecidableEq, Repr

/-- `c.join(' ') || '(none)'`. -/
def comboKey (c : List JsString) : JsString :=
  if c = [] then js "(none)" else (c.intersperse (js " ")).flatten

/-- `(o || err).trim().slice(0, 200)`. -/
def comboText (r : Outcome) : JsString :=
  (trim (if r.out = [] then r.err else r.out)).take 200

def FlagMatrix.of (rs : List Outcome) : FlagMatrix where
  combos := List.zipWith (fun c r => (comboKey c, comboText r)) Introspect.combos rs
  unhandledRejection := rs[5]?.map fun r =>
    ⟨r.code, some r.killed, lastUnits r.out 120, lastUnits r.err 200⟩
  gcMissingCall := rs[6]?.map fun r => ⟨r.code, none, lastUnits r.out 160, lastUnits r.err 200⟩

inductive ReportStatus where
  | running
  | done
  | error
  deriving DecidableEq, Repr

/-- `REPORT`, without its times and `env`. -/
structure Report where
  status : ReportStatus
  probe : Probe
  flagMatrix : Option FlagMatrix
  tests : List TestEntry
  progress : JsString
  /-- `tests`, `pass` and `fail`. -/
  summary : Option (Nat × Nat × Nat)
  error : Option Exn

/-! ## The driver -/

/-- What the driver sees of the file system: `here`, the text of `redwall.txt`, and
`existsSync(resolve(parallelDir, id))` and `readFileSync(file, 'utf8')` as functions of `id`. -/
structure Files where
  here : List JsString
  redwall : Except JsString JsString
  existsSync : JsString → Bool
  readFileSync : JsString → Except JsString JsString

/-- A path from its segments. -/
def pathText (segments : List JsString) : JsString := segments.flatMap (js "/" ++ ·)

def Files.parallelDir (f : Files) : List JsString := f.here ++ [js "test", js "parallel"]

/-- `ids` (`introspect-serve.mjs:88`). -/
def Files.ids (f : Files) (redwall : JsString) : List JsString :=
  (idsFromListFile redwall).filter f.existsSync

/-- The `await` that the driver comes to next, or stands at. -/
inductive Stage where
  | probe
  /-- In `flagMatrix`, after these results. -/
  | matrix (results : List Outcome)
  | test (ids : List JsString) (i : Nat) (id : JsString) (flags : List JsString)
  | ended

structure Driver where
  files : Files
  stage : Stage
  report : Report
  /-- The `run` that is awaited; `none` before it is called. -/
  call : Option Call

/-- The driver at its first `run` (`introspect-serve.mjs:69-75`). -/
def Driver.start (files : Files) : Driver :=
  { files, stage := .probe
    report :=
      { status := .running, probe := .pending, flagMatrix := none, tests := []
        progress := js "running probe", summary := none, error := none }
    call := none }

namespace Driver

/-- The arguments of the next `run`, and its cap. -/
def command (s : Driver) : Option (List JsString × Int) :=
  match s.stage with
  | .probe =>
    some ([js "--expose-internals", js "--expose-gc", js "--experimental-vm-modules",
      pathText (resolvePath s.files.here (js "introspect-probe.mjs"))], 35000)
  | .matrix results => matrixArgs[results.length]?.map fun args => (args, 8000)
  | .test _ _ id flags => some (flags ++ [pathText (resolvePath s.files.parallelDir id)], 12000)
  | .ended => none

/-- The handler of `catch` (`introspect-serve.mjs:102`). -/
def fail (s : Driver) (e : Exn) : Driver :=
  { s with stage := .ended, report := { s.report with status := .error, error := some e } }

/-- Behind the loop (`introspect-serve.mjs:98-100`). -/
def finish (s : Driver) : Driver :=
  let pass := (s.report.tests.filter (fun t => decide (t.status = .pass))).length
  { s with
    stage := .ended
    report :=
      { s.report with
        summary := some (s.report.tests.length, pass, s.report.tests.length - pass)
        status := .done, progress := js "done" } }

/-- The head of the loop and its body up to the `await` (`introspect-serve.mjs:89-94`). -/
def next (s : Driver) (ids : List JsString) (i : Nat) : Driver :=
  match ids[i]? with
  | none => s.finish
  | some id =>
    let progress := js "tests " ++ natDigits (i + 1) ++ js "/" ++ natDigits ids.length ++
      js ": " ++ id
    let s := { s with report := { s.report with progress } }
    match s.files.readFileSync id with
    | .error e => s.fail (.fs e)
    | .ok src => { s with stage := .test ids i id (parseFlags src) }

/-- From the `await` of a result to the next call of `run`, or to the end. -/
def resume (s : Driver) (r : Outcome) : Driver :=
  match s.stage with
  | .probe =>
    { s with stage := .matrix []
             report := { s.report with probe := .of r, progress := js "flag matrix" } }
  | .matrix results =>
    let results := results ++ [r]
    if results.length < matrixArgs.length then
      { s with stage := .matrix results }
    else
      let s := { s with report := { s.report with flagMatrix := some (.of results) } }
      match s.files.redwall with
      | .error e => s.fail (.fs e)
      | .ok redwall => s.next (s.files.ids redwall) 0
  | .test ids i id flags =>
    let tests := s.report.tests ++ [.of id flags r]
    next { s with report := { s.report with tests } } ids (i + 1)
  | .ended => s

end Driver

inductive DriverEvent where
  /-- The next `run` is called. -/
  | spawn (now : Nat) (outcome : Spawn)
  /-- A handler of the call that is awaited runs. -/
  | child (e : CallEvent)
  /-- The promise is settled, and the driver goes on. -/
  | settled
  deriving DecidableEq

def Driver.step (s : Driver) : DriverEvent → Option Driver
  | .spawn now outcome =>
    match s.call, s.command with
    | none, some (args, timeout) => some { s with call := some (run args timeout now outcome) }
    | _, _ => none
  | .child e =>
    match s.call with
    | some c => (c.step e).map fun c => { s with call := some c }
    | none => none
  | .settled =>
    match s.call.bind Call.promise with
    | some (.ok r) => some ({ s with call := none }.resume r)
    | some (.error e) => some ({ s with call := none }.fail e)
    | none => none

end Introspect

end CorpusRunner
