import CorpusRunner.Lib.Ledger
import CorpusRunner.Misc.Timers
import CorpusRunner.Misc.Utf8

/-!
# One test

`runOne` (`corpus-worker.mjs:31-89`) as a step function: what its handlers and its three timers
do to the local variables, whatever the order in which they are called. The flags that
`parseFlags` finds in the test, and the code and the signal that the child ends with, if it ever
does, are given with the child.
-/

namespace CorpusRunner

/-- `OUTPUT_CAP` (`corpus-worker.mjs:21`). -/
def outputCap : Nat := 200000

/-- What a code unit is compared as under `i`: no other one has an ASCII letter for its upper
case. -/
def foldCase (c : UInt16) : UInt16 := if 65 ≤ c ∧ c ≤ 90 then c + 32 else c

/-- A match of `1\.\.0\s*#\s*skip` at the beginning of the text. -/
def matchesSkip (s : JsString) : Bool :=
  startsWith s (js "1..0") &&
    match (s.drop 4).dropWhile isSpace with
    | [] => false
    | c :: rest => c = 0x23 && ((rest.dropWhile isSpace).take 4).map foldCase = js "skip"

/-- `SKIP_RE.test(s)` (`corpus-worker.mjs:20`); `lineStart` is what `^` asks for. -/
def skipReFrom (lineStart : Bool) : JsString → Bool
  | [] => false
  | c :: rest => (lineStart && matchesSkip (c :: rest)) || skipReFrom (isLineTerminator c) rest

def skipRe (s : JsString) : Bool := skipReFrom true s

example : skipRe (js "TAP\n1..0 #\tSkipped: no ipv6") = true := by decide
example : skipRe (js "x 1..0 # skip") = false := by decide

/-- A data handler (`corpus-worker.mjs:76-77`): `+=` decodes the chunk. -/
def appendChunk (text : JsString) (d : List UInt8) : JsString :=
  if text.length < outputCap then text ++ decodeUtf8 d else text

/-- `classify` (`corpus-worker.mjs:47-48`). -/
def classify (out err : JsString) (code : Option Int) : RunStatus :=
  if code = some 0 then if skipRe out || skipRe err then .skip else .pass else .fail

/-- `rec.tail` (`corpus-worker.mjs:59-61`). -/
def tailText (out err errorMsg : JsString) : JsString :=
  let tail := trim (out ++ if err = [] then [] else js "\n--- stderr ---\n" ++ err)
  let tail :=
    if errorMsg = [] then tail
    else trim (errorMsg ++ if tail = [] then [] else js "\n" ++ tail)
  if tail.length > 1500 then tail.drop (tail.length - 1500) else tail

/-- The functions that `runOne` hands to `setTimeout`. -/
inductive Callback where
  /-- `corpus-worker.mjs:83-87`. -/
  | kill
  /-- `corpus-worker.mjs:86`. -/
  | reap
  /-- `corpus-worker.mjs:81`. -/
  | grace
  deriving DecidableEq, Repr

/-- `child.exitCode` and `child.signalCode` of a child that has ended. -/
structure Ending where
  code : Option Int
  signal : Option JsString
  deriving DecidableEq, Repr

/-- The variables of one call. -/
structure RunOne where
  test : JsString
  flags : List JsString
  ending : Ending
  started : Nat
  out : JsString
  err : JsString
  killed : Bool
  settled : Bool
  /-- The child's `exit` event has come; from then on a signal to it is not an error. -/
  exited : Bool
  killTimer : Option Nat
  reapTimer : Option Nat
  graceTimer : Option Nat
  timers : Timers Callback
  /-- What `resolveOne` has been called with. -/
  resolved : List RunRec

namespace RunOne

/-- Before `spawn`. -/
def begin (test : JsString) (flags : List JsString) (ending : Ending) (started : Nat) : RunOne :=
  { test, flags, ending, started
    out := [], err := []
    killed := false, settled := false, exited := false
    killTimer := none, reapTimer := none, graceTimer := none
    timers := .empty
    resolved := [] }

/-- The record of `finalize` (`corpus-worker.mjs:55-62`). -/
def record (s : RunOne) (now : Nat) (status : RunStatus) (code : Option Int)
    (signal : Option JsString) (errorMsg : JsString) : RunRec :=
  { test := s.test
    status
    durationMs := (now : Int) - s.started
    exitCode := code
    signal := if signal = some [] then none else signal
    flags := s.flags
    tail :=
      if status = .fail ∨ status = .timeout then some (tailText s.out s.err errorMsg) else none }

/-- `finalize` (`corpus-worker.mjs:50-64`). An `error` that its `hardKill` raises finds
`settled` set. -/
def finalize (s : RunOne) (now : Nat) (status : RunStatus) (code : Option Int)
    (signal : Option JsString) (errorMsg : JsString) : RunOne :=
  if s.settled then s
  else
    { s with
      settled := true
      timers :=
        ((s.timers.clearTimeout s.killTimer).clearTimeout s.reapTimer).clearTimeout s.graceTimer
      resolved := s.resolved ++ [s.record now status code signal errorMsg] }

/-- The handler of `error`. -/
def onError (s : RunOne) (now : Nat) (msg : JsString) : RunOne :=
  s.finalize now .fail none none (js "spawn error: " ++ msg)

/-- The handler of `close`, and the callback of the grace timer. -/
def onEnd (s : RunOne) (now : Nat) : RunOne :=
  s.finalize now (if s.killed then .timeout else classify s.out s.err s.ending.code)
    s.ending.code s.ending.signal []

/-- The handler of `exit`. -/
def onExit (s : RunOne) (now : Nat) : RunOne :=
  { s with
    exited := true
    graceTimer := some s.timers.next
    timers := s.timers.setTimeout now 250 .grace }

/-- The `error` that a kill may raise: its handler runs within the call. -/
def raise (s : RunOne) (now : Nat) (killError : Option JsString) : RunOne :=
  match killError with
  | some msg => s.onError now msg
  | none => s

/-- `reapTimer = setTimeout(...)` (`corpus-worker.mjs:86`). -/
def armReap (s : RunOne) (now : Nat) : RunOne :=
  { s with reapTimer := some s.timers.next, timers := s.timers.setTimeout now 3000 .reap }

def markKilled (s : RunOne) : RunOne := { s with killed := true }

/-- The callback of the kill timer. The reap timer is armed also where the kill has raised. -/
def onCap (s : RunOne) (now : Nat) (killError : Option JsString) : RunOne :=
  (s.markKilled.raise now killError).armReap now

/-- The callback of the reap timer. -/
def onReap (s : RunOne) (now : Nat) : RunOne :=
  s.finalize now .timeout none (some (js "SIGKILL")) []

/-- A timer that fires is armed no longer. -/
def disarm (s : RunOne) (t : Timer Callback) : RunOne :=
  { s with timers := s.timers.clearTimeout (some t.id) }

/-- `spawn` has returned, and its timer is armed. -/
def spawned (test : JsString) (flags : List JsString) (ending : Ending) (timeout : Int)
    (now : Nat) : RunOne :=
  let s := begin test flags ending now
  { s with killTimer := some s.timers.next, timers := s.timers.setTimeout now timeout .kill }

/-- `spawn` has thrown. -/
def threw (test : JsString) (flags : List JsString) (msg : JsString) (now : Nat) : RunOne :=
  (begin test flags ⟨none, none⟩ now).finalize now .fail none none (js "spawn threw: " ++ msg)

end RunOne

/-- What may call a handler. Only a child that has not exited can make the kill fail. -/
inductive RunEvent where
  | stdout (d : List UInt8)
  | stderr (d : List UInt8)
  | error (msg : JsString)
  | exit
  | close
  | fire (t : Timer Callback) (killError : Option JsString)
  deriving DecidableEq

/-- One handler runs, at the given time. -/
def RunOne.step (s : RunOne) : Nat × RunEvent → Option RunOne
  | (_, .stdout d) => some { s with out := appendChunk s.out d }
  | (_, .stderr d) => some { s with err := appendChunk s.err d }
  | (now, .error msg) => some (s.onError now msg)
  | (now, .exit) => some (s.onExit now)
  | (now, .close) => some (s.onEnd now)
  | (now, .fire t killError) =>
    if t ∈ s.timers.pending then
      match t.callback with
      | .kill =>
        if s.exited = false ∨ killError = none then some ((s.disarm t).onCap now killError)
        else none
      | .reap => if killError = none then some ((s.disarm t).onReap now) else none
      | .grace => if killError = none then some ((s.disarm t).onEnd now) else none
    else none

end CorpusRunner
