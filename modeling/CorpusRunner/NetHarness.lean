import CorpusRunner.Misc.JsonIndent
import CorpusRunner.Misc.Timers

/-!
# The capability matrix

`net-harness.mjs`: `probe`, which races the promise of one probe against a timer, and the loop
that awaits one probe after the other. What a probe does on the network is not part of it; what
comes of it are the events: a promise is settled, a timer fires, a callback calls `cln`, also long
after the row of its probe has been written.
-/

namespace CorpusRunner

namespace NetHarness

inductive Result where
  | ok
  | hang
  | fail
  deriving DecidableEq, Repr

/-- `{ result, detail }`. -/
structure Outcome where
  result : Result
  detail : Option JsString
  deriving DecidableEq, Repr

/-- What is thrown: `e && e.message`, where it is a string, and `String(e)`. -/
structure Thrown where
  message : Option JsString
  text : JsString
  deriving DecidableEq, Repr

/-- `{ result: "FAIL", detail: String(e && e.message || e).slice(0, 70) }`. -/
def Thrown.outcome (e : Thrown) : Outcome :=
  let text := match e.message with
    | some (c :: s) => c :: s
    | _ => e.text
  ⟨.fail, some (text.take 70)⟩

/-- How the promise of a probe is settled; it may be resolved with nothing. -/
inductive Settlement where
  | resolved (r : Option Outcome)
  | rejected (e : Thrown)
  deriving DecidableEq, Repr

/-- `.then((r) => r || { result: "OK", detail: "" }).catch(...)`. -/
def Settlement.outcome : Settlement → Outcome
  | .resolved r => r.getD ⟨.ok, some []⟩
  | .rejected e => e.outcome

def probeMs : Nat := 4000

/-- What `timeout` resolves with. -/
def hang : Outcome :=
  ⟨.hang, some (js "no result in " ++ natDigits probeMs ++
    js "ms (hung — an expected event never fired, or host-gated)")⟩

/-- The name and the note of a probe. -/
structure Probe where
  name : JsString
  note : JsString
  deriving DecidableEq, Repr

structure Row where
  name : JsString
  note : JsString
  out : Outcome
  deriving DecidableEq, Repr

/-- The variables of one call of `probe`. `κ` is what is given to `cln`. -/
structure Call (κ : Type) where
  /-- `none` is `() => {}`. -/
  cleanup : Option κ
  /-- The promise of the probe is settled, or there is none. -/
  settled : Bool
  /-- The call has returned. -/
  returned : Bool

structure Harness (κ : Type) where
  probes : List Probe
  /-- The calls of `probe`, of which only the last can be awaited. -/
  calls : List (Call κ)
  /-- The timers, with the number of the call. -/
  timers : Timers Nat
  results : List Row
  /-- The cleanups that have run, with the number of the call. -/
  cleaned : List (Nat × κ)
  lastUncaught : Option JsString

variable {κ : Type}

def Harness.start (probes : List Probe) : Harness κ :=
  { probes, calls := [], timers := .empty, results := [], cleaned := [], lastUncaught := none }

inductive Event (κ : Type) where
  /-- `probe` is called for the next probe, which hands cleanups to `cln` before it throws or
  returns a promise. -/
  | call (i : Nat) (now : Nat) (cleanups : List κ) (thrown : Option Thrown)
  | cln (i : Nat) (c : κ)
  | settle (i : Nat) (r : Settlement)
  | fire (t : Timer Nat)
  /-- `uncaughtException` or `unhandledRejection`. -/
  | uncaught (text : JsString)
  deriving DecidableEq

/-- Behind the race (`net-harness.mjs:76-77`), and the row is pushed. -/
def Harness.finish (s : Harness κ) (i : Nat) (out : Outcome) : Harness κ :=
  match s.probes[i]?, s.calls[i]? with
  | some p, some c =>
    { s with
      calls := s.calls.set i { c with returned := true }
      cleaned := s.cleaned ++ (c.cleanup.map (i, ·)).toList
      results := s.results ++ [⟨p.name, p.note, out⟩] }
  | _, _ => s

/-- The race of call `i` is decided, unless it has been. -/
def Harness.race (s : Harness κ) (i : Nat) (out : Outcome) : Harness κ :=
  match s.calls[i]? with
  | some c => if c.returned then s else s.finish i out
  | none => s

/-- `probe` is called, up to its `await`. -/
def Harness.await (s : Harness κ) (now : Nat) (cleanups : List κ) (settled : Bool) : Harness κ :=
  { s with
    timers := s.timers.setTimeout now probeMs s.calls.length
    calls := s.calls ++ [⟨cleanups.getLast?, settled, false⟩] }

def Harness.step (s : Harness κ) : Event κ → Option (Harness κ)
  | .call i now cleanups thrown =>
    if i = s.calls.length ∧ i = s.results.length ∧ i < s.probes.length then
      match thrown with
      | some e => some ((s.await now cleanups true).finish i e.outcome)
      | none => some (s.await now cleanups false)
    else none
  | .cln i c =>
    match s.calls[i]? with
    | some call => some { s with calls := s.calls.set i { call with cleanup := some c } }
    | none => none
  | .settle i r =>
    match s.calls[i]? with
    | some call =>
      if call.settled then none
      else some ({ s with calls := s.calls.set i { call with settled := true } }.race i r.outcome)
    | none => none
  | .fire t =>
    if t ∈ s.timers.pending then
      some ({ s with timers := s.timers.clearTimeout (some t.id) }.race t.callback hang)
    else none
  | .uncaught text => some { s with lastUncaught := some text }

/-! ## What is printed -/

/-- `icon`. -/
def Result.icon : Result → JsString
  | .ok => js "✅"
  | .hang => js "⛔HANG"
  | .fail => js "❌FAIL"

/-- `net-harness.mjs:243`. -/
def Row.line (r : Row) : JsString :=
  let detail := match r.out.detail with
    | some (c :: s) => js "  — " ++ c :: s
    | _ => []
  padEnd 7 r.out.result.icon ++ js " " ++ padEnd 26 r.name ++ js " " ++ r.note ++ detail

/-- `c`. -/
def countResult (results : List Row) (result : Result) : Nat :=
  (results.filter (fun r => decide (r.out.result = result))).length

/-- What `console.log` is called with, without `--json` (`net-harness.mjs:241-245`). -/
def matrixLines (runtime platform : JsString) (results : List Row) : List JsString :=
  [js "\nnetworking capability matrix — node " ++ runtime ++ js " " ++ platform ++ js "\n"] ++
  results.map Row.line ++
  [js "\nOK " ++ natDigits (countResult results .ok) ++ js "  HANG " ++
    natDigits (countResult results .hang) ++ js "  FAIL " ++
    natDigits (countResult results .fail) ++
    js "   (OK = WC supports it in-container, no Pro; HANG/FAIL = WC gap or our harness)"]

/-- What comes to `stdout`. -/
def matrixText (runtime platform : JsString) (results : List Row) : JsString :=
  (matrixLines runtime platform results).flatMap (· ++ [10])

/-! ## The file -/

def Result.text : Result → JsString
  | .ok => js "OK"
  | .hang => js "HANG"
  | .fail => js "FAIL"

/-- An element of `results`; a detail that is `undefined` is left out. -/
def Row.toJson (r : Row) : Json :=
  .object ([(js "name", .string r.name), (js "note", .string r.note),
    (js "result", .string r.out.result.text)] ++
    (r.out.detail.map (fun d => (js "detail", Json.string d))).toList)

/-- `net-capabilities.json` (`net-harness.mjs:248`). -/
def capabilitiesText (runtime platform : JsString) (results : List Row) : JsString :=
  stringifyIndent 0 (.object [(js "runtime", .string runtime), (js "platform", .string platform),
    (js "results", .array (results.map Row.toJson))]) ++ [10]

end NetHarness

end CorpusRunner
