import CorpusRunner.Misc.JsMap
import CorpusRunner.Misc.JsonIndent

/-!
# The probe inside the container

`introspect-probe.mjs`: sections that run one after the other (`safe`), each with sub-probes of
which some return promises (`safeInto`), and the object that is printed once all of those are
settled. What a sub-probe finds out is not part of it: it returns a value, throws, or returns a
promise, and promises are settled in any order. An object is a map, as no key is a number.
-/

namespace CorpusRunner

namespace IntrospectProbe

/-- How a promise is settled. A value that `JSON.stringify` leaves out is `none`. -/
inductive Settled where
  | fulfilled (v : Option Json)
  | rejected (stack : JsString)

/-- What `fn()` in `safeInto` comes to. A promise is told by a number. -/
inductive Sub where
  | returns (v : Option Json)
  | throws (stack : JsString)
  | promise (p : Nat)

/-- A statement of a section, which writes to its `out`. -/
inductive Op where
  | assign (key : JsString) (v : Option Json)
  | safeInto (key : JsString) (sub : Sub)

/-- How the function of a section ends: most of them `return out`. -/
inductive End where
  | out
  | value (v : Option Json)
  | throws (stack : JsString)

/-- `safe(key, fn)`. -/
structure Section where
  key : JsString
  ops : List Op
  ending : End

/-- `{ __error: ... }`. -/
def errorValue (stack : JsString) : Json := .object [(js "__error", .string stack)]

/-- `{ __pending: true }`. -/
def pendingValue : Json := .object [(js "__pending", .bool true)]

def Settled.value : Settled → Option Json
  | .fulfilled v => v
  | .rejected stack => some (errorValue stack)

/-- An element of `pending`: the handlers fill `out[key]`. -/
structure Entry where
  promise : Nat
  out : Nat
  key : JsString
  deriving DecidableEq, Repr

/-- A value of `R`; an `out` goes by its number. -/
inductive Slot where
  | value (v : Option Json)
  | out (o : Nat)

structure Probe where
  /-- The `out` of each section. -/
  outs : List (JsMap JsString (Option Json))
  R : JsMap JsString Slot
  /-- What is not settled of `pending`. -/
  pending : List Entry

def Probe.empty : Probe := { outs := [], R := .empty, pending := [] }

/-- `out[key] = v`. -/
def Probe.fill (s : Probe) (o : Nat) (key : JsString) (v : Option Json) : Probe :=
  { s with outs := s.outs.modify o (·.set key v) }

/-- A statement of the section whose `out` is `o`. -/
def Probe.op (o : Nat) (s : Probe) : Op → Probe
  | .assign key v => s.fill o key v
  | .safeInto key (.returns v) => s.fill o key v
  | .safeInto key (.throws stack) => s.fill o key (some (errorValue stack))
  | .safeInto key (.promise p) =>
    let s : Probe := { s with pending := s.pending ++ [⟨p, o, key⟩] }
    s.fill o key (some pendingValue)

/-- `safe`. -/
def Probe.safe (s : Probe) (sec : Section) : Probe :=
  let o := s.outs.length
  let s := sec.ops.foldl (Probe.op o) { s with outs := s.outs ++ [.empty] }
  let slot := match sec.ending with
    | .out => .out o
    | .value v => .value v
    | .throws stack => .value (some (errorValue stack))
  { s with R := s.R.set sec.key slot }

/-- The script up to its `await`. -/
def Probe.start (secs : List Section) : Probe := secs.foldl Probe.safe .empty

/-- Promise `p` is settled, and the handlers that were given to its `then` run. -/
inductive Event where
  | settle (p : Nat) (r : Settled)

def Probe.step (s : Probe) : Event → Option Probe
  | .settle p r =>
    if s.pending.any (fun e => decide (e.promise = p)) then
      let outs := s.pending.foldl (fun outs e =>
        if e.promise = p then outs.modify e.out (·.set e.key r.value) else outs) s.outs
      some { s with outs, pending := s.pending.filter (fun e => decide (e.promise ≠ p)) }
    else none

/-- What `JSON.stringify` keeps of an object. -/
def keep (entries : List (JsString × Option Json)) : Json :=
  .object (entries.filterMap fun (k, v) => v.map (k, ·))

def Probe.value (s : Probe) : Slot → Option Json
  | .value v => v
  | .out o => s.outs[o]?.map (fun m => keep m.entries)

/-- `R`. -/
def Probe.report (s : Probe) : Json := keep (s.R.entries.map fun (k, slot) => (k, s.value slot))

/-- What is written to `stdout`; nothing before `Promise.all(pending)` is settled. -/
def Probe.printed (s : Probe) : Option JsString :=
  if s.pending = [] then some (stringifyIndent 0 s.report) else none

end IntrospectProbe

end CorpusRunner
