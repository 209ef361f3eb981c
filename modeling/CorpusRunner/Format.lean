import CorpusRunner.Lib.Ledger
import Mathlib.Data.List.Lex
import Mathlib.Data.List.Sort
import Mathlib.Data.Rat.Floor

/-!
# Buckets and the summary

`corpus-format.mjs`: `bucketFor`, `aggregateByBucket` and the object `writeJsonResults` builds
and returns. Rates are exact rationals and `Math.round` rounds half up.
-/

namespace CorpusRunner

/-- `[a-z]`. -/
def isLower (c : UInt16) : Bool := 97 ≤ c && c ≤ 122

/-- `[a-z0-9]`. -/
def isLowerOrDigit (c : UInt16) : Bool := isLower c || (48 ≤ c && c ≤ 57)

/-- `multiWord` (`corpus-format.mjs:19-29`). -/
def multiWord : List (JsString × JsString) :=
  [ (js "async-hooks-", js "async_hooks"),
    (js "perf-hooks-", js "perf_hooks"),
    (js "child-process-", js "child_process"),
    (js "string-decoder-", js "string_decoder"),
    (js "diagnostics-channel-", js "diagnostics_channel"),
    (js "trace-events-", js "trace_events"),
    (js "readline-promises-", js "readline_promises"),
    (js "fs-promises-", js "fs_promises"),
    (js "timers-promises-", js "timers_promises") ]

/-- The first `replace` of `bucketFor`: drop a leading `test-`. -/
def stripTestPrefix (name : JsString) : JsString :=
  if startsWith name (js "test-") then name.drop 5 else name

/-- The second `replace`: drop a final `.js`, `.mjs` or `.cjs`. -/
def stripExtension (s : JsString) : JsString :=
  if endsWith s (js ".mjs") || endsWith s (js ".cjs") then s.take (s.length - 4)
  else if endsWith s (js ".js") then s.take (s.length - 3)
  else s

/-- The first group of a match of `^([a-z][a-z0-9]*)(?:-|$)`. -/
def leadingWord (body : JsString) : Option JsString :=
  match body with
  | [] => none
  | c :: _ =>
    let rest := body.dropWhile isLowerOrDigit
    if isLower c && (rest.isEmpty || rest.head? = some 0x2D) then
      some (body.takeWhile isLowerOrDigit)
    else none

/-- `bucketFor` (`corpus-format.mjs:17-37`). -/
def bucketFor (name : JsString) : JsString :=
  let body := stripExtension (stripTestPrefix name)
  match multiWord.find? (fun e => startsWith body e.1) with
  | some e => e.2
  | none =>
    if startsWith body (js "event-") || startsWith body (js "events-") || body = js "events" then
      js "events"
    else if startsWith body (js "worker-") then js "worker_threads"
    else (leadingWord body).getD (js "_misc")

/-- A ledger entry as the summary reads it; `none` is a status that is none of the five. -/
structure Result where
  test : JsString
  status : Option Status
  deriving DecidableEq, Repr

def Rec.result (r : Rec) : Result := ⟨r.test, some r.status⟩

/-- The accumulator of one bucket (`corpus-format.mjs:45`). -/
structure BucketAgg where
  bucket : JsString
  pass : Nat
  fail : Nat
  timeout : Nat
  crash : Nat
  skip : Nat
  total : Nat
  failingTests : List JsString
  deriving DecidableEq, Repr

def BucketAgg.new (b : JsString) : BucketAgg := ⟨b, 0, 0, 0, 0, 0, 0, []⟩

/-- One pass of the loop body over a record (`corpus-format.mjs:48-53`). -/
def BucketAgg.add (agg : BucketAgg) (r : Result) : BucketAgg :=
  let agg := { agg with total := agg.total + 1 }
  match r.status with
  | some .pass => { agg with pass := agg.pass + 1 }
  | some .skip => { agg with skip := agg.skip + 1 }
  | some .timeout =>
    { agg with timeout := agg.timeout + 1, failingTests := agg.failingTests ++ [r.test] }
  | some .crash =>
    { agg with crash := agg.crash + 1, failingTests := agg.failingTests ++ [r.test] }
  | _ => { agg with fail := agg.fail + 1, failingTests := agg.failingTests ++ [r.test] }

/-- The weight `localeCompare` gives a code unit of a bucket name: `_`, then digits, then
letters. Bucket names have no other code units. -/
def collationWeight (c : UInt16) : Nat :=
  if c = 0x5F then 0 else c.toNat + 1

/-- `a.localeCompare(b) <= 0` on bucket names. -/
def localeLe (a b : JsString) : Prop := a.map collationWeight ≤ b.map collationWeight

instance : DecidableRel localeLe := fun a b =>
  inferInstanceAs (Decidable (a.map collationWeight ≤ b.map collationWeight))

/-- `aggregateByBucket` (`corpus-format.mjs:39-56`). -/
def aggregateByBucket (results : List Result) : List BucketAgg :=
  let buckets := results.foldl (fun (m : JsMap JsString BucketAgg) r =>
    let b := bucketFor r.test
    m.set b (((m.get? b).getD (BucketAgg.new b)).add r)) .empty
  (buckets.entries.map Prod.snd).insertionSort (fun a b => localeLe a.bucket b.bucket)

/-- `Math.round`: half up. -/
def mathRound (x : Rat) : Int := ⌊x + 1 / 2⌋

/-- `round` (`corpus-format.mjs:67`). -/
def roundRate (x : Rat) : Rat := mathRound (x * 10000) / 100

/-- A row of `perBucket` (`corpus-format.mjs:84-93`). -/
structure BucketRow where
  bucket : JsString
  pass : Nat
  fail : Nat
  timeout : Nat
  crash : Nat
  skip : Nat
  total : Nat
  passRate : Rat
  deriving DecidableEq

def BucketAgg.row (a : BucketAgg) : BucketRow :=
  { bucket := a.bucket, pass := a.pass, fail := a.fail, timeout := a.timeout, crash := a.crash
    skip := a.skip, total := a.total
    passRate := if a.total = 0 then 0 else roundRate (a.pass / a.total) }

/-- `corpus-results.json` (`corpus-format.mjs:68-97`). The `knownFail*` fields and the two
`*Detail` lists are constant and left out. -/
structure Summary where
  startedAt : Int
  finishedAt : Int
  durationMs : Int
  totalTests : Nat
  pass : Nat
  fail : Nat
  timeout : Nat
  crash : Nat
  skip : Nat
  passRate : Rat
  passRateExclSkip : Rat
  perBucket : List BucketRow
  results : List Result
  deriving DecidableEq

/-- `results.filter((r) => r.status === s).length`. -/
def countStatus (results : List Result) (s : Status) : Nat :=
  (results.filter (fun r => decide (r.status = some s))).length

/-- `writeJsonResults` (`corpus-format.mjs:58-100`). -/
def writeJsonResults (results : List Result) (startedAt finishedAt : Int) : Summary :=
  let pass := countStatus results .pass
  let skip := countStatus results .skip
  let total := results.length
  { startedAt, finishedAt
    durationMs := finishedAt - startedAt
    totalTests := total
    pass
    fail := countStatus results .fail
    timeout := countStatus results .timeout
    crash := countStatus results .crash
    skip
    passRate := if total = 0 then 0 else roundRate (pass / total)
    passRateExclSkip := if (total : Int) - skip = 0 then 0 else roundRate (pass / (total - skip))
    perBucket := (aggregateByBucket results).map BucketAgg.row
    results }

end CorpusRunner
