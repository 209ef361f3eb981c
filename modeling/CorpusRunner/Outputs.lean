import CorpusRunner.Misc.Calendar
import CorpusRunner.Misc.JsonIndent
import CorpusRunner.Proofs.Conservation

/-!
# The two reports

The texts that `corpus-format.mjs` writes: `corpus-results.json`, where the results are the
entries of the ledger as they were read (`writeJsonResults`), and `corpus-summary.md`
(`writeSummaryMd`).
-/

namespace CorpusRunner

def Json.ofNat (n : Nat) : Json := .number (.ofInt n)

/-- The number of hundredths of a rate. -/
def hundredths (rate : Rat) : Nat := ⌊rate * 100⌋.toNat

def Json.rate (rate : Rat) : Json := .number (.hundredths (hundredths rate))

/-- A row of `perBucket` (`corpus-format.mjs:84-93`). -/
def BucketRow.toJson (row : BucketRow) : Json :=
  .object
    [(js "bucket", .string row.bucket), (js "pass", .ofNat row.pass), (js "fail", .ofNat row.fail),
      (js "timeout", .ofNat row.timeout), (js "crash", .ofNat row.crash),
      (js "skip", .ofNat row.skip), (js "total", .ofNat row.total),
      (js "passRate", .rate row.passRate)]

/-- `summary` (`corpus-format.mjs:68-97`). -/
def Summary.toJson (m : Summary) (results : List Json) : Json :=
  .object
    [(js "runtime", .string (js "stackblitz-webcontainer")),
      (js "startedAt", .number (.ofInt m.startedAt)),
      (js "finishedAt", .number (.ofInt m.finishedAt)),
      (js "durationMs", .number (.ofInt m.durationMs)), (js "totalTests", .ofNat m.totalTests),
      (js "pass", .ofNat m.pass), (js "fail", .ofNat m.fail), (js "timeout", .ofNat m.timeout),
      (js "crash", .ofNat m.crash), (js "skip", .ofNat m.skip), (js "knownFail", .ofNat 0),
      (js "knownFailChanged", .ofNat 0), (js "unexpectedPass", .ofNat 0),
      (js "passRate", .rate m.passRate), (js "passRateExclSkip", .rate m.passRateExclSkip),
      (js "perBucket", .array (m.perBucket.map BucketRow.toJson)),
      (js "knownFailChangedDetail", .array []), (js "unexpectedPassDetail", .array []),
      (js "results", .array results)]

/-- The summary of entries of the ledger; there is none if `bucketFor` throws on one of them, and
then neither report is written. -/
def summaryOf (results : List Json) (startedAt finishedAt : Int) : Option Summary :=
  (results.mapM Json.result).map (fun rs => writeJsonResults rs startedAt finishedAt)

/-- The summary of entries that are read as these results. -/
theorem summaryOf_eq_some {results : List Json} {startedAt finishedAt : Int} {m : Summary} :
    summaryOf results startedAt finishedAt = some m ↔
      ∃ rs, results.mapM Json.result = some rs ∧ writeJsonResults rs startedAt finishedAt = m :=
  Option.map_eq_some_iff

/-- `bucketFor` throws on a name that is no string. -/
theorem exists_summaryOf_iff {results : List Json} {startedAt finishedAt : Int} :
    (∃ m, summaryOf results startedAt finishedAt = some m) ↔
      ∀ e ∈ results, ∃ t, e.member (js "test") = some (.string t) := by
  constructor
  · rintro ⟨m, hm⟩ e he
    obtain ⟨rs, hrs, -⟩ := summaryOf_eq_some.mp hm
    obtain ⟨r, -, hr⟩ := (mem_of_mapM hrs).1 e he
    exact Json.exists_result_iff.mp ⟨r, hr⟩
  · intro h
    obtain ⟨rs, hrs⟩ := exists_mapM fun e he => Json.exists_result_iff.mpr (h e he)
    exact ⟨_, summaryOf_eq_some.mpr ⟨rs, hrs, rfl⟩⟩

/-- `corpus-results.json`. -/
def resultsText (m : Summary) (results : List Json) : JsString :=
  stringifyIndent 0 (m.toJson results) ++ [10]

/-! ## The Markdown -/

/-- A rate in a template. -/
def rateText (rate : Rat) : JsString := hundredthsText (hundredths rate)

/-- A row of the table (`corpus-format.mjs:119-121`). -/
def BucketRow.line (b : BucketRow) : JsString :=
  js "| `" ++ b.bucket ++ js "` | " ++ natDigits b.pass ++ js " | " ++ natDigits b.fail ++
    js " | " ++ natDigits b.timeout ++ js " | " ++ natDigits b.crash ++ js " | " ++
    natDigits b.skip ++ js " | " ++ natDigits b.total ++ js " | " ++ rateText b.passRate ++ js "% |"

/-- The lines in front of the rows. `minutes` is `(ms / 60000).toFixed(1)`, which divides in
floating point. -/
def Summary.head (minutes : Int → JsString) (m : Summary) : List JsString :=
  [js "# Node Test Corpus Pass Rates — StackBlitz WebContainer", [],
    js "Generated by `run-corpus.mjs` (child_process engine, one real `node` per test).", [],
    js "* Runtime:    stackblitz-webcontainer",
    js "* Started:    " ++ isoString m.startedAt,
    js "* Finished:   " ++ isoString m.finishedAt,
    js "* Wall clock: " ++ minutes m.durationMs ++ js " min",
    js "* Total:      " ++ natDigits m.totalTests ++ js " (pass " ++ natDigits m.pass ++
      js " / fail " ++ natDigits m.fail ++ js " / timeout " ++ natDigits m.timeout ++
      js " / crash " ++ natDigits m.crash ++ js " / skip " ++ natDigits m.skip ++ js ")",
    js "* Pass rate:  **" ++ rateText m.passRate ++ js "%**  (excluding skips: " ++
      rateText m.passRateExclSkip ++ js "%)", [],
    js "## Per-module pass rates", [],
    js "| Module | Pass | Fail | Timeout | Crash | Skip | Total | Pass rate |",
    js "|---|---:|---:|---:|---:|---:|---:|---:|"]

/-- `lines.join("\n")`. -/
def joinLines (lines : List JsString) : JsString := [10].intercalate lines

/-- `corpus-summary.md` (`corpus-format.mjs:102-125`). -/
def summaryMd (minutes : Int → JsString) (m : Summary) : JsString :=
  joinLines (m.head minutes ++ m.perBucket.map BucketRow.line ++ [[]]) ++ [10]

end CorpusRunner
