import CorpusRunner.Misc.JsString
import Mathlib.Data.List.Sort
import Mathlib.Data.List.Nodup

/-!
# The selected tests

`selectTests`, `idsFromListFile` and `resolveTestSet` (`corpus-lib.mjs:21-28`,
`corpus-lib.mjs:54-76`), and the knobs that the supervisor reads from its environment
(`run-corpus.mjs:49-62`).
-/

namespace CorpusRunner

/-- What test selection sees of the file system: `readdirSync(parallelDir)`, in which no name
occurs twice, and `existsSync(resolve(parallelDir, id))` as a function of `id`. -/
structure Corpus where
  listing : List JsString
  listing_nodup : listing.Nodup
  existsSync : JsString → Bool

/-- `[...].sort()` on strings: stable, by code units. -/
def sortStrings (l : List JsString) : List JsString := l.insertionSort (· ≤ ·)

/-- `selectTests` (`corpus-lib.mjs:21-28`). -/
def selectTests (c : Corpus) (filters : List JsString) (limit : Int) : List JsString :=
  let tests := sortStrings
    ((c.listing.filter (fun f => startsWith f (js "test-") && endsWith f (js ".js"))).filter
      (fun f => filters.isEmpty || filters.any (fun s => includes f s)))
  if limit > 0 then tests.take limit.toNat else tests

/-- `line.replace(/#.*$/, "")`: the expression matches from the first `#` behind which there
is no line terminator up to the end. -/
def stripComment : JsString → JsString
  | [] => []
  | c :: rest =>
    if c = 0x23 && !rest.any isLineTerminator then [] else c :: stripComment rest

/-- One line of a manifest: its id, or nothing (`corpus-lib.mjs:59-63`). -/
def idOfLine (line : JsString) : Option JsString :=
  let s := trim (stripComment line)
  if s = [] then none
  else
    let s := if endsWith s (js ".js") then s else s ++ js ".js"
    some (if startsWith s (js "test-") then s else js "test-" ++ s)

/-- `idsFromListFile`, on the text of the file (`corpus-lib.mjs:56-66`). -/
def idsFromListFile (text : JsString) : List JsString :=
  (splitLines text).filterMap idOfLine

/-- `[...new Set(ids)]`: the first occurrence of each. -/
def uniq : List JsString → List JsString
  | [] => []
  | a :: l => a :: (uniq l).filter (fun b => decide (b ≠ a))

/-- `resolveTestSet`; a manifest is given by its text (`corpus-lib.mjs:70-76`). -/
def resolveTestSet (c : Corpus) (listFile : Option JsString) (filters : List JsString)
    (limit : Int) : List JsString :=
  match listFile with
  | some text => sortStrings (uniq ((idsFromListFile text).filter c.existsSync))
  | none => selectTests c filters limit

/-- What `idOfLine` does to an id that is there. -/
def normalizeId (s : JsString) : JsString :=
  let s := if endsWith s (js ".js") then s else s ++ js ".js"
  if startsWith s (js "test-") then s else js "test-" ++ s

theorem idOfLine_of_ne {line : JsString} (h : trim (stripComment line) ≠ []) :
    idOfLine line = some (normalizeId (trim (stripComment line))) := by
  simp only [idOfLine, if_neg h]
  rfl

theorem idOfLine_cases {line s : JsString} (h : idOfLine line = some s) :
    trim (stripComment line) ≠ [] ∧ s = normalizeId (trim (stripComment line)) := by
  by_cases hnil : trim (stripComment line) = []
  · simp [idOfLine, hnil] at h
  · rw [idOfLine_of_ne hnil] at h
    exact ⟨hnil, (Option.some.inj h).symm⟩

theorem startsWith_normalizeId (s : JsString) : startsWith (normalizeId s) (js "test-") = true := by
  unfold normalizeId
  generalize (if endsWith s (js ".js") then s else s ++ js ".js") = t
  simp only
  split
  · assumption
  · rw [startsWith_iff]
    exact List.prefix_append _ _

theorem endsWith_normalizeId (s : JsString) : endsWith (normalizeId s) (js ".js") = true := by
  have hsuffix : js ".js" <:+ if endsWith s (js ".js") then s else s ++ js ".js" := by
    split
    · rwa [← endsWith_iff]
    · exact List.suffix_append _ _
  rw [endsWith_iff]
  unfold normalizeId
  generalize (if endsWith s (js ".js") then s else s ++ js ".js") = t at hsuffix ⊢
  simp only
  split
  · exact hsuffix
  · exact hsuffix.trans (List.suffix_append _ _)

theorem mem_uniq {l : List JsString} {a : JsString} : a ∈ uniq l ↔ a ∈ l := by
  induction l with
  | nil => simp [uniq]
  | cons b l ih =>
    simp only [uniq, List.mem_cons, List.mem_filter, ih, decide_eq_true_eq]
    by_cases h : a = b <;> simp [h]

theorem uniq_nodup (l : List JsString) : (uniq l).Nodup := by
  induction l with
  | nil => simp [uniq]
  | cons b l ih =>
    simp only [uniq, List.nodup_cons, List.mem_filter, decide_eq_true_eq]
    exact ⟨fun h => h.2 rfl, ih.filter _⟩

theorem sortStrings_perm (l : List JsString) : (sortStrings l).Perm l :=
  List.perm_insertionSort _ l

theorem selectTests_nodup (c : Corpus) (filters : List JsString) (limit : Int) :
    (selectTests c filters limit).Nodup := by
  have h : (sortStrings
      ((c.listing.filter (fun f => startsWith f (js "test-") && endsWith f (js ".js"))).filter
        (fun f => filters.isEmpty || filters.any (fun s => includes f s)))).Nodup :=
    (sortStrings_perm _).nodup_iff.mpr ((c.listing_nodup.filter _).filter _)
  unfold selectTests
  simp only
  split
  · exact h.sublist (List.take_sublist _ _)
  · exact h

/-- Neither mode selects a test twice. -/
theorem resolveTestSet_nodup (c : Corpus) (listFile : Option JsString)
    (filters : List JsString) (limit : Int) : (resolveTestSet c listFile filters limit).Nodup := by
  cases listFile with
  | none => exact selectTests_nodup c filters limit
  | some text => exact (sortStrings_perm _).nodup_iff.mpr (uniq_nodup _)

/-- A test selection: a list without repetitions. -/
structure Selection where
  tests : List JsString
  nodup : tests.Nodup

instance : DecidableEq Selection := fun a b =>
  decidable_of_iff (a.tests = b.tests)
    ⟨fun h => by cases a; cases b; simp_all, fun h => h ▸ rfl⟩

/-- `parseInt(process.env.X || "", 10) || def`; `none` is `NaN`. -/
def knob (parsed : Option Int) (def_ : Int) : Int :=
  match parsed with
  | some n => if n = 0 then def_ else n
  | none => def_

/-- What a supervisor is started with: arguments, the text of the manifest if there is one,
and the integers its environment variables parse to. -/
structure Cli where
  filters : List JsString
  listFile : Option JsString
  concurrency : Option Int
  testTimeoutMs : Option Int
  stallMs : Option Int
  limit : Option Int
  maxNoProgress : Option Int
  deriving DecidableEq, Repr

/-- The values that run through a supervisor and the workers it launches. The worker resolves
its test set anew from `cfg` (`corpus-worker.mjs:99`), with the same function, arguments and
directory, so one selection stands for both. -/
structure Config where
  all : Selection
  concurrency : Int
  stallMs : Int
  maxNoProgress : Int
  deriving DecidableEq

/-- `run-corpus.mjs:49-62`. -/
def Cli.config (c : Corpus) (cli : Cli) : Config :=
  let timeout := knob cli.testTimeoutMs 30000
  { all :=
      ⟨resolveTestSet c cli.listFile cli.filters (knob cli.limit 0), resolveTestSet_nodup ..⟩
    concurrency := knob cli.concurrency 4
    stallMs := knob cli.stallMs (max 90000 (timeout * 2 + 15000))
    maxNoProgress := knob cli.maxNoProgress 4 }

end CorpusRunner
