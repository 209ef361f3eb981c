import CorpusRunner.Outputs
import CorpusRunner.Proofs.Buckets
import CorpusRunner.Proofs.Handoff
import CorpusRunner.Proofs.Rates

/-!
# The two reports read back

`corpus-results.json` and `corpus-summary.md` as a reader takes them: the object is the summary
that was computed, with the records as they stood in the ledger, and the table has the rows of the
object, under the times of the run (`reports_agree`). Rates are written with at most two decimals,
which is all that they have.
-/

namespace CorpusRunner

/-! ## Rates -/

/-- A number of hundredths. -/
def IsRate (r : Rat) : Prop := ∃ c : Nat, r = c / 100

theorem isRate_zero : IsRate 0 := ⟨0, by norm_num⟩

theorem isRate_roundRate {x : Rat} (h : 0 ≤ x) : IsRate (roundRate x) := by
  have hround : 0 ≤ mathRound (x * 10000) := by
    apply Int.floor_nonneg.mpr
    positivity
  refine ⟨(mathRound (x * 10000)).toNat, ?_⟩
  have hcast : ((mathRound (x * 10000)).toNat : Rat) = (mathRound (x * 10000) : Rat) := by
    exact_mod_cast Int.toNat_of_nonneg hround
  rw [roundRate, hcast]

theorem hundredths_div (c : Nat) : hundredths (c / 100) = c := by
  have hmul : (c / 100 : Rat) * 100 = (c : Nat) := by
    rw [div_mul_cancel₀ _ (by norm_num)]
  rw [hundredths, hmul, Int.floor_natCast, Int.toNat_natCast]

/-- The literal of a rate stands for the rate. -/
theorem literalValue_rateText {r : Rat} (h : IsRate r) : literalValue (rateText r) = r := by
  obtain ⟨c, rfl⟩ := h
  rw [rateText, hundredths_div]
  exact value_hundredths c

/-- Every rate of a summary is one. -/
theorem isRate_row (rs : List Result) :
    ∀ row ∈ (aggregateByBucket rs).map BucketAgg.row, IsRate row.passRate := by
  intro row hrow
  obtain ⟨a, -, rfl⟩ := List.mem_map.mp hrow
  change IsRate (if a.total = 0 then 0 else roundRate (a.pass / a.total))
  split
  · exact isRate_zero
  · exact isRate_roundRate (by positivity)

theorem isRate_summary (rs : List Result) (startedAt finishedAt : Int) :
    IsRate (writeJsonResults rs startedAt finishedAt).passRate ∧
      IsRate (writeJsonResults rs startedAt finishedAt).passRateExclSkip := by
  have hle := pass_add_skip_le rs
  have hskip : (countStatus rs .skip : Rat) ≤ rs.length := by
    exact_mod_cast (show countStatus rs .skip ≤ rs.length by omega)
  simp only [writeJsonResults]
  constructor
  · split
    · exact isRate_zero
    · exact isRate_roundRate (by positivity)
  · split
    · exact isRate_zero
    · exact isRate_roundRate (div_nonneg (by positivity) (sub_nonneg.mpr hskip))

/-! ## The object -/

def Json.rat? : Json → Option Rat
  | .number n => some n.value
  | _ => none

theorem nat?_ofNat (n : Nat) : Json.nat? (.ofNat n) = some n := nat?_ofInt n

theorem rat?_rate {r : Rat} (h : IsRate r) : Json.rat? (.rate r) = some r := by
  obtain ⟨c, rfl⟩ := h
  rw [Json.rate, hundredths_div, Json.rat?, value_hundredths]

/-- A row as a reader takes it from the object. -/
def BucketRow.ofJson (v : Json) : Option BucketRow := do
  let bucket ← v.at_ "bucket" Json.string?
  let pass ← v.at_ "pass" Json.nat?
  let fail ← v.at_ "fail" Json.nat?
  let timeout ← v.at_ "timeout" Json.nat?
  let crash ← v.at_ "crash" Json.nat?
  let skip ← v.at_ "skip" Json.nat?
  let total ← v.at_ "total" Json.nat?
  let passRate ← v.at_ "passRate" Json.rat?
  pure { bucket, pass, fail, timeout, crash, skip, total, passRate }

/-- A summary as a reader takes it from the object. -/
def Summary.ofJson (v : Json) : Option Summary := do
  let startedAt ← v.at_ "startedAt" Json.int?
  let finishedAt ← v.at_ "finishedAt" Json.int?
  let durationMs ← v.at_ "durationMs" Json.int?
  let totalTests ← v.at_ "totalTests" Json.nat?
  let pass ← v.at_ "pass" Json.nat?
  let fail ← v.at_ "fail" Json.nat?
  let timeout ← v.at_ "timeout" Json.nat?
  let crash ← v.at_ "crash" Json.nat?
  let skip ← v.at_ "skip" Json.nat?
  let passRate ← v.at_ "passRate" Json.rat?
  let passRateExclSkip ← v.at_ "passRateExclSkip" Json.rat?
  let perBucket ← v.at_ "perBucket" (Json.items? BucketRow.ofJson)
  let results ← v.at_ "results" (Json.items? Json.result)
  pure { startedAt, finishedAt, durationMs, totalTests, pass, fail, timeout, crash, skip,
         passRate, passRateExclSkip, perBucket, results }

theorem BucketRow.ofJson_toJson {row : BucketRow} (h : IsRate row.passRate) :
    BucketRow.ofJson row.toJson = some row := by
  have hbucket : row.toJson.at_ "bucket" Json.string? = some row.bucket := rfl
  have hpass : row.toJson.at_ "pass" Json.nat? = some row.pass := nat?_ofNat row.pass
  have hfail : row.toJson.at_ "fail" Json.nat? = some row.fail := nat?_ofNat row.fail
  have htimeout : row.toJson.at_ "timeout" Json.nat? = some row.timeout := nat?_ofNat row.timeout
  have hcrash : row.toJson.at_ "crash" Json.nat? = some row.crash := nat?_ofNat row.crash
  have hskip : row.toJson.at_ "skip" Json.nat? = some row.skip := nat?_ofNat row.skip
  have htotal : row.toJson.at_ "total" Json.nat? = some row.total := nat?_ofNat row.total
  have hrate : row.toJson.at_ "passRate" Json.rat? = some row.passRate := rat?_rate h
  rw [BucketRow.ofJson, hbucket, hpass, hfail, htimeout, hcrash, hskip, htotal, hrate]
  rfl

/-- Nothing of the summary of the entries is lost in the object. -/
theorem Summary.ofJson_toJson {results : List Json} {startedAt finishedAt : Int} {m : Summary}
    (hm : summaryOf results startedAt finishedAt = some m) :
    Summary.ofJson (m.toJson results) = some m := by
  obtain ⟨rs, hrs, hsummary⟩ := summaryOf_eq_some.mp hm
  have hrows := isRate_row rs
  have hrates := isRate_summary rs startedAt finishedAt
  have hresults : m.results = rs := by rw [← hsummary]; rfl
  have hbucket : m.perBucket = (aggregateByBucket rs).map BucketAgg.row := by rw [← hsummary]; rfl
  rw [hsummary] at hrates
  obtain ⟨hrate, hexcl⟩ := hrates
  have h1 : (m.toJson results).at_ "startedAt" Json.int? = some m.startedAt := int?_ofInt _
  have h2 : (m.toJson results).at_ "finishedAt" Json.int? = some m.finishedAt := int?_ofInt _
  have h3 : (m.toJson results).at_ "durationMs" Json.int? = some m.durationMs := int?_ofInt _
  have h4 : (m.toJson results).at_ "totalTests" Json.nat? = some m.totalTests := nat?_ofNat _
  have h5 : (m.toJson results).at_ "pass" Json.nat? = some m.pass := nat?_ofNat _
  have h6 : (m.toJson results).at_ "fail" Json.nat? = some m.fail := nat?_ofNat _
  have h7 : (m.toJson results).at_ "timeout" Json.nat? = some m.timeout := nat?_ofNat _
  have h8 : (m.toJson results).at_ "crash" Json.nat? = some m.crash := nat?_ofNat _
  have h9 : (m.toJson results).at_ "skip" Json.nat? = some m.skip := nat?_ofNat _
  have h10 : (m.toJson results).at_ "passRate" Json.rat? = some m.passRate := rat?_rate hrate
  have h11 : (m.toJson results).at_ "passRateExclSkip" Json.rat? = some m.passRateExclSkip :=
    rat?_rate hexcl
  have h12 : (m.toJson results).at_ "perBucket" (Json.items? BucketRow.ofJson) =
      some m.perBucket := by
    apply items?_map
    intro row hrow
    exact BucketRow.ofJson_toJson (hrows row (hbucket ▸ hrow))
  have h13 : (m.toJson results).at_ "results" (Json.items? Json.result) = some m.results := by
    rw [hresults]
    exact hrs
  rw [Summary.ofJson, h1, h2, h3, h4, h5, h6, h7, h8, h9, h10, h11, h12, h13]
  rfl

/-! ## The table -/

/-- A printed character other than a blank and a bar. -/
def isMark (c : UInt16) : Bool := decide (33 ≤ c) && decide (c ≤ 126) && decide (c ≠ 124)

/-- What a cell of the table may hold. -/
structure IsCell (s : JsString) : Prop where
  marks : ∀ c ∈ s, isMark c = true
  ne_nil : s ≠ []

/-- The row that a line of the table stands for. -/
def readRow (line : JsString) : Option BucketRow :=
  match (line.splitOn 124).map trim with
  | [[], 96 :: bucket, pass, fail, timeout, crash, skip, total, rate, []] =>
    some { bucket := bucket.dropLast, pass := digitsValue pass, fail := digitsValue fail
           timeout := digitsValue timeout, crash := digitsValue crash, skip := digitsValue skip
           total := digitsValue total, passRate := literalValue rate.dropLast }
  | _ => none

/-- The rows of the table of a text. -/
def readTable (text : JsString) : List BucketRow := (splitLines text).filterMap readRow

theorem isMark_spec {c : UInt16} (h : isMark c = true) :
    isSpace c = false ∧ c ≠ 124 ∧ c ≠ 10 := by
  simp only [isMark, Bool.and_eq_true, decide_eq_true_eq, UInt16.le_iff_toNat_le] at h
  obtain ⟨⟨hlow, hhigh⟩, hbar⟩ := h
  change 33 ≤ c.toNat at hlow
  change c.toNat ≤ 126 at hhigh
  refine ⟨?_, hbar, ?_⟩
  · simp [isSpace, UInt16.le_iff_toNat_le, ← UInt16.toNat_inj]
    omega
  · rintro rfl
    exact absurd hlow (by decide)

theorem isMark_of_digit {c : UInt16} (h : isDigit c = true) : isMark c = true := by
  simp only [isDigit, Bool.and_eq_true, decide_eq_true_eq, UInt16.le_iff_toNat_le] at h
  obtain ⟨hlow, hhigh⟩ := h
  change 48 ≤ c.toNat at hlow
  change c.toNat ≤ 57 at hhigh
  simp [isMark, UInt16.le_iff_toNat_le, ← UInt16.toNat_inj]
  omega

theorem isMark_of_lowerOrDigit {c : UInt16} (h : isLowerOrDigit c = true) : isMark c = true := by
  simp [isLowerOrDigit, isLower, UInt16.le_iff_toNat_le] at h
  simp [isMark, UInt16.le_iff_toNat_le, ← UInt16.toNat_inj]
  omega

theorem IsCell.append {s t : JsString} (hs : ∀ c ∈ s, isMark c = true) (ht : IsCell t) :
    IsCell (s ++ t) where
  marks := by
    intro c hc
    rcases List.mem_append.mp hc with hc | hc
    · exact hs c hc
    · exact ht.marks c hc
  ne_nil := by simp [ht.ne_nil]

theorem IsCell.natDigits (n : Nat) : IsCell (natDigits n) where
  marks := fun c hc => isMark_of_digit (isDigit_natDigits n c hc)
  ne_nil := natDigits_ne_nil n

theorem isMark_rateText (r : Rat) : ∀ c ∈ rateText r, isMark c = true := by
  have hint := isDigit_natDigits (hundredths r / 100)
  have hten := isDigit_digitUnit (hundredths r % 100 / 10) (by omega)
  have hunit := isDigit_digitUnit (hundredths r % 10) (by omega)
  intro c hc
  rw [rateText, hundredthsText, List.mem_append] at hc
  rcases hc with hc | hc
  · exact isMark_of_digit (hint c hc)
  split at hc
  · cases hc
  split at hc
  · simp only [List.mem_cons, List.not_mem_nil, or_false] at hc
    rcases hc with rfl | rfl
    · decide
    · exact isMark_of_digit hten
  · simp only [List.mem_cons, List.not_mem_nil, or_false] at hc
    rcases hc with rfl | rfl | rfl
    · decide
    · exact isMark_of_digit hten
    · exact isMark_of_digit hunit

/-- The name of a bucket is made of small letters, digits and underscores. -/
theorem isMark_bucketFor (name : JsString) : ∀ c ∈ bucketFor name, isMark c = true := by
  have hfamilies : ∀ f ∈ families, f.2.all isMark = true := by decide
  have hgoes := bucketFor_goes name
  generalize bucketFor name = b at hgoes ⊢
  cases hgoes with
  | dashed f hf => exact List.all_eq_true.mp (hfamilies f hf)
  | bare => exact List.all_eq_true.mp (hfamilies _ events_mem_families)
  | word =>
    cases hword : leadingWord (bodyOf name) with
    | none => exact List.all_eq_true.mp (by decide : (js "_misc").all isMark = true)
    | some id =>
      intro c hc
      exact isMark_of_lowerOrDigit ((leadingWord_eq_some.mp hword).1.all c hc)

theorem trim_cell {s : JsString} (h : IsCell s) : trim (32 :: s ++ [32]) = s :=
  @trim_surrounded [32] s [32] (List.forall_mem_singleton.mpr rfl)
    (List.forall_mem_singleton.mpr rfl) h.ne_nil
    fun c hc => (isMark_spec (h.marks c hc)).1

/-- The cells of a row. -/
def BucketRow.cells (row : BucketRow) : List JsString :=
  [js "`" ++ row.bucket ++ js "`", natDigits row.pass, natDigits row.fail, natDigits row.timeout,
    natDigits row.crash, natDigits row.skip, natDigits row.total, rateText row.passRate ++ js "%"]

/-- A line of the table is its cells between bars. -/
theorem line_eq (row : BucketRow) :
    row.line = [124].intercalate ([] :: row.cells.map (fun s => 32 :: s ++ [32]) ++ [[]]) := by
  have hbar : js " | " = 32 :: 124 :: 32 :: [] := rfl
  have hfirst : js "| `" = 124 :: 32 :: js "`" := rfl
  have hsecond : js "` | " = js "`" ++ (32 :: 124 :: 32 :: []) := rfl
  have hlast : js "% |" = js "%" ++ [32, 124] := rfl
  simp [BucketRow.line, BucketRow.cells, hbar, hfirst, hsecond, hlast,
    List.intercalate_cons_cons]

theorem isCell_cells {row : BucketRow} (h : ∀ c ∈ row.bucket, isMark c = true) :
    ∀ s ∈ row.cells, IsCell s := by
  have htick : IsCell (js "`") := ⟨List.all_eq_true.mp (by decide), by decide⟩
  have hpercent : IsCell (js "%") := ⟨List.all_eq_true.mp (by decide), by decide⟩
  have hname : ∀ c ∈ js "`" ++ row.bucket, isMark c = true := by
    intro c hc
    rcases List.mem_append.mp hc with hc | hc
    · exact htick.marks c hc
    · exact h c hc
  intro s hs
  simp only [BucketRow.cells, List.mem_cons, List.not_mem_nil, or_false] at hs
  rcases hs with rfl | rfl | rfl | rfl | rfl | rfl | rfl | rfl
  · exact .append hname htick
  · exact .natDigits _
  · exact .natDigits _
  · exact .natDigits _
  · exact .natDigits _
  · exact .natDigits _
  · exact .natDigits _
  · exact .append (isMark_rateText _) hpercent

/-- A line of the table is read as its row. -/
theorem readRow_line {row : BucketRow} (hrate : IsRate row.passRate)
    (hbucket : ∀ c ∈ row.bucket, isMark c = true) : readRow row.line = some row := by
  have hcells := isCell_cells hbucket
  have hsplit : row.line.splitOn 124 =
      [] :: row.cells.map (fun s => 32 :: s ++ [32]) ++ [[]] := by
    rw [line_eq]
    apply List.splitOn_intercalate
    · intro l hl
      simp only [List.cons_append, List.mem_cons, List.mem_append, List.mem_map,
        List.not_mem_nil, or_false] at hl
      rcases hl with rfl | ⟨s, hs, rfl⟩ | rfl
      · simp
      · intro hmem
        have hmark := (hcells s hs).marks 124
        simp [isMark] at hmem hmark
        exact hmark hmem
      · simp
    · simp
  have htrim : (row.line.splitOn 124).map trim = [] :: row.cells ++ [[]] := by
    have hmap : (row.cells.map (fun s => 32 :: s ++ [32])).map trim = row.cells := by
      rw [List.map_map]
      calc row.cells.map (trim ∘ fun s => 32 :: s ++ [32])
          = row.cells.map id := List.map_congr_left fun s hs => trim_cell (hcells s hs)
        _ = row.cells := List.map_id _
    rw [hsplit, List.map_append, List.map_cons, hmap]
    rfl
  rw [readRow, htrim]
  have htick : js "`" ++ row.bucket ++ js "`" = 96 :: (row.bucket ++ [96]) := rfl
  have hpercent : js "%" = [37] := rfl
  simp [BucketRow.cells, htick, hpercent, digitsValue_natDigits, literalValue_rateText hrate]

/-! ## The text around the table -/

/-- Neither a bar nor the end of a line. -/
def isInline (c : UInt16) : Bool := decide (c ≠ 124) && decide (c ≠ 10)

theorem isInline_of_mark {c : UInt16} (h : isMark c = true) : isInline c = true := by
  simp [isInline, (isMark_spec h).2]

theorem all_natDigits (n : Nat) : (natDigits n).all isInline = true :=
  List.all_eq_true.mpr fun c hc =>
    isInline_of_mark (isMark_of_digit (isDigit_natDigits n c hc))

theorem all_rateText (r : Rat) : (rateText r).all isInline = true :=
  List.all_eq_true.mpr fun c hc => isInline_of_mark (isMark_rateText r c hc)

theorem all_padDigits (width n : Nat) : (padDigits width n).all isInline = true := by
  have hzero : isInline 48 = true := by decide
  rw [padDigits, List.all_append, all_natDigits, List.all_replicate, hzero]
  simp

theorem all_yearText (year : Int) : (yearText year).all isInline = true := by
  have hminus : (js "-").all isInline = true := by decide
  have hplus : (js "+").all isInline = true := by decide
  unfold yearText
  split
  · exact all_padDigits _ _
  · rw [List.all_append, all_padDigits]
    split
    · rw [hminus]; rfl
    · rw [hplus]; rfl

theorem all_isoString (t : Int) : (isoString t).all isInline = true := by
  have hpoints : ∀ s ∈ [js "-", js "T", js ":", js ".", js "Z"], s.all isInline = true := by decide
  simp only [isoString, List.all_append, all_yearText, all_padDigits, Bool.true_and, Bool.and_true]
  simp [hpoints]

theorem readRow_eq_none {line : JsString} (h : line.all isInline = true) : readRow line = none := by
  have hbar : (124 : UInt16) ∉ line := by
    intro hmem
    exact absurd (List.all_eq_true.mp h 124 hmem) (by decide)
  rw [readRow, List.splitOn_eq_singleton hbar, List.map_singleton]
  generalize trim line = t
  cases t <;> rfl

/-- What stands in front of the rows holds none. -/
theorem head_spec {minutes : Int → JsString} (hminutes : ∀ n, (minutes n).all isInline = true)
    (m : Summary) : ∀ line ∈ m.head minutes, readRow line = none ∧ (10 : UInt16) ∉ line := by
  have hplain : ∀ line : JsString, line.all isInline = true →
      readRow line = none ∧ (10 : UInt16) ∉ line := by
    intro line h
    refine ⟨readRow_eq_none h, fun hmem => ?_⟩
    exact absurd (List.all_eq_true.mp h 10 hmem) (by decide)
  intro line hline
  simp only [Summary.head, List.mem_cons, List.not_mem_nil, or_false] at hline
  rcases hline with rfl | rfl | rfl | rfl | rfl | rfl | rfl | rfl | rfl | rfl | rfl | rfl | rfl |
    rfl | rfl
  · exact hplain _ (by decide)
  · exact hplain _ (by decide)
  · exact hplain _ (by decide)
  · exact hplain _ (by decide)
  · exact hplain _ (by decide)
  · apply hplain
    rw [List.all_append, all_isoString]
    decide
  · apply hplain
    rw [List.all_append, all_isoString]
    decide
  · apply hplain
    simp only [List.all_append, hminutes]
    decide
  · apply hplain
    simp only [List.all_append, all_natDigits]
    decide
  · apply hplain
    simp only [List.all_append, all_rateText]
    decide
  · exact hplain _ (by decide)
  · exact hplain _ (by decide)
  · exact hplain _ (by decide)
  · exact ⟨rfl, by decide⟩
  · exact ⟨rfl, by decide⟩

theorem splitLines_joinLines {lines : List JsString} (h : ∀ l ∈ lines, (10 : UInt16) ∉ l)
    (hne : lines ≠ []) : splitLines (joinLines lines ++ [10]) = lines ++ [[]] := by
  have hlines : splitLines (joinLines lines) = lines := List.splitOn_intercalate 10 h hne
  rw [splitLines_append, hlines]
  rfl

theorem newline_notMem_line {row : BucketRow} (h : ∀ c ∈ row.bucket, isMark c = true) :
    (10 : UInt16) ∉ row.line := by
  have hinline : ∀ {s : JsString}, s.all isInline = true →
      s.all (fun c => decide (c ≠ 10)) = true := by
    intro s hs
    rw [List.all_eq_true] at hs ⊢
    intro c hc
    have hc := hs c hc
    simp only [isInline, Bool.and_eq_true] at hc
    exact hc.2
  have hnat := fun n => hinline (all_natDigits n)
  have hrate := fun r => hinline (all_rateText r)
  have hbucket : row.bucket.all (fun c => decide (c ≠ 10)) = true :=
    hinline (List.all_eq_true.mpr fun c hc => isInline_of_mark (h c hc))
  have hall : row.line.all (fun c => decide (c ≠ 10)) = true := by
    simp only [BucketRow.line, List.all_append, hnat, hrate, hbucket]
    decide
  intro hmem
  exact absurd (List.all_eq_true.mp hall 10 hmem) (by decide)

/-- The lines of the Markdown. -/
theorem splitLines_summaryMd {minutes : Int → JsString}
    (hminutes : ∀ n, (minutes n).all isInline = true) {m : Summary}
    (hbucket : ∀ row ∈ m.perBucket, ∀ c ∈ row.bucket, isMark c = true) :
    splitLines (summaryMd minutes m) =
      m.head minutes ++ m.perBucket.map BucketRow.line ++ [[]] ++ [[]] := by
  apply splitLines_joinLines
  · intro l hl
    simp only [List.mem_append, List.mem_map, List.mem_singleton] at hl
    rcases hl with (hl | ⟨row, hrow, rfl⟩) | rfl
    · exact (head_spec hminutes m l hl).2
    · exact newline_notMem_line (hbucket row hrow)
    · simp
  · exact List.append_ne_nil_of_right_ne_nil _ (List.cons_ne_nil _ _)

/-- The rows of a summary are read from its Markdown. -/
theorem readTable_summaryMd {minutes : Int → JsString}
    (hminutes : ∀ n, (minutes n).all isInline = true) {m : Summary}
    (hrate : ∀ row ∈ m.perBucket, IsRate row.passRate)
    (hbucket : ∀ row ∈ m.perBucket, ∀ c ∈ row.bucket, isMark c = true) :
    readTable (summaryMd minutes m) = m.perBucket := by
  have hnone : (m.head minutes).filterMap readRow = [] := by
    rw [List.filterMap_eq_nil_iff]
    exact fun line hline => (head_spec hminutes m line hline).1
  have htable : (m.perBucket.map BucketRow.line).filterMap readRow = m.perBucket := by
    have hread : ∀ row ∈ m.perBucket, (readRow ∘ BucketRow.line) row = some row := by
      intro row hrow
      rw [Function.comp_apply, readRow_line (hrate row hrow) (hbucket row hrow)]
    rw [List.filterMap_map, List.filterMap_congr hread, List.filterMap_some]
  have hend : [[]].filterMap readRow = [] := rfl
  rw [readTable, splitLines_summaryMd hminutes hbucket, List.filterMap_append,
    List.filterMap_append, List.filterMap_append, hnone, htable, hend, List.append_nil,
    List.append_nil, List.nil_append]

/-! ## The times -/

/-- The time in a line that says when the run was started or finished. -/
def readTime (line : JsString) : Option Int :=
  if startsWith line (js "* Started:    ") || startsWith line (js "* Finished:   ") then
    some (isoValue (line.drop 14))
  else none

/-- The times that a text says. -/
def readTimes (text : JsString) : List Int := (splitLines text).filterMap readTime

/-- In front of the rows there are two lines with a time. -/
theorem readTimes_head (minutes : Int → JsString) (m : Summary) :
    (m.head minutes).filterMap readTime =
      [isoValue (isoString m.startedAt), isoValue (isoString m.finishedAt)] := by
  -- it does not matter what the text of a time is
  unfold Summary.head
  generalize isoString = text
  rfl

theorem readTime_line (row : BucketRow) : readTime row.line = none := by
  simp only [BucketRow.line, List.append_assoc]
  rfl

/-- The times of a summary are read from its Markdown. -/
theorem readTimes_summaryMd {minutes : Int → JsString}
    (hminutes : ∀ n, (minutes n).all isInline = true) {m : Summary}
    (hbucket : ∀ row ∈ m.perBucket, ∀ c ∈ row.bucket, isMark c = true)
    (hstart : IsTime m.startedAt) (hfinish : IsTime m.finishedAt) :
    readTimes (summaryMd minutes m) = [m.startedAt, m.finishedAt] := by
  have hrows : (m.perBucket.map BucketRow.line).filterMap readTime = [] := by
    rw [List.filterMap_eq_nil_iff]
    intro line hline
    obtain ⟨row, -, rfl⟩ := List.mem_map.mp hline
    exact readTime_line row
  have hend : [[]].filterMap readTime = [] := rfl
  rw [readTimes, splitLines_summaryMd hminutes hbucket, List.filterMap_append,
    List.filterMap_append, List.filterMap_append, readTimes_head, hrows, hend,
    isoValue_isoString hstart, isoValue_isoString hfinish]
  rfl

/-- **The reports agree.** Entries of a ledger are summed up if the name of each is a string. Then
`corpus-results.json` is an object that holds the summary computed of them and, as its `results`,
the entries as they were; the table of `corpus-summary.md` has the rows of that summary, and its
lines say when the run was started and finished. -/
theorem reports_agree (minutes : Int → JsString) (hminutes : ∀ n, (minutes n).all isInline = true)
    (results : List Json) (startedAt finishedAt : Int) (hstart : IsTime startedAt)
    (hfinish : IsTime finishedAt) :
    ((∃ m, summaryOf results startedAt finishedAt = some m) ↔
        ∀ e ∈ results, ∃ t, e.member (js "test") = some (.string t)) ∧
      ∀ m, summaryOf results startedAt finishedAt = some m →
        ∃ v, jsonParse (resultsText m results) = some v ∧ Summary.ofJson v = some m ∧
          v.member (js "results") = some (.array results) ∧
          readTable (summaryMd minutes m) = m.perBucket ∧
          readTimes (summaryMd minutes m) = [startedAt, finishedAt] := by
  refine ⟨exists_summaryOf_iff, ?_⟩
  intro m hm
  have hread := Summary.ofJson_toJson hm
  obtain ⟨rs, -, rfl⟩ := summaryOf_eq_some.mp hm
  have hrows := isRate_row rs
  have hbucket : ∀ row ∈ (writeJsonResults rs startedAt finishedAt).perBucket,
      ∀ c ∈ row.bucket, isMark c = true := by
    intro row hrow
    obtain ⟨a, ha, rfl⟩ := List.mem_map.mp hrow
    obtain ⟨b, hb, rfl⟩ := mem_aggregateByBucket.mp ha
    obtain ⟨r, hr⟩ := List.exists_mem_of_ne_nil _ hb
    have hname : bucketFor r.test = b := by simpa using (List.mem_filter.mp hr).2
    change ∀ c ∈ (bucketAgg b _).bucket, isMark c = true
    rw [bucket_bucketAgg, ← hname]
    exact isMark_bucketFor r.test
  exact ⟨_, jsonParse_stringifyIndent _ (List.forall_mem_singleton.mpr rfl), hread, rfl,
    readTable_summaryMd hminutes hrows hbucket,
    readTimes_summaryMd hminutes hbucket hstart hfinish⟩

/-- Minutes with one decimal, rounded half up. -/
def oneDecimal (ms : Int) : JsString :=
  let tenths := (ms.toNat + 3000) / 6000
  natDigits (tenths / 10) ++ js "." ++ natDigits (tenths % 10)

theorem all_oneDecimal (ms : Int) : (oneDecimal ms).all isInline = true := by
  simp only [oneDecimal, List.all_append, all_natDigits]
  decide

/-- A test that passed, one of another module that failed, and an entry without a status. -/
def threeEntries : List Json :=
  [.object [(js "test", .string (js "test-fs-open.js")), (js "status", .string (js "pass"))],
    .object [(js "test", .string (js "test-worker-a.js")), (js "status", .string (js "fail"))],
    .object [(js "test", .string (js "test-fs-a.js"))]]

theorem reports_agree_threeEntries :
    ∃ m v, summaryOf threeEntries 0 30000 = some m ∧
      jsonParse (resultsText m threeEntries) = some v ∧ Summary.ofJson v = some m ∧
      v.member (js "results") = some (.array threeEntries) ∧
      readTable (summaryMd oneDecimal m) =
        [⟨js "fs", 1, 1, 0, 0, 0, 2, 50⟩, ⟨js "worker_threads", 0, 1, 0, 0, 0, 1, 0⟩] ∧
      readTimes (summaryMd oneDecimal m) = [0, 30000] := by
  have hrows : (summaryOf threeEntries 0 30000).map Summary.perBucket =
      some [⟨js "fs", 1, 1, 0, 0, 0, 2, 50⟩, ⟨js "worker_threads", 0, 1, 0, 0, 0, 1, 0⟩] := by
    decide +kernel
  obtain ⟨m, hm, hrows⟩ := Option.map_eq_some_iff.mp hrows
  obtain ⟨-, hagree⟩ :=
    reports_agree oneDecimal all_oneDecimal threeEntries 0 30000 (by decide) (by decide)
  obtain ⟨v, hv, hread, hresults, htable, htimes⟩ := hagree m hm
  exact ⟨m, v, hm, hv, hread, hresults, htable.trans hrows, htimes⟩

end CorpusRunner
