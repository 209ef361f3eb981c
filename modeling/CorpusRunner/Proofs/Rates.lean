import CorpusRunner.Misc.Ratio
import CorpusRunner.Proofs.Conservation
import Mathlib.Algebra.BigOperators.Ring.Finset

/-!
# Rates

The rates of a summary are rounded quotients of its counters, each behind a guard. That no guard
lets a zero through is said by a second reading of the function in which a division by zero has
no result (`checkedJsonResults`). The overall rate is the mean of the rates of the buckets,
weighted with their totals, and rounding keeps its place between them (`rates_consistent`).
-/

namespace CorpusRunner

/-! ## Checked divisions -/

/-- No result where the denominator is zero. -/
def divide (a b : Rat) : Option Rat := if b = 0 then none else some (a / b)

/-- A rate behind its guard, the division checked. -/
def checkedRate (isZero : Bool) (n d : Rat) : Option Rat :=
  if isZero then some 0 else (divide n d).map roundRate

/-- A row, its division checked (`corpus-format.mjs:92`). -/
def BucketAgg.checkedRow (a : BucketAgg) : Option BucketRow := do
  let passRate ← checkedRate (a.total = 0) a.pass a.total
  return { a.row with passRate }

/-- The summary, its divisions checked (`corpus-format.mjs:82-93`). -/
def checkedJsonResults (results : List Result) (startedAt finishedAt : Int) : Option Summary := do
  let s := writeJsonResults results startedAt finishedAt
  let passRate ← checkedRate (s.totalTests = 0) s.pass s.totalTests
  let passRateExclSkip ←
    checkedRate ((s.totalTests : Int) - s.skip = 0) s.pass (s.totalTests - s.skip)
  let perBucket ← (aggregateByBucket results).mapM BucketAgg.checkedRow
  return { s with passRate, passRateExclSkip, perBucket }

theorem checkedRate_eq {isZero : Prop} [Decidable isZero] {n d : Rat} (h : d = 0 → isZero) :
    checkedRate (decide isZero) n d = some (if isZero then 0 else roundRate (n / d)) := by
  by_cases hzero : isZero
  · rw [checkedRate, if_pos (decide_eq_true hzero), if_pos hzero]
  · have hd : d ≠ 0 := fun hd => hzero (h hd)
    rw [checkedRate, if_neg (by simpa using hzero), if_neg hzero, divide, if_neg hd,
      Option.map_some]

theorem checkedRow_eq (a : BucketAgg) : a.checkedRow = some a.row := by
  rw [BucketAgg.checkedRow, checkedRate_eq Nat.cast_eq_zero.mp]
  rfl

/-- Each guard asks for the zero of its own denominator. -/
theorem checkedJsonResults_eq (results : List Result) (startedAt finishedAt : Int) :
    checkedJsonResults results startedAt finishedAt =
      some (writeJsonResults results startedAt finishedAt) := by
  have hexcl (n m : Nat) : (n : Rat) - m = 0 → (n : Int) - m = 0 := by
    intro h
    exact_mod_cast h
  have hrows : (aggregateByBucket results).mapM BucketAgg.checkedRow =
      some ((aggregateByBucket results).map BucketAgg.row) := by
    rw [funext checkedRow_eq]
    exact List.mapM_pure
  simp only [checkedJsonResults]
  rw [checkedRate_eq Nat.cast_eq_zero.mp, checkedRate_eq (hexcl _ _), hrows]
  rfl

/-! ## Rounded rates -/

theorem roundRate_mono {x y : Rat} (h : x ≤ y) : roundRate x ≤ roundRate y := by
  have hround : mathRound (x * 10000) ≤ mathRound (y * 10000) :=
    floor_half_mono (mul_le_mul_of_nonneg_right h (by norm_num))
  have hcast : (mathRound (x * 10000) : Rat) ≤ mathRound (y * 10000) := Int.cast_le.mpr hround
  exact div_le_div_of_nonneg_right hcast (by norm_num)

theorem roundRate_zero : roundRate 0 = 0 := by
  have hround : mathRound (0 * 10000) = 0 := by
    rw [zero_mul]
    exact floor_half_intCast 0
  rw [roundRate, hround]
  norm_num

theorem roundRate_one : roundRate 1 = 100 := by
  have hround : mathRound (1 * 10000) = 10000 := by
    rw [one_mul]
    exact floor_half_intCast 10000
  rw [roundRate, hround]
  norm_num

theorem roundRate_nonneg {x : Rat} (h : 0 ≤ x) : 0 ≤ roundRate x :=
  roundRate_zero ▸ roundRate_mono h

theorem roundRate_le_hundred {x : Rat} (h : x ≤ 1) : roundRate x ≤ 100 :=
  roundRate_one ▸ roundRate_mono h

/-! ## Counters -/

/-- A test that passed was not skipped. -/
theorem pass_add_skip_le (rs : List Result) :
    countStatus rs .pass + countStatus rs .skip ≤ rs.length := by
  have hsum := sum_counts rs
  omega

theorem pass_le_total (b : JsString) (rs : List Result) :
    (bucketAgg b rs).pass ≤ (bucketAgg b rs).total := by
  have hsum := sum_bucketAgg b rs
  omega

theorem total_pos {rs : List Result} {a : BucketAgg} (ha : a ∈ aggregateByBucket rs) :
    0 < a.total := by
  obtain ⟨b, hb, rfl⟩ := mem_aggregateByBucket.mp ha
  rw [total_bucketAgg]
  exact List.length_pos_of_ne_nil hb

theorem aggregateByBucket_ne_nil {rs : List Result} (h : rs ≠ []) :
    aggregateByBucket rs ≠ [] := by
  obtain ⟨r, hr⟩ := List.exists_mem_of_ne_nil rs h
  have hin : inBucket (bucketFor r.test) rs ≠ [] :=
    List.ne_nil_of_mem (List.mem_filter.mpr ⟨hr, decide_eq_true rfl⟩)
  exact List.ne_nil_of_mem (mem_aggregateByBucket.mpr ⟨_, hin, rfl⟩)

theorem sum_pass (rs : List Result) :
    ((aggregateByBucket rs).map (fun a => (a.pass : Rat))).sum = countStatus rs .pass := by
  rw [← sum_isStatus, ← sum_aggregateByBucket column_pass, Nat.cast_list_sum, List.map_map]
  rfl

theorem sum_total (rs : List Result) :
    ((aggregateByBucket rs).map (fun a => (a.total : Rat))).sum = rs.length := by
  have hlength : (rs.map (fun _ => 1)).sum = rs.length := by simp
  rw [← hlength, ← sum_aggregateByBucket column_total, Nat.cast_list_sum, List.map_map]
  rfl

/-! ## The summary -/

theorem row_passRate {rs : List Result} {a : BucketAgg} (ha : a ∈ aggregateByBucket rs) :
    a.row.passRate = roundRate (a.pass / a.total) :=
  if_neg (total_pos ha).ne'

/-- The rates of a summary fit together. -/
structure RatesConsistent (results : List Result) (startedAt finishedAt : Int)
    (s : Summary) : Prop where
  divisions : checkedJsonResults results startedAt finishedAt = some s
  nonneg : 0 ≤ s.passRate
  exclSkip : s.passRate ≤ s.passRateExclSkip
  hundred : s.passRateExclSkip ≤ 100
  rows : ∀ row ∈ s.perBucket, 0 ≤ row.passRate ∧ row.passRate ≤ 100
  between : results ≠ [] → ∃ least ∈ s.perBucket, ∃ greatest ∈ s.perBucket,
    (∀ row ∈ s.perBucket,
      least.passRate ≤ row.passRate ∧ row.passRate ≤ greatest.passRate) ∧
    least.passRate ≤ s.passRate ∧ s.passRate ≤ greatest.passRate

theorem passRate_le_exclSkip (rs : List Result) (startedAt finishedAt : Int) :
    let s := writeJsonResults rs startedAt finishedAt
    0 ≤ s.passRate ∧ s.passRate ≤ s.passRateExclSkip ∧ s.passRateExclSkip ≤ 100 := by
  have hle := pass_add_skip_le rs
  simp only [writeJsonResults]
  generalize countStatus rs .pass = pass at hle ⊢
  generalize countStatus rs .skip = skip at hle ⊢
  generalize rs.length = total at hle ⊢
  have hpass : (0 : Rat) ≤ pass := Nat.cast_nonneg _
  have hskip : (0 : Rat) ≤ skip := Nat.cast_nonneg _
  have hcast : (pass : Rat) + skip ≤ total := by exact_mod_cast hle
  by_cases hexcl : (total : Int) - skip = 0
  · -- Everything was skipped, so nothing passed.
    have hzero : pass = 0 := by omega
    simp [hexcl, hzero, roundRate_zero]
  · have htotal : total ≠ 0 := by omega
    have hpos : (0 : Rat) < total - skip := by
      have hlt : skip < total := by omega
      have hlt' : (skip : Rat) < total := by exact_mod_cast hlt
      linarith
    rw [if_neg hexcl, if_neg htotal]
    refine ⟨roundRate_nonneg (by positivity), roundRate_mono ?_, roundRate_le_hundred ?_⟩
    · exact div_le_div_of_nonneg_left hpass hpos (by linarith)
    · rw [div_le_one hpos]
      linarith

theorem row_passRate_bounds {rs : List Result} {a : BucketAgg}
    (ha : a ∈ aggregateByBucket rs) : 0 ≤ a.row.passRate ∧ a.row.passRate ≤ 100 := by
  have hpos : (0 : Rat) < a.total := Nat.cast_pos.mpr (total_pos ha)
  rw [row_passRate ha]
  obtain ⟨b, -, rfl⟩ := mem_aggregateByBucket.mp ha
  have hle : ((bucketAgg b rs).pass : Rat) ≤ (bucketAgg b rs).total :=
    Nat.cast_le.mpr (pass_le_total b rs)
  refine ⟨roundRate_nonneg (by positivity), roundRate_le_hundred ?_⟩
  exact (div_le_one hpos).mpr hle

/-- The overall rate is a mean of the rates of the rows. -/
theorem passRate_between {rs : List Result} (hne : rs ≠ []) (startedAt finishedAt : Int) :
    let s := writeJsonResults rs startedAt finishedAt
    ∃ least ∈ s.perBucket, ∃ greatest ∈ s.perBucket,
      (∀ row ∈ s.perBucket,
        least.passRate ≤ row.passRate ∧ row.passRate ≤ greatest.passRate) ∧
      least.passRate ≤ s.passRate ∧ s.passRate ≤ greatest.passRate := by
  intro s
  have hrate : s.passRate = roundRate (countStatus rs .pass / rs.length) :=
    if_neg (List.length_pos_of_ne_nil hne).ne'
  obtain ⟨least, hleast, greatest, hgreatest, hall, hlow, hhigh⟩ :=
    exists_ratio_bounds (fun a : BucketAgg => (a.pass : Rat)) (fun a => (a.total : Rat))
      (aggregateByBucket_ne_nil hne) (fun a ha => Nat.cast_pos.mpr (total_pos ha))
  rw [sum_pass, sum_total] at hlow hhigh
  refine ⟨least.row, List.mem_map_of_mem hleast, greatest.row, List.mem_map_of_mem hgreatest,
    ?_, ?_, ?_⟩
  · intro row hrow
    obtain ⟨a, ha, rfl⟩ := List.mem_map.mp hrow
    rw [row_passRate hleast, row_passRate ha, row_passRate hgreatest]
    exact ⟨roundRate_mono (hall a ha).1, roundRate_mono (hall a ha).2⟩
  · rw [row_passRate hleast, hrate]
    exact roundRate_mono hlow
  · rw [row_passRate hgreatest, hrate]
    exact roundRate_mono hhigh

/-- The rates fit together for every list of results; that the statuses are known is not
needed, since only passes and skips are counted. -/
theorem rates_consistent (results : List Result) (startedAt finishedAt : Int) :
    RatesConsistent results startedAt finishedAt
      (writeJsonResults results startedAt finishedAt) := by
  obtain ⟨hnonneg, hexcl, hhundred⟩ := passRate_le_exclSkip results startedAt finishedAt
  refine ⟨checkedJsonResults_eq _ _ _, hnonneg, hexcl, hhundred, ?_, ?_⟩
  · intro row hrow
    obtain ⟨a, ha, rfl⟩ := List.mem_map.mp hrow
    exact row_passRate_bounds ha
  · exact fun hne => passRate_between hne startedAt finishedAt

end CorpusRunner
