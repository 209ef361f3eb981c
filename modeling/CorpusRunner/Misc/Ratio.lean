import Mathlib.Algebra.BigOperators.Ring.List
import Mathlib.Algebra.Order.BigOperators.Group.List
import Mathlib.Algebra.Order.Field.Basic
import Mathlib.Data.Finset.Max
import Mathlib.Data.Rat.Floor
import Mathlib.Tactic.Linarith

/-!
# Ratios of sums

A ratio of two sums over the same list lies between the least and the greatest of the ratios of
its members. Rounding half up is monotone and keeps the integers.
-/

namespace CorpusRunner

/-! ## Weighted means -/

section Mean

variable {α K : Type*} [Field K] [LinearOrder K] [IsStrictOrderedRing K]

theorem mul_sum_le_sum {num den : α → K} {q : K} {l : List α}
    (h : ∀ a ∈ l, q * den a ≤ num a) : q * (l.map den).sum ≤ (l.map num).sum := by
  rw [← List.sum_map_mul_left]
  exact List.sum_le_sum h

theorem sum_le_mul_sum {num den : α → K} {q : K} {l : List α}
    (h : ∀ a ∈ l, num a ≤ q * den a) : (l.map num).sum ≤ q * (l.map den).sum := by
  rw [← List.sum_map_mul_left]
  exact List.sum_le_sum h

theorem sum_map_pos {den : α → K} {l : List α} (hl : l ≠ []) (hden : ∀ a ∈ l, 0 < den a) :
    0 < (l.map den).sum := by
  apply List.sum_pos
  · exact List.forall_mem_map.mpr hden
  · exact fun h => hl (List.map_eq_nil_iff.mp h)

/-- Two members hold all ratios between theirs, the ratio of the sums as well. -/
theorem exists_ratio_bounds (num den : α → K) {l : List α} (hl : l ≠ [])
    (hden : ∀ a ∈ l, 0 < den a) :
    ∃ least ∈ l, ∃ greatest ∈ l,
      (∀ a ∈ l, num least / den least ≤ num a / den a ∧
        num a / den a ≤ num greatest / den greatest) ∧
      num least / den least ≤ (l.map num).sum / (l.map den).sum ∧
      (l.map num).sum / (l.map den).sum ≤ num greatest / den greatest := by
  classical
  have hne : l.toFinset.Nonempty := List.toFinset_nonempty_iff l |>.mpr hl
  obtain ⟨least, hleast, hmin⟩ := l.toFinset.exists_min_image (fun a => num a / den a) hne
  obtain ⟨greatest, hgreatest, hmax⟩ := l.toFinset.exists_max_image (fun a => num a / den a) hne
  simp only [List.mem_toFinset] at hleast hgreatest hmin hmax
  have hpos := sum_map_pos hl hden
  refine ⟨least, hleast, greatest, hgreatest, fun a ha => ⟨hmin a ha, hmax a ha⟩, ?_, ?_⟩
  · rw [le_div_iff₀ hpos]
    exact mul_sum_le_sum fun a ha => (le_div_iff₀ (hden a ha)).mp (hmin a ha)
  · rw [div_le_iff₀ hpos]
    exact sum_le_mul_sum fun a ha => (div_le_iff₀ (hden a ha)).mp (hmax a ha)

end Mean

/-! ## Rounding half up -/

theorem floor_half_mono {x y : Rat} (h : x ≤ y) : ⌊x + 1 / 2⌋ ≤ ⌊y + 1 / 2⌋ :=
  Int.floor_le_floor (by linarith)

theorem floor_half_intCast (n : Int) : ⌊(n : Rat) + 1 / 2⌋ = n := by
  rw [Int.floor_intCast_add]
  norm_num

end CorpusRunner
