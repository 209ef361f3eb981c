import Mathlib.Data.List.Infix

/-!
# Files that only grow

Records are appended to a file one by one, each as a line: the record's text, and an end mark. A
reader may come at any moment, and then finds the file cut wherever the last append has got to.
The records whose text is there as a whole (`LineFormat.whole`) only become more
(`LineFormat.whole_mono`), and a reader that takes the lines one by one and makes nothing of the
beginning of one is given these (`LineFormat.read_eq_foldl`). The units of a text are arbitrary:
code units, or bytes.
-/

namespace CorpusRunner

/-- How a record stands in the file. -/
structure LineFormat (ρ α : Type) where
  text : ρ → List α
  eol : α
  text_ne : ∀ r, text r ≠ []

namespace LineFormat

variable {ρ α σ : Type} (f : LineFormat ρ α)

/-- What is appended for a record. -/
def line (r : ρ) : List α := f.text r ++ [f.eol]

/-- A file to which records were appended one by one. -/
def file (rs : List ρ) : List α := rs.flatMap f.line

/-- The records whose whole text lies in `p`, the beginning of the file. -/
def whole [DecidableEq α] (p : List α) : List ρ → List ρ
  | [] => []
  | r :: rs => if f.text r <+: p then r :: whole (p.drop (f.line r).length) rs else []

/-- Where the file that starts with `r` can be cut: inside the text, right behind it, or behind
the line. -/
theorem prefix_file_cons {r : ρ} {rs : List ρ} {p : List α} (h : p <+: f.file (r :: rs)) :
    (p <+: f.text r ∧ p ≠ f.text r) ∨ p = f.text r ∨ ∃ q, p = f.line r ++ q ∧ q <+: f.file rs := by
  have hfile : f.file (r :: rs) = f.line r ++ f.file rs := rfl
  have hline : f.line r <+: f.file (r :: rs) := hfile ▸ List.prefix_append _ _
  rcases List.prefix_or_prefix_of_prefix h hline with hp | ⟨q, rfl⟩
  · rw [line, List.prefix_concat_iff] at hp
    rcases hp with rfl | hp
    · exact .inr (.inr ⟨[], (List.append_nil _).symm, List.nil_prefix⟩)
    · by_cases heq : p = f.text r
      · exact .inr (.inl heq)
      · exact .inl ⟨hp, heq⟩
  · rw [hfile, List.prefix_append_right_inj] at h
    exact .inr (.inr ⟨q, rfl, h⟩)

variable [DecidableEq α]

theorem whole_nil (rs : List ρ) : f.whole [] rs = [] := by
  cases rs with
  | nil => rfl
  | cons r rs => simp [whole, f.text_ne r]

theorem whole_line (r : ρ) (rs : List ρ) (p : List α) :
    f.whole (f.line r ++ p) (r :: rs) = r :: f.whole p rs := by
  have hpre : f.text r <+: f.line r ++ p := by
    rw [line, List.append_assoc]
    exact List.prefix_append _ _
  rw [whole, if_pos hpre, List.drop_left]

theorem whole_file (rs : List ρ) : f.whole (f.file rs) rs = rs := by
  induction rs with
  | nil => rfl
  | cons r rs ih =>
    change f.whole (f.line r ++ f.file rs) (r :: rs) = r :: rs
    rw [whole_line, ih]

/-- As the file grows, records come in behind those that were there. -/
theorem whole_mono {p q : List α} (h : p <+: q) (rs : List ρ) : f.whole p rs <+: f.whole q rs := by
  induction rs generalizing p q with
  | nil => exact List.prefix_rfl
  | cons r rs ih =>
    rw [whole, whole]
    by_cases hp : f.text r <+: p
    · rw [if_pos hp, if_pos (hp.trans h)]
      apply (List.prefix_cons_inj r).mpr
      apply ih
      obtain ⟨s, rfl⟩ := h
      rw [List.drop_append]
      exact List.prefix_append _ _
    · rw [if_neg hp]
      exact List.nil_prefix

/-- A reader that adds the record of a whole text, with or without the end mark behind it, and
adds nothing for the beginning of one. The induction is on the records; the cut is inside the
first one, right behind it, or further on. -/
theorem read_eq_foldl (read : List α → σ → σ) {add : σ → ρ → σ} (hnil : ∀ s, read [] s = s)
    (hcut : ∀ r p s, p <+: f.text r → p ≠ f.text r → read p s = s)
    (htext : ∀ r s, read (f.text r) s = add s r)
    (hline : ∀ r q s, read (f.line r ++ q) s = read q (add s r)) {rs : List ρ} {p : List α}
    (h : p <+: f.file rs) (s : σ) : read p s = (f.whole p rs).foldl add s := by
  induction rs generalizing p s with
  | nil =>
    obtain rfl : p = [] := List.prefix_nil.mp h
    exact hnil s
  | cons r rs ih =>
    rcases f.prefix_file_cons h with ⟨hp, hne⟩ | rfl | ⟨q, rfl, hq⟩
    · have hnot : ¬ f.text r <+: p := by
        intro hle
        exact hne (hp.eq_of_length_le hle.length_le)
      rw [whole, if_neg hnot]
      exact hcut r p s hp hne
    · have hrest : (f.text r).drop (f.line r).length = [] :=
        List.drop_of_length_le (by simp [line])
      rw [whole, if_pos List.prefix_rfl, hrest, whole_nil]
      exact htext r s
    · rw [hline, whole_line, List.foldl_cons]
      exact ih hq _

end LineFormat

end CorpusRunner
