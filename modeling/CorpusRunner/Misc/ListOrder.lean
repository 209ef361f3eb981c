import Mathlib.Data.List.Nodup
import Mathlib.Data.List.Sort
import Mathlib.Data.List.TakeWhile

/-!
# Places in a list

`before l t` is the part of `l` in front of the first `t`. In a list without repetitions it is
decided by the two-element sublists. `FirstMin f l a` says that `a` is the first of the
elements at which `f` is least; a stable sort puts it in front (`head_insertionSort`).
-/

namespace CorpusRunner

variable {α : Type} [DecidableEq α]

/-- The elements of `l` in front of the first `t`. -/
def before (l : List α) (t : α) : List α := l.takeWhile (fun a => decide (a ≠ t))

theorem before_sublist (l : List α) (t : α) : (before l t).Sublist l :=
  List.takeWhile_sublist _

theorem notMem_before (l : List α) (t : α) : t ∉ before l t := by
  intro h
  simpa using List.mem_takeWhile_imp h

theorem mem_before_of_pair_sublist {l : List α} {a b : α} (hnd : l.Nodup)
    (h : [a, b].Sublist l) : a ∈ before l b := by
  induction l with
  | nil => cases h
  | cons x l ih =>
    rw [List.nodup_cons] at hnd
    cases h with
    | cons _ h =>
      have hb : b ∈ l := h.subset (by simp)
      have hx : x ≠ b := fun e => hnd.1 (e ▸ hb)
      simp only [before, List.takeWhile_cons, decide_eq_true_eq, hx, ne_eq, not_false_eq_true,
        if_true, List.mem_cons]
      exact .inr (ih hnd.2 h)
    | cons_cons _ h =>
      have hb : b ∈ l := h.subset (by simp)
      have hx : a ≠ b := fun e => hnd.1 (e ▸ hb)
      simp [before, hx]

theorem notMem_before_of_pair_sublist {l : List α} {a b : α} (hnd : l.Nodup)
    (h : [b, a].Sublist l) : a ∉ before l b := by
  induction l with
  | nil => cases h
  | cons x l ih =>
    rw [List.nodup_cons] at hnd
    cases h with
    | cons _ h =>
      have hb : b ∈ l := h.subset (by simp)
      have ha : a ∈ l := h.subset (by simp)
      have hx : x ≠ b := fun e => hnd.1 (e ▸ hb)
      have hax : a ≠ x := fun e => hnd.1 (e ▸ ha)
      simp only [before, List.takeWhile_cons, decide_eq_true_eq, hx, ne_eq, not_false_eq_true,
        if_true, List.mem_cons, hax, false_or]
      exact ih hnd.2 h
    | cons_cons _ h => simp [before]

/-- The first element of a sublist is any given element of it or stands before it. -/
theorem head_eq_or_mem_before {l s : List α} {a b : α} (hnd : l.Nodup)
    (h : (a :: s).Sublist l) (hb : b ∈ a :: s) : a = b ∨ a ∈ before l b := by
  rcases List.mem_cons.mp hb with rfl | hb
  · exact .inl rfl
  · refine .inr (mem_before_of_pair_sublist hnd (List.Sublist.trans ?_ h))
    exact (List.singleton_sublist.mpr hb).cons_cons a

/-! ## The first of the least elements -/

section FirstMin

variable {γ β : Type} [LinearOrder β]

/-- `a` stands in `l` at a place where `f` is least, and at none in front of it. -/
def FirstMin (f : γ → β) (l : List γ) (a : γ) : Prop :=
  ∃ pre post, l = pre ++ a :: post ∧ (∀ x ∈ pre, f a < f x) ∧ ∀ x ∈ post, f a ≤ f x

theorem FirstMin.mem {f : γ → β} {l : List γ} {a : γ} (h : FirstMin f l a) : a ∈ l := by
  obtain ⟨pre, post, rfl, -, -⟩ := h
  simp

/-- A stable sort by `f` begins with the first of the least. -/
theorem head_insertionSort (f : γ → β) {l : List γ} (h : l ≠ []) :
    ∃ a s, FirstMin f l a ∧ l.insertionSort (fun a b => f a ≤ f b) = a :: s := by
  induction l with
  | nil => exact absurd rfl h
  | cons x l ih =>
    rw [List.insertionSort_cons]
    by_cases hl : l = []
    · subst hl
      exact ⟨x, [], ⟨[], [], rfl, by simp, by simp⟩, rfl⟩
    · obtain ⟨a, s, ⟨pre, post, hsplit, hpre, hpost⟩, hsort⟩ := ih hl
      rw [hsort]
      by_cases hxa : f x ≤ f a
      · refine ⟨x, a :: s, ⟨[], l, rfl, by simp, ?_⟩, by simp [hxa]⟩
        intro y hy
        rw [hsplit, List.mem_append, List.mem_cons] at hy
        rcases hy with hy | rfl | hy
        · exact hxa.trans (hpre y hy).le
        · exact hxa
        · exact hxa.trans (hpost y hy)
      · refine ⟨a, s.orderedInsert (fun a b => f a ≤ f b) x,
          ⟨x :: pre, post, by simp [hsplit], ?_, hpost⟩, by simp [hxa]⟩
        intro y hy
        rcases List.mem_cons.mp hy with rfl | hy
        · exact not_le.mp hxa
        · exact hpre y hy

end FirstMin

/-! ## Elements by number -/

omit [DecidableEq α] in
theorem getElem?_concat_cases {l : List α} {a b : α} {i : Nat} (h : (l ++ [a])[i]? = some b) :
    i < l.length ∧ l[i]? = some b ∨ i = l.length ∧ b = a := by
  rcases Nat.lt_trichotomy i l.length with hi | rfl | hi
  · rw [List.getElem?_append_left hi] at h
    exact .inl ⟨hi, h⟩
  · rw [List.getElem?_concat_length] at h
    exact .inr ⟨rfl, (Option.some.inj h).symm⟩
  · have hlt := (List.getElem?_eq_some_iff.mp h).1
    rw [List.length_append, List.length_singleton] at hlt
    omega

omit [DecidableEq α] in
theorem getElem?_set_cases {l : List α} {a b : α} {i j : Nat} (h : (l.set i a)[j]? = some b) :
    j = i ∧ b = a ∨ j ≠ i ∧ l[j]? = some b := by
  by_cases hij : j = i
  · subst hij
    have hlt := (List.getElem?_eq_some_iff.mp h).1
    rw [List.length_set] at hlt
    rw [List.getElem?_set_self hlt] at h
    exact .inl ⟨rfl, (Option.some.inj h).symm⟩
  · rw [List.getElem?_set_ne (Ne.symm hij)] at h
    exact .inr ⟨hij, h⟩

omit [DecidableEq α] in
/-- Of different elements of a list, one has at least as many behind it as there are others. -/
theorem exists_idxOf_add_length_le [BEq α] [LawfulBEq α] {l m : List α} (hnd : l.Nodup)
    (hsub : l ⊆ m) (hne : l ≠ []) : ∃ a ∈ l, m.idxOf a + l.length ≤ m.length := by
  by_contra hnone
  push Not at hnone
  have hpos : 0 < l.length := List.length_pos_iff.mpr hne
  have hmore := List.Nodup.length_le_of_subset hnd hsub
  have hlate : l ⊆ m.drop (m.length - l.length + 1) := by
    intro a ha
    have hidx := hnone a ha
    have hlt := List.idxOf_lt_length_of_mem (hsub ha)
    obtain ⟨i, hi⟩ : ∃ i, m.length - l.length + 1 + i = m.idxOf a :=
      ⟨m.idxOf a - (m.length - l.length + 1), by omega⟩
    refine List.mem_drop_iff_getElem.mpr ⟨i, by omega, ?_⟩
    simp only [hi]
    exact List.getElem_idxOf hlt
  have hle := List.Nodup.length_le_of_subset hnd hlate
  rw [List.length_drop] at hle
  omega

end CorpusRunner
