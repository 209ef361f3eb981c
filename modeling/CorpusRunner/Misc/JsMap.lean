import Mathlib.Algebra.GroupWithZero.Nat
import Mathlib.Data.List.Nodup
import Mathlib.Data.List.Basic

/-!
# JavaScript `Map`

A `Map` is its list of entries in insertion order, with pairwise distinct keys carried as a
field. `set` on a present key keeps the entry's place; on an absent one it appends.
-/

namespace CorpusRunner

/-- A JavaScript `Map`: entries in insertion order, no key twice. -/
structure JsMap (κ ν : Type) where
  entries : List (κ × ν)
  nodup : (entries.map Prod.fst).Nodup

namespace JsMap

variable {κ ν : Type}

@[ext] theorem ext {m m' : JsMap κ ν} (h : m.entries = m'.entries) : m = m' := by
  cases m; cases m'; subst h; rfl

/-- `new Map()`. -/
def empty : JsMap κ ν := ⟨[], by simp⟩

/-- `[...m.keys()]`. -/
def keys (m : JsMap κ ν) : List κ := m.entries.map Prod.fst

/-- `m.size`. -/
def size (m : JsMap κ ν) : Nat := m.entries.length

@[simp] theorem keys_empty : (empty : JsMap κ ν).keys = [] := rfl
@[simp] theorem entries_empty : (empty : JsMap κ ν).entries = [] := rfl
@[simp] theorem size_empty : (empty : JsMap κ ν).size = 0 := rfl

theorem keys_nodup (m : JsMap κ ν) : m.keys.Nodup := m.nodup

@[simp] theorem length_keys (m : JsMap κ ν) : m.keys.length = m.size := by
  simp [keys, size]

theorem mem_keys_of_mem_entries {m : JsMap κ ν} {p : κ × ν} (h : p ∈ m.entries) :
    p.1 ∈ m.keys :=
  List.mem_map_of_mem h

theorem eq_empty_of_keys {m : JsMap κ ν} (h : m.keys = []) : m = empty := by
  apply ext
  simpa [keys] using h

/-- Every value under its key, changed by `f`. -/
def mapValues {ν' : Type} (f : ν → ν') (m : JsMap κ ν) : JsMap κ ν' where
  entries := m.entries.map (fun p => (p.1, f p.2))
  nodup := by
    rw [List.map_map]
    exact m.nodup

@[simp] theorem mapValues_empty {ν' : Type} (f : ν → ν') :
    (empty : JsMap κ ν).mapValues f = empty := rfl

@[simp] theorem keys_mapValues {ν' : Type} (f : ν → ν') (m : JsMap κ ν) :
    (m.mapValues f).keys = m.keys := by
  simp only [keys, mapValues, List.map_map]
  rfl

variable [DecidableEq κ]

instance [DecidableEq ν] : DecidableEq (JsMap κ ν) := fun m m' =>
  decidable_of_iff (m.entries = m'.entries) ⟨ext, fun h => h ▸ rfl⟩

/-- `m.has(k)`. -/
def has (m : JsMap κ ν) (k : κ) : Bool := decide (k ∈ m.keys)

/-- `m.get(k)`; `undefined` is `none`. -/
def get? (m : JsMap κ ν) (k : κ) : Option ν :=
  (m.entries.find? (fun p => decide (p.1 = k))).map Prod.snd

/-- Change the value under `k`, if there is one. -/
def modify (m : JsMap κ ν) (k : κ) (f : ν → ν) : JsMap κ ν where
  entries := m.entries.map (fun p => if p.1 = k then (p.1, f p.2) else p)
  nodup := by
    have h : (m.entries.map (fun p => if p.1 = k then (p.1, f p.2) else p)).map Prod.fst =
        m.entries.map Prod.fst := by
      rw [List.map_map]
      apply List.map_congr_left
      intro p _
      simp only [Function.comp]
      split <;> rfl
    exact h ▸ m.nodup

/-- `m.set(k, v)`. -/
def set (m : JsMap κ ν) (k : κ) (v : ν) : JsMap κ ν :=
  if h : k ∈ m.keys then m.modify k (fun _ => v)
  else {
    entries := m.entries ++ [(k, v)]
    nodup := by
      rw [List.map_append, List.nodup_append]
      refine ⟨m.nodup, by simp, ?_⟩
      rintro a ha b hb rfl
      simp only [List.map_cons, List.map_nil, List.mem_singleton] at hb
      exact h (hb ▸ ha) }

/-- `m.delete(k)`. -/
def delete (m : JsMap κ ν) (k : κ) : JsMap κ ν where
  entries := m.entries.filter (fun p => decide (p.1 ≠ k))
  nodup := List.Nodup.sublist (List.filter_sublist.map _) m.nodup

@[simp] theorem has_iff (m : JsMap κ ν) (k : κ) : m.has k = true ↔ k ∈ m.keys := by
  simp [has]

@[simp] theorem has_eq_false (m : JsMap κ ν) (k : κ) : m.has k = false ↔ k ∉ m.keys := by
  simp [has]

@[simp] theorem has_mapValues {ν' : Type} (g : ν → ν') (m : JsMap κ ν) (k : κ) :
    (m.mapValues g).has k = m.has k := by
  simp only [has, keys_mapValues]

@[simp] theorem keys_modify (m : JsMap κ ν) (k : κ) (f : ν → ν) :
    (m.modify k f).keys = m.keys := by
  simp only [keys, modify, List.map_map]
  apply List.map_congr_left
  intro p _
  simp only [Function.comp]
  split <;> rfl

@[simp] theorem size_modify (m : JsMap κ ν) (k : κ) (f : ν → ν) :
    (m.modify k f).size = m.size := by
  simp [size, modify]

theorem entries_set_of_notMem {m : JsMap κ ν} {k : κ} (h : k ∉ m.keys) (v : ν) :
    (m.set k v).entries = m.entries ++ [(k, v)] := by
  simp [set, h]

theorem keys_set_of_notMem {m : JsMap κ ν} {k : κ} (h : k ∉ m.keys) (v : ν) :
    (m.set k v).keys = m.keys ++ [k] := by
  simp [keys, entries_set_of_notMem h]

theorem keys_set_of_mem {m : JsMap κ ν} {k : κ} (h : k ∈ m.keys) (v : ν) :
    (m.set k v).keys = m.keys := by
  rw [set, dif_pos h, keys_modify]

@[simp] theorem mem_keys_set {m : JsMap κ ν} {k k' : κ} {v : ν} :
    k' ∈ (m.set k v).keys ↔ k' ∈ m.keys ∨ k' = k := by
  by_cases h : k ∈ m.keys
  · rw [keys_set_of_mem h]
    constructor
    · exact Or.inl
    · rintro (h' | rfl)
      · exact h'
      · exact h
  · rw [keys_set_of_notMem h]
    simp

theorem size_set (m : JsMap κ ν) (k : κ) (v : ν) :
    (m.set k v).size = if k ∈ m.keys then m.size else m.size + 1 := by
  split
  · rename_i h
    rw [set, dif_pos h, size_modify]
  · rename_i h
    simp [size, entries_set_of_notMem h]

@[simp] theorem keys_delete (m : JsMap κ ν) (k : κ) :
    (m.delete k).keys = m.keys.filter (fun a => decide (a ≠ k)) := by
  simp only [keys, delete, List.filter_map]
  rfl

theorem delete_set_of_notMem {m : JsMap κ ν} {k : κ} (h : k ∉ m.keys) (v : ν) :
    (m.set k v).delete k = m := by
  apply ext
  change (m.set k v).entries.filter (fun p => decide (p.1 ≠ k)) = m.entries
  rw [entries_set_of_notMem h, List.filter_append]
  have hall : m.entries.filter (fun p => decide (p.1 ≠ k)) = m.entries := by
    rw [List.filter_eq_self]
    intro p hp
    simp only [decide_eq_true_eq]
    intro hk
    exact h (hk ▸ mem_keys_of_mem_entries hp)
  rw [hall]
  simp

/-- `set` brings in one entry. -/
theorem mem_entries_set {m : JsMap κ ν} {k : κ} {v : ν} {p : κ × ν}
    (h : p ∈ (m.set k v).entries) : p ∈ m.entries ∨ p = (k, v) := by
  by_cases hk : k ∈ m.keys
  · rw [set, dif_pos hk] at h
    obtain ⟨q, hq, rfl⟩ := List.mem_map.mp h
    by_cases hqk : q.1 = k
    · exact .inr (by simp [hqk])
    · exact .inl (by simpa [hqk] using hq)
  · rw [entries_set_of_notMem hk] at h
    rcases List.mem_append.mp h with h | h
    · exact .inl h
    · exact .inr (List.mem_singleton.mp h)

theorem mem_entries_modify {m : JsMap κ ν} {k : κ} {f : ν → ν} {p : κ × ν}
    (h : p ∈ (m.modify k f).entries) :
    p ∈ m.entries ∨ ∃ v, (k, v) ∈ m.entries ∧ p = (k, f v) := by
  obtain ⟨q, hq, rfl⟩ := List.mem_map.mp h
  by_cases hqk : q.1 = k
  · exact .inr ⟨q.2, by rw [← hqk]; exact hq, by simp [hqk]⟩
  · exact .inl (by simpa [hqk] using hq)

theorem mem_entries_delete {m : JsMap κ ν} {k : κ} {p : κ × ν} :
    p ∈ (m.delete k).entries ↔ p ∈ m.entries ∧ p.1 ≠ k := by
  simp [delete]

theorem size_delete_of_mem {m : JsMap κ ν} {k : κ} (h : k ∈ m.keys) :
    (m.delete k).size + 1 = m.size := by
  have herase : m.keys.filter (fun a => decide (a ≠ k)) = m.keys.erase k := by
    rw [m.keys_nodup.erase_eq_filter]
    congr 1
    funext a
    by_cases ha : a = k <;> simp [ha]
  rw [← length_keys, ← length_keys, keys_delete, herase, List.length_erase_of_mem h]
  have := List.length_pos_of_mem h
  omega

theorem get?_eq_some {m : JsMap κ ν} {k : κ} {v : ν} :
    m.get? k = some v ↔ (k, v) ∈ m.entries := by
  obtain ⟨l, hl⟩ := m
  simp only [get?]
  induction l with
  | nil => simp
  | cons p l ih =>
    simp only [List.map_cons, List.nodup_cons] at hl
    simp only [List.find?_cons]
    by_cases hp : p.1 = k
    · simp only [hp, decide_true, Option.map_some, Option.some.injEq, List.mem_cons]
      constructor
      · intro heq
        subst heq
        exact Or.inl (by rw [← hp])
      · rintro (h | h)
        · rw [← h]
        · exact absurd (List.mem_map.mpr ⟨_, h, hp.symm⟩) hl.1
    · simp only [hp, decide_false, List.mem_cons]
      rw [ih hl.2]
      constructor
      · exact Or.inr
      · rintro (h | h)
        · exact absurd (by rw [← h]) hp
        · exact h

theorem get?_eq_none {m : JsMap κ ν} {k : κ} : m.get? k = none ↔ k ∉ m.keys := by
  constructor
  · intro h hk
    obtain ⟨p, hp, rfl⟩ := List.mem_map.mp hk
    have := get?_eq_some.mpr hp
    rw [h] at this
    cases this
  · intro h
    cases hg : m.get? k with
    | none => rfl
    | some v => exact absurd (List.mem_map.mpr ⟨_, get?_eq_some.mp hg, rfl⟩) h

/-- `set` is the only key that changes, and it reads back what was set. -/
theorem get?_set (m : JsMap κ ν) (k k' : κ) (v : ν) :
    (m.set k v).get? k' = if k' = k then some v else m.get? k' := by
  by_cases h : k ∈ m.keys
  · rw [set, dif_pos h]
    simp only [get?, modify]
    have key : ∀ l : List (κ × ν),
        ((l.map (fun p => if p.1 = k then (p.1, v) else p)).find?
          (fun p => decide (p.1 = k'))).map Prod.snd =
        if k' = k then (l.find? (fun p => decide (p.1 = k))).map (fun _ => v)
        else (l.find? (fun p => decide (p.1 = k'))).map Prod.snd := by
      intro l
      induction l with
      | nil => simp
      | cons p l ih =>
        simp only [List.map_cons, List.find?_cons]
        by_cases hp : p.1 = k <;> by_cases hk : k' = k <;> by_cases hp' : p.1 = k' <;>
          simp_all
    rw [key]
    split
    · rename_i hk
      obtain ⟨p, hp, rfl⟩ := List.mem_map.mp h
      have hsome : (m.entries.find? (fun q => decide (q.1 = p.1))).isSome := by
        rw [List.find?_isSome]
        exact ⟨p, hp, by simp⟩
      obtain ⟨q, hq⟩ := Option.isSome_iff_exists.mp hsome
      simp [hq]
    · rfl
  · simp only [get?, entries_set_of_notMem h, List.find?_append]
    have hnone : m.entries.find? (fun p => decide (p.1 = k)) = none := by
      rw [List.find?_eq_none]
      intro p hp hpk
      exact h (List.mem_map.mpr ⟨p, hp, by simpa using hpk⟩)
    by_cases hk : k' = k
    · subst hk
      simp [hnone]
    · have : ¬ k = k' := fun e => hk e.symm
      simp [hk, this]

theorem mapValues_set {ν' : Type} (f : ν → ν') (m : JsMap κ ν) (k : κ) (v : ν) :
    (m.set k v).mapValues f = (m.mapValues f).set k (f v) := by
  apply ext
  by_cases h : k ∈ m.keys
  · have h' : k ∈ (m.mapValues f).keys := by rwa [keys_mapValues]
    rw [set, dif_pos h, set, dif_pos h']
    simp only [mapValues, modify, List.map_map]
    apply List.map_congr_left
    intro p _
    simp only [Function.comp]
    split <;> rfl
  · have h' : k ∉ (m.mapValues f).keys := by rwa [keys_mapValues]
    change (m.set k v).entries.map (fun p => (p.1, f p.2)) = _
    rw [entries_set_of_notMem h', entries_set_of_notMem h, List.map_append]
    rfl

/-- `f` may be applied before a value is changed or after. -/
theorem mapValues_modify {ν' : Type} (f : ν → ν') {g : ν → ν} {g' : ν' → ν'}
    (h : ∀ v, f (g v) = g' (f v)) (m : JsMap κ ν) (k : κ) :
    (m.modify k g).mapValues f = (m.mapValues f).modify k g' := by
  apply ext
  simp only [mapValues, modify, List.map_map]
  apply List.map_congr_left
  intro p _
  simp only [Function.comp]
  split
  · rw [h]
  · rfl

theorem mapValues_delete {ν' : Type} (f : ν → ν') (m : JsMap κ ν) (k : κ) :
    (m.delete k).mapValues f = (m.mapValues f).delete k := by
  apply ext
  simp only [mapValues, delete, List.filter_map]
  rfl

omit [DecidableEq κ] in
@[simp] theorem size_mapValues {ν' : Type} (f : ν → ν') (m : JsMap κ ν) :
    (m.mapValues f).size = m.size := by
  simp [size, mapValues]

theorem get?_mapValues {ν' : Type} (f : ν → ν') (m : JsMap κ ν) (k : κ) :
    (m.mapValues f).get? k = (m.get? k).map f := by
  simp only [get?, mapValues, List.find?_map, Option.map_map]
  rfl

theorem mem_keys_iff_get? {m : JsMap κ ν} {k : κ} : k ∈ m.keys ↔ ∃ v, m.get? k = some v := by
  constructor
  · intro h
    cases hg : m.get? k with
    | some v => exact ⟨v, rfl⟩
    | none => exact absurd h (get?_eq_none.mp hg)
  · rintro ⟨v, hv⟩
    exact mem_keys_of_mem_entries (get?_eq_some.mp hv)

/-- To set what is there changes nothing. -/
theorem set_eq_self {m : JsMap κ ν} {k : κ} {v : ν} (h : m.get? k = some v) : m.set k v = m := by
  have hk : k ∈ m.keys := mem_keys_iff_get?.mpr ⟨v, h⟩
  rw [set, dif_pos hk]
  apply ext
  change m.entries.map (fun p => if p.1 = k then (p.1, v) else p) = m.entries
  conv_rhs => rw [← List.map_id m.entries]
  apply List.map_congr_left
  intro p hp
  by_cases hpk : p.1 = k
  · have hv : m.get? k = some p.2 := get?_eq_some.mpr (hpk ▸ hp)
    rw [h] at hv
    obtain rfl := Option.some.inj hv
    rw [if_pos hpk]
    rfl
  · rw [if_neg hpk]
    rfl

theorem get?_delete (m : JsMap κ ν) (k k' : κ) :
    (m.delete k).get? k' = if k' = k then none else m.get? k' := by
  split
  · rename_i hk
    rw [get?_eq_none, keys_delete, List.mem_filter]
    simp [hk]
  · rename_i hk
    apply Option.ext
    intro v
    rw [get?_eq_some, get?_eq_some, mem_entries_delete]
    simp [hk]

/-- `modify` changes the value under its key. -/
theorem get?_modify (m : JsMap κ ν) (k k' : κ) (f : ν → ν) :
    (m.modify k f).get? k' = if k' = k then (m.get? k').map f else m.get? k' := by
  cases h : m.get? k' with
  | none =>
    have hnone : (m.modify k f).get? k' = none := by
      rw [get?_eq_none, keys_modify]
      exact get?_eq_none.mp h
    rw [hnone]
    split <;> rfl
  | some v =>
    have hmem := get?_eq_some.mp h
    have hentry : (if k' = k then (k', f v) else (k', v)) ∈ (m.modify k f).entries :=
      List.mem_map.mpr ⟨_, hmem, rfl⟩
    split
    · rename_i hk
      rw [if_pos hk] at hentry
      exact get?_eq_some.mpr hentry
    · rename_i hk
      rw [if_neg hk] at hentry
      exact get?_eq_some.mpr hentry

/-! ## Sums over the values -/

/-- The sum of `g` over the values. -/
def sumValues (g : ν → Nat) (m : JsMap κ ν) : Nat := (m.entries.map (fun p => g p.2)).sum

/-- `set` puts the new value in the place of the old one, if there was any. -/
theorem sumValues_set (g : ν → Nat) (m : JsMap κ ν) (k : κ) (v : ν) :
    (m.set k v).sumValues g + ((m.get? k).map g).getD 0 = m.sumValues g + g v := by
  cases hw : m.get? k with
  | none =>
    simp [sumValues, entries_set_of_notMem (get?_eq_none.mp hw)]
  | some w =>
    have key : ∀ l : List (κ × ν), (l.map Prod.fst).Nodup → (k, w) ∈ l →
        ((l.map (fun p => if p.1 = k then (p.1, v) else p)).map (fun p => g p.2)).sum + g w =
          (l.map (fun p => g p.2)).sum + g v := by
      intro l
      induction l with
      | nil => simp
      | cons p l ih =>
        intro hnd hmem
        rw [List.map_cons, List.nodup_cons] at hnd
        by_cases hp : p.1 = k
        · have hnone : ∀ q ∈ l, q.1 ≠ k := by
            intro q hq hqk
            exact hnd.1 (List.mem_map.mpr ⟨q, hq, hqk.trans hp.symm⟩)
          obtain rfl : (k, w) = p := by
            rcases List.mem_cons.mp hmem with h | h
            · exact h
            · exact absurd rfl (hnone _ h)
          have hrest : l.map (fun p => if p.1 = k then (p.1, v) else p) = l := by
            conv_rhs => rw [← List.map_id l]
            apply List.map_congr_left
            intro q hq
            rw [if_neg (hnone q hq)]
            rfl
          rw [List.map_cons, hrest]
          simp
          omega
        · have hl : (k, w) ∈ l := by
            rcases List.mem_cons.mp hmem with rfl | h
            · exact absurd rfl hp
            · exact h
          have hrest := ih hnd.2 hl
          simp only [List.map_cons, if_neg hp, List.sum_cons]
          omega
    have hk : k ∈ m.keys := mem_keys_iff_get?.mpr ⟨w, hw⟩
    rw [set, dif_pos hk]
    exact key m.entries m.nodup (get?_eq_some.mp hw)

/-! ## Several keys, each with its own value -/

section SetAll

variable (f : κ → ν)

/-- `for (const k of ks) m.set(k, f(k))`. -/
def setAll (m : JsMap κ ν) (ks : List κ) : JsMap κ ν := ks.foldl (fun m k => m.set k (f k)) m

@[simp] theorem setAll_nil (m : JsMap κ ν) : m.setAll f [] = m := rfl

theorem setAll_cons (m : JsMap κ ν) (k : κ) (ks : List κ) :
    m.setAll f (k :: ks) = (m.set k (f k)).setAll f ks := rfl

theorem setAll_append (m : JsMap κ ν) (ks ks' : List κ) :
    m.setAll f (ks ++ ks') = (m.setAll f ks).setAll f ks' := List.foldl_append

@[simp] theorem mem_keys_setAll {m : JsMap κ ν} {ks : List κ} {k : κ} :
    k ∈ (m.setAll f ks).keys ↔ k ∈ m.keys ∨ k ∈ ks := by
  induction ks generalizing m with
  | nil => simp
  | cons a ks ih => rw [setAll_cons, ih, mem_keys_set, List.mem_cons, or_assoc]

theorem get?_setAll (m : JsMap κ ν) (ks : List κ) (k : κ) :
    (m.setAll f ks).get? k = if k ∈ ks then some (f k) else m.get? k := by
  induction ks generalizing m with
  | nil => simp
  | cons a ks ih =>
    rw [setAll_cons, ih, get?_set]
    by_cases hks : k ∈ ks
    · simp [hks]
    · by_cases hka : k = a
      · simp [hka]
      · simp [hks, hka]

theorem mapValues_setAll {ν' : Type} (g : ν → ν') (m : JsMap κ ν) (ks : List κ) :
    (m.setAll f ks).mapValues g = (m.mapValues g).setAll (fun k => g (f k)) ks := by
  induction ks generalizing m with
  | nil => rfl
  | cons a ks ih => rw [setAll_cons, ih, mapValues_set, setAll_cons]

/-- Keys that have their value already may be passed over. -/
theorem setAll_filter {m : JsMap κ ν} {ks : List κ} {p : κ → Bool}
    (h : ∀ k ∈ ks, p k = false → m.get? k = some (f k)) :
    m.setAll f (ks.filter p) = m.setAll f ks := by
  induction ks generalizing m with
  | nil => rfl
  | cons a ks ih =>
    by_cases ha : p a = true
    · rw [List.filter_cons_of_pos ha, setAll_cons, setAll_cons]
      apply ih
      intro k hk hpk
      rw [get?_set]
      by_cases hka : k = a
      · rw [if_pos hka, hka]
      · rw [if_neg hka]
        exact h k (by simp [hk]) hpk
    · rw [List.filter_cons_of_neg ha, setAll_cons, set_eq_self (h a (by simp) (by simpa using ha))]
      exact ih fun k hk => h k (by simp [hk])

/-- What is missing may be set in two goes, the second of which looks for itself what is
missing still. -/
theorem setAll_resume (m : JsMap κ ν) (ks : List κ) (n : Nat) :
    let m' := m.setAll f ((ks.filter (fun k => !m.has k)).take n)
    m'.setAll f (ks.filter (fun k => !m'.has k)) =
      m.setAll f (ks.filter (fun k => !m.has k)) := by
  intro m'
  set missing := ks.filter (fun k => !m.has k) with hmissing
  have hm' : ∀ k, k ∈ m'.keys ↔ k ∈ m.keys ∨ k ∈ missing.take n := fun k => mem_keys_setAll f
  have hfront : (missing.take n).filter (fun k => !m'.has k) = [] := by
    rw [List.filter_eq_nil_iff]
    intro k hk
    simp [(hm' k).mpr (.inr hk)]
  have hleft : ks.filter (fun k => !m'.has k) =
      (missing.drop n).filter (fun k => !m'.has k) := by
    have hagain : ks.filter (fun k => !m'.has k) = missing.filter (fun k => !m'.has k) := by
      rw [hmissing, List.filter_filter]
      apply List.filter_congr
      intro k _
      by_cases hm : k ∈ m.keys <;> simp [has, hm', hm]
    rw [hagain, ← List.take_append_drop n missing, List.filter_append, hfront, List.nil_append,
      List.take_append_drop]
  have hall : ∀ k ∈ missing.drop n, (!m'.has k) = false → m'.get? k = some (f k) := by
    intro k hk hhas
    have hnot : k ∉ m.keys := by
      have hin := List.mem_of_mem_drop hk
      rw [hmissing, List.mem_filter] at hin
      simpa using hin.2
    have hmem : k ∈ m'.keys := by simpa using hhas
    rw [get?_setAll, if_pos (((hm' k).mp hmem).resolve_left hnot)]
  rw [hleft, setAll_filter f hall, ← setAll_append, List.take_append_drop]

end SetAll

theorem keys_setAll_of_mem {m : JsMap κ ν} {ks : List κ} (h : ∀ k ∈ ks, k ∈ m.keys) :
    (m.setAll f ks).keys = m.keys := by
  induction ks generalizing m with
  | nil => rfl
  | cons a ks ih =>
    have hkeys := keys_set_of_mem (h a (by simp)) (f a)
    rw [setAll_cons, ih, hkeys]
    intro k hk
    rw [hkeys]
    exact h k (List.mem_cons_of_mem a hk)

/-- The keys in their order and what is under each of them are all there is. -/
theorem entries_eq_map {α : Type} {m : JsMap κ ν} {l : List α} {key : α → κ} {value : α → ν}
    (hkeys : m.keys = l.map key) (h : ∀ a ∈ l, m.get? (key a) = some (value a)) :
    m.entries = l.map (fun a => (key a, value a)) := by
  obtain ⟨entries, hnodup⟩ := m
  apply List.ext_getElem
  · simpa [keys] using congrArg List.length hkeys
  · intro i hi hi'
    have hil : i < l.length := by simpa using hi'
    have hfst : entries[i].1 = key l[i] := by
      have hget := congrArg (fun ks : List κ => ks[i]?) hkeys
      simpa [keys, hi, hil] using hget
    have hmem := get?_eq_some.mp (h l[i] (List.getElem_mem hil))
    have hentry : entries[i] ∈ entries := List.getElem_mem hi
    rw [List.getElem_map]
    exact List.inj_on_of_nodup_map hnodup hentry hmem hfst

end JsMap

end CorpusRunner
