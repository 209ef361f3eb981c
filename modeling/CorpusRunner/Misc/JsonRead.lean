import CorpusRunner.Misc.Numerals

/-!
# Reading values

What a program takes out of a parsed value: a member of an object, the elements of an array, a
string, a number; `none` where the value is of another type than the one that is asked for. What
was written from values of the right type is read back (`items?_map`).
-/

namespace CorpusRunner

def Json.int? : Json → Option Int
  | .number n => if n.value.den = 1 then some n.value.num else none
  | _ => none

def Json.nat? (v : Json) : Option Nat := v.int?.map Int.toNat

def Json.string? : Json → Option JsString
  | .string s => some s
  | _ => none

def Json.items? {α : Type} (read : Json → Option α) : Json → Option (List α)
  | .array items => items.mapM read
  | _ => none

/-- A member, read. -/
def Json.at_ {α : Type} (v : Json) (k : String) (read : Json → Option α) : Option α :=
  (v.member (js k)).bind read

theorem int?_ofInt (n : Int) : Json.int? (.number (.ofInt n)) = some n := by
  simp [Json.int?, value_ofInt]

theorem nat?_ofInt (n : Nat) : Json.nat? (.number (.ofInt n)) = some n := by
  rw [Json.nat?, int?_ofInt]
  rfl

/-- A list is read when each of its elements is. -/
theorem mapM_eq_some_iff {α β : Type} {f : α → Option β} {l : List α} {l' : List β} :
    l.mapM f = some l' ↔ l.map f = l'.map some := by
  induction l generalizing l' with
  | nil => cases l' <;> simp
  | cons a l ih =>
    rw [List.mapM_cons]
    cases hf : f a with
    | none => cases l' <;> simp [hf]
    | some b =>
      cases hm : l.mapM f with
      | none =>
        have hrest : ∀ bs : List β, l.map f ≠ bs.map some := by
          intro bs hbs
          rw [ih.mpr hbs] at hm
          cases hm
        cases l' <;> simp [hf, hrest]
      | some bs =>
        have hrest : l.map f = bs.map some := ih.mp hm
        have hinj : Function.Injective (some : β → Option β) := fun _ _ => Option.some.inj
        cases l' with
        | nil => simp
        | cons b' l' => simp [hf, hrest, List.map_inj_right hinj]

theorem mapM_eq_some_map {α β : Type} {f : α → Option β} {g : α → β} {l : List α}
    (h : ∀ a ∈ l, f a = some (g a)) : l.mapM f = some (l.map g) := by
  rw [mapM_eq_some_iff, List.map_map]
  exact List.map_congr_left h

theorem exists_mapM {α β : Type} {f : α → Option β} {l : List α}
    (h : ∀ a ∈ l, ∃ b, f a = some b) : ∃ l', l.mapM f = some l' := by
  induction l with
  | nil => exact ⟨[], rfl⟩
  | cons a l ih =>
    obtain ⟨b, hb⟩ := h a (by simp)
    obtain ⟨bs, hbs⟩ := ih fun a' ha' => h a' (by simp [ha'])
    exact ⟨b :: bs, by rw [List.mapM_cons, hb, hbs]; rfl⟩

/-- What is read of a list, element by element. -/
theorem mem_of_mapM {α β : Type} {f : α → Option β} {l : List α} {l' : List β}
    (h : l.mapM f = some l') :
    (∀ a ∈ l, ∃ b ∈ l', f a = some b) ∧ ∀ b ∈ l', ∃ a ∈ l, f a = some b := by
  have hmap := mapM_eq_some_iff.mp h
  constructor
  · intro a ha
    have hmem : f a ∈ l.map f := List.mem_map_of_mem ha
    rw [hmap] at hmem
    obtain ⟨b, hb, hab⟩ := List.mem_map.mp hmem
    exact ⟨b, hb, hab.symm⟩
  · intro b hb
    have hmem : some b ∈ l'.map some := List.mem_map_of_mem hb
    rw [← hmap] at hmem
    exact List.mem_map.mp hmem

/-- An array of what is read back is read back. -/
theorem items?_map {α : Type} {read : Json → Option α} {write : α → Json} {l : List α}
    (h : ∀ a ∈ l, read (write a) = some a) :
    Json.items? read (.array (l.map write)) = some l := by
  have hread : l.mapM (read ∘ write) = some (l.map id) := mapM_eq_some_map h
  rw [Json.items?, List.mapM_map, hread, List.map_id]

end CorpusRunner
