import CorpusRunner.Misc.Json

/-!
# What `JSON.stringify` writes, `JSON.parse` reads

`run_stringify` is the step: fed the text of a value where a value may stand, the reader has
that value and the same arrays and objects open as before. The round trip is the case where
nothing is open.
-/

namespace CorpusRunner

namespace Reader

@[simp] theorem run_nil (r : Reader) : r.run [] = some r := rfl

theorem run_cons (r : Reader) (c : UInt16) (s : JsString) :
    r.run (c :: s) = (r.step c).bind (·.run s) := rfl

theorem run_append (r : Reader) (s t : JsString) :
    r.run (s ++ t) = (r.run s).bind (·.run t) := by
  simp only [run, List.foldlM_append]
  rfl

theorem run_append_of {r r' : Reader} {s : JsString} (h : r.run s = some r') (t : JsString) :
    r.run (s ++ t) = r'.run t := by
  rw [run_append, h]
  rfl

theorem run_cons_of {r r' : Reader} {c : UInt16} (h : r.step c = some r') (s : JsString) :
    r.run (c :: s) = r'.run s := by
  rw [run_cons, h]
  rfl

end Reader

/-! ## Strings -/

theorem hexValue_hexDigit : ∀ n < 16, hexValue (hexDigit n) = some n := by decide

/-- The four digits of an escape are the code unit's. -/
theorem unicode_digits (c : UInt16) :
    UInt16.ofNat ((((0 * 16 + c.toNat / 4096) * 16 + c.toNat / 256 % 16) * 16 +
      c.toNat / 16 % 16) * 16 + c.toNat % 16) = c := by
  have hc : c.toNat < 65536 := c.toNat_lt
  rw [show (((0 * 16 + c.toNat / 4096) * 16 + c.toNat / 256 % 16) * 16 +
      c.toNat / 16 % 16) * 16 + c.toNat % 16 = c.toNat by omega]
  exact UInt16.ofNat_toNat

section Strings

variable (use : Use) (read : JsString) (σ : List Frame)

theorem run_unicodeEscape (c : UInt16) :
    Reader.run ⟨.string use read .plain, σ⟩ (unicodeEscape c) =
      some ⟨.string use (read ++ [c]) .plain, σ⟩ := by
  have hc : c.toNat < 65536 := c.toNat_lt
  have h1 := hexValue_hexDigit (c.toNat / 4096) (by omega)
  have h2 := hexValue_hexDigit (c.toNat / 256 % 16) (by omega)
  have h3 := hexValue_hexDigit (c.toNat / 16 % 16) (by omega)
  have h4 := hexValue_hexDigit (c.toNat % 16) (by omega)
  have hdigits := unicode_digits c
  simp only [UInt16.ofNat_add, UInt16.ofNat_mul] at hdigits
  simp [unicodeEscape, Reader.run_cons, Reader.step, stringStep, h1, h2, h3, h4]
  simpa using hdigits

/-- However a code unit is written, it is read as itself. -/
theorem run_quoteUnit (before after : Option UInt16) (c : UInt16) :
    Reader.run ⟨.string use read .plain, σ⟩ (quoteUnit before c after) =
      some ⟨.string use (read ++ [c]) .plain, σ⟩ := by
  unfold quoteUnit
  by_cases h8 : c = 8
  · subst h8; rfl
  by_cases h9 : c = 9
  · subst h9; rfl
  by_cases h10 : c = 10
  · subst h10; rfl
  by_cases h12 : c = 12
  · subst h12; rfl
  by_cases h13 : c = 13
  · subst h13; rfl
  by_cases h34 : c = 34
  · subst h34; rfl
  by_cases h92 : c = 92
  · subst h92; rfl
  simp only [h8, h9, h10, h12, h13, h34, h92, if_false]
  by_cases hesc : c < 32 ∨ isLone before c after = true
  · rw [if_pos hesc]
    exact run_unicodeEscape use read σ c
  · rw [if_neg hesc]
    rw [not_or] at hesc
    simp [Reader.run_cons, Reader.step, stringStep, h34, h92, hesc.1]

theorem run_quoteUnits (before : Option UInt16) (s : JsString) :
    Reader.run ⟨.string use read .plain, σ⟩ (quoteUnits before s) =
      some ⟨.string use (read ++ s) .plain, σ⟩ := by
  induction s generalizing before read with
  | nil => simp [quoteUnits]
  | cons c s ih =>
    rw [quoteUnits, Reader.run_append_of (run_quoteUnit use read σ before s.head? c), ih]
    simp

/-- The rest of a string literal, up to its closing quote. -/
theorem run_quoted (s : JsString) :
    Reader.run ⟨.string use [] .plain, σ⟩ (quoteUnits none s ++ [34]) =
      some ⟨use.close s, σ⟩ := by
  rw [Reader.run_append_of (run_quoteUnits use [] σ none s)]
  rfl

end Strings

/-! ## Numbers -/

theorem numRun_append (s t : JsString) :
    numRun (s ++ t) = (numRun s).bind (fun st => t.foldlM NumState.step st) := by
  simp only [numRun, List.foldlM_append]
  rfl

theorem numRun_left {s t : JsString} (h : (numRun (s ++ t)).isSome) : (numRun s).isSome := by
  rw [numRun_append] at h
  cases hs : numRun s with
  | none => simp [hs] at h
  | some st => rfl

/-- A code unit that stands in no number. -/
theorem numRun_snoc_eq_none {c : UInt16} (hc : ∀ st : NumState, st.step c = none)
    (s : JsString) : numRun (s ++ [c]) = none := by
  rw [numRun_append]
  cases numRun s with
  | none => rfl
  | some st => simp [hc st]

theorem JsonNumber.numRun_isSome (n : JsonNumber) : (numRun n.literal).isSome := by
  have h := n.ok
  rw [isNumber] at h
  cases hr : numRun n.literal with
  | none => simp [hr] at h
  | some st => rfl

theorem JsonNumber.notMem_literal {c : UInt16} (hc : ∀ st : NumState, st.step c = none)
    (n : JsonNumber) : c ∉ n.literal := by
  intro hm
  obtain ⟨s, t, hst⟩ := List.append_of_mem hm
  have h := n.numRun_isSome
  rw [hst, List.append_cons] at h
  have hs := numRun_left h
  rw [numRun_snoc_eq_none hc] at hs
  cases hs

theorem JsonNumber.literal_ne_nil (n : JsonNumber) : n.literal ≠ [] := by
  intro h
  have := n.ok
  rw [h] at this
  exact absurd this (by decide)

theorem ne_of_numRun {c d : UInt16} (h : (numRun [c]).isSome) (hd : numRun [d] = none) :
    c ≠ d := by
  intro heq
  subst heq
  simp [hd] at h

theorem isJsonSpace_of_numRun {c : UInt16} (h : (numRun [c]).isSome) :
    isJsonSpace c = false := by
  have key := fun d => ne_of_numRun (d := d) h
  simp only [isJsonSpace, Bool.or_eq_false_iff, decide_eq_false_iff_not]
  exact ⟨⟨⟨key 9 (by decide), key 10 (by decide)⟩, key 13 (by decide)⟩, key 32 (by decide)⟩

/-- No number starts with a code unit that starts another value. -/
theorem valueStep_number {σ : List Frame} {c : UInt16} (h : (numRun [c]).isSome) :
    valueStep σ c = some ⟨.number [c], σ⟩ := by
  have key := fun d => ne_of_numRun (d := d) h
  simp only [valueStep, isJsonSpace_of_numRun h, Bool.false_eq_true, key 34 (by decide),
    key 91 (by decide), key 123 (by decide), key 110 (by decide), key 116 (by decide),
    key 102 (by decide), if_false, if_pos h]

theorem run_numberRest (σ : List Frame) (s t : JsString) (h : (numRun (s ++ t)).isSome) :
    Reader.run ⟨.number s, σ⟩ t = some ⟨.number (s ++ t), σ⟩ := by
  induction t generalizing s with
  | nil => simp
  | cons c t ih =>
    rw [List.append_cons] at h ⊢
    have hstep : Reader.step ⟨.number s, σ⟩ c = some ⟨.number (s ++ [c]), σ⟩ := by
      simp only [Reader.step]
      rw [if_pos (numRun_left h)]
    rw [Reader.run_cons_of hstep, ih _ h]

theorem run_number (σ : List Frame) (n : JsonNumber) :
    Reader.run ⟨.value, σ⟩ n.literal = some ⟨.number n.literal, σ⟩ := by
  have hsome := n.numRun_isSome
  cases hl : n.literal with
  | nil => exact absurd hl n.literal_ne_nil
  | cons c s =>
    rw [hl, ← List.singleton_append] at hsome
    have hstep : Reader.step ⟨.value, σ⟩ c = some ⟨.number [c], σ⟩ :=
      valueStep_number (numRun_left hsome)
    rw [Reader.run_cons_of hstep, run_numberRest σ [c] s hsome]
    rfl

/-! ## Values -/

/-- The reader has `v`, and `σ` is open around it. Behind a number it still waits for a
further digit. -/
def Reader.Holds (r : Reader) (v : Json) (σ : List Frame) : Prop :=
  r = ⟨.after v, σ⟩ ∨ ∃ n : JsonNumber, v = .number n ∧ r = ⟨.number n.literal, σ⟩

namespace Reader.Holds

variable {r : Reader} {v : Json} {σ : List Frame}

/-- A code unit that stands in no number ends one. -/
theorem step_eq (h : r.Holds v σ) {c : UInt16} (hc : ∀ st : NumState, st.step c = none) :
    r.step c = afterStep v σ c := by
  rcases h with rfl | ⟨n, rfl, rfl⟩
  · rfl
  · simp only [Reader.step, numRun_snoc_eq_none hc, Option.isSome_none, Bool.false_eq_true,
      if_false, dif_pos n.ok]

theorem finish_eq (h : r.Holds v []) : r.finish = some v := by
  rcases h with rfl | ⟨n, rfl, rfl⟩
  · rfl
  · simp only [Reader.finish, dif_pos n.ok]

theorem finish_eq_none {f : Frame} (h : r.Holds v (f :: σ)) : r.finish = none := by
  rcases h with rfl | ⟨n, rfl, rfl⟩ <;> rfl

theorem step_comma (h : r.Holds v σ) : r.step 44 = afterStep v σ 44 :=
  h.step_eq (fun st => by cases st <;> decide)

theorem step_bracket (h : r.Holds v σ) : r.step 93 = afterStep v σ 93 :=
  h.step_eq (fun st => by cases st <;> decide)

theorem step_brace (h : r.Holds v σ) : r.step 125 = afterStep v σ 125 :=
  h.step_eq (fun st => by cases st <;> decide)

end Reader.Holds

/-- The first code unit of a value: an array that is just open takes it for its first
element. -/
theorem stringify_head (v : Json) :
    ∃ c s, stringify v = c :: s ∧ isJsonSpace c = false ∧ c ≠ 93 := by
  cases v with
  | null => exact ⟨_, _, rfl, by decide, by decide⟩
  | bool b => cases b <;> exact ⟨_, _, rfl, by decide, by decide⟩
  | string s => exact ⟨_, _, rfl, by decide, by decide⟩
  | array items => exact ⟨_, _, rfl, by decide, by decide⟩
  | object members => exact ⟨_, _, rfl, by decide, by decide⟩
  | number n =>
    have hsome := n.numRun_isSome
    cases hl : n.literal with
    | nil => exact absurd hl n.literal_ne_nil
    | cons c s =>
      rw [hl, ← List.singleton_append] at hsome
      have hc := numRun_left hsome
      exact ⟨c, s, by rw [stringify, hl], isJsonSpace_of_numRun hc,
        ne_of_numRun hc (by decide)⟩

theorem run_arrayStart (σ : List Frame) (v : Json) (t : JsString) :
    Reader.run ⟨.arrayStart, σ⟩ (stringify v ++ t) =
      Reader.run ⟨.value, .array [] :: σ⟩ (stringify v ++ t) := by
  obtain ⟨c, s, hs, hspace, hc⟩ := stringify_head v
  simp [hs, Reader.run_cons, Reader.step, hspace, hc]

/-- A key and its colon. -/
theorem run_key (k : JsString) (members : List (JsString × Json)) (σ : List Frame)
    (t : JsString) :
    Reader.run ⟨.key members, σ⟩ (quote k ++ 58 :: t) =
      Reader.run ⟨.value, .object members k :: σ⟩ t := by
  have hquote : quote k ++ 58 :: t = 34 :: ((quoteUnits none k ++ [34]) ++ 58 :: t) := rfl
  have hopen : Reader.step ⟨.key members, σ⟩ 34 =
      some ⟨.string (.key members) [] .plain, σ⟩ := rfl
  rw [hquote, Reader.run_cons_of hopen, Reader.run_append_of (run_quoted _ σ k)]
  rfl

mutual

/-- Fed the text of `v`, the reader has `v`. The induction is on the value; `σ` is what is
open around it. -/
theorem run_stringify (v : Json) (σ : List Frame) :
    ∃ r, Reader.run ⟨.value, σ⟩ (stringify v) = some r ∧ r.Holds v σ := by
  cases v with
  | null => exact ⟨_, rfl, .inl rfl⟩
  | bool b => cases b <;> exact ⟨_, rfl, .inl rfl⟩
  | number n => exact ⟨_, run_number σ n, .inr ⟨n, rfl, rfl⟩⟩
  | string s => exact ⟨_, run_quoted .value σ s, .inl rfl⟩
  | array items =>
    cases items with
    | nil => exact ⟨_, rfl, .inl rfl⟩
    | cons v vs =>
      obtain ⟨r, hr, hv⟩ := run_stringify v (.array [] :: σ)
      refine ⟨⟨.after (.array (v :: vs)), σ⟩, ?_, .inl rfl⟩
      change Reader.run ⟨.arrayStart, σ⟩ (stringify v ++ stringifyItems false vs) = _
      rw [run_arrayStart, Reader.run_append_of hr, run_items vs hv]
      rfl
  | object members =>
    cases members with
    | nil => exact ⟨_, rfl, .inl rfl⟩
    | cons m ms =>
      obtain ⟨k, v⟩ := m
      obtain ⟨r, hr, hv⟩ := run_stringify v (.object [] k :: σ)
      refine ⟨⟨.after (.object ((k, v) :: ms)), σ⟩, ?_, .inl rfl⟩
      -- behind the brace a key is read as behind a comma
      change Reader.run ⟨.key [], σ⟩
        (quote k ++ 58 :: stringify v ++ stringifyMembers false ms) = _
      rw [List.append_assoc, List.cons_append, run_key, Reader.run_append_of hr,
        run_members ms hv]
      rfl

/-- The elements behind the first `items` and `v`. -/
theorem run_items (vs : List Json) {r : Reader} {v : Json} {items : List Json}
    {σ : List Frame} (h : r.Holds v (.array items :: σ)) :
    r.run (stringifyItems false vs) = some ⟨.after (.array (items ++ v :: vs)), σ⟩ := by
  cases vs with
  | nil => rw [stringifyItems, Reader.run_cons, h.step_bracket]; rfl
  | cons v' vs =>
    obtain ⟨r', hr', hv'⟩ := run_stringify v' (.array (items ++ [v]) :: σ)
    have hcomma : r.step 44 = some ⟨.value, .array (items ++ [v]) :: σ⟩ := h.step_comma
    rw [stringifyItems]
    change r.run (44 :: (stringify v' ++ stringifyItems false vs)) = _
    rw [Reader.run_cons_of hcomma, Reader.run_append_of hr', run_items vs hv']
    simp

/-- The members behind the first `members` and `k`, `v`. -/
theorem run_members (ms : List (JsString × Json)) {r : Reader} {v : Json} {k : JsString}
    {members : List (JsString × Json)} {σ : List Frame}
    (h : r.Holds v (.object members k :: σ)) :
    r.run (stringifyMembers false ms) =
      some ⟨.after (.object (members ++ (k, v) :: ms)), σ⟩ := by
  cases ms with
  | nil => rw [stringifyMembers, Reader.run_cons, h.step_brace]; rfl
  | cons m ms =>
    obtain ⟨k', v'⟩ := m
    obtain ⟨r', hr', hv'⟩ := run_stringify v' (.object (members ++ [(k, v)]) k' :: σ)
    have hcomma : r.step 44 = some ⟨.key (members ++ [(k, v)]), σ⟩ := h.step_comma
    rw [stringifyMembers]
    change r.run (44 :: (quote k' ++ 58 :: stringify v' ++ stringifyMembers false ms)) = _
    rw [Reader.run_cons_of hcomma, List.append_assoc, List.cons_append, run_key,
      Reader.run_append_of hr', run_members ms hv']
    simp

end

/-- `JSON.parse(JSON.stringify(v))` is `v`. -/
theorem jsonParse_stringify (v : Json) : jsonParse (stringify v) = some v := by
  obtain ⟨r, hr, hv⟩ := run_stringify v []
  rw [jsonParse, Reader.init, hr]
  exact hv.finish_eq

end CorpusRunner
