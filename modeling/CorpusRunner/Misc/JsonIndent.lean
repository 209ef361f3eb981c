import CorpusRunner.Misc.JsonRoundTrip

/-!
# Indented JSON

`JSON.stringify(v, null, 2)`: every element and member stands on a line of its own, two spaces
for each array or object around it; what is empty stays on its line. The reader skips white
space wherever the indent puts any, so that the indented text is read as the same value
(`jsonParse_stringifyIndent`).
-/

namespace CorpusRunner

/-- The line break in front of what `depth` arrays and objects are open around. -/
def lineBreak (depth : Nat) : JsString := 10 :: List.replicate (2 * depth) 32

mutual

/-- `JSON.stringify` with an indent of two spaces, `depth` levels deep. -/
def stringifyIndent (depth : Nat) : Json → JsString
  | .null => js "null"
  | .bool true => js "true"
  | .bool false => js "false"
  | .number n => n.literal
  | .string s => quote s
  | .array [] => [91, 93]
  | .array (v :: vs) =>
    91 :: (lineBreak (depth + 1) ++ stringifyIndent (depth + 1) v ++ indentItems depth vs)
  | .object [] => [123, 125]
  | .object ((k, v) :: ms) =>
    123 :: (lineBreak (depth + 1) ++ (quote k ++ 58 :: 32 :: stringifyIndent (depth + 1) v) ++
      indentMembers depth ms)

/-- The elements of an array behind the first one, and its closing bracket. -/
def indentItems (depth : Nat) : List Json → JsString
  | [] => lineBreak depth ++ [93]
  | v :: vs =>
    44 :: (lineBreak (depth + 1) ++ stringifyIndent (depth + 1) v ++ indentItems depth vs)

/-- The members of an object behind the first one, and its closing brace. -/
def indentMembers (depth : Nat) : List (JsString × Json) → JsString
  | [] => lineBreak depth ++ [125]
  | (k, v) :: ms =>
    44 :: (lineBreak (depth + 1) ++ (quote k ++ 58 :: 32 :: stringifyIndent (depth + 1) v) ++
      indentMembers depth ms)

end

example : stringifyIndent 0 (.object [(js "a", .array [.null, .array []]), (js "b", .object [])]) =
    js "\x7b\n  \"a\": [\n    null,\n    []\n  ],\n  \"b\": \x7b\x7d\n\x7d" := by decide

/-! ## The reader skips the indent -/

theorem isJsonSpace_lineBreak (depth : Nat) : ∀ c ∈ lineBreak depth, isJsonSpace c = true := by
  intro c hc
  rcases List.mem_cons.mp hc with rfl | hc
  · decide
  · obtain rfl := (List.mem_replicate.mp hc).2
    decide

/-- A state in which white space is of no account. -/
theorem Reader.run_blank {r : Reader} (h : ∀ c, isJsonSpace c = true → r.step c = some r)
    {s : JsString} (hs : ∀ c ∈ s, isJsonSpace c = true) : r.run s = some r := by
  induction s with
  | nil => rfl
  | cons c s ih =>
    rw [Reader.run_cons_of (h c (hs c (by simp)))]
    exact ih fun c' hc' => hs c' (by simp [hc'])

section Blank

variable (σ : List Frame)

theorem run_value_blank {s : JsString} (hs : ∀ c ∈ s, isJsonSpace c = true) :
    Reader.run ⟨.value, σ⟩ s = some ⟨.value, σ⟩ := by
  apply Reader.run_blank ?_ hs
  intro c hc
  simp [Reader.step, valueStep, hc]

theorem run_arrayStart_blank {s : JsString} (hs : ∀ c ∈ s, isJsonSpace c = true) :
    Reader.run ⟨.arrayStart, σ⟩ s = some ⟨.arrayStart, σ⟩ := by
  apply Reader.run_blank ?_ hs
  intro c hc
  simp [Reader.step, hc]

theorem run_objectStart_blank {s : JsString} (hs : ∀ c ∈ s, isJsonSpace c = true) :
    Reader.run ⟨.objectStart, σ⟩ s = some ⟨.objectStart, σ⟩ := by
  apply Reader.run_blank ?_ hs
  intro c hc
  simp [Reader.step, hc]

theorem run_key_blank (members : List (JsString × Json)) {s : JsString}
    (hs : ∀ c ∈ s, isJsonSpace c = true) :
    Reader.run ⟨.key members, σ⟩ s = some ⟨.key members, σ⟩ := by
  apply Reader.run_blank ?_ hs
  intro c hc
  simp [Reader.step, hc]

/-- White space ends a number; behind any other value it changes nothing. -/
theorem Reader.Holds.run_blank {r : Reader} {v : Json} (h : r.Holds v σ) {s : JsString}
    (hs : ∀ c ∈ s, isJsonSpace c = true) (hne : s ≠ []) : r.run s = some ⟨.after v, σ⟩ := by
  obtain ⟨c, s, rfl⟩ := List.exists_cons_of_ne_nil hne
  have hspace := hs c (by simp)
  have hnum : ∀ st : NumState, st.step c = none := by
    intro st
    simp only [isJsonSpace, Bool.or_eq_true, decide_eq_true_eq] at hspace
    rcases hspace with ((rfl | rfl) | rfl) | rfl <;> cases st <;> decide
  have hfirst : r.step c = some ⟨.after v, σ⟩ := by
    rw [h.step_eq hnum]
    simp [afterStep, hspace]
  have hstay : ∀ c, isJsonSpace c = true →
      Reader.step ⟨.after v, σ⟩ c = some ⟨.after v, σ⟩ := by
    intro c hc
    simp [Reader.step, afterStep, hc]
  rw [Reader.run_cons_of hfirst]
  exact Reader.run_blank hstay fun c' hc' => hs c' (by simp [hc'])

end Blank

/-! ## Values -/

/-- Indented or not, a value begins with the same code unit. -/
theorem stringifyIndent_head (depth : Nat) (v : Json) :
    ∃ c s, stringifyIndent depth v = c :: s ∧ isJsonSpace c = false ∧ c ≠ 93 := by
  cases v with
  | null => exact ⟨_, _, rfl, by decide, by decide⟩
  | bool b => cases b <;> exact ⟨_, _, rfl, by decide, by decide⟩
  | string s => exact ⟨_, _, rfl, by decide, by decide⟩
  | number n =>
    obtain ⟨c, s, hs, hspace, hc⟩ := stringify_head (.number n)
    exact ⟨c, s, hs, hspace, hc⟩
  | array items =>
    cases items with
    | nil => exact ⟨_, _, rfl, by decide, by decide⟩
    | cons v vs => exact ⟨91, _, rfl, by decide, by decide⟩
  | object members =>
    cases members with
    | nil => exact ⟨_, _, rfl, by decide, by decide⟩
    | cons m ms => exact ⟨123, _, rfl, by decide, by decide⟩

/-- The first element of an array that is just open. -/
theorem run_arrayStart_indent (σ : List Frame) (depth : Nat) (v : Json) (t : JsString) :
    Reader.run ⟨.arrayStart, σ⟩ (lineBreak (depth + 1) ++ stringifyIndent (depth + 1) v ++ t) =
      Reader.run ⟨.value, .array [] :: σ⟩ (stringifyIndent (depth + 1) v ++ t) := by
  rw [List.append_assoc,
    Reader.run_append_of (run_arrayStart_blank σ (isJsonSpace_lineBreak (depth + 1)))]
  obtain ⟨c, s, hs, hspace, hc⟩ := stringifyIndent_head (depth + 1) v
  simp [hs, Reader.run_cons, Reader.step, hspace, hc]

/-- A key, its colon and the space behind it. -/
theorem run_key_indent (k : JsString) (members : List (JsString × Json)) (σ : List Frame)
    (t : JsString) :
    Reader.run ⟨.key members, σ⟩ (quote k ++ 58 :: 32 :: t) =
      Reader.run ⟨.value, .object members k :: σ⟩ t := by
  rw [run_key]
  exact Reader.run_cons_of rfl t

mutual

/-- Fed the indented text of `v`, the reader has `v`, as it has when it is fed the plain one
(`run_stringify`). -/
theorem run_stringifyIndent (v : Json) (depth : Nat) (σ : List Frame) :
    ∃ r, Reader.run ⟨.value, σ⟩ (stringifyIndent depth v) = some r ∧ r.Holds v σ := by
  cases v with
  | null => exact ⟨_, rfl, .inl rfl⟩
  | bool b => cases b <;> exact ⟨_, rfl, .inl rfl⟩
  | number n => exact ⟨_, run_number σ n, .inr ⟨n, rfl, rfl⟩⟩
  | string s => exact ⟨_, run_quoted .value σ s, .inl rfl⟩
  | array items =>
    cases items with
    | nil => exact ⟨_, rfl, .inl rfl⟩
    | cons v vs =>
      obtain ⟨r, hr, hv⟩ := run_stringifyIndent v (depth + 1) (.array [] :: σ)
      refine ⟨⟨.after (.array (v :: vs)), σ⟩, ?_, .inl rfl⟩
      change Reader.run ⟨.arrayStart, σ⟩
        (lineBreak (depth + 1) ++ stringifyIndent (depth + 1) v ++ indentItems depth vs) = _
      rw [run_arrayStart_indent, Reader.run_append_of hr, run_indentItems vs depth hv]
      rfl
  | object members =>
    cases members with
    | nil => exact ⟨_, rfl, .inl rfl⟩
    | cons m ms =>
      obtain ⟨k, v⟩ := m
      obtain ⟨r, hr, hv⟩ := run_stringifyIndent v (depth + 1) (.object [] k :: σ)
      refine ⟨⟨.after (.object ((k, v) :: ms)), σ⟩, ?_, .inl rfl⟩
      change Reader.run ⟨.objectStart, σ⟩ (lineBreak (depth + 1) ++
        (quote k ++ 58 :: 32 :: stringifyIndent (depth + 1) v) ++ indentMembers depth ms) = _
      rw [List.append_assoc,
        Reader.run_append_of (run_objectStart_blank σ (isJsonSpace_lineBreak (depth + 1)))]
      -- behind the brace a key is read as behind a comma
      change Reader.run ⟨.key [], σ⟩
        (quote k ++ 58 :: 32 :: stringifyIndent (depth + 1) v ++ indentMembers depth ms) = _
      rw [List.append_assoc, List.cons_append, List.cons_append, run_key_indent,
        Reader.run_append_of hr, run_indentMembers ms depth hv]
      rfl

/-- The elements behind the first `items` and `v`. -/
theorem run_indentItems (vs : List Json) (depth : Nat) {r : Reader} {v : Json}
    {items : List Json} {σ : List Frame} (h : r.Holds v (.array items :: σ)) :
    r.run (indentItems depth vs) = some ⟨.after (.array (items ++ v :: vs)), σ⟩ := by
  cases vs with
  | nil =>
    rw [indentItems, Reader.run_append_of
      (h.run_blank _ (isJsonSpace_lineBreak depth) (List.cons_ne_nil _ _))]
    rfl
  | cons v' vs =>
    obtain ⟨r', hr', hv'⟩ := run_stringifyIndent v' (depth + 1) (.array (items ++ [v]) :: σ)
    have hcomma : r.step 44 = some ⟨.value, .array (items ++ [v]) :: σ⟩ := h.step_comma
    rw [indentItems, Reader.run_cons_of hcomma, List.append_assoc,
      Reader.run_append_of (run_value_blank _ (isJsonSpace_lineBreak (depth + 1))),
      Reader.run_append_of hr', run_indentItems vs depth hv']
    simp

/-- The members behind the first `members` and `k`, `v`. -/
theorem run_indentMembers (ms : List (JsString × Json)) (depth : Nat) {r : Reader} {v : Json}
    {k : JsString} {members : List (JsString × Json)} {σ : List Frame}
    (h : r.Holds v (.object members k :: σ)) :
    r.run (indentMembers depth ms) =
      some ⟨.after (.object (members ++ (k, v) :: ms)), σ⟩ := by
  cases ms with
  | nil =>
    rw [indentMembers, Reader.run_append_of
      (h.run_blank _ (isJsonSpace_lineBreak depth) (List.cons_ne_nil _ _))]
    rfl
  | cons m ms =>
    obtain ⟨k', v'⟩ := m
    obtain ⟨r', hr', hv'⟩ :=
      run_stringifyIndent v' (depth + 1) (.object (members ++ [(k, v)]) k' :: σ)
    have hcomma : r.step 44 = some ⟨.key (members ++ [(k, v)]), σ⟩ := h.step_comma
    rw [indentMembers, Reader.run_cons_of hcomma, List.append_assoc,
      Reader.run_append_of (run_key_blank _ _ (isJsonSpace_lineBreak (depth + 1))),
      List.append_assoc, List.cons_append, List.cons_append, run_key_indent,
      Reader.run_append_of hr', run_indentMembers ms depth hv']
    simp

end

/-- `JSON.parse(JSON.stringify(v, null, 2) + blank)` is `v`. -/
theorem jsonParse_stringifyIndent (v : Json) {blank : JsString}
    (h : ∀ c ∈ blank, isJsonSpace c = true) :
    jsonParse (stringifyIndent 0 v ++ blank) = some v := by
  obtain ⟨r, hr, hv⟩ := run_stringifyIndent v 0 []
  rw [jsonParse, Reader.init, Reader.run_append_of hr]
  by_cases hnil : blank = []
  · subst hnil
    exact hv.finish_eq
  · rw [hv.run_blank [] h hnil]
    rfl

end CorpusRunner
