import CorpusRunner.Misc.JsonRoundTrip

/-!
# JSON texts as lines

`JSON.stringify` writes no line break, so a text is one line. A reader that has begun a text
does not take an object's text for anything but a part of it (`finish_of_begun`): an object
written behind what is left of another text is lost together with it. Nor does a bracket stand
behind a complete text (`Reader.Complete.run_close`): of an array or an object no part from
the front is a text.
-/

namespace CorpusRunner

/-! ## No line break -/

theorem newline_notMem_unicodeEscape (c : UInt16) : (10 : UInt16) ∉ unicodeEscape c := by
  have hc : c.toNat < 65536 := c.toNat_lt
  have hdigit : ∀ n < 16, (10 : UInt16) ≠ hexDigit n := by decide
  simp only [unicodeEscape, List.mem_cons, List.not_mem_nil, or_false, not_or]
  exact ⟨by decide, by decide, hdigit _ (by omega), hdigit _ (by omega), hdigit _ (by omega),
    hdigit _ (by omega)⟩

theorem newline_notMem_quoteUnit (before after : Option UInt16) (c : UInt16) :
    (10 : UInt16) ∉ quoteUnit before c after := by
  unfold quoteUnit
  split_ifs with h8 h9 h10 h12 h13 h34 h92 hesc
  all_goals first
    | exact newline_notMem_unicodeEscape c
    | decide
    | simpa using Ne.symm h10

theorem newline_notMem_quoteUnits (before : Option UInt16) (s : JsString) :
    (10 : UInt16) ∉ quoteUnits before s := by
  induction s generalizing before with
  | nil => simp [quoteUnits]
  | cons c s ih =>
    rw [quoteUnits, List.mem_append, not_or]
    exact ⟨newline_notMem_quoteUnit before s.head? c, ih _⟩

theorem newline_notMem_quote (s : JsString) : (10 : UInt16) ∉ quote s := by
  have h := newline_notMem_quoteUnits none s
  simp [quote, h]

theorem newline_notMem_comma (first : Bool) : (10 : UInt16) ∉ comma first := by
  cases first <;> decide

mutual

theorem newline_notMem_stringify (v : Json) : (10 : UInt16) ∉ stringify v := by
  cases v with
  | null => decide
  | bool b => cases b <;> decide
  | number n => exact n.notMem_literal (fun st => by cases st <;> decide)
  | string s => exact newline_notMem_quote s
  | array items => simp [stringify, newline_notMem_items true items]
  | object members => simp [stringify, newline_notMem_members true members]

theorem newline_notMem_items (first : Bool) (vs : List Json) :
    (10 : UInt16) ∉ stringifyItems first vs := by
  cases vs with
  | nil => simp [stringifyItems]
  | cons v vs =>
    simp [stringifyItems, newline_notMem_comma, newline_notMem_stringify v,
      newline_notMem_items false vs]

theorem newline_notMem_members (first : Bool) (ms : List (JsString × Json)) :
    (10 : UInt16) ∉ stringifyMembers first ms := by
  cases ms with
  | nil => simp [stringifyMembers]
  | cons m ms =>
    obtain ⟨k, v⟩ := m
    simp [stringifyMembers, newline_notMem_comma, newline_notMem_quote,
      newline_notMem_stringify v, newline_notMem_members false ms]

end

/-! ## An object behind the beginning of a text -/

theorem valueStep_ne_init {σ : List Frame} {c : UInt16} {r : Reader}
    (h : valueStep σ c = some r) (hne : σ ≠ [] ∨ isJsonSpace c = false) : r ≠ .init := by
  intro heq
  subst heq
  unfold valueStep at h
  split_ifs at h with hspace
  all_goals first
    | (simp only [Option.some.injEq, Reader.init, Reader.mk.injEq, true_and] at h
       rcases hne with hne | hne
       · exact hne h
       · simp [hspace] at hne)
    | simp [Reader.init] at h

theorem afterStep_ne_init {v : Json} {σ : List Frame} {c : UInt16} {r : Reader}
    (h : afterStep v σ c = some r) : r ≠ .init := by
  intro heq
  subst heq
  unfold afterStep at h
  split at h
  · simp [Reader.init] at h
  · split at h
    · cases h
    · split_ifs at h <;> simp [Reader.init] at h
    · split_ifs at h <;> simp [Reader.init] at h

theorem stringStep_ne_value {use : Use} {read : JsString} {e : Escape} {c : UInt16}
    {m : Mode} (h : stringStep use read e c = some m) : m ≠ .value := by
  intro heq
  subst heq
  cases e with
  | plain =>
    simp only [stringStep] at h
    split_ifs at h
    · cases use <;> simp [Use.close] at h
    all_goals simp at h
  | backslash =>
    simp only [stringStep] at h
    split_ifs at h
    · simp at h
    · simp [Option.map_eq_some_iff] at h
  | unicode digits code =>
    simp only [stringStep, Option.map_eq_some_iff] at h
    obtain ⟨d, -, h⟩ := h
    split_ifs at h

/-- A reader that has begun a text does not come back to where it has not. -/
theorem Reader.step_ne_init {r r' : Reader} {c : UInt16} (h : r.step c = some r')
    (hne : r ≠ .init ∨ isJsonSpace c = false) : r' ≠ .init := by
  obtain ⟨m, σ⟩ := r
  cases m with
  | value =>
    refine valueStep_ne_init h (hne.imp_left ?_)
    rintro hr rfl
    exact hr rfl
  | arrayStart =>
    simp only [Reader.step] at h
    split_ifs at h
    · rintro rfl; simp [Reader.init] at h
    · rintro rfl; simp [Reader.init] at h
    · exact valueStep_ne_init h (.inl (by simp))
  | objectStart =>
    intro heq
    subst heq
    simp only [Reader.step] at h
    split_ifs at h <;> simp [Reader.init] at h
  | key members =>
    intro heq
    subst heq
    simp only [Reader.step] at h
    split_ifs at h <;> simp [Reader.init] at h
  | colon members k =>
    intro heq
    subst heq
    simp only [Reader.step] at h
    split_ifs at h <;> simp [Reader.init] at h
  | string use read e =>
    intro heq
    subst heq
    simp only [Reader.step, Option.map_eq_some_iff] at h
    obtain ⟨m, hm, h⟩ := h
    simp only [Reader.init, Reader.mk.injEq] at h
    exact stringStep_ne_value hm h.1
  | number read =>
    simp only [Reader.step] at h
    split_ifs at h
    · rintro rfl; simp [Reader.init] at h
    · exact afterStep_ne_init h
  | word w read =>
    intro heq
    subst heq
    simp only [Reader.step] at h
    split_ifs at h <;> simp [Reader.init] at h
  | after v => exact afterStep_ne_init h

theorem Reader.run_ne_init {r r' : Reader} {s : JsString} (h : r.run s = some r')
    (hr : r ≠ .init) : r' ≠ .init := by
  induction s generalizing r with
  | nil =>
    obtain rfl := Option.some.inj h
    exact hr
  | cons c s ih =>
    rw [Reader.run_cons, Option.bind_eq_some_iff] at h
    obtain ⟨r'', hstep, h⟩ := h
    exact ih h (Reader.step_ne_init hstep (.inl hr))

/-- What may follow a complete value or a key. -/
def isSeparator (c : UInt16) : Bool :=
  isJsonSpace c || c = 44 || c = 58 || c = 93 || c = 125

theorem afterStep_eq_none {v : Json} {σ : List Frame} {c : UInt16}
    (h : isSeparator c = false) : afterStep v σ c = none := by
  simp only [isSeparator, Bool.or_eq_false_iff, decide_eq_false_iff_not] at h
  obtain ⟨⟨⟨⟨hspace, h44⟩, -⟩, h93⟩, h125⟩ := h
  cases σ with
  | nil => simp [afterStep, hspace]
  | cons f σ =>
    cases f with
    | array items => simp [afterStep, hspace, h44, h93]
    | object members k => simp [afterStep, hspace, h44, h125]

/-- Behind the closing quote of a string. -/
theorem close_step_eq_none {use : Use} {s : JsString} {σ : List Frame} {c : UInt16}
    (h : isSeparator c = false) : Reader.step ⟨use.close s, σ⟩ c = none := by
  cases use with
  | value => exact afterStep_eq_none h
  | key members =>
    simp only [isSeparator, Bool.or_eq_false_iff, decide_eq_false_iff_not] at h
    obtain ⟨⟨⟨⟨hspace, -⟩, h58⟩, -⟩, -⟩ := h
    simp [Use.close, Reader.step, hspace, h58]

theorem close_step_quote (use : Use) (s : JsString) (σ : List Frame) :
    Reader.step ⟨.string use s .plain, σ⟩ 34 = some ⟨use.close s, σ⟩ := rfl

/-- An escape starts with a backslash, so it separates no more than the code unit does. -/
theorem quoteUnit_head {c : UInt16} (h : isSeparator c = false)
    (before after : Option UInt16) :
    ∃ d t, quoteUnit before c after = d :: t ∧ isSeparator d = false := by
  unfold quoteUnit
  split_ifs
  all_goals first
    | exact ⟨c, [], rfl, h⟩
    | exact ⟨92, _, rfl, by decide⟩

/-- An opening brace in a place where no value is expected: only a string goes on. -/
theorem Reader.step_brace_of_begun {r r' : Reader} (h : r.step 123 = some r') :
    r.mode = .value ∨ r.mode = .arrayStart ∨
      ∃ use read, r.mode = .string use read .plain ∧
        r' = ⟨.string use (read ++ [123]) .plain, r.stack⟩ := by
  obtain ⟨m, σ⟩ := r
  cases m with
  | value => exact .inl rfl
  | arrayStart => exact .inr (.inl rfl)
  | objectStart => simp [Reader.step, isJsonSpace] at h
  | key members => simp [Reader.step, isJsonSpace] at h
  | colon members k => simp [Reader.step, isJsonSpace] at h
  | string use read e =>
    cases e with
    | plain =>
      refine .inr (.inr ⟨use, read, rfl, ?_⟩)
      simpa [Reader.step, stringStep] using h.symm
    | backslash => simp [Reader.step, stringStep, unescape] at h
    | unicode digits code => simp [Reader.step, stringStep, hexValue, isDigit] at h
  | number read =>
    have hnone : numRun (read ++ [123]) = none :=
      numRun_snoc_eq_none (fun st => by cases st <;> decide) read
    simp only [Reader.step, hnone, Option.isSome_none, Bool.false_eq_true, if_false] at h
    split_ifs at h
    rw [afterStep_eq_none (by decide)] at h
    cases h
  | word w read =>
    have hw : w.text[read]? ≠ some 123 := by
      intro hread
      have hmem := List.mem_of_getElem? hread
      revert hmem
      cases w <;> decide
    simp [Reader.step, hw] at h
  | after v =>
    simp only [Reader.step, afterStep_eq_none (by decide : isSeparator 123 = false)] at h
    cases h

/-- Behind the beginning of a text no object ends it: where a value is expected something
else is open around that value, and in a string the first key closes the string. -/
theorem finish_of_begun {r : Reader} (hr : r ≠ .init) {c : UInt16}
    (hc : isSeparator c = false) (k : JsString) (v : Json) (ms : List (JsString × Json)) :
    (r.run (stringify (.object ((c :: k, v) :: ms)))).bind Reader.finish = none := by
  set o : Json := .object ((c :: k, v) :: ms) with ho
  obtain ⟨t, ht⟩ : ∃ t, stringify o = 123 :: 34 :: (quoteUnit none c k.head? ++ t) := by
    refine ⟨quoteUnits (some c) k ++ 34 :: 58 :: (stringify v ++ stringifyMembers false ms), ?_⟩
    simp [ho, stringify, stringifyMembers, comma, quote, quoteUnits]
  cases hstep : r.step 123 with
  | none => rw [ht, Reader.run_cons, hstep]; rfl
  | some r' =>
    obtain ⟨m, σ⟩ := r
    obtain rfl | rfl | ⟨use, read, rfl, rfl⟩ := Reader.step_brace_of_begun hstep
    · cases σ with
      | nil => exact absurd rfl hr
      | cons f σ =>
        obtain ⟨r', hrun, hv⟩ := run_stringify o (f :: σ)
        rw [hrun]
        exact hv.finish_eq_none
    · obtain ⟨r', hrun, hv⟩ := run_stringify o (.array [] :: σ)
      have harr := run_arrayStart σ o []
      simp only [List.append_nil] at harr
      rw [harr, hrun]
      exact hv.finish_eq_none
    · obtain ⟨d, u, hd, hsep⟩ := quoteUnit_head hc none k.head?
      rw [ht, Reader.run_cons_of hstep,
        Reader.run_cons, close_step_quote, Option.bind_some, hd, List.cons_append,
        Reader.run_cons, close_step_eq_none hsep]
      rfl

/-- An object written behind the beginning of another text is lost with it. -/
theorem jsonParse_torn {c d : UInt16} {s : JsString} (hd : isJsonSpace d = false)
    (hc : isSeparator c = false) (k : JsString) (v : Json) (ms : List (JsString × Json)) :
    jsonParse (d :: s ++ stringify (.object ((c :: k, v) :: ms))) = none := by
  cases hrun : Reader.init.run (d :: s) with
  | none => rw [jsonParse, Reader.run_append, hrun]; rfl
  | some r =>
    have hr : r ≠ .init := by
      rw [Reader.run_cons, Option.bind_eq_some_iff] at hrun
      obtain ⟨r', hstep, hrun⟩ := hrun
      exact Reader.run_ne_init hrun (Reader.step_ne_init hstep (.inr hd))
    rw [jsonParse, Reader.run_append_of hrun]
    exact finish_of_begun hr hc k v ms

/-! ## A text that is cut -/

namespace Reader

/-- Nothing is open and a value is there: the text may end here. -/
def Complete (r : Reader) : Prop :=
  r.stack = [] ∧ ((∃ v, r.mode = .after v) ∨ ∃ read, r.mode = .number read)

theorem complete_of_finish {r : Reader} {v : Json} (h : r.finish = some v) : r.Complete := by
  obtain ⟨m, σ⟩ := r
  cases σ with
  | cons f σ => simp [finish] at h
  | nil =>
    cases m with
    | after v => exact ⟨rfl, .inl ⟨v, rfl⟩⟩
    | number read => exact ⟨rfl, .inr ⟨read, rfl⟩⟩
    | _ => simp [finish] at h

namespace Complete

variable {r r' : Reader}

theorem afterStep_nil {v : Json} {c : UInt16} (h : afterStep v [] c = some r') :
    r'.Complete := by
  simp only [afterStep] at h
  split_ifs at h
  obtain rfl := Option.some.inj h
  exact ⟨rfl, .inl ⟨v, rfl⟩⟩

theorem step {c : UInt16} (h : r.Complete) (hstep : r.step c = some r') : r'.Complete := by
  obtain ⟨m, σ⟩ := r
  obtain ⟨rfl, ⟨v, rfl⟩ | ⟨read, rfl⟩⟩ := h
  · exact afterStep_nil hstep
  · simp only [Reader.step] at hstep
    split_ifs at hstep with hnum
    · obtain rfl := Option.some.inj hstep
      exact ⟨rfl, .inr ⟨_, rfl⟩⟩
    · exact afterStep_nil hstep

theorem run {s : JsString} (h : r.Complete) (hrun : r.run s = some r') : r'.Complete := by
  induction s generalizing r with
  | nil =>
    obtain rfl := Option.some.inj hrun
    exact h
  | cons c s ih =>
    rw [Reader.run_cons, Option.bind_eq_some_iff] at hrun
    obtain ⟨r'', hstep, hrun⟩ := hrun
    exact ih (h.step hstep) hrun

/-- A code unit that is neither white space nor part of a number. -/
theorem step_eq_none {c : UInt16} (h : r.Complete) (hspace : isJsonSpace c = false)
    (hnum : ∀ st : NumState, st.step c = none) : r.step c = none := by
  have hafter (v : Json) : afterStep v [] c = none := by simp [afterStep, hspace]
  obtain ⟨m, σ⟩ := r
  obtain ⟨rfl, ⟨v, rfl⟩ | ⟨read, rfl⟩⟩ := h
  · exact hafter v
  · simp only [Reader.step, numRun_snoc_eq_none hnum, hafter, Option.isSome_none,
      Bool.false_eq_true, if_false, dite_eq_ite, ite_self]

/-- No bracket closes anything behind a complete text. -/
theorem run_close {s : JsString} {c : UInt16} (h : r.Complete) (hc : c = 93 ∨ c = 125) :
    r.run (s ++ [c]) = none := by
  rw [Reader.run_append]
  cases hrun : r.run s with
  | none => rfl
  | some r' =>
    have hnum : ∀ st : NumState, st.step c = none := by
      intro st
      rcases hc with rfl | rfl <;> cases st <;> decide
    have hspace : isJsonSpace c = false := by rcases hc with rfl | rfl <;> decide
    rw [Option.bind_some, Reader.run_cons, (h.run hrun).step_eq_none hspace hnum]
    rfl

end Complete

end Reader

/-- A text that ends with a bracket has no shorter text at its front. -/
theorem jsonParse_cut {p s : JsString} {c : UInt16} (hc : c = 93 ∨ c = 125)
    (h : (jsonParse (p ++ s ++ [c])).isSome) : jsonParse p = none := by
  cases hp : jsonParse p with
  | none => rfl
  | some v =>
    rw [jsonParse, Option.bind_eq_some_iff] at hp
    obtain ⟨r, hrun, hfinish⟩ := hp
    rw [jsonParse, List.append_assoc, Reader.run_append_of hrun,
      (Reader.complete_of_finish hfinish).run_close hc] at h
    cases h

/-- The text of an array or an object ends with its bracket. -/
theorem stringify_bracket {v : Json}
    (hv : (∃ vs, v = .array vs) ∨ ∃ ms, v = .object ms) :
    ∃ s c, stringify v = s ++ [c] ∧ (c = 93 ∨ c = 125) := by
  rcases hv with ⟨vs, rfl⟩ | ⟨ms, rfl⟩
  · obtain ⟨s, hs⟩ := stringify_array vs
    exact ⟨91 :: s, 93, hs, .inl rfl⟩
  · obtain ⟨s, hs⟩ := stringify_object ms
    exact ⟨123 :: s, 125, hs, .inr rfl⟩

/-- What is left of the text of an array or an object that was cut is no text. -/
theorem jsonParse_take {v : Json} (hv : (∃ vs, v = .array vs) ∨ ∃ ms, v = .object ms)
    {p : JsString} (hp : p <+: stringify v) (hne : p ≠ stringify v) : jsonParse p = none := by
  obtain ⟨s, c, hs, hc⟩ := stringify_bracket hv
  rw [hs, List.prefix_concat_iff] at hp
  rcases hp with hp | ⟨t, rfl⟩
  · exact absurd (hp.trans hs.symm) hne
  · apply jsonParse_cut hc (s := t)
    rw [← hs, jsonParse_stringify]
    rfl

end CorpusRunner
