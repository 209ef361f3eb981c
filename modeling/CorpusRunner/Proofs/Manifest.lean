import CorpusRunner.Lib.TestSet
import Mathlib.Data.List.Infix

/-!
# Manifests

The lines a manifest is made of, as data, and what `idsFromListFile` makes of their text. A
line without a comment may end either way, since `trim` takes the carriage return. A comment
must run up to the line break itself: `.` stops at a line terminator and `$` stands for the end
of the input only, so that behind a `#` on a line ended by CRLF nothing is stripped
(`idsFromListFile_iff`).
-/

namespace CorpusRunner

/-! ## The grammar -/

/-- The part of a test's name between `test-` and `.js`. -/
structure BaseName where
  text : JsString
  ne_nil : text ≠ []
  noHash : (0x23 : UInt16) ∉ text
  noBlank : ∀ c ∈ text, isSpace c = false
  noPrefix : startsWith text (js "test-") = false
  noSuffix : endsWith text (js ".js") = false

/-- `test-B.js`, `test-B` or `B`. -/
inductive Spelling where
  | full
  | noExtension
  | bare
  deriving DecidableEq, Repr

def BaseName.canonical (b : BaseName) : JsString := js "test-" ++ b.text ++ js ".js"

def BaseName.spell (b : BaseName) : Spelling → JsString
  | .full => b.canonical
  | .noExtension => js "test-" ++ b.text
  | .bare => b.text

/-- White space within a line. -/
structure Blanks where
  text : JsString
  blank : ∀ c ∈ text, isSpace c = true
  oneLine : (10 : UInt16) ∉ text

/-- What stands behind the `#` of a comment, up to the end of the line. -/
structure Comment where
  text : JsString
  oneLine : (10 : UInt16) ∉ text

/-- A line: blank, a comment, or an id with or without one. -/
structure ManifestLine where
  lead : Blanks
  id : Option (BaseName × Spelling)
  trail : Blanks
  comment : Option Comment
  crlf : Bool

namespace ManifestLine

/-- The comment as it is written. -/
def commentText (l : ManifestLine) : JsString :=
  (l.comment.map (fun c => 0x23 :: c.text)).getD []

def idText (l : ManifestLine) : JsString := (l.id.map (fun i => i.1.spell i.2)).getD []

/-- The line up to its line feed. -/
def body (l : ManifestLine) : JsString :=
  l.lead.text ++ l.idText ++ l.trail.text ++ l.commentText ++ (if l.crlf then [13] else [])

def text (l : ManifestLine) : JsString := l.body ++ [10]

/-- What the line lists. -/
def canonical (l : ManifestLine) : Option JsString := l.id.map (fun i => i.1.canonical)

/-- A comment, if there is one, runs up to the line feed and has no other line terminator. -/
def Plain (l : ManifestLine) : Prop :=
  ∀ c, l.comment = some c → l.crlf = false ∧ ∀ u ∈ c.text, isLineTerminator u = false

end ManifestLine

def manifestText (lines : List ManifestLine) : JsString := lines.flatMap ManifestLine.text

/-! ## Spellings -/

namespace BaseName

variable (b : BaseName)

/-- `.js` is not put together from `test-` and the name. -/
theorem noExtension_noSuffix : endsWith (js "test-" ++ b.text) (js ".js") = false := by
  rw [← Bool.not_eq_true, endsWith_iff]
  intro h
  rcases List.suffix_or_suffix_of_suffix h (List.suffix_append _ _) with hb | hb
  · exact absurd (endsWith_iff.mpr hb) (by simp [b.noSuffix])
  · have hno := b.noSuffix
    rw [← List.mem_tails] at hb
    revert h hno
    generalize b.text = t at hb
    revert t
    decide

/-- `test-` is not put together from the name and `.js`. -/
theorem bare_noPrefix : startsWith (b.text ++ js ".js") (js "test-") = false := by
  rw [← Bool.not_eq_true, startsWith_iff]
  intro h
  rcases List.prefix_or_prefix_of_prefix h (List.prefix_append _ _) with hb | hb
  · exact absurd (startsWith_iff.mpr hb) (by simp [b.noPrefix])
  · have hno := b.noPrefix
    rw [← List.mem_inits] at hb
    revert h hno
    generalize b.text = t at hb
    revert t
    decide

/-- The three spellings are one id. -/
theorem normalizeId_spell (sp : Spelling) : normalizeId (b.spell sp) = b.canonical := by
  have hprefix (t : JsString) : startsWith (js "test-" ++ t) (js "test-") = true :=
    startsWith_iff.mpr (List.prefix_append _ _)
  cases sp with
  | full =>
    have hsuffix : endsWith (js "test-" ++ b.text ++ js ".js") (js ".js") = true :=
      endsWith_iff.mpr (List.suffix_append _ _)
    simp only [normalizeId, spell, canonical, hsuffix, if_true]
    rw [List.append_assoc, hprefix, if_pos rfl]
  | noExtension =>
    simp only [normalizeId, spell, canonical, b.noExtension_noSuffix, Bool.false_eq_true, if_false]
    rw [List.append_assoc, hprefix, if_pos rfl]
  | bare =>
    simp only [normalizeId, spell, canonical, b.noSuffix, b.bare_noPrefix, Bool.false_eq_true,
      if_false]
    rw [List.append_assoc]

theorem spell_ne_nil (sp : Spelling) : b.spell sp ≠ [] := by
  cases sp <;> simp [spell, canonical, b.ne_nil]

theorem spell_noHash (sp : Spelling) : (0x23 : UInt16) ∉ b.spell sp := by
  have htest : (0x23 : UInt16) ∉ js "test-" := by decide
  have hjs : (0x23 : UInt16) ∉ js ".js" := by decide
  cases sp <;> simp [spell, canonical, b.noHash, htest, hjs]

theorem spell_noBlank (sp : Spelling) : ∀ c ∈ b.spell sp, isSpace c = false := by
  have htest : ∀ c ∈ js "test-", isSpace c = false := not_isSpace_of_all (by decide)
  have hjs : ∀ c ∈ js ".js", isSpace c = false := not_isSpace_of_all (by decide)
  intro c hc
  cases sp with
  | full =>
    rw [spell, canonical, List.mem_append, List.mem_append] at hc
    rcases hc with (hc | hc) | hc
    · exact htest c hc
    · exact b.noBlank c hc
    · exact hjs c hc
  | noExtension =>
    rcases List.mem_append.mp hc with hc | hc
    · exact htest c hc
    · exact b.noBlank c hc
  | bare => exact b.noBlank c hc

end BaseName

/-! ## Comments -/

theorem stripComment_append {s : JsString} (h : (0x23 : UInt16) ∉ s) (t : JsString) :
    stripComment (s ++ t) = s ++ stripComment t := by
  induction s with
  | nil => rfl
  | cons c s ih =>
    rw [List.mem_cons, not_or] at h
    have hc : c ≠ 0x23 := Ne.symm h.1
    rw [List.cons_append, stripComment, ih h.2]
    simp [hc]

/-- A comment that runs up to the end of the line is stripped. -/
theorem stripComment_hash {t : JsString} (h : ∀ u ∈ t, isLineTerminator u = false) :
    stripComment (0x23 :: t) = [] := by
  have hany : t.any isLineTerminator = false := by
    rw [List.any_eq_false]
    intro u hu
    simp [h u hu]
  simp [stripComment, hany]

/-- Before a further line terminator the `#` stays. -/
theorem stripComment_hash_of_mem {t : JsString} {u : UInt16} (hu : u ∈ t)
    (h : isLineTerminator u = true) : stripComment (0x23 :: t) = 0x23 :: stripComment t := by
  have hany : t.any isLineTerminator = true := List.any_eq_true.mpr ⟨u, hu, h⟩
  simp [stripComment, hany]

/-! ## Lines -/

namespace ManifestLine

variable (l : ManifestLine)

theorem idText_noHash : (0x23 : UInt16) ∉ l.idText := by
  rw [idText]
  cases l.id with
  | none => simp
  | some i => exact i.1.spell_noHash i.2

theorem blanks_noHash (b : Blanks) : (0x23 : UInt16) ∉ b.text := by
  intro h
  exact absurd (b.blank _ h) (by decide)

/-- The part of a line in front of its comment. -/
theorem front_noHash : (0x23 : UInt16) ∉ l.lead.text ++ l.idText ++ l.trail.text := by
  simp only [List.mem_append, not_or]
  exact ⟨⟨blanks_noHash _, l.idText_noHash⟩, blanks_noHash _⟩

/-- `trim` leaves the id of a line that has no comment any more. -/
theorem trim_front {ending : JsString} (h : ∀ c ∈ ending, isSpace c = true) :
    trim (l.lead.text ++ l.idText ++ l.trail.text ++ ending) = l.idText := by
  have htrail : ∀ c ∈ l.trail.text ++ ending, isSpace c = true := by
    intro c hc
    rcases List.mem_append.mp hc with hc | hc
    · exact l.trail.blank c hc
    · exact h c hc
  rw [List.append_assoc]
  cases hid : l.id with
  | none =>
    have hnil : l.idText = [] := by simp [idText, hid]
    rw [hnil, List.append_nil]
    apply trim_eq_nil
    intro c hc
    rcases List.mem_append.mp hc with hc | hc
    · exact l.lead.blank c hc
    · exact htrail c hc
  | some i =>
    have hspell : l.idText = i.1.spell i.2 := by simp [idText, hid]
    rw [hspell]
    exact trim_surrounded l.lead.blank htrail (i.1.spell_ne_nil i.2) (i.1.spell_noBlank i.2)

theorem idOfLine_of_trim {line : JsString} (h : trim (stripComment line) = l.idText) :
    idOfLine line = l.canonical := by
  cases hid : l.id with
  | none =>
    have hnil : l.idText = [] := by simp [idText, hid]
    simp [idOfLine, h, hnil, canonical, hid]
  | some i =>
    have hspell : l.idText = i.1.spell i.2 := by simp [idText, hid]
    rw [hspell] at h
    rw [idOfLine_of_ne (h ▸ i.1.spell_ne_nil i.2), h, i.1.normalizeId_spell]
    simp [canonical, hid]

/-- A line whose comment runs up to its line feed. -/
theorem idOfLine_plain (h : l.Plain) : idOfLine l.body = l.canonical := by
  apply l.idOfLine_of_trim
  have hend : ∀ c ∈ (if l.crlf then [13] else [] : JsString), isSpace c = true := by
    apply isSpace_of_all
    cases l.crlf <;> decide
  cases hc : l.comment with
  | none =>
    have hbody : l.body = l.lead.text ++ l.idText ++ l.trail.text ++
        (if l.crlf then [13] else []) := by simp [body, commentText, hc]
    have hstrip : stripComment l.body = l.body := by
      have hend' : (0x23 : UInt16) ∉ (if l.crlf then [13] else [] : JsString) := by
        cases l.crlf <;> decide
      have hno : (0x23 : UInt16) ∉ l.body := by
        rw [hbody, List.mem_append, not_or]
        exact ⟨l.front_noHash, hend'⟩
      simpa [stripComment] using stripComment_append hno []
    rw [hstrip, hbody]
    exact l.trim_front hend
  | some c =>
    obtain ⟨hlf, hplain⟩ := h c hc
    have hbody : l.body = l.lead.text ++ l.idText ++ l.trail.text ++ 0x23 :: c.text := by
      simp [body, commentText, hc, hlf]
    rw [hbody, stripComment_append l.front_noHash, stripComment_hash hplain]
    have hfront : trim (l.lead.text ++ l.idText ++ l.trail.text ++ []) = l.idText :=
      l.trim_front (by simp)
    exact hfront

/-- Any other comment becomes part of an id. -/
theorem idOfLine_not_plain (h : ¬ l.Plain) :
    ∃ s, idOfLine l.body = some s ∧ (0x23 : UInt16) ∈ s := by
  rw [Plain] at h
  push Not at h
  obtain ⟨c, hc, hbad⟩ := h
  -- a line terminator stands behind the `#`: one of the comment's, or the carriage return
  obtain ⟨u, hu, hterm⟩ : ∃ u ∈ c.text ++ (if l.crlf then [13] else []),
      isLineTerminator u = true := by
    by_cases hlf : l.crlf = false
    · obtain ⟨u, hu, hterm⟩ := hbad hlf
      exact ⟨u, by simp [hu], by simpa using hterm⟩
    · rw [Bool.not_eq_false] at hlf
      exact ⟨13, by simp [hlf], by decide⟩
  have hbody : l.body = l.lead.text ++ l.idText ++ l.trail.text ++
      0x23 :: (c.text ++ (if l.crlf then [13] else [])) := by
    simp [body, commentText, hc]
  have hmem : (0x23 : UInt16) ∈ trim (stripComment l.body) := by
    apply mem_trim _ (by decide)
    rw [hbody, stripComment_append l.front_noHash, stripComment_hash_of_mem hu hterm]
    simp
  refine ⟨_, idOfLine_of_ne (List.ne_nil_of_mem hmem), ?_⟩
  unfold normalizeId
  simp only
  split_ifs <;> simp [hmem]

theorem body_oneLine : (10 : UInt16) ∉ l.body := by
  have hid : (10 : UInt16) ∉ l.idText := by
    rw [idText]
    cases l.id with
    | none => simp
    | some i =>
      intro h
      exact absurd (i.1.spell_noBlank i.2 _ h) (by decide)
  have hcomment : (10 : UInt16) ∉ l.commentText := by
    rw [commentText]
    cases l.comment with
    | none => simp
    | some c => simp [c.oneLine]
  have hend : (10 : UInt16) ∉ (if l.crlf then [13] else [] : JsString) := by
    cases l.crlf <;> decide
  simp [body, l.lead.oneLine, hid, l.trail.oneLine, hcomment, hend]

end ManifestLine

/-! ## Manifests -/

theorem idsFromListFile_manifestText (lines : List ManifestLine) :
    idsFromListFile (manifestText lines) =
      lines.filterMap (fun l => idOfLine l.body) := by
  induction lines with
  | nil => rfl
  | cons l lines ih =>
    have hsplit : splitLines (manifestText (l :: lines)) =
        l.body :: splitLines (manifestText lines) := by
      change splitLines (l.body ++ [10] ++ manifestText lines) = _
      rw [List.append_assoc, List.singleton_append, splitLines_append,
        splitLines_eq_singleton l.body_oneLine]
      rfl
    rw [idsFromListFile, hsplit]
    simp only [List.filterMap_cons]
    rw [← ih]
    rfl

/-- A manifest is read as the ids it lists exactly when every comment in it runs up to a bare
line feed. -/
theorem idsFromListFile_iff (lines : List ManifestLine) :
    idsFromListFile (manifestText lines) = lines.filterMap ManifestLine.canonical ↔
      ∀ l ∈ lines, l.Plain := by
  rw [idsFromListFile_manifestText]
  constructor
  · intro heq l hl
    by_contra hplain
    obtain ⟨s, hs, hhash⟩ := l.idOfLine_not_plain hplain
    have hmem : s ∈ lines.filterMap (fun l => idOfLine l.body) :=
      List.mem_filterMap.mpr ⟨l, hl, hs⟩
    -- but no canonical name has a `#`
    rw [heq] at hmem
    obtain ⟨l', -, hl'⟩ := List.mem_filterMap.mp hmem
    rw [ManifestLine.canonical, Option.map_eq_some_iff] at hl'
    obtain ⟨i, -, rfl⟩ := hl'
    exact i.1.spell_noHash .full hhash
  · intro hall
    apply List.filterMap_congr
    intro l hl
    exact l.idOfLine_plain (hall l hl)

def baseA : BaseName :=
  ⟨js "a", by decide, by decide, not_isSpace_of_all (by decide), by decide, by decide⟩

/-- The id of a test with a comment behind it. -/
def commented (crlf : Bool) : ManifestLine where
  lead := ⟨[], by simp, by simp⟩
  id := some (baseA, .full)
  trail := ⟨js " ", isSpace_of_all (by decide), by decide⟩
  comment := some ⟨js " flaky", by decide⟩
  crlf := crlf

/-- Ended by CRLF, the line lists another name; the test that it means is not selected. -/
theorem idsFromListFile_fails_crlf :
    manifestText [commented true] = js "test-a.js # flaky\r\n" ∧
      idsFromListFile (manifestText [commented true]) = [js "test-a.js # flaky.js"] ∧
      idsFromListFile (manifestText [commented false]) = [js "test-a.js"] ∧
      idsFromListFile (manifestText [commented true]) ≠
        [commented true].filterMap ManifestLine.canonical := by
  decide

end CorpusRunner
