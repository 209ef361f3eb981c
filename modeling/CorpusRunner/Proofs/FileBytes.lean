import CorpusRunner.Misc.Utf8Encode
import CorpusRunner.Proofs.LedgerPrefix

/-!
# The ledger on the disk is bytes

A writer appends the UTF-8 form of a line, and a reader decodes the bytes that are there before
it looks for lines. A write that is cut may leave part of a character; the replacement character
that is read for it stands in a line that is no JSON in any case. So a reader sees the records
whose bytes are all there, and no other (`readLedgerText_bytes`).
-/

namespace CorpusRunner

/-! ## Beginnings of decoded bytes -/

/-- What is decoded of a beginning: some beginning of the whole, and a replacement character
where the cut is inside a character. -/
theorem decodeUtf8_left (a b : List UInt8) :
    ∃ s t, decodeUtf8 (a ++ b) = s ++ t ∧ (decodeUtf8 a = s ∨ decodeUtf8 a = s ++ [0xFFFD]) ∧
      (t = [] → b = [] ∧ decodeUtf8 a = s) := by
  refine ⟨output none a, decodeFrom (openAfter none a) b, decodeFrom_append none a b, ?_, ?_⟩
  · rw [decodeUtf8, decodeFrom_eq]
    cases openAfter none a with
    | none => exact .inl (List.append_nil _)
    | some q => exact .inr rfl
  · intro hnil
    cases hopen : openAfter none a with
    | none =>
      rw [hopen] at hnil
      refine ⟨decodeUtf8_eq_nil.mp hnil, ?_⟩
      rw [decodeUtf8, decodeFrom_eq, hopen]
      exact List.append_nil _
    | some q =>
      rw [hopen] at hnil
      exact absurd hnil (decodeFrom_open_ne_nil q b)

/-! ## A replacement character ends no JSON -/

theorem numState_replacement (st : NumState) : st.step 0xFFFD = none := by
  cases st <;> decide

theorem isSeparator_replacement : isSeparator 0xFFFD = false := by decide

/-- It goes on with a string, or with nothing. -/
theorem replacement_step {r r' : Reader} (h : r.step 0xFFFD = some r') : r'.finish = none := by
  have hvalue : ∀ σ, valueStep σ 0xFFFD = none := fun σ => rfl
  have hafter : ∀ v σ, afterStep v σ 0xFFFD = none := fun v σ =>
    afterStep_eq_none isSeparator_replacement
  obtain ⟨m, σ⟩ := r
  cases m with
  | string use read e =>
    obtain ⟨m, hm, rfl⟩ := Option.map_eq_some_iff.mp h
    cases e with
    | plain =>
      obtain rfl := Option.some.inj hm
      cases σ <;> rfl
    | backslash => cases hm
    | unicode digits code => cases hm
  | number read =>
    simp [Reader.step, numRun_snoc_eq_none numState_replacement, hafter] at h
  | word w read =>
    have hword : w.text[read]? ≠ some 0xFFFD := by
      intro hmem
      have hmem := List.mem_of_getElem? hmem
      revert hmem
      cases w <;> decide
    simp [Reader.step, hword] at h
  | after v => simp [Reader.step, hafter] at h
  | arrayStart => simp [Reader.step, hvalue, isJsonSpace] at h
  | value => simp [Reader.step, hvalue] at h
  | objectStart => simp [Reader.step, isJsonSpace] at h
  | key members => simp [Reader.step, isJsonSpace] at h
  | colon members k => simp [Reader.step, isJsonSpace] at h

theorem jsonParse_replacement (s : JsString) : jsonParse (s ++ [0xFFFD]) = none := by
  rw [jsonParse, Reader.run_append]
  cases hrun : Reader.init.run s with
  | none => rfl
  | some r =>
    rw [Option.bind_some, Reader.run_cons]
    cases hstep : r.step 0xFFFD with
    | none => rfl
    | some r' => exact replacement_step hstep

/-- Nor does `trim` take it away. -/
theorem readLine_replacement (map : JsMap JsString Json) (s : JsString) :
    readLine map (s ++ [0xFFFD]) = map := by
  have hspace : ¬ isSpace 0xFFFD = true := by decide
  have hfront : (s ++ [0xFFFD]).dropWhile isSpace = s.dropWhile isSpace ++ [0xFFFD] := by
    induction s with
    | nil => rfl
    | cons c s ih =>
      by_cases hc : isSpace c = true
      · rw [List.cons_append, List.dropWhile_cons_of_pos hc, List.dropWhile_cons_of_pos hc, ih]
      · rw [List.cons_append, List.dropWhile_cons_of_neg hc, List.dropWhile_cons_of_neg hc]
        rfl
  apply readLine_of_none
  rw [trim, hfront, List.rdropWhile_concat_neg _ _ _ hspace]
  exact jsonParse_replacement _

/-! ## The file -/

namespace LedgerRecord

theorem wellFormed_line (r : LedgerRecord) : wellFormed r.line = true :=
  wellFormed_append (wellFormed_stringify _) (by decide)

/-- The bytes of a file to which records were appended one by one. -/
def fileBytes (rs : List LedgerRecord) : List UInt8 := rs.flatMap (fun r => encodeUtf8 r.line)

theorem encodeUtf8_line (r : LedgerRecord) :
    encodeUtf8 r.line = encodeUtf8 (stringify r.json) ++ [10] := by
  rw [line, encodeUtf8_append (wellFormed_stringify _)]
  rfl

theorem encodeUtf8_ne_nil (r : LedgerRecord) : encodeUtf8 (stringify r.json) ≠ [] := by
  intro hnil
  have hdecode := decodeUtf8_encodeUtf8_of_wellFormed (wellFormed_stringify r.json)
  rw [hnil] at hdecode
  exact r.stringify_ne_nil hdecode.symm

/-- The file as it is on the disk. -/
def byteFormat : LineFormat LedgerRecord UInt8 where
  text r := encodeUtf8 (stringify r.json)
  eol := 10
  text_ne := encodeUtf8_ne_nil

/-- The records whose JSON text has all its bytes in `p`, the beginning of the file. -/
def wholeBytes (p : List UInt8) (rs : List LedgerRecord) : List LedgerRecord :=
  byteFormat.whole p rs

theorem line_byteFormat (r : LedgerRecord) : byteFormat.line r = encodeUtf8 r.line :=
  r.encodeUtf8_line.symm

theorem fileBytes_eq (rs : List LedgerRecord) : fileBytes rs = byteFormat.file rs := by
  simp only [fileBytes, LineFormat.file, ← line_byteFormat]

/-- A line of which not all bytes are there is passed over. -/
theorem splitLines_cutBytes {r : LedgerRecord} {p : List UInt8} (map : JsMap JsString Json)
    (h : p <+: encodeUtf8 (stringify r.json)) (hne : p ≠ encodeUtf8 (stringify r.json)) :
    (splitLines (decodeUtf8 p)).foldl readLine map = map := by
  obtain ⟨b, hb⟩ := h
  obtain ⟨s, t, hst, hs, ht⟩ := decodeUtf8_left p b
  rw [hb, decodeUtf8_encodeUtf8_of_wellFormed (wellFormed_stringify r.json)] at hst
  have hpre : s <+: stringify r.json := ⟨t, hst.symm⟩
  have hcut : s ≠ stringify r.json := by
    intro heq
    have hnil : t = [] := by
      rw [heq, List.self_eq_append_right] at hst
      exact hst
    exact hne (by rw [← hb, (ht hnil).1, List.append_nil])
  have hnewline : (10 : UInt16) ∉ s := fun hm => r.newline_notMem (hpre.subset hm)
  rcases hs with hs | hs
  · rw [hs, splitLines_eq_singleton hnewline]
    exact readLine_cut map hpre hcut
  · have hnewline' : (10 : UInt16) ∉ s ++ [0xFFFD] := by
      simp [hnewline]
    rw [hs, splitLines_eq_singleton hnewline']
    exact readLine_replacement map s

theorem readLedgerText_cutBytes {rs : List LedgerRecord} {p : List UInt8}
    (h : p <+: fileBytes rs) : readLedgerText (decodeUtf8 p) = lastWins (wholeBytes p rs) := by
  rw [fileBytes_eq] at h
  refine byteFormat.read_eq_foldl
    (fun p map => (splitLines (decodeUtf8 p)).foldl readLine map) (fun _ => rfl) ?_ ?_ ?_ h .empty
  · intro r p map hp hne
    exact splitLines_cutBytes map hp hne
  · intro r map
    simp only [byteFormat, decodeUtf8_encodeUtf8_of_wellFormed (wellFormed_stringify r.json),
      splitLines_beginning List.prefix_rfl]
    exact readLine_whole map r
  · intro r q map
    have hline := (toWellFormed_eq_iff r.line).mpr r.wellFormed_line
    simp only [line_byteFormat, decodeUtf8_encodeUtf8_append, hline, splitLines_line,
      List.foldl_cons, readLine_whole]

/-- **Cut anywhere.** Wherever the bytes of the file end, also inside a character, the map is that
of the records whose JSON text is there as a whole; no test that was in it goes missing as the
file grows; and the whole file gives every record. -/
theorem readLedgerText_bytes (rs : List LedgerRecord) (p : List UInt8) (h : p <+: fileBytes rs) :
    readLedgerText (decodeUtf8 p) = lastWins (wholeBytes p rs) ∧
      (∀ q, p <+: q → q <+: fileBytes rs →
        (readLedgerText (decodeUtf8 p)).keys ⊆ (readLedgerText (decodeUtf8 q)).keys) ∧
      readLedgerText (decodeUtf8 (fileBytes rs)) = lastWins rs := by
  refine ⟨readLedgerText_cutBytes h, ?_, ?_⟩
  · intro q hpq hq
    rw [readLedgerText_cutBytes h, readLedgerText_cutBytes hq]
    exact keys_lastWins_mono (byteFormat.whole_mono hpq rs)
  · rw [readLedgerText_cutBytes List.prefix_rfl, wholeBytes, fileBytes_eq, byteFormat.whole_file]

/-- A crash mark, and one whose file is cut behind the second byte of the euro sign. -/
theorem readLedgerText_bytes_cut :
    readLedgerText (decodeUtf8 ((fileBytes [
        (Rec.crashMark (js "test-a.js") (js "hung")).ledgerRecord (by decide),
        (Rec.crashMark (js "b€") []).ledgerRecord (by decide)]).take 79)) =
      lastWins [(Rec.crashMark (js "test-a.js") (js "hung")).ledgerRecord (by decide)] := by
  have h := (readLedgerText_bytes [
    (Rec.crashMark (js "test-a.js") (js "hung")).ledgerRecord (by decide),
    (Rec.crashMark (js "b€") []).ledgerRecord (by decide)] _ (List.take_prefix 79 _)).1
  rw [h]
  rfl

end LedgerRecord

end CorpusRunner
