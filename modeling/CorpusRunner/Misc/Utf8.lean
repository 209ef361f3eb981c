import CorpusRunner.Misc.JsString
import Mathlib.Algebra.GroupWithZero.Nat

/-!
# Decoding UTF-8

`Buffer.prototype.toString("utf8")`: bytes become code units one after the other, and what
begins no character, or a character that breaks off, becomes one U+FFFD for its longest part
that could have gone on. The state between two bytes is the character that is still open.

To decode a text in pieces is to decode it as a whole exactly when no piece ends within a
character that the next byte goes on with (`decodePieces_eq_iff`). Cut there, it has one more
U+FFFD at least, and no later piece makes up for it (`uncut_of_count`).
-/

namespace CorpusRunner

/-! ## The decoder -/

/-- A character whose first bytes are read: the number of bytes behind the next one, the bits
so far, and the range of the next byte. -/
structure OpenChar where
  more : Nat
  code : Nat
  lower : UInt8
  upper : UInt8
  le_lower : 0x80 ≤ lower
  upper_le : upper ≤ 0xBF
  fits : (code + 1) * 64 ^ (more + 1) ≤ 2 ^ 21

/-- The code units of a code point. -/
def codeUnits (n : Nat) : JsString :=
  if n < 0x10000 then [UInt16.ofNat n]
  else
    [UInt16.ofNat (0xD800 + (n - 0x10000) / 0x400),
      UInt16.ofNat (0xDC00 + (n - 0x10000) % 0x400)]

/-- The first byte of a character. -/
def firstByte (b : UInt8) : JsString × Option OpenChar :=
  if b < 0x80 then ([b.toUInt16], none)
  else if 0xC2 ≤ b ∧ b ≤ 0xDF then
    ([], some ⟨0, b.toNat % 32, 0x80, 0xBF, by decide, by decide, by omega⟩)
  else if b = 0xE0 then ([], some ⟨1, 0, 0xA0, 0xBF, by decide, by decide, by decide⟩)
  else if b = 0xED then ([], some ⟨1, 0xD, 0x80, 0x9F, by decide, by decide, by decide⟩)
  else if 0xE1 ≤ b ∧ b ≤ 0xEF then
    ([], some ⟨1, b.toNat % 16, 0x80, 0xBF, by decide, by decide, by omega⟩)
  else if b = 0xF0 then ([], some ⟨2, 0, 0x90, 0xBF, by decide, by decide, by decide⟩)
  else if b = 0xF4 then ([], some ⟨2, 4, 0x80, 0x8F, by decide, by decide, by decide⟩)
  else if 0xF1 ≤ b ∧ b ≤ 0xF3 then
    ([], some ⟨2, b.toNat % 8, 0x80, 0xBF, by decide, by decide, by omega⟩)
  else ([0xFFFD], none)

/-- A byte brings in six bits. -/
theorem fits_next {code more : Nat} (fits : (code + 1) * 64 ^ (more + 1 + 1) ≤ 2 ^ 21)
    (b : UInt8) : (code * 64 + b.toNat % 64 + 1) * 64 ^ (more + 1) ≤ 2 ^ 21 :=
  calc (code * 64 + b.toNat % 64 + 1) * 64 ^ (more + 1)
      ≤ (code + 1) * 64 * 64 ^ (more + 1) := Nat.mul_le_mul_right _ (by omega)
    _ = (code + 1) * 64 ^ (more + 1 + 1) := by
      rw [Nat.pow_succ 64 (more + 1), Nat.mul_comm (64 ^ (more + 1)) 64, Nat.mul_assoc]
    _ ≤ 2 ^ 21 := fits

/-- The next byte of an open character, where it goes on with it. -/
def OpenChar.next (q : OpenChar) (b : UInt8) : JsString × Option OpenChar :=
  match q with
  | ⟨0, code, _, _, _, _, _⟩ => (codeUnits (code * 64 + b.toNat % 64), none)
  | ⟨more + 1, code, _, _, _, _, fits⟩ =>
    ([], some ⟨more, code * 64 + b.toNat % 64, 0x80, 0xBF, by decide, by decide,
      fits_next fits b⟩)

/-- The byte goes on with the open character. -/
def OpenChar.Takes (q : OpenChar) (b : UInt8) : Prop := q.lower ≤ b ∧ b ≤ q.upper

instance (q : OpenChar) (b : UInt8) : Decidable (q.Takes b) :=
  inferInstanceAs (Decidable (_ ∧ _))

def decodeStep (p : Option OpenChar) (b : UInt8) : JsString × Option OpenChar :=
  match p with
  | none => firstByte b
  | some q => if q.Takes b then q.next b else (0xFFFD :: (firstByte b).1, (firstByte b).2)

/-- The end of the input breaks an open character off. -/
def flush (p : Option OpenChar) : JsString := if p.isSome then [0xFFFD] else []

def decodeFrom (p : Option OpenChar) : List UInt8 → JsString
  | [] => flush p
  | b :: bytes => (decodeStep p b).1 ++ decodeFrom (decodeStep p b).2 bytes

/-- `d.toString()`. -/
def decodeUtf8 (bytes : List UInt8) : JsString := decodeFrom none bytes

example : decodeUtf8 [0x61, 0xE2, 0x82, 0xAC, 0xE2, 0x82, 0x61] = js "a€\ufffda" := by decide

/-! ## Pieces -/

/-- The character that is open behind the bytes. -/
def openAfter (p : Option OpenChar) (bytes : List UInt8) : Option OpenChar :=
  bytes.foldl (fun p b => (decodeStep p b).2) p

/-- The bytes go on with the open character. -/
def Continues (p : Option OpenChar) (bytes : List UInt8) : Prop :=
  ∃ q b rest, p = some q ∧ bytes = b :: rest ∧ q.Takes b

/-- What the bytes give before the end of the input is known. -/
def output (p : Option OpenChar) : List UInt8 → JsString
  | [] => []
  | b :: bytes => (decodeStep p b).1 ++ output (decodeStep p b).2 bytes

theorem decodeFrom_append (p : Option OpenChar) (a b : List UInt8) :
    decodeFrom p (a ++ b) = output p a ++ decodeFrom (openAfter p a) b := by
  induction a generalizing p with
  | nil => rfl
  | cons c a ih =>
    rw [List.cons_append, decodeFrom, ih, output, List.append_assoc]
    rfl

theorem decodeFrom_eq (p : Option OpenChar) (a : List UInt8) :
    decodeFrom p a = output p a ++ flush (openAfter p a) := by
  have h := decodeFrom_append p a []
  rw [List.append_nil] at h
  exact h

/-- A continuation byte begins no character. -/
theorem firstByte_of_takes {q : OpenChar} {b : UInt8} (h : q.Takes b) :
    firstByte b = ([0xFFFD], none) := by
  have hlow : 0x80 ≤ b := UInt8.le_trans q.le_lower h.1
  have hup : b ≤ 0xBF := UInt8.le_trans h.2 q.upper_le
  have hlt : ∀ c : UInt8, 0xBF < c → ¬ c ≤ b := by
    intro c hc hcb
    exact UInt8.not_le.mpr hc (UInt8.le_trans hcb hup)
  have hne : ∀ c : UInt8, 0xBF < c → b ≠ c := by
    rintro c hc rfl
    exact hlt b hc (UInt8.le_refl b)
  rw [firstByte, if_neg (UInt8.not_lt.mpr hlow), if_neg (fun h => hlt 0xC2 (by decide) h.1),
    if_neg (hne 0xE0 (by decide)), if_neg (hne 0xED (by decide)),
    if_neg (fun h => hlt 0xE1 (by decide) h.1), if_neg (hne 0xF0 (by decide)),
    if_neg (hne 0xF4 (by decide)), if_neg (fun h => hlt 0xF1 (by decide) h.1)]

/-- Where nothing goes on, the open character breaks off there as it would at the end. -/
theorem decodeFrom_of_not_continues {p : Option OpenChar} {bytes : List UInt8}
    (h : ¬ Continues p bytes) : decodeFrom p bytes = flush p ++ decodeFrom none bytes := by
  cases p with
  | none => rfl
  | some q =>
    cases bytes with
    | nil => rfl
    | cons b bytes =>
      have hb : ¬ q.Takes b := fun ht => h ⟨q, b, bytes, rfl, rfl, ht⟩
      simp [decodeFrom, decodeStep, hb, flush]

/-- A character has at most one U+FFFD among its code units. -/
theorem count_codeUnits {n : Nat} (hn : n < 2 ^ 21) : (codeUnits n).count 0xFFFD ≤ 1 := by
  unfold codeUnits
  split
  · exact List.count_le_length
  · have hne : ∀ m < 0xFFFD, UInt16.ofNat m ≠ 0xFFFD := by
      intro m hm heq
      have hnat := congrArg UInt16.toNat heq
      rw [UInt16.toNat_ofNat] at hnat
      simp at hnat
      omega
    have hhigh := hne (0xD800 + (n - 0x10000) / 0x400) (by omega)
    have hlow := hne (0xDC00 + (n - 0x10000) % 0x400) (by omega)
    rw [List.count_cons_of_ne hhigh, List.count_cons_of_ne hlow]
    exact Nat.zero_le 1

section Breaks

variable {q : OpenChar} {b : UInt8} {bytes : List UInt8}

/-- Where the open character breaks off instead, the byte itself is a U+FFFD. -/
theorem count_of_takes (hb : q.Takes b)
    (hrest : ∀ q', (decodeFrom (some q') bytes).count 0xFFFD ≤
      (decodeFrom none bytes).count 0xFFFD + 1) :
    (decodeFrom (some q) (b :: bytes)).count 0xFFFD ≤
      (decodeFrom none (b :: bytes)).count 0xFFFD := by
  have hnone : decodeFrom none (b :: bytes) = 0xFFFD :: decodeFrom none bytes := by
    rw [decodeFrom, decodeStep, firstByte_of_takes hb]
    rfl
  have hsome : decodeFrom (some q) (b :: bytes) =
      (q.next b).1 ++ decodeFrom (q.next b).2 bytes := by
    rw [decodeFrom, decodeStep, if_pos hb]
  rw [hnone, hsome, List.count_append, List.count_cons_self]
  obtain ⟨more, code, lower, upper, h1, h2, h3⟩ := q
  cases more with
  | zero =>
    have hcode : code * 64 + b.toNat % 64 < 2 ^ 21 := by
      simp only [Nat.zero_add, Nat.pow_one] at h3
      omega
    have hunits := count_codeUnits hcode
    simp only [OpenChar.next]
    omega
  | succ more =>
    simp only [OpenChar.next, List.count_nil, Nat.zero_add]
    exact hrest _

/-- To break a character off makes the U+FFFD in a text no fewer. -/
theorem count_decodeFrom_le (q : OpenChar) (bytes : List UInt8) :
    (decodeFrom (some q) bytes).count 0xFFFD ≤ (decodeFrom none bytes).count 0xFFFD + 1 := by
  induction bytes generalizing q with
  | nil => simp [decodeFrom, flush]
  | cons b bytes ih =>
    by_cases hb : q.Takes b
    · exact Nat.le_succ_of_le (count_of_takes hb ih)
    · rw [decodeFrom, decodeStep, if_neg hb, List.cons_append, List.count_cons_self]
      exact Nat.le_refl _

end Breaks

/-- Cut within a character that goes on, a text has more of them. -/
theorem count_of_continues {p : Option OpenChar} {bytes : List UInt8} (h : Continues p bytes) :
    (decodeFrom p bytes).count 0xFFFD <
      (flush p).count 0xFFFD + (decodeFrom none bytes).count 0xFFFD := by
  obtain ⟨q, b, rest, rfl, rfl, hb⟩ := h
  have hle := count_of_takes hb (fun q' => count_decodeFrom_le q' rest)
  simp only [flush, Option.isSome_some, if_true, List.count_singleton_self]
  omega

/-- Each piece decoded by itself. -/
def decodePieces (pieces : List (List UInt8)) : JsString := pieces.flatMap decodeUtf8

/-- No piece ends within a character that the rest goes on with. -/
def Uncut (pieces : List (List UInt8)) : Prop :=
  ∀ pre post, pieces = pre ++ post → ¬ Continues (openAfter none pre.flatten) post.flatten

theorem openAfter_append (p : Option OpenChar) (a b : List UInt8) :
    openAfter p (a ++ b) = openAfter (openAfter p a) b := List.foldl_append

/-- Bytes that do not go on with an open character are read as from the start. -/
theorem openAfter_of_not_continues {p : Option OpenChar} {a b : List UInt8}
    (h : ¬ Continues p (a ++ b)) (ha : a ≠ []) : openAfter p a = openAfter none a := by
  cases p with
  | none => rfl
  | some q =>
    obtain ⟨c, a, rfl⟩ := List.exists_cons_of_ne_nil ha
    have hc : ¬ q.Takes c := fun ht => h ⟨q, c, a ++ b, rfl, rfl, ht⟩
    simp [openAfter, decodeStep, hc]

theorem uncut_cons {a : List UInt8} {pieces : List (List UInt8)} :
    Uncut (a :: pieces) ↔ ¬ Continues (openAfter none a) pieces.flatten ∧ Uncut pieces := by
  constructor
  · intro h
    have hfirst : ¬ Continues (openAfter none a) pieces.flatten := by
      simpa using h [a] pieces rfl
    refine ⟨hfirst, ?_⟩
    rintro pre post rfl hcont
    by_cases hpre : pre.flatten = []
    · rw [hpre] at hcont
      obtain ⟨q, -, -, hq, -⟩ := hcont
      cases hq
    · apply h (a :: pre) post rfl
      rw [List.flatten_cons, openAfter_append]
      rw [List.flatten_append] at hfirst
      rwa [openAfter_of_not_continues hfirst hpre]
  · rintro ⟨hfirst, hrest⟩ pre post hsplit hcont
    cases pre with
    | nil =>
      obtain ⟨q, -, -, hq, -⟩ := hcont
      cases hq
    | cons c pre =>
      rw [List.cons_append, List.cons.injEq] at hsplit
      obtain ⟨rfl, rfl⟩ := hsplit
      rw [List.flatten_cons, openAfter_append] at hcont
      rw [List.flatten_append] at hfirst
      by_cases hpre : pre.flatten = []
      · rw [hpre] at hcont hfirst
        exact hfirst hcont
      · rw [openAfter_of_not_continues hfirst hpre] at hcont
        exact hrest pre post rfl hcont

theorem decodePieces_cons (a : List UInt8) (pieces : List (List UInt8)) :
    decodePieces (a :: pieces) =
      output none a ++ (flush (openAfter none a) ++ decodePieces pieces) := by
  rw [← List.append_assoc, ← decodeFrom_eq]
  rfl

theorem decodeUtf8_cons (a : List UInt8) (pieces : List (List UInt8)) :
    decodeUtf8 (a :: pieces).flatten =
      output none a ++ decodeFrom (openAfter none a) pieces.flatten :=
  decodeFrom_append none a _

/-- In pieces a text has no fewer U+FFFD. -/
theorem count_decodePieces (pieces : List (List UInt8)) :
    (decodeUtf8 pieces.flatten).count 0xFFFD ≤ (decodePieces pieces).count 0xFFFD := by
  induction pieces with
  | nil => exact Nat.le_refl _
  | cons a pieces ih =>
    rw [decodePieces_cons, decodeUtf8_cons, List.count_append, List.count_append,
      List.count_append]
    by_cases hcont : Continues (openAfter none a) pieces.flatten
    · have hmore := count_of_continues hcont
      rw [decodeUtf8] at ih
      omega
    · rw [decodeFrom_of_not_continues hcont, List.count_append]
      rw [decodeUtf8] at ih
      omega

/-- It has as many only if no character that goes on is cut. -/
theorem uncut_of_count {pieces : List (List UInt8)}
    (h : (decodePieces pieces).count 0xFFFD = (decodeUtf8 pieces.flatten).count 0xFFFD) :
    Uncut pieces := by
  induction pieces with
  | nil =>
    intro pre post hsplit hcont
    obtain ⟨rfl, rfl⟩ := List.append_eq_nil_iff.mp hsplit.symm
    obtain ⟨q, -, -, hq, -⟩ := hcont
    cases hq
  | cons a pieces ih =>
    have hle := count_decodePieces pieces
    rw [decodePieces_cons, decodeUtf8_cons, List.count_append, List.count_append,
      List.count_append] at h
    rw [uncut_cons]
    by_cases hcont : Continues (openAfter none a) pieces.flatten
    · have hmore := count_of_continues hcont
      rw [decodeUtf8] at hle
      omega
    · refine ⟨hcont, ih ?_⟩
      rw [decodeFrom_of_not_continues hcont, List.count_append] at h
      rw [decodeUtf8]
      omega

/-- Piece by piece the text is the same exactly when no character that goes on is cut. -/
theorem decodePieces_eq_iff (pieces : List (List UInt8)) :
    decodePieces pieces = decodeUtf8 pieces.flatten ↔ Uncut pieces := by
  constructor
  · intro h
    apply uncut_of_count
    rw [h]
  · intro h
    induction pieces with
    | nil => rfl
    | cons a pieces ih =>
      obtain ⟨hcont, hrest⟩ := uncut_cons.mp h
      rw [decodePieces_cons, decodeUtf8_cons, decodeFrom_of_not_continues hcont, ih hrest]
      rfl

/-! ## The length of a text -/

theorem length_firstByte (b : UInt8) :
    (firstByte b).1.length + (flush (firstByte b).2).length ≤ 1 := by
  unfold firstByte
  repeat' split
  all_goals simp [flush]

theorem length_next (q : OpenChar) (b : UInt8) :
    (q.next b).1.length + (flush (q.next b).2).length ≤ 2 := by
  obtain ⟨more, code, lower, upper, h1, h2, h3⟩ := q
  cases more with
  | zero =>
    simp only [OpenChar.next, codeUnits]
    split <;> simp [flush]
  | succ more => simp [OpenChar.next, flush]

/-- A byte gives one code unit at most, with what its character has put off. -/
theorem length_decodeStep (p : Option OpenChar) (b : UInt8) :
    (decodeStep p b).1.length + (flush (decodeStep p b).2).length ≤ (flush p).length + 1 := by
  have hfirst := length_firstByte b
  cases p with
  | none =>
    rw [decodeStep]
    exact Nat.le_trans hfirst (Nat.le_add_left 1 _)
  | some q =>
    rw [decodeStep]
    split
    · exact length_next q b
    · simp only [List.length_cons, flush, Option.isSome_some, if_true, List.length_nil] at hfirst ⊢
      omega

theorem length_decodeFrom (p : Option OpenChar) (bytes : List UInt8) :
    (decodeFrom p bytes).length ≤ (flush p).length + bytes.length := by
  induction bytes generalizing p with
  | nil => exact Nat.le_refl _
  | cons b bytes ih =>
    have hstep := length_decodeStep p b
    have hrest := ih (decodeStep p b).2
    rw [decodeFrom, List.length_append, List.length_cons]
    omega

/-- A text has no more code units than bytes. -/
theorem length_decodeUtf8 (bytes : List UInt8) : (decodeUtf8 bytes).length ≤ bytes.length := by
  have h := length_decodeFrom none bytes
  rwa [show (flush none).length = 0 from rfl, Nat.zero_add] at h

theorem length_decodePieces (pieces : List (List UInt8)) :
    (decodePieces pieces).length ≤ pieces.flatten.length := by
  induction pieces with
  | nil => exact Nat.le_refl _
  | cons a pieces ih =>
    have hfirst := length_decodeUtf8 a
    rw [decodePieces, List.flatMap_cons, List.length_append, List.flatten_cons,
      List.length_append]
    exact Nat.add_le_add hfirst ih

/-! ## Uncut texts -/

/-- A text whose end is not cut off is uncut. -/
theorem Uncut.left {a b : List (List UInt8)} (h : Uncut (a ++ b)) : Uncut a := by
  rintro pre post rfl ⟨q, c, rest, hq, hpost, hc⟩
  apply h pre (post ++ b) (List.append_assoc ..)
  exact ⟨q, c, rest ++ b.flatten, hq, by rw [List.flatten_append, hpost]; rfl, hc⟩

/-- Where no character is cut, the decoder starts anew. -/
theorem Uncut.decodeUtf8_append {a b : List (List UInt8)} (h : Uncut (a ++ b)) :
    decodeUtf8 (a ++ b).flatten = decodeUtf8 a.flatten ++ decodeUtf8 b.flatten := by
  have hcut : ¬ Continues (openAfter none a.flatten) b.flatten := h a b rfl
  calc decodeUtf8 (a ++ b).flatten
      = output none a.flatten ++ decodeFrom (openAfter none a.flatten) b.flatten := by
        rw [List.flatten_append, decodeUtf8, decodeFrom_append]
    _ = (output none a.flatten ++ flush (openAfter none a.flatten)) ++ decodeUtf8 b.flatten := by
        rw [decodeFrom_of_not_continues hcut, List.append_assoc]
        rfl
    _ = decodeUtf8 a.flatten ++ decodeUtf8 b.flatten := by
        rw [← decodeFrom_eq]
        rfl

theorem decodeFrom_open_ne_nil (q : OpenChar) (bytes : List UInt8) :
    decodeFrom (some q) bytes ≠ [] := by
  induction bytes generalizing q with
  | nil => simp [decodeFrom, flush]
  | cons b bytes ih =>
    by_cases hb : q.Takes b
    · rw [decodeFrom, decodeStep, if_pos hb]
      obtain ⟨more, code, lower, upper, h1, h2, h3⟩ := q
      cases more with
      | zero =>
        intro hnil
        have hunits : codeUnits (code * 64 + b.toNat % 64) = [] :=
          (List.append_eq_nil_iff.mp hnil).1
        unfold codeUnits at hunits
        split at hunits <;> cases hunits
      | succ more => exact ih _
    · simp [decodeFrom, decodeStep, hb]

/-- Every byte shows. -/
theorem decodeUtf8_eq_nil {bytes : List UInt8} : decodeUtf8 bytes = [] ↔ bytes = [] := by
  constructor
  · intro h
    cases bytes with
    | nil => rfl
    | cons b bytes =>
      rw [decodeUtf8, decodeFrom, List.append_eq_nil_iff] at h
      have hopen : (firstByte b).1 = [] → ∃ q, (firstByte b).2 = some q := by
        unfold firstByte
        repeat' split
        all_goals simp
      obtain ⟨q, hq⟩ := hopen h.1
      have hrest : decodeFrom (firstByte b).2 bytes = [] := h.2
      rw [hq] at hrest
      exact absurd hrest (decodeFrom_open_ne_nil q bytes)
  · intro h
    rw [h]
    rfl

end CorpusRunner
