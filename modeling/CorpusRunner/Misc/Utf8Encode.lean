import CorpusRunner.Misc.JsonIndent
import CorpusRunner.Misc.Utf8
import Mathlib.Tactic.IntervalCases

/-!
# Encoding UTF-8

What is written for a string: its code points, a surrogate that no pair takes up as U+FFFD, each
as its bytes. Decoding gives back the string with those surrogates replaced
(`decodeUtf8_encodeUtf8`), so that exactly the strings without any survive
(`toWellFormed_eq_iff`). `JSON.stringify` writes no lone surrogate, whatever strings it is given:
a value survives the way through the bytes of a file (`jsonParse_indentBytes`).
-/

namespace CorpusRunner

/-! ## The encoder -/

/-- A byte behind the first one of a character: six bits. -/
def tailByte (n : Nat) : UInt8 := UInt8.ofNat (0x80 + n % 64)

/-- The bytes of a code point. -/
def encodePoint (n : Nat) : List UInt8 :=
  if n < 0x80 then [UInt8.ofNat n]
  else if n < 0x800 then [UInt8.ofNat (0xC0 + n / 64), tailByte n]
  else if n < 0x10000 then [UInt8.ofNat (0xE0 + n / 4096), tailByte (n / 64), tailByte n]
  else
    [UInt8.ofNat (0xF0 + n / 262144), tailByte (n / 4096), tailByte (n / 64), tailByte n]

/-- A code unit on its own. -/
def lonePoint (c : UInt16) : Nat := if isLead c || isTrail c then 0xFFFD else c.toNat

/-- The code point of a pair of surrogates. -/
def pairPoint (c d : UInt16) : Nat :=
  0x10000 + (c.toNat - 0xD800) * 0x400 + (d.toNat - 0xDC00)

def codePoints : JsString → List Nat
  | [] => []
  | [c] => [lonePoint c]
  | c :: d :: s =>
    if isLead c && isTrail d then pairPoint c d :: codePoints s
    else lonePoint c :: codePoints (d :: s)

/-- The bytes that are written for a string. -/
def encodeUtf8 (s : JsString) : List UInt8 := (codePoints s).flatMap encodePoint

example : encodeUtf8 (js "a€😀") = [0x61, 0xE2, 0x82, 0xAC, 0xF0, 0x9F, 0x98, 0x80] := by decide

example : encodeUtf8 [0xD800, 0x61] = [0xEF, 0xBF, 0xBD, 0x61] := by decide

/-! ## Decoding a character -/

/-- A code point that is no surrogate. -/
def IsScalar (n : Nat) : Prop := n < 0xD800 ∨ (0xE000 ≤ n ∧ n < 0x110000)

theorem toNat_tailByte (n : Nat) : (tailByte n).toNat = 0x80 + n % 64 := by
  have h : 0x80 + n % 64 < 256 := by omega
  simp only [tailByte, UInt8.toNat_ofNat', Nat.reducePow]
  omega

namespace OpenChar

variable {q : OpenChar} {n : Nat}

theorem decodeFrom_of_takes {b : UInt8} (h : q.Takes b) (bytes : List UInt8) :
    decodeFrom (some q) (b :: bytes) = (q.next b).1 ++ decodeFrom (q.next b).2 bytes := by
  simp [decodeFrom, decodeStep, h]

/-- The last byte of a character. -/
theorem decodeFrom_last (hmore : q.more = 0) (h : q.Takes (tailByte n)) (bytes : List UInt8) :
    decodeFrom (some q) (tailByte n :: bytes) =
      codeUnits (q.code * 64 + n % 64) ++ decodeFrom none bytes := by
  rw [decodeFrom_of_takes h]
  obtain ⟨more, code, lower, upper, h1, h2, h3⟩ := q
  obtain rfl : more = 0 := hmore
  have hbits : (tailByte n).toNat % 64 = n % 64 := by
    rw [toNat_tailByte]
    omega
  simp [next, hbits]

/-- A byte in the middle of a character; any byte of the kind may follow. -/
theorem decodeFrom_middle {more : Nat} (hmore : q.more = more + 1) (h : q.Takes (tailByte n)) :
    ∃ q' : OpenChar, q'.more = more ∧ q'.code = q.code * 64 + n % 64 ∧
      (∀ m, q'.Takes (tailByte m)) ∧
      ∀ bytes, decodeFrom (some q) (tailByte n :: bytes) = decodeFrom (some q') bytes := by
  obtain ⟨m, code, lower, upper, h1, h2, h3⟩ := q
  obtain rfl : m = more + 1 := hmore
  have hbits : (tailByte n).toNat % 64 = n % 64 := by
    rw [toNat_tailByte]
    omega
  refine ⟨⟨more, code * 64 + (tailByte n).toNat % 64, 0x80, 0xBF, by decide, by decide,
    fits_next h3 _⟩, rfl, congrArg (code * 64 + ·) hbits, fun m => ?_, fun bytes => ?_⟩
  · have hm := toNat_tailByte m
    constructor
    · rw [UInt8.le_iff_toNat_le, hm]
      exact Nat.le_add_right _ _
    · rw [UInt8.le_iff_toNat_le, hm]
      change _ ≤ 191
      omega
  · rw [decodeFrom_of_takes h]
    rfl

end OpenChar

/-- The first byte of a character of two bytes. -/
theorem firstByte_two : ∀ k < 32, 2 ≤ k → ∃ q, firstByte (UInt8.ofNat (0xC0 + k)) = ([], some q) ∧
    q.more = 0 ∧ q.code = k ∧ q.lower = 0x80 ∧ q.upper = 0xBF := by
  intro k hk h2
  interval_cases k <;> exact ⟨_, rfl, rfl, rfl, rfl, rfl⟩

/-- Of three bytes: the second one keeps small numbers and surrogates out. -/
theorem firstByte_three : ∀ k < 16, ∃ q, firstByte (UInt8.ofNat (0xE0 + k)) = ([], some q) ∧
    q.more = 1 ∧ q.code = k ∧ q.lower = (if k = 0 then 0xA0 else 0x80) ∧
    q.upper = (if k = 13 then 0x9F else 0xBF) := by
  intro k hk
  interval_cases k <;> exact ⟨_, rfl, rfl, rfl, rfl, rfl⟩

/-- Of four bytes: the second one keeps small numbers out and what is beyond the last plane. -/
theorem firstByte_four : ∀ k < 5, ∃ q, firstByte (UInt8.ofNat (0xF0 + k)) = ([], some q) ∧
    q.more = 2 ∧ q.code = k ∧ q.lower = (if k = 0 then 0x90 else 0x80) ∧
    q.upper = (if k = 4 then 0x8F else 0xBF) := by
  intro k hk
  interval_cases k <;> exact ⟨_, rfl, rfl, rfl, rfl, rfl⟩

theorem decodeFrom_none {b : UInt8} {q : OpenChar} (h : firstByte b = ([], some q))
    (bytes : List UInt8) : decodeFrom none (b :: bytes) = decodeFrom (some q) bytes := by
  simp [decodeFrom, decodeStep, h]

/-- The bytes of a code point are read as it, whatever follows. The cases are the four lengths. -/
theorem decodeFrom_encodePoint {n : Nat} (hn : IsScalar n) (bytes : List UInt8) :
    decodeFrom none (encodePoint n ++ bytes) = codeUnits n ++ decodeFrom none bytes := by
  have hmax : n < 0x110000 := by
    rcases hn with hn | hn
    · omega
    · exact hn.2
  unfold encodePoint
  split
  · rename_i h1
    have hb : (UInt8.ofNat n).toNat = n := by
      simp only [UInt8.toNat_ofNat', Nat.reducePow]
      omega
    have hlt : UInt8.ofNat n < 0x80 := by
      rw [UInt8.lt_iff_toNat_lt, hb]
      exact h1
    have hunit : (UInt8.ofNat n).toUInt16 = UInt16.ofNat n := by
      apply UInt16.toNat.inj
      rw [UInt8.toNat_toUInt16, hb]
      simp only [UInt16.toNat_ofNat', Nat.reducePow]
      omega
    simp [decodeFrom, decodeStep, firstByte, hlt, codeUnits, hunit, show n < 0x10000 by omega]
  · split
    · rename_i h1 h2
      obtain ⟨q, hq, hmore, hcode, hlower, hupper⟩ :=
        firstByte_two (n / 64) (by omega) (by omega)
      have htakes : q.Takes (tailByte n) := by
        constructor
        · rw [hlower, UInt8.le_iff_toNat_le, toNat_tailByte]
          exact Nat.le_add_right _ _
        · rw [hupper, UInt8.le_iff_toNat_le, toNat_tailByte]
          change _ ≤ 191
          omega
      rw [List.cons_append, decodeFrom_none hq, List.cons_append, List.nil_append,
        q.decodeFrom_last hmore htakes, hcode, show n / 64 * 64 + n % 64 = n by omega]
    · split
      · rename_i h1 h2 h3
        obtain ⟨q, hq, hmore, hcode, hlower, hupper⟩ := firstByte_three (n / 4096) (by omega)
        have htakes : q.Takes (tailByte (n / 64)) := by
          constructor
          · rw [hlower, UInt8.le_iff_toNat_le, toNat_tailByte]
            split
            · change 160 ≤ _
              omega
            · exact Nat.le_add_right _ _
          · rw [hupper, UInt8.le_iff_toNat_le, toNat_tailByte]
            split
            · change _ ≤ 159
              rcases hn with hn | hn <;> omega
            · change _ ≤ 191
              omega
        obtain ⟨q', hmore', hcode', htakes', hmiddle⟩ := q.decodeFrom_middle hmore htakes
        simp only [List.cons_append, List.nil_append]
        rw [decodeFrom_none hq, hmiddle, q'.decodeFrom_last hmore' (htakes' n), hcode', hcode,
          show (n / 4096 * 64 + n / 64 % 64) * 64 + n % 64 = n by omega]
      · rename_i h1 h2 h3
        obtain ⟨q, hq, hmore, hcode, hlower, hupper⟩ := firstByte_four (n / 262144) (by omega)
        have htakes : q.Takes (tailByte (n / 4096)) := by
          constructor
          · rw [hlower, UInt8.le_iff_toNat_le, toNat_tailByte]
            split
            · change 144 ≤ _
              omega
            · exact Nat.le_add_right _ _
          · rw [hupper, UInt8.le_iff_toNat_le, toNat_tailByte]
            split
            · change _ ≤ 143
              omega
            · change _ ≤ 191
              omega
        obtain ⟨q', hmore', hcode', htakes', hmiddle⟩ := q.decodeFrom_middle hmore htakes
        obtain ⟨q'', hmore'', hcode'', htakes'', hmiddle'⟩ :=
          q'.decodeFrom_middle hmore' (htakes' (n / 64))
        simp only [List.cons_append, List.nil_append]
        rw [decodeFrom_none hq, hmiddle, hmiddle', q''.decodeFrom_last hmore'' (htakes'' n),
          hcode'', hcode', hcode,
          show ((n / 262144 * 64 + n / 4096 % 64) * 64 + n / 64 % 64) * 64 + n % 64 = n by omega]

/-! ## Decoding a string -/

/-- A string with U+FFFD for each surrogate that no pair takes up (`s.toWellFormed()`). -/
def toWellFormed (s : JsString) : JsString := (codePoints s).flatMap codeUnits

theorem isLead_iff {c : UInt16} : isLead c = true ↔ 0xD800 ≤ c.toNat ∧ c.toNat ≤ 0xDBFF := by
  simp only [isLead, Bool.and_eq_true, decide_eq_true_eq, UInt16.le_iff_toNat_le]
  exact Iff.rfl

theorem isTrail_iff {c : UInt16} : isTrail c = true ↔ 0xDC00 ≤ c.toNat ∧ c.toNat ≤ 0xDFFF := by
  simp only [isTrail, Bool.and_eq_true, decide_eq_true_eq, UInt16.le_iff_toNat_le]
  exact Iff.rfl

theorem isScalar_lonePoint (c : UInt16) : IsScalar (lonePoint c) := by
  have hc : c.toNat < 65536 := c.toNat_lt
  unfold lonePoint
  split
  · exact .inr ⟨by norm_num, by norm_num⟩
  · rename_i h
    rw [Bool.not_eq_true, Bool.or_eq_false_iff, ← Bool.not_eq_true, ← Bool.not_eq_true, isLead_iff,
      isTrail_iff] at h
    unfold IsScalar
    omega

theorem isScalar_pairPoint {c d : UInt16} (hc : isLead c = true) (hd : isTrail d = true) :
    IsScalar (pairPoint c d) := by
  rw [isLead_iff] at hc
  rw [isTrail_iff] at hd
  unfold IsScalar pairPoint
  omega

/-- The code points of a string are none of surrogates. -/
theorem isScalar_codePoints (s : JsString) : ∀ n ∈ codePoints s, IsScalar n := by
  fun_induction codePoints s with
  | case1 => simp
  | case2 c =>
    intro n hn
    obtain rfl := List.mem_singleton.mp hn
    exact isScalar_lonePoint c
  | case3 c d s h ih =>
    intro n hn
    rw [Bool.and_eq_true] at h
    rcases List.mem_cons.mp hn with hn | hn
    · rw [hn]
      exact isScalar_pairPoint h.1 h.2
    · exact ih n hn
  | case4 c d s h ih =>
    intro n hn
    rcases List.mem_cons.mp hn with rfl | hn
    · exact isScalar_lonePoint c
    · exact ih n hn

/-- What is written for a string is read as the string with its lone surrogates replaced,
whatever follows. -/
theorem decodeUtf8_encodeUtf8_append (s : JsString) (b : List UInt8) :
    decodeUtf8 (encodeUtf8 s ++ b) = toWellFormed s ++ decodeUtf8 b := by
  have key : ∀ points : List Nat, (∀ n ∈ points, IsScalar n) →
      decodeFrom none (points.flatMap encodePoint ++ b) =
        points.flatMap codeUnits ++ decodeFrom none b := by
    intro points
    induction points with
    | nil => exact fun _ => rfl
    | cons n points ih =>
      intro h
      rw [List.flatMap_cons, List.append_assoc, decodeFrom_encodePoint (h n (by simp)),
        ih fun m hm => h m (by simp [hm]), List.flatMap_cons, List.append_assoc]
  exact key _ (isScalar_codePoints s)

theorem decodeUtf8_encodeUtf8 (s : JsString) : decodeUtf8 (encodeUtf8 s) = toWellFormed s := by
  have h := decodeUtf8_encodeUtf8_append s []
  rw [List.append_nil] at h
  exact h.trans (List.append_nil _)

/-! ## Strings without lone surrogates -/

/-- `s.isWellFormed()`. -/
def wellFormed : JsString → Bool
  | [] => true
  | [c] => !(isLead c || isTrail c)
  | c :: d :: s =>
    if isLead c && isTrail d then wellFormed s
    else !(isLead c || isTrail c) && wellFormed (d :: s)

theorem codeUnits_lonePoint (c : UInt16) :
    codeUnits (lonePoint c) = [if isLead c || isTrail c then 0xFFFD else c] := by
  unfold lonePoint
  split
  · rfl
  · simp [codeUnits, c.toNat_lt]

theorem codeUnits_pairPoint {c d : UInt16} (hc : isLead c = true) (hd : isTrail d = true) :
    codeUnits (pairPoint c d) = [c, d] := by
  rw [isLead_iff] at hc
  rw [isTrail_iff] at hd
  have hsub : pairPoint c d - 0x10000 = (c.toNat - 0xD800) * 0x400 + (d.toNat - 0xDC00) := by
    unfold pairPoint
    omega
  have hlt : ¬ pairPoint c d < 0x10000 := by
    unfold pairPoint
    omega
  have h1 : 0xD800 + (pairPoint c d - 0x10000) / 0x400 = c.toNat := by
    rw [hsub]
    omega
  have h2 : 0xDC00 + (pairPoint c d - 0x10000) % 0x400 = d.toNat := by
    rw [hsub]
    omega
  rw [codeUnits, if_neg hlt, h1, h2, UInt16.ofNat_toNat, UInt16.ofNat_toNat]

/-- Exactly the strings without lone surrogates survive. -/
theorem toWellFormed_eq_iff (s : JsString) : toWellFormed s = s ↔ wellFormed s = true := by
  have hlone : ∀ c : UInt16, ((if isLead c || isTrail c then 0xFFFD else c) = c ↔
      (!(isLead c || isTrail c)) = true) := by
    intro c
    cases hc : isLead c || isTrail c with
    | false => simp
    | true =>
      simp only [if_true, Bool.not_true, Bool.false_eq_true, iff_false]
      rintro rfl
      exact absurd hc (by decide)
  unfold toWellFormed
  fun_induction codePoints s with
  | case1 => simp [wellFormed]
  | case2 c => simpa [wellFormed, codeUnits_lonePoint] using hlone c
  | case3 c d s h ih =>
    rw [Bool.and_eq_true] at h
    simp only [List.flatMap_cons, codeUnits_pairPoint h.1 h.2, wellFormed, h.1, h.2,
      Bool.and_self, if_true]
    simpa using ih
  | case4 c d s h ih =>
    simp only [List.flatMap_cons, codeUnits_lonePoint, wellFormed, h, Bool.false_eq_true, if_false,
      Bool.and_eq_true, List.singleton_append, List.cons.injEq]
    exact and_congr (hlone c) ih

theorem decodeUtf8_encodeUtf8_of_wellFormed {s : JsString} (h : wellFormed s = true) :
    decodeUtf8 (encodeUtf8 s) = s := by
  rw [decodeUtf8_encodeUtf8, toWellFormed_eq_iff, h]

/-- What stands behind a well-formed string is encoded on its own. -/
theorem codePoints_append {a : JsString} (h : wellFormed a = true) (b : JsString) :
    codePoints (a ++ b) = codePoints a ++ codePoints b := by
  fun_induction wellFormed a with
  | case1 => rfl
  | case2 c =>
    rw [Bool.not_eq_true', Bool.or_eq_false_iff] at h
    cases b with
    | nil => rfl
    | cons d b => simp [codePoints, h.1]
  | case3 c d s hpair ih => simp [codePoints, hpair, ih h]
  | case4 c d s hpair ih =>
    rw [Bool.and_eq_true] at h
    have hrest := ih h.2
    rw [List.cons_append] at hrest
    simp [codePoints, hpair, hrest]

theorem encodeUtf8_append {a : JsString} (h : wellFormed a = true) (b : JsString) :
    encodeUtf8 (a ++ b) = encodeUtf8 a ++ encodeUtf8 b := by
  rw [encodeUtf8, codePoints_append h, List.flatMap_append]
  rfl

theorem wellFormed_append {a b : JsString} (ha : wellFormed a = true) (hb : wellFormed b = true) :
    wellFormed (a ++ b) = true := by
  rw [← toWellFormed_eq_iff] at *
  have hcodes : codePoints (a ++ b) = codePoints a ++ codePoints b :=
    codePoints_append ((toWellFormed_eq_iff a).mp ha) b
  rw [toWellFormed, hcodes, List.flatMap_append]
  exact congrArg₂ (· ++ ·) ha hb

/-- A code unit that is no surrogate. -/
def isPlain (c : UInt16) : Bool := !isLead c && !isTrail c

theorem wellFormed_cons {c : UInt16} (hc : isPlain c = true) (s : JsString) :
    wellFormed (c :: s) = wellFormed s := by
  simp only [isPlain, Bool.and_eq_true, Bool.not_eq_true'] at hc
  cases s with
  | nil => simp [wellFormed, hc.1, hc.2]
  | cons d s => simp [wellFormed, hc.1, hc.2]

theorem wellFormed_of_plain {s : JsString} (h : ∀ c ∈ s, isPlain c = true) :
    wellFormed s = true := by
  induction s with
  | nil => rfl
  | cons c s ih =>
    rw [wellFormed_cons (h c (by simp))]
    exact ih fun d hd => h d (by simp [hd])

/-! ## JSON -/

theorem isPlain_unicodeEscape (c : UInt16) : ∀ d ∈ unicodeEscape c, isPlain d = true := by
  have hhex : ∀ n < 16, isPlain (hexDigit n) = true := by decide
  have hc : c.toNat < 65536 := c.toNat_lt
  intro d hd
  simp only [unicodeEscape, List.mem_cons, List.not_mem_nil, or_false] at hd
  rcases hd with rfl | rfl | rfl | rfl | rfl | rfl
  · decide
  · decide
  · exact hhex _ (by omega)
  · exact hhex _ (by omega)
  · exact hhex _ (by omega)
  · exact hhex _ (by omega)

/-- A code unit that is no part of a pair is written without surrogates. -/
theorem isPlain_quoteUnit {before after : Option UInt16} {c : UInt16}
    (h : isPlain c = true ∨ isLone before c after = true) :
    ∀ d ∈ quoteUnit before c after, isPlain d = true := by
  have hlist : ∀ l : JsString, l.all isPlain = true → ∀ d ∈ l, isPlain d = true :=
    fun l hl => List.all_eq_true.mp hl
  unfold quoteUnit
  split
  · exact hlist _ (by decide)
  split
  · exact hlist _ (by decide)
  split
  · exact hlist _ (by decide)
  split
  · exact hlist _ (by decide)
  split
  · exact hlist _ (by decide)
  split
  · exact hlist _ (by decide)
  split
  · exact hlist _ (by decide)
  split
  · exact isPlain_unicodeEscape c
  · rename_i hesc
    rw [not_or] at hesc
    have hc : isPlain c = true := h.resolve_right hesc.2
    simpa using hc

/-- A surrogate of a pair is written as it is. -/
theorem quoteUnit_surrogate {before after : Option UInt16} {c : UInt16} (h : isPlain c = false)
    (hlone : isLone before c after = false) : quoteUnit before c after = [c] := by
  have hne : ∀ d : UInt16, isPlain d = true → c ≠ d := by
    rintro d hd rfl
    rw [h] at hd
    cases hd
  have hge : ¬ c < 32 := by
    intro hlt
    have hlt' : c.toNat < 32 := hlt
    have : isPlain c = true := by
      simp only [isPlain, Bool.and_eq_true, Bool.not_eq_true', ← Bool.not_eq_true, isLead_iff,
        isTrail_iff]
      omega
    rw [h] at this
    cases this
  simp [quoteUnit, hne 8 (by decide), hne 9 (by decide), hne 10 (by decide), hne 12 (by decide),
    hne 13 (by decide), hne 34 (by decide), hne 92 (by decide), hge, hlone]

/-- A string is quoted without lone surrogates, unless its first code unit goes with the one
before it. -/
theorem wellFormed_quoteUnits (n : Nat) : ∀ (s : JsString) (before : Option UInt16), s.length ≤ n →
    ¬ (before.any isLead = true ∧ s.head?.any isTrail = true) →
    wellFormed (quoteUnits before s) = true := by
  induction n with
  | zero =>
    intro s before hlen _
    obtain rfl := List.length_eq_zero_iff.mp (Nat.le_zero.mp hlen)
    rfl
  | succ n ih =>
    intro s before hlen hfirst
    cases s with
    | nil => rfl
    | cons c s =>
      have hs : s.length ≤ n := Nat.le_of_succ_le_succ hlen
      by_cases hpair : isLead c = true ∧ s.head?.any isTrail = true
      · -- the pair is written as it is
        obtain ⟨d, s, rfl⟩ : ∃ d s', s = d :: s' := by
          cases s with
          | nil => simp at hpair
          | cons d s => exact ⟨d, s, rfl⟩
        obtain ⟨hc, hd⟩ := hpair
        simp only [List.head?_cons, Option.any_some] at hd
        have hnc : isTrail c = false := by
          rw [← Bool.not_eq_true, isTrail_iff]
          rw [isLead_iff] at hc
          omega
        have hnd : isLead d = false := by
          rw [← Bool.not_eq_true, isLead_iff]
          rw [isTrail_iff] at hd
          omega
        have hqc : quoteUnit before c (some d) = [c] :=
          quoteUnit_surrogate (by simp [isPlain, hc]) (by simp [isLone, hc, hd, hnc])
        have hqd : quoteUnit (some c) d s.head? = [d] :=
          quoteUnit_surrogate (by simp [isPlain, hd]) (by simp [isLone, hc, hnd])
        have hrest := ih s (some d) (by simp at hs; omega) (by simp [hnd])
        simp only [quoteUnits, List.head?_cons, hqc, hqd, List.singleton_append, wellFormed, hc, hd,
          Bool.and_self, if_true]
        exact hrest
      · have hunit : isPlain c = true ∨ isLone before c s.head? = true := by
          by_cases hc : isLead c = true
          · right
            have : s.head?.any isTrail = false := by simpa [hc] using hpair
            simp [isLone, hc, this]
          · by_cases ht : isTrail c = true
            · right
              have : before.any isLead = false := by simpa [ht] using hfirst
              simp [isLone, ht, this]
            · left
              simp [isPlain, hc, ht]
        rw [quoteUnits]
        apply wellFormed_append (wellFormed_of_plain (isPlain_quoteUnit hunit))
        exact ih s (some c) hs (by simpa using hpair)

theorem wellFormed_quote (s : JsString) : wellFormed (quote s) = true := by
  have hbody := wellFormed_quoteUnits s.length s none (Nat.le_refl _) (by simp)
  rw [quote, List.cons_append, wellFormed_cons (by decide)]
  exact wellFormed_append hbody (by decide)

theorem wellFormed_literal (n : JsonNumber) : wellFormed n.literal = true := by
  apply wellFormed_of_plain
  intro c hc
  rw [← Bool.not_eq_false]
  intro hplain
  have hne : ∀ d : UInt16, isPlain d = true → c ≠ d := by
    rintro d hd rfl
    rw [hplain] at hd
    cases hd
  have hdigit : isDigit c = false := by
    rw [← Bool.not_eq_true]
    intro h
    simp only [isDigit, Bool.and_eq_true, decide_eq_true_eq, UInt16.le_iff_toNat_le] at h
    have h57 : c.toNat ≤ 57 := h.2
    simp only [isPlain, ← Bool.not_eq_true, Bool.and_eq_true, Bool.not_eq_true', isLead_iff,
      isTrail_iff] at hplain
    omega
  refine n.notMem_literal (c := c) (fun st => ?_) hc
  cases st <;>
    simp [NumState.step, NumState.firstDigit, NumState.afterInt, hdigit, hne 45 (by decide),
      hne 46 (by decide), hne 48 (by decide), hne 101 (by decide), hne 69 (by decide),
      hne 43 (by decide)]

mutual

/-- Whatever strings a value holds, its text has no lone surrogate. -/
theorem wellFormed_stringify (v : Json) : wellFormed (stringify v) = true := by
  cases v with
  | null => decide
  | bool b => cases b <;> decide
  | number n => exact wellFormed_literal n
  | string s => exact wellFormed_quote s
  | array items =>
    rw [stringify, wellFormed_cons (by decide)]
    exact wellFormed_items true items
  | object members =>
    rw [stringify, wellFormed_cons (by decide)]
    exact wellFormed_members true members

theorem wellFormed_items (first : Bool) (vs : List Json) :
    wellFormed (stringifyItems first vs) = true := by
  cases vs with
  | nil => cases first <;> decide
  | cons v vs =>
    have hcomma : wellFormed (comma first) = true := by cases first <;> decide
    exact wellFormed_append (wellFormed_append hcomma (wellFormed_stringify v))
      (wellFormed_items false vs)

theorem wellFormed_members (first : Bool) (ms : List (JsString × Json)) :
    wellFormed (stringifyMembers first ms) = true := by
  cases ms with
  | nil => cases first <;> decide
  | cons m ms =>
    obtain ⟨k, v⟩ := m
    have hcomma : wellFormed (comma first) = true := by cases first <;> decide
    have hvalue : wellFormed (58 :: stringify v) = true := by
      rw [wellFormed_cons (by decide)]
      exact wellFormed_stringify v
    exact wellFormed_append
      (wellFormed_append (wellFormed_append hcomma (wellFormed_quote k)) hvalue)
      (wellFormed_members false ms)

end

theorem wellFormed_lineBreak (depth : Nat) : wellFormed (lineBreak depth) = true := by
  have hblank : isPlain 32 = true := by decide
  apply wellFormed_of_plain
  intro c hc
  rcases List.mem_cons.mp hc with rfl | hc
  · decide
  · rw [List.eq_of_mem_replicate hc, hblank]

mutual

/-- `wellFormed_stringify` for the indented text. -/
theorem wellFormed_stringifyIndent (depth : Nat) (v : Json) :
    wellFormed (stringifyIndent depth v) = true := by
  cases v with
  | null => exact (by decide : wellFormed (js "null") = true)
  | bool b =>
    cases b with
    | false => exact (by decide : wellFormed (js "false") = true)
    | true => exact (by decide : wellFormed (js "true") = true)
  | number n => exact wellFormed_literal n
  | string s => exact wellFormed_quote s
  | array items =>
    cases items with
    | nil => exact (by decide : wellFormed [91, 93] = true)
    | cons v vs =>
      rw [stringifyIndent, wellFormed_cons (by decide)]
      exact wellFormed_append
        (wellFormed_append (wellFormed_lineBreak _) (wellFormed_stringifyIndent _ v))
        (wellFormed_indentItems depth vs)
  | object members =>
    cases members with
    | nil => exact (by decide : wellFormed [123, 125] = true)
    | cons m ms =>
      obtain ⟨k, v⟩ := m
      rw [stringifyIndent, wellFormed_cons (by decide)]
      exact wellFormed_append
        (wellFormed_append (wellFormed_lineBreak _) (wellFormed_indentMember _ k v))
        (wellFormed_indentMembers depth ms)

theorem wellFormed_indentMember (depth : Nat) (k : JsString) (v : Json) :
    wellFormed (quote k ++ 58 :: 32 :: stringifyIndent depth v) = true := by
  apply wellFormed_append (wellFormed_quote k)
  rw [wellFormed_cons (by decide), wellFormed_cons (by decide)]
  exact wellFormed_stringifyIndent depth v

theorem wellFormed_indentItems (depth : Nat) (vs : List Json) :
    wellFormed (indentItems depth vs) = true := by
  cases vs with
  | nil => exact wellFormed_append (wellFormed_lineBreak depth) (by decide)
  | cons v vs =>
    rw [indentItems, wellFormed_cons (by decide)]
    exact wellFormed_append
      (wellFormed_append (wellFormed_lineBreak _) (wellFormed_stringifyIndent _ v))
      (wellFormed_indentItems depth vs)

theorem wellFormed_indentMembers (depth : Nat) (ms : List (JsString × Json)) :
    wellFormed (indentMembers depth ms) = true := by
  cases ms with
  | nil => exact wellFormed_append (wellFormed_lineBreak depth) (by decide)
  | cons m ms =>
    obtain ⟨k, v⟩ := m
    rw [indentMembers, wellFormed_cons (by decide)]
    exact wellFormed_append
      (wellFormed_append (wellFormed_lineBreak _) (wellFormed_indentMember _ k v))
      (wellFormed_indentMembers depth ms)

end

/-- A value survives the way through the bytes of its indented text, with white space behind it. -/
theorem jsonParse_indentBytes (v : Json) {blank : JsString} (hplain : wellFormed blank = true)
    (h : ∀ c ∈ blank, isJsonSpace c = true) :
    jsonParse (decodeUtf8 (encodeUtf8 (stringifyIndent 0 v ++ blank))) = some v := by
  have htext := wellFormed_append (wellFormed_stringifyIndent 0 v) hplain
  rw [decodeUtf8_encodeUtf8_of_wellFormed htext, jsonParse_stringifyIndent v h]

end CorpusRunner
