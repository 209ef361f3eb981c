import Mathlib.Data.List.DropRight
import Mathlib.Data.List.Basic

/-!
# JavaScript strings

A string is its list of UTF-16 code units, as the language has it: lone surrogates are
allowed, and `<` on strings is the lexicographic order of code units, which is the order of
`Array.prototype.sort` without a comparator.
-/

namespace CorpusRunner

/-- A JavaScript string: UTF-16 code units. -/
abbrev JsString := List UInt16

instance : LawfulBEq JsString := inferInstance

/-- The code units of one character. -/
def utf16 (c : Char) : JsString :=
  if c.toNat < 0x10000 then [UInt16.ofNat c.toNat]
  else
    [UInt16.ofNat (0xD800 + (c.toNat - 0x10000) / 0x400),
      UInt16.ofNat (0xDC00 + (c.toNat - 0x10000) % 0x400)]

/-- A string literal of the source. -/
def js (s : String) : JsString := s.toList.flatMap utf16

/-- The digits of a natural number, most significant first. -/
def natDigits (n : Nat) : JsString :=
  (Nat.toDigits 10 n).flatMap utf16

/-- `Number.prototype.toString` on an integer. -/
def intToJs : Int → JsString
  | .ofNat n => natDigits n
  | .negSucc n => js "-" ++ natDigits (n + 1)

/-- `WhiteSpace` and `LineTerminator`, the code units `trim` strips and `\s` matches. -/
def isSpace (c : UInt16) : Bool :=
  (9 ≤ c && c ≤ 13) || c = 0x20 || c = 0xA0 || c = 0x1680 || (0x2000 ≤ c && c ≤ 0x200A) ||
    c = 0x2028 || c = 0x2029 || c = 0x202F || c = 0x205F || c = 0x3000 || c = 0xFEFF

/-- `LineTerminator`: what `.` does not match in a regular expression. -/
def isLineTerminator (c : UInt16) : Bool :=
  c = 10 || c = 13 || c = 0x2028 || c = 0x2029

/-- `s.trim()`. -/
def trim (s : JsString) : JsString := (s.dropWhile isSpace).rdropWhile isSpace

/-- `s.padEnd(width)`. -/
def padEnd (width : Nat) (s : JsString) : JsString := s ++ List.replicate (width - s.length) 32

/-- `s.padStart(width)`. -/
def padStart (width : Nat) (s : JsString) : JsString := List.replicate (width - s.length) 32 ++ s

/-- `s.split("\n")`. -/
def splitLines (s : JsString) : List JsString := s.splitOn 10

/-- `s.startsWith(p)`. -/
def startsWith (s p : JsString) : Bool := p.isPrefixOf s

/-- `s.endsWith(p)`. -/
def endsWith (s p : JsString) : Bool := p.isSuffixOf s

/-- `s.includes(p)`. -/
def includes (s p : JsString) : Bool := s.tails.any (fun t => p.isPrefixOf t)

example : trim (js "  a b\r\n") = js "a b" := by decide

theorem startsWith_iff {s p : JsString} : startsWith s p = true ↔ p <+: s :=
  List.isPrefixOf_iff_prefix

theorem endsWith_iff {s p : JsString} : endsWith s p = true ↔ p <:+ s :=
  List.isSuffixOf_iff_suffix

theorem splitLines_append (s t : JsString) :
    splitLines (s ++ 10 :: t) = splitLines s ++ splitLines t :=
  List.splitOn_append_cons_self s t

theorem splitLines_eq_singleton {s : JsString} (h : (10 : UInt16) ∉ s) : splitLines s = [s] :=
  List.splitOn_eq_singleton h

theorem trim_eq_self {s : JsString} (hhead : ∀ c ∈ s.head?, isSpace c = false)
    (hlast : ∀ c ∈ s.getLast?, isSpace c = false) : trim s = s := by
  have hdrop : s.dropWhile isSpace = s := by
    cases s with
    | nil => rfl
    | cons c s => simp [hhead c (by simp)]
  rw [trim, hdrop, List.rdropWhile_eq_self_iff]
  intro hne
  simp [hlast _ (List.getLast?_eq_some_getLast hne)]

theorem trim_eq_nil {s : JsString} (h : ∀ c ∈ s, isSpace c = true) : trim s = [] := by
  have hdrop : s.dropWhile isSpace = [] := List.dropWhile_eq_nil_iff.mpr h
  rw [trim, hdrop]
  rfl

/-- White space around a text that neither begins nor ends with any. -/
theorem trim_surrounded {lead s trail : JsString} (hlead : ∀ c ∈ lead, isSpace c = true)
    (htrail : ∀ c ∈ trail, isSpace c = true) (hs : s ≠ [])
    (hblank : ∀ c ∈ s, isSpace c = false) : trim (lead ++ s ++ trail) = s := by
  obtain ⟨c, t, rfl⟩ := List.exists_cons_of_ne_nil hs
  have hfront : (lead ++ (c :: t) ++ trail).dropWhile isSpace = (c :: t) ++ trail := by
    rw [List.append_assoc, List.dropWhile_append_of_pos hlead, List.cons_append,
      List.dropWhile_cons_of_neg (by simp [hblank c])]
  have hback : ((c :: t) ++ trail).rdropWhile isSpace = (c :: t).rdropWhile isSpace := by
    rw [List.rdropWhile, List.reverse_append,
      List.dropWhile_append_of_pos (by simpa using htrail), List.rdropWhile]
  rw [trim, hfront, hback, List.rdropWhile_eq_self_iff]
  intro hne
  simpa using hblank _ (List.getLast_mem hne)

theorem isSpace_of_all {s : JsString} (h : s.all isSpace = true) :
    ∀ c ∈ s, isSpace c = true :=
  List.all_eq_true.mp h

theorem not_isSpace_of_all {s : JsString} (h : s.all (fun c => !isSpace c) = true) :
    ∀ c ∈ s, isSpace c = false := by
  intro c hc
  simpa using List.all_eq_true.mp h c hc

/-- Only white space is trimmed. -/
theorem count_trim {c : UInt16} (hc : isSpace c = false) (s : JsString) :
    (trim s).count c = s.count c := by
  have hdrop : ∀ l : JsString, (l.dropWhile isSpace).count c = l.count c := by
    intro l
    have hblank : (l.takeWhile isSpace).count c = 0 := by
      rw [List.count_eq_zero]
      intro hmem
      have hspace := List.mem_takeWhile_imp hmem
      rw [hc] at hspace
      cases hspace
    have hsplit := congrArg (List.count c) (List.takeWhile_append_dropWhile (p := isSpace) (l := l))
    rwa [List.count_append, hblank, Nat.zero_add] at hsplit
  rw [trim, List.rdropWhile, List.count_reverse, hdrop, List.count_reverse, hdrop]

theorem mem_trim {s : JsString} {c : UInt16} (h : c ∈ s) (hc : isSpace c = false) :
    c ∈ trim s := by
  rw [← List.count_pos_iff] at h ⊢
  rwa [count_trim hc]

theorem length_trim_le (s : JsString) : (trim s).length ≤ s.length := by
  rw [trim]
  exact (List.rdropWhile_prefix _ _).length_le.trans (List.dropWhile_sublist _).length_le

end CorpusRunner
