import CorpusRunner.Misc.Json
import Mathlib.Algebra.Order.Field.Basic
import Mathlib.Data.Rat.Defs
import Mathlib.Tactic.NormNum
import Mathlib.Tactic.Ring

/-!
# Numerals

`parseInt(s, 10)`, and what the literal of a JSON number stands for. Numbers are exact, where
the language rounds to a double; for integers the two agree where these are safe
(`IsSafeInteger`). The literal that `intToJs` writes stands for the integer it was (`value_ofInt`).
-/

namespace CorpusRunner

/-- What a run of digits stands for. -/
def digitsValue (digits : JsString) : Nat :=
  digits.foldl (fun n c => 10 * n + (c.toNat - 48)) 0

def isMinus (s : JsString) : Bool := s.head? = some 45

def isSign (s : JsString) : Bool := s.head? = some 45 || s.head? = some 43

/-- `Number.isSafeInteger`; beyond, a double is not this integer alone, or is infinite. -/
def IsSafeInteger (n : Int) : Prop := n.natAbs ≤ 9007199254740991

instance (n : Int) : Decidable (IsSafeInteger n) := inferInstanceAs (Decidable (_ ≤ _))

/-- `parseInt(s, 10)`, where that is a safe integer; `none` is `NaN`. -/
def parseInt10 (s : JsString) : Option Int :=
  let s := s.dropWhile isSpace
  let digits := (if isSign s then s.tail else s).takeWhile isDigit
  if digits = [] then none
  else if isMinus s then some (-(digitsValue digits)) else some (digitsValue digits)

/-- What a literal stands for: sign, digits, fraction and exponent. -/
def literalValue (literal : JsString) : Rat :=
  let s := if isMinus literal then literal.tail else literal
  let int := s.takeWhile isDigit
  let rest := s.dropWhile isDigit
  let frac := if rest.head? = some 46 then rest.tail.takeWhile isDigit else []
  let rest := if rest.head? = some 46 then rest.tail.dropWhile isDigit else rest
  let mantissa : Rat := digitsValue int + digitsValue frac / 10 ^ frac.length
  let exponent : Int := (parseInt10 rest.tail).getD 0
  (if isMinus literal then -mantissa else mantissa) * 10 ^ exponent

def JsonNumber.value (n : JsonNumber) : Rat := literalValue n.literal

example : parseInt10 (js " +12px") = some 12 := by decide

/-! ## The digits of a number -/

/-- The code unit of a digit. -/
def digitUnit (d : Nat) : UInt16 := UInt16.ofNat (48 + d)

theorem utf16_digit : ∀ d < 10, utf16 (Nat.digitChar d) = [digitUnit d] := by decide

theorem isDigit_digitUnit : ∀ d < 10, isDigit (digitUnit d) = true := by decide

theorem toNat_digitUnit : ∀ d < 10, (digitUnit d).toNat - 48 = d := by decide

theorem digitsValue_snoc (s : JsString) (c : UInt16) :
    digitsValue (s ++ [c]) = 10 * digitsValue s + (c.toNat - 48) := by
  simp [digitsValue]

/-- The last digit, behind those of the rest. -/
theorem natDigits_eq (n : Nat) :
    natDigits n = if n < 10 then [digitUnit n] else natDigits (n / 10) ++ [digitUnit (n % 10)] := by
  rw [natDigits, Nat.toDigits_eq_if (by decide)]
  split
  · rename_i hn
    simp [utf16_digit n hn]
  · have hmod : n % 10 < 10 := Nat.mod_lt n (by decide)
    simp [natDigits, utf16_digit _ hmod]

/-- What the digits of a number stand for is the number. -/
theorem digitsValue_natDigits (n : Nat) : digitsValue (natDigits n) = n := by
  induction n using Nat.strongRecOn with
  | ind n ih =>
    rw [natDigits_eq]
    split
    · rename_i hn
      simp [digitsValue, toNat_digitUnit n hn]
    · rename_i hn
      have hmod : n % 10 < 10 := Nat.mod_lt n (by decide)
      rw [digitsValue_snoc, ih (n / 10) (by omega), toNat_digitUnit _ hmod]
      omega

theorem isDigit_natDigits (n : Nat) : ∀ c ∈ natDigits n, isDigit c = true := by
  induction n using Nat.strongRecOn with
  | ind n ih =>
    intro c hc
    rw [natDigits_eq] at hc
    split at hc
    · rename_i hn
      obtain rfl := List.mem_singleton.mp hc
      exact isDigit_digitUnit n hn
    · rename_i hn
      rcases List.mem_append.mp hc with hc | hc
      · exact ih (n / 10) (by omega) c hc
      · obtain rfl := List.mem_singleton.mp hc
        exact isDigit_digitUnit _ (Nat.mod_lt n (by decide))

theorem natDigits_ne_nil (n : Nat) : natDigits n ≠ [] := by
  rw [natDigits_eq]
  split <;> simp

theorem exists_digitUnit {c : UInt16} (h : isDigit c = true) : ∃ d < 10, c = digitUnit d := by
  simp only [isDigit, Bool.and_eq_true, decide_eq_true_eq, UInt16.le_iff_toNat_le] at h
  have h1 : 48 ≤ c.toNat := h.1
  have h2 : c.toNat ≤ 57 := h.2
  refine ⟨c.toNat - 48, by omega, ?_⟩
  rw [digitUnit, show 48 + (c.toNat - 48) = c.toNat by omega, UInt16.ofNat_toNat]

theorem not_isSpace_digitUnit : ∀ d < 10, isSpace (digitUnit d) = false := by decide

theorem digitUnit_ne : ∀ d < 10, digitUnit d ≠ 45 ∧ digitUnit d ≠ 43 := by decide

/-- A digit is neither a blank nor a sign. -/
theorem isDigit_spec {c : UInt16} (h : isDigit c = true) :
    isSpace c = false ∧ c ≠ 45 ∧ c ≠ 43 := by
  obtain ⟨d, hd, rfl⟩ := exists_digitUnit h
  exact ⟨not_isSpace_digitUnit d hd, digitUnit_ne d hd⟩

theorem takeWhile_isDigit {s : JsString} (h : ∀ c ∈ s, isDigit c = true) :
    s.takeWhile isDigit = s := List.takeWhile_eq_self_iff.mpr h

@[simp] theorem parseInt10_nil : parseInt10 [] = none := rfl

/-! ## The value of a literal -/

/-- A literal of digits with no fraction and no exponent. -/
theorem literalValue_digits {s : JsString} (h : ∀ c ∈ s, isDigit c = true) (hne : s ≠ []) :
    literalValue s = digitsValue s := by
  obtain ⟨c, t, rfl⟩ := List.exists_cons_of_ne_nil hne
  obtain ⟨-, hminus, -⟩ := isDigit_spec (h c (by simp))
  have hrest : (c :: t).dropWhile isDigit = [] := List.dropWhile_eq_nil_iff.mpr h
  have hm : isMinus (c :: t) = false := by simp [isMinus, hminus]
  simp [literalValue, hm, hrest, takeWhile_isDigit h, digitsValue]

theorem literalValue_minus {s : JsString} (h : ∀ c ∈ s, isDigit c = true) :
    literalValue (45 :: s) = -(digitsValue s : Rat) := by
  have hrest : s.dropWhile isDigit = [] := List.dropWhile_eq_nil_iff.mpr h
  have hm : isMinus (45 :: s) = true := rfl
  simp [literalValue, hm, hrest, takeWhile_isDigit h, digitsValue]

/-- The number that is written for an integer stands for it. -/
theorem value_ofInt (n : Int) : (JsonNumber.ofInt n).value = n := by
  cases n with
  | ofNat n =>
    change literalValue (natDigits n) = _
    rw [literalValue_digits (isDigit_natDigits n) (natDigits_ne_nil n), digitsValue_natDigits]
    rfl
  | negSucc n =>
    change literalValue (45 :: natDigits (n + 1)) = _
    rw [literalValue_minus (isDigit_natDigits (n + 1)), digitsValue_natDigits, Int.cast_negSucc]

/-! ## Hundredths -/

/-- `Number.prototype.toString` on `c / 100`. -/
def hundredthsText (c : Nat) : JsString :=
  natDigits (c / 100) ++
    if c % 100 = 0 then []
    else if c % 10 = 0 then [46, digitUnit (c % 100 / 10)]
    else [46, digitUnit (c % 100 / 10), digitUnit (c % 10)]

example : hundredthsText 3350 = js "33.5" := by decide

theorem numRun_natDigits (n : Nat) : ∃ st : NumState, numRun (natDigits n) = some st ∧
    st.step 46 = some .dot ∧ st.done = true := by
  have hrun := step_natDigits .start n fun c hc => by
    simp [NumState.step, (isDigit_spec hc).2.1]
  by_cases hn : n = 0
  · exact ⟨.zero, by rw [numRun, hrun, if_pos hn], rfl, rfl⟩
  · exact ⟨.int, by rw [numRun, hrun, if_neg hn], rfl, rfl⟩

/-- Digits behind the point. -/
theorem isNumber_fraction (n d : Nat) (hd : d < 10) : isNumber (natDigits n ++ [46, digitUnit d]) =
    true ∧ ∀ d' < 10, isNumber (natDigits n ++ [46, digitUnit d, digitUnit d']) = true := by
  obtain ⟨st, hst, hdot, -⟩ := numRun_natDigits n
  have hrun : ∀ rest : JsString, numRun (natDigits n ++ 46 :: digitUnit d :: rest) =
      rest.foldlM NumState.step .frac := by
    intro rest
    have hfrac : NumState.step .dot (digitUnit d) = some .frac := by
      simp [NumState.step, isDigit_digitUnit d hd]
    rw [numRun, List.foldlM_append, ← numRun, hst]
    simp only [Option.bind_eq_bind, Option.bind_some, List.foldlM_cons, hdot, hfrac]
  refine ⟨by rw [isNumber, hrun]; rfl, fun d' hd' => ?_⟩
  rw [isNumber, hrun]
  simp [NumState.step, isDigit_digitUnit d' hd', NumState.done]

theorem isNumber_hundredthsText (c : Nat) : isNumber (hundredthsText c) = true := by
  have hd : c % 100 / 10 < 10 := by omega
  unfold hundredthsText
  split
  · rw [List.append_nil]
    exact isNumber_intToJs (.ofNat (c / 100))
  · split
    · exact (isNumber_fraction _ _ hd).1
    · exact (isNumber_fraction _ _ hd).2 _ (Nat.mod_lt c (by decide))

/-- The literal of a number with two decimals. -/
def JsonNumber.hundredths (c : Nat) : JsonNumber := ⟨hundredthsText c, isNumber_hundredthsText c⟩

/-- Digits, a point and digits. -/
theorem literalValue_fraction {int frac : JsString} (hint : ∀ c ∈ int, isDigit c = true)
    (hne : int ≠ []) (hfrac : ∀ c ∈ frac, isDigit c = true) :
    literalValue (int ++ 46 :: frac) =
      (digitsValue int : Rat) + digitsValue frac / 10 ^ frac.length := by
  obtain ⟨c, t, rfl⟩ := List.exists_cons_of_ne_nil hne
  obtain ⟨-, hminus, -⟩ := isDigit_spec (hint c (by simp))
  have hm : isMinus (c :: t ++ 46 :: frac) = false := by simp [isMinus, hminus]
  have htake : (c :: t ++ 46 :: frac).takeWhile isDigit = c :: t := by
    rw [List.takeWhile_append_of_pos hint, List.takeWhile_cons_of_neg (by decide), List.append_nil]
  have hdrop : (c :: t ++ 46 :: frac).dropWhile isDigit = 46 :: frac := by
    rw [List.dropWhile_append_of_pos hint, List.dropWhile_cons_of_neg (by decide)]
  have hrest : frac.dropWhile isDigit = [] := List.dropWhile_eq_nil_iff.mpr hfrac
  simp only [literalValue, hm, Bool.false_eq_true, if_false, htake, hdrop, List.head?_cons,
    if_true, List.tail_cons, takeWhile_isDigit hfrac, hrest, List.tail_nil, parseInt10_nil,
    Option.getD_none, zpow_zero, mul_one]

/-- The literal of a number of hundredths stands for it. -/
theorem value_hundredths (c : Nat) : (JsonNumber.hundredths c).value = (c : Rat) / 100 := by
  have hd : c % 100 / 10 < 10 := by omega
  have hu : c % 10 < 10 := Nat.mod_lt c (by decide)
  have hint := isDigit_natDigits (c / 100)
  have hne := natDigits_ne_nil (c / 100)
  have hten := isDigit_digitUnit _ hd
  have hunit := isDigit_digitUnit _ hu
  have hc : (c : Rat) = 100 * (c / 100 : Nat) + 10 * (c % 100 / 10 : Nat) + (c % 10 : Nat) := by
    have : c = 100 * (c / 100) + 10 * (c % 100 / 10) + c % 10 := by omega
    exact_mod_cast this
  change literalValue (hundredthsText c) = _
  unfold hundredthsText
  split
  · rename_i h
    rw [List.append_nil, literalValue_digits hint hne, digitsValue_natDigits, hc,
      show c % 100 / 10 = 0 by omega, show c % 10 = 0 by omega]
    simp
  · split
    · rename_i h
      rw [literalValue_fraction hint hne (by simpa using hten), digitsValue_natDigits, hc, h]
      simp only [digitsValue, List.foldl_cons, List.foldl_nil, toNat_digitUnit _ hd]
      simp
      ring
    · rw [literalValue_fraction hint hne (by simpa using ⟨hten, hunit⟩), digitsValue_natDigits, hc]
      simp only [digitsValue, List.foldl_cons, List.foldl_nil, toNat_digitUnit _ hd,
        toNat_digitUnit _ hu]
      simp
      ring

end CorpusRunner
