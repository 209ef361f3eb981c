import CorpusRunner.Misc.Numerals

/-!
# Dates

`Date.prototype.toISOString`. Days are counted in eras of 400 years, each in four centuries of
25 times four years; the years begin on the first of March, so that a leap day is the last day
of its four years, and the last day of the last century. A date counts up its days
(`daysOf_dateOf`), and the text of a time is read as that time (`isoValue_isoString`).
-/

namespace CorpusRunner

/-- The year of the `d`-th day of an era, and the day of that year. -/
def yearOfEra (d : Nat) : Nat × Nat :=
  let century := min (d / 36524) 3
  let d := d - 36524 * century
  let four := d / 1461
  let d := d - 1461 * four
  let year := min (d / 365) 3
  (100 * century + 4 * four + year, d - 365 * year)

/-- The month of the `d`-th day of a year, counted from March, and the day of that month. -/
def monthOfYear (d : Nat) : Nat × Nat :=
  let month := (5 * d + 2) / 153
  (month, d - (153 * month + 2) / 5 + 1)

/-- A date of the proleptic Gregorian calendar. -/
structure CivilDate where
  year : Int
  month : Nat
  day : Nat
  deriving DecidableEq, Repr

/-- The date `days` after 1970-01-01. -/
def dateOf (days : Int) : CivilDate :=
  let z := days + 719468
  let (year, dayOfYear) := yearOfEra (z % 146097).toNat
  let (fromMarch, day) := monthOfYear dayOfYear
  { year := z / 146097 * 400 + year + if fromMarch < 10 then 0 else 1
    month := if fromMarch < 10 then fromMarch + 3 else fromMarch - 9
    day }

/-- The days from 1970-01-01 to a date. -/
def daysOf (date : CivilDate) : Int :=
  let year := if date.month ≤ 2 then date.year - 1 else date.year
  let fromMarch := if date.month ≤ 2 then date.month + 9 else date.month - 3
  year * 365 + year / 4 - year / 100 + year / 400 +
    ((153 * fromMarch + 2) / 5 + date.day - 1 : Nat) - 719468

theorem yearOfEra_spec {d : Nat} (h : d < 146097) :
    (yearOfEra d).1 < 400 ∧ (yearOfEra d).2 < 366 ∧
      d + (yearOfEra d).1 / 100 =
        (yearOfEra d).1 * 365 + (yearOfEra d).1 / 4 + (yearOfEra d).2 := by
  simp only [yearOfEra]
  generalize hc : min (d / 36524) 3 = c
  generalize hd1 : d - 36524 * c = d1
  generalize hq : d1 / 1461 = q
  generalize hd2 : d1 - 1461 * q = d2
  generalize hy : min (d2 / 365) 3 = y
  have hc3 : c ≤ 3 := by omega
  have hq24 : q ≤ 24 := by omega
  have hy3 : y ≤ 3 := by omega
  have hfour : (100 * c + 4 * q + y) / 4 = 25 * c + q := by omega
  have hhundred : (100 * c + 4 * q + y) / 100 = c := by omega
  rw [hfour, hhundred]
  omega

/-- The leap days of whole eras and of the years behind them. -/
theorem leapDays (era : Int) {y : Nat} (h : y < 400) :
    (era * 400 + y) / 4 - (era * 400 + y) / 100 + (era * 400 + y) / 400 =
      era * 97 + (y / 4 : Nat) - (y / 100 : Nat) := by
  have h4 : (era * 400 + y) / 4 = era * 100 + (y / 4 : Nat) := by omega
  have h100 : (era * 400 + y) / 100 = era * 4 + (y / 100 : Nat) := by omega
  have h400 : (era * 400 + y) / 400 = era := by omega
  rw [h4, h100, h400]
  omega

theorem monthOfYear_spec {d : Nat} (h : d < 366) :
    (monthOfYear d).1 < 12 ∧ 1 ≤ (monthOfYear d).2 ∧ (monthOfYear d).2 ≤ 31 ∧
      (153 * (monthOfYear d).1 + 2) / 5 + (monthOfYear d).2 - 1 = d := by
  simp only [monthOfYear]
  omega

/-- The days up to a date are those it is the date of. -/
theorem daysOf_dateOf (days : Int) : daysOf (dateOf days) = days := by
  have hlt : ((days + 719468) % 146097).toNat < 146097 := by omega
  obtain ⟨hyear, hday, hdays⟩ := yearOfEra_spec hlt
  obtain ⟨hmonth, -, -, hday'⟩ := monthOfYear_spec hday
  simp only [dateOf]
  generalize hy : yearOfEra ((days + 719468) % 146097).toNat = y at *
  generalize hm : monthOfYear y.2 = m at *
  obtain ⟨y, d⟩ := y
  obtain ⟨m, day⟩ := m
  simp only at *
  have hleap := leapDays ((days + 719468) / 146097) hyear
  by_cases hm10 : m < 10
  · have h2 : ¬ m + 3 ≤ 2 := by omega
    simp only [daysOf, if_pos hm10, if_neg h2, Nat.add_sub_cancel, hday', add_zero]
    omega
  · have h2 : m - 9 ≤ 2 := by omega
    have hback : m - 9 + 9 = m := by omega
    simp only [daysOf, if_neg hm10, if_pos h2, hback, hday', add_sub_cancel_right]
    omega

/-! ## The text of a time -/

/-- `n` with zeros in front, up to `width` digits. -/
def padDigits (width n : Nat) : JsString :=
  List.replicate (width - (natDigits n).length) 48 ++ natDigits n

/-- Four digits, or a sign and six. -/
def yearText (year : Int) : JsString :=
  if 0 ≤ year ∧ year ≤ 9999 then padDigits 4 year.toNat
  else (if year < 0 then js "-" else js "+") ++ padDigits 6 year.natAbs

/-- `new Date(t).toISOString()`. -/
def isoString (t : Int) : JsString :=
  let date := dateOf (t / 86400000)
  let ms := (t % 86400000).toNat
  yearText date.year ++ js "-" ++ padDigits 2 date.month ++ js "-" ++ padDigits 2 date.day ++
    js "T" ++ padDigits 2 (ms / 3600000) ++ js ":" ++ padDigits 2 (ms / 60000 % 60) ++ js ":" ++
    padDigits 2 (ms / 1000 % 60) ++ js "." ++ padDigits 3 (ms % 1000) ++ js "Z"

example : isoString 951868799999 = js "2000-02-29T23:59:59.999Z" := by decide +kernel

theorem length_natDigits_le {width n : Nat} (h : n < 10 ^ (width + 1)) :
    (natDigits n).length ≤ width + 1 := by
  induction width generalizing n with
  | zero =>
    have hn : n < 10 := by simpa using h
    simp [natDigits_eq, hn]
  | succ width ih =>
    rw [natDigits_eq]
    split
    · simp
    · have hdiv : n / 10 < 10 ^ (width + 1) := by
        rw [pow_succ] at h
        omega
      have := ih hdiv
      simp only [List.length_append, List.length_singleton]
      omega

theorem length_padDigits {width n : Nat} (h : n < 10 ^ (width + 1)) :
    (padDigits (width + 1) n).length = width + 1 := by
  have := length_natDigits_le h
  simp only [padDigits, List.length_append, List.length_replicate]
  omega

theorem digitsValue_padDigits (width n : Nat) : digitsValue (padDigits width n) = n := by
  have hzeros : ∀ k, digitsValue (List.replicate k 48 ++ natDigits n) = n := by
    intro k
    induction k with
    | zero => exact digitsValue_natDigits n
    | succ k ih => exact ih
  exact hzeros _

theorem isDigit_padDigits (width n : Nat) : ∀ c ∈ padDigits width n, isDigit c = true := by
  intro c hc
  rcases List.mem_append.mp hc with hc | hc
  · rw [(List.mem_replicate.mp hc).2]
    decide
  · exact isDigit_natDigits n c hc

/-! ## The time of a text -/

/-- What `n` digits stand for, from place `i` on. -/
def digitsAt (s : JsString) (i n : Nat) : Nat := digitsValue ((s.drop i).take n)

/-- The year in front of a text, and the rest of the text. -/
def readYear (s : JsString) : Int × JsString :=
  if isMinus s then (-digitsAt s 1 6, s.drop 7)
  else if isSign s then (digitsAt s 1 6, s.drop 7)
  else (digitsAt s 0 4, s.drop 4)

/-- The time that a text in the format of `toISOString` stands for. -/
def isoValue (s : JsString) : Int :=
  let (year, rest) := readYear s
  daysOf ⟨year, digitsAt rest 1 2, digitsAt rest 4 2⟩ * 86400000 +
    (digitsAt rest 7 2 * 3600000 + digitsAt rest 10 2 * 60000 + digitsAt rest 13 2 * 1000 +
      digitsAt rest 16 3 : Nat)

/-- The times that a `Date` can have. -/
def IsTime (t : Int) : Prop := -8640000000000000 ≤ t ∧ t ≤ 8640000000000000

instance (t : Int) : Decidable (IsTime t) := inferInstanceAs (Decidable (_ ∧ _))

theorem readYear_yearText {year : Int} (h : year.natAbs < 1000000) (rest : JsString) :
    readYear (yearText year ++ rest) = (year, rest) := by
  unfold yearText
  split
  · rename_i hyear
    have hlength : (padDigits 4 year.toNat).length = 4 := length_padDigits (by omega)
    obtain ⟨c, s, hs⟩ := List.exists_cons_of_length_eq_add_one hlength
    obtain ⟨-, hminus, hplus⟩ := isDigit_spec (isDigit_padDigits 4 year.toNat c (by simp [hs]))
    have hnotSign : isSign (padDigits 4 year.toNat ++ rest) = false := by
      simp [isSign, hs, hminus, hplus]
    have hnotMinus : isMinus (padDigits 4 year.toNat ++ rest) = false := by
      simp [isMinus, hs, hminus]
    rw [readYear, hnotMinus, hnotSign, if_neg (by simp), if_neg (by simp), digitsAt, List.drop_zero,
      List.take_left' hlength, List.drop_left' hlength, digitsValue_padDigits]
    simp [hyear.1]
  · rename_i hyear
    have hlength : (padDigits 6 year.natAbs).length = 6 := length_padDigits (by omega)
    have hsix : digitsValue ((padDigits 6 year.natAbs ++ rest).take 6) = year.natAbs := by
      rw [List.take_left' hlength, digitsValue_padDigits]
    have hrest : (padDigits 6 year.natAbs ++ rest).drop 6 = rest := List.drop_left' hlength
    split
    · rename_i hneg
      change (-(digitsValue ((padDigits 6 year.natAbs ++ rest).take 6) : Int),
        (padDigits 6 year.natAbs ++ rest).drop 6) = _
      rw [hsix, hrest, Prod.mk.injEq]
      exact ⟨by omega, rfl⟩
    · rename_i hpos
      change ((digitsValue ((padDigits 6 year.natAbs ++ rest).take 6) : Int),
        (padDigits 6 year.natAbs ++ rest).drop 6) = _
      rw [hsix, hrest, Prod.mk.injEq]
      exact ⟨by omega, rfl⟩

/-- What follows the year, of the digits of each part. -/
def clockText (month day hours minutes seconds ms : JsString) : JsString :=
  js "-" ++ month ++ js "-" ++ day ++ js "T" ++ hours ++ js ":" ++ minutes ++ js ":" ++ seconds ++
    js "." ++ ms ++ js "Z"

theorem digitsAt_clockText {month day hours minutes seconds ms : JsString}
    (hmonth : month.length = 2) (hday : day.length = 2) (hhours : hours.length = 2)
    (hminutes : minutes.length = 2) (hseconds : seconds.length = 2) (hms : ms.length = 3) :
    let rest := clockText month day hours minutes seconds ms
    digitsAt rest 1 2 = digitsValue month ∧ digitsAt rest 4 2 = digitsValue day ∧
      digitsAt rest 7 2 = digitsValue hours ∧ digitsAt rest 10 2 = digitsValue minutes ∧
      digitsAt rest 13 2 = digitsValue seconds ∧ digitsAt rest 16 3 = digitsValue ms := by
  obtain ⟨a₁, a₂, rfl⟩ := List.length_eq_two.mp hmonth
  obtain ⟨b₁, b₂, rfl⟩ := List.length_eq_two.mp hday
  obtain ⟨c₁, c₂, rfl⟩ := List.length_eq_two.mp hhours
  obtain ⟨d₁, d₂, rfl⟩ := List.length_eq_two.mp hminutes
  obtain ⟨e₁, e₂, rfl⟩ := List.length_eq_two.mp hseconds
  obtain ⟨f₁, f₂, f₃, rfl⟩ := List.length_eq_three.mp hms
  exact ⟨rfl, rfl, rfl, rfl, rfl, rfl⟩

theorem dateOf_spec {days : Int} (h : -100000000 ≤ days ∧ days ≤ 100000000) :
    (dateOf days).year.natAbs < 1000000 ∧ (dateOf days).month < 100 ∧ (dateOf days).day < 100 := by
  have hlt : ((days + 719468) % 146097).toNat < 146097 := by omega
  obtain ⟨hyear, hday, -⟩ := yearOfEra_spec hlt
  obtain ⟨hmonth, -, hday', -⟩ := monthOfYear_spec hday
  simp only [dateOf]
  generalize yearOfEra ((days + 719468) % 146097).toNat = y at *
  generalize monthOfYear y.2 = m at *
  obtain ⟨y, d⟩ := y
  obtain ⟨m, day⟩ := m
  simp only at *
  split <;> omega

/-- The text of a time is read as the time. -/
theorem isoValue_isoString {t : Int} (h : IsTime t) : isoValue (isoString t) = t := by
  obtain ⟨hlow, hhigh⟩ := h
  obtain ⟨hyear, hmonth, hday⟩ := @dateOf_spec (t / 86400000) (by omega)
  have hms : (t % 86400000).toNat < 86400000 := by omega
  have hsplit : t = t / 86400000 * 86400000 + ((t % 86400000).toNat : Int) := by omega
  have hdate := daysOf_dateOf (t / 86400000)
  have htext : isoString t = yearText (dateOf (t / 86400000)).year ++
      clockText (padDigits 2 (dateOf (t / 86400000)).month)
        (padDigits 2 (dateOf (t / 86400000)).day)
        (padDigits 2 ((t % 86400000).toNat / 3600000))
        (padDigits 2 ((t % 86400000).toNat / 60000 % 60))
        (padDigits 2 ((t % 86400000).toNat / 1000 % 60))
        (padDigits 3 ((t % 86400000).toNat % 1000)) := by
    simp only [isoString, clockText, List.append_assoc]
  generalize (t % 86400000).toNat = ms at *
  generalize dateOf (t / 86400000) = date at *
  obtain ⟨h₁, h₂, h₃, h₄, h₅, h₆⟩ := digitsAt_clockText
    (length_padDigits hmonth) (length_padDigits hday)
    (@length_padDigits 1 (ms / 3600000) (by omega))
    (@length_padDigits 1 (ms / 60000 % 60) (by omega))
    (@length_padDigits 1 (ms / 1000 % 60) (by omega))
    (@length_padDigits 2 (ms % 1000) (by omega))
  simp only [isoValue, htext, readYear_yearText hyear, h₁, h₂, h₃, h₄, h₅, h₆,
    digitsValue_padDigits, hdate]
  omega

end CorpusRunner
