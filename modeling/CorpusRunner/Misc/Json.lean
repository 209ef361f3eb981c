import CorpusRunner.Misc.JsString

/-!
# JSON

`JSON.stringify` and `JSON.parse` over code units. The reader takes a text one code unit at a
time: its state is what it expects next and the arrays and objects that are still open, so
that a text cut anywhere, or with another one written behind it, is an ordinary run of it.
A number is kept as its literal. An object keeps its members as written; of two under one
name the last counts.
-/

namespace CorpusRunner

/-! ## Numbers -/

/-- How much of a number literal has been read. -/
inductive NumState where
  | start
  | minus
  | zero
  | int
  | dot
  | frac
  | exp
  | expSign
  | expInt
  deriving DecidableEq, Repr

def isDigit (c : UInt16) : Bool := decide (48 ≤ c) && decide (c ≤ 57)

/-- `0` opens no longer integer. -/
def NumState.firstDigit (c : UInt16) : Option NumState :=
  if c = 48 then some .zero else if isDigit c then some .int else none

/-- What may follow the integer part. -/
def NumState.afterInt (c : UInt16) : Option NumState :=
  if c = 46 then some .dot
  else if c = 101 ∨ c = 69 then some .exp
  else none

def NumState.step (s : NumState) (c : UInt16) : Option NumState :=
  match s with
  | .start => if c = 45 then some .minus else firstDigit c
  | .minus => firstDigit c
  | .zero => afterInt c
  | .int => if isDigit c then some .int else afterInt c
  | .dot => if isDigit c then some .frac else none
  | .frac =>
    if isDigit c then some .frac else if c = 101 ∨ c = 69 then some .exp else none
  | .exp =>
    if c = 43 ∨ c = 45 then some .expSign else if isDigit c then some .expInt else none
  | .expSign => if isDigit c then some .expInt else none
  | .expInt => if isDigit c then some .expInt else none

/-- The literal may end here. -/
def NumState.done : NumState → Bool
  | .zero | .int | .frac | .expInt => true
  | .start | .minus | .dot | .exp | .expSign => false

def numRun (literal : JsString) : Option NumState := literal.foldlM NumState.step .start

def isNumber (literal : JsString) : Bool := (numRun literal).any NumState.done

/-- A number, as a literal of the grammar. -/
structure JsonNumber where
  literal : JsString
  ok : isNumber literal = true
  deriving DecidableEq

theorem utf16_digitChar : ∀ d < 10, ∃ c, utf16 (Nat.digitChar d) = [c] ∧ isDigit c = true ∧
    NumState.firstDigit c = some (if d = 0 then .zero else .int) := by
  intro d hd
  refine ⟨UInt16.ofNat (48 + d), ?_⟩
  revert d
  decide

/-- The digits of a natural number, at the start or behind the sign. -/
theorem step_natDigits (st : NumState) (n : Nat) (hst : ∀ c, isDigit c = true →
    st.step c = NumState.firstDigit c) :
    (natDigits n).foldlM NumState.step st = some (if n = 0 then .zero else .int) := by
  induction n using Nat.strongRecOn with
  | ind n ih =>
    unfold natDigits at ih ⊢
    rw [Nat.toDigits_eq_if (by decide)]
    by_cases hn : n < 10
    · obtain ⟨c, hc, hdigit, hfirst⟩ := utf16_digitChar n hn
      simp [hn, hc, hst c hdigit, hfirst]
    · obtain ⟨c, hc, hdigit, -⟩ := utf16_digitChar (n % 10) (Nat.mod_lt n (by decide))
      have hne : n / 10 ≠ 0 := by omega
      have hn0 : n ≠ 0 := by omega
      rw [if_neg hn, List.flatMap_append, List.foldlM_append, ih (n / 10) (by omega)]
      simp [hc, hne, hn0, NumState.step, hdigit]

theorem isNumber_intToJs (n : Int) : isNumber (intToJs n) = true := by
  cases n with
  | ofNat n =>
    have hrun : numRun (natDigits n) = _ := step_natDigits .start n fun c hc => by
      have : c ≠ 45 := by rintro rfl; exact absurd hc (by decide)
      simp [NumState.step, this]
    rw [isNumber, intToJs, hrun]
    split <;> rfl
  | negSucc n =>
    have hrun := step_natDigits .minus (n + 1) fun c _ => rfl
    have hminus : numRun (intToJs (.negSucc n)) =
        (natDigits (n + 1)).foldlM NumState.step .minus := rfl
    rw [isNumber, hminus, hrun, if_neg (Nat.succ_ne_zero n)]
    rfl

def JsonNumber.ofInt (n : Int) : JsonNumber := ⟨intToJs n, isNumber_intToJs n⟩

/-! ## Values and `JSON.stringify` -/

inductive Json where
  | null
  | bool (b : Bool)
  | number (n : JsonNumber)
  | string (s : JsString)
  | array (items : List Json)
  | object (members : List (JsString × Json))

/-- `v[k]` of an object's own member `k`; `none` is `undefined`. -/
def Json.member (v : Json) (k : JsString) : Option Json :=
  match v with
  | .object members => (members.reverse.find? (fun m => decide (m.1 = k))).map Prod.snd
  | _ => none

theorem Json.member_first {k : JsString} {v : Json} {ms : List (JsString × Json)}
    (h : ∀ m ∈ ms, m.1 ≠ k) : (Json.object ((k, v) :: ms)).member k = some v := by
  have hnone : ms.reverse.find? (fun m => decide (m.1 = k)) = none := by
    rw [List.find?_eq_none]
    intro m hm
    simpa using h m (List.mem_reverse.mp hm)
  simp [member, List.find?_append, hnone]

theorem Json.member_cons_of_ne {k k' : JsString} (h : k' ≠ k) (v : Json)
    (ms : List (JsString × Json)) : (Json.object ((k', v) :: ms)).member k =
      (Json.object ms).member k := by
  simp [member, List.find?_append, h]

/-- A lower-case hexadecimal digit. -/
def hexDigit (n : Nat) : UInt16 := if n < 10 then UInt16.ofNat (48 + n) else UInt16.ofNat (87 + n)

/-- `\uXXXX`. -/
def unicodeEscape (c : UInt16) : JsString :=
  [92, 117, hexDigit (c.toNat / 4096), hexDigit (c.toNat / 256 % 16),
    hexDigit (c.toNat / 16 % 16), hexDigit (c.toNat % 16)]

def isLead (c : UInt16) : Bool := decide (0xD800 ≤ c) && decide (c ≤ 0xDBFF)

def isTrail (c : UInt16) : Bool := decide (0xDC00 ≤ c) && decide (c ≤ 0xDFFF)

/-- The code unit `c` between `before` and `after` is a surrogate that no pair takes up. -/
def isLone (before : Option UInt16) (c : UInt16) (after : Option UInt16) : Bool :=
  (isLead c && !after.any isTrail) || (isTrail c && !before.any isLead)

/-- One code unit of `QuoteJSONString`. -/
def quoteUnit (before : Option UInt16) (c : UInt16) (after : Option UInt16) : JsString :=
  if c = 8 then [92, 98]
  else if c = 9 then [92, 116]
  else if c = 10 then [92, 110]
  else if c = 12 then [92, 102]
  else if c = 13 then [92, 114]
  else if c = 34 then [92, 34]
  else if c = 92 then [92, 92]
  else if c < 32 ∨ isLone before c after = true then unicodeEscape c
  else [c]

def quoteUnits (before : Option UInt16) : JsString → JsString
  | [] => []
  | c :: s => quoteUnit before c s.head? ++ quoteUnits (some c) s

/-- `QuoteJSONString`. -/
def quote (s : JsString) : JsString := 34 :: quoteUnits none s ++ [34]

/-- The comma before an element that is not the first. -/
def comma (first : Bool) : JsString := if first then [] else [44]

mutual

/-- `JSON.stringify` without an indent. -/
def stringify : Json → JsString
  | .null => js "null"
  | .bool true => js "true"
  | .bool false => js "false"
  | .number n => n.literal
  | .string s => quote s
  | .array items => 91 :: stringifyItems true items
  | .object members => 123 :: stringifyMembers true members

/-- The elements of an array and its closing bracket. -/
def stringifyItems (first : Bool) : List Json → JsString
  | [] => [93]
  | v :: vs => comma first ++ stringify v ++ stringifyItems false vs

/-- The members of an object and its closing brace. -/
def stringifyMembers (first : Bool) : List (JsString × Json) → JsString
  | [] => [125]
  | (k, v) :: ms => comma first ++ quote k ++ 58 :: stringify v ++ stringifyMembers false ms

end

theorem stringifyMembers_brace (first : Bool) (ms : List (JsString × Json)) :
    ∃ s, stringifyMembers first ms = s ++ [125] := by
  induction ms generalizing first with
  | nil => exact ⟨[], rfl⟩
  | cons m ms ih =>
    obtain ⟨k, v⟩ := m
    obtain ⟨s, hs⟩ := ih false
    exact ⟨comma first ++ quote k ++ 58 :: stringify v ++ s, by simp [stringifyMembers, hs]⟩

/-- The text of an object stands between braces. -/
theorem stringify_object (ms : List (JsString × Json)) :
    ∃ s, stringify (.object ms) = 123 :: s ++ [125] := by
  obtain ⟨s, hs⟩ := stringifyMembers_brace true ms
  exact ⟨s, by simp [stringify, hs]⟩

theorem stringifyItems_bracket (first : Bool) (vs : List Json) :
    ∃ s, stringifyItems first vs = s ++ [93] := by
  induction vs generalizing first with
  | nil => exact ⟨[], rfl⟩
  | cons v vs ih =>
    obtain ⟨s, hs⟩ := ih false
    exact ⟨comma first ++ stringify v ++ s, by simp [stringifyItems, hs]⟩

/-- The text of an array stands between brackets. -/
theorem stringify_array (vs : List Json) : ∃ s, stringify (.array vs) = 91 :: s ++ [93] := by
  obtain ⟨s, hs⟩ := stringifyItems_bracket true vs
  exact ⟨s, by simp [stringify, hs]⟩

/-! ## `JSON.parse` -/

/-- `null`, `true` and `false`. -/
inductive Word where
  | null
  | true
  | false
  deriving DecidableEq, Repr

def Word.text : Word → JsString
  | .null => js "null"
  | .true => js "true"
  | .false => js "false"

def Word.value : Word → Json
  | .null => .null
  | .true => .bool Bool.true
  | .false => .bool Bool.false

/-- An array or object that is still open. Of an object the key is read, its value is not. -/
inductive Frame where
  | array (items : List Json)
  | object (members : List (JsString × Json)) (key : JsString)

/-- Where in an escape sequence a string is. -/
inductive Escape where
  | plain
  | backslash
  | unicode (digits : Nat) (code : Nat)
  deriving DecidableEq, Repr

/-- What a string literal is for: a value, or the key of an object's next member. -/
inductive Use where
  | value
  | key (members : List (JsString × Json))

/-- What the reader expects inside the innermost open array or object. -/
inductive Mode where
  | value
  | arrayStart
  | objectStart
  | key (members : List (JsString × Json))
  | colon (members : List (JsString × Json)) (key : JsString)
  | string (use : Use) (read : JsString) (e : Escape)
  | number (read : JsString)
  | word (w : Word) (read : Nat)
  | after (v : Json)

structure Reader where
  mode : Mode
  stack : List Frame

/-- White space of the JSON grammar. -/
def isJsonSpace (c : UInt16) : Bool := c = 9 || c = 10 || c = 13 || c = 32

def hexValue (c : UInt16) : Option Nat :=
  if isDigit c then some (c.toNat - 48)
  else if 97 ≤ c ∧ c ≤ 102 then some (c.toNat - 87)
  else if 65 ≤ c ∧ c ≤ 70 then some (c.toNat - 55)
  else none

/-- The code unit that a backslash and `c` stand for. -/
def unescape (c : UInt16) : Option UInt16 :=
  if c = 34 ∨ c = 92 ∨ c = 47 then some c
  else if c = 98 then some 8
  else if c = 102 then some 12
  else if c = 110 then some 10
  else if c = 114 then some 13
  else if c = 116 then some 9
  else none

/-- The closing quote of a string. -/
def Use.close (use : Use) (s : JsString) : Mode :=
  match use with
  | .value => .after (.string s)
  | .key members => .colon members s

/-- Inside a string literal. -/
def stringStep (use : Use) (read : JsString) (e : Escape) (c : UInt16) : Option Mode :=
  match e with
  | .plain =>
    if c = 34 then some (use.close read)
    else if c = 92 then some (.string use read .backslash)
    else if c < 32 then none
    else some (.string use (read ++ [c]) .plain)
  | .backslash =>
    if c = 117 then some (.string use read (.unicode 0 0))
    else (unescape c).map (fun d => .string use (read ++ [d]) .plain)
  | .unicode digits code =>
    (hexValue c).map (fun d =>
      if digits = 3 then .string use (read ++ [UInt16.ofNat (code * 16 + d)]) .plain
      else .string use read (.unicode (digits + 1) (code * 16 + d)))

/-- The first code unit of a value, or white space before it. -/
def valueStep (stack : List Frame) (c : UInt16) : Option Reader :=
  if isJsonSpace c then some ⟨.value, stack⟩
  else if c = 34 then some ⟨.string .value [] .plain, stack⟩
  else if c = 91 then some ⟨.arrayStart, stack⟩
  else if c = 123 then some ⟨.objectStart, stack⟩
  else if c = 110 then some ⟨.word .null 1, stack⟩
  else if c = 116 then some ⟨.word .true 1, stack⟩
  else if c = 102 then some ⟨.word .false 1, stack⟩
  else if (numRun [c]).isSome then some ⟨.number [c], stack⟩
  else none

/-- Behind the value `v`. -/
def afterStep (v : Json) (stack : List Frame) (c : UInt16) : Option Reader :=
  if isJsonSpace c then some ⟨.after v, stack⟩
  else
    match stack with
    | [] => none
    | .array items :: stack =>
      if c = 44 then some ⟨.value, .array (items ++ [v]) :: stack⟩
      else if c = 93 then some ⟨.after (.array (items ++ [v])), stack⟩
      else none
    | .object members k :: stack =>
      if c = 44 then some ⟨.key (members ++ [(k, v)]), stack⟩
      else if c = 125 then some ⟨.after (.object (members ++ [(k, v)])), stack⟩
      else none

/-- One code unit. -/
def Reader.step (r : Reader) (c : UInt16) : Option Reader :=
  match r.mode with
  | .value => valueStep r.stack c
  | .arrayStart =>
    if isJsonSpace c then some r
    else if c = 93 then some ⟨.after (.array []), r.stack⟩
    else valueStep (.array [] :: r.stack) c
  | .objectStart =>
    if isJsonSpace c then some r
    else if c = 125 then some ⟨.after (.object []), r.stack⟩
    else if c = 34 then some ⟨.string (.key []) [] .plain, r.stack⟩
    else none
  | .key members =>
    if isJsonSpace c then some r
    else if c = 34 then some ⟨.string (.key members) [] .plain, r.stack⟩
    else none
  | .colon members k =>
    if isJsonSpace c then some r
    else if c = 58 then some ⟨.value, .object members k :: r.stack⟩
    else none
  | .string use read e => (stringStep use read e c).map (⟨·, r.stack⟩)
  | .number read =>
    if (numRun (read ++ [c])).isSome then some ⟨.number (read ++ [c]), r.stack⟩
    else if h : isNumber read = true then afterStep (.number ⟨read, h⟩) r.stack c
    else none
  | .word w read =>
    if w.text[read]? = some c then
      if read + 1 = w.text.length then some ⟨.after w.value, r.stack⟩
      else some ⟨.word w (read + 1), r.stack⟩
    else none
  | .after v => afterStep v r.stack c

/-- The text ends: one value is complete and nothing is open. -/
def Reader.finish (r : Reader) : Option Json :=
  match r.stack, r.mode with
  | [], .after v => some v
  | [], .number read => if h : isNumber read = true then some (.number ⟨read, h⟩) else none
  | _, _ => none

def Reader.init : Reader := ⟨.value, []⟩

def Reader.run (r : Reader) (text : JsString) : Option Reader := text.foldlM Reader.step r

/-- `JSON.parse`; `none` is a `SyntaxError`. -/
def jsonParse (text : JsString) : Option Json := (Reader.init.run text).bind Reader.finish

example : stringify (.object [(js "a", .array [.null, .string (js "\n")])]) =
    js "\x7b\"a\":[null,\"\\n\"]\x7d" := by decide

example : (jsonParse (js "\x7b\"a\":[-1.5e3, true,\"\\u00e9\"]\x7d ")).map stringify =
    some (js "\x7b\"a\":[-1.5e3,true,\"é\"]\x7d") := by decide +kernel

example : (jsonParse (js "\x7b\"a\":1\x7d\x7b\"a\":1\x7d")).isNone = true := by decide +kernel

end CorpusRunner
