import CorpusRunner.Lib.Inflight
import CorpusRunner.Lib.LedgerText

/-!
# The text of the in-flight registry

What `writeInflight` writes to `inflight.json` (`corpus-worker.mjs:26-29`) and what
`readInflight` makes of the text of that file (`corpus-lib.mjs:78-87`), of the older form with
plain strings as well. A text that a worker has written is read as what its map held
(`readInflightText_inflightText`).
-/

namespace CorpusRunner

/-! ## Reading -/

/-- An element of what `readInflight` returns. `startedAt` and `pid` are `none` where they are
missing or no number. -/
structure Item where
  test : JsString
  startedAt : Option JsonNumber
  pid : Option JsonNumber
  deriving DecidableEq

def Json.number? : Json → Option JsonNumber
  | .number n => some n
  | _ => none

/-- An element of the array, where it has a test. A test that is no string is left out, as by
`readLine`. -/
def Item.ofJson (e : Json) : Option Item :=
  match e with
  | .string [] => none
  | .string (c :: test) => some ⟨c :: test, some (.ofInt 0), none⟩
  | e =>
    match e.member (js "test") with
    | some (.string (c :: test)) =>
      some ⟨c :: test, (e.member (js "startedAt")).bind Json.number?,
        (e.member (js "pid")).bind Json.number?⟩
    | _ => none

/-- `readInflight` on the text of the file. A missing file reads like an empty one. -/
def readInflightText (text : JsString) : List Item :=
  match jsonParse text with
  | some (.array items) => items.filterMap Item.ofJson
  | _ => []

theorem Item.test_ne_nil {e : Json} {i : Item} (h : Item.ofJson e = some i) : i.test ≠ [] := by
  unfold Item.ofJson at h
  split at h
  · cases h
  · obtain rfl := Option.some.inj h
    exact List.cons_ne_nil _ _
  · split at h
    · obtain rfl := Option.some.inj h
      exact List.cons_ne_nil _ _
    · cases h

/-- Every element names a test. -/
theorem test_ne_nil_of_mem_readInflightText {text : JsString} {i : Item}
    (h : i ∈ readInflightText text) : i.test ≠ [] := by
  unfold readInflightText at h
  split at h
  · obtain ⟨e, -, he⟩ := List.mem_filterMap.mp h
    exact Item.test_ne_nil he
  · cases h

@[simp] theorem readInflightText_cleared : readInflightText (js "[]") = [] := by
  rfl

/-- Tolerant of a partial write: what is no JSON holds no test. -/
theorem readInflightText_of_none {text : JsString} (h : jsonParse text = none) :
    readInflightText text = [] := by
  rw [readInflightText, h]

/-! ## Writing -/

def JsonNumber.ofNat (n : Nat) : JsonNumber := .ofInt n

def Entry.toJson (e : Entry) : Json :=
  .object [(js "test", .string e.test), (js "startedAt", .number (.ofNat e.startedAt)),
    (js "pid", (e.pid.map (fun p => .number (.ofNat p))).getD .null)]

/-- What is written of the entries of the map. -/
def entriesText (entries : List Entry) : JsString := stringify (.array (entries.map Entry.toJson))

/-- What `writeInflight` writes. -/
def inflightText (inFlight : JsMap JsString Reg) : JsString := entriesText (registry inFlight)

/-- An entry as it is read back. -/
def Entry.item (e : Entry) : Item :=
  ⟨e.test, some (.ofNat e.startedAt), e.pid.map .ofNat⟩

theorem Item.ofJson_toJson {e : Entry} (h : e.test ≠ []) :
    Item.ofJson e.toJson = some e.item := by
  obtain ⟨test, startedAt, pid⟩ := e
  obtain ⟨c, t, rfl⟩ := List.exists_cons_of_ne_nil h
  cases pid <;> rfl

theorem readInflightText_array (items : List Json) :
    readInflightText (stringify (.array items)) = items.filterMap Item.ofJson := by
  rw [readInflightText, jsonParse_stringify]

theorem readInflightText_entriesText {entries : List Entry} (h : ∀ e ∈ entries, e.test ≠ []) :
    readInflightText (entriesText entries) = entries.map Entry.item := by
  rw [entriesText, readInflightText_array]
  induction entries with
  | nil => rfl
  | cons e entries ih =>
    have he := Item.ofJson_toJson (h e (by simp))
    have hrest := ih (fun e' he' => h e' (by simp [he']))
    rw [List.map_cons, List.filterMap_cons_some he, List.map_cons, hrest]

/-- What a worker has written is read as what its map held. -/
theorem readInflightText_inflightText {inFlight : JsMap JsString Reg}
    (h : ∀ t ∈ inFlight.keys, t ≠ []) :
    readInflightText (inflightText inFlight) = (registry inFlight).map Entry.item := by
  apply readInflightText_entriesText
  intro e he
  apply h
  rw [← listed_registry]
  exact List.mem_map_of_mem he

end CorpusRunner
