import CorpusRunner.Lib.Ledger
import CorpusRunner.Misc.JsonTorn

/-!
# The text of the resume ledger

What the two writers append to `progress.jsonl` for a record (`run-corpus.mjs:69`,
`corpus-worker.mjs:110`), and `readLedger` on the text of the file (`corpus-lib.mjs:41-52`).
On whole lines it is the `readLedger` of `CorpusRunner.Lib.Ledger`
(`readLedgerText_ledgerText`).
-/

namespace CorpusRunner

/-! ## Records as objects -/

/-- The text of `rec.status`. -/
def Status.text : Status → JsString
  | .pass => js "pass"
  | .fail => js "fail"
  | .timeout => js "timeout"
  | .crash => js "crash"
  | .skip => js "skip"

/-- A member that is there only when it is set. -/
def optional (k : String) (v : Option Json) : List (JsString × Json) :=
  (v.map (fun v => (js k, v))).toList

/-- The members of a record behind `test`, in the order the source sets them
(`corpus-worker.mjs:55-62`, `run-corpus.mjs:91`). -/
def Rec.details : Rec → List (JsString × Json)
  | .ran r =>
    [(js "status", .string r.status.toStatus.text),
      (js "durationMs", .number (.ofInt r.durationMs)),
      (js "exitCode", (r.exitCode.map (fun c => .number (.ofInt c))).getD .null)] ++
    optional "signal" (r.signal.map .string) ++
    optional "flags" (if r.flags = [] then none else some (.array (r.flags.map .string))) ++
    optional "tail" (r.tail.map .string)
  | .crashMark _ note =>
    [(js "status", .string Status.crash.text), (js "durationMs", .number (.ofInt 0)),
      (js "note", .string note)]

/-- The object of a record. -/
def Rec.toJson (r : Rec) : Json := .object ((js "test", .string r.test) :: r.details)

theorem mem_optional {k : String} {v : Option Json} {m : JsString × Json}
    (h : m ∈ optional k v) : m.1 = js k := by
  simp only [optional, Option.mem_toList, Option.map_eq_some_iff] at h
  obtain ⟨v, -, rfl⟩ := h
  rfl

theorem Rec.details_ne_test (r : Rec) : ∀ m ∈ r.details, m.1 ≠ js "test" := by
  intro m hm
  cases r with
  | ran r =>
    simp only [details, List.mem_append, List.mem_cons, List.not_mem_nil, or_false] at hm
    rcases hm with (((rfl | rfl | rfl) | hm) | hm) | hm
    · change js "status" ≠ _; decide
    · change js "durationMs" ≠ _; decide
    · change js "exitCode" ≠ _; decide
    · rw [mem_optional hm]; decide
    · rw [mem_optional hm]; decide
    · rw [mem_optional hm]; decide
  | crashMark t note =>
    simp only [details, List.mem_cons, List.not_mem_nil, or_false] at hm
    rcases hm with rfl | rfl | rfl
    · change js "status" ≠ _; decide
    · change js "durationMs" ≠ _; decide
    · change js "note" ≠ _; decide

@[simp] theorem Rec.member_test (r : Rec) : r.toJson.member (js "test") = some (.string r.test) :=
  Json.member_first r.details_ne_test

/-! ## Writing and reading -/

/-- What `appendProgress(rec)` appends. -/
def appended (r : Rec) : JsString := stringify r.toJson ++ [10]

/-- The text of whole lines. -/
def ledgerText (lines : List Rec) : JsString := lines.flatMap appended

/-- One line of the file; one that is no JSON is skipped. An `e.test` that is a number, a list
or an object gets an entry too, which no lookup by a test's name finds; it is left out. -/
def readLine (map : JsMap JsString Json) (line : JsString) : JsMap JsString Json :=
  let t := trim line
  if t = [] then map
  else
    match jsonParse t with
    | none => map
    | some e =>
      match e.member (js "test") with
      | some (.string (c :: test)) => map.set (c :: test) e
      | _ => map

/-- `readLedger` on the text of the file. A missing file reads like an empty one. -/
def readLedgerText (text : JsString) : JsMap JsString Json :=
  (splitLines text).foldl readLine .empty

@[simp] theorem readLine_nil (map : JsMap JsString Json) : readLine map [] = map := rfl

theorem readLine_of_none {map : JsMap JsString Json} {line : JsString}
    (h : jsonParse (trim line) = none) : readLine map line = map := by
  simp only [readLine, h, ite_self]

/-- Neither end of an object's text is white space. -/
theorem trim_braces (s : JsString) : trim (123 :: s ++ [125]) = 123 :: s ++ [125] := by
  apply trim_eq_self
  · intro c hc
    obtain rfl : 123 = c := by simpa using hc
    decide
  · intro c hc
    rw [List.getLast?_concat] at hc
    obtain rfl : 125 = c := by simpa using hc
    decide

/-- The line of an object that names its test. -/
theorem readLine_object (map : JsMap JsString Json) {ms : List (JsString × Json)} {t : JsString}
    (hmember : (Json.object ms).member (js "test") = some (.string t)) (ht : t ≠ []) :
    readLine map (stringify (.object ms)) = map.set t (.object ms) := by
  obtain ⟨s, hs⟩ := stringify_object ms
  have htrim : trim (stringify (.object ms)) = stringify (.object ms) := by rw [hs, trim_braces]
  have hne : stringify (.object ms) ≠ [] := by simp [hs]
  obtain ⟨c, t, rfl⟩ := List.exists_cons_of_ne_nil ht
  simp only [readLine, htrim, hne, if_false, jsonParse_stringify, hmember]

theorem readLine_record (map : JsMap JsString Json) {r : Rec} (h : r.test ≠ []) :
    readLine map (stringify r.toJson) = map.set r.test r.toJson :=
  readLine_object map r.member_test h

/-- An entry has the name under which it is found. -/
theorem member_of_get?_readLedgerText {text t : JsString} {e : Json}
    (h : (readLedgerText text).get? t = some e) : e.member (js "test") = some (.string t) := by
  have key : ∀ (lines : List JsString) (map : JsMap JsString Json),
      (∀ t e, map.get? t = some e → e.member (js "test") = some (.string t)) →
      ∀ t e, (lines.foldl readLine map).get? t = some e →
        e.member (js "test") = some (.string t) := by
    intro lines
    induction lines with
    | nil => exact fun map hmap => hmap
    | cons line lines ih =>
      intro map hmap
      apply ih
      intro t e he
      simp only [readLine] at he
      split at he
      · exact hmap t e he
      · split at he
        · exact hmap t e he
        · split at he
          · rename_i c test hmember
            rw [JsMap.get?_set] at he
            split at he
            · rename_i ht
              rw [← Option.some.inj he, ht, hmember]
            · exact hmap t e he
          · exact hmap t e he
  apply key _ _ _ t e h
  intro t e he
  cases he

/-- `text` is empty or its last line is complete. -/
def Terminated (text : JsString) : Prop := text = [] ∨ text.getLast? = some 10

instance (text : JsString) : Decidable (Terminated text) :=
  inferInstanceAs (Decidable (_ ∨ _))

/-- A further complete line. -/
theorem readLedgerText_line {text line : JsString} (h : Terminated text)
    (hline : (10 : UInt16) ∉ line) :
    readLedgerText (text ++ (line ++ [10])) = readLine (readLedgerText text) line := by
  have hlast : splitLines (line ++ [10]) = [line, []] := by
    rw [splitLines_append, splitLines_eq_singleton hline]
    rfl
  rcases h with rfl | h
  · simp [readLedgerText, hlast]
    rfl
  · obtain ⟨s, rfl⟩ : ∃ s, text = s ++ [10] := by
      rw [List.getLast?_eq_some_iff] at h
      exact h
    have hs : splitLines (s ++ [10]) = splitLines s ++ [[]] := splitLines_append s []
    have hsplit : splitLines (s ++ [10] ++ (line ++ [10])) =
        splitLines s ++ [line, []] := by
      rw [List.append_assoc, List.singleton_append, splitLines_append, hlast]
    rw [readLedgerText, readLedgerText, hsplit, hs, List.foldl_append, List.foldl_append]
    rfl

theorem terminated_append {text : JsString} (r : Rec) : Terminated (text ++ appended r) :=
  .inr (by simp [appended])

theorem terminated_ledgerText (lines : List Rec) : Terminated (ledgerText lines) := by
  induction lines using List.reverseRecOn with
  | nil => exact .inl rfl
  | append_singleton lines r _ =>
    rw [ledgerText, List.flatMap_append, List.flatMap_singleton]
    exact terminated_append r

/-- Behind a complete line a record is read back under its test. -/
theorem readLedgerText_append {text : JsString} (h : Terminated text) {r : Rec}
    (hr : r.test ≠ []) :
    readLedgerText (text ++ appended r) = (readLedgerText text).set r.test r.toJson := by
  rw [appended, readLedgerText_line h (newline_notMem_stringify _), readLine_record _ hr]

/-- The map that the text of whole lines is read as is the map of the records. -/
theorem readLedgerText_ledgerText {lines : List Rec} (h : ∀ r ∈ lines, r.test ≠ []) :
    readLedgerText (ledgerText lines) = (readLedger lines).mapValues Rec.toJson := by
  induction lines using List.reverseRecOn with
  | nil => rfl
  | append_singleton lines r ih =>
    have hlines := ih (fun r' hr' => h r' (by simp [hr']))
    have htext : ledgerText (lines ++ [r]) = ledgerText lines ++ appended r := by
      simp [ledgerText]
    rw [htext, readLedgerText_append (terminated_ledgerText lines) (h r (by simp)), hlines,
      readLedger_append, JsMap.mapValues_set]

end CorpusRunner
