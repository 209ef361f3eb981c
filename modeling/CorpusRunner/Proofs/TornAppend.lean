import CorpusRunner.Lib.LedgerText

/-!
# Appending behind a torn line

A writer that is killed inside `appendFileSync` leaves the file without a line break at its
end. The next record is written behind what is left, on the same line, and `readLedger` skips
the two together (`torn_append_lost`): the record is lost, and so is a whole object that only
lacked its line break. An append is durable exactly behind a complete line (`durable_iff`).
-/

namespace CorpusRunner

/-- One append to `progress.jsonl`: the whole line, or the `written` code units of it that
were in the file when the writer died. -/
inductive Write where
  | whole (r : Rec)
  | cut (r : Rec) (written : Nat)

def Write.text : Write → JsString
  | .whole r => appended r
  | .cut r written => (appended r).take written

/-- The file after the appends of a history, by however many writers. -/
def progressText (writes : List Write) : JsString := writes.flatMap Write.text

/-- A further record, appended in full, is what its test maps to, and no other test's entry
changes. -/
def Durable (text : JsString) : Prop :=
  ∀ r : Rec, r.test ≠ [] → ∀ t,
    (readLedgerText (text ++ appended r)).get? t =
      if t = r.test then some r.toJson else (readLedgerText text).get? t

/-- The line at the end of `text` that has no line break yet, behind the complete lines
`whole`. It is empty or the beginning of an object. -/
structure OpenLine (text whole line : JsString) : Prop where
  split : text = whole ++ line
  terminated : Terminated whole
  oneLine : (10 : UInt16) ∉ line
  brace : line = [] ∨ ∃ s, line = 123 :: s

/-- A line grows by what is written of a record. -/
theorem OpenLine.append {text whole line : JsString} (h : OpenLine text whole line) (r : Rec)
    (n : Nat) :
    OpenLine (text ++ (stringify r.toJson).take n) whole (line ++ (stringify r.toJson).take n)
    where
  split := by rw [h.split, List.append_assoc]
  terminated := h.terminated
  oneLine := by
    rw [List.mem_append, not_or]
    exact ⟨h.oneLine, fun hm => newline_notMem_stringify _ (List.mem_of_mem_take hm)⟩
  brace := by
    rcases h.brace with rfl | ⟨s, rfl⟩
    · obtain ⟨s, hs⟩ : ∃ s, stringify r.toJson = 123 :: s ++ [125] := stringify_object _
      cases n with
      | zero => exact .inl rfl
      | succ n => exact .inr ⟨(s ++ [125]).take n, by simp [hs]⟩
    · exact .inr ⟨_, rfl⟩

/-- Every file is complete lines and an open one. The induction is on the appends: a whole
one completes the open line, a cut one makes it longer. -/
theorem openLine_progressText (writes : List Write) :
    ∃ whole line, OpenLine (progressText writes) whole line := by
  induction writes using List.reverseRecOn with
  | nil => exact ⟨[], [], rfl, .inl rfl, by simp, .inl rfl⟩
  | append_singleton writes w ih =>
    obtain ⟨whole, line, h⟩ := ih
    have htext : progressText (writes ++ [w]) = progressText writes ++ w.text := by
      simp [progressText]
    have hall (r : Rec) : ∃ whole line, OpenLine (progressText writes ++ appended r) whole line :=
      ⟨_, [], (List.append_nil _).symm, terminated_append r, by simp, .inl rfl⟩
    rw [htext]
    cases w with
    | whole r => exact hall r
    | cut r n =>
      by_cases hn : n ≤ (stringify r.toJson).length
      · have hcut : (appended r).take n = (stringify r.toJson).take n :=
          List.take_append_of_le_length hn
        rw [Write.text, hcut]
        exact ⟨_, _, h.append r n⟩
      · have hfull : (appended r).take n = appended r :=
          List.take_of_length_le (by simp [appended]; omega)
        rw [Write.text, hfull]
        exact hall r

namespace OpenLine

variable {text whole line : JsString}

theorem terminated_iff (h : OpenLine text whole line) : Terminated text ↔ line = [] := by
  constructor
  · intro ht
    by_contra hne
    have hlast : text.getLast? = line.getLast? := by
      rw [h.split, List.getLast?_append_of_ne_nil _ hne]
    rcases ht with ht | ht
    · rw [h.split, List.append_eq_nil_iff] at ht
      exact hne ht.2
    · rw [hlast] at ht
      exact h.oneLine (List.mem_of_getLast? ht)
  · intro heq
    subst heq
    rw [h.split, List.append_nil]
    exact h.terminated

/-- A record behind an open line is not read, and nor is what was on the line. -/
theorem readLedgerText_append (h : OpenLine text whole line) (hline : line ≠ []) (r : Rec) :
    readLedgerText (text ++ appended r) = readLedgerText whole := by
  obtain ⟨s, rfl⟩ : ∃ s, line = 123 :: s := h.brace.resolve_left hline
  obtain ⟨u, hu⟩ : ∃ u, stringify r.toJson = 123 :: u ++ [125] := stringify_object _
  have hjoined : (10 : UInt16) ∉ 123 :: s ++ stringify r.toJson := by
    rw [List.mem_append, not_or]
    exact ⟨h.oneLine, newline_notMem_stringify _⟩
  have htrim : trim (123 :: s ++ stringify r.toJson) = 123 :: s ++ stringify r.toJson := by
    have hbraces : 123 :: s ++ stringify r.toJson = 123 :: (s ++ 123 :: u) ++ [125] := by
      simp [hu]
    rw [hbraces, trim_braces]
  -- the first key of a record is `test`
  have hparse : jsonParse (123 :: s ++ stringify r.toJson) = none :=
    jsonParse_torn (by decide) (by decide) (js "est") (.string r.test) r.details
  have hassoc : text ++ appended r = whole ++ (123 :: s ++ stringify r.toJson ++ [10]) := by
    simp [h.split, appended]
  rw [hassoc, readLedgerText_line h.terminated hjoined, readLine_of_none (by rw [htrim, hparse])]

end OpenLine

/-- Behind a torn line every append is lost, and the line with it: the ledger reads as the
complete lines before it. -/
theorem torn_append_lost {writes : List Write} (h : ¬ Terminated (progressText writes)) :
    ∃ whole line, progressText writes = whole ++ line ∧ Terminated whole ∧ line ≠ [] ∧
      ∀ r : Rec, readLedgerText (progressText writes ++ appended r) = readLedgerText whole := by
  obtain ⟨whole, line, hl⟩ := openLine_progressText writes
  have hline : line ≠ [] := fun e => h (hl.terminated_iff.mpr e)
  exact ⟨whole, line, hl.split, hl.terminated, hline, hl.readLedgerText_append hline⟩

/-- An append is durable exactly when the file is empty or ends with a line break, so when the
last append that wrote anything was not cut short. -/
theorem durable_iff (writes : List Write) :
    Durable (progressText writes) ↔ Terminated (progressText writes) := by
  constructor
  · intro hdur
    by_contra ht
    obtain ⟨whole, line, -, -, -, hlost⟩ := torn_append_lost ht
    -- two records of one test would both have to be what the complete lines say
    have h1 := hdur (.crashMark (js "a") []) (by decide) (js "a")
    have h2 := hdur (.crashMark (js "a") (js "b")) (by decide) (js "a")
    rw [hlost, Rec.test_crashMark, if_pos rfl] at h1 h2
    rw [h1] at h2
    simp [Rec.toJson, Rec.details, js, utf16] at h2
  · intro ht r hr t
    rw [readLedgerText_append ht hr, JsMap.get?_set]

/-- A worker is killed before it has written the line break of a test that passed. -/
def tornPass : List Write :=
  [.cut (.ran ⟨js "test-a.js", .pass, 12, some 0, none, [], none⟩) 65]

/-- The crash mark that the supervisor appends next is lost, and so is the verdict, which was
read before. -/
theorem durable_fails_tornPass :
    (readLedgerText (progressText tornPass)).keys = [js "test-a.js"] ∧
      (readLedgerText (progressText tornPass ++
        appended (.crashMark (js "test-b.js") (js "in-flight")))).keys = [] ∧
      ¬ Durable (progressText tornPass) := by
  have hkeys : (readLedgerText (progressText tornPass ++
      appended (.crashMark (js "test-b.js") (js "in-flight")))).keys = [] := by
    decide +kernel
  refine ⟨by decide +kernel, hkeys, ?_⟩
  intro hdur
  have hget := hdur (.crashMark (js "test-b.js") (js "in-flight")) (by decide) (js "test-b.js")
  have hnone := JsMap.get?_eq_none (k := js "test-b.js").mpr (by rw [hkeys]; simp)
  rw [hnone, Rec.test_crashMark, if_pos rfl] at hget
  cases hget

end CorpusRunner
