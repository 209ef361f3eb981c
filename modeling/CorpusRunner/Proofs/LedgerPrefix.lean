import CorpusRunner.Lib.LedgerText
import CorpusRunner.Misc.Appends

/-!
# Reading the ledger at any moment

The file holds the records appended so far and possibly the beginning of a further line.
Whatever the cut, `readLedger` gives the map of the records whose text is there as a whole
(`readLedgerText_polled`), so a reader that polls the file sees no wrong record and never
fewer tests than before.
-/

namespace CorpusRunner

/-- A record as `readLedger` takes it: an object whose `test` is a non-empty string. Its other
members are arbitrary. -/
structure LedgerRecord where
  members : List (JsString × Json)
  test : JsString
  member_test : (Json.object members).member (js "test") = some (.string test)
  test_ne : test ≠ []

namespace LedgerRecord

def json (r : LedgerRecord) : Json := .object r.members

/-- What `appendProgress(rec)` appends. -/
def line (r : LedgerRecord) : JsString := stringify r.json ++ [10]

/-- The text of a file to which records were appended one by one. -/
def fileText (rs : List LedgerRecord) : JsString := rs.flatMap line

/-- The last record of a test wins. -/
def lastWins (rs : List LedgerRecord) : JsMap JsString Json :=
  rs.foldl (fun map r => map.set r.test r.json) .empty

end LedgerRecord

/-- The records that the two writers build. -/
def Rec.ledgerRecord (r : Rec) (h : r.test ≠ []) : LedgerRecord :=
  ⟨(js "test", .string r.test) :: r.details, r.test, r.member_test, h⟩

namespace LedgerRecord

theorem newline_notMem (r : LedgerRecord) : (10 : UInt16) ∉ stringify r.json :=
  newline_notMem_stringify _

theorem readLine_whole (map : JsMap JsString Json) (r : LedgerRecord) :
    readLine map (stringify r.json) = map.set r.test r.json :=
  readLine_object map r.member_test r.test_ne

/-- The beginning of a line is no JSON, also after `trim`, which takes nothing from its
front. -/
theorem readLine_cut (map : JsMap JsString Json) {r : LedgerRecord} {p : JsString}
    (hp : p <+: stringify r.json) (hne : p ≠ stringify r.json) : readLine map p = map := by
  obtain ⟨s, hs⟩ : ∃ s, stringify r.json = 123 :: s ++ [125] := stringify_object _
  cases p with
  | nil => rfl
  | cons c p =>
    obtain rfl : c = 123 := by
      rw [hs, List.cons_append, List.cons_prefix_cons] at hp
      exact hp.1
    have hfront : trim (123 :: p) <+: 123 :: p := List.rdropWhile_prefix _ _
    apply readLine_of_none
    apply jsonParse_take (.inr ⟨_, rfl⟩) (hfront.trans hp)
    intro heq
    -- a line that `trim` makes whole was whole
    exact hne (hp.eq_of_length_le (heq ▸ hfront.length_le))

theorem stringify_ne_nil (r : LedgerRecord) : stringify r.json ≠ [] := by
  obtain ⟨s, hs⟩ : ∃ s, stringify r.json = 123 :: s ++ [125] := stringify_object _
  simp [hs]

/-- The file as a reader sees it that has its code units. -/
def unitFormat : LineFormat LedgerRecord UInt16 where
  text r := stringify r.json
  eol := 10
  text_ne := stringify_ne_nil

/-- The records whose whole JSON text lies in `p`, the beginning of the file. -/
def wholeIn (p : JsString) (rs : List LedgerRecord) : List LedgerRecord := unitFormat.whole p rs

theorem splitLines_beginning {r : LedgerRecord} {p : JsString} (h : p <+: stringify r.json) :
    splitLines p = [p] :=
  splitLines_eq_singleton (fun hm => r.newline_notMem (h.subset hm))

theorem splitLines_line (r : LedgerRecord) (q : JsString) :
    splitLines (r.line ++ q) = stringify r.json :: splitLines q := by
  rw [line, List.append_assoc, List.singleton_append, splitLines_append,
    splitLines_beginning List.prefix_rfl]
  rfl

theorem readLedgerText_cut {rs : List LedgerRecord} {p : JsString} (h : p <+: fileText rs) :
    readLedgerText p = lastWins (wholeIn p rs) := by
  refine unitFormat.read_eq_foldl (fun p map => (splitLines p).foldl readLine map) (fun _ => rfl)
    ?_ ?_ ?_ h .empty
  · intro r p map hp hne
    simp only [splitLines_beginning hp]
    exact readLine_cut map hp hne
  · intro r map
    simp only [unitFormat, splitLines_beginning List.prefix_rfl]
    exact readLine_whole map r
  · intro r q map
    have hsplit := splitLines_line r q
    simp only [line] at hsplit
    simp only [LineFormat.line, unitFormat, hsplit, List.foldl_cons, readLine_whole]

theorem mem_keys_lastWins {rs : List LedgerRecord} {t : JsString} :
    t ∈ (lastWins rs).keys ↔ t ∈ rs.map test := by
  induction rs using List.reverseRecOn with
  | nil => simp [lastWins]
  | append_singleton rs r ih =>
    have hset : lastWins (rs ++ [r]) = (lastWins rs).set r.test r.json := by simp [lastWins]
    simp [hset, ih]

/-- No test goes missing as records come in behind. -/
theorem keys_lastWins_mono {rs rs' : List LedgerRecord} (h : rs <+: rs') :
    (lastWins rs).keys ⊆ (lastWins rs').keys := by
  intro t ht
  rw [mem_keys_lastWins] at ht ⊢
  exact (h.map test).subset ht

/-- Whenever the file is read while records are appended to it, or after the writer died: the
map is that of the records that are there as a whole, and no test that was in it goes
missing later. -/
theorem readLedgerText_polled (rs : List LedgerRecord) (p : JsString)
    (h : p <+: fileText rs) :
    readLedgerText p = lastWins (wholeIn p rs) ∧
      ∀ q, p <+: q → q <+: fileText rs →
        (readLedgerText p).keys ⊆ (readLedgerText q).keys := by
  refine ⟨readLedgerText_cut h, ?_⟩
  intro q hpq hq
  rw [readLedgerText_cut h, readLedgerText_cut hq]
  exact keys_lastWins_mono (unitFormat.whole_mono hpq rs)

/-- Two crash marks; the file is cut inside the escape in the second one's name. -/
theorem readLedgerText_polled_cut :
    readLedgerText ((fileText [
        (Rec.crashMark (js "test-a.js") (js "hung")).ledgerRecord (by decide),
        (Rec.crashMark (js "b\n") []).ledgerRecord (by decide)]).take 78) =
      lastWins [(Rec.crashMark (js "test-a.js") (js "hung")).ledgerRecord (by decide)] := by
  have h := (readLedgerText_polled [
    (Rec.crashMark (js "test-a.js") (js "hung")).ledgerRecord (by decide),
    (Rec.crashMark (js "b\n") []).ledgerRecord (by decide)] _ (List.take_prefix 78 _)).1
  rw [h]
  rfl

end LedgerRecord

end CorpusRunner
