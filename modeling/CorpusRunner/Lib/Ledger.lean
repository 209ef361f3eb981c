import CorpusRunner.Misc.JsMap
import CorpusRunner.Misc.JsString

/-!
# The resume ledger

The records of `progress.jsonl` and the map `readLedger` makes of them
(`corpus-lib.mjs:41-52`). Here the file is the list of its complete lines; that reading its
text gives the same map is the subject of `CorpusRunner.Lib.LedgerText`.
-/

namespace CorpusRunner

/-- `rec.status`, over the statuses of both writers. -/
inductive Status where
  | pass
  | fail
  | timeout
  | crash
  | skip
  deriving DecidableEq, Repr

/-- The statuses `runOne` gives (`corpus-worker.mjs:47-64`); `crash` is the supervisor's. -/
inductive RunStatus where
  | pass
  | fail
  | timeout
  | skip
  deriving DecidableEq, Repr

def RunStatus.toStatus : RunStatus → Status
  | .pass => .pass
  | .fail => .fail
  | .timeout => .timeout
  | .skip => .skip

/-- The record `finalize` builds (`corpus-worker.mjs:55-62`). `signal` and `tail` are absent
unless set, `flags` is absent when empty, `exitCode` is `null` for `none`. -/
structure RunRec where
  test : JsString
  status : RunStatus
  durationMs : Int
  exitCode : Option Int
  signal : Option JsString
  flags : List JsString
  tail : Option JsString
  deriving DecidableEq, Repr

/-- A line of `progress.jsonl`: what `runOne` produced (`corpus-worker.mjs:110`), or the
supervisor's crash mark `{ test, status: "crash", durationMs: 0, note }`
(`run-corpus.mjs:91`). -/
inductive Rec where
  | ran (r : RunRec)
  | crashMark (test note : JsString)
  deriving DecidableEq, Repr

namespace Rec

def test : Rec → JsString
  | .ran r => r.test
  | .crashMark t _ => t

def status : Rec → Status
  | .ran r => r.status.toStatus
  | .crashMark _ _ => .crash

def isCrashMark : Rec → Bool
  | .ran _ => false
  | .crashMark _ _ => true

@[simp] theorem test_ran (r : RunRec) : (Rec.ran r).test = r.test := rfl
@[simp] theorem test_crashMark (t n : JsString) : (Rec.crashMark t n).test = t := rfl
@[simp] theorem status_ran (r : RunRec) : (Rec.ran r).status = r.status.toStatus := rfl
@[simp] theorem status_crashMark (t n : JsString) : (Rec.crashMark t n).status = .crash := rfl

end Rec

/-- `readLedger`: the last line of a test wins (`corpus-lib.mjs:43-52`). -/
def readLedger (lines : List Rec) : JsMap JsString Rec :=
  lines.foldl (fun map e => map.set e.test e) .empty

/-- The tests that have a line. -/
def recorded (lines : List Rec) : List JsString := lines.map Rec.test

@[simp] theorem recorded_nil : recorded [] = [] := rfl

@[simp] theorem recorded_append (l l' : List Rec) :
    recorded (l ++ l') = recorded l ++ recorded l' := List.map_append

@[simp] theorem recorded_singleton (r : Rec) : recorded [r] = [r.test] := rfl

theorem readLedger_append (l : List Rec) (r : Rec) :
    readLedger (l ++ [r]) = (readLedger l).set r.test r := by
  simp [readLedger]

@[simp] theorem mem_keys_readLedger {l : List Rec} {t : JsString} :
    t ∈ (readLedger l).keys ↔ t ∈ recorded l := by
  induction l using List.reverseRecOn with
  | nil => simp [readLedger]
  | append_singleton l r ih => simp [readLedger_append, ih]

@[simp] theorem has_readLedger {l : List Rec} {t : JsString} :
    (readLedger l).has t = true ↔ t ∈ recorded l := by
  rw [JsMap.has_iff, mem_keys_readLedger]

/-- A further line counts towards `size` when its test had none. -/
theorem size_readLedger_append (l : List Rec) (r : Rec) :
    (readLedger (l ++ [r])).size =
      if r.test ∈ recorded l then (readLedger l).size else (readLedger l).size + 1 := by
  rw [readLedger_append, JsMap.size_set]
  simp only [mem_keys_readLedger]

/-- As long as no test has two lines, the entry of a test is its line. -/
theorem get?_readLedger_of_nodup {l : List Rec} (h : (recorded l).Nodup) {r : Rec}
    (hr : r ∈ l) : (readLedger l).get? r.test = some r := by
  induction l using List.reverseRecOn with
  | nil => simp at hr
  | append_singleton l r' ih =>
    rw [recorded_append, recorded_singleton, List.nodup_append] at h
    obtain ⟨hl, -, hne⟩ := h
    rw [readLedger_append, JsMap.get?_set]
    rcases List.mem_append.mp hr with hr | hr
    · have : r.test ≠ r'.test := hne _ (List.mem_map_of_mem hr) _ (by simp)
      rw [if_neg this, ih hl hr]
    · rw [List.mem_singleton] at hr
      rw [hr, if_pos rfl]

/-- What the map holds is a line of the file. -/
theorem mem_of_get?_readLedger {l : List Rec} {t : JsString} {r : Rec}
    (h : (readLedger l).get? t = some r) : r ∈ l ∧ r.test = t := by
  induction l using List.reverseRecOn with
  | nil => simp [readLedger, JsMap.get?] at h
  | append_singleton l r' ih =>
    rw [readLedger_append, JsMap.get?_set] at h
    split at h
    · rename_i ht
      simp only [Option.some.injEq] at h
      exact ⟨by simp [h], by rw [← h, ht]⟩
    · obtain ⟨h1, h2⟩ := ih h
      exact ⟨by simp [h1], h2⟩

theorem get?_readLedger_isSome {l : List Rec} {t : JsString} (h : t ∈ recorded l) :
    ∃ r, (readLedger l).get? t = some r := by
  cases hg : (readLedger l).get? t with
  | some r => exact ⟨r, rfl⟩
  | none =>
    rw [JsMap.get?_eq_none, mem_keys_readLedger] at hg
    exact absurd h hg

end CorpusRunner
