import CorpusRunner.Lib.InflightText
import CorpusRunner.Misc.ListOrder

/-!
# The harvest on the texts of the two files

`harvestInflight` (`run-corpus.mjs:69-96`) where the files are the texts that `readLedger` and
`readInflight` are given, with what it signals. Numbers of the registry are compared by
`value`, which is how the language reads a literal; nothing depends on more than its order.
-/

namespace CorpusRunner

/-- The two files of a run. Appends are atomic, so the last line of `progress.jsonl` is
complete. -/
structure Files where
  progress : JsString
  terminated : Terminated progress
  inflight : JsString

namespace Files

variable (f : Files)

/-- `readLedger(progressPath)`. -/
def ledger : JsMap JsString Json := readLedgerText f.progress

/-- `readInflight(inflightPath)`. -/
def registry : List Item := readInflightText f.inflight

def appendProgress (r : Rec) : Files :=
  { f with progress := f.progress ++ appended r, terminated := terminated_append r }

def clearInflight : Files := { f with inflight := js "[]" }

/-- `inflight.filter((e) => !done.has(e.test))`. -/
def unrecorded : List Item := f.registry.filter (fun e => !f.ledger.has e.test)

@[simp] theorem registry_appendProgress (r : Rec) :
    (f.appendProgress r).registry = f.registry := rfl

@[simp] theorem ledger_clearInflight : f.clearInflight.ledger = f.ledger := rfl

@[simp] theorem registry_clearInflight : f.clearInflight.registry = [] := rfl

theorem ledger_appendProgress {r : Rec} (h : r.test ≠ []) :
    (f.appendProgress r).ledger = f.ledger.set r.test r.toJson :=
  readLedgerText_append f.terminated h

end Files

/-- What `process.kill` is called with. -/
inductive Signal where
  | group (pid : JsonNumber)
  | process (pid : JsonNumber)
  deriving DecidableEq

/-- What `harvestInflight` does to the files, the signals it sends and what it returns. -/
structure Harvested where
  files : Files
  signals : List Signal
  marked : List JsString

section Harvest

variable {α : Type} [LinearOrder α] (value : JsonNumber → α)

/-- `reapPid`. -/
def signalsFor (pid : Option JsonNumber) : List Signal :=
  match pid with
  | none => []
  | some n => if value n = value (.ofInt 0) then [] else [.group n, .process n]

/-- `e.startedAt || 0`. -/
def Item.started (e : Item) : α := value (e.startedAt.getD (.ofInt 0))

/-- The elements that are marked. -/
def Files.targets (onlyOldest : Bool) (f : Files) : List Item :=
  targetsOf Item.test (Item.started value) onlyOldest f.ledger.has f.registry

/-- `appendProgress({ test, status: "crash", durationMs: 0, note: reason })` for each. -/
def Files.mark (reason : JsString) (f : Files) (targets : List Item) : Files :=
  targets.foldl (fun f e => f.appendProgress (.crashMark e.test reason)) f

/-- `harvestInflight` (`run-corpus.mjs:81-96`). -/
def harvestInflight (reason : JsString) (onlyOldest : Bool) (f : Files) : Harvested :=
  let targets := f.targets value onlyOldest
  { files := (f.mark reason targets).clearInflight
    signals := f.registry.flatMap (fun e => signalsFor value e.pid)
    marked := targets.map Item.test }

/-- `harvestInflight(reason, false)` up to its death behind `appends` of its appends, before
the registry is cleared. -/
def harvestCut (reason : JsString) (appends : Nat) (f : Files) : Files :=
  f.mark reason ((f.targets value false).take appends)

end Harvest

/-! ## What the marks do to the ledger -/

/-- The entry of a test that the harvest marks. -/
def markEntry (reason t : JsString) : Json := (Rec.crashMark t reason).toJson

theorem Files.registry_mark (reason : JsString) (f : Files) (targets : List Item) :
    (f.mark reason targets).registry = f.registry := by
  induction targets generalizing f with
  | nil => rfl
  | cons e targets ih => exact ih (f.appendProgress (.crashMark e.test reason))

theorem Files.ledger_mark (reason : JsString) (f : Files) {targets : List Item}
    (h : ∀ e ∈ targets, e.test ≠ []) :
    (f.mark reason targets).ledger =
      f.ledger.setAll (markEntry reason) (targets.map Item.test) := by
  induction targets generalizing f with
  | nil => rfl
  | cons e targets ih =>
    have he : e.test ≠ [] := h e (by simp)
    change ((f.appendProgress (.crashMark e.test reason)).mark reason targets).ledger = _
    rw [ih _ (fun e' he' => h e' (by simp [he'])),
      f.ledger_appendProgress (r := .crashMark e.test reason) he, List.map_cons,
      JsMap.setAll_cons]
    rfl

theorem Files.unrecorded_ne_nil {f : Files} {e : Item} (h : e ∈ f.unrecorded) : e.test ≠ [] :=
  test_ne_nil_of_mem_readInflightText (List.mem_filter.mp h).1

/-- The tests of the elements without an entry are the listed tests without one. -/
theorem Files.map_unrecorded (f : Files) :
    f.unrecorded.map Item.test =
      (f.registry.map Item.test).filter (fun t => !f.ledger.has t) := by
  rw [List.filter_map]
  rfl

section Targets

variable {α : Type} [LinearOrder α] (value : JsonNumber → α)

theorem Files.targets_eq (b : Bool) (f : Files) :
    f.targets value b =
      if b && decide (1 < f.unrecorded.length) then
        (f.unrecorded.insertionSort (fun a b => a.started value ≤ b.started value)).take 1
      else f.unrecorded := rfl

theorem Files.targets_all (f : Files) : f.targets value false = f.unrecorded := rfl

/-- With `onlyOldest` the first of those that started first is marked, if any. -/
theorem Files.targets_oldest (f : Files) :
    (f.unrecorded = [] ∧ f.targets value true = []) ∨
      ∃ e, FirstMin (Item.started value) f.unrecorded e ∧ f.targets value true = [e] := by
  by_cases hnil : f.unrecorded = []
  · exact .inl ⟨hnil, by simp [targets_eq, hnil]⟩
  · obtain ⟨e, s, hmin, hsort⟩ := head_insertionSort (Item.started value) hnil
    refine .inr ⟨e, hmin, ?_⟩
    by_cases hlen : 1 < f.unrecorded.length
    · simp [targets_eq, hlen, hsort]
    · obtain ⟨a, ha⟩ : ∃ a, f.unrecorded = [a] := by
        apply List.length_eq_one_iff.mp
        have := List.length_pos_of_ne_nil hnil
        omega
      obtain rfl : e = a := by simpa [ha] using hmin.mem
      simp [targets_eq, ha]

theorem Files.targets_subset (b : Bool) (f : Files) :
    f.targets value b ⊆ f.unrecorded := by
  cases b with
  | false => exact fun e he => he
  | true =>
    intro e he
    rcases f.targets_oldest value with ⟨-, h⟩ | ⟨e', hmin, h⟩
    · simp [h] at he
    · obtain rfl : e = e' := by simpa [h] using he
      exact hmin.mem

/-- The ledger that the harvest leaves. -/
theorem ledger_harvestInflight (reason : JsString) (b : Bool) (f : Files) :
    (harvestInflight value reason b f).files.ledger =
      f.ledger.setAll (markEntry reason) ((f.targets value b).map Item.test) :=
  f.ledger_mark reason fun _ he => Files.unrecorded_ne_nil (f.targets_subset value b he)

end Targets

end CorpusRunner
