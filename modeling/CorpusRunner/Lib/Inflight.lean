import CorpusRunner.Lib.Ledger
import Mathlib.Data.List.Sort

/-!
# The in-flight registry

`inflight.json` mirrors the worker's `inFlight` map (`corpus-worker.mjs:23-29`); the harvest
chooses the entries it marks `crash` from it (`run-corpus.mjs:81-96`).
-/

namespace CorpusRunner

abbrev Pid := Nat

/-- A value of the worker's `inFlight` map; `pid` is `null` until the child exists. -/
structure Reg where
  startedAt : Nat
  pid : Option Pid
  deriving DecidableEq, Repr

/-- An element of `inflight.json`. -/
structure Entry where
  test : JsString
  startedAt : Nat
  pid : Option Pid
  deriving DecidableEq, Repr

/-- The array `writeInflight` writes (`corpus-worker.mjs:27`). -/
def registry (inFlight : JsMap JsString Reg) : List Entry :=
  inFlight.entries.map (fun e => ⟨e.1, e.2.startedAt, e.2.pid⟩)

/-- The elements `harvestInflight` marks: those that are not done, and with `onlyOldest` just the
first of them in the stable order by when they were started (`run-corpus.mjs:85-88`). -/
def targetsOf {ε α : Type} [LinearOrder α] (test : ε → JsString) (started : ε → α)
    (onlyOldest : Bool) (done : JsString → Bool) (inflight : List ε) : List ε :=
  let targets := inflight.filter (fun e => !done (test e))
  if onlyOldest && decide (1 < targets.length) then
    (targets.insertionSort (fun a b => started a ≤ started b)).take 1
  else targets

/-- Elements that are tested, ordered and looked up alike are chosen alike. -/
theorem targetsOf_map {ε ε' α α' : Type} [LinearOrder α] [LinearOrder α'] {test : ε → JsString}
    {started : ε → α} {test' : ε' → JsString} {started' : ε' → α'} {done done' : JsString → Bool}
    (f : ε → ε') (onlyOldest : Bool) (inflight : List ε) (htest : ∀ e, test' (f e) = test e)
    (hstarted : ∀ a b, started' (f a) ≤ started' (f b) ↔ started a ≤ started b)
    (hdone : ∀ t, done' t = done t) :
    targetsOf test' started' onlyOldest done' (inflight.map f) =
      (targetsOf test started onlyOldest done inflight).map f := by
  have hfilter : (inflight.map f).filter (fun e => !done' (test' e)) =
      (inflight.filter (fun e => !done (test e))).map f := by
    rw [List.filter_map]
    simp only [Function.comp_def, htest, hdone]
  have hsort := List.map_insertionSort (fun a b => started a ≤ started b)
    (fun a b => started' a ≤ started' b) f (inflight.filter (fun e => !done (test e)))
    (fun a _ b _ => (hstarted a b).symm)
  simp only [targetsOf, hfilter, List.length_map]
  split
  · rw [List.map_take, hsort]
  · rfl

/-- The entries `harvestInflight` marks. -/
def harvestTargets (onlyOldest : Bool) (inflight : List Entry)
    (done : JsMap JsString Rec) : List Entry :=
  targetsOf Entry.test Entry.startedAt onlyOldest done.has inflight

/-- The tests a registry lists. -/
def listed (inflight : List Entry) : List JsString := inflight.map Entry.test

@[simp] theorem registry_empty : registry .empty = [] := rfl

@[simp] theorem listed_nil : listed [] = [] := rfl

@[simp] theorem listed_registry (m : JsMap JsString Reg) : listed (registry m) = m.keys := by
  simp [listed, registry, JsMap.keys]

/-- What the harvest marks was listed and had no line. -/
theorem mem_harvestTargets {b : Bool} {inflight : List Entry} {lines : List Rec} {e : Entry}
    (h : e ∈ harvestTargets b inflight (readLedger lines)) :
    e ∈ inflight ∧ e.test ∉ recorded lines := by
  have key : ∀ e ∈ inflight.filter (fun e => !(readLedger lines).has e.test),
      e ∈ inflight ∧ e.test ∉ recorded lines := by
    intro e he
    simpa using he
  unfold harvestTargets targetsOf at h
  simp only at h
  split at h
  · exact key e ((List.mem_insertionSort _).mp (List.mem_of_mem_take h))
  · exact key e h

/-- Without `onlyOldest` every listed test that has no line is marked. -/
theorem mem_harvestTargets_all {inflight : List Entry} {lines : List Rec} {e : Entry}
    (h : e ∈ inflight) (hr : e.test ∉ recorded lines) :
    e ∈ harvestTargets false inflight (readLedger lines) := by
  simp only [harvestTargets, targetsOf, Bool.false_and, Bool.false_eq_true, if_false,
    List.mem_filter]
  refine ⟨h, ?_⟩
  simpa using hr

theorem nodup_harvestTargets {b : Bool} {inflight : List Entry} {lines : List Rec}
    (h : (listed inflight).Nodup) :
    (listed (harvestTargets b inflight (readLedger lines))).Nodup := by
  have hf : (listed (inflight.filter (fun e => !(readLedger lines).has e.test))).Nodup :=
    List.Nodup.sublist (List.filter_sublist.map _) h
  unfold harvestTargets targetsOf
  simp only
  split
  · refine List.Nodup.sublist ((List.take_sublist 1 _).map _) ?_
    exact ((List.perm_insertionSort _ _).map _).nodup_iff.mpr hf
  · exact hf

/-- The harvest of a stalled or failed worker marks at most one test. -/
theorem length_harvestTargets_oldest (inflight : List Entry) (lines : List Rec) :
    (harvestTargets true inflight (readLedger lines)).length ≤ 1 := by
  unfold harvestTargets targetsOf
  simp only [Bool.true_and]
  split
  · simp
  · rename_i h
    simpa using h

/-- If the entries stand in the order in which they were started, the harvest marks the first
one without a line. -/
theorem harvestTargets_of_sorted (b : Bool) {inflight : List Entry} (lines : List Rec)
    (h : inflight.Pairwise (fun a b => a.startedAt ≤ b.startedAt)) :
    ∃ l, inflight.filter (fun e => !(readLedger lines).has e.test) =
      harvestTargets b inflight (readLedger lines) ++ l ∧
      (harvestTargets b inflight (readLedger lines) = [] → l = []) := by
  have hf := h.filter (fun e => !(readLedger lines).has e.test)
  unfold harvestTargets targetsOf
  simp only
  split
  · rename_i hc
    rw [hf.insertionSort_eq]
    refine ⟨_, (List.take_append_drop 1 _).symm, fun hnil => ?_⟩
    simp only [Bool.and_eq_true, decide_eq_true_eq] at hc
    cases hl : inflight.filter (fun e => !(readLedger lines).has e.test) with
    | nil => simp [hl] at hc
    | cons a l => simp [hl] at hnil
  · exact ⟨[], by simp⟩

end CorpusRunner
