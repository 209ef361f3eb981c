import CorpusRunner.Lib.HarvestText

/-!
# What the harvest leaves behind

Whatever the two files hold, the harvest keeps every entry of the ledger, signals every
process of the registry and empties it; in between it gives an entry to all listed tests
without one, or to the first of those that started first. Cut short any number of times and
run again it leaves the ledger of an uncut run, up to the reasons (`harvestInflight_spec`).
The reads are made anew each time, so the argument is that of a loop over missing keys that
is broken off and started again (`JsMap.setAll_resume`).
-/

namespace CorpusRunner

/-- An entry without its reason. -/
def eraseNote : Json → Json
  | .object members => .object (members.filter (fun m => decide (m.1 ≠ js "note")))
  | v => v

/-- A crash mark without its reason. -/
def bareMark (t : JsString) : Json :=
  .object [(js "test", .string t), (js "status", .string Status.crash.text),
    (js "durationMs", .number (.ofInt 0))]

theorem eraseNote_markEntry (reason : JsString) :
    (fun t => eraseNote (markEntry reason t)) = bareMark := by
  rfl

section Spec

variable {α : Type} [LinearOrder α] (value : JsonNumber → α)

/-- What holds of both modes: no entry changes, every process is signalled, and the registry
reads as empty. -/
structure Harvested.Keeps (f : Files) (h : Harvested) : Prop where
  entries : ∀ t ∈ f.ledger.keys, h.files.ledger.get? t = f.ledger.get? t
  signalled : ∀ e ∈ f.registry, ∀ n, e.pid = some n → value n ≠ value (.ofInt 0) →
    .group n ∈ h.signals ∧ .process n ∈ h.signals
  emptied : h.files.registry = []

theorem harvestInflight_keeps (reason : JsString) (b : Bool) (f : Files) :
    (harvestInflight value reason b f).Keeps value f where
  entries := by
    intro t ht
    have hnot : t ∉ (f.targets value b).map Item.test := by
      intro hmem
      obtain ⟨e, he, rfl⟩ := List.mem_map.mp hmem
      have hun := (List.mem_filter.mp (f.targets_subset value b he)).2
      simp [ht] at hun
    rw [ledger_harvestInflight, JsMap.get?_setAll, if_neg hnot]
  signalled := by
    intro e he n hpid hn
    have hmem : ∀ s ∈ signalsFor value e.pid,
        s ∈ (harvestInflight value reason b f).signals := by
      intro s hs
      exact List.mem_flatMap.mpr ⟨e, he, hs⟩
    rw [hpid, signalsFor, if_neg hn] at hmem
    exact ⟨hmem _ (by simp), hmem _ (by simp)⟩
  emptied := rfl

/-- Every listed test has an entry afterwards, and no other test gets one. -/
theorem mem_keys_harvestInflight (reason : JsString) (f : Files) (t : JsString) :
    t ∈ (harvestInflight value reason false f).files.ledger.keys ↔
      t ∈ f.ledger.keys ∨ t ∈ f.registry.map Item.test := by
  rw [ledger_harvestInflight, f.targets_all, JsMap.mem_keys_setAll, f.map_unrecorded,
    List.mem_filter]
  by_cases ht : t ∈ f.ledger.keys <;> simp [ht]

/-- Of the listed tests without an entry the one that started first gets one. -/
theorem harvestInflight_oldest (reason : JsString) (f : Files) :
    (f.unrecorded = [] ∧
        (harvestInflight value reason true f).files.ledger = f.ledger ∧
        (harvestInflight value reason true f).marked = []) ∨
      ∃ e, FirstMin (Item.started value) f.unrecorded e ∧ e.test ∉ f.ledger.keys ∧
        (harvestInflight value reason true f).files.ledger =
          f.ledger.set e.test (markEntry reason e.test) ∧
        (harvestInflight value reason true f).marked = [e.test] := by
  have hmarked : (harvestInflight value reason true f).marked =
      (f.targets value true).map Item.test := rfl
  rw [ledger_harvestInflight, hmarked]
  rcases f.targets_oldest value with ⟨hnil, h⟩ | ⟨e, hmin, h⟩
  · refine .inl ⟨hnil, ?_, ?_⟩ <;> rw [h] <;> rfl
  · refine .inr ⟨e, hmin, ?_, ?_, ?_⟩
    · simpa using (List.mem_filter.mp hmin.mem).2
    · rw [h]
      rfl
    · rw [h]
      rfl

/-- Of an uncut run, up to the reasons: every listed test without an entry is marked. -/
theorem mapValues_harvestInflight (reason : JsString) (f : Files) :
    (harvestInflight value reason false f).files.ledger.mapValues eraseNote =
      (f.ledger.mapValues eraseNote).setAll bareMark
        ((f.registry.map Item.test).filter
          (fun t => !(f.ledger.mapValues eraseNote).has t)) := by
  rw [ledger_harvestInflight, JsMap.mapValues_setAll, f.targets_all, f.map_unrecorded,
    eraseNote_markEntry]
  simp only [JsMap.has_mapValues]

theorem mapValues_harvestCut (reason : JsString) (n : Nat) (f : Files) :
    (harvestCut value reason n f).ledger.mapValues eraseNote =
      (f.ledger.mapValues eraseNote).setAll bareMark
        (((f.registry.map Item.test).filter
          (fun t => !(f.ledger.mapValues eraseNote).has t)).take n) := by
  have hne : ∀ e ∈ (f.targets value false).take n, e.test ≠ [] := fun e he =>
    Files.unrecorded_ne_nil (List.mem_of_mem_take he)
  rw [harvestCut, f.ledger_mark _ hne, JsMap.mapValues_setAll, f.targets_all, List.map_take,
    f.map_unrecorded, eraseNote_markEntry]
  simp only [JsMap.has_mapValues]

/-- A harvest that is cut short leaves to the next one what it would have done itself. -/
theorem harvestInflight_harvestCut (reason reason' : JsString) (n : Nat) (f : Files) :
    (harvestInflight value reason' false
        (harvestCut value reason n f)).files.ledger.mapValues eraseNote =
      (harvestInflight value reason' false f).files.ledger.mapValues eraseNote := by
  rw [mapValues_harvestInflight, mapValues_harvestInflight, mapValues_harvestCut]
  have hreg : (harvestCut value reason n f).registry = f.registry :=
    f.registry_mark reason _
  rw [hreg]
  exact JsMap.setAll_resume bareMark _ _ n

/-- The same after any number of harvests that were cut short. -/
theorem harvestInflight_harvestCuts (cuts : List (JsString × Nat)) (reason : JsString)
    (f : Files) :
    (harvestInflight value reason false
        (cuts.foldl (fun f c => harvestCut value c.1 c.2 f) f)).files.ledger.mapValues eraseNote =
      (harvestInflight value reason false f).files.ledger.mapValues eraseNote := by
  induction cuts generalizing f with
  | nil => rfl
  | cons c cuts ih => rw [List.foldl_cons, ih, harvestInflight_harvestCut]

/-- The harvest, on any two files: what it leaves in either mode, and that it may be cut short
behind any of its appends, any number of times. -/
theorem harvestInflight_spec (f : Files) (reason : JsString) :
    ((harvestInflight value reason false f).Keeps value f ∧
      ∀ t, t ∈ (harvestInflight value reason false f).files.ledger.keys ↔
        t ∈ f.ledger.keys ∨ t ∈ f.registry.map Item.test) ∧
    ((harvestInflight value reason true f).Keeps value f ∧
      ((f.unrecorded = [] ∧
          (harvestInflight value reason true f).files.ledger = f.ledger ∧
          (harvestInflight value reason true f).marked = []) ∨
        ∃ e, FirstMin (Item.started value) f.unrecorded e ∧ e.test ∉ f.ledger.keys ∧
          (harvestInflight value reason true f).files.ledger =
            f.ledger.set e.test (markEntry reason e.test) ∧
          (harvestInflight value reason true f).marked = [e.test])) ∧
    ∀ cuts : List (JsString × Nat),
      (harvestInflight value reason false
          (cuts.foldl (fun f c => harvestCut value c.1 c.2 f) f)).files.ledger.mapValues
            eraseNote =
        (harvestInflight value reason false f).files.ledger.mapValues eraseNote :=
  ⟨⟨harvestInflight_keeps value reason false f, mem_keys_harvestInflight value reason f⟩,
    ⟨harvestInflight_keeps value reason true f, harvestInflight_oldest value reason f⟩,
    fun cuts => harvestInflight_harvestCuts value cuts reason f⟩

end Spec

end CorpusRunner
