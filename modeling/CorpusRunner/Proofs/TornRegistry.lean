import CorpusRunner.Lib.HarvestText

/-!
# A registry write that is cut short

`writeInflight` rewrites `inflight.json` in place, so a kill inside it leaves the beginning of
the new text, possibly nothing. No part of an array's text is JSON, and `readInflight` takes
what is no JSON for an empty registry: every test that was running is forgotten
(`readInflightText_torn`), unless none of them was to be in the new registry
(`survives_iff`).
-/

namespace CorpusRunner

/-- Every test that is in both registries is read back, with its process. -/
def Survives (old new : JsMap JsString Reg) (file : JsString) : Prop :=
  ∀ t ∈ old.keys, ∀ v, new.get? t = some v →
    ∃ i ∈ readInflightText file, i.test = t ∧ i.pid = v.pid.map .ofNat

/-- What a write of the map left when it was cut is read as an empty registry. -/
theorem readInflightText_torn {inFlight : JsMap JsString Reg} {file : JsString}
    (hfile : file <+: inflightText inFlight) (hcut : file ≠ inflightText inFlight) :
    readInflightText file = [] := by
  apply readInflightText_of_none
  apply jsonParse_take (.inl ⟨_, rfl⟩) hfile hcut

/-- The harvest then marks nothing and signals nobody, whichever mode it is called in. -/
theorem harvestInflight_torn {α : Type} [LinearOrder α] (value : JsonNumber → α)
    (reason : JsString) (b : Bool) {inFlight : JsMap JsString Reg} {f : Files}
    (hfile : f.inflight <+: inflightText inFlight) (hcut : f.inflight ≠ inflightText inFlight) :
    (harvestInflight value reason b f).marked = [] ∧
      (harvestInflight value reason b f).signals = [] := by
  have hregistry : f.registry = [] := readInflightText_torn hfile hcut
  have hunrecorded : f.unrecorded = [] := by rw [Files.unrecorded, hregistry]; rfl
  have htargets : f.targets value b = [] := by simp [Files.targets_eq, hunrecorded]
  refine ⟨?_, ?_⟩
  · change (f.targets value b).map Item.test = []
    rw [htargets]
    rfl
  · change f.registry.flatMap (fun e => signalsFor value e.pid) = []
    rw [hregistry]
    rfl

/-- The whole text holds every test of the map. -/
theorem survives_whole {old new : JsMap JsString Reg} (hnew : ∀ t ∈ new.keys, t ≠ []) :
    Survives old new (inflightText new) := by
  intro t _ v hv
  rw [readInflightText_inflightText hnew]
  refine ⟨Entry.item ⟨t, v.startedAt, v.pid⟩, ?_, rfl, rfl⟩
  apply List.mem_map_of_mem
  exact List.mem_map.mpr ⟨(t, v), JsMap.get?_eq_some.mp hv, rfl⟩

/-- Behind a write of the registry, cut or not, the running tests are there exactly when the
write was complete or none of them is in the new registry. -/
theorem survives_iff {old new : JsMap JsString Reg} (hnew : ∀ t ∈ new.keys, t ≠ [])
    {file : JsString} (hfile : file <+: inflightText new) :
    Survives old new file ↔ file = inflightText new ∨ ∀ t ∈ old.keys, t ∉ new.keys := by
  constructor
  · intro hs
    by_cases hcut : file = inflightText new
    · exact .inl hcut
    · refine .inr fun t hold hmem => ?_
      cases hv : new.get? t with
      | none => exact JsMap.get?_eq_none.mp hv hmem
      | some v =>
        obtain ⟨i, hi, -⟩ := hs t hold v hv
        rw [readInflightText_torn hfile hcut] at hi
        cases hi
  · rintro (rfl | hnone)
    · exact survives_whole hnew
    · intro t hold v hv
      have hmem : t ∈ new.keys := JsMap.mem_keys_of_mem_entries (JsMap.get?_eq_some.mp hv)
      exact absurd hmem (hnone t hold)

/-- One test is running. -/
def runningOne : JsMap JsString Reg := JsMap.empty.set (js "test-a.js") ⟨1000, some 7⟩

/-- A second one is claimed. -/
def claimedSecond : JsMap JsString Reg := runningOne.set (js "test-b.js") ⟨2000, none⟩

theorem survives_iff_claimedSecond :
    Survives runningOne claimedSecond ((inflightText claimedSecond).take 20) ↔
      (inflightText claimedSecond).take 20 = inflightText claimedSecond ∨
        ∀ t ∈ runningOne.keys, t ∉ claimedSecond.keys :=
  survives_iff (by decide) (List.take_prefix 20 _)

/-- The worker is killed while it registers the second test, before or after any of the text
is written: the first one, which is running as process 7, is forgotten. -/
theorem survives_fails_claimedSecond :
    readInflightText [] = [] ∧ readInflightText ((inflightText claimedSecond).take 20) = [] ∧
      ¬ Survives runningOne claimedSecond [] ∧
      ¬ Survives runningOne claimedSecond ((inflightText claimedSecond).take 20) := by
  have hcut : readInflightText ((inflightText claimedSecond).take 20) = [] := by
    decide +kernel
  refine ⟨rfl, hcut, ?_, ?_⟩
  · intro hs
    obtain ⟨i, hi, -⟩ := hs (js "test-a.js") (by decide) ⟨1000, some 7⟩ (by decide)
    cases hi
  · intro hs
    obtain ⟨i, hi, -⟩ := hs (js "test-a.js") (by decide) ⟨1000, some 7⟩ (by decide)
    rw [hcut] at hi
    cases hi

end CorpusRunner
