import CorpusRunner.Lib.TestSet
import CorpusRunner.Misc.Path
import Mathlib.Data.Finset.Dedup
import Mathlib.Data.Finset.Card

/-!
# What a selection promises

Whatever selects the tests, they are names of the listing in strictly increasing order, no
file is selected under two of them, and a limit takes the first of them. Filters keep to it
(`selects_filters`). A manifest does not go through the listing: its ids are resolved as
paths, and the limit is not looked at, so it keeps to it exactly when no id that exists has a
`/` and the limit leaves room for all of them (`selects_manifest`).
-/

namespace CorpusRunner

/-- A directory of tests within a file system: the segments of its path, the names in it, and
which absolute paths exist. -/
structure TestDir where
  parallelDir : List JsString
  listing : List JsString
  listing_nodup : listing.Nodup
  isName : ∀ n ∈ listing, IsName n
  existsPath : List JsString → Bool
  mem_listing : ∀ n, IsName n → existsPath (parallelDir ++ [n]) = true → n ∈ listing

/-- What test selection sees of it. -/
def TestDir.corpus (d : TestDir) : Corpus where
  listing := d.listing
  listing_nodup := d.listing_nodup
  existsSync := fun id => d.existsPath (resolvePath d.parallelDir id)

/-- What is promised of a selection. -/
structure Selects (d : TestDir) (listFile : Option JsString) (filters : List JsString)
    (limit : Int) : Prop where
  increasing : (resolveTestSet d.corpus listFile filters limit).Pairwise (· < ·)
  listed : ∀ t ∈ resolveTestSet d.corpus listFile filters limit, t ∈ selectTests d.corpus [] 0
  noAlias : ∀ s ∈ resolveTestSet d.corpus listFile filters limit,
    ∀ t ∈ resolveTestSet d.corpus listFile filters limit,
    resolvePath d.parallelDir s = resolvePath d.parallelDir t → s = t
  limited : 0 < limit → resolveTestSet d.corpus listFile filters limit =
    (resolveTestSet d.corpus listFile filters 0).take limit.toNat

/-! ## Order -/

theorem mem_sortStrings {l : List JsString} {t : JsString} : t ∈ sortStrings l ↔ t ∈ l :=
  (sortStrings_perm l).mem_iff

theorem sortStrings_increasing {l : List JsString} (h : l.Nodup) :
    (sortStrings l).Pairwise (· < ·) := by
  have hle : (sortStrings l).Pairwise (· ≤ ·) := List.pairwise_insertionSort _ l
  have hne : (sortStrings l).Pairwise (· ≠ ·) := (sortStrings_perm l).nodup_iff.mpr h
  exact (hle.and hne).imp fun h => Std.lt_of_le_of_ne h.1 h.2

/-! ## Filters -/

theorem mem_selectTests_all {c : Corpus} {t : JsString} :
    t ∈ selectTests c [] 0 ↔
      t ∈ c.listing ∧ startsWith t (js "test-") = true ∧ endsWith t (js ".js") = true := by
  simp [selectTests, mem_sortStrings]

/-- A limit takes the first tests. -/
theorem selectTests_limit (c : Corpus) (filters : List JsString) {limit : Int}
    (h : 0 < limit) :
    selectTests c filters limit = (selectTests c filters 0).take limit.toNat := by
  simp [selectTests, h]

theorem mem_of_mem_selectTests {c : Corpus} {filters : List JsString} {limit : Int}
    {t : JsString} (h : t ∈ selectTests c filters limit) : t ∈ selectTests c [] 0 := by
  have hzero : t ∈ selectTests c filters 0 := by
    by_cases hl : 0 < limit
    · rw [selectTests_limit c filters hl] at h
      exact List.mem_of_mem_take h
    · simpa [selectTests, hl] using h
  rw [mem_selectTests_all]
  simp only [selectTests, gt_iff_lt, lt_self_iff_false, if_false, mem_sortStrings,
    List.mem_filter, Bool.and_eq_true] at hzero
  exact hzero.1

theorem selectTests_increasing (c : Corpus) (filters : List JsString) (limit : Int) :
    (selectTests c filters limit).Pairwise (· < ·) := by
  have hall : (selectTests c filters 0).Pairwise (· < ·) := by
    apply sortStrings_increasing
    exact (c.listing_nodup.filter _).filter _
  by_cases hl : 0 < limit
  · rw [selectTests_limit c filters hl]
    exact hall.sublist (List.take_sublist _ _)
  · simpa [selectTests, hl] using hall

/-- Two names of the listing do not denote one file. -/
theorem eq_of_resolvePath {d : TestDir} {s t : JsString} (hs : s ∈ d.listing)
    (ht : t ∈ d.listing) (h : resolvePath d.parallelDir s = resolvePath d.parallelDir t) :
    s = t := by
  rw [resolvePath_name _ (d.isName s hs), resolvePath_name _ (d.isName t ht)] at h
  simpa using h

/-- With filters the promise is kept. -/
theorem selects_filters (d : TestDir) (filters : List JsString) (limit : Int) :
    Selects d none filters limit where
  increasing := selectTests_increasing d.corpus filters limit
  listed := fun _ ht => mem_of_mem_selectTests ht
  noAlias := by
    intro s hs t ht h
    have hs' := (mem_selectTests_all.mp (mem_of_mem_selectTests hs)).1
    have ht' := (mem_selectTests_all.mp (mem_of_mem_selectTests ht)).1
    exact eq_of_resolvePath hs' ht' h
  limited := selectTests_limit d.corpus filters

/-! ## Manifests -/

theorem startsWith_idOfLine {line s : JsString} (h : idOfLine line = some s) :
    startsWith s (js "test-") = true := by
  rw [(idOfLine_cases h).2]
  exact startsWith_normalizeId _

theorem endsWith_idOfLine {line s : JsString} (h : idOfLine line = some s) :
    endsWith s (js ".js") = true := by
  rw [(idOfLine_cases h).2]
  exact endsWith_normalizeId _

/-- Every selected test has a name: it starts with `test-`. -/
theorem ne_nil_of_mem_resolveTestSet {c : Corpus} {listFile : Option JsString}
    {filters : List JsString} {limit : Int} {t : JsString}
    (h : t ∈ resolveTestSet c listFile filters limit) : t ≠ [] := by
  have hstart : startsWith t (js "test-") = true := by
    cases listFile with
    | none => exact (mem_selectTests_all.mp (mem_of_mem_selectTests h)).2.1
    | some text =>
      have hmem := mem_uniq.mp (mem_sortStrings.mp h)
      obtain ⟨line, -, hline⟩ := List.mem_filterMap.mp (List.mem_filter.mp hmem).1
      exact startsWith_idOfLine hline
  intro heq
  subst heq
  exact absurd hstart (by decide)

/-- The ids of a manifest that exist, as `resolveTestSet` looks them up. -/
def existing (d : TestDir) (text : JsString) : List JsString :=
  (idsFromListFile text).filter d.corpus.existsSync

theorem mem_resolveTestSet_manifest {d : TestDir} {text t : JsString} {filters : List JsString}
    {limit : Int} :
    t ∈ resolveTestSet d.corpus (some text) filters limit ↔ t ∈ existing d text := by
  change t ∈ sortStrings (uniq (existing d text)) ↔ _
  rw [mem_sortStrings, mem_uniq]

theorem length_resolveTestSet_manifest (d : TestDir) (text : JsString)
    (filters : List JsString) (limit : Int) :
    (resolveTestSet d.corpus (some text) filters limit).length =
      (existing d text).toFinset.card := by
  have hnodup := resolveTestSet_nodup d.corpus (some text) filters limit
  rw [← List.toFinset_card_of_nodup hnodup]
  congr 1
  ext t
  rw [List.mem_toFinset, List.mem_toFinset, mem_resolveTestSet_manifest]

/-- An id without a `/` that exists is one of the names. -/
theorem listed_of_existing {d : TestDir} {text t : JsString} (h : t ∈ existing d text)
    (hslash : (0x2F : UInt16) ∉ t) : t ∈ selectTests d.corpus [] 0 := by
  obtain ⟨hid, hexists⟩ := List.mem_filter.mp h
  obtain ⟨line, -, hline⟩ := List.mem_filterMap.mp hid
  have hstart := startsWith_idOfLine hline
  have hname : IsName t := by
    refine ⟨?_, ?_, ?_, hslash⟩ <;> rintro rfl <;> exact absurd hstart (by decide)
  change d.existsPath (resolvePath d.parallelDir t) = true at hexists
  rw [resolvePath_name _ hname] at hexists
  rw [mem_selectTests_all]
  exact ⟨d.mem_listing t hname hexists, hstart, endsWith_idOfLine hline⟩

/-- With a manifest the promise is kept exactly when no id that exists has a `/` and, if there
is a limit, no more ids than that exist. -/
theorem selects_manifest (d : TestDir) (text : JsString) (filters : List JsString)
    (limit : Int) :
    Selects d (some text) filters limit ↔
      (∀ id ∈ existing d text, (0x2F : UInt16) ∉ id) ∧
        (0 < limit → ((existing d text).toFinset.card : Int) ≤ limit) := by
  have hlength := length_resolveTestSet_manifest d text filters
  constructor
  · intro h
    refine ⟨?_, ?_⟩
    · intro id hmem
      have hlisted := h.listed id (mem_resolveTestSet_manifest.mpr hmem)
      exact (d.isName id (mem_selectTests_all.mp hlisted).1).2.2.2
    · intro hpos
      have htake := congrArg List.length (h.limited hpos)
      rw [List.length_take, hlength, hlength] at htake
      omega
  · rintro ⟨hslash, hlimit⟩
    have hlisted : ∀ t ∈ resolveTestSet d.corpus (some text) filters limit,
        t ∈ selectTests d.corpus [] 0 := by
      intro t ht
      have hmem := mem_resolveTestSet_manifest.mp ht
      exact listed_of_existing hmem (hslash t hmem)
    refine ⟨sortStrings_increasing (uniq_nodup _), hlisted, ?_, ?_⟩
    · intro s hs t ht h
      exact eq_of_resolvePath (mem_selectTests_all.mp (hlisted s hs)).1
        (mem_selectTests_all.mp (hlisted t ht)).1 h
    · intro hpos
      have hle := hlimit hpos
      -- the limit is not looked at
      change resolveTestSet d.corpus (some text) filters 0 = _
      rw [List.take_of_length_le]
      rw [hlength]
      omega

/-- Both modes. -/
theorem selects_iff (d : TestDir) (listFile : Option JsString) (filters : List JsString)
    (limit : Int) :
    Selects d listFile filters limit ↔
      ∀ text, listFile = some text →
        (∀ id ∈ existing d text, (0x2F : UInt16) ∉ id) ∧
          (0 < limit → ((existing d text).toFinset.card : Int) ≤ limit) := by
  cases listFile with
  | none =>
    constructor
    · intro _ text h
      cases h
    · intro _
      exact selects_filters d filters limit
  | some text =>
    rw [selects_manifest]
    constructor
    · intro h text' heq
      obtain rfl := Option.some.inj heq
      exact h
    · intro h
      exact h text rfl

/-- Two tests. -/
def twoTestDir : TestDir where
  parallelDir := [js "test", js "parallel"]
  listing := [js "test-a.js", js "test-b.js"]
  listing_nodup := by decide
  isName := by decide
  existsPath := fun path => [js "test-a.js", js "test-b.js"].any
    (fun n => decide (path = [js "test", js "parallel", n]))
  mem_listing := by
    intro n _ h
    simpa using h

/-- A second spelling of one file is selected next to the first, and the limit of a manifest
is passed over. -/
theorem selects_fails_twoTestDir :
    resolveTestSet twoTestDir.corpus (some (js "a\ntest-/../test-a.js\n")) [] 0 =
        [js "test-/../test-a.js", js "test-a.js"] ∧
      ¬ Selects twoTestDir (some (js "a\ntest-/../test-a.js\n")) [] 0 ∧
      resolveTestSet twoTestDir.corpus (some (js "a\nb\n")) [] 1 =
        [js "test-a.js", js "test-b.js"] ∧
      ¬ Selects twoTestDir (some (js "a\nb\n")) [] 1 := by
  refine ⟨by decide, ?_, by decide, ?_⟩
  · intro h
    have halias := h.noAlias (js "test-/../test-a.js") (by decide) (js "test-a.js") (by decide)
      (by decide)
    exact absurd halias (by decide)
  · intro h
    exact absurd (h.limited (by decide)) (by decide)

end CorpusRunner
