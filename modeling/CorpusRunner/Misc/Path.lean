import CorpusRunner.Misc.JsString

/-!
# Paths

`path.resolve` on POSIX: a path is its segments, `.` and empty segments are dropped, and `..`
takes the segment in front of it away without a look at the file system. A name has one
segment, so behind a directory it denotes itself (`resolvePath_name`).
-/

namespace CorpusRunner

/-- A name that can stand in a directory. -/
def IsName (n : JsString) : Prop := n ≠ [] ∧ n ≠ js "." ∧ n ≠ js ".." ∧ (0x2F : UInt16) ∉ n

instance (n : JsString) : Decidable (IsName n) :=
  inferInstanceAs (Decidable (_ ∧ _ ∧ _ ∧ _))

/-- One segment of a path. -/
def pathStep (dir : List JsString) (segment : JsString) : List JsString :=
  if segment = [] ∨ segment = js "." then dir
  else if segment = js ".." then dir.dropLast
  else dir ++ [segment]

/-- `path.resolve(dir, path)`, with the segments of an absolute path. -/
def resolvePath (dir : List JsString) (path : JsString) : List JsString :=
  (path.splitOn 0x2F).foldl pathStep (if path.head? = some 0x2F then [] else dir)

theorem resolvePath_name (dir : List JsString) {n : JsString} (h : IsName n) :
    resolvePath dir n = dir ++ [n] := by
  obtain ⟨hne, hdot, hdots, hslash⟩ := h
  have hrel : n.head? ≠ some 0x2F := by
    intro hhead
    exact hslash (List.mem_of_mem_head? hhead)
  rw [resolvePath, if_neg hrel, List.splitOn_eq_singleton hslash]
  simp [pathStep, hne, hdot, hdots]

/-- An absolute path, as `path.resolve` returns one. -/
structure AbsPath where
  segments : List JsString
  ok : ∀ n ∈ segments, IsName n

instance : DecidableEq AbsPath := fun a b =>
  decidable_of_iff (a.segments = b.segments)
    ⟨fun h => by cases a; cases b; simp_all, fun h => h ▸ rfl⟩

theorem isName_pathStep {dir : List JsString} {segment : JsString}
    (hdir : ∀ n ∈ dir, IsName n) (hslash : (0x2F : UInt16) ∉ segment) :
    ∀ n ∈ pathStep dir segment, IsName n := by
  intro n hn
  unfold pathStep at hn
  split at hn
  · exact hdir n hn
  · rename_i hdot
    rw [not_or] at hdot
    split at hn
    · exact hdir n (List.dropLast_subset dir hn)
    · rename_i hdots
      rcases List.mem_append.mp hn with hn | hn
      · exact hdir n hn
      · obtain rfl := List.mem_singleton.mp hn
        exact ⟨hdot.1, hdot.2, hdots, hslash⟩

theorem slash_notMem_of_mem_splitOn {path s : JsString} (h : s ∈ path.splitOn 0x2F) :
    (0x2F : UInt16) ∉ s := by
  induction path generalizing s with
  | nil =>
    obtain rfl : s = [] := by simpa using h
    simp
  | cons c path ih =>
    simp only [List.splitOn, List.splitOnP_cons_eq_if_modifyHead, beq_iff_eq] at h ih
    split at h
    · rcases List.mem_cons.mp h with rfl | h
      · simp
      · exact ih h
    · rename_i hc
      cases hsplit : path.splitOnP (· == 0x2F) with
      | nil => exact absurd hsplit (List.splitOnP_ne_nil _ _)
      | cons first rest =>
        rw [hsplit, List.modifyHead_cons] at h
        rcases List.mem_cons.mp h with rfl | h
        · have := ih (s := first) (by simp [hsplit])
          simpa [this] using Ne.symm hc
        · exact ih (by simp [hsplit, h])

theorem isName_resolvePath {dir : List JsString} (hdir : ∀ n ∈ dir, IsName n)
    (path : JsString) : ∀ n ∈ resolvePath dir path, IsName n := by
  have key : ∀ (segments dir : List JsString), (∀ n ∈ dir, IsName n) →
      (∀ s ∈ segments, (0x2F : UInt16) ∉ s) → ∀ n ∈ segments.foldl pathStep dir, IsName n := by
    intro segments
    induction segments with
    | nil => exact fun dir hdir _ => hdir
    | cons s segments ih =>
      intro dir hdir hs
      exact ih _ (isName_pathStep hdir (hs s (by simp))) fun s' hs' => hs s' (by simp [hs'])
  refine key _ _ ?_ fun s hs => slash_notMem_of_mem_splitOn hs
  split
  · simp
  · exact hdir

namespace AbsPath

/-- `path.resolve(p, path)`. -/
def resolve (p : AbsPath) (path : JsString) : AbsPath :=
  ⟨resolvePath p.segments path, isName_resolvePath p.ok path⟩

/-- The path as a string. -/
def text (p : AbsPath) : JsString :=
  if p.segments = [] then [0x2F] else p.segments.flatMap (0x2F :: ·)

theorem foldl_pathStep_names {dir names : List JsString} (h : ∀ n ∈ names, IsName n) :
    names.foldl pathStep dir = dir ++ names := by
  induction names generalizing dir with
  | nil => simp
  | cons n names ih =>
    obtain ⟨hne, hdot, hdots, -⟩ := h n (by simp)
    have hstep : pathStep dir n = dir ++ [n] := by simp [pathStep, hne, hdot, hdots]
    rw [List.foldl_cons, hstep, ih fun n' hn' => h n' (by simp [hn'])]
    simp

theorem flatMap_slash {names : List JsString} (hne : names ≠ []) :
    names.flatMap (0x2F :: ·) = 0x2F :: [0x2F].intercalate names := by
  induction names with
  | nil => exact absurd rfl hne
  | cons n names ih =>
    cases names with
    | nil => simp
    | cons n' names =>
      rw [List.flatMap_cons, ih (List.cons_ne_nil _ _)]
      simp [List.intercalate]

/-- The segments behind the first slash. -/
theorem splitOn_text {names : List JsString} (h : ∀ n ∈ names, IsName n) (hne : names ≠ []) :
    (names.flatMap (0x2F :: ·)).splitOn 0x2F = [] :: names := by
  have hfirst := List.splitOn_append_cons_self (a := (0x2F : UInt16)) [] ([0x2F].intercalate names)
  rw [List.splitOn_intercalate 0x2F (fun n hn => (h n hn).2.2.2) hne] at hfirst
  rw [flatMap_slash hne]
  simpa using hfirst

/-- An absolute path is resolved to itself, wherever it is read. -/
theorem resolve_text (p q : AbsPath) : p.resolve q.text = q := by
  obtain ⟨names, hnames⟩ := q
  suffices h : resolvePath p.segments (text ⟨names, hnames⟩) = names by
    simp [resolve, h]
  by_cases hne : names = []
  · subst hne
    rfl
  · have habs : (names.flatMap (0x2F :: ·)).head? = some 0x2F := by rw [flatMap_slash hne]; rfl
    simp only [text, if_neg hne, resolvePath, habs, if_true, splitOn_text hnames hne]
    rw [List.foldl_cons]
    exact foldl_pathStep_names hnames

end AbsPath

example : resolvePath [js "test", js "parallel"] (js "test-/../test-a.js") =
    [js "test", js "parallel", js "test-a.js"] := by decide

end CorpusRunner
