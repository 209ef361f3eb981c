import CorpusRunner.Lib.Args

/-!
# The configuration arrives

A supervisor hands its configuration to its workers as text, and a worker runs in another
directory than the supervisor was called in. What the worker makes of the text is the
configuration: the same limits, the same files, and, as it resolves its test set anew, the same
tests.
-/

namespace CorpusRunner

theorem text_ne_nil (p : AbsPath) : p.text ≠ [] := by
  unfold AbsPath.text
  split
  · simp
  · rename_i h
    rw [AbsPath.flatMap_slash h]
    simp

/-- A path is handed over as its text. -/
theorem path?_text (p : Option AbsPath) :
    Json.path? ((p.map (fun p => Json.string p.text)).getD .null) = some (p.map AbsPath.text) := by
  cases p with
  | none => rfl
  | some p =>
    obtain ⟨c, s, hs⟩ := List.exists_cons_of_ne_nil (text_ne_nil p)
    simp [Json.path?, hs]

/-- What a supervisor hands over. -/
def Settings.handed (s : Settings) : WorkerCfg :=
  ⟨s.filters, s.limit, s.timeout, s.concurrency, s.outDir.text, s.listFile.map AbsPath.text⟩

/-- What the worker takes from the object that the supervisor builds. -/
theorem workerCfg_corpusCfg (s : Settings) :
    workerCfg (some s.corpusCfg) = some s.handed := by
  obtain ⟨t, ht⟩ := stringify_object
    [(js "filters", .array (s.filters.map .string)), (js "limit", .number (.ofInt s.limit)),
      (js "timeout", .number (.ofInt s.timeout)),
      (js "concurrency", .number (.ofInt s.concurrency)),
      (js "outDir", .string s.outDir.text),
      (js "listFile", (s.listFile.map (fun p => Json.string p.text)).getD .null)]
  have hparse : jsonParse (123 :: t ++ [125]) = some s.cfg := by
    rw [← ht, jsonParse_stringify]
    rfl
  have hfilters : s.cfg.field "filters" (Json.items? Json.string?) [] = some s.filters :=
    items?_map fun _ _ => rfl
  have hlimit : s.cfg.field "limit" Json.int? 0 = some s.limit := int?_ofInt s.limit
  have htimeout : s.cfg.field "timeout" Json.int? 30000 = some s.timeout := int?_ofInt s.timeout
  have hconcurrency : s.cfg.field "concurrency" Json.int? 4 = some s.concurrency :=
    int?_ofInt s.concurrency
  have hout : s.cfg.field "outDir" Json.string? (js "results") = some s.outDir.text := rfl
  have hlist : s.cfg.field "listFile" Json.path? none = some (s.listFile.map AbsPath.text) :=
    path?_text s.listFile
  have hread : WorkerCfg.ofJson s.cfg = some s.handed := by
    change (do
      let filters ← s.cfg.field "filters" (Json.items? Json.string?) []
      let limit ← s.cfg.field "limit" Json.int? 0
      let timeout ← s.cfg.field "timeout" Json.int? 30000
      let concurrency ← s.cfg.field "concurrency" Json.int? 4
      let outDir ← s.cfg.field "outDir" Json.string? (js "results")
      let listFile ← s.cfg.field "listFile" Json.path? none
      pure (WorkerCfg.mk filters limit timeout concurrency outDir listFile)) = _
    rw [hfilters, hlimit, htimeout, hconcurrency, hout, hlist]
    rfl
  have htext : s.corpusCfg = 123 :: t ++ [125] := ht
  rw [htext]
  change (jsonParse (123 :: t ++ [125])).bind WorkerCfg.ofJson = _
  rw [hparse]
  exact hread

/-- The directory is the same from wherever its path is read. -/
theorem outPaths_text (cwd cwd' p : AbsPath) : outPaths cwd p.text = outPaths cwd' p.text := by
  simp only [outPaths, AbsPath.resolve_text]

theorem handed_all (s : Settings) (h : Host) : s.handed.all h = s.all h := by
  have hlist : (s.listFile.map AbsPath.text).map h.here.resolve = s.listFile := by
    cases s.listFile with
    | none => rfl
    | some p => simp [AbsPath.resolve_text]
  change h.resolveTestSet ((s.listFile.map AbsPath.text).map h.here.resolve) s.filters s.limit = _
  rw [hlist]
  rfl

/-- **The configuration arrives.** Whatever the arguments, the environment and the directory of
the call are, and wherever the modules lie: if the numbers are safe integers, the worker reads
from `CORPUS_CFG` the supervisor's limits, which are such numbers again, it works on the files that
the supervisor works on, and it resolves the supervisor's test set. -/
theorem handoff (inv : Invocation) (hsafe : inv.settings.Safe) (h : Host) :
    ∃ c, workerCfg (some inv.settings.corpusCfg) = some c ∧ c.Safe ∧
      c.timeout = inv.settings.timeout ∧ c.concurrency = inv.settings.concurrency ∧
      outPaths h.here c.outDir = outPaths inv.cwd inv.settings.outDir.text ∧
      c.all h = inv.settings.all h := by
  refine ⟨_, workerCfg_corpusCfg inv.settings, ?_, rfl, rfl, outPaths_text _ _ _, handed_all _ _⟩
  intro n hn
  apply hsafe
  simp only [Settings.handed, List.mem_cons, List.not_mem_nil, or_false] at hn ⊢
  tauto

namespace Program

/-- Two tests in `test/parallel`. -/
def twoTestHost : Host where
  here := ⟨[js "w"], by decide⟩
  corpus := ⟨[js "test-b.js", js "test-a.js"], by decide, fun _ => true⟩
  readFile := fun _ => none
  version := js "v22.0.0"
  platform := js "linux"
  arch := js "x64"
  cpus := 1

/-- `node run-corpus.mjs` in `/w`. -/
def plainCall : Invocation :=
  ⟨[], ⟨none, none, none, none, none, none⟩, ⟨[js "w"], by decide⟩⟩

theorem safe_plainCall : plainCall.settings.Safe := by
  decide

end Program

theorem handoff_plainCall : ∃ c, workerCfg (some Program.plainCall.settings.corpusCfg) = some c ∧
    c.concurrency = 4 ∧ c.all Program.twoTestHost = some [js "test-a.js", js "test-b.js"] := by
  obtain ⟨c, hc, -, -, hconcurrency, -, hall⟩ :=
    handoff Program.plainCall Program.safe_plainCall Program.twoTestHost
  refine ⟨c, hc, hconcurrency, hall.trans ?_⟩
  decide +kernel

end CorpusRunner
