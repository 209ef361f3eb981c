import CorpusRunner.Lib.TestSet
import CorpusRunner.Misc.JsonRead
import CorpusRunner.Misc.JsonRoundTrip
import CorpusRunner.Misc.Path

/-!
# Arguments and the configuration

What `run-corpus.mjs:42-62` makes of its arguments and its environment, the object that it hands
to its workers in `CORPUS_CFG`, and what `corpus-worker.mjs:16-18` makes of that text.
-/

namespace CorpusRunner

/-! ## The supervisor's side -/

/-- The variables of `process.env` that are read. -/
structure Env where
  concurrency : Option JsString
  testTimeoutMs : Option JsString
  stallMs : Option JsString
  limit : Option JsString
  maxNoProgress : Option JsString
  out : Option JsString
  deriving DecidableEq, Repr

/-- A call of `node run-corpus.mjs`: `process.argv.slice(2)`, `process.env` and
`process.cwd()`. -/
structure Invocation where
  argv : List JsString
  env : Env
  cwd : AbsPath
  deriving DecidableEq

/-- `parseInt(process.env.X || "", 10) || def`. -/
def envKnob (v : Option JsString) (def_ : Int) : Int := knob (parseInt10 (v.getD [])) def_

/-- `a.startsWith("--")`. -/
def isOption (a : JsString) : Bool := startsWith a (js "--")

/-- The supervisor's constants. -/
structure Settings where
  filters : List JsString
  concurrency : Int
  timeout : Int
  stallMs : Int
  limit : Int
  maxNoProgress : Int
  outDir : AbsPath
  listFile : Option AbsPath
  deriving DecidableEq

/-- The numbers are the doubles that the supervisor works with. -/
def Settings.Safe (s : Settings) : Prop :=
  ∀ n ∈ [s.concurrency, s.timeout, s.stallMs, s.limit, s.maxNoProgress], IsSafeInteger n

instance (s : Settings) : Decidable s.Safe := inferInstanceAs (Decidable (∀ n ∈ [_, _, _, _, _], _))

namespace Invocation

variable (inv : Invocation)

def opts : List JsString := inv.argv.filter isOption

def filters : List JsString := inv.argv.filter (fun a => !isOption a)

def listOnly : Bool := inv.opts.contains (js "--list")

def fresh : Bool := inv.opts.contains (js "--fresh")

def help : Bool := inv.opts.contains (js "--help") || inv.opts.contains (js "-h")

/-- `opts.find((a) => a.startsWith("--manifest="))?.slice(11)`. -/
def manifest : Option JsString :=
  (inv.opts.find? (fun a => startsWith a (js "--manifest="))).map (·.drop 11)

/-- `process.env.OUT || "results"`. -/
def out : JsString :=
  match inv.env.out with
  | some (c :: s) => c :: s
  | _ => js "results"

/-- `MANIFEST ? resolve(process.cwd(), MANIFEST) : null`. -/
def listFile : Option AbsPath :=
  match inv.manifest with
  | some (c :: s) => some (inv.cwd.resolve (c :: s))
  | _ => none

/-- `run-corpus.mjs:42-62`. -/
def settings : Settings :=
  let timeout := envKnob inv.env.testTimeoutMs 30000
  { filters := inv.filters
    concurrency := envKnob inv.env.concurrency 4
    timeout
    stallMs := envKnob inv.env.stallMs (max 90000 (timeout * 2 + 15000))
    limit := envKnob inv.env.limit 0
    maxNoProgress := envKnob inv.env.maxNoProgress 4
    outDir := inv.cwd.resolve inv.out
    listFile := inv.listFile }

end Invocation

/-- The files of a run (`corpus-lib.mjs:11-19`). -/
structure OutPaths where
  outDir : JsString
  progressPath : AbsPath
  inflightPath : AbsPath
  resultsPath : AbsPath
  summaryPath : AbsPath
  deriving DecidableEq

/-- `outPaths`; a path that is not absolute is taken from `cwd`. -/
def outPaths (cwd : AbsPath) (outDir : JsString) : OutPaths :=
  let dir := cwd.resolve outDir
  { outDir
    progressPath := dir.resolve (js "progress.jsonl")
    inflightPath := dir.resolve (js "inflight.json")
    resultsPath := dir.resolve (js "corpus-results.json")
    summaryPath := dir.resolve (js "corpus-summary.md") }

/-- `cfg` (`run-corpus.mjs:61`). -/
def Settings.cfg (s : Settings) : Json :=
  .object
    [(js "filters", .array (s.filters.map .string)), (js "limit", .number (.ofInt s.limit)),
      (js "timeout", .number (.ofInt s.timeout)),
      (js "concurrency", .number (.ofInt s.concurrency)),
      (js "outDir", .string s.outDir.text),
      (js "listFile", (s.listFile.map (fun p => Json.string p.text)).getD .null)]

/-- `CORPUS_CFG` (`run-corpus.mjs:103`). -/
def Settings.corpusCfg (s : Settings) : JsString := stringify s.cfg

/-! ## The worker's side -/

/-- The variables that the worker takes from `cfg` (`corpus-worker.mjs:17`). -/
structure WorkerCfg where
  filters : List JsString
  limit : Int
  timeout : Int
  concurrency : Int
  outDir : JsString
  listFile : Option JsString
  deriving DecidableEq, Repr

/-- The numbers are the doubles that the worker works with. -/
def WorkerCfg.Safe (c : WorkerCfg) : Prop :=
  ∀ n ∈ [c.limit, c.timeout, c.concurrency], IsSafeInteger n

/-- A member with a default. A value of another type than the supervisor's is `none`. -/
def Json.field {α : Type} (cfg : Json) (k : String) (read : Json → Option α) (def_ : α) :
    Option α :=
  match cfg.member (js k) with
  | none => some def_
  | some v => read v

/-- `listFile` is only asked whether it is truthy, and read. -/
def Json.path? : Json → Option (Option JsString)
  | .null => some none
  | .string [] => some none
  | .string (c :: s) => some (some (c :: s))
  | _ => none

/-- `const { filters = [], ... } = cfg`; nothing can be taken from `null`. -/
def WorkerCfg.ofJson (cfg : Json) : Option WorkerCfg :=
  match cfg with
  | .null => none
  | cfg => do
    let filters ← cfg.field "filters" (Json.items? Json.string?) []
    let limit ← cfg.field "limit" Json.int? 0
    let timeout ← cfg.field "timeout" Json.int? 30000
    let concurrency ← cfg.field "concurrency" Json.int? 4
    let outDir ← cfg.field "outDir" Json.string? (js "results")
    let listFile ← cfg.field "listFile" Json.path? none
    pure { filters, limit, timeout, concurrency, outDir, listFile }

/-- `JSON.parse(process.env.CORPUS_CFG || "{}")`; `none` is an exception. -/
def workerCfg (corpusCfg : Option JsString) : Option WorkerCfg :=
  let text := match corpusCfg with
    | some (c :: s) => c :: s
    | _ => js "\x7b\x7d"
  (jsonParse text).bind WorkerCfg.ofJson

/-! ## The selected tests -/

/-- What the modules find on the machine: their directory, `test/parallel`, the texts of files
(`none`: the read throws), and what they print of it. -/
structure Host where
  here : AbsPath
  corpus : Corpus
  readFile : AbsPath → Option JsString
  version : JsString
  platform : JsString
  arch : JsString
  cpus : Nat

/-- `resolveTestSet({ listFile, filters, limit })`; `none` is an exception. -/
def Host.resolveTestSet (h : Host) (listFile : Option AbsPath) (filters : List JsString)
    (limit : Int) : Option (List JsString) :=
  match listFile with
  | none => some (CorpusRunner.resolveTestSet h.corpus none filters limit)
  | some p => (h.readFile p).map fun text =>
    CorpusRunner.resolveTestSet h.corpus (some text) filters limit

/-- `ALL` (`run-corpus.mjs:62`). -/
def Settings.all (s : Settings) (h : Host) : Option (List JsString) :=
  h.resolveTestSet s.listFile s.filters s.limit

/-- `all` (`corpus-worker.mjs:99`); the worker runs in `here`. -/
def WorkerCfg.all (c : WorkerCfg) (h : Host) : Option (List JsString) :=
  h.resolveTestSet (c.listFile.map h.here.resolve) c.filters c.limit

example : workerCfg none = some ⟨[], 0, 30000, 4, js "results", none⟩ := by decide +kernel

end CorpusRunner
