import CorpusRunner.Lib.Args
import CorpusRunner.Lib.HarvestText
import CorpusRunner.Outputs
import CorpusRunner.System

/-!
# The program on its files

`run-corpus.mjs` and `corpus-worker.mjs` as they work on the texts of their files: a supervisor
is called with arguments and an environment, a worker has nothing but the text of `CORPUS_CFG`,
and both read back what either of them has written. The steps and the events are those of
`CorpusRunner.System`, which has lists of records in place of the texts; what is printed comes
with the step that prints it. An append, or a write of a whole file, is one step: no process dies
inside it.
-/

namespace CorpusRunner

namespace Program

/-! ## The files -/

/-- The files of an output directory; `none` is a file that is not there. -/
structure Disk where
  progress : Option JsString
  inflight : Option JsString
  results : Option JsString
  summary : Option JsString
  deriving DecidableEq

namespace Disk

def empty : Disk := ⟨none, none, none, none⟩

variable (d : Disk)

/-- `readLedger(progressPath)` (`corpus-lib.mjs:43-52`). -/
def ledger : JsMap JsString Json :=
  match d.progress with
  | none => .empty
  | some text => readLedgerText text

/-- `readInflight(inflightPath)` (`corpus-lib.mjs:80-87`). -/
def registry : List Item :=
  match d.inflight with
  | none => []
  | some text => readInflightText text

/-- `appendFileSync(progressPath, JSON.stringify(rec) + "\n")`. -/
def append (r : Rec) : Disk := { d with progress := some (d.progress.getD [] ++ appended r) }

end Disk

/-! ## The worker -/

/-- `pid` in the worker's map: `null` until the child exists, and what `child.pid` is then. -/
inductive PidField where
  | null
  | undefined
  | pid (n : Pid)
  deriving DecidableEq, Repr

/-- `child.pid`. -/
def PidField.of : Option Pid → PidField
  | none => .undefined
  | some n => .pid n

structure Reg where
  startedAt : Nat
  pid : PidField
  deriving DecidableEq, Repr

/-- An element of what `writeInflight` writes; a member that is `undefined` is left out. -/
def Reg.toJson (test : JsString) (v : Reg) : Json :=
  .object ([(js "test", .string test), (js "startedAt", .number (.ofNat v.startedAt))] ++
    match v.pid with
    | .null => [(js "pid", .null)]
    | .undefined => []
    | .pid n => [(js "pid", .number (.ofNat n))])

/-- What `writeInflight` writes (`corpus-worker.mjs:26-29`). -/
def registryText (inFlight : JsMap JsString Reg) : JsString :=
  stringify (.array (inFlight.entries.map (fun e => e.2.toJson e.1)))

structure Worker where
  corpusCfg : JsString
  thread : Thread
  queue : List JsString
  unstarted : Nat
  looping : Nat
  inFlight : JsMap JsString Reg
  deriving DecidableEq

def Worker.launched (corpusCfg : JsString) : Worker :=
  { corpusCfg, thread := .boot, queue := [], unstarted := 0, looping := 0, inFlight := .empty }

def Worker.takeSlot (w : Worker) : Option Worker :=
  (nextSlot w.unstarted w.looping).map fun n => { w with unstarted := n.1, looping := n.2 }

/-- `main`, up to the start of the pool (`corpus-worker.mjs:16-18`, `corpus-worker.mjs:99-101`).
A worker that throws here comes to no further step. -/
def Worker.load (h : Host) (w : Worker) (d : Disk) : Option Worker := do
  let cfg ← workerCfg (some w.corpusCfg)
  let all ← cfg.all h
  pure { w with thread := .loaded
                queue := all.filter (fun t => !d.ledger.has t)
                unstarted := cfg.concurrency.toNat }

/-- One step of `main` and of the pool's slots (`corpus-worker.mjs:91-115`). -/
def Worker.step (h : Host) (w : Worker) (d : Disk) (e : WorkerEvent) : Option (Worker × Disk) :=
  match w.thread, e with
  | .boot, .load => (w.load h d).map (·, d)
  | .loaded, .clear => do
    let cfg ← workerCfg (some w.corpusCfg)
    let thread := if cfg.concurrency < arrayLimit then Thread.idle else .rejected
    pure ({ w with thread := thread }, { d with inflight := some (registryText w.inFlight) })
  | .idle, .claim now =>
    match w.queue, w.takeSlot with
    | t :: rest, some w' =>
      some ({ w' with thread := .claimed t, queue := rest
                      inFlight := w.inFlight.set t ⟨now, .null⟩ }, d)
    | _, _ => none
  | .idle, .slotEnd =>
    match w.queue, w.takeSlot with
    | [], some w' => some (w', d)
    | _, _ => none
  | .claimed t, .register =>
    some ({ w with thread := .registered t },
      { d with inflight := some (registryText w.inFlight) })
  | .registered t, .spawn t' pid =>
    if t' = t then some ({ w with thread := .spawned t pid }, d) else none
  | .registered t, .spawnThrows t' =>
    if t' = t then some ({ w with thread := .idle }, d) else none
  | .spawned t pid, .mirror =>
    let m := w.inFlight.modify t (fun v => { v with pid := .of pid })
    some ({ w with thread := .idle, inFlight := m },
      { d with inflight := some (registryText m) })
  | .idle, .settle r =>
    if w.unstarted = 0 ∧ r.test ∈ w.inFlight.keys then
      some ({ w with thread := .settled r }, d)
    else none
  | .settled r, .append => some ({ w with thread := .appended r.test }, d.append (.ran r))
  | .appended t, .deregister =>
    let m := w.inFlight.delete t
    some ({ w with thread := .idle, looping := w.looping + 1, inFlight := m },
      { d with inflight := some (registryText m) })
  | _, _ => none

def Worker.canExit (w : Worker) : Bool :=
  decide (w.thread = .idle) && w.unstarted == 0 && w.looping == 0 && w.inFlight.keys.isEmpty

/-! ## What is printed -/

/-- `s.join(", ")`. -/
def commaSeparated (l : List JsString) : JsString := (js ", ").intercalate l

/-- The header of the file, without its slashes (`run-corpus.mjs:64-67`). -/
def usage (src : JsString) : JsString :=
  joinLines (((splitLines src).filter (fun l => startsWith l (js "//"))).map (·.drop 3))

/-- `--list` (`run-corpus.mjs:144-148`). -/
def listing (all : List JsString) : List JsString :=
  all ++ [js "\n" ++ natDigits all.length ++ js " tests match"]

/-- `run-corpus.mjs:155-156`. -/
def banner (h : Host) (s : Settings) : List JsString :=
  [js "[supervisor] node " ++ h.version ++ js " " ++ h.platform ++ js "/" ++ h.arch ++
      js ", cpus=" ++ natDigits h.cpus,
    js "[supervisor] concurrency=" ++ intToJs s.concurrency ++ js " per-test-timeout=" ++
      intToJs s.timeout ++ js "ms stall=" ++ intToJs s.stallMs ++ js "ms"]

/-- `run-corpus.mjs:160-162`. -/
def recoveredLines (recovered : List JsString) : List JsString :=
  if recovered = [] then []
  else
    [js "[supervisor] skipped " ++ natDigits recovered.length ++
      js " suspected wedger(s) from a prior run: " ++ commaSeparated recovered]

/-- Everything is recorded already (`run-corpus.mjs:170-172`). -/
def cachedLines (s : Settings) (all : List JsString) : List JsString :=
  [js "[supervisor] all " ++ natDigits all.length ++
      js " selected test(s) are ALREADY recorded in " ++ s.outDir.text ++ js "/progress.jsonl",
    js "[supervisor] → nothing re-executed (results below are CACHED). To actually re-run:",
    js "[supervisor]   FRESH=1 node run-corpus.mjs ...   (wipe this ledger), or  " ++
      js "OUT=<newdir> ..."]

/-- `run-corpus.mjs:180`. -/
def launchLine (all : List JsString) (done : Nat) (remaining : List JsString) : JsString :=
  js "[supervisor] " ++ natDigits all.length ++ js " selected, " ++ natDigits done ++
    js " done, " ++ natDigits remaining.length ++ js " remaining — launching worker"

def poisonText (marked : List JsString) : JsString :=
  if marked = [] then [] else js ", skipping poison: " ++ commaSeparated marked

/-- `run-corpus.mjs:187`, `run-corpus.mjs:190`. -/
def cycleLine (result : CycleResult) (marked : List JsString) : List JsString :=
  match result with
  | .done => []
  | .stall => [js "[supervisor] STALL — killed worker tree" ++ poisonText marked]
  | .exit what => [js "[supervisor] worker exit:" ++ what ++ poisonText marked]

/-- `run-corpus.mjs:198-199`. -/
def abortLine (s : Settings) : JsString :=
  js "[supervisor] no progress for " ++ intToJs s.maxNoProgress ++ js " cycles — aborting. " ++
    js "Restart the WebContainer and re-run; progress is saved."

/-- `run-corpus.mjs:212`. -/
def consoleRow (b : BucketRow) : JsString :=
  js "  " ++ padEnd 20 b.bucket ++ js " " ++ padStart 4 (natDigits b.pass) ++ js "/" ++
    padEnd 4 (natDigits b.total) ++ js " (" ++ rateText b.passRate ++ js "%)"

/-- `run-corpus.mjs:208-215`. -/
def reportLines (paths : OutPaths) (m : Summary) : List JsString :=
  [js "\n=== pass rate: " ++ rateText m.passRate ++ js "%  (" ++ natDigits m.pass ++ js "/" ++
      natDigits m.totalTests ++ js ", excl-skip " ++ rateText m.passRateExclSkip ++ js "%) ===",
    js "pass " ++ natDigits m.pass ++ js "  fail " ++ natDigits m.fail ++ js "  timeout " ++
      natDigits m.timeout ++ js "  crash " ++ natDigits m.crash ++ js "  skip " ++
      natDigits m.skip ++ js "\n",
    js "per-module:"] ++
  m.perBucket.map consoleRow ++
  [js "\nwrote " ++ paths.resultsPath.text, js "wrote " ++ paths.summaryPath.text]

/-! ## The supervisor -/

/-- The steps of `harvestInflight` (`run-corpus.mjs:81-96`); `marked` is what it will return. -/
inductive HarvestPhase where
  | readInflight
  | readLedger (inflight : List Item)
  | reap (entries targets : List Item)
  | append (targets : List Item) (marked : List JsString)
  | clear (marked : List JsString)
  deriving DecidableEq

structure Harvest where
  reason : JsString
  onlyOldest : Bool
  phase : HarvestPhase
  deriving DecidableEq

inductive Pc where
  | rmProgress
  | rmInflight
  | harvest (h : Harvest) (k : Resume)
  /-- The look at the ledger behind the recovery (`run-corpus.mjs:169`). -/
  | guard
  | top (noProgress : Int)
  | launch (noProgress : Int) (before : Nat)
  | await (noProgress : Int) (before : Nat) (w : Worker)
  | exited (noProgress : Int) (before : Nat) (how : WorkerEnd)
  | returned (noProgress : Int) (before : Nat) (result : CycleResult)
  | clean
  | broke (aborted : Bool)
  deriving DecidableEq

structure Supervisor where
  settings : Settings
  all : List JsString
  startedAt : Int
  pc : Pc
  deriving DecidableEq

/-- The elements that `harvestInflight` marks. -/
def harvestTargets (onlyOldest : Bool) (inflight : List Item) (done : JsMap JsString Json) :
    List Item :=
  targetsOf Item.test (Item.started JsonNumber.value) onlyOldest done.has inflight

/-- One step of `harvestInflight`; `.inr marked` is its return. -/
def Harvest.step (h : Harvest) (d : Disk) : (HarvestPhase ⊕ List JsString) × Disk :=
  match h.phase with
  | .readInflight => (.inl (.readLedger d.registry), d)
  | .readLedger inflight =>
    (.inl (.reap inflight (harvestTargets h.onlyOldest inflight d.ledger)), d)
  | .reap (_ :: entries) targets => (.inl (.reap entries targets), d)
  | .reap [] targets => (.inl (.append targets []), d)
  | .append (e :: targets) marked =>
    (.inl (.append targets (marked ++ [e.test])), d.append (.crashMark e.test h.reason))
  | .append [] marked => (.inl (.clear marked), d)
  | .clear marked => (.inr marked, { d with inflight := some (js "[]") })

def stallReason (s : Settings) : JsString :=
  js "stalled WC for >" ++ intToJs s.stallMs ++ js "ms; killed + skipped"

/-- The startup recovery (`run-corpus.mjs:159`). -/
def startupHarvest : Pc := .harvest ⟨startupReason, false, .readInflight⟩ .startup

/-- The end of a cycle, and what is printed when the run is given up
(`run-corpus.mjs:195-204`). -/
def tally (s : Settings) (noProgress : Int) (before after : Nat) (result : CycleResult) :
    Pc × List JsString :=
  if after ≤ before ∧ result ≠ .done then
    if noProgress + 1 ≥ s.maxNoProgress then (.broke true, [abortLine s])
    else (.top (noProgress + 1), [])
  else (.top 0, [])

/-- The entries of the selected tests (`run-corpus.mjs:108-110`). -/
def selectedResults (all : List JsString) (d : Disk) : List Json := all.filterMap d.ledger.get?

/-- `writeOutputs` (`run-corpus.mjs:107-114`). -/
def writeOutputs (minutes : Int → JsString) (all : List JsString) (startedAt now : Int)
    (d : Disk) : Option (Summary × Disk) :=
  let results := selectedResults all d
  (summaryOf results startedAt now).map (fun summary =>
    (summary,
      { d with results := some (resultsText summary results)
               summary := some (summaryMd minutes summary) }))

/-- One step of `main` (`run-corpus.mjs:139-216`): the supervisor behind it, the files, and what
is printed. -/
def Supervisor.step (h : Host) (minutes : Int → JsString) (s : Supervisor) (d : Disk)
    (now : Int) : Option (Option Supervisor × Disk × List JsString) :=
  match s.pc with
  | .rmProgress => some (some { s with pc := .rmInflight }, { d with progress := none }, [])
  | .rmInflight =>
    some (some { s with pc := startupHarvest }, { d with inflight := none }, banner h s.settings)
  | .harvest hv k =>
    match hv.step d with
    | (.inl phase, d') => some (some { s with pc := .harvest { hv with phase } k }, d', [])
    | (.inr marked, d') =>
      match k with
      | .startup =>
        some (some { s with startedAt := now, pc := .guard }, d', recoveredLines marked)
      | .cycle noProgress before after result =>
        let (pc, lines) := tally s.settings noProgress before after result
        some (some { s with pc }, d', cycleLine result marked ++ lines)
  | .guard =>
    let cached := !s.all.isEmpty && s.all.all d.ledger.has
    some (some { s with pc := .top 0 }, d,
      if cached then cachedLines s.settings s.all else [])
  | .top noProgress =>
    let done := d.ledger
    let remaining := s.all.filter (fun t => !done.has t)
    if remaining = [] then some (some { s with pc := .broke false }, d, [])
    else
      some (some { s with pc := .launch noProgress done.size }, d,
        [launchLine s.all done.size remaining])
  | .launch noProgress before =>
    some (some { s with pc := .await noProgress before (.launched s.settings.corpusCfg) }, d, [])
  | .await .. => none
  | .exited noProgress before how =>
    let result := match how with
      | .zero => CycleResult.done
      | .abnormal what => .exit what
    some (some { s with pc := .returned noProgress before result }, d, [])
  | .returned noProgress before result =>
    let after := d.ledger.size
    let k := Resume.cycle noProgress before after result
    match result with
    | .done => some (some { s with pc := .clean }, d, [])
    | .stall =>
      some (some { s with pc := .harvest ⟨stallReason s.settings, true, .readInflight⟩ k }, d, [])
    | .exit what =>
      some (some { s with pc := .harvest ⟨exitReason what, true, .readInflight⟩ k }, d, [])
  | .clean =>
    some (some { s with pc := .top 0 }, { d with inflight := some (js "[]") }, [])
  | .broke _ =>
    match writeOutputs minutes s.all s.startedAt now d with
    | some (summary, d') =>
      some (none, d', reportLines (outPaths s.settings.outDir s.settings.outDir.text) summary)
    -- `main` is rejected; what `console.error` says of the error is left out
    | none => some (none, d, [])

/-! ## The system -/

structure Sys where
  /-- The output directory. -/
  dir : AbsPath
  disk : Disk
  sup : Option Supervisor
  /-- Live workers whose supervisor has ended. -/
  orphans : List Worker
  console : List JsString
  deriving DecidableEq

/-- An output directory that nobody has worked on. -/
def Sys.fresh (dir : AbsPath) : Sys := ⟨dir, .empty, none, [], []⟩

inductive Event where
  | start (inv : Invocation)
  | sup (now : Int)
  | stall
  | worker (e : WorkerEvent)
  | workerExits
  | workerDies (what : JsString)
  | orphan (i : Nat) (e : WorkerEvent)
  | orphanExits (i : Nat)
  | orphanDies (i : Nat)
  | interrupt
  | containerCrash
  deriving DecidableEq

/-- The current worker, if it is alive. -/
def Sys.current (s : Sys) : List Worker :=
  match s.sup with
  | some ⟨_, _, _, .await _ _ w⟩ => [w]
  | _ => []

/-- `node run-corpus.mjs` with this output directory, up to its first step on a file. A
supervisor that cannot read its manifest ends before it. -/
def Sys.start (h : Host) (s : Sys) (inv : Invocation) : Option Sys :=
  if s.sup = none ∧ inv.settings.outDir = s.dir then
    match inv.settings.all h with
    | none => none
    | some all =>
      if inv.help then
        some { s with console := s.console ++
          ((h.readFile (h.here.resolve (js "run-corpus.mjs"))).map usage).toList }
      else if inv.listOnly then some { s with console := s.console ++ listing all }
      else if inv.fresh then some { s with sup := some ⟨inv.settings, all, 0, .rmProgress⟩ }
      else
        some { s with sup := some ⟨inv.settings, all, 0, startupHarvest⟩
                      console := s.console ++ banner h inv.settings }
  else none

def Sys.step (h : Host) (minutes : Int → JsString) (s : Sys) (e : Event) : Option Sys :=
  match e with
  | .start inv => s.start h inv
  | .sup now =>
    match s.sup with
    | some p =>
      match p.step h minutes s.disk now with
      | some (p', d', lines) =>
        some { s with disk := d', sup := p', console := s.console ++ lines }
      | none => none
    | none => none
  | .stall =>
    match s.sup with
    | some ⟨settings, all, t, .await noProgress before _⟩ =>
      some { s with sup := some ⟨settings, all, t, .returned noProgress before .stall⟩ }
    | some ⟨settings, all, t, .exited noProgress before _⟩ =>
      some { s with sup := some ⟨settings, all, t, .returned noProgress before .stall⟩ }
    | _ => none
  | .worker we =>
    match s.sup with
    | some ⟨settings, all, t, .await noProgress before w⟩ =>
      match w.step h s.disk we with
      | some (w', d') =>
        some { s with disk := d', sup := some ⟨settings, all, t, .await noProgress before w'⟩ }
      | none => none
    | _ => none
  | .workerExits =>
    match s.sup with
    | some ⟨settings, all, t, .await noProgress before w⟩ =>
      if w.canExit then
        some { s with sup := some ⟨settings, all, t, .exited noProgress before .zero⟩ }
      else if w.thread = .rejected then
        some { s with
          sup := some ⟨settings, all, t, .exited noProgress before (.abnormal (js "1"))⟩ }
      else none
    | _ => none
  | .workerDies what =>
    match s.sup with
    | some ⟨settings, all, t, .await noProgress before _⟩ =>
      some { s with sup := some ⟨settings, all, t, .exited noProgress before (.abnormal what)⟩ }
    | _ => none
  | .orphan i we =>
    match s.orphans[i]? with
    | some w =>
      match w.step h s.disk we with
      | some (w', d') => some { s with disk := d', orphans := s.orphans.set i w' }
      | none => none
    | none => none
  | .orphanExits i =>
    match s.orphans[i]? with
    | some w =>
      if w.canExit ∨ w.thread = .rejected then some { s with orphans := s.orphans.eraseIdx i }
      else none
    | none => none
  | .orphanDies i =>
    match s.orphans[i]? with
    | some _ => some { s with orphans := s.orphans.eraseIdx i }
    | none => none
  | .interrupt =>
    match s.sup with
    | some _ => some { s with sup := none, orphans := s.orphans ++ s.current }
    | none => none
  | .containerCrash => some { s with sup := none, orphans := [] }

end Program

end CorpusRunner
