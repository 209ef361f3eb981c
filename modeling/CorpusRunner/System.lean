import CorpusRunner.Worker

/-!
# The supervisor and the whole system

`run-corpus.mjs` as a step function over the output directory, one supervisor, its current
worker, and the workers that have outlived their supervisor (they are spawned `detached`).
A step is a read, an append, a whole-file write, a signal, or the outcome of
`runWorkerOnce`; whatever happens between two of them is pure.
-/

namespace CorpusRunner

/-- What `runWorkerOnce` resolves with (`run-corpus.mjs:117`). -/
inductive CycleResult where
  | done
  | stall
  | exit (what : JsString)
  deriving DecidableEq, Repr

/-- Where control goes after a harvest. -/
inductive Resume where
  | startup
  | cycle (noProgress : Int) (before after : Nat) (result : CycleResult)
  deriving DecidableEq, Repr

/-- The steps of `harvestInflight` (`run-corpus.mjs:81-96`). -/
inductive HarvestPhase where
  | readInflight
  | readLedger (inflight : List Entry)
  | reap (entries targets : List Entry)
  | append (targets : List Entry)
  | clear
  deriving DecidableEq, Repr

structure Harvest where
  reason : JsString
  onlyOldest : Bool
  phase : HarvestPhase
  deriving DecidableEq, Repr

/-- How a worker's process ended: `exit` with 0, or `code ?? signal`. -/
inductive WorkerEnd where
  | zero
  | abnormal (what : JsString)
  deriving DecidableEq, Repr

inductive Pc where
  | rmProgress
  | rmInflight
  | harvest (h : Harvest) (k : Resume)
  /-- The top of `while (true)`. -/
  | top (noProgress : Int)
  | launch (noProgress : Int) (before : Nat)
  | await (noProgress : Int) (before : Nat) (w : Worker)
  /-- The worker is gone; its `exit` event has not been delivered. -/
  | exited (noProgress : Int) (before : Nat) (how : WorkerEnd)
  | returned (noProgress : Int) (before : Nat) (result : CycleResult)
  /-- `clearInflight` after a clean exit. -/
  | clean
  /-- Out of the loop, before `writeOutputs`. -/
  | broke (aborted : Bool)
  deriving DecidableEq

structure Supervisor where
  cfg : Config
  startedAt : Int
  pc : Pc
  deriving DecidableEq

structure Sys where
  disk : Disk
  sup : Option Supervisor
  /-- Live workers whose supervisor has ended. -/
  orphans : List Worker
  /-- Workers that died and have not been harvested since, as they were when they died. -/
  fallen : List Worker
  /-- The last `Date.now()` that a claim has read. -/
  clock : Nat
  deriving DecidableEq

/-- An output directory nobody works on. -/
def Sys.idle (d : Disk) : Sys := ⟨d, none, [], [], 0⟩

inductive Event where
  | start (cfg : Config) (fresh : Bool)
  /-- The next step of the supervisor, at the given time. -/
  | sup (now : Int)
  /-- The poll callback finds no growth for `STALL_MS`. -/
  | stall
  | worker (e : WorkerEvent)
  /-- The worker ends by itself: every slot has returned, or `main` is rejected. -/
  | workerExits
  | workerDies (what : JsString)
  | orphan (i : Nat) (e : WorkerEvent)
  | orphanExits (i : Nat)
  | orphanDies (i : Nat)
  /-- The supervisor is ended (SIGINT, an uncaught error); its worker is not. -/
  | interrupt
  | containerCrash
  deriving DecidableEq

def startupReason : JsString :=
  js "in-flight when a prior run died; skipped to make progress"

def stallReason (cfg : Config) : JsString :=
  js "stalled WC for >" ++ intToJs cfg.stallMs ++ js "ms; killed + skipped"

def exitReason (what : JsString) : JsString :=
  js "worker exited abnormally (exit:" ++ what ++ js "); skipped"

/-- The startup recovery (`run-corpus.mjs:159`). -/
def startupHarvest : Pc := .harvest ⟨startupReason, false, .readInflight⟩ .startup

/-- The end of a cycle (`run-corpus.mjs:195-204`). -/
def tally (cfg : Config) (noProgress : Int) (before after : Nat) (result : CycleResult) : Pc :=
  if after ≤ before ∧ result ≠ .done then
    if noProgress + 1 ≥ cfg.maxNoProgress then .broke true else .top (noProgress + 1)
  else .top 0

/-- `writeOutputs` (`run-corpus.mjs:107-114`). -/
def writeOutputs (all : List JsString) (lines : List Rec) (startedAt now : Int) : Summary :=
  let ledger := readLedger lines
  let results := all.filterMap ledger.get?
  writeJsonResults (results.map Rec.result) startedAt now

/-- One step of `harvestInflight`; `none` as the next phase is its return. A signal leaves
nothing on the disk: the processes it reaches are the subject of `CorpusRunner.Process`. -/
def Harvest.step (h : Harvest) (d : Disk) : Option HarvestPhase × Disk :=
  match h.phase with
  | .readInflight => (some (.readLedger d.inflight), d)
  | .readLedger inflight =>
    let targets := harvestTargets h.onlyOldest inflight (CorpusRunner.readLedger d.progress)
    (some (.reap inflight targets), d)
  | .reap (_ :: entries) targets => (some (.reap entries targets), d)
  | .reap [] targets => (some (.append targets), d)
  | .append (e :: targets) =>
    (some (.append targets), { d with progress := d.progress ++ [.crashMark e.test h.reason] })
  | .append [] => (some .clear, d)
  | .clear => (none, { d with inflight := [] })

/-- One step of `main` (`run-corpus.mjs:139-216`). -/
def Supervisor.step (s : Supervisor) (d : Disk) (now : Int) : Option (Option Supervisor × Disk) :=
  match s.pc with
  | .rmProgress => some (some { s with pc := .rmInflight }, { d with progress := [] })
  | .rmInflight => some (some { s with pc := startupHarvest }, { d with inflight := [] })
  | .harvest h k =>
    match h.step d with
    | (some phase, d') => some (some { s with pc := .harvest { h with phase } k }, d')
    | (none, d') =>
      match k with
      | .startup => some (some { s with startedAt := now, pc := .top 0 }, d')
      | .cycle noProgress before after result =>
        some (some { s with pc := tally s.cfg noProgress before after result }, d')
  | .top noProgress =>
    let done := readLedger d.progress
    let remaining := s.cfg.all.tests.filter (fun t => !done.has t)
    if remaining = [] then some (some { s with pc := .broke false }, d)
    else some (some { s with pc := .launch noProgress done.size }, d)
  | .launch noProgress before =>
    some (some { s with pc := .await noProgress before (.launched s.cfg) }, d)
  | .await .. => none
  | .exited noProgress before how =>
    let result := match how with
      | .zero => CycleResult.done
      | .abnormal what => .exit what
    some (some { s with pc := .returned noProgress before result }, d)
  | .returned noProgress before result =>
    let after := (readLedger d.progress).size
    let k := Resume.cycle noProgress before after result
    match result with
    | .done => some (some { s with pc := .clean }, d)
    | .stall =>
      some (some { s with pc := .harvest ⟨stallReason s.cfg, true, .readInflight⟩ k }, d)
    | .exit what =>
      some (some { s with pc := .harvest ⟨exitReason what, true, .readInflight⟩ k }, d)
  -- `result === "done"` resets the counter
  | .clean => some (some { s with pc := .top 0 }, { d with inflight := [] })
  | .broke _ =>
    let summary := writeOutputs s.cfg.all.tests d.progress s.startedAt now
    some (none, { d with summary := some summary })

/-- Whether the supervisor's next step empties the registry after a harvest. -/
def Pc.harvestEnds : Pc → Bool
  | .harvest ⟨_, _, .clear⟩ _ => true
  | _ => false

/-- The current worker, if it is alive. -/
def Sys.current (s : Sys) : List Worker :=
  match s.sup with
  | some ⟨_, _, .await _ _ w⟩ => [w]
  | _ => []

/-- Every live worker process. -/
def Sys.live (s : Sys) : List Worker := s.current ++ s.orphans

/-- The clock after a worker's step. -/
def clockAfter (clock : Nat) : WorkerEvent → Nat
  | .claim now => now
  | _ => clock

def Sys.step (s : Sys) (e : Event) : Option Sys :=
  match e with
  | .start cfg fresh =>
    match s.sup with
    | none =>
      let pc := if fresh then .rmProgress else startupHarvest
      some { s with sup := some ⟨cfg, 0, pc⟩ }
    | some _ => none
  | .sup now =>
    match s.sup with
    | some p =>
      match p.step s.disk now with
      | some (p', d') =>
        let fallen := if p.pc.harvestEnds then [] else s.fallen
        some { s with disk := d', sup := p', fallen := fallen }
      | none => none
    | none => none
  | .stall =>
    match s.sup with
    | some ⟨cfg, t, .await noProgress before w⟩ =>
      some { s with sup := some ⟨cfg, t, .returned noProgress before .stall⟩
                    fallen := s.fallen ++ [w] }
    | some ⟨cfg, t, .exited noProgress before _⟩ =>
      -- the poll fires between the worker's end and its `exit` event
      some { s with sup := some ⟨cfg, t, .returned noProgress before .stall⟩ }
    | _ => none
  | .worker we =>
    match s.sup with
    | some ⟨cfg, t, .await noProgress before w⟩ =>
      match w.step s.disk we with
      | some (w', d') =>
        some { s with disk := d', sup := some ⟨cfg, t, .await noProgress before w'⟩
                      clock := clockAfter s.clock we }
      | none => none
    | _ => none
  | .workerExits =>
    match s.sup with
    | some ⟨cfg, t, .await noProgress before w⟩ =>
      if w.canExit then some { s with sup := some ⟨cfg, t, .exited noProgress before .zero⟩ }
      else if w.thread = .rejected then
        some { s with sup := some ⟨cfg, t, .exited noProgress before (.abnormal (js "1"))⟩ }
      else none
    | _ => none
  | .workerDies what =>
    match s.sup with
    | some ⟨cfg, t, .await noProgress before w⟩ =>
      some { s with sup := some ⟨cfg, t, .exited noProgress before (.abnormal what)⟩
                    fallen := s.fallen ++ [w] }
    | _ => none
  | .orphan i we =>
    match s.orphans[i]? with
    | some w =>
      match w.step s.disk we with
      | some (w', d') =>
        some { s with disk := d', orphans := s.orphans.set i w'
                      clock := clockAfter s.clock we }
      | none => none
    | none => none
  | .orphanExits i =>
    match s.orphans[i]? with
    | some w =>
      if w.canExit ∨ w.thread = .rejected then some { s with orphans := s.orphans.eraseIdx i }
      else none
    | none => none
  | .orphanDies i =>
    match s.orphans[i]? with
    | some w => some { s with orphans := s.orphans.eraseIdx i, fallen := s.fallen ++ [w] }
    | none => none
  | .interrupt =>
    match s.sup with
    | some _ => some { s with sup := none, orphans := s.orphans ++ s.current }
    | none => none
  | .containerCrash =>
    some { s with sup := none, orphans := [], fallen := s.fallen ++ s.live }

end CorpusRunner
