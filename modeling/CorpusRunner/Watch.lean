import CorpusRunner.RunOne
import CorpusRunner.System

/-!
# One worker under watch, with a clock

`runWorkerOnce` (`run-corpus.mjs:116-137`) beside the worker it has spawned and the calls of
`runOne` that the worker has running, on a clock of milliseconds. A timer fires when it is due,
and everything else takes no time: the clock ticks only when neither process has anything to do.
What the children do, and when, is left open; so is how long their pipes stay open, and a worker
that has recorded everything does not end before they are closed.
-/

namespace CorpusRunner

/-- The variables of `runWorkerOnce`, and the time at which its `setInterval` calls next. -/
structure Poll where
  next : Nat
  lastCount : Nat
  lastGrow : Nat
  deriving DecidableEq, Repr

structure Watch where
  now : Nat
  worker : Worker
  disk : Disk
  /-- The calls of `runOne` that the worker awaits. -/
  runs : JsMap JsString RunOne
  /-- The tests whose child, pipes or late timers keep the worker alive. -/
  held : List JsString
  poll : Poll
  /-- `TIMEOUT` (`run-corpus.mjs:50`). -/
  timeout : Int
  /-- What `runWorkerOnce` has resolved with. -/
  result : Option CycleResult

inductive WatchEvent where
  /-- A step of the worker in which no promise of `runOne` is made or handed over. -/
  | worker (e : WorkerEvent)
  | spawn (t : JsString) (pid : Option Pid) (flags : List JsString) (ending : Ending)
  | spawnThrows (t : JsString) (flags : List JsString) (msg : JsString)
  /-- The slot of the test goes on with the record. -/
  | settle (t : JsString)
  /-- A handler of the test's `runOne` is called. -/
  | child (t : JsString) (e : RunEvent)
  /-- Nothing of the test keeps the worker alive any more. -/
  | released (t : JsString)
  /-- The worker ends by itself, and its `exit` event is delivered. -/
  | exits
  | poll
  | tick

/-- The steps that need no `runOne`; a claim reads the clock. -/
def WorkerEvent.own (now : Nat) : WorkerEvent → Bool
  | .claim n => decide (n = now)
  | .spawn .. | .spawnThrows _ | .settle _ => false
  | _ => true

/-- A timer does not fire before it is due. -/
def RunEvent.due (now : Nat) : RunEvent → Bool
  | .fire t _ => decide (t.due ≤ now)
  | _ => true

namespace Watch

/-- A worker has been spawned at time 0, with the ledger as it is then; the first poll comes
`phase` later. -/
def launched (cfg : Config) (timeout : Int) (phase : Nat) (lines : List Rec) : Watch :=
  { now := 0
    worker := .launched cfg
    disk := ⟨lines, [], none⟩
    runs := .empty
    held := []
    poll := ⟨phase, (readLedger lines).size, 0⟩
    timeout
    result := none }

/-- `main` has returned in the worker, and nothing keeps its event loop alive. -/
def drained (s : Watch) : Bool := s.worker.canExit && s.held.isEmpty

/-- Nothing is left to do at this time: every slot waits for its test or has returned, no test has
settled, no timer of one that is awaited is due, and neither is the poll. -/
def quiet (s : Watch) : Bool :=
  decide (s.worker.thread = .idle) && s.worker.unstarted == 0 && s.worker.looping == 0 &&
    !s.drained &&
    s.runs.entries.all (fun p =>
      !p.2.settled && p.2.timers.pending.all (fun t => decide (s.now < t.due))) &&
    decide (s.now < s.poll.next)

/-- The worker takes a step; the calls of `runOne`, and what keeps it alive, are then these. -/
def advance (s : Watch) (e : WorkerEvent) (runs : JsMap JsString RunOne) (held : List JsString) :
    Option Watch :=
  (s.worker.step s.disk e).map (fun p =>
    { s with worker := p.1, disk := p.2, runs := runs, held := held })

/-- The poll (`run-corpus.mjs:122-131`). -/
def onPoll (s : Watch) : Watch :=
  let count := (readLedger s.disk.progress).size
  let poll : Poll :=
    if s.poll.lastCount < count then ⟨s.now + 3000, count, s.now⟩
    else { s.poll with next := s.now + 3000 }
  { s with
    poll
    result :=
      if s.worker.cfg.stallMs < (s.now : Int) - poll.lastGrow then some .stall else none }

/-- One step, as long as `runWorkerOnce` has not returned. -/
def step (s : Watch) (e : WatchEvent) : Option Watch :=
  if s.result = none then
    match e with
    | .worker e => if e.own s.now then s.advance e s.runs s.held else none
    | .spawn t pid flags ending =>
      s.advance (.spawn t pid) (s.runs.set t (.spawned t flags ending s.timeout s.now))
        (s.held ++ [t])
    | .spawnThrows t flags msg =>
      s.advance (.spawnThrows t) (s.runs.set t (.threw t flags msg s.now)) s.held
    | .settle t =>
      match (s.runs.get? t).map RunOne.resolved with
      | some (r :: _) => s.advance (.settle r) (s.runs.delete t) s.held
      | _ => none
    | .child t e =>
      if s.worker.thread = .idle ∧ s.worker.unstarted = 0 ∧ e.due s.now then
        match s.runs.get? t with
        | some run =>
          (run.step (s.now, e)).map (fun run' => { s with runs := s.runs.set t run' })
        | none => none
      else none
    | .released t =>
      if (s.runs.get? t).isNone then some { s with held := s.held.filter (· ≠ t) } else none
    | .exits =>
      if s.worker.thread = .rejected then some { s with result := some (.exit (js "1")) }
      else if s.drained then some { s with result := some .done }
      else none
    | .poll => if s.poll.next = s.now then some s.onPoll else none
    | .tick => if s.quiet then some { s with now := s.now + 1 } else none
  else none

end Watch

end CorpusRunner
