import CorpusRunner.Lib.Inflight
import CorpusRunner.Lib.TestSet
import CorpusRunner.Format
import CorpusRunner.Pool

/-!
# The worker

`corpus-worker.mjs:91-115` as a step function. The JavaScript thread runs one slot of the pool
at a time, from the claim of a test to the `await` and from the settled promise to the next
look at the queue; between two of its steps the worker may be killed, so that every write of a
file and every `spawn` is a step of its own. `Thread` is where the thread stands.
-/

namespace CorpusRunner

/-- The output directory: the lines of `progress.jsonl` (a missing file has none),
`inflight.json` and `corpus-results.json`. -/
structure Disk where
  progress : List Rec
  inflight : List Entry
  summary : Option Summary
  deriving DecidableEq

def Disk.empty : Disk := ⟨[], [], none⟩

/-- Where the worker's thread stands between two steps. -/
inductive Thread where
  /-- `main` has not read the ledger yet. -/
  | boot
  /-- `todo` is computed; the first `writeInflight` is due. -/
  | loaded
  /-- No slot is running: the next slot starts, or an event is awaited. -/
  | idle
  /-- After `inFlight.set`. -/
  | claimed (t : JsString)
  /-- After the first `writeInflight` of the test. -/
  | registered (t : JsString)
  /-- `spawn` has returned; `onSpawn` has not run. -/
  | spawned (t : JsString) (pid : Option Pid)
  /-- `runOne` has resolved. -/
  | settled (r : RunRec)
  /-- The record is appended. -/
  | appended (t : JsString)
  /-- `Array.from` has thrown; `main` is rejected, and `process.exit(1)` is due. -/
  | rejected
  deriving DecidableEq, Repr

structure Worker where
  cfg : Config
  thread : Thread
  /-- `items.slice(i)`: what no slot has claimed yet. -/
  queue : List JsString
  /-- Slots that `Array.from` has yet to start. -/
  unstarted : Nat
  /-- Slots that are back at `while (i < items.length)`. -/
  looping : Nat
  inFlight : JsMap JsString Reg
  deriving DecidableEq

/-- A worker just launched. -/
def Worker.launched (cfg : Config) : Worker :=
  { cfg, thread := .boot, queue := [], unstarted := 0, looping := 0, inFlight := .empty }

inductive WorkerEvent where
  | load
  | clear
  | claim (now : Nat)
  | slotEnd
  | register
  | spawn (t : JsString) (pid : Option Pid)
  | spawnThrows (t : JsString)
  | mirror
  | settle (r : RunRec)
  | append
  | deregister
  deriving DecidableEq, Repr

def Worker.takeSlot (w : Worker) : Option Worker :=
  (nextSlot w.unstarted w.looping).map fun n => { w with unstarted := n.1, looping := n.2 }

/-- One step of `main` and of the pool's slots (`corpus-worker.mjs:91-115`). -/
def Worker.step (w : Worker) (d : Disk) (e : WorkerEvent) : Option (Worker × Disk) :=
  match w.thread, e with
  | .boot, .load =>
    let done := readLedger d.progress
    -- a negative `length` makes `Array.from` start no slot at all
    some ({ w with thread := .loaded
                   queue := w.cfg.all.tests.filter (fun t => !done.has t)
                   unstarted := w.cfg.concurrency.toNat }, d)
  | .loaded, .clear =>
    let thread := if w.cfg.concurrency < arrayLimit then Thread.idle else .rejected
    some ({ w with thread := thread }, { d with inflight := registry w.inFlight })
  | .idle, .claim now =>
    match w.queue, w.takeSlot with
    | t :: rest, some w' =>
      some ({ w' with thread := .claimed t, queue := rest
                      inFlight := w.inFlight.set t ⟨now, none⟩ }, d)
    | _, _ => none
  | .idle, .slotEnd =>
    match w.queue, w.takeSlot with
    | [], some w' => some (w', d)
    | _, _ => none
  | .claimed t, .register =>
    some ({ w with thread := .registered t }, { d with inflight := registry w.inFlight })
  | .registered t, .spawn t' pid =>
    if t' = t then some ({ w with thread := .spawned t pid }, d) else none
  | .registered t, .spawnThrows t' =>
    -- `finalize` runs at once; its record is handed over when the promise's turn comes
    if t' = t then some ({ w with thread := .idle }, d) else none
  | .spawned t pid, .mirror =>
    let m := w.inFlight.modify t (fun v => { v with pid := pid })
    some ({ w with thread := .idle, inFlight := m }, { d with inflight := registry m })
  | .idle, .settle r =>
    if w.unstarted = 0 ∧ r.test ∈ w.inFlight.keys then
      some ({ w with thread := .settled r }, d)
    else none
  | .settled r, .append =>
    some ({ w with thread := .appended r.test }, { d with progress := d.progress ++ [.ran r] })
  | .appended t, .deregister =>
    let m := w.inFlight.delete t
    some ({ w with thread := .idle, looping := w.looping + 1, inFlight := m },
      { d with inflight := registry m })
  | _, _ => none

/-- The process ends by itself, with status 0, once every slot has returned. -/
def Worker.canExit (w : Worker) : Bool :=
  decide (w.thread = .idle) && w.unstarted == 0 && w.looping == 0 && w.inFlight.keys.isEmpty

/-- Of the tests in the map, those whose child has been spawned and whose record has not been
appended. -/
def Thread.running (thread : Thread) (claimed : List JsString) : List JsString :=
  match thread with
  | .claimed t => claimed.filter (fun a => decide (a ≠ t))
  | .registered t => claimed.filter (fun a => decide (a ≠ t))
  | .appended t => claimed.filter (fun a => decide (a ≠ t))
  | _ => claimed

/-- The tests whose child the worker has spawned and whose record it has not appended. -/
def Worker.running (w : Worker) : List JsString := w.thread.running w.inFlight.keys

end CorpusRunner
