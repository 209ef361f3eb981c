import CorpusRunner.System
import CorpusRunner.Misc.ProcTable

/-!
# The processes

`CorpusRunner.System` with the table of the processes that supervisors, workers and tests run
in, and of any other process of the container: who has which pid, and what `kill` reaches.
`spawn` with `detached` puts its child into a group of its own. The table names processes by
their place in it; pids may be handed out again as soon as they are free, and a restart of the
container empties the table.

The cap's `hardKill` (`corpus-worker.mjs:83-87`) is not a step of its own: it ends the test's
processes, which may end at any time.
-/

namespace CorpusRunner

/-- What a process was created as. -/
inductive Role where
  | supervisor
  /-- Launched by the supervisor with this number. -/
  | worker (session : Nat)
  /-- The child that the worker at this place spawned for a test, or a process it forked. -/
  | test (t : JsString) (worker : Nat)
  | other
  deriving DecidableEq, Repr

def Role.isTest : Role → Bool
  | .test _ _ => true
  | _ => false

/-- The processes, and which of them the supervisor, its worker and the workers without a
supervisor run in, as places in the table. -/
structure Os where
  procs : List (Proc Role)
  supervisor : Nat
  worker : Nat
  orphans : List Nat
  /-- How many supervisors have been started. -/
  session : Nat
  /-- The last of them that has come to the end of its startup harvest. -/
  harvested : Nat
  deriving DecidableEq

/-- `reapPid` (`run-corpus.mjs:73-77`); `0` and `null` are not signalled. -/
def reapPid (procs : List (Proc Role)) : Option Pid → List (Proc Role)
  | none => procs
  | some pid =>
    if pid = 0 then procs
    else ProcTable.signal (Proc.hasPid pid) (ProcTable.signal (Proc.inGroup pid) procs)

/-- `hardKill` (`corpus-worker.mjs:43-46`): the child leads the group. -/
def hardKill (procs : List (Proc Role)) : Option Pid → List (Proc Role)
  | none => procs
  | some pid => ProcTable.signal (Proc.inGroup pid) procs

/-- Whether a process that is no test may be created with this pid in this group: the pid is
free, and the group is its own or one of a process that is no test. -/
def admits (procs : List (Proc Role)) (pid pgid : Pid) : Bool :=
  ProcTable.free procs pid && (pgid = pid ||
    procs.any (fun p => p.running && decide (p.pgid = pgid) && !p.role.isTest))

/-- The pid of the child that runs a test, as the worker has it. -/
def Worker.childPid (w : Worker) (t : JsString) : Option Pid :=
  (w.inFlight.get? t).bind Reg.pid

/-- What a step of the worker `w` at place `k` does to the processes. -/
def Os.workerStep (os : Os) (k : Nat) (w : Worker) : WorkerEvent → Option Os
  | .spawn t (some pid) =>
    if ProcTable.free os.procs pid then
      some { os with procs := os.procs ++ [.created pid pid (.test t k)] }
    else none
  | .settle r => some { os with procs := hardKill os.procs (w.childPid r.test) }
  | _ => some os

/-- What a step of the supervisor does to the processes; a worker it launches gets `pid`. -/
def Os.supStep (os : Os) (pid : Pid) : Pc → Option Os
  | .launch _ _ =>
    if ProcTable.free os.procs pid then
      some { os with procs := os.procs ++ [.created pid pid (.worker os.session)]
                     worker := os.procs.length }
    else none
  | .harvest ⟨_, _, .reap (e :: _) _⟩ _ => some { os with procs := reapPid os.procs e.pid }
  | .harvest ⟨_, _, .clear⟩ .startup => some { os with harvested := os.session }
  | .broke _ => some { os with procs := ProcTable.ends os.supervisor os.procs }
  | _ => some os

/-- The pid of the process at a place. -/
def Os.pidOf (os : Os) (i : Nat) : Option Pid := os.procs[i]?.map Proc.pid

/-- What an event of the program, taken in `s`, does to the processes; `pid` and `pgid` are
those of the process it creates. -/
def Os.step (os : Os) (s : Sys) (pid pgid : Pid) : Event → Option Os
  | .start _ _ =>
    if admits os.procs pid pgid then
      some { os with procs := os.procs ++ [.created pid pgid .supervisor]
                     supervisor := os.procs.length, session := os.session + 1 }
    else none
  | .sup _ => (s.sup.map Supervisor.pc).bind (os.supStep pid)
  | .stall =>
    -- `process.kill(-worker.pid)`; the worker itself is gone at once
    some { os with procs := ProcTable.ends os.worker (hardKill os.procs (os.pidOf os.worker)) }
  | .worker we => s.current.head?.bind (fun w => os.workerStep os.worker w we)
  | .workerExits => some { os with procs := ProcTable.ends os.worker os.procs }
  | .workerDies _ => some { os with procs := ProcTable.ends os.worker os.procs }
  | .orphan i we =>
    match os.orphans[i]?, s.orphans[i]? with
    | some k, some w => os.workerStep k w we
    | _, _ => none
  | .orphanExits i =>
    os.orphans[i]?.map (fun k =>
      { os with procs := ProcTable.ends k os.procs, orphans := os.orphans.eraseIdx i })
  | .orphanDies i =>
    os.orphans[i]?.map (fun k =>
      { os with procs := ProcTable.ends k os.procs, orphans := os.orphans.eraseIdx i })
  | .interrupt =>
    some { os with procs := ProcTable.ends os.supervisor os.procs
                   orphans := os.orphans ++ s.current.map (fun _ => os.worker) }
  | .containerCrash => some { os with procs := [], orphans := [] }

structure World where
  sys : Sys
  os : Os
  deriving DecidableEq

/-- An output directory nobody works on, in a container without processes. -/
def World.idle (d : Disk) : World := ⟨Sys.idle d, ⟨[], 0, 0, [], 0, 0⟩⟩

inductive WorldEvent where
  /-- An event of the program, with the pid and the group of the process it creates. -/
  | prog (e : Event) (pid pgid : Pid)
  /-- A process that has nothing to do with the runner comes up. -/
  | other (pid pgid : Pid)
  /-- A process of a test forks. -/
  | fork (i : Nat) (pid : Pid)
  /-- A process of a test, or one that has nothing to do with the runner, ends. -/
  | ends (i : Nat)
  deriving DecidableEq

def World.step (w : World) : WorldEvent → Option World
  | .prog e pid pgid =>
    match w.sys.step e, w.os.step w.sys pid pgid e with
    | some sys, some os => some ⟨sys, os⟩
    | _, _ => none
  | .other pid pgid =>
    if admits w.os.procs pid pgid then
      some { w with os.procs := w.os.procs ++ [.created pid pgid .other] }
    else none
  | .fork i pid =>
    match w.os.procs[i]? with
    | some p =>
      if p.active && p.role.isTest && ProcTable.free w.os.procs pid then
        some { w with os.procs := w.os.procs ++ [.created pid p.pgid p.role] }
      else none
    | none => none
  | .ends i =>
    match w.os.procs[i]? with
    | some p =>
      if p.role.isTest || p.role = .other then
        some { w with os.procs := ProcTable.ends i w.os.procs }
      else none
    | none => none

/-- An event of the world is one of the program, or changes nothing but the table. -/
theorem World.step_cases {w w' : World} {e : WorldEvent} (h : w.step e = some w') :
    (∃ ev pid pgid, e = .prog ev pid pgid ∧ w.sys.step ev = some w'.sys ∧
      w.os.step w.sys pid pgid ev = some w'.os) ∨
    (∀ ev pid pgid, e ≠ .prog ev pid pgid) ∧
      ∃ procs, w' = ⟨w.sys, { w.os with procs := procs }⟩ := by
  cases e with
  | prog ev pid pgid =>
    simp only [step] at h
    split at h
    · rename_i hs ho
      rw [← Option.some.inj h]
      exact .inl ⟨ev, pid, pgid, rfl, hs, ho⟩
    · cases h
  | other pid pgid =>
    simp only [step] at h
    split at h
    · exact .inr ⟨by simp, _, (Option.some.inj h).symm⟩
    · cases h
  | fork i pid =>
    simp only [step] at h
    split at h
    · split at h
      · exact .inr ⟨by simp, _, (Option.some.inj h).symm⟩
      · cases h
    · cases h
  | ends i =>
    simp only [step] at h
    split at h
    · split at h
      · exact .inr ⟨by simp, _, (Option.some.inj h).symm⟩
      · cases h
    · cases h

end CorpusRunner
