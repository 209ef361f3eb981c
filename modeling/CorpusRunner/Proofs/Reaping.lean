import CorpusRunner.Proofs.SingleWriter

/-!
# Whom a harvest kills

`reapPid` signals whatever has a recorded pid, as a process and as a group. The registry
outlives the process table: after a restart of the container its pids may belong to anybody.
-/

namespace CorpusRunner

open ProcTable

/-- The pids of the entries of a registry. -/
def entryPids (l : List Entry) : List Pid := l.filterMap Entry.pid

/-- The pid that `spawn` has returned and that is not in the map yet. -/
def Worker.justSpawned (w : Worker) : List Pid :=
  match w.thread with
  | .spawned _ pid => pid.toList
  | _ => []

/-- The pids that a worker has. -/
def Worker.pids (w : Worker) : List Pid := entryPids (registry w.inFlight) ++ w.justSpawned

/-- The pids that a harvest has read and not reaped. -/
def HarvestPhase.pids : HarvestPhase → List Pid
  | .readLedger inflight => entryPids inflight
  | .reap entries _ => entryPids entries
  | _ => []

def Pc.pids : Pc → List Pid
  | .harvest h _ => h.phase.pids
  | .await _ _ w => w.pids
  | _ => []

/-- Every pid that the runner may still use: those in `inflight.json`, in a harvest in
progress, and in the live workers. -/
def Sys.pids (s : Sys) : List Pid :=
  entryPids s.disk.inflight ++ s.orphans.flatMap Worker.pids ++ (s.pc.map Pc.pids).getD []

/-- The pid that `spawn` gives to a test's child. -/
def WorkerEvent.childPid : WorkerEvent → Option Pid
  | .spawn _ pid => pid
  | _ => none

def Event.childPid : Event → Option Pid
  | .worker we => we.childPid
  | .orphan _ we => we.childPid
  | _ => none

theorem mem_entryPids_registry {m : JsMap JsString Reg} {x : Pid} :
    x ∈ entryPids (registry m) ↔ ∃ p ∈ m.entries, p.2.pid = some x := by
  simp [entryPids, registry]

/-- A worker's step brings in no pid but that of a child it spawns. -/
theorem WorkerStep.pids {w w' : Worker} {d d' : Disk} {e : WorkerEvent}
    (h : WorkerStep w d e w' d') (x : Pid)
    (hx : x ∈ entryPids d'.inflight ∨ x ∈ w'.pids) :
    x ∈ entryPids d.inflight ∨ x ∈ w.pids ∨ e.childPid = some x := by
  have own : x ∈ entryPids (registry w.inFlight) → x ∈ w.pids := List.mem_append_left _
  have same : x ∈ entryPids d.inflight ∨ x ∈ w.pids →
      x ∈ entryPids d.inflight ∨ x ∈ w.pids ∨ e.childPid = some x := Or.imp_right .inl
  cases h with
  | load ht => exact same (by simpa [Worker.pids, Worker.justSpawned, ht] using hx)
  | clear ht | clearRejects ht =>
    refine .inr (.inl (own ?_))
    simpa [Worker.pids, Worker.justSpawned] using hx
  | @claim now t rest w₁ ht hq hs =>
    rcases hx with hx | hx
    · exact .inl hx
    · simp only [Worker.pids, Worker.justSpawned, List.append_nil, mem_entryPids_registry] at hx
      obtain ⟨p, hp, hpx⟩ := hx
      rcases JsMap.mem_entries_set hp with hp | rfl
      · exact .inr (.inl (own (mem_entryPids_registry.mpr ⟨p, hp, hpx⟩)))
      · cases hpx
  | slotEnd ht hq hs =>
    obtain ⟨-, hth, -, hm, -⟩ := Worker.takeSlot_frame hs
    exact same (by simpa [Worker.pids, Worker.justSpawned, hth, hm, ht] using hx)
  | register ht =>
    refine .inr (.inl (own ?_))
    simpa [Worker.pids, Worker.justSpawned] using hx
  | @spawn t pid ht =>
    simp only [Worker.pids, Worker.justSpawned, List.mem_append, Option.mem_toList] at hx
    rcases hx with hx | hx | hx
    · exact .inl hx
    · exact .inr (.inl (own hx))
    · exact .inr (.inr hx)
  | spawnThrows ht => exact same (by simpa [Worker.pids, Worker.justSpawned, ht] using hx)
  | @mirror t pid ht =>
    have hx' : x ∈ entryPids (registry (w.inFlight.modify t (fun v => { v with pid := pid }))) := by
      simpa [Worker.pids, Worker.justSpawned] using hx
    refine .inr (.inl ?_)
    obtain ⟨p, hp, hpx⟩ := mem_entryPids_registry.mp hx'
    rcases JsMap.mem_entries_modify hp with hp | ⟨v, -, rfl⟩
    · exact own (mem_entryPids_registry.mpr ⟨p, hp, hpx⟩)
    · have hpx' : pid = some x := hpx
      simp [Worker.pids, Worker.justSpawned, ht, hpx']
  | settle ht => exact same (by simpa [Worker.pids, Worker.justSpawned, ht] using hx)
  | append ht => exact same (by simpa [Worker.pids, Worker.justSpawned, ht] using hx)
  | @deregister t ht =>
    have hx' : x ∈ entryPids (registry (w.inFlight.delete t)) := by
      simpa [Worker.pids, Worker.justSpawned] using hx
    obtain ⟨p, hp, hpx⟩ := mem_entryPids_registry.mp hx'
    have hp := (JsMap.mem_entries_delete.mp hp).1
    exact .inr (.inl (own (mem_entryPids_registry.mpr ⟨p, hp, hpx⟩)))

/-- The supervisor brings in none. -/
theorem SupStep.pids {cfg : Config} {at_ now : Int} {d d' : Disk} {pc : Pc}
    {p' : Option Supervisor} (h : SupStep cfg at_ d now pc p' d') (x : Pid)
    (hx : x ∈ entryPids d'.inflight ∨ x ∈ ((p'.map Supervisor.pc).map Pc.pids).getD []) :
    x ∈ entryPids d.inflight ∨ x ∈ pc.pids := by
  cases h with
  | clearCycle reason b np before after result =>
    rcases tally_cases cfg np before after result with ⟨np', ht⟩ | ht <;>
      simp [ht, Pc.pids, entryPids] at hx
  | rmInflight => simp [Pc.pids, HarvestPhase.pids, startupHarvest, entryPids] at hx
  | clearStartup => simp [Pc.pids, entryPids] at hx
  | clean => simp [Pc.pids, entryPids] at hx
  | reap reason b k e es targets =>
    simp only [Option.map_some, Option.getD_some, Pc.pids, HarvestPhase.pids] at hx ⊢
    refine hx.imp_right fun hx => ?_
    simp only [entryPids, List.mem_filterMap] at hx ⊢
    obtain ⟨a, ha, hax⟩ := hx
    exact ⟨a, List.mem_cons_of_mem _ ha, hax⟩
  | _ =>
    simpa [Pc.pids, HarvestPhase.pids, Worker.pids, Worker.justSpawned, Worker.launched,
      startupHarvest, entryPids] using hx

theorem mem_pids {s : Sys} {x : Pid} : x ∈ s.pids ↔ x ∈ entryPids s.disk.inflight ∨
    (∃ w ∈ s.orphans, x ∈ w.pids) ∨ ∃ p, s.sup = some p ∧ x ∈ p.pc.pids := by
  unfold Sys.pids Sys.pc
  cases s.sup <;> simp

/-- A step brings in no pid but that of a child it spawns. -/
theorem pids_of_step {s s' : Sys} {e : Event} (h : s.step e = some s') {x : Pid}
    (hx : x ∈ s'.pids) : x ∈ s.pids ∨ e.childPid = some x := by
  obtain ⟨d, sup, orphans, fallen, clock⟩ := s
  have orph : (∃ w ∈ orphans, x ∈ w.pids) → x ∈ (Sys.mk d sup orphans fallen clock).pids :=
    fun h => mem_pids.mpr (.inr (.inl h))
  have disk : x ∈ entryPids d.inflight → x ∈ (Sys.mk d sup orphans fallen clock).pids :=
    fun h => mem_pids.mpr (.inl h)
  have own : ∀ p, sup = some p → x ∈ p.pc.pids →
      x ∈ (Sys.mk d sup orphans fallen clock).pids :=
    fun p hp h => mem_pids.mpr (.inr (.inr ⟨p, hp, h⟩))
  rw [mem_pids] at hx
  cases sysStep_of_step h with
  | start cfg fresh =>
    rcases hx with hx | hx | ⟨p, ⟨⟩, hx⟩
    · exact .inl (disk hx)
    · exact .inl (orph hx)
    · cases fresh <;> simp [startupHarvest, Pc.pids, HarvestPhase.pids] at hx
  | @sup cfg at_ now pc p' d' hsup =>
    rcases hx with hx | hx | ⟨p, hp, hx⟩
    · exact .inl ((hsup.pids x (.inl hx)).elim disk (own _ rfl))
    · exact .inl (orph hx)
    · obtain rfl : p' = some p := hp
      exact .inl ((hsup.pids x (.inr hx)).elim disk (own _ rfl))
  | stallAwait | stallExited | workerExits | workerThrows | workerDies =>
    rcases hx with hx | hx | ⟨p, ⟨⟩, hx⟩
    · exact .inl (disk hx)
    · exact .inl (orph hx)
    · simp [Pc.pids] at hx
  | @worker cfg at_ np before w w' d' we hw =>
    have hstep : x ∈ entryPids d'.inflight ∨ x ∈ w'.pids →
        x ∈ (Sys.mk d (some ⟨cfg, at_, .await np before w⟩) orphans fallen clock).pids ∨
          (Event.worker we).childPid = some x := by
      intro hx
      rcases hw.pids x hx with h1 | h1 | h1
      · exact .inl (disk h1)
      · exact .inl (own _ rfl h1)
      · exact .inr h1
    rcases hx with hx | hx | ⟨p, ⟨⟩, hx⟩
    · exact hstep (.inl hx)
    · exact .inl (orph hx)
    · exact hstep (.inr hx)
  | @orphan p i w w' d' we hi hw =>
    have hstep : x ∈ entryPids d'.inflight ∨ x ∈ w'.pids →
        x ∈ (Sys.mk d sup orphans fallen clock).pids ∨ (Event.orphan i we).childPid = some x := by
      intro hx
      rcases hw.pids x hx with h1 | h1 | h1
      · exact .inl (disk h1)
      · exact .inl (orph ⟨w, List.mem_of_getElem? hi, h1⟩)
      · exact .inr h1
    rcases hx with hx | ⟨v, hv, hx⟩ | ⟨p, hp, hx⟩
    · exact hstep (.inl hx)
    · rcases List.mem_or_eq_of_mem_set hv with hv | rfl
      · exact .inl (orph ⟨v, hv, hx⟩)
      · exact hstep (.inr hx)
    · exact .inl (own p hp hx)
  | @orphanExits p i w hi hc =>
    rcases hx with hx | ⟨v, hv, hx⟩ | ⟨p, hp, hx⟩
    · exact .inl (disk hx)
    · exact .inl (orph ⟨v, List.mem_of_mem_eraseIdx hv, hx⟩)
    · exact .inl (own p hp hx)
  | @orphanDies p i w hi =>
    rcases hx with hx | ⟨v, hv, hx⟩ | ⟨p, hp, hx⟩
    · exact .inl (disk hx)
    · exact .inl (orph ⟨v, List.mem_of_mem_eraseIdx hv, hx⟩)
    · exact .inl (own p hp hx)
  | @interrupt p =>
    rcases hx with hx | ⟨v, hv, hx⟩ | ⟨p, ⟨⟩, hx⟩
    · exact .inl (disk hx)
    · rcases List.mem_append.mp hv with hv | hv
      · exact .inl (orph ⟨v, hv, hx⟩)
      · obtain ⟨cfg, at_, pc⟩ := p
        cases pc with
        | await np before w =>
          obtain rfl : v = w := by simpa [Sys.current] using hv
          exact .inl (own _ rfl hx)
        | _ => simp [Sys.current] at hv
  | containerCrash =>
    rcases hx with hx | ⟨v, hv, hx⟩ | ⟨p, ⟨⟩, hx⟩
    · exact .inl (disk hx)
    · simp at hv

/-- Whatever runs under the pid `x`, as a process or as a group, belongs to a test. -/
structure TestsOnly (procs : List (Proc Role)) (x : Pid) : Prop where
  two_le : 2 ≤ x
  test : ∀ q ∈ procs, q.running = true → q.pid = x ∨ q.pgid = x → q.role.isTest = true

/-- Whether the supervisor's next step launches a worker. -/
def Sys.launches (s : Sys) : Bool :=
  match s.pc with
  | some (.launch _ _) => true
  | _ => false

/-- No process but a test's gets a pid that the runner may still use. -/
def unlisted (w : World) : WorldEvent → Prop
  | .prog (.start _ _) pid _ => pid ∉ w.sys.pids
  | .prog (.sup _) pid _ => w.sys.launches = true → pid ∉ w.sys.pids
  | .other pid _ => pid ∉ w.sys.pids
  | _ => True

instance (w : World) (e : WorldEvent) : Decidable (unlisted w e) := by
  induction e using WorldEvent.casesOn with
  | prog e pid pgid =>
    induction e using Event.casesOn <;> dsimp only [unlisted] <;> infer_instance
  | _ => dsimp only [unlisted]; infer_instance

namespace TestsOnly

variable {x : Pid} {procs : List (Proc Role)}

/-- A process of the runner or of somebody else comes up under another pid, and so in another
group. -/
theorem append_of_admits (h : TestsOnly procs x) {pid pgid : Pid} {role : Role}
    (ha : admits procs pid pgid = true) (hne : pid ≠ x) :
    TestsOnly (procs ++ [.created pid pgid role]) x := by
  refine ⟨h.two_le, fun q hq hrun hx => ?_⟩
  rcases List.mem_append.mp hq with hq | hq
  · exact h.test q hq hrun hx
  · obtain rfl := List.mem_singleton.mp hq
    exfalso
    rcases hx with hx | hx
    · exact hne hx
    · have hx' : pgid = x := hx
      simp only [admits, Bool.and_eq_true, Bool.or_eq_true, decide_eq_true_eq, List.any_eq_true,
        Bool.not_eq_true'] at ha
      rcases ha.2 with hp | ⟨p, hp, ⟨hr, hg⟩, ht⟩
      · exact hne (hp.symm.trans hx')
      · rw [h.test p hp hr (.inr (hg.trans hx'))] at ht
        cases ht

theorem append_of_test (h : TestsOnly procs x) {q : Proc Role} (ht : q.role.isTest = true) :
    TestsOnly (procs ++ [q]) x := by
  refine ⟨h.two_le, fun p hp hrun hx => ?_⟩
  rcases List.mem_append.mp hp with hp | hp
  · exact h.test p hp hrun hx
  · rw [List.mem_singleton.mp hp]
    exact ht

theorem step {w : World} {e : WorldEvent} {procs' : List (Proc Role)}
    (h : TestsOnly w.os.procs x) (hx : x ∈ w.sys.pids) (hok : unlisted w e)
    (ht : TableStep w e procs') : TestsOnly procs' x := by
  cases ht with
  | aged ha =>
    refine ⟨h.two_le, fun q hq hrun hqx => ?_⟩
    obtain ⟨p, hp, hl⟩ := ha.mem hq
    rw [hl.role]
    refine h.test p hp (hl.running hrun) ?_
    rwa [hl.pid, hl.pgid] at hqx
  | created q hc heq =>
    rw [heq]
    cases hc with
    | supervisor ha => exact h.append_of_admits ha fun he => hok (he ▸ hx)
    | @worker now pid pgid np before hpc hf =>
      have hl : w.sys.launches = true := by simp [Sys.launches, hpc]
      refine h.append_of_admits ?_ fun he => hok hl (he ▸ hx)
      simp [admits, hf]
    | test hv hf => exact h.append_of_test rfl
    | orphanTest hk hf => exact h.append_of_test rfl
    | other ha => exact h.append_of_admits ha fun he => hok (he ▸ hx)
    | fork hp ha ht hf => exact h.append_of_test ht
  | emptied pid pgid he heq => exact ⟨h.two_le, by simp [heq]⟩

/-- A child's pid was free when it was spawned. -/
theorem of_spawn (hf : free procs x = true) {t : JsString} {k : Nat} :
    TestsOnly (procs ++ [.created x x (.test t k)]) x := by
  refine ⟨two_le_of_free hf, fun q hq hrun hx => ?_⟩
  rcases List.mem_append.mp hq with hq | hq
  · obtain ⟨h1, h2⟩ := ne_of_free hf hq hrun
    exact absurd hx (by simp [h1, h2])
  · rw [List.mem_singleton.mp hq]
    rfl

end TestsOnly

theorem workerStep_spawn {os os' : Os} {k : Nat} {v : Worker} {we : WorkerEvent} {x : Pid}
    (h : os.workerStep k v we = some os') (hx : we.childPid = some x) :
    free os.procs x = true ∧ ∃ t, os'.procs = os.procs ++ [.created x x (.test t k)] := by
  cases we with
  | spawn t pid =>
    obtain rfl : pid = some x := hx
    simp only [Os.workerStep] at h
    split at h
    · rename_i hf
      rw [← Option.some.inj h]
      exact ⟨hf, t, rfl⟩
    · cases h
  | _ => cases hx

/-- Every listed pid is, as long as it is listed, a test's. -/
def ReapInv (w : World) : Prop := ∀ x ∈ w.sys.pids, TestsOnly w.os.procs x

theorem ReapInv.step {w w' : World} {e : WorldEvent} (h : ReapInv w) (hok : unlisted w e)
    (hs : w.step e = some w') : ReapInv w' := by
  have ht := World.table hs
  intro x hx
  rcases World.step_cases hs with ⟨ev, pid, pgid, rfl, hsys, hos⟩ | ⟨-, procs, rfl⟩
  · rcases pids_of_step hsys hx with hold | hnew
    · exact (h x hold).step hold hok ht
    · cases ev with
      | worker we =>
        simp only [Os.step, Option.bind_eq_some_iff] at hos
        obtain ⟨v, -, hos⟩ := hos
        obtain ⟨hf, t, heq⟩ := workerStep_spawn hos hnew
        rw [heq]
        exact .of_spawn hf
      | orphan i we =>
        simp only [Os.step] at hos
        split at hos
        · obtain ⟨hf, t, heq⟩ := workerStep_spawn hos hnew
          rw [heq]
          exact .of_spawn hf
        · cases hos
      | _ => cases hnew
  · exact (h x hx).step hx hok ht

/-- The next SIGKILL of a harvest reaches processes of tests only. -/
def ReapConfined (w : World) : Prop :=
  ∀ reason b e entries targets k,
    w.sys.pc = some (.harvest ⟨reason, b, .reap (e :: entries) targets⟩ k) →
    ∀ q ∈ w.os.procs, reapReaches e.pid q = true → q.role.isTest = true

/-- **Reaping is confined to test processes**, in every run in which no other process gets a
pid that the runner may still use. -/
theorem reapConfined {es : List WorldEvent} {w : World}
    (h : Run World.step unlisted (World.idle Disk.empty) es w) : ReapConfined w := by
  have hI : ReapInv w := h.invariant (by simp [ReapInv, World.idle, Sys.idle, Disk.empty,
    Sys.pids, entryPids, Sys.pc]) fun _ _ _ hI hok hs => hI.step hok hs
  intro reason b e entries targets k hpc q hq hr
  unfold reapReaches at hr
  split at hr
  · cases hr
  · rename_i x hx
    have hmem : x ∈ w.sys.pids := by
      obtain ⟨p, hp, hpc⟩ := Option.map_eq_some_iff.mp hpc
      exact mem_pids.mpr
        (.inr (.inr ⟨p, hp, by simp [hpc, Pc.pids, HarvestPhase.pids, entryPids, hx]⟩))
    have ht := hI x hmem
    simp only [Bool.and_eq_true, Bool.or_eq_true, Proc.inGroup, Proc.hasPid,
      decide_eq_true_eq] at hr
    rcases hr.2 with ⟨hrun, hg | h1⟩ | ⟨hrun, hp⟩
    · exact ht.test q hq hrun (.inr hg)
    · rw [h1] at ht
      exact absurd ht.two_le (by decide)
    · exact ht.test q hq hrun (.inl hp)

/-- A restart of the container while `inflight.json` lists the pid 12. -/
def restarted : List WorldEvent := workerAtWork ++ [.prog .containerCrash 0 0]

/-- After the restart nobody but a test has got the pid 12. -/
def freshPids : List WorldEvent :=
  restarted ++ [.other 20 20, .prog (.start oneSlot false) 21 20] ++
  List.replicate 2 (.prog (.sup 2) 0 0)

theorem reapConfined_freshPids :
    ∃ w, execute World.step unlisted (World.idle Disk.empty) freshPids = some w ∧
      w.sys.pids = [12, 12] ∧ ReapConfined w := by
  have confined : ∀ w, execute World.step unlisted (World.idle Disk.empty) freshPids = some w →
      ReapConfined w := fun w hw => reapConfined (run_of_execute hw)
  exact ⟨_, rfl, rfl, confined _ rfl⟩

/-- After the restart the shell has the pid 12, and the supervisor runs in its group. -/
def recycledPid : List WorldEvent :=
  restarted ++ [.other 12 12, .prog (.start oneSlot false) 13 12] ++
  List.replicate 2 (.prog (.sup 2) 0 0)

/-- The startup harvest sends SIGKILL to the shell and to the supervisor itself. -/
theorem reapConfined_fails_recycledPid :
    ∃ w, execute World.step unrestricted (World.idle Disk.empty) recycledPid = some w ∧
      w.os.procs = [.created 12 12 .other, .created 13 12 .supervisor] ∧
      ((w.step (.prog (.sup 2) 0 0)).map (fun w' => w'.os.procs.map Proc.sigkilled)) =
        some [true, true] ∧
      ¬ ReapConfined w := by
  refine ⟨_, rfl, rfl, rfl, fun h => ?_⟩
  have := h _ _ _ _ _ _ rfl (.created 12 12 .other) (by decide) (by decide)
  cases this

end CorpusRunner
