import CorpusRunner.Proofs.Reaping

/-!
# When no test process is left behind

The runner finds the processes of an earlier worker through the pids that have survived in
`inflight.json`. The invariant is that every active test process is *covered*: its group is in
the registry, in what a harvest has still to reap, or in the worker that spawned it.
-/

namespace CorpusRunner

open ProcTable

/-- Every active process of a test is in one of the groups. -/
def Covered (procs : List (Proc Role)) (groups : List Pid) : Prop :=
  ∀ q ∈ procs, q.active = true → q.role.isTest = true → q.pgid ∈ groups

namespace Covered

variable {procs procs' : List (Proc Role)} {groups groups' : List Pid}

theorem mono (h : Covered procs groups) (hsub : ∀ x ∈ groups, x ∈ groups') :
    Covered procs groups' :=
  fun q hq ha ht => hsub _ (h q hq ha ht)

theorem aged (h : Covered procs groups) (ha : Aged procs procs') : Covered procs' groups :=
  fun q hq hact ht => h q (ha.mem_of_active hq hact) hact ht

theorem append (h : Covered procs groups) {p : Proc Role}
    (hp : p.role.isTest = true → p.pgid ∈ groups) : Covered (procs ++ [p]) groups := by
  intro q hq ha ht
  rcases List.mem_append.mp hq with hq | hq
  · exact h q hq ha ht
  · obtain rfl := List.mem_singleton.mp hq
    exact hp ht

theorem nil (groups : List Pid) : Covered [] groups := by
  intro q hq
  cases hq

/-- After `reapPid` the groups that are left are enough. -/
theorem reapPid {pid : Option Pid} (h : Covered procs (pid.toList ++ groups))
    (h0 : ∀ q ∈ procs, q.role.isTest = true → q.pgid ≠ 0) :
    Covered (reapPid procs pid) groups := by
  intro q hq ha ht
  have hq' := (aged_reapPid pid procs).mem_of_active hq ha
  have hne := pgid_ne_of_reapPid hq ha (h0 q hq' ht)
  rcases List.mem_append.mp (h q hq' ha ht) with hm | hm
  · exact absurd (Option.mem_toList.mp hm) hne
  · exact hm

end Covered

/-- The test that the thread is about to start. -/
def Thread.starting : Thread → Option JsString
  | .claimed t => some t
  | .registered t => some t
  | .spawned t _ => some t
  | _ => none

/-- The entries of the map whose child may still run. -/
def Worker.held (v : Worker) : JsMap JsString Reg :=
  match v.thread with
  | .settled r => v.inFlight.delete r.test
  | .appended t => v.inFlight.delete t
  | _ => v.inFlight

/-- No test is claimed twice, and a test that is being started has no pid yet. -/
structure Worker.Tidy (v : Worker) : Prop where
  nodup : (v.inFlight.keys ++ v.queue).Nodup
  boot : v.thread = .boot → v.inFlight.keys = []
  starting : ∀ t, v.thread.starting = some t →
    ∃ startedAt, v.inFlight.get? t = some ⟨startedAt, none⟩

theorem Worker.Tidy.of_launched (cfg : Config) : (Worker.launched cfg).Tidy where
  nodup := by simp [Worker.launched]
  boot := by simp [Worker.launched]
  starting := by simp [Worker.launched, Thread.starting]

theorem Worker.Tidy.step {v v' : Worker} {d d' : Disk} {we : WorkerEvent} (h : v.Tidy)
    (hs : WorkerStep v d we v' d') : v'.Tidy := by
  cases hs with
  | load ht =>
    refine ⟨?_, by simp, by simp [Thread.starting]⟩
    simpa [h.boot ht] using v.cfg.all.nodup.filter _
  | @claim now t rest w₁ ht hq hs =>
    have hnot : t ∉ v.inFlight.keys := Worker.head_notMem h.nodup hq
    refine ⟨by simpa [JsMap.keys_set_of_notMem hnot, hq] using h.nodup, by simp, ?_⟩
    intro a ha
    cases ha
    exact ⟨now, by simp [JsMap.get?_set]⟩
  | slotEnd ht hq hs =>
    obtain ⟨-, hth, hq', hm, -⟩ := Worker.takeSlot_frame hs
    refine ⟨by rw [hm, hq']; exact h.nodup, by rw [hm, hth]; exact h.boot, ?_⟩
    rw [hm, hth]
    exact h.starting
  | register ht =>
    refine ⟨h.nodup, by simp, ?_⟩
    intro a ha
    cases ha
    exact h.starting _ (by simp [ht, Thread.starting])
  | spawn ht =>
    refine ⟨h.nodup, by simp, ?_⟩
    intro a ha
    cases ha
    exact h.starting _ (by simp [ht, Thread.starting])
  | mirror ht => exact ⟨by simpa using h.nodup, by simp, by simp [Thread.starting]⟩
  | @deregister t ht =>
    refine ⟨?_, by simp, by simp [Thread.starting]⟩
    rw [JsMap.keys_delete]
    exact h.nodup.sublist (List.filter_sublist.append_right _)
  | _ => exact ⟨h.nodup, by simp, by simp [Thread.starting]⟩

/-- A live worker covers the active test processes, and so does what it has written, but for
a child that it has just spawned. -/
structure Worker.Covers (v : Worker) (inflight : List Entry) (procs : List (Proc Role)) :
    Prop where
  tidy : v.Tidy
  map : Covered procs (entryPids (registry v.held) ++ v.justSpawned)
  file : Covered procs (entryPids inflight ++ v.justSpawned)

namespace Worker.Covers

variable {v v' : Worker} {d d' : Disk} {we : WorkerEvent} {os os' : Os} {k : Nat}

/-- What a settled test's kill leaves is held by the other entries. -/
theorem settle_map (h : v.Covers d.inflight os.procs) {r : RunRec} (ht : v.thread = .idle) :
    Covered (hardKill os.procs (v.childPid r.test))
      (entryPids (registry (v.inFlight.delete r.test))) := by
  intro q hq ha htest
  have hne := pgid_ne_of_hardKill hq ha
  have hm := h.map q ((aged_hardKill _ _).mem_of_active hq ha) ha htest
  simp only [Worker.held, Worker.justSpawned, ht, List.append_nil,
    mem_entryPids_registry] at hm
  obtain ⟨⟨t, reg⟩, hp, hpid⟩ := hm
  refine mem_entryPids_registry.mpr ⟨(t, reg), JsMap.mem_entries_delete.mpr ⟨hp, ?_⟩, hpid⟩
  intro heq
  subst heq
  refine hne ?_
  rw [Worker.childPid, JsMap.get?_eq_some.mpr hp]
  exact hpid

/-- The steps that neither claim, spawn nor settle: what the worker holds does not change, and
the registry it may write is that of what it holds. -/
theorem frame {inflight inflight' : List Entry} {procs : List (Proc Role)}
    (h : v.Covers inflight procs) (htidy : v'.Tidy) (hheld : v'.held = v.held)
    (hjust : v'.justSpawned = v.justSpawned)
    (hin : inflight' = inflight ∨ inflight' = registry v.held) : v'.Covers inflight' procs := by
  refine ⟨htidy, by rw [hheld, hjust]; exact h.map, ?_⟩
  rw [hjust]
  rcases hin with rfl | rfl
  · exact h.file
  · exact h.map

theorem step (h : v.Covers d.inflight os.procs) (hs : WorkerStep v d we v' d')
    (ho : os.workerStep k v we = some os') : v'.Covers d'.inflight os'.procs := by
  have htidy := h.tidy.step hs
  have hmap := h.map
  have hfile := h.file
  cases hs with
  | load ht =>
    obtain rfl := Option.some.inj ho
    exact h.frame htidy (by simp [Worker.held, ht]) (by simp [Worker.justSpawned, ht]) (.inl rfl)
  | clear ht | clearRejects ht =>
    obtain rfl := Option.some.inj ho
    exact h.frame htidy (by simp [Worker.held, ht]) (by simp [Worker.justSpawned, ht])
      (.inr (by simp [Worker.held, ht]))
  | @claim now t rest w₁ ht hq hs =>
    have hp : os'.procs = os.procs := by rw [← Option.some.inj ho]
    have hnot : t ∉ v.inFlight.keys := Worker.head_notMem h.tidy.nodup hq
    simp only [Worker.held, Worker.justSpawned, ht] at hmap hfile
    rw [hp]
    refine ⟨htidy, hmap.mono fun x hx => ?_, by simpa [Worker.justSpawned] using hfile⟩
    simp only [List.append_nil, mem_entryPids_registry] at hx
    obtain ⟨p, hpm, hpid⟩ := hx
    simp only [Worker.held, Worker.justSpawned, List.append_nil, mem_entryPids_registry]
    exact ⟨p, by rw [JsMap.entries_set_of_notMem hnot]; exact List.mem_append_left _ hpm, hpid⟩
  | slotEnd ht hq hs =>
    obtain rfl := Option.some.inj ho
    obtain ⟨-, hth, -, hm, -⟩ := Worker.takeSlot_frame hs
    exact h.frame htidy (by simp [Worker.held, hth, hm, ht])
      (by simp [Worker.justSpawned, hth, ht]) (.inl rfl)
  | register ht =>
    obtain rfl := Option.some.inj ho
    exact h.frame htidy (by simp [Worker.held, ht]) (by simp [Worker.justSpawned, ht])
      (.inr (by simp [Worker.held, ht]))
  | @spawn t pid ht =>
    simp only [Worker.held, Worker.justSpawned, ht, List.append_nil] at hmap hfile
    refine ⟨htidy, ?_, ?_⟩ <;> simp only [Worker.held, Worker.justSpawned]
    all_goals
      rcases workerStep_procs ho with hp | ⟨t', x, he, -, hp⟩ | ⟨r, he, -⟩
    · rw [hp]
      exact hmap.mono fun x hx => List.mem_append_left _ hx
    · obtain ⟨-, rfl⟩ : t = t' ∧ pid = some x := by simpa using he
      rw [hp]
      exact (hmap.mono fun y hy => List.mem_append_left _ hy).append fun _ => by
        simp [Proc.created]
    · cases he
    · rw [hp]
      exact hfile.mono fun x hx => List.mem_append_left _ hx
    · obtain ⟨-, rfl⟩ : t = t' ∧ pid = some x := by simpa using he
      rw [hp]
      exact (hfile.mono fun y hy => List.mem_append_left _ hy).append fun _ => by
        simp [Proc.created]
    · cases he
  | spawnThrows ht =>
    obtain rfl := Option.some.inj ho
    exact h.frame htidy (by simp [Worker.held, ht]) (by simp [Worker.justSpawned, ht]) (.inl rfl)
  | @mirror t pid ht =>
    have hp : os'.procs = os.procs := by rw [← Option.some.inj ho]
    obtain ⟨startedAt, hget⟩ := h.tidy.starting t (by simp [ht, Thread.starting])
    have hmem := JsMap.get?_eq_some.mp hget
    simp only [Worker.held, Worker.justSpawned, ht] at hmap
    have key : Covered os.procs
        (entryPids (registry (v.inFlight.modify t (fun reg => { reg with pid := pid })))) := by
      refine hmap.mono fun x hx => mem_entryPids_registry.mpr ?_
      rcases List.mem_append.mp hx with hx | hx
      · obtain ⟨⟨a, reg⟩, hpm, hpid⟩ := mem_entryPids_registry.mp hx
        refine ⟨(a, reg), List.mem_map.mpr ⟨_, hpm, ?_⟩, hpid⟩
        -- the entry of `t` itself had no pid
        have hat : a ≠ t := by
          intro heq
          subst heq
          have := JsMap.get?_eq_some.mpr hpm
          rw [hget, Option.some.injEq] at this
          rw [← this] at hpid
          cases hpid
        simp [hat]
      · refine ⟨(t, ⟨startedAt, pid⟩), List.mem_map.mpr ⟨_, hmem, by simp⟩, ?_⟩
        exact Option.mem_toList.mp hx
    rw [hp]
    exact ⟨htidy, by simpa [Worker.held, Worker.justSpawned] using key,
      by simpa [Worker.justSpawned] using key⟩
  | @settle r ht hu hr =>
    have hp : os'.procs = hardKill os.procs (v.childPid r.test) := by
      rw [← Option.some.inj ho]
    simp only [Worker.justSpawned, ht, List.append_nil] at hfile
    rw [hp]
    refine ⟨htidy, ?_, ?_⟩
    · simpa [Worker.held, Worker.justSpawned] using h.settle_map ht
    · simpa [Worker.justSpawned] using hfile.aged (aged_hardKill _ _)
  | append ht =>
    obtain rfl := Option.some.inj ho
    exact h.frame htidy (by simp [Worker.held, ht]) (by simp [Worker.justSpawned, ht]) (.inl rfl)
  | @deregister t ht =>
    obtain rfl := Option.some.inj ho
    exact h.frame htidy (by simp [Worker.held, ht]) (by simp [Worker.justSpawned, ht])
      (.inr (by simp [Worker.held, ht]))

end Worker.Covers

/-- What is left to be reaped, when no worker is alive. -/
def HarvestPhase.due (d : Disk) : HarvestPhase → List Pid
  | .readInflight => entryPids d.inflight
  | .readLedger inflight => entryPids inflight
  | .reap entries _ => entryPids entries
  | _ => []

def Pc.due (d : Disk) : Pc → List Pid
  | .rmProgress => entryPids d.inflight
  | .rmInflight => entryPids d.inflight
  | .harvest h _ => h.phase.due d
  | .exited _ _ (.abnormal _) => entryPids d.inflight
  | .returned _ _ .stall => entryPids d.inflight
  | .returned _ _ (.exit _) => entryPids d.inflight
  | _ => []

def Sys.due (s : Sys) : List Pid :=
  match s.sup with
  | some p => p.pc.due s.disk
  | none => entryPids s.disk.inflight

/-- Before the startup harvest has read `inflight.json`. -/
def Pc.beforeRead : Pc → Bool
  | .rmProgress => true
  | .rmInflight => true
  | .harvest h k => h.phase = .readInflight && k = .startup
  | _ => false

/-- Whether the supervisor's next step is the startup harvest's read of `inflight.json`. -/
def Sys.startupReads (s : Sys) : Bool :=
  match s.pc with
  | some (.harvest ⟨_, _, .readInflight⟩ .startup) => true
  | _ => false

/-- No worker dies between `spawn` and the write of the child's pid; `--fresh` removes
`inflight.json` only when no test process that it lists is active; and no worker of an earlier
supervisor is alive when a startup harvest reads it. -/
def reapable (w : World) : WorldEvent → Prop
  | .prog .stall _ _ => ∀ v ∈ w.sys.current, v.justSpawned = []
  | .prog (.workerDies _) _ _ => ∀ v ∈ w.sys.current, v.justSpawned = []
  | .prog (.orphanDies i) _ _ => ∀ v ∈ w.sys.orphans[i]?.toList, v.justSpawned = []
  | .prog (.sup _) _ _ =>
    (w.sys.pc = some .rmInflight → ∀ q ∈ w.os.procs, q.active = true →
      q.role.isTest = true → q.pgid ∉ entryPids w.sys.disk.inflight) ∧
    (w.sys.startupReads = true → w.sys.orphans = [])
  | _ => True

instance (w : World) (e : WorldEvent) : Decidable (reapable w e) := by
  induction e using WorldEvent.casesOn with
  | prog e pid pgid =>
    induction e using Event.casesOn <;> dsimp only [reapable] <;> infer_instance
  | _ => dsimp only [reapable]; infer_instance

structure CoverInv (w : World) : Prop where
  few : w.sys.orphans.length ≤ 1
  waits : w.sys.orphans ≠ [] → ∀ p, w.sys.sup = some p → p.pc.beforeRead = true
  groups : ∀ q ∈ w.os.procs, q.role.isTest = true → q.pgid ≠ 0
  workers : ∀ v ∈ w.sys.live, v.Covers w.sys.disk.inflight w.os.procs
  idle : w.sys.live = [] → Covered w.os.procs w.sys.due
  /-- What a harvest has read is still in the file. -/
  file : w.sys.live = [] → ∀ x ∈ w.sys.due, x ∈ entryPids w.sys.disk.inflight

namespace CoverInv

theorem init (d : Disk) : CoverInv (World.idle d) where
  few := by simp [World.idle, Sys.idle]
  waits := by simp [World.idle, Sys.idle]
  groups := by simp [World.idle]
  workers := by simp [World.idle, Sys.idle, Sys.live, Sys.current]
  idle := fun _ => .nil _
  file := by simp [World.idle, Sys.idle, Sys.due]

/-- While no worker is alive, the invariant is about what is due. -/
theorem of_idle {s : Sys} {os : Os} (hor : s.orphans = []) (hcur : s.current = [])
    (hgroups : ∀ q ∈ os.procs, q.role.isTest = true → q.pgid ≠ 0)
    (hcov : Covered os.procs s.due) (hfile : ∀ x ∈ s.due, x ∈ entryPids s.disk.inflight) :
    CoverInv ⟨s, os⟩ where
  few := by simp [hor]
  waits := fun hne => absurd hor hne
  groups := hgroups
  workers := by simp [Sys.live, hor, hcur]
  idle := fun _ => hcov
  file := fun _ => hfile

/-- Test processes lead groups other than 0. -/
theorem groups_step {w w' : World} {e : WorldEvent} (h : CoverInv w) (hs : w.step e = some w') :
    ∀ q ∈ w'.os.procs, q.role.isTest = true → q.pgid ≠ 0 := by
  intro q hq ht
  cases World.table hs with
  | aged ha =>
    obtain ⟨p, hp, hl⟩ := ha.mem hq
    rw [hl.pgid]
    exact h.groups p hp (by rwa [← hl.role])
  | created p hc heq =>
    rw [heq] at hq
    rcases List.mem_append.mp hq with hq | hq
    · exact h.groups q hq ht
    · obtain rfl := List.mem_singleton.mp hq
      cases hc with
      | supervisor => cases ht
      | worker => cases ht
      | other => cases ht
      | test hv hf =>
        have := two_le_of_free hf
        simp only [Proc.created]
        omega
      | orphanTest hk hf =>
        have := two_le_of_free hf
        simp only [Proc.created]
        omega
      | @fork i pid p hp ha ht' hf => exact h.groups p (List.mem_of_getElem? hp) ht'
  | emptied pid pgid he heq => simp [heq] at hq

/-- No test process is left when a worker has ended by itself. -/
theorem covered_of_canExit {v : Worker} {inflight : List Entry} {procs : List (Proc Role)}
    (h : v.Covers inflight procs) (hx : v.canExit = true) : Covered procs [] := by
  obtain ⟨ht, -, -, hk⟩ := Worker.canExit_iff.mp hx
  have hmap := h.map
  simp only [Worker.held, Worker.justSpawned, ht, JsMap.eq_empty_of_keys hk] at hmap
  exact hmap

/-- The supervisor's steps while a worker of an earlier one is alive. -/
theorem sup_waits {d d' : Disk} {cfg : Config} {at_ now : Int} {pc : Pc}
    {p' : Option Supervisor} {orphans : List Worker} {os os' : Os} {pid pgid : Pid}
    {fallen : List Worker} {clock : Nat}
    (h : CoverInv ⟨⟨d, some ⟨cfg, at_, pc⟩, orphans, fallen, clock⟩, os⟩)
    (hok : reapable ⟨⟨d, some ⟨cfg, at_, pc⟩, orphans, fallen, clock⟩, os⟩
      (.prog (.sup now) pid pgid))
    (hne : orphans ≠ []) (hs : SupStep cfg at_ d now pc p' d')
    (ho : os.supStep pid pc = some os') :
    os' = os ∧ (∀ p, p' = some p → p.pc.beforeRead = true) ∧
      ∀ v ∈ orphans, v.Covers d'.inflight os.procs := by
  have hwork : ∀ v ∈ orphans, v.Covers d.inflight os.procs :=
    fun v hv => h.workers v (List.mem_append_right _ hv)
  have hpc : pc.beforeRead = true := h.waits hne _ rfl
  cases hs with
  | rmProgress => exact ⟨(Option.some.inj ho).symm, by rintro p ⟨⟩; rfl, hwork⟩
  | rmInflight =>
    refine ⟨(Option.some.inj ho).symm, by rintro p ⟨⟩; rfl, fun v hv => ?_⟩
    have hv' := hwork v hv
    refine ⟨hv'.tidy, hv'.map, fun q hq ha ht => ?_⟩
    rcases List.mem_append.mp (hv'.file q hq ha ht) with hm | hm
    · exact absurd hm (hok.1 rfl q hq ha ht)
    · exact List.mem_append_right _ hm
  | readInflight reason b k =>
    simp only [Pc.beforeRead, Bool.and_eq_true, decide_eq_true_eq] at hpc
    obtain rfl := hpc.2
    exact absurd (hok.2 rfl) hne
  | readLedger => simp [Pc.beforeRead] at hpc
  | reap => simp [Pc.beforeRead] at hpc
  | reaped => simp [Pc.beforeRead] at hpc
  | mark => simp [Pc.beforeRead] at hpc
  | marked => simp [Pc.beforeRead] at hpc
  | clearStartup => simp [Pc.beforeRead] at hpc
  | clearCycle => simp [Pc.beforeRead] at hpc
  | _ => cases hpc

/-- The supervisor's steps when no worker is alive: what is due is reaped, and a worker is
launched when nothing is. -/
theorem sup_idle {d d' : Disk} {cfg : Config} {at_ now : Int} {pc : Pc}
    {p' : Option Supervisor} {os os' : Os} {pid pgid : Pid} {fallen fallen' : List Worker}
    {clock : Nat} (h : CoverInv ⟨⟨d, some ⟨cfg, at_, pc⟩, [], fallen, clock⟩, os⟩)
    (hok : reapable ⟨⟨d, some ⟨cfg, at_, pc⟩, [], fallen, clock⟩, os⟩ (.prog (.sup now) pid pgid))
    (hgroups : ∀ q ∈ os'.procs, q.role.isTest = true → q.pgid ≠ 0)
    (hs : SupStep cfg at_ d now pc p' d') (ho : os.supStep pid pc = some os') :
    CoverInv ⟨⟨d', p', [], fallen', clock⟩, os'⟩ := by
  have hidle := h.idle
  have hfile := h.file
  have hgr := h.groups
  cases hs with
  | rmProgress =>
    obtain rfl := Option.some.inj ho
    exact of_idle rfl rfl hgroups (hidle rfl) (fun _ hx => hx)
  | rmInflight =>
    obtain rfl := Option.some.inj ho
    refine of_idle rfl rfl hgroups (fun q hq ha ht => ?_) (fun _ hx => hx)
    exact absurd (hidle rfl q hq ha ht) (hok.1 rfl q hq ha ht)
  | readInflight =>
    obtain rfl := Option.some.inj ho
    exact of_idle rfl rfl hgroups (hidle rfl) (fun _ hx => hx)
  | readLedger =>
    obtain rfl := Option.some.inj ho
    exact of_idle rfl rfl hgroups (hidle rfl) (hfile rfl)
  | reap reason b k e es targets =>
    obtain rfl := Option.some.inj ho
    have hcov : Covered os.procs (e.pid.toList ++ entryPids es) := by
      refine (hidle rfl).mono fun x hx => ?_
      obtain ⟨a, ha, hax⟩ := List.mem_filterMap.mp hx
      rcases List.mem_cons.mp ha with rfl | ha
      · exact List.mem_append_left _ (Option.mem_toList.mpr hax)
      · exact List.mem_append_right _ (List.mem_filterMap.mpr ⟨a, ha, hax⟩)
    refine of_idle rfl rfl hgroups (hcov.reapPid hgr) fun x hx => hfile rfl x ?_
    obtain ⟨a, ha, hax⟩ := List.mem_filterMap.mp hx
    exact List.mem_filterMap.mpr ⟨a, List.mem_cons_of_mem _ ha, hax⟩
  | reaped =>
    obtain rfl := Option.some.inj ho
    exact of_idle rfl rfl hgroups (hidle rfl) (by simp [Sys.due, Pc.due, HarvestPhase.due])
  | mark =>
    obtain rfl := Option.some.inj ho
    exact of_idle rfl rfl hgroups (hidle rfl) (by simp [Sys.due, Pc.due, HarvestPhase.due])
  | marked =>
    obtain rfl := Option.some.inj ho
    exact of_idle rfl rfl hgroups (hidle rfl) (by simp [Sys.due, Pc.due, HarvestPhase.due])
  | clearStartup =>
    obtain rfl := Option.some.inj ho
    exact of_idle rfl rfl hgroups (hidle rfl) (by simp [Sys.due, Pc.due])
  | clearCycle reason b np before after result =>
    obtain rfl := Option.some.inj ho
    rcases tally_cases cfg np before after result with ⟨np', ht⟩ | ht <;> rw [ht]
    · exact of_idle rfl rfl hgroups (hidle rfl) (by simp [Sys.due, Pc.due])
    · exact of_idle rfl rfl hgroups (hidle rfl) (by simp [Sys.due, Pc.due])
  | leave =>
    obtain rfl := Option.some.inj ho
    exact of_idle rfl rfl hgroups (hidle rfl) (by simp [Sys.due, Pc.due])
  | enter =>
    obtain rfl := Option.some.inj ho
    exact of_idle rfl rfl hgroups (hidle rfl) (by simp [Sys.due, Pc.due])
  | launch np before =>
    have hcov : Covered os.procs [] := hidle rfl
    simp only [Os.supStep] at ho
    split at ho
    · obtain rfl := Option.some.inj ho
      have hcov' : Covered (os.procs ++ [.created pid pid (.worker os.session)]) [] :=
        hcov.append (by simp [Proc.created, Role.isTest])
      refine ⟨by simp, by simp, hgroups, ?_, ?_, ?_⟩
      · intro v hv
        obtain rfl : v = Worker.launched cfg := by simpa [Sys.live, Sys.current] using hv
        exact ⟨.of_launched cfg, hcov'.mono (by simp), hcov'.mono (by simp)⟩
      · simp [Sys.live, Sys.current]
      · simp [Sys.live, Sys.current]
    · cases ho
  | exitZero =>
    obtain rfl := Option.some.inj ho
    exact of_idle rfl rfl hgroups (hidle rfl) (by simp [Sys.due, Pc.due])
  | exitAbnormal =>
    obtain rfl := Option.some.inj ho
    exact of_idle rfl rfl hgroups (hidle rfl) (fun _ hx => hx)
  | done =>
    obtain rfl := Option.some.inj ho
    exact of_idle rfl rfl hgroups (hidle rfl) (by simp [Sys.due, Pc.due])
  | stalled =>
    obtain rfl := Option.some.inj ho
    exact of_idle rfl rfl hgroups (hidle rfl) (fun _ hx => hx)
  | exited =>
    obtain rfl := Option.some.inj ho
    exact of_idle rfl rfl hgroups (hidle rfl) (fun _ hx => hx)
  | clean =>
    obtain rfl := Option.some.inj ho
    exact of_idle rfl rfl hgroups (hidle rfl) (by simp [Sys.due, Pc.due])
  | outputs =>
    obtain rfl := Option.some.inj ho
    have hcov : Covered os.procs [] := hidle rfl
    exact of_idle rfl rfl hgroups ((hcov.aged (.ends _ _)).mono (by simp)) (fun _ hx => hx)

/-- A worker has died, outside of the window between `spawn` and the write of the pid: what
it has written covers its children. -/
theorem covered_of_dead {v : Worker} {inflight : List Entry} {procs procs' : List (Proc Role)}
    (h : v.Covers inflight procs) (hj : v.justSpawned = []) (ha : Aged procs procs') :
    Covered procs' (entryPids inflight) := by
  have := h.file.aged ha
  rwa [hj, List.append_nil] at this

/-- The one worker without a supervisor has ended; a later supervisor has yet to read the
registry. -/
theorem orphan_gone {d : Disk} {sup : Option Supervisor} {fallen : List Worker} {clock : Nat}
    {os : Os} (hw : ∀ p, sup = some p → p.pc.beforeRead = true)
    (hg : ∀ q ∈ os.procs, q.role.isTest = true → q.pgid ≠ 0)
    (hcov : Covered os.procs (entryPids d.inflight)) :
    CoverInv ⟨⟨d, sup, [], fallen, clock⟩, os⟩ := by
  have hdue : (Sys.mk d sup [] fallen clock).due = entryPids d.inflight := by
    cases sup with
    | none => rfl
    | some p =>
      have hp := hw p rfl
      obtain ⟨cfg, at_, pc⟩ := p
      cases pc with
      | rmProgress => rfl
      | rmInflight => rfl
      | harvest hv k =>
        simp only [Pc.beforeRead, Bool.and_eq_true, decide_eq_true_eq] at hp
        simp [Sys.due, Pc.due, hp.1, HarvestPhase.due]
      | _ => cases hp
  have hcur : (Sys.mk d sup [] fallen clock).current = [] :=
    Sys.current_eq_nil (fun _ _ _ => rfl) hw
  apply of_idle rfl hcur hg
  · rwa [hdue]
  · intro x hx
    rwa [hdue] at hx

theorem step {w w' : World} {e : WorldEvent} (h : CoverInv w) (hok : reapable w e)
    (hs : w.step e = some w') : CoverInv w' := by
  have hgroups := h.groups_step hs
  have ht := World.table hs
  rcases World.step_cases hs with ⟨ev, pid, pgid, rfl, hsys, hos⟩ | ⟨hne, procs, rfl⟩
  · obtain ⟨⟨d, sup, orphans, fallen, clock⟩, os⟩ := w
    obtain ⟨s', os'⟩ := w'
    have hos : os.step ⟨d, sup, orphans, fallen, clock⟩ pid pgid ev = some os' := hos
    have hfew := h.few
    have hwaits := h.waits
    have hwork := h.workers
    simp only at hfew hwaits hwork hgroups
    have alone : ∀ p, sup = some p → p.pc.beforeRead = false → orphans = [] :=
      fun p hp hf => Sys.orphans_eq_nil h.waits hp hf
    cases sysStep_of_step hsys with
    | start cfg fresh =>
      have hcur : (Sys.mk d (some ⟨cfg, 0, if fresh then .rmProgress else startupHarvest⟩)
          orphans fallen clock).current = [] := by
        cases fresh <;> rfl
      have hdue : (Sys.mk d (some ⟨cfg, 0, if fresh then .rmProgress else startupHarvest⟩)
          orphans fallen clock).due = entryPids d.inflight := by
        cases fresh <;> rfl
      simp only [Os.step] at hos
      split at hos
      · obtain rfl := Option.some.inj hos
        refine ⟨hfew, ?_, hgroups, ?_, ?_, ?_⟩
        · rintro - p ⟨⟩
          cases fresh <;> rfl
        · intro v hv
          have hv' : v ∈ orphans := by simpa [Sys.live, hcur] using hv
          have hc := hwork v (List.mem_append_right _ hv')
          exact ⟨hc.tidy, hc.map.append (by simp [Proc.created, Role.isTest]),
            hc.file.append (by simp [Proc.created, Role.isTest])⟩
        · intro hl
          have hl' : orphans = [] := by simpa [Sys.live, hcur] using hl
          rw [hdue]
          exact (h.idle (by simp [Sys.live, Sys.current, hl'])).append
            (by simp [Proc.created, Role.isTest])
        · intro _ x hx
          rw [hdue] at hx
          exact hx
      · cases hos
    | @sup cfg at_ now pc p' d' hsup =>
      by_cases hor : orphans = []
      · subst hor
        exact h.sup_idle hok hgroups hsup hos
      · obtain ⟨hos', hw, hc⟩ := h.sup_waits hok hor hsup hos
        obtain rfl : os' = os := hos'
        have hlive : ∀ v ∈ (Sys.mk d' p' orphans (if pc.harvestEnds then [] else fallen)
            clock).live, v ∈ orphans := by
          intro v hv
          rcases List.mem_append.mp hv with hv | hv
          · cases p' with
            | none => simp [Sys.current] at hv
            | some p =>
              have := hw p rfl
              obtain ⟨cfg', at', pc'⟩ := p
              cases pc' with
              | await => cases this
              | _ => simp [Sys.current] at hv
          · exact hv
        have hne : (Sys.mk d' p' orphans (if pc.harvestEnds then [] else fallen) clock).live ≠ [] :=
          fun hl => hor (List.append_eq_nil_iff.mp hl).2
        exact ⟨hfew, fun _ => hw, hgroups, fun v hv => hc v (hlive v hv),
          fun hl => absurd hl hne, fun hl => absurd hl hne⟩
    | @stallAwait cfg at_ np before v =>
      obtain rfl := alone _ rfl rfl
      obtain rfl := Option.some.inj hos
      have hcov := covered_of_dead (hwork v (by simp [Sys.live, Sys.current]))
        (hok v (by simp [Sys.current]))
        ((aged_hardKill (os.pidOf os.worker) os.procs).trans (.ends os.worker _))
      exact of_idle rfl rfl hgroups hcov fun _ hx => hx
    | @stallExited cfg at_ np before how =>
      obtain rfl := alone _ rfl rfl
      obtain rfl := Option.some.inj hos
      have hcov : Covered os.procs (entryPids d.inflight) := (h.idle rfl).mono (h.file rfl)
      refine of_idle rfl rfl hgroups (hcov.aged ?_) fun _ hx => hx
      exact (aged_hardKill _ _).trans (.ends _ _)
    | @worker cfg at_ np before v v' d' we hw =>
      obtain rfl := alone _ rfl rfl
      have hc := (hwork v (by simp [Sys.live, Sys.current])).step hw hos
      refine ⟨hfew, fun hne => absurd rfl hne, hgroups, fun a ha => ?_,
        by simp [Sys.live, Sys.current], by simp [Sys.live, Sys.current]⟩
      obtain rfl : a = v' := by simpa [Sys.live, Sys.current] using ha
      exact hc
    | @workerExits cfg at_ np before v hx =>
      obtain rfl := alone _ rfl rfl
      obtain rfl := Option.some.inj hos
      have hcov := covered_of_canExit (hwork v (by simp [Sys.live, Sys.current])) hx
      exact of_idle rfl rfl hgroups (hcov.aged (.ends _ _)) (by simp [Sys.due, Pc.due])
    | @workerThrows cfg at_ np before v hx =>
      obtain rfl := alone _ rfl rfl
      obtain rfl := Option.some.inj hos
      have hcov := covered_of_dead (hwork v (by simp [Sys.live, Sys.current]))
        (by simp [Worker.justSpawned, hx]) (.ends os.worker os.procs)
      exact of_idle rfl rfl hgroups hcov fun _ hx => hx
    | @workerDies cfg at_ np before v what =>
      obtain rfl := alone _ rfl rfl
      obtain rfl := Option.some.inj hos
      have hcov := covered_of_dead (hwork v (by simp [Sys.live, Sys.current]))
        (hok v (by simp [Sys.current])) (.ends os.worker os.procs)
      exact of_idle rfl rfl hgroups hcov fun _ hx => hx
    | @orphan p i v v' d' we hi hw =>
      obtain ⟨rfl, rfl⟩ := eq_singleton_of_get hfew hi
      have hcur : (Sys.mk d sup [v] fallen clock).current = [] :=
        Sys.current_eq_nil (fun _ _ _ => rfl) (hwaits (by simp))
      simp only [Os.step] at hos
      split at hos
      · rename_i k v'' hk hv
        obtain rfl : v = v'' := by simpa using hv
        have hc := (hwork v (by simp [Sys.live])).step hw hos
        refine ⟨by simp, fun _ => hwaits (by simp), hgroups, fun a ha => ?_, ?_, ?_⟩
        · have hcur' : (Sys.mk d' sup [v'] fallen (clockAfter clock we)).current = [] := hcur
          obtain rfl : a = v' := by simpa [Sys.live, hcur'] using ha
          exact hc
        · simp [Sys.live]
        · simp [Sys.live]
      · cases hos
    | @orphanExits p i v hi hx =>
      obtain ⟨rfl, rfl⟩ := eq_singleton_of_get hfew hi
      obtain ⟨k, hk, rfl⟩ := Option.map_eq_some_iff.mp hos
      have hcov : Covered (ends k os.procs) (entryPids d.inflight) := by
        rcases hx with hx | hx
        · have hcov := covered_of_canExit (hwork v (by simp [Sys.live])) hx
          exact (hcov.aged (.ends k _)).mono (by simp)
        · exact covered_of_dead (hwork v (by simp [Sys.live]))
            (by simp [Worker.justSpawned, hx]) (.ends k os.procs)
      exact orphan_gone (hwaits (by simp)) hgroups hcov
    | @orphanDies p i v hi =>
      obtain ⟨rfl, rfl⟩ := eq_singleton_of_get hfew hi
      obtain ⟨k, hk, rfl⟩ := Option.map_eq_some_iff.mp hos
      have hcov := covered_of_dead (hwork v (by simp [Sys.live]))
        (hok v (by simp)) (.ends k os.procs)
      exact orphan_gone (hwaits (by simp)) hgroups hcov
    | @interrupt p =>
      obtain rfl := Option.some.inj hos
      have hperm : ∀ v, v ∈ orphans ++ (Sys.mk d (some p) orphans fallen clock).current ↔
          v ∈ (Sys.mk d (some p) orphans fallen clock).live := by
        intro v
        simp [Sys.live, or_comm]
      have hend := Aged.ends os.supervisor os.procs
      refine ⟨Sys.length_interrupted (fun _ _ _ => rfl) h.few h.waits, by simp, hgroups,
        fun v hv => ?_, fun hl => ?_, fun _ _ hx => hx⟩
      · have hc := hwork v ((hperm v).mp hv)
        exact ⟨hc.tidy, hc.map.aged hend, hc.file.aged hend⟩
      · have hl' : (Sys.mk d (some p) orphans fallen clock).live = [] := by
          refine List.eq_nil_iff_forall_not_mem.mpr fun v hv => ?_
          have hnil : orphans ++ (Sys.mk d (some p) orphans fallen clock).current = [] := hl
          have := (hperm v).mpr hv
          rw [hnil] at this
          cases this
        exact ((h.idle hl').mono (h.file hl')).aged hend
    | @containerCrash p =>
      obtain rfl := Option.some.inj hos
      exact of_idle rfl rfl hgroups (.nil _) fun _ hx => hx
  · -- a process that is new to the table is a fork of a test's, or is none
    have grow : ∀ groups, Covered w.os.procs groups → Covered procs groups := by
      intro groups hc
      have ht : TableStep w e procs := ht
      cases ht with
      | aged ha => exact hc.aged ha
      | created q hq heq =>
        rw [heq]
        refine hc.append fun htest => ?_
        cases hq with
        | other => cases htest
        | @fork i pid p hp ha htp hf => exact hc p (List.mem_of_getElem? hp) ha htp
        | _ => exact absurd rfl (hne _ _ _)
      | emptied pid pgid he => exact absurd he (hne _ _ _)
    exact ⟨h.few, h.waits, hgroups, fun v hv => ⟨(h.workers v hv).tidy,
      grow _ (h.workers v hv).map, grow _ (h.workers v hv).file⟩,
      fun hl => grow _ (h.idle hl), h.file⟩

theorem of_run {d : Disk} {es : List WorldEvent} {w : World}
    (h : Run World.step reapable (World.idle d) es w) : CoverInv w :=
  h.invariant (init d) fun _ _ _ hI hok hs => hI.step hok hs

end CoverInv

/-- A worker is launched only when every test process that still runs has been sent SIGKILL. -/
def NoneLeftBehind (w : World) : Prop :=
  w.sys.launches = true →
    ∀ q ∈ w.os.procs, q.role.isTest = true → q.running = true → q.sigkilled = true

/-- **No orphaned test processes**, in every run that is `reapable`. -/
theorem noneLeftBehind {es : List WorldEvent} {w : World}
    (h : Run World.step reapable (World.idle Disk.empty) es w) : NoneLeftBehind w := by
  have hI := CoverInv.of_run h
  intro hl q hq ht hrun
  obtain ⟨p, np, before, hp, hpc⟩ : ∃ p np before, w.sys.sup = some p ∧
      p.pc = .launch np before := by
    simp only [Sys.launches] at hl
    split at hl
    · rename_i np before hpc
      obtain ⟨p, hp, hpc⟩ := Option.map_eq_some_iff.mp hpc
      exact ⟨p, np, before, hp, hpc⟩
    · cases hl
  have horph : w.sys.orphans = [] := by
    by_contra hne
    have := hI.waits hne p hp
    rw [hpc] at this
    cases this
  have hcur : w.sys.current = [] := by
    obtain ⟨cfg, at_, pc⟩ := p
    obtain rfl : pc = .launch np before := hpc
    simp [Sys.current, hp]
  have hcov : Covered w.os.procs [] := by
    have := hI.idle (by simp [Sys.live, horph, hcur])
    simpa [Sys.due, hp, hpc, Pc.due] using this
  by_contra hk
  have := hcov q hq (by simpa [Proc.active, hrun] using hk) ht
  cases this

/-- The next launch after the worker of `workerAtWork` has been killed. -/
def harvestedAndLaunching : List WorldEvent :=
  [.prog (.workerDies (js "SIGKILL")) 0 0] ++ List.replicate 10 (.prog (.sup 2) 0 0)

theorem noneLeftBehind_mirrored :
    ∃ w, execute World.step reapable (World.idle Disk.empty)
        (workerAtWork ++ harvestedAndLaunching) = some w ∧
      w.sys.launches = true ∧
      w.os.procs.map (fun q => (q.pid, q.running, q.sigkilled)) =
        [(10, true, false), (11, false, false), (12, true, true)] ∧ NoneLeftBehind w := by
  have none : ∀ w, execute World.step reapable (World.idle Disk.empty)
      (workerAtWork ++ harvestedAndLaunching) = some w → NoneLeftBehind w :=
    fun w hw => noneLeftBehind (run_of_execute hw)
  exact ⟨_, rfl, rfl, rfl, none _ rfl⟩

/-- The worker is killed after `spawn` has returned, before it writes the pid. -/
def killedBeforeMirror : List WorldEvent := workerAtWork.dropLast ++ harvestedAndLaunching

/-- The worker is killed with its supervisor's end, and the next supervisor runs `--fresh`. -/
def freshAfterInterrupt : List WorldEvent :=
  workerAtWork ++ [.prog .interrupt 0 0, .prog (.orphanDies 0) 0 0,
    .prog (.start oneSlot true) 13 13] ++ List.replicate 8 (.prog (.sup 2) 0 0)

/-- Both times the next worker is launched while the child of the last one runs, and it has
not been sent SIGKILL. -/
theorem noneLeftBehind_fails :
    (∃ w, execute World.step unrestricted (World.idle Disk.empty) killedBeforeMirror = some w ∧
      w.sys.launches = true ∧ .created 12 12 (.test (js "a") 1) ∈ w.os.procs ∧
      ¬ NoneLeftBehind w) ∧
    ∃ w, execute World.step unrestricted (World.idle Disk.empty) freshAfterInterrupt = some w ∧
      w.sys.launches = true ∧ .created 12 12 (.test (js "a") 1) ∈ w.os.procs ∧
      ¬ NoneLeftBehind w := by
  constructor
  · refine ⟨_, rfl, rfl, by decide, fun h => ?_⟩
    have := h rfl (.created 12 12 (.test (js "a") 1)) (by decide) rfl rfl
    cases this
  · refine ⟨_, rfl, rfl, by decide, fun h => ?_⟩
    have := h rfl (.created 12 12 (.test (js "a") 1)) (by decide) rfl rfl
    cases this

end CorpusRunner
