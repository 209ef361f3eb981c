import CorpusRunner.Proofs.OrphanTests

/-!
# A worker's children

As long as nobody else signals them, the processes of a test that a live worker holds have not
been sent SIGKILL: `hardKill` reaches one group, and the children of two tests are in two
groups.
-/

namespace CorpusRunner

open ProcTable

/-- The tests that the worker has yet to spawn. -/
def Worker.toSpawn (v : Worker) : List JsString :=
  match v.thread with
  | .claimed t => t :: v.queue
  | .registered t => t :: v.queue
  | _ => v.queue

/-- The child of `t`, which is not settled, has the pid `x`. -/
def Worker.Child (v : Worker) (t : JsString) (x : Pid) : Prop :=
  (∃ startedAt, (t, ⟨startedAt, some x⟩) ∈ v.held.entries) ∨ v.thread = .spawned t (some x)

/-- What a worker's event is when its tests exit by themselves with the status `verdict`: every
spawn succeeds, with a pid that the worker has not got recorded, and `runOne` gives the
verdict, or anything if a process of the test has been sent SIGKILL. -/
def calmEvent (verdict : JsString → RunStatus) (v : Worker) (k : Nat)
    (procs : List (Proc Role)) : WorkerEvent → Prop
  | .spawn _ none => False
  | .spawn _ (some x) => x ∉ v.pids
  | .spawnThrows _ => False
  | .settle r => r.status = verdict r.test ∨
      ∃ q ∈ procs, q.role = .test r.test k ∧ q.sigkilled = true
  | _ => True

instance (verdict : JsString → RunStatus) (v : Worker) (k : Nat) (procs : List (Proc Role))
    (e : WorkerEvent) : Decidable (calmEvent verdict v k procs e) := by
  induction e using WorkerEvent.casesOn with
  | spawn t pid =>
    induction pid using Option.casesOn <;> dsimp only [calmEvent] <;> infer_instance
  | _ => dsimp only [calmEvent]; infer_instance

/-- The test processes of `procs'` come from those of `procs`, and none has been sent SIGKILL
since. -/
def Unharmed (procs procs' : List (Proc Role)) : Prop :=
  ∀ q ∈ procs', ∀ t k, q.role = .test t k → ∃ p ∈ procs, p.role = .test t k ∧
    p.pgid = q.pgid ∧ (p.sigkilled = false → q.sigkilled = false)

namespace Unharmed

theorem refl (procs : List (Proc Role)) : Unharmed procs procs :=
  fun q hq _ _ hr => ⟨q, hq, hr, rfl, id⟩

/-- A process comes up that is not a test's. -/
theorem append {procs : List (Proc Role)} {q : Proc Role} (hq : q.role.isTest = false) :
    Unharmed procs (procs ++ [q]) := by
  intro p hp t k hr
  rcases List.mem_append.mp hp with hp | hp
  · exact refl procs p hp t k hr
  · rw [List.mem_singleton.mp hp] at hr
    rw [hr] at hq
    cases hq

/-- A process of a test forks. -/
theorem fork {procs : List (Proc Role)} {p : Proc Role} (hp : p ∈ procs) (pid : Pid) :
    Unharmed procs (procs ++ [.created pid p.pgid p.role]) := by
  intro q hq t k hr
  rcases List.mem_append.mp hq with hq | hq
  · exact refl procs q hq t k hr
  · rw [List.mem_singleton.mp hq] at hr ⊢
    exact ⟨p, hp, hr, rfl, fun _ => rfl⟩

/-- A process ends. -/
theorem ends {procs : List (Proc Role)} (i : Nat) : Unharmed procs (ends i procs) := by
  intro q hq t k hr
  obtain ⟨j, hj⟩ := List.getElem?_of_mem hq
  simp only [ProcTable.ends, List.getElem?_modify, Option.map_eq_map,
    Option.map_eq_some_iff] at hj
  obtain ⟨p, hp, rfl⟩ := hj
  refine ⟨p, List.mem_of_getElem? hp, ?_⟩
  split at hr <;> split <;> exact ⟨hr, rfl, id⟩

/-- What happens outside the program harms no test. -/
theorem of_step {w w' : World} {e : WorldEvent} (hs : w.step e = some w')
    (hne : ∀ ev pid pgid, e ≠ .prog ev pid pgid) : Unharmed w.os.procs w'.os.procs := by
  cases e with
  | prog ev pid pgid => exact absurd rfl (hne ev pid pgid)
  | other pid pgid =>
    simp only [World.step] at hs
    split at hs
    · obtain rfl := Option.some.inj hs
      exact append rfl
    · cases hs
  | fork i pid =>
    simp only [World.step] at hs
    split at hs
    · rename_i p hget
      split at hs
      · obtain rfl := Option.some.inj hs
        exact fork (List.mem_of_getElem? hget) pid
      · cases hs
    · cases hs
  | ends i =>
    simp only [World.step] at hs
    split at hs
    · split at hs
      · obtain rfl := Option.some.inj hs
        exact ends i
      · cases hs
    · cases hs

end Unharmed

/-- The worker at place `k` and its children. -/
structure Worker.Children (verdict : JsString → RunStatus) (v : Worker) (k : Nat)
    (procs : List (Proc Role)) : Prop where
  tidy : v.Tidy
  boot : v.thread = .boot → ∀ q ∈ procs, ∀ t, q.role ≠ .test t k
  spawned : ∀ q ∈ procs, ∀ t, q.role = .test t k → t ∉ v.toSpawn
  group : ∀ q ∈ procs, ∀ t, q.role = .test t k → t ∈ v.held.keys →
    v.Child t q.pgid ∧ q.sigkilled = false
  distinct : ∀ t t' x, v.Child t x → v.Child t' x → t = t'
  two_le : ∀ t x, v.Child t x → 2 ≤ x
  settled : ∀ r, v.thread = .settled r → r.status = verdict r.test

namespace Worker.Children

variable {verdict : JsString → RunStatus} {v v' : Worker} {k : Nat} {d d' : Disk}
  {we : WorkerEvent} {os os' : Os} {procs procs' : List (Proc Role)}

theorem of_launched {cfg : Config} (h : ∀ q ∈ procs, ∀ t, q.role ≠ .test t k) :
    (launched cfg).Children verdict k procs where
  tidy := .of_launched cfg
  boot := fun _ => h
  spawned := fun q hq t ht => absurd ht (h q hq t)
  group := fun q hq t ht => absurd ht (h q hq t)
  distinct := by simp [Child, launched, held]
  two_le := by simp [Child, launched, held]
  settled := by simp [launched]

/-- The table changes, but the worker's children are the same. -/
theorem frame (h : v.Children verdict k procs) (hp : Unharmed procs procs') :
    v.Children verdict k procs' where
  tidy := h.tidy
  boot := fun hb q hq t ht =>
    let ⟨p, hp', hr, _⟩ := hp q hq t k ht
    h.boot hb p hp' t hr
  spawned := fun q hq t ht =>
    let ⟨p, hp', hr, _⟩ := hp q hq t k ht
    h.spawned p hp' t hr
  group := fun q hq t ht hk => by
    obtain ⟨p, hp', hr, hg, hs⟩ := hp q hq t k ht
    obtain ⟨hc, hk'⟩ := h.group p hp' t hr hk
    exact ⟨hg ▸ hc, hs hk'⟩
  distinct := h.distinct
  two_le := h.two_le
  settled := h.settled

/-- The worker takes a step that changes neither the table nor what it holds. -/
theorem same (h : v.Children verdict k procs) (htidy : v'.Tidy) (hb : v'.thread ≠ .boot)
    (hsp : ∀ t ∈ v'.toSpawn, t ∈ v.toSpawn) (hk : ∀ t ∈ v'.held.keys, t ∈ v.held.keys)
    (hc : ∀ t x, v'.Child t x ↔ v.Child t x)
    (hset : ∀ r, v'.thread = .settled r → r.status = verdict r.test) :
    v'.Children verdict k procs where
  tidy := htidy
  boot := fun h => absurd h hb
  spawned := fun q hq t ht hm => h.spawned q hq t ht (hsp t hm)
  group := fun q hq t ht hm =>
    let ⟨h1, h2⟩ := h.group q hq t ht (hk t hm)
    ⟨(hc _ _).mpr h1, h2⟩
  distinct := fun t t' x h1 h2 => h.distinct t t' x ((hc _ _).mp h1) ((hc _ _).mp h2)
  two_le := fun t x h1 => h.two_le t x ((hc _ _).mp h1)
  settled := hset

/-- The spawn of a test's child. -/
theorem spawn {t : JsString} {x : Pid} (h : v.Children verdict k procs)
    (ht : v.thread = .registered t) (hfree : free procs x = true) (hx : x ∉ v.pids) :
    ({ v with thread := .spawned t (some x) } : Worker).Children verdict k
      (procs ++ [.created x x (.test t k)]) := by
  have hstep : WorkerStep v Disk.empty (.spawn t (some x))
    { v with thread := .spawned t (some x) } Disk.empty := .spawn ht
  have hchild : ∀ a y, ({ v with thread := .spawned t (some x) } : Worker).Child a y ↔
      v.Child a y ∨ a = t ∧ y = x := by
    simp [Child, held, ht, eq_comm]
  -- the pid of an earlier child is in the map
  have hold : ∀ a y, v.Child a y → y ≠ x := by
    rintro a y (⟨startedAt, hm⟩ | hth) rfl
    · have hm' : (a, ⟨startedAt, some y⟩) ∈ v.inFlight.entries := by simpa [held, ht] using hm
      exact hx (List.mem_append_left _ (mem_entryPids_registry.mpr ⟨_, hm', rfl⟩))
    · rw [ht] at hth
      cases hth
  refine {
    tidy := h.tidy.step hstep
    boot := by simp
    spawned := fun q hq a hr => ?_
    group := fun q hq a hr hk => ?_
    distinct := fun a b y ha hb => ?_
    two_le := fun a y ha => ?_
    settled := by simp }
  · rcases List.mem_append.mp hq with hq | hq
    · have := h.spawned q hq a hr
      simp only [toSpawn, ht, List.mem_cons, not_or] at this
      exact this.2
    · obtain rfl := List.mem_singleton.mp hq
      obtain rfl : t = a := by simpa [Proc.created] using hr
      obtain ⟨startedAt, hget⟩ := h.tidy.starting t (by simp [ht, Thread.starting])
      have hm := JsMap.mem_keys_of_mem_entries (JsMap.get?_eq_some.mp hget)
      exact fun hq => (List.nodup_append.mp h.tidy.nodup).2.2 t hm t hq rfl
  · rcases List.mem_append.mp hq with hq | hq
    · obtain ⟨hc, hs⟩ := h.group q hq a hr (by simpa [held, ht] using hk)
      exact ⟨(hchild _ _).mpr (.inl hc), hs⟩
    · obtain rfl := List.mem_singleton.mp hq
      obtain rfl : t = a := by simpa [Proc.created] using hr
      exact ⟨(hchild _ _).mpr (.inr ⟨rfl, rfl⟩), rfl⟩
  · rcases (hchild a y).mp ha with ha' | ⟨ha', hy⟩ <;>
      rcases (hchild b y).mp hb with hb' | ⟨hb', hy'⟩
    · exact h.distinct a b y ha' hb'
    · exact absurd hy' (hold a y ha')
    · exact absurd hy (hold b y hb')
    · rw [ha', hb']
  · rcases (hchild a y).mp ha with ha | ⟨rfl, rfl⟩
    · exact h.two_le a y ha
    · exact two_le_of_free hfree

/-- The kill that settles a test reaches no other test's processes. -/
theorem settle {r : RunRec} (h : v.Children verdict k procs) (ht : v.thread = .idle)
    (hr : r.test ∈ v.inFlight.keys)
    (hok : r.status = verdict r.test ∨ ∃ q ∈ procs, q.role = .test r.test k ∧ q.sigkilled = true) :
    ({ v with thread := .settled r } : Worker).Children verdict k
      (hardKill procs (v.childPid r.test)) := by
  have hheld : v.held = v.inFlight := by simp [held, ht]
  have hchild : ∀ a y, ({ v with thread := .settled r } : Worker).Child a y →
      v.Child a y := by
    rintro a y (⟨startedAt, hm⟩ | hth)
    · exact .inl ⟨startedAt, hheld ▸ (JsMap.mem_entries_delete.mp hm).1⟩
    · cases hth
  have hkeys : ∀ a ∈ ({ v with thread := .settled r } : Worker).held.keys,
      a ∈ v.held.keys ∧ a ≠ r.test := by
    intro a ha
    rw [hheld]
    simpa [held] using ha
  refine {
    tidy := ⟨h.tidy.nodup, by simp, by simp [Thread.starting]⟩
    boot := by simp
    spawned := fun q hq a hrole => ?_
    group := fun q hq a hrole hk => ?_
    distinct := fun a b y ha hb => h.distinct a b y (hchild a y ha) (hchild b y hb)
    two_le := fun a y ha => h.two_le a y (hchild a y ha)
    settled := ?_ }
  · obtain ⟨p, hp, hl⟩ := (aged_hardKill _ _).mem hq
    have := h.spawned p hp a (hl.role.symm.trans hrole)
    simpa [toSpawn, ht] using this
  · obtain ⟨hk', hne⟩ := hkeys a hk
    have key : ∀ p ∈ procs, p.role = .test a k →
        ({ v with thread := .settled r } : Worker).Child a p.pgid ∧ p.sigkilled = false := by
      intro p hp hpr
      obtain ⟨⟨startedAt, hm⟩ | hth, hs⟩ := h.group p hp a hpr hk'
      · refine ⟨.inl ⟨startedAt, JsMap.mem_entries_delete.mpr ⟨hheld ▸ hm, hne⟩⟩, hs⟩
      · rw [ht] at hth
        cases hth
    cases hx : v.childPid r.test with
    | none =>
      rw [hx] at hq
      exact key q hq hrole
    | some x =>
      rw [hx] at hq
      obtain ⟨p, hp, rfl⟩ := List.mem_map.mp hq
      have hpr : p.role = .test a k := by
        split at hrole <;> exact hrole
      obtain ⟨hc, hs⟩ := key p hp hpr
      have hown : v.Child r.test x := by
        obtain ⟨reg, hget, hpid⟩ := Option.bind_eq_some_iff.mp hx
        refine .inl ⟨reg.startedAt, ?_⟩
        have hm := JsMap.get?_eq_some.mp hget
        rw [hheld, ← hpid]
        exact hm
      have hnot : Proc.inGroup x p = false := by
        have h1 : p.pgid ≠ x := by
          intro heq
          subst heq
          exact hne (h.distinct a r.test _ (hchild _ _ hc) hown)
        have h2 : x ≠ 1 := by
          have := h.two_le _ _ hown
          intro heq
          subst heq
          exact absurd this (by decide)
        simp [Proc.inGroup, h1, h2]
      simp only [hnot, Bool.false_eq_true, if_false]
      exact ⟨hc, hs⟩
  · intro r' heq
    cases heq
    rcases hok with hok | ⟨q, hq, hrole, hs⟩
    · exact hok
    · have := (h.group q hq _ hrole (hheld ▸ hr)).2
      rw [hs] at this
      cases this

theorem step (h : v.Children verdict k os.procs) (hs : WorkerStep v d we v' d')
    (hok : calmEvent verdict v k os.procs we) (ho : os.workerStep k v we = some os') :
    v'.Children verdict k os'.procs := by
  have htidy := h.tidy.step hs
  cases hs with
  | load ht =>
    obtain rfl := Option.some.inj ho
    exact {
      tidy := htidy
      boot := by simp
      spawned := fun q hq t hr => absurd hr (h.boot ht q hq t)
      group := fun q hq t hr => absurd hr (h.boot ht q hq t)
      distinct := by simpa [Child, held, ht] using h.distinct
      two_le := by simpa [Child, held, ht] using h.two_le
      settled := by simp }
  | clear ht | clearRejects ht =>
    obtain rfl := Option.some.inj ho
    exact h.same htidy (by simp) (by simp [toSpawn, ht]) (by simp [held, ht])
      (by simp [Child, held, ht]) (by simp)
  | @claim now t rest w₁ ht hq hs =>
    obtain rfl := Option.some.inj ho
    have hnot : t ∉ v.inFlight.keys := Worker.head_notMem h.tidy.nodup hq
    have hchild : ∀ a y, ({ w₁ with thread := .claimed t, queue := rest
                                    inFlight := v.inFlight.set t ⟨now, none⟩ } : Worker).Child a y ↔
        v.Child a y := by
      simp [Child, held, ht, JsMap.entries_set_of_notMem hnot]
    have hsp : v.toSpawn = t :: rest := by simp [toSpawn, ht, hq]
    refine {
      tidy := htidy
      boot := by simp
      spawned := fun q hq a hr => by
        have := h.spawned q hq a hr
        rwa [hsp] at this
      group := fun p hp a hr hk => ?_
      distinct := fun a b y ha hb => h.distinct a b y ((hchild a y).mp ha) ((hchild b y).mp hb)
      two_le := fun a y ha => h.two_le a y ((hchild a y).mp ha)
      settled := by simp }
    have hne : a ≠ t := by
      intro heq
      subst heq
      exact h.spawned p hp a hr (by simp [hsp])
    have hk' : a ∈ v.held.keys := by
      simpa [held, ht, hne] using hk
    obtain ⟨h1, h2⟩ := h.group p hp a hr hk'
    exact ⟨(hchild _ _).mpr h1, h2⟩
  | slotEnd ht hq hs =>
    obtain rfl := Option.some.inj ho
    obtain ⟨-, hth, hq', hm, -⟩ := takeSlot_frame hs
    exact h.same htidy (by simp [hth, ht]) (by simp [toSpawn, hth, ht, hq'])
      (by simp [held, hth, ht, hm]) (by simp [Child, held, hth, ht, hm]) (by simp [hth, ht])
  | register ht =>
    obtain rfl := Option.some.inj ho
    exact h.same htidy (by simp) (by simp [toSpawn, ht]) (by simp [held, ht])
      (by simp [Child, held, ht]) (by simp)
  | @spawn t pid ht =>
    cases pid with
    | none => exact hok.elim
    | some x =>
      simp only [Os.workerStep] at ho
      split at ho
      · rename_i hf
        obtain rfl := Option.some.inj ho
        exact h.spawn ht hf hok
      · cases ho
  | spawnThrows ht => exact hok.elim
  | @mirror t pid ht =>
    obtain rfl := Option.some.inj ho
    obtain ⟨s₀, hget⟩ := h.tidy.starting t (by simp [ht, Thread.starting])
    have hmem := JsMap.get?_eq_some.mp hget
    refine h.same htidy (by simp) (by simp [toSpawn, ht]) (by simp [held, ht]) (fun a y => ?_)
      (by simp)
    simp only [Child, held, ht, reduceCtorEq, or_false, Thread.spawned.injEq]
    constructor
    · rintro ⟨startedAt, hm⟩
      obtain ⟨p, hp, heq⟩ := List.mem_map.mp hm
      by_cases hpt : p.1 = t
      · simp only [hpt, if_true, Prod.mk.injEq, Reg.mk.injEq] at heq
        exact .inr ⟨heq.1, heq.2.2⟩
      · rw [if_neg hpt] at heq
        exact .inl ⟨startedAt, heq ▸ hp⟩
    · rintro (⟨startedAt, hm⟩ | ⟨rfl, rfl⟩)
      · -- the entry of `t` itself had no pid
        have hat : a ≠ t := by
          intro heq
          subst heq
          have := JsMap.get?_eq_some.mpr hm
          rw [hget] at this
          cases this
        exact ⟨startedAt, List.mem_map.mpr ⟨_, hm, by simp [hat]⟩⟩
      · exact ⟨s₀, List.mem_map.mpr ⟨_, hmem, by simp⟩⟩
  | @settle r ht hu hr =>
    obtain rfl := Option.some.inj ho
    exact h.settle ht hr hok
  | append ht =>
    obtain rfl := Option.some.inj ho
    exact h.same htidy (by simp) (by simp [toSpawn, ht]) (by simp [held, ht])
      (by simp [Child, held, ht]) (by simp)
  | @deregister t ht =>
    obtain rfl := Option.some.inj ho
    exact h.same htidy (by simp) (by simp [toSpawn, ht]) (by simp [held, ht])
      (by simp [Child, held, ht]) (by simp)

end Worker.Children

end CorpusRunner
