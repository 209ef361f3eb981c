import CorpusRunner.Process
import CorpusRunner.Proofs.Loop

/-!
# What a step does to the processes

A step ages the processes of the table or creates one; a restart of the container empties it.
-/

namespace CorpusRunner

open ProcTable

/-- Whether `reapPid` signals a process. -/
def reapReaches (pid : Option Pid) (p : Proc Role) : Bool :=
  match pid with
  | none => false
  | some pid => pid ≠ 0 && (p.inGroup pid || p.hasPid pid)

theorem reapPid_eq_signal (procs : List (Proc Role)) (pid : Option Pid) :
    reapPid procs pid = signal (reapReaches pid) procs := by
  cases pid with
  | none => simp [reapPid, reapReaches, signal]
  | some x =>
    by_cases hx : x = 0
    · simp [reapPid, reapReaches, signal, hx]
    · simp only [reapPid, if_neg hx, signal, List.map_map]
      apply List.map_congr_left
      intro p _
      cases hg : p.inGroup x <;> cases hp : p.hasPid x <;>
        simp_all [reapReaches, Proc.hasPid]

theorem aged_reapPid (pid : Option Pid) (t : List (Proc Role)) : Aged t (reapPid t pid) := by
  rw [reapPid_eq_signal]
  exact .signal _ t

theorem aged_hardKill (pid : Option Pid) (t : List (Proc Role)) : Aged t (hardKill t pid) := by
  unfold hardKill
  split
  · exact .refl t
  · exact .signal _ t

/-- An active process that `reapPid` has not reached is in another group. -/
theorem pgid_ne_of_reapPid {pid : Option Pid} {t : List (Proc Role)} {q : Proc Role}
    (h : q ∈ reapPid t pid) (ha : q.active = true) (h0 : q.pgid ≠ 0) : pid ≠ some q.pgid := by
  intro heq
  subst heq
  rw [reapPid_eq_signal] at h
  have := not_reached_of_active h ha
  simp only [Proc.active, Bool.and_eq_true] at ha
  simp [reapReaches, h0, Proc.inGroup, ha.1] at this

theorem pgid_ne_of_hardKill {pid : Option Pid} {t : List (Proc Role)} {q : Proc Role}
    (h : q ∈ hardKill t pid) (ha : q.active = true) : pid ≠ some q.pgid := by
  intro heq
  subst heq
  have := not_reached_of_active h ha
  simp only [Proc.active, Bool.and_eq_true] at ha
  simp [Proc.inGroup, ha.1] at this

/-- The processes that an event may create. -/
inductive Created (w : World) : WorldEvent → Proc Role → Prop
  | supervisor {cfg : Config} {fresh : Bool} {pid pgid : Pid}
      (h : admits w.os.procs pid pgid = true) :
      Created w (.prog (.start cfg fresh) pid pgid) (.created pid pgid .supervisor)
  | worker {now : Int} {pid pgid : Pid} {np : Int} {before : Nat}
      (hpc : w.sys.pc = some (.launch np before)) (h : free w.os.procs pid = true) :
      Created w (.prog (.sup now) pid pgid) (.created pid pid (.worker w.os.session))
  | test {t : JsString} {x pid pgid : Pid} {v : Worker} (hv : v ∈ w.sys.current)
      (h : free w.os.procs x = true) :
      Created w (.prog (.worker (.spawn t (some x))) pid pgid)
        (.created x x (.test t w.os.worker))
  | orphanTest {i k : Nat} {t : JsString} {x pid pgid : Pid} (hk : w.os.orphans[i]? = some k)
      (h : free w.os.procs x = true) :
      Created w (.prog (.orphan i (.spawn t (some x))) pid pgid) (.created x x (.test t k))
  | other {pid pgid : Pid} (h : admits w.os.procs pid pgid = true) :
      Created w (.other pid pgid) (.created pid pgid .other)
  | fork {i : Nat} {pid : Pid} {p : Proc Role} (hp : w.os.procs[i]? = some p)
      (ha : p.active = true) (ht : p.role.isTest = true) (h : free w.os.procs pid = true) :
      Created w (.fork i pid) (.created pid p.pgid p.role)

/-- What a step does to the table. -/
inductive TableStep (w : World) (e : WorldEvent) (procs : List (Proc Role)) : Prop
  | aged (h : Aged w.os.procs procs)
  | created (q : Proc Role) (h : Created w e q) (heq : procs = w.os.procs ++ [q])
  | emptied (pid pgid : Pid) (he : e = .prog .containerCrash pid pgid) (heq : procs = [])

theorem supStep_table (w : World) (now : Int) (pgid : Pid) {pid : Pid} {pc : Pc} {os : Os}
    (hpc : w.sys.pc = some pc) (h : w.os.supStep pid pc = some os) :
    TableStep w (.prog (.sup now) pid pgid) os.procs := by
  unfold Os.supStep at h
  split at h
  · split at h
    · rename_i hf
      rw [← Option.some.inj h]
      exact .created _ (.worker hpc hf) rfl
    · cases h
  · rw [← Option.some.inj h]
    exact .aged (aged_reapPid _ _)
  · rw [← Option.some.inj h]
    exact .aged (.refl _)
  · rw [← Option.some.inj h]
    exact .aged (.ends _ _)
  · rw [← Option.some.inj h]
    exact .aged (.refl _)

/-- The steps that neither spawn nor settle leave the processes alone. -/
theorem workerStep_procs {os os' : Os} {k : Nat} {v : Worker} {we : WorkerEvent}
    (h : os.workerStep k v we = some os') :
    os'.procs = os.procs ∨ (∃ t x, we = .spawn t (some x) ∧ free os.procs x = true ∧
      os'.procs = os.procs ++ [.created x x (.test t k)]) ∨
      ∃ r, we = .settle r ∧ os'.procs = hardKill os.procs (v.childPid r.test) := by
  unfold Os.workerStep at h
  split at h
  · split at h
    · rename_i hf
      rw [← Option.some.inj h]
      exact .inr (.inl ⟨_, _, rfl, hf, rfl⟩)
    · cases h
  · rw [← Option.some.inj h]
    exact .inr (.inr ⟨_, rfl, rfl⟩)
  · rw [← Option.some.inj h]
    exact .inl rfl

theorem osStep_table {w : World} {e : Event} {pid pgid : Pid} {os : Os}
    (h : w.os.step w.sys pid pgid e = some os) : TableStep w (.prog e pid pgid) os.procs := by
  cases e with
  | start cfg fresh =>
    simp only [Os.step] at h
    split at h
    · rename_i ha
      rw [← Option.some.inj h]
      exact .created _ (.supervisor ha) rfl
    · cases h
  | sup now =>
    simp only [Os.step, Option.bind_eq_some_iff] at h
    obtain ⟨pc, hpc, h⟩ := h
    exact supStep_table w now pgid hpc h
  | stall =>
    rw [← Option.some.inj h]
    exact .aged ((aged_hardKill _ _).trans (.ends _ _))
  | worker we =>
    simp only [Os.step, Option.bind_eq_some_iff] at h
    obtain ⟨v, hv, h⟩ := h
    rcases workerStep_procs h with hp | ⟨t, x, rfl, hf, hp⟩ | ⟨r, -, hp⟩
    · exact .aged (hp ▸ .refl _)
    · exact .created _ (.test (List.mem_of_mem_head? hv) hf) hp
    · exact .aged (hp ▸ aged_hardKill _ _)
  | workerExits => rw [← Option.some.inj h]; exact .aged (.ends _ _)
  | workerDies what => rw [← Option.some.inj h]; exact .aged (.ends _ _)
  | orphan i we =>
    simp only [Os.step] at h
    split at h
    · rename_i hk hv
      rcases workerStep_procs h with hp | ⟨t, x, rfl, hf, hp⟩ | ⟨r, -, hp⟩
      · exact .aged (hp ▸ .refl _)
      · exact .created _ (.orphanTest hk hf) hp
      · exact .aged (hp ▸ aged_hardKill _ _)
    · cases h
  | orphanExits i =>
    obtain ⟨k, -, rfl⟩ := Option.map_eq_some_iff.mp h
    exact .aged (.ends _ _)
  | orphanDies i =>
    obtain ⟨k, -, rfl⟩ := Option.map_eq_some_iff.mp h
    exact .aged (.ends _ _)
  | interrupt => rw [← Option.some.inj h]; exact .aged (.ends _ _)
  | containerCrash => rw [← Option.some.inj h]; exact .emptied pid pgid rfl rfl

theorem World.table {w w' : World} {e : WorldEvent} (h : w.step e = some w') :
    TableStep w e w'.os.procs := by
  cases e with
  | prog ev pid pgid =>
    simp only [step] at h
    split at h
    · rename_i ho
      rw [← Option.some.inj h]
      exact osStep_table ho
    · cases h
  | other pid pgid =>
    simp only [step] at h
    split at h
    · rename_i ha
      rw [← Option.some.inj h]
      exact .created _ (.other ha) rfl
    · cases h
  | fork i pid =>
    simp only [step] at h
    split at h
    · rename_i hp
      split at h
      · rename_i hc
        simp only [Bool.and_eq_true] at hc
        rw [← Option.some.inj h]
        exact .created _ (.fork hp hc.1.1 hc.1.2 hc.2) rfl
      · cases h
    · cases h
  | ends i =>
    simp only [step] at h
    split at h
    · split at h
      · rw [← Option.some.inj h]
        exact .aged (.ends _ _)
      · cases h
    · cases h

/-- Only a restart of the container takes processes out of the table. -/
theorem World.length_procs_le {w w' : World} {e : WorldEvent} (h : w.step e = some w')
    (hne : ∀ pid pgid, e ≠ .prog .containerCrash pid pgid) :
    w.os.procs.length ≤ w'.os.procs.length := by
  cases World.table h with
  | aged ha => exact ha.length.ge
  | created q _ heq => simp [heq]
  | emptied pid pgid he => exact absurd he (hne pid pgid)

/-! ## The worker of an earlier supervisor -/

theorem Sys.length_current_le (s : Sys) : s.current.length ≤ 1 := by
  unfold current
  split <;> simp

section

variable {early : Pc → Bool} {s : Sys}

/-- A supervisor that is `early` does not wait for a worker yet. -/
theorem Sys.current_eq_nil (hawait : ∀ np before v, early (.await np before v) = false)
    (h : ∀ p, s.sup = some p → early p.pc = true) : s.current = [] := by
  unfold current
  split
  · rename_i heq
    have hearly := h _ heq
    rw [hawait] at hearly
    cases hearly
  · rfl

/-- While a later supervisor is past its `early` steps, no worker of an earlier one is alive. -/
theorem Sys.orphans_eq_nil
    (h : s.orphans ≠ [] → ∀ p, s.sup = some p → early p.pc = true) {p : Supervisor}
    (hp : s.sup = some p) (hf : early p.pc = false) : s.orphans = [] := by
  by_contra hne
  have hearly := h hne p hp
  rw [hf] at hearly
  cases hearly

/-- When a supervisor is interrupted, at most one worker is left behind. -/
theorem Sys.length_interrupted (hawait : ∀ np before v, early (.await np before v) = false)
    (hfew : s.orphans.length ≤ 1)
    (h : s.orphans ≠ [] → ∀ p, s.sup = some p → early p.pc = true) :
    (s.orphans ++ s.current).length ≤ 1 := by
  by_cases hc : s.orphans = []
  · rw [hc]
    exact s.length_current_le
  · rw [s.current_eq_nil hawait (h hc), List.append_nil]
    exact hfew

end

theorem eq_singleton_of_get {l : List Worker} {i : Nat} {v : Worker} (hl : l.length ≤ 1)
    (hi : l[i]? = some v) : l = [v] ∧ i = 0 := by
  have hlt := (List.getElem?_eq_some_iff.mp hi).1
  obtain ⟨a, rfl⟩ : ∃ a, l = [a] := List.length_eq_one_iff.mp (by omega)
  obtain rfl : i = 0 := by simpa using hlt
  exact ⟨by simpa using hi, rfl⟩

/-- A worker's step changes no place. -/
theorem workerStep_fields {os os' : Os} {k : Nat} {v : Worker} {we : WorkerEvent}
    (h : os.workerStep k v we = some os') :
    os'.worker = os.worker ∧ os'.orphans = os.orphans ∧ os'.session = os.session ∧
      os'.harvested = os.harvested := by
  unfold Os.workerStep at h
  split at h
  · split at h
    · rw [← Option.some.inj h]
      exact ⟨rfl, rfl, rfl, rfl⟩
    · cases h
  · rw [← Option.some.inj h]
    exact ⟨rfl, rfl, rfl, rfl⟩
  · rw [← Option.some.inj h]
    exact ⟨rfl, rfl, rfl, rfl⟩

end CorpusRunner
