import Mathlib.Data.List.Basic

/-!
# Process tables

A table of the processes there have been since the system came up, in the order in which they
were created: pid, process group, what the process was created as (`ρ`), whether it still runs
and whether it has been sent SIGKILL. Entries are only appended and changed in place, so that
a place in the table names one process even when pids are handed out again.
-/

namespace CorpusRunner

structure Proc (ρ : Type) where
  pid : Nat
  pgid : Nat
  role : ρ
  running : Bool
  sigkilled : Bool
  deriving DecidableEq

/-- A process just created. -/
def Proc.created {ρ : Type} (pid pgid : Nat) (role : ρ) : Proc ρ := ⟨pid, pgid, role, true, false⟩

/-- It runs and has not been sent SIGKILL: it may still take steps. -/
def Proc.active {ρ : Type} (p : Proc ρ) : Bool := p.running && !p.sigkilled

/-- Whether `kill(pid, SIGKILL)` reaches it. -/
def Proc.hasPid {ρ : Type} (pid : Nat) (p : Proc ρ) : Bool := p.running && p.pid = pid

/-- Whether `kill(-pgid, SIGKILL)` reaches it; `kill(-1, ..)` reaches every process. -/
def Proc.inGroup {ρ : Type} (pgid : Nat) (p : Proc ρ) : Bool :=
  p.running && (p.pgid = pgid || pgid = 1)

namespace ProcTable

variable {ρ : Type}

/-- SIGKILL to the processes that `reached` selects. -/
def signal (reached : Proc ρ → Bool) (t : List (Proc ρ)) : List (Proc ρ) :=
  t.map (fun p => if reached p then { p with sigkilled := true } else p)

/-- The process at place `i` ends. -/
def ends (i : Nat) (t : List (Proc ρ)) : List (Proc ρ) :=
  t.modify i (fun p => { p with running := false })

/-- A pid that may be handed out: it is not 1, and neither a process that runs nor its group
has it. -/
def free (t : List (Proc ρ)) (pid : Nat) : Bool :=
  2 ≤ pid && t.all (fun p => !p.running || (decide (p.pid ≠ pid) && decide (p.pgid ≠ pid)))

theorem two_le_of_free {t : List (Proc ρ)} {pid : Nat} (h : free t pid = true) : 2 ≤ pid := by
  simp only [free, Bool.and_eq_true, decide_eq_true_eq] at h
  exact h.1

theorem ne_of_free {t : List (Proc ρ)} {pid : Nat} (h : free t pid = true) {p : Proc ρ}
    (hp : p ∈ t) (hr : p.running = true) : p.pid ≠ pid ∧ p.pgid ≠ pid := by
  simp only [free, Bool.and_eq_true, List.all_eq_true] at h
  simpa [hr] using h.2 p hp

/-- A process keeps what it was created with, and does not start again. -/
structure Later (p q : Proc ρ) : Prop where
  pid : q.pid = p.pid
  pgid : q.pgid = p.pgid
  role : q.role = p.role
  running : q.running = true → p.running = true
  sigkilled : p.sigkilled = true → q.sigkilled = true

theorem Later.refl (p : Proc ρ) : Later p p := ⟨rfl, rfl, rfl, id, id⟩

/-- Every process is still at its place, and no active one has changed. -/
structure Aged (t t' : List (Proc ρ)) : Prop where
  length : t'.length = t.length
  later : ∀ (k : Nat) (q : Proc ρ), t'[k]? = some q →
    ∃ p, t[k]? = some p ∧ Later p q ∧ (q.active = true → q = p)

namespace Aged

variable {t t' t'' : List (Proc ρ)}

theorem refl (t : List (Proc ρ)) : Aged t t := ⟨rfl, fun _ q hq => ⟨q, hq, .refl q, fun _ => rfl⟩⟩

theorem trans (h : Aged t t') (h' : Aged t' t'') : Aged t t'' := by
  refine ⟨h'.length.trans h.length, fun k r hr => ?_⟩
  obtain ⟨q, hq, h1, hqr⟩ := h'.later k r hr
  obtain ⟨p, hp, h2, hpq⟩ := h.later k q hq
  refine ⟨p, hp, ⟨h1.pid.trans h2.pid, h1.pgid.trans h2.pgid, h1.role.trans h2.role,
    fun h => h2.running (h1.running h), fun h => h1.sigkilled (h2.sigkilled h)⟩, fun ha => ?_⟩
  have hrq := hqr ha
  rw [hrq]
  exact hpq (hrq ▸ ha)

theorem mem (h : Aged t t') {q : Proc ρ} (hq : q ∈ t') : ∃ p ∈ t, Later p q := by
  obtain ⟨k, hk⟩ := List.getElem?_of_mem hq
  obtain ⟨p, hp, hl, -⟩ := h.later k q hk
  exact ⟨p, List.mem_of_getElem? hp, hl⟩

theorem mem_of_active (h : Aged t t') {q : Proc ρ} (hq : q ∈ t') (ha : q.active = true) :
    q ∈ t := by
  obtain ⟨k, hk⟩ := List.getElem?_of_mem hq
  obtain ⟨p, hp, -, he⟩ := h.later k q hk
  rw [he ha]
  exact List.mem_of_getElem? hp

theorem get (h : Aged t t') {k : Nat} {p : Proc ρ} (hp : t[k]? = some p) :
    ∃ q, t'[k]? = some q ∧ Later p q := by
  obtain ⟨hk, -⟩ := List.getElem?_eq_some_iff.mp hp
  have hk' : k < t'.length := h.length ▸ hk
  obtain ⟨p', hp', hl, -⟩ := h.later k _ (List.getElem?_eq_getElem hk')
  obtain rfl : p = p' := Option.some.inj (hp.symm.trans hp')
  exact ⟨_, List.getElem?_eq_getElem hk', hl⟩

theorem signal (reached : Proc ρ → Bool) (t : List (Proc ρ)) : Aged t (signal reached t) := by
  refine ⟨by simp [ProcTable.signal], fun k q hq => ?_⟩
  simp only [ProcTable.signal, List.getElem?_map, Option.map_eq_some_iff] at hq
  obtain ⟨p, hp, rfl⟩ := hq
  refine ⟨p, hp, ?_⟩
  cases reached p with
  | true => exact ⟨⟨rfl, rfl, rfl, id, fun _ => rfl⟩, by simp [Proc.active]⟩
  | false => exact ⟨.refl p, fun _ => rfl⟩

theorem ends (i : Nat) (t : List (Proc ρ)) : Aged t (ends i t) := by
  refine ⟨by simp [ProcTable.ends], fun k q hq => ?_⟩
  simp only [ProcTable.ends, List.getElem?_modify, Option.map_eq_map,
    Option.map_eq_some_iff] at hq
  obtain ⟨p, hp, rfl⟩ := hq
  refine ⟨p, hp, ?_⟩
  split
  · exact ⟨⟨rfl, rfl, rfl, by simp, id⟩, by simp [Proc.active]⟩
  · exact ⟨.refl p, fun _ => rfl⟩

end Aged

/-- A process of a table to which one has been appended. -/
theorem getElem?_created {t : List (Proc ρ)} {p q : Proc ρ} {k : Nat}
    (h : (t ++ [q])[k]? = some p) : t[k]? = some p ∨ k = t.length ∧ p = q := by
  rw [List.getElem?_append] at h
  split at h
  · exact .inl h
  · obtain ⟨hlt, heq⟩ := List.getElem?_eq_some_iff.mp h
    simp only [List.length_singleton] at hlt
    exact .inr ⟨by omega, by simpa using heq.symm⟩

theorem not_running_of_ends {i : Nat} {t : List (Proc ρ)} {q : Proc ρ}
    (h : (ends i t)[i]? = some q) : q.running = false := by
  simp only [ends, List.getElem?_modify, Option.map_eq_map, Option.map_eq_some_iff] at h
  obtain ⟨p, -, rfl⟩ := h
  simp

/-- A process that is still active after a signal has not been reached. -/
theorem not_reached_of_active {reached : Proc ρ → Bool} {t : List (Proc ρ)} {q : Proc ρ}
    (h : q ∈ signal reached t) (ha : q.active = true) : reached q = false := by
  obtain ⟨p, -, rfl⟩ := List.mem_map.mp h
  cases hr : reached p with
  | true => simp [hr, Proc.active] at ha
  | false => simp [hr]

end ProcTable

end CorpusRunner
