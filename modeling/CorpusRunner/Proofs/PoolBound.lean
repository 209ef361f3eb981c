import CorpusRunner.Misc.Run
import CorpusRunner.Pool
import Mathlib.Data.List.Nodup
import Mathlib.Data.List.Range

/-!
# The pool's bound

Whatever the order in which the works resolve, the pool calls each item once and in order, as
many works run as there are slots until the last item is claimed, and it resolves when nothing
is left (`Pool.Bounded`, `Pool.terminates_start`, `Pool.resolved_of_stuck`).
-/

namespace CorpusRunner

/-! ## The steps of a pool -/

variable {α : Type}

/-- The branches of `Pool.step`. -/
inductive PoolStep (p : Pool α) : PoolEvent → Pool α → Prop
  | claim {p₁ : Pool α} {a : α} (hs : p.takeSlot = some p₁) (ha : p.items[p.i]? = some a) :
      PoolStep p .turn
        { p₁ with i := p.i + 1, running := p.running ++ [p.i], calls := p.calls ++ [a] }
  | slotEnd {p₁ : Pool α} (hs : p.takeSlot = some p₁) (hi : p.items.length ≤ p.i) :
      PoolStep p .turn { p₁ with returned := p.returned + 1 }
  | resolves {idx : Nat} (h : idx ∈ p.running) :
      PoolStep p (.resolves idx)
        { p with looping := p.looping + 1
                 running := p.running.filter (fun k => decide (k ≠ idx))
                 finished := p.finished ++ [idx] }

theorem poolStep_of_step {p p' : Pool α} {e : PoolEvent} (h : p.step e = some p') :
    PoolStep p e p' := by
  cases e with
  | turn =>
    simp only [Pool.step] at h
    split at h
    · cases h
    · rename_i p₁ hs
      split at h
      · rename_i a ha
        rw [← Option.some.inj h]
        exact .claim hs ha
      · rename_i hnone
        rw [← Option.some.inj h]
        exact .slotEnd hs (List.getElem?_eq_none_iff.mp hnone)
  | resolves idx =>
    simp only [Pool.step] at h
    split at h
    · rename_i hidx
      rw [← Option.some.inj h]
      exact .resolves hidx
    · cases h

namespace Pool

/-- `takeSlot` uses up one slot and nothing else. -/
theorem takeSlot_eq_some {p p₁ : Pool α} (h : p.takeSlot = some p₁) :
    ∃ u l, u + l + 1 = p.unstarted + p.looping ∧ p₁ = { p with unstarted := u, looping := l } := by
  obtain ⟨n, hn, rfl⟩ := Option.map_eq_some_iff.mp h
  rcases nextSlot_cases hn with ⟨hu, rfl⟩ | ⟨hu, hl, rfl⟩
  · exact ⟨p.unstarted - 1, p.looping, by omega, rfl⟩
  · exact ⟨p.unstarted, p.looping - 1, by omega, rfl⟩

theorem takeSlot_eq_none {p : Pool α} (h : p.takeSlot = none) :
    p.unstarted = 0 ∧ p.looping = 0 :=
  nextSlot_eq_none (Option.map_eq_none_iff.mp h)

/-! ## The invariant -/

/-- What every step of the pool keeps. -/
structure Inv (p : Pool α) : Prop where
  index : p.i ≤ p.items.length
  calls : p.calls = p.items.take p.i
  /-- Each index below `i` runs or is finished, and only once. -/
  once : (p.running ++ p.finished).Perm (List.range p.i)
  slots : p.unstarted + p.looping + p.running.length + p.returned = slots p.conc
  /-- A slot returns when nothing is left to claim. -/
  idle : 0 < p.returned → p.i = p.items.length

theorem inv_start (items : List α) (conc : Nat) : (start items conc).Inv where
  index := Nat.zero_le _
  calls := rfl
  once := .nil
  slots := by simp [start]
  idle := by simp [start]

theorem Inv.nodup {p : Pool α} (h : p.Inv) : (p.running ++ p.finished).Nodup :=
  h.once.nodup_iff.mpr List.nodup_range

theorem Inv.lt {p : Pool α} (h : p.Inv) {idx : Nat} (hidx : idx ∈ p.running) : idx < p.i := by
  have hmem := h.once.mem_iff.mp (List.mem_append_left p.finished hidx)
  exact List.mem_range.mp hmem

/-- A work that resolves moves from one list to the other. -/
theorem Inv.perm_resolves {p : Pool α} (h : p.Inv) {idx : Nat} (hidx : idx ∈ p.running) :
    (p.running.filter (fun k => decide (k ≠ idx)) ++ (p.finished ++ [idx])).Perm
      (p.running ++ p.finished) := by
  have hnd : p.running.Nodup := (List.nodup_append.mp h.nodup).1
  have hfilter : p.running.filter (fun k => decide (k ≠ idx)) = p.running.erase idx := by
    rw [hnd.erase_eq_filter]
    apply List.filter_congr
    intro k _
    by_cases hk : k = idx <;> simp [hk]
  rw [hfilter, ← List.append_assoc]
  refine (List.perm_append_singleton idx _).trans ?_
  exact (List.perm_cons_erase hidx).symm.append_right p.finished

theorem Inv.length_resolves {p : Pool α} (h : p.Inv) {idx : Nat} (hidx : idx ∈ p.running) :
    (p.running.filter (fun k => decide (k ≠ idx))).length + 1 = p.running.length := by
  have hlength := (h.perm_resolves hidx).length_eq
  simp only [List.length_append, List.length_singleton] at hlength
  omega

theorem Inv.step {p p' : Pool α} {e : PoolEvent} (h : p.Inv) (hs : PoolStep p e p') :
    p'.Inv := by
  cases hs with
  | @claim _ a hs ha =>
    obtain ⟨u, l, hsum, rfl⟩ := takeSlot_eq_some hs
    have hlt : p.i < p.items.length := (List.getElem?_eq_some_iff.mp ha).1
    have hslots := h.slots
    exact {
      index := hlt
      calls := by
        rw [List.take_add_one, ha, h.calls]
        rfl
      once := by
        rw [List.range_succ]
        refine List.Perm.trans ?_ (h.once.append_right [p.i])
        rw [List.append_assoc, List.append_assoc]
        exact List.perm_append_comm.append_left p.running
      slots := by
        simp only [List.length_append, List.length_singleton]
        omega
      idle := by
        intro hreturned
        have hend := h.idle hreturned
        omega }
  | slotEnd hs hi =>
    obtain ⟨u, l, hsum, rfl⟩ := takeSlot_eq_some hs
    have hslots := h.slots
    exact {
      index := h.index
      calls := h.calls
      once := h.once
      slots := by simp only; omega
      idle := fun _ => Nat.le_antisymm h.index hi }
  | @resolves idx hidx =>
    have hlength := h.length_resolves hidx
    have hslots := h.slots
    exact {
      index := h.index
      calls := h.calls
      once := (h.perm_resolves hidx).trans h.once
      slots := by simp only; omega
      idle := h.idle }

/-! ## What holds after every run -/

/-- What `runPool` promises of a pool, at any time. -/
structure Bounded (p : Pool α) : Prop where
  inOrder : p.calls = p.items.take p.i
  once : (p.running ++ p.finished).Perm (List.range p.calls.length)
  bound : p.running.length ≤ min p.conc p.items.length
  /-- When no slot is on its way to its next claim. -/
  full : p.unstarted = 0 → p.looping = 0 → p.i < p.items.length →
    p.running.length = min p.conc p.items.length
  resolved : p.resolved = true → p.calls = p.items ∧ p.running = [] ∧
    p.finished.Perm (List.range p.items.length)

theorem Inv.length_running_le {p : Pool α} (h : p.Inv) : p.running.length ≤ p.i := by
  have hlength := h.once.length_eq
  rw [List.length_append, List.length_range] at hlength
  omega

theorem slots_eq {conc : Nat} (h : conc < arrayLimit) : slots conc = conc := if_pos h

theorem slots_le (conc : Nat) : slots conc ≤ conc := by
  unfold slots
  split
  · exact Nat.le_refl _
  · exact Nat.zero_le _

theorem Inv.bounded {p : Pool α} (h : p.Inv) (hconc : 1 ≤ p.conc) (hlimit : p.conc < arrayLimit) :
    p.Bounded := by
  have hindex := h.index
  have hslots := h.slots
  rw [slots_eq hlimit] at hslots
  have hrunning := h.length_running_le
  refine ⟨h.calls, ?_, le_min (by omega) (by omega), ?_, ?_⟩
  · rw [h.calls, List.length_take, Nat.min_eq_left h.index]
    exact h.once
  · intro hunstarted hlooping hi
    have hreturned : p.returned = 0 := by
      by_contra hne
      exact hi.ne (h.idle (Nat.pos_of_ne_zero hne))
    omega
  · intro hresolved
    have hreturned : p.returned = p.conc := beq_iff_eq.mp hresolved
    have hend : p.i = p.items.length := h.idle (by omega)
    have hnil : p.running = [] := List.length_eq_zero_iff.mp (by omega)
    have honce := h.once
    rw [hnil, List.nil_append, hend] at honce
    refine ⟨?_, hnil, honce⟩
    rw [h.calls, hend, List.take_length]

theorem step_frame {p p' : Pool α} {e : PoolEvent} (hs : PoolStep p e p') :
    p'.items = p.items ∧ p'.conc = p.conc := by
  cases hs with
  | claim hs _ =>
    obtain ⟨u, l, -, rfl⟩ := takeSlot_eq_some hs
    exact ⟨rfl, rfl⟩
  | slotEnd hs _ =>
    obtain ⟨u, l, -, rfl⟩ := takeSlot_eq_some hs
    exact ⟨rfl, rfl⟩
  | resolves _ => exact ⟨rfl, rfl⟩

section Runs

variable {items : List α} {conc : Nat} {es : List PoolEvent} {p : Pool α}

theorem inv_of_run (h : Run step unrestricted (start items conc) es p) : p.Inv :=
  h.invariant (inv_start items conc) fun _ _ _ hI _ hs => hI.step (poolStep_of_step hs)

theorem frame_of_run (h : Run step unrestricted (start items conc) es p) :
    p.items = items ∧ p.conc = conc := by
  refine h.invariant (I := fun p => p.items = items ∧ p.conc = conc) ⟨rfl, rfl⟩ ?_
  intro q e q' hq _ hs
  obtain ⟨hitems, hconc⟩ := step_frame (poolStep_of_step hs)
  exact ⟨hitems.trans hq.1, hconc.trans hq.2⟩

/-- What is left to do: claims count three times, since each brings a work and a slot's turn. -/
def work (p : Pool α) : Nat :=
  3 * (p.items.length - p.i) + 2 * p.running.length + p.unstarted + p.looping

theorem work_lt {p p' : Pool α} {e : PoolEvent} (h : p.Inv) (hs : PoolStep p e p') :
    p'.work < p.work := by
  cases hs with
  | claim hs ha =>
    obtain ⟨u, l, hsum, rfl⟩ := takeSlot_eq_some hs
    have hlt : p.i < p.items.length := (List.getElem?_eq_some_iff.mp ha).1
    simp only [work, List.length_append, List.length_singleton]
    omega
  | slotEnd hs _ =>
    obtain ⟨u, l, hsum, rfl⟩ := takeSlot_eq_some hs
    simp only [work]
    omega
  | resolves hidx =>
    have hlength := h.length_resolves hidx
    simp only [work]
    omega

/-- If every work resolves, the pool does. -/
theorem terminates_start (items : List α) (conc : Nat) :
    Terminates step unrestricted (start items conc) :=
  acc_of_measure Nat.lt_wfRel.wf work
    (fun _ _ _ hI _ hs => Inv.step hI (poolStep_of_step hs))
    (fun _ _ _ hI _ hs => work_lt hI (poolStep_of_step hs)) (inv_start items conc)

/-- Only the resolved pool cannot go on. -/
theorem resolved_of_stuck (h : p.Inv) (hlimit : p.conc < arrayLimit)
    (hstuck : ∀ q, ¬ Steps step unrestricted p q) : p.resolved = true := by
  have hslot : p.takeSlot = none := by
    cases hs : p.takeSlot with
    | none => rfl
    | some p₁ =>
      have hturn : (p.step .turn).isSome := by
        simp only [step, hs]
        split <;> rfl
      obtain ⟨q, hq⟩ : ∃ q, Steps step unrestricted p q := steps_of_isSome hturn trivial
      exact absurd hq (hstuck q)
  have hrunning : p.running = [] := by
    apply List.eq_nil_iff_forall_not_mem.mpr
    intro idx hidx
    have hresolves : (p.step (.resolves idx)).isSome := by simp [step, hidx]
    obtain ⟨q, hq⟩ : ∃ q, Steps step unrestricted p q := steps_of_isSome hresolves trivial
    exact hstuck q hq
  obtain ⟨hunstarted, hlooping⟩ := takeSlot_eq_none hslot
  have hslots := h.slots
  rw [hrunning, List.length_nil, slots_eq hlimit] at hslots
  exact beq_iff_eq.mpr (by omega)

/-- A pool whose slots are too many has nothing to run. -/
theorem not_step_of_rejected (hlimit : arrayLimit ≤ conc) (e : PoolEvent) :
    (start items conc).step e = none := by
  have hslots : slots conc = 0 := if_neg (Nat.not_lt.mpr hlimit)
  cases e with
  | turn => simp [step, takeSlot, nextSlot, start, hslots]
  | resolves idx => simp [step, start]

/-- Then `work` is never called. -/
theorem eq_start_of_rejected (hlimit : arrayLimit ≤ conc)
    (h : Run step unrestricted (start items conc) es p) : p = start items conc := by
  apply h.invariant (I := fun p => p = start items conc) rfl
  rintro q e q' rfl _ hs
  rw [not_step_of_rejected hlimit] at hs
  cases hs

end Runs

end Pool

end CorpusRunner
