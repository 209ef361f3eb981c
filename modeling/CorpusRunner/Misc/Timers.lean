import Mathlib.Data.List.Nodup
import Mathlib.Data.List.Basic

/-!
# Timers

`setTimeout` and `clearTimeout`. The table holds the timers that are armed, each with its id,
the time at which it is due and its callback; an id is given once. Which callbacks there are is
left to the program, and so is what it does when one fires: the table only drops it.
-/

namespace CorpusRunner

structure Timer (κ : Type) where
  id : Nat
  due : Nat
  callback : κ
  deriving DecidableEq, Repr

/-- The armed timers. -/
structure Timers (κ : Type) where
  pending : List (Timer κ)
  /-- The id of the next timer. -/
  next : Nat
  fresh : ∀ t ∈ pending, t.id < next
  nodup : (pending.map Timer.id).Nodup

/-- The delay of a timer: what is not within 1 and 2^31 - 1 counts as 1. -/
def timerDelay (ms : Int) : Nat := if 1 ≤ ms ∧ ms ≤ 2147483647 then ms.toNat else 1

theorem timerDelay_le {ms : Int} (h : 1 ≤ ms) : (timerDelay ms : Int) ≤ ms := by
  unfold timerDelay
  split <;> omega

namespace Timers

variable {κ : Type}

def empty : Timers κ := ⟨[], 0, by simp, by simp⟩

/-- The table after `setTimeout(callback, ms)`; the id is `next`. -/
def setTimeout (s : Timers κ) (now : Nat) (ms : Int) (callback : κ) : Timers κ where
  pending := s.pending ++ [⟨s.next, now + timerDelay ms, callback⟩]
  next := s.next + 1
  fresh := by
    intro t ht
    rcases List.mem_append.mp ht with h | h
    · exact Nat.lt_succ_of_lt (s.fresh t h)
    · rw [List.mem_singleton.mp h]
      exact Nat.lt_succ_self _
  nodup := by
    rw [List.map_append, List.nodup_append]
    refine ⟨s.nodup, by simp, ?_⟩
    intro a ha b hb
    obtain ⟨t, ht, rfl⟩ := List.mem_map.mp ha
    have hnext : b = s.next := by simpa using hb
    rw [hnext]
    exact Nat.ne_of_lt (s.fresh t ht)

/-- `clearTimeout(id)`; an id that no timer has, or `undefined`, clears nothing. -/
def clearTimeout (s : Timers κ) (id : Option Nat) : Timers κ where
  pending := s.pending.filter (fun t => decide (some t.id ≠ id))
  next := s.next
  fresh := fun t ht => s.fresh t (List.mem_of_mem_filter ht)
  nodup := s.nodup.sublist (List.filter_sublist.map _)

@[simp] theorem mem_setTimeout {s : Timers κ} {now : Nat} {ms : Int} {callback : κ}
    {t : Timer κ} : t ∈ (s.setTimeout now ms callback).pending ↔
      t ∈ s.pending ∨ t = ⟨s.next, now + timerDelay ms, callback⟩ := by
  simp [setTimeout]

@[simp] theorem mem_clearTimeout {s : Timers κ} {id : Option Nat} {t : Timer κ} :
    t ∈ (s.clearTimeout id).pending ↔ t ∈ s.pending ∧ some t.id ≠ id := by
  simp [clearTimeout]

/-- The id tells an armed timer. -/
theorem eq_of_id {s : Timers κ} {t u : Timer κ} (ht : t ∈ s.pending) (hu : u ∈ s.pending)
    (h : t.id = u.id) : t = u :=
  List.inj_on_of_nodup_map s.nodup ht hu h

/-- A timer that fires, or is cleared by its id, leaves the others armed. -/
theorem mem_clearTimeout_id {s : Timers κ} {t u : Timer κ} (ht : t ∈ s.pending) :
    u ∈ (s.clearTimeout (some t.id)).pending ↔ u ∈ s.pending ∧ u ≠ t := by
  rw [mem_clearTimeout]
  constructor
  · intro h
    refine ⟨h.1, ?_⟩
    intro heq
    exact h.2 (by rw [heq])
  · intro h
    refine ⟨h.1, ?_⟩
    intro heq
    exact h.2 (eq_of_id h.1 ht (Option.some.inj heq))

end Timers

end CorpusRunner
