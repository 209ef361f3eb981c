import Mathlib.Data.List.Basic

/-!
# The pool

`runPool` (`corpus-worker.mjs:91-96`) over any items. The slots share the index `i` and run one
at a time, so that a slot's way from the condition of its loop to the next `await`, or to its
end, is one step. A work may resolve any time after its call; its slot goes on later, and not
before `Array.from` has started all of them. A `conc` that is no array's length makes
`Array.from` throw before it has started any: then `work` is never called, and the promise of
`runPool` is rejected.
-/

namespace CorpusRunner

/-- The length of an array is smaller. -/
def arrayLimit : Nat := 4294967296

/-- The slot that runs next, of those that are yet to be started and those that are back at their
loop, and how many of each are left: `Array.from` starts all of them before any other code runs. -/
def nextSlot (unstarted looping : Nat) : Option (Nat × Nat) :=
  if 0 < unstarted then some (unstarted - 1, looping)
  else if 0 < looping then some (unstarted, looping - 1)
  else none

theorem nextSlot_cases {unstarted looping : Nat} {n : Nat × Nat}
    (h : nextSlot unstarted looping = some n) :
    (0 < unstarted ∧ n = (unstarted - 1, looping)) ∨
      (unstarted = 0 ∧ 0 < looping ∧ n = (unstarted, looping - 1)) := by
  unfold nextSlot at h
  split at h
  · rename_i hu
    exact .inl ⟨hu, (Option.some.inj h).symm⟩
  · rename_i hu
    split at h
    · rename_i hl
      exact .inr ⟨Nat.eq_zero_of_not_pos hu, hl, (Option.some.inj h).symm⟩
    · cases h

theorem nextSlot_eq_none {unstarted looping : Nat} (h : nextSlot unstarted looping = none) :
    unstarted = 0 ∧ looping = 0 := by
  unfold nextSlot at h
  split at h
  · cases h
  · split at h
    · cases h
    · omega

structure Pool (α : Type) where
  items : List α
  conc : Nat
  /-- The index that the slots share. -/
  i : Nat
  /-- Slots that `Array.from` has yet to start. -/
  unstarted : Nat
  /-- Slots that are back at `while (i < items.length)`. -/
  looping : Nat
  /-- `idx` of the works that have not resolved, each awaited by its slot. -/
  running : List Nat
  /-- `idx` of the works that have resolved. -/
  finished : List Nat
  /-- Slots that have returned. -/
  returned : Nat
  /-- What `work` was called on, in this order. -/
  calls : List α
  deriving DecidableEq

inductive PoolEvent where
  /-- The slot whose turn it is looks at the index. -/
  | turn
  /-- The promise of a work resolves. -/
  | resolves (idx : Nat)
  deriving DecidableEq, Repr

namespace Pool

variable {α : Type}

/-- The slots that `Array.from` starts. -/
def slots (conc : Nat) : Nat := if conc < arrayLimit then conc else 0

def start (items : List α) (conc : Nat) : Pool α :=
  { items, conc, i := 0, unstarted := slots conc, looping := 0, running := [], finished := []
    returned := 0, calls := [] }

def takeSlot (p : Pool α) : Option (Pool α) :=
  (nextSlot p.unstarted p.looping).map fun n => { p with unstarted := n.1, looping := n.2 }

/-- `runPool` (`corpus-worker.mjs:91-96`). -/
def step (p : Pool α) : PoolEvent → Option (Pool α)
  | .turn =>
    match p.takeSlot with
    | none => none
    | some p' =>
      match p.items[p.i]? with
      | some a =>
        some { p' with i := p.i + 1, running := p.running ++ [p.i], calls := p.calls ++ [a] }
      | none => some { p' with returned := p.returned + 1 }
  | .resolves idx =>
    if idx ∈ p.running then
      some { p with looping := p.looping + 1
                    running := p.running.filter (fun k => decide (k ≠ idx))
                    finished := p.finished ++ [idx] }
    else none

/-- The promise of `Promise.all`, and with it that of `runPool`, is resolved. -/
def resolved (p : Pool α) : Bool := p.returned == p.conc

/-- The promise of `runPool` is rejected with the `RangeError` of `Array.from`. -/
def rejected (p : Pool α) : Bool := decide (arrayLimit ≤ p.conc)

end Pool

end CorpusRunner
