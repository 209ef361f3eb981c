import CorpusRunner.Misc.Run
import Mathlib.Data.List.Forall2

/-!
# Simulation

A concrete system is simulated by an abstract one along a relation of their states when every
step of the first is matched by a run of the second, which may be empty, of events that stand
for the event of the step. Then every run is matched (`Run.simulate`). If a step that is matched
by nothing lowers a number, then the first has no infinite run where the second has none
(`terminates_of_simulation`).
-/

namespace CorpusRunner

variable {σ ε τ δ : Type}

/-! ## Related outcomes -/

theorem rel_some_left {R : σ → τ → Prop} {s : σ} {y : Option τ} (h : Option.Rel R (some s) y) :
    ∃ t, y = some t ∧ R s t := by
  cases h with
  | some h => exact ⟨_, rfl, h⟩

theorem rel_some_right {R : σ → τ → Prop} {x : Option σ} {t : τ} (h : Option.Rel R x (some t)) :
    ∃ s, x = some s ∧ R s t := by
  cases h with
  | some h => exact ⟨_, rfl, h⟩

/-! ## Related lists -/

theorem rel_getElem? {R : σ → τ → Prop} {l : List σ} {l' : List τ} (h : List.Forall₂ R l l')
    (i : Nat) : Option.Rel R l[i]? l'[i]? := by
  induction h generalizing i with
  | nil => exact .none
  | cons hab _ ih =>
    cases i with
    | zero => exact .some hab
    | succ i => exact ih i

theorem rel_set {R : σ → τ → Prop} {l : List σ} {l' : List τ} (h : List.Forall₂ R l l')
    (i : Nat) {a : σ} {b : τ} (hab : R a b) : List.Forall₂ R (l.set i a) (l'.set i b) := by
  induction h generalizing i with
  | nil => exact .nil
  | cons hxy hl ih =>
    cases i with
    | zero => exact .cons hab hl
    | succ i => exact .cons hxy (ih i)

theorem rel_eraseIdx {R : σ → τ → Prop} {l : List σ} {l' : List τ} (h : List.Forall₂ R l l')
    (i : Nat) : List.Forall₂ R (l.eraseIdx i) (l'.eraseIdx i) := by
  induction h generalizing i with
  | nil => exact .nil
  | cons hxy hl ih =>
    cases i with
    | zero => exact hl
    | succ i => exact .cons hxy (ih i)

/-! ## Simulation -/

/-- Each allowed step from related states is matched; `A e e'`: the event `e'` stands for `e`. -/
def Simulates (step : σ → ε → Option σ) (ok : σ → ε → Prop) (step' : τ → δ → Option τ)
    (R : σ → τ → Prop) (A : ε → δ → Prop) : Prop :=
  ∀ s e s' t, R s t → ok s e → step s e = some s' →
    ∃ es' t', Run step' unrestricted t es' t' ∧ R s' t' ∧ ∀ e' ∈ es', A e e'

/-- A run whose events have a property is a run under it. -/
theorem Run.of_events {step : σ → ε → Option σ} {P : ε → Prop} {s s' : σ} {es : List ε}
    (h : Run step unrestricted s es s') (hP : ∀ e ∈ es, P e) :
    Run step (fun _ e => P e) s es s' := by
  induction h with
  | refl => exact .refl
  | @snoc es e _ _ _ _ hs ih =>
    exact .snoc (ih fun e' he' => hP e' (by simp [he'])) (hP e (by simp)) hs

/-- The events of a run are allowed. -/
theorem Run.events {step : σ → ε → Option σ} {P : ε → Prop} {s s' : σ} {es : List ε}
    (h : Run step (fun _ e => P e) s es s') : ∀ e ∈ es, P e := by
  induction h with
  | refl => simp
  | snoc _ hok _ ih =>
    intro e he
    rcases List.mem_append.mp he with he | he
    · exact ih e he
    · obtain rfl := List.mem_singleton.mp he
      exact hok

/-- Every run of the concrete system is matched by one of the abstract system. -/
theorem Run.simulate {step : σ → ε → Option σ} {ok : σ → ε → Prop} {step' : τ → δ → Option τ}
    {R : σ → τ → Prop} {A : ε → δ → Prop} (hsim : Simulates step ok step' R A) {s s' : σ} {t : τ}
    {es : List ε} (h : Run step ok s es s') (h0 : R s t) :
    ∃ es' t', Run step' unrestricted t es' t' ∧ R s' t' ∧ ∀ e' ∈ es', ∃ e ∈ es, A e e' := by
  induction h with
  | refl => exact ⟨[], t, .refl, h0, by simp⟩
  | @snoc es e u v _ hok hs ih =>
    obtain ⟨es₁, t₁, hr₁, hR₁, hA₁⟩ := ih
    obtain ⟨es₂, t₂, hr₂, hR₂, hA₂⟩ := hsim u e v t₁ hR₁ hok hs
    refine ⟨es₁ ++ es₂, t₂, hr₁.trans hr₂, hR₂, ?_⟩
    intro e' he'
    rcases List.mem_append.mp he' with he' | he'
    · obtain ⟨e₀, he₀, hA⟩ := hA₁ e' he'
      exact ⟨e₀, by simp [he₀], hA⟩
    · exact ⟨e, by simp, hA₂ e' he'⟩

/-! ## Termination -/

/-- A measure decreases as long as an invariant holds, and a step that leaves the invariant leads
to a state from which no infinite run starts. -/
theorem terminates_of_phase {step : σ → ε → Option σ} {ok : σ → ε → Prop} {α : Type}
    {r : α → α → Prop} (wf : WellFounded r) {I : σ → Prop} (μ : σ → α)
    (hphase : ∀ s e s', I s → ok s e → step s e = some s' →
      Terminates step ok s' ∨ I s' ∧ r (μ s') (μ s))
    {s : σ} (h : I s) : Terminates step ok s := by
  have key : ∀ a : α, ∀ t : σ, μ t = a → I t → Terminates step ok t := by
    intro a
    induction a using wf.induction with
    | _ a ih =>
      rintro t rfl ht
      refine Acc.intro t ?_
      rintro t' ⟨e, hok, hs⟩
      rcases hphase t e t' ht hok hs with hdone | ⟨ht', hlt⟩
      · exact hdone
      · exact ih (μ t') hlt t' rfl ht'
  exact key (μ s) s rfl h

/-- A system has no infinite run if it is matched by one that has none, and the steps that are
matched by nothing lower a number. -/
theorem terminates_of_simulation {step : σ → ε → Option σ} {ok : σ → ε → Prop}
    {step' : τ → δ → Option τ} {ok' : τ → δ → Prop} {R : σ → τ → Prop} (μ : σ → ℕ)
    (hsim : ∀ s e s' t, R s t → ok s e → step s e = some s' →
      (∃ t', Steps step' ok' t t' ∧ R s' t') ∨ R s' t ∧ μ s' < μ s)
    {s : σ} {t : τ} (h : R s t) (ht : Terminates step' ok' t) : Terminates step ok s := by
  induction ht generalizing s with
  | intro t _ ih =>
    apply terminates_of_phase wellFounded_lt (I := fun s => R s t) μ ?_ h
    intro s e s' hs hok hstep
    rcases hsim s e s' t hs hok hstep with ⟨t', hstep', hs'⟩ | hstay
    · exact .inl (ih t' hstep' hs')
    · exact .inr hstay

end CorpusRunner
