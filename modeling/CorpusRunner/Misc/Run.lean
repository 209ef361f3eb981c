import Mathlib.Order.WellFounded

/-!
# Labelled runs

A system is a partial step function `step : σ → ε → Option σ` on states and events; `ok`
says which events a group of results allows in which states (the schedule, the assumptions
on the environment). `Run step ok s es s'` takes the events `es` one after the other.

The rules here are the ones every later module uses: an invariant is carried from one step
to a whole run (`Run.invariant`), also when it speaks about the events taken so far
(`Run.traceInvariant`), and a state from which no infinite run starts is reached through a
decreasing measure (`acc_of_measure`).
-/

namespace CorpusRunner

variable {σ ε : Type}

/-- From `s` the events of the list are taken in order; each is enabled and allowed. -/
inductive Run (step : σ → ε → Option σ) (ok : σ → ε → Prop) (s : σ) : List ε → σ → Prop
  | refl : Run step ok s [] s
  | snoc {es : List ε} {e : ε} {s' s'' : σ} :
      Run step ok s es s' → ok s' e → step s' e = some s'' → Run step ok s (es ++ [e]) s''

namespace Run

variable {step : σ → ε → Option σ} {ok ok' : σ → ε → Prop} {s s' s'' : σ} {es es' : List ε}

theorem single {e : ε} (h : ok s e) (hs : step s e = some s') : Run step ok s [e] s' :=
  Run.snoc .refl h hs

theorem trans (h : Run step ok s es s') (h' : Run step ok s' es' s'') :
    Run step ok s (es ++ es') s'' := by
  induction h' with
  | refl => simpa using h
  | snoc _ hok hstep ih =>
    rw [← List.append_assoc]
    exact .snoc ih hok hstep

theorem cons {e : ε} (h : ok s e) (hs : step s e = some s') (h' : Run step ok s' es s'') :
    Run step ok s (e :: es) s'' := by
  simpa using (single h hs).trans h'

theorem nil_inv (h : Run step ok s [] s') : s' = s := by
  generalize hl : ([] : List ε) = l at h
  cases h with
  | refl => rfl
  | snoc => simp at hl

/-- The first event of a run, and the run that is left after it. -/
theorem cons_inv {e : ε} (h : Run step ok s (e :: es) s'') :
    ∃ s', ok s e ∧ step s e = some s' ∧ Run step ok s' es s'' := by
  generalize hl : e :: es = l at h
  induction h generalizing es with
  | refl => simp at hl
  | snoc hr hok hstep ih =>
    rename_i l' e' t t'
    cases l' with
    | nil =>
      simp only [List.nil_append, List.cons.injEq] at hl
      obtain ⟨rfl, rfl⟩ := hl
      obtain rfl := hr.nil_inv
      exact ⟨t', hok, hstep, .refl⟩
    | cons a l' =>
      simp only [List.cons_append, List.cons.injEq] at hl
      obtain ⟨rfl, rfl⟩ := hl
      obtain ⟨u, h1, h2, h3⟩ := ih rfl
      exact ⟨u, h1, h2, .snoc h3 hok hstep⟩

/-- A run splits where its list of events does. -/
theorem append_inv (h : Run step ok s (es ++ es') s'') :
    ∃ s', Run step ok s es s' ∧ Run step ok s' es' s'' := by
  induction es generalizing s with
  | nil => exact ⟨s, .refl, h⟩
  | cons e es ih =>
    obtain ⟨t, h1, h2, h3⟩ := h.cons_inv
    obtain ⟨u, h4, h5⟩ := ih h3
    exact ⟨u, .cons h1 h2 h4, h5⟩

/-- The events determine the state that is reached. -/
theorem det (h : Run step ok s es s') (h' : Run step ok' s es s'') : s' = s'' := by
  induction h generalizing s'' with
  | refl => exact h'.nil_inv.symm
  | snoc _ _ hs ih =>
    obtain ⟨t, h1, h2⟩ := h'.append_inv
    obtain rfl := ih h1
    obtain ⟨u, -, hs', h3⟩ := h2.cons_inv
    obtain rfl := h3.nil_inv
    exact Option.some.inj (hs.symm.trans hs')

theorem mono (h : Run step ok s es s') (hok : ∀ t e, ok t e → ok' t e) :
    Run step ok' s es s' := by
  induction h with
  | refl => exact .refl
  | snoc _ h1 h2 ih => exact .snoc ih (hok _ _ h1) h2

/-- What holds at the start and is kept by every allowed step holds after every run. -/
theorem invariant {I : σ → Prop} (h : Run step ok s es s') (h0 : I s)
    (hstep : ∀ t e t', I t → ok t e → step t e = some t' → I t') : I s' := by
  induction h with
  | refl => exact h0
  | snoc _ h1 h2 ih => exact hstep _ _ _ ih h1 h2

/-- `invariant` for a property of the state and of the events that led to it. -/
theorem traceInvariant {I : List ε → σ → Prop} (h : Run step ok s es s') (h0 : I [] s)
    (hstep : ∀ es t e t', I es t → ok t e → step t e = some t' → I (es ++ [e]) t') :
    I es s' := by
  induction h with
  | refl => exact h0
  | snoc _ h1 h2 ih => exact hstep _ _ _ _ ih h1 h2

/-- An invariant may be used as an assumption on every step of the run. -/
theorem strengthen {I : σ → Prop} (h : Run step ok s es s') (h0 : I s)
    (hstep : ∀ t e t', I t → ok t e → step t e = some t' → I t') :
    Run step (fun t e => ok t e ∧ I t) s es s' := by
  induction h with
  | refl => exact .refl
  | snoc hr h1 h2 ih => exact .snoc ih ⟨h1, hr.invariant h0 hstep⟩ h2

end Run

/-- Every event, in every state. -/
def unrestricted (_ : σ) (_ : ε) : Prop := True

instance (s : σ) (e : ε) : Decidable (unrestricted s e) := inferInstanceAs (Decidable True)

/-- Take a list of events, checking that each is enabled and allowed. -/
def execute (step : σ → ε → Option σ) (ok : σ → ε → Prop) [∀ s e, Decidable (ok s e)] :
    σ → List ε → Option σ
  | s, [] => some s
  | s, e :: es =>
    if ok s e then
      match step s e with
      | some s' => execute step ok s' es
      | none => none
    else none

theorem run_of_execute {step : σ → ε → Option σ} {ok : σ → ε → Prop}
    [∀ s e, Decidable (ok s e)] {s s' : σ} {es : List ε}
    (h : execute step ok s es = some s') : Run step ok s es s' := by
  induction es generalizing s with
  | nil =>
    simp only [execute, Option.some.injEq] at h
    exact h ▸ .refl
  | cons e es ih =>
    simp only [execute] at h
    split at h
    · rename_i hok
      split at h
      · rename_i t ht
        exact .cons hok ht (ih h)
      · cases h
    · cases h

/-- One allowed step, from the older state to the newer one. -/
def Steps (step : σ → ε → Option σ) (ok : σ → ε → Prop) (s s' : σ) : Prop :=
  ∃ e, ok s e ∧ step s e = some s'

theorem steps_of_isSome {step : σ → ε → Option σ} {ok : σ → ε → Prop} {s : σ} {e : ε}
    (hs : (step s e).isSome) (hok : ok s e) : ∃ t, Steps step ok s t := by
  obtain ⟨t, ht⟩ := Option.isSome_iff_exists.mp hs
  exact ⟨t, e, hok, ht⟩

/-- No infinite run starts in `s`. -/
def Terminates (step : σ → ε → Option σ) (ok : σ → ε → Prop) (s : σ) : Prop :=
  Acc (fun t' t => Steps step ok t t') s

/-- Allowing less leaves no more runs. -/
theorem Terminates.mono {step : σ → ε → Option σ} {ok ok' : σ → ε → Prop}
    (hsub : ∀ s e, ok' s e → ok s e) {s : σ} (h : Terminates step ok s) :
    Terminates step ok' s := by
  induction h with
  | intro s _ ih =>
    exact .intro s fun t ⟨e, hok, hs⟩ => ih t ⟨e, hsub s e hok, hs⟩

/-- A measure that every allowed step decreases, as long as an invariant holds, leaves no
infinite run. -/
theorem acc_of_measure {step : σ → ε → Option σ} {ok : σ → ε → Prop} {α : Type}
    {r : α → α → Prop} (wf : WellFounded r) {I : σ → Prop} (μ : σ → α)
    (hI : ∀ t e t', I t → ok t e → step t e = some t' → I t')
    (hμ : ∀ t e t', I t → ok t e → step t e = some t' → r (μ t') (μ t))
    {s : σ} (h : I s) : Terminates step ok s := by
  have key : ∀ a : α, ∀ t : σ, μ t = a → I t → Terminates step ok t := by
    intro a
    induction a using wf.induction with
    | _ a ih =>
      intro t ht hIt
      refine Acc.intro t ?_
      rintro t' ⟨e, hok, hstep⟩
      exact ih (μ t') (ht ▸ hμ t e t' hIt hok hstep) t' rfl (hI t e t' hIt hok hstep)
  exact key (μ s) s rfl h

/-- A state from which every run is finite can be run to a state where nothing is enabled. -/
theorem Terminates.exists_stuck {step : σ → ε → Option σ} {ok : σ → ε → Prop} {s : σ}
    (h : Terminates step ok s) :
    ∃ es s', Run step ok s es s' ∧ ∀ t, ¬ Steps step ok s' t := by
  induction h with
  | intro s _ ih =>
    by_cases hs : ∃ t, Steps step ok s t
    · obtain ⟨t, e, hok, hstep⟩ := hs
      obtain ⟨es, s', hr, hstuck⟩ := ih t ⟨e, hok, hstep⟩
      exact ⟨e :: es, s', .cons hok hstep hr, hstuck⟩
    · exact ⟨[], s, .refl, fun t ht => hs ⟨t, ht⟩⟩

end CorpusRunner
