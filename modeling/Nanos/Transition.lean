import Mathlib.Logic.Basic

set_option autoImplicit false

/-!
# Transition systems given by a partial step function

A system whose state changes by actions, each of which may be refused (`none`, for an action
that is not enabled or whose assertion fails). A run feeds a list of actions one after the other;
an interleaving of several agents is a run whose actions name their agent. `Reachable` collects
the states reached by the actions that an environment condition `ok` allows, and
`Reachable.invariant` is the rule that a property kept by every allowed step holds of every
reachable state.
-/

namespace Nanos.Transition

variable {σ α : Type*} (step : σ → α → Option σ)

/-- The actions one after the other, or `none` as soon as one is refused. -/
def run : σ → List α → Option σ
  | s, [] => some s
  | s, a :: as => (step s a).bind fun s' => run s' as

@[simp] theorem run_nil (s : σ) : run step s [] = some s := rfl

@[simp] theorem run_cons (s : σ) (a : α) (as : List α) :
    run step s (a :: as) = (step s a).bind fun s' => run step s' as := rfl

theorem run_append (s : σ) (as bs : List α) :
    run step s (as ++ bs) = (run step s as).bind fun s' => run step s' bs := by
  induction as generalizing s with
  | nil => rfl
  | cons a as ih =>
    simp only [List.cons_append, run_cons, ih]
    cases step s a <;> rfl

/-- The states reached from `s₀` by steps whose action the environment allows. -/
inductive Reachable (ok : σ → α → Prop) (s₀ : σ) : σ → Prop
  | init : Reachable ok s₀ s₀
  | step {s s' : σ} (a : α) : Reachable ok s₀ s → ok s a → step s a = some s' →
      Reachable ok s₀ s'

/-- Each action of a run is allowed in the state it is taken in. -/
def RunAllowed (ok : σ → α → Prop) : σ → List α → Prop
  | _, [] => True
  | s, a :: as => ok s a ∧ ∀ s', step s a = some s' → RunAllowed ok s' as

variable {step}

/-- The invariant rule: a property of `s₀` that every allowed step keeps holds of every
    reachable state. -/
theorem Reachable.invariant {ok : σ → α → Prop} {s₀ : σ} (I : σ → Prop) (h0 : I s₀)
    (hstep : ∀ s a s', I s → ok s a → step s a = some s' → I s') {s : σ}
    (h : Reachable step ok s₀ s) : I s := by
  induction h with
  | init => exact h0
  | step a _ hok hs ih => exact hstep _ a _ ih hok hs

/-- Where the environment allows every action, the end of a run is reachable. -/
theorem Reachable.of_run {s₀ s : σ} {as : List α} (h : run step s₀ as = some s) :
    Reachable step (fun _ _ => True) s₀ s := by
  -- the run is walked from its start, carrying the reachability of the state it is at
  suffices H : ∀ (as : List α) (s₁ : σ), Reachable step (fun _ _ => True) s₀ s₁ →
      run step s₁ as = some s → Reachable step (fun _ _ => True) s₀ s from H as s₀ .init h
  intro as
  induction as with
  | nil =>
    intro s₁ hs₁ hrun
    rw [run_nil, Option.some_inj] at hrun
    exact hrun ▸ hs₁
  | cons a as ih =>
    intro s₁ hs₁ hrun
    obtain ⟨s₂, h₂, hrest⟩ := Option.bind_eq_some_iff.1 hrun
    exact ih s₂ (hs₁.step a trivial h₂) hrest

/-- The end of a run each of whose actions is allowed is reachable. -/
theorem Reachable.of_run_allowed {ok : σ → α → Prop} {s₀ s : σ} {as : List α}
    (h : run step s₀ as = some s) (hok : RunAllowed step ok s₀ as) : Reachable step ok s₀ s := by
  suffices H : ∀ (as : List α) (s₁ : σ), Reachable step ok s₀ s₁ → RunAllowed step ok s₁ as →
      run step s₁ as = some s → Reachable step ok s₀ s from H as s₀ .init hok h
  intro as
  induction as with
  | nil =>
    intro s₁ hs₁ _ hrun
    rw [run_nil, Option.some_inj] at hrun
    exact hrun ▸ hs₁
  | cons a as ih =>
    intro s₁ hs₁ hok₁ hrun
    obtain ⟨s₂, h₂, hrest⟩ := Option.bind_eq_some_iff.1 hrun
    exact ih s₂ (hs₁.step a hok₁.1 h₂) (hok₁.2 s₂ h₂) hrest

end Nanos.Transition
