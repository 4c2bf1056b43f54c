import Mathlib.Tactic

/-!
# Actions that keep their state when they throw

An action of `ExceptT ε (StateM σ)` has a state after it whether it returns or throws. `Steps R` says that every state after it
stands in the relation to the state before; for a preorder this is kept by the combinators.
-/

namespace Stateful

variable {ε σ α β : Type} {m : ExceptT ε (StateM σ) α} {f : α → ExceptT ε (StateM σ) β} {s s' : σ}

theorem bind_of_ok {a : α} (h : m s = (.ok a, s')) : (m >>= f) s = f a s' := by
  change (StateT.bind m (ExceptT.bindCont f)) s = _
  rw [show StateT.bind m (ExceptT.bindCont f) s = ExceptT.bindCont f (m s).1 (m s).2 from rfl, h]
  rfl

theorem bind_of_error {e : ε} (h : m s = (.error e, s')) : (m >>= f) s = (.error e, s') := by
  change (StateT.bind m (ExceptT.bindCont f)) s = _
  rw [show StateT.bind m (ExceptT.bindCont f) s = ExceptT.bindCont f (m s).1 (m s).2 from rfl, h]
  rfl

/-- A sequence returns when both actions do. -/
theorem bind_eq_ok_iff {b : β} {s'' : σ} : (m >>= f) s = (.ok b, s'') ↔ ∃ a s', m s = (.ok a, s') ∧ f a s' = (.ok b, s'') := by
  cases hm : m s with
  | mk result s' =>
    cases result with
    | ok a =>
      rw [bind_of_ok hm]
      constructor
      · intro h
        exact ⟨a, s', rfl, h⟩
      · intro ⟨a', s'', ha, h⟩
        cases ha
        exact h
    | error e =>
      rw [bind_of_error hm]
      constructor
      · intro h
        cases h
      · intro ⟨a', s'', ha, h⟩
        cases ha

theorem pure_run (a : α) (s : σ) : (pure a : ExceptT ε (StateM σ) α) s = (.ok a, s) := rfl

theorem throw_run (e : ε) (s : σ) : (throw e : ExceptT ε (StateM σ) α) s = (.error e, s) := rfl

theorem get_run (s : σ) : (get : ExceptT ε (StateM σ) σ) s = (.ok s, s) := rfl

/-- Every state after the action stands in the relation to the state before. -/
def Steps (R : σ → σ → Prop) (m : ExceptT ε (StateM σ) α) : Prop := ∀ s, R s (m s).2

section Preorder

variable {R : σ → σ → Prop}

theorem Steps.pure (hr : ∀ s, R s s) (a : α) : Steps R (Pure.pure a : ExceptT ε (StateM σ) α) := fun s => hr s

theorem Steps.throw (hr : ∀ s, R s s) (e : ε) : Steps R (MonadExcept.throw e : ExceptT ε (StateM σ) α) := fun s => hr s

theorem Steps.get (hr : ∀ s, R s s) : Steps R (MonadState.get : ExceptT ε (StateM σ) σ) := fun s => hr s

theorem Steps.bind (ht : ∀ a b c, R a b → R b c → R a c) (hm : Steps R m) (hf : ∀ a, Steps R (f a)) : Steps R (m >>= f) := by
  intro s
  have h := hm s
  cases hms : m s with
  | mk result s' =>
    rw [hms] at h
    cases result with
    | ok a =>
      rw [bind_of_ok hms]
      exact ht _ _ _ h (hf a s')
    | error e =>
      rw [bind_of_error hms]
      exact h

end Preorder

end Stateful
