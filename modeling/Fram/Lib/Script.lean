import Mathlib.Logic.Basic

/-!
# Scripts

A script asks questions, one after another, and each time goes on as it is answered; in the end it has a result. A handler answers
over a state of its own. Two handlers that give the same answers over related states give a script the same result
(`run_simulates`); it is enough that they do so on the way to a good end, where nothing good comes of anything bad.
-/

/-- A script whose question `q` is answered by an `A q`. -/
inductive Script {Q : Type} (A : Q → Type) (α : Type) : Type where
  | done (result : α)
  | ask (question : Q) (next : A question → Script A α)

namespace Script

variable {Q : Type} {A : Q → Type} {α β σ τ : Type}

/-- The result of a script, and the state that it leaves. -/
def run (handler : (q : Q) → σ → A q × σ) : Script A α → σ → α × σ
  | done result, s => (result, s)
  | ask q next, s => run handler (next (handler q s).1) (handler q s).2

/-- A script, and what goes on from its result. -/
def bind : Script A α → (α → Script A β) → Script A β
  | done result, f => f result
  | ask q next, f => ask q fun answer => (next answer).bind f

section Runs

variable {handler : (q : Q) → σ → A q × σ} {other : (q : Q) → τ → A q × τ}

@[simp] theorem run_done (result : α) (s : σ) : run handler (done result) s = (result, s) := rfl

@[simp] theorem run_ask (q : Q) (next : A q → Script A α) (s : σ) :
    run handler (ask q next) s = run handler (next (handler q s).1) (handler q s).2 := rfl

/-- What every question keeps, a script keeps. -/
theorem run_invariant {P : σ → Prop} (hstep : ∀ q s, P s → P (handler q s).2) (p : Script A α) {s : σ} (hs : P s) :
    P (run handler p s).2 := by
  induction p generalizing s with
  | done result => exact hs
  | ask q next ih => exact ih _ (hstep q s hs)

/-- What stands at the end of a script stood at its start, if no question brings it about. -/
theorem of_run {P : σ → Prop} (hback : ∀ q s, P (handler q s).2 → P s) (p : Script A α) {s : σ} (h : P (run handler p s).2) : P s := by
  induction p generalizing s with
  | done result => exact h
  | ask q next ih => exact hback q s (ih _ h)

/-- Two handlers that answer the same over related states, on the way to a good end, run a script to the same result. -/
theorem run_simulates {R : σ → τ → Prop} {good : σ → Prop} (hback : ∀ q s, good (handler q s).2 → good s)
    (hstep : ∀ q s t, R s t → good (handler q s).2 → (handler q s).1 = (other q t).1 ∧ R (handler q s).2 (other q t).2)
    (p : Script A α) {s : σ} {t : τ} (hr : R s t) (hgood : good (run handler p s).2) :
    (run handler p s).1 = (run other p t).1 ∧ R (run handler p s).2 (run other p t).2 := by
  induction p generalizing s t with
  | done result => exact ⟨rfl, hr⟩
  | ask q next ih =>
    obtain ⟨hanswer, hrel⟩ := hstep q s t hr (of_run hback _ hgood)
    rw [run_ask, run_ask, ← hanswer]
    exact ih _ hrel hgood

end Runs

end Script
