import Mathlib.Data.List.Basic

/-!
# Runs under a condition on every step

A run folds a step function over a list of operations. What each step preserves, where the step meets its condition in the state
it is taken in, holds after every run whose steps all meet theirs.
-/

namespace Run

variable {σ α : Type*} {step : σ → α → σ} {ok : σ → α → Prop} {inv : σ → Prop}

/-- The invariant rule: the condition of the `i`-th step is about the state after the first `i` operations. -/
theorem invariant (hstep : ∀ s a, inv s → ok s a → inv (step s a)) (hinit : inv s) (ops : List α)
    (hok : ∀ i, (hi : i < ops.length) → ok ((ops.take i).foldl step s) ops[i]) : inv (ops.foldl step s) := by
  induction ops generalizing s with
  | nil => exact hinit
  | cons a ops ih =>
    have hfirst : ok s a := hok 0 (Nat.zero_lt_succ _)
    refine ih (hstep s a hinit hfirst) fun i hi => ?_
    simpa using hok (i + 1) (Nat.succ_lt_succ hi)

/-- Every step of a run meets its condition in the state it is taken in. -/
def Always (step : σ → α → σ) (ok : σ → α → Prop) : σ → List α → Prop
  | _, [] => True
  | s, a :: ops => ok s a ∧ Always step ok (step s a) ops

theorem Always.and (h : Always step ok s ops) (h' : Always step ok' s ops) :
    Always step (fun s a => ok s a ∧ ok' s a) s ops := by
  induction ops generalizing s with
  | nil => trivial
  | cons a ops ih => exact ⟨⟨h.1, h'.1⟩, ih h.2 h'.2⟩

/-- The invariant rule for runs whose steps all meet their condition. -/
theorem Always.invariant (hstep : ∀ s a, inv s → ok s a → inv (step s a)) (h : Always step ok s ops)
    (hinit : inv s) : inv (ops.foldl step s) := by
  induction ops generalizing s with
  | nil => exact hinit
  | cons a ops ih => exact ih h.2 (hstep s a hinit h.1)

end Run
