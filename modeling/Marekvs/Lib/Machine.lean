import Marekvs.Lib.Fallible

/-!
# Positions in machine words

Code that computes positions in 64-bit words and reads slices at them: a sum that does not fit wraps, and a slice whose bounds
are out of order or past the end panics. A sum that wrapped lies below both its parts, so that a check of it against a length
passes and the slice up to it panics.
-/

namespace Machine

variable {α : Type}

/-- The program stops. -/
inductive Panic where
  | bounds
  deriving DecidableEq, Repr

/-- `a + b` in 64 bits. -/
def add (a b : Nat) : Nat := (a + b) % 2 ^ 64

/-- `xs[i..j]`. -/
def slice (xs : List α) (i j : Nat) : Except Panic (List α) :=
  if i ≤ j ∧ j ≤ xs.length then .ok ((xs.take j).drop i) else .error .bounds

/-- `xs.get(i..j)`. -/
def range? (xs : List α) (i j : Nat) : Option (List α) :=
  if i ≤ j ∧ j ≤ xs.length then some ((xs.take j).drop i) else none

/-- `xs[i]`. -/
def index (xs : List α) (i : Nat) : Except Panic α :=
  match xs[i]? with
  | some x => .ok x
  | none => .error .bounds

/-- A computation that does not panic. -/
def Runs {β : Type} (x : Except Panic β) : Prop := ∃ r, x = .ok r

@[simp] theorem runs_ok (r : β) : Runs (.ok r : Except Panic β) := ⟨r, rfl⟩

@[simp] theorem not_runs_error (p : Machine.Panic) : ¬ Runs (.error p : Except Panic β) := by
  rintro ⟨r, h⟩
  cases h

/-- What a computation that panics outside `c` and returns `r` inside says about panics. -/
theorem runs_ite : Runs (if c then .ok r else .error .bounds : Except Panic β) ↔ c = true := by
  cases c <;> simp

theorem runs_bind_ok {f : β → γ} : Runs (x >>= fun b => .ok (f b)) ↔ Runs x := by
  cases x <;> simp

theorem add_eq (h : a + b < 2 ^ 64) : add a b = a + b := Nat.mod_eq_of_lt h

/-- A sum that wraps lies below its parts. -/
theorem add_lt (hb : b < 2 ^ 64) (h : 2 ^ 64 ≤ a + b) (ha : a < 2 ^ 64) : add a b < a := by
  rw [add]
  omega

theorem slice_eq (hij : i ≤ j) (hj : j ≤ xs.length) : slice xs i j = .ok ((xs.take j).drop i) :=
  if_pos ⟨hij, hj⟩

/-- The rest of a list from a place within it. -/
theorem slice_length (h : i ≤ xs.length) : slice xs i xs.length = .ok (xs.drop i) := by
  rw [slice_eq h (Nat.le_refl _), List.take_length]

theorem slice_add (h : i + n ≤ xs.length) : slice xs i (i + n) = .ok ((xs.drop i).take n) := by
  rw [slice_eq (Nat.le_add_right _ _) h, List.drop_take, Nat.add_sub_cancel_left]

theorem slice_of_lt (h : j < i) : slice xs i j = .error .bounds :=
  if_neg fun hij => absurd hij.1 (Nat.not_le.2 h)

end Machine
