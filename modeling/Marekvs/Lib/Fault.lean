import Marekvs.Lib.Fallible

/-!
# Faults of index arithmetic

Code that reads a count from outside, adds it to positions, takes slices at them and asks for memory by it. Three things may go
wrong: a slice or an item outside its vector, a sum that does not fit a machine word, and a request for more memory than a
vector may have. Each operation here says which; a computation is `Safe` if it comes to none of them.
-/

namespace Machine

variable {α β ε : Type}

/-- What goes wrong. -/
inductive Fault where
  /-- a slice or an item outside the vector -/
  | outside
  /-- a sum that wrapped -/
  | wrapped
  /-- more bytes than a vector may have -/
  | capacity
  deriving DecidableEq, Repr

/-- The most bytes a vector may have. -/
def ISIZE_MAX : Nat := 2 ^ 63 - 1

/-- `a + b`, which must fit a machine word. -/
def sum (a b : Nat) : Except Fault Nat := if a + b < 2 ^ 64 then .ok (a + b) else .error .wrapped

/-- `xs[i..j]`. -/
def span (xs : List α) (i j : Nat) : Except Fault (List α) :=
  if i ≤ j ∧ j ≤ xs.length then .ok ((xs.take j).drop i) else .error .outside

/-- `xs[i]`. -/
def item (xs : List α) (i : Nat) : Except Fault α :=
  match xs[i]? with
  | some x => .ok x
  | none => .error .outside

/-- Room for `n` items of `size` bytes. -/
def reserve (size n : Nat) : Except Fault Unit := if n * size ≤ ISIZE_MAX then .ok () else .error .capacity

/-- A computation that comes to no fault. -/
def Safe (x : Except Fault α) : Prop := ∃ r, x = .ok r

@[simp] theorem safe_ok (r : α) : Safe (.ok r : Except Fault α) := ⟨r, rfl⟩

@[simp] theorem not_safe_error (f : Machine.Fault) : ¬ Safe (.error f : Except Fault α) := by
  rintro ⟨r, h⟩
  cases h

theorem safe_bind {x : Except Fault α} {f : α → Except Fault β} : Safe (x >>= f) ↔ ∃ a, x = .ok a ∧ Safe (f a) := by
  constructor
  · rintro ⟨r, h⟩
    obtain ⟨a, ha, h⟩ := Fallible.bind_eq_ok.1 h
    exact ⟨a, ha, r, h⟩
  · rintro ⟨a, rfl, r, h⟩
    exact ⟨r, h⟩

theorem sum_eq (h : a + b < 2 ^ 64) : sum a b = .ok (a + b) := if_pos h

theorem eq_of_sum_eq_ok (h : sum a b = .ok c) : c = a + b := by
  unfold sum at h
  split at h
  · exact (Except.ok.inj h).symm
  · cases h

theorem span_eq (h : i + n ≤ xs.length) : span xs i (i + n) = .ok ((xs.drop i).take n) := by
  rw [span, if_pos ⟨Nat.le_add_right _ _, h⟩, List.drop_take, Nat.add_sub_cancel_left]

theorem item_eq (h : xs[i]? = some x) : item xs i = .ok x := by rw [item, h]

theorem safe_reserve_bind {size n : Nat} {f : Unit → Except Fault β} :
    Safe (reserve size n >>= f) ↔ n * size ≤ ISIZE_MAX ∧ Safe (f ()) := by
  unfold reserve
  split
  · next h => simp [h]
  · next h => exact iff_of_false (not_safe_error _) fun hs => h hs.1

end Machine
