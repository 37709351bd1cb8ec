import Mathlib.Data.List.Basic

/-!
# Incremental parsing

A parser that is run again from the start of the unread input each time input arrives. One attempt either fails, or asks for more
input, or returns a value and how much input it took. If an attempt that fails or returns keeps its answer under every extension
of the input (`Stable`), then it does not matter how the input is cut into pieces: `drain_append`.
-/

namespace Incremental

open List

variable {α β ε : Type} (step : List α → Except ε (Option (Nat × β)))

/-- Values until the parser fails or asks for more: the values, the unread input, and the failure. -/
def drain : Nat → List α → List β × List α × Option ε
  | 0, xs => ([], xs, none)
  | fuel + 1, xs =>
    match step xs with
    | .error e => ([], xs, some e)
    | .ok none => ([], xs, none)
    | .ok (some (n, b)) =>
      let r := drain fuel (xs.drop n)
      (b :: r.1, r.2)

/-- All values of an input; each takes at least one item. -/
def parse (xs : List α) : List β × List α × Option ε := drain step (xs.length + 1) xs

/-- The attempt asked for more, or has the same answer with more input. -/
def Grows {γ : Type} (r r' : Except ε (Option γ)) : Prop := r = .ok none ∨ r' = r

section Grows

variable {γ δ : Type} {r r' s s' : Except ε (Option γ)}

/-- An attempt that goes on with a value of another. -/
theorem Grows.bind (h : Grows r r') {f f' : Option γ → Except ε (Option δ)} (hnone : f none = .ok none)
    (hsome : ∀ c, r = .ok (some c) → Grows (f (some c)) (f' (some c))) : Grows (r >>= f) (r' >>= f') := by
  rcases h with rfl | rfl
  · exact .inl hnone
  match r' with
  | .error e => exact .inr rfl
  | .ok none => exact .inl hnone
  | .ok (some c) => exact hsome c rfl

/-- An attempt that goes on with a value that the rest of the input has no part in. -/
theorem Grows.bind_left (x : Except ε δ) {f f' : δ → Except ε (Option γ)} (h : ∀ d, Grows (f d) (f' d)) :
    Grows (x >>= f) (x >>= f') := by
  cases x with
  | error e => exact .inr rfl
  | ok d => exact h d

theorem Grows.ite [Decidable c] (h : Grows r r') (h' : Grows s s') : Grows (if c then r else s) (if c then r' else s') := by
  split
  · exact h
  · exact h'

end Grows

/-- An attempt that answers takes some of the input, and answers the same whatever follows. -/
structure Stable : Prop where
  progress : ∀ {xs n b}, step xs = .ok (some (n, b)) → 0 < n ∧ n ≤ xs.length
  extend_some : ∀ {xs n b}, step xs = .ok (some (n, b)) → ∀ ys, step (xs ++ ys) = .ok (some (n, b))
  extend_error : ∀ {xs e}, step xs = .error e → ∀ ys, step (xs ++ ys) = .error e

variable {step}

namespace Stable

/-- More fuel than input changes nothing. -/
theorem drain_fuel (h : Stable step) (fuel : Nat) : ∀ {xs : List α}, xs.length < fuel → drain step fuel xs = parse step xs := by
  induction fuel using Nat.strongRecOn with
  | _ fuel ih =>
    intro xs hxs
    cases fuel with
    | zero => exact absurd hxs (Nat.not_lt_zero _)
    | succ fuel =>
      rw [parse, drain, drain]
      cases hs : step xs with
      | error e => rfl
      | ok r =>
        cases r with
        | none => rfl
        | some r =>
          obtain ⟨n, b⟩ := r
          obtain ⟨h0, hn⟩ := h.progress hs
          have hdrop : (xs.drop n).length < xs.length := by rw [length_drop]; omega
          simp only
          rw [ih fuel (by omega) (by omega)]
          rcases Nat.lt_or_ge xs.length (fuel + 1) with hlt | hge
          · rw [ih xs.length hlt hdrop]
          · omega

theorem parse_error (_ : Stable step) (hs : step xs = .error e) : parse step xs = ([], xs, some e) := by
  rw [parse, drain, hs]

theorem parse_none (_ : Stable step) (hs : step xs = .ok none) : parse step xs = ([], xs, none) := by
  rw [parse, drain, hs]

theorem parse_some (h : Stable step) (hs : step xs = .ok (some (n, b))) :
    parse step xs = (b :: (parse step (xs.drop n)).1, (parse step (xs.drop n)).2) := by
  obtain ⟨h0, hn⟩ := h.progress hs
  rw [parse, drain, hs]
  simp only
  rw [h.drain_fuel xs.length (by rw [length_drop]; omega)]

/-- Induction along a parse: the attempt fails, or asks for more, or the parse goes on after a value. -/
theorem induction (h : Stable step) {motive : List α → Prop} (error : ∀ xs e, step xs = .error e → motive xs)
    (more : ∀ xs, step xs = .ok none → motive xs)
    (value : ∀ xs n b, step xs = .ok (some (n, b)) → n ≤ xs.length → motive (xs.drop n) → motive xs) (xs : List α) :
    motive xs := by
  induction hk : xs.length using Nat.strongRecOn generalizing xs with
  | _ k ih =>
    cases hs : step xs with
    | error e => exact error xs e hs
    | ok r =>
      cases r with
      | none => exact more xs hs
      | some r =>
        obtain ⟨h0, hn⟩ := h.progress hs
        exact value xs r.1 r.2 hs hn (ih _ (by rw [length_drop]; omega) _ rfl)

/-- An input in two pieces: what the first piece leaves unread is read again in front of the second. -/
theorem parse_append (h : Stable step) (xs ys : List α) :
    parse step (xs ++ ys) = ((parse step xs).1 ++ (parse step ((parse step xs).2.1 ++ ys)).1,
      (parse step ((parse step xs).2.1 ++ ys)).2) := by
  induction xs using h.induction with
  | error xs e hs => rw [h.parse_error hs, nil_append]
  | more xs hs => rw [h.parse_none hs, nil_append]
  | value xs n b hs hn ih =>
    rw [h.parse_some (h.extend_some hs ys), h.parse_some hs, drop_append_of_le_length hn, ih, cons_append]

/-- What is left unread asks for more, or fails as the parse did. -/
theorem step_rest (h : Stable step) (xs : List α) :
    step (parse step xs).2.1 = (match (parse step xs).2.2 with | some e => .error e | none => .ok none) := by
  induction xs using h.induction with
  | error xs e hs => simp [h.parse_error hs, hs]
  | more xs hs => simp [h.parse_none hs, hs]
  | value xs n b hs _ ih =>
    rw [h.parse_some hs]
    exact ih

/-- Input that arrives in pieces, read after each piece: `rest` is unread so far. -/
def feed (step : List α → Except ε (Option (Nat × β))) (s : List β × List α × Option ε) (piece : List α) :
    List β × List α × Option ε :=
  let r := parse step (s.2.1 ++ piece)
  (s.1 ++ r.1, r.2)

/-- However the input is cut, the outcome is that of the whole. -/
theorem feed_pieces (h : Stable step) (pieces : List (List α)) (xs : List α) :
    pieces.foldl (feed step) (parse step xs) = parse step (xs ++ pieces.flatten) := by
  induction pieces generalizing xs with
  | nil => rw [flatten_nil, append_nil, foldl_nil]
  | cons p pieces ih =>
    rw [foldl_cons, flatten_cons, ← append_assoc, ← ih (xs ++ p), h.parse_append xs p]
    rfl

end Stable

end Incremental
