import Mathlib

/-!
# Two parties that repair one record by comparing clocks

In a round two parties compare their records: where the clocks differ, the record with the later clock is merged at the other
party; where they are equal and the records are not, the answering party's record is merged by the asking one, and the result by
the first. Rounds are repeated with either party asking.

A pair on which the record with the later clock loses the merge is stuck, and so is one with equal clocks of which each party
keeps its own. A merge that picks one of the two records repairs every other pair; one that keeps the later clock, and is the
record that both further merges end in, repairs every pair after at most three rounds.
-/

namespace Repair

variable {R T : Type*} [LinearOrder T] [DecidableEq R] (clock : R → T) (merge : R → R → R)

/-- One round, asked for by the party that holds `a`. -/
def round (a b : R) : R × R :=
  if a = b then (a, b)
  else if clock a < clock b then (merge a b, b)
  else if clock b < clock a then (a, merge b a)
  else (merge a b, merge b (merge a b))

/-- One round, asked for by the first or by the second party. -/
def turn (first : Bool) (p : R × R) : R × R :=
  if first then round clock merge p.1 p.2 else (round clock merge p.2 p.1).swap

/-- The pair after `n` rounds. -/
def rounds (who : Nat → Bool) (p : R × R) : Nat → R × R
  | 0 => p
  | n + 1 => turn clock merge (who n) (rounds who p n)

/-- Two records that no round changes: the one with the later clock loses the merge, or neither clock is later and each party's
merge keeps its own record. -/
def Stuck (a b : R) : Prop :=
  a ≠ b ∧ ((clock a < clock b ∧ merge a b = a) ∨ (clock b < clock a ∧ merge b a = b) ∨
    (clock a = clock b ∧ merge a b = a ∧ merge b a = b))

variable {clock merge}

theorem turn_same : turn clock merge first (a, a) = (a, a) := by
  cases first <;> simp [turn, round]

theorem rounds_same (who : Nat → Bool) (a : R) (n : Nat) : rounds clock merge who (a, a) n = (a, a) := by
  induction n with
  | zero => rfl
  | succ n ih => rw [rounds, ih, turn_same]

theorem rounds_add :
    rounds clock merge who p (m + n) = rounds clock merge (fun k => who (m + k)) (rounds clock merge who p m) n := by
  induction n with
  | zero => rfl
  | succ n ih => rw [Nat.add_succ, rounds, ih, rounds]

theorem Stuck.rounds (h : Stuck clock merge a b) (who : Nat → Bool) (n : Nat) : rounds clock merge who (a, b) n = (a, b) := by
  obtain ⟨hne, h⟩ := h
  have hturn : ∀ first, turn clock merge first (a, b) = (a, b) := by
    intro first
    rcases h with ⟨hlt, hm⟩ | ⟨hlt, hm⟩ | ⟨heq, hab, hba⟩
    · cases first <;> simp [turn, round, hne, hne.symm, hlt, hlt.not_gt, hm]
    · cases first <;> simp [turn, round, hne, hne.symm, hlt, hlt.not_gt, hm]
    · cases first <;> simp [turn, round, hne, hne.symm, heq, hab, hba]
  induction n with
  | zero => rfl
  | succ n ih => rw [Repair.rounds, ih, hturn]

variable (clock) in
/-- What each party's merges keep, all rounds keep. -/
theorem rounds_keep {P Q : R → Prop} (hP : ∀ x y, P x → Q y → P (merge x y)) (hQ : ∀ x y, P x → Q y → Q (merge y x))
    (ha : P a) (hb : Q b) (who : Nat → Bool) (n : Nat) :
    P (rounds clock merge who (a, b) n).1 ∧ Q (rounds clock merge who (a, b) n).2 := by
  have hturn : ∀ first (p : R × R), P p.1 → Q p.2 → P (turn clock merge first p).1 ∧ Q (turn clock merge first p).2 := by
    intro first p h1 h2
    have h1' := hP _ _ h1 h2
    have h2' := hQ _ _ h1 h2
    have h1'' := hP _ _ h1 h2'
    have h2'' := hQ _ _ h1' h2
    unfold turn round
    cases first <;> simp only [Bool.false_eq_true, if_false, if_true] <;> split_ifs <;> simp_all
  induction n with
  | zero => exact ⟨ha, hb⟩
  | succ n ih => exact hturn (who n) _ ih.1 ih.2

/-- The two parties never hold the same record. -/
def Apart (clock : R → T) (merge : R → R → R) (p : R × R) : Prop :=
  ∀ who n, (rounds clock merge who p n).1 ≠ (rounds clock merge who p n).2

theorem Stuck.apart (h : Stuck clock merge a b) : Apart clock merge (a, b) := by
  intro who n
  rw [h.rounds]
  exact h.1

/-- Where the clocks differ, a round merges the later record into the other, whoever asks. -/
theorem turn_of_lt (first : Bool) (h : clock a < clock b) : turn clock merge first (a, b) = (merge a b, b) := by
  have hne : a ≠ b := fun heq => absurd h (heq ▸ lt_irrefl _)
  cases first <;> simp [turn, round, hne, hne.symm, h, h.not_gt]

theorem turn_of_gt (first : Bool) (h : clock b < clock a) : turn clock merge first (a, b) = (a, merge b a) := by
  have hne : a ≠ b := fun heq => absurd h (heq ▸ lt_irrefl _)
  cases first <;> simp [turn, round, hne, hne.symm, h, h.not_gt]

/-- Whether the pair is repaired after at most `n` rounds, whoever asks. -/
def RepairedIn (clock : R → T) (merge : R → R → R) (n : Nat) (p : R × R) : Prop :=
  ∀ who, ∃ m, rounds clock merge who p n = (m, m)

theorem RepairedIn.same (a : R) (n : Nat) : RepairedIn clock merge n (a, a) := fun who => ⟨a, rounds_same who a n⟩

theorem RepairedIn.of_turn (h : ∀ first, RepairedIn clock merge n (turn clock merge first p)) :
    RepairedIn clock merge (n + 1) p := by
  intro who
  rw [Nat.add_comm, rounds_add]
  exact h (who 0) _

theorem RepairedIn.mono (h : RepairedIn clock merge m p) (hmn : m ≤ n) : RepairedIn clock merge n p := by
  intro who
  obtain ⟨k, rfl⟩ := Nat.exists_eq_add_of_le hmn
  obtain ⟨r, hr⟩ := h who
  rw [rounds_add, hr]
  exact ⟨r, rounds_same _ r k⟩

/-- Where the merge takes the later record, one round is enough. -/
theorem rounds_of_lt (h : clock a < clock b) (hm : merge a b = b) (who : Nat → Bool) (n : Nat) :
    rounds clock merge who (a, b) (n + 1) = (b, b) := by
  have hone : rounds clock merge who (a, b) 1 = (b, b) := (turn_of_lt (who 0) h).trans (by rw [hm])
  rw [Nat.add_comm, rounds_add, hone, rounds_same]

theorem repairedIn_of_lt (h : clock a < clock b) (hm : merge a b = b) : RepairedIn clock merge 1 (a, b) :=
  fun who => ⟨b, rounds_of_lt h hm who 0⟩

theorem repairedIn_of_gt (h : clock b < clock a) (hm : merge b a = a) : RepairedIn clock merge 1 (a, b) := by
  refine RepairedIn.of_turn fun first => ?_
  rw [turn_of_gt first h, hm]
  exact RepairedIn.same a 0

section Choice

variable {a b : R} {keepA keepB : Prop} [Decidable keepA] [Decidable keepB] (hab : merge a b = if keepA then a else b)
  (hba : merge b a = if keepB then b else a)
include hab hba

variable (clock) in
omit [DecidableEq R] in
/-- When a pair is stuck, for a merge that picks one of the two records. -/
theorem stuck_iff_of_choice : Stuck clock merge a b ↔ a ≠ b ∧ ((clock a < clock b ∧ keepA) ∨ (clock b < clock a ∧ keepB) ∨
    (clock a = clock b ∧ keepA ∧ keepB)) := by
  unfold Stuck
  refine and_congr_right fun hne => ?_
  have hA : merge a b = a ↔ keepA := by
    rw [hab]
    by_cases h : keepA <;> simp [h, Ne.symm hne]
  have hB : merge b a = b ↔ keepB := by
    rw [hba]
    by_cases h : keepB <;> simp [h, hne]
  rw [hA, hB]

/-- A merge that picks one of the two records repairs an unstuck pair in one round. -/
theorem repairedIn_of_choice (ha : merge a a = a) (hb : merge b b = b) (hns : ¬ Stuck clock merge a b) :
    RepairedIn clock merge 1 (a, b) := by
  by_cases hne : a = b
  · rw [hne]
    exact RepairedIn.same b 1
  rw [stuck_iff_of_choice clock hab hba, not_and, not_or, not_or] at hns
  obtain ⟨hlt, hgt, heq⟩ := hns hne
  rcases lt_trichotomy (clock a) (clock b) with h | h | h
  · exact repairedIn_of_lt h (by rw [hab, if_neg fun hk => hlt ⟨h, hk⟩])
  · refine RepairedIn.of_turn fun first => ?_
    have hend : ∃ m, turn clock merge first (a, b) = (m, m) := by
      by_cases hkA : keepA
      · have hkB : ¬ keepB := fun hkB => heq ⟨h, hkA, hkB⟩
        rw [if_pos hkA] at hab
        rw [if_neg hkB] at hba
        refine ⟨a, ?_⟩
        cases first <;> simp [turn, round, hne, Ne.symm hne, h, hab, hba, ha]
      · rw [if_neg hkA] at hab
        by_cases hkB : keepB
        · rw [if_pos hkB] at hba
          refine ⟨b, ?_⟩
          cases first <;> simp [turn, round, hne, Ne.symm hne, h, hab, hba, hb]
        · -- each side takes the other's record, so the asking party decides
          rw [if_neg hkB] at hba
          cases first with
          | true => exact ⟨b, by simp [turn, round, hne, h, hab, hb]⟩
          | false => exact ⟨a, by simp [turn, round, Ne.symm hne, h, hba, ha]⟩
    obtain ⟨m, hm⟩ := hend
    rw [hm]
    exact RepairedIn.same m 0
  · exact repairedIn_of_gt h (by rw [hba, if_neg fun hk => hgt ⟨h, hk⟩])

end Choice

/-- A family of records closed under a merge that keeps the later clock, and whose third merge is the second: enough for any
two of them to be repaired. -/
structure Joins (clock : R → T) (merge : R → R → R) (S : R → Prop) : Prop where
  closed : ∀ x y, S x → S y → S (merge x y)
  clock_merge : ∀ x y, S x → S y → clock (merge x y) = max (clock x) (clock y)
  self : ∀ x, S x → merge x x = x
  left : ∀ x y, S x → S y → merge (merge x y) (merge y (merge x y)) = merge y (merge x y)
  right : ∀ x y, S x → S y → merge (merge y (merge x y)) (merge x y) = merge y (merge x y)

namespace Joins

variable {S : R → Prop}

/-- With equal clocks two rounds are enough. -/
theorem repairedIn_of_eq (h : Joins clock merge S) (ha : S a) (hb : S b) (hc : clock a = clock b) :
    RepairedIn clock merge 2 (a, b) := by
  by_cases hab : a = b
  · rw [hab]
    exact RepairedIn.same b 2
  have hone : ∀ x y, S x → S y → clock x = clock y → ∀ first,
      ∃ m, turn clock merge first (merge x y, merge y (merge x y)) = (m, m) := by
    intro x y hx hy hxy first
    have hm := h.closed x y hx hy
    have hcm : clock (merge x y) = clock (merge y (merge x y)) := by
      rw [h.clock_merge y _ hy hm, h.clock_merge x y hx hy, hxy, max_self, max_self]
    by_cases heq : merge x y = merge y (merge x y)
    · exact ⟨merge x y, by rw [← heq, turn_same]⟩
    · refine ⟨merge y (merge x y), ?_⟩
      have hself := h.self _ (h.closed y _ hy hm)
      cases first <;> simp [turn, round, heq, Ne.symm heq, hcm, h.left x y hx hy, h.right x y hx hy, hself]
  refine RepairedIn.of_turn fun first => RepairedIn.of_turn fun second => ?_
  have hend : ∃ m, turn clock merge second (turn clock merge first (a, b)) = (m, m) := by
    cases first with
    | true =>
      obtain ⟨m, hm⟩ := hone a b ha hb hc second
      refine ⟨m, ?_⟩
      rw [show turn clock merge true (a, b) = (merge a b, merge b (merge a b)) by simp [turn, round, hab, hc]]
      exact hm
    | false =>
      obtain ⟨m, hm⟩ := hone b a hb ha hc.symm (!second)
      refine ⟨m, ?_⟩
      rw [show turn clock merge false (a, b) = (merge a (merge b a), merge b a) by simp [turn, round, Ne.symm hab, hc]]
      cases second <;> simpa [turn, Prod.ext_iff, and_comm] using hm
  obtain ⟨m, hm⟩ := hend
  rw [hm]
  exact RepairedIn.same m 0

/-- Any two records of the family are repaired in three rounds. -/
theorem repairedIn (h : Joins clock merge S) (ha : S a) (hb : S b) : RepairedIn clock merge 3 (a, b) := by
  rcases lt_trichotomy (clock a) (clock b) with hlt | heq | hgt
  · refine RepairedIn.of_turn fun first => ?_
    rw [turn_of_lt first hlt]
    refine h.repairedIn_of_eq (h.closed a b ha hb) hb ?_
    rw [h.clock_merge a b ha hb, max_eq_right hlt.le]
  · exact (h.repairedIn_of_eq ha hb heq).mono (by norm_num)
  · refine RepairedIn.of_turn fun first => ?_
    rw [turn_of_gt first hgt]
    refine h.repairedIn_of_eq ha (h.closed b a hb ha) ?_
    rw [h.clock_merge b a hb ha, max_eq_right hgt.le]

end Joins

end Repair
