import Marekvs.Core.Hlc
import Marekvs.Lib.Run

/-!
# The stamps of a cluster

Nodes stamp what they write, and every stamp can reach every node, any number of times. Wall clocks go anywhere, backwards too. No
node gives a stamp out twice, and as long as no stamp was clamped on arrival, whatever a node had stamped or heard of, directly or
through others, has an earlier stamp.
-/

namespace Marekvs.Hlc

open List Function

variable {I : Type}

/-- A stamp with what its node had stamped or heard of by then. -/
structure Stamp (I : Type) where
  node : I
  hlc : UInt64
  past : List UInt64

structure Clocks (I : Type) where
  clock : I → UInt64
  past : I → List UInt64
  given : List (Stamp I)
  /-- a stamp that arrived was ahead of the wall clock by more than the drift -/
  clamped : Bool

inductive Event (I : Type) where
  | now (node : I) (wallMs : UInt64)
  /-- a stamp that was given out, counted from the last one, arrives -/
  | observe (node : I) (wallMs : UInt64) (k : Nat)

def Clocks.start (clock : I → UInt64) : Clocks I := ⟨clock, fun _ => [], [], false⟩

def Clocks.step [DecidableEq I] (s : Clocks I) : Event I → Clocks I
  | .now i wallMs =>
    let hlc := now (s.clock i) wallMs
    ⟨update s.clock i hlc, update s.past i (hlc :: s.past i), ⟨i, hlc, s.past i⟩ :: s.given, s.clamped⟩
  | .observe i wallMs k =>
    match s.given[k]? with
    | none => s
    | some r =>
      ⟨update s.clock i (observe (s.clock i) wallMs r.hlc), update s.past i (r.hlc :: r.past ++ s.past i), s.given,
        s.clamped || hlcPack (wallMs + MAX_CLOCK_DRIFT_MS) 0 < r.hlc⟩

/-- The clock does not wrap around. -/
abbrev Clocks.NoWrap (s : Clocks I) : Event I → Prop
  | .now i _ => s.clock i + 1 ≠ 0
  | .observe i wallMs k => ∀ r ∈ s.given[k]?, observe (s.clock i) wallMs r.hlc ≠ 0

theorem lt_add_one {x : UInt64} (h : x + 1 ≠ 0) : x < x + 1 := UInt64.lt_add_one fun hx => h (by rw [hx]; rfl)

theorem lt_observe (h : observe clock wallMs remote ≠ 0) : clock < observe clock wallMs remote ∧
    (remote ≤ hlcPack (wallMs + MAX_CLOCK_DRIFT_MS) 0 → remote < observe clock wallMs remote) := by
  have hlt := lt_add_one h
  exact ⟨(le_max_left _ _).trans_lt hlt, fun hle => (le_max_of_le_right (le_min le_rfl hle)).trans_lt hlt⟩

structure Inv (s : Clocks I) : Prop where
  given_le : ∀ r ∈ s.given, r.hlc ≤ s.clock r.node
  once : (s.given.map fun r => (r.hlc, r.node)).Nodup
  past_le : s.clamped = false → ∀ i, ∀ t ∈ s.past i, t ≤ s.clock i
  past_lt : s.clamped = false → ∀ r ∈ s.given, ∀ t ∈ r.past, t < r.hlc

variable [DecidableEq I] {s : Clocks I}

/-- A node's clock moves on, past all that the node has heard of. -/
theorem Inv.advance (h : Inv s) (hlt : s.clock i < c) (hclamped : clamped = false → s.clamped = false)
    (hp : clamped = false → ∀ t ∈ p, t ≤ c) : Inv ⟨update s.clock i c, update s.past i p, s.given, clamped⟩ := by
  have hmono : ∀ j, s.clock j ≤ update s.clock i c j :=
    (forall_update_iff s.clock fun j c => s.clock j ≤ c).2 ⟨hlt.le, fun _ _ => le_rfl⟩
  refine ⟨fun r hr => (h.given_le r hr).trans (hmono _), h.once, fun hc j t ht => ?_, fun hc => h.past_lt (hclamped hc)⟩
  by_cases hj : j = i
  · subst hj
    simp only [update_self] at ht ⊢
    exact hp hc t ht
  · simp only [update_of_ne hj] at ht
    exact (h.past_le (hclamped hc) j t ht).trans (hmono j)

theorem Inv.step (h : Inv s) (e : Event I) (hok : s.NoWrap e) : Inv (s.step e) := by
  cases e with
  | now i wallMs =>
    have hlt : s.clock i < now (s.clock i) wallMs := (lt_add_one hok).trans_le (le_max_left _ _)
    have hpast : s.clamped = false → ∀ t ∈ s.past i, t < now (s.clock i) wallMs := by
      intro hc t ht
      exact (h.past_le hc i t ht).trans_lt hlt
    have hmove := h.advance (p := now (s.clock i) wallMs :: s.past i) hlt id fun hc =>
      forall_mem_cons.2 ⟨le_rfl, fun t ht => (hpast hc t ht).le⟩
    refine ⟨forall_mem_cons.2 ⟨?_, hmove.given_le⟩, nodup_cons.2 ⟨fun hmem => ?_, h.once⟩, hmove.past_le,
      fun hc => forall_mem_cons.2 ⟨hpast hc, h.past_lt hc⟩⟩
    · simp [Clocks.step]
    · obtain ⟨r, hr, heq⟩ := mem_map.1 hmem
      obtain ⟨hhlc, rfl⟩ := Prod.mk.inj heq
      exact (hlt.trans_le (hhlc.ge.trans (h.given_le r hr))).false
  | observe i wallMs k =>
    simp only [Clocks.step]
    split
    · exact h
    · rename_i r hr
      obtain ⟨hlt, hpass⟩ := lt_observe (hok r hr)
      refine h.advance hlt (fun hc => (Bool.or_eq_false_iff.1 hc).1) fun hc => forall_mem_append.2 ?_
      obtain ⟨hc, hdrift⟩ := Bool.or_eq_false_iff.1 hc
      have hgot := hpass (not_lt.1 (of_decide_eq_false hdrift))
      refine ⟨forall_mem_cons.2 ⟨hgot.le, fun t ht => ?_⟩, fun t ht => ((h.past_le hc i t ht).trans_lt hlt).le⟩
      exact ((h.past_lt hc r (mem_of_getElem? hr) t ht).trans hgot).le

/-- In every run, no stamp is given out twice, and unless one was clamped, causes have earlier stamps. -/
theorem stamps_follow_causes (clock : I → UInt64) (events : List (Event I))
    (h : Run.Always Clocks.step Clocks.NoWrap (.start clock) events) :
    ((events.foldl Clocks.step (.start clock)).given.map fun r => (r.hlc, r.node)).Nodup ∧
      ((events.foldl Clocks.step (.start clock)).clamped = false →
        ∀ r ∈ (events.foldl Clocks.step (.start clock)).given, ∀ t ∈ r.past, t < r.hlc) := by
  have hrun := h.invariant (fun _ e hs hok => Inv.step hs e hok) ⟨nofun, nodup_nil, nofun, nofun⟩
  exact ⟨hrun.once, hrun.past_lt⟩

/-- Node 1 writes, and node 2 writes after it has heard of it, with a wall clock that is behind. -/
def heardBehind : List (Event Nat) := [.now 1 2, .observe 2 1 0, .now 2 1]

theorem heard_behind_follows : (heardBehind.foldl Clocks.step (.start 0)).clamped = false ∧
    ∀ r ∈ (heardBehind.foldl Clocks.step (.start 0)).given, ∀ t ∈ r.past, t < r.hlc :=
  ⟨by decide, (stamps_follow_causes 0 heardBehind ⟨by decide, by decide, by decide, trivial⟩).2 (by decide)⟩

end Marekvs.Hlc
