import Marekvs.Engine.ElementRun
import Marekvs.Lemmas.CounterField
import Marekvs.Lemmas.Totals

/-!
# Nodes that increment and exchange one counter field

A run of HINCRBY on one hash field that starts absent: nodes increment it, each with its own clock and wall-clock readings, and
any record that was ever stored on some node can reach any node, any number of times and in any order. The run keeps the accepted
increments and every set of dots that was cut to four.
-/

namespace Marekvs

open List Option Function Desc TopN Newest ElementState ElementRecord

/-- One step of a run. -/
inductive FieldOp where
  | incr (node : NodeId) (wall : UInt64) (delta : Int64)
  | deliver (node : NodeId) (wall : UInt64) (index : Nat)

/-- The field on all nodes. -/
structure FieldSys where
  clock : NodeId → UInt64
  stored : NodeId → Option Bytes
  /-- every record stored so far -/
  sent : List Bytes
  /-- the records merged on each node -/
  merged : NodeId → List Bytes
  /-- the dot sets that were cut to the newest four -/
  unions : List (Finset Dot)
  /-- the accepted increments, newest first -/
  hist : List (Dot × Int64)
  /-- no clock has wrapped around -/
  ticked : Bool

namespace FieldSys

variable (clock : NodeId → UInt64)

/-- The field is absent everywhere; the clocks are where they are. -/
def init : FieldSys := ⟨clock, fun _ => none, [], fun _ => [], [], [], true⟩

/-- The clock reading in a record's version. -/
def hlcOf (b : Bytes) : UInt64 := ((Envelope.decode b).map fun p => p.1.hlc).getD 0

variable (s : FieldSys)

/-- An increment that was accepted: what is stored, under the reading `clk`. -/
def accept (i : NodeId) (clk : UInt64) (delta : Int64) (bytes : Bytes) : FieldSys where
  clock := Function.update s.clock i clk
  stored := Function.update s.stored i (some bytes)
  sent := bytes :: s.sent
  merged := s.merged
  unions := insert ⟨clk, i⟩ (storedDots (s.stored i)).live :: s.unions
  hist := (⟨clk, i⟩, delta) :: s.hist
  ticked := s.ticked && decide (s.clock i < clk)

/-- A record merged on a node, whose clock is at `clk` after it. -/
def receive (i : NodeId) (clk : UInt64) (b : Bytes) : FieldSys where
  clock := Function.update s.clock i clk
  stored := Function.update s.stored i (some (writeMerged (s.stored i) b))
  sent := writeMerged (s.stored i) b :: s.sent
  merged := Function.update s.merged i (b :: s.merged i)
  unions := ((storedDots (s.stored i)).live ∪ (dotsOf b).live) :: s.unions
  hist := s.hist
  ticked := s.ticked && decide (s.clock i < clk)

/-- One step: a refused increment and a delivery of a record that does not exist write nothing. -/
def step : FieldOp → FieldSys
  | .incr i wall delta =>
    match incrCounterField (s.stored i) (s.clock i) wall i delta 0 wall with
    | (clk, .error _) => { s with clock := Function.update s.clock i clk }
    | (clk, .ok (_, bytes)) => s.accept i clk delta bytes
  | .deliver i wall index =>
    match s.sent[index]? with
    | none => s
    | some b => s.receive i (Hlc.observe (s.clock i) wall (hlcOf b)) b

/-- The state after a sequence of steps. -/
def run (ops : List FieldOp) : FieldSys := ops.foldl step (init clock)

/-- The sum of all accepted increments. -/
def sum (s : FieldSys) : Int := (s.hist.map fun h => h.2.toInt).sum

/-- Every node that holds the field has merged the present record of every other node. -/
def Settled : Prop :=
  ∀ i j b, (s.stored i).isSome → s.stored j = some b → i ≠ j → b ∈ s.merged i

/-- The node a step happens on. -/
def nodeOf : FieldOp → NodeId
  | .incr i _ _ => i
  | .deliver i _ _ => i

theorem step_stored_of_ne (op : FieldOp) (h : i ≠ nodeOf op) : (s.step op).stored i = s.stored i := by
  cases op with
  | incr j wall delta =>
    rw [step]
    split
    · rfl
    · exact update_of_ne h _ _
  | deliver j wall index =>
    rw [step]
    split
    · rfl
    · exact update_of_ne h _ _

theorem run_stored_none (ops : List FieldOp) (h : ∀ op ∈ ops, i ≠ nodeOf op) : (run clock ops).stored i = none := by
  induction ops using List.reverseRecOn with
  | nil => rfl
  | append_singleton ops op ih =>
    rw [run, foldl_append, foldl_cons, foldl_nil, step_stored_of_ne _ _ (h op (by simp))]
    exact ih fun op' hop' => h op' (mem_append_left _ hop')

/-- A run whose steps happen on `nodes`, after which these hold the same bytes and have merged them, is settled. -/
theorem settled_of_same (ops : List FieldOp) (nodes : List NodeId)
    (hnodes : ∀ op ∈ ops, nodeOf op ∈ nodes) (hsame : ∀ i ∈ nodes, (run clock ops).stored i = some b)
    (hmerged : ∀ i ∈ nodes, b ∈ (run clock ops).merged i) : (run clock ops).Settled := by
  have hnode : ∀ i, (run clock ops).stored i ≠ none → i ∈ nodes := by
    intro i hi
    by_contra hnot
    exact hi (run_stored_none clock ops fun op hop heq => hnot (heq ▸ hnodes op hop))
  intro i j c hi hj _
  have hc := hsame j (hnode j (by rw [hj]; exact some_ne_none c))
  rw [hj] at hc
  cases hc
  exact hmerged i (hnode i (isSome_iff_ne_none.1 hi))

end FieldSys

/-! ## Totals up to a dot -/

/-- The increments of `d`'s node up to `d`, summed by `f`. -/
def upTo (f : Int64 → Nat) (hist : List (Dot × Int64)) (d : Dot) : Nat :=
  ((hist.filter fun h => h.1.origin = d.origin ∧ h.1 ≤ d).map fun h => f h.2).sum

/-- The totals of `d`'s node at `d`. -/
def slotAt (hist : List (Dot × Int64)) (d : Dot) : Slot :=
  ⟨d.origin, UInt64.ofNat (upTo posPart hist d), UInt64.ofNat (upTo negPart hist d)⟩

/-- A node's dot that is above all its increments stands for all of them. -/
theorem upTo_eq_totalOf (h : ∀ p ∈ hist, p.1.origin = d.origin → p.1 ≤ d) : upTo f hist d = totalOf f hist d.origin := by
  unfold upTo totalOf
  congr 2
  refine filter_congr fun p hp => ?_
  simp only [decide_eq_decide]
  exact ⟨fun hq => hq.1, fun hq => ⟨hq, h p hp hq⟩⟩

/-- An increment above `d`, or of another node, does not change the totals at `d`. -/
theorem upTo_cons_of_not (h : ¬ (p.1.origin = d.origin ∧ p.1 ≤ d)) : upTo f (p :: hist) d = upTo f hist d := by
  unfold upTo
  rw [filter_cons_of_neg (by simpa using h)]

end Marekvs
