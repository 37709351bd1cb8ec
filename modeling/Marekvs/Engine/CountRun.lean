import Marekvs.Engine.StringRun

/-!
# Nodes that count on one string key

A run of INCR, DECR, INCRBY and DECRBY on one string key, which starts absent or as one text on all nodes: nodes count, each with
its own hybrid clock and wall-clock readings, and any record that was ever stored on some node can reach any node, any number of
times and in any order. The run keeps the accepted increments.
-/

namespace Marekvs

/-- A text that all nodes hold at the start. -/
structure StartText where
  hlc : UInt64
  origin : NodeId
  value : Bytes
  ttl : UInt64

namespace StartText

def bytes (t : StartText) : Bytes := writeString t.hlc t.origin t.value t.ttl

/-- A reader sees the text at this wall clock. -/
def visibleAt (t : StartText) (now : UInt64) : Bool := (readLww (some t.bytes) 0 now).isSome

/-- The integer the text stands for. -/
def number (t : StartText) : Option Int64 := parseI64 (trim t.value)

end StartText

/-- One step of a run. `arg` is the increment in the command, 1 where it has none; DECR and DECRBY negate it. -/
inductive CountOp where
  | incr (node : NodeId) (wall : UInt64) (arg : Option Bytes) (decr : Bool)
  | deliver (node : NodeId) (wall : UInt64) (index : Nat)

namespace CountOp

def node : CountOp → NodeId
  | incr i _ _ _ => i
  | deliver i _ _ => i

def wall : CountOp → UInt64
  | incr _ w _ _ => w
  | deliver _ w _ => w

/-- The sign a command gives to its increment. -/
def signOf (decr : Bool) : Int64 := if decr then -1 else 1

/-- The increment a command asks for, as an integer. -/
def requested (arg : Option Bytes) (decr : Bool) : Option Int :=
  (match arg with
  | none => some 1
  | some text => (parseI64 text).map Int64.toInt).map fun n => if decr then -n else n

/-- Not a DECRBY of the least 64-bit integer, whose negation does not fit. -/
def representable : CountOp → Bool
  | incr _ _ (some text) true => parseI64 text ≠ some Int64.minValue
  | _ => true

end CountOp

/-- The key on all nodes. -/
structure CountSys where
  clock : NodeId → UInt64
  stored : NodeId → Option Bytes
  /-- every record stored so far -/
  sent : List Bytes
  /-- the records each node has merged -/
  merged : NodeId → List Bytes
  /-- the accepted increments, as applied -/
  hist : List (Dot × Int64)
  /-- the accepted increments, as asked for -/
  requests : List Int
  /-- every increment of a text was stamped above it -/
  raised : Bool

namespace CountSys

/-- The nodes hold the text, or nothing; the clocks are where they are. -/
def init (nodes : Finset NodeId) (start : Option StartText) (clock : NodeId → UInt64) : CountSys where
  clock := clock
  stored i := if i ∈ nodes then start.map StartText.bytes else none
  sent := (start.map StartText.bytes).toList
  merged i := if i ∈ nodes then (start.map StartText.bytes).toList else []
  hist := []
  requests := []
  raised := true

/-- A version takes the place of what is stored, where that is no counter. -/
def outranks (stored : Option Bytes) (v : Version) : Bool :=
  match stored with
  | none => 0 < v.hlc
  | some b => (counterOf b).isSome || versionOf b < v

/-- An increment that was accepted under the reading `clk`. -/
def accept (s : CountSys) (i : NodeId) (clk : UInt64) (delta : Int64) (request : Int) (b : Bytes) : CountSys where
  clock := Function.update s.clock i clk
  stored := Function.update s.stored i (some b)
  sent := b :: s.sent
  merged := Function.update s.merged i (b :: s.merged i)
  hist := (⟨clk, i⟩, delta) :: s.hist
  requests := request :: s.requests
  raised := s.raised && outranks (s.stored i) ⟨clk, i⟩

/-- A record merged on a node, whose clock is at `clk` after it. -/
def receive (s : CountSys) (i : NodeId) (clk : UInt64) (b : Bytes) : CountSys :=
  { s with
    clock := Function.update s.clock i clk
    stored := Function.update s.stored i (some (writeMerged (s.stored i) b))
    sent := writeMerged (s.stored i) b :: s.sent
    merged := Function.update s.merged i (b :: s.merged i) }

/-- One step: a refused increment and a delivery of a record that does not exist change nothing. -/
def step (s : CountSys) : CountOp → CountSys
  | .incr i wall arg decr =>
    match incrDelta arg (CountOp.signOf decr), CountOp.requested arg decr with
    | some delta, some request =>
      match incrBy (s.stored i) (Hlc.now (s.clock i) wall) i delta wall with
      | .error _ => s
      | .ok (_, b) => s.accept i (Hlc.now (s.clock i) wall) delta request b
    | _, _ => s
  | .deliver i wall index =>
    match s.sent[index]? with
    | none => s
    | some b => s.receive i (Hlc.observe (s.clock i) wall (versionOf b).hlc) b

/-- The state after a sequence of steps. -/
def run (nodes : Finset NodeId) (start : Option StartText) (clock : NodeId → UInt64) (ops : List CountOp) : CountSys :=
  ops.foldl step (init nodes start clock)

/-- Every node has merged the present record of every other node. -/
def Settled (s : CountSys) (nodes : Finset NodeId) : Prop :=
  ∀ i ∈ nodes, ∀ j ∈ nodes, i ≠ j → ∀ b, s.stored j = some b → b ∈ s.merged i

end CountSys

end Marekvs
