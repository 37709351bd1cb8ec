import Marekvs.Core.StringRecord

/-!
# Nodes that write and exchange one string key

A run of SET, DEL, INCR and EXPIRE on one string key, with arbitrary clock readings and wall clocks. Any record that was ever
stored on some node can reach any node, any number of times and in any order. For each node the run keeps the records it has
merged.
-/

namespace Marekvs

/-- One step of a run. -/
inductive StringOp where
  | set (node : NodeId) (hlc : UInt64) (value : Bytes) (ttl : UInt64)
  | del (node : NodeId) (hlc now : UInt64)
  | incr (node : NodeId) (hlc : UInt64) (delta : Int64) (now : UInt64)
  | expire (node : NodeId) (hlc deadline now : UInt64)
  | deliver (node : NodeId) (index : Nat)

def versionOf (b : Bytes) : Version := ((Envelope.decode b).map fun p => p.1.version).getD ⟨0, 0⟩

/-- The counter in a stored record. -/
def counterOf (b : Bytes) : Option CounterState :=
  (Envelope.decode b).bind fun p =>
    if p.1.rtype = .counter ∧ p.1.isTombstone = false then CounterState.decode p.2 else none

/-- The key on all nodes. -/
structure StringSys where
  stored : NodeId → Option Bytes
  /-- every record stored so far -/
  sent : List Bytes
  /-- the records each node has merged -/
  merged : NodeId → List Bytes
  /-- the versions that commands stamped on what they wrote -/
  stamps : List Version
  /-- every SET so far was stamped above the version stored on its node -/
  fresh : Bool

namespace StringSys

def init : StringSys := ⟨fun _ => none, [], fun _ => [], [], true⟩

/-- A command on node `i`, stamped `v`, has stored `b`. -/
def write (s : StringSys) (i : NodeId) (v : Version) (b : Bytes) : StringSys where
  stored := Function.update s.stored i (some b)
  sent := b :: s.sent
  merged := Function.update s.merged i (b :: s.merged i)
  stamps := v :: s.stamps
  fresh := s.fresh

/-- Node `i` has received `b`. -/
def receive (s : StringSys) (i : NodeId) (b : Bytes) : StringSys where
  stored := Function.update s.stored i (some (writeMerged (s.stored i) b))
  sent := writeMerged (s.stored i) b :: s.sent
  merged := Function.update s.merged i (b :: s.merged i)
  stamps := s.stamps
  fresh := s.fresh

/-- What is stored on the node is older than `v`. -/
def olderThan (stored : Option Bytes) (v : Version) : Bool :=
  match stored with
  | none => true
  | some b => versionOf b < v

/-- One step: a command that writes nothing and a delivery of a record that does not exist change nothing. -/
def step (s : StringSys) : StringOp → StringSys
  | .set i hlc value ttl =>
    { s.write i ⟨hlc, i⟩ (writeString hlc i value ttl) with fresh := s.fresh && olderThan (s.stored i) ⟨hlc, i⟩ }
  | .del i hlc now =>
    match delString (s.stored i) hlc i now with
    | none => s
    | some b => s.write i ⟨hlc, i⟩ b
  | .incr i hlc delta now =>
    match incrBy (s.stored i) hlc i delta now with
    | .error _ => s
    | .ok (_, b) => s.write i ⟨hlc, i⟩ b
  | .expire i hlc deadline now =>
    match setDeadline (s.stored i) hlc i deadline now with
    | none => s
    | some b => s.write i ⟨hlc, i⟩ b
  | .deliver i index =>
    match s.sent[index]? with
    | none => s
    | some b => s.receive i b

/-- The state after a sequence of steps. -/
def run (ops : List StringOp) : StringSys := ops.foldl step init

end StringSys

end Marekvs
