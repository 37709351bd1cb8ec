import Marekvs.Engine.StreamWrites

/-!
# Streams on many nodes

A run of XADD on any nodes, with whatever ids it is asked for, at arbitrary wall clocks. Any record that a node holds, entry or
head, can reach any other node at any time, any number of times. The clock of a node starts anywhere and moves with every reading
and every record that reaches it. The run keeps the ids that were given out for `*`.
-/

namespace Marekvs

/-- One step of a run. -/
inductive StreamOp where
  | xadd (node : NodeId) (wall : UInt64) (args : List Bytes)
  /-- the record under a key on one node reaches another -/
  | deliver (source target : NodeId) (wall : UInt64) (ikey : Bytes)

/-- An id that was given out for `*`. -/
structure AutoId where
  node : NodeId
  key : Bytes
  id : StreamId
  deriving DecidableEq, Repr

/-- All nodes. -/
structure StreamSys where
  nodes : NodeId → ShardCtx
  /-- the ids for `*` so far -/
  given : List AutoId

namespace StreamSys

/-- Empty nodes with clocks that start anywhere. -/
def init (clock : NodeId → UInt64) : StreamSys := ⟨fun n => ⟨∅, ∅, n, clock n, 0⟩, []⟩

/-- What a job on a node has in hand. -/
def ctx (s : StreamSys) (n : NodeId) (wall : UInt64) : ShardCtx := { s.nodes n with nodeId := n, nowMs := wall }

/-- Node `n` after a job. -/
def store (s : StreamSys) (n : NodeId) (ctx : ShardCtx) : StreamSys := { s with nodes := Function.update s.nodes n ctx }

/-- A record reaches a node: its stamp moves the clock, and it is merged. -/
def receive (ctx : ShardCtx) (ikey value : Bytes) : ShardCtx :=
  match Envelope.decode value with
  | none => ctx
  | some (env, _) => { ctx with clock := Hlc.observe ctx.clock ctx.nowMs env.hlc }.writeMerged ikey value

def step (s : StreamSys) : StreamOp → StreamSys
  | .xadd n wall args =>
    match parseXadd args with
    | .error _ => s
    | .ok a =>
      match (s.ctx n wall).xadd a with
      | (ctx, .error _) => s.store n ctx
      | (ctx, .ok id) =>
        if a.spec = .auto then { s.store n ctx with given := ⟨n, a.key, id⟩ :: s.given } else s.store n ctx
  | .deliver source target wall ikey =>
    match (s.nodes source).getRaw ikey with
    | none => s
    | some value => s.store target (receive (s.ctx target wall) ikey value)

/-- The state after a sequence of steps. -/
def run (clock : NodeId → UInt64) (ops : List StreamOp) : StreamSys := ops.foldl step (init clock)

end StreamSys

/-- Where the sequence that the node would give out does not come after the last id, the next sequence after that id is still one
of the node's own. -/
def ShardCtx.OwnSequence (ctx : ShardCtx) (key : Bytes) : Prop :=
  ∀ lms ls, ctx.lastId key = some (lms, ls) → ctx.nowMs ≤ lms → ctx.genSeq ≤ ls → (ls + 1) >>> 20 = ctx.nodeId.toUInt64

/-- The condition of a step: an XADD with `*` gives out a sequence of its node. -/
def StreamSys.Own (s : StreamSys) : StreamOp → Prop
  | .xadd n wall args => ∀ a, parseXadd args = .ok a → a.spec = .auto → (s.ctx n wall).OwnSequence a.key
  | .deliver _ _ _ _ => True

end Marekvs
