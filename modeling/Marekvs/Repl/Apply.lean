import Marekvs.Engine.Keyspace
import Marekvs.Engine.StringRun
import Marekvs.Repl.AntiEntropy

/-!
# String keys of one node, with its clock

The process starts, and starts again, with a clock read off the wall; SET and MSET put records blindly; a replicated record is
observed by the clock first and merged by its shard some time later. The clock is shared by all shards, so it also moves between
the two. The wall clock may go anywhere. Records under other tags change no string key and are not followed.
-/

namespace Marekvs

/-- A running node. -/
structure Node where
  id : NodeId
  clock : UInt64
  db : Db
  /-- batches that the clock has observed and that wait for their shard -/
  inbox : List (Pid × List ReplOp)

/-- One step of a node. -/
inductive NodeOp where
  /-- the process starts again on its data -/
  | restart (wall : UInt64)
  /-- a reading of the clock by another shard -/
  | tick (wall : UInt64)
  | writeString (userkey value : Bytes) (ttl wall : UInt64)
  /-- the part of an MSET that falls on one shard: keys and values, each with the wall clock its stamp sees -/
  | mset (items : List (Bytes × Bytes × UInt64))
  | applyOpFrom (op : ReplOp) (wall : UInt64)
  | applyOpsBatch (pid : Pid) (ops : List (ReplOp × UInt64))
  /-- the shard takes up a waiting batch -/
  | runShard (index : Nat)

namespace Node

/-- A node that has just started on an empty directory. -/
def boot (id : NodeId) (wall : UInt64) : Node := ⟨id, Hlc.new wall, ∅, []⟩

/-- The clock observes the stamp of a record, where it decodes. -/
def observeRecord (clock wall : UInt64) (value : Bytes) : UInt64 :=
  match Envelope.decode value with
  | none => clock
  | some (env, _) => Hlc.observe clock wall env.hlc

/-- The records of an MSET, stamped in order. -/
def stampAll (id : NodeId) : UInt64 → List (Bytes × Bytes × UInt64) → List (Bytes × Bytes)
  | _, [] => []
  | clock, (userkey, value, wall) :: items =>
    (Ikey.stringKey userkey, newLww .string (Hlc.now clock wall) id value 0) :: stampAll id (Hlc.now clock wall) items

/-- The clock after an MSET. -/
def clockAfter (clock : UInt64) (items : List (Bytes × Bytes × UInt64)) : UInt64 :=
  items.foldl (fun clock item => Hlc.now clock item.2.2) clock

/-- Blind puts in one transaction. -/
def putManyLww (db : Db) (items : List (Bytes × Bytes)) : Db := items.foldl (fun db item => db.putRaw item.1 item.2) db

/-- The shard merges one record of a batch; a record of another partition is skipped. -/
def applyRecord (pid : Pid) (db : Db) (op : ReplOp) : Db :=
  match Ikey.parse op.ikey with
  | some ⟨p, .string, _, _⟩ => if p ≠ pid then db else db.writeMerged op.ikey op.value
  | _ => db

/-- The puts a step makes without reading. -/
def blindWrites (n : Node) : NodeOp → List (Bytes × Bytes)
  | .writeString userkey value ttl wall =>
    [(Ikey.stringKey userkey, Marekvs.writeString (Hlc.now n.clock wall) n.id value ttl)]
  | .mset items => stampAll n.id n.clock items
  | _ => []

def step (n : Node) : NodeOp → Node
  | .restart wall => { n with clock := Hlc.new wall, inbox := [] }
  | .tick wall => { n with clock := Hlc.now n.clock wall }
  | .writeString userkey value ttl wall =>
    { n with
      clock := Hlc.now n.clock wall
      db := n.db.putRaw (Ikey.stringKey userkey) (Marekvs.writeString (Hlc.now n.clock wall) n.id value ttl) }
  | .mset items => { n with clock := clockAfter n.clock items, db := putManyLww n.db (stampAll n.id n.clock items) }
  | .applyOpFrom op wall =>
    match Ikey.parse op.ikey with
    | none => n
    | some p =>
      if PARTITIONS ≤ p.pid then n
      else { n with clock := observeRecord n.clock wall op.value, inbox := n.inbox ++ [(p.pid, [op])] }
  | .applyOpsBatch pid ops =>
    if ops = [] then n
    else
      { n with
        clock := ops.foldl (fun clock op => observeRecord clock op.2 op.1.value) n.clock
        inbox := n.inbox ++ [(pid, ops.map Prod.fst)] }
  | .runShard index =>
    match n.inbox[index]? with
    | none => n
    | some (pid, ops) => { n with db := ops.foldl (applyRecord pid) n.db, inbox := n.inbox.eraseIdx index }

/-- The node after a sequence of steps. -/
def run (id : NodeId) (wall : UInt64) (ops : List NodeOp) : Node := ops.foldl step (boot id wall)

/-- The version of what is stored under a string key. -/
def versionAt (n : Node) (ikey : Bytes) : Version := ((n.db.getRaw ikey).map versionOf).getD ⟨0, 0⟩

end Node

end Marekvs
