import Marekvs.Engine.HeadRecord

/-!
# One set key on many nodes

A run of SADD, DEL and EXPIRE on one set key, with arbitrary clock readings and wall clocks. Any head or member record that any
node ever held can reach any node, any number of times and in any order. On each node the sweeper visits records and the storage
drops records whose TTL has passed. For each node the run keeps the deletes whose head record it has merged.
-/

namespace Marekvs

/-- One step of a run. A deadline of EXPIRE is absolute. -/
inductive SetOp where
  | sadd (node : NodeId) (hlc : UInt64) (members : List (Bytes × UInt64)) (now : UInt64)
  | del (node : NodeId) (hlc now : UInt64)
  | expire (node : NodeId) (hlc deadline now : UInt64)
  | deliver (node : NodeId) (index : Nat)
  | sweep (node : NodeId) (ikey : Bytes) (now : UInt64)
  | purge (node : NodeId) (ikey : Bytes)

/-- The key on all nodes. -/
structure SetSys where
  db : NodeId → Db
  /-- every record any node ever held, with its key -/
  sent : List (Bytes × Bytes)
  /-- the versions of the deletes so far -/
  dels : List Version
  /-- the deletes whose head record each node has merged -/
  seen : NodeId → List Version

/-- The delete that a head record stands for. -/
def delOf (b : Bytes) : Option Version :=
  match Envelope.decode b with
  | none => none
  | some (env, _) => if env.isTombstone then some env.version else none

/-- The delete clock that a stored head carries at any time. -/
def headBase (b : Bytes) : UInt64 :=
  match Envelope.decode b with
  | none => 0
  | some (env, payload) =>
    match decodeHead payload with
    | none => 0
    | some (_, del) => if env.isTombstone then max del env.hlc else del

namespace SetSys

def init : SetSys := ⟨fun _ => ∅, [], [], fun _ => []⟩

variable (key : Bytes) (s : SetSys)

/-- Node `i` now holds `db`. -/
def store (i : NodeId) (db : Db) : SetSys :=
  { s with db := Function.update s.db i db, sent := db.toList ++ s.sent }

/-- Node `i` has merged the head record of a delete. -/
def see (i : NodeId) (v : Version) : SetSys := { s with seen := Function.update s.seen i (v :: s.seen i) }

/-- A delete on node `i`, after which it holds `db`. -/
def deleted (i : NodeId) (hlc : UInt64) (db : Db) : SetSys :=
  { (s.store i db).see i ⟨hlc, i⟩ with dels := ⟨hlc, i⟩ :: s.dels }

/-- One step: a command that writes nothing and a delivery of a record that does not exist change nothing. -/
def step : SetOp → SetSys
  | .sadd i hlc members now =>
    match (s.db i).sadd key hlc i members now with
    | none => s
    | some db => s.store i db
  | .del i hlc now =>
    match (s.db i).delKey key hlc i now with
    | none => s
    | some db => s.deleted i hlc db
  | .expire i hlc deadline now =>
    match (s.db i).expire key hlc i deadline now with
    | .error _ => s
    | .ok none => s
    | .ok (some db) => if deadline ≤ now then s.deleted i hlc db else s.store i db
  | .deliver i index =>
    match s.sent[index]? with
    | none => s
    | some (k, b) =>
      let s' := s.store i ((s.db i).writeMerged k b)
      match (if k = Ikey.headKey key then delOf b else none) with
      | none => s'
      | some v => s'.see i v
  | .sweep i ikey now => s.store i ((s.db i).sweepRecord ikey now)
  | .purge i ikey => s.store i ((s.db i).purge ikey)

/-- The state after a sequence of steps. -/
def run (ops : List SetOp) : SetSys := ops.foldl (step key) init

/-- The node knows every delete that is older than the head it is about to stamp `v`. -/
def knowsDeletes (i : NodeId) (v : Version) (now : UInt64) : Prop :=
  ∀ d ∈ s.dels, d ≤ v → d.hlc ≤ (s.db i).getHeadDel key now

/-- A delete stamped `v` is newer than every head so far, those apart that hide as much as it does. -/
def newestHead (v : Version) : Prop :=
  ∀ r ∈ s.sent, r.1 = Ikey.headKey key → v ≤ versionOf r.2 → v.hlc ≤ headBase r.2

/-- What the next step may assume: a SADD that creates a head and an EXPIRE know the older deletes, a delete is newer than the
heads so far, the sweeper spares the head, and the storage does not drop it. -/
def Informed : SetOp → Prop
  | .sadd i hlc _ now =>
    (∀ env t del, (s.db i).getHead key = some (env, t, del) → ¬ (t = Ctype.set.toByte ∧ env.isLive now = true)) →
      s.knowsDeletes key i ⟨hlc, i⟩ now
  | .del i hlc _ => s.newestHead key ⟨hlc, i⟩
  | .expire i hlc deadline now => if deadline ≤ now then s.newestHead key ⟨hlc, i⟩ else s.knowsDeletes key i ⟨hlc, i⟩ now
  | .deliver _ _ => True
  | .sweep i ikey now => (s.db i).SweepSpares key ikey now
  | .purge _ ikey => ikey ≠ Ikey.headKey key

end SetSys

end Marekvs
