import Marekvs.Engine.Keyspace

/-!
# A shard's context

What the job of a command has in hand: the records, the cursors of the commands that pop from a collection, the clock and the
node's id. The wall clock does not move within a job. The cursors of different keys lie under different prefixes, so that one map
stands for the maps of all shards.
-/

namespace Marekvs

/-- The context of a shard's jobs. -/
structure ShardCtx where
  db : Db
  /-- for a collection's prefix, the internal key to go on from, or nothing where the collection is known to be drained -/
  popHints : Std.ExtTreeMap Bytes Bytes
  nodeId : NodeId
  clock : UInt64
  nowMs : UInt64

namespace ShardCtx

variable (ctx : ShardCtx)

/-- The clock's next reading. -/
def hlcNow : UInt64 := Hlc.now ctx.clock ctx.nowMs

/-- The context after the clock was read. -/
def tick : ShardCtx := { ctx with clock := ctx.hlcNow }

def getRaw (ctx : ShardCtx) (ikey : Bytes) : Option Bytes := ctx.db.getRaw ikey

def putRaw (ctx : ShardCtx) (ikey value : Bytes) : ShardCtx := { ctx with db := ctx.db.putRaw ikey value }

def delRaw (ikey : Bytes) : ShardCtx := { ctx with db := ctx.db.erase ikey }

/-- The records from `start` on, as long as their keys start with `pre`. -/
def scanFrom (start pre : Bytes) : List (Bytes × Bytes) :=
  (ctx.db.toList.dropWhile fun e => compare e.1 start = .lt).takeWhile fun e => pre.isPrefixOf e.1

/-! ## Pop cursors -/

inductive PopHint where
  /-- resume at this internal key -/
  | at (ikey : Bytes)
  /-- known to be drained -/
  | empty
  deriving DecidableEq, Repr

def getPopHint (pre : Bytes) : Option PopHint :=
  ctx.popHints[pre]?.map fun v => if v = [] then .empty else .at v

def setPopHint (pre lastKey : Bytes) : ShardCtx := { ctx with popHints := ctx.popHints.insert pre lastKey }

def setPopHintEmpty (pre : Bytes) : ShardCtx := { ctx with popHints := ctx.popHints.insert pre [] }

def clearPopHint (pre : Bytes) : ShardCtx := { ctx with popHints := ctx.popHints.erase pre }

/-- An element was written: a cursor beyond it goes back to it, and so does a drained one. -/
def popHintOnInsert (pre elementKey : Bytes) : ShardCtx :=
  match ctx.popHints[pre]? with
  | none => ctx
  | some hint => if hint = [] ∨ compare elementKey hint = .lt then ctx.setPopHint pre elementKey else ctx

/-! ## Writing -/

/-- Whether a merge changes what is stored under the key. -/
def writeChanges (ikey incoming : Bytes) : Bool :=
  match ctx.getRaw ikey with
  | none => true
  | some localRec => mergeAt ikey localRec incoming ≠ .keepLocal

/-- The cursor of a set after a record for one of its members was written. -/
def noteMember (ikey incoming : Bytes) : ShardCtx :=
  match Ikey.parse ikey, Envelope.decode incoming with
  | some p, some (env, _) =>
    if p.tag = .setMember ∧ !env.isTombstone then ctx.popHintOnInsert (Ikey.collectionPrefix .setMember p.userkey) ikey else ctx
  | _, _ => ctx

/-- Merge `incoming` into whatever is stored under the key. -/
def writeMerged (ctx : ShardCtx) (ikey incoming : Bytes) : ShardCtx :=
  if ctx.writeChanges ikey incoming then
    noteMember { ctx with db := ctx.db.writeMerged ikey incoming } ikey incoming
  else ctx

/-- Write a last-writer-wins record through the merge. -/
def writeLww (ikey : Bytes) (t : RecordType) (payload : Bytes) (ttl : UInt64) : ShardCtx :=
  ctx.tick.writeMerged ikey (newLww t ctx.hlcNow ctx.nodeId payload ttl)

/-- The visible record under a key. -/
def readLww (ctx : ShardCtx) (ikey : Bytes) (delHlc : UInt64) : Option (Envelope × Bytes) :=
  Marekvs.readLww (ctx.getRaw ikey) delHlc ctx.nowMs

/-! ## Heads and types -/

/-- The type gate of the collection commands. -/
def checkType (ctx : ShardCtx) (userkey : Bytes) (want : Ctype) : Option UInt64 := ctx.db.checkType userkey want ctx.nowMs

/-- Whether a string may be read or written at a key. -/
def checkString (userkey : Bytes) : Bool :=
  !((ctx.db.getHead userkey).any (fun h => h.1.isLive ctx.nowMs) || ctx.db.recordLive (Ikey.listKey userkey) ctx.nowMs)

/-- Make sure that the key has a live head of the type. -/
def ensureHead (ctx : ShardCtx) (userkey : Bytes) (ctype : Ctype) : ShardCtx :=
  match ctx.db.getHead userkey with
  | some (env, t, _) =>
    if t = ctype.toByte ∧ env.isLive ctx.nowMs then ctx
    else { ctx.tick with db := (ctx.db.ensureHead userkey ctype ctx.hlcNow ctx.nodeId ctx.nowMs).1 }
  | none => { ctx.tick with db := (ctx.db.ensureHead userkey ctype ctx.hlcNow ctx.nodeId ctx.nowMs).1 }

/-- DEL of one key. -/
def delKey (ctx : ShardCtx) (userkey : Bytes) : ShardCtx :=
  match ctx.db.delKey userkey ctx.hlcNow ctx.nodeId ctx.nowMs with
  | none => ctx
  | some db => { ctx.tick with db := db }

end ShardCtx

end Marekvs
