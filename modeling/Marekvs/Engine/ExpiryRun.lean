import Marekvs.Engine.HeadRecord

/-!
# An expired collection on one node

What happens to a collection after its deadline: the sweeper visits records, in any order and any number of times, the storage
drops records whose TTL has passed, and commands create the key again: as a collection of some type with some elements, as a
string, or as what RENAME or COPY brings from another key. Reads change nothing.
-/

namespace Marekvs

/-- One step after the deadline. -/
inductive ExpiryOp where
  /-- the sweeper visits the record under a key -/
  | sweep (ikey : Bytes) (now : UInt64)
  /-- a command creates a head where there is no live one, and writes elements: suffix and record of each -/
  | create (ctype : Ctype) (hlc : UInt64) (elements : List (Bytes × Bytes)) (now : UInt64)
  /-- plain SET, which asks for no type -/
  | set (value : Bytes) (hlc ttl now : UInt64)
  /-- RENAME or COPY of another key to this one; COPY has looked before whether the key is there -/
  | move (replace : Bool) (hlc : UInt64) (records : List Db.KeyRecord) (now : UInt64)
  /-- the storage drops the record under a key -/
  | purge (ikey : Bytes) (now : UInt64)

namespace ExpiryOp

/-- The wall clock of a step. -/
def now : ExpiryOp → UInt64
  | sweep _ now => now
  | create _ _ _ now => now
  | set _ _ _ now => now
  | move _ _ _ now => now
  | purge _ now => now

end ExpiryOp

namespace Db

/-- The type gate of the string commands other than plain SET: a live head or list record refuses them. -/
def checkString (db : Db) (userkey : Bytes) (now : UInt64) : Bool :=
  !(db.getHead userkey).any (fun h => h.1.isLive now) && !db.recordLive (Ikey.listKey userkey) now

/-- Write elements of a collection through the merge. -/
def writeElements (db : Db) (userkey : Bytes) (ctype : Ctype) (elements : List (Bytes × Bytes)) : Db :=
  match ctype.tag with
  | none => db
  | some tag => elements.foldl (fun db e => db.writeMerged (Ikey.elemKey tag userkey e.1) e.2) db

/-- One step on node `node`. A command that is refused changes nothing. -/
def expiryStep (key : Bytes) (node : NodeId) (db : Db) : ExpiryOp → Db
  | .sweep ikey now => db.sweepRecord ikey now
  | .create ctype hlc elements now =>
    match db.checkType key ctype now with
    | none => db
    | some _ => (db.ensureHead key ctype hlc node now).1.writeElements key ctype elements
  | .set value hlc ttl _ => db.putRaw (Ikey.stringKey key) (writeString hlc node value ttl)
  | .move replace hlc records now =>
    let (db, clobber) := db.clobber key replace hlc node now
    db.moveTo key node clobber records
  | .purge ikey _ => db.purge ikey

/-- The element under a suffix, as a command of type `want` sees it. -/
def visibleElement (db : Db) (key : Bytes) (want : Ctype) (tag : Tag) (suffix : Bytes) (now : UInt64) : Option Envelope :=
  match db.checkType key want now with
  | none => none
  | some del => (readLww (db.getRaw (Ikey.elemKey tag key suffix)) del now).map Prod.fst

def expiryRun (key : Bytes) (node : NodeId) (db : Db) (ops : List ExpiryOp) : Db := ops.foldl (expiryStep key node) db

end Db

end Marekvs
