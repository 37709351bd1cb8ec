import Marekvs.Core.Keys
import Marekvs.Engine.Strings
import Marekvs.Engine.Element

/-!
# The keyspace of a node

The store of a node is an ordered map from internal keys to values. A user key is a string, a retired list record, or a
collection: a head, which holds the type and the delete clock, and one record for each element. What type a key has, which clock
hides its elements, and how a head is created, deleted and given a deadline is decided here.
-/

namespace Marekvs

open Ikey

/-- The records of a node, in key order. -/
abbrev Db : Type := Std.ExtTreeMap Bytes Bytes

namespace Db

def getRaw (db : Db) (ikey : Bytes) : Option Bytes := db[ikey]?

def putRaw (db : Db) (ikey value : Bytes) : Db := db.insert ikey value

/-- Merge `incoming` into whatever is stored under the key. -/
def writeMerged (db : Db) (ikey incoming : Bytes) : Db := db.insert ikey (writeMergedAt ikey (db.getRaw ikey) incoming)

/-- The records whose keys start with `start`, in key order. -/
def scanPrefix (db : Db) (start : Bytes) : List (Bytes × Bytes) := db.toList.filter fun e => start.isPrefixOf e.1

@[simp] theorem getRaw_putRaw_self (db : Db) (k v : Bytes) : (db.putRaw k v).getRaw k = some v := by
  simp [getRaw, putRaw]

theorem getRaw_putRaw_of_ne (db : Db) (h : k ≠ k') (v : Bytes) : (db.putRaw k v).getRaw k' = db.getRaw k' := by
  simp [getRaw, putRaw, Std.ExtTreeMap.getElem?_insert, h]

@[simp] theorem getRaw_writeMerged_self (db : Db) (k v : Bytes) :
    (db.writeMerged k v).getRaw k = some (writeMergedAt k (db.getRaw k) v) := getRaw_putRaw_self db k _

theorem getRaw_writeMerged_of_ne (db : Db) (h : k ≠ k') (v : Bytes) :
    (db.writeMerged k v).getRaw k' = db.getRaw k' := getRaw_putRaw_of_ne db h _

@[simp] theorem getRaw_empty : getRaw ∅ k = none := by simp [getRaw]

theorem mem_toList {db : Db} : (k, v) ∈ db.toList ↔ db.getRaw k = some v :=
  Std.ExtTreeMap.mem_toList_iff_getElem?_eq_some

theorem toList_sorted (db : Db) : db.toList.Pairwise fun a b => compare a.1 b.1 = .lt := Std.ExtTreeMap.ordered_keys_toList

theorem mem_scanPrefix {db : Db} : (k, v) ∈ db.scanPrefix start ↔ db.getRaw k = some v ∧ start <+: k := by
  rw [scanPrefix, List.mem_filter, mem_toList, List.isPrefixOf_iff_prefix]

end Db

/-- The type of a collection. -/
inductive Ctype where
  | hash
  | set
  | zset
  | stream
  | list
  | hll
  | budget
  | json
  | proto
  deriving DecidableEq, Repr

namespace Ctype

def toByte : Ctype → UInt8
  | hash => 1
  | set => 2
  | zset => 3
  | stream => 4
  | list => 5
  | hll => 6
  | budget => 7
  | json => 8
  | proto => 9

def all : List Ctype := [hash, set, zset, stream, list, hll, budget, json, proto]

def ofByte (b : UInt8) : Option Ctype := all.find? fun c => c.toByte = b

@[simp] theorem ofByte_toByte : ofByte c.toByte = some c := by cases c <;> decide

/-- The tag of the records that make the collection non-empty; a budget and a protobuf value exist with their head alone. -/
def tag : Ctype → Option Tag
  | hash => some .hashField
  | set => some .setMember
  | zset => some .zsetMember
  | stream => some .streamEntry
  | list => some .listElem
  | hll => some .hllRegister
  | json => some .json
  | budget => none
  | proto => none

end Ctype

/-- The payload of a head: the type byte, the delete clock and, for some types, a tail. -/
def encodeHead (ctype : UInt8) (delHlc : UInt64) : Bytes := ctype :: Bytes.ofU64 delHlc

def decodeHead (payload : Bytes) : Option (UInt8 × UInt64) :=
  match payload with
  | [] => none
  | ctype :: rest => if rest.length < 8 then none else some (ctype, Bytes.toU64 (rest.take 8))

/-- The delete stamp that stands for an expiry. -/
def Envelope.expiryHlc (e : Envelope) : UInt64 := e.ttlDeadlineMs <<< 16

/-- Neither deleted nor expired. -/
def Envelope.isLive (e : Envelope) (now : UInt64) : Bool := !e.isTombstone && !e.isExpired now

/-- The type a user key shows. -/
inductive KeyType where
  | string
  /-- a retired whole-list record -/
  | blob
  | collection (ctype : Ctype)
  deriving DecidableEq, Repr

/-- The type as the source's byte: DEL leaves it in the head's tombstone. -/
def KeyType.toByte : KeyType → UInt8
  | string => 115
  | blob => 108
  | collection c => c.toByte

namespace Db

variable (db : Db)

/-- The head of a collection: envelope, type byte and delete clock. -/
def getHead (userkey : Bytes) : Option (Envelope × UInt8 × UInt64) :=
  match (db.getRaw (headKey userkey)).bind Envelope.decode with
  | none => none
  | some (env, payload) => (decodeHead payload).map fun h => (env, h.1, h.2)

/-- Whether a stored value decodes to a record that is visible under the delete clock. -/
def visibleRaw (value : Bytes) (delHlc now : UInt64) : Bool :=
  match Envelope.decode value with
  | none => false
  | some (env, _) => visible env delHlc now

def collectionNonempty (ctype : UInt8) (userkey : Bytes) (delHlc now : UInt64) : Bool :=
  match Ctype.ofByte ctype with
  | none => false
  | some c =>
    match c.tag with
    | none => true
    | some tag => (db.scanPrefix (collectionPrefix tag userkey)).any fun e => visibleRaw e.2 delHlc now

/-- The collection that a user key's head shows, if it is live and something of it is visible. -/
def headType (userkey : Bytes) (now : UInt64) : Option KeyType :=
  match db.getHead userkey with
  | none => none
  | some (env, ctype, del) =>
    if env.isLive now && db.collectionNonempty ctype userkey del now then (Ctype.ofByte ctype).map .collection else none

/-- The type of a user key; none where it is absent. -/
def keyType (userkey : Bytes) (now : UInt64) : Option KeyType :=
  if (readLww (db.getRaw (stringKey userkey)) 0 now).isSome then some .string
  else
    match db.headType userkey now with
    | some t => some t
    | none => if (readLww (db.getRaw (listKey userkey)) 0 now).isSome then some .blob else none

/-- The delete clock in force under a head: what it carries, its own stamp if it is a tombstone, its deadline if it has
expired. -/
def headClock (env : Envelope) (del now : UInt64) : UInt64 :=
  let del := if env.isTombstone then max del env.hlc else del
  if env.isExpired now then max del env.expiryHlc else del

/-- The delete clock a key's next head carries on. -/
def getHeadDel (userkey : Bytes) (now : UInt64) : UInt64 :=
  match db.getHead userkey with
  | none => 0
  | some (env, _, del) => headClock env del now

/-- Make sure that the key has a live head of the type; the store afterwards and the delete clock. A new head carries the old
one's clock on. -/
def ensureHead (userkey : Bytes) (ctype : Ctype) (hlc : UInt64) (node : NodeId) (now : UInt64) : Db × UInt64 :=
  let fresh := (db.writeMerged (headKey userkey)
    ((Envelope.head hlc node).encodeWith (encodeHead ctype.toByte (db.getHeadDel userkey now))), db.getHeadDel userkey now)
  match db.getHead userkey with
  | none => fresh
  | some (env, t, del) => if t = ctype.toByte ∧ env.isLive now then (db, del) else fresh

/-- Whether a record is there that is neither deleted nor expired. -/
def recordLive (ikey : Bytes) (now : UInt64) : Bool :=
  match (db.getRaw ikey).bind Envelope.decode with
  | none => false
  | some (env, _) => env.isLive now

/-- The type gate of the collection commands: the delete clock, or nothing where the key holds another type. -/
def checkType (userkey : Bytes) (want : Ctype) (now : UInt64) : Option UInt64 :=
  if db.recordLive (stringKey userkey) now ∨ db.recordLive (listKey userkey) now then none
  else
    match db.getHead userkey with
    | none => some 0
    | some (env, t, del) => if env.isLive now ∧ t ≠ want.toByte then none else some (headClock env del now)

def headTombstone (ctype : UInt8) (hlc : UInt64) (node : NodeId) : Bytes :=
  Envelope.encodeWith ⟨COLLECTION_HEAD ||| TOMBSTONE, hlc, node, 0⟩ (encodeHead ctype hlc)

/-- DEL of one key: the store afterwards and whether something was deleted. -/
def delKey (userkey : Bytes) (hlc : UInt64) (node : NodeId) (now : UInt64) : Option Db :=
  match db.keyType userkey now with
  | none => none
  | some .string => some (db.writeMerged (stringKey userkey) ((Envelope.tombstone .string hlc node).encodeWith []))
  | some t => some (db.writeMerged (headKey userkey) (headTombstone t.toByte hlc node))

/-- A new deadline for a key: its record again under a fresh version. -/
def setKeyDeadline (userkey : Bytes) (hlc : UInt64) (node : NodeId) (deadline now : UInt64) : Option Db :=
  match db.keyType userkey now with
  | none => none
  | some .string =>
    (setDeadline (db.getRaw (stringKey userkey)) hlc node deadline now).map (db.putRaw (stringKey userkey))
  | some t =>
    match db.getHead userkey, (db.getRaw (headKey userkey)).bind Envelope.decode with
    | some (_, ctype, _), some (_, payload) =>
      if ctype = t.toByte then
        some (db.writeMerged (headKey userkey) (((Envelope.head hlc node).withTtl deadline).encodeWith payload))
      else none
    | _, _ => none

/-- Why EXPIRE was refused. -/
inductive ExpireError where
  | budget
  deriving DecidableEq, Repr

def ExpireError.message : ExpireError → String
  | budget => "ERR EXPIRE is not supported for budget keys (use DEL)"

/-- EXPIRE with an absolute deadline: the store afterwards, and whether it did something. A deadline that has passed deletes. -/
def expire (userkey : Bytes) (hlc : UInt64) (node : NodeId) (deadline now : UInt64) : Except ExpireError (Option Db) :=
  if db.keyType userkey now = some (.collection .budget) then .error .budget
  else if deadline ≤ now then .ok (db.delKey userkey hlc node now)
  else .ok (db.setKeyDeadline userkey hlc node deadline now)

/-- SADD of members, each stamped with a reading of its own: the store afterwards, or nothing where the key holds another
type. -/
def sadd (userkey : Bytes) (hlc : UInt64) (node : NodeId) (members : List (Bytes × UInt64)) (now : UInt64) :
    Option Db :=
  (db.checkType userkey .set now).map fun _ =>
    members.foldl (fun db m => db.writeMerged (setMemberKey userkey m.1) (elementAdd .setMember m.2 node []))
      (db.ensureHead userkey .set hlc node now).1

/-- The visible members under a delete clock, in key order. -/
def setMembers (userkey : Bytes) (delHlc now : UInt64) : List Bytes :=
  (db.scanPrefix (collectionPrefix .setMember userkey)).filterMap fun e =>
    match parse e.1 with
    | none => none
    | some p => if memberExists (some e.2) delHlc now then some p.suffix else none

/-- SMEMBERS: the visible members, or nothing where the key holds another type. -/
def smembers (userkey : Bytes) (now : UInt64) : Option (List Bytes) :=
  (db.checkType userkey .set now).map fun del => db.setMembers userkey del now

/-- What the sweeper writes over a record that has expired. -/
def expiryTombstone (env : Envelope) (payload : Bytes) : Bytes :=
  if env.rtype.isOrElement then elementRemove env.rtype env.expiryHlc env.origin (elementDots payload)
  else (Envelope.tombstone env.rtype env.expiryHlc env.origin).encodeWith []

def sweepRecord (ikey : Bytes) (now : UInt64) : Db :=
  match parse ikey, (db.getRaw ikey).bind Envelope.decode with
  | some p, some (env, payload) =>
    if p.tag ≠ .budget ∧ !env.isTombstone ∧ 0 < env.ttlDeadlineMs ∧ env.isExpired now then
      db.writeMerged ikey (expiryTombstone env payload)
    else db
  | _, _ => db

/-- The storage drops a record in the end that was put with a TTL: a tombstone, or a record with a deadline. When that is, and
that the anchors of arrays are kept, is left out. -/
def purge (ikey : Bytes) : Db :=
  match (db.getRaw ikey).bind Envelope.decode with
  | none => db
  | some (env, _) => if env.isTombstone ∨ env.ttlDeadlineMs ≠ 0 then db.erase ikey else db

/-! ## RENAME and COPY -/

/-- The payload of a head with a delete clock that is not below `min`. -/
def shadowHeadDelHlc (payload : Bytes) (min : UInt64) : Bytes :=
  if 9 ≤ payload.length ∧ Bytes.toU64 ((payload.drop 1).take 8) < min then payload.take 1 ++ Bytes.ofU64 min ++ payload.drop 9
  else payload

/-- A record of another key, stamped anew. -/
def restampRecord (value : Bytes) (hlc : UInt64) (node : NodeId) (minHeadDelHlc : UInt64) : Option Bytes :=
  match Envelope.decode value with
  | none => none
  | some (env, payload) =>
    if env.isHead then
      some (((Envelope.head hlc node).withTtl env.ttlDeadlineMs).encodeWith (shadowHeadDelHlc payload minHeadDelHlc))
    else if env.rtype.isOrElement then
      (elementValue payload).map fun val => elementAddTtl env.rtype hlc node val env.ttlDeadlineMs
    else some (newLww env.rtype hlc node payload env.ttlDeadlineMs)

/-- A record that was collected from the source of a move, with the reading it is stamped with. -/
structure KeyRecord where
  tag : Tag
  suffix : Bytes
  value : Bytes
  hlc : UInt64

def rebuildIkey (tag : Tag) (userkey suffix : Bytes) : Bytes :=
  match tag with
  | .string => stringKey userkey
  | .list => listKey userkey
  | .head => headKey userkey
  | tag => elemKey tag userkey suffix

/-- RENAME, and COPY with REPLACE, delete what is there; the clock of that delete. -/
def clobber (userkey : Bytes) (replace : Bool) (hlc : UInt64) (node : NodeId) (now : UInt64) : Db × UInt64 :=
  match if replace then db.delKey userkey hlc node now else none with
  | none => (db, 0)
  | some db => (db, hlc)

/-- Write collected records under a key. -/
def moveTo (userkey : Bytes) (node : NodeId) (clobber : UInt64) (records : List KeyRecord) : Db :=
  records.foldl (fun db r =>
    match restampRecord r.value r.hlc node clobber with
    | none => db
    | some value => db.writeMerged (rebuildIkey r.tag userkey r.suffix) value) db

end Db

end Marekvs
