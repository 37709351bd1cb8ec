import Marekvs.Engine.Shard

/-!
# Sorted sets

A member is an element record whose value is the eight bytes of its score. Beside it lies an index record, which no other node
sees, whose key holds the score in an order-preserving form: walks in score order go over the index and read every member they
come to.
-/

namespace Marekvs

open Ikey

/-! ## Scores -/

/-- Zero of either sign. -/
def isZeroScore (bits : UInt64) : Bool := bits &&& 0x7FFFFFFFFFFFFFFF = 0

def isNanScore (bits : UInt64) : Bool := 0x7FF0000000000000 < bits &&& 0x7FFFFFFFFFFFFFFF

/-- Equality of floating-point numbers. -/
def scoreEq (a b : UInt64) : Bool := !isNanScore a && !isNanScore b && (a = b || (isZeroScore a && isZeroScore b))

/-- The form of a score in an index key. -/
def encodeScore (bits : UInt64) : UInt64 :=
  let bits := if isZeroScore bits then 0 else bits
  if bits >>> 63 = 1 then ~~~bits else bits ^^^ ((1 : UInt64) <<< 63)

/-- The order of floating-point numbers, where everything is equal to what is not a number. -/
def scoreCmp (a b : UInt64) : Ordering := if isNanScore a || isNanScore b then .eq else compare (encodeScore a) (encodeScore b)

def Ikey.zsetScoreKey (userkey : Bytes) (enc : UInt64) (member : Bytes) : Bytes :=
  elemKey .zsetScore userkey (Bytes.ofU64 enc ++ member)

/-- The score in an element's payload. -/
def payloadScore (payload : Bytes) : Option UInt64 :=
  (elementValue payload).bind fun val => if val.length = 8 then some (Bytes.toU64 val) else none

/-- The score in a member's record, seen or not. -/
def scoreFromRecord (value : Bytes) : Option UInt64 := (Envelope.decode value).bind fun p => payloadScore p.2

namespace ShardCtx

variable (ctx : ShardCtx)

def zsetDelHlc (key : Bytes) : Option UInt64 := ctx.checkType key .zset

def memberScore (key member : Bytes) (del : UInt64) : Option UInt64 :=
  (ctx.readLww (zsetMemberKey key member) del).bind fun p => payloadScore p.2

/-- Write an index record; a cursor beyond it goes back to it. -/
def putIndex (idxKey : Bytes) : ShardCtx :=
  let ctx := ctx.putRaw idxKey []
  match parse idxKey with
  | none => ctx
  | some p => ctx.popHintOnInsert (collectionPrefix .zsetScore p.userkey) idxKey

/-- Whether the score under the key before and after a write is the same, where there is none included. -/
def sameScore : Option UInt64 → Option UInt64 → Bool
  | none, none => true
  | some a, some b => scoreEq a b
  | _, _ => false

/-- Merge a member's record and move its index record with its score. -/
def applyMemberRecord (userkey member incoming : Bytes) : ShardCtx :=
  let mk := zsetMemberKey userkey member
  let oldScore := (ctx.getRaw mk).bind scoreFromRecord
  let ctx := ctx.writeMerged mk incoming
  let newScore := (ctx.getRaw mk).bind scoreFromRecord
  if sameScore oldScore newScore then ctx
  else
    let ctx := match oldScore with
      | some s => ctx.delRaw (zsetScoreKey userkey (encodeScore s) member)
      | none => ctx
    match newScore with
    | some s => ctx.putIndex (zsetScoreKey userkey (encodeScore s) member)
    | none => ctx

def writeMember (key member : Bytes) (score : UInt64) : ShardCtx :=
  ctx.tick.applyMemberRecord key member (elementAdd .zsetMember ctx.hlcNow ctx.nodeId (Bytes.ofU64 score))

/-- Remove what is visible of a member, with its index record; nothing where it is not there. -/
def removeMember (key member : Bytes) (del : UInt64) : Option ShardCtx :=
  let mk := zsetMemberKey key member
  match ctx.getRaw mk with
  | none => none
  | some v =>
    (removal .zsetMember (some v) ctx.hlcNow ctx.nodeId del ctx.nowMs).map fun rm =>
      let removed := ctx.tick.writeMerged mk rm
      match scoreFromRecord v with
      | some s => removed.delRaw (zsetScoreKey key (encodeScore s) member)
      | none => removed

/-! ## Walks over the index -/

/-- What an index record stands for, if the member's record agrees. -/
def indexEntry (key : Bytes) (del : UInt64) (e : Bytes × Bytes) : Option (UInt64 × Bytes) :=
  match parse e.1 with
  | none => none
  | some p =>
    if p.suffix.length < 8 then none
    else
      match ctx.memberScore key (p.suffix.drop 8) del with
      | none => none
      | some sc => if encodeScore sc = Bytes.toU64 (p.suffix.take 8) then some (sc, p.suffix.drop 8) else none

/-- The visible members in index order. -/
def scoredMembers (key : Bytes) (del : UInt64) : List (UInt64 × Bytes) :=
  (ctx.db.scanPrefix (collectionPrefix .zsetScore key)).filterMap (ctx.indexEntry key del)

/-- At most `limit` of them. -/
def scoredMembersLimited (key : Bytes) (del : UInt64) (limit : Nat) : List (UInt64 × Bytes) :=
  (ctx.scoredMembers key del).take limit

/-- The walk of a pop: what it found, and the last key it looked at. The limit is asked for after every record. -/
def popWalk (ctx : ShardCtx) (key : Bytes) (del : UInt64) (limit : Nat) :
    List (Bytes × Bytes) → List (UInt64 × Bytes) → Option Bytes → List (UInt64 × Bytes) × Option Bytes
  | [], out, last => (out, last)
  | e :: rest, out, _ =>
    let out := out ++ (ctx.indexEntry key del e).toList
    if out.length < limit then popWalk ctx key del limit rest out (some e.1) else (out, some e.1)

/-- The cursor after a walk. -/
def notePop (pre : Bytes) (found : List (UInt64 × Bytes)) (last : Option Bytes) : ShardCtx :=
  if found = [] then ctx.setPopHintEmpty pre
  else
    match last with
    | some k => ctx.setPopHint pre k
    | none => ctx

/-- The members that a pop from the low end takes: from the cursor on, or from the beginning where that finds nothing. -/
def popScoredCandidates (key : Bytes) (del : UInt64) (limit : Nat) : ShardCtx × List (UInt64 × Bytes) :=
  let pre := collectionPrefix .zsetScore key
  match ctx.getPopHint pre with
  | some .empty => (ctx, [])
  | some (.at hint) =>
    let (out, last) := ctx.popWalk key del limit (ctx.scanFrom hint pre) [] none
    if out = [] then
      let (out, last) := ctx.popWalk key del limit (ctx.db.scanPrefix pre) [] last
      ((ctx.clearPopHint pre).notePop pre out last, out)
    else (ctx.notePop pre out last, out)
  | none =>
    let (out, last) := ctx.popWalk key del limit (ctx.db.scanPrefix pre) [] none
    (ctx.notePop pre out last, out)

/-- The `n` last items, the last one first: a window of `n` that every item is pushed through. -/
def lastFirst {α : Type} (n : Nat) (items : List α) : List α := (items.drop (items.length - n)).reverse

/-- Remove members, and keep those that were there. -/
def removeVictims (key : Bytes) (del : UInt64) (ctx : ShardCtx) (victims : List (UInt64 × Bytes)) :
    ShardCtx × List (UInt64 × Bytes) :=
  victims.foldl (fun s v => match s.1.removeMember key v.2 del with
    | some ctx => (ctx, s.2 ++ [v])
    | none => s) (ctx, [])

/-- Replace a key by a sorted set of the given members. -/
def storeMembers (dst : Bytes) (rows : List (UInt64 × Bytes)) : ShardCtx :=
  let ctx := ctx.delKey dst
  let ctx := if rows = [] then ctx else ctx.ensureHead dst .zset
  rows.foldl (fun ctx r => ctx.writeMember dst r.2 r.1) ctx

end ShardCtx

end Marekvs
