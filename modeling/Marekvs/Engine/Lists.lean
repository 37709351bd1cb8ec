import Marekvs.Engine.Shard

/-!
# Lists

A list is a collection of last-writer-wins records, one for each position. Where the list begins and ends is kept as a hint beside
the pop cursors: where it is missing, or the record at the head it names is gone, all records of the list are read.
-/

namespace Marekvs

/-- What is known about the ends of a list. -/
inductive ListHint where
  | empty
  | known (head tail : UInt64)
  | unknown
  deriving DecidableEq, Repr

/-- The position in an element's suffix. -/
def listPos (suffix : Bytes) : Option UInt64 := if 8 ≤ suffix.length then some (Bytes.toU64 (suffix.take 8)) else none

namespace ShardCtx

/-- What the keys of a list's elements start with; its hint lies under it too. -/
def hintKey (key : Bytes) : Bytes := Ikey.collectionPrefix .listElem key

variable (ctx : ShardCtx)

def getHint (key : Bytes) : ListHint :=
  match ctx.popHints[hintKey key]? with
  | none => .unknown
  | some v =>
    if v = [] then .empty
    else if 16 ≤ v.length then .known (Bytes.toU64 (v.take 8)) (Bytes.toU64 ((v.drop 8).take 8))
    else .unknown

def setKnown (key : Bytes) (headPos tailPos : UInt64) : ShardCtx :=
  { ctx with popHints := ctx.popHints.insert (hintKey key) (Bytes.ofU64 headPos ++ Bytes.ofU64 tailPos) }

def setEmpty (key : Bytes) : ShardCtx := { ctx with popHints := ctx.popHints.insert (hintKey key) [] }

/-- The visible value at a position. -/
def readElem (key : Bytes) (pos del : UInt64) : Option Bytes :=
  (ctx.readLww (Ikey.listElemKey key pos) del).map Prod.snd

def tombstoneElem (key : Bytes) (pos : UInt64) : ShardCtx :=
  ctx.tick.writeMerged (Ikey.listElemKey key pos) ((Envelope.tombstone .list ctx.hlcNow ctx.nodeId).encodeWith [])

/-- The position and the value of a record that a walk over a list takes for one of its elements. -/
def livePair (del : UInt64) (e : Bytes × Bytes) : Option (UInt64 × Bytes) :=
  match Ikey.parse e.1, Envelope.decode e.2 with
  | some p, some (env, payload) => if visible env del ctx.nowMs then (listPos p.suffix).map fun pos => (pos, payload) else none
  | _, _ => none

/-- The visible elements in list order. -/
def livePairs (key : Bytes) (del : UInt64) : List (UInt64 × Bytes) :=
  (ctx.db.scanPrefix (hintKey key)).filterMap (ctx.livePair del)

/-- The first and the last visible position. -/
def scanMinmax (key : Bytes) (del : UInt64) : Option (UInt64 × UInt64) :=
  match (ctx.livePairs key del).head?, (ctx.livePairs key del).getLast? with
  | some first, some last => some (first.1, last.1)
  | _, _ => none

/-- Read all records of the list for its ends. -/
def recover (key : Bytes) (del : UInt64) : ShardCtx × Option (UInt64 × UInt64) :=
  match ctx.scanMinmax key del with
  | some (h, t) => (ctx.setKnown key h t, some (h, t))
  | none => (ctx.setEmpty key, none)

/-- The ends of the list; none where it is empty. A hint is believed if the record at the head is visible. -/
def listRange (key : Bytes) (del : UInt64) : ShardCtx × Option (UInt64 × UInt64) :=
  match ctx.getHint key with
  | .empty => (ctx, none)
  | .known h t => if (ctx.readElem key h del).isSome then (ctx, some (h, t)) else ctx.recover key del
  | .unknown => ctx.recover key del

/-- The first visible element at `start` or after it. -/
def findFront (key : Bytes) (start del : UInt64) : Option (UInt64 × Bytes) :=
  match ctx.readElem key start del with
  | some val => some (start, val)
  | none => (ctx.scanFrom (Ikey.listElemKey key start) (hintKey key)).findSome? (ctx.livePair del)

/-- The last visible element, which is looked for at `tail` first. -/
def findBack (key : Bytes) (tail del : UInt64) : Option (UInt64 × Bytes) :=
  match ctx.readElem key tail del with
  | some val => some (tail, val)
  | none => (ctx.livePairs key del).getLast?

/-- Take one element from the front or from the back. -/
def doPop (key : Bytes) (left : Bool) (del : UInt64) : ShardCtx × Option Bytes :=
  match ctx.listRange key del with
  | (ctx, none) => (ctx, none)
  | (ctx, some (h, t)) =>
    if left then
      match ctx.findFront key h del with
      | none => (ctx, none)
      | some (pos, val) =>
        let ctx := ctx.tombstoneElem key pos
        (if t ≤ pos then ctx.setEmpty key else ctx.setKnown key (pos + 1) t, some val)
    else
      match ctx.findBack key t del with
      | none => (ctx, none)
      | some (pos, val) =>
        let ctx := ctx.tombstoneElem key pos
        (if pos ≤ h then ctx.setEmpty key else ctx.setKnown key h (pos - 1), some val)

/-- Take at most `n` elements, until there is none. -/
def popMany (key : Bytes) (left : Bool) (del : UInt64) : Nat → ShardCtx → ShardCtx × List Bytes
  | 0, ctx => (ctx, [])
  | n + 1, ctx =>
    match ctx.doPop key left del with
    | (ctx, none) => (ctx, [])
    | (ctx, some v) =>
      let (ctx, values) := popMany key left del n ctx
      (ctx, v :: values)

end ShardCtx

end Marekvs
