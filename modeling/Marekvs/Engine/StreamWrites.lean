import Marekvs.Engine.Streams

/-!
# Writing streams

XADD and XDEL, each one job on the key's shard. XADD takes an id, a millisecond for which it finds the sequence, or `*`: then the
millisecond is the wall clock's and the sequence carries the node's id above twenty bits of its clock. An id must come after the
last one known, from the head or from the records; one that was chosen by the node is moved behind it.
-/

namespace Marekvs

open Resp (ascii)

def Ikey.streamEntryKey (userkey : Bytes) (id : StreamId) : Bytes :=
  elemKey .streamEntry userkey (Bytes.ofU64 id.1 ++ Bytes.ofU64 id.2)

namespace StreamMeta

def default : StreamMeta := ⟨(0, 0), 0, (0, 0)⟩

end StreamMeta

def encodeStreamHead (delHlc : UInt64) (m : StreamMeta) : Bytes :=
  encodeHead Ctype.stream.toByte delHlc ++ STREAM_META_MAGIC ++ Bytes.ofU64 m.lastId.1 ++ Bytes.ofU64 m.lastId.2 ++
    Bytes.ofU64 m.entriesAdded ++ Bytes.ofU64 m.maxDeletedId.1 ++ Bytes.ofU64 m.maxDeletedId.2

/-- The greater of two ids. -/
def maxId (a b : StreamId) : StreamId := if a.lt b then b else a

def encodeFields (pairs : List (Bytes × Bytes)) : Bytes :=
  Bytes.putVarint pairs.length ++
    pairs.flatMap fun p => Bytes.putVarint p.1.length ++ p.1 ++ (Bytes.putVarint p.2.length ++ p.2)

/-- The id that XADD is asked for. -/
inductive IdSpec where
  /-- `*` -/
  | auto
  /-- a millisecond -/
  | msAuto (ms : UInt64)
  | explicit (id : StreamId)
  deriving DecidableEq, Repr

/-- A 64-bit number in text. -/
def readWord (text : Bytes) : Option UInt64 := (readU64 text).map fun n => UInt64.ofNat n.toNat

def parseIdSpec (b : Bytes) : Option IdSpec :=
  if b = ascii "*" then some .auto
  else
    match b.dropWhile (· ≠ 45) with
    | [] => (readWord b).map .msAuto
    | _ :: seq =>
      (readWord (b.takeWhile (· ≠ 45))).bind fun ms =>
        if seq = ascii "*" then some (.msAuto ms) else (readWord seq).map fun seq => .explicit (ms, seq)

namespace ShardCtx

variable (ctx : ShardCtx)

def streamHead (key : Bytes) : Option (Envelope × UInt64 × StreamMeta) :=
  match (ctx.getRaw (Ikey.headKey key)).bind Envelope.decode with
  | none => none
  | some (env, payload) =>
    match decodeHead payload with
    | none => none
    | some (ctype, del) => if ctype ≠ Ctype.stream.toByte then none else some (env, del, decodeStreamMeta payload)

def writeStreamHead (key : Bytes) (ttl del : UInt64) (m : StreamMeta) : ShardCtx :=
  ctx.tick.writeMerged (Ikey.headKey key)
    (((Envelope.head ctx.hlcNow ctx.nodeId).withTtl ttl).encodeWith (encodeStreamHead del m))

def tombstoneEntry (key : Bytes) (id : StreamId) : ShardCtx :=
  ctx.tick.writeMerged (Ikey.streamEntryKey key id) ((Envelope.tombstone .streamEntry ctx.hlcNow ctx.nodeId).encodeWith [])

/-- The last id known: from the records and from the head; none where the stream has no history. -/
def lastKnownId (key : Bytes) (m : StreamMeta) : Option StreamId :=
  match ctx.streamLastId key with
  | some scan => some (maxId m.lastId scan)
  | none => if m.lastId ≠ (0, 0) then some m.lastId else none

/-- The last id known before a command runs. -/
def lastId (key : Bytes) : Option StreamId :=
  ctx.lastKnownId key (((ctx.streamHead key).map fun h => h.2.2).getD .default)

def genSeq : UInt64 := (ctx.nodeId.toUInt64 <<< 20) ||| (ctx.hlcNow &&& 0xFFFFF)

/-- The id for `*`: the wall clock's millisecond and the node's sequence, behind the last id. -/
def autoId (last : Option StreamId) : StreamId :=
  match last with
  | none => (ctx.nowMs, ctx.genSeq)
  | some (lms, ls) =>
    let ms := if ctx.nowMs < lms then lms else ctx.nowMs
    (ms, if ms = lms ∧ ctx.genSeq ≤ ls then ls + 1 else ctx.genSeq)

/-- The id that is given out, and the context after it was found. -/
def chooseId (spec : IdSpec) (last : Option StreamId) : ShardCtx × Except Reply StreamId :=
  let tooSmall := ascii "ERR The ID specified in XADD is equal or smaller than the target stream top item"
  match spec with
  | .auto => (ctx.tick, .ok (ctx.autoId last))
  | .msAuto ms =>
    (ctx, match last with
      | none => .ok (ms, 0)
      | some (lms, ls) => if ms < lms then .error (.err tooSmall) else .ok (ms, if lms = ms then ls + 1 else 0))
  | .explicit id =>
    (ctx, if id = (0, 0) then .error (.err (ascii "ERR The ID specified in XADD must be greater than 0-0"))
      else if last.any fun l => !l.lt id then .error (.err tooSmall)
      else .ok id)

/-- Delete the oldest visible entries beyond `maxlen`. -/
def trimMaxlen (key : Bytes) (del : UInt64) (maxlen : Nat) : ShardCtx :=
  let entries := ctx.collectEntries key del
  (entries.take (entries.length - maxlen)).foldl (fun ctx e => ctx.tombstoneEntry key e.1) ctx

def addEntry (key : Bytes) (maxlen : Option Nat) (fields : List (Bytes × Bytes)) (id : StreamId) : ShardCtx :=
  let ctx := ctx.ensureHead key .stream
  let (ctx, ttl, del, m) := match ctx.streamHead key with
    | some (env, del, m) => (ctx, env.ttlDeadlineMs, del, m)
    | none => (ctx.tick, 0, (ctx.tick.checkType key .stream).getD 0, .default)
  let ctx := ctx.writeLww (Ikey.streamEntryKey key id) .streamEntry (encodeFields fields) 0
  let ctx := match maxlen with
    | some n => ctx.trimMaxlen key del n
    | none => ctx
  ctx.writeStreamHead key ttl del { m with lastId := maxId m.lastId id, entriesAdded := m.entriesAdded.satAdd 1 }

end ShardCtx

/-! ## XADD -/

/-- The arguments of XADD. -/
structure XaddArgs where
  key : Bytes
  nomkstream : Bool
  maxlen : Option Nat
  spec : IdSpec
  fields : List (Bytes × Bytes)

/-- The options in front of the id: the id and the fields are what is left. -/
def xaddOpts : List Bytes → Bool → Option Nat → Except Reply (Bool × Option Nat × List Bytes)
  | [], _, _ => .error (.wrongArgs "xadd")
  | word :: rest, nomkstream, maxlen =>
    if eqIgnoreCase word "NOMKSTREAM" then xaddOpts rest true maxlen
    else if eqIgnoreCase word "MAXLEN" then
      match rest with
      | [] => .error .notInt
      | b :: rest =>
        if b = ascii "~" ∨ b = ascii "=" then
          match rest with
          | [] => .error .notInt
          | n :: rest =>
            match readU64 n with
            | none => .error .notInt
            | some n => xaddOpts rest nomkstream (some n.toNat)
        else
          match readU64 b with
          | none => .error .notInt
          | some n => xaddOpts rest nomkstream (some n.toNat)
    else .ok (nomkstream, maxlen, word :: rest)

/-- Fields and values in turn. -/
def pairUp : List Bytes → List (Bytes × Bytes)
  | f :: v :: rest => (f, v) :: pairUp rest
  | _ => []

def parseXadd (args : List Bytes) : Except Reply XaddArgs :=
  match args with
  | _ :: key :: rest =>
    if args.length < 5 then .error (.wrongArgs "xadd")
    else
      match xaddOpts rest false none with
      | .error r => .error r
      | .ok (nomkstream, maxlen, tail) =>
        match tail with
        | [] => .error (.wrongArgs "xadd")
        | id :: fields =>
          match parseIdSpec id with
          | none => .error (.err (ascii "ERR Invalid stream ID specified as stream command argument"))
          | some spec =>
            if fields = [] ∨ fields.length % 2 ≠ 0 then .error (.wrongArgs "xadd")
            else .ok ⟨key, nomkstream, maxlen, spec, pairUp fields⟩
  | _ => .error (.wrongArgs "xadd")

/-- The job of XADD: the id of the new entry, or the reply in its place. -/
def ShardCtx.xadd (ctx : ShardCtx) (a : XaddArgs) : ShardCtx × Except Reply StreamId :=
  if ctx.checkType a.key .stream = none then (ctx, .error .wrongtype)
  else if a.nomkstream ∧ !(ctx.streamHead a.key).any (fun h => h.1.isLive ctx.nowMs) then (ctx, .error .null)
  else
    match ctx.chooseId a.spec (ctx.lastId a.key) with
    | (ctx, .error r) => (ctx, .error r)
    | (ctx, .ok id) => (ctx.addEntry a.key a.maxlen a.fields id, .ok id)

/-- XADD as the client sees it. -/
def xadd (args : List Bytes) (ctx : ShardCtx) : ShardCtx × Reply :=
  match parseXadd args with
  | .error r => (ctx, r)
  | .ok a =>
    match ctx.xadd a with
    | (ctx, .error r) => (ctx, r)
    | (ctx, .ok id) => (ctx, .bulk (fmtId id))

end Marekvs
