import Marekvs.Engine.CountedCommands

/-!
# Reading streams

A stream's entries are last-writer-wins records under their ids, two 64-bit numbers; the head carries the last id, how many
entries were added, and the greatest id that was deleted. Here are the reads that name their keys behind a word, XREAD and XINFO.
-/

namespace Marekvs

open Resp (ascii)

abbrev StreamId : Type := UInt64 × UInt64

/-- The order of ids. -/
def StreamId.lt (a b : StreamId) : Bool := a.1 < b.1 || (a.1 = b.1 && a.2 < b.2)

/-- What a stream's head carries. -/
structure StreamMeta where
  lastId : StreamId
  entriesAdded : UInt64
  maxDeletedId : StreamId

def STREAM_META_MAGIC : Bytes := ascii "MVS1"

def decodeStreamMeta (payload : Bytes) : StreamMeta :=
  if payload.length < 53 ∨ (payload.drop 9).take 4 ≠ STREAM_META_MAGIC then ⟨(0, 0), 0, (0, 0)⟩
  else
    let read (p : Nat) := Bytes.toU64 ((payload.drop p).take 8)
    ⟨(read 13, read 21), read 29, (read 37, read 45)⟩

/-- The field and value pairs of an entry, `count` of them. -/
def decodePairs : Nat → Bytes → Option (List (Bytes × Bytes))
  | 0, _ => some []
  | count + 1, buf => do
    let (flen, adv) ← Bytes.getVarint buf
    let buf := buf.drop adv
    if buf.length < flen then none
    else
      let field := buf.take flen
      let (vlen, adv) ← Bytes.getVarint (buf.drop flen)
      let buf := (buf.drop flen).drop adv
      if buf.length < vlen then none
      else
        let rest ← decodePairs count (buf.drop vlen)
        some ((field, buf.take vlen) :: rest)

def decodeFields (buf : Bytes) : Option (List (Bytes × Bytes)) :=
  (Bytes.getVarint buf).bind fun r => decodePairs r.1 (buf.drop r.2)

/-- `ms-seq`. -/
def fmtId (id : StreamId) : Bytes := decDigits 20 id.1.toNat ++ 45 :: decDigits 20 id.2.toNat

def entryReply (e : StreamId × Bytes) : Reply :=
  .array [.bulk (fmtId e.1), .array (((decodeFields e.2).getD []).flatMap fun p => [.bulk p.1, .bulk p.2])]

/-- The id behind an element's key. -/
def streamIdOf (ikey : Bytes) : Option StreamId :=
  (Ikey.parse ikey).bind fun p =>
    if p.suffix.length = 16 then some (Bytes.toU64 (p.suffix.take 8), Bytes.toU64 (p.suffix.drop 8)) else none

/-- A start bound: the open ends, an id, or the first id of a millisecond. -/
def parseRangeStart (b : Bytes) : Option StreamId :=
  if b = ascii "-" then some (0, 0)
  else if b = ascii "+" then some (0xFFFFFFFFFFFFFFFF, 0xFFFFFFFFFFFFFFFF)
  else
    let word (text : Bytes) : Option UInt64 := (readU64 text).map fun n => UInt64.ofNat n.toNat
    match b.dropWhile (· ≠ 45) with
    | [] => (word b).map fun ms => (ms, 0)
    | _ :: seq => (word (b.takeWhile (· ≠ 45))).bind fun ms => (word seq).map fun seq => (ms, seq)

namespace ShardCtx

/-- The visible entries in the order of their ids. -/
def collectEntries (ctx : ShardCtx) (key : Bytes) (del : UInt64) : List (StreamId × Bytes) :=
  (ctx.db.scanPrefix (Ikey.collectionPrefix .streamEntry key)).filterMap fun e =>
    match Envelope.decode e.2 with
    | none => none
    | some (env, payload) => if visible env del ctx.nowMs then (streamIdOf e.1).map fun id => (id, payload) else none

/-- The greatest id that was ever written, deleted entries included. -/
def streamLastId (ctx : ShardCtx) (key : Bytes) : Option StreamId :=
  ((ctx.db.scanPrefix (Ikey.collectionPrefix .streamEntry key)).filterMap fun e => streamIdOf e.1).getLast?

/-- The head of a stream that is neither deleted nor expired: its delete clock and what it carries. -/
def liveStreamHead (ctx : ShardCtx) (key : Bytes) : Option (UInt64 × StreamMeta) :=
  match (ctx.getRaw (Ikey.headKey key)).bind Envelope.decode with
  | none => none
  | some (env, payload) =>
    match decodeHead payload with
    | none => none
    | some (ctype, del) =>
      if ctype ≠ Ctype.stream.toByte ∨ env.isTombstone ∨ env.isExpired ctx.nowMs then none
      else some (del, decodeStreamMeta payload)

def effectiveLastId (ctx : ShardCtx) (key : Bytes) (m : StreamMeta) : StreamId :=
  match ctx.streamLastId key with
  | some scan => if m.lastId.lt scan then scan else m.lastId
  | none => m.lastId

end ShardCtx

/-! ## XREAD -/

/-- The options before the streams: the count, and what follows `STREAMS`. The timeout of `BLOCK` is read and not used. -/
def xreadOpts : List Bytes → Option Nat → Except Reply (Option Nat × List Bytes)
  | [], _ => .error .syntaxError
  | [word], count =>
    if eqIgnoreCase word "COUNT" ∨ eqIgnoreCase word "BLOCK" then .error .notInt
    else if eqIgnoreCase word "STREAMS" then .ok (count, [])
    else .error .syntaxError
  | word :: b :: rest, count =>
    if eqIgnoreCase word "COUNT" then
      match readU64 b with
      | none => .error .notInt
      | some n => xreadOpts rest (some n.toNat)
    else if eqIgnoreCase word "BLOCK" then
      match readU64 b with
      | none => .error .notInt
      | some _ => xreadOpts rest count
    else if eqIgnoreCase word "STREAMS" then .ok (count, b :: rest)
    else .error .syntaxError

/-- The count, and each key with the id to start after. -/
def parseXread (args : List Bytes) : Except Reply (Option Nat × List (Bytes × Bytes)) :=
  match xreadOpts (args.drop 1) none with
  | .error r => .error r
  | .ok (count, tail) =>
    if tail = [] ∨ tail.length % 2 ≠ 0 then
      .error (.err (ascii "ERR Unbalanced XREAD list of streams: for each stream key an ID or '$' must be specified."))
    else .ok (count, (tail.take (tail.length / 2)).zip (tail.drop (tail.length / 2)))

/-- The entries of one stream after an id; nothing where the key holds another type. -/
def xreadEntries (key id : Bytes) (count : Option Nat) (ctx : ShardCtx) : Option (List Reply) :=
  match ctx.checkType key .stream with
  | none => none
  | some del =>
    let start := if id = ascii "$" then some ((ctx.streamLastId key).getD (0, 0)) else parseRangeStart id
    match start with
    | none => some []
    | some start =>
      let entries := ((ctx.collectEntries key del).filter fun e => StreamId.lt start e.1).map entryReply
      some (match count with
        | some c => entries.take c
        | none => entries)

/-! ## XINFO -/

/-- The key of `XINFO STREAM key`, or the reply to anything else. -/
def parseXinfo (args : List Bytes) : Except Reply Bytes :=
  match args with
  | _ :: sub :: rest =>
    if !eqIgnoreCase sub "STREAM" then
      if eqIgnoreCase sub "HELP" then .error (.array [.bulk (ascii "XINFO STREAM <key>"), .bulk (ascii "XINFO HELP")])
      else .error (.err (ascii "ERR unknown subcommand"))
    else
      match rest with
      | [key] => .ok key
      | _ => .error (.wrongArgs "xinfo stream")
  | _ => .error (.wrongArgs "xinfo")

def xinfoReply (key : Bytes) (ctx : ShardCtx) : Reply :=
  match ctx.liveStreamHead key with
  | none => if (ctx.db.keyType key ctx.nowMs).isSome then .wrongtype else .err (ascii "ERR no such key")
  | some (del, m) =>
    let entries := ctx.collectEntries key del
    .array [.bulk (ascii "length"), .int (Int64.ofNat entries.length), .bulk (ascii "radix-tree-keys"), .int 1,
      .bulk (ascii "radix-tree-nodes"), .int 2, .bulk (ascii "last-generated-id"), .bulk (fmtId (ctx.effectiveLastId key m)),
      .bulk (ascii "max-deleted-entry-id"), .bulk (fmtId m.maxDeletedId), .bulk (ascii "entries-added"),
      .int m.entriesAdded.toInt64, .bulk (ascii "groups"), .int 0, .bulk (ascii "first-entry"),
      (entries.head?.map entryReply).getD .null, .bulk (ascii "last-entry"), (entries.getLast?.map entryReply).getD .null]

end Marekvs
