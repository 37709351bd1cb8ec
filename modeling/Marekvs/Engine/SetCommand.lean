import Marekvs.Engine.CountedCommands

/-!
# GET, SET and MSETNX

The options of SET are read one after the other; a deadline is an absolute time, and sums and products are those of 64-bit words.
NX and XX look at the key's string record alone, and the type gate stands before the old value only. What has to be fetched for a
key has been fetched.
-/

namespace Marekvs

open Resp (ascii)

/-- The options of SET. -/
structure SetOptions where
  nx : Bool
  xx : Bool
  keepttl : Bool
  getOld : Bool
  ttl : Option UInt64

namespace SetOptions

def plain : SetOptions := ⟨false, false, false, false, none⟩

/-- Whether the old value matters. -/
def needOld (o : SetOptions) : Bool := o.nx || o.xx || o.keepttl || o.getOld

def parse (now : UInt64) : List Bytes → SetOptions → Except Reply SetOptions
  | [], o => .ok o
  | word :: rest, o =>
    if eqIgnoreCase word "NX" then parse now rest { o with nx := true }
    else if eqIgnoreCase word "XX" then parse now rest { o with xx := true }
    else if eqIgnoreCase word "KEEPTTL" then parse now rest { o with keepttl := true }
    else if eqIgnoreCase word "GET" then parse now rest { o with getOld := true }
    else if eqIgnoreCase word "EX" || eqIgnoreCase word "PX" then
      match rest with
      | [] => .error .notInt
      | text :: rest =>
        match readU64 text with
        | none => .error .notInt
        | some n =>
          if n = 0 then .error (.err (ascii "ERR invalid expire time in 'set' command"))
          else parse now rest { o with ttl := some (now + UInt64.ofInt n * if eqIgnoreCase word "EX" then 1000 else 1) }
    else if eqIgnoreCase word "EXAT" || eqIgnoreCase word "PXAT" then
      match rest with
      | [] => .error .notInt
      | text :: rest =>
        match readU64 text with
        | none => .error .notInt
        | some n => parse now rest { o with ttl := some (UInt64.ofInt n * if eqIgnoreCase word "EXAT" then 1000 else 1) }
    else .error .syntaxError

end SetOptions

namespace ShardCtx

/-- TYPE. -/
def keyType (ctx : ShardCtx) (key : Bytes) : Option KeyType := ctx.db.keyType key ctx.nowMs

def writeString (ctx : ShardCtx) (key value : Bytes) (ttl : UInt64) : ShardCtx :=
  ctx.tick.putRaw (Ikey.stringKey key) (Marekvs.writeString ctx.hlcNow ctx.nodeId value ttl)

/-- GET. -/
def get (ctx : ShardCtx) (key : Bytes) : Reply :=
  match readString ctx key with
  | none => .wrongtype
  | some v => (v.map Reply.bulk).getD .null

/-- What SET does on its key. -/
def setKey (ctx : ShardCtx) (key value : Bytes) (o : SetOptions) : Reply × ShardCtx :=
  if o.getOld && !ctx.checkString key then (.wrongtype, ctx)
  else
    let old := if o.needOld then ctx.readLww (Ikey.stringKey key) 0 else none
    let shown := (old.map fun p => Reply.bulk p.2).getD .null
    if o.nx && old.isSome || o.xx && old.isNone then (if o.getOld then shown else .null, ctx)
    else
      let deadline := if o.keepttl then (old.map fun p => p.1.ttlDeadlineMs).getD 0 else o.ttl.getD 0
      (if o.getOld then shown else .ok, ctx.writeString key value deadline)

def set (ctx : ShardCtx) (args : List Bytes) : Reply × ShardCtx :=
  if args[1]?.any isImmutableKey then (diffImmutable, ctx)
  else
    match args with
    | _ :: key :: value :: options =>
      match SetOptions.parse ctx.nowMs options .plain with
      | .error r => (r, ctx)
      | .ok o => if o.nx && o.xx then (.syntaxError, ctx) else ctx.setKey key value o
    | _ => (.wrongArgs "set", ctx)

/-- MSETNX of keys with their values: it looks at every key before it writes the first. -/
def msetnx (ctx : ShardCtx) (pairs : List (Bytes × Bytes)) : Reply × ShardCtx :=
  if pairs.any fun p => isImmutableKey p.1 then (diffImmutable, ctx)
  else if pairs.any fun p => (ctx.readLww (Ikey.stringKey p.1) 0).isSome then (.int 0, ctx)
  else (.int 1, pairs.foldl (fun ctx p => ctx.writeString p.1 p.2 0) ctx)

end ShardCtx

end Marekvs
