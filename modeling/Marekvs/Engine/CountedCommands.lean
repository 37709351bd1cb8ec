import Marekvs.Engine.Command
import Marekvs.Engine.Lists
import Marekvs.Engine.Zsets
import Marekvs.Engine.Reply
import Marekvs.Lib.Fault

/-!
# Commands that take an offset, a count or a number of keys

SETRANGE, the commands that pop several elements, ZRANDMEMBER, and the commands whose keys follow their number. A number comes
from the client as a 64-bit integer and is then a machine word that is added to positions, compared with the number of
arguments, and used as a capacity. Only memory that is asked for by such a number is counted.

What a handler finds at a key is up to the rest of the system: before every job records may be fetched and other commands run.
-/

namespace Marekvs

open Machine (Fault sum span item reserve)

open Resp (ascii)

/-! ## Arguments -/

/-- A signed 64-bit integer. -/
def readI64 (b : Bytes) : Option Int := (parseI64 b).map Int64.toInt

/-- An unsigned 64-bit integer: an optional plus, then digits only, within range. -/
def readU64 (b : Bytes) : Option Int :=
  let digits := match b with
    | 43 :: digits => digits
    | _ => b
  if digits = [] ∨ !digits.all isDigit ∨ 2 ^ 64 ≤ digitsValue digits then none else some (digitsValue digits)

/-- What a command meets outside its own code. -/
structure Env where
  /-- the shard when a key's job starts: what was fetched for the key, and what others did -/
  ensureLocal : Bytes → ShardCtx → ShardCtx
  /-- what happens while a blocking command sleeps after each of its polls -/
  meanwhile : Nat → ShardCtx → ShardCtx
  /-- how many polls fail before the deadline has passed -/
  polls : Nat
  /-- whether a text is a timeout -/
  isTimeout : Bytes → Bool
  parseF64 : Bytes → Option UInt64
  mulF64 : UInt64 → UInt64 → UInt64
  addF64 : UInt64 → UInt64 → UInt64
  minF64 : UInt64 → UInt64 → UInt64
  maxF64 : UInt64 → UInt64 → UInt64
  /-- a script on its keys and arguments -/
  evalSource : Bytes → List Bytes → List Bytes → ShardCtx → Reply × ShardCtx

/-- How many bytes a reply takes in a vector. -/
def SIZE_OF_REPLY : Nat := 32

/-- How many bytes a byte string takes in a vector. -/
def SIZE_OF_VEC : Nat := 24

/-- How many bytes a scored member takes in a vector. -/
def SIZE_OF_SCORED : Nat := 32

/-- How many bytes a hash map takes in a vector. -/
def SIZE_OF_HASH_MAP : Nat := 48

def SIZE_OF_F64 : Nat := 8

abbrev Outcome : Type := Except Fault (Reply × ShardCtx)

/-! ## SETRANGE -/

/-- Keys that only DIFF commands write. -/
def isImmutableKey (key : Bytes) : Bool :=
  let kind (tail : Bytes) : Option Bytes :=
    (tail.tails.find? fun t => ([125, 58] : Bytes).isPrefixOf t).map (·.drop 2)
  if (ascii "doc:\x7b").isPrefixOf key then (kind (key.drop 5)).any fun t => (ascii "s:").isPrefixOf t
  else if (ascii "diff:\x7b").isPrefixOf key then
    (kind (key.drop 6)).any fun t => (ascii "g:").isPrefixOf t || (ascii "r:").isPrefixOf t
  else false

def diffImmutable : Reply := .err (ascii "DIFFIMMUTABLE immutable snapshot, graph or result key")

/-- The string under a key; nothing where the key holds another type. -/
def readString (ctx : ShardCtx) (key : Bytes) : Option (Option Bytes) :=
  if (ctx.readLww (Ikey.stringKey key) 0).isSome then some (getString (ctx.getRaw (Ikey.stringKey key)) ctx.nowMs)
  else if ctx.checkString key then some none
  else none

def currentTtlDeadline (ctx : ShardCtx) (key : Bytes) : UInt64 :=
  ((ctx.readLww (Ikey.stringKey key) 0).map fun p => p.1.ttlDeadlineMs).getD 0

variable (env : Env)

def setrange (args : List Bytes) (ctx : ShardCtx) : Outcome :=
  if args[1]?.any isImmutableKey then .ok (diffImmutable, ctx)
  else
    match args with
    | [_, key, offsetText, patch] =>
      match readI64 offsetText with
      | none => .ok (.notInt, ctx)
      | some offset =>
        if offset < 0 then .ok (.err (ascii "ERR offset is out of range"), ctx)
        else do
          let offset := offset.toNat
          let ctx := env.ensureLocal key ctx
          match readString ctx key with
          | none => .ok (.wrongtype, ctx)
          | some old =>
            let v := old.getD []
            if patch = [] then .ok (.int (Int64.ofNat v.length), ctx)
            else do
              let stop ← sum offset patch.length
              if v.length < stop then reserve 1 stop
              let v := v ++ List.replicate (stop - v.length) 0
              let _ ← span v offset stop
              let v := v.take offset ++ patch ++ v.drop stop
              let keepTtl := currentTtlDeadline ctx key
              .ok (.int (Int64.ofNat v.length),
                ctx.tick.putRaw (Ikey.stringKey key) (writeString ctx.hlcNow ctx.nodeId v keepTtl))
    | _ => .ok (.wrongArgs "setrange", ctx)

/-! ## Pops from lists -/

/-- The count of a pop that may be left out. -/
def popCount (text : Option Bytes) : Except Reply (Option Nat) :=
  match text with
  | none => .ok none
  | some b =>
    match readI64 b with
    | some n => if 0 ≤ n then .ok (some n.toNat) else .error .notInt
    | none => .error .notInt

/-- LPOP and RPOP. -/
def pop (args : List Bytes) (left : Bool) (ctx : ShardCtx) : Outcome :=
  match args with
  | _ :: key :: rest =>
    if 1 < rest.length then .ok (.wrongArgs "lpop", ctx)
    else
      match popCount rest.head? with
      | .error r => .ok (r, ctx)
      | .ok count =>
        let ctx := env.ensureLocal key ctx
        match ctx.checkType key .list with
        | none => .ok (.wrongtype, ctx)
        | some del =>
          match count with
          | none =>
            match ctx.doPop key left del with
            | (ctx, some v) => .ok (.bulk v, ctx)
            | (ctx, none) => .ok (.null, ctx)
          | some n =>
            match ctx.listRange key del with
            | (ctx, none) => .ok (.nullArray, ctx)
            | (ctx, some _) => do
              reserve SIZE_OF_REPLY n
              let (ctx, popped) := ShardCtx.popMany key left del n ctx
              .ok (.array (popped.map .bulk), ctx)
  | _ => .ok (.wrongArgs "lpop", ctx)

/-- Pop at most `count` elements of one list; nothing where the key holds another type. -/
def tryPopMany (key : Bytes) (left : Bool) (count : Nat) (ctx : ShardCtx) : Except Fault (ShardCtx × Option (List Bytes)) :=
  match ctx.checkType key .list with
  | none => .ok (ctx, none)
  | some del =>
    match ctx.listRange key del with
    | (ctx, none) => .ok (ctx, some [])
    | (ctx, some _) => do
      reserve SIZE_OF_VEC count
      let (ctx, popped) := ShardCtx.popMany key left del count ctx
      .ok (ctx, some popped)

/-- Pop from the first list that has an element. -/
def lmpopInner (env : Env) (left : Bool) (count : Nat) : List Bytes → ShardCtx → Outcome
  | [], ctx => .ok (.nullArray, ctx)
  | key :: keys, ctx => do
    let (ctx, popped) ← tryPopMany key left count (env.ensureLocal key ctx)
    match popped with
    | none => .ok (.wrongtype, ctx)
    | some [] => lmpopInner env left count keys ctx
    | some values => .ok (.array [.bulk key, .array (values.map .bulk)], ctx)

/-- The options behind the keys: `COUNT n`, any number of times. -/
def mpopCount : List Bytes → Nat → Except Reply Nat
  | [], count => .ok count
  | [word], _ => if eqIgnoreCase word "COUNT" then .error .notInt else .error .syntaxError
  | word :: b :: rest, _ =>
    if eqIgnoreCase word "COUNT" then
      match readI64 b with
      | none => .error .notInt
      | some n => if n ≤ 0 then .error (.err (ascii "ERR count should be greater than 0")) else mpopCount rest n.toNat
    else .error .syntaxError

/-- Number of keys, keys, one of two words, options: the keys, whether the word is the first one, and the count. -/
def mpopTail (read : Bytes → Option Int) (yes no : String) (args : List Bytes) (start : Nat) :
    Except Fault (Except Reply (List Bytes × Bool × Nat)) :=
  match args[start]?.bind read with
  | none => .ok (.error .notInt)
  | some numkeys =>
    if numkeys ≤ 0 then .ok (.error .syntaxError)
    else do
      let wordIdx ← sum (start + 1) numkeys.toNat
      if args.length ≤ wordIdx then .ok (.error .syntaxError)
      else do
        let word ← item args wordIdx
        if !eqIgnoreCase word yes && !eqIgnoreCase word no then .ok (.error .syntaxError)
        else
          match mpopCount (args.drop (wordIdx + 1)) 1 with
          | .error r => .ok (.error r)
          | .ok count => do
            let keys ← span args (start + 1) wordIdx
            .ok (.ok (keys, eqIgnoreCase word yes, count))

def parseLmpopTail : List Bytes → Nat → Except Fault (Except Reply (List Bytes × Bool × Nat)) := mpopTail readI64 "LEFT" "RIGHT"

def lmpop (args : List Bytes) (ctx : ShardCtx) : Outcome :=
  if args.length < 4 then .ok (.wrongArgs "lmpop", ctx)
  else do
    match ← parseLmpopTail args 1 with
    | .error r => .ok (r, ctx)
    | .ok (keys, left, count) => lmpopInner env left count keys ctx

/-- The polls of a blocking command: again and again until one finds something, or the deadline has passed. -/
def pollLoop (env : Env) (poll : ShardCtx → Outcome) : Nat → ShardCtx → Outcome
  | 0, ctx => .ok (.nullArray, ctx)
  | n + 1, ctx => do
    match ← poll ctx with
    | (.nullArray, ctx) => pollLoop env poll n (env.meanwhile n ctx)
    | other => .ok other

def badTimeout : Reply := .err (ascii "ERR timeout is negative or not a float")

def blmpop (args : List Bytes) (ctx : ShardCtx) : Outcome :=
  if args.length < 5 then .ok (.wrongArgs "blmpop", ctx)
  else if !args[1]?.any env.isTimeout then .ok (badTimeout, ctx)
  else do
    match ← parseLmpopTail args 2 with
    | .error r => .ok (r, ctx)
    | .ok (keys, left, count) => pollLoop env (lmpopInner env left count keys) (env.polls + 1) ctx

/-! ## Pops from sorted sets -/

/-- Members as a flat array, with their scores behind them or without. -/
def emit (items : List (UInt64 × Bytes)) (withscores : Bool) : Reply :=
  .array (items.flatMap fun i => if withscores then [.bulk i.2, .double i.1] else [.bulk i.2])

/-- The members a pop removes: from the high end by one pass with a window of `n + 1`, from the low end by the cursor. -/
def popVictims (key : Bytes) (del : UInt64) (max : Bool) (n : Nat) (ctx : ShardCtx) :
    Except Fault (ShardCtx × List (UInt64 × Bytes)) :=
  if max then do
    let window ← sum n 1
    reserve SIZE_OF_SCORED window
    .ok (ctx, ShardCtx.lastFirst n (ctx.scoredMembers key del))
  else .ok (ctx.popScoredCandidates key del n)

/-- ZPOPMIN and ZPOPMAX. -/
def zpop (args : List Bytes) (max : Bool) (ctx : ShardCtx) : Outcome :=
  match args with
  | _ :: key :: rest =>
    if 1 < rest.length then .ok (.wrongArgs "zpopmin", ctx)
    else
      match popCount rest.head? with
      | .error r => .ok (r, ctx)
      | .ok count =>
        let ctx := env.ensureLocal key ctx
        match ctx.zsetDelHlc key with
        | none => .ok (.wrongtype, ctx)
        | some del => do
          let (ctx, victims) ← popVictims key del max (count.getD 1) ctx
          let (ctx, popped) := ShardCtx.removeVictims key del ctx victims
          .ok (emit popped true, ctx)
  | _ => .ok (.wrongArgs "zpopmin", ctx)

/-- Pop from one sorted set; nothing where the key holds another type. -/
def tryZpop (key : Bytes) (max : Bool) (count : Nat) (ctx : ShardCtx) :
    Except Fault (ShardCtx × Option (List (UInt64 × Bytes))) :=
  match ctx.zsetDelHlc key with
  | none => .ok (ctx, none)
  | some del => do
    let (ctx, victims) ← popVictims key del max count ctx
    let (ctx, popped) := ShardCtx.removeVictims key del ctx victims
    .ok (ctx, some popped)

/-- The key and its members, each with its score. -/
def zmpopReply (key : Bytes) (items : List (UInt64 × Bytes)) : Reply :=
  .array [.bulk key, .array (items.map fun i => .array [.bulk i.2, .double i.1])]

/-- Pop from the first sorted set that has a member. -/
def zmpopInner (env : Env) (max : Bool) (count : Nat) : List Bytes → ShardCtx → Outcome
  | [], ctx => .ok (.nullArray, ctx)
  | key :: keys, ctx => do
    let (ctx, popped) ← tryZpop key max count (env.ensureLocal key ctx)
    match popped with
    | none => .ok (.wrongtype, ctx)
    | some [] => zmpopInner env max count keys ctx
    | some items => .ok (zmpopReply key items, ctx)

def parseZmpopTail : List Bytes → Nat → Except Fault (Except Reply (List Bytes × Bool × Nat)) := mpopTail readU64 "MAX" "MIN"

def zmpop (args : List Bytes) (ctx : ShardCtx) : Outcome :=
  if args.length < 4 then .ok (.wrongArgs "zmpop", ctx)
  else do
    match ← parseZmpopTail args 1 with
    | .error r => .ok (r, ctx)
    | .ok (keys, max, count) => zmpopInner env max count keys ctx

def bzmpop (args : List Bytes) (ctx : ShardCtx) : Outcome :=
  if args.length < 5 then .ok (.wrongArgs "bzmpop", ctx)
  else if !args[1]?.any env.isTimeout then .ok (badTimeout, ctx)
  else do
    match ← parseZmpopTail args 2 with
    | .error r => .ok (r, ctx)
    | .ok (keys, max, count) => pollLoop env (zmpopInner env max count keys) (env.polls + 1) ctx

/-! ## ZRANDMEMBER -/

/-- How many members ZRANDMEMBER returns: a negative count repeats them. -/
def randTake (n : Int) (available : Nat) : Nat := if n < 0 then n.natAbs else min n.natAbs available

/-- The reply of ZRANDMEMBER from a sorted set. -/
def randReply (key : Bytes) (del : UInt64) (count : Option Int) (withscores : Bool) (ctx : ShardCtx) : Outcome :=
  let want := (count.map Int.natAbs).getD 1
  match ctx.scoredMembersLimited key del (max want 1), count with
  | [], none => .ok (.null, ctx)
  | [], some _ => .ok (.array [], ctx)
  | first :: _, none => .ok (if withscores then emit [first] true else .bulk first.2, ctx)
  | items@(first :: _), some n => do
    let take := randTake n items.length
    let cells := take * if withscores then 2 else 1
    -- the product wraps; a vector that is too small for its items grows
    reserve SIZE_OF_REPLY (cells % 2 ^ 64)
    reserve SIZE_OF_REPLY cells
    .ok (emit ((List.range take).map fun i => items.getD (i % items.length) first) withscores, ctx)

def zrandmember (args : List Bytes) (ctx : ShardCtx) : Outcome :=
  match args with
  | _ :: key :: rest =>
    if 2 < rest.length then .ok (.wrongArgs "zrandmember", ctx)
    else if rest[1]?.any (!eqIgnoreCase · "WITHSCORES") then .ok (.syntaxError, ctx)
    else
      let ctx := env.ensureLocal key ctx
      match ctx.zsetDelHlc key with
      | none => .ok (.wrongtype, ctx)
      -- a count that is no integer counts as none
      | some del => randReply key del (rest[0]?.bind readI64) rest[1]?.isSome ctx
  | _ => .ok (.wrongArgs "zrandmember", ctx)

/-! ## Keys behind their number -/

/-- The members of a set; nothing where the key holds another type. -/
def membersOf (key : Bytes) (ctx : ShardCtx) : ShardCtx × Option (List Bytes) :=
  let ctx := env.ensureLocal key ctx
  (ctx, ctx.db.smembers key ctx.nowMs)

/-- The members of a sorted set with their scores; nothing where the key holds another type. -/
def zitemsOf (key : Bytes) (ctx : ShardCtx) : ShardCtx × Option (List (UInt64 × Bytes)) :=
  let ctx := env.ensureLocal key ctx
  (ctx, (ctx.zsetDelHlc key).map (ctx.scoredMembers key))

/-- The running intersection of the members of keys. An empty one ends the walk where `early` says so. -/
def interLoop (items : Bytes → ShardCtx → ShardCtx × Option (List Bytes)) (early : Bool) :
    List Bytes → Option (List Bytes) → ShardCtx → ShardCtx × Option (Option (List Bytes))
  | [], acc, ctx => (ctx, some acc)
  | key :: keys, acc, ctx =>
    match items key ctx with
    | (ctx, none) => (ctx, none)
    | (ctx, some members) =>
      let set := members.dedup
      let acc := match acc with
        | none => set
        | some cur => cur.filter (· ∈ set)
      if early && acc.isEmpty then (ctx, some (some acc)) else interLoop items early keys (some acc) ctx

/-- The reply of a cardinality command. -/
def interCard (items : Bytes → ShardCtx → ShardCtx × Option (List Bytes)) (early : Bool) (keys : List Bytes) (limit : Nat)
    (ctx : ShardCtx) : Reply × ShardCtx :=
  match interLoop items early keys none ctx with
  | (ctx, none) => (.wrongtype, ctx)
  | (ctx, some acc) => (.int (Int64.ofNat (min (acc.getD []).length limit)), ctx)

/-- The limit that stands for none. -/
def USIZE_MAX : Nat := 2 ^ 64 - 1

/-- The arguments of SINTERCARD: the keys and the limit. -/
def parseSintercard (args : List Bytes) : Except Fault (Except Reply (List Bytes × Nat)) :=
  match args[1]?.bind readU64 with
  | none => .ok (.error .notInt)
  | some numkeys =>
    if numkeys = 0 then .ok (.error .syntaxError)
    else do
      let stop ← sum 2 numkeys.toNat
      if args.length < stop then .ok (.error .syntaxError)
      else if stop < args.length then do
        let word ← item args stop
        if !eqIgnoreCase word "LIMIT" then .ok (.error .syntaxError)
        else do
          let next ← sum 3 numkeys.toNat
          match args[next]?.bind readU64 with
          | none => .ok (.error .notInt)
          | some n => do
            let keys ← span args 2 stop
            .ok (.ok (keys, if n = 0 then USIZE_MAX else n.toNat))
      else do
        let keys ← span args 2 stop
        .ok (.ok (keys, USIZE_MAX))

def sintercard (args : List Bytes) (ctx : ShardCtx) : Outcome :=
  if args.length < 3 then .ok (.wrongArgs "sintercard", ctx)
  else do
    match ← parseSintercard args with
    | .error r => .ok (r, ctx)
    | .ok (keys, limit) => .ok (interCard (membersOf env) false keys limit ctx)

/-- The options of ZINTERCARD: `LIMIT n`, any number of times. -/
def zintercardLimit : List Bytes → Nat → Except Reply Nat
  | [], limit => .ok limit
  | [word], _ => if eqIgnoreCase word "LIMIT" then .error .notInt else .error .syntaxError
  | word :: b :: rest, limit =>
    if eqIgnoreCase word "LIMIT" then
      match readU64 b with
      | none => .error .notInt
      | some n => zintercardLimit rest (if n = 0 then limit else n.toNat)
    else .error .syntaxError

/-- The arguments of ZINTERCARD: the keys and the limit. -/
def parseZintercard (args : List Bytes) : Except Fault (Except Reply (List Bytes × Nat)) :=
  match args[1]?.bind readU64 with
  | none => .ok (.error .notInt)
  | some numkeys =>
    if numkeys = 0 then .ok (.error .syntaxError)
    else do
      let stop ← sum 2 numkeys.toNat
      if args.length < stop then .ok (.error .syntaxError)
      else
        match zintercardLimit (args.drop stop) USIZE_MAX with
        | .error r => .ok (.error r)
        | .ok limit => do
          let keys ← span args 2 stop
          .ok (.ok (keys, limit))

def zintercard (args : List Bytes) (ctx : ShardCtx) : Outcome :=
  if args.length < 3 then .ok (.wrongArgs "zintercard", ctx)
  else do
    match ← parseZintercard args with
    | .error r => .ok (r, ctx)
    | .ok (keys, limit) =>
      let items := fun key ctx => let (ctx, r) := zitemsOf env key ctx; (ctx, r.map (·.map Prod.snd))
      .ok (interCard items true keys limit ctx)

/-! ## Set operations on sorted sets -/

inductive ZSetOp where
  | union
  | inter
  | diff
  deriving DecidableEq, Repr

inductive Aggregate where
  | sum
  | min
  | max
  deriving DecidableEq, Repr

def aggregate : Aggregate → UInt64 → UInt64 → UInt64
  | .sum => env.addF64
  | .min => env.minF64
  | .max => env.maxF64

/-- What stands behind the keys of a set operation. -/
structure ZSetOpOpts where
  weights : List UInt64
  agg : Aggregate
  withscores : Bool

/-- The options of a set operation from position `idx` on. Every option takes at least one argument, so `fuel` may be the number
of arguments. -/
def zsetopOpts (env : Env) (args : List Bytes) (numkeys : Nat) (storeDst : Bool) :
    Nat → Nat → ZSetOpOpts → Except Fault (Except Reply ZSetOpOpts)
  | 0, _, opts => .ok (.ok opts)
  | fuel + 1, idx, opts =>
    match args[idx]? with
    | none => .ok (.ok opts)
    | some word =>
      if eqIgnoreCase word "WEIGHTS" then do
        let stop ← sum (idx + 1) numkeys
        if args.length < stop then .ok (.error .syntaxError)
        else do
          let texts ← span args (idx + 1) stop
          match texts.mapM env.parseF64 with
          | none => .ok (.error .notFloat)
          | some weights => zsetopOpts env args numkeys storeDst fuel stop { opts with weights := weights }
      else if eqIgnoreCase word "AGGREGATE" then
        match args[idx + 1]? with
        | none => .ok (.error .syntaxError)
        | some a =>
          if eqIgnoreCase a "SUM" then zsetopOpts env args numkeys storeDst fuel (idx + 2) { opts with agg := .sum }
          else if eqIgnoreCase a "MIN" then zsetopOpts env args numkeys storeDst fuel (idx + 2) { opts with agg := .min }
          else if eqIgnoreCase a "MAX" then zsetopOpts env args numkeys storeDst fuel (idx + 2) { opts with agg := .max }
          else .ok (.error .syntaxError)
      else if eqIgnoreCase word "WITHSCORES" && !storeDst then
        zsetopOpts env args numkeys storeDst fuel (idx + 1) { opts with withscores := true }
      else .ok (.error .syntaxError)

/-- The arguments of a set operation, whose number of keys stands at `idx`. -/
def parseZsetop (args : List Bytes) (storeDst : Bool) (idx : Nat) :
    Except Fault (Except Reply (List Bytes × ZSetOpOpts)) :=
  match args[idx]?.bind readU64 with
  | none => .ok (.error .notInt)
  | some numkeys =>
    if numkeys = 0 then .ok (.error .syntaxError)
    else do
      let numkeys := numkeys.toNat
      let stop ← sum (idx + 1) numkeys
      if args.length < stop then .ok (.error .syntaxError)
      else do
        let keys ← span args (idx + 1) stop
        reserve SIZE_OF_F64 numkeys
        -- 1.0
        let opts : ZSetOpOpts := ⟨List.replicate numkeys 0x3FF0000000000000, .sum, false⟩
        match ← zsetopOpts env args numkeys storeDst args.length stop opts with
        | .error r => .ok (.error r)
        | .ok opts => .ok (.ok (keys, opts))

/-- A sorted set as a map from members to weighted scores. -/
abbrev ScoreMap : Type := Std.ExtTreeMap Bytes UInt64

/-- The maps of the keys, each with its weight; nothing where a key holds another type. -/
def zsetopMaps (env : Env) : List (Bytes × UInt64) → ShardCtx → ShardCtx × Option (List ScoreMap)
  | [], ctx => (ctx, some [])
  | (key, weight) :: rest, ctx =>
    match zitemsOf env key ctx with
    | (ctx, none) => (ctx, none)
    | (ctx, some items) =>
      let map := items.foldl (fun (m : ScoreMap) i => m.insert i.2 (env.mulF64 i.1 weight)) ∅
      match zsetopMaps env rest ctx with
      | (ctx, none) => (ctx, none)
      | (ctx, some maps) => (ctx, some (map :: maps))

/-- The result of a set operation, in the order of scores and members. -/
def zsetopResult (op : ZSetOp) (agg : Aggregate) (maps : List ScoreMap) : List (UInt64 × Bytes) :=
  let result : ScoreMap := match op, maps with
    | .union, maps =>
      maps.foldl (fun acc m => m.toList.foldl (fun (acc : ScoreMap) e =>
        acc.insert e.1 (match acc[e.1]? with
          | some s => aggregate env agg s e.2
          | none => e.2)) acc) ∅
    | .inter, first :: rest =>
      (first.toList.filter fun e => rest.all fun m => m.contains e.1).foldl (fun (acc : ScoreMap) e =>
        acc.insert e.1 (rest.foldl (fun s m => aggregate env agg s (m.getD e.1 0)) e.2)) ∅
    | .diff, first :: rest =>
      (first.toList.filter fun e => rest.all fun m => !m.contains e.1).foldl (fun (acc : ScoreMap) e => acc.insert e.1 e.2) ∅
    | _, [] => ∅
  (result.toList.map fun e => (e.2, e.1)).mergeSort fun a b => ((scoreCmp a.1 b.1).then (compare a.2 b.2)) ≠ .gt

/-- ZUNION, ZINTER and ZDIFF, and the forms that store their result. -/
def zsetop (args : List Bytes) (op : ZSetOp) (storeDst : Bool) (ctx : ShardCtx) : Outcome :=
  if args.length < (if storeDst then 4 else 3) then .ok (.wrongArgs "zsetop", ctx)
  else do
    match ← parseZsetop env args storeDst (if storeDst then 2 else 1) with
    | .error r => .ok (r, ctx)
    | .ok (keys, opts) => do
      reserve SIZE_OF_HASH_MAP keys.length
      match zsetopMaps env (keys.zip opts.weights) ctx with
      | (ctx, none) => .ok (.wrongtype, ctx)
      | (ctx, some maps) =>
        let out := zsetopResult env op opts.agg maps
        if storeDst then
          let dst := args.getD 1 []
          .ok (.int (Int64.ofNat out.length), (env.ensureLocal dst ctx).storeMembers dst out)
        else .ok (emit out opts.withscores, ctx)

/-! ## EVAL -/

/-- The keys of a script and its arguments. -/
def parseEval (args : List Bytes) : Except Fault (Except Reply (List Bytes × List Bytes)) :=
  match args[2]?.bind readI64 with
  | none => .ok (.error .notInt)
  | some numkeys =>
    if numkeys < 0 then .ok (.error (.err (ascii "ERR Number of keys can't be negative")))
    else do
      let stop ← sum 3 numkeys.toNat
      if args.length < stop then .ok (.error (.err (ascii "ERR Number of keys can't be greater than number of args")))
      else do
        let keys ← span args 3 stop
        let argv ← span args stop args.length
        .ok (.ok (keys, argv))

def eval (args : List Bytes) (ctx : ShardCtx) : Outcome :=
  match args with
  | _ :: source :: _ :: _ => do
    match ← parseEval args with
    | .error r => .ok (r, ctx)
    | .ok (keys, argv) => .ok (env.evalSource source keys argv ctx)
  | _ => .ok (.wrongArgs "eval", ctx)

/-! ## All of them -/

inductive CountedCommand where
  | setrange
  | lpop
  | rpop
  | lmpop
  | blmpop
  | zpopmin
  | zpopmax
  | zmpop
  | bzmpop
  | zrandmember
  | sintercard
  | zintercard
  | zunion
  | zinter
  | zdiff
  | zunionstore
  | zinterstore
  | zdiffstore
  | eval
  deriving DecidableEq, Repr

namespace CountedCommand

/-- Run a command; the name is the first argument. -/
def exec : CountedCommand → Env → List Bytes → ShardCtx → Outcome
  | setrange, env, args, ctx => Marekvs.setrange env args ctx
  | lpop, env, args, ctx => pop env args true ctx
  | rpop, env, args, ctx => pop env args false ctx
  | lmpop, env, args, ctx => Marekvs.lmpop env args ctx
  | blmpop, env, args, ctx => Marekvs.blmpop env args ctx
  | zpopmin, env, args, ctx => zpop env args false ctx
  | zpopmax, env, args, ctx => zpop env args true ctx
  | zmpop, env, args, ctx => Marekvs.zmpop env args ctx
  | bzmpop, env, args, ctx => Marekvs.bzmpop env args ctx
  | zrandmember, env, args, ctx => Marekvs.zrandmember env args ctx
  | sintercard, env, args, ctx => Marekvs.sintercard env args ctx
  | zintercard, env, args, ctx => Marekvs.zintercard env args ctx
  | zunion, env, args, ctx => zsetop env args .union false ctx
  | zinter, env, args, ctx => zsetop env args .inter false ctx
  | zdiff, env, args, ctx => zsetop env args .diff false ctx
  | zunionstore, env, args, ctx => zsetop env args .union true ctx
  | zinterstore, env, args, ctx => zsetop env args .inter true ctx
  | zdiffstore, env, args, ctx => zsetop env args .diff true ctx
  | eval, env, args, ctx => Marekvs.eval env args ctx

/-- The keys that a command with a number of keys goes on to use, or its refusal. -/
def keys (args : List Bytes) : CountedCommand → Option (Except Fault (Except Reply (List Bytes)))
  | lmpop => some ((parseLmpopTail args 1).map (·.map Prod.fst))
  | blmpop => some ((parseLmpopTail args 2).map (·.map Prod.fst))
  | zmpop => some ((parseZmpopTail args 1).map (·.map Prod.fst))
  | bzmpop => some ((parseZmpopTail args 2).map (·.map Prod.fst))
  | sintercard => some ((parseSintercard args).map (·.map Prod.fst))
  | zintercard => some ((parseZintercard args).map (·.map Prod.fst))
  | zunion | zinter | zdiff => some ((parseZsetop env args false 1).map (·.map Prod.fst))
  | zunionstore | zinterstore | zdiffstore => some ((parseZsetop env args true 2).map (·.map Prod.fst))
  | eval => some ((parseEval args).map (·.map Prod.fst))
  | _ => none

/-- Where the number of keys stands. -/
def numkeysAt : CountedCommand → Nat
  | blmpop | bzmpop | zunionstore | zinterstore | zdiffstore | eval => 2
  | _ => 1

/-- How the number of keys is read. -/
def readNumkeys : CountedCommand → Bytes → Option Int
  | lmpop | blmpop | eval => readI64
  | _ => readU64

end CountedCommand

end Marekvs
