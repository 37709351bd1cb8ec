import Marekvs.Engine.CountedCommands

/-!
# Writing sorted sets

ZADD with its options, ZINCRBY, ZREM and the three commands that remove a range. The last four differ in the members that they
choose. How a text is read as a score and how two scores are added are parameters.
-/

namespace Marekvs

open Resp (ascii)

/-- `a < b` of floating-point numbers. -/
def scoreLt (a b : UInt64) : Bool := !isNanScore a && !isNanScore b && decide (encodeScore a < encodeScore b)

/-- `a <= b` of floating-point numbers. -/
def scoreLe (a b : UInt64) : Bool := !isNanScore a && !isNanScore b && decide (encodeScore a ≤ encodeScore b)

/-! ## ZADD and ZINCRBY -/

structure ZaddOptions where
  nx : Bool := false
  xx : Bool := false
  gt : Bool := false
  lt : Bool := false
  ch : Bool := false
  incr : Bool := false
  deriving DecidableEq, Repr

namespace ZaddOptions

/-- Options that exclude each other. -/
def clash (o : ZaddOptions) : Bool := (o.nx && o.xx) || (o.gt && o.lt) || (o.nx && (o.gt || o.lt))

/-- Whether the command looks at the score that is there. -/
def conditional (o : ZaddOptions) : Bool := o.nx || o.xx || o.gt || o.lt || o.ch || o.incr

/-- The options in front, and the arguments from the first that is none. -/
def read : List Bytes → ZaddOptions → ZaddOptions × List Bytes
  | [], o => (o, [])
  | a :: rest, o =>
    if eqIgnoreCase a "NX" then read rest { o with nx := true }
    else if eqIgnoreCase a "XX" then read rest { o with xx := true }
    else if eqIgnoreCase a "GT" then read rest { o with gt := true }
    else if eqIgnoreCase a "LT" then read rest { o with lt := true }
    else if eqIgnoreCase a "CH" then read rest { o with ch := true }
    else if eqIgnoreCase a "INCR" then read rest { o with incr := true }
    else (o, a :: rest)

end ZaddOptions

/-- Scores and members by turns; nothing where a score is no number. -/
def scorePairs (env : Env) : List Bytes → Option (List (UInt64 × Bytes))
  | score :: member :: rest =>
    match env.parseF64 score with
    | none => none
    | some s => (scorePairs env rest).map ((s, member) :: ·)
  | _ => some []

def scoreIsNan : Reply := .err (ascii "ERR resulting score is not a number (NaN)")

/-- What ZADD has counted. -/
structure ZaddTally where
  added : Nat := 0
  updated : Nat := 0
  result : Option UInt64 := none

def ZaddTally.reply (t : ZaddTally) (o : ZaddOptions) : Reply :=
  if o.incr then (t.result.map .double).getD .null
  else if o.ch then .int (Int64.ofNat (t.added + t.updated))
  else .int (Int64.ofNat t.added)

/-- The pairs one after the other. With INCR there is one, and the command ends where it is left alone. -/
def zaddLoop (env : Env) (o : ZaddOptions) (key : Bytes) (del : UInt64) :
    List (UInt64 × Bytes) → ZaddTally → ShardCtx → Reply × ShardCtx
  | [], t, ctx => (t.reply o, ctx)
  | (score, member) :: rest, t, ctx =>
    match ctx.memberScore key member del with
    | some cur =>
      if o.nx then if o.incr then (.null, ctx) else zaddLoop env o key del rest t ctx
      else
        let newscore := if o.incr then env.addF64 cur score else score
        if o.incr && isNanScore newscore then (scoreIsNan, ctx)
        else if (o.gt && scoreLe newscore cur) || (o.lt && scoreLe cur newscore) then
          if o.incr then (.null, ctx) else zaddLoop env o key del rest t ctx
        else if scoreEq newscore cur then zaddLoop env o key del rest { t with result := some newscore } ctx
        else zaddLoop env o key del rest { t with updated := t.updated + 1, result := some newscore }
          ((ctx.ensureHead key .zset).writeMember key member newscore)
    | none =>
      if o.xx then if o.incr then (.null, ctx) else zaddLoop env o key del rest t ctx
      else zaddLoop env o key del rest { t with added := t.added + 1, result := some score }
        ((ctx.ensureHead key .zset).writeMember key member score)

variable (env : Env)

def zadd (args : List Bytes) (ctx : ShardCtx) : Reply × ShardCtx :=
  match args with
  | _ :: key :: a :: b :: more =>
    let (o, rest) := ZaddOptions.read (a :: b :: more) {}
    if o.clash then (.err (ascii "ERR GT, LT, and/or NX options at the same time are not compatible"), ctx)
    else if rest = [] ∨ rest.length % 2 ≠ 0 then (.syntaxError, ctx)
    else if o.incr ∧ rest.length ≠ 2 then (.err (ascii "ERR INCR option supports a single increment-element pair"), ctx)
    else
      match scorePairs env rest with
      | none => (.notFloat, ctx)
      | some pairs =>
        let ctx := if o.conditional then env.ensureLocal key ctx else ctx
        match ctx.zsetDelHlc key with
        | none => (.wrongtype, ctx)
        | some del => zaddLoop env o key del pairs {} ctx
  | _ => (.wrongArgs "zadd", ctx)

def zincrby (args : List Bytes) (ctx : ShardCtx) : Reply × ShardCtx :=
  match args with
  | [_, key, deltaText, member] =>
    match env.parseF64 deltaText with
    | none => (.notFloat, ctx)
    | some delta =>
      let ctx := env.ensureLocal key ctx
      match ctx.zsetDelHlc key with
      | none => (.wrongtype, ctx)
      | some del =>
        let newscore := env.addF64 ((ctx.memberScore key member del).getD 0) delta
        if isNanScore newscore then (scoreIsNan, ctx)
        else (.double newscore, (ctx.ensureHead key .zset).writeMember key member newscore)
  | _ => (.wrongArgs "zincrby", ctx)

/-! ## ZREM and its relatives -/

/-- A bound of a score range: the score, and whether it is excluded. -/
def parseScoreBound (b : Bytes) : Option (UInt64 × Bool) :=
  match b with
  | 40 :: rest => (env.parseF64 rest).map (·, true)
  | _ => (env.parseF64 b).map (·, false)

def inRange (score : UInt64) (min max : UInt64 × Bool) : Bool :=
  (if min.2 then scoreLt min.1 score else scoreLe min.1 score) &&
    (if max.2 then scoreLt score max.1 else scoreLe score max.1)

/-- A bound of a member range: open to its side, or a member and whether it is excluded. -/
def parseLexBound (b : Bytes) (isMin : Bool) : Option (Option (Bytes × Bool)) :=
  if b = ascii "-" ∧ isMin then some none
  else if b = ascii "+" ∧ !isMin then some none
  else
    match b with
    | 40 :: rest => some (some (rest, true))
    | 91 :: rest => some (some (rest, false))
    | _ => none

def inLex (member : Bytes) (min max : Option (Bytes × Bool)) : Bool :=
  (match min with
    | none => true
    | some (b, excl) => if excl then compare b member = .lt else compare b member ≠ .gt) &&
  (match max with
    | none => true
    | some (b, excl) => if excl then compare member b = .lt else compare member b ≠ .gt)

/-- The items between two positions, both included; negative positions count from the end. -/
def sliceByIndex {α : Type} (all : List α) (start stop : Int) : List α :=
  let len : Int := all.length
  if len = 0 then []
  else
    let s := if start < 0 then max (len + start) 0 else min start len
    let e := if stop < 0 then len + stop else min stop (len - 1)
    if e < s ∨ len ≤ s then []
    else (all.drop s.toNat).take (max e 0 - s + 1).toNat

/-- Which members of a sorted set a command removes. -/
inductive ZsetChoice where
  | members (ms : List Bytes)
  | byScore (min max : UInt64 × Bool)
  | byRank (start stop : Int)
  | byLex (min max : Option (Bytes × Bool))

def ZsetChoice.victims (key : Bytes) (del : UInt64) (ctx : ShardCtx) : ZsetChoice → List Bytes
  | members ms => ms
  | byScore min max => ((ctx.scoredMembers key del).filter fun r => inRange r.1 min max).map Prod.snd
  | byRank start stop => (sliceByIndex (ctx.scoredMembers key del) start stop).map Prod.snd
  | byLex min max => ((ctx.scoredMembers key del).filter fun r => inLex r.2 min max).map Prod.snd

/-- Remove members one after the other, and count those that were there. -/
def ShardCtx.removeMembers (key : Bytes) (del : UInt64) (ctx : ShardCtx) (members : List Bytes) : ShardCtx × Nat :=
  members.foldl (fun s m => match s.1.removeMember key m del with
    | some ctx => (ctx, s.2 + 1)
    | none => s) (ctx, 0)

def removeChosen (key : Bytes) (choice : ZsetChoice) (ctx : ShardCtx) : Reply × ShardCtx :=
  match ctx.zsetDelHlc key with
  | none => (.wrongtype, ctx)
  | some del =>
    let (ctx, n) := ShardCtx.removeMembers key del ctx (choice.victims key del ctx)
    (.int (Int64.ofNat n), ctx)

/-- The commands that remove members. -/
inductive ZremCommand where
  | zrem
  | zremrangebyscore
  | zremrangebyrank
  | zremrangebylex
  deriving DecidableEq, Repr

namespace ZremCommand

def parseZrem : List Bytes → Except Reply (Bytes × ZsetChoice)
  | _ :: key :: m :: ms => .ok (key, .members (m :: ms))
  | _ => .error (.wrongArgs "zrem")

def parseZremrangebyscore : List Bytes → Except Reply (Bytes × ZsetChoice)
  | [_, key, a, b] =>
    match parseScoreBound env a, parseScoreBound env b with
    | some min, some max => .ok (key, .byScore min max)
    | _, _ => .error (.err (ascii "ERR min or max is not a float"))
  | _ => .error (.wrongArgs "zremrangebyscore")

def parseZremrangebyrank : List Bytes → Except Reply (Bytes × ZsetChoice)
  | [_, key, a, b] =>
    match readI64 a, readI64 b with
    | some start, some stop => .ok (key, .byRank start stop)
    | _, _ => .error .notInt
  | _ => .error (.wrongArgs "zremrangebyrank")

def parseZremrangebylex : List Bytes → Except Reply (Bytes × ZsetChoice)
  | [_, key, a, b] =>
    match parseLexBound a true, parseLexBound b false with
    | some min, some max => .ok (key, .byLex min max)
    | _, _ => .error .syntaxError
  | _ => .error (.wrongArgs "zremrangebylex")

def parse : ZremCommand → List Bytes → Except Reply (Bytes × ZsetChoice)
  | zrem => parseZrem
  | zremrangebyscore => parseZremrangebyscore env
  | zremrangebyrank => parseZremrangebyrank
  | zremrangebylex => parseZremrangebylex

def run (c : ZremCommand) (args : List Bytes) (ctx : ShardCtx) : Reply × ShardCtx :=
  match c.parse env args with
  | .error r => (r, ctx)
  | .ok (key, choice) => removeChosen key choice (env.ensureLocal key ctx)

end ZremCommand

end Marekvs
