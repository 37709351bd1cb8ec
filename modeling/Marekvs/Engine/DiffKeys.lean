import Marekvs.Engine.Registry

/-!
# The keys of the DIFF commands

Documents, snapshots, graphs, decisions and results live under keys of a fixed grammar. Snapshots, graphs and results never
change: a client's command that would write one is refused before its handler starts. The fence looks at the arguments, at the
places that the command table gives or at places of its own. What the handlers write stands here too.
-/

namespace Marekvs

open Machine (Fault)

open Resp (ascii)

/-! ## The grammar -/

/-- What stands before and behind the first occurrence of `pat`. -/
def splitOnce (pat : Bytes) : Bytes → Option (Bytes × Bytes)
  | [] => if pat = [] then some ([], []) else none
  | b :: bs =>
    if pat.isPrefixOf (b :: bs) then some ([], (b :: bs).drop pat.length)
    else (splitOnce pat bs).map fun p => (b :: p.1, p.2)

inductive DiffKey where
  | branch (tag name : Bytes)
  | snapshot (tag name : Bytes)
  | graph (tag name : Bytes)
  | decision (tag name : Bytes)
  | result (tag name : Bytes)
  deriving DecidableEq, Repr

namespace DiffKey

def malformed : Reply := .err (ascii "DIFFKEY malformed DIFF key")

def isBrace (b : UInt8) : Bool := b = 123 || b = 125

/-- A digit, or a letter from a to f. -/
def isHex (b : UInt8) : Bool := (48 ≤ b && b ≤ 57) || (97 ≤ b && b ≤ 102)

/-- The key of a DIFF command. Keys of kinds `s`, `g` and `d` are named by a digest. -/
def parse (isUtf8 : Bytes → Bool) (key : Bytes) : Except Reply DiffKey :=
  if !isUtf8 key then .error malformed
  else
    match splitOnce (ascii ":\x7b") key with
    | none => .error malformed
    | some (family, tail) =>
      match splitOnce (ascii "\x7d:") tail with
      | none => .error malformed
      | some (tag, tail) =>
        match splitOnce (ascii ":") tail with
        | none => .error malformed
        | some (kind, name) =>
          if tag = [] ∨ name = [] ∨ tag.any isBrace ∨ tail.any isBrace then .error malformed
          else if (kind = ascii "s" ∨ kind = ascii "g" ∨ kind = ascii "d") ∧ (name.length ≠ 32 ∨ !name.all isHex) then
            .error malformed
          else if family = ascii "doc" ∧ kind = ascii "b" then .ok (.branch tag name)
          else if family = ascii "doc" ∧ kind = ascii "s" then .ok (.snapshot tag name)
          else if family = ascii "diff" ∧ kind = ascii "g" then .ok (.graph tag name)
          else if family = ascii "diff" ∧ kind = ascii "d" then .ok (.decision tag name)
          else if family = ascii "diff" ∧ kind = ascii "r" then .ok (.result tag name)
          else .error malformed

/-- Keys whose records never change. -/
def immutable : DiffKey → Bool
  | snapshot _ _ | graph _ _ | result _ _ => true
  | branch _ _ | decision _ _ => false

end DiffKey

/-! ## What the handlers write -/

namespace Command

/-- The commands that a client may not use against immutable keys: all but the DIFF commands and the flushes. -/
def fenced (c : Command) : Bool := !(c.isDiff || c = flushall || c = flushdb)

def runsScript (c : Command) : Bool := c = eval || c = evalsha

/-- The places of the keys that a handler writes, where they are the places of its keys, handler by handler. -/
def writePlaces : Command → KeyPlaces
  | set | setnx | setex | psetex | getset | getdel | getex | append | incr | decr | incrby | decrby | incrbyfloat | setrange
  | expire | pexpire | expireat | pexpireat | expiremember | expirememberat | pexpirememberat | persist | pfadd
  | hset | hmset | hsetnx | hdel | hgetdel | hexpire | hpexpire | hexpireat | hpexpireat | hpersist | hgetex | hsetex | hincrby
  | hincrbyfloat | sadd | srem | spop | zadd | zincrby | zrem | zpopmin | zpopmax | zremrangebyscore | zremrangebyrank
  | zremrangebylex | lpush | rpush | lpushx | rpushx | lpop | rpop | lset | lrem | ltrim | linsert | xadd | xdel | xtrim | xsetid
  | bgCreate | bgTopup | bgReserve | bgCommit | bgRelease | bgDraw | bgReclaim | jsonSet | jsonDel | jsonForget | jsonNumincrby
  | jsonNummultby | jsonStrappend | jsonArrappend | jsonArrinsert | jsonArrpop | jsonArrtrim | jsonToggle | jsonClear | jsonMerge
  | protoSet | protoSetjson | protoSetfield | protoClearfield | protoHset | protoSadd => .first
  | rename | renamenx | smove | lmove | rpoplpush | blmove | brpoplpush => .firstTwo
  | del | unlink => .everywhere
  | mset | msetnx => .pairs
  | jsonMset => .triples
  | bzpopmin | bzpopmax | blpop | brpop => .allButLast
  -- the others read, or write hidden records: scripts, schemas, the table of bindings
  | _ => .nowhere

/-- The keys that a handler writes. COPY and the commands that store a result only read their sources; the multiple pops write any
of the keys behind their number. -/
def writeKeys (c : Command) (args : List Bytes) : List Bytes :=
  match c with
  | copy => args[2]?.toList
  | sunionstore | sinterstore | sdiffstore | zunionstore | zinterstore | zdiffstore | zrangestore | pfmerge => args[1]?.toList
  | lmpop => understood (parseLmpopTail args 1) fun p => p.1
  | blmpop => understood (parseLmpopTail args 2) fun p => p.1
  | zmpop => understood (parseZmpopTail args 1) fun p => p.1
  | bzmpop => understood (parseZmpopTail args 2) fun p => p.1
  | c => c.writePlaces.keys args

end Command

/-- The hidden records of scripts, schemas and bindings. -/
def isSystemKey (key : Bytes) : Bool := (0 :: ascii "script:").isPrefixOf key || Proto.isHidden key

/-- The handlers of all commands that are not written out. Each writes the keys of its command and hidden records. -/
structure NodeHandlers extends Handlers where
  writes : ∀ c args, c.fenced = true → c.runsScript = false →
    (handler c args).Uses (fun k => k ∈ c.writeKeys args ∨ isSystemKey k = true) fun _ => True

namespace Handler

/-- The rounds of a blocking command: again and again until one finds something, or the deadline has passed. -/
def rounds (round : Handler) : Nat → Handler
  | 0 => reply .nullArray
  | n + 1 => round.bind fun
    | .ok .nullArray => rounds round n
    | other => .done other

def blmpop (env : Env) (args : List Bytes) : Handler :=
  if args.length < 5 then reply (.wrongArgs "blmpop")
  else if !args[1]?.any env.isTimeout then reply badTimeout
  else parsed (parseLmpopTail args 2) fun p => rounds (lmpopInner p.2.1 p.2.2 p.1) (env.polls + 1)

def bzmpop (env : Env) (args : List Bytes) : Handler :=
  if args.length < 5 then reply (.wrongArgs "bzmpop")
  else if !args[1]?.any env.isTimeout then reply badTimeout
  else parsed (parseZmpopTail args 2) fun p => rounds (zmpopInner p.2.1 p.2.2 p.1) (env.polls + 1)

end Handler

def handlerFor (sys : ScriptEnv) (hs : NodeHandlers) (c : Command) (args : List Bytes) : Handler :=
  match c with
  | .blmpop => Handler.blmpop sys.env args
  | .bzmpop => Handler.bzmpop sys.env args
  | c => handlerOf sys hs.toHandlers c args

/-! ## The engine as handlers -/

/-- The engine behind a connection keeps the records by user key, and what it does to them is what the handlers do. A script's
declared keys are fetched before it starts, and what its calls left in the queues is worked off after it. -/
structure Recorded {S : Type} (svc : Services S) (sys : ScriptEnv) (hs : NodeHandlers) where
  records : S → Bytes → ShardCtx
  handler : ∀ c args s, c.fenced = true → c.runsScript = false → c.isProto = false → c.isJson = false →
    records (svc.handler c args s).2 = ((handlerFor sys hs c args).complete sys.answer (records s)).2
  proto : ∀ c args s, c.isProto = true →
    records (svc.proto c args s).2 = ((handlerFor sys hs c args).complete sys.answer (records s)).2
  json : ∀ c args s, c.isJson = true →
    records (svc.json c args s).2 = ((handlerFor sys hs c args).complete sys.answer (records s)).2
  script : ∀ c args s, c.runsScript = true → ∃ (prog : Script) (pid : Pid) (declared : List Bytes) (node : ScriptNode),
    node.host.queue = [] ∧ (∀ k, Routine.Fetched sys.answer k (records s k) (node.host.state k)) ∧
      records (svc.script c args s).2 = (prog.run sys hs.toHandlers pid declared node).2.host.drain.state
  setting : ∀ key val s s', svc.setting key val s = .ok s' → records s' = records s
  logReload : ∀ hook, svc.logReload = some hook → ∀ filter s s', hook filter s = .ok s' → records s' = records s
  subscribe : ∀ c args s, records (svc.subscribe c args s).2 = records s

namespace Conn

variable {S : Type} {svc : Services S}

/-- Command after command on one connection; nothing where the process ends. -/
def session (conn : Conn svc) (cmds : List (List Bytes)) : Option (Conn svc) :=
  cmds.foldlM (fun conn args => conn.dispatch args) conn

end Conn

end Marekvs
