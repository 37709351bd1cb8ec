import Marekvs.Engine.Handlers

/-!
# Commands from scripts

A script declares its keys, which must lie in one partition, and runs as one job on the shard of that partition. A command it
calls must be one that scripts may call, the keys among its arguments, as far as the command table knows them, must be declared,
and then its handler is polled once. A handler that does not come back at once is dropped and reported as suspended.
-/

namespace Marekvs

open Machine (Fault ISIZE_MAX)

open Resp (ascii)

namespace Command

/-- Names that start with `PROTO.`. -/
def isProto : Command → Bool
  | protoSchema | protoBind | protoUnbind | protoBindings | protoSet | protoGet | protoInfo | protoGetjson | protoSetjson
  | protoGetfield | protoSetfield | protoClearfield | protoHset | protoSadd | protoHgetjson | protoHgetfield => true
  | _ => false

/-- Names that start with `JSON.`. -/
def isJson : Command → Bool
  | jsonSet | jsonGet | jsonMget | jsonMset | jsonDel | jsonForget | jsonType | jsonNumincrby | jsonNummultby
  | jsonStrappend | jsonStrlen | jsonArrappend | jsonArrindex | jsonArrinsert | jsonArrlen | jsonArrpop | jsonArrtrim
  | jsonObjkeys | jsonObjlen | jsonToggle | jsonClear | jsonMerge | jsonResp | jsonDebug => true
  | _ => false

/-- Names that start with `DIFF.`. -/
def isDiff : Command → Bool
  | diffSnapshot | diffFork | diffCompare | diffHash | diffStats | diffImport | diffDecide | diffDecisions | diffApply
  | diffMerge3 => true
  | _ => false

/-- The commands that scripts may call: those of the pipeline, except the ones that start tasks of their own. -/
def scriptSafe (c : Command) : Bool :=
  if c = mset ∨ c = mget ∨ c = subscribe ∨ c = eval ∨ c = evalsha ∨ c = script then false
  else if c.isProto ∨ c.isDiff then false
  else c.parallelSafe || c = ping || c = echo || c = time

/-- Refuse a command that would write a key of the DIFF commands, before it writes anything. -/
def guardCommand (c : Command) (args : List Bytes) : Option Reply :=
  let guard (keys : List Bytes) : Option Reply := if keys.any isImmutableKey then some diffImmutable else none
  let counted (place : Nat) : Option Reply :=
    guard ((args.drop (place + 1)).take (((args[place]?.bind readU64).map Int.toNat).getD 0))
  if !c.isWriteCommand ∨ c.isDiff ∨ c = eval ∨ c = evalsha ∨ c = flushdb ∨ c = flushall then none
  else
    match c with
    | copy => guard args[2]?.toList
    | sunionstore | sinterstore | sdiffstore | zunionstore | zinterstore | zdiffstore | zrangestore | pfmerge =>
      guard args[1]?.toList
    | lmpop | zmpop => counted 1
    | blmpop | bzmpop => counted 2
    | c => guard (c.extractKeys args)

end Command

/-- What a script's commands meet outside the modelled code. -/
structure ScriptEnv where
  env : Env
  /-- the shard of a partition -/
  shardOf : Pid → Nat
  /-- a text with everything replaced that is not UTF-8 -/
  lossy : Bytes → Bytes
  toUppercase : Bytes → Bytes
  /-- what the answer to a fetch does to the records of a key, when it comes -/
  answer : Bytes → ShardCtx → ShardCtx

/-- The handlers of the other commands that scripts may call. Each works on the keys at the command's places. -/
structure Handlers where
  handler : Command → List Bytes → Handler
  within : ∀ c args, c.scriptSafe = true → c.movable = false → (handler c args).Within (· ∈ c.places.keys args)

/-- The records by user key, and the two flags that stop writes. -/
structure ScriptNode where
  host : Host Bytes ShardCtx
  writeStopped : Bool
  compactionStopped : Bool

def diskMisconf : Reply := .err (ascii ("MISCONF disk usage above high-water mark; write commands are rejected " ++
  "until space is freed (see marekvs_disk_* metrics)"))

def compactionMisconf : Reply := .err (ascii ("MISCONF compaction backlog above high-water mark; write commands are " ++
  "rejected until compaction catches up (see marekvs_db_compaction_debt_bytes)"))

def handlerOf (sys : ScriptEnv) (others : Handlers) (c : Command) (args : List Bytes) : Handler :=
  match c with
  | .lmpop => Handler.lmpop args
  | .zmpop => Handler.zmpop args
  | .sintercard => Handler.sintercard args
  | .zintercard => Handler.zintercard args
  | .zunion => Handler.zsetop sys.env args .union false
  | .zinter => Handler.zsetop sys.env args .inter false
  | .zdiff => Handler.zsetop sys.env args .diff false
  | .zunionstore => Handler.zsetop sys.env args .union true
  | .zinterstore => Handler.zsetop sys.env args .inter true
  | .zdiffstore => Handler.zsetop sys.env args .diff true
  | .xread => Handler.xread args
  | .xinfo => Handler.xinfo args
  | c => others.handler c args

/-- A command, as long as nothing forbids it. -/
def dispatch (sys : ScriptEnv) (others : Handlers) (node : ScriptNode) (c : Command) (args : List Bytes) : Handler :=
  match c.guardCommand args with
  | some r => .reply r
  | none =>
    if c.isWriteCommand ∧ node.writeStopped then .reply diskMisconf
    else if c.isWriteCommand ∧ node.compactionStopped then .reply compactionMisconf
    else handlerOf sys others c args

def notAllowed (name : Bytes) : Reply := .err (ascii "ERR command '" ++ name ++ ascii "' is not allowed from scripts")

def undeclaredKey (key : Bytes) : Reply :=
  .err (ascii "ERR script accessed undeclared key '" ++ key ++ ascii "' " ++ [0xE2, 0x80, 0x94] ++ ascii " declare it in KEYS")

def suspended : Reply :=
  .err (ascii "ERR command suspended inside script (key on another shard, remote fetch, or blocking op) " ++
    [0xE2, 0x80, 0x94] ++ ascii " co-locate keys with hash tags \x7b...\x7d")

/-- The partition of a script; nothing where its keys lie in several. -/
def scriptPid : List Bytes → Option Pid
  | [] => some 0
  | key :: keys => if keys.all fun k => pidOf k = pidOf key then some (pidOf key) else none

def calledCommand (sys : ScriptEnv) (argv : List Bytes) : Option Command :=
  argv.head?.bind fun name => Command.find (sys.toUppercase (sys.lossy name))

/-- One call from a script that runs in partition `pid`: the reply or a fault, and the records afterwards. -/
def bridgeCall (sys : ScriptEnv) (others : Handlers) (pid : Pid) (declared argv : List Bytes) (node : ScriptNode) :
    Except Fault Reply × Host Bytes ShardCtx :=
  match argv with
  | [] => (.ok (.err (ascii "ERR wrong number of arguments")), node.host)
  | name :: _ =>
    let upper := sys.toUppercase (sys.lossy name)
    match (Command.find upper).filter Command.scriptSafe with
    | none => (.ok (notAllowed upper), node.host)
    | some c =>
      match (c.extractKeys argv).find? (· ∉ declared) with
      | some key => (.ok (undeclaredKey (sys.lossy key)), node.host)
      | none =>
        let polled := (dispatch sys others node c argv).poll (fun k => sys.shardOf (pidOf k) =
          sys.shardOf pid) sys.answer node.host
        (polled.1.getD (.ok suspended), polled.2)

/-! ## Keys behind a number or a word -/

def understood {α : Type} (x : Except Fault (Except Reply α)) (keys : α → List Bytes) : List Bytes :=
  match x with
  | .ok (.ok a) => keys a
  | _ => []

/-- The keys that the arguments of a command name behind a number or a word, if the command understands them. Where ZMPOP takes
more from the high end than fits in memory, it fails at its first key. -/
def namedKeys (env : Env) (c : Command) (args : List Bytes) : List Bytes :=
  let zsetop (storeDst : Bool) : List Bytes :=
    if args.length < (if storeDst then 4 else 3) then []
    else understood (parseZsetop env args storeDst (if storeDst then 2 else 1)) fun p =>
      if ISIZE_MAX < p.1.length * SIZE_OF_HASH_MAP then [] else p.1 ++ (if storeDst then [args.getD 1 []] else [])
  match c with
  | .lmpop => if args.length < 4 then [] else understood (parseLmpopTail args 1) fun p => p.1
  | .zmpop =>
    if args.length < 4 then []
    else understood (parseZmpopTail args 1) fun p =>
      if p.2.1 ∧ ISIZE_MAX < (p.2.2 + 1) * SIZE_OF_SCORED then p.1.take 1 else p.1
  | .sintercard => if args.length < 3 then [] else understood (parseSintercard args) fun p => p.1
  | .zintercard => if args.length < 3 then [] else understood (parseZintercard args) fun p => p.1
  | .zunion | .zinter | .zdiff => zsetop false
  | .zunionstore | .zinterstore | .zdiffstore => zsetop true
  | .xread => understood (.ok (parseXread args)) fun p => p.2.map Prod.fst
  | .xinfo => understood (.ok (parseXinfo args)) fun key => [key]
  | _ => []

/-! ## Whole scripts -/

/-- What a script does, call by call: it goes on with the reply. -/
inductive Script where
  | finish (r : Reply)
  | call (argv : List Bytes) (next : Reply → Script)

/-- Run a script; a fault ends it. -/
def Script.run (sys : ScriptEnv) (others : Handlers) (pid : Pid) (declared : List Bytes) :
    Script → ScriptNode → Except Fault Reply × ScriptNode
  | .finish r, node => (.ok r, node)
  | .call argv next, node =>
    match bridgeCall sys others pid declared argv node with
    | (.ok r, host) => (next r).run sys others pid declared { node with host := host }
    | (.error f, host) => (.error f, { node with host := host })

end Marekvs
