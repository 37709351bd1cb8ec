import Marekvs.Engine.Scripts
import Marekvs.Engine.ReplyWrite

/-!
# A client's connection

Every command of a client comes through here: it is refused, queued for `EXEC`, or run, and its reply is appended to the
connection's buffer. Most commands answer with data, or with errors and status lines whose texts stand in the source. The others
put a text into such a line that they were given: a name, a path, what a script returned, the description of an error.
-/

namespace Marekvs

open Resp (ascii ReplyBuf Clean)

/-! ## Answers -/

/-- A reply whose error and status lines are texts of the source. -/
structure PlainReply where
  reply : Reply
  sound : reply.Sound
  clean : ∀ t ∈ reply.lines, Clean t

/-- The errors of the PROTO commands. -/
inductive ProtoErr where
  /-- the schema, or its version, is not there -/
  | noSchema (what : Bytes)
  | schema (what : Bytes)
  | validate (what : Bytes)
  /-- no type is given, and none is bound to the key -/
  | noBinding
  | path (what : Bytes)
  | wrongType
  /-- a text of its own -/
  | other (msg : Bytes)

namespace ProtoErr

def reply : ProtoErr → Reply
  | noSchema what => .err (ascii "NOSCHEMA " ++ what)
  | schema what => .err (ascii "SCHEMAERR " ++ what)
  | validate what => .err (ascii "PROTOVALIDATE " ++ what)
  | noBinding =>
    .err (ascii "NOBINDING no TYPE given and no prefix binding covers the key (PROTO.BIND a prefix or pass TYPE)")
  | path what => .err (ascii "PROTOPATH " ++ what)
  | wrongType => .wrongtype
  | other msg => .err msg

/-- The text that the error describes itself with. -/
def what : ProtoErr → Option Bytes
  | noSchema what | schema what | validate what | path what | other what => some what
  | noBinding | wrongType => none

end ProtoErr

/-- Why a path that is given to a JSON command is refused. -/
inductive JsonPathErr where
  | notUtf8
  /-- what the JSONPath library says of a path that starts with `$` -/
  | query (e : Bytes)
  /-- any other path, as it is given -/
  | syntaxError (s : Bytes)

namespace JsonPathErr

def reply : JsonPathErr → Reply
  | notUtf8 => .err (ascii "ERR path is not valid UTF-8")
  | query e => .err (ascii "ERR invalid JSONPath: " ++ e)
  | syntaxError s => .err (ascii "ERR invalid path '" ++ s ++ ascii "'")

def what : JsonPathErr → Option Bytes
  | notUtf8 => none
  | query what | syntaxError what => some what

end JsonPathErr

/-- What a script returns. A table is known by its fields `err` and `ok`, where they are texts, and by what stands at 1, 2, …
up to the first nil; a number is rounded towards zero. -/
inductive LuaValue where
  | nil
  | boolean (b : Bool)
  | integer (i : Int64)
  | number (truncated : Int64)
  | string (b : Bytes)
  | table (err ok : Option Bytes) (items : List LuaValue)
  | other

namespace LuaValue

mutual

def toReply : LuaValue → Reply
  | nil => .null
  | boolean true => .int 1
  | boolean false => .null
  | integer i => .int i
  | number n => .int n
  | string s => .bulk s
  | table err ok items =>
    match err.filter (· ≠ []) with
    | some e => .err e
    | none =>
      match ok.filter (· ≠ []) with
      | some s => .simple s
      | none => .array (toReplies items)
  | other => .null

def toReplies : List LuaValue → List Reply
  | [] => []
  | item :: items => item.toReply :: toReplies items

end

mutual

/-- The texts of the status and error replies in a value. -/
def statusTexts : LuaValue → List Bytes
  | table err ok items =>
    match err.filter (· ≠ []) with
    | some e => [e]
    | none =>
      match ok.filter (· ≠ []) with
      | some s => [s]
      | none => statusTextsOf items
  | _ => []

def statusTextsOf : List LuaValue → List Bytes
  | [] => []
  | item :: items => item.statusTexts ++ statusTextsOf items

end

mutual

/-- Every length fits its header. -/
def Fits : LuaValue → Prop
  | string b => b.length < 2 ^ 63
  | table _ _ items => items.length < 2 ^ 63 ∧ FitsAll items
  | _ => True

def FitsAll : List LuaValue → Prop
  | [] => True
  | item :: items => item.Fits ∧ FitsAll items

end

end LuaValue

/-- How an `EVAL` ends. -/
inductive ScriptEnd where
  /-- the arguments were refused, or no script was found -/
  | refused (r : PlainReply)
  | returned (v : LuaValue) (fits : v.Fits)
  | failed (msg : Bytes)

/-- The first line of a text; the carriage return before a line feed belongs to the line's end. -/
def firstLine (msg : Bytes) : Bytes :=
  if msg = [] then ascii "script error"
  else
    let line := msg.takeWhile (· ≠ 10)
    if line.length < msg.length ∧ line.getLast? = some 13 then line.dropLast else line

namespace ScriptEnd

def reply : ScriptEnd → Reply
  | refused r => r.reply
  | returned v _ => v.toReply
  | failed msg => .err (ascii "ERR Error running script: " ++ firstLine msg)

/-- The texts that a script, or its failure, brings into the reply. -/
def texts : ScriptEnd → List Bytes
  | refused _ => []
  | returned v _ => v.statusTexts
  | failed msg => [firstLine msg]

end ScriptEnd

/-! ## The engine behind the connection -/

/-- What the connection calls; `S` is the state of the engine. -/
structure Services (S : Type) where
  fmt : DoubleText
  /-- a text with everything replaced that is not UTF-8 -/
  lossy : Bytes → Bytes
  toUppercase : Bytes → Bytes
  toLowercase : Bytes → Bytes
  clean_lossy : ∀ t, Clean (lossy t) ↔ Clean t
  clean_toUppercase : ∀ t, Clean (toUppercase t) ↔ Clean t
  requirepass : S → Bytes
  writeStopped : S → Bool
  compactionStopped : S → Bool
  /-- a scan of the storage fails while the command runs -/
  scanFailed : List Bytes → S → Bool
  /-- the node knows the cluster's topology -/
  topology : S → Bool
  handler : Command → List Bytes → S → PlainReply × S
  proto : Command → List Bytes → S → Except ProtoErr PlainReply × S
  json : Command → List Bytes → S → Except JsonPathErr PlainReply × S
  script : Command → List Bytes → S → ScriptEnd × S
  /-- a parameter other than the log level -/
  setting : Bytes → Bytes → S → Except PlainReply S
  /-- the log filter, where one is installed -/
  logReload : Option (Bytes → S → Except Bytes S)
  /-- the frames of a subscription command -/
  subscribe : Command → List Bytes → S → Bytes × S

variable {S : Type} (sys : Services S)

namespace Services

def commandName (args : List Bytes) : Bytes := sys.toUppercase (sys.lossy (args.headD []))

def unknownCommand (args : List Bytes) : Reply :=
  .err (ascii "ERR unknown command '" ++ sys.lossy (args.headD []) ++ ascii "'")

/-- The commands that answer with frames of their own. -/
def isSubscription (args : List Bytes) : Bool :=
  sys.commandName args ∈ ["SUBSCRIBE", "UNSUBSCRIBE", "PSUBSCRIBE", "PUNSUBSCRIBE"].map ascii

end Services

/-! ### Subcommands -/

def subcommands : Command → Option (List String)
  | .client => some ["ID", "GETNAME", "SETNAME", "INFO", "LIST", "NO-EVICT", "NO-TOUCH", "SETINFO"]
  | .command => some ["COUNT", "LIST", "INFO", "DOCS", "GETKEYS", "GETKEYSANDFLAGS"]
  | .config => some ["GET", "SET", "RESETSTAT", "REWRITE"]
  | .cluster => some ["KEYSLOT", "MYID", "INFO", "SLOTS", "SHARDS", "NODES"]
  | .script => some ["LOAD", "EXISTS", "FLUSH"]
  | .protoSchema => some ["SET", "COMPILE", "GET", "LIST", "TYPES", "DEL"]
  | _ => none

/-- What stands before and after an unknown subcommand in the error. -/
def subcommandError : Command → String × String
  | .client => ("ERR CLIENT subcommand '", "' not supported")
  | .command => ("ERR Unknown COMMAND subcommand or wrong number of arguments for '", "'")
  | .config => ("ERR CONFIG subcommand '", "' not supported")
  | .cluster => ("ERR Unknown CLUSTER subcommand or wrong number of arguments for '", "'")
  | .script => ("ERR Unknown SCRIPT subcommand '", "'")
  | .protoSchema => ("ERR Unknown PROTO.SCHEMA subcommand '", "'")
  | _ => ("", "")

def asciiUpper (b : UInt8) : UInt8 := if 97 ≤ b ∧ b ≤ 122 then b - 32 else b

namespace Services

def subName (c : Command) (sub : Bytes) : Bytes :=
  if c = .cluster then (sys.lossy sub).map asciiUpper else sys.toUppercase (sys.lossy sub)

/-- The subcommand, where the command does not know it. Without a topology `CLUSTER` looks no further. -/
def unknownSub (c : Command) (args : List Bytes) (s : S) : Option Bytes :=
  match subcommands c with
  | none => none
  | some known =>
    if c = .cluster ∧ !sys.topology s then none
    else args[1]?.filter fun sub => sys.subName c sub ∉ known.map ascii

def subError (c : Command) (sub : Bytes) : Reply :=
  let shown := if c = .cluster then sys.lossy sub else sys.subName c sub
  .err (ascii (subcommandError c).1 ++ shown ++ ascii (subcommandError c).2)

/-! ### Parameters -/

/-- Why `CONFIG SET` stopped. -/
inductive SettingError where
  | plain (r : PlainReply)
  | noHook
  | loglevel (e : Bytes)

def SettingError.reply : SettingError → Reply
  | plain r => r.reply
  | noHook => .err (ascii "ERR loglevel is not reloadable in this build (no tracing hook installed)")
  | loglevel e => .err (ascii "ERR CONFIG SET loglevel failed - " ++ e)

/-- The log filter's directives for a level of Redis. -/
def loglevelToFilter (level : Bytes) : Bytes :=
  let lower := level.map asciiLower
  if lower = ascii "nothing" then ascii "off"
  else if lower = ascii "warning" then ascii "warn"
  else if lower = ascii "notice" then ascii "info"
  else if lower = ascii "verbose" then ascii "debug"
  else if lower = ascii "debug" then ascii "trace"
  else lower

/-- Parameters and values in turn. What was set before an error stays set. -/
def configSet : List Bytes → S → Option SettingError × S
  | key :: val :: rest, s =>
    if sys.toLowercase (sys.lossy key) = ascii "loglevel" then
      match sys.logReload with
      | none => (some .noHook, s)
      | some hook =>
        match hook (loglevelToFilter (sys.lossy val)) s with
        | .error e => (some (.loglevel e), s)
        | .ok s => configSet rest s
    else
      match sys.setting key val s with
      | .error r => (some (.plain r), s)
      | .ok s => configSet rest s
  | _, s => (none, s)

/-- The parameters and values of a `CONFIG SET` with the right number of arguments. -/
def settings (args : List Bytes) : Option (List Bytes) :=
  if (args[1]?.map (sys.subName .config)) = some (ascii "SET") ∧ 4 ≤ args.length ∧ args.length % 2 = 0 then
    some (args.drop 2)
  else none

end Services

/-! ## The connection -/

/-- The commands queued since `MULTI`. -/
structure Queue where
  cmds : List (List Bytes)
  plain : ∀ args ∈ cmds, sys.isSubscription args = false

namespace Queue

variable {sys}

def empty : Queue sys := ⟨[], nofun⟩

def push (q : Queue sys) (args : List Bytes) (h : sys.isSubscription args = false) : Queue sys :=
  ⟨q.cmds ++ [args], fun a ha => (List.mem_append.1 ha).elim (q.plain a) fun ha => List.mem_singleton.1 ha ▸ h⟩

end Queue

structure Conn where
  id : Int64
  authenticated : Bool
  resp3 : Bool
  /-- what was queued, and whether a command was refused meanwhile -/
  multi : Option (Queue sys × Bool)
  engine : S
  out : ReplyBuf

namespace Conn

variable {sys}

def wrongPass : Reply := .err (ascii "WRONGPASS invalid username-password pair or user is disabled.")

/-- The options of `HELLO`: what was read before an error stays in force. -/
def helloOptions : List Bytes → Conn sys → Option Reply × Conn sys
  | [], conn => (none, conn)
  | word :: rest, conn =>
    if eqIgnoreCase word "AUTH" then
      match rest with
      | _user :: pass :: rest =>
        if sys.requirepass conn.engine ≠ [] ∧ pass ≠ sys.requirepass conn.engine then (some wrongPass, conn)
        else helloOptions rest { conn with authenticated := true }
      | _ => (some .syntaxError, conn)
    else if eqIgnoreCase word "SETNAME" then
      match rest with
      | _name :: rest => helloOptions rest conn
      | [] => (none, conn)
    else (some .syntaxError, conn)

def helloReply (resp3 : Bool) (id : Int64) : Reply :=
  .map
    [(.bulk (ascii "server"), .bulk (ascii "marekvs")),
     (.bulk (ascii "version"), .bulk (ascii "0.3.6")),
     (.bulk (ascii "proto"), .int (if resp3 then 3 else 2)),
     (.bulk (ascii "id"), .int id),
     (.bulk (ascii "mode"), .bulk (ascii "cluster")),
     (.bulk (ascii "role"), .bulk (ascii "master")),
     (.bulk (ascii "modules"), .array [])]

/-- `HELLO` once its version is read: the buffer follows the connection's version only where all went well. -/
def helloFrom (options : List Bytes) (conn : Conn sys) : Reply × Conn sys :=
  match helloOptions options conn with
  | (some r, conn) => (r, conn)
  | (none, conn) =>
    if sys.requirepass conn.engine ≠ [] ∧ !conn.authenticated then
      (.err (ascii "NOAUTH HELLO must be called with the client already authenticated"), conn)
    else (helloReply conn.resp3 conn.id, { conn with out := { conn.out with resp3 := conn.resp3 } })

variable (args : List Bytes) (conn : Conn sys)

def hello : Reply × Conn sys :=
  match args[1]? with
  | none => helloFrom [] conn
  | some ver =>
    if readU64 ver = some 2 then helloFrom (args.drop 2) { conn with resp3 := false }
    else if readU64 ver = some 3 then helloFrom (args.drop 2) { conn with resp3 := true }
    else (.err (ascii "NOPROTO unsupported protocol version"), conn)

/-- `AUTH` with its password. -/
def authWith (pass : Bytes) (conn : Conn sys) : Reply × Conn sys :=
  if sys.requirepass conn.engine = [] then (.err (ascii "ERR Client sent AUTH, but no password is set."), conn)
  else if pass = sys.requirepass conn.engine then (.ok, { conn with authenticated := true })
  else (wrongPass, conn)

def auth : Reply × Conn sys :=
  match args with
  | [_, pass] => authWith pass conn
  | [_, _user, pass] => authWith pass conn
  | _ => (.wrongArgs "auth", conn)

def reset : Reply × Conn sys :=
  (.simple (ascii "RESET"), { conn with resp3 := false, authenticated := sys.requirepass conn.engine = [] })

def scanMisconf : Reply :=
  .err (ascii ("MISCONF a storage scan did not complete, so this reply would be based on a partial view " ++
  "of the data; retry (see marekvs_scan_errors_total)"))

/-- A reply with the engine's new state. -/
def answer (x : Reply × S) : Option (Reply × Conn sys) := some (x.1, { conn with engine := x.2 })

/-- The handler of a command: the reply and the connection afterwards; nothing where the process ends. -/
def serve (c : Command) (args : List Bytes) (conn : Conn sys) : Option (Reply × Conn sys) :=
  match sys.unknownSub c args conn.engine with
  | some sub => some (sys.subError c sub, conn)
  | none =>
    match c with
    | .hello => some (hello args conn)
    | .auth => some (auth args conn)
    | .reset => some (reset conn)
    | .shutdown => none
    | .subscribe | .unsubscribe | .psubscribe | .punsubscribe =>
      let (bytes, s) := sys.subscribe c args conn.engine
      some (.none, { conn with engine := s, out := conn.out.extend bytes })
    | .config =>
      match sys.settings args with
      | some params =>
        let (stopped, s) := sys.configSet params conn.engine
        conn.answer (stopped.elim .ok Services.SettingError.reply, s)
      | none => let (r, s) := sys.handler c args conn.engine; conn.answer (r.reply, s)
    | .eval | .evalsha => let (e, s) := sys.script c args conn.engine; conn.answer (e.reply, s)
    | c =>
      if c.isProto then
        match sys.proto c args conn.engine with
        | (.ok r, s) => conn.answer (r.reply, s)
        | (.error e, s) => conn.answer (e.reply, s)
      else if c.isJson then
        match sys.json c args conn.engine with
        | (.ok r, s) => conn.answer (r.reply, s)
        | (.error e, s) => conn.answer (e.reply, s)
      else let (r, s) := sys.handler c args conn.engine; conn.answer (r.reply, s)

/-- A command: what may stop it, its handler, and the check that no scan failed meanwhile. -/
def command : Option (Reply × Conn sys) :=
  let fence (r : Reply) : Reply := if sys.scanFailed args conn.engine then scanMisconf else r
  match Command.find (sys.commandName args) with
  | none => some (fence (sys.unknownCommand args), conn)
  | some c =>
    match c.guardCommand args with
    | some r => some (r, conn)
    | none =>
      if c.isWriteCommand ∧ sys.writeStopped conn.engine then some (diskMisconf, conn)
      else if c.isWriteCommand ∧ sys.compactionStopped conn.engine then some (compactionMisconf, conn)
      else (serve c args conn).map fun (r, conn) => (fence r, conn)

/-- A command with its reply written. -/
def written (args : List Bytes) : Option (Conn sys) :=
  (command args conn).map fun (r, conn) => { conn with out := r.write sys.fmt conn.out }

/-- What becomes of a command. -/
inductive Route (sys : Services S) where
  /-- a fixed answer -/
  | fixed (r : Reply) (conn : Conn sys)
  | run (conn : Conn sys)
  | exec (q : Queue sys) (conn : Conn sys)

def route : Route sys :=
  let name := sys.commandName args
  if !conn.authenticated ∧ name ∉ ["AUTH", "HELLO", "QUIT", "RESET"].map ascii then
    .fixed (.err (ascii "NOAUTH Authentication required.")) conn
  else if name = ascii "MULTI" then
    match conn.multi with
    | some _ => .fixed (.err (ascii "ERR MULTI calls can not be nested")) conn
    | none => .fixed .ok { conn with multi := some (Queue.empty, false) }
  else if name = ascii "DISCARD" then
    match conn.multi with
    | some _ => .fixed .ok { conn with multi := none }
    | none => .fixed (.err (ascii "ERR DISCARD without MULTI")) conn
  else if name = ascii "WATCH" ∨ name = ascii "UNWATCH" then
    .fixed (.err (ascii "ERR WATCH is not supported (marekvs is AP; no transactional CAS)")) conn
  else if name = ascii "EXEC" then
    match conn.multi with
    | none => .fixed (.err (ascii "ERR EXEC without MULTI")) conn
    | some (_, true) =>
      .fixed (.err (ascii "EXECABORT Transaction discarded because of previous errors.")) { conn with multi := none }
    | some (q, false) => .exec q { conn with multi := none }
  else
    match conn.multi with
    | none => .run conn
    | some (q, aborted) =>
      -- the frames of subscriptions have no place inside the reply of EXEC
      if h : sys.isSubscription args = false ∧ name ≠ ascii "RESET" then
        .fixed (.simple (ascii "QUEUED")) { conn with multi := some (q.push args h.1, aborted) }
      else .fixed (.err (ascii "ERR " ++ name ++ ascii " is not allowed in transactions")) { conn with multi := some (q, true) }

/-- The buffer with the header of the replies of `EXEC`. -/
def headed (q : Queue sys) : Conn sys := { conn with out := conn.out.array q.cmds.length }

def dispatch : Option (Conn sys) :=
  if args = [] then some conn
  else
    match route args conn with
    | .fixed r conn => some { conn with out := r.write sys.fmt conn.out }
    | .run conn => conn.written args
    | .exec q conn => q.cmds.foldlM written (conn.headed q)

end Conn

end Marekvs
