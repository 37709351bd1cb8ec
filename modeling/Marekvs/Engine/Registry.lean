import Marekvs.Lib.Strand
import Marekvs.Engine.Connection

/-!
# Types of typed values

A table of bindings binds prefixes of keys to message types. A command that writes a typed value takes its type from a `TYPE`
argument, or else from the longest bound prefix of its key. It reads a copy of the table that the node keeps for a while: BIND and
UNBIND write the table and then drop the copy, and a look-up that finds no fresh copy puts it back in a step of its own.

A command is a strand over the node. The cache of compiled pools is left out: a version's record never changes.
-/

namespace Marekvs

open Machine (Fault)

open Resp (ascii)

open Std (ExtTreeMap)

namespace Proto

/-! ## Records -/

/-- A version of a schema: its descriptors, and the types it defines. -/
structure SchemaRecord where
  version : Nat
  fds : Bytes
  types : List Bytes

/-- The type that a prefix is bound to; version 0 is the latest one. -/
structure BindingRecord where
  schema : Bytes
  version : Nat
  typeName : Bytes
  deriving DecidableEq, Repr

/-- The node's copy of the table, the longest prefix first. -/
structure BindCache where
  loadedMs : UInt64
  entries : List (Bytes × BindingRecord)

/-- A type with its descriptor. -/
structure ResolvedType (D : Type) where
  schema : Bytes
  version : Nat
  typeName : Bytes
  desc : D

/-- The first bytes of the hidden keys. -/
def SYS : Bytes := 0 :: ascii "proto:"

def SYS_IDX_KEY : Bytes := SYS ++ ascii "idx"

def isHidden (key : Bytes) : Bool := SYS.isPrefixOf key

def latestKey (name : Bytes) : Bytes := SYS ++ (ascii "s:" ++ name)

def hexDigit (n : Nat) : UInt8 := if n < 10 then (48 + n).toUInt8 else (87 + n).toUInt8

def versionKey (name : Bytes) (version : Nat) : Bytes :=
  SYS ++ (ascii "v:" ++ name ++ ascii ":" ++ (List.range 8).reverse.map fun i => hexDigit (version / 16 ^ i % 16))

/-- Options of PROTO.SET and PROTO.SETJSON. -/
structure SetOpts where
  typeName : Option Bytes
  nx : Bool
  xx : Bool
  keepttl : Bool
  /-- the deadline -/
  ttl : Option UInt64

/-- What PROTO.SETFIELD and PROTO.CLEARFIELD do. -/
inductive FieldOp where
  | set (ops : List (List Bytes × Bytes))
  | clear (paths : List (List Bytes))

/-- What the PROTO commands meet outside the modelled code: the records of the registry as they decode, compiled pools `P`,
descriptors `D` and messages `M`, and the jobs that write a value. -/
structure Services (P D M : Type) where
  isUtf8 : Bytes → Bool
  /-- the names of the schemas with their latest versions -/
  schemaIndex : ShardCtx → List (Bytes × Nat)
  /-- the schema record under a hidden key, or why it does not decode -/
  schemaRecord : Bytes → ShardCtx → Option (Except Bytes SchemaRecord)
  poolFromFds : Bytes → Except ProtoErr P
  getMessage : P → Bytes → Option D
  decode : D → Bytes → Except Bytes M
  deserialize : D → Bytes → Except Bytes M
  encodedLen : M → Nat
  maxValue : Nat
  parsePath : Bytes → Except ProtoErr (List Bytes)
  /-- the job that writes a value -/
  putValue : Bytes → M → SetOpts → Bytes × Nat × Bytes → ShardCtx → ShardCtx × Reply
  /-- the type of the stored value -/
  identity : Bytes → ShardCtx → Except Reply BindingRecord
  /-- the job that changes fields; nothing where the value has another type by now -/
  putFields : Bytes → FieldOp → BindingRecord → D → ShardCtx → ShardCtx × Option Reply
  bindTtlMs : UInt64

variable {P D M : Type} (sys : Services P D M)

/-! ## Reading the registry -/

/-- What is read from the registry. -/
abbrev Lookup (α : Type) : Type := Routine Bytes ShardCtx (Except ProtoErr α)

namespace Lookup

variable {α β : Type}

/-- Go on with what was found. -/
def andThen (t : Lookup α) (f : α → Lookup β) : Lookup β :=
  t.bind fun
    | .ok a => f a
    | .error e => .done (.error e)

def read (key : Bytes) (f : ShardCtx → Lookup α) : Lookup α := .fetch key <| .job key id f

end Lookup

def decimal (n : Nat) : Bytes := ascii (toString n)

def loadSchema (name : Bytes) (version : Nat) : Lookup SchemaRecord :=
  let key := if version = 0 then latestKey name else versionKey name version
  .read key fun ctx => .done <|
    match sys.schemaRecord key ctx with
    | none => .error (.noSchema (ascii "no schema '" ++ name ++ ascii "'" ++
        if version = 0 then [] else ascii " version " ++ decimal version))
    | some (.error e) => .error (.other (ascii "ERR corrupt schema record for '" ++ name ++ ascii "': " ++ e))
    | some (.ok r) => .ok r

def poolFor (name : Bytes) (version : Nat) : Lookup (Nat × P) :=
  (loadSchema sys name version).andThen fun r => .done ((sys.poolFromFds r.fds).map fun pool => (r.version, pool))

/-- The schemas that define a type, one after the other. -/
def findTypeFrom (typeName : Bytes) : List (Bytes × Nat) → List (Bytes × Nat) → Lookup (Bytes × Nat)
  | [], hits => .done <|
    match hits with
    | [] => .error (.noSchema (ascii "no registered schema defines type '" ++ typeName ++ ascii "'"))
    | [hit] => .ok hit
    | hits => .error (.schema (ascii "type '" ++ typeName ++ ascii "' is ambiguous across schemas " ++
        (ascii ", ").intercalate (hits.map Prod.fst) ++ ascii "; pass SCHEMA"))
  | (name, version) :: rest, hits => (loadSchema sys name 0).bind fun
    | .ok r => findTypeFrom typeName rest (if typeName ∈ r.types then hits ++ [(name, version)] else hits)
    | .error _ => findTypeFrom typeName rest hits

def findType (typeName : Bytes) : Lookup (Bytes × Nat) :=
  .read SYS_IDX_KEY fun ctx => findTypeFrom sys typeName (sys.schemaIndex ctx) []

/-- A type that is given, with or without its schema. -/
def explicit (typeName : Bytes) (schema : Option Bytes) (version : Nat) : Lookup BindingRecord :=
  match schema with
  | some s => .done (.ok ⟨s, version, typeName⟩)
  | none => (findType sys typeName).andThen fun hit => .done (.ok ⟨hit.1, version, typeName⟩)

def describe (b : BindingRecord) : Lookup (ResolvedType D) :=
  (poolFor sys b.schema b.version).andThen fun (version, pool) => .done <|
    match sys.getMessage pool b.typeName with
    | some desc => .ok ⟨b.schema, version, b.typeName, desc⟩
    | none => .error (.noSchema (ascii "schema '" ++ b.schema ++ ascii "' version " ++ decimal version ++
        ascii " does not define type '" ++ b.typeName ++ ascii "'"))

/-! ## Values and fields -/

def writeValue (key : Bytes) (m : M) (o : SetOpts) (r : ResolvedType D) : Handler :=
  if sys.maxValue < sys.encodedLen m then
    .reply (ProtoErr.validate (ascii "value too large (" ++ decimal (sys.encodedLen m) ++ ascii " bytes, limit " ++
      decimal sys.maxValue ++ ascii ")")).reply
  else .onKey key (fun ctx => .ok (sys.putValue key m o (r.schema, r.version, r.typeName) ctx)) .reply

/-- A message that was read, or the type it does not fit. -/
def orInvalid (r : ResolvedType D) (m : Except Bytes M) (next : M → Handler) : Handler :=
  match m with
  | .ok m => next m
  | .error e => .reply (ProtoErr.validate (r.typeName ++ ascii ": " ++ e)).reply

def validateElement (r : ResolvedType D) (raw : Bytes) : Except Reply Unit :=
  if sys.maxValue < raw.length then
    .error (ProtoErr.validate (ascii "value too large (" ++ decimal raw.length ++ ascii " bytes, limit " ++
      decimal sys.maxValue ++ ascii ")")).reply
  else
    match sys.decode r.desc raw with
    | .ok _ => .ok ()
    | .error e => .error (ProtoErr.validate (r.typeName ++ ascii ": " ++ e)).reply

/-- Write elements once all of them fit the type. -/
def validated (r : ResolvedType D) (raws : List Bytes) (next : Handler) : Handler :=
  match raws.mapM (validateElement sys r) with
  | .ok _ => next
  | .error reply => .reply reply

/-- `field_rmw`: read the type of the value, find its descriptor, change the fields; all of it again where the type has changed
in between. -/
def fieldRmw (key : Bytes) (op : FieldOp) : Nat → Handler
  | 0 => .reply (.err (ascii "TRYAGAIN concurrent type change on the key; retry"))
  | tries + 1 => .job key id fun ctx =>
    match sys.identity key ctx with
    | .error r => Handler.reply r
    | .ok b => (describe sys b).bind fun
      | .error e => Handler.reply e.reply
      | .ok t => .job key (fun ctx => (sys.putFields key op b t.desc ctx).1) fun ctx =>
        match (sys.putFields key op b t.desc ctx).2 with
        | some r => Handler.reply r
        | none => fieldRmw key op tries

/-- Paths, each with the value behind it. -/
def fieldOps : List Bytes → Except ProtoErr (List (List Bytes × Bytes))
  | path :: value :: rest => do
    let p ← sys.parsePath path
    let ops ← fieldOps rest
    .ok ((p, value) :: ops)
  | _ => .ok []

variable (args : List Bytes)

def setfield : Handler :=
  if args.length < 4 ∨ (args.length - 2) % 2 ≠ 0 then .reply (.wrongArgs "proto.setfield")
  else
    match fieldOps sys (args.drop 2) with
    | .error e => .reply e.reply
    | .ok ops => .fetch (args.getD 1 []) (fieldRmw sys (args.getD 1 []) (.set ops) 3)

def clearfield : Handler :=
  if args.length < 3 then .reply (.wrongArgs "proto.clearfield")
  else
    match (args.drop 2).mapM sys.parsePath with
    | .error e => .reply e.reply
    | .ok paths => .fetch (args.getD 1 []) (fieldRmw sys (args.getD 1 []) (.clear paths) 3)

/-! ## Arguments -/

def parseType (raw : Bytes) : Except Reply Bytes :=
  if sys.isUtf8 raw then .ok raw else .error (.err (ascii "ERR type name must be utf-8"))

/-- A number of seconds or of milliseconds. -/
def times (word : Bytes) (seconds : String) (n : Int) : UInt64 := UInt64.ofInt n * if eqIgnoreCase word seconds then 1000 else 1

def parseSetOptsFrom (now : UInt64) : List Bytes → SetOpts → Except Reply SetOpts
  | [], o => if o.nx ∧ o.xx then .error .syntaxError else .ok o
  | word :: rest, o =>
    if eqIgnoreCase word "TYPE" then
      match rest with
      | [] => .error .syntaxError
      | t :: rest => do
        let t ← parseType sys t
        parseSetOptsFrom now rest { o with typeName := some t }
    else if eqIgnoreCase word "NX" then parseSetOptsFrom now rest { o with nx := true }
    else if eqIgnoreCase word "XX" then parseSetOptsFrom now rest { o with xx := true }
    else if eqIgnoreCase word "KEEPTTL" then parseSetOptsFrom now rest { o with keepttl := true }
    else if eqIgnoreCase word "EX" ∨ eqIgnoreCase word "PX" then
      match rest with
      | [] => .error .notInt
      | b :: rest =>
        match readU64 b with
        | none => .error .notInt
        | some n =>
          if n = 0 then .error (.err (ascii "ERR invalid expire time in 'proto.set' command"))
          else parseSetOptsFrom now rest { o with ttl := some (now + times word "EX" n) }
    else if eqIgnoreCase word "EXAT" ∨ eqIgnoreCase word "PXAT" then
      match rest with
      | [] => .error .notInt
      | b :: rest =>
        match readU64 b with
        | none => .error .notInt
        | some n => parseSetOptsFrom now rest { o with ttl := some (times word "EXAT" n) }
    else .error .syntaxError

def parseSetOpts (now : UInt64) (args : List Bytes) : Except Reply SetOpts :=
  parseSetOptsFrom sys now (args.drop 3) ⟨none, false, false, false, none⟩

/-- The `TYPE` clause behind the key, and the arguments after it. -/
def parseTypeClause : Except Reply (Option Bytes × List Bytes) :=
  if args[2]?.any (eqIgnoreCase · "TYPE") then
    match args[3]? with
    | none => .error .syntaxError
    | some t => (parseType sys t).map fun t => (some t, args.drop 4)
  else .ok (none, args.drop 2)

/-- A command that writes values of one type: its key, the type if it is given, and the rest of its work. -/
structure TypedCall (D : Type) where
  key : Bytes
  typeName : Option Bytes
  store : ResolvedType D → Handler

variable (others : Handlers)

/-- PROTO.SET and PROTO.SETJSON, which read the message in two ways. -/
def setWith (cmd : String) (read : D → Bytes → Except Bytes M) (now : UInt64) (args : List Bytes) :
    Except Reply (TypedCall D) :=
  if args.length < 3 then .error (.wrongArgs cmd)
  else do
    let o ← parseSetOpts sys now args
    let key := args.getD 1 []
    .ok ⟨key, o.typeName, fun r => orInvalid r (read r.desc (args.getD 2 [])) fun m => writeValue sys key m o r⟩

def set : UInt64 → List Bytes → Except Reply (TypedCall D) := setWith sys "proto.set" sys.decode

def setjson : UInt64 → List Bytes → Except Reply (TypedCall D) := setWith sys "proto.setjson" sys.deserialize

/-- The values among fields and values. -/
def values : List Bytes → List Bytes
  | _ :: value :: rest => value :: values rest
  | _ => []

def hset (args : List Bytes) : Except Reply (TypedCall D) :=
  if args.length < 4 then .error (.wrongArgs "proto.hset")
  else do
    let key := args.getD 1 []
    let (typeName, rest) ← parseTypeClause sys args
    if rest = [] ∨ rest.length % 2 ≠ 0 then .error (.wrongArgs "proto.hset")
    else .ok ⟨key, typeName, fun r => validated sys r (values rest) (others.handler .hset (ascii "HSET" :: key :: rest))⟩

def sadd (args : List Bytes) : Except Reply (TypedCall D) :=
  if args.length < 3 then .error (.wrongArgs "proto.sadd")
  else do
    let key := args.getD 1 []
    let (typeName, rest) ← parseTypeClause sys args
    if rest = [] then .error (.wrongArgs "proto.sadd")
    else .ok ⟨key, typeName, fun r => validated sys r rest (others.handler .sadd (ascii "SADD" :: key :: rest))⟩

def MAX_NAME : Nat := 255

def parseName (raw : Bytes) : Except Reply Bytes :=
  if !sys.isUtf8 raw then .error (.err (ascii "SCHEMAERR schema name must be utf-8"))
  else if raw = [] ∨ MAX_NAME < raw.length ∨ 0 ∈ raw then .error (.err (ascii "SCHEMAERR invalid schema name"))
  else .ok raw

def parseVersionU32 (raw : Bytes) : Except Reply Nat :=
  match readU64 raw with
  | some v => if 0 < v ∧ v < 2 ^ 32 then .ok v.toNat else .error (.err (ascii "ERR VERSION must be a positive integer"))
  | none => .error (.err (ascii "ERR VERSION must be a positive integer"))

def parseBindOpts : List Bytes → Option Bytes → Nat → Except Reply (Option Bytes × Nat)
  | [], schema, version => .ok (schema, version)
  | [_], _, _ => .error .syntaxError
  | word :: v :: rest, schema, version =>
    if eqIgnoreCase word "SCHEMA" then do
      let name ← parseName sys v
      parseBindOpts rest (some name) version
    else if eqIgnoreCase word "VERSION" then do
      let version ← parseVersionU32 v
      parseBindOpts rest schema version
    else .error .syntaxError

/-- The prefix, the type, its schema and its version. -/
def parseBind : Except Reply (Bytes × Bytes × Option Bytes × Nat) :=
  if args.length < 3 then .error (.wrongArgs "proto.bind")
  else do
    let pre := args.getD 1 []
    if pre = [] ∨ pre.head? = some 0 then .error (.err (ascii "ERR invalid prefix"))
    else do
      let t ← parseType sys (args.getD 2 [])
      let (schema, version) ← parseBindOpts sys (args.drop 3) none 0
      .ok (pre, t, schema, version)

end Proto

/-! ## The node -/

/-- What the commands of one client share. -/
structure DataNode where
  /-- the records by user key -/
  keys : Bytes → ShardCtx
  /-- the visible entries of the bindings' hash -/
  bindings : ExtTreeMap Bytes Proto.BindingRecord
  /-- the hash has records, be they visible or not -/
  trace : Bool
  /-- the copy of the table -/
  cache : Option Proto.BindCache
  writeStopped : Bool
  compactionStopped : Bool

/-- The rest of a command. -/
abbrev Task : Type := Strand DataNode (Except Fault Reply)

namespace DataNode

variable (n : DataNode)

def runKey (key : Bytes) (write : ShardCtx → ShardCtx) : DataNode :=
  { n with keys := Function.update n.keys key (write (n.keys key)) }

/-- PROTO.BIND, in the table. -/
def bind (pre : Bytes) (b : Proto.BindingRecord) : DataNode :=
  { n with bindings := n.bindings.insert pre b, trace := true }

/-- PROTO.UNBIND, in the table: the record of a binding stays, but is not visible any more. -/
def unbind (pre : Bytes) : DataNode :=
  { n with bindings := n.bindings.erase pre, trace := n.trace || n.bindings.contains pre }

/-- The copy is dropped. -/
def invalidateBindings : DataNode := { n with cache := none }

/-- The longest prefix first. -/
def before (a b : Bytes × Proto.BindingRecord) : Prop := b.1.length < a.1.length ∨ a.1.length = b.1.length ∧ a.1 ≤ b.1

instance : DecidableRel before :=
  fun a b => inferInstanceAs (Decidable (b.1.length < a.1.length ∨ a.1.length = b.1.length ∧ a.1 ≤ b.1))

def entries : List (Bytes × Proto.BindingRecord) := n.bindings.toList.insertionSort before

end DataNode

namespace Task

variable {α : Type}

def jobs : Routine Bytes ShardCtx α → (α → Task) → Task
  | .done a, next => next a
  | .fetch _ t, next => jobs t next
  | .job key write t, next => .act (·.runKey key write) fun n => jobs (t (n.keys key)) next

def handle (t : Handler) : Task := jobs t .done

def reply (r : Reply) : Task := .done (.ok r)

/-- Look the registry up, then the rest. -/
def find (t : Proto.Lookup α) (next : α → Task) : Task :=
  jobs t fun
    | .ok a => next a
    | .error e => reply e.reply

variable {P D M : Type} (sys : Proto.Services P D M) (now : UInt64)

def storeCache (entries : List (Bytes × Proto.BindingRecord)) (next : List (Bytes × Proto.BindingRecord) → Task) : Task :=
  .act (fun n => { n with cache := some ⟨now, entries⟩ }) fun _ => next entries

/-- Read the table and put a copy of it back. Where nothing is known of the table, an older copy is better. -/
def refreshBindings (next : List (Bytes × Proto.BindingRecord) → Task) : Task :=
  .act id fun n =>
    let entries := n.entries
    if entries = [] ∧ n.trace = false then
      .act id fun n =>
        match n.cache with
        | some c => if c.entries ≠ [] then next c.entries else storeCache now entries next
        | none => storeCache now entries next
    else storeCache now entries next

/-- The copy may still be used. -/
def isFresh (c : Proto.BindCache) : Bool := (if now < c.loadedMs then 0 else now - c.loadedMs) < sys.bindTtlMs

/-- The table: the copy of it, as long as that is fresh. -/
def bindings (next : List (Bytes × Proto.BindingRecord) → Task) : Task :=
  .act id fun n =>
    match n.cache with
    | some c => if isFresh sys now c then next c.entries else refreshBindings now next
    | none => refreshBindings now next

/-- The type that the longest bound prefix of a key is bound to. -/
def bindingForKey (key : Bytes) (next : Option Proto.BindingRecord → Task) : Task :=
  bindings sys now fun entries => next ((entries.find? fun e => e.1.isPrefixOf key).map Prod.snd)

/-- Find the type of a key, then the rest. -/
def resolveForKey (key : Bytes) (typeName : Option Bytes) (next : Proto.ResolvedType D → Task) : Task :=
  match typeName with
  | some t => find (Proto.explicit sys t none 0) fun b => find (Proto.describe sys b) next
  | none => bindingForKey sys now key fun
    | some b => find (Proto.describe sys b) next
    | none => reply ProtoErr.noBinding.reply

/-- A command that writes values of one type. -/
def typed (call : Except Reply (Proto.TypedCall D)) : Task :=
  match call with
  | .error r => reply r
  | .ok call => resolveForKey sys now call.key call.typeName fun t => handle (call.store t)

def protoBind (args : List Bytes) : Task :=
  match Proto.parseBind sys args with
  | .error r => reply r
  | .ok (pre, t, schema, version) =>
    find (Proto.explicit sys t schema version) fun b => find (Proto.describe sys b) fun r =>
      -- the version stays 0 unless one was given
      .act (·.bind pre ⟨r.schema, version, r.typeName⟩) fun _ => .act (·.invalidateBindings) fun _ => reply .ok

def protoUnbind (args : List Bytes) : Task :=
  if args.length ≠ 2 then reply (.wrongArgs "proto.unbind")
  else
    .act (·.unbind (args.getD 1 [])) fun n =>
      .act (·.invalidateBindings) fun _ => reply (.int (if n.bindings.contains (args.getD 1 []) then 1 else 0))

end Task

end Marekvs
