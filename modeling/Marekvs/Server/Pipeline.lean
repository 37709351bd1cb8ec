import Marekvs.Engine.Registry
import Marekvs.Engine.StreamWrites

/-!
# Pipelined commands

The server reads what a client has sent, takes all complete commands out of it and serves them in order. Where commands follow
each other that are safe to run side by side, and no two of them share an argument, it starts all of them at once as tasks of
their own, and writes their replies in the order of the commands. Every other command runs alone.

`Served` are the ways in which this may go, `inOrder` is what the client asked for.
-/

namespace Marekvs

open Machine (Fault)

open Resp (ascii)

open Proto (isHidden)

/-! ## Batches -/

/-- The command that a batch may hold the arguments as. -/
def batchable (args : List Bytes) : Option Command :=
  args.head?.bind fun name =>
    if 16 < name.length then none else (Command.find (name.map asciiUpper)).filter Command.parallelSafe

def isBatchable (args : List Bytes) : Bool := (batchable args).isSome

/-- The commands that join a batch whose arguments were `seen`, and those that have to wait. -/
def takeBatch : List Bytes → List (List Bytes) → List (List Bytes) × List (List Bytes)
  | _, [] => ([], [])
  | seen, next :: pending =>
    if !isBatchable next || next.tail.any (· ∈ seen) then ([], next :: pending)
    else
      let (batch, rest) := takeBatch (next.tail ++ seen) pending
      (next :: batch, rest)

theorem takeBatch_append (seen : List Bytes) (pending : List (List Bytes)) :
    (takeBatch seen pending).1 ++ (takeBatch seen pending).2 = pending := by
  induction pending generalizing seen with
  | nil => rfl
  | cons next pending ih =>
    rw [takeBatch]
    split
    · rfl
    · exact congrArg (next :: ·) (ih _)

/-- The batches of an authenticated client without transaction and without subscriptions. A command behind which nothing waits is
not looked at. -/
def batches : List (List Bytes) → List (List (List Bytes))
  | [] => []
  | args :: pending =>
    if pending ≠ [] ∧ isBatchable args then
      (args :: (takeBatch args.tail pending).1) :: batches (takeBatch args.tail pending).2
    else [args] :: batches pending
termination_by pending => pending.length
decreasing_by
  · have h := congrArg List.length (takeBatch_append args.tail pending)
    rw [List.length_append] at h
    simp only [List.length_cons]
    omega
  · exact Nat.lt_succ_self _

/-! ## Commands -/

/-- What the commands meet: the types of typed values, the handlers, and the commands that run alone. -/
structure PipeEnv (P D M : Type) where
  sys : ScriptEnv
  proto : Proto.Services P D M
  others : Handlers
  /-- MGET and MSET, whose keys are fetched and written by tasks of their own -/
  multi : ∀ c args, c = .mget ∨ c = .mset → (others.handler c args).Within (· ∈ args.tail)
  /-- a command that is not safe to run beside others -/
  single : UInt64 → List Bytes → DataNode → Except Fault Reply × DataNode

variable {P D M : Type} (env : PipeEnv P D M) (now : UInt64)

/-- The commands of a batch whose handlers are not routines on the records alone. -/
def protoTask (c : Command) (args : List Bytes) : Option Task :=
  match c with
  | .protoBind => some (Task.protoBind env.proto args)
  | .protoUnbind => some (Task.protoUnbind args)
  | .protoSet => some (Task.typed env.proto now (Proto.set env.proto now args))
  | .protoSetjson => some (Task.typed env.proto now (Proto.setjson env.proto now args))
  | .protoHset => some (Task.typed env.proto now (Proto.hset env.proto env.others args))
  | .protoSadd => some (Task.typed env.proto now (Proto.sadd env.proto env.others args))
  | .protoSetfield => some (Task.handle (Proto.setfield env.proto args))
  | .protoClearfield => some (Task.handle (Proto.clearfield env.proto args))
  | _ => none

/-- A command, as long as nothing forbids it. -/
def taskOf (c : Command) (args : List Bytes) : Task :=
  match c.guardCommand args with
  | some r => Task.reply r
  | none => .act id fun n =>
    if c.isWriteCommand ∧ n.writeStopped then Task.reply diskMisconf
    else if c.isWriteCommand ∧ n.compactionStopped then Task.reply compactionMisconf
    else (protoTask env now c args).getD (Task.handle (handlerOf env.sys env.others c args))

/-- One command with nothing beside it. -/
def execute (args : List Bytes) (n : DataNode) : Except Fault Reply × DataNode :=
  match batchable args with
  | some c => (taskOf env now c args).alone n
  | none => env.single now args n

/-- One command after the other. -/
def executeAll (now : UInt64) : List (List Bytes) → DataNode → List (Except Fault Reply) × DataNode
  | [], n => ([], n)
  | args :: rest, n =>
    let (r, n) := execute env now args n
    let (rs, n) := executeAll now rest n
    (r :: rs, n)

/-- All jobs see this time. -/
def DataNode.atTime (n : DataNode) (now : UInt64) : DataNode := { n with keys := fun k => { n.keys k with nowMs := now } }

/-- What a client sends, read by read, one command after the other. -/
def inOrder : List (UInt64 × List (List Bytes)) → DataNode → List (Except Fault Reply) × DataNode
  | [], n => ([], n)
  | (now, pending) :: reads, n =>
    let (rs, n) := executeAll env now pending (n.atTime now)
    let (rs', n) := inOrder reads n
    (rs ++ rs', n)

/-! ## Serving -/

/-- An id whose second half is read from the clock. -/
def IdSpec.fromClock : IdSpec → Bool
  | auto | msAuto _ => true
  | explicit _ => false

/-- The commands that take more of the clock than the order of the stamps on each key. The clock is one for all keys, and the
order of jobs on other keys enters what it reads. -/
def Command.clockBound (c : Command) (args : List Bytes) : Bool :=
  match c with
  -- the destination's head takes the delete clock of the source
  | .copy | .rename | .renamenx => true
  -- a stamp, or a part of it, is shown
  | .bgReserve | .bgInfo | .debug => true
  | .xadd => (parseXadd args).toOption.any fun a => a.spec.fromClock
  -- a script may call the others
  | .eval | .evalsha => true
  | c => c.isDiff

def clockBound (args : List Bytes) : Bool :=
  (args.head?.bind fun name => Command.find (name.map asciiUpper)).any fun c => c.clockBound args

def tasks (batch : List (List Bytes)) : List Task :=
  batch.filterMap fun args => (batchable args).map fun c => taskOf env now c args

/-- Serve batches, one after the other. -/
inductive ServedBatches (now : UInt64) : List (List (List Bytes)) → DataNode → List (Except Fault Reply) → DataNode → Prop where
  | nil (n : DataNode) : ServedBatches now [] n [] n
  /-- a command alone -/
  | single {args : List Bytes} {batches : List (List (List Bytes))} {n n' : DataNode} {rs : List (Except Fault Reply)} :
      ServedBatches now batches (execute env now args n).2 rs n' →
        ServedBatches now ([args] :: batches) n ((execute env now args n).1 :: rs) n'
  /-- two commands or more, side by side -/
  | batch {batch : List (List Bytes)} {batches : List (List (List Bytes))} {n n' n'' : DataNode}
      {rs rs' : List (Except Fault Reply)} : 2 ≤ batch.length → Strand.Interleaved (tasks env now batch) n rs n' →
        ServedBatches now batches n' rs' n'' → ServedBatches now (batch :: batches) n (rs ++ rs') n''
  /-- the clock is no part of the node here, so that anything may come of a command that takes more of it -/
  | clocked {batch : List (List Bytes)} {batches : List (List (List Bytes))} {n n' n'' : DataNode}
      {rs rs' : List (Except Fault Reply)} : batch.any clockBound = true → rs.length = batch.length →
        ServedBatches now batches n' rs' n'' → ServedBatches now (batch :: batches) n (rs ++ rs') n''

/-- Serve what a client sends, read by read. -/
inductive Served : List (UInt64 × List (List Bytes)) → DataNode → List (Except Fault Reply) → DataNode → Prop where
  | nil (n : DataNode) : Served [] n [] n
  | read {now : UInt64} {pending : List (List Bytes)} {reads : List (UInt64 × List (List Bytes))} {n n' n'' : DataNode}
      {rs rs' : List (Except Fault Reply)} : ServedBatches env now (batches pending) (n.atTime now) rs n' →
        Served reads n' rs' n'' → Served ((now, pending) :: reads) n (rs ++ rs') n''

/-! ## Registry commands in one batch -/

/-- The command writes the table of bindings. -/
def bindsTable (args : List Bytes) : Bool := batchable args = some .protoBind ∨ batchable args = some .protoUnbind

/-- The arguments of a typed write, where they are understood. -/
def typedCall (args : List Bytes) : Option (Proto.TypedCall D) :=
  match batchable args with
  | some .protoSet => (Proto.set env.proto now args).toOption
  | some .protoSetjson => (Proto.setjson env.proto now args).toOption
  | some .protoHset => (Proto.hset env.proto env.others args).toOption
  | some .protoSadd => (Proto.sadd env.proto env.others args).toOption
  | _ => none

/-- The command looks its type up by its key. -/
def looksUp (args : List Bytes) : Bool := (typedCall env now args).any fun call => call.typeName.isNone

/-- No look-up of a type stands beside a change of the table, and no hidden key beside a command that reads the registry. -/
structure Apart (now : UInt64) (batch : List (List Bytes)) : Prop where
  hidden : (∃ args ∈ batch, (batchable args).any Command.isProto = true) → ∀ args ∈ batch, ∀ a ∈ args.tail, isHidden a = false
  table : (∀ args ∈ batch, bindsTable args = false) ∨ ∀ args ∈ batch, looksUp env now args = false

end Marekvs
