import Marekvs.Core.BudgetHead
import Marekvs.Engine.StreamWrites

/-!
# Reading and writing budgets

What all budget commands share: why one is refused, how the head is read, what a scan finds of slots and tokens, and the way a
write takes. A job on the key's shard puts all its records in one transaction, past the merge; the log is synced after it, and
only then is the command acknowledged.
-/

namespace Marekvs

open Resp (ascii)

/-- Why a budget command was refused. -/
inductive BudgetErr where
  | exhausted
  | noBudget
  | tryAgain (why : Bytes)
  | tokenExpired
  | tokenUsed
  | other (msg : Bytes)
  deriving DecidableEq, Repr

def BudgetErr.reply : BudgetErr → Reply
  | exhausted => .err (ascii "BUDGETEXHAUSTED insufficient reservable funds; retry later")
  | noBudget => .err (ascii "NOBUDGET no such budget")
  | tryAgain why => .err (ascii "TRYAGAIN " ++ why)
  | tokenExpired => .err (ascii "TOKENEXPIRED token past its deadline or from an old generation")
  | tokenUsed => .err (ascii "TOKENUSED token already committed or released")
  | other msg => .err msg

def BudgetErr.wrongtype : BudgetErr := other (ascii "WRONGTYPE Operation against a key holding the wrong kind of value")

/-- The writes of one transaction: internal keys and records. -/
abbrev BudgetOps : Type := List (Bytes × Bytes)

/-- A budget's head with its envelope and its delete clock. -/
structure BudgetHead where
  env : Envelope
  delHlc : UInt64
  state : HeadState

namespace ShardCtx

variable (ctx : ShardCtx)

/-- Whether a string hides the budget. -/
def shadowed (key : Bytes) : Bool := (ctx.readLww (Ikey.stringKey key) 0).isSome

def headOrErr (key : Bytes) : Except BudgetErr BudgetHead :=
  if ctx.shadowed key then .error .wrongtype
  else
    match (ctx.getRaw (Ikey.headKey key)).bind Envelope.decode with
    | none => .error .noBudget
    | some (env, payload) =>
      match decodeHead payload with
      | none => .error .noBudget
      | some (ctype, del) =>
        if !env.isLive ctx.nowMs then .error .noBudget
        else if ctype ≠ Ctype.budget.toByte then .error .wrongtype
        else
          match HeadState.decode (payload.drop 9) with
          | none => .error (.other (ascii "ERR corrupt budget head"))
          | some hs => .ok ⟨env, del, hs⟩

/-- The head of whatever is stored, deleted or not; with the budget's state if it is one. -/
def headRaw (key : Bytes) : Option (Envelope × UInt8 × UInt64 × Option HeadState) :=
  ((ctx.getRaw (Ikey.headKey key)).bind Envelope.decode).bind fun (env, payload) =>
    (decodeHead payload).map fun (ctype, del) =>
      (env, ctype, del, if ctype = Ctype.budget.toByte then HeadState.decode (payload.drop 9) else none)

/-- What a slot's record says; an empty ledger where there is none. -/
def readSlot (slotKey : Bytes) : SlotState :=
  match (ctx.getRaw slotKey).bind Envelope.decode with
  | none => .empty
  | some (env, payload) => if env.isTombstone then .empty else (SlotState.decode payload).getD .empty

/-! ## The way a write takes -/

/-- One transaction, past the merge. -/
def commitOps (ops : BudgetOps) : ShardCtx := ops.foldl (fun ctx op => ctx.putRaw op.1 op.2) ctx

end ShardCtx

/-- A budget job: what it wants written and replied, and the shard after it. -/
abbrev BudgetJob (α : Type) : Type := ShardCtx → Except BudgetErr (BudgetOps × α) × ShardCtx

/-- What the disk does to a write. -/
structure Disk where
  commits : Bool
  syncs : Bool

/-- The part of a write that runs on the shard. -/
def budgetJob {α : Type} (commits : Bool) (job : BudgetJob α) (ctx : ShardCtx) : Except BudgetErr (BudgetOps × α) × ShardCtx :=
  match job ctx with
  | (.error e, ctx) => (.error e, ctx)
  | (.ok (ops, out), ctx) =>
    if ops ≠ [] ∧ !commits then (.error (.tryAgain (ascii "storage commit failed")), ctx)
    else (.ok (ops, out), ctx.commitOps ops)

/-- What is acknowledged after the log was synced, or was not. -/
def budgetAck {α : Type} (syncs : Bool) : Except BudgetErr (BudgetOps × α) → Except BudgetErr α
  | .error e => .error e
  | .ok (ops, out) => if ops ≠ [] ∧ !syncs then .error (.tryAgain (ascii "wal sync failed")) else .ok out

def budgetWrite {α : Type} (disk : Disk) (job : BudgetJob α) (ctx : ShardCtx) : Except BudgetErr α × ShardCtx :=
  let (res, ctx) := budgetJob disk.commits job ctx
  (budgetAck disk.syncs res, ctx)

/-- The reply of a command from the outcome of its write. -/
def budgetReply {α : Type} (ok : α → Reply) : Except BudgetErr α → Reply
  | .ok a => ok a
  | .error e => e.reply

end Marekvs
