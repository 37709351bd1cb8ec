import Marekvs.Engine.ZsetWrites
import Marekvs.Lemmas.Removal

/-!
# A run of sorted-set commands

A node executes ZADD, ZINCRBY, ZREM, the removals of ranges, the pops and DEL on any keys at any wall clocks, and member records
from other nodes are applied in between, also those that are fetched for a command.
-/

namespace Marekvs

/-- A member's record: a canonical element record of the type, in which every value is the eight bytes of a score. -/
structure MemberRecord extends ElementRecord where
  isMember : rtype = .zsetMember
  scores : ∀ e ∈ state.live, e.2.length = 8

/-- One step of a run. -/
inductive ZsetOp where
  | zadd (args : List Bytes)
  | zincrby (args : List Bytes)
  | zrem (command : ZremCommand) (args : List Bytes)
  | zpop (max : Bool) (args : List Bytes)
  | del (key : Bytes)
  /-- a member's record comes from another node -/
  | apply (key member : Bytes) (record : MemberRecord)

/-- Commands whose keys are there when their jobs start. -/
def Env.here (env : Env) : Env := { env with ensureLocal := fun _ ctx => ctx }

/-- A record reaches the node: its stamp moves the clock, and it is merged. -/
def ShardCtx.applyMember (ctx : ShardCtx) (key member : Bytes) (r : MemberRecord) : ShardCtx :=
  { ctx with clock := Hlc.observe ctx.clock ctx.nowMs r.version.hlc }.applyMemberRecord key member r.encode

namespace ZsetOp

/-- One step on the shard; a command that faults leaves it as it is. -/
def step (env : Env) (ctx : ShardCtx) : ZsetOp → ShardCtx
  | zadd args => (Marekvs.zadd env.here args ctx).2
  | zincrby args => (Marekvs.zincrby env.here args ctx).2
  | zrem c args => (c.run env.here args ctx).2
  | zpop max args =>
    match Marekvs.zpop env.here args max ctx with
    | .ok r => r.2
    | .error _ => ctx
  | del key => ctx.delKey key
  | apply key member r => ctx.applyMember key member r

/-- The key, its delete clock and the members that a step goes to remove. -/
def removing (env : Env) (ctx : ShardCtx) : ZsetOp → Option (Bytes × UInt64 × List Bytes)
  | zrem c args =>
    match c.parse env args with
    | .error _ => none
    | .ok (key, choice) => (ctx.zsetDelHlc key).map fun delHlc => (key, delHlc, choice.victims key delHlc ctx)
  | zpop max args =>
    match args with
    | _ :: key :: rest =>
      if 1 < rest.length then none
      else
        match popCount rest.head? with
        | .error _ => none
        | .ok count =>
          match ctx.zsetDelHlc key with
          | none => none
          | some delHlc =>
            match popVictims key delHlc max (count.getD 1) ctx with
            | .error _ => none
            | .ok (_, victims) => some (key, delHlc, victims.map Prod.snd)
    | _ => none
  | _ => none

/-- Byte vectors of the source: their lengths fit a machine word. -/
def Sized : ZsetOp → Prop
  | zadd args | zincrby args | zrem _ args | zpop _ args => ∀ a ∈ args, a.length < 2 ^ 64
  | del key => key.length < 2 ^ 64
  | apply key _ _ => key.length < 2 ^ 64

instance : (op : ZsetOp) → Decidable op.Sized
  | zadd args | zincrby args | zrem _ args | zpop _ args => inferInstanceAs (Decidable (∀ a ∈ args, a.length < 2 ^ 64))
  | del key | apply key _ _ => inferInstanceAs (Decidable (key.length < 2 ^ 64))

end ZsetOp

/-- The shard at another wall clock. -/
def ShardCtx.atWall (ctx : ShardCtx) (wall : UInt64) : ShardCtx := { ctx with nowMs := wall }

/-- The state after a sequence of steps, each at its wall clock. -/
def zsetRun (env : Env) (ctx : ShardCtx) (ops : List (UInt64 × ZsetOp)) : ShardCtx :=
  ops.foldl (fun ctx op => op.2.step env (ctx.atWall op.1)) ctx

/-! ## Removals that leave nothing -/

/-- Removing the member leaves nothing of it. -/
def ShardCtx.CanClear (ctx : ShardCtx) (key member : Bytes) : Prop :=
  ∀ v env payload st, ctx.getRaw (Ikey.zsetMemberKey key member) = some v → Envelope.decode v = some (env, payload) →
    ElementState.decode payload = some st → st.CanClear

/-- The condition of a step: whatever it removes, nothing is left of it. -/
def ZsetOp.Clears (env : Env) (ctx : ShardCtx) (op : ZsetOp) : Prop :=
  ∀ key del members, op.removing env ctx = some (key, del, members) →
    ∀ m ∈ members, (ctx.memberScore key m del).isSome → ctx.CanClear key m

end Marekvs
