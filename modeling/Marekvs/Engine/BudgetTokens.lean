import Marekvs.Engine.Budgets

/-!
# Granting and closing tokens

A node grants tokens out of its own allocation and is the only one that closes them. Each grant adds to the slot of the node's
incarnation, each close gives back what was not spent. What a command wants to write is collected first, so that several closes
and a grant on one slot become one record.
-/

namespace Marekvs

open Ikey
open Resp (ascii)

/-- How many expired tokens one grant closes. -/
def FOLD_BATCH : Nat := 16

/-- The slot that a token is granted from. -/
def slotKeyFor (key : Bytes) (hs : HeadState) (window : UInt64) (node : NodeId) (epoch : UInt64) : Bytes :=
  if hs.mode = MODE_WINDOW then budgetWindowSlotKey key hs.gen window node epoch else budgetSlotKey key hs.gen node epoch

variable (ctx : ShardCtx) (hs : HeadState)

/-- The window of the clock's reading; zero for a pool. -/
def ShardCtx.currentWindow : UInt64 × ShardCtx :=
  if hs.mode = MODE_WINDOW ∧ 0 < hs.periodMs then (hlcPhysMs ctx.hlcNow / hs.periodMs, ctx.tick) else (0, ctx)

/-! ## Collected writes -/

/-- The writes of a transaction before it is committed. -/
structure PendingOps where
  slots : List (Bytes × SlotState)
  other : BudgetOps

namespace PendingOps

def empty : PendingOps := ⟨[], []⟩

/-- What a slot will say: what was collected for it, or what is stored. -/
def slot (p : PendingOps) (ctx : ShardCtx) (slotKey : Bytes) : SlotState := (p.slots.lookup slotKey).getD (ctx.readSlot slotKey)

/-- Collect a slot's new state. -/
def setSlot (p : PendingOps) (slotKey : Bytes) (st : SlotState) : PendingOps :=
  { p with slots := if (p.slots.lookup slotKey).isSome then p.slots.map fun e => if e.1 = slotKey then (e.1, st) else e
                    else p.slots ++ [(slotKey, st)] }

def push (p : PendingOps) (ikey record : Bytes) : PendingOps := { p with other := p.other ++ [(ikey, record)] }

/-- The records of slots, each under a stamp of its own. -/
def slotOps : List (Bytes × SlotState) → ShardCtx → BudgetOps × ShardCtx
  | [], ctx => ([], ctx)
  | (k, st) :: slots, ctx =>
    let (ops, ctx') := slotOps slots ctx.tick
    ((k, encodeSlotRecord ⟨ctx.hlcNow, ctx.nodeId⟩ 0 false st) :: ops, ctx')

def intoOps (p : PendingOps) (ctx : ShardCtx) : BudgetOps × ShardCtx :=
  let (ops, ctx) := slotOps p.slots ctx
  (p.other ++ ops, ctx)

end PendingOps

/-! ## Closing -/

def TokenState.folded (st : TokenState) (state : UInt8) (spent : UInt64) : TokenState :=
  { st with rank := RANK_FOLDED, state := state, spent := min spent st.amount, credited := st.amount - min spent st.amount }

/-- Close a token: what was not spent goes back to the slot it was granted from. -/
def foldToken (key : Bytes) (hs : HeadState) (tokenKey : Bytes) (node : NodeId) (epoch : UInt64) (st : TokenState) (state : UInt8)
    (spent : UInt64) (pending : PendingOps) (ctx : ShardCtx) : UInt64 × PendingOps × ShardCtx :=
  let folded := st.folded state spent
  let slotKey := slotKeyFor key hs st.window node epoch
  let slot := pending.slot ctx slotKey
  let pending := pending.setSlot slotKey { slot with returned := slot.returned.satAdd folded.credited }
  (folded.credited, pending.push tokenKey (encodeTokenRecord ⟨ctx.hlcNow, ctx.nodeId⟩ 0 folded), ctx.tick)

/-- What a scan makes of a record: it is none of its business, the scan is over, or it is looked at and may be a victim. -/
inductive Seen (α : Type) where
  | skip
  | stop
  | own (victim : Option α)

/-- Collect victims until there are enough. -/
def scanVictims {α : Type} (judge : Bytes × Bytes → Seen α) (limit : Nat) : List (Bytes × Bytes) → List α → List α
  | [], acc => acc
  | e :: es, acc =>
    match judge e with
    | .skip => scanVictims judge limit es acc
    | .stop => acc
    | .own victim =>
      let acc := acc ++ victim.toList
      if acc.length < limit then scanVictims judge limit es acc else acc

/-- An open token of this node; a victim if it is past its deadline and the grace, or of another generation. -/
def judgeToken (gen graceMs : UInt64) (e : Bytes × Bytes) : Seen (Bytes × TokenId × TokenState) :=
  match (parse e.1).bind fun p => tokenSuffixFields p.suffix with
  | none => .skip
  | some t =>
    if t.node ≠ ctx.nodeId then .skip
    else
      match Envelope.decode e.2 with
      | none => .skip
      | some (env, payload) =>
        if env.isTombstone then .skip
        else
          match TokenState.decode payload with
          | none => .skip
          | some st =>
            if RANK_FOLDED ≤ st.rank then .skip
            else if t.gen ≠ gen ∨ st.deadlineMs.satAdd graceMs < ctx.nowMs then .own (some (e.1, t, st))
            else .own none

/-- Close one expired token; one of an older generation has no ledger to give back to. -/
def foldVictim (key : Bytes) (hs : HeadState) (acc : PendingOps × ShardCtx) (v : Bytes × TokenId × TokenState) :
    PendingOps × ShardCtx :=
  if v.2.1.gen = hs.gen then
    (foldToken key hs v.1 v.2.1.node v.2.1.epoch v.2.2 STATE_EXPIRED v.2.2.spent acc.1 acc.2).2
  else
    (acc.1.push v.1 (encodeTokenRecord ⟨acc.2.hlcNow, acc.2.nodeId⟩ 0
      { v.2.2 with rank := RANK_FOLDED, state := STATE_EXPIRED, credited := 0 }), acc.2.tick)

/-- Close some of this node's expired tokens. -/
def foldExpiredOwn (key : Bytes) (hs : HeadState) (graceMs : UInt64) (limit : Nat) (pending : PendingOps) (ctx : ShardCtx) :
    PendingOps × ShardCtx :=
  (scanVictims (judgeToken ctx hs.gen graceMs) limit (ctx.db.scanPrefix (elemKey .budget key [BUDGET_TOKEN])) []).foldl
    (foldVictim key hs) (pending, ctx)

/-! ## Old windows -/

/-- A live slot of this node that is out of reach. -/
def judgeWindow (cutoff : UInt64) (e : Bytes × Bytes) : Seen Bytes :=
  match parse e.1 with
  | none => .skip
  | some p =>
    if p.suffix.length < 27 then .skip
    else if cutoff ≤ Bytes.toU64 ((p.suffix.drop 9).take 8) then .stop
    else if Bytes.toU16 ((p.suffix.drop 17).take 2) ≠ ctx.nodeId then .skip
    else
      match Envelope.decode e.2 with
      | some (env, _) => .own (if env.isTombstone then none else some e.1)
      | none => .own none

/-- Give up one window's slot. -/
def buryWindow (acc : PendingOps × ShardCtx) (slotKey : Bytes) : PendingOps × ShardCtx :=
  (acc.1.push slotKey (encodeSlotRecord ⟨acc.2.hlcNow, acc.2.nodeId⟩ 0 true .empty), acc.2.tick)

/-- Give up slots of windows that no token can be granted from any more. -/
def gcOldWindows (key : Bytes) (hs : HeadState) (maxTtlMs graceMs current : UInt64) (limit : Nat) (pending : PendingOps)
    (ctx : ShardCtx) : PendingOps × ShardCtx :=
  if hs.mode ≠ MODE_WINDOW ∨ hs.periodMs = 0 then (pending, ctx)
  else
    let retention := maxTtlMs.satAdd (graceMs.satMul 2) / hs.periodMs + 2
    if current < retention then (pending, ctx)
    else
      (scanVictims (judgeWindow ctx (current - retention)) limit
        (ctx.db.scanPrefix (budgetKindPrefix key BUDGET_WINDOW_SLOT hs.gen)) []).foldl buryWindow (pending, ctx)

/-! ## Granting -/

/-- What a stored slot of this node has out, unless a new state of it was collected. -/
def storedOutstanding (pending : PendingOps) (nodeOff : Nat) (e : Bytes × Bytes) : Nat :=
  match parse e.1 with
  | none => 0
  | some p =>
    if p.suffix.length < nodeOff + 10 then 0
    else if Bytes.toU16 ((p.suffix.drop nodeOff).take 2) ≠ ctx.nodeId then 0
    else if (pending.slots.lookup e.1).isSome then 0
    else
      match Envelope.decode e.2 with
      | none => 0
      | some (env, payload) => if env.isTombstone then 0 else ((SlotState.decode payload).map SlotState.outstanding).getD 0

/-- What a collected slot of this node has out. -/
def pendingOutstanding (pre : Bytes) (nodeOff : Nat) (e : Bytes × SlotState) : Nat :=
  if !pre.isPrefixOf e.1 then 0
  else
    match parse e.1 with
    | none => 0
    | some p =>
      if p.suffix.length < nodeOff + 10 then 0
      else if Bytes.toU16 ((p.suffix.drop nodeOff).take 2) ≠ ctx.nodeId then 0
      else e.2.outstanding

/-- What this node has out in the generation, or in the window. -/
def ownOutstanding (key : Bytes) (hs : HeadState) (window : UInt64) (pending : PendingOps) : Nat :=
  let pre :=
    if hs.mode = MODE_WINDOW then elemKey .budget key (BUDGET_WINDOW_SLOT :: (Bytes.ofU64 hs.gen ++ Bytes.ofU64 window))
    else elemKey .budget key (BUDGET_SLOT :: Bytes.ofU64 hs.gen)
  let nodeOff := if hs.mode = MODE_WINDOW then 17 else 9
  ((ctx.db.scanPrefix pre).map (storedOutstanding ctx pending nodeOff)).sum +
    (pending.slots.map (pendingOutstanding ctx pre nodeOff)).sum

structure GrantCfg where
  defaultTtlMs : UInt64
  maxTtlMs : UInt64
  graceMs : UInt64

/-- What a reservation is answered with. -/
structure BudgetGrant where
  token : TokenId
  amount : UInt64
  deadlineMs : UInt64
  deriving DecidableEq, Repr

/-- The most that one token may take. -/
def HeadState.perTokenMax : UInt64 := if 0 < hs.maxAmount then min hs.maxAmount hs.capacity else hs.capacity

/-- How long a token lives that is asked for with or without a TTL. -/
def HeadState.ttlFor (cfg : GrantCfg) (ttlMs : Option UInt64) : UInt64 :=
  ttlMs.getD (if 0 < hs.defaultTtlMs then hs.defaultTtlMs else cfg.defaultTtlMs)

def HeadState.maxTtlFor (cfg : GrantCfg) : UInt64 := if 0 < hs.maxTtlMs then hs.maxTtlMs else cfg.maxTtlMs

/-- Why a reservation is refused before anything is looked up. -/
def HeadState.refuses (cfg : GrantCfg) (node : NodeId) (amount : UInt64) (ttlMs : Option UInt64) :
    Option BudgetErr :=
  if hs.isFenced node then some .exhausted
  else if amount = 0 then some (.other (ascii "ERR amount must be a positive integer"))
  else if hs.perTokenMax < amount then
    some (.other (ascii "ERR amount exceeds budget maximum of " ++ decDigits 20 hs.perTokenMax.toNat))
  else if hs.ttlFor cfg ttlMs = 0 ∨ hs.maxTtlFor cfg < hs.ttlFor cfg ttlMs then
    some (.other (ascii "ERR TTL must be in 1..=" ++ decDigits 20 (hs.maxTtlFor cfg).toNat ++ ascii " ms"))
  else none

/-- Grant a token of a slot that has room for it. -/
def writeGrant (epoch : UInt64) (key : Bytes) (hs : HeadState) (amount ttl window reqid : UInt64) (pending : PendingOps) :
    BudgetJob BudgetGrant := fun ctx =>
  let slotKey := slotKeyFor key hs window ctx.nodeId epoch
  let slot := pending.slot ctx slotKey
  match slot.granted.checkedAdd amount with
  | none => (.error (.other (ascii "ERR budget ledger overflow")), ctx)
  | some granted =>
    let tid : TokenId := ⟨hs.gen, ctx.hlcNow, ctx.nodeId, epoch⟩
    let deadline := ctx.nowMs + ttl
    let st : TokenState := ⟨RANK_OPEN, STATE_OPEN, amount, 0, 0, deadline, window, reqid⟩
    let pending := (pending.setSlot slotKey { slot with granted := granted }).push (budgetTokenKey key tid)
      (encodeTokenRecord ⟨ctx.hlcNow, ctx.nodeId⟩ 0 st)
    let (ops, ctx) := pending.intoOps ctx.tick
    (.ok (ops, ⟨tid, amount, deadline⟩), ctx)

/-- The shard's part of BG.RESERVE. What was closed on the way is committed even where the grant fails. -/
def grantLocal (commits : Bool) (epoch : UInt64) (cfg : GrantCfg) (key : Bytes) (amount : UInt64) (ttlMs : Option UInt64)
    (reqid : UInt64) : BudgetJob BudgetGrant := fun ctx =>
  match ctx.headOrErr key with
  | .error e => (.error e, ctx)
  | .ok bhead =>
    let hs := bhead.state
    match hs.refuses cfg ctx.nodeId amount ttlMs with
    | some e => (.error e, ctx)
    | none =>
      let (pending, ctx) := foldExpiredOwn key hs cfg.graceMs FOLD_BATCH .empty ctx
      let (window, ctx) := ctx.currentWindow hs
      let (pending, ctx) := gcOldWindows key hs (hs.maxTtlFor cfg) cfg.graceMs window FOLD_BATCH pending ctx
      if (hs.allocFor ctx.nodeId).toNat < ownOutstanding ctx key hs window pending + amount.toNat then
        if pending.other = [] ∧ pending.slots = [] then (.error .exhausted, ctx)
        else
          let (ops, ctx) := pending.intoOps ctx
          (.error .exhausted, if commits then ctx.commitOps ops else ctx)
      else writeGrant epoch key hs amount (hs.ttlFor cfg ttlMs) window reqid pending ctx

/-! ## Commit, release and draw -/

inductive CloseOp where
  /-- what was spent, or what was drawn so far -/
  | commit (spent : Option UInt64)
  | release
  | draw (n : UInt64)
  deriving DecidableEq, Repr

/-- Close a token in a transaction of its own. -/
def closeToken (key : Bytes) (hs : HeadState) (tid : TokenId) (st : TokenState) (state : UInt8) (spent : UInt64)
    (ctx : ShardCtx) :
    UInt64 × BudgetOps × ShardCtx :=
  let (credited, pending, ctx) := foldToken key hs (budgetTokenKey key tid) tid.node tid.epoch st state spent .empty ctx
  let (ops, ctx) := pending.intoOps ctx
  (credited, ops, ctx)

/-- What a close does to an open token that is within its deadline. -/
def closeOpen (key : Bytes) (hs : HeadState) (tid : TokenId) (st : TokenState) : CloseOp → BudgetJob (Except BudgetErr UInt64)
  | .draw n, ctx =>
    if n = 0 then (.error (.other (ascii "ERR amount must be a positive integer")), ctx)
    else
      match st.spent.checkedAdd n with
      | none => (.error (.other (ascii "ERR draw overflows token")), ctx)
      | some spent =>
        if st.amount < spent then
          (.error (.other (ascii "ERR draw exceeds reserved amount (" ++ decDigits 20 (st.amount - st.spent).toNat ++
            ascii " remaining)")), ctx)
        else
          (.ok ([(budgetTokenKey key tid, encodeTokenRecord ⟨ctx.hlcNow, ctx.nodeId⟩ 0 { st with spent := spent })],
            .ok (st.amount - spent)), ctx.tick)
  | .commit explicit, ctx =>
    let spent := explicit.getD st.spent
    if st.amount < spent then (.error (.other (ascii "ERR spent exceeds reserved amount")), ctx)
    else if spent < st.spent then (.error (.other (ascii "ERR spent below already drawn amount")), ctx)
    else
      let (credited, ops, ctx) := closeToken key hs tid st STATE_COMMITTED spent ctx
      (.ok (ops, .ok credited), ctx)
  | .release, ctx =>
    let (credited, ops, ctx) := closeToken key hs tid st STATE_RELEASED st.spent ctx
    (.ok (ops, .ok credited), ctx)

/-- The shard's part of BG.COMMIT, BG.RELEASE and BG.DRAW on the node that granted the token. A token past its deadline is
closed as expired, whatever is asked for. -/
def closeLocal (key : Bytes) (tid : TokenId) (op : CloseOp) : BudgetJob (Except BudgetErr UInt64) := fun ctx =>
  match ctx.headOrErr key with
  | .error e => (.error e, ctx)
  | .ok bhead =>
    if bhead.state.gen ≠ tid.gen then (.error .tokenExpired, ctx)
    else
      match (ctx.getRaw (budgetTokenKey key tid)).bind Envelope.decode with
      | none => (.error .tokenExpired, ctx)
      | some (_, payload) =>
        match TokenState.decode payload with
        | none => (.error (.other (ascii "ERR corrupt token record")), ctx)
        | some st =>
          if RANK_FOLDED ≤ st.rank then (.error (if st.state = STATE_EXPIRED then .tokenExpired else .tokenUsed), ctx)
          else if st.deadlineMs < ctx.nowMs then
            let (_, ops, ctx) := closeToken key bhead.state tid st STATE_EXPIRED st.spent ctx
            (.ok (ops, .error .tokenExpired), ctx)
          else closeOpen key bhead.state tid st op ctx

end Marekvs
