import Marekvs.Engine.Budgets
import Marekvs.Lib.Ordered

/-!
# Creating, funding and reclaiming a budget

BG.CREATE splits the capacity over nodes, BG.TOPUP adds to it, and BG.RECLAIM takes back what a dead node did not use and gives it
to the others. Each writes the whole head anew. A command whose sequence number is not above the one in the head was carried out
before and does nothing.
-/

namespace Marekvs

open Resp (ascii)

/-- The `i`-th of `n` shares of an amount: what is left over goes to the first ones. -/
def share (amount : UInt64) (n i : Nat) : UInt64 :=
  amount / UInt64.ofNat n + if i < (amount % UInt64.ofNat n).toNat then 1 else 0

def addTo (node : NodeId) (amount : UInt64) : List (NodeId × UInt64) → List (NodeId × UInt64)
  | [] => []
  | (id, a) :: rest => if id = node then (id, a.satAdd amount) :: rest else (id, a) :: addTo node amount rest

/-- Add to the allocations of nodes, from the `i`-th of `n` shares on. -/
def addShares (amount : UInt64) (n : Nat) : Nat → List NodeId → List (NodeId × UInt64) → List (NodeId × UInt64)
  | _, [], alloc => alloc
  | i, node :: nodes, alloc => addShares amount n (i + 1) nodes (addTo node (share amount n i) alloc)

/-! ## BG.CREATE -/

/-- The options of BG.CREATE. -/
structure CreateOpts where
  mode : UInt8
  periodMs : UInt64
  defaultTtl : UInt64
  maxTtl : UInt64
  maxAmount : UInt64
  nodes : List NodeId
  seq : Option UInt64

def readNode (b : Bytes) : Option NodeId := (readWord b).bind fun n => if n ≤ 65535 then some n.toUInt16 else none

/-- The options that take a number, and where it goes. -/
def numberOpt (word : Bytes) (v : UInt64) (o : CreateOpts) : Option CreateOpts :=
  if eqIgnoreCase word "TTL" then some { o with defaultTtl := v }
  else if eqIgnoreCase word "MAXTTL" then some { o with maxTtl := v }
  else if eqIgnoreCase word "MAXAMOUNT" then some { o with maxAmount := v }
  else if eqIgnoreCase word "SEQ" then some { o with seq := some v }
  else none

/-- The options behind the capacity; `fuel` bounds how many there are. -/
def createOpts : Nat → List Bytes → CreateOpts → Except Reply CreateOpts
  | 0, _, o => .ok o
  | _ + 1, [], o => .ok o
  | fuel + 1, a :: rest, o =>
    if eqIgnoreCase a "MODE" ∧ rest ≠ [] then
      match rest with
      | [] => .error .syntaxError
      | m :: rest =>
        if eqIgnoreCase m "POOL" then createOpts fuel rest { o with mode := MODE_POOL }
        else
          match eqIgnoreCase m "WINDOW", rest with
          | true, p :: rest =>
            match (readWord p).filter (0 < ·) with
            | none => .error (.err (ascii "ERR WINDOW period must be a positive integer (ms)"))
            | some p => createOpts fuel rest { o with mode := MODE_WINDOW, periodMs := p }
          | _, _ => .error .syntaxError
    else if (numberOpt a 0 o).isSome ∧ rest ≠ [] then
      match (rest.head?.bind readWord).bind fun v => numberOpt a v o with
      | none => .error .notInt
      | some o => createOpts fuel (rest.drop 1) o
    else if eqIgnoreCase a "NODES" then
      let nodes := o.nodes ++ (rest.takeWhile fun b => (readNode b).isSome).filterMap readNode
      if nodes = [] then .error (.err (ascii "ERR NODES requires at least one node id"))
      else createOpts fuel (rest.dropWhile fun b => (readNode b).isSome) { o with nodes := nodes }
    else .error .syntaxError

/-- The nodes that a budget is split over, each once and in order. -/
def escrowNodes (nodes : List NodeId) : List NodeId := (Ordered.sortAsc id nodes).dedup

namespace HeadState

/-- The head of a new budget. -/
def create (capacity : UInt64) (o : CreateOpts) (nodes : List NodeId) (opSeq gen : UInt64) : HeadState where
  opSeq := opSeq
  gen := gen
  mode := o.mode
  periodMs := o.periodMs
  capacity := capacity
  maxAmount := o.maxAmount
  defaultTtlMs := o.defaultTtl
  maxTtlMs := o.maxTtl
  alloc := nodes.mapIdx fun i node => (node, share capacity nodes.length i)
  fence := []

end HeadState

def budgetHeadRecord (hlc : UInt64) (node : NodeId) (del : UInt64) (hs : HeadState) : Bytes :=
  (Envelope.head hlc node).encodeWith (encodeHead Ctype.budget.toByte del ++ hs.encode)

def liveState (now : UInt64) : Option (Envelope × UInt8 × UInt64 × Option HeadState) → Option HeadState
  | some (env, _, _, st) => if env.isLive now then st else none
  | none => none

/-- Whether a sequence number says that a command was carried out before. -/
def alreadyDone (seq : Option UInt64) (hs : HeadState) : Bool := seq.any fun seq => seq ≤ hs.opSeq

/-- The job of BG.CREATE. -/
def createJob (key : Bytes) (capacity : UInt64) (o : CreateOpts) (nodes : List NodeId) : BudgetJob Unit := fun ctx =>
  if ctx.shadowed key then (.error .wrongtype, ctx)
  else
    let prev := ctx.headRaw key
    if prev.any fun h => h.1.isLive ctx.nowMs ∧ h.2.1 ≠ Ctype.budget.toByte then (.error .wrongtype, ctx)
    else
      let prevState := liveState ctx.nowMs prev
      if prevState.any (alreadyDone o.seq) then (.ok ([], ()), ctx)
      else
        let prevDel := (prev.map fun h => Db.headClock h.1 h.2.2.1 ctx.nowMs).getD 0
        let hlc := max ((prev.map fun h => h.1.hlc + 1).getD 0) ctx.hlcNow
        let hs := HeadState.create capacity o nodes (o.seq.getD ((prevState.map HeadState.opSeq).getD 0 + 1)) hlc
        (.ok ([(Ikey.headKey key, budgetHeadRecord hlc ctx.nodeId prevDel hs)], ()), ctx.tick)

/-- BG.CREATE; `owners` are the partition's home owners, or none without peers. -/
def bgCreate (owners : List NodeId) (disk : Disk) (args : List Bytes) (ctx : ShardCtx) : Reply × ShardCtx :=
  match args with
  | _ :: key :: capacity :: rest =>
    match readWord capacity with
    | none => (.notInt, ctx)
    | some capacity =>
      match createOpts rest.length rest ⟨MODE_POOL, 0, 0, 0, 0, [], none⟩ with
      | .error r => (r, ctx)
      | .ok o =>
        let nodes := if o.nodes ≠ [] then o.nodes else if owners ≠ [] then owners else [ctx.nodeId]
        if 255 < (escrowNodes nodes).length then (.err (ascii "ERR at most 255 escrow nodes"), ctx)
        else
          let (res, ctx) := budgetWrite disk (createJob key capacity o (escrowNodes nodes)) ctx
          (budgetReply (fun _ => .ok) res, ctx)
  | _ => (.wrongArgs "bg.create", ctx)

/-! ## BG.TOPUP -/

namespace HeadState

/-- The allocations after an amount was added, to one node or to all. -/
def topupAlloc (hs : HeadState) (self : NodeId) (amount : UInt64) (node : Option NodeId) :
    Except BudgetErr (List (NodeId × UInt64)) :=
  match node with
  | some n =>
    if hs.alloc.any fun e => e.1 = n then .ok (addTo n amount hs.alloc)
    else if 255 ≤ hs.alloc.length then .error (.other (ascii "ERR at most 255 escrow nodes"))
    else .ok (Ordered.sortAsc Prod.fst (hs.alloc ++ [(n, amount)]))
  | none =>
    if hs.alloc = [] then .ok [(self, amount)]
    else .ok (hs.alloc.mapIdx fun i e => (e.1, e.2.satAdd (share amount hs.alloc.length i)))

/-- The head with an amount added to its capacity. -/
def topup (hs : HeadState) (self : NodeId) (amount : UInt64) (node : Option NodeId) (seq : Option UInt64) :
    Except BudgetErr HeadState :=
  match hs.capacity.checkedAdd amount with
  | none => .error (.other (ascii "ERR capacity overflow"))
  | some capacity =>
    match hs.topupAlloc self amount node with
    | .error e => .error e
    | .ok alloc =>
      let hs := { hs with capacity := capacity, alloc := alloc }
      if hs.capacity.toNat < hs.allocTotal then .error (.other (ascii "ERR allocation exceeds capacity"))
      else .ok { hs with opSeq := seq.getD (hs.opSeq + 1) }

end HeadState

/-- The write of a head that takes the place of another. -/
def rewriteHead (key : Bytes) (bhead : BudgetHead) (hs : HeadState) (ctx : ShardCtx) : BudgetOps × ShardCtx :=
  ([(Ikey.headKey key, budgetHeadRecord (max (bhead.env.hlc + 1) ctx.hlcNow) ctx.nodeId bhead.delHlc hs)], ctx.tick)

/-- The job of BG.TOPUP. -/
def topupJob (key : Bytes) (amount : UInt64) (node : Option NodeId) (seq : Option UInt64) : BudgetJob Int64 := fun ctx =>
  match ctx.headOrErr key with
  | .error e => (.error e, ctx)
  | .ok bhead =>
    if alreadyDone seq bhead.state then (.ok ([], bhead.state.capacity.toInt64), ctx)
    else
      match bhead.state.topup ctx.nodeId amount node seq with
      | .error e => (.error e, ctx)
      | .ok hs =>
        let (ops, ctx) := rewriteHead key bhead hs ctx
        (.ok (ops, hs.capacity.toInt64), ctx)

/-- The options behind the amount. -/
def topupOpts : List Bytes → Option NodeId → Option UInt64 → Except Reply (Option NodeId × Option UInt64)
  | [], node, seq => .ok (node, seq)
  | a :: v :: rest, node, seq =>
    if eqIgnoreCase a "NODE" then
      match readNode v with
      | some n => topupOpts rest (some n) seq
      | none => .error .notInt
    else if eqIgnoreCase a "SEQ" then
      match readWord v with
      | some v => topupOpts rest node (some v)
      | none => .error .notInt
    else .error .syntaxError
  | [_], _, _ => .error .syntaxError

def bgTopup (disk : Disk) (args : List Bytes) (ctx : ShardCtx) : Reply × ShardCtx :=
  match args with
  | _ :: key :: amount :: rest =>
    match (readWord amount).filter (0 < ·) with
    | none => (.notInt, ctx)
    | some amount =>
      match topupOpts rest none none with
      | .error r => (r, ctx)
      | .ok (node, seq) =>
        let (res, ctx) := budgetWrite disk (topupJob key amount node seq) ctx
        (budgetReply .int res, ctx)
  | _ => (.wrongArgs "bg.topup", ctx)

/-! ## BG.RECLAIM -/

namespace ShardCtx

/-- What a token of a node stands for: all of it while it is open, and what was spent of it afterwards. -/
def tokenUse (target : NodeId) (e : Bytes × Bytes) : Nat :=
  match (Ikey.parse e.1).bind fun p => tokenSuffixFields p.suffix with
  | none => 0
  | some t =>
    if t.node ≠ target then 0
    else
      match (Envelope.decode e.2).bind fun p => TokenState.decode p.2 with
      | none => 0
      | some st => if RANK_FOLDED ≤ st.rank then st.spent.toNat else st.amount.toNat

/-- What the tokens of a node say it has used. -/
def tokenConsumed (ctx : ShardCtx) (key : Bytes) (gen : UInt64) (target : NodeId) : Nat :=
  ((ctx.db.scanPrefix (Ikey.budgetKindPrefix key BUDGET_TOKEN gen)).map (tokenUse target)).sum

/-- What a slot of a node has out; the node id stands `nodeOff` bytes into the suffix. -/
def slotUse (nodeOff : Nat) (target : NodeId) (e : Bytes × Bytes) : Nat :=
  match Ikey.parse e.1 with
  | none => 0
  | some p =>
    if p.suffix.length < nodeOff + 10 then 0
    else if Bytes.toU16 ((p.suffix.drop nodeOff).take 2) ≠ target then 0
    else
      match Envelope.decode e.2 with
      | none => 0
      | some (env, payload) => if env.isTombstone then 0 else ((SlotState.decode payload).map SlotState.outstanding).getD 0

/-- What the slots of a node say it has used. -/
def slotConsumed (ctx : ShardCtx) (key : Bytes) (hs : HeadState) (target : NodeId) : Nat :=
  if hs.mode = MODE_WINDOW then
    ((ctx.db.scanPrefix (Ikey.budgetKindPrefix key BUDGET_WINDOW_SLOT hs.gen)).map (slotUse 17 target)).sum
  else ((ctx.db.scanPrefix (Ikey.budgetKindPrefix key BUDGET_SLOT hs.gen)).map (slotUse 9 target)).sum

end ShardCtx

namespace HeadState

def addFence (hs : HeadState) (target : NodeId) (now : UInt64) : Except BudgetErr HeadState :=
  if hs.isFenced target then .ok hs
  else if 255 ≤ hs.fence.length then .error (.other (ascii "ERR too many fenced nodes"))
  else .ok { hs with fence := Ordered.sortAsc Prod.fst (hs.fence ++ [(target, now)]) }

def setAlloc (target : NodeId) (amount : UInt64) (alloc : List (NodeId × UInt64)) : List (NodeId × UInt64) :=
  alloc.map fun e => if e.1 = target then (e.1, amount) else e

/-- The nodes that can take over what another one did not use. -/
def recipients (hs : HeadState) (target : NodeId) : List NodeId :=
  (hs.alloc.map Prod.fst).filter fun n => n ≠ target ∧ !hs.isFenced n

/-- Take back what a node did not use, fence it, and spread what is free: the head and how much was free. -/
def reclaim (hs : HeadState) (target : NodeId) (consumed : Nat) (now : UInt64) (seq : Option UInt64) :
    Except BudgetErr (HeadState × UInt64) :=
  let allocTarget := hs.allocFor target
  let consumed := UInt64.ofNat (min consumed allocTarget.toNat)
  let freed := allocTarget - consumed
  match { hs with alloc := setAlloc target consumed hs.alloc }.addFence target now with
  | .error e => .error e
  | .ok hs =>
    let rs := hs.recipients target
    if 0 < freed ∧ rs = [] then .error (.other (ascii "ERR no unfenced nodes left to receive the reclaimed escrow"))
    else
      let alloc := if 0 < freed then addShares freed rs.length 0 rs hs.alloc else hs.alloc
      .ok ({ hs with alloc := alloc, opSeq := seq.getD (hs.opSeq + 1) }, freed)

end HeadState

/-- The job of BG.RECLAIM. -/
def reclaimJob (key : Bytes) (target : NodeId) (seq : Option UInt64) : BudgetJob Int64 := fun ctx =>
  match ctx.headOrErr key with
  | .error e => (.error e, ctx)
  | .ok bhead =>
    if alreadyDone seq bhead.state then (.ok ([], 0), ctx)
    else if bhead.state.allocFor target = 0 ∧ bhead.state.isFenced target then (.ok ([], 0), ctx)
    else
      let consumed := max (ctx.tokenConsumed key bhead.state.gen target) (ctx.slotConsumed key bhead.state target)
      match bhead.state.reclaim target consumed ctx.nowMs seq with
      | .error e => (.error e, ctx)
      | .ok (hs, freed) =>
        let (ops, ctx) := rewriteHead key bhead hs ctx
        (.ok (ops, freed.toInt64), ctx)

def bgReclaim (disk : Disk) (args : List Bytes) (ctx : ShardCtx) : Reply × ShardCtx :=
  match args with
  | _ :: key :: target :: rest =>
    match readNode target with
    | none => (.notInt, ctx)
    | some target =>
      if target = ctx.nodeId then (.err (ascii "ERR cannot reclaim this node (it is alive and serving this command)"), ctx)
      else
        match rest with
        | [] =>
          let (res, ctx) := budgetWrite disk (reclaimJob key target none) ctx
          (budgetReply .int res, ctx)
        | [word, v] =>
          if eqIgnoreCase word "SEQ" then
            match readWord v with
            | none => (.notInt, ctx)
            | some seq =>
              let (res, ctx) := budgetWrite disk (reclaimJob key target (some seq)) ctx
              (budgetReply .int res, ctx)
          else (.syntaxError, ctx)
        | _ => (.syntaxError, ctx)
  | _ => (.wrongArgs "bg.reclaim", ctx)

end Marekvs
