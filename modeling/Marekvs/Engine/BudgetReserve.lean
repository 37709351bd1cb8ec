import Marekvs.Engine.BudgetTokens

/-!
# Handlers of BG.RESERVE

A reservation is several steps of one handler, and other handlers run between them: the look at the table of granted requests,
the boot fence, the job on the shard, the sync of the log with the entry in the table, and, where the node's own escrow is used
up, the request to its peers. A request that a peer forwarded takes the same steps but the last.
-/

namespace Marekvs

open Resp (ascii)

/-! ## Granted requests -/

/-- The table of granted requests: a map, and its keys in the order they came. -/
structure ReqidLru where
  cap : Nat
  map : Bytes × UInt64 → Option BudgetGrant
  order : List (Bytes × UInt64)

namespace ReqidLru

def new (cap : Nat) : ReqidLru := ⟨max cap 1, fun _ => none, []⟩

def get (t : ReqidLru) (key : Bytes) (reqid : UInt64) : Option BudgetGrant := t.map (key, reqid)

/-- Drop the oldest entries until no more than the capacity are left. -/
def evict (t : ReqidLru) : ReqidLru :=
  let old := t.order.take (t.order.length - t.cap)
  { t with map := fun k => if k ∈ old then none else t.map k, order := t.order.drop (t.order.length - t.cap) }

def put (t : ReqidLru) (key : Bytes) (reqid : UInt64) (grant : BudgetGrant) : ReqidLru :=
  evict { t with map := fun k => if k = (key, reqid) then some grant else t.map k
                 order := if (t.get key reqid).isSome then t.order else t.order ++ [(key, reqid)] }

end ReqidLru

/-! ## Steps of a handler -/

/-- A reservation as it is asked for, by a client or by a peer. -/
structure ReserveReq where
  key : Bytes
  amount : UInt64
  ttl : Option UInt64
  reqid : UInt64
  /-- whether a peer asks; it is not sent on -/
  forwarded : Bool
  deriving DecidableEq, Repr

/-- The options of BG.RESERVE. -/
def reserveOpts : List Bytes → Option UInt64 → UInt64 → Except Reply (Option UInt64 × UInt64)
  | [], ttl, reqid => .ok (ttl, reqid)
  | word :: v :: rest, ttl, reqid =>
    if eqIgnoreCase word "TTL" then
      match readWord v with
      | none => .error .notInt
      | some n => reserveOpts rest (some n) reqid
    else if eqIgnoreCase word "REQID" then
      match readWord v with
      | none => .error .notInt
      | some n => reserveOpts rest ttl n
    else .error .syntaxError
  | [_], _, _ => .error .syntaxError

/-- The request that a client's arguments ask for. -/
def reserveArgs : List Bytes → Except Reply ReserveReq
  | _ :: key :: amount :: rest =>
    match readWord amount with
    | none => .error .notInt
    | some n => (reserveOpts rest none 0).map fun o => ⟨key, n, o.1, o.2, false⟩
  | _ => .error (.wrongArgs "bg.reserve")

/-- The request that a peer's message asks for; no TTL is sent as zero. -/
def remoteReserve (key : Bytes) (amount ttlMs reqid : UInt64) : ReserveReq :=
  ⟨key, amount, if ttlMs = 0 then none else some ttlMs, reqid, true⟩

/-- Where a handler is. -/
inductive ReservePhase where
  | arrived
  /-- the request is not in the table -/
  | missed
  /-- the boot fence is passed -/
  | ready
  /-- the grant is committed and not yet synced -/
  | committed (grant : BudgetGrant)
  /-- the peers are asked -/
  | forwarding
  | answered (reply : Except BudgetErr BudgetGrant)

/-- What handlers of one node share: the shard and the table. -/
structure ReserveEngine where
  ctx : ShardCtx
  reqids : ReqidLru

/-- What comes from outside when a handler goes on: whether the boot fence lets it pass, the settings, the disk, and what the
peers that were asked answered, in the order they were asked. -/
structure ReserveEnv where
  fence : Bool
  cfg : GrantCfg
  disk : Disk
  peers : List (Except BudgetErr BudgetGrant)

namespace ReserveEngine

/-- The grant that a request was answered with before. -/
def remembered (e : ReserveEngine) (req : ReserveReq) : Option BudgetGrant :=
  if req.reqid ≠ 0 then e.reqids.get req.key req.reqid else none

def remember (e : ReserveEngine) (req : ReserveReq) (grant : BudgetGrant) : ReserveEngine :=
  if req.reqid ≠ 0 then { e with reqids := e.reqids.put req.key req.reqid grant } else e

end ReserveEngine

/-- The first grant of a peer; one that is exhausted or unreachable is passed over. -/
def forwardReserve : List (Except BudgetErr BudgetGrant) → Except BudgetErr BudgetGrant
  | [] => .error .exhausted
  | .ok grant :: _ => .ok grant
  | .error .exhausted :: peers => forwardReserve peers
  | .error (.tryAgain _) :: peers => forwardReserve peers
  | .error e :: _ => .error e

/-- Where a handler goes from the outcome of its job. -/
def ReserveReq.afterJob (req : ReserveReq) : Except BudgetErr (BudgetOps × BudgetGrant) → ReservePhase
  | .ok (_, grant) => .committed grant
  | .error .exhausted => if req.forwarded then .answered (.error .exhausted) else .forwarding
  | .error e => .answered (.error e)

/-- A handler goes on until it has to wait again. -/
def ReserveReq.resume (epoch : UInt64) (env : ReserveEnv) (req : ReserveReq) (e : ReserveEngine) :
    ReservePhase → ReservePhase × ReserveEngine
  | .arrived =>
    match e.remembered req with
    | some prev => (.answered (.ok prev), e)
    | none => (.missed, e)
  | .missed =>
    if env.fence then (.ready, e)
    else (.answered (.error (.tryAgain (ascii "boot fence: no reachable home to fetch budget state from"))), e)
  | .ready =>
    let (res, ctx) := budgetJob env.disk.commits
      (grantLocal env.disk.commits epoch env.cfg req.key req.amount req.ttl req.reqid) e.ctx
    (req.afterJob res, { e with ctx := ctx })
  | .committed grant =>
    if env.disk.syncs then (.answered (.ok grant), e.remember req grant)
    else (.answered (.error (.tryAgain (ascii "wal sync failed"))), e)
  | .forwarding =>
    match forwardReserve env.peers with
    | .ok grant => (.answered (.ok grant), e.remember req grant)
    | .error err => (.answered (.error err), e)
  | .answered reply => (.answered reply, e)

end Marekvs
