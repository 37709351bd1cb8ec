import Marekvs.Cluster.Placement
import Marekvs.Repl.AntiEntropy

/-!
# Pushing committed records to a peer

Committed records enter a bounded ring under increasing numbers. A pass of the pump reads the entries behind a peer's cursor,
decides for each whether it goes to the peer, and sends those in one batch with the number up to which it covers the ring. The
receiver applies a batch, keeps the number as its own cursor and acknowledges it; after each connect it sends its cursor, and the
sender takes it over.

A pass takes the cursor, reads and sends, and only then moves the cursor, provided it is still the one taken. A connection that is
lost takes along what is on it; what has arrived is still handled. A batch is taken to fit a frame: the connection's writer would
drop a larger one, while the cursor moves on.
-/

namespace Marekvs

def RING_MAX_BYTES : Nat := 128 * 1024 * 1024

def RING_MAX_OPS : Nat := 262144

def BATCH_MAX_OPS : Nat := 256

def BATCH_MAX_BYTES : Nat := 1024 * 1024

structure RingEntry where
  seq : Nat
  origin : NodeId
  op : ReplOp
  deriving DecidableEq, Repr

/-- The bytes an entry counts for in the ring. -/
def RingEntry.size (e : RingEntry) : Nat := e.op.ikey.length + e.op.value.length + 32

structure Ring where
  buf : List RingEntry
  bytes : Nat
  nextLocalSeq : Nat
  deriving DecidableEq, Repr

namespace Ring

def newStartingAt (firstSeq : Nat) : Ring := ⟨[], 0, max firstSeq 1⟩

/-- Drop the oldest entries while the ring is over one of its limits. -/
def evict : List RingEntry → Nat → List RingEntry × Nat
  | [], bytes => ([], bytes)
  | e :: rest, bytes =>
    if RING_MAX_BYTES < bytes ∨ RING_MAX_OPS < (e :: rest).length then evict rest (bytes - e.size) else (e :: rest, bytes)

def append (r : Ring) (origin : NodeId) (op : ReplOp) : Ring :=
  let e : RingEntry := ⟨r.nextLocalSeq, origin, op⟩
  ⟨r.buf ++ [e], r.bytes + e.size, r.nextLocalSeq + 1⟩

def push (r : Ring) (origin : NodeId) (ops : List ReplOp) : Ring :=
  let r := ops.foldl (fun r op => r.append origin op) r
  let (buf, bytes) := evict r.buf r.bytes
  { r with buf := buf, bytes := bytes }

/-- The number of the oldest entry there is. -/
def firstSeq (r : Ring) : Nat := (r.buf.head?.map RingEntry.seq).getD r.nextLocalSeq

def lastSeq (r : Ring) : Nat := (r.buf.getLast?.map RingEntry.seq).getD (r.nextLocalSeq - 1)

/-- Up to `max` entries after a number, and whether entries after it are gone. -/
def readAfter (r : Ring) (after max : Nat) : List RingEntry × Bool :=
  ((r.buf.filter fun e => after < e.seq).take max, after + 1 < r.firstSeq)

end Ring

/-- What the sender knows of a peer: the numbers sent and acknowledged, and the batches in between. -/
structure PeerFlow where
  sent : Nat
  acked : Nat
  inflight : List (Nat × Nat)
  deriving DecidableEq, Repr

namespace PeerFlow

/-- The flow of a peer that has everything up to `seq`. -/
def startingAt (seq : Nat) : PeerFlow := ⟨seq, seq, []⟩

variable (f : PeerFlow)

def inflightBytes : Nat := (f.inflight.map Prod.snd).sum

def windowFull (window : Nat) : Bool := window ≤ f.inflightBytes

def onSend (lastSeq bytes : Nat) : PeerFlow := { f with sent := lastSeq, inflight := f.inflight ++ [(lastSeq, bytes)] }

def onAck (seq : Nat) : PeerFlow :=
  let acked := max f.acked (min seq f.sent)
  { f with acked := acked, inflight := f.inflight.dropWhile fun b => b.1 ≤ acked }

def clearInflight : PeerFlow := { f with inflight := [] }

end PeerFlow

/-- What the pump does with an entry: wait for a better view, pass over it, or send it. -/
inductive Route where
  | defer
  | skip
  | send
  deriving DecidableEq, Repr

/-- What a sender is configured with. -/
structure PushConfig where
  xxh3 : Bytes → UInt64
  zoneSpread : Bool
  selfId : NodeId
  peer : NodeId
  replicasN : Nat
  window : Nat

/-- What decides about an entry: the view, and the keys in which the peer has a live interest. -/
structure RouteEnv where
  view : View
  interested : Pid → Bytes → Bool

def routeEntry (cfg : PushConfig) (env : RouteEnv) (e : RingEntry) : Route :=
  match Ikey.parse e.op.ikey with
  | none => .skip
  | some p =>
    let owners := env.view.owners cfg.xxh3 cfg.zoneSpread p.pid cfg.replicasN
    if owners = [] ∨ owners = [cfg.selfId] then
      if env.view.members.any fun m => m.node ≠ cfg.selfId then .defer else .skip
    else if e.origin = cfg.selfId ∧ cfg.peer ∈ owners ∧ cfg.peer ≠ cfg.selfId then .send
    else if env.view.h1 cfg.xxh3 cfg.zoneSpread p.pid cfg.replicasN = some cfg.selfId ∧ e.origin ≠ cfg.peer ∧
        cfg.peer ∉ owners ∧ env.interested p.pid p.userkey then .send
    else .skip

/-- Walk the entries read: those to send, the number up to which they were walked, and the bytes to send. -/
def walk (route : RingEntry → Route) : List RingEntry → Nat → Nat → List RingEntry × Nat × Nat
  | [], cursor, bytes => ([], cursor, bytes)
  | e :: rest, cursor, bytes =>
    match route e with
    | .defer => ([], cursor, bytes)
    | .skip => walk route rest e.seq bytes
    | .send =>
      let bytes := bytes + (e.op.ikey.length + e.op.value.length)
      if BATCH_MAX_BYTES ≤ bytes then ([e], e.seq, bytes)
      else
        let (ops, newCursor, bytes) := walk route rest e.seq bytes
        (e :: ops, newCursor, bytes)

/-- A batch: the entries it carries and the number it covers. -/
structure ReplBatch where
  entries : List RingEntry
  lastSeq : Nat
  deriving DecidableEq, Repr

/-- What the receiver sends back. `conn` is the connection it is sent on. -/
inductive BackMsg where
  | ackSeq (seq : Nat)
  | resumeFrom (seq conn : Nat)
  deriving DecidableEq, Repr

/-- A pass of the pump, after it has taken the cursor: the connection it then saw, and, once it has walked the entries, up to
which number, and the bytes of the batch if there was anything to send. -/
structure PumpPass where
  cursor : Nat
  conn : Nat
  walked : Option (Nat × Option Nat)
  deriving DecidableEq, Repr

/-- A sender, a receiver and the connection between them. -/
structure PushSys where
  ring : Ring
  flow : Option PeerFlow
  pass : Option PumpPass
  /-- the number of the connection, and whether it is there -/
  conn : Nat
  up : Bool
  wire : List ReplBatch
  /-- received and not yet handled by the receiver -/
  lane : List ReplBatch
  backWire : List BackMsg
  /-- received and not yet handled by the sender -/
  backLane : List BackMsg
  /-- the receiver's persisted cursor -/
  cursor : Nat
  /-- the cursor the receiver has read and is about to send -/
  resuming : Option Nat
  /-- the sender has handled the cursor sent on this connection -/
  resumed : Bool
  /-- the number up to which the receiver's first cursor and the passes so far reach -/
  passed : Nat
  /-- the numbers of the entries that were sent to the receiver -/
  routed : List Nat
  applied : List RingEntry
  /-- the gaps reported: each with the cursor and the oldest number there was -/
  gaps : List (Nat × Nat)
  deriving DecidableEq, Repr

inductive PushOp where
  /-- records are committed -/
  | push (origin : NodeId) (ops : List ReplOp)
  /-- a pass takes the cursor -/
  | pumpBegin
  /-- a pass reads the ring and sends; the queue of the connection takes the batch if it `accepts` -/
  | pumpSend (env : RouteEnv) (accepts : Bool)
  /-- a pass moves the cursor -/
  | pumpEnd
  | drop
  | connect
  /-- the sender learns that the connection is lost -/
  | disconnected
  | deliver
  | deliverBack
  /-- the receiver handles a batch -/
  | handle
  /-- the sender handles a message -/
  | handleBack
  /-- the receiver reads its cursor after a connect -/
  | resumeRead
  | resumeSend

namespace PushSys

def init (firstSeq cursor : Nat) : PushSys where
  ring := .newStartingAt firstSeq
  flow := none
  pass := none
  conn := 0
  up := false
  wire := []
  lane := []
  backWire := []
  backLane := []
  cursor := cursor
  resuming := none
  resumed := false
  passed := cursor
  routed := []
  applied := []
  gaps := []

variable (cfg : PushConfig) (s : PushSys)

/-- A pass that finds the entries after its cursor gone reports it. -/
def reportGap (cursor : Nat) : PushSys :=
  if (s.ring.readAfter cursor BATCH_MAX_OPS).2 then { s with gaps := (cursor, s.ring.firstSeq) :: s.gaps } else s

/-- A pass walks the entries after its cursor and sends those for the peer. -/
def pumpEntries (env : RouteEnv) (accepts : Bool) (cursor conn : Nat) : PushSys :=
  let entries := (s.ring.readAfter cursor BATCH_MAX_OPS).1
  if entries = [] then { s with pass := none }
  else
    let (ops, newCursor, bytes) := walk (routeEntry cfg env) entries cursor 0
    if ops = [] then { s with pass := some ⟨cursor, conn, some (newCursor, none)⟩, passed := max s.passed newCursor }
    else if s.up ∧ accepts then
      { s with
        pass := some ⟨cursor, conn, some (newCursor, some bytes)⟩
        wire := s.wire ++ [⟨ops, newCursor⟩]
        passed := max s.passed newCursor
        routed := ops.map RingEntry.seq ++ s.routed }
    else { s with pass := none }

def step : PushOp → PushSys
  | .push origin ops => { s with ring := s.ring.push origin ops }
  | .pumpBegin =>
    if s.pass.isSome ∨ s.up = false then s
    else
      let flow := s.flow.getD (.startingAt s.ring.lastSeq)
      let s := { s with flow := some flow }
      if flow.windowFull cfg.window ∨ s.ring.lastSeq ≤ flow.sent then s
      else { s with pass := some ⟨flow.sent, s.conn, none⟩ }
  | .pumpSend env accepts =>
    match s.pass with
    | some ⟨cursor, conn, none⟩ => (s.reportGap cursor).pumpEntries cfg env accepts cursor conn
    | _ => s
  | .pumpEnd =>
    match s.pass with
    | some ⟨cursor, _, some (newCursor, bytes)⟩ =>
      let s := { s with pass := none }
      match s.flow with
      | none => s
      | some flow =>
        if flow.sent ≠ cursor then s
        else
          match bytes with
          | none => { s with flow := some { flow with sent := newCursor } }
          | some bytes => { s with flow := some (flow.onSend newCursor bytes) }
    | _ => s
  | .drop => { s with up := false, wire := [], backWire := [], resumed := false }
  | .connect => if s.up then s else { s with up := true, conn := s.conn + 1 }
  | .disconnected => { s with flow := s.flow.map PeerFlow.clearInflight }
  | .deliver =>
    match s.wire with
    | [] => s
    | batch :: wire => { s with wire := wire, lane := s.lane ++ [batch] }
  | .deliverBack =>
    match s.backWire with
    | [] => s
    | msg :: backWire => { s with backWire := backWire, backLane := s.backLane ++ [msg] }
  | .handle =>
    match s.lane with
    | [] => s
    | batch :: lane =>
      { s with
        lane := lane
        applied := s.applied ++ batch.entries
        cursor := batch.lastSeq
        backWire := if s.up then s.backWire ++ [.ackSeq batch.lastSeq] else s.backWire }
  | .handleBack =>
    match s.backLane with
    | [] => s
    | .ackSeq seq :: backLane => { s with backLane := backLane, flow := s.flow.map fun f => f.onAck seq }
    | .resumeFrom seq conn :: backLane =>
      { s with backLane := backLane, flow := some (.startingAt seq), resumed := s.resumed || (s.up && conn = s.conn) }
  | .resumeRead => { s with resuming := some s.cursor }
  | .resumeSend =>
    match s.resuming with
    | none => s
    | some seq =>
      { s with
        resuming := none
        backWire := if s.up then s.backWire ++ [.resumeFrom seq s.conn] else s.backWire }

def run (ops : List PushOp) : PushSys := ops.foldl (step cfg) s

/-- A number that a read of the ring found to be gone. -/
def Gone (seq : Nat) : Prop := ∃ gap ∈ s.gaps, gap.1 < seq ∧ seq < gap.2

/-- An entry that has been passed is decided as before: one that was sent is not skipped, and one that was not is not sent. -/
def SameRoute (env : RouteEnv) (e : RingEntry) : Prop :=
  e.seq ≤ s.passed → (e.seq ∈ s.routed → routeEntry cfg env e ≠ .skip) ∧ (routeEntry cfg env e = .send → e.seq ∈ s.routed)

instance (s : PushSys) (env : RouteEnv) (e : RingEntry) : Decidable (s.SameRoute cfg env e) :=
  inferInstanceAs (Decidable (_ → _ ∧ _))

/-- What the next step may assume: a pass begins after the cursor of its connection has been handled, sends on that connection,
ends before the cursor of another has been handled, and decides as before about the entries that were passed before. -/
def Settled : PushOp → Prop
  | .pumpBegin => s.resumed = true
  | .pumpSend env _ => (∀ pass ∈ s.pass, s.up = true → pass.conn = s.conn) ∧ ∀ e ∈ s.ring.buf, s.SameRoute cfg env e
  | .pumpEnd => ∀ pass ∈ s.pass, s.resumed = true → pass.conn = s.conn
  | _ => True

instance (s : PushSys) : (op : PushOp) → Decidable (s.Settled cfg op)
  | .pumpBegin => inferInstanceAs (Decidable (s.resumed = true))
  | .pumpSend env _ =>
    inferInstanceAs (Decidable ((∀ pass ∈ s.pass, s.up = true → pass.conn = s.conn) ∧ ∀ e ∈ s.ring.buf, s.SameRoute cfg env e))
  | .pumpEnd => inferInstanceAs (Decidable (∀ pass ∈ s.pass, s.resumed = true → pass.conn = s.conn))
  | .push _ _ | .drop | .connect | .disconnected | .deliver | .deliverBack | .handle | .handleBack | .resumeRead | .resumeSend =>
    .isTrue trivial

end PushSys

end Marekvs
