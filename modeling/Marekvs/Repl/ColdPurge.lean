import Marekvs.Cluster.Placement
import Marekvs.Engine.Keyspace
import Marekvs.Repl.AntiEntropy

/-!
# Purging a partition that the node no longer owns

A node that has lost a partition asks its owners for the root of what they hold. Each request carries a nonce and is remembered
with the node's own root, the partition's generation and the view; an answer with the same root counts as a clean round. After
enough clean rounds under one view and one generation, and some time, the records are deleted.

The jobs of a partition's shard run one after the other, everything else beside them. A commit is visible before its observer has
counted it, and the shard does no other job in between. The steps of all tasks interleave freely. The hash is a parameter.
-/

namespace Marekvs

/-- A request that is waiting for its answer. -/
structure PendingColdProof where
  peer : NodeId
  nonce : Bytes
  root : UInt64
  generation : Nat
  viewEpoch : UInt64
  deriving DecidableEq, Repr

/-- The requests of a process: its random identifier, the last sequence number and the pending request of each partition. -/
structure ColdProofRequests where
  boot : Option Bytes
  sequence : UInt64
  pending : Pid → Option PendingColdProof

namespace ColdProofRequests

def issue (r : ColdProofRequests) (pid : Pid) (peer : NodeId) (root : UInt64) (generation : Nat) (viewEpoch : UInt64) :
    ColdProofRequests × Option Bytes :=
  match r.boot with
  | none => (r, none)
  | some boot =>
    match UInt64.checkedAdd r.sequence 1 with
    | none => (r, none)
    | some sequence =>
      let nonce := boot ++ Bytes.ofU64 sequence
      ({ r with
          sequence := sequence
          pending := Function.update r.pending pid (some ⟨peer, nonce, root, generation, viewEpoch⟩) }, some nonce)

/-- The pending request of a partition, taken out where peer and nonce are those it was sent with. -/
def take (r : ColdProofRequests) (pid : Pid) (peer : NodeId) (nonce : Bytes) : ColdProofRequests × Option PendingColdProof :=
  if (r.pending pid).any (fun p => p.peer = peer ∧ p.nonce = nonce) then
    ({ r with pending := Function.update r.pending pid none }, r.pending pid)
  else (r, none)

end ColdProofRequests

/-- The clean rounds counted for a partition. -/
structure ColdEvidence where
  generation : Nat
  viewEpoch : UInt64
  rounds : UInt64
  deriving DecidableEq, Repr

/-- One more clean round: on the entry there is, unless that is of another generation or view. -/
def ColdEvidence.count (entry : Option ColdEvidence) (generation : Nat) (viewEpoch : UInt64) : ColdEvidence :=
  let fresh : ColdEvidence := ⟨generation, viewEpoch, 0⟩
  let proof := entry.getD fresh
  let proof := if proof.generation ≠ generation ∨ proof.viewEpoch ≠ viewEpoch then fresh else proof
  { proof with rounds := UInt64.satAdd proof.rounds 1 }

inductive PurgeOutcome where
  | purged
  | empty
  | staleEvidence
  | ineligible
  deriving DecidableEq, Repr

/-- The call of a purge that fails in the store. -/
inductive PurgeFault where
  | marker
  | probe
  | delete
  deriving DecidableEq, Repr

/-- Decide about a purge. Returns the outcome; the caller deletes where it is `purged`. -/
def purgeIfEligible (fault : Option PurgeFault) (marker : Option UInt64) (content : Db) (generation : Nat)
    (now delay needRounds viewEpoch : UInt64) (eligible : Bool) (evidence : Option ColdEvidence) :
    Except PurgeFault PurgeOutcome :=
  if !eligible then .ok .ineligible
  else if fault = some .marker then .error .marker
  else
    match marker with
    | none => .ok .ineligible
    | some marked =>
      if UInt64.satSub now marked < delay then .ok .ineligible
      else if fault = some .probe then .error .probe
      else if content.toList = [] then .ok .empty
      else
        match evidence with
        | none => .ok .staleEvidence
        | some proof =>
          if proof.generation ≠ generation ∨ proof.viewEpoch ≠ viewEpoch then .ok .staleEvidence
          else if proof.rounds < needRounds then .ok .ineligible
          else if fault = some .delete then .error .delete
          else .ok .purged

/-- Where a task that wants the root of a partition is: about to begin, after it has read the generation, after its scan, or
done. -/
inductive Stage where
  | begun
  | reading (generation : Nat)
  | scanned (generation : Nat) (root : UInt64)
  | ready (root : UInt64) (generation : Nat)
  deriving DecidableEq, Repr

/-- A task that offers a partition to an owner. -/
structure OfferTask where
  pid : Pid
  peer : NodeId
  epoch : UInt64
  stage : Stage
  deriving DecidableEq, Repr

/-- A task that has taken a pending request and is about to count the round. -/
structure NoteTask where
  pid : Pid
  peer : NodeId
  generation : Nat
  viewEpoch : UInt64
  nonce : Bytes
  deriving DecidableEq, Repr

/-- A request that was sent, and the view it was sent under. -/
structure ColdRequest where
  pid : Pid
  proof : PendingColdProof
  view : View
  deriving DecidableEq, Repr

/-- An answer that was received. -/
structure ColdAnswer where
  peer : NodeId
  pid : Pid
  nonce : Bytes
  root : UInt64
  deriving DecidableEq, Repr

/-- What a process is configured with. -/
structure ColdConfig where
  xxh3 : Bytes → UInt64
  zoneSpread : Bool
  selfId : NodeId
  replicasN : Nat
  delay : UInt64
  needRounds : UInt64

/-- A process, with what it has sent and received so far. -/
structure ColdNode where
  view : View
  rejoining : Bool
  /-- the records of a partition -/
  content : Pid → Db
  /-- how often the partition was invalidated in this process -/
  generation : Pid → Nat
  /-- the calls of the observer that the shard's commit still has to make -/
  observing : Pid → Nat
  dirty : Pid → Bool
  roots : Pid → Option (UInt64 × Nat)
  marker : Pid → Option UInt64
  requests : ColdProofRequests
  evidence : Pid → Option ColdEvidence
  offers : List OfferTask
  notes : List NoteTask
  issued : List ColdRequest
  answers : List ColdAnswer

inductive ColdOp where
  /-- a new membership view -/
  | view (v : View)
  | rejoin (active : Bool)
  /-- a job of the shard commits `changes` records; what the partition then holds is visible -/
  | commit (pid : Pid) (content : Db) (changes : Nat)
  /-- the observer of a commit counts one record -/
  | observe (pid : Pid)
  | trackOwnershipLoss (pid : Pid) (now : UInt64)
  /-- a task begins to offer a partition to a peer that supports it -/
  | offer (pid : Pid) (peer : NodeId)
  /-- a task takes the cached root, which is young enough -/
  | useCached (task : Nat)
  | readGeneration (task : Nat)
  /-- the scan of a task; it may fail -/
  | scan (task : Nat) (fails : Bool)
  | checkGeneration (task : Nat)
  | issue (task : Nat)
  /-- a message that claims to answer, from a peer that supports it -/
  | response (answer : ColdAnswer)
  | note (task : Nat)
  | purge (pid : Pid) (now : UInt64) (fault : Option PurgeFault)

namespace ColdNode

variable (cfg : ColdConfig)

def rootOf (content : Db) : UInt64 := Ae.partitionRoot cfg.xxh3 content.keys content.getRaw

def owners (s : ColdNode) (pid : Pid) : List NodeId := s.view.owners cfg.xxh3 cfg.zoneSpread pid cfg.replicasN

abbrev isOwner (s : ColdNode) (pid : Pid) : Bool := s.view.isOwner cfg.xxh3 cfg.zoneSpread pid cfg.replicasN cfg.selfId

/-- A process at its start, on a store with these records and markers. -/
def boot (view : View) (rejoining : Bool) (content : Pid → Db) (marker : Pid → Option UInt64) (boot : Option Bytes) :
    ColdNode where
  view := view
  rejoining := rejoining
  content := content
  generation := fun _ => 0
  observing := fun _ => 0
  dirty := fun _ => false
  roots := fun _ => none
  marker := marker
  requests := ⟨boot, 0, fun _ => none⟩
  evidence := fun _ => none
  offers := []
  notes := []
  issued := []
  answers := []

variable (s : ColdNode)

def setStage (task : Nat) (t : OfferTask) (stage : Stage) : ColdNode :=
  { s with offers := s.offers.set task { t with stage := stage } }

def endOffer (task : Nat) : ColdNode := { s with offers := s.offers.eraseIdx task }

/-- Whether a request may go to the peer, and a round with it may count, under the current view and this generation. -/
def current (pid : Pid) (peer : NodeId) (epoch : UInt64) (generation : Nat) : Bool :=
  s.view.epoch = epoch && s.generation pid = generation && !s.isOwner cfg pid
    && (s.owners cfg pid).contains peer && s.view.isActive peer

def trackOwnershipLoss (pid : Pid) (now : UInt64) : ColdNode :=
  if s.isOwner cfg pid then
    { s with evidence := Function.update s.evidence pid none, marker := Function.update s.marker pid none }
  else if s.marker pid = none then
    { s with evidence := Function.update s.evidence pid none, marker := Function.update s.marker pid (some now) }
  else s

/-- Send a request for a root that is ready. -/
def issueTo (t : OfferTask) (root : UInt64) (generation : Nat) : ColdNode :=
  if root = 0 ∨ s.current cfg t.pid t.peer t.epoch generation = false then s
  else
    match s.requests.issue t.pid t.peer root generation t.epoch with
    | (requests, none) => { s with requests := requests }
    | (requests, some nonce) =>
      { s with
        requests := requests
        issued := ⟨t.pid, ⟨t.peer, nonce, root, generation, t.epoch⟩, s.view⟩ :: s.issued }

def noteCleanColdRound (t : NoteTask) : ColdNode :=
  if s.current cfg t.pid t.peer t.viewEpoch t.generation = false ∨ s.marker t.pid = none then s
  else
    { s with
      evidence := Function.update s.evidence t.pid (some (ColdEvidence.count (s.evidence t.pid) t.generation t.viewEpoch)) }

/-- Whether the current view allows to purge. -/
def eligible (pid : Pid) : Bool :=
  !s.rejoining && !s.isOwner cfg pid && cfg.replicasN ≤ (s.owners cfg pid).length
    && (s.owners cfg pid).all s.view.isActive

def purgeOutcome (pid : Pid) (now : UInt64) (fault : Option PurgeFault) : Except PurgeFault PurgeOutcome :=
  purgeIfEligible fault (s.marker pid) (s.content pid) (s.generation pid) now cfg.delay cfg.needRounds s.view.epoch
    (s.eligible cfg pid) (s.evidence pid)

def purgePartition (pid : Pid) (now : UInt64) (fault : Option PurgeFault) : ColdNode :=
  if s.purgeOutcome cfg pid now fault = .ok .purged then
    { s with
      content := Function.update s.content pid ∅
      generation := Function.update s.generation pid (s.generation pid + 1)
      evidence := Function.update s.evidence pid ((s.evidence pid).map fun proof => { proof with rounds := 0 }) }
  else s

/-- A step of the process. A job of a shard waits while a commit of its partition is being observed. -/
def step : ColdOp → ColdNode
  | .view v => { s with view := v }
  | .rejoin active => { s with rejoining := active }
  | .commit pid content changes =>
    if s.observing pid ≠ 0 ∨ changes = 0 then s
    else
      { s with
        content := Function.update s.content pid content
        observing := Function.update s.observing pid changes }
  | .observe pid =>
    if s.observing pid = 0 then s
    else
      { s with
        observing := Function.update s.observing pid (s.observing pid - 1)
        generation := Function.update s.generation pid (s.generation pid + 1)
        dirty := Function.update s.dirty pid true }
  | .trackOwnershipLoss pid now => if s.observing pid ≠ 0 then s else s.trackOwnershipLoss cfg pid now
  | .offer pid peer => { s with offers := s.offers ++ [⟨pid, peer, s.view.epoch, .begun⟩] }
  | .useCached task =>
    match s.offers[task]? with
    | none => s
    | some t =>
      match t.stage, s.roots t.pid with
      | .begun, some (root, generation) =>
        if s.dirty t.pid = false ∧ generation = s.generation t.pid then s.setStage task t (.ready root generation) else s
      | _, _ => s
  | .readGeneration task =>
    match s.offers[task]? with
    | none => s
    | some t =>
      match t.stage with
      | .begun =>
        { s with dirty := Function.update s.dirty t.pid false }.setStage task t (.reading (s.generation t.pid))
      | _ => s
  | .scan task fails =>
    match s.offers[task]? with
    | none => s
    | some t =>
      match t.stage with
      | .reading generation =>
        if s.observing t.pid ≠ 0 then s
        else if fails then { s with dirty := Function.update s.dirty t.pid true }.endOffer task
        else s.setStage task t (.scanned generation (rootOf cfg (s.content t.pid)))
      | _ => s
  | .checkGeneration task =>
    match s.offers[task]? with
    | none => s
    | some t =>
      match t.stage with
      | .scanned generation root =>
        if generation = s.generation t.pid then
          { s with roots := Function.update s.roots t.pid (some (root, generation)) }.setStage task t (.ready root generation)
        else { s with dirty := Function.update s.dirty t.pid true }.endOffer task
      | _ => s
  | .issue task =>
    match s.offers[task]? with
    | none => s
    | some t =>
      match t.stage with
      | .ready root generation => if s.observing t.pid ≠ 0 then s else (s.issueTo cfg t root generation).endOffer task
      | _ => s
  | .response answer =>
    if PARTITIONS ≤ answer.pid then s
    else
      match s.requests.take answer.pid answer.peer answer.nonce with
      | (requests, none) => { s with requests := requests, answers := answer :: s.answers }
      | (requests, some p) =>
        let s := { s with requests := requests, answers := answer :: s.answers }
        if p.root = answer.root then
          { s with notes := s.notes ++ [⟨answer.pid, answer.peer, p.generation, p.viewEpoch, p.nonce⟩] }
        else s
  | .note task =>
    match s.notes[task]? with
    | none => s
    | some t =>
      if s.observing t.pid ≠ 0 then s else { s.noteCleanColdRound cfg t with notes := s.notes.eraseIdx task }
  | .purge pid now fault => if s.observing pid ≠ 0 then s else s.purgePartition cfg pid now fault

def run (ops : List ColdOp) : ColdNode := ops.foldl (step cfg) s

end ColdNode

end Marekvs
