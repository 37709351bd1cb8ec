import Marekvs.Core.Envelope
import Marekvs.Core.Keys
import Marekvs.Lib.Desc

/-!
# Which nodes own a partition

Every node of the membership view gets a score for a partition, a hash of the two; the owners are the nodes with the highest
scores among those that hold data. With zones, a node of a zone that has no owner yet comes first. The hash is a parameter.
-/

namespace Marekvs

inductive NodePhase where
  | joining
  | active
  | leaving
  deriving DecidableEq, Repr

/-- Active and leaving nodes own data. -/
def NodePhase.ownsData : NodePhase → Bool
  | .joining => false
  | .active => true
  | .leaving => true

/-- A member of the cluster as placement sees it. -/
structure Member where
  node : NodeId
  phase : NodePhase
  zone : Option String
  deriving DecidableEq, Repr

/-- A node that can own partitions. -/
structure Candidate where
  node : NodeId
  active : Bool
  zone : Option String
  deriving DecidableEq, Repr

section

variable (xxh3 : Bytes → UInt64)

/-- The hash of the node and the partition, each with its low byte first. -/
def score (node : NodeId) (pid : Pid) : UInt64 := xxh3 ((Bytes.ofU16 node).reverse ++ (Bytes.ofU16 pid).reverse)

/-- The candidates by descending score; the node id breaks ties. -/
def scored (candidates : List Candidate) (pid : Pid) : List Candidate :=
  Desc.sortDesc (fun c : Candidate => toLex ((score xxh3 c.node pid).toNat, c.node.toNat)) candidates

/-- The first pass with zones: the first candidate of each zone, up to `n`. -/
def spreadZones (n : Nat) : List Candidate → List NodeId → List String → List NodeId
  | [], out, _ => out
  | c :: rest, out, used =>
    if out.length = n then out
    else
      match c.zone with
      | some z => if z ∈ used then spreadZones n rest out used else spreadZones n rest (out ++ [c.node]) (used ++ [z])
      | none => spreadZones n rest out used

/-- The second pass: the remaining slots in order of score. -/
def fillOwners (n : Nat) : List Candidate → List NodeId → List NodeId
  | [], out => out
  | c :: rest, out =>
    if out.length = n then out else if c.node ∈ out then fillOwners n rest out else fillOwners n rest (out ++ [c.node])

def ownersForZoned (candidates : List Candidate) (pid : Pid) (n : Nat) (zoneSpread : Bool) : List NodeId :=
  let scored := scored xxh3 candidates pid
  if !zoneSpread then (scored.take n).map Candidate.node else fillOwners n scored (spreadZones n scored [] [])

end

/-- A membership view. -/
structure View where
  members : List Member
  epoch : UInt64
  deriving DecidableEq, Repr

namespace View

def ownerCandidates (v : View) : List Candidate :=
  (v.members.filter fun m => m.phase.ownsData).map fun m => ⟨m.node, m.phase = .active, m.zone⟩

/-- Whether the view shows the node as active. -/
def isActive (v : View) (node : NodeId) : Bool := v.members.any fun m => m.node = node ∧ m.phase = .active

variable (xxh3 : Bytes → UInt64) (zoneSpread : Bool)

/-- The home replicas of a partition. -/
def owners (v : View) (pid : Pid) (n : Nat) : List NodeId := ownersForZoned xxh3 v.ownerCandidates pid n zoneSpread

/-- The primary home: the first owner that is active, or else the first owner. -/
def h1 (v : View) (pid : Pid) (n : Nat) : Option NodeId :=
  ((v.owners xxh3 zoneSpread pid n).find? v.isActive).or (v.owners xxh3 zoneSpread pid n).head?

def isOwner (v : View) (pid : Pid) (n : Nat) (node : NodeId) : Bool := (v.owners xxh3 zoneSpread pid n).contains node

end View

end Marekvs
