import Mathlib.Data.List.Basic

/-!
# Rollouts

The operator lets a StatefulSet replace its pods one by one. A reconcile pass observes the cluster, decides where the partition
of the rolling update goes, and publishes it in one patch with the pod template. The StatefulSet's own controller acts between
any two of these steps: it replaces pods from the highest ordinal down to the partition, as long as all pods are ready.
-/

namespace Marekvs

/-- What a pass observed of a rollout. -/
structure RolloutObserved where
  replicas : Int
  ready : Int
  /-- the worst gauge of the nodes; nothing where no node could be asked -/
  underreplicated : Option Int
  revisionChanged : Bool
  updated : Int
  /-- the partition that the last pass published -/
  partition : Option Int
  deriving DecidableEq, Repr

/-- What to do with the partition. -/
inductive Rollout where
  | idle
  | blocked (partition : Int)
  | advance (partition : Int)
  | done
  deriving DecidableEq, Repr

namespace RolloutObserved

/-- All pods are ready and no partition lacks a replica. -/
def healthy (o : RolloutObserved) : Bool := o.replicas ≤ o.ready && o.underreplicated = some 0

/-- The partition that the rollout is at; all pods are held back before the first pass. -/
def current (o : RolloutObserved) : Int := max 0 (min (o.partition.getD o.replicas) o.replicas)

end RolloutObserved

def rolloutStep (o : RolloutObserved) : Rollout :=
  if !o.revisionChanged then .idle
  else if o.replicas ≤ o.updated then .done
  else if o.partition.isNone ∧ 0 < o.current then .blocked o.current
  else if !o.healthy then .blocked o.current
  else if o.current = 0 then .blocked 0
  else .advance (o.current - 1)

/-- The partition that is patched into the StatefulSet. -/
def Rollout.partition : Rollout → Int
  | idle => 0
  | done => 0
  | blocked p => p
  | advance p => p

/-- The partition that is kept in the operator's status. -/
def Rollout.rolloutPartition : Rollout → Option Int
  | idle => none
  | done => none
  | blocked p => some p
  | advance p => some p

/-! ## The cluster -/

structure Pod where
  revision : Nat
  ready : Bool
  deriving DecidableEq, Repr

/-- A pass that has observed the cluster and has not published yet, with the template it was called with. -/
structure ReconcilePass where
  observed : RolloutObserved
  template : Nat
  deriving DecidableEq, Repr

structure RolloutCluster where
  /-- by ordinal -/
  pods : List Pod
  /-- the template of the StatefulSet, which is its update revision -/
  template : Nat
  /-- the current revision in its status -/
  current : Nat
  partition : Int
  /-- the partition in the operator's status -/
  rolloutPartition : Option Int
  /-- the template that the custom resource asks for -/
  desired : Nat
  pass : Option ReconcilePass
  deriving DecidableEq, Repr

inductive RolloutAct where
  /-- the custom resource asks for another template -/
  | edit (template : Nat)
  /-- a pass begins; what the gauges say -/
  | observe (underreplicated : Option Int)
  /-- the pass patches the StatefulSet and its own status -/
  | publish
  /-- the StatefulSet's controller replaces a pod -/
  | replace
  | readiness (ordinal : Nat) (ready : Bool)
  /-- the status says that the update is complete -/
  | complete
  deriving DecidableEq, Repr

namespace RolloutCluster

def observed (c : RolloutCluster) (underreplicated : Option Int) : RolloutObserved where
  replicas := c.pods.length
  ready := c.pods.countP Pod.ready
  underreplicated := underreplicated
  revisionChanged := c.template ≠ c.current
  updated := c.pods.countP fun pod => pod.revision = c.template
  partition := c.rolloutPartition

/-- The pod to replace: the highest ordinal from the partition on that has another revision, provided all pods are ready. -/
def victim (c : RolloutCluster) : Option Nat :=
  if c.pods.all Pod.ready then
    ((List.range c.pods.length).filter fun i : Nat =>
      c.partition ≤ (i : Int) ∧ (c.pods[i]?.any fun pod => pod.revision ≠ c.template)).getLast?
  else none

def step (c : RolloutCluster) : RolloutAct → RolloutCluster
  | .edit template => { c with desired := template }
  | .observe underreplicated =>
    if c.pass.isSome then c else { c with pass := some ⟨c.observed underreplicated, c.desired⟩ }
  | .publish =>
    match c.pass with
    | none => c
    | some pass =>
      let rollout := rolloutStep pass.observed
      { c with template := pass.template, partition := max 0 (min rollout.partition c.pods.length)
               rolloutPartition := rollout.rolloutPartition, pass := none }
  | .replace =>
    match c.victim with
    | none => c
    | some i => { c with pods := c.pods.set i ⟨c.template, false⟩ }
  | .readiness ordinal ready => { c with pods := c.pods.modify ordinal fun pod => { pod with ready := ready } }
  | .complete => if c.pods.all fun pod => pod.revision = c.template then { c with current := c.template } else c

end RolloutCluster

end Marekvs
