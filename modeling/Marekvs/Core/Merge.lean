import Marekvs.Core.Element

/-!
# The merge of stored values

`mergeValues` decides what happens when a record arrives for a key that already holds one. Counters join, HyperLogLog registers
keep the higher rank, element records join their dot sets, and everything else is last-writer-wins by version.
-/

namespace Marekvs

open ElementState

/-- What a merge decided. -/
inductive MergeOutcome where
  | keepLocal
  | takeIncoming
  | merged (bytes : Bytes)
  deriving DecidableEq, Repr

/-- Last writer wins; a tie keeps the local record. -/
def mergeLww (lenv ienv : Envelope) : MergeOutcome :=
  if lenv.version < ienv.version then .takeIncoming else .keepLocal

/-- A merged record is reported as one of its inputs where it equals it. -/
def outcomeOf (localRec incoming merged : Bytes) : MergeOutcome :=
  if merged = localRec then .keepLocal else if merged = incoming then .takeIncoming else .merged merged

/-- The TTL of the newer record. -/
def winnerTtl (lenv ienv : Envelope) : UInt64 :=
  if lenv.version < ienv.version then ienv.ttlDeadlineMs else lenv.ttlDeadlineMs

/-- Counter and counter: the merged state under the newer version, with its TTL. -/
def mergeCounters (lenv : Envelope) (lpay : Bytes) (ienv : Envelope) (ipay localRec incoming : Bytes) : MergeOutcome :=
  match CounterState.decode lpay, CounterState.decode ipay with
  | some l, some i =>
    let joined := CounterState.merge l i
    let version := max lenv.version ienv.version
    outcomeOf localRec incoming
      (Envelope.encodeWith ⟨Envelope.typeFlags .counter, version.hlc, version.origin, winnerTtl lenv ienv⟩ joined.encode)
  | _, _ => mergeLww lenv ienv

/-- Register and register: the higher rank wins with its own envelope, equal ranks resolve to the older version. -/
def mergeHllRegisters (lenv : Envelope) (lpay : Bytes) (ienv : Envelope) (ipay : Bytes) : MergeOutcome :=
  match lpay.head?, ipay.head? with
  | some lRank, some iRank =>
    if iRank < lRank then .keepLocal
    else if lRank < iRank then .takeIncoming
    else if lenv.version ≤ ienv.version then .keepLocal
    else .takeIncoming
  | _, _ => mergeLww lenv ienv

/-- The merged record's type, the numerically greater one whichever side it comes from. -/
def maxType (a b : RecordType) : RecordType := RecordType.fromBits (max a.toBits b.toBits)

/-- Two element states joined: the lists together, normalised, and for a counter field one entry for each node. -/
def joinStates (t : RecordType) (l i : ElementState) : ElementState :=
  let joined := ElementState.normalize ⟨l.live ++ i.live, l.covered ++ i.covered⟩
  if t = .counterField then joined.collapsePerOrigin else joined

def mergeElements (lenv : Envelope) (l : ElementState) (ienv : Envelope) (i : ElementState) (localRec incoming : Bytes) :
    MergeOutcome :=
  let t := maxType lenv.rtype ienv.rtype
  outcomeOf localRec incoming
    (encodeElement t (max lenv.version ienv.version) (winnerTtl lenv ienv) (joinStates t l i))

/-- Merge two stored values of one internal key. A corrupt local value is replaced, a corrupt incoming one ignored. -/
def mergeValues (localRec incoming : Bytes) : MergeOutcome :=
  match Envelope.decode localRec, Envelope.decode incoming with
  | none, _ => .takeIncoming
  | some _, none => .keepLocal
  | some (lenv, lpay), some (ienv, ipay) =>
    if lenv.rtype = .counter ∧ ienv.rtype = .counter ∧ !lenv.isTombstone ∧ !ienv.isTombstone then
      mergeCounters lenv lpay ienv ipay localRec incoming
    else if lenv.rtype = .hllRegister ∧ ienv.rtype = .hllRegister ∧ !lenv.isTombstone ∧ !ienv.isTombstone then
      mergeHllRegisters lenv lpay ienv ipay
    else if ienv.isHead ∨ lenv.isHead ∨ !ienv.rtype.isOrElement then mergeLww lenv ienv
    else
      match decode lpay, decode ipay with
      | some l, some i => mergeElements lenv l ienv i localRec incoming
      | _, _ => mergeLww lenv ienv

/-- The value that ends up stored. -/
def resolve (localRec incoming : Bytes) : MergeOutcome → Bytes
  | .keepLocal => localRec
  | .takeIncoming => incoming
  | .merged m => m

/-- The stored value after a record is merged into it. -/
def mergeResolve (localRec incoming : Bytes) : Bytes := resolve localRec incoming (mergeValues localRec incoming)

@[simp] theorem resolve_outcomeOf :
    resolve localRec incoming (outcomeOf localRec incoming merged) = merged := by
  unfold outcomeOf
  split
  · exact Eq.symm ‹_›
  · split
    · exact Eq.symm ‹_›
    · rfl

theorem resolve_mergeLww :
    resolve localRec incoming (mergeLww lenv ienv) = if lenv.version < ienv.version then incoming else localRec := by
  unfold mergeLww
  split <;> rfl

/-! ## The newer side's datum -/

section Winner

variable {α : Type} (u v w : Version) (p q r : α)

theorem winner_comm (h : u = v → p = q) : (if u < v then q else p) = if v < u then p else q := by
  rcases lt_trichotomy u v with huv | huv | huv
  · simp [huv, huv.not_gt]
  · simp [huv, h huv]
  · simp [huv, huv.not_gt]

theorem winner_assoc : (if max u v < w then r else if u < v then q else p) = if u < max v w then if v < w then r
else q else p := by
  rcases lt_or_ge u v with huv | hvu
  · rcases lt_or_ge v w with hvw | hwv
    · simp [huv, hvw, huv.trans hvw]
    · simp [huv, hwv.not_gt]
  · rcases lt_or_ge v w with hvw | hwv
    · simp [hvu.not_gt, hvw]
    · simp [hvu.not_gt, hwv.not_gt, (hwv.trans hvu).not_gt]

/-- The newer side's datum is the datum of every side that has the newer version. -/
theorem winner_eq_right (h : u = v → p = q) (hv : v = max u v) : (if u < v then q else p) = q := by
  split
  · rfl
  · rename_i hlt
    exact h (le_antisymm (hv ▸ le_max_left u v) (not_lt.1 hlt))

end Winner

end Marekvs
