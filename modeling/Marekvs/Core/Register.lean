import Marekvs.Core.Merge

/-!
# HyperLogLog registers

One register of a sketch is one record with a rank. Of two registers the one with the higher rank stays, under its own version;
of equal ranks the older one stays, so that adding an element again changes nothing.
-/

namespace Marekvs

open Envelope

/-- A register; the rank is the first byte of its payload. -/
structure RegisterRecord where
  version : Version
  ttl : UInt64
  rank : UInt8
  rest : Bytes

namespace RegisterRecord

variable (r : RegisterRecord)

def envelope : Envelope :=
  ⟨Envelope.flagsOf .hllRegister false, r.version.hlc, r.version.origin, r.ttl⟩

def encode : Bytes := r.envelope.encodeWith (r.rank :: r.rest)

@[simp] theorem decode_encode : Envelope.decode r.encode = some (r.envelope, r.rank :: r.rest) :=
  decode_encodeWith _ _

@[simp] theorem envelope_version : r.envelope.version = r.version := rfl

@[simp] theorem envelope_hlc : r.envelope.hlc = r.version.hlc := rfl

@[simp] theorem envelope_rtype : r.envelope.rtype = .hllRegister := rtype_flagsOf _ _ _ _ _

@[simp] theorem envelope_isTombstone : r.envelope.isTombstone = false :=
  isTombstone_flagsOf _ _ _ _ _

def merge (a b : RegisterRecord) : RegisterRecord :=
  if b.rank < a.rank then a else if a.rank < b.rank then b else if a.version ≤ b.version then a else b

theorem mergeResolve_encode (a b : RegisterRecord) : mergeResolve a.encode b.encode = (a.merge b).encode := by
  unfold mergeResolve mergeValues merge
  simp only [decode_encode, envelope_rtype, envelope_isTombstone, mergeHllRegisters, List.head?_cons, envelope_version]
  simp only [reduceCtorEq, false_and, if_false, Bool.not_false, and_self, if_true]
  split
  · rfl
  · split
    · rfl
    · by_cases hv : a.version ≤ b.version <;> simp [hv, resolve]

@[simp] theorem merge_self (a : RegisterRecord) : a.merge a = a := by simp [merge]

end RegisterRecord

/-- PFADD of an element with this rank at one register, on a node whose clock reads `hlc`. -/
def writeRegister (stored : Option Bytes) (hlc : UInt64) (node : NodeId) (rank : UInt8) : Bytes :=
  let record := (Envelope.new .hllRegister hlc node).encodeWith [rank]
  match stored with
  | none => record
  | some localRec => mergeResolve localRec record

end Marekvs
