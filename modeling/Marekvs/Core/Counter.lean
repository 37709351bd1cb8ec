import Marekvs.Core.Envelope

/-!
# PN-counter records

A counter is a last-writer-wins base `(baseHlc, baseOrigin, base)` with one slot `(pos, neg)` for each node that ever
incremented on it. Two counters on one base join by the pointwise maximum of their slots; of two counters on different bases the
one on the newer base is taken whole.

Where the source finds a slot by binary search, `upsert` goes through the sorted list.
-/

namespace Marekvs

open List

/-- The most slots a merge keeps. -/
def MAX_SLOTS : Nat := 255

/-- One node's totals on a counter. -/
structure Slot where
  node : NodeId
  pos : UInt64
  neg : UInt64
  deriving DecidableEq, Repr

/-- Apply `f` to the slot of `node`, after inserting an empty one at its place where there is none. -/
def upsert (node : NodeId) (f : Slot → Slot) : List Slot → List Slot
  | [] => [f ⟨node, 0, 0⟩]
  | s :: rest =>
    if node = s.node then f s :: rest
    else if node < s.node then f ⟨node, 0, 0⟩ :: s :: rest
    else s :: upsert node f rest

/-- The state of a counter. -/
structure CounterState where
  baseHlc : UInt64
  baseOrigin : NodeId
  base : Int64
  slots : List Slot
  deriving DecidableEq, Repr

namespace CounterState

/-- A fresh counter on top of a value that was read; an absent key reads as version `(0, 0)` and value 0. -/
def onBase (baseHlc : UInt64) (baseOrigin : NodeId) (base : Int64) : CounterState := ⟨baseHlc, baseOrigin, base, []⟩

def baseVersion (c : CounterState) : Version := ⟨c.baseHlc, c.baseOrigin⟩

/-- The value in unbounded arithmetic, which the source computes in 128 bits. -/
def total (c : CounterState) : Int :=
  c.base.toInt + (c.slots.map fun s => (s.pos.toNat : Int) - s.neg.toNat).sum

/-- The value, or nothing where it does not fit 64 bits. -/
def value (c : CounterState) : Option Int64 :=
  if -2 ^ 63 ≤ c.total ∧ c.total < 2 ^ 63 then some (Int64.ofInt c.total) else none

/-- One increment added to a slot's totals. -/
def bumpSlot (delta : Int64) (s : Slot) : Slot :=
  if 0 ≤ delta.toInt then { s with pos := s.pos.satAdd (UInt64.ofNat delta.toInt.natAbs) }
  else { s with neg := s.neg.satAdd (UInt64.ofNat delta.toInt.natAbs) }

/-- A local increment by `node`; a negative one is a decrement. -/
def bump (c : CounterState) (node : NodeId) (delta : Int64) : CounterState :=
  { c with slots := upsert node (bumpSlot delta) c.slots }

/-- The pointwise maximum of a slot with totals that came from elsewhere. -/
def maxSlot (o s : Slot) : Slot := { s with pos := max s.pos o.pos, neg := max s.neg o.neg }

/-- The slots of `c` joined with those of `other`, one at a time, then cut to the cap. -/
def joinSlots (c other : CounterState) : CounterState :=
  { c with slots := (other.slots.foldl (fun acc o => upsert o.node (maxSlot o) acc) c.slots).take MAX_SLOTS }

def merge (a b : CounterState) : CounterState :=
  if b.baseVersion < a.baseVersion then a
  else if a.baseVersion < b.baseVersion then b
  else a.joinSlots b

/-- The 18 bytes of a slot. -/
def encodeSlot (s : Slot) : Bytes := Bytes.ofU16 s.node ++ Bytes.ofU64 s.pos ++ Bytes.ofU64 s.neg

/-- The payload: the base, the number of slots in one byte, the slots. -/
def encode (c : CounterState) : Bytes :=
  Bytes.ofU64 c.baseHlc ++ Bytes.ofU16 c.baseOrigin ++ Bytes.ofU64 c.base.toUInt64 ++
    UInt8.ofNat c.slots.length :: c.slots.flatMap encodeSlot

/-- Read `n` slots; the caller has checked that the bytes are there. -/
def decodeSlots : Nat → Bytes → List Slot
  | 0, _ => []
  | n + 1, rest =>
    ⟨Bytes.toU16 (rest.take 2), Bytes.toU64 ((rest.drop 2).take 8), Bytes.toU64 ((rest.drop 10).take 8)⟩ ::
      decodeSlots n (rest.drop 18)

/-- Read a payload; bytes behind the last slot are ignored. -/
def decode (payload : Bytes) : Option CounterState :=
  match payload.drop 18 with
  | [] => none
  | n :: rest =>
    if rest.length < n.toNat * 18 then none
    else some ⟨Bytes.toU64 (payload.take 8), Bytes.toU16 ((payload.drop 8).take 2),
      (Bytes.toU64 ((payload.drop 10).take 8)).toInt64, decodeSlots n.toNat rest⟩

@[simp] theorem length_encodeSlot (s : Slot) : (encodeSlot s).length = 18 := by simp [encodeSlot]

theorem decodeSlots_flatMap (slots : List Slot) (rest : Bytes) :
    decodeSlots slots.length (slots.flatMap encodeSlot ++ rest) = slots := by
  induction slots with
  | nil => rfl
  | cons s slots ih =>
    rw [flatMap_cons, append_assoc, length_cons, decodeSlots,
      drop_left' (length_encodeSlot s), ih]
    simp [encodeSlot, drop_append, drop_eq_nil_of_le]

theorem decode_encode (h : c.slots.length ≤ MAX_SLOTS) : decode c.encode = some c := by
  have hlen : (UInt8.ofNat c.slots.length).toNat = c.slots.length := by
    rw [UInt8.toNat_ofNat']
    exact Nat.mod_eq_of_lt (Nat.lt_succ_of_le h)
  have hslots := decodeSlots_flatMap c.slots []
  have hbytes : (c.slots.flatMap encodeSlot).length = c.slots.length * 18 := by
    simp [length_flatMap]
  rw [append_nil] at hslots
  simp [decode, encode, drop_append, drop_eq_nil_of_le, hlen, hslots, hbytes]

end CounterState

end Marekvs
