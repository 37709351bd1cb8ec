import Marekvs.Lib.Bytes

/-!
# The record envelope

Every stored value is a 19-byte envelope followed by a payload: a flag byte (tombstone bit, collection-head bit, four type
bits), the version `(hlc, origin)`, and the absolute TTL deadline in wall milliseconds (0 for none). A version has the shape of
the add identities of element records (`Dot`), so one lexicographically ordered type serves both.
-/

namespace Marekvs

/-- A node's identifier. -/
abbrev NodeId : Type := UInt16

/-- The identity of a write: its hybrid-logical-clock reading and the node that took it. -/
structure Dot where
  hlc : UInt64
  origin : NodeId
  deriving DecidableEq, Repr, Inhabited

namespace Dot

/-- The derived order of the source: by clock reading, then by origin. -/
instance : LE Dot := ⟨fun a b => a.hlc < b.hlc ∨ a.hlc = b.hlc ∧ a.origin ≤ b.origin⟩

instance : LT Dot := ⟨fun a b => a.hlc < b.hlc ∨ a.hlc = b.hlc ∧ a.origin < b.origin⟩

theorem le_def {a b : Dot} : a ≤ b ↔ a.hlc < b.hlc ∨ a.hlc = b.hlc ∧ a.origin ≤ b.origin := Iff.rfl

theorem lt_def {a b : Dot} : a < b ↔ a.hlc < b.hlc ∨ a.hlc = b.hlc ∧ a.origin < b.origin := Iff.rfl

instance : LinearOrder Dot where
  le_refl a := Or.inr ⟨rfl, le_rfl⟩
  le_trans a b c := by
    simp only [le_def]
    grind
  le_antisymm a b := by
    simp only [le_def]
    rintro (h | ⟨h, h'⟩) (k | ⟨k, k'⟩)
    · exact absurd (h.trans k) (lt_irrefl _)
    · exact absurd (k ▸ h) (lt_irrefl _)
    · exact absurd (h ▸ k) (lt_irrefl _)
    cases a
    cases b
    simp only at h h' k'
    rw [h, le_antisymm h' k']
  le_total a b := by
    simp only [le_def]
    rcases lt_trichotomy a.hlc b.hlc with h | h | h
    · exact Or.inl (Or.inl h)
    · rcases le_total a.origin b.origin with h' | h'
      · exact Or.inl (Or.inr ⟨h, h'⟩)
      · exact Or.inr (Or.inr ⟨h.symm, h'⟩)
    · exact Or.inr (Or.inl h)
  lt_iff_le_not_ge a b := by
    simp only [le_def, lt_def]
    grind
  toDecidableLE := fun a b => inferInstanceAs (Decidable (a.hlc < b.hlc ∨ a.hlc = b.hlc ∧ a.origin ≤ b.origin))
  toDecidableLT := fun a b => inferInstanceAs (Decidable (a.hlc < b.hlc ∨ a.hlc = b.hlc ∧ a.origin < b.origin))
  toDecidableEq := inferInstance

theorem zero_le (a : Dot) : ⟨0, 0⟩ ≤ a := by
  rw [le_def]
  rcases eq_or_ne a.hlc 0 with h | h
  · exact .inr ⟨h.symm, UInt16.le_iff_toNat_le.2 (Nat.zero_le _)⟩
  · exact .inl (UInt64.pos_iff_ne_zero.2 h)

theorem lt_of_hlc_lt {a b : Dot} (h : a.hlc < b.hlc) : a < b := .inl h

theorem hlc_le_of_le {a b : Dot} (h : a ≤ b) : a.hlc ≤ b.hlc := by
  rcases h with h | ⟨h, _⟩
  · exact h.le
  · exact h.le

end Dot

/-- A record version, compared as the source compares the pair `(hlc, origin)`. -/
abbrev Version : Type := Dot

/-- The type bits of a record. -/
inductive RecordType where
  | string
  | hashField
  | setMember
  | zsetMember
  | list
  | streamEntry
  | counter
  | hllRegister
  | counterField
  deriving DecidableEq, Repr, Inhabited

namespace RecordType

/-- The discriminant, `rtype as u8`. -/
def toBits : RecordType → UInt8
  | string => 0
  | hashField => 1
  | setMember => 2
  | zsetMember => 3
  | list => 4
  | streamEntry => 5
  | counter => 6
  | hllRegister => 7
  | counterField => 8

/-- The type of a discriminant; unknown ones read as strings. -/
def fromBits (b : UInt8) : RecordType :=
  if b = 1 then hashField
  else if b = 2 then setMember
  else if b = 3 then zsetMember
  else if b = 4 then list
  else if b = 5 then streamEntry
  else if b = 6 then counter
  else if b = 7 then hllRegister
  else if b = 8 then counterField
  else string

/-- Element types merge by observed-remove dots; the rest are last-writer-wins or have their own rule. -/
def isOrElement : RecordType → Bool
  | hashField | setMember | zsetMember | counterField => true
  | _ => false

end RecordType

/-- Flag bit 0. -/
def TOMBSTONE : UInt8 := 1

/-- Flag bit 1. -/
def COLLECTION_HEAD : UInt8 := 2

/-- The length of an encoded envelope. -/
def ENVELOPE_LEN : Nat := 19

/-- The fixed part of a stored value. -/
structure Envelope where
  flags : UInt8
  hlc : UInt64
  origin : NodeId
  ttlDeadlineMs : UInt64
  deriving DecidableEq, Repr, Inhabited

namespace Envelope

variable (t : RecordType)

/-- The flag byte of a live record of type `t`. -/
def typeFlags : UInt8 := t.toBits <<< 2

/-- A live record's envelope, without a TTL. -/
def new (hlc : UInt64) (origin : NodeId) : Envelope := ⟨typeFlags t, hlc, origin, 0⟩

def tombstone (hlc : UInt64) (origin : NodeId) : Envelope := ⟨typeFlags t ||| TOMBSTONE, hlc, origin, 0⟩

def head (hlc : UInt64) (origin : NodeId) : Envelope := ⟨COLLECTION_HEAD, hlc, origin, 0⟩

variable (e : Envelope)

/-- The envelope with a TTL deadline. -/
def withTtl (deadlineMs : UInt64) : Envelope := { e with ttlDeadlineMs := deadlineMs }

def isTombstone : Bool := e.flags &&& TOMBSTONE ≠ 0

def isHead : Bool := e.flags &&& COLLECTION_HEAD ≠ 0

def rtype : RecordType := RecordType.fromBits ((e.flags >>> 2) &&& 15)

/-- The last-writer-wins order of records. -/
def version : Version := ⟨e.hlc, e.origin⟩

/-- Expiry is evaluated against the local wall clock. -/
def isExpired (nowMs : UInt64) : Bool := e.ttlDeadlineMs ≠ 0 ∧ e.ttlDeadlineMs ≤ nowMs

/-- A full stored value: the envelope's 19 bytes and the payload. -/
def encodeWith (payload : Bytes) : Bytes :=
  e.flags :: (Bytes.ofU64 e.hlc ++ Bytes.ofU16 e.origin ++ Bytes.ofU64 e.ttlDeadlineMs ++ payload)

/-- The envelope and payload of a stored value. -/
def decode : Bytes → Option (Envelope × Bytes)
  | [] => none
  | flags :: rest =>
    if rest.length + 1 < ENVELOPE_LEN then none
    else some (⟨flags, Bytes.toU64 (rest.take 8), Bytes.toU16 ((rest.drop 8).take 2),
      Bytes.toU64 ((rest.drop 10).take 8)⟩, rest.drop 18)

@[simp] theorem decode_encodeWith (payload : Bytes) : decode (e.encodeWith payload) = some (e, payload) := by
  simp [decode, encodeWith, ENVELOPE_LEN, List.drop_append, List.drop_eq_nil_of_le]
  omega

theorem encodeWith_inj {e e' : Envelope} : e.encodeWith p = e'.encodeWith p' ↔ e = e' ∧ p = p' := by
  constructor
  · intro h
    have := decode_encodeWith e p
    rw [h, decode_encodeWith] at this
    simpa [eq_comm] using this
  · rintro ⟨rfl, rfl⟩
    rfl

/-- The flag byte of a record of type `t`, with or without the tombstone bit. -/
def flagsOf (tomb : Bool) : UInt8 := if tomb then typeFlags t ||| TOMBSTONE else typeFlags t

theorem flagsOf_bits (tomb : Bool) :
    RecordType.fromBits ((flagsOf t tomb >>> 2) &&& 15) = t ∧
      decide (flagsOf t tomb &&& TOMBSTONE ≠ 0) = tomb ∧ decide (flagsOf t tomb &&& COLLECTION_HEAD ≠ 0) = false := by
  cases t <;> cases tomb <;> decide

@[simp] theorem rtype_flagsOf (tomb : Bool) (h : UInt64) (o : NodeId) (ttl : UInt64) : rtype ⟨flagsOf t tomb, h, o, ttl⟩ = t :=
  (flagsOf_bits t tomb).1

@[simp] theorem isTombstone_flagsOf (tomb : Bool) (h : UInt64) (o : NodeId) (ttl : UInt64) :
    isTombstone ⟨flagsOf t tomb, h, o, ttl⟩ = tomb := (flagsOf_bits t tomb).2.1

@[simp] theorem isHead_flagsOf (tomb : Bool) (h : UInt64) (o : NodeId) (ttl : UInt64) :
    isHead ⟨flagsOf t tomb, h, o, ttl⟩ = false := (flagsOf_bits t tomb).2.2

@[simp] theorem version_mk (f : UInt8) (h : UInt64) (o : NodeId) (ttl : UInt64) : version ⟨f, h, o, ttl⟩ = ⟨h, o⟩ := rfl

end Envelope

end Marekvs
