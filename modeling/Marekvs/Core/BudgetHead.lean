import Marekvs.Core.Budget
import Marekvs.Core.Keys

/-!
# Budget heads and keys

The head of a budget says how much there is to spend and how it is split: every node that may grant has an allocation, and a node
that was given up is fenced. The keys of slots and tokens carry the generation of the budget, the node and its incarnation.
-/

namespace Marekvs

open List

def MODE_POOL : UInt8 := 0
def MODE_WINDOW : UInt8 := 1

def HEAD_VER : UInt8 := 1

/-- What a budget's head says. -/
structure HeadState where
  /-- rises with every administrative command -/
  opSeq : UInt64
  /-- the stamp of the head that created the budget -/
  gen : UInt64
  mode : UInt8
  periodMs : UInt64
  capacity : UInt64
  /-- the most that one reservation may take, or zero for the capacity -/
  maxAmount : UInt64
  defaultTtlMs : UInt64
  maxTtlMs : UInt64
  alloc : List (NodeId × UInt64)
  /-- the nodes that were given up, and when -/
  fence : List (NodeId × UInt64)
  deriving DecidableEq, Repr

namespace HeadState

def allocFor (hs : HeadState) (node : NodeId) : UInt64 := ((hs.alloc.find? fun e => e.1 = node).map Prod.snd).getD 0

def isFenced (hs : HeadState) (node : NodeId) : Bool := hs.fence.any fun e => e.1 = node

def allocTotal (hs : HeadState) : Nat := (hs.alloc.map fun e => e.2.toNat).sum

/-! ## Encoding -/

def encodeEntries (es : List (NodeId × UInt64)) : Bytes := es.flatMap fun e => Bytes.ofU16 e.1 ++ Bytes.ofU64 e.2

def encode (hs : HeadState) : Bytes :=
  HEAD_VER :: (Bytes.ofU64 hs.opSeq ++ Bytes.ofU64 hs.gen ++ hs.mode :: (Bytes.ofU64 hs.periodMs ++ Bytes.ofU64 hs.capacity ++
    Bytes.ofU64 hs.maxAmount ++ Bytes.ofU64 hs.defaultTtlMs ++ Bytes.ofU64 hs.maxTtlMs ++
    UInt8.ofNat hs.alloc.length :: (encodeEntries hs.alloc ++ UInt8.ofNat hs.fence.length :: encodeEntries hs.fence)))

def entriesAt : Nat → Bytes → List (NodeId × UInt64)
  | 0, _ => []
  | n + 1, bs => (Bytes.toU16 (bs.take 2), Bytes.toU64 ((bs.drop 2).take 8)) :: entriesAt n (bs.drop 10)

/-- A number of entries behind their count, and what follows them. -/
def decodeEntries : Bytes → Option (List (NodeId × UInt64) × Bytes)
  | [] => none
  | n :: bs => if bs.length < n.toNat * 10 then none else some (entriesAt n.toNat bs, bs.drop (n.toNat * 10))

def decode (tail : Bytes) : Option HeadState :=
  if tail.length < 58 ∨ tail.head? ≠ some HEAD_VER then none
  else
    (decodeEntries (tail.drop 58)).bind fun (alloc, rest) =>
      (decodeEntries rest).map fun (fence, _) =>
        { opSeq := Bytes.toU64 ((tail.drop 1).take 8)
          gen := Bytes.toU64 ((tail.drop 9).take 8)
          mode := (tail.drop 17).headD 0
          periodMs := Bytes.toU64 ((tail.drop 18).take 8)
          capacity := Bytes.toU64 ((tail.drop 26).take 8)
          maxAmount := Bytes.toU64 ((tail.drop 34).take 8)
          defaultTtlMs := Bytes.toU64 ((tail.drop 42).take 8)
          maxTtlMs := Bytes.toU64 ((tail.drop 50).take 8)
          alloc := alloc
          fence := fence }

@[simp] theorem length_encodeEntries (es : List (NodeId × UInt64)) : (encodeEntries es).length = es.length * 10 := by
  induction es with
  | nil => rfl
  | cons e es ih =>
    rw [encodeEntries, flatMap_cons, ← encodeEntries]
    simp [ih]
    omega

theorem entriesAt_encodeEntries : entriesAt es.length (encodeEntries es ++ rest) = es := by
  induction es with
  | nil => rfl
  | cons e es ih =>
    have hsplit : encodeEntries (e :: es) ++ rest = Bytes.ofU16 e.1 ++ (Bytes.ofU64 e.2 ++ (encodeEntries es ++ rest)) := by
      simp [encodeEntries]
    have hdrop : (Bytes.ofU16 e.1 ++ (Bytes.ofU64 e.2 ++ (encodeEntries es ++ rest))).drop 10 = encodeEntries es ++ rest := by
      simp [drop_append, drop_eq_nil_of_le]
    rw [hsplit, length_cons, entriesAt, hdrop, ih]
    simp

theorem decodeEntries_encodeEntries (hlen : es.length ≤ 255) (rest : List UInt8) :
    decodeEntries (UInt8.ofNat es.length :: (encodeEntries es ++ rest)) = some (es, rest) := by
  have hn : (UInt8.ofNat es.length).toNat = es.length := by
    rw [UInt8.toNat_ofNat']
    omega
  rw [decodeEntries, hn, if_neg (by simp), entriesAt_encodeEntries]
  simp

theorem decode_encode (ha : hs.alloc.length ≤ 255) (hf : hs.fence.length ≤ 255) : decode hs.encode = some hs := by
  have hver : ¬ (hs.encode.length < 58 ∨ hs.encode.head? ≠ some HEAD_VER) := by
    simp [encode]
    omega
  have hdrop : hs.encode.drop 58 = UInt8.ofNat hs.alloc.length :: (encodeEntries hs.alloc ++
      UInt8.ofNat hs.fence.length :: encodeEntries hs.fence) := by
    simp [encode, drop_append, drop_eq_nil_of_le]
  have hfence := decodeEntries_encodeEntries hf []
  rw [append_nil] at hfence
  rw [decode, if_neg hver, hdrop, decodeEntries_encodeEntries ha, Option.bind_some]
  simp only [hfence, Option.map_some, Option.some.injEq]
  simp [encode, drop_append, drop_eq_nil_of_le]

end HeadState

/-! ## Tokens -/

/-- The identity of a token; its fields are those of the token's key. -/
structure TokenId where
  gen : UInt64
  hlc : UInt64
  node : NodeId
  epoch : UInt64
  deriving DecidableEq, Repr

namespace Ikey

/-- A pool-mode escrow slot. -/
def budgetSlotKey (userkey : Bytes) (gen : UInt64) (node : NodeId) (epoch : UInt64) : Bytes :=
  elemKey .budget userkey (BUDGET_SLOT :: (Bytes.ofU64 gen ++ Bytes.ofU16 node ++ Bytes.ofU64 epoch))

/-- A window-mode escrow slot. -/
def budgetWindowSlotKey (userkey : Bytes) (gen window : UInt64) (node : NodeId) (epoch : UInt64) : Bytes :=
  elemKey .budget userkey (BUDGET_WINDOW_SLOT :: (Bytes.ofU64 gen ++ Bytes.ofU64 window ++ Bytes.ofU16 node ++ Bytes.ofU64 epoch))

def budgetTokenKey (userkey : Bytes) (t : TokenId) : Bytes :=
  elemKey .budget userkey (BUDGET_TOKEN :: (Bytes.ofU64 t.gen ++ Bytes.ofU64 t.hlc ++ Bytes.ofU16 t.node ++ Bytes.ofU64 t.epoch))

/-- What the keys of a budget's records of one kind and one generation start with. -/
def budgetKindPrefix (userkey : Bytes) (kind : UInt8) (gen : UInt64) : Bytes :=
  elemKey .budget userkey (kind :: Bytes.ofU64 gen)

end Ikey

/-- The fields of a token's key. -/
def tokenSuffixFields (suffix : Bytes) : Option TokenId :=
  if suffix.length < 27 ∨ suffix.head? ≠ some BUDGET_TOKEN then none
  else some ⟨Bytes.toU64 ((suffix.drop 1).take 8), Bytes.toU64 ((suffix.drop 9).take 8), Bytes.toU16 ((suffix.drop 17).take 2),
    Bytes.toU64 ((suffix.drop 19).take 8)⟩

end Marekvs
