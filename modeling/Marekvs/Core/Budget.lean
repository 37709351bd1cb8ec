import Marekvs.Core.Ikey
import Marekvs.Core.Merge

/-!
# Budget records

An escrow slot is a ledger of what one incarnation of a node granted and got back; slots join by the pointwise maximum. A token
is one reservation; tokens merge by rank first, so that a folded token absorbs any open one whatever its version. Both kinds are
stored in an ordinary envelope and merged by `mergeBudget`, which the key's first suffix byte selects.
-/

namespace Marekvs

def RANK_OPEN : UInt8 := 0
def RANK_FOLDED : UInt8 := 2

def STATE_OPEN : UInt8 := 0
def STATE_COMMITTED : UInt8 := 1
def STATE_RELEASED : UInt8 := 2
def STATE_EXPIRED : UInt8 := 3

def TOKEN_VER : UInt8 := 1

/-- The escrow ledger of one incarnation: what it granted and what came back. -/
structure SlotState where
  granted : UInt64
  returned : UInt64
  deriving DecidableEq, Repr

namespace SlotState

def empty : SlotState := ⟨0, 0⟩

def outstanding (s : SlotState) : Nat := s.granted.toNat - s.returned.toNat

def encode (s : SlotState) : Bytes := Bytes.ofU64 s.granted ++ Bytes.ofU64 s.returned

def decode (payload : Bytes) : Option SlotState :=
  if payload.length < 16 then none
  else some ⟨Bytes.toU64 (payload.take 8), Bytes.toU64 ((payload.drop 8).take 8)⟩

/-- The pointwise maximum. -/
def join (a b : SlotState) : SlotState := ⟨max a.granted b.granted, max a.returned b.returned⟩

@[simp] theorem decode_encode (s : SlotState) : decode s.encode = some s := by
  simp [decode, encode, List.take_of_length_le]

end SlotState

/-- One reservation. -/
structure TokenState where
  rank : UInt8
  state : UInt8
  amount : UInt64
  /-- drawn so far -/
  spent : UInt64
  /-- given back at the fold -/
  credited : UInt64
  deadlineMs : UInt64
  /-- the window the grant was charged to -/
  window : UInt64
  reqid : UInt64
  deriving DecidableEq, Repr

namespace TokenState

def encode (t : TokenState) : Bytes :=
  [TOKEN_VER, t.rank, t.state] ++ Bytes.ofU64 t.amount ++ Bytes.ofU64 t.spent ++ Bytes.ofU64 t.credited ++
    Bytes.ofU64 t.deadlineMs ++ Bytes.ofU64 t.window ++ Bytes.ofU64 t.reqid

def decode : Bytes → Option TokenState
  | ver :: rank :: state :: rest =>
    if rest.length + 3 < 51 ∨ ver ≠ TOKEN_VER then none
    else some ⟨rank, state, Bytes.toU64 (rest.take 8), Bytes.toU64 ((rest.drop 8).take 8), Bytes.toU64 ((rest.drop 16).take 8),
      Bytes.toU64 ((rest.drop 24).take 8), Bytes.toU64 ((rest.drop 32).take 8), Bytes.toU64 ((rest.drop 40).take 8)⟩
  | _ => none

@[simp] theorem decode_encode (t : TokenState) : decode t.encode = some t := by
  simp [decode, encode, List.drop_append, List.drop_eq_nil_of_le, List.take_of_length_le]

end TokenState

/-- A slot's stored value. -/
def encodeSlotRecord (version : Version) (ttl : UInt64) (tomb : Bool) (st : SlotState) : Bytes :=
  Envelope.encodeWith ⟨Envelope.flagsOf .string tomb, version.hlc, version.origin, ttl⟩ st.encode

/-- A token's stored value; a folded token is a tombstone. -/
def encodeTokenRecord (version : Version) (ttl : UInt64) (st : TokenState) : Bytes :=
  Envelope.encodeWith ⟨Envelope.flagsOf .string (st.rank = RANK_FOLDED), version.hlc, version.origin, ttl⟩ st.encode

/-- Slot and slot: a tombstone on either side is last-writer-wins, two ledgers join. -/
def mergeSlots (lenv : Envelope) (lpay : Bytes) (ienv : Envelope) (ipay localRec incoming : Bytes) : MergeOutcome :=
  if lenv.isTombstone ∨ ienv.isTombstone then mergeLww lenv ienv
  else
    match SlotState.decode lpay, SlotState.decode ipay with
    | some l, some i =>
      outcomeOf localRec incoming
        (encodeSlotRecord (max lenv.version ienv.version) (winnerTtl lenv ienv) false (SlotState.join l i))
    | _, _ => mergeLww lenv ienv

/-- Token and token: the higher rank wins, equal ranks are last-writer-wins. -/
def mergeTokens (lenv : Envelope) (lpay : Bytes) (ienv : Envelope) (ipay : Bytes) : MergeOutcome :=
  match TokenState.decode lpay, TokenState.decode ipay with
  | some l, some i =>
    if i.rank < l.rank then .keepLocal
    else if l.rank < i.rank then .takeIncoming
    else mergeLww lenv ienv
  | _, _ => mergeLww lenv ienv

/-- Merge two stored values of one budget key of the given kind. -/
def mergeBudget (kind : UInt8) (localRec incoming : Bytes) : MergeOutcome :=
  match Envelope.decode localRec, Envelope.decode incoming with
  | none, _ => .takeIncoming
  | some _, none => .keepLocal
  | some (lenv, lpay), some (ienv, ipay) =>
    if kind = BUDGET_SLOT ∨ kind = BUDGET_WINDOW_SLOT then mergeSlots lenv lpay ienv ipay localRec incoming
    else if kind = BUDGET_TOKEN then mergeTokens lenv lpay ienv ipay
    else mergeLww lenv ienv

/-- The kind of a budget element's key, its first suffix byte. -/
def budgetKind (ikey : Bytes) : Option UInt8 :=
  match Ikey.parse ikey with
  | some ⟨_, .budget, _, kind :: _⟩ => some kind
  | _ => none

/-- What decides the merge of a key's records: the kind of a budget element, or the record types. -/
def mergeAt (ikey localRec incoming : Bytes) : MergeOutcome :=
  match budgetKind ikey with
  | some kind => mergeBudget kind localRec incoming
  | none => mergeValues localRec incoming

end Marekvs
