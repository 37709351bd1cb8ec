import Marekvs.Core.Budget

/-!
# Slots and tokens as data

`SlotRecord` and `TokenRecord` are the two kinds of budget record. Merging the bytes of two stores the bytes of their `merge`
(`mergeBudget_slot`, `mergeBudget_token`).
-/

namespace Marekvs

open Envelope

/-- Whether a budget key holds an escrow slot. -/
def isSlotKind (kind : UInt8) : Bool := kind = BUDGET_SLOT ∨ kind = BUDGET_WINDOW_SLOT

/-- An escrow slot; a tombstone stands for a window slot that was given up. -/
structure SlotRecord where
  version : Version
  ttl : UInt64
  tomb : Bool
  state : SlotState
  deriving DecidableEq, Repr

namespace SlotState

theorem join_comm (a b : SlotState) : a.join b = b.join a := by simp [join, max_comm]

theorem join_assoc (a b c : SlotState) : (a.join b).join c = a.join (b.join c) := by simp [join, max_assoc]

@[simp] theorem join_self (a : SlotState) : a.join a = a := by simp [join]

end SlotState

namespace SlotRecord

variable (r : SlotRecord)

def envelope : Envelope := ⟨Envelope.flagsOf .string r.tomb, r.version.hlc, r.version.origin, r.ttl⟩

def encode : Bytes := encodeSlotRecord r.version r.ttl r.tomb r.state

@[simp] theorem decode_encode : Envelope.decode r.encode = some (r.envelope, r.state.encode) :=
  decode_encodeWith _ _

@[simp] theorem envelope_version : r.envelope.version = r.version := rfl

@[simp] theorem envelope_ttl : r.envelope.ttlDeadlineMs = r.ttl := rfl

@[simp] theorem envelope_isTombstone : r.envelope.isTombstone = r.tomb :=
  isTombstone_flagsOf _ _ _ _ _

/-- The merge of two slots: last-writer-wins where one is given up, else the join of the ledgers. -/
def merge (a b : SlotRecord) : SlotRecord :=
  if a.tomb ∨ b.tomb then if a.version < b.version then b else a
  else ⟨max a.version b.version, if a.version < b.version then b.ttl else a.ttl, false, a.state.join b.state⟩

theorem mergeBudget_slot (hk : isSlotKind kind) (a b : SlotRecord) :
    resolve a.encode b.encode (mergeBudget kind a.encode b.encode) = (a.merge b).encode := by
  have hk' : kind = BUDGET_SLOT ∨ kind = BUDGET_WINDOW_SLOT := by simpa [isSlotKind] using hk
  unfold mergeBudget mergeSlots merge
  simp only [decode_encode, if_pos hk', envelope_isTombstone, SlotState.decode_encode]
  split
  · rw [resolve_mergeLww, envelope_version, envelope_version]
    split <;> rfl
  · rw [resolve_outcomeOf]
    rfl

theorem merge_self (a : SlotRecord) : a.merge a = a := by
  unfold merge
  cases a with
  | mk version ttl tomb state => cases tomb <;> simp

theorem merge_version (a b : SlotRecord) : (a.merge b).version = max a.version b.version := by
  unfold merge
  split
  · split
    · rename_i h
      exact (max_eq_right h.le).symm
    · rename_i h
      exact (max_eq_left (not_lt.1 h)).symm
  · rfl

section Live

variable {a b c : SlotRecord} (ha : a.tomb = false) (hb : b.tomb = false)
include ha hb

theorem merge_of_live : a.merge b =
    ⟨max a.version b.version, if a.version < b.version then b.ttl else a.ttl, false, a.state.join b.state⟩ := by
  simp [merge, ha, hb]

theorem merge_live : (a.merge b).tomb = false := by rw [merge_of_live ha hb]

/-- Live slots whose version says their TTL merge in either order. -/
theorem merge_comm (httl : a.version = b.version → a.ttl = b.ttl) : a.merge b = b.merge a := by
  rw [merge_of_live ha hb, merge_of_live hb ha, max_comm, SlotState.join_comm]
  rw [winner_comm _ _ _ _ httl]

theorem merge_assoc (hc : c.tomb = false) : (a.merge b).merge c = a.merge (b.merge c) := by
  rw [merge_of_live (merge_live ha hb) hc, merge_of_live ha (merge_live hb hc), merge_of_live ha hb, merge_of_live hb hc]
  simp only [max_assoc, SlotState.join_assoc, mk.injEq, true_and, and_true]
  exact winner_assoc a.version b.version c.version a.ttl b.ttl c.ttl

theorem ttl_of_merge (httl : a.version = b.version → a.ttl = b.ttl) (hv : b.version = (a.merge b).version) :
    b.ttl = (a.merge b).ttl := by
  rw [merge_version] at hv
  rw [merge_of_live ha hb]
  exact (winner_eq_right _ _ _ _ httl hv).symm

end Live

end SlotRecord

/-- A token. -/
structure TokenRecord where
  version : Version
  ttl : UInt64
  state : TokenState
  deriving DecidableEq, Repr

namespace TokenRecord

variable (r : TokenRecord)

def envelope : Envelope :=
  ⟨Envelope.flagsOf .string (r.state.rank = RANK_FOLDED), r.version.hlc, r.version.origin, r.ttl⟩

def encode : Bytes := encodeTokenRecord r.version r.ttl r.state

@[simp] theorem decode_encode : Envelope.decode r.encode = some (r.envelope, r.state.encode) :=
  decode_encodeWith _ _

@[simp] theorem envelope_version : r.envelope.version = r.version := rfl

@[simp] theorem envelope_hlc : r.envelope.hlc = r.version.hlc := rfl

/-- The merge of two tokens: the higher rank, and of equal ranks the newer. -/
def merge (a b : TokenRecord) : TokenRecord :=
  if b.state.rank < a.state.rank then a
  else if a.state.rank < b.state.rank then b
  else if a.version < b.version then b else a

theorem mergeBudget_token (a b : TokenRecord) :
    resolve a.encode b.encode (mergeBudget BUDGET_TOKEN a.encode b.encode) = (a.merge b).encode := by
  have hk : ¬ (BUDGET_TOKEN = BUDGET_SLOT ∨ BUDGET_TOKEN = BUDGET_WINDOW_SLOT) := by decide
  unfold mergeBudget mergeTokens merge
  simp only [decode_encode, if_neg hk, if_true, TokenState.decode_encode]
  split
  · rfl
  split
  · rfl
  · rw [resolve_mergeLww, envelope_version, envelope_version]
    split <;> rfl

end TokenRecord

end Marekvs
