import Marekvs.Core.BudgetRecord
import Marekvs.Core.Register
import Marekvs.Core.StringRecord
import Marekvs.Core.ElementRecord
import Marekvs.Repl.AntiEntropy

/-!
# What two owners hold for one key

`HeldPair` lists the pairs of values that two owners can hold under one internal key. A dot carries one value wherever it travels,
and a base version stands for one base value; nothing else is asked of the two sides. `blocked` tells, from the two values alone,
the pairs an exchange cannot bring together.
-/

namespace Marekvs

/-- Merged by version with everything: no live counter, no live register, and no element unless it is a head. -/
def Envelope.lastWriter (e : Envelope) : Bool :=
  (e.rtype ≠ .counter ∨ e.isTombstone) ∧ (e.rtype ≠ .hllRegister ∨ e.isTombstone) ∧ (e.isHead ∨ !e.rtype.isOrElement)

namespace Ae

/-- The kinds of value that are merged by version with every other kind. -/
inductive LoneKind where
  | plain
  | count
  | register
  deriving DecidableEq

/-- A value of one of these kinds: a text, a tombstone, a head, a list or stream entry; a live counter; a live register. -/
inductive Lone : LoneKind → Bytes → Prop where
  | plain (e : Envelope) (payload : Bytes) (h : e.lastWriter) : Lone .plain (e.encodeWith payload)
  | count (r : StringRecord) (c : CounterState) (hc : c.Canonical) (h : r.body = .count c hc) : Lone .count r.encode
  | register (r : RegisterRecord) : Lone .register r.encode

/-- The values two owners can hold under one key. -/
inductive HeldPair (ikey : Bytes) : Bytes → Bytes → Prop where
  | lone {s t : LoneKind} {a b : Bytes} (hk : budgetKind ikey = none) (ha : Lone s a) (hb : Lone t b) (h : s = t → s = .plain) :
    HeldPair ikey a b
  | counts (hk : budgetKind ikey = none) {x y : StringRecord} {c d : CounterState} {hc : c.Canonical} {hd : d.Canonical}
    (hx : x.body = .count c hc) (hy : y.body = .count d hd) (hbase : c.SameBase d) : HeldPair ikey x.encode y.encode
  | registers (hk : budgetKind ikey = none) (x y : RegisterRecord) : HeldPair ikey x.encode y.encode
  | elements (hk : budgetKind ikey = none) {x y : ElementRecord} (val : Dot → Bytes) (hx : ∀ e ∈ x.state.live, e.2 = val e.1)
    (hy : ∀ e ∈ y.state.live, e.2 = val e.1) : HeldPair ikey x.encode y.encode
  | slots {kind : UInt8} (hk : budgetKind ikey = some kind) (hs : isSlotKind kind) (x y : SlotRecord) :
    HeldPair ikey x.encode y.encode
  | tokens (hk : budgetKind ikey = some BUDGET_TOKEN) (x y : TokenRecord) : HeldPair ikey x.encode y.encode

/-- Whether two such values of the key are joined: counters, elements and slots that are not given up. -/
def joins (ikey value : Bytes) : Bool :=
  match Envelope.decode value with
  | none => false
  | some (env, _) =>
    match budgetKind ikey with
    | some kind => isSlotKind kind && !env.isTombstone
    | none => (env.rtype = .counter ∧ !env.isTombstone) ∨ (env.rtype.isOrElement ∧ !env.isHead)

/-- The rank of a token or of a live register. -/
def rankOf (ikey value : Bytes) : Option UInt8 :=
  match Envelope.decode value with
  | none => none
  | some (env, payload) =>
    match budgetKind ikey with
    | some kind => if kind = BUDGET_TOKEN then (TokenState.decode payload).map TokenState.rank else none
    | none => if env.rtype = .hllRegister ∧ !env.isTombstone then payload.head? else none

/-- Whether a rank stays against a rank with a later clock: tokens of one rank are last-writer-wins, of registers of one rank the
older stays. -/
def staysAgainst (ikey : Bytes) (rank later : UInt8) : Bool :=
  match budgetKind ikey with
  | some _ => later < rank
  | none => later ≤ rank

/-- An exchange cannot bring the two values together: one with the later clock and a rank that loses, or two that carry the same
version and still differ, in their TTL where values are joined. -/
def blocked (ikey a b : Bytes) : Bool :=
  a ≠ b &&
    match Envelope.decode a, Envelope.decode b with
    | some (ea, _), some (eb, _) =>
      if joins ikey a ∧ joins ikey b then ea.version = eb.version ∧ ea.ttlDeadlineMs ≠ eb.ttlDeadlineMs
      else
        match rankOf ikey a, rankOf ikey b with
        | some ra, some rb =>
          (ea.version = eb.version ∧ ra = rb) ∨ (ea.hlc < eb.hlc ∧ staysAgainst ikey ra rb) ∨
            (eb.hlc < ea.hlc ∧ staysAgainst ikey rb ra)
        | _, _ => ea.version = eb.version
    | _, _ => false

end Ae

end Marekvs
