import Marekvs.Engine.Strings
import Marekvs.Lemmas.CounterMerge

/-!
# The records of a string key

A string key holds a text, a tombstone or a counter. `StringRecord` is such a record as data, `merge` its merge, and every command
on stored bytes is the encoding of the command on records (`delString_encode`, `setDeadline_encode`, `incrBy_encode`).

A bump can add a 256th slot to a counter. Its one-byte count then wraps to 0, and a reader finds the counter that `wire` says.
-/

namespace Marekvs

open List Option CounterState Envelope

namespace CounterState

/-- The counter that is read from the bytes of `c`. -/
def wire (c : CounterState) : CounterState := { c with slots := c.slots.take (c.slots.length % 256) }

theorem decodeSlots_take (slots : List Slot) (h : n ≤ slots.length) :
    decodeSlots n (slots.flatMap encodeSlot) = slots.take n := by
  have hlen : (slots.take n).length = n := by simp [h]
  conv_lhs => rw [← hlen, ← take_append_drop n slots, flatMap_append]
  rw [length_take, length_append, length_take, length_drop]
  have := decodeSlots_flatMap (slots.take n) ((slots.drop n).flatMap encodeSlot)
  rw [hlen] at this
  rw [show min n (min n slots.length + (slots.length - n)) = n by omega, this]

theorem decode_encode_wire (c : CounterState) : decode c.encode = some c.wire := by
  have hlen : (UInt8.ofNat c.slots.length).toNat = c.slots.length % 256 := UInt8.toNat_ofNat'
  have hslots := decodeSlots_take c.slots (Nat.mod_le c.slots.length 256)
  have hbytes : (c.slots.flatMap encodeSlot).length = c.slots.length * 18 := by simp [length_flatMap]
  have hle : c.slots.length % 256 ≤ c.slots.length := Nat.mod_le _ _
  simp [decode, encode, drop_append, drop_eq_nil_of_le, hlen, hslots, hbytes, hle, wire]

theorem wire_eq_self {c : CounterState} (h : c.slots.length ≤ MAX_SLOTS) : c.wire = c := by
  have h' : c.slots.length % 256 = c.slots.length := Nat.mod_eq_of_lt (Nat.lt_succ_of_le h)
  rw [wire, h', take_length]

theorem bumpSlot_node (delta : Int64) (s : Slot) : (bumpSlot delta s).node = s.node := by
  unfold bumpSlot
  split <;> rfl

theorem Canonical.wire_bump {c : CounterState} (h : c.Canonical) (n : NodeId) (delta : Int64) :
    (c.bump n delta).wire.Canonical := by
  have hasc : Asc (c.bump n delta).slots := asc_upsert (bumpSlot_node delta) h.asc
  refine ⟨hasc.take _, ?_⟩
  show (((c.bump n delta).slots).take _).length ≤ MAX_SLOTS
  rw [length_take]
  exact (min_le_left _ _).trans (Nat.le_of_lt_succ (Nat.mod_lt _ (by norm_num)))

theorem onBase_canonical (h : UInt64) (o : NodeId) (b : Int64) : (onBase h o b).Canonical := ⟨List.Pairwise.nil, Nat.zero_le _⟩

end CounterState

/-- What a string key holds. -/
inductive StringBody where
  | text (payload : Bytes)
  | dead
  | count (c : CounterState) (canonical : c.Canonical)

/-- A record of a string key. -/
structure StringRecord where
  version : Version
  ttl : UInt64
  body : StringBody

namespace StringRecord

/-- The type bits, the tombstone bit and the payload of a body. -/
def parts : StringBody → RecordType × Bool × Bytes
  | .text payload => (.string, false, payload)
  | .dead => (.string, true, [])
  | .count c _ => (.counter, false, c.encode)

def envelope (r : StringRecord) : Envelope :=
  ⟨Envelope.flagsOf (parts r.body).1 (parts r.body).2.1, r.version.hlc, r.version.origin, r.ttl⟩

def encode (r : StringRecord) : Bytes := r.envelope.encodeWith (parts r.body).2.2

@[simp] theorem decode_encode (r : StringRecord) : Envelope.decode r.encode = some (r.envelope, (parts r.body).2.2) :=
  decode_encodeWith _ _

@[simp] theorem envelope_version (r : StringRecord) : r.envelope.version = r.version := rfl

@[simp] theorem envelope_rtype (r : StringRecord) : r.envelope.rtype = (parts r.body).1 := rtype_flagsOf _ _ _ _ _

@[simp] theorem envelope_isTombstone (r : StringRecord) : r.envelope.isTombstone = (parts r.body).2.1 :=
  isTombstone_flagsOf _ _ _ _ _

@[simp] theorem envelope_isHead (r : StringRecord) : r.envelope.isHead = false := isHead_flagsOf _ _ _ _ _

/-- The newer of two records; a tie keeps the first. -/
def newer (a b : StringRecord) : StringRecord := if a.version < b.version then b else a

/-- The merge of two records. -/
def merge (a b : StringRecord) : StringRecord :=
  match a.body, b.body with
  | .count c hc, .count d hd =>
    ⟨max a.version b.version, if a.version < b.version then b.ttl else a.ttl, .count (c.merge d) (hc.merge hd)⟩
  | _, _ => a.newer b

theorem merge_version (a b : StringRecord) : (a.merge b).version = max a.version b.version := by
  have hnewer : (a.newer b).version = max a.version b.version := by
    unfold newer
    split
    · rename_i h
      exact (max_eq_right h.le).symm
    · rename_i h
      exact (max_eq_left (not_lt.1 h)).symm
  unfold merge
  split
  · rfl
  · exact hnewer

theorem merge_self (a : StringRecord) : a.merge a = a := by
  unfold merge
  cases a with
  | mk version ttl body =>
    cases body with
    | count c hc => simp [CounterState.merge_self hc]
    | text p => simp [newer]
    | dead => simp [newer]

section Counts

variable {a b r : StringRecord} {c d e : CounterState} {hc : c.Canonical} {hd : d.Canonical} {he : e.Canonical}
  (ha : a.body = .count c hc) (hb : b.body = .count d hd)
include ha hb

theorem merge_counts : a.merge b =
    ⟨max a.version b.version, if a.version < b.version then b.ttl else a.ttl, .count (c.merge d) (hc.merge hd)⟩ := by
  rw [merge, ha, hb]

/-- Counters whose version says their TTL and whose base version says their base merge in either order. -/
theorem merge_comm_counts (hbase : c.SameBase d) (httl : a.version = b.version → a.ttl = b.ttl) : a.merge b = b.merge a := by
  rw [merge_counts ha hb, merge_counts hb ha, max_comm, winner_comm _ _ _ _ httl]
  simp only [merge_comm hc hd hbase]

theorem merge_assoc_counts (hr : r.body = .count e he) : (a.merge b).merge r = a.merge (b.merge r) := by
  have hab : (a.merge b).body = .count (c.merge d) (hc.merge hd) := by rw [merge_counts ha hb]
  have hbr : (b.merge r).body = .count (d.merge e) (hd.merge he) := by rw [merge_counts hb hr]
  rw [merge_counts hab hr, merge_counts ha hbr, merge_version, merge_version, merge_counts ha hb, merge_counts hb hr]
  simp only [max_assoc, winner_assoc, merge_assoc hc hd he]

end Counts

/-- Two records that are not both counters merge to the newer one. -/
theorem resolve_newer (a b : StringRecord) :
    resolve a.encode b.encode (mergeLww a.envelope b.envelope) = (a.newer b).encode := by
  rw [resolve_mergeLww, envelope_version, envelope_version, newer]
  split <;> rfl

/-- Merging a record's bytes with those of a counter that reads back as `d`. -/
theorem mergeResolve_counter (a b : StringRecord) (ha : a.body = .count c hc)
    {d : CounterState} {hd : d.wire.Canonical} (hb : b.body = .count d.wire hd) :
    mergeResolve a.encode (newLww .counter b.version.hlc b.version.origin d.encode b.ttl) = (a.merge b).encode := by
  have hdec : CounterState.decode c.encode = some c := CounterState.decode_encode hc.le
  have henv : (Envelope.new .counter b.version.hlc b.version.origin).withTtl b.ttl =
      ⟨Envelope.flagsOf .counter false, b.version.hlc, b.version.origin, b.ttl⟩ := rfl
  rw [mergeResolve, mergeValues, newLww, henv, decode_encode, decode_encodeWith]
  simp only [envelope_rtype, envelope_isTombstone, ha, parts, rtype_flagsOf, isTombstone_flagsOf,
    Bool.not_false, and_self, if_true, mergeCounters, hdec, decode_encode_wire, resolve_outcomeOf]
  rw [merge, ha, hb]
  rfl

theorem mergeResolve_encode (a b : StringRecord) : mergeResolve a.encode b.encode = (a.merge b).encode := by
  cases ha : a.body with
  | count c hc =>
    cases hb : b.body with
    | count d hd =>
      have hw : d.wire = d := wire_eq_self hd.le
      have henc : b.encode = newLww .counter b.version.hlc b.version.origin d.encode b.ttl := by
        rw [encode, hb, envelope, hb]
        rfl
      rw [henc]
      have hd' : d.wire.Canonical := hw.symm ▸ hd
      have hb' : b.body = .count d.wire hd' := by
        rw [hb]
        congr 1
        exact hw.symm
      exact mergeResolve_counter a b ha hb'
    | text p =>
      rw [mergeResolve, mergeValues, decode_encode, decode_encode, merge, ha, hb]
      simp [ha, hb, parts, RecordType.isOrElement, resolve_newer]
    | dead =>
      rw [mergeResolve, mergeValues, decode_encode, decode_encode, merge, ha, hb]
      simp [ha, hb, parts, RecordType.isOrElement, resolve_newer]
  | text p =>
    rw [mergeResolve, mergeValues, decode_encode, decode_encode, merge, ha]
    cases hb : b.body <;> simp [ha, hb, parts, RecordType.isOrElement, resolve_newer]
  | dead =>
    rw [mergeResolve, mergeValues, decode_encode, decode_encode, merge, ha]
    cases hb : b.body <;> simp [ha, hb, parts, RecordType.isOrElement, resolve_newer]

/-! ## Commands on records -/

/-- Whether a reader may see the record. -/
def isVisible (r : StringRecord) (now : UInt64) : Bool := visible r.envelope 0 now

/-- The record a reader sees. -/
def seen (o : Option StringRecord) (now : UInt64) : Option StringRecord := o.filter fun r => r.isVisible now

/-- A record written through the merge. -/
def store (o : Option StringRecord) (w : StringRecord) : StringRecord :=
  match o with
  | none => w
  | some r => r.merge w

/-- SET. -/
def set (v : Version) (value : Bytes) (ttl : UInt64) : StringRecord := ⟨v, ttl, .text value⟩

/-- DEL. -/
def del (o : Option StringRecord) (v : Version) (now : UInt64) : Option StringRecord :=
  (seen o now).map fun _ => store o ⟨v, 0, .dead⟩

/-- EXPIRE. -/
def expire (o : Option StringRecord) (v : Version) (deadline now : UInt64) : Option StringRecord :=
  (seen o now).map fun r => store o ⟨v, deadline, r.body⟩

/-- The counter INCR starts from. -/
def base (o : Option StringRecord) : Option CounterState :=
  match o with
  | none => some (CounterState.onBase 0 0 0)
  | some r =>
    match r.body with
    | .count c _ => some c
    | .text payload => (parseI64 (trim payload)).map (CounterState.onBase r.version.hlc r.version.origin)
    | .dead => (parseI64 (trim [])).map (CounterState.onBase r.version.hlc r.version.origin)

theorem base_canonical (h : base o = some c) : c.Canonical := by
  unfold base at h
  split at h
  · cases h
    exact onBase_canonical _ _ _
  split at h
  · cases h
    assumption
  · obtain ⟨n, _, rfl⟩ := map_eq_some_iff.1 h
    exact onBase_canonical _ _ _
  · obtain ⟨n, _, rfl⟩ := map_eq_some_iff.1 h
    exact onBase_canonical _ _ _

/-- The counter record INCR writes on the base `c`, as it is read back. -/
def bumped (v : Version) (ttl : UInt64) (c : CounterState) (hc : c.Canonical) (node : NodeId) (delta : Int64) : StringRecord :=
  ⟨v, ttl, .count (c.bump node delta).wire (hc.wire_bump node delta)⟩

/-- The TTL an increment keeps. -/
def keepTtl (o : Option StringRecord) : UInt64 := (o.map ttl).getD 0

/-- INCR and its relatives succeed with value `new` and store `r`. -/
def Incr (o : Option StringRecord) (v : Version) (delta : Int64) (now : UInt64) (new : Int64) (r : StringRecord) : Prop :=
  ∃ c, ∃ h : base (seen o now) = some c, (c.bump v.origin delta).value = some new ∧
    r = store o (bumped v (keepTtl (seen o now)) c (base_canonical h) v.origin delta)

/-! ## The commands on bytes are the commands on records -/

theorem readLww_encode (o : Option StringRecord) (now : UInt64) :
    readLww (o.map encode) 0 now = (seen o now).map fun r => (r.envelope, (parts r.body).2.2) := by
  cases o with
  | none => rfl
  | some r =>
    rw [map_some, readLww, bind_some, decode_encode, seen, filter_some]
    show (if visible r.envelope 0 now then _ else _) = _
    unfold isVisible
    split <;> rfl

theorem writeMerged_encode (o : Option StringRecord) (w : StringRecord) :
    writeMerged (o.map encode) w.encode = (store o w).encode := by
  cases o with
  | none => rfl
  | some r => exact mergeResolve_encode r w

theorem delString_encode (o : Option StringRecord) (v : Version) (now : UInt64) :
    delString (o.map encode) v.hlc v.origin now = (del o v now).map encode := by
  rw [delString, readLww_encode, del, Option.map_map, Option.map_map]
  refine Option.map_congr fun r _ => ?_
  exact writeMerged_encode o ⟨v, 0, .dead⟩

theorem isVisible_iff {r : StringRecord} :
    r.isVisible now = true ↔ r.body ≠ .dead ∧ (r.ttl ≠ 0 → now < r.ttl) ∧ 0 < r.version.hlc := by
  have hdead : (parts r.body).2.1 = true ↔ r.body = .dead := by cases hb : r.body <;> simp [parts]
  have hexp : r.envelope.isExpired now = true ↔ r.ttl ≠ 0 ∧ r.ttl ≤ now := decide_eq_true_iff
  simp only [isVisible, visible, Bool.not_eq_true', decide_eq_false_iff_not, not_or, envelope_isTombstone, hdead, hexp,
    not_and, not_le]
  rfl

theorem seen_not_dead {o : Option StringRecord} (h : seen o now = some r) :
    o = some r ∧ r.body ≠ .dead ∧ 0 < r.version.hlc := by
  obtain ⟨ho, hv⟩ := filter_eq_some_iff.1 h
  exact ⟨ho, (isVisible_iff.1 hv).1, (isVisible_iff.1 hv).2.2⟩

theorem setDeadline_encode (o : Option StringRecord) (v : Version) (deadline now : UInt64) :
    setDeadline (o.map encode) v.hlc v.origin deadline now = (expire o v deadline now).map encode := by
  rw [setDeadline, readLww_encode, expire, Option.map_map, Option.map_map]
  refine Option.map_congr fun r hr => ?_
  have hdead := (seen_not_dead hr).2.1
  have henc : newLww (if r.envelope.rtype = .counter then .counter else .string) v.hlc v.origin (parts r.body).2.2 deadline =
      (⟨v, deadline, r.body⟩ : StringRecord).encode := by
    rw [envelope_rtype]
    cases hb : r.body with
    | text p => rfl
    | dead => exact absurd hb hdead
    | count c hc => rfl
  show writeMerged _ (newLww _ _ _ _ _) = _
  rw [henc]
  exact writeMerged_encode o _

theorem writeMerged_bumped (h : base (seen o now) = some c) (v : Version) (ttl : UInt64) (delta : Int64) :
    writeMerged (o.map encode) (newLww .counter v.hlc v.origin (c.bump v.origin delta).encode ttl) =
      (store o (bumped v ttl c (base_canonical h) v.origin delta)).encode := by
  have hraw : (c.bump v.origin delta).slots.length ≤ MAX_SLOTS →
      newLww .counter v.hlc v.origin (c.bump v.origin delta).encode ttl =
        (bumped v ttl c (base_canonical h) v.origin delta).encode := by
    intro hlen
    show _ = Envelope.encodeWith _ (CounterState.encode (CounterState.wire _))
    rw [wire_eq_self hlen]
    rfl
  -- only on top of a stored counter can the bump have more than one slot
  have hone : c.slots = [] → (c.bump v.origin delta).slots.length ≤ MAX_SLOTS := by
    intro hnil
    show (upsert _ _ c.slots).length ≤ _
    rw [hnil]
    exact (by decide : 1 ≤ 255)
  cases o with
  | none =>
    have hc : c.slots = [] := by
      cases h
      rfl
    exact (hraw (hone hc)) ▸ rfl
  | some r =>
    cases hb : r.body with
    | count d hd => exact mergeResolve_counter r (bumped v ttl c (base_canonical h) v.origin delta) hb rfl
    | text p =>
      have hc : c.slots = [] := by
        unfold base at h
        split at h
        · cases h
          rfl
        rename_i r' hr'
        obtain ⟨heq, _⟩ := seen_not_dead hr'
        cases heq
        rw [hb] at h
        obtain ⟨n, _, rfl⟩ := map_eq_some_iff.1 h
        rfl
      rw [hraw (hone hc)]
      exact writeMerged_encode (some r) _
    | dead =>
      have hc : c.slots = [] := by
        unfold base at h
        split at h
        · cases h
          rfl
        rename_i r' hr'
        obtain ⟨heq, hdead, _⟩ := seen_not_dead hr'
        cases heq
        exact absurd hb hdead
      rw [hraw (hone hc)]
      exact writeMerged_encode (some r) _

theorem stringBase_encode (o : Option StringRecord) :
    (stringBase (o.map fun r => (r.envelope, (parts r.body).2.2))).toOption = base o := by
  cases o with
  | none => rfl
  | some r =>
    rw [map_some, stringBase, base, envelope_rtype]
    cases hb : r.body with
    | text p =>
      simp only [parts, reduceCtorEq, if_false]
      cases parseI64 (trim p) <;> rfl
    | dead =>
      simp only [parts, reduceCtorEq, if_false]
      cases parseI64 (trim []) <;> rfl
    | count c hc =>
      simp only [parts, if_true, CounterState.decode_encode hc.le]
      rfl

/-- An increment of stored bytes is refused, or stores the bytes of an increment of the record. -/
theorem incrBy_encode (o : Option StringRecord) (v : Version) (delta : Int64) (now : UInt64) {new : Int64}
    (h : incrBy (o.map encode) v.hlc v.origin delta now = .ok (new, b)) :
    ∃ r, Incr o v delta now new r ∧ b = r.encode := by
  have hbase := stringBase_encode (seen o now)
  rw [incrBy, readLww_encode] at h
  dsimp only at h
  split at h
  · cases h
  rename_i c hc
  rw [hc] at hbase
  split at h
  · cases h
  rename_i n hn
  cases h
  refine ⟨_, ⟨c, hbase.symm, hn, rfl⟩, ?_⟩
  rw [← writeMerged_bumped hbase.symm]
  congr 2
  cases seen o now <;> rfl

end StringRecord

end Marekvs
