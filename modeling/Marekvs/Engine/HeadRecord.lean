import Marekvs.Engine.Keyspace
import Marekvs.Engine.StringRun

/-!
# Collection heads as records

A head says that a collection exists or was deleted, and carries its delete clock. Heads are merged whole, by version: the newer
head decides what stays hidden, whatever the older one knew.
-/

namespace Marekvs

open Ikey Envelope

/-- A head: live or a tombstone. -/
structure HeadRecord where
  tomb : Bool
  version : Version
  ttl : UInt64
  ctype : UInt8
  del : UInt64
  /-- what some types keep behind the delete clock -/
  tail : Bytes

namespace HeadRecord

variable (h : HeadRecord)

def envelope : Envelope :=
  ⟨if h.tomb then COLLECTION_HEAD ||| TOMBSTONE else COLLECTION_HEAD, h.version.hlc, h.version.origin, h.ttl⟩

def payload : Bytes := encodeHead h.ctype h.del ++ h.tail

def encode : Bytes := h.envelope.encodeWith h.payload

/-- The delete clock that holds at any time: what the head carries, and its own stamp if it is a tombstone. -/
def base : UInt64 := if h.tomb then max h.del h.version.hlc else h.del

@[simp] theorem decode_encode : Envelope.decode h.encode = some (h.envelope, h.payload) :=
  decode_encodeWith _ _

@[simp] theorem envelope_version : h.envelope.version = h.version := rfl

@[simp] theorem envelope_hlc : h.envelope.hlc = h.version.hlc := rfl

@[simp] theorem envelope_ttl : h.envelope.ttlDeadlineMs = h.ttl := rfl

@[simp] theorem versionOf_encode : versionOf h.encode = h.version := by simp [versionOf]

theorem flags_bits (tomb : Bool) :
    RecordType.fromBits (((if tomb then COLLECTION_HEAD ||| TOMBSTONE else COLLECTION_HEAD) >>> 2) &&& 15) = .string ∧
      decide ((if tomb then COLLECTION_HEAD ||| TOMBSTONE else COLLECTION_HEAD) &&& TOMBSTONE ≠ 0) = tomb ∧
      decide ((if tomb then COLLECTION_HEAD ||| TOMBSTONE else COLLECTION_HEAD) &&& COLLECTION_HEAD ≠ 0) = true := by
  cases tomb <;> decide

@[simp] theorem envelope_rtype : h.envelope.rtype = .string := (flags_bits h.tomb).1

@[simp] theorem envelope_isTombstone : h.envelope.isTombstone = h.tomb := (flags_bits h.tomb).2.1

@[simp] theorem envelope_isHead : h.envelope.isHead = true := (flags_bits h.tomb).2.2

@[simp] theorem decodeHead_payload : decodeHead h.payload = some (h.ctype, h.del) := by
  have htake : (Bytes.ofU64 h.del ++ h.tail).take 8 = Bytes.ofU64 h.del := List.take_left' (by simp)
  simp [payload, encodeHead, decodeHead, htake]

theorem encode_fresh (hlc : UInt64) (node : NodeId) (ctype : UInt8) (del : UInt64) :
    (Envelope.head hlc node).encodeWith (encodeHead ctype del) = encode ⟨false, ⟨hlc, node⟩, 0, ctype, del, []⟩ := by
  simp [encode, payload, envelope, head]

theorem encode_tombstone (hlc : UInt64) (node : NodeId) (ctype : UInt8) :
    Db.headTombstone ctype hlc node = encode ⟨true, ⟨hlc, node⟩, 0, ctype, hlc, []⟩ := by
  simp [encode, payload, envelope, Db.headTombstone]

theorem base_le_headClock (now : UInt64) : h.base ≤ Db.headClock h.envelope h.del now := by
  simp only [Db.headClock, base, envelope_isTombstone, envelope_hlc]
  by_cases hexp : h.envelope.isExpired now = true
  · rw [if_pos hexp]
    exact le_max_left _ _
  · rw [if_neg hexp]

end HeadRecord

/-- A key whose tag byte is that of another kind holds no budget element. -/
theorem mergeAt_of_tagByte {tag : Tag} (hk : (k.drop 2).head? = some tag.toByte) (htag : tag ≠ .budget) :
    mergeAt k = mergeValues := by
  have hkind : budgetKind k = none := by
    unfold budgetKind parse
    cases hd : k.drop 2 with
    | nil => rfl
    | cons b rest =>
      rw [hd] at hk
      obtain rfl := Option.some.inj hk
      cases tag <;> first | exact absurd rfl htag | (simp only [Tag.ofByte_toByte]; split <;> grind)
  funext l i
  simp [mergeAt, hkind]

@[simp] theorem mergeAt_headKey (userkey : Bytes) : mergeAt (headKey userkey) = mergeValues :=
  mergeAt_of_tagByte (tagByte_elemKey ..) (by decide)

/-- Whatever is stored, an arriving head takes its place if it is newer, or if what is stored does not decode. -/
theorem writeMergedAt_head (h : HeadRecord) :
    writeMergedAt (headKey userkey) (some stored) h.encode =
      match Envelope.decode stored with
      | none => h.encode
      | some (env, _) => if env.version < h.version then h.encode else stored := by
  simp only [writeMergedAt, mergeAt_headKey, mergeValues, HeadRecord.decode_encode]
  cases decode stored with
  | none => rfl
  | some p =>
    obtain ⟨env, payload⟩ := p
    simp only [HeadRecord.envelope_rtype, reduceCtorEq, false_and, and_false, if_false, HeadRecord.envelope_isHead, true_or,
      if_true, resolve_mergeLww, HeadRecord.envelope_version]
    by_cases hlt : env.version < h.version <;> simp only [hlt, if_true, if_false]

namespace Db

variable {db : Db} {userkey : Bytes} {h : HeadRecord}

theorem getHead_of_getRaw (hraw : db.getRaw (headKey userkey) = some h.encode) :
    db.getHead userkey = some (h.envelope, h.ctype, h.del) := by
  simp [getHead, hraw]

theorem getHead_eq_none (hraw : db.getRaw (headKey userkey) = none) : db.getHead userkey = none := by
  simp [getHead, hraw]

theorem getRaw_writeMerged_head (new : HeadRecord) :
    (db.writeMerged (headKey userkey) new.encode).getRaw (headKey userkey) =
      some (match db.getRaw (headKey userkey) with
        | none => new.encode
        | some stored => writeMergedAt (headKey userkey) (some stored) new.encode) := by
  rw [getRaw_writeMerged_self]
  cases db.getRaw (headKey userkey) <;> rfl

/-! ## Sweeps, purges and moves -/

theorem getRaw_sweepRecord_of_ne (db : Db) {ikey k : Bytes} (hk : ikey ≠ k) (now : UInt64) :
    (db.sweepRecord ikey now).getRaw k = db.getRaw k := by
  unfold sweepRecord
  split
  · split
    · exact getRaw_writeMerged_of_ne db hk _
    · rfl
  · rfl

theorem getRaw_sweepRecord_of_none {ikey : Bytes} (h : db.getRaw ikey = none) (now : UInt64) :
    (db.sweepRecord ikey now).getRaw ikey = none := by
  rw [sweepRecord, h]
  split
  · rename_i hdec
    cases hdec
  · exact h

theorem getRaw_purge_of_ne (db : Db) {ikey k : Bytes} (hk : ikey ≠ k) : (db.purge ikey).getRaw k = db.getRaw k := by
  unfold purge
  split
  · rfl
  · split
    · simp [getRaw, Std.ExtTreeMap.getElem?_erase, hk]
    · rfl

theorem getRaw_purge_of_none {ikey : Bytes} (h : db.getRaw ikey = none) : (db.purge ikey).getRaw ikey = none := by
  rw [purge, h]
  exact h

/-- A visit of the sweeper leaves an expired head alone: the head is not older than its own deadline. -/
def SweepSpares (db : Db) (userkey ikey : Bytes) (now : UInt64) : Prop :=
  ikey = headKey userkey → ∀ env t del, db.getHead userkey = some (env, t, del) →
    env.isTombstone = false → env.isExpired now = true → env.expiryHlc ≤ env.hlc

/-- The string tombstone of an expired head loses against a head that is not older than its deadline. -/
theorem writeMergedAt_expiryTombstone (hle : h.envelope.expiryHlc ≤ h.version.hlc) :
    writeMergedAt (headKey userkey) (some h.encode) (expiryTombstone h.envelope h.payload) = h.encode := by
  have htomb : expiryTombstone h.envelope h.payload =
      (tombstone .string h.envelope.expiryHlc h.version.origin).encodeWith [] := by
    simp only [expiryTombstone, HeadRecord.envelope_rtype, RecordType.isOrElement, Bool.false_eq_true, if_false]
    rfl
  have hver : ¬ h.version < ⟨h.envelope.expiryHlc, h.version.origin⟩ := by
    rw [not_lt]
    rcases hle.lt_or_eq with hlt | heq
    · exact .inl hlt
    · exact .inr ⟨heq, le_rfl⟩
  rw [htomb]
  simp only [writeMergedAt, mergeAt_headKey, mergeValues, HeadRecord.decode_encode, decode_encodeWith,
    HeadRecord.envelope_rtype, reduceCtorEq, false_and, if_false, HeadRecord.envelope_isHead, true_or, or_true, if_true,
    resolve_mergeLww, HeadRecord.envelope_version]
  exact if_neg hver

theorem getRaw_sweepRecord_head {ikey : Bytes} {now : UInt64} (hraw : db.getRaw (headKey userkey) = some h.encode)
    (hok : db.SweepSpares userkey ikey now) : (db.sweepRecord ikey now).getRaw (headKey userkey) = some h.encode := by
  by_cases hk : ikey = headKey userkey
  · have hkeep := hok hk _ _ _ (getHead_of_getRaw hraw)
    subst hk
    unfold sweepRecord
    split
    · rename_i p env payload hparse hdec
      split
      · rename_i hswept
        obtain ⟨_, hlive, _, hexp⟩ := hswept
        rw [hraw, Option.bind_some, HeadRecord.decode_encode, Option.some.injEq, Prod.mk.injEq] at hdec
        obtain ⟨rfl, rfl⟩ := hdec
        rw [getRaw_writeMerged_self, hraw, writeMergedAt_expiryTombstone (hkeep (by simpa using hlive) hexp)]
      · exact hraw
    · exact hraw
  · rw [getRaw_sweepRecord_of_ne db hk, hraw]

theorem shadowHeadDelHlc_payload (h : HeadRecord) (min : UInt64) :
    shadowHeadDelHlc h.payload min = encodeHead h.ctype (max h.del min) ++ h.tail := by
  have hclock : Bytes.toU64 ((h.payload.drop 1).take 8) = h.del := by simp [HeadRecord.payload, encodeHead, List.take_left']
  have hdrop : h.payload.drop 9 = h.tail := by simp [HeadRecord.payload, encodeHead, List.drop_left']
  rw [shadowHeadDelHlc, hclock]
  split
  · rename_i hlt
    rw [hdrop, max_eq_right hlt.2.le]
    simp [HeadRecord.payload, encodeHead]
  · rename_i hge
    rw [max_eq_left (not_lt.1 fun hlt => hge ⟨by simp [HeadRecord.payload, encodeHead], hlt⟩)]
    rfl

/-- A head that is moved keeps its deadline, and its clock if that is the later one. -/
theorem restampRecord_head (h : HeadRecord) (hlc : UInt64) (node : NodeId) (min : UInt64) :
    restampRecord h.encode hlc node min =
      some (HeadRecord.encode ⟨false, ⟨hlc, node⟩, h.ttl, h.ctype, max h.del min, h.tail⟩) := by
  rw [restampRecord, HeadRecord.decode_encode]
  dsimp only
  rw [if_pos h.envelope_isHead, shadowHeadDelHlc_payload]
  rfl

theorem rebuildIkey_ne_headKey {tag : Tag} (ht : tag ≠ .head) (userkey suffix : Bytes) :
    rebuildIkey tag userkey suffix ≠ headKey userkey := by
  cases tag with
  | head => exact absurd rfl ht
  | string => exact (headKey_ne_stringKey userkey).symm
  | list => exact (headKey_ne_listKey userkey).symm
  | _ => exact elemKey_ne (by decide) _ _ _ _

end Db

end Marekvs
