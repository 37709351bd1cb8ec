import Marekvs.Engine.ExpiryRun

/-!
# What DEL leaves of a key

A user key can be a string, a retired list record and a collection at once, and shows one of them. DEL writes one record, over the
string or over the head. Whatever the key was besides is there afterwards, and a retired list record stays in any case: the
tombstone that is meant for it goes to the head. A head whose elements are all gone shows nothing, so that DEL leaves it too.
-/

namespace Marekvs

open Option Ikey Envelope

namespace Db

variable {db db' : Db} {key : Bytes} {hlc now : UInt64} {node : NodeId}

/-- Whether the key has a head that is neither deleted nor expired. -/
def headLive (db : Db) (key : Bytes) (now : UInt64) : Bool := (db.getHead key).any fun h => h.1.isLive now

theorem checkString_eq : db.checkString key now = (!db.headLive key now && !db.recordLive (listKey key) now) := rfl

/-- No element record of the key is visible under a delete clock. -/
def Hidden (db : Db) (key : Bytes) (del now : UInt64) : Prop :=
  ∀ (c : Ctype) (tag : Tag), c.tag = some tag → ∀ suffix, readLww (db.getRaw (elemKey tag key suffix)) del now = none

/-- The key has no type; the commands of every collection type pass the type gate and find no element; those of strings pass
theirs and find no string. -/
structure ReadsAbsent (db : Db) (key : Bytes) (now : UInt64) : Prop where
  keyType : db.keyType key now = none
  gate : ∀ want, (db.checkType key want now).isSome = true
  elements : ∀ (want : Ctype) (tag : Tag), want.tag = some tag → ∀ suffix, db.visibleElement key want tag suffix now = none
  stringGate : db.checkString key now = true
  string : readLww (db.getRaw (stringKey key)) 0 now = none

/-! ## The records behind a read -/

theorem readLww_eq_none (h : db.recordLive ikey now = false) (del : UInt64) : readLww (db.getRaw ikey) del now = none := by
  unfold recordLive at h
  unfold readLww
  cases hrec : (db.getRaw ikey).bind decode with
  | none => rfl
  | some r =>
    simp only [hrec, isLive, Bool.and_eq_false_iff, Bool.not_eq_false'] at h
    rcases h with htomb | hexp
    · simp [visible, htomb]
    · simp [visible, hexp]

theorem recordLive_of_readLww (h : (readLww (db.getRaw ikey) del now).isSome = true) : db.recordLive ikey now = true := by
  rw [← Bool.not_eq_false]
  intro hdead
  rw [readLww_eq_none hdead] at h
  cases h

theorem checkType_eq_some (hs : db.recordLive (stringKey key) now = false) (hl : db.recordLive (listKey key) now = false)
    (hh : db.headLive key now = false) (want : Ctype) : db.checkType key want now = some (db.getHeadDel key now) := by
  unfold checkType getHeadDel
  unfold headLive at hh
  cases hhead : db.getHead key with
  | none => simp [hs, hl]
  | some h =>
    rw [hhead, any_some] at hh
    simp [hs, hl, hh]

/-- Neither the string, the retired list record nor the head of a key is live. -/
def Dead (db : Db) (key : Bytes) (now : UInt64) : Prop :=
  db.recordLive (stringKey key) now = false ∧ db.recordLive (listKey key) now = false ∧ db.headLive key now = false

theorem dead_iff : db.Dead key now ↔ (∀ want, (db.checkType key want now).isSome = true) ∧ db.checkString key now = true := by
  constructor
  · rintro ⟨hs, hl, hh⟩
    refine ⟨fun want => ?_, by simp [checkString_eq, hh, hl]⟩
    rw [checkType_eq_some hs hl hh]
    rfl
  · rintro ⟨hgate, hstring⟩
    obtain ⟨hh, hl⟩ : db.headLive key now = false ∧ db.recordLive (listKey key) now = false := by
      simpa [checkString_eq] using hstring
    refine ⟨?_, hl, hh⟩
    have hgate := hgate .hash
    unfold checkType at hgate
    split at hgate
    · cases hgate
    · rename_i hlive
      simpa using (not_or.1 hlive).1

/-- A key reads as absent if neither its string, its list record nor its head is live, and its delete clock hides its elements. -/
theorem readsAbsent_iff : ReadsAbsent db key now ↔ db.Dead key now ∧ db.Hidden key (db.getHeadDel key now) now := by
  constructor
  · intro h
    have hdead := dead_iff.2 ⟨h.gate, h.stringGate⟩
    refine ⟨hdead, fun c tag htag suffix => ?_⟩
    have hnone := h.elements c tag htag suffix
    rw [visibleElement, checkType_eq_some hdead.1 hdead.2.1 hdead.2.2] at hnone
    exact map_eq_none_iff.1 hnone
  · rintro ⟨hdead, hhidden⟩
    obtain ⟨hgate, hstring⟩ := dead_iff.1 hdead
    obtain ⟨hs, hl, hh⟩ := hdead
    refine ⟨?_, hgate, fun want tag htag suffix => ?_, hstring, readLww_eq_none hs 0⟩
    · have hhead : db.headType key now = none := by
        unfold headType
        unfold headLive at hh
        cases hget : db.getHead key with
        | none => rfl
        | some h =>
          rw [hget, any_some] at hh
          simp [hh]
      simp [keyType, readLww_eq_none hs, readLww_eq_none hl, hhead]
    · rw [visibleElement, checkType_eq_some hs hl hh]
      simp [hhidden want tag htag suffix]

/-! ## One record written -/

theorem recordLive_congr (h : db'.getRaw ikey = db.getRaw ikey) : db'.recordLive ikey now = db.recordLive ikey now := by
  rw [recordLive, recordLive, h]

theorem getHead_congr (h : db'.getRaw (headKey key) = db.getRaw (headKey key)) : db'.getHead key = db.getHead key := by
  rw [getHead, getHead, h]

theorem hidden_congr (h : ∀ (c : Ctype) (tag : Tag), c.tag = some tag → ∀ suffix,
    db'.getRaw (elemKey tag key suffix) = db.getRaw (elemKey tag key suffix)) :
    db'.Hidden key del now ↔ db.Hidden key del now := by
  unfold Hidden
  exact forall_congr' fun c => forall_congr' fun tag => forall_congr' fun htag => forall_congr' fun suffix => by
    rw [h c tag htag suffix]

theorem tag_ne {c : Ctype} (h : c.tag = some tag) : tag ≠ .head ∧ tag ≠ .string := by
  cases c <;> simp only [Ctype.tag, some.injEq, reduceCtorEq] at h <;> subst h <;> decide

/-- The stamp is newer than the record under an internal key. -/
def Newer (db : Db) (ikey : Bytes) (hlc : UInt64) (node : NodeId) : Prop :=
  ∀ env payload, (db.getRaw ikey).bind Envelope.decode = some (env, payload) → env.version < ⟨hlc, node⟩

/-- A tombstone of type string, such as that of a head, takes the place of an older record. -/
theorem record_writeMerged (hat : mergeAt ikey = mergeValues)
    (hrec : (db.getRaw ikey).bind Envelope.decode = some (env, payload)) (htype : tomb.rtype = .string)
    (hver : tomb.version = ⟨hlc, node⟩) (tpayload : Bytes) :
    (db.Newer ikey hlc node →
        ((db.writeMerged ikey (tomb.encodeWith tpayload)).getRaw ikey).bind Envelope.decode = some (tomb, tpayload)) ∧
      (¬ db.Newer ikey hlc node →
        ((db.writeMerged ikey (tomb.encodeWith tpayload)).getRaw ikey).bind Envelope.decode = some (env, payload)) := by
  have hnewer : db.Newer ikey hlc node ↔ env.version < tomb.version := by simp [Newer, hrec, hver]
  obtain ⟨v, hv, hdec⟩ := bind_eq_some_iff.1 hrec
  have hmerge : (db.writeMerged ikey (tomb.encodeWith tpayload)).getRaw ikey =
      some (if env.version < tomb.version then tomb.encodeWith tpayload else v) := by
    simp [writeMergedAt, hv, hat, mergeValues, hdec, htype, RecordType.isOrElement, resolve_mergeLww]
  rw [hmerge, hnewer]
  exact ⟨fun h => by simp [h], fun h => by simp [h, hdec]⟩

theorem recordLive_delString (hread : (readLww (db.getRaw (stringKey key)) 0 now).isSome = true) :
    (db.writeMerged (stringKey key) ((Envelope.tombstone .string hlc node).encodeWith [])).recordLive (stringKey key) now =
      false ↔ db.Newer (stringKey key) hlc node := by
  have hlive := recordLive_of_readLww hread
  have hat : mergeAt (stringKey key) = mergeValues := mergeAt_of_tagByte (tagByte_simple ..) (by decide)
  have htype : (tombstone .string hlc node).rtype = .string := rtype_flagsOf .string true ..
  have htomb : (tombstone .string hlc node).isTombstone = true := isTombstone_flagsOf .string true ..
  rw [recordLive] at hlive ⊢
  split at hlive
  · cases hlive
  rename_i env payload hrec
  obtain ⟨hnew, hold⟩ := record_writeMerged hat hrec htype rfl []
  by_cases h : db.Newer (stringKey key) hlc node
  · simp only [hnew h, isLive, htomb, h, Bool.not_true, Bool.false_and]
  · simp only [hold h, hlive, h, Bool.true_eq_false]

theorem head_delCollection (hlive : db.headLive key now = true) :
    let deleted := db.writeMerged (headKey key) (headTombstone ctype hlc node)
    (deleted.headLive key now = false ↔ db.Newer (headKey key) hlc node) ∧
      (db.Newer (headKey key) hlc node → deleted.getHeadDel key now = hlc) := by
  rw [headLive, getHead] at hlive
  split at hlive
  · cases hlive
  rename_i env payload hrec
  rw [HeadRecord.encode_tombstone]
  obtain ⟨hnew, hold⟩ :=
    record_writeMerged (mergeAt_headKey key) hrec (HeadRecord.envelope_rtype ⟨true, ⟨hlc, node⟩, 0, ctype, hlc, []⟩)
    rfl (HeadRecord.payload _)
  intro deleted
  by_cases h : db.Newer (headKey key) hlc node
  · have hrec : (deleted.getRaw (headKey key)).bind decode = _ := hnew h
    simp [headLive, getHeadDel, getHead, hrec, h, isLive, headClock, isExpired]
  · have hrec : (deleted.getRaw (headKey key)).bind decode = _ := hold h
    simp [headLive, getHead, hrec, h, hlive]

/-! ## DEL -/

/-- Nothing of the key's collection is there: the head is not live and the delete clock hides the elements. -/
def Bare (db : Db) (key : Bytes) (now : UInt64) : Prop := db.headLive key now = false ∧ db.Hidden key (db.getHeadDel key now) now

/-- What DEL with a stamp can delete. No retired list record is live. Where the key shows a string, there is nothing of a
collection behind it; where it shows a collection, no element is newer than the stamp; where it shows nothing, there is nothing.
The stamp is newer than the record that DEL is about. -/
def Deletable (db : Db) (key : Bytes) (hlc : UInt64) (node : NodeId) (now : UInt64) : Prop :=
  db.recordLive (listKey key) now = false ∧
    match db.keyType key now with
    | some .string => db.Newer (stringKey key) hlc node ∧ db.Bare key now
    | some (.collection _) =>
      db.recordLive (stringKey key) now = false ∧ db.Newer (headKey key) hlc node ∧ db.Hidden key hlc now
    | _ => db.recordLive (stringKey key) now = false ∧ db.Bare key now

theorem headType_eq_some (h : db.headType key now = some t) : db.headLive key now = true ∧ ∃ c, t = .collection c := by
  unfold headType at h
  split at h
  · cases h
  rename_i env ctype del hhead
  split at h
  · rename_i hlive
    obtain ⟨c, -, rfl⟩ := map_eq_some_iff.1 h
    exact ⟨by simp [headLive, hhead, (Bool.and_eq_true_iff.1 hlive).1], c, rfl⟩
  · cases h

theorem live_of_keyType (h : db.keyType key now = some t) :
    match t with
    | .string => (readLww (db.getRaw (stringKey key)) 0 now).isSome = true
    | .blob => db.recordLive (listKey key) now = true
    | .collection _ => db.headLive key now = true := by
  unfold keyType at h
  split at h
  · cases h
    assumption
  split at h
  · rename_i hhead
    cases h
    obtain ⟨hlive, c, rfl⟩ := headType_eq_some hhead
    exact hlive
  · split at h
    · rename_i hlist
      cases h
      exact recordLive_of_readLww hlist
    · cases h

/-- What DEL with a stamp can free for a key of another type: as `Deletable`, with no word about the elements. -/
def Freeable (db : Db) (key : Bytes) (hlc : UInt64) (node : NodeId) (now : UInt64) : Prop :=
  db.recordLive (listKey key) now = false ∧
    match db.keyType key now with
    | some .string => db.Newer (stringKey key) hlc node ∧ db.headLive key now = false
    | some (.collection _) => db.recordLive (stringKey key) now = false ∧ db.Newer (headKey key) hlc node
    | _ => db.recordLive (stringKey key) now = false ∧ db.headLive key now = false

/-- The records of the key after DEL, and what its delete clock hides. -/
theorem dead_delKey (db : Db) (key : Bytes) (hlc : UInt64) (node : NodeId) (now : UInt64) :
    let deleted := (db.delKey key hlc node now).getD db
    (deleted.Dead key now ↔ db.Freeable key hlc node now) ∧
      (db.Freeable key hlc node now → (deleted.Hidden key (deleted.getHeadDel key now) now ↔
        db.Hidden key (if (db.keyType key now).any (· matches .collection _) then hlc else db.getHeadDel key now) now)) := by
  dsimp only
  rw [Dead, Freeable, delKey]
  cases htype : db.keyType key now with
  | none => exact ⟨and_left_comm, fun _ => Iff.rfl⟩
  | some t =>
    have hlive := live_of_keyType htype
    have hhead (k v : Bytes) (hk : headKey key ≠ k) := getRaw_writeMerged_of_ne db hk v
    cases t with
    | string =>
      have hother (k v : Bytes) (hk : stringKey key ≠ k) := getRaw_writeMerged_of_ne db hk v
      have hlist : stringKey key ≠ listKey key := by simp [stringKey, listKey, simple, Tag.toByte]
      dsimp only [getD_some]
      rw [recordLive_delString hlive, recordLive_congr (hother _ _ hlist), headLive, getHeadDel,
        getHead_congr (hother _ _ (headKey_ne_stringKey key).symm),
        hidden_congr fun c tag htag suffix => hother _ _ (elemKey_ne_simple (tag_ne htag).2 _ _ _ _).symm]
      exact ⟨and_left_comm, fun _ => Iff.rfl⟩
    | blob =>
      -- the record stays
      have hlist := (recordLive_congr (hhead _ (headTombstone KeyType.blob.toByte hlc node) (headKey_ne_listKey key))).trans hlive
      dsimp only [getD_some]
      simp [hlist, hlive]
    | collection c =>
      obtain ⟨hnewer, hclock⟩ := @head_delCollection db key hlc now node (KeyType.collection c).toByte hlive
      dsimp only [getD_some]
      rw [recordLive_congr (hhead _ _ (headKey_ne_stringKey key)), recordLive_congr (hhead _ _ (headKey_ne_listKey key)),
        hnewer, hidden_congr fun c tag htag suffix => hhead _ _ (elemKey_ne (tag_ne htag).1 _ _ _ _).symm]
      refine ⟨and_left_comm, fun hfree => ?_⟩
      rw [hclock hfree.2.2]
      exact Iff.rfl

/-- After DEL a key reads as absent exactly if it was deletable. -/
theorem del_leaves_nothing_iff (db : Db) (key : Bytes) (hlc : UInt64) (node : NodeId) (now : UInt64) :
    ReadsAbsent ((db.delKey key hlc node now).getD db) key now ↔ db.Deletable key hlc node now := by
  obtain ⟨hdead, hhidden⟩ := db.dead_delKey key hlc node now
  rw [readsAbsent_iff, hdead, and_congr_right hhidden, Freeable, Deletable]
  cases db.keyType key now with
  | none => simp [Bare, and_assoc]
  | some t => cases t <;> simp [Bare, and_assoc]

/-- After DEL the commands of every type pass their gate exactly if DEL could free the key. -/
theorem del_frees_iff (db : Db) (key : Bytes) (hlc : UInt64) (node : NodeId) (now : UInt64) :
    let deleted := (db.delKey key hlc node now).getD db
    ((∀ want, (deleted.checkType key want now).isSome = true) ∧ deleted.checkString key now = true) ↔
      db.Freeable key hlc node now := by
  intro deleted
  rw [← dead_iff]
  exact (db.dead_delKey key hlc node now).1

/-- A set whose only member has been removed. -/
def emptiedSet : Option Db := do
  let db ← sadd ∅ [107] 10 1 [([97], 11)] 0
  let rem ← removeMember (db.getRaw (elemKey .setMember [107] [97])) 20 1 0 0
  return db.writeMerged (elemKey .setMember [107] [97]) rem

/-- The key has no type, so that DEL does nothing, and the head of the set refuses a hash, a string, and any type but its own. -/
theorem del_leaves_emptied_set :
    (emptiedSet.map fun db => (db.keyType [107] 0, (db.delKey [107] 30 1 0).isSome)) = some (none, false) ∧
    (emptiedSet.map fun db => let deleted := (db.delKey [107] 30 1 0).getD db
      ((deleted.checkType [107] .hash 0).isSome, deleted.checkString [107] 0)) = some (false, false) := by decide

/-- A set with the member `a`, and a string written over it. -/
def shadowedSet : Option Db :=
  (sadd ∅ [107] 10 1 [([97], 11)] 0).map fun db => db.expiryStep [107] 1 (.set [118] 20 0 0)

/-- The key shows the string. DEL deletes it, and the set is back. -/
theorem del_leaves_shadowed_set : (shadowedSet.bind fun db => db.keyType [107] 0) = some .string ∧
    (shadowedSet.bind fun db => db.delKey [107] 30 1 0).map (fun db => (db.keyType [107] 0, db.smembers [107] 0)) =
      some (some (.collection .set), some [[97]]) := by decide

end Db

end Marekvs
