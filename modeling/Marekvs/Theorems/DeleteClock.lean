import Marekvs.Engine.SetRun
import Marekvs.Lib.Run

/-!
# A deleted member stays hidden, where heads know the older deletes

Heads carry the delete clock of their collection and are merged whole, by version. A head that was written without knowledge of
an older delete takes the delete's place and shows the old members again. Where every head that is created or given a deadline
knows the deletes older than itself, every delete is newer than the heads before it, and neither the sweeper nor the storage
takes a head away, no member that a node has seen deleted is shown there again.
-/

namespace Marekvs

open List Option Function Ikey Db

namespace SetSys

variable {key : Bytes}

variable {db db' : Db} {o : Option HeadRecord} {k : Bytes} {now hlc : UInt64} {i : NodeId}

/-! ## The head on one node -/

def HeadIs (key : Bytes) (db : Db) (o : Option HeadRecord) : Prop :=
  db.getRaw (headKey key) = o.map HeadRecord.encode

/-- A written head stays if it is newer, and the stored one stays otherwise. -/
theorem HeadIs.write (h : HeadIs key db o) (new : HeadRecord) :
    ∃ h', HeadIs key (db.writeMerged (headKey key) new.encode) (some h') ∧ (h' = new ∨ o = some h') ∧
      new.version ≤ h'.version ∧ ∀ old, o = some old → old.version ≤ h'.version := by
  unfold HeadIs at h ⊢
  rw [getRaw_writeMerged_head, h]
  cases o with
  | none => exact ⟨new, rfl, .inl rfl, le_rfl, nofun⟩
  | some old =>
    simp only [map_some, writeMergedAt_head, HeadRecord.decode_encode, HeadRecord.envelope_version]
    by_cases hlt : old.version < new.version
    · refine ⟨new, by simp [hlt], .inl rfl, le_rfl, ?_⟩
      rintro _ ⟨⟩
      exact hlt.le
    · refine ⟨old, by simp [hlt], .inr rfl, not_lt.1 hlt, ?_⟩
      rintro _ ⟨⟩
      exact le_rfl

theorem HeadIs.writeOther (h : HeadIs key db o) (hk : k ≠ headKey key) (b : Bytes) : HeadIs key (db.writeMerged k b) o := by
  rw [HeadIs, getRaw_writeMerged_of_ne db hk]
  exact h

theorem getRaw_foldl_members (node : NodeId) (members : List (Bytes × UInt64)) (db : Db) (hk : ∀ m, setMemberKey key m ≠ k) :
    (members.foldl (fun db m => db.writeMerged (setMemberKey key m.1) (elementAdd .setMember m.2 node [])) db).getRaw k =
      db.getRaw k := by
  induction members generalizing db with
  | nil => rfl
  | cons m members ih => rw [foldl_cons, ih, getRaw_writeMerged_of_ne db (hk m.1)]

/-- The key holds neither a string nor a list record. -/
structure OnlySet (key : Bytes) (db : Db) : Prop where
  string : db.getRaw (stringKey key) = none
  list : db.getRaw (listKey key) = none

theorem OnlySet.write (h : OnlySet key db) (hs : k ≠ stringKey key) (hl : k ≠ listKey key) (b : Bytes) :
    OnlySet key (db.writeMerged k b) :=
  ⟨(getRaw_writeMerged_of_ne db hs b).trans h.string, (getRaw_writeMerged_of_ne db hl b).trans h.list⟩

theorem OnlySet.writeHead (h : OnlySet key db) (b : Bytes) : OnlySet key (db.writeMerged (headKey key) b) :=
  h.write (headKey_ne_stringKey key) (headKey_ne_listKey key) b

theorem keyType_of_head (hset : OnlySet key db) (ho : HeadIs key db o) (htype : db.keyType key now = some t) :
    ∃ h c, o = some h ∧ h.envelope.isLive now = true ∧ Ctype.ofByte h.ctype = some c ∧ t = .collection c := by
  unfold keyType at htype
  simp only [hset.string, hset.list, readLww, bind_none, isSome_none, Bool.false_eq_true, if_false] at htype
  cases o with
  | none => simp [headType, getHead_eq_none ho] at htype
  | some h =>
    simp only [headType, getHead_of_getRaw ho] at htype
    by_cases hlive : (h.envelope.isLive now && db.collectionNonempty h.ctype key h.del now) = true
    · rw [if_pos hlive] at htype
      rw [Bool.and_eq_true] at hlive
      cases hc : Ctype.ofByte h.ctype with
      | none => simp [hc] at htype
      | some c =>
        simp only [hc, map_some, some.injEq] at htype
        exact ⟨h, c, rfl, hlive.1, hc, htype.symm⟩
    · simp [hlive] at htype

/-! ## What each command does to the head -/

/-- The head a SADD creates on a node. -/
def created (db : Db) (key : Bytes) (hlc : UInt64) (i : NodeId) (now : UInt64) : HeadRecord :=
  ⟨false, ⟨hlc, i⟩, 0, Ctype.set.toByte, db.getHeadDel key now, []⟩

/-- SADD leaves a live head of a set alone and writes a head otherwise; other keys than its members' stay as they are. -/
theorem sadd_cases (h : db.sadd key hlc i members now = some db') :
    (∀ k, (∀ m, setMemberKey key m ≠ k) → db'.getRaw k = db.getRaw k) ∨
      (∀ env t del, db.getHead key = some (env, t, del) → ¬ (t = Ctype.set.toByte ∧ env.isLive now = true)) ∧
        ∀ k, (∀ m, setMemberKey key m ≠ k) →
          db'.getRaw k = (db.writeMerged (headKey key) (created db key hlc i now).encode).getRaw k := by
  obtain ⟨_, _, rfl⟩ := map_eq_some_iff.1 h
  unfold ensureHead
  cases hhead : db.getHead key with
  | none =>
    refine .inr ⟨nofun, fun k hk => ?_⟩
    rw [getRaw_foldl_members i members _ hk, HeadRecord.encode_fresh]
    rfl
  | some p =>
    obtain ⟨env, t, del⟩ := p
    by_cases hlive : t = Ctype.set.toByte ∧ env.isLive now = true
    · refine .inl fun k hk => ?_
      rw [getRaw_foldl_members i members _ hk]
      simp only [hlive, and_self, if_true]
    · refine .inr ⟨?_, fun k hk => ?_⟩
      · rintro _ _ _ ⟨⟩
        exact hlive
      · rw [getRaw_foldl_members i members _ hk, HeadRecord.encode_fresh]
        simp only [hlive, if_false]
        rfl

def removed (hlc : UInt64) (i : NodeId) : HeadRecord := ⟨true, ⟨hlc, i⟩, 0, Ctype.set.toByte, hlc, []⟩

/-- DEL of a set writes its tombstone. -/
theorem delKey_eq (hset : OnlySet key db) (ho : HeadIs key db o) (hc : ∀ h, o = some h → h.ctype = Ctype.set.toByte)
    (h : db.delKey key hlc i now = some db') :
    db' = db.writeMerged (headKey key) (removed hlc i).encode := by
  unfold delKey at h
  cases htype : db.keyType key now with
  | none => simp [htype] at h
  | some t =>
    obtain ⟨hd, c, hod, _, hbyte, rfl⟩ := keyType_of_head hset ho htype
    rw [hc hd hod, Ctype.ofByte_toByte] at hbyte
    obtain rfl := some.inj hbyte
    simp only [htype, some.injEq] at h
    rw [← h, HeadRecord.encode_tombstone]
    rfl

/-- The head with a new version and deadline. -/
def redated (h : HeadRecord) (hlc : UInt64) (i : NodeId) (deadline : UInt64) : HeadRecord :=
  ⟨false, ⟨hlc, i⟩, deadline, h.ctype, h.del, h.tail⟩

/-- EXPIRE of a set writes its head again; the head is live, so it hides what it carries. -/
theorem setKeyDeadline_eq (hset : OnlySet key db) (ho : HeadIs key db o)
    (h : db.setKeyDeadline key hlc i deadline now = some db') :
    ∃ hd, o = some hd ∧ db.getHeadDel key now = hd.del ∧
      db' = db.writeMerged (headKey key) (redated hd hlc i deadline).encode := by
  unfold setKeyDeadline at h
  cases htype : db.keyType key now with
  | none => simp [htype] at h
  | some t =>
    obtain ⟨hd, c, rfl, hlive, hbyte, rfl⟩ := keyType_of_head hset ho htype
    have hraw : db.getRaw (headKey key) = some hd.encode := ho
    simp only [htype, getHead_of_getRaw hraw, hraw, bind_some, HeadRecord.decode_encode] at h
    split at h
    · refine ⟨hd, rfl, ?_, ?_⟩
      · unfold Envelope.isLive at hlive
        rw [Bool.and_eq_true, Bool.not_eq_true', Bool.not_eq_true'] at hlive
        simp [getHeadDel, getHead_of_getRaw hraw, headClock, hlive.2, hlive.1]
      · rw [← some.inj h]
        rfl
    · cases h

/-! ## The invariant -/

/-- What is true of every head: it is a set's, a tombstone is a delete, and it carries every older delete. -/
structure GoodHead (dels : List Version) (h : HeadRecord) : Prop where
  ctype : h.ctype = Ctype.set.toByte
  tomb : h.tomb = true → h.version ∈ dels
  carries : ∀ d ∈ dels, d ≤ h.version → d.hlc ≤ h.base

structure Inv (key : Bytes) (s : SetSys) : Prop where
  kept : ∀ i k v, (s.db i).getRaw k = some v → (k, v) ∈ s.sent
  plain : ∀ r ∈ s.sent, r.1 ≠ stringKey key ∧ r.1 ≠ listKey key
  heads : ∀ r ∈ s.sent, r.1 = headKey key → ∃ h : HeadRecord, r.2 = h.encode ∧ GoodHead s.dels h
  seen : ∀ i, ∀ d ∈ s.seen i, d ∈ s.dels ∧ ∃ b, (s.db i).getRaw (headKey key) = some b ∧ d ≤ versionOf b

theorem inv_init : Inv key init :=
  ⟨fun i k v h => by simp [init] at h, nofun, nofun, nofun⟩

variable {s : SetSys}

theorem Inv.onlySet (h : Inv key s) (i : NodeId) : OnlySet key (s.db i) := by
  constructor
  · cases hb : (s.db i).getRaw (stringKey key) with
    | none => rfl
    | some b => exact absurd rfl (h.plain _ (h.kept i _ b hb)).1
  · cases hb : (s.db i).getRaw (listKey key) with
    | none => rfl
    | some b => exact absurd rfl (h.plain _ (h.kept i _ b hb)).2

theorem Inv.head (h : Inv key s) (i : NodeId) : ∃ o, HeadIs key (s.db i) o ∧ ∀ hd, o = some hd → GoodHead s.dels hd := by
  cases hb : (s.db i).getRaw (headKey key) with
  | none => exact ⟨none, hb, nofun⟩
  | some b =>
    obtain ⟨hd, hbd, hgood⟩ := h.heads _ (h.kept i _ b hb) rfl
    refine ⟨some hd, hb.trans (congrArg some hbd), ?_⟩
    rintro _ ⟨⟩
    exact hgood

/-- A node takes on a store with a good head that is no older than the one it had. -/
theorem Inv.store (h : Inv key s) (i : NodeId) (hset : OnlySet key db) (ho : HeadIs key (s.db i) o)
    (ho' : HeadIs key db o') (hgood : ∀ hd, o' = some hd → GoodHead s.dels hd)
    (hmono : ∀ hd, o = some hd → ∃ hd', o' = some hd' ∧ hd.version ≤ hd'.version) : Inv key (s.store i db) := by
  refine ⟨fun j k v hv => ?_, fun r hr => ?_, fun r hr hk => ?_, fun j d hd => ?_⟩
  · by_cases hj : j = i
    · subst hj
      simp only [SetSys.store, update_self] at hv
      exact mem_append_left _ (mem_toList.2 hv)
    · simp only [SetSys.store, update_of_ne hj] at hv
      exact mem_append_right _ (h.kept j k v hv)
  · rcases mem_append.1 hr with hr | hr
    · have hget := mem_toList.1 hr
      constructor
      · intro hk
        rw [hk, hset.string] at hget
        cases hget
      · intro hk
        rw [hk, hset.list] at hget
        cases hget
    · exact h.plain r hr
  · rcases mem_append.1 hr with hr | hr
    · have hget := mem_toList.1 hr
      rw [hk, ho'] at hget
      obtain ⟨hd, rfl, henc⟩ := map_eq_some_iff.1 hget
      exact ⟨hd, henc.symm, hgood hd rfl⟩
    · exact h.heads r hr hk
  · obtain ⟨hin, b, hb, hle⟩ := h.seen j d hd
    refine ⟨hin, ?_⟩
    by_cases hj : j = i
    · subst hj
      obtain ⟨hd, ho, rfl⟩ := map_eq_some_iff.1 (ho.symm.trans hb)
      obtain ⟨hd', rfl, hle'⟩ := hmono hd ho
      rw [HeadRecord.versionOf_encode] at hle
      refine ⟨hd'.encode, ?_, ?_⟩
      · simp only [SetSys.store, update_self]
        exact ho'
      · rw [HeadRecord.versionOf_encode]
        exact hle.trans hle'
    · simp only [SetSys.store, update_of_ne hj]
      exact ⟨b, hb, hle⟩

theorem Inv.writeHead (h : Inv key s) (i : NodeId) (hgood : GoodHead s.dels new) :
    Inv key (s.store i ((s.db i).writeMerged (headKey key) new.encode)) ∧
      ∃ b, ((s.db i).writeMerged (headKey key) new.encode).getRaw (headKey key) = some b ∧
        new.version ≤ versionOf b := by
  obtain ⟨o, ho, hog⟩ := h.head i
  obtain ⟨h', ho', hor, hnew, hold⟩ := ho.write new
  refine ⟨h.store i ((h.onlySet i).writeHead _) ho ho' ?_ fun hd hhd => ⟨h', rfl, hold hd hhd⟩, h'.encode, ho', ?_⟩
  · rintro _ ⟨⟩
    rcases hor with rfl | hor
    · exact hgood
    · exact hog h' hor
  · rw [HeadRecord.versionOf_encode]
    exact hnew

/-- A delete that is newer than the heads so far keeps them good. -/
theorem Inv.addDel (h : Inv key s) (hnew : s.newestHead key v) : Inv key { s with dels := v :: s.dels } := by
  refine ⟨h.kept, h.plain, fun r hr hk => ?_, fun i d hd => ?_⟩
  · obtain ⟨hd, henc, hgood⟩ := h.heads r hr hk
    refine ⟨hd, henc, hgood.ctype, fun ht => mem_cons_of_mem _ (hgood.tomb ht), fun d hdm hle => ?_⟩
    rcases mem_cons.1 hdm with rfl | hdm
    · have := hnew r hr hk
      rw [henc, HeadRecord.versionOf_encode] at this
      simpa [headBase, HeadRecord.base] using this hle
    · exact hgood.carries d hdm hle
  · obtain ⟨hin, hb⟩ := h.seen i d hd
    exact ⟨mem_cons_of_mem _ hin, hb⟩

/-- A node has merged the head record of a delete. -/
theorem Inv.see (h : Inv key s) (hv : v ∈ s.dels)
    (hb : ∃ b, (s.db i).getRaw (headKey key) = some b ∧ v ≤ versionOf b) : Inv key (s.see i v) := by
  refine ⟨h.kept, h.plain, h.heads, fun j d hd => ?_⟩
  by_cases hj : j = i
  · subst hj
    simp only [SetSys.see, update_self] at hd
    rcases mem_cons.1 hd with rfl | hd
    · exact ⟨hv, hb⟩
    · exact h.seen j d hd
  · simp only [SetSys.see, update_of_ne hj] at hd
    exact h.seen j d hd

/-! ## What one step keeps -/

theorem Inv.deleted (h : Inv key s) (hnew : s.newestHead key ⟨hlc, i⟩) (hdel : (s.db i).delKey key hlc i now = some db) :
    Inv key (s.deleted i hlc db) := by
  obtain ⟨o, ho, hog⟩ := h.head i
  have hdb := delKey_eq (h.onlySet i) ho (fun hd hhd => (hog hd hhd).ctype) hdel
  subst hdb
  have hadd := h.addDel hnew
  have hgood : GoodHead (⟨hlc, i⟩ :: s.dels) (removed hlc i) := by
    refine ⟨rfl, fun _ => mem_cons_self, fun d _ hle => ?_⟩
    exact (Dot.hlc_le_of_le hle).trans (le_max_left _ _)
  obtain ⟨hstore, b, hb, hle⟩ := hadd.writeHead i hgood
  refine hstore.see mem_cons_self ⟨b, ?_, hle⟩
  simpa only [SetSys.store, update_self] using hb

theorem Inv.sadd (h : Inv key s) (hok : s.Informed key (.sadd i hlc members now))
    (hadd : (s.db i).sadd key hlc i members now = some db) :
    Inv key (s.store i db) := by
  obtain ⟨o, ho, hog⟩ := h.head i
  have honly := h.onlySet i
  have hhk : ∀ m, setMemberKey key m ≠ headKey key := setMemberKey_ne_headKey key
  have hsk : ∀ m, setMemberKey key m ≠ stringKey key := setMemberKey_ne_stringKey key
  have hlk : ∀ m, setMemberKey key m ≠ listKey key := setMemberKey_ne_listKey key
  rcases sadd_cases hadd with hsame | ⟨hnone, hwrite⟩
  · exact h.store i ⟨(hsame _ hsk).trans honly.string, (hsame _ hlk).trans honly.list⟩ ho ((hsame _ hhk).trans ho) hog
      fun hd hhd => ⟨hd, hhd, le_rfl⟩
  have hgood : GoodHead s.dels (created (s.db i) key hlc i now) := ⟨rfl, nofun, hok hnone⟩
  obtain ⟨h', ho', hor, _, hold⟩ := ho.write (created (s.db i) key hlc i now)
  have honly' := honly.writeHead (created (s.db i) key hlc i now).encode
  refine h.store i ⟨(hwrite _ hsk).trans honly'.string, (hwrite _ hlk).trans honly'.list⟩ ho ((hwrite _ hhk).trans ho') ?_
    fun hd hhd => ⟨h', rfl, hold hd hhd⟩
  rintro _ ⟨⟩
  rcases hor with rfl | hor
  · exact hgood
  · exact hog h' hor

theorem Inv.setDeadline (h : Inv key s) (hok : s.knowsDeletes key i ⟨hlc, i⟩ now)
    (hset : (s.db i).setKeyDeadline key hlc i deadline now = some db) :
    Inv key (s.store i db) := by
  obtain ⟨o, ho, hog⟩ := h.head i
  obtain ⟨hd, hhd, hdel, rfl⟩ := setKeyDeadline_eq (h.onlySet i) ho hset
  have hgood : GoodHead s.dels (redated hd hlc i deadline) :=
    ⟨(hog hd hhd).ctype, nofun, fun d hdm hle => (hok d hdm hle).trans_eq hdel⟩
  exact (h.writeHead i hgood).1

theorem Inv.deliver (h : Inv key s) (hsent : (k, b) ∈ s.sent) :
    Inv key (s.store i ((s.db i).writeMerged k b)) ∧ (k = headKey key → ∀ v, delOf b = some v →
      v ∈ s.dels ∧ ∃ b', ((s.db i).writeMerged k b).getRaw (headKey key) = some b' ∧ v ≤ versionOf b') := by
  by_cases hk : k = headKey key
  · subst hk
    obtain ⟨hd, henc, hgood⟩ := h.heads _ hsent rfl
    simp only at henc
    subst henc
    obtain ⟨hstore, b', hb', hle⟩ := h.writeHead i hgood
    refine ⟨hstore, fun _ v hv => ?_⟩
    simp only [delOf, HeadRecord.decode_encode, HeadRecord.envelope_isTombstone, HeadRecord.envelope_version] at hv
    split at hv
    · rename_i htomb
      obtain rfl := some.inj hv
      exact ⟨hgood.tomb htomb, b', hb', hle⟩
    · cases hv
  · obtain ⟨o, ho, hog⟩ := h.head i
    obtain ⟨hks, hkl⟩ := h.plain _ hsent
    exact ⟨h.store i ((h.onlySet i).write hks hkl b) ho (ho.writeOther hk b) hog fun hd hhd => ⟨hd, hhd, le_rfl⟩,
      fun hk' => absurd hk' hk⟩

/-- What the sweeper or the storage does under other keys, and to a head that is left alone. -/
theorem Inv.tidy (h : Inv key s) (i : NodeId) (hnone : ∀ k, (s.db i).getRaw k = none → db.getRaw k = none)
    (hhead : db.getRaw (headKey key) = (s.db i).getRaw (headKey key)) : Inv key (s.store i db) := by
  obtain ⟨o, ho, hog⟩ := h.head i
  have honly := h.onlySet i
  exact h.store i ⟨hnone _ honly.string, hnone _ honly.list⟩ ho (hhead.trans ho) hog fun hd hhd => ⟨hd, hhd, le_rfl⟩

theorem Inv.step (h : Inv key s) (hok : s.Informed key op) : Inv key (s.step key op) := by
  cases op with
  | sadd i hlc members now =>
    simp only [SetSys.step]
    cases hadd : (s.db i).sadd key hlc i members now with
    | none => exact h
    | some db => exact h.sadd hok hadd
  | del i hlc now =>
    simp only [SetSys.step]
    cases hdel : (s.db i).delKey key hlc i now with
    | none => exact h
    | some db => exact h.deleted hok hdel
  | expire i hlc deadline now =>
    simp only [SetSys.step, expire]
    simp only [Informed] at hok
    by_cases hbudget : (s.db i).keyType key now = some (.collection .budget)
    · simpa only [hbudget, if_true] using h
    simp only [hbudget, if_false]
    by_cases hpast : deadline ≤ now
    · simp only [hpast, if_true] at hok ⊢
      cases hdel : (s.db i).delKey key hlc i now with
      | none => exact h
      | some db => exact h.deleted hok hdel
    · simp only [hpast, if_false] at hok ⊢
      cases hset : (s.db i).setKeyDeadline key hlc i deadline now with
      | none => exact h
      | some db => exact h.setDeadline hok hset
  | deliver i index =>
    simp only [SetSys.step]
    cases hsent : s.sent[index]? with
    | none => exact h
    | some r =>
      obtain ⟨k, b⟩ := r
      obtain ⟨hstore, hsee⟩ := h.deliver (i := i) (mem_of_getElem? hsent)
      dsimp only
      split
      · exact hstore
      rename_i v hv
      split at hv
      · rename_i hk
        obtain ⟨hv, b', hb', hle⟩ := hsee hk v hv
        refine hstore.see hv ⟨b', ?_, hle⟩
        simpa only [SetSys.store, update_self] using hb'
      · cases hv
  | sweep i ikey now =>
    refine h.tidy i (fun k hk => ?_) ?_
    · by_cases hik : ikey = k
      · subst hik
        exact getRaw_sweepRecord_of_none hk now
      · exact (getRaw_sweepRecord_of_ne _ hik now).trans hk
    · obtain ⟨o, ho, -⟩ := h.head i
      cases o with
      | some hd => exact (getRaw_sweepRecord_head ho hok).trans ho.symm
      | none =>
        by_cases hik : ikey = headKey key
        · subst hik
          exact (getRaw_sweepRecord_of_none ho now).trans ho.symm
        · exact getRaw_sweepRecord_of_ne _ hik now
  | purge i ikey =>
    refine h.tidy i (fun k hk => ?_) (getRaw_purge_of_ne _ hok)
    by_cases hik : ikey = k
    · subst hik
      exact getRaw_purge_of_none hk
    · exact (getRaw_purge_of_ne _ hik).trans hk

theorem inv_run (ops : List SetOp) (hok : ∀ i, (hi : i < ops.length) → (run key (ops.take i)).Informed key ops[i]) :
    Inv key (run key ops) :=
  Run.invariant (fun _ _ hinv hop => hinv.step hop) inv_init ops hok

/-! ## SMEMBERS -/

theorem lt_of_mem_setMembers (hlen : key.length < 2 ^ 64) (hm : m ∈ db.setMembers key del now)
    (hb : db.getRaw (setMemberKey key m) = some b) : del < (versionOf b).hlc := by
  obtain ⟨⟨k, v⟩, he, hsome⟩ := mem_filterMap.1 hm
  obtain ⟨hget, hstart⟩ := mem_scanPrefix.1 he
  obtain ⟨suffix, rfl⟩ := collectionPrefix_isPrefix_iff.1 hstart
  simp only [parse_elemKey (by rfl : Tag.setMember.isSimple = false) key suffix hlen, ite_none_right_eq_some, some.injEq] at hsome
  obtain ⟨hexists, rfl⟩ := hsome
  have hvb : v = b := some.inj (hget.symm.trans hb)
  subst hvb
  unfold memberExists readElement readLww at hexists
  simp only [bind_some] at hexists
  cases hdec : Envelope.decode v with
  | none => simp [hdec] at hexists
  | some p =>
    have hvis : visible p.1 del now = true := by
      by_contra hvis
      simp [hdec, hvis] at hexists
    simp only [visible, Bool.not_eq_true', decide_eq_false_iff_not, not_or, not_le] at hvis
    simpa [versionOf, hdec, Envelope.version] using hvis.2.2

/-- In every run in which each head that is created or given a deadline knows the deletes older than itself, and each delete is
newer than the heads so far: once a node has merged the head record of a delete, SMEMBERS returns there no member whose record
is at or below the delete's stamp, at any time. -/
theorem deleted_members_stay_hidden (key : Bytes) (hlen : key.length < 2 ^ 64) (ops : List SetOp)
    (hok : ∀ i, (hi : i < ops.length) → (run key (ops.take i)).Informed key ops[i]) (i : NodeId) (d : Version)
    (hd : d ∈ (run key ops).seen i) (now : UInt64) (ms : List Bytes) (hms : ((run key ops).db i).smembers key now = some ms)
    (m b : Bytes) (hm : m ∈ ms) (hb : ((run key ops).db i).getRaw (setMemberKey key m) = some b) :
    d.hlc < (versionOf b).hlc := by
  have hinv := inv_run ops hok
  obtain ⟨hin, b', hb', hle⟩ := hinv.seen i d hd
  obtain ⟨h, rfl, hgood⟩ := hinv.heads _ (hinv.kept i _ b' hb') rfl
  rw [HeadRecord.versionOf_encode] at hle
  obtain ⟨del, hcheck, rfl⟩ := map_eq_some_iff.1 hms
  have hclock : d.hlc ≤ del := by
    unfold Db.checkType at hcheck
    split at hcheck
    · exact nomatch hcheck
    simp only [Db.getHead_of_getRaw hb'] at hcheck
    split at hcheck
    · exact nomatch hcheck
    · rw [← some.inj hcheck]
      exact (hgood.carries d hin hle).trans (h.base_le_headClock now)
  exact hclock.trans_lt (lt_of_mem_setMembers hlen hm hb)

/-- Node 1 adds a member and node 2 receives the set; node 1 deletes it, node 2 receives the tombstone and creates the set
again with another member. -/
def deleteAndCreate : List SetOp :=
  [.sadd 1 10 [([97], 11)] 0, .deliver 2 0, .deliver 2 2, .del 1 20 0, .deliver 2 0, .sadd 2 30 [([98], 31)] 0]

theorem deleted_members_stay_hidden_after_create :
    ((run [107] deleteAndCreate).db 2).getRaw (setMemberKey [107] [98]) = some (elementAdd .setMember 31 2 []) ∧
      20 < (versionOf (elementAdd .setMember 31 2 [])).hlc := by
  have hb : ((run [107] deleteAndCreate).db 2).getRaw (setMemberKey [107] [98]) = some (elementAdd .setMember 31 2 []) := by
    decide
  refine ⟨hb, deleted_members_stay_hidden [107] (by decide) deleteAndCreate ?_ 2 ⟨20, 1⟩ (by decide) 0 [[98]]
    (by decide) [98] _ (by decide) hb⟩
  intro i hi
  have hi6 : i < 6 := hi
  interval_cases i
  · intro _
    show SetSys.knowsDeletes _ _ _ _ _
    unfold knowsDeletes
    decide
  · trivial
  · trivial
  · show SetSys.newestHead _ _ _
    unfold newestHead
    decide
  · trivial
  · intro _
    show SetSys.knowsDeletes _ _ _ _ _
    unfold knowsDeletes
    decide

/-- Node 1 adds a member, node 2 receives the set; node 1 deletes it while node 2 gives it a deadline; node 1 receives node 2's
head. -/
def deleteAndExpire : List SetOp :=
  [.sadd 1 10 [([97], 11)] 0, .deliver 2 0, .deliver 2 2, .del 1 20 0, .expire 2 30 1000 0, .deliver 1 0]

/-- The delete is merged on node 1, which executed it; node 2's head, written without knowledge of it, is newer, carries no
delete clock, and shows the member there again. -/
theorem deleted_member_comes_back : ⟨20, 1⟩ ∈ (run [107] deleteAndExpire).seen 1 ∧
    ((run [107] (deleteAndExpire.take 5)).db 1).smembers [107] 0 = some [] ∧
    ((run [107] deleteAndExpire).db 1).smembers [107] 0 = some [[97]] ∧
    (((run [107] deleteAndExpire).db 1).getRaw (setMemberKey [107] [97])).map versionOf = some ⟨11, 1⟩ := by
  refine ⟨?_, ?_, ?_, ?_⟩ <;> decide

end SetSys

end Marekvs
