import Marekvs.Engine.ExpiryRun
import Marekvs.Lib.Run

/-!
# An expired collection stays gone, unless its head is swept, dropped or moved over

After the deadline the head itself hides the elements, and a head that is created again carries the deadline on. But the
tombstone that the sweeper writes over an expired head is that of a string: it has no delete clock and does not read as a head.
From then on the elements that are left are visible again. So they are once the storage has dropped the head, and where RENAME or
COPY puts a head in its place that carries the clock of its source.
-/

namespace Marekvs

open Option Ikey

namespace Db

variable {key : Bytes} {node : NodeId} {deadline : UInt64}

/-- A step leaves the clock of the expired collection in force: the sweeper spares the head, the storage does not drop it, and a
head that is moved to the key carries a clock that is not below the deadline's stamp, its own or that of the delete in front of
it. -/
def Spares (key : Bytes) (node : NodeId) (deadline : UInt64) (db : Db) : ExpiryOp → Prop
  | .sweep ikey now => db.SweepSpares key ikey now
  | .purge ikey _ => ikey ≠ headKey key
  | .move replace hlc records now => deadline <<< 16 ≤ hlc ∧ ∀ r ∈ records, r.tag = .head →
      ∃ h : HeadRecord, r.value = h.encode ∧ deadline <<< 16 ≤ max h.del (db.clobber key replace hlc node now).2
  | _ => True

/-- The head hides everything up to the deadline, by the clock it carries or by its own deadline. -/
def Hides (key : Bytes) (deadline : UInt64) (db : Db) : Prop :=
  ∃ h : HeadRecord, db.getRaw (headKey key) = some h.encode ∧ (deadline <<< 16 ≤ h.base ∨ h.ttl = deadline)

/-- The clock of a hiding head is not below the deadline's stamp once the deadline has passed. -/
theorem Hides.clock {h : HeadRecord} (hh : deadline <<< 16 ≤ h.base ∨ h.ttl = deadline) (hpos : deadline ≠ 0)
    (hnow : deadline ≤ now) : deadline <<< 16 ≤ headClock h.envelope h.del now := by
  rcases hh with hbase | rfl
  · exact hbase.trans (h.base_le_headClock now)
  · have hexp : h.envelope.isExpired now = true := by simp [Envelope.isExpired, hpos, hnow]
    simp only [headClock, hexp, if_true]
    exact le_max_right _ _

theorem Hides.frame (h : Hides key deadline db)
    (hsame : db'.getRaw (headKey key) = db.getRaw (headKey key)) : Hides key deadline db' := by
  obtain ⟨hd, hraw, hor⟩ := h
  exact ⟨hd, hsame.trans hraw, hor⟩

/-- A written head keeps the clock in force if it carries it. -/
theorem Hides.writeHead (h : Hides key deadline db) (new : HeadRecord) (hnew : deadline <<< 16 ≤ new.base) :
    Hides key deadline (db.writeMerged (headKey key) new.encode) := by
  obtain ⟨hd, hraw, hor⟩ := h
  unfold Hides
  simp only [getRaw_writeMerged_self, hraw, writeMergedAt_head, HeadRecord.decode_encode, HeadRecord.envelope_version]
  by_cases hlt : hd.version < new.version
  · simp only [hlt, if_true]
    exact ⟨new, rfl, .inl hnew⟩
  · simp only [hlt, if_false]
    exact ⟨hd, rfl, hor⟩

theorem getRaw_writeElements (db : Db) (ctype : Ctype) (elements : List (Bytes × Bytes)) :
    (db.writeElements key ctype elements).getRaw (headKey key) = db.getRaw (headKey key) := by
  unfold writeElements
  cases htag : ctype.tag with
  | none => rfl
  | some tag =>
    have hne : ∀ suffix, elemKey tag key suffix ≠ headKey key := by
      intro suffix
      refine elemKey_ne (fun h => ?_) _ _ _ _
      subst h
      cases ctype <;> simp [Ctype.tag] at htag
    dsimp only
    induction elements generalizing db with
    | nil => rfl
    | cons e elements ih => rw [List.foldl_cons, ih, getRaw_writeMerged_of_ne db (hne e.1)]

/-- A head that is created after the deadline carries the deadline's stamp on. -/
theorem Hides.ensureHead (h : Hides key deadline db) (hpos : deadline ≠ 0)
    (hnow : deadline ≤ now) : Hides key deadline (db.ensureHead key ctype hlc node now).1 := by
  obtain ⟨hd, hraw, hor⟩ := h
  have hdel : db.getHeadDel key now = headClock hd.envelope hd.del now := by
    simp [getHeadDel, getHead_of_getRaw hraw]
  unfold Db.ensureHead
  simp only [getHead_of_getRaw hraw]
  split
  · exact ⟨hd, hraw, hor⟩
  rw [HeadRecord.encode_fresh]
  exact Hides.writeHead ⟨hd, hraw, hor⟩ _ ((Hides.clock hor hpos hnow).trans_eq hdel.symm)

/-- DEL of what was created in between, with a stamp from after the deadline. -/
theorem Hides.delKey (h : Hides key deadline db) (hlc : deadline <<< 16 ≤ stamp)
    (hdel : db.delKey key stamp node now = some db') : Hides key deadline db' := by
  unfold Db.delKey at hdel
  split at hdel
  · cases hdel
  · rw [← some.inj hdel]
    exact h.frame (getRaw_writeMerged_of_ne db (headKey_ne_stringKey key).symm _)
  · rw [← some.inj hdel, HeadRecord.encode_tombstone]
    exact h.writeHead _ (hlc.trans (le_max_left _ _))

theorem Hides.moveTo (h : Hides key deadline db) {floor : UInt64} {records : List KeyRecord}
    (hheads : ∀ r ∈ records, r.tag = .head →
    ∃ hd : HeadRecord, r.value = hd.encode ∧ deadline <<< 16 ≤ max hd.del floor) :
    Hides key deadline (db.moveTo key node floor records) := by
  refine List.foldlRecOn (motive := Hides key deadline) _ _ h fun db h r hr => ?_
  by_cases htag : r.tag = .head
  · obtain ⟨hd, hval, hle⟩ := hheads r hr htag
    rw [hval, restampRecord_head, htag]
    exact h.writeHead _ hle
  · split
    · exact h
    · exact h.frame (getRaw_writeMerged_of_ne db (rebuildIkey_ne_headKey htag _ _) _)

theorem Hides.step (h : Hides key deadline db) (hpos : deadline ≠ 0) (hnow : deadline ≤ op.now)
    (hok : Spares key node deadline db op) : Hides key deadline (db.expiryStep key node op) := by
  cases op with
  | sweep ikey now =>
    obtain ⟨hd, hraw, hor⟩ := h
    exact ⟨hd, getRaw_sweepRecord_head hraw hok, hor⟩
  | purge ikey now => exact h.frame (getRaw_purge_of_ne db hok)
  | move replace hlc records now =>
    refine Hides.moveTo ?_ hok.2
    split
    · exact h
    · rename_i db' hdel
      split at hdel
      · exact h.delKey hok.1 hdel
      · cases hdel
  | create ctype hlc elements now =>
    simp only [expiryStep]
    split
    · exact h
    · exact (h.ensureHead hpos hnow).frame (getRaw_writeElements _ _ _)
  | set value hlc ttl now => exact h.frame (getRaw_putRaw_of_ne db (headKey_ne_stringKey key).symm _)

theorem Hides.run (h : Hides key deadline db) (hpos : deadline ≠ 0) (hnow : ∀ op ∈ ops, deadline ≤ op.now)
    (hok : ∀ i, (hi : i < ops.length) → Spares key node deadline (db.expiryRun key node (ops.take i)) ops[i]) :
    Hides key deadline (db.expiryRun key node ops) := by
  have hstep : ∀ db op, Hides key deadline db → deadline ≤ op.now ∧ Spares key node deadline db op →
      Hides key deadline (db.expiryStep key node op) := fun db op hides hop => hides.step hpos hop.1 hop.2
  exact Run.invariant hstep h ops fun i hi => ⟨hnow _ (List.getElem_mem hi), hok i hi⟩

/-- For every collection with a deadline on its head, whatever else the store holds, and every run of sweeps, purges and
re-creations after the deadline whose steps leave the clock in force: an element that a collection command sees, at any time
after the deadline, is newer than the deadline's stamp. -/
theorem expired_collection_stays_gone (key : Bytes) (node : NodeId) (db : Db) (h : HeadRecord)
    (hhead : db.getRaw (headKey key) = some h.encode) (hpos : h.ttl ≠ 0) (ops : List ExpiryOp)
    (hnow : ∀ op ∈ ops, h.ttl ≤ op.now)
    (hok : ∀ i, (hi : i < ops.length) → Spares key node h.ttl (db.expiryRun key node (ops.take i)) ops[i])
    (want : Ctype) (tag : Tag)
    (suffix : Bytes) (now : UInt64) (hlate : h.ttl ≤ now) (env : Envelope)
    (hvis : (db.expiryRun key node ops).visibleElement key want tag suffix now = some env) : h.ttl <<< 16 < env.hlc := by
  obtain ⟨hd, hraw, hor⟩ := Hides.run ⟨h, hhead, .inr rfl⟩ hpos hnow hok
  unfold visibleElement at hvis
  cases hcheck : (db.expiryRun key node ops).checkType key want now with
  | none => simp [hcheck] at hvis
  | some del =>
    have hclock : h.ttl <<< 16 ≤ del := by
      unfold checkType at hcheck
      split at hcheck
      · exact nomatch hcheck
      simp only [getHead_of_getRaw hraw] at hcheck
      split at hcheck
      · exact nomatch hcheck
      · rw [← some.inj hcheck]
        exact Hides.clock hor hpos hlate
    simp only [hcheck] at hvis
    obtain ⟨⟨env', payload⟩, hread, rfl⟩ := map_eq_some_iff.1 hvis
    have hseen : visible env' del now = true := by
      unfold readLww at hread
      split at hread
      · exact nomatch hread
      split at hread
      · rename_i hv
        obtain ⟨rfl, _⟩ := Prod.mk.inj (some.inj hread)
        exact hv
      · exact nomatch hread
    simp only [visible, Bool.not_eq_true', decide_eq_false_iff_not, not_or, not_le] at hseen
    exact hclock.trans_lt hseen.2.2

/-- A set with the member `a`, created at second 1 and given a deadline at second 2. -/
def expiringSet : Option Db :=
  (sadd ∅ [107] (hlcPack 1000 0) 1 [([97], hlcPack 1000 1)] 1000).bind fun db =>
    db.setKeyDeadline [107] (hlcPack 1500 0) 1 2000 1500

/-- At second 3 the set is created again with the member `b`. -/
def createAgain : List ExpiryOp := [.create .set (hlcPack 3000 0) [([98], elementAdd .setMember (hlcPack 3000 1) 1 [])] 3000]

theorem expired_collection_stays_gone_created_again : ∃ db, expiringSet = some db ∧
    (db.expiryRun [107] 1 createAgain).visibleElement [107] .set .setMember [98] 3000 =
      some ⟨Envelope.typeFlags .setMember, hlcPack 3000 1, 1, 0⟩ ∧
    (2000 : UInt64) <<< 16 < hlcPack 3000 1 := by
  have hsome : expiringSet.isSome = true := by decide
  obtain ⟨db, hdb⟩ := isSome_iff_exists.1 hsome
  have hhead : expiringSet.bind (fun db => db.getRaw (headKey [107])) =
      some (HeadRecord.encode ⟨false, ⟨hlcPack 1500 0, 1⟩, 2000, Ctype.set.toByte, 0, []⟩) := by decide
  have hvis : expiringSet.bind (fun db => (db.expiryRun [107] 1 createAgain).visibleElement [107] .set .setMember [98] 3000) =
      some ⟨Envelope.typeFlags .setMember, hlcPack 3000 1, 1, 0⟩ := by decide
  rw [hdb, bind_some] at hhead hvis
  refine ⟨db, hdb, hvis, ?_⟩
  refine expired_collection_stays_gone [107] 1 db _ hhead (by decide) createAgain ?_ ?_ .set .setMember [98] 3000 (by decide) _
    hvis
  · intro op hop
    rw [List.mem_singleton.1 hop]
    decide
  · intro i hi
    obtain rfl : i = 0 := Nat.lt_one_iff.1 hi
    trivial

/-- What RENAME brings from a set with the member `b`. -/
def renamed : List KeyRecord :=
  [⟨.head, [], HeadRecord.encode ⟨false, ⟨hlcPack 2900 0, 1⟩, 0, Ctype.set.toByte, 0, []⟩, hlcPack 3000 1⟩,
    ⟨.setMember, [98], elementAdd .setMember (hlcPack 2900 1) 1 [], hlcPack 3000 2⟩]

/-- At second 3 no member of the expired set is there. The sweeper visits its head, and the old member is back; so it is beside
the new one if another set is renamed to the key. -/
theorem expired_collection_comes_back :
    expiringSet.map (fun db => (db.smembers [107] 3000, (db.sweepRecord (headKey [107]) 3000).smembers [107] 3000,
      (db.expiryStep [107] 1 (.move true (hlcPack 3000 0) renamed 3000)).smembers [107] 3000)) =
      some (some [], some [[97]], some [[97], [98]]) := by decide

end Db

end Marekvs
