import Marekvs.Engine.Shard
import Marekvs.Engine.HeadRecord

/-!
# What the operations of a shard leave alone

Each operation on a shard's context writes at most the keys that it names. Cursors and clock readings do not touch the records,
and nothing moves the wall clock or the node's id.
-/

namespace Marekvs

namespace ShardCtx

variable (ctx : ShardCtx)

@[simp] theorem getRaw_tick : ctx.tick.getRaw k = ctx.getRaw k := rfl

@[simp] theorem nowMs_tick : ctx.tick.nowMs = ctx.nowMs := rfl

@[simp] theorem nodeId_tick : ctx.tick.nodeId = ctx.nodeId := rfl

@[simp] theorem getRaw_putRaw_self (k v : Bytes) : (ctx.putRaw k v).getRaw k = some v := Db.getRaw_putRaw_self _ _ _

theorem getRaw_putRaw_of_ne (h : k ≠ k') (v : Bytes) : (ctx.putRaw k v).getRaw k' = ctx.getRaw k' :=
  Db.getRaw_putRaw_of_ne _ h _

@[simp] theorem getRaw_delRaw_self (k : Bytes) : (ctx.delRaw k).getRaw k = none := by
  simp [getRaw, Db.getRaw, delRaw]

theorem getRaw_delRaw_of_ne (h : k ≠ k') : (ctx.delRaw k).getRaw k' = ctx.getRaw k' := by
  simp [getRaw, Db.getRaw, delRaw, Std.ExtTreeMap.getElem?_erase, h]

/-! ## Cursors -/

@[simp] theorem db_setPopHint (pre k : Bytes) : (ctx.setPopHint pre k).db = ctx.db := rfl

@[simp] theorem db_popHintOnInsert (pre k : Bytes) : (ctx.popHintOnInsert pre k).db = ctx.db := by
  rw [popHintOnInsert]
  split
  · rfl
  · split <;> rfl

@[simp] theorem nowMs_popHintOnInsert (pre k : Bytes) : (ctx.popHintOnInsert pre k).nowMs = ctx.nowMs := by
  rw [popHintOnInsert]
  split
  · rfl
  · split <;> rfl

@[simp] theorem db_noteMember : (ctx.noteMember k v).db = ctx.db := by
  rw [noteMember]
  split
  · split
    · exact db_popHintOnInsert _ _ _
    · rfl
  · rfl

@[simp] theorem nowMs_noteMember (k v : Bytes) : (ctx.noteMember k v).nowMs = ctx.nowMs := by
  rw [noteMember]
  split
  · split
    · exact nowMs_popHintOnInsert _ _ _
    · rfl
  · rfl

/-! ## Merges -/

@[simp] theorem getRaw_writeMerged_self (k v : Bytes) :
    (ctx.writeMerged k v).getRaw k = some (writeMergedAt k (ctx.getRaw k) v) := by
  rw [writeMerged]
  split
  · rw [getRaw, db_noteMember]
    exact Db.getRaw_writeMerged_self ctx.db k v
  rename_i hkeep
  rw [writeChanges] at hkeep
  cases hraw : ctx.getRaw k with
  | none =>
    rw [hraw] at hkeep
    exact absurd rfl hkeep
  | some l =>
    rw [hraw] at hkeep
    have hout : mergeAt k l v = .keepLocal := by simpa using hkeep
    simp only [writeMergedAt, hout, resolve]

theorem getRaw_writeMerged_of_ne (h : k ≠ k') (v : Bytes) : (ctx.writeMerged k v).getRaw k' = ctx.getRaw k' := by
  rw [writeMerged]
  split
  · rw [getRaw, db_noteMember]
    exact Db.getRaw_writeMerged_of_ne ctx.db h v
  · rfl

@[simp] theorem nowMs_writeMerged (k v : Bytes) : (ctx.writeMerged k v).nowMs = ctx.nowMs := by
  rw [writeMerged]
  split
  · exact nowMs_noteMember _ _ _
  · rfl

/-! ## Heads -/

theorem db_ensureHead_of_ne (t : Ctype) (hlc : UInt64) (node : NodeId) (now : UInt64) (db : Db)
    (h : Ikey.headKey key ≠ k) : ((db.ensureHead key t hlc node now).1).getRaw k = db.getRaw k := by
  rw [Db.ensureHead]
  split
  · exact Db.getRaw_writeMerged_of_ne _ h _
  · split
    · rfl
    · exact Db.getRaw_writeMerged_of_ne _ h _

theorem getRaw_ensureHead_of_ne (t : Ctype) (h : Ikey.headKey key ≠ k) : (ctx.ensureHead key t).getRaw k = ctx.getRaw k := by
  rw [ensureHead]
  split
  · split
    · rfl
    · exact db_ensureHead_of_ne _ _ _ _ _ h
  · exact db_ensureHead_of_ne _ _ _ _ _ h

theorem getRaw_delKey_of_ne (hs : Ikey.stringKey key ≠ k) (hh : Ikey.headKey key ≠ k) :
    (ctx.delKey key).getRaw k = ctx.getRaw k := by
  rw [delKey]
  split
  · rfl
  rename_i db hdb
  rw [Db.delKey] at hdb
  split at hdb
  · cases hdb
  · cases hdb
    exact Db.getRaw_writeMerged_of_ne _ hs _
  · cases hdb
    exact Db.getRaw_writeMerged_of_ne _ hh _

end ShardCtx

end Marekvs
