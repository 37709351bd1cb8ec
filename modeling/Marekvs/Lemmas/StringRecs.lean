import Marekvs.Engine.StringRun

/-!
# Runs on stored bytes as runs on records

A step that writes bytes through the merge on one node is a step that writes a record (`Recs.put`). Every run of string commands
is followed on records this way.
-/

namespace Marekvs

open Function

open StringRecord CounterState

/-! ## Reading back -/

theorem counterOf_encode (r : StringRecord) :
    counterOf r.encode = match r.body with
      | .count c _ => some c
      | _ => none := by
  cases hb : r.body with
  | count c hc =>
    have hdec : decode c.encode = some c := decode_encode hc.le
    simp [counterOf, hb, parts, hdec]
  | text p => simp [counterOf, hb, parts]
  | dead => simp [counterOf, hb, parts]

theorem counterOf_eq_some {r : StringRecord} : counterOf r.encode = some c ↔ ∃ hc, r.body = .count c hc := by
  rw [counterOf_encode]
  cases hb : r.body with
  | count d hd =>
    constructor
    · rintro ⟨⟩
      exact ⟨hd, rfl⟩
    · rintro ⟨_, ⟨⟩⟩
      rfl
  | text p => simp
  | dead => simp

theorem encode_injective : Function.Injective StringRecord.encode := by
  intro a b h
  obtain ⟨henv, hpay⟩ := Envelope.encodeWith_inj.1 h
  have hver : a.version = b.version := congrArg Envelope.version henv
  have httl : a.ttl = b.ttl := congrArg Envelope.ttlDeadlineMs henv
  have htype : (parts a.body).1 = (parts b.body).1 := by rw [← envelope_rtype, henv, envelope_rtype]
  have hdead : (parts a.body).2.1 = (parts b.body).2.1 := by rw [← envelope_isTombstone, henv, envelope_isTombstone]
  cases a with
  | mk va ta ba =>
    cases b with
    | mk vb tb bb =>
      cases hver
      cases httl
      congr 1
      cases ba <;> cases bb <;> simp_all [parts]
      rename_i c hc d hd
      have hcd := decode_encode hc.le
      rw [hpay, decode_encode hd.le] at hcd
      exact (Option.some.inj hcd).symm

@[simp] theorem versionOf_encode (r : StringRecord) : versionOf r.encode = r.version := by
  simp [versionOf]

/-! ## The records of a run -/

/-- What the nodes hold, have ever stored and have merged, as records. -/
structure Recs where
  held : NodeId → Option StringRecord
  sent : List StringRecord
  merged : NodeId → List StringRecord

/-- The bytes are those of the records. -/
structure RepOf (stored : NodeId → Option Bytes) (sent : List Bytes) (merged : NodeId → List Bytes) (t : Recs) : Prop where
  stored : ∀ i, stored i = (t.held i).map StringRecord.encode
  sent : sent = t.sent.map StringRecord.encode
  merged : ∀ i, merged i = (t.merged i).map StringRecord.encode

/-- `w` is written through the merge on node `i`, which then counts `y` as merged. -/
def Recs.put (t : Recs) (i : NodeId) (w y : StringRecord) : Recs where
  held := Function.update t.held i (some (StringRecord.store (t.held i) w))
  sent := StringRecord.store (t.held i) w :: t.sent
  merged := Function.update t.merged i (y :: t.merged i)

namespace Recs

variable (t : Recs) (i : NodeId) (w y : StringRecord)

@[simp] theorem put_held_self : (t.put i w y).held i = some (StringRecord.store (t.held i) w) := update_self _ _ _

@[simp] theorem put_merged_self : (t.put i w y).merged i = y :: t.merged i := update_self _ _ _

variable {i} {j : NodeId}

theorem put_held_of_ne (h : j ≠ i) : (t.put i w y).held j = t.held j := update_of_ne h _ _

theorem put_merged_of_ne (h : j ≠ i) : (t.put i w y).merged j = t.merged j := update_of_ne h _ _

end Recs

theorem rep_update {e : α → β} {g : NodeId → α} (h : ∀ i, f i = e (g i)) (i : NodeId) (x : α)
    (j : NodeId) : update f i (e x) j = e (update g i x j) := by
  rw [funext h]
  exact (apply_update (fun _ => e) g i x j).symm

namespace RepOf

variable {stored : NodeId → Option Bytes} {sent : List Bytes} {merged : NodeId → List Bytes} {t : Recs}

theorem put (h : RepOf stored sent merged t) (i : NodeId) (w y : StringRecord) :
    RepOf (update stored i (some (StringRecord.store (t.held i) w).encode))
      ((StringRecord.store (t.held i) w).encode :: sent) (update merged i (y.encode :: merged i)) (t.put i w y) where
  stored := rep_update h.stored i (some _)
  sent := by
    rw [h.sent]
    rfl
  merged := by
    rw [h.merged i]
    exact rep_update h.merged i (y :: t.merged i)

theorem writeMerged (h : RepOf stored sent merged t) (i : NodeId) (w : StringRecord) :
    writeMerged (stored i) w.encode = (StringRecord.store (t.held i) w).encode := by
  rw [h.stored i, writeMerged_encode]

end RepOf

end Marekvs
