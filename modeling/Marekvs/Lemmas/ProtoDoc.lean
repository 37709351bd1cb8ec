import Marekvs.Engine.ProtoFields
import Marekvs.Lemmas.JsonDoc
import Marekvs.Lib.Trie

/-!
# Protobuf paths and the records behind them

A path that was written as a chain of segments is read back as that chain, so the records of a tree are found again, in whatever
order they come, by the bytes of the path in front of their last segment (`get_kids`).
-/

namespace Marekvs

open List Machine Diff Bytes

/-! ## Segments -/

theorem MKey.decodeBody_encodeBody : MKey.decodeBody key.encodeBody = some key := by
  have h32 : ∀ n : UInt32, UInt32.ofNat (beNat (beBytes 4 n.toNat)) = n := by
    intro n
    rw [beNat_beBytes_of_lt n.toNat_lt, UInt32.ofNat_toNat]
  cases key with
  | bool b => cases b <;> rfl
  | i32 n =>
    simp only [encodeBody, decodeBody, length_beBytes, h32]
    rfl
  | i64 n =>
    simp only [encodeBody, decodeBody, length_ofU64, toU64_ofU64]
    rfl
  | u32 n =>
    simp only [encodeBody, decodeBody, length_beBytes, h32]
    rfl
  | u64 n =>
    simp only [encodeBody, decodeBody, length_ofU64, toU64_ofU64]
    rfl
  | str s => rfl

namespace ProtoSeg

open DocPath

theorem encodePath_eq (segs : List ProtoSeg) : encodePath segs = segs.flatMap encode := by
  have h : ∀ (path : Bytes), segs.foldl pushSeg path = path ++ segs.flatMap encode := by
    induction segs with
    | nil => simp
    | cons s segs ih =>
      intro path
      rw [foldl_cons, ih, flatMap_cons, pushSeg, append_assoc]
  exact (h []).trans (nil_append _)

theorem encodePath_concat (segs : List ProtoSeg) (s : ProtoSeg) : encodePath (segs ++ [s]) = pushSeg (encodePath segs) s := by
  simp [encodePath_eq, pushSeg]

theorem encode_pos (seg : ProtoSeg) : 0 < seg.encode.length := by cases seg <;> simp [encode]

theorem range?_window (tag : UInt8) (window rest : List UInt8)
    (hlen : (tag :: (Bytes.putVarint window.length ++ (window ++ rest))).length < 2 ^ 64) :
    range? (tag :: (Bytes.putVarint window.length ++ (window ++ rest))) (add 1 (Bytes.putVarint window.length).length)
      (add (add 1 (Bytes.putVarint window.length).length) window.length) = some window := by
  simp only [length_cons, length_append] at hlen
  rw [add_eq (by omega : 1 + (putVarint window.length).length < 2 ^ 64), add_eq (by omega), range?, if_pos]
  · rw [drop_take, Nat.add_sub_cancel_left, Nat.add_comm 1, drop_succ_cons, drop_left, take_left]
  · simp only [length_cons, length_append]
    omega

theorem decodeSeg_encode (seg : ProtoSeg) (rest : Bytes) (hlen : (seg.encode ++ rest).length < 2 ^ 64) :
    decodeSeg (seg.encode ++ rest) = .ok (some (seg, seg.encode.length)) := by
  have hget : ∀ window : Bytes, window.length < 2 ^ 64 → getVarint (putVarint window.length ++ (window ++ rest)) =
      some (window.length, (putVarint window.length).length) := fun window h => getVarint_putVarint h _
  have hsize : ∀ window : Bytes, (putVarint window.length ++ window).length + 1 < 2 ^ 64 →
      add (add 1 (putVarint window.length).length) window.length = (putVarint window.length ++ window).length + 1 := by
    intro window h
    rw [length_append] at h ⊢
    rw [add_eq (by omega : 1 + (putVarint window.length).length < 2 ^ 64), add_eq (by omega)]
    omega
  cases seg with
  | field number =>
    have hnum := number.toNat_lt
    have hnumber : getVarint (putVarint number.toNat) = some (number.toNat, (putVarint number.toNat).length) := by
      have := getVarint_putVarint (Nat.lt_trans hnum (by norm_num : 2 ^ 32 < 2 ^ 64)) []
      rwa [append_nil] at this
    simp only [encode, cons_append, append_assoc] at hlen ⊢
    have hw := range?_window SEG_FIELD _ rest hlen
    simp only [length_cons, length_append] at hlen
    rw [decodeSeg, if_pos (.inl rfl), hget _ (by omega)]
    simp only [hw, if_true, hnumber, ne_eq, not_true_eq_false, false_or]
    rw [if_neg (Nat.not_le.2 hnum), UInt32.ofNat_toNat, hsize _ (by rw [length_append]; omega), length_cons]
  | elem e =>
    simp only [encode, cons_append]
    rw [decodeSeg, if_neg (by decide), if_pos rfl, Eid.decode_encode]
    simp [Eid.encode]
  | mapKey key =>
    simp only [encode, cons_append, append_assoc] at hlen ⊢
    have hw := range?_window SEG_MAPKEY _ rest hlen
    simp only [length_cons, length_append] at hlen
    rw [decodeSeg, if_pos (.inr rfl), hget _ (by omega)]
    simp only [hw]
    rw [if_neg (by decide), MKey.decodeBody_encodeBody, Option.map_some, hsize _ (by rw [length_append]; omega), length_cons]

theorem splitLast_encodePath (hlen : (encodePath (segs ++ [s])).length < 2 ^ 64) :
    splitLast decodeSeg (encodePath (segs ++ [s])) = .ok (some (encodePath segs, s)) := by
  rw [encodePath_eq] at hlen ⊢
  rw [encodePath_eq]
  exact splitLast_chain decodeSeg_encode encode_pos hlen

theorem encodePath_inj {segs segs' : List ProtoSeg} (hlen : (encodePath segs).length < 2 ^ 64)
    (heq : encodePath segs = encodePath segs') : segs = segs' := by
  rw [encodePath_eq] at hlen
  rw [encodePath_eq, encodePath_eq] at heq
  exact chain_inj decodeSeg_encode encode_pos hlen heq

theorem length_le_encodePath (segs : List ProtoSeg) : segs.length ≤ (encodePath segs).length := by
  rw [encodePath_eq]
  induction segs with
  | nil => exact le_rfl
  | cons s segs ih =>
    have := encode_pos s
    rw [flatMap_cons, length_append, length_cons]
    omega

end ProtoSeg

/-! ## Records with written paths -/

namespace Proto

open ProtoSeg

/-- Records whose paths were written: the segments of the path, and what the record holds. -/
abbrev Records : Type := List (List ProtoSeg × PNodeIn)

def Records.stored (rs : Records) : List (Bytes × PNodeIn) := rs.map fun r => (encodePath r.1, r.2)

/-- The paths can be read. -/
def Records.Readable (rs : Records) : Prop := ∀ r ∈ rs, (encodePath r.1).length < 2 ^ 63

def Records.kids (rs : Records) : PKids := rs.filterMap fun r => r.1.getLast?.map fun s => (encodePath r.1.dropLast, s, r.2)

def Records.root (root : Option PNodeIn) (rs : Records) : Option PNodeIn :=
  rs.foldl (fun root r => if r.1 = [] then some r.2 else root) root

theorem length_dropLast_lt (h : segs ≠ []) : (encodePath segs.dropLast).length < (encodePath segs).length := by
  obtain ⟨front, s, rfl⟩ := eq_nil_or_concat segs |>.resolve_left h
  have := encode_pos s
  rw [concat_eq_append, dropLast_concat, encodePath_concat, pushSeg, length_append]
  omega

theorem splitNodes_stored {rs : Records} (h : rs.Readable) : ∀ (root : Option PNodeIn) (kids : PKids),
    splitNodes rs.stored root kids = .ok (rs.root root, kids ++ rs.kids) := by
  induction rs with
  | nil =>
    intro root kids
    rw [Records.kids, filterMap_nil, append_nil]
    rfl
  | cons r rs ih =>
    intro root kids
    obtain ⟨hr, hrs⟩ := forall_mem_cons.1 h
    obtain ⟨segs, n⟩ := r
    dsimp only at hr
    show splitNodes ((encodePath segs, n) :: Records.stored rs) root kids = _
    rcases eq_nil_or_concat segs with rfl | ⟨front, s, rfl⟩
    · show splitNodes (Records.stored rs) (some n) kids = _
      rw [ih hrs]
      rfl
    · rw [concat_eq_append] at hr ⊢
      have hne : encodePath (front ++ [s]) ≠ [] := by
        have := length_le_encodePath (front ++ [s])
        intro hnil
        rw [hnil, length_append] at this
        simp at this
      rw [splitNodes, if_neg hne, splitLast_encodePath (by omega), Fallible.ok_bind]
      simp only
      rw [ih hrs, append_assoc]
      simp [Records.kids, Records.root]

/-- What is below a written path is found by its bytes. -/
theorem get_kids {rs : Records} (h : rs.Readable) (q : List ProtoSeg) : rs.kids.get (encodePath q) = Trie.under rs q := by
  refine Trie.filed_eq_under encodePath ?_
  intro r hr hne heq
  have hlen := h r hr
  have hlt := length_dropLast_lt hne
  exact encodePath_inj (by omega) heq

/-- The only record without a segment is the root's. -/
theorem root_eq_some {rs : Records} (h : ([], n) ∈ rs ∧ ∀ r ∈ rs, r.1 = [] → r.2 = n) : rs.root none = some n :=
  Trie.foldl_select h.2 none (.inr ⟨_, h.1, rfl⟩)

end Proto

end Marekvs
