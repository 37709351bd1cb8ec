import Marekvs.Lemmas.ProtoDoc
import Marekvs.Lib.BytesOrder
import Marekvs.Repl.Bootstrap

/-!
# Keys and paths as bytes

Prefix scans and range deletes work on bytes. The keys of one user key's records start with bytes that no record of another user
key starts with, because the length of the user key stands in front of it and can be told from what follows; and the records of a
partition lie side by side. Inside a document the same holds of paths: segments delimit themselves, so the bytes of a path start
those of another exactly if its segments do.
-/

namespace Marekvs

open List Machine Bytes

/-! ## Internal keys -/

namespace Ikey

/-- The keys that the constructors build, each with its tag, user key and suffix: `string_key` and `list_key` build simple keys,
all others element keys. -/
inductive Built : Tag → Bytes → Bytes → Bytes → Prop
  | simple {tag : Tag} (h : tag.isSimple = true) (u : Bytes) : Built tag u [] (simple (pidOf u) tag u)
  | elem {tag : Tag} (h : tag.isSimple = false) (u s : Bytes) : Built tag u s (elemKey tag u s)

variable {tag tag' : Tag} {u w s s' k k' : Bytes} {pid : Pid}

theorem Built.parse_eq (h : Built tag u s k) (hu : u.length < 2 ^ 64) : parse k = some ⟨pidOf u, tag, u, s⟩ := by
  cases h with
  | simple h => exact parse_simple _ h u
  | elem h => exact parse_elemKey h u s hu

/-- Every key is the partition of its user key, and something behind it. -/
theorem Built.exists_behind (h : Built tag u s k) : ∃ b rest, k = Bytes.ofU16 (pidOf u) ++ b :: rest := by
  cases h with
  | simple => exact ⟨_, _, rfl⟩
  | elem => exact ⟨_, _, rfl⟩

theorem compare_ofU16 : compare (Bytes.ofU16 a) (Bytes.ofU16 b) = compare a.toNat b.toNat := by
  have hnat : ∀ x : UInt16, beNat (ofU16 x) = x.toNat := by
    intro x
    exact beNat_beBytes_of_lt (Nat.lt_of_lt_of_eq x.toNat_lt (by norm_num))
  rw [compare_eq_compare_beNat (by simp), hnat, hnat]

/-- The keys from a partition to the next are those of the partition. -/
theorem between_iff (hpid : pid < PARTITIONS) (p : UInt16) (b : UInt8) (rest : List UInt8) :
    (compare (partitionPrefix pid) (Bytes.ofU16 p ++ b :: rest) ≠ .gt ∧
      compare (Bytes.ofU16 p ++ b :: rest) (partitionPrefix (pid + 1)) = .lt) ↔ p = pid := by
  have hnext : (pid + 1).toNat = pid.toNat + 1 := by
    have hlt : pid.toNat < 4096 := UInt16.lt_iff_toNat_lt.1 hpid
    rw [UInt16.toNat_add]
    exact Nat.mod_eq_of_lt (by simp; omega)
  have hlow := compare_append (a := ofU16 pid) (b := ofU16 p) (by simp) [] (b :: rest)
  have hhigh := compare_append (a := ofU16 p) (b := ofU16 (pid + 1)) (by simp) (b :: rest) []
  rw [append_nil, compare_ofU16] at hlow hhigh
  rw [partitionPrefix, partitionPrefix, hlow, hhigh, hnext, ← UInt16.toNat_inj]
  -- what stands behind the partition decides only between equal partitions
  have hfirst : compare ([] : Bytes) (b :: rest) = .lt := rfl
  have hlast : compare (b :: rest) ([] : Bytes) = .gt := rfl
  rw [hfirst, hlast, Ne, Ordering.then_eq_gt, Ordering.then_eq_lt, compare_gt_iff_gt, compare_lt_iff_lt]
  simp
  omega

/-- All keys of the records of two user keys: they are taken apart again, no two of them are the same, the scan of a collection
finds its elements only, and a partition's keys lie together. -/
theorem internal_keys_separate (hu : u.length < 2 ^ 64) (hw : w.length < 2 ^ 64) :
    (∀ tag s, tag.isSimple = false → parse (elemKey tag u s) = some ⟨pidOf u, tag, u, s⟩) ∧
    (∀ tag, tag.isSimple = true → parse (simple (pidOf u) tag u) = some ⟨pidOf u, tag, u, []⟩) ∧
    (∀ tag tag' s s' k, Built tag u s k → Built tag' w s' k → tag = tag' ∧ u = w ∧ s = s') ∧
    (∀ tag tag' s, collectionPrefix tag u <+: elemKey tag' w s ↔ tag = tag' ∧ u = w) ∧
    ∀ tag s k pid, Built tag u s k → pid < PARTITIONS →
      ((compare (partitionPrefix pid) k ≠ .gt ∧ compare k (partitionPrefix (pid + 1)) = .lt) ↔ pidOf u = pid) := by
  refine ⟨fun tag s h => parse_elemKey h u s hu, fun tag h => parse_simple _ h u, ?_, ?_, ?_⟩
  · intro tag tag' s s' k h h'
    have hparse := (h.parse_eq hu).symm.trans (h'.parse_eq hw)
    simp only [Option.some.injEq, ParsedKey.mk.injEq] at hparse
    exact hparse.2
  · intro tag tag' s
    rw [collectionPrefix_isPrefix_iff]
    constructor
    · rintro ⟨s', h⟩
      obtain ⟨rfl, rfl, -⟩ := (elemKey_eq_iff hw hu).1 h
      exact ⟨rfl, rfl⟩
    · rintro ⟨rfl, rfl⟩
      exact ⟨s, rfl⟩
  · intro tag s k pid h hpid
    obtain ⟨b, rest, rfl⟩ := h.exists_behind
    exact between_iff hpid (pidOf u) b rest

/-- A hash of a key is not scanned with that of a longer key. -/
theorem longer_key_not_scanned : ¬ collectionPrefix .hashField [97] <+: elemKey .hashField [97, 98] [] := by
  intro h
  have hkeys := (internal_keys_separate (u := [97]) (w := [97, 98]) (by decide) (by decide)).2.2.2.1
  exact absurd ((hkeys .hashField .hashField []).1 h).2 (by decide)

/-- A string's tag says that there is no length in front of the key, so an element key with that tag is not taken apart into what
it was built from. -/
theorem prefixed_string_misread : parse (elemKey .string [97] []) ≠ some ⟨pidOf [97], .string, [97], []⟩ := by decide

end Ikey

/-! ## Paths -/

namespace DocPath

/-- What the bytes of two written paths tell: the segments, the last of them and the path in front of it, and whether one lies
below the other. -/
structure Mirrors {S : Type} (decodeSeg : Bytes → Except Panic (Option (S × Nat))) (encodePath : List S → Bytes) (a b : List S) :
    Prop where
  decode : decodePath decodeSeg (encodePath a) = .ok (some a)
  split : ∀ front s, a = front ++ [s] → splitLast decodeSeg (encodePath a) = .ok (some (encodePath front, s))
  below : encodePath a <+: encodePath b ↔ a <+: b

theorem mirrors_chain {S : Type} {decodeSeg : Bytes → Except Panic (Option (S × Nat))} {encode : S → Bytes} {a b : List S}
    (hdec : ∀ seg rest, (encode seg ++ rest).length < 2 ^ 64 →
      decodeSeg (encode seg ++ rest) = .ok (some (seg, (encode seg).length)))
    (hpos : ∀ seg, 0 < (encode seg).length) (ha : (a.flatMap encode).length < 2 ^ 64) (hb : (b.flatMap encode).length < 2 ^ 64) :
    Mirrors decodeSeg (fun segs => segs.flatMap encode) a b := by
  refine ⟨decodePath_chain hdec hpos ha, ?_, chain_isPrefix_iff hdec hpos hb⟩
  rintro front s rfl
  exact splitLast_chain hdec hpos ha

/-- The bytes of JSON paths and of protobuf paths mirror the tree: a prefix scan finds a node and what is below it. -/
theorem path_bytes_mirror_tree :
    (∀ a b, (JsonSeg.encodePath a).length < 2 ^ 64 → (JsonSeg.encodePath b).length < 2 ^ 64 →
      Mirrors JsonSeg.decodeSeg JsonSeg.encodePath a b) ∧
    ∀ a b, (ProtoSeg.encodePath a).length < 2 ^ 64 → (ProtoSeg.encodePath b).length < 2 ^ 64 →
      Mirrors ProtoSeg.decodeSeg ProtoSeg.encodePath a b := by
  rw [funext JsonSeg.encodePath_eq, funext ProtoSeg.encodePath_eq]
  exact ⟨fun a b => mirrors_chain JsonSeg.decodeSeg_encode JsonSeg.encode_pos,
    fun a b => mirrors_chain ProtoSeg.decodeSeg_encode ProtoSeg.encode_pos⟩

/-- A field of an object lies below the object, and a field of a message below the message. -/
theorem fields_lie_below_their_parent :
    JsonSeg.encodePath [.field [97]] <+: JsonSeg.encodePath [.field [97], .field [98]] ∧
      ProtoSeg.encodePath [.field 7] <+: ProtoSeg.encodePath [.field 7, .field 300] := by
  refine ⟨(path_bytes_mirror_tree.1 _ _ ?_ ?_).below.2 ⟨[.field [98]], rfl⟩,
    (path_bytes_mirror_tree.2 _ _ ?_ ?_).below.2 ⟨[.field 300], rfl⟩⟩
  all_goals decide

end DocPath

end Marekvs
