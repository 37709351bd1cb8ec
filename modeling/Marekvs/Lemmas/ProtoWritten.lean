import Marekvs.Lemmas.ProtoDoc

/-!
# What a message is written out as

A message of a descriptor (`Value.Valid`) is written out as the records of a tree (`Laid`).
-/

namespace Marekvs

open List Machine Diff

namespace Proto

open ProtoSeg (pushSeg encodePath decodeSeg encodePath_concat splitLast_encodePath)

variable {M : Type}

/-! ## Messages of a descriptor -/

/-- The scalars of a kind. -/
inductive Value.Scalar : Kind M → Value M → Prop
  | double (bits : UInt64) : Scalar .double (.f64 bits)
  | float (bits : UInt32) : Scalar .float (.f32 bits)
  | int32 (n : Int32) : Scalar .int32 (.i32 n)
  | int64 (n : Int64) : Scalar .int64 (.i64 n)
  | uint32 (n : UInt32) : Scalar .uint32 (.u32 n)
  | uint64 (n : UInt64) : Scalar .uint64 (.u64 n)
  | sint32 (n : Int32) : Scalar .sint32 (.i32 n)
  | sint64 (n : Int64) : Scalar .sint64 (.i64 n)
  | fixed32 (n : UInt32) : Scalar .fixed32 (.u32 n)
  | fixed64 (n : UInt64) : Scalar .fixed64 (.u64 n)
  | sfixed32 (n : Int32) : Scalar .sfixed32 (.i32 n)
  | sfixed64 (n : Int64) : Scalar .sfixed64 (.i64 n)
  | bool (b : Bool) : Scalar .bool (.bool b)
  | string (s : String) : Scalar .string (.string s)
  | bytes (b : Bytes) : Scalar .bytes (.bytes b)
  | enum (n : Int32) : Scalar .enum (.enumNumber n)

/-- The map keys of a kind. -/
inductive MapKey.OfKind : Kind M → MapKey → Prop
  | int32 (n : Int32) : OfKind .int32 (.i32 n)
  | int64 (n : Int64) : OfKind .int64 (.i64 n)
  | uint32 (n : UInt32) : OfKind .uint32 (.u32 n)
  | uint64 (n : UInt64) : OfKind .uint64 (.u64 n)
  | sint32 (n : Int32) : OfKind .sint32 (.i32 n)
  | sint64 (n : Int64) : OfKind .sint64 (.i64 n)
  | fixed32 (n : UInt32) : OfKind .fixed32 (.u32 n)
  | fixed64 (n : UInt64) : OfKind .fixed64 (.u64 n)
  | sfixed32 (n : Int32) : OfKind .sfixed32 (.i32 n)
  | sfixed64 (n : Int64) : OfKind .sfixed64 (.i64 n)
  | bool (b : Bool) : OfKind .bool (.bool b)
  | string (s : String) : OfKind .string (.string s)

variable (pool : Pool M)

/-- The descriptors of the present fields, with at most one member of each oneof. -/
structure Described (desc : M) (fields : List (UInt32 × Value M)) (fd : UInt32 → FieldDescriptor M) : Prop where
  ascending : Ordered.Strict (fun f : UInt32 × Value M => f.1.toNat) fields
  known : ∀ f ∈ fields, pool.getField desc f.1 = some (fd f.1)
  exclusive : ∀ f ∈ fields, ∀ g ∈ fields, ∀ o, (fd f.1).oneof = some o → (fd g.1).oneof = some o → f.1 = g.1

mutual

/-- The values of a kind. -/
inductive Value.Valid : Kind M → Value M → Prop
  | scalar {kind : Kind M} {v : Value M} : Value.Scalar kind v → Valid kind v
  | message {desc : M} {fields : List (UInt32 × Value M)} (fd : UInt32 → FieldDescriptor M) : Described pool desc fields fd →
      (∀ f ∈ fields, Value.Holds (fd f.1).shape f.2) → Valid (.message desc) (.message desc fields)

/-- The values of a field of a shape. -/
inductive Value.Holds : Shape M → Value M → Prop
  | single {kind : Kind M} {v : Value M} : Value.Valid kind v → Holds (.single kind) v
  | list {kind : Kind M} {items : List (Value M)} : (∀ v ∈ items, Value.Valid kind v) → Holds (.list kind) (.list items)
  | map {keyKind valueKind : Kind M} {entries : List (MapKey × Value M)} :
      Ordered.Strict (fun e : MapKey × Value M => e.1.seg.encode) entries → (∀ e ∈ entries, MapKey.OfKind keyKind e.1) →
      (∀ e ∈ entries, Value.Valid valueKind e.2) → Holds (.map keyKind valueKind) (.map entries)

end

theorem fromUtf8_utf8 : fromUtf8 (utf8 s) = some s := by
  have hbytes : (⟨(utf8 s).toArray⟩ : ByteArray) = s.toByteArray := by
    rw [utf8]
  rw [fromUtf8, hbytes, String.fromUTF8?, dif_pos s.isValidUTF8]
  rfl

theorem valueOf_pvalOf (h : Value.Scalar kind v) : valueOf (pvalOf v) kind = some v := by
  cases h with
  | string s => rw [pvalOf, valueOf, fromUtf8_utf8, Option.map_some]
  | _ => rfl

theorem mapKeyValue_mkeyOf (h : MapKey.OfKind kind key) : mapKeyValue (mkeyOf key) kind = some key := by
  cases h with
  | string s => rw [mkeyOf, mapKeyValue, fromUtf8_utf8, Option.map_some]
  | _ => rfl

/-! ## Trees of records -/

/-- A field, an entry or an element: what it is named by, its value, the dots of its record and what hangs below it. -/
structure Part (K M : Type) where
  key : K
  val : Value M
  dots : List Dot
  below : Trie ProtoSeg PNodeIn

def Part.field (f : Part UInt32 M) : ProtoSeg × PNodeIn × Trie ProtoSeg PNodeIn :=
  (.field f.key, .node (pvalOf f.val) f.dots, f.below)

def Part.entry (e : Part MapKey M) : ProtoSeg × PNodeIn × Trie ProtoSeg PNodeIn :=
  (e.key.seg, .node (pvalOf e.val) e.dots, e.below)

/-- The edges of elements, each behind the one before it. -/
def elemEdges : Eid → List (Part Eid M) → List (ProtoSeg × PNodeIn × Trie ProtoSeg PNodeIn) :=
  Trie.chainEdges .elem Part.key (fun left e => .elem ⟨left, pvalOf e.val⟩ true) Part.below

/-- The tree of what is below a value. -/
inductive Laid : Value M → Trie ProtoSeg PNodeIn → Prop
  | scalar {kind : Kind M} {v : Value M} : Value.Scalar kind v → Laid v (.mk [])
  | message (desc : M) (fs : List (Part UInt32 M)) : (∀ f ∈ fs, Laid f.val f.below) →
      Laid (.message desc (fs.map fun f => (f.key, f.val))) (.mk (fs.map Part.field))
  | map (es : List (Part MapKey M)) : (∀ e ∈ es, Laid e.val e.below) →
      Laid (.map (es.map fun e => (e.key, e.val))) (.mk (es.map Part.entry))
  | list (es : List (Part Eid M)) : (EID_HEAD :: es.map Part.key).Nodup → (∀ e ∈ es, Laid e.val e.below) →
      Laid (.list (es.map Part.val)) (.mk (elemEdges EID_HEAD es))

/-! ## Writing out -/

/-- A record as it is read back, with the dots of its path. -/
def stored (dots : Bytes → List Dot) : PRecord → Bytes × PNodeIn
  | .node path val => (path, .node val (dots path))
  | .elem path elem => (path, .elem elem true)

@[simp] theorem stored_path : (stored dots r).1 = r.path := by cases r <;> rfl

/-- The id of the element that a record is for. -/
def eidOf : PRecord → Option Eid
  | .node _ _ => none
  | .elem path _ =>
    match DocPath.splitLast decodeSeg path with
    | .ok (some (_, .elem e)) => some e
    | _ => none

/-- The ids of the elements are distinct and none is the sentinel. -/
def IdsDistinct (records : List PRecord) : Prop := (EID_HEAD :: records.filterMap eidOf).Nodup

/-- Records that can be stored: with distinct ids, and paths whose lengths fit. -/
structure Storable (records : List PRecord) : Prop where
  ids : IdsDistinct records
  short : ∀ r ∈ records, r.path.length < 2 ^ 63

theorem Storable.sublist (h : Storable records) (hs : records'.Sublist records) : Storable records' :=
  ⟨List.Nodup.sublist (cons_sublist_cons.2 (hs.filterMap _)) h.ids, fun r hr => h.short r (hs.subset hr)⟩

theorem eidOf_elem (e : Eid) (elem : PArrElem)
    (hlen : (encodePath (q ++ [.elem e])).length < 2 ^ 63) : eidOf (.elem (encodePath (q ++ [.elem e])) elem) = some e := by
  rw [eidOf, splitLast_encodePath (by omega)]

section Decomposed

variable {σ : Type} (fresh : Bytes → UInt32 → σ → Eid × σ)

def decomposeField (path : Bytes) (shape : Shape M) (v : Value M) (s : σ) : List PRecord × σ :=
  match shape, v with
  | .map _ _, .map entries =>
    let (below, s) := decomposeEntries pool fresh path entries s
    (.node path .map :: below, s)
  | .map _ _, _ => ([.node path .map], s)
  | .list _, .list items =>
    let (below, s) := decomposeItems pool fresh path EID_HEAD 0 items s
    (.node path .list :: below, s)
  | .list _, _ => ([.node path .list], s)
  | .single _, v => decomposeValue pool fresh path v s

theorem decomposeChildren_cons
    (hfd : pool.getField desc number = some fd) (path : Bytes) (v : Proto.Value M)
    (fields : List (UInt32 × Proto.Value M)) (s : σ) :
    (decomposeChildren pool fresh path desc ((number, v) :: fields) s).1 =
      (decomposeField pool fresh (pushSeg path (.field number)) fd.shape v s).1 ++
        (decomposeChildren pool fresh path desc fields
          (decomposeField pool fresh (pushSeg path (.field number)) fd.shape v s).2).1 := by
  rw [decomposeChildren, hfd]
  rfl

/-- The records below an element or a single value: those of the fields of a message. -/
def decomposeBelow (path : Bytes) (v : Value M) (s : σ) : List PRecord × σ :=
  match v with
  | .message desc fields => decomposeChildren pool fresh path desc fields s
  | _ => ([], s)

theorem decomposeValue_eq :
    decomposeValue pool fresh path v s =
      (.node path (pvalOf v) :: (decomposeBelow pool fresh path v s).1, (decomposeBelow pool fresh path v s).2) := by
  cases v <;> rfl

theorem decomposeEntries_cons (path : Bytes) (key : Proto.MapKey) (v : Proto.Value M)
    (entries : List (Proto.MapKey × Proto.Value M)) (s : σ) :
    (decomposeEntries pool fresh path ((key, v) :: entries) s).1 =
      (decomposeValue pool fresh (pushSeg path key.seg) v s).1 ++
        (decomposeEntries pool fresh path entries (decomposeValue pool fresh (pushSeg path key.seg) v s).2).1 := by
  rw [decomposeEntries]

theorem decomposeItems_cons (path : Bytes) (left : Eid) (ordinal : Nat) (v : Proto.Value M)
    (items : List (Proto.Value M)) (s : σ) :
    ∃ e s' s'', (decomposeItems pool fresh path left ordinal (v :: items) s).1 =
      .elem (pushSeg path (.elem e)) ⟨left, pvalOf v⟩ :: ((decomposeBelow pool fresh (pushSeg path (.elem e)) v s').1 ++
        (decomposeItems pool fresh path e (ordinal + 1) items s'').1) := by
  refine ⟨(fresh path (UInt32.ofNat ordinal) s).1, (fresh path (UInt32.ofNat ordinal) s).2,
    (decomposeBelow pool fresh (pushSeg path (.elem (fresh path (UInt32.ofNat ordinal) s).1)) v
      (fresh path (UInt32.ofNat ordinal) s).2).2, ?_⟩
  rw [decomposeItems]
  rfl

variable {pool} (dots : Bytes → List Dot)

theorem written_scalar (q : List ProtoSeg) (h : Value.Holds pool shape v) (hmsg : pvalOf v ≠ .msg)
    (hlist : pvalOf v ≠ .list) (hmap : pvalOf v ≠ .map) (s : σ) :
    ∃ t, Laid v t ∧ (decomposeField pool fresh (encodePath q) shape v s).1.map (stored dots) =
      Records.stored ((q, .node (pvalOf v) (dots (encodePath q))) :: t.records q) := by
  cases h with
  | single hv =>
    cases hv with
    | scalar hs =>
      refine ⟨.mk [], .scalar hs, ?_⟩
      cases hs <;> rfl
    | message _ _ _ => exact absurd rfl hmsg
  | list _ => exact absurd rfl hlist
  | map _ _ _ => exact absurd rfl hmap

mutual

/-- The records of a field or an entry are its own and those of the tree below it. -/
theorem written_field (q : List ProtoSeg) (shape : Proto.Shape M) : ∀ (v : Value M) (s : σ),
    Value.Holds pool shape v → Storable (decomposeField pool fresh (encodePath q) shape v s).1 →
    ∃ t, Laid v t ∧ (decomposeField pool fresh (encodePath q) shape v s).1.map (stored dots) =
      Records.stored ((q, .node (pvalOf v) (dots (encodePath q))) :: t.records q)
  | .message desc fields, s, h, hst => by
    cases h with
    | single hv =>
      cases hv with
      | scalar hs => cases hs
      | message fd hdesc hall =>
        obtain ⟨fs, hfs, hlaid, hrec⟩ := written_children q desc fd fields s hdesc.known hall
          (hst.sublist (sublist_cons_self _ _))
        refine ⟨.mk (fs.map Part.field), hfs ▸ .message desc fs hlaid, ?_⟩
        exact congrArg (_ :: ·) hrec
  | .list items, s, h, hst => by
    cases h with
    | single hv =>
      cases hv with
      | scalar hs => cases hs
    | list hall =>
      obtain ⟨es, hes, hids, hlaid, hrec⟩ := written_items q EID_HEAD 0 _ items s hall
        (hst.sublist (sublist_cons_self _ _))
      have hnodup : (EID_HEAD :: es.map Part.key).Nodup := List.Nodup.sublist (cons_sublist_cons.2 hids) hst.ids
      refine ⟨.mk (elemEdges EID_HEAD es), hes ▸ .list es hnodup hlaid, ?_⟩
      exact congrArg (_ :: ·) hrec
  | .map entries, s, h, hst => by
    cases h with
    | single hv =>
      cases hv with
      | scalar hs => cases hs
    | map _ _ hall =>
      obtain ⟨es, hes, hlaid, hrec⟩ := written_entries q _ entries s hall (hst.sublist (sublist_cons_self _ _))
      refine ⟨.mk (es.map Part.entry), hes ▸ .map es hlaid, ?_⟩
      exact congrArg (_ :: ·) hrec
  | .bool _, s, h, _ => written_scalar fresh dots q h nofun nofun nofun s
  | .i32 _, s, h, _ => written_scalar fresh dots q h nofun nofun nofun s
  | .i64 _, s, h, _ => written_scalar fresh dots q h nofun nofun nofun s
  | .u32 _, s, h, _ => written_scalar fresh dots q h nofun nofun nofun s
  | .u64 _, s, h, _ => written_scalar fresh dots q h nofun nofun nofun s
  | .f32 _, s, h, _ => written_scalar fresh dots q h nofun nofun nofun s
  | .f64 _, s, h, _ => written_scalar fresh dots q h nofun nofun nofun s
  | .string _, s, h, _ => written_scalar fresh dots q h nofun nofun nofun s
  | .bytes _, s, h, _ => written_scalar fresh dots q h nofun nofun nofun s
  | .enumNumber _, s, h, _ => written_scalar fresh dots q h nofun nofun nofun s

theorem written_children (q : List ProtoSeg) (desc : M) (fd : UInt32 → FieldDescriptor M) :
    ∀ (fields : List (UInt32 × Value M)) (s : σ), (∀ f ∈ fields, pool.getField desc f.1 = some (fd f.1)) →
      (∀ f ∈ fields, Value.Holds pool (fd f.1).shape f.2) →
        Storable (decomposeChildren pool fresh (encodePath q) desc fields s).1 →
      ∃ fs : List (Part UInt32 M), fields = fs.map (fun f => (f.key, f.val)) ∧ (∀ f ∈ fs, Laid f.val f.below) ∧
        (decomposeChildren pool fresh (encodePath q) desc fields s).1.map (stored dots) =
          Records.stored (Trie.recordsOf q (fs.map Part.field))
  | [], _, _, _, _ => ⟨[], rfl, nofun, rfl⟩
  | (number, v) :: fields, s, hknown, hall, hst => by
    have hcons := decomposeChildren_cons pool fresh (hknown _ mem_cons_self) (encodePath q) v fields s
    rw [← encodePath_concat] at hcons
    rw [hcons] at hst
    obtain ⟨t, ht, hr⟩ := written_field (q ++ [.field number]) _ v s
      (hall _ mem_cons_self) (hst.sublist (sublist_append_left _ _))
    obtain ⟨fs, hfs, hlaid, hrs⟩ := written_children q desc fd fields _ (fun f hf => hknown f (mem_cons_of_mem _ hf))
      (fun f hf => hall f (mem_cons_of_mem _ hf)) (hst.sublist (sublist_append_right _ _))
    refine ⟨⟨number, v, dots (encodePath (q ++ [.field number])), t⟩ :: fs, by rw [hfs]; rfl,
      forall_mem_cons.2 ⟨ht, hlaid⟩, ?_⟩
    rw [hcons, map_append, hr, hrs]
    simp [Records.stored, Trie.recordsOf, Part.field]

theorem written_entries (q : List ProtoSeg) (kind : Proto.Kind M) :
    ∀ (entries : List (MapKey × Value M)) (s : σ), (∀ e ∈ entries, Value.Valid pool kind e.2) →
      Storable (decomposeEntries pool fresh (encodePath q) entries s).1 →
      ∃ es : List (Part MapKey M), entries = es.map (fun e => (e.key, e.val)) ∧ (∀ e ∈ es, Laid e.val e.below) ∧
        (decomposeEntries pool fresh (encodePath q) entries s).1.map (stored dots) =
          Records.stored (Trie.recordsOf q (es.map Part.entry))
  | [], _, _, _ => ⟨[], rfl, nofun, rfl⟩
  | (key, v) :: entries, s, hall, hst => by
    have hcons := decomposeEntries_cons pool fresh (encodePath q) key v entries s
    rw [← encodePath_concat] at hcons
    rw [hcons] at hst
    obtain ⟨t, ht, hr⟩ := written_field (q ++ [key.seg]) (.single kind) v s
      (.single (hall _ mem_cons_self)) (hst.sublist (sublist_append_left _ _))
    obtain ⟨es, hes, hlaid, hrs⟩ := written_entries q kind entries _ (fun e he => hall e (mem_cons_of_mem _ he))
      (hst.sublist (sublist_append_right _ _))
    refine ⟨⟨key, v, dots (encodePath (q ++ [key.seg])), t⟩ :: es, by rw [hes]; rfl, forall_mem_cons.2 ⟨ht, hlaid⟩, ?_⟩
    rw [hcons, map_append, hrs]
    refine (congrArg (· ++ _) hr).trans ?_
    simp [Records.stored, Trie.recordsOf, Part.entry]

theorem written_items (q : List ProtoSeg) (left : Eid) (ordinal : Nat) (kind : Kind M) :
    ∀ (items : List (Value M)) (s : σ), (∀ v ∈ items, Value.Valid pool kind v) →
      Storable (decomposeItems pool fresh (encodePath q) left ordinal items s).1 →
      ∃ es : List (Part Eid M), items = es.map Part.val ∧
        (es.map Part.key).Sublist ((decomposeItems pool fresh (encodePath q) left ordinal items s).1.filterMap eidOf) ∧
        (∀ e ∈ es, Laid e.val e.below) ∧
        (decomposeItems pool fresh (encodePath q) left ordinal items s).1.map (stored dots) =
          Records.stored (Trie.recordsOf q (elemEdges left es))
  | [], _, _, _ => ⟨[], rfl, nil_sublist _, nofun, rfl⟩
  | v :: items, s, hall, hst => by
    obtain ⟨e, s', s'', hcons⟩ := decomposeItems_cons pool fresh (encodePath q) left ordinal v items s
    rw [← encodePath_concat] at hcons
    rw [hcons] at hst
    have hpath := hst.short _ mem_cons_self
    have hbelow := hst.sublist ((sublist_append_left _ _).trans (sublist_cons_self _ _))
    have hfield : Storable (decomposeField pool fresh (encodePath (q ++ [.elem e])) (.single kind) v s').1 := by
      show Storable (decomposeValue pool fresh _ v s').1
      rw [decomposeValue_eq]
      refine ⟨hbelow.ids, forall_mem_cons.2 ⟨hpath, hbelow.short⟩⟩
    obtain ⟨t, ht, hr⟩ := written_field (q ++ [.elem e]) (.single kind) v s'
      (.single (hall _ mem_cons_self)) hfield
    have hr' : (decomposeValue pool fresh (encodePath (q ++ [.elem e])) v s').1.map (stored dots) = _ := hr
    rw [decomposeValue_eq] at hr'
    have htail := (cons.inj hr').2
    obtain ⟨es, hes, hids, hlaid, hrs⟩ := written_items q e (ordinal + 1) kind items s''
      (fun v hv => hall v (mem_cons_of_mem _ hv))
      (hst.sublist ((sublist_append_right _ _).trans (sublist_cons_self _ _)))
    refine ⟨⟨e, v, [], t⟩ :: es, by rw [hes]; rfl, ?_, forall_mem_cons.2 ⟨ht, hlaid⟩, ?_⟩
    · rw [hcons, filterMap_cons_some (eidOf_elem e _ hpath), filterMap_append]
      exact (hids.trans (sublist_append_right _ _)).cons_cons _
    · rw [hcons, map_cons, map_append, hrs]
      refine (congrArg (fun l => _ :: (l ++ _)) htail).trans ?_
      simp [Records.stored, Trie.recordsOf, elemEdges, Trie.chainEdges, Rga.chain, stored]

end

end Decomposed

end Proto

end Marekvs
