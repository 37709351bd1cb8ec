import Marekvs.Core.ProtoDoc

/-!
# Messages and their field records

`decomposeMsg` writes a message out as records: one for each field that is present, each entry of a map and each element of a
repeated field. `buildMsg` reads a set of records along a descriptor, from the root down. A record of a number the descriptor does
not have, of another kind, or below something that is not there is skipped; of the members of a oneof the newest dot is taken.

Descriptors and messages are those of the reflection library, with fields and map entries in ascending order.
-/

namespace Marekvs

open Machine Diff
open ProtoSeg (pushSeg encodePath decodeSeg)

namespace Proto

/-! ## Descriptors -/

/-- The kind of a field's values; a message kind names the descriptor of the message. -/
inductive Kind (M : Type) where
  | double
  | float
  | int32
  | int64
  | uint32
  | uint64
  | sint32
  | sint64
  | fixed32
  | fixed64
  | sfixed32
  | sfixed64
  | bool
  | string
  | bytes
  | message (desc : M)
  | enum
  deriving DecidableEq, Repr

/-- How many values of which kind a field has. For a map these are the kinds of the key and the value field of its entries. -/
inductive Shape (M : Type) where
  | single (kind : Kind M)
  | list (kind : Kind M)
  | map (key value : Kind M)
  deriving DecidableEq, Repr

/-- `FieldDescriptor`; `oneof` is the oneof that contains the field. -/
structure FieldDescriptor (M : Type) where
  number : UInt32
  shape : Shape M
  oneof : Option String
  deriving DecidableEq, Repr

/-- The fields of each message type. -/
abbrev Pool (M : Type) : Type := M → List (FieldDescriptor M)

/-- `MessageDescriptor::get_field`. -/
def Pool.getField {M : Type} (pool : Pool M) (desc : M) (number : UInt32) : Option (FieldDescriptor M) :=
  (pool desc).find? fun fd => fd.number = number

/-- The oneof that contains the field of a number. -/
def Pool.oneofOf {M : Type} (pool : Pool M) (desc : M) (number : UInt32) : Option String :=
  (pool.getField desc number).bind FieldDescriptor.oneof

/-! ## Messages -/

/-- The key of a map entry. -/
inductive MapKey where
  | bool (b : Bool)
  | i32 (n : Int32)
  | i64 (n : Int64)
  | u32 (n : UInt32)
  | u64 (n : UInt64)
  | string (s : String)
  deriving DecidableEq, Repr

/-- A value of a field, an element or a map entry. -/
inductive Value (M : Type) where
  | bool (b : Bool)
  | i32 (n : Int32)
  | i64 (n : Int64)
  | u32 (n : UInt32)
  | u64 (n : UInt64)
  | f32 (bits : UInt32)
  | f64 (bits : UInt64)
  | string (s : String)
  | bytes (b : Bytes)
  | enumNumber (n : Int32)
  | message (desc : M) (fields : List (UInt32 × Value M))
  | list (items : List (Value M))
  | map (entries : List (MapKey × Value M))

/-- A message: its descriptor and its present fields. -/
structure DynamicMessage (M : Type) where
  desc : M
  fields : List (UInt32 × Value M)

section Values

variable {M : Type}

/-- `pval_of`. -/
def pvalOf : Value M → PVal
  | .bool b => .bool b
  | .i32 n => .i32 n
  | .i64 n => .i64 n
  | .u32 n => .u32 n
  | .u64 n => .u64 n
  | .f32 bits => .f32 bits
  | .f64 bits => .f64 bits
  | .string s => .str (utf8 s)
  | .bytes b => .bytes b
  | .enumNumber n => .enum n
  | .message _ _ => .msg
  | .list _ => .list
  | .map _ => .map

/-- `String::from_utf8(..).ok()`. -/
def fromUtf8 (b : Bytes) : Option String := String.fromUTF8? ⟨b.toArray⟩

/-- `value_of`. -/
def valueOf : PVal → Kind M → Option (Value M)
  | .bool b, .bool => some (.bool b)
  | .i32 n, .int32 => some (.i32 n)
  | .i32 n, .sint32 => some (.i32 n)
  | .i32 n, .sfixed32 => some (.i32 n)
  | .i64 n, .int64 => some (.i64 n)
  | .i64 n, .sint64 => some (.i64 n)
  | .i64 n, .sfixed64 => some (.i64 n)
  | .u32 n, .uint32 => some (.u32 n)
  | .u32 n, .fixed32 => some (.u32 n)
  | .u64 n, .uint64 => some (.u64 n)
  | .u64 n, .fixed64 => some (.u64 n)
  | .f32 bits, .float => some (.f32 bits)
  | .f64 bits, .double => some (.f64 bits)
  | .str s, .string => (fromUtf8 s).map .string
  | .bytes b, .bytes => some (.bytes b)
  | .enum n, .enum => some (.enumNumber n)
  | _, _ => none

/-- `mkey_of`. -/
def mkeyOf : MapKey → MKey
  | .bool b => .bool b
  | .i32 n => .i32 n
  | .i64 n => .i64 n
  | .u32 n => .u32 n
  | .u64 n => .u64 n
  | .string s => .str (utf8 s)

/-- The segment of a map entry. -/
def MapKey.seg (key : MapKey) : ProtoSeg := .mapKey (mkeyOf key)

/-- `map_key_value`. -/
def mapKeyValue : MKey → Kind M → Option MapKey
  | .bool b, .bool => some (.bool b)
  | .i32 n, .int32 => some (.i32 n)
  | .i32 n, .sint32 => some (.i32 n)
  | .i32 n, .sfixed32 => some (.i32 n)
  | .i64 n, .int64 => some (.i64 n)
  | .i64 n, .sint64 => some (.i64 n)
  | .i64 n, .sfixed64 => some (.i64 n)
  | .u32 n, .uint32 => some (.u32 n)
  | .u32 n, .fixed32 => some (.u32 n)
  | .u64 n, .uint64 => some (.u64 n)
  | .u64 n, .fixed64 => some (.u64 n)
  | .str s, .string => (fromUtf8 s).map .string
  | _, _ => none

/-! ## Writing a message out -/

variable (pool : Pool M)

section Decompose

-- where the ids of elements come from: a callback with a state, which sees the path of the list and the ordinal
variable {σ : Type} (fresh : Bytes → UInt32 → σ → Eid × σ)

mutual

/-- `decompose_value`. -/
def decomposeValue (path : Bytes) : Value M → σ → List PRecord × σ
  | .message desc fields, s =>
    let (below, s) := decomposeChildren path desc fields s
    (.node path .msg :: below, s)
  | v, s => ([.node path (pvalOf v)], s)

/-- `decompose_children`; a number that the descriptor does not have is none of the fields of the message. -/
def decomposeChildren (path : Bytes) (desc : M) : List (UInt32 × Value M) → σ → List PRecord × σ
  | [], s => ([], s)
  | (number, v) :: fields, s =>
    match pool.getField desc number with
    | none => decomposeChildren path desc fields s
    | some fd =>
      let fieldPath := pushSeg path (.field number)
      let (here, s) := match fd.shape, v with
        | .map _ _, .map entries =>
          let (below, s) := decomposeEntries fieldPath entries s
          (.node fieldPath .map :: below, s)
        | .map _ _, _ => ([.node fieldPath .map], s)
        | .list _, .list items =>
          let (below, s) := decomposeItems fieldPath EID_HEAD 0 items s
          (.node fieldPath .list :: below, s)
        | .list _, _ => ([.node fieldPath .list], s)
        | .single _, v => decomposeValue fieldPath v s
      let (rest, s) := decomposeChildren path desc fields s
      (here ++ rest, s)

/-- The entries of a map, in the order of the bytes of their segments. -/
def decomposeEntries (path : Bytes) : List (MapKey × Value M) → σ → List PRecord × σ
  | [], s => ([], s)
  | (key, v) :: entries, s =>
    let (here, s) := decomposeValue (pushSeg path key.seg) v s
    let (rest, s) := decomposeEntries path entries s
    (here ++ rest, s)

/-- The elements of a repeated field, each behind the one before it. -/
def decomposeItems (path : Bytes) (left : Eid) (ordinal : Nat) : List (Value M) → σ → List PRecord × σ
  | [], s => ([], s)
  | v :: items, s =>
    let (e, s) := fresh path (UInt32.ofNat ordinal) s
    let elemPath := pushSeg path (.elem e)
    let (below, s) := match v with
      | .message desc fields => decomposeChildren elemPath desc fields s
      | _ => ([], s)
    let (rest, s) := decomposeItems path e (ordinal + 1) items s
    (.elem elemPath ⟨left, pvalOf v⟩ :: (below ++ rest), s)

end

/-- `decompose_msg`. -/
def decomposeMsg (base : List ProtoSeg) (msg : DynamicMessage M) (s : σ) : List PRecord × σ :=
  let (below, s) := decomposeChildren pool fresh (encodePath base) msg.desc msg.fields s
  (.node (encodePath base) .msg :: below, s)

end Decompose

/-! ## Reading a message -/

/-- From record paths to the state behind them. -/
structure PIndex where
  nodeDots : Std.ExtTreeMap Bytes (List Dot)
  arrays : Std.ExtTreeMap Bytes ArrInfo

/-- A message that was read. -/
structure PDoc (M : Type) where
  msg : DynamicMessage M
  index : PIndex

/-- The records of a message by the path in front of their last segment. -/
abbrev PKids : Type := List (Bytes × ProtoSeg × PNodeIn)

def PKids.get (kids : PKids) (path : Bytes) : List (ProtoSeg × PNodeIn) :=
  kids.filterMap fun k => if k.1 = path then some k.2 else none

/-- The first loop of `build_msg`: the record of the root and the other records by parent; a path that is no path is skipped. -/
def splitNodes : List (Bytes × PNodeIn) → Option PNodeIn → PKids → Except Panic (Option PNodeIn × PKids)
  | [], root, kids => .ok (root, kids)
  | (path, node) :: rest, root, kids =>
    if path = [] then splitNodes rest (some node) kids
    else do
      match ← DocPath.splitLast decodeSeg path with
      | none => splitNodes rest root kids
      | some (parent, last) => splitNodes rest root (kids ++ [(parent, last, node)])

/-- `max_dot`. -/
def maxDot (dots : List Dot) : Dot := dots.max?.getD ⟨0, 0⟩

/-- `real_oneof`: a oneof of one member excludes nothing. -/
def realOneof (desc : M) (fd : FieldDescriptor M) : Option String :=
  fd.oneof.filter fun o => 1 < ((pool desc).filter fun f => f.oneof = some o).length

/-- A field that has a record, with what the record holds. -/
structure Accepted (M : Type) where
  fd : FieldDescriptor M
  val : PVal
  dots : List Dot

/-- The fields that the descriptor knows, of those at which there is a record. -/
def accept (desc : M) : ProtoSeg × PNodeIn → Option (Accepted M)
  | (.field number, .node val dots) => (pool.getField desc number).map (⟨·, val, dots⟩)
  | _ => none

/-- The standing of a oneof's member: its newest dot, then its number. -/
def Accepted.cand (f : Accepted M) : Dot × UInt32 := (maxDot f.dots, f.fd.number)

/-- A member of a oneof takes the oneof's entry in `oneof_winner` if it stands higher. -/
def stand (desc : M) (o : String) (entry : Option (Dot × UInt32)) (f : Accepted M) : Option (Dot × UInt32) :=
  if realOneof pool desc f.fd = some o then
    match entry with
    | none => some f.cand
    | some e => if e.1 < f.cand.1 ∨ e.1 = f.cand.1 ∧ e.2 < f.cand.2 then some f.cand else some e
  else entry

/-- The entry of a oneof in `oneof_winner`. -/
def oneofWinner (desc : M) (o : String) (fields : List (Accepted M)) : Option (Dot × UInt32) :=
  fields.foldl (stand pool desc o) none

/-- Whether a field is the one of its oneof that is taken. -/
def wins (desc : M) (fields : List (Accepted M)) (f : Accepted M) : Bool :=
  match realOneof pool desc f.fd with
  | none => true
  | some o => oneofWinner pool desc o fields = some f.cand

/-- `DynamicMessage::set_field`, which clears the other members of the field's oneof. -/
def setField (desc : M) (fd : FieldDescriptor M) (v : Value M) (fields : List (UInt32 × Value M)) : List (UInt32 × Value M) :=
  let cleared := fields.filter fun f => f.1 = fd.number || fd.oneof.isNone || pool.oneofOf desc f.1 ≠ fd.oneof
  Ordered.put (fun f => f.1.toNat) (fd.number, v) cleared

/-- An element as `build_list` collects it. -/
def elemOf : ProtoSeg × PNodeIn → Option (Eid × PArrElem × Bool)
  | (.elem e, .elem elem live) => some (e, elem, live)
  | _ => none

/-- The elements of a list as `rga_order` takes them. -/
def rgaElems (elems : List (Eid × PArrElem × Bool)) : List (Eid × Eid × Bool) := elems.map fun e => (e.1, e.2.1.left, e.2.2)

section Level

-- the message at a path one level down
variable (walk : M → Bytes → PIndex → List (UInt32 × Value M) × PIndex) (kids : PKids)

/-- The value of a field, an element or an entry, of which the record holds `val`; nothing if it is of another kind. -/
def buildValue (kind : Kind M) (path : Bytes) (val : PVal) (index : PIndex) : Option (Value M) × PIndex :=
  match kind with
  | .message sub =>
    if val = .msg then
      let (fields, index) := walk sub path index
      (some (.message sub fields), index)
    else (none, index)
  | kind => (valueOf val kind, index)

def addEntry (keyKind valueKind : Kind M) (path : Bytes) (acc : List (MapKey × Value M) × PIndex) :
    ProtoSeg × PNodeIn → List (MapKey × Value M) × PIndex
  | (.mapKey mk, .node val dots) =>
    match mapKeyValue mk keyKind with
    | none => acc
    | some key =>
      let entryPath := pushSeg path (.mapKey mk)
      match buildValue walk valueKind entryPath val acc.2 with
      | (none, index) => (acc.1, index)
      | (some v, index) =>
        (Ordered.put (fun e => e.1.seg.encode) (key, v) acc.1, { index with nodeDots := index.nodeDots.insert entryPath dots })
  | _ => acc

/-- `build_map`. -/
def buildMap (keyKind valueKind : Kind M) (path : Bytes) (index : PIndex) : Value M × PIndex :=
  let (entries, index) := (kids.get path).foldl (addEntry walk keyKind valueKind path) ([], index)
  (.map entries, index)

/-- One live element of a list; `elems` is what was read of the elements, the last record of an id counts. -/
def addItem (kind : Kind M) (path : Bytes) (elems : List (Eid × PArrElem × Bool)) (acc : (List Eid × List (Value M)) × PIndex)
    (x : Eid × Bool) : (List Eid × List (Value M)) × PIndex :=
  match elems.reverse.lookup x.1 with
  | none => acc
  | some (elem, _) =>
    match buildValue walk kind (pushSeg path (.elem x.1)) elem.val acc.2 with
    | (none, index) => (acc.1, index)
    | (some v, index) => ((acc.1.1 ++ [x.1], acc.1.2 ++ [v]), index)

/-- `build_list`. -/
def buildList (kind : Kind M) (path : Bytes) (index : PIndex) : Value M × PIndex :=
  let elems := (kids.get path).filterMap elemOf
  let ordered := Rga.order EID_HEAD (rgaElems elems)
  let ((order, items), index) := (ordered.filter Prod.snd).foldl (addItem walk kind path elems) (([], []), index)
  (.list items, { index with arrays := index.arrays.insert path ⟨order, ordered.getLast?.map Prod.fst⟩ })

/-- The value of a field by its shape; nothing if the record is of another kind. -/
def buildField (shape : Shape M) (path : Bytes) (val : PVal) (index : PIndex) : Option (Value M) × PIndex :=
  match shape with
  | .map keyKind valueKind =>
    if val = .map then
      let (v, index) := buildMap walk kids keyKind valueKind path index
      (some v, index)
    else (none, index)
  | .list kind =>
    if val = .list then
      let (v, index) := buildList walk kids kind path index
      (some v, index)
    else (none, index)
  | .single kind => buildValue walk kind path val index

def addField (desc : M) (fields : List (Accepted M)) (path : Bytes) (acc : List (UInt32 × Value M) × PIndex) (f : Accepted M) :
    List (UInt32 × Value M) × PIndex :=
  if wins pool desc fields f then
    let fieldPath := pushSeg path (.field f.fd.number)
    match buildField walk kids f.fd.shape fieldPath f.val acc.2 with
    | (none, index) => (acc.1, index)
    | (some v, index) => (setField pool desc f.fd v acc.1, { index with nodeDots := index.nodeDots.insert fieldPath f.dots })
  else acc

end Level

/-- `walk_msg`: the fields of the message at `path`. Each level of the message takes a unit of fuel. -/
def walkMsg (kids : PKids) : Nat → M → Bytes → PIndex → List (UInt32 × Value M) × PIndex
  | 0, _, _, index => ([], index)
  | fuel + 1, desc, path, index =>
    let fields := (kids.get path).filterMap (accept pool desc)
    fields.foldl (addField pool (walkMsg kids fuel) kids desc fields path) ([], index)

/-- Fuel for every level that the records of a message can have. -/
def msgFuel (nodes : List (Bytes × PNodeIn)) : Nat := (nodes.map fun n => n.1.length).foldr max 0 + 1

/-- `build_msg`. -/
def buildMsg (desc : M) (nodes : List (Bytes × PNodeIn)) : Except Panic (Option (PDoc M)) := do
  match ← splitNodes nodes none [] with
  | (some (.node .msg dots), kids) =>
    let index : PIndex := ⟨(∅ : Std.ExtTreeMap Bytes (List Dot)).insert [] dots, ∅⟩
    let (fields, index) := walkMsg pool kids (msgFuel nodes) desc [] index
    .ok (some ⟨⟨desc, fields⟩, index⟩)
  | _ => .ok none

end Values

end Proto

end Marekvs
