import Marekvs.Core.MachineDecode
import Marekvs.Diff.Json
import Marekvs.Lib.Rga

/-!
# JSON documents as records

A document is stored as one record for each of its values, under the value's path: a field is named by its bytes, an array element
by an id that it keeps. A record holds the value or says that it is an object or an array; that of an array element also holds the
id it was inserted behind. `decompose` writes a value out as records; `buildDoc` reads a set of records from the root down.

The text of a field whose bytes are no text, and whether a float is a number, are left to two parameters.
-/

namespace Marekvs

open Machine Diff

/-! ## Element ids and paths -/

namespace Eid

/-- The derived order of the source: by clock reading, then by origin. -/
def toDot (e : Eid) : Dot := ⟨e.hlc, e.origin⟩

theorem toDot_injective : Function.Injective toDot := by
  rintro ⟨h, o⟩ ⟨h', o'⟩ heq
  cases heq
  rfl

instance : LinearOrder Eid := LinearOrder.lift' toDot toDot_injective

/-- `Eid::encode_to`. -/
def encode (e : Eid) : Bytes := Bytes.ofU64 e.hlc ++ Bytes.ofU16 e.origin

end Eid

/-- The sentinel in front of every array. -/
def EID_HEAD : Eid := ⟨0, 0⟩

namespace JsonSeg

open DocPath

def encode : JsonSeg → Bytes
  | field name => SEG_FIELD :: (Bytes.putVarint name.length ++ name)
  | elem e => SEG_ELEM :: e.encode

/-- `push_seg`. -/
def pushSeg (path : Bytes) (seg : JsonSeg) : Bytes := path ++ seg.encode

/-- `encode_path`. -/
def encodePath (segs : List JsonSeg) : Bytes := segs.foldl pushSeg []

end JsonSeg

open JsonSeg (pushSeg encodePath decodeSeg)

/-! ## Values -/

section Values

variable {F : Type}

/-- A scalar, or the mark of a container, as a record holds it. -/
inductive JVal (F : Type) where
  | null
  | bool (b : Bool)
  | int (i : Int64)
  | uint (i : UInt64)
  | float (x : F)
  | str (s : Bytes)
  | obj
  | arr
  deriving DecidableEq, Repr

/-- What the record of an array element holds. -/
structure ArrElem (F : Type) where
  left : Eid
  val : JVal F
  deriving DecidableEq, Repr

/-- The scalar or the container mark of a value. -/
def jvalOf : Json F → JVal F
  | .null => .null
  | .bool b => .bool b
  | .int n => if n < 2 ^ 63 then .int (Int64.ofInt n) else .uint (UInt64.ofNat n.toNat)
  | .float x => .float x
  | .str s => .str (utf8 s)
  | .obj _ => .obj
  | .arr _ => .arr

@[simp] theorem jvalOf_obj (members : List (String × Json F)) : jvalOf (.obj members) = .obj := rfl

@[simp] theorem jvalOf_arr (items : List (Json F)) : jvalOf (.arr items) = .arr := rfl

/-! ## Writing a value out -/

/-- A record to write. -/
inductive JsonRecord (F : Type) where
  | map (path : Bytes) (val : JVal F)
  | arr (path : Bytes) (elem : ArrElem F)
  deriving DecidableEq, Repr

def JsonRecord.path : JsonRecord F → Bytes
  | map path _ => path
  | arr path _ => path

section Decompose

-- where the ids of array elements come from: a callback with a state, which sees the path of the array and the ordinal
variable {σ : Type} (fresh : Bytes → Nat → σ → Eid × σ)

mutual

/-- `decompose_children`: the records below a container. -/
def decomposeChildren (path : Bytes) : Json F → σ → List (JsonRecord F) × σ
  | .obj members, s => decomposeMembers path members s
  | .arr items, s => decomposeItems path EID_HEAD 0 items s
  | _, s => ([], s)

def decomposeMembers (path : Bytes) : List (String × Json F) → σ → List (JsonRecord F) × σ
  | [], s => ([], s)
  | (k, child) :: members, s =>
    let childPath := pushSeg path (.field (utf8 k))
    let (below, s) := decomposeChildren childPath child s
    let (rest, s) := decomposeMembers path members s
    (.map childPath (jvalOf child) :: (below ++ rest), s)

def decomposeItems (path : Bytes) (left : Eid) (ordinal : Nat) : List (Json F) → σ → List (JsonRecord F) × σ
  | [], s => ([], s)
  | child :: items, s =>
    let (e, s) := fresh path ordinal s
    let childPath := pushSeg path (.elem e)
    let (below, s) := decomposeChildren childPath child s
    let (rest, s) := decomposeItems path e (ordinal + 1) items s
    (.arr childPath ⟨left, jvalOf child⟩ :: (below ++ rest), s)

end

/-- `decompose_into`: the record of the value itself, then those below it. -/
def decomposeInto (path : Bytes) (v : Json F) (s : σ) : List (JsonRecord F) × σ :=
  let (below, s) := decomposeChildren fresh path v s
  (.map path (jvalOf v) :: below, s)

/-- `decompose_with_paths`. -/
def decomposeWithPaths (base : List JsonSeg) (v : Json F) (s : σ) : List (JsonRecord F) × σ :=
  decomposeInto fresh (encodePath base) v s

end Decompose

/-- `decompose`: the callback does not see where the id is for. -/
def decompose {σ : Type} (fresh : σ → Eid × σ) (base : List JsonSeg) (v : Json F) (s : σ) : List (JsonRecord F) × σ :=
  decomposeWithPaths (fun _ _ => fresh) base v s

/-! ## Reading a document -/

/-- A decoded record. -/
inductive NodeIn (F : Type) where
  | map (val : JVal F) (dots : List Dot)
  | arrElem (elem : ArrElem F) (live : Bool)
  deriving DecidableEq, Repr

/-- What is known of an array: its live elements in order, and its last element, dead or not. -/
structure ArrInfo where
  order : List Eid
  last : Option Eid
  deriving DecidableEq, Repr

/-- From record paths to the state behind them. -/
structure DocIndex where
  mapDots : Std.ExtTreeMap Bytes (List Dot)
  arrays : Std.ExtTreeMap Bytes ArrInfo

/-- A document. -/
structure Doc (F : Type) where
  value : Json F
  index : DocIndex

/-- The records of a document by the path in front of their last segment. -/
abbrev Kids (F : Type) : Type := List (Bytes × JsonSeg × NodeIn F)

def Kids.get (kids : Kids F) (path : Bytes) : List (JsonSeg × NodeIn F) :=
  kids.filterMap fun k => if k.1 = path then some k.2 else none

/-- The first loop of `build_doc`: the record of the root and the other records by parent; a path that is no path is skipped. -/
def splitNodes : List (Bytes × NodeIn F) → Option (NodeIn F) → Kids F → Except Panic (Option (NodeIn F) × Kids F)
  | [], root, kids => .ok (root, kids)
  | (path, node) :: rest, root, kids =>
    if path = [] then splitNodes rest (some node) kids
    else do
      match ← DocPath.splitLast decodeSeg path with
      | none => splitNodes rest root kids
      | some (parent, last) => splitNodes rest root (kids ++ [(parent, last, node)])

/-- A field as `materialize` collects it. -/
def fieldOf : JsonSeg × NodeIn F → Option (Bytes × JVal F × List Dot)
  | (.field name, .map val dots) => some (name, val, dots)
  | _ => none

/-- An array element as `materialize` collects it. -/
def elemOf : JsonSeg × NodeIn F → Option (Eid × ArrElem F × Bool)
  | (.elem e, .arrElem elem live) => some (e, elem, live)
  | _ => none

/-- Put a member into an object, which is kept in key order. -/
def insertMember (key : String) (v : Json F) : List (String × Json F) → List (String × Json F)
  | [] => [(key, v)]
  | (k, w) :: members =>
    if key = k then (key, v) :: members
    else if utf8 key < utf8 k then (key, v) :: (k, w) :: members
    else (k, w) :: insertMember key v members

section Build

-- whether a float is a number, and the text that `String::from_utf8_lossy` reads in bytes
variable (finite : F → Bool) (lossy : Bytes → String)

/-- `scalar_value`; a container mark does not get here. -/
def scalarValue : JVal F → Json F
  | .null => .null
  | .bool b => .bool b
  | .int i => .int i.toInt
  | .uint i => .int i.toNat
  | .float x => if finite x then .float x else .null
  | .str s => .str (lossy s)
  | .obj => .null
  | .arr => .null

section Level

-- the value of a node one level down
variable (below : Bytes → JVal F → DocIndex → Json F × DocIndex) (path : Bytes)

def addField (acc : List (String × Json F) × DocIndex) (f : Bytes × JVal F × List Dot) : List (String × Json F) × DocIndex :=
  let childPath := pushSeg path (.field f.1)
  let (v, index) := below childPath f.2.1 { acc.2 with mapDots := acc.2.mapDots.insert childPath f.2.2 }
  (insertMember (lossy f.1) v acc.1, index)

/-- One live element of an array; `elems` is what was read of the elements, the last record of an id counts. -/
def addElem (elems : List (Eid × ArrElem F × Bool)) (acc : List (Json F) × DocIndex) (x : Eid × Bool) :
    List (Json F) × DocIndex :=
  match elems.reverse.lookup x.1 with
  | none => acc
  | some (elem, _) =>
    let (v, index) := below (pushSeg path (.elem x.1)) elem.val acc.2
    (acc.1 ++ [v], index)

end Level

/-- The elements of an array as `rga_order` takes them. -/
def rgaElems (elems : List (Eid × ArrElem F × Bool)) : List (Eid × Eid × Bool) := elems.map fun e => (e.1, e.2.1.left, e.2.2)

/-- The value of the node at `path`. Each level of the document takes a unit of fuel. -/
def materialize (kids : Kids F) : Nat → Bytes → JVal F → DocIndex → Json F × DocIndex
  | 0, _, _, index => (.null, index)
  | fuel + 1, path, val, index =>
    match val with
    | .obj =>
      let fields := Ordered.sortAsc Prod.fst ((kids.get path).filterMap fieldOf)
      let (members, index) := fields.foldl (addField lossy (materialize kids fuel) path) ([], index)
      (.obj members, index)
    | .arr =>
      let elems := (kids.get path).filterMap elemOf
      let ordered := Rga.order EID_HEAD (rgaElems elems)
      let live := ordered.filter Prod.snd
      let (items, index) := live.foldl (addElem (materialize kids fuel) path elems) ([], index)
      let info : ArrInfo := ⟨live.map Prod.fst, ordered.getLast?.map Prod.fst⟩
      (.arr items, { index with arrays := index.arrays.insert path info })
    | scalar => (scalarValue finite lossy scalar, index)

/-- Fuel for every level that the records of a document can have. -/
def docFuel (nodes : List (Bytes × NodeIn F)) : Nat := (nodes.map fun n => n.1.length).foldr max 0 + 1

/-- `build_doc`. -/
def buildDoc (nodes : List (Bytes × NodeIn F)) : Except Panic (Option (Doc F)) := do
  match ← splitNodes nodes none [] with
  | (some (.map val dots), kids) =>
    let index : DocIndex := ⟨(∅ : Std.ExtTreeMap Bytes (List Dot)).insert [] dots, ∅⟩
    let (value, index) := materialize finite lossy kids (docFuel nodes) [] val index
    .ok (some ⟨value, index⟩)
  | _ => .ok none

end Build

end Values

end Marekvs
