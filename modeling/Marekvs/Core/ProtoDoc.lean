import Marekvs.Core.JsonDoc

/-!
# Protobuf messages as records

A message is stored as one record for each of its values, under the path of the value: a field is named by its number, a map entry
by its key, an element of a repeated field by an id that it keeps. The record holds the value or says what kind of container is
there; that of an element holds the id it was inserted behind as well. Floating-point numbers are their bits.
-/

namespace Marekvs

open Machine Diff

/-! ## Paths -/

/-- `MKey::encode_body`. -/
def MKey.encodeBody : MKey → Bytes
  | bool b => [1, if b then 1 else 0]
  | i32 n => 2 :: Bytes.beBytes 4 n.toUInt32.toNat
  | i64 n => 3 :: Bytes.ofU64 n.toUInt64
  | u32 n => 4 :: Bytes.beBytes 4 n.toNat
  | u64 n => 5 :: Bytes.ofU64 n
  | str s => 6 :: s

namespace ProtoSeg

open DocPath

def encode : ProtoSeg → Bytes
  | field number => SEG_FIELD :: (Bytes.putVarint (Bytes.putVarint number.toNat).length ++ Bytes.putVarint number.toNat)
  | elem e => SEG_ELEM :: e.encode
  | mapKey key => SEG_MAPKEY :: (Bytes.putVarint key.encodeBody.length ++ key.encodeBody)

/-- `push_seg`. -/
def pushSeg (path : Bytes) (seg : ProtoSeg) : Bytes := path ++ seg.encode

/-- `encode_path`. -/
def encodePath (segs : List ProtoSeg) : Bytes := segs.foldl pushSeg []

end ProtoSeg

/-! ## Values in records -/

/-- A scalar, or the mark of a container, as a record holds it. -/
inductive PVal where
  | bool (b : Bool)
  | i32 (n : Int32)
  | i64 (n : Int64)
  | u32 (n : UInt32)
  | u64 (n : UInt64)
  | f32 (bits : UInt32)
  | f64 (bits : UInt64)
  | str (s : Bytes)
  | bytes (b : Bytes)
  | enum (n : Int32)
  | msg
  | list
  | map
  deriving DecidableEq, Repr

/-- What the record of an element holds. -/
structure PArrElem where
  left : Eid
  val : PVal
  deriving DecidableEq, Repr

/-- A record to write. -/
inductive PRecord where
  | node (path : Bytes) (val : PVal)
  | elem (path : Bytes) (elem : PArrElem)
  deriving DecidableEq, Repr

def PRecord.path : PRecord → Bytes
  | node path _ => path
  | elem path _ => path

/-- A decoded record. -/
inductive PNodeIn where
  | node (val : PVal) (dots : List Dot)
  | elem (elem : PArrElem) (live : Bool)
  deriving DecidableEq, Repr

end Marekvs
