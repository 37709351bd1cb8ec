import Marekvs.Lib.Bytes

/-!
# JSON values

The values that the document commands read and write. Numbers are integers or floats; floats are a parameter, since all that is
ever done with one is to compare it. An object is the list of its members in key order.
-/

namespace Marekvs.Diff

/-- A JSON value; `F` is the type of floats. -/
inductive Json (F : Type) where
  | null
  | bool (b : Bool)
  | int (n : Int)
  | float (x : F)
  | str (s : String)
  | arr (items : List (Json F))
  | obj (members : List (String × Json F))

def utf8 (s : String) : Bytes := s.toByteArray.data.toList

end Marekvs.Diff
