import Marekvs.Resp.ReplyBuf

/-!
# Frames as a client reads them

A client reads one frame at a time: a type byte, a line, and for the frames with a length what follows the line. A line ends at
the first carriage return or line feed, which must be the two of them together. The server has no such function.
-/

namespace Marekvs.Resp

inductive Frame where
  | simple (text : Bytes)
  | error (text : Bytes)
  | int (i : Int64)
  | bulk (b : Bytes)
  | null
  | array (items : List Frame)
  | map (keysAndValues : List Frame)
  | set (items : List Frame)
  | push (items : List Frame)
  | double (text : Bytes)
  | bool (b : Bool)
  | verbatim (b : Bytes)

/-- A text that fits on a line. -/
def Clean (text : Bytes) : Prop := ∀ b ∈ text, b ≠ 13 ∧ b ≠ 10

instance (text : Bytes) : Decidable (Clean text) := inferInstanceAs (Decidable (∀ b ∈ text, b ≠ 13 ∧ b ≠ 10))

/-! ## The reader -/

/-- The text of a line, and what follows the line. -/
def readLine : Bytes → Option (Bytes × Bytes)
  | [] => none
  | b :: data =>
    if b = 13 then if data.head? = some 10 then some ([], data.tail) else none
    else if b = 10 then none
    else (readLine data).map fun (text, rest) => (b :: text, rest)

/-- A length: digits only. -/
def readCount (text : Bytes) : Option Nat := if text = [] ∨ !text.all isDigit then none else some (digitsValue text)

/-- `n` bytes and the end of a line. -/
def readBytes (n : Nat) (data : Bytes) : Option (Bytes × Bytes) :=
  if (data.drop n).take 2 = [13, 10] then some (data.take n, data.drop (n + 2)) else none

/-- The same reader `n` times. -/
def readMany {α : Type} (one : Bytes → Option (α × Bytes)) : Nat → Bytes → Option (List α × Bytes)
  | 0, data => some ([], data)
  | n + 1, data => do
    let (x, rest) ← one data
    let (xs, rest) ← readMany one n rest
    some (x :: xs, rest)

namespace Frame

/-- One frame, and what follows it; frames are nested at most `fuel` deep. -/
def readFrom : Nat → Bytes → Option (Frame × Bytes)
  | 0, _ => none
  | _, [] => none
  | fuel + 1, kind :: data => do
    let (text, rest) ← readLine data
    match kind with
    | 43 => some (simple text, rest)
    | 45 => some (error text, rest)
    | 58 => (parseI64 text).map fun i => (int i, rest)
    | 36 =>
      if text = ascii "-1" then some (null, rest)
      else do
        let (b, rest) ← readBytes (← readCount text) rest
        some (bulk b, rest)
    | 42 =>
      if text = ascii "-1" then some (null, rest)
      else do
        let (items, rest) ← readMany (readFrom fuel) (← readCount text) rest
        some (array items, rest)
    | 95 => if text = [] then some (null, rest) else none
    | 37 => do
      let (items, rest) ← readMany (readFrom fuel) (2 * (← readCount text)) rest
      some (map items, rest)
    | 126 => do
      let (items, rest) ← readMany (readFrom fuel) (← readCount text) rest
      some (set items, rest)
    | 62 => do
      let (items, rest) ← readMany (readFrom fuel) (← readCount text) rest
      some (push items, rest)
    | 44 => some (double text, rest)
    | 35 => if text = ascii "t" then some (bool true, rest) else if text = ascii "f" then some (bool false, rest) else none
    | 61 => do
      let (b, rest) ← readBytes (← readCount text) rest
      some (verbatim b, rest)
    | _ => none

/-- One frame: as many levels as there are bytes are enough. -/
def read (data : Bytes) : Option (Frame × Bytes) := readFrom (data.length + 1) data

theorem readFrom_nil (fuel : Nat) : readFrom fuel [] = none := by
  cases fuel <;> simp [readFrom]

end Frame

end Marekvs.Resp
