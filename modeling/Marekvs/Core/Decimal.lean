import Marekvs.Lib.Bytes

/-!
# Decimal integers in text

How the source reads a 64-bit integer from text (`str::parse::<i64>`, with `str::trim` before it where a stored value is read)
and writes one (`i64::to_string`). White space is what Unicode calls so, in its UTF-8 bytes.
-/

namespace Marekvs

/-- An ASCII white-space byte. -/
def isAsciiSpace (b : UInt8) : Bool := b = 32 ∨ 9 ≤ b ∧ b ≤ 13

/-- The last byte of a white-space character that opens with the bytes `E2 80`. -/
def isSpaceE280 (b : UInt8) : Bool := 128 ≤ b ∧ b ≤ 138 ∨ b = 168 ∨ b = 169 ∨ b = 175

/-- Drop leading white space. -/
def trimStart : Bytes → Bytes
  | [] => []
  | a :: rest =>
    if isAsciiSpace a then trimStart rest
    else
      match rest with
      | [] => [a]
      | b :: rest₂ =>
        if a = 194 ∧ (b = 133 ∨ b = 160) then trimStart rest₂
        else
          match rest₂ with
          | [] => [a, b]
          | c :: rest₃ =>
            if a = 225 ∧ b = 154 ∧ c = 128 ∨ a = 226 ∧ b = 128 ∧ isSpaceE280 c ∨ a = 226 ∧ b = 129 ∧ c = 159 ∨
                a = 227 ∧ b = 128 ∧ c = 128 then trimStart rest₃
            else a :: b :: c :: rest₃

/-- Drop leading white space of a reversed text. -/
def trimStartRev : Bytes → Bytes
  | [] => []
  | a :: rest =>
    if isAsciiSpace a then trimStartRev rest
    else
      match rest with
      | [] => [a]
      | b :: rest₂ =>
        if b = 194 ∧ (a = 133 ∨ a = 160) then trimStartRev rest₂
        else
          match rest₂ with
          | [] => [a, b]
          | c :: rest₃ =>
            if c = 225 ∧ b = 154 ∧ a = 128 ∨ c = 226 ∧ b = 128 ∧ isSpaceE280 a ∨ c = 226 ∧ b = 129 ∧ a = 159 ∨
                c = 227 ∧ b = 128 ∧ a = 128 then trimStartRev rest₃
            else a :: b :: c :: rest₃

/-- Drop white space at both ends. -/
def trim (text : Bytes) : Bytes := (trimStartRev (trimStart text).reverse).reverse

def isDigit (b : UInt8) : Bool := 48 ≤ b ∧ b ≤ 57

/-- The number that ASCII digits stand for. -/
def digitsValue (digits : Bytes) : Nat := digits.foldl (fun acc d => acc * 10 + (d.toNat - 48)) 0

/-- An unsigned text's number with a sign put in front of it. -/
def signed (neg : Bool) (digits : Bytes) : Option Int64 :=
  if digits = [] ∨ !digits.all isDigit then none
  else
    let v : Int := if neg then -digitsValue digits else digitsValue digits
    if -2 ^ 63 ≤ v ∧ v < 2 ^ 63 then some (Int64.ofInt v) else none

/-- A 64-bit integer from text: an optional sign, then digits only, within range. -/
def parseI64 : Bytes → Option Int64
  | 45 :: digits => signed true digits
  | 43 :: digits => signed false digits
  | digits => signed false digits

/-- The decimal digits of `n`, at most `fuel` of them: twenty are enough for 64 bits. -/
def decDigits : Nat → Nat → Bytes
  | 0, _ => []
  | fuel + 1, n => if n < 10 then [UInt8.ofNat (48 + n)] else decDigits fuel (n / 10) ++ [UInt8.ofNat (48 + n % 10)]

/-- The decimal text of a 64-bit integer. -/
def formatI64 (n : Int64) : Bytes :=
  if n.toInt < 0 then 45 :: decDigits 20 n.toInt.natAbs else decDigits 20 n.toInt.natAbs

end Marekvs
