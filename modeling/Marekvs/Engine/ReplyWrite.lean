import Marekvs.Engine.Reply
import Marekvs.Resp.Frame

/-!
# Writing a reply

`Reply.write` appends a reply to the connection's buffer. Simple strings and errors are written as lines, whatever their text;
everything else carries a length or is a number. `Reply.frame` is the frame that the reply stands for in the protocol version of
the connection.
-/

namespace Marekvs

open Resp (ascii ReplyBuf Frame Clean)

/-- How floating-point numbers are written in decimal: on one line. -/
structure DoubleText where
  text : UInt64 → Bytes
  clean : ∀ bits, Clean (text bits)
  short : ∀ bits, (text bits).length < 2 ^ 63

namespace Reply

variable (fmt : DoubleText)

mutual

def write : Reply → ReplyBuf → ReplyBuf
  | simple s, out => out.simple s
  | err e, out => out.error e
  | int i, out => out.int i
  | bulk b, out => out.bulk b
  | null, out => out.null
  | nullArray, out => out.nullArray
  | array items, out => writeItems items (out.array items.length)
  | map pairs, out => writePairs pairs (out.map pairs.length)
  | set items, out => writeItems items (out.set items.length)
  | double f, out => out.double (fmt.text f)
  | bool b, out => out.boolean b
  | verbatim s, out => out.verbatim s
  | none, out => out

def writeItems : List Reply → ReplyBuf → ReplyBuf
  | [], out => out
  | item :: items, out => writeItems items (item.write out)

def writePairs : List (Reply × Reply) → ReplyBuf → ReplyBuf
  | [], out => out
  | (k, v) :: pairs, out => writePairs pairs (v.write (k.write out))

end

mutual

/-- The frame of a reply, in the protocol version of the connection. -/
def frame (resp3 : Bool) : Reply → Frame
  | simple s => .simple s
  | err e => .error e
  | int i => .int i
  | bulk b => .bulk b
  | null | nullArray | none => .null
  | array items => .array (frames resp3 items)
  | map pairs => if resp3 then .map (pairFrames resp3 pairs) else .array (pairFrames resp3 pairs)
  | set items => if resp3 then .set (frames resp3 items) else .array (frames resp3 items)
  | double f => if resp3 then .double (fmt.text f) else .bulk (fmt.text f)
  | bool b => if resp3 then .bool b else .int (if b then 1 else 0)
  | verbatim s => if resp3 then .verbatim (ascii "txt:" ++ s) else .bulk s

def frames (resp3 : Bool) : List Reply → List Frame
  | [] => []
  | item :: items => item.frame resp3 :: frames resp3 items

def pairFrames (resp3 : Bool) : List (Reply × Reply) → List Frame
  | [] => []
  | (k, v) :: pairs => k.frame resp3 :: v.frame resp3 :: pairFrames resp3 pairs

end

mutual

/-- The texts that are written as lines. -/
def lines : Reply → List Bytes
  | simple s => [s]
  | err e => [e]
  | array items | set items => linesOf items
  | map pairs => linesOfPairs pairs
  | _ => []

def linesOf : List Reply → List Bytes
  | [] => []
  | item :: items => item.lines ++ linesOf items

def linesOfPairs : List (Reply × Reply) → List Bytes
  | [] => []
  | (k, v) :: pairs => k.lines ++ v.lines ++ linesOfPairs pairs

end

mutual

/-- Every part is written, and every length fits its header. -/
def Sound : Reply → Prop
  | none => False
  | bulk b => b.length < 2 ^ 63
  | verbatim s => s.length + 4 < 2 ^ 63
  | array items | set items => items.length < 2 ^ 63 ∧ SoundItems items
  | map pairs => pairs.length * 2 < 2 ^ 63 ∧ SoundPairs pairs
  | _ => True

def SoundItems : List Reply → Prop
  | [] => True
  | item :: items => item.Sound ∧ SoundItems items

def SoundPairs : List (Reply × Reply) → Prop
  | [] => True
  | (k, v) :: pairs => k.Sound ∧ v.Sound ∧ SoundPairs pairs

end

end Reply

end Marekvs
