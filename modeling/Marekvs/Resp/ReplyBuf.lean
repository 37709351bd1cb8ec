import Marekvs.Core.Decimal

/-!
# The reply buffer

Every method appends to the buffer, in the form of RESP3 or of RESP2 as the connection has it. The text of a floating-point
number is given: how it is written is not modelled.
-/

namespace Marekvs.Resp

structure ReplyBuf where
  resp3 : Bool
  buf : Bytes
  deriving DecidableEq, Repr

/-- The bytes of an ASCII text. -/
def ascii (s : String) : Bytes := s.toList.map fun c => UInt8.ofNat c.toNat

namespace ReplyBuf

def new (resp3 : Bool) : ReplyBuf := ⟨resp3, []⟩

variable (out : ReplyBuf)

def extend (bytes : Bytes) : ReplyBuf := { out with buf := out.buf ++ bytes }

def crlf : ReplyBuf := out.extend [13, 10]

def writeI64 (i : Int64) : ReplyBuf := out.extend (formatI64 i)

def writeUsize (n : Nat) : ReplyBuf := out.writeI64 (Int64.ofNat n)

/-- A type byte, a number and the end of the line. -/
def header (kind : UInt8) (n : Nat) : ReplyBuf := ((out.extend [kind]).writeUsize n).crlf

/-- A type byte, a text and the end of the line. -/
def line (kind : UInt8) (text : Bytes) : ReplyBuf := ((out.extend [kind]).extend text).crlf

def simple (s : Bytes) : ReplyBuf := out.line 43 s

def error (msg : Bytes) : ReplyBuf := out.line 45 msg

def int (i : Int64) : ReplyBuf := ((out.extend [58]).writeI64 i).crlf

def bulk (b : Bytes) : ReplyBuf := ((out.header 36 b.length).extend b).crlf

def null : ReplyBuf := out.extend (if out.resp3 then ascii "_\r\n" else ascii "$-1\r\n")

def nullArray : ReplyBuf := out.extend (if out.resp3 then ascii "_\r\n" else ascii "*-1\r\n")

def array (len : Nat) : ReplyBuf := out.header 42 len

def map (pairs : Nat) : ReplyBuf := if out.resp3 then out.header 37 pairs else out.header 42 (pairs * 2)

def set (len : Nat) : ReplyBuf := if out.resp3 then out.header 126 len else out.header 42 len

def push (len : Nat) : ReplyBuf := if out.resp3 then out.header 62 len else out.header 42 len

def double (text : Bytes) : ReplyBuf := if out.resp3 then out.line 44 text else out.bulk text

def boolean (b : Bool) : ReplyBuf :=
  if out.resp3 then out.extend (if b then ascii "#t\r\n" else ascii "#f\r\n")
  else out.extend (if b then ascii ":1\r\n" else ascii ":0\r\n")

def verbatim (s : Bytes) : ReplyBuf :=
  if out.resp3 then (((out.header 61 (s.length + 4)).extend (ascii "txt:")).extend s).crlf else out.bulk s

end ReplyBuf

/-- The multi-bulk form of a command. -/
def encodeCommand (args : List Bytes) : Bytes := (args.foldl ReplyBuf.bulk ((ReplyBuf.new false).array args.length)).buf

end Marekvs.Resp
