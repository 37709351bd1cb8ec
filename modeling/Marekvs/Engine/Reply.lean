import Marekvs.Resp.ReplyBuf

/-!
# Replies

What a command's handler returns, before it is written in the form of RESP2 or RESP3. A floating-point number is its 64 bits; how
it is written in decimal is a parameter of the writer.
-/

namespace Marekvs

open Resp (ascii ReplyBuf)

/-- The result of a command. Texts are bytes in UTF-8. -/
inductive Reply where
  | simple (text : Bytes)
  | err (text : Bytes)
  | int (i : Int64)
  | bulk (b : Bytes)
  | null
  | nullArray
  | array (items : List Reply)
  | map (pairs : List (Reply × Reply))
  | set (items : List Reply)
  | double (bits : UInt64)
  | bool (b : Bool)
  | verbatim (text : Bytes)
  /-- nothing is written -/
  | none

namespace Reply

def ok : Reply := simple (ascii "OK")

def wrongtype : Reply := err (ascii "WRONGTYPE Operation against a key holding the wrong kind of value")

/-- `cmd` is in lower case. -/
def wrongArgs (cmd : String) : Reply := err (ascii ("ERR wrong number of arguments for '" ++ cmd ++ "' command"))

def notInt : Reply := err (ascii "ERR value is not an integer or out of range")

def notFloat : Reply := err (ascii "ERR value is not a valid float")

def syntaxError : Reply := err (ascii "ERR syntax error")

/-- Whether the command was refused. -/
def isErr : Reply → Bool
  | err _ => true
  | _ => false

end Reply

end Marekvs
