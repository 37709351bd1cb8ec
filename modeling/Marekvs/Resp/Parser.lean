import Marekvs.Lib.Bytes
import Marekvs.Lib.Incremental

/-!
# The request parser

Bytes from a client's socket are appended to a buffer, and complete commands are taken from its front: multi-bulk arrays
(`*N`, then `N` bulk strings) and inline commands (a line split at white space). The parser starts again at the front of the
unread bytes on every call, and drops the bytes it has read from time to time.
-/

namespace Marekvs.Resp

/-- A command: its name and its arguments. -/
abbrev Command : Type := List Bytes

/-- Why a request was refused. -/
inductive RespError where
  | protocol (why : String)
  | tooLarge
  deriving DecidableEq, Repr

def MAX_BULK : Nat := 512 * 1024 * 1024

def MAX_ARGS : Nat := 1024 * 1024

def COMPACT_THRESHOLD : Nat := 8192

/-- Whether a byte is ASCII white space in Rust's sense. -/
def isAsciiWhitespace (b : UInt8) : Bool := b = 32 ∨ b = 9 ∨ b = 10 ∨ b = 12 ∨ b = 13

variable (data : Bytes)

/-- A line up to `\r\n` from `start` on: where its content ends, and where the next line starts. -/
def readCrlfLine (start : Nat) : Except RespError (Option (Nat × Nat)) :=
  match (data.drop start).findIdx? (· = 10) with
  | none => .ok none
  | some rel =>
    let nl := start + rel
    if nl = start ∨ data[nl - 1]? ≠ some 13 then .error (.protocol "expected CRLF") else .ok (some (nl - 1, nl + 1))

/-- The digits of a number from the first on; `val` is the number so far. -/
def parseDigits : Bytes → Nat → Except RespError Nat
  | [], val => .ok val
  | b :: digits, val =>
    if ¬ (48 ≤ b ∧ b ≤ 57) then .error (.protocol "invalid integer")
    else if 2 ^ 63 ≤ val * 10 ∨ 2 ^ 63 ≤ val * 10 + (b.toNat - 48) then .error (.protocol "integer overflow")
    else parseDigits digits (val * 10 + (b.toNat - 48))

/-- A number with an optional minus. -/
def parseInt (s : Bytes) : Except RespError Int := do
  let (neg, digits) := match s with
    | 45 :: digits => (true, digits)
    | _ => (false, s)
  if digits.isEmpty then .error (.protocol "invalid integer")
  else do
    let val ← parseDigits digits 0
    .ok (if neg then -(val : Int) else val)

/-- `count` bulk strings from `pos` on: where they end, and the strings. -/
def parseBulks (data : Bytes) : Nat → Nat → Except RespError (Option (Nat × Command))
  | 0, pos => .ok (some (pos, []))
  | count + 1, pos =>
    match data[pos]? with
    | none => .ok none
    | some b =>
      if b ≠ 36 then .error (.protocol ("expected '$', got '" ++ String.singleton (Char.ofNat b.toNat) ++ "'"))
      else do
        match ← readCrlfLine data (pos + 1) with
        | none => .ok none
        | some (lenEnd, lenNext) =>
          let blen ← parseInt ((data.take lenEnd).drop (pos + 1))
          if blen < 0 then .error (.protocol "invalid bulk length")
          else if blen.toNat > MAX_BULK then .error .tooLarge
          else
            let dataEnd := lenNext + blen.toNat
            if dataEnd + 2 > data.length then .ok none
            else if data[dataEnd]? ≠ some 13 ∨ data[dataEnd + 1]? ≠ some 10 then
              .error (.protocol "expected CRLF after bulk")
            else do
              match ← parseBulks data count (dataEnd + 2) with
              | none => .ok none
              | some (stop, args) => .ok (some (stop, (data.take dataEnd).drop lenNext :: args))

/-- A multi-bulk array. -/
def parseMultibulk : Except RespError (Option (Nat × Command)) := do
  match ← readCrlfLine data 1 with
  | none => .ok none
  | some (numEnd, pos) =>
    let count ← parseInt ((data.take numEnd).drop 1)
    if count < 0 then .error (.protocol "invalid multibulk length")
    else if count.toNat > MAX_ARGS then .error .tooLarge
    else parseBulks data count.toNat pos

/-- A line up to `\n`, without the `\r` in front of it, split at white space. -/
def parseInline : Except RespError (Option (Nat × Command)) :=
  match data.findIdx? (· = 10) with
  | none => .ok none
  | some nl =>
    let lineEnd := if 0 < nl ∧ data[nl - 1]? = some 13 then nl - 1 else nl
    .ok (some (nl + 1, ((data.take lineEnd).splitOnP isAsciiWhitespace).filter (· ≠ [])))

/-- One command from the front; it may be empty. -/
def parseCommand : Except RespError (Option (Nat × Command)) :=
  match data with
  | [] => .ok none
  | b :: _ => if b = 42 then parseMultibulk data else parseInline data

/-- The parser: what it was fed, and how much of it is read. -/
structure RespParser where
  buf : Bytes
  head : Nat
  deriving DecidableEq, Repr

namespace RespParser

def new : RespParser := ⟨[], 0⟩

variable (p : RespParser)

def feed (p : RespParser) (data : Bytes) : RespParser := { p with buf := p.buf ++ data }

/-- How many bytes are unread. -/
def buffered : Nat := p.buf.length - p.head

def maybeCompact : RespParser :=
  if p.head = p.buf.length then ⟨[], 0⟩
  else if p.head ≥ COMPACT_THRESHOLD then ⟨p.buf.drop p.head, 0⟩
  else p

/-- The next command that is not empty; every command takes at least a byte, so `fuel` may be the number of unread bytes and
one. -/
def nextCommandFrom : Nat → RespParser → RespParser × Except RespError (Option Command)
  | 0, p => (p, .ok none)
  | fuel + 1, p =>
    match parseCommand (p.buf.drop p.head) with
    | .error e => (p, .error e)
    | .ok none => (p, .ok none)
    | .ok (some (consumed, args)) =>
      let p := maybeCompact { p with head := p.head + consumed }
      if args.isEmpty then nextCommandFrom fuel p else (p, .ok (some args))

def nextCommand : RespParser × Except RespError (Option Command) := nextCommandFrom (p.buffered + 1) p

/-- Take commands until there is none or the parser fails: the commands and the failure. -/
def drainFrom : Nat → RespParser → RespParser × List Command × Option RespError
  | 0, p => (p, [], none)
  | fuel + 1, p =>
    match p.nextCommand with
    | (p, .error e) => (p, [], some e)
    | (p, .ok none) => (p, [], none)
    | (p, .ok (some args)) =>
      let (p, commands, e) := drainFrom fuel p
      (p, args :: commands, e)

def drain : RespParser × List Command × Option RespError := drainFrom (p.buffered + 1) p

/-- Feed one chunk and take all commands; the commands so far, and what the last drain ended with. -/
def serve (s : RespParser × List Command × Option RespError) (chunk : Bytes) : RespParser × List Command × Option RespError :=
  let (p, commands, e) := (s.1.feed chunk).drain
  (p, s.2.1 ++ commands, e)

/-- All chunks one after the other. -/
def run (chunks : List Bytes) : RespParser × List Command × Option RespError := chunks.foldl serve (new, [], none)

end RespParser

end Marekvs.Resp
