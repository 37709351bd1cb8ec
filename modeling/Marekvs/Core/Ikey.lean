import Marekvs.Lib.Bytes

/-!
# Internal keys

A record is stored under an internal key: two bytes of partition, a tag byte, the user key (with its length in front where an
element suffix can follow) and the suffix. `parse` takes a key apart; the tag and the first suffix byte decide how records under
the key are merged.
-/

namespace Marekvs

/-- A partition of the key space. -/
abbrev Pid : Type := UInt16

/-- What kind of record a key holds. -/
inductive Tag where
  | string
  | head
  | hashField
  | setMember
  | zsetMember
  | zsetScore
  | listElem
  | hllRegister
  | list
  | streamEntry
  | budget
  | json
  | protoField
  deriving DecidableEq, Repr

namespace Tag

/-- The tag's byte, an ASCII letter. -/
def toByte : Tag → UInt8
  | string => 115
  | head => 77
  | hashField => 104
  | setMember => 83
  | zsetMember => 122
  | zsetScore => 90
  | listElem => 113
  | hllRegister => 72
  | list => 108
  | streamEntry => 120
  | budget => 98
  | json => 106
  | protoField => 112

def all : List Tag :=
  [string, head, hashField, setMember, zsetMember, zsetScore, listElem, hllRegister, list, streamEntry, budget, json, protoField]

def ofByte (b : UInt8) : Option Tag := all.find? fun t => t.toByte = b

/-- Keys without an element suffix carry no length. -/
def isSimple (t : Tag) : Bool := t = string ∨ t = list

@[simp] theorem ofByte_toByte : ofByte t.toByte = some t := by cases t <;> decide

end Tag

/-- The first suffix byte of a pool-mode escrow slot. -/
def BUDGET_SLOT : UInt8 := 76

/-- The first suffix byte of a window-mode escrow slot. -/
def BUDGET_WINDOW_SLOT : UInt8 := 87

/-- The first suffix byte of a token. -/
def BUDGET_TOKEN : UInt8 := 84

/-- An internal key, taken apart. -/
structure ParsedKey where
  pid : Pid
  tag : Tag
  userkey : Bytes
  suffix : Bytes
  deriving DecidableEq, Repr

namespace Ikey

/-- A key of a partition: `[pid][tag][userkey]`, or `[pid][tag][varint klen][userkey][suffix]`. -/
def prefixed (pid : Pid) (tag : Tag) (userkey suffix : Bytes) : Bytes :=
  Bytes.ofU16 pid ++ tag.toByte :: (Bytes.putVarint userkey.length ++ userkey ++ suffix)

def simple (pid : Pid) (tag : Tag) (userkey : Bytes) : Bytes := Bytes.ofU16 pid ++ tag.toByte :: userkey

/-- The parts of a key, or nothing where the bytes are no internal key. -/
def parse (ikey : Bytes) : Option ParsedKey :=
  match ikey.drop 2 with
  | [] => none
  | tagByte :: rest =>
    match Tag.ofByte tagByte with
    | none => none
    | some tag =>
      if tag.isSimple then some ⟨Bytes.toU16 (ikey.take 2), tag, rest, []⟩
      else
        match Bytes.getVarint rest with
        | none => none
        | some (klen, n) =>
          if rest.length < n + klen then none
          else some ⟨Bytes.toU16 (ikey.take 2), tag, (rest.drop n).take klen, rest.drop (n + klen)⟩

/-- A key built for an element reads back as its parts. -/
theorem parse_prefixed (pid : Pid) (htag : tag.isSimple = false) (userkey suffix : Bytes)
    (hlen : userkey.length < 2 ^ 64) : parse (prefixed pid tag userkey suffix) = some ⟨pid, tag, userkey, suffix⟩ := by
  have hdrop : (prefixed pid tag userkey suffix).drop 2 =
      tag.toByte :: (Bytes.putVarint userkey.length ++ (userkey ++ suffix)) := by
    simp [prefixed]
  have htake : (prefixed pid tag userkey suffix).take 2 = Bytes.ofU16 pid := by simp [prefixed]
  unfold parse
  simp only [hdrop, htake, Tag.ofByte_toByte, htag, Bytes.getVarint_putVarint hlen]
  simp

end Ikey

end Marekvs
