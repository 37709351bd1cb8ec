import Marekvs.Core.Ikey

/-!
# The keys of a user key's records

A user key belongs to the partition of its cluster slot: the CRC-16 of the key, or of its hash tag where it has one. All records
of a user key lie in that partition, each under the tag of its kind.
-/

namespace Marekvs

open Tag Bytes

def PARTITIONS : UInt16 := 4096

/-- One entry of the CRC-16 table: eight shifts of the byte, with the polynomial 0x1021. -/
def crc16Tab (b : UInt16) : UInt16 :=
  (List.range 8).foldl (fun crc _ => if crc &&& 0x8000 ≠ 0 then (crc <<< 1) ^^^ 0x1021 else crc <<< 1) (b <<< 8)

def crc16 (data : Bytes) : UInt16 :=
  data.foldl (fun crc b => (crc <<< 8) ^^^ crc16Tab (((crc >>> 8) ^^^ b.toUInt16) &&& 0xFF)) 0

/-- The part of a key that is hashed: what stands between the first `{` and the first `}` after it, unless it is empty. -/
def hashSlice (key : Bytes) : Bytes :=
  match key.dropWhile (· ≠ 123) with
  | [] => key
  | _ :: rest => if 125 ∈ rest ∧ rest.takeWhile (· ≠ 125) ≠ [] then rest.takeWhile (· ≠ 125) else key

variable (userkey : Bytes)

def slotOf : UInt16 := crc16 (hashSlice userkey) % 16384

/-- The partition of a user key: four consecutive slots. -/
def pidOf : Pid := slotOf userkey >>> 2

/-- `foo` and `bar` lie in the slots that Redis gives them, and a hash tag decides alone. -/
example : slotOf [102, 111, 111] = 12182 ∧ slotOf [98, 97, 114] = 5061 ∧
    slotOf [123, 102, 111, 111, 125, 46, 120] = 12182 := by decide

namespace Ikey

def stringKey : Bytes := simple (pidOf userkey) .string userkey

/-- The key of a retired whole-list record. -/
def listKey : Bytes := simple (pidOf userkey) .list userkey

/-- The key of one element of a collection. -/
def elemKey (tag : Tag) (userkey suffix : Bytes) : Bytes := prefixed (pidOf userkey) tag userkey suffix

/-- What the keys of all elements of a collection start with. -/
def collectionPrefix (tag : Tag) (userkey : Bytes) : Bytes := elemKey tag userkey []

def headKey : Bytes := elemKey .head userkey []

def hashFieldKey (userkey field : Bytes) : Bytes := elemKey .hashField userkey field

def setMemberKey (userkey member : Bytes) : Bytes := elemKey .setMember userkey member

def zsetMemberKey (userkey member : Bytes) : Bytes := elemKey .zsetMember userkey member

def listElemKey (pos : UInt64) : Bytes := elemKey .listElem userkey (Bytes.ofU64 pos)

theorem toByte_injective {t u : Tag} (h : t.toByte = u.toByte) : t = u := by
  have := congrArg ofByte h
  simpa using this

theorem tagByte_elemKey (tag : Tag) (userkey suffix : Bytes) : ((elemKey tag userkey suffix).drop 2).head? = some tag.toByte := by
  simp [elemKey, prefixed]

theorem tagByte_simple (pid : Pid) (tag : Tag) (userkey : Bytes) : ((simple pid tag userkey).drop 2).head? = some tag.toByte := by
  simp [simple]

theorem elemKey_ne {t u : Tag} (h : t ≠ u) (k k' s s' : Bytes) : elemKey t k s ≠ elemKey u k' s' := by
  intro heq
  have := congrArg (fun b => (b.drop 2).head?) heq
  simp only [tagByte_elemKey, Option.some.injEq] at this
  exact h (toByte_injective this)

/-- The length in front of a user key tells where the key ends. -/
theorem elemKey_eq_iff (hk : k.length < 2 ^ 64) (hk' : k'.length < 2 ^ 64) :
    elemKey t k s = elemKey t' k' s' ↔ t = t' ∧ k = k' ∧ s = s' := by
  constructor
  · intro h
    obtain rfl : t = t' := by
      by_contra hne
      exact elemKey_ne hne k k' s s' h
    have hbody : putVarint k.length ++ (k ++ s) = putVarint k'.length ++ (k' ++ s') := by
      have hdrop := congrArg (List.drop 2) h
      simpa [elemKey, prefixed] using hdrop
    have hlen : k.length = k'.length := by
      have hget := congrArg getVarint hbody
      rw [getVarint_putVarint hk, getVarint_putVarint hk'] at hget
      exact congrArg Prod.fst (Option.some.inj hget)
    rw [hlen] at hbody
    exact ⟨rfl, List.append_inj (List.append_cancel_left hbody) hlen⟩
  · rintro ⟨rfl, rfl, rfl⟩
    rfl

theorem elemKey_ne_simple {t u : Tag} (h : t ≠ u) (pid : Pid) (k k' s : Bytes) : elemKey t k s ≠ simple pid u k' := by
  intro heq
  have := congrArg (fun b => (b.drop 2).head?) heq
  simp only [tagByte_elemKey, tagByte_simple, Option.some.injEq] at this
  exact h (toByte_injective this)

theorem setMemberKey_ne_headKey (k m : Bytes) : setMemberKey k m ≠ headKey k :=
  elemKey_ne (by decide : setMember ≠ head) _ _ _ _

theorem setMemberKey_ne_stringKey (k m : Bytes) : setMemberKey k m ≠ stringKey k :=
  elemKey_ne_simple (by decide : setMember ≠ string) _ _ _ _

theorem setMemberKey_ne_listKey (k m : Bytes) : setMemberKey k m ≠ listKey k :=
  elemKey_ne_simple (by decide : setMember ≠ list) _ _ _ _

theorem headKey_ne_stringKey (k : Bytes) : headKey k ≠ stringKey k := elemKey_ne_simple (by decide : head ≠ string) _ _ _ _

theorem headKey_ne_listKey (k : Bytes) : headKey k ≠ listKey k := elemKey_ne_simple (by decide : head ≠ list) _ _ _ _

theorem elemKey_eq_append (tag : Tag) (userkey suffix : Bytes) :
    elemKey tag userkey suffix = collectionPrefix tag userkey ++ suffix := by
  simp [collectionPrefix, elemKey, prefixed]

theorem elemKey_inj : elemKey tag k s = elemKey tag k s' ↔ s = s' := by
  rw [elemKey_eq_append, elemKey_eq_append, List.append_cancel_left_eq]

/-- The keys that start with a collection's prefix are its elements' keys. -/
theorem collectionPrefix_isPrefix_iff {tag : Tag} {userkey k : Bytes} :
    collectionPrefix tag userkey <+: k ↔ ∃ suffix, k = elemKey tag userkey suffix := by
  constructor
  · rintro ⟨s, rfl⟩
    exact ⟨s, (elemKey_eq_append ..).symm⟩
  · rintro ⟨s, rfl⟩
    exact ⟨s, (elemKey_eq_append ..).symm⟩

theorem parse_simple (pid : Pid) (htag : tag.isSimple = true) (userkey : Bytes) :
    parse (simple pid tag userkey) = some ⟨pid, tag, userkey, []⟩ := by
  have hdrop : (simple pid tag userkey).drop 2 = tag.toByte :: userkey := by simp [simple]
  have htake : (simple pid tag userkey).take 2 = ofU16 pid := by simp [simple]
  unfold parse
  simp only [hdrop, htake, ofByte_toByte, htag, toU16_ofU16, if_true]

@[simp] theorem parse_stringKey : parse (stringKey userkey) = some ⟨pidOf userkey, .string, userkey, []⟩ :=
  parse_simple _ (by decide) _

@[simp] theorem parse_listKey : parse (listKey userkey) = some ⟨pidOf userkey, .list, userkey, []⟩ :=
  parse_simple _ (by decide) _

theorem parse_elemKey (htag : tag.isSimple = false) (userkey suffix : Bytes) (hlen : userkey.length < 2 ^ 64) :
    parse (elemKey tag userkey suffix) = some ⟨pidOf userkey, tag, userkey, suffix⟩ :=
  parse_prefixed _ htag _ _ hlen

end Ikey

end Marekvs
