import Marekvs.Core.Keys

/-!
# Hash slots and the ranges that are reported for them

The slot of a key is its CRC-16 by table, which is the CRC taken bit by bit: shifting is linear in exclusive or, so that eight
shifts of a word are those of its high byte, and its low byte moved up. The slots of a partition lie together, and a range is a
run of partitions with the same owners.
-/

namespace Marekvs

open List Function

/-! ## The slot of a key -/

/-- One bit of CRC-16/XMODEM. -/
def crc16Bit (crc : UInt16) : UInt16 := if crc &&& 0x8000 ≠ 0 then (crc <<< 1) ^^^ 0x1021 else crc <<< 1

/-- CRC-16/XMODEM, bit by bit. -/
def crc16Xmodem (data : Bytes) : UInt16 :=
  data.foldl (fun crc (b : UInt8) => crc16Bit^[8] (crc ^^^ (b.toUInt16 <<< 8))) 0

/-- What is hashed of a key: the bytes between the first `{` and the first `}` after it where there are any, else all. -/
def Hashed (key hashed : Bytes) : Prop :=
  let Tag (t : Bytes) : Prop := t ≠ [] ∧ 125 ∉ t ∧ ∃ a c, key = a ++ 123 :: (t ++ 125 :: c) ∧ 123 ∉ a
  Tag hashed ∨ hashed = key ∧ ∀ t, ¬ Tag t

theorem crc16Bit_xor (hc : c &&& 0x8000 = 0) (a : UInt16) : crc16Bit (a ^^^ c) = crc16Bit a ^^^ (c <<< 1) := by
  have hbit : (a ^^^ c) &&& 0x8000 = a &&& 0x8000 := by
    rw [← UInt16.toNat_inj] at hc ⊢
    rw [UInt16.toNat_and, UInt16.toNat_xor, Nat.and_xor_distrib_right, ← UInt16.toNat_and c, hc]
    simp
  unfold crc16Bit
  rw [hbit, UInt16.shiftLeft_xor]
  split
  · ac_rfl
  · rfl

/-- The bits of a low byte only move up. -/
theorem crc16Bit_iterate_xor (a : UInt16) (hc : c.toNat < 256) : crc16Bit^[8] (a ^^^ c) = crc16Bit^[8] a ^^^ (c <<< 8) := by
  have hlow : ∀ n < 256, (∀ k < 8, (fun c : UInt16 => c <<< 1)^[k] (UInt16.ofNat n) &&& 0x8000 = 0) ∧
      (fun c : UInt16 => c <<< 1)^[8] (UInt16.ofNat n) = UInt16.ofNat n <<< 8 := by decide +kernel
  have hlow := hlow c.toNat hc
  rw [UInt16.ofNat_toNat] at hlow
  have hstep : ∀ k ≤ 8, crc16Bit^[k] (a ^^^ c) = crc16Bit^[k] a ^^^ (fun c : UInt16 => c <<< 1)^[k] c := by
    intro k hk
    induction k with
    | zero => rfl
    | succ k ih =>
      rw [iterate_succ_apply', ih (by omega), crc16Bit_xor (hlow.1 k (by omega)), iterate_succ_apply', iterate_succ_apply']
  rw [hstep 8 le_rfl, hlow.2]

/-- A word with a byte taken in at its top: the byte that goes into the table, and the byte that moves up. -/
theorem takeByte_eq (crc : UInt16) (b : UInt8) : crc ^^^ (b.toUInt16 <<< 8) =
    (((crc >>> 8) ^^^ b.toUInt16) &&& 0xFF) <<< 8 ^^^ (crc &&& 0xFF) ∧ (crc &&& 0xFF) <<< 8 = crc <<< 8 := by
  constructor <;>
  · rw [← UInt16.toBitVec_inj]
    ext i hi
    interval_cases i <;> simp

theorem crc16_eq_xmodem (data : Bytes) : crc16 data = crc16Xmodem data := by
  unfold crc16 crc16Xmodem
  congr 1
  funext crc b
  have hlow : (crc &&& 0xFF).toNat < 256 := by
    rw [UInt16.toNat_and]
    exact Nat.lt_succ_of_le Nat.and_le_right
  obtain ⟨hword, hup⟩ := takeByte_eq crc b
  rw [hword, crc16Bit_iterate_xor _ hlow, hup, UInt16.xor_comm]
  rfl

/-! ## The part of a key that is hashed -/

theorem dropWhile_append_cons {a : Bytes} {x : UInt8} (ha : x ∉ a) (r : List UInt8) :
    (a ++ x :: r).dropWhile (· ≠ x) = x :: r := by
  rw [dropWhile_append_of_pos fun y hy => decide_eq_true (ne_of_mem_of_not_mem hy ha)]
  simp

theorem takeWhile_append_cons {a : Bytes} {x : UInt8} (ha : x ∉ a) (r : List UInt8) : (a ++ x :: r).takeWhile (· ≠ x) = a := by
  rw [takeWhile_append_of_pos fun y hy => decide_eq_true (ne_of_mem_of_not_mem hy ha)]
  simp

theorem hashed_hashSlice (key : Bytes) : Hashed key (hashSlice key) := by
  by_cases hopen : 123 ∈ key
  · obtain ⟨a, rest, rfl, ha⟩ := eq_append_cons_of_mem hopen
    rw [hashSlice, dropWhile_append_cons ha]
    dsimp only
    split
    case isTrue h =>
      obtain ⟨t, c, rfl, ht⟩ := eq_append_cons_of_mem h.1
      rw [takeWhile_append_cons ht] at h ⊢
      exact .inl ⟨h.2, ht, a, c, rfl, ha⟩
    case isFalse h =>
      refine .inr ⟨rfl, ?_⟩
      rintro t ⟨hne, hclose, a', c, heq, ha'⟩
      have hrest := congrArg (dropWhile (· ≠ 123)) heq
      rw [dropWhile_append_cons ha, dropWhile_append_cons ha', cons.injEq] at hrest
      exact h ⟨by simp [hrest.2], by rwa [hrest.2, takeWhile_append_cons hclose]⟩
  · have hnone : key.dropWhile (· ≠ 123) = [] := dropWhile_eq_nil_iff.2 fun y hy => decide_eq_true (ne_of_mem_of_not_mem hy hopen)
    rw [hashSlice, hnone]
    refine .inr ⟨rfl, ?_⟩
    rintro t ⟨-, -, a, c, rfl, -⟩
    simp at hopen

/-! ## The ranges -/

/-- A range of slots, its ends included, and the nodes that own them. -/
structure SlotRange where
  start : Nat
  stop : Nat
  owners : List UInt16

def SlotRange.Has (r : SlotRange) (slot : UInt16) : Prop := r.start ≤ slot.toNat ∧ slot.toNat ≤ r.stop

def SLOTS_PER_PID : Nat := 16384 / PARTITIONS.toNat

/-- The ranges so far, the newest first; there are 4096 partitions, so that no slot overflows. -/
def pushRange (runs : List SlotRange) (entry : List UInt16 × Nat) : List SlotRange :=
  if entry.1 = [] then runs
  else
    let start := entry.2 * SLOTS_PER_PID
    let stop := start + SLOTS_PER_PID - 1
    match runs with
    | last :: rest =>
      if last.owners = entry.1 ∧ last.stop + 1 = start then { last with stop } :: rest else ⟨start, stop, entry.1⟩ :: runs
    | [] => [⟨start, stop, entry.1⟩]

def slotRanges (pidOwners : List (List UInt16)) : List SlotRange := (pidOwners.zipIdx.foldl pushRange []).reverse

/-- The range is that of the partitions from `a` to `b`, which have its owners. -/
def SlotRange.Spans (r : SlotRange) (pidOwners : List (List UInt16)) (a b : Nat) : Prop :=
  r.start = 4 * a ∧ r.stop = 4 * b + 3 ∧ a ≤ b ∧ b < pidOwners.length ∧ r.owners ≠ [] ∧
    ∀ p, a ≤ p → p ≤ b → pidOwners[p]? = some r.owners

/-- What holds of the ranges of a table, the newest first: each spans partitions, each comes after the older ones, not merely
continuing one, and each partition with owners is in one. -/
structure IsRuns (pidOwners : List (List UInt16)) (runs : List SlotRange) : Prop where
  spans : ∀ r ∈ runs, ∃ a b, r.Spans pidOwners a b
  apart : runs.Pairwise fun r q => q.stop < r.start ∧ (q.stop + 1 = r.start → q.owners ≠ r.owners)
  found : ∀ p < pidOwners.length, pidOwners[p]? ≠ some [] → ∃ r ∈ runs, r.start ≤ 4 * p ∧ 4 * p + 3 ≤ r.stop

theorem SlotRange.Spans.append {r : SlotRange} (h : r.Spans l a b) (os : List UInt16) : r.Spans (l ++ [os]) a b := by
  obtain ⟨hstart, hstop, hab, hb, hne, hown⟩ := h
  refine ⟨hstart, hstop, hab, by simp; omega, hne, fun p hap hpb => ?_⟩
  rw [getElem?_append_left (by omega), hown p hap hpb]

section

variable {l : List (List UInt16)} {runs : List SlotRange} {os : List UInt16}

theorem IsRuns.spans_append (h : IsRuns l runs) : ∀ r ∈ runs, ∃ a b, r.Spans (l ++ [os]) a b :=
  fun r hr => (h.spans r hr).imp fun _ => .imp fun _ hs => hs.append os

/-- A partition of a longer table is the new one or an old one. -/
theorem IsRuns.found_append (h : IsRuns l runs) (hp : p < (l ++ [os]).length) (hne : (l ++ [os])[p]? ≠ some []) :
    p = l.length ∧ os ≠ [] ∨ ∃ r ∈ runs, r.start ≤ 4 * p ∧ 4 * p + 3 ≤ r.stop := by
  rcases Nat.lt_or_ge p l.length with hlt | hge
  · rw [getElem?_append_left hlt] at hne
    exact .inr (h.found p hlt hne)
  obtain rfl : p = l.length := by
    rw [length_append, length_singleton] at hp
    omega
  exact .inl ⟨rfl, by simpa using hne⟩

theorem IsRuns.new (h : IsRuns l runs) (hos : os ≠ [])
    (hhead : ∀ last ∈ runs.head?, ¬ (last.owners = os ∧ last.stop + 1 = 4 * l.length)) :
    IsRuns (l ++ [os]) (⟨4 * l.length, 4 * l.length + 3, os⟩ :: runs) := by
  refine ⟨forall_mem_cons.2 ⟨⟨l.length, l.length, rfl, rfl, le_rfl, by simp, hos, fun p h₁ h₂ => ?_⟩, h.spans_append⟩,
    pairwise_cons.2 ⟨fun q hq => ?_, h.apart⟩, fun p hp hne => ?_⟩
  · simp [Nat.le_antisymm h₂ h₁]
  · obtain ⟨a, b, hstart, hstop, hab, hb, -⟩ := h.spans q hq
    refine ⟨show q.stop < 4 * l.length by omega, fun (htouch : q.stop + 1 = 4 * l.length) heq => ?_⟩
    -- only the newest range can touch
    cases runs with
    | nil => cases hq
    | cons last rest =>
      rcases mem_cons.1 hq with rfl | hq
      · exact hhead q rfl ⟨heq, htouch⟩
      · obtain ⟨a', b', hstart', hstop', hab', hb', -⟩ := h.spans last mem_cons_self
        have := (rel_of_pairwise_cons h.apart hq).1
        omega
  · rcases h.found_append hp hne with ⟨rfl, -⟩ | ⟨r, hr, hin⟩
    · exact ⟨_, mem_cons_self, le_rfl, le_rfl⟩
    · exact ⟨r, mem_cons_of_mem _ hr, hin⟩

theorem IsRuns.extend (h : IsRuns l (last :: runs)) (htouch : last.stop + 1 = 4 * l.length) :
    IsRuns (l ++ [last.owners]) ({ last with stop := 4 * l.length + 3 } :: runs) := by
  obtain ⟨a, b, hstart, hstop, hab, hb, hne, hown⟩ := h.spans last mem_cons_self
  refine ⟨forall_mem_cons.2 ⟨⟨a, l.length, hstart, rfl, by omega, by simp, hne, fun p h₁ h₂ => ?_⟩,
    fun r hr => h.spans_append r (mem_cons_of_mem _ hr)⟩, pairwise_cons.2 (pairwise_cons.1 h.apart), fun p hp hne => ?_⟩
  · rcases Nat.lt_or_eq_of_le h₂ with hlt | rfl
    · rw [getElem?_append_left hlt, hown p h₁ (by omega)]
    · simp
  · rcases h.found_append hp hne with ⟨rfl, -⟩ | ⟨r, hr, hin⟩
    · exact ⟨_, mem_cons_self, by dsimp only; omega, le_rfl⟩
    · rcases mem_cons.1 hr with rfl | hr
      · exact ⟨_, mem_cons_self, hin.1, by dsimp only; omega⟩
      · exact ⟨r, mem_cons_of_mem _ hr, hin⟩

theorem IsRuns.pushRange (h : IsRuns l runs) (os : List UInt16) : IsRuns (l ++ [os]) (pushRange runs (os, l.length)) := by
  have hstart : l.length * SLOTS_PER_PID = 4 * l.length := Nat.mul_comm _ _
  unfold Marekvs.pushRange
  split
  case isTrue hos => exact ⟨h.spans_append, h.apart, fun p hp hne => (h.found_append hp hne).resolve_left fun hp => hp.2 hos⟩
  case isFalse hos =>
    dsimp only
    rw [hstart]
    split
    case h_1 last rest =>
      split
      case isTrue hlast =>
        obtain ⟨rfl, htouch⟩ := hlast
        exact h.extend htouch
      case isFalse hlast => exact h.new hos (by simpa using hlast)
    case h_2 => exact h.new hos (by simp)

end

theorem runs_foldl (l : List (List UInt16)) : IsRuns l (l.zipIdx.foldl pushRange []) := by
  induction l using List.reverseRecOn with
  | nil => exact ⟨by simp, by simp, by simp⟩
  | append_singleton l os ih =>
    rw [zipIdx_append, foldl_append]
    simpa using ih.pushRange os

/-- Redis hash slots and the ranges that CLUSTER SLOTS reports for them: the ranges are disjoint, in order and as long as they
can be; the one with a key's slot has the owners of the key's partition, and there is none if and only if it has no owners. -/
theorem cluster_slots_route (pidOwners : List (List UInt16)) (hlen : pidOwners.length = PARTITIONS.toNat) (key : Bytes) :
    (∀ r ∈ slotRanges pidOwners, r.start ≤ r.stop) ∧
    (slotRanges pidOwners).Pairwise (fun r q => r.stop < q.start ∧ (r.stop + 1 = q.start → r.owners ≠ q.owners)) ∧
    (∀ r ∈ slotRanges pidOwners, r.Has (slotOf key) → pidOwners[(pidOf key).toNat]? = some r.owners) ∧
    ((∀ r ∈ slotRanges pidOwners, ¬ r.Has (slotOf key)) ↔ pidOwners[(pidOf key).toNat]? = some []) ∧
    ∃ hashed, Hashed key hashed ∧ slotOf key = crc16Xmodem hashed % 16384 := by
  have h := runs_foldl pidOwners
  have hslot : (slotOf key).toNat < 16384 := by
    rw [slotOf, UInt16.toNat_mod]
    exact Nat.mod_lt _ (by decide)
  have hpid : (pidOf key).toNat = (slotOf key).toNat / 4 := by
    rw [pidOf, UInt16.toNat_shiftRight]
    simp [Nat.shiftRight_eq_div_pow]
  have hlt : (pidOf key).toNat < pidOwners.length := by
    rw [hlen, hpid]
    exact Nat.div_lt_of_lt_mul hslot
  have howns : ∀ r ∈ slotRanges pidOwners, r.Has (slotOf key) →
      pidOwners[(pidOf key).toNat]? = some r.owners ∧ r.owners ≠ [] := by
    rintro r hr ⟨hstart, hstop⟩
    obtain ⟨a, b, hstart', hstop', -, -, hne, hown⟩ := h.spans r (mem_reverse.1 hr)
    exact ⟨hown _ (by omega) (by omega), hne⟩
  refine ⟨fun r hr => ?_, pairwise_reverse.2 h.apart, fun r hr hin => (howns r hr hin).1, ⟨fun hnone => ?_, ?_⟩,
    hashSlice key, hashed_hashSlice key, by rw [slotOf, crc16_eq_xmodem]⟩
  · obtain ⟨a, b, hstart, hstop, hab, -⟩ := h.spans r (mem_reverse.1 hr)
    omega
  · by_contra hne
    obtain ⟨r, hr, hin⟩ := h.found _ hlt hne
    exact hnone r (mem_reverse.2 hr) ⟨by omega, by omega⟩
  · intro hnone r hr hin
    obtain ⟨hown, hne⟩ := howns r hr hin
    exact hne (Option.some.inj (hown.symm.trans hnone))

/-- Two nodes own the first half of the partitions and a third one the other. -/
def halves : List (List UInt16) := replicate 2048 [1, 2] ++ replicate 2048 [3]

/-- A key with a hash tag: only the tag is hashed, and the range with its slot has the owner of the second half. -/
theorem tagged_key_routes_to_its_half : (∃ r ∈ slotRanges halves, r.Has (slotOf [123, 97, 125, 98]) ∧ r.owners = [3]) ∧
    slotOf [123, 97, 125, 98] = crc16Xmodem [97] % 16384 := by
  have hlen : halves.length = PARTITIONS.toNat := by
    rw [halves, length_append, length_replicate, length_replicate]
    rfl
  obtain ⟨-, -, howns, hnone, hashed, hhashed, hslot⟩ := cluster_slots_route halves hlen [123, 97, 125, 98]
  have hsecond : halves[(pidOf [123, 97, 125, 98]).toNat]? = some [3] := by
    rw [show (pidOf [123, 97, 125, 98]).toNat = 3873 by decide, halves, getElem?_append_right (by rw [length_replicate]; decide),
      length_replicate, getElem?_replicate]
    rfl
  refine ⟨?_, ?_⟩
  · by_contra hno
    have hempty := hnone.1 fun r hr hin => hno ⟨r, hr, hin, Option.some.inj ((howns r hr hin).symm.trans hsecond)⟩
    rw [hsecond] at hempty
    cases hempty
  · rcases hhashed with ⟨hne, hclose, front, rest, hkey, hopen⟩ | ⟨-, hno⟩
    · -- the tag starts at the first byte and ends before the third
      rcases front with _ | ⟨x, front⟩
      · rcases hashed with _ | ⟨y, _ | ⟨z, hashed⟩⟩
        · exact absurd rfl hne
        · cases hkey
          exact hslot
        · have hz : (125 : UInt8) = z := (cons.inj (cons.inj (cons.inj hkey).2).2).1
          exact absurd (hz ▸ .tail _ (.head _)) hclose
      · exact absurd ((cons.inj hkey).1 ▸ .head _) hopen
    · exact absurd ⟨by simp, by decide, [], [98], rfl, not_mem_nil⟩ (hno [97])

end Marekvs
