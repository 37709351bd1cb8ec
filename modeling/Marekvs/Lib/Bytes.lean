import Marekvs.Lib.UInt

/-!
# Byte strings: big-endian integers and base-128 varints

A byte string is a list of bytes. Fixed-width integers are written big-endian (`beBytes`, read back by `beNat`), lengths as
base-128 varints (`putVarint`, read back by `getVarint`). Both round trips hold with an arbitrary rest behind the encoding.
-/

/-- A byte string. -/
abbrev Bytes : Type := List UInt8

namespace Bytes

open List Nat

/-! ## Fixed-width big-endian integers -/

/-- The `w` big-endian bytes of `n`; what does not fit in `w` bytes is dropped. -/
def beBytes : Nat → Nat → Bytes
  | 0, _ => []
  | w + 1, n => UInt8.ofNat (n / 256 ^ w) :: beBytes w n

/-- The number that big-endian bytes stand for. -/
def beNat : Bytes → Nat
  | [] => 0
  | b :: bs => b.toNat * 256 ^ bs.length + beNat bs

@[simp] theorem length_beBytes (w n : Nat) : (beBytes w n).length = w := by
  induction w with
  | zero => rfl
  | succ w ih => simp [beBytes, ih]

/-- Reading `w` bytes back gives the number modulo `256 ^ w`. -/
theorem beNat_beBytes : beNat (beBytes w n) = n % 256 ^ w := by
  induction w with
  | zero => simp [beBytes, beNat, mod_one]
  | succ w ih =>
    simp only [beBytes, beNat, length_beBytes, ih, UInt8.toNat_ofNat']
    rw [pow_succ 256 w, mod_mul (a := 256 ^ w), add_comm, mul_comm]

theorem beNat_beBytes_of_lt (h : n < 256 ^ w) : beNat (beBytes w n) = n := by
  rw [beNat_beBytes, mod_eq_of_lt h]

/-- The eight bytes of a 64-bit integer (`u64::to_be_bytes`). -/
def ofU64 (x : UInt64) : Bytes := beBytes 8 x.toNat

/-- The 64-bit integer in eight bytes (`u64::from_be_bytes`). -/
def toU64 (bs : Bytes) : UInt64 := UInt64.ofNat (beNat bs)

/-- The two bytes of a 16-bit integer (`u16::to_be_bytes`). -/
def ofU16 (x : UInt16) : Bytes := beBytes 2 x.toNat

/-- The 16-bit integer in two bytes (`u16::from_be_bytes`). -/
def toU16 (bs : Bytes) : UInt16 := UInt16.ofNat (beNat bs)

@[simp] theorem length_ofU64 (x : UInt64) : (ofU64 x).length = 8 := length_beBytes 8 _

@[simp] theorem length_ofU16 (x : UInt16) : (ofU16 x).length = 2 := length_beBytes 2 _

@[simp] theorem toU64_ofU64 (x : UInt64) : toU64 (ofU64 x) = x := by
  unfold toU64 ofU64
  rw [beNat_beBytes_of_lt (lt_of_lt_of_eq x.toNat_lt (by norm_num))]
  exact UInt64.ofNat_toNat

@[simp] theorem toU16_ofU16 : toU16 (ofU16 x) = x := by
  unfold toU16 ofU16
  rw [beNat_beBytes_of_lt (lt_of_lt_of_eq x.toNat_lt (by norm_num))]
  exact UInt16.ofNat_toNat

theorem beNat_lt (bs : Bytes) : beNat bs < 256 ^ bs.length := by
  induction bs with
  | nil => simp [beNat]
  | cons b bs ih =>
    have hb : b.toNat < 256 := b.toNat_lt
    rw [beNat, length_cons, pow_succ]
    nlinarith

/-- What does not fit in `w` bytes does not show in them. -/
theorem beBytes_add_mul : beBytes w (n + k * 256 ^ w) = beBytes w n := by
  induction w generalizing k with
  | zero => rfl
  | succ w ih =>
    have hk : n + k * 256 ^ (w + 1) = n + k * 256 * 256 ^ w := by rw [pow_succ]; ring
    rw [beBytes, beBytes, hk, ih, add_mul_div_right _ _ (by positivity)]
    congr 1
    rw [← UInt8.toNat_inj, UInt8.toNat_ofNat', UInt8.toNat_ofNat']
    omega

/-- Bytes are written back from the number that they stand for. -/
theorem beBytes_beNat : beBytes bs.length (beNat bs) = bs := by
  induction bs with
  | nil => rfl
  | cons b bs ih =>
    have hlt := beNat_lt bs
    rw [length_cons, beBytes, beNat, add_comm, beBytes_add_mul, ih, add_mul_div_right _ _ (by positivity),
      div_eq_of_lt hlt, zero_add, UInt8.ofNat_toNat]

theorem ofU64_toU64 (h : bs.length = 8) : ofU64 (toU64 bs) = bs := by
  have hlt := beNat_lt bs
  rw [h] at hlt
  rw [ofU64, toU64, UInt64.toNat_ofNat_of_lt' (by norm_num [UInt64.size] at hlt ⊢; exact hlt), ← h, beBytes_beNat]

theorem ofU16_toU16 (h : bs.length = 2) : ofU16 (toU16 bs) = bs := by
  have hlt := beNat_lt bs
  rw [h] at hlt
  rw [ofU16, toU16, UInt16.toNat_ofNat_of_lt' (by norm_num [UInt16.size] at hlt ⊢; exact hlt), ← h, beBytes_beNat]

/-! ## Base-128 varints -/

/-- The base-128 groups of `v`, low group first, the high bit set on every byte but the last. `fuel` bounds the number of
groups: ten are enough for 64 bits. -/
def putVarintAux : Nat → Nat → Bytes
  | 0, _ => []
  | fuel + 1, v =>
    if v / 128 = 0 then [UInt8.ofNat (v % 128)]
    else UInt8.ofNat (v % 128 + 128) :: putVarintAux fuel (v / 128)

/-- The varint of a 64-bit number. -/
def putVarint (v : Nat) : Bytes := putVarintAux 10 v

theorem length_putVarint_le (v : Nat) : (putVarint v).length ≤ 10 := by
  have h : ∀ fuel v, (putVarintAux fuel v).length ≤ fuel := by
    intro fuel
    induction fuel with
    | zero => simp [putVarintAux]
    | succ fuel ih =>
      intro v
      rw [putVarintAux]
      split
      · simp
      · simpa using ih (v / 128)
  exact h 10 v

/-- The loop that reads a varint: `i` bytes read, `shift` bits filled, `v` the bits so far. It gives up when the buffer ends
and when an eleventh byte would be needed; the number is kept in 64 bits. -/
def getVarintAux : Bytes → Nat → Nat → Nat → Option (Nat × Nat)
  | [], _, _, _ => none
  | b :: bs, i, shift, v =>
    let v' := (v ||| ((b.toNat % 128) <<< shift)) % 2 ^ 64
    if b.toNat < 128 then some (v', i + 1)
    else if 63 < shift + 7 then none
    else getVarintAux bs (i + 1) (shift + 7) v'

/-- The number a buffer opens with, and how many bytes it takes. -/
def getVarint (buf : Bytes) : Option (Nat × Nat) := getVarintAux buf 0 0 0

theorem getVarintAux_bounds (buf : Bytes) : ∀ {i shift v r n : Nat}, getVarintAux buf i shift v = some (r, n) →
    r < 2 ^ 64 ∧ i < n ∧ n ≤ i + buf.length := by
  induction buf with
  | nil => exact nofun
  | cons b buf ih =>
    intro i shift v r n h
    rw [getVarintAux] at h
    split at h
    · cases h
      exact ⟨mod_lt _ (by norm_num), by omega, by simp⟩
    split at h
    · cases h
    · obtain ⟨h1, h2, h3⟩ := ih h
      rw [length_cons]
      exact ⟨h1, by omega, by omega⟩

/-- A varint is a 64-bit number and takes at least one byte, all of them in the buffer. -/
theorem getVarint_bounds (h : getVarint buf = some (v, n)) : v < 2 ^ 64 ∧ 0 < n ∧ n ≤ buf.length := by
  obtain ⟨h1, h2, h3⟩ := getVarintAux_bounds buf h
  exact ⟨h1, h2, by omega⟩

/-- A group read at `shift` adds its seven bits above the bits read so far. -/
theorem or_group (hu : u < 128) (hv : V < 2 ^ s) (hfit : V + u * 2 ^ s < 2 ^ 64) :
    (V ||| (u % 128) <<< s) % 2 ^ 64 = V + u * 2 ^ s := by
  rw [Nat.mod_eq_of_lt hu, Nat.or_comm, ← Nat.shiftLeft_add_eq_or_of_lt hv, Nat.shiftLeft_eq, Nat.add_comm,
    Nat.mod_eq_of_lt hfit]

/-- The reader run over the writer's output, from the middle of a number: `V` holds the bits below `7 * k`, `u` is what is
left, and the fuel covers it. -/
theorem getVarintAux_putVarintAux (rest : Bytes) :
    ∀ (fuel k i u V : Nat), fuel + k = 10 → V < 2 ^ (7 * k) → u < 128 ^ fuel → V + u * 2 ^ (7 * k) < 2 ^ 64 → 0 < fuel →
      getVarintAux (putVarintAux fuel u ++ rest) i (7 * k) V =
        some (V + u * 2 ^ (7 * k), i + (putVarintAux fuel u).length) := by
  intro fuel
  induction fuel with
  | zero => intro k i u V _ _ _ _ h0; omega
  | succ fuel ih =>
    intro k i u V hk hV hu hfit _
    have hg : u % 128 < 128 := mod_lt _ (by norm_num)
    have hsplit : u = u % 128 + u / 128 * 128 := by omega
    have hpow : 2 ^ (7 * (k + 1)) = 2 ^ (7 * k) * 128 := by rw [mul_add, pow_add]; norm_num
    have hsum : V + u % 128 * 2 ^ (7 * k) + u / 128 * 2 ^ (7 * (k + 1)) = V + u * 2 ^ (7 * k) := by
      rw [hpow]
      conv_rhs => rw [hsplit]
      ring
    by_cases h : u / 128 = 0
    · have hu' : u % 128 = u := by omega
      simp only [putVarintAux, h, if_true, singleton_append, getVarintAux, UInt8.toNat_ofNat', length_singleton]
      rw [mod_eq_of_lt (show u % 128 < 2 ^ 8 by omega), if_pos hg, or_group hg hV (by omega), hu']
    · have hlt : 0 < u / 128 := pos_of_ne_zero h
      have hfuel : 0 < fuel := by
        rcases Nat.eq_zero_or_pos fuel with hf | hf
        · subst hf
          simp only [zero_add, pow_one] at hu
          omega
        · exact hf
      have hk9 : k < 9 := by omega
      have hgroup : V + u % 128 * 2 ^ (7 * k) < 2 ^ (7 * (k + 1)) := by
        rw [hpow]
        calc V + u % 128 * 2 ^ (7 * k) < 2 ^ (7 * k) + u % 128 * 2 ^ (7 * k) := by omega
          _ = (u % 128 + 1) * 2 ^ (7 * k) := by ring
          _ ≤ 128 * 2 ^ (7 * k) := mul_le_mul_right _ (by omega)
          _ = 2 ^ (7 * k) * 128 := mul_comm _ _
      have hbyte : (u % 128 + 128) % 2 ^ 8 = u % 128 + 128 := mod_eq_of_lt (by omega)
      have hlow : (u % 128 + 128) % 128 = u % 128 := by omega
      simp only [putVarintAux, h, if_false, cons_append, getVarintAux, UInt8.toNat_ofNat', hbyte, hlow,
        length_cons]
      have hval : (V ||| (u % 128) <<< (7 * k)) % 2 ^ 64 = V + u % 128 * 2 ^ (7 * k) := by
        have := or_group hg hV (by omega)
        rwa [mod_eq_of_lt hg] at this
      rw [hval, if_neg (by omega), if_neg (by omega)]
      have hdiv : u / 128 < 128 ^ fuel := by
        rw [div_lt_iff_lt_mul (by norm_num), ← pow_succ]
        exact hu
      have := ih (k + 1) (i + 1) (u / 128) (V + u % 128 * 2 ^ (7 * k)) (by omega) hgroup hdiv (by omega) hfuel
      rw [show 7 * k + 7 = 7 * (k + 1) by ring, this, hsum]
      congr 2
      omega

theorem getVarint_putVarint (h : v < 2 ^ 64) (rest : Bytes) :
    getVarint (putVarint v ++ rest) = some (v, (putVarint v).length) := by
  have := getVarintAux_putVarintAux rest 10 0 0 v 0 rfl (by norm_num) (by norm_num; omega) (by simpa using h) (by norm_num)
  simpa [getVarint, putVarint] using this

end Bytes
