import Marekvs.Lemmas.PairRepair

/-!
# When anti-entropy converges

Two owners repeat exchanges, with no other writes. They end with identical records, after at most three exchanges, exactly where
no key is blocked. The side that sends a record is chosen by the clock reading alone: a register with the later clock and no
higher rank is sent, and refused, again and again, while the one that would win is never sent; and two last-writer-wins records
with one version are both refused.
-/

namespace Marekvs

open List Ae

/-- Both stores hold the same records under all keys, and the next exchange ends with the matching roots. -/
def Converged (xxh3 : Bytes → UInt64) (pid : Pid) (keys : List Bytes) (p : Records × Records) : Prop :=
  (∀ k ∈ keys, p.1 k = p.2 k) ∧ partitionRoot xxh3 keys p.1 = partitionRoot xxh3 keys p.2 ∧
    handle xxh3 pid keys true p.2 (.merkleRoot (partitionRoot xxh3 keys p.1)) = (p.2, [.merkleRootMatch])

theorem converged_of_agree {keys : List Bytes} {p : Records × Records}
    (h : ∀ k ∈ keys, p.1 k = p.2 k) : Converged xxh3 pid keys p := by
  have hroot : partitionRoot xxh3 keys p.1 = partitionRoot xxh3 keys p.2 := partitionRoot_congr h
  refine ⟨h, hroot, ?_⟩
  simp [handle, hroot]

section Convergence

variable {xxh3 : Bytes → UInt64} {pid : Pid} {keys : List Bytes} {a b : Records} {f g : Bytes → Bytes}

/-- Repeated exchanges end in identical stores exactly where no key's two records are blocked. -/
theorem anti_entropy_converges_iff (who : Nat → Bool) (hk : Keyed pid keys) (ha : Holds keys a f) (hb : Holds keys b g)
    (hpair : ∀ k ∈ keys, HeldPair k (f k) (g k))
    (hd : ∀ n, Distinguishes xxh3 keys (exchanges xxh3 pid keys who a b n).1 (exchanges xxh3 pid keys who a b n).2) :
    (∃ n, ∀ m ≥ n, Converged xxh3 pid keys (exchanges xxh3 pid keys who a b m)) ↔
      ∀ k ∈ keys, blocked k (f k) (g k) = false := by
  constructor
  · rintro ⟨n, hn⟩ k hkm
    by_contra hblk
    obtain ⟨h1, h2⟩ := exchanges_holds hk (ha.pair hb) (fun m _ => hd m) n k hkm
    have heq := (hn n le_rfl).1 k hkm
    rw [h1, h2] at heq
    exact (hpair k hkm).decides.1 (by simpa using hblk) who n (Option.some.inj heq)
  · intro hfree
    refine ⟨3, fun m hm => converged_of_agree fun k hkm => ?_⟩
    obtain ⟨h1, h2⟩ := exchanges_holds hk (ha.pair hb) (fun m _ => hd m) m k hkm
    obtain ⟨r, hr⟩ := (((hpair k hkm).decides.2 (hfree k hkm)).mono hm) who
    simp only [h1, h2, hr]

end Convergence

/-! ## One text, one register -/

/-- The values of the XXH3 function on the keys, records, entries and digests of the two pairs of stores below. -/
def xxh3Sample (bs : Bytes) : UInt64 :=
  let bucket (i : Nat) (d : UInt64) : Bytes := ((List.replicate BUCKETS 0).set i d).flatMap Bytes.ofU64
  -- the text key, its two records, their entries and roots
  if bs = [15, 33, 115, 97] then 0xd084e59c5f5ce1db
  else if bs = [0, 0, 0, 0, 0, 0, 10, 0, 0, 0, 1, 0, 0, 0, 0, 0, 0, 0, 0, 120] then 0xa38f41ba4055a5f9
  else if bs = [0, 0, 0, 0, 0, 0, 20, 0, 0, 0, 2, 0, 0, 0, 0, 0, 0, 0, 0, 121] then 0xdc9bb0daff120af5
  else if bs = [15, 33, 115, 97, 0, 0, 0, 0, 0, 10, 0, 0, 163, 143, 65, 186, 64, 85, 165, 249] then 0xe2a07ecb978da17e
  else if bs = [15, 33, 115, 97, 0, 0, 0, 0, 0, 20, 0, 0, 220, 155, 176, 218, 255, 18, 10, 245] then 0xc3fd3eae2d7a3127
  else if bs = bucket 0xdb 0xe2a07ecb978da17e then 0x776f7a77fe192ee8
  else if bs = bucket 0xdb 0xc3fd3eae2d7a3127 then 0x770885d812e25362
  -- the register key, its two records, their entries and roots
  else if bs = [15, 33, 72, 1, 97, 13, 17] then 0xec2a673b056498f0
  else if bs = [28, 0, 0, 0, 0, 0, 10, 0, 0, 0, 1, 0, 0, 0, 0, 0, 0, 0, 0, 1] then 0x5a4214ea09e10da3
  else if bs = [28, 0, 0, 0, 0, 0, 20, 0, 0, 0, 2, 0, 0, 0, 0, 0, 0, 0, 0, 1] then 0x3c0a07de8a296ca9
  else if bs = [15, 33, 72, 1, 97, 13, 17, 0, 0, 0, 0, 0, 10, 0, 0, 90, 66, 20, 234, 9, 225, 13, 163] then 0x734cb9f3266971f
  else if bs = [15, 33, 72, 1, 97, 13, 17, 0, 0, 0, 0, 0, 20, 0, 0, 60, 10, 7, 222, 138, 41, 108, 169] then 0xdce29e8ee0052de4
  else if bs = bucket 0xf0 0x734cb9f3266971f then 0x11cf3dda927ce86f
  else if bs = bucket 0xf0 0xdce29e8ee0052de4 then 0xa9bb59dee4e6cdab
  else 0

/-- The string key `a`, in its partition. -/
def textKey : Bytes := Ikey.simple 3873 .string [97]

/-- SET a x on node 1 and SET a y on node 2, ten milliseconds later. -/
def textX : StringRecord := ⟨⟨655360, 1⟩, 0, .text [120]⟩
def textY : StringRecord := ⟨⟨1310720, 2⟩, 0, .text [121]⟩

/-- The store with one record. -/
def only (k v : Bytes) : Records := Function.update (fun _ => none) k (some v)

theorem only_holds (k v : Bytes) : Holds [k] (only k v) fun _ => v := by
  intro k' hk'
  rw [mem_singleton.1 hk']
  exact Function.update_self _ _ _

theorem keyed_single (hp : Ikey.parse k = some p) (hpid : p.pid = pid) (htag : p.tag ≠ .zsetScore) : Keyed pid [k] where
  nodup := nodup_singleton k
  parse k' hk' := ⟨p, by rw [mem_singleton.1 hk', hp], hpid, htag⟩

theorem keyed_textKey : Keyed 3873 [textKey] := keyed_single (p := ⟨3873, .string, [97], []⟩) (by decide) rfl (by decide)

theorem heldPair_texts : HeldPair textKey textX.encode textY.encode :=
  .lone (by decide) (.plain textX.envelope [120] (by decide)) (.plain textY.envelope [121] (by decide)) fun _ => rfl

set_option maxRecDepth 20000 in
/-- The two texts are told apart, as records, in their digests and in their roots. -/
theorem distinguishes_texts (hs : s textKey = some textX.encode) (ht : t textKey = some textY.encode) :
    Distinguishes xxh3Sample [textKey] s t :=
  distinguishes_single keyed_textKey (by decide) (by decide) ⟨by decide, by decide⟩
    (by decide) hs ht

theorem anti_entropy_converges_on_a_text :
    blocked textKey textX.encode textY.encode = false ∧
      ∃ n, ∀ m ≥ n, Converged xxh3Sample 3873 [textKey] (exchanges xxh3Sample 3873 [textKey] (fun _ => true)
        (only textKey textX.encode) (only textKey textY.encode) m) := by
  have hfree : blocked textKey textX.encode textY.encode = false := by decide
  have hmem : textKey ∈ [textKey] := mem_singleton_self _
  have hafter : ∀ n, Repair.rounds recordHlc (mergeVal textKey) (fun _ => true) (textX.encode, textY.encode) (n + 1) =
      (textY.encode, textY.encode) := Repair.rounds_of_lt (by decide) (by decide) _
  refine ⟨hfree, (anti_entropy_converges_iff (fun _ => true) keyed_textKey (only_holds textKey textX.encode)
    (only_holds textKey textY.encode) ?_ ?_).2 ?_⟩
  · intro k hk
    rw [mem_singleton.1 hk]
    exact heldPair_texts
  · refine distinguishes_exchanges keyed_textKey ((only_holds _ _).pair (only_holds _ _)) fun n st hst => ?_
    obtain ⟨hs, ht⟩ := hst _ hmem
    cases n with
    | zero => exact distinguishes_texts hs ht
    | succ n =>
      refine distinguishes_of_agree (by simp) fun k hk => ?_
      simp only [mem_singleton.1 hk, hs, ht, hafter]
  · intro k hk
    rw [mem_singleton.1 hk]
    exact hfree

/-- One register of the sketch `a`, the one the element `x` falls on. -/
def registerKey : Bytes := Ikey.prefixed 3873 .hllRegister [97] [13, 17]

/-- PFADD a x on node 1 and, ten milliseconds later, on node 2. -/
def registerX : RegisterRecord := ⟨⟨655360, 1⟩, 0, 1, []⟩
def registerY : RegisterRecord := ⟨⟨1310720, 2⟩, 0, 1, []⟩

theorem keyed_registerKey : Keyed 3873 [registerKey] :=
  keyed_single (p := ⟨3873, .hllRegister, [97], [13, 17]⟩) (by decide) rfl (by decide)

set_option maxRecDepth 20000 in
theorem distinguishes_registers (hs : s registerKey = some registerX.encode)
    (ht : t registerKey = some registerY.encode) : Distinguishes xxh3Sample [registerKey] s t :=
  distinguishes_single keyed_registerKey (by decide) (by decide) ⟨by decide, by decide⟩
    (by decide) hs ht

/-- The same element added on both owners: whoever begins the exchanges and however many there are, without a hash collision,
the two registers stay different. -/
theorem anti_entropy_never_repairs_a_register :
    writeRegister none 655360 1 1 = registerX.encode ∧ writeRegister none 1310720 2 1 = registerY.encode ∧
      HeldPair registerKey registerX.encode registerY.encode ∧
      ∀ who n,
        Distinguishes xxh3Sample [registerKey]
          (exchanges xxh3Sample 3873 [registerKey] who (only registerKey registerX.encode)
            (only registerKey registerY.encode) n).1
          (exchanges xxh3Sample 3873 [registerKey] who (only registerKey registerX.encode)
            (only registerKey registerY.encode) n).2 ∧
        (exchanges xxh3Sample 3873 [registerKey] who (only registerKey registerX.encode) (only registerKey registerY.encode) n).1
            registerKey ≠
          (exchanges xxh3Sample 3873 [registerKey] who (only registerKey registerX.encode)
            (only registerKey registerY.encode) n).2
            registerKey := by
  have hmem : registerKey ∈ [registerKey] := mem_singleton_self _
  have hkind : budgetKind registerKey = none := by decide
  have hstuck : Repair.Stuck recordHlc (mergeVal registerKey) registerX.encode registerY.encode :=
    ⟨by decide, .inl ⟨by decide, by decide⟩⟩
  refine ⟨rfl, rfl, .registers hkind registerX registerY, fun who n => ?_⟩
  have hd : ∀ m, Distinguishes xxh3Sample [registerKey]
      (exchanges xxh3Sample 3873 [registerKey] who (only registerKey registerX.encode) (only registerKey registerY.encode) m).1
      (exchanges xxh3Sample 3873 [registerKey] who (only registerKey registerX.encode)
        (only registerKey registerY.encode) m).2 := by
    refine distinguishes_exchanges keyed_registerKey ((only_holds _ _).pair (only_holds _ _)) fun m st hst => ?_
    obtain ⟨hs, ht⟩ := hst _ hmem
    simp only [hstuck.rounds] at hs ht
    exact distinguishes_registers hs ht
  refine ⟨hd n, ?_⟩
  obtain ⟨h1, h2⟩ := exchanges_holds keyed_registerKey ((only_holds _ _).pair (only_holds _ _)) (fun m _ => hd m) n _ hmem
  simp only [h1, h2, hstuck.rounds]
  exact fun h => hstuck.1 (Option.some.inj h)

end Marekvs
