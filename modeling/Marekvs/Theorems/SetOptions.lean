import Marekvs.Engine.SetCommand
import Marekvs.Lemmas.Decimal

/-!
# SET's options and the type of the key

NX, XX and MSETNX take a key for absent that has no visible string record, although it may hold a collection or a retired list,
and SET with GET replies with the record's payload, which for a counter is not its value. The options agree with TYPE and GET on
strings and absent keys that show no counter.
-/

namespace Marekvs

open SetOptions Ikey

open Resp (ascii)

variable {key value : Bytes} {ctx : ShardCtx} {pairs : List (Bytes × Bytes)}

namespace ShardCtx

/-- TYPE shows a string exactly where a string record is visible. -/
theorem keyType_eq_string : ctx.keyType key = some .string ↔ (ctx.readLww (stringKey key) 0).isSome = true := by
  show Db.keyType .. = _ ↔ (Marekvs.readLww (ctx.db.getRaw _) 0 ctx.nowMs).isSome = true
  unfold Db.keyType
  split
  · next h => exact iff_of_true rfl h
  next h =>
  refine iff_of_false (fun htype => ?_) h
  cases hhead : ctx.db.headType key ctx.nowMs with
  | none =>
    rw [hhead] at htype
    dsimp only at htype
    split at htype <;> cases htype
  | some t =>
    rw [hhead] at htype
    cases htype
    unfold Db.headType at hhead
    split at hhead
    · cases hhead
    split at hhead
    · obtain ⟨c, -, hc⟩ := Option.map_eq_some_iff.1 hhead
      cases hc
    · cases hhead

/-- SET with NX, XX and GET does what TYPE and GET suggest. -/
structure SetAgrees (ctx : ShardCtx) (key value : Bytes) : Prop where
  nx : ctx.set [ascii "SET", key, value, ascii "NX"] =
    if ctx.keyType key = none then (.ok, ctx.writeString key value 0) else (.null, ctx)
  xx : ctx.set [ascii "SET", key, value, ascii "XX"] =
    if ctx.keyType key = none then (.null, ctx) else (.ok, ctx.writeString key value 0)
  get : (ctx.set [ascii "SET", key, value, ascii "GET"]).1.isErr = false →
    (ctx.set [ascii "SET", key, value, ascii "GET"]).1 = ctx.get key

/-- MSETNX writes all its keys if TYPE knows none of them, and otherwise nothing. -/
structure MsetnxAgrees (ctx : ShardCtx) (pairs : List (Bytes × Bytes)) : Prop where
  all : (∀ p ∈ pairs, ctx.keyType p.1 = none) →
    ctx.msetnx pairs = (.int 1, pairs.foldl (fun ctx p => ctx.writeString p.1 p.2 0) ctx)
  nothing : ¬ (∀ p ∈ pairs, ctx.keyType p.1 = none) → (ctx.msetnx pairs).1 ≠ .int 1 ∧ (ctx.msetnx pairs).2 = ctx

/-- The visible record of a string key is a counter. -/
def ShowsCounter (ctx : ShardCtx) (key : Bytes) : Prop := ∃ p, ctx.readLww (stringKey key) 0 = some p ∧ p.1.rtype = .counter

/-- The fence lets the key pass, it is a string or absent, and it shows a counter only behind the type gate. -/
structure SetFits (ctx : ShardCtx) (key : Bytes) : Prop where
  passes : isImmutableKey key = false
  plain : ctx.keyType key = none ∨ ctx.keyType key = some .string
  text : ctx.checkString key = true → ¬ ctx.ShowsCounter key

/-- If the fence lets the keys pass, one of them is a string or all are absent; if not, one of them is there. -/
def MsetnxFits (ctx : ShardCtx) (pairs : List (Bytes × Bytes)) : Prop :=
  if pairs.any fun p => isImmutableKey p.1 then ¬ ∀ p ∈ pairs, ctx.keyType p.1 = none
  else (∃ p ∈ pairs, ctx.keyType p.1 = some .string) ∨ ∀ p ∈ pairs, ctx.keyType p.1 = none

theorem msetnxAgrees_iff : ctx.MsetnxAgrees pairs ↔ ctx.MsetnxFits pairs := by
  have hstring : (pairs.any fun p => (ctx.readLww (stringKey p.1) 0).isSome) = true ↔
      ∃ p ∈ pairs, ctx.keyType p.1 = some .string := by
    simp only [List.any_eq_true, keyType_eq_string]
  unfold MsetnxFits
  by_cases himm : (pairs.any fun p => isImmutableKey p.1) = true
  · have heq : ctx.msetnx pairs = (diffImmutable, ctx) := if_pos himm
    rw [if_pos himm]
    refine ⟨fun h hall => absurd (heq.symm.trans (h.all hall)) nofun, fun h => ⟨fun hall => absurd hall h, fun _ => ?_⟩⟩
    rw [heq]
    exact ⟨nofun, rfl⟩
  rw [if_neg himm]
  by_cases hs : (pairs.any fun p => (ctx.readLww (stringKey p.1) 0).isSome) = true
  · have heq : ctx.msetnx pairs = (.int 0, ctx) := (if_neg himm).trans (if_pos hs)
    obtain ⟨p, hp, htype⟩ := hstring.1 hs
    refine iff_of_true ⟨fun hall => absurd (htype.symm.trans (hall p hp)) nofun, fun _ => ?_⟩ (.inl ⟨p, hp, htype⟩)
    rw [heq]
    exact ⟨by simp, rfl⟩
  · have heq : ctx.msetnx pairs = (.int 1, pairs.foldl (fun ctx p => ctx.writeString p.1 p.2 0) ctx) :=
      (if_neg himm).trans (if_neg hs)
    rw [or_iff_right fun h => hs (hstring.2 h)]
    refine ⟨fun h => ?_, fun h => ⟨fun _ => heq, fun hne => absurd h hne⟩⟩
    by_contra hne
    exact (h.nothing hne).1 (congrArg Prod.fst heq)

theorem set_eq_setKey (hpass : isImmutableKey key = false)
    (hparse : SetOptions.parse ctx.nowMs options .plain = .ok o) (hone : (o.nx && o.xx) = false) :
    ctx.set (ascii "SET" :: key :: value :: options) = ctx.setKey key value o := by
  simp [set, hpass, hparse, hone]

theorem setAgrees_iff : ctx.SetAgrees key value ↔ ctx.SetFits key := by
  by_cases himm : isImmutableKey key = true
  · refine iff_of_false (fun h => ?_) fun h => nomatch himm.symm.trans h.passes
    have hnx := h.nx
    simp only [set, List.getElem?_cons_succ, List.getElem?_cons_zero, Option.any_some, himm, if_true] at hnx
    split at hnx <;> cases hnx
  have hpass : isImmutableKey key = false := by simpa using himm
  have hnx : ctx.set [ascii "SET", key, value, ascii "NX"] = ctx.setKey key value ⟨true, false, false, false, none⟩ :=
    set_eq_setKey hpass rfl rfl
  have hxx : ctx.set [ascii "SET", key, value, ascii "XX"] = ctx.setKey key value ⟨false, true, false, false, none⟩ :=
    set_eq_setKey hpass rfl rfl
  have hget : ctx.set [ascii "SET", key, value, ascii "GET"] = ctx.setKey key value ⟨false, false, false, true, none⟩ :=
    set_eq_setKey hpass rfl rfl
  cases hr : ctx.readLww (stringKey key) 0 with
  | none =>
    have htype : ctx.keyType key ≠ some .string := fun h => by simpa [hr] using keyType_eq_string.1 h
    constructor
    · intro h
      refine ⟨hpass, .inl ?_, fun _ ⟨p, hp, _⟩ => nomatch hr.symm.trans hp⟩
      by_contra hne
      have hwrites := h.nx
      rw [hnx, if_neg hne] at hwrites
      simp [setKey, needOld, hr, Reply.ok] at hwrites
    · intro h
      have hnone := h.plain.resolve_right htype
      refine ⟨?_, ?_, fun _ => ?_⟩
      · rw [hnx, if_pos hnone]
        simp [setKey, needOld, hr]
      · rw [hxx, if_pos hnone]
        simp [setKey, needOld, hr]
      · rw [hget]
        cases hgate : ctx.checkString key <;> simp [setKey, needOld, get, readString, hr, hgate]
  | some p =>
    have htype : ctx.keyType key = some .string := keyType_eq_string.2 (by rw [hr]; rfl)
    have hread : ctx.get key = ((if p.1.rtype = .counter then ((CounterState.decode p.2).bind CounterState.value).map formatI64
        else some p.2).map Reply.bulk).getD .null := by
      have hvis : Marekvs.readLww (ctx.getRaw (stringKey key)) 0 ctx.nowMs = some p := hr
      simp [get, readString, hr, getString, hvis]
    have hreply : (ctx.setKey key value ⟨false, false, false, true, none⟩).1 =
        if ctx.checkString key then .bulk p.2 else .wrongtype := by
      cases hgate : ctx.checkString key <;> simp [setKey, needOld, hr, hgate]
    constructor
    · intro h
      refine ⟨hpass, .inr htype, ?_⟩
      rintro hgate ⟨q, hq, hcounter⟩
      cases hr.symm.trans hq
      have hshown := h.get
      rw [hget, hreply, if_pos hgate, hread, if_pos hcounter] at hshown
      have hshown := hshown rfl
      cases hv : (CounterState.decode p.2).bind CounterState.value with
      | none =>
        rw [hv] at hshown
        cases hshown
      | some v =>
        rw [hv] at hshown
        rw [Reply.bulk.inj hshown, decode_formatI64] at hv
        cases hv
    · intro h
      refine ⟨?_, ?_, fun herr => ?_⟩
      · rw [hnx, if_neg (by simp [htype])]
        simp [setKey, needOld, hr]
      · rw [hxx, if_neg (by simp [htype])]
        simp [setKey, needOld, hr]
      rw [hget, hreply] at herr ⊢
      split at herr
      · next hgate =>
        rw [if_pos hgate, hread, if_neg fun hcounter => h.text hgate ⟨p, hr, hcounter⟩]
        rfl
      · cases herr

/-- SET with NX, XX or GET and MSETNX agree with TYPE and GET exactly where the fence lets the keys pass, the key of SET is a
string or absent and shows no counter, and of MSETNX's keys one is a string or all are absent. -/
theorem set_options_agree_iff (ctx : ShardCtx) (key value : Bytes) (pairs : List (Bytes × Bytes)) :
    ctx.SetAgrees key value ∧ ctx.MsetnxAgrees pairs ↔ ctx.SetFits key ∧ ctx.MsetnxFits pairs :=
  and_congr setAgrees_iff msetnxAgrees_iff

/-- A store on which `k` is a set. -/
def setAtK : ShardCtx := ⟨((∅ : Db).sadd [107] 1 1 [([97], 2)] 0).getD ∅, ∅, 1, 3, 0⟩

/-- A store on which `k` counts to one. -/
def oneAtK : ShardCtx :=
  ⟨(∅ : Db).putRaw (stringKey [107]) (newLww .counter 1 1 (CounterState.bump (.onBase 0 0 0) 1 1).encode 0), ∅, 1, 1, 0⟩

/-- NX and MSETNX write over a set, XX does not see it, and GET brings the counter's record for its value. -/
theorem set_options_disagree : setAtK.keyType [107] = some (.collection .set) ∧
    (setAtK.set [ascii "SET", [107], [118], ascii "NX"]).1 = .ok ∧
      (setAtK.set [ascii "SET", [107], [118], ascii "XX"]).1 = .null ∧
    (setAtK.msetnx [([107], [118])]).1 = .int 1 ∧ oneAtK.get [107] = .bulk (ascii "1") ∧
    (oneAtK.set [ascii "SET", [107], [118], ascii "GET"]).1 = .bulk (CounterState.bump (.onBase 0 0 0) 1 1).encode := by
  refine ⟨by decide, rfl, rfl, rfl, rfl, rfl⟩

end ShardCtx

end Marekvs
