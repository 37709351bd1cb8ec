import Marekvs.Lemmas.DocPaths

/-!
# When decoding stored and replicated bytes panics

A length field of up to `2 ^ 64 - 1` is added to a position before it is checked. Where the sum wraps it passes the check, and
the slice that follows panics; where no sum wraps the decoders return what the decoders over unbounded numbers return. Protobuf
paths ask for the slice with `get` and never panic.
-/

namespace Marekvs

open List Machine Bytes Fallible Ikey JsonSeg ElementState

variable {ikey payload value incoming : Bytes}

/-! ## Keys -/

theorem Ikey.parseMachine_eq (hlen : ikey.length < 2 ^ 63) :
    parseMachine ikey = if lengthFits ikey then .ok (parse ikey) else .error .bounds := by
  match ikey, hlen with
  | [], _ => rfl
  | [_], _ => rfl
  | [_, _], _ => rfl
  | a :: b :: t :: rest, hlen =>
    have hrest : rest.length < 2 ^ 63 := by simp only [length_cons] at hlen; omega
    have h3 : slice (a :: b :: t :: rest) 3 (a :: b :: t :: rest).length = .ok rest := slice_length (by simp)
    have h2 : slice (a :: b :: t :: rest) 0 2 = .ok [a, b] := slice_eq (by omega) (by simp)
    rw [parseMachine, if_neg (by simp), h2, h3]
    simp only [index, getElem?_cons_succ, getElem?_cons_zero, ok_bind, lengthFits, parse, drop_succ_cons,
      drop_zero, take_succ_cons, take_zero]
    cases Tag.ofByte t with
    | none => rfl
    | some tag =>
      cases hs : tag.isSimple with
      | true => simp [hs]
      | false =>
        simp only [hs, Bool.false_or, Bool.false_eq_true, if_false]
        cases hv : Bytes.getVarint rest with
        | none => rfl
        | some v =>
          obtain ⟨klen, n⟩ := v
          obtain ⟨hk, -, hn⟩ := getVarint_bounds hv
          simp only [Option.all_some, decide_eq_true_eq]
          by_cases hfit : n + klen < 2 ^ 64
          · rw [if_pos hfit, add_eq hfit]
            by_cases hshort : rest.length < n + klen
            · rw [if_pos hshort, if_pos hshort]
            · rw [if_neg hshort, if_neg hshort, slice_add (by omega), slice_length (by omega)]
              rfl
          · have hlt := add_lt hk (by omega) (by omega : n < 2 ^ 64)
            rw [if_neg hfit, if_neg (by omega), slice_of_lt hlt]
            rfl

/-! ## Element records -/

namespace ElementState

theorem dotAt_eq (hlen : payload.length < 2 ^ 63) (h : pos + 10 ≤ payload.length) :
    dotAt payload pos = .ok (decodeDot (payload.drop pos)) := by
  have h8 : slice payload (pos + 2) (pos + 10) = .ok ((payload.drop (pos + 2)).take 8) :=
    slice_add (i := pos + 2) (n := 8) (by omega)
  rw [dotAt, add_eq (by omega), add_eq (by omega), slice_add (by omega), h8]
  simp only [ok_bind, decodeDot, drop_drop]

theorem decodeLiveMachine_eq (hlen : payload.length < 2 ^ 63) (n : Nat) :
    ∀ {pos : Nat}, pos ≤ payload.length →
      decodeLiveMachine payload n pos = if liveFits n pos (payload.drop pos) then
        .ok ((decodeLive n (payload.drop pos)).map fun (live, rest) => (live, payload.length - rest.length))
      else .error .bounds := by
  induction n with
  | zero =>
    intro pos hpos
    simp only [decodeLiveMachine, liveFits, if_true, decodeLive, Option.map_some, length_drop]
    rw [Nat.sub_sub_self hpos]
  | succ n ih =>
    intro pos hpos
    rw [decodeLiveMachine, liveFits, decodeLive, add_eq (by omega), length_drop]
    by_cases h10 : payload.length < pos + 10
    · rw [if_pos h10, if_pos (by omega : payload.length - pos < 10)]
      simp [show payload.length - pos < 10 by omega]
    rw [if_neg h10, if_neg (by omega : ¬ payload.length - pos < 10), dotAt_eq hlen (by omega), slice_length (by omega)]
    simp only [ok_bind, drop_drop, show decide (payload.length - pos < 10) = false by simpa using by omega,
      Bool.false_or]
    cases hv : Bytes.getVarint (payload.drop (pos + 10)) with
    | none => rfl
    | some v =>
      obtain ⟨vlen, adv⟩ := v
      obtain ⟨hvlen, -, hadv⟩ := getVarint_bounds hv
      rw [length_drop] at hadv
      simp only [length_drop]
      rw [add_eq (by omega : pos + 10 + adv < 2 ^ 64)]
      by_cases hfit : pos + 10 + adv + vlen < 2 ^ 64
      · rw [add_eq hfit]
        by_cases hshort : payload.length < pos + 10 + adv + vlen
        · have : payload.length - (pos + 10 + adv) < vlen := by omega
          rw [if_pos hshort, if_pos this]
          simp only [hfit, this, decide_true, Bool.true_and, Bool.true_or, if_true, Option.map_none]
        · have hlong : ¬ payload.length - (pos + 10 + adv) < vlen := by omega
          rw [if_neg hshort, if_neg hlong, slice_add (by omega), ih (by omega)]
          simp only [hfit, hlong, decide_true, decide_false, Bool.true_and, Bool.false_or, ok_bind]
          split
          · cases decodeLive n (payload.drop (pos + 10 + adv + vlen)) with
            | none => rfl
            | some r => rfl
          · rfl
      · have hlt := add_lt hvlen (by omega : 2 ^ 64 ≤ pos + 10 + adv + vlen) (by omega)
        rw [if_neg (by omega), slice_of_lt hlt]
        simp only [hfit, decide_false, Bool.false_and, Bool.false_eq_true, if_false, error_bind]

theorem decodeLive_tail (n : Nat) : ∀ {rest : Bytes} {live : List (Dot × Bytes)} {tail : Bytes},
    decodeLive n rest = some (live, tail) → ∃ k, tail = rest.drop k ∧ k ≤ rest.length := by
  induction n with
  | zero =>
    intro rest live tail h
    cases h
    exact ⟨0, rfl, Nat.zero_le _⟩
  | succ n ih =>
    intro rest live tail h
    rw [decodeLive] at h
    split at h
    · cases h
    split at h
    · cases h
    next vlen adv hv =>
    simp only at h
    split at h
    · cases h
    next hbody =>
    split at h
    · cases h
    next live' tail' hrec =>
    cases h
    obtain ⟨k, rfl, hk⟩ := ih hrec
    obtain ⟨-, -, hadv⟩ := getVarint_bounds hv
    simp only [drop_drop, length_drop] at hbody hk hadv ⊢
    exact ⟨_, rfl, by omega⟩

theorem mapM_dotAt (hlen : payload.length < 2 ^ 63) (h : pos + n * 10 ≤ payload.length) :
    (range n).mapM (fun i => dotAt payload (add pos (i * 10))) = .ok (decodeCovered n (payload.drop pos)) := by
  rw [mapM_eq_ok_map (g := fun i => decodeDot (payload.drop (pos + i * 10)))]
  · congr 1
    clear h
    induction n generalizing pos with
    | zero => rfl
    | succ n ih =>
      rw [range_succ_eq_map, map_cons, map_map, decodeCovered, drop_drop, ← ih]
      congr 1
      refine map_congr_left fun i _ => ?_
      simp only [Function.comp_apply]
      congr 2
      omega
  · intro i hi
    have hi := mem_range.1 hi
    rw [add_eq (by omega), dotAt_eq hlen (by omega)]

theorem decodeMachine_eq (hlen : payload.length < 2 ^ 63) :
    decodeMachine payload = if lengthsFit payload then .ok (decode payload) else .error .bounds := by
  cases payload with
  | nil => rfl
  | cons nlive rest =>
    rw [decodeMachine, lengthsFit, decode, decodeLiveMachine_eq hlen nlive.toNat (by simp)]
    simp only [drop_succ_cons, drop_zero]
    split
    · rw [ok_bind]
      cases hd : decodeLive nlive.toNat rest with
      | none => rfl
      | some r =>
        obtain ⟨live, tail⟩ := r
        obtain ⟨k, rfl, hk⟩ := decodeLive_tail _ hd
        simp only [length_cons] at hlen
        simp only [Option.map_some, length_cons, length_drop]
        rw [show rest.length + 1 - (rest.length - k) = k + 1 by omega, getElem?_cons_succ]
        cases htail : rest.drop k with
        | nil =>
          rw [getElem?_eq_none (by simpa using htail)]
        | cons ncov tail =>
          have hget : rest[k]? = some ncov := by
            have := congrArg (fun l => l[0]?) htail
            simpa using this
          have hlt : k < rest.length := by
            by_contra hge
            rw [drop_eq_nil_of_le (by omega)] at htail
            cases htail
          have hdrop : (nlive :: rest).drop (k + 2) = tail := by
            rw [show k + 2 = k + 1 + 1 by omega, drop_succ_cons, ← drop_drop, htail]
            rfl
          have htl : tail.length = rest.length - (k + 1) := by
            rw [← hdrop]
            simp
          have hnc := ncov.toNat_lt
          simp only [hget]
          rw [add_eq (by omega : k + 1 + 1 < 2 ^ 64), add_eq (by omega)]
          by_cases hshort : rest.length + 1 < k + 1 + 1 + ncov.toNat * 10
          · rw [if_pos hshort, if_pos (by omega)]
          · rw [if_neg hshort, if_neg (by omega), mapM_dotAt (by simpa using by omega) (by simp; omega), hdrop]
            rfl
    · rfl

end ElementState

/-! ## Paths -/

namespace DocPath

variable {S : Type} {decodeSeg : Bytes → Except Panic (Option (S × Nat))} {path : Bytes}

/-- A walk runs through where `good` says so, if `good` follows the segments: a segment that panics is not good, one that is
refused is, and after any other the rest of the path decides. -/
theorem runs_walk (good : Bytes → Prop) (hlen : path.length < 2 ^ 63) (hnil : good [])
    (hstep : ∀ buf : Bytes, buf ≠ [] → buf.length < 2 ^ 63 →
      (decodeSeg buf = .error .bounds ∧ ¬ good buf) ∨ (decodeSeg buf = .ok none ∧ good buf) ∨
        ∃ seg n, decodeSeg buf = .ok (some (seg, n)) ∧ 0 < n ∧ n ≤ buf.length ∧ (good buf ↔ good (buf.drop n)))
    (fuel : Nat) :
    ∀ {pos : Nat}, pos ≤ path.length → path.length ≤ pos + fuel →
      (Runs (walk decodeSeg path fuel pos) ↔ good (path.drop pos)) := by
  induction fuel with
  | zero =>
    intro pos hpos hfuel
    rw [walk, if_neg (by omega), drop_eq_nil_of_le (by omega)]
    exact iff_of_true (runs_ok _) hnil
  | succ fuel ih =>
    intro pos hpos hfuel
    rw [walk]
    split
    · next hlt =>
      rw [slice_length hpos, ok_bind]
      rcases hstep (path.drop pos) (by simpa using hlt) (by rw [length_drop]; omega) with ⟨h, hg⟩ | ⟨h, hg⟩
        | ⟨seg, n, h, h0, hn, hg⟩
      · rw [h]
        exact iff_of_false (not_runs_error _) hg
      · rw [h]
        exact iff_of_true (runs_ok _) hg
      rw [length_drop] at hn
      rw [h, hg, drop_drop, ok_bind]
      simp only
      rw [add_eq (by omega), runs_bind_ok, ih (by omega) (by omega)]
    · rw [drop_eq_nil_of_le (by omega)]
      exact iff_of_true (runs_ok _) hnil

theorem runs_decodePath : Runs (decodePath decodeSeg path) ↔ Runs (walk decodeSeg path path.length 0) := runs_bind_ok

theorem runs_splitLast : Runs (splitLast decodeSeg path) ↔ Runs (walk decodeSeg path path.length 0) := by
  rw [splitLast, runs_bind]
  constructor
  · rintro ⟨a, ha, -⟩
    exact ⟨a, ha⟩
  rintro ⟨a, ha⟩
  refine ⟨a, ha, ?_⟩
  cases hl : a.bind getLast? with
  | none => exact runs_ok _
  | some s =>
    obtain ⟨segs, rfl, hs⟩ := Option.bind_eq_some_iff.1 hl
    have hlt := walk_positions ha s (mem_of_getLast? hs)
    simp only
    rw [slice_eq (Nat.zero_le _) (le_of_lt hlt)]
    exact runs_ok _

end DocPath

theorem Eid.decode_isSome (h : Eid.decode b = some e) : 10 ≤ b.length := by
  rw [Eid.decode] at h
  split at h
  · cases h
  · omega

namespace JsonSeg

open DocPath

/-- More fuel than bytes changes nothing. -/
theorem lengthsFit_fuel (fuel : Nat) : ∀ {bs : Bytes}, bs.length ≤ fuel → lengthsFit fuel bs = lengthsFit bs.length bs := by
  induction fuel using Nat.strongRecOn with
  | _ fuel ih =>
    intro bs hbs
    cases bs with
    | nil => cases fuel <;> rfl
    | cons tag body =>
      cases fuel with
      | zero => exact absurd hbs (by simp)
      | succ fuel =>
        rw [length_cons] at hbs ⊢
        have hdrop : ∀ k, lengthsFit fuel (body.drop k) = lengthsFit body.length (body.drop k) := by
          intro k
          have hk : (body.drop k).length ≤ body.length := by simp
          rw [ih fuel (by omega) (by omega)]
          rcases Nat.lt_or_ge body.length (fuel + 1) with hlt | hge
          · rw [ih body.length hlt hk]
          · omega
        simp only [lengthsFit, hdrop]

/-- What `decodeSeg` does with the bytes at hand, and what it means for the rest of the path. -/
theorem decodeSeg_cases {buf : Bytes} (hne : buf ≠ []) (hlen : buf.length < 2 ^ 63) :
    (decodeSeg buf = .error .bounds ∧ ¬ pathFits buf = true) ∨ (decodeSeg buf = .ok none ∧ pathFits buf = true) ∨
      ∃ seg n, decodeSeg buf = .ok (some (seg, n)) ∧ 0 < n ∧ n ≤ buf.length ∧
        (pathFits buf = true ↔ pathFits (buf.drop n) = true) := by
  cases buf with
  | nil => exact absurd rfl hne
  | cons tag body =>
    have hrest : ∀ k, lengthsFit body.length (body.drop k) = pathFits (body.drop k) := fun k => lengthsFit_fuel _ (by simp)
    rw [length_cons] at hlen
    simp only [decodeSeg, pathFits, length_cons, lengthsFit]
    by_cases hf : tag = SEG_FIELD
    · simp only [if_pos hf]
      cases hv : Bytes.getVarint body with
      | none => exact .inr (.inl ⟨rfl, rfl⟩)
      | some v =>
        obtain ⟨len, n⟩ := v
        obtain ⟨hl, -, hn⟩ := getVarint_bounds hv
        simp only
        rw [add_eq (by omega : 1 + n < 2 ^ 64)]
        by_cases hfit : 1 + n + len < 2 ^ 64
        · rw [add_eq hfit]
          by_cases hshort : body.length + 1 < 1 + n + len
          · refine .inr (.inl ⟨if_pos hshort, ?_⟩)
            simp only [hfit, show body.length < n + len by omega, decide_true, Bool.true_and, Bool.true_or]
          refine .inr (.inr ⟨.field (((tag :: body).drop (1 + n)).take len), 1 + n + len, ?_, by omega, by omega, ?_⟩)
          · rw [if_neg hshort, slice_add (by rw [length_cons]; omega)]
            rfl
          rw [show 1 + n + len = n + len + 1 by omega, drop_succ_cons]
          simp only [show n + len + 1 < 2 ^ 64 by omega, show ¬ body.length < n + len by omega, decide_true, decide_false,
            Bool.true_and, Bool.false_or, hrest]
          rfl
        · have hlt := add_lt hl (by omega : 2 ^ 64 ≤ 1 + n + len) (by omega)
          refine .inl ⟨?_, ?_⟩
          · rw [if_neg (by omega), slice_of_lt hlt]
            rfl
          · simp only [hfit, decide_false, Bool.false_and]
            exact Bool.false_ne_true
    · simp only [if_neg hf]
      by_cases he : tag = SEG_ELEM
      · simp only [if_pos he]
        cases hd : Eid.decode body with
        | none =>
          refine .inr (.inl ⟨rfl, ?_⟩)
          rw [Eid.decode] at hd
          split at hd
          · next h => simp only [h, decide_true, Bool.true_or]
          · cases hd
        | some e =>
          have h10 := Eid.decode_isSome hd
          refine .inr (.inr ⟨.elem e, 11, rfl, by omega, by omega, ?_⟩)
          rw [show 11 = 10 + 1 from rfl, drop_succ_cons]
          simp only [show ¬ body.length < 10 by omega, decide_false, Bool.false_or, hrest]
          rfl
      · simp only [if_neg he]
        exact .inr (.inl ⟨trivial, trivial⟩)

theorem runs_walk_iff (hlen : path.length < 2 ^ 63) : Runs (DocPath.walk decodeSeg path path.length 0) ↔ pathFits path = true :=
  runs_walk (fun buf => pathFits buf = true) hlen rfl (fun _ hne hbuf => decodeSeg_cases hne hbuf) _ (Nat.zero_le _)
    (by omega)

end JsonSeg

namespace ProtoSeg

open DocPath

theorem decodeSeg_cases (hlen : buf.length < 2 ^ 63) :
    decodeSeg buf = .ok none ∨ ∃ seg n, decodeSeg buf = .ok (some (seg, n)) ∧ 0 < n ∧ n ≤ buf.length := by
  cases buf with
  | nil => exact .inl rfl
  | cons tag body =>
    simp only [decodeSeg]
    split
    · cases hv : Bytes.getVarint body with
      | none => exact .inl rfl
      | some v =>
        obtain ⟨len, n⟩ := v
        obtain ⟨hl, h0, hn⟩ := getVarint_bounds hv
        simp only [length_cons] at hlen ⊢
        cases hr : range? (tag :: body) (add 1 n) (add (add 1 n) len) with
        | none => exact .inl rfl
        | some window =>
          rw [range?] at hr
          split at hr
          · next hw =>
            rw [add_eq (by omega : 1 + n < 2 ^ 64), length_cons] at hw
            rw [add_eq (by omega : 1 + n < 2 ^ 64)]
            simp only
            split
            · split
              · exact .inl rfl
              · split
                · exact .inl rfl
                · exact .inr ⟨_, _, rfl, by omega, by omega⟩
            · cases MKey.decodeBody window with
              | none => exact .inl rfl
              | some key => exact .inr ⟨_, _, rfl, by omega, by omega⟩
          · cases hr
    · split
      · cases hd : Eid.decode body with
        | none => exact .inl rfl
        | some e =>
          have := Eid.decode_isSome hd
          exact .inr ⟨.elem e, 11, rfl, by omega, by rw [length_cons]; omega⟩
      · exact .inl rfl

theorem walk_runs (hlen : path.length < 2 ^ 63) : Runs (DocPath.walk decodeSeg path path.length 0) := by
  refine (runs_walk (fun _ => True) hlen trivial (fun buf _ hbuf => ?_) _ (Nat.zero_le _) (by omega)).2 trivial
  rcases decodeSeg_cases hbuf with h | ⟨seg, n, h, h0, hn⟩
  · exact .inr (.inl ⟨h, trivial⟩)
  · exact .inr (.inr ⟨seg, n, h, h0, hn, iff_of_true trivial trivial⟩)

end ProtoSeg

/-! ## Merging and writing -/

theorem Envelope.length_payload_le (h : Envelope.decode value = some (env, payload)) : payload.length ≤ value.length := by
  cases value with
  | nil => cases h
  | cons flags rest =>
    rw [Envelope.decode] at h
    split at h
    · cases h
    · cases h
      rw [length_drop, length_cons]
      omega

theorem Ikey.length_suffix_le (h : parse ikey = some p) : p.suffix.length ≤ ikey.length := by
  unfold parse at h
  split at h
  · cases h
  next tagByte rest hdrop =>
  have hrest : rest.length + 1 ≤ ikey.length := by
    have := congrArg length hdrop
    rw [length_drop, length_cons] at this
    omega
  split at h
  · cases h
  split at h
  · cases h
    exact Nat.zero_le _
  split at h
  · cases h
  split at h
  · cases h
  · cases h
    simp only [length_drop]
    omega

theorem mergeValuesMachine_eq (hl : localRec.length < 2 ^ 63) (hi : incoming.length < 2 ^ 63) :
    mergeValuesMachine localRec incoming =
      if mergeFits localRec incoming then .ok (mergeValues localRec incoming) else .error .bounds := by
  unfold mergeValuesMachine mergeFits mergeValues
  cases hdl : Envelope.decode localRec with
  | none => cases Envelope.decode incoming <;> rfl
  | some l =>
    cases hdi : Envelope.decode incoming with
    | none => rfl
    | some i =>
      obtain ⟨lenv, lpay⟩ := l
      obtain ⟨ienv, ipay⟩ := i
      have hlp := Envelope.length_payload_le hdl
      have hip := Envelope.length_payload_le hdi
      simp only
      split
      · rfl
      split
      · rfl
      split
      · rfl
      rw [decodeMachine_eq (by omega), decodeMachine_eq (by omega)]
      cases lengthsFit lpay
      · rfl
      cases lengthsFit ipay
      · rfl
      cases decode lpay with
      | none => rfl
      | some l =>
        cases decode ipay with
        | none => rfl
        | some i => rfl

theorem mergeAtMachine_eq (hk : ikey.length < 2 ^ 63) (hl : localRec.length < 2 ^ 63) (hi : incoming.length < 2 ^ 63) :
    mergeAtMachine ikey localRec incoming =
      if lengthFits ikey && ((budgetKind ikey).isSome || mergeFits localRec incoming) then
        .ok (mergeAt ikey localRec incoming)
      else .error .bounds := by
  rw [mergeAtMachine, parseMachine_eq hk, mergeValuesMachine_eq hl hi, mergeAt, budgetKind]
  cases lengthFits ikey
  · rfl
  simp only [if_true, ok_bind, Bool.true_and]
  cases parse ikey with
  | none => simp
  | some p =>
    obtain ⟨pid, tag, userkey, suffix⟩ := p
    cases suffix with
    | nil => cases tag <;> simp
    | cons kind suffix => cases tag <;> simp

theorem runs_anchorsElements (hk : ikey.length < 2 ^ 63) (hfit : lengthFits ikey = true) :
    Runs (anchorsElements ikey value) ↔ (!isBareTombstone value || jsonPathFits ikey) = true := by
  rw [anchorsElements, jsonPathFits, parseMachine_eq hk, hfit]
  cases isBareTombstone value with
  | false => exact iff_of_true (runs_ok _) rfl
  | true =>
    simp only [if_true, ok_bind, Bool.not_true, Bool.false_or]
    cases hp : parse ikey with
    | none => exact iff_of_true (runs_ok _) rfl
    | some p =>
      have hs := length_suffix_le hp
      simp only [Option.all_some]
      by_cases hj : p.tag = .json
      · simp only [hj, if_true, ne_eq, not_true_eq_false, decide_false, Bool.false_or]
        rw [runs_bind_ok, DocPath.runs_splitLast, runs_walk_iff (by omega)]
      simp only [ne_eq, hj, not_false_eq_true, decide_true, Bool.true_or, iff_true, if_false]
      split
      · exact runs_bind_ok.2 (DocPath.runs_splitLast.2 (ProtoSeg.walk_runs (by omega)))
      · exact runs_ok _

theorem runs_storeMachine (hk : ikey.length < 2 ^ 63) :
    Runs (storeMachine ikey value) ↔ (lengthFits ikey && (!isBareTombstone value || jsonPathFits ikey)) = true := by
  rw [Bool.and_eq_true]
  constructor
  · intro h
    obtain ⟨a, ha, h⟩ := runs_bind.1 h
    obtain ⟨p, hp, -⟩ := runs_bind.1 h
    have hfit : lengthFits ikey = true := by
      rw [parseMachine_eq hk] at hp
      exact runs_ite.1 ⟨p, hp⟩
    exact ⟨hfit, (runs_anchorsElements hk hfit).1 ⟨a, ha⟩⟩
  · rintro ⟨hfit, h⟩
    obtain ⟨a, ha⟩ := (runs_anchorsElements hk hfit).2 h
    rw [storeMachine, ha, parseMachine_eq hk, hfit]
    exact runs_ok _

theorem runs_writeMergedMachine {stored : Option Bytes} (hk : ikey.length < 2 ^ 63) (hs : ∀ v ∈ stored, v.length < 2 ^ 63)
    (hi : incoming.length < 2 ^ 63) :
    Runs (writeMergedMachine ikey stored incoming) ↔ writeFits ikey stored incoming = true := by
  cases stored with
  | none => exact runs_storeMachine hk
  | some localRec =>
    rw [writeMergedMachine, mergeAtMachine_eq hk (hs localRec rfl) hi, writeFits, writeMergedAt]
    cases hfit : lengthFits ikey with
    | false => exact iff_of_false (not_runs_error _) Bool.false_ne_true
    | true =>
      cases (budgetKind ikey).isSome || mergeFits localRec incoming with
      | false => exact iff_of_false (not_runs_error _) Bool.false_ne_true
      | true =>
        simp only [Bool.and_true, if_true, ok_bind, Bool.true_and]
        cases hm : mergeAt ikey localRec incoming with
        | keepLocal => exact iff_of_true (runs_ok _) (by simp)
        | takeIncoming | merged _ =>
          refine (runs_storeMachine hk).trans ?_
          rw [hfit]
          simp

/-- Every decoder of stored and replicated bytes returns without a slice out of bounds exactly where no length field that it
reads wraps when it is added to its position; protobuf paths always do. The same for the merge of two values, and for the write
of what arrives for a key. -/
theorem decoders_run_iff (ikey payload path localRec incoming : Bytes) (stored : Option Bytes) (hkey : ikey.length < 2 ^ 63)
    (hpayload : payload.length < 2 ^ 63) (hpath : path.length < 2 ^ 63) (hlocal : localRec.length < 2 ^ 63)
    (hincoming : incoming.length < 2 ^ 63) (hstored : ∀ v ∈ stored, v.length < 2 ^ 63) :
    (Runs (parseMachine ikey) ↔ lengthFits ikey = true) ∧
    (Runs (ElementState.decodeMachine payload) ↔ ElementState.lengthsFit payload = true) ∧
    (Runs (DocPath.decodePath JsonSeg.decodeSeg path) ↔ JsonSeg.pathFits path = true) ∧
    (Runs (DocPath.splitLast JsonSeg.decodeSeg path) ↔ JsonSeg.pathFits path = true) ∧
    Runs (DocPath.decodePath ProtoSeg.decodeSeg path) ∧ Runs (DocPath.splitLast ProtoSeg.decodeSeg path) ∧
    (Runs (mergeValuesMachine localRec incoming) ↔ mergeFits localRec incoming = true) ∧
    (Runs (writeMergedMachine ikey stored incoming) ↔ writeFits ikey stored incoming = true) := by
  refine ⟨?_, ?_, ?_, ?_, ?_, ?_, ?_, ?_⟩
  · rw [parseMachine_eq hkey]
    exact runs_ite
  · rw [ElementState.decodeMachine_eq hpayload]
    exact runs_ite
  · exact DocPath.runs_decodePath.trans (runs_walk_iff hpath)
  · exact DocPath.runs_splitLast.trans (runs_walk_iff hpath)
  · exact DocPath.runs_decodePath.2 (ProtoSeg.walk_runs hpath)
  · exact DocPath.runs_splitLast.2 (ProtoSeg.walk_runs hpath)
  · rw [mergeValuesMachine_eq hlocal hincoming]
    exact runs_ite
  · exact runs_writeMergedMachine hkey hstored hincoming

/-- The varint of `2 ^ 64 - 1`. -/
def hugeVarint : Bytes := [255, 255, 255, 255, 255, 255, 255, 255, 255, 1]

/-- A hash field's key with a key length of `2 ^ 64 - 1`, an element payload with such a value length, a JSON path with such a
field length, and a replicated set member with such a payload stored over another one: each of them panics. -/
theorem huge_lengths_panic :
    parseMachine ([0, 0, 104] ++ hugeVarint) = .error .bounds ∧
    ElementState.decodeMachine (1 :: replicate 10 0 ++ hugeVarint) = .error .bounds ∧
    DocPath.decodePath JsonSeg.decodeSeg (1 :: hugeVarint) = .error .bounds ∧
    DocPath.splitLast JsonSeg.decodeSeg (1 :: hugeVarint) = .error .bounds ∧
    writeMergedMachine [0, 0, 83, 1, 107, 109] (some (elementAdd .setMember 1 1 []))
      (8 :: replicate 18 0 ++ 1 :: replicate 10 0 ++ hugeVarint) = .error .bounds := by
  refine ⟨?_, ?_, ?_, ?_, ?_⟩ <;> decide

/-- A set member's record and its key. -/
theorem set_member_runs :
    lengthFits [0, 0, 83, 1, 107, 109] = true ∧
      Runs (writeMergedMachine [0, 0, 83, 1, 107, 109] (some (elementAdd .setMember 1 1 [])) (elementAdd .setMember 2 2 [])) := by
  have h := decoders_run_iff [0, 0, 83, 1, 107, 109] [] [] (elementAdd .setMember 1 1 []) (elementAdd .setMember 2 2 [])
    (some (elementAdd .setMember 1 1 [])) (by decide) (by decide) (by decide) (by decide) (by decide) (by decide)
  exact ⟨by decide, h.2.2.2.2.2.2.2.2 (by decide)⟩

end Marekvs
