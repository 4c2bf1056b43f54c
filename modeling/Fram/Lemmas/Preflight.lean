import Fram.Lemmas.CommitRequest
import Fram.Lemmas.Framrpc
import Fram.Preflight

/-!
# What is measured is what is written

A value that is measured is written in as many bytes when its integers are longs, and is not written otherwise (`meets_rpcWriteTerm`).
The frame's measuring pass and its writing pass are put together of the same parts, so this holds of whole bodies.
-/

namespace Fram.Preflight

open Database Framrpc LittleEndian
open ExceptList (bind_eq_ok_iff)

variable {label : String} {units : List UInt16} {v : Value} {α : Type}

/-! ## Texts -/

theorem toNat_ofNat_of_valid {n : Nat} (h : n.isValidChar) : (Char.ofNat n).val.toNat = n := by
  rw [Char.ofNat, dif_pos h]
  rfl

/-- The bytes of a unit that is no surrogate. -/
theorem length_scalar {unit : UInt16} (hh : isHighSurrogate unit = false) (hl : isLowSurrogate unit = false) :
    (String.utf8EncodeChar (Char.ofNat unit.toNat)).length =
      if unit.toNat ≤ 127 then 1 else if unit.toNat ≤ 2047 then 2 else 3 := by
  have hu : unit.toNat < 65536 := unit.toNat_lt
  have hv : unit.toNat.isValidChar := by
    simp only [isHighSurrogate, isLowSurrogate, Bool.and_eq_false_iff, decide_eq_false_iff_not] at hh hl
    unfold Nat.isValidChar
    omega
  rw [← utf8Width_eq, utf8Width, toNat_ofNat_of_valid hv]
  split_ifs <;> omega

/-- The bytes of a pair of surrogates. -/
theorem length_pair {high low : UInt16} (hh : isHighSurrogate high = true) (hl : isLowSurrogate low = true) :
    (String.utf8EncodeChar (scalarOfPair high low)).length = 4 := by
  simp only [isHighSurrogate, isLowSurrogate, Bool.and_eq_true, decide_eq_true_eq] at hh hl
  have hv : (65536 + (high.toNat - 55296) * 1024 + (low.toNat - 56320)).isValidChar := by
    unfold Nat.isValidChar
    omega
  rw [← utf8Width_eq, utf8Width, scalarOfPair, toNat_ofNat_of_valid hv]
  split_ifs <;> omega

/-- A text that is measured has scalars, and their bytes are the measure. -/
theorem scalars_of_utf8LengthUnits {maximum total n : Nat} (ht : total ≤ maximum) (h : utf8LengthUnits maximum label units total = .ok n) :
    n ≤ maximum ∧ ∃ cs, scalars units = some cs ∧ n = total + (cs.flatMap String.utf8EncodeChar).length := by
  fun_induction utf8LengthUnits maximum label units total with
  | case1 total =>
    cases h
    exact ⟨ht, [], rfl, rfl⟩
  | case2 => cases h
  | case3 => cases h
  | case4 => cases h
  | case5 high total hhigh low units hlow hle ih =>
    obtain ⟨hn, cs, hcs, rfl⟩ := ih (by omega) h
    refine ⟨hn, scalarOfPair high low :: cs, ?_, ?_⟩
    · rw [scalars_pair hhigh (by simpa using hlow), hcs, Option.map_some]
    · rw [List.flatMap_cons, List.length_append, length_pair hhigh (by simpa using hlow)]
      omega
  | case6 => cases h
  | case7 => cases h
  | case8 unit units total hhigh hlow width hle ih =>
    obtain ⟨hn, cs, hcs, rfl⟩ := ih (by omega) h
    have hh : isHighSurrogate unit = false := by simpa using hhigh
    have hl : isLowSurrogate unit = false := by simpa using hlow
    refine ⟨hn, Char.ofNat unit.toNat :: cs, ?_, ?_⟩
    · rw [scalars_scalar hh hl, hcs, Option.map_some]
    · rw [List.flatMap_cons, List.length_append, length_scalar hh hl]
      omega

/-- A text that is measured is written, after its length. -/
theorem writeSizedTextCore_of_measured {maximum n : Nat} (hm : maximum ≤ 4294967295) (h : utf8LengthUnits maximum label units 0 = .ok n) :
    ∃ bytes, writeSizedTextCore units maximum label = .ok bytes ∧ bytes.length = 4 + n := by
  obtain ⟨hn, cs, hcs, hlen⟩ := scalars_of_utf8LengthUnits (Nat.zero_le _) h
  have hbytes : n = (utf8Encode (String.ofList cs)).length := by rw [hlen, Nat.zero_add, utf8Encode, String.toList_ofList]
  have hstrict : strictUtf8Bytes units maximum label = .ok (utf8Encode (String.ofList cs)) := by
    rw [strictUtf8Bytes, bind_eq_ok_iff]
    refine ⟨n, h, ?_⟩
    rw [encodeUnits, hcs, Option.map_some]
    exact if_pos hbytes
  have hlength : codecWriteU32Le (utf8Encode (String.ofList cs)).length =
      .ok (toBytes 4 (utf8Encode (String.ofList cs)).length) := by
    rw [codecWriteU32Le_ok_iff]
    exact ⟨rfl, by omega, by omega⟩
  refine ⟨toBytes 4 (utf8Encode (String.ofList cs)).length ++ utf8Encode (String.ofList cs), ?_, ?_⟩
  · simp only [writeSizedTextCore, bind_eq_ok_iff]
    exact ⟨_, hstrict, _, hlength, rfl⟩
  · rw [List.length_append, length_toBytes, hbytes]

/-! ## Values -/

/-- The integers of a value are longs, and the nanoseconds of its instants are of 32 bits. -/
def Writable : Value → Prop
  | .int n => InI64 n
  | .instant epochSeconds nanos => InI64 epochSeconds ∧ 0 ≤ nanos ∧ nanos ≤ 4294967295
  | .triple t1 t2 t3 => Writable t1 ∧ Writable t2 ∧ Writable t3
  | _ => True

/-- Whatever a measure finds is how many bytes are written when the condition holds, and nothing is written otherwise. -/
def Meets (measure : Measure) (write : Except Fault Bytes) (condition : Prop) : Prop :=
  ∀ nodes n nodes', measure nodes = .ok (n, nodes') →
    (condition → ∃ bytes, write = .ok bytes ∧ bytes.length = n) ∧ ∀ bytes, write = .ok bytes → condition

theorem codecWriteI64Le_ok_iff {n : Int} {bytes : Bytes} : codecWriteI64Le n = .ok bytes ↔ InI64 n ∧ bytes = toBytes 8 (natOfI64 n) := by
  unfold codecWriteI64Le InI64
  exact ExceptList.guarded_eq_ok_iff.trans and_comm

/-- A text of an atom. -/
theorem meets_text {maxStringBytes n : Nat} (tag : UInt8) (hm : maxStringBytes ≤ 4294967295)
    (h : utf8LengthUnits maxStringBytes label units 0 = .ok n) : ∃ bytes, (do
      let text ← writeSizedTextCore units maxStringBytes label
      .ok (tag :: text) : Except Fault Bytes) = .ok bytes ∧ bytes.length = 5 + n := by
  obtain ⟨text, ht, hl⟩ := writeSizedTextCore_of_measured hm h
  refine ⟨tag :: text, ?_, ?_⟩
  · rw [bind_eq_ok_iff]
    exact ⟨text, ht, rfl⟩
  · rw [List.length_cons, hl]
    omega

/-- A value that is no triple. -/
theorem meets_leaf {maxStringBytes n : Nat} (hm : maxStringBytes ≤ 4294967295) (h : measureLeaf maxStringBytes v = .ok n) :
    (Writable v → ∃ bytes, writeTermCore maxStringBytes v = .ok bytes ∧ bytes.length = n) ∧
      ∀ bytes, writeTermCore maxStringBytes v = .ok bytes → Writable v := by
  cases v with
  | string units =>
    simp only [measureLeaf, bind_eq_ok_iff, Except.ok.injEq] at h
    obtain ⟨length, hl, rfl⟩ := h
    exact ⟨fun _ => meets_text 1 hm hl, fun _ _ => trivial⟩
  | int k =>
    cases h
    constructor
    · intro hk
      refine ⟨2 :: toBytes 8 (natOfI64 k), ?_, by simp⟩
      rw [writeTermCore, bind_eq_ok_iff]
      exact ⟨_, codecWriteI64Le_ok_iff.2 ⟨hk, rfl⟩, rfl⟩
    · intro bytes hw
      rw [writeTermCore, bind_eq_ok_iff] at hw
      obtain ⟨_, hk, -⟩ := hw
      exact (codecWriteI64Le_ok_iff.1 hk).1
  | float x =>
    cases h
    exact ⟨fun _ => ⟨_, rfl, by simp⟩, fun _ _ => trivial⟩
  | bool b =>
    cases h
    cases b
    · exact ⟨fun _ => ⟨_, rfl, rfl⟩, fun _ _ => trivial⟩
    · exact ⟨fun _ => ⟨_, rfl, rfl⟩, fun _ _ => trivial⟩
  | keyword units =>
    simp only [measureLeaf] at h
    split at h
    · cases h
    · simp only [bind_eq_ok_iff, Except.ok.injEq] at h
      obtain ⟨length, hl, rfl⟩ := h
      exact ⟨fun _ => meets_text 6 hm hl, fun _ _ => trivial⟩
  | instant epochSeconds nanos =>
    cases h
    constructor
    · rintro ⟨hs, hn⟩
      refine ⟨8 :: (toBytes 8 (natOfI64 epochSeconds) ++ toBytes 4 nanos.toNat), ?_, by simp⟩
      simp only [writeTermCore, bind_eq_ok_iff]
      exact ⟨_, codecWriteI64Le_ok_iff.2 ⟨hs, rfl⟩, _, codecWriteU32Le_ok_iff.2 ⟨rfl, hn⟩, rfl⟩
    · intro bytes hw
      simp only [writeTermCore, bind_eq_ok_iff] at hw
      obtain ⟨_, hs, _, hn, -⟩ := hw
      exact ⟨(codecWriteI64Le_ok_iff.1 hs).1, (codecWriteU32Le_ok_iff.1 hn).2⟩
  | triple t1 t2 t3 => cases h
  | other => cases h

section Measure

variable {maxStringBytes maxNodes maxDepth depth nodes n nodes' : Nat}

/-- The measure of a value that is no triple. -/
theorem measureValue_leaf_iff (hv : v.isTriple = false) : measureValue maxStringBytes maxNodes maxDepth v depth nodes = .ok (n, nodes') ↔
      depth ≤ maxDepth ∧ nodes' = nodes + 1 ∧ nodes + 1 ≤ maxNodes ∧ measureLeaf maxStringBytes v = .ok n := by
  have hunfold : measureValue maxStringBytes maxNodes maxDepth v depth =
      (if maxDepth < depth then fun _ => .error termDepthExceeded
        else (codecNode maxNodes >>= fun _ nodes => (measureLeaf maxStringBytes v).map (·, nodes)) : Measure) := by
    cases v with
    | triple t1 t2 t3 => cases hv
    | _ => rfl
  rw [hunfold]
  split
  · simp only [reduceCtorEq, false_iff]
    omega
  · rw [ExceptList.stateT_bind_eq_ok_iff]
    constructor
    · rintro ⟨u, m, hc, h⟩
      obtain ⟨rfl, hle⟩ := codecNode_ok_iff.1 hc
      cases hl : measureLeaf maxStringBytes v with
      | error e =>
        rw [hl] at h
        cases h
      | ok k =>
        rw [hl] at h
        cases h
        exact ⟨by omega, rfl, hle, rfl⟩
    · rintro ⟨-, rfl, hle, hl⟩
      exact ⟨(), _, codecNode_ok_iff.2 ⟨rfl, hle⟩, by rw [hl]; rfl⟩

/-- The measure of a triple. -/
theorem measureValue_triple_iff {t1 t2 t3 : Value} :
    measureValue maxStringBytes maxNodes maxDepth (.triple t1 t2 t3) depth nodes = .ok (n, nodes') ↔
      depth ≤ maxDepth ∧ nodes + 1 ≤ maxNodes ∧ ∃ n1 m1 n2 m2 n3,
        measureValue maxStringBytes maxNodes maxDepth t1 (depth + 1) (nodes + 1) = .ok (n1, m1) ∧
        measureValue maxStringBytes maxNodes maxDepth t2 (depth + 1) m1 = .ok (n2, m2) ∧
        measureValue maxStringBytes maxNodes maxDepth t3 (depth + 1) m2 = .ok (n3, nodes') ∧ n = 1 + (n1 + (n2 + n3)) := by
  rw [measureValue]
  split
  · simp only [reduceCtorEq, false_iff]
    omega
  · simp only [ExceptList.stateT_bind_eq_ok_iff, codecNode_ok_iff]
    constructor
    · rintro ⟨u, _, ⟨rfl, hle⟩, n1, m1, h1, n2, m2, h2, n3, m3, h3, h⟩
      cases h
      exact ⟨by omega, hle, n1, m1, n2, m2, n3, h1, h2, h3, rfl⟩
    · rintro ⟨-, hle, n1, m1, n2, m2, n3, h1, h2, h3, rfl⟩
      exact ⟨(), _, ⟨rfl, hle⟩, n1, m1, h1, n2, m2, h2, n3, nodes', h3, rfl⟩

/-- A value that is measured is measured so under a larger bound of nodes. -/
theorem measureValue_mono {maxNodes' : Nat} (hm : maxNodes ≤ maxNodes')
    (h : measureValue maxStringBytes maxNodes maxDepth v depth nodes = .ok (n, nodes')) :
    measureValue maxStringBytes maxNodes' maxDepth v depth nodes = .ok (n, nodes') := by
  induction v generalizing depth nodes n nodes' with
  | triple t1 t2 t3 ih1 ih2 ih3 =>
    obtain ⟨hd, hle, n1, m1, n2, m2, n3, h1, h2, h3, he⟩ := measureValue_triple_iff.1 h
    exact measureValue_triple_iff.2 ⟨hd, hle.trans hm, n1, m1, n2, m2, n3, ih1 h1, ih2 h2, ih3 h3, he⟩
  | _ =>
    obtain ⟨hd, he, hle, hl⟩ := (measureValue_leaf_iff rfl).1 h
    exact (measureValue_leaf_iff rfl).2 ⟨hd, he, hle.trans hm, hl⟩

/-- A value that is measured is written in as many bytes when its integers are longs, and is not written otherwise. -/
theorem meets_writeTermCore (hm : maxStringBytes ≤ 4294967295)
    (h : measureValue maxStringBytes maxNodes maxDepth v depth nodes = .ok (n, nodes')) :
    (Writable v → ∃ bytes, writeTermCore maxStringBytes v = .ok bytes ∧ bytes.length = n) ∧
      ∀ bytes, writeTermCore maxStringBytes v = .ok bytes → Writable v := by
  induction v generalizing depth nodes n nodes' with
  | triple t1 t2 t3 ih1 ih2 ih3 =>
    obtain ⟨-, -, n1, m1, n2, m2, n3, h1, h2, h3, rfl⟩ := measureValue_triple_iff.1 h
    constructor
    · rintro ⟨hw1, hw2, hw3⟩
      obtain ⟨b1, hb1, rfl⟩ := (ih1 h1).1 hw1
      obtain ⟨b2, hb2, rfl⟩ := (ih2 h2).1 hw2
      obtain ⟨b3, hb3, rfl⟩ := (ih3 h3).1 hw3
      refine ⟨7 :: (b1 ++ (b2 ++ b3)), ?_, ?_⟩
      · simp only [writeTermCore, bind_eq_ok_iff]
        exact ⟨b1, hb1, b2, hb2, b3, hb3, rfl⟩
      · simp only [List.length_cons, List.length_append]
        omega
    · intro bytes hw
      simp only [writeTermCore, bind_eq_ok_iff] at hw
      obtain ⟨b1, hb1, b2, hb2, b3, hb3, -⟩ := hw
      exact ⟨(ih1 h1).2 b1 hb1, (ih2 h2).2 b2 hb2, (ih3 h3).2 b3 hb3⟩
  | _ => exact meets_leaf hm ((measureValue_leaf_iff rfl).1 h).2.2.2

end Measure

/-! ## Parts of a body -/

/-- A term of a body. -/
theorem meets_rpcWriteTerm (v : Value) : Meets (rpcAddMeasuredTerm v) (rpcWriteTerm v) (Writable v) := by
  intro nodes n nodes' h
  unfold rpcAddMeasuredTerm at h
  split at h
  · cases h
  · rename_i hlt
    simp only [bind_eq_ok_iff, Except.ok.injEq, Prod.mk.injEq, measureTermCodecV1] at h
    obtain ⟨measure, ⟨-, -, ⟨bytes, count⟩, hv, rfl⟩, rfl, rfl⟩ := h
    have hfull := measureValue_mono (Nat.sub_le rpcV2MaxTermNodes nodes) hv
    have hmeasure : measureTermCodecV1 v rpcV2MaxStringBytes rpcV2MaxTermNodes termCodecV1MaxDepth = .ok ⟨bytes, count⟩ := by
      simp only [measureTermCodecV1, bind_eq_ok_iff]
      exact ⟨(), by decide, _, hfull, rfl⟩
    have hwrite : ∀ out, rpcWriteTerm v = .ok out ↔ writeTermCore rpcV2MaxStringBytes v = .ok out := by
      intro out
      rw [rpcWriteTerm, writeTermCodecV1, bind_eq_ok_iff]
      constructor
      · rintro ⟨_, -, h⟩
        exact h
      · exact fun h => ⟨_, hmeasure, h⟩
    simp only [hwrite]
    exact meets_writeTermCore (by decide) hv

/-- What there may be of a body. -/
theorem Meets.addIf {measure : α → Measure} {write : α → Except Fault Bytes} {condition : α → Prop}
    {value : Option α} (h : ∀ a ∈ value, Meets (measure a) (write a) (condition a)) :
    Meets (Preflight.addIf measure value) (writeIf write value) (∀ a ∈ value, condition a) := by
  cases value with
  | none =>
    intro nodes n nodes' hm
    cases hm
    exact ⟨fun _ => ⟨[], rfl, rfl⟩, fun _ _ => by simp⟩
  | some a =>
    intro nodes n nodes' hm
    obtain ⟨h1, h2⟩ := h a rfl nodes n nodes' hm
    refine ⟨fun hc => h1 (hc a rfl), fun bytes hb b hba => ?_⟩
    cases hba
    exact h2 bytes hb

/-- A term that there may be. -/
theorem meets_writeIf_rpcWriteTerm (value : Option Value) :
    Meets (addIf rpcAddMeasuredTerm value) (writeIf rpcWriteTerm value) (∀ v ∈ value, Writable v) :=
  .addIf fun v _ => meets_rpcWriteTerm v

theorem require_ok_iff {holds : Bool} {code message : String} : require holds code message = .ok () ↔ holds = true := by
  cases holds <;> simp [require]

theorem requireRpcU32_ok_iff {value : Int} : requireRpcU32 value label = .ok () ↔ 0 ≤ value ∧ value ≤ 4294967295 := by
  rw [requireRpcU32, require_ok_iff, decide_eq_true_eq]

theorem requireRpcI64_ok_iff {value : Int} : requireRpcI64 value label = .ok () ↔ InI64 value := by
  rw [requireRpcI64, require_ok_iff, decide_eq_true_eq]
  rfl

theorem length_present (value : Option α) : (present value).length = 1 := rfl

theorem length_flag (value : Bool) : (flag value).length = 1 := rfl

theorem meets_pageRequest {page : PageRequest} (h : validateRpcPageRequest page = .ok ()) :
    Meets (rpcPageRequestBytes page) (writeRpcPageRequest page) (∀ v ∈ page.cursor, Writable v) := by
  simp only [validateRpcPageRequest, bind_eq_ok_iff] at h
  obtain ⟨_, hl, -⟩ := h
  intro nodes n nodes' hm
  rw [rpcPageRequestBytes, ExceptList.stateT_bind_eq_ok_iff] at hm
  obtain ⟨cursor, _, hc, hm⟩ := hm
  cases hm
  obtain ⟨h1, h2⟩ := meets_writeIf_rpcWriteTerm page.cursor _ _ _ hc
  have hlimit := codecWriteU32Le_ok_iff.2 ⟨rfl, requireRpcU32_ok_iff.1 hl⟩
  constructor
  · intro hw
    obtain ⟨bytes, hb, rfl⟩ := h1 hw
    refine ⟨toBytes 4 page.limit.toNat ++ (present page.cursor ++ bytes), ?_, ?_⟩
    · simp only [writeRpcPageRequest, bind_eq_ok_iff]
      exact ⟨_, hlimit, _, hb, rfl⟩
    · simp only [List.length_append, length_toBytes, length_present]
      omega
  · intro bytes hw
    simp only [writeRpcPageRequest, bind_eq_ok_iff] at hw
    obtain ⟨_, -, _, hb, -⟩ := hw
    exact h2 _ hb

theorem meets_pageResponse {page : PageResponse} (h : validateRpcPageResponse page = .ok ()) :
    Meets (rpcPageResponseBytes page) (writeRpcPageResponse page) (∀ v ∈ page.nextCursor, Writable v) := by
  simp only [validateRpcPageResponse, bind_eq_ok_iff] at h
  obtain ⟨_, hl, -⟩ := h
  intro nodes n nodes' hm
  rw [rpcPageResponseBytes, ExceptList.stateT_bind_eq_ok_iff] at hm
  obtain ⟨cursor, _, hc, hm⟩ := hm
  cases hm
  obtain ⟨h1, h2⟩ := meets_writeIf_rpcWriteTerm page.nextCursor _ _ _ hc
  have hordinal := codecWriteU32Le_ok_iff.2 ⟨rfl, requireRpcU32_ok_iff.1 hl⟩
  constructor
  · intro hw
    obtain ⟨bytes, hb, rfl⟩ := h1 hw
    refine ⟨toBytes 4 page.ordinal.toNat ++ (present page.nextCursor ++ (bytes ++ flag page.done)), ?_, ?_⟩
    · simp only [writeRpcPageResponse, bind_eq_ok_iff]
      exact ⟨_, hordinal, _, hb, rfl⟩
    · simp only [List.length_append, length_toBytes, length_present, length_flag]
      omega
  · intro bytes hw
    simp only [writeRpcPageResponse, bind_eq_ok_iff] at hw
    obtain ⟨_, -, _, hb, -⟩ := hw
    exact h2 _ hb

/-- The terms of an error. -/
def Error.terms (error : Error) : List Value := error.code :: error.message :: error.detail.toList

theorem meets_error (error : Error) : Meets (rpcErrorBytes error) (writeRpcError error) (∀ v ∈ error.terms, Writable v) := by
  intro nodes n nodes' hm
  simp only [rpcErrorBytes, ExceptList.stateT_bind_eq_ok_iff] at hm
  obtain ⟨code, _, hc, message, _, hmsg, detail, _, hd, hm⟩ := hm
  cases hm
  obtain ⟨hc1, hc2⟩ := meets_rpcWriteTerm error.code _ _ _ hc
  obtain ⟨hm1, hm2⟩ := meets_rpcWriteTerm error.message _ _ _ hmsg
  obtain ⟨hd1, hd2⟩ := meets_writeIf_rpcWriteTerm error.detail _ _ _ hd
  simp only [Error.terms, List.mem_cons, Option.mem_toList, forall_eq_or_imp]
  constructor
  · rintro ⟨hwc, hwm, hwd⟩
    obtain ⟨bc, hbc, rfl⟩ := hc1 hwc
    obtain ⟨bm, hbm, rfl⟩ := hm1 hwm
    obtain ⟨bd, hbd, rfl⟩ := hd1 hwd
    refine ⟨bc ++ (flag error.retryable ++ (bm ++ (present error.detail ++ bd))), ?_, ?_⟩
    · simp only [writeRpcError, bind_eq_ok_iff]
      exact ⟨_, hbc, _, hbm, _, hbd, rfl⟩
    · simp only [List.length_append, length_present, length_flag]
      omega
  · intro bytes hw
    simp only [writeRpcError, bind_eq_ok_iff] at hw
    obtain ⟨_, hbc, _, hbm, _, hbd, -⟩ := hw
    exact ⟨hc2 _ hbc, hm2 _ hbm, hd2 _ hbd⟩

/-- The terms of a request. -/
def Request.terms (request : Request) : List Value :=
  request.space :: request.op :: request.payload :: (request.page.bind (·.cursor)).toList

/-- The terms of a response. -/
def Response.terms (response : Response) : List Value :=
  response.space :: response.op :: ((response.page.bind (·.nextCursor)).toList ++ ((response.error.map Error.terms).getD [] ++
    response.payload.toList))

theorem Response.forall_terms {response : Response} {P : Value → Prop} : (∀ v ∈ response.terms, P v) ↔
    P response.space ∧ P response.op ∧ (∀ page ∈ response.page, ∀ v ∈ page.nextCursor, P v) ∧
      (∀ error ∈ response.error, ∀ v ∈ error.terms, P v) ∧ ∀ v ∈ response.payload, P v := by
  obtain ⟨space, op, served, page, error, payload⟩ := response
  cases page <;> cases error <;> simp [Response.terms, or_imp, forall_and]

theorem whenSome_ok {check : α → Except Fault Unit} {value : Option α} (h : whenSome check value = .ok ()) :
    ∀ a ∈ value, check a = .ok () := by
  rintro a rfl
  exact h

theorem writes_expected {expected : Option Int} (h : ∀ v ∈ expected, requireRpcI64 v "expected version" = .ok ()) :
    ∃ bytes, writeIf codecWriteI64Le expected = .ok bytes ∧ bytes.length = if expected.isSome then 8 else 0 := by
  cases expected with
  | none => exact ⟨[], rfl, rfl⟩
  | some v => exact ⟨_, codecWriteI64Le_ok_iff.2 ⟨requireRpcI64_ok_iff.1 (h v rfl), rfl⟩, by simp⟩

theorem writes_timeout {timeout : Option Int} (h : ∀ v ∈ timeout, requireRpcU32 v "timeout-ms" = .ok ()) :
    ∃ bytes, writeIf codecWriteU32Le timeout = .ok bytes ∧ bytes.length = if timeout.isSome then 4 else 0 := by
  cases timeout with
  | none => exact ⟨[], rfl, rfl⟩
  | some v => exact ⟨_, codecWriteU32Le_ok_iff.2 ⟨rfl, requireRpcU32_ok_iff.1 (h v rfl)⟩, by simp⟩

/-- A valid request is measured as it is written. -/
theorem meets_request {request : Request} (h : validateRpcRequest request = .ok ()) :
    Meets (rpcRequestBodyBytes request) (writeRpcRequest request) (∀ v ∈ request.terms, Writable v) := by
  simp only [validateRpcRequest, bind_eq_ok_iff] at h
  obtain ⟨_, -, _, -, _, -, _, he, _, hp, _, ht, -⟩ := h
  intro nodes n nodes' hm
  simp only [rpcRequestBodyBytes, ExceptList.stateT_bind_eq_ok_iff] at hm
  obtain ⟨space, _, hms, op, _, hmo, page, _, hmp, payload, _, hml, hm⟩ := hm
  cases hm
  obtain ⟨hs1, hs2⟩ := meets_rpcWriteTerm request.space _ _ _ hms
  obtain ⟨ho1, ho2⟩ := meets_rpcWriteTerm request.op _ _ _ hmo
  obtain ⟨hp1, hp2⟩ := Meets.addIf (fun page hpage => meets_pageRequest (whenSome_ok hp page hpage)) _ _ _ hmp
  obtain ⟨hl1, hl2⟩ := meets_rpcWriteTerm request.payload _ _ _ hml
  obtain ⟨be, hbe, hle⟩ := writes_expected (whenSome_ok he)
  obtain ⟨bt, hbt, hlt⟩ := writes_timeout (whenSome_ok ht)
  constructor
  · intro hw
    simp only [Request.terms, List.mem_cons, Option.mem_toList, forall_eq_or_imp, Option.bind_eq_some_iff] at hw
    obtain ⟨hws, hwo, hwl, hwp⟩ := hw
    obtain ⟨bs, hbs, rfl⟩ := hs1 hws
    obtain ⟨bo, hbo, rfl⟩ := ho1 hwo
    obtain ⟨bp, hbp, rfl⟩ := hp1 fun page hpage v hv => hwp v ⟨page, hpage, hv⟩
    obtain ⟨bl, hbl, rfl⟩ := hl1 hwl
    refine ⟨bs ++ (bo ++ (present request.expectedVersion ++ (be ++ (present request.page ++ (bp ++
      (present request.timeoutMs ++ (bt ++ bl))))))), ?_, ?_⟩
    · simp only [writeRpcRequest, bind_eq_ok_iff]
      exact ⟨_, hbs, _, hbo, _, hbe, _, hbp, _, hbt, _, hbl, rfl⟩
    · simp only [List.length_append, length_present, hle, hlt]
      omega
  · intro bytes hw
    simp only [writeRpcRequest, bind_eq_ok_iff] at hw
    obtain ⟨_, hbs, _, hbo, _, -, _, hbp, _, -, _, hbl, -⟩ := hw
    simp only [Request.terms, List.mem_cons, Option.mem_toList, forall_eq_or_imp, Option.bind_eq_some_iff]
    refine ⟨hs2 _ hbs, ho2 _ hbo, hl2 _ hbl, ?_⟩
    rintro v ⟨page, hpage, hv⟩
    exact hp2 _ hbp page hpage v hv

/-- A valid response is measured as it is written. -/
theorem meets_response {response : Response} (h : validateRpcResponse response = .ok ()) :
    Meets (rpcResponseBodyBytes response) (writeRpcResponse response) (∀ v ∈ response.terms, Writable v) := by
  simp only [validateRpcResponse, bind_eq_ok_iff] at h
  obtain ⟨_, -, _, -, _, -, _, hv, _, hp, _, -, -⟩ := h
  intro nodes n nodes' hm
  simp only [rpcResponseBodyBytes, ExceptList.stateT_bind_eq_ok_iff] at hm
  obtain ⟨space, _, hms, op, _, hmo, page, _, hmp, error, _, hme, payload, _, hml, hm⟩ := hm
  cases hm
  obtain ⟨hs1, hs2⟩ := meets_rpcWriteTerm response.space _ _ _ hms
  obtain ⟨ho1, ho2⟩ := meets_rpcWriteTerm response.op _ _ _ hmo
  obtain ⟨hp1, hp2⟩ := Meets.addIf (fun page hpage => meets_pageResponse (whenSome_ok hp page hpage)) _ _ _ hmp
  obtain ⟨he1, he2⟩ := Meets.addIf (fun error _ => meets_error error) _ _ _ hme
  obtain ⟨hl1, hl2⟩ := meets_writeIf_rpcWriteTerm response.payload _ _ _ hml
  have hserved := codecWriteI64Le_ok_iff.2 ⟨requireRpcI64_ok_iff.1 hv, rfl⟩
  rw [Response.forall_terms]
  constructor
  · rintro ⟨hws, hwo, hwp, hwe, hwl⟩
    obtain ⟨bs, hbs, rfl⟩ := hs1 hws
    obtain ⟨bo, hbo, rfl⟩ := ho1 hwo
    obtain ⟨bp, hbp, rfl⟩ := hp1 hwp
    obtain ⟨be, hbe, rfl⟩ := he1 hwe
    obtain ⟨bl, hbl, rfl⟩ := hl1 hwl
    refine ⟨bs ++ (bo ++ (toBytes 8 (natOfI64 response.servedVersion) ++ (present response.page ++ (bp ++ (present response.error ++
      (be ++ (present response.payload ++ bl))))))), ?_, ?_⟩
    · simp only [writeRpcResponse, bind_eq_ok_iff]
      exact ⟨_, hbs, _, hbo, _, hserved, _, hbp, _, hbe, _, hbl, rfl⟩
    · simp only [List.length_append, length_present, length_toBytes]
      omega
  · intro bytes hw
    simp only [writeRpcResponse, bind_eq_ok_iff] at hw
    obtain ⟨_, hbs, _, hbo, _, -, _, hbp, _, hbe, _, hbl, -⟩ := hw
    exact ⟨hs2 _ hbs, ho2 _ hbo, hp2 _ hbp, he2 _ hbe, hl2 _ hbl⟩

end Fram.Preflight
