import Fram.Lemmas.Preflight

/-!
# The size preflight is exact

A frame that the JVM's codec accepts is one that it validates and measures. What it measures is what it writes whenever the integers of
its terms are longs and the nanoseconds of its instants are of 32 bits; the measuring pass looks at neither, and takes nine bytes for an
integer of any size, which the writing pass then cannot write.
-/

namespace Fram.Preflight

open Database Framrpc LittleEndian
open ExceptList (bind_eq_ok_iff)

/-- The terms of a frame's body. -/
def Frame.terms (frame : Frame) : List Value :=
  match frame.asRequest, frame.asResponse with
  | some request, _ => request.terms
  | none, some response => response.terms
  | none, none => []

/-- The body of a frame is written in the bytes that were measured, the two sizes never disagree, and the frame is refused for its size
exactly when its body is over the limit. -/
structure Exact (frame : Frame) (n : Nat) : Prop where
  written : ∃ body, writeBody frame = .ok body ∧ body.length = n
  agree : encodeRpcFrameV2 frame ≠ .error sizeMismatch
  refused : encodeRpcFrameV2 frame = .error frameTooLarge ↔ ∃ body, writeBody frame = .ok body ∧ rpcV2MaxBodyBytes < body.length

variable {frame : Frame} {n : Nat}

/-- A validated frame has a request that is, or a response that is. -/
theorem of_validateRpcFrame (h : validateRpcFrame frame = .ok ()) : InI64 frame.requestId ∧ (∃ code, rpcKindCode frame.kind = .ok code) ∧
      (∀ request ∈ frame.asRequest, validateRpcRequest request = .ok ()) ∧
      ∀ response ∈ frame.asResponse, validateRpcResponse response = .ok () := by
  obtain ⟨kind, flags, requestId, request, response⟩ := frame
  simp only [validateRpcFrame, bind_eq_ok_iff] at h
  obtain ⟨_, -, _, hid, h⟩ := h
  refine ⟨requireRpcI64_ok_iff.1 hid, ?_⟩
  simp only [rpcKindCode, Frame.asRequest, Frame.asResponse]
  by_cases hreq : kind = ⟨"request"⟩
  · subst hreq
    rw [if_pos rfl] at h
    cases request with
    | none => cases h
    | some request =>
      cases response with
      | some response => cases h
      | none => simpa using h
  · rw [if_neg hreq] at h
    by_cases hresp : kind = ⟨"response"⟩ ∨ kind = ⟨"event"⟩
    · rw [if_pos hresp] at h
      cases request with
      | some request => cases h
      | none =>
        cases response with
        | none => cases h
        | some response =>
          rcases hresp with rfl | rfl
          · simpa using h
          · simpa using h
    · rw [if_neg hresp] at h
      by_cases hcancel : kind = ⟨"cancel"⟩
      · subst hcancel
        simp
      · rw [if_neg hcancel] at h
        cases h

/-- The body of a frame that is measured. -/
theorem meets_body (h : measuredBody frame = .ok n) :
    ((∀ v ∈ frame.terms, Writable v) → ∃ body, writeBody frame = .ok body ∧ body.length = n) ∧
      ∀ body, writeBody frame = .ok body → ∀ v ∈ frame.terms, Writable v := by
  simp only [measuredBody, bind_eq_ok_iff] at h
  obtain ⟨_, hv, ⟨size, nodes⟩, hm, hn⟩ := h
  cases hn
  obtain ⟨-, -, hrequest, hresponse⟩ := of_validateRpcFrame hv
  rw [writeBody, Frame.terms]
  cases hq : frame.asRequest with
  | some request =>
    rw [hq] at hm
    exact meets_request (hrequest request hq) _ _ _ hm
  | none =>
    rw [hq] at hm
    cases hr : frame.asResponse with
    | some response =>
      rw [hr] at hm
      exact meets_response (hresponse response hr) _ _ _ hm
    | none =>
      rw [hr] at hm
      cases hm
      exact ⟨fun _ => ⟨[], rfl, rfl⟩, fun _ _ => by simp⟩

/-- A frame over the limit is refused for its size. -/
theorem encode_of_large (h : measuredBody frame = .ok n) (hn : rpcV2MaxBodyBytes < n) : encodeRpcFrameV2 frame = .error frameTooLarge := by
  have hsize : rpcBodyBytes frame = .error frameTooLarge := by
    simp only [rpcBodyBytes, h]
    exact if_pos hn
  rw [encodeRpcFrameV2, hsize]
  rfl

/-- A frame within the limit that is written as measured is encoded. -/
theorem encode_of_written {body : Bytes} (h : measuredBody frame = .ok body.length) (hb : writeBody frame = .ok body)
    (hn : body.length ≤ rpcV2MaxBodyBytes) : ∃ bytes, encodeRpcFrameV2 frame = .ok bytes := by
  have hv : validateRpcFrame frame = .ok () := by
    simp only [measuredBody, bind_eq_ok_iff] at h
    exact h.choose_spec.1
  obtain ⟨hid, ⟨code, hcode⟩, -, -⟩ := of_validateRpcFrame hv
  have hsize : rpcBodyBytes frame = .ok body.length := by
    simp only [rpcBodyBytes, h]
    exact if_neg (by omega)
  have hlength : codecWriteU32Le body.length = .ok (toBytes 4 body.length) := by
    have : body.length ≤ 1048576 := hn
    exact codecWriteU32Le_ok_iff.2 ⟨rfl, by omega, by omega⟩
  refine ⟨rpcV2Magic ++ (toBytes 2 2 ++ (toBytes 2 0 ++ (UInt8.ofNat code :: 0 ::
    (toBytes 4 body.length ++ (toBytes 8 (natOfI64 frame.requestId) ++ body))))), ?_⟩
  rw [encodeRpcFrameV2, bind_eq_ok_iff]
  refine ⟨_, hsize, ?_⟩
  rw [bind_eq_ok_iff]
  refine ⟨_, hb, ?_⟩
  rw [if_pos rfl]
  simp only [bind_eq_ok_iff]
  exact ⟨_, hcode, _, hlength, _, codecWriteI64Le_ok_iff.2 ⟨hid, rfl⟩, rfl⟩

/-- For every frame that is validated and measured, the measure is exact if and only if the integers of the frame's terms are longs and
the nanoseconds of its instants are of 32 bits. -/
theorem size_preflight {frame : Frame} {n : Nat} (h : measuredBody frame = .ok n) : Exact frame n ↔ ∀ v ∈ frame.terms, Writable v := by
  obtain ⟨hwrites, honly⟩ := meets_body h
  constructor
  · intro he
    obtain ⟨body, hb, -⟩ := he.written
    exact honly body hb
  · intro hw
    obtain ⟨body, hb, rfl⟩ := hwrites hw
    have hlimit : (∃ body', writeBody frame = .ok body' ∧ rpcV2MaxBodyBytes < body'.length) ↔ rpcV2MaxBodyBytes < body.length := by
      rw [hb]
      simp
    by_cases hlt : rpcV2MaxBodyBytes < body.length
    · have hlarge := encode_of_large h hlt
      refine ⟨⟨body, hb, rfl⟩, ?_, ?_⟩
      · rw [hlarge]
        decide
      · rw [hlarge, hlimit]
        simpa using hlt
    · obtain ⟨bytes, hbytes⟩ := encode_of_written h hb (by omega)
      refine ⟨⟨body, hb, rfl⟩, ?_, ?_⟩
      · rw [hbytes]
        simp
      · rw [hbytes, hlimit]
        simpa using hlt

/-- A response whose payload is a long. -/
theorem size_preflight_long : Exact ⟨⟨"response"⟩, 0, 1, none, some ⟨.string [115], .keyword [97], 3, none, none, some (.int 7)⟩⟩ 32 :=
  (size_preflight (by with_unfolding_all decide)).2 (by simp [Frame.terms, Frame.asRequest, Frame.asResponse, Response.terms, Writable, InI64])

/-- The payload 2^63 is measured, and its frame cannot be written. -/
theorem size_preflight_big : ∃ frame n, measuredBody frame = .ok n ∧ ¬ Exact frame n := by
  refine ⟨⟨⟨"response"⟩, 0, 1, none, some ⟨.string [115], .keyword [97], 3, none, none, some (.int 9223372036854775808)⟩⟩, 32,
    by with_unfolding_all decide, ?_⟩
  rintro ⟨⟨body, hb, -⟩, -, -⟩
  have hfail : (writeBody ⟨⟨"response"⟩, 0, 1, none,
      some ⟨.string [115], .keyword [97], 3, none, none, some (.int 9223372036854775808)⟩⟩).isOk = false := by with_unfolding_all decide
  rw [hb] at hfail
  cases hfail

end Fram.Preflight
