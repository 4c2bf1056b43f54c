import Fram.Lemmas.Request
import Fram.Inspect

/-!
# An inspection sees what the engine decodes

Of a frame that the engine accepts, an inspection returns the space, the operation and the request id that the engine decodes, unless
the space or the operation begins with a byte order mark: that is dropped by the inspection and kept by the engine.
-/

namespace Fram.Worker

open Reader LittleEndian

/-! ## Bodies -/

theorem takes_takeEnsured {bytes : Bytes} {length : Nat} (h : bytes.length = length) (label : String) :
    Takes (takeEnsured length label) bytes bytes := by
  intro rest n
  simp only [takeEnsured]
  rw [if_pos (by rw [List.length_append]; omega), List.take_left' h, List.drop_left' h]

theorem takes_readerU8 (b : UInt8) (label : String) : Takes (readerU8 label) [b] b.toNat := by
  have h := (takes_takeEnsured (by rfl : [b].length = 1) label).map ofBytes
  rwa [show ofBytes [b] = b.toNat by simp [ofBytes]] at h

theorem takes_readerU32 {n : Nat} (hn : n < 256 ^ 4) (label : String) : Takes (readerU32 label) (toBytes 4 n) n := by
  have h := (takes_takeEnsured (length_toBytes 4 n) label).map ofBytes
  rwa [ofBytes_toBytes_of_lt hn] at h

theorem takes_readerText {text : String} {maximum : Nat} (h : (utf8Encode text).length ≤ maximum) (hm : maximum < 256 ^ 4)
    (label : String) : Takes (readerText maximum label) (sizedText text) (withoutMark text) := by
  refine (takes_readerU32 (by omega) _).bind ?_
  rw [if_neg (by omega), ← List.append_nil (utf8Encode text)]
  refine (takes_takeEnsured (by rw [List.append_nil]) label).bind ?_
  rw [textDecode_utf8Encode]
  exact takes_pure (withoutMark text)

theorem takes_stringTerm {text : String} (h : (utf8Encode text).length ≤ rpcV2MaxSpaceBytes) (label : String) :
    Takes (stringTerm label) (1 :: sizedText text) (withoutMark text) := by
  refine (takes_readerU8 1 _).bind ?_
  rw [if_neg (by decide)]
  exact takes_readerText h (by decide) label

/-- A keyword that is more than a mark. -/
theorem takes_keywordTerm {text : String} (h : (utf8Encode text).length ≤ rpcV2MaxStringBytes) (hne : withoutMark text ≠ "")
    (label : String) : Takes (keywordTerm label) (6 :: sizedText text) (withoutMark text) := by
  refine (takes_readerU8 6 _).bind ?_
  rw [if_neg (by decide)]
  have ht := (takes_readerText h (by decide) label).bind
    (f := fun value => if value = "" then fail ⟨"request/invalid-record", label ++ " is empty"⟩ else pure value)
    (by rw [if_neg hne]; exact takes_pure (withoutMark text))
  rwa [List.append_nil] at ht

/-- A keyword that is a mark and nothing else. -/
theorem keywordTerm_empty {text : String} (h : (utf8Encode text).length ≤ rpcV2MaxStringBytes) (he : withoutMark text = "")
    (label : String) (rest : Bytes) : ∃ fault, keywordTerm label ⟨6 :: sizedText text ++ rest, ()⟩ = .error fault := by
  refine ⟨⟨"request/invalid-record", label ++ " is empty"⟩, ?_⟩
  have htag : readerU8 (label ++ " tag") ⟨6 :: sizedText text ++ rest, ()⟩ = .ok (6, ⟨sizedText text ++ rest, ()⟩) :=
    takes_readerU8 6 (label ++ " tag") _ ()
  have hmax : (utf8Encode text).length ≤ FRAMRPC_MAX_BODY_BYTES := h
  have htext := takes_readerText hmax (by decide) label rest ()
  rw [keywordTerm, bind_of_ok htag, if_neg (by decide), bind_of_ok htext, if_pos he]
  rfl

/-! ## Frames -/

section Frame

variable {request : RpcRequest} {requestId : Int} {rest : Bytes}

/-- Where the header of a frame is read. -/
theorem field_frameAround (body : Bytes) (hid : InI64 requestId) (hbody : body.length ≤ rpcV2MaxBodyBytes) :
    (frameAround requestId body).take 8 = FRAMRPC_MAGIC ∧ field (frameAround requestId body) 8 2 = 2 ∧
      field (frameAround requestId body) 10 2 = 0 ∧ field (frameAround requestId body) 12 1 = 1 ∧
      field (frameAround requestId body) 13 1 = 0 ∧ field (frameAround requestId body) 14 4 = body.length ∧
      i64OfNat (field (frameAround requestId body) 18 8) = requestId ∧
      (frameAround requestId body).drop FRAMRPC_HEADER_BYTES = body :=
  fields_framed (by decide) hid hbody

/-- Behind a header of the protocol, an inspection is what it reads of the body. -/
theorem inspect_frameAround (body : Bytes) (hid : InI64 requestId) (hbody : body.length ≤ rpcV2MaxBodyBytes) :
    inspectFramRpcRequest (frameAround requestId body) =
      inspectBody ⟨body, ()⟩ >>= fun r => checkNames requestId (26 + body.length) body.length r.1.1 r.1.2 := by
  obtain ⟨hmagic, hmajor, hminor, hkind, hflags, hlength, hnumber, hdrop⟩ := field_frameAround body hid hbody
  have hl := length_frameAround requestId body
  simp only [rpcV2MaxBodyBytes] at hbody
  simp only [inspectFramRpcRequest, hmagic, hmajor, hminor, hkind, hflags, hlength, hnumber, hdrop, hl]
  have hheader : ¬ 26 + body.length < FRAMRPC_HEADER_BYTES := by simp [FRAMRPC_HEADER_BYTES]
  have hframe : ¬ FRAMRPC_MAX_FRAME_BYTES < 26 + body.length := by
    simp only [FRAMRPC_MAX_FRAME_BYTES, FRAMRPC_HEADER_BYTES, FRAMRPC_MAX_BODY_BYTES]
    omega
  have hmax : ¬ FRAMRPC_MAX_BODY_BYTES < body.length := by
    simp only [FRAMRPC_MAX_BODY_BYTES]
    omega
  have hexact : ¬ 26 + body.length ≠ FRAMRPC_HEADER_BYTES + body.length := by simp [FRAMRPC_HEADER_BYTES]
  rw [if_neg hheader, if_neg hframe, if_neg (by simp), if_neg (by simp), if_neg (by simp), if_neg (by simp), if_neg hmax,
    if_neg hexact]

theorem takes_inspectBody (h : EnvelopeFits request) (hne : withoutMark request.op.spelling ≠ "") :
    Takes inspectBody (envelope request) (withoutMark request.space, withoutMark request.op.spelling) := by
  refine (takes_stringTerm h.space "SpaceId").bind ?_
  exact (takes_keywordTerm h.op hne "operation").map fun operation => (withoutMark request.space, operation)

/-- The envelope is authorised under the names without their marks. -/
theorem inspect_authorises (h : EnvelopeFits request) (hid : InI64 requestId)
    (hbody : (envelope request ++ rest).length ≤ rpcV2MaxBodyBytes) (hspace : withoutMark request.space ≠ "")
    (hop : withoutMark request.op.spelling ∈ FRAMRPC_OPERATIONS) :
    inspectFramRpcRequest (frameAround requestId (envelope request ++ rest)) =
      .ok ⟨withoutMark request.space, withoutMark request.op.spelling, requestId, 26 + (envelope request ++ rest).length,
        (envelope request ++ rest).length⟩ := by
  have hne : withoutMark request.op.spelling ≠ "" := by
    intro he
    rw [he] at hop
    exact absurd hop (by decide)
  have hle : (utf8Encode (withoutMark request.space)).length ≤ 4096 := (length_withoutMark_le _).trans h.space
  rw [inspect_frameAround _ hid hbody, takes_inspectBody h hne rest ()]
  show checkNames _ _ _ _ _ = _
  rw [checkNames, if_neg (by simp [hspace, FRAMRPC_MAX_SPACE_BYTES, hle]), if_neg (by simpa using hop)]

/-- The envelope is refused: without its mark the space is empty, or the operation is not of the protocol. -/
theorem inspect_refuses (h : EnvelopeFits request) (hid : InI64 requestId) (hbody : (envelope request ++ rest).length ≤ rpcV2MaxBodyBytes)
    (hnot : withoutMark request.space = "" ∨ withoutMark request.op.spelling ∉ FRAMRPC_OPERATIONS) :
    ∃ fault, inspectFramRpcRequest (frameAround requestId (envelope request ++ rest)) = .error fault := by
  have hspace := takes_stringTerm h.space "SpaceId"
  rw [inspect_frameAround _ hid hbody]
  by_cases hne : withoutMark request.op.spelling = ""
  · obtain ⟨fault, hfault⟩ := keywordTerm_empty h.op hne "operation" rest
    have hread : inspectBody ⟨envelope request ++ rest, ()⟩ = .error fault := by
      have hfirst := hspace (6 :: sizedText request.op.spelling ++ rest) ()
      rw [envelope, ← List.cons_append, List.append_assoc, inspectBody, bind_of_ok hfirst]
      exact bind_of_error hfault
    rw [hread]
    exact ⟨fault, rfl⟩
  · rw [takes_inspectBody h hne rest ()]
    show ∃ fault, checkNames _ _ _ _ _ = .error fault
    rw [checkNames]
    split
    · exact ⟨_, rfl⟩
    · rename_i hs
      rw [if_pos]
      · exact ⟨_, rfl⟩
      · rcases hnot with he | hop
        · exact absurd (Or.inl he) hs
        · exact hop

end Frame

/-- What an inspection says agrees with what the engine decodes: it refuses, or it returns the same names and number. -/
def Agrees (inspection : Except RequestError Inspected) (requestId : Int) (request : RpcRequest) : Prop :=
  (∃ fault, inspection = .error fault) ∨
  ∃ inspected, inspection = .ok inspected ∧ inspected.space = request.space ∧ inspected.operation = request.op.spelling ∧
    inspected.requestId = requestId

/-- The names of a request have no mark to lose, or the inspection refuses them without their marks. -/
def NamesKept (request : RpcRequest) : Prop :=
  (marked request.space = false ∧ marked request.op.spelling = false) ∨ withoutMark request.space = "" ∨
    withoutMark request.op.spelling ∉ FRAMRPC_OPERATIONS

/-- Of every byte string, whatever the engine decodes of it, an inspection agrees exactly when the names have no byte order mark in
front that it drops before it authorises them. -/
theorem inspection_agrees (bytes : Bytes) : (∀ frame request, decodeRequestBytes bytes = .ok frame → frame.request = some request →
      Agrees (inspectFramRpcRequest bytes) frame.requestId request) ↔
    ∀ frame request, decodeRequestBytes bytes = .ok frame → frame.request = some request → NamesKept request := by
  refine forall_congr' fun frame => forall_congr' fun request => forall_congr' fun hdecode => forall_congr' fun hrequest => ?_
  obtain ⟨requestId, request', body, n, rfl, rfl, hid, hbody, hread⟩ := decodeRequestBytes_eq_ok_iff.1 hdecode
  cases hrequest
  obtain ⟨hfits, -, u1, u2, u3, u4, -, -, -, rfl, -⟩ := hread
  by_cases hnot : withoutMark request.space = "" ∨ withoutMark request.op.spelling ∉ FRAMRPC_OPERATIONS
  · exact ⟨fun _ => Or.inr hnot, fun _ => Or.inl (inspect_refuses hfits hid hbody hnot)⟩
  · have hok := inspect_authorises hfits hid hbody (fun he => hnot (Or.inl he)) (by_contra fun hop => hnot (Or.inr hop))
    constructor
    · intro h
      rcases h with ⟨fault, hf⟩ | ⟨inspected, hi, hs, ho, -⟩
      · rw [hok] at hf
        cases hf
      · rw [hok] at hi
        cases hi
        exact Or.inl ⟨withoutMark_eq_iff.1 hs, withoutMark_eq_iff.1 ho⟩
    · intro h
      rcases h with ⟨hs, ho⟩ | h
      · exact Or.inr ⟨_, hok, withoutMark_eq_iff.2 hs, withoutMark_eq_iff.2 ho, rfl⟩
      · exact absurd h hnot

/-- A request for the version of the space that is named by a byte order mark and the letter `a`. -/
def markedRequest : Bytes :=
  [0x46, 0x52, 0x41, 0x4d, 0x52, 0x50, 0x43, 0x00, 2, 0, 0, 0, 1, 0, 29, 0, 0, 0, 0, 0, 0, 0, 0, 0, 0, 0,
    1, 4, 0, 0, 0, 0xef, 0xbb, 0xbf, 0x61,
    6, 11, 0, 0, 0, 0x72, 0x70, 0x63, 0x2f, 0x76, 0x65, 0x72, 0x73, 0x69, 0x6f, 0x6e, 0, 0, 0, 4]

/-- The engine decodes the name of the space with its mark, and the inspection authorises the space `a`. -/
theorem inspection_drops_mark : ∃ frame request, decodeRequestBytes markedRequest = .ok frame ∧ frame.request = some request ∧
    request.space = "\uFEFFa" ∧ ¬ Agrees (inspectFramRpcRequest markedRequest) frame.requestId request := by
  have hdecode : decodeRequestBytes markedRequest =
      .ok ⟨⟨"request"⟩, 0, 0, some ⟨"\uFEFFa", ⟨"rpc/version"⟩, none, none, none, .bool false⟩, none⟩ := by with_unfolding_all decide
  have hinspect : inspectFramRpcRequest markedRequest = .ok ⟨"a", "rpc/version", 0, 55, 29⟩ := by with_unfolding_all decide
  refine ⟨_, _, hdecode, rfl, rfl, ?_⟩
  intro h
  rw [hinspect] at h
  rcases h with ⟨fault, hf⟩ | ⟨inspected, hi, hs, -⟩
  · cases hf
  · cases hi
    exact absurd hs (by decide)

end Fram.Worker
