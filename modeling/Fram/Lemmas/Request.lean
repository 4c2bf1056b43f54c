import Fram.Lemmas.Wire
import Fram.Lib.ExceptList

/-!
# The bytes of a request

What `decode-request-bytes!` takes for a request: the header, the envelope, and the optional parts behind their presence bytes. Each
reader is exact, as those of terms are.
-/

namespace Fram

open Reader LittleEndian

/-- What is read as a term, with the limits of the wire: bytes that stand for it. -/
def TermRead (n : Nat) (t : Term) (used : Bytes) (n' : Nat) : Prop :=
  t.Encoded used ∧ n' = n + t.nodes ∧ n' ≤ rpcV2MaxTermNodes ∧ t.height ≤ termCodecV1MaxDepth ∧ t.Fits rpcV2MaxStringBytes ∧ t.Ranged

theorem exact_readTerm : Exact (readTerm 0) TermRead := by
  refine (exact_readTermAt (by decide) rpcV2MaxTermNodes (termCodecV1MaxDepth + 1 - 0)).congr ?_
  intro n t used n'
  simp only [TermRead, Nat.sub_zero, Nat.lt_succ_iff]

theorem exact_readSpaceTerm :
    Exact readSpaceTerm fun n space used n' => used = 1 :: sizedText space ∧ (utf8Encode space).length ≤ rpcV2MaxSpaceBytes ∧
      n' = n + 1 ∧ n + 1 ≤ rpcV2MaxTermNodes := by
  refine ((exact_countNode _).bind fun _ => (exact_readU8 _).bind fun tag => Exact.ite (c := tag = 1)
    (exact_readSizedText (by decide) _) (exact_fail _)).congr ?_
  intro n space used n'
  constructor
  · rintro ⟨-, u, w, m, rfl, ⟨rfl, rfl, hm⟩, tag, u', w', m', rfl, ⟨rfl, -, rfl⟩, ⟨rfl, rfl, hs, rfl⟩ | ⟨-, hf⟩⟩
    · exact ⟨rfl, hs, rfl, hm⟩
    · exact hf.elim
  · rintro ⟨rfl, hs, rfl, hm⟩
    exact ⟨(), [], _, _, rfl, ⟨rfl, rfl, hm⟩, 1, _, _, _, rfl, ⟨rfl, by decide, rfl⟩, .inl ⟨rfl, rfl, hs, rfl⟩⟩

theorem exact_readKeywordTerm (label : String) :
    Exact (readKeywordTerm label) fun n k used n' => used = 6 :: sizedText k.spelling ∧ k.spelling ≠ "" ∧
      (utf8Encode k.spelling).length ≤ rpcV2MaxStringBytes ∧ n' = n + 1 ∧ n + 1 ≤ rpcV2MaxTermNodes := by
  refine (exact_readTerm.bind (S := fun t n k used n' => t = .atom (.keyword k) ∧ used = [] ∧ n' = n) ?_).congr ?_
  · intro t
    cases t with
    | atom a =>
      cases a with
      | keyword k =>
        refine (exact_pure k).congr ?_
        intro n k' used n'
        simp only [Term.atom.injEq, Atom.keyword.injEq, eq_comm]
      | _ => exact (exact_fail _).congr fun n k used n' => by simp
    | triple t1 t2 t3 => exact (exact_fail _).congr fun n k used n' => by simp
  · intro n k used n'
    constructor
    · rintro ⟨t, u, w, m, rfl, ⟨he, rfl, hm, -, hf, -⟩, rfl, rfl, rfl⟩
      have he' : u = 6 :: sizedText k.spelling := he
      have hf' : k.spelling ≠ "" ∧ (utf8Encode k.spelling).length ≤ rpcV2MaxStringBytes := hf
      exact ⟨by rw [List.append_nil, he'], hf'.1, hf'.2, rfl, hm⟩
    · rintro ⟨rfl, hne, hl, rfl, hm⟩
      exact ⟨.atom (.keyword k), _, [], _, (List.append_nil _).symm, ⟨rfl, rfl, hm, Nat.zero_le _, ⟨hne, hl⟩, trivial⟩, rfl, rfl, rfl⟩

theorem exact_readPresence (context : String) : Exact (readPresence context) fun n b used n' => used = [if b then 1 else 0] ∧ n' = n := by
  refine ((exact_readU8 context).bind fun value => Exact.ite (c := value = 0) (exact_pure false)
    (Exact.ite (c := value = 1) (exact_pure true) (exact_fail _))).congr ?_
  intro n b used n'
  constructor
  · rintro ⟨value, u, w, m, rfl, ⟨rfl, -, rfl⟩, ⟨rfl, rfl, rfl, rfl⟩ | ⟨-, ⟨rfl, rfl, rfl, rfl⟩ | ⟨-, hf⟩⟩⟩
    · exact ⟨rfl, rfl⟩
    · exact ⟨rfl, rfl⟩
    · exact hf.elim
  · rintro ⟨rfl, rfl⟩
    cases b with
    | false => exact ⟨0, _, [], _, rfl, ⟨rfl, by decide, rfl⟩, .inl ⟨rfl, rfl, rfl, rfl⟩⟩
    | true => exact ⟨1, _, [], _, rfl, ⟨rfl, by decide, rfl⟩, .inr ⟨by decide, .inl ⟨rfl, rfl, rfl, rfl⟩⟩⟩

/-- What is read as an optional value. -/
def OptionRead {α : Type} (R : Nat → α → Bytes → Nat → Prop) (n : Nat) : Option α → Bytes → Nat → Prop
  | none, used, n' => used = [0] ∧ n' = n
  | some a, used, n' => ∃ u, used = 1 :: u ∧ R n a u n'

theorem exact_readOptional {α : Type} (context : String) {read : Read α} {R : Nat → α → Bytes → Nat → Prop} (h : Exact read R) :
    Exact (readOptional context read) (OptionRead R) := by
  have hsome : Exact (some <$> read) fun n v used n' => ∃ a, v = some a ∧ R n a used n' := by
    refine (h.bind fun a => exact_pure (some a)).congr ?_
    intro n v used n'
    constructor
    · rintro ⟨a, u, w, m, rfl, hr, rfl, rfl, rfl⟩
      exact ⟨a, rfl, by rwa [List.append_nil]⟩
    · rintro ⟨a, rfl, hr⟩
      exact ⟨a, used, [], n', (List.append_nil _).symm, hr, rfl, rfl, rfl⟩
  refine ((exact_readPresence context).bind fun b => Exact.ite (c := b = true) hsome (exact_pure none)).congr ?_
  intro n v used n'
  constructor
  · rintro ⟨b, u, w, m, rfl, ⟨rfl, rfl⟩, ⟨rfl, a, rfl, hr⟩ | ⟨hb, rfl, rfl, rfl⟩⟩
    · exact ⟨w, rfl, hr⟩
    · exact ⟨by simp [hb], rfl⟩
  · intro hr
    cases v with
    | none =>
      obtain ⟨rfl, rfl⟩ := hr
      exact ⟨false, [0], [], _, rfl, ⟨rfl, rfl⟩, .inr ⟨by decide, rfl, rfl, rfl⟩⟩
    | some a =>
      obtain ⟨u, rfl, hr⟩ := hr
      exact ⟨true, [1], u, _, rfl, ⟨rfl, rfl⟩, .inl ⟨rfl, a, rfl, hr⟩⟩

/-- What is read as a page request. -/
def PageRead (n : Nat) (page : RpcPageRequest) (used : Bytes) (n' : Nat) : Prop :=
  ∃ u, used = toBytes 4 page.limit ++ u ∧ page.limit < 256 ^ 4 ∧ OptionRead TermRead n page.cursor u n'

theorem exact_readPageRequest : Exact readPageRequest PageRead := by
  refine ((exact_readLe _ 4).bind fun limit => (exact_readOptional _ exact_readTerm).bind fun cursor =>
    exact_pure (⟨limit, cursor⟩ : RpcPageRequest)).congr ?_
  intro n page used n'
  constructor
  · rintro ⟨limit, u, w, m, rfl, ⟨rfl, hl, rfl⟩, cursor, u', w', m', rfl, hc, rfl, rfl, rfl⟩
    exact ⟨u', by rw [List.append_nil], hl, hc⟩
  · rintro ⟨u, rfl, hl, hc⟩
    exact ⟨_, _, _, _, rfl, ⟨rfl, hl, rfl⟩, _, u, [], n', (List.append_nil _).symm, hc, rfl, rfl, rfl⟩

/-- What is read as a 64-bit number. -/
def I64Read (n : Nat) (v : Int) (used : Bytes) (n' : Nat) : Prop := used = toBytes 8 (natOfI64 v) ∧ InI64 v ∧ n' = n

/-- What is read as an unsigned 32-bit number. -/
def U32Read (n : Nat) (v : Nat) (used : Bytes) (n' : Nat) : Prop := used = toBytes 4 v ∧ v < 256 ^ 4 ∧ n' = n

/-- The start of the body of a request. -/
def envelope (request : RpcRequest) : Bytes := 1 :: (sizedText request.space ++ (6 :: sizedText request.op.spelling))

/-- The envelope is within the limits. -/
structure EnvelopeFits (request : RpcRequest) : Prop where
  space : (utf8Encode request.space).length ≤ rpcV2MaxSpaceBytes
  op_ne : request.op.spelling ≠ ""
  op : (utf8Encode request.op.spelling).length ≤ rpcV2MaxStringBytes

/-- What is read as a request body: the envelope, and then the optional parts and the payload. -/
def RequestRead (n : Nat) (request : RpcRequest) (used : Bytes) (n' : Nat) : Prop :=
  EnvelopeFits request ∧ n + 2 ≤ rpcV2MaxTermNodes ∧ ∃ u1 u2 u3 u4 m1 m2 m3,
    used = envelope request ++ (u1 ++ (u2 ++ (u3 ++ u4))) ∧ OptionRead I64Read (n + 2) request.expectedVersion u1 m1 ∧
      OptionRead PageRead m1 request.page u2 m2 ∧ OptionRead U32Read m2 request.timeoutMs u3 m3 ∧ TermRead m3 request.payload u4 n'

/-- A request body is read as it is written. -/
theorem exact_readRequestBody : Exact readRequestBody RequestRead := by
  refine (exact_readSpaceTerm.bind fun space => (exact_readKeywordTerm _).bind fun op =>
    (exact_readOptional _ (exact_readI64Le _)).bind fun expected => (exact_readOptional _ exact_readPageRequest).bind fun page =>
      (exact_readOptional _ (exact_readLe _ 4)).bind fun timeout => exact_readTerm.bind fun payload =>
        exact_pure (⟨space, op, expected, page, timeout, payload⟩ : RpcRequest)).congr ?_
  intro n request used n'
  constructor
  · rintro ⟨space, a, b, m, rfl, ⟨rfl, hs, rfl, -⟩, op, a1, b1, m1, rfl, ⟨rfl, hne, ho, rfl, hm⟩, expected, a2, b2, m2, rfl, he, page,
      a3, b3, m3, rfl, hp, timeout, a4, b4, m4, rfl, ht, payload, a5, b5, m5, rfl, hterm, rfl, rfl, rfl⟩
    refine ⟨⟨hs, hne, ho⟩, hm, a2, a3, a4, a5, m2, m3, m4, ?_, he, hp, ht, hterm⟩
    simp [envelope]
  · rintro ⟨⟨hs, hne, ho⟩, hm, a2, a3, a4, a5, m2, m3, m4, rfl, he, hp, ht, hterm⟩
    refine ⟨request.space, 1 :: sizedText request.space, _, n + 1, ?_, ⟨rfl, hs, rfl, by omega⟩, request.op,
      6 :: sizedText request.op.spelling, _, n + 2, rfl, ⟨rfl, hne, ho, rfl, by omega⟩, _, a2, _, m2, rfl, he, _, a3, _, m3, rfl, hp,
      _, a4, _, m4, rfl, ht, _, a5, [], n', (List.append_nil _).symm, hterm, rfl, rfl, rfl⟩
    simp [envelope]

/-- The header of a frame after its magic. -/
def rpcHeaderBytes (major minor kind flags bodyBytes : Nat) (requestId : Int) : Bytes :=
  toBytes 2 major ++ (toBytes 2 minor ++ (UInt8.ofNat kind :: UInt8.ofNat flags :: (toBytes 4 bodyBytes ++ toBytes 8 (natOfI64 requestId))))

/-- A frame header is read as it is written. -/
theorem exact_readFrameHeader : Exact readFrameHeader fun n h used n' =>
      used = rpcHeaderBytes h.1 h.2.1 h.2.2.1 h.2.2.2.1 h.2.2.2.2.1 h.2.2.2.2.2 ∧ h.1 < 256 ^ 2 ∧ h.2.1 < 256 ^ 2 ∧ h.2.2.1 < 256 ∧
        h.2.2.2.1 < 256 ∧ h.2.2.2.2.1 < 256 ^ 4 ∧ InI64 h.2.2.2.2.2 ∧ n' = n := by
  refine ((exact_readLe _ 2).bind fun major => (exact_readLe _ 2).bind fun minor => (exact_readU8 _).bind fun kind =>
    (exact_readU8 _).bind fun flags => (exact_readLe _ 4).bind fun bodyBytes => (exact_readI64Le _).bind fun requestId =>
      exact_pure (major, minor, kind, flags, bodyBytes, requestId)).congr ?_
  intro n h used n'
  constructor
  · rintro ⟨major, a, b, m, rfl, ⟨rfl, h1, rfl⟩, minor, a1, b1, m1, rfl, ⟨rfl, h2, rfl⟩, kind, a2, b2, m2, rfl, ⟨rfl, h3, rfl⟩, flags,
      a3, b3, m3, rfl, ⟨rfl, h4, rfl⟩, body, a4, b4, m4, rfl, ⟨rfl, h5, rfl⟩, id, a5, b5, m5, rfl, ⟨rfl, h6, rfl⟩, rfl, rfl, rfl⟩
    exact ⟨by simp [rpcHeaderBytes], h1, h2, h3, h4, h5, h6, rfl⟩
  · obtain ⟨major, minor, kind, flags, body, id⟩ := h
    rintro ⟨rfl, h1, h2, h3, h4, h5, h6, rfl⟩
    exact ⟨major, _, _, _, rfl, ⟨rfl, h1, rfl⟩, minor, _, _, _, rfl, ⟨rfl, h2, rfl⟩, kind, [UInt8.ofNat kind], _, _, rfl,
      ⟨rfl, h3, rfl⟩, flags, [UInt8.ofNat flags], _, _, rfl, ⟨rfl, h4, rfl⟩, body, _, _, _, rfl, ⟨rfl, h5, rfl⟩, id, _, [], _,
      (List.append_nil _).symm, ⟨rfl, h6, rfl⟩, rfl, rfl, rfl⟩

theorem length_rpcHeaderBytes (major minor kind flags bodyBytes : Nat) (requestId : Int) :
    (rpcHeaderBytes major minor kind flags bodyBytes requestId).length = 18 := by
  simp [rpcHeaderBytes]

/-- The bytes of a frame of some kind around a body. -/
def framed (kind : Nat) (requestId : Int) (body : Bytes) : Bytes := rpcV2Magic ++ (rpcHeaderBytes 2 0 kind 0 body.length requestId ++ body)

theorem length_framed (kind : Nat) (requestId : Int) (body : Bytes) : (framed kind requestId body).length = 26 + body.length := by
  rw [framed, List.length_append, List.length_append, length_rpcHeaderBytes, ← Nat.add_assoc]
  rfl

/-- Where the header of a frame is read. -/
theorem fields_framed {kind : Nat} (hkind : kind < 256) {requestId : Int} {body : Bytes} (hid : InI64 requestId)
    (hbody : body.length ≤ rpcV2MaxBodyBytes) :
    (framed kind requestId body).take 8 = rpcV2Magic ∧ ofBytes (((framed kind requestId body).drop 8).take 2) = 2 ∧
      ofBytes (((framed kind requestId body).drop 10).take 2) = 0 ∧ ofBytes (((framed kind requestId body).drop 12).take 1) = kind ∧
      ofBytes (((framed kind requestId body).drop 13).take 1) = 0 ∧
      ofBytes (((framed kind requestId body).drop 14).take 4) = body.length ∧
      i64OfNat (ofBytes (((framed kind requestId body).drop 18).take 8)) = requestId ∧ (framed kind requestId body).drop 26 = body := by
  have hmax : body.length < 256 ^ 4 := by
    simp only [rpcV2MaxBodyBytes] at hbody
    omega
  have hlength : (framed kind requestId body).drop 14 = toBytes 4 body.length ++ (toBytes 8 (natOfI64 requestId) ++ body) := by
    show (toBytes 4 body.length ++ toBytes 8 (natOfI64 requestId)) ++ body = _
    rw [List.append_assoc]
  have hnumber : (framed kind requestId body).drop 18 = toBytes 8 (natOfI64 requestId) ++ body := by
    rw [show 18 = 14 + 4 from rfl, ← List.drop_drop, hlength, List.drop_left' (length_toBytes 4 _)]
  refine ⟨rfl, rfl, rfl, ?_, rfl, ?_, ?_, ?_⟩
  · show ofBytes (toBytes 1 kind) = kind
    exact ofBytes_toBytes_of_lt (by omega)
  · rw [hlength, List.take_left' (length_toBytes 4 _), ofBytes_toBytes_of_lt hmax]
  · rw [hnumber, List.take_left' (length_toBytes 8 _), ofBytes_toBytes_of_lt (natOfI64_lt _), i64OfNat_natOfI64 hid]
  · rw [show 26 = 18 + 8 from rfl, ← List.drop_drop, hnumber, List.drop_left' (length_toBytes 8 _)]

/-- The bytes of the frame of a request around a body. -/
def frameAround (requestId : Int) (body : Bytes) : Bytes := framed 1 requestId body

theorem length_frameAround (requestId : Int) (body : Bytes) : (frameAround requestId body).length = 26 + body.length :=
  length_framed 1 requestId body

/-- What the decoder accepts: a header with the versions and the flags of the protocol, around a body within the limits. -/
theorem decodeRequestBytes_eq_ok_iff {bytes : Bytes} {frame : RpcFrameV2} :
    decodeRequestBytes bytes = .ok frame ↔ ∃ requestId request body n,
      frame = ⟨⟨"request"⟩, 0, requestId, some request, none⟩ ∧ bytes = frameAround requestId body ∧ InI64 requestId ∧
        body.length ≤ rpcV2MaxBodyBytes ∧ RequestRead 0 request body n := by
  constructor
  · intro h
    simp only [decodeRequestBytes] at h
    split at h
    · cases h
    split at h
    · cases h
    split at h
    · cases h
    rename_i hmagic
    rw [not_not] at hmagic
    obtain ⟨⟨⟨major, minor, kind, flags, bodyLength, requestId⟩, d⟩, hh, h⟩ := ExceptList.bind_eq_ok_iff.1 h
    obtain ⟨used, hused, rfl, -, -, -, -, -, hid, haux⟩ := (exact_readFrameHeader _ _ _).1 hh
    dsimp only at h hused hid haux
    split at h
    · cases h
    rename_i hversion
    split at h
    · cases h
    rename_i hkind
    split at h
    · cases h
    rename_i hflags
    split at h
    · cases h
    rename_i hmax
    split at h
    · cases h
    rename_i hshort
    split at h
    · cases h
    rename_i hlong
    obtain ⟨⟨request, d'⟩, hr, h⟩ := ExceptList.bind_eq_ok_iff.1 h
    dsimp only at h
    split at h
    · cases h
    rename_i hrest
    rw [not_not] at hrest
    cases h
    obtain ⟨body, hbody, hread⟩ := (exact_readRequestBody _ _ _).1 hr
    rw [hrest, List.append_nil] at hbody
    have hlen : d.rest.length = bodyLength := by omega
    obtain ⟨rfl, rfl⟩ : major = 2 ∧ minor = 0 := by omega
    obtain rfl : kind = 1 := by omega
    obtain rfl : flags = 0 := by omega
    rw [haux] at hread
    refine ⟨requestId, request, body, _, rfl, ?_, hid, ?_, hread⟩
    · rw [frameAround, framed, ← List.take_append_drop 8 bytes, hmagic, hused, ← hbody, hlen]
    · rw [← hbody, hlen]
      omega
  · rintro ⟨requestId, request, body, n, rfl, rfl, hid, hbody, hread⟩
    have hlen := length_frameAround requestId body
    have hheader : readFrameHeader ⟨rpcHeaderBytes 2 0 1 0 body.length requestId ++ body, 0⟩ =
        .ok ((2, 0, 1, 0, body.length, requestId), ⟨body, 0⟩) := by
      have hmax : body.length < 256 ^ 4 := by
        simp only [rpcV2MaxBodyBytes] at hbody
        omega
      refine (exact_readFrameHeader _ _ _).2 ⟨_, rfl, rfl, ?_, ?_, ?_, ?_, hmax, hid, rfl⟩ <;> norm_num
    have hrequest : readRequestBody ⟨body, 0⟩ = .ok (request, ⟨[], n⟩) :=
      (exact_readRequestBody _ _ _).2 ⟨body, (List.append_nil _).symm, hread⟩
    have htake : (frameAround requestId body).take 8 = rpcV2Magic := rfl
    have hdrop : (frameAround requestId body).drop 8 = rpcHeaderBytes 2 0 1 0 body.length requestId ++ body := rfl
    simp only [rpcV2MaxBodyBytes] at hbody
    simp only [decodeRequestBytes, rpcV2MaxFrameBytes, rpcV2HeaderBytes, rpcV2MaxBodyBytes]
    rw [if_neg (by omega), if_neg (by omega), if_neg (by rw [htake]; simp), hdrop, hheader]
    simp only [ExceptList.bind_eq_ok_iff]
    refine ⟨_, rfl, ?_⟩
    dsimp only
    rw [if_neg (by omega), if_neg (by omega), if_neg (by omega), if_neg (by omega), if_neg (by omega), if_neg (by omega)]
    simp only [ExceptList.bind_eq_ok_iff]
    exact ⟨_, hrequest, by simp⟩

end Fram
