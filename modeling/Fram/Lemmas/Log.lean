import Fram.Lemmas.Wire
import Fram.Log

/-!
# What the log reads and writes

A frame is its payload between its length and its check (`frameBytes`), and what is read as a payload is the payload of a frame, but for
the patterns of NaN (`decodeFramePayload_eq_ok_iff`). A header is written and read as the magic, the
version, the flags and the name of the space.
-/

namespace Fram

open Reader LittleEndian

variable {ordinal : Nat} {frame : TransactionFrame} {bytes : Bytes} {spaceId : String}

/-! ## The bytes of a frame -/

/-- The byte of an action. -/
def Action.byte : Action → UInt8
  | .assert => 1
  | .retract => 2

/-- The bytes of operations, numbered from an ordinal on. -/
def operationsBytes : Nat → List CommitOperation → Bytes
  | _, [] => []
  | ordinal, o :: operations =>
    toBytes 4 ordinal ++ (o.action.byte :: (o.proposition.term.bytes ++ operationsBytes (ordinal + 1) operations))

/-- The payload of a frame. -/
def TransactionFrame.payload (frame : TransactionFrame) : Bytes :=
  toBytes 8 (natOfI64 frame.sequence) ++ (toBytes 4 frame.operations.length ++ operationsBytes 0 frame.operations)

/-- A payload between its length and its check. -/
def frameBytes (payload : Bytes) : Bytes := toBytes 4 payload.length ++ (payload ++ toBytes 4 (crc32 payload))

@[simp] theorem length_frameBytes (payload : Bytes) : (frameBytes payload).length = payload.length + 8 := by
  simp [frameBytes]
  omega

/-- A term that the log's limits admit. -/
structure Term.Loggable (t : Term) : Prop where
  height : t.height ≤ maxTermDepth
  nodes : t.nodes ≤ maxCodecCount
  fits : t.Fits maxCodecCount

/-- A frame that the log's limits admit. -/
structure TransactionFrame.Loggable (frame : TransactionFrame) : Prop where
  nonneg : 0 ≤ frame.sequence
  nonempty : frame.operations ≠ []
  count : frame.operations.length ≤ maxCodecCount
  loggable : ∀ o ∈ frame.operations, o.proposition.term.Loggable

/-- The numbers of a frame are of 64 bits. -/
structure TransactionFrame.Ranged (frame : TransactionFrame) : Prop where
  sequence : InI64 frame.sequence
  ranged : ∀ o ∈ frame.operations, o.proposition.term.Ranged

/-! ## Reading a payload -/

/-- The bytes stand for the operations, numbered from an ordinal on. -/
def OperationsEncoded : Nat → List CommitOperation → Bytes → Prop
  | _, [], used => used = []
  | ordinal, o :: operations, used => ordinal < 256 ^ 4 ∧ ∃ u v, used = toBytes 4 ordinal ++ (o.action.byte :: (u ++ v)) ∧
      o.proposition.term.Encoded u ∧ OperationsEncoded (ordinal + 1) operations v

/-- The payload stands for the frame. -/
def TransactionFrame.Encoded (frame : TransactionFrame) (payload : Bytes) : Prop :=
  ∃ u, payload = toBytes 8 (natOfI64 frame.sequence) ++ (toBytes 4 frame.operations.length ++ u) ∧
    OperationsEncoded 0 frame.operations u

/-- The nodes that the reader of operations has counted at its end. -/
def nodesAfter : Nat → List CommitOperation → Nat
  | n, [] => n
  | _, o :: operations => nodesAfter o.proposition.term.nodes operations

theorem exact_resetNodes : Exact resetNodes fun _ _ used n' => used = [] ∧ n' = 0 := by
  rintro ⟨rest, aux⟩ ⟨rest', aux'⟩ ⟨⟩
  simp [resetNodes]
  tauto

theorem exact_readLogTerm : Exact (readTermLimited 0 maxCodecCount maxCodecCount maxTermDepth) fun n t used n' =>
    t.Encoded used ∧ n' = n + t.nodes ∧ n' ≤ maxCodecCount ∧ t.height ≤ maxTermDepth ∧ t.Fits maxCodecCount ∧ t.Ranged := by
  refine (exact_readTermAt (by decide) maxCodecCount (maxTermDepth + 1 - 0)).congr fun n t used n' => ?_
  simp

/-- The checks of an operation pass exactly on its own parts. -/
theorem checkOperation_ok_iff {actual action : Nat} {t : Term} {d d' : Decoder} {o : CommitOperation} :
    checkOperation ordinal actual action t d = .ok (o, d') ↔
      actual = ordinal ∧ t = o.proposition.term ∧ action = o.action.byte.toNat ∧ d = d' := by
  obtain ⟨a, p1, p2, p3⟩ := o
  unfold checkOperation
  split
  · rename_i h
    simp [h]
  · rename_i h
    rw [not_not] at h
    cases t with
    | atom b => simp [Term.asTriple, Triple.term]
    | triple t1 t2 t3 =>
      simp only [Term.asTriple]
      split
      · rename_i ha
        cases a <;> simp [h, ha, Action.byte, Triple.term, and_assoc]
      · split
        · rename_i ha
          cases a <;> simp [h, ha, Action.byte, Triple.term, and_assoc]
        · rename_i h1 h2
          cases a <;> simp [h1, h2, Action.byte]

theorem exact_checkOperation (ordinal actual action : Nat) (t : Term) : Exact (checkOperation ordinal actual action t) fun n o used n' =>
      actual = ordinal ∧ t = o.proposition.term ∧ action = o.action.byte.toNat ∧ used = [] ∧ n' = n := by
  rintro ⟨rest, aux⟩ ⟨rest', aux'⟩ o
  rw [checkOperation_ok_iff]
  constructor
  · rintro ⟨h1, h2, h3, h4⟩
    cases h4
    exact ⟨[], rfl, h1, h2, h3, rfl, rfl⟩
  · rintro ⟨used, hr, h1, h2, h3, rfl, hn⟩
    dsimp only [List.nil_append] at hr hn
    exact ⟨h1, h2, h3, by rw [hr, hn]⟩

theorem exact_readOperation (ordinal : Nat) : Exact (readOperation ordinal) fun _ o used n' => ordinal < 256 ^ 4 ∧
      ∃ u, used = toBytes 4 ordinal ++ (o.action.byte :: u) ∧ o.proposition.term.Encoded u ∧
        o.proposition.term.Loggable ∧ o.proposition.term.Ranged ∧ n' = o.proposition.term.nodes := by
  refine ((exact_readLe _ 4).bind fun actual => (exact_readU8 _).bind fun action => exact_resetNodes.bind fun _ =>
    exact_readLogTerm.bind fun t => exact_checkOperation ordinal actual action t).congr fun n o used n' => ?_
  constructor
  · rintro ⟨actual, u, w, m, rfl, ⟨rfl, hv, rfl⟩, action, u', w', m', rfl, ⟨rfl, ha, rfl⟩, _, u'', w'', m'', rfl,
      ⟨rfl, rfl⟩, t, u3, w3, m3, rfl, ⟨he, rfl, hn, hh, hf, hr⟩, rfl, rfl, rfl, rfl, rfl⟩
    exact ⟨hv, u3, by simp, he, ⟨hh, by simpa using hn, hf⟩, hr, by simp⟩
  · rintro ⟨hv, u, rfl, he, ⟨hh, hn, hf⟩, hr, rfl⟩
    exact ⟨ordinal, _, _, n, rfl, ⟨rfl, hv, rfl⟩, o.action.byte.toNat, [o.action.byte], u, n, rfl,
      ⟨by simp, o.action.byte.toNat_lt, rfl⟩, (), [], u, 0, rfl, ⟨rfl, rfl⟩, o.proposition.term, u, [],
      0 + o.proposition.term.nodes, by simp, ⟨he, rfl, by simpa using hn, hh, hf, hr⟩, rfl, rfl, rfl, rfl, by simp⟩

/-- The ordinals of the operations of a frame count up. -/
theorem exact_readOperations (left ordinal : Nat) :
    Exact (readOperations left ordinal) fun n os used n' => os.length = left ∧ OperationsEncoded ordinal os used ∧
      (∀ o ∈ os, o.proposition.term.Loggable ∧ o.proposition.term.Ranged) ∧ n' = nodesAfter n os := by
  induction left generalizing ordinal with
  | zero =>
    refine (exact_pure []).congr fun n os used n' => ?_
    constructor
    · rintro ⟨rfl, rfl, rfl⟩
      exact ⟨rfl, rfl, by simp, rfl⟩
    · rintro ⟨hl, he, -, rfl⟩
      obtain rfl := List.length_eq_zero_iff.1 hl
      exact ⟨rfl, he, rfl⟩
  | succ left ih =>
    refine ((exact_readOperation ordinal).bind fun o => (ih (ordinal + 1)).bind fun os => exact_pure (o :: os)).congr
      fun n os used n' => ?_
    constructor
    · rintro ⟨o, u, w, m, rfl, ⟨hv, u', rfl, he, hg, hr, rfl⟩, os, u2, w2, m2, rfl, ⟨rfl, hos, hall, rfl⟩, rfl, rfl, rfl⟩
      refine ⟨rfl, ⟨hv, u', u2, by simp, he, hos⟩, ?_, rfl⟩
      rintro o' (_ | ⟨_, ho'⟩)
      · exact ⟨hg, hr⟩
      · exact hall o' ho'
    · rintro ⟨hl, he, hall, rfl⟩
      cases os with
      | nil => cases hl
      | cons o os =>
        obtain ⟨hv, u, v, rfl, he, hos⟩ := he
        obtain ⟨hg, hr⟩ := hall o (List.mem_cons_self ..)
        exact ⟨o, toBytes 4 ordinal ++ (o.action.byte :: u), v, _, by simp, ⟨hv, u, rfl, he, hg, hr, rfl⟩, os, v, [], _,
          (List.append_nil _).symm, ⟨by simpa using hl, hos, fun o' ho' => hall o' (List.mem_cons_of_mem _ ho'), rfl⟩, rfl,
          rfl, rfl⟩

theorem exact_readFrame : Exact readFrame fun n frame used n' => frame.Encoded used ∧ frame.Loggable ∧ frame.Ranged ∧
    n' = nodesAfter n frame.operations := by
  refine ((exact_readI64Le _).bind fun sequence => (exact_readLe _ 4).bind fun count => Exact.ite (c := sequence < 0)
    (exact_fail _) (Exact.ite (c := count = 0 ∨ maxCodecCount < count) (exact_fail _)
      ((exact_readOperations count 0).bind fun os => exact_pure (⟨sequence, os⟩ : TransactionFrame)))).congr fun n frame used n' => ?_
  constructor
  · rintro ⟨sequence, u, w, m, rfl, ⟨rfl, hq, rfl⟩, count, u', w', m', rfl, ⟨rfl, hc, rfl⟩, ⟨-, h⟩ | ⟨hpos, ⟨-, h⟩ | ⟨hcount,
      os, u2, w2, m2, rfl, ⟨rfl, hos, hall, rfl⟩, rfl, rfl, rfl⟩⟩⟩
    · exact h.elim
    · exact h.elim
    · refine ⟨⟨u2, by simp, hos⟩, ⟨Int.not_lt.1 hpos, ?_, Nat.not_lt.1 (not_or.1 hcount).2, fun o ho => (hall o ho).1⟩,
        ⟨hq, fun o ho => (hall o ho).2⟩, rfl⟩
      rintro rfl
      simp at hcount
  · rintro ⟨⟨u, rfl, hos⟩, ⟨hpos, hne, hcount, hall⟩, ⟨hq, hran⟩, rfl⟩
    have hlen : frame.operations.length ≠ 0 := by simpa using hne
    have hb : maxCodecCount < 256 ^ 4 := by decide
    exact ⟨frame.sequence, _, _, n, rfl, ⟨rfl, hq, rfl⟩, frame.operations.length, _, u, n, rfl, ⟨rfl, by omega, rfl⟩,
      .inr ⟨by omega, .inr ⟨by omega, frame.operations, u, [], _, (List.append_nil _).symm,
        ⟨rfl, hos, fun o ho => ⟨hall o ho, hran o ho⟩, rfl⟩, rfl, rfl, rfl⟩⟩⟩

theorem operationsEncoded_bytes {os : List CommitOperation} (h : ordinal + os.length ≤ 256 ^ 4) :
    OperationsEncoded ordinal os (operationsBytes ordinal os) := by
  induction os generalizing ordinal with
  | nil => rfl
  | cons o os ih =>
    rw [List.length_cons] at h
    exact ⟨by omega, _, _, rfl, o.proposition.term.encoded_bytes, ih (by omega)⟩

theorem OperationsEncoded.length_eq {os : List CommitOperation} {used : Bytes}
    (h : OperationsEncoded ordinal os used) : used.length = (operationsBytes ordinal os).length := by
  induction os generalizing ordinal used with
  | nil => rw [show used = [] from h]; rfl
  | cons o os ih =>
    obtain ⟨-, u, v, rfl, he, hv⟩ := h
    simp [operationsBytes, he.length_eq, ih hv]

/-- A frame within the limits is encoded by its payload. -/
theorem TransactionFrame.Loggable.encoded_payload (h : frame.Loggable) : frame.Encoded frame.payload :=
  ⟨_, rfl, operationsEncoded_bytes (by have := h.count; have : maxCodecCount < 256 ^ 4 := by decide
                                       omega)⟩

theorem TransactionFrame.Encoded.length_eq {payload : Bytes} (h : frame.Encoded payload) : payload.length = frame.payload.length := by
  obtain ⟨u, rfl, hu⟩ := h
  simp [TransactionFrame.payload, hu.length_eq]

theorem TransactionFrame.Encoded.length {payload : Bytes} (h : frame.Encoded payload) : 12 ≤ payload.length := by
  obtain ⟨u, rfl, -⟩ := h
  simp
  omega

/-- What is read as a payload: the payload of a frame within the limits. -/
theorem decodeFramePayload_eq_ok_iff {payload : Bytes} :
    decodeFramePayload payload = .ok frame ↔ frame.Encoded payload ∧ frame.Loggable ∧ frame.Ranged := by
  unfold decodeFramePayload
  constructor
  · intro h
    split at h
    · cases h
    · split at h
      · cases h
      · rename_i f d hr
        split at h
        · cases h
        · rename_i hrest
          cases h
          obtain ⟨used, hu, he, hl, hran, -⟩ := (exact_readFrame _ _ _).1 hr
          rw [not_not] at hrest
          rw [hrest, List.append_nil] at hu
          subst hu
          exact ⟨he, hl, hran⟩
  · rintro ⟨he, hl, hran⟩
    rw [if_neg (by have := he.length; omega)]
    have hr : readFrame ⟨payload, 0⟩ = .ok (frame, ⟨[], nodesAfter 0 frame.operations⟩) :=
      (exact_readFrame _ _ _).2 ⟨payload, by simp, he, hl, hran, rfl⟩
    rw [hr]
    rfl

/-- A payload that decodes does not decode with more bytes at its end. -/
theorem decodeFramePayload_append {payload more : Bytes}
    (h : decodeFramePayload payload = .ok frame) (hm : more ≠ []) (f : TransactionFrame) :
    decodeFramePayload (payload ++ more) ≠ .ok f := by
  obtain ⟨he, hl, hran⟩ := decodeFramePayload_eq_ok_iff.1 h
  have hr : readFrame ⟨payload, 0⟩ = .ok (frame, ⟨[], nodesAfter 0 frame.operations⟩) :=
    (exact_readFrame _ _ _).2 ⟨payload, by simp, he, hl, hran, rfl⟩
  have hr' := exact_readFrame.append hr more
  intro hf
  obtain ⟨he', hl', hran'⟩ := decodeFramePayload_eq_ok_iff.1 hf
  have hr2 : readFrame ⟨payload ++ more, 0⟩ = .ok (f, ⟨[], nodesAfter 0 f.operations⟩) :=
    (exact_readFrame _ _ _).2 ⟨payload ++ more, by simp, he', hl', hran', rfl⟩
  rw [hr2] at hr'
  simp only [List.nil_append, Except.ok.injEq, Prod.mk.injEq, State.mk.injEq] at hr'
  exact hm hr'.2.1.symm

/-- A frame within the limits whose numbers are of 64 bits is read back from its payload. -/
theorem TransactionFrame.Loggable.decode_payload (h : frame.Loggable) (hr : frame.Ranged) : decodeFramePayload frame.payload = .ok frame :=
  decodeFramePayload_eq_ok_iff.2 ⟨h.encoded_payload, h, hr⟩

/-! ## The header -/

/-- What a writer writes, from what it adds. -/
theorem Writes.written_eq_ok_iff {w : Write} {ok : Nat → Prop} {nodes : Nat → Nat}
    (h : Writes w ok bytes nodes) (b : Bytes) : written w = .ok b ↔ ok 0 ∧ b = bytes := by
  unfold written
  cases hw : w ⟨[], 0⟩ with
  | error m =>
    simp only [reduceCtorEq, false_iff, not_and]
    intro ho
    rw [(h _ _).2 ⟨ho, rfl⟩] at hw
    cases hw
  | ok r =>
    obtain ⟨ho, he⟩ := (h _ r.2).1 hw
    simp [he, show ok 0 from ho, eq_comm]

/-- The bytes of the header of a space's log. -/
def headerBytes (spaceId : String) : Bytes :=
  framlogMagic ++ (toBytes 2 framlogVersion ++ (toBytes 2 framlogFlags ++ sizedText spaceId))

@[simp] theorem length_headerBytes (spaceId : String) : (headerBytes spaceId).length = 16 + (utf8Encode spaceId).length := by
  simp [headerBytes, framlogMagic, sizedText]
  omega

theorem length_pos_iff_ne_empty {s : String} : s.length = 0 ↔ s = "" := by
  constructor
  · intro h
    have : s.toList.length = 0 := by simpa using h
    have := List.length_eq_zero_iff.1 this
    exact String.toList_inj.1 this
  · rintro rfl
    rfl

/-- A header is written for a name that is not empty and not too long. -/
theorem encodeHeader_eq_ok_iff : encodeHeader spaceId = .ok bytes ↔
    spaceId ≠ "" ∧ (utf8Encode spaceId).length ≤ maxCodecCount ∧ bytes = headerBytes spaceId := by
  unfold encodeHeader
  split
  · rename_i h
    simp [length_pos_iff_ne_empty.1 h]
  · rename_i h
    have hne : spaceId ≠ "" := fun he => h (length_pos_iff_ne_empty.2 he)
    dsimp only
    split
    · simp
      omega
    · rename_i hmax
      have hm : maxCodecCount ≤ 4294967295 := by decide
      have hw := ((writes_appendBytes framlogMagic).bind ((writes_appendBytes (toBytes 2 framlogVersion)).bind
        ((writes_appendBytes (toBytes 2 framlogFlags)).bind ((writes_appendU32Le (utf8Encode spaceId).length).bind
          (writes_appendBytes (utf8Encode spaceId)))))).written_eq_ok_iff
      rw [(hw _).2 ⟨⟨trivial, trivial, trivial, ⟨by omega, by omega⟩, trivial⟩, rfl⟩]
      simp only [Except.ok.injEq]
      constructor
      · rintro rfl
        exact ⟨hne, by omega, by simp [headerBytes, sizedText]⟩
      · rintro ⟨-, -, rfl⟩
        simp [headerBytes, sizedText]

/-- The reader admits the header of a space where one is configured, or where none is. -/
structure AdmitsHeader (configured spaceId : String) : Prop where
  nonempty : spaceId ≠ ""
  size : (utf8Encode spaceId).length ≤ framlogStreamMaxSpaceBytes
  configured : configured = "" ∨ configured = spaceId

/-- The bytes of a header with flags; those of a plain log are none. -/
def flaggedHeader (flags : Nat) (spaceId : String) : Bytes :=
  framlogMagic ++ (toBytes 2 framlogVersion ++ (toBytes 2 flags ++ sizedText spaceId))

@[simp] theorem length_flaggedHeader (flags : Nat) (spaceId : String) :
    (flaggedHeader flags spaceId).length = 16 + (utf8Encode spaceId).length := by
  simp [flaggedHeader, framlogMagic, sizedText]
  omega

/-- The fields of a header are read at their offsets. -/
theorem flaggedHeader_parts {flags : Nat} (hf : flags < 256 ^ 2) (hs : (utf8Encode spaceId).length < 256 ^ 4)
    (rest : Bytes) : magicAtStart (flaggedHeader flags spaceId ++ rest) = true ∧
      u16LeAt (flaggedHeader flags spaceId ++ rest) 8 = framlogVersion ∧
      u16LeAt (flaggedHeader flags spaceId ++ rest) 10 = flags ∧
      u32LeAt (flaggedHeader flags spaceId ++ rest) 12 = (utf8Encode spaceId).length ∧
      ((flaggedHeader flags spaceId ++ rest).drop 16).take (utf8Encode spaceId).length = utf8Encode spaceId ∧
      (flaggedHeader flags spaceId ++ rest).drop (16 + (utf8Encode spaceId).length) = rest := by
  have e : flaggedHeader flags spaceId ++ rest = [70, 82, 65, 77, 76, 79, 71, 0, 1, 0] ++
      (toBytes 2 flags ++ (toBytes 4 (utf8Encode spaceId).length ++ (utf8Encode spaceId ++ rest))) := by
    simp [flaggedHeader, sizedText, framlogMagic, framlogVersion, toBytes]
  have e10 : (flaggedHeader flags spaceId ++ rest).drop 10 =
      toBytes 2 flags ++ (toBytes 4 (utf8Encode spaceId).length ++ (utf8Encode spaceId ++ rest)) := by
    rw [e]
    rfl
  have e12 : (flaggedHeader flags spaceId ++ rest).drop 12 =
      toBytes 4 (utf8Encode spaceId).length ++ (utf8Encode spaceId ++ rest) := by
    rw [show 12 = 10 + 2 from rfl, ← List.drop_drop, e10, List.drop_left' (length_toBytes 2 _)]
  have e16 : (flaggedHeader flags spaceId ++ rest).drop 16 = utf8Encode spaceId ++ rest := by
    rw [show 16 = 12 + 4 from rfl, ← List.drop_drop, e12, List.drop_left' (length_toBytes 4 _)]
  refine ⟨by rw [e]; rfl, by rw [e]; rfl, ?_, ?_, ?_, ?_⟩
  · unfold u16LeAt
    rw [e10, List.take_left' (length_toBytes 2 _), ofBytes_toBytes_of_lt hf]
  · unfold u32LeAt
    rw [e12, List.take_left' (length_toBytes 4 _), ofBytes_toBytes_of_lt hs]
  · rw [e16, List.take_left]
  · rw [← List.drop_drop, e16, List.drop_left]

theorem headerBytes_parts (hs : (utf8Encode spaceId).length < 256 ^ 4) (rest : Bytes) :
    magicAtStart (headerBytes spaceId ++ rest) = true ∧ u16LeAt (headerBytes spaceId ++ rest) 8 = framlogVersion ∧
      u16LeAt (headerBytes spaceId ++ rest) 10 = framlogFlags ∧
      u32LeAt (headerBytes spaceId ++ rest) 12 = (utf8Encode spaceId).length ∧
      ((headerBytes spaceId ++ rest).drop 16).take (utf8Encode spaceId).length = utf8Encode spaceId ∧
      (headerBytes spaceId ++ rest).drop (16 + (utf8Encode spaceId).length) = rest :=
  flaggedHeader_parts (by decide) hs rest

/-- A header and what follows it are determined by the bytes. -/
theorem headerBytes_append_inj {spaceId' : String} {rest rest' : Bytes} (hs : (utf8Encode spaceId).length < 256 ^ 4)
    (hs' : (utf8Encode spaceId').length < 256 ^ 4) (h : headerBytes spaceId ++ rest = headerBytes spaceId' ++ rest') :
    spaceId = spaceId' ∧ rest = rest' := by
  obtain ⟨-, -, -, p4, p5, p6⟩ := headerBytes_parts hs rest
  obtain ⟨-, -, -, q4, q5, q6⟩ := headerBytes_parts hs' rest'
  rw [h, q4] at p4
  rw [h, ← p4, q5] at p5
  rw [h, ← p4, q6] at p6
  exact ⟨(utf8Encode_injective p5).symm, p6.symm⟩

/-- Bytes whose header is read are that header and a rest. -/
theorem exists_flaggedHeader {flags : Nat} (hl : 16 ≤ bytes.length) (hm : magicAtStart bytes = true)
    (hv : u16LeAt bytes 8 = framlogVersion) (hf : u16LeAt bytes 10 = flags) (hb : 16 + u32LeAt bytes 12 ≤ bytes.length)
    (hd : utf8Decode ((bytes.drop 16).take (u32LeAt bytes 12)) = some spaceId) :
    bytes = flaggedHeader flags spaceId ++ bytes.drop (16 + u32LeAt bytes 12) ∧
      (utf8Encode spaceId).length = u32LeAt bytes 12 := by
  have h0 : bytes.take 8 = framlogMagic := by simpa [magicAtStart] using hm
  have h8 : (bytes.drop 8).take 2 = toBytes 2 framlogVersion := by
    rw [← hv]
    exact (toBytes_ofBytes_take (by omega)).symm
  have h10 : (bytes.drop 10).take 2 = toBytes 2 flags := by
    rw [← hf]
    exact (toBytes_ofBytes_take (by omega)).symm
  have h12 : (bytes.drop 12).take 4 = toBytes 4 (u32LeAt bytes 12) := (toBytes_ofBytes_take (by omega)).symm
  have h16 := utf8Decode_eq_some_iff.1 hd
  have hlen : (utf8Encode spaceId).length = u32LeAt bytes 12 := by
    rw [← h16, List.length_take, List.length_drop]
    omega
  refine ⟨?_, hlen⟩
  unfold flaggedHeader sizedText
  have e10 : bytes.drop 10 = (bytes.drop 8).drop 2 := by rw [List.drop_drop]
  have e12 : bytes.drop 12 = (bytes.drop 10).drop 2 := by rw [List.drop_drop]
  have e16 : bytes.drop 16 = (bytes.drop 12).drop 4 := by rw [List.drop_drop]
  have erest : bytes.drop (16 + u32LeAt bytes 12) = (bytes.drop 16).drop (u32LeAt bytes 12) := by rw [List.drop_drop]
  rw [hlen, ← h0, ← h8, ← h10, ← h12, ← h16, erest]
  simp only [List.append_assoc]
  rw [List.take_append_drop, e16, List.take_append_drop, e12, List.take_append_drop, e10, List.take_append_drop, List.take_append_drop]

theorem exists_headerBytes (hl : 16 ≤ bytes.length) (hm : magicAtStart bytes = true)
    (hv : u16LeAt bytes 8 = framlogVersion) (hf : u16LeAt bytes 10 = framlogFlags) (hb : 16 + u32LeAt bytes 12 ≤ bytes.length)
    (hd : utf8Decode ((bytes.drop 16).take (u32LeAt bytes 12)) = some spaceId) :
    bytes = headerBytes spaceId ++ bytes.drop (16 + u32LeAt bytes 12) ∧ (utf8Encode spaceId).length = u32LeAt bytes 12 :=
  exists_flaggedHeader hl hm hv hf hb hd

end Fram
