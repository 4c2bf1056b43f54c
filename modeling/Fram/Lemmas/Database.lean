import Fram.Database
import Fram.Lemmas.Framrpc
import Fram.Lemmas.Boot
import Fram.Lemmas.Continues

/-!
# What the JVM reads and writes of a log

The JVM reads a payload as the native reader does (`decodeTransactionPayload_eq_ok_iff`). What it writes of a frame is the record of
the frame's payload, compressed where the generation asks for it (`writeTransactionFrame_ok_iff`), and a log of such records and a cut
rest is parsed into the frames (`parseTripleLogBytes_ok_iff`).
-/

namespace Fram.Database

open Reader LittleEndian Framrpc

/-! ## Payloads -/

section Payloads

theorem exact_readTerm : Exact readTerm fun n t used n' =>
    t.Encoded used ∧ t.Loggable ∧ t.Ranged ∧ n' = n := by
  have h : Exact (decodeTermCodecV1 integerMax integerMax maxTermDepth) _ :=
    exact_decodeTermCodecV1 (by decide) (by decide) (by decide)
  intro d d' t
  have hiff : readTerm d = .ok (t, d') ↔ ∃ nodes, decodeTermCodecV1 integerMax integerMax maxTermDepth d = .ok ((t, nodes), d') := by
    unfold readTerm
    cases decodeTermCodecV1 integerMax integerMax maxTermDepth d with
    | error e =>
      dsimp only
      split <;> simp
    | ok r =>
      obtain ⟨⟨t', nodes⟩, d1⟩ := r
      simp [Prod.ext_iff]
  rw [hiff]
  constructor
  · rintro ⟨nodes, he⟩
    obtain ⟨used, hr, h1, -, h3, h4, h5, h6, h7⟩ := (h _ _ _).1 he
    exact ⟨used, hr, h1, ⟨h4, h3, h5⟩, h6, h7⟩
  · rintro ⟨used, hr, h1, ⟨h4, h3, h5⟩, h6, h7⟩
    exact ⟨t.nodes, (h _ _ _).2 ⟨used, hr, h1, rfl, h3, h4, h5, h6, h7⟩⟩

/-- The JVM reads a term of the log as the native reader does. -/
theorem agreeOnRest_readTerm : AgreeOnRest readTerm (do
    resetNodes
    readTermLimited 0 maxCodecCount maxCodecCount Fram.maxTermDepth) := by
  refine exact_readTerm.agreeOnRest (exact_resetNodes.bind fun _ => exact_readLogTerm) fun n n' t used => ?_
  constructor
  · rintro ⟨m, he, ⟨hh, hn, hf⟩, hr, -⟩
    exact ⟨t.nodes, (), [], used, 0, rfl, ⟨rfl, rfl⟩, he, by simp, hn, hh, hf, hr⟩
  · rintro ⟨m, _, _, _, _, rfl, ⟨rfl, rfl⟩, he, rfl, hn, hh, hf, hr⟩
    exact ⟨n, he, ⟨hh, by omega, hf⟩, hr, rfl⟩

/-- A check that enough bytes are left changes nothing where the read takes as many. -/
theorem agreeOnRest_ensureRemaining {α : Type} {count : Nat} {p : BufferRead α} {q : Read α} (h : AgreeOnRest p q)
    (hq : ∀ d r, q d = .ok r → count ≤ d.rest.length) : AgreeOnRest (ensureRemaining count >>= fun _ => p) q := by
  intro rest n n' a rest'
  rw [← h rest n n' a rest']
  simp only [bind_apply]
  unfold ensureRemaining
  by_cases hlt : rest.length < count
  · simp only [hlt, ↓reduceIte, reduceCtorEq, exists_false, false_iff]
    intro hex
    obtain ⟨m, he⟩ := (h rest n n' a rest').1 hex
    have : count ≤ rest.length := hq _ _ he
    omega
  · simp only [hlt, ↓reduceIte]

theorem agreeOnRest_getUnsigned (context : String) (count : Nat) : AgreeOnRest (getUnsigned count) (readLe context count) :=
  (exact_getUnsigned count).agreeOnRest (exact_readLe context count) fun n n' v used => by simp

theorem agreeOnRest_readU32 (context : String) : AgreeOnRest readU32 (readU32Le context) :=
  agreeOnRest_ensureRemaining (agreeOnRest_getUnsigned context 4) fun _ _ h => readLe_length h

theorem agreeOnRest_getLong (context : String) : AgreeOnRest getLong (readI64Le context) :=
  (agreeOnRest_getUnsigned context 8).bind fun n => agreeOnRest_pure (i64OfNat n)

theorem agreeOnRest_action (context : String) : AgreeOnRest (do
    ensureRemaining 1
    getUnsigned 1) (readU8 context) := by
  refine agreeOnRest_ensureRemaining ((exact_getUnsigned 1).agreeOnRest (exact_readU8 context) fun n n' v used => ?_) fun d r h => ?_
  · rw [show (256 : Nat) ^ 1 = 256 from rfl]
    simp [toBytes]
  · obtain ⟨used, hr, rfl, -⟩ := (exact_readU8 context d r.2 r.1).1 h
    simp [hr]

theorem agreeOnRest_decodedOperation (ordinal action : Nat) (t : Term) :
    AgreeOnRest (decodedOperation action t) (checkOperation ordinal ordinal action t) := by
  unfold decodedOperation checkOperation
  rw [if_neg (by simp)]
  cases t.asTriple with
  | none => exact agreeOnRest_fail _ _
  | some triple =>
    dsimp only
    unfold storeAction
    by_cases h1 : action = 1
    · rw [if_pos h1, if_pos h1]
      exact agreeOnRest_pure _
    · rw [if_neg h1, if_neg h1]
      by_cases h2 : action = 2
      · rw [if_pos h2, if_pos h2]
        exact agreeOnRest_pure _
      · rw [if_neg h2, if_neg h2]
        exact agreeOnRest_fail _ _

/-- The parts of an operation past its ordinal, as the native reader takes them. -/
theorem readOperation_bind (ordinal : Nat) : readOperation ordinal = (do
    let actual ← readU32Le "FRAMLOG operation ordinal"
    let action ← readU8 "FRAMLOG operation action"
    let proposition ← (do
      resetNodes
      readTermLimited 0 maxCodecCount maxCodecCount Fram.maxTermDepth)
    checkOperation ordinal actual action proposition) := by
  simp only [readOperation, bind_assoc]

/-- The JVM reads an operation as the native reader does; only the order of their checks differs. -/
theorem agreeOnRest_decodeOperation (ordinal : Nat) : AgreeOnRest (decodeOperation ordinal) (readOperation ordinal) := by
  rw [readOperation_bind]
  unfold decodeOperation
  refine (agreeOnRest_readU32 _).bind fun actual => ?_
  by_cases h : actual = ordinal
  · subst h
    rw [if_neg (by simp), ← bind_assoc]
    exact (agreeOnRest_action _).bind fun action => agreeOnRest_readTerm.bind fun t => agreeOnRest_decodedOperation actual action t
  · rw [if_pos h]
    refine agreeOnRest_of_fails (by simp) fun d r hr => ?_
    obtain ⟨action, d1, -, h1⟩ := bind_eq_ok_iff.1 hr
    obtain ⟨t, d2, -, h2⟩ := bind_eq_ok_iff.1 h1
    exact h (checkOperation_ok_iff.1 h2).1

theorem agreeOnRest_decodeOperations (left ordinal : Nat) :
    AgreeOnRest (decodeOperations left ordinal) (readOperations left ordinal) := by
  induction left generalizing ordinal with
  | zero => exact agreeOnRest_pure _
  | succ left ih =>
    exact (agreeOnRest_decodeOperation ordinal).bind fun o => (ih (ordinal + 1)).bind fun os => agreeOnRest_pure _

theorem agreeOnRest_decodeFrame : AgreeOnRest decodeFrame readFrame := by
  unfold decodeFrame readFrame
  refine agreeOnRest_ensureRemaining ((agreeOnRest_getLong _).bind fun sequence => (agreeOnRest_readU32 _).bind fun count =>
    (agreeOnRest_fail _ _).ite ((agreeOnRest_fail _ _).ite ((agreeOnRest_decodeOperations count 0).bind fun os =>
      agreeOnRest_pure _))) fun d r h => ?_
  obtain ⟨sequence, d1, h1, h⟩ := bind_eq_ok_iff.1 h
  obtain ⟨count, d2, h2, -⟩ := bind_eq_ok_iff.1 h
  obtain ⟨used, hr, rfl, -⟩ := (exact_readI64Le _ d d1 sequence).1 h1
  have := readLe_length h2
  rw [hr, List.length_append, length_toBytes]
  omega

/-- The JVM decodes the payloads that the native reader does, to the same frames. -/
theorem decodeTransactionPayload_eq_ok_iff {payload : Bytes} {frame : TransactionFrame} :
    decodeTransactionPayload payload = .ok frame ↔ decodeFramePayload payload = .ok frame := by
  have hagree := agreeOnRest_decodeFrame payload 0 0 frame []
  have h1 : decodeTransactionPayload payload = .ok frame ↔ ∃ m, decodeFrame ⟨payload, 0⟩ = .ok (frame, ⟨[], m⟩) := by
    unfold decodeTransactionPayload
    cases decodeFrame ⟨payload, 0⟩ with
    | error e => simp
    | ok r =>
      obtain ⟨f, rest, m⟩ := r
      dsimp only
      split
      · rename_i h
        simp [Prod.ext_iff, h]
      · rename_i h
        simp [Prod.ext_iff, not_not.1 h]
  have h2 : decodeFramePayload payload = .ok frame ↔ ∃ m, readFrame ⟨payload, 0⟩ = .ok (frame, ⟨[], m⟩) := by
    unfold decodeFramePayload
    split
    · rename_i hlt
      simp only [reduceCtorEq, false_iff, not_exists]
      intro m hm
      obtain ⟨used, hr, he, -⟩ := (exact_readFrame _ _ _).1 hm
      have := he.length
      simp only [List.append_nil] at hr
      rw [← hr] at this
      omega
    · cases readFrame ⟨payload, 0⟩ with
      | error e => simp
      | ok r =>
        obtain ⟨f, rest, m⟩ := r
        dsimp only
        split
        · rename_i h
          simp [Prod.ext_iff, h]
        · rename_i h
          simp [Prod.ext_iff, not_not.1 h]
  rw [h1, h2, hagree]

end Payloads

/-! ## Writing -/

/-- A host that stores bytes as they are. -/
def storingGzip : Gzip := ⟨id, some, fun _ => rfl⟩

section Writing

variable {J : Gzip} {deflate : Bool}

theorem writeU32Le_ok_iff {n : Int} {bytes : Bytes} :
    writeU32Le n = .ok bytes ↔ bytes = toBytes 4 n.toNat ∧ 0 ≤ n ∧ n ≤ 4294967295 := by
  unfold writeU32Le
  exact ExceptList.guarded_eq_ok_iff

theorem requireI64_ok_iff {n v : Int} {label : String} : requireI64 n label = .ok v ↔ v = n ∧ InI64 n := by
  unfold requireI64 InI64
  exact ExceptList.guarded_eq_ok_iff

theorem writeI64Le_ok_iff {n : Int} {bytes : Bytes} : writeI64Le n = .ok bytes ↔ bytes = toBytes 8 (natOfI64 n) ∧ InI64 n := by
  unfold writeI64Le
  rw [ExceptList.bind_eq_ok_iff]
  constructor
  · rintro ⟨v, hv, he⟩
    obtain ⟨rfl, hi⟩ := requireI64_ok_iff.1 hv
    cases he
    exact ⟨rfl, hi⟩
  · rintro ⟨rfl, hi⟩
    exact ⟨n, requireI64_ok_iff.2 ⟨rfl, hi⟩, rfl⟩

theorem toByteArray_ok_iff {bytes array : Bytes} : toByteArray bytes = .ok array ↔ array = bytes ∧ bytes.length ≤ integerMax := by
  unfold toByteArray
  exact ExceptList.guarded_eq_ok_iff

theorem writeTriple_ok_iff {value : Triple} {bytes : Bytes} :
    writeTriple value = .ok bytes ↔ bytes = value.term.bytes ∧ value.term.Loggable := by
  have h := @writeTermCodecV1_ok_iff integerMax maxTermDepth value.term integerMax
  unfold writeTriple
  cases hw : writeTermCodecV1 value.term integerMax integerMax maxTermDepth with
  | error e =>
    simp only [reduceCtorEq, false_iff]
    rintro ⟨-, hh, hn, hf⟩
    rw [(h (by decide) (by decide) (by decide)).2 ⟨rfl, hn, hh, hf⟩] at hw
    cases hw
  | ok r =>
    obtain ⟨rfl, hn, hh, hf⟩ := (h (by decide) (by decide) (by decide)).1 hw
    rw [Except.ok.injEq]
    exact ⟨fun he => ⟨he.symm, hh, hn, hf⟩, fun he => he.1.symm⟩

/-- What is written of operations is their bytes, and they are within the limits of the log. -/
theorem writeOperations_ok {ordinal : Nat} {os : List CommitOperation} {bytes : Bytes} (h : writeOperations ordinal os = .ok bytes) :
    bytes = operationsBytes ordinal os ∧ ∀ o ∈ os, o.proposition.term.Loggable := by
  induction os generalizing ordinal bytes with
  | nil =>
    cases h
    exact ⟨rfl, by simp⟩
  | cons o os ih =>
    unfold writeOperations at h
    simp only [ExceptList.bind_eq_ok_iff] at h
    obtain ⟨number, h1, triple, h2, more, h3, h4⟩ := h
    obtain ⟨rfl, -, -⟩ := writeU32Le_ok_iff.1 h1
    obtain ⟨rfl, hl⟩ := writeTriple_ok_iff.1 h2
    obtain ⟨rfl, hall⟩ := ih h3
    cases h4
    refine ⟨?_, by simpa using ⟨hl, hall⟩⟩
    rw [operationsBytes, Int.toNat_natCast]
    cases o.action <;> rfl

theorem length_le_operationsBytes (ordinal : Nat) (os : List CommitOperation) :
    os.length ≤ (operationsBytes ordinal os).length := by
  induction os generalizing ordinal with
  | nil => simp
  | cons o os ih =>
    have := ih (ordinal + 1)
    simp only [operationsBytes, List.length_cons, List.length_append, length_toBytes]
    omega

/-- A frame has no more operations than its payload has bytes. -/
theorem length_operations_le {tx : TransactionFrame} {limit : Nat} (h : tx.payload.length ≤ limit) : tx.operations.length ≤ limit := by
  have := length_le_operationsBytes 0 tx.operations
  unfold TransactionFrame.payload at h
  rw [List.length_append, List.length_append] at h
  omega

/-- The bytes that a frame stores in a generation stand for the frame. -/
structure Stores (J : Gzip) (deflate : Bool) (stored : Bytes) (frame : TransactionFrame) : Prop where
  size : stored.length ≤ integerMax
  decodes : ∃ raw, payloadOf J deflate stored = .ok raw ∧ decodeTransactionPayload raw = .ok frame

theorem payloadOf_storedBytes (raw : Bytes) : payloadOf J deflate (storedBytes J deflate raw) = .ok raw := by
  unfold payloadOf storedBytes
  cases deflate with
  | false => rfl
  | true => simp [J.inverse]

/-- Operations within the limits of the log are written, as long as their ordinals are of 32 bits. -/
theorem writeOperations_eq_ok {ordinal : Nat} {os : List CommitOperation} (hc : ordinal + os.length ≤ 4294967296)
    (h : ∀ o ∈ os, o.proposition.term.Loggable) : writeOperations ordinal os = .ok (operationsBytes ordinal os) := by
  induction os generalizing ordinal with
  | nil => rfl
  | cons o os ih =>
    rw [List.forall_mem_cons] at h
    rw [List.length_cons] at hc
    have h1 : writeU32Le (ordinal : Int) = .ok (toBytes 4 ordinal) := writeU32Le_ok_iff.2 ⟨by simp, by omega, by omega⟩
    have h2 : writeTriple o.proposition = .ok o.proposition.term.bytes := writeTriple_ok_iff.2 ⟨rfl, h.1⟩
    have hb : wireAction o.action = o.action.byte := by cases o.action <;> rfl
    unfold writeOperations
    rw [h1, h2, ih (by omega) h.2, operationsBytes, hb]
    rfl

/-- A frame is written where its operations are within the limits of the log and its payload fits an array, as it is and as it is
stored. -/
theorem writeTransactionFrame_ok_iff {tx : TransactionFrame} {bytes : Bytes} :
    writeTransactionFrame J tx deflate = .ok bytes ↔ InI64 tx.sequence ∧ (∀ o ∈ tx.operations, o.proposition.term.Loggable) ∧
      tx.payload.length ≤ integerMax ∧ (storedBytes J deflate tx.payload).length ≤ integerMax ∧
        bytes = Records.record crc32 (storedBytes J deflate tx.payload) := by
  unfold writeTransactionFrame
  simp only [ExceptList.bind_eq_ok_iff]
  constructor
  · rintro ⟨sequence, h1, count, h2, operations, h3, raw, h4, array, h5, length, h6, crc, h7, h8⟩
    obtain ⟨rfl, hseq⟩ := writeI64Le_ok_iff.1 h1
    obtain ⟨rfl, -, -⟩ := writeU32Le_ok_iff.1 h2
    obtain ⟨rfl, hall⟩ := writeOperations_ok h3
    obtain ⟨rfl, hraw⟩ := toByteArray_ok_iff.1 h4
    obtain ⟨rfl, hsize⟩ := toByteArray_ok_iff.1 h5
    obtain ⟨rfl, -, -⟩ := writeU32Le_ok_iff.1 h6
    obtain ⟨rfl, -, -⟩ := writeU32Le_ok_iff.1 h7
    cases h8
    exact ⟨hseq, hall, hraw, hsize, rfl⟩
  · rintro ⟨hseq, hall, hraw, hsize, rfl⟩
    have hcount := length_operations_le hraw
    have hmax : integerMax = 2147483647 := rfl
    have hcrc := crc32_lt (storedBytes J deflate tx.payload)
    refine ⟨_, writeI64Le_ok_iff.2 ⟨rfl, hseq⟩, toBytes 4 tx.operations.length, writeU32Le_ok_iff.2 ⟨by simp, by omega, by omega⟩, _,
      writeOperations_eq_ok (by omega) hall, tx.payload, toByteArray_ok_iff.2 ⟨rfl, hraw⟩, _, toByteArray_ok_iff.2 ⟨rfl, hsize⟩,
      _, writeU32Le_ok_iff.2 ⟨rfl, by omega, by omega⟩, _, writeU32Le_ok_iff.2 ⟨rfl, by omega, by omega⟩, ?_⟩
    rw [Int.toNat_natCast, Int.toNat_natCast]
    rfl

/-- What is written of a frame is the record of bytes that stand for it. -/
theorem writeTransactionFrame_ok {tx : TransactionFrame} {bytes : Bytes} (h : writeTransactionFrame J tx deflate = .ok bytes)
    (hs : 0 ≤ tx.sequence) (hn : tx.operations ≠ []) (hr : ∀ o ∈ tx.operations, o.proposition.term.Ranged) :
    ∃ stored, bytes = Records.record crc32 stored ∧ Stores J deflate stored tx := by
  obtain ⟨hseq, hall, hraw, hsize, rfl⟩ := writeTransactionFrame_ok_iff.1 h
  have hcount : tx.operations.length ≤ maxCodecCount := length_operations_le hraw
  have hlog : tx.Loggable := ⟨hs, hn, hcount, hall⟩
  refine ⟨_, rfl, hsize, tx.payload, payloadOf_storedBytes _, ?_⟩
  rw [decodeTransactionPayload_eq_ok_iff]
  exact hlog.decode_payload ⟨hseq, hr⟩

end Writing

/-! ## Reading a log -/

section Parsing

variable {J : Gzip} {deflate : Bool} {stored : List Bytes} {frames : List TransactionFrame} {rest : Bytes}

/-- The frames of records that stand for them. -/
theorem foldlM_parseFrame (h : List.Forall₂ (Stores J deflate) stored frames) (parsed : Parsed) :
    ∃ ends, stored.foldlM (parseFrame J deflate) parsed =
      .ok (parsed.1 ++ frames, parsed.2.1 + (Records.records crc32 stored).length, ends) := by
  induction h generalizing parsed with
  | nil => exact ⟨parsed.2.2, by simp [pure, Except.pure]⟩
  | @cons bytes frame stored frames hs _ ih =>
    obtain ⟨raw, hraw, hframe⟩ := hs.decodes
    obtain ⟨ends, hends⟩ := ih (parsed.1 ++ [frame], parsed.2.1 + (bytes.length + 8),
      assoc parsed.2.2 frame.sequence (parsed.2.1 + (bytes.length + 8)))
    refine ⟨ends, ?_⟩
    rw [List.foldlM_cons, parseFrame, hraw]
    simp only [bind, Except.bind, hframe]
    rw [hends]
    simp only [Records.records_cons, List.length_append, Records.length_record, List.append_assoc, List.singleton_append, Nat.add_assoc]

theorem stored_sizes (h : List.Forall₂ (Stores J deflate) stored frames) : ∀ bytes ∈ stored, bytes.length ≤ integerMax := by
  induction h with
  | nil => simp
  | cons hs _ ih => exact List.forall_mem_cons.2 ⟨hs.size, ih⟩

/-- Records and a cut rest are parsed into the frames and the rest. -/
theorem parseFrames_pieces (h : List.Forall₂ (Stores J deflate) stored frames) (hc : Records.Cut integerMax rest)
    (headerBytes : Nat) : ∃ ends, parseFrames J deflate headerBytes (Records.records crc32 stored ++ rest) =
      .ok ((frames, headerBytes + (Records.records crc32 stored).length, ends), rest) := by
  obtain ⟨ends, hfold⟩ := foldlM_parseFrame h ([], headerBytes, [])
  refine ⟨ends, (Records.loop_ok_iff (by decide) crc32_lt (Nat.le_refl _)).2 ⟨stored, ⟨rfl, stored_sizes h, hc⟩, ?_⟩⟩
  simpa using hfold

/-- What is parsed is the frames of records that stand for them. -/
theorem foldlM_parseFrame_ok {parsed parsed' : Parsed} (h : stored.foldlM (parseFrame J deflate) parsed = .ok parsed')
    (hs : ∀ bytes ∈ stored, bytes.length ≤ integerMax) :
    ∃ fs, List.Forall₂ (Stores J deflate) stored fs ∧ parsed'.1 = parsed.1 ++ fs := by
  induction stored generalizing parsed with
  | nil =>
    cases h
    exact ⟨[], .nil, by simp⟩
  | cons bytes stored ih =>
    rw [List.foldlM_cons, ExceptList.bind_eq_ok_iff] at h
    obtain ⟨p1, h1, h2⟩ := h
    rw [List.forall_mem_cons] at hs
    unfold parseFrame at h1
    simp only [ExceptList.bind_eq_ok_iff] at h1
    obtain ⟨raw, hraw, frame, hframe, he⟩ := h1
    cases he
    obtain ⟨fs, hfs, he⟩ := ih h2 hs.2
    exact ⟨frame :: fs, .cons ⟨hs.1, raw, hraw, hframe⟩ hfs, by simpa using he⟩

/-- Frames that are parsed are the records of a log, up to the cut rest where the reader stops. -/
theorem parseFrames_ok {headerBytes : Nat} {body : Bytes} {parsed : Parsed}
    (h : parseFrames J deflate headerBytes body = .ok (parsed, rest)) : ∃ stored,
      Records.Pieces crc32 integerMax body stored rest ∧ List.Forall₂ (Stores J deflate) stored parsed.1 := by
  obtain ⟨stored, hp, hfold⟩ := (Records.loop_ok_iff (by decide) crc32_lt (Nat.le_refl _)).1 h
  obtain ⟨fs, hfs, he⟩ := foldlM_parseFrame_ok hfold hp.sizes
  rw [List.nil_append] at he
  exact ⟨stored, hp, he ▸ hfs⟩

/-- The flags of a generation that is a whole store. -/
def generationFlags (deflate : Bool) : Nat := if deflate then deflateFlag else tripleLogFlags

/-- The bytes of the header of a generation. -/
def generationHeader (deflate : Bool) (spaceId : String) : Bytes := flaggedHeader (generationFlags deflate) spaceId

theorem generationFlags_lt (deflate : Bool) : generationFlags deflate < 256 ^ 2 := by
  cases deflate <;> decide

/-- The flags of a log: those of its generation, and whether it continues a sealed chain. -/
def logFlags (deflate continuation : Bool) : Nat :=
  generationFlags deflate ||| (if continuation then continuationFlag else tripleLogFlags)

/-- The bytes of the header of a log. -/
def logHeader (deflate continuation : Bool) (spaceId : String) : Bytes := flaggedHeader (logFlags deflate continuation) spaceId

theorem logHeader_false (deflate : Bool) (spaceId : String) : logHeader deflate false spaceId = generationHeader deflate spaceId := by
  cases deflate <;> rfl

theorem logFlags_lt (deflate continuation : Bool) : logFlags deflate continuation < 256 ^ 2 := by
  cases deflate <;> cases continuation <;> decide

@[simp] theorem length_logHeader (deflate continuation : Bool) (spaceId : String) :
    (logHeader deflate continuation spaceId).length = 16 + (utf8Encode spaceId).length := by
  simp [logHeader]

/-- What is created is the header of a log. -/
theorem createTripleLog_eq_ok_iff {continuation : Bool} {spaceId : String} {bytes : Bytes} :
    createTripleLog spaceId deflate continuation = .ok bytes ↔
      bytes = logHeader deflate continuation spaceId ∧ spaceId ≠ "" ∧ (utf8Encode spaceId).length ≤ integerMax := by
  have hbytes : tripleLogMagic ++ (toBytes 2 tripleLogVersion ++ (toBytes 2 ((if deflate = true then deflateFlag
      else tripleLogFlags) ||| (if continuation = true then continuationFlag else tripleLogFlags)) ++
      (toBytes 4 (utf8Encode spaceId).length ++ utf8Encode spaceId))) = logHeader deflate continuation spaceId := by
    cases deflate <;> cases continuation <;> rfl
  have hempty : (utf8Encode spaceId).length = 0 ↔ spaceId = "" := by
    rw [List.length_eq_zero_iff, utf8Encode_eq_nil_iff]
  unfold createTripleLog
  rw [ExceptList.bind_eq_ok_iff]
  constructor
  · rintro ⟨array, ha, h⟩
    obtain ⟨rfl, hsize⟩ := toByteArray_ok_iff.1 ha
    split at h
    · cases h
    rename_i hlen
    obtain ⟨length, hl, he⟩ := ExceptList.bind_eq_ok_iff.1 h
    obtain ⟨rfl, -, -⟩ := writeU32Le_ok_iff.1 hl
    rw [Int.toNat_natCast, Except.ok.injEq, hbytes] at he
    exact ⟨he.symm, fun h => hlen (hempty.2 h), hsize⟩
  · rintro ⟨rfl, hne, hsize⟩
    refine ⟨_, toByteArray_ok_iff.2 ⟨rfl, hsize⟩, ?_⟩
    have hmax : integerMax = 2147483647 := rfl
    rw [if_neg fun h => hne (hempty.1 h), ExceptList.bind_eq_ok_iff]
    refine ⟨_, writeU32Le_ok_iff.2 ⟨rfl, by omega, by omega⟩, ?_⟩
    rw [Int.toNat_natCast, Except.ok.injEq, hbytes]

theorem createTripleLog_ok_iff {spaceId : String} {bytes : Bytes} : createTripleLog spaceId deflate false = .ok bytes ↔
    bytes = generationHeader deflate spaceId ∧ spaceId ≠ "" ∧ (utf8Encode spaceId).length ≤ integerMax := by
  rw [createTripleLog_eq_ok_iff, logHeader_false]

/-- A log is parsed exactly when it is a header and the frames after it are parsed, and it continues a chain only where that is
allowed. -/
theorem parseTripleLogBytes_eq_ok_iff {bytes : Bytes} {allowContinuation : Bool} {log : TripleLog} :
    parseTripleLogBytes J bytes allowContinuation = .ok log ↔
      ∃ deflate continuation spaceId body parsed rest, (continuation = true → allowContinuation = true) ∧
        bytes = logHeader deflate continuation spaceId ++ body ∧ spaceId ≠ "" ∧ (utf8Encode spaceId).length ≤ integerMax ∧
        parseFrames J deflate (16 + (utf8Encode spaceId).length) body = .ok (parsed, rest) ∧
        log = endOfLog spaceId deflate continuation (16 + (utf8Encode spaceId).length) bytes.length parsed rest := by
  have hmax : integerMax < 256 ^ 4 := by decide
  unfold parseTripleLogBytes
  dsimp only
  generalize hallowed : (if allowContinuation = true then
    [tripleLogFlags, deflateFlag, continuationFlag, deflateFlag ||| continuationFlag] else [tripleLogFlags, deflateFlag]) = allowed
  constructor
  · intro h
    split at h
    · cases h
    rename_i hmagic
    split at h
    · cases h
    rename_i h16
    split at h
    · cases h
    rename_i hflags
    split at h
    · cases h
    rename_i hspace
    split at h
    · cases h
    rename_i hfit
    cases hd : utf8Decode ((bytes.drop 16).take (u32LeAt bytes 12)) with
    | none => rw [hd] at h; cases h
    | some spaceId =>
      rw [hd] at h
      simp only [not_or, not_not] at hflags hmagic
      obtain ⟨hv, hf⟩ := hflags
      obtain ⟨hbytes, hl⟩ := exists_flaggedHeader (by omega) (decide_eq_true hmagic) hv rfl (by omega) hd
      have hmode : ∃ deflate continuation, (continuation = true → allowContinuation = true) ∧
          u16LeAt bytes 10 = logFlags deflate continuation ∧ decide (0 < deflateFlag &&& u16LeAt bytes 10) = deflate ∧
            decide (0 < continuationFlag &&& u16LeAt bytes 10) = continuation := by
        rw [← hallowed] at hf
        cases allowContinuation with
        | false =>
          rcases List.mem_cons.1 hf with hf | hf
          · exact ⟨false, false, nofun, hf, by rw [hf]; rfl, by rw [hf]; rfl⟩
          · have hf := List.mem_singleton.1 hf
            exact ⟨true, false, nofun, hf, by rw [hf]; rfl, by rw [hf]; rfl⟩
        | true =>
          simp only [if_true, List.mem_cons, List.not_mem_nil, or_false] at hf
          rcases hf with hf | hf | hf | hf
          · exact ⟨false, false, nofun, hf, by rw [hf]; rfl, by rw [hf]; rfl⟩
          · exact ⟨true, false, nofun, hf, by rw [hf]; rfl, by rw [hf]; rfl⟩
          · exact ⟨false, true, fun _ => rfl, hf, by rw [hf]; rfl, by rw [hf]; rfl⟩
          · exact ⟨true, true, fun _ => rfl, hf, by rw [hf]; rfl, by rw [hf]; rfl⟩
      obtain ⟨deflate, continuation, hallow, hg, hd1, hc1⟩ := hmode
      dsimp only at h
      rw [hd1, hc1, ← hl] at h
      cases hp : parseFrames J deflate (16 + (utf8Encode spaceId).length) (bytes.drop (16 + (utf8Encode spaceId).length)) with
      | error e => rw [hp] at h; cases h
      | ok r =>
        rw [hp] at h
        cases h
        refine ⟨deflate, continuation, spaceId, _, r.1, r.2, hallow, ?_, fun he => ?_, by omega, hp, rfl⟩
        · rw [hl, logHeader, ← hg]
          exact hbytes
        · have : (utf8Encode spaceId).length = 0 := by rw [he]; rfl
          omega
  · rintro ⟨deflate, continuation, spaceId, body, parsed, rest, hallow, rfl, hne, hsize, hparse, rfl⟩
    have hpos : (utf8Encode spaceId).length ≠ 0 := fun hl => hne (utf8Encode_eq_nil_iff.1 (List.length_eq_zero_iff.1 hl))
    obtain ⟨p1, p2, p3, p4, p5, p6⟩ := @flaggedHeader_parts spaceId _ (logFlags_lt deflate continuation) (by omega) body
    have hlen : (logHeader deflate continuation spaceId ++ body).length = 16 + (utf8Encode spaceId).length + body.length := by
      rw [List.length_append, length_logHeader]
    have hmagic : (logHeader deflate continuation spaceId ++ body).take 8 = tripleLogMagic := of_decide_eq_true p1
    rw [if_neg (by rw [hmagic]; simp), if_neg (by omega)]
    unfold logHeader at *
    simp only [p2, p3, p4, p5, p6, utf8Decode_eq_some_iff.2 rfl]
    have hflags : ¬(framlogVersion ≠ tripleLogVersion ∨ logFlags deflate continuation ∉ allowed) := by
      rw [← hallowed]
      cases continuation with
      | false => cases deflate <;> cases allowContinuation <;> decide
      | true =>
        rw [hallow rfl]
        cases deflate <;> decide
    have hd : decide (0 < deflateFlag &&& logFlags deflate continuation) = deflate ∧
        decide (0 < continuationFlag &&& logFlags deflate continuation) = continuation := by
      cases deflate <;> cases continuation <;> decide
    rw [if_neg hflags, if_neg (by omega), if_neg (by omega), hd.1, hd.2, hparse]

/-- A log is parsed exactly when it is the header of a generation and the frames after it are parsed. -/
theorem parseTripleLogBytes_ok_iff {bytes : Bytes} {log : TripleLog} : parseTripleLogBytes J bytes false = .ok log ↔
    ∃ deflate spaceId body parsed rest, bytes = generationHeader deflate spaceId ++ body ∧ spaceId ≠ "" ∧
      (utf8Encode spaceId).length ≤ integerMax ∧
      parseFrames J deflate (16 + (utf8Encode spaceId).length) body = .ok (parsed, rest) ∧
      log = endOfLog spaceId deflate false (16 + (utf8Encode spaceId).length) bytes.length parsed rest := by
  rw [parseTripleLogBytes_eq_ok_iff]
  constructor
  · rintro ⟨deflate, continuation, spaceId, body, parsed, rest, hallow, hbytes, h⟩
    cases continuation with
    | false => exact ⟨deflate, spaceId, body, parsed, rest, by rw [hbytes, logHeader_false], h⟩
    | true => cases hallow rfl
  · rintro ⟨deflate, spaceId, body, parsed, rest, hbytes, h⟩
    exact ⟨deflate, false, spaceId, body, parsed, rest, nofun, by rw [hbytes, logHeader_false], h⟩

end Parsing

/-! ## Opening -/

section Opening

variable {Γ : Host} {J : Gzip} {deflate : Bool} {stored : List Bytes} {frames frames' : List TransactionFrame} {rest : Bytes}

/-- A replay of frames succeeds exactly when they continue the store, and appends them. -/
theorem replayFrames_ok_iff {s s' : TermStore} (h : Represents Γ s frames') :
    replayFrames Γ s frames = .ok s' ↔ Continues s.nextSequence frames ∧ s' = Fram.appendFrames Γ s frames := by
  unfold replayFrames
  refine h.foldlM_ok_iff fun f s' hs => ?_
  rw [← hs.replayTransactionLong_ok_iff, ExceptList.bind_eq_ok_iff]
  constructor
  · rintro ⟨r, hr, he⟩
    cases he
    exact ⟨r.2, hr⟩
  · rintro ⟨c, hc⟩
    exact ⟨_, hc, rfl⟩

/-- Frames that continue the empty history are replayed over a new store, which then holds their history. -/
theorem replayFrames_new (h : Continues 1 frames) {spaceId : String} {s : TermStore} (hs : newTermStore spaceId = .ok s) :
    ∃ s', replayFrames Γ s frames = .ok s' ∧ Represents Γ s' frames ∧ s'.spaceId = spaceId := by
  obtain ⟨hrep, hspace, -⟩ := represents_newTermStoreSized Γ hs
  have hnext : s.nextSequence = 1 := hrep.advances.last
  rw [← hnext] at h
  refine ⟨_, (replayFrames_ok_iff hrep).2 ⟨h, rfl⟩, ?_, (appendFrames_spaceId s frames).trans hspace⟩
  simpa using hrep.appendContinues h

/-- A generation with a cut rest opens: the database holds the history of its frames, and a repair cuts the rest off. -/
theorem openDatabase_generation {spaceId : String} (hne : spaceId ≠ "") (hsize : (utf8Encode spaceId).length ≤ integerMax)
    (hst : List.Forall₂ (Stores J deflate) stored frames) (hc : Records.Cut integerMax rest) (ho : Continues 1 frames)
    {expectedSpace : Option String} (he : expectedSpace = none ∨ expectedSpace = some spaceId) (repairTorn : Bool) :
    ∃ db log, openDatabase Γ J (generationHeader deflate spaceId ++ (Records.records crc32 stored ++ rest)) expectedSpace
        repairTorn = .ok (db, log) ∧ Represents Γ db.termStore frames ∧ db.termStore.spaceId = spaceId ∧ db.spaceId = spaceId ∧
      db.deflate = (if 4 ≤ rest.length then none else some deflate) ∧ db.mutationState = .ready ∧
      (repairTorn = true → db.tornTail = none ∧ log = generationHeader deflate spaceId ++ Records.records crc32 stored) := by
  obtain ⟨ends, hparse⟩ := parseFrames_pieces hst hc (16 + (utf8Encode spaceId).length)
  generalize hbytes : generationHeader deflate spaceId ++ (Records.records crc32 stored ++ rest) = bytes
  generalize hlog : endOfLog spaceId deflate false (16 + (utf8Encode spaceId).length) bytes.length
    (frames, 16 + (utf8Encode spaceId).length + (Records.records crc32 stored).length, ends) rest = parsed
  have hp : parseTripleLogBytes J bytes false = .ok parsed :=
    parseTripleLogBytes_ok_iff.2 ⟨deflate, spaceId, _, _, rest, hbytes.symm, hne, hsize, hparse, hlog.symm⟩
  -- What the three ends have in common, and where they differ.
  have hfields : parsed.spaceId = spaceId ∧ parsed.frames = frames ∧
      parsed.validBytes = 16 + (utf8Encode spaceId).length + (Records.records crc32 stored).length ∧
      parsed.deflate = (if 4 ≤ rest.length then none else some deflate) ∧ (parsed.tornTail = none ↔ rest = []) := by
    rw [← hlog]
    unfold endOfLog
    dsimp only
    by_cases h0 : rest.length = 0
    · rw [if_pos h0]
      exact ⟨rfl, rfl, rfl, by rw [if_neg (by omega)], by simpa using h0⟩
    · have hrest : rest ≠ [] := fun h => h0 (by rw [h]; rfl)
      rw [if_neg h0]
      by_cases h4 : rest.length < 4
      · rw [if_pos h4]
        exact ⟨rfl, rfl, rfl, by rw [if_neg (by omega)], by simpa using hrest⟩
      · rw [if_neg h4]
        exact ⟨rfl, rfl, rfl, by rw [if_pos (by omega)], by simpa using hrest⟩
  obtain ⟨hspace, hframes, hvalid, hdeflate, htorn⟩ := hfields
  obtain ⟨s, hs⟩ := exists_newTermStoreSized hne 0 0 0
  obtain ⟨s', hreplay, hrep, hsp⟩ := replayFrames_new (Γ := Γ) ho (show newTermStore spaceId = .ok s from hs)
  have hexpected : expectedSpace.any (fun space => decide (space ≠ spaceId)) = false := by
    rcases he with rfl | rfl <;> simp
  unfold openDatabase
  rw [hp]
  simp only [bind, Except.bind, hexpected, Bool.false_eq_true, if_false, hspace, show newTermStore spaceId = .ok s from hs,
    hframes, hreplay]
  refine ⟨_, _, rfl, hrep, hsp, rfl, hdeflate, rfl, fun hr => ?_⟩
  subst hr
  refine ⟨rfl, ?_⟩
  have hlen : (generationHeader deflate spaceId).length = 16 + (utf8Encode spaceId).length := by simp [generationHeader]
  cases ht : parsed.tornTail with
  | none =>
    obtain rfl := htorn.1 ht
    rw [← hbytes]
    simp
  | some tail =>
    rw [hvalid, ← hbytes, ← hlen, ← List.length_append, ← List.append_assoc]
    exact if_pos ⟨rfl, rfl⟩ |>.trans List.take_left

/-- A log that opens is a generation with a cut rest, whose frames continue the empty history. -/
theorem generation_of_openDatabase {bytes log : Bytes} {expectedSpace : Option String} {repairTorn : Bool} {db : Db}
    (h : openDatabase Γ J bytes expectedSpace repairTorn = .ok (db, log)) : ∃ deflate spaceId stored frames rest,
      bytes = generationHeader deflate spaceId ++ (Records.records crc32 stored ++ rest) ∧ spaceId ≠ "" ∧
        (utf8Encode spaceId).length ≤ integerMax ∧ List.Forall₂ (Stores J deflate) stored frames ∧
        Records.Cut integerMax rest ∧ Continues 1 frames ∧ (expectedSpace = none ∨ expectedSpace = some spaceId) := by
  unfold openDatabase at h
  obtain ⟨parsed, hp, h⟩ := ExceptList.bind_eq_ok_iff.1 h
  obtain ⟨deflate, spaceId, body, frames, rest, hbytes, hne, hsize, hparse, hlog⟩ := parseTripleLogBytes_ok_iff.1 hp
  obtain ⟨stored, hpieces, hst⟩ := parseFrames_ok hparse
  have hends : parsed.spaceId = spaceId ∧ parsed.frames = frames.1 := by
    rw [hlog]
    unfold endOfLog
    dsimp only
    split
    · exact ⟨rfl, rfl⟩
    · split <;> exact ⟨rfl, rfl⟩
  rw [hends.1, hends.2] at h
  split at h
  · cases h
  rename_i hexpected
  obtain ⟨s, hs, h⟩ := ExceptList.bind_eq_ok_iff.1 h
  obtain ⟨s', hreplay, -⟩ := ExceptList.bind_eq_ok_iff.1 h
  obtain ⟨hrep, -, -⟩ := represents_newTermStoreSized Γ hs
  obtain ⟨hc, -⟩ := (replayFrames_ok_iff hrep).1 hreplay
  have hnext : s.nextSequence = 1 := hrep.advances.last
  refine ⟨deflate, spaceId, stored, frames.1, rest, by rw [hbytes, hpieces.bytes], hne, hsize, hst, hpieces.cut, hnext ▸ hc, ?_⟩
  cases expectedSpace with
  | none => exact Or.inl rfl
  | some space => exact Or.inr (by simpa using hexpected)

end Opening

end Fram.Database
