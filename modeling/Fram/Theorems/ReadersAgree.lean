import Fram.Lemmas.Committed
import Fram.Lemmas.CrashRun
import Fram.Lemmas.Database
import Fram.Lemmas.Replay
import Fram.Lemmas.Run
import Fram.Lemmas.WholeLog

/-!
# The readers of a log agree

A log is read by the stream that boots a store, in one piece or in chunks, by the reader of a whole file, and by the JVM. Each refuses
it, or takes the same space and the same frames from it and finds the same bytes valid, within the limits of the stream; only a NaN is
refused by the reader of a whole file alone. The stream takes spaces and payloads of fewer bytes than the others, a chunk that ends
inside the header is an error, and of an empty log the JVM makes nothing.

A boot replays a frame straight from its bytes, and so leaves the store that decoding first and replaying then leaves.
-/

namespace Fram

open LittleEndian

/-- The header has neither the flag of compression nor that of a continuation. -/
def Unflagged (bytes : Bytes) : Prop := u16LeAt bytes 10 &&& 3 = 0

/-- The length of the space is within the limit of the stream, and so is the length behind frames that are within it. -/
def WithinStreamLimits (bytes : Bytes) : Prop :=
  u32LeAt bytes 12 ≤ framlogStreamMaxSpaceBytes ∧ ∀ payloads rest, (∀ p ∈ payloads, p.length ≤ framlogStreamMaxPayloadBytes) →
    bytes.drop (16 + u32LeAt bytes 12) = Records.records crc32 payloads ++ rest → 4 ≤ rest.length →
      Records.wordAt rest 0 ≤ framlogStreamMaxPayloadBytes

/-- The chunks are the bytes, and the first of them holds the header. -/
def ChunksOf (bytes first : Bytes) (chunks : List Bytes) : Prop :=
  bytes = first ++ chunks.flatten ∧ min bytes.length (16 + u32LeAt bytes 12) ≤ first.length

/-- The stream reads the space and the frames from the chunks, and finds so many bytes valid. -/
def StreamReads (Γ : Host) (configured : String) (chunks : List Bytes) (spaceId : String) (frames : List TransactionFrame)
    (valid : Nat) : Prop :=
  ∃ stream root, consumeFramlogChunks Γ (startFramlogStream configured) chunks = .ok (.ok stream) ∧ stream.store = some root ∧
    HasHistory Γ (closeFold root) spaceId frames ∧ stream.validLogBytes = valid

/-- The JVM reads the space and the frames, and keeps so many bytes. -/
def JvmReads (Γ : Host) (J : Database.Gzip) (configured : String) (bytes : Bytes) (spaceId : String)
    (frames : List TransactionFrame) (valid : Nat) : Prop :=
  ∃ db log, Database.openDatabase Γ J bytes (if configured = "" then none else some configured) true = .ok (db, log) ∧
    HasHistory Γ db.termStore spaceId frames ∧ log.length = valid

/-- The boot of the whole file, if it does not fail, has the space and the frames, and finds so many bytes valid. -/
def WholeReads (Γ : Host) (configured : String) (bytes : Bytes) (spaceId : String) (frames : List TransactionFrame)
    (valid : Nat) : Prop :=
  ∀ result, bootFramlog Γ configured bytes = .ok result →
    HasHistory Γ result.store spaceId frames ∧ result.validLogBytes = valid

section Limits

variable {Γ : Host} {J : Database.Gzip} {configured : String} {bytes : Bytes} {spaceId : String} {frames : List TransactionFrame}
  {valid : Nat}

/-- Larger limits take the same log. -/
theorem Logged.mono {spaceLimit spaceLimit' limit limit' : Nat} (hs : spaceLimit ≤ spaceLimit') (hl : limit ≤ limit')
    (h : Logged spaceLimit limit bytes spaceId frames valid) : Logged spaceLimit' limit' bytes spaceId frames valid := by
  obtain ⟨body, payloads, rest, hbytes, hp, hd, hv⟩ := h.pieces
  refine ⟨⟨h.space.1, h.space.2.trans hs⟩, ⟨body, payloads, rest, hbytes, ⟨hp.bytes, fun p hm => (hp.sizes p hm).trans hl, ?_⟩, hd, hv⟩,
    h.continues⟩
  rcases hp.cut with hc | ⟨hw, hc⟩
  · exact Or.inl hc
  · exact Or.inr ⟨hw.trans hl, hc⟩

/-- A log within the limits of the stream is one for the stream. -/
theorem Logged.within (h : Logged maxCodecCount maxCodecCount bytes spaceId frames valid) (hw : WithinStreamLimits bytes) :
    Logged framlogStreamMaxSpaceBytes framlogStreamMaxPayloadBytes bytes spaceId frames valid := by
  obtain ⟨body, payloads, rest, rfl, hp, hd, hv⟩ := h.pieces
  obtain ⟨-, -, -, p4, -, p6⟩ := headerBytes_parts (h.space.2.trans_lt maxCodecCount_lt) body
  obtain ⟨hspace, hwords⟩ := hw
  rw [p4, p6] at hwords
  rw [p4] at hspace
  -- frame by frame: the length of each is the word that a reader comes to behind those before it
  have hbefore : ∀ pre post, payloads = pre ++ post → ∀ p ∈ pre, p.length ≤ framlogStreamMaxPayloadBytes := by
    intro pre
    induction pre using List.reverseRecOn with
    | nil => simp
    | append_singleton pre p ih =>
      intro post hpost
      rw [List.append_assoc] at hpost
      have hpre := ih _ hpost
      have hsize := hp.sizes p (by rw [hpost]; simp)
      have hword := @Records.wordAt_record crc32 p (hsize.trans_lt maxCodecCount_lt) (Records.records crc32 post ++ rest)
      have hle := hwords pre (Records.record crc32 p ++ (Records.records crc32 post ++ rest)) hpre
        (by rw [hp.bytes, hpost]; simp only [Records.records_append, Records.records_cons, List.append_assoc, List.cons_append,
          List.nil_append])
        (by simp only [List.length_append, Records.length_record]; omega)
      rw [hword] at hle
      simp only [List.mem_append, List.mem_singleton]
      rintro q (hq | rfl)
      · exact hpre q hq
      · exact hle
  have hsizes := hbefore payloads [] (List.append_nil payloads).symm
  refine ⟨⟨h.space.1, hspace⟩, ⟨body, payloads, rest, rfl, ⟨hp.bytes, hsizes, ?_⟩, hd, hv⟩, h.continues⟩
  by_cases h4 : rest.length < 4
  · exact Or.inl h4
  · rcases hp.cut with hc | ⟨-, hc⟩
    · exact Or.inl hc
    · exact Or.inr ⟨hwords payloads rest hsizes hp.bytes (by omega), hc⟩

/-- A log for the stream is within its limits. -/
theorem Logged.withinStreamLimits (h : Logged framlogStreamMaxSpaceBytes framlogStreamMaxPayloadBytes bytes spaceId frames valid) :
    WithinStreamLimits bytes := by
  obtain ⟨body, payloads, rest, rfl, hp, -, -⟩ := h.pieces
  obtain ⟨-, -, -, p4, -, p6⟩ := headerBytes_parts (h.space.2.trans_lt (by decide)) body
  rw [WithinStreamLimits, p4, p6]
  exact ⟨h.space.2, fun payloads' rest' hs hb h4 => hp.word_le (by decide) crc32_lt hb hs h4⟩

/-- The JVM reads a plain log. -/
theorem Logged.jvmReads (h : Logged maxCodecCount maxCodecCount bytes spaceId frames valid)
    (hconf : configured = "" ∨ configured = spaceId) : JvmReads Γ J configured bytes spaceId frames valid := by
  obtain ⟨body, payloads, rest, rfl, hp, hd, rfl⟩ := h.pieces
  have hst : List.Forall₂ (Database.Stores J false) payloads frames := by
    have hsizes := hp.sizes
    clear hp h
    induction hd with
    | nil => exact .nil
    | cons hf _ ih =>
      rw [List.forall_mem_cons] at hsizes
      exact .cons ⟨hsizes.1, _, rfl, Database.decodeTransactionPayload_eq_ok_iff.2 hf⟩ (ih hsizes.2)
  have hexpected : (if configured = "" then none else some configured) = none ∨
      (if configured = "" then none else some configured) = some spaceId := by
    by_cases he : configured = ""
    · exact Or.inl (if_pos he)
    · exact Or.inr (by rw [if_neg he, hconf.resolve_left he])
  obtain ⟨db, log, hopen, hrep, hspace, -, -, -, hlog⟩ := @Database.openDatabase_generation Γ J false payloads frames rest spaceId
    h.space.1 h.space.2 hst hp.cut h.continues _ hexpected true
  refine ⟨db, log, ?_, hspace ▸ hrep.hasHistory, ?_⟩
  · rw [hp.bytes]
    exact hopen
  · rw [(hlog rfl).2, List.length_append]
    rfl

/-- What a log without flags stores of frames is their payloads. -/
theorem decode_of_stores {stored : List Bytes} (h : List.Forall₂ (Database.Stores J false) stored frames) : Decode stored frames :=
  h.imp fun p f hs => by
    obtain ⟨raw, hraw, hframe⟩ := hs.decodes
    cases hraw
    exact Database.decodeTransactionPayload_eq_ok_iff.1 hframe

/-- A log without flags that the JVM opens. -/
theorem logged_of_openDatabase (hu : Unflagged bytes) {r : Database.Db × Bytes}
    (h : Database.openDatabase Γ J bytes (if configured = "" then none else some configured) true = .ok r) :
    ∃ spaceId frames valid, Logged maxCodecCount maxCodecCount bytes spaceId frames valid ∧
      (configured = "" ∨ configured = spaceId) := by
  obtain ⟨db, log⟩ := r
  obtain ⟨deflate, spaceId, stored, frames, rest, rfl, hne, hsize, hst, hcut, hc, he⟩ := Database.generation_of_openDatabase h
  obtain ⟨-, -, p3, -⟩ := flaggedHeader_parts (Database.generationFlags_lt deflate) (hsize.trans_lt maxCodecCount_lt)
    (Records.records crc32 stored ++ rest)
  obtain rfl : deflate = false := by
    unfold Unflagged Database.generationHeader at hu
    rw [p3] at hu
    cases deflate with
    | false => rfl
    | true => exact absurd hu (by decide)
  refine ⟨spaceId, frames, _, ⟨⟨hne, hsize⟩, ⟨_, stored, rest, rfl, ⟨rfl, Database.stored_sizes hst, hcut⟩, decode_of_stores hst, rfl⟩,
    hc⟩, ?_⟩
  by_cases hempty : configured = ""
  · exact Or.inl hempty
  · rw [if_neg hempty] at he
    exact Or.inr (by simpa using he)

end Limits

/-- **The readers of a log agree.** On bytes that are not empty and carry no flag, within the limits of the stream, and for every way to
cut them into chunks the first of which holds the header: either the stream and the JVM read the same space, frames and valid bytes,
and so does the boot of the whole file, which does not fail where the frames are free of NaN; or all refuse. -/
theorem readers_agree (Γ : Host) (J : Database.Gzip) (configured : String) {bytes first : Bytes} {chunks : List Bytes}
    (hb : bytes ≠ []) (hu : Unflagged bytes) (hw : WithinStreamLimits bytes) (hc : ChunksOf bytes first chunks) :
    (∃ spaceId frames valid, StreamReads Γ configured (first :: chunks) spaceId frames valid ∧
        JvmReads Γ J configured bytes spaceId frames valid ∧ WholeReads Γ configured bytes spaceId frames valid ∧
        (NaNFree frames → ∃ result, bootFramlog Γ configured bytes = .ok result)) ∨
      ((∀ stream, consumeFramlogChunks Γ (startFramlogStream configured) (first :: chunks) ≠ .ok (.ok stream)) ∧
        (∀ r, Database.openDatabase Γ J bytes (if configured = "" then none else some configured) true ≠ .ok r) ∧
        ∀ result, bootFramlog Γ configured bytes ≠ .ok result) := by
  obtain ⟨hbytes, hfirst⟩ := hc
  have hne : first ≠ [] := by
    rintro rfl
    have := List.length_pos_iff.2 hb
    rw [List.length_nil] at hfirst
    omega
  have hspaces : framlogStreamMaxSpaceBytes ≤ maxCodecCount := by decide
  have hpayloads : framlogStreamMaxPayloadBytes ≤ maxCodecCount := by decide
  by_cases hlog : ∃ spaceId frames valid, Logged maxCodecCount maxCodecCount bytes spaceId frames valid ∧
      (configured = "" ∨ configured = spaceId)
  · left
    obtain ⟨spaceId, frames, valid, h, hconf⟩ := hlog
    have hsmall := h.within hw
    have hheader : (headerBytes spaceId).length ≤ first.length := by
      obtain ⟨body, -, -, rfl, -⟩ := h.pieces
      obtain ⟨-, -, -, p4, -⟩ := headerBytes_parts (h.space.2.trans_lt maxCodecCount_lt) body
      rw [p4, List.length_append, length_headerBytes] at hfirst
      rw [length_headerBytes]
      omega
    obtain ⟨stream, root, hstream, hroot, hrep, hspace, hvalid⟩ := hsmall.chunks (Γ := Γ) hconf hbytes hheader
    refine ⟨spaceId, frames, valid, ⟨stream, root, hstream, hroot, ?_, hvalid⟩, h.jvmReads hconf, fun result hr => ?_,
      fun hn => h.bootFramlog hconf hn⟩
    · have := hrep.closeFold.hasHistory
      rwa [show (closeFold root).spaceId = spaceId by rw [closeFold_frame]; exact hspace] at this
    · obtain ⟨spaceId', frames', hlog', -, hrep', hspace'⟩ := logged_of_bootFramlog hb hr
      obtain ⟨rfl, rfl, rfl⟩ := h.unique maxCodecCount_lt maxCodecCount_lt hlog'
      exact ⟨hspace' ▸ hrep'.hasHistory, rfl⟩
  · right
    refine ⟨fun stream hs => ?_, fun r hr => ?_, fun result hr => ?_⟩
    · obtain ⟨spaceId, frames, root, h, hconf, -⟩ := logged_of_chunks hne hs
      rw [← hbytes] at h
      exact hlog ⟨spaceId, frames, _, h.mono hspaces hpayloads, hconf⟩
    · exact hlog (logged_of_openDatabase hu hr)
    · obtain ⟨spaceId, frames, h, hconf, -⟩ := logged_of_bootFramlog hb hr
      exact hlog ⟨spaceId, frames, _, h, hconf⟩

/-- **What the JVM writes boots natively.** After every run of commits, cohorts, crashes and reopens over a log without flags that was
created, and within the limits of the stream: the stream reads the frames that were written whole from it, and so does the boot of the
whole file where they are free of NaN. -/
theorem written_log_boots (Γ : Host) (J : Database.Gzip) {spaceId : String} {header : Bytes}
    (hc : Database.createTripleLog spaceId false false = .ok header) {events : List Database.Event}
    (hm : Database.MeetsRun Γ J false (Database.created header) events) {w : Database.World}
    (hrun : (Database.created header).run Γ J events = w) (hw : WithinStreamLimits w.log) {configured : String}
    (hconf : configured = "" ∨ configured = spaceId) : ∃ valid, StreamReads Γ configured [w.log] spaceId w.frames valid ∧
      (NaNFree w.frames → ∃ result, bootFramlog Γ configured w.log = .ok result ∧ HasHistory Γ result.store spaceId w.frames ∧
        result.validLogBytes = valid) := by
  obtain ⟨rfl, hne, hsize⟩ := Database.createTripleLog_ok_iff.1 hc
  have hsound := (Database.sound_created (Γ := Γ) (J := J)).run hne hsize hm
  rw [hrun] at hsound
  obtain ⟨stored, rest, hlog, hst, hcut, -⟩ := hsound.log
  have h : Logged maxCodecCount maxCodecCount w.log spaceId w.frames _ :=
    ⟨⟨hne, hsize⟩, ⟨_, stored, rest, hlog, ⟨rfl, Database.stored_sizes hst, hcut⟩, decode_of_stores hst, rfl⟩, hsound.ordered⟩
  have hb : w.log ≠ [] := by
    intro he
    have := congrArg List.length he
    rw [hlog, List.length_append] at this
    simp [Database.generationHeader] at this
  have hheader : (headerBytes spaceId).length ≤ w.log.length := by
    rw [hlog, List.length_append]
    simp [Database.generationHeader]
  have hone : w.log = w.log ++ ([] : List Bytes).flatten := by simp
  obtain ⟨stream, root, hstream, hroot, hrep, hspace, hvalid⟩ := (h.within hw).chunks (Γ := Γ) hconf hone hheader
  refine ⟨_, ⟨stream, root, hstream, hroot, ?_, hvalid⟩, fun hn => ?_⟩
  · have := hrep.closeFold.hasHistory
    rwa [show (closeFold root).spaceId = spaceId by rw [closeFold_frame]; exact hspace] at this
  · obtain ⟨result, hr⟩ := h.bootFramlog (Γ := Γ) hconf hn
    obtain ⟨spaceId', frames', hlog', -, hrep', hspace'⟩ := logged_of_bootFramlog hb hr
    obtain ⟨rfl, hf, hvalid'⟩ := h.unique maxCodecCount_lt maxCodecCount_lt hlog'
    exact ⟨result, hr, hspace' ▸ hf ▸ hrep'.hasHistory, hvalid'.symm⟩

/-- A log of committed frames is one for the stream. -/
theorem CommittedLog.logged {configured spaceId : String} {payloads : List Bytes} {frames : List TransactionFrame}
    (h : CommittedLog configured spaceId payloads frames) : Logged framlogStreamMaxSpaceBytes framlogStreamMaxPayloadBytes
      (logBytes spaceId payloads) spaceId frames (logBytes spaceId payloads).length := by
  obtain ⟨ps, tail, hp, hd, hc, hn⟩ := scans_iff.1 h.chain.scans
  refine ⟨⟨h.header.nonempty, h.header.size⟩, ⟨_, ps, tail, rfl, hp, hd, ?_⟩, hc⟩
  rw [length_logBytes, hn]

set_option maxRecDepth 20000 in
/-- The log of one assertion, cut into two chunks inside its frame. -/
theorem readers_agree_split : ∃ spaceId frames valid,
    StreamReads Host.zero "s" [(logBytes "s" [oneFrame.payload]).take 40, (logBytes "s" [oneFrame.payload]).drop 40] spaceId frames
        valid ∧
      JvmReads Host.zero Database.storingGzip "s" (logBytes "s" [oneFrame.payload]) spaceId frames valid ∧
      WholeReads Host.zero "s" (logBytes "s" [oneFrame.payload]) spaceId frames valid := by
  have hboots : (bootFramlog Host.zero "s" (logBytes "s" [oneFrame.payload])).isOk = true := by with_unfolding_all decide
  have hc : ChunksOf (logBytes "s" [oneFrame.payload]) ((logBytes "s" [oneFrame.payload]).take 40)
      [(logBytes "s" [oneFrame.payload]).drop 40] := ⟨by simp, by decide⟩
  rcases readers_agree Host.zero Database.storingGzip "s" (by decide) (by unfold Unflagged; decide)
    committedLog_one.logged.withinStreamLimits hc with ⟨spaceId, frames, valid, hs, hj, hw, -⟩ | ⟨-, -, hw⟩
  · exact ⟨spaceId, frames, valid, hs, hj, hw⟩
  · cases hr : bootFramlog Host.zero "s" (logBytes "s" [oneFrame.payload]) with
    | error => simp [hr, Except.isOk, Except.toBool] at hboots
    | ok result => exact absurd hr (hw result)

theorem length_utf8Encode_replicate (n : Nat) : (utf8Encode (String.ofList (List.replicate n 'a'))).length = n := by
  rw [utf8Encode, String.toList_ofList, List.length_flatMap, List.map_replicate, List.sum_replicate]
  simp [String.utf8EncodeChar]

/-- A space of more bytes than the stream takes. -/
def wideSpace : String := String.ofList (List.replicate 4097 'a')

theorem length_utf8Encode_wideSpace : (utf8Encode wideSpace).length = 4097 := length_utf8Encode_replicate 4097

theorem wideSpace_ne : wideSpace ≠ "" := by
  rw [Ne, ← utf8Encode_eq_nil_iff, ← List.length_eq_zero_iff, length_utf8Encode_wideSpace]
  decide

/-- A log of the JVM of a space that is not empty, without frames. -/
theorem logged_headerBytes {spaceId : String} (hne : spaceId ≠ "") (hs : (utf8Encode spaceId).length ≤ maxCodecCount) {rest : Bytes}
    (hr : Records.Cut maxCodecCount rest) :
    Logged maxCodecCount maxCodecCount (headerBytes spaceId ++ rest) spaceId [] (headerBytes spaceId).length :=
  ⟨⟨hne, hs⟩, ⟨rest, [], rest, rfl, ⟨rfl, nofun, hr⟩, .nil, rfl⟩, trivial⟩

/-- Three logs that part the readers. A new log of the JVM, of a wide space, the stream refuses; a header and the length of a frame of
more than a mebibyte, which to the JVM and to the reader of a whole file is a torn tail, it refuses too; and of the empty log the JVM
makes nothing. -/
theorem readers_apart : (∃ header, Database.createTripleLog wideSpace false false = .ok header ∧
      (∀ J, JvmReads Host.zero J "" header wideSpace [] 4113) ∧
      ∀ stream, consumeFramlogChunks Host.zero (startFramlogStream "") [header] ≠ .ok (.ok stream)) ∧
    ((∀ J, JvmReads Host.zero J "" (headerBytes "s" ++ toBytes 4 1048577) "s" [] 17) ∧
      (bootFramlog Host.zero "" (headerBytes "s" ++ toBytes 4 1048577)).isOk ∧
      ∀ stream, consumeFramlogChunks Host.zero (startFramlogStream "") [headerBytes "s" ++ toBytes 4 1048577] ≠ .ok (.ok stream)) ∧
    ((∃ stream, consumeFramlogChunks Host.zero (startFramlogStream "s") [[]] = .ok (.ok stream)) ∧
      ∀ J r, Database.openDatabase Host.zero J [] (some "s") true ≠ .ok r) := by
  have hwide : (utf8Encode wideSpace).length ≤ maxCodecCount := by
    rw [length_utf8Encode_wideSpace]
    decide
  have hheader : (headerBytes wideSpace).length = 4113 := by
    rw [length_headerBytes, length_utf8Encode_wideSpace]
  refine ⟨⟨headerBytes wideSpace, ?_, fun J => ?_, fun stream hs => ?_⟩, ⟨fun J => ?_, ?_, fun stream hs => ?_⟩, ⟨⟨_, rfl⟩, nofun⟩⟩
  · exact Database.createTripleLog_ok_iff.2 ⟨rfl, wideSpace_ne, hwide⟩
  · have h := logged_headerBytes wideSpace_ne hwide (Or.inl (by decide) : Records.Cut maxCodecCount [])
    rw [List.append_nil, hheader] at h
    exact h.jvmReads (Or.inl rfl)
  · obtain ⟨spaceId, frames, -, h, -⟩ := logged_of_chunks (List.length_pos_iff.1 (by omega)) hs
    obtain ⟨body, payloads, rest, hb, -⟩ := h.pieces
    obtain ⟨hspace, -⟩ := headerBytes_append_inj (hwide.trans_lt maxCodecCount_lt) (h.space.2.trans_lt (by decide)) hb
    have hsize := h.space.2
    rw [← hspace, length_utf8Encode_wideSpace] at hsize
    exact absurd hsize (by decide)
  · exact (logged_headerBytes (by decide) (by decide) (Or.inr (by decide))).jvmReads (Or.inl rfl)
  · with_unfolding_all decide
  · obtain ⟨spaceId, frames, -, h, -⟩ := logged_of_chunks (by decide) hs
    obtain ⟨body, payloads, rest, hb, hp, -⟩ := h.pieces
    rw [List.flatten_nil, List.append_nil] at hb
    obtain ⟨-, hbody⟩ := headerBytes_append_inj (by decide) (h.space.2.trans_lt (by decide)) hb
    rw [← hbody] at hp
    exact absurd (@Records.Pieces.word_le _ _ _ _ _ (by decide) crc32_lt hp [] _ rfl nofun (by decide)) (by decide)

/-! ## Fused replay -/

/-- (`decode-frame-payload-range!`, then `replay-transaction-result!`) A payload that is decoded first and replayed then. -/
def decodeThenReplay (Γ : Host) (s : TermStore) (payload : Bytes) : TermStore × TransactionReplayResult :=
  match decodeFramePayload payload with
  | .error message => (s, transactionReplayError "invalid-transaction-frame" message)
  | .ok frame => replayTransactionResult Γ s frame

section Fused

variable {Γ : Host} {s s' : TermStore} {payload : Bytes}

/-- A payload that is decoded first is accepted when its sequence advances and is one that a log admits. -/
theorem decodeThenReplay_ok_iff : (∃ result, decodeThenReplay Γ s payload = (s', result) ∧ result.ok = true) ↔
    ∃ frame, decodeFramePayload payload = .ok frame ∧ s.nextSequence ≤ frame.sequence ∧
      frame.sequence ≤ maxTransactionSequence ∧ s' = appendValidTransaction Γ s frame.sequence frame.operations := by
  unfold decodeThenReplay
  cases hd : decodeFramePayload payload with
  | error message => simp [transactionReplayError]
  | ok frame =>
    obtain ⟨-, hl, -⟩ := decodeFramePayload_eq_ok_iff.1 hd
    have hempty : frame.operations.isEmpty = false := by simpa using hl.nonempty
    simp only [Except.ok.injEq, exists_eq_left']
    unfold replayTransactionResult appendTransactionResult
    rw [if_pos ⟨hl.nonneg, hempty⟩, if_neg (by simp [hempty])]
    split
    · simp [nonmonotonicSequence, transactionReplayError]
      omega
    · split
      · simp [transactionReplayUnclassifiedError]
        omega
      · rename_i h1 h2
        simp only [Prod.mk.injEq, transactionReplayOk]
        constructor
        · rintro ⟨result, ⟨rfl, rfl⟩, -⟩
          exact ⟨by omega, by omega, rfl⟩
        · rintro ⟨-, -, rfl⟩
          exact ⟨_, ⟨rfl, rfl⟩, rfl⟩

/-- The two replays accept into the same stores. -/
theorem replayFrameFused_accepts_iff : (∃ result, replayFrameFused Γ s payload = (s', result) ∧ result.ok = true) ↔
    ∃ result, decodeThenReplay Γ s payload = (s', result) ∧ result.ok = true :=
  replayFrameFused_ok_iff.trans decodeThenReplay_ok_iff.symm

end Fused

/-- For every store and every payload the two replays accept alike. When they accept, they leave one store, which has the atom rows and the
triple rows that interning the propositions of the decoded frame in order leaves, and the history of the store is longer by that frame. -/
theorem fused_replay (Γ : Host) (s : TermStore) (payload : Bytes) :
    (replayFrameFused Γ s payload).2.ok = (decodeThenReplay Γ s payload).2.ok ∧
      ((replayFrameFused Γ s payload).2.ok = true →
        (replayFrameFused Γ s payload).1 = (decodeThenReplay Γ s payload).1 ∧
        ∃ frame, decodeFramePayload payload = .ok frame ∧
          (replayFrameFused Γ s payload).1.atoms = (operationHandles Γ s frame.operations).1.atoms ∧
          (replayFrameFused Γ s payload).1.triples = (operationHandles Γ s frame.operations).1.triples ∧
          ∀ frames, Represents Γ s frames → Represents Γ (replayFrameFused Γ s payload).1 (frames ++ [frame])) := by
  have hfused : (replayFrameFused Γ s payload).2.ok = true → ∃ result,
      replayFrameFused Γ s payload = ((replayFrameFused Γ s payload).1, result) ∧ result.ok = true :=
    fun h => ⟨_, Prod.mk.eta.symm, h⟩
  have hplain : (decodeThenReplay Γ s payload).2.ok = true → ∃ result,
      decodeThenReplay Γ s payload = ((decodeThenReplay Γ s payload).1, result) ∧ result.ok = true :=
    fun h => ⟨_, Prod.mk.eta.symm, h⟩
  constructor
  · rw [Bool.eq_iff_iff]
    constructor
    · intro h
      obtain ⟨result, he, hr⟩ := replayFrameFused_accepts_iff.1 (hfused h)
      rw [he]
      exact hr
    · intro h
      obtain ⟨result, he, hr⟩ := replayFrameFused_accepts_iff.2 (hplain h)
      rw [he]
      exact hr
  intro h
  obtain ⟨result, he, -⟩ := replayFrameFused_accepts_iff.1 (hfused h)
  obtain ⟨frame, hd, hl, -, hs⟩ := replayFrameFused_ok_iff.1 (hfused h)
  obtain ⟨-, hlog, -⟩ := decodeFramePayload_eq_ok_iff.1 hd
  refine ⟨by rw [he], frame, hd, ?_, ?_, fun frames hrep => ?_⟩
  · rw [hs]
    exact appendValidTransaction_atoms _ _
  · rw [hs]
    exact (appendRows_rows Γ _ _ _).2.2.2.1
  · rw [hs]
    exact hrep.appendValidTransaction hl hlog.nonempty

/-- A new store takes the frame of one assertion. -/
theorem fused_replay_one : ∃ s, newTermStoreSized "s" 0 0 0 = .ok s ∧
    (replayFrameFused Host.zero s oneFrame.payload).2.ok = true ∧
    (replayFrameFused Host.zero s oneFrame.payload).1 = (decodeThenReplay Host.zero s oneFrame.payload).1 := by
  obtain ⟨s, hs⟩ : ∃ s, newTermStoreSized "s" 0 0 0 = .ok s := ⟨_, rfl⟩
  have hok : (replayFrameFused Host.zero s oneFrame.payload).2.ok = true := by
    rw [(fused_replay Host.zero s oneFrame.payload).1]
    cases hs
    decide
  exact ⟨s, hs, hok, ((fused_replay Host.zero s oneFrame.payload).2 hok).1⟩

end Fram
