import Fram.Lemmas.Committed
import Fram.Lemmas.WholeLog

/-!
# A log with a byte changed

One byte of a log is changed. In a payload or a check the change is found by the check. In the length of a payload it is found too,
for what is then read does not decode, except where the new length is admitted and runs past the end of the log: that is taken for a
torn tail (`pieces_changed_frame`). The header has no check: where a space is configured its name is compared, and where none is, a log
can be taken for that of another space. The readers differ in the lengths that they admit and in whether they refuse a NaN (`LogReader`).
-/

namespace Fram

open LittleEndian

variable {i : Nat} {more rest : Bytes} {read : List Bytes} {found : List TransactionFrame}

/-! ## Readers -/

/-- A reader of logs: the most bytes that it takes for a name and for a payload, and the histories that it does not refuse in the end. -/
structure LogReader where
  space : Nat
  payload : Nat
  takes : List TransactionFrame → Prop
  space_lt : space < 256 ^ 4
  payload_lt : payload < 256 ^ 4

/-- The stream. -/
def streamReader : LogReader := ⟨framlogStreamMaxSpaceBytes, framlogStreamMaxPayloadBytes, fun _ => True, by decide, by decide⟩

/-- The reader of a whole file, which refuses a NaN. -/
def wholeReader : LogReader := ⟨maxCodecCount, maxCodecCount, NaNFree, by decide, by decide⟩

/-- The reader makes the space and the frames of the bytes. -/
structure LogReader.Reads (R : LogReader) (configured : String) (bytes : Bytes) (name : String) (frames : List TransactionFrame) :
    Prop where
  configured : configured = "" ∨ configured = name
  logged : ∃ valid, Logged R.space R.payload bytes name frames valid
  takes : R.takes frames

/-- A log that was written for a reader: the header of the space, and complete frames. -/
structure WrittenLog (R : LogReader) (configured spaceId : String) (payloads : List Bytes) (frames : List TransactionFrame) : Prop where
  space : spaceId ≠ "" ∧ (utf8Encode spaceId).length ≤ R.space
  configured : configured = "" ∨ configured = spaceId
  sizes : ∀ payload ∈ payloads, payload.length ≤ R.payload
  decode : Decode payloads frames
  continues : Continues 1 frames

/-- A log that was written for a reader was written for one that takes longer names and payloads. -/
theorem WrittenLog.mono {R R' : LogReader} {configured spaceId : String} {payloads : List Bytes} {frames : List TransactionFrame}
    (hs : R.space ≤ R'.space) (hp : R.payload ≤ R'.payload) (h : WrittenLog R configured spaceId payloads frames) :
    WrittenLog R' configured spaceId payloads frames :=
  ⟨⟨h.space.1, h.space.2.trans hs⟩, h.configured, fun payload hm => (h.sizes payload hm).trans hp, h.decode, h.continues⟩

/-! ## What a change is taken for -/

section Mistakes

variable (R : LogReader) (spaceId : String) (payloads : List Bytes) (frames : List TransactionFrame) (offset : Nat) (b : UInt8)

/-- The byte lies in the length of a payload, which then announces an admitted number of bytes that are not all there; the frames before
it are not refused. -/
def LogReader.RunsPastEnd : Prop :=
  ∃ pre payload post i, payloads = pre ++ payload :: post ∧ i < 4 ∧ offset = (logBytes spaceId pre).length + i ∧
    ofBytes ((toBytes 4 payload.length).set i b) ≤ R.payload ∧
    (logBytes spaceId payloads).length < (logBytes spaceId pre).length + 8 + ofBytes ((toBytes 4 payload.length).set i b) ∧
    R.takes (frames.take pre.length)

/-- The byte lies in the name of the space, which then reads as another; the frames are not refused. -/
def LogReader.Renames : Prop :=
  16 ≤ offset ∧ offset < (headerBytes spaceId).length ∧
    (∃ name, name ≠ spaceId ∧ utf8Decode ((utf8Encode spaceId).set (offset - 16) b) = some name) ∧ R.takes frames

/-- The byte lies in the length of the name, which then ends elsewhere: the bytes up to there read as a name, and those after it as
frames, which are not refused. -/
def LogReader.Resizes : Prop :=
  12 ≤ offset ∧ offset < 16 ∧ ∃ name body read rest found, name ≠ spaceId ∧ name ≠ "" ∧ (utf8Encode name).length ≤ R.space ∧
    (utf8Encode name).length = ofBytes ((toBytes 4 (utf8Encode spaceId).length).set (offset - 12) b) ∧
    utf8Encode spaceId ++ framesBytes payloads = utf8Encode name ++ body ∧
    Records.Pieces crc32 R.payload body read rest ∧ Decode read found ∧ Continues 1 found ∧ R.takes found

/-- The changed log is taken for another one. -/
def LogReader.Mistakes (configured : String) : Prop :=
  R.RunsPastEnd spaceId payloads frames offset b ∨
    configured = "" ∧ (R.Renames spaceId frames offset b ∨ R.Resizes spaceId payloads offset b)

end Mistakes

/-! ## One frame -/

section Frame

variable {payload : Bytes} {frame : TransactionFrame}

/-- The check of a payload is not that of the payload with a byte changed. -/
theorem crc32_set_ne (hi : i < payload.length) {b : UInt8} (hb : payload.set i b ≠ payload) : crc32 (payload.set i b) ≠ crc32 payload := by
  have hsplit : payload = payload.take i ++ payload[i] :: payload.drop (i + 1) := by
    rw [← List.drop_eq_getElem_cons hi, List.take_append_drop]
  have hset : payload.set i b = payload.take i ++ b :: payload.drop (i + 1) := by
    rw [List.set_eq_take_append_cons_drop, if_pos hi]
  have hne : b ≠ payload[i] := by
    rintro rfl
    exact hb (List.set_getElem_self hi)
  intro h
  refine Crc.checksum_ne_of_byte (by decide : crc32Polynomial.getLsbD (32 - 1) = true) (by decide) (payload.take i) (payload.drop (i + 1))
    hne ?_
  rw [← hset, ← hsplit]
  exact BitVec.eq_of_toNat_eq h

/-- Payloads that both decode and start the same bytes are one. -/
theorem eq_of_decode_append {payload' more' : Bytes} {frame' : TransactionFrame} (h : decodeFramePayload payload = .ok frame)
    (h' : decodeFramePayload payload' = .ok frame') (he : payload ++ more = payload' ++ more') : payload = payload' := by
  rcases List.append_eq_append_iff.1 he with ⟨x, rfl, -⟩ | ⟨x, rfl, -⟩
  · by_cases hx : x = []
    · rw [hx, List.append_nil]
    · exact absurd h' (decodeFramePayload_append h hx frame')
  · by_cases hx : x = []
    · rw [hx, List.append_nil]
    · exact absurd h (decodeFramePayload_append h' hx frame)

/-- A byte of a frame lies in its length, in its payload or in its check. -/
theorem frameBytes_set (payload : Bytes) (i : Nat) (b : UInt8) : (frameBytes payload).set i b =
    (toBytes 4 payload.length).set i b ++ ((if 4 ≤ i then payload.set (i - 4) b else payload) ++
      (if 4 + payload.length ≤ i then (toBytes 4 (crc32 payload)).set (i - 4 - payload.length) b
        else toBytes 4 (crc32 payload))) := by
  unfold frameBytes
  rw [List.set_append, length_toBytes]
  by_cases h4 : i < 4
  · simp [h4, show ¬4 ≤ i by omega, show ¬4 + payload.length ≤ i by omega]
  · have hl : (toBytes 4 payload.length).set i b = toBytes 4 payload.length :=
      List.set_eq_of_length_le (by rw [length_toBytes]; omega)
    rw [if_neg h4, if_pos (by omega), hl, List.set_append]
    by_cases hp : i - 4 < payload.length
    · rw [if_pos hp, if_neg (by omega)]
    · rw [if_neg hp, if_pos (by omega), List.set_eq_of_length_le (l := payload) (by omega)]

/-- The length that a frame with a byte changed announces. -/
theorem wordAt_changed_frame (payload : Bytes) (i : Nat) (b : UInt8) (more : Bytes) :
    Records.wordAt ((frameBytes payload).set i b ++ more) 0 = ofBytes ((toBytes 4 payload.length).set i b) := by
  unfold Records.wordAt
  rw [frameBytes_set, List.drop_zero, List.append_assoc, List.take_left' (by rw [List.length_set, length_toBytes])]

/-- A frame with a byte changed that is read as a frame is unchanged. -/
theorem changed_frame_eq {payload' : Bytes} {frame' : TransactionFrame} (h : decodeFramePayload payload = .ok frame)
    (hs : payload.length < 256 ^ 4) (h' : decodeFramePayload payload' = .ok frame') (hs' : payload'.length < 256 ^ 4)
    {b : UInt8} (he : (frameBytes payload).set i b ++ more = frameBytes payload' ++ rest) :
    (frameBytes payload).set i b = frameBytes payload := by
  rw [frameBytes_set]
  rw [frameBytes_set, frameBytes] at he
  simp only [List.append_assoc] at he
  obtain ⟨hword, he⟩ := List.append_inj he (by simp)
  by_cases h4 : 4 ≤ i
  · rw [if_pos h4] at he ⊢
    have hl : (toBytes 4 payload.length).set i b = toBytes 4 payload.length :=
      List.set_eq_of_length_le (by rw [length_toBytes]; omega)
    rw [hl] at hword ⊢
    have hlen : payload.length = payload'.length := by
      rw [← ofBytes_toBytes_of_lt hs, hword, ofBytes_toBytes_of_lt hs']
    obtain ⟨hpayload, he⟩ := List.append_inj he (by simpa using hlen)
    obtain ⟨hcheck, -⟩ := List.append_inj he (by split <;> simp)
    by_cases hp : 4 + payload.length ≤ i
    · -- the check is changed, and is still that of the payload
      rw [List.set_eq_of_length_le (l := payload) (by omega)] at hpayload ⊢
      rw [hcheck, ← hpayload, frameBytes]
    · -- the payload is changed, and the check is not
      rw [if_neg hp] at hcheck ⊢
      have hcrc : crc32 payload = crc32 (payload.set (i - 4) b) := by
        rw [← ofBytes_toBytes_of_lt (crc32_lt payload), hcheck, ← hpayload, ofBytes_toBytes_of_lt (crc32_lt _)]
      by_cases hb : payload.set (i - 4) b = payload
      · rw [hb, frameBytes]
      · exact absurd hcrc.symm (crc32_set_ne (by omega) hb)
  · -- the length is changed, and what it delimits is still the payload
    rw [if_neg h4, if_neg (by omega)] at he ⊢
    obtain rfl : payload = payload' := eq_of_decode_append h h' he
    rw [hword, frameBytes]

/-- What is read where a frame has a byte changed: nothing is changed, or the length runs past the end. -/
theorem pieces_changed_frame {limit : Nat} (hl : limit < 256 ^ 4) (h : decodeFramePayload payload = .ok frame)
    (hs : payload.length ≤ limit) {b : UInt8}
    (hp : Records.Pieces crc32 limit ((frameBytes payload).set i b ++ more) read rest) (hd : Decode read found) :
    (frameBytes payload).set i b = frameBytes payload ∨
      (read = [] ∧ i < 4 ∧ ofBytes ((toBytes 4 payload.length).set i b) ≤ limit ∧
        payload.length + more.length < ofBytes ((toBytes 4 payload.length).set i b)) := by
  cases hd with
  | nil =>
    right
    have hcut := (Records.pieces_nil_iff.1 hp).2
    unfold Records.Cut at hcut
    rw [wordAt_changed_frame, List.length_append, List.length_set, length_frameBytes] at hcut
    obtain ⟨hmax, hlt⟩ := hcut.resolve_left (by omega)
    refine ⟨rfl, ?_, hmax, by omega⟩
    by_contra h4
    rw [List.set_eq_of_length_le (by rw [length_toBytes]; omega), ofBytes_toBytes_of_lt (hs.trans_lt hl)] at hlt
    omega
  | cons h' _ =>
    obtain ⟨tail, he, hs', -⟩ := Records.pieces_cons_iff.1 hp
    exact .inl (changed_frame_eq h (hs.trans_lt hl) h' (hs'.trans_lt hl) he)

end Frame

/-! ## A byte of a frame in a log -/

section Frames

variable {R : LogReader} {configured spaceId : String} {payloads : List Bytes} {frames : List TransactionFrame}

/-- A byte of the frames lies in one of them. -/
theorem exists_frame_at {payloads : List Bytes} {offset : Nat} (h : offset < (framesBytes payloads).length) :
    ∃ pre payload post i, payloads = pre ++ payload :: post ∧ offset = (framesBytes pre).length + i ∧ i < payload.length + 8 := by
  induction payloads generalizing offset with
  | nil => simp at h
  | cons p payloads ih =>
    rw [framesBytes_cons, List.length_append, length_frameBytes] at h
    by_cases hlt : offset < p.length + 8
    · exact ⟨[], p, payloads, offset, rfl, by simp, hlt⟩
    · have hrest : offset - (p.length + 8) < (framesBytes payloads).length := by omega
      obtain ⟨pre, payload, post, i, rfl, he, hi⟩ := ih hrest
      refine ⟨p :: pre, payload, post, i, rfl, ?_, hi⟩
      rw [framesBytes_cons, List.length_append, length_frameBytes]
      omega

theorem framesBytes_set (pre : List Bytes) (payload : Bytes) (post : List Bytes) (hi : i < payload.length + 8)
    (b : UInt8) : (framesBytes (pre ++ payload :: post)).set ((framesBytes pre).length + i) b =
      framesBytes pre ++ ((frameBytes payload).set i b ++ framesBytes post) := by
  rw [framesBytes_append, framesBytes_cons, List.set_append, if_neg (by omega), Nat.add_sub_cancel_left, List.set_append,
    if_pos (by simpa using hi)]

/-- What payloads decode to is what their parts do. -/
theorem Decode.of_append {pre post : List Bytes} (h : Decode (pre ++ post) frames) :
    ∃ after, frames = frames.take pre.length ++ after ∧ Decode pre (frames.take pre.length) ∧ Decode post after := by
  induction pre generalizing frames with
  | nil => exact ⟨frames, rfl, .nil, h⟩
  | cons p pre ih =>
    cases h with
    | @cons _ f _ frames hf h =>
      obtain ⟨after, he, hpre, hpost⟩ := ih h
      exact ⟨after, congrArg (f :: ·) he, .cons hf hpre, hpost⟩

theorem WrittenLog.pieces (h : WrittenLog R configured spaceId payloads frames) :
    Records.Pieces crc32 R.payload (framesBytes payloads) payloads [] :=
  ⟨(List.append_nil _).symm, h.sizes, Or.inl (by simp)⟩

/-- The frames of a log are all that is read behind its header. -/
theorem WrittenLog.eq_frames (h : WrittenLog R configured spaceId payloads frames)
    (hp : Records.Pieces crc32 R.payload (framesBytes payloads) read rest) (hd : Decode read found) :
    found = frames := by
  rw [(hp.unique R.payload_lt crc32_lt h.pieces).1] at hd
  exact hd.unique h.decode

/-- A changed byte of a frame drops nothing, unless a length runs past the end. -/
theorem WrittenLog.pieces_changed (h : WrittenLog R configured spaceId payloads frames) {offset : Nat}
    (ho : offset < (framesBytes payloads).length) {b : UInt8}
    (hp : Records.Pieces crc32 R.payload ((framesBytes payloads).set offset b) read rest) (hd : Decode read found) (ht : R.takes found) :
    found = frames ∨ R.RunsPastEnd spaceId payloads frames ((headerBytes spaceId).length + offset) b := by
  obtain ⟨pre, payload, post, i, rfl, rfl, hi⟩ := exists_frame_at ho
  have hsizes := h.sizes
  rw [List.forall_mem_append, List.forall_mem_cons] at hsizes
  obtain ⟨after, -, hbefore, hafter⟩ := h.decode.of_append
  rw [framesBytes_set pre payload post hi] at hp
  have hsplit := hp
  obtain ⟨read', rfl, hp'⟩ := (Records.pieces_records_iff R.payload_lt crc32_lt hsizes.1).1 hsplit
  obtain ⟨found', hfound, hpre, hd'⟩ := hd.of_append
  cases hafter with
  | cons hframe _ =>
    rcases pieces_changed_frame R.payload_lt hframe hsizes.2.1 hp' hd' with he | ⟨rfl, h4, hmax, hlt⟩
    · left
      rw [he, ← framesBytes_cons, ← framesBytes_append] at hp
      exact h.eq_frames hp hd
    · right
      cases hd'
      rw [List.append_nil] at hfound
      rw [hfound, hpre.unique hbefore] at ht
      refine ⟨pre, payload, post, i, rfl, h4, by rw [length_logBytes]; omega, hmax, ?_, ht⟩
      simp only [length_logBytes, framesBytes_append, framesBytes_cons, List.length_append, length_frameBytes]
      omega

/-- Where a length runs past the end, its frame and those after it are dropped. -/
theorem WrittenLog.reads_runsPastEnd (h : WrittenLog R configured spaceId payloads frames) {offset : Nat} {b : UInt8}
    (hr : R.RunsPastEnd spaceId payloads frames offset b) : ∃ found, found.length < frames.length ∧
      R.Reads configured ((logBytes spaceId payloads).set offset b) spaceId found := by
  obtain ⟨pre, payload, post, i, rfl, h4, rfl, hmax, hlt, ht⟩ := hr
  have hsizes := h.sizes
  rw [List.forall_mem_append, List.forall_mem_cons] at hsizes
  obtain ⟨after, hframes, hbefore, hafter⟩ := h.decode.of_append
  have hcut : Records.Cut R.payload ((frameBytes payload).set i b ++ framesBytes post) := by
    right
    simp only [length_logBytes, framesBytes_append, framesBytes_cons, List.length_append, length_frameBytes] at hlt
    rw [wordAt_changed_frame, List.length_append, List.length_set, length_frameBytes]
    exact ⟨hmax, by omega⟩
  refine ⟨frames.take pre.length, ?_, h.configured, ⟨_, h.space, ⟨framesBytes pre ++ ((frameBytes payload).set i b ++ framesBytes post),
    pre, _, ?_, ⟨rfl, hsizes.1, hcut⟩, hbefore, rfl⟩, ?_⟩, ht⟩
  · have hlen := congrArg List.length hframes
    rw [List.length_append] at hlen
    cases hafter with
    | cons _ _ =>
      rw [List.length_cons] at hlen
      omega
  · rw [logBytes, length_logBytes, List.set_append, if_neg (by omega), Nat.add_assoc, Nat.add_sub_cancel_left,
      framesBytes_set pre payload post (by omega)]
  · exact h.continues.of_prefix (List.take_prefix _ _)

end Frames

/-! ## A byte of the header -/

section Header

variable {R : LogReader} {configured spaceId : String} {payloads : List Bytes} {frames : List TransactionFrame}

/-- The bytes of a header before the name of its space. -/
def headerStart : Bytes := framlogMagic ++ (toBytes 2 framlogVersion ++ toBytes 2 framlogFlags)

theorem headerBytes_eq (spaceId : String) :
    headerBytes spaceId = headerStart ++ (toBytes 4 (utf8Encode spaceId).length ++ utf8Encode spaceId) := by
  simp [headerBytes, headerStart, sizedText]

theorem length_headerStart : headerStart.length = 12 := by decide

/-- A header with a byte changed that is read as the header of another space. -/
theorem WrittenLog.changed_header (h : WrittenLog R configured spaceId payloads frames) {offset : Nat}
    (ho : offset < (headerBytes spaceId).length) {b : UInt8} {name : String} (hspace : name ≠ "" ∧ (utf8Encode name).length ≤ R.space)
    (hne : name ≠ spaceId) {body : Bytes}
    (hp : Records.Pieces crc32 R.payload body read rest) (hd : Decode read found) (hc : Continues 1 found) (ht : R.takes found)
    (he : (headerBytes spaceId).set offset b ++ framesBytes payloads = headerBytes name ++ body) :
    R.Renames spaceId frames offset b ∨ R.Resizes spaceId payloads offset b := by
  have hsz := h.space.2.trans_lt R.space_lt
  have hnz := hspace.2.trans_lt R.space_lt
  rw [headerBytes_eq, headerBytes_eq name, List.append_assoc headerStart, List.append_assoc (toBytes 4 _)] at he
  by_cases h12 : offset < 12
  · -- the constants of a header have one reading
    rw [List.set_append, if_pos (by rw [length_headerStart]; exact h12), List.append_assoc, List.append_assoc] at he
    obtain ⟨-, he⟩ := List.append_inj he (by simp)
    obtain ⟨hword, he⟩ := List.append_inj he (by simp)
    have hlen : (utf8Encode spaceId).length = (utf8Encode name).length := by
      rw [← ofBytes_toBytes_of_lt hsz, hword, ofBytes_toBytes_of_lt hnz]
    exact absurd (utf8Encode_injective (List.append_inj he hlen).1).symm hne
  · rw [List.set_append, if_neg (by rw [length_headerStart]; exact h12), length_headerStart, List.append_assoc] at he
    obtain ⟨-, he⟩ := List.append_inj he rfl
    by_cases h16 : offset < 16
    · right
      rw [List.set_append, if_pos (by rw [length_toBytes]; omega), List.append_assoc] at he
      obtain ⟨hword, he⟩ := List.append_inj he (by simp)
      refine ⟨by omega, h16, name, body, read, rest, found, hne, hspace.1, hspace.2, ?_, he, hp, hd, hc, ht⟩
      rw [hword, ofBytes_toBytes_of_lt hnz]
    · left
      rw [List.set_append, if_neg (by rw [length_toBytes]; omega), length_toBytes, List.append_assoc] at he
      obtain ⟨hword, he⟩ := List.append_inj he (by simp)
      have hlen : (utf8Encode spaceId).length = (utf8Encode name).length := by
        rw [← ofBytes_toBytes_of_lt hsz, hword, ofBytes_toBytes_of_lt hnz]
      obtain ⟨hname, rfl⟩ := List.append_inj he (by simpa using hlen)
      rw [h.eq_frames hp hd] at ht
      refine ⟨by omega, ho, ⟨name, hne, ?_⟩, ht⟩
      rw [utf8Decode_eq_some_iff, ← hname, Nat.sub_sub]

/-- Where no space is configured, a renamed log is read as that of the other space. -/
theorem WrittenLog.reads_renames (h : WrittenLog R "" spaceId payloads frames) {offset : Nat} {b : UInt8}
    (hr : R.Renames spaceId frames offset b) : ∃ name, name ≠ spaceId ∧
      R.Reads "" ((logBytes spaceId payloads).set offset b) name frames := by
  obtain ⟨h16, ho, ⟨name, hne, hname⟩, ht⟩ := hr
  rw [utf8Decode_eq_some_iff] at hname
  have hlen : (utf8Encode name).length = (utf8Encode spaceId).length := by rw [← hname, List.length_set]
  have hnonempty : name ≠ "" := by
    rw [← utf8Encode_eq_nil_iff.ne, ← List.length_pos_iff, hlen, List.length_pos_iff, utf8Encode_eq_nil_iff.ne]
    exact h.space.1
  have hset : (headerBytes spaceId).set offset b = headerBytes name := by
    rw [headerBytes_eq, headerBytes_eq, List.set_append, if_neg (by rw [length_headerStart]; omega), length_headerStart,
      List.set_append, if_neg (by rw [length_toBytes]; omega), length_toBytes, Nat.sub_sub, hname, hlen]
  refine ⟨name, hne, .inl rfl, ⟨_, ⟨hnonempty, by rw [hlen]; exact h.space.2⟩, ⟨framesBytes payloads, payloads, [], ?_, h.pieces,
    h.decode, rfl⟩, h.continues⟩, ht⟩
  rw [logBytes, List.set_append, if_pos ho, hset]

/-- Where no space is configured, a log with a name of another length is read as that of the other space. -/
theorem LogReader.reads_resizes {offset : Nat} {b : UInt8} (hr : R.Resizes spaceId payloads offset b) :
    ∃ name found, name ≠ spaceId ∧ R.Reads "" ((logBytes spaceId payloads).set offset b) name found := by
  obtain ⟨h12, h16, name, body, read, rest, found, hne, hnonempty, hsize, hlen, he, hp, hd, hc, ht⟩ := hr
  have hword : (toBytes 4 (utf8Encode spaceId).length).set (offset - 12) b = toBytes 4 (utf8Encode name).length := by
    rw [hlen]
    have := toBytes_ofBytes ((toBytes 4 (utf8Encode spaceId).length).set (offset - 12) b)
    rw [List.length_set, length_toBytes] at this
    exact this.symm
  refine ⟨name, found, hne, .inl rfl, ⟨_, ⟨hnonempty, hsize⟩, ⟨body, read, rest, ?_, hp, hd, rfl⟩, hc⟩, ht⟩
  rw [logBytes, headerBytes_eq, headerBytes_eq, List.append_assoc, List.append_assoc, List.append_assoc, List.append_assoc, he,
    List.set_append, if_neg (by rw [length_headerStart]; omega), length_headerStart, List.set_append,
    if_pos (by rw [length_toBytes]; omega), hword]

end Header

/-! ## A byte of a log -/

section Logs

variable {Γ : Host} {R : LogReader} {configured spaceId : String} {payloads : List Bytes} {frames : List TransactionFrame} {offset : Nat}
  {b : UInt8}

/-- What is read from a log with a byte changed is the whole log, unless the change makes another one of it. -/
theorem WrittenLog.reads_changed (h : WrittenLog R configured spaceId payloads frames)
    (ho : offset < (logBytes spaceId payloads).length) {name : String}
    (hr : R.Reads configured ((logBytes spaceId payloads).set offset b) name found) :
    (name = spaceId ∧ found = frames) ∨ R.Mistakes spaceId payloads frames offset b configured := by
  obtain ⟨hconf, ⟨valid, hspace, ⟨body, read, rest, hbytes, hp, hd, -⟩, hc⟩, ht⟩ := hr
  rw [length_logBytes] at ho
  rw [logBytes, List.set_append] at hbytes
  by_cases hh : offset < (headerBytes spaceId).length
  · rw [if_pos hh] at hbytes
    by_cases hne : name = spaceId
    · subst hne
      obtain ⟨-, rfl⟩ := List.append_inj hbytes (List.length_set ..)
      exact .inl ⟨rfl, h.eq_frames hp hd⟩
    · refine .inr (.inr ⟨?_, h.changed_header hh hspace hne hp hd hc ht hbytes⟩)
      rcases h.configured with hcs | hcs
      · exact hcs
      · exact hconf.resolve_right fun hcn => hne (hcn.symm.trans hcs)
  · rw [if_neg hh] at hbytes
    obtain ⟨rfl, rfl⟩ := headerBytes_append_inj (h.space.2.trans_lt R.space_lt) (hspace.2.trans_lt R.space_lt) hbytes
    rcases h.pieces_changed (by omega) hp hd ht with hfs | hpast
    · exact .inl ⟨rfl, hfs⟩
    · rw [Nat.add_sub_cancel' (Nat.not_lt.1 hh)] at hpast
      exact .inr (.inl hpast)

/-- Where the change makes another log, another one is read. -/
theorem WrittenLog.exists_reads (h : WrittenLog R configured spaceId payloads frames)
    (hm : R.Mistakes spaceId payloads frames offset b configured) : ∃ name found,
      R.Reads configured ((logBytes spaceId payloads).set offset b) name found ∧ ¬(name = spaceId ∧ found.length = frames.length) := by
  rcases hm with hr | ⟨rfl, hr | hr⟩
  · obtain ⟨found, hlt, hreads⟩ := h.reads_runsPastEnd hr
    exact ⟨spaceId, found, hreads, fun he => by omega⟩
  · obtain ⟨name, hne, hreads⟩ := h.reads_renames hr
    exact ⟨name, frames, hreads, fun he => hne he.1⟩
  · obtain ⟨name, found, hne, hreads⟩ := LogReader.reads_resizes hr
    exact ⟨name, found, hreads, fun he => hne he.1⟩

/-- A boot that succeeds on what the reader reads, and with that history, boots a log with a byte changed to its own history or not at
all exactly when the change does not make another log of it. -/
theorem WrittenLog.damage_iff (h : WrittenLog R configured spaceId payloads frames) (ho : offset < (logBytes spaceId payloads).length)
    (b : UInt8) (boots : TermStore → Prop)
    (hread : ∀ s, boots s → ∃ name found, R.Reads configured ((logBytes spaceId payloads).set offset b) name found ∧
      HasHistory Γ s name found) (hboots : ∀ name found, R.Reads configured ((logBytes spaceId payloads).set offset b) name found →
      ∃ s, boots s ∧ HasHistory Γ s name found) :
    (∀ s, boots s → HasHistory Γ s spaceId frames) ↔ ¬R.Mistakes spaceId payloads frames offset b configured := by
  constructor
  · intro hall hm
    obtain ⟨name, found, hreads, hne⟩ := h.exists_reads hm
    obtain ⟨s, hs, hh⟩ := hboots name found hreads
    exact hne (hh.unique (hall s hs))
  · intro hm s hs
    obtain ⟨name, found, hreads, hh⟩ := hread s hs
    rcases h.reads_changed ho hreads with ⟨rfl, rfl⟩ | hm'
    · exact hh
    · exact absurd hm' hm

end Logs

end Fram
