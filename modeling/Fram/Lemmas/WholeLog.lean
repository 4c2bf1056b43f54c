import Fram.Lemmas.Boot
import Fram.Lemmas.Continues
import Fram.Lemmas.Snapshot
import Fram.WholeLog

/-!
# What the readers make of a log

Every reader of a log reads the header of a space and then records, up to a cut rest (`Logged`). The stream reads the same however its
bytes come in chunks (`consumeFramlogChunks_ok_iff`), and the reader of a whole file takes the logs that it can check
(`bootFramlog_ok_iff`).
-/

namespace Fram

open Reader LittleEndian

variable {root s : TermStore} {payloads : List Bytes} {first : Bytes} {n : Nat}

/-- The bytes are the header of a space and the records of payloads that decode to the frames, which continue the empty history, and
then a cut rest: for a reader that takes spaces and payloads of so many bytes. All but the rest is valid. -/
structure Logged (spaceLimit limit : Nat) (bytes : Bytes) (spaceId : String) (frames : List TransactionFrame) (valid : Nat) :
    Prop where
  space : spaceId ≠ "" ∧ (utf8Encode spaceId).length ≤ spaceLimit
  pieces : ∃ body payloads rest, bytes = headerBytes spaceId ++ body ∧ Records.Pieces crc32 limit body payloads rest ∧
    Decode payloads frames ∧ valid = (headerBytes spaceId).length + (Records.records crc32 payloads).length
  continues : Continues 1 frames

/-! ## The stream in chunks -/

section Chunks

variable {Γ : Host} {configured : String} {bytes : Bytes} {stream stream' : BootStream}

/-- The bytes that a stream has taken are those that it counts. -/
theorem consumePayload_valid {stream stream' : BootStream} {payload : Bytes} (h : consumePayload Γ stream payload = .ok stream') :
    stream'.validLogBytes = stream.validLogBytes + (payload.length + 8) := by
  unfold consumePayload at h
  split at h
  · cases h
  · dsimp only at h
    split at h
    · cases h
      rfl
    · cases h

theorem foldlM_consumePayload_valid (h : payloads.foldlM (consumePayload Γ) stream = .ok stream') :
    stream'.validLogBytes = stream.validLogBytes + (Records.records crc32 payloads).length := by
  induction payloads generalizing stream with
  | nil =>
    cases h
    rfl
  | cons payload payloads ih =>
    rw [List.foldlM_cons, ExceptList.bind_eq_ok_iff] at h
    obtain ⟨s1, h1, h2⟩ := h
    rw [ih h2, consumePayload_valid h1, Records.records_cons, List.length_append, Records.length_record]
    omega

/-- A stream that stopped at the bytes so far reads the chunks that follow as it reads their bytes at once. -/
theorem consumeChunks_eq {chunks : List Bytes} (hv : stream.validLogBytes ≤ bytes.length)
    (hc : Records.Cut framlogStreamMaxPayloadBytes (bytes.drop stream.validLogBytes)) :
    consumeChunks Γ stream bytes chunks = consumeFrames Γ (bytes.drop stream.validLogBytes ++ chunks.flatten).length stream
      (bytes.drop stream.validLogBytes ++ chunks.flatten) := by
  induction chunks generalizing stream bytes with
  | nil =>
    rw [consumeFrames_eq_loop, List.flatten_nil, List.append_nil]
    rw [Records.loop_of_cut hc]
    rfl
  | cons chunk chunks ih =>
    have hdrop : (bytes ++ chunk).drop stream.validLogBytes = bytes.drop stream.validLogBytes ++ chunk :=
      List.drop_append_of_le_length hv
    rw [consumeChunks, consumeFramlogFrames, hdrop, List.flatten_cons, ← List.append_assoc, consumeFrames_eq_loop, consumeFrames_eq_loop]
    have hfuel : (bytes.drop stream.validLogBytes ++ chunk).length ≤ (bytes ++ chunk).length - stream.validLogBytes := by
      simp only [List.length_append, List.length_drop]
      omega
    rw [Records.loop_append chunks.flatten (Nat.le_refl _) hfuel (Nat.le_refl _)]
    cases hloop : Records.loop crc32 framlogStreamMaxPayloadBytes "FRAMLOG frame exceeds the supported byte range"
        "FRAMLOG frame CRC does not match" (consumePayload Γ) ((bytes ++ chunk).length - stream.validLogBytes) stream
        (bytes.drop stream.validLogBytes ++ chunk) with
    | error e => rfl
    | ok r =>
      obtain ⟨s1, rest⟩ := r
      obtain ⟨payloads, hp, hfold⟩ := (Records.loop_ok_iff (by decide) crc32_lt hfuel).1 hloop
      have hvalid := foldlM_consumePayload_valid hfold
      have hrest : (bytes ++ chunk).drop s1.validLogBytes = rest := by
        rw [hvalid, ← List.drop_drop, hdrop, hp.bytes, List.drop_left]
      have hle : s1.validLogBytes ≤ (bytes ++ chunk).length := by
        have := congrArg List.length hp.bytes
        simp only [List.length_append, List.length_drop] at this ⊢
        omega
      have := @ih (bytes ++ chunk) s1 hle (by rw [hrest]; exact hp.cut)
      rw [hrest] at this
      refine (show _ = consumeChunks Γ s1 (bytes ++ chunk) chunks from rfl).trans (this.trans ?_)
      rw [consumeFrames_eq_loop]
      show _ = Except.map Prod.fst (Records.loop _ _ _ _ _ _ s1 (rest ++ chunks.flatten))
      rw [Records.loop_fuel (Nat.le_refl _)]
      have := congrArg List.length hp.bytes
      simp only [List.length_append] at this ⊢
      omega

/-- A stream fed in chunks, of which the first is not empty, reads a header and what follows it at once. -/
theorem consumeFramlogChunks_ok_iff (hb : first ≠ []) {chunks : List Bytes} :
    consumeFramlogChunks Γ (startFramlogStream configured) (first :: chunks) = .ok (.ok stream) ↔
      ∃ spaceId r root, first = headerBytes spaceId ++ r ∧ AdmitsHeader configured spaceId ∧
        newTermStoreForLog spaceId first.length = .ok root ∧ consumeFrames Γ (r ++ chunks.flatten).length
          ⟨configured, some (openFold root), (headerBytes spaceId).length, []⟩ (r ++ chunks.flatten) = .ok stream := by
  have hsplit : consumeFramlogChunks Γ (startFramlogStream configured) (first :: chunks) = .ok (.ok stream) ↔
      ∃ s1, consumeFramlogHeader Γ (startFramlogStream configured) first = .ok (.ok s1) ∧
        consumeChunks Γ s1 first chunks = .ok stream := by
    rw [consumeFramlogChunks, ExceptList.bind_eq_ok_iff]
    constructor
    · rintro ⟨r, hr, he⟩
      cases r with
      | error m => cases he
      | ok s1 => exact ⟨s1, hr, Except.ok.inj he⟩
    · rintro ⟨s1, hr, he⟩
      exact ⟨_, hr, congrArg Except.ok he⟩
  have hstart : ∀ (s0 : BootStream) (header r : Bytes), s0.validLogBytes = header.length →
      ((∃ s1, consumeFrames Γ r.length s0 r = .ok s1 ∧ consumeChunks Γ s1 (header ++ r) chunks = .ok stream) ↔
        consumeFrames Γ (r ++ chunks.flatten).length s0 (r ++ chunks.flatten) = .ok stream) := by
    intro s0 header r hv
    have hall := @consumeChunks_eq Γ header s0 (r :: chunks) (by omega) (by rw [hv, List.drop_length]; exact Or.inl (by simp))
    rw [hv, List.drop_length, List.nil_append, List.flatten_cons, consumeChunks, consumeFramlogFrames, hv, List.drop_left,
      List.length_append, Nat.add_sub_cancel_left] at hall
    rw [← hall, ExceptList.bind_eq_ok_iff]
  rw [hsplit]
  simp only [consumeFramlogHeader_log_iff hb]
  constructor
  · rintro ⟨s1, ⟨spaceId, r, root, hbytes, hadm, hroot, hc⟩, hmore⟩
    rw [hbytes] at hmore
    exact ⟨spaceId, r, root, hbytes, hadm, hroot, (hstart _ _ r rfl).1 ⟨s1, hc, hmore⟩⟩
  · rintro ⟨spaceId, r, root, hbytes, hadm, hroot, hc⟩
    obtain ⟨s1, h1, h2⟩ := (hstart _ (headerBytes spaceId) r rfl).2 hc
    rw [← hbytes] at h2
    exact ⟨s1, ⟨spaceId, r, root, hbytes, hadm, hroot, h1⟩, h2⟩

/-- A log that a stream reads in chunks. -/
theorem logged_of_chunks (hb : first ≠ []) {chunks : List Bytes}
    (h : consumeFramlogChunks Γ (startFramlogStream configured) (first :: chunks) = .ok (.ok stream)) :
    ∃ spaceId frames root, Logged framlogStreamMaxSpaceBytes framlogStreamMaxPayloadBytes (first ++ chunks.flatten) spaceId frames
        stream.validLogBytes ∧ (configured = "" ∨ configured = spaceId) ∧ stream.store = some root ∧ Represents Γ root frames ∧
      root.spaceId = spaceId := by
  obtain ⟨spaceId, r, root, rfl, hadm, hroot, hc⟩ := (consumeFramlogChunks_ok_iff hb).1 h
  obtain ⟨hrep, hs, hn⟩ := represents_openFold_newTermStore (Γ := Γ) hroot
  obtain ⟨frames, n, hscan, rfl⟩ := (consumeFrames_ok_iff hrep rfl (Nat.le_refl _)).1 hc
  rw [hn] at hscan
  obtain ⟨payloads, tail, hp, hd, hcont, rfl⟩ := scans_iff.1 hscan
  refine ⟨spaceId, frames, _, ⟨⟨hadm.nonempty, hadm.size⟩, ⟨_, payloads, tail, by rw [List.append_assoc], hp, hd, rfl⟩, hcont⟩,
    hadm.configured, rfl, ?_, (appendFrames_spaceId _ _).trans hs⟩
  rw [← hn] at hcont
  simpa using hrep.appendContinues hcont

/-- A stream reads a log in chunks of which the first holds the header. -/
theorem Logged.chunks {spaceId : String} {frames : List TransactionFrame} {valid : Nat}
    (h : Logged framlogStreamMaxSpaceBytes framlogStreamMaxPayloadBytes bytes spaceId frames valid)
    (hconf : configured = "" ∨ configured = spaceId) {chunks : List Bytes} (hbytes : bytes = first ++ chunks.flatten)
    (hfirst : (headerBytes spaceId).length ≤ first.length) : ∃ stream root,
      consumeFramlogChunks Γ (startFramlogStream configured) (first :: chunks) = .ok (.ok stream) ∧ stream.store = some root ∧
        Represents Γ root frames ∧ root.spaceId = spaceId ∧ stream.validLogBytes = valid := by
  obtain ⟨body, payloads, tail, hbody, hp, hd, rfl⟩ := h.pieces
  have hcut : first = headerBytes spaceId ++ first.drop (headerBytes spaceId).length := by
    have htake := congrArg (List.take (headerBytes spaceId).length) (hbytes.symm.trans hbody)
    rw [List.take_left, List.take_append_of_le_length hfirst] at htake
    conv_lhs => rw [← List.take_append_drop (headerBytes spaceId).length first, htake]
  have hrest : first.drop (headerBytes spaceId).length ++ chunks.flatten = body := by
    have hdrop := congrArg (List.drop (headerBytes spaceId).length) (hbytes.symm.trans hbody)
    rwa [List.drop_left, List.drop_append_of_le_length hfirst] at hdrop
  have hne : first ≠ [] := by
    rintro rfl
    rw [length_headerBytes, List.length_nil] at hfirst
    omega
  obtain ⟨root, hroot⟩ := exists_newTermStoreSized h.space.1 (first.length / 64) (first.length / 32) (first.length / 128)
  obtain ⟨hrep, hs, hn⟩ := represents_openFold_newTermStore (Γ := Γ) hroot
  have hcont := h.continues
  rw [← hn] at hcont
  have hread := (@consumeFrames_ok_iff _ _ _ hrep ⟨configured, some (openFold root), (headerBytes spaceId).length, []⟩ _ rfl body _
    (Nat.le_refl _)).2 ⟨frames, _, scans_iff.2 ⟨payloads, tail, hp, hd, hcont, rfl⟩, rfl⟩
  rw [← hrest] at hread
  refine ⟨_, _, (consumeFramlogChunks_ok_iff hne).2 ⟨spaceId, _, root, hcut, ⟨h.space.1, h.space.2, hconf⟩, hroot, hread⟩, rfl, ?_,
    (appendFrames_spaceId _ frames).trans hs, rfl⟩
  simpa using hrep.appendContinues hcont

end Chunks

/-! ## What a log holds -/

section Logs

variable {spaceLimit limit : Nat} {bytes : Bytes} {spaceId spaceId' : String} {frames frames' : List TransactionFrame}
  {valid valid' : Nat}

/-- Payloads decode to one list of frames. -/
theorem Decode.unique (h : Decode payloads frames) (h' : Decode payloads frames') : frames = frames' := by
  induction h generalizing frames' with
  | nil =>
    cases h'
    rfl
  | cons hf _ ih =>
    cases h' with
    | cons hf' h' => rw [Except.ok.inj (hf.symm.trans hf'), ih h']

/-- What a log holds is determined by its bytes. -/
theorem Logged.unique (hs : spaceLimit < 256 ^ 4) (hl : limit < 256 ^ 4) (h : Logged spaceLimit limit bytes spaceId frames valid)
    (h' : Logged spaceLimit limit bytes spaceId' frames' valid') : spaceId = spaceId' ∧ frames = frames' ∧ valid = valid' := by
  obtain ⟨body, payloads, rest, rfl, hp, hd, rfl⟩ := h.pieces
  obtain ⟨body', payloads', rest', hb, hp', hd', rfl⟩ := h'.pieces
  obtain ⟨rfl, rfl⟩ := headerBytes_append_inj (h.space.2.trans_lt hs) (h'.space.2.trans_lt hs) hb
  obtain ⟨rfl, -⟩ := hp.unique hl crc32_lt hp'
  exact ⟨rfl, hd.unique hd', rfl⟩

end Logs

/-! ## A whole file -/

section Whole

variable {Γ : Host} {configured : String} {bytes : Bytes} {result : BootResult}

theorem throwing_ok_iff {α : Type} {x : Except Fault α} {a : α} : throwing x = .ok a ↔ x = .ok a := by
  cases x <;> simp [throwing]

theorem failing_ok_iff {α : Type} {x : Except String α} {a : α} : failing x = .ok a ↔ x = .ok a := by
  cases x <;> simp [failing]

theorem successfulBoot_ok_iff {valid : Nat} {append : Bytes} : successfulBoot root valid append = .ok result ↔
    ∃ store, validatedStore (closeFold root) = .ok store ∧ result = ⟨store, valid, append⟩ := by
  unfold successfulBoot
  simp only [ExceptList.bind_eq_ok_iff, throwing_ok_iff, Except.ok.injEq]
  exact ⟨fun ⟨store, hs, he⟩ => ⟨store, hs, he.symm⟩, fun ⟨store, hs, he⟩ => ⟨store, hs, he.symm⟩⟩

/-- A payload is replayed exactly when it decodes to a frame that continues the store. -/
theorem replayPayload_ok_iff {s' : TermStore} {frames : List TransactionFrame} (h : Represents Γ s frames) {n' : Nat}
    {payload : Bytes} : replayPayload Γ (s, n) payload = .ok (s', n') ↔ ∃ f, decodeFramePayload payload = .ok f ∧
      (s.nextSequence ≤ f.sequence ∧ f.sequence ≤ maxTransactionSequence ∧ f.operations ≠ []) ∧
        s' = Fram.appendValidTransaction Γ s f.sequence f.operations ∧ n' = n + (payload.length + 8) := by
  unfold replayPayload
  cases hd : decodeFramePayload payload with
  | error m => simp
  | ok f =>
    simp only [Except.ok.injEq, exists_eq_left']
    split
    · rename_i hlt
      simp only [reduceCtorEq, false_iff]
      rintro ⟨⟨hl, -⟩, -⟩
      omega
    · simp only [ExceptList.bind_eq_ok_iff, throwing_ok_iff, Except.ok.injEq, Prod.mk.injEq]
      rw [← and_assoc, ← h.replayTransactionLong_ok_iff]
      constructor
      · rintro ⟨r, hr, rfl, rfl⟩
        exact ⟨⟨r.2, hr⟩, rfl⟩
      · rintro ⟨⟨c, hc⟩, rfl⟩
        exact ⟨_, hc, rfl, rfl⟩

/-- Payloads are replayed exactly when they decode to frames that continue the store. -/
theorem foldlM_replayPayload_ok_iff {s' : TermStore} {frames : List TransactionFrame} (h : Represents Γ s frames) {n' : Nat} : payloads.foldlM
    (replayPayload Γ) (s, n) = .ok (s', n') ↔ ∃ fs, Decode payloads fs ∧
      Continues s.nextSequence fs ∧ s' = Fram.appendFrames Γ s fs ∧ n' = n + (Records.records crc32 payloads).length := by
  induction payloads generalizing s frames n with
  | nil =>
    constructor
    · intro h
      cases h
      exact ⟨[], .nil, trivial, rfl, rfl⟩
    · rintro ⟨fs, hd, -, rfl, rfl⟩
      cases hd
      rfl
  | cons payload payloads ih =>
    rw [List.foldlM_cons, ExceptList.bind_eq_ok_iff, Records.records_cons, List.length_append, Records.length_record]
    constructor
    · rintro ⟨⟨s1, n1⟩, h1, h2⟩
      obtain ⟨f, hd, hf, rfl, rfl⟩ := (replayPayload_ok_iff h).1 h1
      obtain ⟨fs, hds, hc, rfl, rfl⟩ := (ih (h.appendValidTransaction hf.1 hf.2.2)).1 h2
      exact ⟨f :: fs, .cons hd hds, ⟨hf, hc⟩, rfl, by omega⟩
    · rintro ⟨fs, hd, hc, rfl, rfl⟩
      cases hd with
      | @cons _ f _ fs hd hds =>
        exact ⟨_, (replayPayload_ok_iff h).2 ⟨f, hd, hc.1, rfl, rfl⟩,
          (ih (h.appendValidTransaction hc.1.1 hc.1.2.2)).2 ⟨fs, hds, hc.2, rfl, by omega⟩⟩

theorem maxCodecCount_lt : maxCodecCount < 256 ^ 4 := by decide

/-- The frames of a whole file are replayed exactly when they continue the store, which is then checked. -/
theorem replayCompleteFrames_ok_iff {frames : List TransactionFrame} (h : Represents Γ s frames) :
    replayCompleteFrames Γ s n bytes = .ok result ↔ ∃ payloads rest fs, Records.Pieces crc32 maxCodecCount bytes payloads rest ∧
      Decode payloads fs ∧ Continues s.nextSequence fs ∧
        successfulBoot (Fram.appendFrames Γ s fs) (n + (Records.records crc32 payloads).length) [] = .ok result := by
  unfold replayCompleteFrames
  rw [ExceptList.bind_eq_ok_iff]
  constructor
  · rintro ⟨⟨⟨s', n'⟩, rest⟩, hl, hr⟩
    obtain ⟨payloads, hp, hfold⟩ := (Records.loop_ok_iff maxCodecCount_lt crc32_lt (Nat.le_refl _)).1 hl
    obtain ⟨fs, hd, hc, rfl, rfl⟩ := (foldlM_replayPayload_ok_iff h).1 hfold
    exact ⟨payloads, rest, fs, hp, hd, hc, hr⟩
  · rintro ⟨payloads, rest, fs, hp, hd, hc, hr⟩
    exact ⟨_, (Records.loop_ok_iff maxCodecCount_lt crc32_lt (Nat.le_refl _)).2
      ⟨payloads, hp, (foldlM_replayPayload_ok_iff h).2 ⟨fs, hd, hc, rfl, rfl⟩⟩, hr⟩

/-- A file boots exactly when it is a log, of the space that is configured, and the store of its frames passes the checks. -/
theorem bootFramlog_ok_iff (hb : bytes ≠ []) : bootFramlog Γ configured bytes = .ok result ↔
    ∃ spaceId frames valid root, Logged maxCodecCount maxCodecCount bytes spaceId frames valid ∧
      (configured = "" ∨ configured = spaceId) ∧ newTermStoreForLog spaceId bytes.length = .ok root ∧
        successfulBoot (Fram.appendFrames Γ (openFold root) frames) valid [] = .ok result := by
  have hlen : bytes.length ≠ 0 := by simpa using hb
  have hm := maxCodecCount_lt
  unfold bootFramlog
  rw [if_neg hlen]
  dsimp only
  constructor
  · intro h
    split at h
    · cases h
    rename_i hmagic
    split at h
    · cases h
    rename_i h16
    split at h
    · cases h
    rename_i hver
    split at h
    · cases h
    rename_i hsp
    split at h
    · cases h
    rename_i hfit
    cases hd : utf8Decode ((bytes.drop 16).take (u32LeAt bytes 12)) with
    | none => rw [hd] at h; cases h
    | some spaceId =>
      rw [hd] at h
      dsimp only at h
      split at h
      · cases h
      rename_i hne
      split at h
      · cases h
      rename_i hconf
      obtain ⟨root, hroot, hreplay⟩ := ExceptList.bind_eq_ok_iff.1 h
      rw [throwing_ok_iff] at hroot
      obtain ⟨hbytes, hl⟩ := exists_headerBytes (by omega) (by simpa using hmagic) (by omega) (by omega) (by omega) hd
      obtain ⟨hrep, -, hn⟩ := represents_openFold_newTermStore (Γ := Γ) hroot
      obtain ⟨payloads, rest, fs, hp, hdec, hc, hs⟩ := (replayCompleteFrames_ok_iff hrep).1 hreplay
      rw [hn] at hc
      refine ⟨spaceId, fs, _, root, ⟨⟨fun he => hne (length_pos_iff_ne_empty.2 he), by omega⟩,
        ⟨_, payloads, rest, hbytes, hp, hdec, rfl⟩, hc⟩, ?_, hroot, ?_⟩
      · rw [Ne, length_pos_iff_ne_empty] at hconf
        tauto
      · rw [length_headerBytes, hl]
        exact hs
  · rintro ⟨spaceId, frames, valid, root, hlog, hconf, hroot, hs⟩
    obtain ⟨body, payloads, rest, rfl, hp, hd, rfl⟩ := hlog.pieces
    obtain ⟨hne, hsize⟩ := hlog.space
    obtain ⟨p1, p2, p3, p4, p5, p6⟩ := headerBytes_parts (hsize.trans_lt hm) body
    have hpos : (utf8Encode spaceId).length ≠ 0 := by
      rw [Ne, List.length_eq_zero_iff, utf8Encode_eq_nil_iff]
      exact hne
    have hl : (headerBytes spaceId ++ body).length = 16 + (utf8Encode spaceId).length + body.length := by
      rw [List.length_append, length_headerBytes]
    have hconf' : ¬(configured.length ≠ 0 ∧ configured ≠ spaceId) := by
      rw [Ne, length_pos_iff_ne_empty]
      tauto
    simp only [p1, p2, p3, p4, p5, p6, utf8Decode_eq_some_iff.2 rfl, length_pos_iff_ne_empty]
    rw [if_neg (by simp), if_neg (by omega), if_neg (by simp), if_neg (by omega), if_neg (by omega), if_neg hne,
      if_neg hconf', ExceptList.bind_eq_ok_iff]
    obtain ⟨hrep, -, hn⟩ := represents_openFold_newTermStore (Γ := Γ) hroot
    refine ⟨root, throwing_ok_iff.2 hroot, (replayCompleteFrames_ok_iff hrep).2 ⟨payloads, rest, frames, hp, hd, ?_, ?_⟩⟩
    · rw [hn]
      exact hlog.continues
    · rw [length_headerBytes] at hs
      exact hs

/-- A store that represents a history passes the checks exactly when no atom of it is the NaN. -/
theorem Represents.validatedStore_ok_iff {store : TermStore} {frames : List TransactionFrame} (h : Represents Γ s frames) :
    validatedStore s = .ok store ↔ store = s ∧ ∀ a ∈ s.atoms, a.isNaN = false := by
  have hspace : validSpaceId s.spaceId = true := by
    simpa [validSpaceId] using h.space
  have hatoms : s.atoms.all validAtomRow = true ↔ ∀ a ∈ s.atoms, a.isNaN = false := by
    rw [List.all_eq_true]
    exact forall₂_congr fun a _ => Term.eqv_self_iff (.atom a)
  unfold validatedStore
  rw [hspace, decide_eq_true h.one_le_nextSequence, h.interned.validTripleRows, h.validHistoryRows, Bool.true_and, Bool.true_and,
    Bool.and_true, Bool.and_true]
  by_cases hall : s.atoms.all validAtomRow = true
  · rw [if_pos hall, Except.ok.injEq]
    exact ⟨fun he => ⟨he.symm, hatoms.1 hall⟩, fun he => he.1.symm⟩
  · rw [if_neg hall]
    simp only [reduceCtorEq, false_iff]
    exact fun he => hall (hatoms.2 he.2)

theorem Term.isNaN_of_mem_atoms {t : Term} (h : t.hasNaN = false) : ∀ a ∈ t.atoms, a.isNaN = false := by
  induction t with
  | atom a =>
    intro b hb
    rw [List.mem_singleton.1 hb]
    exact h
  | triple t1 t2 t3 h1 h2 h3 =>
    simp only [Term.hasNaN, Bool.or_eq_false_iff] at h
    intro b hb
    simp only [Term.atoms, List.mem_append] at hb
    rcases hb with (hb | hb) | hb
    · exact h1 h.1.1 b hb
    · exact h2 h.1.2 b hb
    · exact h3 h.2 b hb

/-- No proposition of the frames has a NaN in it. -/
def NaNFree (frames : List TransactionFrame) : Prop := ∀ f ∈ frames, ∀ o ∈ f.operations, o.proposition.hasNaN = false

/-- A store of frames without NaN has no NaN among its atoms. -/
theorem NaNFree.atoms {frames : List TransactionFrame} (h : NaNFree frames) (hs : s.atoms = []) :
    ∀ a ∈ (Fram.appendFrames Γ s frames).atoms, a.isNaN = false := by
  have hmade : ∀ f ∈ frames, MadeOf (frames.flatMap fun f => f.operations.flatMap fun o => o.proposition.term.atoms) f.operations :=
    fun f hf o ho a ha => List.mem_flatMap.2 ⟨f, hf, List.mem_flatMap.2 ⟨o, ho, ha⟩⟩
  intro a ha
  obtain ⟨f, hf, ha⟩ := List.mem_flatMap.1 (appendFrames_atoms (by simp [hs]) hmade a ha)
  obtain ⟨o, ho, ha⟩ := List.mem_flatMap.1 ha
  exact Term.isNaN_of_mem_atoms (h f hf o ho) a ha

theorem Resolves.hasNaN_eq_false {handle : Int} {t : Term} (h : Resolves s handle t) (hn : ∀ a ∈ s.atoms, a.isNaN = false) :
    t.hasNaN = false := by
  induction h with
  | atom p a ha => exact hn a (List.mem_of_getElem? ha)
  | triple p row t1 t2 t3 hrow h1 h2 h3 ih1 ih2 ih3 => simp [Term.hasNaN, ih1, ih2, ih3]

/-- Frames whose store has no NaN among its atoms have none in their propositions. -/
theorem Represents.nanFree {frames : List TransactionFrame} (h : Represents Γ s frames)
    (hn : ∀ a ∈ s.atoms, a.isNaN = false) : NaNFree frames := by
  intro f hf o ho
  have hmem : o.proposition ∈ (logOf frames).map (·.proposition) := by
    rw [logOf, List.map_flatMap]
    refine List.mem_flatMap.2 ⟨f, hf, ?_⟩
    rw [TransactionFrame.logged, loggedFrom_proposition]
    exact List.mem_map_of_mem ho
  obtain ⟨e, he, hprop⟩ := List.mem_map.1 hmem
  obtain ⟨i, hi⟩ := List.getElem?_of_mem he
  obtain ⟨hlt, hget⟩ := List.getElem?_eq_some_iff.1 hi
  have hrow := List.Forall₂.get h.rows (by rw [h.rows.length_eq]; exact hlt) hlt
  obtain ⟨p, hp, hsame⟩ := hrow.proposition
  rw [List.get_eq_getElem, hget, hprop] at hsame
  exact hsame.hasNaN.symm.trans (hp.hasNaN_eq_false hn)

theorem newTermStoreSized_atoms {spaceId : String} {a t b : Nat} (h : newTermStoreSized spaceId a t b = .ok root) : root.atoms = [] := by
  unfold newTermStoreSized at h
  split at h <;> cases h
  rfl

/-- A file that boots is a log, and the store is that of its frames. -/
theorem logged_of_bootFramlog (hb : bytes ≠ []) (h : bootFramlog Γ configured bytes = .ok result) : ∃ spaceId frames,
    Logged maxCodecCount maxCodecCount bytes spaceId frames result.validLogBytes ∧ (configured = "" ∨ configured = spaceId) ∧
      Represents Γ result.store frames ∧ result.store.spaceId = spaceId := by
  obtain ⟨spaceId, frames, valid, root, hlog, hconf, hroot, hs⟩ := (bootFramlog_ok_iff hb).1 h
  obtain ⟨hrep, hspace, hn⟩ := represents_openFold_newTermStore (Γ := Γ) hroot
  have hc := hlog.continues
  rw [← hn] at hc
  have hall := (hrep.appendContinues hc).closeFold
  obtain ⟨store, hv, rfl⟩ := successfulBoot_ok_iff.1 hs
  obtain ⟨rfl, -⟩ := hall.validatedStore_ok_iff.1 hv
  refine ⟨spaceId, frames, hlog, hconf, by simpa using hall, ?_⟩
  rw [closeFold_frame]
  exact (appendFrames_spaceId _ frames).trans hspace

/-- A file that boots has no NaN in its history. -/
theorem nanFree_of_bootFramlog (hb : bytes ≠ []) (h : bootFramlog Γ configured bytes = .ok result) {frames : List TransactionFrame}
    (hrep : Represents Γ result.store frames) : NaNFree frames := by
  obtain ⟨spaceId, fs, valid, root, hlog, -, hroot, hs⟩ := (bootFramlog_ok_iff hb).1 h
  obtain ⟨hnew, -, hn⟩ := represents_openFold_newTermStore (Γ := Γ) hroot
  have hc := hlog.continues
  rw [← hn] at hc
  obtain ⟨store, hv, rfl⟩ := successfulBoot_ok_iff.1 hs
  obtain ⟨rfl, hatoms⟩ := (hnew.appendContinues hc).closeFold.validatedStore_ok_iff.1 hv
  exact hrep.nanFree hatoms

/-- A log without NaN boots as a file. -/
theorem Logged.bootFramlog {spaceId : String} {frames : List TransactionFrame} {valid : Nat}
    (h : Logged maxCodecCount maxCodecCount bytes spaceId frames valid) (hconf : configured = "" ∨ configured = spaceId)
    (hn : NaNFree frames) : ∃ result, Fram.bootFramlog Γ configured bytes = .ok result := by
  obtain ⟨root, hroot⟩ := exists_newTermStoreSized h.space.1 (bytes.length / 64) (bytes.length / 32) (bytes.length / 128)
  obtain ⟨hrep, -, hnext⟩ := represents_openFold_newTermStore (Γ := Γ) hroot
  have hc := h.continues
  rw [← hnext] at hc
  have hall := (hrep.appendContinues hc).closeFold
  have hatoms : (openFold root).atoms = [] := by
    rw [openFold_frame]
    show root.atoms = []
    exact newTermStoreSized_atoms hroot
  have hne : bytes ≠ [] := by
    obtain ⟨body, -, -, rfl, -⟩ := h.pieces
    intro he
    have := congrArg List.length he
    rw [List.length_append, length_headerBytes, List.length_nil] at this
    omega
  refine ⟨_, (bootFramlog_ok_iff hne).2 ⟨spaceId, frames, valid, root, h, hconf, hroot, successfulBoot_ok_iff.2 ⟨_,
    hall.validatedStore_ok_iff.2 ⟨rfl, ?_⟩, rfl⟩⟩⟩
  rw [closeFold_frame]
  exact hn.atoms hatoms

end Whole

end Fram
