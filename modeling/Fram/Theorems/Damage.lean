import Fram.Lemmas.Damage
import Fram.Lemmas.Server

/-!
# A log that is cut off or has a damaged byte

A log cut anywhere at or after the end of its header boots to the history of the frames that are whole; cut inside its header it is
refused, unless nothing of it is left: then it is a new log. With one byte changed, the stream and the reader of a whole file each boot
the log to its history or not at all, except where a length that they admit then runs past the end of the log, or where no space is
configured and the header becomes that of another space.
-/

namespace Fram

open LittleEndian

/-! ## A cut -/

section Cut

variable {configured spaceId : String} {payloads : List Bytes} {frames : List TransactionFrame}

/-- A log cut at or after the end of its header boots up to its last whole frame. -/
theorem CommittedLog.boots_take (h : CommittedLog configured spaceId payloads frames) {k : Nat}
    (hk : k ≤ (logBytes spaceId payloads).length) (hh : (headerBytes spaceId).length ≤ k) :
    ∃ i, i ≤ payloads.length ∧ (logBytes spaceId (payloads.take i)).length ≤ k ∧
      (i < payloads.length → k < (logBytes spaceId (payloads.take (i + 1))).length) ∧
      Boots configured ((logBytes spaceId payloads).take k) spaceId (frames.take i) (logBytes spaceId (payloads.take i)).length [] := by
  obtain ⟨j, rfl⟩ := Nat.exists_eq_add_of_le hh
  rw [length_logBytes] at hk
  obtain ⟨i, h1, h2, h3, h4⟩ := h.chain.cut (k := j) (by omega)
  refine ⟨i, h1, by rw [length_logBytes]; omega, fun hi => ?_, ?_⟩
  · have := h3 hi
    rw [length_logBytes]
    omega
  · rw [length_logBytes, logBytes, List.take_length_add_append]
    exact .log h.header h4

end Cut

/-- **Torn-tail recovery.** A log cut at or after the end of its header boots to exactly the history of the frames that lie wholly
inside what is left, and reports the end of the last of them. Cut inside its header it is refused. With nothing left it boots as a
new log of the configured space. -/
theorem boot_cut_log (Γ : Host) (path : String) {configured spaceId : String} {payloads : List Bytes}
    {frames : List TransactionFrame} (h : CommittedLog configured spaceId payloads frames) {k : Nat}
    (hk : k ≤ (logBytes spaceId payloads).length) :
    ((headerBytes spaceId).length ≤ k → ∃ i, i ≤ payloads.length ∧ (logBytes spaceId (payloads.take i)).length ≤ k ∧
      (i < payloads.length → k < (logBytes spaceId (payloads.take (i + 1))).length) ∧
      ∃ result store, bootStore Γ path configured ((logBytes spaceId payloads).take k) [] = .ok result ∧ result.store = .ok store ∧
        result.validLogBytes = (logBytes spaceId (payloads.take i)).length ∧
        HasHistory Γ store.session.store spaceId (frames.take i)) ∧
    (0 < k → k < (headerBytes spaceId).length →
      ∃ message, bootStore Γ path configured ((logBytes spaceId payloads).take k) [] = .ok (failedStore message)) ∧
    (k = 0 → configured ≠ "" →
      ∃ result store, bootStore Γ path configured ((logBytes spaceId payloads).take k) [] = .ok result ∧ result.store = .ok store ∧
        result.validLogBytes = 0 ∧ result.bootAppend = headerBytes spaceId ∧ HasHistory Γ store.session.store spaceId []) := by
  refine ⟨fun hh => ?_, fun h0 hlt => ?_, ?_⟩
  · obtain ⟨i, h1, h2, h3, hb⟩ := h.boots_take hk hh
    obtain ⟨result, store, hr, hs, hv, -, hfor⟩ := bootStore_nil_boots (Γ := Γ) hb path
    exact ⟨i, h1, h2, h3, result, store, hr, hs, hv, hfor.toSessionFor.hasHistory⟩
  · obtain ⟨message, hf⟩ := @foldStore_fails Γ configured _
      (fun _ _ _ _ => h.header.not_boots_take (framesBytes payloads) h0 hlt) path (reasonReport (some ⟨"no-image"⟩))
    exact ⟨message, (bootStore_nil ..).trans hf⟩
  · rintro rfl hne
    obtain rfl : configured = spaceId := h.header.configured.resolve_left hne
    have hsize : (utf8Encode configured).length ≤ maxCodecCount := h.header.size.trans (by decide)
    obtain ⟨result, store, hr, hs, hv, ha, hfor⟩ := bootStore_nil_boots (Γ := Γ) (Boots.new hne hsize) path
    exact ⟨result, store, by rw [List.take_zero]; exact hr, hs, hv, ha, hfor.toSessionFor.hasHistory⟩

/-- A log of one assertion cut inside its frame boots to the empty history and reports the end of the header. -/
theorem boot_cut_log_one : ∃ result store, bootStore Host.zero "" "s" ((logBytes "s" [oneFrame.payload]).take 40) [] = .ok result ∧
      result.store = .ok store ∧ result.validLogBytes = 17 ∧ HasHistory Host.zero store.session.store "s" [] := by
  obtain ⟨i, -, hle, -, result, store, hb, hs, hv, hh⟩ :=
    (boot_cut_log Host.zero "" committedLog_one (k := 40) (by decide)).1 (by decide)
  have hi : i = 0 := by
    by_contra hne
    obtain ⟨j, rfl⟩ := Nat.exists_eq_succ_of_ne_zero hne
    rw [List.take_succ_cons, List.take_nil] at hle
    exact absurd hle (by decide)
  subst hi
  exact ⟨result, store, hb, hs, hv, hh⟩

/-- A log that holds no frame is cut in its header, and does not boot. -/
theorem boot_cut_header : CommittedLog "s" "s" [] [] ∧ 1 ≤ (logBytes "s" []).length ∧
    ∃ result message, bootStore Host.zero "" "s" ((logBytes "s" []).take 1) [] = .ok result ∧ result.store = .error message := by
  have h : CommittedLog "s" "s" [] [] := ⟨⟨by decide, by decide, .inr rfl⟩, .nil _⟩
  obtain ⟨message, hf⟩ := @foldStore_fails Host.zero "s" _
    (fun _ _ _ _ => h.header.not_boots_take (framesBytes []) (k := 1) (by decide) (by decide)) "" (reasonReport (some ⟨"no-image"⟩))
  exact ⟨h, by decide, failedStore message, message, (bootStore_nil ..).trans hf, rfl⟩

/-! ## A changed byte -/

section Readers

variable {Γ : Host} {configured : String} {bytes : Bytes} {spaceId : String} {payloads : List Bytes} {frames : List TransactionFrame}

/-- A committed log was written for the stream. -/
theorem CommittedLog.written (h : CommittedLog configured spaceId payloads frames) :
    WrittenLog streamReader configured spaceId payloads frames := by
  obtain ⟨read, tail, hp, hd, hc, -⟩ := scans_iff.1 h.chain.scans
  have hsizes : ∀ {next : Int} {payloads : List Bytes} {frames : List TransactionFrame}, Chain next payloads frames →
      ∀ payload ∈ payloads, payload.length ≤ framlogStreamMaxPayloadBytes := by
    intro next payloads frames hchain
    induction hchain with
    | nil => simp
    | cons ha _ ih => exact List.forall_mem_cons.2 ⟨ha.size, ih⟩
  have hall : Records.Pieces crc32 framlogStreamMaxPayloadBytes (framesBytes payloads) payloads [] :=
    ⟨(List.append_nil _).symm, hsizes h.chain, Or.inl (by simp)⟩
  obtain ⟨rfl, -⟩ := hp.unique (by decide) crc32_lt hall
  exact ⟨⟨h.header.nonempty, h.header.size⟩, h.header.configured, hsizes h.chain, hd, hc⟩

/-- The stream boots bytes that are not empty with what it reads of them. -/
theorem boots_iff_reads (hb : bytes ≠ []) : (∃ valid append, Boots configured bytes spaceId frames valid append) ↔
    streamReader.Reads configured bytes spaceId frames := by
  constructor
  · rintro ⟨valid, append, h⟩
    cases h with
    | new => exact absurd rfl hb
    | log hadm hs =>
      obtain ⟨read, tail, hp, hd, hc, rfl⟩ := scans_iff.1 hs
      exact ⟨hadm.configured, ⟨_, ⟨hadm.nonempty, hadm.size⟩, ⟨_, read, tail, rfl, hp, hd, rfl⟩, hc⟩, trivial⟩
  · rintro ⟨hconf, ⟨valid, hspace, ⟨body, read, rest, rfl, hp, hd, -⟩, hc⟩, -⟩
    exact ⟨_, _, .log ⟨hspace.1, hspace.2, hconf⟩ (scans_iff.2 ⟨read, rest, hp, hd, hc, rfl⟩)⟩

/-- The reader of a whole file boots what it reads. -/
theorem exists_bootFramlog (h : wholeReader.Reads configured bytes spaceId frames) (hb : bytes ≠ []) :
    ∃ result, bootFramlog Γ configured bytes = .ok result ∧ HasHistory Γ result.store spaceId frames := by
  obtain ⟨hconf, ⟨valid, hlog⟩, hnan⟩ := h
  obtain ⟨result, hr⟩ := hlog.bootFramlog (Γ := Γ) hconf hnan
  obtain ⟨spaceId', frames', hlog', -, hrep, hspace⟩ := logged_of_bootFramlog hb hr
  obtain ⟨rfl, rfl, -⟩ := hlog.unique maxCodecCount_lt maxCodecCount_lt hlog'
  exact ⟨result, hr, hspace ▸ hrep.hasHistory⟩

/-- What the reader of a whole file boots, it reads. -/
theorem reads_of_bootFramlog (hb : bytes ≠ []) {result : BootResult} (h : bootFramlog Γ configured bytes = .ok result) :
    ∃ spaceId frames, wholeReader.Reads configured bytes spaceId frames ∧ HasHistory Γ result.store spaceId frames := by
  obtain ⟨spaceId, frames, hlog, hconf, hrep, hspace⟩ := logged_of_bootFramlog hb h
  exact ⟨spaceId, frames, ⟨hconf, ⟨_, hlog⟩, nanFree_of_bootFramlog hb h hrep⟩, hspace ▸ hrep.hasHistory⟩

variable {offset : Nat} {b : UInt8}

theorem changed_ne_nil (ho : offset < (logBytes spaceId payloads).length) (b : UInt8) : (logBytes spaceId payloads).set offset b ≠ [] := by
  rw [← List.length_pos_iff, List.length_set]
  omega

/-- The stream and a log with a byte changed. -/
theorem stream_damaged_iff (path : String) (h : WrittenLog streamReader configured spaceId payloads frames)
    (ho : offset < (logBytes spaceId payloads).length) :
    (∀ result store, bootStore Γ path configured ((logBytes spaceId payloads).set offset b) [] = .ok result →
        result.store = .ok store → HasHistory Γ store.session.store spaceId frames) ↔
      ¬streamReader.Mistakes spaceId payloads frames offset b configured := by
  have hb := changed_ne_nil ho b
  have hiff := h.damage_iff (Γ := Γ) ho b (fun s => ∃ result store,
    bootStore Γ path configured ((logBytes spaceId payloads).set offset b) [] = .ok result ∧ result.store = .ok store ∧
      s = store.session.store) ?_ ?_
  · rw [← hiff]
    constructor
    · rintro hall s ⟨result, store, hr, hs, rfl⟩
      exact hall result store hr hs
    · intro hall result store hr hs
      exact hall _ ⟨result, store, hr, hs, rfl⟩
  · rintro s ⟨result, store, hr, hs, rfl⟩
    obtain ⟨name, found, hboots, hfor⟩ := boots_of_bootStore_nil hr hs
    exact ⟨name, found, (boots_iff_reads hb).1 ⟨_, _, hboots⟩, hfor.toSessionFor.hasHistory⟩
  · intro name found hreads
    obtain ⟨valid, append, hboots⟩ := (boots_iff_reads hb).2 hreads
    obtain ⟨result, store, hr, hs, -, -, hfor⟩ := bootStore_nil_boots (Γ := Γ) hboots path
    exact ⟨_, ⟨result, store, hr, hs, rfl⟩, hfor.toSessionFor.hasHistory⟩

/-- The reader of a whole file and a log with a byte changed. -/
theorem whole_damaged_iff (h : WrittenLog wholeReader configured spaceId payloads frames)
    (ho : offset < (logBytes spaceId payloads).length) :
    (∀ result, bootFramlog Γ configured ((logBytes spaceId payloads).set offset b) = .ok result →
        HasHistory Γ result.store spaceId frames) ↔
      ¬wholeReader.Mistakes spaceId payloads frames offset b configured := by
  have hb := changed_ne_nil ho b
  have hiff := h.damage_iff (Γ := Γ) ho b (fun s => ∃ result,
    bootFramlog Γ configured ((logBytes spaceId payloads).set offset b) = .ok result ∧ s = result.store) ?_ ?_
  · rw [← hiff]
    constructor
    · rintro hall s ⟨result, hr, rfl⟩
      exact hall result hr
    · intro hall result hr
      exact hall _ ⟨result, hr, rfl⟩
  · rintro s ⟨result, hr, rfl⟩
    exact reads_of_bootFramlog hb hr
  · intro name found hreads
    obtain ⟨result, hr, hh⟩ := exists_bootFramlog (Γ := Γ) hreads hb
    exact ⟨_, ⟨result, hr, rfl⟩, hh⟩

end Readers

/-- **Damage.** Whatever byte of a log that was written for one of the two readers is changed, the reader boots the log to its whole
history or not at all, exactly when the byte does not make a length that the reader admits and that runs past the end of the log and,
where no space is configured, does not make of the header that of another space. -/
theorem boot_damaged_log (Γ : Host) (path configured spaceId : String) (payloads : List Bytes) (frames : List TransactionFrame)
    {offset : Nat} (ho : offset < (logBytes spaceId payloads).length) (b : UInt8) :
    (WrittenLog streamReader configured spaceId payloads frames →
      ((∀ result store, bootStore Γ path configured ((logBytes spaceId payloads).set offset b) [] = .ok result →
          result.store = .ok store → HasHistory Γ store.session.store spaceId frames) ↔
        ¬streamReader.Mistakes spaceId payloads frames offset b configured)) ∧
    (WrittenLog wholeReader configured spaceId payloads frames →
      ((∀ result, bootFramlog Γ configured ((logBytes spaceId payloads).set offset b) = .ok result →
          HasHistory Γ result.store spaceId frames) ↔
        ¬wholeReader.Mistakes spaceId payloads frames offset b configured)) :=
  ⟨fun h => stream_damaged_iff path h ho, fun h => whole_damaged_iff h ho⟩

/-- The log of one assertion was written for both readers. -/
theorem writtenLog_one : WrittenLog streamReader "s" "s" [oneFrame.payload] [oneFrame] ∧
    WrittenLog wholeReader "s" "s" [oneFrame.payload] [oneFrame] :=
  ⟨committedLog_one.written, committedLog_one.written.mono (by decide) (by decide)⟩

/-- The bytes of a log of one assertion in which a length can run past its end are those of the length of its frame. -/
theorem lt_of_mistakes_one {R : LogReader} {offset : Nat} {b : UInt8}
    (h : R.Mistakes "s" [oneFrame.payload] [oneFrame] offset b "s") : offset < 21 := by
  rcases h with ⟨pre, payload, post, i, hp, h4, ho, -⟩ | ⟨he, -⟩
  · rw [List.singleton_eq_append_iff] at hp
    rcases hp with ⟨rfl, -⟩ | ⟨-, hp⟩
    · rw [show (logBytes "s" []).length = 17 by decide] at ho
      omega
    · cases hp
  · exact absurd he (by decide)

/-- A log of one assertion whose check is changed boots to its history or not at all. -/
theorem boot_damaged_log_one : 66 < (logBytes "s" [oneFrame.payload]).length ∧ (∀ result store,
    bootStore Host.zero "" "s" ((logBytes "s" [oneFrame.payload]).set 66 0) [] = .ok result → result.store = .ok store →
      HasHistory Host.zero store.session.store "s" [oneFrame]) ∧
    ∀ result, bootFramlog Host.zero "s" ((logBytes "s" [oneFrame.payload]).set 66 0) = .ok result →
      HasHistory Host.zero result.store "s" [oneFrame] := by
  have ho : 66 < (logBytes "s" [oneFrame.payload]).length := by decide
  have h := boot_damaged_log Host.zero "" "s" "s" [oneFrame.payload] [oneFrame] ho 0
  exact ⟨ho, (h.1 writtenLog_one.1).2 fun hm => absurd (lt_of_mistakes_one hm) (by decide),
    (h.2 writtenLog_one.2).2 fun hm => absurd (lt_of_mistakes_one hm) (by decide)⟩

/-- A log of one assertion, the length of which is changed to run past the end, boots to the empty history: by the stream where the new
length is 65581, and by the reader of a whole file where it is 16777261. -/
theorem boot_damaged_length : CommittedLog "s" "s" [oneFrame.payload] [oneFrame] ∧
    20 < (logBytes "s" [oneFrame.payload]).length ∧
    (∃ result store, bootStore Host.zero "" "s" ((logBytes "s" [oneFrame.payload]).set 19 1) [] = .ok result ∧ result.store = .ok store ∧
        HasHistory Host.zero store.session.store "s" [] ∧ ¬HasHistory Host.zero store.session.store "s" [oneFrame]) ∧
    ∃ result, bootFramlog Host.zero "s" ((logBytes "s" [oneFrame.payload]).set 20 1) = .ok result ∧
        HasHistory Host.zero result.store "s" [] ∧ ¬HasHistory Host.zero result.store "s" [oneFrame] := by
  have hne : ∀ s, HasHistory Host.zero s "s" [] → ¬HasHistory Host.zero s "s" [oneFrame] := fun s hh h => by
    simpa using (hh.unique h).2
  refine ⟨committedLog_one, by decide, ?_, ?_⟩
  · obtain ⟨found, hlt, hreads⟩ := writtenLog_one.1.reads_runsPastEnd
      (⟨[], oneFrame.payload, [], 2, rfl, by decide, by decide, by decide, by decide, trivial⟩ :
        streamReader.RunsPastEnd "s" [oneFrame.payload] [oneFrame] 19 1)
    obtain rfl : found = [] := List.length_eq_zero_iff.1 (by simpa using hlt)
    obtain ⟨valid, append, hboots⟩ := (boots_iff_reads (changed_ne_nil (by decide) 1)).2 hreads
    obtain ⟨result, store, hr, hs, -, -, hfor⟩ := bootStore_nil_boots (Γ := Host.zero) hboots ""
    have hh := hfor.toSessionFor.hasHistory
    exact ⟨result, store, hr, hs, hh, hne _ hh⟩
  · obtain ⟨found, hlt, hreads⟩ := writtenLog_one.2.reads_runsPastEnd
      (⟨[], oneFrame.payload, [], 3, rfl, by decide, by decide, by decide, by decide, by simp [wholeReader, NaNFree]⟩ :
        wholeReader.RunsPastEnd "s" [oneFrame.payload] [oneFrame] 20 1)
    obtain rfl : found = [] := List.length_eq_zero_iff.1 (by simpa using hlt)
    obtain ⟨result, hr, hh⟩ := exists_bootFramlog (Γ := Host.zero) hreads (changed_ne_nil (by decide) 1)
    exact ⟨result, hr, hh, hne _ hh⟩

end Fram
