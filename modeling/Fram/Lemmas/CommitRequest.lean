import Fram.CommitRequest
import Fram.Lemmas.CrashRun
import Fram.Lemmas.Measure

/-!
# What a request commits

A value of the JVM is the term that its texts spell (`Value.term?_ofTerm`). A request that passes its checks over a database that
serves a history (`Serves`) makes one frame: the store takes it where the frame can be written (`Encodes`) and the sequences have not run
out, and else the database is fenced.
-/

namespace Fram.Database

open LittleEndian Framrpc
open ExceptList (bind_eq_ok_iff)

variable {bytes : Bytes} {count : Nat}

/-! ## Texts -/

section Texts

theorem toNat_unit {n : Nat} (h : n < 65536) : (UInt16.ofNat n).toNat = n := by
  rw [UInt16.toNat_ofNat']
  exact Nat.mod_eq_of_lt h

/-- The scalar of a character is no surrogate, and below the planes there are. -/
theorem toNat_char (c : Char) : c.toNat < 55296 ∨ (57343 < c.toNat ∧ c.toNat < 1114112) := c.valid

theorem scalars_scalar {unit : UInt16} (hh : isHighSurrogate unit = false) (hl : isLowSurrogate unit = false) (units : List UInt16) :
    scalars (unit :: units) = (scalars units).map (Char.ofNat unit.toNat :: ·) := by
  rw [scalars.eq_def]
  simp only [hh, hl, Bool.false_eq_true, if_false]

theorem scalars_pair {high low : UInt16} (hh : isHighSurrogate high = true) (hl : isLowSurrogate low = true) (units : List UInt16) :
    scalars (high :: low :: units) = (scalars units).map (scalarOfPair high low :: ·) := by
  rw [scalars.eq_def]
  simp only [hh, hl, if_true]

/-- Reading the units of a text starts with its first character. -/
theorem scalars_unitsOf_append (c : Char) (units : List UInt16) : scalars (unitsOf c ++ units) = (scalars units).map (c :: ·) := by
  have hc := toNat_char c
  unfold unitsOf
  by_cases hlow : c.toNat < 65536
  · rw [if_pos hlow, List.singleton_append]
    have hu := toNat_unit hlow
    have h1 : isHighSurrogate (UInt16.ofNat c.toNat) = false := by
      simp only [isHighSurrogate, hu, Bool.and_eq_false_iff, decide_eq_false_iff_not]
      omega
    have h2 : isLowSurrogate (UInt16.ofNat c.toNat) = false := by
      simp only [isLowSurrogate, hu, Bool.and_eq_false_iff, decide_eq_false_iff_not]
      omega
    rw [scalars_scalar h1 h2, hu, Char.ofNat_toNat]
  · rw [if_neg hlow, List.cons_append, List.singleton_append]
    have hh := toNat_unit (n := 55296 + (c.toNat - 65536) / 1024) (by omega)
    have hl := toNat_unit (n := 56320 + (c.toNat - 65536) % 1024) (by omega)
    have h1 : isHighSurrogate (UInt16.ofNat (55296 + (c.toNat - 65536) / 1024)) = true := by
      simp only [isHighSurrogate, hh, Bool.and_eq_true, decide_eq_true_eq]
      omega
    have h2 : isLowSurrogate (UInt16.ofNat (56320 + (c.toNat - 65536) % 1024)) = true := by
      simp only [isLowSurrogate, hl, Bool.and_eq_true, decide_eq_true_eq]
      omega
    have h3 : scalarOfPair (UInt16.ofNat (55296 + (c.toNat - 65536) / 1024)) (UInt16.ofNat (56320 + (c.toNat - 65536) % 1024)) = c := by
      unfold scalarOfPair
      rw [hh, hl, show 65536 + (55296 + (c.toNat - 65536) / 1024 - 55296) * 1024 + (56320 + (c.toNat - 65536) % 1024 - 56320) =
        c.toNat by omega, Char.ofNat_toNat]
    rw [scalars_pair h1 h2, h3]

/-- A string is the scalars of its text. -/
theorem scalars_utf16 (s : String) : scalars (utf16 s) = some s.toList := by
  unfold utf16
  induction s.toList with
  | nil => rfl
  | cons c cs ih => rw [List.flatMap_cons, scalars_unitsOf_append, ih, Option.map_some]

theorem utf16_injective {s s' : String} (h : utf16 s = utf16 s') : s = s' := by
  have := congrArg scalars h
  rw [scalars_utf16, scalars_utf16, Option.some.injEq] at this
  exact String.toList_inj.1 this

/-- A term is the term of its value. -/
theorem Value.term?_ofTerm (t : Term) : (Value.ofTerm t).term? = some t := by
  induction t with
  | atom a =>
    cases a with
    | string s => simp [Value.ofTerm, Value.term?, scalars_utf16]
    | keyword k => simp [Value.ofTerm, Value.term?, scalars_utf16]
    | instant i =>
      have := i.canonical
      simp [Value.ofTerm, Value.term?, this]
    | _ => rfl
  | triple t1 t2 t3 h1 h2 h3 =>
    rw [Value.ofTerm, Value.term?, h1, h2, h3]
    rfl

end Texts

/-! ## Frames that can be written -/

/-- The atom is no keyword without a spelling. -/
def Spelled : Atom → Prop
  | .keyword k => k.spelling ≠ ""
  | _ => True

/-- A frame that can be written: no term of it is too deep and no keyword without a spelling, and its payload fits an array, as it is
and as it is stored. -/
structure Encodes (J : Gzip) (deflate : Bool) (frame : TransactionFrame) : Prop where
  height : ∀ o ∈ frame.operations, o.proposition.term.height ≤ maxTermDepth
  spelled : ∀ o ∈ frame.operations, o.proposition.term.All Spelled
  size : frame.payload.length ≤ integerMax
  stored : (storedBytes J deflate frame.payload).length ≤ integerMax

section Writing

variable {J : Gzip} {deflate : Bool} {frame : TransactionFrame}

/-- An atom whose bytes are within a limit fits it when it is spelled. -/
theorem fits_iff_spelled {a : Atom} {limit : Nat} (h : a.bytes.length ≤ limit) : a.Fits limit ↔ Spelled a := by
  cases a with
  | string s =>
    simp only [Atom.bytes, sizedText, List.length_cons, List.length_append, length_toBytes] at h
    exact ⟨fun _ => trivial, fun _ => by unfold Atom.Fits; omega⟩
  | keyword k =>
    simp only [Atom.bytes, sizedText, List.length_cons, List.length_append, length_toBytes] at h
    exact ⟨fun hf => hf.1, fun hs => ⟨hs, by omega⟩⟩
  | _ => exact Iff.rfl

theorem term_fits_iff_spelled {t : Term} {limit : Nat} (h : t.bytes.length ≤ limit) : t.Fits limit ↔ t.All Spelled := by
  induction t with
  | atom a => exact fits_iff_spelled h
  | triple t1 t2 t3 h1 h2 h3 =>
    simp only [Term.bytes, List.length_cons, List.length_append] at h
    exact and_congr (h1 (by omega)) (and_congr (h2 (by omega)) (h3 (by omega)))

/-- A term whose bytes are within the limit of the log is within its limits when it is not too deep and spelled. -/
theorem loggable_iff {t : Term} (h : t.bytes.length ≤ maxCodecCount) : t.Loggable ↔ t.height ≤ maxTermDepth ∧ t.All Spelled := by
  constructor
  · intro hl
    exact ⟨hl.height, (term_fits_iff_spelled h).1 hl.fits⟩
  · rintro ⟨hh, hs⟩
    exact ⟨hh, t.nodes_le_bytes.trans h, (term_fits_iff_spelled h).2 hs⟩

/-- The bytes of a term of a frame are among those of its payload. -/
theorem bytes_le_operationsBytes {os : List CommitOperation} {o : CommitOperation} (ho : o ∈ os) (ordinal : Nat) :
    o.proposition.term.bytes.length ≤ (operationsBytes ordinal os).length := by
  induction os generalizing ordinal with
  | nil => cases ho
  | cons o' os ih =>
    simp only [operationsBytes, List.length_append, List.length_cons]
    rcases List.mem_cons.1 ho with rfl | hm
    · omega
    · have := ih hm (ordinal + 1)
      omega

/-- The frames that can be written are those whose writing succeeds. -/
theorem encodes_iff (hs : InI64 frame.sequence) : Encodes J deflate frame ↔ ∃ bytes, writeTransactionFrame J frame deflate = .ok bytes := by
  have hterm : frame.payload.length ≤ integerMax → ∀ o ∈ frame.operations, o.proposition.term.bytes.length ≤ maxCodecCount := by
    intro h o ho
    refine (bytes_le_operationsBytes ho 0).trans (le_trans ?_ h)
    rw [TransactionFrame.payload, List.length_append, List.length_append]
    omega
  simp only [writeTransactionFrame_ok_iff]
  constructor
  · intro h
    exact ⟨_, hs, fun o ho => (loggable_iff (hterm h.size o ho)).2 ⟨h.height o ho, h.spelled o ho⟩, h.size, h.stored, rfl⟩
  · rintro ⟨bytes, -, hall, hsize, hstored, -⟩
    exact ⟨fun o ho => (hall o ho).height, fun o ho => ((loggable_iff (hterm hsize o ho)).1 (hall o ho)).2, hsize, hstored⟩

end Writing

/-! ## Databases that serve a history -/

/-- The database is ready and holds the history of the frames. -/
structure Serves (Γ : Host) (frames : List TransactionFrame) (db : Db) : Prop where
  represents : Represents Γ db.termStore frames
  space : db.termStore.spaceId = db.spaceId
  state : db.mutationState = .ready

section Serving

variable {Γ : Host} {J : Gzip} {frames : List TransactionFrame} {db : Db} {log : Bytes} {request : CommitRequest Value}

/-- A database that is opened serves the frames of its log. -/
theorem serves_of_openDatabase {expectedSpace : Option String} {repairTorn : Bool}
    (h : openDatabase Γ J bytes expectedSpace repairTorn = .ok (db, log)) : ∃ frames, Serves Γ frames db ∧ Continues 1 frames := by
  obtain ⟨deflate, spaceId, stored, frames, rest, rfl, hne, hsize, hst, hcut, hc, he⟩ := generation_of_openDatabase h
  obtain ⟨db', log', hopen, hrep, hspace, hspace', -, hstate, -⟩ :=
    @openDatabase_generation Γ J deflate stored frames rest spaceId hne hsize hst hcut hc expectedSpace he repairTorn
  rw [hopen] at h
  cases h
  exact ⟨frames, ⟨hrep, hspace.trans hspace'.symm, hstate⟩, hc⟩

/-- The elements at the positions behind a list that they are read in are the next ones, in order. -/
theorem filterMap_range'_append {α : Type} (before after : List α) (count : Nat) :
    (List.range' before.length count).filterMap ((before ++ after)[·]?) = after.take count := by
  induction count with
  | zero => rfl
  | succ count ih =>
    have hget : (before ++ after)[before.length + count]? = after[count]? := by
      rw [List.getElem?_append_right (Nat.le_add_right _ _), Nat.add_sub_cancel_left]
    rw [List.range'_concat, List.filterMap_append, ih, List.take_add_one, Nat.one_mul, List.filterMap_cons, hget]
    cases after[count]? <;> rfl

/-- A frame is replayed under the coordinate of its sequence. -/
theorem coordinate_of_replayTransactionLong {s s' : TermStore} {frame : TransactionFrame} {c : Triple}
    (h : replayTransactionLong Γ s frame = .ok (s', c)) : transactionCoordinate s.spaceId frame.sequence = .ok c := by
  unfold replayTransactionLong at h
  obtain ⟨r, hr, h⟩ := bind_eq_ok_iff.1 h
  split at h
  · cases h
  cases h
  unfold replayTransaction at hr
  split at hr
  · unfold appendTransaction at hr
    split at hr
    · cases hr
    · split at hr
      · cases hr
      · obtain ⟨coordinate, hc, hr⟩ := bind_eq_ok_iff.1 hr
        cases hr
        rwa [appendValidTransaction_spaceId] at hc
  · cases hr

/-- The store takes the next frame of operations under its coordinate, and the answer is found: the occurrences of the first
operations of the frame. -/
theorem committedAnswer_ok (h : Represents Γ db.termStore frames) {operations : List CommitOperation}
    (hn : operations ≠ []) (hnext : db.termStore.nextSequence ≤ maxTransactionSequence) (hc : count ≤ operations.length) :
    ∃ transaction events found, transactionCoordinate db.termStore.spaceId db.termStore.nextSequence = .ok transaction ∧
      List.Forall₂ OperationOccurrence.same events (Reference.occurrences db.termStore.spaceId
        ((TransactionFrame.logged ⟨db.termStore.nextSequence, operations⟩).take count)) ∧
      committedAnswer Γ db.termStore ⟨db.termStore.nextSequence, operations⟩ count =
        .ok (appendValidTransaction Γ db.termStore db.termStore.nextSequence operations,
          .committed transaction events found operations.length) := by
  obtain ⟨transaction, ht⟩ := (@Represents.replayTransactionLong_ok_iff _ _ _ _ h ⟨db.termStore.nextSequence, operations⟩).2
    ⟨⟨Int.le_refl _, hnext, hn⟩, rfl⟩
  have hnew := h.appendValidTransaction (Int.le_refl _) hn
  have hlen : db.termStore.operations.length = (logOf frames).length := h.rows.length_eq
  have hlog : logOf (frames ++ [⟨db.termStore.nextSequence, operations⟩]) =
      logOf frames ++ TransactionFrame.logged ⟨db.termStore.nextSequence, operations⟩ := by simp [logOf]
  have hrange : ∀ i ∈ List.range' db.termStore.operations.length count,
      i < (logOf (frames ++ [⟨db.termStore.nextSequence, operations⟩])).length := by
    intro i hi
    have hlogged : (TransactionFrame.logged ⟨db.termStore.nextSequence, operations⟩).length = operations.length := by
      simp [TransactionFrame.logged]
    rw [List.mem_range'_1] at hi
    rw [hlog, List.length_append]
    omega
  obtain ⟨events, hevents, hsame⟩ := hnew.mapM_occurrences hrange
  obtain ⟨all, hall, -⟩ := hnew.withdrawals
  refine ⟨transaction, events, all.filter fun w => events.any fun e => e.coordinate.eqv w.retraction.coordinate,
    coordinate_of_replayTransactionLong ht, ?_, ?_⟩
  · have htake : (List.range' db.termStore.operations.length count).filterMap
        ((Reference.occurrences db.termStore.spaceId (logOf (frames ++ [⟨db.termStore.nextSequence, operations⟩])))[·]?) =
        Reference.occurrences db.termStore.spaceId ((TransactionFrame.logged ⟨db.termStore.nextSequence, operations⟩).take count) := by
      rw [hlog, Reference.occurrences, List.map_append, hlen, ← List.length_map (LoggedOperation.occurrence db.termStore.spaceId),
        filterMap_range'_append, ← List.map_take]
      rfl
    rw [appendValidTransaction_spaceId, htake] at hsame
    exact hsame
  · unfold committedAnswer
    exact bind_eq_ok_iff.2 ⟨_, ht, bind_eq_ok_iff.2 ⟨_, hevents, bind_eq_ok_iff.2 ⟨_, hall, rfl⟩⟩⟩

/-- A store that takes its next frame has a sequence for it. -/
theorem le_of_committedAnswer (h : Represents Γ db.termStore frames) {operations : List CommitOperation}
    {r : TermStore × CommitAnswer} (ha : committedAnswer Γ db.termStore ⟨db.termStore.nextSequence, operations⟩ count = .ok r) :
    db.termStore.nextSequence ≤ maxTransactionSequence := by
  unfold committedAnswer at ha
  obtain ⟨⟨s, transaction⟩, ht, -⟩ := bind_eq_ok_iff.1 ha
  exact (h.replayTransactionLong_ok_iff.1 ⟨transaction, ht⟩).1.2.1

/-- What the checks of a request let through: its operations, and those recorded of them. -/
theorem of_checkRequest {source metadata : List ValueOperation} (h : checkRequest db request = .ok (.operations source metadata)) :
    db.tornTail = none ∧ request.operations ≠ [] ∧ ∃ tx, transactionCoordinate db.spaceId db.termStore.nextSequence = .ok tx ∧
      request.operations.mapM commitOperationOf = .ok source ∧ metadataOperations db tx request = .ok metadata := by
  unfold checkRequest at h
  simp only [bind_eq_ok_iff] at h
  obtain ⟨-, -, -, -, current, -, h⟩ := h
  split at h
  · cases h
  · split at h
    · cases h
    · rename_i hne
      split at h
      · cases h
      · rename_i htorn
        simp only [bind_eq_ok_iff] at h
        obtain ⟨tx, htx, source', hs, metadata', hm, h⟩ := h
        cases h
        exact ⟨by simpa using htorn, by simpa using hne, tx, htx, hs, hm⟩

/-- What the checks of a request let through asks for something. -/
theorem source_ne_nil {source metadata : List ValueOperation} (h : checkRequest db request = .ok (.operations source metadata)) :
    source ≠ [] := by
  obtain ⟨-, hne, tx, -, hs, -⟩ := of_checkRequest h
  rintro rfl
  rw [ExceptList.mapM_eq_ok_iff, List.forall₂_nil_right_iff] at hs
  exact hne hs

/-- The database of a new log, and what is found of it. -/
theorem openDatabase_new {spaceId : String} (hne : spaceId ≠ "") (hs : (utf8Encode spaceId).length ≤ integerMax) :
    ∃ db, openDatabase Host.zero storingGzip (headerBytes spaceId) none true = .ok (db, headerBytes spaceId) ∧
      Serves Host.zero [] db ∧ db.deflate = some false := by
  obtain ⟨db, log, hopen, hrep, hspace, hspace', hmode, hstate, hrepair⟩ := @openDatabase_generation Host.zero storingGzip false [] []
    [] spaceId hne hs .nil (Or.inl (by decide)) trivial none (Or.inl rfl) true
  rw [Records.records_nil, List.append_nil, List.append_nil] at hopen
  obtain ⟨-, rfl⟩ := hrepair rfl
  rw [Records.records_nil, List.append_nil] at hopen
  exact ⟨db, hopen, ⟨hrep, hspace.trans hspace'.symm, hstate⟩, hmode⟩

section Committing

variable {source metadata : List ValueOperation} {operations : List CommitOperation} {deferring : Bool}

/-- Operations that are no terms fence the database. -/
theorem commitRequest_of_none (hc : checkRequest db request = .ok (.operations source metadata))
    (ho : (source ++ metadata).mapM ValueOperation.operation? = none) : commitRequest Γ J log db deferring request =
      commitFenced Γ J log db [] [] (writeFault (source ++ metadata)) := by
  simp only [commitRequest, hc, ho]

/-- Operations of terms are appended and replayed. -/
theorem commitRequest_of_some (hc : checkRequest db request = .ok (.operations source metadata))
    (ho : (source ++ metadata).mapM ValueOperation.operation? = some operations) : commitRequest Γ J log db deferring request =
      appendAndReplay Γ J log db deferring ⟨db.termStore.nextSequence, operations⟩ source.length := by
  simp only [commitRequest, hc, ho]

theorem length_of_mapM_operation? {os : List ValueOperation} (ho : os.mapM ValueOperation.operation? = some operations) :
    operations.length = os.length := by
  induction os generalizing operations with
  | nil =>
    cases ho
    rfl
  | cons o os ih =>
    rw [List.mapM_cons] at ho
    obtain ⟨o', -, ho⟩ := Option.bind_eq_some_iff.1 ho
    obtain ⟨os', hos, ho⟩ := Option.bind_eq_some_iff.1 ho
    cases ho
    rw [List.length_cons, List.length_cons, ih hos]

/-- A frame that cannot be written fences the database, and nothing is appended. -/
theorem appendAndReplay_not_written {frame : TransactionFrame} {fault : Fault}
    (hw : writeTransactionFrame J frame (db.deflate.getD false) = .error fault) :
    appendAndReplay Γ J log db false frame count = commitFenced Γ J log db [] [] fault := by
  simp only [appendAndReplay, appendFramesDurable, hw, Bool.false_eq_true, if_false]

/-- A frame that is written and that the store takes. -/
theorem appendAndReplay_taken {frame : TransactionFrame} {s : TermStore} {answer : CommitAnswer}
    (hw : writeTransactionFrame J frame (db.deflate.getD false) = .ok bytes)
    (ha : committedAnswer Γ db.termStore frame count = .ok (s, answer)) :
    appendAndReplay Γ J log db false frame count = ⟨{ db with termStore := s }, bytes, [], .ok answer⟩ := by
  simp only [appendAndReplay, appendFramesDurable, hw, ha, Bool.false_eq_true, if_false, List.append_nil]

/-- A frame that is written and that the store does not take. -/
theorem appendAndReplay_not_taken {frame : TransactionFrame} {fault : Fault}
    (hw : writeTransactionFrame J frame (db.deflate.getD false) = .ok bytes)
    (ha : committedAnswer Γ db.termStore frame count = .error fault) :
    appendAndReplay Γ J log db false frame count = commitFenced Γ J log db bytes [] fault := by
  simp only [appendAndReplay, appendFramesDurable, hw, ha, Bool.false_eq_true, if_false, List.append_nil]

/-- A database that a commit fences is not ready. -/
theorem commitFenced_not_ready {appended : Bytes} {deferred : List TransactionFrame} {cause : Fault} :
    (commitFenced Γ J log db appended deferred cause).db.mutationState ≠ .ready := fenceAndReconcile_not_ready cause

end Committing

end Serving

end Fram.Database
