import Fram.Lemmas.Committed
import Fram.Lemmas.CommitRequest
import Fram.Lemmas.CrashRun

/-!
# A commit of the JVM is atomic where its frame can be encoded

`commit!` checks a request, appends the frame it makes and replays it, and any exception from the append on fences the database. The
checks before the append let through what the encoder refuses: a proposition nested too deep, a keyword without a spelling, a text
with an unpaired surrogate.

A log of the JVM is opened, committed to, cut by crashes in the middle of an append and repaired, over and over. It opens and holds the
transactions that were acknowledged and those that a crash let through whole, as long as no database of a deflate generation appends
after it was opened on a log cut inside a frame: the exit of the reader that finds such a cut says nothing of compression, so plain
frames go to a deflate log, which is refused from then on.
-/

namespace Fram.Database

/-! ## One commit -/

/-- The commit was made: a frame of the next sequence, with the operations that were asked for and those that record what the request
says of them, was appended to the log and is the last of the history; the answer names its transaction, shows the occurrences of the
operations that were asked for, and counts all of them. -/
structure Made (Γ : Host) (J : Gzip) (frames : List TransactionFrame) (db : Db) (request : CommitRequest Value)
    (outcome : CommitOutcome) (source metadata : List ValueOperation) (operations : List CommitOperation) (transaction : Triple)
    (events : List OperationOccurrence) (found : List Withdrawal) : Prop where
  asked : request.operations.mapM commitOperationOf = .ok source
  coordinate : transactionCoordinate db.spaceId db.termStore.nextSequence = .ok transaction
  recorded : metadataOperations db transaction request = .ok metadata
  terms : (source ++ metadata).mapM ValueOperation.operation? = some operations
  answer : outcome.answer = .ok (.committed transaction events found operations.length)
  shown : List.Forall₂ OperationOccurrence.same events
    (Reference.occurrences db.spaceId ((TransactionFrame.logged ⟨db.termStore.nextSequence, operations⟩).take request.operations.length))
  appended : writeTransactionFrame J ⟨db.termStore.nextSequence, operations⟩ (db.deflate.getD false) = .ok outcome.appended
  history : HasHistory Γ outcome.db.termStore db.spaceId (frames ++ [⟨db.termStore.nextSequence, operations⟩])
  state : outcome.db.mutationState = .ready

/-- The commit was made, or it rejects or throws and nothing has changed. -/
def Atomic (Γ : Host) (J : Gzip) (frames : List TransactionFrame) (db : Db) (request : CommitRequest Value) (outcome : CommitOutcome) :
    Prop :=
  (∃ source metadata operations transaction events found,
      Made Γ J frames db request outcome source metadata operations transaction events found) ∨
    (((∃ expected current, outcome.answer = .ok (.conflict expected current)) ∨ ∃ fault, outcome.answer = .error fault) ∧
      outcome.appended = [] ∧ outcome.db = db)

/-- The frame of every request that the checks let through can be encoded: the texts of its operations have no unpaired surrogate,
no term is too deep and no keyword without a spelling, the payload fits an array, and the sequences have not run out. -/
def Encodable (J : Gzip) (db : Db) (request : CommitRequest Value) : Prop :=
  ∀ source metadata, checkRequest db request = .ok (.operations source metadata) →
    db.termStore.nextSequence ≤ maxTransactionSequence ∧
      ∃ operations, (source ++ metadata).mapM ValueOperation.operation? = some operations ∧
        Encodes J (db.deflate.getD false) ⟨db.termStore.nextSequence, operations⟩

/-- A commit that leaves a ready database fenced is not atomic. -/
theorem not_atomic_of_fenced {Γ : Host} {J : Gzip} {frames : List TransactionFrame} {db : Db} {request : CommitRequest Value}
    {outcome : CommitOutcome} (h : db.mutationState = .ready) (hn : outcome.db.mutationState ≠ .ready) :
    ¬Atomic Γ J frames db request outcome := by
  rintro (⟨source, metadata, operations, transaction, events, found, hmade⟩ | ⟨-, -, hdb⟩)
  · exact hn hmade.state
  · exact hn (by rw [hdb]; exact h)

section Serving

variable {Γ : Host} {J : Gzip} {frames : List TransactionFrame} {db : Db} {log : Bytes} {request : CommitRequest Value}

/-- What an atomic commit lets through can be encoded: anything else fences the database. -/
theorem Atomic.encodable (h : Serves Γ frames db) (hatomic : Atomic Γ J frames db request (commitRequest Γ J log db false request)) :
    Encodable J db request := by
  intro source metadata hc
  cases ho : (source ++ metadata).mapM ValueOperation.operation? with
  | none =>
    rw [commitRequest_of_none hc ho] at hatomic
    exact absurd hatomic (not_atomic_of_fenced h.state commitFenced_not_ready)
  | some operations =>
    rw [commitRequest_of_some hc ho] at hatomic
    cases hw : writeTransactionFrame J ⟨db.termStore.nextSequence, operations⟩ (db.deflate.getD false) with
    | error fault =>
      rw [appendAndReplay_not_written hw] at hatomic
      exact absurd hatomic (not_atomic_of_fenced h.state commitFenced_not_ready)
    | ok bytes =>
      cases ha : committedAnswer Γ db.termStore ⟨db.termStore.nextSequence, operations⟩ source.length with
      | error fault =>
        rw [appendAndReplay_not_taken hw ha] at hatomic
        exact absurd hatomic (not_atomic_of_fenced h.state commitFenced_not_ready)
      | ok r =>
        obtain ⟨hsequence, -⟩ := writeTransactionFrame_ok_iff.1 hw
        exact ⟨le_of_committedAnswer h.represents ha, operations, rfl, (encodes_iff hsequence).2 ⟨bytes, hw⟩⟩

/-- A request that its checks let through, and whose frame can be encoded, is committed. -/
theorem exists_made (h : Serves Γ frames db) {source metadata : List ValueOperation}
    (hc : checkRequest db request = .ok (.operations source metadata)) {operations : List CommitOperation}
    (hnext : db.termStore.nextSequence ≤ maxTransactionSequence)
    (ho : (source ++ metadata).mapM ValueOperation.operation? = some operations)
    (hencodes : Encodes J (db.deflate.getD false) ⟨db.termStore.nextSequence, operations⟩) :
    ∃ transaction events found, Made Γ J frames db request (commitRequest Γ J log db false request) source metadata operations
      transaction events found := by
  obtain ⟨-, -, coordinate, hcoordinate, hsource, hmetadata⟩ := of_checkRequest hc
  have hlength := length_of_mapM_operation? ho
  rw [List.length_append] at hlength
  have hn : operations ≠ [] := by
    have := List.length_pos_iff.2 (source_ne_nil hc)
    exact List.length_pos_iff.1 (by omega)
  have hpos := h.represents.advances.next_pos
  have hmax : maxTransactionSequence = 9223372036854775806 := rfl
  obtain ⟨bytes, hw⟩ := (encodes_iff ⟨by dsimp only; omega, by dsimp only; omega⟩).1 hencodes
  have hle : source.length ≤ operations.length := by omega
  obtain ⟨transaction, events, found, htransaction, hevents, ha⟩ := committedAnswer_ok h.represents hn hnext hle
  rw [h.space] at htransaction hevents
  cases hcoordinate.symm.trans htransaction
  have hcount : source.length = request.operations.length := (ExceptList.mapM_eq_ok_iff.1 hsource).length_eq.symm
  rw [hcount] at hevents
  rw [commitRequest_of_some hc ho, appendAndReplay_taken hw ha]
  refine ⟨coordinate, events, found, hsource, hcoordinate, hmetadata, ho, rfl, hevents, hw, ?_, h.state⟩
  have hrep := h.represents.appendValidTransaction (Int.le_refl _) hn
  rw [← h.space]
  exact appendValidTransaction_spaceId (Γ := Γ) db.termStore db.termStore.nextSequence operations ▸ hrep.hasHistory

/-- A commit over a database that serves a history is atomic exactly where its frame can be encoded. -/
theorem atomic_iff_encodable (h : Serves Γ frames db) :
    Atomic Γ J frames db request (commitRequest Γ J log db false request) ↔ Encodable J db request := by
  refine ⟨Atomic.encodable h, fun hencodable => ?_⟩
  cases hc : checkRequest db request with
  | error fault =>
    right
    simp only [commitRequest, hc]
    exact ⟨Or.inr ⟨fault, rfl⟩, trivial, trivial⟩
  | ok checked =>
    cases checked with
    | conflict expected current =>
      right
      simp only [commitRequest, hc]
      exact ⟨Or.inl ⟨expected, current, rfl⟩, trivial, trivial⟩
    | operations source metadata =>
      left
      obtain ⟨hnext, operations, ho, hencodes⟩ := hencodable source metadata hc
      exact ⟨source, metadata, operations, exists_made h hc hnext ho hencodes⟩

end Serving

/-- **A commit is atomic exactly where its frame can be encoded.** For every database that is ready and holds a history, every log and
every request of values of the JVM; and so for every database that was opened on a log, over the history it was opened with. A database
without a log file (`:log` nil) is left out. -/
theorem commit_atomicity (Γ : Host) (J : Gzip) : (∀ frames db, Serves Γ frames db → ∀ log request,
      (Atomic Γ J frames db request (commitRequest Γ J log db false request) ↔ Encodable J db request)) ∧
    ∀ bytes expectedSpace repairTorn db log, openDatabase Γ J bytes expectedSpace repairTorn = .ok (db, log) →
      ∃ frames, HasHistory Γ db.termStore db.spaceId frames ∧ ∀ request,
        (Atomic Γ J frames db request (commitRequest Γ J log db false request) ↔ Encodable J db request) := by
  refine ⟨fun frames db h log request => atomic_iff_encodable h, fun bytes expectedSpace repairTorn db log hopen => ?_⟩
  obtain ⟨frames, h, -⟩ := serves_of_openDatabase hopen
  exact ⟨frames, h.space ▸ h.represents.hasHistory, fun request => atomic_iff_encodable h⟩

/-- One assertion over a new log. -/
theorem commit_atomicity_one : ∃ db, openDatabase Host.zero storingGzip (headerBytes "s") none true = .ok (db, headerBytes "s") ∧
    Serves Host.zero [] db ∧
    (Atomic Host.zero storingGzip [] db (assertRequest (Value.ofTerm (.triple (.int 1) (.int 2) (.int 3))) none none)
        (commitRequest Host.zero storingGzip (headerBytes "s") db false
          (assertRequest (Value.ofTerm (.triple (.int 1) (.int 2) (.int 3))) none none)) ↔
      Encodable storingGzip db (assertRequest (Value.ofTerm (.triple (.int 1) (.int 2) (.int 3))) none none)) ∧
    ∃ frames, HasHistory Host.zero db.termStore db.spaceId frames ∧ ∀ request,
      (Atomic Host.zero storingGzip frames db request (commitRequest Host.zero storingGzip (headerBytes "s") db false request) ↔
        Encodable storingGzip db request) := by
  obtain ⟨db, hopen, hserves, -⟩ := @openDatabase_new "s" (by decide) (by decide)
  exact ⟨db, hopen, hserves, (commit_atomicity Host.zero storingGzip).1 _ _ hserves _ _,
    (commit_atomicity Host.zero storingGzip).2 _ _ _ _ _ hopen⟩

/-- A term so many levels deep. -/
def deepTerm : Nat → Term
  | 0 => .int 0
  | depth + 1 => .triple (deepTerm depth) (.int 0) (.int 0)

set_option maxRecDepth 20000 in
/-- Three propositions that a new database lets through and that fence it: one too deep, one with a keyword without a spelling, and one
with an unpaired surrogate. -/
theorem commit_not_encoded : ∃ header, createTripleLog "s" false false = .ok header ∧
    ∀ proposition ∈ [Value.ofTerm (deepTerm 257), .triple (.keyword []) (.int 2) (.int 3), .triple (.string [55296]) (.int 2) (.int 3)],
      ∃ db, openDatabase Host.zero storingGzip header none true = .ok (db, header) ∧ db.mutationState = .ready ∧
        ¬Atomic Host.zero storingGzip [] db (assertRequest proposition none none)
          (commitRequest Host.zero storingGzip header db false (assertRequest proposition none none)) := by
  have hrun : ∀ proposition ∈ [Value.ofTerm (deepTerm 257), .triple (.keyword []) (.int 2) (.int 3),
      .triple (.string [55296]) (.int 2) (.int 3)],
      ((openDatabase Host.zero storingGzip (headerBytes "s") none true).toOption.any fun r => decide (r.2 = headerBytes "s") &&
        (decide (r.1.mutationState = .ready) && !decide ((commitRequest Host.zero storingGzip (headerBytes "s") r.1 false
          (assertRequest proposition none none)).db.mutationState = .ready))) = true := by with_unfolding_all decide
  refine ⟨headerBytes "s", rfl, fun proposition hp => ?_⟩
  have h := hrun proposition hp
  cases ho : openDatabase Host.zero storingGzip (headerBytes "s") none true with
  | error fault =>
    rw [ho] at h
    cases h
  | ok r =>
    obtain ⟨db, log⟩ := r
    simp only [ho, Except.toOption, Option.any_some, Bool.and_eq_true, decide_eq_true_eq, Bool.not_eq_true', decide_eq_false_iff_not] at h
    obtain ⟨rfl, hready, hfenced⟩ := h
    exact ⟨db, rfl, hready, not_atomic_of_fenced hready hfenced⟩

/-! ## Commits and crashes -/

/-- **A log survives crashes while the mode of its generation is kept.** After every run over a log that was created, whose steps all
keep to the mode and do not run out of sequences, the log opens, with repair or without it, and the store holds the frames of the
journal in order: those acknowledged, and between them those that an interrupted append had written whole. -/
theorem crash_recovery (Γ : Host) (J : Gzip) {deflate : Bool} {spaceId : String} {header : Bytes}
    (hc : createTripleLog spaceId deflate false = .ok header) {events : List Event}
    (hm : MeetsRun Γ J deflate (created header) events) {expectedSpace : Option String}
    (he : expectedSpace = none ∨ expectedSpace = some spaceId) (repairTorn : Bool) :
    (∃ db log, openDatabase Γ J ((created header).run Γ J events).log expectedSpace repairTorn = .ok (db, log) ∧
      HasHistory Γ db.termStore spaceId ((created header).run Γ J events).frames) ∧
    ((created header).run Γ J events).acknowledged =
      (((created header).run Γ J events).journal.filter (·.acknowledged)).map (·.frame) := by
  obtain ⟨rfl, hne, hsize⟩ := createTripleLog_ok_iff.1 hc
  have hsound := (sound_created (Γ := Γ) (J := J)).run hne hsize hm
  obtain ⟨stored, rest, hlog, hst, hcut, -⟩ := hsound.log
  obtain ⟨db, log, hopen, hrep, hspace, -⟩ := @openDatabase_generation Γ J deflate stored _ rest spaceId hne hsize hst hcut
    hsound.ordered expectedSpace he repairTorn
  refine ⟨⟨db, log, ?_, hspace ▸ hrep.hasHistory⟩, hsound.acknowledged⟩
  rw [hlog, hopen]

/-- The bytes that GZIP makes of the payload of one assertion. -/
def oneFrameGzip : Bytes :=
  [31, 139, 8, 0, 0, 0, 0, 0, 0, 255, 99, 100, 128, 0, 70, 24, 205, 206, 4, 99, 50, 49, 193, 24, 204, 80, 6, 0, 180, 198, 124, 201,
    45, 0, 0, 0]

/-- GZIP at the payload of one assertion; any other bytes it keeps after a mark. -/
def sampleGzip : Gzip where
  deflate bytes := if bytes = oneFrame.payload then oneFrameGzip else 0 :: bytes
  inflate bytes :=
    match bytes with
    | 0 :: bytes => some bytes
    | _ => if bytes = oneFrameGzip then some oneFrame.payload else none
  inverse bytes := by
    by_cases h : bytes = oneFrame.payload
    · subst h
      simp [oneFrameGzip]
    · simp [h]

set_option maxRecDepth 20000 in
/-- A deflate log that a crash cuts inside the length of a frame, and a plain log that a crash cuts past it. -/
theorem crash_recovery_cuts : ∃ header plain, createTripleLog "s" true false = .ok header ∧
    createTripleLog "s" false false = .ok plain ∧
    (∃ db log, openDatabase Host.zero sampleGzip ((created header).run Host.zero sampleGzip
        [.reopen, .crash [oneFrame.operations] 3, .reopen, .commit oneFrame.operations]).log none true = .ok (db, log) ∧
      HasHistory Host.zero db.termStore "s" ((created header).run Host.zero sampleGzip
        [.reopen, .crash [oneFrame.operations] 3, .reopen, .commit oneFrame.operations]).frames) ∧
    (∃ db log, openDatabase Host.zero sampleGzip ((created plain).run Host.zero sampleGzip
        [.reopen, .crash [oneFrame.operations] 10, .reopen, .commit oneFrame.operations]).log none true = .ok (db, log) ∧
      HasHistory Host.zero db.termStore "s" ((created plain).run Host.zero sampleGzip
        [.reopen, .crash [oneFrame.operations] 10, .reopen, .commit oneFrame.operations]).frames) := by
  refine ⟨_, _, rfl, rfl, (crash_recovery Host.zero sampleGzip rfl ?_ (Or.inl rfl) true).1,
    (crash_recovery Host.zero sampleGzip rfl ?_ (Or.inl rfl) true).1⟩
  · refine ⟨⟨fun _ => nofun, nofun⟩, ⟨fun _ _ => ?_, ?_⟩, ⟨fun _ => nofun, ?_⟩, ⟨fun _ _ => ?_, ?_⟩, trivial⟩ <;>
      with_unfolding_all decide
  · refine ⟨⟨nofun, nofun⟩, ⟨nofun, ?_⟩, ⟨nofun, ?_⟩, ⟨nofun, ?_⟩, trivial⟩ <;> with_unfolding_all decide

set_option maxRecDepth 20000 in
/-- A deflate log that a crash cuts past the length of a frame: the commit after the repair is acknowledged, and the log does not open
any more. -/
theorem crash_plain_frame : ∃ header, createTripleLog "s" true false = .ok header ∧
    ((created header).run Host.zero sampleGzip [.reopen, .crash [oneFrame.operations] 10, .reopen,
      .commit oneFrame.operations]).acknowledged = [oneFrame] ∧
    (openDatabase Host.zero sampleGzip ((created header).run Host.zero sampleGzip [.reopen,
      .crash [oneFrame.operations] 10, .reopen, .commit oneFrame.operations]).log none true).isOk = false :=
  ⟨_, rfl, by with_unfolding_all decide, by with_unfolding_all decide⟩

end Fram.Database
