import Fram.Lemmas.Database

/-!
# Runs of a log through crashes

Between two steps of a run the log is the header of its generation, the records of the frames written whole, and the part of one record
that a crash left (`Sound`). A database that is open holds the history of these frames, and it keeps the mode of the generation unless
it was opened on a log cut inside a frame. A step that appends in that mode keeps this (`Sound.step`), and so does a run of such steps
(`Sound.run`).
-/

namespace Fram.Database

open Reader LittleEndian Framrpc

variable {Γ : Host} {J : Gzip} {deflate : Bool}

/-! ## Operations that are committed -/

/-- What is canonical is the term itself, within the ranges of the codec. -/
theorem canonicalTerm_ok_iff {t c : Term} : canonicalTerm t = .ok c ↔ c = t ∧ t.Ranged := by
  induction t generalizing c with
  | atom a =>
    cases a with
    | int n =>
      simp only [canonicalTerm, ExceptList.bind_eq_ok_iff, requireI64_ok_iff, Except.ok.injEq]
      constructor
      · rintro ⟨v, ⟨rfl, hi⟩, rfl⟩
        exact ⟨rfl, hi⟩
      · rintro ⟨rfl, hi⟩
        exact ⟨n, ⟨rfl, hi⟩, rfl⟩
    | instant i =>
      simp only [canonicalTerm, ExceptList.bind_eq_ok_iff, requireI64_ok_iff, Except.ok.injEq]
      constructor
      · rintro ⟨v, ⟨rfl, hi⟩, rfl⟩
        exact ⟨rfl, hi⟩
      · rintro ⟨rfl, hi⟩
        exact ⟨i.epochSeconds, ⟨rfl, hi⟩, rfl⟩
    | _ => simp [canonicalTerm, Term.Ranged, Term.All, Atom.Ranged, eq_comm]
  | triple t1 t2 t3 h1 h2 h3 =>
    simp only [canonicalTerm, ExceptList.bind_eq_ok_iff, h1, h2, h3, Except.ok.injEq]
    constructor
    · rintro ⟨c1, ⟨rfl, r1⟩, c2, ⟨rfl, r2⟩, c3, ⟨rfl, r3⟩, rfl⟩
      exact ⟨rfl, r1, r2, r3⟩
    · rintro ⟨rfl, r1, r2, r3⟩
      exact ⟨t1, ⟨rfl, r1⟩, t2, ⟨rfl, r2⟩, t3, ⟨rfl, r3⟩, rfl⟩

/-- What is committed of an operation is the operation, with a proposition within the ranges of the codec. -/
theorem commitOperation_ok {operation committed : CommitOperation} (h : commitOperation operation = .ok committed) :
    committed = operation ∧ operation.proposition.term.Ranged := by
  unfold commitOperation at h
  simp only [ExceptList.bind_eq_ok_iff, canonicalTerm_ok_iff, Except.ok.injEq] at h
  obtain ⟨c1, ⟨rfl, r1⟩, c2, ⟨rfl, r2⟩, c3, ⟨rfl, r3⟩, rfl⟩ := h
  exact ⟨rfl, r1, r2, r3⟩

/-- What is committed of operations is the operations. -/
theorem mapM_commitOperation_ok {operations committed : List CommitOperation} (h : operations.mapM commitOperation = .ok committed) :
    committed = operations ∧ ∀ o ∈ operations, o.proposition.term.Ranged := by
  rw [ExceptList.mapM_eq_ok_iff] at h
  induction h with
  | nil => exact ⟨rfl, by simp⟩
  | cons ho _ ih =>
    obtain ⟨rfl, hr⟩ := commitOperation_ok ho
    obtain ⟨rfl, hrs⟩ := ih
    exact ⟨rfl, List.forall_mem_cons.2 ⟨hr, hrs⟩⟩

/-! ## Frames that are appended -/

/-- A frame that a database may append: the reader takes back what is written of it. -/
structure Writable (frame : TransactionFrame) : Prop where
  sequence : 0 ≤ frame.sequence
  nonempty : frame.operations ≠ []
  ranged : ∀ o ∈ frame.operations, o.proposition.term.Ranged

/-- What an append writes is the records of its first frames, and of all of them where it does not fail. -/
theorem appendFramesDurable_spec {frames : List TransactionFrame} (hw : ∀ f ∈ frames, Writable f) :
    ∃ stored, (appendFramesDurable J deflate frames).1 = Records.records crc32 stored ∧
      List.Forall₂ (Stores J deflate) stored (appendFramesDurable J deflate frames).2.1 ∧
      (appendFramesDurable J deflate frames).2.1 <+: frames ∧
      ((appendFramesDurable J deflate frames).2.2 = none → (appendFramesDurable J deflate frames).2.1 = frames) := by
  induction frames with
  | nil => exact ⟨[], rfl, .nil, List.nil_prefix, fun _ => rfl⟩
  | cons frame frames ih =>
    rw [List.forall_mem_cons] at hw
    unfold appendFramesDurable
    cases hf : writeTransactionFrame J frame deflate with
    | error fault => exact ⟨[], rfl, .nil, List.nil_prefix, nofun⟩
    | ok bytes =>
      obtain ⟨b, rfl, hb⟩ := writeTransactionFrame_ok hf hw.1.sequence hw.1.nonempty hw.1.ranged
      obtain ⟨stored, h1, h2, h3, h4⟩ := ih hw.2
      refine ⟨b :: stored, ?_, .cons hb h2, List.cons_prefix_cons.2 ⟨rfl, h3⟩, fun hn => ?_⟩
      · rw [Records.records_cons, ← h1]
      · exact congrArg (frame :: ·) (h4 hn)

/-- The first bytes of an append are the records of the frames whole in them and a part of one record. -/
theorem wholeFrames_spec {frames : List TransactionFrame} (hw : ∀ f ∈ frames, Writable f) (kept : Nat) :
    ∃ stored rest, (appendFramesDurable J deflate frames).1.take kept = Records.records crc32 stored ++ rest ∧
      List.Forall₂ (Stores J deflate) stored (wholeFrames J deflate frames kept).1 ∧
      (wholeFrames J deflate frames kept).1 <+: frames ∧ Records.Cut integerMax rest ∧
      rest.length = (wholeFrames J deflate frames kept).2 := by
  have hnil : Records.Cut integerMax [] := Or.inl (by simp)
  induction frames generalizing kept with
  | nil => exact ⟨[], [], by simp [appendFramesDurable], .nil, List.nil_prefix, hnil, rfl⟩
  | cons frame frames ih =>
    rw [List.forall_mem_cons] at hw
    unfold appendFramesDurable wholeFrames
    cases hf : writeTransactionFrame J frame deflate with
    | error fault => exact ⟨[], [], by simp, .nil, List.nil_prefix, hnil, rfl⟩
    | ok bytes =>
      obtain ⟨b, rfl, hb⟩ := writeTransactionFrame_ok hf hw.1.sequence hw.1.nonempty hw.1.ranged
      dsimp only
      by_cases hk : (Records.record crc32 b).length ≤ kept
      · obtain ⟨stored, rest, h1, h2, h3, h4, h5⟩ := ih hw.2 (kept - (Records.record crc32 b).length)
        rw [if_pos hk]
        refine ⟨b :: stored, rest, ?_, .cons hb h2, List.cons_prefix_cons.2 ⟨rfl, h3⟩, h4, h5⟩
        rw [List.take_append, List.take_of_length_le hk, h1, Records.records_cons, List.append_assoc]
      · rw [if_neg hk]
        rw [Records.length_record] at hk
        refine ⟨[], (Records.record crc32 b).take kept, ?_, .nil, List.nil_prefix,
          Records.cut_take_record (by decide) hb.size (by omega), ?_⟩
        · rw [List.take_append_of_le_length (by rw [Records.length_record]; omega), Records.records_nil, List.nil_append]
        · rw [List.length_take, Records.length_record]
          omega

/-! ## Databases that are ready -/

/-- A database that takes commits: it holds the history of the frames, and it keeps a mode. -/
structure Ready (Γ : Host) (mode : Option Bool) (frames : List TransactionFrame) (db : Db) : Prop where
  represents : Represents Γ db.termStore frames
  mode : db.deflate = mode
  tornTail : db.tornTail = none
  state : db.mutationState = .ready

variable {mode : Option Bool} {frames : List TransactionFrame} {db : Db} {log : Bytes}

/-- A commit over a database that is ready, and whose sequences have not run out, is refused, or it makes one frame of its operations;
the append of the frame fails and fences the database, or the store takes the frame. -/
theorem Ready.commit_cases (h : Ready Γ mode frames db) (hnext : db.termStore.nextSequence ≤ maxTransactionSequence) (log : Bytes)
    (deferring : Bool) (operations : List CommitOperation)
    {append : Bytes × List TransactionFrame × Option Fault} (ha : append = if deferring then ([], [], none)
      else appendFramesDurable J (mode.getD false) [⟨db.termStore.nextSequence, operations⟩]) :
    (∃ fault, commit Γ J log db deferring operations = refused db fault) ∨
      Writable ⟨db.termStore.nextSequence, operations⟩ ∧
        ((∃ deferred cause, append.2.2 = some cause ∧
            commit Γ J log db deferring operations = fenced Γ J log db append.1 append.2.1 deferred cause) ∨
          append.2.2 = none ∧ commit Γ J log db deferring operations =
            ⟨{ db with termStore := appendValidTransaction Γ db.termStore db.termStore.nextSequence operations }, append.1,
              append.2.1, if deferring then [⟨db.termStore.nextSequence, operations⟩] else [],
              .ok [⟨db.termStore.nextSequence, operations⟩]⟩) := by
  unfold commit requireMutationReady
  rw [h.state, h.tornTail, h.mode]
  dsimp only
  by_cases hn : operations = []
  · exact Or.inl ⟨_, if_pos hn⟩
  rw [if_neg hn, if_neg (by simp)]
  cases hm : operations.mapM commitOperation with
  | error fault => exact Or.inl ⟨fault, rfl⟩
  | ok committed =>
    obtain ⟨rfl, hr⟩ := mapM_commitOperation_ok hm
    have hpos := h.represents.advances.next_pos
    refine Or.inr ⟨⟨by dsimp only; omega, hn, hr⟩, ?_⟩
    dsimp only
    rw [← ha]
    obtain ⟨bytes, written, failure⟩ := append
    cases failure with
    | some cause => exact Or.inl ⟨_, cause, rfl, rfl⟩
    | none =>
      obtain ⟨c, hc⟩ := (@Represents.replayTransactionLong_ok_iff _ _ _ _ h.represents ⟨db.termStore.nextSequence, committed⟩).2
        ⟨⟨Int.le_refl _, hnext, hn⟩, rfl⟩
      exact Or.inr ⟨rfl, by dsimp only; rw [hc]⟩

/-- A commit that succeeds over a database that is ready writes the frame of its operations. -/
theorem Ready.commit_ok (h : Ready Γ mode frames db) (hnext : db.termStore.nextSequence ≤ maxTransactionSequence)
    {operations : List CommitOperation} {fs : List TransactionFrame} (hr : (commit Γ J log db false operations).result = .ok fs) :
    fs = [⟨db.termStore.nextSequence, operations⟩] ∧ (commit Γ J log db false operations).written = fs := by
  rcases h.commit_cases (J := J) hnext log false operations rfl with ⟨fault, hc⟩ | ⟨hw, ⟨deferred, cause, -, hc⟩ | ⟨hnone, hc⟩⟩
  · rw [hc] at hr
    cases hr
  · rw [hc] at hr
    cases hr
  · rw [hc] at hr ⊢
    cases hr
    obtain ⟨-, -, -, -, hall⟩ := @appendFramesDurable_spec J (mode.getD false) _ (List.forall_mem_singleton.2 hw)
    exact ⟨rfl, hall hnone⟩

/-- The store takes the next frame. -/
theorem Ready.extend (h : Ready Γ mode frames db) {operations : List CommitOperation} (hn : operations ≠ []) :
    Ready Γ mode (frames ++ [⟨db.termStore.nextSequence, operations⟩])
      { db with termStore := appendValidTransaction Γ db.termStore db.termStore.nextSequence operations } :=
  ⟨h.represents.appendValidTransaction (Int.le_refl _) hn, h.mode, h.tornTail, h.state⟩

/-- The mutations of a cohort leave a database that is ready, and the frames that they defer can be written. -/
theorem Ready.runCohort (h : Ready Γ mode frames db) (log : Bytes) {mutations : List (List CommitOperation)}
    (hnext : db.termStore.nextSequence + mutations.length ≤ maxTransactionSequence + 1) :
    Ready Γ mode (frames ++ (runCohort Γ J log db mutations).2) (runCohort Γ J log db mutations).1 ∧
      (∀ f ∈ (Database.runCohort Γ J log db mutations).2, Writable f) ∧
      (Database.runCohort Γ J log db mutations).1.termStore.nextSequence ≤ db.termStore.nextSequence + mutations.length := by
  induction mutations using List.reverseRecOn with
  | nil => exact ⟨by simpa [Database.runCohort] using h, by simp [Database.runCohort], by simp [Database.runCohort]⟩
  | append_singleton mutations operations ih =>
    rw [List.length_append, List.length_singleton] at hnext ⊢
    obtain ⟨hr, hw, hle⟩ := ih (by omega)
    unfold Database.runCohort at hr hw hle ⊢
    rw [List.foldl_append, List.foldl_cons, List.foldl_nil]
    generalize List.foldl _ (db, []) mutations = scratch at hr hw hle ⊢
    rcases hr.commit_cases (J := J) (by omega) log true operations rfl with ⟨fault, hc⟩ | ⟨hwr, ⟨_, cause, hf, -⟩ | ⟨-, hc⟩⟩
    · simp only [hc, refused, List.append_nil]
      exact ⟨hr, hw, by omega⟩
    · simp at hf
    · simp only [hc, ← List.append_assoc, appendValidTransaction_nextSequence]
      exact ⟨hr.extend hwr.nonempty, by simpa using fun f hf => hf.elim (hw f) (fun he => he ▸ hwr), by omega⟩

/-! ## What a mutation does to a log -/

/-- What a mutation appends is the records of the frames that it writes, which advance; a database that is ready after it holds them
too, and what is acknowledged is what is written. -/
structure Extends (Γ : Host) (J : Gzip) (deflate : Bool) (mode : Option Bool) (frames : List TransactionFrame) (m : Mutation) :
    Prop where
  appended : ∃ stored, m.appended = Records.records crc32 stored ∧ List.Forall₂ (Stores J deflate) stored m.written
  ordered : Continues 1 (frames ++ m.written)
  ready : m.db.mutationState = .ready → Ready Γ mode (frames ++ m.written) m.db
  acknowledged : ∀ fs, m.result = .ok fs → fs = m.written

theorem extends_refused (ho : Continues 1 frames) (hr : db.mutationState = .ready → Ready Γ mode frames db) (fault : Fault) :
    Extends Γ J deflate mode frames (refused db fault) :=
  ⟨⟨[], rfl, .nil⟩, by simpa [refused] using ho, by simpa [refused] using hr, nofun⟩

/-- A database that reads its log back after a failure is not ready. -/
theorem fenceAndReconcile_not_ready (cause : Fault) : (fenceAndReconcile Γ J log db cause).mutationState ≠ .ready := by
  unfold fenceAndReconcile
  split <;> simp

theorem extends_fenced {appended : Bytes} {written deferred : List TransactionFrame} {cause : Fault} {stored : List Bytes}
    (ha : appended = Records.records crc32 stored) (hs : List.Forall₂ (Stores J deflate) stored written)
    (ho : Continues 1 (frames ++ written)) : Extends Γ J deflate mode frames (fenced Γ J log db appended written deferred cause) :=
  ⟨⟨stored, ha, hs⟩, ho, fun h => absurd h (fenceAndReconcile_not_ready cause), nofun⟩

/-- The first frames of an append continue the history when all of them do. -/
theorem Continues.firstFrames {written fs : List TransactionFrame} (h : Continues 1 (frames ++ fs)) (hp : written <+: fs) :
    Continues 1 (frames ++ written) :=
  h.of_prefix ((List.prefix_append_right_inj frames).2 hp)

/-- A commit in the mode of the generation extends its frames. -/
theorem Ready.commit (h : Ready Γ mode frames db) (hmode : mode.getD false = deflate)
    (hnext : db.termStore.nextSequence ≤ maxTransactionSequence) (operations : List CommitOperation) :
    Extends Γ J deflate mode frames (Database.commit Γ J log db false operations) := by
  rcases h.commit_cases (J := J) hnext log false operations rfl with ⟨fault, hc⟩ | ⟨hw, hcases⟩
  · rw [hc]
    exact extends_refused (h.represents.continues (by omega)) (fun _ => h) fault
  have hext := h.extend hw.nonempty
  rw [hmode] at hcases
  obtain ⟨stored, h1, h2, h3, h4⟩ := @appendFramesDurable_spec J deflate [⟨db.termStore.nextSequence, operations⟩] (by simpa using hw)
  have ho := Continues.firstFrames (hext.represents.continues (by rw [appendValidTransaction_nextSequence]; omega)) h3
  rcases hcases with ⟨deferred, cause, -, hc⟩ | ⟨hnone, hc⟩
  · rw [hc]
    exact extends_fenced h1 h2 ho
  · rw [hc]
    have hall := h4 hnone
    refine ⟨⟨stored, h1, h2⟩, ho, fun _ => ?_, fun fs hfs => ?_⟩
    · simp only [Bool.false_eq_true, if_false] at hall ⊢
      rw [hall]
      exact hext
    · cases hfs
      exact hall.symm

/-- So does a cohort, by its frames together. -/
theorem Ready.commitCohort (h : Ready Γ mode frames db) (hmode : mode.getD false = deflate) {mutations : List (List CommitOperation)}
    (hnext : db.termStore.nextSequence + mutations.length ≤ maxTransactionSequence + 1) :
    Extends Γ J deflate mode frames (Database.commitCohort Γ J log db mutations) := by
  obtain ⟨hr, hw, hle⟩ := h.runCohort (J := J) log hnext
  have hall := hr.represents.continues (hle.trans hnext)
  unfold Database.commitCohort requireMutationReady
  rw [h.state]
  dsimp only
  generalize Database.runCohort Γ J log db mutations = scratch at hr hw hall ⊢
  by_cases hn : scratch.2 = []
  · rw [if_pos hn]
    exact ⟨⟨[], rfl, .nil⟩, by simpa using h.represents.continues (by omega), fun _ => by simpa using h,
      fun fs hfs => by cases hfs; rfl⟩
  rw [if_neg hn, h.mode, hmode]
  obtain ⟨stored, h1, h2, h3, h4⟩ := @appendFramesDurable_spec J deflate scratch.2 hw
  have ho := Continues.firstFrames hall h3
  generalize appendFramesDurable J deflate scratch.2 = append at h1 h2 h3 h4 ho ⊢
  obtain ⟨bytes, written, failure⟩ := append
  cases failure with
  | some cause => exact extends_fenced h1 h2 ho
  | none =>
    obtain rfl := h4 rfl
    have hread : readable scratch.1 = true := by
      unfold readable
      rw [hr.state]
    dsimp only
    rw [if_pos hread]
    exact ⟨⟨stored, h1, h2⟩, ho, fun _ => ⟨hr.represents, rfl, h.tornTail, rfl⟩, fun fs hfs => by cases hfs; rfl⟩

/-! ## Runs -/

/-- The step keeps to the mode of the generation, and within the sequences: a database of a deflate generation that was opened on a log
cut inside a frame appends nothing, and no database takes more transactions than it has sequences for. -/
structure Meets (deflate : Bool) (w : World) (event : Event) : Prop where
  mode : deflate = true → event.appends = true → w.openedOnCut = false
  sequences : ∀ db ∈ w.db, db.termStore.nextSequence + event.transactions ≤ maxTransactionSequence + 1

/-- Every step of a run keeps to the mode of the generation. -/
def MeetsRun (Γ : Host) (J : Gzip) (deflate : Bool) : World → List Event → Prop
  | _, [] => True
  | w, event :: events => Meets deflate w event ∧ MeetsRun Γ J deflate (w.step Γ J event) events

/-- The log is the header of its generation, the records of the frames written whole and a part of one more, and a database that is
open and ready holds these frames. -/
structure Sound (Γ : Host) (J : Gzip) (deflate : Bool) (spaceId : String) (w : World) : Prop where
  log : ∃ stored rest, w.log = generationHeader deflate spaceId ++ (Records.records crc32 stored ++ rest) ∧
    List.Forall₂ (Stores J deflate) stored w.frames ∧ Records.Cut integerMax rest ∧ rest.length = w.unfinished
  ordered : Continues 1 w.frames
  acknowledged : w.acknowledged = (w.journal.filter (·.acknowledged)).map (·.frame)
  opened : ∀ db, w.db = some db → w.unfinished = 0 ∧
    (db.mutationState = .ready → Ready Γ (if w.openedOnCut then none else some deflate) w.frames db)

section Steps

variable {spaceId : String} {w : World}

/-- A log that is created is sound. -/
theorem sound_created : Sound Γ J deflate spaceId (created (generationHeader deflate spaceId)) :=
  ⟨⟨[], [], by simp [created], .nil, Or.inl (by simp), rfl⟩, trivial, rfl, nofun⟩

/-- A mutation that extends the log keeps it sound. -/
theorem Sound.mutated (h : Sound Γ J deflate spaceId w) (hu : w.unfinished = 0) {m : Mutation}
    (hm : Extends Γ J deflate (if w.openedOnCut then none else some deflate) w.frames m) : Sound Γ J deflate spaceId (w.mutated m) := by
  obtain ⟨stored, rest, hlog, hst, hcut, hrest⟩ := h.log
  obtain ⟨more, happ, hmore⟩ := hm.appended
  have hnil : rest = [] := List.length_eq_zero_iff.1 (hrest.trans hu)
  subst hnil
  have hframes : (w.mutated m).frames = w.frames ++ m.written := by
    simp [World.frames, World.mutated, Function.comp_def]
  refine ⟨⟨stored ++ more, [], ?_, ?_, hcut, hrest⟩, ?_, ?_, fun db hdb => ⟨hu, fun hr => ?_⟩⟩
  · simp only [World.mutated, hlog, happ, Records.records_append, List.append_assoc, List.append_nil]
  · rw [hframes]
    exact List.rel_append hst hmore
  · rw [hframes]
    exact hm.ordered
  · cases hres : m.result with
    | error fault =>
      simp [World.mutated, hres, h.acknowledged, Except.toOption, Except.isOk, Except.toBool, List.filter_map, Function.comp_def]
    | ok fs =>
      obtain rfl := hm.acknowledged fs hres
      simp [World.mutated, hres, h.acknowledged, Except.toOption, Except.isOk, Except.toBool, List.filter_map, Function.comp_def]
  · rw [hframes]
    obtain rfl : m.db = db := Option.some.inj hdb
    exact hm.ready hr

/-- The mode in which a database appends is that of the generation. -/
theorem getD_mode {event : Event} (hm : Meets deflate w event) (ha : event.appends = true) :
    (if w.openedOnCut then none else some deflate).getD false = deflate := by
  cases deflate with
  | false => cases w.openedOnCut <;> rfl
  | true =>
    rw [hm.mode rfl ha]
    rfl

/-- A mutation of a database that is not ready is refused. -/
theorem requireMutationReady_error {db : Db} (h : db.mutationState ≠ .ready) : ∃ fault, requireMutationReady db = .error fault := by
  unfold requireMutationReady
  cases hs : db.mutationState with
  | ready => exact absurd hs h
  | recoveryRequired cause version tornTail validBytes => exact ⟨_, rfl⟩
  | corrupt cause corruption => exact ⟨_, rfl⟩

/-- A step that keeps to the mode of the generation keeps the log sound. -/
theorem Sound.step (hne : spaceId ≠ "") (hsize : (utf8Encode spaceId).length ≤ integerMax) (h : Sound Γ J deflate spaceId w)
    {event : Event} (hm : Meets deflate w event) : Sound Γ J deflate spaceId (w.step Γ J event) := by
  cases event with
  | commit operations =>
    unfold World.step
    cases hdb : w.db with
    | none => exact h
    | some db =>
      obtain ⟨hu, hready⟩ := h.opened db hdb
      refine h.mutated hu ?_
      by_cases hs : db.mutationState = .ready
      · exact (hready hs).commit (getD_mode hm rfl) (by have := hm.sequences db hdb; simp only [Event.transactions] at this; omega) operations
      · obtain ⟨fault, hf⟩ := requireMutationReady_error hs
        unfold Database.commit
        rw [hf]
        exact extends_refused h.ordered hready fault
  | cohort mutations =>
    unfold World.step
    cases hdb : w.db with
    | none => exact h
    | some db =>
      obtain ⟨hu, hready⟩ := h.opened db hdb
      refine h.mutated hu ?_
      by_cases hs : db.mutationState = .ready
      · exact (hready hs).commitCohort (getD_mode hm rfl) (hm.sequences db hdb)
      · obtain ⟨fault, hf⟩ := requireMutationReady_error hs
        unfold Database.commitCohort
        rw [hf]
        exact extends_refused h.ordered hready fault
  | crash mutations kept =>
    unfold World.step
    cases hdb : w.db with
    | none => exact h
    | some db =>
      obtain ⟨hu, hready⟩ := h.opened db hdb
      dsimp only
      by_cases hs : db.mutationState = .ready
      · have hr := hready hs
        obtain ⟨hscratch, hw, hle⟩ := hr.runCohort (J := J) w.log (hm.sequences db hdb)
        have hall := hscratch.represents.continues (hle.trans (hm.sequences db hdb))
        obtain ⟨more, tail, h1, h2, h3, h4, h5⟩ := @wholeFrames_spec J deflate _ hw kept
        obtain ⟨stored, rest, hlog, hst, hcut, hrest⟩ := h.log
        have hnil : rest = [] := List.length_eq_zero_iff.1 (hrest.trans hu)
        subst hnil
        have hq : requireMutationReady db = .ok () := by
          unfold requireMutationReady
          rw [hs]
        rw [hq]
        dsimp only
        rw [hr.mode, getD_mode hm rfl]
        generalize Database.runCohort Γ J w.log db mutations = scratch at hall hw h1 h2 h3 h5 ⊢
        generalize wholeFrames J deflate scratch.2 kept = whole at h2 h3 h5 ⊢
        have hframes : (w.journal ++ whole.1.map fun f => (⟨f, false⟩ : JournalEntry)).map (·.frame) = w.frames ++ whole.1 := by
          simp [World.frames, Function.comp_def]
        refine ⟨⟨stored ++ more, tail, ?_, ?_, h4, h5⟩, ?_, ?_, nofun⟩
        · simp only [hlog, h1, Records.records_append, List.append_assoc, List.append_nil]
        · rw [World.frames, hframes]
          exact List.rel_append hst h2
        · rw [World.frames, hframes]
          exact Continues.firstFrames hall h3
        · simp [h.acknowledged, List.filter_map, Function.comp_def]
      · obtain ⟨fault, hf⟩ := requireMutationReady_error hs
        rw [hf]
        exact ⟨h.log, h.ordered, h.acknowledged, nofun⟩
  | reopen =>
    obtain ⟨stored, rest, hlog, hst, hcut, hrest⟩ := h.log
    obtain ⟨db, log, hopen, hrep, -, -, hmode, hstate, hrepair⟩ := @openDatabase_generation Γ J deflate stored w.frames rest
      spaceId hne hsize hst hcut h.ordered none (Or.inl rfl) true
    obtain ⟨htorn, hcutlog⟩ := hrepair rfl
    unfold World.step
    rw [hlog, hopen]
    refine ⟨⟨stored, [], by rw [hcutlog, List.append_nil], hst, Or.inl (by simp), rfl⟩, h.ordered, h.acknowledged, fun db' hdb' =>
      ⟨rfl, fun _ => ?_⟩⟩
    obtain rfl : db = db' := Option.some.inj hdb'
    refine ⟨hrep, ?_, htorn, hstate⟩
    rw [hmode, hrest]
    simp only [decide_eq_true_eq]

/-- A run whose steps keep to the mode of the generation keeps the log sound. -/
theorem Sound.run (hne : spaceId ≠ "") (hsize : (utf8Encode spaceId).length ≤ integerMax) {events : List Event}
    (h : Sound Γ J deflate spaceId w) (hm : MeetsRun Γ J deflate w events) : Sound Γ J deflate spaceId (w.run Γ J events) := by
  induction events generalizing w with
  | nil => exact h
  | cons event events ih => exact ih (h.step hne hsize hm.1) hm.2

end Steps

end Fram.Database
