import Fram.Lemmas.Chain

/-!
# Databases in use

A database that was opened from a branch appends to the tail of the branch, one commit or cohort after another (`InUse`). As long as it
appends in the mode of its tail, the ref folds the branch over the tail that it has written (`InUse.using`).
-/

namespace Fram.Database

open Reader LittleEndian Framrpc
open Lines (Text)

/-! ## Reading a log back -/

section Fencing

variable {Γ : Host} {J : Gzip} {log rest : Bytes} {db : Db} {deflate continuation : Bool} {frames : List TransactionFrame}

theorem transactionCoordinate_ok {spaceId : String} {sequence : Int} (hne : spaceId ≠ "") (h : 0 ≤ sequence) :
    ∃ version, transactionCoordinate spaceId sequence = .ok version := by
  have : 0 < spaceId.length := Nat.pos_of_ne_zero fun he => hne (length_pos_iff_ne_empty.1 he)
  exact ⟨_, if_pos ⟨this, h⟩⟩

/-- A log that is not read back leaves the database corrupt. -/
theorem fenceAndReconcile_of_error {fault : Fault} (h : parseTripleLogBytes J log false = .error fault) (cause : Fault) :
    fenceAndReconcile Γ J log db cause = { db with mutationState := .corrupt cause fault } := by
  unfold fenceAndReconcile
  rw [h]
  rfl

/-- A log of the database that continues no chain is read back exactly when its frames continue the empty history. -/
theorem fenceAndReconcile_of_isLog (h : IsLog J log db.spaceId deflate false frames rest) (cause : Fault) :
    (Continues 1 frames → ∃ s version torn valid, newTermStore db.spaceId = .ok s ∧ fenceAndReconcile Γ J log db cause =
      { db with termStore := Fram.appendFrames Γ s frames, mutationState := .recoveryRequired cause version torn valid }) ∧
    (¬Continues 1 frames → ∃ corruption, fenceAndReconcile Γ J log db cause = { db with mutationState := .corrupt cause corruption }) := by
  obtain ⟨parsed, hp, hparsed⟩ := @IsLog.parse _ _ _ _ _ _ _ h false nofun
  obtain ⟨s, hs⟩ := exists_newTermStoreSized h.space 0 0 0
  have hs : newTermStore db.spaceId = .ok s := hs
  obtain ⟨hrep, -, -⟩ := represents_newTermStoreSized Γ hs
  have hnext : s.nextSequence = 1 := hrep.advances.last
  unfold fenceAndReconcile
  rw [hp]
  simp only [bind, Except.bind]
  rw [hparsed.space, hs, hparsed.frames]
  dsimp only
  rw [if_neg (fun hn => hn rfl)]
  constructor
  · intro hc
    rw [(replayFrames_new_iff hs).2 ⟨hc, rfl⟩]
    have hall := hrep.appendContinues (hnext ▸ hc)
    have hpos := hall.advances.next_pos
    obtain ⟨version, hv⟩ := @transactionCoordinate_ok db.spaceId (currentSequence (Fram.appendFrames Γ s frames)) h.space
      (by unfold currentSequence; omega)
    refine ⟨s, version, parsed.tornTail, parsed.validBytes, rfl, ?_⟩
    dsimp only
    rw [hv]
  · intro hc
    cases hr : replayFrames Γ s frames with
    | error fault => exact ⟨fault, rfl⟩
    | ok s' => exact absurd ((replayFrames_new_iff hs).1 hr).1 hc

end Fencing

/-! ## What a mutation leaves of a database -/

section Mutations

variable {Γ : Host} {J : Gzip} {log : Bytes} {db : Db} {frames : List TransactionFrame}

/-- A commit that succeeds changes the store alone. -/
theorem commit_db_of_ok {deferring : Bool} {operations : List CommitOperation} {fs : List TransactionFrame}
    (h : (commit Γ J log db deferring operations).result = .ok fs) :
    db.mutationState = .ready ∧ ∃ s, (commit Γ J log db deferring operations).db = { db with termStore := s } := by
  unfold commit requireMutationReady at h ⊢
  cases hs : db.mutationState with
  | ready =>
    rw [hs] at h
    refine ⟨rfl, ?_⟩
    dsimp only at h ⊢
    split at h
    · cases h
    rename_i hne
    rw [if_neg hne]
    split at h
    · cases h
    rename_i htorn
    rw [if_neg htorn]
    cases hm : operations.mapM commitOperation with
    | error fault =>
      rw [hm] at h
      cases h
    | ok committed =>
      rw [hm] at h
      dsimp only at h ⊢
      generalize (if deferring = true then (([], [], none) : Bytes × List TransactionFrame × Option Fault)
        else appendFramesDurable J (db.deflate.getD false) [⟨db.termStore.nextSequence, committed⟩]) = append at h ⊢
      obtain ⟨bytes, written, failure⟩ := append
      cases failure with
      | some cause => cases h
      | none =>
        dsimp only at h ⊢
        cases hr : replayTransactionLong Γ db.termStore ⟨db.termStore.nextSequence, committed⟩ with
        | error cause =>
          rw [hr] at h
          cases h
        | ok r => exact ⟨r.1, rfl⟩
  | recoveryRequired cause version torn valid =>
    rw [hs] at h
    cases h
  | corrupt cause corruption =>
    rw [hs] at h
    cases h

/-- A cohort that succeeds changes the store alone. -/
theorem commitCohort_db_of_ok {mutations : List (List CommitOperation)} {fs : List TransactionFrame}
    (h : (commitCohort Γ J log db mutations).result = .ok fs) :
    db.mutationState = .ready ∧ ∃ s, (commitCohort Γ J log db mutations).db = { db with termStore := s } := by
  unfold commitCohort requireMutationReady at h ⊢
  cases hs : db.mutationState with
  | ready =>
    rw [hs] at h
    refine ⟨rfl, ?_⟩
    dsimp only at h ⊢
    split at h
    · rename_i hnil
      rw [if_pos hnil]
      exact ⟨db.termStore, by rw [← hs]⟩
    · rename_i hne
      rw [if_neg hne]
      generalize appendFramesDurable J (db.deflate.getD false) (runCohort Γ J log db mutations).2 = append at h ⊢
      obtain ⟨bytes, written, failure⟩ := append
      cases failure with
      | some cause => cases h
      | none =>
        dsimp only at h ⊢
        split at h
        · rename_i hread
          rw [if_pos hread]
          exact ⟨_, rfl⟩
        · cases h
  | recoveryRequired cause version torn valid =>
    rw [hs] at h
    cases h
  | corrupt cause corruption =>
    rw [hs] at h
    cases h

/-- A commit that defers its frame is refused, or the frame has the next sequence. -/
theorem commit_deferring (log : Bytes) (db : Db) (operations : List CommitOperation) :
    (∃ fault, commit Γ J log db true operations = refused db fault) ∨
      ∃ frame, (commit Γ J log db true operations).deferred = [frame] ∧ frame.sequence = db.termStore.nextSequence := by
  unfold commit
  cases requireMutationReady db with
  | error fault => exact Or.inl ⟨fault, rfl⟩
  | ok _ =>
    dsimp only
    split
    · exact Or.inl ⟨_, rfl⟩
    · split
      · exact Or.inl ⟨_, rfl⟩
      · cases operations.mapM commitOperation with
        | error fault => exact Or.inl ⟨fault, rfl⟩
        | ok committed =>
          refine Or.inr ⟨⟨db.termStore.nextSequence, committed⟩, ?_, rfl⟩
          dsimp only
          cases replayTransactionLong Γ db.termStore ⟨db.termStore.nextSequence, committed⟩ <;> rfl

/-- The frames of a cohort begin at the next sequence, and a cohort without frames changes nothing. -/
theorem startsAt_runCohort (log : Bytes) (db : Db) (mutations : List (List CommitOperation)) :
    StartsAt db.termStore.nextSequence (runCohort Γ J log db mutations).2 ∧
      ((runCohort Γ J log db mutations).2 = [] → (runCohort Γ J log db mutations).1 = db) := by
  induction mutations using List.reverseRecOn with
  | nil => exact ⟨nofun, fun _ => rfl⟩
  | append_singleton mutations operations ih =>
    unfold runCohort at ih ⊢
    rw [List.foldl_append, List.foldl_cons, List.foldl_nil]
    generalize List.foldl _ (db, []) mutations = scratch at ih ⊢
    obtain ⟨hstart, hsame⟩ := ih
    dsimp only
    rcases commit_deferring log scratch.1 operations with ⟨fault, hc⟩ | ⟨frame, hd, hf⟩
    · rw [hc]
      simp only [refused, List.append_nil]
      exact ⟨hstart, hsame⟩
    · rw [hd]
      refine ⟨fun f hm => ?_, fun he => by simp at he⟩
      rw [List.head?_append] at hm
      cases hh : scratch.2.head? with
      | none =>
        rw [hh] at hm
        obtain rfl : frame = f := by simpa using hm
        rw [hf, hsame (List.head?_eq_none_iff.1 hh)]
      | some g =>
        rw [hh] at hm
        obtain rfl : g = f := by simpa using hm
        exact hstart g hh

/-- What an append writes is the first of its frames. -/
theorem appendFramesDurable_first (deflate : Bool) (frames : List TransactionFrame) :
    (appendFramesDurable J deflate frames).2.1 <+: frames := by
  induction frames with
  | nil => exact List.nil_prefix
  | cons frame frames ih =>
    unfold appendFramesDurable
    cases writeTransactionFrame J frame deflate with
    | error fault => exact List.nil_prefix
    | ok bytes => exact List.cons_prefix_cons.2 ⟨rfl, ih⟩

theorem StartsAt.of_prefix {next : Int} {first : List TransactionFrame} (h : StartsAt next frames) (hp : first <+: frames) :
    StartsAt next first := by
  obtain ⟨more, rfl⟩ := hp
  intro f hf
  refine h f ?_
  rw [List.head?_append, hf]
  rfl

theorem StartsAt.append {next : Int} {more : List TransactionFrame} (h : StartsAt next frames) (hm : StartsAt (nextOf next frames) more) :
    StartsAt next (frames ++ more) := by
  cases frames with
  | nil => exact hm
  | cons f frames => exact fun g hg => h g hg

/-- What a commit writes begins at the next sequence. -/
theorem startsAt_commit (operations : List CommitOperation) :
    StartsAt db.termStore.nextSequence (commit Γ J log db false operations).written := by
  unfold commit
  cases requireMutationReady db with
  | error fault => exact nofun
  | ok _ =>
    dsimp only
    split
    · exact nofun
    · split
      · exact nofun
      · cases operations.mapM commitOperation with
        | error fault => exact nofun
        | ok committed =>
          dsimp only
          rw [if_neg (by simp)]
          have hp := @appendFramesDurable_first J (db.deflate.getD false) [⟨db.termStore.nextSequence, committed⟩]
          have hstart : StartsAt db.termStore.nextSequence [⟨db.termStore.nextSequence, committed⟩] := by
            intro f hf
            obtain rfl : (⟨db.termStore.nextSequence, committed⟩ : TransactionFrame) = f := by simpa using hf
            rfl
          generalize appendFramesDurable J (db.deflate.getD false) [⟨db.termStore.nextSequence, committed⟩] = append at hp ⊢
          obtain ⟨bytes, written, failure⟩ := append
          have hwritten := hstart.of_prefix hp
          cases failure with
          | some cause => exact hwritten
          | none =>
            dsimp only
            cases replayTransactionLong Γ db.termStore ⟨db.termStore.nextSequence, committed⟩ <;> exact hwritten

/-- What a cohort writes begins at the next sequence. -/
theorem startsAt_commitCohort (mutations : List (List CommitOperation)) :
    StartsAt db.termStore.nextSequence (commitCohort Γ J log db mutations).written := by
  unfold commitCohort
  cases requireMutationReady db with
  | error fault => exact nofun
  | ok _ =>
    dsimp only
    split
    · exact nofun
    · obtain ⟨hstart, -⟩ := @startsAt_runCohort Γ J log db mutations
      have hwritten := hstart.of_prefix (@appendFramesDurable_first J (db.deflate.getD false) (runCohort Γ J log db mutations).2)
      generalize appendFramesDurable J (db.deflate.getD false) (runCohort Γ J log db mutations).2 = append at hwritten ⊢
      obtain ⟨bytes, written, failure⟩ := append
      cases failure with
      | some cause => exact hwritten
      | none =>
        dsimp only
        split <;> exact hwritten

end Mutations

/-! ## Databases in use -/

/-- A database opened from a branch, and the files that it appends to: each commit and each cohort succeeds, and takes no more
transactions than there are sequences. -/
inductive InUse (Γ : Host) (J : Gzip) (store branch : Text) (expectedSpace : Option String) : Files → Db → Prop
  | opened {files files' : Files} {db : Db} {repairTorn : Bool}
      (h : openBranch Γ J files store branch expectedSpace repairTorn = .ok (db, files')) : InUse Γ J store branch expectedSpace files' db
  | commit {files : Files} {db : Db} {log : Bytes} {operations : List CommitOperation} {fs : List TransactionFrame}
      (h : InUse Γ J store branch expectedSpace files db) (hl : files (tailOf store branch) = some log)
      (hs : db.termStore.nextSequence ≤ maxTransactionSequence)
      (hr : (Database.commit Γ J log db false operations).result = .ok fs) :
      InUse Γ J store branch expectedSpace
        (files.put (tailOf store branch) (some (log ++ (Database.commit Γ J log db false operations).appended)))
        (Database.commit Γ J log db false operations).db
  | cohort {files : Files} {db : Db} {log : Bytes} {mutations : List (List CommitOperation)} {fs : List TransactionFrame}
      (h : InUse Γ J store branch expectedSpace files db) (hl : files (tailOf store branch) = some log)
      (hs : db.termStore.nextSequence + mutations.length ≤ maxTransactionSequence + 1)
      (hr : (commitCohort Γ J log db mutations).result = .ok fs) :
      InUse Γ J store branch expectedSpace
        (files.put (tailOf store branch) (some (log ++ (commitCohort Γ J log db mutations).appended)))
        (commitCohort Γ J log db mutations).db

/-- What is known of a database in use: the header of its tail is as it was opened, and the ref folds the branch over the tail, if the
database appends in its mode. -/
structure Using (Γ : Host) (J : Gzip) (store branch : Text) (expectedSpace : Option String) (files : Files) (db : Db) : Prop where
  marker : files (forkMarkerPath store) = none
  space : expectedSpace = none ∨ expectedSpace = some db.spaceId
  header : ∃ log₀ more deflate continuation frames rest, files (tailOf store branch) = some (log₀ ++ more) ∧
    IsLog J log₀ db.spaceId deflate continuation frames rest ∧ (sealedSegments files store branch = [] → continuation = false)
  ref : (branch = defaultBranch ∧ readBranchRef files store branch = .ok none) ∨
    ∃ document, readBranchRef files store branch = .ok (some document) ∧ db.spaceId = String.ofList document.spaceId ∧
      ∀ log, files (tailOf store branch) = some log → deflates log = db.deflate.getD false → db.tornTail = none →
        ∃ sealed tail, Folds J files store branch document sealed tail log (deflates log) [] ∧
          Ready Γ db.deflate (sealed ++ tail) db

section Use

variable {Γ : Host} {J : Gzip} {store branch : Text} {expectedSpace : Option String} {files : Files} {db : Db}

/-- A store holds the next sequence behind its frames. -/
theorem Ready.nextSequence {mode : Option Bool} {frames : List TransactionFrame} (h : Ready Γ mode frames db) :
    db.termStore.nextSequence = nextOf 1 frames := by
  rw [h.represents.advances.last, nextOf]
  cases frames.getLast? <;> rfl

/-- A store over a new one that takes frames that continue the empty history holds them. -/
theorem ready_openedDb {spaceId : String} {s : TermStore} {frames : List TransactionFrame} {mode : Option Bool} {torn : Option TornTail}
    {repairTorn : Bool} (hs : newTermStore spaceId = .ok s) (hc : Continues 1 frames)
    (ht : (openedDb (Fram.appendFrames Γ s frames) spaceId mode torn repairTorn).tornTail = none) :
    Ready Γ mode frames (openedDb (Fram.appendFrames Γ s frames) spaceId mode torn repairTorn) := by
  obtain ⟨hrep, -, -⟩ := represents_newTermStoreSized Γ hs
  have hnext : s.nextSequence = 1 := hrep.advances.last
  rw [← hnext] at hc
  exact ⟨by simpa [openedDb] using hrep.appendContinues hc, rfl, ht, rfl⟩

/-- The tail that an opened database is over: it is whole, unless the database knows that it is torn. -/
theorem isLog_opened {path : Text} {bytes rest : Bytes} {spaceId : String} {deflate continuation : Bool}
    {frames : List TransactionFrame} (hlog : IsLog J bytes spaceId deflate continuation frames rest) (hf : files path = some bytes)
    {torn : Option TornTail} (htorn : torn = none ↔ rest = []) (repairTorn : Bool) :
    ∃ log rest', openedFiles files path bytes rest torn repairTorn path = some log ∧
      IsLog J log spaceId deflate continuation frames rest' ∧ ((if repairTorn then none else torn) = none → rest' = []) := by
  unfold openedFiles
  by_cases hr : torn.isSome ∧ repairTorn
  · rw [if_pos hr]
    refine ⟨_, [], ?_, hlog.take, fun _ => rfl⟩
    rw [truncateLog, put_self, hf]
    rfl
  · rw [if_neg hr]
    refine ⟨bytes, rest, hf, hlog, fun hn => htorn.1 ?_⟩
    cases torn with
    | none => rfl
    | some t =>
      cases repairTorn with
      | true => exact absurd ⟨rfl, rfl⟩ hr
      | false => cases hn

theorem openedFiles_ne {path other : Text} (h : other ≠ path) (bytes rest : Bytes) (torn : Option TornTail) (repairTorn : Bool) :
    openedFiles files path bytes rest torn repairTorn other = files other := by
  unfold openedFiles truncateLog
  split
  · exact put_ne h _
  · rfl

/-- What is opened is known. -/
theorem using_of_openBranch {files' : Files} {repairTorn : Bool}
    (h : openBranch Γ J files store branch expectedSpace repairTorn = .ok (db, files')) :
    Using Γ J store branch expectedSpace files' db := by
  obtain ⟨hmarker, ⟨document, hd, h⟩ | ⟨hmain, hd, bytes, db, log, hf, h, hr⟩⟩ := openBranch_ok_iff.1 h
  · obtain ⟨sealed, tail, bytes, deflate, rest, s, torn, hfolds, hspace, hs, htorn, rfl, rfl⟩ :=
      folds_of_openChain (validBranchName_of_readBranchRef hd) h
    obtain ⟨log, rest', hlog, hislog, hwhole⟩ := isLog_opened hfolds.log hfolds.file htorn repairTorn
    have hother {other : Text} (hne : tailOf store branch ≠ other) :
        openedFiles files (tailOf store branch) bytes rest torn repairTorn other = files other :=
      openedFiles_ne hne.symm bytes rest torn repairTorn
    have href := @readBranchRef_congr files _ store branch (hother tailOf_ne_ref)
    refine ⟨(hother tailOf_ne_marker).trans hmarker, hspace, ⟨log, [], _, _, tail, rest', by rw [hlog, List.append_nil], hislog, ?_⟩,
      Or.inr ⟨document, href.trans hd, rfl, fun log' hl' hmode ht => ⟨sealed, tail, ⟨?_, hl', ?_, hfolds.starts, hfolds.ordered⟩,
        ready_openedDb hs hfolds.ordered ht⟩⟩⟩
    · intro hn
      unfold sealedSegments at hn
      rw [href, hd] at hn
      exact decide_eq_false (by rw [show document.segments = [] from hn]; exact Nat.lt_irrefl 0)
    · exact hfolds.chain.congr fun segment _ => hother tailOf_ne_segment
    · rw [hlog, Option.some.injEq] at hl'
      subst hl'
      have hdeflates := hislog.deflates []
      rw [List.append_nil] at hdeflates
      rw [hdeflates, ← hwhole ht]
      exact hislog
  · obtain ⟨spaceId, deflate, frames, rest, hislog, hc, hspace⟩ := isLog_of_openDatabase h
    obtain ⟨s, torn, hs, htorn, ho⟩ := (hislog.openDatabase (Γ := Γ) hspace repairTorn).1 hc
    rw [h, Except.ok.injEq, Prod.mk.injEq] at ho
    obtain ⟨rfl, hlog⟩ := ho
    cases hr
    have htail : tailOf store branch = store := by rw [hmain, tailOf, if_pos rfl]
    have hother {other : Text} (hne : tailOf store branch ≠ other) : files.put store (some log) other = files other :=
      put_ne (by rw [← htail]; exact hne.symm) _
    have href := @readBranchRef_congr files _ store branch (hother tailOf_ne_ref)
    refine ⟨(hother tailOf_ne_marker).trans hmarker, hspace, ?_, Or.inl ⟨hmain, href.trans hd⟩⟩
    rw [htail, put_self]
    by_cases hcut : torn.isSome = true ∧ repairTorn = true
    · rw [if_pos hcut] at hlog
      exact ⟨log, [], deflate, false, frames, [], by rw [List.append_nil], hlog ▸ hislog.take, fun _ => rfl⟩
    · rw [if_neg hcut] at hlog
      exact ⟨log, [], deflate, false, frames, rest, by rw [List.append_nil], hlog ▸ hislog, fun _ => rfl⟩

/-- A mutation that succeeds keeps what is known. -/
theorem Using.mutated (h : Using Γ J store branch expectedSpace files db) {log : Bytes} (hl : files (tailOf store branch) = some log)
    {m : Mutation} (hr : db.mutationState = .ready) {s : TermStore} (hs : m.db = { db with termStore := s })
    (hm : ∀ mode frames deflate, Ready Γ mode frames db → mode.getD false = deflate → Extends Γ J deflate mode frames m)
    (hstart : StartsAt db.termStore.nextSequence m.written) :
    Using Γ J store branch expectedSpace (files.put (tailOf store branch) (some (log ++ m.appended))) m.db := by
  have href := @readBranchRef_congr files (files.put (tailOf store branch) (some (log ++ m.appended))) store branch
    (put_ne (fun he => tailOf_ne_ref he.symm) _)
  obtain ⟨log₀, more, deflate, continuation, frames, rest, hlog, hheader, hcont⟩ := h.header
  obtain rfl : log = log₀ ++ more := by rw [hl] at hlog; exact Option.some.inj hlog
  refine ⟨?_, ?_, ⟨log₀, more ++ m.appended, deflate, continuation, frames, rest, ?_, ?_, ?_⟩, ?_⟩
  · rw [put_ne (fun he => tailOf_ne_marker he.symm)]
    exact h.marker
  · rw [hs]
    exact h.space
  · rw [put_self, List.append_assoc]
  · rw [hs]
    exact hheader
  · unfold sealedSegments
    rw [href]
    exact hcont
  · rw [href]
    rcases h.ref with hmain | ⟨document, hd, hspace, hfolds⟩
    · exact Or.inl hmain
    · refine Or.inr ⟨document, hd, by rw [hs]; exact hspace, fun log' hl' hmode htorn => ?_⟩
      rw [put_self, Option.some.injEq] at hl'
      subst hl'
      rw [hs] at hmode htorn
      rw [List.append_assoc, hheader.deflates, ← hheader.deflates more] at hmode
      obtain ⟨sealed, tail, hf, hready⟩ := hfolds _ hl hmode htorn
      have hext := hm db.deflate (sealed ++ tail) _ hready rfl
      obtain ⟨stored, happended, hstored⟩ := hext.appended
      rw [← hmode] at hstored
      have hnil : Records.Cut integerMax [] := Or.inl (by simp)
      have hlog := hf.log.extend hstored hnil
      rw [List.append_nil, ← happended] at hlog
      rw [hready.nextSequence, nextOf_append] at hstart
      have hstate : m.db.mutationState = .ready := by rw [hs]; exact hr
      refine ⟨sealed, tail ++ m.written, ⟨hf.chain.congr fun segment _ => put_ne (fun he => tailOf_ne_segment he.symm) _, put_self _ _ _,
        ?_, hf.starts.append hstart, ?_⟩, ?_⟩
      · rw [List.append_assoc log₀, hheader.deflates, ← hheader.deflates more, ← List.append_assoc]
        exact hlog
      · rw [← List.append_assoc]
        exact hext.ordered
      · have hmode' : m.db.deflate = db.deflate := by rw [hs]
        rw [← List.append_assoc, hmode']
        exact hext.ready hstate

/-- What is known of a database stays known while it is used. -/
theorem InUse.using (h : InUse Γ J store branch expectedSpace files db) : Using Γ J store branch expectedSpace files db := by
  induction h with
  | opened h => exact using_of_openBranch h
  | commit _ hl hs hr ih =>
    obtain ⟨hready, s, hdb⟩ := commit_db_of_ok hr
    exact ih.mutated hl hready hdb (fun mode frames deflate h hmode => h.commit hmode hs _) (startsAt_commit _)
  | cohort _ hl hs hr ih =>
    obtain ⟨hready, s, hdb⟩ := commitCohort_db_of_ok hr
    exact ih.mutated hl hready hdb (fun mode frames deflate h hmode => h.commitCohort hmode hs) (startsAt_commitCohort _)

end Use

end Fram.Database
