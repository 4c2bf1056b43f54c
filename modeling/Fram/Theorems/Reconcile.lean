import Fram.Lemmas.Branch
import Fram.Lemmas.CommitRequest
import Fram.Lemmas.Reconcile

/-!
# Reconciliation is reopening where nothing is sealed

After a commit whose append may or may not have reached the disk, `fence-and-reconcile!` reads the log of the database back. It reads
the tail alone, and as a log that continues no chain: over a branch with sealed segments every such failure leaves the database corrupt,
where reopening the branch reads its history.
-/

namespace Fram.Database

open Lines (Text)

/-- A fence and a reopening come to the same: both read the same store back, or both refuse the history. -/
def SameOutcome (fenced : Db) (reopened : Except Fault (Db × Files)) : Prop :=
  (∃ db files cause version torn valid, reopened = .ok (db, files) ∧ db.mutationState = .ready ∧
      fenced.mutationState = .recoveryRequired cause version torn valid ∧ fenced.termStore = db.termStore ∧
        fenced.spaceId = db.spaceId) ∨
    ∃ fault cause corruption, reopened = .error fault ∧ fenced.mutationState = .corrupt cause corruption

/-- The log after an append of which so many bytes reached it: that of a cohort, or of a commit, which is a cohort of one. -/
def logAfter (Γ : Host) (J : Gzip) (log : Bytes) (db : Db) (mutations : List (List CommitOperation)) (kept : Nat) : Bytes :=
  log ++ (appendFramesDurable J (db.deflate.getD false) (runCohort Γ J log db mutations).2).1.take kept

section Reconciling

variable {Γ : Host} {J : Gzip} {store branch : Text} {expectedSpace : Option String} {files : Files} {db : Db} {log : Bytes}

/-- A log that is read back either way, by a fence and by `open-database!`. -/
theorem sameOutcome_of_isLog {rest : Bytes} {deflate : Bool} {frames : List TransactionFrame}
    (h : IsLog J log db.spaceId deflate false frames rest) (cause : Fault) {reopened : Except Fault (Db × Files)}
    (hok : Continues 1 frames → ∀ s, newTermStore db.spaceId = .ok s → ∃ mode torn repairTorn files, reopened =
      .ok (openedDb (Fram.appendFrames Γ s frames) db.spaceId mode torn repairTorn, files))
    (herror : ¬Continues 1 frames → ∃ fault, reopened = .error fault) : SameOutcome (fenceAndReconcile Γ J log db cause) reopened := by
  obtain ⟨hread, hrefused⟩ := fenceAndReconcile_of_isLog (Γ := Γ) h cause
  by_cases hc : Continues 1 frames
  · obtain ⟨s, version, torn, valid, hs, he⟩ := hread hc
    obtain ⟨mode, torn', repairTorn, files, hr⟩ := hok hc s hs
    rw [he]
    exact Or.inl ⟨_, files, cause, version, torn, valid, hr, rfl, rfl, rfl, rfl⟩
  · obtain ⟨corruption, he⟩ := hrefused hc
    obtain ⟨fault, hr⟩ := herror hc
    rw [he]
    exact Or.inr ⟨fault, cause, corruption, hr, rfl⟩

/-- A tail that continues nothing and has grown since it was opened: if what reopens is what its log continues to, a reopening comes to what
the fence does. -/
theorem Using.sameOutcome (h : Using Γ J store branch expectedSpace files db) (hl : files (tailOf store branch) = some log)
    (hnil : sealedSegments files store branch = []) {more : Bytes} (cause : Fault) {reopened : Except Fault (Db × Files)}
    (hback : ∀ r, reopened = .ok r → ∃ spaceId deflate frames rest,
      IsLog J (log ++ more) spaceId deflate false frames rest ∧ Continues 1 frames)
    (hopens : ∀ deflate frames rest, IsLog J (log ++ more) db.spaceId deflate false frames rest → Continues 1 frames →
      ∃ s mode torn repairTorn files', newTermStore db.spaceId = .ok s ∧
        reopened = .ok (openedDb (Fram.appendFrames Γ s frames) db.spaceId mode torn repairTorn, files')) :
    SameOutcome (fenceAndReconcile Γ J (log ++ more) db cause) reopened := by
  obtain ⟨log₀, more₀, deflate, continuation, frames₀, rest₀, hlog, hheader, hcont⟩ := h.header
  obtain rfl : log = log₀ ++ more₀ := by rw [hl] at hlog; exact Option.some.inj hlog
  obtain rfl := hcont hnil
  have hfail (hn : ∀ r, reopened ≠ .ok r) : ∃ fault, reopened = .error fault := by
    cases reopened with
    | error fault => exact ⟨fault, rfl⟩
    | ok r => exact absurd rfl (hn r)
  cases hp : parseTripleLogBytes J (log₀ ++ more₀ ++ more) false with
  | error fault =>
    rw [fenceAndReconcile_of_error hp]
    obtain ⟨fault', hr⟩ := hfail fun r hr => by
      obtain ⟨spaceId, deflate, frames, rest, hislog, -⟩ := hback r hr
      obtain ⟨parsed, hparsed, -⟩ := @IsLog.parse _ _ _ _ _ _ _ hislog false nofun
      rw [hp] at hparsed
      cases hparsed
    exact Or.inr ⟨fault', cause, fault, hr, rfl⟩
  | ok parsed =>
    obtain ⟨spaceId, deflate', continuation', frames, rest, hislog, -⟩ := isLog_of_parse hp
    have hislog' := hislog
    rw [List.append_assoc] at hislog'
    obtain ⟨-, rfl, rfl⟩ := hheader.header_of_append hislog'
    refine sameOutcome_of_isLog hislog cause (fun hc s hs => ?_) fun hc => hfail fun r hr => ?_
    · obtain ⟨s', mode, torn, repairTorn, files', hs', hr⟩ := hopens _ _ _ hislog hc
      rw [hs, Except.ok.injEq] at hs'
      subst hs'
      exact ⟨mode, torn, repairTorn, files', hr⟩
    · obtain ⟨_, _, frames', rest', hback', hordered⟩ := hback r hr
      rw [← (hback'.parsedAs hp).1.frames, (hislog.parsedAs hp).1.frames] at hordered
      exact hc hordered

/-- Over the default branch without a ref, whatever is behind its log. -/
theorem Using.unforked (h : Using Γ J store branch expectedSpace files db) (hl : files (tailOf store branch) = some log)
    (hd : readBranchRef files store branch = .ok none) (more : Bytes) (cause : Fault) (repairTorn : Bool) :
    SameOutcome (fenceAndReconcile Γ J (log ++ more) db cause)
      (openBranch Γ J (files.put (tailOf store branch) (some (log ++ more))) store branch expectedSpace repairTorn) := by
  have hmain : branch = defaultBranch := by
    rcases h.ref with ⟨hmain, -⟩ | ⟨document, hd', -⟩
    · exact hmain
    · rw [hd] at hd'
      cases hd'
  have htail : tailOf store branch = store := by rw [hmain, tailOf, if_pos rfl]
  generalize hfiles : files.put (tailOf store branch) (some (log ++ more)) = files'
  have hother {other : Text} (hne : tailOf store branch ≠ other) : files' other = files other := by
    rw [← hfiles]
    exact put_ne hne.symm _
  have hstore : files' store = some (log ++ more) := by rw [← hfiles, htail, put_self]
  have hopen (r : Db × Files) : openBranch Γ J files' store branch expectedSpace repairTorn = .ok r ↔ ∃ db' log',
      openDatabase Γ J (log ++ more) expectedSpace repairTorn = .ok (db', log') ∧ r = (db', files'.put store (some log')) := by
    rw [openBranch_ok_iff, hother tailOf_ne_marker, readBranchRef_congr (hother tailOf_ne_ref), hd, hstore]
    simp [h.marker, hmain]
  refine h.sameOutcome hl (by unfold sealedSegments; rw [hd]) cause (fun r hr => ?_) fun deflate frames rest hislog hc => ?_
  · obtain ⟨db', log', ho, -⟩ := (hopen r).1 hr
    obtain ⟨spaceId, deflate, frames, rest, hislog, hc, -⟩ := isLog_of_openDatabase ho
    exact ⟨spaceId, deflate, frames, rest, hislog, hc⟩
  · obtain ⟨s, torn, hs, -, ho⟩ := (hislog.openDatabase (Γ := Γ) h.space repairTorn).1 hc
    exact ⟨s, _, torn, repairTorn, _, hs, (hopen _).2 ⟨_, _, ho, rfl⟩⟩

/-- Over a branch whose ref names no segment, whatever is behind its log, if what is read back starts at the first sequence. -/
theorem Using.unsealed (h : Using Γ J store branch expectedSpace files db) (hl : files (tailOf store branch) = some log)
    {document : RefDocument} (hd : readBranchRef files store branch = .ok (some document)) (hnil : document.segments = [])
    (more : Bytes) (hstarts : ∀ parsed, parseTripleLogBytes J (log ++ more) false = .ok parsed → StartsAt 1 parsed.frames)
    (cause : Fault) (repairTorn : Bool) : SameOutcome (fenceAndReconcile Γ J (log ++ more) db cause)
      (openBranch Γ J (files.put (tailOf store branch) (some (log ++ more))) store branch expectedSpace repairTorn) := by
  have hid : String.ofList document.spaceId = db.spaceId := by
    rcases h.ref with ⟨-, hd'⟩ | ⟨document', hd', hid, -⟩
    · rw [hd] at hd'
      cases hd'
    · rw [hd, Except.ok.injEq, Option.some.injEq] at hd'
      rw [hd', hid]
  generalize hfiles : files.put (tailOf store branch) (some (log ++ more)) = files'
  have hother {other : Text} (hne : tailOf store branch ≠ other) : files' other = files other := by
    rw [← hfiles]
    exact put_ne hne.symm _
  have hfile : files' (tailOf store branch) = some (log ++ more) := by rw [← hfiles, put_self]
  have hb := validBranchName_of_readBranchRef hd
  have hopen (r : Db × Files) : openBranch Γ J files' store branch expectedSpace repairTorn = .ok r ↔
      openChain Γ J files' store branch document expectedSpace repairTorn = .ok r := by
    rw [openBranch_ok_iff, hother tailOf_ne_marker, readBranchRef_congr (hother tailOf_ne_ref), hd]
    simp [h.marker]
  refine h.sameOutcome hl (by unfold sealedSegments; rw [hd]; exact hnil) cause (fun r hr => ?_) fun deflate frames rest hislog hc => ?_
  · obtain ⟨sealed, tail, bytes, deflate, rest, s, torn, hf, -⟩ := folds_of_openChain hb ((hopen r).1 hr)
    have hchain := hf.chain
    have hislog := hf.log
    have hordered := hf.ordered
    rw [hnil] at hchain hislog
    cases hchain
    obtain rfl : log ++ more = bytes := Option.some.inj (hfile.symm.trans hf.file)
    exact ⟨_, deflate, tail, rest, hislog, hordered⟩
  · obtain ⟨parsed, hp, hparsed⟩ := @IsLog.parse _ _ _ _ _ _ _ hislog false nofun
    have hstart := hstarts parsed hp
    rw [hparsed.frames] at hstart
    have hf : Folds J files' store branch document [] frames (log ++ more) deflate rest := by
      refine ⟨by rw [hnil]; exact .nil, hfile, ?_, hstart, hc⟩
      rw [hid, hnil]
      exact hislog
    obtain ⟨s, torn, hs, -, ho⟩ := hf.openChain (Γ := Γ) hb (hid ▸ h.space) repairTorn
    rw [hid] at hs ho
    exact ⟨s, _, torn, repairTorn, _, hs, (hopen _).2 ho⟩

/-- Over a branch with a ref, and a database that appends in the mode of its tail. -/
theorem Folds.sameOutcome_iff {document : RefDocument} {sealed tail : List TransactionFrame}
    (h : Folds J files store branch document sealed tail log (deflates log) []) (hr : Ready Γ db.deflate (sealed ++ tail) db)
    (hspaceId : db.spaceId = String.ofList document.spaceId) (hspace : expectedSpace = none ∨ expectedSpace = some db.spaceId)
    (hmode : deflates log = db.deflate.getD false) (hmarker : files (forkMarkerPath store) = none)
    (hd : readBranchRef files store branch = .ok (some document)) {mutations : List (List CommitOperation)}
    (hs : db.termStore.nextSequence + mutations.length ≤ maxTransactionSequence + 1) (kept : Nat) (cause : Fault) (repairTorn : Bool) :
    SameOutcome (fenceAndReconcile Γ J (logAfter Γ J log db mutations kept) db cause)
        (openBranch Γ J (files.put (tailOf store branch) (some (logAfter Γ J log db mutations kept))) store branch expectedSpace
          repairTorn) ↔ document.segments = [] := by
  obtain ⟨hscratch, hw, hle⟩ := hr.runCohort (J := J) log hs
  obtain ⟨stored, rest, hbytes, hstored, hwhole, hcut, -⟩ := @wholeFrames_spec J (db.deflate.getD false) _ hw kept
  obtain ⟨hstart, -⟩ := @startsAt_runCohort Γ J log db mutations
  have hall := hscratch.represents.continues (hle.trans hs)
  unfold logAfter
  rw [hbytes]
  generalize (wholeFrames J (db.deflate.getD false) (runCohort Γ J log db mutations).2 kept).1 = whole at hstored hwhole
  rw [← hmode] at hstored
  have hlog := h.log.extend hstored hcut
  have hordered := Continues.firstFrames hall hwhole
  rw [List.append_assoc] at hordered
  rw [hr.nextSequence, nextOf_append] at hstart
  generalize log ++ (Records.records crc32 stored ++ rest) = log' at hlog ⊢
  have hother {other : Text} (hne : tailOf store branch ≠ other) :
      files.put (tailOf store branch) (some log') other = files other := put_ne hne.symm _
  have hfolds : Folds J (files.put (tailOf store branch) (some log')) store branch document sealed (tail ++ whole) log'
      (deflates log) rest :=
    ⟨h.chain.congr fun segment _ => hother tailOf_ne_segment, put_self _ _ _, hlog, h.starts.append (hstart.of_prefix hwhole), hordered⟩
  obtain ⟨s, torn, hs, -, hopen⟩ := hfolds.openChain (Γ := Γ) (validBranchName_of_readBranchRef hd) (hspaceId ▸ hspace) repairTorn
  have hreopened := openBranch_ok_iff.2 ⟨(hother tailOf_ne_marker).trans hmarker,
    Or.inl ⟨document, (readBranchRef_congr (hother tailOf_ne_ref)).trans hd, hopen⟩⟩
  rw [hreopened]
  constructor
  · -- a tail that continues segments is not read back by the fence
    intro hsame
    by_contra hne
    have hcont : decide (0 < document.segments.length) = true := decide_eq_true (List.length_pos_iff.2 hne)
    rw [hcont] at hlog
    cases hp : parseTripleLogBytes J log' false with
    | error fault =>
      rw [fenceAndReconcile_of_error hp] at hsame
      rcases hsame with ⟨_, _, _, _, _, _, -, -, hstate, -⟩ | ⟨_, _, _, hfault, -⟩
      · cases hstate
      · cases hfault
    | ok parsed => exact absurd ((hlog.parsedAs hp).2 rfl) (by decide)
  · intro hnil
    have hsealed : sealed = [] := by
      have hchain := h.chain
      rw [hnil] at hchain
      cases hchain
      rfl
    subst hsealed
    rw [hnil, ← hspaceId] at hlog
    rw [← hspaceId] at hs
    refine sameOutcome_of_isLog hlog cause (fun _ s' hs' => ?_) fun hc => absurd hordered hc
    rw [hs, Except.ok.injEq] at hs'
    subst hs'
    exact ⟨_, torn, repairTorn, _, by rw [hspaceId]; rfl⟩

end Reconciling

/-- A repair leaves no torn tail. -/
theorem tornTail_of_repair {Γ : Host} {J : Gzip} {bytes log : Bytes} {expectedSpace : Option String} {db : Db}
    (h : openDatabase Γ J bytes expectedSpace true = .ok (db, log)) : db.tornTail = none := by
  unfold openDatabase at h
  obtain ⟨parsed, -, h⟩ := ExceptList.bind_eq_ok_iff.1 h
  split at h
  · cases h
  · obtain ⟨context, -, h⟩ := ExceptList.bind_eq_ok_iff.1 h
    obtain ⟨context', -, h⟩ := ExceptList.bind_eq_ok_iff.1 h
    cases h
    rfl

/-- **Reconciliation is reopening exactly where nothing is sealed.** For every database opened from a branch and used since, every
commit or cohort that fails on its way to the log, and every number of its bytes that reached the log: over a branch without a ref the
fence and a reopening come to the same; so they do over a ref that names no segment, if the log that is read back starts at the first
sequence; and over any branch, in the mode of its tail, they do exactly if it has no sealed segments. -/
theorem reconcile_reopens {Γ : Host} {J : Gzip} {store branch : Text} {expectedSpace : Option String} {files : Files} {db : Db}
    (h : InUse Γ J store branch expectedSpace files db) {log : Bytes} (hl : files (tailOf store branch) = some log)
    (htorn : db.tornTail = none) {mutations : List (List CommitOperation)}
    (hs : db.termStore.nextSequence + mutations.length ≤ maxTransactionSequence + 1) (kept : Nat) (cause : Fault) (repairTorn : Bool) :
    (readBranchRef files store branch = .ok none →
      SameOutcome (fenceAndReconcile Γ J (logAfter Γ J log db mutations kept) db cause)
        (openBranch Γ J (files.put (tailOf store branch) (some (logAfter Γ J log db mutations kept))) store branch expectedSpace
          repairTorn)) ∧
    (∀ document, readBranchRef files store branch = .ok (some document) → document.segments = [] →
      (∀ parsed, parseTripleLogBytes J (logAfter Γ J log db mutations kept) false = .ok parsed → StartsAt 1 parsed.frames) →
      SameOutcome (fenceAndReconcile Γ J (logAfter Γ J log db mutations kept) db cause)
        (openBranch Γ J (files.put (tailOf store branch) (some (logAfter Γ J log db mutations kept))) store branch expectedSpace
          repairTorn)) ∧
    (deflates log = db.deflate.getD false →
      (SameOutcome (fenceAndReconcile Γ J (logAfter Γ J log db mutations kept) db cause)
        (openBranch Γ J (files.put (tailOf store branch) (some (logAfter Γ J log db mutations kept))) store branch expectedSpace
          repairTorn) ↔ sealedSegments files store branch = [])) := by
  have hu := h.using
  refine ⟨fun hd => hu.unforked hl hd _ cause repairTorn,
    fun document hd hnil hstarts => hu.unsealed hl hd hnil _ hstarts cause repairTorn, fun hmode => ?_⟩
  unfold sealedSegments
  rcases hu.ref with ⟨-, hd⟩ | ⟨document, hd, hspaceId, hfolds⟩
  · rw [hd]
    exact iff_of_true (hu.unforked hl hd _ cause repairTorn) rfl
  · obtain ⟨sealed, tail, hf, hr⟩ := hfolds log hl hmode htorn
    rw [hd]
    exact hf.sameOutcome_iff hr hspaceId hu.space hmode hu.marker hd hs kept cause repairTorn

/-- A cohort of one assertion. -/
def oneCohort : List (List CommitOperation) := [[⟨.assert, .int 1, .int 2, .int 3⟩]]

/-- A store of a new log, whose first commit fails within its frame. -/
theorem reconcile_reopens_one : ∃ files db log, InUse Host.zero storingGzip "f".toList defaultBranch none files db ∧
    files (tailOf "f".toList defaultBranch) = some log ∧
      (SameOutcome
        (fenceAndReconcile Host.zero storingGzip (logAfter Host.zero storingGzip log db oneCohort 20) db ⟨⟨"IOException"⟩, ""⟩)
        (openBranch Host.zero storingGzip (files.put (tailOf "f".toList defaultBranch)
            (some (logAfter Host.zero storingGzip log db oneCohort 20))) "f".toList defaultBranch none true) ↔
          sealedSegments files "f".toList defaultBranch = []) := by
  obtain ⟨db, hopen, hserves, hmode⟩ := @openDatabase_new "s" (by decide) (by decide)
  have hbranch : openBranch Host.zero storingGzip (fun p => if p = "f".toList then some (headerBytes "s") else none) "f".toList
      defaultBranch none true = .ok (db, Files.put (fun p => if p = "f".toList then some (headerBytes "s") else none) "f".toList
        (some (headerBytes "s"))) :=
    openBranch_ok_iff.2 ⟨by decide, Or.inr ⟨rfl, rfl, headerBytes "s", db, headerBytes "s", rfl, hopen, rfl⟩⟩
  have hin := InUse.opened hbranch
  have hlog := @put_self (fun p => if p = "f".toList then some (headerBytes "s") else none) "f".toList (some (headerBytes "s"))
  have hnext : db.termStore.nextSequence = 1 := hserves.represents.advances.last
  have hsequences : db.termStore.nextSequence + oneCohort.length ≤ maxTransactionSequence + 1 := by
    rw [hnext]
    decide
  exact ⟨_, db, _, hin, hlog,
    (reconcile_reopens hin hlog (tornTail_of_repair hopen) hsequences 20 ⟨⟨"IOException"⟩, ""⟩ true).2.2 (by rw [hmode]; decide)⟩

/-- A ref of one sealed segment without a transaction. -/
def oneSegment : RefDocument := ⟨"s".toList, [⟨List.replicate 64 '0', 0, 0, 17⟩]⟩

/-- A store whose default branch has this ref. -/
def sealedStore : Files := fun p =>
  if p = "f".toList then some (logHeader false true "s")
  else if p = fileIn (refsDirectory "f".toList) defaultBranch then some (textBytes (printRef oneSegment))
  else if p = fileIn (segmentsDirectory "f".toList) (List.replicate 64 '0') then some (headerBytes "s")
  else none

theorem folds_sealedStore : Folds storingGzip sealedStore "f".toList defaultBranch oneSegment [] [] (logHeader false true "s") false [] := by
  refine ⟨?_, by decide, isLog_logHeader false true (by decide) (by decide), nofun, trivial⟩
  have hsegment : SegmentIs storingGzip sealedStore "f".toList "s" ⟨List.replicate 64 '0', 0, 0, 17⟩ (decide (0 < 0)) [] :=
    ⟨by decide, ⟨headerBytes "s", false, by decide, isLog_logHeader false false (by decide) (by decide), rfl⟩, rfl, rfl⟩
  exact .cons hsegment nofun .nil

theorem readBranchRef_sealedStore : readBranchRef sealedStore "f".toList defaultBranch = .ok (some oneSegment) := by
  have hsegment : (⟨List.replicate 64 '0', 0, 0, 17⟩ : SegmentRecord).Readable :=
    ⟨by decide, by decide, by decide, by decide, by decide, by decide⟩
  have hparse : parseRef (printRef oneSegment) = .ok oneSegment :=
    parseRef_printRef_iff.2 ⟨⟨by decide, by simpa [oneSegment] using hsegment, by decide, by decide⟩, by decide, by decide⟩
  have hfile : sealedStore (fileIn (refsDirectory "f".toList) defaultBranch) = some (textBytes (printRef oneSegment)) := by
    unfold sealedStore
    rw [if_neg (by decide), if_pos rfl]
  exact readBranchRef_of_printRef (by decide) hfile hparse

/-- The branch is opened, and the first bytes of a frame reach its tail: the fence leaves the database corrupt, though the branch can
be reopened. -/
theorem reconcile_sealed_corrupt : ∃ db files log, openBranch Host.zero storingGzip sealedStore "f".toList defaultBranch none true =
    .ok (db, files) ∧ files (tailOf "f".toList defaultBranch) = some log ∧
      ¬SameOutcome
        (fenceAndReconcile Host.zero storingGzip (logAfter Host.zero storingGzip log db oneCohort 20) db ⟨⟨"IOException"⟩, ""⟩)
        (openBranch Host.zero storingGzip (files.put (tailOf "f".toList defaultBranch)
          (some (logAfter Host.zero storingGzip log db oneCohort 20))) "f".toList defaultBranch none
            true) := by
  obtain ⟨s, torn, hs, htorn, hchain⟩ := folds_sealedStore.openChain (Γ := Host.zero) (by decide) (Or.inl rfl) true
  obtain rfl := htorn.2 rfl
  have hopen := openBranch_ok_iff.2 ⟨show sealedStore (forkMarkerPath "f".toList) = none by decide,
    Or.inl ⟨oneSegment, readBranchRef_sealedStore, hchain⟩⟩
  have hready := @ready_openedDb Host.zero (String.ofList oneSegment.spaceId) s [] (some false) none true hs trivial rfl
  have hnext := hready.nextSequence
  have hone : nextOf 1 [] + 1 ≤ maxTransactionSequence + 1 := by decide
  rw [← hnext] at hone
  refine ⟨_, _, logHeader false true "s", hopen, by decide, fun hsame => ?_⟩
  exact absurd ((folds_sealedStore.sameOutcome_iff hready rfl (Or.inl rfl) rfl (by decide) readBranchRef_sealedStore hone 20
    ⟨⟨"IOException"⟩, ""⟩ true).1 hsame) (by decide)

end Fram.Database
