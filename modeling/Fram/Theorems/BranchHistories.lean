import Fram.Lemmas.ForkWhole

/-!
# Forks keep branches apart

Commits and forks, interrupted anywhere, keep every branch at its history, as long as no branch has a name that a fork derives from
another (`branch_histories`). Where one has, a fork takes the ref of that branch for a file of its own (`fork_takes_ref`).
-/

namespace Fram.Database

open Lines (Text)

/-- The event keeps the branches apart: a commit finds a sequence for its transaction, and a fork may be made. -/
def BranchWorld.Safe (D : Digest) (w : BranchWorld) : BranchEvent → Prop
  | .commit branch _ => ∀ frames, w.histories branch = some frames → nextOf 1 frames ≤ maxTransactionSequence
  | .fork parent child _ => MayFork D w.files w.histories parent child

/-- Every event of the run keeps the branches apart. -/
def SafeRun (Γ : Host) (D : Digest) (J : Gzip) (store : Text) (w : BranchWorld) : List BranchEvent → Prop
  | [] => True
  | event :: events => w.Safe D event ∧ SafeRun Γ D J store (w.step Γ D J store event) events

section Run

variable {Γ : Host} {D : Digest} {J : Gzip} {store : Text} {spaceId : String} {w : BranchWorld}

theorem made_eq_take (fork : Fork) (operations : Option Nat) : ∃ n, fork.made operations = fork.steps.take n := by
  cases operations with
  | none => exact ⟨fork.steps.length, List.take_length.symm⟩
  | some count => exact ⟨count, rfl⟩

/-- A commit to a branch leaves the other files and the histories of the other branches. -/
theorem step_commit_frame {branch : Text} (w : BranchWorld) (operations : List CommitOperation) :
    (∀ path, path ≠ tailOf store branch → (w.step Γ D J store (.commit branch operations)).files path = w.files path) ∧
      ∀ b, b ≠ branch → (w.step Γ D J store (.commit branch operations)).histories b = w.histories b := by
  unfold BranchWorld.step
  dsimp only
  split
  · exact ⟨fun _ _ => rfl, fun _ _ => rfl⟩
  · rename_i ho
    exact ⟨fun path hp => (put_ne hp _).trans (openBranch_frame ho hp), fun b hb => if_neg hb⟩

/-- One event keeps the histories of the branches. -/
theorem Kept.step (h : Kept D J store spaceId w.files w.histories) (hone : OnOneLine spaceId.toList) {event : BranchEvent}
    (hs : w.Safe D event) : Kept D J store spaceId (w.step Γ D J store event).files (w.step Γ D J store event).histories := by
  cases event with
  | commit branch operations =>
    cases ho : openBranch Γ J w.files store branch none true with
    | error fault =>
      unfold BranchWorld.step
      dsimp only
      rw [ho]
      exact h
    | ok r =>
      obtain ⟨db, files⟩ := r
      have hmarker := (openBranch_ok_iff.1 ho).1
      rcases h with ⟨-, hbranches⟩ | ⟨m, content, contents, -, hu, -⟩
      · have hkept := hbranches.committed hone hmarker hs ho rfl operations
        unfold BranchWorld.step
        dsimp only
        rw [ho]
        exact Or.inl ⟨(put_ne tailOf_ne_marker.symm _).trans ((openBranch_frame ho tailOf_ne_marker.symm).trans hmarker), hkept⟩
      · rw [hu.marker] at hmarker
        cases hmarker
  | fork parent child operations =>
    obtain ⟨n, hn⟩ := made_eq_take (forkStore D J w.files store parent child) operations
    have hkept := h.fork hone hs n
    unfold BranchWorld.step Fork.begun
    dsimp only
    rw [hn]
    simp only [decide_eq_true_eq]
    exact hkept

/-- A run of events keeps the histories of the branches. -/
theorem Kept.run (h : Kept D J store spaceId w.files w.histories) (hone : OnOneLine spaceId.toList) {events : List BranchEvent}
    (hs : SafeRun Γ D J store w events) : Kept D J store spaceId (w.run Γ D J store events).files (w.run Γ D J store events).histories := by
  induction events generalizing w with
  | nil => exact h
  | cons event events ih => exact ih (h.step hone hs.1) hs.2

theorem newStore_segment (header : Bytes) (name : Text) : (newStore store header).files (segmentOf store name) = none := by
  refine if_neg ?_
  rw [segmentOf_eq]
  exact (store_ne_append (by simp)).symm

theorem newStore_ref (header : Bytes) (branch : Text) : (newStore store header).files (refOf store branch) = none := by
  refine if_neg ?_
  rw [refOf_eq]
  exact (store_ne_append (by simp)).symm

theorem newStore_marker (header : Bytes) : (newStore store header).files (forkMarkerPath store) = none :=
  if_neg (store_ne_append (by decide)).symm

theorem readable_emptyRef (hne : spaceId ≠ "") : (emptyRef spaceId.toList).Readable :=
  ⟨fun he => hne (String.toList_eq_nil_iff.1 he), by simp [emptyRef], by simp [emptyRef], by simp [emptyRef]⟩

/-- A new store is folded without a ref. -/
theorem folds_newStore {deflate : Bool} (hne : spaceId ≠ "") (hsize : (utf8Encode spaceId).length ≤ integerMax) :
    Folds J (newStore store (logHeader deflate false spaceId)).files store defaultBranch (emptyRef spaceId.toList) [] []
      (logHeader deflate false spaceId) deflate [] := by
  refine ⟨.nil, if_pos rfl, ?_, nofun, trivial⟩
  have hid : String.ofList (emptyRef spaceId.toList).spaceId = spaceId := String.ofList_toList
  rw [hid]
  exact isLog_logHeader deflate false hne hsize

/-- A new store holds its default branch, which is empty. -/
theorem kept_newStore {deflate : Bool} {header : Bytes} (hc : createTripleLog spaceId deflate false = .ok header) :
    Kept D J store spaceId (newStore store header).files (newStore store header).histories := by
  obtain ⟨rfl, hne, hsize⟩ := createTripleLog_eq_ok_iff.1 hc
  refine Or.inl ⟨newStore_marker _, fun name content hs => ?_, fun branch frames hb => ?_⟩
  · rw [newStore_segment] at hs
    cases hs
  · unfold newStore at hb
    dsimp only at hb
    split at hb
    · rename_i hmain
      cases hb
      subst hmain
      exact ⟨by decide, emptyRef spaceId.toList, [], [], _, deflate, folds_newStore hne hsize, rfl, rfl, readable_emptyRef hne,
        Or.inr ⟨rfl, newStore_ref _ _, rfl⟩⟩
    · cases hb

/-- **Forks keep branches apart.** In every run of commits and of forks, interrupted anywhere, in which no branch has a name that the
store derives from another, no two files of one digest and different contents are met, and neither the digits of a ref nor the
sequences run out: once no fork is pending, every branch opens to its own history. A fork gives its parent and its child the history of
the parent, a commit adds to the history of its branch alone: a commit that succeeds adds the frame of its operations, and the child of
a fork that answers a receipt has the history of its parent. -/
theorem branch_histories {Γ : Host} {D : Digest} {J : Gzip} {store : Text} {spaceId : String} {deflate : Bool} {header : Bytes}
    (hc : createTripleLog spaceId deflate false = .ok header) (hone : OnOneLine spaceId.toList) {events : List BranchEvent}
    (hs : SafeRun Γ D J store (newStore store header) events) {w : BranchWorld}
    (hw : (newStore store header).run Γ D J store events = w) (hdone : w.files (forkMarkerPath store) = none) {branch : Text}
    {frames : List TransactionFrame} (hb : w.histories branch = some frames) :
    (∀ repairTorn, ∃ db, openBranch Γ J w.files store branch (some spaceId) repairTorn = .ok (db, w.files) ∧
      HasHistory Γ db.termStore spaceId frames) ∧
    (∀ operations fs db files, openBranch Γ J w.files store branch none true = .ok (db, files) → w.Safe D (.commit branch operations) →
      (commit Γ J ((files (tailOf store branch)).getD []) db false operations).result = .ok fs →
        fs = [⟨nextOf 1 frames, operations⟩] ∧
          (w.step Γ D J store (.commit branch operations)).histories branch = some (frames ++ fs)) ∧
    ∀ child receipt, (forkStore D J w.files store branch child).answer = .ok receipt →
      (w.step Γ D J store (.fork branch child none)).histories child = some frames := by
  have hkept := (kept_newStore hc).run hone hs
  rw [hw] at hkept
  rcases hkept with ⟨-, hbranches⟩ | ⟨m, content, contents, -, hu, -⟩
  · have hholds := hbranches.holds branch frames hb
    obtain ⟨document, sealed, tail, bytes, deflate, hf, rfl, hspace, hreadable, href⟩ := hholds.folds
    refine ⟨fun repairTorn => ?_, fun operations fs db files ho hsafe hr => ?_, fun child receipt hr => ?_⟩
    · obtain ⟨db, hopen, hid, hready⟩ := hf.opens (Γ := Γ) hholds.name hspace hreadable href hone hdone (Or.inr rfl) repairTorn
      have hhistory := hready.represents.hasHistory
      rw [hid] at hhistory
      exact ⟨db, hopen, hhistory⟩
    · obtain ⟨db', hopen, -, hready⟩ := hf.opens (Γ := Γ) hholds.name hspace hreadable href hone hdone (Or.inl rfl) true
      rw [ho, Except.ok.injEq, Prod.mk.injEq] at hopen
      obtain ⟨rfl, rfl⟩ := hopen
      obtain ⟨hfs, hwritten⟩ := hready.commit_ok (hready.nextSequence ▸ hsafe _ hb) hr
      refine ⟨hready.nextSequence ▸ hfs, ?_⟩
      unfold BranchWorld.step
      dsimp only
      rw [ho]
      dsimp only
      rw [hwritten, wrote, if_pos rfl, hb]
      rfl
    · unfold BranchWorld.step Fork.begun Fork.made
      dsimp only
      rw [if_pos (decide_eq_true (markerMove_mem_of_receipt hr)), forked, if_pos rfl, hb]
  · rw [hu.marker] at hdone
    cases hdone

end Run

/-- A digest of the flags of a log. -/
def flagDigest : Digest where
  sha256Hex bytes := List.replicate 63 '0' ++ [if u16LeAt bytes 10 = 0 then '0' else '1']
  valid bytes := by
    split <;> decide

/-- The header of a store. -/
abbrev oneHeader : Bytes := logHeader false false "s"

/-- The first fork of a new store. -/
theorem forkStore_newStore {child : Text} (hc : validBranchName child = true) (hne : defaultBranch ≠ child)
    (hapart : ∀ a ∈ [defaultBranch, child], ∀ b ∈ [defaultBranch, child], Apart a b)
    (hlock : child ≠ defaultBranch ++ ".writer-authority.lock".toList) :
    (∃ receipt, (forkStore flagDigest storingGzip (newStore "f".toList oneHeader).files "f".toList defaultBranch child).answer =
      .ok receipt) ∧ markerMove "f".toList ∈ (forkStore flagDigest storingGzip (newStore "f".toList oneHeader).files "f".toList
        defaultBranch child).steps ∧ ∃ left, runSteps (newStore "f".toList oneHeader).files (forkStore flagDigest storingGzip
        (newStore "f".toList oneHeader).files "f".toList defaultBranch child).steps = (left, .ok ()) ∧
      ForkLeaves flagDigest storingGzip (newStore "f".toList oneHeader).files left "f".toList defaultBranch child
        (emptyRef "s".toList) [] oneHeader := by
  have hf : Folds storingGzip (newStore "f".toList oneHeader).files "f".toList defaultBranch (emptyRef "s".toList) [] []
      oneHeader false [] := folds_newStore (by decide) (by decide)
  have htail : (newStore "f".toList oneHeader).files (tailOf "f".toList child) = none := by
    have hmain : tailOf "f".toList defaultBranch = "f".toList := rfl
    exact if_neg fun he => hne (tailOf_inj.1 (he.trans hmain.symm)).symm
  have href : RefIs (newStore "f".toList oneHeader).files "f".toList defaultBranch (emptyRef "s".toList) :=
    Or.inr ⟨rfl, newStore_ref _ _, rfl⟩
  have hcollide (other : Bytes) (hs : (newStore "f".toList oneHeader).files (segmentOf "f".toList (flagDigest.sha256Hex oneHeader)) =
      some other) : other = oneHeader := by
    rw [newStore_segment] at hs
    cases hs
  exact hf.leaves (newStore_marker _) href (readable_emptyRef (by decide)) ⟨by decide, by decide⟩ (by decide) hc hne hapart htail
    (newStore_ref _ _) hlock (fun _ hs => nomatch hs) (by decide) hcollide (by decide) (by decide)

/-- A store of one log may be forked. -/
theorem mayFork_alone {w : BranchWorld} {child : Text} {log : Bytes} {frames : List TransactionFrame}
    (hlog : ∀ path content, w.files path = some content → content = log) (hsize : log.length < 10 ^ 18)
    (hmain : w.histories defaultBranch = some frames) (hnext : nextOf 1 frames ≤ 10 ^ 18)
    (hother : ∀ b, b ≠ defaultBranch → w.histories b = none)
    (hapart : ∀ a ∈ [defaultBranch, child], ∀ b ∈ [defaultBranch, child], Apart a b) :
    MayFork flagDigest w.files w.histories defaultBranch child := by
  refine ⟨fun a ha b hb => hapart a ha b ?_, fun path content hp => ?_, fun frames' hf => ?_⟩
  · by_cases hbranch : b = defaultBranch
    · simp [hbranch]
    · simpa [hbranch, hother b hbranch] using hb
  · rw [hlog path content hp]
    exact ⟨hsize, fun other content' ho _ => hlog other content' ho⟩
  · cases hmain.symm.trans hf
    exact hnext

/-- One assertion. -/
def oneCommit : List CommitOperation := [⟨.assert, ⟨.int 1, .int 2, .int 3⟩⟩]

/-- A commit, and a fork of what it leaves. -/
def forkAfterCommit : List BranchEvent := [.commit defaultBranch oneCommit, .fork defaultBranch "a".toList none]

set_option maxRecDepth 20000 in
/-- The child of a fork after a commit has what was committed. -/
theorem branch_histories_committed : ∃ left db,
    ((newStore "f".toList oneHeader).run Host.zero flagDigest storingGzip "f".toList forkAfterCommit).files = left ∧
      openBranch Host.zero storingGzip left "f".toList "a".toList (some "s") true = .ok (db, left) ∧
        HasHistory Host.zero db.termStore "s" [⟨1, oneCommit⟩] := by
  have hc : createTripleLog "s" false false = .ok oneHeader := createTripleLog_eq_ok_iff.2 ⟨rfl, by decide, by decide⟩
  have hcommit := @step_commit_frame Host.zero flagDigest storingGzip "f".toList defaultBranch (newStore "f".toList oneHeader) oneCommit
  generalize hw : (newStore "f".toList oneHeader).step Host.zero flagDigest storingGzip "f".toList (.commit defaultBranch oneCommit) = w
    at hcommit
  obtain ⟨hlog, hmain, hmarker, hhistory⟩ : (w.files "f".toList).any (fun log => decide (log.length < 10 ^ 18)) = true ∧
      w.histories defaultBranch = some [⟨1, oneCommit⟩] ∧
      (w.step Host.zero flagDigest storingGzip "f".toList (.fork defaultBranch "a".toList none)).files (forkMarkerPath "f".toList) = none ∧
      (w.step Host.zero flagDigest storingGzip "f".toList (.fork defaultBranch "a".toList none)).histories "a".toList =
        some [⟨1, oneCommit⟩] := by
    rw [← hw]
    decide +kernel
  obtain ⟨hsome, hsize⟩ := (Option.any_eq_true_iff_get _ _).1 hlog
  have hsafe : SafeRun Host.zero flagDigest storingGzip "f".toList (newStore "f".toList oneHeader) forkAfterCommit := by
    refine ⟨fun frames hf => ?_, ?_, trivial⟩
    · cases hf
      decide
    · rw [hw]
      refine mayFork_alone (fun path content hp => ?_) (of_decide_eq_true hsize) hmain (by decide) (fun b hb => ?_) (by decide)
      · by_cases hpath : path = "f".toList
        · simp only [hpath] at hp
          exact (Option.get_of_eq_some hsome hp).symm
        · rw [hcommit.1 path hpath] at hp
          cases (show none = some content from (if_neg hpath).symm.trans hp)
      · rw [hcommit.2 b hb]
        exact if_neg hb
  have hrun : (newStore "f".toList oneHeader).run Host.zero flagDigest storingGzip "f".toList forkAfterCommit =
      w.step Host.zero flagDigest storingGzip "f".toList (.fork defaultBranch "a".toList none) := by rw [← hw]; rfl
  obtain ⟨hopen, -⟩ := branch_histories hc ⟨by decide, by decide⟩ hsafe hrun hmarker hhistory
  obtain ⟨db, hdb⟩ := hopen true
  exact ⟨_, db, congrArg (·.files) hrun, hdb⟩

/-- A fork to a child, and the start of another whose child has the name that the first is derived from. -/
def takingEvents : List BranchEvent := [.fork defaultBranch "x.fork-new".toList none, .fork defaultBranch "x".toList (some 6)]

set_option maxRecDepth 20000 in
/-- **A fork takes the ref of another branch for a file of its own.** The default branch is forked to `x.fork-new`, and then a fork to
`x` is interrupted before its marker: no fork is pending, and `x.fork-new` does not open. -/
theorem fork_takes_ref : createTripleLog "s" false false = .ok oneHeader ∧
    ((newStore "f".toList oneHeader).run Host.zero flagDigest storingGzip "f".toList takingEvents).files
      (forkMarkerPath "f".toList) = none ∧
    ((newStore "f".toList oneHeader).run Host.zero flagDigest storingGzip "f".toList takingEvents).histories
      "x.fork-new".toList = some [] ∧
    ∀ expectedSpace repairTorn r, openBranch Host.zero storingGzip ((newStore "f".toList oneHeader).run Host.zero flagDigest
      storingGzip "f".toList takingEvents).files "f".toList "x.fork-new".toList expectedSpace repairTorn ≠ .ok r := by
  obtain ⟨hmarker, hhistories, href⟩ : ((newStore "f".toList oneHeader).run Host.zero flagDigest storingGzip "f".toList takingEvents).files
        (forkMarkerPath "f".toList) = none ∧
      ((newStore "f".toList oneHeader).run Host.zero flagDigest storingGzip "f".toList takingEvents).histories
        "x.fork-new".toList = some [] ∧
      readBranchRef ((newStore "f".toList oneHeader).run Host.zero flagDigest storingGzip "f".toList takingEvents).files
        "f".toList "x.fork-new".toList = .ok none := by decide +kernel
  refine ⟨by decide +kernel, hmarker, hhistories, fun expectedSpace repairTorn r hr => ?_⟩
  unfold openBranch at hr
  obtain ⟨_, -, hr⟩ := ExceptList.bind_eq_ok_iff.1 hr
  obtain ⟨document, hd, hr⟩ := ExceptList.bind_eq_ok_iff.1 hr
  cases href.symm.trans hd
  cases hr

end Fram.Database
