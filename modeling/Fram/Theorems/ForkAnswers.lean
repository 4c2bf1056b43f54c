import Fram.Theorems.BranchHistories

/-!
# When a fork succeeds

A branch that opens can be forked unless its tail is already a segment of its own chain (`fork_succeeds`). That is so after two forks
without a commit between them (`fork_third_refused`).
-/

namespace Fram.Database

open Lines (Text)

section Answers

variable {Γ : Host} {D : Digest} {J : Gzip} {files files' : Files} {store parent : Text} {expectedSpace : Option String} {db : Db}

/-- The tail of a branch that opens whole. -/
theorem tail_of_openBranch (ho : openBranch Γ J files store parent expectedSpace false = .ok (db, files')) (htorn : db.tornTail = none) :
    ∃ document' document tail content deflate, readBranchRef files store parent = .ok document' ∧
      (document' = none → parent = defaultBranch) ∧ document'.getD (emptyRef document.spaceId) = document ∧
      files (tailOf store parent) = some content ∧ Positive tail ∧
      IsLog J content (String.ofList document.spaceId) deflate (decide (0 < document.segments.length)) tail [] := by
  obtain ⟨-, ⟨document, hd, h⟩ | ⟨hmain, hd, content, db', log, hf, h, hr⟩⟩ := openBranch_ok_iff.1 ho
  · obtain ⟨sealed, tail, content, deflate, rest, s, torn, hfolds, -, -, hrest, rfl, -⟩ :=
      folds_of_openChain (validBranchName_of_readBranchRef hd) h
    obtain rfl := hrest.1 htorn
    exact ⟨some document, document, tail, content, deflate, hd, nofun, rfl, hfolds.file, hfolds.positive, hfolds.log⟩
  · cases hr
    obtain ⟨spaceId, deflate, frames, rest, hlog, hc, hspace⟩ := isLog_of_openDatabase h
    obtain ⟨s, torn, -, hrest, hopen⟩ := (hlog.openDatabase (Γ := Γ) hspace false).1 hc
    rw [h, Except.ok.injEq, Prod.mk.injEq] at hopen
    obtain ⟨rfl, -⟩ := hopen
    obtain rfl := hrest.1 htorn
    refine ⟨none, emptyRef spaceId.toList, frames, content, deflate, hd, fun _ => hmain, rfl, ?_, Positive.of_continues hc (by omega), ?_⟩
    · rw [hmain, tailOf, if_pos rfl]
      exact hf
    · have hid : String.ofList (emptyRef spaceId.toList).spaceId = spaceId := String.ofList_toList
      rw [hid]
      exact hlog

/-- **A fork succeeds exactly where its tail is not sealed yet.** For every store, every branch that opens with no torn tail and fewer
segments than the chain may have, and every usable name of a child whose files are not there, which is not that of a lock: the fork
succeeds exactly if no segment of the branch has the digest of its tail. -/
theorem fork_succeeds (ho : openBranch Γ J files store parent expectedSpace false = .ok (db, files')) (htorn : db.tornTail = none)
    (hchain : (sealedSegments files store parent).length < maxChainLength) {child : Text} (hc : validBranchName child = true)
    (htail : files (tailOf store child) = none) (href : files (fileIn (refsDirectory store) child) = none)
    (hlock : child ≠ parent ++ ".writer-authority.lock".toList) :
    (∃ receipt, (forkStore D J files store parent child).answer = .ok receipt) ↔
      ∀ content, files (tailOf store parent) = some content → ∀ segment ∈ sealedSegments files store parent,
        segment.sha256 ≠ D.sha256Hex content := by
  obtain ⟨document', document, tail, content, deflate, hd, hmain, hbase, hfile, hpos, hlog⟩ := tail_of_openBranch ho htorn
  have hsegments : sealedSegments files store parent = document.segments := by
    unfold sealedSegments
    rw [hd]
    cases document' with
    | none => rw [← hbase]; rfl
    | some document'' => rw [← hbase]; rfl
  have hne : parent ≠ child := by
    rintro rfl
    rw [hfile] at htail
    cases htail
  obtain ⟨parsed, -, -, hplans⟩ := planFork_iff (D := D) hfile hlog hpos hd hbase hmain
  rw [forkStore_answer (openBranch_ok_iff.1 ho).1 (validBranchName_of_readBranchRef hd) hc hne htail href hlock hfile, hsegments]
  rw [hsegments] at hchain
  constructor
  · rintro ⟨r, hr⟩ content' hcontent
    rw [hfile, Option.some.injEq] at hcontent
    subst hcontent
    exact ((hplans r).1 hr).1
  · intro hfresh
    exact ⟨_, (hplans _).2 ⟨hfresh content hfile, hchain, rfl⟩⟩

end Answers

/-- The files of a new store that was forked once. -/
def forkedFiles : Files :=
  ((newStore "f".toList oneHeader).step Host.zero flagDigest storingGzip "f".toList (.fork defaultBranch "a".toList none)).files

set_option maxRecDepth 20000 in
/-- A second fork: the chain of the branch names the segment that the first one sealed. -/
theorem fork_succeeds_again : ∃ db files, openBranch Host.zero storingGzip forkedFiles "f".toList defaultBranch none false = .ok (db, files) ∧
    (sealedSegments forkedFiles "f".toList defaultBranch).length = 1 ∧
      ((∃ receipt, (forkStore flagDigest storingGzip forkedFiles "f".toList defaultBranch "b".toList).answer = .ok receipt) ↔
        ∀ content, forkedFiles (tailOf "f".toList defaultBranch) = some content →
          ∀ segment ∈ sealedSegments forkedFiles "f".toList defaultBranch, segment.sha256 ≠ flagDigest.sha256Hex content) := by
  obtain ⟨hopens, hone, htail, href⟩ : (openBranch Host.zero storingGzip forkedFiles "f".toList defaultBranch none false).toOption.any
      (fun r => r.1.tornTail.isNone) = true ∧ (sealedSegments forkedFiles "f".toList defaultBranch).length = 1 ∧
      forkedFiles (tailOf "f".toList "b".toList) = none ∧ forkedFiles (fileIn (refsDirectory "f".toList) "b".toList) = none := by
    decide +kernel
  cases ho : openBranch Host.zero storingGzip forkedFiles "f".toList defaultBranch none false with
  | error e => rw [ho] at hopens; cases hopens
  | ok r =>
    rw [ho] at hopens
    exact ⟨r.1, r.2, rfl, hone, fork_succeeds ho (Option.isNone_iff_eq_none.1 hopens) (by rw [hone]; decide) (by decide) htail href
      (by decide)⟩

/-- The files after a fork that is not interrupted. -/
theorem step_fork_files (Γ : Host) (D : Digest) (J : Gzip) (store : Text) (w : BranchWorld) (parent child : Text) :
    (w.step Γ D J store (.fork parent child none)).files = (runSteps w.files (forkStore D J w.files store parent child).steps).1 := rfl

/-- Two forks of a store. -/
def twoForks : List BranchEvent := [.fork defaultBranch "a".toList none, .fork defaultBranch "b".toList none]

/-- **The third fork in a row is refused.** A new store is forked twice: its default branch opens, with two segments and no torn tail, and
a third fork to a child that is new does not succeed. -/
theorem fork_third_refused :
    (∃ receipt, (forkStore flagDigest storingGzip (newStore "f".toList oneHeader).files "f".toList defaultBranch "a".toList).answer =
      .ok receipt) ∧
    (∃ receipt, (forkStore flagDigest storingGzip ((newStore "f".toList oneHeader).step Host.zero flagDigest storingGzip "f".toList
      (.fork defaultBranch "a".toList none)).files "f".toList defaultBranch "b".toList).answer = .ok receipt) ∧
    ∃ files, ((newStore "f".toList oneHeader).run Host.zero flagDigest storingGzip "f".toList twoForks).files = files ∧
      (∃ db, openBranch Host.zero storingGzip files "f".toList defaultBranch none false = .ok (db, files) ∧ db.tornTail = none) ∧
      (sealedSegments files "f".toList defaultBranch).length = 2 ∧ validBranchName "c".toList = true ∧
      files (tailOf "f".toList "c".toList) = none ∧ files (fileIn (refsDirectory "f".toList) "c".toList) = none ∧
      ¬∃ receipt, (forkStore flagDigest storingGzip files "f".toList defaultBranch "c".toList).answer = .ok receipt := by
  have hone : OnOneLine (emptyRef "s".toList).spaceId := ⟨by decide, by decide⟩
  have hdigest (deflate : Bool) : flagDigest.sha256Hex (logHeader deflate true (String.ofList (emptyRef "s".toList).spaceId)) =
      List.replicate 63 '0' ++ ['1'] := by
    cases deflate <;> decide
  have hlocks (b : Text) (hb : b.length = 1) (a : Text) : b ≠ a ++ ".writer-authority.lock".toList := by
    rintro rfl
    simp at hb
  obtain ⟨hanswer, -, left, hrun, hleaves⟩ := @forkStore_newStore "a".toList (by decide) (by decide) (by decide) (by decide)
  obtain ⟨record, hsha, hreadable, hchain⟩ := hleaves.chain
  obtain ⟨href, deflate, hfolds⟩ := hchain defaultBranch (by simp)
  have hfirst : ((newStore "f".toList oneHeader).step Host.zero flagDigest storingGzip "f".toList
      (.fork defaultBranch "a".toList none)).files = left := by rw [step_fork_files, hrun]
  have htailB : (newStore "f".toList oneHeader).files (tailOf "f".toList "b".toList) = none := by decide
  have htailC : (newStore "f".toList oneHeader).files (tailOf "f".toList "c".toList) = none := by decide
  obtain ⟨hb, hbRef⟩ := hleaves.others "b".toList (by decide) (by decide) (by decide) (hlocks _ rfl)
  obtain ⟨hc, hcRef⟩ := hleaves.others "c".toList (by decide) (by decide) (by decide) (hlocks _ rfl)
  rw [htailB] at hb
  rw [htailC] at hc
  rw [newStore_ref] at hbRef hcRef
  -- the second fork seals the empty tail that the first one left
  have hheader : flagDigest.sha256Hex oneHeader ≠ List.replicate 63 '0' ++ ['1'] := by decide
  have hfresh : ∀ segment ∈ (emptyRef "s".toList).segments ++ [record], segment.sha256 ≠
      flagDigest.sha256Hex (logHeader deflate true (String.ofList (emptyRef "s".toList).spaceId)) := by
    intro segment hs
    obtain rfl : segment = record := by simpa [emptyRef] using hs
    rw [hsha, hdigest]
    exact hheader
  have hcollide (other : Bytes) (hs : left (segmentOf "f".toList
      (flagDigest.sha256Hex (logHeader deflate true (String.ofList (emptyRef "s".toList).spaceId)))) = some other) :
      other = logHeader deflate true (String.ofList (emptyRef "s".toList).spaceId) := by
    rw [hleaves.segments _ (by rw [hdigest]; exact hheader.symm), newStore_segment] at hs
    cases hs
  have hsize : (logHeader deflate true (String.ofList (emptyRef "s".toList).spaceId)).length < 10 ^ 18 := by
    cases deflate <;> decide
  have hvalid : validBranchName "b".toList = true := by decide
  obtain ⟨hanswer₂, -, left₂, hrun₂, hleaves₂⟩ := hfolds.leaves (D := flagDigest) hleaves.marker (Or.inl href) hreadable hone
    (by decide) hvalid (by decide) (by decide) hb hbRef (by decide) hfresh (show 1 < maxChainLength by decide) hcollide hsize (by decide)
  obtain ⟨record₂, hsha₂, hreadable₂, hchain₂⟩ := hleaves₂.chain
  obtain ⟨href₂, deflate₂, hfolds₂⟩ := hchain₂ defaultBranch (by simp)
  obtain ⟨hc₂, hcRef₂⟩ := hleaves₂.others "c".toList (by decide) (by decide) (by decide) (hlocks _ rfl)
  have hevents : ((newStore "f".toList oneHeader).run Host.zero flagDigest storingGzip "f".toList twoForks).files = left₂ := by
    unfold BranchWorld.run twoForks
    rw [List.foldl_cons, List.foldl_cons, List.foldl_nil, step_fork_files, hfirst, hrun₂]
  have hd := readBranchRef_of_printRef (by decide) href₂ (parseRef_printRef_iff.2 ⟨hreadable₂, hone⟩)
  obtain ⟨db, hopen, -, hready⟩ := hfolds₂.opens (Γ := Host.zero) (by decide) String.toList_ofList.symm hreadable₂ (Or.inl href₂)
    (by rw [String.toList_ofList]; exact hone) hleaves₂.marker (Or.inl rfl) false
  rw [hfirst]
  refine ⟨hanswer, hanswer₂, left₂, hevents, ⟨db, hopen, hready.tornTail⟩, ?_, by decide, hc₂.trans hc, hcRef₂.trans hcRef, ?_⟩
  · unfold sealedSegments
    rw [hd]
    rfl
  · rw [forkStore_answer hleaves₂.marker (by decide) (by decide) (by decide) (hc₂.trans hc) (hcRef₂.trans hcRef) (by decide) hfolds₂.file]
    obtain ⟨parsed, -, -, hplans⟩ := planFork_iff (D := flagDigest) hfolds₂.file hfolds₂.log hfolds₂.positive hd rfl (fun h => by cases h)
    rintro ⟨r, hr⟩
    refine ((hplans r).1 hr).1 record₂ (by simp) ?_
    rw [hsha₂, hdigest]
    exact (hdigest deflate₂).symm

end Fram.Database
