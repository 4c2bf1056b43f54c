import Fram.Lemmas.ForkRun

/-!
# Whole forks

A fork that is not interrupted succeeds when its plan does (`forkStore_answer`), whatever the names of its branches, and over branches
that are apart its files are those of the completed fork (`forkStore_whole`).
-/

namespace Fram.Database

open Lines (Text)

section Answers

variable {D : Digest} {J : Gzip} {files files' : Files} {store p c : Text} {parsed : TripleLog} {plan : ForkPlan}

/-- Steps that cannot fail succeed. -/
theorem runSteps_total {steps : List FileStep} (h : ∀ step ∈ steps, ∀ files, ∃ files', step.run files = .ok files') (files : Files) :
    (runSteps files steps).2 = .ok () := by
  induction steps generalizing files with
  | nil => rfl
  | cons step steps ih =>
    rw [List.forall_mem_cons] at h
    obtain ⟨files', hrun⟩ := h.1 files
    rw [runSteps, hrun]
    exact ih h.2 files'

theorem install_total (pending target : Text) (files : Files) : ∃ files', FileStep.run files (.install pending target) = .ok files' := by
  simp only [FileStep.run, moveAtomically]
  cases files pending with
  | none => exact ⟨files, rfl⟩
  | some content => exact ⟨_, rfl⟩

/-- Completing a fork succeeds where its tail is sealed or still there. -/
theorem runSteps_completing {m : ForkMarker} (h : (files (segmentOf store m.segment)).isSome = true ∨
    (files (tailOf store m.parent)).isSome = true) : (runSteps files (completing store m)).2 = .ok () := by
  unfold completing
  rw [List.singleton_append, runSteps]
  have hseal : ∃ files', FileStep.run files (.sealTail (tailOf store m.parent) (segmentOf store m.segment)) = .ok files' := by
    simp only [FileStep.run, moveAtomically]
    split
    · exact ⟨files, rfl⟩
    · rename_i hs
      obtain ⟨content, hc⟩ := Option.isSome_iff_exists.1 (h.resolve_left hs)
      rw [hc]
      exact ⟨_, rfl⟩
  obtain ⟨files', hrun⟩ := hseal
  rw [hrun]
  refine runSteps_total (fun step hs files => ?_) files'
  simp only [List.mem_append, List.mem_cons, List.not_mem_nil, or_false] at hs
  rcases hs with hs | rfl | rfl
  · obtain ⟨path, -, rfl⟩ := List.mem_map.1 hs
    exact install_total _ _ files
  · exact ⟨_, rfl⟩
  · exact ⟨_, rfl⟩

/-- The tail of the parent is there when a fork is prepared. -/
theorem parentTail_prepared {m : ForkMarker} {contents : Text → Bytes} (hf : (files (tailOf store m.parent)).isSome = true)
    (hpend : ∀ path ∈ forkTargets store m.parent m.child, files' (forkPendingPath path) = some (contents path))
    (hframe : ∀ path ∉ scratch store m.parent m.child, files' path = files path) : (files' (tailOf store m.parent)).isSome = true := by
  by_cases hs : tailOf store m.parent ∈ scratch store m.parent m.child
  · rw [mem_scratch] at hs
    rcases hs with he | he | he | ⟨a, ha, he | he | he⟩
    · exact absurd he tailOf_ne_marker
    · exact absurd he tailOf_ne_markerTemporary
    · exact absurd he (store_ne_append (by simp))
    · have hmem : tailOf store a ∈ forkTargets store m.parent m.child := by
        simp only [List.mem_cons, List.not_mem_nil, or_false] at ha
        rcases ha with rfl | rfl <;> simp [forkTargets]
      rw [he, ← forkPendingPath, hpend _ hmem]
      rfl
    · exact absurd he (tailOf_ne_refOf_append _)
    · exact absurd he (tailOf_ne_refOf_append _)
  · rw [hframe _ hs]
    exact hf

theorem planFork_congr (hr : files' (refOf store p) = files (refOf store p)) (ht : files' (tailOf store p) = files (tailOf store p)) :
    planFork D J files' store p (tailOf store p) = planFork D J files store p (tailOf store p) := by
  unfold planFork requireLog
  rw [readBranchRef_congr hr, ht]

theorem completePending_none (hm : files (forkMarkerPath store) = none) : completePending files store = .ok [] := by
  unfold completePending readForkMarker
  rw [hm]
  rfl

/-- A tail that a fork plans from is a log. -/
theorem createTripleLog_of_planFork {tailPath : Text} (h : planFork D J files store p tailPath = .ok (parsed, plan)) :
    createTripleLog parsed.spaceId (parsed.deflate.getD false) true = .ok (logHeader (parsed.deflate.getD false) true parsed.spaceId) := by
  obtain ⟨document, content, parsed', -, -, -, hparse, -, hr⟩ := planFork_ok_iff.1 h
  obtain ⟨rfl, -⟩ := Prod.mk.inj hr
  obtain ⟨spaceId, deflate, continuation, frames, rest, hlog, -⟩ := isLog_of_parse hparse
  exact (hlog.parsedAs hparse).1.header hlog.space hlog.size

/-- The digest of what is planned is a segment name. -/
theorem validSegmentName_of_planFork {tailPath : Text} (h : planFork D J files store p tailPath = .ok (parsed, plan)) :
    validSegmentName plan.sealed.sha256 = true := by
  obtain ⟨document, content, parsed', -, -, -, -, -, hr⟩ := planFork_ok_iff.1 h
  obtain ⟨-, rfl⟩ := Prod.mk.inj hr
  exact D.valid content

/-- A fork whose child is new does what it plans. -/
theorem forkBranch_of_plan (hp : validBranchName p = true) (hc : validBranchName c = true)
    (htail : files (tailOf store c) = none) (href : files (refOf store c) = none)
    (hplan : planFork D J files store p (tailOf store p) = .ok (parsed, plan)) : ∃ receipt,
      forkBranch D J files store p c (pathsOf store p c) =
        .ok (prepareFork store (pathsOf store p c) parsed plan ⟨p, c, plan.sealed.sha256⟩ ++ completing store ⟨p, c, plan.sealed.sha256⟩,
          receipt) := by
  have hcomplete : completeFork store ⟨p, c, plan.sealed.sha256⟩ = .ok (completing store ⟨p, c, plan.sealed.sha256⟩) :=
    completeFork_ok hp hc (validSegmentName_of_planFork hplan)
  have hplan' : planFork D J files store p (pathsOf store p c).parentTail = .ok (parsed, plan) := hplan
  unfold forkBranch
  rw [if_neg (by simp [pathsOf, htail, href])]
  simp only [bind, Except.bind]
  rw [hplan']
  dsimp only
  rw [hcomplete]
  exact ⟨_, rfl⟩

/-- What a fork plans is done. -/
theorem runSteps_forkBranch (hne : p ≠ c) (hplan : planFork D J files store p (tailOf store p) = .ok (parsed, plan)) :
    (runSteps files (prepareFork store (pathsOf store p c) parsed plan ⟨p, c, plan.sealed.sha256⟩ ++
      completing store ⟨p, c, plan.sealed.sha256⟩)).2 = .ok () := by
  obtain ⟨files', hrun, -, hpend, hframe⟩ := @prepared files store ⟨p, c, plan.sealed.sha256⟩ parsed plan _ hne
    (createTripleLog_of_planFork hplan)
  obtain ⟨document, content, parsed', -, -, hcontent, -, -, -⟩ := planFork_ok_iff.1 hplan
  rw [runSteps_append hrun]
  exact runSteps_completing (Or.inr (parentTail_prepared (by rw [hcontent]; rfl) hpend hframe))

/-- The locks of a fork are no files of its child, unless the child has the name of a lock. -/
theorem acquiring_child (hlock : c ≠ p ++ ".writer-authority.lock".toList) (files : Files) :
    (runSteps files (acquiring store p c)).1 (tailOf store c) = files (tailOf store c) := by
  refine runSteps_frame (fun step hs hmem => ?_) files
  obtain ⟨path, hpath, rfl⟩ := List.mem_map.1 hs
  rw [List.mem_eraseDups] at hpath
  simp only [FileStep.footprint, List.mem_singleton, authorityPath] at hmem
  simp only [List.mem_cons, List.not_mem_nil, or_false] at hpath
  rcases hpath with rfl | rfl | rfl
  · rw [tailOf_eq] at hmem
    have := List.append_cancel_left hmem
    split at this <;> simp at this
  · exact tailOf_ne_tailOf_append (by simp [derivedSuffixes]) hlock hmem
  · exact store_ne_append (by simp) hmem

/-- What a fork does whose child is new and no lock, where no fork is pending: it takes its locks, and does what it plans. -/
theorem forkStore_of_plan (hm : files (forkMarkerPath store) = none) (hp : validBranchName p = true) (hc : validBranchName c = true)
    (hne : p ≠ c) (htail : files (tailOf store c) = none) (href : files (refOf store c) = none)
    (hlock : c ≠ p ++ ".writer-authority.lock".toList) (hplan : planFork D J files store p (tailOf store p) = .ok (parsed, plan)) :
    planFork D J (runSteps files (acquiring store p c)).1 store p (tailOf store p) = .ok (parsed, plan) ∧ ∃ receipt,
      forkStore D J files store p c = ⟨acquiring store p c ++ (prepareFork store (pathsOf store p c) parsed plan
        ⟨p, c, plan.sealed.sha256⟩ ++ completing store ⟨p, c, plan.sealed.sha256⟩), .ok receipt⟩ := by
  obtain ⟨-, hl⟩ := @runSteps_locks store (acquiring store p c) (fun _ => mem_acquiring) files
  have hchild := @acquiring_child store p c hlock files
  obtain ⟨document, content, parsed', -, -, hcontent, -, -, -⟩ := planFork_ok_iff.1 hplan
  rw [forkStore_eq hp hc hne]
  generalize (runSteps files (acquiring store p c)).1 = files₁ at hl hchild
  have hplan' : planFork D J files₁ store p (tailOf store p) = .ok (parsed, plan) := by
    rw [planFork_congr (hl.ref p) ((hl.keeps hcontent).trans hcontent.symm), hplan]
  obtain ⟨receipt, hb⟩ := forkBranch_of_plan hp hc (hchild.trans htail) ((hl.ref c).trans href) hplan'
  refine ⟨hplan', receipt, ?_⟩
  rw [forkLocked_of_ok (completePending_none (hl.marker.trans hm)) rfl hb]
  dsimp only
  rw [List.nil_append, runSteps_forkBranch hne hplan']
  rfl

/-- **A fork succeeds when its plan does**, where no fork is pending, and its child is new and no lock. -/
theorem forkStore_answer (hm : files (forkMarkerPath store) = none) (hp : validBranchName p = true) (hc : validBranchName c = true)
    (hne : p ≠ c) (htail : files (tailOf store c) = none) (href : files (refOf store c) = none)
    (hlock : c ≠ p ++ ".writer-authority.lock".toList) {content : Bytes} (hcontent : files (tailOf store p) = some content) :
    (∃ receipt, (forkStore D J files store p c).answer = .ok receipt) ↔ ∃ r, planFork D J files store p (tailOf store p) = .ok r := by
  constructor
  · rintro ⟨receipt, h⟩
    obtain ⟨-, hl⟩ := @runSteps_locks store (acquiring store p c) (fun _ => mem_acquiring) files
    rw [forkStore_eq hp hc hne] at h
    dsimp only at h
    generalize (runSteps files (acquiring store p c)).1 = files₁ at hl h
    have hpending := completePending_none (hl.marker.trans hm)
    cases hb : forkBranch D J files₁ store p c (pathsOf store p c) with
    | error fault =>
      rw [forkLocked_of_error hpending rfl hb] at h
      cases h
    | ok r =>
      unfold forkBranch at hb
      split at hb
      · cases hb
      · obtain ⟨r', hr, -⟩ := ExceptList.bind_eq_ok_iff.1 hb
        exact ⟨r', (planFork_congr (hl.ref p) ((hl.keeps hcontent).trans hcontent.symm)).symm.trans hr⟩
  · rintro ⟨⟨parsed, plan⟩, hr⟩
    obtain ⟨-, receipt, h⟩ := forkStore_of_plan hm hp hc hne htail href hlock hr
    rw [h]
    exact ⟨receipt, rfl⟩

/-- The files after a fork that is not interrupted. -/
theorem forkStore_whole (hm : files (forkMarkerPath store) = none) (hmarker : UsableMarker ⟨p, c, plan.sealed.sha256⟩)
    (htail : files (tailOf store c) = none) (href : files (refOf store c) = none)
    (hlock : c ≠ p ++ ".writer-authority.lock".toList) (hplan : planFork D J files store p (tailOf store p) = .ok (parsed, plan))
    {content : Bytes} (hcontent : files (tailOf store p) = some content)
    (hcollide : ∀ other, files (segmentOf store plan.sealed.sha256) = some other → other = content) :
    markerMove store ∈ (forkStore D J files store p c).steps ∧ ∃ files₁ files', Locked store files files₁ ∧
      (∀ path ∉ scratch store p c, files' path = files₁ path) ∧
      runSteps files (forkStore D J files store p c).steps = (completedFiles files' store ⟨p, c, plan.sealed.sha256⟩ content
        (preparedContent store ⟨p, c, plan.sealed.sha256⟩ (logHeader (parsed.deflate.getD false) true parsed.spaceId)
          (textBytes (printRef plan.document))), .ok ()) := by
  obtain ⟨hok, hl⟩ := @runSteps_locks store (acquiring store p c) (fun _ => mem_acquiring) files
  obtain ⟨hplan', receipt, hfork⟩ := forkStore_of_plan hm hmarker.parent hmarker.child hmarker.different htail href hlock hplan
  obtain ⟨files', hrun, hmarked, hprepared, hframe⟩ := @prepared (runSteps files (acquiring store p c)).1 store
    ⟨p, c, plan.sealed.sha256⟩ parsed plan _ hmarker.different (createTripleLog_of_planFork hplan')
  have hway := underway_of_prepared hmarker hmarked hprepared hframe (hl.keeps hcontent) fun other hs => by
    rw [hl.segment] at hs
    exact hcollide other hs
  obtain ⟨hdone, -, hend⟩ := hway.take hmarker 7
  rw [List.take_of_length_le (by rw [length_completing])] at hdone hend
  rw [hfork]
  refine ⟨?_, _, files', hl, hframe, ?_⟩
  · rw [prepareFork_eq]
    simp
  · rw [runSteps_append (Prod.ext rfl hok), runSteps_append hrun]
    exact Prod.ext (hend (le_refl _)) hdone

end Answers

/-! ## What a whole fork leaves -/

/-- What a fork leaves of its two branches: they are folded by one ref, whose last segment is the tail that it sealed. -/
structure ForkLeaves (D : Digest) (J : Gzip) (files left : Files) (store p c : Text) (document : RefDocument)
    (frames : List TransactionFrame) (content : Bytes) : Prop where
  marker : left (forkMarkerPath store) = none
  chain : ∃ record : SegmentRecord, record.sha256 = D.sha256Hex content ∧
    (⟨document.spaceId, document.segments ++ [record]⟩ : RefDocument).Readable ∧
      ∀ b ∈ [p, c], left (refOf store b) = some (textBytes (printRef ⟨document.spaceId, document.segments ++ [record]⟩)) ∧
        ∃ deflate, Folds J left store b ⟨document.spaceId, document.segments ++ [record]⟩ frames []
          (logHeader deflate true (String.ofList document.spaceId)) deflate []
  segments : ∀ name, name ≠ D.sha256Hex content → left (segmentOf store name) = files (segmentOf store name)
  others : ∀ b, b ≠ p → b ≠ c → (∀ a ∈ [p, c], Apart a b) → (∀ a, b ≠ a ++ ".writer-authority.lock".toList) →
    left (tailOf store b) = files (tailOf store b) ∧ left (refOf store b) = files (refOf store b)

section Whole

variable {D : Digest} {J : Gzip} {files : Files} {store p c : Text} {document : RefDocument} {sealed tail : List TransactionFrame}
  {content : Bytes} {deflate : Bool}

/-- **A fork of a branch that its ref folds** gives it and its child the tail as a segment, and an empty tail each. -/
theorem Folds.leaves (h : Folds J files store p document sealed tail content deflate []) (hm : files (forkMarkerPath store) = none)
    (href : RefIs files store p document) (hr : document.Readable) (hone : OnOneLine document.spaceId)
    (hp : validBranchName p = true) (hc : validBranchName c = true) (hne : p ≠ c) (hapart : ∀ a ∈ [p, c], ∀ b ∈ [p, c], Apart a b)
    (htail : files (tailOf store c) = none) (hchild : files (refOf store c) = none)
    (hlock : c ≠ p ++ ".writer-authority.lock".toList) (hfresh : ∀ segment ∈ document.segments, segment.sha256 ≠ D.sha256Hex content)
    (hchain : document.segments.length < maxChainLength)
    (hcollide : ∀ other, files (segmentOf store (D.sha256Hex content)) = some other → other = content)
    (hsize : content.length < 10 ^ 18) (hnext : nextOf 1 (sealed ++ tail) ≤ 10 ^ 18) :
    (∃ receipt, (Database.forkStore D J files store p c).answer = .ok receipt) ∧
      markerMove store ∈ (Database.forkStore D J files store p c).steps ∧
      ∃ left, runSteps files (Database.forkStore D J files store p c).steps = (left, .ok ()) ∧
        ForkLeaves D J files left store p c document (sealed ++ tail) content := by
  obtain ⟨document', hd, hmain⟩ : ∃ document', readBranchRef files store p = .ok document' ∧ (document' = none → p = defaultBranch) := by
    rcases href.read hp hr hone with hd | ⟨hmain, hd, -⟩
    · exact ⟨_, hd, nofun⟩
    · exact ⟨_, hd, fun _ => hmain⟩
  obtain ⟨parsed, hparse, hparsed, hplans⟩ := planFork_iff (D := D) h.file h.log h.positive hd (href.base hp hr hone hd) hmain
  have hplan := (hplans _).2 ⟨hfresh, hchain, rfl⟩
  have hmarker : UsableMarker ⟨p, c, D.sha256Hex content⟩ := ⟨hp, hc, hne, D.valid content, hapart⟩
  obtain ⟨hbegun, files₁, files', hl, hframe, hrun⟩ := forkStore_whole hm hmarker htail hchild hlock hplan h.file hcollide
  have hfork : Forkable D document parsed content := by
    obtain ⟨document'', content', parsed', hd', -, hc', hp', hfork, -⟩ := planFork_ok_iff.1 hplan
    rw [hd, Except.ok.injEq] at hd'
    rw [h.file, Option.some.injEq] at hc'
    rw [← hc', hparse, Except.ok.injEq] at hp'
    rw [← hd', ← hc', ← hp', hparsed.space, String.toList_ofList, href.base hp hr hone hd] at hfork
    exact hfork
  refine ⟨(forkStore_answer hm hp hc hne htail hchild hlock h.file).2 ⟨_, hplan⟩, hbegun, _, hrun,
    completedFiles_marker hmarker _ _, ⟨segmentRecord D parsed content, rfl, ?_, fun b hb => ?_⟩, fun name hn => ?_,
    fun b hbp hbc hap hlocks => ?_⟩
  · exact readable_planned hr hfork hparsed.frames h.ordered hsize hnext
  · have htargets : refOf store b ∈ forkTargets store p c ∧ tailOf store b ∈ forkTargets store p c ∧ (b = p ∨ b = c) := by
      simp only [List.mem_cons, List.not_mem_nil, or_false] at hb
      rcases hb with rfl | rfl <;> simp [forkTargets]
    obtain ⟨hrefs, htails, hb⟩ := htargets
    refine ⟨?_, parsed.deflate.getD false, ?_⟩
    · rw [completedFiles_target hrefs, preparedContent, if_neg (by simp [tailOf_ne_refOf.symm])]
      rfl
    · have hid : parsed.spaceId = String.ofList document.spaceId := hparsed.space
      rw [← hid]
      refine h.forked hparse (fun name bytes hs => ?_) completedFiles_segment ?_
      · by_cases hname : name = D.sha256Hex content
        · rw [hname] at hs ⊢
          rw [hcollide bytes hs]
          exact completedFiles_segment
        · rw [completedFiles_other (fun he => hname (fileIn_inj.1 he)) segmentOf_notMem_targets segmentOf_notMem_scratch,
            hframe _ segmentOf_notMem_scratch]
          exact hl.keeps hs
      · rw [completedFiles_target htails, preparedContent, if_pos (by rcases hb with rfl | rfl <;> simp)]
  · rw [completedFiles_other (fun he => hn (fileIn_inj.1 he)) segmentOf_notMem_targets segmentOf_notMem_scratch,
      hframe _ segmentOf_notMem_scratch, hl.segment]
  · constructor
    · rw [completedFiles_other tailOf_ne_segment (by simp [forkTargets, tailOf_inj, tailOf_ne_refOf, hbp, hbc])
        (tailOf_notMem_scratch hap), hframe _ (tailOf_notMem_scratch hap)]
      exact hl.same fun a => tailOf_ne_tailOf_append (by simp [derivedSuffixes]) (hlocks a)
    · rw [completedFiles_other (fun he => segmentOf_ne_refOf_append [] (by rw [List.append_nil]; exact he.symm))
        (by simp [forkTargets, refOf_inj, tailOf_ne_refOf.symm, hbp, hbc]) (refOf_notMem_scratch hap), hframe _ (refOf_notMem_scratch hap),
        hl.ref]

end Whole

end Fram.Database
