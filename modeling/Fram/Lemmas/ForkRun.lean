import Fram.Lemmas.ForkPlan

/-!
# Runs with forks

A fork takes its locks, completes the fork before it, prepares and is then on its way (`forkStore_eq`). Wherever it is interrupted,
the branches hold their histories, or will when the fork is completed (`Kept.fork`).
-/

namespace Fram.Database

open Lines (Text)

/-! ## Locks -/

/-- The files beside which locks are taken: a lock is an empty file, where there is none. -/
def Locked (store : Text) (files files' : Files) : Prop := ∀ path, files' path = files path ∨
  (files path = none ∧ files' path = some [] ∧ ∃ b, path = tailOf store b ++ ".writer-authority.lock".toList)

section Locks

variable {files files' files'' : Files} {store : Text} {path : Text}

theorem Locked.refl (store : Text) (files : Files) : Locked store files files := fun _ => Or.inl rfl

theorem Locked.trans (h : Locked store files files') (h' : Locked store files' files'') : Locked store files files'' := by
  intro path
  rcases h' path with h2 | ⟨h2, h3, h4⟩
  · rw [h2]
    exact h path
  · rcases h path with h1 | ⟨h1, -, -⟩
    · exact Or.inr ⟨h1 ▸ h2, h3, h4⟩
    · exact Or.inr ⟨h1, h3, h4⟩

/-- A file stays where a lock is taken. -/
theorem Locked.keeps (h : Locked store files files') {content : Bytes} (hc : files path = some content) : files' path = some content := by
  rcases h path with h | ⟨h, -, -⟩
  · rw [h, hc]
  · rw [hc] at h
    cases h

/-- Locks change no other path. -/
theorem Locked.same (h : Locked store files files') (hp : ∀ b, path ≠ tailOf store b ++ ".writer-authority.lock".toList) :
    files' path = files path := by
  rcases h path with h | ⟨-, -, b, he⟩
  · exact h
  · exact absurd he (hp b)

theorem Locked.ref (h : Locked store files files') (b : Text) : files' (refOf store b) = files (refOf store b) :=
  h.same fun _ => refOf_ne_tailOf_append (by simp [derivedSuffixes])

theorem Locked.segment (h : Locked store files files') (name : Text) : files' (segmentOf store name) = files (segmentOf store name) :=
  h.same fun _ => segmentOf_ne_tailOf_append (by simp [derivedSuffixes])

theorem Locked.pending (h : Locked store files files') (path : Text) : files' (forkPendingPath path) = files (forkPendingPath path) := by
  refine h.same fun b he => ?_
  have := congrArg List.getLast? he
  simp [forkPendingPath] at this

theorem Locked.marker (h : Locked store files files') : files' (forkMarkerPath store) = files (forkMarkerPath store) := by
  refine h.same fun b he => ?_
  rw [tailOf_eq, forkMarkerPath, List.append_assoc] at he
  have := List.append_cancel_left he
  split at this <;> simp at this

/-- Steps that take locks succeed. -/
theorem runSteps_locks {steps : List FileStep} (hs : ∀ step ∈ steps, ∃ b, step = .lock (authorityPath (tailOf store b)))
    (files : Files) : (runSteps files steps).2 = .ok () ∧ Locked store files (runSteps files steps).1 := by
  induction steps generalizing files with
  | nil => exact ⟨rfl, .refl store files⟩
  | cons step steps ih =>
    rw [List.forall_mem_cons] at hs
    obtain ⟨⟨b, rfl⟩, hs⟩ := hs
    rw [runSteps, FileStep.run]
    obtain ⟨hok, hlocked⟩ := ih hs (files.put (authorityPath (tailOf store b)) (some ((files (authorityPath (tailOf store b))).getD [])))
    refine ⟨hok, Locked.trans (fun path => ?_) hlocked⟩
    by_cases he : path = authorityPath (tailOf store b)
    · subst he
      rw [put_self]
      cases hf : files (authorityPath (tailOf store b)) with
      | none => exact Or.inr ⟨rfl, rfl, b, rfl⟩
      | some content => exact Or.inl rfl
    · exact Or.inl (put_ne he _)

/-- The locks of a fork. -/
def acquiring (store parent child : Text) : List FileStep :=
  acquireForkAuthority [store, tailOf store parent, tailOf store child].eraseDups

theorem mem_acquiring {parent child : Text} {step : FileStep} (h : step ∈ acquiring store parent child) :
    ∃ b, step = .lock (authorityPath (tailOf store b)) := by
  obtain ⟨path, hp, rfl⟩ := List.mem_map.1 h
  rw [List.mem_eraseDups] at hp
  simp only [List.mem_cons, List.not_mem_nil, or_false] at hp
  rcases hp with rfl | rfl | rfl
  · exact ⟨defaultBranch, by rw [tailOf, if_pos rfl]⟩
  · exact ⟨parent, rfl⟩
  · exact ⟨child, rfl⟩

end Locks

/-! ## What is kept under locks -/

section Keeping

variable {D : Digest} {J : Gzip} {files files' : Files} {store : Text} {spaceId : String} {m : ForkMarker} {content : Bytes}
  {contents : Text → Bytes} {histories : Text → Option (List TransactionFrame)}

theorem Branches.keep (h : Branches D J files store spaceId histories)
    (hr : ∀ b, (histories b).isSome → files' (refOf store b) = files (refOf store b))
    (ht : ∀ b, (histories b).isSome → ∀ bytes, files (tailOf store b) = some bytes → files' (tailOf store b) = some bytes)
    (hs : ∀ name, files' (segmentOf store name) = files (segmentOf store name)) : Branches D J files' store spaceId histories := by
  refine ⟨fun name content hc => h.named name content (hs name ▸ hc), fun b frames hb => ?_⟩
  have hsome : (histories b).isSome = true := by rw [hb]; rfl
  exact (h.holds b frames hb).keep (hr b hsome) (ht b hsome) fun name content hc => (hs name).trans hc

theorem Branches.locked (h : Branches D J files store spaceId histories) (hl : Locked store files files') :
    Branches D J files' store spaceId histories :=
  h.keep (fun b _ => hl.ref b) (fun _ _ _ hb => hl.keeps hb) hl.segment

theorem Underway.locked (h : Underway files store m content contents) (hl : Locked store files files') :
    Underway files' store m content contents := by
  refine ⟨hl.marker.trans h.marker, ?_, fun path hp => ?_⟩
  · rcases h.sealed with hs | ⟨hs, ht, hp⟩
    · exact Or.inl (hl.keeps hs)
    · exact Or.inr ⟨(hl.segment _).trans hs, hl.keeps ht, hl.keeps hp⟩
  · rcases h.installs path hp with hi | ⟨hn, hi⟩
    · exact Or.inl (hl.keeps hi)
    · exact Or.inr ⟨(hl.pending path).trans hn, hl.keeps hi⟩

theorem Locked.completed (h : Locked store files files') :
    Locked store (completedFiles files store m content contents) (completedFiles files' store m content contents) := by
  intro path
  unfold completedFiles
  split
  · exact Or.inl rfl
  split
  · exact Or.inl rfl
  split
  · exact Or.inl rfl
  exact h path

end Keeping

/-! ## Branches after a fork -/

/-- No two files have one digest, and the length of each is a count of a ref. -/
def Digestible (D : Digest) (files : Files) : Prop := ∀ path content, files path = some content → content.length < 10 ^ 18 ∧
  ∀ other content', files other = some content' → D.sha256Hex content' = D.sha256Hex content → content' = content

section Forked

variable {D : Digest} {J : Gzip} {files files' : Files} {store : Text} {spaceId : String}
  {histories : Text → Option (List TransactionFrame)} {p c : Text} {parsed : TripleLog} {plan : ForkPlan}

/-- The ref from which a fork plans is the one that folds its parent. -/
theorem RefIs.base {document : RefDocument} (h : RefIs files store p document) (hp : validBranchName p = true) (hr : document.Readable)
    (hone : OnOneLine document.spaceId) {document' : Option RefDocument} (hd : readBranchRef files store p = .ok document') :
    document'.getD (emptyRef document.spaceId) = document := by
  rcases h.read hp hr hone with h | ⟨-, h, hnil⟩
  · rw [hd, Except.ok.injEq] at h
    rw [h]
    rfl
  · rw [hd, Except.ok.injEq] at h
    rw [h, Option.getD_none, emptyRef, ← hnil]

/-- Once a fork is completed, parent and child have the history of the parent, and every other branch has its own. -/
theorem Branches.forked (h : Branches D J files store spaceId histories) (hone : OnOneLine spaceId.toList)
    (hplan : planFork D J files store p (tailOf store p) = .ok (parsed, plan)) (hm : UsableMarker ⟨p, c, plan.sealed.sha256⟩)
    (hapart : ∀ a ∈ [p, c], ∀ b, (histories b).isSome → Apart a b) (hnext : ∀ frames, histories p = some frames → nextOf 1 frames ≤ 10 ^ 18)
    {content : Bytes} (hcontent : files (tailOf store p) = some content) (hsize : content.length < 10 ^ 18)
    (hcollide : ∀ name other, files (segmentOf store name) = some other → D.sha256Hex other = D.sha256Hex content → other = content)
    (hframe : ∀ path ∉ scratch store p c, files' path = files path) {header : Bytes}
    (hheader : header = logHeader (parsed.deflate.getD false) true parsed.spaceId) :
    Branches D J (completedFiles files' store ⟨p, c, plan.sealed.sha256⟩ content
      (preparedContent store ⟨p, c, plan.sealed.sha256⟩ header (textBytes (printRef plan.document)))) store spaceId
      (Database.forked histories p c) := by
  obtain ⟨document', content', parsed', hd, -, hc', hparse, hfork, hr⟩ := planFork_ok_iff.1 hplan
  rw [hcontent, Option.some.injEq] at hc'
  subst hc'
  obtain ⟨rfl, rfl⟩ := Prod.mk.inj hr
  have hsha : (plannedFork D (document'.getD (emptyRef parsed.spaceId.toList)) parsed content).sealed.sha256 = D.sha256Hex content := rfl
  rw [hsha] at hm ⊢
  generalize hF : completedFiles files' store ⟨p, c, D.sha256Hex content⟩ content _ = F
  have hscratch {path : Text} (hs : path ∉ scratch store p c) (ht : path ∉ forkTargets store p c)
      (hseg : path ≠ segmentOf store (D.sha256Hex content)) : F path = files path := by
    rw [← hF, completedFiles_other hseg ht hs, hframe path hs]
  have hsealed : F (segmentOf store (D.sha256Hex content)) = some content := by
    rw [← hF]
    exact completedFiles_segment
  have hsegment {name : Text} (hne : name ≠ D.sha256Hex content) : F (segmentOf store name) = files (segmentOf store name) :=
    hscratch segmentOf_notMem_scratch segmentOf_notMem_targets fun he => hne (fileIn_inj.1 he)
  have hsegments (name : Text) (bytes : Bytes) (hb : files (segmentOf store name) = some bytes) : F (segmentOf store name) = some bytes := by
    by_cases hne : name = D.sha256Hex content
    · obtain rfl := hcollide name bytes hb ((h.named name bytes hb).symm.trans hne)
      rw [hne]
      exact hsealed
    · exact (hsegment hne).trans hb
  -- the files of the two branches
  have htarget {path : Text} (ht : path ∈ forkTargets store p c) : F path = some (preparedContent store
      ⟨p, c, D.sha256Hex content⟩ header (textBytes (printRef
        (plannedFork D (document'.getD (emptyRef parsed.spaceId.toList)) parsed content).document)) path) := by
    rw [← hF]
    exact completedFiles_target ht
  have hbranch {b : Text} (hb : b = p ∨ b = c) {frames : List TransactionFrame} (hh : histories p = some frames) :
      Holds J F store spaceId b frames := by
    obtain ⟨document, sealed, tail, bytes, deflate, hf, rfl, hspace, hreadable, href⟩ := (h.holds p frames hh).folds
    obtain rfl : content = bytes := by
      have := hf.file
      rw [hcontent, Option.some.injEq] at this
      exact this
    obtain ⟨hparsed, -⟩ := hf.log.parsedAs hparse
    have hid : parsed.spaceId.toList = document.spaceId := by rw [hparsed.space, String.toList_ofList]
    have hbase := href.base hm.parent hreadable (hspace ▸ hone) hd
    rw [hid, hbase] at htarget hfork
    have hft : F (tailOf store b) = some (logHeader (parsed.deflate.getD false) true parsed.spaceId) := by
      rw [htarget (by rcases hb with rfl | rfl <;> simp [forkTargets]), preparedContent,
        if_pos (by rcases hb with rfl | rfl <;> simp), hheader]
    have hfr : F (refOf store b) = some (textBytes (printRef (plannedFork D document parsed content).document)) := by
      rw [htarget (by rcases hb with rfl | rfl <;> simp [forkTargets]), preparedContent, if_neg (by simp [tailOf_ne_refOf.symm])]
    have hname : validBranchName b = true := by
      rcases hb with rfl | rfl
      · exact hm.parent
      · exact hm.child
    exact ⟨hname, _, sealed ++ tail, [], _, _, hf.forked hparse hsegments hsealed hft, (List.append_nil _).symm, hspace,
      readable_planned hreadable hfork hparsed.frames hf.ordered hsize (hnext _ hh), Or.inl hfr⟩
  refine ⟨fun name bytes hb => ?_, fun b frames hb => ?_⟩
  · by_cases hne : name = D.sha256Hex content
    · rw [hne, hsealed, Option.some.injEq] at hb
      rw [hne, hb]
    · exact h.named name bytes ((hsegment hne) ▸ hb)
  · unfold Database.forked at hb
    by_cases hbc : b = c
    · rw [if_pos hbc] at hb
      exact hbranch (Or.inr hbc) hb
    · rw [if_neg hbc] at hb
      by_cases hbp : b = p
      · rw [hbp] at hb
        exact hbranch (Or.inl hbp) hb
      · have hap : ∀ a ∈ [p, c], Apart a b := fun a ha => hapart a ha b (by rw [hb]; rfl)
        have hother {path : Text} (hp : path = tailOf store b ∨ path = refOf store b) : F path = files path := by
          rcases hp with rfl | rfl
          · exact hscratch (tailOf_notMem_scratch hap) (by simp [forkTargets, tailOf_inj, tailOf_ne_refOf, hbp, hbc]) tailOf_ne_segment
          · exact hscratch (refOf_notMem_scratch hap) (by simp [forkTargets, refOf_inj, tailOf_ne_refOf.symm, hbp, hbc])
              (fun he => segmentOf_ne_refOf_append [] (by rw [List.append_nil]; exact he.symm))
        exact (h.holds b frames hb).keep (hother (Or.inr rfl)) (fun bytes ht => (hother (Or.inl rfl)).trans ht) hsegments

end Forked

/-! ## Forks anywhere -/

/-- Every branch is folded to its history, or will be when the fork that is on its way is completed. -/
def Kept (D : Digest) (J : Gzip) (store : Text) (spaceId : String) (files : Files)
    (histories : Text → Option (List TransactionFrame)) : Prop :=
  (files (forkMarkerPath store) = none ∧ Branches D J files store spaceId histories) ∨
    ∃ m content contents, UsableMarker m ∧ Underway files store m content contents ∧
      Branches D J (completedFiles files store m content contents) store spaceId histories

section Anywhere

variable {D : Digest} {J : Gzip} {files files' : Files} {store : Text} {spaceId : String}
  {histories : Text → Option (List TransactionFrame)} {p c : Text}

theorem Kept.locked (h : Kept D J store spaceId files histories) (hl : Locked store files files') :
    Kept D J store spaceId files' histories := by
  rcases h with ⟨hm, h⟩ | ⟨m, content, contents, hm, hu, h⟩
  · exact Or.inl ⟨hl.marker.trans hm, h.locked hl⟩
  · exact Or.inr ⟨m, content, contents, hm, hu.locked hl, h.locked hl.completed⟩

/-- The step that makes a fork. -/
abbrev markerMove (store : Text) : FileStep := .move (markerTemporary store) (forkMarkerPath store)

theorem completedFiles_marker {m : ForkMarker} (hm : UsableMarker m) (content : Bytes) (contents : Text → Bytes) :
    completedFiles files store m content contents (forkMarkerPath store) = none := by
  unfold completedFiles
  have hconsumed : forkMarkerPath store ∈ consumed store m := by simp [consumed]
  rw [if_neg segmentOf_ne_marker.1.symm, if_neg fun ht => notMem_scratch_of_targets hm.apart ht (mem_consumed_scratch hconsumed),
    if_pos hconsumed]

/-- What is in place when a fork is completed was there before. -/
theorem Underway.mem_completed {m : ForkMarker} {content : Bytes} {contents : Text → Bytes}
    (h : Underway files store m content contents) {path : Text} {bytes : Bytes}
    (hb : completedFiles files store m content contents path = some bytes) : ∃ other, files other = some bytes := by
  unfold completedFiles at hb
  split at hb
  · cases hb
    rcases h.sealed with hs | ⟨-, ht, -⟩
    · exact ⟨_, hs⟩
    · exact ⟨_, ht⟩
  split at hb
  · rename_i ht
    cases hb
    rcases h.installs path ht with hi | ⟨-, hi⟩
    · exact ⟨_, hi⟩
    · exact ⟨_, hi⟩
  split at hb
  · cases hb
  exact ⟨path, hb⟩

theorem readForkMarker_of_print {m : ForkMarker} (hm : UsableMarker m)
    (hf : files (forkMarkerPath store) = some (textBytes (printForkMarker m))) : readForkMarker files store = .ok (some m) := by
  unfold readForkMarker
  rw [hf]
  simp only [bind, Except.bind]
  rw [strictUtf8String_textBytes]
  dsimp only
  rw [parseForkMarker_printForkMarker hm.parent hm.child hm.different hm.segment]

/-- What is in place once locks are taken was there before, or is a lock. -/
theorem Locked.mem (h : Locked store files files') {path : Text} {bytes : Bytes} (hb : files' path = some bytes) :
    files path = some bytes ∨ bytes = [] ∧ ∃ b, path = tailOf store b ++ ".writer-authority.lock".toList := by
  rcases h path with hs | ⟨-, hs, he⟩
  · exact Or.inl (hs ▸ hb)
  · rw [hs, Option.some.injEq] at hb
    exact Or.inr ⟨hb.symm, he⟩

/-- A fork that is on its way is completed before another, once the locks of the other are taken. -/
theorem Kept.complete (h : Kept D J store spaceId files histories) (hl : Locked store files files') : ∃ steps files'',
    completePending files' store = .ok steps ∧ runSteps files' steps = (files'', .ok ()) ∧ files'' (forkMarkerPath store) = none ∧
    Branches D J files'' store spaceId histories ∧ (∀ n, Kept D J store spaceId (runSteps files' (steps.take n)).1 histories) ∧
    markerMove store ∉ steps ∧ ∀ path bytes, files'' path = some bytes → (∃ other, files other = some bytes) ∨
      bytes = [] ∧ ∃ b, path = tailOf store b ++ ".writer-authority.lock".toList := by
  rcases h with ⟨hm, h⟩ | ⟨m, content, contents, hm, hu, h⟩
  · have hm' : files' (forkMarkerPath store) = none := hl.marker.trans hm
    refine ⟨[], files', ?_, rfl, hm', h.locked hl, fun n => ?_, List.not_mem_nil, fun path bytes hb => ?_⟩
    · unfold completePending readForkMarker
      rw [hm']
      rfl
    · rw [List.take_nil]
      exact Or.inl ⟨hm', h.locked hl⟩
    · exact (hl.mem hb).imp_left fun hb => ⟨path, hb⟩
  · have hu' := hu.locked hl
    obtain ⟨hok, -, hdone⟩ := hu'.take hm 7
    rw [List.take_of_length_le (by rw [length_completing])] at hok hdone
    refine ⟨completing store m, completedFiles files' store m content contents, ?_, Prod.ext (hdone (le_refl _)) hok,
      completedFiles_marker hm content contents, h.locked hl.completed, fun n => ?_, ?_, fun path bytes hb => ?_⟩
    · unfold completePending
      rw [readForkMarker_of_print hm hu'.marker]
      exact completeFork_ok hm.parent hm.child hm.segment
    · obtain ⟨-, hway, hend⟩ := hu'.take hm n
      rcases Nat.lt_or_ge n 7 with hn | hn
      · exact Or.inr ⟨m, content, contents, hm, hway hn, (completedFiles_take n).symm ▸ h.locked hl.completed⟩
      · rw [hend hn]
        exact Or.inl ⟨completedFiles_marker hm content contents, h.locked hl.completed⟩
    · simp [completing, installing, forkTargets]
    · exact (hl.completed.mem hb).imp_left fun hb => hu.mem_completed hb

/-- What a fork does when no other is pending. -/
theorem forkBranch_ok (hp : validBranchName p = true) (hc : validBranchName c = true) (hne : p ≠ c)
    (hapart : ∀ a ∈ [p, c], ∀ b ∈ [p, c], Apart a b) {steps : List FileStep} {receipt : ForkReceipt}
    (h : forkBranch D J files store p c (pathsOf store p c) = .ok (steps, receipt)) : ∃ parsed plan,
      planFork D J files store p (tailOf store p) = .ok (parsed, plan) ∧ UsableMarker ⟨p, c, plan.sealed.sha256⟩ ∧
      steps = preparing store (pathsOf store p c) parsed plan ⟨p, c, plan.sealed.sha256⟩ ++
        ([markerMove store] ++ completing store ⟨p, c, plan.sealed.sha256⟩) := by
  unfold forkBranch at h
  split at h
  · cases h
  obtain ⟨⟨parsed, plan⟩, hplan, h⟩ := ExceptList.bind_eq_ok_iff.1 h
  have hm : UsableMarker ⟨p, c, plan.sealed.sha256⟩ := by
    refine ⟨hp, hc, hne, ?_, hapart⟩
    obtain ⟨document, content, parsed', -, -, -, -, -, hr⟩ := planFork_ok_iff.1 hplan
    obtain ⟨-, rfl⟩ := Prod.mk.inj hr
    exact D.valid content
  dsimp only at h
  rw [completeFork_ok hp hc hm.segment] at h
  refine ⟨parsed, plan, hplan, hm, ?_⟩
  have := (Prod.mk.inj (Except.ok.inj h)).1
  rw [← this, prepareFork_eq, List.append_assoc]

/-- A fork whose files are prepared is on its way. -/
theorem underway_of_prepared {m : ForkMarker} {content : Bytes} {contents : Text → Bytes} (hm : UsableMarker m)
    (hmarked : files' (forkMarkerPath store) = some (textBytes (printForkMarker m)))
    (hprepared : ∀ path ∈ forkTargets store m.parent m.child, files' (forkPendingPath path) = some (contents path))
    (hframe : ∀ path ∉ scratch store m.parent m.child, files' path = files path) (hcontent : files (tailOf store m.parent) = some content)
    (hcollide : ∀ other, files (segmentOf store m.segment) = some other → other = content) : Underway files' store m content contents := by
  refine ⟨hmarked, ?_, fun path hpath => Or.inl (hprepared path hpath)⟩
  rw [hframe _ segmentOf_notMem_scratch]
  have htail : files' (tailOf store m.parent) = some content := by
    rw [hframe _ (tailOf_notMem_scratch fun a ha => hm.apart a ha m.parent (by simp)), hcontent]
  cases hs : files (segmentOf store m.segment) with
  | none => exact Or.inr ⟨rfl, htail, hprepared _ (by simp [forkTargets])⟩
  | some other =>
    rw [hcollide other hs]
    exact Or.inl rfl

/-- The first operations of a fork leave the branches as they are, and those behind its marker give parent and child the history of the
parent. -/
theorem Branches.forkAnywhere (h : Branches D J files store spaceId histories) (hm : files (forkMarkerPath store) = none)
    (hone : OnOneLine spaceId.toList) (hp : validBranchName p = true) (hc : validBranchName c = true) (hne : p ≠ c)
    (hapart : ∀ a ∈ [p, c], ∀ b ∈ [p, c], Apart a b) (hapart' : ∀ a ∈ [p, c], ∀ b, (histories b).isSome → Apart a b)
    (hnext : ∀ frames, histories p = some frames → nextOf 1 frames ≤ 10 ^ 18)
    (hsize : ∀ content, files (tailOf store p) = some content → content ≠ [] → content.length < 10 ^ 18 ∧
      ∀ name other, files (segmentOf store name) = some other → D.sha256Hex other = D.sha256Hex content → other = content)
    {steps : List FileStep} {receipt : ForkReceipt}
    (hf : Database.forkBranch D J files store p c (pathsOf store p c) = .ok (steps, receipt)) :
    ∃ before after, steps = before ++ ([markerMove store] ++ after) ∧ markerMove store ∉ before ∧
      (∀ n, Kept D J store spaceId (runSteps files (before.take n)).1 histories) ∧
      ∀ n, Kept D J store spaceId (runSteps files (before ++ ([markerMove store] ++ after.take n))).1 (Database.forked histories p c) := by
  obtain ⟨parsed, plan, hplan, hmarker, rfl⟩ := forkBranch_ok hp hc hne hapart hf
  obtain ⟨document, content, parsed', hd, -, hcontent, hparse, hfork, hr⟩ := planFork_ok_iff.1 hplan
  obtain ⟨rfl, hplan'⟩ := Prod.mk.inj hr
  obtain ⟨spaceId', deflate, continuation, frames, rest, hlog, -⟩ := isLog_of_parse hparse
  obtain ⟨hparsed, -⟩ := hlog.parsedAs hparse
  have hnonempty : content ≠ [] := by
    rintro rfl
    obtain ⟨stored, hb, -⟩ := hlog.records
    have := congrArg List.length hb
    rw [List.length_nil, List.length_append, length_logHeader] at this
    omega
  obtain ⟨hlength, hcollide⟩ := hsize content hcontent hnonempty
  have hcreate := hparsed.header hlog.space hlog.size
  refine ⟨_, _, rfl, fun hmem => ?_, fun n => ?_, fun n => ?_⟩
  · have hin : forkMarkerPath store ∈ (markerMove store).footprint := by simp [FileStep.footprint]
    exact (footprint_preparing (m := ⟨p, c, plan.sealed.sha256⟩) hmem hin).2 rfl
  · have hframe {path : Text} (hpath : path ∉ scratch store p c ∨ path = forkMarkerPath store) : (runSteps files ((preparing store
        (pathsOf store p c) parsed plan ⟨p, c, plan.sealed.sha256⟩).take n)).1 path = files path := by
      refine runSteps_frame (fun step hs hmem => ?_) files
      obtain ⟨h1, h2⟩ := footprint_preparing (m := ⟨p, c, plan.sealed.sha256⟩) (List.mem_of_mem_take hs) hmem
      rcases hpath with hpath | hpath
      · exact hpath h1
      · exact h2 hpath
    refine Or.inl ⟨(hframe (Or.inr rfl)).trans hm, h.keep (fun b hb => ?_) (fun b hb bytes ht => ?_) fun name => ?_⟩
    · exact hframe (Or.inl (refOf_notMem_scratch fun a ha => hapart' a ha b hb))
    · rw [hframe (Or.inl (tailOf_notMem_scratch fun a ha => hapart' a ha b hb))]
      exact ht
    · exact hframe (Or.inl segmentOf_notMem_scratch)
  · obtain ⟨files', hrun, hmarked, hprepared, hframe⟩ := @prepared files store _ parsed plan _ hmarker.different hcreate
    have hforked := h.forked hone hplan hmarker hapart' hnext hcontent hlength hcollide hframe rfl
    have hway := underway_of_prepared hmarker hmarked hprepared hframe hcontent fun other hs => by
      have hname := h.named _ _ hs
      rw [hplan'] at hname
      exact hcollide _ other hs hname.symm
    rw [← List.append_assoc, ← prepareFork_eq]
    rw [runSteps_append hrun]
    obtain ⟨-, hbefore, hend⟩ := hway.take hmarker n
    rcases Nat.lt_or_ge n 7 with hn | hn
    · exact Or.inr ⟨_, content, _, hmarker, hbefore hn, (completedFiles_take n).symm ▸ hforked⟩
    · rw [hend hn]
      exact Or.inl ⟨completedFiles_marker hmarker content _, hforked⟩

/-- The first of two lists is cut, or the second is. -/
theorem take_append_cases {α : Type} (xs ys : List α) (n : Nat) :
    (xs ++ ys).take n = xs.take n ∨ ∃ k, (xs ++ ys).take n = xs ++ ys.take (k + 1) := by
  rw [List.take_append]
  rcases Nat.lt_or_ge xs.length n with h | h
  · obtain ⟨k, hk⟩ : ∃ k, n - xs.length = k + 1 := ⟨n - xs.length - 1, by omega⟩
    exact Or.inr ⟨k, by rw [hk, List.take_of_length_le h.le]⟩
  · exact Or.inl (by rw [Nat.sub_eq_zero_of_le h, List.take_zero, List.append_nil])

/-- A fork may be made after what it finds: the names of its branches are apart from all others, and the tail of the parent can be
recorded as a segment. -/
structure MayFork (D : Digest) (files : Files) (histories : Text → Option (List TransactionFrame)) (p c : Text) : Prop where
  apart : ∀ a ∈ [p, c], ∀ b, b = p ∨ b = c ∨ (histories b).isSome = true → Apart a b
  digests : Digestible D files
  sequences : ∀ frames, histories p = some frames → nextOf 1 frames ≤ 10 ^ 18

/-- The histories after so many operations of a fork. -/
abbrev historiesAfter (store p c : Text) (histories : Text → Option (List TransactionFrame)) (steps : List FileStep) :
    Text → Option (List TransactionFrame) := if markerMove store ∈ steps then Database.forked histories p c else histories

/-- What a fork does once the fork before it is completed. -/
theorem forkLocked_of_error {first : List FileStep} {paths : ForkPaths} {fault : Fault} {files'' : Files}
    (hc : completePending files' store = .ok first) (hr : runSteps files' first = (files'', .ok ()))
    (hf : Database.forkBranch D J files'' store p c paths = .error fault) :
    forkLocked D J files' store p c paths = ⟨first, .error fault⟩ := by
  unfold forkLocked
  rw [hc]
  dsimp only
  rw [hr]
  dsimp only
  rw [hf]

theorem forkLocked_of_ok {first : List FileStep} {paths : ForkPaths} {r : List FileStep × ForkReceipt} {files'' : Files}
    (hc : completePending files' store = .ok first) (hr : runSteps files' first = (files'', .ok ()))
    (hf : Database.forkBranch D J files'' store p c paths = .ok r) :
    forkLocked D J files' store p c paths = ⟨first ++ r.1, (runSteps files'' r.1).2.map fun _ => r.2⟩ := by
  unfold forkLocked
  rw [hc]
  dsimp only
  rw [hr]
  dsimp only
  rw [hf]

/-- Steps before the marker change no history. -/
theorem historiesAfter_append {steps more : List FileStep} (h : markerMove store ∉ steps) :
    historiesAfter store p c histories (steps ++ more) = historiesAfter store p c histories more := by
  simp only [historiesAfter, List.mem_append, h, false_or]

/-- A fork whose locks are taken may be interrupted anywhere. -/
theorem Kept.lockedFork (h : Kept D J store spaceId files histories) (hl : Locked store files files') (hone : OnOneLine spaceId.toList)
    (hp : validBranchName p = true) (hc : validBranchName c = true) (hne : p ≠ c) (hfork : MayFork D files histories p c) (n : Nat) :
    Kept D J store spaceId (runSteps files' ((Database.forkLocked D J files' store p c (pathsOf store p c)).steps.take n)).1
      (historiesAfter store p c histories ((Database.forkLocked D J files' store p c (pathsOf store p c)).steps.take n)) := by
  obtain ⟨first, files₂, hcomplete, hrun, hmarker, hbranches, hkept, hfirst, hmem⟩ := h.complete hl
  have hfirst' (n : Nat) : markerMove store ∉ first.take n := fun hm => hfirst (List.mem_of_mem_take hm)
  cases hb : Database.forkBranch D J files₂ store p c (pathsOf store p c) with
  | error fault =>
    rw [forkLocked_of_error hcomplete hrun hb]
    unfold historiesAfter
    rw [if_neg (hfirst' n)]
    exact hkept n
  | ok r =>
    obtain ⟨steps, receipt⟩ := r
    rw [forkLocked_of_ok hcomplete hrun hb]
    unfold historiesAfter
    dsimp only
    have hsize (content : Bytes) (hcontent : files₂ (tailOf store p) = some content) (hnonempty : content ≠ []) :
        content.length < 10 ^ 18 ∧ ∀ name other, files₂ (segmentOf store name) = some other →
          D.sha256Hex other = D.sha256Hex content → other = content := by
      rcases hmem _ _ hcontent with ⟨path, hpath⟩ | ⟨he, -⟩
      · obtain ⟨hlength, hdigest⟩ := hfork.digests path content hpath
        refine ⟨hlength, fun name other ho he => ?_⟩
        rcases hmem _ _ ho with ⟨path', hpath'⟩ | ⟨-, b, hlock⟩
        · exact hdigest path' other hpath' he
        · exact absurd hlock (segmentOf_ne_tailOf_append (by simp [derivedSuffixes]))
      · exact absurd he hnonempty
    obtain ⟨before, after, rfl, hbefore, hkeptBefore, hkeptAfter⟩ := hbranches.forkAnywhere hmarker hone hp hc hne
      (fun a ha b hb => hfork.apart a ha b (by simp only [List.mem_cons, List.not_mem_nil, or_false] at hb; tauto))
      (fun a ha b hb => hfork.apart a ha b (Or.inr (Or.inr hb))) hfork.sequences hsize hb
    rcases take_append_cases first (before ++ ([markerMove store] ++ after)) n with hn | ⟨k, hk⟩
    · rw [hn, if_neg (hfirst' n)]
      exact hkept n
    · rw [hk, runSteps_append hrun]
      rcases take_append_cases before ([markerMove store] ++ after) (k + 1) with hn | ⟨j, hj⟩
      · rw [hn, if_neg]
        · exact hkeptBefore (k + 1)
        · rw [List.mem_append, not_or]
          exact ⟨hfirst, fun hm => hbefore (List.mem_of_mem_take hm)⟩
      · rw [hj, List.singleton_append, List.take_succ_cons, if_pos (by simp)]
        exact hkeptAfter j

theorem forkPaths_cases (store p c : Text) : (∃ fault, forkPaths store p c = .error fault) ∨
    (validBranchName p = true ∧ validBranchName c = true ∧ forkPaths store p c = .ok (pathsOf store p c)) := by
  unfold forkPaths branchTailPath requireBranchName branchFail
  by_cases hp : validBranchName p = true
  · by_cases hc : validBranchName c = true
    · rw [if_pos hp, if_pos hc, refPath_ok hp, refPath_ok hc]
      exact Or.inr ⟨hp, hc, rfl⟩
    · rw [if_pos hp, if_neg hc]
      exact Or.inl ⟨_, rfl⟩
  · rw [if_neg hp]
    exact Or.inl ⟨_, rfl⟩

/-- A fork of two usable names takes its locks first. -/
theorem forkStore_eq (hp : validBranchName p = true) (hc : validBranchName c = true) (hne : p ≠ c) : forkStore D J files store p c =
    ⟨acquiring store p c ++ (forkLocked D J (runSteps files (acquiring store p c)).1 store p c (pathsOf store p c)).steps,
      (forkLocked D J (runSteps files (acquiring store p c)).1 store p c (pathsOf store p c)).answer⟩ := by
  unfold forkStore
  rcases forkPaths_cases store p c with ⟨fault, h⟩ | ⟨-, -, h⟩
  · unfold forkPaths at h
    rw [branchTailPath_ok hp, branchTailPath_ok hc, refPath_ok hp, refPath_ok hc] at h
    cases h
  · rw [h]
    dsimp only
    rw [if_neg hne]
    rfl

/-- What a fork does when no other is pending has its marker among it. -/
theorem markerMove_mem_forkBranch {paths : ForkPaths} {r : List FileStep × ForkReceipt}
    (h : Database.forkBranch D J files store p c paths = .ok r) : markerMove store ∈ r.1 := by
  unfold Database.forkBranch at h
  split at h
  · cases h
  obtain ⟨⟨parsed, plan⟩, -, h⟩ := ExceptList.bind_eq_ok_iff.1 h
  obtain ⟨steps, -, h⟩ := ExceptList.bind_eq_ok_iff.1 h
  obtain rfl := Except.ok.inj h
  simp [prepareFork, writeTextDurable, markerTemporary]

/-- A fork that answers a receipt has written its marker. -/
theorem markerMove_mem_of_receipt {receipt : ForkReceipt} (h : (forkStore D J files store p c).answer = .ok receipt) :
    markerMove store ∈ (forkStore D J files store p c).steps := by
  unfold forkStore at h ⊢
  cases hp : forkPaths store p c with
  | error fault =>
    rw [hp] at h
    cases h
  | ok paths =>
    rw [hp] at h
    dsimp only at h ⊢
    split at h
    · cases h
    rename_i hne
    rw [if_neg hne]
    refine List.mem_append_right _ ?_
    dsimp only at h ⊢
    unfold forkLocked at h ⊢
    generalize (runSteps files _).1 = locked at h ⊢
    cases hc : completePending locked store with
    | error fault =>
      rw [hc] at h
      cases h
    | ok first =>
      rw [hc] at h
      dsimp only at h ⊢
      cases hr : (runSteps locked first).2 with
      | error fault =>
        rw [hr] at h
        cases h
      | ok _ =>
        rw [hr] at h
        dsimp only at h ⊢
        cases hb : Database.forkBranch D J (runSteps locked first).1 store p c paths with
        | error fault =>
          rw [hb] at h
          cases h
        | ok r => exact List.mem_append_right _ (markerMove_mem_forkBranch hb)

/-- **A fork may be interrupted anywhere.** -/
theorem Kept.fork (h : Kept D J store spaceId files histories) (hone : OnOneLine spaceId.toList)
    (hfork : MayFork D files histories p c) (n : Nat) :
    Kept D J store spaceId (runSteps files ((forkStore D J files store p c).steps.take n)).1
      (historiesAfter store p c histories ((forkStore D J files store p c).steps.take n)) := by
  have hnone (answer : Except Fault ForkReceipt) (he : forkStore D J files store p c = ⟨[], answer⟩) :
      Kept D J store spaceId (runSteps files ((forkStore D J files store p c).steps.take n)).1
        (historiesAfter store p c histories ((forkStore D J files store p c).steps.take n)) := by
    rw [he, List.take_nil]
    unfold historiesAfter
    rw [if_neg List.not_mem_nil]
    exact h
  rcases forkPaths_cases store p c with ⟨fault, hpaths⟩ | ⟨hp, hc, hpaths⟩
  · exact hnone (.error fault) (by unfold forkStore; rw [hpaths])
  by_cases hne : p = c
  · exact hnone _ (by unfold forkStore; rw [hpaths]; dsimp only; rw [if_pos hne])
  obtain ⟨hok, hlocked⟩ := @runSteps_locks store (acquiring store p c) (fun _ => mem_acquiring) files
  have hlock (n : Nat) : markerMove store ∉ (acquiring store p c).take n := by
    intro hm
    obtain ⟨b, hb⟩ := mem_acquiring (List.mem_of_mem_take hm)
    cases hb
  rw [forkStore_eq hp hc hne]
  dsimp only
  rcases take_append_cases (acquiring store p c) (Database.forkLocked D J (runSteps files (acquiring store p c)).1 store p c
    (pathsOf store p c)).steps n with hn | ⟨k, hk⟩
  · rw [hn]
    unfold historiesAfter
    rw [if_neg (hlock n)]
    exact h.locked (runSteps_locks (fun _ hs => mem_acquiring (List.mem_of_mem_take hs)) files).2
  · rw [hk, runSteps_append (Prod.ext rfl hok)]
    rw [historiesAfter_append fun hm => hlock (acquiring store p c).length (by rwa [List.take_length])]
    exact h.lockedFork hlocked hone hp hc hne hfork (k + 1)

end Anywhere

end Fram.Database
