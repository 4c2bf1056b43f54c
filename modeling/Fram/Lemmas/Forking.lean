import Fram.Lemmas.ForkPaths

/-!
# The steps of a fork

A fork prepares its files beside those of the store, writes its marker, and installs what it prepared. Up to the marker no file of a
branch has changed (`runSteps_frame`); from the marker on every state of the files is on the way to one and the same end
(`Pending.take`), which completing reaches from any of them (`Pending.complete`).
-/

namespace Fram.Database

open Lines (Text)

/-! ## Steps -/

/-- The paths that a step may change. -/
def FileStep.footprint : FileStep → List Text
  | .lock path => [path]
  | .create path _ _ _ => [path]
  | .write path _ => [path]
  | .move source target => [source, target]
  | .sealTail tail sealed => [tail, sealed]
  | .install pending target => [pending, target]
  | .delete path => [path]

section Steps

variable {files files' : Files} {path : Text}

theorem moveAtomically_frame {source target : Text} (h : moveAtomically files source target = .ok files') (hs : path ≠ source)
    (ht : path ≠ target) : files' path = files path := by
  unfold moveAtomically at h
  split at h
  · cases h
  · cases h
    rw [put_ne ht, put_ne hs]

/-- A step leaves every path outside its footprint as it was. -/
theorem FileStep.run_frame {step : FileStep} (h : step.run files = .ok files') (hp : path ∉ step.footprint) : files' path = files path := by
  cases step with
  | lock p =>
    cases h
    exact put_ne (by simpa [FileStep.footprint] using hp) _
  | create p spaceId deflate continuation =>
    unfold FileStep.run at h
    dsimp only at h
    split at h
    · cases h
    · obtain ⟨header, -, h⟩ := ExceptList.bind_eq_ok_iff.1 h
      cases h
      exact put_ne (by simpa [FileStep.footprint] using hp) _
  | write p content =>
    cases h
    exact put_ne (by simpa [FileStep.footprint] using hp) _
  | move source target =>
    simp only [FileStep.footprint, List.mem_cons, List.not_mem_nil, or_false, not_or] at hp
    exact moveAtomically_frame h hp.1 hp.2
  | sealTail tail sealed =>
    simp only [FileStep.footprint, List.mem_cons, List.not_mem_nil, or_false, not_or] at hp
    unfold FileStep.run at h
    dsimp only at h
    split at h
    · cases h
      rfl
    · exact moveAtomically_frame h hp.1 hp.2
  | install pending target =>
    simp only [FileStep.footprint, List.mem_cons, List.not_mem_nil, or_false, not_or] at hp
    unfold FileStep.run at h
    dsimp only at h
    split at h
    · exact moveAtomically_frame h hp.1 hp.2
    · cases h
      rfl
  | delete p =>
    cases h
    exact put_ne (by simpa [FileStep.footprint] using hp) _

/-- Steps leave every path outside their footprints as it was, wherever they end. -/
theorem runSteps_frame {steps : List FileStep} (hp : ∀ step ∈ steps, path ∉ step.footprint) (files : Files) :
    (runSteps files steps).1 path = files path := by
  induction steps generalizing files with
  | nil => rfl
  | cons step steps ih =>
    rw [List.forall_mem_cons] at hp
    unfold runSteps
    cases h : step.run files with
    | error fault => rfl
    | ok files' => exact (ih hp.2 files').trans (FileStep.run_frame h hp.1)

/-- Steps that succeed, and then more. -/
theorem runSteps_append {steps : List FileStep} (h : runSteps files steps = (files', .ok ())) (more : List FileStep) :
    runSteps files (steps ++ more) = runSteps files' more := by
  induction steps generalizing files with
  | nil =>
    cases h
    rfl
  | cons step steps ih =>
    rw [List.cons_append]
    rw [runSteps] at h ⊢
    cases hs : step.run files with
    | error fault =>
      rw [hs] at h
      cases h
    | ok files₁ =>
      rw [hs] at h
      exact ih h

/-- The first of some steps that succeed, and then of more. -/
theorem runSteps_take_append {steps more : List FileStep} (h : (runSteps files steps).2 = .ok ()) (n : Nat) :
    runSteps files ((steps ++ more).take n) = if n ≤ steps.length then runSteps files (steps.take n)
      else runSteps (runSteps files steps).1 (more.take (n - steps.length)) := by
  rw [List.take_append]
  split
  · rename_i hn
    rw [Nat.sub_eq_zero_of_le hn, List.take_zero, List.append_nil]
  · rename_i hn
    rw [List.take_of_length_le (by omega)]
    exact runSteps_append (Prod.ext rfl h) _

end Steps

/-! ## Installing prepared files -/

/-- The content is prepared for a path, or installed there. -/
def Installs (files : Files) (path : Text) (content : Bytes) : Prop :=
  files (forkPendingPath path) = some content ∨ (files (forkPendingPath path) = none ∧ files path = some content)

/-- The steps that install files at paths. -/
def installing (paths : List Text) : List FileStep := paths.map fun path => .install (forkPendingPath path) path

/-- The paths, and those of the files prepared for them, are all different. -/
def Unmixed (paths : List Text) : Prop := (paths ++ paths.map forkPendingPath).Nodup

section Installing

variable {files : Files} {path : Text} {content : Bytes}

theorem pending_ne (path : Text) : forkPendingPath path ≠ path := fun h => store_ne_append (by decide) h.symm

/-- A file is installed, if it is not yet. -/
theorem Installs.run (h : Installs files path content) : ∃ files', FileStep.run files (.install (forkPendingPath path) path) = .ok files' ∧
    files' (forkPendingPath path) = none ∧ files' path = some content := by
  have hne := pending_ne path
  simp only [FileStep.run, moveAtomically]
  rcases h with h | ⟨h, hi⟩
  · rw [h]
    exact ⟨_, rfl, by rw [put_ne hne, put_self], by rw [put_self]⟩
  · rw [h]
    exact ⟨files, rfl, h, hi⟩

theorem installing_footprint {paths : List Text} {step : FileStep} (hs : step ∈ installing paths) :
    ∃ p ∈ paths, step.footprint = [forkPendingPath p, p] := by
  obtain ⟨p, hp, rfl⟩ := List.mem_map.1 hs
  exact ⟨p, hp, rfl⟩

/-- Prepared files are installed, any number of them. -/
theorem installing_take {paths : List Text} {contents : Text → Bytes} (hn : Unmixed paths)
    (h : ∀ p ∈ paths, Installs files p (contents p)) (n : Nat) : (runSteps files ((installing paths).take n)).2 = .ok () ∧
      (∀ p ∈ paths, Installs (runSteps files ((installing paths).take n)).1 p (contents p)) ∧
      (paths.length ≤ n → ∀ p ∈ paths, (runSteps files ((installing paths).take n)).1 (forkPendingPath p) = none ∧
        (runSteps files ((installing paths).take n)).1 p = some (contents p)) := by
  induction paths generalizing files n with
  | nil => exact ⟨by simp [installing, runSteps], by simp, by simp⟩
  | cons path paths ih =>
    cases n with
    | zero => exact ⟨rfl, h, fun hl => by simp at hl⟩
    | succ n =>
      rw [List.forall_mem_cons] at h
      obtain ⟨files', hrun, hpend, htarget⟩ := h.1.run
      have hn' : Unmixed paths := by
        unfold Unmixed at hn ⊢
        rw [List.map_cons, List.cons_append, List.nodup_cons] at hn
        exact (List.nodup_middle.1 hn.2).of_cons
      -- the other paths are not in the footprint of the step
      have hother : ∀ p ∈ paths, p ≠ path ∧ p ≠ forkPendingPath path ∧ forkPendingPath p ≠ path ∧ forkPendingPath p ≠ forkPendingPath path := by
        intro p hp
        unfold Unmixed at hn
        rw [List.map_cons, List.cons_append, List.nodup_cons, List.mem_append, not_or] at hn
        obtain ⟨⟨h1, h2⟩, h3⟩ := hn
        have h4 := List.nodup_middle.1 h3
        rw [List.nodup_cons, List.mem_append, not_or] at h4
        rw [List.mem_cons, not_or] at h2
        refine ⟨fun he => h1 (he ▸ hp), fun he => h4.1.1 (he ▸ hp), fun he => h2.2 (he ▸ List.mem_map_of_mem hp),
          fun he => h4.1.2 (he ▸ List.mem_map_of_mem hp)⟩
      have hframe {p : Text} (h1 : p ≠ path) (h2 : p ≠ forkPendingPath path) : files' p = files p :=
        FileStep.run_frame hrun (by simp [FileStep.footprint, h1, h2])
      have hrest : ∀ p ∈ paths, Installs files' p (contents p) := by
        intro p hp
        obtain ⟨h1, h2, h3, h4⟩ := hother p hp
        unfold Installs
        rw [hframe h1 h2, hframe h3 h4]
        exact h.2 p hp
      obtain ⟨hok, hinst, hdone⟩ := ih hn' hrest n
      have hrun' : runSteps files ((installing (path :: paths)).take (n + 1)) = runSteps files' ((installing paths).take n) := by
        rw [installing, List.map_cons, List.take_succ_cons, runSteps, hrun]
        rfl
      rw [hrun']
      have hkeep : (runSteps files' ((installing paths).take n)).1 path = some (contents path) ∧
          (runSteps files' ((installing paths).take n)).1 (forkPendingPath path) = none := by
        constructor
        · rw [runSteps_frame, htarget]
          intro step hs
          obtain ⟨p, hp, hf⟩ := installing_footprint (List.mem_of_mem_take hs)
          obtain ⟨h1, -, h3, -⟩ := hother p hp
          rw [hf]
          simp [h1.symm, h3.symm]
        · rw [runSteps_frame, hpend]
          intro step hs
          obtain ⟨p, hp, hf⟩ := installing_footprint (List.mem_of_mem_take hs)
          obtain ⟨-, h2, -, h4⟩ := hother p hp
          rw [hf]
          simp [h2.symm, h4.symm]
      refine ⟨hok, List.forall_mem_cons.2 ⟨Or.inr ⟨hkeep.2, hkeep.1⟩, hinst⟩, fun hl => List.forall_mem_cons.2 ⟨⟨hkeep.2, hkeep.1⟩, hdone ?_⟩⟩
      simpa using hl

end Installing

/-! ## Completing -/

/-- The operations that complete a fork. -/
def completing (store : Text) (m : ForkMarker) : List FileStep :=
  [.sealTail (tailOf store m.parent) (segmentOf store m.segment)] ++ (installing (forkTargets store m.parent m.child) ++
    [.delete (snapshotPath (tailOf store m.parent)), .delete (forkMarkerPath store)])

/-- The files that completing a fork takes away. -/
def consumed (store : Text) (m : ForkMarker) : List Text :=
  [forkMarkerPath store, snapshotPath (tailOf store m.parent)] ++ (forkTargets store m.parent m.child).map forkPendingPath

section Membership

/-- A path is among others when it is one of them. -/
local instance memDecidable (path : Text) (paths : List Text) : Decidable (path ∈ paths) :=
  decidable_of_iff (paths.any (fun other => decide (other = path)) = true) (by simp)

/-- The files after a fork is completed: what it sealed and what it installed are in place. -/
def completedFiles (files : Files) (store : Text) (m : ForkMarker) (content : Bytes) (contents : Text → Bytes) : Files := fun path =>
  if path = segmentOf store m.segment then some content
  else if path ∈ forkTargets store m.parent m.child then some (contents path)
  else if path ∈ consumed store m then none
  else files path

end Membership

/-- The marker names two branches and a segment that there can be, and the branches are apart. -/
structure UsableMarker (m : ForkMarker) : Prop where
  parent : validBranchName m.parent = true
  child : validBranchName m.child = true
  different : m.parent ≠ m.child
  segment : validSegmentName m.segment = true
  apart : ∀ a ∈ [m.parent, m.child], ∀ b ∈ [m.parent, m.child], Apart a b

/-- A fork is made and not yet completed: the tail is sealed or still there, and what is not yet installed is prepared. -/
structure Underway (files : Files) (store : Text) (m : ForkMarker) (content : Bytes) (contents : Text → Bytes) : Prop where
  marker : files (forkMarkerPath store) = some (textBytes (printForkMarker m))
  sealed : files (segmentOf store m.segment) = some content ∨ (files (segmentOf store m.segment) = none ∧
    files (tailOf store m.parent) = some content ∧
    files (forkPendingPath (tailOf store m.parent)) = some (contents (tailOf store m.parent)))
  installs : ∀ path ∈ forkTargets store m.parent m.child, Installs files path (contents path)

section Completing

variable {files files' : Files} {store path : Text} {m : ForkMarker} {content : Bytes} {contents : Text → Bytes}

theorem completeFork_ok (hp : validBranchName m.parent = true) (hc : validBranchName m.child = true)
    (hs : validSegmentName m.segment = true) : completeFork store m = .ok (completing store m) := by
  have hsegment : segmentPath store m.segment = .ok (segmentOf store m.segment) := if_pos hs
  unfold completeFork forkPaths
  rw [branchTailPath_ok hp, branchTailPath_ok hc, refPath_ok hp, refPath_ok hc, hsegment]
  rfl

theorem length_completing : (completing store m).length = 7 := rfl

theorem mem_consumed_scratch (h : path ∈ consumed store m) : path ∈ scratch store m.parent m.child := by
  rw [consumed, List.mem_append] at h
  rcases h with h | h
  · simp only [List.mem_cons, List.not_mem_nil, or_false] at h
    rw [scratch]
    rcases h with rfl | rfl <;> simp
  · exact mem_targets_pending h

theorem UsableMarker.unmixed (h : UsableMarker m) : Unmixed (forkTargets store m.parent m.child) := by
  have hn : (forkTargets store m.parent m.child).Nodup := forkTargets_nodup h.different
  refine List.Nodup.append hn (hn.map fun a b he => forkPendingPath_inj.1 he) fun path hp hpend => ?_
  exact notMem_scratch_of_targets h.apart hp (mem_targets_pending hpend)

/-- Completing changes the segment, the files that are installed and those that are taken away. -/
theorem footprint_completing {step : FileStep} (hs : step ∈ completing store m) (hp : path ∈ step.footprint) :
    path = segmentOf store m.segment ∨ path ∈ forkTargets store m.parent m.child ∨ path ∈ consumed store m := by
  simp only [completing, List.mem_append, List.mem_cons, List.not_mem_nil, or_false] at hs
  rcases hs with rfl | hs | rfl | rfl
  · simp only [FileStep.footprint, List.mem_cons, List.not_mem_nil, or_false] at hp
    rcases hp with rfl | rfl
    · exact Or.inr (Or.inl (by simp [forkTargets]))
    · exact Or.inl rfl
  · obtain ⟨target, ht, hf⟩ := installing_footprint hs
    rw [hf] at hp
    simp only [List.mem_cons, List.not_mem_nil, or_false] at hp
    rcases hp with rfl | rfl
    · exact Or.inr (Or.inr (List.mem_append_right _ (List.mem_map_of_mem ht)))
    · exact Or.inr (Or.inl ht)
  · simp only [FileStep.footprint, List.mem_cons, List.not_mem_nil, or_false] at hp
    exact Or.inr (Or.inr (by rw [hp, consumed]; simp))
  · simp only [FileStep.footprint, List.mem_cons, List.not_mem_nil, or_false] at hp
    exact Or.inr (Or.inr (by rw [hp, consumed]; simp))

/-- Where a fork ends does not depend on the files that completing it changes. -/
theorem completedFiles_congr (h : ∀ path, path ≠ segmentOf store m.segment → path ∉ forkTargets store m.parent m.child →
    path ∉ consumed store m → files' path = files path) :
    completedFiles files' store m content contents = completedFiles files store m content contents := by
  funext path
  unfold completedFiles
  split
  · rfl
  rename_i hs
  split
  · rfl
  rename_i ht
  split
  · rfl
  rename_i hc
  exact h path hs ht hc

theorem completedFiles_segment : completedFiles files store m content contents (segmentOf store m.segment) = some content := if_pos rfl

theorem completedFiles_target (h : path ∈ forkTargets store m.parent m.child) :
    completedFiles files store m content contents path = some (contents path) := by
  unfold completedFiles
  rw [if_neg (fun he => segmentOf_notMem_targets (he ▸ h)), if_pos h]

theorem completedFiles_other (hs : path ≠ segmentOf store m.segment) (ht : path ∉ forkTargets store m.parent m.child)
    (hc : path ∉ scratch store m.parent m.child) : completedFiles files store m content contents path = files path := by
  unfold completedFiles
  rw [if_neg hs, if_neg ht, if_neg fun h => hc (mem_consumed_scratch h)]

/-- Any number of the operations that complete a fork leave it with the same end. -/
theorem completedFiles_take (n : Nat) : completedFiles (runSteps files ((completing store m).take n)).1 store m content contents =
      completedFiles files store m content contents := by
  refine completedFiles_congr fun path hs ht hc => runSteps_frame (fun step hstep hp => ?_) files
  rcases footprint_completing (List.mem_of_mem_take hstep) hp with h | h | h
  · exact hs h
  · exact ht h
  · exact hc h

/-- The tail is sealed, if it is not yet. -/
theorem Underway.sealTail (h : Underway files store m content contents) (hm : UsableMarker m) : ∃ files',
    FileStep.run files (.sealTail (tailOf store m.parent) (segmentOf store m.segment)) = .ok files' ∧
      Underway files' store m content contents ∧ files' (segmentOf store m.segment) = some content := by
  rcases h.sealed with hs | ⟨hs, htail, hpend⟩
  · refine ⟨files, ?_, h, hs⟩
    simp only [FileStep.run]
    rw [hs]
    rfl
  · have hother {path : Text} (h1 : path ≠ segmentOf store m.segment) (h2 : path ≠ tailOf store m.parent) :
        ((files.put (tailOf store m.parent) none).put (segmentOf store m.segment) (some content)) path = files path := by
      rw [put_ne h1, put_ne h2]
    have hpending {path : Text} (hp : path ∈ forkTargets store m.parent m.child) : forkPendingPath path ≠ segmentOf store m.segment ∧
        forkPendingPath path ≠ tailOf store m.parent := by
      have hmem : forkPendingPath path ∈ scratch store m.parent m.child := mem_targets_pending (List.mem_map_of_mem hp)
      exact ⟨fun he => segmentOf_notMem_scratch (he ▸ hmem),
        fun he => notMem_scratch_of_targets hm.apart (by simp [forkTargets]) (he ▸ hmem)⟩
    refine ⟨_, by simp only [FileStep.run, moveAtomically]; rw [hs, htail]; rfl, ⟨?_, Or.inl (put_self _ _ _), fun path hp => ?_⟩,
      put_self _ _ _⟩
    · rw [hother segmentOf_ne_marker.1.symm tailOf_ne_marker.symm]
      exact h.marker
    · unfold Installs
      rw [hother (hpending hp).1 (hpending hp).2]
      by_cases he : path = tailOf store m.parent
      · rw [he]
        exact Or.inl hpend
      · rw [hother (fun he => segmentOf_notMem_targets (he ▸ hp)) he]
        exact h.installs path hp

/-- **A fork is completed from wherever it was interrupted.** Any number of the operations that complete it can be made; before the
last of them it is still on its way, to the same end, and with the last it is there. -/
theorem Underway.take (h : Underway files store m content contents) (hm : UsableMarker m) (n : Nat) :
    (runSteps files ((completing store m).take n)).2 = .ok () ∧
      (n < 7 → Underway (runSteps files ((completing store m).take n)).1 store m content contents) ∧
      (7 ≤ n → (runSteps files ((completing store m).take n)).1 = completedFiles files store m content contents) := by
  cases n with
  | zero => exact ⟨rfl, fun _ => h, fun hn => by omega⟩
  | succ n =>
    obtain ⟨files₁, hrun, h₁, hsealed⟩ := h.sealTail hm
    have hfirst (more : List FileStep) : runSteps files (([FileStep.sealTail (tailOf store m.parent) (segmentOf store m.segment)] ++ more).take
        (n + 1)) = runSteps files₁ (more.take n) := by
      rw [List.singleton_append, List.take_succ_cons, runSteps, hrun]
    have hend := @completedFiles_take files store m content contents (n + 1)
    unfold completing at hend ⊢
    rw [hfirst] at hend ⊢
    have hunmixed : Unmixed (forkTargets store m.parent m.child) := hm.unmixed
    obtain ⟨hok, -, hdone⟩ := installing_take hunmixed h₁.installs 4
    obtain ⟨hokn, hinst, -⟩ := installing_take hunmixed h₁.installs n
    have hall : (installing (forkTargets store m.parent m.child)).take 4 = installing (forkTargets store m.parent m.child) := rfl
    rw [hall] at hok hdone
    -- what no target and no prepared file is stays as it was
    have hkeep {path : Text} (hp : path ∉ forkTargets store m.parent m.child)
        (hq : path ∉ (forkTargets store m.parent m.child).map forkPendingPath) (n : Nat) :
        (runSteps files₁ ((installing (forkTargets store m.parent m.child)).take n)).1 path = files₁ path := by
      refine runSteps_frame (fun step hstep hmem => ?_) files₁
      obtain ⟨target, ht, hf⟩ := installing_footprint (List.mem_of_mem_take hstep)
      rw [hf] at hmem
      simp only [List.mem_cons, List.not_mem_nil, or_false] at hmem
      rcases hmem with rfl | rfl
      · exact hq (List.mem_map_of_mem ht)
      · exact hp ht
    have hmarker : forkMarkerPath store ∉ forkTargets store m.parent m.child := fun hp =>
      notMem_scratch_of_targets hm.apart hp (by simp [scratch])
    have hsegment : segmentOf store m.segment ∉ (forkTargets store m.parent m.child).map forkPendingPath := fun hp =>
      segmentOf_notMem_scratch (mem_targets_pending hp)
    have hsnapshot : snapshotPath (tailOf store m.parent) ∉ forkTargets store m.parent m.child := fun hp =>
      notMem_scratch_of_targets hm.apart hp (by simp [scratch])
    have himage : segmentOf store m.segment ≠ snapshotPath (tailOf store m.parent) :=
      segmentOf_ne_tailOf_append (by simp [derivedSuffixes])
    rw [runSteps_take_append hok, installing, List.length_map, show (forkTargets store m.parent m.child).length = 4 from rfl,
      ← installing] at hend ⊢
    split at hend
    · rename_i hn
      rw [if_pos hn]
      refine ⟨hokn, fun _ => ⟨?_, Or.inl ?_, hinst⟩, fun hlarge => by omega⟩
      · rw [hkeep hmarker marker_notMem_pending]
        exact h₁.marker
      · rw [hkeep segmentOf_notMem_targets hsegment]
        exact hsealed
    · rename_i hn
      rw [if_neg hn]
      have hkeep₄ {path : Text} (hp : path ∉ forkTargets store m.parent m.child)
          (hq : path ∉ (forkTargets store m.parent m.child).map forkPendingPath) := hkeep hp hq 4
      rw [hall] at hkeep₄
      generalize (runSteps files₁ (installing (forkTargets store m.parent m.child))).1 = files₂ at hdone hkeep₄ hend ⊢
      have hinstalled := hdone (by simp [forkTargets])
      by_cases hone : n - 4 = 1
      · -- the image is deleted, the marker is not
        rw [hone]
        simp only [List.take_succ_cons, List.take_zero, runSteps, FileStep.run]
        refine ⟨trivial, fun _ => ⟨?_, Or.inl ?_, fun path hp => Or.inr ?_⟩, fun hlarge => by omega⟩
        · rw [put_ne marker_ne_snapshot, hkeep₄ hmarker marker_notMem_pending]
          exact h₁.marker
        · rw [put_ne himage, hkeep₄ segmentOf_notMem_targets hsegment]
          exact hsealed
        · have hpend : forkPendingPath path ≠ snapshotPath (tailOf store m.parent) := fun he =>
            snapshot_notMem_pending (he ▸ List.mem_map_of_mem (f := forkPendingPath) hp)
          have htarget : path ≠ snapshotPath (tailOf store m.parent) := fun he => hsnapshot (he ▸ hp)
          rw [put_ne hpend, put_ne htarget]
          exact hinstalled path hp
      · obtain ⟨k, hk⟩ : ∃ k, n - 4 = k + 2 := ⟨n - 6, by omega⟩
        rw [hk] at hend ⊢
        simp only [List.take_succ_cons, List.take_nil, runSteps, FileStep.run] at hend ⊢
        refine ⟨trivial, fun hlarge => by omega, fun _ => ?_⟩
        rw [← hend]
        funext path
        unfold completedFiles
        by_cases hs : path = segmentOf store m.segment
        · rw [if_pos hs, hs, put_ne segmentOf_ne_marker.1, put_ne himage,
            hkeep₄ segmentOf_notMem_targets hsegment]
          exact hsealed
        rw [if_neg hs]
        by_cases ht : path ∈ forkTargets store m.parent m.child
        · have hm' : path ≠ forkMarkerPath store := fun he => hmarker (he ▸ ht)
          have hs' : path ≠ snapshotPath (tailOf store m.parent) := fun he => hsnapshot (he ▸ ht)
          rw [if_pos ht, put_ne hm', put_ne hs']
          exact (hinstalled path ht).2
        rw [if_neg ht]
        by_cases hc : path ∈ consumed store m
        · rw [if_pos hc]
          rw [consumed, List.mem_append] at hc
          rcases hc with hc | hc
          · simp only [List.mem_cons, List.not_mem_nil, or_false] at hc
            rcases hc with rfl | rfl
            · exact put_self _ _ _
            · rw [put_ne marker_ne_snapshot.symm, put_self]
          · obtain ⟨target, htarget, rfl⟩ := List.mem_map.1 hc
            rw [put_ne (fun he => marker_notMem_pending (he ▸ hc)), put_ne (fun he => snapshot_notMem_pending (he ▸ hc))]
            exact (hinstalled target htarget).1
        · rw [if_neg hc]

end Completing

/-! ## Preparing -/

/-- The paths of two branches. -/
def pathsOf (store parent child : Text) : ForkPaths :=
  ⟨tailOf store parent, tailOf store child, refOf store parent, refOf store child⟩

/-- The operations before the marker of a fork is in place. -/
def preparing (store : Text) (paths : ForkPaths) (parsed : TripleLog) (plan : ForkPlan) (marker : ForkMarker) : List FileStep :=
  ([paths.parentTail, paths.childTail, paths.parentRef, paths.childRef].map fun path => .delete (forkPendingPath path)) ++
    (([paths.parentTail, paths.childTail].map fun tail =>
        .create (forkPendingPath tail) parsed.spaceId (parsed.deflate.getD false) true) ++
      (([paths.parentRef, paths.childRef].flatMap fun ref => writeTextDurable (forkPendingPath ref) (printRef plan.document)) ++
        [.write (markerTemporary store) (textBytes (printForkMarker marker))]))

/-- What a fork prepares for a path: a new log for a tail, the ref for both branches. -/
def preparedContent (store : Text) (m : ForkMarker) (header ref : Bytes) : Text → Bytes := fun path =>
  if path = tailOf store m.parent ∨ path = tailOf store m.child then header else ref

section Preparing

variable {files files' : Files} {store path : Text} {m : ForkMarker} {parsed : TripleLog} {plan : ForkPlan} {header : Bytes}

theorem prepareFork_eq (paths : ForkPaths) : prepareFork store paths parsed plan m =
    preparing store paths parsed plan m ++ [.move (markerTemporary store) (forkMarkerPath store)] := by
  unfold prepareFork preparing writeTextDurable
  simp only [List.append_assoc]
  rfl

/-- A file that is prepared is none that is moved into its place. -/
theorem pending_ne_temporary (path other : Text) : forkPendingPath path ≠ other ++ ".tmp".toList := by
  unfold forkPendingPath
  intro he
  have := congrArg List.getLast? he
  simp at this

theorem pending_ne_marker (path : Text) : forkPendingPath path ≠ forkMarkerPath store := by
  unfold forkPendingPath forkMarkerPath
  intro he
  have := congrArg List.getLast? he
  simp at this

theorem temporary_ne_marker (other : Text) : other ++ ".tmp".toList ≠ forkMarkerPath store := by
  unfold forkMarkerPath
  intro he
  have := congrArg List.getLast? he
  simp at this

/-- What is done before the marker is in place changes the other files of the fork only. -/
theorem footprint_preparing {step : FileStep} (hs : step ∈ preparing store (pathsOf store m.parent m.child) parsed plan m)
    (hp : path ∈ step.footprint) : path ∈ scratch store m.parent m.child ∧ path ≠ forkMarkerPath store := by
  simp only [preparing, pathsOf, writeTextDurable, List.map_cons, List.map_nil, List.flatMap_cons, List.flatMap_nil, List.mem_append,
    List.mem_cons, List.not_mem_nil, or_false] at hs
  rw [scratch]
  rcases hs with (rfl | rfl | rfl | rfl) | (rfl | rfl) | ((rfl | rfl) | (rfl | rfl)) | rfl <;>
    simp only [FileStep.footprint, List.mem_cons, List.not_mem_nil, or_false] at hp <;>
    rcases hp with rfl | rfl <;>
    refine ⟨by simp, ?_⟩ <;>
    first
    | exact pending_ne_marker _
    | exact temporary_ne_marker _

theorem runSteps_delete (paths : List Text) (files : Files) : runSteps files (paths.map fun path => .delete (forkPendingPath path)) =
    (fun p => if p ∈ paths.map forkPendingPath then none else files p, .ok ()) := by
  induction paths generalizing files with
  | nil => simp [runSteps]
  | cons path paths ih =>
    rw [List.map_cons, runSteps, FileStep.run]
    dsimp only
    rw [ih]
    refine Prod.ext (funext fun p => ?_) rfl
    by_cases he : p = forkPendingPath path
    · simp [he]
    · simp [he, put_ne he]

/-- A text is written beside its path and moved there. -/
theorem runSteps_writeTextDurable (path text : Text) (more : List FileStep) : runSteps files (writeTextDurable path text ++ more) =
    runSteps ((files.put (path ++ ".tmp".toList) none).put path (some (textBytes text))) more := by
  have hput : ((files.put (path ++ ".tmp".toList) (some (textBytes text))).put (path ++ ".tmp".toList) none) =
      files.put (path ++ ".tmp".toList) none := by
    funext p
    by_cases he : p = path ++ ".tmp".toList
    · rw [he, put_self, put_self]
    · rw [put_ne he, put_ne he, put_ne he]
  simp only [writeTextDurable, List.cons_append, List.nil_append, runSteps, FileStep.run, moveAtomically, put_self, hput]

/-- The files of a fork are prepared, and then its marker is in place: the fork is on its way. -/
theorem prepared (hne : m.parent ≠ m.child) (hc : createTripleLog parsed.spaceId (parsed.deflate.getD false) true = .ok header) :
    ∃ files', runSteps files (prepareFork store (pathsOf store m.parent m.child) parsed plan m) = (files', .ok ()) ∧
      files' (forkMarkerPath store) = some (textBytes (printForkMarker m)) ∧
      (∀ path ∈ forkTargets store m.parent m.child, files' (forkPendingPath path) =
        some (preparedContent store m header (textBytes (printRef plan.document)) path)) ∧
      ∀ path ∉ scratch store m.parent m.child, files' path = files path := by
  have htails : forkPendingPath (tailOf store m.child) ≠ forkPendingPath (tailOf store m.parent) := fun he =>
    hne (tailOf_inj.1 (forkPendingPath_inj.1 he)).symm
  have hrefs : forkPendingPath (refOf store m.child) ≠ forkPendingPath (refOf store m.parent) := fun he =>
    hne (refOf_inj.1 (forkPendingPath_inj.1 he)).symm
  have htr (a b : Text) : forkPendingPath (tailOf store a) ≠ forkPendingPath (refOf store b) := fun he =>
    tailOf_ne_refOf (forkPendingPath_inj.1 he)
  have hrun : ∃ files', runSteps files (prepareFork store (pathsOf store m.parent m.child) parsed plan m) = (files', .ok ()) ∧
      files' (forkMarkerPath store) = some (textBytes (printForkMarker m)) ∧
      files' (forkPendingPath (tailOf store m.parent)) = some header ∧
      files' (forkPendingPath (tailOf store m.child)) = some header ∧
      files' (forkPendingPath (refOf store m.parent)) = some (textBytes (printRef plan.document)) ∧
      files' (forkPendingPath (refOf store m.child)) = some (textBytes (printRef plan.document)) := by
    unfold prepareFork pathsOf
    dsimp only
    rw [runSteps_append (runSteps_delete _ _)]
    simp only [List.map_cons, List.map_nil, List.cons_append, List.nil_append, List.flatMap_cons, List.flatMap_nil, List.append_nil,
      List.append_assoc]
    rw [runSteps, FileStep.run, if_neg (by simp), hc]
    simp only [bind, Except.bind]
    rw [runSteps, FileStep.run, put_ne htails, if_neg (by simp), hc]
    simp only [bind, Except.bind]
    rw [runSteps_writeTextDurable, runSteps_writeTextDurable, ← List.append_nil (writeTextDurable _ (printForkMarker m)),
      runSteps_writeTextDurable, runSteps]
    refine ⟨_, rfl, put_self _ _ _, ?_⟩
    simp only [put_ne (pending_ne_marker _), put_ne (pending_ne_temporary _ _), put_ne (htr _ _), put_self,
      put_ne htails.symm, put_ne hrefs.symm, and_self]
  obtain ⟨files', hrun, hmarker, hpt, hct, hpr, hcr⟩ := hrun
  refine ⟨files', hrun, hmarker, fun path hp => ?_, fun path hp => ?_⟩
  · unfold preparedContent
    simp only [forkTargets, List.mem_cons, List.not_mem_nil, or_false] at hp
    rcases hp with rfl | rfl | rfl | rfl
    · rw [if_pos (Or.inl rfl), hpt]
    · rw [if_neg (by simp [tailOf_ne_refOf.symm]), hpr]
    · rw [if_neg (by simp [tailOf_ne_refOf.symm]), hcr]
    · rw [if_pos (Or.inr rfl), hct]
  · have hframe := @runSteps_frame path (prepareFork store (pathsOf store m.parent m.child) parsed plan m) ?_ files
    · rwa [hrun] at hframe
    · intro step hs hmem
      rw [prepareFork_eq, List.mem_append, List.mem_singleton] at hs
      rcases hs with hs | rfl
      · exact hp (footprint_preparing hs hmem).1
      · simp only [FileStep.footprint, List.mem_cons, List.not_mem_nil, or_false] at hmem
        exact hp (by rw [scratch]; rcases hmem with rfl | rfl <;> simp)

end Preparing

end Fram.Database
