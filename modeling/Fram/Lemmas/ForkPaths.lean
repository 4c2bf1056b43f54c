import Fram.Lemmas.Chain

/-!
# The paths of a fork

A fork keeps its own files beside those of the branches, under names that it derives from theirs. Where no branch has a derived name
(`Apart`), the files that a fork makes on its way (`scratch`) are no branch's tail, ref or segment.
-/

namespace Fram.Database

open Lines (Text)

/-- The path of the ref of a branch. -/
abbrev refOf (store branch : Text) : Text := fileIn (refsDirectory store) branch

/-- The path of a segment. -/
abbrev segmentOf (store name : Text) : Text := fileIn (segmentsDirectory store) name

/-- What a store appends to the path of a file. -/
def derivedSuffixes : List Text :=
  [".fork-new".toList, ".fork-new.tmp".toList, ".snapshot".toList, ".writer-authority.lock".toList]

/-- The second branch has none of the names that a fork derives from the first. -/
def Apart (a b : Text) : Prop :=
  b ≠ a ++ ".fork-new".toList ∧ b ≠ a ++ ".fork-new.tmp".toList ∧ b ≠ a ++ ".snapshot".toList

instance (a b : Text) : Decidable (Apart a b) := inferInstanceAs (Decidable (_ ∧ _ ∧ _))

section Paths

variable {store a b p c name suffix : Text}

theorem fileIn_append (directory name suffix : Text) : fileIn directory name ++ suffix = fileIn directory (name ++ suffix) := by
  simp [fileIn]

theorem fileIn_inj {directory name name' : Text} : fileIn directory name = fileIn directory name' ↔ name = name' := by
  simp [fileIn]

theorem tailOf_inj : tailOf store a = tailOf store b ↔ a = b := by
  constructor
  · intro h
    unfold tailOf at h
    split at h <;> rename_i ha <;> split at h <;> rename_i hb
    · rw [ha, hb]
    · exact absurd h (by rw [fileIn, branchesDirectory, List.append_assoc]; exact store_ne_append (by simp))
    · exact absurd h.symm (by rw [fileIn, branchesDirectory, List.append_assoc]; exact store_ne_append (by simp))
    · exact fileIn_inj.1 h
  · rintro rfl
    rfl

/-- The paths of three directories and of files beside them differ behind the store. -/
theorem rel_ne {x y : Text} (h : x ≠ y) : store ++ x ≠ store ++ y := fun he => h (List.append_cancel_left he)

theorem tailOf_eq (store branch : Text) :
    tailOf store branch = store ++ (if branch = defaultBranch then [] else ".branches/".toList ++ branch) := by
  unfold tailOf
  split
  · exact (List.append_nil _).symm
  · simp [fileIn, branchesDirectory]

theorem refOf_eq (store branch : Text) : refOf store branch = store ++ (".refs/".toList ++ branch) := by
  simp [fileIn, refsDirectory]

theorem segmentOf_eq (store name : Text) : segmentOf store name = store ++ (".segments/".toList ++ name) := by
  simp [fileIn, segmentsDirectory]

theorem tailOf_ne_tailOf_append (hs : suffix ∈ derivedSuffixes) (h : b ≠ a ++ suffix) : tailOf store b ≠ tailOf store a ++ suffix := by
  rw [tailOf_eq, tailOf_eq, List.append_assoc]
  refine rel_ne ?_
  simp only [derivedSuffixes, List.mem_cons, List.not_mem_nil, or_false] at hs
  rcases hs with rfl | rfl | rfl | rfl <;> split <;> split <;> simp_all

theorem tailOf_ne_refOf_append (suffix : Text) : tailOf store b ≠ refOf store a ++ suffix := by
  rw [tailOf_eq, refOf_eq, List.append_assoc]
  refine rel_ne ?_
  split <;> simp

theorem refOf_ne_tailOf_append (hs : suffix ∈ derivedSuffixes) : refOf store b ≠ tailOf store a ++ suffix := by
  rw [tailOf_eq, refOf_eq, List.append_assoc]
  refine rel_ne ?_
  simp only [derivedSuffixes, List.mem_cons, List.not_mem_nil, or_false] at hs
  rcases hs with rfl | rfl | rfl | rfl <;> split <;> simp

theorem refOf_ne_refOf_append (h : b ≠ a ++ suffix) : refOf store b ≠ refOf store a ++ suffix := by
  rw [fileIn_append]
  exact fun he => h (fileIn_inj.1 he)

theorem segmentOf_ne_tailOf_append (hs : suffix ∈ derivedSuffixes) : segmentOf store name ≠ tailOf store a ++ suffix := by
  rw [tailOf_eq, segmentOf_eq, List.append_assoc]
  refine rel_ne ?_
  simp only [derivedSuffixes, List.mem_cons, List.not_mem_nil, or_false] at hs
  rcases hs with rfl | rfl | rfl | rfl <;> split <;> simp

theorem segmentOf_ne_refOf_append (suffix : Text) : segmentOf store name ≠ refOf store a ++ suffix := by
  rw [refOf_eq, segmentOf_eq, List.append_assoc]
  exact rel_ne (by simp)

/-! ## Files that a fork makes on its way -/

/-- The file that the marker is written to before it is moved. -/
abbrev markerTemporary (store : Text) : Text := forkMarkerPath store ++ ".tmp".toList

/-- The files of a fork that are no files of a branch: those that it prepares for two branches, its marker, and the image that it
deletes. -/
def scratch (store parent child : Text) : List Text :=
  [forkMarkerPath store, markerTemporary store, snapshotPath (tailOf store parent)] ++
    ([parent, child].flatMap fun a => [forkPendingPath (tailOf store a), forkPendingPath (refOf store a),
      forkPendingPath (refOf store a) ++ ".tmp".toList])

theorem mem_scratch {path : Text} : path ∈ scratch store p c ↔
    path = forkMarkerPath store ∨ path = markerTemporary store ∨ path = tailOf store p ++ ".snapshot".toList ∨
      ∃ a ∈ [p, c], path = tailOf store a ++ ".fork-new".toList ∨ path = refOf store a ++ ".fork-new".toList ∨
        path = refOf store a ++ ".fork-new.tmp".toList := by
  have htmp (a : Text) : forkPendingPath (refOf store a) ++ ".tmp".toList = refOf store a ++ ".fork-new.tmp".toList := by
    rw [forkPendingPath, List.append_assoc]
    rfl
  unfold scratch
  simp only [List.mem_append, List.mem_cons, List.not_mem_nil, or_false, List.mem_flatMap, htmp, or_assoc]
  rfl

theorem tailOf_ne_markerTemporary : tailOf store b ≠ markerTemporary store := by
  rw [tailOf_eq, markerTemporary, forkMarkerPath, List.append_assoc]
  refine rel_ne ?_
  split <;> simp

theorem refOf_ne_marker : refOf store b ≠ forkMarkerPath store ∧ refOf store b ≠ markerTemporary store := by
  rw [refOf_eq, markerTemporary, forkMarkerPath, List.append_assoc]
  exact ⟨rel_ne (by simp), rel_ne (by simp)⟩

theorem segmentOf_ne_marker : segmentOf store name ≠ forkMarkerPath store ∧ segmentOf store name ≠ markerTemporary store := by
  rw [segmentOf_eq, markerTemporary, forkMarkerPath, List.append_assoc]
  exact ⟨rel_ne (by simp), rel_ne (by simp)⟩

theorem tailOf_notMem_scratch (h : ∀ a ∈ [p, c], Apart a b) : tailOf store b ∉ scratch store p c := by
  rw [mem_scratch]
  rintro (he | he | he | ⟨a, ha, he | he | he⟩)
  · exact tailOf_ne_marker he
  · exact tailOf_ne_markerTemporary he
  · exact tailOf_ne_tailOf_append (by simp [derivedSuffixes]) (h p (by simp)).2.2 he
  · exact tailOf_ne_tailOf_append (by simp [derivedSuffixes]) (h a ha).1 he
  · exact tailOf_ne_refOf_append _ he
  · exact tailOf_ne_refOf_append _ he

theorem refOf_notMem_scratch (h : ∀ a ∈ [p, c], Apart a b) : refOf store b ∉ scratch store p c := by
  rw [mem_scratch]
  rintro (he | he | he | ⟨a, ha, he | he | he⟩)
  · exact refOf_ne_marker.1 he
  · exact refOf_ne_marker.2 he
  · exact refOf_ne_tailOf_append (by simp [derivedSuffixes]) he
  · exact refOf_ne_tailOf_append (by simp [derivedSuffixes]) he
  · exact refOf_ne_refOf_append (h a ha).1 he
  · exact refOf_ne_refOf_append (h a ha).2.1 he

theorem segmentOf_notMem_scratch : segmentOf store name ∉ scratch store p c := by
  rw [mem_scratch]
  rintro (he | he | he | ⟨a, ha, he | he | he⟩)
  · exact segmentOf_ne_marker.1 he
  · exact segmentOf_ne_marker.2 he
  · exact segmentOf_ne_tailOf_append (by simp [derivedSuffixes]) he
  · exact segmentOf_ne_tailOf_append (by simp [derivedSuffixes]) he
  · exact segmentOf_ne_refOf_append _ he
  · exact segmentOf_ne_refOf_append _ he

/-! ## Two branches of a fork -/

/-- The files that a fork installs, in the order in which it installs them. -/
def forkTargets (store parent child : Text) : List Text := [tailOf store parent, refOf store parent, refOf store child, tailOf store child]

theorem segmentOf_notMem_targets : segmentOf store name ∉ forkTargets store p c := by
  unfold forkTargets
  simp only [List.mem_cons, List.not_mem_nil, or_false, not_or]
  refine ⟨fun he => tailOf_ne_segment he.symm, ?_, ?_, fun he => tailOf_ne_segment he.symm⟩ <;>
    exact fun he => segmentOf_ne_refOf_append [] (by simpa using he)

theorem refOf_inj : refOf store a = refOf store b ↔ a = b := fileIn_inj

theorem tailOf_ne_refOf : tailOf store a ≠ refOf store b := fun he => tailOf_ne_refOf_append [] (by simpa using he)

theorem forkTargets_nodup (hne : p ≠ c) : (forkTargets store p c).Nodup := by
  have hne' : c ≠ p := hne.symm
  simp [forkTargets, tailOf_inj, refOf_inj, tailOf_ne_refOf, tailOf_ne_refOf.symm, hne]

theorem forkPendingPath_inj : forkPendingPath a = forkPendingPath b ↔ a = b := by
  unfold forkPendingPath
  exact ⟨fun h => List.append_cancel_right h, fun h => by rw [h]⟩

theorem mem_targets_pending {path : Text} (h : path ∈ (forkTargets store p c).map forkPendingPath) : path ∈ scratch store p c := by
  simp only [forkTargets, List.map_cons, List.map_nil, List.mem_cons, List.not_mem_nil, or_false] at h
  rw [scratch]
  rcases h with rfl | rfl | rfl | rfl <;> simp

/-- The targets of a fork are apart from what it makes on its way. -/
theorem notMem_scratch_of_targets (h : ∀ a ∈ [p, c], ∀ b ∈ [p, c], Apart a b) {path : Text} (hp : path ∈ forkTargets store p c) :
    path ∉ scratch store p c := by
  have hp' := fun a ha => h a ha p (by simp)
  have hc' := fun a ha => h a ha c (by simp)
  simp only [forkTargets, List.mem_cons, List.not_mem_nil, or_false] at hp
  rcases hp with rfl | rfl | rfl | rfl
  · exact tailOf_notMem_scratch hp'
  · exact refOf_notMem_scratch hp'
  · exact refOf_notMem_scratch hc'
  · exact tailOf_notMem_scratch hc'

/-- The image of the parent is none of the files that a fork prepares. -/
theorem snapshot_notMem_pending : snapshotPath (tailOf store p) ∉ (forkTargets store p c).map forkPendingPath := by
  intro h
  obtain ⟨path, -, he⟩ := List.mem_map.1 h
  unfold forkPendingPath snapshotPath at he
  have := congrArg List.getLast? he
  simp at this

theorem marker_notMem_pending : forkMarkerPath store ∉ (forkTargets store p c).map forkPendingPath := by
  intro h
  obtain ⟨path, -, he⟩ := List.mem_map.1 h
  unfold forkPendingPath forkMarkerPath at he
  have := congrArg List.getLast? he
  simp at this

theorem marker_ne_snapshot : forkMarkerPath store ≠ snapshotPath (tailOf store p) := by
  intro he
  unfold snapshotPath forkMarkerPath at he
  have := congrArg List.getLast? he
  simp at this

end Paths

end Fram.Database
