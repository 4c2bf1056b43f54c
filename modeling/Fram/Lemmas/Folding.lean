import Fram.Lemmas.Interning
import Fram.Lib.History

/-!
# Live positions

The buckets of live positions are a map from handles to lists of positions (`activePositions_setActivePositions`), whether a fold
is open or closed. Kept operation by operation, the map and the withdrawal targets are the reading of the log of operation rows
under equality of handles (`Folded`, `Folded.appendOperation`).
-/

namespace Fram

/-! ## Buckets as a map -/

/-- The buckets are well formed: the slot table is complete, no handle has two buckets, and an open fold has a cell for each. -/
structure Bucketed (Γ : Host) (s : TermStore) : Prop where
  index : Indexes (s.activeBuckets.map fun b => Γ.hashInt b.tripleHandle) s.activeSlots
  apart : (s.activeBuckets.map (·.tripleHandle)).Nodup
  cells : s.foldOpen = true → s.activeCells.length = s.activeBuckets.length

/-- The live positions of the bucket at a position. -/
def positionsAt (s : TermStore) (p : Nat) : List Nat :=
  if s.foldOpen then s.activeCells[p]?.getD [] else (s.activeBuckets[p]?.map (·.positions)).getD []

section Buckets

variable {Γ : Host} {s : TermStore} {h : Int}

/-- A lookup finds the bucket of the handle. -/
theorem Bucketed.find_iff (hb : Bucketed Γ s) (p : Nat) :
    findActiveBucketPosition Γ s h = some p ↔ ∃ b, s.activeBuckets[p]? = some b ∧ b.tripleHandle = h := by
  unfold findActiveBucketPosition
  rw [findPosition_eq_some_iff hb.index]
  · simp only [beq_iff_eq, @eq_comm _ h]
  · intro b hb
    rw [← beq_iff_eq.1 hb]
  · intro i j b b' hi hj hbi hbj
    have hnd := List.nodup_iff_injective_get.1 hb.apart
    rw [List.getElem?_eq_some_iff] at hi hj
    obtain ⟨hi, rfl⟩ := hi
    obtain ⟨hj, rfl⟩ := hj
    have := @hnd ⟨i, by simpa using hi⟩ ⟨j, by simpa using hj⟩
      (by simpa using (beq_iff_eq.1 hbi).symm.trans (beq_iff_eq.1 hbj))
    exact congrArg Fin.val this

theorem Bucketed.activePositions_of_bucket (hb : Bucketed Γ s) {p : Nat} {b : ActiveBucket}
    (hp : s.activeBuckets[p]? = some b) (he : b.tripleHandle = h) : activePositions Γ s h = positionsAt s p := by
  unfold activePositions positionsAt
  rw [(hb.find_iff p).2 ⟨b, hp, he⟩]

theorem Bucketed.activePositions_of_none (hb : Bucketed Γ s) (hn : ∀ b ∈ s.activeBuckets, b.tripleHandle ≠ h) :
    activePositions Γ s h = [] := by
  unfold activePositions
  cases hf : findActiveBucketPosition Γ s h with
  | none => rfl
  | some p =>
    obtain ⟨b, hp, he⟩ := (hb.find_iff p).1 hf
    exact absurd he (hn b (List.mem_of_getElem? hp))

/-- A handle has a bucket or has none. -/
theorem Bucketed.cases (hb : Bucketed Γ s) (h : Int) : (∃ (p : Nat) (b : ActiveBucket), s.activeBuckets[p]? = some b ∧ b.tripleHandle = h ∧
        activePositions Γ s h = positionsAt s p) ∨
      ((∀ b ∈ s.activeBuckets, b.tripleHandle ≠ h) ∧ activePositions Γ s h = []) := by
  by_cases hn : ∀ b ∈ s.activeBuckets, b.tripleHandle ≠ h
  · exact Or.inr ⟨hn, hb.activePositions_of_none hn⟩
  · push Not at hn
    obtain ⟨b, hm, he⟩ := hn
    obtain ⟨p, hp⟩ := List.getElem?_of_mem hm
    exact Or.inl ⟨p, b, hp, he, hb.activePositions_of_bucket hp he⟩

/-- Two stores with the same buckets, up to where the positions are kept, have the same live positions. -/
theorem Bucketed.activePositions_congr {s' : TermStore} (hb : Bucketed Γ s) (hb' : Bucketed Γ s')
    (hh : s'.activeBuckets.map (·.tripleHandle) = s.activeBuckets.map (·.tripleHandle))
    (hp : ∀ p, p < s.activeBuckets.length → positionsAt s' p = positionsAt s p) : activePositions Γ s' h = activePositions Γ s h := by
  rcases hb.cases h with ⟨p, b, hpb, he, ha⟩ | ⟨hn, ha⟩
  · have : (s'.activeBuckets.map (·.tripleHandle))[p]? = some h := by simp [hh, hpb, he]
    rw [List.getElem?_map, Option.map_eq_some_iff] at this
    obtain ⟨b', hpb', he'⟩ := this
    rw [ha, hb'.activePositions_of_bucket hpb' he', hp p (List.getElem?_eq_some_iff.1 hpb).1]
  · rw [ha]
    refine hb'.activePositions_of_none fun b' hm he => ?_
    have : h ∈ s.activeBuckets.map (·.tripleHandle) := by
      rw [← hh, ← he]
      exact List.mem_map_of_mem hm
    obtain ⟨b, hm, he⟩ := List.mem_map.1 this
    exact hn b hm he

/-- Setting the live positions of a handle changes no other field than the buckets, the cells and their table. -/
theorem setActivePositions_frame (Γ : Host) (s : TermStore) (h : Int) (ps : List Nat) : setActivePositions Γ s h ps =
      { s with
        activeBuckets := (setActivePositions Γ s h ps).activeBuckets
        activeCells := (setActivePositions Γ s h ps).activeCells
        activeSlots := (setActivePositions Γ s h ps).activeSlots } := by
  unfold setActivePositions
  split
  · split <;> rfl
  · rfl

@[simp] theorem setActivePositions_operations (h : Int) (ps : List Nat) : (setActivePositions Γ s h ps).operations = s.operations := by
  rw [setActivePositions_frame]

@[simp] theorem setActivePositions_withdrawalTargets (h : Int) (ps : List Nat) :
    (setActivePositions Γ s h ps).withdrawalTargets = s.withdrawalTargets := by
  rw [setActivePositions_frame]

/-- Setting the live positions of a handle that has a bucket. -/
theorem Bucketed.set_known (hb : Bucketed Γ s) {p : Nat} (hf : findActiveBucketPosition Γ s h = some p) (ps : List Nat) :
    Bucketed Γ (setActivePositions Γ s h ps) ∧
      (setActivePositions Γ s h ps).activeBuckets.map (·.tripleHandle) = s.activeBuckets.map (·.tripleHandle) ∧
      ∀ q, q < s.activeBuckets.length →
        positionsAt (setActivePositions Γ s h ps) q = if q = p then ps else positionsAt s q := by
  obtain ⟨b, hp, he⟩ := (hb.find_iff p).1 hf
  have hlt := (List.getElem?_eq_some_iff.1 hp).1
  unfold setActivePositions
  simp only [hf]
  cases ho : s.foldOpen with
  | true =>
    simp only [if_true]
    refine ⟨⟨hb.index, hb.apart, fun _ => by simpa using hb.cells ho⟩, trivial, fun q hq => ?_⟩
    simp only [positionsAt, ho, if_true, List.getElem?_set]
    by_cases hqp : q = p
    · subst hqp
      simp [hb.cells ho, hlt]
    · simp [hqp, Ne.symm hqp]
  | false =>
    simp only [Bool.false_eq_true, if_false]
    have hset : (s.activeBuckets.set p ⟨h, ps⟩).map (·.tripleHandle) = s.activeBuckets.map (·.tripleHandle) := by
      rw [List.map_set]
      refine List.ext_getElem? fun q => ?_
      rw [List.getElem?_set]
      split
      · rename_i hq
        subst hq
        simp [hlt, ← he, (List.getElem?_eq_some_iff.1 hp).2]
      · rfl
    have hindex : (s.activeBuckets.set p ⟨h, ps⟩).map (fun b => Γ.hashInt b.tripleHandle) =
        s.activeBuckets.map (fun b => Γ.hashInt b.tripleHandle) := by
      have := congrArg (List.map Γ.hashInt) hset
      simpa [List.map_map, Function.comp_def] using this
    refine ⟨⟨by simpa only [hindex] using hb.index, by simpa only [hset] using hb.apart, by simp⟩, hset,
      fun q hq => ?_⟩
    simp only [positionsAt, ho, Bool.false_eq_true, if_false, List.getElem?_set]
    by_cases hqp : q = p
    · subst hqp
      simp [hlt]
    · simp [hqp, Ne.symm hqp]

/-- Setting the live positions of a handle that has no bucket. -/
theorem Bucketed.set_new (hb : Bucketed Γ s) (hf : findActiveBucketPosition Γ s h = none) (ps : List Nat) :
    Bucketed Γ (setActivePositions Γ s h ps) ∧
      (setActivePositions Γ s h ps).activeBuckets.map (·.tripleHandle) = s.activeBuckets.map (·.tripleHandle) ++ [h] ∧
      ∀ q, q ≤ s.activeBuckets.length →
        positionsAt (setActivePositions Γ s h ps) q = if q = s.activeBuckets.length then ps else positionsAt s q := by
  have hn : h ∉ s.activeBuckets.map (·.tripleHandle) := by
    intro hm
    obtain ⟨b, hm, he⟩ := List.mem_map.1 hm
    obtain ⟨p, hp⟩ := List.getElem?_of_mem hm
    rw [(hb.find_iff p).2 ⟨b, hp, he⟩] at hf
    cases hf
  unfold setActivePositions
  simp only [hf]
  refine ⟨⟨?_, ?_, ?_⟩, by simp, fun q hq => ?_⟩
  · have := hb.index.indexRow (Γ.hashInt h)
    simpa using this
  · simp only [List.map_append, List.map_cons, List.map_nil]
    rw [List.nodup_append]
    refine ⟨hb.apart, by simp, ?_⟩
    rintro x hx y hy rfl
    rw [List.mem_singleton] at hy
    exact hn (hy ▸ hx)
  · intro ho
    have ho' : s.foldOpen = true := ho
    simp [ho', hb.cells ho']
  · cases ho : s.foldOpen with
    | true =>
      simp only [positionsAt, ho, if_true]
      by_cases hqp : q = s.activeBuckets.length
      · subst hqp
        simp [← hb.cells ho]
      · rw [List.getElem?_append_left (by rw [hb.cells ho]; omega), if_neg hqp]
    | false =>
      simp only [positionsAt, ho, Bool.false_eq_true, if_false]
      by_cases hqp : q = s.activeBuckets.length
      · subst hqp
        simp
      · rw [List.getElem?_append_left (by omega), if_neg hqp]

theorem Bucketed.setActivePositions (hb : Bucketed Γ s) (h : Int) (ps : List Nat) : Bucketed Γ (setActivePositions Γ s h ps) := by
  cases hf : findActiveBucketPosition Γ s h with
  | some p => exact (hb.set_known hf ps).1
  | none => exact (hb.set_new hf ps).1

/-- The buckets are a map from handles to positions. -/
theorem Bucketed.activePositions_setActivePositions (hb : Bucketed Γ s) (h h' : Int) (ps : List Nat) :
    activePositions Γ (Fram.setActivePositions Γ s h ps) h' = if h' = h then ps else activePositions Γ s h' := by
  have hmem : ∀ (p : Nat) b, s.activeBuckets[p]? = some b → p < s.activeBuckets.length := fun p b hp =>
    (List.getElem?_eq_some_iff.1 hp).1
  cases hf : findActiveBucketPosition Γ s h with
  | some p =>
    obtain ⟨b, hp, he⟩ := (hb.find_iff p).1 hf
    obtain ⟨hb', hh, hpos⟩ := hb.set_known hf ps
    rcases hb.cases h' with ⟨q, c, hq, hc, ha⟩ | ⟨hn, ha⟩
    · have : ((Fram.setActivePositions Γ s h ps).activeBuckets.map (·.tripleHandle))[q]? = some h' := by
        simp [hh, hq, hc]
      rw [List.getElem?_map, Option.map_eq_some_iff] at this
      obtain ⟨c', hq', hc'⟩ := this
      rw [hb'.activePositions_of_bucket hq' hc', hpos q (hmem q c hq), ha]
      have : q = p ↔ h' = h := by
        rw [← hc, ← he]
        constructor
        · rintro rfl
          rw [hp] at hq
          cases hq
          rfl
        · intro hcb
          have h1 := (hb.find_iff q).2 ⟨c, hq, rfl⟩
          have h2 := (hb.find_iff p).2 ⟨b, hp, rfl⟩
          rw [hcb, h2] at h1
          exact (Option.some.inj h1).symm
      simp only [this]
    · have hne : h' ≠ h := fun e => hn b (List.mem_of_getElem? hp) (he.trans e.symm)
      rw [if_neg hne, ha]
      refine hb'.activePositions_of_none fun c hc hce => ?_
      have : h' ∈ s.activeBuckets.map (·.tripleHandle) := by
        rw [← hh, ← hce]
        exact List.mem_map_of_mem hc
      obtain ⟨d, hd, hde⟩ := List.mem_map.1 this
      exact hn d hd hde
  | none =>
    obtain ⟨hb', hh, hpos⟩ := hb.set_new hf ps
    have at_ : ∀ (q : Nat) x, (s.activeBuckets.map (·.tripleHandle) ++ [h])[q]? = some x →
        activePositions Γ (Fram.setActivePositions Γ s h ps) x = positionsAt (Fram.setActivePositions Γ s h ps) q := by
      intro q x hx
      rw [← hh, List.getElem?_map, Option.map_eq_some_iff] at hx
      obtain ⟨c, hq, hc⟩ := hx
      exact hb'.activePositions_of_bucket hq hc
    by_cases he : h' = h
    · subst he
      rw [if_pos rfl, at_ s.activeBuckets.length h' (by simp), hpos _ (Nat.le_refl _), if_pos rfl]
    · rw [if_neg he]
      rcases hb.cases h' with ⟨q, c, hq, hc, ha⟩ | ⟨hn, ha⟩
      · have hlt := hmem q c hq
        rw [at_ q h' (by rw [List.getElem?_append_left (by simpa using hlt)]; simp [hq, hc]), hpos q hlt.le,
          if_neg hlt.ne, ha]
      · rw [ha]
        refine hb'.activePositions_of_none fun c hc hce => ?_
        have : h' ∈ s.activeBuckets.map (·.tripleHandle) ++ [h] := by
          rw [← hh, ← hce]
          exact List.mem_map_of_mem hc
        rcases List.mem_append.1 this with hm | hm
        · obtain ⟨d, hd, hde⟩ := List.mem_map.1 hm
          exact hn d hd hde
        · exact he (List.mem_singleton.1 hm)

/-- Opening a fold keeps the buckets and what they say. -/
theorem Bucketed.openFold (hb : Bucketed Γ s) :
    Bucketed Γ (openFold s) ∧ ∀ h, activePositions Γ (Fram.openFold s) h = activePositions Γ s h := by
  unfold Fram.openFold
  cases ho : s.foldOpen with
  | true => exact ⟨hb, fun h => rfl⟩
  | false =>
    simp only [Bool.false_eq_true, if_false]
    have hmap : (s.activeBuckets.map fun b => (⟨b.tripleHandle, []⟩ : ActiveBucket)).map (·.tripleHandle) =
        s.activeBuckets.map (·.tripleHandle) := by simp
    have hb' : Bucketed Γ { s with
        activeBuckets := s.activeBuckets.map fun b => ⟨b.tripleHandle, []⟩
        activeCells := s.activeBuckets.map (·.positions)
        foldOpen := true } := ⟨by simpa [Function.comp_def] using hb.index, by rw [hmap]; exact hb.apart, fun _ => by simp⟩
    refine ⟨hb', fun h => hb.activePositions_congr hb' hmap fun p hp => ?_⟩
    simp [positionsAt, ho]

/-- Closing a fold keeps the buckets and what they say. -/
theorem Bucketed.closeFold (hb : Bucketed Γ s) :
    Bucketed Γ (closeFold s) ∧ ∀ h, activePositions Γ (Fram.closeFold s) h = activePositions Γ s h := by
  unfold Fram.closeFold
  cases ho : s.foldOpen with
  | false => exact ⟨hb, fun h => rfl⟩
  | true =>
    simp only [if_true]
    have hlen := hb.cells ho
    have hmap : (List.zipWith (fun b positions => (⟨b.tripleHandle, positions⟩ : ActiveBucket)) s.activeBuckets
        s.activeCells).map (·.tripleHandle) = s.activeBuckets.map (·.tripleHandle) := by
      rw [List.map_zipWith]
      refine List.ext_getElem (by simp [hlen]) fun i h1 h2 => by simp
    have hb' : Bucketed Γ { s with
        activeBuckets := List.zipWith (fun b positions => ⟨b.tripleHandle, positions⟩) s.activeBuckets s.activeCells
        activeCells := []
        foldOpen := false } := by
      refine ⟨?_, by rw [hmap]; exact hb.apart, by simp⟩
      have h1 := congrArg (List.map Γ.hashInt) hmap
      rw [List.map_map, List.map_map] at h1
      have := hb.index
      rw [show (s.activeBuckets.map fun b => Γ.hashInt b.tripleHandle) = _ from h1.symm] at this
      exact this
    refine ⟨hb', fun h => hb.activePositions_congr hb' hmap fun p hp => ?_⟩
    have hp' : p < s.activeCells.length := by omega
    simp [positionsAt, ho, List.getElem?_zipWith, List.getElem?_eq_getElem hp, List.getElem?_eq_getElem hp']

end Buckets

/-! ## The log of operation rows -/

/-- The operation row as an operation on handles. -/
def OperationRow.handleOp (row : OperationRow) : History.Op Int := ⟨decide (row.action = .assert), row.tripleHandle⟩

/-- The reading of the operation rows under equality of handles. -/
def handleReading (operations : List OperationRow) : History.Reading Int :=
  History.run (· == ·) (operations.map (·.handleOp))

theorem handleReading_concat (operations : List OperationRow) (row : OperationRow) :
    handleReading (operations ++ [row]) = History.step (· == ·) (handleReading operations) row.handleOp := by
  rw [handleReading, List.map_append, List.map_singleton, History.run_concat]
  rfl

theorem handleReading_count (operations : List OperationRow) : (handleReading operations).count = operations.length := by
  rw [handleReading, (History.reads_run _ _).count, List.length_map]

/-- The state kept operation by operation is the reading of the operation rows. -/
structure Folded (Γ : Host) (s : TermStore) : Prop extends Bucketed Γ s where
  targets : s.withdrawalTargets = (handleReading s.operations).targets
  active : ∀ h, activePositions Γ s h = ((handleReading s.operations).live.filter fun x => x.2 == h).map (·.1)

section Fold

variable {Γ : Host} {s s' : TermStore}

/-- The buckets do not depend on the other fields. -/
theorem Bucketed.congr (hb : Bucketed Γ s) (h1 : s'.activeBuckets = s.activeBuckets) (h2 : s'.activeCells = s.activeCells)
    (h3 : s'.activeSlots = s.activeSlots) (h4 : s'.foldOpen = s.foldOpen) :
    Bucketed Γ s' ∧ ∀ h, activePositions Γ s' h = activePositions Γ s h := by
  refine ⟨⟨by rw [h1, h3]; exact hb.index, by rw [h1]; exact hb.apart, by rw [h1, h2, h4]; exact hb.cells⟩, fun h => ?_⟩
  simp only [activePositions, findActiveBucketPosition, h1, h2, h3, h4]

/-- The reading does not depend on the other fields. -/
theorem Folded.congr (hf : Folded Γ s) (h1 : s'.activeBuckets = s.activeBuckets) (h2 : s'.activeCells = s.activeCells)
    (h3 : s'.activeSlots = s.activeSlots) (h4 : s'.foldOpen = s.foldOpen) (h5 : s'.operations = s.operations)
    (h6 : s'.withdrawalTargets = s.withdrawalTargets) : Folded Γ s' := by
  obtain ⟨hb, ha⟩ := hf.toBucketed.congr h1 h2 h3 h4
  exact ⟨hb, by rw [h6, h5, hf.targets], fun h => by rw [ha, h5, hf.active]⟩

theorem openFold_frame (s : TermStore) : openFold s = { s with
      activeBuckets := (openFold s).activeBuckets, activeCells := (openFold s).activeCells
      foldOpen := (openFold s).foldOpen } := by
  unfold openFold
  split <;> rfl

theorem closeFold_frame (s : TermStore) : closeFold s = { s with
      activeBuckets := (closeFold s).activeBuckets, activeCells := (closeFold s).activeCells
      foldOpen := (closeFold s).foldOpen } := by
  unfold closeFold
  split <;> rfl

@[simp] theorem openFold_operations : (openFold s).operations = s.operations := by
  rw [openFold_frame]

@[simp] theorem openFold_withdrawalTargets : (openFold s).withdrawalTargets = s.withdrawalTargets := by
  rw [openFold_frame]

@[simp] theorem closeFold_operations : (closeFold s).operations = s.operations := by
  rw [closeFold_frame]

@[simp] theorem closeFold_withdrawalTargets : (closeFold s).withdrawalTargets = s.withdrawalTargets := by
  rw [closeFold_frame]

theorem Folded.openFold (hf : Folded Γ s) : Folded Γ (openFold s) := by
  obtain ⟨hb, ha⟩ := hf.toBucketed.openFold
  exact ⟨hb, by simp [hf.targets], fun h => by rw [ha, openFold_operations, hf.active]⟩

theorem Folded.closeFold (hf : Folded Γ s) : Folded Γ (closeFold s) := by
  obtain ⟨hb, ha⟩ := hf.toBucketed.closeFold
  exact ⟨hb, by simp [hf.targets], fun h => by rw [ha, closeFold_operations, hf.active]⟩

/-- The newest live position of a handle is what a removal of the handle extracts. -/
theorem extractLast_handle (live : List (Nat × Int)) (h : Int) :
    live.extractLast (fun x => x.2 == h) = none ∧ ((live.filter fun x => x.2 == h).map (·.1)).getLast? = none ∨
      ∃ x rest, live.extractLast (fun x => x.2 == h) = some (x, rest) ∧
        ((live.filter fun x => x.2 == h).map (·.1)).getLast? = some x.1 ∧ x.2 = h ∧
        (rest.filter fun x => x.2 == h).map (·.1) = ((live.filter fun x => x.2 == h).map (·.1)).dropLast := by
  have h1 := List.extractLast_filter (p := fun x : Nat × Int => x.2 == h) (g := fun x => x.2 == h) (l := live)
    fun _ _ hx => hx
  have h2 := List.extractLast_of_forall (p := fun x : Nat × Int => x.2 == h) (l := live.filter fun x => x.2 == h)
    fun x hx => (List.mem_filter.1 hx).2
  rw [h2] at h1
  cases he : live.extractLast (fun x => x.2 == h) with
  | none =>
    rw [he, Option.map_none, Option.map_eq_none_iff] at h1
    exact Or.inl ⟨rfl, by rw [List.getLast?_map, h1, Option.map_none]⟩
  | some r =>
    obtain ⟨x, rest⟩ := r
    rw [he, Option.map_some, Option.map_eq_some_iff] at h1
    obtain ⟨y, hy, hyr⟩ := h1
    simp only [Prod.mk.injEq] at hyr
    obtain ⟨rfl, hrest⟩ := hyr
    refine Or.inr ⟨y, rest, rfl, by rw [List.getLast?_map, hy, Option.map_some], ?_, ?_⟩
    · simpa using (List.mem_of_extractLast he).2
    · rw [← hrest, List.map_dropLast]

/-- One more operation row keeps the state the reading of the rows. -/
theorem Folded.applyOperationState (hf : Folded Γ s) (row : OperationRow) :
    Folded Γ (applyOperationState Γ { s with operations := s.operations ++ [row] } s.operations.length row) := by
  obtain ⟨sequence, ordinal, action, handle⟩ := row
  -- The store before its buckets change, for either list of targets.
  have base : ∀ targets, Bucketed Γ { s with
        operations := s.operations ++ [⟨sequence, ordinal, action, handle⟩], withdrawalTargets := targets } ∧
      ∀ h, activePositions Γ { s with
        operations := s.operations ++ [⟨sequence, ordinal, action, handle⟩], withdrawalTargets := targets } h =
          activePositions Γ s h := fun targets => hf.toBucketed.congr rfl rfl rfl rfl
  have hstep := handleReading_concat s.operations ⟨sequence, ordinal, action, handle⟩
  have hact : activePositions Γ { s with operations := s.operations ++ [⟨sequence, ordinal, action, handle⟩] } handle =
      ((handleReading s.operations).live.filter fun x => x.2 == handle).map (·.1) := by
    rw [(base s.withdrawalTargets).2, hf.active]
  unfold Fram.applyOperationState
  dsimp only
  rw [hact]
  cases action with
  | assert =>
    simp only [OperationRow.handleOp, decide_true, History.step, if_true] at hstep
    obtain ⟨hb, ha⟩ := base (s.withdrawalTargets ++ [none])
    refine ⟨hb.setActivePositions _ _, ?_, fun h => ?_⟩
    · simp only [setActivePositions_withdrawalTargets, setActivePositions_operations, hstep, hf.targets]
    · rw [hb.activePositions_setActivePositions, ha, hf.active]
      simp only [setActivePositions_operations, hstep, List.filter_append, List.map_append, handleReading_count]
      by_cases he : h = handle
      · subst he
        simp
      · simp [he, Ne.symm he]
  | retract =>
    simp only [OperationRow.handleOp, reduceCtorEq, decide_false, History.step, Bool.false_eq_true, if_false] at hstep
    rcases extractLast_handle (handleReading s.operations).live handle with ⟨hx, hl⟩ | ⟨x, rest, hx, hl, hh, hd⟩
    · rw [hx] at hstep
      simp only [hl]
      obtain ⟨hb, ha⟩ := base (s.withdrawalTargets ++ [none])
      exact ⟨hb, by rw [hstep, hf.targets], fun h => by rw [ha, hf.active, hstep]⟩
    · rw [hx] at hstep
      simp only [hl]
      obtain ⟨hb, ha⟩ := base (s.withdrawalTargets ++ [some x.1])
      refine ⟨hb.setActivePositions _ _, ?_, fun h => ?_⟩
      · simp only [setActivePositions_withdrawalTargets, setActivePositions_operations, hstep, hf.targets]
      · rw [hb.activePositions_setActivePositions, ha, hf.active]
        simp only [setActivePositions_operations, hstep]
        by_cases he : h = handle
        · subst he
          rw [if_pos rfl, hd]
        · rw [if_neg he]
          have hg : (x.2 == h) = false := by simp [hh, Ne.symm he]
          rw [List.filter_of_extractLast (g := fun x => x.2 == h) hx hg]

theorem Folded.appendOperation (hf : Folded Γ s) (sequence : Int) (ordinal : Nat) (action : Action) (handle : Int) :
    Folded Γ (appendOperation Γ s sequence ordinal action handle) := hf.applyOperationState _

theorem closeFold_foldOpen : (closeFold s).foldOpen = false := by
  unfold closeFold
  split
  · rfl
  · rename_i h
    simpa using h

/-- The fields that an operation row leaves as they were. -/
theorem appendOperation_frame (Γ : Host) (s : TermStore) (sequence : Int) (ordinal : Nat) (action : Action) (handle : Int) :
    let s' := appendOperation Γ s sequence ordinal action handle
    s'.spaceId = s.spaceId ∧ s'.nextSequence = s.nextSequence ∧ s'.atoms = s.atoms ∧ s'.triples = s.triples ∧
      s'.transactions = s.transactions ∧ s'.operations = s.operations ++ [⟨sequence, ordinal, action, handle⟩] ∧
      s'.atomSlots = s.atomSlots ∧ s'.tripleSlots = s.tripleSlots ∧ s'.foldOpen = s.foldOpen := by
  dsimp only
  unfold Fram.appendOperation applyOperationState
  dsimp only
  split
  · rw [setActivePositions_frame]
    exact ⟨rfl, rfl, rfl, rfl, rfl, rfl, rfl, rfl, rfl⟩
  · split
    · exact ⟨rfl, rfl, rfl, rfl, rfl, rfl, rfl, rfl, rfl⟩
    · rw [setActivePositions_frame]
      exact ⟨rfl, rfl, rfl, rfl, rfl, rfl, rfl, rfl, rfl⟩

end Fold

end Fram
