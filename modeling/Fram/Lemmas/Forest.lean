import Fram.Lemmas.Twin
import Fram.Lemmas.Forks

/-!
# Families of stores

A family is a heap and the stores in it, each a fork of an earlier one but the first. Beside a family stands a lone store for each
member, which shares nothing and was given the acts that the member and, before the forks, its ancestors were given. A member and
its lone store are twins after every act on any member (`Isolated.apply`).
-/

namespace Fram

variable {owned : List Nat} {spaceId : String} {root : Held}

/-- What a caller does to one store of a family. -/
inductive MemberAct where
  | plain (act : StoreAct)
  | internTriple (t1 t2 t3 : Int)

/-- The store after an act, and the frame it accepted, if it accepted one. -/
def MemberAct.apply (Γ : Host) (s : TermStore) : MemberAct → TermStore × Option TransactionFrame
  | .plain act => act.apply Γ s
  | .internTriple t1 t2 t3 =>
    match internTripleHandle Γ s t1 t2 t3 with
    | .ok (s', _) => (s', none)
    | .error _ => (s, none)

/-- A lone store after acts, and the frames accepted on the way. -/
def runMember (Γ : Host) (s : TermStore) (acts : List MemberAct) : TermStore × List TransactionFrame :=
  acts.foldl
    (fun (s, frames) act =>
      let (s', accepted) := act.apply Γ s
      (s', frames ++ accepted.toList))
    (s, [])

/-- The store over a heap after an act. -/
def Held.apply (Γ : Host) (h : Held) : MemberAct → Held
  | .plain (.commit operations) =>
    match Held.commitTransaction Γ h operations with
    | .ok (h', _) => h'
    | .error _ => h
  | .plain (.replay frame) =>
    match Held.replayTransaction Γ h frame with
    | .ok (h', _) => h'
    | .error _ => h
  | .plain (.replayResult frame) => (Held.replayTransactionResult Γ h frame).1
  | .plain (.replayFused frame) =>
    let (interned, handles) := Held.operationHandles Γ h frame.operations
    (Held.appendReplayedTransaction Γ interned frame.sequence (frame.operations.map (·.action)) handles).1
  | .plain (.intern term) => (Held.internHandle Γ h term).1
  | .plain .openFold => Held.openFold h
  | .plain .closeFold => Held.closeFold h
  | .internTriple t1 t2 t3 =>
    match Held.internTripleHandle Γ h t1 t2 t3 with
    | .ok (h', _) => h'
    | .error _ => h

/-- A family of stores in a heap. -/
structure Forest where
  heap : Heap
  members : List StoreRefs

/-- What a caller does to a family: an act on a member, or a fork of one. -/
inductive ForestAct where
  | on (member : Nat) (act : MemberAct)
  | fork (member : Nat)

/-- The family after an act. A fork is the newest member. -/
def ForestAct.apply (Γ : Host) (forest : Forest) : ForestAct → Forest
  | .on member act =>
    match forest.members[member]? with
    | some refs =>
      let h := Held.apply Γ ⟨forest.heap, refs⟩ act
      ⟨h.heap, forest.members.set member h.refs⟩
    | none => forest
  | .fork member =>
    match forest.members[member]? with
    | some refs =>
      let h := Held.forkStore ⟨forest.heap, refs⟩
      ⟨h.heap, forest.members ++ [h.refs]⟩
    | none => forest

/-- The acts of each member after an act: a fork has those that its parent had been given. -/
def ForestAct.record (histories : List (List MemberAct)) : ForestAct → List (List MemberAct)
  | .on member act => histories.modify member (· ++ [act])
  | .fork member => histories ++ histories[member]?.toList

/-- The family that acts make of a store. -/
def grow (Γ : Host) (root : Held) (acts : List ForestAct) : Forest :=
  acts.foldl (ForestAct.apply Γ) ⟨root.heap, [root.refs]⟩

/-- The acts of each member of a family: its own, and those of its ancestors before the forks. -/
def historiesOf (acts : List ForestAct) : List (List MemberAct) := acts.foldl ForestAct.record [[]]

section Lone

variable {Γ : Host} {s s' : TermStore} {frames : List TransactionFrame}

theorem runMember_concat (Γ : Host) (s : TermStore) (acts : List MemberAct) (act : MemberAct) : runMember Γ s (acts ++ [act]) =
      ((act.apply Γ (runMember Γ s acts).1).1, (runMember Γ s acts).2 ++ (act.apply Γ (runMember Γ s acts).1).2.toList) := by
  simp [runMember, List.foldl_append]

/-- Interning a triple over handles keeps the history. -/
theorem Represents.internTripleHandle (h : Represents Γ s frames) {t1 t2 t3 : Int} {r : TermStore × Int}
    (he : Fram.internTripleHandle Γ s t1 t2 t3 = .ok r) : Represents Γ r.1 frames := by
  unfold Fram.internTripleHandle at he
  split at he
  · rename_i hv
    simp only [Bool.and_eq_true] at hv
    cases he
    have h1 := (validHandle_iff s t1).1 hv.1
    have h2 := (validHandle_iff s t2).1 hv.2.1
    have h3 := (validHandle_iff s t3).1 hv.2.2
    obtain ⟨hi, hg, -⟩ : _ ∧ _ ∧ _ := @internRow_spec Γ s h.interned ⟨t1, t2, t3⟩ h1 h2 h3
    exact h.grow hi hg
  · cases he

/-- One act keeps a lone store the representation of its accepted frames. -/
theorem Represents.applyMember (h : Represents Γ s frames) (act : MemberAct) :
    Represents Γ (act.apply Γ s).1 (frames ++ (act.apply Γ s).2.toList) := by
  cases act with
  | plain act => exact (h.apply act).1
  | internTriple t1 t2 t3 =>
    simp only [MemberAct.apply]
    cases he : Fram.internTripleHandle Γ s t1 t2 t3 with
    | error e => simpa using h
    | ok r => simpa using h.internTripleHandle he

/-! ## Twins -/

/-- Twins append a transaction alike. -/
theorem Twin.appendTransaction (h : Twin s s') (hi : Interned Γ s) (hi' : Interned Γ s') (sequence : Int)
    (operations : List CommitOperation) :
    (∃ e e', appendTransaction Γ s sequence operations = .error e ∧ appendTransaction Γ s' sequence operations = .error e') ∨
      ∃ r r' c c', appendTransaction Γ s sequence operations = .ok (r, c) ∧ appendTransaction Γ s' sequence operations = .ok (r', c') ∧
        Twin r r' := by
  have hfinal := h.appendValidTransaction hi hi' sequence operations
  simp only [Fram.appendTransaction, h.nextSequence, hfinal.spaceId]
  split
  · exact Or.inl ⟨_, _, rfl, rfl⟩
  · split
    · exact Or.inl ⟨_, _, rfl, rfl⟩
    · cases transactionCoordinate (Fram.appendValidTransaction Γ s sequence operations).spaceId sequence with
      | error e => exact Or.inl ⟨e, e, rfl, rfl⟩
      | ok c => exact Or.inr ⟨_, _, c, c, rfl, rfl, hfinal⟩

/-- Twins take an act alike. -/
theorem Twin.apply (h : Twin s s') (hi : Interned Γ s) (hi' : Interned Γ s') (act : StoreAct) :
    Twin (act.apply Γ s).1 (act.apply Γ s').1 ∧ (act.apply Γ s').2 = (act.apply Γ s).2 := by
  cases act with
  | commit operations =>
    simp only [StoreAct.apply, commitTransaction, h.nextSequence]
    rcases h.appendTransaction hi hi' s.nextSequence operations with ⟨e, e', he, he'⟩ | ⟨r, r', c, c', he, he', ht⟩
    · rw [he, he']
      exact ⟨h, rfl⟩
    · rw [he, he']
      exact ⟨ht, rfl⟩
  | replay frame =>
    simp only [StoreAct.apply, replayTransaction]
    by_cases hf : 0 ≤ frame.sequence ∧ frame.operations.isEmpty = false
    · rw [if_pos hf, if_pos hf]
      rcases h.appendTransaction hi hi' frame.sequence frame.operations with ⟨e, e', he, he'⟩ | ⟨r, r', c, c', he, he', ht⟩
      · rw [he, he']
        exact ⟨h, rfl⟩
      · rw [he, he']
        exact ⟨ht, rfl⟩
    · rw [if_neg hf, if_neg hf]
      exact ⟨h, rfl⟩
  | replayResult frame =>
    simp only [StoreAct.apply, replayTransactionResult, appendTransactionResult, h.nextSequence]
    split
    · split
      · exact ⟨h, rfl⟩
      · split
        · exact ⟨h, rfl⟩
        · split
          · exact ⟨h, rfl⟩
          · exact ⟨h.appendValidTransaction hi hi' _ _, rfl⟩
    · exact ⟨h, rfl⟩
  | replayFused frame =>
    obtain ⟨he, ht⟩ := h.operationHandles hi hi' frame.operations
    simp only [StoreAct.apply, appendReplayedTransaction, he, ht.nextSequence]
    split
    · exact ⟨ht, rfl⟩
    · split
      · exact ⟨ht, rfl⟩
      · split
        · exact ⟨ht, rfl⟩
        · exact ⟨ht.appendRows _ _, rfl⟩
  | intern term => exact ⟨(h.internHandle hi hi' term).2, rfl⟩
  | openFold => exact ⟨((twin_openFold s).symm.trans h).trans (twin_openFold s'), rfl⟩
  | closeFold => exact ⟨((twin_closeFold s).symm.trans h).trans (twin_closeFold s'), rfl⟩

/-- Twins take an act of a member alike. -/
theorem Twin.applyMember (h : Twin s s') (hi : Interned Γ s) (hi' : Interned Γ s') (act : MemberAct) :
    Twin (act.apply Γ s).1 (act.apply Γ s').1 ∧ (act.apply Γ s').2 = (act.apply Γ s).2 := by
  cases act with
  | plain act => exact h.apply hi hi' act
  | internTriple t1 t2 t3 =>
    have hv : validHandle s' = validHandle s := by
      funext handle
      simp only [validHandle, h.atoms, h.triples]
    simp only [MemberAct.apply, internTripleHandle, hv]
    cases (validHandle s t1 && (validHandle s t2 && validHandle s t3)) with
    | true => exact ⟨(h.internRow hi hi' _).2, rfl⟩
    | false => exact ⟨h, rfl⟩

end Lone

/-! ## Acts over a heap -/

section Shared

variable {Γ : Host} {h : Held}

/-- A transaction over a heap is accepted when it is accepted without one. -/
theorem Held.Owns.appendTransaction (ho : h.Owns) (sequence : Int) (operations : List CommitOperation) :
    (∃ e e', Held.appendTransaction Γ h sequence operations = .error e ∧
      Fram.appendTransaction Γ h.read sequence operations = .error e') ∨
      ∃ h' s' c c', Held.appendTransaction Γ h sequence operations = .ok (h', c) ∧
        Fram.appendTransaction Γ h.read sequence operations = .ok (s', c') ∧ Becomes h h' s' := by
  have hb := ho.appendValidTransaction (Γ := Γ) sequence operations
  have hnext : h.read.nextSequence = h.refs.nextSequence := rfl
  have hspace : (Held.appendValidTransaction Γ h sequence operations).refs.spaceId =
      (Fram.appendValidTransaction Γ h.read sequence operations).spaceId := congrArg TermStore.spaceId hb.read
  simp only [Held.appendTransaction, Fram.appendTransaction, hnext, hspace]
  split
  · exact Or.inl ⟨_, _, rfl, rfl⟩
  · split
    · exact Or.inl ⟨_, _, rfl, rfl⟩
    · cases transactionCoordinate (Fram.appendValidTransaction Γ h.read sequence operations).spaceId sequence with
      | error e => exact Or.inl ⟨e, e, rfl, rfl⟩
      | ok c => exact Or.inr ⟨_, _, c, c, rfl, rfl, hb⟩

/-- An act over a heap does to the value of a store what it does to a lone store. -/
theorem Held.Owns.apply (ho : h.Owns) (act : MemberAct) : Becomes h (Held.apply Γ h act) (act.apply Γ h.read).1 := by
  have hnext : h.read.nextSequence = h.refs.nextSequence := rfl
  cases act with
  | plain act =>
    cases act with
    | commit operations =>
      simp only [Held.apply, MemberAct.apply, StoreAct.apply, Held.commitTransaction, Fram.commitTransaction, hnext]
      rcases ho.appendTransaction (Γ := Γ) h.refs.nextSequence operations with ⟨e, e', he, he'⟩ | ⟨h', s', c, c', he, he', hb⟩
      · rw [he, he']
        exact ho.becomes
      · rw [he, he']
        exact hb
    | replay frame =>
      simp only [Held.apply, MemberAct.apply, StoreAct.apply, Held.replayTransaction, Fram.replayTransaction]
      by_cases hf : 0 ≤ frame.sequence ∧ frame.operations.isEmpty = false
      · rw [if_pos hf, if_pos hf]
        rcases ho.appendTransaction (Γ := Γ) frame.sequence frame.operations with ⟨e, e', he, he'⟩ | ⟨h', s', c, c', he, he', hb⟩
        · rw [he, he']
          exact ho.becomes
        · rw [he, he']
          exact hb
      · rw [if_neg hf, if_neg hf]
        exact ho.becomes
    | replayResult frame =>
      simp only [Held.apply, MemberAct.apply, StoreAct.apply, Held.replayTransactionResult, Fram.replayTransactionResult,
        Held.appendTransactionResult, Fram.appendTransactionResult, hnext]
      split
      · split
        · exact ho.becomes
        · split
          · exact ho.becomes
          · split
            · exact ho.becomes
            · exact ho.appendValidTransaction _ _
      · exact ho.becomes
    | replayFused frame =>
      obtain ⟨hb, he⟩ := ho.operationHandles (Γ := Γ) frame.operations
      have hnext' : (Held.operationHandles Γ h frame.operations).1.refs.nextSequence =
          (Fram.operationHandles Γ h.read frame.operations).1.nextSequence := congrArg TermStore.nextSequence hb.read
      simp only [Held.apply, MemberAct.apply, StoreAct.apply, Held.appendReplayedTransaction, Fram.appendReplayedTransaction, he, hnext']
      split
      · exact hb
      · split
        · exact hb
        · split
          · exact hb
          · have hb' := hb.owns.appendRows (Γ := Γ) frame.sequence
              ((frame.operations.map (·.action)).zip (Fram.operationHandles Γ h.read frame.operations).2)
            rw [hb.read] at hb'
            exact hb.trans hb'
    | intern term => exact (ho.internHandle term).1
    | openFold => exact ho.openFold
    | closeFold => exact ho.closeFold
  | internTriple t1 t2 t3 =>
    simp only [Held.apply, MemberAct.apply, Held.internTripleHandle, Fram.internTripleHandle]
    cases (validHandle h.read t1 && (validHandle h.read t2 && validHandle h.read t3)) with
    | true => exact (ho.internRow _).1
    | false => exact ho.becomes

/-- A fork has the value of its parent and fresh nested cells. -/
theorem Held.Owns.forkStore (ho : h.Owns) :
    (Held.forkStore h).read = h.read ∧ (Held.forkStore h).Owns ∧ Moves [] h.heap (Held.forkStore h).heap ∧
      ∀ c ∈ (Held.forkStore h).refs.activeCells, h.heap.cells.length ≤ c := by
  have hb := ho.addCells (List.nil_sublist _) (h.refs.activeCells.map h.heap.cell)
    { h.refs with activeCells := (Held.forkPositionCells h.heap h.refs.activeCells).2 } rfl rfl rfl rfl
  exact ⟨hb.read, hb.owns, Heap.moves_addCells _ _, fun c hc => (Heap.mem_addCells hc).1⟩

/-! ## Bystanders -/

/-- A store whose tables have more positions represents the same history. -/
theorem Represents.widen {s : TermStore} {frames : List TransactionFrame} (h : Represents Γ s frames) {a t b : TermSlots}
    (ha : Widens s.atomSlots a) (ht : Widens s.tripleSlots t) (hb : Widens s.activeSlots b) :
    Represents Γ { s with atomSlots := a, tripleSlots := t, activeSlots := b } frames := by
  have hi : Interned Γ { s with atomSlots := a, tripleSlots := t, activeSlots := b } :=
    ⟨h.interned.prior, h.interned.atomsApart, h.interned.triplesApart, h.interned.atomIndex.widen ha, h.interned.tripleIndex.widen ht⟩
  have hbuckets : Bucketed Γ { s with atomSlots := a, tripleSlots := t, activeSlots := b } :=
    ⟨h.folded.index.widen hb, h.folded.apart, h.folded.cells⟩
  have hf : Folded Γ { s with atomSlots := a, tripleSlots := t, activeSlots := b } := by
    refine ⟨hbuckets, h.folded.targets, fun handle => ?_⟩
    rw [h.folded.toBucketed.activePositions_congr hbuckets rfl fun _ _ => rfl]
    exact h.folded.active handle
  exact h.twin ⟨rfl, rfl, rfl, rfl, rfl, rfl⟩ hi hf

/-- What others change of the heap leaves a store its value, but for positions in its tables. -/
theorem Moves.read {heap heap' : Heap} {refs : StoreRefs} (hm : Moves owned heap heap')
    (ho : Held.Owns ⟨heap, refs⟩) (hd : ∀ c ∈ refs.activeCells, c ∉ owned) : Held.read ⟨heap', refs⟩ = { Held.read ⟨heap, refs⟩ with
      atomSlots := heap'.table refs.atomSlots, tripleSlots := heap'.table refs.tripleSlots
      activeSlots := heap'.table refs.activeSlots } := by
  have hcells : refs.activeCells.map heap'.cell = refs.activeCells.map heap.cell :=
    List.map_congr_left fun c hc => hm.kept c (ho.cells c hc) (hd c hc)
  simp only [Held.read, hcells]

theorem Moves.owns {heap heap' : Heap} {refs : StoreRefs} (hm : Moves owned heap heap')
    (ho : Held.Owns ⟨heap, refs⟩) : Held.Owns ⟨heap', refs⟩ :=
  ⟨ho.atomSlots.trans_le hm.tables, ho.tripleSlots.trans_le hm.tables, ho.activeSlots.trans_le hm.tables, ho.apart,
    fun c hc => (ho.cells c hc).trans_le hm.cells, ho.nodup⟩

/-- A member of a family and the lone store beside it. -/
structure Stands (Γ : Host) (s : TermStore) (heap : Heap) (refs : StoreRefs) (history : List MemberAct) : Prop where
  owns : Held.Owns ⟨heap, refs⟩
  twin : Twin (runMember Γ s history).1 (Held.read ⟨heap, refs⟩)
  lone : Represents Γ (runMember Γ s history).1 (runMember Γ s history).2
  member : Represents Γ (Held.read ⟨heap, refs⟩) (runMember Γ s history).2

section Members

variable {s : TermStore} {heap heap' : Heap} {refs : StoreRefs} {history : List MemberAct}

/-- What others change of the heap leaves a member with its lone store. -/
theorem Stands.move (h : Stands Γ s heap refs history) (hm : Moves owned heap heap')
    (hd : ∀ c ∈ refs.activeCells, c ∉ owned) : Stands Γ s heap' refs history := by
  have hread := hm.read h.owns hd
  refine ⟨hm.owns h.owns, ?_, h.lone, ?_⟩
  · rw [hread]
    exact ⟨h.twin.spaceId, h.twin.nextSequence, h.twin.atoms, h.twin.triples, h.twin.transactions, h.twin.operations⟩
  · rw [hread]
    exact h.member.widen (hm.widens _ h.owns.atomSlots) (hm.widens _ h.owns.tripleSlots) (hm.widens _ h.owns.activeSlots)

/-- An act on a member, and on its lone store. -/
theorem Stands.apply (h : Stands Γ s heap refs history) (act : MemberAct) :
    Stands Γ s (Held.apply Γ ⟨heap, refs⟩ act).heap (Held.apply Γ ⟨heap, refs⟩ act).refs (history ++ [act]) := by
  have hb := h.owns.apply (Γ := Γ) act
  obtain ⟨ht, hframe⟩ := h.twin.applyMember h.lone.interned h.member.interned act
  have hmember := h.member.applyMember act
  rw [hframe] at hmember
  refine ⟨hb.owns, ?_, ?_, ?_⟩
  · rw [runMember_concat]
    exact hb.read ▸ ht
  · rw [runMember_concat]
    exact h.lone.applyMember act
  · rw [runMember_concat]
    exact hb.read ▸ hmember

/-- A fork stands beside the lone store of its parent. -/
theorem Stands.forkStore (h : Stands Γ s heap refs history) :
    Stands Γ s (Held.forkStore ⟨heap, refs⟩).heap (Held.forkStore ⟨heap, refs⟩).refs history := by
  obtain ⟨hread, howns, -, -⟩ := h.owns.forkStore
  exact ⟨howns, hread ▸ h.twin, h.lone, hread ▸ h.member⟩

end Members

/-- Each member of a family stands beside its lone store, and no two members have a nested cell in common. -/
structure Isolated (Γ : Host) (s : TermStore) (forest : Forest) (histories : List (List MemberAct)) : Prop where
  length : histories.length = forest.members.length
  stands : ∀ (i : Nat) refs history, forest.members[i]? = some refs → histories[i]? = some history →
    Stands Γ s forest.heap refs history
  apart : ∀ (i j : Nat) refs refs', forest.members[i]? = some refs → forest.members[j]? = some refs' → i ≠ j →
    List.Disjoint refs.activeCells refs'.activeCells

section Family

variable {s : TermStore} {forest : Forest} {histories : List (List MemberAct)}

theorem Isolated.history (h : Isolated Γ s forest histories) {i : Nat} {refs : StoreRefs} (hi : forest.members[i]? = some refs) :
    ∃ history, histories[i]? = some history := by
  have hlt := (List.getElem?_eq_some_iff.1 hi).1
  exact ⟨_, List.getElem?_eq_getElem (by rw [h.length]; exact hlt)⟩

/-- An act on one member. -/
theorem Isolated.on (h : Isolated Γ s forest histories) {member : Nat} {refs : StoreRefs}
    (hmember : forest.members[member]? = some refs) (act : MemberAct) :
    Isolated Γ s ⟨(Held.apply Γ ⟨forest.heap, refs⟩ act).heap, forest.members.set member (Held.apply Γ ⟨forest.heap, refs⟩ act).refs⟩
      (histories.modify member (· ++ [act])) := by
  obtain ⟨history, hhistory⟩ := h.history hmember
  have hstands := h.stands member refs history hmember hhistory
  have hb := hstands.owns.apply (Γ := Γ) act
  have hlt := (List.getElem?_eq_some_iff.1 hmember).1
  -- A nested cell of the member that acts is one of its own before or is fresh; a bystander has neither.
  have hdisjoint : ∀ (i : Nat) refs', forest.members[i]? = some refs' → i ≠ member →
      List.Disjoint (Held.apply Γ ⟨forest.heap, refs⟩ act).refs.activeCells refs'.activeCells := by
    intro i refs' hi hne c hc hc'
    obtain ⟨history', hhistory'⟩ := h.history hi
    rcases hb.fresh c hc with hm | hm
    · exact h.apart member i refs refs' hmember hi hne.symm hm hc'
    · have hlt := (h.stands i refs' history' hi hhistory').owns.cells c hc'
      exact absurd hlt (Nat.not_lt.2 hm)
  refine ⟨by simp [h.length], fun i refs' history' hi hhistory' => ?_, fun i j refs' refs'' hi hj hne => ?_⟩
  · rw [List.getElem?_set] at hi
    rw [List.getElem?_modify] at hhistory'
    by_cases hm : member = i
    · subst hm
      rw [if_pos rfl, if_pos hlt] at hi
      simp only [if_true, hhistory] at hhistory'
      cases hi
      cases hhistory'
      exact hstands.apply act
    · rw [if_neg hm] at hi
      simp only [if_neg hm, id_map'] at hhistory'
      exact (h.stands i refs' history' hi hhistory').move hb.moves fun c hc hc' =>
        h.apart member i refs refs' hmember hi hm hc' hc
  · rw [List.getElem?_set] at hi hj
    by_cases hm : member = i
    · subst hm
      rw [if_pos rfl, if_pos hlt] at hi
      rw [if_neg hne] at hj
      cases hi
      exact hdisjoint j refs'' hj hne.symm
    · rw [if_neg hm] at hi
      by_cases hm' : member = j
      · subst hm'
        rw [if_pos rfl, if_pos hlt] at hj
        cases hj
        exact (hdisjoint i refs' hi hne).symm
      · rw [if_neg hm'] at hj
        exact h.apart i j refs' refs'' hi hj hne

/-- A fork of one member. -/
theorem Isolated.fork (h : Isolated Γ s forest histories) {member : Nat} {refs : StoreRefs}
    (hmember : forest.members[member]? = some refs) :
    Isolated Γ s ⟨(Held.forkStore ⟨forest.heap, refs⟩).heap, forest.members ++ [(Held.forkStore ⟨forest.heap, refs⟩).refs]⟩
      (histories ++ histories[member]?.toList) := by
  obtain ⟨history, hhistory⟩ := h.history hmember
  have hstands := h.stands member refs history hmember hhistory
  obtain ⟨-, -, hmoves, hfresh⟩ := hstands.owns.forkStore
  have hdisjoint : ∀ (i : Nat) refs', forest.members[i]? = some refs' →
      List.Disjoint (Held.forkStore ⟨forest.heap, refs⟩).refs.activeCells refs'.activeCells := by
    intro i refs' hi c hc hc'
    obtain ⟨history', hhistory'⟩ := h.history hi
    exact absurd ((h.stands i refs' history' hi hhistory').owns.cells c hc') (Nat.not_lt.2 (hfresh c hc))
  rw [hhistory]
  refine ⟨by simp [h.length], fun i refs' history' hi hhistory' => ?_, fun i j refs' refs'' hi hj hne => ?_⟩
  · rcases History.getElem?_concat_iff.1 hi with hi | ⟨rfl, rfl⟩
    · have hlt := (List.getElem?_eq_some_iff.1 hi).1
      rw [List.getElem?_append_left (by rw [h.length]; exact hlt)] at hhistory'
      exact (h.stands i refs' history' hi hhistory').move hmoves fun c _ hc => nomatch hc
    · rcases History.getElem?_concat_iff.1 hhistory' with hlt | ⟨-, rfl⟩
      · exact absurd (List.getElem?_eq_some_iff.1 hlt).1 (by rw [h.length]; exact lt_irrefl _)
      · exact hstands.forkStore
  · rcases History.getElem?_concat_iff.1 hi with hi | ⟨rfl, rfl⟩
    · rcases History.getElem?_concat_iff.1 hj with hj | ⟨-, rfl⟩
      · exact h.apart i j refs' refs'' hi hj hne
      · exact (hdisjoint i refs' hi).symm
    · rcases History.getElem?_concat_iff.1 hj with hj | ⟨rfl, -⟩
      · exact hdisjoint j refs'' hj
      · exact absurd rfl hne

/-- One act on a family. -/
theorem Isolated.apply (h : Isolated Γ s forest histories) (act : ForestAct) :
    Isolated Γ s (act.apply Γ forest) (act.record histories) := by
  cases act with
  | on member act =>
    simp only [ForestAct.apply, ForestAct.record]
    cases hmember : forest.members[member]? with
    | some refs => exact h.on hmember act
    | none =>
      rw [List.modify_eq_self (by rw [h.length]; exact List.getElem?_eq_none_iff.1 hmember)]
      exact h
  | fork member =>
    simp only [ForestAct.apply, ForestAct.record]
    cases hmember : forest.members[member]? with
    | some refs => exact h.fork hmember
    | none =>
      rw [List.getElem?_eq_none (by rw [h.length]; exact List.getElem?_eq_none_iff.1 hmember), Option.toList_none, List.append_nil]
      exact h

/-- A new store over a heap has the value of a new store. -/
theorem newTermStoreSized_read {a t b : Nat} (h : Held.newTermStoreSized spaceId a t b = .ok root) :
    newTermStoreSized spaceId a t b = .ok root.read ∧ root.Owns ∧ root.refs.activeCells = [] := by
  unfold Held.newTermStoreSized at h
  unfold newTermStoreSized
  split at h
  · rename_i hs
    cases h
    rw [if_pos hs]
    exact ⟨rfl, ⟨by simp, by simp, by simp, by simp, by simp, by simp⟩, rfl⟩
  · cases h

/-- The family of one new store. -/
theorem isolated_new {a t b : Nat} (h : Held.newTermStoreSized spaceId a t b = .ok root) :
    Isolated Γ root.read ⟨root.heap, [root.refs]⟩ [[]] := by
  obtain ⟨hnew, howns, hcells⟩ := newTermStoreSized_read h
  have hr := (represents_newTermStoreSized Γ hnew).1
  refine ⟨rfl, fun i refs history hi hhistory => ?_, fun i j refs refs' hi hj hne => ?_⟩
  · rcases i with _ | i
    · cases hi
      cases hhistory
      exact ⟨howns, Twin.refl _, hr, hr⟩
    · simp at hi
  · rcases i with _ | i
    · cases hi
      rw [hcells]
      exact List.disjoint_nil_left _
    · simp at hi

/-- After any acts each member of a family stands beside its lone store. -/
theorem isolated_grow {a t b : Nat} (h : Held.newTermStoreSized spaceId a t b = .ok root)
    (acts : List ForestAct) : Isolated Γ root.read (grow Γ root acts) (historiesOf acts) := by
  induction acts using List.reverseRecOn with
  | nil => exact isolated_new h
  | append_singleton acts act ih =>
    simp only [grow, historiesOf, List.foldl_append, List.foldl_cons, List.foldl_nil]
    exact ih.apply act

end Family

end Shared

end Fram
