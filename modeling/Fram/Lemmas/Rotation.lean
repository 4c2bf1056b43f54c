import Fram.Lemmas.Observe
import Fram.Rotation

/-!
# What a rotation answers

A read of a rotation is a filter of one list, its events with the pending operations folded over them (`matching_eq`). That list
is the live assertions of the history that the rotation covers, for as long as the rotation is projected from a store and refreshed
by it (`Covers`, `project_ok`, `refresh_ok`).
-/

namespace Fram

section Buckets

variable {Γ : Host} {events : List OperationOccurrence} {shapes : List Shape} {shape : Shape}

/-- The items of one shape are the events. -/
theorem bucketItems_filter (hs : (shapes.filter fun s => decide (shape = s)) = [shape]) (p : OperationOccurrence → Bool) :
    ((bucketItems events shapes).filter fun x => decide (shape = x.1.shape) && p x.2).map (·.2) = events.filter p := by
  unfold bucketItems
  generalize 0 = n
  induction events generalizing n with
  | nil => rfl
  | cons e events ih =>
    have hhead : ((shapes.map fun s => ((⟨n, s⟩ : KeyCode), e)).filter fun x => decide (shape = x.1.shape) && p x.2) =
        if p e then [((⟨n, shape⟩ : KeyCode), e)] else [] := by
      rw [List.filter_map]
      cases hp : p e with
      | true =>
        simp only [Function.comp_def, hp, Bool.and_true, hs, List.map_cons, List.map_nil, if_true]
      | false =>
        simp only [Function.comp_def, hp, Bool.and_false, List.filter_false, List.map_nil, Bool.false_eq_true, if_false]
    rw [List.zipIdx_cons, List.flatMap_cons, List.filter_append, List.map_append, hhead, ih, List.filter_cons]
    cases hp : p e <;> simp

/-- An item stands under the position of its event. -/
theorem getElem?_of_mem_bucketItems {x : KeyCode × OperationOccurrence} (hx : x ∈ bucketItems events shapes) :
    events[x.1.position]? = some x.2 := by
  unfold bucketItems at hx
  obtain ⟨⟨e, i⟩, he, hx⟩ := List.mem_flatMap.1 hx
  obtain ⟨s, -, rfl⟩ := List.mem_map.1 hx
  exact List.mem_zipIdx_iff_getElem?.1 he

/-- A shape's keys agree when their terms do. -/
theorem sameShapeKey_symm (l r : OperationOccurrence) (h : sameShapeKey shape l r = true) : sameShapeKey shape r l = true := by
  cases shape <;> simp only [sameShapeKey, Bool.and_eq_true] at h ⊢
  · exact Term.eqv_symm h
  · exact ⟨Term.eqv_symm h.1, Term.eqv_symm h.2⟩
  · exact Term.eqv_symm h
  · exact Term.eqv_symm h

theorem sameShapeKey_trans (l m r : OperationOccurrence) (h : sameShapeKey shape l m = true)
    (h' : sameShapeKey shape m r = true) : sameShapeKey shape l r = true := by
  cases shape <;> simp only [sameShapeKey, Bool.and_eq_true] at h h' ⊢
  · exact Term.eqv_trans h h'
  · exact ⟨Term.eqv_trans h.1 h'.1, Term.eqv_trans h.2 h'.2⟩
  · exact Term.eqv_trans h h'
  · exact Term.eqv_trans h h'

theorem shapeHash_eq (l r : OperationOccurrence) (h : sameShapeKey shape l r = true) : shapeHash Γ shape l = shapeHash Γ shape r := by
  cases shape <;> simp only [sameShapeKey, Bool.and_eq_true] at h <;> simp only [shapeHash]
  · exact Γ.hashOne_eqv _ _ h
  · exact Γ.hashTwo_eqv _ _ _ _ h.1 h.2
  · exact Γ.hashOne_eqv _ _ h
  · exact Γ.hashOne_eqv _ _ h

theorem KeyCode.same_iff (a b : KeyCode) : KeyCode.same events a b = true ↔
      a.shape = b.shape ∧ ∃ l r, events[a.position]? = some l ∧ events[b.position]? = some r ∧ sameShapeKey a.shape l r = true := by
  unfold KeyCode.same
  cases events[a.position]? <;> cases events[b.position]? <;> simp

/-- Keys of events respect their hash. -/
theorem respects_same : Chained.Respects (KeyCode.hash Γ events) (KeyCode.same events) where
  symm a b h := by
    obtain ⟨hs, l, r, hl, hr, h⟩ := (KeyCode.same_iff a b).1 h
    exact (KeyCode.same_iff b a).2 ⟨hs.symm, r, l, hr, hl, hs ▸ sameShapeKey_symm l r h⟩
  trans a b c h h' := by
    obtain ⟨hs, l, m, hl, hm, h⟩ := (KeyCode.same_iff a b).1 h
    obtain ⟨hs', m', r, hm', hr, h'⟩ := (KeyCode.same_iff b c).1 h'
    obtain rfl : m = m' := Option.some.inj (hm.symm.trans hm')
    rw [← hs] at h'
    exact (KeyCode.same_iff a c).2 ⟨hs.trans hs', l, r, hl, hr, sameShapeKey_trans l m r h h'⟩
  hash a b h := by
    obtain ⟨hs, l, r, hl, hr, h⟩ := (KeyCode.same_iff a b).1 h
    unfold KeyCode.hash
    rw [hl, hr, ← hs]
    exact shapeHash_eq l r h

/-- A probe whose test is agreement with the keys of a shape finds the events that pass it. -/
theorem leaf_eq (hs : (shapes.filter fun s => decide (shape = s)) = [shape]) {width : Nat} (hw : 0 < width) {g : Int}
    {p : OperationOccurrence → Bool} (hg : ∀ e, p e = true → shapeHash Γ shape e = g)
    (hself : ∀ l r, p l = true → p r = true → sameShapeKey shape l r = true)
    (hclosed : ∀ l r, p l = true → sameShapeKey shape l r = true → p r = true) :
    (Chained.build (KeyCode.hash Γ events) (KeyCode.same events) bucketSlotLoad width (bucketItems events shapes)).leaf g
      (fun code => decide (shape = code.shape) && events[code.position]?.any p) = events.filter p := by
  have htest : ∀ code : KeyCode, (decide (shape = code.shape) && events[code.position]?.any p) = true ↔
      shape = code.shape ∧ ∃ e, events[code.position]? = some e ∧ p e = true := by
    intro code
    rw [Bool.and_eq_true, decide_eq_true_iff, Option.any_eq_true]
  rw [(Chained.holds_build respects_same bucketSlotLoad hw _).leaf_eq]
  · rw [← bucketItems_filter hs p]
    congr 1
    refine List.filter_congr fun x hx => ?_
    rw [getElem?_of_mem_bucketItems hx, Option.any_some]
  · intro code hc
    obtain ⟨hsh, e, he, hp⟩ := (htest code).1 hc
    unfold KeyCode.hash
    rw [he, ← hsh]
    exact hg e hp
  · intro a b ha hb
    obtain ⟨hsa, l, hl, hpl⟩ := (htest a).1 ha
    obtain ⟨hsb, r, hr, hpr⟩ := (htest b).1 hb
    exact (KeyCode.same_iff a b).2 ⟨hsa.symm.trans hsb, l, r, hl, hr, hsa ▸ hself l r hpl hpr⟩
  · intro a b ha hab
    obtain ⟨hsa, l, hl, hpl⟩ := (htest a).1 ha
    obtain ⟨hsh, l', r, hl', hr, hlr⟩ := (KeyCode.same_iff a b).1 hab
    obtain rfl : l = l' := Option.some.inj (hl.symm.trans hl')
    exact (htest b).2 ⟨hsa.trans hsh, r, hr, hclosed l r hpl (hsa ▸ hlr)⟩
  · intro a b hb hab
    obtain ⟨hsb, r, hr, hpr⟩ := (htest b).1 hb
    obtain ⟨hsh, l, r', hl, hr', hlr⟩ := (KeyCode.same_iff a b).1 hab
    obtain rfl : r = r' := Option.some.inj (hr.symm.trans hr')
    have hsa : shape = a.shape := hsb.trans hsh.symm
    exact (htest a).2 ⟨hsa, l, hl, hclosed r l hpr (sameShapeKey_symm l r (hsa ▸ hlr))⟩

/-- The events of one bound slot. -/
theorem bucketLeafOne_eq (hs : (shapes.filter fun s => decide (shape = s)) = [shape]) (hn : shape ≠ .t12) {width : Nat}
    (hw : 0 < width) (a : Term) : bucketLeafOne Γ (Chained.build (KeyCode.hash Γ events) (KeyCode.same events) bucketSlotLoad width
      (bucketItems events shapes)) events shape a = events.filter fun e => a.eqv (shapeTerm shape e) := by
  have hkey : ∀ l r : OperationOccurrence, sameShapeKey shape l r = (shapeTerm shape l).eqv (shapeTerm shape r) := by
    intro l r
    cases shape with
    | t12 => exact absurd rfl hn
    | _ => rfl
  refine leaf_eq hs hw (fun e h => ?_) (fun l r hl hr => ?_) (fun l r hl h => ?_)
  · cases shape with
    | t12 => exact absurd rfl hn
    | _ => exact (Γ.hashOne_eqv _ _ h).symm
  · rw [hkey]
    exact Term.eqv_trans (Term.eqv_symm hl) hr
  · rw [hkey] at h
    exact Term.eqv_trans hl h

/-- The events of two bound slots. -/
theorem bucketLeafTwo_eq (hs : (shapes.filter fun s => decide (Shape.t12 = s)) = [.t12]) {width : Nat} (hw : 0 < width) (a b : Term) :
    bucketLeafTwo Γ (Chained.build (KeyCode.hash Γ events) (KeyCode.same events) bucketSlotLoad width
      (bucketItems events shapes)) events a b =
        events.filter fun e => a.eqv e.proposition.t1 && b.eqv e.proposition.t2 := by
  refine leaf_eq hs hw (fun e h => ?_) (fun l r hl hr => ?_) (fun l r hl h => ?_)
  · rw [Bool.and_eq_true] at h
    exact (Γ.hashTwo_eqv _ _ _ _ h.1 h.2).symm
  · rw [Bool.and_eq_true] at hl hr
    simp only [sameShapeKey, Bool.and_eq_true]
    exact ⟨Term.eqv_trans (Term.eqv_symm hl.1) hr.1, Term.eqv_trans (Term.eqv_symm hl.2) hr.2⟩
  · rw [Bool.and_eq_true] at hl
    simp only [sameShapeKey, Bool.and_eq_true] at h ⊢
    exact ⟨Term.eqv_trans hl.1 h.1, Term.eqv_trans hl.2 h.2⟩

theorem widenedFor_pos (n fuel : Nat) {width : Nat} (h : 0 < width) : 0 < widenedFor n fuel width := by
  induction fuel generalizing width with
  | zero => exact h
  | succ fuel ih =>
    unfold widenedFor
    split
    · exact h
    · exact ih (by omega)

theorem initialBucketWidth_pos (n : Nat) : 0 < initialBucketWidth n := widenedFor_pos n n (by decide)

end Buckets

/-! ## Reads -/

/-- The leaves of a rotation are filters of its events. -/
structure Indexed (Γ : Host) (r : Rotation) : Prop where
  t1 : ∀ a, bucketLeafOne Γ r.spo r.events .t1 a = r.events.filter fun e => a.eqv e.proposition.t1
  t12 : ∀ a b, bucketLeafTwo Γ r.spo r.events a b = r.events.filter fun e => a.eqv e.proposition.t1 && b.eqv e.proposition.t2
  t2 : ∀ a, bucketLeafOne Γ r.pos r.events .t2 a = r.events.filter fun e => a.eqv e.proposition.t2
  t3 : ∀ a, bucketLeafOne Γ r.osp r.events .t3 a = r.events.filter fun e => a.eqv e.proposition.t3

section Reads

variable {Γ : Host} {r : Rotation} {t1 t2 t3 : Option Term}

/-- The events that match a pattern. -/
def matchesPattern (t1 t2 t3 : Option Term) (e : OperationOccurrence) : Bool := patternMatch e.proposition t1 t2 t3

/-- A pattern does not tell equal propositions apart. -/
theorem patternMatch_eqv {p q : Triple} (h : p.eqv q = true) : patternMatch p t1 t2 t3 = true → patternMatch q t1 t2 t3 = true := by
  have hslot : ∀ (t : Option Term) (a b : Term), a.eqv b = true → slotMatches t a = true → slotMatches t b = true := by
    intro t a b hab ht
    cases t with
    | none => rfl
    | some t => exact Term.eqv_trans ht hab
  have h' : (p.t1.eqv q.t1 && p.t2.eqv q.t2 && p.t3.eqv q.t3) = true := h
  simp only [Bool.and_eq_true] at h'
  simp only [patternMatch, Bool.and_eq_true]
  exact fun hp => ⟨hslot _ _ _ h'.1.1 hp.1, hslot _ _ _ h'.1.2 hp.2.1, hslot _ _ _ h'.2 hp.2.2⟩

/-- The newest equal event is removed from the matching events as from all. -/
theorem withoutNewestOf_filter (base : List OperationOccurrence) (p : Triple) :
    withoutNewestOf (base.filter (matchesPattern t1 t2 t3)) p = (withoutNewestOf base p).filter (matchesPattern t1 t2 t3) := by
  have hagree : ∀ x y : OperationOccurrence, p.eqv x.proposition = true → p.eqv y.proposition = true →
      matchesPattern t1 t2 t3 x = true → matchesPattern t1 t2 t3 y = true := fun x y hx hy =>
    patternMatch_eqv (Triple.eqv_trans (Triple.eqv_symm hx) hy)
  unfold withoutNewestOf
  cases hx : base.extractLast fun e => p.eqv e.proposition with
  | none =>
    have hn := (List.extractLast_eq_none_iff _ _).1 hx
    rw [(List.extractLast_eq_none_iff _ _).2 fun x hm => hn x (List.mem_filter.1 hm).1]
  | some found =>
    obtain ⟨x, rest⟩ := found
    have hpx := (List.mem_of_extractLast hx).2
    cases hm : matchesPattern t1 t2 t3 x with
    | true =>
      rw [List.extractLast_filter fun y _ hy => hagree x y hpx hy hm, hx]
      rfl
    | false =>
      have hnone : (base.filter (matchesPattern t1 t2 t3)).extractLast (fun e => p.eqv e.proposition) = none := by
        refine (List.extractLast_eq_none_iff _ _).2 fun y hy => ?_
        by_contra hp
        rw [Bool.not_eq_false] at hp
        rw [hagree y x hp hpx (List.mem_filter.1 hy).2] at hm
        cases hm
      rw [hnone]
      exact (List.filter_of_extractLast hx hm).symm

/-- Folding the pending operations over the matching events gives the matching ones of the fold. -/
theorem mergedMatching_filter (base pending : List OperationOccurrence) :
    mergedMatching (base.filter (matchesPattern t1 t2 t3)) pending t1 t2 t3 =
      (mergedMatching base pending none none none).filter (matchesPattern t1 t2 t3) := by
  unfold mergedMatching
  induction pending generalizing base with
  | nil => rfl
  | cons op pending ih =>
    rw [List.foldl_cons, List.foldl_cons, ← ih]
    congr 1
    cases op.action with
    | assert =>
      have htrue : patternMatch op.proposition none none none = true := rfl
      simp only [htrue, if_true, List.filter_append, List.filter_cons, List.filter_nil, matchesPattern]
      split <;> rename_i hm <;> simp [hm]
    | retract => exact withoutNewestOf_filter base op.proposition

/-- What a read of a rotation answers. -/
theorem matching_eq (h : Indexed Γ r) (t1 t2 t3 : Option Term) :
    matching Γ r t1 t2 t3 = (allOccurrences r).filter (matchesPattern t1 t2 t3) := by
  unfold allOccurrences
  rw [← mergedMatching_filter]
  have hfilter : ∀ f g : OperationOccurrence → Bool, (∀ e, f e = g e) → r.events.filter f = r.events.filter g :=
    fun f g hfg => List.filter_congr fun e _ => hfg e
  rcases t1 with _ | a <;> rcases t2 with _ | b <;> rcases t3 with _ | c
  · have hall : r.events.filter (matchesPattern none none none) = r.events := List.filter_eq_self.2 fun e _ => rfl
    rw [hall]
    rfl
  · simp only [matching, byT3, h.t3]
    congr 1
  · simp only [matching, byT2, h.t2]
    congr 1
    exact hfilter _ _ fun e => by simp [matchesPattern, patternMatch, slotMatches]
  · simp only [matching, byT23, narrowed, h.t3, List.filter_filter]
    congr 1
    exact hfilter _ _ fun e => by simp [matchesPattern, patternMatch, slotMatches]
  · simp only [matching, byT1, h.t1]
    congr 1
    exact hfilter _ _ fun e => by simp [matchesPattern, patternMatch, slotMatches]
  · simp only [matching, byT13, narrowed, h.t3, List.filter_filter]
    congr 1
    exact hfilter _ _ fun e => by simp [matchesPattern, patternMatch, slotMatches]
  · simp only [matching, byT12, h.t12]
    congr 1
    exact hfilter _ _ fun e => by simp [matchesPattern, patternMatch, slotMatches]
  · simp only [matching, byProposition, narrowed, h.t12, List.filter_filter]
    congr 1
    refine hfilter _ _ fun e => ?_
    simp only [matchesPattern, patternMatch, slotMatches, Bool.true_and]
    cases a.eqv e.proposition.t1 <;> cases b.eqv e.proposition.t2 <;> cases c.eqv e.proposition.t3 <;> rfl

end Reads

/-! ## Live assertions -/

section Live

variable {spaceId : String} {log : List LoggedOperation}

/-- What stands after one more operation. -/
theorem liveOccurrences_concat (spaceId : String) (log : List LoggedOperation) (e : LoggedOperation) :
    Reference.liveOccurrences spaceId (log ++ [e]) =
      match e.action with
      | .assert => Reference.liveOccurrences spaceId log ++ [e.occurrence spaceId]
      | .retract => withoutNewestOf (Reference.liveOccurrences spaceId log) e.proposition := by
  have hreads := reads_reading log
  have hlt : ∀ x ∈ (reading log).live, x.1 < log.length := fun x hx => by simpa using hreads.lt hx
  have hat : ∀ live : List (Nat × Triple), (∀ x ∈ live, x.1 < log.length) →
      (live.map (·.1)).filterMap ((Reference.occurrences spaceId (log ++ [e]))[·]?) =
        live.filterMap fun x => (Reference.occurrences spaceId log)[x.1]? := by
    intro live hl
    rw [List.filterMap_map]
    refine List.filterMap_congr fun x hx => ?_
    simp only [Function.comp_def, Reference.occurrences, List.map_append]
    rw [List.getElem?_append_left (by simpa using hl x hx)]
  have hstep : reading (log ++ [e]) = History.step Triple.eqv (reading log) e.op := by
    rw [reading, List.map_append, List.map_singleton, History.run_concat]
    rfl
  have hlive : Reference.liveOccurrences spaceId log =
      (reading log).live.filterMap fun x => (Reference.occurrences spaceId log)[x.1]? := by
    unfold Reference.liveOccurrences Reference.livePositions
    rw [List.filterMap_map]
    rfl
  have hnew : Reference.liveOccurrences spaceId (log ++ [e]) =
      ((reading (log ++ [e])).live.map (·.1)).filterMap ((Reference.occurrences spaceId (log ++ [e]))[·]?) := rfl
  rw [hnew, hlive, hstep]
  cases ha : e.action with
  | assert =>
    have hop : e.op = ⟨true, e.proposition⟩ := by simp [LoggedOperation.op, ha]
    simp only [hop, History.step, if_true, List.map_append, List.filterMap_append, List.map_cons, List.map_nil]
    rw [hat _ hlt, hreads.count]
    simp [Reference.occurrences]
  | retract =>
    have hop : e.op = ⟨false, e.proposition⟩ := by simp [LoggedOperation.op, ha]
    simp only [hop, History.step, Bool.false_eq_true, if_false]
    -- The entry of a position that stands is an occurrence of the same proposition.
    have hentry : ∀ x ∈ (reading log).live, ∃ o, (Reference.occurrences spaceId log)[x.1]? = some o ∧
        e.proposition.eqv o.proposition = x.2.eqv e.proposition := by
      intro x hx
      have hx' := ((hreads.live_iff x.1 x.2).1 hx).1
      rw [List.getElem?_map, Option.map_eq_some_iff] at hx'
      obtain ⟨a, hat, ho⟩ := hx'
      refine ⟨a.occurrence spaceId, by simp [Reference.occurrences, hat], ?_⟩
      have hp : a.proposition = x.2 := congrArg History.Op.content ho
      rw [show (a.occurrence spaceId).proposition = a.proposition from rfl, hp, Bool.eq_iff_iff]
      exact ⟨Triple.eqv_symm, Triple.eqv_symm⟩
    have hx := List.extractLast_filterMap (p := fun o : OperationOccurrence => e.proposition.eqv o.proposition)
      (q := fun x : Nat × Triple => x.2.eqv e.proposition)
      (f := fun x => (Reference.occurrences spaceId log)[x.1]?) hentry
    unfold withoutNewestOf
    rw [hx]
    cases hq : (reading log).live.extractLast fun x => x.2.eqv e.proposition with
    | none =>
      simp only [Option.bind_none]
      exact hat _ hlt
    | some found =>
      obtain ⟨x, rest⟩ := found
      obtain ⟨o, ho, -⟩ := hentry x (List.mem_of_extractLast hq).1
      simp only [Option.bind_some, ho, Option.map_some]
      exact hat rest fun y hy => hlt y ((List.extractLast_sublist hq).subset hy)

/-- Later operations folded over what stands. -/
theorem mergedMatching_live (spaceId : String) (log later : List LoggedOperation) :
    mergedMatching (Reference.liveOccurrences spaceId log) (Reference.occurrences spaceId later) none none none =
      Reference.liveOccurrences spaceId (log ++ later) := by
  unfold mergedMatching Reference.occurrences
  induction later generalizing log with
  | nil => simp
  | cons e later ih =>
    rw [List.map_cons, List.foldl_cons, show log ++ e :: later = (log ++ [e]) ++ later by simp, ← ih (log ++ [e]),
      liveOccurrences_concat]
    rfl

/-- What stands is an assertion of the log. -/
theorem exists_of_mem_liveOccurrences {o : OperationOccurrence} (h : o ∈ Reference.liveOccurrences spaceId log) :
    ∃ e ∈ log, e.action = .assert ∧ o = e.occurrence spaceId := by
  obtain ⟨q, hq, ho⟩ := List.mem_filterMap.1 h
  obtain ⟨x, hx, rfl⟩ := List.mem_map.1 hq
  have hx' := (((reads_reading log).live_iff x.1 x.2).1 hx).1
  rw [List.getElem?_map, Option.map_eq_some_iff] at hx'
  obtain ⟨e, he, hop⟩ := hx'
  rw [Reference.occurrences, List.getElem?_map, he, Option.map_some, Option.some.injEq] at ho
  refine ⟨e, List.mem_of_getElem? he, ?_, ho.symm⟩
  have := congrArg History.Op.adds hop
  simpa [LoggedOperation.op] using this

/-- Folding related operations over related events gives related events. -/
theorem mergedMatching_same {base base' ops ops' : List OperationOccurrence}
    (hb : List.Forall₂ OperationOccurrence.same base base') (ho : List.Forall₂ OperationOccurrence.same ops ops') :
    List.Forall₂ OperationOccurrence.same (mergedMatching base ops none none none) (mergedMatching base' ops' none none none) := by
  unfold mergedMatching
  induction ho generalizing base base' with
  | nil => exact hb
  | @cons o o' ops ops' hoo _ ih =>
    rw [List.foldl_cons, List.foldl_cons]
    refine ih ?_
    have hact := hoo.2.1
    have hprop := hoo.2.2
    rw [← hact]
    cases ha : o.action with
    | assert => exact List.rel_append hb (.cons hoo .nil)
    | retract =>
      have hx := List.extractLast_rel (p := fun e : OperationOccurrence => o.proposition.eqv e.proposition)
        (q := fun e : OperationOccurrence => o'.proposition.eqv e.proposition) hb
        fun x y hxy => Triple.eqv_congr hprop hxy.2.2
      simp only [withoutNewestOf]
      revert hx
      cases base.extractLast _ <;> cases base'.extractLast _ <;> intro hx
      · exact hb
      · cases hx
      · cases hx
      · cases hx with
        | some hx => exact hx.2

end Live

/-! ## Projection and refresh -/

/-- A coordinate is located at an event that has it, where there is one. -/
def Located (Γ : Host) (r : Rotation) : Prop :=
  ∀ c, match occurrenceEvent Γ r.byOccurrence r.events c with
    | some e => e ∈ r.events ∧ c.eqv e.coordinate = true
    | none => ∀ e ∈ r.events, c.eqv e.coordinate = false

/-- The rotation follows a log: its events are what stands of a first part of it, and the operations after that are pending. -/
structure Follows (Γ : Host) (r : Rotation) (spaceId : String) (log : List LoggedOperation) : Prop where
  space : r.spaceId = spaceId
  indexed : Indexed Γ r
  located : Located Γ r
  parts : ∃ base later, log = base ++ later ∧
    List.Forall₂ OperationOccurrence.same r.events (Reference.liveOccurrences spaceId base) ∧
    List.Forall₂ OperationOccurrence.same r.pending (Reference.occurrences spaceId later)

/-- The rotation covers the history of the frames of a space. -/
structure Covers (Γ : Host) (r : Rotation) (spaceId : String) (frames : List TransactionFrame) : Prop
    extends Follows Γ r spaceId (logOf frames) where
  version : r.version = (frames.getLast?.map (·.sequence)).getD 0

/-- What a rotation shows is what stands of the log that it follows. -/
theorem Follows.live {Γ : Host} {r : Rotation} {spaceId : String} {log : List LoggedOperation} (h : Follows Γ r spaceId log) :
    List.Forall₂ OperationOccurrence.same (allOccurrences r) (Reference.liveOccurrences spaceId log) := by
  obtain ⟨base, later, rfl, he, hp⟩ := h.parts
  rw [← mergedMatching_live]
  exact mergedMatching_same he hp

/-- More pending operations follow a longer log. -/
theorem Follows.append {Γ : Host} {r : Rotation} {spaceId : String} {log more : List LoggedOperation} {ops : List OperationOccurrence}
    (h : Follows Γ r spaceId log) (ho : List.Forall₂ OperationOccurrence.same ops (Reference.occurrences spaceId more))
    (version : Int) : Follows Γ { r with version := version, pending := r.pending ++ ops } spaceId (log ++ more) := by
  obtain ⟨base, later, rfl, he, hp⟩ := h.parts
  refine ⟨h.space, ⟨h.indexed.t1, h.indexed.t12, h.indexed.t2, h.indexed.t3⟩, h.located, base, later ++ more, List.append_assoc .., he, ?_⟩
  rw [Reference.occurrences, List.map_append]
  exact List.rel_append hp ho

section Projection

variable {Γ : Host} {s : TermStore} {frames : List TransactionFrame} {spaceId : String}

/-- An occurrence that is the same as an assertion of a log is an assertion. -/
theorem isAssertionOccurrence_of_same (hs : 0 < spaceId.length) {e : LoggedOperation} (hq : 0 ≤ e.sequence)
    (ha : e.action = .assert) {o : OperationOccurrence} (h : o.same (e.occurrence spaceId)) : isAssertionOccurrence o = true := by
  have hc : o.coordinate = coordinateOf spaceId e.sequence e.ordinal := h.1
  have ho : o.action = .assert := h.2.1.trans ha
  unfold isAssertionOccurrence
  rw [hc, isOccurrenceCoordinate_coordinateOf hs hq (Int.natCast_nonneg _), ho]
  rfl

/-- Occurrences that are the same as what stands of a history are assertions. -/
theorem Represents.assertions (h : Represents Γ s frames) {events : List OperationOccurrence}
    (he : List.Forall₂ OperationOccurrence.same events (Reference.liveOccurrences s.spaceId (logOf frames))) :
    ∀ o ∈ events, isAssertionOccurrence o = true := by
  intro o ho
  obtain ⟨i, hi, rfl⟩ := List.getElem_of_mem ho
  have hi' := he.length_eq ▸ hi
  have hsame := (List.forall₂_iff_get.1 he).2 i hi hi'
  obtain ⟨e, hm, ha, hoe⟩ := exists_of_mem_liveOccurrences (List.get_mem _ ⟨i, hi'⟩)
  rw [hoe] at hsame
  exact isAssertionOccurrence_of_same h.space (h.sequence_pos hm) ha hsame

/-- The positions of events by coordinate find an event of a coordinate, where there is one. -/
theorem occurrenceEvent_linkAll (Γ : Host) (events : List OperationOccurrence) {width : Nat} (hw : 0 < width) (c : Triple) :
    match occurrenceEvent Γ ⟨width, (Chained.linkAll width (events.map fun e => Γ.hashOne e.coordinate.term)).1,
        (Chained.linkAll width (events.map fun e => Γ.hashOne e.coordinate.term)).2⟩ events c with
    | some e => e ∈ events ∧ c.eqv e.coordinate = true | none => ∀ e ∈ events, c.eqv e.coordinate = false := by
  have hlinked := Chained.linked_linkAll hw (events.map fun e => Γ.hashOne e.coordinate.term)
  have ht : ∀ k, (events[k]?.any fun e => c.eqv e.coordinate) = true →
      (events.map fun e => Γ.hashOne e.coordinate.term)[k]? = some (Γ.hashOne c.term) ∨
        (events.map fun e => Γ.hashOne e.coordinate.term).length ≤ k := by
    intro k hk
    left
    obtain ⟨e, he, hc⟩ := (Option.any_eq_true _ _).1 hk
    rw [List.getElem?_map, he, Option.map_some, Γ.hashOne_eqv c.term e.coordinate.term hc]
  have hwalk := hlinked.walk_eq ht (by simp : (events.map fun e => Γ.hashOne e.coordinate.term).length ≤ events.length)
  unfold occurrenceEvent
  revert hwalk
  cases Chained.walk _ _ events.length _ with
  | none =>
    intro hnone e he
    obtain ⟨k, hk, rfl⟩ := List.getElem_of_mem he
    simpa [List.getElem?_eq_getElem hk] using hnone k (by simpa using hk)
  | some k =>
    rintro ⟨hk, htest, -⟩
    obtain ⟨e, he, hc⟩ := (Option.any_eq_true _ _).1 htest
    simp only [he]
    exact ⟨List.mem_of_getElem? he, hc⟩

/-- A projection of assertions has leaves that are filters of them. -/
theorem projected_ok (Γ : Host) (spaceId : String) (version : Int) {events : List OperationOccurrence}
    (h : ∀ o ∈ events, isAssertionOccurrence o = true) :
    ∃ r, projected Γ spaceId version events = .ok r ∧ r.spaceId = spaceId ∧ r.version = version ∧ r.events = events ∧
      r.pending = [] ∧ Indexed Γ r ∧ Located Γ r := by
  have hchecked : events.mapM checkedAssertion = .ok events := by
    have := ExceptList.mapM_eq_ok (f := checkedAssertion) (g := id) (l := events) fun o ho => by
      simp [checkedAssertion, h o ho]
    simpa using this
  have hbucket : ∀ (shapes : List Shape) (width : Nat), projectedBucket Γ events shapes width =
      .ok (Chained.build (KeyCode.hash Γ events) (KeyCode.same events) bucketSlotLoad width (bucketItems events shapes)) := by
    intro shapes width
    simp only [projectedBucket, hchecked, bind, Except.bind]
  refine ⟨_, by simp only [projected, projectedOccurrences, hbucket, hchecked, bind, Except.bind]; rfl, rfl, rfl, rfl, rfl, ?_, ?_⟩
  · exact ⟨bucketLeafOne_eq (by decide) (by decide) (initialBucketWidth_pos _),
      bucketLeafTwo_eq (by decide) (initialBucketWidth_pos _), bucketLeafOne_eq (by decide) (by decide) (initialBucketWidth_pos _),
      bucketLeafOne_eq (by decide) (by decide) (initialBucketWidth_pos _)⟩
  · exact occurrenceEvent_linkAll Γ events (initialBucketWidth_pos _)

/-- A projection of what stands of a history follows it. -/
theorem Represents.projected (h : Represents Γ s frames) (version : Int) {events : List OperationOccurrence}
    (he : List.Forall₂ OperationOccurrence.same events (Reference.liveOccurrences s.spaceId (logOf frames))) :
    ∃ r, projected Γ s.spaceId version events = .ok r ∧ r.version = version ∧ Follows Γ r s.spaceId (logOf frames) := by
  obtain ⟨r, hr, hspace, hversion, hevents, hpending, hindexed, hlocated⟩ := projected_ok Γ s.spaceId version (h.assertions he)
  refine ⟨r, hr, hversion, hspace, hindexed, hlocated, logOf frames, [], (List.append_nil _).symm, hevents ▸ he, ?_⟩
  rw [hpending]
  exact .nil

/-- A projection of a store covers its history. -/
theorem project_ok (h : Represents Γ s frames) : ∃ r, project Γ s = .ok r ∧ Covers Γ r s.spaceId frames := by
  obtain ⟨events, hev, hsame⟩ := h.liveOccurrences
  obtain ⟨r, hr, hversion, hfollows⟩ := h.projected (Fram.currentSequence s) hsame
  refine ⟨r, ?_, hfollows, hversion.trans h.currentSequence⟩
  simp only [project, hev, bind, Except.bind]
  exact hr

theorem occurrenceCoordinate_transaction (hs : 0 < spaceId.length) {q : Int} (hq : 0 ≤ q) (ordinal : Nat) :
    occurrenceCoordinate ⟨.str spaceId, txSequence, .int q⟩ ordinal = .ok (coordinateOf spaceId q ordinal) := by
  have := occurrenceCoordinate_ok hs hq (Int.natCast_nonneg ordinal)
  rw [transactionCoordinate_ok hs hq] at this
  exact this

/-- The pending operations of a frame read back are its occurrences. -/
theorem pendingFrom_ok (hs : 0 < spaceId.length) {q : Int} (hq : 0 ≤ q) {operations operations' : List CommitOperation}
    (h : List.Forall₂ CommitOperation.same operations operations') (ordinal : Nat) :
    ∃ ops, pendingFrom ⟨.str spaceId, txSequence, .int q⟩ ordinal operations = .ok ops ∧
      List.Forall₂ OperationOccurrence.same ops (Reference.occurrences spaceId (loggedFrom q ordinal operations')) := by
  induction h generalizing ordinal with
  | nil => exact ⟨[], rfl, .nil⟩
  | @cons o o' operations operations' hoo _ ih =>
    obtain ⟨ops, hops, hsame⟩ := ih (ordinal + 1)
    refine ⟨⟨coordinateOf spaceId q ordinal, o.action, o.proposition⟩ :: ops, ?_, .cons ⟨rfl, hoo.1, hoo.2⟩ hsame⟩
    simp only [pendingFrom, occurrenceCoordinate_transaction hs hq, operationOccurrence,
      isOccurrenceCoordinate_coordinateOf hs hq (Int.natCast_nonneg ordinal), if_true, hops, bind, Except.bind]

/-- The pending operations with those of frames read back. -/
theorem foldlM_pendingWithFrame (hs : 0 < spaceId.length) {fs fs' : List TransactionFrame}
    (h : List.Forall₂ TransactionFrame.same fs fs') (hq : ∀ f ∈ fs', 0 ≤ f.sequence) (pending : List OperationOccurrence) :
    ∃ ops, fs.foldlM (fun built frame => pendingWithFrame built spaceId frame) pending = .ok (pending ++ ops) ∧
      List.Forall₂ OperationOccurrence.same ops (Reference.occurrences spaceId (logOf fs')) := by
  induction h generalizing pending with
  | nil => exact ⟨[], by simp [pure, Except.pure], .nil⟩
  | @cons f f' fs fs' hff _ ih =>
    rw [List.forall_mem_cons] at hq
    obtain ⟨ops, hops, hsame⟩ := pendingFrom_ok hs (hff.1 ▸ hq.1 : 0 ≤ f.sequence) hff.2 0
    obtain ⟨more, hmore, hsame'⟩ := ih hq.2 (pending ++ ops)
    refine ⟨ops ++ more, ?_, ?_⟩
    · simp only [List.foldlM_cons, pendingWithFrame, transactionCoordinate_ok hs (hff.1 ▸ hq.1 : 0 ≤ f.sequence), hops, bind,
        Except.bind]
      rw [← List.append_assoc]
      exact hmore
    · have : Reference.occurrences spaceId (logOf (f' :: fs')) =
          Reference.occurrences spaceId (loggedFrom f.sequence 0 f'.operations) ++ Reference.occurrences spaceId (logOf fs') := by
        simp [Reference.occurrences, logOf, TransactionFrame.logged, hff.1]
      rw [this]
      exact List.rel_append hsame hsame'

/-- A refresh of a rotation by a store that has gone on covers the store's history. -/
theorem refresh_ok {r : Rotation} {fs : List TransactionFrame} (hc : Covers Γ r s.spaceId frames)
    (h : Represents Γ s (frames ++ fs)) : ∃ r', refresh Γ r s = .ok r' ∧ Covers Γ r' s.spaceId (frames ++ fs) := by
  have hcur := h.currentSequence
  have hsorted := h.advances.sorted
  rw [List.map_append, List.pairwise_append] at hsorted
  have hlast : ∀ f ∈ frames, f.sequence ≤ r.version := by
    intro f hf
    rw [hc.version]
    rcases List.eq_nil_or_concat' frames with rfl | ⟨frames', g, rfl⟩
    · cases hf
    · have hg : (frames' ++ [g]).getLast? = some g := by simp
      rw [hg, Option.map_some, Option.getD_some]
      rcases List.mem_append.1 hf with hf | hf
      · have hs' := hsorted.1
        rw [List.map_append, List.pairwise_append] at hs'
        exact (hs'.2.2 _ (List.mem_map_of_mem hf) g.sequence (by simp)).le
      · rw [List.mem_singleton.1 hf]
  have hnew : ∀ f ∈ fs, r.version < f.sequence := by
    intro f hf
    rw [hc.version]
    rcases List.eq_nil_or_concat' frames with rfl | ⟨frames', g, rfl⟩
    · exact h.advances.lower f (by simpa using hf)
    · simp only [List.getLast?_concat, Option.map_some, Option.getD_some]
      exact hsorted.2.2 g.sequence (by simp) f.sequence (List.mem_map_of_mem hf)
  have hupper : ∀ f ∈ frames ++ fs, f.sequence ≤ Fram.currentSequence s := by
    intro f hf
    have := h.advances.upper f hf
    unfold Fram.currentSequence
    omega
  unfold refresh
  rw [if_neg (not_not.2 hc.space.symm)]
  rcases List.eq_nil_or_concat' fs with rfl | ⟨fs', last, rfl⟩
  · have heq : r.version = Fram.currentSequence s := by rw [hcur, hc.version, List.append_nil]
    rw [if_neg (by omega), if_pos heq]
    exact ⟨r, rfl, by rwa [List.append_nil]⟩
  · have hlt : r.version < Fram.currentSequence s := by
      have h1 := hnew last (by simp)
      have h2 := hupper last (by simp)
      omega
    rw [if_neg (by omega), if_neg (by omega)]
    have hsplit : Represents Γ s (frames ++ ((fs' ++ [last]) ++ [])) := by rwa [List.append_nil]
    obtain ⟨read, hread, hsame⟩ := hsplit.framesBetween hlast (by rwa [List.append_nil]) hupper (by simp)
    obtain ⟨ops, hops, hopsSame⟩ := foldlM_pendingWithFrame h.space hsame
      (fun f hf => (h.advances.lower f (List.mem_append_right _ hf)).trans' (by decide)) r.pending
    simp only [hread, hops, bind, Except.bind]
    have hall : Follows Γ { r with version := Fram.currentSequence s, pending := r.pending ++ ops } s.spaceId
        (logOf (frames ++ (fs' ++ [last]))) := by
      rw [logOf_append]
      exact hc.toFollows.append hopsSame _
    split
    · obtain ⟨r', hr', hversion, hfollows⟩ := h.projected (Fram.currentSequence s) hall.live
      exact ⟨r', hr', hfollows, hversion.trans hcur⟩
    · exact ⟨_, rfl, hall, hcur⟩

end Projection

end Fram
