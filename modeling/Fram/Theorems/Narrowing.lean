import Fram.Lemmas.Forest
import Fram.Lemmas.Postings

/-!
# Narrowing by postings is exact

The candidates that a store's postings give for a window and a constraint are exactly the positions of the window whose operation meets
what the search itself looks at, the coordinate and the whole proposition. So reading and filtering the candidates is reading and
filtering all operations of the window.
-/

namespace Fram

open ExceptList (bind_eq_ok_iff)

/-- What a reader of operations may ask: an exact coordinate, parts of the proposition, and a whole proposition. -/
structure OperationConstraint where
  coordinate : Option Term
  subject : Option Term
  predicate : Option Term
  object : Option Term
  proposition : Option Term

/-- The occurrence equals what the constraint gives. -/
def OperationConstraint.meets (k : OperationConstraint) (o : OperationOccurrence) : Bool :=
  k.coordinate.all (·.eqv o.coordinate.term) && k.subject.all (·.eqv o.proposition.t1) && k.predicate.all (·.eqv o.proposition.t2) &&
    k.object.all (·.eqv o.proposition.t3) && k.proposition.all (·.eqv o.proposition.term)

/-- The transaction of the occurrence is in the window. -/
def OperationOccurrence.within (lower upper : Int) (o : OperationOccurrence) : Bool :=
  (occurrenceParts o.coordinate.term).any fun parts => decide (lower < parts.2.1 ∧ parts.2.1 ≤ upper)

/-- The row of a withdrawal. -/
def Withdrawal.row (w : Withdrawal) : List Term := [w.retraction.coordinate.term, w.assertion.coordinate.term]

/-- What the search for candidates looks at itself: the coordinate and the whole proposition. -/
def OperationConstraint.searched (k : OperationConstraint) : OperationConstraint :=
  { k with subject := none, predicate := none, object := none }

/-- The candidates of a window and a constraint are those operations of the window that meet the searched part of the constraint, and
reading them is reading all operations of the window. -/
structure Narrowed (Γ : Host) (s : TermStore) (lower upper : Int) (k : OperationConstraint) : Prop where
  candidates : ∃ positions os found,
    operationCandidatePositions Γ s lower upper k.coordinate k.proposition (operationPostings s) = .ok positions ∧
    occurrences s = .ok os ∧ positions.mapM (operationOccurrenceAt s) = .ok found ∧
    positions.mapM (occurrenceTupleAt s) = .ok (found.map (·.row)) ∧ positions.Pairwise (· < ·) ∧
    (∀ p, p ∈ positions ↔ ∃ o, os[p]? = some o ∧ o.within lower upper = true ∧ k.searched.meets o = true) ∧
    (∀ p o, os[p]? = some o → o.within lower upper = true → k.meets o = true → p ∈ positions) ∧
    found = (os.filter fun o => o.within lower upper && k.searched.meets o) ∧
    found.filter k.meets = os.filter fun o => o.within lower upper && k.meets o
  withdrawals : ∃ ws, Fram.withdrawals s = .ok ws ∧
    withdrawalTuplesBetween s lower upper = .ok ((ws.filter (·.retraction.within lower upper)).map (·.row))

/-! ## Positions and elements -/

/-- Elements selected by position are the elements selected. -/
theorem filterMap_filter_range {α : Type} (l : List α) (q : α → Bool) :
    ((List.range l.length).filter fun p => l[p]?.any q).filterMap (l[·]?) = l.filter q := by
  induction l using List.reverseRecOn with
  | nil => rfl
  | append_singleton l a ih =>
    have hl : ∀ p ∈ List.range l.length, (l ++ [a])[p]? = l[p]? := fun p hp => List.getElem?_append_left (List.mem_range.1 hp)
    have hleft : (List.range l.length).filter (fun p => (l ++ [a])[p]?.any q) = (List.range l.length).filter fun p => l[p]?.any q :=
      List.filter_congr fun p hp => by rw [hl p hp]
    have hmap : (((List.range l.length).filter fun p => l[p]?.any q).filterMap fun p => (l ++ [a])[p]?) = l.filter q := by
      rw [← ih]
      exact List.filterMap_congr fun p hp => hl p (List.mem_filter.1 hp).1
    rw [List.length_append, List.length_singleton, List.range_succ, List.filter_append, List.filterMap_append, hleft, hmap,
      List.filter_append]
    congr 1
    cases hq : q a <;> simp [hq]

/-- Ascending positions that are those of the elements that meet a test select these elements. -/
theorem filterMap_eq_filter {α : Type} {l : List α} {q : α → Bool} {positions : List Nat} (hs : positions.Pairwise (· < ·))
    (h : ∀ p, p ∈ positions ↔ ∃ a, l[p]? = some a ∧ q a = true) : positions.filterMap (l[·]?) = l.filter q := by
  have hpositions : positions = (List.range l.length).filter fun p => l[p]?.any q := by
    refine hs.eq_of_mem_iff (List.pairwise_lt_range.filter _) fun p => ?_
    rw [h, List.mem_filter, List.mem_range, Option.any_eq_true]
    constructor
    · intro ⟨a, ha, hq⟩
      exact ⟨(List.getElem?_eq_some_iff.1 ha).1, a, ha, hq⟩
    · intro ⟨_, a, ha, hq⟩
      exact ⟨a, ha, hq⟩
  rw [hpositions, filterMap_filter_range]

/-- Positions with elements stand in relation to the elements. -/
theorem forall₂_filterMap {α : Type} {R : Nat → α → Prop} {l : List α} {positions : List Nat}
    (hp : ∀ p ∈ positions, ∃ a, l[p]? = some a) (hR : ∀ (p : Nat) a, l[p]? = some a → R p a) :
    List.Forall₂ R positions (positions.filterMap (l[·]?)) := by
  induction positions with
  | nil => exact .nil
  | cons p positions ih =>
    rw [List.forall_mem_cons] at hp
    obtain ⟨a, ha⟩ := hp.1
    rw [List.filterMap_cons_some ha]
    exact .cons (hR p a ha) (ih hp.2)

/-- Selecting before a partial map is selecting after it, when the two tests agree. -/
theorem filterMap_filter {α β : Type} {l : List α} {f : α → Option β} {q : α → Bool} {r : β → Bool}
    (h : ∀ a ∈ l, ∀ b, f a = some b → q a = r b) : (l.filter q).filterMap f = (l.filterMap f).filter r := by
  rw [List.filterMap_filter, List.filter_filterMap]
  refine List.filterMap_congr fun a ha => ?_
  cases hf : f a with
  | none => simp
  | some b => simp [h a ha b hf, Option.filter]

section Stores

variable {Γ : Host} {s : TermStore} {frames : List TransactionFrame}

/-- Each occurrence of a store is read at its position and is that of the operation logged there. -/
theorem Represents.occurrences_at (h : Represents Γ s frames) :
    ∃ os, Fram.occurrences s = .ok os ∧ (∀ p : Nat, p < (logOf frames).length ↔ ∃ o, os[p]? = some o) ∧
      ∀ (p : Nat) o, os[p]? = some o → Fram.operationOccurrenceAt s p = .ok o ∧
        ∃ e, (logOf frames)[p]? = some e ∧ o.same (e.occurrence s.spaceId) := by
  obtain ⟨os, hos, hsame⟩ := h.occurrences
  have hlen : os.length = (logOf frames).length := by simpa [Reference.occurrences] using hsame.length_eq
  refine ⟨os, hos, fun p => ?_, fun p o ho => ?_⟩
  · rw [← hlen]
    constructor
    · intro hp
      exact ⟨_, List.getElem?_eq_getElem hp⟩
    · rintro ⟨o, ho⟩
      exact (List.getElem?_eq_some_iff.1 ho).1
  · obtain ⟨hp, rfl⟩ := List.getElem?_eq_some_iff.1 ho
    have hat := (List.forall₂_iff_get.1 (ExceptList.mapM_eq_ok_iff.1 hos)).2 p
      (by rw [List.length_range, h.rows.length_eq, ← hlen]; exact hp) hp
    have hs := (List.forall₂_iff_get.1 hsame).2 p hp (by simpa [Reference.occurrences, ← hlen] using hp)
    refine ⟨by simpa using hat, _, List.getElem?_eq_getElem (hlen ▸ hp), ?_⟩
    simpa [Reference.occurrences] using hs

/-- The window of an occurrence is that of its logged operation. -/
theorem within_iff {o : OperationOccurrence} {e : LoggedOperation} {spaceId : String} (hs : o.same (e.occurrence spaceId))
    (lower upper : Int) : o.within lower upper = true ↔ lower < e.sequence ∧ e.sequence ≤ upper := by
  rw [OperationOccurrence.within, hs.1]
  simp [LoggedOperation.occurrence, coordinateOf, Triple.term, occurrenceParts, Term.str, Term.int]

/-- The searched part of a constraint on an occurrence is that on its logged operation. -/
theorem searched_iff {o : OperationOccurrence} {e : LoggedOperation} {spaceId : String} (hs : o.same (e.occurrence spaceId))
    {lower upper : Int} (k : OperationConstraint) :
    (o.within lower upper = true ∧ k.searched.meets o = true) ↔ e.Meets spaceId lower upper k.coordinate k.proposition := by
  have hp (t : Term) : t.eqv o.proposition.term = t.eqv e.proposition.term := Term.eqv_congr rfl hs.2.2
  have hc : o.coordinate = coordinateOf spaceId e.sequence e.ordinal := hs.1
  rw [within_iff hs]
  simp only [OperationConstraint.meets, OperationConstraint.searched, Option.all_none, Bool.and_true, Bool.and_eq_true,
    Option.all_eq_true, hp, hc]
  exact ⟨fun ⟨⟨hl, hu⟩, hk, ht⟩ => ⟨hl, hu, hk, ht⟩, fun hm => ⟨⟨hm.above, hm.upTo⟩, hm.coordinate, hm.proposition⟩⟩

/-- What meets a constraint meets the searched part of it. -/
theorem OperationConstraint.searched_meets {k : OperationConstraint} {o : OperationOccurrence} (hm : k.meets o = true) :
    k.searched.meets o = true := by
  simp only [OperationConstraint.meets, Bool.and_eq_true] at hm
  simp [OperationConstraint.meets, OperationConstraint.searched, hm.1.1.1.1, hm.2]

/-- A withdrawal is of the occurrences it was made of. -/
theorem eq_of_withdrawal {retraction assertion : OperationOccurrence} {w : Withdrawal} (h : withdrawal retraction assertion = .ok w) :
    w = ⟨retraction, assertion⟩ := by
  unfold withdrawal at h
  repeat' split at h
  all_goals simp only [bind_eq_ok_iff, reduceCtorEq] at h
  obtain ⟨b, -, hb⟩ := h
  split at hb <;> cases hb
  rfl

/-- The withdrawal at a position is of the retraction logged there. -/
theorem Represents.withdrawalAt_eq_some (h : Represents Γ s frames) {p : Nat} {w : Withdrawal}
    (hp : p < (logOf frames).length) (hw : Fram.withdrawalAt s p = .ok (some w)) :
    ∃ e, (logOf frames)[p]? = some e ∧ w.retraction.same (e.occurrence s.spaceId) := by
  have he : (logOf frames)[p]? = some _ := List.getElem?_eq_getElem hp
  obtain ⟨o, ho, hs⟩ := h.operationOccurrenceAt he
  simp only [Fram.withdrawalAt, bind_eq_ok_iff] at hw
  obtain ⟨target, -, hw⟩ := hw
  cases target with
  | none => cases hw
  | some target =>
    simp only [bind_eq_ok_iff] at hw
    obtain ⟨retraction, hretraction, assertion, -, made, hmade, heq⟩ := hw
    obtain rfl := Except.ok.inj (ho.symm.trans hretraction)
    rw [eq_of_withdrawal hmade] at heq
    obtain rfl := Option.some.inj (Except.ok.inj heq)
    exact ⟨_, he, hs⟩

/-- The withdrawals of a window are those whose retraction is in it. -/
theorem Represents.withdrawalTuplesBetween (h : Represents Γ s frames) (lower upper : Int) : ∃ ws, Fram.withdrawals s = .ok ws ∧
      Fram.withdrawalTuplesBetween s lower upper = .ok ((ws.filter (·.retraction.within lower upper)).map (·.row)) := by
  obtain ⟨start, stop, hbounds, hstop, -, hwindow⟩ := h.operationRangeBounds lower upper
  have hlen : s.operations.length = (logOf frames).length := h.rows.length_eq
  obtain ⟨w, hw⟩ : ∃ w : Nat → Option Withdrawal, ∀ p < (logOf frames).length, Fram.withdrawalAt s p = .ok (w p) := by
    refine ⟨fun p => (Fram.withdrawalAt s p).toOption.join, fun p hp => ?_⟩
    obtain ⟨found, hfound, -⟩ := h.withdrawalAt hp
    simp only [hfound, Except.toOption, Option.join_some]
  have hreduce {β : Type} (f : Nat → Option β) (l : List Nat) : (l.map f).reduceOption = l.filterMap f := by
    have hr : (l.map f).reduceOption = (l.map f).filterMap id := rfl
    rw [hr, List.filterMap_map, Function.id_comp]
  have hws : Fram.withdrawals s = .ok ((List.range s.operations.length).filterMap w) := by
    have hmap := ExceptList.mapM_eq_ok (g := w) fun p hp => hw p (hlen ▸ List.mem_range.1 hp)
    simp only [Fram.withdrawals, hmap, bind, Except.bind, hreduce]
  refine ⟨_, hws, ?_⟩
  simp only [Fram.withdrawalTuplesBetween, hbounds]
  refine bind_eq_ok_iff.2 ⟨_, @ExceptList.mapM_eq_ok _ _ _ _ (fun p => (w p).map (·.row)) _ fun p hp => ?_, ?_⟩
  · -- Each position gives the row of its withdrawal.
    have hat := hw p ((mem_drop_range.1 hp).2.trans_le hstop)
    simp only [Fram.withdrawalAt, bind_eq_ok_iff] at hat
    obtain ⟨target, htarget, hat⟩ := hat
    rw [htarget]
    cases target with
    | none =>
      rw [← Except.ok.inj hat]
      rfl
    | some target =>
      simp only [bind_eq_ok_iff] at hat
      obtain ⟨retraction, hretraction, assertion, hassertion, made, hmade, heq⟩ := hat
      rw [← Except.ok.inj heq, eq_of_withdrawal hmade]
      simp only [bind, Except.bind, hretraction, hassertion]
      rfl
  · -- The positions of the window are those whose retraction is in it.
    have hpositions : (List.range stop).drop start = (List.range s.operations.length).filter fun p => decide (start ≤ p ∧ p < stop) := by
      refine List.pairwise_lt_range.drop.eq_of_mem_iff (List.pairwise_lt_range.filter _) fun p => ?_
      rw [mem_drop_range, List.mem_filter, List.mem_range, decide_eq_true_eq]
      omega
    rw [hreduce, hpositions]
    have hfilter := filterMap_filter (l := List.range s.operations.length) (f := w) (q := fun p => decide (start ≤ p ∧ p < stop))
      (r := (·.retraction.within lower upper)) fun p hp x hx => by
        have hlt : p < (logOf frames).length := hlen ▸ List.mem_range.1 hp
        obtain ⟨e, he, hs⟩ := h.withdrawalAt_eq_some hlt ((hw p hlt).trans (congrArg Except.ok hx))
        rw [Bool.eq_iff_iff, decide_eq_true_eq, within_iff hs, hwindow p e he]
    rw [← hfilter, List.map_filterMap]
    rfl

/-- A store that represents a history answers the candidates of a window exactly. -/
theorem Represents.narrowed (h : Represents Γ s frames) {lower upper : Int} (hle : lower ≤ upper) (k : OperationConstraint) :
    Narrowed Γ s lower upper k := by
  refine ⟨?_, ?_⟩
  · obtain ⟨positions, hpositions, hsorted, hmem⟩ := h.operationCandidatePositions hle k.coordinate k.proposition
    obtain ⟨os, hos, hlt, hat⟩ := h.occurrences_at
    have hmem' (p : Nat) : p ∈ positions ↔ ∃ o, os[p]? = some o ∧ o.within lower upper = true ∧ k.searched.meets o = true := by
      rw [hmem]
      constructor
      · intro ⟨e, he, hm⟩
        obtain ⟨o, ho⟩ := (hlt p).1 (List.getElem?_eq_some_iff.1 he).1
        obtain ⟨-, e', he', hs⟩ := hat p o ho
        obtain rfl := Option.some.inj (he.symm.trans he')
        exact ⟨o, ho, (searched_iff hs k).2 hm⟩
      · intro ⟨o, ho, hm⟩
        obtain ⟨-, e, he, hs⟩ := hat p o ho
        exact ⟨e, he, (searched_iff hs k).1 hm⟩
    have hfound : positions.filterMap (os[·]?) = os.filter fun o => o.within lower upper && k.searched.meets o :=
      filterMap_eq_filter hsorted fun p => by simp only [hmem', Bool.and_eq_true]
    have hread := @forall₂_filterMap _ (fun p o => Fram.operationOccurrenceAt s p = .ok o) os positions
      (fun p hp => ((hmem' p).1 hp).imp fun o ho => ho.1) fun p o ho => (hat p o ho).1
    refine ⟨positions, os, _, hpositions, hos, ExceptList.mapM_eq_ok_iff.2 hread, ?_, hsorted, hmem', fun p o ho hw hm => ?_, hfound, ?_⟩
    · refine ExceptList.mapM_eq_ok_iff.2 (List.forall₂_map_right_iff.2 (hread.imp fun p o ho => ?_))
      simp only [occurrenceTupleAt, ho]
      rfl
    · exact (hmem' p).2 ⟨o, ho, hw, OperationConstraint.searched_meets hm⟩
    · rw [hfound, List.filter_filter]
      refine List.filter_congr fun o ho => ?_
      cases hm : k.meets o with
      | false => simp
      | true => simp [OperationConstraint.searched_meets hm]
  · exact h.withdrawalTuplesBetween lower upper

end Stores

/-- **Narrowing by postings is exact.** After any acts on a family that forks make of a new store, in every member, for every window
of sequences and every constraint, the candidates are, in commit order and each once, exactly the positions of the window whose
operation meets the coordinate and the whole proposition that the search was given. They include every operation of the window that
meets the whole constraint; what it leaves of them is what it leaves of all operations of the window, and the withdrawal rows of the
window are those of the withdrawals whose retraction is in it. -/
theorem narrowing_exact (Γ : Host) {spaceId : String} {a t b : Nat} {root : Held}
    (h : Held.newTermStoreSized spaceId a t b = .ok root) (acts : List ForestAct) {i : Nat} {refs : StoreRefs}
    (hi : (grow Γ root acts).members[i]? = some refs) {lower upper : Int} (hle : lower ≤ upper) (k : OperationConstraint) :
    Narrowed Γ (Held.read ⟨(grow Γ root acts).heap, refs⟩) lower upper k := by
  have hisolated := isolated_grow (Γ := Γ) h acts
  obtain ⟨history, hhistory⟩ := hisolated.history hi
  exact (hisolated.stands i refs history hi hhistory).member.narrowed hle k

/-- A fork that asserts, retracts and asserts again, read for one proposition in a window that begins inside its history. -/
theorem narrowing_exact_fork : ∃ root, Held.newTermStoreSized "s" 0 0 0 = .ok root ∧ ∃ refs,
      (grow Host.zero root [.on 0 (.plain (.commit [⟨.assert, ⟨.int 1, .int 2, .int 3⟩⟩])), .fork 0,
        .on 1 (.plain (.commit [⟨.retract, ⟨.int 1, .int 2, .int 3⟩⟩, ⟨.assert, ⟨.int 1, .int 2, .int 3⟩⟩]))]).members[1]? = some refs ∧
      Narrowed Host.zero (Held.read ⟨(grow Host.zero root
        [.on 0 (.plain (.commit [⟨.assert, ⟨.int 1, .int 2, .int 3⟩⟩])), .fork 0,
          .on 1 (.plain (.commit [⟨.retract, ⟨.int 1, .int 2, .int 3⟩⟩, ⟨.assert, ⟨.int 1, .int 2, .int 3⟩⟩]))]).heap, refs⟩) 1 7
        ⟨none, some (.int 1), none, none, some (.triple (.int 1) (.int 2) (.int 3))⟩ :=
  ⟨_, rfl, _, rfl, @narrowing_exact Host.zero "s" 0 0 0 _ rfl _ 1 _ rfl 1 7 (by decide) _⟩

end Fram
