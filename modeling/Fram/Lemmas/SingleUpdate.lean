import Fram.Lemmas.Postings
import Fram.Lemmas.Schema

/-!
# What a single-cardinality update leaves

The retractions of an update withdraw, newest first, what stands of a subject and a predicate, and then its assertion stands alone
(`liveOccurrences_update`). The coordinates that a builder returns are those that its operations have in the log
(`Txn.Pinned.steps`).
-/

namespace Fram

/-! ## Operations of a frame -/

theorem loggedFrom_append (q : Int) (ordinal : Nat) (operations operations' : List CommitOperation) :
    loggedFrom q ordinal (operations ++ operations') =
      loggedFrom q ordinal operations ++ loggedFrom q (ordinal + operations.length) operations' := by
  induction operations generalizing ordinal with
  | nil => simp [loggedFrom]
  | cons o operations ih =>
    rw [List.cons_append, loggedFrom, ih, loggedFrom, List.cons_append, List.length_cons,
      show ordinal + (operations.length + 1) = ordinal + 1 + operations.length by omega]

section Matching

variable {t1 t2 t3 : Option Term} {spaceId : String} {q : Int} {ordinal : Nat}

theorem mergedMatching_append (base ops ops' : List OperationOccurrence) :
    mergedMatching base (ops ++ ops') t1 t2 t3 = mergedMatching (mergedMatching base ops t1 t2 t3) ops' t1 t2 t3 := List.foldl_append

theorem occurrences_append (operations operations' : List CommitOperation) :
    Reference.occurrences spaceId (loggedFrom q ordinal (operations ++ operations')) =
      Reference.occurrences spaceId (loggedFrom q ordinal operations) ++
        Reference.occurrences spaceId (loggedFrom q (ordinal + operations.length) operations') := by
  rw [loggedFrom_append, Reference.occurrences, List.map_append]
  rfl

/-- Operations that match no pattern leave what matches it. -/
theorem mergedMatching_apart {base : List OperationOccurrence} {operations : List CommitOperation}
    (hbase : ∀ e ∈ base, matchesPattern t1 t2 t3 e = true) (h : ∀ o ∈ operations, patternMatch o.proposition t1 t2 t3 = false) :
    mergedMatching base (Reference.occurrences spaceId (loggedFrom q ordinal operations)) t1 t2 t3 = base := by
  induction operations generalizing ordinal with
  | nil => rfl
  | cons o operations ih =>
    rw [List.forall_mem_cons] at h
    have hhead : mergedMatching base (Reference.occurrences spaceId (loggedFrom q ordinal [o])) t1 t2 t3 = base := by
      simp only [loggedFrom, Reference.occurrences, List.map_cons, List.map_nil, mergedMatching, List.foldl_cons, List.foldl_nil,
        LoggedOperation.occurrence]
      cases o.action with
      | assert => simp [h.1]
      | retract =>
        have hnone : base.extractLast (fun e => o.proposition.eqv e.proposition) = none := by
          refine (List.extractLast_eq_none_iff _ _).2 fun e he => ?_
          rw [Bool.eq_false_iff]
          intro hoe
          have := patternMatch_eqv (Triple.eqv_symm hoe) (hbase e he)
          rw [h.1] at this
          cases this
        simp only [withoutNewestOf, hnone]
    rw [← List.singleton_append, occurrences_append, mergedMatching_append, hhead]
    exact ih h.2

/-- Retractions of all that matches, newest first, leave nothing of it. -/
theorem mergedMatching_retractAll {newest events : List OperationOccurrence} (hsame : List.Forall₂ OperationOccurrence.same newest events)
    (hnan : ∀ e ∈ events, e.proposition.hasNaN = false) : mergedMatching events.reverse (Reference.occurrences spaceId (loggedFrom q ordinal
      (newest.map fun event => (⟨.retract, event.proposition⟩ : CommitOperation)))) t1 t2 t3 = [] := by
  induction hsame generalizing ordinal with
  | nil => rfl
  | @cons x e newest events hxe _ ih =>
    rw [List.forall_mem_cons] at hnan
    have hfound : (events.reverse ++ [e]).extractLast (fun y => x.proposition.eqv y.proposition) = some (e, events.reverse) := by
      refine (List.extractLast_eq_some_iff _ _ _ _).2 ⟨events.reverse, [], rfl, by simp, ?_, by simp⟩
      exact (Triple.eqv_iff _ _).2 ⟨hxe.2.2.hasNaN.trans hnan.1, hxe.2.2⟩
    rw [List.reverse_cons, List.map_cons, loggedFrom, Reference.occurrences, List.map_cons, mergedMatching, List.foldl_cons]
    simp only [LoggedOperation.occurrence, withoutNewestOf, hfound]
    exact ih hnan.2

end Matching

/-! ## Live assertions after an update -/

section Update

variable {Γ : Host} {view : Rotation} {spaceId : String} {frames : List TransactionFrame} {subject predicate : Term}

/-- What stands of a subject and a predicate. -/
def ofPair (subject predicate : Term) (o : OperationOccurrence) : Bool := matchesPattern (some subject) (some predicate) none o

/-- The operations of a transaction that updates a subject and a predicate once, and writes nothing else of them, leave the assertion
of the update alone. -/
theorem liveOccurrences_update (hview : Covers Γ view spaceId frames) (hs : subject.hasNaN = false) (hp : predicate.hasNaN = false)
    (hclean : ∀ o ∈ Reference.liveOccurrences spaceId (logOf frames), ofPair subject predicate o = true → o.proposition.t3.hasNaN = false)
    {q : Int} {before after : List CommitOperation}
    (hbefore : ∀ o ∈ before, patternMatch o.proposition (some subject) (some predicate) none = false)
    (hafter : ∀ o ∈ after, patternMatch o.proposition (some subject) (some predicate) none = false) (value : Term) :
    (Reference.liveOccurrences spaceId (logOf (frames ++
        [⟨q, before ++ (Txn.compileSingleUpdate Γ view subject predicate value ++ after)⟩]))).filter (ofPair subject predicate) =
      [⟨coordinateOf spaceId q (before.length + (Txn.compileSingleUpdate Γ view subject predicate value).length - 1 : Nat), .assert,
        ⟨subject, predicate, value⟩⟩] := by
  have hread : List.Forall₂ OperationOccurrence.same (byT12 Γ view subject predicate)
      ((Reference.liveOccurrences spaceId (logOf frames)).filter (ofPair subject predicate)) := by
    have hmatching := matching_eq hview.indexed (some subject) (some predicate) none
    rw [show byT12 Γ view subject predicate = _ from hmatching]
    refine List.rel_filter (fun x y hxy => ?_) hview.live
    unfold ofPair
    rw [matchesPattern_eq_boundTo]
    exact iff_of_eq (congrArg (· = true) (boundTo_same hxy))
  have hmatches : ∀ e ∈ (Reference.liveOccurrences spaceId (logOf frames)).filter (ofPair subject predicate),
      matchesPattern (some subject) (some predicate) none e = true := fun e he => (List.mem_filter.1 he).2
  have hnan : ∀ e ∈ (Reference.liveOccurrences spaceId (logOf frames)).filter (ofPair subject predicate),
      e.proposition.hasNaN = false := by
    intro e he
    have h3 := hclean e (List.mem_filter.1 he).1 (List.mem_filter.1 he).2
    have hm := hmatches e he
    simp only [matchesPattern, patternMatch, slotMatches, Bool.and_eq_true, Bool.and_true] at hm
    have h1 := ((Term.eqv_iff _ _).1 (Term.eqv_symm hm.1)).1
    have h2 := ((Term.eqv_iff _ _).1 (Term.eqv_symm hm.2)).1
    simp [Triple.hasNaN, Triple.term, Term.hasNaN, h1, h2, h3]
  rw [logOf_append, logOf_singleton, ← mergedMatching_live]
  unfold ofPair at hmatches hnan hread ⊢
  rw [← mergedMatching_filter, TransactionFrame.logged, occurrences_append, mergedMatching_append,
    mergedMatching_apart hmatches hbefore, occurrences_append, mergedMatching_append, Txn.compileSingleUpdate, occurrences_append,
    mergedMatching_append]
  have hretracted := @mergedMatching_retractAll (some subject) (some predicate) none spaceId q (0 + before.length) _ _
    (List.rel_reverse hread) (fun e he => hnan e (List.mem_reverse.1 he))
  rw [List.reverse_reverse] at hretracted
  have hself : patternMatch ⟨subject, predicate, value⟩ (some subject) (some predicate) none = true := by
    simp [patternMatch, slotMatches, (Term.eqv_self_iff subject).2 hs, (Term.eqv_self_iff predicate).2 hp]
  have hassert (ordinal : Nat) : mergedMatching [] (Reference.occurrences spaceId
      (loggedFrom q ordinal [⟨.assert, ⟨subject, predicate, value⟩⟩])) (some subject) (some predicate) none =
      [⟨coordinateOf spaceId q ordinal, .assert, ⟨subject, predicate, value⟩⟩] := by
    simp only [loggedFrom, Reference.occurrences, List.map_cons, List.map_nil, mergedMatching, List.foldl_cons, List.foldl_nil,
      LoggedOperation.occurrence, hself, if_true, List.nil_append]
  rw [hretracted, hassert, mergedMatching_apart (fun e he => by rw [List.mem_singleton.1 he]; exact hself) hafter]
  simp only [List.length_append, List.length_map, List.length_reverse, List.length_singleton]
  congr 3
  omega

end Update

/-! ## Steps of a builder -/

namespace Txn

/-- The coordinate that a transaction mints at an ordinal. -/
def mintOf (spaceId : String) (q : Int) (k : Nat) : Triple := ⟨.triple (.str spaceId) txSequence (.int q), mintOrdinal, .int k⟩

/-- The operations that a step adds to a builder. -/
def Step.operations (Γ : Host) (view : Rotation) : Step → List CommitOperation
  | .mint => []
  | .assert proposition => [⟨.assert, proposition⟩]
  | .retract proposition => [⟨.retract, proposition⟩]
  | .updateSingle subject predicate value => compileSingleUpdate Γ view subject predicate value

theorem Step.apply_eq_append {Γ : Host} {view : Rotation} {builder : Builder} (step : Step) (h : step ≠ .mint) :
    step.apply Γ view builder = append builder (step.operations Γ view) := by
  cases step with
  | mint => exact absurd rfl h
  | assert proposition => rfl
  | retract proposition => rfl
  | updateSingle subject predicate value => rfl

theorem Step.operations_ne_nil {Γ : Host} {view : Rotation} (step : Step) (h : step ≠ .mint) : step.operations Γ view ≠ [] := by
  cases step <;> simp [Step.operations, compileSingleUpdate] at h ⊢

/-- The coordinates among those returned that the steps minted. -/
def mintedOf (steps : List Step) (coordinates : List Triple) : List Triple :=
  ((steps.zip coordinates).filter fun x => decide (x.1 = .mint)).map (·.2)

section Builders

variable {Γ : Host} {view : Rotation} {spaceId : String} {q : Int} {builder : Builder}

/-- The builder is pinned to a sequence of a space. -/
def Builder.Pinned (builder : Builder) (spaceId : String) (q : Int) : Prop := builder.coordinate = ⟨.str spaceId, txSequence, .int q⟩

theorem Builder.Pinned.append (h : builder.Pinned spaceId q) (hs : 0 < spaceId.length) (hq : 0 ≤ q) {appended : List CommitOperation}
    (hne : appended ≠ []) : Txn.append builder appended = .ok ({ builder with operations := builder.operations ++ appended },
      coordinateOf spaceId q (builder.operations.length + appended.length - 1 : Nat)) := by
  have hpos := List.length_pos_iff.2 hne
  have hk : (builder.operations.length + (appended.length - 1 : Int)) = ((builder.operations.length + appended.length - 1 : Nat) : Int) := by
    omega
  unfold Txn.append
  rw [if_neg (by simpa using hne), show builder.coordinate = _ from h, hk, occurrenceCoordinate_transaction hs hq]
  rfl

theorem Builder.Pinned.mint (h : builder.Pinned spaceId q) (hs : 0 < spaceId.length) (hq : 0 ≤ q) :
    Txn.mint builder = .ok ({ builder with minted := builder.minted + 1 }, mintOf spaceId q builder.minted) := by
  unfold Txn.mint mintCoordinate
  rw [show builder.coordinate = _ from h, if_pos ⟨isTransactionCoordinate_mk hs hq, Int.natCast_nonneg _⟩]
  rfl

/-- A step returns the coordinate that it mints, or that of its last operation. -/
theorem Builder.Pinned.step (h : builder.Pinned spaceId q) (hs : 0 < spaceId.length) (hq : 0 ≤ q) (step : Step) :
    ∃ builder' c, step.apply Γ view builder = .ok (builder', c) ∧ builder'.Pinned spaceId q ∧
      builder'.operations = builder.operations ++ step.operations Γ view ∧
      builder'.minted = builder.minted + (if step = .mint then 1 else 0) ∧
      c = if step = .mint then mintOf spaceId q builder.minted
        else coordinateOf spaceId q (builder.operations.length + (step.operations Γ view).length - 1 : Nat) := by
  by_cases hm : step = .mint
  · rw [hm, if_pos rfl, if_pos rfl]
    exact ⟨_, _, h.mint hs hq, h, (List.append_nil _).symm, rfl, rfl⟩
  · rw [step.apply_eq_append hm, if_neg hm, if_neg hm]
    exact ⟨_, _, h.append hs hq (step.operations_ne_nil hm), h, rfl, rfl, rfl⟩

/-- Steps return, each with the coordinate that it mints or that of its last operation, and add all their operations. -/
theorem Builder.Pinned.steps (h : builder.Pinned spaceId q) (hs : 0 < spaceId.length) (hq : 0 ≤ q) (list : List Step) :
    ∃ builder' coordinates, Txn.steps Γ view builder list = .ok (builder', coordinates) ∧ builder'.Pinned spaceId q ∧
      builder'.operations = builder.operations ++ list.flatMap (·.operations Γ view) ∧ coordinates.length = list.length ∧
      (∃ n, mintedOf list coordinates = (List.range' builder.minted n).map (mintOf spaceId q)) ∧
      ∀ (i : Nat) step c, list[i]? = some step → coordinates[i]? = some c → step ≠ .mint →
        c = coordinateOf spaceId q
          (builder.operations.length + ((list.take (i + 1)).flatMap (·.operations Γ view)).length - 1 : Nat) := by
  induction list generalizing builder with
  | nil => exact ⟨builder, [], rfl, h, by simp, rfl, ⟨0, rfl⟩, by simp⟩
  | cons step list ih =>
    obtain ⟨next, c, hc, hnext, hops, hminted, hcoordinate⟩ := @Builder.Pinned.step Γ view spaceId q builder h hs hq step
    obtain ⟨last, cs, hcs, hlast, hops', hlen, ⟨n, hn⟩, hat⟩ := ih hnext
    refine ⟨last, c :: cs, ?_, hlast, ?_, congrArg (· + 1) hlen, ?_, ?_⟩
    · simp only [Txn.steps, hc, hcs, bind, Except.bind]
      rfl
    · rw [hops', hops, List.flatMap_cons, List.append_assoc]
    · by_cases hm : step = .mint
      · refine ⟨n + 1, ?_⟩
        rw [if_pos hm] at hminted hcoordinate
        rw [List.range'_succ, List.map_cons, ← hcoordinate, ← hminted, ← hn]
        simp [mintedOf, hm]
      · refine ⟨n, ?_⟩
        rw [if_neg hm, Nat.add_zero] at hminted
        rw [← hminted, ← hn]
        simp [mintedOf, hm]
    · intro i step' c' hi hci hm
      cases i with
      | zero =>
        obtain rfl : step = step' := by simpa using hi
        obtain rfl : c = c' := by simpa using hci
        rw [hcoordinate, if_neg hm]
        simp
      | succ i =>
        rw [hat i step' c' (by simpa using hi) (by simpa using hci) hm, hops]
        simp only [List.length_append, List.take_succ_cons, List.flatMap_cons, Nat.add_assoc]

end Builders

end Txn

/-! ## Writes through a session -/

namespace Schema

/-- The committed history of the session has the operation at the coordinate. -/
def Recorded (session : Session) (c : Triple) (operation : CommitOperation) : Prop :=
  ∃ os o, occurrences session.store = .ok os ∧ o ∈ os ∧ o.coordinate = c ∧ o.action = operation.action ∧
    o.proposition.same operation.proposition

/-- One live assertion of the subject and the predicate of the proposition stands. It has the coordinate and is of the proposition. -/
def Alone (Γ : Host) (session : Session) (c : Triple) (proposition : Triple) : Prop :=
  ∃ os o, liveOccurrences Γ session.store = .ok os ∧ os.filter (ofPair proposition.t1 proposition.t2) = [o] ∧ o.coordinate = c ∧
    o.proposition.same proposition

/-- Neither the subject nor the predicate holds a NaN, and no live proposition of them does. -/
structure Clean (Γ : Host) (session : Session) (subject predicate : Term) : Prop where
  ofSubject : subject.hasNaN = false
  ofPredicate : predicate.hasNaN = false
  live : ∀ os, liveOccurrences Γ session.store = .ok os → ∀ o ∈ os, ofPair subject predicate o = true → o.proposition.t3.hasNaN = false

end Schema

section Sessions

variable {Γ : Host} {print : Term → String} {session session' : Session} {spaceId : String} {frames : List TransactionFrame}

theorem SessionFor.commit_ok (h : SessionFor Γ session spaceId frames) {builder : Txn.Builder}
    (hc : Schema.commit Γ builder session = (.ok (), session')) :
    SessionFor Γ session' spaceId (frames ++ [⟨session.store.nextSequence, builder.operations⟩]) := by
  rcases h.commitBuilder builder with ⟨fault, hf⟩ | ⟨session'', hok, h'⟩
  · rw [hf] at hc
    cases hc
  · rw [hok] at hc
    cases hc
    exact h'

/-- The operation of the last frame at an ordinal has its coordinate in the history. -/
theorem SessionFor.recorded {q : Int} {operations : List CommitOperation} (h : SessionFor Γ session spaceId (frames ++ [⟨q, operations⟩]))
    {k : Nat} {operation : CommitOperation} (hop : operations[k]? = some operation) :
    Schema.Recorded session (coordinateOf spaceId q k) operation := by
  obtain ⟨os, hos, hsame⟩ := h.represents.occurrences
  have he : (Reference.occurrences session.store.spaceId (logOf (frames ++ [⟨q, operations⟩])))[(logOf frames).length + k]? =
      some ⟨coordinateOf spaceId q k, operation.action, operation.proposition⟩ := by
    rw [Reference.occurrences, List.getElem?_map, logOf_append, logOf_singleton, List.getElem?_append_right (Nat.le_add_right _ _),
      Nat.add_sub_cancel_left, TransactionFrame.logged, getElem?_loggedFrom, hop, h.space]
    simp [LoggedOperation.occurrence]
  obtain ⟨hlt, heq⟩ := List.getElem?_eq_some_iff.1 he
  have hlt' : (logOf frames).length + k < os.length := hsame.length_eq ▸ hlt
  have hs := (List.forall₂_iff_get.1 hsame).2 _ hlt' hlt
  simp only [List.get_eq_getElem, heq] at hs
  exact ⟨os, _, hos, List.getElem_mem hlt', hs.1, hs.2.1, hs.2.2⟩

/-- An update that alone concerns its subject and predicate in the last frame leaves its assertion alone. -/
theorem SessionFor.alone (h : SessionFor Γ session spaceId frames) {subject predicate value : Term}
    (hclean : Schema.Clean Γ session subject predicate) {q : Int} {before after : List CommitOperation}
    (hbefore : ∀ o ∈ before, patternMatch o.proposition (some subject) (some predicate) none = false)
    (hafter : ∀ o ∈ after, patternMatch o.proposition (some subject) (some predicate) none = false) (h' : SessionFor Γ session' spaceId
      (frames ++ [⟨q, before ++ (Txn.compileSingleUpdate Γ session.view subject predicate value ++ after)⟩])) :
    Schema.Alone Γ session' (coordinateOf spaceId q
      (before.length + (Txn.compileSingleUpdate Γ session.view subject predicate value).length - 1 : Nat)) ⟨subject, predicate, value⟩ := by
  obtain ⟨os, hos, hsame⟩ := h.represents.liveOccurrences
  obtain ⟨os', hos', hsame'⟩ := h'.represents.liveOccurrences
  rw [h.space] at hsame
  rw [h'.space] at hsame'
  have hpair {x y : OperationOccurrence} (hxy : x.same y) : ofPair subject predicate x = ofPair subject predicate y := by
    unfold ofPair
    rw [matchesPattern_eq_boundTo]
    exact boundTo_same hxy
  have hlive : ∀ o ∈ Reference.liveOccurrences spaceId (logOf frames), ofPair subject predicate o = true →
      o.proposition.t3.hasNaN = false := by
    intro o ho hpo
    obtain ⟨x, hx, hxo⟩ : ∃ x ∈ os, x.same o := by
      obtain ⟨i, hi, rfl⟩ := List.getElem_of_mem ho
      have hi' : i < os.length := hsame.length_eq ▸ hi
      exact ⟨os[i], List.getElem_mem hi', (List.forall₂_iff_get.1 hsame).2 i hi' hi⟩
    have := hclean.live os hos x hx ((hpair hxo).trans hpo)
    rw [← (Term.same_triple_iff.1 hxo.2.2).2.2.hasNaN]
    exact this
  have hreference := liveOccurrences_update h.covers hclean.ofSubject hclean.ofPredicate hlive (q := q) hbefore hafter value
  have hfiltered := List.rel_filter (R := OperationOccurrence.same) (p := fun o => ofPair subject predicate o)
    (q := fun o => ofPair subject predicate o) (fun x y hxy => iff_of_eq (congrArg (· = true) (hpair hxy))) hsame'
  rw [hreference] at hfiltered
  obtain ⟨o, rest, ho, hrest, heq⟩ := List.forall₂_cons_right_iff.1 hfiltered
  cases hrest
  exact ⟨os', o, hos', heq, ho.1, ho.2.2⟩

end Sessions

end Fram
