import Fram.Lemmas.Facts
import Fram.Lemmas.Postings
import Fram.Lemmas.Rotation
import Fram.Lemmas.RowOrder
import Fram.Lemmas.TextSearch
import Fram.Lemmas.Tracks

/-!
# What the sources of a query present

The base relations of a query, as rows of the reference history in a window (`historyBackground`), and that the sources which the read
route registers present these rows: the rotation the live triples, the store its occurrences, an index its withdrawals, and a text search
what it finds.
-/

namespace Fram

namespace Reference

/-- The assertions that stand, as logged. -/
def live (log : List LoggedOperation) : List LoggedOperation := (livePositions log).filterMap (log[·]?)

theorem liveOccurrences_eq (spaceId : String) (log : List LoggedOperation) :
    liveOccurrences spaceId log = (live log).map (·.occurrence spaceId) := by
  rw [liveOccurrences, live, List.map_filterMap]
  exact List.filterMap_congr fun i _ => by simp [occurrences]

theorem mem_of_mem_live {log : List LoggedOperation} {e : LoggedOperation} (h : e ∈ live log) : e ∈ log := by
  obtain ⟨i, -, hi⟩ := List.mem_filterMap.1 h
  exact List.mem_of_getElem? hi

end Reference

namespace Datalog

open Closing Query

/-! ## The base relations of a history -/

/-- The live triples that were asserted past a version. -/
def tripleRows (log : List LoggedOperation) (lower : Int) : Set Tuple :=
  {row | ∃ e ∈ Reference.live log, lower < e.sequence ∧ rowSame row (tripleRow e.proposition)}

/-- The operations of a window. -/
def occurrenceRows (spaceId : String) (log : List LoggedOperation) (lower upper : Int) : Set Tuple :=
  {row | ∃ e ∈ log, lower < e.sequence ∧ e.sequence ≤ upper ∧ rowSame row (e.occurrence spaceId).row}

/-- The coordinates of a retraction of a window and of the assertion that it withdrew. -/
def withdrawalRows (spaceId : String) (log : List LoggedOperation) (lower upper : Int) : Set Tuple :=
  {row | ∃ p q : Nat, ∃ a b : LoggedOperation, (reading log).targets[p]? = some (some q) ∧ log[p]? = some b ∧ log[q]? = some a ∧
    lower < b.sequence ∧ b.sequence ≤ upper ∧
    row = [(coordinateOf spaceId b.sequence b.ordinal).term, (coordinateOf spaceId a.sequence a.ordinal).term]}

/-- What a text relation finds among the live triples that were asserted past a version. -/
def textRows (host : TextHost) (log : List LoggedOperation) (lower : Int) (relation : String) (needle : Option Term) : Set Tuple :=
  {row | ∃ text, needle = some (.str text) ∧ TextSearch.Accepts host relation text ∧
    ∃ e ∈ Reference.live log, lower < e.sequence ∧
      ∃ found, TextSearch.foundRow host relation text e.proposition = some found ∧ rowSame row found}

/-- The base relations over a history in a window. -/
def historyBackground (host : TextHost) (spaceId : String) (log : List LoggedOperation) (lower upper : Int) : Background := fun relation =>
  if relation = tripleRelation then some fun _ => tripleRows log lower
  else if relation = occurrenceRelation then some fun _ => occurrenceRows spaceId log lower upper
  else if relation = withdrawalRelation then some fun _ => withdrawalRows spaceId log lower upper
  else if relation ∈ textRelations then some (textRows host log lower relation)
  else none

/-! ## Rows that stand for others -/

section Answers

variable {Γ : Host} {db : Db} {sources : CandidateSources} {R R' : Reading} {literal : Literal} {θ : Substitution}
  {arguments : List QueryTerm}

/-- What lists the matches of some rows lists those of more rows, when each row that matches is the same as one of the first. -/
theorem lists_rowMatches {m : Eval (List Substitution)} {S T : Set Tuple}
    (h : Lists contextOpen Substitution.same m (rowMatches arguments θ S)) (hst : ∀ row ∈ S, row ∈ T)
    (hts : ∀ row ∈ T, ∀ θ', unifyArguments arguments row θ = some θ' → ∃ row' ∈ S, rowSame row row') :
    Lists contextOpen Substitution.same m (rowMatches arguments θ T) := by
  refine Runs.weaken h (fun found hp θ' hm => ?_) fun found _ hq θ' hm => ?_
  · obtain ⟨row, hrow, hu⟩ := hp θ' hm
    exact ⟨row, hst row hrow, hu⟩
  · obtain ⟨row, hrow, hu⟩ := hm
    obtain ⟨row', hrow', hs⟩ := hts row hrow θ' hu
    obtain ⟨φ, hφ, hsame⟩ := unifyArguments_congr (Substitution.same.refl θ) hs hu
    obtain ⟨ψ, hψ, hsame'⟩ := hq φ ⟨row', hrow', hφ⟩
    exact ⟨ψ, hψ, hsame.trans hsame'⟩

/-- A literal answered under a reading is answered under one that has more rows, the same as those up to the signs of zeros. -/
theorem Answers.enlarge {relations : Literal → Substitution → Eval (List Substitution)} (h : Answers relations R literal)
    (hsub : ∀ n, ∀ row ∈ R.rows literal.relation n, row ∈ R'.rows literal.relation n)
    (hsup : ∀ n, ∀ row ∈ R'.rows literal.relation n, ∃ row' ∈ R.rows literal.relation n, rowSame row row')
    (hneg : R.leNegated R' literal.relation) (hneg' : R'.leNegated R literal.relation) : Answers relations R' literal := by
  intro bound θ hkind hready hb
  have hto : ∀ {S S' : Reading}, (literal.negated = true → S'.leNegated S literal.relation) → literal.negated = true →
      ∀ {θ'}, Holds S literal θ θ' → Holds S' literal θ θ' := by
    intro S S' hle hn θ' hh
    obtain ⟨wanted, hg⟩ := ground_ok hready.terms hb (hready.closed (by simp [isPositive, hn]))
    rw [holds_negated hkind hn hg] at hh ⊢
    refine ⟨hh.1, fun row hrow => ?_⟩
    obtain ⟨row', hrow', hs⟩ := hle hn row hrow
    rw [rowEqv_congr hs (rowSame.refl wanted)]
    exact hh.2 row' hrow'
  cases hn : literal.negated with
  | true => exact (h bound θ hkind hready hb).of_subset (fun _ => hto (fun _ => hneg') hn) fun _ => hto (fun _ => hneg) hn
  | false =>
    have hpos : isPositive literal = true := by simp [isPositive, hkind, hn]
    have hlists := (h bound θ hkind hready hb).of_subset (T := rowMatches literal.arguments θ (R.rows literal.relation (needle literal θ)))
      (fun _ hm => (holds_positive hpos).1 hm) fun _ hm => (holds_positive hpos).2 hm
    exact lists_positive hpos (lists_rowMatches hlists (hsub _) fun row hrow _ _ => hsup _ row hrow)

/-- An argument that has a value has one equal to that of a row it unifies with. -/
theorem unifyArguments_value {row : Tuple} {θ' : Substitution} (hu : unifyArguments arguments row θ = some θ') {i : Nat} {term : QueryTerm}
    {a b : Term} (ht : arguments[i]? = some term) (hv : termValue term θ = some a) (hb : row[i]? = some b) : a.eqv b = true :=
  unifyRow_value (unifyArguments_eq_some hu).2 ht hv hb

end Answers

/-! ## The live triples -/

section Triples

variable {Γ : Host} {r : Rotation} {spaceId : String} {log : List LoggedOperation} {lower : Int} {arguments : List QueryTerm}
  {θ : Substitution}

theorem rowSame_tripleRow {p q : Triple} (h : p.same q) : rowSame (tripleRow p) (tripleRow q) := by
  obtain ⟨h1, h2, h3⟩ := Term.same_triple_iff.1 h
  exact .cons h1 (.cons h2 (.cons h3 .nil))

/-- The triples of events, each row taken once, are the matches of their rows. -/
theorem lists_propositionResults (arguments : List QueryTerm) (θ : Substitution) (events : List OperationOccurrence) :
    Lists contextOpen Substitution.same (propositionResults arguments θ events [] [])
      (rowMatches arguments θ {row | ∃ o ∈ events, row = tripleRow o.proposition}) := by
  have hgen : ∀ (rest : List OperationOccurrence) (seen : List Triple) (results : List Substitution), (∀ o ∈ rest, o ∈ events) →
      (∀ θ' ∈ results, θ' ∈ rowMatches arguments θ {row | ∃ o ∈ events, row = tripleRow o.proposition}) →
      Runs contextOpen (propositionResults arguments θ rest seen results)
        (fun found => ∀ θ' ∈ found, θ' ∈ rowMatches arguments θ {row | ∃ o ∈ events, row = tripleRow o.proposition})
        (fun found => (∀ θ' ∈ results, θ' ∈ found) ∧ ((∀ p ∈ seen, ∀ θ', unifyArguments arguments (tripleRow p) θ = some θ' →
            ∃ φ ∈ results, θ'.same φ) →
          ∀ o ∈ rest, ∀ θ', unifyArguments arguments (tripleRow o.proposition) θ = some θ' → ∃ φ ∈ found, θ'.same φ)) := by
    intro rest
    induction rest with
    | nil => exact fun seen results _ hresults => runs_pure hresults ⟨fun _ h => h, fun _ o ho => absurd ho (by simp)⟩
    | cons first rest ih =>
      intro seen results hrest hresults
      rw [List.forall_mem_cons] at hrest
      refine Runs.whenOpen ?_ hresults
      split
      · rename_i hseen
        obtain ⟨p, hp, heqv⟩ := List.any_eq_true.1 hseen
        refine (ih seen results hrest.2 hresults).weaken (fun _ h => h) fun found _ hq => ⟨hq.1, fun hdone => ?_⟩
        refine List.forall_mem_cons.2 ⟨fun θ' hu => ?_, hq.2 hdone⟩
        obtain ⟨φ, hφ, hs⟩ := unifyArguments_congr (Substitution.same.refl θ)
          (rowSame_tripleRow ((Triple.eqv_iff _ _).1 heqv).2).symm hu
        obtain ⟨ψ, hψ, hs'⟩ := hdone p hp φ hφ
        exact ⟨ψ, hq.1 ψ hψ, hs.trans hs'⟩
      · refine (runs_unifyArguments arguments (tripleRow first.proposition) θ).bind fun matched hmatched => ?_
        have hmore : ∀ θ' ∈ results ++ matched.toList,
            θ' ∈ rowMatches arguments θ {row | ∃ o ∈ events, row = tripleRow o.proposition} := by
          intro θ' hm
          rcases List.mem_append.1 hm with hm | hm
          · exact hresults θ' hm
          · exact ⟨_, ⟨first, hrest.1, rfl⟩, hmatched θ' hm⟩
        refine Runs.whenOpen ((ih (seen ++ [first.proposition]) (results ++ matched.toList) hrest.2 hmore).weaken (fun _ h => h)
          fun found _ hq hlisted => ⟨fun θ' hm => hq.1 θ' (List.mem_append_left _ hm), fun hdone => ?_⟩) hresults
        refine List.forall_mem_cons.2 ⟨fun θ' hu => ?_, hq.2 fun p hp θ' hu => ?_⟩
        · obtain ⟨φ, hφ, hs⟩ := hlisted θ' hu
          exact ⟨φ, hq.1 φ (List.mem_append_right _ hφ), hs⟩
        · rcases List.mem_append.1 hp with hp | hp
          · obtain ⟨φ, hφ, hs⟩ := hdone p hp θ' hu
            exact ⟨φ, List.mem_append_left _ hφ, hs⟩
          · obtain ⟨φ, hφ, hs⟩ := hlisted θ' (List.mem_singleton.1 hp ▸ hu)
            exact ⟨φ, List.mem_append_right _ hφ, hs⟩
  refine (hgen events [] [] (fun _ h => h) (by simp)).weaken (fun _ h => h) fun found _ hq θ' hm => ?_
  obtain ⟨row, ⟨o, ho, rfl⟩, hu⟩ := hm
  exact hq.2 (by simp) o ho θ' hu

theorem mem_eventsAfterSequence {events : List OperationOccurrence} {o : OperationOccurrence} :
    o ∈ eventsAfterSequence events lower ↔ o ∈ events ∧ eventAfterSequence o lower = true := by
  unfold eventsAfterSequence
  split
  · rename_i h
    simp [eventAfterSequence, h]
  · exact List.mem_filter

/-- An event is past a version when the operation that it shows is. -/
theorem eventAfterSequence_iff (hs : 0 < spaceId.length) {e : LoggedOperation} (he : 0 ≤ e.sequence) {o : OperationOccurrence}
    (h : o.same (e.occurrence spaceId)) : eventAfterSequence o lower = true ↔ lower < e.sequence := by
  have hc : o.coordinate = coordinateOf spaceId e.sequence e.ordinal := h.1
  have hok := isOccurrenceCoordinate_coordinateOf hs he (Int.natCast_nonneg e.ordinal)
  have hparts : occurrenceParts (coordinateOf spaceId e.sequence e.ordinal).term = some (spaceId, e.sequence, (e.ordinal : Int)) :=
    occurrenceParts_eq_some_iff.2 ⟨_, _, rfl⟩
  unfold eventAfterSequence
  rw [hc, if_pos hok, hparts]
  split
  · simp only [true_iff]
    omega
  · exact decide_eq_true_iff

/-- What a rotation that follows a log shows past a version are the live triples of the log. -/
theorem triples_of_follows (h : Follows Γ r spaceId log) (hs : 0 < spaceId.length) (hpos : ∀ e ∈ log, 0 ≤ e.sequence) :
    (∀ o ∈ eventsAfterSequence (allOccurrences r) lower, tripleRow o.proposition ∈ tripleRows log lower) ∧
      ∀ row ∈ tripleRows log lower, ∃ o ∈ eventsAfterSequence (allOccurrences r) lower, rowSame row (tripleRow o.proposition) := by
  have hlive := h.live
  rw [Reference.liveOccurrences_eq, List.forall₂_map_right_iff] at hlive
  constructor
  · intro o ho
    obtain ⟨ho, hafter⟩ := mem_eventsAfterSequence.1 ho
    obtain ⟨e, he, hsame⟩ := ExceptList.exists_related hlive ho
    exact ⟨e, he, (eventAfterSequence_iff hs (hpos e (Reference.mem_of_mem_live he)) hsame).1 hafter, rowSame_tripleRow hsame.2.2⟩
  · intro row hrow
    obtain ⟨e, he, hlt, hrow⟩ := hrow
    obtain ⟨o, ho, hsame⟩ := ExceptList.exists_related hlive.flip he
    refine ⟨o, mem_eventsAfterSequence.2 ⟨ho, ?_⟩, hrow.trans (rowSame_tripleRow hsame.2.2).symm⟩
    exact (eventAfterSequence_iff hs (hpos e (Reference.mem_of_mem_live he)) hsame).2 hlt

/-- The events that match a pattern, past a version. -/
theorem mem_matching (h : Fram.Indexed Γ r) {t1 t2 t3 : Option Term} {o : OperationOccurrence} :
    o ∈ eventsAfterSequence (matching Γ r t1 t2 t3) lower ↔
      o ∈ eventsAfterSequence (allOccurrences r) lower ∧ patternMatch o.proposition t1 t2 t3 = true := by
  rw [matching_eq h, mem_eventsAfterSequence, mem_eventsAfterSequence, List.mem_filter]
  tauto

/-- **The rotation presents the live triples.** -/
theorem presents_rotation (h : Follows Γ r spaceId log) (hs : 0 < spaceId.length) (hpos : ∀ e ∈ log, 0 ≤ e.sequence) (lower : Int) :
    Presents Γ tripleRelation (.candidates (rotationCandidateSource r lower)) fun _ => tripleRows log lower := by
  obtain ⟨hshown, hall⟩ := @triples_of_follows Γ r spaceId log lower h hs hpos
  intro db sources R literal hsource hrelation hrows hneg bound θ hkind hready hb
  have hlen : literal.arguments.length = 3 := hready.arity hkind 3 (by rw [hrelation]; rfl)
  obtain ⟨a1, a2, a3, hargs⟩ := List.length_eq_three.1 hlen
  rw [← hrelation] at hsource hrows hneg
  have hnth : ∀ {α : Type} (x y z : α), nth [x, y, z] 0 = .ok x ∧ nth [x, y, z] 1 = .ok y ∧ nth [x, y, z] 2 = .ok z :=
    fun x y z => ⟨rfl, rfl, rfl⟩
  cases hn : literal.negated with
  | true =>
    obtain ⟨wanted, hg⟩ := ground_ok hready.terms hb (hready.closed (by simp [isPositive, hn]))
    obtain ⟨w1, w2, w3, rfl⟩ := List.length_eq_three.1 ((ground_eq_ok_iff.1 hg).length_eq.symm.trans hlen)
    have hcontains : sourceContains Γ (rotationCandidateSource r lower) literal.relation literal.arguments θ =
        .ok (!(eventsAfterSequence (matching Γ r (some w1) (some w2) (some w3)) lower).isEmpty) := by
      simp only [sourceContains, hg, rotationCandidateSource, (hnth w1 w2 w3).1, (hnth w1 w2 w3).2.1, (hnth w1 w2 w3).2.2, bind,
        Except.bind]
      rfl
    simp only [relationResultsIndexed, hn, if_true, hsource, absentFromSource]
    refine Runs.bind (runs_lift hcontains (P := fun b => b = _) (Q := fun _ => True) rfl trivial) fun b hb' => ?_
    subst hb'
    refine Runs.weaken (lists_negated hkind hn hg ?_) (fun _ hp => hp) fun _ _ hq _ => hq
    rw [hneg, Bool.not_eq_true', List.isEmpty_eq_false_iff_exists_mem]
    have hpattern : ∀ o : OperationOccurrence, patternMatch o.proposition (some w1) (some w2) (some w3) =
        rowEqv [w1, w2, w3] (tripleRow o.proposition) := fun o => by
      simp [patternMatch, slotMatches, rowEqv, tripleRow]
    constructor
    · intro hx
      obtain ⟨o, ho⟩ := hx
      obtain ⟨ho, hm⟩ := (mem_matching h.indexed).1 ho
      exact ⟨_, hshown o ho, rowEqv_symm (hpattern o ▸ hm)⟩
    · intro hx
      obtain ⟨row, hrow, he⟩ := hx
      obtain ⟨o, ho, hsame⟩ := hall row hrow
      refine ⟨o, (mem_matching h.indexed).2 ⟨ho, ?_⟩⟩
      rw [hpattern, ← rowEqv_congr (rowSame.refl _) hsame]
      exact rowEqv_symm he
  | false =>
    have hpos : isPositive literal = true := by simp [isPositive, hkind, hn]
    refine lists_positive hpos ?_
    rw [hrows, hargs]
    simp only [relationResultsIndexed, hn, Bool.false_eq_true, if_false, hsource, candidateResults, rotationCandidateSource, hargs,
      rotationResultsIndexed]
    refine Runs.bind (runs_lift (hnth a1 a2 a3).1 (P := fun t => t = a1) (Q := fun _ => True) rfl trivial) fun t ht => ?_
    subst ht
    refine Runs.weaken (Runs.bind (runs_lift (hnth t a2 a3).2.1 (P := fun u => u = a2) (Q := fun _ => True) rfl trivial) fun u hu => ?_)
      (fun _ hp => hp) fun _ _ hq _ => hq
    subst hu
    refine Runs.weaken (Runs.bind (runs_lift (hnth t u a3).2.2 (P := fun v => v = a3) (Q := fun _ => True) rfl trivial) fun v hv => ?_)
      (fun _ hp => hp) fun _ _ hq _ => hq
    subst hv
    refine Runs.weaken (lists_rowMatches (lists_propositionResults _ θ _) ?_ ?_) (fun _ hp => hp) fun _ _ hq _ => hq
    · intro row hrow
      obtain ⟨o, ho, rfl⟩ := hrow
      exact hshown o ((mem_matching h.indexed).1 ho).1
    · intro row hrow θ' hu
      obtain ⟨o, ho, hsame⟩ := hall row hrow
      refine ⟨_, ⟨o, (mem_matching h.indexed).2 ⟨ho, ?_⟩, rfl⟩, hsame⟩
      obtain ⟨φ, hφ, -⟩ := unifyArguments_congr (Substitution.same.refl θ) hsame hu
      have hslot : ∀ (i : Nat) (term : QueryTerm) (b : Term), [t, u, v][i]? = some term → (tripleRow o.proposition)[i]? = some b →
          slotMatches (termValue term θ) b = true := by
        intro i term b ht hb
        cases hv : termValue term θ with
        | none => rfl
        | some a => exact unifyArguments_value hφ ht hv hb
      simp only [patternMatch, Bool.and_eq_true]
      exact ⟨hslot 0 t _ rfl rfl, hslot 1 u _ rfl rfl, hslot 2 v _ rfl rfl⟩

end Triples

/-! ## The occurrences -/

section Occurrences

variable {Γ : Host} {db : Db} {sources : CandidateSources} {R : Reading} {literal : Literal} {s : TermStore}
  {frames : List TransactionFrame} {lower upper : Int}

/-- The handles stand for rows of a set: each has one of them, and each that the arguments may be has a handle. -/
structure HandlesOf (source : CandidateSource) (arguments : List QueryTerm) (θ : Substitution) (handles : List Nat) (S : Set Tuple) :
    Prop where
  rows : ∀ handle ∈ handles, ∃ row ∈ S, sourceRow source handle = .ok row
  complete : ∀ row ∈ S, ∀ θ', unifyArguments arguments row θ = some θ' →
    ∃ handle ∈ handles, ∃ row', sourceRow source handle = .ok row' ∧ rowSame row row'

/-- A literal whose relation has a source that finds handles reads the rows that these stand for. -/
theorem answers_handles {source : CandidateSource} (hsource : sources literal.relation = some (.candidates source))
    (hrotation : source.rotation = none) {S : Set Tuple} (hrows : ∀ n, R.rows literal.relation n = S)
    (hneg : R.negated literal.relation = S) (h : ∀ bound θ, literal.kind = relationKind → Ready bound literal → ∃ handles,
      sourceHandles Γ source literal.relation literal.arguments θ = .ok (some handles) ∧ HandlesOf source literal.arguments θ handles S) :
    Answers (relationResultsIndexed Γ db sources) R literal := by
  intro bound θ hkind hready hb
  obtain ⟨handles, hok, hhandles⟩ := h bound θ hkind hready
  cases hn : literal.negated with
  | true =>
    obtain ⟨wanted, hg⟩ := ground_ok hready.terms hb (hready.closed (by simp [isPositive, hn]))
    obtain ⟨found, hfound, hiff⟩ := ExceptList.anyM_ok (l := handles) (f := fun handle => (do
        let row ← sourceRow source handle
        pure (rowEqv wanted row) : Except Fault Bool)) fun handle hm => by
      obtain ⟨row, -, hrow⟩ := hhandles.rows handle hm
      exact ⟨rowEqv wanted row, by rw [hrow]; rfl⟩
    have hcontains : sourceContains Γ source literal.relation literal.arguments θ = .ok found := by
      simp only [sourceContains, hg, hrotation, hok, Option.getD_some, bind, Except.bind]
      exact hfound
    simp only [relationResultsIndexed, hn, if_true, hsource, absentFromSource]
    refine Runs.bind (runs_lift hcontains (P := fun b => b = found) (Q := fun _ => True) rfl trivial) fun b hb' => ?_
    subst hb'
    refine Runs.weaken (lists_negated hkind hn hg (hiff.trans ⟨fun hx => ?_, fun hx => ?_⟩)) (fun _ hp => hp) fun _ _ hq _ => hq
    · obtain ⟨handle, hm, ht⟩ := hx
      obtain ⟨row, hS, hrow⟩ := hhandles.rows handle hm
      rw [hrow] at ht
      exact ⟨row, hneg ▸ hS, rowEqv_symm (Except.ok.inj ht)⟩
    · obtain ⟨row, hS, he⟩ := hx
      obtain ⟨handle, hm, row', hrow, hsame⟩ := hhandles.complete row (hneg ▸ hS) θ (unifyArguments_ground hg (rowEqv_symm he))
      refine ⟨handle, hm, ?_⟩
      rw [hrow]
      have : rowEqv wanted row' = true := by rw [← rowEqv_congr (rowSame.refl wanted) hsame, rowEqv_symm he]
      exact congrArg Except.ok this
  | false =>
    have hpos : isPositive literal = true := by simp [isPositive, hkind, hn]
    refine lists_positive hpos ?_
    rw [hrows]
    simp only [relationResultsIndexed, hn, Bool.false_eq_true, if_false, hsource, candidateResults, hrotation]
    refine Runs.bind (runs_lift hok (P := fun r => r = some handles) (Q := fun _ => True) rfl trivial) fun r hr => ?_
    subst hr
    refine Runs.weaken (lists_rowMatches (lists_handles fun handle hm => ?_) ?_ ?_) (fun _ hp => hp) fun _ _ hq _ => hq
    · obtain ⟨row, -, hrow⟩ := hhandles.rows handle hm
      exact ⟨row, hrow⟩
    · intro row hrow
      obtain ⟨handle, hm, hrow⟩ := hrow
      obtain ⟨row', hS, hrow'⟩ := hhandles.rows handle hm
      rw [hrow] at hrow'
      cases hrow'
      exact hS
    · intro row hS θ' hu
      obtain ⟨handle, hm, row', hrow', hsame⟩ := hhandles.complete row hS θ' hu
      exact ⟨row', ⟨handle, hm, hrow'⟩, hsame⟩

/-- The row at a position is that of the operation there. -/
theorem occurrenceTupleAt_ok (h : Represents Γ s frames) {p : Nat} {e : LoggedOperation} (he : (logOf frames)[p]? = some e) :
    ∃ row, occurrenceTupleAt s p = .ok row ∧ rowSame row (e.occurrence s.spaceId).row := by
  obtain ⟨o, ho, hc, ha, hp⟩ := h.operationOccurrenceAt he
  refine ⟨o.row, by simp only [occurrenceTupleAt, ho, bind, Except.bind]; rfl, ?_⟩
  unfold OperationOccurrence.row
  rw [hc, ha]
  exact .cons (Term.same_refl _) (.cons (Term.same_refl _) (.cons hp .nil))

/-- **The store presents its occurrences.** -/
theorem presents_occurrences (h : Represents Γ s frames) (hle : lower ≤ upper) :
    Presents Γ occurrenceRelation (.candidates (occurrenceCandidateSource s lower upper))
      fun _ => occurrenceRows s.spaceId (logOf frames) lower upper := by
  intro db sources R literal hsource hrelation hrows hneg
  rw [← hrelation] at hsource hrows hneg
  refine answers_handles hsource rfl hrows hneg fun bound θ hkind hready => ?_
  have hlen : literal.arguments.length = 3 := hready.arity hkind 3 (by rw [hrelation]; rfl)
  obtain ⟨a1, a2, a3, hargs⟩ := List.length_eq_three.1 hlen
  obtain ⟨positions, hok, -, hmem⟩ := h.operationCandidatePositions hle (termValue a1 θ) (termValue a3 θ)
  refine ⟨positions, ?_, fun handle hm => ?_, fun row hrow θ' hu => ?_⟩
  · rw [hargs]
    simp only [sourceHandles, occurrenceCandidateSource]
    exact (congrArg (fun r => r >>= fun positions => pure (some positions)) hok).trans rfl
  · obtain ⟨e, he, hmeets⟩ := (hmem handle).1 hm
    obtain ⟨row, hrow, hsame⟩ := occurrenceTupleAt_ok h he
    exact ⟨row, ⟨e, List.mem_of_getElem? he, hmeets.above, hmeets.upTo, hsame⟩, hrow⟩
  · obtain ⟨e, he, habove, hupTo, hsame⟩ := hrow
    obtain ⟨p, hp⟩ := List.mem_iff_getElem?.1 he
    obtain ⟨row', hrow', hsame'⟩ := occurrenceTupleAt_ok h hp
    obtain ⟨φ, hφ, -⟩ := unifyArguments_congr (Substitution.same.refl θ) hsame hu
    rw [hargs] at hφ
    refine ⟨p, (hmem p).2 ⟨e, hp, habove, hupTo, fun c hc => ?_, fun t ht => ?_⟩, row', hrow', hsame.trans hsame'.symm⟩
    · exact @unifyArguments_value _ _ _ _ hφ 0 a1 c _ rfl hc rfl
    · exact @unifyArguments_value _ _ _ _ hφ 2 a3 t _ rfl ht rfl

/-! ## The withdrawals -/

/-- The row of the withdrawal that the operation at a position makes, if it makes one. -/
def withdrawalRowAt (spaceId : String) (log : List LoggedOperation) (p : Nat) : Option Tuple := do
  let q ← (reading log).targets[p]?.join
  let b ← log[p]?
  let a ← log[q]?
  some [(coordinateOf spaceId b.sequence b.ordinal).term, (coordinateOf spaceId a.sequence a.ordinal).term]

/-- What is read of the withdrawal that the operation at a position makes. -/
theorem withdrawalRowAt_ok (h : Represents Γ s frames) {p : Nat} (hp : p < (logOf frames).length) :
    (nth s.withdrawalTargets p >>= fun target => target.elim (pure none) fun target => do
      let retraction ← operationOccurrenceAt s p
      let assertion ← operationOccurrenceAt s target
      pure (some [retraction.coordinate.term, assertion.coordinate.term])) = .ok (withdrawalRowAt s.spaceId (logOf frames) p) := by
  have hlen : (reading (logOf frames)).targets.length = (logOf frames).length := by simpa using (reads_reading (logOf frames)).length
  obtain ⟨target, htarget⟩ : ∃ target, (reading (logOf frames)).targets[p]? = some target := ⟨_, List.getElem?_eq_getElem (hlen ▸ hp)⟩
  have hnth : nth s.withdrawalTargets p = .ok target := by simp [nth, h.targets, htarget]
  cases target with
  | none =>
    simp only [hnth, bind, Except.bind, Option.elim]
    simp [withdrawalRowAt, htarget, pure, Except.pure]
  | some q =>
    obtain ⟨-, a, b, ha, hb, -⟩ := reading_target htarget
    obtain ⟨oa, hoa, sa⟩ := h.operationOccurrenceAt ha
    obtain ⟨ob, hob, sb⟩ := h.operationOccurrenceAt hb
    simp only [hnth, hob, hoa, bind, Except.bind, Option.elim]
    simp [withdrawalRowAt, htarget, ha, hb, sa.1, sb.1, LoggedOperation.occurrence, pure, Except.pure]

/-- The rows of the withdrawals of a window. -/
theorem withdrawalTuplesBetween_ok (h : Represents Γ s frames) (lower upper : Int) :
    ∃ rows, withdrawalTuplesBetween s lower upper = .ok rows ∧
      ∀ row, row ∈ rows ↔ row ∈ withdrawalRows s.spaceId (logOf frames) lower upper := by
  obtain ⟨start, stop, hbounds, hstop, -, hwindow⟩ := h.operationRangeBounds lower upper
  have hrow := @ExceptList.mapM_eq_ok Fault Nat (Option Tuple) _ (withdrawalRowAt s.spaceId (logOf frames))
    ((List.range stop).drop start) fun p hp => withdrawalRowAt_ok h ((mem_drop_range.1 hp).2.trans_le hstop)
  refine ⟨(((List.range stop).drop start).map (withdrawalRowAt s.spaceId (logOf frames))).reduceOption, ?_, fun row => ?_⟩
  · unfold withdrawalTuplesBetween
    rw [hbounds]
    refine Eq.trans (congrArg (fun rows : Except Fault (List (Option Tuple)) => rows >>= fun found => pure found.reduceOption) ?_)
      (congrArg (fun rows : Except Fault (List (Option Tuple)) => rows >>= fun found => pure found.reduceOption) hrow)
    refine congrArg (fun f => List.mapM f _) (funext fun p => congrArg (fun f => nth s.withdrawalTargets p >>= f) (funext fun target => ?_))
    cases target <;> rfl
  · rw [TextSearch.reduceOption_map, List.mem_filterMap]
    constructor
    · intro hx
      obtain ⟨p, hp, hat⟩ := hx
      simp only [withdrawalRowAt, Option.bind_eq_bind, Option.bind_eq_some_iff, Option.join_eq_some_iff, Option.some.injEq] at hat
      obtain ⟨q, hq, b, hb, a, ha, rfl⟩ := hat
      obtain ⟨hlow, hup⟩ := (hwindow p b hb).1 (mem_drop_range.1 hp)
      exact ⟨p, q, a, b, hq, hb, ha, hlow, hup, rfl⟩
    · intro hx
      obtain ⟨p, q, a, b, hq, hb, ha, hlow, hup, rfl⟩ := hx
      refine ⟨p, mem_drop_range.2 ((hwindow p b hb).2 ⟨hlow, hup⟩), ?_⟩
      simp [withdrawalRowAt, hq, ha, hb]

/-- **An index presents the withdrawals.** -/
theorem presents_withdrawals (h : Represents Γ s frames) (lower upper : Int) :
    ∃ source, withdrawalCandidateSource s lower upper = .ok source ∧
      Presents Γ withdrawalRelation (.candidates source) fun _ => withdrawalRows s.spaceId (logOf frames) lower upper := by
  obtain ⟨rows, hok, hrows⟩ := withdrawalTuplesBetween_ok h lower upper
  refine ⟨_, by simp only [withdrawalCandidateSource, hok, bind, Except.bind]; rfl, ?_⟩
  intro db sources R literal hsource hrelation hread hneg
  rw [← hrelation] at hsource hread hneg
  have hindexed := (indexed_empty literal.relation).addRows (orderedRows (intoRows [] rows))
  have hmem : ∀ row, row ∈ (candidateSourceAddRows literal.relation emptyCandidateSource (orderedRows (intoRows [] rows))).rows ↔
      row ∈ intoRows [] rows := fun row => by
    simp [rows_candidateSourceAddRows, emptyCandidateSource, orderedRows, mem_orderRowVector]
  have hsub : ∀ row ∈ intoRows [] rows, row ∈ withdrawalRows s.spaceId (logOf frames) lower upper := fun row hrow =>
    (hrows row).1 ((mem_intoRows hrow).resolve_left (by simp))
  have hsup : ∀ row ∈ withdrawalRows s.spaceId (logOf frames) lower upper, ∃ row' ∈ intoRows [] rows, rowSame row row' :=
    fun row hrow => exists_mem_intoRows [] ((hrows row).2 hrow)
  refine Answers.enlarge (R := ⟨fun _ _ => {row | row ∈ intoRows [] rows}, fun _ => {row | row ∈ intoRows [] rows ∧ row ≠ []}⟩)
    (answers_indexed hsource hindexed (fun n => ?_) fun row _ => ?_) (fun n row hrow => ?_) (fun n row hrow => ?_)
    (fun row hrow => ⟨row, ?_, rowSame.refl _⟩) fun row hrow => ?_
  · exact Set.ext fun row => (hmem row).symm
  · rw [hmem]
    exact Iff.rfl
  · rw [hread]
    exact hsub row hrow
  · rw [hread] at hrow
    exact hsup row hrow
  · rw [hneg]
    exact hsub row hrow.1
  · rw [hneg] at hrow
    obtain ⟨row', hrow', hsame⟩ := hsup row hrow
    refine ⟨row', ⟨hrow', ?_⟩, hsame⟩
    rintro rfl
    obtain ⟨_, _, _, _, -, -, -, -, -, rfl⟩ := hrow
    cases hsame

/-! ## Text searches -/

/-- A text search presents what it finds. -/
theorem presents_text {relation : String} (hrelation : relation ∈ textRelations) (source : TextSearchSource) :
    Presents Γ relation (.virtual relation source) (source.found true relation) := by
  intro db sources R literal hsource hl hrows _ bound θ hkind hready hb
  rw [← hl] at hsource hrows hrelation
  cases hn : literal.negated with
  | true => exact absurd hrelation (hready.stored hkind hn)
  | false =>
    simp only [relationResultsIndexed, hn, Bool.false_eq_true, if_false, hsource]
    rw [hl]
    exact lists_virtual (by simp [isPositive, hkind, hn]) (three_le_of_text hkind hready hrelation) (hl ▸ hrows _)

/-- Only a text is the same as a text. -/
theorem eq_str_of_same {text : String} {b : Term} (h : (Term.str text).same b) : b = .str text := by
  cases b with
  | triple => simp [Term.same, Term.canon] at h
  | atom b => cases b <;> simp_all [Term.same, Term.canon, Atom.canon]

/-- A needle that is the same as a text is the text. -/
theorem eq_of_valueSame_str {text : String} {n : Option Term} (h : valueSame (some (.str text)) n) : n = some (.str text) := by
  rcases valueSame_cases h with ⟨h', -⟩ | ⟨a, b, ha, rfl, hab⟩
  · cases h'
  · cases ha
    rw [eq_str_of_same hab]

/-- What a text search finds does not depend on the signs of zeros in the needle. -/
theorem found_same {host : TextHost} {source : TextSearch.TextSearchSource} {relation : String} (hrel : relation ∈ textRelations)
    {n n' : Option Term} (hn : valueSame n n') :
    (TextSearch.searches host source).found true relation n ⊆ (TextSearch.searches host source).found true relation n' := by
  intro row hrow
  by_cases hstr : ∃ text, n = some (.str text)
  · obtain ⟨text, rfl⟩ := hstr
    rw [eq_of_valueSame_str hn]
    exact hrow
  · rw [not_exists] at hstr
    have hrefused := TextSearch.rowsResult_refused host source hrel fun text ht => absurd ht (hstr text)
    have hok := hrow.1
    rw [hrefused] at hok
    cases hok

end Occurrences

end Datalog

end Fram

/-!
## What an accepted plan is

A plan without errors is one that the evaluation does not throw on: every rule is ready, the variables of a literal are bound where it
only reads them, and no stratum negates what it derives itself (`stratumOk_of_validatePlan`).
-/

namespace Fram

namespace Query

open Datalog

variable {host : QueryHost} {plan : QueryPlan} {known bound : List String} {arities : String → Option Nat} {rule : Rule}
  {literal : Literal} {context : String} {terms : List QueryTerm}

/-! ## Literals -/

theorem isQueryTerm_of_termErrors (h : termErrors terms context = []) : ∀ term ∈ terms, isQueryTerm term = true := by
  intro term ht
  have := List.filterMap_eq_nil_iff.1 h term ht
  by_contra hn
  rw [if_neg hn] at this
  cases this

theorem argumentsBound_of_unboundErrors (h : unboundErrors terms bound context = []) : ArgumentsBound terms bound := by
  intro term ht name hname
  have hmem : name ∈ orderedNames (termVars terms) :=
    (List.mergeSort_perm _ _).mem_iff.2 (mem_termVars.2 ⟨term, ht, hname⟩)
  have := List.filterMap_eq_nil_iff.1 h name hmem
  by_contra hn
  rw [if_neg hn] at this
  cases this

/-- A literal that reads a relation, without errors. -/
theorem ready_of_relation (hkind : literal.kind = relationKind) (hterms : termErrors literal.arguments "literal" = [])
    (h : relationLiteralErrors literal known arities bound = []) (htext : textLiteralErrors host literal bound = []) :
    Ready bound literal := by
  obtain ⟨harity, hneg⟩ := List.append_eq_nil_iff.1 h
  refine ⟨isQueryTerm_of_termErrors hterms, Or.inl hkind, fun hk => ?_, fun hpos => ?_, fun _ n hn => ?_, fun _ hnegated hin => ?_⟩
  · rw [hkind] at hk
    exact absurd hk (by decide)
  · have hnegated : literal.negated = true := by simpa [isPositive, hkind] using hpos
    rw [if_pos hnegated] at hneg
    exact argumentsBound_of_unboundErrors hneg
  · split at harity
    · cases harity
    · rw [relationArity, hn] at harity
      dsimp only at harity
      by_contra hne
      rw [if_neg (Ne.symm hne)] at harity
      cases harity
  · rw [textLiteralErrors, if_pos ⟨hkind, hin⟩, if_pos hnegated] at htext
    cases htext

/-- A literal that compares or computes, without errors. -/
theorem ready_of_operation (hkind : literal.kind = comparisonKind ∨ literal.kind = builtinKind)
    (hterms : termErrors literal.arguments "literal" = []) (hlen : literal.arguments.length = 2)
    (hbound : unboundErrors literal.arguments bound context = []) : Ready bound literal := by
  have hne : literal.kind ≠ relationKind := by
    intro hk
    rw [hk] at hkind
    exact absurd hkind (by decide)
  exact ⟨isQueryTerm_of_termErrors hterms, Or.inr hkind, fun _ => hlen, fun _ => argumentsBound_of_unboundErrors hbound,
    fun hk => absurd hk hne, fun hk => absurd hk hne⟩

/-- A literal without errors is ready. -/
theorem ready_of_literalErrors (h : literalErrors literal known arities bound = []) (htext : textLiteralErrors host literal bound = []) :
    Ready bound literal := by
  have hlength : ∀ {n : Nat} {e : QueryError}, (if literal.arguments.length = n then [] else [e]) = [] → literal.arguments.length = n := by
    intro n e he
    by_contra hn
    rw [if_neg hn] at he
    cases he
  unfold literalErrors at h
  split at h
  · rename_i hkind
    obtain ⟨hterms, h⟩ := List.append_eq_nil_iff.1 h
    exact ready_of_relation hkind hterms h htext
  split at h
  · rename_i hkind
    simp only [comparisonErrors, List.append_eq_nil_iff] at h
    exact ready_of_operation (Or.inl hkind) h.1 (hlength h.2.1.2) h.2.2
  split at h
  · rename_i hkind
    simp only [builtinErrors, List.append_eq_nil_iff] at h
    exact ready_of_operation (Or.inr hkind) h.1 (hlength h.2.1.1.2) h.2.2
  · cases h

/-! ## Rules -/

theorem boundAfter_eq (body : List Literal) : (bodyErrors host known arities body bound).2 = boundAfter bound body := by
  induction body generalizing bound with
  | nil => rfl
  | cons literal rest ih => exact ih

/-- A body without errors is ready. -/
theorem readyBody_of_bodyErrors {body : List Literal} (h : (bodyErrors host known arities body bound).1 = []) : ReadyBody bound body := by
  induction body generalizing bound with
  | nil => trivial
  | cons literal rest ih =>
    have hsplit : literalErrors literal known arities bound ++ textLiteralErrors host literal bound ++
        (bodyErrors host known arities rest (nameUnion bound (literalBindings literal))).1 = [] := h
    simp only [List.append_eq_nil_iff] at hsplit
    exact ⟨ready_of_literalErrors hsplit.1.1 hsplit.1.2, ih hsplit.2⟩

/-- A rule without errors is ready, and it does not derive a base relation. -/
theorem readyRule_of_ruleErrors (h : ruleErrors host rule known arities = []) : ReadyRule rule ∧ rule.headRelation ∉ baseRelations := by
  have hsplit : headErrors rule ++ (bodyErrors host known arities rule.body []).1 ++
      unboundErrors rule.headArguments (bodyErrors host known arities rule.body []).2 "rule head" = [] := h
  simp only [List.append_eq_nil_iff, headErrors] at hsplit
  obtain ⟨⟨⟨⟨-, hbase⟩, hterms⟩, hbody⟩, hclosed⟩ := hsplit
  rw [boundAfter_eq] at hclosed
  refine ⟨⟨readyBody_of_bodyErrors hbody, isQueryTerm_of_termErrors hterms, argumentsBound_of_unboundErrors hclosed⟩, fun hin => ?_⟩
  rw [if_pos hin] at hbase
  cases hbase

/-! ## Strata -/

/-- Without violations, what a stratum negates it does not derive. -/
theorem negated_of_strataViolations {strata : List (List Rule)} {index : Nat} {lower : List String}
    (h : strataViolations strata index lower = []) {stratum : List Rule} (hs : stratum ∈ strata) (hrule : rule ∈ stratum)
    (hl : literal ∈ rule.body) (hkind : literal.kind = relationKind) (hneg : literal.negated = true) :
    literal.relation ∉ ruleHeadRelations stratum := by
  induction strata generalizing index lower with
  | nil => cases hs
  | cons first rest ih =>
    have hsplit := List.append_eq_nil_iff.1 h
    rcases List.mem_cons.1 hs with rfl | hs
    · have hmem : literal.relation ∈ negatedRelations stratum :=
        List.mem_flatMap.2 ⟨rule, hrule, List.mem_filterMap.2 ⟨literal, hl, if_pos ⟨hkind, hneg⟩⟩⟩
      have := List.filterMap_eq_nil_iff.1 hsplit.1 _ hmem
      intro hin
      rw [if_pos (show literal.relation ∈ derivedRelations stratum from hin)] at this
      cases this
    · exact ih hsplit.2 hs

/-- **What an accepted plan is.** Every stratum of a plan without errors can be evaluated, whatever stands for the base relations. -/
theorem stratumOk_of_validatePlan (h : validatePlan host plan = []) {B : Background}
    (hbase : ∀ relation, relation ∉ baseRelations → B relation = none) : ∀ stratum ∈ plan.strata, StratumOk B stratum := by
  intro stratum hs
  have hrules : ∀ rule ∈ stratum, ruleErrors host rule (nameUnion baseRelations (derivedRelations plan.strata.flatten))
      (headArity plan.strata.flatten) = [] := by
    intro rule hrule
    simp only [validatePlan, List.append_eq_nil_iff, List.flatMap_eq_nil_iff] at h
    exact h.1.1.1.1.1.1.2 rule (List.mem_flatten.2 ⟨stratum, hs, hrule⟩)
  have hviolations : strataViolations plan.strata 0 baseRelations = [] := by
    simp only [validatePlan, List.append_eq_nil_iff, List.map_eq_nil_iff] at h
    exact h.1.1.2
  refine ⟨fun rule hrule => (readyRule_of_ruleErrors (hrules rule hrule)).1, fun relation hr => ?_, fun rule hrule literal hl hk hn => ?_⟩
  · obtain ⟨rule, hrule, rfl⟩ := mem_ruleHeadRelations.1 hr
    exact hbase _ (readyRule_of_ruleErrors (hrules rule hrule)).2
  · exact negated_of_strataViolations hviolations hs hrule hl hk hn

end Query

end Fram
