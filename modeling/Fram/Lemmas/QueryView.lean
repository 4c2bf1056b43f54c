import Fram.Lemmas.QueryPages
import Fram.Lemmas.QuerySources
import Fram.Lemmas.Stratum
import Fram.QueryRoute

/-!
# The sources of a view

The sources that the read route registers for a plan, over the view that it reads, are registered for a background of the relations that
the plan uses (`registered_view`). What the strata of the plan come to over that background they come to over all the base relations of the
history (`sameFor_view`): a relation that no literal reads does not matter, nor do the texts of attributes that none asks for.
-/

namespace Fram

namespace Datalog

open Closing Query

/-! ## Readings that a literal does not tell apart -/

/-- What a literal holds of one reading it holds of another, up to the signs of zeros. -/
def Carries (R R' : Reading) (literal : Literal) : Prop :=
  ∀ θ θ', Holds R literal θ θ' → ∃ φ', Holds R' literal θ φ' ∧ θ'.same φ'

section Carries

variable {R R' : Reading} {literal : Literal} {B B' : Background} {indexed : List String} {rules : List Rule} {X : Set Fact}

theorem BodyHolds.carry {body : List Literal} {position : Nat} {θ φ θ' : Substitution} (hregular : R'.Regular)
    (hc : ∀ literal ∈ body, Carries R R' literal) (h : θ.same φ) (hb : BodyHolds (fun _ => R) position body θ θ') :
    ∃ φ', BodyHolds (fun _ => R') position body φ φ' ∧ θ'.same φ' := by
  induction body generalizing position θ φ with
  | nil =>
    cases hb
    exact ⟨φ, rfl, h⟩
  | cons literal rest ih =>
    rw [List.forall_mem_cons] at hc
    obtain ⟨θ₁, hh, hrest⟩ := hb
    obtain ⟨ψ, hh', hs⟩ := hc.1 θ θ₁ hh
    obtain ⟨φ₁, hh'', hs'⟩ := hh'.mono (hregular.leAt literal) h
    obtain ⟨φ', hrest', hs''⟩ := ih hc.2 (hs.trans hs') hrest
    exact ⟨φ', ⟨φ₁, hh'', hrest'⟩, hs''⟩

theorem derivedFacts_carry {rule : Rule} (hregular : R'.Regular) (hc : ∀ literal ∈ rule.body, Carries R R' literal) :
    derivedFacts (fun _ => R) rule ⊆ derivedFacts (fun _ => R') rule := by
  intro f hf
  obtain ⟨row, ⟨θ, hb, hg⟩, rfl⟩ := hf
  obtain ⟨φ, hb', hs⟩ := hb.carry hregular hc (Substitution.same.refl _)
  obtain ⟨row', hg', hr⟩ := ground_congr hs hg
  exact ⟨row', ⟨φ, hb', hg'⟩, by rw [canonRow_eq_iff.2 hr]⟩

/-- The rules do not tell the backgrounds apart. -/
def SameFor (B B' : Background) (rules : List Rule) : Prop :=
  ∀ rule ∈ rules, ∀ literal ∈ rule.body, ∀ indexed X,
    Carries (factReading B indexed X) (factReading B' indexed X) literal ∧ Carries (factReading B' indexed X) (factReading B indexed X) literal

theorem consequences_sameFor (hB : B.Regular) (hB' : B'.Regular) (h : SameFor B B' rules) :
    consequences B indexed rules X = consequences B' indexed rules X := by
  ext f
  refine exists_congr fun rule => and_congr_right fun hrule => ⟨fun hf => ?_, fun hf => ?_⟩
  · exact derivedFacts_carry (factReading_regular hB') (fun literal hl => (h rule hrule literal hl indexed X).1) hf
  · exact derivedFacts_carry (factReading_regular hB) (fun literal hl => (h rule hrule literal hl indexed X).2) hf

/-- What strata come to over one background they come to over another that they do not tell from it. -/
theorem StrataLeast.sameFor {indexed : List Rule → List String} {strata : List (List Rule)} {base result : Set Fact} (hB : B.Regular)
    (hB' : B'.Regular) (hsame : ∀ stratum ∈ strata, SameFor B B' stratum) (h : StrataLeast B indexed strata base result) :
    StrataLeast B' indexed strata base result := by
  induction h with
  | nil => exact .nil _
  | cons hleast _ ih =>
    rw [List.forall_mem_cons] at hsame
    refine .cons ?_ (ih hsame.2)
    have heq : ∀ names rules', SameFor B B' rules' → consequences B' names rules' = consequences B names rules' :=
      fun names rules' hs => funext fun X => (consequences_sameFor hB hB' hs).symm
    rw [StratumClosed, heq _ _ hsame.1]
    exact hleast

/-- Strata that settle over one background settle over another that they do not tell from it. -/
theorem Settles.sameFor {rounds : Nat} {strata : List (List Rule)} {base : Set Fact} (hB : B.Regular) (hB' : B'.Regular)
    (hsame : ∀ stratum ∈ strata, SameFor B B' stratum) (h : Settles B rounds strata base) : Settles B' rounds strata base := by
  induction h with
  | nil => exact .nil _
  | cons hleast hfinite hcount hnan _ ih =>
    rw [List.forall_mem_cons] at hsame
    refine .cons ?_ hfinite hcount hnan (ih hsame.2)
    have heq : ∀ names rules', SameFor B B' rules' → consequences B' names rules' = consequences B names rules' :=
      fun names rules' hs => funext fun X => (consequences_sameFor hB hB' hs).symm
    rw [StratumClosed, heq _ _ hsame.1]
    exact hleast

theorem SameFor.symm (h : SameFor B B' rules) : SameFor B' B rules :=
  fun rule hrule literal hl indexed X => (h rule hrule literal hl indexed X).symm

/-- A literal does not tell two readings apart where a negation finds the same rows, and every row that it matches in the one has its like
in the other. -/
theorem carries_of_rows (hneg : literal.kind = relationKind → literal.negated = true → R'.negated literal.relation = R.negated literal.relation)
    (hpos : isPositive literal = true → ∀ θ θ' row, row ∈ R.rows literal.relation (needle literal θ) →
      unifyArguments literal.arguments row θ = some θ' → ∃ row' ∈ R'.rows literal.relation (needle literal θ), rowSame row row') :
    Carries R R' literal := by
  intro θ θ' hh
  cases hh with
  | row hp row hrow hu =>
    obtain ⟨row', hrow', hs⟩ := hpos hp θ θ' row hrow hu
    obtain ⟨φ', hu', hs'⟩ := unifyArguments_congr (Substitution.same.refl θ) hs hu
    exact ⟨φ', .row hp row' hrow' hu', hs'⟩
  | absent hk hn wanted hg habs =>
    refine ⟨θ, .absent hk hn wanted hg fun row hrow => habs row ?_, Substitution.same.refl _⟩
    rwa [hneg hk hn] at hrow
  | compares hk hc => exact ⟨θ, .compares hk hc, Substitution.same.refl _⟩
  | computes hk hlen found hf hm => exact ⟨θ', .computes hk hlen found hf hm, Substitution.same.refl _⟩

end Carries

/-! ## Texts -/

section Texts

variable {host : TextHost} {relation text : String} {p q : Triple}

theorem rowText_same (h : p.same q) : TextIndex.rowText p = TextIndex.rowText q := by
  obtain ⟨-, -, h3⟩ := Term.same_triple_iff.1 h
  have hstr : ∀ {a b : Term} {value : String}, a.same b → a = .str value → b = .str value := fun hs ha => by
    rw [ha] at hs
    exact eq_str_of_same hs
  have heq : ∀ {p : Triple} {value : String}, TextIndex.rowText p = some value ↔ p.t3 = .str value := by
    intro p value
    unfold TextIndex.rowText
    split
    · rename_i v hv
      rw [hv, Option.some.injEq]
      constructor
      · intro h
        rw [h]
      · intro h
        cases h
        rfl
    · rename_i hno
      constructor
      · intro h
        cases h
      · intro h
        exact absurd h (hno value)
  refine Option.ext fun value => ?_
  rw [heq, heq]
  exact ⟨hstr h3, hstr h3.symm⟩

/-- Propositions that are the same are found alike. -/
theorem foundRow_same (h : p.same q) {row : Tuple} (hrow : TextSearch.foundRow host relation text p = some row) :
    ∃ row', TextSearch.foundRow host relation text q = some row' ∧ rowSame row row' := by
  obtain ⟨h1, h2, -⟩ := Term.same_triple_iff.1 h
  have hfound : TextSearch.Found host relation text p ↔ TextSearch.Found host relation text q := by
    rw [TextSearch.Found, TextSearch.Found, rowText_same h]
  have htokens : TextSearch.docTokens host p = TextSearch.docTokens host q := by
    rw [TextSearch.docTokens, TextSearch.docTokens, rowText_same h]
  have htext : TextSearch.docText host p = TextSearch.docText host q := by rw [TextSearch.docText, TextSearch.docText, rowText_same h]
  unfold TextSearch.foundRow at hrow ⊢
  split at hrow
  · rename_i hp
    rw [if_pos (hfound.1 hp)]
    refine ⟨_, rfl, ?_⟩
    rw [← Option.some.inj hrow, htokens, htext]
    exact .cons h1 (.cons h2 (.cons (Term.same_refl _) (rowSame.refl _)))
  · cases hrow

/-- The second column of a row that is found is the second position of its proposition. -/
theorem foundRow_second {row : Tuple} (hrow : TextSearch.foundRow host relation text p = some row) : row[1]? = some p.t2 := by
  unfold TextSearch.foundRow at hrow
  split at hrow
  · cases hrow
    rfl
  · cases hrow

/-- A source searches the live triples of a window, or those of some attributes. -/
structure SearchesLive (host : TextHost) (log : List LoggedOperation) (lower : Int) (scope : Option (List Term))
    (source : TextSearch.TextSearchSource) : Prop where
  built : ∃ propositions : List Triple, TextSearch.Built host (scope.elim propositions (TextSearch.propositionsForAttributes propositions)) source ∧
    (∀ p ∈ propositions, ∃ e ∈ Reference.live log, lower < e.sequence ∧ p.same e.proposition) ∧
    ∀ e ∈ Reference.live log, lower < e.sequence → ∃ p ∈ propositions, p.same e.proposition
  fits : ∃ analyzers, TextSearch.analyzersOfResult host source = .ok analyzers

/-- The literal asks for one attribute, and it is one of those in the scope. -/
def AsksWithin (scope : Option (List Term)) (literal : Literal) : Prop :=
  ∀ attributes, scope = some attributes → ∃ position asked known, literal.arguments[1]? = some position ∧
    (∀ θ, termValue position θ = some known) ∧ asked ∈ attributes ∧ (asked = known ∨ asked.eqv known = true)

section Found

variable {log : List LoggedOperation} {lower : Int} {scope : Option (List Term)} {source : TextSearch.TextSearchSource}

/-- What a source finds is what its relation has of the history. -/
theorem SearchesLive.sound (h : SearchesLive host log lower scope source) (hrel : relation ∈ textRelations) {n : Option Term} {row : Tuple}
    (hrow : row ∈ (TextSearch.searches host source).found true relation n) :
    ∃ row' ∈ textRows host log lower relation n, rowSame row row' := by
  obtain ⟨propositions, hbuilt, hlive, -⟩ := h.built
  obtain ⟨text, rfl, haccepts⟩ : ∃ text, n = some (.str text) ∧ TextSearch.Accepts host relation text := by
    by_contra hno
    have hok := hrow.1
    rw [TextSearch.rowsResult_refused host source hrel fun text ht haccepts => hno ⟨text, ht, haccepts⟩] at hok
    cases hok
  have hmem := hrow.2
  rw [hbuilt.rowsResult hrel haccepts (Or.inr h.fits)] at hmem
  obtain ⟨p, hp, hfound⟩ := List.mem_filterMap.1 hmem
  have hp : p ∈ propositions := by
    cases scope with
    | none => exact hp
    | some attributes => exact List.mem_of_mem_filter hp
  obtain ⟨e, he, hlt, hs⟩ := hlive p hp
  obtain ⟨row', hfound', hsame⟩ := foundRow_same hs hfound
  exact ⟨row', ⟨text, rfl, haccepts, e, he, hlt, row', hfound', rowSame.refl _⟩, hsame⟩

/-- What a literal within the scope matches of the history its source finds. -/
theorem SearchesLive.complete (h : SearchesLive host log lower scope source) (hrel : relation ∈ textRelations) {literal : Literal}
    (hasks : AsksWithin scope literal) {n : Option Term} {row : Tuple} (hrow : row ∈ textRows host log lower relation n)
    {θ θ' : Substitution} (hu : unifyArguments literal.arguments row θ = some θ') :
    ∃ row' ∈ (TextSearch.searches host source).found true relation n, rowSame row row' := by
  obtain ⟨propositions, hbuilt, -, hall⟩ := h.built
  obtain ⟨text, rfl, haccepts, e, he, hlt, found, hfound, hsame⟩ := hrow
  obtain ⟨p, hp, hs⟩ := hall e he hlt
  obtain ⟨row', hfound', hsame'⟩ := foundRow_same hs.symm hfound
  have hcorpus : p ∈ scope.elim propositions (TextSearch.propositionsForAttributes propositions) := by
    cases hscope : scope with
    | none => exact hp
    | some attributes =>
      obtain ⟨position, asked, known, hposition, hvalue, hmem, hasked⟩ := hasks attributes hscope
      obtain ⟨φ, hu', -⟩ := unifyArguments_congr (Substitution.same.refl θ) (hsame.trans hsame') hu
      have heqv := unifyArguments_value hu' hposition (hvalue θ) (foundRow_second hfound')
      refine List.mem_filter.2 ⟨hp, List.any_eq_true.2 ⟨asked, hmem, ?_⟩⟩
      rcases hasked with rfl | hasked
      · exact heqv
      · exact Term.eqv_trans hasked heqv
  have hrows := hbuilt.rowsResult hrel haccepts (Or.inr h.fits) true
  refine ⟨row', ⟨by rw [hrows], ?_⟩, hsame.trans hsame'⟩
  rw [hrows]
  exact List.mem_filterMap.2 ⟨p, hcorpus, hfound'⟩

end Found

/-- A literal that reads a text relation, in a plan that is accepted. -/
structure TextLiteral (literal : Literal) : Prop where
  kind : literal.kind = relationKind
  text : literal.relation ∈ textRelations
  three : 3 ≤ literal.arguments.length
  terms : ∀ term ∈ literal.arguments, isQueryTerm term = true

end Texts

end Datalog

namespace QueryOps

open Datalog Query

/-- The scope only grows, and holds the attributes that a text literal asks for. -/
theorem literalTextAttributeScope_ok {literal : Literal} (h : literal.kind = relationKind ∧ literal.relation ∈ textRelations → TextLiteral literal)
    (scope : Option (List Term)) : ∃ scope', literalTextAttributeScope scope literal = .ok scope' ∧
      (∀ attributes', scope' = some attributes' → ∃ attributes, scope = some attributes ∧ attributes ⊆ attributes') ∧
      (literal.kind = relationKind ∧ literal.relation ∈ textRelations → AsksWithin scope' literal) := by
  unfold literalTextAttributeScope
  have hnone : ∀ attributes' : List Term, none = some attributes' → ∃ attributes, scope = some attributes ∧ attributes ⊆ attributes' :=
    fun attributes' he => by cases he
  have hasksNone : AsksWithin none literal := fun attributes' he => by cases he
  cases scope with
  | none => exact ⟨none, rfl, hnone, fun _ => hasksNone⟩
  | some attributes =>
    dsimp only
    split
    · rename_i htext
      obtain ⟨position, hposition⟩ : ∃ position, literal.arguments[1]? = some position :=
        ⟨_, List.getElem?_eq_getElem (by have := (h htext).three; omega)⟩
      have hterm := (h htext).terms position (List.mem_of_getElem? hposition)
      simp only [nth, hposition, bind, Except.bind]
      unfold isQueryTerm at hterm
      cases hname : position.variableName with
      | some name => exact ⟨none, rfl, hnone, fun _ => hasksNone⟩
      | none =>
        rw [hname] at hterm
        obtain ⟨known, hknown⟩ := Option.isSome_iff_exists.1 hterm
        have hvalue : ∀ θ, termValue position θ = some known := fun θ => by rw [termValue, hname, hknown]
        rw [hknown]
        by_cases hin : attributes.any (·.eqv known) = true
        · obtain ⟨asked, hmem, hasked⟩ := List.any_eq_true.1 hin
          refine ⟨some attributes, congrArg (fun asked => Except.ok (some asked)) (if_pos hin), fun attributes' he => ?_, fun _ attributes' he => ?_⟩
          · cases he
            exact ⟨attributes, rfl, fun _ h => h⟩
          · cases he
            exact ⟨position, asked, known, hposition, hvalue, hmem, Or.inr hasked⟩
        · refine ⟨some (attributes ++ [known]), congrArg (fun asked => Except.ok (some asked)) (if_neg hin), fun attributes' he => ?_,
            fun _ attributes' he => ?_⟩
          · cases he
            exact ⟨attributes, rfl, fun _ h => List.mem_append_left _ h⟩
          · cases he
            exact ⟨position, known, known, hposition, hvalue, List.mem_append_right _ (List.mem_singleton_self _), Or.inl rfl⟩
    · rename_i hno
      exact ⟨some attributes, rfl, fun attributes' he => ⟨attributes, rfl, by cases he; exact fun _ h => h⟩, fun htext => absurd htext hno⟩

/-- The scope of a plan has the attribute of every text literal, if there is a scope. -/
theorem foldlM_scope_ok {literals : List Literal}
    (h : ∀ literal ∈ literals, literal.kind = relationKind ∧ literal.relation ∈ textRelations → TextLiteral literal)
    (scope : Option (List Term)) : ∃ scope', literals.foldlM literalTextAttributeScope scope = .ok scope' ∧
      (∀ attributes', scope' = some attributes' → ∃ attributes, scope = some attributes ∧ attributes ⊆ attributes') ∧
      ∀ literal ∈ literals, literal.kind = relationKind ∧ literal.relation ∈ textRelations → AsksWithin scope' literal := by
  induction literals generalizing scope with
  | nil => exact ⟨scope, rfl, fun attributes he => ⟨attributes, he, fun _ h => h⟩, List.forall_mem_nil _⟩
  | cons literal rest ih =>
    rw [List.forall_mem_cons] at h
    obtain ⟨middle, hmiddle, hsub, hasks⟩ := literalTextAttributeScope_ok h.1 scope
    obtain ⟨scope', hscope', hsub', hasks'⟩ := ih h.2 middle
    refine ⟨scope', by simp only [List.foldlM_cons, hmiddle, bind, Except.bind]; exact hscope', fun attributes' he => ?_,
      List.forall_mem_cons.2 ⟨fun htext attributes' he => ?_, hasks'⟩⟩
    · obtain ⟨attributes₁, hm, hs⟩ := hsub' attributes' he
      obtain ⟨attributes, hm', hs'⟩ := hsub attributes₁ hm
      exact ⟨attributes, hm', fun _ ha => hs (hs' ha)⟩
    · obtain ⟨attributes₁, hm, hs⟩ := hsub' attributes' he
      obtain ⟨position, asked, known, hposition, hvalue, hmem, hasked⟩ := hasks htext attributes₁ hm
      exact ⟨position, asked, known, hposition, hvalue, hs hmem, hasked⟩

/-! ## Views -/

/-- The view shows a window of the history of a space. -/
structure Sees (Γ : Host) (view : QueryView) (spaceId : String) (frames : List TransactionFrame) : Prop where
  root : Represents Γ view.root frames
  space : view.root.spaceId = spaceId
  rotation : Follows Γ view.rotation spaceId (logOf frames)
  window : view.lowerExclusive ≤ view.version

/-- The base relations that a plan uses, the texts as a source finds them. -/
def viewBackground (host : TextHost) (spaceId : String) (log : List LoggedOperation) (lower upper : Int) (plan : QueryPlan)
    (texts : Option TextSearch.TextSearchSource) : Background := fun relation =>
  if relation = tripleRelation then some fun _ => tripleRows log lower
  else if relation = occurrenceRelation then
    if planUsesAnyRelation plan [occurrenceRelation] then some fun _ => Datalog.occurrenceRows spaceId log lower upper else none
  else if relation = withdrawalRelation then
    if planUsesAnyRelation plan [withdrawalRelation] then some fun _ => withdrawalRows spaceId log lower upper else none
  else if relation ∈ textRelations then texts.map fun source => (TextSearch.searches host source).found true relation
  else none

/-- The sources of texts, if there is one. -/
def textsOf (host : TextHost) (texts : Option TextSearch.TextSearchSource) : CandidateSources :=
  texts.elim (fun _ => none) fun source => textCandidateSources (TextSearch.searches host source)

section Views

variable {Γ : Host} {view : QueryView} {spaceId : String} {frames : List TransactionFrame} {host : TextHost} {plan : QueryPlan}
  {texts : Option TextSearch.TextSearchSource}

/-- Rows that need no needle are the same for every needle. -/
theorem same_of_const {S : Set Tuple} {S' : Option Term → Set Tuple} (h : some (fun _ => S) = some S') :
    ∀ n n', valueSame n n' → ∀ row ∈ S' n, ∃ row' ∈ S' n', rowSame row row' := by
  intro n n' _ row hrow
  cases h
  exact ⟨row, hrow, rowSame.refl _⟩

theorem regular_viewBackground {log : List LoggedOperation} {lower upper : Int} :
    (viewBackground host spaceId log lower upper plan texts).Regular := by
  intro relation S h
  unfold viewBackground at h
  split at h
  · exact same_of_const h
  · split at h
    · split at h
      · exact same_of_const h
      · cases h
    · split at h
      · split at h
        · exact same_of_const h
        · cases h
      · split at h
        · rename_i hrel
          intro n n' hn row hrow
          obtain ⟨source, -, rfl⟩ := Option.map_eq_some_iff.1 h
          exact ⟨row, found_same hrel hn hrow, rowSame.refl _⟩
        · cases h

/-- **The sources of a view are registered.** -/
theorem registered_view (h : Sees Γ view spaceId frames) (host : TextHost) (plan : QueryPlan)
    (texts : Option TextSearch.TextSearchSource) : ∃ candidates, queryCandidates view plan (textsOf host texts) = .ok candidates ∧
      Registered Γ candidates
        (viewBackground host spaceId (logOf frames) view.lowerExclusive view.version plan texts) := by
  have hpos : ∀ e ∈ logOf frames, 0 ≤ e.sequence := fun e he => h.root.sequence_pos he
  obtain ⟨hrep, rfl, hrotation, hwindow⟩ := h
  have htriples := presents_rotation hrotation hrep.space hpos view.lowerExclusive
  have hoccurrences := presents_occurrences hrep hwindow
  obtain ⟨withdrawals, hwithdrawals, hpresents⟩ := presents_withdrawals hrep view.lowerExclusive view.version
  have hcandidates : ∃ candidates, queryCandidates view plan (textsOf host texts) = .ok candidates ∧ ∀ relation, candidates relation =
      if relation = tripleRelation then some (.candidates (rotationCandidateSource view.rotation view.lowerExclusive))
      else if relation = occurrenceRelation then
        if planUsesAnyRelation plan [occurrenceRelation] then
          some (.candidates (occurrenceCandidateSource view.root view.lowerExclusive view.version))
        else none
      else if relation = withdrawalRelation then
        if planUsesAnyRelation plan [withdrawalRelation] then some (.candidates withdrawals) else none
      else textsOf host texts relation := by
    have htexts : ∀ relation, relation ∉ textRelations → textsOf host texts relation = none := fun relation hno => by
      cases texts with
      | none => rfl
      | some source => exact if_neg hno
    have hto := htexts occurrenceRelation (by decide)
    have htw := htexts withdrawalRelation (by decide)
    have hot : occurrenceRelation ≠ tripleRelation := by decide
    have hwt : withdrawalRelation ≠ tripleRelation := by decide
    have hwo : withdrawalRelation ≠ occurrenceRelation := by decide
    unfold queryCandidates
    rw [hwithdrawals]
    cases hw : planUsesAnyRelation plan [withdrawalRelation] <;> cases ho : planUsesAnyRelation plan [occurrenceRelation] <;>
      refine ⟨_, rfl, fun relation => ?_⟩ <;> by_cases h1 : relation = tripleRelation <;>
      by_cases h2 : relation = occurrenceRelation <;> by_cases h3 : relation = withdrawalRelation <;>
      simp_all
  obtain ⟨candidates, hok, hrelation⟩ := hcandidates
  refine ⟨candidates, hok, regular_viewBackground, fun relation value hvalue => ?_, fun relation hnone => ?_⟩
  · rw [hrelation] at hvalue
    unfold viewBackground
    by_cases h1 : relation = tripleRelation
    · rw [if_pos h1] at hvalue ⊢
      cases hvalue
      exact ⟨_, rfl, h1 ▸ htriples⟩
    rw [if_neg h1] at hvalue ⊢
    by_cases h2 : relation = occurrenceRelation
    · rw [if_pos h2] at hvalue ⊢
      split at hvalue
      · rename_i huses
        cases hvalue
        exact ⟨_, if_pos huses, h2 ▸ hoccurrences⟩
      · cases hvalue
    rw [if_neg h2] at hvalue ⊢
    by_cases h3 : relation = withdrawalRelation
    · rw [if_pos h3] at hvalue ⊢
      split at hvalue
      · rename_i huses
        cases hvalue
        exact ⟨_, if_pos huses, h3 ▸ hpresents⟩
      · cases hvalue
    rw [if_neg h3] at hvalue ⊢
    cases texts with
    | none => cases hvalue
    | some source =>
      simp only [textsOf, Option.elim, textCandidateSources] at hvalue
      split at hvalue
      · rename_i hr
        cases hvalue
        exact ⟨_, by rw [if_pos hr]; rfl, presents_text hr _⟩
      · cases hvalue
  · rw [hrelation] at hnone
    unfold viewBackground
    by_cases h1 : relation = tripleRelation
    · rw [if_pos h1] at hnone
      cases hnone
    rw [if_neg h1] at hnone ⊢
    by_cases h2 : relation = occurrenceRelation
    · rw [if_pos h2] at hnone ⊢
      split at hnone
      · cases hnone
      · rename_i huses
        exact if_neg huses
    rw [if_neg h2] at hnone ⊢
    by_cases h3 : relation = withdrawalRelation
    · rw [if_pos h3] at hnone ⊢
      split at hnone
      · cases hnone
      · rename_i huses
        exact if_neg huses
    rw [if_neg h3] at hnone ⊢
    cases texts with
    | none =>
      split
      · rfl
      · rfl
    | some source =>
      simp only [textsOf, Option.elim, textCandidateSources] at hnone
      split at hnone
      · cases hnone
      · rename_i hr
        exact if_neg hr

/-! ## Plans -/

theorem exists_ready {bound : List String} {body : List Literal} (h : ReadyBody bound body) {literal : Literal} (hl : literal ∈ body) :
    ∃ bound', Ready bound' literal := by
  induction body generalizing bound with
  | nil => cases hl
  | cons first rest ih =>
    rcases List.mem_cons.1 hl with rfl | hl
    · exact ⟨bound, h.1⟩
    · exact ih h.2 hl

theorem viewBackground_none {log : List LoggedOperation} {lower upper : Int} {relation : String} (h : relation ∉ baseRelations) :
    viewBackground host spaceId log lower upper plan texts relation = none := by
  simp only [baseRelations, List.mem_append, List.mem_cons, List.not_mem_nil, or_false, not_or] at h
  rw [viewBackground, if_neg h.2.1, if_neg h.2.2.1, if_neg h.2.2.2, if_neg h.1]

theorem regular_historyBackground {log : List LoggedOperation} {lower upper : Int} :
    (historyBackground host spaceId log lower upper).Regular := by
  intro relation S h
  unfold historyBackground at h
  split at h
  · exact same_of_const h
  · split at h
    · exact same_of_const h
    · split at h
      · exact same_of_const h
      · split at h
        · intro n n' hn row hrow
          cases h
          obtain ⟨text, rfl, hrest⟩ := hrow
          rw [eq_of_valueSame_str hn]
          exact ⟨row, ⟨text, rfl, hrest⟩, rowSame.refl _⟩
        · cases h

/-- The source of texts that a plan is evaluated with: one that searches the live triples within the scope of the plan, where the plan
uses a text relation. -/
structure TextsFor (host : TextHost) (log : List LoggedOperation) (lower : Int) (plan : QueryPlan)
    (texts : Option TextSearch.TextSearchSource) : Prop where
  unused : texts = none → planUsesAnyRelation plan textRelations = false
  searches : ∀ source, texts = some source → ∃ scope, planTextAttributeScope plan = .ok scope ∧ SearchesLive host log lower scope source

theorem uses_of_mem {stratum : List Rule} (hs : stratum ∈ plan.strata) {rule : Rule} (hr : rule ∈ stratum) {literal : Literal}
    (hl : literal ∈ rule.body) {relations : List String} (h : literal.relation ∈ relations) : planUsesAnyRelation plan relations = true := by
  unfold planUsesAnyRelation
  rw [Bool.or_eq_true]
  refine Or.inr (List.any_eq_true.2 ⟨stratum, hs, List.any_eq_true.2 ⟨rule, hr, ?_⟩⟩)
  unfold ruleUsesAnyRelation
  rw [Bool.or_eq_true]
  exact Or.inr (List.any_eq_true.2 ⟨literal, hl, decide_eq_true h⟩)

/-- The literals of an accepted plan are ready. -/
theorem ready_of_plan {query : QueryHost} (h : validatePlan query plan = []) {stratum : List Rule} (hs : stratum ∈ plan.strata) {rule : Rule}
    (hr : rule ∈ stratum) {literal : Literal} (hl : literal ∈ rule.body) : ∃ bound, Ready bound literal :=
  exists_ready ((stratumOk_of_validatePlan h (B := Background.none) fun _ _ => rfl) stratum hs |>.ready rule hr).body hl

/-- An accepted plan has a scope, which has the attributes that its text literals ask for. -/
theorem planTextAttributeScope_ok {query : QueryHost} (h : validatePlan query plan = []) : ∃ scope, planTextAttributeScope plan = .ok scope ∧
    ∀ stratum ∈ plan.strata, ∀ rule ∈ stratum, ∀ literal ∈ rule.body,
      literal.kind = relationKind ∧ literal.relation ∈ textRelations → AsksWithin scope literal := by
  obtain ⟨scope, hok, -, hasks⟩ := @foldlM_scope_ok (plan.strata.flatten.flatMap (·.body)) (fun literal hl htext => by
    obtain ⟨rule, hrule, hl⟩ := List.mem_flatMap.1 hl
    obtain ⟨stratum, hs, hr⟩ := List.mem_flatten.1 hrule
    obtain ⟨bound, hready⟩ := ready_of_plan h hs hr hl
    exact ⟨htext.1, htext.2, three_le_of_text htext.1 hready htext.2, hready.terms⟩) (some [])
  exact ⟨scope, hok, fun stratum hs rule hr literal hl => hasks literal
    (List.mem_flatMap.2 ⟨rule, List.mem_flatten.2 ⟨stratum, hs, hr⟩, hl⟩)⟩

/-- The strata of an accepted plan do not tell the relations that it uses, with the texts in its scope, from all base relations. -/
theorem sameFor_view {query : QueryHost} (h : validatePlan query plan = []) {log : List LoggedOperation} {lower upper : Int}
    (ht : TextsFor host log lower plan texts) {stratum : List Rule} (hs : stratum ∈ plan.strata) :
    SameFor (viewBackground host spaceId log lower upper plan texts) (historyBackground host spaceId log lower upper) stratum := by
  intro rule hr literal hl indexed X
  obtain ⟨bound, hready⟩ := ready_of_plan h hs hr hl
  by_cases htext : literal.relation ∈ textRelations
  · have hviewed : ∃ source scope, viewBackground host spaceId log lower upper plan texts literal.relation =
        some ((TextSearch.searches host source).found true literal.relation) ∧ SearchesLive host log lower scope source ∧
          (literal.kind = relationKind ∧ literal.relation ∈ textRelations → AsksWithin scope literal) := by
      cases htexts : texts with
      | none => exact absurd (uses_of_mem hs hr hl htext) (by rw [ht.unused htexts]; decide)
      | some source =>
        obtain ⟨scope, hscope, hsearches⟩ := ht.searches source htexts
        obtain ⟨scope', hscope', hasks⟩ := planTextAttributeScope_ok h
        obtain rfl : scope = scope' := Except.ok.inj (hscope.symm.trans hscope')
        refine ⟨source, scope, ?_, hsearches, hasks stratum hs rule hr literal hl⟩
        have hno : ∀ other, other ∉ textRelations → literal.relation ≠ other := fun other ho he => ho (he ▸ htext)
        rw [viewBackground, if_neg (hno _ (by decide)), if_neg (hno _ (by decide)), if_neg (hno _ (by decide)), if_pos htext]
        rfl
    have hhistory : historyBackground host spaceId log lower upper literal.relation = some (textRows host log lower literal.relation) := by
      have hno : ∀ other, other ∉ textRelations → literal.relation ≠ other := fun other ho he => ho (he ▸ htext)
      rw [historyBackground, if_neg (hno _ (by decide)), if_neg (hno _ (by decide)), if_neg (hno _ (by decide)), if_pos htext]
    obtain ⟨source, scope, hview, hsearches, hasks⟩ := hviewed
    have hkind : isPositive literal = true → literal.kind = relationKind := fun hp => by
      simp only [isPositive, Bool.and_eq_true, decide_eq_true_eq] at hp
      exact hp.1
    refine ⟨carries_of_rows (fun hk hn => absurd htext (hready.stored hk hn)) fun hp θ θ' row hrow _ => ?_,
      carries_of_rows (fun hk hn => absurd htext (hready.stored hk hn)) fun hp θ θ' row hrow hu => ?_⟩
    · simp only [factReading, hview] at hrow
      simp only [factReading, hhistory]
      exact hsearches.sound htext hrow
    · simp only [factReading, hhistory] at hrow
      simp only [factReading, hview]
      exact hsearches.complete htext (hasks ⟨hkind hp, htext⟩) hrow hu
  · have hsame : viewBackground host spaceId log lower upper plan texts literal.relation =
        historyBackground host spaceId log lower upper literal.relation := by
      unfold viewBackground historyBackground
      split
      · rfl
      · split
        · rename_i ho
          rw [if_pos (uses_of_mem hs hr hl (List.mem_singleton.2 ho))]
        · split
          · rename_i hw
            rw [if_pos (uses_of_mem hs hr hl (List.mem_singleton.2 hw))]
          · rfl
    have hrows : ∀ n, (factReading (viewBackground host spaceId log lower upper plan texts) indexed X).rows literal.relation n =
        (factReading (historyBackground host spaceId log lower upper) indexed X).rows literal.relation n := fun n => by
      simp only [factReading, hsame]
    have hnegated : (factReading (viewBackground host spaceId log lower upper plan texts) indexed X).negated literal.relation =
        (factReading (historyBackground host spaceId log lower upper) indexed X).negated literal.relation := by
      simp only [factReading, hsame]
    exact ⟨carries_of_rows (fun _ _ => hnegated.symm) fun _ θ θ' row hrow _ => ⟨row, hrows _ ▸ hrow, rowSame.refl _⟩,
      carries_of_rows (fun _ _ => hnegated) fun _ θ θ' row hrow _ => ⟨row, hrows _ ▸ hrow, rowSame.refl _⟩⟩

/-- The rows that a plan asks for: each once, the facts of the relation that it finds in what its strata come to over the history in a
window. -/
def PlanRows (host : TextHost) (spaceId : String) (log : List LoggedOperation) (lower upper : Int) (plan : QueryPlan) (rows : List Tuple) :
    Prop :=
  IsSet rows ∧ ∃ X, StrataLeast (historyBackground host spaceId log lower upper) positiveRelationNames plan.strata ∅ X ∧
    factsOf plan.find.relation rows = {f ∈ X | f.1 = plan.find.relation}

/-- The result of a plan, from the rows of the relation that it finds. -/
def findResult (host : QueryHost) (rows : List Tuple) (plan : QueryPlan) : Except Fault QueryResult :=
  if isAggregateFind plan.find then aggregateResult host rows plan else relationResult host rows plan

/-- What an evaluation makes of a plan. -/
def executionOf (host : QueryHost) (plan : QueryPlan) (evaluation : QueryEvaluationResult) : Except Fault (Option QueryExecutionResult) :=
  match evaluation.error, evaluation.db with
  | some error, _ => .ok (some ⟨none, some error⟩)
  | none, none => .ok none
  | none, some db => (fun result => some ⟨some result, none⟩) <$> findResult host (db plan.find.relation) plan

theorem runPlanProjectedResult_eq {Γ : Host} {host : QueryHost} {rounds : Nat} {projection : Projection} {control : Option QueryControl}
    (h : validatePlan host plan = []) :
    runPlanProjectedResult host Γ rounds projection plan control = evaluatePlanResult Γ rounds projection plan control >>= executionOf host plan :=
    by
  rw [runPlanProjectedResult, h]
  refine (if_neg (by simp)).trans ?_
  cases evaluatePlanResult Γ rounds projection plan control with
  | error fault => rfl
  | ok evaluation =>
    obtain ⟨db, error⟩ := evaluation
    cases error with
    | some error => rfl
    | none =>
      cases db with
      | none => rfl
      | some db =>
        simp only [bind, Except.bind, executionOf, findResult]
        split
        · cases aggregateResult host (db plan.find.relation) plan <;> rfl
        · cases relationResult host (db plan.find.relation) plan <;> rfl

/-- The propositions that the texts of a view are searched in. -/
def searchedPropositions (view : QueryView) (scope : Option (List Term)) : List Triple :=
  let propositions := (eventsAfterSequence (allOccurrences view.rotation) view.lowerExclusive).map (·.proposition)
  scope.elim propositions (TextSearch.propositionsForAttributes propositions)

/-- The analyzers of what a plan searches fit in their budget. -/
def Searchable (H : ReadHost) (view : QueryView) (plan : QueryPlan) : Prop :=
  planUsesAnyRelation plan textRelations = true → ∀ scope source, planTextAttributeScope plan = .ok scope →
    TextSearch.buildSourceResult H.text (searchedPropositions view scope) TextIndex.textIndexMaxBytes = .ok source →
    ∃ analyzers, TextSearch.analyzersOfResult H.text source = .ok analyzers

theorem buildTextCandidatesResult_eq (H : ReadHost) (propositions : List Triple) (scope : Option (List Term)) :
    buildTextCandidatesResult H propositions scope = ((TextSearch.buildSourceResult H.text
      (scope.elim propositions (TextSearch.propositionsForAttributes propositions)) TextIndex.textIndexMaxBytes).map fun source =>
        textCandidateSources (TextSearch.searches H.text source)).mapError queryEvaluationErrorFromTextError := by
  unfold buildTextCandidatesResult
  cases scope with
  | none =>
    dsimp only [Option.elim]
    cases TextSearch.buildSourceResult H.text propositions TextIndex.textIndexMaxBytes <;> rfl
  | some attributes =>
    dsimp only [Option.elim, TextSearch.buildSourceForAttributesResult]
    cases TextSearch.buildSourceResult H.text (TextSearch.propositionsForAttributes propositions attributes) TextIndex.textIndexMaxBytes <;>
      rfl

/-- The texts of a view are searched in the live triples of its window, or the search is refused. -/
theorem textCandidates_cases {H : ReadHost} (h : Sees Γ view spaceId frames) (hplan : validatePlan H.query plan = [])
    (hfits : Searchable H view plan) : (∃ error, textCandidates H view plan = .ok (.error error)) ∨
      ∃ texts, textCandidates H view plan = .ok (.ok (textsOf H.text texts)) ∧
        TextsFor H.text (logOf frames) view.lowerExclusive plan texts := by
  obtain ⟨scope, hscope, -⟩ := planTextAttributeScope_ok hplan
  by_cases huses : planUsesAnyRelation plan textRelations = true
  · have hspace : 0 < spaceId.length := h.space ▸ h.root.space
    have hlive := h.rotation.live
    rw [Reference.liveOccurrences_eq, List.forall₂_map_right_iff] at hlive
    have hafter : ∀ {o : OperationOccurrence} {e : LoggedOperation}, e ∈ Reference.live (logOf frames) → o.same (e.occurrence spaceId) →
        (eventAfterSequence o view.lowerExclusive = true ↔ view.lowerExclusive < e.sequence) := fun he hs =>
      eventAfterSequence_iff hspace (h.root.sequence_pos (Reference.mem_of_mem_live he)) hs
    have hbuilt : textCandidates H view plan = .ok (((TextSearch.buildSourceResult H.text (searchedPropositions view scope)
        TextIndex.textIndexMaxBytes).map fun source => textCandidateSources (TextSearch.searches H.text source)).mapError
          queryEvaluationErrorFromTextError) := by
      simp only [textCandidates, if_pos huses, hscope, bind, Except.bind]
      exact congrArg Except.ok (buildTextCandidatesResult_eq H _ scope)
    cases hsource : TextSearch.buildSourceResult H.text (searchedPropositions view scope) TextIndex.textIndexMaxBytes with
    | error error =>
      rw [hsource] at hbuilt
      exact Or.inl ⟨_, hbuilt⟩
    | ok source =>
      rw [hsource] at hbuilt
      have hsearches : SearchesLive H.text (logOf frames) view.lowerExclusive scope source := by
        refine ⟨⟨_, TextSearch.built_of_buildSourceResult hsource, fun p hp => ?_, fun e he hlt => ?_⟩,
          hfits huses scope source hscope hsource⟩
        · obtain ⟨o, ho, rfl⟩ := List.mem_map.1 hp
          obtain ⟨ho, hpast⟩ := mem_eventsAfterSequence.1 ho
          obtain ⟨e, he, hs⟩ := ExceptList.exists_related hlive ho
          exact ⟨e, he, (hafter he hs).1 hpast, hs.2.2⟩
        · obtain ⟨o, ho, hs⟩ := ExceptList.exists_related hlive.flip he
          exact ⟨o.proposition, List.mem_map.2 ⟨o, mem_eventsAfterSequence.2 ⟨ho, (hafter he hs).2 hlt⟩, rfl⟩, hs.2.2⟩
      refine Or.inr ⟨some source, hbuilt, ⟨fun hn => (by cases hn), fun source' hs => ?_⟩⟩
      cases hs
      exact ⟨scope, hscope, hsearches⟩
  · refine Or.inr ⟨none, ?_, fun _ => by simpa using huses, fun source hs => by cases hs⟩
    rw [textCandidates, if_neg huses]
    rfl

/-- The evaluation of a plan over registered candidates. -/
theorem runs_plan {Γ : Host} {H : ReadHost} {candidates : CandidateSources} {B : Background} (hB : Registered Γ candidates B)
    (hok : ∀ stratum ∈ plan.strata, StratumOk B stratum) (hplan : validatePlan H.query plan = []) (control : Option QueryControl) :
    (∃ error, runPlanProjectedResult H.query Γ H.rounds ⟨fun _ => [], candidates⟩ plan control = .ok (some ⟨none, some error⟩)) ∨
    (runPlanProjectedResult H.query Γ H.rounds ⟨fun _ => [], candidates⟩ plan control = .ok none ∧ ¬Settles B H.rounds plan.strata ∅) ∨
    ∃ rows X, IsSet rows ∧ StrataLeast B positiveRelationNames plan.strata ∅ X ∧
      factsOf plan.find.relation rows = {f ∈ X | f.1 = plan.find.relation} ∧
      runPlanProjectedResult H.query Γ H.rounds ⟨fun _ => [], candidates⟩ plan control =
        (fun result => some ⟨some result, none⟩) <$> findResult H.query rows plan := by
  obtain ⟨result, context, hrun, hreached, hopen⟩ := runs_strata hB H.rounds hok (fun _ => []) (newQueryEvaluationContext control)
  rw [facts_nil] at hreached hopen
  have hevaluation : evaluatePlanResult Γ H.rounds ⟨fun _ => [], candidates⟩ plan control = .ok ⟨result, context.error⟩ := by
    simp only [evaluatePlanResult, runStrataDbWithCandidatesResult, hrun, bind, Except.bind]
    rfl
  rw [runPlanProjectedResult_eq hplan, hevaluation]
  cases hcontext : context.error with
  | some error =>
    exact Or.inl ⟨error, rfl⟩
  | none =>
    rw [hcontext] at hevaluation
    obtain ⟨-, hleast⟩ := hopen (by rw [contextOpen, hcontext]; rfl)
    cases result with
    | none =>
      refine Or.inr (Or.inl ⟨rfl, fun hsettles => ?_⟩)
      have := hreached.returned hsettles
      cases this
    | some db =>
      have hempty : HasSets fun _ : String => [] := fun _ => List.Pairwise.nil
      have hsets : HasSets db := hasSets_of_evaluatePlanResult hempty hevaluation rfl
      refine Or.inr (Or.inr ⟨db plan.find.relation, facts db, hsets _, hleast db rfl, ?_, rfl⟩)
      ext f
      rw [Set.mem_ofPred_eq, mem_facts_iff]
      constructor
      · intro hf
        exact ⟨hf.1 ▸ hf, hf.1⟩
      · intro hf
        exact hf.2 ▸ hf.1

/-- **A plan answers from the least model of its strata.** Over the view of a history, an accepted plan whose searches fit is stopped by
its budget, or needs more rounds than it has, which it does not when its strata settle in them; or its result is that of the rows which
it asks for. -/
theorem queryRows_cases {H : ReadHost} (h : Sees Γ view spaceId frames) (hplan : validatePlan H.query plan = [])
    (hfits : Searchable H view plan) (timeoutMs : Int) : (∃ error, queryRows Γ H view plan timeoutMs = .ok (some ⟨none, some error⟩)) ∨
    (queryRows Γ H view plan timeoutMs = .ok none ∧
      ¬Settles (historyBackground H.text spaceId (logOf frames) view.lowerExclusive view.version) H.rounds plan.strata ∅) ∨
    ∃ rows, PlanRows H.text spaceId (logOf frames) view.lowerExclusive view.version plan rows ∧
      queryRows Γ H view plan timeoutMs = (fun result => some ⟨some result, none⟩) <$> findResult H.query rows plan := by
  rcases textCandidates_cases h hplan hfits with ⟨error, herror⟩ | ⟨texts, htexts, hfor⟩
  · exact Or.inl ⟨error, by simp only [queryRows, herror, bind, Except.bind]⟩
  · obtain ⟨candidates, hcandidates, hregistered⟩ := registered_view h H.text plan texts
    have hrun : queryRows Γ H view plan timeoutMs =
        runPlanProjectedResult H.query Γ H.rounds ⟨fun _ => [], candidates⟩ plan (some (queryControl H queryStepLimit timeoutMs)) := by
      simp only [queryRows, htexts, hcandidates, bind, Except.bind]
    have hok := stratumOk_of_validatePlan hplan
      (fun relation (hr : relation ∉ baseRelations) =>
        @viewBackground_none spaceId H.text plan texts (logOf frames) view.lowerExclusive view.version relation hr)
    have hsame := fun stratum hs =>
      @sameFor_view spaceId H.text plan texts H.query hplan (logOf frames) view.lowerExclusive view.version hfor stratum hs
    rw [hrun]
    rcases runs_plan hregistered hok hplan _ with herror | ⟨hnone, hsettles⟩ | ⟨rows, X, hset, hleast, hfacts, hresult⟩
    · exact Or.inl herror
    · exact Or.inr (Or.inl ⟨hnone, fun hs => hsettles (hs.sameFor regular_historyBackground regular_viewBackground
        fun stratum hm => (hsame stratum hm).symm)⟩)
    · exact Or.inr (Or.inr ⟨rows, ⟨hset, X, hleast.sameFor regular_viewBackground regular_historyBackground hsame, hfacts⟩, hresult⟩)

end Views

end QueryOps

end Fram
