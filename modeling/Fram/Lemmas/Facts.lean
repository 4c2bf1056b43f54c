import Fram.Lemmas.Join
import Fram.Lib.SemiNaive

/-!
# Rules as operators on facts

A fact is a relation and a row without the signs of zeros, so that the rows of a database that are equal up to these are one fact.
`consequences` is what the rules of a stratum derive from a set of facts, `deltaFacts` what they derive when one literal reads only
the newest facts. The two satisfy the laws of semi-naive iteration, because a stratum does not negate what it derives.
-/

namespace Fram

namespace Datalog

open Closing Query

/-! ## Facts -/

/-- A term differs from itself without the signs of zeros at most in these. -/
theorem same_canon (a : Term) : a.same a.canon := by
  have hfloat : ∀ x : F64, x.canon.canon = x.canon := by
    intro x
    unfold F64.canon
    split
    · rfl
    · rfl
  unfold Term.same
  induction a with
  | atom a => cases a <;> simp [Term.canon, Atom.canon, hfloat]
  | triple t1 t2 t3 h1 h2 h3 => simp only [Term.canon, ← h1, ← h2, ← h3]

/-- A relation, and a row of it. -/
abbrev Fact := String × Tuple

/-- A row without the signs of zeros. -/
def canonRow (row : Tuple) : Tuple := row.map Term.canon

theorem canonRow_eq_iff {row row' : Tuple} : canonRow row = canonRow row' ↔ rowSame row row' := by
  unfold canonRow rowSame
  induction row generalizing row' with
  | nil => cases row' <;> simp
  | cons a row ih =>
    cases row' with
    | nil => simp
    | cons b row' =>
      rw [List.map_cons, List.map_cons, List.cons.injEq, ih, List.forall₂_cons]
      exact Iff.rfl

theorem rowSame_canonRow (row : Tuple) : rowSame row (canonRow row) := by
  induction row with
  | nil => exact .nil
  | cons a row ih => exact .cons (same_canon a) ih

/-- The facts that rows of a relation are. -/
def factsOf (relation : String) (rows : List Tuple) : Set Fact := {f | f.1 = relation ∧ ∃ row ∈ rows, f.2 = canonRow row}

/-- The facts of a database. -/
def facts (db : Db) : Set Fact := {f | ∃ row ∈ db f.1, f.2 = canonRow row}

theorem factsOf_intoRows (relation : String) (rows new : List Tuple) :
    factsOf relation (intoRows rows new) = factsOf relation rows ∪ factsOf relation new := by
  ext f
  constructor
  · intro h
    obtain ⟨hf, row, hrow, he⟩ := h
    rcases mem_intoRows hrow with hrow | hrow
    · exact Or.inl ⟨hf, row, hrow, he⟩
    · exact Or.inr ⟨hf, row, hrow, he⟩
  · intro h
    rcases h with ⟨hf, row, hrow, he⟩ | ⟨hf, row, hrow, he⟩
    · exact ⟨hf, row, subset_intoRows hrow, he⟩
    · obtain ⟨row', hrow', hs⟩ := exists_mem_intoRows rows hrow
      exact ⟨hf, row', hrow', he.trans (canonRow_eq_iff.2 hs)⟩

theorem mem_facts_iff {db : Db} {f : Fact} : f ∈ facts db ↔ f ∈ factsOf f.1 (db f.1) := by simp [facts, factsOf]

theorem facts_add (db : Db) (relation : String) (rows : List Tuple) : facts (db.add relation rows) = facts db ∪ factsOf relation rows := by
  ext f
  rw [mem_facts_iff, Set.mem_union, mem_facts_iff, Db.add]
  by_cases hf : f.1 = relation
  · subst hf
    rw [Function.update_self, factsOf_intoRows]
    exact Iff.rfl
  · rw [Function.update_of_ne hf]
    have hnot : f ∉ factsOf relation rows := fun h => hf h.1
    tauto

/-! ## Readings of facts -/

/-- Rows that stand for relations in place of the database's own: those of the candidates that a query registers. -/
abbrev Background := String → Option (Option Term → Set Tuple)

/-- The background that has nothing. -/
def Background.none : Background := fun _ => Option.none

/-- The rows of the background do not depend on the signs of zeros in the needle. -/
def Background.Regular (B : Background) : Prop :=
  ∀ relation S, B relation = some S → ∀ n n', valueSame n n' → ∀ row ∈ S n, ∃ row' ∈ S n', rowSame row row'

/-- The reading of a set of facts over a background. A relation with an index is one of `indexed`; a negation does not find the row
without a value in an index. -/
def factReading (B : Background) (indexed : List String) (X : Set Fact) : Reading where
  rows relation n :=
    match B relation with
    | some S => S n
    | none => {row | (relation, row) ∈ X}
  negated relation :=
    match B relation with
    | some S => S none
    | none => {row | (relation, row) ∈ X ∧ (relation ∈ indexed → row ≠ [])}

section Readings

variable {B : Background} {indexed : List String} {X Y : Set Fact} {relation : String}

theorem factReading_rows (h : B relation = none) (n : Option Term) :
    (factReading B indexed X).rows relation n = {row | (relation, row) ∈ X} := by simp [factReading, h]

theorem factReading_negated (h : B relation = none) :
    (factReading B indexed X).negated relation = {row | (relation, row) ∈ X ∧ (relation ∈ indexed → row ≠ [])} := by
  simp [factReading, h]

theorem factReading_regular (hB : B.Regular) : (factReading B indexed X).Regular := by
  intro relation n n' hn row hrow
  cases h : B relation with
  | none =>
    rw [factReading_rows h] at hrow ⊢
    exact ⟨row, hrow, rowSame.refl _⟩
  | some S =>
    simp only [factReading, h] at hrow ⊢
    exact hB relation S h n n' hn row hrow

theorem factReading_le (hB : B.Regular) (h : ∀ row, (relation, row) ∈ X → (relation, row) ∈ Y) :
    (factReading B indexed X).le (factReading B indexed Y) relation := by
  intro n n' hn row hrow
  cases hb : B relation with
  | none =>
    rw [factReading_rows hb] at hrow ⊢
    exact ⟨row, h row hrow, rowSame.refl _⟩
  | some S =>
    simp only [factReading, hb] at hrow ⊢
    exact hB relation S hb n n' hn row hrow

theorem factReading_leNegated (h : ∀ row, (relation, row) ∈ X → (relation, row) ∈ Y) :
    (factReading B indexed X).leNegated (factReading B indexed Y) relation := by
  intro row hrow
  refine ⟨row, ?_, rowSame.refl _⟩
  cases hb : B relation with
  | none =>
    rw [factReading_negated hb] at hrow ⊢
    exact ⟨h row hrow.1, hrow.2⟩
  | some S =>
    simp only [factReading, hb] at hrow ⊢
    exact hrow

/-- Two readings that have the same rows up to the signs of zeros. -/
def Reading.agrees (R R' : Reading) : Prop :=
  ∀ relation, (R.le R' relation ∧ R'.le R relation) ∧ (R.leNegated R' relation ∧ R'.leNegated R relation)

theorem Reading.agrees.symm {R R' : Reading} (h : R.agrees R') : R'.agrees R :=
  fun relation => ⟨(h relation).1.symm, (h relation).2.symm⟩

theorem Reading.agrees.leAt {R R' : Reading} (h : R.agrees R') (literal : Literal) : R.leAt R' literal :=
  ⟨fun _ => (h _).1.1, fun _ _ => (h _).2.2⟩

end Readings

/-! ## What rules derive -/

/-- The facts that a rule derives. -/
def derivedFacts (R : Nat → Reading) (rule : Rule) : Set Fact :=
  {f | ∃ row, Derives R rule row ∧ f = (rule.headRelation, canonRow row)}

theorem derivedFacts_mono {R R' : Nat → Reading} {rule : Rule}
    (h : ∀ i literal, rule.body[i]? = some literal → (R i).leAt (R' i) literal) : derivedFacts R rule ⊆ derivedFacts R' rule := by
  intro f hf
  obtain ⟨row, hd, rfl⟩ := hf
  obtain ⟨row', hd', hs⟩ := hd.mono h
  exact ⟨row', hd', by rw [canonRow_eq_iff.2 hs]⟩

theorem derivedFacts_congr {R R' : Nat → Reading} {rule : Rule} (h : ∀ i, (R i).agrees (R' i)) :
    derivedFacts R rule = derivedFacts R' rule :=
  (derivedFacts_mono fun i _ _ => (h i).leAt _).antisymm (derivedFacts_mono fun i _ _ => (h i).symm.leAt _)

/-- The facts that the rules derive from a set of facts. -/
def consequences (B : Background) (indexed : List String) (rules : List Rule) (X : Set Fact) : Set Fact :=
  {f | ∃ rule ∈ rules, f ∈ derivedFacts (fun _ => factReading B indexed X) rule}

/-- The facts that the rules derive when a literal over one of the relations reads only the newest facts. -/
def deltaFacts (B : Background) (indexed : List String) (rules : List Rule) (deltaRelations : List String) (X δ : Set Fact) :
    Set Fact :=
  {f | ∃ rule ∈ rules, ∃ pin ∈ deltaRelationPositions rule.body deltaRelations,
    f ∈ derivedFacts (pinned (factReading B indexed X) (factReading Background.none deltaRelations δ) pin) rule}

/-! ## The laws of a stratum -/

/-- The sets that have the facts of a base, except for the relations that the rules derive. -/
def WithinHeads (rules : List Rule) (base X : Set Fact) : Prop := ∀ f : Fact, f.1 ∉ ruleHeadRelations rules → (f ∈ X ↔ f ∈ base)

/-- What the evaluation of a stratum relies on: its rules are ready, no background stands for a relation that it derives, and it does
not negate one. -/
structure StratumOk (B : Background) (rules : List Rule) : Prop where
  ready : ∀ rule ∈ rules, ReadyRule rule
  heads : ∀ relation ∈ ruleHeadRelations rules, B relation = none
  negated : ∀ rule ∈ rules, ∀ literal ∈ rule.body, literal.kind = relationKind → literal.negated = true →
    literal.relation ∉ ruleHeadRelations rules

theorem mem_ruleHeadRelations {rules : List Rule} {relation : String} :
    relation ∈ ruleHeadRelations rules ↔ ∃ rule ∈ rules, rule.headRelation = relation := by
  have hgen : ∀ names : List String, relation ∈ rules.foldl (fun names rule => conjName names rule.headRelation) names ↔
      relation ∈ names ∨ ∃ rule ∈ rules, rule.headRelation = relation := by
    induction rules with
    | nil => simp
    | cons rule rules ih =>
      intro names
      rw [List.foldl_cons, ih, mem_conjName]
      simp only [List.exists_mem_cons_iff, or_assoc, eq_comm]
  simpa [ruleHeadRelations] using hgen []

theorem fst_mem_heads {B : Background} {indexed : List String} {rules : List Rule} {X : Set Fact} {f : Fact}
    (h : f ∈ consequences B indexed rules X) : f.1 ∈ ruleHeadRelations rules := by
  obtain ⟨rule, hrule, row, -, rfl⟩ := h
  exact mem_ruleHeadRelations.2 ⟨rule, hrule, rfl⟩

theorem mem_deltaRelationPositions {body : List Literal} {deltaRelations : List String} {pin : Nat} :
    pin ∈ deltaRelationPositions body deltaRelations ↔
      ∃ literal, body[pin]? = some literal ∧ isPositive literal = true ∧ literal.relation ∈ deltaRelations := by
  unfold deltaRelationPositions
  simp only [List.mem_filter, List.mem_range, Option.any_eq_true, Bool.and_eq_true, decide_eq_true_eq]
  constructor
  · intro h
    exact h.2
  · intro h
    obtain ⟨literal, hl, hrest⟩ := h
    exact ⟨(List.getElem?_eq_some_iff.1 hl).1, literal, hl, hrest⟩

theorem BodyHolds.congr {R R' : Nat → Reading} {body : List Literal} {position : Nat} {θ θ' : Substitution}
    (h : ∀ i, position ≤ i → R i = R' i) (hb : BodyHolds R position body θ θ') : BodyHolds R' position body θ θ' := by
  induction body generalizing position θ with
  | nil => exact hb
  | cons literal rest ih =>
    obtain ⟨θ₁, hh, hrest⟩ := hb
    exact ⟨θ₁, h position le_rfl ▸ hh, ih (fun i hi => h i (Nat.le_of_succ_le hi)) hrest⟩

/-- A body that holds over all facts holds over the old ones, or with one of its literals reading a new one. -/
theorem BodyHolds.delta {all old new : Reading} {deltaRelations : List String} {body : List Literal} {position : Nat} {θ θ' : Substitution}
    (hsplit : ∀ literal ∈ body, isPositive literal = true → ∀ n, ∀ row ∈ all.rows literal.relation n,
      row ∈ old.rows literal.relation n ∨ (literal.relation ∈ deltaRelations ∧ row ∈ new.rows literal.relation n))
    (hneg : ∀ literal ∈ body, literal.kind = relationKind → literal.negated = true →
      ∀ row ∈ old.negated literal.relation, row ∈ all.negated literal.relation) (hb : BodyHolds (fun _ => all) position body θ θ') :
    BodyHolds (fun _ => old) position body θ θ' ∨
      ∃ i literal, body[i]? = some literal ∧ isPositive literal = true ∧ literal.relation ∈ deltaRelations ∧
        BodyHolds (pinned all new (position + i)) position body θ θ' := by
  induction body generalizing position θ with
  | nil => exact Or.inl hb
  | cons literal rest ih =>
    rw [List.forall_mem_cons] at hsplit hneg
    obtain ⟨θ₁, hh, hrest⟩ := hb
    have hcase : Holds old literal θ θ₁ ∨
        (isPositive literal = true ∧ literal.relation ∈ deltaRelations ∧ Holds new literal θ θ₁) := by
      cases hh with
      | row hpos row hrow hu =>
        rcases hsplit.1 hpos _ row hrow with hold | ⟨hdelta, hnew⟩
        · exact Or.inl (.row hpos row hold hu)
        · exact Or.inr ⟨hpos, hdelta, .row hpos row hnew hu⟩
      | absent hk hn wanted hg habs => exact Or.inl (.absent hk hn wanted hg fun row hrow => habs row (hneg.1 hk hn row hrow))
      | compares hk hc => exact Or.inl (.compares hk hc)
      | computes hk hlen found hf hm => exact Or.inl (.computes hk hlen found hf hm)
    rcases hcase with hold | ⟨hpos, hdelta, hnew⟩
    · rcases ih hsplit.2 hneg.2 hrest with hrest | ⟨i, other, hi, hpos, hdelta, hrest'⟩
      · exact Or.inl ⟨θ₁, hold, hrest⟩
      · refine Or.inr ⟨i + 1, other, hi, hpos, hdelta, θ₁, ?_, ?_⟩
        · rw [pinned, if_neg (by omega)]
          exact hh
        · rwa [← Nat.add_assoc, Nat.add_right_comm]
    · refine Or.inr ⟨0, literal, rfl, hpos, hdelta, θ₁, ?_, hrest.congr fun i hi => ?_⟩
      · rw [pinned, if_pos (by omega)]
        exact hnew
      · rw [pinned, if_neg (by omega)]

section Laws

variable {B : Background} {rules : List Rule} {indexed : List String} {base X : Set Fact}

/-- Facts of a set within the heads, of a relation that the rules do not derive, are those of any other such set. -/
theorem WithinHeads.mem_iff {Y : Set Fact} (hX : WithinHeads rules base X) (hY : WithinHeads rules base Y) {relation : String}
    (h : relation ∉ ruleHeadRelations rules) (row : Tuple) : (relation, row) ∈ X ↔ (relation, row) ∈ Y :=
  (hX (relation, row) h).trans (hY (relation, row) h).symm

/-- The relations that a stratum derives and reads. -/
theorem mem_positiveRelationNames {relation : String} : relation ∈ positiveRelationNames rules ↔
      ∃ rule ∈ rules, ∃ literal ∈ rule.body, isPositive literal = true ∧ literal.relation = relation := by
  have hbody : ∀ (body : List Literal) (names : List String),
      relation ∈ body.foldl (fun names literal => if isPositive literal then conjName names literal.relation else names) names ↔
        relation ∈ names ∨ ∃ literal ∈ body, isPositive literal = true ∧ literal.relation = relation := by
    intro body
    induction body with
    | nil => simp
    | cons literal body ih =>
      intro names
      rw [List.foldl_cons, ih, List.exists_mem_cons_iff]
      split
      · rename_i hp
        rw [mem_conjName]
        simp only [hp, true_and, or_assoc, eq_comm]
      · rename_i hp
        simp [hp]
  have hgen : ∀ names : List String,
      relation ∈ rules.foldl (fun names rule => rule.body.foldl
        (fun names literal => if isPositive literal then conjName names literal.relation else names) names) names ↔
        relation ∈ names ∨ ∃ rule ∈ rules, ∃ literal ∈ rule.body, isPositive literal = true ∧ literal.relation = relation := by
    induction rules with
    | nil => simp
    | cons rule rules ih =>
      intro names
      rw [List.foldl_cons, ih, hbody, List.exists_mem_cons_iff, or_assoc]
  rw [positiveRelationNames, (List.mergeSort_perm _ _).mem_iff]
  simpa using hgen []

theorem mem_deltaRelationNames {relation : String} :
    relation ∈ deltaRelationNames rules ↔ relation ∈ positiveRelationNames rules ∧ relation ∈ ruleHeadRelations rules := by
  simp [deltaRelationNames, List.mem_filter]

/-- The rules of a stratum and their delta satisfy the laws of semi-naive iteration. -/
theorem StratumOk.laws (h : StratumOk B rules) (hB : B.Regular) (indexed : List String) (base : Set Fact) :
    SemiNaive.Laws (WithinHeads rules base) (consequences B indexed rules) (deltaFacts B indexed rules (deltaRelationNames rules)) where
  grow X Y hX hY f hf := by
    rw [← hX f hf, Set.mem_union, or_iff_left]
    exact fun hm => hf (fst_mem_heads (hY hm))
  mono X Y hX hY hsub f hf := by
    obtain ⟨rule, hrule, hf⟩ := hf
    refine ⟨rule, hrule, derivedFacts_mono (fun i literal hi => ⟨fun _ => ?_, fun hk hn => ?_⟩) hf⟩
    · exact factReading_le hB fun row hrow => hsub hrow
    · exact factReading_leNegated fun row hrow =>
        (hY.mem_iff hX (h.negated rule hrule literal (List.mem_of_getElem? hi) hk hn) row).1 hrow
  complete A δ hA hAδ f hf := by
    obtain ⟨rule, hrule, row, hd, rfl⟩ := hf
    obtain ⟨θ, hb, hg⟩ := hd
    have hsplit : ∀ literal ∈ rule.body, isPositive literal = true → ∀ n,
        ∀ r ∈ (factReading B indexed (A ∪ δ)).rows literal.relation n, r ∈ (factReading B indexed A).rows literal.relation n ∨
          (literal.relation ∈ deltaRelationNames rules ∧ r ∈ (factReading Background.none (deltaRelationNames rules) δ).rows literal.relation n) := by
      intro literal hl hpos n r hr
      cases hb : B literal.relation with
      | some S =>
        simp only [factReading, hb] at hr ⊢
        exact Or.inl hr
      | none =>
        rw [factReading_rows hb] at hr ⊢
        rw [factReading_rows rfl]
        rcases hr with hr | hr
        · exact Or.inl hr
        · by_cases hhead : literal.relation ∈ ruleHeadRelations rules
          · exact Or.inr ⟨mem_deltaRelationNames.2 ⟨mem_positiveRelationNames.2 ⟨rule, hrule, literal, hl, hpos, rfl⟩, hhead⟩, hr⟩
          · exact Or.inl ((hAδ.mem_iff hA hhead r).1 (Or.inr hr))
    have hneg : ∀ literal ∈ rule.body, literal.kind = relationKind → literal.negated = true →
        ∀ r ∈ (factReading B indexed A).negated literal.relation, r ∈ (factReading B indexed (A ∪ δ)).negated literal.relation := by
      intro literal hl hk hn r hr
      cases hb : B literal.relation with
      | some S =>
        simp only [factReading, hb] at hr ⊢
        exact hr
      | none =>
        rw [factReading_negated hb] at hr ⊢
        exact ⟨Or.inl hr.1, hr.2⟩
    rcases hb.delta hsplit hneg with hold | ⟨pin, literal, hi, hpos, hdelta, hnew⟩
    · exact Or.inl ⟨rule, hrule, row, ⟨θ, hold, hg⟩, rfl⟩
    · refine Or.inr ⟨rule, hrule, pin, mem_deltaRelationPositions.2 ⟨literal, hi, hpos, hdelta⟩, row, ⟨θ, ?_, hg⟩, rfl⟩
      rwa [Nat.zero_add] at hnew
  sound X δ hX hsub f hf := by
    obtain ⟨rule, hrule, pin, hpin, hf⟩ := hf
    obtain ⟨pinnedLiteral, hi, hpos, hdelta⟩ := mem_deltaRelationPositions.1 hpin
    refine ⟨rule, hrule, derivedFacts_mono (fun i literal hl => ?_) hf⟩
    unfold pinned
    split
    · rename_i he
      subst he
      rw [hi] at hl
      cases hl
      have hnone : B pinnedLiteral.relation = none := h.heads _ (mem_deltaRelationNames.1 hdelta).2
      refine ⟨fun _ n n' _ row hrow => ⟨row, ?_, rowSame.refl _⟩, fun _ hn => ?_⟩
      · rw [factReading_rows hnone]
        rw [factReading_rows rfl] at hrow
        exact hsub hrow
      · simp [isPositive, hn] at hpos
    · exact (factReading_regular hB).leAt literal

end Laws

end Datalog

end Fram
