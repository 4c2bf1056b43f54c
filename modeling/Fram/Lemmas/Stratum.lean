import Fram.Lemmas.Rounds
import Mathlib.Data.Set.Card

/-!
# What a stratum comes to

Between two rounds the facts of the database are those of a semi-naive iteration (`Round`). The rounds of a stratum so end with the
least set of facts that holds the given ones and that the rules do not leave (`runs_stratum`), and they do end when that set is finite
and has no NaN in a relation that the stratum both derives and reads. The strata follow one after the other (`runs_strata`).
-/

namespace Fram

namespace Datalog

open Closing Query

/-- The sets of facts that hold the given ones, have more only of the relations that the rules derive, and hold what the rules derive
from them. -/
def StratumClosed (B : Background) (indexed : List String) (rules : List Rule) (base : Set Fact) : Set (Set Fact) :=
  SemiNaive.Closed (WithinHeads rules base) (consequences B indexed rules) base

/-- No fact of a relation that the stratum both derives and reads holds a NaN. -/
def NoNaN (rules : List Rule) (X : Set Fact) : Prop := ∀ f ∈ X, f.1 ∈ deltaRelationNames rules → rowHasNaN f.2 = false

section Stratum

variable {Γ : Host} {candidates sources : CandidateSources} {B : Background} {rules : List Rule} {base : Set Fact} {db delta : Db}

theorem withinHeads_refl (rules : List Rule) (base : Set Fact) : WithinHeads rules base base := fun _ _ => Iff.rfl

theorem rowHasNaN_canonRow (row : Tuple) : rowHasNaN (canonRow row) = rowHasNaN row := (rowSame_canonRow row).hasNaN.symm

/-! ## One round -/

/-- Each literal of a body holds somewhere along the way. -/
theorem BodyHolds.at {R : Nat → Reading} {body : List Literal} {position : Nat} {θ θ' : Substitution}
    (h : BodyHolds R position body θ θ') {i : Nat} {literal : Literal} (hi : body[i]? = some literal) :
    ∃ θ₁ θ₂, Holds (R (position + i)) literal θ₁ θ₂ := by
  induction body generalizing position θ i with
  | nil => simp at hi
  | cons first rest ih =>
    obtain ⟨θ₁, hh, hrest⟩ := h
    cases i with
    | zero =>
      cases hi
      exact ⟨θ, θ₁, hh⟩
    | succ i =>
      obtain ⟨θ₂, θ₃, hl⟩ := ih hrest hi
      exact ⟨θ₂, θ₃, by rwa [← Nat.add_assoc, Nat.add_right_comm]⟩

/-- Without new rows to read there is nothing to derive. -/
theorem deltaFacts_empty {indexed : List String} {X : Set Fact} (h : deltaEmpty delta (deltaRelationNames rules) = true) :
    deltaFacts B indexed rules (deltaRelationNames rules) X (facts delta) = ∅ := by
  rw [Set.eq_empty_iff_forall_notMem]
  intro f hf
  obtain ⟨rule, -, pin, hpin, row, ⟨θ, hb, -⟩, -⟩ := hf
  obtain ⟨literal, hi, hpos, hdelta⟩ := mem_deltaRelationPositions.1 hpin
  obtain ⟨θ₁, θ₂, hh⟩ := hb.at hi
  rw [Nat.zero_add, pinned, if_pos rfl, holds_positive hpos] at hh
  obtain ⟨r, hr, -⟩ := hh
  rw [factReading_rows rfl] at hr
  obtain ⟨r', hr', -⟩ := hr
  have he : delta literal.relation = [] := by
    rw [deltaEmpty, List.all_eq_true] at h
    exact List.isEmpty_iff.1 (h _ hdelta)
  rw [he] at hr'
  cases hr'

/-- What the rules derive from the new rows and the database has not. -/
structure NextDelta (B : Background) (rules : List Rule) (db delta next : Db) : Prop where
  derived : facts next ⊆ deltaFacts B (positiveRelationNames rules) rules (deltaRelationNames rules) (facts db) (facts delta)
  heads : ∀ relation, relation ∉ ruleHeadRelations rules → next relation = []
  fresh : ∀ relation row, row ∈ next relation → rowHasNaN row = false → (relation, canonRow row) ∉ facts db

theorem facts_nil : facts (fun _ => []) = ∅ := by simp [facts]

theorem reads_indexed {rule : Rule} (hrule : rule ∈ rules) {literal : Literal} (hl : literal ∈ rule.body)
    (hpos : isPositive literal = true) : literal.relation ∈ positiveRelationNames rules :=
  mem_positiveRelationNames.2 ⟨rule, hrule, literal, hl, hpos, rfl⟩

/-- One derivation from a delta gives the facts that are new. -/
theorem runs_deriveDelta (hB : Registered Γ candidates B) (hok : StratumOk B rules)
    (ht : Tracks candidates (positiveRelationNames rules) db sources) :
    Runs contextOpen (deriveDelta Γ db sources delta rules (ruleHeadRelations rules) (deltaRelationNames rules))
      (NextDelta B rules db delta)
      (fun next => deltaFacts B (positiveRelationNames rules) rules (deltaRelationNames rules) (facts db) (facts delta) ⊆
        facts db ∪ facts next) := by
  have hd := tracks_build (fun _ => none) (deltaRelationNames rules) delta
  have heach := runs_deriveEach rules (fun rule hrule => lists_deriveRuleDelta hB ht hd (hok.ready rule hrule)
    fun literal hl => reads_indexed hrule hl) (fun _ => [])
  rw [facts_nil] at heach
  refine heach.bindWhenOpen (fun _ _ => ⟨by simp [facts_nil], fun _ _ => rfl, fun _ _ h => absurd h (by simp)⟩) fun candidate hp hq => ?_
  have hsub : facts candidate ⊆ deltaFacts B (positiveRelationNames rules) rules (deltaRelationNames rules) (facts db) (facts delta) :=
    hp.2.trans (Set.union_subset (Set.empty_subset _) Set.Subset.rfl)
  refine runs_pure ⟨facts_dbNewOnly_subset.trans hsub, fun relation hr => ?_, fun relation row hrow => not_mem_of_mem_dbNewOnly hrow⟩ ?_
  · rw [dbNewOnly, if_neg hr]
  · refine hq.trans (facts_subset_dbNewOnly fun f hf _ => ?_)
    obtain ⟨rule, hrule, pin, -, row, -, rfl⟩ := hsub hf
    exact mem_ruleHeadRelations.2 ⟨rule, hrule, rfl⟩

/-- What holds between two rounds. -/
structure Round (candidates : CandidateSources) (B : Background) (rules : List Rule) (base : Set Fact) (db : Db)
    (sources : CandidateSources) (delta : Db) : Prop where
  between : SemiNaive.Between (WithinHeads rules base) (consequences B (positiveRelationNames rules) rules) base (facts db) (facts delta)
  tracks : Tracks candidates (positiveRelationNames rules) db sources

theorem Registered.head_absent (hB : Registered Γ candidates B) (hok : StratumOk B rules) {relation : String}
    {value : CandidateSourceValue} (h : candidates relation = some value) : relation ∉ ruleHeadRelations rules := by
  intro hr
  obtain ⟨S, hS, -⟩ := hB.presents _ _ h
  rw [hok.heads _ hr] at hS
  cases hS

/-- A round that merges what was derived is a round again. -/
theorem Round.next (hB : Registered Γ candidates B) (hok : StratumOk B rules) (h : Round candidates B rules base db sources delta)
    {next : Db} (hnext : NextDelta B rules db delta next)
    (hall : deltaFacts B (positiveRelationNames rules) rules (deltaRelationNames rules) (facts db) (facts delta) ⊆
      facts db ∪ facts next) : facts (dbMergeDelta db next (ruleHeadRelations rules)) = facts db ∪ facts next ∧
      Round candidates B rules base (dbMergeDelta db next (ruleHeadRelations rules))
        (addDeltaSources sources next (positiveRelationNames rules)) next := by
  have hfacts : facts (dbMergeDelta db next (ruleHeadRelations rules)) = facts db ∪ facts next := facts_dbMergeDelta hnext.heads
  refine ⟨hfacts, ?_, h.tracks.extend hfacts fun relation value hc => hnext.heads relation (hB.head_absent hok hc)⟩
  rw [hfacts]
  exact (hok.laws hB.regular (positiveRelationNames rules) base).next (withinHeads_refl _ _) h.between hnext.derived hall

/-! ## The rounds -/

/-- What the rounds return: facts reached from the given ones, and something when there were rounds enough. -/
structure Reached (B : Background) (rules : List Rule) (base : Set Fact) (enough : Set Fact → Prop) (result : Option Db) : Prop where
  facts : ∀ db, result = some db → WithinHeads rules base (facts db) ∧ base ⊆ facts db ∧
    ∃ n, facts db ⊆ SemiNaive.naive (consequences B (positiveRelationNames rules) rules) base n
  returned : ∀ L ∈ StratumClosed B (positiveRelationNames rules) rules base, L.Finite → NoNaN rules L → enough L → result.isSome = true

theorem Round.reached (h : Round candidates B rules base db sources delta) (enough : Set Fact → Prop) :
    Reached B rules base enough (some db) where
  facts db' he := by
    cases he
    exact ⟨h.between.within, h.between.holds, h.between.reached⟩
  returned _ _ _ _ _ := rfl

/-- The rounds are enough for a set of facts when nothing is new, or there is one for each fact that is missing, and one more. -/
def EnoughRounds (rules : List Rule) (rounds : Nat) (db delta : Db) (L : Set Fact) : Prop :=
  deltaEmpty delta (deltaRelationNames rules) = true ∨ (L \ facts db).ncard < rounds

/-- A round that finds something new for the next one leaves fewer facts missing. -/
theorem missing_lt (hB : Registered Γ candidates B) (hok : StratumOk B rules) {next : Db}
    (h : Round candidates B rules base (dbMergeDelta db next (ruleHeadRelations rules)) sources next)
    (hfacts : facts (dbMergeDelta db next (ruleHeadRelations rules)) = facts db ∪ facts next)
    (hnext : NextDelta B rules db delta next) {L : Set Fact} (hL : L ∈ StratumClosed B (positiveRelationNames rules) rules base)
    (hbase : WithinHeads rules base base) (hfinite : L.Finite) (hnan : NoNaN rules L)
    (hne : deltaEmpty next (deltaRelationNames rules) = false) :
    (L \ facts (dbMergeDelta db next (ruleHeadRelations rules))).ncard < (L \ facts db).ncard := by
  obtain ⟨relation, hr, hrow⟩ : ∃ relation ∈ deltaRelationNames rules, next relation ≠ [] := by
    rw [deltaEmpty, List.all_eq_false] at hne
    obtain ⟨relation, hr, he⟩ := hne
    exact ⟨relation, hr, by simpa using he⟩
  obtain ⟨row, hrow⟩ := List.exists_mem_of_ne_nil _ hrow
  have hmem : (relation, canonRow row) ∈ facts next := ⟨row, hrow, rfl⟩
  have hnew : (relation, canonRow row) ∈ facts (dbMergeDelta db next (ruleHeadRelations rules)) := hfacts ▸ Or.inr hmem
  have hLmem : (relation, canonRow row) ∈ L := (hok.laws hB.regular (positiveRelationNames rules) base).below hbase h.between hL hnew
  have hold := hnext.fresh relation row hrow (by rw [← rowHasNaN_canonRow]; exact hnan _ hLmem hr)
  refine Set.ncard_lt_ncard ⟨fun f hf => ⟨hf.1, fun hm => hf.2 (hfacts ▸ Or.inl hm)⟩, fun hsub => ?_⟩ hfinite.sdiff
  exact (hsub ⟨hLmem, hold⟩).2 hnew

/-- The rounds come to the least model, or run out before it; the induction is on the rounds that are left. -/
theorem runs_fixpointRounds (hB : Registered Γ candidates B) (hok : StratumOk B rules) (rounds : Nat)
    (h : Round candidates B rules base db sources delta) : Runs contextOpen
      (fixpointRounds Γ rules (ruleHeadRelations rules) (positiveRelationNames rules) (deltaRelationNames rules) rounds db sources delta)
      (Reached B rules base (EnoughRounds rules rounds db delta))
      (fun result => ∀ db', result = some db' → IsLeast (StratumClosed B (positiveRelationNames rules) rules base) (facts db')) := by
  have hlaws := hok.laws hB.regular (positiveRelationNames rules) base
  have hdone : ∀ {db sources delta}, Round candidates B rules base db sources delta →
      deltaEmpty delta (deltaRelationNames rules) = true →
      IsLeast (StratumClosed B (positiveRelationNames rules) rules base) (facts db) := by
    intro db sources delta h he
    refine hlaws.isLeast (withinHeads_refl _ _) h.between ?_
    rw [deltaFacts_empty he]
    exact Set.empty_subset _
  induction rounds generalizing db sources delta with
  | zero =>
    refine Runs.whenOpen ?_ (h.reached _)
    cases he : deltaEmpty delta (deltaRelationNames rules) with
    | true =>
      rw [if_pos rfl]
      exact runs_pure (h.reached _) fun db' hd => by cases hd; exact hdone h he
    | false =>
      rw [if_neg (by simp)]
      refine runs_pure ⟨fun db' hd => absurd hd (by simp), fun L _ _ _ henough => ?_⟩ fun db' hd => absurd hd (by simp)
      rcases henough with henough | henough
      · rw [he] at henough
        cases henough
      · exact absurd henough (Nat.not_lt_zero _)
  | succ rounds ih =>
    refine Runs.whenOpen ?_ (h.reached _)
    cases he : deltaEmpty delta (deltaRelationNames rules) with
    | true =>
      rw [if_pos rfl]
      exact runs_pure (h.reached _) fun db' hd => by cases hd; exact hdone h he
    | false =>
      rw [if_neg (by simp)]
      refine (runs_deriveDelta hB hok h.tracks).bindWhenOpen (fun _ _ => h.reached _) fun next hnext hall => ?_
      obtain ⟨hfacts, hround⟩ := h.next hB hok hnext hall
      refine (ih hround).weaken (fun result hr => ⟨hr.facts, fun L hL hfinite hnan henough => ?_⟩) fun _ _ hq => hq
      refine hr.returned L hL hfinite hnan ?_
      cases he' : deltaEmpty next (deltaRelationNames rules) with
      | true => exact Or.inl he'
      | false =>
        have hlt := missing_lt hB hok hround hfacts hnext hL (withinHeads_refl _ _) hfinite hnan he'
        rcases henough with henough | henough
        · rw [he] at henough
          cases henough
        · exact Or.inr (by omega)

/-! ## A stratum -/

/-- A stratum over a database: it does not throw, and when the context stays open the database it returns has the least closed set of
facts. It returns one when the rounds are more than the facts of a closed set without NaN. -/
theorem runs_stratum (hB : Registered Γ candidates B) (hok : StratumOk B rules) (rounds : Nat) (db : Db) :
    Runs contextOpen (fixpointWithCandidatesContext Γ rounds db rules candidates)
      (Reached B rules (facts db) fun L => L.ncard < rounds)
      (fun result => ∀ db', result = some db' → IsLeast (StratumClosed B (positiveRelationNames rules) rules (facts db)) (facts db')) := by
  have hlaws := hok.laws hB.regular (positiveRelationNames rules) (facts db)
  have htracks := tracks_build candidates (positiveRelationNames rules) db
  have heach := runs_deriveEach rules (fun rule hrule => lists_deriveRuleIndexed hB htracks (hok.ready rule hrule)
    fun literal hl => reads_indexed hrule hl) db
  unfold fixpointWithCandidatesContext
  refine heach.bindWhenOpen (fun seeded hp => ?_) fun seeded hp hq => ?_
  · refine ⟨fun db' he => ?_, fun _ _ _ _ _ => rfl⟩
    cases he
    refine ⟨fun f hf => ⟨fun hm => (hp.2 hm).resolve_right fun hc => hf (fst_mem_heads hc), fun hm => hp.1 hm⟩, hp.1, 1, hp.2⟩
  · have hseeded : facts seeded = facts db ∪ facts (dbNewOnly seeded db (ruleHeadRelations rules)) := by
      refine (facts_subset_dbNewOnly fun f hf hne => ?_).antisymm (Set.union_subset hp.1 facts_dbNewOnly_subset)
      exact fst_mem_heads ((hp.2 hf).resolve_left hne)
    have hbetween := hlaws.start (withinHeads_refl _ _) (facts_dbNewOnly_subset.trans hp.2) (hq.trans hseeded.subset)
    have hround : Round candidates B rules (facts db) seeded
        (addDeltaSources (buildCandidateSources db (positiveRelationNames rules) candidates)
          (dbNewOnly seeded db (ruleHeadRelations rules)) (positiveRelationNames rules))
        (dbNewOnly seeded db (ruleHeadRelations rules)) := by
      refine ⟨hseeded ▸ hbetween, htracks.extend hseeded fun relation value hc => ?_⟩
      rw [dbNewOnly, if_neg (hB.head_absent hok hc)]
    refine (runs_fixpointRounds hB hok rounds hround).weaken (fun result hr => ⟨hr.facts, fun L hL hfinite hnan henough => ?_⟩)
      fun _ _ hq => hq
    exact hr.returned L hL hfinite hnan (Or.inr ((Set.ncard_le_ncard Set.sdiff_subset hfinite).trans_lt henough))

end Stratum

/-! ## Strata -/

/-- The set of facts that the strata come to from the given facts, each the least closed set over what the strata before it came to. -/
inductive StrataLeast (B : Background) (indexed : List Rule → List String) : List (List Rule) → Set Fact → Set Fact → Prop
  | nil (base : Set Fact) : StrataLeast B indexed [] base base
  | cons {stratum : List Rule} {rest : List (List Rule)} {base middle result : Set Fact}
      (h : IsLeast (StratumClosed B (indexed stratum) stratum base) middle) (h' : StrataLeast B indexed rest middle result) :
      StrataLeast B indexed (stratum :: rest) base result

/-- Every stratum comes to a finite set of facts, fewer than the rounds, and without a NaN in a relation that it both derives and
reads. -/
inductive Settles (B : Background) (rounds : Nat) : List (List Rule) → Set Fact → Prop
  | nil (base : Set Fact) : Settles B rounds [] base
  | cons {stratum : List Rule} {rest : List (List Rule)} {base middle : Set Fact}
      (h : IsLeast (StratumClosed B (positiveRelationNames stratum) stratum base) middle) (hfinite : middle.Finite)
      (hcount : middle.ncard < rounds) (hnan : NoNaN stratum middle) (h' : Settles B rounds rest middle) :
      Settles B rounds (stratum :: rest) base

/-- A fact that rules derive has the arity of the head that it comes from. -/
theorem exists_rule_of_reached {B : Background} {rules : List Rule} {base : Set Fact} {f : Fact} {n : Nat}
    (h : f ∈ SemiNaive.naive (consequences B (positiveRelationNames rules) rules) base n) :
    f ∈ base ∨ ∃ rule ∈ rules, f.1 = rule.headRelation ∧ f.2.length = rule.headArguments.length := by
  induction n with
  | zero => exact Or.inl h
  | succ n ih =>
    rcases h with h | h
    · exact ih h
    · obtain ⟨rule, hrule, row, ⟨θ, -, hg⟩, rfl⟩ := h
      refine Or.inr ⟨rule, hrule, rfl, ?_⟩
      rw [canonRow, List.length_map, (ground_eq_ok_iff.1 hg).length_eq]

/-- What the strata return, whether or not the evaluation was stopped: the given facts, and facts of the arity of a rule's head; and a
database when every stratum settles in the rounds. -/
structure StrataReached (B : Background) (strata : List (List Rule)) (rounds : Nat) (base : Set Fact) (result : Option Db) : Prop where
  facts : ∀ db, result = some db → base ⊆ facts db ∧
    ∀ f ∈ facts db, f ∈ base ∨ ∃ rule ∈ strata.flatten, f.1 = rule.headRelation ∧ f.2.length = rule.headArguments.length
  returned : Settles B rounds strata base → result.isSome = true

/-- Under a closed context no stratum runs. -/
theorem runStrataRounds_closed (Γ : Host) (rounds : Nat) (candidates : CandidateSources) (strata : List (List Rule)) (db : Db)
    {context : QueryEvaluationContext} (h : contextOpen context = false) :
    runStrataRounds Γ rounds candidates strata db context = .ok (some db, context) := by
  cases strata with
  | nil => rfl
  | cons => exact whenOpen_closed h

/-- The strata one after the other. -/
theorem runs_strata {Γ : Host} {candidates : CandidateSources} {B : Background} (hB : Registered Γ candidates B) (rounds : Nat)
    {strata : List (List Rule)} (hok : ∀ stratum ∈ strata, StratumOk B stratum) (db : Db) :
    Runs contextOpen (runStrataRounds Γ rounds candidates strata db)
      (StrataReached B strata rounds (facts db))
      (fun result => ∀ db', result = some db' → StrataLeast B positiveRelationNames strata (facts db) (facts db')) := by
  induction strata generalizing db with
  | nil =>
    refine runs_pure ⟨fun db' he => ?_, fun _ => rfl⟩ fun db' he => ?_
    · cases he
      exact ⟨Set.Subset.rfl, fun f hf => Or.inl hf⟩
    · cases he
      exact .nil _
  | cons stratum rest ih =>
    rw [List.forall_mem_cons] at hok
    have hself : ∀ {db' : Db}, facts db ⊆ facts db' →
        (∀ f ∈ facts db', f ∈ facts db ∨ ∃ rule ∈ stratum, f.1 = rule.headRelation ∧ f.2.length = rule.headArguments.length) →
        StrataReached B (stratum :: rest) rounds (facts db) (some db') := by
      intro db' hsub hfacts
      refine ⟨fun db'' he => ?_, fun _ => rfl⟩
      cases he
      refine ⟨hsub, fun f hf => (hfacts f hf).imp_right fun h => ?_⟩
      obtain ⟨rule, hrule, h⟩ := h
      exact ⟨rule, by simp [hrule], h⟩
    have hreached : ∀ {enough : Set Fact → Prop} {result : Option Db}, Reached B stratum (facts db) enough result →
        ∀ db', result = some db' → facts db ⊆ facts db' ∧
          ∀ f ∈ facts db', f ∈ facts db ∨ ∃ rule ∈ stratum, f.1 = rule.headRelation ∧ f.2.length = rule.headArguments.length := by
      intro enough result h db' he
      obtain ⟨-, hsub, n, hn⟩ := h.facts db' he
      exact ⟨hsub, fun f hf => exists_rule_of_reached (hn hf)⟩
    refine Runs.whenOpen ?_ (hself Set.Subset.rfl fun f hf => Or.inl hf)
    have hnone : Reached B stratum (facts db) (fun L => L.ncard < rounds) none → StrataReached B (stratum :: rest) rounds (facts db) none := by
      refine fun h => ⟨fun db' he => absurd he (by simp), fun hs => ?_⟩
      cases hs with
      | cons hleast hfinite hcount hnan _ => exact absurd (h.returned _ hleast.1 hfinite hnan hcount) (by simp)
    refine (runs_stratum hB hok.1 rounds db).bindOpen id (fun result h => ?_) (fun result context hc => ?_) fun result h hleast => ?_
    · cases result with
      | none => exact hnone h
      | some db' => exact hself (hreached h db' rfl).1 (hreached h db' rfl).2
    · cases result with
      | none => rfl
      | some db' => exact runStrataRounds_closed Γ rounds candidates rest db' hc
    · cases result with
      | none => exact runs_pure (hnone h) fun db' he => absurd he (by simp)
      | some db' =>
        have hmiddle := hleast db' rfl
        obtain ⟨hsub, hrules⟩ := hreached h db' rfl
        refine (ih hok.2 db').weaken (fun result hr => ⟨fun db'' he => ?_, fun hs => ?_⟩) fun result _ hq db'' he => ?_
        · obtain ⟨hsub', hfacts'⟩ := hr.facts db'' he
          refine ⟨hsub.trans hsub', fun f hf => ?_⟩
          rcases hfacts' f hf with hf | ⟨rule, hrule, hf⟩
          · exact (hrules f hf).imp_right fun ⟨rule, hrule, hf⟩ => ⟨rule, by simp [hrule], hf⟩
          · exact Or.inr ⟨rule, by simp only [List.flatten_cons, List.mem_append]; exact Or.inr hrule, hf⟩
        · cases hs with
          | cons hleast' _ _ _ hrest =>
            rw [hleast'.unique hmiddle] at hrest
            exact hr.returned hrest
        · exact .cons hmiddle (hq db'' he)

end Datalog

end Fram
