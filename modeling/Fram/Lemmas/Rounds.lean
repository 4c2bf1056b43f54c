import Fram.Lemmas.Tracks

/-!
# Rounds of a stratum

Each step of a round by the facts that it lists: a rule derives its consequences, a pinned pass those of the newest facts, and what is
new is added. `Round` is what holds between two rounds, and it is an instance of semi-naive iteration; so when the rounds end with the
context open, the database has the least set of facts that holds the given ones and that the rules do not leave (`runs_stratum`).
-/

namespace Fram

namespace Datalog

open Closing Query

variable {relation : String} {row : Tuple}

/-! ## Rules -/

/-- The computation lists rows of a relation that are a set of facts. -/
def ListsFacts (m : Eval (List Tuple)) (relation : String) (S : Set Fact) : Prop :=
  Runs contextOpen m (fun rows => factsOf relation rows ⊆ S) (fun rows => S ⊆ factsOf relation rows)

theorem Lists.facts {m : Eval (List Tuple)} {rows : Set Tuple} {S : Set Fact}
    (h : Lists contextOpen rowSame m rows) (hS : S = {f | ∃ row ∈ rows, f = (relation, canonRow row)}) : ListsFacts m relation S := by
  subst hS
  refine Runs.weaken h (fun found hf f hm => ?_) fun found _ hf f hm => ?_
  · obtain ⟨hrel, row, hrow, he⟩ := hm
    exact ⟨row, hf row hrow, Prod.ext hrel he⟩
  · obtain ⟨row, hrow, rfl⟩ := hm
    obtain ⟨row', hrow', hs⟩ := hf row hrow
    exact ⟨rfl, row', hrow', canonRow_eq_iff.2 hs⟩

section Rules

variable {Γ : Host} {candidates sources deltaSources : CandidateSources} {B : Background} {indexed : List String} {db delta : Db}
  {rule : Rule}

/-- A rule read through the sources of a stratum derives what it derives from the facts of the database. -/
theorem lists_deriveRuleIndexed (hB : Registered Γ candidates B) (ht : Tracks candidates indexed db sources) (hready : ReadyRule rule)
    (hreads : ∀ literal ∈ rule.body, isPositive literal = true → literal.relation ∈ indexed) :
    ListsFacts (deriveRuleIndexed Γ db sources rule) rule.headRelation
      (derivedFacts (fun _ => factReading B indexed (facts db)) rule) := by
  refine Lists.facts (lists_deriveRule (sourceReading_regular hB.regular) hready fun literal hl =>
    ht.answers hB (hreads literal hl)) ?_
  rw [← derivedFacts_congr fun _ => ht.agrees hB]
  rfl

/-- The passes over a rule's body, each pinned to a literal that reads the newest rows, derive what the newest facts add. -/
theorem lists_deriveRuleDelta (hB : Registered Γ candidates B) (ht : Tracks candidates indexed db sources)
    {deltaRelations : List String} (hd : Tracks (fun _ => none) deltaRelations delta deltaSources) (hready : ReadyRule rule)
    (hreads : ∀ literal ∈ rule.body, isPositive literal = true → literal.relation ∈ indexed) :
    ListsFacts (deriveRuleDelta Γ db sources delta deltaSources deltaRelations rule) rule.headRelation
      {f | ∃ pin ∈ deltaRelationPositions rule.body deltaRelations,
        f ∈ derivedFacts (pinned (factReading B indexed (facts db)) (factReading Background.none deltaRelations (facts delta)) pin)
          rule} := by
  have hnone := registered_none Γ
  have hpass : ∀ pin ∈ deltaRelationPositions rule.body deltaRelations,
      Lists contextOpen rowSame (pinnedRows Γ db sources delta deltaSources rule pin)
        {row | Derives (pinned (sourceReading B db sources) (sourceReading Background.none delta deltaSources) pin) rule row} := by
    intro pin hpin
    obtain ⟨literal, hi, hpos, hdelta⟩ := mem_deltaRelationPositions.1 hpin
    refine lists_heads hready (lists_bodyResultsPinned (sourceReading_regular hB.regular) (sourceReading_regular hnone.regular)
      hready.body (fun literal hl => ht.answers hB (hreads literal hl)) (fun i other ho he => ?_) fun θ hθ => ?_)
      fun substitutions rows hrows => ⟨rows, hrows, fun row h => h, fun row h => ⟨row, h, rowSame.refl _⟩⟩
    · rw [Nat.zero_add] at he
      subst he
      rw [hi] at ho
      cases ho
      exact ⟨hpos, hd.answers hnone fun _ => hdelta⟩
    · rw [List.mem_singleton.1 hθ]
      exact binds_empty
  refine Lists.facts (lists_collect (v := id) hpass (fun _ _ h => absurd h (by simp)) (fun r d y hy => mem_intoRows hy)
    (fun r d y hy => subset_intoRows hy) (fun r d y hy => exists_mem_intoRows r hy) fun _ _ _ => rowSame.trans) ?_
  have hagrees : ∀ pin i, (pinned (sourceReading B db sources) (sourceReading Background.none delta deltaSources) pin i).agrees
      (pinned (factReading B indexed (facts db)) (factReading Background.none deltaRelations (facts delta)) pin i) := by
    intro pin i
    unfold pinned
    split
    · exact hd.agrees hnone
    · exact ht.agrees hB
  ext f
  constructor
  · intro hf
    obtain ⟨pin, hpin, hf⟩ := hf
    rw [← derivedFacts_congr (hagrees pin)] at hf
    obtain ⟨row, hrow, he⟩ := hf
    exact ⟨row, ⟨pin, hpin, hrow⟩, he⟩
  · intro hf
    obtain ⟨row, ⟨pin, hpin, hrow⟩, he⟩ := hf
    refine ⟨pin, hpin, ?_⟩
    rw [← derivedFacts_congr (hagrees pin)]
    exact ⟨row, hrow, he⟩

end Rules

/-! ## All rules of a stratum -/

/-- The database with the rows of each rule added has the facts of the rules added. -/
theorem runs_deriveEach {derive : Rule → Eval (List Tuple)} {S : Rule → Set Fact} (rules : List Rule)
    (h : ∀ rule ∈ rules, ListsFacts (derive rule) rule.headRelation (S rule)) (db : Db) : Runs contextOpen (deriveEach derive rules db)
      (fun db' => facts db ⊆ facts db' ∧ facts db' ⊆ facts db ∪ {f | ∃ rule ∈ rules, f ∈ S rule})
      (fun db' => {f | ∃ rule ∈ rules, f ∈ S rule} ⊆ facts db') := by
  induction rules generalizing db with
  | nil => exact runs_pure ⟨Set.Subset.rfl, Set.subset_union_left⟩ (by simp)
  | cons rule rules ih =>
    rw [List.forall_mem_cons] at h
    have hclosed : facts db ⊆ facts db ∧ facts db ⊆ facts db ∪ {f | ∃ r ∈ rule :: rules, f ∈ S r} :=
      ⟨Set.Subset.rfl, Set.subset_union_left⟩
    refine Runs.whenOpen (Runs.bindWhenOpen h.1 (fun _ _ => hclosed) fun rows hsub hsup => ?_) hclosed
    refine (ih h.2 (db.add rule.headRelation rows)).weaken (fun db' hp => ?_) fun db' hp hq => ?_
    · rw [facts_add] at hp
      refine ⟨Set.subset_union_left.trans hp.1, fun f hf => ?_⟩
      rcases hp.2 hf with (hf | hf) | ⟨other, ho, hf⟩
      · exact Or.inl hf
      · exact Or.inr ⟨rule, List.mem_cons_self, hsub hf⟩
      · exact Or.inr ⟨other, List.mem_cons_of_mem _ ho, hf⟩
    · rw [facts_add] at hp
      intro f hf
      obtain ⟨other, ho, hf⟩ := hf
      rcases List.mem_cons.1 ho with rfl | ho
      · exact hp.1 (Or.inr (hsup hf))
      · exact hq ⟨other, ho, hf⟩

/-! ## What is new -/

section New

variable {candidate db delta : Db} {relations : List String}

theorem mem_dbNewOnly (h : row ∈ dbNewOnly candidate db relations relation) :
    relation ∈ relations ∧ row ∈ candidate relation ∧ containsRow (db relation) row = false := by
  unfold dbNewOnly at h
  split at h
  · rename_i hr
    refine ⟨hr, ?_⟩
    have hgen : ∀ (all acc : List Tuple), row ∈ all.foldl
        (fun rows row => if containsRow (db relation) row then rows else conjRow rows row) acc →
        row ∈ acc ∨ (row ∈ all ∧ containsRow (db relation) row = false) := by
      intro all
      induction all with
      | nil => exact fun acc h => Or.inl h
      | cons first all ih =>
        intro acc h
        rw [List.foldl_cons] at h
        rcases ih _ h with h | ⟨h, hc⟩
        · split at h
          · exact Or.inl h
          · rename_i hc
            rcases mem_conjRow h with h | rfl
            · exact Or.inl h
            · exact Or.inr ⟨List.mem_cons_self, by simpa using hc⟩
        · exact Or.inr ⟨List.mem_cons_of_mem _ h, hc⟩
    exact (hgen _ _ h).resolve_left (by simp)
  · cases h

/-- A row of the candidate that the database has not is new. -/
theorem exists_mem_dbNewOnly (hr : relation ∈ relations) (hrow : row ∈ candidate relation)
    (hc : containsRow (db relation) row = false) : ∃ r ∈ dbNewOnly candidate db relations relation, rowSame row r := by
  unfold dbNewOnly
  rw [if_pos hr]
  have hgen : ∀ (all acc : List Tuple), (∃ r ∈ acc, rowSame row r) ∨ row ∈ all → ∃ r ∈ all.foldl
      (fun rows row => if containsRow (db relation) row then rows else conjRow rows row) acc, rowSame row r := by
    intro all
    induction all with
    | nil => exact fun acc h => h.resolve_right (by simp)
    | cons first all ih =>
      intro acc h
      rw [List.foldl_cons]
      refine ih _ ?_
      rcases h with ⟨r, hr, hs⟩ | h
      · refine Or.inl ⟨r, ?_, hs⟩
        split
        · exact hr
        · exact subset_conjRow hr
      · rcases List.mem_cons.1 h with rfl | h
        · rw [if_neg (by simp [hc])]
          exact Or.inl (exists_mem_conjRow acc row)
        · exact Or.inr h
  exact hgen _ _ (Or.inr hrow)

theorem facts_dbNewOnly_subset : facts (dbNewOnly candidate db relations) ⊆ facts candidate := by
  intro f hf
  obtain ⟨row, hrow, he⟩ := hf
  exact ⟨row, (mem_dbNewOnly hrow).2.1, he⟩

theorem facts_subset_dbNewOnly (h : ∀ f ∈ facts candidate, f ∉ facts db → f.1 ∈ relations) :
    facts candidate ⊆ facts db ∪ facts (dbNewOnly candidate db relations) := by
  intro f hf
  by_cases hdb : f ∈ facts db
  · exact Or.inl hdb
  · have hr := h f hf hdb
    obtain ⟨row, hrow, he⟩ := hf
    have hc : containsRow (db f.1) row = false := by
      rw [Bool.eq_false_iff]
      intro hc
      obtain ⟨r, hr', heqv⟩ := containsRow_iff.1 hc
      exact hdb ⟨r, hr', he.trans (canonRow_eq_iff.2 ((rowEqv_iff _ _).1 heqv).2.symm)⟩
    obtain ⟨r, hr', hs⟩ := exists_mem_dbNewOnly hr hrow hc
    exact Or.inr ⟨r, hr', he.trans (canonRow_eq_iff.2 hs)⟩

/-- A new fact without a NaN is not one of the database. -/
theorem not_mem_of_mem_dbNewOnly (h : row ∈ dbNewOnly candidate db relations relation)
    (hnan : rowHasNaN row = false) : (relation, canonRow row) ∉ facts db := by
  intro hm
  obtain ⟨r, hr, he⟩ := hm
  have hs : rowSame row r := canonRow_eq_iff.1 he
  have hc : containsRow (db relation) row = true :=
    containsRow_iff.2 ⟨r, hr, (rowEqv_iff _ _).2 ⟨by rw [← hs.hasNaN, hnan], hs.symm⟩⟩
  rw [(mem_dbNewOnly h).2.2] at hc
  cases hc

/-- The rows of a relation as facts of the database. -/
theorem factsOf_eq (db : Db) (relation : String) : factsOf relation (db relation) = {f | f.1 = relation ∧ f ∈ facts db} := by
  ext f
  constructor
  · intro h
    obtain ⟨rfl, row, hrow, he⟩ := h
    exact ⟨rfl, row, hrow, he⟩
  · intro h
    obtain ⟨rfl, row, hrow, he⟩ := h
    exact ⟨rfl, row, hrow, he⟩

theorem facts_dbMergeDelta (h : ∀ relation, relation ∉ relations → delta relation = []) :
    facts (dbMergeDelta db delta relations) = facts db ∪ facts delta := by
  have hgen : facts (dbMergeDelta db delta relations) = facts db ∪ {f | f.1 ∈ relations ∧ f ∈ facts delta} := by
    unfold dbMergeDelta
    clear h
    induction relations generalizing db with
    | nil => simp
    | cons first relations ih =>
      rw [List.foldl_cons, ih]
      have hfirst : facts (if (delta first).isEmpty then db else db.add first (delta first)) =
          facts db ∪ {f | f.1 = first ∧ f ∈ facts delta} := by
        split
        · rename_i he
          rw [List.isEmpty_iff] at he
          refine (Set.union_eq_self_of_subset_right fun f hf => ?_).symm
          obtain ⟨rfl, row, hrow, -⟩ := hf
          rw [he] at hrow
          cases hrow
        · rw [facts_add, factsOf_eq]
      rw [hfirst, Set.union_assoc]
      congr 1
      ext f
      simp only [Set.mem_union, Set.mem_ofPred_eq, List.mem_cons]
      tauto
  rw [hgen]
  congr 1
  ext f
  refine ⟨fun hf => hf.2, fun hf => ⟨?_, hf⟩⟩
  by_contra hr
  obtain ⟨row, hrow, -⟩ := hf
  rw [h _ hr] at hrow
  cases hrow

/-- Sources with the new rows added follow the database with the new facts. -/
theorem Tracks.extend {candidates sources : CandidateSources} {indexed : List String} {db' : Db}
    (h : Tracks candidates indexed db sources) (hfacts : facts db' = facts db ∪ facts delta)
    (hempty : ∀ relation value, candidates relation = some value → delta relation = []) :
    Tracks candidates indexed db' (addDeltaSources sources delta indexed) where
  registered relation value hc := (addDeltaSources_same (Or.inr (hempty relation value hc)) sources).trans (h.registered _ _ hc)
  built relation hi hc := by
    obtain ⟨source, hsource, hindexed, hrows⟩ := h.built relation hi hc
    obtain ⟨source', hsource', hindexed', hrows'⟩ := addDeltaSources_indexed delta hi hsource hindexed
    refine ⟨source', hsource', hindexed', ?_⟩
    have hunion : factsOf relation source'.rows = factsOf relation source.rows ∪ factsOf relation (delta relation) := by
      ext f
      simp only [factsOf, hrows', Set.mem_union, Set.mem_ofPred_eq, or_and_right, exists_or, ← and_or_left]
    rw [hunion, hrows, factsOf_eq, factsOf_eq, factsOf_eq, hfacts]
    ext f
    simp only [Set.mem_union, Set.mem_ofPred_eq, and_or_left]
  others relation hi := (addDeltaSources_same (Or.inl hi) sources).trans (h.others _ hi)

end New

end Datalog

end Fram
