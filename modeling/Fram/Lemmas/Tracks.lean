import Fram.Lemmas.Facts
import Fram.Lemmas.Sources

/-!
# Sources that follow a database

The sources that an evaluation keeps are the registered ones and, for every other relation that the stratum reads, the rows of the
database (`Tracks`). Building them from the database and adding to them what a round adds to it keeps this, so what is read through
them is what a reading of the database's facts has.
-/

namespace Fram

namespace Datalog

open Closing Query

/-- What a registered source presents of its relation: whatever else is there, literals over the relation read these rows. -/
def Presents (Γ : Host) (relation : String) (value : CandidateSourceValue) (S : Option Term → Set Tuple) : Prop :=
  ∀ db sources R literal, sources relation = some value → literal.relation = relation → (∀ n, R.rows relation n = S n) →
    R.negated relation = S none → Answers (relationResultsIndexed Γ db sources) R literal

/-- The registered candidates and the background that they are. -/
structure Registered (Γ : Host) (candidates : CandidateSources) (B : Background) : Prop where
  regular : B.Regular
  presents : ∀ relation value, candidates relation = some value → ∃ S, B relation = some S ∧ Presents Γ relation value S
  absent : ∀ relation, candidates relation = none → B relation = none

/-- Nothing registered is no background. -/
theorem registered_none (Γ : Host) : Registered Γ (fun _ => none) Background.none where
  regular relation S h := by cases h
  presents relation value h := by cases h
  absent relation _ := rfl

/-- The sources are the registered ones, and for the other relations of a list indexes of the rows of a database. -/
structure Tracks (candidates : CandidateSources) (indexed : List String) (db : Db) (sources : CandidateSources) : Prop where
  registered : ∀ relation value, candidates relation = some value → sources relation = some value
  built : ∀ relation ∈ indexed, candidates relation = none →
    ∃ source, sources relation = some (.candidates source) ∧ Indexed relation source ∧
      factsOf relation source.rows = factsOf relation (db relation)
  others : ∀ relation, relation ∉ indexed → sources relation = candidates relation

/-- The reading of a database through sources. -/
def sourceReading (B : Background) (db : Db) (sources : CandidateSources) : Reading where
  rows relation n :=
    match B relation, sources relation with
    | some S, _ => S n
    | none, some (.candidates source) => {row | row ∈ source.rows}
    | none, _ => {row | row ∈ db relation}
  negated relation :=
    match B relation, sources relation with
    | some S, _ => S none
    | none, some (.candidates source) => {row | row ∈ source.rows ∧ row ≠ []}
    | none, _ => {row | row ∈ db relation}

section Tracks

variable {Γ : Host} {candidates sources : CandidateSources} {B : Background} {indexed : List String} {db : Db}

/-- Literals read through sources what the reading has, as long as what they read is indexed. -/
theorem Tracks.answers (h : Tracks candidates indexed db sources) (hB : Registered Γ candidates B) {literal : Literal}
    (hpos : isPositive literal = true → literal.relation ∈ indexed) :
    Answers (relationResultsIndexed Γ db sources) (sourceReading B db sources) literal := by
  cases hc : candidates literal.relation with
  | some value =>
    obtain ⟨S, hS, hpresents⟩ := hB.presents _ _ hc
    refine hpresents db sources _ literal (h.registered _ _ hc) rfl (fun n => ?_) ?_
    · simp [sourceReading, hS]
    · simp [sourceReading, hS]
  | none =>
    have hnone := hB.absent _ hc
    by_cases hi : literal.relation ∈ indexed
    · obtain ⟨source, hsource, hindexed, -⟩ := h.built _ hi hc
      refine answers_indexed hsource hindexed (fun n => ?_) fun row _ => ?_
      · simp [sourceReading, hnone, hsource]
      · simp [sourceReading, hnone, hsource]
    · have hsource : sources literal.relation = none := (h.others _ hi).trans hc
      intro bound θ hkind hready hb
      have hneg : literal.negated = true := by
        rw [← Bool.not_eq_false]
        exact fun hn => hi (hpos (by simp [isPositive, hkind, hn]))
      exact answers_absent hsource hneg (by simp [sourceReading, hnone, hsource]) bound θ hkind hready hb

/-- The reading through sources is the reading of the database's facts. -/
theorem Tracks.agrees (h : Tracks candidates indexed db sources) (hB : Registered Γ candidates B) :
    (sourceReading B db sources).agrees (factReading B indexed (facts db)) := by
  intro relation
  have hfacts : ∀ row, (relation, row) ∈ facts db ↔ ∃ r ∈ db relation, row = canonRow r := fun row => Iff.rfl
  cases hb : B relation with
  | some S =>
    have hregular := hB.regular relation S hb
    simp only [Reading.le, Reading.leNegated, sourceReading, factReading, hb]
    exact ⟨⟨hregular, hregular⟩, fun row hrow => ⟨row, hrow, rowSame.refl _⟩, fun row hrow => ⟨row, hrow, rowSame.refl _⟩⟩
  | none =>
    have hc : candidates relation = none := by
      cases hc : candidates relation with
      | none => rfl
      | some value =>
        obtain ⟨S, hS, -⟩ := hB.presents _ _ hc
        rw [hb] at hS
        cases hS
    simp only [Reading.le, Reading.leNegated, factReading_rows hb, factReading_negated hb, Set.mem_ofPred_eq, hfacts]
    by_cases hi : relation ∈ indexed
    · obtain ⟨source, hsource, -, hrows⟩ := h.built _ hi hc
      have hto : ∀ row ∈ source.rows, ∃ r ∈ db relation, rowSame row r := by
        intro row hrow
        have hmem : (relation, canonRow row) ∈ factsOf relation source.rows := ⟨rfl, row, hrow, rfl⟩
        rw [hrows] at hmem
        obtain ⟨-, r, hr, he⟩ := hmem
        exact ⟨r, hr, canonRow_eq_iff.1 he⟩
      have hfrom : ∀ r ∈ db relation, ∃ row ∈ source.rows, rowSame (canonRow r) row := by
        intro r hr
        have hmem : (relation, canonRow r) ∈ factsOf relation (db relation) := ⟨rfl, r, hr, rfl⟩
        rw [← hrows] at hmem
        obtain ⟨-, row, hrow, he⟩ := hmem
        exact ⟨row, hrow, (rowSame_canonRow r).symm.trans (canonRow_eq_iff.1 he)⟩
      simp only [sourceReading, hb, hsource, Set.mem_ofPred_eq]
      have hnil : ∀ {row row' : Tuple}, rowSame row row' → row ≠ [] → row' ≠ [] := by
        intro row row' hs hne
        rintro rfl
        cases hs
        exact hne rfl
      refine ⟨⟨fun _ _ _ row hrow => ?_, fun _ _ _ row hrow => ?_⟩, fun row hrow => ?_, fun row hrow => ?_⟩
      · obtain ⟨r, hr, hs⟩ := hto row hrow
        exact ⟨canonRow r, ⟨r, hr, rfl⟩, hs.trans (rowSame_canonRow r)⟩
      · obtain ⟨r, hr, rfl⟩ := hrow
        exact hfrom r hr
      · obtain ⟨r, hr, hs⟩ := hto row hrow.1
        have hs' := hs.trans (rowSame_canonRow r)
        exact ⟨canonRow r, ⟨⟨r, hr, rfl⟩, fun _ => hnil hs' hrow.2⟩, hs'⟩
      · obtain ⟨⟨r, hr, rfl⟩, hne⟩ := hrow
        obtain ⟨row, hrow, hs⟩ := hfrom r hr
        exact ⟨row, ⟨hrow, hnil hs (hne hi)⟩, hs⟩
    · have hsource : sources relation = none := (h.others _ hi).trans hc
      simp only [sourceReading, hb, hsource, Set.mem_ofPred_eq]
      refine ⟨⟨fun _ _ _ row hrow => ⟨canonRow row, ⟨row, hrow, rfl⟩, rowSame_canonRow row⟩, fun _ _ _ row hrow => ?_⟩,
        fun row hrow => ⟨canonRow row, ⟨⟨row, hrow, rfl⟩, fun hr => absurd hr hi⟩, rowSame_canonRow row⟩, fun row hrow => ?_⟩
      · obtain ⟨r, hr, rfl⟩ := hrow
        exact ⟨r, hr, (rowSame_canonRow r).symm⟩
      · obtain ⟨⟨r, hr, rfl⟩, -⟩ := hrow
        exact ⟨r, hr, (rowSame_canonRow r).symm⟩

theorem sourceReading_regular (hB : B.Regular) : (sourceReading B db sources).Regular := by
  intro relation n n' hn row hrow
  cases hb : B relation with
  | some S =>
    simp only [sourceReading, hb] at hrow ⊢
    exact hB relation S hb n n' hn row hrow
  | none =>
    have hsame : (sourceReading B db sources).rows relation n = (sourceReading B db sources).rows relation n' := by
      cases hs : sources relation with
      | none => simp only [sourceReading, hb, hs]
      | some value => cases value <;> simp only [sourceReading, hb, hs]
    exact ⟨row, hsame ▸ hrow, rowSame.refl _⟩

/-! ## Building sources and adding to them -/

/-- The source of a relation after building: the one given, or an index of the database's rows. -/
theorem buildCandidateSources_apply (db : Db) (relations : List String) (seed : CandidateSources) (relation : String) :
    buildCandidateSources db relations seed relation =
      if (seed relation).isSome ∨ relation ∉ relations then seed relation
      else some (.candidates (candidateSourceAddRows relation emptyCandidateSource (orderedRows (db relation)))) := by
  unfold buildCandidateSources
  induction relations generalizing seed with
  | nil => simp
  | cons first relations ih =>
    rw [List.foldl_cons, ih]
    by_cases hfirst : (seed first).isSome = true
    · rw [if_pos hfirst]
      by_cases hr : relation = first
      · subst hr
        simp [hfirst]
      · simp [hr]
    · rw [if_neg hfirst]
      by_cases hr : relation = first
      · subst hr
        simp [hfirst]
      · simp [hr]

theorem factsOf_congr {relation : String} {rows rows' : List Tuple} (h : ∀ row, row ∈ rows ↔ row ∈ rows') :
    factsOf relation rows = factsOf relation rows' := by
  ext f
  simp [factsOf, h]

/-- The sources built from a database follow it. -/
theorem tracks_build (candidates : CandidateSources) (indexed : List String) (db : Db) :
    Tracks candidates indexed db (buildCandidateSources db indexed candidates) where
  registered relation value h := by rw [buildCandidateSources_apply, if_pos (by simp [h]), h]
  built relation hi hc := by
    refine ⟨_, by rw [buildCandidateSources_apply, if_neg (by simp [hc, hi])], (indexed_empty relation).addRows _, ?_⟩
    rw [rows_candidateSourceAddRows]
    exact factsOf_congr fun row => by simp [emptyCandidateSource, orderedRows, mem_orderRowVector]
  others relation hi := by rw [buildCandidateSources_apply, if_pos (Or.inr hi)]

theorem addDeltaSources_cons (sources : CandidateSources) (delta : Db) (first : String) (relations : List String) :
    addDeltaSources sources delta (first :: relations) =
      addDeltaSources (if (delta first).isEmpty then sources
        else Function.update sources first
          (some (.candidates (candidateSourceAddRows first (sourceToExtend (sources first)) (orderedRows (delta first))))))
        delta relations := rfl

/-- A relation without new rows keeps its source. -/
theorem addDeltaSources_same {delta : Db} {relations : List String} {relation : String}
    (h : relation ∉ relations ∨ delta relation = []) (sources : CandidateSources) :
    addDeltaSources sources delta relations relation = sources relation := by
  induction relations generalizing sources with
  | nil => rfl
  | cons first relations ih =>
    rw [addDeltaSources_cons, ih (h.imp_left fun h => fun hm => h (List.mem_cons_of_mem _ hm))]
    by_cases hr : relation = first
    · subst hr
      rcases h with h | h
      · exact absurd List.mem_cons_self h
      · rw [if_pos (by simp [h])]
    · split
      · rfl
      · rw [Function.update_of_ne hr]

/-- The source of a relation with its new rows added. -/
theorem addDeltaSources_indexed (delta : Db) {relations : List String} {relation : String} (hr : relation ∈ relations)
    {sources : CandidateSources} {source : CandidateSource} (hsource : sources relation = some (.candidates source))
    (hindexed : Indexed relation source) :
    ∃ source', addDeltaSources sources delta relations relation = some (.candidates source') ∧ Indexed relation source' ∧
      ∀ row, row ∈ source'.rows ↔ row ∈ source.rows ∨ row ∈ delta relation := by
  induction relations generalizing sources source with
  | nil => cases hr
  | cons first relations ih =>
    have hstep : ∃ source₁, (if (delta first).isEmpty then sources
        else Function.update sources first (some (.candidates
          (candidateSourceAddRows first (sourceToExtend (sources first)) (orderedRows (delta first)))))) relation =
          some (.candidates source₁) ∧ Indexed relation source₁ ∧
        ∀ row, row ∈ source₁.rows ↔ row ∈ source.rows ∨ (relation = first ∧ row ∈ delta relation) := by
      by_cases he : (delta first).isEmpty = true
      · rw [if_pos he]
        refine ⟨source, hsource, hindexed, fun row => ?_⟩
        rw [List.isEmpty_iff] at he
        constructor
        · exact Or.inl
        · rintro (h | ⟨rfl, h⟩)
          · exact h
          · rw [he] at h
            cases h
      · rw [if_neg he]
        by_cases hf : relation = first
        · subst hf
          rw [Function.update_self, hsource]
          refine ⟨_, rfl, hindexed.addRows _, fun row => ?_⟩
          simp [sourceToExtend, rows_candidateSourceAddRows, orderedRows, mem_orderRowVector]
        · rw [Function.update_of_ne hf]
          exact ⟨source, hsource, hindexed, fun row => by simp [hf]⟩
    obtain ⟨source₁, hsource₁, hindexed₁, hrows₁⟩ := hstep
    rw [addDeltaSources_cons]
    by_cases hrest : relation ∈ relations
    · obtain ⟨source', hsource', hindexed', hrows'⟩ := ih hrest hsource₁ hindexed₁
      refine ⟨source', hsource', hindexed', fun row => ?_⟩
      rw [hrows', hrows₁]
      tauto
    · have hf : relation = first := (List.mem_cons.1 hr).resolve_right hrest
      refine ⟨source₁, (addDeltaSources_same (Or.inl hrest) _).trans hsource₁, hindexed₁, fun row => ?_⟩
      rw [hrows₁]
      simp [hf]

end Tracks

end Datalog

end Fram
