import Fram.Kernel

/-!
# When R5 binds a space

R5 should bind the spaces that declare a complete profile which lists it. The lint asks for some complete profile of the space, and
apart from that for some profile id of the space that lists R5: the id of a header that declares nothing will do.
-/

namespace Fram

namespace Kernel

variable {triples : List Triple} {spaceId : String} {p : Triple}

/-! ## Declarations -/

/-- The propositions list a rule of a profile. -/
def ListsRule (triples : List Triple) (profileId : Term) (rule : String) : Prop :=
  ∃ v ∈ triples, profileId.eqv v.t1 = true ∧ profileIncludes.eqv v.t2 = true ∧ (Term.str rule).eqv v.t3 = true

/-- A proposition of the space has an anchor and a header, of any kind and mode, with the profile id. -/
def Anchored (triples : List Triple) (spaceId : String) (profileId : Term) : Prop :=
  ∃ v ∈ triples, (Term.str spaceId).eqv v.t1 = true ∧ isProfileAnchor v = true ∧ ∃ kind mode, v.t3 = .triple profileId kind mode

/-- The space declares a complete and well-formed profile: its anchor with the header of an observed relational profile, and each of the
rules R1 to R4. -/
structure CompleteProfile (triples : List Triple) (spaceId : String) (profileId : Term) : Prop where
  header : ∃ v ∈ triples, (Term.str spaceId).eqv v.t1 = true ∧ isProfileAnchor v = true ∧
    ∃ kind mode, v.t3 = .triple profileId kind mode ∧ relationalProfileKind.eqv kind = true ∧ observeProfileMode.eqv mode = true
  rules : ∀ rule ∈ relationalProfileRules, ListsRule triples profileId rule

/-- The space declares a complete profile that lists R5. -/
def BindsVocabulary (triples : List Triple) (spaceId : String) : Prop :=
  ∃ profileId, CompleteProfile triples spaceId profileId ∧ ListsRule triples profileId vocabularyProfileRule

/-- A proposition breaks R5: it is no anchor, and its predicate is namespaced and no member of a vocabulary. -/
def BreaksVocabulary (triples : List Triple) (p : Triple) : Prop :=
  isProfileAnchor p = false ∧ namespacedVocabulary p.t2 = true ∧ vocabularyMember triples p.t2 = false

theorem profileHasRule_iff {profileId : Term} {rule : String} :
    profileHasRule triples profileId rule = true ↔ ListsRule triples profileId rule := by
  simp only [profileHasRule, List.any_eq_true, Bool.and_eq_true, ListsRule]

theorem declaredRelationalProfile_iff :
    declaredRelationalProfile triples spaceId = true ↔ ∃ profileId, CompleteProfile triples spaceId profileId := by
  simp only [declaredRelationalProfile, List.any_eq_true, Bool.and_eq_true]
  constructor
  · rintro ⟨v, hv, hspace, hanchor, h⟩
    split at h
    · rename_i profileId kind mode heq
      simp only [Bool.and_eq_true, List.all_eq_true, profileHasRule_iff] at h
      exact ⟨profileId, ⟨v, hv, hspace, hanchor, kind, mode, heq, h.1, h.2.1⟩, h.2.2⟩
    · cases h
  · rintro ⟨profileId, ⟨v, hv, hspace, hanchor, kind, mode, heq, hkind, hmode⟩, hrules⟩
    refine ⟨v, hv, hspace, hanchor, ?_⟩
    simp only [heq, hkind, hmode, Bool.true_and, List.all_eq_true, profileHasRule_iff]
    exact hrules

theorem mem_spaceProfileIds_iff {profileId : Term} : profileId ∈ spaceProfileIds triples spaceId ↔ Anchored triples spaceId profileId := by
  simp only [spaceProfileIds, List.mem_filterMap, Anchored]
  constructor
  · rintro ⟨v, hv, h⟩
    split at h
    · rename_i hanchor
      rw [Bool.and_eq_true] at hanchor
      split at h
      · rename_i id kind mode heq
        cases h
        exact ⟨v, hv, hanchor.1, hanchor.2, kind, mode, heq⟩
      · cases h
    · cases h
  · rintro ⟨v, hv, hspace, hanchor, kind, mode, heq⟩
    exact ⟨v, hv, by simp [hspace, hanchor, heq]⟩

theorem declaredVocabularyRule_iff : declaredVocabularyRule triples spaceId = true ↔
    ∃ profileId, Anchored triples spaceId profileId ∧ ListsRule triples profileId vocabularyProfileRule := by
  simp only [declaredVocabularyRule, List.any_eq_true, mem_spaceProfileIds_iff, profileHasRule_iff]

theorem CompleteProfile.anchored {profileId : Term} (h : CompleteProfile triples spaceId profileId) : Anchored triples spaceId profileId := by
  obtain ⟨v, hv, hspace, hanchor, kind, mode, heq, -, -⟩ := h.header
  exact ⟨v, hv, hspace, hanchor, kind, mode, heq⟩

/-! ## Verdicts -/

theorem vocabularyProfileRule_notMem (p : Triple) : vocabularyProfileRule ∉ relationalLintErrors p := by
  simp only [relationalLintErrors]
  split_ifs <;> decide

theorem mem_vocabularyLintErrors_iff : vocabularyProfileRule ∈ vocabularyLintErrors triples p ↔
    namespacedVocabulary p.t2 = true ∧ vocabularyMember triples p.t2 = false := by
  unfold vocabularyLintErrors
  split <;> simp_all

theorem mem_brokenRules_iff {vocabulary : Bool} : vocabularyProfileRule ∈ brokenRules triples vocabulary p ↔
    vocabulary = true ∧ namespacedVocabulary p.t2 = true ∧ vocabularyMember triples p.t2 = false := by
  rw [brokenRules, List.mem_append, or_iff_right (vocabularyProfileRule_notMem p)]
  cases vocabulary
  · simp
  · simp [mem_vocabularyLintErrors_iff]

/-- The rows of a rule that a proposition breaks. -/
theorem foldl_rows (p : Triple) (rules : List String) (rows : List Triple) :
    rules.foldl (fun rows rule => rows ++ [⟨p.term, profileViolation, .str rule⟩]) rows =
      rows ++ rules.map fun rule => ⟨p.term, profileViolation, .str rule⟩ := by
  induction rules generalizing rows with
  | nil => simp
  | cons rule rules ih => rw [List.foldl_cons, ih, List.map_cons, List.append_assoc, List.singleton_append]

/-- What the lint lists: the rules that each proposition but the anchors breaks, when a profile is declared. -/
theorem lintDeclaredProfile_eq (triples : List Triple) (spaceId : String) : lintDeclaredProfile triples spaceId =
    if declaredRelationalProfile triples spaceId = false then [] else (triples.filter (!isProfileAnchor ·)).flatMap fun p =>
      (brokenRules triples (declaredVocabularyRule triples spaceId) p).map fun rule => ⟨p.term, profileViolation, .str rule⟩ := by
  unfold lintDeclaredProfile
  split
  · rfl
  · simp only [foldl_rows]
    suffices h : ∀ (l rows : List Triple), l.foldl (fun violations p => if isProfileAnchor p then violations else
        violations ++ (brokenRules triples (declaredVocabularyRule triples spaceId) p).map fun rule =>
          (⟨p.term, profileViolation, .str rule⟩ : Triple)) rows = rows ++ (l.filter (!isProfileAnchor ·)).flatMap fun p =>
        (brokenRules triples (declaredVocabularyRule triples spaceId) p).map fun rule => ⟨p.term, profileViolation, .str rule⟩ by
      rw [h, List.nil_append]
    intro l
    induction l with
    | nil => simp
    | cons p l ih =>
      intro rows
      rw [List.foldl_cons, ih]
      cases h : isProfileAnchor p <;> simp [h]

/-- The lint says that the proposition violates R5. -/
def LintsVocabulary (triples : List Triple) (spaceId : String) (p : Triple) : Prop :=
  (⟨p.term, profileViolation, .str vocabularyProfileRule⟩ : Triple) ∈ lintDeclaredProfile triples spaceId

/-- The lint applies R5 when a complete profile is declared and any anchored id lists R5. -/
theorem lintsVocabulary_iff (hp : p ∈ triples) : LintsVocabulary triples spaceId p ↔
    (∃ profileId, CompleteProfile triples spaceId profileId) ∧
      (∃ profileId, Anchored triples spaceId profileId ∧ ListsRule triples profileId vocabularyProfileRule) ∧ BreaksVocabulary triples p := by
  rw [LintsVocabulary, lintDeclaredProfile_eq, ← declaredRelationalProfile_iff, ← declaredVocabularyRule_iff]
  cases hd : declaredRelationalProfile triples spaceId
  · simp
  · rw [if_neg (by simp), List.mem_flatMap]
    simp only [List.mem_filter, Bool.not_eq_true', List.mem_map, Triple.mk.injEq, Term.str, Term.atom.injEq, Atom.string.injEq,
      true_and, BreaksVocabulary]
    constructor
    · rintro ⟨v, ⟨-, hanchor⟩, rule, hrule, hterm, rfl⟩
      obtain rfl : v = p := by
        cases v
        cases p
        simpa [Triple.term] using hterm
      obtain ⟨hrule, hname, hmember⟩ := mem_brokenRules_iff.1 hrule
      exact ⟨hrule, hanchor, hname, hmember⟩
    · rintro ⟨hrule, hanchor, hname, hmember⟩
      exact ⟨p, ⟨hp, hanchor⟩, vocabularyProfileRule, mem_brokenRules_iff.2 ⟨hrule, hname, hmember⟩, rfl, rfl⟩

/-! ## Gating -/

/-- The lint applies R5 to the propositions of the space: a profile is declared, and the vocabulary rule is. -/
def AppliesVocabulary (triples : List Triple) (spaceId : String) : Prop :=
  declaredRelationalProfile triples spaceId = true ∧ declaredVocabularyRule triples spaceId = true

/-- A stray header: the space declares complete profiles, none of them lists R5, and another header of the space has an id that does. -/
def StrayHeader (triples : List Triple) (spaceId : String) : Prop :=
  (∃ profileId, CompleteProfile triples spaceId profileId) ∧
    (∀ profileId, CompleteProfile triples spaceId profileId → ¬ListsRule triples profileId vocabularyProfileRule) ∧
    ∃ profileId, Anchored triples spaceId profileId ∧ ListsRule triples profileId vocabularyProfileRule

/-- R5 is applied where a complete profile lists it, and over a stray header. -/
theorem appliesVocabulary_iff : AppliesVocabulary triples spaceId ↔ BindsVocabulary triples spaceId ∨ StrayHeader triples spaceId := by
  rw [AppliesVocabulary, declaredRelationalProfile_iff, declaredVocabularyRule_iff]
  constructor
  · rintro ⟨hdeclared, hanchored⟩
    by_cases hbinds : BindsVocabulary triples spaceId
    · exact Or.inl hbinds
    · exact Or.inr ⟨hdeclared, fun profileId hc hl => hbinds ⟨profileId, hc, hl⟩, hanchored⟩
  · rintro (⟨profileId, hcomplete, hlists⟩ | ⟨hdeclared, -, hanchored⟩)
    · exact ⟨⟨profileId, hcomplete⟩, profileId, hcomplete.anchored, hlists⟩
    · exact ⟨hdeclared, hanchored⟩

theorem StrayHeader.not_binds (h : StrayHeader triples spaceId) : ¬BindsVocabulary triples spaceId := by
  rintro ⟨profileId, hcomplete, hlists⟩
  exact h.2.1 profileId hcomplete hlists

/-- **The lint binds R5 exactly where a complete profile lists it**, unless there is a stray header. For a space: R5 is applied to its
propositions exactly if it binds, but for a stray header. For its propositions: the lint says that one violates R5 exactly if R5 binds
the space and the proposition breaks it, but for a stray header beside a proposition that breaks R5. -/
theorem profile_gating (triples : List Triple) (spaceId : String) :
    ((∀ p ∈ triples, LintsVocabulary triples spaceId p ↔ BindsVocabulary triples spaceId ∧ BreaksVocabulary triples p) ↔
      ¬(StrayHeader triples spaceId ∧ ∃ p ∈ triples, BreaksVocabulary triples p)) ∧
    ((AppliesVocabulary triples spaceId ↔ BindsVocabulary triples spaceId) ↔ ¬StrayHeader triples spaceId) := by
  have hlints {p : Triple} (hp : p ∈ triples) : LintsVocabulary triples spaceId p ↔
      (BindsVocabulary triples spaceId ∨ StrayHeader triples spaceId) ∧ BreaksVocabulary triples p := by
    rw [lintsVocabulary_iff hp, ← appliesVocabulary_iff, AppliesVocabulary, declaredRelationalProfile_iff, declaredVocabularyRule_iff,
      and_assoc]
  constructor
  · constructor
    · rintro h ⟨hstray, p, hp, hbreaks⟩
      exact hstray.not_binds ((h p hp).1 ((hlints hp).2 ⟨Or.inr hstray, hbreaks⟩)).1
    · intro h p hp
      rw [hlints hp]
      refine and_congr_left fun hbreaks => or_iff_left fun hstray => h ⟨hstray, p, hp, hbreaks⟩
  · rw [appliesVocabulary_iff]
    constructor
    · exact fun h hstray => hstray.not_binds (h.1 (Or.inr hstray))
    · exact fun h => or_iff_left h

/-- A space with a complete profile without R5, a header of no kind whose id lists R5, and a namespaced predicate. -/
def strayRule : List Triple :=
  relationalProfileDeclaration "s" (.str "p") :: relationalProfileRules.map (profileRule (.str "p")) ++
    [⟨.str "s", profileAnchor, (profileHeader (.str "q") (.str "x") (.str "y")).term⟩, profileRule (.str "q") vocabularyProfileRule,
      ⟨.str "Alice", .kw "contact/email", .str "a"⟩]

/-- **A stray header makes R5 bind.** No complete profile of the space lists R5, and the lint applies it. -/
theorem profile_gating_stray : ¬∀ p ∈ strayRule, LintsVocabulary strayRule "s" p ↔
    BindsVocabulary strayRule "s" ∧ BreaksVocabulary strayRule p := by
  intro h
  have hlints : LintsVocabulary strayRule "s" ⟨.str "Alice", .kw "contact/email", .str "a"⟩ := by
    unfold LintsVocabulary
    decide
  obtain ⟨⟨profileId, hcomplete, hlists⟩, -⟩ := (h _ (by decide)).1 hlints
  obtain ⟨v, hv, -, hanchor, kind, mode, heq, hkind, -⟩ := hcomplete.header
  have hv : v = relationalProfileDeclaration "s" (.str "p") ∨
      v = ⟨.str "s", profileAnchor, (profileHeader (.str "q") (.str "x") (.str "y")).term⟩ := by
    have hanchors : ∀ v ∈ strayRule, isProfileAnchor v = true → v = relationalProfileDeclaration "s" (.str "p") ∨
        v = ⟨.str "s", profileAnchor, (profileHeader (.str "q") (.str "x") (.str "y")).term⟩ := by decide
    exact hanchors v hv hanchor
  rcases hv with rfl | rfl
  · cases heq
    rw [← profileHasRule_iff] at hlists
    revert hlists
    decide
  · cases heq
    revert hkind
    decide

end Kernel

end Fram
