import Fram.Lemmas.Naming

/-!
# The naming of predicates

Every spelling should resolve to one predicate at most and keep resolving to it. This holds of a new session as long as no operation
meets a spelling of its own machinery in the hands of another predicate (`predicate_naming`). A renaming to `predicate_name` in a
session that has not been set up gives that spelling two predicates, and throws.
-/

namespace Fram.Schema

open Stateful

section Writes

variable {Γ : Host} {print : Term → String} {session : Session} {facts : List Fact} {p x c : String}

theorem lift_ok {α : Type} {result : Except Fault α} {a : α} (h : result = .ok a) : lift result session = (.ok a, session) := by
  rw [h]
  rfl

theorem assertWhen_false (builder : Txn.Builder) (proposition : Triple) : assertWhen false builder proposition = .ok builder := rfl

theorem Shows.assertWhen_true (h : Shows Γ session facts) (before : List CommitOperation) (proposition : Triple) :
    assertWhen true (opened session before) proposition = .ok (opened session (before ++ [⟨.assert, proposition⟩])) := by
  obtain ⟨c, hc⟩ := @Shows.append Γ session facts h before [⟨.assert, proposition⟩] (by simp)
  rw [assertWhen, if_pos rfl, Txn.assert, hc]
  rfl

/-- Whether a predicate has a name. -/
theorem Shows.isEmpty_byT12 (h : Shows Γ session facts) (p : String) :
    (Fram.byT12 Γ session.view (.str p) (.str predicateNamePredicate)).isEmpty = (namesOf facts p).isEmpty := by
  have hlen := congrArg List.isEmpty (h.byT12 p predicateNamePredicate)
  rw [List.isEmpty_map, List.isEmpty_map] at hlen
  rw [hlen, namesOf, List.isEmpty_map]

/-- The registration of a spelling that names a predicate: nothing is written, or the alias that comes with its last name. -/
theorem Shows.registerNamed (h : Shows Γ session facts) (hs : Sound facts) (hx : Names facts p x)
    (hc : (namesOf facts p).getLast? = some c) (hfree : ∀ q, Names facts q (":" ++ c) → q = p) :
    (Names facts p (":" ++ c) ∧ registerPredicate Γ print x session = (.ok (.str p), session)) ∨
      (¬Names facts p (":" ++ c) ∧ ∃ session', registerPredicate Γ print x session = (.ok (.str p), session') ∧
        Shows Γ session' (facts ++ [⟨p, predicateAliasPredicate, ":" ++ c⟩])) := by
  have hname := @Shows.predicateName_eq Γ print session facts p h c hc
  have hne : (namesOf facts p).isEmpty = false := List.isEmpty_eq_false_iff.2 (hs.named hx)
  unfold registerPredicate
  rw [bind_of_ok (get_run session), bind_of_ok (lift_ok (h.resolvePredicate_eq hs hx))]
  simp only [Option.map_some, Option.getD_some, hname, h.isEmpty_byT12, hne]
  by_cases ha : Names facts p (":" ++ c)
  · refine .inl ⟨ha, ?_⟩
    rw [h.predicateIds_eq hs ha, if_neg (by simp [collides, str_eqv_iff]), List.isEmpty_cons, bind_of_ok (lift_ok h.openBuilder),
      bind_of_ok (lift_ok (assertWhen_false _ _)), bind_of_ok (lift_ok (assertWhen_false _ _))]
    rfl
  · have hnone : ∀ q, ¬Names facts q (":" ++ c) := by
      intro q hq
      rw [hfree q hq] at hq
      exact ha hq
    obtain ⟨session', hcommit, hshows⟩ := @Shows.commit Γ session facts h (assertions [⟨p, predicateAliasPredicate, ":" ++ c⟩])
      (by simp [assertions]) _ fun spaceId q base hbase => mergedMatching_assertions [⟨p, predicateAliasPredicate, ":" ++ c⟩] spaceId q 0 hbase
    refine .inr ⟨ha, session', ?_, hshows⟩
    rw [h.predicateIds_nil hnone]
    rw [if_neg (by simp [collides]), List.isEmpty_nil, bind_of_ok (lift_ok h.openBuilder), bind_of_ok (lift_ok (assertWhen_false _ _)),
      bind_of_ok (lift_ok (h.assertWhen_true [] _))]
    exact bind_of_ok hcommit

/-- The registration of a spelling that names nothing, when the alias that comes with it is taken. -/
theorem Shows.registerTaken (h : Shows Γ session facts) (hs : Sound facts) (hx : ∀ q, ¬Names facts q x) (ha : Names facts p (":" ++ x)) :
    ∃ fault, registerPredicate Γ print x session = (.error fault, session) := by
  unfold registerPredicate
  rw [bind_of_ok (get_run session), bind_of_ok (lift_ok (h.resolvePredicate_none hx))]
  simp only [Option.map_none, Option.getD_none, h.predicateIds_eq hs ha, collides, if_true]
  exact ⟨_, bind_of_error (throw_run _ _)⟩

/-- The registration of a spelling that names nothing: a new predicate with its name and the alias that comes with it. -/
theorem Shows.registerNew (h : Shows Γ session facts) (hs : Sound facts) (hx : ∀ q, ¬Names facts q x)
    (ha : ∀ q, ¬Names facts q (":" ++ x)) : ∃ session', registerPredicate Γ print x session = (.ok (.str x), session') ∧
      Shows Γ session' (facts ++ registration x) := by
  obtain ⟨session', hcommit, hshows⟩ := @Shows.commit Γ session facts h (assertions (registration x)) (by simp [assertions, registration]) _
    fun spaceId q base hbase => mergedMatching_assertions (registration x) spaceId q 0 hbase
  refine ⟨session', ?_, hshows⟩
  unfold registerPredicate
  rw [bind_of_ok (get_run session), bind_of_ok (lift_ok (h.resolvePredicate_none hx))]
  simp only [Option.map_none, Option.getD_none, h.predicateIds_nil ha, h.isEmpty_byT12, hs.namesOf_eq_nil hx, List.isEmpty_nil]
  rw [if_neg (by simp [collides]), bind_of_ok (lift_ok h.openBuilder), bind_of_ok (lift_ok (h.assertWhen_true [] _)),
    bind_of_ok (lift_ok (h.assertWhen_true _ _))]
  exact bind_of_ok hcommit

/-! ## What writes add -/

/-- Facts name what they named, and besides no more than predicates of some spellings, each under its own and under the alias that comes
with it. -/
structure Grows (added : List String) (facts facts' : List Fact) : Prop where
  keeps : ∀ {p x}, Names facts p x → Names facts' p x
  adds : ∀ {p x}, Names facts' p x → Names facts p x ∨ (p ∈ added ∧ (x = p ∨ x = ":" ++ p))

/-- A spelling, and the alias that comes with it, name nothing but the predicate of the spelling. -/
def Reserved (facts : List Fact) (m : String) : Prop := ∀ p, Names facts p m ∨ Names facts p (":" ++ m) → p = m

theorem Grows.refl (added : List String) (facts : List Fact) : Grows added facts facts := ⟨id, .inl⟩

theorem Grows.trans {added added' : List String} {facts facts' facts'' : List Fact} (h : Grows added facts facts')
    (h' : Grows added' facts' facts'') : Grows (added ++ added') facts facts'' := by
  refine ⟨fun hx => h'.keeps (h.keeps hx), fun hx => ?_⟩
  rcases h'.adds hx with hx | ⟨hp, hx⟩
  · rcases h.adds hx with hx | ⟨hp, hx⟩
    · exact .inl hx
    · exact .inr ⟨List.mem_append_left _ hp, hx⟩
  · exact .inr ⟨List.mem_append_right _ hp, hx⟩

theorem grows_registration (facts : List Fact) (x : String) : Grows [x] facts (facts ++ registration x) := by
  refine ⟨fun hy => names_append_iff.2 (.inl hy), fun hy => ?_⟩
  rcases names_append_iff.1 hy with hy | hy
  · exact .inl hy
  · obtain ⟨rfl, hy⟩ := names_registration_iff.1 hy
    exact .inr ⟨List.mem_singleton_self _, hy⟩

theorem colon_append_inj {a b : String} (h : ":" ++ a = ":" ++ b) : a = b := by
  have := congrArg String.toList h
  simpa [String.ext_iff] using this

/-- What stays reserved when facts grow by predicates of other spellings. -/
theorem Reserved.grows {added : List String} {facts facts' : List Fact} {m : String} (hr : Reserved facts m)
    (hg : Grows added facts facts') (h : ∀ x ∈ added, x ≠ ":" ++ m ∧ m ≠ ":" ++ x) : Reserved facts' m := by
  rintro p (hp | hp)
  · rcases hg.adds hp with hp | ⟨hmem, hx | hx⟩
    · exact hr p (.inl hp)
    · exact hx.symm
    · exact absurd hx (h p hmem).2
  · rcases hg.adds hp with hp | ⟨hmem, hx | hx⟩
    · exact hr p (.inr hp)
    · exact absurd hx.symm (h p hmem).1
    · exact (colon_append_inj hx).symm

/-! ## Registrations -/

/-- A registration finds the predicate that a spelling names, or adds one, or finds the alias taken that would come with it. -/
theorem Shows.register (h : Shows Γ session facts) (hc : Coherent facts) (x : String) :
    (∃ p, Names facts p x ∧ registerPredicate Γ print x session = (.ok (.str p), session)) ∨
      (∀ q, ¬Names facts q x) ∧ ((∃ q, Names facts q (":" ++ x)) ∧ ∃ fault, registerPredicate Γ print x session = (.error fault, session)) ∨
      (∀ q, ¬Names facts q x) ∧ (∃ session', registerPredicate Γ print x session = (.ok (.str x), session') ∧
        Shows Γ session' (facts ++ registration x)) ∧ Coherent (facts ++ registration x) := by
  by_cases hx : ∃ p, Names facts p x
  · obtain ⟨p, hx⟩ := hx
    obtain ⟨c, hlast⟩ := Option.isSome_iff_exists.1 (List.getLast?_isSome.2 (hc.named hx))
    have hmarked := hc.marked hlast
    refine .inl ⟨p, hx, ?_⟩
    have hne : (namesOf facts p).isEmpty = false := List.isEmpty_eq_false_iff.2 (hc.named hx)
    rcases @Shows.registerNamed Γ print session facts p x c h hc.toSound hx hlast fun q hq => hc.functional hq (.inr hmarked) with
      ⟨-, hok⟩ | ⟨hnot, -⟩
    · exact hok
    · exact absurd (.inr hmarked) hnot
  · rw [not_exists] at hx
    by_cases ha : ∃ q, Names facts q (":" ++ x)
    · obtain ⟨q, ha⟩ := ha
      exact .inr (.inl ⟨hx, ⟨q, ha⟩, h.registerTaken hc.toSound hx ha⟩)
    · rw [not_exists] at ha
      exact .inr (.inr ⟨hx, h.registerNew hc.toSound hx ha, hc.register hx ha⟩)

/-- A reserved spelling is registered already, or its registration adds it. -/
theorem Shows.registerReserved (h : Shows Γ session facts) (hc : Coherent facts) {m : String} (hm : Reserved facts m) :
    ∃ session' facts', registerPredicate Γ print m session = (.ok (.str m), session') ∧ Shows Γ session' facts' ∧ Coherent facts' ∧
      Names facts' m m ∧ (facts' = facts ∨ ((∀ q, ¬Names facts q m) ∧ facts' = facts ++ registration m)) := by
  rcases @Shows.register Γ print session facts h hc m with ⟨p, hp, hok⟩ | ⟨hx, ⟨q, hq⟩, -⟩ | ⟨hx, ⟨session', hok, hshows⟩, hc'⟩
  · obtain rfl := hm p (.inl hp)
    exact ⟨session, facts, hok, h, hc, hp, .inl rfl⟩
  · obtain rfl := hm q (.inr hq)
    exact absurd (hc.own hq) (hx _)
  · exact ⟨session', _, hok, hshows, hc', names_append_iff.2 (.inr (names_registration_iff.2 ⟨rfl, .inl rfl⟩)), .inr ⟨hx, rfl⟩⟩

/-! ## Assertions -/

theorem Shows.resolvePredicate_ok (h : Shows Γ session facts) (hs : Sound facts) (x : String) :
    ∃ r, resolvePredicate Γ session x = .ok r := by
  by_cases hx : ∃ p, Names facts p x
  · obtain ⟨p, hx⟩ := hx
    exact ⟨_, h.resolvePredicate_eq hs hx⟩
  · exact ⟨_, h.resolvePredicate_none (not_exists.1 hx)⟩

/-- A value that is written of a registered predicate comes beside the values that there are, or takes their place. -/
theorem Shows.assertRegistered (h : Shows Γ session facts) (hs : Sound facts) (f : Fact) (pname : String) :
    ∃ c session' single, assertRegistered Γ (.str f.subject) (.str f.predicate) pname (.str f.value) session = (.ok c, session') ∧
      Shows Γ session' (written single facts f) := by
  obtain ⟨r, hr⟩ := h.resolvePredicate_ok hs pname
  obtain ⟨r', hr'⟩ := h.resolvePredicate_ok hs cardinalityPredicate
  have hcard : ∃ card, cardinality Γ session pname = .ok card := by
    simp only [cardinality, hr, hr', bind, Except.bind]
    split <;> exact ⟨_, rfl⟩
  obtain ⟨card, hcard⟩ := hcard
  unfold Schema.assertRegistered
  rw [bind_of_ok (get_run session), bind_of_ok (lift_ok h.openBuilder), bind_of_ok (lift_ok hcard)]
  by_cases hsingle : card = Schema.single
  · have hne : Txn.compileSingleUpdate Γ session.view (.str f.subject) (.str f.predicate) (.str f.value) ≠ [] := by
      simp [Txn.compileSingleUpdate]
    obtain ⟨c, happend⟩ := @Shows.append Γ session facts h [] _ hne
    obtain ⟨session', hcommit, hshows⟩ := @Shows.commit Γ session facts h _ hne _
      fun spaceId q base hbase => mergedMatching_update h f spaceId q hbase
    refine ⟨c, session', true, ?_, hshows⟩
    rw [if_pos hsingle, Txn.updateSingle, bind_of_ok (lift_ok happend), List.nil_append]
    exact bind_of_ok hcommit
  · have hne : assertions [f] ≠ [] := by simp [assertions]
    obtain ⟨c, happend⟩ := @Shows.append Γ session facts h [] _ hne
    change Txn.append (opened session []) [⟨.assert, ⟨.str f.subject, .str f.predicate, .str f.value⟩⟩] = _ at happend
    obtain ⟨session', hcommit, hshows⟩ := @Shows.commit Γ session facts h _ hne _
      fun spaceId q base hbase => mergedMatching_assertions [f] spaceId q 0 hbase
    refine ⟨c, session', false, ?_, hshows⟩
    rw [if_neg hsingle, Txn.assert, bind_of_ok (lift_ok happend)]
    exact bind_of_ok hcommit

/-- A value that is written of a reserved predicate that has nothing to do with names. -/
theorem Shows.assertReserved (h : Shows Γ session facts) (hc : Coherent facts) {m : String} (hm : Reserved facts m)
    (hn : m ≠ predicateNamePredicate) (ha : m ≠ predicateAliasPredicate) (s v : String) :
    ∃ c session' facts', Schema.assert Γ print (.str s) m (.str v) session = (.ok c, session') ∧ Shows Γ session' facts' ∧
      Coherent facts' ∧ Grows [m] facts facts' := by
  obtain ⟨session₁, facts₁, hreg, hshows₁, hc₁, -, hfacts₁⟩ := @Shows.registerReserved Γ print session facts h hc m hm
  obtain ⟨c, session', single, hassert, hshows⟩ := hshows₁.assertRegistered hc₁.toSound ⟨s, m, v⟩ m
  refine ⟨c, session', _, ?_, hshows, hc₁.written hn ha, ?_⟩
  · rw [Schema.assert, bind_of_ok hreg]
    exact hassert
  · have hgrows : Grows [m] facts facts₁ := by
      rcases hfacts₁ with rfl | ⟨-, rfl⟩
      · exact .refl _ _
      · exact grows_registration facts m
    refine @Grows.trans [m] [] _ _ _ hgrows ⟨names_written hn ha, fun hx => .inl ?_⟩
    rcases hx with hx | hx
    · rcases mem_written_iff.1 hx with hx | hx
      · exact absurd (congrArg Fact.predicate hx).symm hn
      · exact .inl hx.1
    · rcases mem_written_iff.1 hx with hx | hx
      · exact absurd (congrArg Fact.predicate hx).symm ha
      · exact .inr hx.1

/-! ## Definitions -/

theorem ne_colon {m : String} (h : m.toList.head? ≠ some ':') (x : String) : m ≠ ":" ++ x := by
  rintro rfl
  simp at h

/-- A reserved spelling is not touched by what a spelling may newly name: it names its predicate already, or the spelling is not the alias
that comes with it. -/
def Clear (facts : List Fact) (m x : String) : Prop := Reserved facts m ∧ (x = ":" ++ m → ∃ p, Names facts p m)

theorem Clear.register {m : String} (h : Clear facts m x) (hc : Coherent facts) (hm : m.toList.head? ≠ some ':')
    (hx : ∀ q, ¬Names facts q x) : Reserved (facts ++ registration x) m := by
  refine h.1.grows (grows_registration facts x) ?_
  intro y hy
  rw [List.mem_singleton] at hy
  subst hy
  refine ⟨?_, ne_colon hm _⟩
  rintro rfl
  obtain ⟨p, hp⟩ := h.2 rfl
  obtain rfl := h.1 p (.inl hp)
  exact hx p (hc.coloned hp)

/-- A definition of a predicate, when the spellings of what it writes are clear. It throws only if it registers nothing. -/
theorem Shows.defPredicate (h : Shows Γ session facts) (hc : Coherent facts) {pname : String} (hcard : Clear facts cardinalityPredicate pname)
    (hkind : Clear facts valueKindPredicate pname) (card kind : String) :
    ((∀ q, ¬Names facts q pname) ∧ (∃ q, Names facts q (":" ++ pname)) ∧
        ∃ fault, Schema.defPredicate Γ print pname card kind session = (.error fault, session)) ∨
      ∃ pid session' facts', Schema.defPredicate Γ print pname card kind session = (.ok pid, session') ∧ Shows Γ session' facts' ∧
        Coherent facts' ∧ Grows [pname, cardinalityPredicate, valueKindPredicate] facts facts' := by
  have hregistered : ((∀ q, ¬Names facts q pname) ∧ (∃ q, Names facts q (":" ++ pname)) ∧
      ∃ fault, registerPredicate Γ print pname session = (.error fault, session)) ∨
      ∃ p session₁ facts₁, registerPredicate Γ print pname session = (.ok (.str p), session₁) ∧ Shows Γ session₁ facts₁ ∧
        Coherent facts₁ ∧ Grows [pname] facts facts₁ ∧ Reserved facts₁ cardinalityPredicate ∧ Reserved facts₁ valueKindPredicate := by
    rcases @Shows.register Γ print session facts h hc pname with ⟨p, -, hok⟩ | htaken | ⟨hx, ⟨session₁, hok, hshows⟩, hc₁⟩
    · exact .inr ⟨p, session, facts, hok, h, hc, .refl _ _, hcard.1, hkind.1⟩
    · exact .inl htaken
    · exact .inr ⟨pname, session₁, _, hok, hshows, hc₁, grows_registration facts pname, hcard.register hc (by decide) hx,
        hkind.register hc (by decide) hx⟩
  rcases hregistered with ⟨hx, ha, fault, herror⟩ | ⟨p, session₁, facts₁, hok, hshows₁, hc₁, hg₁, hcard₁, hkind₁⟩
  · exact .inl ⟨hx, ha, fault, bind_of_error herror⟩
  · obtain ⟨c₂, session₂, facts₂, hok₂, hshows₂, hc₂, hg₂⟩ :=
      @Shows.assertReserved Γ print session₁ facts₁ hshows₁ hc₁ cardinalityPredicate hcard₁ (by decide) (by decide) p card
    have hkind₂ : Reserved facts₂ valueKindPredicate := hkind₁.grows hg₂ (by decide)
    obtain ⟨c₃, session₃, facts₃, hok₃, hshows₃, hc₃, hg₃⟩ :=
      @Shows.assertReserved Γ print session₂ facts₂ hshows₂ hc₂ valueKindPredicate hkind₂ (by decide) (by decide) p kind
    refine .inr ⟨.str p, session₃, facts₃, ?_, hshows₃, hc₃, (hg₁.trans hg₂).trans hg₃⟩
    rw [Schema.defPredicate, bind_of_ok hok, bind_of_ok hok₂, bind_of_ok hok₃]
    rfl

/-! ## Aliases -/

/-- Whether identities collide with the one that a spelling names, or with none. -/
theorem Shows.collides_eq_false (h : Shows Γ session facts) (hs : Sound facts) {y : String} {r : Option String}
    (hcollides : collides (predicateIds Γ session y) (r.map Term.str) = false) : ∀ q, Names facts q y → r = some q := by
  intro q hq
  rw [h.predicateIds_eq hs hq] at hcollides
  cases r with
  | none => cases hcollides
  | some p =>
    have heq : (Term.str p).eqv (.str q) = true := by simpa [collides] using hcollides
    rw [str_eqv_iff.1 heq]

theorem Shows.resolve_cases (h : Shows Γ session facts) (hs : Sound facts) (x : String) :
    ∃ r : Option String, resolvePredicate Γ session x = .ok (r.map Term.str) ∧ ∀ p, r = some p ↔ Names facts p x := by
  by_cases hx : ∃ p, Names facts p x
  · obtain ⟨p, hx⟩ := hx
    refine ⟨some p, h.resolvePredicate_eq hs hx, fun q => ?_⟩
    rw [Option.some.injEq]
    constructor
    · rintro rfl
      exact hx
    · intro hq
      exact hs.functional hx hq
  · rw [not_exists] at hx
    refine ⟨none, h.resolvePredicate_none hx, fun q => ?_⟩
    constructor
    · intro hq
      cases hq
    · intro hq
      exact absurd hq (hx q)

/-- One assertion in a transaction of its own. -/
theorem Shows.commitAssertion (h : Shows Γ session facts) (f : Fact) :
    ∃ c session', Txn.assert (opened session []) ⟨.str f.subject, .str f.predicate, .str f.value⟩ =
        .ok (opened session (assertions [f]), c) ∧ Schema.commit Γ (opened session (assertions [f])) session = (.ok (), session') ∧
      Shows Γ session' (facts ++ [f]) := by
  have hne : assertions [f] ≠ [] := by simp [assertions]
  obtain ⟨c, happend⟩ := @Shows.append Γ session facts h [] _ hne
  obtain ⟨session', hcommit, hshows⟩ := @Shows.commit Γ session facts h _ hne _
    fun spaceId q base hbase => mergedMatching_assertions [f] spaceId q 0 hbase
  exact ⟨c, session', happend, hcommit, hshows⟩

/-- The end of an aliasing: the alias is written unless it names something. -/
theorem Shows.aliasEnd (h : Shows Γ session facts) (hs : Sound facts) {a : String} (ha : ∀ q, Names facts q a → q = p) :
    (Names facts p a ∧ (predicateIds Γ session a).isEmpty = false) ∨
      ((∀ q, ¬Names facts q a) ∧ (predicateIds Γ session a).isEmpty = true) := by
  by_cases hpa : Names facts p a
  · exact .inl ⟨hpa, by rw [h.predicateIds_eq hs hpa]; rfl⟩
  · have hnone : ∀ q, ¬Names facts q a := by
      intro q hq
      rw [ha q hq] at hq
      exact hpa hq
    exact .inr ⟨hnone, by rw [h.predicateIds_nil hnone]; rfl⟩

/-- Registering a predicate throws, or finds the one that `x` names, or makes `x` one; what named nothing but the predicate of `x` before
names nothing else after. -/
theorem Shows.registerApart (h : Shows Γ session facts) (hc : Coherent facts) (x : String) :
    (∃ fault, registerPredicate Γ print x session = (.error fault, session)) ∨
      ∃ p session₁ facts₁, registerPredicate Γ print x session = (.ok (.str p), session₁) ∧ Shows Γ session₁ facts₁ ∧
        Coherent facts₁ ∧ (∀ {q y}, Names facts q y → Names facts₁ q y) ∧ Names facts₁ p x ∧
        (∀ y, (∀ q, Names facts q y → Names facts q x) → ∀ q, Names facts₁ q y → q = p) ∧
        (facts₁ = facts ∨ (∀ q, ¬Names facts q x) ∧ p = x ∧ facts₁ = facts ++ registration x) := by
  rcases @Shows.register Γ print session facts h hc x with ⟨p, hp, hok⟩ | ⟨-, -, herror⟩ | ⟨hx, ⟨session₁, hok, hshows⟩, hc₁⟩
  · exact .inr ⟨p, session, facts, hok, h, hc, id, hp, fun y hy q hq => hc.functional (hy q hq) hp, .inl rfl⟩
  · exact .inl herror
  · refine .inr ⟨x, session₁, _, hok, hshows, hc₁, (grows_registration facts x).keeps,
      names_append_iff.2 (.inr (names_registration_iff.2 ⟨rfl, .inl rfl⟩)), fun y hy q hq => ?_, .inr ⟨hx, rfl, rfl⟩⟩
    rcases names_append_iff.1 hq with hq | hq
    · exact absurd (hy q hq) (hx q)
    · exact (names_registration_iff.1 hq).1

/-- An aliasing throws and changes nothing, or names what was named and more. -/
theorem Shows.aliasPredicate (h : Shows Γ session facts) (hc : Coherent facts) (x a : String) :
    (∃ fault, Schema.aliasPredicate Γ print x a session = (.error fault, session)) ∨
      ∃ pid session' facts', Schema.aliasPredicate Γ print x a session = (.ok pid, session') ∧ Shows Γ session' facts' ∧
        Coherent facts' ∧ ∀ {p y}, Names facts p y → Names facts' p y := by
  obtain ⟨r, hr, hriff⟩ := h.resolve_cases hc.toSound x
  unfold Schema.aliasPredicate
  rw [bind_of_ok (get_run session), bind_of_ok (lift_ok hr)]
  cases hcollides : collides (predicateIds Γ session a) (r.map Term.str) with
  | true => exact .inl ⟨_, bind_of_error (throw_run _ _)⟩
  | false =>
    have ha := h.collides_eq_false hc.toSound hcollides
    simp only [Bool.false_eq_true, if_false]
    -- The predicate is registered, and the alias names it alone.
    rcases @Shows.registerApart Γ print session facts h hc x with
      ⟨fault, herror⟩ | ⟨p, session₁, facts₁, hok, hshows₁, hc₁, hkeeps, hp, halone, -⟩
    · exact .inl ⟨fault, bind_of_error herror⟩
    · refine .inr ?_
      rw [bind_of_ok hok, bind_of_ok (get_run session₁)]
      rcases hshows₁.aliasEnd hc₁.toSound (halone a fun q hq => (hriff q).1 (ha q hq)) with ⟨-, hempty⟩ | ⟨hnone, hempty⟩
      · rw [hempty]
        exact ⟨.str p, session₁, facts₁, rfl, hshows₁, hc₁, hkeeps⟩
      · obtain ⟨c, session₂, hassert, hcommit, hshows₂⟩ := hshows₁.commitAssertion ⟨p, predicateAliasPredicate, a⟩
        rw [hempty]
        refine ⟨.str p, session₂, _, ?_, hshows₂, hc₁.alias hp fun q hq => absurd hq (hnone q), fun hy =>
          names_append_iff.2 (.inl (hkeeps hy))⟩
        rw [if_pos rfl, bind_of_ok (lift_ok hshows₁.openBuilder), bind_of_ok (lift_ok hassert)]
        exact bind_of_ok hcommit

/-! ## Renamings -/

/-- The old name of a predicate that is renamed becomes an alias of it, if it is none. -/
theorem Shows.keepOldName (h : Shows Γ session facts) (hc : Coherent facts) (hlast : (namesOf facts p).getLast? = some c) :
    ∃ session' facts', Schema.keepOldName Γ (.str p) c session = (.ok (), session') ∧ Shows Γ session' facts' ∧ Coherent facts' ∧
      ⟨p, predicateAliasPredicate, c⟩ ∈ facts' ∧ (∀ q, namesOf facts' q = namesOf facts q) ∧
      ∀ q y, Names facts' q y ↔ Names facts q y := by
  have hname : Names facts p c := .inl (mem_namesOf_iff.1 (List.mem_of_getLast? hlast))
  have haliases : (Fram.byT23 Γ session.view (.str predicateAliasPredicate) (.str c)).isEmpty =
      (facts.filter (Fact.fits none (some predicateAliasPredicate) (some c))).isEmpty := by
    have hmap := congrArg List.isEmpty (h.byT23 predicateAliasPredicate c)
    rwa [List.isEmpty_map, List.isEmpty_map] at hmap
  unfold Schema.keepOldName
  rw [bind_of_ok (get_run session)]
  simp only [h.predicateIds_eq hc.toSound hname, collides, str_eqv_iff.2 rfl, Bool.not_true, List.isEmpty_cons, Bool.false_or, haliases,
    Bool.not_eq_true']
  by_cases hmem : ⟨p, predicateAliasPredicate, c⟩ ∈ facts
  · have hfound : (facts.filter (Fact.fits none (some predicateAliasPredicate) (some c))).isEmpty = false := by
      refine List.isEmpty_eq_false_iff.2 (List.ne_nil_of_mem (List.mem_filter.2 ⟨hmem, ?_⟩))
      simp [Fact.fits]
    rw [hfound, if_pos rfl]
    exact ⟨session, facts, rfl, h, hc, hmem, fun _ => rfl, fun _ _ => Iff.rfl⟩
  · have hfound : (facts.filter (Fact.fits none (some predicateAliasPredicate) (some c))).isEmpty = true := by
      rw [List.isEmpty_iff, List.filter_eq_nil_iff]
      rintro ⟨s, r, v⟩ hf hfits
      simp only [Fact.fits, Option.all_none, Option.all_some, Bool.true_and, Bool.and_eq_true, decide_eq_true_eq] at hfits
      obtain ⟨rfl, rfl⟩ := hfits
      rw [hc.functional (.inr hf) hname] at hf
      exact hmem hf
    obtain ⟨c', session', hassert, hcommit, hshows⟩ := h.commitAssertion ⟨p, predicateAliasPredicate, c⟩
    rw [hfound, if_neg (by decide), bind_of_ok (lift_ok h.openBuilder), bind_of_ok (lift_ok hassert)]
    refine ⟨session', _, hcommit, hshows, hc.alias hname fun q hq => hc.functional hq hname, List.mem_append_right _ (by simp),
      fun q => ?_, fun q y => ?_⟩
    · rw [namesOf_append, namesOf_alias, List.append_nil]
    · rw [names_append_iff, names_alias_iff]
      constructor
      · rintro (hq | ⟨rfl, rfl⟩)
        · exact hq
        · exact hname
      · exact .inl

/-- The end of a renaming: the new name has the alias that comes with it. -/
theorem Shows.renameEnd (h : Shows Γ session facts) (hs : Sound facts) {n : String} (hlast : (namesOf facts p).getLast? = some n)
    (ha : ∀ q, Names facts q (":" ++ n) → q = p)
    (hmarked : ∀ q d, q ≠ p → (namesOf facts q).getLast? = some d → ⟨q, predicateAliasPredicate, ":" ++ d⟩ ∈ facts) :
    ∃ pid session' facts', Schema.aliasPredicate Γ print n (":" ++ n) session = (.ok pid, session') ∧ Shows Γ session' facts' ∧
      Coherent facts' ∧ ∀ {q y}, Names facts q y → Names facts' q y := by
  have hname : Names facts p n := .inl (mem_namesOf_iff.1 (List.mem_of_getLast? hlast))
  have hcollides : collides (predicateIds Γ session (":" ++ n)) (some (.str p)) = false := by
    rcases h.aliasEnd hs ha with ⟨hpa, -⟩ | ⟨hnone, -⟩
    · rw [h.predicateIds_eq hs hpa]
      simp [collides, str_eqv_iff]
    · rw [h.predicateIds_nil hnone]
      rfl
  unfold Schema.aliasPredicate
  rw [bind_of_ok (get_run session), bind_of_ok (lift_ok (h.resolvePredicate_eq hs hname))]
  simp only [hcollides, Bool.false_eq_true, if_false]
  rcases @Shows.registerNamed Γ print session facts p n n h hs hname hlast ha with ⟨hpa, hok⟩ | ⟨-, session', hok, hshows⟩
  · rw [bind_of_ok hok, bind_of_ok (get_run session), h.predicateIds_eq hs hpa]
    refine ⟨.str p, session, facts, rfl, h, ⟨hs, ?_⟩, id⟩
    intro q d hd
    by_cases hq : q = p
    · subst hq
      obtain rfl : d = n := by
        rw [hlast, Option.some.injEq] at hd
        exact hd.symm
      rcases hpa with hpa | hpa
      · refine hs.kept (mem_namesOf_iff.2 hpa) hlast fun heq => ?_
        have hlen := congrArg String.length heq
        rw [String.length_append] at hlen
        simp at hlen
      · exact hpa
    · exact hmarked q d hq hd
  · have hsound := hs.alias (a := ":" ++ n) hname ha
    have hpa : Names (facts ++ [⟨p, predicateAliasPredicate, ":" ++ n⟩]) p (":" ++ n) := by
      rw [names_append_iff, names_alias_iff]
      exact .inr ⟨rfl, rfl⟩
    rw [bind_of_ok hok, bind_of_ok (get_run session'), hshows.predicateIds_eq hsound hpa]
    refine ⟨.str p, session', _, rfl, hshows, ⟨hsound, ?_⟩, fun hy => names_append_iff.2 (.inl hy)⟩
    intro q d hd
    rw [namesOf_append, namesOf_alias, List.append_nil] at hd
    by_cases hq : q = p
    · subst hq
      obtain rfl : d = n := by
        rw [hlast, Option.some.injEq] at hd
        exact hd.symm
      exact List.mem_append_right _ (by simp)
    · exact List.mem_append_left _ (hmarked q d hq hd)

/-- What a renaming writes of names goes to the names: their spelling names its own predicate already, or neither the predicate nor its new
name is of that spelling or of the alias that comes with it. -/
def Renames (facts : List Fact) (x n : String) : Prop :=
  Reserved facts predicateNamePredicate ∧ (x = predicateNamePredicate ∨ (∃ p, Names facts p predicateNamePredicate) ∨
    (x ≠ ":" ++ predicateNamePredicate ∧ n ≠ predicateNamePredicate ∧ n ≠ ":" ++ predicateNamePredicate))

/-- The new name is written, once the predicate is registered and its old name is an alias. -/
theorem Shows.writeName (h : Shows Γ session facts) (hc : Coherent facts) {n : String} (hlast : (namesOf facts p).getLast? = some c)
    (hold : ⟨p, predicateAliasPredicate, c⟩ ∈ facts) (hn : ∀ q, Names facts q n → q = p) (ha : ∀ q, Names facts q (":" ++ n) → q = p)
    (hr : Reserved facts predicateNamePredicate) (hclear : (∃ q, Names facts q predicateNamePredicate) ∨
      (n ≠ predicateNamePredicate ∧ n ≠ ":" ++ predicateNamePredicate)) :
    ∃ c' session' facts', Schema.assert Γ print (.str p) predicateNamePredicate (.str n) session = (.ok c', session') ∧
      Shows Γ session' facts' ∧ Sound facts' ∧ (namesOf facts' p).getLast? = some n ∧ (∀ q, Names facts' q (":" ++ n) → q = p) ∧
      (∀ q d, q ≠ p → (namesOf facts' q).getLast? = some d → ⟨q, predicateAliasPredicate, ":" ++ d⟩ ∈ facts') ∧
      ∀ {q y}, Names facts q y → Names facts' q y := by
  have hpc : Names facts p c := .inr hold
  obtain ⟨session₁, facts₁, hok₁, hshows₁, hc₁, -, hfacts₁⟩ := @Shows.registerReserved Γ print session facts h hc _ hr
  -- What the registration may add has nothing to do with the predicate and its new name.
  have hadded : (∀ {q y}, Names facts q y → Names facts₁ q y) ∧ (namesOf facts₁ p).getLast? = some c ∧
      ⟨p, predicateAliasPredicate, c⟩ ∈ facts₁ ∧ (∀ q, Names facts₁ q n → q = p) ∧ ∀ q, Names facts₁ q (":" ++ n) → q = p := by
    rcases hfacts₁ with rfl | ⟨hnone, rfl⟩
    · exact ⟨id, hlast, hold, hn, ha⟩
    · obtain ⟨hn₁, hn₂⟩ := hclear.resolve_left fun hq => hnone _ hq.choose_spec
      have hp : p ≠ predicateNamePredicate := by
        rintro rfl
        exact hnone _ (hc.own hpc)
      refine ⟨(grows_registration _ _).keeps, ?_, List.mem_append_left _ hold, fun q hq => ?_, fun q hq => ?_⟩
      · rw [namesOf_append, namesOf_registration, if_neg hp, List.append_nil]
        exact hlast
      · rcases (grows_registration _ _).adds hq with hq | ⟨hmem, hx⟩
        · exact hn q hq
        · rw [List.mem_singleton.1 hmem] at hx
          exact absurd hx (not_or.2 ⟨hn₁, hn₂⟩)
      · rcases (grows_registration _ _).adds hq with hq | ⟨hmem, hx⟩
        · exact ha q hq
        · rw [List.mem_singleton.1 hmem] at hx
          rcases hx with hx | hx
          · exact absurd hx.symm (ne_colon (by decide) n)
          · exact absurd (colon_append_inj hx) hn₁
  obtain ⟨hkeeps₁, hlast₁, hold₁, hn₁, ha₁⟩ := hadded
  obtain ⟨c', session', single, hok, hshows⟩ := hshows₁.assertRegistered hc₁.toSound ⟨p, predicateNamePredicate, n⟩ predicateNamePredicate
  have hiff := fun q y => @names_renamed_iff facts₁ p q y single n c hc₁.toSound hlast₁ hold₁
  refine ⟨c', session', _, ?_, hshows, hc₁.toSound.renamed hlast₁ hold₁ hn₁, ?_, fun q hq => ?_, fun q d hq hd => ?_,
    fun hy => (hiff _ _).2 (.inl (hkeeps₁ hy))⟩
  · rw [Schema.assert, bind_of_ok hok₁]
    exact hok
  · obtain ⟨l, hl, -⟩ := @namesOf_renamed facts₁ p single n
    rw [hl]
    simp
  · rcases (hiff q _).1 hq with hq | ⟨hq, -⟩
    · exact ha₁ q hq
    · exact hq
  · have hother : namesOf (written single facts₁ ⟨p, predicateNamePredicate, n⟩) q = namesOf facts₁ q := by
      rw [namesOf, filter_written (.inl (Ne.symm hq))]
      rfl
    rw [hother] at hd
    exact mem_written_iff.2 (.inr ⟨hc₁.marked hd, .inr (by simp [Fact.fits, predicateName_ne_alias])⟩)

/-- A renaming throws and changes nothing, or names what was named and more. -/
theorem Shows.renamePredicate (h : Shows Γ session facts) (hc : Coherent facts) {n : String} (hrenames : Renames facts x n) :
    (∃ fault, Schema.renamePredicate Γ print x n session = (.error fault, session)) ∨
      ∃ pid session' facts', Schema.renamePredicate Γ print x n session = (.ok pid, session') ∧ Shows Γ session' facts' ∧
        Coherent facts' ∧ ∀ {p y}, Names facts p y → Names facts' p y := by
  obtain ⟨hr, hclear⟩ := hrenames
  obtain ⟨r, hresolve, hriff⟩ := h.resolve_cases hc.toSound x
  unfold Schema.renamePredicate
  rw [bind_of_ok (get_run session), bind_of_ok (lift_ok hresolve)]
  cases hcollides : collides (predicateIds Γ session n) (r.map Term.str) with
  | true => exact .inl ⟨_, bind_of_error (throw_run _ _)⟩
  | false =>
    simp only [Bool.false_eq_true, if_false]
    cases hcollides' : collides (predicateIds Γ session (":" ++ n)) (r.map Term.str) with
    | true => exact .inl ⟨_, bind_of_error (throw_run _ _)⟩
    | false =>
      simp only [Bool.false_eq_true, if_false]
      have hn := h.collides_eq_false hc.toSound hcollides
      have ha := h.collides_eq_false hc.toSound hcollides'
      -- The predicate is registered; its new name, and the alias that comes with it, name it alone.
      rcases @Shows.registerApart Γ print session facts h hc x with
        ⟨fault, herror⟩ | ⟨p, session₁, facts₁, hok₁, hshows₁, hc₁, hkeeps₁, hp, halone, hfacts₁⟩
      · exact .inl ⟨fault, bind_of_error herror⟩
      · refine .inr ?_
        have hn₁ := halone n fun q hq => (hriff q).1 (hn q hq)
        have ha₁ := halone (":" ++ n) fun q hq => (hriff q).1 (ha q hq)
        have hr₁ : Reserved facts₁ predicateNamePredicate := by
          rcases hfacts₁ with rfl | ⟨hx, rfl, rfl⟩
          · exact hr
          · rcases hclear with rfl | hq | hne
            · intro q hq
              rcases hq with hq | hq <;> rcases names_append_iff.1 hq with hq' | hq'
              · exact hr q (.inl hq')
              · exact (names_registration_iff.1 hq').1
              · exact hr q (.inr hq')
              · exact (names_registration_iff.1 hq').1
            · exact Clear.register ⟨hr, fun _ => hq⟩ hc (by decide) hx
            · exact Clear.register ⟨hr, fun hx => absurd hx hne.1⟩ hc (by decide) hx
        have hclear₁ : (∃ q, Names facts₁ q predicateNamePredicate) ∨
            (n ≠ predicateNamePredicate ∧ n ≠ ":" ++ predicateNamePredicate) := by
          rcases hclear with rfl | ⟨q, hq⟩ | hne
          · exact .inl ⟨p, hp⟩
          · exact .inl ⟨q, hkeeps₁ hq⟩
          · exact .inr hne.2
        obtain ⟨old, hlast⟩ := Option.isSome_iff_exists.1 (List.getLast?_isSome.2 (hc₁.named hp))
        rw [bind_of_ok hok₁, bind_of_ok (get_run session₁), @Shows.predicateName_eq Γ print session₁ facts₁ p hshows₁ old hlast]
        by_cases hsame : old = n
        · rw [if_pos hsame]
          exact ⟨.str p, session₁, facts₁, rfl, hshows₁, hc₁, hkeeps₁⟩
        · rw [if_neg hsame]
          obtain ⟨session₂, facts₂, hok₂, hshows₂, hc₂, hold, hnames₂, hiff₂⟩ := hshows₁.keepOldName hc₁ hlast
          rw [← hnames₂] at hlast
          simp only [← hiff₂] at hn₁ ha₁ hclear₁
          have hr₂ : Reserved facts₂ predicateNamePredicate := by
            intro q hq
            rw [hiff₂, hiff₂] at hq
            exact hr₁ q hq
          obtain ⟨c', session₃, facts₃, hok₃, hshows₃, hs₃, hlast₃, ha₃, hmarked₃, hkeeps₃⟩ :=
            @Shows.writeName Γ print session₂ facts₂ p old hshows₂ hc₂ n hlast hold hn₁ ha₁ hr₂ hclear₁
          obtain ⟨pid, session₄, facts₄, hok₄, hshows₄, hc₄, hkeeps₄⟩ :=
            @Shows.renameEnd Γ print session₃ facts₃ p hshows₃ hs₃ n hlast₃ ha₃ hmarked₃
          refine ⟨.str p, session₄, facts₄, ?_, hshows₄, hc₄, fun hy => hkeeps₄ (hkeeps₃ ((hiff₂ _ _).2 (hkeeps₁ hy)))⟩
          rw [bind_of_ok hok₂, bind_of_ok hok₃, bind_of_ok hok₄]
          rfl

/-! ## Setting up -/

/-- The predicates that a session is set up with. -/
def machinery : List String :=
  [cardinalityPredicate, valueKindPredicate, namePredicate, predicateNamePredicate, predicateAliasPredicate]

theorem head_machinery : ∀ m ∈ machinery, m.toList.head? ≠ some ':' := by decide

/-- A definition of a predicate of the machinery, when all of it is reserved. -/
theorem Shows.defMachinery (h : Shows Γ session facts) (hc : Coherent facts) (hr : ∀ m ∈ machinery, Reserved facts m) {pname : String}
    (hp : pname ∈ machinery) (card kind : String) :
    ∃ pid session' facts', Schema.defPredicate Γ print pname card kind session = (.ok pid, session') ∧ Shows Γ session' facts' ∧
      Coherent facts' ∧ (∀ m ∈ machinery, Reserved facts' m) ∧ ∀ {p y}, Names facts p y → Names facts' p y := by
  have hclear : ∀ m ∈ machinery, Clear facts m pname := fun m hm => ⟨hr m hm, fun hx => absurd hx (ne_colon (head_machinery _ hp) m)⟩
  rcases @Shows.defPredicate Γ print session facts h hc pname (hclear _ (by decide)) (hclear _ (by decide)) card kind with
    ⟨hx, ⟨q, hq⟩, -⟩ | ⟨pid, session', facts', hok, hshows, hc', hgrows⟩
  · obtain rfl := hr _ hp q (.inr hq)
    exact absurd (hc.own hq) (hx _)
  · refine ⟨pid, session', facts', hok, hshows, hc', fun m hm => (hr m hm).grows hgrows fun x hx => ?_, hgrows.keeps⟩
    have hxm : x ∈ machinery := by
      simp only [List.mem_cons, List.not_mem_nil, or_false] at hx
      rcases hx with rfl | rfl | rfl
      · exact hp
      · decide
      · decide
    exact ⟨ne_colon (head_machinery _ hxm) m, ne_colon (head_machinery _ hm) x⟩

/-- A session is set up when all of the machinery is reserved. -/
theorem Shows.setup (h : Shows Γ session facts) (hc : Coherent facts) (hr : ∀ m ∈ machinery, Reserved facts m) :
    ∃ session' facts', Schema.setup Γ print session = (.ok (), session') ∧ Shows Γ session' facts' ∧ Coherent facts' ∧
      ∀ {p y}, Names facts p y → Names facts' p y := by
  obtain ⟨_, s₁, f₁, hok₁, h₁, hc₁, hr₁, hk₁⟩ :=
    @Shows.defMachinery Γ print session facts h hc hr cardinalityPredicate (by decide) single literalKind
  obtain ⟨_, s₂, f₂, hok₂, h₂, hc₂, hr₂, hk₂⟩ :=
    @Shows.defMachinery Γ print s₁ f₁ h₁ hc₁ hr₁ valueKindPredicate (by decide) single literalKind
  obtain ⟨_, s₃, f₃, hok₃, h₃, hc₃, hr₃, hk₃⟩ := @Shows.defMachinery Γ print s₂ f₂ h₂ hc₂ hr₂ namePredicate (by decide) single literalKind
  obtain ⟨_, s₄, f₄, hok₄, h₄, hc₄, hr₄, hk₄⟩ :=
    @Shows.defMachinery Γ print s₃ f₃ h₃ hc₃ hr₃ predicateNamePredicate (by decide) single literalKind
  obtain ⟨_, s₅, f₅, hok₅, h₅, hc₅, -, hk₅⟩ :=
    @Shows.defMachinery Γ print s₄ f₄ h₄ hc₄ hr₄ predicateAliasPredicate (by decide) multi literalKind
  refine ⟨s₅, f₅, ?_, h₅, hc₅, fun hy => hk₅ (hk₄ (hk₃ (hk₂ (hk₁ hy))))⟩
  rw [Schema.setup, bind_of_ok hok₁, bind_of_ok hok₂, bind_of_ok hok₃, bind_of_ok hok₄, bind_of_ok hok₅]
  rfl

end Writes

/-! ## Runs -/

/-- The operations on the names of predicates. -/
inductive NamingAct where
  | setup
  | register (spelling : String)
  | addAlias (spelling aliasName : String)
  | rename (spelling newName : String)
  | define (pname card kind : String)
  deriving DecidableEq

/-- An operation on the names of predicates, its result aside. -/
def NamingAct.run (Γ : Host) (print : Term → String) : NamingAct → SchemaM Unit
  | .setup => Schema.setup Γ print
  | .register spelling => do
    let _ ← registerPredicate Γ print spelling
    pure ()
  | .addAlias spelling aliasName => do
    let _ ← aliasPredicate Γ print spelling aliasName
    pure ()
  | .rename spelling newName => do
    let _ ← renamePredicate Γ print spelling newName
    pure ()
  | .define pname card kind => do
    let _ ← defPredicate Γ print pname card kind
    pure ()

/-- Neither the spelling nor the alias that comes with it resolves to another predicate than that of the spelling. -/
def KeepsOwn (Γ : Host) (session : Session) (m : String) : Prop :=
  ∀ p, resolvePredicate Γ session m = .ok (some p) ∨ resolvePredicate Γ session (":" ++ m) = .ok (some p) → p = .str m

/-- The operation does not meet a spelling of its machinery in the hands of another predicate, nor put one there: a definition writes of
cardinalities and kinds of values, a renaming of names, and a set up of all of the machinery. -/
def NamingAct.Unmixed (Γ : Host) (session : Session) : NamingAct → Prop
  | .setup => ∀ m ∈ machinery, KeepsOwn Γ session m
  | .register _ => True
  | .addAlias _ _ => True
  | .rename spelling newName => KeepsOwn Γ session predicateNamePredicate ∧
    (spelling = predicateNamePredicate ∨ (∃ p, resolvePredicate Γ session predicateNamePredicate = .ok (some p)) ∨
      (spelling ≠ ":" ++ predicateNamePredicate ∧ newName ≠ predicateNamePredicate ∧ newName ≠ ":" ++ predicateNamePredicate))
  | .define pname _ _ => ∀ m ∈ [cardinalityPredicate, valueKindPredicate],
    KeepsOwn Γ session m ∧ (pname = ":" ++ m → ∃ p, resolvePredicate Γ session m = .ok (some p))

/-- One operation that is unmixed. -/
def NamingStep (Γ : Host) (print : Term → String) (session session' : Session) : Prop :=
  ∃ act : NamingAct, act.Unmixed Γ session ∧ session' = (act.run Γ print session).2

section Runs

variable {Γ : Host} {print : Term → String} {session session' : Session} {facts : List Fact}

theorem Shows.reserved (h : Shows Γ session facts) (hs : Sound facts) {m : String} (hm : KeepsOwn Γ session m) : Reserved facts m := by
  rintro p (hp | hp)
  · have := hm (.str p) (.inl (h.resolvePredicate_eq hs hp))
    simpa using this
  · have := hm (.str p) (.inr (h.resolvePredicate_eq hs hp))
    simpa using this

theorem Shows.exists_names (h : Shows Γ session facts) (hs : Sound facts) {m : String}
    (hm : ∃ p, resolvePredicate Γ session m = .ok (some p)) : ∃ p, Names facts p m := by
  obtain ⟨t, ht⟩ := hm
  obtain ⟨p, -, hp⟩ := (h.resolvePredicate_iff hs).1 ht
  exact ⟨p, hp⟩

/-- An unmixed operation throws and changes nothing, or names what was named and more. -/
theorem Shows.act (h : Shows Γ session facts) (hc : Coherent facts) (act : NamingAct) (hu : act.Unmixed Γ session) :
    (∃ fault, act.run Γ print session = (.error fault, session)) ∨
      ∃ session' facts', act.run Γ print session = (.ok (), session') ∧ Shows Γ session' facts' ∧ Coherent facts' ∧
        ∀ {p y}, Names facts p y → Names facts' p y := by
  cases act with
  | setup =>
    obtain ⟨session', facts', hok, hrest⟩ := @Shows.setup Γ print session facts h hc fun m hm => h.reserved hc.toSound (hu m hm)
    exact .inr ⟨session', facts', hok, hrest⟩
  | register spelling =>
    rcases @Shows.register Γ print session facts h hc spelling with
      ⟨p, -, hok⟩ | ⟨-, -, fault, herror⟩ | ⟨-, ⟨session', hok, hshows⟩, hc'⟩
    · exact .inr ⟨session, facts, bind_of_ok hok, h, hc, id⟩
    · exact .inl ⟨fault, bind_of_error herror⟩
    · exact .inr ⟨session', _, bind_of_ok hok, hshows, hc', (grows_registration _ _).keeps⟩
  | addAlias spelling aliasName =>
    rcases @Shows.aliasPredicate Γ print session facts h hc spelling aliasName with
      ⟨fault, herror⟩ | ⟨pid, session', facts', hok, hrest⟩
    · exact .inl ⟨fault, bind_of_error herror⟩
    · exact .inr ⟨session', facts', bind_of_ok hok, hrest⟩
  | rename spelling newName =>
    have hrenames : Renames facts spelling newName := by
      refine ⟨h.reserved hc.toSound hu.1, ?_⟩
      rcases hu.2 with hx | hm | hne
      · exact .inl hx
      · exact .inr (.inl (h.exists_names hc.toSound hm))
      · exact .inr (.inr hne)
    rcases @Shows.renamePredicate Γ print session facts spelling h hc newName hrenames with
      ⟨fault, herror⟩ | ⟨pid, session', facts', hok, hrest⟩
    · exact .inl ⟨fault, bind_of_error herror⟩
    · exact .inr ⟨session', facts', bind_of_ok hok, hrest⟩
  | define pname card kind =>
    have hclear : ∀ m ∈ [cardinalityPredicate, valueKindPredicate], Clear facts m pname := fun m hm =>
      ⟨h.reserved hc.toSound (hu m hm).1, fun hx => h.exists_names hc.toSound ((hu m hm).2 hx)⟩
    rcases @Shows.defPredicate Γ print session facts h hc pname (hclear _ (by decide)) (hclear _ (by decide)) card kind with
      ⟨-, -, fault, herror⟩ | ⟨pid, session', facts', hok, hshows, hc', hgrows⟩
    · exact .inl ⟨fault, bind_of_error herror⟩
    · exact .inr ⟨session', facts', bind_of_ok hok, hshows, hc', hgrows.keeps⟩

/-- Unmixed operations keep the facts coherent, and all that they name. -/
theorem Shows.run (h : Shows Γ session facts) (hc : Coherent facts) (hrun : Relation.ReflTransGen (NamingStep Γ print) session session') :
    ∃ facts', Shows Γ session' facts' ∧ Coherent facts' ∧ ∀ {p y}, Names facts p y → Names facts' p y := by
  induction hrun with
  | refl => exact ⟨facts, h, hc, id⟩
  | tail _ hstep ih =>
    obtain ⟨facts₁, h₁, hc₁, hkeeps⟩ := ih
    obtain ⟨act, hu, rfl⟩ := hstep
    rcases @Shows.act Γ print _ facts₁ h₁ hc₁ act hu with ⟨fault, herror⟩ | ⟨session₂, facts₂, hok, h₂, hc₂, hkeeps₂⟩
    · rw [herror]
      exact ⟨facts₁, h₁, hc₁, hkeeps⟩
    · rw [hok]
      exact ⟨facts₂, h₂, hc₂, fun hy => hkeeps₂ (hkeeps hy)⟩

end Runs

/-- A new session shows nothing. -/
theorem shows_new {Γ : Host} {spaceId : String} {a t b : Nat} {s : TermStore} {session : Session}
    (hs : newTermStoreSized spaceId a t b = .ok s) (hsession : newSession Γ s = .ok session) : Shows Γ session [] := by
  obtain ⟨hrep, hspace, -⟩ := represents_newTermStoreSized Γ hs
  obtain ⟨session', hsession', -, hfor⟩ := newSession_ok hrep
  rw [hsession, Except.ok.injEq] at hsession'
  subst hsession'
  exact ⟨s.spaceId, [], hfor, rfl⟩

/-- In a run of unmixed operations on a new session, every spelling resolves to one predicate at most, a spelling that resolves to a
predicate keeps resolving to it, and an operation that throws changes no spelling's predicate. -/
theorem predicate_naming (Γ : Host) (print : Term → String) {spaceId : String} {a t b : Nat} {s : TermStore} {start : Session}
    (hs : newTermStoreSized spaceId a t b = .ok s) (hstart : newSession Γ s = .ok start) {session : Session}
    (hrun : Relation.ReflTransGen (NamingStep Γ print) start session) : (∀ spelling, (predicateIds Γ session spelling).length ≤ 1) ∧
      (∀ later, Relation.ReflTransGen (NamingStep Γ print) session later → ∀ spelling p,
        resolvePredicate Γ session spelling = .ok (some p) → resolvePredicate Γ later spelling = .ok (some p)) ∧
      ∀ (act : NamingAct) fault later, act.Unmixed Γ session → act.run Γ print session = (.error fault, later) → ∀ spelling,
        predicateIds Γ later spelling = predicateIds Γ session spelling := by
  obtain ⟨facts, h, hc, -⟩ := (shows_new hs hstart).run coherent_nil hrun
  refine ⟨fun spelling => ?_, fun later hlater spelling p hp => ?_, fun act fault later hu herror spelling => ?_⟩
  · by_cases hx : ∃ p, Names facts p spelling
    · obtain ⟨p, hx⟩ := hx
      rw [h.predicateIds_eq hc.toSound hx]
      exact le_refl 1
    · rw [h.predicateIds_nil (not_exists.1 hx)]
      exact Nat.zero_le 1
  · obtain ⟨facts', h', hc', hkeeps⟩ := h.run hc hlater
    obtain ⟨q, rfl, hq⟩ := (h.resolvePredicate_iff hc.toSound).1 hp
    exact h'.resolvePredicate_eq hc'.toSound (hkeeps hq)
  · rcases @Shows.act Γ print session facts h hc act hu with ⟨fault', herror'⟩ | ⟨session', facts', hok, -⟩
    · rw [herror'] at herror
      cases herror
      rfl
    · rw [hok] at herror
      cases herror

/-- The machinery is set up; then a predicate is registered, given an alias and renamed. -/
def namingActs : List NamingAct := [.setup, .register "a", .addAlias "a" "b", .rename "a" "c"]

/-- The session after operations. -/
def afterActs (acts : List NamingAct) (session : Session) : Session :=
  acts.foldl (fun session act => (act.run Host.zero (fun _ => "") session).2) session

/-- A set up, a registration, an alias and a renaming on a new session: all three spellings resolve to the predicate. -/
theorem predicate_naming_renamed : ∃ s start, newTermStoreSized "s" 0 0 0 = .ok s ∧ newSession Host.zero s = .ok start ∧
    (∀ spelling, (predicateIds Host.zero (afterActs namingActs start) spelling).length ≤ 1) ∧
    ∀ spelling ∈ ["a", "b", "c"], resolvePredicate Host.zero (afterActs namingActs start) spelling = .ok (some (.str "a")) := by
  obtain ⟨s, start, hs, hstart, hnone, hown, hall⟩ : ∃ s start, newTermStoreSized "s" 0 0 0 = .ok s ∧ newSession Host.zero s = .ok start ∧
      (∀ m ∈ machinery, ∀ spelling ∈ [m, ":" ++ m], resolvePredicate Host.zero start spelling = .ok none) ∧
      (∀ spelling ∈ [predicateNamePredicate, ":" ++ predicateNamePredicate],
        resolvePredicate Host.zero (afterActs (namingActs.take 3) start) spelling = .ok (some (.str predicateNamePredicate))) ∧
      ∀ spelling ∈ ["a", "b", "c"], resolvePredicate Host.zero (afterActs namingActs start) spelling = .ok (some (.str "a")) :=
    ⟨_, _, rfl, rfl, by decide +kernel, by decide +kernel, by decide +kernel⟩
  have hsetup : NamingAct.setup.Unmixed Host.zero start := by
    intro m hm p hp
    rw [hnone m hm m (by simp), hnone m hm (":" ++ m) (by simp)] at hp
    rcases hp with hp | hp <;> cases hp
  have hrename : (NamingAct.rename "a" "c").Unmixed Host.zero (afterActs (namingActs.take 3) start) := by
    refine ⟨fun p hp => ?_, .inr (.inl ⟨_, hown predicateNamePredicate (by simp)⟩)⟩
    rw [hown predicateNamePredicate (by simp), hown (":" ++ predicateNamePredicate) (by simp)] at hp
    rcases hp with hp | hp <;> cases hp <;> rfl
  have hrun : Relation.ReflTransGen (NamingStep Host.zero fun _ => "") start (afterActs namingActs start) :=
    (((Relation.ReflTransGen.single ⟨.setup, hsetup, rfl⟩).tail ⟨.register "a", trivial, rfl⟩).tail
      ⟨.addAlias "a" "b", trivial, rfl⟩).tail ⟨.rename "a" "c", hrename, rfl⟩
  exact ⟨s, start, hs, hstart, (predicate_naming Host.zero (fun _ => "") hs hstart hrun).1, hall⟩

/-- A renaming to the spelling of names in a session that has not been set up: it throws, `a` resolves that did not before, and the spelling
of names has two predicates. -/
theorem predicate_naming_mixed : ∃ s start, newTermStoreSized "s" 0 0 0 = .ok s ∧ newSession Host.zero s = .ok start ∧
    (∃ fault, (NamingAct.run Host.zero (fun _ => "") (.rename "a" predicateNamePredicate) start).1 = .error fault) ∧
    predicateIds Host.zero start "a" = [] ∧
    predicateIds Host.zero (NamingAct.run Host.zero (fun _ => "") (.rename "a" predicateNamePredicate) start).2 "a" = [.str "a"] ∧
    predicateIds Host.zero (NamingAct.run Host.zero (fun _ => "") (.rename "a" predicateNamePredicate) start).2 predicateNamePredicate =
      [.str predicateNamePredicate, .str "a"] := by
  refine ⟨_, _, rfl, rfl, ⟨untyped ("predicate spelling collision: " ++ predicateNamePredicate), ?_⟩, ?_, ?_, ?_⟩
  · rfl
  · rfl
  · rfl
  · rfl

end Fram.Schema
