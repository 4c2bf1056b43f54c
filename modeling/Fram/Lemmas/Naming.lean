import Fram.Lemmas.SingleUpdate

/-!
# The names of predicates

A session whose live propositions are of strings shows a list of facts (`Shows`). Facts are sound when every spelling names one predicate
at most, and every named predicate has a name and is named by its own spelling; they are coherent when its last name has the alias that
comes with it (`Coherent`). What the writes of a schema do is said at such facts.
-/

namespace Fram.Schema

open Stateful

/-! ## Facts -/

/-- A proposition of strings. -/
structure Fact where
  subject : String
  predicate : String
  value : String
  deriving DecidableEq

/-- The proposition of a fact. -/
def Fact.triple (f : Fact) : Triple := ⟨.str f.subject, .str f.predicate, .str f.value⟩

/-- The fact fits a pattern of strings. -/
def Fact.fits (subject predicate value : Option String) (f : Fact) : Bool :=
  subject.all (· = f.subject) && (predicate.all (· = f.predicate) && value.all (· = f.value))

/-- The spelling is a name or an alias of the predicate. -/
def Names (facts : List Fact) (p x : String) : Prop :=
  ⟨p, predicateNamePredicate, x⟩ ∈ facts ∨ ⟨p, predicateAliasPredicate, x⟩ ∈ facts

/-- The names of a predicate, aliases apart, in the order of the facts. -/
def namesOf (facts : List Fact) (p : String) : List String :=
  (facts.filter (Fact.fits (some p) (some predicateNamePredicate) none)).map (·.value)

/-- Every spelling names one predicate at most; a predicate that is named has a name, its own spelling names it, and so does the alias
that came with it, and its names but the last are aliases too. -/
structure Sound (facts : List Fact) : Prop where
  functional : ∀ {p q x}, Names facts p x → Names facts q x → p = q
  own : ∀ {p x}, Names facts p x → Names facts p p
  coloned : ∀ {p x}, Names facts p x → Names facts p (":" ++ p)
  named : ∀ {p x}, Names facts p x → namesOf facts p ≠ []
  kept : ∀ {p x c}, x ∈ namesOf facts p → (namesOf facts p).getLast? = some c → x ≠ c → ⟨p, predicateAliasPredicate, x⟩ ∈ facts

/-- The facts are sound, and the last name of a predicate has the alias that comes with it. -/
structure Coherent (facts : List Fact) : Prop extends Sound facts where
  marked : ∀ {p c}, (namesOf facts p).getLast? = some c → ⟨p, predicateAliasPredicate, ":" ++ c⟩ ∈ facts

section Facts

variable {facts more : List Fact} {p q x : String}

theorem mem_namesOf_iff : x ∈ namesOf facts p ↔ ⟨p, predicateNamePredicate, x⟩ ∈ facts := by
  simp only [namesOf, List.mem_map, List.mem_filter, Fact.fits, Option.all_some, Option.all_none, Bool.and_true, Bool.and_eq_true,
    decide_eq_true_eq]
  constructor
  · rintro ⟨⟨s, r, v⟩, ⟨hf, rfl, rfl⟩, rfl⟩
    exact hf
  · intro h
    exact ⟨_, ⟨h, rfl, rfl⟩, rfl⟩

theorem names_append_iff : Names (facts ++ more) p x ↔ Names facts p x ∨ Names more p x := by
  simp only [Names, List.mem_append]
  exact or_or_or_comm

theorem namesOf_append : namesOf (facts ++ more) p = namesOf facts p ++ namesOf more p := by
  rw [namesOf, List.filter_append, List.map_append]
  rfl

theorem coherent_nil : Coherent [] := by
  refine ⟨⟨?_, ?_, ?_, ?_, ?_⟩, ?_⟩ <;> intros <;> simp_all [Names, namesOf]

/-- Coherence is of the names and the aliases alone. -/
theorem Coherent.congr (h : Coherent facts) (hnames : ∀ p, namesOf more p = namesOf facts p)
    (halias : ∀ p x, ⟨p, predicateAliasPredicate, x⟩ ∈ more ↔ ⟨p, predicateAliasPredicate, x⟩ ∈ facts) : Coherent more := by
  have hiff : ∀ p x, Names more p x ↔ Names facts p x := by
    intro p x
    rw [Names, Names, halias, ← mem_namesOf_iff, ← mem_namesOf_iff, hnames]
  refine ⟨⟨?_, ?_, ?_, ?_, ?_⟩, ?_⟩
  · intro p q x hp hq
    exact h.functional ((hiff p x).1 hp) ((hiff q x).1 hq)
  · intro p x hp
    exact (hiff p p).2 (h.own ((hiff p x).1 hp))
  · intro p x hp
    exact (hiff p _).2 (h.coloned ((hiff p x).1 hp))
  · intro p x hp
    rw [hnames]
    exact h.named ((hiff p x).1 hp)
  · intro p x c hx hc hne
    rw [hnames] at hx hc
    exact (halias _ _).2 (h.kept hx hc hne)
  · intro p c hc
    rw [hnames] at hc
    exact (halias _ _).2 (h.marked hc)

/-- The facts of a predicate that is registered. -/
def registration (x : String) : List Fact := [⟨x, predicateNamePredicate, x⟩, ⟨x, predicateAliasPredicate, ":" ++ x⟩]

theorem predicateName_ne_alias : predicateNamePredicate ≠ predicateAliasPredicate := by decide

theorem names_registration_iff : Names (registration x) p q ↔ p = x ∧ (q = x ∨ q = ":" ++ x) := by
  simp only [Names, registration, List.mem_cons, Fact.mk.injEq, List.not_mem_nil, or_false, true_and, predicateName_ne_alias, false_and,
    and_false, predicateName_ne_alias.symm, false_or]
  constructor
  · rintro (⟨rfl, rfl⟩ | ⟨rfl, rfl⟩)
    · exact ⟨rfl, .inl rfl⟩
    · exact ⟨rfl, .inr rfl⟩
  · rintro ⟨rfl, rfl | rfl⟩
    · exact .inl ⟨rfl, rfl⟩
    · exact .inr ⟨rfl, rfl⟩

theorem namesOf_registration : namesOf (registration x) p = if p = x then [x] else [] := by
  unfold namesOf registration
  by_cases h : p = x
  · simp [Fact.fits, h, predicateName_ne_alias]
  · simp [Fact.fits, h]

/-- Nothing is known of a predicate whose own spelling names nothing. -/
theorem Sound.namesOf_eq_nil (h : Sound facts) (hx : ∀ p, ¬Names facts p x) : namesOf facts x = [] := by
  rw [List.eq_nil_iff_forall_not_mem]
  intro y hy
  exact hx x (h.own (.inl (mem_namesOf_iff.1 hy)))

/-- A predicate may be registered under a spelling that names nothing, with an alias that names nothing. -/
theorem Coherent.register (h : Coherent facts) (hx : ∀ p, ¬Names facts p x) (ha : ∀ p, ¬Names facts p (":" ++ x)) :
    Coherent (facts ++ registration x) := by
  have hnil := h.namesOf_eq_nil hx
  refine ⟨⟨?_, ?_, ?_, ?_, ?_⟩, ?_⟩
  · intro p q y hp hq
    rw [names_append_iff, names_registration_iff] at hp hq
    rcases hp with hp | ⟨rfl, hy⟩ <;> rcases hq with hq | ⟨rfl, hy'⟩
    · exact h.functional hp hq
    · rcases hy' with rfl | rfl
      · exact absurd hp (hx _)
      · exact absurd hp (ha _)
    · rcases hy with rfl | rfl
      · exact absurd hq (hx _)
      · exact absurd hq (ha _)
    · rfl
  · intro p y hp
    rw [names_append_iff, names_registration_iff] at hp ⊢
    rcases hp with hp | ⟨rfl, -⟩
    · exact .inl (h.own hp)
    · exact .inr ⟨rfl, .inl rfl⟩
  · intro p y hp
    rw [names_append_iff, names_registration_iff] at hp ⊢
    rcases hp with hp | ⟨rfl, -⟩
    · exact .inl (h.coloned hp)
    · exact .inr ⟨rfl, .inr rfl⟩
  · intro p y hp
    rw [names_append_iff, names_registration_iff] at hp
    rw [namesOf_append, namesOf_registration]
    rcases hp with hp | ⟨rfl, -⟩
    · exact List.append_ne_nil_of_left_ne_nil (h.named hp) _
    · simp
  · intro p y c hy hc hne
    rw [namesOf_append, namesOf_registration] at hy hc
    rw [List.mem_append]
    by_cases hp : p = x
    · subst hp
      simp only [hnil, if_true, List.nil_append, List.getLast?_singleton, Option.some.injEq, List.mem_singleton] at hy hc
      exact absurd (hy.trans hc) hne
    · rw [if_neg hp, List.append_nil] at hy hc
      exact .inl (h.kept hy hc hne)
  · intro p c hc
    rw [namesOf_append, namesOf_registration] at hc
    rw [List.mem_append]
    by_cases hp : p = x
    · subst hp
      simp only [hnil, if_true, List.nil_append, List.getLast?_singleton, Option.some.injEq] at hc
      subst hc
      exact .inr (by simp [registration])
    · rw [if_neg hp, List.append_nil] at hc
      exact .inl (h.marked hc)

theorem names_alias_iff {a : String} : Names [⟨q, predicateAliasPredicate, a⟩] p x ↔ p = q ∧ x = a := by
  simp [Names, predicateName_ne_alias]

theorem namesOf_alias {a : String} : namesOf [⟨q, predicateAliasPredicate, a⟩] p = [] := by
  simp [namesOf, Fact.fits, predicateName_ne_alias]

/-- A predicate may be given an alias that names nothing else. -/
theorem Sound.alias (h : Sound facts) {a : String} (hq : Names facts q x) (ha : ∀ p, Names facts p a → p = q) :
    Sound (facts ++ [⟨q, predicateAliasPredicate, a⟩]) := by
  refine ⟨?_, ?_, ?_, ?_, ?_⟩
  · intro p p' y hp hp'
    rw [names_append_iff, names_alias_iff] at hp hp'
    rcases hp with hp | ⟨rfl, rfl⟩ <;> rcases hp' with hp' | ⟨rfl, hy⟩
    · exact h.functional hp hp'
    · subst hy
      exact ha _ hp
    · exact (ha _ hp').symm
    · rfl
  · intro p y hp
    rw [names_append_iff, names_alias_iff] at hp ⊢
    rcases hp with hp | ⟨rfl, -⟩
    · exact .inl (h.own hp)
    · exact .inl (h.own hq)
  · intro p y hp
    rw [names_append_iff, names_alias_iff] at hp ⊢
    rcases hp with hp | ⟨rfl, -⟩
    · exact .inl (h.coloned hp)
    · exact .inl (h.coloned hq)
  · intro p y hp
    rw [names_append_iff, names_alias_iff] at hp
    rw [namesOf_append, namesOf_alias, List.append_nil]
    rcases hp with hp | ⟨rfl, -⟩
    · exact h.named hp
    · exact h.named hq
  · intro p y c hy hc hne
    rw [namesOf_append, namesOf_alias, List.append_nil] at hy hc
    exact List.mem_append_left _ (h.kept hy hc hne)

theorem Coherent.alias (h : Coherent facts) {a : String} (hq : Names facts q x) (ha : ∀ p, Names facts p a → p = q) :
    Coherent (facts ++ [⟨q, predicateAliasPredicate, a⟩]) := by
  refine ⟨h.toSound.alias hq ha, ?_⟩
  intro p c hc
  rw [namesOf_append, namesOf_alias, List.append_nil] at hc
  exact List.mem_append_left _ (h.marked hc)

/-! ## Renaming -/

/-- The facts once a fact is asserted: they may first lose those of its subject and predicate. -/
def written (single : Bool) (facts : List Fact) (f : Fact) : List Fact :=
  (if single then facts.filter fun g => !g.fits (some f.subject) (some f.predicate) none else facts) ++ [f]

theorem mem_written_iff {single : Bool} {f g : Fact} :
    g ∈ written single facts f ↔ g = f ∨ (g ∈ facts ∧ (single = false ∨ g.fits (some f.subject) (some f.predicate) none = false)) := by
  cases single <;> simp [written, or_comm]

theorem filter_written {single : Bool} {f : Fact} {s r : String} (h : f.subject ≠ s ∨ f.predicate ≠ r) :
    (written single facts f).filter (Fact.fits (some s) (some r) none) = facts.filter (Fact.fits (some s) (some r) none) := by
  have hf : f.fits (some s) (some r) none = false := by
    rcases h with h | h <;> simp [Fact.fits, Ne.symm h]
  cases single with
  | false => simp [written, hf]
  | true =>
    have hnone : [f].filter (Fact.fits (some s) (some r) none) = [] := by simp [hf]
    rw [Schema.written, if_pos rfl, List.filter_append, hnone, List.append_nil, List.filter_filter]
    refine List.filter_congr fun g _ => ?_
    cases hg : g.fits (some s) (some r) none with
    | false => rfl
    | true =>
      simp only [Fact.fits, Option.all_some, Option.all_none, Bool.and_true, Bool.and_eq_true, decide_eq_true_eq] at hg
      obtain ⟨rfl, rfl⟩ := hg
      rcases h with h | h <;> simp [Fact.fits, h]

/-- A fact of another predicate names nothing. -/
theorem Coherent.written (h : Coherent facts) {single : Bool} {f : Fact} (hn : f.predicate ≠ predicateNamePredicate)
    (ha : f.predicate ≠ predicateAliasPredicate) : Coherent (written single facts f) := by
  refine h.congr ?_ ?_
  · intro p
    rw [namesOf, filter_written (.inr hn)]
    rfl
  · intro p x
    rw [mem_written_iff]
    constructor
    · rintro (rfl | ⟨hx, -⟩)
      · exact absurd rfl ha
      · exact hx
    · intro hx
      exact .inr ⟨hx, .inr (by simp [Fact.fits, ha])⟩

theorem names_written {single : Bool} {f : Fact} (hn : f.predicate ≠ predicateNamePredicate)
    (ha : f.predicate ≠ predicateAliasPredicate) (h : Names facts p x) : Names (written single facts f) p x := by
  rcases h with h | h
  · exact .inl (mem_written_iff.2 (.inr ⟨h, .inr (by simp [Fact.fits, hn])⟩))
  · exact .inr (mem_written_iff.2 (.inr ⟨h, .inr (by simp [Fact.fits, ha])⟩))

section Renaming

variable {single : Bool} {n c : String} (h : Sound facts) (hlast : (namesOf facts p).getLast? = some c)
  (hc : ⟨p, predicateAliasPredicate, c⟩ ∈ facts) (hn : ∀ q, Names facts q n → q = p)

/-- The names of a predicate that is renamed. -/
theorem namesOf_renamed : ∃ l, namesOf (written single facts ⟨p, predicateNamePredicate, n⟩) p = l ++ [n] ∧
    ∀ y ∈ l, y ∈ namesOf facts p := by
  have hfits : Fact.fits (some p) (some predicateNamePredicate) none ⟨p, predicateNamePredicate, n⟩ = true := by simp [Fact.fits]
  cases single with
  | false => exact ⟨namesOf facts p, by simp [namesOf, written, hfits], fun y hy => hy⟩
  | true =>
    refine ⟨[], ?_, by simp⟩
    simp [namesOf, written, hfits, List.filter_filter]

include h hlast hc in
/-- A predicate that is renamed keeps all that names it, for its old names are aliases. -/
theorem names_renamed_iff : Names (written single facts ⟨p, predicateNamePredicate, n⟩) q x ↔ Names facts q x ∨ (q = p ∧ x = n) := by
  simp only [Names, mem_written_iff, Fact.mk.injEq, predicateName_ne_alias.symm, false_and, and_false, true_and, false_or]
  constructor
  · rintro ((⟨rfl, rfl⟩ | ⟨hx, -⟩) | ⟨hx, -⟩)
    · exact .inr ⟨rfl, rfl⟩
    · exact .inl (.inl hx)
    · exact .inl (.inr hx)
  · rintro ((hx | hx) | ⟨rfl, rfl⟩)
    · by_cases hq : q = p
      · subst hq
        refine .inr ⟨?_, .inr (by simp [Fact.fits, predicateName_ne_alias])⟩
        by_cases hxc : x = c
        · rw [hxc]
          exact hc
        · exact h.kept (mem_namesOf_iff.2 hx) hlast hxc
      · exact .inl (.inr ⟨hx, .inr (by simp [Fact.fits, Ne.symm hq])⟩)
    · exact .inr ⟨hx, .inr (by simp [Fact.fits, predicateName_ne_alias])⟩
    · exact .inl (.inl ⟨rfl, rfl⟩)

include h hlast hc hn in
/-- A predicate whose last name is an alias too may be given a name that names nothing else. -/
theorem Sound.renamed : Sound (written single facts ⟨p, predicateNamePredicate, n⟩) := by
  have hiff := fun q x => @names_renamed_iff facts p q x single n c h hlast hc
  have hother : ∀ q, q ≠ p → namesOf (written single facts ⟨p, predicateNamePredicate, n⟩) q = namesOf facts q := by
    intro q hq
    rw [namesOf, filter_written (.inl (Ne.symm hq))]
    rfl
  obtain ⟨l, hl, hmem⟩ := @namesOf_renamed facts p single n
  refine ⟨?_, ?_, ?_, ?_, ?_⟩
  · intro q q' y hq hq'
    rw [hiff] at hq hq'
    rcases hq with hq | ⟨rfl, rfl⟩ <;> rcases hq' with hq' | ⟨rfl, hy⟩
    · exact h.functional hq hq'
    · subst hy
      exact hn _ hq
    · exact (hn _ hq').symm
    · rfl
  · intro q y hq
    rw [hiff] at hq ⊢
    rcases hq with hq | ⟨rfl, -⟩
    · exact .inl (h.own hq)
    · exact .inl (h.own (.inr hc))
  · intro q y hq
    rw [hiff] at hq ⊢
    rcases hq with hq | ⟨rfl, -⟩
    · exact .inl (h.coloned hq)
    · exact .inl (h.coloned (.inr hc))
  · intro q y hq
    by_cases hqp : q = p
    · rw [hqp, hl]
      simp
    · rw [hiff] at hq
      rw [hother q hqp]
      exact h.named (hq.resolve_right fun hq' => hqp hq'.1)
  · intro q y d hy hd hne
    by_cases hqp : q = p
    · subst hqp
      rw [hl] at hy hd
      simp only [List.getLast?_append_of_ne_nil, ne_eq, List.cons_ne_self, not_false_eq_true, List.getLast?_singleton,
        Option.some.injEq, List.mem_append, List.mem_singleton] at hy hd
      subst hd
      have hy' := (hmem y (hy.resolve_right hne))
      refine mem_written_iff.2 (.inr ⟨?_, .inr (by simp [Fact.fits, predicateName_ne_alias])⟩)
      by_cases hyc : y = c
      · rw [hyc]
        exact hc
      · exact h.kept hy' hlast hyc
    · rw [hother q hqp] at hy hd
      exact mem_written_iff.2 (.inr ⟨h.kept hy hd hne, .inr (by simp [Fact.fits, predicateName_ne_alias])⟩)

end Renaming

end Facts

/-! ## What stands after retractions -/

section Retractions

variable {events : List OperationOccurrence}

/-- The last assertion is withdrawn if it is of the proposition. -/
theorem withoutNewestOf_concat (e : OperationOccurrence) (p : Triple) :
    withoutNewestOf (events ++ [e]) p = if p.eqv e.proposition then events else withoutNewestOf events p ++ [e] := by
  cases he : p.eqv e.proposition with
  | true =>
    have hfound : (events ++ [e]).extractLast (fun y => p.eqv y.proposition) = some (e, events) :=
      (List.extractLast_eq_some_iff _ _ _ _).2 ⟨events, [], rfl, by simp, he, by simp⟩
    simp only [withoutNewestOf, hfound, if_true]
  | false =>
    cases hf : events.extractLast (fun y => p.eqv y.proposition) with
    | none =>
      have hnone : (events ++ [e]).extractLast (fun y => p.eqv y.proposition) = none := by
        rw [List.extractLast_eq_none_iff] at hf ⊢
        intro y hy
        rcases List.mem_append.1 hy with hy | hy
        · exact hf y hy
        · rw [List.mem_singleton.1 hy]
          exact he
      simp [withoutNewestOf, hnone, hf]
    | some r =>
      obtain ⟨x, rest⟩ := r
      obtain ⟨as, bs, rfl, rfl, hx, hbs⟩ := (List.extractLast_eq_some_iff _ _ _ _).1 hf
      have hsome : (as ++ x :: bs ++ [e]).extractLast (fun y => p.eqv y.proposition) = some (x, as ++ bs ++ [e]) := by
        refine (List.extractLast_eq_some_iff _ _ _ _).2 ⟨as, bs ++ [e], by simp, by simp, hx, fun y hy => ?_⟩
        rcases List.mem_append.1 hy with hy | hy
        · exact hbs y hy
        · rw [List.mem_singleton.1 hy]
          exact he
      simp only [withoutNewestOf, hsome, hf, Bool.false_eq_true, if_false]

/-- Retractions of other propositions leave the last assertion. -/
theorem foldl_withoutNewestOf_concat {e : OperationOccurrence} {ps : List Triple} (h : ∀ p ∈ ps, p.eqv e.proposition = false) :
    ps.foldl withoutNewestOf (events ++ [e]) = ps.foldl withoutNewestOf events ++ [e] := by
  induction ps generalizing events with
  | nil => rfl
  | cons p ps ih =>
    rw [List.forall_mem_cons] at h
    rw [List.foldl_cons, List.foldl_cons, withoutNewestOf_concat, h.1, if_neg Bool.false_ne_true, ih h.2]

/-- Retractions of all that passes a test, newest first, leave what does not pass it. -/
theorem foldl_withoutNewestOf_filter {P : Triple → Bool} (hP : ∀ p q, p.eqv q = true → P p = P q)
    (hnan : ∀ e ∈ events, e.proposition.hasNaN = false) :
    (((events.filter fun e => P e.proposition).map (·.proposition)).reverse).foldl withoutNewestOf events =
      events.filter fun e => !P e.proposition := by
  induction events using List.reverseRecOn with
  | nil => rfl
  | append_singleton events e ih =>
    have hrest := ih fun x hx => hnan x (List.mem_append_left _ hx)
    have hself : e.proposition.eqv e.proposition = true :=
      (Triple.eqv_iff _ _).2 ⟨hnan e (List.mem_append_right _ (List.mem_singleton_self e)), Triple.same_refl _⟩
    cases he : P e.proposition with
    | true =>
      simp only [List.filter_append, List.filter_cons, he, List.filter_nil, if_true, List.map_append, List.map_cons, List.map_nil,
        List.reverse_append, List.reverse_singleton, List.singleton_append, List.foldl_cons, withoutNewestOf_concat, hself, Bool.not_true,
        Bool.false_eq_true, if_false, List.append_nil]
      exact hrest
    | false =>
      simp only [List.filter_append, List.filter_cons, he, List.filter_nil, Bool.false_eq_true, if_false, List.append_nil, Bool.not_false,
        if_true]
      rw [foldl_withoutNewestOf_concat, hrest]
      intro p hp
      obtain ⟨x, hx, rfl⟩ := List.mem_map.1 (List.mem_reverse.1 hp)
      rw [Bool.eq_false_iff]
      intro hxe
      rw [← hP _ _ hxe, (List.mem_filter.1 hx).2] at he
      cases he

end Retractions

/-! ## Sessions that show facts -/

theorem str_eqv_iff {a b : String} : (Term.str a).eqv (.str b) = true ↔ a = b := by simp [Term.eqv, Atom.eqv]

theorem Fact.hasNaN_triple (f : Fact) : f.triple.hasNaN = false := rfl

/-- What is the same as a fact is it. -/
theorem eq_triple_of_same {p : Triple} {f : Fact} (h : p.same f.triple) : p = f.triple := by
  obtain ⟨t1, t2, t3⟩ := p
  have hstr : ∀ {t : Term} {s : String}, t.same (.str s) → t = .str s := by
    intro t s ht
    cases t with
    | atom a => cases a <;> simp_all [Term.same, Term.canon, Term.str, Atom.canon]
    | triple a b c => simp [Term.same, Term.canon] at ht
  obtain ⟨h1, h2, h3⟩ := Term.same_triple_iff.1 h
  obtain rfl : t1 = .str f.subject := hstr h1
  obtain rfl : t2 = .str f.predicate := hstr h2
  obtain rfl : t3 = .str f.value := hstr h3
  rfl

theorem patternMatch_triple (f : Fact) (s p v : Option String) :
    patternMatch f.triple (s.map Term.str) (p.map Term.str) (v.map Term.str) = f.fits s p v := by
  have hslot : ∀ (o : Option String) (t : String), slotMatches (o.map Term.str) (.str t) = o.all (· = t) := by
    intro o t
    cases o with
    | none => rfl
    | some a =>
      rw [Bool.eq_iff_iff]
      simp [slotMatches, str_eqv_iff]
  rw [patternMatch, Fact.triple, hslot, hslot, hslot]
  rfl

/-- The live propositions of a session are facts, in order. -/
def Shows (Γ : Host) (session : Session) (facts : List Fact) : Prop :=
  ∃ spaceId frames, SessionFor Γ session spaceId frames ∧
    (Reference.liveOccurrences spaceId (logOf frames)).map (·.proposition) = facts.map Fact.triple

section Reads

variable {Γ : Host} {print : Term → String} {session : Session} {facts : List Fact} {p x : String}

/-- What a rotation gives for a pattern of strings. -/
theorem Shows.matching (h : Shows Γ session facts) (s r v : Option String) :
    (matching Γ session.view (s.map Term.str) (r.map Term.str) (v.map Term.str)).map (·.proposition) =
      (facts.filter (Fact.fits s r v)).map Fact.triple := by
  obtain ⟨spaceId, frames, hfor, hlive⟩ := h
  have hall : (allOccurrences session.view).map (·.proposition) = facts.map Fact.triple := by
    have hsame := hfor.covers.live
    generalize allOccurrences session.view = shown at hsame
    generalize Reference.liveOccurrences spaceId (logOf frames) = live at hsame hlive
    clear hfor
    induction hsame generalizing facts with
    | nil =>
      rw [List.map_nil] at hlive ⊢
      exact hlive
    | @cons o o' shown live ho _ ih =>
      cases facts with
      | nil => cases hlive
      | cons f facts =>
        rw [List.map_cons, List.map_cons, List.cons.injEq] at hlive
        have hsame : o.proposition.same f.triple := hlive.1 ▸ ho.2.2
        rw [List.map_cons, List.map_cons, ih hlive.2, eq_triple_of_same hsame]
  rw [matching_eq hfor.covers.indexed]
  have hpattern : matchesPattern (s.map Term.str) (r.map Term.str) (v.map Term.str) =
      (fun q => patternMatch q (s.map Term.str) (r.map Term.str) (v.map Term.str)) ∘ (·.proposition) := rfl
  rw [hpattern, ← List.filter_map, hall, List.filter_map]
  refine congrArg _ (List.filter_congr fun f _ => ?_)
  exact patternMatch_triple f s r v

theorem Shows.byT12 (h : Shows Γ session facts) (s r : String) :
    (byT12 Γ session.view (.str s) (.str r)).map (·.proposition) = (facts.filter (Fact.fits (some s) (some r) none)).map Fact.triple :=
  h.matching (some s) (some r) none

theorem Shows.byT23 (h : Shows Γ session facts) (r v : String) :
    (byT23 Γ session.view (.str r) (.str v)).map (·.proposition) = (facts.filter (Fact.fits none (some r) (some v))).map Fact.triple :=
  h.matching none (some r) (some v)

theorem Shows.subjects (h : Shows Γ session facts) (r v : String) : subjects (Fram.byT23 Γ session.view (.str r) (.str v)) =
      (facts.filter (Fact.fits none (some r) (some v))).map fun f => .str f.subject := by
  rw [Schema.subjects, show (fun o : OperationOccurrence => o.proposition.t1) = Triple.t1 ∘ (·.proposition) from rfl, ← List.map_map,
    h.byT23, List.map_map]
  rfl

/-- The terms without repetition, when all are equal. -/
theorem distinct_of_forall {terms : List Term} {p : String} (h : ∀ t ∈ terms, t = .str p) (hne : terms ≠ []) :
    distinct terms = [.str p] := by
  have hfold : ∀ {terms : List Term}, (∀ t ∈ terms, t = .str p) →
      terms.foldl (fun seen term => if seen.any (·.eqv term) then seen else seen ++ [term]) [.str p] = [.str p] := by
    intro terms h
    induction terms with
    | nil => rfl
    | cons t terms ih =>
      rw [List.forall_mem_cons] at h
      rw [List.foldl_cons, h.1, if_pos (by simp [str_eqv_iff])]
      exact ih h.2
  cases terms with
  | nil => exact absurd rfl hne
  | cons t terms =>
    rw [List.forall_mem_cons] at h
    rw [distinct, List.foldl_cons, h.1]
    exact hfold h.2

theorem mem_named_iff : Names facts p x ↔ Term.str p ∈ (facts.filter (Fact.fits none (some predicateNamePredicate) (some x))).map
    (fun f => Term.str f.subject) ++ (facts.filter (Fact.fits none (some predicateAliasPredicate) (some x))).map
    (fun f => Term.str f.subject) := by
  have hside : ∀ r : String, Term.str p ∈ (facts.filter (Fact.fits none (some r) (some x))).map (fun f => Term.str f.subject) ↔
      ⟨p, r, x⟩ ∈ facts := by
    intro r
    simp only [List.mem_map, List.mem_filter, Fact.fits, Option.all_none, Option.all_some, Bool.true_and, Bool.and_eq_true,
      decide_eq_true_eq]
    constructor
    · rintro ⟨⟨s, r', v⟩, ⟨hf, rfl, rfl⟩, hs⟩
      obtain rfl : s = p := by simpa using hs
      exact hf
    · intro hf
      exact ⟨_, ⟨hf, rfl, rfl⟩, rfl⟩
  rw [List.mem_append, hside, hside, Names]

/-- A spelling that names a predicate names it alone. -/
theorem Shows.predicateIds_eq (h : Shows Γ session facts) (hsound : Sound facts) (hx : Names facts p x) :
    predicateIds Γ session x = [.str p] := by
  rw [predicateIds, h.subjects, h.subjects]
  refine distinct_of_forall (fun t ht => ?_) (List.ne_nil_of_mem (mem_named_iff.1 hx))
  have ht' : ∃ q, t = .str q := by
    rcases List.mem_append.1 ht with ht | ht <;> obtain ⟨f, -, rfl⟩ := List.mem_map.1 ht <;> exact ⟨_, rfl⟩
  obtain ⟨q, rfl⟩ := ht'
  rw [hsound.functional (mem_named_iff.2 ht) hx]

theorem Shows.predicateIds_nil (h : Shows Γ session facts) (hx : ∀ p, ¬Names facts p x) : predicateIds Γ session x = [] := by
  rw [predicateIds, h.subjects, h.subjects]
  have hnil : ∀ {terms : List Term}, (∀ t ∈ terms, ∃ q, t = .str q) → (∀ q, Term.str q ∉ terms) → terms = [] := by
    intro terms hstr hq
    rw [List.eq_nil_iff_forall_not_mem]
    intro t ht
    obtain ⟨q, rfl⟩ := hstr t ht
    exact hq q ht
  rw [hnil (fun t ht => ?_) fun q hq => hx q (mem_named_iff.2 hq)]
  · rfl
  · rcases List.mem_append.1 ht with ht | ht <;> obtain ⟨f, -, rfl⟩ := List.mem_map.1 ht <;> exact ⟨_, rfl⟩

theorem Shows.resolvePredicate_eq (h : Shows Γ session facts) (hsound : Sound facts) (hx : Names facts p x) :
    resolvePredicate Γ session x = .ok (some (.str p)) := by
  rw [resolvePredicate, h.predicateIds_eq hsound hx]

theorem Shows.resolvePredicate_none (h : Shows Γ session facts) (hx : ∀ p, ¬Names facts p x) : resolvePredicate Γ session x = .ok none := by
  rw [resolvePredicate, h.predicateIds_nil hx]

/-- A spelling resolves to what it names. -/
theorem Shows.resolvePredicate_iff (h : Shows Γ session facts) (hsound : Sound facts) {t : Term} :
    resolvePredicate Γ session x = .ok (some t) ↔ ∃ p, t = .str p ∧ Names facts p x := by
  by_cases hx : ∃ p, Names facts p x
  · obtain ⟨p, hx⟩ := hx
    rw [h.resolvePredicate_eq hsound hx, Except.ok.injEq, Option.some.injEq]
    constructor
    · rintro rfl
      exact ⟨p, rfl, hx⟩
    · rintro ⟨q, rfl, hq⟩
      rw [hsound.functional hx hq]
  · rw [not_exists] at hx
    rw [h.resolvePredicate_none hx]
    constructor
    · intro hok
      cases hok
    · rintro ⟨p, -, hp⟩
      exact absurd hp (hx p)

theorem Shows.predicateName_eq (h : Shows Γ session facts) {c : String} (hc : (namesOf facts p).getLast? = some c) :
    predicateName Γ print session (.str p) = c := by
  have hlast : (((Fram.byT12 Γ session.view (.str p) (.str predicateNamePredicate)).map (·.proposition)).getLast?.map (·.t3)) =
      some (Term.str c) := by
    rw [namesOf, List.getLast?_map] at hc
    obtain ⟨f, hf, rfl⟩ := Option.map_eq_some_iff.1 hc
    rw [h.byT12, List.getLast?_map, hf]
    rfl
  unfold predicateName
  rw [List.getLast?_map, Option.map_map] at hlast
  cases hb : (Fram.byT12 Γ session.view (.str p) (.str predicateNamePredicate)).getLast? with
  | none =>
    rw [hb] at hlast
    cases hlast
  | some event =>
    rw [hb] at hlast
    have ht : event.proposition.t3 = .str c := by simpa using hlast
    simp only [ht]
    rfl

end Reads

/-! ## Commits of facts -/

/-- The assertions of facts. -/
def assertions (facts : List Fact) : List CommitOperation := facts.map fun f => ⟨.assert, f.triple⟩

/-- The builder that a session opens, with operations. -/
def opened (session : Session) (operations : List CommitOperation) : Txn.Builder :=
  ⟨⟨.str session.store.spaceId, txSequence, .int session.store.nextSequence⟩, operations, 0⟩

section Commits

variable {Γ : Host} {session : Session} {facts : List Fact}

theorem Shows.openBuilder (h : Shows Γ session facts) : Txn.openBuilder session.store = .ok (opened session []) := by
  obtain ⟨spaceId, frames, hfor, -⟩ := h
  rw [hfor.openBuilder, opened, hfor.space]

theorem Shows.append (h : Shows Γ session facts) (before : List CommitOperation) {operations : List CommitOperation}
    (hne : operations ≠ []) : ∃ c, Txn.append (opened session before) operations = .ok (opened session (before ++ operations), c) := by
  obtain ⟨spaceId, frames, hfor, -⟩ := h
  have hq : 0 ≤ session.store.nextSequence := hfor.represents.advances.next_pos.trans' (by decide)
  have hpinned : (opened session before).Pinned session.store.spaceId session.store.nextSequence := rfl
  exact ⟨_, hpinned.append hfor.represents.space hq hne⟩

/-- A commit shows what its operations leave of the facts. -/
theorem Shows.commit (h : Shows Γ session facts) {operations : List CommitOperation} (hne : operations ≠ []) {after : List Fact}
    (hafter : ∀ (spaceId : String) (q : Int) (base : List OperationOccurrence), base.map (·.proposition) = facts.map Fact.triple →
      (mergedMatching base (Reference.occurrences spaceId (loggedFrom q 0 operations)) none none none).map (·.proposition) =
        after.map Fact.triple) :
    ∃ session', Schema.commit Γ (opened session operations) session = (.ok (), session') ∧ Shows Γ session' after := by
  obtain ⟨spaceId, frames, hfor, hlive⟩ := h
  have hq : 0 ≤ session.store.nextSequence := hfor.represents.advances.next_pos.trans' (by decide)
  have htxn : ∃ store c, Txn.commit Γ session.store (opened session operations) = .ok (store, c) := by
    have hspace : (Term.str session.store.spaceId).eqv (.str session.store.spaceId) = true := str_eqv_iff.2 rfl
    have hsequence : (Term.int session.store.nextSequence).eqv (.int session.store.nextSequence) = true := by simp [Term.eqv, Atom.eqv]
    have hempty : operations.isEmpty = false := List.isEmpty_eq_false_iff.2 hne
    have hcoordinate := transactionCoordinate_ok hfor.represents.space hq
    refine ⟨appendValidTransaction Γ session.store session.store.nextSequence operations,
      ⟨.str session.store.spaceId, txSequence, .int session.store.nextSequence⟩, ?_⟩
    simp only [Txn.commit, opened, hspace, hsequence, Bool.true_eq_false, if_false, commitTransaction, appendTransaction, hempty,
      Bool.false_eq_true, lt_irrefl, appendValidTransaction_spaceId, hcoordinate, bind, Except.bind]
  obtain ⟨store, c, htxn⟩ := htxn
  obtain ⟨session', hcommit, hfor'⟩ := hfor.commitTaken htxn
  refine ⟨session', hcommit, spaceId, _, hfor', ?_⟩
  rw [logOf_append, logOf_singleton, ← mergedMatching_live]
  exact hafter spaceId _ _ hlive

/-- Assertions come after what stands. -/
theorem mergedMatching_assertions (added : List Fact) (spaceId : String) (q : Int) (k : Nat) {base : List OperationOccurrence}
    (hbase : base.map (·.proposition) = facts.map Fact.triple) :
    (mergedMatching base (Reference.occurrences spaceId (loggedFrom q k (assertions added))) none none none).map (·.proposition) =
      (facts ++ added).map Fact.triple := by
  induction added generalizing base facts k with
  | nil => simpa [assertions, loggedFrom, Reference.occurrences, mergedMatching] using hbase
  | cons f added ih =>
    have hnext : (base ++ [(⟨coordinateOf spaceId q k, .assert, f.triple⟩ : OperationOccurrence)]).map (·.proposition) =
        (facts ++ [f]).map Fact.triple := by
      rw [List.map_append, hbase, List.map_append]
      rfl
    have h := ih (k + 1) hnext
    rw [List.append_assoc] at h
    exact h

/-- Retractions withdraw the newest of each. -/
theorem mergedMatching_retractions (ps : List Triple) (spaceId : String) (q : Int) (k : Nat) (base : List OperationOccurrence) :
    mergedMatching base (Reference.occurrences spaceId (loggedFrom q k (ps.map fun p => (⟨.retract, p⟩ : CommitOperation)))) none none none =
      ps.foldl withoutNewestOf base := by
  induction ps generalizing base k with
  | nil => rfl
  | cons p ps ih => exact ih (k + 1) (withoutNewestOf base p)

theorem map_filter_proposition {base : List OperationOccurrence} (hbase : base.map (·.proposition) = facts.map Fact.triple)
    {P : Triple → Bool} {Q : Fact → Bool} (hPQ : ∀ f, P f.triple = Q f) :
    (base.filter fun o => P o.proposition).map (·.proposition) = (facts.filter Q).map Fact.triple := by
  rw [show (fun o : OperationOccurrence => P o.proposition) = P ∘ (·.proposition) from rfl, ← List.filter_map, hbase, List.filter_map]
  exact congrArg _ (List.filter_congr fun f _ => hPQ f)

/-- A single update takes the place of what stands of its subject and predicate. -/
theorem mergedMatching_update (h : Shows Γ session facts) (f : Fact) (spaceId : String) (q : Int) {base : List OperationOccurrence}
    (hbase : base.map (·.proposition) = facts.map Fact.triple) : (mergedMatching base (Reference.occurrences spaceId (loggedFrom q 0
      (Txn.compileSingleUpdate Γ session.view (.str f.subject) (.str f.predicate) (.str f.value)))) none none none).map (·.proposition) =
      (written true facts f).map Fact.triple := by
  have hfits : ∀ g : Fact, patternMatch g.triple (some (.str f.subject)) (some (.str f.predicate)) none =
      g.fits (some f.subject) (some f.predicate) none := fun g => patternMatch_triple g (some f.subject) (some f.predicate) none
  have hrespects : ∀ a b : Triple, a.eqv b = true → patternMatch a (some (.str f.subject)) (some (.str f.predicate)) none =
      patternMatch b (some (.str f.subject)) (some (.str f.predicate)) none := by
    intro a b hab
    rw [Bool.eq_iff_iff]
    exact ⟨patternMatch_eqv hab, patternMatch_eqv (Triple.eqv_symm hab)⟩
  have hnan : ∀ e ∈ base, e.proposition.hasNaN = false := by
    intro e he
    have hmem : e.proposition ∈ facts.map Fact.triple := hbase ▸ List.mem_map_of_mem he
    obtain ⟨g, -, hg⟩ := List.mem_map.1 hmem
    rw [← hg]
    exact g.hasNaN_triple
  -- What is retracted is what stands of the subject and the predicate.
  have hretracted : (byT12 Γ session.view (.str f.subject) (.str f.predicate)).reverse.map (fun event => event.proposition) =
      ((base.filter fun e => patternMatch e.proposition (some (.str f.subject)) (some (.str f.predicate)) none).map
        (·.proposition)).reverse := by
    rw [List.map_reverse, h.byT12, @map_filter_proposition facts base hbase
      (fun p => patternMatch p (some (.str f.subject)) (some (.str f.predicate)) none) _ hfits]
  have hoperations : Txn.compileSingleUpdate Γ session.view (.str f.subject) (.str f.predicate) (.str f.value) =
      ((byT12 Γ session.view (.str f.subject) (.str f.predicate)).reverse.map (fun event => event.proposition)).map
        (fun p => ⟨.retract, p⟩) ++ assertions [f] := by
    rw [Txn.compileSingleUpdate, List.map_map]
    rfl
  rw [hoperations, hretracted, occurrences_append, mergedMatching_append, mergedMatching_retractions,
    foldl_withoutNewestOf_filter hrespects hnan]
  refine mergedMatching_assertions [f] _ _ _ ?_
  exact @map_filter_proposition facts base hbase (fun p => !patternMatch p (some (.str f.subject)) (some (.str f.predicate)) none)
    (fun g => !g.fits (some f.subject) (some f.predicate) none) fun g => by rw [hfits]

end Commits

end Fram.Schema
