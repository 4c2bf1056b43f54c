import Fram.Lemmas.Interning
import Fram.Lib.ExceptList

/-!
# Known terms

`known-term-handle` finds the handle of a term that is interned already. Over well-formed term tables it finds exactly the handles
that stand for a term equal to the one asked for (`Interned.knownTermHandle_iff`), so a term that holds a NaN is never known. Interning
a term makes its parts known and no other term (`Interned.known_internHandle`).
-/

namespace Fram

/-- The term and the terms in it. -/
def Term.parts : Term → List Term
  | .atom a => [.atom a]
  | .triple t1 t2 t3 => .triple t1 t2 t3 :: (t1.parts ++ t2.parts ++ t3.parts)

theorem Term.self_mem_parts (t : Term) : t ∈ t.parts := by
  cases t <;> simp [Term.parts]

/-- The terms in the term, but for itself. -/
def Term.inner : Term → List Term
  | .atom _ => []
  | .triple t1 t2 t3 => t1.parts ++ t2.parts ++ t3.parts

/-- A triple that is among the first has a lesser handle than the next. -/
theorem ValidPrior.lt_tripleHandle {n p : Nat} {h : Int} (hv : ValidPrior n p h) (ha : isAtomHandle h = false) : h < tripleHandle p := by
  rcases hv with ⟨q, rfl, -⟩ | ⟨q, rfl, hq⟩
  · rw [isAtomHandle_atomHandle] at ha
    cases ha
  · unfold tripleHandle
    omega

section Known

variable {Γ : Host} {s s' : TermStore} {h : Int} {t : Term}

theorem resolves_of_resolveWithin {fuel : Nat} (hr : resolveWithin s fuel h = .ok t) : Resolves s h t := by
  induction fuel generalizing h t with
  | zero => cases hr
  | succ fuel ih =>
    unfold resolveWithin at hr
    split at hr
    · rename_i hv
      rcases (validHandle_iff s h).1 hv with ⟨p, rfl, hp⟩ | ⟨p, rfl, hp⟩
      · simp only [isAtomHandle_atomHandle, if_true, handlePosition_atomHandle, List.getElem?_eq_getElem hp] at hr
        cases hr
        exact .atom p _ (List.getElem?_eq_getElem hp)
      · simp only [isAtomHandle_tripleHandle, Bool.false_eq_true, if_false, handlePosition_tripleHandle,
          List.getElem?_eq_getElem hp, ExceptList.bind_eq_ok_iff, Except.ok.injEq] at hr
        obtain ⟨t1, h1, t2, h2, t3, h3, rfl⟩ := hr
        exact .triple p _ t1 t2 t3 (List.getElem?_eq_getElem hp) (ih h1) (ih h2) (ih h3)
    · cases hr

/-- A handle resolves to the term it stands for, and to no other. -/
theorem Interned.resolveHandle_iff (hi : Interned Γ s) : Fram.resolveHandle s h = .ok t ↔ Resolves s h t :=
  ⟨resolves_of_resolveWithin, fun hr => hi.resolveHandle hr⟩

/-- The known handle of an atom is that of the row that equals it. -/
theorem Interned.findAtomPosition_iff (hi : Interned Γ s) (a : Atom) (p : Nat) :
    findAtomPosition Γ s.atoms s.atomSlots a = some p ↔ ∃ b, s.atoms[p]? = some b ∧ b.eqv a = true := by
  refine findPosition_eq_some_iff hi.atomIndex (fun b hb => Γ.hashAtom_eqv b a hb) ?_ p
  intro i j b c hb hc hba hca
  have hbc : (Term.atom b).eqv (.atom c) = true :=
    Term.eqv_trans (b := .atom a) hba (Term.eqv_symm (a := .atom c) (b := .atom a) hca)
  exact hi.atomsApart i j b c hb hc hbc

/-- The known position of a row is its own. -/
theorem Interned.findTriplePosition_iff (hi : Interned Γ s) (row : TripleRow) (p : Nat) :
    findTriplePosition Γ s.triples s.tripleSlots row = some p ↔ s.triples[p]? = some row := by
  have hiff := @findPosition_eq_some_iff _ _ _ (row.hash Γ) (fun row' => row' == row) _ hi.tripleIndex
    (fun row' hr => by rw [beq_iff_eq.1 hr])
    (fun i j row1 row2 h1 h2 e1 e2 => by
      rw [beq_iff_eq] at e1 e2
      subst e1 e2
      exact hi.triplesApart i j _ h1 h2) p
  refine hiff.trans ⟨?_, fun hp => ⟨row, hp, beq_iff_eq.2 rfl⟩⟩
  rintro ⟨row', hp, he⟩
  rw [beq_iff_eq] at he
  exact he ▸ hp

/-- The known handle of a term is the one that stands for a term equal to it. -/
theorem Interned.knownTermHandle_iff (hi : Interned Γ s) (t : Term) (h : Int) :
    knownTermHandle Γ s t = some h ↔ ∃ u, Resolves s h u ∧ u.eqv t = true := by
  induction t generalizing h with
  | atom a =>
    simp only [knownTermHandle, Option.map_eq_some_iff, hi.findAtomPosition_iff]
    constructor
    · rintro ⟨p, ⟨b, hb, he⟩, rfl⟩
      exact ⟨.atom b, .atom p b hb, he⟩
    · rintro ⟨u, hu, he⟩
      cases hu with
      | atom p b hb => exact ⟨p, ⟨b, hb, he⟩, rfl⟩
      | triple p row t1 t2 t3 hp => simp [Term.eqv] at he
  | triple t1 t2 t3 ih1 ih2 ih3 =>
    have hknown : knownTermHandle Γ s (.triple t1 t2 t3) = some h ↔ ∃ h1 h2 h3 p, knownTermHandle Γ s t1 = some h1 ∧
        knownTermHandle Γ s t2 = some h2 ∧ knownTermHandle Γ s t3 = some h3 ∧
        findTriplePosition Γ s.triples s.tripleSlots ⟨h1, h2, h3⟩ = some p ∧ tripleHandle p = h := by
      cases h1 : knownTermHandle Γ s t1 <;> cases h2 : knownTermHandle Γ s t2 <;> cases h3 : knownTermHandle Γ s t3 <;>
        simp [knownTermHandle, h1, h2, h3]
    rw [hknown]
    constructor
    · rintro ⟨h1, h2, h3, p, e1, e2, e3, hp, rfl⟩
      rw [hi.findTriplePosition_iff] at hp
      obtain ⟨u1, r1, q1⟩ := (ih1 h1).1 e1
      obtain ⟨u2, r2, q2⟩ := (ih2 h2).1 e2
      obtain ⟨u3, r3, q3⟩ := (ih3 h3).1 e3
      exact ⟨.triple u1 u2 u3, .triple p _ u1 u2 u3 hp r1 r2 r3, by simp [Term.eqv, q1, q2, q3]⟩
    · rintro ⟨u, hu, he⟩
      cases hu with
      | atom p b hb => simp [Term.eqv] at he
      | triple p row u1 u2 u3 hp r1 r2 r3 =>
        simp only [Term.eqv, Bool.and_eq_true] at he
        exact ⟨row.t1, row.t2, row.t3, p, (ih1 _).2 ⟨u1, r1, he.1.1⟩, (ih2 _).2 ⟨u2, r2, he.1.2⟩, (ih3 _).2 ⟨u3, r3, he.2⟩,
          (hi.findTriplePosition_iff row p).2 hp, rfl⟩

/-- A term that holds a NaN is not known. -/
theorem Interned.knownTermHandle_nan (hi : Interned Γ s) (hn : t.hasNaN = true) : knownTermHandle Γ s t = none := by
  cases hk : knownTermHandle Γ s t with
  | none => rfl
  | some h =>
    obtain ⟨u, -, he⟩ := (hi.knownTermHandle_iff t h).1 hk
    obtain ⟨hu, hs⟩ := (Term.eqv_iff u t).1 he
    rw [← hs.hasNaN, hu] at hn
    cases hn

/-- More rows leave the known terms their handles. -/
theorem Interned.knownTermHandle_mono (hi : Interned Γ s) (hi' : Interned Γ s') (ha : s.atoms <+: s'.atoms)
    (ht : s.triples <+: s'.triples) (hk : knownTermHandle Γ s t = some h) : knownTermHandle Γ s' t = some h := by
  obtain ⟨u, hr, he⟩ := (hi.knownTermHandle_iff t h).1 hk
  exact (hi'.knownTermHandle_iff t h).2 ⟨u, hr.mono ha ht, he⟩

/-- Two known terms have one handle exactly when they are equal. -/
theorem Interned.knownTermHandle_inj (hi : Interned Γ s) {t' : Term} {h' : Int} (hk : knownTermHandle Γ s t = some h)
    (hk' : knownTermHandle Γ s t' = some h') : h = h' ↔ t.eqv t' = true := by
  obtain ⟨u, hr, he⟩ := (hi.knownTermHandle_iff t h).1 hk
  obtain ⟨u', hr', he'⟩ := (hi.knownTermHandle_iff t' h').1 hk'
  constructor
  · rintro rfl
    obtain rfl := hr.unique hr'
    exact Term.eqv_trans (Term.eqv_symm he) he'
  · intro heq
    exact hi.handle_eq_of_eqv hr hr' (Term.eqv_trans (Term.eqv_trans he heq) (Term.eqv_symm he'))

/-- The parts of a term that a handle stands for have handles. Those of its triples are no greater than the handle. -/
theorem Interned.part_resolves (hi : Interned Γ s) (hr : Resolves s h t) {part : Term} (hp : part ∈ t.parts) :
    ∃ h', Resolves s h' part ∧ (isAtomHandle h' = true ∨ isAtomHandle h = false ∧ h' ≤ h) := by
  induction hr with
  | atom p a ha =>
    simp only [Term.parts, List.mem_singleton] at hp
    subst hp
    exact ⟨atomHandle p, .atom p a ha, Or.inl (isAtomHandle_atomHandle p)⟩
  | triple p row t1 t2 t3 hrow r1 r2 r3 ih1 ih2 ih3 =>
    obtain ⟨p1, p2, p3⟩ := hi.prior p row hrow
    have below : ∀ {g : Int} {u : Term}, ValidPrior s.atoms.length p g →
        (∃ h', Resolves s h' u ∧ (isAtomHandle h' = true ∨ isAtomHandle g = false ∧ h' ≤ g)) →
        ∃ h', Resolves s h' u ∧ (isAtomHandle h' = true ∨ isAtomHandle (tripleHandle p) = false ∧ h' ≤ tripleHandle p) := by
      intro g u hg hu
      obtain ⟨h', hr', hle⟩ := hu
      refine ⟨h', hr', hle.imp_right fun hle => ⟨isAtomHandle_tripleHandle p, ?_⟩⟩
      exact hle.2.trans (hg.lt_tripleHandle hle.1).le
    simp only [Term.parts, List.mem_cons, List.mem_append] at hp
    rcases hp with rfl | (hp | hp) | hp
    · exact ⟨tripleHandle p, .triple p row t1 t2 t3 hrow r1 r2 r3, Or.inr ⟨isAtomHandle_tripleHandle p, le_refl _⟩⟩
    · exact below p1 (ih1 hp)
    · exact below p2 (ih2 hp)
    · exact below p3 (ih3 hp)

/-- The terms in a triple that a handle stands for have handles. Those of its triples are less than the handle. -/
theorem Interned.inner_resolves (hi : Interned Γ s) (hr : Resolves s h t) {part : Term} (hp : part ∈ t.inner) :
    ∃ h', Resolves s h' part ∧ (isAtomHandle h' = true ∨ h' < h) := by
  cases hr with
  | atom p a ha => cases hp
  | triple p row t1 t2 t3 hrow r1 r2 r3 =>
    obtain ⟨p1, p2, p3⟩ := hi.prior p row hrow
    simp only [Term.inner, List.mem_append] at hp
    rcases hp with (hp | hp) | hp
    · obtain ⟨h', hr', hle⟩ := hi.part_resolves r1 hp
      exact ⟨h', hr', hle.imp_right fun hle => hle.2.trans_lt (p1.lt_tripleHandle hle.1)⟩
    · obtain ⟨h', hr', hle⟩ := hi.part_resolves r2 hp
      exact ⟨h', hr', hle.imp_right fun hle => hle.2.trans_lt (p2.lt_tripleHandle hle.1)⟩
    · obtain ⟨h', hr', hle⟩ := hi.part_resolves r3 hp
      exact ⟨h', hr', hle.imp_right fun hle => hle.2.trans_lt (p3.lt_tripleHandle hle.1)⟩

/-! ## What interning makes known -/

/-- A handle of the rows that were there stands for what it stood for. -/
theorem Interned.resolves_prior (hi : Interned Γ s) (ha : s.atoms <+: s'.atoms) (ht : s.triples <+: s'.triples)
    (hv : ValidPrior s.atoms.length s.triples.length h) (hr : Resolves s' h t) : Resolves s h t := by
  obtain ⟨u, hu⟩ := hi.resolves hv
  exact (hu.mono ha ht).unique hr ▸ hu

/-- Interning an atom adds no handle but the one it returns. -/
theorem internAtom_validPrior (a : Atom) (hv : ValidPrior (internAtom Γ s a).1.atoms.length (internAtom Γ s a).1.triples.length h) :
    ValidPrior s.atoms.length s.triples.length h ∨ h = (internAtom Γ s a).2 := by
  unfold internAtom at hv ⊢
  split at hv
  · exact Or.inl hv
  · rcases hv with ⟨p, rfl, hp⟩ | hv
    · simp only [List.length_append, List.length_singleton] at hp
      rcases Nat.lt_succ_iff_lt_or_eq.1 hp with hp | rfl
      · exact Or.inl (Or.inl ⟨p, rfl, hp⟩)
      · exact Or.inr rfl
    · exact Or.inl (Or.inr hv)

/-- Interning a row adds no handle but the one it returns. -/
theorem internRow_validPrior (row : TripleRow) (hv : ValidPrior (internRow Γ s row).1.atoms.length (internRow Γ s row).1.triples.length h) :
    ValidPrior s.atoms.length s.triples.length h ∨ h = (internRow Γ s row).2 := by
  unfold internRow at hv ⊢
  split at hv
  · exact Or.inl hv
  · rcases hv with hv | ⟨p, rfl, hp⟩
    · exact Or.inl (Or.inl hv)
    · simp only [List.length_append, List.length_singleton] at hp
      rcases Nat.lt_succ_iff_lt_or_eq.1 hp with hp | rfl
      · exact Or.inl (Or.inr ⟨p, rfl, hp⟩)
      · exact Or.inr rfl

/-- After a term is interned, a handle stands for what it stood for, or for a part of the term. -/
theorem Interned.resolves_internHandle (hi : Interned Γ s) (t : Term) {u : Term}
    (hr : Resolves (internHandle Γ s t).1 h u) : Resolves s h u ∨ ∃ part ∈ t.parts, part.same u := by
  induction t generalizing s with
  | atom a =>
    obtain ⟨-, hg, b, hb, hc, -⟩ := internAtom_spec hi a
    rcases internAtom_validPrior a hr.validPrior with hv | rfl
    · exact Or.inl (hi.resolves_prior hg.atoms hg.triples hv hr)
    · obtain rfl := hb.unique hr
      exact Or.inr ⟨.atom a, List.mem_singleton.2 rfl, congrArg Term.atom hc.symm⟩
  | triple t1 t2 t3 ih1 ih2 ih3 =>
    obtain ⟨-, -, u', hr', hsame, -⟩ := internHandle_spec hi (.triple t1 t2 t3)
    obtain ⟨i1, g1, u1, r1, -⟩ := internHandle_spec hi t1
    obtain ⟨i2, g2, u2, r2, -⟩ := internHandle_spec i1 t2
    obtain ⟨i3, g3, u3, r3, -⟩ := internHandle_spec i2 t3
    obtain ⟨-, g4, -⟩ := @internRow_spec _ _ i3 ⟨_, _, _⟩ (r1.mono (g2.trans g3).atoms (g2.trans g3).triples).validPrior
      (r2.mono g3.atoms g3.triples).validPrior r3.validPrior
    simp only [internHandle] at hr hr'
    simp only [Term.parts, List.mem_cons, List.mem_append]
    rcases internRow_validPrior _ hr.validPrior with hv | rfl
    · rcases ih3 i2 (i3.resolves_prior g4.atoms g4.triples hv hr) with hr | ⟨part, hp, hs⟩
      · rcases ih2 i1 hr with hr | ⟨part, hp, hs⟩
        · rcases ih1 hi hr with hr | ⟨part, hp, hs⟩
          · exact Or.inl hr
          · exact Or.inr ⟨part, Or.inr (Or.inl (Or.inl hp)), hs⟩
        · exact Or.inr ⟨part, Or.inr (Or.inl (Or.inr hp)), hs⟩
      · exact Or.inr ⟨part, Or.inr (Or.inr hp), hs⟩
    · obtain rfl := hr'.unique hr
      exact Or.inr ⟨_, Or.inl rfl, hsame.symm⟩

/-- Terms that are the same have the same parts. -/
theorem Term.same.part {a b part : Term} (h : a.same b) (hp : part ∈ b.parts) : ∃ part' ∈ a.parts, part'.same part := by
  induction b generalizing a with
  | atom x =>
    rw [Term.parts, List.mem_singleton] at hp
    subst hp
    exact ⟨a, a.self_mem_parts, h⟩
  | triple b1 b2 b3 ih1 ih2 ih3 =>
    cases a with
    | atom x => simp [Term.same, Term.canon] at h
    | triple a1 a2 a3 =>
      obtain ⟨h1, h2, h3⟩ := Term.same_triple_iff.1 h
      simp only [Term.parts, List.mem_cons, List.mem_append] at hp ⊢
      rcases hp with rfl | (hp | hp) | hp
      · exact ⟨_, Or.inl rfl, h⟩
      · obtain ⟨part', hp', hs⟩ := ih1 h1 hp
        exact ⟨part', Or.inr (Or.inl (Or.inl hp')), hs⟩
      · obtain ⟨part', hp', hs⟩ := ih2 h2 hp
        exact ⟨part', Or.inr (Or.inl (Or.inr hp')), hs⟩
      · obtain ⟨part', hp', hs⟩ := ih3 h3 hp
        exact ⟨part', Or.inr (Or.inr hp'), hs⟩

/-- Interning a term makes known the terms that equal a part of it, and no other that was not. -/
theorem Interned.known_internHandle (hi : Interned Γ s) (t u : Term) : (∃ h, knownTermHandle Γ (internHandle Γ s t).1 u = some h) ↔
      (∃ h, knownTermHandle Γ s u = some h) ∨ ∃ part ∈ t.parts, part.eqv u = true := by
  obtain ⟨hi', hg, t', hr, hs, -⟩ := internHandle_spec hi t
  constructor
  · intro ⟨h, hk⟩
    obtain ⟨v, hv, he⟩ := (hi'.knownTermHandle_iff u h).1 hk
    rcases hi.resolves_internHandle t hv with hv | ⟨part, hp, hpv⟩
    · exact Or.inl ⟨h, (hi.knownTermHandle_iff u h).2 ⟨v, hv, he⟩⟩
    · obtain ⟨hn, hvu⟩ := (Term.eqv_iff v u).1 he
      exact Or.inr ⟨part, hp, (Term.eqv_iff part u).2 ⟨hpv.hasNaN.trans hn, hpv.trans hvu⟩⟩
  · rintro (⟨h, hk⟩ | ⟨part, hp, he⟩)
    · exact ⟨h, hi.knownTermHandle_mono hi' hg.atoms hg.triples hk⟩
    · obtain ⟨part', hp', hpart⟩ := hs.part hp
      obtain ⟨h, hh, -⟩ := hi'.part_resolves hr hp'
      obtain ⟨hn, hpu⟩ := (Term.eqv_iff part u).1 he
      exact ⟨h, (hi'.knownTermHandle_iff u h).2 ⟨part', hh, (Term.eqv_iff part' u).2 ⟨hpart.hasNaN.trans hn, hpart.trans hpu⟩⟩⟩

end Known

end Fram
