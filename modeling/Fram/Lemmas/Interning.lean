import Fram.Store

/-!
# Interning

The invariant of the term tables (`Interned`), what a handle stands for (`Resolves`), and the two facts the rest of the development
uses: interning a term adds rows and returns a handle of that term up to the sign of zeros (`internHandle_spec`), and two handles
are equal as soon as their terms are equal under the host's `=` (`handle_eq_of_eqv`). A term that holds a NaN is never found
again: its handle is always new.
-/

namespace Fram

/-! ## Handles -/

@[simp] theorem isAtomHandle_atomHandle (p : Nat) : isAtomHandle (atomHandle p) = true := by
  simp [isAtomHandle, atomHandle]

@[simp] theorem isAtomHandle_tripleHandle (p : Nat) : isAtomHandle (tripleHandle p) = false := by
  simp only [isAtomHandle, tripleHandle, beq_eq_false_iff_ne]
  omega

@[simp] theorem handlePosition_atomHandle (p : Nat) : handlePosition (atomHandle p) = p := by
  unfold handlePosition atomHandle
  omega

@[simp] theorem handlePosition_tripleHandle (p : Nat) : handlePosition (tripleHandle p) = p := by
  unfold handlePosition tripleHandle
  omega

@[simp] theorem tripleHandleShape_tripleHandle (p : Nat) : tripleHandleShape (tripleHandle p) = true := by
  have h1 : 0 ≤ tripleHandle p := by unfold tripleHandle; omega
  have h2 : tripleHandle p % 2 = 1 := by unfold tripleHandle; omega
  simp [tripleHandleShape, h1, h2]

theorem atomHandle_nonneg (p : Nat) : 0 ≤ atomHandle p := by
  unfold atomHandle
  omega

theorem tripleHandle_nonneg (p : Nat) : 0 ≤ tripleHandle p := by
  unfold tripleHandle
  omega

/-- A handle is that of an atom or that of a triple, by its parity. -/
theorem handle_cases {h : Int} (hn : 0 ≤ h) : (isAtomHandle h = true ∧ h = atomHandle (handlePosition h)) ∨
      (isAtomHandle h = false ∧ h = tripleHandle (handlePosition h)) := by
  simp only [isAtomHandle, atomHandle, tripleHandle, handlePosition, beq_iff_eq, beq_eq_false_iff_ne]
  omega

/-- The handle names one of the first atoms or triples. -/
def ValidPrior (atomCount tripleCount : Nat) (h : Int) : Prop :=
  (∃ p, h = atomHandle p ∧ p < atomCount) ∨ (∃ p, h = tripleHandle p ∧ p < tripleCount)

theorem ValidPrior.mono {m m' n n' : Nat} {h : Int} (hv : ValidPrior m n h) (hm : m ≤ m') (hn : n ≤ n') : ValidPrior m' n' h := by
  rcases hv with ⟨p, rfl, hp⟩ | ⟨p, rfl, hp⟩
  · exact Or.inl ⟨p, rfl, hp.trans_le hm⟩
  · exact Or.inr ⟨p, rfl, hp.trans_le hn⟩

theorem validHandle_iff (s : TermStore) (h : Int) : validHandle s h = true ↔ ValidPrior s.atoms.length s.triples.length h := by
  constructor
  · intro hv
    simp only [validHandle, Bool.and_eq_true, decide_eq_true_eq] at hv
    obtain ⟨hn, hv⟩ := hv
    rcases handle_cases hn with ⟨hp, he⟩ | ⟨hp, he⟩
    · rw [hp, if_pos rfl, decide_eq_true_eq] at hv
      exact Or.inl ⟨_, he, hv⟩
    · rw [hp, if_neg Bool.false_ne_true, decide_eq_true_eq] at hv
      exact Or.inr ⟨_, he, hv⟩
  · rintro (⟨p, rfl, hp⟩ | ⟨p, rfl, hp⟩)
    · simp [validHandle, atomHandle_nonneg, hp]
    · simp [validHandle, tripleHandle_nonneg, hp]

/-! ## The invariant -/

/-- The term tables are well formed: a row names earlier rows, no two rows are equal under the host's `=`, and the slot tables
are complete. -/
structure Interned (Γ : Host) (s : TermStore) : Prop where
  prior : ∀ (p : Nat) row, s.triples[p]? = some row →
    ValidPrior s.atoms.length p row.t1 ∧ ValidPrior s.atoms.length p row.t2 ∧ ValidPrior s.atoms.length p row.t3
  atomsApart : ∀ (i j : Nat) a b, s.atoms[i]? = some a → s.atoms[j]? = some b → a.eqv b = true → i = j
  triplesApart : ∀ (i j : Nat) row, s.triples[i]? = some row → s.triples[j]? = some row → i = j
  atomIndex : Indexes (s.atoms.map Γ.hashAtom) s.atomSlots
  tripleIndex : Indexes (s.triples.map (·.hash Γ)) s.tripleSlots

/-- The invariant reads the term tables only. -/
theorem Interned.congr {Γ : Host} {s s' : TermStore} (hi : Interned Γ s) (h1 : s'.atoms = s.atoms)
    (h2 : s'.triples = s.triples) (h3 : s'.atomSlots = s.atomSlots) (h4 : s'.tripleSlots = s.tripleSlots) : Interned Γ s' :=
  ⟨by rw [h1, h2]; exact hi.prior, by rw [h1]; exact hi.atomsApart, by rw [h2]; exact hi.triplesApart,
    by rw [h1, h3]; exact hi.atomIndex, by rw [h2, h4]; exact hi.tripleIndex⟩

/-- The second store has the terms of the first and perhaps more; nothing else differs. -/
structure Grows (s s' : TermStore) : Prop where
  atoms : s.atoms <+: s'.atoms
  triples : s.triples <+: s'.triples
  frame : s' = { s with atoms := s'.atoms, triples := s'.triples, atomSlots := s'.atomSlots, tripleSlots := s'.tripleSlots }

theorem Grows.refl (s : TermStore) : Grows s s := ⟨List.prefix_refl _, List.prefix_refl _, rfl⟩

theorem Grows.trans {s s' s'' : TermStore} (h : Grows s s') (h' : Grows s' s'') : Grows s s'' := by
  refine ⟨h.atoms.trans h'.atoms, h.triples.trans h'.triples, ?_⟩
  have h1 := h.frame
  have h2 := h'.frame
  rw [h1] at h2
  exact h2

/-- The handle stands for the term. -/
inductive Resolves (s : TermStore) : Int → Term → Prop
  | atom (p : Nat) (a : Atom) : s.atoms[p]? = some a → Resolves s (atomHandle p) (.atom a)
  | triple (p : Nat) (row : TripleRow) (t1 t2 t3 : Term) : s.triples[p]? = some row → Resolves s row.t1 t1 →
      Resolves s row.t2 t2 → Resolves s row.t3 t3 → Resolves s (tripleHandle p) (.triple t1 t2 t3)

section Resolution

variable {Γ : Host} {s s' : TermStore} {h h' : Int} {t t' : Term}

theorem getElem?_of_isPrefix {α : Type*} {l l' : List α} (h : l <+: l') {i : Nat} {x : α} (hi : l[i]? = some x) : l'[i]? = some x := by
  obtain ⟨r, rfl⟩ := h
  rw [List.getElem?_append_left (List.getElem?_eq_some_iff.1 hi).1, hi]

/-- More rows leave a handle its term. -/
theorem Resolves.mono (hr : Resolves s h t) (ha : s.atoms <+: s'.atoms) (ht : s.triples <+: s'.triples) : Resolves s' h t := by
  induction hr with
  | atom p a hp => exact .atom p a (getElem?_of_isPrefix ha hp)
  | triple p row t1 t2 t3 hp _ _ _ h1 h2 h3 => exact .triple p row t1 t2 t3 (getElem?_of_isPrefix ht hp) h1 h2 h3

theorem atomHandle_inj {p q : Nat} (h : atomHandle p = atomHandle q) : p = q := by
  simpa using congrArg handlePosition h

theorem tripleHandle_inj {p q : Nat} (h : tripleHandle p = tripleHandle q) : p = q := by
  simpa using congrArg handlePosition h

theorem atomHandle_ne_tripleHandle (p q : Nat) : atomHandle p ≠ tripleHandle q := by
  intro h
  simpa using congrArg isAtomHandle h

/-- What an atom's handle stands for. -/
theorem Resolves.of_atomHandle {p : Nat} (hr : Resolves s (atomHandle p) t) : ∃ a, s.atoms[p]? = some a ∧ t = .atom a := by
  generalize hh : atomHandle p = h at hr
  cases hr with
  | atom q a hq =>
    obtain rfl := atomHandle_inj hh
    exact ⟨a, hq, rfl⟩
  | triple q row t1 t2 t3 hq h1 h2 h3 => exact absurd hh (atomHandle_ne_tripleHandle p q)

/-- What a triple's handle stands for. -/
theorem Resolves.of_tripleHandle {p : Nat} (hr : Resolves s (tripleHandle p) t) :
    ∃ row t1 t2 t3, s.triples[p]? = some row ∧ t = .triple t1 t2 t3 ∧ Resolves s row.t1 t1 ∧ Resolves s row.t2 t2 ∧
      Resolves s row.t3 t3 := by
  generalize hh : tripleHandle p = h at hr
  cases hr with
  | atom q a hq => exact absurd hh.symm (atomHandle_ne_tripleHandle q p)
  | triple q row t1 t2 t3 hq h1 h2 h3 =>
    obtain rfl := tripleHandle_inj hh
    exact ⟨row, t1, t2, t3, hq, rfl, h1, h2, h3⟩

/-- A handle stands for one term. -/
theorem Resolves.unique (hr : Resolves s h t) (hr' : Resolves s h t') : t = t' := by
  induction hr generalizing t' with
  | atom p a hp =>
    obtain ⟨b, hb, rfl⟩ := hr'.of_atomHandle
    rw [hp] at hb
    cases hb
    rfl
  | triple p row t1 t2 t3 hp _ _ _ ih1 ih2 ih3 =>
    obtain ⟨row', u1, u2, u3, hp', rfl, h1, h2, h3⟩ := hr'.of_tripleHandle
    rw [hp] at hp'
    cases hp'
    rw [ih1 h1, ih2 h2, ih3 h3]

/-- A handle that stands for a term is valid. -/
theorem Resolves.validPrior (hr : Resolves s h t) : ValidPrior s.atoms.length s.triples.length h := by
  cases hr with
  | atom p a hp => exact Or.inl ⟨p, rfl, (List.getElem?_eq_some_iff.1 hp).1⟩
  | triple p row t1 t2 t3 hp => exact Or.inr ⟨p, rfl, (List.getElem?_eq_some_iff.1 hp).1⟩

/-- A valid handle stands for a term. -/
theorem Interned.resolves (hi : Interned Γ s) (hv : ValidPrior s.atoms.length s.triples.length h) : ∃ t, Resolves s h t := by
  have atoms : ∀ p, p < s.atoms.length → ∃ t, Resolves s (atomHandle p) t := fun p hp =>
    ⟨_, .atom p _ (List.getElem?_eq_getElem hp)⟩
  have triples : ∀ n p, p < n → p < s.triples.length → ∃ t, Resolves s (tripleHandle p) t := by
    intro n
    induction n with
    | zero => intro p hp; omega
    | succ n ih =>
      intro p hpn hp
      have part : ∀ {h}, ValidPrior s.atoms.length p h → ∃ t, Resolves s h t := by
        rintro h (⟨q, rfl, hq⟩ | ⟨q, rfl, hq⟩)
        · exact atoms q hq
        · exact ih q (by omega) (hq.trans hp)
      obtain ⟨h1, h2, h3⟩ := hi.prior p _ (List.getElem?_eq_getElem hp)
      obtain ⟨t1, h1⟩ := part h1
      obtain ⟨t2, h2⟩ := part h2
      obtain ⟨t3, h3⟩ := part h3
      exact ⟨_, .triple p _ t1 t2 t3 (List.getElem?_eq_getElem hp) h1 h2 h3⟩
  rcases hv with ⟨p, rfl, hp⟩ | ⟨p, rfl, hp⟩
  · exact atoms p hp
  · exact triples (p + 1) p (by omega) hp

/-- Enough nested rows to resolve a handle. -/
def handleRank (h : Int) : Nat := if isAtomHandle h then 1 else handlePosition h + 2

theorem ValidPrior.handleRank_le {m n : Nat} (hv : ValidPrior m n h) : handleRank h ≤ n + 1 := by
  rcases hv with ⟨p, rfl, hp⟩ | ⟨p, rfl, hp⟩
  · simp [handleRank]
  · simp [handleRank]
    omega

/-- The rank of a handle is fuel enough to resolve it. -/
theorem Interned.resolveWithin (hi : Interned Γ s) (hr : Resolves s h t) {fuel : Nat} (hf : handleRank h ≤ fuel) :
    resolveWithin s fuel h = .ok t := by
  induction hr generalizing fuel with
  | atom p a hp =>
    obtain ⟨fuel, rfl⟩ : ∃ n, fuel = n + 1 := ⟨fuel - 1, by simp [handleRank] at hf; omega⟩
    have hv := (validHandle_iff s (atomHandle p)).2 (Resolves.atom p a hp).validPrior
    simp [Fram.resolveWithin, hv, hp]
  | triple p row t1 t2 t3 hp h1 h2 h3 ih1 ih2 ih3 =>
    obtain ⟨fuel, rfl⟩ : ∃ n, fuel = n + 1 := ⟨fuel - 1, by simp [handleRank] at hf; omega⟩
    have hv := (validHandle_iff s (tripleHandle p)).2 (Resolves.triple p row t1 t2 t3 hp h1 h2 h3).validPrior
    obtain ⟨p1, p2, p3⟩ := hi.prior p row hp
    have hle : p + 1 ≤ fuel := by simp [handleRank] at hf; omega
    simp [Fram.resolveWithin, hv, hp, ih1 (p1.handleRank_le.trans hle), ih2 (p2.handleRank_le.trans hle),
      ih3 (p3.handleRank_le.trans hle), bind, Except.bind]

/-- Resolving a handle returns the term it stands for. -/
theorem Interned.resolveHandle (hi : Interned Γ s) (hr : Resolves s h t) : resolveHandle s h = .ok t :=
  hi.resolveWithin hr hr.validPrior.handleRank_le

theorem Interned.resolveTripleHandle {p : Triple} (hi : Interned Γ s) (hr : Resolves s h p.term) : resolveTripleHandle s h = .ok p := by
  simp [Fram.resolveTripleHandle, hi.resolveHandle hr, bind, Except.bind]

/-- Two handles of terms that are equal under the host's `=` are one handle. -/
theorem Interned.handle_eq_of_eqv (hi : Interned Γ s) (hr : Resolves s h t) (hr' : Resolves s h' t') (he : t.eqv t' = true) : h = h' := by
  induction hr generalizing h' t' with
  | atom p a hp =>
    cases hr' with
    | atom q b hq => rw [hi.atomsApart p q a b hp hq he]
    | triple q row' u1 u2 u3 hq h1 h2 h3 => simp [Term.eqv] at he
  | triple p row t1 t2 t3 hp h1 h2 h3 ih1 ih2 ih3 =>
    cases hr' with
    | atom q b hq => simp [Term.eqv] at he
    | triple q row' u1 u2 u3 hq g1 g2 g3 =>
      simp only [Term.eqv, Bool.and_eq_true] at he
      have e1 := ih1 g1 he.1.1
      have e2 := ih2 g2 he.1.2
      have e3 := ih3 g3 he.2
      have : row = row' := by
        cases row
        cases row'
        simp_all
      subst this
      rw [hi.triplesApart p q row hp hq]

end Resolution

/-! ## Adding terms -/

section Adding

variable {Γ : Host} {s : TermStore}

theorem prefix_concat {α : Type*} (l : List α) (x : α) : l <+: l ++ [x] := ⟨[x], rfl⟩

/-- Interning an atom adds rows only, and its handle names a row. -/
theorem internAtom_grows (Γ : Host) (s : TermStore) (a : Atom) : Grows s (internAtom Γ s a).1 ∧
    ∃ p, (internAtom Γ s a).2 = atomHandle p ∧ p < (internAtom Γ s a).1.atoms.length := by
  unfold internAtom
  cases hf : findAtomPosition Γ s.atoms s.atomSlots a with
  | some known =>
    obtain ⟨b, hb, -⟩ := findPosition_some hf
    exact ⟨Grows.refl s, known, rfl, (List.getElem?_eq_some_iff.1 hb).1⟩
  | none => exact ⟨⟨prefix_concat _ _, List.prefix_refl _, rfl⟩, s.atoms.length, rfl, by simp⟩

/-- Interning a row adds rows only, and its handle names a row. -/
theorem internRow_grows (Γ : Host) (s : TermStore) (row : TripleRow) : Grows s (internRow Γ s row).1 ∧
    ∃ p, (internRow Γ s row).2 = tripleHandle p ∧ p < (internRow Γ s row).1.triples.length := by
  unfold internRow
  cases hf : findTriplePosition Γ s.triples s.tripleSlots row with
  | some known =>
    obtain ⟨b, hb, -⟩ := findPosition_some hf
    exact ⟨Grows.refl s, known, rfl, (List.getElem?_eq_some_iff.1 hb).1⟩
  | none => exact ⟨⟨List.prefix_refl _, prefix_concat _ _, rfl⟩, s.triples.length, rfl, by simp⟩

/-- Interning a term adds rows only, and its handle names a row, whatever the tables hold. -/
theorem internHandle_grows (Γ : Host) (s : TermStore) (t : Term) : Grows s (internHandle Γ s t).1 ∧
    ValidPrior (internHandle Γ s t).1.atoms.length (internHandle Γ s t).1.triples.length (internHandle Γ s t).2 := by
  induction t generalizing s with
  | atom a =>
    obtain ⟨hg, p, hp, hlt⟩ := internAtom_grows Γ s a
    exact ⟨hg, Or.inl ⟨p, hp, hlt⟩⟩
  | triple t1 t2 t3 ih1 ih2 ih3 =>
    simp only [internHandle]
    obtain ⟨hg, p, hp, hlt⟩ := internRow_grows Γ (internHandle Γ (internHandle Γ (internHandle Γ s t1).1 t2).1 t3).1
      ⟨(internHandle Γ s t1).2, (internHandle Γ (internHandle Γ s t1).1 t2).2,
        (internHandle Γ (internHandle Γ (internHandle Γ s t1).1 t2).1 t3).2⟩
    exact ⟨(((ih1 s).1.trans (ih2 _).1).trans (ih3 _).1).trans hg, Or.inr ⟨p, hp, hlt⟩⟩

/-- What interning one atom does. -/
theorem internAtom_spec (hi : Interned Γ s) (a : Atom) : Interned Γ (internAtom Γ s a).1 ∧ Grows s (internAtom Γ s a).1 ∧
      ∃ b, Resolves (internAtom Γ s a).1 (internAtom Γ s a).2 (.atom b) ∧ b.canon = a.canon ∧
        (a.isNaN = true → ¬ValidPrior s.atoms.length s.triples.length (internAtom Γ s a).2) := by
  unfold internAtom
  cases hf : findAtomPosition Γ s.atoms s.atomSlots a with
  | some known =>
    obtain ⟨b, hb, he⟩ := findPosition_some hf
    rw [Atom.eqv_iff] at he
    refine ⟨hi, Grows.refl s, b, .atom known b hb, he.2, fun hn => ?_⟩
    rw [← Atom.isNaN_canon, ← he.2, Atom.isNaN_canon, he.1] at hn
    cases hn
  | none =>
    have hnew : ∀ (p : Nat) b, s.atoms[p]? = some b → b.eqv a = false := by
      intro p b hp
      cases hb : b.eqv a with
      | false => rfl
      | true =>
        have := findPosition_none hi.atomIndex hf hp (Γ.hashAtom_eqv b a hb)
        rw [← this, hb]
    have hnew' : ∀ b, b.eqv a = a.eqv b := by
      intro b
      rw [Bool.eq_iff_iff, Atom.eqv_iff, Atom.eqv_iff]
      constructor
      · rintro ⟨h1, h2⟩
        exact ⟨by rw [← Atom.isNaN_canon, ← h2, Atom.isNaN_canon, h1], h2.symm⟩
      · rintro ⟨h1, h2⟩
        exact ⟨by rw [← Atom.isNaN_canon, ← h2, Atom.isNaN_canon, h1], h2.symm⟩
    refine ⟨⟨?_, ?_, hi.triplesApart, ?_, hi.tripleIndex⟩, ⟨prefix_concat _ _, List.prefix_refl _, rfl⟩, a, .atom _ a (by simp), rfl, ?_⟩
    · intro p row hp
      have hle : s.atoms.length ≤ (s.atoms ++ [a]).length := by simp
      obtain ⟨h1, h2, h3⟩ := hi.prior p row hp
      exact ⟨h1.mono hle (Nat.le_refl p), h2.mono hle (Nat.le_refl p), h3.mono hle (Nat.le_refl p)⟩
    · intro i j b c hb hc he
      simp only [List.getElem?_append, List.getElem?_singleton] at hb hc
      split at hb <;> split at hc
      · exact hi.atomsApart i j b c hb hc he
      · split at hc
        · cases hc
          rw [hnew i b hb] at he
          cases he
        · cases hc
      · split at hb
        · cases hb
          rw [← hnew', hnew j c hc] at he
          cases he
        · cases hb
      · split at hb <;> split at hc
        · omega
        · cases hc
        · cases hb
        · cases hb
    · have := hi.atomIndex.indexRow (Γ.hashAtom a)
      simpa using this
    · rintro - (⟨p, hp, hlt⟩ | ⟨p, hp, hlt⟩)
      · have := atomHandle_inj hp
        omega
      · exact atomHandle_ne_tripleHandle _ _ hp

/-- What interning one row does. -/
theorem internRow_spec (hi : Interned Γ s) {row : TripleRow}
    (h1 : ValidPrior s.atoms.length s.triples.length row.t1) (h2 : ValidPrior s.atoms.length s.triples.length row.t2)
    (h3 : ValidPrior s.atoms.length s.triples.length row.t3) : Interned Γ (internRow Γ s row).1 ∧ Grows s (internRow Γ s row).1 ∧
      ∃ p, (internRow Γ s row).2 = tripleHandle p ∧ (internRow Γ s row).1.triples[p]? = some row := by
  unfold internRow
  cases hf : findTriplePosition Γ s.triples s.tripleSlots row with
  | some known =>
    obtain ⟨row', hr, he⟩ := findPosition_some hf
    rw [beq_iff_eq] at he
    subst he
    exact ⟨hi, Grows.refl s, known, rfl, hr⟩
  | none =>
    have hnew : ∀ p : Nat, s.triples[p]? ≠ some row := by
      intro p hp
      have := findPosition_none hi.tripleIndex hf hp rfl
      simp at this
    refine ⟨⟨?_, hi.atomsApart, ?_, hi.atomIndex, ?_⟩, ⟨List.prefix_refl _, prefix_concat _ _, rfl⟩, s.triples.length, rfl, by simp⟩
    · intro p row' hp
      simp only [List.getElem?_append, List.getElem?_singleton] at hp
      split at hp
      · exact hi.prior p row' hp
      · split at hp
        · cases hp
          obtain rfl : p = s.triples.length := by omega
          exact ⟨h1, h2, h3⟩
        · cases hp
    · intro i j row' hp hq
      simp only [List.getElem?_append, List.getElem?_singleton] at hp hq
      split at hp <;> split at hq
      · exact hi.triplesApart i j row' hp hq
      · split at hq
        · cases hq
          exact absurd hp (hnew i)
        · cases hq
      · split at hp
        · cases hp
          exact absurd hq (hnew j)
        · cases hp
      · split at hp <;> split at hq
        · omega
        · cases hq
        · cases hp
        · cases hp
    · have := hi.tripleIndex.indexRow (row.hash Γ)
      simpa using this

/-- Interning a term keeps the invariant, adds rows only, and returns a handle of the term up to the sign of zeros. The handle
of a term with a NaN is new. -/
theorem internHandle_spec (hi : Interned Γ s) (t : Term) : Interned Γ (internHandle Γ s t).1 ∧ Grows s (internHandle Γ s t).1 ∧
      ∃ t', Resolves (internHandle Γ s t).1 (internHandle Γ s t).2 t' ∧ t'.same t ∧
        (t.hasNaN = true → ¬ValidPrior s.atoms.length s.triples.length (internHandle Γ s t).2) := by
  induction t generalizing s with
  | atom a =>
    obtain ⟨h1, h2, b, hr, hc, hn⟩ := internAtom_spec hi a
    exact ⟨h1, h2, .atom b, hr, congrArg Term.atom hc, hn⟩
  | triple t1 t2 t3 ih1 ih2 ih3 =>
    simp only [internHandle]
    obtain ⟨i1, g1, u1, r1, e1, n1⟩ := ih1 hi
    generalize internHandle Γ s t1 = x1 at *
    obtain ⟨s1, h1⟩ := x1
    obtain ⟨i2, g2, u2, r2, e2, n2⟩ := ih2 i1
    generalize internHandle Γ s1 t2 = x2 at *
    obtain ⟨s2, h2⟩ := x2
    obtain ⟨i3, g3, u3, r3, e3, n3⟩ := ih3 i2
    generalize internHandle Γ s2 t3 = x3 at *
    obtain ⟨s3, h3⟩ := x3
    dsimp only at *
    have r1' := r1.mono (g2.trans g3).atoms (g2.trans g3).triples
    have r2' := r2.mono g3.atoms g3.triples
    obtain ⟨i4, g4, p, hp, hrow⟩ := @internRow_spec _ _ i3 ⟨h1, h2, h3⟩ r1'.validPrior r2'.validPrior r3.validPrior
    refine ⟨i4, ((g1.trans g2).trans g3).trans g4, .triple u1 u2 u3, ?_, Term.same_triple_iff.2 ⟨e1, e2, e3⟩, ?_⟩
    · rw [hp]
      exact .triple p _ u1 u2 u3 hrow (r1'.mono g4.atoms g4.triples) (r2'.mono g4.atoms g4.triples)
        (r3.mono g4.atoms g4.triples)
    · intro hn hv
      -- A row that is already there names handles that are already there, so no part holds a NaN.
      obtain ⟨q, hq, hlt⟩ : ∃ q, tripleHandle p = tripleHandle q ∧ q < s.triples.length := by
        rw [hp] at hv
        rcases hv with ⟨q, hq, -⟩ | ⟨q, hq, hlt⟩
        · exact absurd hq.symm (atomHandle_ne_tripleHandle q p)
        · exact ⟨q, hq, hlt⟩
      obtain rfl := tripleHandle_inj hq
      have hold := getElem?_of_isPrefix (((g1.trans g2).trans g3).trans g4).triples (List.getElem?_eq_getElem hlt)
      rw [hrow] at hold
      obtain ⟨p1, p2, p3⟩ := hi.prior p _ (List.getElem?_eq_getElem hlt)
      rw [← Option.some.inj hold] at p1 p2 p3
      have hle1 := g1.atoms.length_le
      have hle2 := g1.triples.length_le
      have hle3 := (g1.trans g2).atoms.length_le
      have hle4 := (g1.trans g2).triples.length_le
      simp only [Term.hasNaN, Bool.or_eq_true] at hn
      rcases hn with (hn | hn) | hn
      · exact n1 hn (p1.mono (Nat.le_refl _) hlt.le)
      · exact n2 hn (p2.mono hle1 (hlt.le.trans hle2))
      · exact n3 hn (p3.mono hle3 (hlt.le.trans hle4))

end Adding

/-- An empty store has well-formed term tables. -/
theorem interned_newTermStoreSized (Γ : Host) {spaceId : String} {a t b : Nat} {s : TermStore}
    (h : newTermStoreSized spaceId a t b = .ok s) : Interned Γ s := by
  unfold newTermStoreSized at h
  split at h
  · cases h
    exact ⟨by simp, by simp, by simp, by simpa using indexes_freshSlots (termSlotsWidthFor_pos a),
      by simpa using indexes_freshSlots (termSlotsWidthFor_pos t)⟩
  · cases h

end Fram
