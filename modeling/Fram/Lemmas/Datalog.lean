import Fram.Fixpoint
import Fram.Lib.ExceptList

/-!
# Rows, substitutions, and what a literal means

Rows and substitutions are compared up to the sign of float zeros (`rowSame`, `Substitution.same`). `Holds` says when a literal takes
one substitution to another, over a reading that gives the rows of each relation; `BodyHolds` chains the literals of a body, and
`Derives` reads the head off. A reading that has more rows for the literals that read, and no more for those that negate, derives no
less (`Derives.mono`): this one lemma is both the monotonicity of a round and the congruence up to the sign of zeros.
-/

namespace Fram

namespace Datalog

variable {rows new : List Tuple} {r : Tuple} {name : String} {literal : Literal}

/-! ## Rows -/

/-- The two rows differ at most in the sign of float zeros. -/
def rowSame (row row' : Tuple) : Prop := List.Forall₂ Term.same row row'

@[refl] theorem rowSame.refl (row : Tuple) : rowSame row row := List.forall₂_same.2 fun _ _ => Term.same_refl _

theorem rowSame.symm {row row' : Tuple} (h : rowSame row row') : rowSame row' row :=
  h.flip.imp fun _ _ h => Term.same.symm h

theorem rowSame.trans {row row' row'' : Tuple} (h : rowSame row row') (h' : rowSame row' row'') : rowSame row row'' := by
  induction h generalizing row'' with
  | nil => exact h'
  | cons ha _ ih =>
    cases h' with
    | cons hb hrest => exact List.Forall₂.cons (ha.trans hb) (ih hrest)

/-- Some value of the row holds a NaN. -/
def rowHasNaN (row : Tuple) : Bool := row.any Term.hasNaN

/-- The host's `=` on rows: the same up to the sign of zeros, and free of NaN. -/
theorem rowEqv_iff (row row' : Tuple) : rowEqv row row' = true ↔ rowHasNaN row = false ∧ rowSame row row' := by
  induction row generalizing row' with
  | nil => cases row' <;> simp [rowEqv, rowHasNaN, rowSame]
  | cons a row ih =>
    cases row' with
    | nil => simp [rowEqv, rowSame]
    | cons b row' =>
      rw [rowEqv, Bool.and_eq_true, Term.eqv_iff, ih]
      simp only [rowHasNaN, rowSame, List.any_cons, Bool.or_eq_false_iff, List.forall₂_cons]
      tauto

theorem rowSame.hasNaN {row row' : Tuple} (h : rowSame row row') : rowHasNaN row = rowHasNaN row' := by
  induction h with
  | nil => rfl
  | cons ha _ ih =>
    simp only [rowHasNaN, List.any_cons] at ih ⊢
    rw [ha.hasNaN, ih]

theorem rowEqv_congr {a a' b b' : Tuple} (ha : rowSame a a') (hb : rowSame b b') : rowEqv a b = rowEqv a' b' := by
  rw [Bool.eq_iff_iff, rowEqv_iff, rowEqv_iff, ha.hasNaN]
  exact and_congr_right fun _ => ⟨fun h => ha.symm.trans (h.trans hb), fun h => ha.trans (h.trans hb.symm)⟩

theorem rowEqv_symm {a b : Tuple} (h : rowEqv a b = true) : rowEqv b a = true := by
  rw [rowEqv_iff] at h ⊢
  exact ⟨by rw [← h.2.hasNaN, h.1], h.2.symm⟩

/-! ## Relations as sets -/

theorem containsRow_iff {row : Tuple} : containsRow rows row = true ↔ ∃ r ∈ rows, rowEqv r row = true := by
  simp [containsRow, List.any_eq_true]

theorem mem_conjRow {row : Tuple} (h : r ∈ conjRow rows row) : r ∈ rows ∨ r = row := by
  unfold conjRow at h
  split at h
  · exact Or.inl h
  · simpa using h

theorem subset_conjRow {row : Tuple} (h : r ∈ rows) : r ∈ conjRow rows row := by
  unfold conjRow
  split
  · exact h
  · exact List.mem_append_left _ h

/-- A row that is added is there, up to the sign of zeros. -/
theorem exists_mem_conjRow (rows : List Tuple) (row : Tuple) : ∃ r ∈ conjRow rows row, rowSame row r := by
  unfold conjRow
  split
  · rename_i h
    obtain ⟨r, hr, he⟩ := containsRow_iff.1 h
    exact ⟨r, hr, ((rowEqv_iff _ _).1 he).2.symm⟩
  · exact ⟨row, by simp, rowSame.refl row⟩

theorem mem_intoRows (h : r ∈ intoRows rows new) : r ∈ rows ∨ r ∈ new := by
  induction new generalizing rows with
  | nil => exact Or.inl h
  | cons row new ih =>
    rcases ih h with h | h
    · rcases mem_conjRow h with h | h
      · exact Or.inl h
      · exact Or.inr (by simp [h])
    · exact Or.inr (List.mem_cons_of_mem _ h)

theorem subset_intoRows (h : r ∈ rows) : r ∈ intoRows rows new := by
  induction new generalizing rows with
  | nil => exact h
  | cons row new ih => exact ih (subset_conjRow h)

theorem exists_mem_intoRows (rows : List Tuple) {row : Tuple} (h : row ∈ new) : ∃ r ∈ intoRows rows new, rowSame row r := by
  induction new generalizing rows with
  | nil => cases h
  | cons first new ih =>
    rcases List.mem_cons.1 h with rfl | h
    · obtain ⟨r, hr, hs⟩ := exists_mem_conjRow rows row
      have hmem : r ∈ intoRows (conjRow rows row) new := subset_intoRows hr
      exact ⟨r, hmem, hs⟩
    · exact ih _ h

/-! ## Substitutions -/

/-- The two values differ at most in the sign of float zeros, if they are values. -/
def valueSame : Option Term → Option Term → Prop
  | some a, some b => a.same b
  | none, none => True
  | _, _ => False

theorem valueSame_cases {v w : Option Term} (h : valueSame v w) : (v = none ∧ w = none) ∨ ∃ a b, v = some a ∧ w = some b ∧ a.same b := by
  cases v with
  | none =>
    cases w with
    | none => exact Or.inl ⟨rfl, rfl⟩
    | some b => exact h.elim
  | some a =>
    cases w with
    | none => exact h.elim
    | some b => exact Or.inr ⟨a, b, rfl, rfl, h⟩

@[refl] theorem valueSame.refl (v : Option Term) : valueSame v v := by
  cases v
  · trivial
  · exact Term.same_refl _

theorem valueSame.trans {u v w : Option Term} (h : valueSame u v) (h' : valueSame v w) : valueSame u w := by
  cases u <;> cases v <;> cases w
  · trivial
  · exact h'
  · exact h.elim
  · exact h.elim
  · exact h.elim
  · exact h.elim
  · exact h'
  · exact Term.same.trans h h'

/-- The two substitutions bind the same variables, to values that differ at most in the sign of float zeros. -/
def Substitution.same (θ φ : Substitution) : Prop := ∀ name, valueSame (θ name) (φ name)

@[refl] theorem Substitution.same.refl (θ : Substitution) : θ.same θ := fun _ => valueSame.refl _

theorem Substitution.same.trans {θ φ ψ : Substitution} (h : θ.same φ) (h' : φ.same ψ) : θ.same ψ :=
  fun name => (h name).trans (h' name)

theorem Substitution.same.assoc {θ φ : Substitution} (h : θ.same φ) {v w : Term} (hv : v.same w) (name : String) :
    (θ.assoc name v).same (φ.assoc name w) := by
  intro other
  unfold Substitution.assoc
  by_cases ho : other = name
  · subst ho
    simpa [valueSame] using hv
  · rw [Function.update_of_ne ho, Function.update_of_ne ho]
    exact h other

/-- The substitution binds these variables. -/
def Binds (θ : Substitution) (names : List String) : Prop := ∀ name ∈ names, (θ name).isSome = true

theorem Substitution.assoc_self (θ : Substitution) (name : String) (value : Term) : θ.assoc name value name = some value :=
  Function.update_self ..

theorem Binds.assoc {θ : Substitution} {names : List String} (h : Binds θ names) (name : String) (value : Term) :
    Binds (θ.assoc name value) names := by
  intro other ho
  unfold Substitution.assoc
  by_cases he : other = name
  · subst he
    simp
  · rw [Function.update_of_ne he]
    exact h other ho

/-! ## Unification -/

section Unify

variable {θ θ' φ : Substitution} {v w : Term} {term : QueryTerm} {terms : List QueryTerm} {row row' : Tuple}

theorem termValue_congr (h : θ.same φ) (term : QueryTerm) : valueSame (termValue term θ) (termValue term φ) := by
  unfold termValue
  split
  · exact h _
  · exact valueSame.refl _

/-- Unification respects sameness of terms. -/
theorem unify_congr (h : θ.same φ) (hv : v.same w) (hu : unify term v θ = some θ') : ∃ φ', unify term w φ = some φ' ∧ θ'.same φ' := by
  unfold unify at hu ⊢
  cases hn : term.variableName with
  | some name =>
    simp only [hn] at hu ⊢
    have hname := h name
    cases hb : θ name with
    | some bound =>
      cases hb' : φ name with
      | none => rw [hb, hb'] at hname; exact hname.elim
      | some bound' =>
        rw [hb, hb'] at hname
        simp only [hb] at hu ⊢
        rw [← Term.eqv_congr hname hv]
        split at hu
        · rename_i heqv
          cases hu
          exact ⟨φ, by rw [if_pos heqv], h⟩
        · cases hu
    | none =>
      cases hb' : φ name with
      | some bound' => rw [hb, hb'] at hname; exact hname.elim
      | none =>
        simp only [hb] at hu
        cases hu
        exact ⟨_, rfl, h.assoc hv name⟩
  | none =>
    simp only [hn] at hu ⊢
    cases hc : term.value with
    | none => rw [hc] at hu; cases hu
    | some known =>
      simp only [hc] at hu ⊢
      rw [← Term.eqv_congr (Term.same_refl known) hv]
      split at hu
      · rename_i heqv
        cases hu
        exact ⟨φ, by rw [if_pos heqv], h⟩
      · cases hu

theorem unifyRow_congr (h : θ.same φ) (hr : rowSame row row') (hu : unifyRow terms row θ = some θ') :
    ∃ φ', unifyRow terms row' φ = some φ' ∧ θ'.same φ' := by
  induction hr generalizing terms θ φ with
  | nil =>
    cases terms <;> (cases hu; exact ⟨φ, rfl, h⟩)
  | @cons a b row row' hab _ ih =>
    cases terms with
    | nil => cases hu; exact ⟨φ, rfl, h⟩
    | cons term terms =>
      rw [unifyRow] at hu ⊢
      cases hone : unify term a θ with
      | none => rw [hone] at hu; cases hu
      | some θ₁ =>
        rw [hone] at hu
        obtain ⟨φ₁, h₁, hs⟩ := unify_congr h hab hone
        rw [h₁]
        exact ih hs hu

theorem unifyArguments_congr (h : θ.same φ) (hr : rowSame row row') (hu : unifyArguments terms row θ = some θ') :
    ∃ φ', unifyArguments terms row' φ = some φ' ∧ θ'.same φ' := by
  unfold unifyArguments at hu ⊢
  rw [← hr.length_eq]
  split at hu
  · rename_i hl
    rw [if_pos hl]
    exact unifyRow_congr h hr hu
  · cases hu

/-- Unification keeps what is bound. -/
theorem unify_keeps (hu : unify term v θ = some θ') {a : Term} (hb : θ name = some a) : θ' name = some a := by
  unfold unify at hu
  split at hu
  · rename_i other hn
    split at hu
    · split at hu
      · cases hu; exact hb
      · cases hu
    · rename_i hnone
      cases hu
      have hne : name ≠ other := by
        rintro rfl
        rw [hb] at hnone
        cases hnone
      rw [Substitution.assoc, Function.update_of_ne hne]
      exact hb
  · split at hu
    · split at hu
      · cases hu; exact hb
      · cases hu
    · cases hu

/-- After unification the value of the term is the value it was unified with, under the host's `=` when it was bound before. -/
theorem unify_value (hu : unify term v θ = some θ') :
    (∃ a, termValue term θ = some a ∧ a.eqv v = true) ∨ (termValue term θ = none ∧ ∃ name, term.variableName = some name ∧ θ' name = some v) := by
  unfold unify at hu
  unfold termValue
  cases hn : term.variableName with
  | some name =>
    simp only [hn] at hu ⊢
    cases hb : θ name with
    | some bound =>
      simp only [hb] at hu
      split at hu
      · rename_i heqv
        exact Or.inl ⟨bound, rfl, heqv⟩
      · cases hu
    | none =>
      simp only [hb] at hu
      cases hu
      exact Or.inr ⟨rfl, name, rfl, Substitution.assoc_self ..⟩
  | none =>
    simp only [hn] at hu ⊢
    cases hc : term.value with
    | some known =>
      simp only [hc] at hu
      split at hu
      · rename_i heqv
        exact Or.inl ⟨known, rfl, heqv⟩
      · cases hu
    | none => simp [hc] at hu

theorem unifyRow_keeps (hu : unifyRow terms row θ = some θ') {a : Term} (hb : θ name = some a) : θ' name = some a := by
  induction terms generalizing row θ with
  | nil => cases hu; exact hb
  | cons term terms ih =>
    cases row with
    | nil => cases hu; exact hb
    | cons b row =>
      rw [unifyRow] at hu
      cases hone : unify term b θ with
      | none => rw [hone] at hu; cases hu
      | some θ₁ =>
        rw [hone] at hu
        exact ih hu (unify_keeps hone hb)

/-- Unification binds the variables of the terms. -/
theorem unifyRow_binds (hl : terms.length = row.length) (hu : unifyRow terms row θ = some θ') {term : QueryTerm} (ht : term ∈ terms)
    (hn : term.variableName = some name) : (θ' name).isSome = true := by
  induction terms generalizing row θ with
  | nil => cases ht
  | cons first terms ih =>
    cases row with
    | nil => cases hl
    | cons b row =>
      rw [unifyRow] at hu
      cases hone : unify first b θ with
      | none => rw [hone] at hu; cases hu
      | some θ₁ =>
        rw [hone] at hu
        rcases List.mem_cons.1 ht with rfl | ht
        · rcases unify_value hone with ⟨a, ha, -⟩ | ⟨-, other, ho, hb⟩
          · have hb : θ name = some a := by simpa [termValue, hn] using ha
            rw [unifyRow_keeps hu (unify_keeps hone hb)]
            rfl
          · cases ho.symm.trans hn
            rw [unifyRow_keeps hu hb]
            rfl
        · exact ih (by simpa using hl) hu ht

/-- A value that an argument has before unification is equal to the row's. -/
theorem unifyRow_value (hu : unifyRow terms row θ = some θ') {i : Nat} {term : QueryTerm} {a b : Term} (ht : terms[i]? = some term)
    (ha : termValue term θ = some a) (hb : row[i]? = some b) : a.eqv b = true := by
  induction terms generalizing row θ i with
  | nil => simp at ht
  | cons first terms ih =>
    cases row with
    | nil => simp at hb
    | cons c row =>
      rw [unifyRow] at hu
      cases hone : unify first c θ with
      | none => rw [hone] at hu; cases hu
      | some θ₁ =>
        rw [hone] at hu
        cases i with
        | zero =>
          simp only [List.getElem?_cons_zero, Option.some.injEq] at ht hb
          subst ht
          subst hb
          rcases unify_value hone with ⟨a', ha', heqv⟩ | ⟨hnone, -⟩
          · rw [ha] at ha'
            cases ha'
            exact heqv
          · rw [ha] at hnone
            cases hnone
        | succ i =>
          simp only [List.getElem?_cons_succ] at ht hb
          refine ih hu ht ?_ hb
          unfold termValue at ha ⊢
          split
          · rename_i name hn
            simp only [hn] at ha
            exact unify_keeps hone ha
          · rename_i hn
            simpa only [hn] using ha

/-- The row that the arguments are, value by value. -/
theorem ground_eq_ok_iff : ground terms θ = .ok row ↔ List.Forall₂ (fun term value => termValue term θ = some value) terms row := by
  unfold ground
  rw [ExceptList.mapM_eq_ok_iff]
  constructor
  · intro h
    refine h.imp fun term value ht => ?_
    cases hv : termValue term θ with
    | none => rw [hv] at ht; cases ht
    | some a => rw [hv] at ht; cases ht; rfl
  · intro h
    refine h.imp fun term value ht => ?_
    rw [ht]

theorem ground_congr (h : θ.same φ) (hg : ground terms θ = .ok row) : ∃ row', ground terms φ = .ok row' ∧ rowSame row row' := by
  rw [ground_eq_ok_iff] at hg
  induction hg with
  | nil => exact ⟨[], rfl, .nil⟩
  | @cons term value terms row hv _ ih =>
    obtain ⟨row', hrow, hs⟩ := ih
    have hterm := termValue_congr h term
    rw [hv] at hterm
    cases hw : termValue term φ with
    | none => rw [hw] at hterm; exact hterm.elim
    | some w =>
      rw [hw] at hterm
      exact ⟨w :: row', ground_eq_ok_iff.2 (.cons hw (ground_eq_ok_iff.1 hrow)), .cons hterm hs⟩

/-- The arguments unify with a row equal to what they are, and bind nothing new. -/
theorem unifyArguments_ground (hg : ground terms θ = .ok row) (he : rowEqv row row' = true) : unifyArguments terms row' θ = some θ := by
  rw [ground_eq_ok_iff] at hg
  have hlen := hg.length_eq.trans ((rowEqv_iff _ _).1 he).2.length_eq
  rw [unifyArguments, if_pos hlen]
  clear hlen
  induction hg generalizing row' with
  | nil => cases row' <;> rfl
  | @cons term value terms row hv _ ih =>
    cases row' with
    | nil => simp [rowEqv] at he
    | cons b row' =>
      rw [rowEqv, Bool.and_eq_true] at he
      have hone : unify term b θ = some θ := by
        unfold unify
        unfold termValue at hv
        cases hn : term.variableName with
        | some name =>
          simp only [hn] at hv ⊢
          simp only [hv, if_pos he.1]
        | none =>
          simp only [hn] at hv ⊢
          simp only [hv, if_pos he.1]
      rw [unifyRow, hone]
      exact ih he.2

end Unify

/-! ## Comparisons and builtins -/

section Values

variable {a a' b b' : Term}

theorem integerValue_congr (h : a.same a') : integerValue a = integerValue a' := by
  cases a with
  | triple a1 a2 a3 =>
    cases a' with
    | triple => rfl
    | atom => simp [Term.same, Term.canon] at h
  | atom x =>
    cases a' with
    | triple => simp [Term.same, Term.canon] at h
    | atom y =>
      simp only [Term.same, Term.canon, Term.atom.injEq] at h
      cases x <;> cases y <;> simp_all [Atom.canon, integerValue]

/-- Two values that are the same are the same number, up to the sign of zero, if they are numbers. -/
theorem numericValue_congr (h : a.same a') : (numericValue a).map F64.canon = (numericValue a').map F64.canon := by
  cases a with
  | triple a1 a2 a3 =>
    cases a' with
    | triple => rfl
    | atom => simp [Term.same, Term.canon] at h
  | atom x =>
    cases a' with
    | triple => simp [Term.same, Term.canon] at h
    | atom y =>
      simp only [Term.same, Term.canon, Term.atom.injEq] at h
      cases x <;> cases y <;> simp_all [Atom.canon, numericValue]

/-- The numbers that two values are: neither is one, or both are and agree up to the sign of zero. -/
theorem numericValue_cases (h : a.same a') : (numericValue a = none ∧ numericValue a' = none) ∨
      ∃ x x', numericValue a = some x ∧ numericValue a' = some x' ∧ x.canon = x'.canon := by
  have hc := numericValue_congr h
  cases hx : numericValue a with
  | none =>
    rw [hx] at hc
    cases hx' : numericValue a' with
    | none => exact Or.inl ⟨rfl, rfl⟩
    | some x' => rw [hx'] at hc; cases hc
  | some x =>
    rw [hx] at hc
    cases hx' : numericValue a' with
    | none => rw [hx'] at hc; cases hc
    | some x' => exact Or.inr ⟨x, x', rfl, rfl, by rw [hx'] at hc; exact Option.some.inj hc⟩

theorem compareValues_congr (operator : Keyword) (ha : a.same a') (hb : b.same b') :
    compareValues operator a b = compareValues operator a' b' := by
  unfold compareValues
  rw [Term.eqv_congr ha hb]
  rcases numericValue_cases ha with ⟨hx, hx'⟩ | ⟨x, x', hx, hx', hxc⟩
  · rw [hx, hx']
  · rcases numericValue_cases hb with ⟨hy, hy'⟩ | ⟨y, y', hy, hy', hyc⟩
    · rw [hx, hx', hy, hy']
    · rw [hx, hx', hy, hy']
      simp only [F64.lt_canon hxc hyc, F64.le_canon hxc hyc, F64.lt_canon hyc hxc, F64.le_canon hyc hxc]

/-- Two results of a builtin that are one integer, or doubles that agree up to the sign of zero, or nothing. -/
def BuiltinValueResult.same (r r' : BuiltinValueResult) : Prop :=
  r.intValue = r'.intValue ∧ r.doubleValue.map F64.canon = r'.doubleValue.map F64.canon

theorem doubleBuiltinValue_congr (operator : Keyword) {x x' y y' : F64} (hx : x.canon = x'.canon) (hy : y.canon = y'.canon)
    (hz : operator = ⟨"/"⟩ → y.isZero = false) : (doubleBuiltinValue operator x y).canon = (doubleBuiltinValue operator x' y').canon := by
  unfold doubleBuiltinValue
  split
  · rename_i h
    exact F64.div_canon hx hy (hz h)
  · split
    · exact F64.add_canon hx hy
    · split
      · exact F64.sub_canon hx hy
      · exact F64.mul_canon hx hy

theorem eqv_zero (x : F64) : x.eqv F64.zero = x.isZero := by
  have hzero : F64.zero.isZero = true := by decide
  rw [Bool.eq_iff_iff, F64.eqv_iff, F64.canon_eq_iff]
  constructor
  · rintro ⟨-, rfl | ⟨h, -⟩⟩
    · exact hzero
    · exact h
  · exact fun h => ⟨F64.isNaN_of_isZero h, Or.inr ⟨h, hzero⟩⟩

theorem builtinValue_congr (operator : Keyword) (ha : a.same a') (hb : b.same b') :
    (builtinValue operator a b).same (builtinValue operator a' b') := by
  unfold builtinValue
  rw [integerValue_congr ha, integerValue_congr hb]
  split
  · exact ⟨rfl, rfl⟩
  · split
    · rename_i hdiv
      rcases numericValue_cases ha with ⟨hx, hx'⟩ | ⟨x, x', hx, hx', hxc⟩
      · rw [hx, hx']
        exact ⟨rfl, rfl⟩
      · rcases numericValue_cases hb with ⟨hy, hy'⟩ | ⟨y, y', hy, hy', hyc⟩
        · rw [hx, hx', hy, hy']
          exact ⟨rfl, rfl⟩
        · rw [hx, hx', hy, hy']
          simp only [eqv_zero, ← F64.isZero_congr hyc]
          split
          · exact ⟨rfl, rfl⟩
          · rename_i hz
            exact ⟨rfl, congrArg some (doubleBuiltinValue_congr operator hxc hyc fun _ => by simpa using hz)⟩
    · rename_i hdiv
      split
      · split
        · exact ⟨rfl, rfl⟩
        · rcases numericValue_cases ha with ⟨hx, hx'⟩ | ⟨x, x', hx, hx', hxc⟩
          · rw [hx, hx']
            exact ⟨rfl, rfl⟩
          · rcases numericValue_cases hb with ⟨hy, hy'⟩ | ⟨y, y', hy, hy', hyc⟩
            · rw [hx, hx', hy, hy']
              exact ⟨rfl, rfl⟩
            · rw [hx, hx', hy, hy']
              exact ⟨rfl, congrArg some (doubleBuiltinValue_congr operator hxc hyc fun h => absurd h hdiv)⟩
      · exact ⟨rfl, rfl⟩

end Values

theorem comparisonResult_congr (literal : Literal) {θ φ : Substitution} (h : θ.same φ) :
    comparisonResult literal θ = comparisonResult literal φ := by
  unfold comparisonResult
  cases nth literal.arguments 0 with
  | error e => rfl
  | ok left =>
    cases nth literal.arguments 1 with
    | error e => rfl
    | ok right =>
      simp only [bind, Except.bind]
      rcases valueSame_cases (termValue_congr h left) with ⟨ha, ha'⟩ | ⟨a, a', ha, ha', hs⟩
      · rw [ha, ha']
      · rcases valueSame_cases (termValue_congr h right) with ⟨hb, hb'⟩ | ⟨b, b', hb, hb', hs'⟩
        · rw [ha, ha', hb, hb']
        · rw [ha, ha', hb, hb']
          simp only [compareValues_congr literal.operator hs hs']

/-- What a builtin binds: its value for the two operands, when it has one. -/
theorem builtinResults_mem_iff {left right : QueryTerm} (h0 : nth literal.arguments 0 = .ok left)
    (h1 : nth literal.arguments 1 = .ok right) {θ : Substitution} {rs : List Substitution} (hr : builtinResults literal θ = .ok rs)
    (θ' : Substitution) : θ' ∈ rs ↔ ∃ a b, termValue left θ = some a ∧ termValue right θ = some b ∧
      ((∃ n, (builtinValue literal.operator a b).intValue = some n ∧ θ' = θ.assoc literal.binding (.int n)) ∨
        (∃ x, (builtinValue literal.operator a b).intValue = none ∧ (builtinValue literal.operator a b).doubleValue = some x ∧
          θ' = θ.assoc literal.binding (.atom (.float x)))) := by
  unfold builtinResults at hr
  rw [h0, h1] at hr
  simp only [bind, Except.bind] at hr
  cases ha : termValue left θ with
  | none => rw [ha] at hr; cases hr; simp
  | some a =>
    cases hb : termValue right θ with
    | none => rw [ha, hb] at hr; cases hr; simp
    | some b =>
      simp only [ha, hb] at hr
      cases hi : (builtinValue literal.operator a b).intValue with
      | some n => simp only [hi] at hr; cases hr; simp [hi]
      | none =>
        cases hd : (builtinValue literal.operator a b).doubleValue with
        | some x => simp only [hi, hd] at hr; cases hr; simp [hi, hd]
        | none => simp only [hi, hd] at hr; cases hr; simp [hi, hd]

/-- A builtin of two arguments does not throw. -/
theorem builtinResults_ok (h : literal.arguments.length = 2) (θ : Substitution) : ∃ rs, builtinResults literal θ = .ok rs := by
  obtain ⟨left, right, hargs⟩ : ∃ left right, literal.arguments = [left, right] := List.length_eq_two.1 h
  unfold builtinResults
  rw [hargs]
  simp only [nth, bind, Except.bind, List.getElem?_cons_zero, List.getElem?_cons_succ]
  cases termValue left θ with
  | none => exact ⟨[], rfl⟩
  | some a =>
    cases termValue right θ with
    | none => exact ⟨[], rfl⟩
    | some b =>
      cases hi : (builtinValue literal.operator a b).intValue with
      | some n => exact ⟨_, by simp only [hi]; rfl⟩
      | none =>
        cases hd : (builtinValue literal.operator a b).doubleValue with
        | some x => exact ⟨_, by simp only [hi, hd]; rfl⟩
        | none => exact ⟨_, by simp only [hi, hd]; rfl⟩

/-- A comparison of two arguments does not throw. -/
theorem comparisonResult_ok (h : literal.arguments.length = 2) (θ : Substitution) : ∃ b, comparisonResult literal θ = .ok b := by
  obtain ⟨left, right, hargs⟩ : ∃ left right, literal.arguments = [left, right] := List.length_eq_two.1 h
  unfold comparisonResult
  rw [hargs]
  simp only [nth, bind, Except.bind, List.getElem?_cons_zero, List.getElem?_cons_succ]
  cases termValue left θ with
  | none => exact ⟨false, rfl⟩
  | some a =>
    cases termValue right θ with
    | none => exact ⟨false, rfl⟩
    | some b => exact ⟨_, rfl⟩

/-- A builtin gives the same for terms that are the same. -/
theorem builtinResults_congr (hlen : literal.arguments.length = 2) {θ φ θ' : Substitution} (h : θ.same φ)
    {rs : List Substitution} (hr : builtinResults literal θ = .ok rs) (hm : θ' ∈ rs) :
    ∃ rs' φ', builtinResults literal φ = .ok rs' ∧ φ' ∈ rs' ∧ θ'.same φ' := by
  obtain ⟨left, right, hargs⟩ : ∃ left right, literal.arguments = [left, right] := List.length_eq_two.1 hlen
  have h0 : nth literal.arguments 0 = .ok left := by rw [hargs]; rfl
  have h1 : nth literal.arguments 1 = .ok right := by rw [hargs]; rfl
  obtain ⟨rs', hr'⟩ := builtinResults_ok hlen φ
  obtain ⟨a, b, ha, hb, hv⟩ := (builtinResults_mem_iff h0 h1 hr θ').1 hm
  have hl := termValue_congr h left
  have hrt := termValue_congr h right
  rw [ha] at hl
  rw [hb] at hrt
  cases ha' : termValue left φ with
  | none => rw [ha'] at hl; exact hl.elim
  | some a' =>
    cases hb' : termValue right φ with
    | none => rw [hb'] at hrt; exact hrt.elim
    | some b' =>
      rw [ha'] at hl
      rw [hb'] at hrt
      have hmem := builtinResults_mem_iff h0 h1 hr'
      obtain ⟨hint, hdouble⟩ := builtinValue_congr literal.operator hl hrt
      rcases hv with ⟨n, hn, rfl⟩ | ⟨x, hn, hx, rfl⟩
      · exact ⟨rs', _, hr', (hmem _).2 ⟨a', b', ha', hb', Or.inl ⟨n, by rw [← hint, hn], rfl⟩⟩, h.assoc (Term.same_refl _) _⟩
      · rw [hx] at hdouble
        cases hx' : (builtinValue literal.operator a' b').doubleValue with
        | none => rw [hx'] at hdouble; cases hdouble
        | some x' =>
          rw [hx'] at hdouble
          have hs : (Term.atom (.float x)).same (.atom (.float x')) := by
            simpa [Term.same, Term.canon, Atom.canon] using hdouble
          exact ⟨rs', _, hr', (hmem _).2 ⟨a', b', ha', hb', Or.inr ⟨x', by rw [← hint, hn], hx', rfl⟩⟩, h.assoc hs _⟩

/-! ## What a literal, a body and a rule mean -/

/-- What literals read: the rows of each relation, and the rows that a negation finds there. The rows of a relation that searches text
depend on the needle. -/
structure Reading where
  rows : String → Option Term → Set Tuple
  negated : String → Set Tuple

/-- The value of the third argument of a literal, the needle of a relation that searches text. -/
def needle (literal : Literal) (θ : Substitution) : Option Term := literal.arguments[2]?.bind fun term => termValue term θ

/-- The literal takes a substitution to another: it unifies with a row that is read, no row read is what it negates, it compares, or it
computes. -/
inductive Holds (R : Reading) (literal : Literal) (θ : Substitution) : Substitution → Prop
  | row {θ' : Substitution} (hpos : isPositive literal = true) (row : Tuple) (hrow : row ∈ R.rows literal.relation (needle literal θ))
      (hu : unifyArguments literal.arguments row θ = some θ') : Holds R literal θ θ'
  | absent (hkind : literal.kind = relationKind) (hneg : literal.negated = true) (wanted : Tuple)
      (hg : ground literal.arguments θ = .ok wanted)
      (habs : ∀ row ∈ R.negated literal.relation, rowEqv row wanted = false) : Holds R literal θ θ
  | compares (hkind : literal.kind = comparisonKind) (hc : comparisonResult literal θ = .ok true) : Holds R literal θ θ
  | computes {θ' : Substitution} (hkind : literal.kind = builtinKind) (hlen : literal.arguments.length = 2)
      (found : List Substitution) (hf : builtinResults literal θ = .ok found) (hm : θ' ∈ found) : Holds R literal θ θ'

/-- The body takes a substitution to another, literal by literal; the literal at each position has a reading of its own. -/
def BodyHolds (R : Nat → Reading) : Nat → List Literal → Substitution → Substitution → Prop
  | _, [], θ, θ' => θ' = θ
  | position, literal :: rest, θ, θ' => ∃ θ₁, Holds (R position) literal θ θ₁ ∧ BodyHolds R (position + 1) rest θ₁ θ'

/-- The rule derives the row: its body holds, and the row is its head. -/
def Derives (R : Nat → Reading) (rule : Rule) (row : Tuple) : Prop :=
  ∃ θ, BodyHolds R 0 rule.body Substitution.empty θ ∧ ground rule.headArguments θ = .ok row

/-- Every row that one reading has of a relation the other has too, up to the sign of zeros. -/
def Reading.le (R R' : Reading) (relation : String) : Prop :=
  ∀ n n', valueSame n n' → ∀ row ∈ R.rows relation n, ∃ row' ∈ R'.rows relation n', rowSame row row'

/-- Every row that a negation finds in one reading it finds in the other too, up to the sign of zeros. -/
def Reading.leNegated (R R' : Reading) (relation : String) : Prop :=
  ∀ row ∈ R.negated relation, ∃ row' ∈ R'.negated relation, rowSame row row'

/-- What a literal may see of another reading: more rows where it reads, fewer where it negates. -/
def Reading.leAt (R R' : Reading) (literal : Literal) : Prop :=
  (isPositive literal = true → R.le R' literal.relation) ∧
    (literal.kind = relationKind → literal.negated = true → R'.leNegated R literal.relation)

theorem Reading.leNegated.refl (R : Reading) (relation : String) : R.leNegated R relation := fun row h => ⟨row, h, rowSame.refl _⟩

theorem needle_congr {θ φ : Substitution} (literal : Literal) (h : θ.same φ) : valueSame (needle literal θ) (needle literal φ) := by
  unfold needle
  cases literal.arguments[2]? with
  | none => exact valueSame.refl _
  | some term => exact termValue_congr h term

/-- A literal holds still when rows are added to what it asks for and taken from what it denies. -/
theorem Holds.mono {R R' : Reading} {θ φ θ' : Substitution} (hle : R.leAt R' literal) (h : θ.same φ)
    (hh : Holds R literal θ θ') : ∃ φ', Holds R' literal φ φ' ∧ θ'.same φ' := by
  have hneedle := needle_congr literal h
  cases hh with
  | row hpos row hrow hu =>
    obtain ⟨row', hrow', hs⟩ := hle.1 hpos _ _ hneedle row hrow
    obtain ⟨φ', hu', hs'⟩ := unifyArguments_congr h hs hu
    exact ⟨φ', .row hpos row' hrow' hu', hs'⟩
  | absent hkind hneg wanted hg habs =>
    obtain ⟨wanted', hg', hs⟩ := ground_congr h hg
    refine ⟨φ, .absent hkind hneg wanted' hg' fun row' hrow' => ?_, h⟩
    obtain ⟨row, hrow, hs'⟩ := hle.2 hkind hneg row' hrow'
    rw [rowEqv_congr hs' hs.symm]
    exact habs row hrow
  | compares hkind hc => exact ⟨φ, .compares hkind (by rw [← comparisonResult_congr literal h, hc]), h⟩
  | computes hkind hlen found hf hm =>
    obtain ⟨found', φ', hf', hm', hs⟩ := builtinResults_congr hlen h hf hm
    exact ⟨φ', .computes hkind hlen found' hf' hm', hs⟩

theorem BodyHolds.mono {R R' : Nat → Reading} {body : List Literal} {position : Nat} {θ φ θ' : Substitution}
    (hle : ∀ i literal, body[i]? = some literal → (R (position + i)).leAt (R' (position + i)) literal) (h : θ.same φ)
    (hh : BodyHolds R position body θ θ') : ∃ φ', BodyHolds R' position body φ φ' ∧ θ'.same φ' := by
  induction body generalizing position θ φ with
  | nil =>
    cases hh
    exact ⟨φ, rfl, h⟩
  | cons literal rest ih =>
    obtain ⟨θ₁, h₁, hrest⟩ := hh
    obtain ⟨φ₁, h₁', hs⟩ := h₁.mono (hle 0 literal rfl) h
    have hle' : ∀ i other, rest[i]? = some other → (R (position + 1 + i)).leAt (R' (position + 1 + i)) other := by
      intro i other hi
      have := hle (i + 1) other hi
      rwa [← Nat.add_assoc, Nat.add_right_comm] at this
    obtain ⟨φ', hrest', hs'⟩ := ih hle' hs hrest
    exact ⟨φ', ⟨φ₁, h₁', hrest'⟩, hs'⟩

theorem Derives.mono {R R' : Nat → Reading} {rule : Rule} {row : Tuple}
    (hle : ∀ i literal, rule.body[i]? = some literal → (R i).leAt (R' i) literal) (h : Derives R rule row) :
    ∃ row', Derives R' rule row' ∧ rowSame row row' := by
  obtain ⟨θ, hb, hg⟩ := h
  have hle' : ∀ i literal, rule.body[i]? = some literal → (R (0 + i)).leAt (R' (0 + i)) literal := by
    simpa only [Nat.zero_add] using hle
  obtain ⟨φ, hb', hs⟩ := hb.mono hle' (Substitution.same.refl _)
  obtain ⟨row', hg', hr⟩ := ground_congr hs hg
  exact ⟨row', ⟨φ, hb', hg'⟩, hr⟩

end Datalog

end Fram
