import Fram.Lemmas.Datalog
import Fram.Query

/-!
# What an evaluation lists

`Ready` says of a literal what its evaluation relies on: arguments that are terms, as many as its kind needs, and bound where it only
reads. The evaluation of a body whose literals are ready does not throw, and it lists the substitutions that `BodyHolds` gives, when
what reads a relation lists the rows of a reading (`Answers`). The plain join and the indexed join differ in that alone.
-/

namespace Fram

namespace Datalog

open Closing Query

variable {name : String} {θ θ' : Substitution} {relations : Literal → Substitution → Eval (List Substitution)} {S : Reading} {rule : Rule}

/-! ## The budget check -/

theorem runs_queryCheck : Runs contextOpen queryCheck (fun _ => True) (fun b => b = true) := by
  rintro ⟨control, error⟩
  cases error with
  | some e => exact ⟨false, _, rfl, trivial, fun h => by simp [contextOpen] at h⟩
  | none =>
    cases control with
    | none => exact ⟨true, _, rfl, trivial, fun h => ⟨h, rfl⟩⟩
    | some control =>
      let counted : QueryEvaluationContext := ⟨some { control with steps := control.steps + 1 }, none⟩
      cases hs : stopCode control (control.steps + 1) with
      | none => exact ⟨true, counted, by simp only [queryCheck, hs, counted], trivial, fun _ => ⟨rfl, rfl⟩⟩
      | some code =>
        refine ⟨false, _, by simp only [queryCheck, hs]; rfl, trivial, fun h => ?_⟩
        simp [contextOpen, recordQueryEvaluationError] at h

theorem Runs.checked {α : Type} {step : Eval α} {stopped : α} {P Q : α → Prop} (h : Runs contextOpen step P Q) (hp : P stopped) :
    Runs contextOpen (checked stopped step) P Q := by
  refine runs_queryCheck.bind fun b _ => ?_
  cases b with
  | true => exact h.weaken (fun _ h => h) fun _ _ hq _ => hq
  | false => exact runs_pure hp fun h => absurd h (by simp)

theorem runs_unifyArguments (arguments : List QueryTerm) (row : Tuple) (θ : Substitution) :
    Runs contextOpen (unifyArgumentsControlled arguments row θ)
      (fun d => ∀ θ' ∈ d.toList, unifyArguments arguments row θ = some θ')
      (fun d => ∀ θ', unifyArguments arguments row θ = some θ' → ∃ φ ∈ d.toList, Substitution.same θ' φ) := by
  refine Runs.checked (runs_pure ?_ ?_) (by simp)
  · intro θ' h
    simpa using h
  · intro θ' h
    exact ⟨θ', by simpa using h, Substitution.same.refl _⟩

/-- The substitutions under which the arguments are a row of a set. -/
def rowMatches (arguments : List QueryTerm) (θ : Substitution) (S : Set Tuple) : Set Substitution :=
  {θ' | ∃ row ∈ S, unifyArguments arguments row θ = some θ'}

theorem lists_unifyTuples (arguments : List QueryTerm) (rows : List Tuple) (θ : Substitution) :
    Lists contextOpen Substitution.same (unifyTuples arguments rows θ) (rowMatches arguments θ {row | row ∈ rows}) := by
  refine (lists_collect (S := fun row => {θ' | unifyArguments arguments row θ = some θ'})
    (fun row _ => runs_unifyArguments arguments row θ) (fun _ _ h => h) (fun r d y hy => ?_) (fun r d y hy => ?_)
    (fun r d y hy => ?_) fun _ _ _ => Substitution.same.trans).of_subset (fun _ h => h) fun _ h => h
  · exact List.mem_append.1 hy
  · exact List.mem_append_left _ hy
  · exact ⟨y, List.mem_append_right _ hy, Substitution.same.refl _⟩

/-! ## Literals -/

/-- The variables among the arguments are bound. -/
def ArgumentsBound (arguments : List QueryTerm) (bound : List String) : Prop :=
  ∀ term ∈ arguments, ∀ name, term.variableName = some name → name ∈ bound

/-- A literal is ready where these variables are bound: its arguments are terms, as many as its kind and relation need, a literal that
only reads its arguments has them bound, and a relation that searches text is not negated. -/
structure Ready (bound : List String) (literal : Literal) : Prop where
  terms : ∀ term ∈ literal.arguments, isQueryTerm term = true
  kind : literal.kind = relationKind ∨ literal.kind = comparisonKind ∨ literal.kind = builtinKind
  two : literal.kind = comparisonKind ∨ literal.kind = builtinKind → literal.arguments.length = 2
  closed : isPositive literal = false → ArgumentsBound literal.arguments bound
  arity : literal.kind = relationKind → ∀ n, baseRelArity literal.relation = some n → literal.arguments.length = n
  stored : literal.kind = relationKind → literal.negated = true → literal.relation ∉ textRelations

theorem mem_conjName {names : List String} {other : String} : other ∈ conjName names name ↔ other ∈ names ∨ other = name := by
  unfold conjName
  split
  · rename_i h
    refine ⟨Or.inl, ?_⟩
    rintro (h' | rfl)
    · exact h'
    · exact h
  · simp

theorem mem_nameUnion {left right : List String} : name ∈ nameUnion left right ↔ name ∈ left ∨ name ∈ right := by
  unfold nameUnion
  induction right generalizing left with
  | nil => simp
  | cons first right ih =>
    rw [List.foldl_cons, ih, mem_conjName, List.mem_cons, or_assoc]

theorem mem_termVars {terms : List QueryTerm} : name ∈ termVars terms ↔ ∃ term ∈ terms, term.variableName = some name := by
  have hgen : ∀ names : List String,
      name ∈ terms.foldl addVariable names ↔ name ∈ names ∨ ∃ term ∈ terms, term.variableName = some name := by
    induction terms with
    | nil => simp
    | cons term terms ih =>
      intro names
      rw [List.foldl_cons, ih]
      cases hn : term.variableName with
      | none => simp [addVariable, hn]
      | some other => simp [addVariable, hn, mem_conjName, or_assoc, eq_comm]
  simpa [termVars] using hgen []

/-- A term whose variable is bound has a value. -/
theorem termValue_isSome {term : QueryTerm} (ht : isQueryTerm term = true) {bound : List String} (hb : Binds θ bound)
    (hn : ∀ name, term.variableName = some name → name ∈ bound) : (termValue term θ).isSome = true := by
  unfold isQueryTerm at ht
  unfold termValue
  cases h : term.variableName with
  | some name => exact hb name (hn name h)
  | none => simpa [h] using ht

/-- Arguments that are bound are a row. -/
theorem ground_ok {arguments : List QueryTerm} (ht : ∀ term ∈ arguments, isQueryTerm term = true) {bound : List String} (hb : Binds θ bound)
    (ha : ArgumentsBound arguments bound) : ∃ row, ground arguments θ = .ok row := by
  induction arguments with
  | nil => exact ⟨[], rfl⟩
  | cons term arguments ih =>
    rw [List.forall_mem_cons] at ht
    obtain ⟨row, hrow⟩ := ih ht.2 fun t h => ha t (List.mem_cons_of_mem _ h)
    obtain ⟨value, hv⟩ := Option.isSome_iff_exists.1 (termValue_isSome ht.1 hb (ha term List.mem_cons_self))
    exact ⟨value :: row, ground_eq_ok_iff.2 (.cons hv (ground_eq_ok_iff.1 hrow))⟩

theorem Binds.of_keeps {names : List String} (h : Binds θ names) (hk : ∀ name a, θ name = some a → θ' name = some a) : Binds θ' names := by
  intro name hn
  obtain ⟨a, ha⟩ := Option.isSome_iff_exists.1 (h name hn)
  rw [hk name a ha]
  rfl

theorem Binds.union {left right : List String} (hl : Binds θ left) (hr : Binds θ right) :
    Binds θ (nameUnion left right) := fun name hn => (mem_nameUnion.1 hn).elim (hl name) (hr name)

/-- A literal that holds binds what it is said to bind, and keeps what is bound. -/
theorem Holds.binds {R : Reading} {literal : Literal} {bound : List String} (hb : Binds θ bound)
    (h : Holds R literal θ θ') : Binds θ' (nameUnion bound (literalBindings literal)) := by
  have hnot : ∀ kind : Keyword, literal.kind = kind → kind ≠ relationKind → isPositive literal = false := by
    intro kind hk hne
    simp [isPositive, hk, hne]
  cases h with
  | row hpos row hrow hu =>
    unfold unifyArguments at hu
    split at hu
    · rename_i hlen
      refine (hb.of_keeps fun name a => unifyRow_keeps hu).union fun name hn => ?_
      rw [literalBindings, if_pos hpos, mem_termVars] at hn
      obtain ⟨term, ht, hname⟩ := hn
      exact unifyRow_binds hlen hu ht hname
    · cases hu
  | absent hkind hneg wanted hg habs =>
    refine hb.union fun name hn => ?_
    have hpos : isPositive literal = false := by simp [isPositive, hneg]
    simp [literalBindings, hpos, hkind, relationKind, builtinKind] at hn
  | compares hkind hc =>
    refine hb.union fun name hn => ?_
    simp [literalBindings, hnot _ hkind (by decide), hkind, comparisonKind, builtinKind] at hn
  | computes hkind hlen found hf hm =>
    obtain ⟨left, right, hargs⟩ : ∃ left right, literal.arguments = [left, right] := List.length_eq_two.1 hlen
    have h0 : nth literal.arguments 0 = .ok left := by rw [hargs]; rfl
    have h1 : nth literal.arguments 1 = .ok right := by rw [hargs]; rfl
    obtain ⟨value, hv⟩ : ∃ value, θ' = θ.assoc literal.binding value := by
      obtain ⟨a, b, -, -, ⟨n, -, rfl⟩ | ⟨x, -, -, rfl⟩⟩ := (builtinResults_mem_iff h0 h1 hf θ').1 hm
      · exact ⟨_, rfl⟩
      · exact ⟨_, rfl⟩
    subst hv
    refine (hb.assoc _ _).union fun name hn => ?_
    have hpos := hnot _ hkind (by decide)
    simp only [literalBindings, hpos, Bool.false_eq_true, if_false, hkind, if_true, List.mem_singleton] at hn
    rw [hn, Substitution.assoc_self]
    rfl

/-- What reads a relation lists what the literal means under a reading. -/
def Answers (relations : Literal → Substitution → Eval (List Substitution)) (R : Reading) (literal : Literal) : Prop :=
  ∀ bound θ, literal.kind = relationKind → Ready bound literal → Binds θ bound →
    Lists contextOpen Substitution.same (relations literal θ) {θ' | Holds R literal θ θ'}

/-- The results of a literal are the substitutions under which it holds. -/
theorem lists_literalResults {R : Reading} {literal : Literal}
    (ha : Answers relations R literal) {bound : List String} (hr : Ready bound literal) (hb : Binds θ bound) :
    Lists contextOpen Substitution.same (literalResultsBy relations literal θ) {θ' | Holds R literal θ θ'} := by
  refine Runs.checked ?_ (List.forall_mem_nil _)
  by_cases hrel : literal.kind = relationKind
  · rw [if_pos hrel]
    exact ha bound θ hrel hr hb
  · rw [if_neg hrel]
    have hpos : isPositive literal = false := by simp [isPositive, hrel]
    by_cases hcmp : literal.kind = comparisonKind
    · rw [if_pos hcmp]
      obtain ⟨b, hc⟩ := comparisonResult_ok (hr.two (Or.inl hcmp)) θ
      refine Runs.bind (runs_lift hc (P := fun r => r = b) (Q := fun _ => True) rfl trivial) fun r hr => ?_
      subst hr
      cases r with
      | true =>
        refine runs_pure (fun θ' h => ?_) fun _ θ' h => ?_
        · rw [if_pos rfl, List.mem_singleton] at h
          subst h
          exact .compares hcmp hc
        · rw [if_pos rfl]
          cases h with
          | row hp => rw [hpos] at hp; cases hp
          | absent hk => exact absurd hk hrel
          | compares => exact ⟨_, List.mem_singleton_self _, Substitution.same.refl _⟩
          | computes hk => rw [hcmp] at hk; exact absurd hk (by decide)
      | false =>
        refine runs_pure (fun θ' h => by simp at h) fun _ θ' h => ?_
        cases h with
        | row hp => rw [hpos] at hp; cases hp
        | absent hk => exact absurd hk hrel
        | compares _ hc' => rw [hc] at hc'; cases hc'
        | computes hk => rw [hcmp] at hk; exact absurd hk (by decide)
    · rw [if_neg hcmp]
      have hbuilt : literal.kind = builtinKind := (hr.kind.resolve_left hrel).resolve_left hcmp
      rw [if_pos hbuilt]
      have hlen := hr.two (Or.inr hbuilt)
      obtain ⟨found, hf⟩ := builtinResults_ok hlen θ
      refine runs_lift hf (fun θ' hm => .computes hbuilt hlen found hf hm) fun θ' h => ?_
      cases h with
      | row hp => rw [hpos] at hp; cases hp
      | absent hk => exact absurd hk hrel
      | compares hk => exact absurd hk hcmp
      | computes _ _ found' hf' hm =>
        rw [hf] at hf'
        cases hf'
        exact ⟨θ', hm, Substitution.same.refl _⟩

/-! ## Bodies -/

/-- The variables bound after a body. -/
def boundAfter (bound : List String) (body : List Literal) : List String :=
  body.foldl (fun bound literal => nameUnion bound (literalBindings literal)) bound

/-- The literals of a body are ready, each where the literals before it have bound their variables. -/
def ReadyBody : List String → List Literal → Prop
  | _, [] => True
  | bound, literal :: rest => Ready bound literal ∧ ReadyBody (nameUnion bound (literalBindings literal)) rest

/-- A rule is ready when its body is, and the variables of its head are bound at the end. -/
structure ReadyRule (rule : Rule) : Prop where
  body : ReadyBody [] rule.body
  terms : ∀ term ∈ rule.headArguments, isQueryTerm term = true
  closed : ArgumentsBound rule.headArguments (boundAfter [] rule.body)

/-- Rows that a reading has do not depend on the sign of zeros in the needle. -/
def Reading.Regular (R : Reading) : Prop := ∀ relation, R.le R relation

theorem Reading.Regular.leAt {R : Reading} (h : R.Regular) (literal : Literal) : R.leAt R literal :=
  ⟨fun _ => h _, fun _ _ => Reading.leNegated.refl R _⟩

section Bodies

variable {R : Nat → Reading} {bound : List String} {literal : Literal} {rest body : List Literal} {substitutions : List Substitution}
  {position : Nat}

/-- The substitutions that a body gives after one of those given. -/
def bodyMatches (R : Nat → Reading) (position : Nat) (body : List Literal) (substitutions : List Substitution) : Set Substitution :=
  {θ' | ∃ θ ∈ substitutions, BodyHolds R position body θ θ'}

theorem lists_literalSubstitutions (ha : Answers relations S literal) (hr : Ready bound literal) (hb : ∀ θ ∈ substitutions, Binds θ bound) :
    Lists contextOpen Substitution.same (literalSubstitutionsBy relations literal substitutions)
      {θ' | ∃ θ ∈ substitutions, Holds S literal θ θ'} :=
  lists_collect (S := fun θ => {θ' | Holds S literal θ θ'}) (fun θ hθ => lists_literalResults ha hr (hb θ hθ))
    (fun _ _ h => absurd h (by simp)) (fun _ _ _ h => List.mem_append.1 h) (fun _ _ _ h => List.mem_append_left _ h)
    (fun _ _ y h => ⟨y, List.mem_append_right _ h, Substitution.same.refl _⟩) fun _ _ _ => Substitution.same.trans

/-- One literal and then the rest of a body. -/
theorem lists_bind_literal (hregular : ∀ i, (R i).Regular) {step : Eval (List Substitution)}
    {next : List Substitution → Eval (List Substitution)}
    (hstep : Lists contextOpen Substitution.same step {θ' | ∃ θ ∈ substitutions, Holds (R position) literal θ θ'})
    (hnext : ∀ found, (∀ φ ∈ found, ∃ θ ∈ substitutions, Holds (R position) literal θ φ) →
      Lists contextOpen Substitution.same (next found) (bodyMatches R (position + 1) rest found)) :
    Lists contextOpen Substitution.same (step >>= next) (bodyMatches R position (literal :: rest) substitutions) := by
  refine Runs.bind hstep fun found hfound => (hnext found hfound).weaken (fun results h θ' hθ' => ?_) fun results _ h hcomplete θ' hθ' => ?_
  · obtain ⟨φ, hφ, hbody⟩ := h θ' hθ'
    obtain ⟨θ, hθ, hh⟩ := hfound φ hφ
    exact ⟨θ, hθ, φ, hh, hbody⟩
  · obtain ⟨θ, hθ, θ₁, hh, hbody⟩ := hθ'
    obtain ⟨φ₁, hφ₁, hs⟩ := hcomplete θ₁ ⟨θ, hθ, hh⟩
    obtain ⟨φ', hbody', hs'⟩ := hbody.mono (fun i other _ => (hregular _).leAt other) hs
    obtain ⟨ψ, hψ, hs''⟩ := h φ' ⟨φ₁, hφ₁, hbody'⟩
    exact ⟨ψ, hψ, hs'.trans hs''⟩

theorem binds_of_holds {found : List Substitution} (hb : ∀ θ ∈ substitutions, Binds θ bound)
    (hfound : ∀ φ ∈ found, ∃ θ ∈ substitutions, Holds S literal θ φ) :
    ∀ φ ∈ found, Binds φ (nameUnion bound (literalBindings literal)) := by
  intro φ hφ
  obtain ⟨θ, hθ, hh⟩ := hfound φ hφ
  exact hh.binds (hb θ hθ)

theorem lists_nil_body : Lists contextOpen Substitution.same (whenOpen contextOpen [] (pure substitutions) : Eval (List Substitution))
    (bodyMatches R position [] substitutions) := by
  refine Runs.whenOpen (lists_pure (fun θ hθ => ⟨θ, hθ, rfl⟩) fun θ hθ => ?_) (List.forall_mem_nil _)
  obtain ⟨θ', hθ', rfl⟩ := hθ
  exact ⟨_, hθ', Substitution.same.refl _⟩

/-- The evaluation of a ready body lists what the body means. -/
theorem lists_bodyResults (hregular : S.Regular) (hready : ReadyBody bound body) (ha : ∀ literal ∈ body, Answers relations S literal)
    (hb : ∀ θ ∈ substitutions, Binds θ bound) : Lists contextOpen Substitution.same (bodyResultsBy relations body substitutions)
      (bodyMatches (fun _ => S) position body substitutions) := by
  induction body generalizing bound substitutions position with
  | nil => exact lists_nil_body
  | cons literal rest ih =>
    rw [List.forall_mem_cons] at ha
    refine Runs.whenOpen ?_ (List.forall_mem_nil _)
    cases substitutions with
    | nil =>
      refine lists_pure (List.forall_mem_nil _) fun θ' h => ?_
      obtain ⟨θ, hθ, -⟩ := h
      cases hθ
    | cons θ substitutions =>
      refine lists_bind_literal (R := fun _ => S) (fun _ => hregular) (lists_literalSubstitutions ha.1 hready.1 hb) fun found hfound => ?_
      exact ih hready.2 ha.2 (binds_of_holds hb hfound)

/-- The reading of a pinned pass: the new rows at the pinned position, all rows elsewhere. -/
def pinned (all new : Reading) (pin : Nat) : Nat → Reading := fun position => if position = pin then new else all

/-- A pinned pass over a ready body lists what the body means when the pinned literal reads the new rows. -/
theorem lists_bodyResultsPinned {Γ : Host} {db delta : Db} {sources deltaSources : CandidateSources} {all new : Reading} {pin : Nat}
    (hall : all.Regular) (hnew : new.Regular) (hready : ReadyBody bound body)
    (ha : ∀ literal ∈ body, Answers (relationResultsIndexed Γ db sources) all literal)
    (hd : ∀ i literal, body[i]? = some literal → position + i = pin →
      isPositive literal = true ∧ Answers (relationResultsIndexed Γ delta deltaSources) new literal)
    (hb : ∀ θ ∈ substitutions, Binds θ bound) :
    Lists contextOpen Substitution.same (bodyResultsPinned Γ db sources delta deltaSources pin body position substitutions)
      (bodyMatches (pinned all new pin) position body substitutions) := by
  have hregular : ∀ i, (pinned all new pin i).Regular := by
    intro i
    unfold pinned
    split
    · exact hnew
    · exact hall
  induction body generalizing bound substitutions position with
  | nil => exact lists_nil_body
  | cons literal rest ih =>
    rw [List.forall_mem_cons] at ha
    refine Runs.whenOpen ?_ (List.forall_mem_nil _)
    refine lists_bind_literal hregular ?_ fun found hfound => ih hready.2 ha.2 (fun i other hi hp => ?_) (binds_of_holds hb hfound)
    · unfold pinned
      by_cases hp : position = pin
      · obtain ⟨hpos, hans⟩ := hd 0 literal rfl hp
        rw [if_pos hp, if_pos (by simp [hp, hpos])]
        exact lists_literalSubstitutions hans hready.1 hb
      · rw [if_neg hp, if_neg (by simp [hp])]
        exact lists_literalSubstitutions ha.1 hready.1 hb
    · exact hd (i + 1) other hi (by omega)

end Bodies

/-! ## Rules -/

theorem groundHeads_eq {head : List QueryTerm} {substitutions : List Substitution} {rows : List Tuple}
    (h : substitutions.mapM (ground head) = .ok rows) : groundHeads head substitutions = .ok (intoRows [] rows) := by
  have hgen : ∀ acc : List Tuple, (substitutions.foldlM (fun rows θ => do
      let row ← ground head θ
      pure (conjRow rows row)) acc : Except Fault (List Tuple)) = .ok (intoRows acc rows) := by
    rw [ExceptList.mapM_eq_ok_iff] at h
    induction h with
    | nil => exact fun acc => rfl
    | cons hrow _ ih =>
      intro acc
      rw [List.foldlM_cons, hrow]
      exact ih _
  exact hgen []

/-- The heads of a ready rule, one for each substitution that its body gives. -/
theorem mapM_ground_ok (hready : ReadyRule rule) {substitutions : List Substitution}
    (hb : ∀ θ ∈ substitutions, Binds θ (boundAfter [] rule.body)) : ∃ rows, substitutions.mapM (ground rule.headArguments) = .ok rows := by
  induction substitutions with
  | nil => exact ⟨[], rfl⟩
  | cons θ substitutions ih =>
    rw [List.forall_mem_cons] at hb
    obtain ⟨rows, hrows⟩ := ih hb.2
    obtain ⟨row, hrow⟩ := ground_ok hready.terms hb.1 hready.closed
    refine ⟨row :: rows, ?_⟩
    rw [List.mapM_cons, hrow, hrows]
    rfl

theorem BodyHolds.binds {R : Nat → Reading} {position : Nat} {body : List Literal} {bound : List String}
    (hb : Binds θ bound) (h : BodyHolds R position body θ θ') : Binds θ' (boundAfter bound body) := by
  induction body generalizing bound θ position with
  | nil =>
    cases h
    exact hb
  | cons literal rest ih =>
    obtain ⟨θ₁, hh, hrest⟩ := h
    exact ih (hh.binds hb) hrest

theorem binds_empty : Binds Substitution.empty [] := List.forall_mem_nil _

/-- The rows that one evaluation of a body gives the heads of. -/
theorem lists_heads (hready : ReadyRule rule) {R : Nat → Reading} {evaluation : Eval (List Substitution)}
    (he : Lists contextOpen Substitution.same evaluation (bodyMatches R 0 rule.body [Substitution.empty]))
    {heads : List Substitution → Except Fault (List Tuple)}
    (hheads : ∀ substitutions rows, substitutions.mapM (ground rule.headArguments) = .ok rows →
      ∃ rows', heads substitutions = .ok rows' ∧ (∀ row ∈ rows', row ∈ rows) ∧ ∀ row ∈ rows, ∃ row' ∈ rows', rowSame row row') :
    Lists contextOpen rowSame (evaluation >>= fun substitutions => whenOpen contextOpen [] (lift (heads substitutions)))
      {row | Derives R rule row} := by
  refine Runs.bind he fun substitutions hs => ?_
  have hbody : ∀ θ ∈ substitutions, BodyHolds R 0 rule.body Substitution.empty θ := by
    intro θ hθ
    obtain ⟨θ₀, h₀, hh⟩ := hs θ hθ
    rwa [List.mem_singleton.1 h₀] at hh
  obtain ⟨rows, hrows⟩ := mapM_ground_ok hready fun θ hθ => (hbody θ hθ).binds binds_empty
  obtain ⟨rows', hr, hsub, hsup⟩ := hheads substitutions rows hrows
  refine (runs_lift hr ?_ ?_).whenOpen (List.forall_mem_nil _)
  · intro row hrow
    obtain ⟨θ, hθ, hg⟩ := ExceptList.exists_of_mem_mapM hrows (hsub row hrow)
    exact ⟨θ, hbody θ hθ, hg⟩
  · intro hcomplete row hrow
    obtain ⟨θ, hh, hg⟩ := hrow
    obtain ⟨φ, hφ, hsame⟩ := hcomplete θ ⟨Substitution.empty, by simp, hh⟩
    obtain ⟨row₁, hg₁, hs₁⟩ := ground_congr hsame hg
    obtain ⟨row', hrow', hg'⟩ := ExceptList.exists_mem_of_mapM hrows hφ
    cases hg₁.symm.trans hg'
    obtain ⟨row₂, hrow₂, hs₂⟩ := hsup row₁ hrow'
    exact ⟨row₂, hrow₂, hs₁.trans hs₂⟩

/-- The evaluation of a ready rule lists the rows that the rule derives. -/
theorem lists_deriveRule (hregular : S.Regular) (hready : ReadyRule rule) (ha : ∀ literal ∈ rule.body, Answers relations S literal) :
    Lists contextOpen rowSame (deriveRuleBy relations rule) {row | Derives (fun _ => S) rule row} := by
  refine lists_heads hready (lists_bodyResults hregular hready.body ha fun θ hθ => ?_) fun substitutions rows hrows => ?_
  · rw [List.mem_singleton.1 hθ]
    exact binds_empty
  · exact ⟨intoRows [] rows, groundHeads_eq hrows, fun row h => (mem_intoRows h).resolve_left (by simp),
      fun row h => exists_mem_intoRows [] h⟩

end Datalog

end Fram
