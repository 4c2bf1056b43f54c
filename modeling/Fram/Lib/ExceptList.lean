import Mathlib.Data.List.Forall2
import Mathlib.Data.Option.Basic

/-!
# Walking a list with failures

`List.mapM` in `Except`: when the function succeeds at every element, so does the walk, and the results stand in the relation of
the elements one by one.
-/

namespace ExceptList

variable {ε α β γ : Type}

/-- Two steps succeed exactly when the first does and the second does from its result. -/
theorem bind_eq_ok_iff {x : Except ε α} {f : α → Except ε β} {b : β} : x >>= f = .ok b ↔ ∃ a, x = .ok a ∧ f a = .ok b := by
  cases x with
  | error e =>
    constructor
    · intro h
      cases h
    · rintro ⟨a, h, -⟩
      cases h
  | ok a =>
    constructor
    · intro h
      exact ⟨a, rfl, h⟩
    · rintro ⟨a', h, hf⟩
      cases h
      exact hf

/-- A value under a guard is returned exactly when the guard holds. -/
theorem guarded_eq_ok_iff {p : Prop} [Decidable p] {a b : α} {e : ε} : (if p then .ok a else .error e) = Except.ok b ↔ b = a ∧ p := by
  split
  · rename_i h
    rw [Except.ok.injEq]
    exact ⟨fun he => ⟨he.symm, h⟩, fun he => he.1.symm⟩
  · rename_i h
    simp only [reduceCtorEq, false_iff]
    exact fun he => h he.2

/-- A member of a list has its counterpart in a related list. -/
theorem exists_related {R : α → β → Prop} {l : List α} {l' : List β} (h : List.Forall₂ R l l') {x : α} (hx : x ∈ l) :
    ∃ y ∈ l', R x y := by
  induction h with
  | nil => cases hx
  | cons hr _ ih =>
    rcases List.mem_cons.1 hx with rfl | hx
    · exact ⟨_, List.mem_cons_self, hr⟩
    · obtain ⟨y, hy, hr⟩ := ih hx
      exact ⟨y, List.mem_cons_of_mem _ hy, hr⟩

/-- The same for steps that thread a state. -/
theorem stateT_bind_eq_ok_iff {σ : Type} {p : StateT σ (Except ε) α} {f : α → StateT σ (Except ε) β} {s s' : σ} {b : β} :
    (p >>= f) s = .ok (b, s') ↔ ∃ a s₁, p s = .ok (a, s₁) ∧ f a s₁ = .ok (b, s') := by
  rw [show (p >>= f) s = (p s >>= fun r => f r.1 r.2) from rfl, bind_eq_ok_iff]
  exact ⟨fun ⟨r, h⟩ => ⟨r.1, r.2, h⟩, fun ⟨a, s₁, h⟩ => ⟨(a, s₁), h⟩⟩

/-- A walk that succeeds at every element returns the list of the results. -/
theorem mapM_eq_ok {f : α → Except ε β} {g : α → β} {l : List α} (h : ∀ x ∈ l, f x = .ok (g x)) : l.mapM f = .ok (l.map g) := by
  induction l with
  | nil => rfl
  | cons x l ih =>
    rw [List.forall_mem_cons] at h
    rw [List.mapM_cons, h.1, ih h.2]
    rfl

/-- A walk along two lists: when every element succeeds with a result related to the element beside it, so does the walk. -/
theorem mapM_forall₂ {f : α → Except ε β} {R : β → γ → Prop} {l : List α} {l' : List γ}
    (h : List.Forall₂ (fun x z => ∃ y, f x = .ok y ∧ R y z) l l') : ∃ ys, l.mapM f = .ok ys ∧ List.Forall₂ R ys l' := by
  induction h with
  | nil => exact ⟨[], rfl, .nil⟩
  | cons hx _ ih =>
    obtain ⟨y, hy, hr⟩ := hx
    obtain ⟨ys, hys, hrs⟩ := ih
    refine ⟨y :: ys, ?_, .cons hr hrs⟩
    rw [List.mapM_cons, hy, hys]
    rfl

/-- A walk succeeds exactly when every element does, with the results in order. -/
theorem mapM_eq_ok_iff {f : α → Except ε β} {l : List α} {ys : List β} :
    l.mapM f = .ok ys ↔ List.Forall₂ (fun x y => f x = .ok y) l ys := by
  constructor
  · intro h
    induction l generalizing ys with
    | nil =>
      cases h
      exact .nil
    | cons x l ih =>
      rw [List.mapM_cons] at h
      cases hx : f x with
      | error e =>
        rw [hx] at h
        cases h
      | ok y =>
        cases hl : l.mapM f with
        | error e =>
          rw [hx, hl] at h
          cases h
        | ok ys' =>
          rw [hx, hl] at h
          cases h
          exact .cons hx (ih hl)
  · intro h
    obtain ⟨ys', hys, hall⟩ := mapM_forall₂ (R := Eq) (h.imp fun _ y hy => ⟨y, hy, rfl⟩)
    rw [List.forall₂_eq_eq_eq] at hall
    rw [hys, hall]

/-- Walks along two lists that agree element by element agree. -/
theorem mapM_eq_mapM {f : α → Except ε β} {g : γ → Except ε β} {l : List α} {l' : List γ}
    (h : List.Forall₂ (fun x z => f x = g z) l l') : l.mapM f = l'.mapM g := by
  induction h with
  | nil => rfl
  | cons hx _ ih => rw [List.mapM_cons, List.mapM_cons, hx, ih]

/-- Walks by functions that agree on every element agree. -/
theorem mapM_congr {f g : α → Except ε β} {l : List α} (h : ∀ x ∈ l, f x = g x) : l.mapM f = l.mapM g :=
  mapM_eq_mapM (List.forall₂_same.2 h)

/-- Every result of a walk is the result at an element. -/
theorem exists_of_mem_mapM {f : α → Except ε β} {l : List α} {ys : List β} (h : l.mapM f = .ok ys) {y : β} (hy : y ∈ ys) :
    ∃ x ∈ l, f x = .ok y := exists_related (mapM_eq_ok_iff.1 h).flip hy

/-- The error of a walk is the error at an element. -/
theorem exists_of_mapM_error {f : α → Except ε β} {l : List α} {e : ε} (h : l.mapM f = .error e) : ∃ x ∈ l, f x = .error e := by
  induction l with
  | nil => cases h
  | cons x l ih =>
    rw [List.mapM_cons] at h
    cases hx : f x with
    | error e' =>
      rw [hx] at h
      cases h
      exact ⟨x, List.mem_cons_self, hx⟩
    | ok y =>
      cases hl : l.mapM f with
      | error e' =>
        rw [hx, hl] at h
        cases h
        obtain ⟨x', hmem, hf⟩ := ih hl
        exact ⟨x', List.mem_cons_of_mem _ hmem, hf⟩
      | ok ys =>
        rw [hx, hl] at h
        cases h

/-- A walk that ends at an element ends with its result. -/
theorem mapM_concat_eq_ok {f : α → Except ε β} {l : List α} {x : α} {ys : List β} (h : (l ++ [x]).mapM f = .ok ys) :
    ∃ before y, f x = .ok y ∧ ys = before ++ [y] := by
  rw [List.mapM_append] at h
  obtain ⟨before, -, h⟩ := bind_eq_ok_iff.1 h
  obtain ⟨last, hlast, h⟩ := bind_eq_ok_iff.1 h
  rw [List.mapM_cons, List.mapM_nil] at hlast
  obtain ⟨y, hy, hlast⟩ := bind_eq_ok_iff.1 hlast
  cases hlast
  cases h
  exact ⟨before, y, hy, rfl⟩

/-- The result at every element is a result of the walk. -/
theorem exists_mem_of_mapM {f : α → Except ε β} {l : List α} {ys : List β} (h : l.mapM f = .ok ys) {x : α} (hx : x ∈ l) :
    ∃ y ∈ ys, f x = .ok y := exists_related (mapM_eq_ok_iff.1 h) hx

/-- A walk over elements that throw nothing else throws what one of them does. -/
theorem mapM_eq_error {f : α → Except ε β} {l : List α} {e : ε} (hall : ∀ x ∈ l, ∀ e', f x = .error e' → e' = e) {x : α} (hx : x ∈ l)
    (h : f x = .error e) : l.mapM f = .error e := by
  cases hl : l.mapM f with
  | error e' =>
    obtain ⟨y, hy, he⟩ := exists_of_mapM_error hl
    rw [hall y hy e' he]
  | ok ys =>
    obtain ⟨y, -, hf⟩ := exists_mem_of_mapM hl hx
    rw [h] at hf
    cases hf

/-- What each step of a fold keeps holds at its end. -/
theorem foldlM_induct {P : β → Prop} {f : β → α → Except ε β} {l : List α} {b b' : β} (hf : ∀ a ∈ l, ∀ b b₁, P b → f b a = .ok b₁ → P b₁)
    (h : l.foldlM f b = .ok b') (hp : P b) : P b' := by
  induction l generalizing b with
  | nil =>
    cases h
    exact hp
  | cons a l ih =>
    rw [List.foldlM_cons] at h
    obtain ⟨b₁, hb, hrest⟩ := bind_eq_ok_iff.1 h
    exact ih (fun a' ha' => hf a' (List.mem_cons_of_mem a ha')) hrest (hf a List.mem_cons_self b b₁ hp hb)

/-- Two folds by steps that keep a relation end in it. -/
theorem foldlM_rel {R : β → γ → Prop} {f : β → α → Except ε β} {g : γ → α → Except ε γ} {l : List α} {b b' : β} {c c' : γ}
    (hfg : ∀ a ∈ l, ∀ b c b₁ c₁, R b c → f b a = .ok b₁ → g c a = .ok c₁ → R b₁ c₁) (hb : l.foldlM f b = .ok b')
    (hc : l.foldlM g c = .ok c') (h : R b c) : R b' c' := by
  induction l generalizing b c with
  | nil =>
    cases hb
    cases hc
    exact h
  | cons a l ih =>
    rw [List.foldlM_cons] at hb hc
    obtain ⟨b₁, hb, hb'⟩ := bind_eq_ok_iff.1 hb
    obtain ⟨c₁, hc, hc'⟩ := bind_eq_ok_iff.1 hc
    exact ih (fun a' ha' => hfg a' (List.mem_cons_of_mem a ha')) hb' hc' (hfg a List.mem_cons_self b c b₁ c₁ h hb hc)

/-- A search that succeeds at every element tells whether one of them passes. -/
theorem anyM_ok {f : α → Except ε Bool} {l : List α} (h : ∀ x ∈ l, ∃ b, f x = .ok b) :
    ∃ b, l.anyM f = .ok b ∧ (b = true ↔ ∃ x ∈ l, f x = .ok true) := by
  induction l with
  | nil => exact ⟨false, rfl, by simp⟩
  | cons x l ih =>
    rw [List.forall_mem_cons] at h
    obtain ⟨b, hb⟩ := h.1
    obtain ⟨rest, hrest, hiff⟩ := ih h.2
    cases b with
    | true => exact ⟨true, by rw [List.anyM, hb]; rfl, by simp [hb]⟩
    | false => exact ⟨rest, by rw [List.anyM, hb]; exact hrest, by simp [hb, hiff]⟩

/-- Optional values related by one relation are related by a weaker one. -/
theorem option_rel_imp {R S : α → β → Prop} {o : Option α} {o' : Option β} (h : Option.Rel R o o') (hRS : ∀ a b, R a b → S a b) :
    Option.Rel S o o' := by
  cases h with
  | none => exact .none
  | some hr => exact .some (hRS _ _ hr)

theorem option_rel_map {R : α → γ → Prop} {f : β → γ} {o : Option α} {o' : Option β} (h : Option.Rel (fun a b => R a (f b)) o o') :
    Option.Rel R o (o'.map f) := by
  cases h with
  | none => exact .none
  | some hr => exact .some hr

/-- A step on an optional value succeeds exactly when it does on the value that is there. -/
theorem option_mapM_eq_ok_iff {f : α → Except ε β} {o : Option α} {o' : Option β} :
    o.mapM f = .ok o' ↔ Option.Rel (fun a b => f a = .ok b) o o' := by
  cases o with
  | none =>
    constructor
    · intro h
      cases h
      exact .none
    · intro h
      cases h
      rfl
  | some a =>
    rw [Option.mapM_some, map_eq_pure_bind, bind_eq_ok_iff]
    constructor
    · rintro ⟨b, hb, h⟩
      cases h
      exact .some hb
    · intro h
      cases h with
      | some hb => exact ⟨_, hb, rfl⟩

/-- A filter whose test does not throw. -/
theorem filterM_eq_ok {p : α → Except ε Bool} {q : α → Bool} {l : List α} (h : ∀ a ∈ l, p a = .ok (q a)) :
    l.filterM p = .ok (l.filter q) := by
  suffices hacc : ∀ acc, l.filterAuxM p acc = .ok ((l.filter q).reverse ++ acc) by
    unfold List.filterM
    rw [hacc]
    simp [pure, Except.pure, bind, Except.bind]
  induction l with
  | nil => exact fun acc => rfl
  | cons a l ih =>
    intro acc
    rw [List.filterAuxM, h a List.mem_cons_self]
    simp only [bind, Except.bind]
    rw [ih fun b hb => h b (List.mem_cons_of_mem _ hb)]
    cases hq : q a <;> simp [hq]

end ExceptList
