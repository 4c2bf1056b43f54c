import Mathlib.Tactic

/-!
# Stateful computations that may throw and may run out of fuel

A computation from a state has a result with the state after it, or a failure, or nothing when its fuel runs out. What a composed
computation yields is what its parts yield one after another; it ends when each part does. What holds of the state before a fold, and is
kept by each step of it, holds after it.
-/

namespace Fueled

variable {σ ε α β γ : Type}

/-- The computations. -/
abbrev Comp (σ ε α : Type) := StateT σ (ExceptT ε Option) α

/-- A pure result as a computation. -/
def lift (result : Except ε α) : Comp σ ε α := fun s => ExceptT.mk (some (result.map (·, s)))

/-- A computation that has run out of fuel. -/
def spent : Comp σ ε α := fun _ => ExceptT.mk none

/-- The computation has a result, and a state after it. -/
def Yields (m : Comp σ ε α) (s : σ) (a : α) (s' : σ) : Prop := (m s).run = some (.ok (a, s'))

/-- The computation has a result or a failure. -/
def Ends (m : Comp σ ε α) (s : σ) : Prop := (m s).run ≠ none

theorem bind_run (m : Comp σ ε α) (f : α → Comp σ ε β) (s : σ) : ((m >>= f) s).run = match (m s).run with
      | none => none
      | some (.error e) => some (.error e)
      | some (.ok (a, s')) => (f a s').run := by
  change (ExceptT.bind (m s) fun p => f p.1 p.2).run = _
  unfold ExceptT.bind ExceptT.run ExceptT.mk
  cases hm : m s with
  | none => rfl
  | some result => cases result <;> rfl

/-! ## What a computation yields -/

theorem yields_pure {a b : α} {s s' : σ} : Yields (pure a : Comp σ ε α) s b s' ↔ a = b ∧ s = s' := by
  change some (Except.ok (a, s)) = some (.ok (b, s')) ↔ _
  simp

theorem yields_bind {m : Comp σ ε α} {f : α → Comp σ ε β} {s s' : σ} {b : β} :
    Yields (m >>= f) s b s' ↔ ∃ a s₁, Yields m s a s₁ ∧ Yields (f a) s₁ b s' := by
  rw [Yields, bind_run]
  simp only [Yields]
  constructor
  · intro h
    split at h
    · cases h
    · cases h
    · rename_i a s₁ hm
      exact ⟨a, s₁, hm, h⟩
  · rintro ⟨a, s₁, hm, hf⟩
    rw [hm]
    exact hf

theorem yields_lift {result : Except ε α} {s s' : σ} {a : α} : Yields (lift result : Comp σ ε α) s a s' ↔ result = .ok a ∧ s = s' := by
  change some (result.map (·, s)) = some (.ok (a, s')) ↔ _
  cases result <;> simp [Except.map]

theorem yields_get {s s' a : σ} : Yields (get : Comp σ ε σ) s a s' ↔ s = a ∧ s = s' := by
  change some (Except.ok (s, s)) = some (.ok (a, s')) ↔ _
  simp

theorem yields_modify {f : σ → σ} {s s' : σ} {a : Unit} : Yields (modify f : Comp σ ε Unit) s a s' ↔ f s = s' := by
  change some (Except.ok ((), f s)) = some (.ok (a, s')) ↔ _
  simp

theorem yields_ite {c : Prop} [Decidable c] {m m' : Comp σ ε α} {s s' : σ} {a : α} :
    Yields (if c then m else m') s a s' ↔ (c ∧ Yields m s a s') ∨ (¬c ∧ Yields m' s a s') := by
  by_cases hc : c <;> simp [hc]

theorem yields_mapM_nil {f : α → Comp σ ε β} {s s' : σ} {bs : List β} : Yields ([].mapM f) s bs s' ↔ bs = [] ∧ s = s' := by
  rw [List.mapM_nil, yields_pure, eq_comm]

theorem yields_mapM_cons {f : α → Comp σ ε β} {a : α} {l : List α} {s s' : σ} {bs : List β} :
    Yields ((a :: l).mapM f) s bs s' ↔ ∃ b s₁ rest, Yields (f a) s b s₁ ∧ Yields (l.mapM f) s₁ rest s' ∧ bs = b :: rest := by
  simp only [List.mapM_cons, yields_bind, yields_pure]
  constructor
  · rintro ⟨b, s₁, hb, rest, _, hrest, rfl, rfl⟩
    exact ⟨b, s₁, rest, hb, hrest, rfl⟩
  · rintro ⟨b, s₁, rest, hb, hrest, rfl⟩
    exact ⟨b, s₁, hb, rest, _, hrest, rfl, rfl⟩

theorem yields_foldlM_nil {f : β → α → Comp σ ε β} {b b' : β} {s s' : σ} : Yields ([].foldlM f b) s b' s' ↔ b = b' ∧ s = s' := by
  rw [List.foldlM_nil, yields_pure]

theorem yields_foldlM_cons {f : β → α → Comp σ ε β} {a : α} {l : List α} {b b' : β} {s s' : σ} :
    Yields ((a :: l).foldlM f b) s b' s' ↔ ∃ b₁ s₁, Yields (f b a) s b₁ s₁ ∧ Yields (l.foldlM f b₁) s₁ b' s' := by
  rw [List.foldlM_cons, yields_bind]

/-- What each step of a fold keeps holds at its end. -/
theorem foldlM_induct {P : β → σ → Prop} {f : β → α → Comp σ ε β} {l : List α} {b b' : β} {s s' : σ}
    (hf : ∀ a ∈ l, ∀ b s b₁ s₁, P b s → Yields (f b a) s b₁ s₁ → P b₁ s₁) (h : Yields (l.foldlM f b) s b' s') (hp : P b s) : P b' s' := by
  induction l generalizing b s with
  | nil =>
    obtain ⟨rfl, rfl⟩ := yields_foldlM_nil.1 h
    exact hp
  | cons a l ih =>
    obtain ⟨b₁, s₁, hb, hrest⟩ := yields_foldlM_cons.1 h
    exact ih (fun a' ha' => hf a' (List.mem_cons_of_mem a ha')) hrest (hf a List.mem_cons_self b s b₁ s₁ hp hb)

/-- What each computation of a list keeps holds at its end, of the results up to there. -/
theorem mapM_induct {P : List β → σ → Prop} {f : α → Comp σ ε β} {l : List α} {bs : List β} {s s' : σ}
    (hf : ∀ a ∈ l, ∀ bs s b s₁, P bs s → Yields (f a) s b s₁ → P (bs ++ [b]) s₁) (h : Yields (l.mapM f) s bs s') (hp : P [] s) :
    P bs s' := by
  have hall : ∀ before, P before s → P (before ++ bs) s' := by
    clear hp
    induction l generalizing bs s with
    | nil =>
      obtain ⟨rfl, rfl⟩ := yields_mapM_nil.1 h
      intro before hb
      rwa [List.append_nil]
    | cons a l ih =>
      obtain ⟨b, s₁, rest, hb, hrest, rfl⟩ := yields_mapM_cons.1 h
      intro before hbefore
      have := ih (fun a' ha' => hf a' (List.mem_cons_of_mem a ha')) hrest (before ++ [b]) (hf a List.mem_cons_self before s b s₁ hbefore hb)
      rwa [List.append_assoc] at this
  exact hall [] hp

/-- The results of two lists of computations are related one by one, when those of each pair are. -/
theorem mapM_rel {R : β → γ → Prop} {f : α → Comp σ ε β} {g : α → Comp σ ε γ} {l : List α} {bs : List β} {cs : List γ} {s s' t t' : σ}
    (hfg : ∀ a ∈ l, ∀ s b s₁ t c t₁, Yields (f a) s b s₁ → Yields (g a) t c t₁ → R b c) (hb : Yields (l.mapM f) s bs s')
    (hc : Yields (l.mapM g) t cs t') : List.Forall₂ R bs cs := by
  induction l generalizing s t bs cs with
  | nil =>
    obtain ⟨rfl, -⟩ := yields_mapM_nil.1 hb
    obtain ⟨rfl, -⟩ := yields_mapM_nil.1 hc
    exact .nil
  | cons a l ih =>
    obtain ⟨b, s₁, bs', hfirst, hbs, rfl⟩ := yields_mapM_cons.1 hb
    obtain ⟨c, t₁, cs', hfirst', hcs, rfl⟩ := yields_mapM_cons.1 hc
    exact .cons (hfg a List.mem_cons_self s b s₁ t c t₁ hfirst hfirst') (ih (fun a' ha' => hfg a' (List.mem_cons_of_mem a ha')) hbs hcs)

/-- Two folds by steps that keep a relation end in it. -/
theorem foldlM_rel {R : β → γ → Prop} {f : β → α → Comp σ ε β} {g : γ → α → Comp σ ε γ} {l : List α} {b b' : β} {c c' : γ} {s s' t t' : σ}
    (hfg : ∀ a ∈ l, ∀ b c s b₁ s₁ t c₁ t₁, R b c → Yields (f b a) s b₁ s₁ → Yields (g c a) t c₁ t₁ → R b₁ c₁)
    (hb : Yields (l.foldlM f b) s b' s') (hc : Yields (l.foldlM g c) t c' t') (h : R b c) : R b' c' := by
  induction l generalizing b c s t with
  | nil =>
    obtain ⟨rfl, -⟩ := yields_foldlM_nil.1 hb
    obtain ⟨rfl, -⟩ := yields_foldlM_nil.1 hc
    exact h
  | cons a l ih =>
    obtain ⟨b₁, s₁, hfirst, hb'⟩ := yields_foldlM_cons.1 hb
    obtain ⟨c₁, t₁, hfirst', hc'⟩ := yields_foldlM_cons.1 hc
    exact ih (fun a' ha' => hfg a' (List.mem_cons_of_mem a ha')) hb' hc' (hfg a List.mem_cons_self b c s b₁ s₁ t c₁ t₁ h hfirst hfirst')

/-! ## When a computation ends -/

theorem ends_pure (a : α) (s : σ) : Ends (pure a : Comp σ ε α) s := Option.some_ne_none _

theorem ends_lift (result : Except ε α) (s : σ) : Ends (lift result : Comp σ ε α) s := Option.some_ne_none _

theorem ends_get (s : σ) : Ends (get : Comp σ ε σ) s := Option.some_ne_none _

theorem ends_modify (f : σ → σ) (s : σ) : Ends (modify f : Comp σ ε Unit) s := Option.some_ne_none _

theorem ends_bind {m : Comp σ ε α} {f : α → Comp σ ε β} {s : σ} (hm : Ends m s) (hf : ∀ a s₁, Yields m s a s₁ → Ends (f a) s₁) :
    Ends (m >>= f) s := by
  rw [Ends, bind_run]
  split
  · rename_i h
    exact absurd h hm
  · exact Option.some_ne_none _
  · rename_i a s₁ h
    exact hf a s₁ h

theorem ends_mapM {f : α → Comp σ ε β} {l : List α} (hf : ∀ a ∈ l, ∀ s, Ends (f a) s) (s : σ) : Ends (l.mapM f) s := by
  induction l generalizing s with
  | nil =>
    rw [List.mapM_nil]
    exact ends_pure [] s
  | cons a l ih =>
    rw [List.mapM_cons]
    refine ends_bind (hf a List.mem_cons_self s) fun b s₁ _ => ?_
    exact ends_bind (ih (fun a' ha' => hf a' (List.mem_cons_of_mem a ha')) s₁) fun bs s₂ _ => ends_pure _ s₂

theorem ends_foldlM {f : β → α → Comp σ ε β} {l : List α} (hf : ∀ a ∈ l, ∀ b s, Ends (f b a) s) (b : β) (s : σ) :
    Ends (l.foldlM f b) s := by
  induction l generalizing b s with
  | nil => exact ends_pure b s
  | cons a l ih =>
    rw [List.foldlM_cons]
    exact ends_bind (hf a List.mem_cons_self b s) fun b₁ s₁ _ => ih (fun a' ha' => hf a' (List.mem_cons_of_mem a ha')) b₁ s₁

end Fueled
