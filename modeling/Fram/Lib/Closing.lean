import Mathlib.Tactic

/-!
# Computations under a context that may close

A computation threads a context and may throw. The context is open until something closes it, and from then on computations go through
the motions: they return something, and what they return is not used.

`Runs` is the triple for these: the computation does not throw, what it returns satisfies `P` whether or not the context closed on the
way, and when the context is open at the end it was open at the start and the result satisfies `Q`. The rules follow how such
computations are written: in sequence, guarded by the context, and looping over a list.
-/

namespace Closing

/-- A computation under a context of `σ` that may throw an `ε`. -/
abbrev M (σ ε α : Type) := StateT σ (Except ε) α

variable {σ ε α β γ : Type}

/-- A pure result that may be a failure, as a computation. -/
def lift (r : Except ε α) : M σ ε α := fun c =>
  match r with
  | .ok a => .ok (a, c)
  | .error e => .error e

/-- A computation that is skipped when the context is closed. -/
def whenOpen (isOpen : σ → Bool) (closed : α) (m : M σ ε α) : M σ ε α := fun c =>
  if isOpen c = true then m c else .ok (closed, c)

/-- The loop that runs a computation on each item and joins the results. When the context closes, the loop stops with what `closed`
makes of the results so far. -/
def collect (isOpen : σ → Bool) (closed : γ → γ) (join : γ → β → γ) (f : α → M σ ε β) : List α → γ → M σ ε γ
  | [], results => whenOpen isOpen (closed results) (pure results)
  | x :: rest, results =>
    whenOpen isOpen (closed results) (f x >>= fun found =>
      whenOpen isOpen (closed results) (collect isOpen closed join f rest (join results found)))

/-- The computation does not throw, its result always satisfies `P`, and satisfies `Q` when the context is open at the end; then it
was open at the start. -/
def Runs (isOpen : σ → Bool) (m : M σ ε α) (P Q : α → Prop) : Prop :=
  ∀ c, ∃ a c', m c = .ok (a, c') ∧ P a ∧ (isOpen c' = true → isOpen c = true ∧ Q a)

section Rules

variable {isOpen : σ → Bool} {P Q : α → Prop} {P' Q' : β → Prop}

theorem bind_apply (m : M σ ε α) (f : α → M σ ε β) (c : σ) :
    (m >>= f) c = (match m c with | .error e => .error e | .ok (a, c') => f a c') := by
  simp only [bind, StateT.bind, Except.bind]
  cases m c <;> rfl

theorem runs_pure {a : α} (hp : P a) (hq : Q a) : Runs isOpen (pure a : M σ ε α) P Q :=
  fun c => ⟨a, c, rfl, hp, fun h => ⟨h, hq⟩⟩

theorem runs_lift {r : Except ε α} {a : α} (hr : r = .ok a) (hp : P a) (hq : Q a) : Runs isOpen (lift r : M σ ε α) P Q := by
  subst hr
  exact fun c => ⟨a, c, rfl, hp, fun h => ⟨h, hq⟩⟩

/-- What runs after a computation may rely on all that its result satisfies. -/
theorem Runs.bind {m : M σ ε α} {f : α → M σ ε β} (hm : Runs isOpen m P Q)
    (hf : ∀ a, P a → Runs isOpen (f a) P' (fun b => Q a → Q' b)) : Runs isOpen (m >>= f) P' Q' := by
  intro c
  obtain ⟨a, c₁, h₁, hp, hq⟩ := hm c
  obtain ⟨b, c₂, h₂, hp', hq'⟩ := hf a hp c₁
  refine ⟨b, c₂, ?_, hp', fun h => ?_⟩
  · rw [bind_apply, h₁]
    exact h₂
  · obtain ⟨h', hb⟩ := hq' h
    obtain ⟨hc, ha⟩ := hq h'
    exact ⟨hc, hb ha⟩

/-- What runs after a computation may rely on all that holds of an open context, when it does nothing under a closed one. -/
theorem Runs.bindOpen {m : M σ ε α} {f : α → M σ ε β} (closed : α → β) (hm : Runs isOpen m P Q) (hp : ∀ a, P a → P' (closed a))
    (hclosed : ∀ a c, isOpen c = false → f a c = .ok (closed a, c)) (hf : ∀ a, P a → Q a → Runs isOpen (f a) P' Q') :
    Runs isOpen (m >>= f) P' Q' := by
  intro c
  obtain ⟨a, c₁, h₁, ha, hq⟩ := hm c
  rw [bind_apply, h₁]
  cases hc : isOpen c₁ with
  | true =>
    obtain ⟨b, c₂, h₂, hb, hq'⟩ := hf a ha (hq hc).2 c₁
    exact ⟨b, c₂, h₂, hb, fun h => ⟨(hq hc).1, (hq' h).2⟩⟩
  | false => exact ⟨closed a, c₁, hclosed a c₁ hc, hp a ha, fun h => absurd (hc.symm.trans h) (by simp)⟩

theorem whenOpen_closed {a : α} {m : M σ ε α} {c : σ} (h : isOpen c = false) : Closing.whenOpen isOpen a m c = .ok (a, c) := by
  rw [Closing.whenOpen, if_neg (by simp [h])]

/-- What runs after a computation only when the context is still open may rely on all that holds of an open context. -/
theorem Runs.bindWhenOpen {m : M σ ε α} {f : α → M σ ε β} {closed : α → β} (hm : Runs isOpen m P Q)
    (hclosed : ∀ a, P a → P' (closed a)) (hf : ∀ a, P a → Q a → Runs isOpen (f a) P' Q') :
    Runs isOpen (m >>= fun a => Closing.whenOpen isOpen (closed a) (f a)) P' Q' := by
  refine hm.bindOpen closed hclosed (fun _ _ h => whenOpen_closed h) fun a hp hq c => ?_
  by_cases hc : isOpen c = true
  · rw [Closing.whenOpen, if_pos hc]
    exact hf a hp hq c
  · exact ⟨closed a, c, whenOpen_closed (by simpa using hc), hclosed a hp, fun h => absurd h hc⟩

theorem Runs.weaken {m : M σ ε α} {P₁ Q₁ : α → Prop} (hm : Runs isOpen m P Q) (hp : ∀ a, P a → P₁ a) (hq : ∀ a, P a → Q a → Q₁ a) :
    Runs isOpen m P₁ Q₁ := by
  intro c
  obtain ⟨a, c', h, hpa, hqa⟩ := hm c
  exact ⟨a, c', h, hp a hpa, fun ho => ⟨(hqa ho).1, hq a hpa (hqa ho).2⟩⟩

/-- A guard on the context only asks that what is returned under a closed one satisfies `P`. -/
theorem Runs.whenOpen {m : M σ ε α} {a : α} (hm : Runs isOpen m P Q) (ha : P a) : Runs isOpen (whenOpen isOpen a m) P Q := by
  intro c
  by_cases hc : isOpen c = true
  · obtain ⟨b, c', h, hp, hq⟩ := hm c
    exact ⟨b, c', by rw [Closing.whenOpen, if_pos hc, h], hp, hq⟩
  · exact ⟨a, c, by rw [Closing.whenOpen, if_neg hc], ha, fun h => absurd h hc⟩

/-- The rule of the loop: an invariant `I` over the items done and the results so far, and one for the results of an open context.
A computation on an item is described by `P' x` and `Q' x`. -/
theorem runs_collect {closed : γ → γ} {join : γ → β → γ} {f : α → M σ ε β} {P' Q' : α → β → Prop} {I J : List α → γ → Prop}
    {whole : List α} (hf : ∀ x ∈ whole, Runs isOpen (f x) (P' x) (Q' x))
    (hI : ∀ done x results found, x ∈ whole → I done results → P' x found → I (done ++ [x]) (join results found))
    (hJ : ∀ done x results found, x ∈ whole → I done results → J done results → P' x found → Q' x found →
      J (done ++ [x]) (join results found)) {R S : γ → Prop} (hclosed : ∀ done results, I done results → R (closed results))
    (hend : ∀ results, I whole results → R results) (hopen : ∀ results, I whole results → J whole results → S results) :
    ∀ (rest done : List α) (results : γ), done ++ rest = whole → I done results →
      Runs isOpen (collect isOpen closed join f rest results) R (fun r => J done results → S r) := by
  intro rest
  induction rest with
  | nil =>
    intro done results hd hi
    rw [List.append_nil] at hd
    subst hd
    exact (runs_pure (hend results hi) (hopen results hi)).whenOpen (hclosed done results hi)
  | cons x rest ih =>
    intro done results hd hi
    have hx : x ∈ whole := hd ▸ by simp
    refine Runs.whenOpen ?_ (hclosed done results hi)
    refine (hf x hx).bind fun found hp => ?_
    refine Runs.whenOpen ?_ (hclosed done results hi)
    refine (ih (done ++ [x]) (join results found) (by simpa using hd) (hI done x results found hx hi hp)).weaken
      (fun _ h => h) fun r _ hr hq hj => ?_
    exact hr (hJ done x results found hx hi hj hp hq)

end Rules

/-! ## Listing a set -/

/-- The computation lists a set: what it returns is in the set, and when the context is open at the end, every member of the set is
returned, up to `same`. -/
def Lists (isOpen : σ → Bool) (same : α → α → Prop) (m : M σ ε (List α)) (S : Set α) : Prop :=
  Runs isOpen m (fun found => ∀ x ∈ found, x ∈ S) (fun found => ∀ x ∈ S, ∃ y ∈ found, same x y)

section Lists

variable {isOpen : σ → Bool} {same : β → β → Prop}

theorem lists_pure {found : List β} {S : Set β} (h : ∀ x ∈ found, x ∈ S) (h' : ∀ x ∈ S, ∃ y ∈ found, same x y) :
    Lists isOpen same (pure found : M σ ε (List β)) S := runs_pure h h'

/-- A loop whose items each list a set lists their union. What an item returns is seen as a list by `view`. -/
theorem lists_collect {δ : Type} {v : δ → List β} {closed : List β → List β} {join : List β → δ → List β} {f : α → M σ ε δ}
    {S : α → Set β} {items : List α}
    (hf : ∀ x ∈ items, Runs isOpen (f x) (fun d => ∀ y ∈ v d, y ∈ S x) (fun d => ∀ y ∈ S x, ∃ z ∈ v d, same y z))
    (hclosed : ∀ r, ∀ y ∈ closed r, y ∈ r) (hjoin : ∀ r d, ∀ y ∈ join r d, y ∈ r ∨ y ∈ v d)
    (hleft : ∀ r d, ∀ y ∈ r, y ∈ join r d) (hright : ∀ r d, ∀ y ∈ v d, ∃ z ∈ join r d, same y z)
    (htrans : ∀ x y z, same x y → same y z → same x z) :
    Lists isOpen same (collect isOpen closed join f items []) {y | ∃ x ∈ items, y ∈ S x} := by
  have hrule := runs_collect (γ := List β) hf
    (I := fun _ r => ∀ y ∈ r, ∃ x ∈ items, y ∈ S x)
    (J := fun done r => ∀ y, (∃ x ∈ done, y ∈ S x) → ∃ z ∈ r, same y z)
    (R := fun r => ∀ y ∈ r, ∃ x ∈ items, y ∈ S x) (S := fun r => ∀ y, (∃ x ∈ items, y ∈ S x) → ∃ z ∈ r, same y z)
    (fun done x results found hx hi hp y hy => (hjoin results found y hy).elim (hi y) fun h => ⟨x, hx, hp y h⟩)
    ?_ (fun done results hi y hy => hi y (hclosed results y hy)) (fun results hi => hi) (fun results _ hj => hj)
    items [] [] rfl (List.forall_mem_nil _)
  · exact hrule.weaken (fun r h => h) fun r _ h => h (fun y hy => absurd hy (by simp))
  · intro done x results found hx hi hj hp hq y hy
    obtain ⟨x', hx', hy⟩ := hy
    rcases List.mem_append.1 hx' with hx' | hx'
    · obtain ⟨z, hz, hs⟩ := hj y ⟨x', hx', hy⟩
      exact ⟨z, hleft results found z hz, hs⟩
    · rw [List.mem_singleton.1 hx'] at hy
      obtain ⟨z, hz, hs⟩ := hq y hy
      obtain ⟨w, hw, hs'⟩ := hright results found z hz
      exact ⟨w, hw, htrans y z w hs hs'⟩

/-- Listing a set is listing any set with the same members. -/
theorem Lists.of_subset {m : M σ ε (List β)} {S T : Set β} (h : Lists isOpen same m S) (hst : ∀ x ∈ S, x ∈ T) (hts : ∀ x ∈ T, x ∈ S) :
    Lists isOpen same m T :=
  Runs.weaken h (fun _ hf x hx => hst x (hf x hx)) fun _ _ hf x hx => hf x (hts x hx)

end Lists

/-! ## What a computation returns -/

/-- Whatever the computation returns has the property. -/
def Returns (m : M σ ε α) (P : α → Prop) : Prop := ∀ c a c', m c = .ok (a, c') → P a

theorem returns_pure {P : α → Prop} {a : α} (h : P a) : Returns (pure a : M σ ε α) P := by
  intro c b c' hb
  cases hb
  exact h

theorem Returns.bind {m : M σ ε α} {f : α → M σ ε β} {P : α → Prop} {Q : β → Prop} (hm : Returns m P)
    (hf : ∀ a, P a → Returns (f a) Q) : Returns (m >>= f) Q := by
  intro c b c' hb
  change (m c >>= fun r => f r.1 r.2) = .ok (b, c') at hb
  cases h : m c with
  | error e =>
    rw [h] at hb
    cases hb
  | ok r =>
    rw [h] at hb
    exact hf r.1 (hm c r.1 r.2 h) r.2 b c' hb

theorem Returns.whenOpen {isOpen : σ → Bool} {m : M σ ε α} {a : α} {P : α → Prop} (hm : Returns m P) (ha : P a) :
    Returns (whenOpen isOpen a m) P := by
  intro c b c' hb
  unfold Closing.whenOpen at hb
  split at hb
  · exact hm c b c' hb
  · cases hb
    exact ha

/-- Nothing is said of what is returned. -/
theorem returns_any (m : M σ ε α) : Returns m fun _ => True := fun _ _ _ _ => trivial

end Closing
