import Mathlib.Tactic

/-!
# Readers of a list

A reader takes items from the front of a list, threads a value beside it, and may fail. Most readers are `Exact`: whether a read
succeeds, and with what, depends only on the items it takes, so a reader is given by a relation between these and its result.
Exactness is closed under what readers are built from, and a successful exact read goes the same way when more items follow.
-/

namespace Reader

/-- What is left to read, and the value threaded beside it. -/
structure State (β σ : Type) where
  rest : List β
  aux : σ

/-- A reader of items of `β` with failures in `ε`. -/
abbrev M (ε β σ : Type) := StateT (State β σ) (Except ε)

variable {ε β σ α γ : Type}

/-- The next item, or a failure at the end. -/
def next (e : ε) : M ε β σ β := fun d =>
  match d.rest with
  | b :: rest => .ok (b, ⟨rest, d.aux⟩)
  | [] => .error e

/-- Failure. -/
def fail (e : ε) : M ε β σ α := fun _ => .error e

@[simp] theorem pure_apply (a : α) (d : State β σ) : (pure a : M ε β σ α) d = .ok (a, d) := rfl

@[simp] theorem fail_apply (e : ε) (d : State β σ) : (fail e : M ε β σ α) d = .error e := rfl

theorem bind_apply (p : M ε β σ α) (f : α → M ε β σ γ) (d : State β σ) :
    (p >>= f) d = (match p d with | .error e => .error e | .ok (a, d') => f a d') := by
  simp only [bind, StateT.bind, Except.bind]
  cases p d <;> rfl

/-- A sequence succeeds exactly when both parts do. -/
theorem bind_eq_ok_iff {p : M ε β σ α} {f : α → M ε β σ γ} {d d' : State β σ} {c : γ} :
    (p >>= f) d = .ok (c, d') ↔ ∃ a d₁, p d = .ok (a, d₁) ∧ f a d₁ = .ok (c, d') := by
  rw [bind_apply]
  cases hp : p d with
  | error e => simp
  | ok r =>
    obtain ⟨a, d₁⟩ := r
    constructor
    · exact fun h => ⟨a, d₁, rfl, h⟩
    · rintro ⟨a', d₂, h, hf⟩
      cases h
      exact hf

theorem bind_of_ok {p : M ε β σ α} {f : α → M ε β σ γ} {d d₁ : State β σ} {a : α} (h : p d = .ok (a, d₁)) : (p >>= f) d = f a d₁ := by
  rw [bind_apply, h]

theorem bind_of_error {p : M ε β σ α} {f : α → M ε β σ γ} {d : State β σ} {e : ε} (h : p d = .error e) : (p >>= f) d = .error e := by
  rw [bind_apply, h]

/-! ## Exact readers -/

/-- The reader takes exactly what the relation allows: from a threaded value `n` it returns `a` and leaves `n'` exactly when what it
took is related to them. -/
def Exact (p : M ε β σ α) (R : σ → α → List β → σ → Prop) : Prop :=
  ∀ (d d' : State β σ) (a : α), p d = .ok (a, d') ↔ ∃ used, d.rest = used ++ d'.rest ∧ R d.aux a used d'.aux

theorem exact_pure (a : α) : Exact (pure a : M ε β σ α) (fun n b used n' => b = a ∧ used = [] ∧ n' = n) := by
  rintro ⟨rest, aux⟩ ⟨rest', aux'⟩ b
  constructor
  · intro h
    cases h
    exact ⟨[], rfl, rfl, rfl, rfl⟩
  · rintro ⟨used, hr, rfl, rfl, rfl⟩
    cases hr
    rfl

theorem exact_fail (e : ε) : Exact (fail e : M ε β σ α) (fun _ _ _ _ => False) := by
  intro d d' a
  simp

theorem exact_next (e : ε) : Exact (next e : M ε β σ β) (fun n b used n' => used = [b] ∧ n' = n) := by
  rintro ⟨rest, aux⟩ ⟨rest', aux'⟩ b
  constructor
  · intro h
    cases rest with
    | nil => cases h
    | cons c rest =>
      cases h
      exact ⟨[_], rfl, rfl, rfl⟩
  · rintro ⟨used, hr, rfl, rfl⟩
    obtain rfl : rest = b :: rest' := hr
    rfl

theorem Exact.bind {p : M ε β σ α} {f : α → M ε β σ γ} {R : σ → α → List β → σ → Prop}
    {S : α → σ → γ → List β → σ → Prop} (hp : Exact p R) (hf : ∀ a, Exact (f a) (S a)) :
    Exact (p >>= f) fun n c used n' => ∃ a u v m, used = u ++ v ∧ R n a u m ∧ S a m c v n' := by
  intro d d' c
  rw [bind_eq_ok_iff]
  constructor
  · rintro ⟨a, d₁, h1, h2⟩
    obtain ⟨u, hu, hR⟩ := (hp d d₁ a).1 h1
    obtain ⟨v, hv, hS⟩ := (hf a d₁ d' c).1 h2
    exact ⟨u ++ v, by rw [hu, hv, List.append_assoc], a, u, v, d₁.aux, rfl, hR, hS⟩
  · rintro ⟨used, hr, a, u, v, m, rfl, hR, hS⟩
    exact ⟨a, ⟨v ++ d'.rest, m⟩, (hp _ _ _).2 ⟨u, by rw [hr, List.append_assoc], hR⟩, (hf _ _ _ _).2 ⟨v, rfl, hS⟩⟩

/-- A choice between two readers. -/
theorem Exact.ite {c : Prop} [Decidable c] {p q : M ε β σ α} {R S : σ → α → List β → σ → Prop} (hp : Exact p R) (hq : Exact q S) :
    Exact (if c then p else q) fun n a used n' => (c ∧ R n a used n') ∨ (¬c ∧ S n a used n') := by
  split
  · rename_i h
    simpa only [h, true_and, not_true_eq_false, false_and, or_false] using hp
  · rename_i h
    simpa only [h, false_and, not_false_eq_true, true_and, false_or] using hq

/-- An exact reader is determined by its relation up to equivalence. -/
theorem Exact.congr {p : M ε β σ α} {R S : σ → α → List β → σ → Prop} (hp : Exact p R)
    (h : ∀ n a used n', R n a used n' ↔ S n a used n') : Exact p S := by
  intro d d' a
  rw [hp d d' a]
  exact exists_congr fun used => and_congr_right fun _ => h ..

/-- A successful exact read goes the same way when more items follow. -/
theorem Exact.append {p : M ε β σ α} {R : σ → α → List β → σ → Prop} (hp : Exact p R) {d d' : State β σ} {a : α}
    (h : p d = .ok (a, d')) (more : List β) : p ⟨d.rest ++ more, d.aux⟩ = .ok (a, ⟨d'.rest ++ more, d'.aux⟩) := by
  obtain ⟨used, hr, hR⟩ := (hp d d' a).1 h
  exact (hp _ _ _).2 ⟨used, by simp [hr], hR⟩

/-! ## Readers that agree -/

/-- Two readers succeed alike, with the same results; their failures may differ. -/
def Agree {ε' : Type} (p : M ε β σ α) (q : M ε' β σ α) : Prop := ∀ d r, p d = .ok r ↔ q d = .ok r

section Agree

variable {ε' : Type}

theorem agree_pure (a : α) : Agree (pure a : M ε β σ α) (pure a : M ε' β σ α) := by
  intro d r
  simp

theorem agree_fail (e : ε) (e' : ε') : Agree (fail e : M ε β σ α) (fail e' : M ε' β σ α) := by
  intro d r
  simp

theorem Agree.bind {p : M ε β σ α} {q : M ε' β σ α} {f : α → M ε β σ γ} {g : α → M ε' β σ γ} (h : Agree p q)
    (hf : ∀ a, Agree (f a) (g a)) : Agree (p >>= f) (q >>= g) := by
  rintro d ⟨c, d'⟩
  rw [bind_eq_ok_iff, bind_eq_ok_iff]
  exact exists_congr fun a => exists_congr fun d₁ => and_congr (h d (a, d₁)) (hf a d₁ (c, d'))

theorem Agree.ite {c : Prop} [Decidable c] {p p' : M ε β σ α} {q q' : M ε' β σ α} (h : Agree p q) (h' : Agree p' q') :
    Agree (if c then p else p') (if c then q else q') := by
  split
  · exact h
  · exact h'

/-- Readers that take what one relation allows agree. -/
theorem Exact.agree {p : M ε β σ α} {q : M ε' β σ α} {R : σ → α → List β → σ → Prop} (hp : Exact p R) (hq : Exact q R) : Agree p q := by
  rintro d ⟨a, d'⟩
  rw [hp, hq]

/-- A reader that agrees with an exact one is exact. -/
theorem Agree.exact {p : M ε β σ α} {q : M ε' β σ α} {R : σ → α → List β → σ → Prop} (h : Agree p q) (hq : Exact q R) : Exact p R := by
  intro d d' a
  rw [h, hq]

/-- Two readers succeed alike from any values beside the list, and leave the same rest; the values beside it may differ. -/
def AgreeOnRest (p : M ε β σ α) (q : M ε' β σ α) : Prop :=
  ∀ rest n n' a rest', (∃ m, p ⟨rest, n⟩ = .ok (a, ⟨rest', m⟩)) ↔ ∃ m, q ⟨rest, n'⟩ = .ok (a, ⟨rest', m⟩)

theorem agreeOnRest_pure (a : α) : AgreeOnRest (pure a : M ε β σ α) (pure a : M ε' β σ α) := by
  intro rest n n' b rest'
  simp

/-- Two readers that never succeed. -/
theorem agreeOnRest_of_fails {p : M ε β σ α} {q : M ε' β σ α} (hp : ∀ d r, p d ≠ .ok r) (hq : ∀ d r, q d ≠ .ok r) : AgreeOnRest p q := by
  intro rest n n' a rest'
  simp [hp, hq]

theorem agreeOnRest_fail (e : ε) (e' : ε') : AgreeOnRest (fail e : M ε β σ α) (fail e' : M ε' β σ α) :=
  agreeOnRest_of_fails (by simp) (by simp)

theorem AgreeOnRest.bind {p : M ε β σ α} {q : M ε' β σ α} {f : α → M ε β σ γ} {g : α → M ε' β σ γ} (h : AgreeOnRest p q)
    (hf : ∀ a, AgreeOnRest (f a) (g a)) : AgreeOnRest (p >>= f) (q >>= g) := by
  intro rest n n' c rest'
  simp only [bind_eq_ok_iff]
  constructor
  · rintro ⟨m, a, ⟨rest₁, m₁⟩, h1, h2⟩
    obtain ⟨m₁', h1'⟩ := (h rest n n' a rest₁).1 ⟨m₁, h1⟩
    obtain ⟨m', h2'⟩ := (hf a rest₁ m₁ m₁' c rest').1 ⟨m, h2⟩
    exact ⟨m', a, _, h1', h2'⟩
  · rintro ⟨m, a, ⟨rest₁, m₁⟩, h1, h2⟩
    obtain ⟨m₁', h1'⟩ := (h rest n n' a rest₁).2 ⟨m₁, h1⟩
    obtain ⟨m', h2'⟩ := (hf a rest₁ m₁' m₁ c rest').2 ⟨m, h2⟩
    exact ⟨m', a, _, h1', h2'⟩

theorem AgreeOnRest.ite {c : Prop} [Decidable c] {p p' : M ε β σ α} {q q' : M ε' β σ α} (h : AgreeOnRest p q)
    (h' : AgreeOnRest p' q') : AgreeOnRest (if c then p else p') (if c then q else q') := by
  split
  · exact h
  · exact h'

/-- Exact readers whose relations allow the same items, whatever the values beside the list. -/
theorem Exact.agreeOnRest {p : M ε β σ α} {q : M ε' β σ α} {R S : σ → α → List β → σ → Prop} (hp : Exact p R) (hq : Exact q S)
    (h : ∀ n n' a used, (∃ m, R n a used m) ↔ ∃ m, S n' a used m) : AgreeOnRest p q := by
  intro rest n n' a rest'
  simp only [hp _ _ _, hq _ _ _]
  constructor
  · rintro ⟨m, used, hr, hR⟩
    obtain ⟨m', hS⟩ := (h n n' a used).1 ⟨m, hR⟩
    exact ⟨m', used, hr, hS⟩
  · rintro ⟨m, used, hr, hS⟩
    obtain ⟨m', hR⟩ := (h n n' a used).2 ⟨m, hS⟩
    exact ⟨m', used, hr, hR⟩

end Agree

/-! ## Reading given items -/

/-- The reader takes the items, whatever follows them, and returns the value; it leaves the value beside the list. -/
def Takes (p : M ε β σ α) (used : List β) (a : α) : Prop := ∀ rest n, p ⟨used ++ rest, n⟩ = .ok (a, ⟨rest, n⟩)

theorem takes_pure (a : α) : Takes (pure a : M ε β σ α) [] a := fun _ _ => rfl

theorem Takes.bind {p : M ε β σ α} {f : α → M ε β σ γ} {u v : List β} {a : α} {c : γ} (hp : Takes p u a)
    (hf : Takes (f a) v c) : Takes (p >>= f) (u ++ v) c := by
  intro rest n
  rw [List.append_assoc, bind_of_ok (hp (v ++ rest) n)]
  exact hf rest n

theorem Takes.map {p : M ε β σ α} {used : List β} {a : α} (hp : Takes p used a) (g : α → γ) :
    Takes (p >>= fun x => pure (g x)) used (g a) := by
  have := hp.bind (takes_pure (g a)) (f := fun x => pure (g x))
  rwa [List.append_nil] at this

/-- An exact reader takes what its relation allows for every value beside the list. -/
theorem Exact.takes {p : M ε β σ α} {R : σ → α → List β → σ → Prop} (hp : Exact p R) {used : List β} {a : α}
    (h : ∀ n, R n a used n) : Takes p used a :=
  fun _ n => (hp _ _ _).2 ⟨used, rfl, h n⟩

end Reader
