import Mathlib.Tactic

/-!
# Breadth-first search

A search with a queue and a set of the values it has found, filled when a value is found. Its entries are the values with the depths at
which they were found, those that are done before those in the queue. Each entry's depth is the least number of steps to its value, and at
the end every value that is reached in no more steps than a bound has an entry.
-/

namespace Breadth

variable {α : Type*}

/-- So many steps of a relation. -/
inductive Steps (R : α → α → Prop) : Nat → α → α → Prop where
  | none (a : α) : Steps R 0 a a
  | more {n : Nat} {a b c : α} (h : Steps R n a b) (hr : R b c) : Steps R (n + 1) a c

/-- The least number of steps from one value to another. -/
def LeastSteps (R : α → α → Prop) (n : Nat) (a b : α) : Prop := Steps R n a b ∧ ∀ m, Steps R m a b → n ≤ m

/-- A search under way: its entries that are done, and those in the queue. -/
structure Search (R : α → α → Prop) (seed : α) (bound : Nat) (done queue : List (α × Nat)) : Prop where
  first : ∃ rest, done ++ queue = (seed, 0) :: rest
  nodup : ((done ++ queue).map (·.1)).Nodup
  steps : ∀ entry ∈ done ++ queue, entry.2 ≤ bound ∧ Steps R entry.2 seed entry.1
  sorted : queue.Pairwise fun x y => x.2 ≤ y.2
  near : ∀ head, queue.head? = some head → ∀ entry ∈ done ++ queue, entry.2 ≤ head.2 + 1
  closed : ∀ entry ∈ done, entry.2 < bound → ∀ v, R entry.1 v → ∃ d, d ≤ entry.2 + 1 ∧ (v, d) ∈ done ++ queue

variable {R : α → α → Prop} {seed : α} {bound : Nat}

theorem Search.init : Search R seed bound [] [(seed, 0)] where
  first := ⟨[], rfl⟩
  nodup := List.nodup_singleton _
  steps := by
    intro entry h
    rw [List.mem_singleton.1 h]
    exact ⟨Nat.zero_le _, .none seed⟩
  sorted := List.pairwise_singleton _ _
  near := by
    intro head _ entry h
    rw [List.mem_singleton.1 h]
    exact Nat.zero_le _
  closed := by simp

/-- One entry is taken off the queue, and the values that it leads to and that have no entry get theirs at its end. -/
theorem Search.step {done queue : List (α × Nat)} {node : α} {depth : Nat} {fresh : List α}
    (h : Search R seed bound done ((node, depth) :: queue)) (hd : fresh.Nodup)
    (hf : ∀ v, v ∈ fresh ↔ depth < bound ∧ R node v ∧ ∀ d, (v, d) ∉ done ++ (node, depth) :: queue) :
    Search R seed bound (done ++ [(node, depth)]) (queue ++ fresh.map (·, depth + 1)) := by
  have hentries : done ++ [(node, depth)] ++ (queue ++ fresh.map (·, depth + 1)) =
      done ++ (node, depth) :: queue ++ fresh.map (·, depth + 1) := by simp
  have hnear := h.near _ rfl
  have hqueue : ∀ entry ∈ queue, depth ≤ entry.2 := (List.pairwise_cons.1 h.sorted).1
  have hnext : ∀ entry ∈ fresh.map (·, depth + 1), entry.2 = depth + 1 := by
    intro entry he
    obtain ⟨v, -, rfl⟩ := List.mem_map.1 he
    rfl
  constructor
  · obtain ⟨rest, hr⟩ := h.first
    exact ⟨rest ++ fresh.map (·, depth + 1), by rw [hentries, hr, List.cons_append]⟩
  · have hvalues : (fresh.map (·, depth + 1)).map (·.1) = fresh := by simp [Function.comp_def]
    rw [hentries, List.map_append, hvalues]
    refine List.nodup_append.2 ⟨h.nodup, hd, ?_⟩
    intro v hv w hw heq
    obtain ⟨⟨v, d⟩, he, rfl⟩ := List.mem_map.1 hv
    rw [← heq] at hw
    exact ((hf v).1 hw).2.2 d he
  · intro entry he
    rw [hentries, List.mem_append] at he
    rcases he with he | he
    · exact h.steps entry he
    · obtain ⟨v, hv, rfl⟩ := List.mem_map.1 he
      obtain ⟨hlt, hr, -⟩ := (hf v).1 hv
      exact ⟨hlt, (h.steps (node, depth) (by simp)).2.more hr⟩
  · refine List.pairwise_append.2 ⟨(List.pairwise_cons.1 h.sorted).2, ?_, ?_⟩
    · refine List.pairwise_of_forall_mem_list fun x hx y hy => ?_
      rw [hnext x hx, hnext y hy]
    · intro x hx y hy
      rw [hnext y hy]
      exact hnear x (by simp [hx])
  · intro head hhead entry he
    have hlow : depth ≤ head.2 := by
      rcases List.mem_append.1 (List.mem_of_head? hhead) with hm | hm
      · exact hqueue head hm
      · rw [hnext head hm]
        exact Nat.le_succ _
    rw [hentries, List.mem_append] at he
    rcases he with he | he
    · exact (hnear entry he).trans (Nat.succ_le_succ hlow)
    · rw [hnext entry he]
      exact Nat.succ_le_succ hlow
  · intro entry he hlt v hv
    rw [hentries]
    rcases List.mem_append.1 he with he | he
    · obtain ⟨d, hle, hd⟩ := h.closed entry he hlt v hv
      exact ⟨d, hle, List.mem_append_left _ hd⟩
    · rw [List.mem_singleton.1 he] at hlt hv ⊢
      by_cases hm : v ∈ fresh
      · exact ⟨depth + 1, le_rfl, List.mem_append_right _ (List.mem_map.2 ⟨v, hm, rfl⟩)⟩
      · have hold : ∃ d, (v, d) ∈ done ++ (node, depth) :: queue := by
          by_contra hno
          exact hm ((hf v).2 ⟨hlt, hv, fun d hd => hno ⟨d, hd⟩⟩)
        obtain ⟨d, hd⟩ := hold
        exact ⟨d, hnear _ hd, List.mem_append_left _ hd⟩

/-- With an empty queue, what is reached in so many steps has an entry no deeper. -/
theorem Search.complete {done : List (α × Nat)} (h : Search R seed bound done []) {n : Nat} {v : α} (hs : Steps R n seed v)
    (hn : n ≤ bound) : ∃ d, d ≤ n ∧ (v, d) ∈ done := by
  generalize ha : seed = a at hs
  induction hs with
  | none b =>
    subst ha
    obtain ⟨rest, hr⟩ := h.first
    rw [List.append_nil] at hr
    exact ⟨0, le_rfl, by rw [hr]; exact List.mem_cons_self⟩
  | more hab hr ih =>
    obtain ⟨d, hle, hd⟩ := ih (Nat.le_of_succ_le hn) ha
    obtain ⟨e, he, hm⟩ := h.closed _ hd (by omega) _ hr
    rw [List.append_nil] at hm
    exact ⟨e, by omega, hm⟩

/-- With an empty queue, the entries are the values that are reached within the bound, each at its least number of steps. -/
theorem Search.mem_iff {done : List (α × Nat)} (h : Search R seed bound done []) {n : Nat} {v : α} :
    (v, n) ∈ done ↔ n ≤ bound ∧ LeastSteps R n seed v := by
  have hsteps := h.steps
  have hnodup := h.nodup
  rw [List.append_nil] at hsteps hnodup
  have hone : ∀ {m k : Nat}, (v, m) ∈ done → (v, k) ∈ done → m = k := by
    intro m k hm hk
    exact congrArg Prod.snd (List.inj_on_of_nodup_map hnodup hm hk rfl)
  constructor
  · intro hm
    obtain ⟨hle, hs⟩ := hsteps _ hm
    refine ⟨hle, hs, fun m hm' => ?_⟩
    rcases Nat.le_total n m with hnm | hmn
    · exact hnm
    · obtain ⟨d, hd, hmem⟩ := h.complete hm' (hmn.trans hle)
      rw [hone hm hmem]
      exact hd
  · rintro ⟨hle, hs, hleast⟩
    obtain ⟨d, hd, hmem⟩ := h.complete hs hle
    have := hleast d (hsteps _ hmem).2
    rwa [Nat.le_antisymm hd this] at hmem

/-- The entries of a search are no more than the values there may be. -/
theorem Search.length_le {done queue : List (α × Nat)} (h : Search R seed bound done queue) {all : List α} (hseed : seed ∈ all)
    (hall : ∀ a b, R a b → b ∈ all) : done.length + queue.length ≤ all.length := by
  classical
  have hsub : (done ++ queue).map (·.1) ⊆ all := by
    intro v hv
    obtain ⟨⟨v, d⟩, he, rfl⟩ := List.mem_map.1 hv
    have hs := (h.steps _ he).2
    cases hs with
    | none => exact hseed
    | more _ hr => exact hall _ _ hr
  have := (List.subperm_of_subset h.nodup hsub).length_le
  simpa using this

end Breadth
