import Mathlib.Data.List.Perm.Basic
import Mathlib.Data.List.Dedup
import Mathlib.Tactic

/-!
# Grouping a list by a key

`firsts` are the different elements of a list in the order of their first occurrences, and `groups` are its parts by key in that order,
each part in the order of the list. Another enumeration of the list permutes the groups and each of them (`groups_perm`).
-/

namespace Grouping

variable {α β κ : Type*} [DecidableEq κ]

/-- One more element, unless it is there. -/
def addFirst (seen : List κ) (k : κ) : List κ := if k ∈ seen then seen else seen ++ [k]

/-- The different elements of a list, in the order of their first occurrences. -/
def firsts (l : List κ) : List κ := l.foldl addFirst []

theorem firsts_concat (l : List κ) (k : κ) : firsts (l ++ [k]) = addFirst (firsts l) k := by
  simp [firsts, List.foldl_append]

@[simp] theorem mem_firsts {l : List κ} {k : κ} : k ∈ firsts l ↔ k ∈ l := by
  induction l using List.reverseRecOn with
  | nil => simp [firsts]
  | append_singleton l x ih =>
    rw [firsts_concat, addFirst, List.mem_append, List.mem_singleton]
    split
    · rename_i hx
      rw [ih]
      constructor
      · exact Or.inl
      · rintro (h | rfl)
        · exact h
        · exact ih.1 hx
    · rw [List.mem_append, List.mem_singleton, ih]

theorem nodup_firsts (l : List κ) : (firsts l).Nodup := by
  induction l using List.reverseRecOn with
  | nil => simp [firsts]
  | append_singleton l x ih =>
    rw [firsts_concat, addFirst]
    split
    · exact ih
    · rename_i hx
      exact List.nodup_append'.2 ⟨ih, List.nodup_singleton x, by simpa using hx⟩

/-- The different elements do not depend on the enumeration. -/
theorem firsts_perm {l l' : List κ} (h : l.Perm l') : (firsts l).Perm (firsts l') :=
  (List.perm_ext_iff_of_nodup (nodup_firsts l) (nodup_firsts l')).2 fun k => by rw [mem_firsts, mem_firsts, h.mem_iff]

/-- The parts of a list by key. -/
def groups (key : α → κ) (l : List α) : List (κ × List α) :=
  (firsts (l.map key)).map fun k => (k, l.filter fun a => decide (key a = k))

/-- One more element joins the group of its key, or makes a new one. -/
theorem groups_concat (key : α → κ) (l : List α) (a : α) : groups key (l ++ [a]) =
    if key a ∈ l.map key then (groups key l).map fun g => if g.1 = key a then (g.1, g.2 ++ [a]) else g
    else groups key l ++ [(key a, [a])] := by
  have hfilter : ∀ k, (l ++ [a]).filter (fun b => decide (key b = k)) =
      if k = key a then l.filter (fun b => decide (key b = k)) ++ [a] else l.filter fun b => decide (key b = k) := by
    intro k
    rw [List.filter_append, List.filter_singleton]
    by_cases hk : key a = k
    · simp [hk]
    · simp [hk, Ne.symm hk]
  unfold groups
  rw [List.map_append, List.map_singleton, firsts_concat, addFirst]
  simp only [mem_firsts]
  split
  · rw [List.map_map]
    refine List.map_congr_left fun k _ => ?_
    rw [hfilter]
    simp only [Function.comp]
    split <;> rfl
  · rename_i hnew
    rw [List.map_append, List.map_singleton, hfilter, if_pos rfl]
    have hnone : l.filter (fun b => decide (key b = key a)) = [] := by
      refine List.filter_eq_nil_iff.2 fun b hb => ?_
      rw [decide_eq_true_eq]
      exact fun he => hnew (he ▸ List.mem_map_of_mem hb)
    rw [hnone, List.nil_append]
    refine congrArg (· ++ _) (List.map_congr_left fun k hk => ?_)
    rw [hfilter, if_neg]
    rintro rfl
    exact hnew (mem_firsts.1 hk)

theorem mem_groups {key : α → κ} {l : List α} {g : κ × List α} (h : g ∈ groups key l) :
    g.2 = l.filter (fun a => decide (key a = g.1)) ∧ ∃ a ∈ l, key a = g.1 := by
  obtain ⟨k, hk, rfl⟩ := List.mem_map.1 h
  exact ⟨rfl, List.mem_map.1 (mem_firsts.1 hk)⟩

/-- A function of the groups that does not see the order within a group gives the same values for another enumeration. -/
theorem groups_perm {key : α → κ} {l l' : List α} (h : l'.Perm l) (f : κ × List α → β)
    (hf : ∀ g ∈ groups key l, ∀ members : List α, members.Perm g.2 → f (g.1, members) = f g) :
    ((groups key l').map f).Perm ((groups key l).map f) := by
  unfold groups at hf ⊢
  rw [List.map_map, List.map_map]
  refine ((firsts_perm (h.map key)).map _).trans (List.Perm.of_eq (List.map_congr_left fun k hk => ?_))
  exact hf (k, l.filter fun a => decide (key a = k)) (List.mem_map.2 ⟨k, hk, rfl⟩) _ (h.filter _)

end Grouping
