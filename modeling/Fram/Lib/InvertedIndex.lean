import Mathlib.Data.List.AList
import Mathlib.Data.List.Basic
import Mathlib.Tactic

/-!
# Inverted indexes

An index keeps for each key the handles of the rows that have it, in order. `intersect` finds the handles that have all of some keys: it
starts at the shortest posting list and keeps what is in every other. It finds what a scan of the rows finds, in the same order
(`Posts.intersect`).
-/

/-- An index: the handles by key. -/
abbrev InvertedIndex (κ : Type) [DecidableEq κ] := AList fun _ : κ => List Nat

namespace InvertedIndex

variable {κ : Type} [DecidableEq κ] {index : InvertedIndex κ} {rows : List (List κ)} {keys wanted : List κ} {k : κ}

/-- The posting list of a key. -/
def get (index : InvertedIndex κ) (k : κ) : List Nat := (index.lookup k).getD []

/-- The index with a handle added to the posting list of each key. -/
def add (index : InvertedIndex κ) (keys : List κ) (handle : Nat) : InvertedIndex κ :=
  keys.foldl (fun index k => index.insert k (get index k ++ [handle])) index

/-- The shortest of the lists, the first of those that are equally short. -/
def shortest {α : Type} : List (List α) → List α
  | [] => []
  | first :: rest => rest.foldl (fun best candidate => if candidate.length < best.length then candidate else best) first

/-- The handles that are in every one of the lists, from the shortest on. -/
def intersect (postings : List (List Nat)) : List Nat :=
  let seed := shortest postings
  if seed.isEmpty || postings.length == 1 then seed
  else seed.filter fun handle => postings.all fun handles => decide (handle ∈ handles)

theorem get_insert (handles : List Nat) (k' : κ) : get (index.insert k handles) k' = if k' = k then handles else get index k' := by
  unfold get
  split
  · rename_i h
    rw [h, AList.lookup_insert, Option.getD_some]
  · rename_i h
    rw [AList.lookup_insert_ne h]

theorem get_add (h : keys.Nodup) (handle : Nat) (k : κ) :
    get (add index keys handle) k = if k ∈ keys then get index k ++ [handle] else get index k := by
  unfold add
  induction keys generalizing index with
  | nil => simp
  | cons key keys ih =>
    rw [List.nodup_cons] at h
    rw [List.foldl_cons, ih h.2]
    by_cases hk : k = key
    · subst hk
      rw [if_neg h.1, get_insert, if_pos rfl, if_pos List.mem_cons_self]
    · simp only [get_insert, List.mem_cons, hk, if_false, false_or]

theorem shortest_mem {α : Type} {lists : List (List α)} (h : lists ≠ []) : shortest lists ∈ lists := by
  have hgen : ∀ (rest : List (List α)) (first : List α),
      rest.foldl (fun best candidate => if candidate.length < best.length then candidate else best) first ∈ first :: rest := by
    intro rest
    induction rest with
    | nil => simp
    | cons candidate rest ih =>
      intro first
      have := ih (if candidate.length < first.length then candidate else first)
      rw [List.foldl_cons]
      rcases List.mem_cons.1 this with heq | hmem
      · rw [heq]
        split <;> simp
      · exact List.mem_cons_of_mem _ (List.mem_cons_of_mem _ hmem)
  cases lists with
  | nil => exact absurd rfl h
  | cons first rest => exact hgen rest first

/-- The index has each row under its keys. -/
def Posts (index : InvertedIndex κ) (rows : List (List κ)) : Prop :=
  ∀ k, get index k = (List.range rows.length).filter fun handle => decide (k ∈ rows[handle]?.getD [])

theorem posts_empty : Posts (∅ : InvertedIndex κ) [] := by
  intro k
  simp [get]

theorem Posts.add (h : Posts index rows) (hnodup : keys.Nodup) {row : List κ} (hkeys : ∀ k, k ∈ keys ↔ k ∈ row) :
    Posts (InvertedIndex.add index keys rows.length) (rows ++ [row]) := by
  intro k
  have hold : (List.range rows.length).filter (fun handle => decide (k ∈ (rows ++ [row])[handle]?.getD [])) = get index k := by
    rw [h k]
    refine List.filter_congr fun handle hm => ?_
    rw [List.getElem?_append_left (List.mem_range.1 hm)]
  rw [get_add hnodup, List.length_append, List.length_singleton, List.range_succ, List.filter_append, hold, List.filter_singleton]
  simp only [List.getElem?_concat_length, Option.getD_some, ← hkeys]
  split <;> simp_all

/-- **An intersection finds what a scan finds.** -/
theorem Posts.intersect (h : Posts index rows) (hw : wanted ≠ []) : InvertedIndex.intersect (wanted.map (get index)) =
      (List.range rows.length).filter fun handle => wanted.all fun k => decide (k ∈ rows[handle]?.getD []) := by
  obtain ⟨key, hkey, hseed⟩ := List.mem_map.1 (shortest_mem (by simpa using hw : wanted.map (get index) ≠ []))
  have hall : (shortest (wanted.map (get index))).filter
      (fun handle => (wanted.map (get index)).all fun handles => decide (handle ∈ handles)) =
        (List.range rows.length).filter fun handle => wanted.all fun k => decide (k ∈ rows[handle]?.getD []) := by
    rw [← hseed, h key, List.filter_filter]
    refine List.filter_congr fun handle hm => ?_
    have hmem : ∀ k, handle ∈ get index k ↔ k ∈ rows[handle]?.getD [] := fun k => by
      rw [h k, List.mem_filter, and_iff_right hm, decide_eq_true_iff]
    rw [List.all_map]
    simp only [Function.comp_def, hmem]
    exact Bool.and_eq_left_iff_imp.2 fun hw => List.all_eq_true.1 hw key hkey
  unfold InvertedIndex.intersect
  dsimp only
  split
  · rename_i hshort
    rw [← hall, List.filter_eq_self.2]
    intro handle hm
    rcases Bool.or_eq_true_iff.1 hshort with hempty | hone
    · rw [List.isEmpty_iff.1 hempty] at hm
      cases hm
    · obtain ⟨list, hlist⟩ := List.length_eq_one_iff.1 (beq_iff_eq.1 hone)
      have hfirst : shortest (wanted.map (get index)) = list := by
        rw [hlist]
        rfl
      rw [hlist, ← hfirst]
      simpa using hm
  · exact hall

end InvertedIndex
