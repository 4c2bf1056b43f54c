import Fram.Lib.ExceptList
import Fram.Pull

/-!
# The evaluation of a pull

What the parts of an evaluation yield, and what they keep: the count is that of the expanded nodes and stays within its bound, and a node is
expanded below the depth bound at the flat lists that stand there only.
-/

namespace Fram

namespace Pull

open Fueled
open ExceptList (bind_eq_ok_iff)

variable {r : Reader} {fuel depth : Nat} {s s' : Evaluation} {expand : Expand} {target left right : Term} {pattern : List Element}
  {visited : List Term} {entry : String × Subpattern} {entries entries' : List (String × Pulled)} {a : Pulled}
variable {element : Element} {subjects : List Term} {items : List Pulled} {k : Nat} {key : String} {steps : List Step} {b : Pulled}
  {after after' : List (String × Pulled)} {root : Root}

/-- A node was expanded. -/
def Step.isExpanded : Step → Bool
  | .expanded _ => true
  | .listed _ _ _ _ => false

/-- A flat list at the depth bound finds subjects that are being expanded only, or comes when no nodes are left. -/
def Step.Meets (maxDepth maxNodes : Nat) : Step → Prop
  | .expanded _ => True
  | .listed depth subjects visited count =>
    depth = maxDepth → maxNodes ≤ count ∨ ∀ subject ∈ subjects, visited.any (subject.eqv ·) = true

/-! ## What the parts yield -/

/-- A node is a cycle, cut off by the node bound, or expanded by its elements. -/
theorem yields_node {subject name : Term} {requested : List Element} :
    Yields (node r (fuel + 1) subject name requested depth visited) s a s' ↔
      (visited.any (subject.eqv ·) = true ∧ a = .cycle name ∧ s' = s) ∨
      (visited.any (subject.eqv ·) = false ∧ r.maxNodes ≤ s.count ∧ a = .truncated name ∧ s' = s) ∨
      (visited.any (subject.eqv ·) = false ∧ s.count < r.maxNodes ∧ ∃ entries,
        Yields (requested.foldlM (elem r (node r fuel) subject depth (subject :: visited)) [])
          ⟨s.count + 1, s.steps ++ [.expanded depth]⟩ entries s' ∧ a = .node name entries) := by
  rw [node]
  cases hv : visited.any (subject.eqv ·) with
  | true =>
    simp only [if_true, yields_pure, true_and, reduceCtorEq, false_and, or_false]
    constructor
    · rintro ⟨rfl, rfl⟩
      exact ⟨rfl, rfl⟩
    · rintro ⟨rfl, rfl⟩
      exact ⟨rfl, rfl⟩
  | false =>
    simp only [Bool.false_eq_true, if_false, yields_bind, yields_get, false_and, false_or, true_and]
    constructor
    · rintro ⟨t, _, ⟨rfl, rfl⟩, h⟩
      rcases yields_ite.1 h with ⟨hn, h⟩ | ⟨hn, h⟩
      · obtain ⟨rfl, rfl⟩ := yields_pure.1 h
        exact .inl ⟨hn, rfl, rfl⟩
      · simp only [yields_bind, yields_modify, yields_pure] at h
        obtain ⟨_, _, rfl, entries, _, he, rfl, rfl⟩ := h
        exact .inr ⟨Nat.lt_of_not_le hn, entries, he, rfl⟩
    · rintro (⟨hn, rfl, rfl⟩ | ⟨hn, entries, he, rfl⟩)
      · exact ⟨_, _, ⟨rfl, rfl⟩, yields_ite.2 (.inl ⟨hn, yields_pure.2 ⟨rfl, rfl⟩⟩)⟩
      · refine ⟨_, _, ⟨rfl, rfl⟩, yields_ite.2 (.inr ⟨Nat.not_le_of_lt hn, ?_⟩)⟩
        simp only [yields_bind, yields_modify, yields_pure]
        exact ⟨(), _, rfl, entries, _, he, rfl, rfl⟩

theorem not_yields_spent {α : Type} {a : α} : ¬Yields (spent : PullM α) s a s' := by
  intro h
  cases h

/-- A part of an evaluation that reads is one that leaves it as it is. -/
theorem yields_recurTarget : Yields (recurTarget r expand target pattern depth visited) s a s' ↔ ∃ name, r.nmOf target = .ok name ∧
      ((r.maxDepth < depth + 1 ∧ a = .truncated name ∧ s' = s) ∨
        (depth + 1 ≤ r.maxDepth ∧ Yields (expand target name pattern (depth + 1) visited) s a s')) := by
  simp only [recurTarget, yields_bind, yields_lift]
  constructor
  · rintro ⟨name, _, ⟨hname, rfl⟩, h⟩
    rcases yields_ite.1 h with ⟨hd, h⟩ | ⟨hd, h⟩
    · obtain ⟨rfl, rfl⟩ := yields_pure.1 h
      exact ⟨name, hname, .inl ⟨hd, rfl, rfl⟩⟩
    · exact ⟨name, hname, .inr ⟨Nat.le_of_not_lt hd, h⟩⟩
  · rintro ⟨name, hname, ⟨hd, rfl, rfl⟩ | ⟨hd, h⟩⟩
    · exact ⟨name, _, ⟨hname, rfl⟩, yields_ite.2 (.inl ⟨hd, yields_pure.2 ⟨rfl, rfl⟩⟩)⟩
    · exact ⟨name, _, ⟨hname, rfl⟩, yields_ite.2 (.inr ⟨Nat.not_lt_of_le hd, h⟩)⟩

theorem yields_nested : Yields (nested r expand pattern depth visited right) s a s' ↔
      (r.nameOf right = .ok none ∧ a = .value right ∧ s' = s) ∨
      ∃ name, r.nameOf right = .ok (some name) ∧ Yields (recurTarget r expand right pattern depth visited) s a s' := by
  simp only [nested, yields_bind, yields_lift]
  constructor
  · rintro ⟨name, _, ⟨hname, rfl⟩, h⟩
    cases name with
    | none =>
      obtain ⟨rfl, rfl⟩ := yields_pure.1 h
      exact .inl ⟨hname, rfl, rfl⟩
    | some name => exact .inr ⟨name, hname, h⟩
  · rintro (⟨hname, rfl, rfl⟩ | ⟨name, hname, h⟩)
    · exact ⟨_, _, ⟨hname, rfl⟩, yields_pure.2 ⟨rfl, rfl⟩⟩
    · exact ⟨_, _, ⟨hname, rfl⟩, h⟩

/-- The predicate that a key of a pattern names, a reverse one after its mark. -/
def predicateOf (r : Reader) (key : String) : Except Fault (Option Term) :=
  if key.toList.head? = some '_' then r.pidOf (String.ofList key.toList.tail) else r.pidOf key

/-- What one name of a map element does: nothing, when it names no predicate, or it expands the subjects or the values, in order. -/
inductive MapEntry (r : Reader) (expand : Expand) (left : Term) (depth : Nat) (visited : List Term) (entries : List (String × Pulled))
    (entry : String × Subpattern) (s : Evaluation) : List (String × Pulled) → Evaluation → Prop where
  | unnamed (hpid : predicateOf r entry.1 = .ok none) : MapEntry r expand left depth visited entries entry s entries s
  | reverse {predicate : Term} {items : List Pulled} {s' : Evaluation} (hkey : entry.1.toList.head? = some '_')
      (hpid : predicateOf r entry.1 = .ok (some predicate))
      (h : Yields (((r.revEvents predicate left).map (·.proposition.t1)).mapM fun subject =>
        recurTarget r expand subject (subpatPattern entry.1 entry.2) depth visited) s items s') :
      MapEntry r expand left depth visited entries entry s (assoc entries entry.1 (.many items)) s'
  | forward {predicate : Term} {rendered : List Pulled} {entries' : List (String × Pulled)} {s' : Evaluation}
      (hkey : entry.1.toList.head? ≠ some '_') (hpid : predicateOf r entry.1 = .ok (some predicate))
      (h : Yields (((r.fwdEvents left predicate).map (·.proposition.t3)).mapM
        (nested r expand (subpatPattern entry.1 entry.2) depth visited)) s rendered s')
      (hr : withRendered r entry.1 entries rendered = .ok entries') : MapEntry r expand left depth visited entries entry s entries' s'

/-- A name of a map element does what `MapEntry` says. -/
theorem mapEntry_cases (h : Yields (mapEntry r expand left depth visited entries entry) s entries' s') :
    MapEntry r expand left depth visited entries entry s entries' s' := by
  rw [mapEntry] at h
  rcases yields_ite.1 h with ⟨hkey, hif⟩ | ⟨hkey, hif⟩
  · simp only [yields_bind, yields_lift] at hif
    obtain ⟨pid, _, ⟨hpid, rfl⟩, hmatch⟩ := hif
    have hof : predicateOf r entry.1 = .ok pid := by rw [predicateOf, if_pos hkey, hpid]
    cases pid with
    | none =>
      obtain ⟨rfl, rfl⟩ := yields_pure.1 hmatch
      exact .unnamed hof
    | some predicate =>
      simp only [yields_bind, yields_pure] at hmatch
      obtain ⟨items, _, hitems, rfl, rfl⟩ := hmatch
      exact .reverse hkey hof hitems
  · simp only [yields_bind, yields_lift] at hif
    obtain ⟨pid, _, ⟨hpid, rfl⟩, hmatch⟩ := hif
    have hof : predicateOf r entry.1 = .ok pid := by rw [predicateOf, if_neg hkey, hpid]
    cases pid with
    | none =>
      obtain ⟨rfl, rfl⟩ := yields_pure.1 hmatch
      exact .unnamed hof
    | some predicate =>
      simp only [yields_bind, yields_lift] at hmatch
      obtain ⟨rendered, _, hrendered, hr, rfl⟩ := hmatch
      exact .forward hkey hof hrendered hr

/-- What an element does: it adds values, or the flat list of the subjects that refer to this one, or what its names add one after
another. -/
inductive ElementStep (r : Reader) (expand : Expand) (left : Term) (depth : Nat) (visited : List Term) (entries : List (String × Pulled))
    (s : Evaluation) : Element → List (String × Pulled) → Evaluation → Prop where
  | star {entries' : List (String × Pulled)}
      (h : (Schema.distinct ((r.subjectEvents left).map (·.proposition.t2))).foldlM (starEntry r left) entries = .ok entries') :
      ElementStep r expand left depth visited entries s .star entries' s
  | unnamed {name : String} (hpid : predicateOf r name = .ok none) : ElementStep r expand left depth visited entries s (.attr name) entries s
  | reverse {name : String} {predicate : Term} {items : List Pulled} {s' : Evaluation} (hkey : name.toList.head? = some '_')
      (hpid : predicateOf r name = .ok (some predicate))
      (h : Yields (((r.revEvents predicate left).map (·.proposition.t1)).mapM fun subject => do
        let label ← read (r.nmOf subject)
        expand subject label [] (depth + 1) visited)
        ⟨s.count, s.steps ++ [.listed depth ((r.revEvents predicate left).map (·.proposition.t1)) visited s.count]⟩ items s') :
      ElementStep r expand left depth visited entries s (.attr name) (assoc entries name (.many items)) s'
  | forward {name : String} {predicate : Term} {value : Option Pulled} (hkey : name.toList.head? ≠ some '_')
      (hpid : predicateOf r name = .ok (some predicate)) (h : values r name predicate left = .ok value) :
      ElementStep r expand left depth visited entries s (.attr name) (assocSome entries name value) s
  | map {fields : List (String × Subpattern)} {entries' : List (String × Pulled)} {s' : Evaluation}
      (h : Yields (fields.foldlM (mapEntry r expand left depth visited) entries) s entries' s') :
      ElementStep r expand left depth visited entries s (.map fields) entries' s'

/-- An element does what `ElementStep` says. -/
theorem elem_cases (h : Yields (elem r expand left depth visited entries element) s entries' s') :
    ElementStep r expand left depth visited entries s element entries' s' := by
  cases element with
  | star =>
    rw [elem] at h
    obtain ⟨hstar, rfl⟩ := yields_lift.1 h
    exact .star hstar
  | map fields =>
    rw [elem] at h
    exact .map h
  | attr name =>
    rw [elem] at h
    rcases yields_ite.1 h with ⟨hkey, hif⟩ | ⟨hkey, hif⟩
    · simp only [yields_bind, yields_lift] at hif
      obtain ⟨pid, _, ⟨hpid, rfl⟩, hmatch⟩ := hif
      have hof : predicateOf r name = .ok pid := by rw [predicateOf, if_pos hkey, hpid]
      cases pid with
      | none =>
        obtain ⟨rfl, rfl⟩ := yields_pure.1 hmatch
        exact .unnamed hof
      | some predicate =>
        simp only [yields_bind, yields_pure, flatReverse, yields_modify] at hmatch
        obtain ⟨_, _, ⟨_, _, rfl, items, _, hitems, rfl, rfl⟩, rfl, rfl⟩ := hmatch
        exact .reverse hkey hof hitems
    · simp only [yields_bind, yields_lift] at hif
      obtain ⟨pid, _, ⟨hpid, rfl⟩, hmatch⟩ := hif
      have hof : predicateOf r name = .ok pid := by rw [predicateOf, if_neg hkey, hpid]
      cases pid with
      | none =>
        obtain ⟨rfl, rfl⟩ := yields_pure.1 hmatch
        exact .unnamed hof
      | some predicate =>
        simp only [yields_bind, yields_lift, yields_pure] at hmatch
        obtain ⟨value, _, ⟨hvalue, rfl⟩, rfl, rfl⟩ := hmatch
        exact .forward hkey hof hvalue

/-! ## The bounds -/

/-- What an evaluation keeps: the count is that of the expanded nodes and within its bound, no node is expanded more than one level below the
depth bound, and none is when every flat list met its condition. -/
structure Bounded (r : Reader) (s : Evaluation) : Prop where
  counted : s.count = s.steps.countP (·.isExpanded)
  within : s.count ≤ r.maxNodes
  near : ∀ depth, .expanded depth ∈ s.steps → depth ≤ r.maxDepth + 1
  shallow : (∀ depth, .expanded depth ∈ s.steps → depth ≤ r.maxDepth) ↔ ∀ step ∈ s.steps, step.Meets r.maxDepth r.maxNodes

/-- The evaluation before anything is done. -/
theorem bounded_nil : Bounded r ⟨0, []⟩ := by
  refine ⟨rfl, Nat.zero_le _, ?_, ?_⟩ <;> simp

/-- A node that is expanded at a depth within the bound. -/
theorem Bounded.expanded (h : Bounded r s) (hn : s.count < r.maxNodes) (hd : depth ≤ r.maxDepth) :
    Bounded r ⟨s.count + 1, s.steps ++ [.expanded depth]⟩ := by
  refine ⟨?_, hn, ?_, ?_⟩
  · simp only [List.countP_append, ← h.counted]
    rfl
  · intro depth' hm
    rcases List.mem_append.1 hm with hm | hm
    · exact h.near depth' hm
    · obtain rfl : depth' = depth := by simpa using hm
      exact Nat.le_succ_of_le hd
  · constructor
    · intro hall step hm
      rcases List.mem_append.1 hm with hm | hm
      · exact h.shallow.1 (fun depth' hm' => hall depth' (List.mem_append_left _ hm')) step hm
      · obtain rfl : step = .expanded depth := by simpa using hm
        trivial
    · intro hall depth' hm
      rcases List.mem_append.1 hm with hm | hm
      · exact h.shallow.2 (fun step hm' => hall step (List.mem_append_left _ hm')) depth' hm
      · obtain rfl : depth' = depth := by simpa using hm
        exact hd

/-- A flat list whose subjects are expanded within the bound. -/
theorem Bounded.listed (h : Bounded r s) (hm : (Step.listed depth subjects visited s.count).Meets r.maxDepth r.maxNodes) :
    Bounded r ⟨s.count, s.steps ++ [.listed depth subjects visited s.count]⟩ := by
  have hnone : ∀ depth', Step.expanded depth' ∉ [Step.listed depth subjects visited s.count] := by simp
  refine ⟨?_, h.within, ?_, ?_⟩
  · simp only [List.countP_append, ← h.counted]
    rfl
  · intro depth' hmem
    exact h.near depth' ((List.mem_append.1 hmem).resolve_right (hnone depth'))
  · constructor
    · intro hall step hmem
      rcases List.mem_append.1 hmem with hmem | hmem
      · exact h.shallow.1 (fun depth' hm' => hall depth' (List.mem_append_left _ hm')) step hmem
      · rw [List.mem_singleton.1 hmem]
        exact hm
    · intro hall depth' hmem
      have hold := (List.mem_append.1 hmem).resolve_right (hnone depth')
      exact h.shallow.2 (fun step hm' => hall step (List.mem_append_left _ hm')) depth' hold

/-- A node that asks for nothing. -/
theorem yields_node_nil {subject name : Term} (h : Yields (node r fuel subject name [] depth visited) s a s') :
    (s' = s ∧ (visited.any (subject.eqv ·) = true ∨ r.maxNodes ≤ s.count)) ∨
      (s' = ⟨s.count + 1, s.steps ++ [.expanded depth]⟩ ∧ visited.any (subject.eqv ·) = false ∧ s.count < r.maxNodes) := by
  cases fuel with
  | zero => exact absurd h not_yields_spent
  | succ fuel =>
    rcases yields_node.1 h with ⟨hv, -, rfl⟩ | ⟨-, hn, -, rfl⟩ | ⟨hv, hn, entries, he, -⟩
    · exact .inl ⟨rfl, .inl hv⟩
    · exact .inl ⟨rfl, .inr hn⟩
    · obtain ⟨rfl, rfl⟩ := yields_foldlM_nil.1 he
      exact .inr ⟨rfl, hv, hn⟩

/-- The subjects of a flat list: so many of them are expanded, and none exactly when no nodes are left or all are being expanded. -/
theorem yields_subjects (h : Yields (subjects.mapM fun subject => do
      let label ← read (r.nmOf subject)
      node r fuel subject label [] depth visited) s items s') :
    ∃ k, s'.count = s.count + k ∧ s'.steps = s.steps ++ List.replicate k (.expanded depth) ∧ (s.count ≤ r.maxNodes → s'.count ≤ r.maxNodes) ∧
      (k = 0 ↔ r.maxNodes ≤ s.count ∨ ∀ subject ∈ subjects, visited.any (subject.eqv ·) = true) := by
  induction subjects generalizing s items with
  | nil =>
    obtain ⟨-, rfl⟩ := yields_mapM_nil.1 h
    exact ⟨0, rfl, by simp, id, by simp⟩
  | cons subject subjects ih =>
    obtain ⟨item, s₁, rest, hitem, hrest, -⟩ := yields_mapM_cons.1 h
    simp only [yields_bind, yields_lift] at hitem
    obtain ⟨label, _, ⟨-, rfl⟩, hnode⟩ := hitem
    obtain ⟨k, hcount, hsteps, hle, hk⟩ := ih hrest
    rcases yields_node_nil hnode with ⟨rfl, hcut⟩ | ⟨rfl, hv, hn⟩
    · refine ⟨k, hcount, hsteps, hle, hk.trans ?_⟩
      rcases hcut with hv | hn
      · simp only [List.forall_mem_cons, hv, true_and]
      · simp only [hn, true_or]
    · refine ⟨k + 1, by rw [hcount]; exact Nat.add_right_comm _ _ _, ?_, fun _ => hle hn, ?_⟩
      · rw [hsteps, List.append_assoc, List.replicate_succ, List.singleton_append]
      · simp only [Nat.succ_ne_zero, List.forall_mem_cons, hv, Bool.false_eq_true, false_and, or_false, false_iff, Nat.not_le]
        exact hn

/-- What a flat list of subjects at the depth bound does. -/
theorem Bounded.listed_deep (h : Bounded r s) {s₁ : Evaluation}
    (hs₁ : s₁ = ⟨s.count, s.steps ++ [.listed r.maxDepth subjects visited s.count]⟩) (hcount : s'.count = s₁.count + k)
    (hsteps : s'.steps = s₁.steps ++ List.replicate k (.expanded (r.maxDepth + 1))) (hle : s₁.count ≤ r.maxNodes → s'.count ≤ r.maxNodes)
    (hk : k = 0 ↔ r.maxNodes ≤ s₁.count ∨ ∀ subject ∈ subjects, visited.any (subject.eqv ·) = true) : Bounded r s' := by
  subst hs₁
  simp only at hcount hsteps hle hk
  have hmeets : (Step.listed r.maxDepth subjects visited s.count).Meets r.maxDepth r.maxNodes ↔ k = 0 := by
    simp only [Step.Meets, hk, forall_const]
  rcases Nat.eq_zero_or_pos k with hzero | hpos
  · obtain rfl := hzero
    have hs' : s' = ⟨s.count, s.steps ++ [.listed r.maxDepth subjects visited s.count]⟩ := by
      cases s'
      simp only [List.replicate_zero, List.append_nil] at hsteps
      simp only [Nat.add_zero] at hcount
      rw [hcount, hsteps]
    rw [hs']
    exact h.listed (hmeets.2 rfl)
  · have hdeep : Step.expanded (r.maxDepth + 1) ∈ s'.steps := by
      rw [hsteps]
      exact List.mem_append_right _ (List.mem_replicate.2 ⟨Nat.ne_of_gt hpos, rfl⟩)
    have hunmet : Step.listed r.maxDepth subjects visited s.count ∈ s'.steps := by
      rw [hsteps]
      exact List.mem_append_left _ (List.mem_append_right _ List.mem_cons_self)
    refine ⟨?_, hle h.within, ?_, ?_⟩
    · rw [hcount, hsteps, List.countP_append, List.countP_append, ← h.counted, List.countP_replicate]
      rfl
    · intro depth hm
      rw [hsteps] at hm
      rcases List.mem_append.1 hm with hm | hm
      · exact h.near depth ((List.mem_append.1 hm).resolve_right (by simp))
      · have := List.eq_of_mem_replicate hm
        simp only [Step.expanded.injEq] at this
        exact Nat.le_of_eq this
    · constructor
      · intro hall
        exact absurd (hall _ hdeep) (Nat.not_succ_le_self _)
      · intro hall
        exact absurd (hmeets.1 (hall _ hunmet)) (Nat.ne_of_gt hpos)

/-- Expanding a subject keeps what holds, at the depths and with the patterns that qualify. -/
def Keeps (asks : Nat → List Element → Prop) (kept : Evaluation → Prop) (expand : Expand) : Prop :=
  ∀ subject name pattern depth visited s a s', asks depth pattern → kept s →
    Yields (expand subject name pattern depth visited) s a s' → kept s'

/-- What evaluations keep: it holds after a node is counted, patterns that qualify have below them patterns that do, and it holds after a
flat list if expanding its subjects keeps it. -/
structure Invariant (r : Reader) (asks : Nat → List Element → Prop) (kept : Evaluation → Prop) : Prop where
  expanded : ∀ {depth pattern s}, asks depth pattern → kept s → s.count < r.maxNodes → kept ⟨s.count + 1, s.steps ++ [.expanded depth]⟩
  deeper : ∀ {depth pattern fields entry}, asks depth pattern → .map fields ∈ pattern → entry ∈ fields → depth + 1 ≤ r.maxDepth →
    asks (depth + 1) (subpatPattern entry.1 entry.2)
  listed : ∀ {fuel depth pattern name subjects visited s items s'}, asks depth pattern → .attr name ∈ pattern →
    name.toList.head? = some '_' → Keeps asks kept (node r fuel) → kept s →
    Yields (subjects.mapM fun subject => do
      let label ← read (r.nmOf subject)
      node r fuel subject label [] (depth + 1) visited) ⟨s.count, s.steps ++ [.listed depth subjects visited s.count]⟩ items s' → kept s'

section Keeps

variable {asks : Nat → List Element → Prop} {kept : Evaluation → Prop}

theorem recurTarget_keeps (hexpand : Keeps asks kept expand) (hp : depth + 1 ≤ r.maxDepth → asks (depth + 1) pattern) (hs : kept s)
    (h : Yields (recurTarget r expand target pattern depth visited) s a s') : kept s' := by
  obtain ⟨name, -, ⟨-, -, rfl⟩ | ⟨hd, h⟩⟩ := yields_recurTarget.1 h
  · exact hs
  · exact hexpand _ _ _ _ _ _ _ _ (hp hd) hs h

theorem nested_keeps (hexpand : Keeps asks kept expand) (hp : depth + 1 ≤ r.maxDepth → asks (depth + 1) pattern) (hs : kept s)
    (h : Yields (nested r expand pattern depth visited right) s a s') : kept s' := by
  rcases yields_nested.1 h with ⟨-, -, rfl⟩ | ⟨name, -, h⟩
  · exact hs
  · exact recurTarget_keeps hexpand hp hs h

theorem mapEntry_keeps (hexpand : Keeps asks kept expand)
    (hp : depth + 1 ≤ r.maxDepth → asks (depth + 1) (subpatPattern entry.1 entry.2)) (hs : kept s)
    (h : Yields (mapEntry r expand left depth visited entries entry) s entries' s') : kept s' := by
  cases mapEntry_cases h with
  | unnamed hpid => exact hs
  | reverse hkey hpid hitems =>
    exact mapM_induct (P := fun _ s => kept s) (fun _ _ _ _ _ _ hb hy => recurTarget_keeps hexpand hp hb hy) hitems hs
  | forward hkey hpid hitems hr =>
    exact mapM_induct (P := fun _ s => kept s) (fun _ _ _ _ _ _ hb hy => nested_keeps hexpand hp hb hy) hitems hs

theorem elem_keeps (hi : Invariant r asks kept) (hnode : Keeps asks kept (node r fuel)) (hp : asks depth pattern)
    (hm : element ∈ pattern) (hs : kept s) (h : Yields (elem r (node r fuel) left depth visited entries element) s entries' s') :
    kept s' := by
  cases elem_cases h with
  | star hstar => exact hs
  | unnamed hpid => exact hs
  | forward hkey hpid hv => exact hs
  | map hfields =>
    exact foldlM_induct (P := fun _ s => kept s) (fun _ he _ _ _ _ hb hy => mapEntry_keeps hnode (hi.deeper hp hm he) hb hy) hfields hs
  | reverse hkey hpid hitems => exact hi.listed hp hm hkey hnode hs hitems

/-- An invariant is kept by the nodes. -/
theorem node_keeps (hi : Invariant r asks kept) (fuel : Nat) : Keeps asks kept (node r fuel) := by
  induction fuel with
  | zero =>
    intro subject name pattern depth visited s a s' hp hs h
    exact absurd h not_yields_spent
  | succ fuel ih =>
    intro subject name pattern depth visited s a s' hp hs h
    rcases yields_node.1 h with ⟨-, -, rfl⟩ | ⟨-, -, -, rfl⟩ | ⟨-, hn, entries, he, -⟩
    · exact hs
    · exact hs
    · exact foldlM_induct (P := fun _ s => kept s) (fun _ hm _ _ _ _ hb hy => elem_keeps hi ih hp hm hb hy) he (hi.expanded hp hs hn)

end Keeps

/-- The bounds are kept at the depths within the depth bound. -/
theorem invariant_bounded (r : Reader) : Invariant r (fun depth _ => depth ≤ r.maxDepth) (Bounded r) where
  expanded hd hs hn := hs.expanded hn hd
  deeper _ _ _ hd := hd
  listed {fuel depth _ _ subjects visited s _ _} hd _ _ hnode hs hitems := by
    rcases Nat.lt_or_eq_of_le hd with hlt | rfl
    · have hmeets : (Step.listed depth subjects visited s.count).Meets r.maxDepth r.maxNodes := fun heq => absurd heq (Nat.ne_of_lt hlt)
      refine mapM_induct (P := fun _ s => Bounded r s) (fun _ _ _ _ _ _ hb hy => ?_) hitems (hs.listed hmeets)
      simp only [yields_bind, yields_lift] at hy
      obtain ⟨label, _, ⟨-, rfl⟩, hy⟩ := hy
      exact hnode _ _ _ _ _ _ _ _ hlt hb hy
    · obtain ⟨k, hcount, hsteps, hle, hk⟩ := yields_subjects hitems
      exact hs.listed_deep rfl hcount hsteps hle hk

/-! ## Where a pattern asks for flat lists -/

/-- A pattern asks, so many levels down, for the flat list of the subjects that refer to a node. -/
inductive FlatReverseAt : Nat → List Element → Prop where
  | here {name : String} {pattern : List Element} (hm : .attr name ∈ pattern) (hkey : name.toList.head? = some '_') : FlatReverseAt 0 pattern
  | deeper {level : Nat} {fields : List (String × Subpattern)} {entry : String × Subpattern} {pattern : List Element}
      (hm : .map fields ∈ pattern) (he : entry ∈ fields) (h : FlatReverseAt level (subpatPattern entry.1 entry.2)) :
      FlatReverseAt (level + 1) pattern

theorem not_flatReverseAt_nil {level : Nat} : ¬FlatReverseAt level [] := by
  intro h
  cases h with
  | here hm _ => cases hm
  | deeper hm _ _ => cases hm

/-- An evaluation came to no flat list at a depth. -/
def ListsNoneAt (maxDepth : Nat) (s : Evaluation) : Prop :=
  ∀ depth subjects visited count, .listed depth subjects visited count ∈ s.steps → depth ≠ maxDepth

theorem ListsNoneAt.meets {maxDepth maxNodes : Nat} (h : ListsNoneAt maxDepth s) : ∀ step ∈ s.steps, step.Meets maxDepth maxNodes := by
  intro step hm
  cases step with
  | expanded depth => trivial
  | listed depth subjects visited count => exact fun heq => absurd heq (h depth subjects visited count hm)

theorem ListsNoneAt.expanded {maxDepth : Nat} (h : ListsNoneAt maxDepth s) :
    ListsNoneAt maxDepth ⟨s.count + 1, s.steps ++ [.expanded depth]⟩ := by
  intro depth' subjects visited count hm
  exact h depth' subjects visited count ((List.mem_append.1 hm).resolve_right (by simp))

theorem ListsNoneAt.listed {maxDepth : Nat} (h : ListsNoneAt maxDepth s) (hne : depth ≠ maxDepth) (subjects visited : List Term)
    (count : Nat) : ListsNoneAt maxDepth ⟨s.count, s.steps ++ [.listed depth subjects visited count]⟩ := by
  intro depth' subjects' visited' count' hm
  rcases List.mem_append.1 hm with hm | hm
  · exact h depth' subjects' visited' count' hm
  · obtain ⟨rfl, -⟩ : depth' = depth ∧ _ := by simpa using hm
    exact hne

/-- No flat list at a depth is kept with the patterns that ask for none there. -/
theorem invariant_listsNoneAt (r : Reader) (maxDepth : Nat) :
    Invariant r (fun depth pattern => ∀ level, FlatReverseAt level pattern → depth + level ≠ maxDepth) (ListsNoneAt maxDepth) where
  expanded _ hs _ := hs.expanded
  deeper hp hm he _ level hlevel := by
    have hne := hp (level + 1) (.deeper hm he hlevel)
    omega
  listed {fuel depth _ _ subjects visited s _ _} hp hm hkey hnode hs hitems := by
    refine mapM_induct (P := fun _ s => ListsNoneAt maxDepth s) (fun _ _ _ _ _ _ hb hy => ?_) hitems
      (hs.listed (hp 0 (.here hm hkey)) subjects visited s.count)
    simp only [yields_bind, yields_lift] at hy
    obtain ⟨label, _, ⟨-, rfl⟩, hy⟩ := hy
    exact hnode _ _ _ _ _ _ _ _ (fun level hlevel => absurd hlevel not_flatReverseAt_nil) hb hy

/-! ## What a result shows -/

/-- There is an expanded node so many levels below a part of a result. -/
inductive Pulled.StandsAt : Nat → Pulled → Prop where
  | here (name : Term) (entries : List (String × Pulled)) : StandsAt 0 (.node name entries)
  | item {k : Nat} {item : Pulled} {items : List Pulled} (hm : item ∈ items) (h : StandsAt k item) : StandsAt k (.many items)
  | entry {k : Nat} {name : Term} {entry : String × Pulled} {entries : List (String × Pulled)} (hm : entry ∈ entries)
      (h : StandsAt k entry.2) : StandsAt (k + 1) (.node name entries)

/-- A bound cut off a part of a result, and it says so. -/
inductive Pulled.Cut : Pulled → Prop where
  | here (name : Term) : Cut (.truncated name)
  | item {item : Pulled} {items : List Pulled} (hm : item ∈ items) (h : Cut item) : Cut (.many items)
  | entry {name : Term} {entry : String × Pulled} {entries : List (String × Pulled)} (hm : entry ∈ entries) (h : Cut entry.2) :
      Cut (.node name entries)

theorem standsAt_many : (Pulled.many items).StandsAt k ↔ ∃ item ∈ items, item.StandsAt k := by
  constructor
  · intro h
    cases h with
    | item hm h => exact ⟨_, hm, h⟩
  · rintro ⟨item, hm, h⟩
    exact .item hm h

/-- An entry of an association is one of before, or the new one. -/
theorem mem_assoc {value : Pulled} {entry : String × Pulled}
    (h : entry ∈ assoc entries key value) : entry ∈ entries ∨ entry = (key, value) := by
  rw [assoc] at h
  split at h
  · obtain ⟨old, hold, rfl⟩ := List.mem_map.1 h
    split
    · exact .inr rfl
    · exact .inl hold
  · rcases List.mem_append.1 h with h | h
    · exact .inl h
    · exact .inr (List.mem_singleton.1 h)

/-- A value of a predicate, as it is or with where it comes from. -/
def Pulled.IsLeaf (a : Pulled) : Prop := (∃ term, a = .value term) ∨ ∃ value, a = .sourced value

theorem isLeaf_leaf {predicate : Term} {event : OperationOccurrence} (h : leaf r predicate event = .ok a) : a.IsLeaf := by
  rw [leaf] at h
  obtain ⟨kind, -, h⟩ := bind_eq_ok_iff.1 h
  dsimp only at h
  split at h <;> obtain ⟨value, -, h⟩ := bind_eq_ok_iff.1 h
  · split at h
    · cases h
      exact .inr ⟨_, rfl⟩
    · cases h
      exact .inl ⟨_, rfl⟩
  · split at h
    · cases h
      exact .inr ⟨_, rfl⟩
    · cases h
      exact .inl ⟨_, rfl⟩

/-- What the values of a predicate give has no nodes, and no bound cut it. -/
theorem values_plain {pname : String} {predicate : Term} {value : Pulled} (h : values r pname predicate left = .ok (some value)) :
    (∀ k, ¬value.StandsAt k) ∧ ¬value.Cut := by
  have hleaf : ∀ a : Pulled, a.IsLeaf → (∀ k, ¬a.StandsAt k) ∧ ¬a.Cut := by
    rintro a (⟨term, rfl⟩ | ⟨value, rfl⟩) <;> exact ⟨fun k h => (nomatch h), fun h => (nomatch h)⟩
  rw [values] at h
  obtain ⟨rendered, hrendered, h⟩ := bind_eq_ok_iff.1 h
  have hall : ∀ a ∈ rendered, a.IsLeaf := by
    intro a ha
    obtain ⟨event, -, hevent⟩ := ExceptList.exists_of_mem_mapM hrendered ha
    exact isLeaf_leaf hevent
  split at h
  · cases h
  · obtain ⟨card, -, h⟩ := bind_eq_ok_iff.1 h
    split at h
    · have hlast : rendered.getLast? = some value := Except.ok.inj h
      exact hleaf value (hall value (List.mem_of_getLast? hlast))
    · cases h
      refine ⟨fun k h => ?_, fun h => ?_⟩
      · obtain ⟨item, hm, h⟩ := standsAt_many.1 h
        exact (hleaf item (hall item hm)).1 k h
      · cases h with
        | item hm h => exact (hleaf _ (hall _ hm)).2 h

/-- What the values of a map element add to the entries shows one of them. -/
theorem mem_withRendered {rendered : List Pulled}
    (h : withRendered r key entries rendered = .ok entries') {entry : String × Pulled} (hm : entry ∈ entries') :
    entry ∈ entries ∨ entry.2 ∈ rendered ∨ entry.2 = .many rendered := by
  cases rendered with
  | nil =>
    cases h
    exact .inl hm
  | cons first rest =>
    rw [withRendered] at h
    obtain ⟨card, -, h⟩ := bind_eq_ok_iff.1 h
    cases h
    rcases mem_assoc hm with hm | rfl
    · exact .inl hm
    · split
      · exact .inr (.inl List.mem_cons_self)
      · exact .inr (.inr rfl)

/-- What an expansion shows was expanded, at its depth. -/
def Tells (expand : Expand) : Prop :=
  ∀ subject name pattern depth visited s a s', Yields (expand subject name pattern depth visited) s a s' →
    s.steps ⊆ s'.steps ∧ ∀ k, a.StandsAt k → .expanded (depth + k) ∈ s'.steps

/-- Some parts of a result show expanded nodes, after the steps of before. -/
def Told (steps : List Step) (depth : Nat) (parts : List Pulled) (s : Evaluation) : Prop :=
  steps ⊆ s.steps ∧ ∀ part ∈ parts, ∀ k, part.StandsAt k → .expanded (depth + k) ∈ s.steps

theorem told_nil (depth : Nat) (s : Evaluation) : Told s.steps depth [] s := ⟨List.Subset.refl _, fun _ hm => (nomatch hm)⟩

theorem Told.append {parts : List Pulled} {part : Pulled} (h : Told steps depth parts s)
    (hs : s.steps ⊆ s'.steps) (hpart : ∀ k, part.StandsAt k → .expanded (depth + k) ∈ s'.steps) : Told steps depth (parts ++ [part]) s' := by
  refine ⟨fun step hm => hs (h.1 hm), fun a ha k hk => ?_⟩
  rcases List.mem_append.1 ha with ha | ha
  · exact hs (h.2 a ha k hk)
  · obtain rfl := List.mem_singleton.1 ha
    exact hpart k hk

/-- Entries of which each is one of before, or shows what a later part of the evaluation did. -/
theorem Told.map_snd {parts : List Pulled} (h : Told steps depth (entries.map (·.2)) s) (hparts : Told s.steps depth parts s')
    (hm : ∀ entry ∈ entries', entry ∈ entries ∨ entry.2 ∈ parts ∨ entry.2 = .many parts) : Told steps depth (entries'.map (·.2)) s' := by
  refine ⟨fun step hstep => hparts.1 (h.1 hstep), fun part hpart k hk => ?_⟩
  obtain ⟨entry, hentry, rfl⟩ := List.mem_map.1 hpart
  rcases hm entry hentry with hold | hnew | hnew
  · exact hparts.1 (h.2 entry.2 (List.mem_map_of_mem hold) k hk)
  · exact hparts.2 entry.2 hnew k hk
  · rw [hnew] at hk
    obtain ⟨item, hitem, hk⟩ := standsAt_many.1 hk
    exact hparts.2 item hitem k hk

theorem mem_assoc_many : ∀ entry ∈ assoc entries key (.many items), entry ∈ entries ∨ entry.2 ∈ items ∨ entry.2 = .many items := by
  intro entry hm
  rcases mem_assoc hm with hm | rfl
  · exact .inl hm
  · exact .inr (.inr rfl)

section Tells

variable (hexpand : Tells expand)

include hexpand

theorem recurTarget_tells (h : Yields (recurTarget r expand target pattern depth visited) s a s') :
    s.steps ⊆ s'.steps ∧ ∀ k, a.StandsAt k → .expanded (depth + 1 + k) ∈ s'.steps := by
  obtain ⟨name, -, ⟨-, rfl, rfl⟩ | ⟨-, h⟩⟩ := yields_recurTarget.1 h
  · exact ⟨List.Subset.refl _, fun k hk => (nomatch hk)⟩
  · exact hexpand _ _ _ _ _ _ _ _ h

theorem nested_tells (h : Yields (nested r expand pattern depth visited right) s a s') :
    s.steps ⊆ s'.steps ∧ ∀ k, a.StandsAt k → .expanded (depth + 1 + k) ∈ s'.steps := by
  rcases yields_nested.1 h with ⟨-, rfl, rfl⟩ | ⟨name, -, h⟩
  · exact ⟨List.Subset.refl _, fun k hk => (nomatch hk)⟩
  · exact recurTarget_tells hexpand h

theorem mapEntry_tells (hs : Told steps (depth + 1) (entries.map (·.2)) s)
    (h : Yields (mapEntry r expand left depth visited entries entry) s entries' s') : Told steps (depth + 1) (entries'.map (·.2)) s' := by
  cases mapEntry_cases h with
  | unnamed hpid => exact hs
  | reverse hkey hpid hitems =>
    refine hs.map_snd (mapM_induct (P := Told s.steps (depth + 1)) (fun _ _ _ _ _ _ hb hy => ?_) hitems (told_nil _ _)) mem_assoc_many
    obtain ⟨hsub, hk⟩ := recurTarget_tells hexpand hy
    exact hb.append hsub hk
  | forward hkey hpid hitems hr =>
    refine hs.map_snd (mapM_induct (P := Told s.steps (depth + 1)) (fun _ _ _ _ _ _ hb hy => ?_) hitems (told_nil _ _))
      fun _ hm => mem_withRendered hr hm
    obtain ⟨hsub, hk⟩ := nested_tells hexpand hy
    exact hb.append hsub hk

/-- What an element adds shows nodes that it expanded. -/
theorem elem_tells (hs : Told steps (depth + 1) (entries.map (·.2)) s)
    (h : Yields (elem r expand left depth visited entries element) s entries' s') : Told steps (depth + 1) (entries'.map (·.2)) s' := by
  have hplain : ∀ {before after : List (String × Pulled)} {pname : String} {predicate : Term} {value : Option Pulled},
      values r pname predicate left = .ok value → after = assocSome before pname value →
      Told steps (depth + 1) (before.map (·.2)) s → Told steps (depth + 1) (after.map (·.2)) s := by
    rintro before after pname predicate value hv rfl hbefore
    cases value with
    | none => exact hbefore
    | some value =>
      refine ⟨hbefore.1, fun part hpart k hk => ?_⟩
      obtain ⟨entry, hentry, rfl⟩ := List.mem_map.1 hpart
      rcases mem_assoc hentry with hold | rfl
      · exact hbefore.2 entry.2 (List.mem_map_of_mem hold) k hk
      · exact absurd hk ((values_plain hv).1 k)
  cases elem_cases h with
  | unnamed hpid => exact hs
  | forward hkey hpid hv => exact hplain hv rfl hs
  | map hfields =>
    exact foldlM_induct (P := fun entries => Told steps (depth + 1) (entries.map (·.2)))
      (fun _ _ _ _ _ _ hb hy => mapEntry_tells hexpand hb hy) hfields hs
  | reverse hkey hpid hitems =>
    have hlisted : ∀ step : Step, Told s.steps (depth + 1) [] ⟨s.count, s.steps ++ [step]⟩ := fun step =>
      ⟨List.subset_append_left _ _, fun _ hm => (nomatch hm)⟩
    refine hs.map_snd (mapM_induct (P := Told s.steps (depth + 1)) (fun _ _ _ _ _ _ hb hy => ?_) hitems (hlisted _)) mem_assoc_many
    simp only [yields_bind, yields_lift] at hy
    obtain ⟨label, _, ⟨-, rfl⟩, hy⟩ := hy
    obtain ⟨hsub, hk⟩ := hexpand _ _ _ _ _ _ _ _ hy
    exact hb.append hsub hk
  | star hstar =>
    refine ExceptList.foldlM_induct (P := fun entries => Told steps (depth + 1) (entries.map (·.2)) s) (fun predicate _ before after hb hy => ?_)
      hstar hs
    rw [starEntry] at hy
    split at hy
    · cases hy
      exact hb
    · obtain ⟨value, hv, hy⟩ := bind_eq_ok_iff.1 hy
      exact hplain hv (Except.ok.inj hy).symm hb

end Tells

/-- By induction on the fuel, what a node shows it expanded. -/
theorem node_tells (r : Reader) (fuel : Nat) : Tells (node r fuel) := by
  induction fuel with
  | zero =>
    intro subject name pattern depth visited s a s' h
    exact absurd h not_yields_spent
  | succ fuel ih =>
    intro subject name pattern depth visited s a s' h
    rcases yields_node.1 h with ⟨-, rfl, rfl⟩ | ⟨-, -, rfl, rfl⟩ | ⟨-, -, entries, he, rfl⟩
    · exact ⟨List.Subset.refl _, fun k hk => (nomatch hk)⟩
    · exact ⟨List.Subset.refl _, fun k hk => (nomatch hk)⟩
    · have htold : Told (s.steps ++ [.expanded depth]) (depth + 1) (entries.map (·.2)) s' :=
        foldlM_induct (P := fun entries => Told (s.steps ++ [.expanded depth]) (depth + 1) (entries.map (·.2)))
          (fun _ _ _ _ _ _ hb hy => elem_tells ih hb hy) he (told_nil _ ⟨s.count + 1, s.steps ++ [.expanded depth]⟩)
      refine ⟨fun step hm => htold.1 (List.mem_append_left _ hm), fun k hk => ?_⟩
      cases hk with
      | here => exact htold.1 (List.mem_append_right _ List.mem_cons_self)
      | @entry k _ entry _ hm hk =>
        rw [← Nat.add_assoc, Nat.add_right_comm]
        exact htold.2 entry.2 (List.mem_map_of_mem hm) k hk

/-! ## Results under other bounds -/

/-- Two results are the same, or a bound cut one of them. -/
def Agree (a b : Pulled) : Prop := a.Cut ∨ b.Cut ∨ a = b

theorem agree_refl (a : Pulled) : Agree a a := .inr (.inr rfl)

theorem agree_many {items' : List Pulled} (h : List.Forall₂ Agree items items') : Agree (.many items) (.many items') := by
  induction h with
  | nil => exact agree_refl _
  | cons hab _ ih =>
    rcases hab with ha | hb | rfl
    · exact .inl (.item List.mem_cons_self ha)
    · exact .inr (.inl (.item List.mem_cons_self hb))
    · rcases ih with h | h | h
      · cases h with
        | item hm h => exact .inl (.item (List.mem_cons_of_mem _ hm) h)
      · cases h with
        | item hm h => exact .inr (.inl (.item (List.mem_cons_of_mem _ hm) h))
      · cases h
        exact agree_refl _

/-- Entries with the same keys whose values agree. -/
abbrev EntriesAgree : List (String × Pulled) → List (String × Pulled) → Prop := List.Forall₂ fun x y => x.1 = y.1 ∧ Agree x.2 y.2

theorem agree_node {name : Term} (h : EntriesAgree entries entries') : Agree (.node name entries) (.node name entries') := by
  induction h with
  | nil => exact agree_refl _
  | @cons x y l l' hxy _ ih =>
    obtain ⟨hkey, ha | hb | heq⟩ := hxy
    · exact .inl (.entry List.mem_cons_self ha)
    · exact .inr (.inl (.entry List.mem_cons_self hb))
    · rcases ih with h | h | h
      · cases h with
        | entry hm h => exact .inl (.entry (List.mem_cons_of_mem _ hm) h)
      · cases h with
        | entry hm h => exact .inr (.inl (.entry (List.mem_cons_of_mem _ hm) h))
      · cases h
        rw [Prod.ext hkey heq]
        exact agree_refl _

theorem EntriesAgree.assoc (h : EntriesAgree entries entries')
    (hab : Agree a b) : EntriesAgree (assoc entries key a) (assoc entries' key b) := by
  have hany : entries.any (·.1 = key) = entries'.any (·.1 = key) := by
    induction h with
    | nil => rfl
    | cons hxy _ ih => rw [List.any_cons, List.any_cons, ih, hxy.1]
  rw [Pull.assoc, Pull.assoc, hany]
  split
  · rw [EntriesAgree, List.forall₂_map_left_iff, List.forall₂_map_right_iff]
    refine h.imp fun x y hxy => ?_
    rw [hxy.1]
    split
    · exact ⟨rfl, hab⟩
    · exact hxy
  · exact List.rel_append h (.cons ⟨rfl, hab⟩ .nil)

theorem EntriesAgree.assocSome (h : EntriesAgree entries entries') (key : String)
    (value : Option Pulled) : EntriesAgree (assocSome entries key value) (assocSome entries' key value) := by
  cases value with
  | none => exact h
  | some value => exact h.assoc (agree_refl value)

theorem EntriesAgree.withRendered {rendered rendered' : List Pulled}
    (h : EntriesAgree entries entries') (hr : List.Forall₂ Agree rendered rendered') (ha : withRendered r key entries rendered = .ok after)
    (ha' : withRendered r key entries' rendered' = .ok after') : EntriesAgree after after' := by
  cases hr with
  | nil =>
    cases ha
    cases ha'
    exact h
  | cons hab hrest =>
    rw [Pull.withRendered] at ha ha'
    obtain ⟨card, hcard, ha⟩ := bind_eq_ok_iff.1 ha
    obtain ⟨card', hcard', ha'⟩ := bind_eq_ok_iff.1 ha'
    obtain rfl : card = card' := by simpa [hcard] using hcard'
    cases ha
    cases ha'
    refine h.assoc ?_
    split
    · exact hab
    · exact agree_many (.cons hab hrest)

/-- A reader with other bounds. -/
def Reader.within (r : Reader) (maxDepth maxNodes : Nat) : Reader := { r with maxDepth := maxDepth, maxNodes := maxNodes }

/-- Two ways to expand subjects give results that agree. -/
def Agreeing (expand expand' : Expand) : Prop :=
  ∀ subject name pattern depth visited s a s' t b t', Yields (expand subject name pattern depth visited) s a s' →
    Yields (expand' subject name pattern depth visited) t b t' → Agree a b

section Agreeing

variable {expand' : Expand} (hexpand : Agreeing expand expand') {maxDepth maxNodes : Nat} {t t' : Evaluation}

include hexpand

theorem recurTarget_agree (ha : Yields (recurTarget r expand target pattern depth visited) s a s')
    (hb : Yields (recurTarget (r.within maxDepth maxNodes) expand' target pattern depth visited) t b t') : Agree a b := by
  obtain ⟨name, hname, ha⟩ := yields_recurTarget.1 ha
  obtain ⟨name', hname', hb⟩ := yields_recurTarget.1 hb
  obtain rfl : name = name' := Except.ok.inj (hname.symm.trans hname')
  rcases ha with ⟨-, rfl, -⟩ | ⟨-, ha⟩
  · exact .inl (.here name)
  · rcases hb with ⟨-, rfl, -⟩ | ⟨-, hb⟩
    · exact .inr (.inl (.here name))
    · exact hexpand _ _ _ _ _ _ _ _ _ _ _ ha hb

theorem nested_agree (ha : Yields (nested r expand pattern depth visited right) s a s')
    (hb : Yields (nested (r.within maxDepth maxNodes) expand' pattern depth visited right) t b t') : Agree a b := by
  rcases yields_nested.1 ha with ⟨hname, rfl, -⟩ | ⟨name, hname, ha⟩
  · rcases yields_nested.1 hb with ⟨-, rfl, -⟩ | ⟨name', hname', -⟩
    · exact agree_refl _
    · exact absurd (hname.symm.trans hname') (by simp)
  · rcases yields_nested.1 hb with ⟨hname', -, -⟩ | ⟨name', -, hb⟩
    · exact absurd (hname.symm.trans hname') (by simp)
    · exact recurTarget_agree hexpand ha hb

/-- A name of a map element adds what agrees, under whatever bounds. -/
theorem mapEntry_agree (h : EntriesAgree entries entries') (ha : Yields (mapEntry r expand left depth visited entries entry) s after s')
    (hb : Yields (mapEntry (r.within maxDepth maxNodes) expand' left depth visited entries' entry) t after' t') : EntriesAgree after after' := by
  have hsame : predicateOf (r.within maxDepth maxNodes) entry.1 = predicateOf r entry.1 := rfl
  cases mapEntry_cases ha with
  | unnamed hpid =>
    cases mapEntry_cases hb with
    | unnamed _ => exact h
    | reverse _ hpid' _ => exact absurd (hpid.symm.trans (hsame.symm.trans hpid')) (by simp)
    | forward _ hpid' _ _ => exact absurd (hpid.symm.trans (hsame.symm.trans hpid')) (by simp)
  | reverse hkey hpid hitems =>
    cases mapEntry_cases hb with
    | unnamed hpid' => exact absurd (hpid.symm.trans (hsame.symm.trans hpid')) (by simp)
    | forward hkey' _ _ _ => exact absurd hkey hkey'
    | reverse _ hpid' hitems' =>
      obtain rfl := Option.some.inj (Except.ok.inj (hpid.symm.trans (hsame.symm.trans hpid')))
      exact h.assoc (agree_many (mapM_rel (fun _ _ _ _ _ _ _ _ hx hy => recurTarget_agree hexpand hx hy) hitems hitems'))
  | forward hkey hpid hitems hr =>
    cases mapEntry_cases hb with
    | unnamed hpid' => exact absurd (hpid.symm.trans (hsame.symm.trans hpid')) (by simp)
    | reverse hkey' _ _ => exact absurd hkey' hkey
    | forward _ hpid' hitems' hr' =>
      obtain rfl := Option.some.inj (Except.ok.inj (hpid.symm.trans (hsame.symm.trans hpid')))
      exact h.withRendered (mapM_rel (fun _ _ _ _ _ _ _ _ hx hy => nested_agree hexpand hx hy) hitems hitems') hr hr'

/-- An element adds what agrees, under whatever bounds. -/
theorem elem_agree (h : EntriesAgree entries entries') (ha : Yields (elem r expand left depth visited entries element) s after s')
    (hb : Yields (elem (r.within maxDepth maxNodes) expand' left depth visited entries' element) t after' t') : EntriesAgree after after' := by
  have hsame : ∀ name, predicateOf (r.within maxDepth maxNodes) name = predicateOf r name := fun _ => rfl
  cases elem_cases ha with
  | star hstar =>
    cases elem_cases hb with
    | star hstar' =>
      refine ExceptList.foldlM_rel (fun predicate _ b c b₁ c₁ hbc hx hy => ?_) hstar hstar' h
      have hsameEntry : starEntry (r.within maxDepth maxNodes) left = starEntry r left := rfl
      rw [hsameEntry] at hy
      rw [starEntry] at hx hy
      split at hx
      · rename_i hres
        rw [if_pos hres] at hy
        cases hx
        cases hy
        exact hbc
      · rename_i hres
        rw [if_neg hres] at hy
        obtain ⟨value, hv, hx⟩ := bind_eq_ok_iff.1 hx
        obtain ⟨value', hv', hy⟩ := bind_eq_ok_iff.1 hy
        obtain rfl := Except.ok.inj (hv.symm.trans hv')
        cases hx
        cases hy
        exact hbc.assocSome _ _
  | unnamed hpid =>
    cases elem_cases hb with
    | unnamed _ => exact h
    | reverse _ hpid' _ => exact absurd (hpid.symm.trans ((hsame _).symm.trans hpid')) (by simp)
    | forward _ hpid' _ => exact absurd (hpid.symm.trans ((hsame _).symm.trans hpid')) (by simp)
  | forward hkey hpid hv =>
    cases elem_cases hb with
    | unnamed hpid' => exact absurd (hpid.symm.trans ((hsame _).symm.trans hpid')) (by simp)
    | reverse hkey' _ _ => exact absurd hkey' hkey
    | forward _ hpid' hv' =>
      obtain rfl := Option.some.inj (Except.ok.inj (hpid.symm.trans ((hsame _).symm.trans hpid')))
      obtain rfl := Except.ok.inj (hv.symm.trans hv')
      exact h.assocSome _ _
  | reverse hkey hpid hitems =>
    cases elem_cases hb with
    | unnamed hpid' => exact absurd (hpid.symm.trans ((hsame _).symm.trans hpid')) (by simp)
    | forward hkey' _ _ => exact absurd hkey hkey'
    | reverse _ hpid' hitems' =>
      obtain rfl := Option.some.inj (Except.ok.inj (hpid.symm.trans ((hsame _).symm.trans hpid')))
      refine h.assoc (agree_many (mapM_rel (fun subject _ _ _ _ _ _ _ hx hy => ?_) hitems hitems'))
      simp only [yields_bind, yields_lift] at hx hy
      obtain ⟨label, _, ⟨hlabel, rfl⟩, hx⟩ := hx
      obtain ⟨label', _, ⟨hlabel', rfl⟩, hy⟩ := hy
      obtain rfl : label = label' := Except.ok.inj (hlabel.symm.trans hlabel')
      exact hexpand _ _ _ _ _ _ _ _ _ _ _ hx hy
  | map hfields =>
    cases elem_cases hb with
    | map hfields' =>
      refine foldlM_rel (R := EntriesAgree) (f := mapEntry r expand left depth visited)
        (g := mapEntry (r.within maxDepth maxNodes) expand' left depth visited) ?_ hfields hfields' h
      intro entry _ b c s₁ b₁ s₂ t₁ c₁ t₂ hbc hx hy
      exact mapEntry_agree hexpand hbc hx hy

end Agreeing

/-- Under two bounds a node gives results that agree, by induction on the fuel of the first. -/
theorem node_agree (r : Reader) (maxDepth maxNodes fuel fuel' : Nat) :
    Agreeing (node r fuel) (node (r.within maxDepth maxNodes) fuel') := by
  induction fuel generalizing fuel' with
  | zero =>
    intro subject name pattern depth visited s a s' t b t' ha hb
    exact absurd ha not_yields_spent
  | succ fuel ih =>
    intro subject name pattern depth visited s a s' t b t' ha hb
    cases fuel' with
    | zero => exact absurd hb not_yields_spent
    | succ fuel' =>
      rcases yields_node.1 ha with ⟨hv, rfl, -⟩ | ⟨-, -, rfl, -⟩ | ⟨hv, -, entries, he, rfl⟩
      · rcases yields_node.1 hb with ⟨-, rfl, -⟩ | ⟨hv', -, -, -⟩ | ⟨hv', -, -, -, -⟩
        · exact agree_refl _
        · exact absurd (hv.symm.trans hv') (by simp)
        · exact absurd (hv.symm.trans hv') (by simp)
      · exact .inl (.here name)
      · rcases yields_node.1 hb with ⟨hv', -, -⟩ | ⟨-, -, rfl, -⟩ | ⟨-, -, entries', he', rfl⟩
        · exact absurd (hv.symm.trans hv') (by simp)
        · exact .inr (.inl (.here name))
        · refine agree_node (foldlM_rel (R := EntriesAgree) (f := elem r (node r fuel) subject depth (subject :: visited))
            (g := elem (r.within maxDepth maxNodes) (node (r.within maxDepth maxNodes) fuel') subject depth (subject :: visited)) ?_ he he' .nil)
          intro element _ b c s₁ b₁ s₂ t₁ c₁ t₂ hbc hx hy
          exact elem_agree (ih fuel') hbc hx hy

/-! ## When an evaluation ends -/

section Ends

variable (hdeep : depth + 1 ≤ r.maxDepth → ∀ subject name pattern visited s,
  Fueled.Ends (expand subject name pattern (depth + 1) visited) s)

include hdeep

theorem recurTarget_ends (target : Term) (pattern : List Element) (visited : List Term) (s : Evaluation) :
    Fueled.Ends (recurTarget r expand target pattern depth visited) s := by
  refine ends_bind (ends_lift _ _) fun name s₁ _ => ?_
  split
  · exact ends_pure _ _
  · rename_i hd
    exact hdeep (Nat.le_of_not_lt hd) _ _ _ _ _

theorem nested_ends (pattern : List Element) (visited : List Term) (right : Term) (s : Evaluation) :
    Fueled.Ends (nested r expand pattern depth visited right) s := by
  refine ends_bind (ends_lift _ _) fun name s₁ _ => ?_
  cases name with
  | none => exact ends_pure _ _
  | some name => exact recurTarget_ends hdeep _ _ _ _

theorem mapEntry_ends (left : Term) (visited : List Term) (entries : List (String × Pulled)) (entry : String × Subpattern) (s : Evaluation) :
    Fueled.Ends (mapEntry r expand left depth visited entries entry) s := by
  rw [mapEntry]
  split <;> refine ends_bind (ends_lift _ _) fun pid s₁ _ => ?_ <;> cases pid with
    | none => exact ends_pure _ _
    | some predicate => ?_
  · exact ends_bind (ends_mapM (fun subject _ s => recurTarget_ends hdeep subject _ _ s) _) fun items s₂ _ => ends_pure _ _
  · exact ends_bind (ends_mapM (fun right _ s => nested_ends hdeep _ _ right s) _) fun rendered s₂ _ => ends_lift _ _

/-- An element ends when the expansions that it comes to do. -/
theorem elem_ends (hflat : ∀ subject name visited s, Fueled.Ends (expand subject name [] (depth + 1) visited) s) (left : Term) (visited : List Term)
    (entries : List (String × Pulled)) (element : Element) (s : Evaluation) : Fueled.Ends (elem r expand left depth visited entries element) s := by
  cases element with
  | star => exact ends_lift _ _
  | map fields => exact ends_foldlM (fun entry _ entries s => mapEntry_ends hdeep left visited entries entry s) entries s
  | attr name =>
    rw [elem]
    split <;> refine ends_bind (ends_lift _ _) fun pid s₁ _ => ?_ <;> cases pid with
      | none => exact ends_pure _ _
      | some predicate => ?_
    · refine ends_bind (ends_bind (ends_modify _ _) fun _ s₂ _ => ?_) fun items s₃ _ => ends_pure _ _
      refine ends_bind (ends_mapM (fun subject _ s => ?_) _) fun items s₃ _ => ends_pure _ _
      exact ends_bind (ends_lift _ _) fun label s₄ _ => hflat _ _ _ _
    · exact ends_bind (ends_lift _ _) fun value s₂ _ => ends_pure _ _

end Ends

/-- A node that asks for nothing takes one unit of fuel. -/
theorem node_nil_ends (hf : 0 < fuel) (subject name : Term) (depth : Nat) (visited : List Term) (s : Evaluation) :
    Fueled.Ends (node r fuel subject name [] depth visited) s := by
  cases fuel with
  | zero => exact absurd hf (Nat.lt_irrefl 0)
  | succ fuel =>
    rw [node]
    split
    · exact ends_pure _ _
    · refine ends_bind (ends_get _) fun t s₁ _ => ?_
      split
      · exact ends_pure _ _
      · refine ends_bind (ends_modify _ _) fun _ s₂ _ => ?_
        exact ends_bind (ends_pure _ _) fun entries s₃ _ => ends_pure _ _

/-- Fuel for the levels up to the depth bound, and two more, is enough. -/
theorem node_ends (hd : depth ≤ r.maxDepth) (hf : r.maxDepth + 2 ≤ fuel + depth) (subject name : Term) (pattern : List Element)
    (visited : List Term) (s : Evaluation) : Fueled.Ends (node r fuel subject name pattern depth visited) s := by
  induction fuel generalizing depth subject name pattern visited s with
  | zero => omega
  | succ fuel ih =>
    rw [node]
    split
    · exact ends_pure _ _
    · refine ends_bind (ends_get _) fun t s₁ _ => ?_
      split
      · exact ends_pure _ _
      · refine ends_bind (ends_modify _ _) fun _ s₂ _ => ?_
        refine ends_bind (ends_foldlM (fun element _ entries s => ?_) _ _) fun entries s₃ _ => ends_pure _ _
        have hdeep : depth + 1 ≤ r.maxDepth → ∀ subject name pattern visited s,
            Fueled.Ends (node r fuel subject name pattern (depth + 1) visited) s := fun hd' subject name pattern visited s =>
          ih hd' (by omega) subject name pattern visited s
        exact elem_ends hdeep (fun subject name visited s => node_nil_ends (by omega) subject name (depth + 1) visited s) _ _ _ _ _

/-! ## A whole pull -/

theorem one_cases {name : String} (h : Yields (one r fuel pattern name) s a s') :
    (r.resolveName name = .ok none ∧ a = .absent name ∧ s' = s) ∨
      ∃ subject, r.resolveName name = .ok (some subject) ∧ Yields (node r fuel subject (.str name) pattern 0 []) s a s' := by
  simp only [one, yields_bind, yields_lift] at h
  obtain ⟨subject, _, ⟨hname, rfl⟩, h⟩ := h
  cases subject with
  | none =>
    obtain ⟨rfl, rfl⟩ := yields_pure.1 h
    exact .inl ⟨hname, rfl, rfl⟩
  | some subject => exact .inr ⟨subject, hname, h⟩

theorem one_ends (hf : r.maxDepth + 2 ≤ fuel) (pattern : List Element) (name : String) (s : Evaluation) :
    Fueled.Ends (one r fuel pattern name) s := by
  refine ends_bind (ends_lift _ _) fun subject s₁ _ => ?_
  cases subject with
  | none => exact ends_pure _ _
  | some subject => exact node_ends (Nat.zero_le _) hf _ _ _ _ _

theorem roots_ends (hf : r.maxDepth + 2 ≤ fuel) (pattern : List Element) (root : Root) (s : Evaluation) :
    Fueled.Ends (roots r fuel pattern root) s := by
  cases root with
  | one name => exact one_ends hf pattern name s
  | several names => exact ends_bind (ends_mapM (fun name _ s => one_ends hf pattern name s) _) fun items s₁ _ => ends_pure _ _

/-- What the evaluation of the roots does. -/
theorem roots_cases (h : Yields (roots r fuel pattern root) s a s') : (∃ name, root = .one name ∧ Yields (one r fuel pattern name) s a s') ∨
      ∃ names items, root = .several names ∧ Yields (names.mapM (one r fuel pattern)) s items s' ∧ a = .many items := by
  cases root with
  | one name => exact .inl ⟨name, rfl, h⟩
  | several names =>
    simp only [roots, yields_bind, yields_pure] at h
    obtain ⟨items, _, h, rfl, rfl⟩ := h
    exact .inr ⟨names, items, rfl, h, rfl⟩

theorem one_keeps {asks : Nat → List Element → Prop} {kept : Evaluation → Prop} (hi : Invariant r asks kept) (hp : asks 0 pattern)
    {name : String} (hs : kept s) (h : Yields (one r fuel pattern name) s a s') : kept s' := by
  rcases one_cases h with ⟨-, -, rfl⟩ | ⟨subject, -, h⟩
  · exact hs
  · exact node_keeps hi fuel _ _ _ _ _ _ _ _ hp hs h

/-- An invariant is kept by whole pulls. -/
theorem roots_keeps {asks : Nat → List Element → Prop} {kept : Evaluation → Prop} (hi : Invariant r asks kept) (hp : asks 0 pattern) (hs : kept s)
    (h : Yields (roots r fuel pattern root) s a s') : kept s' := by
  rcases roots_cases h with ⟨name, -, h⟩ | ⟨names, items, -, h, -⟩
  · exact one_keeps hi hp hs h
  · exact mapM_induct (P := fun _ s => kept s) (fun _ _ _ _ _ _ hb hy => one_keeps hi hp hb hy) h hs

/-- A pull whose pattern asks for no flat list at a level comes to none at that depth. -/
theorem roots_listNoneAt {maxDepth : Nat} (hp : ¬FlatReverseAt maxDepth pattern)
    (h : Yields (roots r fuel pattern root) ⟨0, []⟩ a s') : ListsNoneAt maxDepth s' := by
  have hs : ListsNoneAt maxDepth ⟨0, []⟩ := fun _ _ _ _ hm => nomatch hm
  refine roots_keeps (invariant_listsNoneAt r maxDepth) (fun level hlevel heq => hp ?_) hs h
  rwa [← heq, Nat.zero_add]

theorem one_tells {name : String} (h : Yields (one r fuel pattern name) s a s') :
    s.steps ⊆ s'.steps ∧ ∀ k, a.StandsAt k → .expanded k ∈ s'.steps := by
  rcases one_cases h with ⟨-, rfl, rfl⟩ | ⟨subject, -, h⟩
  · exact ⟨List.Subset.refl _, fun k hk => (nomatch hk)⟩
  · obtain ⟨hsub, hk⟩ := node_tells r fuel _ _ _ _ _ _ _ _ h
    exact ⟨hsub, fun k hs => by simpa only [Nat.zero_add] using hk k hs⟩

theorem roots_tells (h : Yields (roots r fuel pattern root) s a s') (hk : a.StandsAt k) : .expanded k ∈ s'.steps := by
  rcases roots_cases h with ⟨name, -, hone⟩ | ⟨names, items, -, hitems, rfl⟩
  · exact (one_tells hone).2 k hk
  · have htold : Told s.steps 0 items s' := by
      refine mapM_induct (P := Told s.steps 0) (fun _ _ _ _ _ _ hb hy => ?_) hitems (told_nil _ _)
      obtain ⟨hsub, hk⟩ := one_tells hy
      exact hb.append hsub fun k hs => by simpa only [Nat.zero_add] using hk k hs
    obtain ⟨item, hm, hk⟩ := standsAt_many.1 hk
    simpa only [Nat.zero_add] using htold.2 item hm k hk

theorem one_agree {maxDepth maxNodes fuel' : Nat} {t t' : Evaluation} {name : String}
    (ha : Yields (one r fuel pattern name) s a s') (hb : Yields (one (r.within maxDepth maxNodes) fuel' pattern name) t b t') : Agree a b := by
  rcases one_cases ha with ⟨hname, rfl, -⟩ | ⟨subject, hname, ha⟩
  · rcases one_cases hb with ⟨-, rfl, -⟩ | ⟨subject', hname', -⟩
    · exact agree_refl _
    · exact absurd (hname.symm.trans hname') (by simp)
  · rcases one_cases hb with ⟨hname', -, -⟩ | ⟨subject', hname', hb⟩
    · exact absurd (hname.symm.trans hname') (by simp)
    · obtain rfl : subject = subject' := Option.some.inj (Except.ok.inj (hname.symm.trans hname'))
      exact node_agree r maxDepth maxNodes fuel fuel' _ _ _ _ _ _ _ _ _ _ _ ha hb

theorem roots_agree {maxDepth maxNodes fuel' : Nat} {t t' : Evaluation}
    (ha : Yields (roots r fuel pattern root) s a s') (hb : Yields (roots (r.within maxDepth maxNodes) fuel' pattern root) t b t') :
    Agree a b := by
  rcases roots_cases ha with ⟨name, rfl, hone⟩ | ⟨names, items, rfl, hitems, rfl⟩
  · rcases roots_cases hb with ⟨name', hroot, hone'⟩ | ⟨names', items', hroot, -, -⟩
    · cases hroot
      exact one_agree hone hone'
    · cases hroot
  · rcases roots_cases hb with ⟨name', hroot, -⟩ | ⟨names', items', hroot, hitems', rfl⟩
    · cases hroot
    · cases hroot
      exact agree_many (mapM_rel (f := one r fuel pattern) (g := one (r.within maxDepth maxNodes) fuel' pattern)
        (fun _ _ _ _ _ _ _ _ hx hy => one_agree hx hy) hitems hitems')

end Pull

end Fram
