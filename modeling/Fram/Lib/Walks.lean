import Mathlib.Tactic

/-!
# Walks down a graph

A graph is given by the children of its nodes, in order and as often as there are edges. A walk from a node is the list of the places of
the edges it takes. A depth-first visit with a stack, and without a set of the nodes it has seen, meets each node once for each walk to it:
it comes to an end exactly when no walk comes back to a node.
-/

namespace Walks

variable {ν : Type*} (children : ν → List ν)

/-- The node that a walk leads to. -/
def follow : ν → List Nat → Option ν
  | node, [] => some node
  | node, i :: path => (children node)[i]?.bind fun child => follow child path

/-- The nodes that a walk comes through, from the first to the last. -/
def along : ν → List Nat → Option (List ν)
  | node, [] => some [node]
  | node, i :: path => (children node)[i]?.bind fun child => (along child path).map (node :: ·)

/-- No walk from a node comes back to a node that it has come through. -/
def Acyclic (node : ν) : Prop := ∀ path nodes, along children node path = some nodes → nodes.Nodup

/-- The walks from a node are no longer than a bound. -/
def BoundedBy (n : Nat) (node : ν) : Prop := ∀ path, (follow children node path).isSome → path.length ≤ n

variable {children}

theorem follow_cons_eq_some {node last : ν} {i : Nat} {path : List Nat} :
    follow children node (i :: path) = some last ↔ ∃ child, (children node)[i]? = some child ∧ follow children child path = some last := by
  rw [follow, Option.bind_eq_some_iff]

theorem along_cons_eq_some {node : ν} {i : Nat} {path : List Nat} {nodes : List ν} : along children node (i :: path) = some nodes ↔
      ∃ child rest, (children node)[i]? = some child ∧ along children child path = some rest ∧ node :: rest = nodes := by
  simp only [along, Option.bind_eq_some_iff, Option.map_eq_some_iff]
  constructor
  · rintro ⟨child, hc, rest, hr, he⟩
    exact ⟨child, rest, hc, hr, he⟩
  · rintro ⟨child, rest, hc, hr, he⟩
    exact ⟨child, hc, rest, hr, he⟩

/-- A walk leads on from where a walk has led. -/
theorem follow_append (node : ν) (p q : List Nat) :
    follow children node (p ++ q) = (follow children node p).bind fun last => follow children last q := by
  induction p generalizing node with
  | nil => rfl
  | cons i p ih =>
    rw [List.cons_append, follow, follow, Option.bind_assoc]
    congr 1
    funext child
    exact ih child

/-- The nodes on the way are there when the last is, which is the one that the walk leads to. -/
theorem follow_eq_some_iff {node last : ν} {path : List Nat} :
    follow children node path = some last ↔ ∃ nodes, along children node path = some nodes ∧ nodes.getLast? = some last := by
  induction path generalizing node with
  | nil => simp [follow, along]
  | cons i path ih =>
    rw [follow_cons_eq_some]
    constructor
    · rintro ⟨child, hc, hf⟩
      obtain ⟨rest, hr, hl⟩ := ih.1 hf
      refine ⟨node :: rest, along_cons_eq_some.2 ⟨child, rest, hc, hr, rfl⟩, ?_⟩
      rw [List.getLast?_cons, hl]
      rfl
    · rintro ⟨nodes, ha, hl⟩
      obtain ⟨child, rest, hc, hr, rfl⟩ := along_cons_eq_some.1 ha
      refine ⟨child, hc, ih.2 ⟨rest, hr, ?_⟩⟩
      have hne : rest ≠ [] := by
        rintro rfl
        cases path with
        | nil => cases hr
        | cons j path => obtain ⟨_, _, -, -, he⟩ := along_cons_eq_some.1 hr; cases he
      rw [List.getLast?_cons, List.getLast?_eq_some_getLast hne] at hl
      rw [List.getLast?_eq_some_getLast hne]
      exact hl

theorem length_along {node : ν} {path : List Nat} {nodes : List ν} (h : along children node path = some nodes) :
    nodes.length = path.length + 1 := by
  induction path generalizing node nodes with
  | nil =>
    cases h
    rfl
  | cons i path ih =>
    obtain ⟨child, rest, -, hr, rfl⟩ := along_cons_eq_some.1 h
    rw [List.length_cons, List.length_cons, ih hr]

/-- A node on the way is where a part of the walk leads. -/
theorem exists_follow_of_mem {node v : ν} {path : List Nat} {nodes : List ν} (h : along children node path = some nodes)
    (hv : v ∈ nodes) : ∃ p q, path = p ++ q ∧ follow children node p = some v := by
  induction path generalizing node nodes with
  | nil =>
    cases h
    exact ⟨[], [], rfl, by rw [List.mem_singleton.1 hv]; rfl⟩
  | cons i path ih =>
    obtain ⟨child, rest, hc, hr, rfl⟩ := along_cons_eq_some.1 h
    rcases List.mem_cons.1 hv with hv | hv
    · exact ⟨[], i :: path, rfl, by rw [hv]; rfl⟩
    · obtain ⟨p, q, rfl, hf⟩ := ih hr hv
      exact ⟨i :: p, q, rfl, follow_cons_eq_some.2 ⟨child, hc, hf⟩⟩

/-- From each node on the way the rest of the walk leads on. -/
theorem exists_along_of_append {node v : ν} {path : List Nat} {low high : List ν} (h : along children node path = some (low ++ v :: high)) :
    ∃ rest, along children v rest = some (v :: high) := by
  induction path generalizing node low with
  | nil =>
    rw [along, Option.some.injEq] at h
    cases low with
    | nil =>
      cases h
      exact ⟨[], rfl⟩
    | cons w low => simp at h
  | cons i path ih =>
    obtain ⟨child, rest, hc, hr, he⟩ := along_cons_eq_some.1 h
    cases low with
    | nil =>
      cases he
      exact ⟨i :: path, h⟩
    | cons w low =>
      cases he
      exact ih hr

/-- A walk that comes back can be taken again and again. -/
theorem exists_long_walk {v : ν} {q : List Nat} (hne : q ≠ []) (h : follow children v q = some v) (k : Nat) :
    ∃ path, follow children v path = some v ∧ k ≤ path.length := by
  induction k with
  | zero => exact ⟨[], rfl, Nat.zero_le _⟩
  | succ k ih =>
    obtain ⟨path, hp, hk⟩ := ih
    refine ⟨q ++ path, ?_, ?_⟩
    · rw [follow_append, h]
      exact hp
    · have := List.length_pos_of_ne_nil hne
      rw [List.length_append]
      omega

/-- Walks that are bounded do not come back. -/
theorem BoundedBy.acyclic {n : Nat} {node : ν} (h : BoundedBy children n node) : Acyclic children node := by
  intro path
  induction path generalizing node n with
  | nil =>
    intro nodes ha
    cases ha
    exact List.nodup_singleton _
  | cons i path ih =>
    intro nodes ha
    obtain ⟨child, rest, hc, hr, rfl⟩ := along_cons_eq_some.1 ha
    have hchild : BoundedBy children n child := by
      intro p hp
      have := h (i :: p) (by rw [follow, hc]; exact hp)
      exact (Nat.le_succ _).trans this
    refine List.nodup_cons.2 ⟨fun hmem => ?_, ih hchild rest hr⟩
    obtain ⟨p, q, rfl, hf⟩ := exists_follow_of_mem hr hmem
    obtain ⟨long, hl, hk⟩ := exists_long_walk (q := i :: p) (by simp) (follow_cons_eq_some.2 ⟨child, hc, hf⟩) (n + 1)
    have := h long (by rw [hl]; rfl)
    omega

/-- Walks over finitely many nodes that do not come back are bounded. -/
theorem Acyclic.boundedBy {node : ν} (h : Acyclic children node) {all : List ν} (hnode : node ∈ all)
    (hall : ∀ v, ∀ child ∈ children v, child ∈ all) : BoundedBy children all.length node := by
  classical
  intro path hp
  obtain ⟨last, hl⟩ := Option.isSome_iff_exists.1 hp
  obtain ⟨nodes, ha, -⟩ := follow_eq_some_iff.1 hl
  have hsub : nodes ⊆ all := by
    clear h hp hl
    induction path generalizing node nodes with
    | nil =>
      cases ha
      simpa using hnode
    | cons i path ih =>
      obtain ⟨child, rest, hc, hr, rfl⟩ := along_cons_eq_some.1 ha
      exact List.cons_subset.2 ⟨hnode, ih (hall node child (List.mem_of_getElem? hc)) rest hr⟩
  have hle := (List.subperm_of_subset (h path nodes ha) hsub).length_le
  have := length_along ha
  omega

/-! ## A visit with a stack -/

section Visit

variable {σ β : Type*} (children) (enter : ν → σ → σ) (emit : ν → σ → List β)

/-- A depth-first visit. Each node is entered with the state of the one it was reached from. -/
def visit : Nat → List (ν × σ) → List β → Option (List β)
  | 0, _, _ => none
  | _ + 1, [], out => some out
  | n + 1, (node, state) :: stack, out =>
    visit n ((children node).map (·, enter node state) ++ stack) (out ++ emit node (enter node state))

/-- What a visit of one node and all that is below it gives, in at most as many levels. -/
def descend : Nat → ν → σ → Option (List β)
  | 0, _, _ => none
  | n + 1, node, state =>
    ((children node).mapM fun child => descend n child (enter node state)).map
      fun outs => emit node (enter node state) ++ outs.flatten

/-- What is given at the end of a walk. -/
def atEnd : ν → σ → List Nat → List β
  | node, state, [] => emit node (enter node state)
  | node, state, i :: path =>
    match (children node)[i]? with
    | some child => atEnd child (enter node state) path
    | none => []

/-- What is given at the end of a walk whose first edge leads to one of some nodes. -/
def below (l : List ν) (state : σ) : List Nat → List β
  | [] => []
  | i :: path =>
    match l[i]? with
    | some child => atEnd children enter emit child state path
    | none => []

variable {children enter emit}

theorem visit_mono {n m : Nat} {stack : List (ν × σ)} {out result : List β} (hle : n ≤ m)
    (h : visit children enter emit n stack out = some result) : visit children enter emit m stack out = some result := by
  induction n generalizing m stack out with
  | zero => cases h
  | succ n ih =>
    obtain ⟨m, rfl⟩ := Nat.exists_eq_add_of_lt (Nat.lt_of_succ_le hle)
    cases stack with
    | nil => exact h
    | cons entry stack =>
      obtain ⟨node, state⟩ := entry
      rw [visit] at h ⊢
      exact ih (by omega) h

theorem mapM_some_mono {α γ : Type*} {f g : α → Option γ} {l : List α} {outs : List γ} (hfg : ∀ a ∈ l, ∀ c, f a = some c → g a = some c)
    (h : l.mapM f = some outs) : l.mapM g = some outs := by
  induction l generalizing outs with
  | nil => exact h
  | cons a l ih =>
    simp only [List.mapM_cons, Option.bind_eq_bind, Option.bind_eq_some_iff, Option.pure_def, Option.some.injEq] at h ⊢
    obtain ⟨c, hc, cs, hcs, rfl⟩ := h
    exact ⟨c, hfg a List.mem_cons_self c hc, cs, ih (fun b hb => hfg b (List.mem_cons_of_mem a hb)) hcs, rfl⟩

theorem exists_of_mapM_eq_some {α γ : Type*} {f : α → Option γ} {l : List α} {outs : List γ} (h : l.mapM f = some outs) {a : α}
    (ha : a ∈ l) : ∃ c ∈ outs, f a = some c := by
  induction l generalizing outs with
  | nil => cases ha
  | cons b l ih =>
    simp only [List.mapM_cons, Option.bind_eq_bind, Option.bind_eq_some_iff, Option.pure_def, Option.some.injEq] at h
    obtain ⟨c, hc, cs, hcs, rfl⟩ := h
    rcases List.mem_cons.1 ha with ha | ha
    · exact ⟨c, List.mem_cons_self, ha ▸ hc⟩
    · obtain ⟨d, hd, hf⟩ := ih hcs ha
      exact ⟨d, List.mem_cons_of_mem c hd, hf⟩

theorem exists_mapM_eq_some {α γ : Type*} {f : α → Option γ} {l : List α} (h : ∀ a ∈ l, ∃ c, f a = some c) :
    ∃ outs, l.mapM f = some outs := by
  induction l with
  | nil => exact ⟨[], rfl⟩
  | cons a l ih =>
    obtain ⟨c, hc⟩ := h a List.mem_cons_self
    obtain ⟨cs, hcs⟩ := ih fun b hb => h b (List.mem_cons_of_mem a hb)
    refine ⟨c :: cs, ?_⟩
    simp only [List.mapM_cons, Option.bind_eq_bind, Option.bind_eq_some_iff, Option.pure_def, Option.some.injEq]
    exact ⟨c, hc, cs, hcs, rfl⟩

theorem descend_mono {n m : Nat} {node : ν} {state : σ} {out : List β} (hle : n ≤ m)
    (h : descend children enter emit n node state = some out) : descend children enter emit m node state = some out := by
  induction n generalizing m node state out with
  | zero => cases h
  | succ n ih =>
    obtain ⟨m, rfl⟩ := Nat.exists_eq_add_of_lt (Nat.lt_of_succ_le hle)
    rw [descend, Option.map_eq_some_iff] at h ⊢
    obtain ⟨outs, ho, rfl⟩ := h
    exact ⟨outs, mapM_some_mono (fun child _ c hc => ih (by omega) hc) ho, rfl⟩

/-- Some steps of the visit take nodes off the stack when they take each of them off. -/
theorem exists_visit_of_mapM {state : σ} {f : ν → Option (List β)} {nodes : List ν} {outs : List (List β)} (ho : nodes.mapM f = some outs)
    (hf : ∀ node ∈ nodes, ∀ out, f node = some out → ∃ k, ∀ m stack before,
      visit children enter emit (k + m) ((node, state) :: stack) before = visit children enter emit m stack (before ++ out)) :
    ∃ k, ∀ m stack before, visit children enter emit (k + m) (nodes.map (·, state) ++ stack) before =
      visit children enter emit m stack (before ++ outs.flatten) := by
  induction nodes generalizing outs with
  | nil =>
    cases ho
    exact ⟨0, fun m stack before => by simp⟩
  | cons node nodes ih =>
    simp only [List.mapM_cons, Option.bind_eq_bind, Option.bind_eq_some_iff, Option.pure_def, Option.some.injEq] at ho
    obtain ⟨out, hout, outs, houts, rfl⟩ := ho
    obtain ⟨k, hk⟩ := hf node List.mem_cons_self out hout
    obtain ⟨k', hk'⟩ := ih houts fun v hv => hf v (List.mem_cons_of_mem node hv)
    refine ⟨k + k', fun m stack before => ?_⟩
    rw [List.map_cons, List.cons_append, Nat.add_assoc, hk, hk', List.flatten_cons, List.append_assoc]

/-- Some steps of the visit take a node and all that is below it off the stack. -/
theorem exists_visit_of_descend {n : Nat} {node : ν} {state : σ} {out : List β} (h : descend children enter emit n node state = some out) :
    ∃ k, ∀ m stack before, visit children enter emit (k + m) ((node, state) :: stack) before =
      visit children enter emit m stack (before ++ out) := by
  induction n generalizing node state out with
  | zero => cases h
  | succ n ih =>
    rw [descend, Option.map_eq_some_iff] at h
    obtain ⟨outs, ho, rfl⟩ := h
    obtain ⟨k, hk⟩ := exists_visit_of_mapM ho fun child _ o hc => ih hc
    refine ⟨k + 1, fun m stack before => ?_⟩
    rw [show k + 1 + m = (k + m) + 1 by omega, visit, hk, List.append_assoc]

/-- What a visit gives is what its stack's nodes give. -/
theorem descend_of_visit {n : Nat} {stack : List (ν × σ)} {before result : List β}
    (h : visit children enter emit n stack before = some result) :
    ∃ outs, stack.mapM (fun entry => descend children enter emit n entry.1 entry.2) = some outs ∧ result = before ++ outs.flatten := by
  induction n generalizing stack before with
  | zero => cases h
  | succ n ih =>
    cases stack with
    | nil =>
      cases h
      exact ⟨[], rfl, by simp⟩
    | cons entry stack =>
      obtain ⟨node, state⟩ := entry
      obtain ⟨outs, ho, rfl⟩ := ih h
      rw [List.mapM_append] at ho
      simp only [Option.bind_eq_bind, Option.bind_eq_some_iff, Option.pure_def, Option.some.injEq] at ho
      obtain ⟨low, hl, high, hh, rfl⟩ := ho
      rw [List.mapM_map] at hl
      have hnode : descend children enter emit (n + 1) node state = some (emit node (enter node state) ++ low.flatten) := by
        rw [descend, Option.map_eq_some_iff]
        exact ⟨low, hl, rfl⟩
      have hstack := mapM_some_mono (fun entry _ c hc => descend_mono (Nat.le_succ n) hc) hh
      refine ⟨(emit node (enter node state) ++ low.flatten) :: high, ?_, ?_⟩
      · simp only [List.mapM_cons, Option.bind_eq_bind, Option.bind_eq_some_iff, Option.pure_def, Option.some.injEq]
        exact ⟨_, hnode, high, hstack, rfl⟩
      · simp

/-- A node is done in bounded walks only. -/
theorem boundedBy_of_descend {n : Nat} {node : ν} {state : σ} {out : List β}
    (h : descend children enter emit n node state = some out) : BoundedBy children n node := by
  induction n generalizing node state out with
  | zero => cases h
  | succ n ih =>
    rw [descend, Option.map_eq_some_iff] at h
    obtain ⟨outs, ho, -⟩ := h
    intro path hp
    cases path with
    | nil => exact Nat.zero_le _
    | cons i path =>
      obtain ⟨last, hl⟩ := Option.isSome_iff_exists.1 hp
      obtain ⟨child, hc, hl⟩ := follow_cons_eq_some.1 hl
      obtain ⟨o, -, hd⟩ := exists_of_mapM_eq_some ho (List.mem_of_getElem? hc)
      exact Nat.succ_le_succ (ih hd path (by rw [hl]; rfl))

/-- A node whose walks are bounded is done. -/
theorem exists_descend {n : Nat} {node : ν} (h : BoundedBy children n node) (state : σ) :
    ∃ out, descend children enter emit (n + 1) node state = some out := by
  induction n generalizing node state with
  | zero =>
    have hnone : children node = [] := by
      cases hc : children node with
      | nil => rfl
      | cons child rest =>
        have := h [0] (by rw [follow, hc]; rfl)
        simp at this
    exact ⟨_, by rw [descend, hnone]; rfl⟩
  | succ n ih =>
    have hall : ∀ child ∈ children node, ∃ out, descend children enter emit (n + 1) child (enter node state) = some out := by
      intro child hc
      obtain ⟨i, hi⟩ := List.mem_iff_getElem?.1 hc
      refine ih (fun path hp => ?_) _
      have := h (i :: path) (by rw [follow, hi]; exact hp)
      exact Nat.le_of_succ_le_succ this
    obtain ⟨outs, ho⟩ := exists_mapM_eq_some hall
    exact ⟨_, by rw [descend, ho]; rfl⟩

/-- A walk with its first edge moved on by one place. -/
def shift : List Nat → List Nat
  | [] => []
  | i :: path => (i + 1) :: path

theorem shift_injective : Function.Injective shift := by
  intro p q h
  cases p with
  | nil =>
    cases q with
    | nil => rfl
    | cons j q => cases h
  | cons i p =>
    cases q with
    | nil => cases h
    | cons j q =>
      simp only [shift, List.cons.injEq, Nat.add_right_cancel_iff] at h
      rw [h.1, h.2]

/-- Walks into the nodes of a list, from those into each of them. -/
theorem exists_walks_below {state : σ} {f : ν → Option (List β)} {l : List ν} {outs : List (List β)} (ho : l.mapM f = some outs)
    (hf : ∀ child ∈ l, ∀ out, f child = some out → ∃ walks : List (List Nat), walks.Nodup ∧
      (∀ path, path ∈ walks ↔ (follow children child path).isSome) ∧ out = walks.flatMap (atEnd children enter emit child state)) :
    ∃ walks : List (List Nat), walks.Nodup ∧
      (∀ path, path ∈ walks ↔ ∃ i child rest, path = i :: rest ∧ l[i]? = some child ∧ (follow children child rest).isSome) ∧
      outs.flatten = walks.flatMap (below children enter emit l state) := by
  induction l generalizing outs with
  | nil =>
    cases ho
    exact ⟨[], List.nodup_nil, by simp, rfl⟩
  | cons child l ih =>
    simp only [List.mapM_cons, Option.bind_eq_bind, Option.bind_eq_some_iff, Option.pure_def, Option.some.injEq] at ho
    obtain ⟨out, hout, outs, houts, rfl⟩ := ho
    obtain ⟨first, hfd, hfm, rfl⟩ := hf child List.mem_cons_self out hout
    obtain ⟨others, hod, hom, hoo⟩ := ih houts fun c hc => hf c (List.mem_cons_of_mem child hc)
    refine ⟨first.map (0 :: ·) ++ others.map shift, ?_, fun path => ?_, ?_⟩
    · refine List.nodup_append.2 ⟨hfd.map (List.cons_injective), hod.map shift_injective, ?_⟩
      intro p hp q hq heq
      obtain ⟨low, -, rfl⟩ := List.mem_map.1 hp
      obtain ⟨high, hhigh, rfl⟩ := List.mem_map.1 hq
      obtain ⟨i, _, rest, rfl, -⟩ := (hom high).1 hhigh
      cases heq
    · rw [List.mem_append, List.mem_map, List.mem_map]
      constructor
      · intro h
        rcases h with ⟨p, hp, rfl⟩ | ⟨q, hq, rfl⟩
        · exact ⟨0, child, p, rfl, rfl, (hfm p).1 hp⟩
        · obtain ⟨i, c, rest, rfl, hi, hs⟩ := (hom q).1 hq
          exact ⟨i + 1, c, rest, rfl, hi, hs⟩
      · rintro ⟨i, c, rest, rfl, hi, hs⟩
        cases i with
        | zero =>
          cases hi
          exact .inl ⟨rest, (hfm rest).2 hs, rfl⟩
        | succ i => exact .inr ⟨i :: rest, (hom _).2 ⟨i, c, rest, rfl, hi, hs⟩, rfl⟩
    · rw [List.flatten_cons, hoo, List.flatMap_append, List.flatMap_map, List.flatMap_map]
      congr 1
      refine List.flatMap_congr fun q hq => ?_
      obtain ⟨i, c, rest, rfl, -⟩ := (hom q).1 hq
      rfl

/-- What a node gives is what the walks from it give, each once. -/
theorem exists_walks_of_descend {n : Nat} {node : ν} {state : σ} {out : List β} (h : descend children enter emit n node state = some out) :
    ∃ walks : List (List Nat), walks.Nodup ∧ (∀ path, path ∈ walks ↔ (follow children node path).isSome) ∧
      out = walks.flatMap (atEnd children enter emit node state) := by
  induction n generalizing node state out with
  | zero => cases h
  | succ n ih =>
    rw [descend, Option.map_eq_some_iff] at h
    obtain ⟨outs, ho, rfl⟩ := h
    obtain ⟨walks, hd, hm, hw⟩ := exists_walks_below ho fun child _ out hc => ih hc
    refine ⟨[] :: walks, List.nodup_cons.2 ⟨fun hnil => ?_, hd⟩, fun path => ?_, ?_⟩
    · obtain ⟨_, _, _, he, -⟩ := (hm []).1 hnil
      cases he
    · cases path with
      | nil => simp [follow]
      | cons i path =>
        rw [List.mem_cons, hm]
        constructor
        · intro h
          rcases h with h | ⟨j, child, rest, he, hj, hs⟩
          · cases h
          · cases he
            rw [follow, hj]
            exact hs
        · intro hs
          obtain ⟨last, hl⟩ := Option.isSome_iff_exists.1 hs
          obtain ⟨child, hc, hl⟩ := follow_cons_eq_some.1 hl
          exact .inr ⟨i, child, path, rfl, hc, by rw [hl]; rfl⟩
    · rw [List.flatMap_cons, hw]
      congr 1
      refine List.flatMap_congr fun path hp => ?_
      obtain ⟨i, child, rest, rfl, -⟩ := (hm path).1 hp
      rfl

/-- What is given at the end of a walk is what its last node gives, with the state of all that it comes through. -/
theorem atEnd_of_along {node last : ν} {state : σ} {path : List Nat} {nodes : List ν} (h : along children node path = some nodes)
    (hl : nodes.getLast? = some last) :
    atEnd children enter emit node state path = emit last (nodes.foldl (fun s v => enter v s) state) := by
  induction path generalizing node state nodes with
  | nil =>
    cases h
    cases hl
    rfl
  | cons i path ih =>
    obtain ⟨child, rest, hc, hr, rfl⟩ := along_cons_eq_some.1 h
    have hlast : rest.getLast? = some last := by
      obtain ⟨v, rest, rfl⟩ := List.exists_cons_of_length_pos (l := rest) (by rw [length_along hr]; omega)
      rwa [List.getLast?_cons_cons] at hl
    rw [atEnd, hc, List.foldl_cons]
    exact ih hr hlast

/-- A visit from some nodes comes to an end exactly when all walks from them are bounded, whatever the states. -/
theorem exists_visit {n : Nat} {nodes : List ν} (h : ∀ node ∈ nodes, BoundedBy children n node) (state : σ) :
    ∃ k out, visit children enter emit k (nodes.map (·, state)) [] = some out := by
  obtain ⟨outs, ho⟩ := exists_mapM_eq_some fun node hn => @exists_descend _ children _ _ enter emit _ _ (h node hn) state
  obtain ⟨k, hk⟩ := exists_visit_of_mapM ho fun node _ out hd => exists_visit_of_descend hd
  refine ⟨k + 1, outs.flatten, ?_⟩
  have := hk 1 [] []
  rwa [List.append_nil] at this

/-- What a visit from distinct nodes gives is what the walks from them give, each once. -/
theorem exists_places_of_visit {n : Nat} {nodes : List ν} (hd : nodes.Nodup) {state : σ} {out : List β}
    (h : visit children enter emit n (nodes.map (·, state)) [] = some out) : (∀ node ∈ nodes, BoundedBy children n node) ∧
    ∃ places : List (ν × List Nat), places.Nodup ∧
      (∀ node path, (node, path) ∈ places ↔ node ∈ nodes ∧ (follow children node path).isSome) ∧
      out = places.flatMap fun place => atEnd children enter emit place.1 state place.2 := by
  obtain ⟨outs, ho, rfl⟩ := descend_of_visit h
  rw [List.mapM_map] at ho
  refine ⟨fun node hn => ?_, ?_⟩
  · obtain ⟨o, -, hdesc⟩ := exists_of_mapM_eq_some ho hn
    exact boundedBy_of_descend hdesc
  · clear h
    induction nodes generalizing outs with
    | nil =>
      cases ho
      exact ⟨[], List.nodup_nil, by simp, rfl⟩
    | cons node nodes ih =>
      simp only [List.mapM_cons, Option.bind_eq_bind, Option.bind_eq_some_iff, Option.pure_def, Option.some.injEq] at ho
      obtain ⟨o, hnode, os, hos, rfl⟩ := ho
      obtain ⟨hnot, hd⟩ := List.nodup_cons.1 hd
      obtain ⟨walks, hwd, hwm, rfl⟩ := exists_walks_of_descend hnode
      obtain ⟨places, hpd, hpm, hpo⟩ := ih hd os hos
      refine ⟨walks.map (node, ·) ++ places, ?_, fun v path => ?_, ?_⟩
      · refine List.nodup_append.2 ⟨hwd.map (Prod.mk_right_injective node), hpd, ?_⟩
        intro p hp q hq heq
        obtain ⟨path, -, rfl⟩ := List.mem_map.1 hp
        subst heq
        exact hnot ((hpm node path).1 hq).1
      · rw [List.mem_append, hpm, List.mem_map, List.mem_cons]
        constructor
        · intro h
          rcases h with ⟨p, hp, he⟩ | ⟨hv, hs⟩
          · cases he
            exact ⟨.inl rfl, (hwm path).1 hp⟩
          · exact ⟨.inr hv, hs⟩
        · rintro ⟨hv, hs⟩
          rcases hv with rfl | hv
          · exact .inl ⟨path, (hwm path).2 hs, rfl⟩
          · exact .inr ⟨hv, hs⟩
      · rw [List.nil_append] at hpo ⊢
        rw [List.flatten_cons, hpo, List.flatMap_append, List.flatMap_map]

end Visit

end Walks
