import Fram.Lib.Breadth
import Fram.Lib.Walks
import Fram.ProgramInspection

/-!
# The walks of program inspection

The walk of `derive-block` is a depth-first visit without a set of seen nodes; the loop of `trace-nodes` is a breadth-first search.
-/

namespace Fram

namespace ProgramInspection

open Lines (Text)
open Walks (follow along visit BoundedBy Acyclic)

variable {ν : Type} [DecidableEq ν] {V : Values ν} {block : Block ν}

/-! ## The children and roots of a block -/

/-- A node's children are the objects of its child facts, in order. -/
theorem childrenOf_eq (triples : List (Triple ν)) (node : ν) :
    childrenOf V triples node = (triples.filter fun t => t.predicate = V.text "child".toList ∧ t.subject = node).map (·.object) := by
  induction triples using List.reverseRecOn with
  | nil => rfl
  | append_singleton triples t ih =>
    rw [childrenOf, List.foldl_concat, List.filter_append, List.map_append, ← ih, ← childrenOf]
    by_cases hp : t.predicate = V.text "child".toList
    · rw [if_pos hp]
      by_cases hs : t.subject = node
      · rw [← hs, Function.update_self]
        simp [hp]
      · rw [Function.update_of_ne (Ne.symm hs)]
        simp [hs]
    · rw [if_neg hp, List.filter_cons_of_neg (by simp only [decide_eq_true_eq]; exact fun h => hp h.1)]
      simp

theorem mem_childrenOf {triples : List (Triple ν)} {node child : ν} :
    child ∈ childrenOf V triples node ↔ ⟨node, V.text "child".toList, child⟩ ∈ triples := by
  simp only [childrenOf_eq, List.mem_map, List.mem_filter, decide_eq_true_eq]
  constructor
  · rintro ⟨t, ⟨hm, hp, hs⟩, rfl⟩
    rw [← hp, ← hs]
    exact hm
  · intro hm
    exact ⟨_, ⟨hm, rfl, rfl⟩, rfl⟩

theorem nodup_rootsOf (triples : List (Triple ν)) : (rootsOf V triples).Nodup :=
  ((List.perm_insertionSort _ _).nodup_iff.2 (List.nodup_dedup _)).filter _

/-- All nodes that a walk from a root may come through. -/
def reachable (V : Values ν) (triples : List (Triple ν)) : List ν := rootsOf V triples ++ triples.map (·.object)

theorem boundedBy_of_acyclic {triples : List (Triple ν)} (h : ∀ root ∈ rootsOf V triples, Acyclic (childrenOf V triples) root) :
    ∃ n, ∀ root ∈ rootsOf V triples, BoundedBy (childrenOf V triples) n root := by
  refine ⟨(reachable V triples).length, fun root hr => (h root hr).boundedBy (List.mem_append_left _ hr) fun v child hc => ?_⟩
  exact List.mem_append_right _ (List.mem_map.2 ⟨_, mem_childrenOf.1 hc, rfl⟩)

/-! ## The mentions of a block -/

/-- The walk of `derive-block` is a visit. -/
theorem mentionsLoop_eq_visit (fuel : Nat) (stack : List (ν × Option ν)) (result : List (Mention ν)) :
    mentionsLoop V block fuel stack result =
      visit (childrenOf V block.triples) (ownerBelow V block) (mentionAt V block) fuel stack result := by
  induction fuel generalizing stack result with
  | zero => rfl
  | succ fuel ih =>
    cases stack with
    | nil => rfl
    | cons entry stack =>
      obtain ⟨node, owner⟩ := entry
      exact ih _ _

/-- Nodes that are no definitions leave the owner. -/
theorem owner_foldl_of_not_isDefn {nodes : List ν} (h : ∀ v ∈ nodes, ¬isDefn V block v) (owner : Option ν) :
    nodes.foldl (fun o v => ownerBelow V block v o) owner = owner := by
  induction nodes with
  | nil => rfl
  | cons v nodes ih =>
    rw [List.forall_mem_cons] at h
    rw [List.foldl_cons, ownerBelow, if_neg h.1, ih h.2]

/-- The owner of what is below some nodes is the last definition among them. -/
theorem owner_foldl_append {d : ν} {high : List ν} (hd : isDefn V block d) (hhigh : ∀ v ∈ high, ¬isDefn V block v) (low : List ν)
    (owner : Option ν) : (low ++ d :: high).foldl (fun o v => ownerBelow V block v o) owner = some d := by
  rw [List.foldl_append, List.foldl_cons, owner_foldl_of_not_isDefn hhigh, ownerBelow, if_pos hd]

/-- Among some nodes there is a last definition, or none. -/
theorem exists_last_defn (nodes : List ν) :
    (∃ low d high, nodes = low ++ d :: high ∧ isDefn V block d ∧ ∀ v ∈ high, ¬isDefn V block v) ∨ ∀ v ∈ nodes, ¬isDefn V block v := by
  induction nodes using List.reverseRecOn with
  | nil => exact .inr (by simp)
  | append_singleton nodes v ih =>
    by_cases hv : isDefn V block v
    · exact .inl ⟨nodes, v, [], rfl, hv, by simp⟩
    · rcases ih with ⟨low, d, high, rfl, hd, hhigh⟩ | hnone
      · refine .inl ⟨low, d, high ++ [v], by simp, hd, ?_⟩
        rw [List.forall_mem_append, List.forall_mem_singleton]
        exact ⟨hhigh, hv⟩
      · refine .inr ?_
        rw [List.forall_mem_append, List.forall_mem_singleton]
        exact ⟨hnone, hv⟩

/-- A call of a name. -/
def IsCall (V : Values ν) (block : Block ν) (node name : ν) : Prop :=
  indexBy V "form-kind".toList block.triples node = some (V.text "call".toList) ∧ indexBy V "calls".toList block.triples node = some name

theorem mentionAt_some {node name d : ν} (h : IsCall V block node name) (hd : V.truthy d) :
    mentionAt V block node (some d) = [⟨⟨block.file, d⟩, name, ⟨block.file, node, .reference⟩⟩] := by
  unfold mentionAt
  rw [h.2]
  exact if_pos ⟨hd, h.1⟩

theorem mentionAt_none (node : ν) : mentionAt V block node none = [] := rfl

/-- What is mentioned at a node is a call there, by an owner that is neither nil nor false. -/
theorem isCall_of_mem_mentionAt {node : ν} {owner : Option ν} {mention : Mention ν} (h : mention ∈ mentionAt V block node owner) :
    mention.anchor.nodeId = node ∧ IsCall V block node mention.callName ∧
      ∃ d, owner = some d ∧ V.truthy d ∧ mention.callerKey = ⟨block.file, d⟩ := by
  unfold mentionAt at h
  split at h
  · rename_i d name hname
    split at h
    · rename_i hcall
      rw [List.mem_singleton.1 h]
      exact ⟨rfl, ⟨hcall.2, hname⟩, d, rfl, hcall.1, rfl⟩
    · cases h
  · cases h

/-- An owner that is nil or false makes no mention. -/
theorem mentionAt_of_not_truthy {d : ν} (hd : ¬V.truthy d) (node : ν) : mentionAt V block node (some d) = [] := by
  rw [List.eq_nil_iff_forall_not_mem]
  intro mention hm
  obtain ⟨-, -, e, he, ht, -⟩ := isCall_of_mem_mentionAt hm
  cases he
  exact hd ht

/-! ## The trace along the references -/

theorem mem_arrange {keys : List (Key ν)} {key : Key ν} : key ∈ arrange V keys ↔ key ∈ keys := by
  rw [arrange, List.mem_insertionSort, List.mem_dedup]

theorem nodup_arrange (keys : List (Key ν)) : (arrange V keys).Nodup :=
  (List.perm_insertionSort _ _).nodup_iff.2 (List.nodup_dedup _)

/-- A reference leads from one key to another. -/
def Leads (program : Program ν) (direction : Direction) (a b : Key ν) : Prop := b ∈ program.related direction a

/-- The keys of a program's references. -/
def keysOf (program : Program ν) : List (Key ν) := program.references.map (·.callerKey) ++ program.references.map (·.calleeKey)

theorem mem_keysOf {program : Program ν} {direction : Direction} {a b : Key ν} (h : Leads program direction a b) : b ∈ keysOf program := by
  cases direction with
  | inbound => exact List.mem_append_left _ (List.map_subset _ (List.filter_subset_self _) h)
  | outbound => exact List.mem_append_right _ (List.map_subset _ (List.filter_subset_self _) h)

/-- The loop of `trace-nodes` is a search, and comes to an end. -/
theorem exists_search {program : Program ν} {direction : Direction} {maxDepth fuel : Nat} {seed : Key ν} {done queue : List (Key ν × Nat)}
    {visited : List (Key ν)} {result : List (Key ν × Nat)} (h : Breadth.Search (Leads program direction) seed maxDepth done queue)
    (hvisited : ∀ v, v ∈ visited ↔ ∃ d, (v, d) ∈ done ++ queue) (hresult : (seed, 0) :: result = done ++ queue)
    (hfuel : (keysOf program).length + 1 < fuel + done.length) :
    ∃ all, traceLoop V program direction maxDepth fuel queue visited result = some all ∧
      Breadth.Search (Leads program direction) seed maxDepth ((seed, 0) :: all) [] := by
  induction fuel generalizing done queue visited result with
  | zero =>
    have := h.length_le List.mem_cons_self fun a b hab => List.mem_cons_of_mem seed (mem_keysOf hab)
    rw [List.length_cons] at this
    omega
  | succ fuel ih =>
    cases queue with
    | nil =>
      rw [List.append_nil] at hresult
      exact ⟨result, rfl, hresult ▸ h⟩
    | cons entry remaining =>
      obtain ⟨node, depth⟩ := entry
      rw [traceLoop]
      generalize hnext : (if depth < maxDepth then arrange V ((program.related direction node).filter (· ∉ visited)) else []) = next
      have hnodup : next.Nodup := by
        rw [← hnext]
        split
        · exact nodup_arrange _
        · exact List.nodup_nil
      have hmem : ∀ v, v ∈ next ↔
          depth < maxDepth ∧ Leads program direction node v ∧ ∀ d, (v, d) ∉ done ++ (node, depth) :: remaining := by
        intro v
        rw [← hnext]
        split
        · rename_i hlt
          simp only [mem_arrange, List.mem_filter, decide_eq_true_eq, hvisited, not_exists, hlt, true_and]
          rfl
        · rename_i hlt
          simp [hlt]
      refine ih (h.step hnodup hmem) (fun v => ?_) ?_ ?_
      · rw [List.mem_append, hvisited]
        simp only [List.append_assoc, List.mem_append, List.mem_cons, List.not_mem_nil, or_false, List.mem_map, Prod.mk.injEq]
        constructor
        · rintro (⟨d, hd⟩ | hv)
          · exact ⟨d, by tauto⟩
          · exact ⟨depth + 1, by tauto⟩
        · rintro ⟨d, hd | hd | hd | ⟨w, hw, rfl, -⟩⟩
          · exact .inl ⟨d, .inl hd⟩
          · exact .inl ⟨d, .inr (.inl hd)⟩
          · exact .inl ⟨d, .inr (.inr hd)⟩
          · exact .inr hw
      · rw [← List.cons_append, hresult]
        simp
      · rw [List.length_append, List.length_singleton]
        omega

theorem traceLoop_mono {program : Program ν} {direction : Direction} {maxDepth n m : Nat} {queue : List (Key ν × Nat)}
    {visited : List (Key ν)} {result all : List (Key ν × Nat)} (hle : n ≤ m)
    (h : traceLoop V program direction maxDepth n queue visited result = some all) :
    traceLoop V program direction maxDepth m queue visited result = some all := by
  induction n generalizing m queue visited result with
  | zero => cases h
  | succ n ih =>
    obtain ⟨m, rfl⟩ := Nat.exists_eq_add_of_lt (Nat.lt_of_succ_le hle)
    cases queue with
    | nil => exact h
    | cons entry queue =>
      rw [traceLoop] at h ⊢
      exact ih (by omega) h

/-- What a trace with a bound of 64 steps returns. -/
def reached (V : Values ν) (program : Program ν) (direction : Direction) (seed : Key ν) : List (Key ν × Nat) :=
  (traceNodes V ((keysOf program).length + 2) program seed direction 64).getD []

theorem traceNodes_eq_reached (program : Program ν) (direction : Direction) (seed : Key ν) {fuel : Nat}
    (hfuel : (keysOf program).length + 2 ≤ fuel) : traceNodes V fuel program seed direction 64 = some (reached V program direction seed) := by
  obtain ⟨all, hall, -⟩ := @exists_search _ _ V program direction 64 ((keysOf program).length + 2) seed [] [(seed, 0)] [seed] [] .init
    (by simp) rfl (by simp)
  have hreached : reached V program direction seed = all := congrArg (Option.getD · []) hall
  rw [hreached]
  exact traceLoop_mono hfuel hall

/-! ## The keys of references -/

theorem exists_of_indexBy {predicate : Text} {triples : List (Triple ν)} {node object : ν}
    (h : indexBy V predicate triples node = some object) : ∃ t ∈ triples, t.predicate = V.text predicate ∧ t.subject = node := by
  induction triples using List.reverseRecOn with
  | nil => cases h
  | append_singleton triples t ih =>
    have hold : ∀ {u}, u ∈ triples → u ∈ triples ++ [t] := fun hu => List.mem_append_left _ hu
    rw [indexBy, List.foldl_concat, ← indexBy] at h
    by_cases hp : t.predicate = V.text predicate
    · rw [if_pos hp] at h
      by_cases hs : node = t.subject
      · exact ⟨t, by simp, hp, hs.symm⟩
      · rw [Function.update_of_ne hs] at h
        obtain ⟨u, hu, hup, hus⟩ := ih h
        exact ⟨u, hold hu, hup, hus⟩
    · rw [if_neg hp] at h
      obtain ⟨u, hu, hup, hus⟩ := ih h
      exact ⟨u, hold hu, hup, hus⟩

/-- A definition's node has a kind. -/
theorem mem_nodesOf_of_isDefn {node : ν} (h : isDefn V block node) : node ∈ nodesOf V block.triples := by
  obtain ⟨t, ht, hp, hs⟩ := exists_of_indexBy h
  rw [nodesOf, List.mem_insertionSort, List.mem_dedup, List.mem_map]
  exact ⟨t, List.mem_filter.2 ⟨ht, decide_eq_true hp⟩, hs⟩

/-- The owners that the walk carries are definitions, so those that make calls are. -/
theorem callers_mentionsLoop {fuel : Nat} {stack : List (ν × Option ν)} {result all : List (Mention ν)}
    (hstack : ∀ entry ∈ stack, ∀ d, entry.2 = some d → isDefn V block d)
    (hresult : ∀ mention ∈ result, ∃ d, isDefn V block d ∧ mention.callerKey = ⟨block.file, d⟩)
    (h : mentionsLoop V block fuel stack result = some all) :
    ∀ mention ∈ all, ∃ d, isDefn V block d ∧ mention.callerKey = ⟨block.file, d⟩ := by
  induction fuel generalizing stack result with
  | zero => cases h
  | succ fuel ih =>
    cases stack with
    | nil =>
      cases h
      exact hresult
    | cons entry stack =>
      obtain ⟨node, owner⟩ := entry
      have howner : ∀ d, ownerBelow V block node owner = some d → isDefn V block d := by
        intro d hd
        unfold ownerBelow at hd
        split at hd
        · rename_i hdefn
          cases hd
          exact hdefn
        · exact hstack _ List.mem_cons_self d hd
      refine ih (fun entry he d hd => ?_) (fun mention hm => ?_) h
      · rcases List.mem_append.1 he with he | he
        · obtain ⟨child, -, rfl⟩ := List.mem_map.1 he
          exact howner d hd
        · exact hstack entry (List.mem_cons_of_mem _ he) d hd
      · rcases List.mem_append.1 hm with hm | hm
        · exact hresult mention hm
        · obtain ⟨-, -, d, hd, -, hkey⟩ := isCall_of_mem_mentionAt hm
          exact ⟨d, howner d hd, hkey⟩

theorem exists_of_mem_mapM {α β : Type} {f : α → Option β} {l : List α} {bs : List β} (h : l.mapM f = some bs) {b : β} (hb : b ∈ bs) :
    ∃ a ∈ l, f a = some b := by
  induction l generalizing bs with
  | nil =>
    cases h
    cases hb
  | cons a l ih =>
    simp only [List.mapM_cons, Option.bind_eq_bind, Option.bind_eq_some_iff, Option.pure_def, Option.some.injEq] at h
    obtain ⟨c, hc, cs, hcs, rfl⟩ := h
    rcases List.mem_cons.1 hb with rfl | hb
    · exact ⟨a, List.mem_cons_self, hc⟩
    · obtain ⟨a', ha', hf⟩ := ih hcs hb
      exact ⟨a', List.mem_cons_of_mem a ha', hf⟩

/-- The callers of a derived block's mentions are its definitions. -/
theorem exists_caller {fuel : Nat} {derived : Derived ν} (h : deriveBlock V fuel block = some derived) {mention : Mention ν}
    (hm : mention ∈ derived.mentions) : ∃ definition ∈ derived.definitions, definition.key = mention.callerKey := by
  simp only [deriveBlock, Option.bind_eq_bind, Option.bind_eq_some_iff, Option.some.injEq] at h
  obtain ⟨mentions, hloop, rfl⟩ := h
  obtain ⟨d, hd, hkey⟩ := callers_mentionsLoop (by simp) (by simp) hloop mention hm
  refine ⟨definitionAt V block d, List.mem_map.2 ⟨d, List.mem_filter.2 ⟨mem_nodesOf_of_isDefn hd, decide_eq_true hd⟩, rfl⟩, ?_⟩
  rw [hkey]
  rfl

/-- A call is resolved to a definition. -/
theorem exists_callee {definitions : List (Definition ν)} {callerKey key : Key ν} {callName : ν}
    (h : resolveCall definitions callerKey callName = some key) : ∃ definition ∈ definitions, definition.key = key := by
  simp only [resolveCall] at h
  split at h
  · rename_i definition hl
    cases h
    have hm : definition ∈ (definitions.filter (·.name = callName)).filter (·.key.file = callerKey.file) := by simp [hl]
    exact ⟨definition, (List.mem_filter.1 (List.mem_filter.1 hm).1).1, rfl⟩
  · rename_i definition hc _
    cases h
    have hm : definition ∈ definitions.filter (·.name = callName) := by simp [hc]
    exact ⟨definition, (List.mem_filter.1 hm).1, rfl⟩
  · cases h

/-- The references of a program lead from definitions to definitions. -/
theorem exists_definitions {fuel : Nat} {blocks : List (Block ν)} {program : Program ν} (h : buildProgram V fuel blocks = some program)
    {reference : Reference ν} (hr : reference ∈ program.references) :
    (∃ definition ∈ program.definitions, definition.key = reference.callerKey) ∧
      ∃ definition ∈ program.definitions, definition.key = reference.calleeKey := by
  simp only [buildProgram, Option.bind_eq_bind, Option.bind_eq_some_iff, Option.some.injEq] at h
  obtain ⟨derived, hderived, rfl⟩ := h
  obtain ⟨mention, hm, hmap⟩ := List.mem_filterMap.1 hr
  obtain ⟨callee, hcallee, rfl⟩ := Option.map_eq_some_iff.1 hmap
  refine ⟨?_, exists_callee hcallee⟩
  obtain ⟨d, hd, hm⟩ := List.mem_flatMap.1 hm
  obtain ⟨block, -, hblock⟩ := exists_of_mem_mapM hderived hd
  obtain ⟨definition, hdef, hkey⟩ := exists_caller hblock hm
  exact ⟨definition, List.mem_flatMap.2 ⟨d, hd, hdef⟩, hkey⟩

/-- A key of one of a program's definitions has a definition. -/
theorem exists_definitionByKey {program : Program ν} {key : Key ν} (h : ∃ definition ∈ program.definitions, definition.key = key) :
    ∃ definition, program.definitionByKey key = some definition := by
  obtain ⟨definition, hd, rfl⟩ := h
  rw [← Option.isSome_iff_exists, Program.definitionByKey, List.find?_isSome]
  exact ⟨definition, List.mem_reverse.2 hd, by simp⟩

/-! ## Values of facts -/

/-- The values of facts that are nil, false, integers or texts. -/
inductive Value where
  | nil
  | boolFalse
  | integer (n : Nat)
  | text (text : Text)
  deriving DecidableEq

/-- What the program does with them. -/
def values : Values Value where
  text := .text
  text_injective := fun _ _ h => Value.text.inj h
  nil := .nil
  boolFalse := .boolFalse
  asInteger
    | .integer n => some n
    | _ => none
  prStr
    | .nil => "nil".toList
    | .boolFalse => "false".toList
    | .integer n => Nat.toDigits 10 n
    | .text text => '"' :: text ++ ['"']
  str
    | .nil => []
    | .boolFalse => "false".toList
    | .integer n => Nat.toDigits 10 n
    | .text text => text

/-- A fact about a kind. -/
def kindFact (node : Nat) (kind : String) : Triple Value := ⟨.integer node, .text "form-kind".toList, .text kind.toList⟩

end ProgramInspection

end Fram
