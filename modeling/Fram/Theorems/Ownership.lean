import Fram.Lemmas.ProgramInspection

/-!
# Who owns a call, and what an edit reaches

The walk of `derive-block` has an end, and gives each call to its innermost definition once, exactly on the blocks whose child edges are
a forest where it matters. An owner is a node that is neither nil nor false. The trace along the references finds what is reached
whatever cycles there are.
-/

namespace Fram

namespace ProgramInspection

open Lines (Text)
open Walks (follow along visit BoundedBy Acyclic)

variable {ν : Type} [DecidableEq ν]

/-- A definition encloses a node: a walk from it leads there. -/
def Encloses (V : Values ν) (block : Block ν) (d node : ν) : Prop :=
  isDefn V block d ∧ ∃ path, follow (childrenOf V block.triples) d path = some node

/-- Between a definition and a node that it encloses there is no other definition. -/
def Innermost (V : Values ν) (block : Block ν) (d node : ν) : Prop :=
  isDefn V block d ∧ ∃ path nodes, along (childrenOf V block.triples) d path = some (d :: nodes) ∧
    (d :: nodes).getLast? = some node ∧ ∀ v ∈ nodes, ¬isDefn V block v

/-- The derivation of a block comes to an end, and its mentions are the calls below definitions, each once and with its innermost one. -/
def Attributed (V : Values ν) (block : Block ν) : Prop :=
  ∃ n derived, (∀ fuel, n ≤ fuel → deriveBlock V fuel block = some derived) ∧
    (∀ node name, IsCall V block node name → (∃ d, Encloses V block d node) →
      ∃ d, Innermost V block d node ∧
        derived.mentions.filter (·.anchor.nodeId = node) = [⟨⟨block.file, d⟩, name, ⟨block.file, node, .reference⟩⟩]) ∧
    ∀ mention ∈ derived.mentions, IsCall V block mention.anchor.nodeId mention.callName ∧
      ∃ d, Encloses V block d mention.anchor.nodeId

/-- A walk from a root leads to a node, and the last definition on it is at a node that is neither nil nor false. -/
def LeadsTo (V : Values ν) (block : Block ν) (node : ν) (place : ν × List Nat) : Prop :=
  place.1 ∈ rootsOf V block.triples ∧ ∃ low d high, along (childrenOf V block.triples) place.1 place.2 = some (low ++ d :: high) ∧
    (low ++ d :: high).getLast? = some node ∧ isDefn V block d ∧ (∀ v ∈ high, ¬isDefn V block v) ∧ V.truthy d

/-- No walk from a root comes back to a node, and to each call that a definition encloses one walk only leads from the roots whose last
definition is at a node that is neither nil nor false. -/
structure TreeLike (V : Values ν) (block : Block ν) : Prop where
  acyclic : ∀ root ∈ rootsOf V block.triples, Acyclic (childrenOf V block.triples) root
  single : ∀ node name, IsCall V block node name → (∃ d, Encloses V block d node) → ∃! place, LeadsTo V block node place

variable {V : Values ν} {block : Block ν}

theorem follow_of_along {node last : ν} {path : List Nat} {nodes : List ν} (h : along (childrenOf V block.triples) node path = some nodes)
    (hl : nodes.getLast? = some last) : follow (childrenOf V block.triples) node path = some last := Walks.follow_eq_some_iff.2 ⟨nodes, h, hl⟩

/-- A walk that leads to a node has an innermost definition, which is the owner at its end. -/
theorem LeadsTo.innermost {node : ν} {place : ν × List Nat} (h : LeadsTo V block node place) : ∃ d, Innermost V block d node ∧ V.truthy d ∧
      Walks.atEnd (childrenOf V block.triples) (ownerBelow V block) (mentionAt V block) place.1 none place.2 =
        mentionAt V block node (some d) := by
  obtain ⟨-, low, d, high, ha, hl, hd, hhigh, ht⟩ := h
  obtain ⟨rest, hrest⟩ := Walks.exists_along_of_append ha
  have hlast : (d :: high).getLast? = some node := by rwa [List.getLast?_append_cons] at hl
  exact ⟨d, ⟨hd, rest, high, hrest, hlast, hhigh⟩, ht, by rw [Walks.atEnd_of_along ha hl, owner_foldl_append hd hhigh]⟩

/-- What is given at the end of a walk from a root that does not lead to its last node is nothing. -/
theorem atEnd_eq_nil {node root : ν} {path : List Nat} (hroot : root ∈ rootsOf V block.triples)
    (hf : follow (childrenOf V block.triples) root path = some node) (h : ¬LeadsTo V block node (root, path)) :
    Walks.atEnd (childrenOf V block.triples) (ownerBelow V block) (mentionAt V block) root none path = [] := by
  obtain ⟨nodes, ha, hl⟩ := Walks.follow_eq_some_iff.1 hf
  rw [Walks.atEnd_of_along ha hl]
  rcases @exists_last_defn _ _ V block nodes with ⟨low, d, high, rfl, hd, hhigh⟩ | hnone
  · rw [owner_foldl_append hd hhigh]
    exact mentionAt_of_not_truthy (fun ht => h ⟨hroot, low, d, high, ha, hl, hd, hhigh, ht⟩) node
  · rw [owner_foldl_of_not_isDefn hnone, mentionAt_none]

/-- What a place gives of a node. -/
theorem filter_atEnd {node name : ν} (hcall : IsCall V block node name) {place : ν × List Nat} (hroot : place.1 ∈ rootsOf V block.triples)
    (hs : (follow (childrenOf V block.triples) place.1 place.2).isSome) : (LeadsTo V block node place → ∃ d, Innermost V block d node ∧
      (Walks.atEnd (childrenOf V block.triples) (ownerBelow V block) (mentionAt V block) place.1 none place.2).filter
        (·.anchor.nodeId = node) = [⟨⟨block.file, d⟩, name, ⟨block.file, node, .reference⟩⟩]) ∧
    (¬LeadsTo V block node place →
      (Walks.atEnd (childrenOf V block.triples) (ownerBelow V block) (mentionAt V block) place.1 none place.2).filter
        (·.anchor.nodeId = node) = []) := by
  constructor
  · intro hlead
    obtain ⟨d, hin, ht, hat⟩ := hlead.innermost
    refine ⟨d, hin, ?_⟩
    rw [hat, mentionAt_some hcall ht]
    simp
  · intro hlead
    obtain ⟨last, hl⟩ := Option.isSome_iff_exists.1 hs
    by_cases hlast : last = node
    · subst hlast
      rw [atEnd_eq_nil hroot hl hlead]
      rfl
    · obtain ⟨nodes, ha, hn⟩ := Walks.follow_eq_some_iff.1 hl
      rw [Walks.atEnd_of_along ha hn, List.filter_eq_nil_iff]
      intro mention hm
      have := (isCall_of_mem_mentionAt hm).1
      simpa [this] using hlast

/-- What is given at one place only is all that is given. -/
theorem flatMap_eq_of_forall_ne {α β : Type} {g : α → List β} {l : List α} (hd : l.Nodup) {a : α} (ha : a ∈ l)
    (h : ∀ b ∈ l, b ≠ a → g b = []) : l.flatMap g = g a := by
  induction l with
  | nil => cases ha
  | cons c l ih =>
    obtain ⟨hnot, hd⟩ := List.nodup_cons.1 hd
    rw [List.flatMap_cons]
    by_cases hc : c = a
    · subst hc
      have hrest : l.flatMap g = [] := by
        rw [List.flatMap_eq_nil_iff]
        intro b hb
        refine h b (List.mem_cons_of_mem c hb) ?_
        rintro rfl
        exact hnot hb
      rw [hrest, List.append_nil]
    · have hmem : a ∈ l := (List.mem_cons.1 ha).resolve_left (Ne.symm hc)
      rw [h c List.mem_cons_self hc, List.nil_append]
      exact ih hd hmem fun b hb => h b (List.mem_cons_of_mem c hb)

/-- Places that both give something are one place when a single value is given. -/
theorem eq_of_flatMap_eq_singleton {α β : Type} {g : α → List β} {l : List α} {x : β} (h : l.flatMap g = [x]) {a b : α} (ha : a ∈ l)
    (hb : b ∈ l) (hga : g a ≠ []) (hgb : g b ≠ []) : a = b := by
  induction l with
  | nil => cases ha
  | cons c l ih =>
    rw [List.flatMap_cons] at h
    have hin : ∀ e ∈ l, g e ≠ [] → l.flatMap g ≠ [] := fun e he hne hnil => hne (List.flatMap_eq_nil_iff.1 hnil e he)
    rcases List.append_eq_singleton_iff.1 h with ⟨hc, hl⟩ | ⟨hc, hl⟩
    · have hmem : ∀ e ∈ c :: l, g e ≠ [] → e ∈ l := by
        intro e he hne
        rcases List.mem_cons.1 he with he | he
        · exact absurd (he ▸ hc) hne
        · exact he
      exact ih hl (hmem a ha hga) (hmem b hb hgb)
    · have hmem : ∀ e ∈ c :: l, g e ≠ [] → e = c := by
        intro e he hne
        rcases List.mem_cons.1 he with he | he
        · exact he
        · exact absurd hl (hin e he hne)
      exact (hmem a ha hga).trans (hmem b hb hgb).symm

/-- The derivation of a block comes to an end when no walk from a root comes back. -/
theorem exists_derived (h : ∀ root ∈ rootsOf V block.triples, Acyclic (childrenOf V block.triples) root) :
    ∃ n mentions, mentionsLoop V block n ((rootsOf V block.triples).map (·, none)) [] = some mentions := by
  obtain ⟨n, hn⟩ := boundedBy_of_acyclic h
  obtain ⟨k, out, hk⟩ := @Walks.exists_visit _ _ _ _ (ownerBelow V block) (mentionAt V block) n _ hn none
  exact ⟨k, out, by rw [mentionsLoop_eq_visit]; exact hk⟩

/-- The mentions of a block that is derived, place by place. -/
theorem exists_places {n : Nat} {mentions : List (Mention ν)}
    (h : mentionsLoop V block n ((rootsOf V block.triples).map (·, none)) [] = some mentions) :
    (∀ root ∈ rootsOf V block.triples, Acyclic (childrenOf V block.triples) root) ∧
    ∃ places : List (ν × List Nat), places.Nodup ∧
      (∀ place, place ∈ places ↔ place.1 ∈ rootsOf V block.triples ∧ (follow (childrenOf V block.triples) place.1 place.2).isSome) ∧
      mentions = places.flatMap fun place =>
        Walks.atEnd (childrenOf V block.triples) (ownerBelow V block) (mentionAt V block) place.1 none place.2 := by
  rw [mentionsLoop_eq_visit] at h
  obtain ⟨hbounded, places, hd, hm, hp⟩ := Walks.exists_places_of_visit (nodup_rootsOf block.triples) h
  exact ⟨fun root hr => (hbounded root hr).acyclic, places, hd, fun place => hm place.1 place.2, hp⟩

theorem LeadsTo.isSome {node : ν} {place : ν × List Nat} (h : LeadsTo V block node place) :
    (follow (childrenOf V block.triples) place.1 place.2).isSome := by
  obtain ⟨-, low, d, high, ha, hl, -⟩ := h
  rw [follow_of_along ha hl]
  rfl

/-- A block that is derived with each call given to its innermost definition once is like a forest. -/
theorem Attributed.treeLike (h : Attributed V block) : TreeLike V block := by
  obtain ⟨n, derived, hderive, hcalls, -⟩ := h
  have hd := hderive n le_rfl
  simp only [deriveBlock, Option.bind_eq_bind, Option.bind_eq_some_iff, Option.some.injEq] at hd
  obtain ⟨mentions, hloop, rfl⟩ := hd
  obtain ⟨hacyclic, places, hnodup, hmem, hmentions⟩ := exists_places hloop
  refine ⟨hacyclic, fun node name hcall hin => ?_⟩
  obtain ⟨d, -, hone⟩ := hcalls node name hcall hin
  simp only [hmentions, List.filter_flatMap] at hone
  have hgive : ∀ place, LeadsTo V block node place → place ∈ places ∧
      (Walks.atEnd (childrenOf V block.triples) (ownerBelow V block) (mentionAt V block) place.1 none place.2).filter
        (·.anchor.nodeId = node) ≠ [] := by
    intro place hlead
    obtain ⟨e, -, he⟩ := (filter_atEnd hcall hlead.1 hlead.isSome).1 hlead
    exact ⟨(hmem place).2 ⟨hlead.1, hlead.isSome⟩, by rw [he]; simp⟩
  have hsome : ∃ place, LeadsTo V block node place := by
    by_contra hno
    have hnil : places.flatMap (fun place =>
        (Walks.atEnd (childrenOf V block.triples) (ownerBelow V block) (mentionAt V block) place.1 none place.2).filter
          (·.anchor.nodeId = node)) = [] := by
      rw [List.flatMap_eq_nil_iff]
      intro place hp
      obtain ⟨hroot, hs⟩ := (hmem place).1 hp
      exact (filter_atEnd hcall hroot hs).2 fun hlead => hno ⟨place, hlead⟩
    rw [hnil] at hone
    cases hone
  obtain ⟨place, hlead⟩ := hsome
  refine ⟨place, hlead, fun other hother => ?_⟩
  exact eq_of_flatMap_eq_singleton hone (hgive other hother).1 (hgive place hlead).1 (hgive other hother).2 (hgive place hlead).2

/-- On a block that is like a forest the derivation gives each call to its innermost definition once. -/
theorem TreeLike.attributed (h : TreeLike V block) : Attributed V block := by
  obtain ⟨n, mentions, hloop⟩ := exists_derived h.acyclic
  obtain ⟨-, places, hnodup, hmem, hmentions⟩ := exists_places hloop
  have hderive : ∀ fuel, n ≤ fuel → deriveBlock V fuel block =
      some ⟨((nodesOf V block.triples).filter fun node => isDefn V block node).map (definitionAt V block), mentions⟩ := by
    intro fuel hf
    rw [mentionsLoop_eq_visit] at hloop
    rw [deriveBlock, mentionsLoop_eq_visit, Walks.visit_mono hf hloop]
    rfl
  refine ⟨n, _, hderive, fun node name hcall hin => ?_, fun mention hm => ?_⟩
  · obtain ⟨place, hlead, hunique⟩ := h.single node name hcall hin
    obtain ⟨d, hinner, hgive⟩ := (filter_atEnd hcall hlead.1 hlead.isSome).1 hlead
    refine ⟨d, hinner, ?_⟩
    simp only [hmentions, List.filter_flatMap]
    rw [← hgive]
    refine @flatMap_eq_of_forall_ne _ _ (fun place : ν × List Nat =>
      (Walks.atEnd (childrenOf V block.triples) (ownerBelow V block) (mentionAt V block) place.1 none place.2).filter
        (·.anchor.nodeId = node)) _ hnodup place ((hmem place).2 ⟨hlead.1, hlead.isSome⟩) fun other hother hne => ?_
    obtain ⟨hroot, hs⟩ := (hmem other).1 hother
    exact (filter_atEnd hcall hroot hs).2 fun hl => hne (hunique other hl)
  · simp only [hmentions, List.mem_flatMap] at hm
    obtain ⟨place, hp, hgive⟩ := hm
    obtain ⟨hroot, hs⟩ := (hmem place).1 hp
    obtain ⟨last, hl⟩ := Option.isSome_iff_exists.1 hs
    obtain ⟨nodes, ha, hn⟩ := Walks.follow_eq_some_iff.1 hl
    rw [Walks.atEnd_of_along ha hn] at hgive
    obtain ⟨hanchor, hcall, d, hd, -⟩ := isCall_of_mem_mentionAt hgive
    subst hanchor
    refine ⟨hcall, ?_⟩
    rcases @exists_last_defn _ _ V block nodes with ⟨low, e, high, rfl, he, -⟩ | hnone
    · obtain ⟨rest, hrest⟩ := Walks.exists_along_of_append ha
      rw [List.getLast?_append_cons] at hn
      exact ⟨e, he, rest, follow_of_along hrest hn⟩
    · rw [owner_foldl_of_not_isDefn hnone] at hd
      cases hd

/-- A block is derived with each call given to its innermost definition once exactly when it is like a forest. -/
theorem attributed_iff_treeLike : Attributed V block ↔ TreeLike V block := ⟨fun h => h.treeLike, fun h => h.attributed⟩

/-- What a trace returns: each key that references lead to in one step up to a bound, once, at its least number of steps. -/
def TracesExactly (V : Values ν) (program : Program ν) (seed : Key ν) (direction : Direction) (maxDepth : Nat) : Prop :=
  ∃ n result, (∀ fuel, n ≤ fuel → traceNodes V fuel program seed direction maxDepth = some result) ∧ (result.map (·.1)).Nodup ∧
    ∀ key depth, (key, depth) ∈ result ↔
      1 ≤ depth ∧ depth ≤ maxDepth ∧ Breadth.LeastSteps (Leads program direction) depth seed key

/-- The trace is exact whatever cycles the references have. -/
theorem tracesExactly (V : Values ν) (program : Program ν) (seed : Key ν) (direction : Direction) (maxDepth : Nat) :
    TracesExactly V program seed direction maxDepth := by
  obtain ⟨result, htrace, hsearch⟩ := @exists_search _ _ V program direction maxDepth ((keysOf program).length + 2) seed [] [(seed, 0)]
    [seed] [] .init (by simp) rfl (by simp)
  have hnodup := hsearch.nodup
  rw [List.append_nil, List.map_cons, List.nodup_cons] at hnodup
  refine ⟨_, result, fun fuel hf => traceLoop_mono hf htrace, hnodup.2, fun key depth => ?_⟩
  have hmem := @Breadth.Search.mem_iff _ _ _ _ _ hsearch depth key
  constructor
  · intro hm
    obtain ⟨hle, hleast⟩ := hmem.1 (List.mem_cons_of_mem _ hm)
    refine ⟨?_, hle, hleast⟩
    by_contra hzero
    obtain rfl : depth = 0 := by omega
    cases hleast.1
    exact hnodup.1 (List.mem_map.2 ⟨_, hm, rfl⟩)
  · rintro ⟨hpos, hle, hleast⟩
    rcases List.mem_cons.1 (hmem.2 ⟨hle, hleast⟩) with he | hm
    · cases he
      omega
    · exact hm

/-- What a trace in a program that was built returns has definitions. -/
theorem exists_traced_definition {fuel fuel' : Nat} {blocks : List (Block ν)} {program : Program ν}
    (hb : buildProgram V fuel blocks = some program) {seed : Key ν} {direction : Direction} {maxDepth : Nat} {result : List (Key ν × Nat)}
    (ht : traceNodes V fuel' program seed direction maxDepth = some result) {key : Key ν} {depth : Nat} (hm : (key, depth) ∈ result) :
    ∃ definition, program.definitionByKey key = some definition := by
  obtain ⟨n, exact, hexact, -, hmem⟩ := tracesExactly V program seed direction maxDepth
  have heq := (traceLoop_mono (le_max_left fuel' n) ht).symm.trans (hexact _ (le_max_right fuel' n))
  cases heq
  obtain ⟨hpos, -, hsteps, -⟩ := (hmem key depth).1 hm
  cases hsteps with
  | none => omega
  | more _ hr =>
    apply exists_definitionByKey
    cases direction with
    | inbound =>
      obtain ⟨reference, href, rfl⟩ := List.mem_map.1 hr
      exact (exists_definitions hb (List.mem_filter.1 href).1).1
    | outbound =>
      obtain ⟨reference, href, rfl⟩ := List.mem_map.1 hr
      exact (exists_definitions hb (List.mem_filter.1 href).1).2

/-- For every block the derivation comes to an end and gives each call to its innermost definition exactly once if and only if no walk
from a root comes back to a node and to each call that a definition encloses one walk only leads whose last definition is at a node that
is neither nil nor false; and for every program, definition, direction and bound the trace returns what is reached in one step up to the
bound, each once and at its least depth, and in a program that was built these are definitions. -/
theorem ownership_and_impact {ν : Type} [DecidableEq ν] (V : Values ν) : (∀ block, Attributed V block ↔ TreeLike V block) ∧
    (∀ program seed direction maxDepth, TracesExactly V program seed direction maxDepth) ∧
    ∀ fuel fuel' blocks program seed direction maxDepth result, buildProgram V fuel blocks = some program →
      traceNodes V fuel' program seed direction maxDepth = some result →
      ∀ key depth, (key, depth) ∈ result → ∃ definition, program.definitionByKey key = some definition :=
  ⟨fun _ => attributed_iff_treeLike, tracesExactly V, fun _ _ _ _ _ _ _ _ hb ht _ _ hm => exists_traced_definition hb ht hm⟩

/-- A child edge. -/
def childFact (node child : Nat) : Triple Value := ⟨.integer node, .text "child".toList, .integer child⟩

/-- A definition that calls another one below a sequence. -/
def callerBlock : Block Value where
  file := "src/a.bclj".toList
  triples := [kindFact 1 "defn", ⟨.integer 1, .text "name".toList, .text "alpha".toList⟩, kindFact 2 "seq", kindFact 3 "call",
    ⟨.integer 3, .text "calls".toList, .text "beta".toList⟩, childFact 1 2, childFact 2 3]
  lines := []

/-- The definition that it calls. -/
def calleeBlock : Block Value where
  file := "src/b.bclj".toList
  triples := [kindFact 1 "defn", ⟨.integer 1, .text "name".toList, .text "beta".toList⟩]
  lines := []

/-- The trace of the first definition returns the second. -/
theorem ownership_and_impact_two : ∃ program definition, buildProgram values 5 [callerBlock, calleeBlock] = some program ∧
    traceNodes values 4 program ⟨"src/a.bclj".toList, .integer 1⟩ .outbound 32 = some [(⟨"src/b.bclj".toList, .integer 1⟩, 1)] ∧
    program.definitionByKey ⟨"src/b.bclj".toList, .integer 1⟩ = some definition := by
  have hbuild : buildProgram values 5 [callerBlock, calleeBlock] =
      some ⟨[definitionAt values callerBlock (.integer 1), definitionAt values calleeBlock (.integer 1)],
        [⟨⟨"src/a.bclj".toList, .integer 1⟩, ⟨"src/b.bclj".toList, .integer 1⟩, ⟨"src/a.bclj".toList, .integer 3, .reference⟩⟩]⟩ := by
    with_unfolding_all decide
  have htrace : traceNodes values 4 ⟨[definitionAt values callerBlock (.integer 1), definitionAt values calleeBlock (.integer 1)],
        [⟨⟨"src/a.bclj".toList, .integer 1⟩, ⟨"src/b.bclj".toList, .integer 1⟩, ⟨"src/a.bclj".toList, .integer 3, .reference⟩⟩]⟩
      ⟨"src/a.bclj".toList, .integer 1⟩ .outbound 32 = some [(⟨"src/b.bclj".toList, .integer 1⟩, 1)] := by
    with_unfolding_all decide
  obtain ⟨definition, hd⟩ := (ownership_and_impact values).2.2 _ _ _ _ _ _ _ _ hbuild htrace _ _ (List.mem_singleton_self _)
  exact ⟨_, definition, hbuild, htrace, hd⟩

/-- One definition below which one call is reached by two child edges, and one below which a node is its own child. -/
def corpusText : Text := Lines.unlines ["@file src/a.bclj".toList, "[1 \"form-kind\" \"defn\"]".toList, "[2 \"form-kind\" \"call\"]".toList,
  "[2 \"calls\" \"alpha\"]".toList, "[1 \"child\" 2]".toList, "[1 \"child\" 2]".toList, "@file src/b.bclj".toList,
  "[1 \"form-kind\" \"defn\"]".toList, "[1 \"child\" 2]".toList, "[2 \"child\" 2]".toList]

/-- What the EDN reader makes of its lines. -/
def readLine (line : Text) : Reading Value :=
  if line = "[1 \"form-kind\" \"defn\"]".toList then .triple (kindFact 1 "defn")
  else if line = "[2 \"form-kind\" \"call\"]".toList then .triple (kindFact 2 "call")
  else if line = "[2 \"calls\" \"alpha\"]".toList then .triple ⟨.integer 2, .text "calls".toList, .text "alpha".toList⟩
  else if line = "[1 \"child\" 2]".toList then .triple (childFact 1 2)
  else if line = "[2 \"child\" 2]".toList then .triple (childFact 2 2)
  else .unreadable

/-- The first block of the corpus. -/
def sharedBlock : Block Value where
  file := "src/a.bclj".toList
  triples := [kindFact 1 "defn", kindFact 2 "call", ⟨.integer 2, .text "calls".toList, .text "alpha".toList⟩, childFact 1 2, childFact 1 2]
  lines := ["[1 \"form-kind\" \"defn\"]".toList, "[2 \"form-kind\" \"call\"]".toList, "[2 \"calls\" \"alpha\"]".toList,
    "[1 \"child\" 2]".toList, "[1 \"child\" 2]".toList]

/-- The second block of the corpus. -/
def cyclicBlock : Block Value where
  file := "src/b.bclj".toList
  triples := [kindFact 1 "defn", childFact 1 2, childFact 2 2]
  lines := ["[1 \"form-kind\" \"defn\"]".toList, "[1 \"child\" 2]".toList, "[2 \"child\" 2]".toList]

/-- A walk of the second block comes back to a node. -/
theorem not_acyclic_cyclicBlock : ¬∀ root ∈ rootsOf values cyclicBlock.triples, Acyclic (childrenOf values cyclicBlock.triples) root := by
  intro h
  have hroot : Value.integer 1 ∈ rootsOf values cyclicBlock.triples := by with_unfolding_all decide
  have halong : along (childrenOf values cyclicBlock.triples) (.integer 1) [0, 0] = some [.integer 1, .integer 2, .integer 2] := by
    with_unfolding_all decide
  exact absurd (h _ hroot _ _ halong) (by decide)

/-- The corpus is accepted; its first block gives one call to its definition twice, and the walk of its second has no end. -/
theorem ownership_apart : parseCorpus readLine corpusText = .ok ([sharedBlock, cyclicBlock], 0) ∧
    ¬Attributed values sharedBlock ∧ ¬Attributed values cyclicBlock ∧
    deriveBlock values 4 sharedBlock = some ⟨[definitionAt values sharedBlock (.integer 1)],
      List.replicate 2 ⟨⟨"src/a.bclj".toList, .integer 1⟩, .text "alpha".toList, ⟨"src/a.bclj".toList, .integer 2, .reference⟩⟩⟩ ∧
    ∀ fuel, deriveBlock values fuel cyclicBlock = none := by
  refine ⟨by with_unfolding_all decide, fun h => ?_, fun h => not_acyclic_cyclicBlock h.treeLike.acyclic,
    by with_unfolding_all decide, fun fuel => ?_⟩
  · have hroot : Value.integer 1 ∈ rootsOf values sharedBlock.triples := by with_unfolding_all decide
    have hcall : IsCall values sharedBlock (.integer 2) (.text "alpha".toList) := ⟨by with_unfolding_all decide, by with_unfolding_all decide⟩
    have hdefn : isDefn values sharedBlock (.integer 1) := by with_unfolding_all decide
    have hbelow : ∀ v ∈ [Value.integer 2], ¬isDefn values sharedBlock v := by with_unfolding_all decide
    have halong : ∀ i, i < 2 → along (childrenOf values sharedBlock.triples) (.integer 1) [i] = some [.integer 1, .integer 2] := by
      with_unfolding_all decide
    have hlead : ∀ i, i < 2 → LeadsTo values sharedBlock (.integer 2) (.integer 1, [i]) := fun i hi =>
      ⟨hroot, [], _, _, halong i hi, rfl, hdefn, hbelow, by decide⟩
    obtain ⟨place, -, hunique⟩ := h.treeLike.single _ _ hcall ⟨_, hdefn, [0], follow_of_along (halong 0 (by decide)) rfl⟩
    have h0 := hunique _ (hlead 0 (by decide))
    have h1 := hunique _ (hlead 1 (by decide))
    cases h0.trans h1.symm
  · rw [← Option.not_isSome_iff_eq_none, Option.isSome_iff_exists]
    rintro ⟨derived, hd⟩
    simp only [deriveBlock, Option.bind_eq_bind, Option.bind_eq_some_iff, Option.some.injEq] at hd
    obtain ⟨mentions, hloop, -⟩ := hd
    exact not_acyclic_cyclicBlock (exists_places hloop).1

end ProgramInspection

end Fram
