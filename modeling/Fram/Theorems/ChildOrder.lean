import Fram.Lemmas.ChildOrder

/-!
# The readers of a node's children

Two readers put a node's children in order: the resolver by `ord-cmp`, and the candidate transformer by the host's `compare` on parsed
vectors. They agree, and the resolver's order tells distinct positions apart, exactly when no tie is a mark, no position is spelled in
both ways, and of two paths of different lengths the shorter is always the smaller. The last fails after inserts that leave no room
between two numbers.
-/

namespace Fram

namespace ChildOrder

open Lines (Text)
open ExceptList (bind_eq_ok_iff)

variable {p tie root : Text} {fact : Fact}

/-- The position predicates of a node's facts. -/
def positions (facts : List Fact) (node : Text) : List Text := (children facts node).map (·.predicate)

/-- The two readers give the children of a node in one order, and no two distinct positions are equal in it. -/
def ReadersAgree (facts : List Fact) (node : Text) : Prop :=
  (∃ edges rows, orderedEdges facts node = .ok edges ∧ wrapForms facts node = .ok rows ∧ edges.map (·.fact) = rows.map (·.2)) ∧
  ∀ p ∈ positions facts node, ∀ q ∈ positions facts node, p ≠ q → ∀ x y, ordParse p = .ok (some x) → ordParse q = .ok (some y) →
    ordCmp x y ≠ .eq

/-- Of two of the node's paths of different lengths, the shorter is the smaller. -/
def ShorterFirst (facts : List Fact) (node : Text) : Prop :=
  ∀ p ∈ positions facts node, ∀ q ∈ positions facts node, ∀ x y, ordParse p = .ok (some x) → ordParse q = .ok (some y) →
    x.path.length < y.path.length → ordVeccmp x.path y.path = .lt

/-- Two distinct positions with one key are the two spellings of an index. -/
theorem Written.spellings {q : Text} (hp : Written p) (hq : Written q) (hne : p ≠ q) {x : OrdKey} (hx : ordParse p = .ok (some x))
    (hy : ordParse q = .ok (some x)) : ∃ index, p = flatStr index ∧ q = ordStr [(index + 1) * ORD_STEP] ['0'] ∨
      q = flatStr index ∧ p = ordStr [(index + 1) * ORD_STEP] ['0'] := by
  have hzero : Nat.toDigits 10 0 = ['0'] := rfl
  rcases hp.eq_of_key hx with hp | ⟨i, hp, hi⟩
  · rcases hq.eq_of_key hy with hq | ⟨j, hq, rfl⟩
    · exact absurd (hp.trans hq.symm) hne
    · exact ⟨j, .inr ⟨hq, by rw [hp, hzero]⟩⟩
  · subst hi
    rcases hq.eq_of_key hy with hq | ⟨j, hq, hj⟩
    · exact ⟨i, .inl ⟨hp, by rw [hq, hzero]⟩⟩
    · have hij : i = j := by
        simp only [OrdKey.mk.injEq, List.cons.injEq, and_true, ORD_STEP] at hj
        omega
      exact absurd (by rw [hp, hq, hij]) hne

variable {facts : List Fact} {node : Text}

theorem mem_positions : p ∈ positions facts node ↔ ∃ fact ∈ children facts node, fact.predicate = p := List.mem_map

/-- A row's position is one of the node's, and the resolver reads it as the row's key. -/
theorem position_of_mem_rowsOf (hw : ∀ fact ∈ children facts node, Written fact.predicate) {row : OrdKey × Fact}
    (h : row ∈ rowsOf facts node) : row.2.predicate ∈ positions facts node ∧ ordParse row.2.predicate = .ok (some row.1) := by
  obtain ⟨hm, hk⟩ := mem_rowsOf.1 h
  refine ⟨mem_positions.2 ⟨_, hm, rfl⟩, ?_⟩
  rcases (hw _ hm).readings with ⟨key, ho, -, -⟩ | ⟨ho, -, -⟩ | ⟨_, _, ho, -, -⟩
  all_goals
    rw [placeOf_eq ho] at hk
    rw [ho, hk]

/-- Each position that the resolver reads has its row. -/
theorem exists_row {key : OrdKey} (hp : p ∈ positions facts node) (hk : ordParse p = .ok (some key)) :
    ∃ fact, fact.predicate = p ∧ (key, fact) ∈ rowsOf facts node := by
  obtain ⟨fact, hm, rfl⟩ := mem_positions.1 hp
  exact ⟨fact, rfl, mem_rowsOf.2 ⟨hm, placeOf_eq hk⟩⟩

/-- When keys are distinct and shorter paths are smaller, the two comparisons order the node's rows alike. -/
theorem compare_iff (hw : ∀ fact ∈ children facts node, Written fact.predicate)
    (hflat : ∀ index, flatStr index ∈ positions facts node → ordStr [(index + 1) * ORD_STEP] ['0'] ∉ positions facts node)
    (hshort : ShorterFirst facts node) {x y : OrdKey × Fact} (hx : x ∈ rowsOf facts node) (hy : y ∈ rowsOf facts node) :
    (ordCmp x.1 y.1).isLE = true ↔ (compareEdges (toEdge x) (toEdge y)).isLE = true := by
  obtain ⟨hxp, hxk⟩ := position_of_mem_rowsOf hw hx
  obtain ⟨hyp, hyk⟩ := position_of_mem_rowsOf hw hy
  rcases Nat.lt_trichotomy x.1.path.length y.1.path.length with hl | hl | hl
  · rw [compareEdges_of_length_lt hl, ordCmp, hshort _ hxp _ hyp _ _ hxk hyk hl]
    simp
  · rw [compareEdges_of_length_eq hl]
    by_cases he : x.1 = y.1
    · have hpred : x.2.predicate = y.2.predicate := by
        by_contra hne
        rw [← he] at hyk
        obtain ⟨index, ⟨hi, hj⟩ | ⟨hi, hj⟩⟩ :=
          (hw _ (mem_rowsOf.1 hx).1).spellings (hw _ (mem_rowsOf.1 hy).1) hne hxk hyk
        · exact hflat index (hi ▸ hxp) (hj ▸ hyp)
        · exact hflat index (hi ▸ hyp) (hj ▸ hxp)
      have hc : ordCmp x.1 y.1 = .eq := ordCmp_eq_iff.2 he
      have hp : compare x.2.predicate y.2.predicate = .eq := Std.LawfulEqOrd.compare_eq_iff_eq.2 hpred
      rw [hc, hp]
      rfl
    · have hc : ordCmp x.1 y.1 ≠ .eq := fun h => he (ordCmp_eq_iff.1 h)
      cases h : ordCmp x.1 y.1 with
      | lt => rfl
      | gt => rfl
      | eq => exact absurd h hc
  · have hlt := hshort _ hyp _ hxp _ _ hyk hxk hl
    have hgt : ordCmp x.1 y.1 = .gt := by
      rw [Std.OrientedCmp.gt_iff_lt, ordCmp, hlt]
      rfl
    have hgt' : compareEdges (toEdge x) (toEdge y) = .gt := by
      rw [Std.OrientedCmp.gt_iff_lt, compareEdges_of_length_lt hl]
    rw [hgt, hgt']

/-- Then the transformer's reading is the resolver's. -/
theorem readings_eq (hw : ∀ fact ∈ children facts node, Written fact.predicate) (hmark : ∀ p ∈ positions facts node, ¬ Marked p)
    (hflat : ∀ index, flatStr index ∈ positions facts node → ordStr [(index + 1) * ORD_STEP] ['0'] ∉ positions facts node)
    (hshort : ShorterFirst facts node) : ReadersAgree facts node := by
  refine ⟨⟨_, _, orderedEdges_eq hw, wrapForms_eq hw, ?_⟩, ?_⟩
  · rw [edgesOf_eq_map hw fun fact hf => hmark _ (mem_positions.2 ⟨fact, hf, rfl⟩),
      ← List.map_insertionSort (fun x y : OrdKey × Fact => (ordCmp x.1 y.1).isLE = true) _ toEdge _
        fun x hx y hy => compare_iff hw hflat hshort hx hy, List.map_map]
    rfl
  · intro p hp q hq hne x y hx hy he
    obtain rfl := ordCmp_eq_iff.1 he
    obtain ⟨f, hf, rfl⟩ := mem_positions.1 hp
    obtain ⟨g, hg, rfl⟩ := mem_positions.1 hq
    obtain ⟨index, ⟨hi, hj⟩ | ⟨hi, hj⟩⟩ := (hw f hf).spellings (hw g hg) hne hx hy
    · exact hflat index (hi ▸ hp) (hj ▸ hq)
    · exact hflat index (hi ▸ hq) (hj ▸ hp)

/-- Readers that agree read no mark. -/
theorem not_marked_of_agree (hw : ∀ fact ∈ children facts node, Written fact.predicate) (h : ReadersAgree facts node) :
    ∀ p ∈ positions facts node, ¬ Marked p := by
  intro p hp hmark
  obtain ⟨fact, hf, rfl⟩ := mem_positions.1 hp
  obtain ⟨⟨edges, rows, he, hr, heq⟩, -⟩ := h
  rw [orderedEdges_eq hw, Except.ok.injEq] at he
  rw [wrapForms_eq hw, Except.ok.injEq] at hr
  subst he hr
  rcases (hw fact hf).readings with ⟨_, -, -, hn⟩ | ⟨-, -, hn⟩ | ⟨path, tie, ho, hk, -⟩
  · exact hn hmark
  · exact hn hmark
  · have hedge : Edge.mk ⟨path, .mark tie⟩ fact ∈ edgesOf facts node := mem_edgesOf.2 ⟨hf, positionOf_eq hk⟩
    have hm : fact ∈ ((edgesOf facts node).insertionSort fun x y => (compareEdges x y).isLE).map (·.fact) :=
      List.mem_map.2 ⟨_, (List.mem_insertionSort _).2 hedge, rfl⟩
    rw [heq] at hm
    obtain ⟨row, hrow, rfl⟩ := List.mem_map.1 hm
    have hplace := (mem_rowsOf.1 ((List.mem_insertionSort _).1 hrow)).2
    rw [placeOf_eq ho] at hplace
    cases hplace

/-- A row is its fact's. -/
theorem row_eq {x y : OrdKey × Fact} (hx : x ∈ rowsOf facts node) (hy : y ∈ rowsOf facts node) (h : x.2 = y.2) : x = y := by
  have hkx := (mem_rowsOf.1 hx).2
  have hky := (mem_rowsOf.1 hy).2
  rw [h, hky, Option.some.injEq] at hkx
  exact Prod.ext hkx.symm h

/-- Readers that agree find the shorter of two paths first. -/
theorem shorterFirst_of_agree (hw : ∀ fact ∈ children facts node, Written fact.predicate) (h : ReadersAgree facts node) :
    ShorterFirst facts node := by
  intro p hp q hq x y hx hy hlt
  have hmark := not_marked_of_agree hw h
  obtain ⟨⟨edges, rows, he, hr, heq⟩, -⟩ := h
  rw [orderedEdges_eq hw, Except.ok.injEq, edgesOf_eq_map hw fun fact hf => hmark _ (mem_positions.2 ⟨fact, hf, rfl⟩)] at he
  rw [wrapForms_eq hw, Except.ok.injEq] at hr
  obtain ⟨f, rfl, hf⟩ := exists_row hp hx
  obtain ⟨g, rfl, hg⟩ := exists_row hq hy
  have hmem : ∀ row, row ∈ rows ↔ row ∈ rowsOf facts node := by
    intro row
    rw [← hr, List.mem_insertionSort]
  have hedges : edges = rows.map toEdge := by
    refine @Comparison.eq_of_map_eq _ _ Edge.fact _ _ ?_ (by rw [heq, List.map_map]; rfl)
    intro a ha b hb hab
    rw [← he, List.mem_insertionSort] at ha
    obtain ⟨r, hr', rfl⟩ := List.mem_map.1 ha
    obtain ⟨s, hs, rfl⟩ := List.mem_map.1 hb
    rw [row_eq hr' ((hmem s).1 hs) hab]
  have hrows : rows.Pairwise fun x y => (ordCmp x.1 y.1).isLE = true := by
    rw [← hr]
    have := Comparison.comap ordCmp fun row : OrdKey × Fact => row.1
    exact Comparison.pairwise_insertionSort (fun x y : OrdKey × Fact => ordCmp x.1 y.1) _
  have hreads : rows.Pairwise fun x y => (compareEdges (toEdge x) (toEdge y)).isLE = true := by
    rw [← List.pairwise_map (f := toEdge) (R := fun x y => (compareEdges x y).isLE = true), ← hedges, ← he]
    exact Comparison.pairwise_insertionSort compareEdges _
  have hne : ((x, f) : OrdKey × Fact) ≠ (y, g) := by
    intro h
    rw [(Prod.mk.inj h).1] at hlt
    exact lt_irrefl _ hlt
  rcases Comparison.rel_or_rel (hrows.and hreads) ((hmem _).2 hf) ((hmem _).2 hg) hne with ⟨hle, -⟩ | ⟨-, hle⟩
  · rw [ordCmp] at hle
    cases hc : ordVeccmp x.path y.path with
    | lt => rfl
    | gt =>
      rw [hc] at hle
      cases hle
    | eq =>
      rw [ordVeccmp_eq_compare, Std.LawfulEqOrd.compare_eq_iff_eq] at hc
      rw [hc] at hlt
      exact absurd hlt (lt_irrefl _)
  · have : compareEdges (toEdge (y, g)) (toEdge (x, f)) = .gt := by
      rw [Std.OrientedCmp.gt_iff_lt, compareEdges_of_length_lt hlt]
    rw [this] at hle
    cases hle

theorem flatStr_ne_ordStr (index : Nat) (path : List Nat) (tie : Text) : flatStr index ≠ ordStr path tie := by
  intro h
  have := matchFlat_ordStr path tie
  rw [← h, matchFlat_flatStr] at this
  cases this

/-- A written index is one whose place is a long. -/
theorem long_of_written {index : Nat} (h : Written (flatStr index)) : (index + 1) * ORD_STEP ≤ maxLong := by
  generalize hp : flatStr index = p at h
  cases h with
  | tied hpath ht => exact absurd hp (flatStr_ne_ordStr _ _ _)
  | flat h =>
    rw [flatStr, flatStr, List.cons.injEq] at hp
    rw [Decimal.toDigits_injective hp.2]
    exact h

/-- No index of a node whose readers agree is spelled in both ways. -/
theorem one_spelling_of_agree (hw : ∀ fact ∈ children facts node, Written fact.predicate) (h : ReadersAgree facts node) (index : Nat)
    (hf : flatStr index ∈ positions facts node) : ordStr [(index + 1) * ORD_STEP] ['0'] ∉ positions facts node := by
  intro ho
  obtain ⟨fact, hm, hp⟩ := mem_positions.1 hf
  have hlong := long_of_written (hp ▸ hw fact hm)
  have hzero : ordParse (ordStr [(index + 1) * ORD_STEP] ['0']) = .ok (some ⟨[(index + 1) * ORD_STEP], 0⟩) :=
    @ordParse_ordStr 0 [(index + 1) * ORD_STEP] ⟨by simp, by simpa using hlong⟩ (by decide)
  exact h.2 _ hf _ ho (flatStr_ne_ordStr _ _ _) _ _ (ordParse_flatStr hlong) hzero (ordCmp_eq_iff.2 rfl)

/-! ## What the verbs write -/

/-- All of a node's positions are such as are written. -/
def AllWritten (facts : List Fact) (node : Text) : Prop := ∀ fact ∈ children facts node, Written fact.predicate

/-- The facts of a node after the edits that choose positions by reading it. An edit may have read the node in an earlier, or another,
state than the one it lands in, as concurrent edits do. -/
inductive Produced (node : Text) : List Fact → Prop where
  | minted {facts : List Fact} {count : Nat} (hc : count * ORD_STEP ≤ maxLong) (h : positions facts node = mintPositions count) :
      Produced node facts
  | listed {facts : List Fact} {count : Nat} (hc : count * ORD_STEP ≤ maxLong) (h : positions facts node = mintListPositions count) :
      Produced node facts
  | inserted {facts seen : List Fact} {anchor : Nat} {root tie : Text} {fact : Fact} (h : Produced node facts) (hs : Produced node seen)
      (ht : Ties tie) (hi : insertForm seen node anchor root tie = .ok (seen ++ [fact])) : Produced node (facts ++ [fact])
  | reordered {facts seen : List Fact} {mover tie : Text} {after : Option Text} {old fact : Fact} (h : Produced node facts)
      (hs : Produced node seen) (ht : Ties tie) (hr : reorder seen node mover after tie = .ok (seen.erase old ++ [fact])) :
      Produced node (facts.erase old ++ [fact])
  | replaced {facts seen : List Fact} {victim root tie : Text} {old fact : Fact} (h : Produced node facts) (hs : Produced node seen)
      (ht : Ties tie) (hu : upsertForm seen node (some victim) root tie = .ok (seen.erase old ++ [fact])) :
      Produced node (facts.erase old ++ [fact])
  | added {facts seen : List Fact} {root tie : Text} {fact : Fact} (h : Produced node facts) (hs : Produced node seen) (ht : Ties tie)
      (hu : upsertForm seen node none root tie = .ok (seen ++ [fact])) : Produced node (facts ++ [fact])

theorem AllWritten.append (hw : AllWritten facts node) (h : Written fact.predicate) : AllWritten (facts ++ [fact]) node := by
  intro f hf
  rw [children, List.filter_append, List.mem_append] at hf
  rcases hf with hf | hf
  · exact hw f hf
  · rw [List.mem_singleton.1 (List.mem_filter.1 hf).1]
    exact h

theorem AllWritten.erase (hw : AllWritten facts node) (old : Fact) : AllWritten (facts.erase old) node := by
  intro f hf
  obtain ⟨hm, hs⟩ := List.mem_filter.1 hf
  exact hw f (List.mem_filter.2 ⟨List.mem_of_mem_erase hm, hs⟩)

theorem allWritten_of_positions {ps : List Text} (h : positions facts node = ps) (hps : ∀ p ∈ ps, Written p) : AllWritten facts node :=
  fun fact hf => hps _ (h ▸ mem_positions.2 ⟨fact, hf, rfl⟩)

/-- For every node all of whose positions are such as the verbs and the minting of lists write, with ties or without, the transformer and
the resolver read its children in one order, total on distinct positions, exactly when no tie is a mark, no index is spelled in both
ways, and of two paths of different lengths the shorter is the smaller. -/
theorem child_readers {facts : List Fact} {node : Text} (hw : AllWritten facts node) : ReadersAgree facts node ↔
      (∀ p ∈ positions facts node, ¬ Marked p) ∧
      (∀ index, flatStr index ∈ positions facts node → ordStr [(index + 1) * ORD_STEP] ['0'] ∉ positions facts node) ∧
      ShorterFirst facts node := by
  constructor
  · intro h
    exact ⟨not_marked_of_agree hw h, one_spelling_of_agree hw h, shorterFirst_of_agree hw h⟩
  · rintro ⟨hmark, hflat, hshort⟩
    exact readings_eq hw hmark hflat hshort

/-- Two children, the second at a longer path below the first. -/
theorem child_readers_below : ReadersAgree [⟨"@m#1".toList, ordStr [65536] ['0'], "@m#2".toList⟩,
    ⟨"@m#1".toList, ordStr [65536, 65536] ['0'], "@m#3".toList⟩] "@m#1".toList := by
  have hone : Path [65536] := ⟨by simp, by decide⟩
  have htwo : Path [65536, 65536] := ⟨by simp, by decide⟩
  have hzero : ∀ {path}, Path path → ordParse (ordStr path ['0']) = .ok (some ⟨path, 0⟩) := fun hp =>
    @ordParse_ordStr 0 _ hp (by decide)
  have hpos : positions [⟨"@m#1".toList, ordStr [65536] ['0'], "@m#2".toList⟩,
      ⟨"@m#1".toList, ordStr [65536, 65536] ['0'], "@m#3".toList⟩] "@m#1".toList =
      [ordStr [65536] ['0'], ordStr [65536, 65536] ['0']] := by decide
  have hw : ∀ {path}, Path path → Written (ordStr path ['0']) := fun hp => .tied hp (@Ties.number 0 (by decide))
  refine (child_readers (allWritten_of_positions hpos ?_)).2 ?_
  · simp only [List.mem_cons, List.not_mem_nil, or_false, forall_eq_or_imp, forall_eq]
    exact ⟨hw hone, hw htwo⟩
  · rw [ShorterFirst, hpos]
    simp only [List.mem_cons, List.not_mem_nil, or_false, forall_eq_or_imp, forall_eq, hzero hone, hzero htwo]
    refine ⟨⟨not_marked_of_matchTied (matchTied_ordStr hone.nonempty (by decide)) rfl,
      not_marked_of_matchTied (matchTied_ordStr htwo.nonempty (by decide)) rfl⟩, ?_, ?_⟩
    · intro index h
      rcases h with h | h
      · exact absurd h (flatStr_ne_ordStr _ _ _)
      · exact absurd h (flatStr_ne_ordStr _ _ _)
    · refine ⟨⟨?_, ?_⟩, ?_, ?_⟩
      all_goals
        rintro x y ⟨⟩ ⟨⟩
        decide

/-- Insert forms after a node's second child, one after another. -/
def inserts (node : Text) : Nat → List Fact → Except Fault (List Fact)
  | 0, facts => .ok facts
  | n + 1, facts => do
    let next ← insertForm facts node 1 ("@m#".toList ++ Nat.toDigits 10 (n + 5)) ['0']
    inserts node n next

theorem insertForm_eq {anchor : Nat} {facts' : List Fact}
    (h : insertForm facts node anchor root tie = .ok facts') : ∃ fact, facts' = facts ++ [fact] := by
  simp only [insertForm, bind_eq_ok_iff] at h
  obtain ⟨rows, -, h⟩ := h
  split at h
  · cases h
  · simp only [bind_eq_ok_iff, Except.ok.injEq] at h
    obtain ⟨path, -, rfl⟩ := h
    exact ⟨_, rfl⟩

theorem Produced.inserts (h : Produced node facts) {n : Nat} {facts' : List Fact} (hi : inserts node n facts = .ok facts') :
    Produced node facts' := by
  induction n generalizing facts with
  | zero =>
    cases hi
    exact h
  | succ n ih =>
    simp only [ChildOrder.inserts, bind_eq_ok_iff] at hi
    obtain ⟨next, hn, hi⟩ := hi
    obtain ⟨fact, rfl⟩ := insertForm_eq hn
    exact ih (.inserted h h (@Ties.number 0 (by decide)) hn) hi

/-- The facts of a node minted with three children. -/
def mintedThree : List Fact :=
  (mintPositions 3).zipWith (⟨"@m#1".toList, ·, ·⟩) ["@m#2".toList, "@m#3".toList, "@m#4".toList]

/-- Seventeen inserts after the second child of a node halve the room before the third away: the last path is longer, and the resolver
reads it right after the second child, the transformer after all others. -/
theorem child_readers_apart : ∃ facts, Produced "@m#1".toList facts ∧ ¬ ReadersAgree facts "@m#1".toList := by
  have hrun : (do
      let facts ← inserts "@m#1".toList 17 mintedThree
      let edges ← orderedEdges facts "@m#1".toList
      let rows ← wrapForms facts "@m#1".toList
      .ok (decide (edges.map (·.fact) = rows.map (·.2))) : Except Fault Bool) = .ok false := by with_unfolding_all decide
  simp only [bind_eq_ok_iff, Except.ok.injEq, decide_eq_false_iff_not] at hrun
  obtain ⟨facts, hi, edges, he, rows, hr, hne⟩ := hrun
  have hstart : Produced "@m#1".toList mintedThree := @Produced.minted _ _ 3 (by decide) (by decide)
  refine ⟨facts, hstart.inserts hi, ?_⟩
  rintro ⟨⟨edges', rows', he', hr', heq⟩, -⟩
  rw [he, Except.ok.injEq] at he'
  rw [hr, Except.ok.injEq] at hr'
  subst he' hr'
  exact hne heq

end ChildOrder

end Fram
