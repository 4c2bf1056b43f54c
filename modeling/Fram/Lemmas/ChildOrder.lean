import Fram.ChildOrder
import Fram.Lib.Sorting
import Fram.Lib.ExceptList

/-!
# Facts about the order of children

What each reader makes of a position that the verbs write, and the two comparisons as orders: `ord-cmp` is the lexicographic order of
path and tie, and the transformer's is that of the length of the path, the path, the tie and the predicate.
-/

namespace Fram

namespace ChildOrder

open Lines (Text)
open ExceptList (bind_eq_ok_iff)

variable {tie p node : Text} {n : Nat} {fact : Fact} {facts : List Fact}

/-! ## The spellings -/

theorem isDigits_toDigits (n : Nat) : isDigits (Nat.toDigits 10 n) = true := by
  have hne : Nat.toDigits 10 n ≠ [] := Nat.toDigits_ne_nil
  simp only [isDigits, Bool.and_eq_true, Bool.not_eq_true', List.isEmpty_eq_false_iff, List.all_eq_true]
  exact ⟨hne, fun c hc => Decimal.isDigit_toDigits hc⟩

theorem not_mem_of_isDigits {text : Text} {c : Char} (h : isDigits text = true) (hc : c.isDigit = false) : c ∉ text := by
  intro hm
  simp only [isDigits, Bool.and_eq_true, List.all_eq_true] at h
  rw [h.2 c hm] at hc
  cases hc

/-- The numbers of a path with dots between them hold no `~`. -/
theorem tilde_not_mem_path (path : List Nat) : '~' ∉ List.intercalate ['.'] (path.map (Nat.toDigits 10)) := by
  have hd : ∀ n : Nat, '~' ∉ Nat.toDigits 10 n := fun n => not_mem_of_isDigits (isDigits_toDigits n) rfl
  induction path with
  | nil => simp
  | cons n path ih =>
    rcases path.eq_nil_or_concat with rfl | ⟨front, last, rfl⟩
    · simpa using hd n
    · rw [List.map_cons, List.intercalate_cons_of_ne_nil (by simp)]
      intro h
      rcases List.mem_append.1 h with h | h
      · rcases List.mem_append.1 h with h | h
        · exact hd n h
        · simp at h
      · exact ih h

/-- A printed path and tie are read back. -/
theorem matchTied_ordStr {path : List Nat} (hne : path ≠ []) (ht : '~' ∉ tie) :
    matchTied (ordStr path tie) = some (path.map (Nat.toDigits 10), tie) := by
  have hrest : (List.intercalate ['.'] (path.map (Nat.toDigits 10)) ++ '~' :: tie).splitOn '~' =
      [List.intercalate ['.'] (path.map (Nat.toDigits 10)), tie] := by
    rw [List.splitOn_append_cons_self_of_not_mem (tilde_not_mem_path path), List.splitOn_eq_singleton ht]
  have hpath : (List.intercalate ['.'] (path.map (Nat.toDigits 10))).splitOn '.' = path.map (Nat.toDigits 10) := by
    refine List.splitOn_intercalate '.' ?_ (by simpa using hne)
    intro piece hp
    obtain ⟨n, -, rfl⟩ := List.mem_map.1 hp
    exact not_mem_of_isDigits (isDigits_toDigits n) rfl
  have hall : (path.map (Nat.toDigits 10)).all isDigits = true := by
    simp only [List.all_eq_true, List.mem_map]
    rintro _ ⟨n, -, rfl⟩
    exact isDigits_toDigits n
  simp only [ordStr, List.cons_append, matchTied, hrest, hpath, hall, if_true]

theorem matchFlat_ordStr (path : List Nat) (tie : Text) : matchFlat (ordStr path tie) = none := by
  have h : isDigits (List.intercalate ['.'] (path.map (Nat.toDigits 10)) ++ '~' :: tie) = false := by
    by_contra h
    exact not_mem_of_isDigits (by simpa using h) rfl (List.mem_append_right _ List.mem_cons_self)
  simp [ordStr, matchFlat, h]

theorem matchFlat_flatStr (index : Nat) : matchFlat (flatStr index) = some (Nat.toDigits 10 index) := by
  simp [flatStr, matchFlat, isDigits_toDigits]

theorem matchTied_flatStr (index : Nat) : matchTied (flatStr index) = none := by
  have h : '~' ∉ Nat.toDigits 10 index := not_mem_of_isDigits (isDigits_toDigits index) rfl
  simp [flatStr, matchTied, List.splitOn_eq_singleton h]

theorem parseLong_toDigits (h : n ≤ maxLong) : parseLong (Nat.toDigits 10 n) = some n := by
  simp [parseLong, Decimal.value_toDigits, h]

theorem digits_toDigits (h : n ≤ maxLong) : digits (Nat.toDigits 10 n) = n := by
  simp [digits, parseLong_toDigits h]

theorem map_digits {path : List Nat} (h : ∀ n ∈ path, n ≤ maxLong) : (path.map (Nat.toDigits 10)).map digits = path := by
  rw [List.map_map]
  exact (List.map_congr_left fun n hn => digits_toDigits (h n hn)).trans (List.map_id _)

theorem map_parseLong {path : List Nat} (h : ∀ n ∈ path, n ≤ maxLong) : (path.map (Nat.toDigits 10)).map parseLong = path.map some := by
  rw [List.map_map]
  exact List.map_congr_left fun n hn => parseLong_toDigits (h n hn)

theorem long_eq (h : n ≤ maxLong) : long n = .ok n := if_pos h

/-! ## The positions that are written -/

/-- A tie that a verb or a writer of its edges puts after a path: a long, a mark, or the mark that a capturing verb leaves. -/
inductive Ties : Text → Prop where
  | number {n : Nat} (h : n ≤ maxLong) : Ties (Nat.toDigits 10 n)
  | mark {text : Text} (h : isMark text = true) : Ties text
  | pending : Ties "PENDING".toList

/-- A path of longs. -/
structure Path (path : List Nat) : Prop where
  nonempty : path ≠ []
  longs : ∀ n ∈ path, n ≤ maxLong

/-- A position predicate that the verbs, the minting of lists and the candidate transformer write. -/
inductive Written : Text → Prop where
  | tied {path : List Nat} {tie : Text} (hp : Path path) (ht : Ties tie) : Written (ordStr path tie)
  | flat {index : Nat} (h : (index + 1) * ORD_STEP ≤ maxLong) : Written (flatStr index)

/-- The tie of a position is a mark. -/
def Marked (p : Text) : Prop := ∃ path tie, matchTied p = some (path, tie) ∧ isMark tie = true

theorem Ties.tilde (h : Ties tie) : '~' ∉ tie := by
  cases h with
  | number h => exact not_mem_of_isDigits (isDigits_toDigits _) rfl
  | mark h =>
    intro hm
    unfold isMark at h
    split at h
    · simp only [Bool.and_eq_true, List.all_eq_true] at h
      rcases List.mem_cons.1 hm with hm | hm
      · cases hm
      · have := h.2 _ hm
        revert this
        decide
    · cases h
  | pending => decide

theorem isDigits_of_isMark (h : isMark tie = true) : isDigits tie = false := by
  unfold isMark at h
  split at h
  · rfl
  · cases h

theorem not_marked_of_matchTied {path : List Text} (h : matchTied p = some (path, tie)) (hk : isMark tie = false) : ¬ Marked p := by
  rintro ⟨path', tie', he, hmark⟩
  rw [h, Option.some.injEq, Prod.mk.injEq] at he
  rw [← he.2, hk] at hmark
  cases hmark

/-- A tie that is a number is no mark. -/
theorem isMark_toDigits (n : Nat) : isMark (Nat.toDigits 10 n) = false := by
  by_contra h
  have := isDigits_of_isMark (by simpa using h)
  rw [isDigits_toDigits] at this
  cases this

/-- The key of a position, as the transformer has it. -/
def OrdKey.toPosition (key : OrdKey) : PositionKey := ⟨key.path.map some, .number (some key.tie)⟩

/-- A written position is read by both readers, or by neither, or its tie is a mark and the transformer alone reads it. -/
inductive Readings (p : Text) : Prop where
  | both (key : OrdKey) (ho : ordParse p = .ok (some key)) (hp : positionKey p = .ok (some key.toPosition)) (hm : ¬ Marked p)
  | neither (ho : ordParse p = .ok none) (hp : positionKey p = .ok none) (hm : ¬ Marked p)
  | marked (path : List (Option Nat)) (tie : Text) (ho : ordParse p = .ok none) (hp : positionKey p = .ok (some ⟨path, .mark tie⟩))
      (hm : Marked p)

theorem ordParse_ordStr {path : List Nat} (hp : Path path) (hn : n ≤ maxLong) :
    ordParse (ordStr path (Nat.toDigits 10 n)) = .ok (some ⟨path, n⟩) := by
  have ht := matchTied_ordStr hp.nonempty (Ties.number hn).tilde
  simp only [ordParse, ht, isDigits_toDigits, if_true, map_digits hp.longs, digits_toDigits hn]

theorem ordParse_flatStr {index : Nat} (h : (index + 1) * ORD_STEP ≤ maxLong) :
    ordParse (flatStr index) = .ok (some ⟨[(index + 1) * ORD_STEP], 0⟩) := by
  have hi : index + 1 ≤ maxLong := le_trans (Nat.le_mul_of_pos_right _ (by decide)) h
  have hd : digits (Nat.toDigits 10 index) = index := digits_toDigits (by omega)
  simp only [ordParse, matchTied_flatStr, matchFlat_flatStr, hd, bind_eq_ok_iff]
  exact ⟨_, long_eq hi, _, long_eq h, rfl⟩

/-- The resolver reads no position whose tie is no number. -/
theorem ordParse_of_matchTied {path : List Text} (h : matchTied p = some (path, tie))
    (hd : isDigits tie = false) : ordParse p = .ok none := by
  simp only [ordParse, h, hd, Bool.false_eq_true, if_false]

/-- A written position that the resolver reads is spelled by its key, or is an index. -/
theorem Written.eq_of_key (h : Written p) {key : OrdKey} (hk : ordParse p = .ok (some key)) :
    p = ordStr key.path (Nat.toDigits 10 key.tie) ∨ ∃ index, p = flatStr index ∧ key = ⟨[(index + 1) * ORD_STEP], 0⟩ := by
  cases h with
  | @tied path tie hp ht =>
    have hm := matchTied_ordStr hp.nonempty ht.tilde
    cases ht with
    | number hn =>
      rw [ordParse_ordStr hp hn] at hk
      cases hk
      exact .inl rfl
    | mark hmark =>
      rw [ordParse_of_matchTied hm (isDigits_of_isMark hmark)] at hk
      cases hk
    | pending =>
      rw [ordParse_of_matchTied hm (by decide)] at hk
      cases hk
  | @flat index h =>
    rw [ordParse_flatStr h] at hk
    cases hk
    exact .inr ⟨index, rfl, rfl⟩

/-- What the two readers make of a written position, by its kind. -/
theorem Written.readings (h : Written p) : Readings p := by
  cases h with
  | @tied path tie hp ht =>
    have hm := matchTied_ordStr hp.nonempty ht.tilde
    have hf := matchFlat_ordStr path tie
    cases ht with
    | @number n hn =>
      refine .both ⟨path, n⟩ (ordParse_ordStr hp hn) ?_ (not_marked_of_matchTied hm (isMark_toDigits n))
      simp only [positionKey, hf, hm, isDigits_toDigits, if_true, map_parseLong hp.longs, parseLong_toDigits hn, OrdKey.toPosition]
    | mark hmark =>
      have hd := isDigits_of_isMark hmark
      refine .marked (path.map some) tie (ordParse_of_matchTied hm hd) ?_ ⟨_, _, hm, hmark⟩
      simp only [positionKey, hf, hm, hd, hmark, Bool.false_eq_true, if_false, if_true, map_parseLong hp.longs]
    | pending =>
      have hd : isDigits "PENDING".toList = false := by decide
      have hk : isMark "PENDING".toList = false := by decide
      refine .neither (ordParse_of_matchTied hm hd) ?_ (not_marked_of_matchTied hm hk)
      simp only [positionKey, hf, hm, hd, hk, Bool.false_eq_true, if_false]
  | @flat index h =>
    have hi : index + 1 ≤ maxLong := le_trans (Nat.le_mul_of_pos_right _ (by decide)) h
    have hp : parseLong (Nat.toDigits 10 index) = some index := parseLong_toDigits (by omega)
    refine .both ⟨[(index + 1) * ORD_STEP], 0⟩ (ordParse_flatStr h) ?_ ?_
    · simp only [positionKey, matchFlat_flatStr, hp, bind_eq_ok_iff]
      exact ⟨_, long_eq hi, _, long_eq h, rfl⟩
    · rintro ⟨path, tie, he, -⟩
      rw [matchTied_flatStr] at he
      cases he

/-! ## The comparisons -/

theorem ordVeccmp_eq_compare (a b : List Nat) : ordVeccmp a b = compare a b := by
  induction a generalizing b with
  | nil => cases b <;> rfl
  | cons m a ih =>
    cases b with
    | nil => rfl
    | cons n b => rw [ordVeccmp, List.compare_cons_cons, ih]

theorem ordCmp_eq_compareLex : ordCmp = compareLex (compareOn OrdKey.path) (compareOn OrdKey.tie) := by
  funext x y
  simp only [ordCmp, ordVeccmp_eq_compare, compareLex, compareOn]

instance : Std.TransCmp ordCmp := by
  rw [ordCmp_eq_compareLex]
  infer_instance

/-- Two keys compare equal only when they are one. -/
theorem ordCmp_eq_iff {x y : OrdKey} : ordCmp x y = .eq ↔ x = y := by
  rw [ordCmp, ordVeccmp_eq_compare, Ordering.then_eq_eq, Std.LawfulEqOrd.compare_eq_iff_eq, Std.LawfulEqOrd.compare_eq_iff_eq]
  cases x
  cases y
  simp

theorem compareElements_eq_compare {a b : List (Option Nat)} (h : a.length = b.length) : compareElements a b = compare a b := by
  induction a generalizing b with
  | nil =>
    cases b with
    | nil => rfl
    | cons n b => cases h
  | cons m a ih =>
    cases b with
    | nil => cases h
    | cons n b => rw [compareElements, List.compare_cons_cons, ih (by simpa using h)]

theorem compareVectors_eq_compareLex : compareVectors = compareLex (compareOn List.length) compare := by
  funext a b
  simp only [compareVectors, compareLex, compareOn]
  by_cases h : a.length = b.length
  · rw [compareElements_eq_compare h]
  · have : compare a.length b.length ≠ .eq := by rwa [Ne, Std.LawfulEqOrd.compare_eq_iff_eq]
    cases hc : compare a.length b.length <;> simp_all

/-- A tie by its class, its number and its mark. -/
def Tie.parts : Tie → Nat × Option Nat × Text
  | .number n => (0, n, [])
  | .mark text => (1, none, text)

theorem compareTies_eq_compareLex : compareTies =
    compareLex (compareOn (·.parts.1)) (compareLex (compareOn (·.parts.2.1)) (compareOn (·.parts.2.2))) := by
  funext x y
  cases x <;> cases y
  · simp [compareTies, compareLex, compareOn, Tie.parts]
  · rfl
  · rfl
  · simp [compareTies, compareLex, compareOn, Tie.parts]

instance : Std.TransCmp compareVectors := by
  rw [compareVectors_eq_compareLex]
  infer_instance

instance : Std.TransCmp compareTies := by
  rw [compareTies_eq_compareLex]
  infer_instance

instance : Std.TransCmp compareEdges := by
  have := Comparison.comap compareVectors fun x : Edge => x.key.path
  have := Comparison.comap compareTies fun x : Edge => x.key.tie
  exact inferInstanceAs (Std.TransCmp (compareLex
    (compareLex (fun x y : Edge => compareVectors x.key.path y.key.path) fun x y : Edge => compareTies x.key.tie y.key.tie)
    (compareOn fun x : Edge => x.fact.predicate)))

/-! ## The readers -/

/-- The key that the resolver reads a fact's predicate as. -/
def placeOf (fact : Fact) : Option OrdKey :=
  match ordParse fact.predicate with
  | .ok key => key
  | .error _ => none

/-- The key that the transformer reads a fact's predicate as. -/
def positionOf (fact : Fact) : Option PositionKey :=
  match positionKey fact.predicate with
  | .ok key => key
  | .error _ => none

theorem placeOf_eq {key : Option OrdKey} (h : ordParse fact.predicate = .ok key) : placeOf fact = key := by
  rw [placeOf, h]

theorem positionOf_eq {key : Option PositionKey} (h : positionKey fact.predicate = .ok key) : positionOf fact = key := by
  rw [positionOf, h]

/-- The facts of a parent. -/
def children (facts : List Fact) (parent : Text) : List Fact := facts.filter (·.subject = parent)

/-- The rows of a parent's facts that the resolver reads. -/
def rowsOf (facts : List Fact) (parent : Text) : List (OrdKey × Fact) :=
  (children facts parent).filterMap fun fact => (placeOf fact).map (·, fact)

/-- The edges of a node's facts that the transformer reads. -/
def edgesOf (facts : List Fact) (node : Text) : List Edge :=
  (children facts node).filterMap fun fact => (positionOf fact).map (⟨·, fact⟩)

theorem mem_rowsOf {parent : Text} {row : OrdKey × Fact} :
    row ∈ rowsOf facts parent ↔ row.2 ∈ children facts parent ∧ placeOf row.2 = some row.1 := by
  obtain ⟨key, fact⟩ := row
  simp only [rowsOf, List.mem_filterMap, Option.map_eq_some_iff, Prod.mk.injEq]
  constructor
  · rintro ⟨_, hm, _, hk, rfl, rfl⟩
    exact ⟨hm, hk⟩
  · rintro ⟨hm, hk⟩
    exact ⟨fact, hm, key, hk, rfl, rfl⟩

theorem mem_edgesOf {edge : Edge} : edge ∈ edgesOf facts node ↔ edge.fact ∈ children facts node ∧ positionOf edge.fact = some edge.key := by
  obtain ⟨key, fact⟩ := edge
  simp only [edgesOf, List.mem_filterMap, Option.map_eq_some_iff, Edge.mk.injEq]
  constructor
  · rintro ⟨_, hm, _, hk, rfl, rfl⟩
    exact ⟨hm, hk⟩
  · rintro ⟨hm, hk⟩
    exact ⟨fact, hm, key, hk, rfl, rfl⟩

theorem wrapForms_eq {parent : Text} (h : ∀ fact ∈ children facts parent, Written fact.predicate) :
    wrapForms facts parent = .ok ((rowsOf facts parent).insertionSort fun x y => (ordCmp x.1 y.1).isLE) := by
  have hm : (children facts parent).mapM (fun fact => do
      let key ← ordParse fact.predicate
      .ok (key.map (·, fact))) = .ok ((children facts parent).map fun fact => (placeOf fact).map (·, fact)) := by
    refine ExceptList.mapM_eq_ok fun fact hf => ?_
    rw [bind_eq_ok_iff]
    rcases (h fact hf).readings with ⟨key, ho, -, -⟩ | ⟨ho, -, -⟩ | ⟨-, -, ho, -, -⟩
    · exact ⟨_, ho, by rw [placeOf_eq ho]⟩
    · exact ⟨_, ho, by rw [placeOf_eq ho]⟩
    · exact ⟨_, ho, by rw [placeOf_eq ho]⟩
  have hreduce (l : List (Option (OrdKey × Fact))) : l.reduceOption = l.filterMap id := rfl
  rw [wrapForms, bind_eq_ok_iff]
  refine ⟨_, hm, ?_⟩
  rw [hreduce, List.filterMap_map]
  rfl

theorem orderedEdges_eq (h : ∀ fact ∈ children facts node, Written fact.predicate) :
    orderedEdges facts node = .ok ((edgesOf facts node).insertionSort fun x y => (compareEdges x y).isLE) := by
  have hm : (children facts node).mapM (fun fact => do
      let key ← positionKey fact.predicate
      .ok (key.map (Edge.mk · fact))) = .ok ((children facts node).map fun fact => (positionOf fact).map (Edge.mk · fact)) := by
    refine ExceptList.mapM_eq_ok fun fact hf => ?_
    rw [bind_eq_ok_iff]
    rcases (h fact hf).readings with ⟨key, -, hp, -⟩ | ⟨-, hp, -⟩ | ⟨_, _, -, hp, -⟩
    · exact ⟨_, hp, by rw [positionOf_eq hp]⟩
    · exact ⟨_, hp, by rw [positionOf_eq hp]⟩
    · exact ⟨_, hp, by rw [positionOf_eq hp]⟩
  have hreduce (l : List (Option Edge)) : l.reduceOption = l.filterMap id := rfl
  rw [orderedEdges, bind_eq_ok_iff]
  refine ⟨_, hm, ?_⟩
  rw [hreduce, List.filterMap_map]
  rfl

/-- Without a mark the transformer reads what the resolver reads. -/
theorem positionOf_eq_map (h : Written fact.predicate) (hm : ¬ Marked fact.predicate) :
    positionOf fact = (placeOf fact).map OrdKey.toPosition := by
  rcases h.readings with ⟨key, ho, hp, -⟩ | ⟨ho, hp, -⟩ | ⟨-, -, -, -, hmark⟩
  · rw [placeOf_eq ho, positionOf_eq hp]
    rfl
  · rw [placeOf_eq ho, positionOf_eq hp]
    rfl
  · exact absurd hmark hm

/-- A row of the resolver's as an edge of the transformer's. -/
def toEdge (row : OrdKey × Fact) : Edge := ⟨row.1.toPosition, row.2⟩

theorem edgesOf_eq_map (h : ∀ fact ∈ children facts node, Written fact.predicate)
    (hm : ∀ fact ∈ children facts node, ¬ Marked fact.predicate) : edgesOf facts node = (rowsOf facts node).map toEdge := by
  rw [edgesOf, rowsOf, List.map_filterMap]
  refine List.filterMap_congr fun fact hf => ?_
  rw [positionOf_eq_map (h fact hf) (hm fact hf), Option.map_map, Option.map_map]
  rfl

/-! ## Comparing two edges -/

theorem compareElements_map_some (a b : List Nat) (h : a.length = b.length) :
    compareElements (a.map some) (b.map some) = ordVeccmp a b := by
  induction a generalizing b with
  | nil =>
    cases b with
    | nil => rfl
    | cons n b => cases h
  | cons m a ih =>
    cases b with
    | nil => cases h
    | cons n b =>
      rw [List.map_cons, List.map_cons, compareElements, ordVeccmp, ih b (by simpa using h)]
      rfl

/-- The transformer puts the longer path last. -/
theorem compareEdges_of_length_lt {x y : OrdKey × Fact} (h : x.1.path.length < y.1.path.length) :
    compareEdges (toEdge x) (toEdge y) = .lt := by
  have hl : compare x.1.path.length y.1.path.length = .lt := Nat.compare_eq_lt.2 h
  simp only [compareEdges, compareVectors, toEdge, OrdKey.toPosition, List.length_map, hl, Ordering.lt_then]

/-- On paths of one length the two comparisons are one, up to the predicates. -/
theorem compareEdges_of_length_eq {x y : OrdKey × Fact} (h : x.1.path.length = y.1.path.length) :
    compareEdges (toEdge x) (toEdge y) = (ordCmp x.1 y.1).then (compare x.2.predicate y.2.predicate) := by
  have hl : compare x.1.path.length y.1.path.length = .eq := Nat.compare_eq_eq.2 h
  simp only [compareEdges, compareVectors, compareTies, toEdge, OrdKey.toPosition, List.length_map, hl, Ordering.eq_then,
    compareElements_map_some _ _ h, ordCmp]
  rfl

end ChildOrder

end Fram
