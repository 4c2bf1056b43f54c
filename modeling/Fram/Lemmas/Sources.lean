import Fram.Lemmas.Join
import Fram.Lemmas.RowOrder

/-!
# What a candidate source presents

A source that is built row by row has an index that is exact (`Indexed`): a probe gives the handles of the rows that match it. So the
join through the source's handles finds the rows that the arguments may be, and no other handle.

The containment test looks a row up by its values, so it never finds the row that has none.
-/

namespace Fram

namespace Datalog

open Closing Query

variable {h handle : Nat} {trie : HandleTrie}

/-! ## Indexes -/

/-- The trie has the handle of each row of three values under these values in an order, and no other. -/
def TrieOf (trie : HandleTrie) (rows : List Tuple) (order : Term → Term → Term → List Term) : Prop :=
  ∀ wanted h, h ∈ trieProbe trie wanted ↔
    ∃ t1 t2 t3, rows[h]? = some [t1, t2, t3] ∧ Trie.matchesPrefix Term.eqv (order t1 t2 t3) wanted = true

/-- The buckets have the handle of each row under its values, and no other, except that a relation of triples keeps its rows of three
values in its tries. -/
def BucketsOf (relation : String) (positions : Nat → HandleBucket) (rows : List Tuple) : Prop :=
  ∀ i v h, h ∈ Trie.probe Term.eqv 1 (positions i) [v] ↔
    ∃ row, rows[h]? = some row ∧ ¬ (relation = tripleRelation ∧ row.length = 3) ∧ ∃ value, row[i]? = some value ∧ value.eqv v = true

/-- The source holds its rows itself, and its indexes are those of the rows. -/
structure Indexed (relation : String) (source : CandidateSource) : Prop where
  occurrence : source.occurrence = none
  rotation : source.rotation = none
  spo : relation = tripleRelation → TrieOf source.spo source.rows fun t1 t2 t3 => [t1, t2, t3]
  pos : relation = tripleRelation → TrieOf source.pos source.rows fun t1 t2 t3 => [t2, t3, t1]
  osp : relation = tripleRelation → TrieOf source.osp source.rows fun t1 t2 t3 => [t3, t1, t2]
  positions : BucketsOf relation source.positions source.rows

theorem getElem?_concat {α : Type} {rows : List α} {row r : α} :
    (rows ++ [row])[h]? = some r ↔ rows[h]? = some r ∨ (h = rows.length ∧ r = row) := by
  rcases Nat.lt_trichotomy h rows.length with hlt | heq | hgt
  · simp [List.getElem?_append_left hlt, hlt.ne]
  · subst heq
    simp [eq_comm]
  · simp [List.getElem?_append_right hgt.le, hgt.ne', Nat.sub_ne_zero_of_lt hgt, List.getElem?_eq_none hgt.le]

theorem eqv_symmetric (a b : Term) (h : a.eqv b = true) : b.eqv a = true := Term.eqv_symm h

theorem eqv_transitive (a b c : Term) (h : a.eqv b = true) (h' : b.eqv c = true) : a.eqv c = true := Term.eqv_trans h h'

theorem trieOf_nil (order : Term → Term → Term → List Term) : TrieOf (Trie.empty 3) [] order := by
  intro wanted h
  simp [trieProbe, Trie.mem_probe_empty]

/-- A trie with a row of three values added under the next handle. -/
theorem TrieOf.add {rows : List Tuple} {order : Term → Term → Term → List Term} (h : TrieOf trie rows order)
    (horder : ∀ t1 t2 t3, (order t1 t2 t3).length = 3) (t1 t2 t3 : Term) :
    TrieOf (Trie.add Term.eqv 3 trie (order t1 t2 t3) rows.length) (rows ++ [[t1, t2, t3]]) order := by
  intro wanted handle
  unfold trieProbe
  rw [Trie.mem_probe_add eqv_symmetric eqv_transitive trie (horder t1 t2 t3)]
  simp only [getElem?_concat]
  constructor
  · intro hm
    rcases hm with hm | ⟨rfl, hm⟩
    · obtain ⟨u1, u2, u3, hrow, hu⟩ := (h wanted handle).1 hm
      exact ⟨u1, u2, u3, Or.inl hrow, hu⟩
    · exact ⟨t1, t2, t3, Or.inr ⟨rfl, rfl⟩, hm⟩
  · intro hm
    obtain ⟨u1, u2, u3, hrow | ⟨rfl, hrow⟩, hu⟩ := hm
    · exact Or.inl ((h wanted handle).2 ⟨u1, u2, u3, hrow, hu⟩)
    · simp only [List.cons.injEq, and_true] at hrow
      obtain ⟨rfl, rfl, rfl⟩ := hrow
      exact Or.inr ⟨rfl, hu⟩

/-- A row of another length leaves the trie as it is. -/
theorem TrieOf.skip {rows : List Tuple} {order : Term → Term → Term → List Term} (h : TrieOf trie rows order)
    {row : Tuple} (hrow : row.length ≠ 3) : TrieOf trie (rows ++ [row]) order := by
  intro wanted handle
  rw [h wanted handle]
  simp only [getElem?_concat]
  constructor
  · intro hm
    obtain ⟨t1, t2, t3, hr, hw⟩ := hm
    exact ⟨t1, t2, t3, Or.inl hr, hw⟩
  · intro hm
    obtain ⟨t1, t2, t3, hr | ⟨-, hr⟩, hw⟩ := hm
    · exact ⟨t1, t2, t3, hr, hw⟩
    · exact absurd (by rw [← hr]; rfl) hrow

theorem mem_appendHandle {bucket : HandleBucket} {key v : Term} : h ∈ Trie.probe Term.eqv 1 (appendHandle bucket key handle) [v] ↔
      h ∈ Trie.probe Term.eqv 1 bucket [v] ∨ (h = handle ∧ key.eqv v = true) := by
  unfold appendHandle
  rw [Trie.mem_probe_add eqv_symmetric eqv_transitive bucket rfl]
  simp [Trie.matchesPrefix]

/-- The buckets after the values of a row were added from a position on. -/
theorem mem_addPositionHandles {values : Tuple} {start i : Nat} {index : Nat → HandleBucket} {v : Term} :
    h ∈ Trie.probe Term.eqv 1 (addPositionHandles handle values start index i) [v] ↔
      h ∈ Trie.probe Term.eqv 1 (index i) [v] ∨
        (h = handle ∧ ∃ j value, i = start + j ∧ values[j]? = some value ∧ value.eqv v = true) := by
  induction values generalizing start index with
  | nil => simp [addPositionHandles]
  | cons first values ih =>
    rw [addPositionHandles, ih]
    have hhere : (∃ j value, i = start + j ∧ (first :: values)[j]? = some value ∧ value.eqv v = true) ↔
        (i = start ∧ first.eqv v = true) ∨
          ∃ j value, i = start + 1 + j ∧ values[j]? = some value ∧ value.eqv v = true := by
      constructor
      · intro hj
        obtain ⟨j, value, hi, hval, hv⟩ := hj
        cases j with
        | zero => exact Or.inl ⟨hi, by simpa [← Option.some.inj hval] using hv⟩
        | succ j => exact Or.inr ⟨j, value, by omega, by simpa using hval, hv⟩
      · intro hj
        rcases hj with ⟨rfl, hv⟩ | ⟨j, value, hi, hval, hv⟩
        · exact ⟨0, first, rfl, rfl, hv⟩
        · exact ⟨j + 1, value, by omega, by simpa using hval, hv⟩
    rw [hhere]
    by_cases hi : i = start
    · subst hi
      rw [Function.update_self, mem_appendHandle]
      tauto
    · rw [Function.update_of_ne hi]
      simp [hi]

theorem BucketsOf.add {relation : String} {positions : Nat → HandleBucket} {rows : List Tuple}
    (h : BucketsOf relation positions rows) {row : Tuple} (hrow : ¬ (relation = tripleRelation ∧ row.length = 3)) :
    BucketsOf relation (addPositionHandles rows.length row 0 positions) (rows ++ [row]) := by
  intro i v handle
  rw [mem_addPositionHandles, h i v handle]
  simp only [getElem?_concat, Nat.zero_add]
  constructor
  · intro hm
    rcases hm with ⟨r, hr, hne, hv⟩ | ⟨rfl, j, value, rfl, hval, hv⟩
    · exact ⟨r, Or.inl hr, hne, hv⟩
    · exact ⟨row, Or.inr ⟨rfl, rfl⟩, hrow, value, hval, hv⟩
  · intro hm
    obtain ⟨r, hr | ⟨rfl, rfl⟩, hne, value, hval, hv⟩ := hm
    · exact Or.inl ⟨r, hr, hne, value, hval, hv⟩
    · exact Or.inr ⟨rfl, i, value, rfl, hval, hv⟩

theorem BucketsOf.skip {relation : String} {positions : Nat → HandleBucket} {rows : List Tuple}
    (h : BucketsOf relation positions rows) {row : Tuple} (hrow : relation = tripleRelation ∧ row.length = 3) :
    BucketsOf relation positions (rows ++ [row]) := by
  intro i v handle
  rw [h i v handle]
  simp only [getElem?_concat]
  constructor
  · intro hm
    obtain ⟨r, hr, hrest⟩ := hm
    exact ⟨r, Or.inl hr, hrest⟩
  · intro hm
    obtain ⟨r, hr | ⟨-, rfl⟩, hne, hv⟩ := hm
    · exact ⟨r, hr, hne, hv⟩
    · exact absurd hrow hne

theorem indexed_empty (relation : String) : Indexed relation emptyCandidateSource where
  occurrence := rfl
  rotation := rfl
  spo _ := trieOf_nil _
  pos _ := trieOf_nil _
  osp _ := trieOf_nil _
  positions i v h := by simp [emptyCandidateSource, Trie.mem_probe_empty]

/-- A row of a relation of triples goes to the tries. -/
theorem candidateSourceAdd_triple (source : CandidateSource) (t1 t2 t3 : Term) : candidateSourceAdd tripleRelation source [t1, t2, t3] =
      { source with
        rows := source.rows ++ [[t1, t2, t3]]
        spo := trieAdd source.spo t1 t2 t3 source.rows.length
        pos := trieAdd source.pos t2 t3 t1 source.rows.length
        osp := trieAdd source.osp t3 t1 t2 source.rows.length } := rfl

/-- Any other row goes to the buckets of its positions. -/
theorem candidateSourceAdd_positions {relation : String} (source : CandidateSource) {row : Tuple}
    (hrow : ¬ (relation = tripleRelation ∧ row.length = 3)) : candidateSourceAdd relation source row =
      { source with
        rows := source.rows ++ [row]
        positions := addPositionHandles source.rows.length row 0 source.positions } := by
  unfold candidateSourceAdd
  split
  · rename_i t1 t2 t3
    rw [if_neg fun h => hrow ⟨h, rfl⟩]
  · rfl

theorem rows_candidateSourceAdd (relation : String) (source : CandidateSource) (row : Tuple) :
    (candidateSourceAdd relation source row).rows = source.rows ++ [row] := by
  unfold candidateSourceAdd
  split
  · split <;> rfl
  · rfl

theorem Indexed.add {relation : String} {source : CandidateSource} (h : Indexed relation source) (row : Tuple) :
    Indexed relation (candidateSourceAdd relation source row) := by
  by_cases hrow : relation = tripleRelation ∧ row.length = 3
  · obtain ⟨rfl, hlen⟩ := hrow
    obtain ⟨t1, t2, t3, rfl⟩ := List.length_eq_three.1 hlen
    rw [candidateSourceAdd_triple]
    exact ⟨h.occurrence, h.rotation, fun hr => (h.spo hr).add (fun _ _ _ => rfl) t1 t2 t3,
      fun hr => (h.pos hr).add (fun _ _ _ => rfl) t1 t2 t3, fun hr => (h.osp hr).add (fun _ _ _ => rfl) t1 t2 t3,
      h.positions.skip ⟨rfl, rfl⟩⟩
  · rw [candidateSourceAdd_positions source hrow]
    exact ⟨h.occurrence, h.rotation, fun hr => (h.spo hr).skip fun hl => hrow ⟨hr, hl⟩,
      fun hr => (h.pos hr).skip fun hl => hrow ⟨hr, hl⟩, fun hr => (h.osp hr).skip fun hl => hrow ⟨hr, hl⟩, h.positions.add hrow⟩

theorem Indexed.addRows {relation : String} {source : CandidateSource} (h : Indexed relation source) (rows : List Tuple) :
    Indexed relation (candidateSourceAddRows relation source rows) := by
  induction rows generalizing source with
  | nil => exact h
  | cons row rows ih => exact ih (h.add row)

theorem rows_candidateSourceAddRows (relation : String) (source : CandidateSource) (rows : List Tuple) :
    (candidateSourceAddRows relation source rows).rows = source.rows ++ rows := by
  induction rows generalizing source with
  | nil => simp [candidateSourceAddRows]
  | cons row rows ih =>
    have hstep : candidateSourceAddRows relation source (row :: rows) =
        candidateSourceAddRows relation (candidateSourceAdd relation source row) rows := rfl
    rw [hstep, ih, rows_candidateSourceAdd, List.append_assoc]
    rfl

/-! ## Handles -/

section Handles

variable {arguments : List QueryTerm} {θ : Substitution} {relation : String} {source : CandidateSource}

/-- The handles are of rows, and every row that the arguments may be is among them. -/
structure Narrows (source : CandidateSource) (arguments : List QueryTerm) (θ : Substitution) (handles : List Nat) : Prop where
  valid : ∀ h ∈ handles, ∃ row, source.rows[h]? = some row
  complete : ∀ h row θ', source.rows[h]? = some row → unifyArguments arguments row θ = some θ' → h ∈ handles

/-- What a lookup of handles gives: handles that narrow the rows, or nothing when no argument is bound. -/
structure Selects (source : CandidateSource) (arguments : List QueryTerm) (θ : Substitution) (found : Option (List Nat)) : Prop where
  narrows : ∀ handles, found = some handles → Narrows source arguments θ handles ∧ arguments ≠ []
  unbound : found = none → ∀ term ∈ arguments, termValue term θ = none

/-- The bound values at some positions match the values of every row that the arguments may be. -/
theorem boundPrefix_ok {order : List Nat} (h : ∀ i ∈ order, i < arguments.length) : ∃ found, boundPrefix arguments θ order = .ok found ∧
      (found = [] → ∀ i term, order.head? = some i → arguments[i]? = some term → termValue term θ = none) ∧
      ∀ row θ' keys, unifyRow arguments row θ = some θ' → List.Forall₂ (fun (i : Nat) key => row[i]? = some key) order keys →
        Trie.matchesPrefix Term.eqv keys found = true := by
  induction order with
  | nil =>
    refine ⟨[], rfl, fun _ i term hi => ?_, fun row θ' keys _ hkeys => ?_⟩
    · cases hi
    · cases hkeys
      rfl
  | cons i order ih =>
    rw [List.forall_mem_cons] at h
    obtain ⟨found, hfound, -, hmatch⟩ := ih h.2
    have hterm : arguments[i]? = some arguments[i] := List.getElem?_eq_getElem h.1
    cases hv : termValue arguments[i] θ with
    | none =>
      refine ⟨[], ?_, fun _ j term hj hjterm => ?_, fun row θ' keys _ hkeys => ?_⟩
      · simp only [boundPrefix, nth, hterm, bind, Except.bind, hv]
        rfl
      · cases hj
        rw [hterm] at hjterm
        cases hjterm
        exact hv
      · cases hkeys
        rfl
    | some value =>
      refine ⟨value :: found, ?_, fun hnil => absurd hnil (by simp), fun row θ' keys hu hkeys => ?_⟩
      · simp only [boundPrefix, nth, hterm, bind, Except.bind, hv, hfound]
        rfl
      · cases hkeys with
        | cons hkey hrest =>
          have heqv : value.eqv _ = true := unifyRow_value hu hterm hv hkey
          simp [Trie.matchesPrefix, Term.eqv_symm heqv, hmatch row θ' _ hu hrest]

theorem unifyArguments_eq_some {row : Tuple} {θ' : Substitution} (h : unifyArguments arguments row θ = some θ') :
    arguments.length = row.length ∧ unifyRow arguments row θ = some θ' := by
  unfold unifyArguments at h
  split at h
  · rename_i hl
    exact ⟨hl, h⟩
  · cases h

/-- A probe of a trie by the bound values narrows the rows. -/
theorem TrieOf.narrows {order : Term → Term → Term → List Term} (htrie : TrieOf trie source.rows order)
    (hlen : arguments.length = 3) {wanted : List Term} (hw : ∀ t1 t2 t3 θ', unifyRow arguments [t1, t2, t3] θ = some θ' →
      Trie.matchesPrefix Term.eqv (order t1 t2 t3) wanted = true) : Narrows source arguments θ (trieProbe trie wanted) := by
  refine ⟨fun h hm => ?_, fun h row θ' hrow hu => ?_⟩
  · obtain ⟨t1, t2, t3, hrow, -⟩ := (htrie wanted h).1 hm
    exact ⟨_, hrow⟩
  · obtain ⟨hl, hu⟩ := unifyArguments_eq_some hu
    obtain ⟨t1, t2, t3, rfl⟩ := List.length_eq_three.1 (hl.symm.trans hlen)
    exact (htrie wanted h).2 ⟨t1, t2, t3, hrow, hw t1 t2 t3 θ' hu⟩

/-- Whichever rotation has the longest bound prefix, its handles narrow the rows. -/
theorem triplePrefixHandles_ok (h : Indexed tripleRelation source) (hlen : arguments.length = 3) :
    ∃ found, triplePrefixHandles source arguments θ = .ok found ∧ Selects source arguments θ found := by
  have hbound : ∀ order : List Nat, (∀ i ∈ order, i < 3) → ∀ i ∈ order, i < arguments.length := fun order ho i hi => hlen ▸ ho i hi
  obtain ⟨spo, hspo, hspo0, hspo'⟩ := boundPrefix_ok (θ := θ) (hbound [0, 1, 2] (by simp))
  obtain ⟨pos, hpos, hpos0, hpos'⟩ := boundPrefix_ok (θ := θ) (hbound [1, 2, 0] (by simp))
  obtain ⟨osp, hosp, hosp0, hosp'⟩ := boundPrefix_ok (θ := θ) (hbound [2, 0, 1] (by simp))
  have hnspo : Narrows source arguments θ (trieProbe source.spo spo) :=
    (h.spo rfl).narrows hlen fun t1 t2 t3 θ' hu => hspo' _ θ' _ hu (.cons rfl (.cons rfl (.cons rfl .nil)))
  have hnpos : Narrows source arguments θ (trieProbe source.pos pos) :=
    (h.pos rfl).narrows hlen fun t1 t2 t3 θ' hu => hpos' _ θ' _ hu (.cons rfl (.cons rfl (.cons rfl .nil)))
  have hnosp : Narrows source arguments θ (trieProbe source.osp osp) :=
    (h.osp rfl).narrows hlen fun t1 t2 t3 θ' hu => hosp' _ θ' _ hu (.cons rfl (.cons rfl (.cons rfl .nil)))
  have hsome : ∀ {handles : List Nat}, Narrows source arguments θ handles → Selects source arguments θ (some handles) :=
    fun hn => ⟨fun handles he => ⟨Option.some.inj he ▸ hn, List.ne_nil_of_length_pos (by omega)⟩, fun he => absurd he (by simp)⟩
  unfold triplePrefixHandles
  simp only [hspo, hpos, hosp, bind, Except.bind]
  split
  · rename_i hnone
    refine ⟨none, rfl, fun handles he => absurd he (by simp), fun _ term hterm => ?_⟩
    obtain ⟨first, second, third, rfl⟩ := List.length_eq_three.1 hlen
    simp only [List.length_eq_zero_iff] at hnone
    simp only [List.mem_cons, List.not_mem_nil, or_false] at hterm
    rcases hterm with rfl | rfl | rfl
    · exact hspo0 hnone.1 0 _ rfl rfl
    · exact hpos0 hnone.2.1 1 _ rfl rfl
    · exact hosp0 hnone.2.2 2 _ rfl rfl
  · split
    · exact ⟨_, rfl, hsome hnspo⟩
    · split
      · exact ⟨_, rfl, hsome hnpos⟩
      · exact ⟨_, rfl, hsome hnosp⟩

/-- A bucket under a bound value narrows the rows. -/
theorem BucketsOf.narrows (h : BucketsOf relation source.positions source.rows)
    (hrel : ¬ (relation = tripleRelation ∧ arguments.length = 3)) {i : Nat} {term : QueryTerm} {value : Term}
    (hterm : arguments[i]? = some term) (hv : termValue term θ = some value) :
    Narrows source arguments θ (Trie.probe Term.eqv 1 (source.positions i) [value]) := by
  refine ⟨fun handle hm => ?_, fun handle row θ' hrow hu => ?_⟩
  · obtain ⟨row, hrow, -⟩ := (h i value handle).1 hm
    exact ⟨row, hrow⟩
  · obtain ⟨hl, hu⟩ := unifyArguments_eq_some hu
    have hi : i < row.length := hl ▸ (List.getElem?_eq_some_iff.1 hterm).1
    have hb : row[i]? = some row[i] := List.getElem?_eq_getElem hi
    have heqv : value.eqv row[i] = true := unifyRow_value hu hterm hv hb
    exact (h i value handle).2 ⟨row, hrow, hl ▸ hrel, row[i], hb, Term.eqv_symm heqv⟩

/-- The shortest bucket so far and those of the arguments still to come. -/
theorem positionalHandles_selects (h : BucketsOf relation source.positions source.rows)
    (hrel : ¬ (relation = tripleRelation ∧ arguments.length = 3)) {terms : List QueryTerm} {position : Nat}
    {best : Option (List Nat)} (hterms : ∀ i term, terms[i]? = some term → arguments[position + i]? = some term)
    (hbest : ∀ handles, best = some handles → Narrows source arguments θ handles) :
    (∀ handles, positionalHandles source θ terms position best = some handles → Narrows source arguments θ handles) ∧
      (positionalHandles source θ terms position best = none → best = none ∧ ∀ term ∈ terms, termValue term θ = none) := by
  induction terms generalizing position best with
  | nil => exact ⟨hbest, fun hn => ⟨hn, List.forall_mem_nil _⟩⟩
  | cons term terms ih =>
    have hnext : ∀ i other, terms[i]? = some other → arguments[position + 1 + i]? = some other := by
      intro i other hi
      have := hterms (i + 1) other hi
      rwa [← Nat.add_assoc, Nat.add_right_comm] at this
    cases hv : termValue term θ with
    | none =>
      simp only [positionalHandles, hv]
      obtain ⟨hsome, hnone⟩ := ih hnext hbest
      refine ⟨hsome, fun hn => ⟨(hnone hn).1, ?_⟩⟩
      rw [List.forall_mem_cons]
      exact ⟨hv, (hnone hn).2⟩
    | some value =>
      have hhere := h.narrows (θ := θ) hrel (hterms 0 term rfl) hv
      rw [Nat.add_zero] at hhere
      simp only [positionalHandles, hv]
      cases best with
      | none =>
        obtain ⟨hsome, hnone⟩ := ih hnext (fun handles he => (Option.some.inj he : _ = handles) ▸ hhere)
        exact ⟨hsome, fun hn => absurd (hnone hn).1 (by simp)⟩
      | some shortest =>
        dsimp only
        split
        · obtain ⟨hsome, hnone⟩ := ih hnext (fun handles he => (Option.some.inj he : _ = handles) ▸ hhere)
          exact ⟨hsome, fun hn => absurd (hnone hn).1 (by simp)⟩
        · obtain ⟨hsome, hnone⟩ := ih hnext hbest
          exact ⟨hsome, fun hn => absurd (hnone hn).1 (by simp)⟩

/-- The handles of an indexed source narrow its rows. -/
theorem sourceHandles_ok (Γ : Host) (h : Indexed relation source) (arguments : List QueryTerm) (θ : Substitution) :
    ∃ found, sourceHandles Γ source relation arguments θ = .ok found ∧ Selects source arguments θ found := by
  unfold sourceHandles
  rw [h.occurrence]
  by_cases hrel : relation = tripleRelation ∧ arguments.length = 3
  · rw [if_pos hrel]
    obtain ⟨rfl, hlen⟩ := hrel
    exact triplePrefixHandles_ok h hlen
  · rw [if_neg hrel]
    obtain ⟨hsome, hnone⟩ := positionalHandles_selects h.positions hrel (θ := θ)
      (fun i term (hi : arguments[i]? = some term) => (by rwa [Nat.zero_add] : arguments[0 + i]? = some term))
      (fun handles (he : none = some handles) => absurd he (by simp))
    refine ⟨_, rfl, fun handles he => ⟨hsome handles he, ?_⟩, fun hn => (hnone hn).2⟩
    rintro rfl
    cases he

/-- The row of a handle. -/
theorem sourceRow_ok (hocc : source.occurrence = none) {row : Tuple} (hrow : source.rows[handle]? = some row) :
    sourceRow source handle = .ok row := by
  simp only [sourceRow, hocc, nth, hrow]

end Handles

/-! ## What a source answers -/

section Answers

variable {Γ : Host} {db : Db} {sources : CandidateSources} {R : Reading} {literal : Literal} {θ θ' : Substitution}

theorem holds_positive (hpos : isPositive literal = true) :
    Holds R literal θ θ' ↔ θ' ∈ rowMatches literal.arguments θ (R.rows literal.relation (needle literal θ)) := by
  have hkind : literal.kind = relationKind := by
    simp only [isPositive, Bool.and_eq_true, decide_eq_true_eq] at hpos
    exact hpos.1
  constructor
  · intro h
    cases h with
    | row _ row hrow hu => exact ⟨row, hrow, hu⟩
    | absent _ hneg => simp [isPositive, hneg] at hpos
    | compares hk => rw [hkind] at hk; exact absurd hk (by decide)
    | computes hk => rw [hkind] at hk; exact absurd hk (by decide)
  · intro h
    obtain ⟨row, hrow, hu⟩ := h
    exact .row hpos row hrow hu

theorem holds_negated (hkind : literal.kind = relationKind) (hneg : literal.negated = true) {wanted : Tuple}
    (hg : ground literal.arguments θ = .ok wanted) :
    Holds R literal θ θ' ↔ θ' = θ ∧ ∀ row ∈ R.negated literal.relation, rowEqv row wanted = false := by
  constructor
  · intro h
    cases h with
    | row hpos => simp [isPositive, hneg] at hpos
    | absent _ _ wanted' hg' habs =>
      rw [hg] at hg'
      cases hg'
      exact ⟨rfl, habs⟩
    | compares hk => rw [hkind] at hk; exact absurd hk (by decide)
    | computes hk => rw [hkind] at hk; exact absurd hk (by decide)
  · intro h
    obtain ⟨rfl, habs⟩ := h
    exact .absent hkind hneg wanted hg habs

/-- A positive literal is answered by what lists the rows that its arguments may be. -/
theorem lists_positive (hpos : isPositive literal = true) {m : Eval (List Substitution)}
    (h : Lists contextOpen Substitution.same m (rowMatches literal.arguments θ (R.rows literal.relation (needle literal θ)))) :
    Lists contextOpen Substitution.same m {θ' | Holds R literal θ θ'} :=
  h.of_subset (fun _ hm => (holds_positive hpos).2 hm) fun _ hm => (holds_positive hpos).1 hm

/-- A negated literal is answered by a test whether the row is there. -/
theorem lists_negated (hkind : literal.kind = relationKind) (hneg : literal.negated = true) {wanted : Tuple}
    (hg : ground literal.arguments θ = .ok wanted) {found : Bool}
    (hfound : found = true ↔ ∃ row ∈ R.negated literal.relation, rowEqv row wanted = true) :
    Lists contextOpen Substitution.same (pure (if found then [] else [θ]) : Eval (List Substitution)) {θ' | Holds R literal θ θ'} := by
  cases found with
  | true =>
    refine lists_pure (by simp) fun θ' hm => ?_
    obtain ⟨-, habs⟩ := (holds_negated hkind hneg hg).1 hm
    obtain ⟨row, hrow, he⟩ := hfound.1 rfl
    rw [habs row hrow] at he
    cases he
  | false =>
    refine lists_pure (fun θ' hm => ?_) fun θ' hm => ?_
    · rw [if_neg (by simp), List.mem_singleton] at hm
      refine (holds_negated hkind hneg hg).2 ⟨hm, fun row hrow => ?_⟩
      rw [Bool.eq_false_iff]
      exact fun he => by simpa using hfound.2 ⟨row, hrow, he⟩
    · obtain ⟨rfl, -⟩ := (holds_negated hkind hneg hg).1 hm
      exact ⟨θ', by simp, Substitution.same.refl _⟩

/-- The rows of the handles whose rows are read one after the other. -/
theorem lists_handles {source : CandidateSource} {arguments : List QueryTerm} {handles : List Nat}
    (h : ∀ handle ∈ handles, ∃ row, sourceRow source handle = .ok row) :
    Lists contextOpen Substitution.same (handleResults source arguments θ handles)
      (rowMatches arguments θ {row | ∃ handle ∈ handles, sourceRow source handle = .ok row}) := by
  refine (lists_collect (v := Option.toList)
    (S := fun handle => {θ' | ∃ row, sourceRow source handle = .ok row ∧ unifyArguments arguments row θ = some θ'})
    (fun handle hm => ?_) (fun _ _ hy => hy) (fun r d y hy => List.mem_append.1 hy) (fun r d y hy => List.mem_append_left _ hy)
    (fun r d y hy => ⟨y, List.mem_append_right _ hy, Substitution.same.refl _⟩)
    fun _ _ _ => Substitution.same.trans).of_subset ?_ ?_
  · obtain ⟨row, hrow⟩ := h handle hm
    refine Runs.bind (runs_lift hrow (P := fun r => r = row) (Q := fun _ => True) rfl trivial) fun r he => ?_
    subst he
    refine (runs_unifyArguments arguments _ θ).weaken (fun d hd θ' hθ' => ⟨_, hrow, hd θ' hθ'⟩) fun d _ hd _ θ' hθ' => ?_
    obtain ⟨r, hr, hu⟩ := hθ'
    rw [hrow] at hr
    cases hr
    exact hd θ' hu
  · intro θ' hm
    obtain ⟨handle, hmem, row, hrow, hu⟩ := hm
    exact ⟨row, ⟨handle, hmem, hrow⟩, hu⟩
  · intro θ' hm
    obtain ⟨row, ⟨handle, hmem, hrow⟩, hu⟩ := hm
    exact ⟨handle, hmem, row, hrow, hu⟩

/-- The join through handles that narrow the rows finds what the arguments may be. -/
theorem lists_handleResults {source : CandidateSource} (hocc : source.occurrence = none) {arguments : List QueryTerm}
    {handles : List Nat} (h : Narrows source arguments θ handles) :
    Lists contextOpen Substitution.same (handleResults source arguments θ handles)
      (rowMatches arguments θ {row | row ∈ source.rows}) := by
  have hread : ∀ handle ∈ handles, ∃ row, source.rows[handle]? = some row ∧ sourceRow source handle = .ok row := by
    intro handle hm
    obtain ⟨row, hrow⟩ := h.valid handle hm
    exact ⟨row, hrow, sourceRow_ok hocc hrow⟩
  refine (lists_handles fun handle hm => (hread handle hm).imp fun _ hr => hr.2).of_subset ?_ ?_
  · intro θ' hm
    obtain ⟨row, ⟨handle, hm, hok⟩, hu⟩ := hm
    obtain ⟨row', hrow, hok'⟩ := hread handle hm
    obtain rfl := Except.ok.inj (hok.symm.trans hok')
    exact ⟨row, List.mem_of_getElem? hrow, hu⟩
  · intro θ' hm
    obtain ⟨row, hrow, hu⟩ := hm
    obtain ⟨handle, hrow⟩ := List.mem_iff_getElem?.1 hrow
    exact ⟨row, ⟨handle, h.complete handle row θ' hrow hu, sourceRow_ok hocc hrow⟩, hu⟩

/-- The test of a negation over handles that narrow the rows. -/
theorem anyHandle_ok {source : CandidateSource} (hocc : source.occurrence = none) {arguments : List QueryTerm} {handles : List Nat}
    (h : Narrows source arguments θ handles) {wanted : Tuple} (hg : ground arguments θ = .ok wanted) :
    ∃ found, (handles.anyM (fun handle => do
        let row ← sourceRow source handle
        pure (rowEqv wanted row)) : Except Fault Bool) = .ok found ∧
      (found = true ↔ ∃ row ∈ source.rows, rowEqv row wanted = true) := by
  obtain ⟨found, hfound, hiff⟩ := ExceptList.anyM_ok (l := handles) (f := fun handle => (do
      let row ← sourceRow source handle
      pure (rowEqv wanted row) : Except Fault Bool)) fun handle hm => by
    obtain ⟨row, hrow⟩ := h.valid handle hm
    exact ⟨rowEqv wanted row, by rw [sourceRow_ok hocc hrow]; rfl⟩
  refine ⟨found, hfound, hiff.trans ⟨fun hx => ?_, fun hx => ?_⟩⟩
  · obtain ⟨handle, hm, ht⟩ := hx
    obtain ⟨row, hrow⟩ := h.valid handle hm
    rw [sourceRow_ok hocc hrow] at ht
    exact ⟨row, List.mem_of_getElem? hrow, rowEqv_symm (Except.ok.inj ht)⟩
  · obtain ⟨row, hmem, he⟩ := hx
    obtain ⟨handle, hrow⟩ := List.mem_iff_getElem?.1 hmem
    refine ⟨handle, h.complete handle row θ hrow (unifyArguments_ground hg (rowEqv_symm he)), ?_⟩
    rw [sourceRow_ok hocc hrow]
    exact congrArg Except.ok (rowEqv_symm he)

/-- The containment test of an indexed source finds the rows that have a value. -/
theorem sourceContains_ok {relation : String} {source : CandidateSource} (h : Indexed relation source) {arguments : List QueryTerm}
    {wanted : Tuple} (hg : ground arguments θ = .ok wanted) : ∃ found, sourceContains Γ source relation arguments θ = .ok found ∧
      (found = true ↔ ∃ row ∈ source.rows, row ≠ [] ∧ rowEqv row wanted = true) := by
  obtain ⟨handles, hhandles, hselects⟩ := sourceHandles_ok Γ h arguments θ
  have hforall := ground_eq_ok_iff.1 hg
  have hstart : sourceContains Γ source relation arguments θ = (handles.getD []).anyM (fun handle => do
      let row ← sourceRow source handle
      pure (rowEqv wanted row)) := by
    simp only [sourceContains, hg, h.rotation, hhandles, bind, Except.bind]
  cases handles with
  | none =>
    have hargs : arguments = [] := by
      cases hforall with
      | nil => rfl
      | cons hv => rw [hselects.unbound rfl _ List.mem_cons_self] at hv; cases hv
    subst hargs
    cases hforall
    refine ⟨false, hstart, ?_⟩
    simp only [Bool.false_eq_true, false_iff, not_exists, not_and]
    intro row _ hne he
    cases row with
    | nil => exact hne rfl
    | cons => cases he
  | some handles =>
    obtain ⟨hn, hargs⟩ := hselects.narrows handles rfl
    obtain ⟨found, hfound, hiff⟩ := anyHandle_ok h.occurrence hn hg
    refine ⟨found, hstart.trans hfound, hiff.trans ⟨fun hx => ?_, fun hx => ?_⟩⟩
    · obtain ⟨row, hmem, he⟩ := hx
      refine ⟨row, hmem, ?_, he⟩
      rintro rfl
      cases hforall with
      | nil => exact hargs rfl
      | cons => cases he
    · obtain ⟨row, hmem, -, he⟩ := hx
      exact ⟨row, hmem, he⟩

/-- A literal whose relation has an indexed source reads the source's rows. Its negation does not find the row without a value. -/
theorem answers_indexed {source : CandidateSource} (hsource : sources literal.relation = some (.candidates source))
    (h : Indexed literal.relation source) (hrows : ∀ n, R.rows literal.relation n = {row | row ∈ source.rows})
    (hneg : ∀ row, row.length = literal.arguments.length → (row ∈ R.negated literal.relation ↔ row ∈ source.rows ∧ row ≠ [])) :
    Answers (relationResultsIndexed Γ db sources) R literal := by
  intro bound θ hkind hready hb
  cases hn : literal.negated with
  | true =>
    obtain ⟨wanted, hg⟩ := ground_ok hready.terms hb (hready.closed (by simp [isPositive, hn]))
    obtain ⟨found, hfound, hiff⟩ := sourceContains_ok (Γ := Γ) h hg
    have hlen := (ground_eq_ok_iff.1 hg).length_eq
    simp only [relationResultsIndexed, hn, if_true, hsource, absentFromSource]
    refine Runs.bind (runs_lift hfound (P := fun b => b = found) (Q := fun _ => True) rfl trivial) fun b hb' => ?_
    subst hb'
    refine Runs.weaken (lists_negated hkind hn hg (hiff.trans ⟨fun hx => ?_, fun hx => ?_⟩)) (fun _ hp => hp) fun _ _ hq _ => hq
    · obtain ⟨row, hmem, hne, he⟩ := hx
      exact ⟨row, (hneg row (((rowEqv_iff _ _).1 he).2.length_eq.trans hlen.symm)).2 ⟨hmem, hne⟩, he⟩
    · obtain ⟨row, hmem, he⟩ := hx
      obtain ⟨hmem, hne⟩ := (hneg row (((rowEqv_iff _ _).1 he).2.length_eq.trans hlen.symm)).1 hmem
      exact ⟨row, hmem, hne, he⟩
  | false =>
    have hpos : isPositive literal = true := by simp [isPositive, hkind, hn]
    refine lists_positive hpos ?_
    rw [hrows]
    simp only [relationResultsIndexed, hn, Bool.false_eq_true, if_false, hsource, candidateResults, h.rotation]
    obtain ⟨handles, hhandles, hselects⟩ := sourceHandles_ok Γ h literal.arguments θ
    refine Runs.bind (runs_lift hhandles (P := fun r => r = handles) (Q := fun _ => True) rfl trivial) fun r hr => ?_
    subst hr
    cases r with
    | none => exact Runs.weaken (lists_unifyTuples _ _ _) (fun _ hp => hp) fun _ _ hq _ => hq
    | some handles =>
      exact Runs.weaken (lists_handleResults h.occurrence (hselects.narrows handles rfl).1) (fun _ hp => hp) fun _ _ hq _ => hq

/-- A negated literal whose relation has no source is tested against the database. -/
theorem lists_absentFrom {bound : List String} (hkind : literal.kind = relationKind) (hn : literal.negated = true)
    (hready : Ready bound literal) (hb : Binds θ bound) (hneg : R.negated literal.relation = {row | row ∈ db literal.relation}) :
    Lists contextOpen Substitution.same (absentFrom (db literal.relation) literal.arguments θ) {θ' | Holds R literal θ θ'} := by
  obtain ⟨wanted, hg⟩ := ground_ok hready.terms hb (hready.closed (by simp [isPositive, hn]))
  refine Runs.bind (runs_lift hg (P := fun row => row = wanted) (Q := fun _ => True) rfl trivial) fun row hr => ?_
  subst hr
  refine Runs.weaken (lists_negated hkind hn hg ?_) (fun _ hp => hp) fun _ _ hq _ => hq
  rw [hneg]
  exact containsRow_iff

/-- A negated literal whose relation has no source reads the database. -/
theorem answers_absent (hsource : sources literal.relation = none) (hn : literal.negated = true)
    (hneg : R.negated literal.relation = {row | row ∈ db literal.relation}) : Answers (relationResultsIndexed Γ db sources) R literal := by
  intro bound θ hkind hready hb
  simp only [relationResultsIndexed, hn, if_true, hsource]
  exact lists_absentFrom hkind hn hready hb hneg

/-- What a virtual source gives on the needle of a literal, by its index or by a scan. -/
def TextSearchSource.rowsResult (source : TextSearchSource) (indexed : Bool) (relation : String) (needle : Option Term) :
    TextSearchRowsResult :=
  if relation = textMatchRelation then
    if indexed then source.exactIndexedRowsResult needle else source.exactScanRowsResult needle
  else if relation = textPhraseRelation then
    if indexed then source.phraseIndexedRowsResult needle else source.phraseScanRowsResult needle
  else if relation = textSubstringRelation then
    if indexed then source.substringIndexedRowsResult needle else source.substringScanRowsResult needle
  else if relation = textStemRelation then
    if indexed then source.stemIndexedRowsResult needle else source.stemScanRowsResult needle
  else if relation = textSearchRelation then
    if indexed then source.rankedIndexedRowsResult needle else source.rankedScanRowsResult needle
  else missingCandidateSourceResult relation

theorem virtualSourceRowsResult_eq {relation : String} {source : TextSearchSource} {indexed : Bool} {arguments : List QueryTerm}
    {third : QueryTerm} (h : arguments[2]? = some third) :
    virtualSourceRowsResult relation source indexed arguments θ = .ok (source.rowsResult indexed relation (termValue third θ)) := by
  unfold virtualSourceRowsResult TextSearchSource.rowsResult
  simp only [nth, h, bind, Except.bind]
  repeat' split
  all_goals rfl

/-- A search that fails closes the context. -/
theorem runs_textRowsOrRecord (result : TextSearchRowsResult) :
    Runs contextOpen (textRowsOrRecord result) (fun rows => ∀ row ∈ rows, result.ok = true ∧ row ∈ result.rows)
      (fun rows => result.ok = true ∧ rows = result.rows) := by
  intro context
  unfold textRowsOrRecord
  cases hok : result.ok with
  | true => exact ⟨result.rows, context, rfl, fun row h => ⟨rfl, h⟩, fun h => ⟨h, rfl, rfl⟩⟩
  | false => exact ⟨[], _, rfl, List.forall_mem_nil _, fun h => by simp [contextOpen, recordQueryEvaluationError] at h⟩

/-- The rows that a virtual source has on a needle; none when the search fails. -/
def TextSearchSource.found (source : TextSearchSource) (indexed : Bool) (relation : String) (needle : Option Term) : Set Tuple :=
  {row | (source.rowsResult indexed relation needle).ok = true ∧ row ∈ (source.rowsResult indexed relation needle).rows}

/-- A literal that searches text is answered by the search's rows. -/
theorem lists_virtual {relation : String} {source : TextSearchSource} {indexed : Bool} (hpos : isPositive literal = true)
    (hlen : 3 ≤ literal.arguments.length)
    (hrows : R.rows literal.relation (needle literal θ) = source.found indexed relation (needle literal θ)) :
    Lists contextOpen Substitution.same
      (virtualSourceRows relation source indexed literal.arguments θ >>= fun rows => unifyTuples literal.arguments rows θ)
      {θ' | Holds R literal θ θ'} := by
  refine lists_positive hpos ?_
  have hthird : literal.arguments[2]? = some literal.arguments[2] := List.getElem?_eq_getElem (by omega)
  have hneedle : needle literal θ = termValue literal.arguments[2] θ := by simp [needle, hthird]
  rw [hrows, hneedle]
  have hsearch : Runs contextOpen (virtualSourceRows relation source indexed literal.arguments θ)
      (fun rows => ∀ row ∈ rows, row ∈ source.found indexed relation (termValue literal.arguments[2] θ))
      (fun rows => ∀ row ∈ source.found indexed relation (termValue literal.arguments[2] θ), row ∈ rows) := by
    refine Runs.bind (runs_lift (virtualSourceRowsResult_eq hthird)
      (P := fun r => r = source.rowsResult indexed relation (termValue literal.arguments[2] θ)) (Q := fun _ => True) rfl trivial)
      fun r hr => ?_
    subst hr
    refine (runs_textRowsOrRecord _).weaken (fun rows h row hrow => h row hrow) fun rows _ h _ row hrow => ?_
    rw [h.2]
    exact hrow.2
  refine hsearch.bind fun rows hsub => (lists_unifyTuples _ rows θ).weaken (fun found hp θ' hm => ?_) fun found _ hq hsup θ' hm => ?_
  · obtain ⟨row, hrow, hu⟩ := hp θ' hm
    exact ⟨row, hsub row hrow, hu⟩
  · obtain ⟨row, hrow, hu⟩ := hm
    exact hq θ' ⟨row, hsup row hrow, hu⟩

/-- A relation that searches text has at least three columns. -/
theorem three_le_of_text {bound : List String} (hkind : literal.kind = relationKind) (hready : Ready bound literal)
    (htext : literal.relation ∈ textRelations) : 3 ≤ literal.arguments.length := by
  simp only [textRelations, List.mem_cons, List.not_mem_nil, or_false] at htext
  have harity := hready.arity hkind
  rcases htext with h | h | h | h | h <;> rw [h] at harity
  · exact (harity 3 (by decide)).ge
  · exact (harity 3 (by decide)).ge
  · exact (harity 3 (by decide)).ge
  · exact (harity 3 (by decide)).ge
  · exact (by decide : 3 ≤ 4).trans (harity 4 (by decide)).ge

end Answers

end Datalog

end Fram
