import Fram.QueryPages
import Fram.Lemmas.Ordering

/-!
# Rows as sets, and the pages of rows

A relation never has two rows that are equal, whatever rules derive its rows: rows come in by `conj` only. So of the rows of a result
without NaN no two have one key, and a cursor leads back to the row it was made from. A page is a prefix of the rows that are left; it is
within the budget, and not empty when the first of them fits a page alone.
-/

namespace Fram

namespace Datalog

open Closing

variable {rows rest ordered : List Tuple} {db : Db} {row : Tuple}

/-! ## Sets of rows -/

/-- No two of the rows are equal. -/
def IsSet (rows : List Tuple) : Prop := rows.Pairwise fun row row' => rowEqv row row' = false

/-- Every relation is a set of rows. -/
def HasSets (db : Db) : Prop := ∀ relation, IsSet (db relation)

theorem IsSet.conjRow (h : IsSet rows) (row : Tuple) : IsSet (conjRow rows row) := by
  unfold Datalog.conjRow
  split
  · exact h
  · rename_i hc
    refine List.pairwise_append.2 ⟨h, List.pairwise_singleton _ _, fun r hr row' hrow' => ?_⟩
    rw [List.mem_singleton.1 hrow']
    cases he : rowEqv r row with
    | true => exact absurd (containsRow_iff.2 ⟨r, hr, he⟩) hc
    | false => rfl

theorem IsSet.intoRows (h : IsSet rows) (new : List Tuple) : IsSet (intoRows rows new) := by
  unfold Datalog.intoRows
  induction new generalizing rows with
  | nil => exact h
  | cons row new ih => exact ih (h.conjRow row)

theorem HasSets.add (h : HasSets db) (relation : String) (rows : List Tuple) : HasSets (db.add relation rows) := by
  intro other
  unfold Db.add
  by_cases ho : other = relation
  · subst ho
    rw [Function.update_self]
    exact (h other).intoRows rows
  · rw [Function.update_of_ne ho]
    exact h other

theorem HasSets.dbMergeDelta (h : HasSets db) (delta : Db) (relations : List String) : HasSets (dbMergeDelta db delta relations) := by
  unfold Datalog.dbMergeDelta
  induction relations generalizing db with
  | nil => exact h
  | cons relation relations ih =>
    refine ih ?_
    dsimp only
    split
    · exact h
    · exact h.add relation _

/-! ## Evaluations -/

theorem returns_deriveEach (derive : Rule → Eval (List Tuple)) (rules : List Rule) (h : HasSets db) :
    Returns (deriveEach derive rules db) HasSets := by
  unfold deriveEach
  induction rules generalizing db with
  | nil => exact returns_pure h
  | cons rule rules ih =>
    refine Returns.whenOpen ((returns_any _).bind fun rows _ => Returns.whenOpen ?_ h) h
    exact ih (h.add rule.headRelation rows)

theorem returns_fixpointRounds (Γ : Host) (rules : List Rule) (relations readRelations deltaRelations : List String) (rounds : Nat)
    (sources : CandidateSources) (delta : Db) (h : HasSets db) :
    Returns (fixpointRounds Γ rules relations readRelations deltaRelations rounds db sources delta)
      fun result => ∀ db' ∈ result, HasSets db' := by
  have hdone : ∀ {db : Db}, HasSets db → ∀ db' ∈ some db, HasSets db' := by
    intro db h db' hdb'
    cases hdb'
    exact h
  induction rounds generalizing db sources delta with
  | zero =>
    refine Returns.whenOpen ?_ (hdone h)
    split
    · exact returns_pure (hdone h)
    · exact returns_pure fun db' hdb' => absurd hdb' (by simp)
  | succ rounds ih =>
    refine Returns.whenOpen ?_ (hdone h)
    split
    · exact returns_pure (hdone h)
    · exact (returns_any _).bind fun next _ => Returns.whenOpen (ih _ _ (h.dbMergeDelta next relations)) (hdone h)

/-- The strata keep every relation a set. -/
theorem returns_runStrataRounds (Γ : Host) (rounds : Nat) (candidates : CandidateSources) (strata : List (List Rule))
    (h : HasSets db) : Returns (runStrataRounds Γ rounds candidates strata db) fun result => ∀ db' ∈ result, HasSets db' := by
  have hdone : ∀ {db : Db}, HasSets db → ∀ db' ∈ some db, HasSets db' := by
    intro db h db' hdb'
    cases hdb'
    exact h
  induction strata generalizing db with
  | nil => exact returns_pure (hdone h)
  | cons stratum rest ih =>
    have hfirst : Returns (fixpointWithCandidatesContext Γ rounds db stratum candidates) fun result => ∀ db' ∈ result, HasSets db' :=
      (returns_deriveEach _ stratum h).bind fun seeded hseeded =>
        Returns.whenOpen (returns_fixpointRounds Γ stratum _ _ _ rounds _ _ hseeded) (hdone hseeded)
    refine Returns.whenOpen (hfirst.bind fun result hresult => ?_) (hdone h)
    · cases result with
      | none => exact returns_pure fun db' hdb' => absurd hdb' (by simp)
      | some db' => exact ih (hresult db' rfl)

end Datalog

namespace Query

open Datalog

/-- The relations of an evaluation are sets when those of the projection are. -/
theorem hasSets_of_evaluatePlanResult {Γ : Host} {rounds : Nat} {projection : Projection} {plan : QueryPlan}
    {control : Option QueryControl} {evaluation : QueryEvaluationResult} (hsets : HasSets projection.edb)
    (h : evaluatePlanResult Γ rounds projection plan control = .ok evaluation) (hdb : evaluation.db = some db) : HasSets db := by
  unfold evaluatePlanResult runStrataDbWithCandidatesResult at h
  obtain ⟨r, hr, h⟩ := ExceptList.bind_eq_ok_iff.1 h
  cases h
  exact returns_runStrataRounds Γ rounds projection.candidates plan.strata hsets _ r.1 r.2 hr db hdb

/-! ## What a page takes -/

/-- A page as it is printed. -/
def pageText (page : QueryPage) : String :=
  "rows:" ++ printVector (page.rows.map printRow) ++ "|next:" ++ printCursor page.next ++ "|more:" ++ printBool page.more

/-- A page is within the budget: it has no more rows than the limit, its printed text is within the bytes of a payload, and its cursor
within those of a cursor. -/
structure Within (budget : PageBudget) (limit : Nat) (page : QueryPage) : Prop where
  rows : page.rows.length ≤ limit
  bytes : utf8Size (pageText page) ≤ budget.payloadBytes
  cursor : ∀ cursor ∈ page.next, utf8Size cursor ≤ budget.cursorBytes

theorem utf8Size_append (a b : String) : utf8Size (a ++ b) = utf8Size a + utf8Size b := String.utf8ByteSize_append

/-- The bytes of the printed rows. -/
def rowsBytes (rows : List Tuple) : Nat := utf8Size (printVector (rows.map printRow))

theorem utf8Size_spaced (texts : List String) : utf8Size (spaced texts) = (texts.map utf8Size).sum + (texts.length - 1) := by
  induction texts with
  | nil => rfl
  | cons text rest ih =>
    cases rest with
    | nil => simp [spaced]
    | cons next rest =>
      have hblank : utf8Size " " = 1 := rfl
      rw [spaced, utf8Size_append, utf8Size_append, ih, hblank]
      simp only [List.map_cons, List.sum_cons, List.length_cons]
      omega

theorem rowsBytes_eq (rows : List Tuple) : rowsBytes rows = 2 + (rows.map fun row => utf8Size (printRow row)).sum + (rows.length - 1) := by
  have hopen : utf8Size "[" = 1 := rfl
  have hclose : utf8Size "]" = 1 := rfl
  rw [rowsBytes, printVector, utf8Size_append, utf8Size_append, utf8Size_spaced, hopen, hclose, List.map_map, List.length_map]
  simp only [Function.comp_def]
  omega

/-- A row more takes a blank, unless it is the first, and its own bytes. -/
theorem rowsBytes_concat (rows : List Tuple) (row : Tuple) :
    rowsBytes (rows ++ [row]) = rowsBytes rows + (if rows.length = 0 then 0 else 1) + utf8Size (printRow row) := by
  simp only [rowsBytes_eq, List.map_append, List.sum_append, List.length_append, List.map_cons, List.map_nil, List.sum_cons, List.sum_nil,
    List.length_cons, List.length_nil]
  split <;> omega

/-- The size of an envelope is that of the printed page. -/
theorem utf8Size_pageText (rows : List Tuple) (next : Option String) (more : Bool) :
    utf8Size (pageText (successPage rows next more)) = envelopeSize (rowsBytes rows) next more := by
  simp only [pageText, successPage, utf8Size_append, envelopeSize, rowsBytes]

/-! ## Cutting -/

variable {budget : PageBudget}

/-- The count that is found is the best so far, or one at which a page fits. -/
theorem fittingFrom_spec (windowCount : Nat) (done rows : List Tuple) {best : Nat} (hbest : best ≤ done.length) :
    best ≤ fittingFrom budget windowCount rows done.length (rowsBytes done) best ∧
      (fittingFrom budget windowCount rows done.length (rowsBytes done) best = best ∨
        ∃ mid row rest, rows = mid ++ row :: rest ∧
          fittingFrom budget windowCount rows done.length (rowsBytes done) best = done.length + mid.length + 1 ∧
          fits budget row (rowsBytes (done ++ mid ++ [row])) (decide (done.length + mid.length + 1 < windowCount)) = true) := by
  induction rows generalizing done best with
  | nil => exact ⟨Nat.le_refl _, .inl rfl⟩
  | cons row rows ih =>
    have hstep : fittingFrom budget windowCount (row :: rows) done.length (rowsBytes done) best =
        fittingFrom budget windowCount rows (done ++ [row]).length (rowsBytes (done ++ [row]))
          (if fits budget row (rowsBytes (done ++ [row])) (decide (done.length + 1 < windowCount)) then done.length + 1 else best) := by
      rw [fittingFrom, rowsBytes_concat, List.length_append]
      rfl
    have hlen : ∀ mid : List Tuple, (done ++ [row]).length + mid.length + 1 = done.length + (row :: mid).length + 1 := by
      intro mid
      simp only [List.length_append, List.length_cons, List.length_nil]
      omega
    rw [hstep]
    by_cases hf : fits budget row (rowsBytes (done ++ [row])) (decide (done.length + 1 < windowCount)) = true
    · rw [if_pos hf]
      obtain ⟨hle, hcases⟩ := @ih (done ++ [row]) (done.length + 1) (by simp)
      refine ⟨by omega, .inr ?_⟩
      rcases hcases with hcases | ⟨mid, last, rest, hrows, hcount, hlast⟩
      · exact ⟨[], row, rows, rfl, by simpa using hcases, by simpa using hf⟩
      · refine ⟨row :: mid, last, rest, by rw [hrows]; rfl, by rw [hcount, hlen], ?_⟩
        rw [← hlen mid]
        simpa using hlast
    · rw [if_neg hf]
      obtain ⟨hle, hcases⟩ := @ih (done ++ [row]) best (by simp; omega)
      refine ⟨hle, ?_⟩
      rcases hcases with hcases | ⟨mid, last, rest, hrows, hcount, hlast⟩
      · exact .inl hcases
      · refine .inr ⟨row :: mid, last, rest, by rw [hrows]; rfl, by rw [hcount, hlen], ?_⟩
        rw [← hlen mid]
        simpa using hlast

/-- A row fits a page alone: with its cursor when rows come after it. -/
def FitsAlone (budget : PageBudget) (row : Tuple) (more : Bool) : Prop := fits budget row (rowsBytes [row]) more = true

/-- The rows of a window are cut after some row, and the page up to it fits; not before the first row when that fits alone. -/
theorem fittingPrefix_spec {wanted : Nat} (hwanted : 0 < wanted) (hfits : FitsAlone budget row (decide (1 < (row :: rest).length))) :
    ∃ mid last after, (row :: rest).take wanted = mid ++ last :: after ∧ fittingPrefix budget (row :: rest) wanted = mid.length + 1 ∧
      fits budget last (rowsBytes (mid ++ [last])) (decide (mid.length + 1 < (row :: rest).length)) = true := by
  have hempty : rowsBytes [] = 2 := rfl
  obtain ⟨n, rfl⟩ : ∃ n, wanted = n + 1 := ⟨wanted - 1, by omega⟩
  have hstep : fittingPrefix budget (row :: rest) (n + 1) =
      fittingFrom budget (row :: rest).length (rest.take n) [row].length (rowsBytes [row]) 1 := by
    have hsize := rowsBytes_concat [] row
    simp only [List.nil_append, List.length_nil, if_true, hempty] at hsize
    rw [fittingPrefix, List.take_succ_cons, fittingFrom]
    simp only [if_true, Nat.zero_add, ← hsize]
    rw [if_pos (show fits budget row (rowsBytes [row]) (decide (1 < (row :: rest).length)) = true from hfits)]
    rfl
  obtain ⟨-, hcases⟩ := @fittingFrom_spec budget (row :: rest).length [row] (rest.take n) 1 (Nat.le_refl _)
  rw [hstep, List.take_succ_cons]
  rcases hcases with hcases | ⟨mid, last, after, hrest, hcount, hlast⟩
  · exact ⟨[], row, rest.take n, rfl, by rw [hcases]; rfl, hfits⟩
  · have hlen : [row].length + mid.length + 1 = (row :: mid).length + 1 := by
      simp only [List.length_cons, List.length_nil]
      omega
    rw [hlen] at hlast
    exact ⟨row :: mid, last, after, by rw [hrest]; rfl, by rw [hcount, hlen], by simpa using hlast⟩

/-- The rows that a cursor leaves. -/
def eligibleRows (ordered : List Tuple) (afterKey : Option String) : List Tuple := afterKey.elim ordered (rowsAfterKey ordered)

/-- A page is the rows that are left up to some row, with the cursor of that row when more are left; it is within the budget. -/
theorem pageOfRows_spec {limit : Nat} {afterKey : Option String}
    (hlimit : 0 < limit) (h : eligibleRows ordered afterKey = row :: rest) (hfits : FitsAlone budget row (!rest.isEmpty)) :
    ∃ mid last after, row :: rest = mid ++ last :: after ∧
      pageOfRows budget ordered limit afterKey =
        successPage (mid ++ [last]) (if after.isEmpty then none else some (pageCursor last)) (!after.isEmpty) ∧
      Within budget limit (pageOfRows budget ordered limit afterKey) := by
  have hwindow : (row :: rest).take (limit + 1) = row :: rest.take limit := rfl
  have hlen : (row :: rest.take limit).length = min limit rest.length + 1 := by simp
  have hmin : min limit (row :: rest.take limit).length = min limit (rest.length + 1) := by
    rw [hlen]
    omega
  have hwanted : 0 < min limit (rest.length + 1) := by omega
  have hfirst : FitsAlone budget row (decide (1 < (row :: rest.take limit).length)) := by
    rw [hlen]
    cases rest with
    | nil => simpa using hfits
    | cons next rest => simpa [hlimit] using hfits
  obtain ⟨mid, last, after, htake, hcount, hlast⟩ := fittingPrefix_spec hwanted hfirst
  have hmid : mid.length + 1 ≤ min limit (rest.length + 1) := by
    have := congrArg List.length htake
    simp only [List.length_take, List.length_cons, List.length_append] at this
    omega
  obtain ⟨after', hwhole⟩ : ∃ after', row :: rest = mid ++ last :: after' := by
    have hprefix : mid ++ [last] <+: row :: rest := by
      refine List.IsPrefix.trans ?_ ((List.take_prefix (limit + 1) (row :: rest)))
      rw [hwindow]
      refine List.IsPrefix.trans ?_ (List.take_prefix (min limit (rest.length + 1)) (row :: rest.take limit))
      rw [htake]
      exact ⟨after, by simp⟩
    obtain ⟨after', h⟩ := hprefix
    exact ⟨after', by rw [← h]; simp⟩
  have hafter : rest.length + 1 = mid.length + 1 + after'.length := by
    have := congrArg List.length hwhole
    simp only [List.length_cons, List.length_append] at this
    omega
  have hmore : decide (mid.length + 1 < (row :: rest.take limit).length) = !after'.isEmpty := by
    rw [hlen]
    cases after' with
    | nil => simpa using by simp only [List.length_nil] at hafter; omega
    | cons next after' => simpa using by simp only [List.length_cons] at hafter; omega
  have htaken : (row :: rest.take limit).take (mid.length + 1) = mid ++ [last] := by
    rw [← hwindow, List.take_take, Nat.min_eq_left (by omega), hwhole]
    simp [List.take_append]
  have hpage : pageOfRows budget ordered limit afterKey =
      successPage (mid ++ [last]) (if after'.isEmpty then none else some (pageCursor last)) (!after'.isEmpty) := by
    unfold pageOfRows
    rw [show afterKey.elim ordered (rowsAfterKey ordered) = row :: rest from h]
    simp only [hwindow, hmin]
    rw [if_neg (by omega), hcount, if_neg (by omega), pageEnvelope]
    simp only [htaken, hmore]
    cases after' <;> simp
  refine ⟨mid, last, after', hwhole, hpage, ?_⟩
  rw [hmore] at hlast
  rw [hpage]
  refine ⟨by simp only [successPage, List.length_append, List.length_cons, List.length_nil]; omega, ?_, ?_⟩
  · rw [utf8Size_pageText]
    simp only [fits, Bool.and_eq_true, decide_eq_true_eq] at hlast
    cases after' <;> simpa using hlast.2
  · intro cursor hcursor
    simp only [fits, Bool.and_eq_true, decide_eq_true_eq] at hlast
    cases after' with
    | nil => cases hcursor
    | cons next after' =>
      cases hcursor
      simpa using hlast.1

/-! ## Cursors -/

theorem decodePageCursor_pageCursor (h : utf8Size (pageCursor row) ≤ budget.cursorBytes) :
    decodePageCursor budget (pageCursor row) = .ok (rowKey row) := by
  have hlist : (pageCursor row).toList = pageCursorPrefix.toList ++ (rowKey row).toList := String.toList_append
  have hne : pageCursor row ≠ pageCursorPrefix := by
    intro he
    have hkey := toList_rowKey row
    have hnil := congrArg String.toList he
    rw [hlist, hkey] at hnil
    simp at hnil
  unfold decodePageCursor
  rw [if_neg, hlist, ← String.length_toList, List.drop_left, String.ofList_toList]
  rintro (hsize | hprefix | heq)
  · omega
  · exact hprefix (by rw [hlist]; exact List.prefix_append _ _)
  · exact hne heq

/-- The key of a row that did not come before leaves what comes after the row. -/
theorem rowsAfterKey_append {before : List Tuple} (h : row ∉ before) : rowsAfterKey (before ++ row :: rest) (rowKey row) = rest := by
  induction before with
  | nil => simp [rowsAfterKey]
  | cons first before ih =>
    rw [List.mem_cons, not_or] at h
    rw [List.cons_append, rowsAfterKey, if_neg fun he => h.1 (rowKey_injective he)]
    exact ih h.2

/-! ## The rows of a result -/

theorem perm_mergeOrderedRowVectors {order : List OrderClause} {left right merged : List Tuple}
    (h : mergeOrderedRowVectors order left right = .ok merged) : merged.Perm (left ++ right) := by
  induction left, right using mergeOrderedRowVectors.induct generalizing merged with
  | case1 right =>
    rw [mergeOrderedRowVectors] at h
    cases h
    exact .refl _
  | case2 first lefts =>
    rw [mergeOrderedRowVectors] at h
    cases h
    rw [List.append_nil]
  | case3 first lefts second rights ihl ihr =>
    rw [mergeOrderedRowVectors] at h
    obtain ⟨n, -, h⟩ := ExceptList.bind_eq_ok_iff.1 h
    split at h
    · obtain ⟨rest, hrest, h⟩ := ExceptList.bind_eq_ok_iff.1 h
      cases h
      exact (ihl hrest).cons first
    · obtain ⟨rest, hrest, h⟩ := ExceptList.bind_eq_ok_iff.1 h
      cases h
      exact ((ihr hrest).cons second).trans List.perm_middle.symm

theorem perm_mergeSortOrderedRows {order : List OrderClause} {sorted : List Tuple}
    (h : mergeSortOrderedRows order rows = .ok sorted) : sorted.Perm rows := by
  induction hn : rows.length using Nat.strong_induction_on generalizing rows sorted with
  | _ n ih =>
    rw [mergeSortOrderedRows] at h
    split at h
    · cases h
      exact .refl _
    · obtain ⟨left, hl, h⟩ := ExceptList.bind_eq_ok_iff.1 h
      obtain ⟨right, hr, h⟩ := ExceptList.bind_eq_ok_iff.1 h
      have hleft := ih _ (by rw [List.length_take]; omega) hl rfl
      have hright := ih _ (by rw [List.length_drop]; omega) hr rfl
      refine (perm_mergeOrderedRowVectors h).trans ?_
      exact (hleft.append hright).trans (by rw [List.take_append_drop])

/-- The rows of a result are a prefix of an order of the rows of the relation. -/
theorem exists_perm_of_orderedPlanRows {plan : QueryPlan} (h : orderedPlanRows plan rows = .ok ordered) :
    ∃ sorted : List Tuple, sorted.Perm rows ∧ ordered <+: sorted := by
  have hlimited : ∀ sorted : List Tuple, sorted.Perm rows → (ordered = sorted ∨ ∃ n, ordered = sorted.take n) →
      ∃ sorted : List Tuple, sorted.Perm rows ∧ ordered <+: sorted := by
    intro sorted hperm h
    rcases h with rfl | ⟨n, rfl⟩
    · exact ⟨_, hperm, List.prefix_refl _⟩
    · exact ⟨sorted, hperm, List.take_prefix _ _⟩
  unfold orderedPlanRows at h
  dsimp only at h
  split at h
  · refine hlimited (orderRowVector rows) ?_ ?_
    · rw [orderRowVector_eq]
      exact MergeSort.perm_sort _ _
    · split at h
      · exact .inr ⟨_, (Except.ok.inj h).symm⟩
      · exact .inl (Except.ok.inj h).symm
  · obtain ⟨sorted, hsorted, h⟩ := ExceptList.bind_eq_ok_iff.1 h
    refine hlimited sorted (perm_mergeSortOrderedRows hsorted) ?_
    split at h
    · exact .inr ⟨_, (Except.ok.inj h).symm⟩
    · exact .inl (Except.ok.inj h).symm

/-- Of rows of a set without NaN no two are the same. -/
theorem nodup_of_isSet {sorted : List Tuple} (h : IsSet rows) (hperm : sorted.Perm rows) (hpre : ordered <+: sorted)
    (hnan : ∀ row ∈ ordered, rowHasNaN row = false) : ordered.Nodup := by
  have hsymm : ∀ {row row' : Tuple}, rowEqv row row' = false → rowEqv row' row = false := by
    intro row row' hf
    cases ht : rowEqv row' row with
    | true => exact absurd (rowEqv_symm ht) (by simp [hf])
    | false => rfl
  have hsorted : sorted.Pairwise fun row row' => rowEqv row row' = false := (hperm.pairwise_iff hsymm).2 h
  refine (hsorted.sublist hpre.sublist).imp_of_mem fun {a b} ha _ hab heq => ?_
  subst heq
  have := (rowEqv_iff a a).2 ⟨hnan a ha, rowSame.refl a⟩
  rw [hab] at this
  cases this

end Query

end Fram
