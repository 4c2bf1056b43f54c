import Fram.Lemmas.QueryPages

/-!
# Page iteration

Following the cursors from the first page yields the rows of the whole result when no two of them have one key, as where none holds a
NaN. A cursor holds a key, and the next page begins after the first row that has it: from the first of three rows that differ in nothing
but their NaN the cursors lead nowhere. Where a result is refused for its number of rows, its pages are not.
-/

namespace Fram

namespace Query

open Datalog

/-- Following the cursors: the pages from a cursor to the page that has no next one. -/
inductive Iterates (run : After → Except Fault (Option QueryPage)) : After → List QueryPage → Prop where
  | last {after : After} {page : QueryPage} (h : run after = .ok (some page)) (hnext : page.next = none) : Iterates run after [page]
  | more {after : After} {page : QueryPage} {cursor : String} {pages : List QueryPage} (h : run after = .ok (some page))
    (hnext : page.next = some cursor) (hpages : Iterates run (.text cursor) pages) : Iterates run after (page :: pages)

/-- No row exceeds the budget: each fits a page alone, with its cursor when it is not the last, and so does a page without rows. -/
structure NoRowExceeds (budget : PageBudget) (rows : List Tuple) : Prop where
  none : utf8Size (pageText (successPage [] Option.none false)) ≤ budget.payloadBytes
  each : ∀ before row after, rows = before ++ row :: after → FitsAlone budget row (!after.isEmpty)

variable {budget : PageBudget} {host : QueryHost} {Γ : Host} {rounds : Nat} {projection : Projection} {plan : QueryPlan}
  {control : Option QueryControl} {limit : Int}

/-- A result without errors is that of an evaluation, and its rows are those of the relation in order. -/
theorem evaluation_of_runPlanProjectedResult {result : QueryResult}
    (h : runPlanProjectedResult host Γ rounds projection plan control = .ok (some ⟨some result, none⟩)) (herrors : result.errors = [])
    (hfind : isAggregateFind plan.find = false) :
    validatePlan host plan = [] ∧ ∃ db, evaluatePlanResult Γ rounds projection plan control = .ok ⟨some db, none⟩ ∧
      orderedPlanRows plan (db plan.find.relation) = .ok result.rows := by
  unfold runPlanProjectedResult at h
  dsimp only at h
  split at h
  · rename_i hne
    cases h
    have : validatePlan host plan = [] := herrors
    simp [this] at hne
  · rename_i hne
    obtain ⟨evaluation, he, h⟩ := ExceptList.bind_eq_ok_iff.1 h
    obtain ⟨db, error⟩ := evaluation
    refine ⟨by simpa using hne, ?_⟩
    cases error with
    | some error => cases h
    | none =>
      cases db with
      | none => cases h
      | some db =>
        rw [hfind] at h
        obtain ⟨found, hfound, h⟩ := ExceptList.bind_eq_ok_iff.1 h
        cases h
        unfold relationResult at hfound
        refine ⟨db, he, ?_⟩
        by_cases hlimit : plan.limit.isNone ∧ maxResults host < (db plan.find.relation).length
        · rw [if_pos hlimit] at hfound
          cases hfound
          cases herrors
        · rw [if_neg hlimit] at hfound
          obtain ⟨ordered, hordered, hfound⟩ := ExceptList.bind_eq_ok_iff.1 hfound
          cases hfound
          exact hordered

/-- A page of a plan that is accepted is a page of the rows in order. -/
theorem runPagePlanProjected_eq (hplan : validatePlan host plan = []) (hfind : isAggregateFind plan.find = false) {db : Db}
    {ordered : List Tuple} (heval : evaluatePlanResult Γ rounds projection plan control = .ok ⟨some db, none⟩)
    (hordered : orderedPlanRows plan (db plan.find.relation) = .ok ordered) (hlow : 1 ≤ limit) (hhigh : limit ≤ maxPageLimit)
    {after : After} {afterKey : Option String} (hafter : afterKeyOf budget after = .ok afterKey) :
    runPagePlanProjected budget host Γ rounds projection plan control (some limit) after =
      .ok (some (pageOfRows budget ordered limit.toNat afterKey)) := by
  have hfilter : (some limit).filter (fun n => decide (1 ≤ n) && decide (n ≤ maxPageLimit)) = some limit := by simp [hlow, hhigh]
  unfold runPagePlanProjected
  simp only [hplan, hfind, hfilter, hafter, List.isEmpty_nil, Bool.not_true, Bool.false_eq_true, if_false]
  simp only [heval, bind, Except.bind, hordered]

/-- From a cursor on, the pages are the rows that it leaves. -/
theorem exists_iterates {run : After → Except Fault (Option QueryPage)} {ordered : List Tuple} {n : Nat} (hn : 0 < n)
    (hrun : ∀ after afterKey, afterKeyOf budget after = .ok afterKey → run after = .ok (some (pageOfRows budget ordered n afterKey)))
    (hnodup : ordered.Nodup) (hfits : NoRowExceeds budget ordered) {before : List Tuple} {row : Tuple} {rest : List Tuple}
    (hsplit : ordered = before ++ row :: rest) {after : After} {afterKey : Option String}
    (hafter : afterKeyOf budget after = .ok afterKey) (heligible : eligibleRows ordered afterKey = row :: rest) :
    ∃ pages, Iterates run after pages ∧ pages.flatMap (·.rows) = row :: rest ∧
      ∀ page ∈ pages, page.errors = [] ∧ Within budget n page := by
  -- by the number of rows that are left
  induction hlen : rest.length using Nat.strong_induction_on generalizing before row rest after afterKey with
  | _ k ih =>
    obtain ⟨mid, last, left, hwhole, hpage, hwithin⟩ := pageOfRows_spec hn heligible (hfits.each before row rest hsplit)
    rw [hpage] at hwithin
    have hfirst := (hrun after afterKey hafter).trans (congrArg (fun page => Except.ok (some page)) hpage)
    cases left with
    | nil =>
      refine ⟨_, .last hfirst rfl, by simpa [successPage] using hwhole.symm, fun page hmem => ?_⟩
      rw [List.mem_singleton.1 hmem]
      exact ⟨rfl, hwithin⟩
    | cons next left =>
      have hsplit' : ordered = (before ++ mid) ++ last :: next :: left := by rw [hsplit, hwhole, List.append_assoc]
      have hnew : last ∉ before ++ mid := by
        rw [hsplit', List.nodup_append] at hnodup
        exact fun hmem => hnodup.2.2 last hmem last List.mem_cons_self rfl
      have hkey : afterKeyOf budget (.text (pageCursor last)) = .ok (some (rowKey last)) := by
        rw [afterKeyOf, decodePageCursor_pageCursor (hwithin.cursor _ rfl)]
        rfl
      have hleft : eligibleRows ordered (some (rowKey last)) = next :: left := by
        rw [hsplit']
        exact rowsAfterKey_append hnew
      have hshort : left.length < k := by
        have := congrArg List.length hwhole
        simp only [List.length_cons, List.length_append] at this
        omega
      obtain ⟨pages, hpages, hrows, hall⟩ :=
        @ih left.length hshort ((before ++ mid) ++ [last]) next left (by rw [hsplit']; simp) _ _ hkey hleft rfl
      refine ⟨_, .more hfirst rfl hpages, ?_, fun page hmem => ?_⟩
      · rw [List.flatMap_cons, hrows, hwhole]
        simp [successPage]
      · rcases List.mem_cons.1 hmem with rfl | hmem
        · exact ⟨rfl, hwithin⟩
        · exact hall page hmem

/-- **Page iteration is exact** on a result of which no two rows have one key, in every budget that no row of it exceeds. The rows of a
result without NaN have keys of their own. -/
theorem page_iteration (budget : PageBudget) (host : QueryHost) (Γ : Host) (rounds : Nat) (projection : Projection) (plan : QueryPlan)
    (control : Option QueryControl) {limit : Int} (hlow : 1 ≤ limit) (hhigh : limit ≤ maxPageLimit)
    (hsets : HasSets projection.edb) (hfind : isAggregateFind plan.find = false) {result : QueryResult}
    (hresult : runPlanProjectedResult host Γ rounds projection plan control = .ok (some ⟨some result, none⟩))
    (herrors : result.errors = []) (hfits : NoRowExceeds budget result.rows) :
    ((∀ row ∈ result.rows, rowHasNaN row = false) → (result.rows.map rowKey).Nodup) ∧
    ((result.rows.map rowKey).Nodup →
      ∃ pages, Iterates (runPagePlanProjected budget host Γ rounds projection plan control (some limit)) .absent pages ∧
        pages.flatMap (·.rows) = result.rows ∧ ∀ page ∈ pages, page.errors = [] ∧ Within budget limit.toNat page) := by
  obtain ⟨hplan, db, heval, hordered⟩ := evaluation_of_runPlanProjectedResult hresult herrors hfind
  refine ⟨fun hnan => ?_, fun hkeys => ?_⟩
  · obtain ⟨sorted, hperm, hpre⟩ := exists_perm_of_orderedPlanRows hordered
    have hnodup := nodup_of_isSet (hasSets_of_evaluatePlanResult hsets heval rfl plan.find.relation) hperm hpre hnan
    exact hnodup.map fun _ _ => rowKey_injective
  have hnodup := hkeys.of_map
  have hrun := fun (after : After) (afterKey : Option String) (hafter : afterKeyOf budget after = .ok afterKey) =>
    runPagePlanProjected_eq hplan hfind heval hordered hlow hhigh hafter
  cases hrows : result.rows with
  | nil =>
    have hfirst : runPagePlanProjected budget host Γ rounds projection plan control (some limit) .absent =
        .ok (some (successPage [] none false)) := by
      rw [hrun .absent none rfl, hrows]
      simp [pageOfRows, pageEnvelope]
    refine ⟨_, .last hfirst rfl, rfl, fun page hmem => ?_⟩
    rw [List.mem_singleton.1 hmem]
    exact ⟨rfl, Nat.zero_le _, hfits.none, fun cursor hcursor => by cases hcursor⟩
  | cons row rest =>
    exact @exists_iterates budget _ _ _ (by omega) hrun hnodup hfits [] row rest hrows _ _ rfl hrows

/-! ## Lists of terms -/

/-- A plan that finds the last terms of the triples. -/
def lastTerms : QueryPlan :=
  ⟨⟨"answer", [], [], []⟩,
    [[⟨"answer", [⟨some "x", none⟩], [relationLiteral tripleRelation [⟨some "s", none⟩, ⟨some "p", none⟩, ⟨some "x", none⟩]]⟩]], [],
    none⟩

/-- Triples with these last terms. -/
def triplesTo (values : List Term) : List Tuple := values.map fun value => [.atom (.int 1), .atom (.int 2), value]

/-- The projection of triples with these last terms, with their source. -/
def ofLastTerms (values : List Term) : Projection :=
  ⟨fun relation => if relation = tripleRelation then triplesTo values else [],
    fun relation => if relation = tripleRelation then
      some (.candidates (candidateSourceAddRows tripleRelation emptyCandidateSource (triplesTo values))) else none⟩

/-- A host with a setting of the most rows, or with none. -/
def hostOf (setting : Option String) : QueryHost := ⟨fun _ => false, fun _ => false, setting⟩

/-- Two integers, and three times NaN. -/
def twoInts : List Term := [.atom (.int 5), .atom (.int 7)]
def threeNaNs : List Term := [.atom (.float F64.nan), .atom (.float F64.nan), .atom (.float F64.nan)]

/-- The rows of a list of terms, for a host with a setting, when their keys stand in order and they are not too many. -/
theorem runPlanProjectedResult_lastTerms {setting : Option String} {values : List Term}
    (heval : (evaluatePlanResult .zero 5 (ofLastTerms values) lastTerms none).map
      (fun evaluation => (evaluation.db.map (· "answer"), evaluation.error)) = .ok (some (values.map ([·])), none))
    (hplan : validatePlan (hostOf setting) lastTerms = []) (hkeys : ((values.map ([·])).map rowKey).Pairwise (textLe · · = true)) :
    ∃ db, evaluatePlanResult .zero 5 (ofLastTerms values) lastTerms none = .ok ⟨some db, none⟩ ∧
      orderedPlanRows lastTerms (db "answer") = .ok (values.map ([·])) ∧
      runPlanProjectedResult (hostOf setting) .zero 5 (ofLastTerms values) lastTerms none = .ok (some
        ⟨some (if maxResults (hostOf setting) < values.length then
          limitedResult (queryError "query-result-limit"
            ("result has " ++ toString values.length ++ " rows, over limit " ++ toString (maxResults (hostOf setting))))
            values.length (maxResults (hostOf setting))
        else successResult (values.map ([·]))), none⟩) := by
  cases he : evaluatePlanResult .zero 5 (ofLastTerms values) lastTerms none with
  | error fault =>
    rw [he] at heval
    cases heval
  | ok evaluation =>
    obtain ⟨db, error⟩ := evaluation
    rw [he] at heval
    simp only [Except.map, Except.ok.injEq, Prod.mk.injEq, Option.map_eq_some_iff] at heval
    obtain ⟨⟨db, rfl, hrows⟩, rfl⟩ := heval
    have hordered : orderedPlanRows lastTerms (db "answer") = .ok (values.map ([·])) := by
      rw [hrows]
      change Except.ok (orderRowVector (values.map ([·]))) = _
      rw [orderRowVector_of_pairwise hkeys]
    refine ⟨db, rfl, hordered, ?_⟩
    unfold runPlanProjectedResult
    simp only [hplan, he, List.isEmpty_nil, Bool.not_true, Bool.false_eq_true, if_false, bind, Except.bind]
    have hrelation : relationResult (hostOf setting) (db "answer") lastTerms = .ok (if maxResults (hostOf setting) < values.length then
          limitedResult (queryError "query-result-limit"
            ("result has " ++ toString values.length ++ " rows, over limit " ++ toString (maxResults (hostOf setting))))
            values.length (maxResults (hostOf setting))
        else successResult (values.map ([·]))) := by
      unfold relationResult
      rw [hordered, hrows, List.length_map]
      by_cases hlimit : maxResults (hostOf setting) < values.length
      · rw [if_pos ⟨rfl, hlimit⟩, if_pos hlimit]
      · rw [if_neg fun h => hlimit h.2, if_neg hlimit]
        rfl
    rw [if_neg (show ¬isAggregateFind lastTerms.find = true by decide),
      show relationResult (hostOf setting) (db lastTerms.find.relation) lastTerms = _ from hrelation]

/-- Rows that fit alone with a cursor and without are rows of which none exceeds the budget. -/
theorem noRowExceeds_of_fits {rows : List Tuple} (hnone : utf8Size (pageText (successPage [] none false)) ≤ budget.payloadBytes)
    (h : ∀ row ∈ rows, FitsAlone budget row true ∧ FitsAlone budget row false) : NoRowExceeds budget rows := by
  refine ⟨hnone, fun before row after hrows => ?_⟩
  have hrow := h row (by rw [hrows]; simp)
  cases after with
  | nil => exact hrow.2
  | cons next after => exact hrow.1

theorem hasSets_ofLastTerms {values : List Term} (h : IsSet (triplesTo values)) : HasSets (ofLastTerms values).edb := by
  intro relation
  unfold ofLastTerms
  dsimp only
  split
  · exact h
  · exact List.Pairwise.nil

/-- Two rows, a page each. -/
theorem page_iteration_two :
    ∃ pages, Iterates (runPagePlanProjected maxPageBudget (hostOf none) .zero 5 (ofLastTerms twoInts) lastTerms none (some 1))
        .absent pages ∧
      pages.flatMap (·.rows) = twoInts.map ([·]) ∧ ∀ page ∈ pages, page.errors = [] ∧ Within maxPageBudget 1 page := by
  obtain ⟨-, -, -, hresult⟩ :=
    @runPlanProjectedResult_lastTerms none twoInts (by with_unfolding_all decide) (by with_unfolding_all decide) (by with_unfolding_all decide)
  rw [if_neg (by with_unfolding_all decide)] at hresult
  refine (page_iteration maxPageBudget (hostOf none) .zero 5 (ofLastTerms twoInts) lastTerms none (by decide) (by decide)
    (hasSets_ofLastTerms (by unfold IsSet; with_unfolding_all decide)) rfl hresult rfl
    (noRowExceeds_of_fits (by with_unfolding_all decide) (by unfold FitsAlone; with_unfolding_all decide))).2 (by with_unfolding_all decide)

/-- A result that is refused for its number of rows has pages, and of three NaN the first page's cursor leads back to that page. -/
theorem page_iteration_apart : (∃ result page, runPlanProjectedResult (hostOf (some "1")) .zero 5 (ofLastTerms twoInts) lastTerms none =
        .ok (some ⟨some result, none⟩) ∧ result.rows = [] ∧
      runPagePlanProjected maxPageBudget (hostOf (some "1")) .zero 5 (ofLastTerms twoInts) lastTerms none (some 2) .absent =
        .ok (some page) ∧ page.next = none ∧ page.rows = twoInts.map ([·])) ∧
    (∃ result, runPlanProjectedResult (hostOf none) .zero 5 (ofLastTerms threeNaNs) lastTerms none =
        .ok (some ⟨some result, none⟩) ∧ result = successResult (threeNaNs.map ([·])) ∧ NoRowExceeds maxPageBudget result.rows ∧
      ∀ pages, ¬Iterates (runPagePlanProjected maxPageBudget (hostOf none) .zero 5 (ofLastTerms threeNaNs) lastTerms none (some 1))
        .absent pages) := by
  constructor
  · obtain ⟨db, heval, hordered, hresult⟩ :=
      @runPlanProjectedResult_lastTerms (some "1") twoInts (by with_unfolding_all decide) (by with_unfolding_all decide)
        (by with_unfolding_all decide)
    rw [if_pos (by with_unfolding_all decide)] at hresult
    have hpage := @runPagePlanProjected_eq maxPageBudget (hostOf (some "1")) .zero 5 (ofLastTerms twoInts) lastTerms none 2
      (by with_unfolding_all decide) rfl db (twoInts.map ([·])) heval hordered (by decide) (by decide) .absent none rfl
    refine ⟨_, _, hresult, rfl, hpage, ?_, ?_⟩
    · with_unfolding_all decide
    · with_unfolding_all decide
  · obtain ⟨db, heval, hordered, hresult⟩ :=
      @runPlanProjectedResult_lastTerms none threeNaNs (by with_unfolding_all decide) (by with_unfolding_all decide) (by with_unfolding_all decide)
    rw [if_neg (by with_unfolding_all decide)] at hresult
    refine ⟨_, hresult, rfl, noRowExceeds_of_fits (by with_unfolding_all decide) (by unfold FitsAlone; with_unfolding_all decide), ?_⟩
    have hrun := fun after afterKey (h : afterKeyOf maxPageBudget after = .ok afterKey) =>
      @runPagePlanProjected_eq maxPageBudget (hostOf none) .zero 5 (ofLastTerms threeNaNs) lastTerms none 1 (by with_unfolding_all decide) rfl db
        (threeNaNs.map ([·])) heval hordered (by decide) (by decide) after afterKey h
    -- the cursor of the first row leads back to it
    have hpage : ∀ after ∈ [After.absent, .text "fram-query-term-page-v1.r5:fNaN;"],
        runPagePlanProjected maxPageBudget (hostOf none) .zero 5 (ofLastTerms threeNaNs) lastTerms none (some 1) after =
          .ok (some (successPage [[.atom (.float F64.nan)]] (some "fram-query-term-page-v1.r5:fNaN;") true)) := by
      intro after hafter
      fin_cases hafter
      · exact (hrun .absent none rfl).trans (by with_unfolding_all decide)
      · exact (hrun _ (some "r5:fNaN;") (by with_unfolding_all decide)).trans (by with_unfolding_all decide)
    have hloop : ∀ after ∈ [After.absent, .text "fram-query-term-page-v1.r5:fNaN;"], ∀ pages,
        ¬Iterates (runPagePlanProjected maxPageBudget (hostOf none) .zero 5 (ofLastTerms threeNaNs) lastTerms none (some 1))
          after pages := by
      intro after hafter pages hpages
      induction hpages with
      | last h hnext =>
        rw [hpage _ hafter] at h
        cases h
        cases hnext
      | more h hnext _ ih =>
        rw [hpage _ hafter] at h
        cases h
        cases hnext
        exact ih (by simp)
    exact hloop .absent List.mem_cons_self

end Query

end Fram
