import Fram.Lemmas.Aggregates
import Fram.Theorems.QueryOrdering

/-!
# Aggregates of groups

The sum of a column of integers is exact whenever it is returned. The extremes compare numbers as doubles, so they are the least and the
greatest integer when no other integer of the group rounds to the same double. The rows of the groups then do not depend on how the set
of rows is enumerated; a sum of doubles does, as it rounds at every step.
-/

namespace Fram

namespace Query

open Datalog

/-- What the aggregates of a group answer on a column of integers. -/
structure AggregatesIntegers (members : List Tuple) (column : Int) (ns : List Int) : Prop where
  count : aggregateValue members ⟨⟨"count"⟩, none⟩ = .ok (.int ns.length)
  sum : aggregateValue members ⟨⟨"sum"⟩, some column⟩ = .ok (.int ns.sum) ∨
    aggregateValue members ⟨⟨"sum"⟩, some column⟩ = .error integerOverflow
  sumOutside : ¬InRange ns.sum → aggregateValue members ⟨⟨"sum"⟩, some column⟩ = .error integerOverflow
  sumInside : InRange (positiveSum ns) → InRange (negativeSum ns) → aggregateValue members ⟨⟨"sum"⟩, some column⟩ = .ok (.int ns.sum)
  min : ∀ m ∈ ns, (∀ n ∈ ns, m ≤ n) → (∀ n ∈ ns, F64.ofInt n = F64.ofInt m → n = m) →
    aggregateValue members ⟨⟨"min"⟩, some column⟩ = .ok (.int m)
  max : ∀ m ∈ ns, (∀ n ∈ ns, n ≤ m) → (∀ n ∈ ns, F64.ofInt n = F64.ofInt m → n = m) →
    aggregateValue members ⟨⟨"max"⟩, some column⟩ = .ok (.int m)

section Groups

variable {members rows rows' : List Tuple}

/-- The extreme of integers is the one that none is past, when no other rounds to its double. -/
theorem extremeOf_int (maximum : Bool) {ns : List Int} {m : Int} (hm : m ∈ ns)
    (hpast : ∀ n ∈ ns, NotPast maximum (.int n) (.int m)) (hone : ∀ n ∈ ns, F64.ofInt n = F64.ofInt m → n = m) :
    extremeOf maximum (ns.map .int) = some (.int m) := by
  have hne : ns.map NumericAtom.int ≠ [] := by
    intro he
    rw [List.map_eq_nil_iff.1 he] at hm
    cases hm
  have hnan : ∀ a ∈ ns.map NumericAtom.int, (numericFloat a).isNaN = false := by
    intro a ha
    obtain ⟨n, -, rfl⟩ := List.mem_map.1 ha
    exact F64.isNaN_ofInt n
  obtain ⟨r, hr, hext, hbest⟩ := extremeOf_spec maximum hne hnan
  obtain ⟨n, hn, rfl⟩ := List.mem_map.1 hr
  have h1 := hpast n hn
  have h2 := hbest (.int m) (List.mem_map_of_mem hm)
  have hplace : (F64.ofInt n).place = (F64.ofInt m).place := by
    unfold NotPast numericFloat at h1 h2
    cases maximum <;> simp only [if_true, Bool.false_eq_true, if_false] at h1 h2 <;> omega
  rw [hext, hone n hn (F64.ofInt_eq_iff.2 hplace)]

theorem aggregatesIntegers {column : Int} {ns : List Int}
    (h : columnValues members column = .ok (ns.map fun n => .atom (.int n))) : AggregatesIntegers members column ns := by
  have hnumbers : (ns.map fun n => Term.atom (.int n)).map requiredNumber = ns.map .int := by
    rw [List.map_map]
    rfl
  have hsum : aggregateValue members ⟨⟨"sum"⟩, some column⟩ = (sumIntegers 0 ns).map .int := by
    rw [← sumOf_int, ← hnumbers, ← sumValues_of h]
    rfl
  have hextreme : ∀ maximum, extremeValue members column maximum = .ok (extremeOf maximum (ns.map .int)) := by
    intro maximum
    rw [extremeValue_of h, hnumbers]
  have hzero : InRange 0 := ⟨by norm_num, by norm_num⟩
  have hcases := sumIntegers_cases ns 0 hzero
  rw [zero_add] at hcases
  refine ⟨?_, ?_, fun hout => ?_, fun hp hn => ?_, fun m hm hle hone => ?_, fun m hm hle hone => ?_⟩
  · have : members.length = ns.length := by
      unfold columnValues at h
      have := (ExceptList.mapM_eq_ok_iff.1 h).length_eq
      rwa [List.length_map] at this
    rw [← this]
    rfl
  · rw [hsum]
    rcases hcases with ⟨he, -⟩ | he
    · exact Or.inl (by rw [he]; rfl)
    · exact Or.inr (by rw [he]; rfl)
  · rw [hsum]
    rcases hcases with ⟨-, hin⟩ | he
    · exact absurd hin hout
    · rw [he]
      rfl
  · have := sumIntegers_of_bounds ns 0 (by have := hp.2; omega) (by have := hn.1; omega)
    rw [hsum, this, zero_add]
    rfl
  · have hbest := extremeOf_int false hm (fun n hn => F64.place_ofInt_le (hle n hn)) hone
    have hv := hextreme false
    rw [hbest] at hv
    simp only [aggregateValue, Option.getD_some, hv]
    rfl
  · have hbest := extremeOf_int true hm (fun n hn => F64.place_ofInt_le (hle n hn)) hone
    have hv := hextreme true
    rw [hbest] at hv
    simp only [aggregateValue, Option.getD_some, hv]
    rfl

/-- The row of a group, where it does not throw. -/
def groupRowOf (find : FindSpec) (g : Tuple × List Tuple) : Tuple := (groupRow find (groupOf g)).toOption.getD []

/-- A group of steady aggregates has one row, whatever the enumeration of its members. -/
theorem groupRow_eq {find : FindSpec} (hfits : Fits find rows) (hsteady : SteadyFind find rows) {g : Tuple × List Tuple}
    (hg : g ∈ Grouping.groups (keyOf find.grouping) rows) {members : List Tuple} (hp : members.Perm g.2) :
    groupRow find (groupOf (g.1, members)) = .ok (groupRowOf find g) ∧ groupRowOf find (g.1, members) = groupRowOf find g ∧
      (groupRowOf find g).length = find.grouping.length + find.aggregates.length := by
  obtain ⟨hmembers, row, hrow, hkey⟩ := Grouping.mem_groups hg
  have hsub : ∀ other ∈ g.2, other ∈ rows := by
    intro other hother
    rw [hmembers] at hother
    exact (List.mem_filter.1 hother).1
  have hspec : ∀ spec ∈ find.aggregates, Steady spec g.2 := by
    intro spec hspec
    rw [hmembers, ← hkey]
    exact hsteady row hrow spec hspec
  obtain ⟨values, hlen, hv, hv'⟩ := aggregateValues_perm hspec (fun other hother => hfits.arguments other (hsub other hother)) hp
  have hrow1 : groupRow find (groupOf g) = .ok (appendAggregateValues g.1 values) := by
    unfold groupRow groupOf
    dsimp only
    rw [hv]
    rfl
  have hrow2 : groupRow find (groupOf (g.1, members)) = .ok (appendAggregateValues g.1 values) := by
    unfold groupRow groupOf
    dsimp only
    rw [hv']
    rfl
  unfold groupRowOf
  rw [hrow1, hrow2]
  refine ⟨rfl, rfl, ?_⟩
  change (appendAggregateValues g.1 values).length = _
  have hkeylen : g.1.length = find.grouping.length := by rw [← hkey, keyOf, List.length_map]
  simp [appendAggregateValues, hkeylen, hlen]

/-- The rows of the groups, where nothing throws. -/
theorem aggregatedRows_eq {find : FindSpec} (hfits : Fits find rows) (hsteady : SteadyFind find rows) (hp : rows'.Perm rows) :
    aggregatedRows rows' find =
      .ok (((Grouping.groups (keyOf find.grouping) rows').map (groupRowOf find)).filter (passes find)) := by
  have hfits' := hfits.perm hp
  -- Each group of the enumeration is a group of the rows, with its members in another order.
  have hgroup : ∀ g ∈ Grouping.groups (keyOf find.grouping) rows',
      groupRow find (groupOf g) = .ok (groupRowOf find g) ∧
        (groupRowOf find g).length = find.grouping.length + find.aggregates.length := by
    intro g hg
    obtain ⟨hmembers, row, hrow, hkey⟩ := Grouping.mem_groups hg
    have hg' : (g.1, rows.filter fun other => decide (keyOf find.grouping other = g.1)) ∈
        Grouping.groups (keyOf find.grouping) rows :=
      List.mem_map.2 ⟨g.1, Grouping.mem_firsts.2 (List.mem_map.2 ⟨row, hp.subset hrow, hkey⟩), rfl⟩
    have hperm : g.2.Perm (rows.filter fun other => decide (keyOf find.grouping other = g.1)) := by
      rw [hmembers]
      exact hp.filter _
    obtain ⟨h1, h2, h3⟩ := groupRow_eq hfits hsteady hg' hperm
    exact ⟨h1.trans (congrArg _ h2.symm), h2 ▸ h3⟩
  unfold aggregatedRows
  rw [groupRows_eq hfits'.grouping]
  have hmap : ((Grouping.groups (keyOf find.grouping) rows').map groupOf).mapM (groupRow find) =
      .ok ((Grouping.groups (keyOf find.grouping) rows').map (groupRowOf find)) := by
    rw [List.mapM_map]
    exact ExceptList.mapM_eq_ok fun g hg => (hgroup g hg).1
  simp only [bind, Except.bind, hmap]
  refine ExceptList.filterM_eq_ok fun row hrow => havingPasses_eq fun clause hclause => ?_
  obtain ⟨g, hg, rfl⟩ := List.mem_map.1 hrow
  obtain ⟨hlo, hhi⟩ := hfits.having clause hclause
  have hlen := (hgroup g hg).2
  constructor <;> omega

/-- Another enumeration permutes the rows of the groups. -/
theorem aggregatedRows_perm {find : FindSpec} (hfits : Fits find rows) (hsteady : SteadyFind find rows) (hp : rows'.Perm rows) :
    ∃ result result' : List Tuple, aggregatedRows rows find = .ok result ∧ aggregatedRows rows' find = .ok result' ∧
      result'.Perm result := by
  refine ⟨_, _, aggregatedRows_eq hfits hsteady (List.Perm.refl rows), aggregatedRows_eq hfits hsteady hp, List.Perm.filter _ ?_⟩
  exact Grouping.groups_perm hp (groupRowOf find) fun g hg members hm => (groupRow_eq hfits hsteady hg hm).2.1

/-- The rows of a find of which a group overflows. -/
theorem aggregatedRows_overflows {find : FindSpec} (hfits : Fits find rows) (h : Overflows find rows) :
    aggregatedRows rows find = .error integerOverflow := by
  obtain ⟨row, hrow, spec, hspec, hop, ns, hout, hnumbers⟩ := h
  have hreads : ∀ g ∈ Grouping.groups (keyOf find.grouping) rows, ∀ spec ∈ find.aggregates, ∀ other ∈ g.2, ReadsColumn spec other := by
    intro g hg spec hspec other hother
    rw [(Grouping.mem_groups hg).1] at hother
    exact hfits.arguments other (List.mem_filter.1 hother).1 spec hspec
  have hgroup : (keyOf find.grouping row, rows.filter fun other => decide (keyOf find.grouping other = keyOf find.grouping row)) ∈
      Grouping.groups (keyOf find.grouping) rows := List.mem_map.2 ⟨_, Grouping.mem_firsts.2 (List.mem_map_of_mem hrow), rfl⟩
  have hcount : spec.operator ≠ ⟨"count"⟩ := by
    rcases hop with hop | hop <;> rw [hop] <;> decide
  have hvalue : aggregateValue (rows.filter fun other => decide (keyOf find.grouping other = keyOf find.grouping row)) spec =
      .error integerOverflow := by
    have hsum := sumValues_eq fun other hother => hreads _ hgroup spec hspec other hother hcount
    rw [hnumbers, sumOf_outside hout] at hsum
    unfold aggregateValue
    rcases hop with hop | hop <;> simp [hop, hsum, bind, Except.bind]
  have hvalues : ∀ g ∈ Grouping.groups (keyOf find.grouping) rows, ∀ s ∈ find.aggregates, ∀ fault,
      aggregateValue g.2 s = .error fault → fault = integerOverflow := fun g hg s hs _ => aggregateValue_error (hreads g hg s hs)
  have hrows : ((Grouping.groups (keyOf find.grouping) rows).map groupOf).mapM (groupRow find) = .error integerOverflow := by
    rw [List.mapM_map]
    refine ExceptList.mapM_eq_error (fun g hg fault he => ?_) hgroup ?_
    · dsimp only [Function.comp_def, groupRow, aggregateValues, groupOf] at he
      cases hv : find.aggregates.mapM (aggregateValue g.2) with
      | error fault' =>
        obtain ⟨s, hs, hf⟩ := ExceptList.exists_of_mapM_error hv
        rw [hv] at he
        cases he
        exact hvalues g hg s hs _ hf
      | ok values =>
        rw [hv] at he
        cases he
    · dsimp only [Function.comp_def, groupRow, aggregateValues, groupOf]
      rw [ExceptList.mapM_eq_error (hvalues _ hgroup) hspec hvalue]
      rfl
  unfold aggregatedRows
  rw [groupRows_eq hfits.grouping]
  simp only [bind, Except.bind, hrows]

theorem numericColumnError_perm {specs : List AggregateSpec} (h : ∀ row ∈ rows, ∀ spec ∈ specs, ReadsColumn spec row)
    (hp : rows'.Perm rows) : numericColumnError rows' specs = numericColumnError rows specs := by
  induction specs with
  | nil => rfl
  | cons spec specs ih =>
    have hrest := ih fun row hrow other hother => h row hrow other (List.mem_cons_of_mem _ hother)
    unfold numericColumnError
    rw [hrest]
    split
    · rename_i hnumeric
      have hne : spec.operator ≠ ⟨"count"⟩ := by
        intro hc
        rw [hc] at hnumeric
        simp [numericAggregateOperators] at hnumeric
      have hcolumn : ∀ row ∈ rows, InRow row (spec.argument.getD 0) := fun row hrow => h row hrow spec List.mem_cons_self hne
      dsimp only
      rw [nonnumericRow_eq hcolumn, nonnumericRow_eq fun row hrow => hcolumn row (hp.subset hrow)]
      have hany : (rows'.any fun row => (numberAtom (valueAt row (spec.argument.getD 0))).isNone) =
          rows.any fun row => (numberAtom (valueAt row (spec.argument.getD 0))).isNone := by
        rw [Bool.eq_iff_iff, List.any_eq_true, List.any_eq_true]
        simp only [hp.mem_iff]
      rw [hany]
    · rfl

/-- The rows have the columns of the order clauses, whose comparison is transitive on them. -/
def Ordered (plan : QueryPlan) (rows : List Tuple) : Prop :=
  (∀ row ∈ rows, HasColumns plan.order row) ∧
    ∀ a ∈ rows, ∀ b ∈ rows, ∀ c ∈ rows, Below plan.order a b → Below plan.order b c → Below plan.order a c

theorem ordered_of_nil {plan : QueryPlan} (h : plan.order = []) : Ordered plan rows := by
  unfold Ordered
  rw [h]
  refine ⟨fun row _ => hasColumns_nil row, fun a ha b hb c hc => ?_⟩
  simp only [below_iff (hasColumns_nil _) (hasColumns_nil _)]
  exact rowLe_nil_trans a ha b hb c hc

/-- **Aggregates.** On a column of integers the count is exact, the sum is exact or the error of an overflow, and the extremes are the
least and the greatest integer when no other rounds to its double. The rows of the groups do not depend on the enumeration of the set when
no sum of integers can leave the range of an integer, nothing sums doubles, and each extreme is one number; nor does the result, in any
order that is transitive on them. The result does not depend on it either where a sum is out of range, or a column holds no number. -/
theorem aggregates (host : QueryHost) (plan : QueryPlan) (rows : List Tuple) : (∀ (members : List Tuple) (column : Int) (ns : List Int),
      columnValues members column = .ok (ns.map fun n => .atom (.int n)) → AggregatesIntegers members column ns) ∧
    (Fits plan.find rows → ∀ rows' : List Tuple, rows'.Perm rows →
      (SteadyFind plan.find rows → ∃ result result' : List Tuple,
        aggregatedRows rows plan.find = .ok result ∧ aggregatedRows rows' plan.find = .ok result' ∧ result'.Perm result ∧
          (plan.order = [] ∨ Ordered plan result → aggregateResult host rows' plan = aggregateResult host rows plan)) ∧
      (Overflows plan.find rows ∨ (∃ error, numericColumnError rows plan.find.aggregates = .ok (some error)) →
        aggregateResult host rows' plan = aggregateResult host rows plan)) := by
  refine ⟨fun members column ns h => aggregatesIntegers h, fun hfits rows' hp => ?_⟩
  have hempty : rows'.isEmpty = rows.isEmpty := by
    rw [Bool.eq_iff_iff, List.isEmpty_iff, List.isEmpty_iff]
    exact ⟨fun he => (he ▸ hp).symm.eq_nil, fun he => (he ▸ hp).eq_nil⟩
  have herror := numericColumnError_perm hfits.arguments hp
  refine ⟨fun hsteady => ?_, fun h => ?_⟩
  · obtain ⟨result, result', hresult, hresult', hperm⟩ := aggregatedRows_perm hfits hsteady hp
    refine ⟨result, result', hresult, hresult', hperm, fun horder => ?_⟩
    obtain ⟨hcolumns, htrans⟩ := horder.elim ordered_of_nil id
    have hordered : orderedPlanRows plan result' = orderedPlanRows plan result :=
      ((trueSort_iff hcolumns).2 htrans).enumeration result' hperm plan.limit
    unfold aggregateResult
    simp only [hempty, herror, hresult, hresult', bind, Except.bind, hperm.length_eq, hordered]
  · unfold aggregateResult
    rw [hempty, herror]
    rcases h with h | ⟨error, he⟩
    · rw [aggregatedRows_overflows hfits h, aggregatedRows_overflows (hfits.perm hp) (h.perm hp)]
    · rw [he]
      rfl

end Groups

/-- A find of the sum, the least and the greatest of a column, in one group. -/
def extremesOfColumn : FindSpec := ⟨"scores", [], [⟨⟨"sum"⟩, some 0⟩, ⟨⟨"min"⟩, some 0⟩, ⟨⟨"max"⟩, some 0⟩], []⟩

/-- The rows of two integers. -/
def twoScores : List Tuple := [[.atom (.int 2)], [.atom (.int 3)]]

theorem fits_twoScores : Fits extremesOfColumn twoScores := by
  have hlen : ∀ row ∈ twoScores, row.length = 1 := by decide
  refine ⟨fun _ _ p hp => absurd hp List.not_mem_nil, fun row hrow spec hspec _ => ?_, fun _ hclause => absurd hclause List.not_mem_nil⟩
  have hcolumn : spec.argument.getD 0 = 0 := by
    fin_cases hspec <;> rfl
  rw [hcolumn]
  exact ⟨le_refl 0, by rw [hlen row hrow]; norm_num⟩

/-- Two integers, in both enumerations, ordered by their sum. -/
theorem aggregates_two : AggregatesIntegers twoScores 0 [2, 3] ∧
      ∃ result result' : List Tuple, aggregatedRows twoScores extremesOfColumn = .ok result ∧
        aggregatedRows twoScores.reverse extremesOfColumn = .ok result' ∧ result'.Perm result ∧
        aggregateResult ⟨Char.isAlphanum, Char.isWhitespace, none⟩ twoScores.reverse ⟨extremesOfColumn, [], [⟨0, ⟨"asc"⟩⟩], none⟩ =
          aggregateResult ⟨Char.isAlphanum, Char.isWhitespace, none⟩ twoScores ⟨extremesOfColumn, [], [⟨0, ⟨"asc"⟩⟩], none⟩ := by
  have hboth := aggregates ⟨Char.isAlphanum, Char.isWhitespace, none⟩ ⟨extremesOfColumn, [], [⟨0, ⟨"asc"⟩⟩], none⟩ twoScores
  have hsteady : SteadyFind extremesOfColumn twoScores := by
    intro row hrow spec hspec
    have hall : (twoScores.filter fun other => decide (keyOf extremesOfColumn.grouping other = keyOf extremesOfColumn.grouping row)) =
        twoScores := List.filter_eq_self.2 fun other _ => by simp [keyOf, extremesOfColumn]
    have hcolumn : spec.argument.getD 0 = 0 := by
      fin_cases hspec <;> rfl
    have hapart : ∀ maximum, OneExtreme maximum (numbersOf twoScores 0) := fun maximum =>
      oneExtreme_of_apart (by with_unfolding_all decide) (by with_unfolding_all decide)
    unfold Steady
    rw [hall, hcolumn]
    exact ⟨fun _ => Or.inl ⟨[2, 3], rfl, by decide, by decide⟩, fun _ => hapart false, fun _ => hapart true⟩
  obtain ⟨result, result', hresult, hresult', hperm, hsame⟩ := (hboth.2 fits_twoScores twoScores.reverse (List.reverse_perm _)).1 hsteady
  have hone : aggregatedRows twoScores extremesOfColumn = .ok [[.atom (.int 5), .atom (.int 2), .atom (.int 3)]] := by decide +kernel
  refine ⟨hboth.1 twoScores 0 [2, 3] rfl, result, result', hresult, hresult', hperm, hsame (.inr ?_)⟩
  cases hone.symm.trans hresult
  refine ⟨fun row hrow clause hclause => ?_, fun a ha b hb c hc hab _ => ?_⟩
  · fin_cases hrow
    fin_cases hclause
    decide
  · rw [List.mem_singleton] at ha hb hc
    subst ha hb hc
    exact hab

/-- The greatest of two to the fifty-third and its successor is whichever comes first; a sum of integers overflows in one enumeration
and not in another; and so do doubles round. -/
theorem aggregates_by_enumeration :
    aggregatedRows [[.atom (.int 9007199254740992)], [.atom (.int 9007199254740993)]] ⟨"scores", [], [⟨⟨"max"⟩, some 0⟩], []⟩ =
        .ok [[.atom (.int 9007199254740992)]] ∧
      aggregatedRows [[.atom (.int 9007199254740993)], [.atom (.int 9007199254740992)]] ⟨"scores", [], [⟨⟨"max"⟩, some 0⟩], []⟩ =
        .ok [[.atom (.int 9007199254740993)]] ∧
      aggregatedRows [[.atom (.int 9223372036854775807)], [.atom (.int 1)], [.atom (.int (-1))]]
        ⟨"scores", [], [⟨⟨"sum"⟩, some 0⟩], []⟩ = .error integerOverflow ∧
      aggregatedRows [[.atom (.int 9223372036854775807)], [.atom (.int (-1))], [.atom (.int 1)]]
        ⟨"scores", [], [⟨⟨"sum"⟩, some 0⟩], []⟩ = .ok [[.atom (.int 9223372036854775807)]] ∧
      aggregatedRows [[.atom (.float (F64.ofInt 9007199254740992))], [.atom (.int 1)], [.atom (.int (-9007199254740992))]]
        ⟨"scores", [], [⟨⟨"sum"⟩, some 0⟩], []⟩ = .ok [[.atom (.float F64.zero)]] ∧
      aggregatedRows [[.atom (.float (F64.ofInt 9007199254740992))], [.atom (.int (-9007199254740992))], [.atom (.int 1)]]
        ⟨"scores", [], [⟨⟨"sum"⟩, some 0⟩], []⟩ = .ok [[.atom (.float (F64.ofInt 1))]] := by
  refine ⟨?_, ?_, ?_, ?_, ?_, ?_⟩ <;> decide +kernel

end Query

end Fram
