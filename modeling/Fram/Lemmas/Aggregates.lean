import Fram.Aggregates
import Fram.Lemmas.Ordering
import Fram.Lib.ExceptList
import Fram.Lib.Grouping

/-!
# What aggregates read

Over rows that have the columns they read, the functions of `Fram.Aggregates` do not throw but for a sum past the range of an integer.
The groups are the parts of the rows by key (`groupRows_eq`), the sum of integers is exact while the positive and the negative ones
stay in range (`sumIntegers_of_bounds`), and the extreme is a number of the column that none is past as a double
(`extremeOf_spec`).
-/

namespace Fram

namespace Query

open Datalog

variable {column : Int} {rows rows' : List Tuple} {ns : List Int} {numbers : List NumericAtom} {maximum : Bool}

/-! ## Columns -/

/-- The row has the column. -/
def InRow (row : Tuple) (column : Int) : Prop := 0 ≤ column ∧ column < row.length

/-- The value of a column the row has. -/
def valueAt (row : Tuple) (column : Int) : Term := (columnValue row column).toOption.getD (.atom (.bool false))

theorem columnValue_eq {row : Tuple} (h : InRow row column) : columnValue row column = .ok (valueAt row column) := by
  have hlt : column.toNat < row.length := by
    have := h.1
    have := h.2
    omega
  unfold valueAt columnValue
  rw [if_neg (by have := h.1; omega), nth, List.getElem?_eq_getElem hlt]
  rfl

theorem columnValues_eq (h : ∀ row ∈ rows, InRow row column) : columnValues rows column = .ok (rows.map (valueAt · column)) :=
  ExceptList.mapM_eq_ok fun row hrow => columnValue_eq (h row hrow)

/-- The numbers of a column. -/
def numbersOf (rows : List Tuple) (column : Int) : List NumericAtom := rows.map fun row => requiredNumber (valueAt row column)

/-- The key of a row under a grouping. -/
def keyOf (grouping : List Int) (row : Tuple) : Tuple := grouping.map (valueAt row)

theorem nonnumericRow_eq (h : ∀ row ∈ rows, InRow row column) :
    nonnumericRow column rows = .ok (rows.any fun row => (numberAtom (valueAt row column)).isNone) := by
  induction rows with
  | nil => rfl
  | cons row rows ih =>
    have hrest := ih fun other hother => h other (List.mem_cons_of_mem _ hother)
    rw [nonnumericRow, columnValue_eq (h row List.mem_cons_self), List.any_cons]
    simp only [bind, Except.bind, hrest]
    cases (numberAtom (valueAt row column)).isNone <;> rfl

/-! ## Groups -/

/-- A group of rows under its key. -/
def groupOf (g : Tuple × List Tuple) : AggregateGroup := ⟨rowKey g.1, g.1, g.2⟩

/-- A row joins the group of its key, or begins one behind the others. -/
theorem addToGroup_eq (groups : List (Tuple × List Tuple)) (key : Tuple) (row : Tuple) : addToGroup (groups.map groupOf) key row =
      (if key ∈ groups.map (·.1) then groups.map fun g => if g.1 = key then (g.1, g.2 ++ [row]) else g
        else groups ++ [(key, [row])]).map groupOf := by
  have hkey : ∀ g : Tuple × List Tuple, (groupOf g).keyText = rowKey key ↔ g.1 = key := fun g =>
    ⟨fun h => rowKey_injective h, fun h => congrArg rowKey h⟩
  have hany : (groups.map groupOf).any (fun group => group.keyText == rowKey key) = true ↔ key ∈ groups.map (·.1) := by
    simp only [List.any_map, List.any_eq_true, Function.comp, beq_iff_eq, hkey, List.mem_map]
  unfold addToGroup
  split
  · rename_i h
    rw [if_pos (hany.1 h), List.map_map, List.map_map]
    refine List.map_congr_left fun g _ => ?_
    simp only [Function.comp, hkey]
    split <;> rfl
  · rename_i h
    rw [if_neg fun hk => h (hany.2 hk), List.map_append]
    rfl

/-- The rows by group are the parts of the rows by key. -/
theorem groupRows_eq {grouping : List Int} (h : ∀ row ∈ rows, ∀ p ∈ grouping, InRow row p) :
    groupRows rows grouping = .ok ((Grouping.groups (keyOf grouping) rows).map groupOf) := by
  induction rows using List.reverseRecOn with
  | nil => rfl
  | append_singleton rows row ih =>
    have hrows := ih fun other hother => h other (List.mem_append_left _ hother)
    have hkey : grouping.mapM (columnValue row) = .ok (keyOf grouping row) :=
      ExceptList.mapM_eq_ok fun p hp => columnValue_eq (h row (by simp) p hp)
    have hkeys : keyOf grouping row ∈ (Grouping.groups (keyOf grouping) rows).map (·.1) ↔
        keyOf grouping row ∈ rows.map (keyOf grouping) := by
      simp [Grouping.groups, Function.comp_def]
    unfold groupRows at hrows ⊢
    rw [List.foldlM_append, hrows]
    simp only [bind, Except.bind, List.foldlM_cons, List.foldlM_nil, hkey]
    rw [addToGroup_eq, Grouping.groups_concat]
    by_cases hk : keyOf grouping row ∈ rows.map (keyOf grouping)
    · rw [if_pos hk, if_pos (hkeys.2 hk)]
      rfl
    · rw [if_neg hk, if_neg fun h => hk (hkeys.1 h)]
      rfl

/-! ## Sums of integers -/

/-- The range of an integer. -/
def InRange (n : Int) : Prop := -9223372036854775808 ≤ n ∧ n ≤ 9223372036854775807

/-- The fault of a sum past the range of an integer. -/
def integerOverflow : Fault := ⟨⟨"ArithmeticException"⟩, "integer overflow"⟩

/-- The sum of the positive ones. -/
def positiveSum (ns : List Int) : Int := (ns.map (max 0 ·)).sum

/-- The sum of the negative ones. -/
def negativeSum (ns : List Int) : Int := (ns.map (min 0 ·)).sum

/-- The sum of integers from the left, checked at each step. -/
def sumIntegers (start : Int) (ns : List Int) : Except Fault Int := ns.foldlM Database.addLong start

/-- A sum that returns is exact, and in range. -/
theorem sumIntegers_cases (ns : List Int) (start : Int) (h : InRange start) :
    (sumIntegers start ns = .ok (start + ns.sum) ∧ InRange (start + ns.sum)) ∨ sumIntegers start ns = .error integerOverflow := by
  induction ns generalizing start with
  | nil => exact Or.inl ⟨by simp [sumIntegers]; rfl, by simpa using h⟩
  | cons n ns ih =>
    simp only [sumIntegers, List.foldlM_cons, Database.addLong, List.sum_cons]
    split
    · rename_i hr
      have := ih (start + n) hr
      rw [add_assoc] at this
      exact this
    · exact Or.inr rfl

/-- A sum returns when the positive and the negative integers stay in range. -/
theorem sumIntegers_of_bounds (ns : List Int) (start : Int) (hp : start + positiveSum ns ≤ 9223372036854775807)
    (hn : -9223372036854775808 ≤ start + negativeSum ns) : sumIntegers start ns = .ok (start + ns.sum) := by
  have hpos : ∀ ns : List Int, 0 ≤ positiveSum ns := fun ns => List.sum_nonneg (by simp)
  have hneg : ∀ ns : List Int, negativeSum ns ≤ 0 := fun ns => by
    induction ns with
    | nil => exact le_refl _
    | cons n ns ih =>
      have : negativeSum (n :: ns) = min 0 n + negativeSum ns := by simp [negativeSum]
      omega
  induction ns generalizing start with
  | nil => simp [sumIntegers]; rfl
  | cons n ns ih =>
    have hp' : positiveSum (n :: ns) = max 0 n + positiveSum ns := by simp [positiveSum]
    have hn' : negativeSum (n :: ns) = min 0 n + negativeSum ns := by simp [negativeSum]
    have h1 := hpos ns
    have h2 := hneg ns
    have hrest := ih (start + n) (by omega) (by omega)
    simp only [sumIntegers, List.foldlM_cons, Database.addLong, List.sum_cons]
    rw [if_pos (by omega)]
    rw [add_assoc] at hrest
    exact hrest

theorem positiveSum_perm {ns' : List Int} (h : ns'.Perm ns) : positiveSum ns' = positiveSum ns := (h.map _).sum_eq

theorem negativeSum_perm {ns' : List Int} (h : ns'.Perm ns) : negativeSum ns' = negativeSum ns := (h.map _).sum_eq

/-- The number is an integer. -/
def NumericAtom.isInt : NumericAtom → Bool
  | .int _ => true
  | .float _ => false

/-- The sum of numbers, of integers or else of doubles. -/
def sumOf (numbers : List NumericAtom) : Except Fault NumericAtom :=
  if numbers.all NumericAtom.isInt then (sumIntegers 0 (numbers.map numericInt)).map .int
  else .ok (.float (numbers.foldl (fun sum number => sum.add (numericFloat number)) F64.zero))

theorem sumValues_of {values : List Term} (h : columnValues rows column = .ok values) :
    sumValues rows column = sumOf (values.map requiredNumber) := by
  have hall : allIntegers values = (values.map requiredNumber).all NumericAtom.isInt := by
    unfold allIntegers
    rw [List.all_map]
    rfl
  unfold sumValues sumOf sumIntegers
  rw [h, ← hall]
  simp only [bind, Except.bind, List.foldlM_map, List.foldl_map]
  cases allIntegers values
  · rfl
  · cases values.foldlM (fun sum value => Database.addLong sum (numericInt (requiredNumber value))) 0 <;> rfl

theorem sumValues_eq (h : ∀ row ∈ rows, InRow row column) : sumValues rows column = sumOf (numbersOf rows column) := by
  rw [sumValues_of (columnValues_eq h), List.map_map]
  rfl

theorem sumOf_int (ns : List Int) : sumOf (ns.map .int) = (sumIntegers 0 ns).map .int := by
  have hall : (ns.map NumericAtom.int).all NumericAtom.isInt = true := by simp [NumericAtom.isInt]
  have hid : ns.map (numericInt ∘ NumericAtom.int) = ns := List.map_id' ns
  rw [sumOf, if_pos hall, List.map_map, hid]

/-- Numbers that are integers are the integers of a list. -/
theorem exists_ints_of_perm (hp : numbers.Perm (ns.map .int)) : ∃ ns' : List Int, ns'.Perm ns ∧ numbers = ns'.map .int := by
  have hid : (ns.map NumericAtom.int).map numericInt = ns := by
    rw [List.map_map]
    exact List.map_id' ns
  refine ⟨numbers.map numericInt, hid ▸ hp.map numericInt, ?_⟩
  rw [List.map_map]
  refine (List.map_id numbers).symm.trans (List.map_congr_left fun a ha => ?_)
  obtain ⟨n, -, rfl⟩ := List.mem_map.1 (hp.subset ha)
  rfl

/-- Integers whose positive and negative ones stay in range, or one double. -/
def SteadySum (numbers : List NumericAtom) : Prop :=
  (∃ ns : List Int, numbers = ns.map .int ∧ positiveSum ns ≤ 9223372036854775807 ∧ -9223372036854775808 ≤ negativeSum ns) ∨
    ∃ x, numbers = [.float x]

/-- A steady sum returns the same for another enumeration. -/
theorem SteadySum.perm {numbers' : List NumericAtom} (h : SteadySum numbers) (hp : numbers'.Perm numbers) :
    ∃ sum, sumOf numbers = .ok sum ∧ sumOf numbers' = .ok sum := by
  rcases h with ⟨ns, rfl, hpos, hneg⟩ | ⟨x, rfl⟩
  · obtain ⟨ns', hns', rfl⟩ := exists_ints_of_perm hp
    have hsum := sumIntegers_of_bounds ns 0 (by omega) (by omega)
    have hsum' := sumIntegers_of_bounds ns' 0 (by rw [positiveSum_perm hns']; omega) (by rw [negativeSum_perm hns']; omega)
    rw [hns'.sum_eq] at hsum'
    exact ⟨.int (0 + ns.sum), by rw [sumOf_int, hsum]; rfl, by rw [sumOf_int, hsum']; rfl⟩
  · rw [List.perm_singleton.1 hp]
    exact ⟨_, rfl, rfl⟩

/-- A sum throws nothing but an overflow. -/
theorem sumOf_error {fault : Fault} (h : sumOf numbers = .error fault) : fault = integerOverflow := by
  unfold sumOf at h
  split at h
  · rcases sumIntegers_cases (numbers.map numericInt) 0 ⟨by norm_num, by norm_num⟩ with ⟨he, -⟩ | he <;> rw [he] at h <;> cases h
    rfl
  · cases h

/-- A sum of integers out of range overflows. -/
theorem sumOf_outside (h : ¬InRange ns.sum) : sumOf (ns.map .int) = .error integerOverflow := by
  rw [sumOf_int]
  rcases sumIntegers_cases ns 0 ⟨by norm_num, by norm_num⟩ with ⟨-, hin⟩ | he
  · rw [zero_add] at hin
    exact absurd hin h
  · rw [he]
    rfl

/-! ## Extremes -/

/-- The first number is not past the second, as a double. -/
def NotPast (maximum : Bool) (a b : NumericAtom) : Prop :=
  if maximum then (numericFloat a).place ≤ (numericFloat b).place else (numericFloat b).place ≤ (numericFloat a).place

theorem NotPast.trans {a b c : NumericAtom} (h : NotPast maximum a b) (h' : NotPast maximum b c) : NotPast maximum a c := by
  unfold NotPast at *
  split <;> rename_i hm <;> simp only [hm, if_true, Bool.false_eq_true, if_false] at h h' <;> omega

/-- The extreme of numbers, read from the left. -/
def extremeOf (maximum : Bool) (numbers : List NumericAtom) : Option NumericAtom :=
  numbers.foldl (fun best number => some (best.elim number fun best => betterOf maximum best number)) none

theorem extremeValue_of {values : List Term} (h : columnValues rows column = .ok values)
    (maximum : Bool) : extremeValue rows column maximum = .ok (extremeOf maximum (values.map requiredNumber)) := by
  unfold extremeValue extremeOf
  rw [h]
  simp only [bind, Except.bind, List.foldl_map]

theorem extremeValue_eq (h : ∀ row ∈ rows, InRow row column) (maximum : Bool) :
    extremeValue rows column maximum = .ok (extremeOf maximum (numbersOf rows column)) := by
  rw [extremeValue_of (columnValues_eq h), List.map_map]
  rfl

theorem extremeOf_concat (maximum : Bool) (numbers : List NumericAtom) (number : NumericAtom) : extremeOf maximum (numbers ++ [number]) =
      some ((extremeOf maximum numbers).elim number fun best => betterOf maximum best number) := by
  simp [extremeOf, List.foldl_append]

/-- The better of two numbers is one of them, and none of them is past it. -/
theorem betterOf_spec (maximum : Bool) {best number : NumericAtom} (hb : (numericFloat best).isNaN = false)
    (hn : (numericFloat number).isNaN = false) : (betterOf maximum best number = best ∨ betterOf maximum best number = number) ∧
      NotPast maximum best (betterOf maximum best number) ∧ NotPast maximum number (betterOf maximum best number) := by
  have htest : (if maximum then (numericFloat best).lt (numericFloat number) else (numericFloat number).lt (numericFloat best)) = true ↔
      ¬NotPast maximum number best := by
    unfold NotPast F64.lt
    cases maximum <;> simp [hb, hn]
  have hself : ∀ a, NotPast maximum a a := by
    intro a
    unfold NotPast
    split <;> exact le_refl _
  by_cases hp : NotPast maximum number best
  · have he : betterOf maximum best number = best := by
      unfold betterOf
      rw [if_neg fun h => htest.1 h hp]
    rw [he]
    exact ⟨Or.inl rfl, hself best, hp⟩
  · have he : betterOf maximum best number = number := by
      unfold betterOf
      rw [if_pos (htest.2 hp)]
    rw [he]
    refine ⟨Or.inr rfl, ?_, hself number⟩
    unfold NotPast at hp ⊢
    cases maximum <;> simp only [if_true, Bool.false_eq_true, if_false] at hp ⊢ <;> omega

/-- The extreme of numbers is one of them that none is past. -/
theorem extremeOf_spec (maximum : Bool) (hne : numbers ≠ []) (hn : ∀ a ∈ numbers, (numericFloat a).isNaN = false) :
    ∃ r ∈ numbers, extremeOf maximum numbers = some r ∧ ∀ a ∈ numbers, NotPast maximum a r := by
  induction numbers using List.reverseRecOn with
  | nil => exact absurd rfl hne
  | append_singleton numbers number ih =>
    rw [extremeOf_concat]
    have hnumber := hn number (by simp)
    by_cases he : numbers = []
    · subst he
      refine ⟨number, by simp, rfl, fun a ha => ?_⟩
      rw [List.nil_append, List.mem_singleton] at ha
      subst ha
      unfold NotPast
      split <;> exact le_refl _
    · obtain ⟨best, hmem, hbest, hpast⟩ := ih he fun a ha => hn a (List.mem_append_left _ ha)
      have hb := hn best (List.mem_append_left _ hmem)
      obtain ⟨hone, hleft, hright⟩ := betterOf_spec maximum hb hnumber
      rw [hbest]
      refine ⟨betterOf maximum best number, ?_, rfl, fun a ha => ?_⟩
      · rcases hone with h | h <;> rw [h] <;> simp [hmem]
      · rcases List.mem_append.1 ha with ha | ha
        · exact (hpast a ha).trans hleft
        · rw [List.mem_singleton.1 ha]
          exact hright

/-- The numbers are one number, or no NaN is among them and one number only is past all others. -/
def OneExtreme (maximum : Bool) (numbers : List NumericAtom) : Prop :=
  (∃ a, ∀ b ∈ numbers, b = a) ∨ ((∀ a ∈ numbers, (numericFloat a).isNaN = false) ∧
    ∀ a ∈ numbers, ∀ b ∈ numbers, (∀ c ∈ numbers, NotPast maximum c a) → (∀ c ∈ numbers, NotPast maximum c b) → a = b)

/-- Numbers that stand at different places have one extreme. -/
theorem oneExtreme_of_apart (hnan : ∀ a ∈ numbers, (numericFloat a).isNaN = false)
    (hapart : ∀ a ∈ numbers, ∀ b ∈ numbers, (numericFloat a).place = (numericFloat b).place → a = b) : OneExtreme maximum numbers := by
  refine Or.inr ⟨hnan, fun a ha b hb hpast hpast' => hapart a ha b hb ?_⟩
  have h1 := hpast b hb
  have h2 := hpast' a ha
  unfold NotPast at h1 h2
  cases maximum <;> simp only [if_true, Bool.false_eq_true, if_false] at h1 h2 <;> omega

/-- The one extreme is that of another enumeration. -/
theorem OneExtreme.perm {numbers' : List NumericAtom} (h : OneExtreme maximum numbers)
    (hp : numbers'.Perm numbers) : extremeOf maximum numbers' = extremeOf maximum numbers := by
  rcases h with ⟨a, ha⟩ | ⟨hnan, hone⟩
  · have hrep : numbers = List.replicate numbers.length a := List.eq_replicate_iff.2 ⟨rfl, ha⟩
    have hrep' : numbers' = List.replicate numbers'.length a := List.eq_replicate_iff.2 ⟨rfl, fun b hb => ha b (hp.subset hb)⟩
    rw [hrep', hp.length_eq, ← hrep]
  · by_cases he : numbers = []
    · subst he
      rw [hp.eq_nil]
    · have he' : numbers' ≠ [] := by
        rintro rfl
        exact he hp.symm.eq_nil
      obtain ⟨r, hr, hext, hpast⟩ := extremeOf_spec maximum he hnan
      obtain ⟨r', hr', hext', hpast'⟩ := extremeOf_spec maximum he' fun a ha => hnan a (hp.subset ha)
      rw [hext, hext', hone r' (hp.subset hr') r hr (fun c hc => hpast' c (hp.symm.subset hc)) hpast]

/-! ## Aggregates of a group -/

/-- The aggregate does not depend on the enumeration of the rows. -/
def Steady (spec : AggregateSpec) (rows : List Tuple) : Prop :=
  (spec.operator = ⟨"sum"⟩ ∨ spec.operator = ⟨"avg"⟩ → SteadySum (numbersOf rows (spec.argument.getD 0))) ∧
    (spec.operator = ⟨"min"⟩ → OneExtreme false (numbersOf rows (spec.argument.getD 0))) ∧
    (spec.operator = ⟨"max"⟩ → OneExtreme true (numbersOf rows (spec.argument.getD 0)))

/-- The row has the column that the aggregate reads. -/
def ReadsColumn (spec : AggregateSpec) (row : Tuple) : Prop := spec.operator ≠ ⟨"count"⟩ → InRow row (spec.argument.getD 0)

theorem numbersOf_perm (h : rows'.Perm rows) (column : Int) : (numbersOf rows' column).Perm (numbersOf rows column) := h.map _

theorem distinctColumnCount_eq (h : ∀ row ∈ rows, InRow row column) :
    distinctColumnCount rows column = .ok (Grouping.firsts (rows.map fun row => termKey (valueAt row column))).length := by
  unfold distinctColumnCount
  rw [columnValues_eq h]
  simp only [bind, Except.bind, List.map_map, Function.comp_def]
  rfl

/-- A steady aggregate is the same for another enumeration. -/
theorem Steady.perm {spec : AggregateSpec} (h : Steady spec rows) (hcolumn : ∀ row ∈ rows, ReadsColumn spec row) (hp : rows'.Perm rows) :
    ∃ value, aggregateValue rows spec = .ok value ∧ aggregateValue rows' spec = .ok value := by
  obtain ⟨hsum, hmin, hmax⟩ := h
  unfold aggregateValue
  dsimp only
  by_cases h1 : spec.operator = ⟨"count"⟩
  · rw [if_pos h1, if_pos h1, hp.length_eq]
    exact ⟨_, rfl, rfl⟩
  have hc : ∀ row ∈ rows, InRow row (spec.argument.getD 0) := fun row hrow => hcolumn row hrow h1
  have hc' : ∀ row ∈ rows', InRow row (spec.argument.getD 0) := fun row hrow => hc row (hp.subset hrow)
  have hnumbers := numbersOf_perm hp (spec.argument.getD 0)
  rw [if_neg h1, if_neg h1, distinctColumnCount_eq hc, distinctColumnCount_eq hc', sumValues_eq hc, sumValues_eq hc']
  simp only [extremeValue_eq hc, extremeValue_eq hc']
  by_cases h2 : spec.operator = ⟨"count-distinct"⟩
  · rw [if_pos h2, if_pos h2, (Grouping.firsts_perm (hp.map fun row => termKey (valueAt row (spec.argument.getD 0)))).length_eq]
    exact ⟨_, rfl, rfl⟩
  rw [if_neg h2, if_neg h2]
  by_cases h3 : spec.operator = ⟨"sum"⟩
  · rw [if_pos h3, if_pos h3]
    exact (hsum (Or.inl h3)).perm hnumbers
  rw [if_neg h3, if_neg h3]
  by_cases h4 : spec.operator = ⟨"avg"⟩
  · obtain ⟨sum, hs, hs'⟩ := (hsum (Or.inr h4)).perm hnumbers
    rw [if_pos h4, if_pos h4, hs, hs', hp.length_eq]
    exact ⟨_, rfl, rfl⟩
  rw [if_neg h4, if_neg h4]
  by_cases h5 : spec.operator = ⟨"min"⟩
  · rw [if_pos h5, if_pos h5, (hmin h5).perm hnumbers]
    exact ⟨_, rfl, rfl⟩
  rw [if_neg h5, if_neg h5]
  by_cases h6 : spec.operator = ⟨"max"⟩
  · rw [if_pos h6, if_pos h6, (hmax h6).perm hnumbers]
    exact ⟨_, rfl, rfl⟩
  rw [if_neg h6, if_neg h6]
  exact ⟨_, rfl, rfl⟩

/-- An aggregate throws nothing but an overflow. -/
theorem aggregateValue_error {spec : AggregateSpec} (hcolumn : ∀ row ∈ rows, ReadsColumn spec row) {fault : Fault}
    (h : aggregateValue rows spec = .error fault) : fault = integerOverflow := by
  unfold aggregateValue at h
  dsimp only at h
  by_cases h1 : spec.operator = ⟨"count"⟩
  · rw [if_pos h1] at h
    cases h
  have hc : ∀ row ∈ rows, InRow row (spec.argument.getD 0) := fun row hrow => hcolumn row hrow h1
  rw [distinctColumnCount_eq hc, sumValues_eq hc] at h
  simp only [extremeValue_eq hc] at h
  cases hs : sumOf (numbersOf rows (spec.argument.getD 0)) with
  | error fault' =>
    rw [hs] at h
    split_ifs at h <;> cases h <;> exact sumOf_error hs
  | ok sum =>
    rw [hs] at h
    split_ifs at h <;> cases h

/-! ## The rows of the groups -/

/-- The rows have the columns that the find reads, and its comparisons name its aggregates. -/
structure Fits (find : FindSpec) (rows : List Tuple) : Prop where
  grouping : ∀ row ∈ rows, ∀ p ∈ find.grouping, InRow row p
  arguments : ∀ row ∈ rows, ∀ spec ∈ find.aggregates, ReadsColumn spec row
  having : ∀ clause ∈ find.having, 0 ≤ clause.aggregateIndex ∧ clause.aggregateIndex < find.aggregates.length

/-- Every aggregate of every group is steady. -/
def SteadyFind (find : FindSpec) (rows : List Tuple) : Prop :=
  ∀ row ∈ rows, ∀ spec ∈ find.aggregates,
    Steady spec (rows.filter fun other => decide (keyOf find.grouping other = keyOf find.grouping row))

/-- Some group has a sum of integers that is out of range. -/
def Overflows (find : FindSpec) (rows : List Tuple) : Prop :=
  ∃ row ∈ rows, ∃ spec ∈ find.aggregates, (spec.operator = ⟨"sum"⟩ ∨ spec.operator = ⟨"avg"⟩) ∧ ∃ ns : List Int, ¬InRange ns.sum ∧
    numbersOf (rows.filter fun other => decide (keyOf find.grouping other = keyOf find.grouping row)) (spec.argument.getD 0) = ns.map .int

theorem Overflows.perm {find : FindSpec} (h : Overflows find rows) (hp : rows'.Perm rows) : Overflows find rows' := by
  obtain ⟨row, hrow, spec, hspec, hop, ns, hout, hnumbers⟩ := h
  obtain ⟨ns', hns, hnumbers'⟩ := exists_ints_of_perm (hnumbers ▸ numbersOf_perm (hp.filter _) _)
  exact ⟨row, hp.symm.subset hrow, spec, hspec, hop, ns', hns.sum_eq ▸ hout, hnumbers'⟩

theorem Fits.perm {find : FindSpec} (h : Fits find rows) (hp : rows'.Perm rows) : Fits find rows' :=
  ⟨fun row hrow => h.grouping row (hp.subset hrow), fun row hrow => h.arguments row (hp.subset hrow), h.having⟩

/-- The aggregates of a group are the same for another enumeration of its rows. -/
theorem aggregateValues_perm {specs : List AggregateSpec} (hsteady : ∀ spec ∈ specs, Steady spec rows)
    (hcolumn : ∀ row ∈ rows, ∀ spec ∈ specs, ReadsColumn spec row) (hp : rows'.Perm rows) :
    ∃ values, values.length = specs.length ∧ aggregateValues rows specs = .ok values ∧ aggregateValues rows' specs = .ok values := by
  induction specs with
  | nil => exact ⟨[], rfl, rfl, rfl⟩
  | cons spec specs ih =>
    obtain ⟨values, hlen, hv, hv'⟩ := ih (fun s hs => hsteady s (List.mem_cons_of_mem _ hs))
      fun row hrow s hs => hcolumn row hrow s (List.mem_cons_of_mem _ hs)
    obtain ⟨value, he, he'⟩ := (hsteady spec List.mem_cons_self).perm (fun row hrow => hcolumn row hrow spec List.mem_cons_self) hp
    unfold aggregateValues at hv hv' ⊢
    exact ⟨value :: values, congrArg (· + 1) hlen, by rw [List.mapM_cons, he, hv]; rfl, by rw [List.mapM_cons, he', hv']; rfl⟩

/-- The test of the comparisons on a row. -/
def passes (find : FindSpec) (row : Tuple) : Bool :=
  find.having.all fun clause =>
    comparisonNumber clause.operator (requiredNumber (valueAt row (find.grouping.length + clause.aggregateIndex)))
      (requiredNumber clause.value)

theorem havingPasses_eq {find : FindSpec} {row : Tuple}
    (h : ∀ clause ∈ find.having, InRow row (find.grouping.length + clause.aggregateIndex)) :
    havingPasses row find.grouping.length find.having = .ok (passes find row) := by
  unfold passes
  generalize find.having = clauses at h ⊢
  induction clauses with
  | nil => rfl
  | cons clause clauses ih =>
    have hrest := ih fun other hother => h other (List.mem_cons_of_mem _ hother)
    rw [havingPasses, columnValue_eq (h clause List.mem_cons_self), List.all_cons]
    simp only [bind, Except.bind, hrest]
    split
    · rename_i hc
      rw [hc, Bool.true_and]
    · rename_i hc
      rw [Bool.not_eq_true] at hc
      rw [hc, Bool.false_and]

end Query

end Fram
