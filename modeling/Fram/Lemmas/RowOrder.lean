import Fram.Lemmas.Datalog
import Fram.Lib.Decimal

/-!
# Keys tell rows apart

The key of a row is read back part by part, so different rows have different keys, and ordering the rows of a set by their keys loses
none of them and makes none up (`mem_orderRowVector`).
-/

namespace Fram

namespace Datalog

theorem trimmed_resort (rest : List Char) : ∃ text, trimmed ('#' :: rest) = '#' :: text := by
  let blank := fun c : Char => decide (c.toNat ≤ 32)
  have hkeep : ∀ l : List Char, ∃ l', (l ++ ['#']).dropWhile blank = l' ++ ['#'] := by
    intro l
    induction l with
    | nil => exact ⟨[], rfl⟩
    | cons c l ih =>
      rw [List.cons_append, List.dropWhile_cons]
      split
      · exact ih
      · exact ⟨c :: l, rfl⟩
  obtain ⟨l', hl'⟩ := hkeep rest.reverse
  refine ⟨l'.reverse, ?_⟩
  have hfirst : ('#' :: rest).dropWhile blank = '#' :: rest := rfl
  change ((('#' :: rest).dropWhile blank).reverse.dropWhile blank).reverse = _
  rw [hfirst, List.reverse_cons, hl', List.reverse_append]
  rfl

/-- A text that starts with the mark of last resort spells no double. -/
theorem parseDouble_resort (rest : String) : parseDouble ("#" ++ rest) = none := by
  obtain ⟨text, ht⟩ := trimmed_resort rest.toList
  have hlist : ("#" ++ rest).toList = '#' :: rest.toList := by simp
  unfold parseDouble
  rw [hlist, ht]
  rfl

/-- The text of a double parses to it, or is that of its bits. -/
theorem floatText_injective {x y : F64} (h : floatText x = floatText y) : x = y := by
  have hcases : ∀ z : F64, parseDouble (floatText z) = some z ∨ floatText z = "#" ++ toString z.bits.toNat := by
    intro z
    unfold floatText
    dsimp only
    cases hf : List.find? (fun text => parseDouble text == some z)
        (if z.isNaN then ["NaN"]
          else if z.isInfinite then [if z.isNegative then "-Infinity" else "Infinity"]
          else if z.isZero then [if z.isNegative then "-0.0" else "0.0"]
          else nearestDecimals z.isNegative |z.toRat|) with
    | none => exact Or.inr (by rw [Option.getD_none])
    | some text =>
      have := List.find?_some hf
      exact Or.inl (by simpa using this)
  rcases hcases x with hx | hx
  · rcases hcases y with hy | hy
    · rw [h, hy] at hx
      exact (Option.some.inj hx).symm
    · rw [h, hy, parseDouble_resort] at hx
      cases hx
  · rcases hcases y with hy | hy
    · rw [← h, hx, parseDouble_resort] at hy
      cases hy
    · rw [hx, hy] at h
      have hlist := congrArg String.toList h
      simp only [String.toList_append, Nat.toString_eq_repr, Nat.toList_repr, List.append_cancel_left_eq] at hlist
      have hbits := BitVec.eq_of_toNat_eq (Decimal.toDigits_injective hlist)
      cases x
      cases y
      cases hbits
      rfl

theorem counted_inj {a b : String} {x y : List Char} (h : (countedKey a).toList ++ x = (countedKey b).toList ++ y) : a = b ∧ x = y := by
  simp only [countedKey, lengthKey, String.toList_append, Nat.toString_eq_repr, Nat.toList_repr, String.toList_empty, List.nil_append,
    List.append_assoc] at h
  obtain ⟨hcount, hrest⟩ := Decimal.number_mark_inj (by decide) h
  have hsize : ∀ c : Char, 0 < (utf16Units c).length := by
    intro c
    unfold utf16Units
    split <;> simp
  simp only [textCount, List.length_flatMap] at hcount
  obtain ⟨htext, hxy⟩ := Decimal.measured_inj hsize hcount hrest
  exact ⟨String.toList_inj.1 htext, hxy⟩

theorem lengthKey_injective {tag a b : String} (h : lengthKey tag a = lengthKey tag b) : a = b := by
  have hlist := congrArg String.toList h
  have ha : ∀ v, (lengthKey tag v).toList = tag.toList ++ (countedKey v).toList := by simp [lengthKey, countedKey]
  rw [ha, ha, List.append_cancel_left_eq] at hlist
  exact (counted_inj (x := []) (y := []) (by simpa using hlist)).1

/-- The first character of an atom's key, one for each kind of atom. -/
def atomMark : Atom → Char
  | .string _ => 's'
  | .int _ => 'i'
  | .float _ => 'f'
  | .bool _ => 'b'
  | .keyword _ => 'k'
  | .instant _ => 'm'

theorem head?_atomKey (a : Atom) : (atomKey a).toList.head? = some (atomMark a) := by
  cases a with
  | bool b => cases b <;> rfl
  | string _ => simp [atomKey, lengthKey, atomMark]
  | int _ => simp [atomKey, atomMark]
  | float _ => simp [atomKey, atomMark]
  | keyword _ => simp [atomKey, lengthKey, atomMark]
  | instant _ => simp [atomKey, atomMark]

/-- The first letter of a key tells the kind of the atom, the rest its value. -/
theorem atomKey_injective {a b : Atom} (h : atomKey a = atomKey b) : a = b := by
  have hmark : atomMark a = atomMark b := by
    have := head?_atomKey a
    rw [h, head?_atomKey] at this
    exact (Option.some.inj this).symm
  have hlist := congrArg String.toList h
  cases a <;> cases b
  case string.string => rw [lengthKey_injective h]
  case int.int =>
    simp only [atomKey, String.toList_append, List.append_assoc, List.append_cancel_left_eq] at hlist
    rw [(@Decimal.integer_mark_inj [] [] ';' _ _ (by decide) hlist).1]
  case float.float =>
    simp only [atomKey, String.toList_append, List.append_assoc, List.append_cancel_left_eq, List.append_cancel_right_eq] at hlist
    rw [floatText_injective (String.toList_inj.1 hlist)]
  case bool.bool b b' => cases b <;> cases b' <;> first | rfl | exact absurd h (by decide)
  case keyword.keyword k k' =>
    have hs := congrArg String.toList (lengthKey_injective h)
    simp only [String.toList_append, List.append_cancel_left_eq] at hs
    obtain ⟨spelling⟩ := k
    obtain ⟨spelling'⟩ := k'
    have hspelling : spelling = spelling' := String.toList_inj.1 hs
    rw [hspelling]
  case instant.instant i i' =>
    obtain ⟨seconds, nanos, hc⟩ := i
    obtain ⟨seconds', nanos', hc'⟩ := i'
    simp only [atomKey, String.toList_append, List.append_assoc, List.append_cancel_left_eq] at hlist
    obtain ⟨hseconds, hrest⟩ := @Decimal.integer_mark_inj _ _ ':' _ _ (by decide) hlist
    simp only [Nat.toString_eq_repr, Nat.toList_repr] at hrest
    obtain ⟨hnanos, -⟩ := @Decimal.number_mark_inj [] [] ';' _ _ (by decide) hrest
    subst hseconds
    subst hnanos
    rfl
  all_goals simp [atomMark] at hmark

/-- By induction on the term: keys of subterms are delimited by their lengths. -/
theorem termKey_injective {a b : Term} (h : termKey a = termKey b) : a = b := by
  have hatom : ∀ (x : Atom) (t1 t2 t3 : Term), termKey (.atom x) ≠ termKey (.triple t1 t2 t3) := by
    intro x t1 t2 t3 h
    have hhead := head?_atomKey x
    have hx : (atomKey x).toList = (termKey (.triple t1 t2 t3)).toList := congrArg String.toList h
    rw [hx] at hhead
    have ht : 't' = atomMark x := by simpa [termKey] using hhead
    cases x <;> simp [atomMark] at ht
  induction a generalizing b with
  | atom x =>
    cases b with
    | atom y => rw [atomKey_injective h]
    | triple t1 t2 t3 => exact absurd h (hatom x t1 t2 t3)
  | triple a1 a2 a3 ih1 ih2 ih3 =>
    cases b with
    | atom y => exact absurd h.symm (hatom y a1 a2 a3)
    | triple b1 b2 b3 =>
      have hlist := congrArg String.toList h
      simp only [termKey, String.toList_append, List.append_assoc, List.append_cancel_left_eq] at hlist
      obtain ⟨h1, hlist⟩ := counted_inj hlist
      obtain ⟨h2, hlist⟩ := counted_inj hlist
      obtain ⟨h3, -⟩ := counted_inj (x := []) (y := []) (by simpa using hlist)
      rw [ih1 h1, ih2 h2, ih3 h3]

theorem toList_rowKey (row : Tuple) : (rowKey row).toList = 'r' :: row.flatMap fun value => (countedKey (termKey value)).toList := by
  have hgen : ∀ start : String, (row.foldl (fun key value => key ++ countedKey (termKey value)) start).toList =
      start.toList ++ row.flatMap fun value => (countedKey (termKey value)).toList := by
    induction row with
    | nil => simp
    | cons value row ih =>
      intro start
      rw [List.foldl_cons, ih]
      simp
  exact hgen "r"

/-- Different rows have different keys. -/
theorem rowKey_injective {row row' : Tuple} (h : rowKey row = rowKey row') : row = row' := by
  have hlist := congrArg String.toList h
  rw [toList_rowKey, toList_rowKey, List.cons.injEq] at hlist
  obtain ⟨-, hlist⟩ := hlist
  have hne : ∀ (value : Term) (rest : List Char), [] ≠ (countedKey (termKey value)).toList ++ rest := by
    intro value rest hnil
    simp [countedKey, lengthKey] at hnil
  clear h
  induction row generalizing row' with
  | nil =>
    cases row' with
    | nil => rfl
    | cons value row' => exact absurd (by simpa using hlist) (hne value (row'.flatMap fun v => (countedKey (termKey v)).toList))
  | cons value row ih =>
    cases row' with
    | nil => exact absurd (by simpa using hlist.symm) (hne value (row.flatMap fun v => (countedKey (termKey v)).toList))
    | cons value' row' =>
      simp only [List.flatMap_cons] at hlist
      obtain ⟨hkey, hrest⟩ := counted_inj hlist
      rw [termKey_injective hkey, ih hrest]

/-- The last row that has the key of a row is that row. -/
theorem find_rowKey {rows : List Tuple} {row : Tuple} (h : row ∈ rows) :
    ((rows.reverse.find? fun r => rowKey r == rowKey row).getD []) = row := by
  cases hf : rows.reverse.find? fun r => rowKey r == rowKey row with
  | none =>
    have := List.find?_eq_none.1 hf row (List.mem_reverse.2 h)
    simp at this
  | some found => exact rowKey_injective (by simpa using List.find?_some hf)

/-- The rows in order are the rows. -/
theorem mem_orderRowVector {rows : List Tuple} {row : Tuple} : row ∈ orderRowVector rows ↔ row ∈ rows := by
  unfold orderRowVector
  constructor
  · intro h
    obtain ⟨key, hkey, rfl⟩ := List.mem_map.1 h
    obtain ⟨r, hr, rfl⟩ := List.mem_map.1 ((List.mergeSort_perm _ _).mem_iff.1 hkey)
    rw [find_rowKey hr]
    exact hr
  · intro h
    exact List.mem_map.2 ⟨rowKey row, (List.mergeSort_perm _ _).mem_iff.2 (List.mem_map_of_mem h), find_rowKey h⟩

/-- Rows that stand in the order of their keys stay as they are. -/
theorem orderRowVector_of_pairwise {rows : List Tuple} (h : (rows.map rowKey).Pairwise (textLe · · = true)) :
    orderRowVector rows = rows := by
  unfold orderRowVector
  rw [List.mergeSort_of_pairwise h, List.map_map]
  conv_rhs => rw [← List.map_id rows]
  exact List.map_congr_left fun row hrow => find_rowKey hrow

end Datalog

end Fram
