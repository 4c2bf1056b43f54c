import Fram.Lemmas.KnownTerms
import Fram.Lemmas.Rounding
import Fram.Lemmas.RowOrder
import Fram.Lib.Sorting
import Fram.Ordering

/-!
# Comparing terms and rows

The comparisons of `Fram.Ordering` turn their sign with their operands, and of two rows that compare equal there is one. Whether they
are transitive is another matter: an integer meets a double as a double, and a NaN compares equal to every number. On terms whose
numbers are apart in that sense (`Exact`) they are (`termCompare_chains`).
-/

namespace Fram

namespace Datalog

variable {t : Term} {S : Set Atom} {clause : OrderClause}

/-! ## Texts -/

theorem utf16Units_append_inj {c d : Char} {xs ys : List Nat} (h : utf16Units c ++ xs = utf16Units d ++ ys) : c = d ∧ xs = ys := by
  have hvalid : ∀ e : Char, e.toNat < 0xd800 ∨ 0xdfff < e.toNat ∧ e.toNat < 0x110000 := fun e => e.valid
  have hc := hvalid c
  have hd := hvalid d
  have hchar : c.toNat = d.toNat → c = d := fun he => Char.ext (UInt32.toNat_inj.1 he)
  unfold utf16Units at h
  split at h <;> split at h <;> simp only [List.cons_append, List.nil_append, List.cons.injEq] at h
  · exact ⟨hchar h.1, h.2⟩
  · omega
  · omega
  · exact ⟨hchar (by omega), h.2.2⟩

/-- The UTF-16 units of a text spell it. -/
theorem utf16Units_injective {left right : String} (h : left.toList.flatMap utf16Units = right.toList.flatMap utf16Units) :
    left = right := by
  have hne : ∀ c : Char, utf16Units c ≠ [] := by
    intro c
    unfold utf16Units
    split <;> simp
  suffices hlist : ∀ xs ys : List Char, xs.flatMap utf16Units = ys.flatMap utf16Units → xs = ys from
    String.ext (hlist _ _ h)
  intro xs
  induction xs with
  | nil =>
    intro ys hys
    cases ys with
    | nil => rfl
    | cons d ys => exact absurd (List.append_eq_nil_iff.1 hys.symm).1 (hne d)
  | cons c xs ih =>
    intro ys hys
    cases ys with
    | nil => exact absurd (List.append_eq_nil_iff.1 hys).1 (hne c)
    | cons d ys =>
      simp only [List.flatMap_cons] at hys
      obtain ⟨rfl, hrest⟩ := utf16Units_append_inj hys
      rw [ih ys hrest]

theorem textLe_total (left right : String) : textLe left right = true ∨ textLe right left = true := by
  simp only [textLe, decide_eq_true_eq]
  exact le_total _ _

theorem textLe_trans {a b c : String} (hab : textLe a b = true) (hbc : textLe b c = true) : textLe a c = true := by
  simp only [textLe, decide_eq_true_eq] at *
  exact le_trans hab hbc

theorem textLe_antisymm {a b : String} (hab : textLe a b = true) (hba : textLe b a = true) : a = b := by
  simp only [textLe, decide_eq_true_eq] at *
  exact utf16Units_injective (le_antisymm hab hba)

end Datalog

namespace Query

open Datalog

/-! ## Chains -/

/-- Two comparisons in a row bound the third, which is strict when one of the two is. -/
def Chains (ab bc ac : Int) : Prop := ab ≤ 0 → bc ≤ 0 → ac ≤ 0 ∧ (ac = 0 → ab = 0 ∧ bc = 0)

/-- A first comparison, and a second where the first does not decide. -/
theorem Chains.lex {x y z x' y' z' : Int} (h : Chains x y z) (h' : x = 0 → y = 0 → z = 0 → Chains x' y' z') :
    Chains (if x = 0 then x' else x) (if y = 0 then y' else y) (if z = 0 then z' else z) := by
  unfold Chains at *
  split_ifs <;> omega

theorem intCompare_le_iff {a b : Int} : intCompare a b ≤ 0 ↔ a ≤ b := by
  unfold intCompare
  split_ifs <;> omega

theorem intCompare_eq_iff {a b : Int} : intCompare a b = 0 ↔ a = b := by
  unfold intCompare
  constructor
  · intro h
    split_ifs at h <;> omega
  · rintro rfl
    simp

theorem intCompare_swap (a b : Int) : intCompare b a = -intCompare a b := by
  unfold intCompare
  split_ifs <;> omega

theorem intCompare_chains (a b c : Int) : Chains (intCompare a b) (intCompare b c) (intCompare a c) := by
  simp only [Chains, intCompare_le_iff, intCompare_eq_iff]
  omega

theorem boolCompare_eq (a b : Bool) : boolCompare a b = intCompare a.toNat b.toNat := by
  cases a <;> cases b <;> rfl

theorem floatCompare_eq {x y : F64} (hx : x.isNaN = false) (hy : y.isNaN = false) : floatCompare x y = intCompare x.place y.place := by
  simp only [floatCompare, intCompare, F64.lt, hx, hy, Bool.not_false, Bool.true_and, decide_eq_true_eq]

theorem floatCompare_swap (x y : F64) : floatCompare y x = -floatCompare x y := by
  unfold floatCompare F64.lt
  cases x.isNaN <;> cases y.isNaN <;> simp
  split_ifs <;> omega

theorem textCompare_le_iff {a b : String} : textCompare a b ≤ 0 ↔ textLe a b = true := by
  unfold textCompare
  rcases textLe_total a b with h | h <;> cases hab : textLe a b <;> cases hba : textLe b a <;> simp_all

theorem textCompare_eq_iff {a b : String} : textCompare a b = 0 ↔ a = b := by
  unfold textCompare
  constructor
  · intro h
    rcases hab : textLe a b with _ | _ <;> rcases hba : textLe b a with _ | _ <;> simp_all
    exact textLe_antisymm hab hba
  · rintro rfl
    rcases textLe_total a a with h | h <;> simp [h]

theorem textCompare_swap (a b : String) : textCompare b a = -textCompare a b := by
  unfold textCompare
  rcases textLe_total a b with h | h <;> cases hab : textLe a b <;> cases hba : textLe b a <;> simp_all

theorem textCompare_chains (a b c : String) : Chains (textCompare a b) (textCompare b c) (textCompare a c) := by
  simp only [Chains, textCompare_le_iff, textCompare_eq_iff]
  intro hab hbc
  refine ⟨textLe_trans hab hbc, ?_⟩
  rintro rfl
  exact ⟨textLe_antisymm hab hbc, textLe_antisymm hbc hab⟩

/-! ## Terms of a kind -/

@[simp] theorem termRank_bool (b : Bool) : termRank (.atom (.bool b)) = 0 := rfl

@[simp] theorem termRank_int (n : Int) : termRank (.atom (.int n)) = 1 := rfl

@[simp] theorem termRank_float (x : F64) : termRank (.atom (.float x)) = 1 := rfl

@[simp] theorem termRank_string (text : String) : termRank (.atom (.string text)) = 2 := rfl

@[simp] theorem termRank_keyword (k : Keyword) : termRank (.atom (.keyword k)) = 3 := rfl

@[simp] theorem termRank_instant (i : Instant) : termRank (.atom (.instant i)) = 4 := rfl

@[simp] theorem termRank_triple (t1 t2 t3 : Term) : termRank (.triple t1 t2 t3) = 5 := rfl

theorem bool_of_rank (h : termRank t = 0) : ∃ b, t = .atom (.bool b) := by
  rcases t with (_ | _ | _ | b | _ | _) | _ <;> simp at h ⊢

theorem number_of_rank (h : termRank t = 1) : (∃ n, t = .atom (.int n)) ∨ ∃ x, t = .atom (.float x) := by
  rcases t with (_ | _ | _ | b | _ | _) | _ <;> simp at h ⊢

theorem string_of_rank (h : termRank t = 2) : ∃ text, t = .atom (.string text) := by
  rcases t with (_ | _ | _ | b | _ | _) | _ <;> simp at h ⊢

theorem keyword_of_rank (h : termRank t = 3) : ∃ k, t = .atom (.keyword k) := by
  rcases t with (_ | _ | _ | b | _ | _) | _ <;> simp at h ⊢

theorem instant_of_rank (h : termRank t = 4) : ∃ i, t = .atom (.instant i) := by
  rcases t with (_ | _ | _ | b | _ | _) | _ <;> simp at h ⊢

theorem triple_of_rank (h : termRank t = 5) : ∃ t1 t2 t3, t = .triple t1 t2 t3 := by
  rcases t with (_ | _ | _ | b | _ | _) | ⟨t1, t2, t3⟩ <;> simp at h ⊢

theorem termRank_cases (t : Term) :
    termRank t = 0 ∨ termRank t = 1 ∨ termRank t = 2 ∨ termRank t = 3 ∨ termRank t = 4 ∨ termRank t = 5 := by
  rcases t with (_ | _ | _ | b | _ | _) | _ <;> simp

theorem termCompare_of_rank_ne {a b : Term} (h : termRank a ≠ termRank b) : termCompare a b = intCompare (termRank a) (termRank b) := by
  unfold termCompare
  exact if_pos fun he => h (intCompare_eq_iff.1 he)

theorem intCompare_self (n : Int) : intCompare n n = 0 := intCompare_eq_iff.2 rfl

/-- Equal ranks leave the decision to the values. -/
theorem same_rank (rank order : Int) : (if intCompare rank rank ≠ 0 then intCompare rank rank else order) = order :=
  if_neg (not_not.2 (intCompare_self _))

theorem termCompare_bool (a b : Bool) : termCompare (.atom (.bool a)) (.atom (.bool b)) = boolCompare a b := rfl

theorem termCompare_int (a b : Int) : termCompare (.atom (.int a)) (.atom (.int b)) = intCompare a b := rfl

theorem termCompare_int_float (a : Int) (y : F64) : termCompare (.atom (.int a)) (.atom (.float y)) = floatCompare (F64.ofInt a) y :=
  same_rank 1 _

theorem termCompare_float_int (x : F64) (b : Int) : termCompare (.atom (.float x)) (.atom (.int b)) = floatCompare x (F64.ofInt b) :=
  same_rank 1 _

theorem termCompare_float (x y : F64) : termCompare (.atom (.float x)) (.atom (.float y)) = floatCompare x y :=
  same_rank 1 _

theorem termCompare_string (a b : String) : termCompare (.atom (.string a)) (.atom (.string b)) = textCompare a b := rfl

theorem termCompare_keyword (a b : Keyword) :
    termCompare (.atom (.keyword a)) (.atom (.keyword b)) = textCompare (":" ++ a.spelling) (":" ++ b.spelling) := rfl

theorem termCompare_instant (a b : Instant) : termCompare (.atom (.instant a)) (.atom (.instant b)) =
    if intCompare a.epochSeconds b.epochSeconds = 0 then intCompare a.nanos b.nanos else intCompare a.epochSeconds b.epochSeconds :=
  same_rank 4 _

/-- Triples are compared part by part. -/
theorem termCompare_triple (a1 a2 a3 b1 b2 b3 : Term) : termCompare (.triple a1 a2 a3) (.triple b1 b2 b3) =
    if termCompare a1 b1 = 0 then (if termCompare a2 b2 = 0 then termCompare a3 b3 else termCompare a2 b2) else termCompare a1 b1 := by
  refine (same_rank 5 (if (if termCompare a1 b1 = 0 then termCompare a2 b2 else termCompare a1 b1) = 0 then termCompare a3 b3
    else if termCompare a1 b1 = 0 then termCompare a2 b2 else termCompare a1 b1)).trans ?_
  split_ifs <;> rfl

/-- A comparison of terms turns its sign with its operands. -/
theorem termCompare_swap (a b : Term) : termCompare b a = -termCompare a b := by
  by_cases hrank : termRank a = termRank b
  · induction a generalizing b with
    | atom x =>
      rcases termRank_cases (.atom x) with h | h | h | h | h | h
      · obtain ⟨m, hm⟩ := bool_of_rank h
        obtain ⟨n, rfl⟩ := bool_of_rank (hrank ▸ h)
        rw [hm, termCompare_bool, termCompare_bool, boolCompare_eq, boolCompare_eq, intCompare_swap]
      · rcases number_of_rank h with ⟨m, hm⟩ | ⟨x, hm⟩ <;> rcases number_of_rank (hrank ▸ h) with ⟨n, rfl⟩ | ⟨y, rfl⟩
        · rw [hm, termCompare_int, termCompare_int, intCompare_swap]
        · rw [hm, termCompare_int_float, termCompare_float_int, floatCompare_swap]
        · rw [hm, termCompare_int_float, termCompare_float_int, floatCompare_swap]
        · rw [hm, termCompare_float, termCompare_float, floatCompare_swap]
      · obtain ⟨m, hm⟩ := string_of_rank h
        obtain ⟨n, rfl⟩ := string_of_rank (hrank ▸ h)
        rw [hm, termCompare_string, termCompare_string, textCompare_swap]
      · obtain ⟨m, hm⟩ := keyword_of_rank h
        obtain ⟨n, rfl⟩ := keyword_of_rank (hrank ▸ h)
        rw [hm, termCompare_keyword, termCompare_keyword, textCompare_swap]
      · obtain ⟨m, hm⟩ := instant_of_rank h
        obtain ⟨n, rfl⟩ := instant_of_rank (hrank ▸ h)
        rw [hm, termCompare_instant, termCompare_instant, intCompare_swap m.epochSeconds, intCompare_swap m.nanos]
        simp only [neg_eq_zero]
        split_ifs <;> rfl
      · obtain ⟨t1, t2, t3, ht⟩ := triple_of_rank h
        cases ht
    | triple a1 a2 a3 ih1 ih2 ih3 =>
      obtain ⟨b1, b2, b3, rfl⟩ := triple_of_rank hrank.symm
      have part : ∀ {x y : Term}, (termRank x = termRank y → termCompare y x = -termCompare x y) → termCompare y x = -termCompare x y := by
        intro x y hxy
        by_cases hr : termRank x = termRank y
        · exact hxy hr
        · rw [termCompare_of_rank_ne hr, termCompare_of_rank_ne (Ne.symm hr), intCompare_swap]
      rw [termCompare_triple, termCompare_triple, part (ih1 b1), part (ih2 b2), part (ih3 b3)]
      simp only [neg_eq_zero]
      split_ifs <;> rfl
  · rw [termCompare_of_rank_ne hrank, termCompare_of_rank_ne (Ne.symm hrank), intCompare_swap]

/-! ## Numbers apart -/

/-- A number of the terms, as a set of atoms. No NaN is among them, and no double stands where two different integers do. -/
structure Exact (S : Set Atom) : Prop where
  number : ∀ x, .float x ∈ S → x.isNaN = false
  apart : ∀ m n x, .int m ∈ S → .int n ∈ S → .float x ∈ S → (F64.ofInt m).place = x.place → (F64.ofInt n).place = x.place → m = n

/-- The atoms of the term are of the set. -/
def Over (S : Set Atom) (t : Term) : Prop := ∀ a, Term.atom a ∈ t.parts → a ∈ S

theorem Over.atom {a : Atom} (h : Over S (.atom a)) : a ∈ S := h a (Term.self_mem_parts _)

theorem Over.triple {t1 t2 t3 : Term} (h : Over S (.triple t1 t2 t3)) : Over S t1 ∧ Over S t2 ∧ Over S t3 := by
  refine ⟨fun a ha => h a ?_, fun a ha => h a ?_, fun a ha => h a ?_⟩ <;> simp [Term.parts, ha]

/-- Comparisons of numbers that are apart chain. -/
theorem number_chains (hS : Exact S) {a b c : Term} (ha : termRank a = 1) (hb : termRank b = 1) (hc : termRank c = 1)
    (hoa : Over S a) (hob : Over S b) (hoc : Over S c) : Chains (termCompare a b) (termCompare b c) (termCompare a c) := by
  have hint := F64.isNaN_ofInt
  have hplace : ∀ {m n : Int}, m ≤ n → (F64.ofInt m).place ≤ (F64.ofInt n).place := fun h => F64.place_ofInt_le h
  rcases number_of_rank ha with ⟨m, rfl⟩ | ⟨x, rfl⟩ <;> rcases number_of_rank hb with ⟨n, rfl⟩ | ⟨y, rfl⟩ <;>
    rcases number_of_rank hc with ⟨k, rfl⟩ | ⟨z, rfl⟩ <;>
    simp only [termCompare_int, termCompare_int_float, termCompare_float_int, termCompare_float]
  · exact intCompare_chains m n k
  · have hz := hS.number z hoc.atom
    have hmn := @hplace m n
    have hapart := hS.apart m n z hoa.atom hob.atom hoc.atom
    rw [floatCompare_eq (hint _) hz, floatCompare_eq (hint _) hz]
    simp only [Chains, intCompare_le_iff, intCompare_eq_iff]
    omega
  · have hy := hS.number y hob.atom
    have hkm := @hplace k m
    have hapart := hS.apart m k y hoa.atom hoc.atom hob.atom
    rw [floatCompare_eq (hint _) hy, floatCompare_eq hy (hint _)]
    simp only [Chains, intCompare_le_iff, intCompare_eq_iff]
    refine fun h1 h2 => ⟨?_, ?_⟩
    · by_contra hlt
      have := hkm (by omega)
      have := hapart (by omega) (by omega)
      omega
    · rintro rfl
      omega
  · have hy := hS.number y hob.atom
    have hz := hS.number z hoc.atom
    rw [floatCompare_eq (hint _) hy, floatCompare_eq hy hz, floatCompare_eq (hint _) hz]
    exact intCompare_chains _ _ _
  · have hx := hS.number x hoa.atom
    have hnk := @hplace n k
    have hapart := hS.apart n k x hob.atom hoc.atom hoa.atom
    rw [floatCompare_eq hx (hint _), floatCompare_eq hx (hint _)]
    simp only [Chains, intCompare_le_iff, intCompare_eq_iff]
    omega
  · have hx := hS.number x hoa.atom
    have hz := hS.number z hoc.atom
    rw [floatCompare_eq hx (hint _), floatCompare_eq (hint _) hz, floatCompare_eq hx hz]
    exact intCompare_chains _ _ _
  · have hx := hS.number x hoa.atom
    have hy := hS.number y hob.atom
    rw [floatCompare_eq hx hy, floatCompare_eq hy (hint _), floatCompare_eq hx (hint _)]
    exact intCompare_chains _ _ _
  · have hx := hS.number x hoa.atom
    have hy := hS.number y hob.atom
    have hz := hS.number z hoc.atom
    rw [floatCompare_eq hx hy, floatCompare_eq hy hz, floatCompare_eq hx hz]
    exact intCompare_chains _ _ _

/-- Comparisons of terms chain when their ranks do not fall. -/
theorem termCompare_chains_of_rank {a b c : Term}
    (h : termRank a = termRank b → termRank b = termRank c → Chains (termCompare a b) (termCompare b c) (termCompare a c)) :
    Chains (termCompare a b) (termCompare b c) (termCompare a c) := by
  have hne : ∀ {x y : Term}, termRank x ≠ termRank y → (termCompare x y ≤ 0 ↔ termRank x ≤ termRank y) ∧ termCompare x y ≠ 0 := by
    intro x y hxy
    rw [termCompare_of_rank_ne hxy]
    exact ⟨intCompare_le_iff, fun he => hxy (intCompare_eq_iff.1 he)⟩
  by_cases hab : termRank a = termRank b <;> by_cases hbc : termRank b = termRank c
  · exact h hab hbc
  · have h1 := hne hbc
    have h2 := hne (x := a) (y := c) (hab ▸ hbc)
    rw [Chains, h1.1, h2.1]
    exact fun _ hle => ⟨hab ▸ hle, fun he => absurd he h2.2⟩
  · have h1 := hne hab
    have h2 := hne (x := a) (y := c) (hbc ▸ hab)
    rw [Chains, h1.1, h2.1]
    exact fun hle _ => ⟨hbc ▸ hle, fun he => absurd he h2.2⟩
  · have h1 := hne hab
    have h2 := hne hbc
    rw [Chains, h1.1, h2.1]
    intro hle hle'
    have hac : termRank a ≠ termRank c := by omega
    have h3 := hne hac
    exact ⟨h3.1.2 (by omega), fun he => absurd he h3.2⟩

/-- **Comparisons of terms chain** when the numbers in them are apart. -/
theorem termCompare_chains (hS : Exact S) {a b c : Term} (ha : Over S a) (hb : Over S b) (hc : Over S c) :
    Chains (termCompare a b) (termCompare b c) (termCompare a c) := by
  refine termCompare_chains_of_rank fun hab hbc => ?_
  induction a generalizing b c with
  | atom x =>
    rcases termRank_cases (.atom x) with h | h | h | h | h | h
    · obtain ⟨m, hm⟩ := bool_of_rank h
      obtain ⟨n, rfl⟩ := bool_of_rank (hab ▸ h)
      obtain ⟨k, rfl⟩ := bool_of_rank (hbc ▸ hab ▸ h)
      rw [hm, termCompare_bool, termCompare_bool, termCompare_bool, boolCompare_eq, boolCompare_eq, boolCompare_eq]
      exact intCompare_chains _ _ _
    · exact number_chains hS h (hab ▸ h) (hbc ▸ hab ▸ h) ha hb hc
    · obtain ⟨m, hm⟩ := string_of_rank h
      obtain ⟨n, rfl⟩ := string_of_rank (hab ▸ h)
      obtain ⟨k, rfl⟩ := string_of_rank (hbc ▸ hab ▸ h)
      rw [hm, termCompare_string, termCompare_string, termCompare_string]
      exact textCompare_chains _ _ _
    · obtain ⟨m, hm⟩ := keyword_of_rank h
      obtain ⟨n, rfl⟩ := keyword_of_rank (hab ▸ h)
      obtain ⟨k, rfl⟩ := keyword_of_rank (hbc ▸ hab ▸ h)
      rw [hm, termCompare_keyword, termCompare_keyword, termCompare_keyword]
      exact textCompare_chains _ _ _
    · obtain ⟨m, hm⟩ := instant_of_rank h
      obtain ⟨n, rfl⟩ := instant_of_rank (hab ▸ h)
      obtain ⟨k, rfl⟩ := instant_of_rank (hbc ▸ hab ▸ h)
      rw [hm, termCompare_instant, termCompare_instant, termCompare_instant]
      exact (intCompare_chains _ _ _).lex fun _ _ _ => intCompare_chains _ _ _
    · obtain ⟨t1, t2, t3, ht⟩ := triple_of_rank h
      cases ht
  | triple a1 a2 a3 ih1 ih2 ih3 =>
    obtain ⟨b1, b2, b3, rfl⟩ := triple_of_rank hab.symm
    obtain ⟨c1, c2, c3, rfl⟩ := triple_of_rank (hab.trans hbc).symm
    obtain ⟨oa1, oa2, oa3⟩ := ha.triple
    obtain ⟨ob1, ob2, ob3⟩ := hb.triple
    obtain ⟨oc1, oc2, oc3⟩ := hc.triple
    rw [termCompare_triple, termCompare_triple, termCompare_triple]
    have h1 := termCompare_chains_of_rank (ih1 oa1 ob1 oc1)
    have h2 := termCompare_chains_of_rank (ih2 oa2 ob2 oc2)
    have h3 := termCompare_chains_of_rank (ih3 oa3 ob3 oc3)
    exact h1.lex fun _ _ _ => h2.lex fun _ _ _ => h3

/-! ## Rows -/

/-- The columns of the clauses are columns of the row. -/
def HasColumns (order : List OrderClause) (row : Tuple) : Prop := ∀ clause ∈ order, 0 ≤ clause.column ∧ clause.column < row.length

theorem hasColumns_nil (row : Tuple) : HasColumns [] row := fun _ hclause => absurd hclause List.not_mem_nil

/-- The comparison of two rows, a tie where it throws. -/
def rowOrder (order : List OrderClause) (left right : Tuple) : Int := (orderedRowCompare order left right).toOption.getD 0

/-- The comparison of two values under a clause. -/
def directedOrder (clause : OrderClause) (left right : Term) : Int :=
  if clause.direction = ⟨"desc"⟩ then -termCompare left right else termCompare left right

theorem directedOrder_swap (clause : OrderClause) (left right : Term) :
    directedOrder clause right left = -directedOrder clause left right := by
  unfold directedOrder
  rw [termCompare_swap left right]
  split_ifs <;> rfl

theorem directedOrder_chains (hS : Exact S) (clause : OrderClause) {a b c : Term} (ha : Over S a) (hb : Over S b)
    (hc : Over S c) : Chains (directedOrder clause a b) (directedOrder clause b c) (directedOrder clause a c) := by
  unfold directedOrder
  split
  · have h := termCompare_chains hS hc hb ha
    rw [termCompare_swap b c, termCompare_swap a b, termCompare_swap a c] at h
    unfold Chains at h ⊢
    omega
  · exact termCompare_chains hS ha hb hc

theorem HasColumns.value {rest : List OrderClause} {row : Tuple} (h : HasColumns (clause :: rest) row) :
    (∃ value ∈ row, columnValue row clause.column = .ok value) ∧ HasColumns rest row := by
  refine ⟨?_, fun other hother => h other (List.mem_cons_of_mem _ hother)⟩
  obtain ⟨hlo, hhi⟩ := h clause List.mem_cons_self
  have hlt : clause.column.toNat < row.length := by omega
  refine ⟨row[clause.column.toNat], List.getElem_mem hlt, ?_⟩
  rw [columnValue, if_neg (by omega), nth, List.getElem?_eq_getElem hlt]

theorem orderedRowCompare_cons (rest : List OrderClause) {left right : Tuple} {x y : Term}
    (hx : columnValue left clause.column = .ok x) (hy : columnValue right clause.column = .ok y) :
    orderedRowCompare (clause :: rest) left right =
      if directedOrder clause x y = 0 then orderedRowCompare rest left right else .ok (directedOrder clause x y) := by
  simp only [orderedRowCompare, hx, hy, bind, Except.bind, directedOrder]
  rfl

theorem orderedRowCompare_ok {order : List OrderClause} {left right : Tuple} (hl : HasColumns order left) (hr : HasColumns order right) :
    orderedRowCompare order left right = .ok (rowOrder order left right) := by
  suffices h : ∃ n, orderedRowCompare order left right = .ok n by
    obtain ⟨n, hn⟩ := h
    rw [rowOrder, hn]
    rfl
  induction order with
  | nil => exact ⟨_, rfl⟩
  | cons clause rest ih =>
    obtain ⟨⟨x, -, hx⟩, hl⟩ := hl.value
    obtain ⟨⟨y, -, hy⟩, hr⟩ := hr.value
    rw [orderedRowCompare_cons rest hx hy]
    split
    · exact ih hl hr
    · exact ⟨_, rfl⟩

theorem rowOrder_cons (rest : List OrderClause) {left right : Tuple} {x y : Term}
    (hx : columnValue left clause.column = .ok x) (hy : columnValue right clause.column = .ok y) : rowOrder (clause :: rest) left right =
      if directedOrder clause x y = 0 then rowOrder rest left right else directedOrder clause x y := by
  unfold rowOrder
  rw [orderedRowCompare_cons rest hx hy]
  split <;> rfl

/-- A comparison of rows turns its sign with its operands. -/
theorem rowOrder_swap {order : List OrderClause} {left right : Tuple} (hl : HasColumns order left) (hr : HasColumns order right) :
    rowOrder order right left = -rowOrder order left right := by
  induction order with
  | nil => exact textCompare_swap _ _
  | cons clause rest ih =>
    obtain ⟨⟨x, -, hx⟩, hl⟩ := hl.value
    obtain ⟨⟨y, -, hy⟩, hr⟩ := hr.value
    rw [rowOrder_cons rest hx hy, rowOrder_cons rest hy hx, directedOrder_swap clause x y, ih hl hr]
    simp only [neg_eq_zero]
    split <;> rfl

/-- Rows that tie are one row. -/
theorem eq_of_rowOrder {order : List OrderClause} {left right : Tuple} (hl : HasColumns order left) (hr : HasColumns order right)
    (h : rowOrder order left right = 0) : left = right := by
  induction order with
  | nil => exact rowKey_injective (textCompare_eq_iff.1 h)
  | cons clause rest ih =>
    obtain ⟨⟨x, -, hx⟩, hl⟩ := hl.value
    obtain ⟨⟨y, -, hy⟩, hr⟩ := hr.value
    rw [rowOrder_cons rest hx hy] at h
    split at h
    · exact ih hl hr h
    · contradiction

/-- Comparisons of rows chain when the numbers in them are apart. -/
theorem rowOrder_chains (hS : Exact S) {order : List OrderClause} {a b c : Tuple} (ha : HasColumns order a)
    (hb : HasColumns order b) (hc : HasColumns order c) (hoa : ∀ t ∈ a, Over S t) (hob : ∀ t ∈ b, Over S t) (hoc : ∀ t ∈ c, Over S t) :
    Chains (rowOrder order a b) (rowOrder order b c) (rowOrder order a c) := by
  induction order with
  | nil => exact textCompare_chains _ _ _
  | cons clause rest ih =>
    obtain ⟨⟨x, hxm, hx⟩, ha⟩ := ha.value
    obtain ⟨⟨y, hym, hy⟩, hb⟩ := hb.value
    obtain ⟨⟨z, hzm, hz⟩, hc⟩ := hc.value
    rw [rowOrder_cons rest hx hy, rowOrder_cons rest hy hz, rowOrder_cons rest hx hz]
    exact (directedOrder_chains hS clause (hoa x hxm) (hob y hym) (hoc z hzm)).lex fun _ _ _ => ih ha hb hc

/-! ## The sort -/

/-- The test of the merge. -/
def rowLe (order : List OrderClause) (left right : Tuple) : Bool := decide (rowOrder order left right ≤ 0)

section Sorting

variable {order : List OrderClause} {rows : List Tuple}

theorem rowLe_total (h : ∀ row ∈ rows, HasColumns order row) : MergeSort.TotalOn (rowLe order) rows := by
  intro a ha b hb
  simp only [rowLe, decide_eq_true_eq, rowOrder_swap (h a ha) (h b hb)]
  omega

theorem rowLe_antisymm (h : ∀ row ∈ rows, HasColumns order row) : MergeSort.AntisymmOn (rowLe order) rows := by
  intro a ha b hb hab hba
  simp only [rowLe, decide_eq_true_eq, rowOrder_swap (h a ha) (h b hb)] at hab hba
  exact eq_of_rowOrder (h a ha) (h b hb) (by omega)

theorem mergeOrderedRowVectors_eq {left right : List Tuple} (hl : ∀ row ∈ left, HasColumns order row)
    (hr : ∀ row ∈ right, HasColumns order row) : mergeOrderedRowVectors order left right = .ok (List.merge left right (rowLe order)) := by
  induction left generalizing right with
  | nil => simp [mergeOrderedRowVectors]
  | cons x xs ihx =>
    induction right with
    | nil => simp [mergeOrderedRowVectors]
    | cons y ys ihy =>
      have hxs := @ihx (y :: ys) (fun row hrow => hl row (List.mem_cons_of_mem _ hrow)) hr
      have hys := ihy fun row hrow => hr row (List.mem_cons_of_mem _ hrow)
      rw [mergeOrderedRowVectors, orderedRowCompare_ok (hl x List.mem_cons_self) (hr y List.mem_cons_self), List.cons_merge_cons]
      simp only [bind, Except.bind, hxs, hys, rowLe, decide_eq_true_eq]
      split <;> rfl

theorem mergeSortOrderedRows_eq (h : ∀ row ∈ rows, HasColumns order row) :
    mergeSortOrderedRows order rows = .ok (MergeSort.sort (rowLe order) rows) := by
  induction hn : rows.length using Nat.strong_induction_on generalizing rows with
  | _ n ih =>
    unfold mergeSortOrderedRows MergeSort.sort
    split
    · rfl
    · have htake : ∀ row ∈ rows.take (rows.length / 2), HasColumns order row := fun row hrow => h row (List.mem_of_mem_take hrow)
      have hdrop : ∀ row ∈ rows.drop (rows.length / 2), HasColumns order row := fun row hrow => h row (List.mem_of_mem_drop hrow)
      rw [ih _ (by simp only [List.length_take]; omega) htake rfl, ih _ (by simp only [List.length_drop]; omega) hdrop rfl]
      exact mergeOrderedRowVectors_eq (fun row hrow => htake row ((MergeSort.perm_sort _ _).subset hrow))
        fun row hrow => hdrop row ((MergeSort.perm_sort _ _).subset hrow)

/-- Without clauses the test is that of the keys, which is transitive. -/
theorem rowLe_nil_trans : MergeSort.TransOn (rowLe []) rows := by
  intro a _ b _ c _
  simp only [rowLe, decide_eq_true_eq]
  exact fun hab hbc => (textCompare_chains _ _ _ hab hbc).1

/-- Rows ordered by their keys are sorted without clauses. -/
theorem orderRowVector_eq (rows : List Tuple) : orderRowVector rows = MergeSort.sort (rowLe []) rows := by
  have hcolumns : ∀ row ∈ rows, HasColumns [] row := fun row _ => hasColumns_nil row
  have htest : ∀ a ∈ rows, ∀ b ∈ rows, rowLe [] a b = textLe (rowKey a) (rowKey b) := by
    intro a _ b _
    rw [Bool.eq_iff_iff, rowLe, decide_eq_true_eq]
    exact textCompare_le_iff
  have hkeys : orderRowVector rows = rows.mergeSort (rowLe []) := by
    unfold orderRowVector
    rw [← List.map_mergeSort htest, List.map_map]
    conv_rhs => rw [← List.map_id (rows.mergeSort (rowLe []))]
    exact List.map_congr_left fun r hr => find_rowKey ((List.mergeSort_perm rows _).subset hr)
  have htrans : ∀ a b c, rowLe [] a b = true → rowLe [] b c = true → rowLe [] a c = true := fun a b c =>
    @rowLe_nil_trans [a, b, c] a (by simp) b (by simp) c (by simp)
  have htotal : ∀ a b, (rowLe [] a b || rowLe [] b a) = true := by
    intro a b
    rw [Bool.or_eq_true]
    exact @rowLe_total [] [a, b] (fun row _ => hasColumns_nil row) a (by simp) b (by simp)
  rw [hkeys]
  refine ((List.mergeSort_perm rows _).trans (MergeSort.perm_sort _ rows).symm).eq_of_pairwise ?_
    (List.pairwise_mergeSort htrans htotal rows)
    (MergeSort.pairwise_sort (rowLe_total hcolumns) rowLe_nil_trans)
  intro a b ha hb hab hba
  exact rowLe_antisymm hcolumns a ((List.mergeSort_perm rows _).subset ha) b ((MergeSort.perm_sort _ rows).subset hb) hab hba

end Sorting

end Query

end Fram
