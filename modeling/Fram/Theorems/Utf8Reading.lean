import Fram.Utf8

/-!
# The text reader accepts well-formed UTF-8

`WellFormed` is the syntax of UTF-8 by the ranges of its bytes. A read of a range succeeds exactly when the range is within the limit and
well formed, and then it ends where the range ends, with the text that the range encodes.
-/

namespace Fram

namespace Utf8

/-! ## The syntax -/

/-- A byte that continues a scalar. -/
def Tail (b : UInt8) : Prop := 128 ≤ b.toNat ∧ b.toNat ≤ 191

/-- The bytes of one scalar. A second byte that would make the form overlong, the scalar a surrogate or the scalar greater than the last
one is excluded. -/
inductive Scalar : Bytes → Prop
  | one {a : UInt8} (h : a.toNat ≤ 127) : Scalar [a]
  | two {a b : UInt8} (h : 194 ≤ a.toNat ∧ a.toNat ≤ 223) (hb : Tail b) : Scalar [a, b]
  | three {a b c : UInt8} (h : 224 ≤ a.toNat ∧ a.toNat ≤ 239) (hb : Tail b) (hc : Tail c) (overlong : a.toNat = 224 → 160 ≤ b.toNat)
      (surrogate : a.toNat = 237 → b.toNat ≤ 159) : Scalar [a, b, c]
  | four {a b c d : UInt8} (h : 240 ≤ a.toNat ∧ a.toNat ≤ 244) (hb : Tail b) (hc : Tail c) (hd : Tail d)
      (overlong : a.toNat = 240 → 144 ≤ b.toNat) (last : a.toNat = 244 → b.toNat ≤ 143) : Scalar [a, b, c, d]

/-- Scalars, one after the other. -/
inductive WellFormed : Bytes → Prop
  | nil : WellFormed []
  | cons {s rest : Bytes} (h : Scalar s) (h' : WellFormed rest) : WellFormed (s ++ rest)

/-- What the first byte says of how many bytes there are. -/
theorem scalarWidth_cases (b : Nat) : scalarWidth b = 0 ∧ (127 < b ∧ b < 194 ∨ 244 < b) ∨ scalarWidth b = 1 ∧ b ≤ 127 ∨
    scalarWidth b = 2 ∧ 194 ≤ b ∧ b ≤ 223 ∨ scalarWidth b = 3 ∧ 224 ≤ b ∧ b ≤ 239 ∨ scalarWidth b = 4 ∧ 240 ≤ b ∧ b ≤ 244 := by
  unfold scalarWidth
  split_ifs <;> omega

theorem Scalar.length {b : UInt8} {s : Bytes} (h : Scalar (b :: s)) : (b :: s).length = scalarWidth b.toNat := by
  have hcases := scalarWidth_cases b.toNat
  cases h <;> simp only [List.length_cons, List.length_nil] <;> omega

/-- A well-formed text begins with the scalar that its first byte opens. -/
theorem wellFormed_cons_iff {b : UInt8} {text : Bytes} : WellFormed (b :: text) ↔
    Scalar ((b :: text).take (scalarWidth b.toNat)) ∧ WellFormed ((b :: text).drop (scalarWidth b.toNat)) := by
  constructor
  · intro h
    generalize hall : b :: text = all at h
    cases h with
    | nil => cases hall
    | @cons s rest hs hrest =>
      cases s with
      | nil => cases hs
      | cons b' s =>
        obtain rfl : b = b' := (List.cons.inj hall).1
        rw [← hs.length, List.take_left, List.drop_left]
        exact ⟨hs, hrest⟩
  · intro h
    rw [← List.take_append_drop (scalarWidth b.toNat) (b :: text)]
    exact .cons h.1 h.2

/-! ## The test of a scalar -/

theorem isContinuation_iff {b : UInt8} : isContinuation b.toNat = true ↔ Tail b := by
  unfold isContinuation Tail
  rw [beq_iff_eq]
  omega

theorem scalarValid_one {a : UInt8} (h : a.toNat ≤ 127) : scalarValid 1 a.toNat 0 0 0 = true := by
  simp [scalarValid, codePoint]
  omega

theorem scalarValid_two {a b : UInt8} (h : 194 ≤ a.toNat ∧ a.toNat ≤ 223) : scalarValid 2 a.toNat b.toNat 0 0 = true ↔ Scalar [a, b] := by
  have hb := b.toNat_lt
  have hiff : scalarValid 2 a.toNat b.toNat 0 0 = true ↔ Tail b := by
    rw [← isContinuation_iff]
    simp [scalarValid, codePoint]
    omega
  rw [hiff]
  constructor
  · exact fun ht => .two h ht
  · intro hs
    cases hs
    assumption

theorem scalarValid_three {a b c : UInt8} (h : 224 ≤ a.toNat ∧ a.toNat ≤ 239) :
    scalarValid 3 a.toNat b.toNat c.toNat 0 = true ↔ Scalar [a, b, c] := by
  have hiff : scalarValid 3 a.toNat b.toNat c.toNat 0 = true ↔
      Tail b ∧ Tail c ∧ (a.toNat = 224 → 160 ≤ b.toNat) ∧ (a.toNat = 237 → b.toNat ≤ 159) := by
    have hb := b.toNat_lt
    have hc := c.toNat_lt
    unfold Tail
    simp [scalarValid, codePoint, isContinuation]
    omega
  rw [hiff]
  constructor
  · exact fun ht => .three h ht.1 ht.2.1 ht.2.2.1 ht.2.2.2
  · intro hs
    cases hs with
    | three _ hb hc overlong surrogate => exact ⟨hb, hc, overlong, surrogate⟩

theorem scalarValid_four {a b c d : UInt8} (h : 240 ≤ a.toNat ∧ a.toNat ≤ 244) :
    scalarValid 4 a.toNat b.toNat c.toNat d.toNat = true ↔ Scalar [a, b, c, d] := by
  have hiff : scalarValid 4 a.toNat b.toNat c.toNat d.toNat = true ↔
      Tail b ∧ Tail c ∧ Tail d ∧ (a.toNat = 240 → 144 ≤ b.toNat) ∧ (a.toNat = 244 → b.toNat ≤ 143) := by
    have hb := b.toNat_lt
    have hc := c.toNat_lt
    have hd := d.toNat_lt
    unfold Tail
    simp [scalarValid, codePoint, isContinuation]
    omega
  rw [hiff]
  constructor
  · exact fun ht => .four h ht.1 ht.2.1 ht.2.2.1 ht.2.2.2.1 ht.2.2.2.2
  · intro hs
    cases hs with
    | four _ hb hc hd overlong last => exact ⟨hb, hc, hd, overlong, last⟩

/-- The bytes of a scalar are the encoding of one. -/
theorem Scalar.encodes {s : Bytes} (h : Scalar s) : ∃ c, s = String.utf8EncodeChar c := by
  have hnext : ∃ c, utf8Next s = some (c, []) := by
    have hwidth : ∀ b : UInt8, _ := fun b => scalarWidth_cases b.toNat
    cases h with
    | @one a h =>
      have hw : scalarWidth a.toNat = 1 := by have := hwidth a; omega
      exact ⟨_, by simp only [utf8Next, hw, scalarOf, scalarValid_one h, if_true, Option.map_some]; rfl⟩
    | @two a b h hb =>
      have hw : scalarWidth a.toNat = 2 := by have := hwidth a; omega
      have hv := (scalarValid_two h).2 (.two h hb)
      exact ⟨_, by simp only [utf8Next, hw, scalarOf, hv, if_true, Option.map_some]; rfl⟩
    | @three a b c h hb hc overlong surrogate =>
      have hw : scalarWidth a.toNat = 3 := by have := hwidth a; omega
      have hv := (scalarValid_three h).2 (.three h hb hc overlong surrogate)
      exact ⟨_, by simp only [utf8Next, hw, scalarOf, hv, if_true, Option.map_some]; rfl⟩
    | @four a b c d h hb hc hd overlong last =>
      have hw : scalarWidth a.toNat = 4 := by have := hwidth a; omega
      have hv := (scalarValid_four h).2 (.four h hb hc hd overlong last)
      exact ⟨_, by simp only [utf8Next, hw, scalarOf, hv, if_true, Option.map_some]; rfl⟩
  obtain ⟨c, hc⟩ := hnext
  exact ⟨c, by rw [utf8Next_eq_some hc, List.append_nil]⟩

/-- A well-formed text is the encoding of a string. -/
theorem WellFormed.encodes {text : Bytes} (h : WellFormed text) : ∃ s, text = utf8Encode s := by
  induction h with
  | nil => exact ⟨"", rfl⟩
  | cons hs _ ih =>
    obtain ⟨c, rfl⟩ := hs.encodes
    obtain ⟨s, rfl⟩ := ih
    refine ⟨String.ofList (c :: s.toList), ?_⟩
    simp only [utf8Encode, String.toList_ofList, List.flatMap_cons]

/-! ## The walk -/

variable {label : String} {start stop : Nat} {d : Decoder}

theorem readU8_eq (h : d.position < d.limit) :
    d.readU8 label = (Decoder.readByteAt d.bytes d.position, { d with position := d.position + 1 }) := by
  have hensure : d.ensureBytes 1 label = (true, d) := if_pos ⟨by decide, by unfold Decoder.remaining; omega⟩
  unfold Decoder.readU8
  rw [hensure]

/-- Where a round leaves the decoder. -/
def moved (d : Decoder) (width : Nat) : Decoder := { d with position := d.position + width }

theorem fail_error (d : Decoder) (message : String) : (d.fail message).error ≠ none := by
  unfold Decoder.fail
  cases d.error <;> simp

/-- The bytes from the position of a decoder up to the end of the range. -/
def rangeFrom (d : Decoder) (stop : Nat) : Bytes := (d.bytes.take stop).drop d.position

theorem rangeFrom_length (h : stop ≤ d.limit) : (rangeFrom d stop).length = stop - d.position := by
  have := d.bounded
  simp only [rangeFrom, List.length_drop, List.length_take]
  omega

theorem rangeFrom_moved (d : Decoder) (stop width : Nat) : rangeFrom (moved d width) stop = (rangeFrom d stop).drop width := by
  rw [rangeFrom, rangeFrom, List.drop_drop]
  rfl

/-- The next byte is the first of the range. -/
theorem rangeFrom_cons (h : stop ≤ d.limit) (hpos : d.position < stop) :
    ∃ b rest, rangeFrom d stop = b :: rest ∧ Decoder.readByteAt d.bytes d.position = b.toNat ∧ rangeFrom (moved d 1) stop = rest := by
  have hlt : d.position < (d.bytes.take stop).length := by
    have := d.bounded
    rw [List.length_take]
    omega
  have hcons : rangeFrom d stop = (d.bytes.take stop)[d.position] :: (d.bytes.take stop).drop (d.position + 1) :=
    List.drop_eq_getElem_cons hlt
  refine ⟨_, _, hcons, ?_, rfl⟩
  rw [Decoder.readByteAt, List.getElem_take, List.getD_eq_getElem?_getD, List.getElem?_eq_getElem, Option.getD_some]

theorem not_scalar_nil : ¬Scalar [] := by
  intro h
  cases h

theorem moved_moved (d : Decoder) (m n : Nat) : moved (moved d m) n = moved d (m + n) := by
  simp only [moved, Nat.add_assoc]

theorem readWhen_false {test : Bool} (h : test = false) : d.readWhen test label = (0, d) := by
  rw [h]
  rfl

theorem readWhen_true {test : Bool} (h : test = true) (hlt : d.position < d.limit) :
    d.readWhen test label = (Decoder.readByteAt d.bytes d.position, moved d 1) := by
  rw [h]
  exact readU8_eq hlt

/-- The bytes of a scalar that ends within the range are read one after the other, and the test says whether they are one. -/
theorem readScalar {b0 : UInt8} {rest : Bytes} (label : String) (hstop : stop ≤ d.limit) (hrange : rangeFrom d stop = b0 :: rest)
    (hfits : d.position + scalarWidth b0.toNat ≤ stop) (hopens : scalarWidth b0.toNat ≠ 0) :
    ∃ b1 b2 b3 d₂ d₃, (moved d 1).readWhen (1 < scalarWidth b0.toNat) label = (b1, d₂) ∧
      d₂.readWhen (2 < scalarWidth b0.toNat) label = (b2, d₃) ∧
      d₃.readWhen (3 < scalarWidth b0.toNat) label = (b3, moved d (scalarWidth b0.toNat)) ∧
      (scalarValid (scalarWidth b0.toNat) b0.toNat b1 b2 b3 = true ↔ Scalar ((rangeFrom d stop).take (scalarWidth b0.toNat))) := by
  -- The byte after the first `n` bytes of the range, when there is one.
  have hnext : ∀ n, d.position + n < stop → ∃ b, Decoder.readByteAt (moved d n).bytes (moved d n).position = b.toNat ∧
      (rangeFrom d stop).drop n = b :: (rangeFrom d stop).drop (n + 1) := by
    intro n hn
    obtain ⟨b, tail, hcons, hb, htail⟩ := @rangeFrom_cons stop (moved d n) hstop hn
    rw [moved_moved, rangeFrom_moved] at htail
    rw [rangeFrom_moved] at hcons
    exact ⟨b, hb, by rw [hcons, htail]⟩
  have hdrop : (rangeFrom d stop).drop 1 = rest := by rw [hrange]; rfl
  have hread : ∀ n test b, test = true → d.position + n < stop → Decoder.readByteAt (moved d n).bytes (moved d n).position = b →
      (moved d n).readWhen test label = (b, moved d (n + 1)) := by
    intro n test b htest hn hb
    rw [readWhen_true htest (hn.trans_le hstop), hb, moved_moved]
  have hwidth := scalarWidth_cases b0.toNat
  rcases hwidth with ⟨hw, -⟩ | ⟨hw, hr⟩ | ⟨hw, hr⟩ | ⟨hw, hr⟩ | ⟨hw, hr⟩
  · exact absurd hw hopens
  · rw [hw]
    refine ⟨0, 0, 0, _, _, readWhen_false rfl, readWhen_false rfl, readWhen_false rfl, ?_⟩
    rw [hrange, scalarValid_one hr]
    exact iff_of_true rfl (.one hr)
  · rw [hw] at hfits ⊢
    obtain ⟨b1, h1, hd1⟩ := hnext 1 (by omega)
    refine ⟨b1.toNat, 0, 0, _, _, ?_, readWhen_false rfl, readWhen_false rfl, ?_⟩
    · exact hread 1 _ _ rfl (by omega) h1
    · rw [hdrop] at hd1
      rw [hrange, hd1]
      exact scalarValid_two hr
  · rw [hw] at hfits ⊢
    obtain ⟨b1, h1, hd1⟩ := hnext 1 (by omega)
    obtain ⟨b2, h2, hd2⟩ := hnext 2 (by omega)
    refine ⟨b1.toNat, b2.toNat, 0, moved d 2, _, ?_, ?_, readWhen_false rfl, ?_⟩
    · exact hread 1 _ _ rfl (by omega) h1
    · exact hread 2 _ _ rfl (by omega) h2
    · rw [hdrop, hd2] at hd1
      rw [hrange, hd1]
      exact scalarValid_three hr
  · rw [hw] at hfits ⊢
    obtain ⟨b1, h1, hd1⟩ := hnext 1 (by omega)
    obtain ⟨b2, h2, hd2⟩ := hnext 2 (by omega)
    obtain ⟨b3, h3, hd3⟩ := hnext 3 (by omega)
    refine ⟨b1.toNat, b2.toNat, b3.toNat, moved d 2, moved d 3, ?_, ?_, ?_, ?_⟩
    · exact hread 1 _ _ rfl (by omega) h1
    · exact hread 2 _ _ rfl (by omega) h2
    · exact hread 3 _ _ rfl (by omega) h3
    · rw [hdrop, hd2, hd3] at hd1
      rw [hrange, hd1]
      exact scalarValid_four hr

/-- A round goes on by a scalar, or refuses the text. -/
theorem utf8Loop_round (label : String) (start : Nat) (hstop : stop ≤ d.limit) (hpos : d.position < stop) :
    (∃ width, 0 < width ∧ d.position + width ≤ stop ∧ (WellFormed (rangeFrom d stop) ↔ WellFormed (rangeFrom (moved d width) stop)) ∧
      ∀ fuel, Decoder.utf8Loop label start stop (fuel + 1) d = Decoder.utf8Loop label start stop fuel (moved d width)) ∨
    (¬WellFormed (rangeFrom d stop) ∧ ∃ d', d.position ≤ d'.position ∧ d'.position ≤ stop ∧ d'.error ≠ none ∧
      ∀ fuel, Decoder.utf8Loop label start stop (fuel + 1) d = some ("", d')) := by
  obtain ⟨b0, rest, hrange, hb0, -⟩ := rangeFrom_cons hstop hpos
  have hlength := rangeFrom_length hstop
  rw [hrange, List.length_cons] at hlength
  have hread : d.readU8 label = (b0.toNat, moved d 1) := by
    rw [readU8_eq (by omega), hb0]
    rfl
  have hwf := @wellFormed_cons_iff b0 rest
  rw [← hrange, ← rangeFrom_moved] at hwf
  by_cases hshort : scalarWidth b0.toNat = 0 ∨ stop < d.position + scalarWidth b0.toNat
  · -- The first byte opens no scalar, or its scalar does not end within the range.
    refine Or.inr ⟨fun h => ?_, (moved d 1).fail (label ++ " is not valid UTF-8"), Nat.le_succ _, hpos, fail_error _ _, fun fuel => ?_⟩
    · have hs := (hwf.1 h).1
      rcases hshort with hzero | hcut
      · rw [hzero] at hs
        exact not_scalar_nil hs
      · obtain ⟨width, hwidth⟩ : ∃ width, scalarWidth b0.toNat = width + 1 := Nat.exists_eq_succ_of_ne_zero (by omega)
        rw [hrange, hwidth, List.take_succ_cons] at hs
        have hlen := hs.length
        rw [hwidth, List.length_cons, List.length_take] at hlen
        omega
    · rw [Decoder.utf8Loop, if_neg (by omega), hread]
      exact if_pos hshort
  · rw [not_or, Nat.not_lt] at hshort
    obtain ⟨b1, b2, b3, d₂, d₃, h1, h2, h3, hvalid⟩ := readScalar label hstop hrange hshort.2 hshort.1
    have hloop : ∀ fuel, Decoder.utf8Loop label start stop (fuel + 1) d = if scalarValid (scalarWidth b0.toNat) b0.toNat b1 b2 b3 then
        Decoder.utf8Loop label start stop fuel (moved d (scalarWidth b0.toNat))
        else some ("", (moved d (scalarWidth b0.toNat)).fail (label ++ " is not valid UTF-8")) := by
      intro fuel
      rw [Decoder.utf8Loop, if_neg (by omega), hread]
      simp only [h1, h2, h3]
      rw [if_neg (by omega)]
    by_cases hs : scalarValid (scalarWidth b0.toNat) b0.toNat b1 b2 b3 = true
    · refine Or.inl ⟨scalarWidth b0.toNat, by omega, hshort.2, hwf.trans (and_iff_right (hvalid.1 hs)), fun fuel => ?_⟩
      rw [hloop, if_pos hs]
    · refine Or.inr ⟨fun h => hs (hvalid.2 (hwf.1 h).1), (moved d (scalarWidth b0.toNat)).fail (label ++ " is not valid UTF-8"),
        Nat.le_add_right _ _, hshort.2,
        fail_error _ _, fun fuel => ?_⟩
      rw [hloop, if_neg hs]

/-- The walk ends within the range. It ends without an error exactly on a well-formed text, and then at the end of the range. -/
theorem utf8Loop_ends (label : String) (start : Nat) {fuel : Nat} (hstop : stop ≤ d.limit) (hpos : d.position ≤ stop)
    (hfuel : stop - d.position < fuel) (herror : d.error = none) :
    ∃ text d', Decoder.utf8Loop label start stop fuel d = some (text, d') ∧ d.position ≤ d'.position ∧ d'.position ≤ stop ∧
      (d'.error = none ↔ WellFormed (rangeFrom d stop)) ∧
      (d'.error = none → d'.position = stop ∧ text = (utf8Decode ((d.bytes.take stop).drop start)).getD "") := by
  induction fuel generalizing d with
  | zero => omega
  | succ fuel ih =>
    by_cases hend : stop ≤ d.position
    · refine ⟨_, d, by rw [Decoder.utf8Loop, if_pos hend], le_rfl, hpos, iff_of_true herror ?_, fun _ => ⟨by omega, rfl⟩⟩
      have hempty : rangeFrom d stop = [] := List.eq_nil_of_length_eq_zero (by rw [rangeFrom_length hstop]; omega)
      rw [hempty]
      exact .nil
    · rcases utf8Loop_round label start hstop (by omega) with ⟨width, hwidth, hfits, hwf, hloop⟩ | ⟨hwf, d', h1, h2, herr, hloop⟩
      · obtain ⟨text, d', hrun, h1, h2, hiff, hdone⟩ := @ih (moved d width) hstop hfits (by simp only [moved]; omega) herror
        exact ⟨text, d', (hloop fuel).trans hrun, (Nat.le_add_right _ _).trans h1, h2, hiff.trans hwf.symm, hdone⟩
      · exact ⟨"", d', hloop fuel, h1, h2, iff_of_false herr hwf, fun h => absurd h herr⟩

/-- **Reading UTF-8.** A read from a decoder without an error ends, and moves over no byte past the announced range. It leaves no error
exactly when the range is within the limit and its bytes are well-formed UTF-8. Then it has moved over exactly the range, and the text is
the one that the bytes of the range encode. -/
theorem utf8_reading (d : Decoder) (herror : d.error = none) (length : Int) (label : String) :
    ∃ text d', d.readUtf8 length label = some (text, d') ∧ d.position ≤ d'.position ∧ d'.position ≤ d.position + length.toNat ∧
      (d'.error = none ↔ 0 ≤ length ∧ d.position + length ≤ d.limit ∧ WellFormed ((d.bytes.drop d.position).take length.toNat)) ∧
      (d'.error = none → d'.position = d.position + length ∧ utf8Encode text = (d.bytes.drop d.position).take length.toNat) := by
  by_cases hensure : 0 ≤ length ∧ length ≤ d.remaining
  · obtain ⟨hlength, hremaining⟩ := hensure
    have hfits : d.position + length ≤ d.limit := by
      unfold Decoder.remaining at hremaining
      omega
    have hrange : (d.bytes.take (d.position + length.toNat)).drop d.position = (d.bytes.drop d.position).take length.toNat := by
      rw [List.drop_take, Nat.add_sub_cancel_left]
    obtain ⟨text, d', hrun, h1, h2, hiff, hdone⟩ := @utf8Loop_ends (d.position + length.toNat) d label d.position (length.toNat + 1)
      (by omega) (Nat.le_add_right _ _) (by omega) herror
    rw [rangeFrom, hrange] at hiff
    refine ⟨text, d', ?_, h1, h2, ?_, fun h => ?_⟩
    · have hok : d.ensureBytes length label = (true, d) := if_pos ⟨hlength, hremaining⟩
      unfold Decoder.readUtf8
      rw [hok]
      exact hrun
    · rw [hiff]
      exact ⟨fun h => ⟨hlength, hfits, h⟩, fun h => h.2.2⟩
    · obtain ⟨hposition, htext⟩ := hdone h
      obtain ⟨s, hs⟩ := (hiff.1 h).encodes
      refine ⟨by omega, ?_⟩
      rw [htext, hrange, hs, utf8Decode_utf8Encode, Option.getD_some]
  · have hfail : d.ensureBytes length label = (false, d.fail ("FRAMRPC ended inside " ++ label)) := if_neg hensure
    refine ⟨"", d.fail ("FRAMRPC ended inside " ++ label), ?_, le_rfl, Nat.le_add_right _ _, ?_, fun h => absurd h (fail_error _ _)⟩
    · unfold Decoder.readUtf8
      rw [hfail]
    · refine iff_of_false (fail_error _ _) fun h => hensure ⟨h.1, ?_⟩
      unfold Decoder.remaining
      omega

/-- The second byte of four as a text, although it would open a scalar of two bytes with the next, and the two as a text. -/
theorem utf8_reading_cut : (∃ text d', (⟨[0x41, 0xC3, 0xA9, 0x42], 1, 4, none, by decide⟩ : Decoder).readUtf8 1 "text" = some (text, d') ∧
      d'.error ≠ none) ∧
    ∃ d', (⟨[0x41, 0xC3, 0xA9, 0x42], 1, 4, none, by decide⟩ : Decoder).readUtf8 2 "text" = some ("é", d') ∧ d'.error = none ∧
      d'.position = 3 := by
  constructor
  · obtain ⟨text, d', hrun, -, -, hiff, -⟩ := utf8_reading ⟨[0x41, 0xC3, 0xA9, 0x42], 1, 4, none, by decide⟩ rfl 1 "text"
    refine ⟨text, d', hrun, fun h => ?_⟩
    have hwf : WellFormed [0xC3] := (hiff.1 h).2.2
    have hs := (wellFormed_cons_iff.1 hwf).1
    cases hs with
    | one h => exact absurd h (by decide)
  · obtain ⟨text, d', hrun, -, -, hiff, hdone⟩ := utf8_reading ⟨[0x41, 0xC3, 0xA9, 0x42], 1, 4, none, by decide⟩ rfl 2 "text"
    have hscalar : Scalar [0xC3, 0xA9] := .two (by decide) (by unfold Tail; decide)
    have hok := hiff.2 ⟨by decide, by decide, .cons hscalar .nil⟩
    obtain ⟨hposition, htext⟩ := hdone hok
    have hsame : utf8Encode text = utf8Encode "é" := htext.trans (by decide)
    rw [utf8Encode_injective hsame] at hrun
    exact ⟨d', hrun, hok, by exact_mod_cast hposition⟩

end Utf8

end Fram
