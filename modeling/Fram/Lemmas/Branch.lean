import Fram.Branch
import Fram.Lib.ExceptList

/-!
# What a branch ref is read as

A ref is read exactly when its lines are the printed ones, up to spaces at the end of a segment's line (`parseRef_eq_ok_iff`), and what
is read satisfies the limits of the format (`RefDocument.Readable`).
-/

namespace Fram

open Lines (Text splitLines unlines split)
open ExceptList (bind_eq_ok_iff)

variable {c : Char} {value text : Text} {segment : SegmentRecord} {lines : List Text} {segments : List SegmentRecord}
  {document : RefDocument}

/-- The limits on a segment: its name is a digest, it does not end before it begins, and its counts have at most 18 digits. -/
structure SegmentRecord.Readable (segment : SegmentRecord) : Prop where
  name : validSegmentName segment.sha256 = true
  start : 0 ≤ segment.startSequence
  order : segment.startSequence ≤ segment.endSequence
  last : segment.endSequence < 10 ^ 18
  bytes : 0 ≤ segment.byteCount
  size : segment.byteCount < 10 ^ 18

/-- The limits on a ref, apart from how its SpaceId sits on a line. -/
structure RefDocument.Readable (document : RefDocument) : Prop where
  space : document.spaceId ≠ []
  segments : ∀ segment ∈ document.segments, segment.Readable
  names : (document.segments.map (·.sha256)).Nodup
  chain : document.segments.length ≤ maxChainLength

/-! ## Counts -/

theorem intText_nonneg {n : Int} (h : 0 ≤ n) : intText n = Nat.toDigits 10 n.toNat := by
  rw [intText, Decimal.toList_toString_int, if_pos h]

theorem isDigit_of_mem_intText {n : Int} (h : 0 ≤ n) (hc : c ∈ intText n) : c.isDigit = true :=
  Decimal.isDigit_toDigits (intText_nonneg h ▸ hc)

theorem intText_ne_nil {n : Int} (h : 0 ≤ n) : intText n ≠ [] := by
  rw [intText_nonneg h]
  exact Nat.toDigits_ne_nil

/-- A digit from `1` on is a digit, and not the zero. -/
theorem digit_of_one_le (h1 : '1' ≤ c) (h9 : c ≤ '9') : c.isDigit = true ∧ c ≠ '0' := by
  have hl : 49 ≤ c.toNat := by simpa [Char.le_def, UInt32.le_iff_toNat_le] using h1
  have hu : c.toNat ≤ 57 := by simpa [Char.le_def, UInt32.le_iff_toNat_le] using h9
  refine ⟨?_, ?_⟩
  · simp only [Char.isDigit, UInt32.le_iff_toNat_le, ge_iff_le, Bool.and_eq_true, decide_eq_true_eq]
    exact ⟨by change 48 ≤ c.toNat; omega, hu⟩
  · rintro rfl
    exact absurd hl (by decide)

theorem one_le_of_digit (h : c.isDigit = true) (h0 : c ≠ '0') : '1' ≤ c ∧ c ≤ '9' := by
  have hc : 48 ≤ c.toNat ∧ c.toNat ≤ 57 := by simpa [Char.isDigit, UInt32.le_iff_toNat_le] using h
  have hne : c.toNat ≠ 48 := by
    intro he
    exact h0 (Char.toNat_inj.1 he)
  refine ⟨?_, ?_⟩
  · rw [Char.le_def, UInt32.le_iff_toNat_le]
    change 49 ≤ c.toNat
    omega
  · rw [Char.le_def, UInt32.le_iff_toNat_le]
    exact hc.2

/-- The texts of counts are the decimal digits of the numbers below `10 ^ 18`. -/
theorem isCount_iff : isCount value = true ↔ ∃ n : Nat, n < 10 ^ 18 ∧ value = Nat.toDigits 10 n := by
  cases value with
  | nil =>
    refine ⟨fun h => absurd h (by decide), ?_⟩
    rintro ⟨n, -, hn⟩
    exact absurd hn.symm Nat.toDigits_ne_nil
  | cons c rest =>
    by_cases h0 : c = '0'
    · subst h0
      have hone : ¬ '1' ≤ '0' := by decide
      simp only [isCount, hone, decide_false, Bool.false_and, Bool.or_false, decide_eq_true_eq]
      constructor
      · intro h
        exact ⟨0, by norm_num, by rw [h, Nat.toDigits_zero]⟩
      · rintro ⟨n, -, hn⟩
        have hv : n = 0 ∨ 0 < n := Nat.eq_zero_or_pos n
        rcases hv with rfl | hpos
        · rw [hn, Nat.toDigits_zero]
        · obtain ⟨c, rest', hc, hne⟩ := Decimal.exists_toDigits hpos
          rw [hc, List.cons.injEq] at hn
          exact absurd hn.1.symm hne
    · have hz : ¬ c :: rest = ['0'] := fun h => h0 (List.cons.inj h).1
      simp only [isCount, hz, decide_false, Bool.false_or, Bool.and_eq_true, decide_eq_true_eq, List.all_eq_true]
      constructor
      · rintro ⟨⟨⟨h1, h9⟩, hlen⟩, hall⟩
        have hd : ∀ d ∈ c :: rest, d.isDigit = true := by
          intro d hm
          rcases List.mem_cons.1 hm with rfl | hm
          · exact (digit_of_one_le h1 h9).1
          · exact hall d hm
        obtain ⟨hdigits, -⟩ := Decimal.toDigits_value hd h0
        refine ⟨Decimal.value (c :: rest), ?_, hdigits.symm⟩
        rw [← Nat.length_toDigits_le_iff (by omega) (by omega), hdigits, List.length_cons]
        omega
      · rintro ⟨n, hn, hv⟩
        have hlen := (Nat.length_toDigits_le_iff (b := 10) (by omega) (by omega)).2 hn
        rw [← hv, List.length_cons] at hlen
        have hd : ∀ d ∈ c :: rest, d.isDigit = true := fun d hm => Decimal.isDigit_toDigits (n := n) (hv ▸ hm)
        obtain ⟨h1, h9⟩ := one_le_of_digit (hd c List.mem_cons_self) h0
        exact ⟨⟨⟨h1, h9⟩, by omega⟩, fun d hm => hd d (List.mem_cons_of_mem _ hm)⟩

/-- What is read as a count. -/
theorem parseCount_eq_ok_iff {label : Text} {n : Int} : parseCount value label = .ok n ↔ 0 ≤ n ∧ n < 10 ^ 18 ∧ value = intText n := by
  unfold parseCount
  split
  · rename_i h
    obtain ⟨m, hm, rfl⟩ := isCount_iff.1 h
    rw [Decimal.value_toDigits, Except.ok.injEq]
    constructor
    · rintro rfl
      exact ⟨by omega, by exact_mod_cast hm, by rw [intText_nonneg (by omega), Int.toNat_natCast]⟩
    · rintro ⟨h0, -, he⟩
      rw [intText_nonneg h0] at he
      have := Decimal.toDigits_injective he
      omega
  · rename_i h
    refine ⟨fun he => absurd he (by simp [branchFail]), ?_⟩
    rintro ⟨h0, hlt, rfl⟩
    exact absurd (isCount_iff.2 ⟨n.toNat, by omega, intText_nonneg h0⟩) h

theorem parseCount_intText (label : Text) {n : Int} (h : 0 ≤ n) (hn : n < 10 ^ 18) : parseCount (intText n) label = .ok n :=
  parseCount_eq_ok_iff.2 ⟨h, hn, rfl⟩

/-! ## Segment lines -/

theorem isHexDigit_ne {d : Char} (h : isHexDigit c = true) (hd : isHexDigit d = false) : c ≠ d := by
  rintro rfl
  rw [h] at hd
  cases hd

theorem not_mem_name (h : validSegmentName value = true) (hc : isHexDigit c = false) : c ∉ value := by
  simp only [validSegmentName, Bool.and_eq_true, List.all_eq_true] at h
  exact fun hm => isHexDigit_ne (h.2 c hm) hc rfl

theorem not_mem_intText {n : Int} (h : 0 ≤ n) (hc : c.isDigit = false) : c ∉ intText n := by
  intro hm
  rw [isDigit_of_mem_intText h hm] at hc
  cases hc

/-- No field of a readable segment holds a character that is neither a letter nor a digit. -/
theorem SegmentRecord.Readable.not_mem_fields (h : segment.Readable)
    (hc : isHexDigit c = false) (hs : c ∉ "segment".toList) : ∀ field ∈ segmentFields segment, c ∉ field := by
  have hd : c.isDigit = false := by
    rw [isHexDigit, Bool.or_eq_false_iff] at hc
    exact hc.1
  simp only [segmentFields, List.forall_mem_cons, List.not_mem_nil, false_imp_iff, implies_true, and_true]
  exact ⟨hs, not_mem_name h.name hc, not_mem_intText h.start hd, not_mem_intText (h.start.trans h.order) hd, not_mem_intText h.bytes hd⟩

/-- A line of a segment is its fields, and perhaps spaces after them. -/
theorem split_segment_iff (h : segment.Readable) {line : Text} :
    split ' ' line = segmentFields segment ↔ ∃ k, line = segmentLine segment ++ List.replicate k ' ' := by
  rw [Lines.split_eq_iff (by simp [segmentFields])]
  constructor
  · rintro ⟨-, -, hk⟩
    exact hk
  · intro hk
    refine ⟨h.not_mem_fields (by decide) (by decide), ?_, hk⟩
    simp [segmentFields, intText_ne_nil h.bytes]

/-- The line of a segment starts with its first field and a space. -/
theorem segmentLine_eq (segment : SegmentRecord) : ∃ rest, segmentLine segment = "segment ".toList ++ rest :=
  ⟨[' '].intercalate (segmentFields segment).tail, by
    rw [segmentLine, segmentFields, List.intercalate_cons_of_ne_nil (by simp)]
    rfl⟩

/-- The first field of a line that starts with a word and a space is that word. -/
theorem first_of_split (word : Text) {line first second : Text} {rest : List Text} (hword : ' ' ∉ word) (hstarts : word ++ [' '] <+: line)
    (h : split ' ' line = first :: second :: rest) : first = word := by
  obtain ⟨hmem, -, k, hk⟩ := (Lines.split_eq_iff (by simp)).1 h
  obtain ⟨after, rfl⟩ := hstarts
  rw [List.intercalate_cons_of_ne_nil (by simp), List.append_assoc, List.append_assoc, List.append_assoc] at hk
  exact (Lines.before_mark_inj hword (hmem first List.mem_cons_self) hk).symm

/-- What is read as the line of a segment: the printed line, and perhaps spaces after it. -/
theorem parseSegmentLine_eq_ok_iff {line : Text} {known : List Text} :
    "segment ".toList <+: line ∧ parseSegmentLine line known = .ok segment ↔
      segment.Readable ∧ segment.sha256 ∉ known ∧ ∃ k, line = segmentLine segment ++ List.replicate k ' ' := by
  constructor
  · rintro ⟨hstarts, h⟩
    unfold parseSegmentLine at h
    split at h
    · rename_i first sha256 startText endText byteText hsplit
      split at h
      · cases h
      rename_i hname
      split at h
      · cases h
      rename_i hknown
      obtain ⟨start, hstart, h⟩ := bind_eq_ok_iff.1 h
      obtain ⟨last, hlast, h⟩ := bind_eq_ok_iff.1 h
      split at h
      · cases h
      rename_i horder
      obtain ⟨bytes, hbytes, h⟩ := bind_eq_ok_iff.1 h
      cases h
      obtain ⟨hs0, -, rfl⟩ := parseCount_eq_ok_iff.1 hstart
      obtain ⟨-, hl, rfl⟩ := parseCount_eq_ok_iff.1 hlast
      obtain ⟨hb0, hb, rfl⟩ := parseCount_eq_ok_iff.1 hbytes
      obtain rfl := first_of_split "segment".toList (by decide) hstarts hsplit
      have hr : SegmentRecord.Readable ⟨sha256, start, last, bytes⟩ := ⟨by simpa using hname, hs0, not_lt.1 horder, hl, hb0, hb⟩
      exact ⟨hr, hknown, (split_segment_iff hr).1 hsplit⟩
    · cases h
  · rintro ⟨hr, hknown, k, rfl⟩
    have hsplit := (split_segment_iff hr).2 ⟨k, rfl⟩
    have hstart := parseCount_intText "segment start sequence".toList hr.start (hr.order.trans_lt hr.last)
    have hend := parseCount_intText "segment end sequence".toList (hr.start.trans hr.order) hr.last
    have hbytes := parseCount_intText "segment byte count".toList hr.bytes hr.size
    have horder : ¬ segment.endSequence < segment.startSequence := not_lt.2 hr.order
    obtain ⟨rest, hrest⟩ := segmentLine_eq segment
    refine ⟨⟨rest ++ List.replicate k ' ', by rw [hrest, List.append_assoc]⟩, ?_⟩
    rw [parseSegmentLine, hsplit]
    simp only [segmentFields, hr.name, hknown, hstart, hend, hbytes, if_false, Bool.not_true, Bool.false_eq_true]
    change (if segment.endSequence < segment.startSequence then _ else _) = Except.ok segment
    rw [if_neg horder]
    rfl

/-- The lines are those of the segments, each with perhaps spaces after it. -/
def Spells (lines : List Text) (segments : List SegmentRecord) : Prop :=
  List.Forall₂ (fun line segment => ∃ k, line = segmentLine segment ++ List.replicate k ' ') lines segments

/-- What is read as the lines of the segments. -/
theorem parseSegmentLines_eq_ok_iff {known : List Text} : parseSegmentLines known lines = .ok segments ↔
      Spells lines segments ∧ (∀ segment ∈ segments, segment.Readable ∧ segment.sha256 ∉ known) ∧
        (segments.map (·.sha256)).Nodup := by
  induction lines generalizing known segments with
  | nil =>
    constructor
    · intro h
      cases h
      exact ⟨.nil, by simp, by simp⟩
    · rintro ⟨h, -, -⟩
      cases h
      rfl
  | cons line lines ih =>
    have hstep : parseSegmentLines known (line :: lines) = .ok segments ↔ ∃ segment rest, segments = segment :: rest ∧
        ("segment ".toList <+: line ∧ parseSegmentLine line known = .ok segment) ∧
          parseSegmentLines (segment.sha256 :: known) lines = .ok rest := by
      rw [parseSegmentLines]
      split
      · rename_i h
        constructor
        · intro he
          cases he
        · rintro ⟨segment, rest, -, ⟨hstarts, -⟩, -⟩
          rw [List.isPrefixOf_iff_prefix.2 hstarts] at h
          cases h
      · rename_i h
        have hstarts : "segment ".toList <+: line := List.isPrefixOf_iff_prefix.1 (by simpa using h)
        simp only [bind_eq_ok_iff, hstarts, true_and]
        constructor
        · rintro ⟨segment, hs, rest, hr, he⟩
          cases he
          exact ⟨segment, rest, rfl, hs, hr⟩
        · rintro ⟨segment, rest, rfl, hs, hr⟩
          exact ⟨segment, hs, rest, hr, rfl⟩
    rw [hstep]
    constructor
    · rintro ⟨segment, rest, rfl, hs, hr⟩
      obtain ⟨hread, hknown, hk⟩ := parseSegmentLine_eq_ok_iff.1 hs
      obtain ⟨hspells, hall, hnodup⟩ := ih.1 hr
      refine ⟨.cons hk hspells, ?_, ?_⟩
      · intro s hm
        rcases List.mem_cons.1 hm with rfl | hm
        · exact ⟨hread, hknown⟩
        · exact ⟨(hall s hm).1, fun h => (hall s hm).2 (List.mem_cons_of_mem _ h)⟩
      · rw [List.map_cons, List.nodup_cons]
        refine ⟨fun h => ?_, hnodup⟩
        obtain ⟨s, hm, hsha⟩ := List.mem_map.1 h
        exact (hall s hm).2 (hsha ▸ List.mem_cons_self)
    · rintro ⟨hspells, hall, hnodup⟩
      cases hspells with
      | cons hk hspells =>
        rename_i segment rest
        rw [List.map_cons, List.nodup_cons] at hnodup
        refine ⟨segment, rest, rfl, parseSegmentLine_eq_ok_iff.2 ⟨(hall segment List.mem_cons_self).1,
          (hall segment List.mem_cons_self).2, hk⟩, ih.2 ⟨hspells, fun s hm => ⟨(hall s (List.mem_cons_of_mem _ hm)).1, ?_⟩, hnodup.2⟩⟩
        rw [List.mem_cons, not_or]
        exact ⟨fun he => hnodup.1 (he ▸ List.mem_map_of_mem hm), (hall s (List.mem_cons_of_mem _ hm)).2⟩

/-! ## The whole ref -/

/-- The lines that the checksum of a ref covers, when the segments have given lines. -/
def bodyOf (spaceId : Text) (lines : List Text) : List Text := [refFormat, "space ".toList ++ spaceId] ++ lines

theorem ite_branchFail_eq_ok_iff {α : Type} {p : Prop} [Decidable p] {message : Text} {code : String} {x : Except Fault α} {a : α} :
    (if p then branchFail message code else x) = .ok a ↔ ¬p ∧ x = .ok a := by
  split
  · rename_i h
    simp [branchFail, h]
  · rename_i h
    simp [h]

/-- What is read as a ref that has three lines or more. -/
theorem parseRef_of_lines {first second last : Text} {middle : List Text}
    (h : splitLines text = first :: second :: (middle ++ [last])) : parseRef text = .ok document ↔
      refFormat = first ∧ "space ".toList <+: second ∧ "crc ".toList <+: last ∧ second.drop 6 ≠ [] ∧
        last.drop 4 = hex8 (crc32Of (unlines (first :: second :: middle))) ∧
          parseSegmentLines [] middle = .ok document.segments ∧ document.segments.length ≤ maxChainLength ∧
            document.spaceId = second.drop 6 := by
  have hlength : ¬ (first :: second :: (middle ++ [last])).length < 3 := by simp
  have hinit : (first :: second :: (middle ++ [last])).dropLast = first :: second :: middle := by
    rw [← List.cons_append, ← List.cons_append, List.dropLast_concat]
  have hlast : (first :: second :: (middle ++ [last])).getLastD [] = last := by
    rw [← List.cons_append, ← List.cons_append, List.getLastD_concat]
  have hrest : (parseSegmentLines [] middle >>= fun segments =>
      if maxChainLength < segments.length then
        branchFail "branch ref chain exceeds the supported segment count".toList "invalid-branch-ref"
      else pure ⟨second.drop 6, segments⟩) = .ok document ↔
        parseSegmentLines [] middle = .ok document.segments ∧ document.segments.length ≤ maxChainLength ∧
          document.spaceId = second.drop 6 := by
    rw [bind_eq_ok_iff]
    simp only [ite_branchFail_eq_ok_iff, not_lt]
    constructor
    · rintro ⟨segments, hs, hle, hd⟩
      cases hd
      exact ⟨hs, hle, rfl⟩
    · rintro ⟨hs, hle, hd⟩
      exact ⟨document.segments, hs, hle, by rw [← hd]; rfl⟩
  simp only [parseRef, h, hinit, hlast, List.getD_cons_zero, List.getD_cons_succ, List.drop_succ_cons, List.drop_zero,
    ite_branchFail_eq_ok_iff, hrest, hlength, not_false_eq_true, true_and, Bool.not_eq_true', Bool.not_eq_false,
    List.isPrefixOf_iff_prefix, not_ne_iff, List.length_eq_zero_iff]

/-- What is read as a ref. -/
theorem parseRef_eq_ok_iff : parseRef text = .ok document ↔
    document.Readable ∧ ∃ lines, Spells lines document.segments ∧
      splitLines text = bodyOf document.spaceId lines ++ [crcLine (bodyOf document.spaceId lines)] := by
  constructor
  · intro h
    by_cases hlength : (splitLines text).length < 3
    · rw [parseRef, if_pos hlength] at h
      cases h
    obtain ⟨first, second, middle, last, hs⟩ : ∃ first second middle last, splitLines text = first :: second :: (middle ++ [last]) := by
      generalize splitLines text = lines at hlength
      rcases lines with _ | ⟨first, _ | ⟨second, rest⟩⟩
      · simp at hlength
      · simp at hlength
      · rcases List.eq_nil_or_concat rest with rfl | ⟨middle, last, rfl⟩
        · simp at hlength
        · exact ⟨first, second, middle, last, by rw [List.concat_eq_append]⟩
    obtain ⟨rfl, ⟨space, rfl⟩, ⟨stored, rfl⟩, hne, hcrc, hsegments, hle, hspace⟩ := (parseRef_of_lines hs).1 h
    have hdrop : ("space ".toList ++ space).drop 6 = space := rfl
    have hdrop4 : ("crc ".toList ++ stored).drop 4 = stored := rfl
    rw [hdrop] at hne hspace
    rw [hdrop4] at hcrc
    obtain ⟨hspells, hall, hnodup⟩ := parseSegmentLines_eq_ok_iff.1 hsegments
    refine ⟨⟨hspace ▸ hne, fun segment hm => (hall segment hm).1, hnodup, hle⟩, middle, hspells, ?_⟩
    rw [hs, hspace, hcrc]
    rfl
  · rintro ⟨hr, lines, hspells, hs⟩
    have hs' : splitLines text = refFormat :: ("space ".toList ++ document.spaceId) ::
        (lines ++ [crcLine (bodyOf document.spaceId lines)]) := by
      rw [hs]
      rfl
    rw [parseRef_of_lines hs']
    refine ⟨rfl, List.prefix_append _ _, List.prefix_append _ _, hr.space, rfl, ?_, hr.chain, rfl⟩
    rw [parseSegmentLines_eq_ok_iff]
    exact ⟨hspells, fun segment hm => ⟨hr.segments segment hm, by simp⟩, hr.names⟩

/-! ## Printed refs -/

theorem isHexDigit_digitChar {d : Nat} (h : d < 16) : isHexDigit d.digitChar = true := by
  interval_cases d <;> decide

theorem isHexDigit_of_mem_hex8 {n : Nat} (h : c ∈ hex8 n) : isHexDigit c = true := by
  rw [hex8, List.leftpad] at h
  rcases List.mem_append.1 h with h | h
  · rw [List.eq_of_mem_replicate h]
    decide
  · obtain ⟨d, hd, rfl⟩ := Decimal.exists_digitChar (by omega) h
    exact isHexDigit_digitChar hd

theorem hex8_ne_nil (n : Nat) : hex8 n ≠ [] := by
  rw [hex8, List.leftpad]
  simp [Nat.toDigits_ne_nil]

/-- A line that ends in a hexadecimal digit does not end in another character. -/
theorem getLast?_crcLine (lines : List Text) (hc : isHexDigit c = false) : (crcLine lines).getLast? ≠ some c := by
  intro h
  rw [crcLine, List.getLast?_append_of_ne_nil _ (hex8_ne_nil _)] at h
  rw [isHexDigit_of_mem_hex8 (List.mem_of_getLast? h)] at hc
  cases hc

theorem not_mem_crcLine (lines : List Text) : '\n' ∉ crcLine lines := by
  rw [crcLine, List.mem_append, not_or]
  refine ⟨by decide, fun h => ?_⟩
  exact absurd (isHexDigit_of_mem_hex8 h) (by decide)

/-- A line of a readable segment holds no line feed and ends in no space and no carriage return. -/
theorem SegmentRecord.Readable.line (h : segment.Readable) :
    '\n' ∉ segmentLine segment ∧ ∀ c : Char, c.isDigit = false → (segmentLine segment).getLast? ≠ some c := by
  have hf := h.not_mem_fields (c := '\n') (by decide) (by decide)
  simp only [segmentFields, List.forall_mem_cons] at hf
  constructor
  · simp only [segmentLine, segmentFields, List.intercalate_cons_cons, List.intercalate_singleton, List.mem_append, not_or]
    simp [hf]
  · intro c hc hl
    have hb : (segmentLine segment).getLast? = (intText segment.byteCount).getLast? := by
      simp only [segmentLine, segmentFields, List.intercalate_cons_cons, List.intercalate_singleton, ← List.append_assoc]
      rw [List.getLast?_append_of_ne_nil _ (intText_ne_nil h.bytes)]
    rw [hb] at hl
    rw [isDigit_of_mem_intText h.bytes (List.mem_of_getLast? hl)] at hc
    cases hc

/-- The SpaceId sits on one line. -/
def OnOneLine (spaceId : Text) : Prop := '\n' ∉ spaceId ∧ spaceId.getLast? ≠ some '\r'

/-- The lines of a printed ref. -/
theorem printRef_eq (document : RefDocument) : printRef document = unlines (bodyLines document ++ [crcLine (bodyLines document)]) := rfl

/-- The lines of a readable ref hold no line feed when its SpaceId holds none. -/
theorem RefDocument.Readable.not_mem_lines (h : document.Readable) (hspace : '\n' ∉ document.spaceId) :
    ∀ line ∈ bodyLines document ++ [crcLine (bodyLines document)], '\n' ∉ line := by
  intro line hm
  simp only [bodyLines, List.mem_append, List.mem_cons, List.not_mem_nil, or_false, List.mem_map] at hm
  rcases hm with ((rfl | rfl) | ⟨segment, hsegment, rfl⟩) | rfl
  · decide
  · rw [List.mem_append, not_or]
    exact ⟨by decide, hspace⟩
  · exact (h.segments segment hsegment).line.1
  · exact not_mem_crcLine _

theorem getLast?_spaceLine {spaceId : Text} (h : spaceId ≠ []) : ("space ".toList ++ spaceId).getLast? = spaceId.getLast? :=
  List.getLast?_append_of_ne_nil _ h

/-- The lines of the print of a readable ref. -/
theorem RefDocument.Readable.splitLines_printRef (h : document.Readable) (hone : OnOneLine document.spaceId) :
    splitLines (printRef document) = bodyLines document ++ [crcLine (bodyLines document)] := by
  rw [printRef_eq, Lines.splitLines_unlines_iff (by simp) (h.not_mem_lines hone.1)]
  refine ⟨fun line hm => ?_, by rw [List.getLast?_concat]; simp [crcLine]⟩
  simp only [bodyLines, List.mem_append, List.mem_cons, List.not_mem_nil, or_false, List.mem_map] at hm
  rcases hm with ((rfl | rfl) | ⟨segment, hsegment, rfl⟩) | rfl
  · decide
  · rw [getLast?_spaceLine h.space]
    exact hone.2
  · exact (h.segments segment hsegment).line.2 _ (by decide)
  · exact getLast?_crcLine _ (by decide)

/-- A ref is read back from its print exactly when it is within the limits and its SpaceId sits on one line. -/
theorem parseRef_printRef_iff : parseRef (printRef document) = .ok document ↔ document.Readable ∧ OnOneLine document.spaceId := by
  rw [parseRef_eq_ok_iff, and_congr_right_iff]
  intro hr
  constructor
  · rintro ⟨lines, -, hs⟩
    have hline : "space ".toList ++ document.spaceId ∈ splitLines (printRef document) := by
      rw [hs]
      simp [bodyOf]
    have hspace : '\n' ∉ document.spaceId := fun hm => Lines.not_mem_of_mem_splitLines hline (List.mem_append_right _ hm)
    refine ⟨hspace, ?_⟩
    rw [printRef_eq, Lines.splitLines_unlines (by simp) (hr.not_mem_lines hspace), Lines.dropTrailing_eq_self_iff.2] at hs
    · rw [bodyLines, bodyOf, List.cons_append, List.cons_append, List.map_cons, List.cons_append, List.cons_append] at hs
      have hs := (List.cons.inj (List.cons.inj hs).2).1
      rw [Lines.chomp_eq_self_iff, getLast?_spaceLine hr.space] at hs
      exact hs
    · rw [List.map_append, List.map_singleton, List.getLast?_concat, Lines.chomp_eq_self_iff.2 (getLast?_crcLine _ (by decide))]
      simp [crcLine]
  · intro hone
    refine ⟨document.segments.map segmentLine, ?_, hr.splitLines_printRef hone⟩
    exact List.forall₂_map_left_iff.2 (List.forall₂_same.2 fun segment _ => ⟨0, (List.append_nil _).symm⟩)

/-- No line of a segment ends in a space. -/
def NoTrailingSpace (text : Text) : Prop := ∀ line ∈ splitLines text, "segment ".toList <+: line → line.getLast? ≠ some ' '

/-- Every line that spells a segment starts with the word. -/
theorem Spells.starts (h : Spells lines segments) : ∀ line ∈ lines, "segment ".toList <+: line := by
  induction h with
  | nil => exact List.forall_mem_nil _
  | @cons line segment lines segments hk _ ih =>
    obtain ⟨k, rfl⟩ := hk
    obtain ⟨rest, hrest⟩ := segmentLine_eq segment
    exact List.forall_mem_cons.2 ⟨⟨rest ++ List.replicate k ' ', by rw [hrest, List.append_assoc]⟩, ih⟩

/-- Lines that spell segments are the printed ones exactly when none ends in a space. -/
theorem Spells.eq_iff (h : Spells lines segments) (hr : ∀ segment ∈ segments, segment.Readable) :
    lines = segments.map segmentLine ↔ ∀ line ∈ lines, line.getLast? ≠ some ' ' := by
  constructor
  · rintro rfl line hm
    obtain ⟨segment, hsegment, rfl⟩ := List.mem_map.1 hm
    exact (hr segment hsegment).line.2 _ (by decide)
  · intro hl
    induction h with
    | nil => rfl
    | @cons line segment lines segments hk _ ih =>
      obtain ⟨k, rfl⟩ := hk
      rw [List.forall_mem_cons] at hl hr
      rw [List.map_cons, ih hr.2 hl.2]
      cases k with
      | zero => rw [List.replicate_zero, List.append_nil]
      | succ k =>
        rw [List.replicate_succ', ← List.append_assoc, List.getLast?_concat] at hl
        exact absurd rfl hl.1

/-- A text that is read is the printed one exactly when it is tidy and no segment's line ends in a space. -/
theorem printRef_eq_iff (h : parseRef text = .ok document) : printRef document = text ↔ Lines.Tidy text ∧ NoTrailingSpace text := by
  obtain ⟨hr, lines, hspells, hs⟩ := parseRef_eq_ok_iff.1 h
  have hline : "space ".toList ++ document.spaceId ∈ splitLines text := by
    rw [hs]
    simp [bodyOf]
  have hspace : '\n' ∉ document.spaceId := fun hm => Lines.not_mem_of_mem_splitLines hline (List.mem_append_right _ hm)
  have hsegments : NoTrailingSpace text ↔ ∀ line ∈ lines, line.getLast? ≠ some ' ' := by
    constructor
    · intro hn line hm
      refine hn line (by rw [hs]; simp [bodyOf, hm]) ?_
      exact hspells.starts line hm
    · intro hl line hm hstarts
      rw [hs] at hm
      simp only [bodyOf, List.mem_append, List.mem_cons, List.not_mem_nil, or_false] at hm
      rcases hm with ((rfl | rfl) | hm) | rfl
      · exact absurd hstarts (by decide)
      · obtain ⟨rest, hrest⟩ := hstarts
        cases hrest
      · exact hl line hm
      · obtain ⟨rest, hrest⟩ := hstarts
        cases hrest
  rw [← Lines.unlines_splitLines_iff, hsegments, ← hspells.eq_iff hr.segments]
  constructor
  · intro he
    have hone := (parseRef_printRef_iff.1 (by rw [he, h] : parseRef (printRef document) = .ok document)).2
    have hlines := hr.splitLines_printRef hone
    rw [he] at hlines
    refine ⟨by rw [hlines, ← printRef_eq, he], ?_⟩
    rw [hs] at hlines
    have hbody : bodyOf document.spaceId lines = bodyLines document := List.append_inj_left' hlines (by simp only [List.length_singleton])
    rw [bodyOf, bodyLines] at hbody
    exact List.append_cancel_left hbody
  · rintro ⟨he, hlines⟩
    have hbody : bodyOf document.spaceId lines = bodyLines document := by rw [bodyOf, bodyLines, hlines]
    rw [← he, hs, hbody, printRef_eq]

/-! ## Fork markers -/

/-- The characters of a branch name. -/
theorem isNameChar_of_mem {name : Text} (h : validBranchName name = true) : ∀ c ∈ name, isNameChar c = true := by
  simp only [validBranchName, Bool.and_eq_true] at h
  cases name with
  | nil => exact List.forall_mem_nil _
  | cons c rest =>
    have hf := h.2.2.1
    simp only [isFileName, Bool.and_eq_true, List.all_eq_true] at hf
    exact List.forall_mem_cons.2 ⟨by rw [isNameChar, hf.1, Bool.true_or], hf.2⟩

/-- A line of a marker, whose field is made of other characters than breaks. -/
theorem fieldLine {label field : Text} (hl : c ∉ label) (hf : c ∉ field) : c ∉ label ++ field ∧ (label ++ field).getLast? ≠ some c := by
  have hm : c ∉ label ++ field := by rw [List.mem_append, not_or]; exact ⟨hl, hf⟩
  exact ⟨hm, fun he => hm (List.mem_of_getLast? he)⟩

/-- A marker of two branches and a segment is read back from its print. -/
theorem parseForkMarker_printForkMarker {marker : ForkMarker} (hp : validBranchName marker.parent = true)
    (hc : validBranchName marker.child = true) (hne : marker.parent ≠ marker.child) (hs : validSegmentName marker.segment = true) :
    parseForkMarker (printForkMarker marker) = .ok marker := by
  have hname {name : Text} {c : Char} (h : validBranchName name = true) (hx : isNameChar c = false) : c ∉ name := by
    intro hm
    rw [isNameChar_of_mem h c hm] at hx
    cases hx
  have hfield {c : Char} (hx : isNameChar c = false) (hh : isHexDigit c = false)
      (hl : c ∉ "parent ".toList ∧ c ∉ "child ".toList ∧ c ∉ "segment ".toList ∧ c ∉ forkMarkerFormat) :
      ∀ line ∈ markerLines marker, c ∉ line ∧ line.getLast? ≠ some c := by
    simp only [markerLines, List.forall_mem_cons, List.not_mem_nil, false_imp_iff, implies_true, and_true]
    exact ⟨⟨hl.2.2.2, fun he => hl.2.2.2 (List.mem_of_getLast? he)⟩, fieldLine hl.1 (hname hp hx), fieldLine hl.2.1 (hname hc hx),
      fieldLine hl.2.2.1 (not_mem_name hs hh)⟩
  have hsplit : splitLines (printForkMarker marker) = markerLines marker ++ [crcLine (markerLines marker)] := by
    unfold printForkMarker
    rw [Lines.splitLines_unlines_iff (by simp)]
    · refine ⟨fun line hm => ?_, by rw [List.getLast?_concat]; simp [crcLine]⟩
      rw [List.mem_append, List.mem_singleton] at hm
      rcases hm with hm | rfl
      · exact (hfield (by decide) (by decide) (by decide) line hm).2
      · exact getLast?_crcLine _ (by decide)
    · intro line hm
      rw [List.mem_append, List.mem_singleton] at hm
      rcases hm with hm | rfl
      · exact (hfield (by decide) (by decide) (by decide) line hm).1
      · exact not_mem_crcLine _
  unfold parseForkMarker
  rw [hsplit]
  simp only [markerLines, List.cons_append, List.nil_append]
  rw [if_neg (by simp), if_neg (by simp), if_neg (by simp), if_neg (by simp [hp, hc, hne]), if_neg (by simp [hs])]
  simp

end Fram
