import Mathlib.Tactic
import Mathlib.Data.List.DropRight

/-!
# Texts as lines, and lines as fields

How the host cuts a text: `split` at a character, where trailing empty pieces are dropped, and `splitLines` at line feeds, where a
carriage return before the line feed goes with it. A text that holds a mark is the join of its pieces; cutting is the inverse of
joining on pieces that hold no mark and do not end empty, and joining is the inverse of cutting exactly on the texts that are tidy.
-/

namespace Lines

variable {lines pieces : List Text} {text : Text} {mark : Char}

/-- A text of characters. -/
abbrev Text := List Char

/-- The pieces without the empty ones at the end. -/
def dropTrailing (pieces : List Text) : List Text := pieces.rdropWhile List.isEmpty

/-- (`String.split`, with one character as its pattern) A text that does not hold the character is one piece. -/
def split (mark : Char) (text : Text) : List Text :=
  if mark ∈ text then dropTrailing (text.splitOn mark) else [text]

/-- A line without the carriage return at its end. -/
def chomp (line : Text) : Text := if line.getLast? = some '\r' then line.dropLast else line

/-- The pieces between line feeds, where each but the last was ended by one. -/
def chompBreaks : List Text → List Text
  | [] => []
  | [last] => [last]
  | line :: rest => chomp line :: chompBreaks rest

/-- (`split-lines`) -/
def splitLines (text : Text) : List Text :=
  if '\n' ∈ text then dropTrailing (chompBreaks (text.splitOn '\n')) else [text]

/-- Lines, each ended by a line feed. -/
def unlines (lines : List Text) : Text := (lines.map (· ++ ['\n'])).flatten

theorem unlines_append (lines lines' : List Text) : unlines (lines ++ lines') = unlines lines ++ unlines lines' := by
  simp [unlines]

theorem splitOn_unlines (h : ∀ line ∈ lines, '\n' ∉ line) : (unlines lines).splitOn '\n' = lines ++ [[]] := by
  induction lines with
  | nil => rfl
  | cons line lines ih =>
    have hl : unlines (line :: lines) = line ++ '\n' :: unlines lines := by simp [unlines]
    rw [hl, List.splitOn_append_cons_self_of_not_mem (h line List.mem_cons_self), ih fun l hm => h l (List.mem_cons_of_mem _ hm)]
    rfl

/-- A text is its pieces, each but the last ended by a line feed. -/
theorem eq_unlines_of_splitOn {last : Text} (h : text.splitOn '\n' = lines ++ [last]) : text = unlines lines ++ last := by
  have hi := @List.intercalate_splitOn _ text _ _ '\n'
  rw [h] at hi
  rw [← hi]
  clear hi h
  induction lines with
  | nil => simp [unlines]
  | cons line lines ih =>
    rw [List.cons_append, List.intercalate_cons_of_ne_nil (by simp), ih]
    simp [unlines]

/-- The pieces of a text, with the last apart. -/
theorem exists_splitOn (text : Text) : ∃ lines last, text.splitOn '\n' = lines ++ [last] := by
  rcases List.eq_nil_or_concat (text.splitOn '\n') with h | ⟨lines, last, h⟩
  · exact absurd h (List.splitOn_ne_nil _ _)
  · exact ⟨lines, last, by rw [h, List.concat_eq_append]⟩

theorem getLast?_unlines (lines : List Text) (hne : lines ≠ []) : (unlines lines).getLast? = some '\n' := by
  rcases List.eq_nil_or_concat lines with rfl | ⟨init, last, rfl⟩
  · exact absurd rfl hne
  · rw [List.concat_eq_append, unlines_append]
    simp [unlines, ← List.append_assoc]

theorem chompBreaks_concat (lines : List Text) (last : Text) : chompBreaks (lines ++ [last]) = lines.map chomp ++ [last] := by
  induction lines with
  | nil => rfl
  | cons line lines ih =>
    cases lines with
    | nil => rfl
    | cons line' lines =>
      rw [List.cons_append, List.cons_append, chompBreaks, ← List.cons_append, ih]
      · rfl
      · simp

theorem not_mem_of_mem_splitOn {piece : Text} (h : piece ∈ text.splitOn mark) : mark ∉ piece := by
  induction text generalizing piece with
  | nil => simp_all
  | cons c text ih =>
    rw [List.splitOn_cons_eq_if_modifyHead] at h
    split at h
    · rcases List.mem_cons.1 h with rfl | h
      · simp
      · exact ih h
    · rename_i hc
      cases hs : text.splitOn mark with
      | nil => exact absurd hs (List.splitOn_ne_nil _ _)
      | cons p ps =>
        rw [hs] at h ih
        rcases List.mem_cons.1 h with rfl | h
        · have hp := ih List.mem_cons_self
          simp only [beq_iff_eq] at hc
          simp only [List.mem_cons, not_or]
          exact ⟨fun e => hc e.symm, hp⟩
        · exact ih (List.mem_cons_of_mem _ h)

theorem chomp_subset (line : Text) : chomp line ⊆ line := by
  unfold chomp
  split
  · exact List.dropLast_subset line
  · exact List.Subset.refl line

theorem chomp_eq_self_iff {line : Text} : chomp line = line ↔ line.getLast? ≠ some '\r' := by
  unfold chomp
  split
  · rename_i h
    constructor
    · intro he
      have hl := congrArg List.length he
      rw [List.length_dropLast] at hl
      cases line with
      | nil => simp at h
      | cons c line => simp at hl
    · intro hn
      exact absurd h hn
  · rename_i h
    exact ⟨fun _ => h, fun _ => rfl⟩

theorem dropTrailing_concat_nil (lines : List Text) : dropTrailing (lines ++ [[]]) = dropTrailing lines :=
  List.rdropWhile_concat_pos _ _ _ rfl

theorem dropTrailing_eq_self_iff : dropTrailing lines = lines ↔ lines.getLast? ≠ some [] := by
  rw [dropTrailing, List.rdropWhile_eq_self_iff]
  rcases List.eq_nil_or_concat lines with rfl | ⟨init, last, rfl⟩
  · simp
  · simp

theorem subset_of_dropTrailing : dropTrailing lines ⊆ lines :=
  List.IsPrefix.subset (List.rdropWhile_prefix _ _)

/-- No line of a cut text holds a line feed. -/
theorem not_mem_of_mem_splitLines {line : Text} (h : line ∈ splitLines text) : '\n' ∉ line := by
  unfold splitLines at h
  split at h
  · have hm := subset_of_dropTrailing h
    obtain ⟨init, last, hs⟩ := exists_splitOn text
    rw [hs, chompBreaks_concat] at hm
    rcases List.mem_append.1 hm with hm | hm
    · obtain ⟨piece, hp, rfl⟩ := List.mem_map.1 hm
      exact fun hn => not_mem_of_mem_splitOn (hs ▸ List.mem_append_left _ hp) (chomp_subset _ hn)
    · rw [List.mem_singleton] at hm
      subst hm
      exact not_mem_of_mem_splitOn (hs ▸ List.mem_append_right _ List.mem_cons_self)
  · rename_i hn
    rw [List.mem_singleton] at h
    exact h ▸ hn

/-- Lines without line feeds are cut again where they were joined, each without its carriage return and the empty ones at the end
dropped. -/
theorem splitLines_unlines (hne : lines ≠ []) (h : ∀ line ∈ lines, '\n' ∉ line) :
    splitLines (unlines lines) = dropTrailing (lines.map chomp) := by
  have hm : '\n' ∈ unlines lines := by
    obtain ⟨line, lines, rfl⟩ := List.exists_cons_of_ne_nil hne
    simp [unlines]
  rw [splitLines, if_pos hm, splitOn_unlines h, chompBreaks_concat, dropTrailing_concat_nil]

/-- Lines are read back exactly when none ends in a carriage return and the last is not empty. -/
theorem splitLines_unlines_iff (hne : lines ≠ []) (h : ∀ line ∈ lines, '\n' ∉ line) :
    splitLines (unlines lines) = lines ↔ (∀ line ∈ lines, line.getLast? ≠ some '\r') ∧ lines.getLast? ≠ some [] := by
  rw [splitLines_unlines hne h]
  constructor
  · intro he
    have hpre : dropTrailing (lines.map chomp) <+: lines.map chomp := List.rdropWhile_prefix _ _
    have hmap : lines.map chomp = lines := by
      rw [he] at hpre
      exact (hpre.eq_of_length (by simp)).symm
    refine ⟨fun line hm => chomp_eq_self_iff.1 ?_, dropTrailing_eq_self_iff.1 (by rw [hmap] at he; exact he)⟩
    have := List.map_inj_left.1 (hmap.trans (List.map_id lines).symm)
    exact this line hm
  · rintro ⟨hr, hl⟩
    have hmap : lines.map chomp = lines := by
      rw [← List.map_id lines]
      rw [List.map_map]
      exact List.map_congr_left fun line hm => chomp_eq_self_iff.2 (hr line hm)
    rw [hmap, dropTrailing_eq_self_iff.2 hl]

/-- A carriage return stands before a line feed only at the end of a line. -/
theorem infix_unlines_iff (h : ∀ line ∈ lines, '\n' ∉ line) :
    ['\r', '\n'] <:+: unlines lines ↔ ∃ line ∈ lines, line.getLast? = some '\r' := by
  constructor
  · rintro ⟨before, after, he⟩
    have hs : unlines lines = (before ++ ['\r']) ++ '\n' :: after := by simp [← he]
    obtain ⟨init, last, hi⟩ := exists_splitOn (before ++ ['\r'])
    obtain ⟨init', last', hi'⟩ := exists_splitOn after
    have hl : lines ++ [[]] = (init ++ [last] ++ init') ++ [last'] := by
      rw [← splitOn_unlines h, hs, List.splitOn_append_cons_self, hi, hi', List.append_assoc (init ++ [last])]
    have hlines := (List.append_inj' hl rfl).1
    refine ⟨last, by simp [hlines], ?_⟩
    have hu := congrArg List.getLast? (eq_unlines_of_splitOn hi)
    rw [List.getLast?_concat] at hu
    cases last with
    | nil =>
      rw [List.append_nil] at hu
      cases init with
      | nil => cases hu
      | cons line init =>
        rw [getLast?_unlines _ (by simp)] at hu
        cases hu
    | cons c last => rw [hu, List.getLast?_append_of_ne_nil _ (by simp)]
  · rintro ⟨line, hm, hr⟩
    obtain ⟨before, after, rfl⟩ := List.append_of_mem hm
    obtain ⟨init, rfl⟩ := List.getLast?_eq_some_iff.1 hr
    exact ⟨unlines before ++ init, unlines after, by simp [unlines]⟩

/-- The text is lines, the last of them not empty, each ended by one line feed with no carriage return before it. -/
def Tidy (text : Text) : Prop :=
  ¬ ['\r', '\n'] <:+: text ∧ ['\n'] <:+ text ∧ ¬ ['\n', '\n'] <:+ text ∧ text ≠ ['\n']

/-- Joining gives a text back from its lines exactly when it is tidy. -/
theorem unlines_splitLines_iff : unlines (splitLines text) = text ↔ Tidy text := by
  constructor
  · intro he
    have hn : ∀ line ∈ splitLines text, '\n' ∉ line := fun _ => not_mem_of_mem_splitLines
    have hne : splitLines text ≠ [] := by
      intro h
      rw [h] at he
      rw [← he] at h
      cases h
    obtain ⟨hr, hl⟩ := (splitLines_unlines_iff hne hn).1 (by rw [he])
    obtain ⟨init, last, hs⟩ := (List.eq_nil_or_concat (splitLines text)).resolve_left hne
    rw [List.concat_eq_append] at hs
    rw [hs, List.getLast?_concat] at hl
    have hlast : '\n' ∉ last := hn last (by simp [hs])
    have htext : text = unlines init ++ (last ++ ['\n']) := by
      rw [← he, hs, unlines_append]
      simp [unlines]
    refine ⟨?_, ⟨unlines init ++ last, by rw [htext, List.append_assoc]⟩, ?_, ?_⟩
    · rw [← he, infix_unlines_iff hn]
      rintro ⟨line, hm, hrl⟩
      exact hr line hm hrl
    · rintro ⟨before, hb⟩
      rw [htext, ← List.append_assoc, ← List.singleton_append, ← List.append_assoc] at hb
      have hb := congrArg List.getLast? (List.append_inj' hb rfl).1
      rw [List.getLast?_concat] at hb
      cases last with
      | nil => exact hl rfl
      | cons c last =>
        rw [List.getLast?_append_of_ne_nil _ (by simp)] at hb
        exact hlast (List.mem_of_getLast? hb.symm)
    · intro h1
      have hlen := congrArg List.length (htext.symm.trans h1)
      simp only [List.length_append, List.length_singleton] at hlen
      exact hl (by rw [List.length_eq_zero_iff.1 (by omega : last.length = 0)])
  · rintro ⟨hcr, ⟨front, hfront⟩, hdouble, hone⟩
    obtain ⟨init, last, hs⟩ := exists_splitOn front
    have hfront' := eq_unlines_of_splitOn hs
    have hinit : ∀ line ∈ init ++ [last], '\n' ∉ line := fun line hm => not_mem_of_mem_splitOn (hs ▸ hm)
    have htext : text = unlines (init ++ [last]) := by
      rw [← hfront, hfront', unlines_append]
      simp [unlines]
    have hsplit : splitLines text = init ++ [last] := by
      rw [htext, splitLines_unlines_iff (by simp) hinit, List.getLast?_concat]
      refine ⟨fun line hm hr => hcr ?_, ?_⟩
      · rw [htext, infix_unlines_iff hinit]
        exact ⟨line, hm, hr⟩
      · intro hnil
        cases hnil
        rw [List.append_nil] at hfront'
        cases init with
        | nil => exact hone (by rw [← hfront, hfront']; rfl)
        | cons line init =>
          obtain ⟨u, hu⟩ := List.getLast?_eq_some_iff.1 (getLast?_unlines (line :: init) (by simp))
          exact hdouble ⟨u, by rw [← hfront, hfront', hu, List.append_assoc]; rfl⟩
    rw [hsplit, htext]

/-! ## Fields -/

theorem splitOn_append_replicate (mark : Char) (text : Text) (k : Nat) :
    (text ++ List.replicate k mark).splitOn mark = text.splitOn mark ++ List.replicate k [] := by
  induction k with
  | zero => simp
  | succ k ih =>
    rw [List.replicate_succ', ← List.append_assoc, List.splitOn_append_cons_self, ih, List.splitOn_nil, List.append_assoc,
      ← List.replicate_succ']

theorem intercalate_concat_nil (mark : Char) (hne : pieces ≠ []) :
    [mark].intercalate (pieces ++ [[]]) = [mark].intercalate pieces ++ [mark] := by
  induction pieces with
  | nil => exact absurd rfl hne
  | cons piece pieces ih =>
    rw [List.cons_append, List.intercalate_cons_of_ne_nil (by simp)]
    cases pieces with
    | nil => simp
    | cons piece' pieces =>
      rw [ih (by simp), List.intercalate_cons_of_ne_nil (List.cons_ne_nil piece' pieces)]
      simp only [List.append_assoc]

theorem intercalate_append_replicate (mark : Char) (hne : pieces ≠ []) (k : Nat) :
    [mark].intercalate (pieces ++ List.replicate k []) = [mark].intercalate pieces ++ List.replicate k mark := by
  induction k with
  | zero => simp
  | succ k ih =>
    rw [List.replicate_succ', ← List.append_assoc, intercalate_concat_nil mark (by simp [hne]), ih, List.append_assoc,
      ← List.replicate_succ']

/-- Dropping the empty pieces at the end leaves pieces that the dropped ones follow. -/
theorem exists_dropTrailing (pieces : List Text) : ∃ k, pieces = dropTrailing pieces ++ List.replicate k [] := by
  refine ⟨(pieces.rtakeWhile List.isEmpty).length, ?_⟩
  have hr : pieces.rtakeWhile List.isEmpty = List.replicate (pieces.rtakeWhile List.isEmpty).length [] :=
    List.eq_replicate_iff.2 ⟨rfl, fun piece hm => List.isEmpty_iff.1 (List.mem_rtakeWhile_imp hm)⟩
  rw [← hr, dropTrailing, List.rdropWhile_append_rtakeWhile]

theorem dropTrailing_append_replicate (pieces : List Text) (k : Nat) :
    dropTrailing (pieces ++ List.replicate k []) = dropTrailing pieces := by
  induction k with
  | zero => simp
  | succ k ih => rw [List.replicate_succ', ← List.append_assoc, dropTrailing_concat_nil, ih]

theorem getLast?_dropTrailing (pieces : List Text) : (dropTrailing pieces).getLast? ≠ some [] :=
  dropTrailing_eq_self_iff.1 (List.rdropWhile_idempotent _ _)

/-- What stands before the first mark of a text is known from the text. -/
theorem before_mark_inj {text' rest rest' : Text} (h : mark ∉ text) (h' : mark ∉ text')
    (he : text ++ mark :: rest = text' ++ mark :: rest') : text = text' := by
  have hs := congrArg (List.splitOn mark) he
  rw [List.splitOn_append_cons_self_of_not_mem h, List.splitOn_append_cons_self_of_not_mem h', List.cons.injEq] at hs
  exact hs.1

/-- A text is cut into two or more fields exactly when it is those fields with the mark between them, the last not empty, and perhaps
marks after it. -/
theorem split_eq_iff (h2 : 2 ≤ pieces.length) : split mark text = pieces ↔ (∀ piece ∈ pieces, mark ∉ piece) ∧ pieces.getLast? ≠ some [] ∧
      ∃ k, text = [mark].intercalate pieces ++ List.replicate k mark := by
  have hne : pieces ≠ [] := by
    rintro rfl
    simp at h2
  constructor
  · intro h
    unfold split at h
    split at h
    · obtain ⟨k, hk⟩ := exists_dropTrailing (text.splitOn mark)
      rw [h] at hk
      refine ⟨fun piece hm => ?_, h ▸ getLast?_dropTrailing _, k, ?_⟩
      · exact not_mem_of_mem_splitOn (hk ▸ List.mem_append_left _ hm)
      · rw [← intercalate_append_replicate mark hne, ← hk, List.intercalate_splitOn]
    · rw [← h] at h2
      simp at h2
  · rintro ⟨hm, hl, k, rfl⟩
    have hmem : mark ∈ [mark].intercalate pieces ++ List.replicate k mark := by
      match pieces, h2 with
      | piece :: piece' :: rest, _ => simp [List.intercalate_cons_of_ne_nil]
    rw [split, if_pos hmem, splitOn_append_replicate, List.splitOn_intercalate mark hm hne, dropTrailing_append_replicate,
      dropTrailing_eq_self_iff.2 hl]

end Lines
