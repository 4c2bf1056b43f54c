import Fram.Lemmas.Placement

/-!
# Where inserts and moves put a form

A form that is inserted, or moved, after another one is to stand right after it, the other forms as they were. Two concurrent inserts
after one form leave two forms at one path, and there is no room between them; two concurrent moves of one form leave two edges to it,
and the next move takes one away.
-/

namespace Fram

namespace ChildOrder

open Lines (Text)
open ExceptList (bind_eq_ok_iff)

variable {path : List Nat} {edit : Edit} {root : Text}

/-- An edit of a module's forms. -/
inductive Edit where
  | insertForm (anchor : Nat) (root tie : Text)
  | reorder (mover : Text) (after : Option Text) (tie : Text)
  | upsertForm (victim : Option Text) (root tie : Text)
  deriving DecidableEq

/-- A row of `wrap-forms`. -/
abbrev Row := OrdKey × Fact

namespace Edit

/-- The edit's tie. -/
def tie : Edit → Text
  | .insertForm _ _ tie => tie
  | .reorder _ _ tie => tie
  | .upsertForm _ _ tie => tie

/-- The edit of a module. -/
def run (facts : List Fact) (wrapper : Text) : Edit → Except Fault (List Fact)
  | .insertForm anchor root tie => ChildOrder.insertForm facts wrapper anchor root tie
  | .reorder mover after tie => ChildOrder.reorder facts wrapper mover after tie
  | .upsertForm victim root tie => ChildOrder.upsertForm facts wrapper victim root tie

/-- The rows of the forms other than the one that is moved or replaced. -/
def others (rows : List Row) : Edit → List Row
  | .insertForm _ _ _ => rows
  | .reorder mover _ _ => rows.filter (·.2.object ≠ mover)
  | .upsertForm (some victim) _ _ => rows.eraseP (·.2.object = victim)
  | .upsertForm none _ _ => rows

/-- The rows of the others that the form is to come after, the last of them its anchor. A form in a form's place has no anchor. -/
def before (rows : List Row) : Edit → Option (List Row)
  | .insertForm anchor _ _ => some (rows.take (anchor + 1))
  | .reorder _ none _ => some []
  | .reorder mover (some anchor) _ =>
    let others := rows.filter (·.2.object ≠ mover)
    some (others.take (others.findIdx (·.2.object = anchor) + 1))
  | .upsertForm none _ _ => some rows
  | .upsertForm (some _) _ _ => none

/-- No more than one edge holds a form that is moved. -/
def Single (rows : List Row) : Edit → Prop
  | .reorder mover _ _ => rows.countP (·.2.object = mover) ≤ 1
  | _ => True

end Edit

/-- There is room between the last of some rows and the first of those after them. -/
def HasRoom (before after : List Row) : Prop :=
  ∀ next, after.head? = some next → Room ((before.getLast?.map (·.1.path)).getD []) next.1.path

/-- The edit put its form right after its anchor, and left the order of the other forms. -/
def Edit.Placed (edit : Edit) (wrapper : Text) (facts facts' : List Fact) : Prop :=
  ∃ rows rows' before after new, wrapForms facts wrapper = .ok rows ∧ wrapForms facts' wrapper = .ok rows' ∧
    facts'.getLast? = some new.2 ∧ edit.others rows = before ++ after ∧ rows' = before ++ new :: after ∧
    ∀ rest, edit.before rows = some rest → before = rest

/-- The tie is read, no more than one edge holds a form that is moved, and there is room after the anchor. -/
def Edit.Fits (edit : Edit) (wrapper : Text) (facts : List Fact) : Prop :=
  isDigits edit.tie = true ∧ ∀ rows, wrapForms facts wrapper = .ok rows → edit.Single rows ∧
    ∀ before after, edit.before rows = some before → edit.others rows = before ++ after → HasRoom before after

/-! ## The path that is chosen -/

/-- A path comes after the rows that it is to come after, and before the others or, without room, after the next of them. -/
structure Chosen (before after : List Row) (path : List Nat) : Prop where
  lower : ∀ row ∈ before, ordVeccmp row.1.path path = .lt
  upper : (HasRoom before after ∧ ∀ row ∈ after, ordVeccmp path row.1.path = .lt) ∨
    (¬HasRoom before after ∧ ∃ row ∈ after, ordVeccmp row.1.path path = .lt)

section Rows

variable {rows : List Row} (hs : rows.Pairwise fun x y => (cmpRows x y).isLE = true)

include hs

end Rows

/-! ## What an edit writes -/

variable {facts : List Fact} {wrapper : Text}

theorem wrapForms_eq_sortedRows (hw : AllWritten facts wrapper) : wrapForms facts wrapper = .ok (sortedRows facts wrapper) := wrapForms_eq hw

/-- The rows that an edit keeps. -/
def Edit.kept (rows : List Row) : Edit → List Row
  | .insertForm _ _ _ => rows
  | .reorder mover _ _ => rows.eraseP (·.2.object = mover)
  | .upsertForm (some victim) _ _ => rows.eraseP (·.2.object = victim)
  | .upsertForm none _ _ => rows

/-- What an accepted edit leaves: the facts that it keeps, and one with the path that was chosen. -/
structure Lands (edit : Edit) (wrapper : Text) (rows : List Row) (kept : List Fact) (path : List Nat) : Prop where
  longs : Path path
  written : AllWritten kept wrapper
  kept : sortedRows kept wrapper = edit.kept rows
  chosen : ∀ before, edit.before rows = some before → ∃ after, edit.others rows = before ++ after ∧ Chosen before after path

/-- A position that is written is read when its tie is of digits. -/
theorem placeOf_ordStr {tie : Text} (hp : Path path) (ht : Ties tie) :
    placeOf ⟨wrapper, ordStr path tie, root⟩ = if isDigits tie then some ⟨path, digits tie⟩ else none := by
  refine placeOf_eq ?_
  rw [ordParse, matchTied_ordStr hp.nonempty ht.tilde]
  simp only [map_digits hp.longs]

/-- There is one of a kind at most when taking one out takes as many as taking all of them. -/
theorem countP_le_one {α : Type} {p : α → Bool} {l : List α} (h : (l.eraseP p).length = (l.filter fun x => !p x).length) :
    l.countP p ≤ 1 := by
  have hsum := l.length_eq_countP_add_countP (p := p)
  have hfilter : (l.filter fun x => !p x).length = l.countP fun x => !p x := List.countP_eq_length_filter.symm
  have herase := l.length_eraseP (p := p)
  have heq : (l.countP fun x => decide ¬p x = true) = l.countP fun x => !p x := by simp
  split at herase
  · omega
  · omega

/-- Rows kept that are as many as the others hold a form that is moved once at most. -/
theorem Edit.single_of_length {rows : List Row} (h : (edit.kept rows).length = (edit.others rows).length) : edit.Single rows := by
  cases edit with
  | insertForm anchor root tie => trivial
  | reorder mover after tie =>
    refine countP_le_one (h.trans ?_)
    simp [others]
  | upsertForm victim root tie => trivial

/-- The rows in order, with the row of a fact that is read. -/
theorem sortedRows_concat (kept : List Fact) {fact : Fact} {key : OrdKey} (hs : fact.subject = wrapper) (hk : placeOf fact = some key) :
    sortedRows (kept ++ [fact]) wrapper = (rowsOf kept wrapper ++ [(key, fact)]).insertionSort fun x y => (cmpRows x y).isLE := by
  rw [sortedRows, rowsOf_concat kept hs, hk]
  rfl

/-- A form stands right after its anchor only if the edit fits. -/
theorem Edit.Placed.fits {kept : List Fact} (hw : AllWritten facts wrapper)
    (ht : Ties edit.tie) (hl : Lands edit wrapper (sortedRows facts wrapper) kept path)
    (h : edit.Placed wrapper facts (kept ++ [⟨wrapper, ordStr path edit.tie, root⟩])) : edit.Fits wrapper facts := by
  obtain ⟨rows, rows', before, after, ⟨key, fact⟩, hr, hr', hlast, hothers, hnew, hbefore⟩ := h
  obtain rfl := Except.ok.inj ((wrapForms_eq_sortedRows hw).symm.trans hr)
  rw [List.getLast?_concat, Option.some.injEq] at hlast
  change _ = fact at hlast
  have hplace := @placeOf_ordStr path root wrapper edit.tie hl.longs ht
  rw [hlast] at hplace hr'
  have hwritten : Written fact.predicate := by
    rw [← hlast]
    exact .tied hl.longs ht
  obtain rfl := Except.ok.inj ((wrapForms_eq_sortedRows (hl.written.append hwritten)).symm.trans hr')
  have hmem : (key, fact) ∈ rowsOf (kept ++ [fact]) wrapper := by
    rw [← List.mem_insertionSort fun x y => (cmpRows x y).isLE, ← sortedRows, hnew]
    simp
  rw [(mem_rowsOf.1 hmem).2] at hplace
  have hdigits : isDigits edit.tie = true := by
    by_contra hno
    rw [if_neg hno] at hplace
    cases hplace
  rw [if_pos hdigits, Option.some.injEq] at hplace
  refine ⟨hdigits, ?_⟩
  intro rows hrows
  obtain rfl := Except.ok.inj ((wrapForms_eq_sortedRows hw).symm.trans hrows)
  constructor
  · refine Edit.single_of_length ?_
    have hlength := congrArg List.length hnew
    rw [sortedRows_concat kept (hlast ▸ rfl) (mem_rowsOf.1 hmem).2, List.length_insertionSort, List.length_append,
      ← List.length_insertionSort fun x y => (cmpRows x y).isLE, ← sortedRows, hl.kept] at hlength
    simp only [List.length_append, List.length_cons, List.length_nil] at hlength
    rw [hothers, List.length_append]
    omega
  · intro rest after' hrest hsplit
    obtain rfl := hbefore rest hrest
    obtain ⟨after'', hsplit', hchosen⟩ := hl.chosen before hrest
    rw [hothers] at hsplit hsplit'
    obtain rfl := List.append_cancel_left hsplit
    obtain rfl := List.append_cancel_left hsplit'
    rcases hchosen.upper with ⟨hroom, -⟩ | ⟨-, row, hrow, hlt⟩
    · exact hroom
    · have hsorted := pairwise_sortedRows (kept ++ [fact]) wrapper
      rw [hnew, List.pairwise_append, List.pairwise_cons] at hsorted
      have hle := path_of_cmpRows (hsorted.2.1.1 row hrow)
      rw [hplace, ordVeccmp_swap, hlt] at hle
      exact absurd rfl hle

/-- A form that is inserted after another one is read right after it. -/
theorem Edit.Placed.children {anchor : Nat} {tie : Text} {kept : List Fact} {new : Fact}
    (h : (Edit.insertForm anchor root tie).Placed wrapper facts (kept ++ [new])) : ∃ forms, orderedChildren facts wrapper = .ok forms ∧
      orderedChildren (kept ++ [new]) wrapper = .ok (forms.take (anchor + 1) ++ new.object :: forms.drop (anchor + 1)) := by
  obtain ⟨rows, rows', before, after, row, hr, hr', hlast, hothers, hnew, hbefore⟩ := h
  rw [List.getLast?_concat, Option.some.injEq] at hlast
  obtain rfl := hbefore _ rfl
  have hafter : after = rows.drop (anchor + 1) :=
    List.append_cancel_left (hothers.symm.trans (List.take_append_drop (anchor + 1) rows).symm)
  refine ⟨rows.map (·.2.object), ?_, ?_⟩
  · rw [orderedChildren, hr]
    rfl
  · rw [orderedChildren, hr', hnew, hafter, hlast, ← List.map_take, ← List.map_drop, bind_eq_ok_iff]
    exact ⟨_, rfl, by rw [List.map_append, List.map_cons]⟩

end ChildOrder

end Fram
