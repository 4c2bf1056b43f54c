import Fram.Types

/-!
# Slot tables

`src/fram/slots.bgl`: an open-addressed table over an append-only row vector. A table is a list of slots; a slot holds the
positions of the rows that hash to it. A lookup walks one slot and compares full rows, so it only needs the table to be
complete: every row is found in the slot of its hash (`Indexes`). The tables of atoms, of triple rows and of active buckets are
all kept by the functions below, each under its own hash.
-/

namespace Fram

/-- (`TermSlots`) A slot table. -/
abbrev TermSlots := List (List Nat)

/-- (`fresh-slots`) A table of empty slots. -/
def freshSlots (width : Nat) : TermSlots := List.replicate width []

/-- (`slot-of`) The slot of a hash. -/
def slotOf (hash : Int) (width : Nat) : Nat := (hash % (width : Int)).toNat

/-- (`slot-add!`) One more position in a slot. -/
def slotAdd (slots : TermSlots) (slot position : Nat) : TermSlots := slots.modify slot (· ++ [position])

/-- (`slot-positions`) The positions of a slot. -/
def slotPositions (slots : TermSlots) (slot : Nat) : List Nat := slots[slot]?.getD []

/-- (`initial-slots`) The width of a table for no rows. -/
def initialSlots : Nat := 64

/-- (`slot-load`) A table doubles once it holds more rows than this for each slot. -/
def slotLoad : Nat := 4

/-- The first width of `width, 2 * width, ...` that holds `n` rows, in at most `fuel` doublings. -/
def widthFrom (n : Nat) : Nat → Nat → Nat
  | 0, width => width
  | fuel + 1, width => if n ≤ slotLoad * width then width else widthFrom n fuel (2 * width)

/-- (`term-slots-width-for`) The width of a table for `n` rows. -/
def termSlotsWidthFor (n : Nat) : Nat := widthFrom n n initialSlots

/-- A table over the rows with the given hashes, added in order from a position on. -/
def buildSlotsFrom (width : Nat) : Nat → TermSlots → List Int → TermSlots
  | _, slots, [] => slots
  | position, slots, hash :: hashes =>
    buildSlotsFrom width (position + 1) (slotAdd slots (slotOf hash width) position) hashes

/-- (`build-atom-term-slots!`, `build-triple-term-slots!`, `build-active-slots!`) A table over the rows with the given hashes. -/
def buildSlots (hashes : List Int) (width : Nat) : TermSlots := buildSlotsFrom width 0 (freshSlots width) hashes

/-- (`index-atom-term!`, `index-triple-term!`) The table after a row is added at a position: it doubles when it is full. The
hashes are those of all rows, the new one included. -/
def indexRow (hashes : List Int) (slots : TermSlots) (hash : Int) (position : Nat) : TermSlots :=
  let indexed := slotAdd slots (slotOf hash slots.length) position
  if slotLoad * indexed.length < hashes.length then buildSlots hashes (2 * slots.length) else indexed

/-- (`find-atom-position`, `find-triple-position`, `find-active-bucket-position`) The first position in the slot of a hash whose
row passes a test. A position past the rows is skipped. -/
def findPosition {α : Type*} (rows : List α) (slots : TermSlots) (hash : Int) (test : α → Bool) : Option Nat :=
  (slotPositions slots (slotOf hash slots.length)).find? fun position => rows[position]?.any test

/-! ## Completeness -/

/-- The table has a slot, and every row stands in the slot of its hash. -/
structure Indexes (hashes : List Int) (slots : TermSlots) : Prop where
  pos : 0 < slots.length
  complete : ∀ (p : Nat) hash, hashes[p]? = some hash → p ∈ slotPositions slots (slotOf hash slots.length)

theorem length_freshSlots (width : Nat) : (freshSlots width).length = width := by
  simp [freshSlots]

@[simp] theorem length_slotAdd (slots : TermSlots) (slot position : Nat) : (slotAdd slots slot position).length = slots.length := by
  simp [slotAdd]

theorem slotOf_lt (hash : Int) {width : Nat} (h : 0 < width) : slotOf hash width < width := by
  unfold slotOf
  have h1 := Int.emod_lt_of_pos hash (by exact_mod_cast h : (0 : Int) < width)
  have h2 := Int.emod_nonneg hash (by omega : (width : Int) ≠ 0)
  omega

/-- A slot keeps its positions when one is added to the table. -/
theorem mem_slotPositions_slotAdd {slots : TermSlots} {slot slot' position p : Nat} (h : p ∈ slotPositions slots slot') :
    p ∈ slotPositions (slotAdd slots slot position) slot' := by
  unfold slotPositions slotAdd at *
  rw [List.getElem?_modify]
  cases hs : slots[slot']? with
  | none => simp [hs] at h
  | some ps =>
    simp only [hs, Option.getD_some, Option.map_eq_map, Option.map_some] at h ⊢
    split
    · exact List.mem_append_left _ h
    · exact h

/-- The position added is in its slot. -/
theorem mem_slotPositions_slotAdd_self {slots : TermSlots} {slot position : Nat} (h : slot < slots.length) :
    position ∈ slotPositions (slotAdd slots slot position) slot := by
  unfold slotPositions slotAdd
  rw [List.getElem?_modify, List.getElem?_eq_getElem h]
  simp

theorem indexes_freshSlots {width : Nat} (h : 0 < width) : Indexes [] (freshSlots width) :=
  ⟨by rwa [length_freshSlots], by simp⟩

/-- One more row, indexed at the end. -/
theorem Indexes.slotAdd {hashes : List Int} {slots : TermSlots} (h : Indexes hashes slots) (hash : Int) :
    Indexes (hashes ++ [hash]) (slotAdd slots (slotOf hash slots.length) hashes.length) := by
  refine ⟨by simpa using h.pos, fun p hash' hp => ?_⟩
  rw [length_slotAdd]
  rcases lt_trichotomy p hashes.length with hlt | rfl | hgt
  · rw [List.getElem?_append_left hlt] at hp
    exact mem_slotPositions_slotAdd (h.complete p hash' hp)
  · obtain rfl : hash = hash' := by simpa using hp
    exact mem_slotPositions_slotAdd_self (slotOf_lt hash h.pos)
  · rw [List.getElem?_eq_none (by simp; omega)] at hp
    cases hp

theorem Indexes.buildSlotsFrom {before : List Int} {slots : TermSlots} (h : Indexes before slots) (hashes : List Int) :
    Indexes (before ++ hashes) (buildSlotsFrom slots.length before.length slots hashes) := by
  induction hashes generalizing before slots with
  | nil => simpa [Fram.buildSlotsFrom] using h
  | cons hash hashes ih =>
    have := ih (h.slotAdd hash)
    simpa [Fram.buildSlotsFrom] using this

theorem indexes_buildSlots (hashes : List Int) {width : Nat} (h : 0 < width) : Indexes hashes (buildSlots hashes width) := by
  have := (indexes_freshSlots h).buildSlotsFrom hashes
  rwa [length_freshSlots] at this

/-- A table stays complete when a row is added to it, whether it doubles or not. -/
theorem Indexes.indexRow {hashes : List Int} {slots : TermSlots} (h : Indexes hashes slots) (hash : Int) :
    Indexes (hashes ++ [hash]) (indexRow (hashes ++ [hash]) slots hash hashes.length) := by
  unfold Fram.indexRow
  dsimp only
  split
  · exact indexes_buildSlots _ (by have := h.pos; omega)
  · exact h.slotAdd hash

theorem widthFrom_pos (n fuel : Nat) {width : Nat} (h : 0 < width) : 0 < widthFrom n fuel width := by
  induction fuel generalizing width with
  | zero => exact h
  | succ fuel ih =>
    unfold widthFrom
    split
    · exact h
    · exact ih (by omega)

theorem termSlotsWidthFor_pos (n : Nat) : 0 < termSlotsWidthFor n := widthFrom_pos n n (by decide)

/-! ## Lookup -/

section Lookup

variable {α : Type*} {rows : List α} {slots : TermSlots} {hash : Int} {test : α → Bool}

/-- What is found is a row that passes. -/
theorem findPosition_some {p : Nat} (h : findPosition rows slots hash test = some p) : ∃ row, rows[p]? = some row ∧ test row = true := by
  have := List.find?_some h
  cases hp : rows[p]? with
  | none => simp [hp] at this
  | some row => exact ⟨row, rfl, by simpa [hp] using this⟩

/-- A complete table misses no row of the hash that passes. -/
theorem findPosition_none {f : α → Int} (hi : Indexes (rows.map f) slots) (h : findPosition rows slots hash test = none)
    {p : Nat} {row : α} (hp : rows[p]? = some row) (hf : f row = hash) : test row = false := by
  have hmem := hi.complete p (f row) (by simp [hp])
  rw [hf] at hmem
  have := List.find?_eq_none.1 h p hmem
  simpa [hp] using this

/-- When at most one row passes and it hashes to the hash, a lookup finds exactly it. -/
theorem findPosition_eq_some_iff {f : α → Int} (hi : Indexes (rows.map f) slots) (hf : ∀ row, test row = true → f row = hash)
    (huniq : ∀ (p q : Nat) row row', rows[p]? = some row → rows[q]? = some row' → test row = true → test row' = true → p = q)
    (p : Nat) : findPosition rows slots hash test = some p ↔ ∃ row, rows[p]? = some row ∧ test row = true := by
  refine ⟨findPosition_some, ?_⟩
  rintro ⟨row, hp, ht⟩
  cases hfind : findPosition rows slots hash test with
  | none =>
    rw [findPosition_none hi hfind hp (hf row ht)] at ht
    cases ht
  | some q =>
    obtain ⟨row', hq, ht'⟩ := findPosition_some hfind
    rw [huniq p q row row' hp hq ht ht']

end Lookup

end Fram
