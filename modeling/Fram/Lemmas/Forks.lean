import Fram.Forks
import Fram.Lemmas.Run

/-!
# Stores over a heap

A write of a store over a heap does to its value what the function of `Store` does, keeps its references its own, and leaves of
the rest of the heap all but this: a slot table may have more positions in its slots (`Becomes`). A store whose tables have more
positions still represents its history (`Represents.widen`), so what a relative writes cannot be seen.
-/

namespace Fram

/-- The second table has the positions of the first and perhaps more. -/
structure Widens (slots slots' : TermSlots) : Prop where
  length : slots'.length = slots.length
  positions : ∀ slot p, p ∈ slotPositions slots slot → p ∈ slotPositions slots' slot

theorem Widens.refl (slots : TermSlots) : Widens slots slots := ⟨rfl, fun _ _ h => h⟩

theorem Widens.trans {a b c : TermSlots} (h : Widens a b) (h' : Widens b c) : Widens a c :=
  ⟨h'.length.trans h.length, fun slot p hp => h'.positions slot p (h.positions slot p hp)⟩

theorem widens_slotAdd (slots : TermSlots) (slot position : Nat) : Widens slots (slotAdd slots slot position) :=
  ⟨length_slotAdd slots slot position, fun _ _ => mem_slotPositions_slotAdd⟩

/-- A table with more positions is complete when the table is. -/
theorem Indexes.widen {hashes : List Int} {slots slots' : TermSlots} (h : Indexes hashes slots) (hw : Widens slots slots') :
    Indexes hashes slots' :=
  ⟨hw.length ▸ h.pos, fun p hash hp => hw.length ▸ hw.positions _ _ (h.complete p hash hp)⟩

/-! ## The heap -/

/-- What a store that owns some nested cells may change of a heap. -/
structure Moves (owned : List Nat) (heap heap' : Heap) : Prop where
  tables : heap.tables.length ≤ heap'.tables.length
  widens : ∀ ref, ref < heap.tables.length → Widens (heap.table ref) (heap'.table ref)
  cells : heap.cells.length ≤ heap'.cells.length
  kept : ∀ ref, ref < heap.cells.length → ref ∉ owned → heap'.cell ref = heap.cell ref

theorem Moves.refl (owned : List Nat) (heap : Heap) : Moves owned heap heap :=
  ⟨le_refl _, fun _ _ => Widens.refl _, le_refl _, fun _ _ _ => rfl⟩

namespace Heap

variable {heap : Heap} {ref : Nat}

theorem table_slotAdd_self (href : ref < heap.tables.length) (slot position : Nat) :
    (heap.slotAdd ref slot position).table ref = Fram.slotAdd (heap.table ref) slot position := by
  simp [table, slotAdd, List.getElem?_eq_getElem href]

theorem table_slotAdd_of_ne {other : Nat} (h : other ≠ ref) (slot position : Nat) :
    (heap.slotAdd ref slot position).table other = heap.table other := by
  simp [table, slotAdd, Ne.symm h]

theorem length_tables_slotAdd (slot position : Nat) : (heap.slotAdd ref slot position).tables.length = heap.tables.length := by
  simp [slotAdd]

theorem table_addTable (slots : TermSlots) : (heap.addTable slots).1.table (heap.addTable slots).2 = slots := by
  simp [table, addTable]

theorem table_addTable_of_lt (slots : TermSlots) (href : ref < heap.tables.length) :
    (heap.addTable slots).1.table ref = heap.table ref := by
  simp [table, addTable, List.getElem?_append_left href]

theorem cell_addCells_of_lt (values : List (List Nat)) (href : ref < heap.cells.length) :
    (heap.addCells values).1.cell ref = heap.cell ref := by
  simp [cell, addCells, List.getElem?_append_left href]

/-- Fresh cells hold their values. -/
theorem map_cell_addCells (values : List (List Nat)) : (heap.addCells values).2.map (heap.addCells values).1.cell = values := by
  refine List.ext_getElem? fun i => ?_
  simp only [addCells, List.map_map, List.getElem?_map]
  rcases Nat.lt_or_ge i values.length with hi | hi
  · rw [List.getElem?_range hi]
    simp [cell, List.getElem?_append_right, List.getElem?_eq_getElem hi]
  · rw [List.getElem?_eq_none (by simpa using hi), List.getElem?_eq_none hi]
    rfl

theorem mem_addCells {values : List (List Nat)} (h : ref ∈ (heap.addCells values).2) :
    heap.cells.length ≤ ref ∧ ref < (heap.addCells values).1.cells.length := by
  simp only [addCells, List.mem_map, List.mem_range] at h
  obtain ⟨i, hi, rfl⟩ := h
  simp only [addCells, List.length_append]
  omega

theorem nodup_addCells (values : List (List Nat)) : (heap.addCells values).2.Nodup :=
  List.nodup_range.map fun _ _ h => by simpa using h

theorem moves_addCells (owned : List Nat) (values : List (List Nat)) : Moves owned heap (heap.addCells values).1 :=
  ⟨le_refl _, fun _ _ => Widens.refl _, by simp [addCells], fun _ hr _ => cell_addCells_of_lt values hr⟩

/-- A row added to a table: the table of the store is what `indexRow` makes of it, and the other tables are as they were. -/
theorem indexRow_spec (href : ref < heap.tables.length) (hashes : List Int) (hash : Int) (position : Nat) :
    let result := heap.indexRow ref hashes hash position
    result.1.table result.2 = Fram.indexRow hashes (heap.table ref) hash position ∧ result.1.cells = heap.cells ∧
      heap.tables.length ≤ result.1.tables.length ∧ result.2 < result.1.tables.length ∧
      (result.2 = ref ∨ heap.tables.length ≤ result.2) ∧
      (∀ other, other < heap.tables.length → Widens (heap.table other) (result.1.table other)) ∧
      ∀ other, other < heap.tables.length → other ≠ ref → result.1.table other = heap.table other := by
  have hself := table_slotAdd_self href (slotOf hash (heap.table ref).length) position
  have hlen := @length_tables_slotAdd heap ref (slotOf hash (heap.table ref).length) position
  have hwiden : ∀ other, Widens (heap.table other) ((heap.slotAdd ref (slotOf hash (heap.table ref).length) position).table other) := by
    intro other
    by_cases hne : other = ref
    · rw [hne, hself]
      exact widens_slotAdd _ _ _
    · rw [table_slotAdd_of_ne hne]
      exact Widens.refl _
  simp only [indexRow, Fram.indexRow, hself]
  split
  · refine ⟨table_addTable _, rfl, ?_, ?_, Or.inr ?_, fun other ho => ?_, fun other ho hne => ?_⟩
    · simp [addTable, hlen]
    · simp [addTable]
    · simp [addTable, hlen]
    · rw [table_addTable_of_lt _ (by rwa [hlen])]
      exact hwiden other
    · rw [table_addTable_of_lt _ (by rwa [hlen]), table_slotAdd_of_ne hne]
  · exact ⟨hself, rfl, by rw [hlen], by rwa [hlen], Or.inl rfl, fun other _ => hwiden other,
      fun other _ hne => table_slotAdd_of_ne hne _ _⟩

/-- The nested cells of a heap decide what a cell holds. -/
theorem cell_congr {heap' : Heap} (h : heap'.cells = heap.cells) : heap'.cell = heap.cell := by
  funext ref
  unfold cell
  rw [h]

/-- A row added to one of the three tables of a store leaves the two others as they were. -/
theorem indexRow_own {a b c : Nat} (ha : a < heap.tables.length) (hb : b < heap.tables.length) (hc : c < heap.tables.length)
    (hab : a ≠ b) (hac : a ≠ c) (owned : List Nat) (hashes : List Int) (hash : Int) (position : Nat) :
    let result := heap.indexRow a hashes hash position
    result.1.table result.2 = Fram.indexRow hashes (heap.table a) hash position ∧ result.1.table b = heap.table b ∧
      result.1.table c = heap.table c ∧ result.1.cells = heap.cells ∧ result.2 < result.1.tables.length ∧ result.2 ≠ b ∧
      result.2 ≠ c ∧ Moves owned heap result.1 := by
  obtain ⟨htable, hcells, hlen, hlt, hfresh, hwiden, hother⟩ := indexRow_spec ha hashes hash position
  refine ⟨htable, hother b hb hab.symm, hother c hc hac.symm, hcells, hlt, ?_, ?_, hlen, hwiden, by rw [hcells],
    fun ref _ _ => by rw [cell_congr hcells]⟩
  · rcases hfresh with h | h
    · rwa [h]
    · omega
  · rcases hfresh with h | h
    · rwa [h]
    · omega

end Heap

/-! ## Writes -/

/-- The references of a store are its own: three tables and nested cells of the heap, all different. -/
structure Held.Owns (h : Held) : Prop where
  atomSlots : h.refs.atomSlots < h.heap.tables.length
  tripleSlots : h.refs.tripleSlots < h.heap.tables.length
  activeSlots : h.refs.activeSlots < h.heap.tables.length
  apart : h.refs.atomSlots ≠ h.refs.tripleSlots ∧ h.refs.atomSlots ≠ h.refs.activeSlots ∧ h.refs.tripleSlots ≠ h.refs.activeSlots
  cells : ∀ c ∈ h.refs.activeCells, c < h.heap.cells.length
  nodup : h.refs.activeCells.Nodup

/-- A write of a store: its new value, its references still its own, and what it changed of the heap. -/
structure Becomes (h h' : Held) (s' : TermStore) : Prop where
  read : h'.read = s'
  owns : h'.Owns
  moves : Moves h.refs.activeCells h.heap h'.heap
  fresh : ∀ c ∈ h'.refs.activeCells, c ∈ h.refs.activeCells ∨ h.heap.cells.length ≤ c

theorem Held.Owns.becomes {h : Held} (ho : h.Owns) : Becomes h h h.read := ⟨rfl, ho, Moves.refl _ _, fun _ hc => Or.inl hc⟩

theorem Becomes.eq {h h' : Held} {s' s'' : TermStore} (hb : Becomes h h' s') (he : s' = s'') : Becomes h h' s'' := he ▸ hb

theorem Becomes.trans {h h' h'' : Held} {s' s'' : TermStore} (hb : Becomes h h' s') (hb' : Becomes h' h'' s'') : Becomes h h'' s'' := by
  refine ⟨hb'.read, hb'.owns, ⟨hb.moves.tables.trans hb'.moves.tables, fun ref hr => ?_, hb.moves.cells.trans hb'.moves.cells,
    fun ref hr hn => ?_⟩, fun c hc => ?_⟩
  · exact (hb.moves.widens ref hr).trans (hb'.moves.widens ref (hr.trans_le hb.moves.tables))
  · rw [← hb.moves.kept ref hr hn]
    refine hb'.moves.kept ref (hr.trans_le hb.moves.cells) fun hm => ?_
    rcases hb.fresh ref hm with hm | hm
    · exact hn hm
    · omega
  · rcases hb'.fresh c hc with hc | hc
    · exact hb.fresh c hc
    · exact Or.inr (hb.moves.cells.trans hc)

section Writes

variable {Γ : Host} {h : Held}

/-- Interning an atom over a heap. -/
theorem Held.Owns.internAtom (ho : h.Owns) (a : Atom) : Becomes h (Held.internAtom Γ h a).1 (Fram.internAtom Γ h.read a).1 ∧
      (Held.internAtom Γ h a).2 = (Fram.internAtom Γ h.read a).2 := by
  have hfind : findAtomPosition Γ h.refs.atoms (h.heap.table h.refs.atomSlots) a =
      findAtomPosition Γ h.read.atoms h.read.atomSlots a := rfl
  unfold Held.internAtom Fram.internAtom
  rw [hfind]
  cases findAtomPosition Γ h.read.atoms h.read.atomSlots a with
  | some known => exact ⟨ho.becomes, rfl⟩
  | none =>
    obtain ⟨htable, hb, hc, hcells, hlt, hne, hne', hmoves⟩ := Heap.indexRow_own ho.atomSlots ho.tripleSlots ho.activeSlots
      ho.apart.1 ho.apart.2.1 h.refs.activeCells ((h.refs.atoms ++ [a]).map Γ.hashAtom) (Γ.hashAtom a) h.refs.atoms.length
    refine ⟨⟨?_, ⟨hlt, ?_, ?_, ⟨hne, hne', ho.apart.2.2⟩, ?_, ho.nodup⟩, hmoves, fun c hc => Or.inl hc⟩, rfl⟩
    · simp only [Held.read, htable, hb, hc, Heap.cell_congr hcells]
    · exact ho.tripleSlots.trans_le hmoves.tables
    · exact ho.activeSlots.trans_le hmoves.tables
    · exact fun c hc => (ho.cells c hc).trans_le hmoves.cells

/-- Interning a row over a heap. -/
theorem Held.Owns.internRow (ho : h.Owns) (row : TripleRow) : Becomes h (Held.internRow Γ h row).1 (Fram.internRow Γ h.read row).1 ∧
      (Held.internRow Γ h row).2 = (Fram.internRow Γ h.read row).2 := by
  have hfind : findTriplePosition Γ h.refs.triples (h.heap.table h.refs.tripleSlots) row =
      findTriplePosition Γ h.read.triples h.read.tripleSlots row := rfl
  unfold Held.internRow Fram.internRow
  rw [hfind]
  cases findTriplePosition Γ h.read.triples h.read.tripleSlots row with
  | some known => exact ⟨ho.becomes, rfl⟩
  | none =>
    obtain ⟨htable, hb, hc, hcells, hlt, hne, hne', hmoves⟩ := Heap.indexRow_own ho.tripleSlots ho.atomSlots ho.activeSlots
      ho.apart.1.symm ho.apart.2.2 h.refs.activeCells ((h.refs.triples ++ [row]).map (·.hash Γ)) (row.hash Γ) h.refs.triples.length
    refine ⟨⟨?_, ⟨?_, hlt, ?_, ⟨hne.symm, ho.apart.2.1, hne'⟩, ?_, ho.nodup⟩, hmoves, fun c hc => Or.inl hc⟩, rfl⟩
    · simp only [Held.read, htable, hb, hc, Heap.cell_congr hcells]
    · exact ho.atomSlots.trans_le hmoves.tables
    · exact ho.activeSlots.trans_le hmoves.tables
    · exact fun c hc => (ho.cells c hc).trans_le hmoves.cells

/-- Interning a term over a heap. -/
theorem Held.Owns.internHandle (ho : h.Owns) (t : Term) : Becomes h (Held.internHandle Γ h t).1 (Fram.internHandle Γ h.read t).1 ∧
      (Held.internHandle Γ h t).2 = (Fram.internHandle Γ h.read t).2 := by
  induction t generalizing h with
  | atom a => exact ho.internAtom a
  | triple t1 t2 t3 ih1 ih2 ih3 =>
    obtain ⟨b1, e1⟩ := ih1 ho
    obtain ⟨b2, e2⟩ := ih2 b1.owns
    obtain ⟨b3, e3⟩ := ih3 b2.owns
    rw [b1.read] at b2 e2
    rw [b2.read] at b3 e3
    simp only [Held.internHandle, Fram.internHandle]
    rw [e1, e2, e3]
    obtain ⟨b4, e4⟩ := b3.owns.internRow (Γ := Γ) ⟨(Fram.internHandle Γ h.read t1).2,
      (Fram.internHandle Γ (Fram.internHandle Γ h.read t1).1 t2).2,
      (Fram.internHandle Γ (Fram.internHandle Γ (Fram.internHandle Γ h.read t1).1 t2).1 t3).2⟩
    rw [b3.read] at b4 e4
    exact ⟨((b1.trans b2).trans b3).trans b4, e4⟩

/-- Interning the propositions of a batch over a heap. -/
theorem Held.Owns.operationHandles (ho : h.Owns) (operations : List CommitOperation) :
    Becomes h (Held.operationHandles Γ h operations).1 (Fram.operationHandles Γ h.read operations).1 ∧
      (Held.operationHandles Γ h operations).2 = (Fram.operationHandles Γ h.read operations).2 := by
  induction operations using List.reverseRecOn with
  | nil => exact ⟨ho.becomes, rfl⟩
  | append_singleton operations o ih =>
    obtain ⟨hb, he⟩ := ih
    obtain ⟨hb', he'⟩ := hb.owns.internHandle (Γ := Γ) o.proposition.term
    rw [hb.read] at hb' he'
    rw [operationHandles_concat]
    simp only [Held.operationHandles, List.foldl_append, List.foldl_cons, List.foldl_nil]
    exact ⟨hb.trans hb', congrArg₂ (fun handles handle => handles ++ [handle]) he he'⟩

/-- A change of fields that are not references, and perhaps fewer nested cells. -/
theorem Held.Owns.fields (ho : h.Owns) (refs : StoreRefs) (ha : refs.atomSlots = h.refs.atomSlots)
    (ht : refs.tripleSlots = h.refs.tripleSlots) (hs : refs.activeSlots = h.refs.activeSlots)
    (hc : List.Sublist refs.activeCells h.refs.activeCells) : Becomes h ⟨h.heap, refs⟩ (Held.read ⟨h.heap, refs⟩) := by
  refine ⟨rfl, ⟨?_, ?_, ?_, ?_, ?_, ?_⟩, Moves.refl _ _, fun c hm => Or.inl (hc.subset hm)⟩
  · exact ha ▸ ho.atomSlots
  · exact ht ▸ ho.tripleSlots
  · exact hs ▸ ho.activeSlots
  · exact ha ▸ ht ▸ hs ▸ ho.apart
  · exact fun c hm => ho.cells c (hc.subset hm)
  · exact ho.nodup.sublist hc

/-- Fresh nested cells after some of those of a store. -/
theorem Held.Owns.addCells (ho : h.Owns) {kept : List Nat} (hk : List.Sublist kept h.refs.activeCells) (values : List (List Nat))
    (refs : StoreRefs) (ha : refs.atomSlots = h.refs.atomSlots) (ht : refs.tripleSlots = h.refs.tripleSlots)
    (hs : refs.activeSlots = h.refs.activeSlots) (hc : refs.activeCells = kept ++ (h.heap.addCells values).2) :
    Becomes h ⟨(h.heap.addCells values).1, refs⟩
      { Held.read ⟨h.heap, refs⟩ with activeCells := kept.map h.heap.cell ++ values } := by
  refine ⟨?_, ⟨ha ▸ ho.atomSlots, ht ▸ ho.tripleSlots, hs ▸ ho.activeSlots, ha ▸ ht ▸ hs ▸ ho.apart, ?_, ?_⟩, Heap.moves_addCells _ _, ?_⟩
  · have hold : kept.map (h.heap.addCells values).1.cell = kept.map h.heap.cell :=
      List.map_congr_left fun c hc => Heap.cell_addCells_of_lt _ (ho.cells c (hk.subset hc))
    simp only [Held.read, hc, List.map_append, Heap.map_cell_addCells, hold]
    rfl
  · intro c hm
    rcases List.mem_append.1 (hc ▸ hm) with hm | hm
    · exact (ho.cells c (hk.subset hm)).trans_le (by simp [Heap.addCells])
    · exact (Heap.mem_addCells hm).2
  · show refs.activeCells.Nodup
    rw [hc]
    refine List.nodup_append'.2 ⟨ho.nodup.sublist hk, Heap.nodup_addCells _, fun c hm hm' => ?_⟩
    have hlt := ho.cells c (hk.subset hm)
    have hle := (Heap.mem_addCells hm').1
    omega
  · intro c hm
    rcases List.mem_append.1 (hc ▸ hm) with hm | hm
    · exact Or.inl (hk.subset hm)
    · exact Or.inr (Heap.mem_addCells hm).1

/-- A new value in a nested cell of a store. -/
theorem Held.Owns.setCell (ho : h.Owns) (position : Nat) (value : List Nat) : Becomes h
      { h with heap := { h.heap with cells := h.heap.cells.set (h.refs.activeCells[position]?.getD h.heap.cells.length) value } }
      { h.read with activeCells := h.read.activeCells.set position value } := by
  have hread : h.read.activeCells = h.refs.activeCells.map h.heap.cell := rfl
  cases hp : h.refs.activeCells[position]? with
  | none =>
    have hcells : h.heap.cells.set h.heap.cells.length value = h.heap.cells := List.set_eq_of_length_le (le_refl _)
    have hset : h.read.activeCells.set position value = h.read.activeCells :=
      List.set_eq_of_length_le (by simpa [hread] using List.getElem?_eq_none_iff.1 hp)
    rw [Option.getD_none, hcells, hset]
    exact ho.becomes
  | some ref =>
    have hmem : ref ∈ h.refs.activeCells := List.mem_of_getElem? hp
    have hlt := ho.cells ref hmem
    have hself : (h.heap.cells.set ref value)[ref]?.getD [] = value := by simp [hlt]
    have hother : ∀ other, other ≠ ref → (h.heap.cells.set ref value)[other]?.getD [] = h.heap.cell other := by
      intro other hne
      rw [List.getElem?_set_ne hne.symm]
      rfl
    rw [Option.getD_some]
    refine ⟨?_, ⟨ho.atomSlots, ho.tripleSlots, ho.activeSlots, ho.apart, ?_, ho.nodup⟩, ⟨le_refl _, fun _ _ => Widens.refl _, ?_, ?_⟩,
      fun c hc => Or.inl hc⟩
    · have hmap : h.refs.activeCells.map (fun r => (h.heap.cells.set ref value)[r]?.getD []) =
          (h.refs.activeCells.map h.heap.cell).set position value := by
        refine List.ext_getElem? fun i => ?_
        rw [List.getElem?_set, List.getElem?_map, List.getElem?_map, List.length_map]
        by_cases hi : position = i
        · subst hi
          rw [if_pos rfl, if_pos (List.getElem?_eq_some_iff.1 hp).1, hp, Option.map_some, hself]
        · rw [if_neg hi]
          cases hr : h.refs.activeCells[i]? with
          | none => rfl
          | some r =>
            rw [Option.map_some, Option.map_some, hother]
            rintro rfl
            exact hi ((List.getElem?_inj (List.getElem?_eq_some_iff.1 hp).1 ho.nodup).1 (hp.trans hr.symm))
      exact congrArg (fun cells => ({ h.read with activeCells := cells } : TermStore)) hmap
    · intro c hc
      rw [List.length_set]
      exact ho.cells c hc
    · rw [List.length_set]
    · intro c _ hn
      exact hother c fun he => hn (he ▸ hmem)

/-- A bucket more, its row added to the table of buckets. -/
theorem Held.Owns.indexBucket (ho : h.Owns) (buckets : List ActiveBucket) (hash : Int) (position : Nat) :
    let indexed := h.heap.indexRow h.refs.activeSlots (buckets.map fun b => Γ.hashInt b.tripleHandle) hash position
    Becomes h ⟨indexed.1, { h.refs with activeBuckets := buckets, activeSlots := indexed.2 }⟩
      { h.read with
        activeBuckets := buckets
        activeSlots := indexRow (buckets.map fun b => Γ.hashInt b.tripleHandle) h.read.activeSlots hash position } := by
  obtain ⟨htable, hb, hc, hcells, hlt, hne, hne', hmoves⟩ := Heap.indexRow_own ho.activeSlots ho.atomSlots ho.tripleSlots
    ho.apart.2.1.symm ho.apart.2.2.symm h.refs.activeCells (buckets.map fun b => Γ.hashInt b.tripleHandle) hash position
  refine ⟨?_, ⟨?_, ?_, hlt, ⟨ho.apart.1, hne.symm, hne'.symm⟩, ?_, ho.nodup⟩, hmoves, fun c hc => Or.inl hc⟩
  · simp only [Held.read, htable, hb, hc, Heap.cell_congr hcells]
  · exact ho.atomSlots.trans_le hmoves.tables
  · exact ho.tripleSlots.trans_le hmoves.tables
  · exact fun c hc => (ho.cells c hc).trans_le hmoves.cells

/-- Setting the live positions of a handle over a heap. -/
theorem Held.Owns.setActivePositions (ho : h.Owns) (handle : Int) (positions : List Nat) :
    Becomes h (Held.setActivePositions Γ h handle positions) (Fram.setActivePositions Γ h.read handle positions) := by
  have hopen : h.read.foldOpen = h.refs.foldOpen := rfl
  unfold Held.setActivePositions Fram.setActivePositions
  rw [hopen]
  cases findActiveBucketPosition Γ h.read handle with
  | some known =>
    dsimp only
    split
    · exact ho.setCell known positions
    · exact ho.fields _ rfl rfl rfl (List.Sublist.refl _)
  | none =>
    dsimp only
    have hb := ho.addCells (List.Sublist.refl h.refs.activeCells) (if h.refs.foldOpen then [positions] else [])
      ({ h.refs with activeCells := h.refs.activeCells ++ (h.heap.addCells (if h.refs.foldOpen then [positions] else [])).2 })
      rfl rfl rfl rfl
    have hb' := hb.owns.indexBucket (Γ := Γ) (h.refs.activeBuckets ++ [⟨handle, if h.refs.foldOpen then [] else positions⟩])
      (Γ.hashInt handle) h.refs.activeBuckets.length
    rw [hb.read] at hb'
    refine (hb.trans hb').eq ?_
    have hcells : h.read.activeCells = h.refs.activeCells.map h.heap.cell := rfl
    split
    · rfl
    · simp only [List.append_nil, hcells]
      rfl

/-- Opening a fold over a heap. -/
theorem Held.Owns.openFold (ho : h.Owns) : Becomes h (Held.openFold h) (Fram.openFold h.read) := by
  have hopen : h.read.foldOpen = h.refs.foldOpen := rfl
  unfold Held.openFold Fram.openFold
  rw [hopen]
  split
  · exact ho.becomes
  · exact ho.addCells (List.nil_sublist _) (h.refs.activeBuckets.map (·.positions))
      { h.refs with
        activeBuckets := h.refs.activeBuckets.map fun b => ⟨b.tripleHandle, []⟩
        activeCells := (h.heap.addCells (h.refs.activeBuckets.map (·.positions))).2
        foldOpen := true } rfl rfl rfl rfl

/-- Closing a fold over a heap. -/
theorem Held.Owns.closeFold (ho : h.Owns) : Becomes h (Held.closeFold h) (Fram.closeFold h.read) := by
  have hopen : h.read.foldOpen = h.refs.foldOpen := rfl
  unfold Held.closeFold Fram.closeFold
  rw [hopen]
  split
  · exact ho.fields _ rfl rfl rfl (List.nil_sublist _)
  · exact ho.becomes

/-- Folding an operation into the live positions over a heap. -/
theorem Held.Owns.applyOperationState (ho : h.Owns) (position : Nat) (row : OperationRow) :
    Becomes h (Held.applyOperationState Γ h position row) (Fram.applyOperationState Γ h.read position row) := by
  have htarget : ∀ target, Becomes h { h with refs := { h.refs with withdrawalTargets := h.refs.withdrawalTargets ++ [target] } }
      { h.read with withdrawalTargets := h.read.withdrawalTargets ++ [target] } :=
    fun target => ho.fields _ rfl rfl rfl (List.Sublist.refl _)
  unfold Held.applyOperationState Fram.applyOperationState
  cases row.action with
  | assert => exact (htarget none).trans ((htarget none).owns.setActivePositions row.tripleHandle _)
  | retract =>
    dsimp only
    cases (activePositions Γ h.read row.tripleHandle).getLast? with
    | none => exact htarget none
    | some target => exact (htarget (some target)).trans ((htarget (some target)).owns.setActivePositions row.tripleHandle _)

/-- One operation row over a heap. -/
theorem Held.Owns.appendOperation (ho : h.Owns) (sequence : Int) (ordinal : Nat) (action : Action) (handle : Int) :
    Becomes h (Held.appendOperation Γ h sequence ordinal action handle)
      (Fram.appendOperation Γ h.read sequence ordinal action handle) := by
  have hb := ho.fields ({ h.refs with operations := h.refs.operations ++ [⟨sequence, ordinal, action, handle⟩] })
    rfl rfl rfl (List.Sublist.refl _)
  exact hb.trans (hb.owns.applyOperationState h.refs.operations.length ⟨sequence, ordinal, action, handle⟩)

/-- Operation rows over a heap. -/
theorem Held.Owns.appendOperations (ho : h.Owns) (sequence : Int) (ordinal : Nat) (rows : List (Action × Int)) :
    Becomes h (Held.appendOperations Γ sequence h ordinal rows) (Fram.appendOperations Γ sequence h.read ordinal rows) := by
  induction rows generalizing h ordinal with
  | nil => exact ho.becomes
  | cons row rows ih =>
    obtain ⟨action, handle⟩ := row
    have hb := ho.appendOperation (Γ := Γ) sequence ordinal action handle
    have hb' := ih hb.owns (ordinal + 1)
    rw [hb.read] at hb'
    exact hb.trans hb'

/-- A transaction over handles, over a heap. -/
theorem Held.Owns.appendRows (ho : h.Owns) (sequence : Int) (rows : List (Action × Int)) :
    Becomes h (Held.appendRows Γ h sequence rows) (Fram.appendRows Γ h.read sequence rows) := by
  have hb := ho.fields
    ({ h.refs with transactions := h.refs.transactions ++ [⟨sequence, h.refs.operations.length, rows.length⟩] })
    rfl rfl rfl (List.Sublist.refl _)
  have hb' := hb.trans (hb.owns.appendOperations (Γ := Γ) sequence 0 rows)
  have hb'' := hb'.trans (hb'.owns.fields
    { (Held.appendOperations Γ sequence
        ⟨h.heap, { h.refs with transactions := h.refs.transactions ++ [⟨sequence, h.refs.operations.length, rows.length⟩] }⟩
        0 rows).refs with nextSequence := sequence + 1 } rfl rfl rfl (List.Sublist.refl _))
  refine hb''.eq ?_
  exact congrArg (fun s : TermStore => { s with nextSequence := sequence + 1 }) hb'.read

/-- A transaction over a heap. -/
theorem Held.Owns.appendValidTransaction (ho : h.Owns) (sequence : Int) (operations : List CommitOperation) :
    Becomes h (Held.appendValidTransaction Γ h sequence operations) (Fram.appendValidTransaction Γ h.read sequence operations) := by
  obtain ⟨hb, he⟩ := ho.operationHandles (Γ := Γ) operations
  have hb' := hb.owns.appendRows (Γ := Γ) sequence ((operations.map (·.action)).zip (Held.operationHandles Γ h operations).2)
  rw [hb.read, he] at hb'
  unfold Held.appendValidTransaction
  dsimp only
  rw [he]
  exact hb.trans hb'

end Writes

end Fram
