import Fram.Lemmas.GuestArena

/-!
# Blocks of the guest arena are apart

Over a run of allocations, frees, growth and writes of the guest, the blocks that the guest holds are its own (`guest_blocks_apart`), as
long as the sizes and the places of the blocks are below `2 ^ 31`. A size from `2 ^ 31` on is read as a negative number and gets the
least block (`guest_block_short`).
-/

namespace Fram.Worker

variable {w : ArenaWorld}

/-- The blocks that the guest holds are aligned, inside memory, and share no byte with each other or with a page of the guest. -/
structure ArenaWorld.Safe (w : ArenaWorld) : Prop where
  aligned : ∀ block ∈ w.live, 16 ∣ block.pointer
  inside : ∀ block ∈ w.live, 0 < block.pointer ∧ block.span.stop ≤ w.memory.byteLength
  apart : w.live.Pairwise fun a b => a.pointer ≠ b.pointer ∧ a.span.Apart b.span
  pages : ∀ block ∈ w.live, ∀ pages ∈ w.grown, block.span.Apart pages

/-- An allocation stays where 32-bit numbers have no sign: its size does, and where no freed block serves it, so does the place where
a block is cut: the bump pointer, or the end of the memory where a new region begins there. -/
def ArenaWorld.Unsigned (w : ArenaWorld) : ArenaEvent → Prop
  | .allocate size =>
    size.toNat < 2 ^ 31 ∧ (w.arena.free (classOf size.toNat) = [] → w.arena.next < 2 ^ 31 ∧
      (w.arena.next + (HEADER + classOf size.toNat : Nat) ≤ w.arena.stop ∨ w.memory.byteLength = w.arena.stop ∨
        w.memory.byteLength < 2 ^ 31 ∨ w.memory.maximum < w.memory.pages + w.arena.pagesToGrow (classOf size.toNat)))
  | _ => True

/-- Every event of the run has the property, in the world where it comes. -/
def ArenaWorld.Along (P : ArenaWorld → ArenaEvent → Prop) (w : ArenaWorld) : List ArenaEvent → Prop
  | [] => True
  | event :: events => P w event ∧ ArenaWorld.Along P (w.step event) events

/-! ## Blocks and who holds them -/

/-- Every block that the guest holds was cut and is large enough, every freed block is in the bucket of its class, and no block is twice
in either. -/
structure Held (free : Nat → List Int) (live : List Block) (blocks : List Carved) : Prop where
  live_cut : ∀ block ∈ live, ∃ c ∈ blocks, block.pointer = c.pointer ∧ block.size ≤ c.cls
  free_cut : ∀ cls, ∀ p ∈ free cls, ∃ c ∈ blocks, p = c.pointer ∧ c.cls = cls
  live_nodup : (live.map Block.pointer).Nodup
  free_nodup : ∀ cls, (free cls).Nodup
  not_both : ∀ cls, ∀ p ∈ free cls, ∀ block ∈ live, p ≠ block.pointer

section Held

variable {free : Nat → List Int} {live : List Block} {blocks : List Carved}

/-- A block that was just cut goes to the guest. -/
theorem Held.carve (h : Held free live blocks) {c : Carved} {size : Nat} (hsize : size ≤ c.cls)
    (hnew : ∀ c' ∈ blocks, c'.pointer ≠ c.pointer) : Held free (⟨c.pointer, size⟩ :: live) (c :: blocks) where
  live_cut := by
    intro block hb
    rcases List.mem_cons.1 hb with rfl | hb
    · exact ⟨c, List.mem_cons_self, rfl, hsize⟩
    · obtain ⟨c', hc', h1, h2⟩ := h.live_cut block hb
      exact ⟨c', List.mem_cons_of_mem _ hc', h1, h2⟩
  free_cut := by
    intro cls p hp
    obtain ⟨c', hc', h1, h2⟩ := h.free_cut cls p hp
    exact ⟨c', List.mem_cons_of_mem _ hc', h1, h2⟩
  live_nodup := by
    refine List.nodup_cons.2 ⟨?_, h.live_nodup⟩
    intro hm
    obtain ⟨block, hb, he⟩ := List.mem_map.1 hm
    obtain ⟨c', hc', h1, -⟩ := h.live_cut block hb
    exact hnew c' hc' (h1.symm.trans he)
  free_nodup := h.free_nodup
  not_both := by
    intro cls p hp block hb
    rcases List.mem_cons.1 hb with rfl | hb
    · obtain ⟨c', hc', h1, -⟩ := h.free_cut cls p hp
      rw [h1]
      exact fun he => hnew c' hc' (Int.natCast_inj.1 he)
    · exact h.not_both cls p hp block hb

/-- The last freed block of a class goes to the guest. -/
theorem Held.reuse (h : Held free live blocks) (hinj : ∀ c ∈ blocks, ∀ c' ∈ blocks, c.pointer = c'.pointer → c = c') {p : Int}
    {bucket : List Int} {cls size : Nat} (hbucket : free cls = p :: bucket) (hsize : size ≤ cls) :
    ∃ c ∈ blocks, p = c.pointer ∧ Held (Function.update free cls bucket) (⟨c.pointer, size⟩ :: live) blocks := by
  have hp : p ∈ free cls := by
    rw [hbucket]
    exact List.mem_cons_self
  obtain ⟨c, hc, rfl, rfl⟩ := h.free_cut cls p hp
  have hsub : ∀ k, List.Sublist (Function.update free c.cls bucket k) (free k) := by
    intro k
    by_cases hk : k = c.cls
    · rw [hk, Function.update_self, hbucket]
      exact List.sublist_cons_self _ _
    · rw [Function.update_of_ne hk]
  have hnodup := h.free_nodup c.cls
  rw [hbucket] at hnodup
  refine ⟨c, hc, rfl, ?_, ?_, ?_, ?_, ?_⟩
  · intro block hb
    rcases List.mem_cons.1 hb with rfl | hb
    · exact ⟨c, hc, rfl, hsize⟩
    · exact h.live_cut block hb
  · intro k q hq
    exact h.free_cut k q ((hsub k).subset hq)
  · refine List.nodup_cons.2 ⟨?_, h.live_nodup⟩
    intro hm
    obtain ⟨block, hb, he⟩ := List.mem_map.1 hm
    refine h.not_both c.cls _ hp block hb ?_
    rw [he]
  · intro k
    exact (h.free_nodup k).sublist (hsub k)
  · intro k q hq block hb
    rcases List.mem_cons.1 hb with rfl | hb
    · -- only the bucket that the block left could hold it
      intro he
      obtain ⟨c', hc', h1, h2⟩ := h.free_cut k q ((hsub k).subset hq)
      have hk : k = c.cls := by
        rw [← h2, hinj c' hc' c hc (Int.natCast_inj.1 (h1.symm.trans he))]
      rw [hk, Function.update_self] at hq
      refine (List.nodup_cons.1 hnodup).1 ?_
      rw [← he]
      exact hq
    · exact h.not_both k q ((hsub k).subset hq) block hb

/-- A block that the guest gives back is no longer with it. -/
theorem pointer_ne_of_mem_eraseP (hn : (live.map Block.pointer).Nodup) {p : Nat} {block : Block}
    (hb : block ∈ live.eraseP fun b => b.pointer == p) : block.pointer ≠ p := by
  have he : (live.eraseP fun b => b.pointer == p).map Block.pointer = (live.map Block.pointer).erase p := by
    rw [List.erase_eq_eraseP', List.eraseP_map]
    rfl
  have hm : block.pointer ∈ (live.map Block.pointer).erase p := by
    rw [← he]
    exact List.mem_map_of_mem hb
  exact (hn.mem_erase_iff.1 hm).1

/-- A block of the guest goes to the bucket of its class. -/
theorem Held.deallocate (h : Held free live blocks) {block : Block} (hb : block ∈ live) {c : Carved} (hc : c ∈ blocks)
    (hp : block.pointer = c.pointer) :
    Held (Function.update free c.cls ((c.pointer : Int) :: free c.cls)) (live.eraseP fun b => b.pointer == c.pointer) blocks := by
  have hmem : ∀ k, ∀ q ∈ Function.update free c.cls ((c.pointer : Int) :: free c.cls) k,
      q = c.pointer ∧ k = c.cls ∨ q ∈ free k := by
    intro k q hq
    by_cases hk : k = c.cls
    · rw [hk, Function.update_self] at hq
      rcases List.mem_cons.1 hq with rfl | hq
      · exact Or.inl ⟨rfl, hk⟩
      · exact Or.inr (hk ▸ hq)
    · rw [Function.update_of_ne hk] at hq
      exact Or.inr hq
  have hfresh : ∀ k, (c.pointer : Int) ∉ free k := by
    intro k hq
    exact h.not_both k _ hq block hb (by rw [hp])
  refine ⟨?_, ?_, ?_, ?_, ?_⟩
  · intro b hb'
    exact h.live_cut b (List.mem_of_mem_eraseP hb')
  · intro k q hq
    rcases hmem k q hq with ⟨rfl, rfl⟩ | hq
    · exact ⟨c, hc, rfl, rfl⟩
    · exact h.free_cut k q hq
  · exact h.live_nodup.sublist ((List.eraseP_sublist).map _)
  · intro k
    by_cases hk : k = c.cls
    · rw [hk, Function.update_self]
      exact List.nodup_cons.2 ⟨hfresh _, h.free_nodup _⟩
    · rw [Function.update_of_ne hk]
      exact h.free_nodup k
  · intro k q hq b hb'
    rcases hmem k q hq with ⟨rfl, rfl⟩ | hq
    · intro he
      exact pointer_ne_of_mem_eraseP h.live_nodup hb' (Int.natCast_inj.1 he.symm)
    · exact h.not_both k q hq b (List.mem_of_mem_eraseP hb')

end Held

/-! ## One event -/

/-- The arena and the guest agree about the blocks that were cut. -/
def ArenaWorld.Kept (w : ArenaWorld) : Prop :=
  ∃ blocks next stop, Carving w.arena w.memory w.grown blocks next stop ∧ Held w.arena.free w.live blocks

theorem ArenaWorld.Kept.safe (h : w.Kept) : w.Safe := by
  obtain ⟨blocks, next, stop, hcut, hheld⟩ := h
  -- the bytes of a block of the guest are bytes of the block that was cut
  have hwithin : ∀ block ∈ w.live, ∃ c ∈ blocks, block.pointer = c.pointer ∧ block.span.Within c.span := by
    intro block hb
    obtain ⟨c, hc, hp, hsize⟩ := hheld.live_cut block hb
    refine ⟨c, hc, hp, ?_⟩
    simp only [Span.Within, Block.span, Carved.span, hp, Carved.pointer]
    omega
  refine ⟨?_, ?_, ?_, ?_⟩
  · intro block hb
    obtain ⟨c, hc, hp, -⟩ := hwithin block hb
    rw [hp]
    exact (hcut.aligned c hc).add (by decide)
  · intro block hb
    obtain ⟨c, hc, hp, hw⟩ := hwithin block hb
    rw [hp]
    exact ⟨(hcut.pointer_lt hc).1, hw.2.trans (hcut.span_le hc)⟩
  · have hne : w.live.Pairwise fun a b => a.pointer ≠ b.pointer := List.pairwise_map.1 hheld.live_nodup
    refine hne.imp_of_mem ?_
    intro a b ha hb hab
    obtain ⟨c, hc, hp, hw⟩ := hwithin a ha
    obtain ⟨c', hc', hp', hw'⟩ := hwithin b hb
    refine ⟨hab, (hcut.blocks_apart hc hc' ?_).mono hw hw'⟩
    intro he
    exact hab (by rw [hp, hp', he])
  · intro block hb pages hpages
    obtain ⟨c, hc, -, hw⟩ := hwithin block hb
    exact (hcut.grown_apart hc hpages).mono hw ⟨Nat.le_refl _, Nat.le_refl _⟩

/-- The world right after the arena was reserved. -/
theorem ArenaWorld.kept_boot {initialPages growPages : Nat} {memory : Memory}
    (h : ArenaWorld.boot initialPages growPages memory = some w) : w.Kept := by
  cases hg : memory.grow initialPages with
  | none => simp [ArenaWorld.boot, Arena.reserve, Arena.fresh, hg] at h
  | some grown =>
    obtain ⟨before, memory'⟩ := grown
    obtain ⟨rfl, hlen, -⟩ := Memory.grow_eq_some hg
    simp only [ArenaWorld.boot, Arena.reserve, Arena.fresh, hg, Option.some.injEq] at h
    subst h
    have hl : memory.byteLength = memory.pages * PAGE_BYTES := rfl
    refine ⟨[], memory.byteLength, memory'.byteLength, ⟨rfl, ?_, ?_, ?_, ?_, ?_, ?_, ?_, ?_⟩, ⟨?_, ?_, ?_, ?_, ?_⟩⟩
    · simp only [hlen, hl]
      omega
    · omega
    · exact ⟨memory.pages * 4096, by rw [hl, PAGE_BYTES]; omega⟩
    · refine List.pairwise_cons.2 ⟨?_, List.pairwise_singleton _ _⟩
      intro s hs
      rw [List.mem_singleton.1 hs]
      exact (Span.apart_of_le (Nat.le_refl _)).symm
    · intro s hs
      rcases List.mem_cons.1 hs with rfl | hs
      · exact Nat.le_refl _
      · rw [List.mem_singleton.1 hs]
        exact (by omega : memory.byteLength ≤ memory'.byteLength)
    all_goals simp

/-- A block that is cut goes to the guest. -/
theorem ArenaWorld.Kept.cut {arena : Arena} {memory : Memory} {grown : List Span} {live : List Block} {blocks : List Carved}
    {next stop : Nat} (hcut : Carving arena memory grown blocks next stop) (hheld : Held arena.free live blocks) {size : Nat}
    (hsize : size < 2 ^ 31) (hfit : next + (HEADER + classOf size) ≤ stop) (hnext : next < 2 ^ 31)
    (hlive : w.live = live) (hgrown : w.grown = grown) : (w.replied size (arena.carve memory (classOf size))).Kept := by
  have hle := size_le_classOf size
  obtain ⟨memory', hcarve, hcut'⟩ :=
    hcut.carve hfit hnext (dvd_classOf size) (le_classOf size) (classOf_lt (by omega))
  obtain ⟨hpos, hlt⟩ := hcut'.pointer_lt List.mem_cons_self
  rw [hcarve]
  simp only [ArenaWorld.replied]
  rw [toUint32_of_lt hlt, if_neg (by omega), hlive, hgrown]
  have hroom : size ≤ (⟨next, classOf size⟩ : Carved).cls := by
    show size ≤ classOf size
    omega
  refine ⟨_, _, _, hcut', hheld.carve hroom ?_⟩
  intro c' hc' he
  refine hcut.header_ne_next hc' (by simp only [HEADER] at hfit; omega) ?_
  simp only [Carved.pointer] at he
  omega

theorem ArenaWorld.step_allocate (w : ArenaWorld) (size : UInt32) :
    w.step (.allocate size) = w.replied size.toNat (w.arena.allocate w.memory (toInt32 size.toNat)) := rfl

/-- An allocation. -/
theorem ArenaWorld.Kept.allocate (h : w.Kept) {size : UInt32} (hu : w.Unsigned (.allocate size)) : (w.step (.allocate size)).Kept := by
  obtain ⟨blocks, next, stop, hcut, hheld⟩ := h
  obtain ⟨hsize, hplace⟩ := hu
  rw [ArenaWorld.step_allocate, toInt32_of_lt hsize]
  have hle := size_le_classOf size.toNat
  rcases hbucket : w.arena.free (classOf size.toNat) with _ | ⟨p, bucket⟩
  · obtain ⟨hnext, hmore⟩ := hplace hbucket
    rw [hcut.next_eq, hcut.stop_eq] at hmore
    rw [hcut.next_eq] at hnext
    have hround : roundUp w.arena.next = next := by
      rw [hcut.next_eq]
      exact roundUp_of_aligned hcut.next_aligned (by omega)
    by_cases hfit : roundUp w.arena.next + (HEADER + classOf size.toNat : Nat) ≤ w.arena.stop
    · rw [Arena.allocate_cut hbucket hfit]
      rw [hround, hcut.stop_eq] at hfit
      exact ArenaWorld.Kept.cut hcut hheld hsize (by omega) (by omega) rfl rfl
    · cases hg : w.memory.grow (w.arena.pagesToGrow (classOf size.toNat)) with
      | none =>
        rw [Arena.allocate_full hbucket hfit hg]
        exact ⟨blocks, next, stop, hcut, hheld⟩
      | some grown =>
        obtain ⟨before, memory'⟩ := grown
        rw [Arena.allocate_grown hbucket hfit hg]
        rw [hround, hcut.stop_eq] at hfit
        have hcut' := hcut.extended hg
        have hnext' : (if w.memory.byteLength ≠ stop then w.memory.byteLength else next) < 2 ^ 31 := by
          have hmax := Memory.grow_le hg
          rcases hmore with hmore | hmore | hmore | hmore
          · exact absurd hmore hfit
          · rw [if_neg (by omega)]
            omega
          · split <;> omega
          · omega
        have hround' : roundUp (w.arena.extended before (w.arena.pagesToGrow (classOf size.toNat))).next =
            (if w.memory.byteLength ≠ stop then w.memory.byteLength else next : Nat) := by
          rw [hcut'.next_eq]
          exact roundUp_of_aligned hcut'.next_aligned hnext'
        split
        · rename_i hfit'
          rw [hround', hcut'.stop_eq] at hfit'
          exact ArenaWorld.Kept.cut hcut' hheld hsize (by omega) hnext' rfl rfl
        · exact ⟨blocks, _, _, hcut', hheld⟩
  · obtain ⟨c, hc, rfl, hheld'⟩ := hheld.reuse (fun c hc c' hc' => hcut.eq_of_pointer hc hc') hbucket (show size.toNat ≤ _ by omega)
    obtain ⟨hpos, hlt⟩ := hcut.pointer_lt hc
    rw [Arena.allocate_reuse hbucket]
    simp only [ArenaWorld.replied]
    rw [toUint32_of_lt hlt, if_neg (by omega)]
    refine ⟨blocks, next, stop, hcut.keeps rfl rfl (Nat.le_refl _) ?_, hheld'⟩
    intro c' hc'
    exact ⟨Nat.le_refl _, fun _ _ => rfl⟩

theorem ArenaWorld.step_deallocate (w : ArenaWorld) (pointer : UInt32) :
    w.step (.deallocate pointer) = w.freed pointer.toNat (w.arena.deallocate w.memory (toInt32 pointer.toNat)) := rfl

/-- A block is freed. From `2 ^ 31` on its pointer has a sign, and the block stays where it is. -/
theorem ArenaWorld.Kept.deallocate (h : w.Kept) {pointer : UInt32} (ha : w.Allowed (.deallocate pointer)) :
    (w.step (.deallocate pointer)).Kept := by
  obtain ⟨blocks, next, stop, hcut, hheld⟩ := h
  obtain ⟨block, hb, hp⟩ := ha
  obtain ⟨c, hc, hcp, -⟩ := hheld.live_cut block hb
  obtain ⟨hpos, hlt⟩ := hcut.pointer_lt hc
  rw [ArenaWorld.step_deallocate, ← hp, hcp]
  by_cases hsign : c.pointer < 2 ^ 31
  · rw [toInt32_of_lt hsign, Arena.deallocate_intact (hcut.intact c hc)]
    refine ⟨blocks, next, stop, hcut.keeps rfl rfl (Nat.le_refl _) ?_, hheld.deallocate hb hc hcp⟩
    intro c' hc'
    exact ⟨Nat.le_refl _, fun _ _ => rfl⟩
  · rw [Arena.deallocate_neg (toInt32_neg (by omega) hlt)]
    exact ⟨blocks, next, stop, hcut, hheld⟩

/-- The guest grows the memory. -/
theorem ArenaWorld.Kept.grow (h : w.Kept) (pages : Nat) : (w.step (.grow pages)).Kept := by
  obtain ⟨blocks, next, stop, hcut, hheld⟩ := h
  show (w.grew pages (w.memory.grow pages)).Kept
  cases hg : w.memory.grow pages with
  | none => exact ⟨blocks, next, stop, hcut, hheld⟩
  | some grown => exact ⟨blocks, next, stop, hcut.guestGrow hg, hheld⟩

/-- The guest writes inside a block of its own or a page of its own, where no header is. -/
theorem ArenaWorld.Kept.write (h : w.Kept) {address : Nat} {byte : UInt8} (ha : w.Allowed (.write address byte)) :
    (w.step (.write address byte)).Kept := by
  obtain ⟨blocks, next, stop, hcut, hheld⟩ := h
  refine ⟨blocks, next, stop, hcut.keeps rfl rfl (Nat.le_refl _) ?_, hheld⟩
  intro c hc
  refine Memory.keeps_write ?_
  intro a hheader hwritten
  have hat : a = address := by
    simp only [Span.Has, List.length_singleton] at hwritten
    omega
  subst hat
  rcases ha with ⟨block, hb, hin⟩ | ⟨pages, hpages, hin⟩
  · obtain ⟨c', hc', hp, hsize⟩ := hheld.live_cut block hb
    simp only [Span.Has, Block.span, hp, Carved.pointer] at hin hheader
    by_cases he : c = c'
    · subst he
      omega
    · refine hcut.blocks_apart hc hc' he a (c.header_within.has hheader) ?_
      simp only [Carved.span, Span.Has]
      omega
  · exact hcut.grown_apart hc hpages a (c.header_within.has hheader) hin

/-- One event. -/
theorem ArenaWorld.Kept.step (h : w.Kept) {event : ArenaEvent} (ha : w.Allowed event) (hu : w.Unsigned event) : (w.step event).Kept := by
  cases event with
  | allocate size => exact h.allocate hu
  | deallocate pointer => exact h.deallocate ha
  | grow pages => exact h.grow pages
  | write address byte => exact h.write ha

theorem ArenaWorld.Kept.run (h : w.Kept) {events : List ArenaEvent} (ha : w.Along ArenaWorld.Allowed events)
    (hu : w.Along ArenaWorld.Unsigned events) : (events.foldl ArenaWorld.step w).Kept := by
  induction events generalizing w with
  | nil => exact h
  | cons event events ih => exact ih (h.step ha.1 hu.1) ha.2 hu.2

/-! ## Runs -/

/-- Whatever the guest allocates, frees, grows and writes over a run: as long as the sizes and the places of the blocks have no sign as
32-bit numbers, the blocks that it holds are aligned, as long as it asked for, inside memory, and apart from each other and from the
pages of the guest. -/
theorem guest_blocks_apart {initialPages growPages : Nat} {memory : Memory} {w : ArenaWorld} {events : List ArenaEvent}
    (hboot : ArenaWorld.boot initialPages growPages memory = some w) (ha : w.Along ArenaWorld.Allowed events)
    (hu : w.Along ArenaWorld.Unsigned events) : (events.foldl ArenaWorld.step w).Safe :=
  ((ArenaWorld.kept_boot hboot).run ha hu).safe

/-- A memory of one page. -/
def onePage : Memory := ⟨1, ADDRESS_PAGES, fun _ => 0, by decide, by decide⟩

/-- A block of 32 bytes, taken and freed, and taken again. -/
theorem guest_blocks_apart_reused : ∃ w, ArenaWorld.boot 128 128 onePage = some w ∧
    (([.allocate 20, .deallocate 65552, .allocate 32] : List ArenaEvent).foldl ArenaWorld.step w).Safe := by
  refine ⟨_, rfl, @guest_blocks_apart 128 128 onePage _ _ rfl ?_ ?_⟩
  · exact ⟨trivial, ⟨_, List.mem_cons_self, by with_unfolding_all decide⟩, trivial, trivial⟩
  · refine ⟨⟨by decide, fun _ => ⟨by with_unfolding_all decide, Or.inl (by with_unfolding_all decide)⟩⟩, trivial,
      ⟨by decide, fun h => ?_⟩, trivial⟩
    exact absurd h (by with_unfolding_all decide)

/-- Two gigabytes asked for: the block that the guest gets has 32 bytes of memory, and reaches beyond its end. -/
theorem guest_block_short : ∃ w, ArenaWorld.boot 128 128 onePage = some w ∧
    w.Along ArenaWorld.Allowed [.allocate 2147483648] ∧ ¬ (w.step (.allocate 2147483648)).Safe := by
  refine ⟨_, rfl, ⟨trivial, trivial⟩, ?_⟩
  intro h
  have hin := (h.inside _ List.mem_cons_self).2
  exact absurd hin (by with_unfolding_all decide)

end Fram.Worker
