import Fram.GuestArena

/-!
# What the guest arena keeps

Every block that was ever cut from a region of the arena keeps its header (`Carving`), and each is either with the guest or in the
bucket of its class (`Held`). The spans of the blocks, the rest of the region and the pages of the guest are apart.
-/

namespace Fram.Worker

variable {n cls address pages value : Nat} {s : Span} {c c' : Carved}

/-! ## Numbers -/

theorem toInt32_of_lt (h : n < 2 ^ 31) : toInt32 n = n := by
  rw [toInt32]
  exact Int.bmod_eq_of_le (by omega) (by omega)

/-- From `2 ^ 31` on, a 32-bit number has a sign. -/
theorem toInt32_neg (h : 2 ^ 31 ≤ n) (h32 : n < 2 ^ 32) : toInt32 n < 0 := by
  simp only [toInt32, Int.bmod]
  omega

theorem toUint32_of_lt (h : n < 2 ^ 32) : toUint32 n = n := by
  simp only [toUint32]
  omega

/-- A number that is aligned already, and whose sum with 15 has no sign, is its own round-up. -/
theorem roundUp_of_aligned (ha : 16 ∣ n) (h : n < 2 ^ 31) : roundUp n = n := by
  have hb : toInt32 ((n + 15 : Nat) : Int) = (n + 15 : Nat) := toInt32_of_lt (by omega)
  simp only [roundUp]
  rw [show (n : Int) + 15 = ((n + 15 : Nat) : Int) by omega, hb]
  omega

theorem le_doubleClass (size : Int) (fuel cls : Nat) : cls ≤ doubleClass size fuel cls := by
  induction fuel generalizing cls with
  | zero => exact Nat.le_refl _
  | succ fuel ih =>
    simp only [doubleClass]
    split
    · exact (by omega : cls ≤ cls * 2).trans (ih _)
    · exact Nat.le_refl _

theorem size_le_doubleClass {size : Int} {fuel : Nat} (h : size ≤ cls + fuel) (hc : 0 < cls) : size ≤ doubleClass size fuel cls := by
  induction fuel generalizing cls with
  | zero => simpa [doubleClass] using h
  | succ fuel ih =>
    simp only [doubleClass]
    split
    · exact ih (by omega) (by omega)
    · omega

theorem doubleClass_lt {size : Int} {fuel bound : Nat} (h : size ≤ bound) (hc : cls < 2 * bound) :
    doubleClass size fuel cls < 2 * bound := by
  induction fuel generalizing cls with
  | zero => exact hc
  | succ fuel ih =>
    simp only [doubleClass]
    split
    · exact ih (by omega)
    · exact hc

theorem dvd_doubleClass (size : Int) (fuel cls : Nat) : cls ∣ doubleClass size fuel cls := by
  induction fuel generalizing cls with
  | zero => exact Nat.dvd_refl _
  | succ fuel ih =>
    simp only [doubleClass]
    split
    · exact (Nat.dvd_mul_right _ _).trans (ih _)
    · exact Nat.dvd_refl _

theorem size_le_classOf (size : Int) : size ≤ classOf size := size_le_doubleClass (by omega) (by decide)

theorem le_classOf (size : Int) : 32 ≤ classOf size := le_doubleClass _ _ _

theorem dvd_classOf (size : Int) : 16 ∣ classOf size := (by decide : 16 ∣ 32).trans (dvd_doubleClass _ _ _)

theorem classOf_lt {size : Int} (h : size < 2 ^ 31) : classOf size < 2 ^ 32 :=
  @doubleClass_lt 32 size size.toNat (2 ^ 31) (by omega) (by decide)

/-! ## Memory -/

/-- The memory has grown from another, and the bytes of a span are those of the other. -/
def Memory.Keeps (memory memory' : Memory) (s : Span) : Prop :=
  memory.byteLength ≤ memory'.byteLength ∧ ∀ address, s.Has address → memory'.byteAt address = memory.byteAt address

theorem Memory.byteLength_le (memory : Memory) : memory.byteLength ≤ 2 ^ 32 := by
  have h1 := memory.within
  have h2 := memory.addressed
  simp only [Memory.byteLength, PAGE_BYTES, ADDRESS_PAGES] at *
  omega

@[simp] theorem Memory.byteLength_write (memory : Memory) (address : Nat) (bytes : List UInt8) :
    (memory.write address bytes).byteLength = memory.byteLength := rfl

/-- A write leaves the bytes elsewhere alone. -/
theorem Memory.keeps_write {memory : Memory} {bytes : List UInt8}
    (h : s.Apart ⟨address, address + bytes.length⟩) : memory.Keeps (memory.write address bytes) s := by
  refine ⟨Nat.le_refl _, ?_⟩
  intro a ha
  simp only [Memory.write]
  split
  · rfl
  · have hn : bytes.length ≤ a - address := by
      have := h a ha
      simp only [Span.Has] at this
      omega
    rw [List.getElem?_eq_none hn]
    rfl

theorem Memory.Keeps.trans {m m' m'' : Memory} (h : m.Keeps m' s) (h' : m'.Keeps m'' s) : m.Keeps m'' s := by
  refine ⟨h.1.trans h'.1, ?_⟩
  intro a ha
  rw [h'.2 a ha, h.2 a ha]

theorem Memory.grow_eq_some {memory memory' : Memory} {before : Nat} (h : memory.grow pages = some (before, memory')) :
    before = memory.pages ∧ memory'.byteLength = memory.byteLength + pages * PAGE_BYTES ∧
      ∀ s : Span, s.stop ≤ memory.byteLength → memory.Keeps memory' s := by
  simp only [Memory.grow] at h
  split at h
  · cases h
    have hl : (memory.pages + pages) * PAGE_BYTES = memory.pages * PAGE_BYTES + pages * PAGE_BYTES := Nat.add_mul _ _ _
    refine ⟨rfl, hl, ?_⟩
    intro s hs
    refine ⟨?_, ?_⟩
    · simp only [Memory.byteLength]
      omega
    · intro a ha
      exact if_pos (ha.2.trans_le hs)
  · cases h

theorem Memory.grow_le {memory memory' : Memory} {before : Nat} (h : memory.grow pages = some (before, memory')) :
    memory.pages + pages ≤ memory.maximum := by
  simp only [Memory.grow] at h
  split at h
  · assumption
  · cases h

/-- A span of bytes that is kept reads the same. -/
theorem Memory.Keeps.getUint32 {memory memory' : Memory} (h : memory.Keeps memory' s)
    (hs : (⟨address, address + 4⟩ : Span).Within s) (hv : memory.getUint32 address = some value) :
    memory'.getUint32 address = some value := by
  have hread : memory'.read address 4 = memory.read address 4 := by
    refine List.map_congr_left ?_
    intro a ha
    rw [List.mem_range'_1] at ha
    exact h.2 a (hs.has ⟨ha.1, ha.2⟩)
  have hlen := h.1
  simp only [Memory.getUint32, Int.toNat_natCast] at hv ⊢
  rw [hread]
  split at hv
  · rw [if_pos (by omega)]
    exact hv
  · cases hv

theorem Memory.read_write (memory : Memory) (address : Nat) (bytes : List UInt8) :
    (memory.write address bytes).read address bytes.length = bytes := by
  refine List.ext_getElem (by simp [Memory.read]) ?_
  intro i h1 h2
  simp [Memory.read, Memory.write, h2]

/-- A word that was set is read back. -/
theorem Memory.getUint32_write {memory : Memory} (h : address + 4 ≤ memory.byteLength) (hv : value < 2 ^ 32) :
    (memory.write address (LittleEndian.toBytes 4 value)).getUint32 address = some value := by
  have hr := memory.read_write address (LittleEndian.toBytes 4 value)
  rw [LittleEndian.length_toBytes] at hr
  simp only [Memory.getUint32, Int.toNat_natCast]
  rw [if_pos (by rw [Memory.byteLength_write]; omega), hr, LittleEndian.ofBytes_toBytes_of_lt (by omega)]

theorem Memory.setUint32_eq {memory : Memory} (h : address + 4 ≤ memory.byteLength) :
    memory.setUint32 address value = some (memory.write address (LittleEndian.toBytes 4 value)) := by
  simp only [Memory.setUint32, Int.toNat_natCast]
  rw [if_pos (by omega)]

/-! ## Ways to allocate -/

section Allocate

variable {arena : Arena} {memory memory' : Memory} {size p : Int} {bucket : List Int} {before : Nat}

theorem Arena.allocate_reuse (h : arena.free (classOf size) = p :: bucket) :
    arena.allocate memory size = ({ arena with free := Function.update arena.free (classOf size) bucket }, memory, .pointer p) := by
  simp only [Arena.allocate, h]

theorem Arena.allocate_cut (h : arena.free (classOf size) = []) (hfit : roundUp arena.next + (HEADER + classOf size : Nat) ≤ arena.stop) :
    arena.allocate memory size = arena.carve memory (classOf size) := by
  simp only [Arena.allocate, h]
  rw [if_pos hfit]

theorem Arena.allocate_full (h : arena.free (classOf size) = []) (hfit : ¬ roundUp arena.next + (HEADER + classOf size : Nat) ≤ arena.stop)
    (hg : memory.grow (arena.pagesToGrow (classOf size)) = none) : arena.allocate memory size = (arena, memory, .threw) := by
  simp only [Arena.allocate, h]
  rw [if_neg hfit, hg]

theorem Arena.allocate_grown (h : arena.free (classOf size) = []) (hfit : ¬ roundUp arena.next + (HEADER + classOf size : Nat) ≤ arena.stop)
    (hg : memory.grow (arena.pagesToGrow (classOf size)) = some (before, memory')) : arena.allocate memory size =
      if roundUp (arena.extended before (arena.pagesToGrow (classOf size))).next + (HEADER + classOf size : Nat) ≤
          (arena.extended before (arena.pagesToGrow (classOf size))).stop then
        (arena.extended before (arena.pagesToGrow (classOf size))).carve memory' (classOf size)
      else (arena.extended before (arena.pagesToGrow (classOf size)), memory', .pointer 0) := by
  simp only [Arena.allocate, h]
  rw [if_neg hfit, hg]

end Allocate

/-! ## Blocks that were cut -/

/-- A block that was cut from a region: where its header stands, and its class. -/
structure Carved where
  header : Nat
  cls : Nat

namespace Carved

/-- The addresses of a block and its header. -/
def span (c : Carved) : Span := ⟨c.header, c.header + (HEADER + c.cls)⟩

/-- The pointer that the guest has for the block. -/
def pointer (c : Carved) : Nat := c.header + HEADER

/-- The header of the block is as it was written. -/
def Intact (memory : Memory) (c : Carved) : Prop :=
  memory.getUint32 c.header = some c.cls ∧ memory.getUint32 (c.header + 4 : Nat) = some MAGIC

theorem span_injective (h : c.span = c'.span) : c = c' := by
  obtain ⟨header, cls⟩ := c
  obtain ⟨header', cls'⟩ := c'
  simp only [span, Span.mk.injEq] at h
  obtain ⟨rfl, h2⟩ := h
  rw [show cls = cls' by omega]

/-- A header whose bytes are kept is intact. -/
theorem Intact.keeps {memory memory' : Memory} (h : Intact memory c)
    (hk : memory.Keeps memory' ⟨c.header, c.header + HEADER⟩) : Intact memory' c := by
  refine ⟨hk.getUint32 ?_ h.1, hk.getUint32 ?_ h.2⟩
  · simp only [Span.Within, HEADER]
    omega
  · simp only [Span.Within, HEADER]
    omega

end Carved

/-- A block whose header is intact is freed into the bucket of its class. -/
theorem Arena.deallocate_intact {arena : Arena} {memory : Memory} (h : c.Intact memory) : arena.deallocate memory c.pointer =
      some { arena with free := Function.update arena.free c.cls ((c.pointer : Int) :: arena.free c.cls) } := by
  have h1 : (c.pointer : Int) - HEADER = (c.header : Nat) := by
    simp only [Carved.pointer]
    omega
  have h2 : (c.header : Int) + 4 = (c.header + 4 : Nat) := by omega
  have hne : (c.pointer : Int) ≠ 0 := by
    simp only [Carved.pointer, HEADER]
    omega
  simp only [Arena.deallocate]
  rw [if_neg hne, h1, h2, h.2, h.1]
  rfl

/-- A pointer that has a sign is refused. -/
theorem Arena.deallocate_neg {arena : Arena} {memory : Memory} {p : Int} (h : p < 0) : arena.deallocate memory p = none := by
  have hneg : ¬ 0 ≤ p - HEADER + 4 := by
    simp only [HEADER]
    omega
  have hw : memory.getUint32 (p - HEADER + 4) = none := if_neg fun hin => hneg hin.1
  simp only [Arena.deallocate]
  rw [if_neg (by omega), hw]

/-- The blocks that were cut, the pages of the guest and the rest of the region are apart and inside the memory, and the headers are
intact. -/
structure Carving (arena : Arena) (memory : Memory) (grown : List Span) (blocks : List Carved) (next stop : Nat) : Prop where
  next_eq : arena.next = next
  stop_eq : arena.stop = stop
  next_le : next ≤ stop
  next_aligned : 16 ∣ next
  apart : (⟨next, stop⟩ :: (blocks.map Carved.span ++ grown)).Pairwise Span.Apart
  below : Span.Below memory.byteLength (⟨next, stop⟩ :: (blocks.map Carved.span ++ grown))
  aligned : ∀ c ∈ blocks, 16 ∣ c.header
  roomy : ∀ c ∈ blocks, 32 ≤ c.cls
  intact : ∀ c ∈ blocks, c.Intact memory

section Carving

variable {arena : Arena} {memory memory' : Memory} {grown : List Span} {blocks : List Carved} {next stop : Nat}

theorem Carving.stop_le (h : Carving arena memory grown blocks next stop) : stop ≤ memory.byteLength := h.below _ List.mem_cons_self

theorem Carving.span_le (h : Carving arena memory grown blocks next stop) (hc : c ∈ blocks) : c.span.stop ≤ memory.byteLength :=
  h.below _ (List.mem_cons_of_mem _ (List.mem_append_left _ (List.mem_map_of_mem hc)))

/-- The header of a block lies in the block. -/
theorem Carved.header_within (c : Carved) : (⟨c.header, c.header + HEADER⟩ : Span).Within c.span := by
  simp only [Span.Within, Carved.span]
  omega

/-- Two blocks are apart or the same. -/
theorem Carving.blocks_apart (h : Carving arena memory grown blocks next stop) (hc : c ∈ blocks) (hc' : c' ∈ blocks)
    (hne : c ≠ c') : c.span.Apart c'.span := by
  have hp := (List.pairwise_append.1 (List.pairwise_cons.1 h.apart).2).1
  refine hp.forall (List.mem_map_of_mem hc) (List.mem_map_of_mem hc') ?_
  intro he
  exact hne (Carved.span_injective he)

/-- A block is apart from the pages of the guest. -/
theorem Carving.grown_apart (h : Carving arena memory grown blocks next stop) (hc : c ∈ blocks) (hs : s ∈ grown) : c.span.Apart s :=
  (List.pairwise_append.1 (List.pairwise_cons.1 h.apart).2).2.2 _ (List.mem_map_of_mem hc) _ hs

/-- Blocks with one pointer are the same. -/
theorem Carving.eq_of_pointer (h : Carving arena memory grown blocks next stop) (hc : c ∈ blocks) (hc' : c' ∈ blocks)
    (hp : c.pointer = c'.pointer) : c = c' := by
  by_contra hne
  have hh : c.header = c'.header := by
    simp only [Carved.pointer] at hp
    omega
  refine h.blocks_apart hc hc' hne c.header ?_ ?_
  · simp only [Carved.span, Span.Has, HEADER]
    omega
  · simp only [Carved.span, Span.Has, HEADER]
    omega

/-- No block stands where the next one is cut. -/
theorem Carving.header_ne_next (h : Carving arena memory grown blocks next stop) (hc : c ∈ blocks) (hlt : next < stop) :
    c.header ≠ next := by
  intro he
  have hap := (List.pairwise_cons.1 h.apart).1 _ (List.mem_append_left _ (List.mem_map_of_mem hc))
  refine hap next ⟨Nat.le_refl _, hlt⟩ ?_
  simp only [Carved.span, Span.Has, HEADER]
  omega

/-- The pointer of a block is a 32-bit number, and not null. -/
theorem Carving.pointer_lt (h : Carving arena memory grown blocks next stop) (hc : c ∈ blocks) : 0 < c.pointer ∧ c.pointer < 2 ^ 32 := by
  have h1 := h.span_le hc
  have h2 := memory.byteLength_le
  have h3 := h.roomy c hc
  simp only [Carved.span, Carved.pointer, HEADER] at *
  omega

/-- A change of the memory that keeps the headers, in a world whose arena stands where it stood. -/
theorem Carving.keeps {arena' : Arena} (h : Carving arena memory grown blocks next stop) (hnext : arena'.next = arena.next)
    (hstop : arena'.stop = arena.stop) (hlen : memory.byteLength ≤ memory'.byteLength)
    (hk : ∀ c ∈ blocks, memory.Keeps memory' ⟨c.header, c.header + HEADER⟩) : Carving arena' memory' grown blocks next stop where
  next_eq := hnext.trans h.next_eq
  stop_eq := hstop.trans h.stop_eq
  next_le := h.next_le
  next_aligned := h.next_aligned
  apart := h.apart
  below := h.below.mono hlen
  aligned := h.aligned
  roomy := h.roomy
  intact := by
    intro c hc
    exact (h.intact c hc).keeps (hk c hc)

/-- The guest grows the memory. -/
theorem Carving.guestGrow {before : Nat} (h : Carving arena memory grown blocks next stop)
    (hg : memory.grow pages = some (before, memory')) :
    Carving arena memory' (⟨before * PAGE_BYTES, (before + pages) * PAGE_BYTES⟩ :: grown) blocks next stop := by
  obtain ⟨rfl, hlen, hk⟩ := Memory.grow_eq_some hg
  have hl : memory.byteLength = memory.pages * PAGE_BYTES := rfl
  have hkept : Carving arena memory' grown blocks next stop := by
    refine h.keeps rfl rfl (by omega) ?_
    intro c hc
    exact hk _ (c.header_within.2.trans (h.span_le hc))
  have hperm : (⟨memory.pages * PAGE_BYTES, (memory.pages + pages) * PAGE_BYTES⟩ ::
      ⟨next, stop⟩ :: (blocks.map Carved.span ++ grown) : List Span).Perm
      (⟨next, stop⟩ :: (blocks.map Carved.span ++ ⟨memory.pages * PAGE_BYTES, (memory.pages + pages) * PAGE_BYTES⟩ :: grown)) :=
    (List.Perm.swap _ _ _).trans (List.Perm.cons _ List.perm_middle.symm)
  refine { hkept with apart := ?_, below := ?_ }
  · exact (Span.pairwise_join h.apart h.below (Nat.le_refl _)).perm hperm Span.Apart.symm
  · intro s hs
    rcases List.mem_cons.1 (hperm.mem_iff.2 hs) with rfl | hs
    · show (memory.pages + pages) * PAGE_BYTES ≤ memory'.byteLength
      rw [Nat.add_mul, hlen, hl]
    · exact hkept.below s hs

/-- The arena grows the memory: a new region, or a longer one. -/
theorem Carving.extended {before : Nat} (h : Carving arena memory grown blocks next stop)
    (hg : memory.grow pages = some (before, memory')) :
    Carving (arena.extended before pages) memory' grown blocks (if memory.byteLength ≠ stop then memory.byteLength else next)
      memory'.byteLength := by
  obtain ⟨rfl, hlen, hk⟩ := Memory.grow_eq_some hg
  have hl : memory.byteLength = memory.pages * PAGE_BYTES := rfl
  have hstop := h.stop_le
  have hnext := h.next_le
  obtain ⟨hfirst, hrest⟩ := List.pairwise_cons.1 h.apart
  have hbelow : Span.Below memory.byteLength (blocks.map Carved.span ++ grown) := fun s hs => h.below s (List.mem_cons_of_mem _ hs)
  refine ⟨?_, ?_, ?_, ?_, ?_, ?_, h.aligned, h.roomy, ?_⟩
  · simp only [Arena.extended, h.stop_eq, h.next_eq, hl]
    split <;> split <;> omega
  · simp only [Arena.extended, hlen, hl]
    omega
  · split <;> omega
  · split
    · exact ⟨memory.pages * 4096, by rw [hl, PAGE_BYTES]; omega⟩
    · exact h.next_aligned
  · split
    · exact Span.pairwise_join hrest hbelow (Nat.le_refl _)
    · rename_i he
      rw [not_not] at he
      exact Span.pairwise_extend h.apart (by rw [← he]; exact hbelow)
  · intro s hs
    rcases List.mem_cons.1 hs with rfl | hs
    · exact Nat.le_refl _
    · exact (hbelow s hs).trans (by omega)
  · intro c hc
    exact (h.intact c hc).keeps (hk _ (c.header_within.2.trans (h.span_le hc)))

/-- A block is cut at the bump pointer. -/
theorem Carving.carve (h : Carving arena memory grown blocks next stop) (hfit : next + (HEADER + cls) ≤ stop)
    (hnext : next < 2 ^ 31) (ha : 16 ∣ cls) (hroomy : 32 ≤ cls) (hcls : cls < 2 ^ 32) : ∃ memory', arena.carve memory cls =
        ({ arena with next := (next + (HEADER + cls) : Nat) }, memory', .pointer (⟨next, cls⟩ : Carved).pointer) ∧
      Carving { arena with next := (next + (HEADER + cls) : Nat) } memory' grown (⟨next, cls⟩ :: blocks) (next + (HEADER + cls)) stop := by
  have hround : roundUp arena.next = next := by
    rw [h.next_eq]
    exact roundUp_of_aligned h.next_aligned hnext
  have hstop := h.stop_le
  have hfirst : next + 4 ≤ memory.byteLength := by
    simp only [HEADER] at hfit
    omega
  have hsecond : next + 4 + 4 ≤ (memory.write next (LittleEndian.toBytes 4 cls)).byteLength := by
    rw [Memory.byteLength_write]
    simp only [HEADER] at hfit
    omega
  refine ⟨(memory.write next (LittleEndian.toBytes 4 cls)).write (next + 4) (LittleEndian.toBytes 4 MAGIC), ?_, ?_⟩
  · simp only [Arena.carve, hround]
    rw [Memory.setUint32_eq hfirst]
    dsimp only
    rw [show (next : Int) + 4 = ((next + 4 : Nat) : Int) by omega, Memory.setUint32_eq hsecond]
    simp [Carved.pointer]
  · have hcut : (⟨next + (HEADER + cls), stop⟩ :: (⟨next, cls⟩ : Carved).span :: (blocks.map Carved.span ++ grown) : List Span).Pairwise
        Span.Apart := by
      refine Span.pairwise_cut h.apart ?_ ?_ (Span.apart_of_le (Nat.le_refl _)).symm
      · simp only [Span.Within]
        omega
      · simp only [Span.Within, Carved.span]
        omega
    refine ⟨rfl, h.stop_eq, hfit, ?_, hcut, ?_, ?_, ?_, ?_⟩
    · have := h.next_aligned
      simp only [HEADER]
      omega
    · intro s hs
      rcases List.mem_cons.1 hs with rfl | hs
      · exact hstop
      · rcases List.mem_cons.1 hs with rfl | hs
        · exact hfit.trans hstop
        · exact h.below s (List.mem_cons_of_mem _ hs)
    · intro c hc
      rcases List.mem_cons.1 hc with rfl | hc
      · exact h.next_aligned
      · exact h.aligned c hc
    · intro c hc
      rcases List.mem_cons.1 hc with rfl | hc
      · exact hroomy
      · exact h.roomy c hc
    · intro c hc
      rcases List.mem_cons.1 hc with rfl | hc
      · -- the word of the class was written first, and the second word is behind it
        refine ⟨?_, Memory.getUint32_write hsecond (by decide)⟩
        refine Memory.Keeps.getUint32 (s := ⟨next, next + 4⟩) ?_ ⟨Nat.le_refl _, Nat.le_refl _⟩ (Memory.getUint32_write hfirst hcls)
        exact Memory.keeps_write (Span.apart_of_le (Nat.le_refl _))
      · have hap : (⟨c.header, c.header + HEADER⟩ : Span).Apart (⟨next, cls⟩ : Carved).span :=
          ((List.pairwise_cons.1 (List.pairwise_cons.1 hcut).2).1 _
            (List.mem_append_left _ (List.mem_map_of_mem hc))).symm.mono c.header_within ⟨Nat.le_refl _, Nat.le_refl _⟩
        refine (h.intact c hc).keeps (Memory.Keeps.trans (Memory.keeps_write ?_) (Memory.keeps_write ?_))
        · refine hap.mono ⟨Nat.le_refl _, Nat.le_refl _⟩ ?_
          simp only [Span.Within, Carved.span, HEADER, LittleEndian.length_toBytes]
          omega
        · refine hap.mono ⟨Nat.le_refl _, Nat.le_refl _⟩ ?_
          simp only [Span.Within, Carved.span, HEADER, LittleEndian.length_toBytes]
          omega

end Carving

end Fram.Worker
