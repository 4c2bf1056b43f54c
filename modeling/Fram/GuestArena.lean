import Fram.Lib.Span
import Fram.Lib.LittleEndian

/-!
# The guest arena

`clients/cloudflare-do/src/adapter.mjs`: the blocks that the host hands to the wasm engine. Blocks are cut from regions of the engine's
own linear memory, behind a header of sixteen bytes, and freed blocks are kept in one bucket for each size class. Sizes and pointers
come from the engine as signed 32-bit numbers, and `&` of JavaScript wraps its operands to them.

The counters of the arena are left out.
-/

namespace Fram.Worker

/-- (`PAGE_BYTES`) -/
def PAGE_BYTES : Nat := 65536

/-- The bytes of an address space of 32 bits, in pages. -/
def ADDRESS_PAGES : Nat := 65536

/-- (`ToInt32`) The signed 32-bit number that a number is one with up to multiples of `2 ^ 32`. -/
def toInt32 (n : Int) : Int := n.bmod (2 ^ 32)

/-- (`ToUint32`) -/
def toUint32 (n : Int) : Nat := (n % 2 ^ 32).toNat

/-! ## Memory -/

/-- (`WebAssembly.Memory`) A memory of 32-bit addresses: its pages, the most it may have, and the byte at an address. -/
structure Memory where
  pages : Nat
  maximum : Nat
  byteAt : Nat → UInt8
  within : pages ≤ maximum
  addressed : maximum ≤ ADDRESS_PAGES

/-- (`memory.buffer.byteLength`) -/
def Memory.byteLength (memory : Memory) : Nat := memory.pages * PAGE_BYTES

/-- (`memory.grow`) The pages before, and the memory with more pages, which are zero; it throws past the maximum. -/
def Memory.grow (memory : Memory) (pages : Nat) : Option (Nat × Memory) :=
  if h : memory.pages + pages ≤ memory.maximum then
    some (memory.pages,
      { memory with
        pages := memory.pages + pages
        byteAt := fun address => if address < memory.byteLength then memory.byteAt address else 0
        within := h })
  else none

/-- Bytes written from an address on. -/
def Memory.write (memory : Memory) (address : Nat) (bytes : List UInt8) : Memory :=
  { memory with
    byteAt := fun a => if a < address then memory.byteAt a else (bytes[a - address]?).getD (memory.byteAt a) }

/-- The bytes of a span of addresses. -/
def Memory.read (memory : Memory) (address count : Nat) : List UInt8 := (List.range' address count).map memory.byteAt

/-- (`DataView.setUint32`) Little-endian; it throws outside the buffer. -/
def Memory.setUint32 (memory : Memory) (address : Int) (value : Nat) : Option Memory :=
  if 0 ≤ address ∧ address + 4 ≤ memory.byteLength then some (memory.write address.toNat (LittleEndian.toBytes 4 value)) else none

/-- (`DataView.getUint32`) Little-endian; it throws outside the buffer. -/
def Memory.getUint32 (memory : Memory) (address : Int) : Option Nat :=
  if 0 ≤ address ∧ address + 4 ≤ memory.byteLength then some (LittleEndian.ofBytes (memory.read address.toNat 4)) else none

/-! ## The arena -/

/-- (`GuestArena.HEADER`) -/
def HEADER : Nat := 16

/-- The word behind the class of a block, in the letters of FRAM. -/
def MAGIC : Nat := 0x4652414d

/-- (`GuestArena`) The region that blocks are cut from, from `next` to `stop` (`end` of the source), and the freed blocks of each
class, the last one freed first. -/
structure Arena where
  initialPages : Nat
  growPages : Nat
  base : Int
  next : Int
  stop : Int
  free : Nat → List Int

/-- How a call into the arena ends: with a pointer, or with an exception. -/
inductive Reply
  | pointer (p : Int)
  | threw
  deriving DecidableEq

/-- The class doubled until it holds the size. -/
def doubleClass (size : Int) : Nat → Nat → Nat
  | 0, cls => cls
  | fuel + 1, cls => if (cls : Int) < size then doubleClass size fuel (cls * 2) else cls

/-- (`#classOf`) The least class that holds the size. -/
def classOf (size : Int) : Nat := doubleClass size size.toNat 32

/-- `(n + 15) & ~15` -/
def roundUp (n : Int) : Int := 16 * (toInt32 (n + 15) / 16)

/-- `Math.ceil(need / PAGE_BYTES)` -/
def pagesFor (need : Nat) : Nat := (need + (PAGE_BYTES - 1)) / PAGE_BYTES

/-- (`new GuestArena`) -/
def Arena.fresh (initialPages growPages : Nat) : Arena := ⟨initialPages, growPages, 0, 0, 0, fun _ => []⟩

/-- (`reserve`) The arena over new pages of the memory; it throws where they cannot be had. -/
def Arena.reserve (arena : Arena) (memory : Memory) : Option (Arena × Memory) :=
  match memory.grow arena.initialPages with
  | none => none
  | some (before, memory) =>
    let base : Int := (before * PAGE_BYTES : Nat)
    some ({ arena with base, next := base, stop := base + (arena.initialPages * PAGE_BYTES : Nat) }, memory)

/-- The block at the bump pointer: the end of `allocate`. The bump pointer has moved also where the header cannot be written. -/
def Arena.carve (arena : Arena) (memory : Memory) (cls : Nat) : Arena × Memory × Reply :=
  let header := roundUp arena.next
  let arena := { arena with next := header + (HEADER + cls : Nat) }
  match memory.setUint32 header cls with
  | none => (arena, memory, .threw)
  | some memory =>
    match memory.setUint32 (header + 4) MAGIC with
    | none => (arena, memory, .threw)
    | some memory => (arena, memory, .pointer (header + HEADER))

/-- The arena over the pages that a growth of the memory gave it: one region with the last where nothing else has grown the memory. -/
def Arena.extended (arena : Arena) (before pages : Nat) : Arena :=
  let fresh : Int := (before * PAGE_BYTES : Nat)
  { arena with
    next := if fresh ≠ arena.stop then fresh else arena.next
    stop := fresh + (pages * PAGE_BYTES : Nat) }

/-- The pages that `allocate` asks for. -/
def Arena.pagesToGrow (arena : Arena) (cls : Nat) : Nat := max arena.growPages (pagesFor (HEADER + cls))

/-- (`allocate`) -/
def Arena.allocate (arena : Arena) (memory : Memory) (size : Int) : Arena × Memory × Reply :=
  let cls := classOf size
  match arena.free cls with
  | pointer :: bucket => ({ arena with free := Function.update arena.free cls bucket }, memory, .pointer pointer)
  | [] =>
    if roundUp arena.next + (HEADER + cls : Nat) ≤ arena.stop then arena.carve memory cls
    else
      match memory.grow (arena.pagesToGrow cls) with
      | none => (arena, memory, .threw)
      | some (before, memory) =>
        let arena := arena.extended before (arena.pagesToGrow cls)
        if roundUp arena.next + (HEADER + cls : Nat) ≤ arena.stop then arena.carve memory cls
        else (arena, memory, .pointer 0)

/-- (`deallocate`) `none` where it throws. -/
def Arena.deallocate (arena : Arena) (memory : Memory) (pointer : Int) : Option Arena :=
  if pointer = 0 then some arena
  else
    match memory.getUint32 (pointer - HEADER + 4) with
    | none => none
    | some magic =>
      if magic ≠ MAGIC then none
      else
        match memory.getUint32 (pointer - HEADER) with
        | none => none
        | some cls => some { arena with free := Function.update arena.free cls (pointer :: arena.free cls) }

/-! ## The guest -/

/-- A block that the guest holds: its pointer, and the bytes it asked for. -/
structure Block where
  pointer : Nat
  size : Nat
  deriving DecidableEq

/-- The addresses of a block. -/
def Block.span (block : Block) : Span := ⟨block.pointer, block.pointer + block.size⟩

/-- The arena, the memory, the blocks that the guest holds, and the pages of its own: those it began with and those it grew. -/
structure ArenaWorld where
  arena : Arena
  memory : Memory
  live : List Block
  grown : List Span

/-- What the guest does. A size and a pointer are 32-bit numbers that it means without a sign. -/
inductive ArenaEvent
  | allocate (size : UInt32)
  | deallocate (pointer : UInt32)
  | grow (pages : Nat)
  | write (address : Nat) (byte : UInt8)

/-- The guest after `allocate` replied: a null pointer is no block. -/
def ArenaWorld.replied (w : ArenaWorld) (size : Nat) : Arena × Memory × Reply → ArenaWorld
  | (arena, memory, .threw) => { w with arena, memory }
  | (arena, memory, .pointer p) =>
    if toUint32 p = 0 then { w with arena, memory } else { w with arena, memory, live := ⟨toUint32 p, size⟩ :: w.live }

/-- The guest after `deallocate` of a pointer: a block for which it throws stays with the guest. -/
def ArenaWorld.freed (w : ArenaWorld) (pointer : Nat) : Option Arena → ArenaWorld
  | none => w
  | some arena => { w with arena, live := w.live.eraseP fun block => block.pointer == pointer }

/-- The guest after it asked for pages of its own. -/
def ArenaWorld.grew (w : ArenaWorld) (pages : Nat) : Option (Nat × Memory) → ArenaWorld
  | none => w
  | some (before, memory) => { w with memory, grown := ⟨before * PAGE_BYTES, (before + pages) * PAGE_BYTES⟩ :: w.grown }

/-- One event. -/
def ArenaWorld.step (w : ArenaWorld) : ArenaEvent → ArenaWorld
  | .allocate size => w.replied size.toNat (w.arena.allocate w.memory (toInt32 size.toNat))
  | .deallocate pointer => w.freed pointer.toNat (w.arena.deallocate w.memory (toInt32 pointer.toNat))
  | .grow pages => w.grew pages (w.memory.grow pages)
  | .write address byte => { w with memory := w.memory.write address [byte] }

/-- The guest frees only blocks that it holds, and writes only inside its blocks and its own pages. -/
def ArenaWorld.Allowed (w : ArenaWorld) : ArenaEvent → Prop
  | .allocate _ => True
  | .deallocate pointer => ∃ block ∈ w.live, block.pointer = pointer.toNat
  | .grow _ => True
  | .write address _ => (∃ block ∈ w.live, block.span.Has address) ∨ ∃ pages ∈ w.grown, pages.Has address

/-- The world after `reserve`. -/
def ArenaWorld.boot (initialPages growPages : Nat) (memory : Memory) : Option ArenaWorld :=
  match (Arena.fresh initialPages growPages).reserve memory with
  | none => none
  | some (arena, reserved) => some ⟨arena, reserved, [], [⟨0, memory.byteLength⟩]⟩

end Fram.Worker
