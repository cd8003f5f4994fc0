import IpoOs.FsRecord

/-!
# The kernel heap

`kmalloc.c` over a heap of bytes. Addresses count from `heap_start`, and a
block starts with a header of twelve bytes: the size of the block, a magic
number and the free flag. The walk of `find_free_block` need not end on a
heap that is damaged; it takes the number of rounds it may run, and `none`
says that it has not returned within them.

Nothing is assumed of the bytes: headers are read wherever an address
points, and the functions are total on any memory. Which memories are heaps
is the business of `KmallocWf`.

The end of the used part only grows. A freed block keeps its place, has its
magic number replaced, and is handed out again when its recorded size is
large enough.
-/

namespace IpoOs

def kmallocHeapSize : Nat := 0x4000000

def kmallocMagic : UInt32 := 0xDEADBEEF

def kmallocFreedMagic : UInt32 := 0xDEADC0DE

/-- The heap: its bytes, `heap_used`, and whether `heap_start` is set. -/
structure Heap where
  mem : Buf
  used : Nat
  started : Bool

/-! ## Headers

The three fields of a header as reads and writes at an address, and the
check of the magic number that `kfree` makes. -/

/-- `block->size`. -/
def blockSize (mem : Buf) (block : Nat) : Nat := (mem.word block).toNat

/-- `block->magic`. -/
def blockMagic (mem : Buf) (block : Nat) : UInt32 := mem.word (block + 4)

/-- `block->is_free`. -/
def blockFree (mem : Buf) (block : Nat) : Bool := mem (block + 8) ≠ 0

/-- `block->size = size`. -/
def setBlockSize (mem : Buf) (block size : Nat) : Buf := mem.putWord block (UInt32.ofNat size)

/-- `block->magic = magic`. -/
def setBlockMagic (mem : Buf) (block : Nat) (magic : UInt32) : Buf := mem.putWord (block + 4) magic

/-- `block->is_free = value`. -/
def setBlockFree (mem : Buf) (block : Nat) (value : UInt8) : Buf := mem.putByte (block + 8) value

/-- The test of a magic number in `find_free_block`. -/
def magicOk (magic : UInt32) : Bool := magic = kmallocMagic ∨ magic = kmallocFreedMagic

/-- `memset(user_ptr, 0, size)`. -/
def zeroPayload (mem : Buf) (block size : Nat) : Buf := mem.patch (block + 12) size Buf.zero

/-! ## The allocator

`kmalloc` takes the first free block that is large enough, whole or split,
or a fresh block at the end. Sizes are added in 32 bits. -/

def kmallocInit (h : Heap) : Heap := { h with used := 0, started := true }

/-- The loop of `find_free_block` from `off` on, with `n` rounds left. -/
def findFreeBlock (mem : Buf) (used size : Nat) : (n off : Nat) → Option (Option Nat)
  | 0, _ => none
  | n + 1, off =>
      if off < used then
        if ¬ magicOk (blockMagic mem off) then some none
        else if blockFree mem off ∧ blockSize mem off ≥ u32 (size + 12) then some (some off)
        else findFreeBlock mem used size n (u32 (off + blockSize mem off))
      else some none

def splitBlock (mem : Buf) (block needed : Nat) : Buf :=
  let total := u32 (needed + 12)
  if blockSize mem block ≤ total then mem
  else
    let remainder := u32 (block + total)
    let mem' := setBlockSize mem remainder (sub32 (blockSize mem block) total)
    let mem' := setBlockFree (setBlockMagic mem' remainder kmallocMagic) remainder 1
    setBlockSize mem' block total

/-- The block of `kmalloc` taken at the end of the heap. -/
def takeFresh (h : Heap) (size : Nat) : Option Nat × Heap :=
  let total := u32 (size + 12)
  if u32 (h.used + total) ≥ kmallocHeapSize then (none, h)
  else
    let mem := setBlockMagic (setBlockSize h.mem h.used total) h.used kmallocMagic
    let mem := setBlockFree mem h.used 0
    (some h.used, { h with mem := mem, used := u32 (h.used + total) })

/-- The free block of `kmalloc` taken again. -/
def takeFree (h : Heap) (block size : Nat) : Heap :=
  let mem := if blockSize h.mem block > u32 (size + 12) then splitBlock h.mem block size else h.mem
  { h with mem := setBlockFree mem block 0 }

/-- The payload of a block that was taken, zeroed: the end of `kmalloc`. -/
def handOut (h : Heap) (block size : Nat) : Option Nat × Heap :=
  (some (block + 12), { h with mem := zeroPayload h.mem block size })

/-- `kmalloc`: the pointer and the heap, or `none` when the walk has not returned. -/
def kmalloc (n size : Nat) (h : Heap) : Option (Option Nat × Heap) :=
  if size = 0 then some (none, h)
  else
    let h := if h.started then h else kmallocInit h
    match findFreeBlock h.mem h.used size n 0 with
    | none => none
    | some none =>
        match takeFresh h size with
        | (none, h) => some (none, h)
        | (some block, h) => some (handOut h block size)
    | some (some block) => some (handOut (takeFree h block size) block size)

def kfree (ptr : Option Nat) (h : Heap) : Heap :=
  match ptr with
  | none => h
  | some p =>
      let block := p - 12
      if blockMagic h.mem block ≠ kmallocMagic then h
      else if blockFree h.mem block then h
      else { h with mem := setBlockMagic (setBlockFree h.mem block 1) block kmallocFreedMagic }

end IpoOs
