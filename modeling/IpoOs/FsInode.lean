import IpoOs.FsDevice

/-!
# Inodes, blocks and the block map of an inode

The functions of `ipo_inode.c`: reading and writing inode slots,
first-fit allocation of inodes and blocks, the release of an inode, and
`get_data_block_for_inode`, which maps a logical block index of a file
to a block of the volume through the direct pointers, the indirect block
and the double indirect block.

A C loop is a recursion on the number of rounds left, with the loop
variable next to it.

The functions are cut where a proof needs a name: a round of a loop, a
branch of the block map, the entry of a pointer block. Each cut is a
definition with the source's variables as its arguments, so that the
function under the source's name is read next to the C text line by line. An
`int` that can be -1 is an option, and the records are the structures of
`FsRecord`.

What the code does with a failed allocation in the middle of a walk is kept
as it is: a table that was allocated stays in the record although the walk
ends with none.
-/

namespace IpoOs

section

variable {σ : Type} (dev : BlockDev σ) (sb : Superblock)

def inodeBlock (inodeNo : Nat) : Nat :=
  u32 (sb.inodeTableStart.toNat + (inodeNo - 1) / 6)

/-- The byte offset of an inode slot in its block. -/
def inodeOffset (inodeNo : Nat) : Nat := (inodeNo - 1) % 6 * 76

def readInode (inodeNo : Nat) : Prog σ (Option Inode) :=
  if inodeNo = 0 ∨ inodeNo > sb.inodeCount.toNat then pure none
  else do
    match ← dev.read (inodeBlock sb inodeNo) with
    | none => pure none
    | some buf => pure (some (Inode.decode buf (inodeOffset inodeNo)))

def writeInode (inodeNo : Nat) (inode : Inode) : Prog σ Bool :=
  if inodeNo = 0 ∨ inodeNo > sb.inodeCount.toNat then pure false
  else do
    match ← dev.read (inodeBlock sb inodeNo) with
    | none => pure false
    | some buf =>
        dev.write (inodeBlock sb inodeNo)
          (buf.patch (inodeOffset inodeNo) 76 inode.encode)

/-! ## Allocation

First fit over the two bitmaps. The block that `allocate_block` hands out is
zeroed before it is returned. -/

/-- `allocate_inode` from bit `i` on. -/
def allocateInodeFrom : (n i : Nat) → Prog σ (Option Nat)
  | 0, _ => pure none
  | n + 1, i => do
      if ← bitmapGet dev sb.inodeBitmapStart.toNat i then allocateInodeFrom n (i + 1)
      else if ← bitmapSet dev sb.inodeBitmapStart.toNat i true then do
        let _ ← writeInode dev sb (i + 1) Inode.zero
        pure (asInt (u32 (i + 1)))
      else pure none

/-- `allocate_inode`: the first free inode, with its slot zeroed. -/
def allocateInode : Prog σ (Option Nat) :=
  allocateInodeFrom dev sb sb.inodeCount.toNat 0

/-- `allocate_block` from bit `i` on. -/
def allocateBlockFrom : (n i : Nat) → Prog σ (Option Nat)
  | 0, _ => pure none
  | n + 1, i => do
      if ← bitmapGet dev sb.blockBitmapStart.toNat i then allocateBlockFrom n (i + 1)
      else if ← bitmapSet dev sb.blockBitmapStart.toNat i true then do
        let block := u32 (sb.dataBlocksStart.toNat + i)
        if ← dev.write block Buf.zero then pure (asInt block) else pure none
      else pure none

/-- `data_blocks_total` of `allocate_block`. -/
def dataBlocksTotal : Nat := sub32 sb.fsSizeBlocks.toNat sb.dataBlocksStart.toNat

/-- `allocate_block`: the first free data block, zeroed. -/
def allocateBlock : Prog σ (Option Nat) :=
  allocateBlockFrom dev sb (dataBlocksTotal sb) 0

def freeBlock (physBlock : Nat) : Prog σ Bool :=
  if physBlock < sb.dataBlocksStart.toNat then pure false
  else bitmapSet dev sb.blockBitmapStart.toNat
    (physBlock - sb.dataBlocksStart.toNat) false

/-! ## Release of an inode

`free_inode` clears the bits of the direct blocks that the recorded size
covers and of the single indirect tree, zeroes the record, and never looks
at the double indirect pointer. -/

/-- The bit of a block cleared, when the pointer is not null. -/
def clearBlockBit (ptr : UInt32) : Prog σ Bool :=
  if ptr = 0 then pure true
  else bitmapSet dev sb.blockBitmapStart.toNat
    (sub32 ptr.toNat sb.dataBlocksStart.toNat) false

/-- The direct pointers from `i` on, `n` of them, released and zeroed. -/
def freeDirect : (n i : Nat) → Inode → Prog σ Inode
  | 0, _, inode => pure inode
  | n + 1, i, inode =>
      if h : i < 6 then do
        let _ ← clearBlockBit dev sb (inode.direct ⟨i, h⟩)
        freeDirect n (i + 1) (inode.setDirect i 0)
      else pure inode

/-- The entries of a pointer block from `i` on, `n` of them, released. -/
def freePtrs (ibuf : Block) : (n i : Nat) → Prog σ Unit
  | 0, _ => pure ()
  | n + 1, i => do
      let _ ← clearBlockBit dev sb (ibuf.word (4 * i))
      freePtrs ibuf n (i + 1)

/-- The single indirect block of `free_inode`. -/
def freeIndirect (inode : Inode) : Prog σ Inode :=
  if inode.indirect = 0 then pure inode
  else do
    let ibuf ← dev.read inode.indirect.toNat
    freePtrs dev sb (ibuf.getD dev.uninit) 128 0
    let _ ← bitmapSet dev sb.blockBitmapStart.toNat
      (sub32 inode.indirect.toNat sb.dataBlocksStart.toNat) false
    pure { inode with indirect := 0 }

/-- `nblocks` of `free_inode`: the blocks the recorded size covers. -/
def sizeBlocks (inode : Inode) : Nat := u32 (inode.size.toNat + 511) / 512

def freeInode (inodeNo : Nat) : Prog σ Bool :=
  if inodeNo = 0 ∨ inodeNo > sb.inodeCount.toNat then pure false
  else do
    match ← readInode dev sb inodeNo with
    | none => pure false
    | some inode => do
        let inode ← freeDirect dev sb (min 6 (sizeBlocks inode)) 0 inode
        let inode ← freeIndirect dev sb inode
        let _ ← bitmapSet dev sb.inodeBitmapStart.toNat (inodeNo - 1) false
        let _ ← writeInode dev sb inodeNo inode
        pure true

/-! ## The block map

`get_data_block_for_inode` is one function of the source. Here it is one
definition for each region of indices, and each of them is made of the step
from a table to an entry in it. -/

/-- Entry `idx` of the pointer block `ptrBlock`, whose contents are `buf`,
allocated when it is null. -/
def pointerEntry (ptrBlock : Nat) (buf : Block) (idx : Nat) (alloc : Bool) :
    Prog σ (Option Nat) :=
  let entry := buf.word (4 * idx)
  if entry = 0 then
    if alloc then do
      match ← allocateBlock dev sb with
      | none => pure none
      | some phys => do
          let _ ← dev.write ptrBlock (buf.putWord (4 * idx) (UInt32.ofNat phys))
          pure (asInt phys)
    else pure none
  else pure (asInt entry.toNat)

/-- The direct pointers of `get_data_block_for_inode`. -/
def getDirect (inode : Inode) (l : Fin 6) (alloc : Bool) :
    Prog σ (Option Nat × Inode) :=
  if inode.direct l = 0 then
    if alloc then do
      match ← allocateBlock dev sb with
      | none => pure (none, inode)
      | some phys => pure (asInt phys, inode.setDirect l phys)
    else pure (none, inode)
  else pure (asInt (inode.direct l).toNat, inode)

/-- The pointer block behind a field of the record, allocated and zeroed when
the field is null. -/
def rootTable (field : UInt32) (alloc : Bool) : Prog σ (Option UInt32) :=
  if field = 0 then
    if alloc then do
      match ← allocateBlock dev sb with
      | none => pure none
      | some block => do
          let _ ← dev.write block Buf.zero
          pure (some (UInt32.ofNat block))
    else pure none
  else pure (some field)

def getSingle (ptrBlock idx : Nat) (alloc : Bool) : Prog σ (Option Nat) := do
  match ← dev.read ptrBlock with
  | none => pure none
  | some ibuf => pointerEntry dev sb ptrBlock ibuf idx alloc

def getIndirect (inode : Inode) (idx : Nat) (alloc : Bool) :
    Prog σ (Option Nat × Inode) := do
  match ← rootTable dev sb inode.indirect alloc with
  | none => pure (none, inode)
  | some indirectBlock => do
      let res ← getSingle dev sb indirectBlock.toNat idx alloc
      pure (res, { inode with indirect := indirectBlock })

/-- The second-level block behind entry `di` of the double indirect block. -/
def getTable (dblBlock : Nat) (dibuf : Block) (di : Nat) (alloc : Bool) :
    Prog σ (Option Nat) :=
  let entry := dibuf.word (4 * di)
  if entry = 0 then
    if alloc then do
      match ← allocateBlock dev sb with
      | none => pure none
      | some siBlock => do
          let _ ← dev.write dblBlock (dibuf.putWord (4 * di) (UInt32.ofNat siBlock))
          let _ ← dev.write siBlock Buf.zero
          pure (some siBlock)
    else pure none
  else pure (some entry.toNat)

/-- The entry behind the double indirect block and its second level. -/
def getLeaf (dblBlock idx : Nat) (alloc : Bool) : Prog σ (Option Nat) := do
  match ← dev.read dblBlock with
  | none => pure none
  | some dibuf => do
      match ← getTable dev sb dblBlock dibuf (idx / 128) alloc with
      | none => pure none
      | some si => getSingle dev sb si (idx % 128) alloc

def getDouble (inode : Inode) (idx : Nat) (alloc : Bool) :
    Prog σ (Option Nat × Inode) := do
  match ← rootTable dev sb inode.doubleIndirect alloc with
  | none => pure (none, inode)
  | some diBlock => do
      let res ← getLeaf dev sb diBlock.toNat idx alloc
      pure (res, { inode with doubleIndirect := diBlock })

/-- `get_data_block_for_inode`: the block number (`none` for a negative
result) and the updated in-memory record. -/
def getDataBlockForInode (inode : Inode) (logicalIndex : Nat) (alloc : Bool) :
    Prog σ (Option Nat × Inode) :=
  if h : logicalIndex < 6 then getDirect dev sb inode ⟨logicalIndex, h⟩ alloc
  else if logicalIndex - 6 < 128 then
    getIndirect dev sb inode (logicalIndex - 6) alloc
  else if logicalIndex - 6 - 128 ≥ 128 * 128 then pure (none, inode)
  else getDouble dev sb inode (logicalIndex - 6 - 128) alloc

end

end IpoOs
