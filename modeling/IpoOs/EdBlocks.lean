import IpoOs.EdImage
import IpoOs.FsMap

/-!
# The editor's block map

`get_block_for_inode` of the disk editor, cut at the same places as the
kernel's `get_data_block_for_inode`. Two things differ from the kernel:
a failed allocation is the index `-1`, which the code goes on to write to
and to store, and a number is checked only when `struct.pack` meets it.

The two walks differ in what they write back and when, and agree in the
order of their allocations. `Whole` is an image whose file covers the volume
and whose layout is sound; inside it `read_block` and `write_block` are the
reads and writes of the disk, and the editor can be compared with the kernel
block by block.
-/

namespace IpoOs

/-- `struct.pack('<I', ptr)`. -/
def packPointer (ptr : Int) : Ed UInt32 :=
  if fitsWord ptr then pure (packWord ptr) else Ed.raise .struct

/-- Entry `idx` of the pointer block `ptrBlock`, whose contents are `buf`,
allocated when it is null. -/
def edPointerEntry (ptrBlock : Int) (buf : Block) (idx : Nat) (alloc : Bool) : Ed Int :=
  if buf.word (4 * idx) = 0 then
    if alloc then do
      let ptr ← edAllocateBlock
      let packed ← packPointer ptr
      writeBlock ptrBlock (buf.putWord (4 * idx) packed)
      pure ptr
    else pure (-1)
  else pure (buf.word (4 * idx)).toNat

/-- The direct pointers of `get_block_for_inode`. -/
def edGetDirect (inode : PyInode) (l : Fin 6) (alloc : Bool) : Ed (Int × PyInode) :=
  if inode.direct l = 0 then
    if alloc then do
      let ptr ← edAllocateBlock
      pure (ptr, inode.setDirect l ptr)
    else pure (-1, inode)
  else pure (inode.direct l, inode)

/-- The pointer block behind a field of the record, allocated and zeroed when the
field is null; none when it is null and nothing is to be allocated. -/
def edRootTable (field : Int) (alloc : Bool) : Ed (Option Int) :=
  if field = 0 then
    if alloc then do
      let block ← edAllocateBlock
      writeBlock block Buf.zero
      pure (some block)
    else pure none
  else pure (some field)

def edGetSingle (ptrBlock : Int) (idx : Nat) (alloc : Bool) : Ed Int := do
  let ibuf ← readBlock ptrBlock
  edPointerEntry ptrBlock ibuf idx alloc

def edGetIndirect (inode : PyInode) (idx : Nat) (alloc : Bool) : Ed (Int × PyInode) := do
  match ← edRootTable inode.indirect alloc with
  | none => pure (-1, inode)
  | some block => do
      let ptr ← edGetSingle block idx alloc
      pure (ptr, { inode with indirect := block })

/-- The second-level block behind entry `di` of the double indirect block, stored
before it is zeroed. -/
def edGetTable (dblBlock : Int) (dibuf : Block) (di : Nat) (alloc : Bool) : Ed (Option Int) :=
  if dibuf.word (4 * di) = 0 then
    if alloc then do
      let siPtr ← edAllocateBlock
      let packed ← packPointer siPtr
      writeBlock dblBlock (dibuf.putWord (4 * di) packed)
      writeBlock siPtr Buf.zero
      pure (some siPtr)
    else pure none
  else pure (some (dibuf.word (4 * di)).toNat)

/-- The entry behind the double indirect block and its second level. -/
def edGetLeaf (dblBlock : Int) (idx : Nat) (alloc : Bool) : Ed Int := do
  let dibuf ← readBlock dblBlock
  match ← edGetTable dblBlock dibuf (idx / 128) alloc with
  | none => pure (-1)
  | some si => edGetSingle si (idx % 128) alloc

def edGetDouble (inode : PyInode) (idx : Nat) (alloc : Bool) : Ed (Int × PyInode) := do
  match ← edRootTable inode.doubleIndirect alloc with
  | none => pure (-1, inode)
  | some block => do
      let ptr ← edGetLeaf block idx alloc
      pure (ptr, { inode with doubleIndirect := block })

/-- `DiskImage.get_block_for_inode`: the block index and the updated dictionary. -/
def edGetBlockForInode (inode : PyInode) (logical : Nat) (alloc : Bool) : Ed (Int × PyInode) :=
  if h : logical < 6 then edGetDirect inode ⟨logical, h⟩ alloc
  else if logical - 6 < 128 then edGetIndirect inode (logical - 6) alloc
  else if logical - 6 - 128 ≥ 128 * 128 then pure (-1, inode)
  else edGetDouble inode (logical - 6 - 128) alloc

/-! ## The volume of an image

The blocks from `start_lba` on, as a disk of the kernel's model, and an
image with another disk in their place. -/

namespace DiskImage

/-- The image with the blocks of its volume replaced. -/
def withDisk (img : DiskImage) (d : Disk) : DiskImage :=
  { img with
    sectors := fun i => if img.startLba ≤ i then d (i - img.startLba) else img.sectors i }

@[simp] theorem withDisk_startLba (img : DiskImage) (d : Disk) :
    (img.withDisk d).startLba = img.startLba := rfl

@[simp] theorem withDisk_count (img : DiskImage) (d : Disk) :
    (img.withDisk d).count = img.count := rfl

@[simp] theorem withDisk_sb (img : DiskImage) (d : Disk) : (img.withDisk d).sb = img.sb := rfl

@[simp] theorem disk_withDisk (img : DiskImage) (d : Disk) : (img.withDisk d).disk = d := by
  funext i
  simp only [disk, withDisk, Nat.le_add_right, if_true, Nat.add_sub_cancel_left]

@[simp] theorem withDisk_withDisk (img : DiskImage) (d d' : Disk) :
    (img.withDisk d).withDisk d' = img.withDisk d' := by
  unfold withDisk
  congr 1
  funext i
  by_cases h : img.startLba ≤ i
  · simp only [h, if_true]
  · simp only [h, if_false]

@[simp] theorem withDisk_disk (img : DiskImage) : img.withDisk img.disk = img := by
  cases img with
  | mk startLba count sectors sb =>
      unfold withDisk
      congr 1
      funext i
      by_cases h : startLba ≤ i
      · simp only [h, if_true, disk, Nat.add_sub_of_le h]
      · simp only [h, if_false]

/-- The superblock is sound and the file holds the whole volume. -/
structure Whole (img : DiskImage) : Prop where
  sound : SoundLayout img.sb
  covered : img.startLba + img.sb.fsSizeBlocks.toNat ≤ img.count

theorem Whole.withDisk {img : DiskImage} (h : img.Whole) (d : Disk) : (img.withDisk d).Whole :=
  ⟨h.sound, h.covered⟩

end DiskImage

/-! ## Block access inside the volume

An access inside a whole volume succeeds and is an access to the disk. The
equations are stated for runs, with the image before and after. -/

namespace DiskImage

/-- A block index of the volume whose sector is in the file. -/
def Holds (img : DiskImage) (p : Nat) : Prop := img.startLba + p < img.count

instance (img : DiskImage) : DecidablePred img.Holds := fun _ => inferInstanceAs (Decidable (_ < _))

theorem sector_eq (img : DiskImage) (p : Nat) : img.sector p = some (img.startLba + p) := by
  unfold sector
  rw [if_pos (by omega)]
  rfl

theorem Whole.holds {img : DiskImage} (W : img.Whole) {p : Nat}
    (hp : p < img.sb.fsSizeBlocks.toNat) : img.Holds p :=
  Nat.lt_of_lt_of_le (Nat.add_lt_add_left hp _) W.covered

end DiskImage

theorem readBlock_eq (img : DiskImage) (p : Nat) :
    readBlock p img
      = if img.Holds p then (.ok (img.disk p), img) else (.error (.disk "short read"), img) := by
  unfold readBlock
  rw [img.sector_eq]
  rfl

theorem writeBlock_holds {img : DiskImage} {p : Nat} (hin : img.Holds p) (b : Block) :
    writeBlock p b img = (.ok (), img.withDisk (img.disk.set p b)) := by
  unfold DiskImage.Holds at hin
  unfold writeBlock writeBytes
  rw [if_neg (by simp), img.sector_eq]
  refine Prod.ext rfl ?_
  show img.put (img.startLba + p) b = img.withDisk (img.disk.set p b)
  unfold DiskImage.put DiskImage.withDisk
  congr 1
  · omega
  · funext i
    by_cases hi : i = img.startLba + p
    · rw [if_pos hi, if_pos (by omega), hi, Nat.add_sub_cancel_left, Disk.set_self]
    · rw [if_neg hi, if_neg (by omega)]
      by_cases hge : img.startLba ≤ i
      · rw [if_pos hge, Disk.set_of_ne (by omega), DiskImage.disk, Nat.add_sub_of_le hge]
      · rw [if_neg hge]

section

variable {img : DiskImage} (W : img.Whole)

include W

theorem readBlock_run {p : Nat} (hp : p < img.sb.fsSizeBlocks.toNat) :
    readBlock p img = (.ok (img.disk p), img) := by
  rw [readBlock_eq, if_pos (W.holds hp)]

theorem writeBlock_run {p : Nat} (hp : p < img.sb.fsSizeBlocks.toNat) (b : Block) :
    writeBlock p b img = (.ok (), img.withDisk (img.disk.set p b)) :=
  writeBlock_holds (W.holds hp) b

theorem edBitmapGet_run {start bit : Nat} (h : start + bit / 8 / 512 < img.sb.fsSizeBlocks.toNat) :
    edBitmapGet start bit img = (.ok (img.disk.bit start bit), img) := by
  have hlt := img.sb.fsSizeBlocks.toNat_lt
  have hread := readBlock_run W h
  unfold edBitmapGet
  rw [Ed.run_bind, show (start : Int) + (bit : Int) / 8 / 512
    = ((start + bit / 8 / 512 : Nat) : Int)
    from by push_cast; rfl, hread]
  refine Prod.ext (congrArg Except.ok ?_) rfl
  unfold Disk.bit
  rw [u32_of_lt (by omega), show ((bit : Int) / 8 % 512).toNat = bit / 8 % 512 from by omega,
    show ((bit : Int) % 8).toNat = bit % 8 from by omega]
  simp only [bitOf, Nat.mod_mod]

theorem edBitmapSet_run {start bit : Nat} (h : start + bit / 8 / 512 < img.sb.fsSizeBlocks.toNat)
    (val : Bool) :
    edBitmapSet start bit val img = (.ok (), img.withDisk (img.disk.setBit start bit val)) := by
  have hlt := img.sb.fsSizeBlocks.toNat_lt
  have hread := readBlock_run W h
  unfold edBitmapSet
  rw [Ed.run_bind, show (start : Int) + (bit : Int) / 8 / 512
    = ((start + bit / 8 / 512 : Nat) : Int)
    from by push_cast; rfl, hread]
  refine (writeBlock_run W h _).trans ?_
  unfold Disk.setBit
  rw [u32_of_lt (by omega), show ((bit : Int) / 8 % 512).toNat = bit / 8 % 512 from by omega,
    show ((bit : Int) % 8).toNat = bit % 8 from by omega]
  simp only [withBit, Nat.mod_mod]

end

end IpoOs
