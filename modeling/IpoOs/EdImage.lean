import IpoOs.FsDevice

/-!
# The disk editor: image, records, bitmaps

`disk_editor.py` works on a disk image from outside the kernel. Its code
is written over an `Ed` action: a command either returns or raises, and
what it did to the image before it raised stays done. Python's integers
have no width, so block numbers and bit indices are integers here; a
number that does not fit its field shows up only when a record is packed.

A block index is relative to `start_lba`. The index `-1`, which the code
uses for "no block", is an index like any other to `read_block` and
`write_block`: the sector before the volume.

An action is a function from the image to a result or an exception and the
image after it. `Ed.Keeps` says that an action leaves some part of the image
alone on every path, raised exceptions included; it composes like `ReadOnly`
on the kernel's side and is used for the same purpose.

The image has a length in sectors that a write past the end extends, as
`seek` and `write` on a file do. What is in it is a function from sectors to
bytes, and sectors past the end are never read.
-/

namespace IpoOs

/-- What the editor raises. -/
inductive PyError where
  /-- `DiskError`, with its text. -/
  | disk (text : String)
  /-- `struct.error`. -/
  | struct
  /-- `UnicodeDecodeError`. -/
  | unicode
  /-- A seek before the start of the file. -/
  | seek
  /-- `IndexError`. -/
  | index
  deriving DecidableEq

/-- `DiskImage`: the sectors of the image file, their number, the first sector of
the volume and the superblock that was loaded. -/
structure DiskImage where
  startLba : Nat
  count : Nat
  sectors : Nat → Block
  sb : Superblock

/-- An action of the editor. -/
def Ed (α : Type) : Type := DiskImage → Except PyError α × DiskImage

namespace Ed

instance : Monad Ed where
  pure a := fun img => (.ok a, img)
  bind x f := fun img =>
    match x img with
    | (.ok a, img') => f a img'
    | (.error e, img') => (.error e, img')

def raise {α : Type} (e : PyError) : Ed α := fun img => (.error e, img)

@[simp] theorem run_pure {α : Type} (a : α) (img : DiskImage) :
    (pure a : Ed α) img = (.ok a, img) := (rfl)

@[simp] theorem run_bind {α β : Type} (x : Ed α) (f : α → Ed β) (img : DiskImage) :
    (x >>= f) img = match x img with
      | (.ok a, img') => f a img'
      | (.error e, img') => (.error e, img') := (rfl)

@[simp] theorem run_raise {α : Type} (e : PyError) (img : DiskImage) :
    (raise e : Ed α) img = (.error e, img) := (rfl)

@[simp] theorem run_ite {α : Type} (c : Prop) [Decidable c] (x y : Ed α) (img : DiskImage) :
    (if c then x else y) img = if c then x img else y img := by
  split <;> rfl

/-- A sequence whose first part returns goes on with its second. -/
theorem run_bind_ok {α β : Type} {x : Ed α} {f : α → Ed β} {img img' : DiskImage} {a : α}
    (h : x img = (.ok a, img')) : (x >>= f) img = f a img' := by
  rw [run_bind, h]

theorem run_bind_error {α β : Type} {x : Ed α} {f : α → Ed β} {img img' : DiskImage} {e : PyError}
    (h : x img = (.error e, img')) : (x >>= f) img = (.error e, img') := by
  rw [run_bind, h]

theorem bind_ok {α β : Type} {x : Ed α} {f : α → Ed β} {img img' : DiskImage} {b : β}
    (h : (x >>= f) img = (.ok b, img')) :
    ∃ a img₁, x img = (.ok a, img₁) ∧ f a img₁ = (.ok b, img') := by
  rw [run_bind] at h
  rcases hx : x img with ⟨a | a, img₁⟩
  · rw [hx] at h
    cases (Prod.mk.inj h).1
  · rw [hx] at h
    exact ⟨a, img₁, rfl, h⟩

/-- What an action leaves as it is, whether it returns or raises. -/
def Keeps {α β : Type} (f : DiskImage → β) (x : Ed α) : Prop := ∀ img, f (x img).2 = f img

namespace Keeps

variable {α β γ : Type} {f : DiskImage → γ}

theorem pure (a : α) : Keeps f (pure a : Ed α) := fun _ => rfl

theorem raise (e : PyError) : Keeps f (Ed.raise e : Ed α) := fun _ => rfl

theorem bind {x : Ed α} {g : α → Ed β} (hx : Keeps f x) (hg : ∀ a, Keeps f (g a)) :
    Keeps f (x >>= g) := by
  intro img
  have hfirst := hx img
  rw [run_bind]
  rcases hrun : x img with ⟨a | a, img'⟩
  · rw [hrun] at hfirst
    exact hfirst
  · rw [hrun] at hfirst
    exact (hg a img').trans hfirst

theorem ite {c : Prop} [Decidable c] {x y : Ed α} (hx : Keeps f x) (hy : Keeps f y) :
    Keeps f (if c then x else y) := by
  split
  · exact hx
  · exact hy

theorem of_run {x : Ed α} (h : Keeps f x) {img img' : DiskImage} {res : Except PyError α}
    (hrun : x img = (res, img')) : f img' = f img := by
  have hkeep := h img
  rwa [hrun] at hkeep

theorem same {x : Ed α} (h : Keeps (fun img => img) x) {img img' : DiskImage}
    {res : Except PyError α} (hrun : x img = (res, img')) : img' = img :=
  h.of_run hrun

end Keeps

end Ed

/-- `self.sb`. -/
def superblock : Ed Superblock := fun img => (.ok img.sb, img)

@[simp] theorem superblock_run (img : DiskImage) : superblock img = (.ok img.sb, img) := (rfl)

/-! ## Block access

`read_block` refuses a short read; `write_block` refuses data that is not
512 bytes long and otherwise writes where the index says, inside the volume
or not. -/

namespace DiskImage

/-- The volume of an image as the kernel sees it: its blocks from `start_lba` on. -/
def disk (img : DiskImage) : Disk := fun i => img.sectors (img.startLba + i)

/-- The sector of a block index; none for an offset before the start of the file. -/
def sector (img : DiskImage) (idx : Int) : Option Nat :=
  if 0 ≤ img.startLba + idx then some (img.startLba + idx).toNat else none

/-- A sector written. A write past the end makes the file longer, with zeros in
between. -/
def put (img : DiskImage) (p : Nat) (b : Block) : DiskImage :=
  { img with
    sectors := fun i =>
      if i = p then b else if img.count ≤ i ∧ i < p then Buf.zero else img.sectors i
    count := max img.count (p + 1) }

end DiskImage

def readBlock (idx : Int) : Ed Block := fun img =>
  match img.sector idx with
  | none => (.error .seek, img)
  | some p =>
      if p < img.count then (.ok (img.sectors p), img) else (.error (.disk "short read"), img)

/-- `write_block` of `len` bytes. -/
def writeBytes (idx : Int) (len : Nat) (data : Buf) : Ed Unit := fun img =>
  if len ≠ 512 then (.error (.disk "bad block size"), img)
  else match img.sector idx with
    | none => (.error .seek, img)
    | some p => (.ok (), img.put p data)

/-- `write_block` of a full block. -/
def writeBlock (idx : Int) (data : Block) : Ed Unit := writeBytes idx 512 data

/-! ## Inodes

An inode is a dictionary of Python integers and is packed when it is written
back. `slotBlock` and `slotOffset` are the editor's own arithmetic for the
place of a slot. -/

/-- An inode as the editor's dictionary: integers of any size. -/
structure PyInode where
  mode : Nat
  size : Nat
  linksCount : Nat
  direct : Fin 6 → Int
  indirect : Int
  doubleIndirect : Int

namespace PyInode

/-- `empty_inode`. -/
def empty : PyInode where
  mode := 0
  size := 0
  linksCount := 0
  direct := fun _ => 0
  indirect := 0
  doubleIndirect := 0

/-- `inode['mode'] & 1`. -/
def isDir (r : PyInode) : Bool := r.mode % 2 = 1

/-- `direct[l] = p`. -/
def setDirect (r : PyInode) (l : Nat) (p : Int) : PyInode :=
  { r with direct := fun i => if i.val = l then p else r.direct i }

def ofInode (r : Inode) : PyInode where
  mode := r.mode.toNat
  size := r.size.toNat
  linksCount := r.linksCount.toNat
  direct := fun i => (r.direct i).toNat
  indirect := r.indirect.toNat
  doubleIndirect := r.doubleIndirect.toNat

end PyInode

/-- A number `struct.pack` takes for an `I` field. -/
def fitsWord (n : Int) : Prop := 0 ≤ n ∧ n < 4294967296

instance (n : Int) : Decidable (fitsWord n) := inferInstanceAs (Decidable (_ ∧ _))

/-- A packed `I` field. -/
def packWord (n : Int) : UInt32 := UInt32.ofNat n.toNat

/-- `struct.pack(INODE_FMT, ...)`, with the padding zeroed. -/
def packInode (r : PyInode) : Ed Inode :=
  if fitsWord r.mode ∧ fitsWord r.size ∧ fitsWord r.linksCount ∧ (∀ i, fitsWord (r.direct i))
      ∧ fitsWord r.indirect ∧ fitsWord r.doubleIndirect then
    pure
      { mode := packWord r.mode
        size := packWord r.size
        linksCount := packWord r.linksCount
        direct := fun i => packWord (r.direct i)
        indirect := packWord r.indirect
        doubleIndirect := packWord r.doubleIndirect
        pad := fun _ => 0 }
  else Ed.raise .struct

def slotBlock (sb : Superblock) (ino : Int) : Int := sb.inodeTableStart.toNat + (ino - 1) / 6

/-- The offset of an inode slot in its block. -/
def slotOffset (ino : Int) : Nat := ((ino - 1) % 6).toNat * 76

def edReadInode (ino : Int) : Ed PyInode := do
  let sb ← superblock
  if ino ≤ 0 ∨ ino > sb.inodeCount.toNat then Ed.raise (.disk "invalid inode")
  else do
    let buf ← readBlock (slotBlock sb ino)
    pure (PyInode.ofInode (Inode.decode buf (slotOffset ino)))

/-- `DiskImage.write_inode`, which checks no bounds. -/
def edWriteInode (ino : Int) (r : PyInode) : Ed Unit := do
  let sb ← superblock
  let buf ← readBlock (slotBlock sb ino)
  let packed ← packInode r
  writeBlock (slotBlock sb ino) (buf.patch (slotOffset ino) 76 packed.encode)

/-! ## Bitmaps

One read, and for a set bit one write. Nothing is retried. -/

def edBitmapGet (start : Nat) (bit : Int) : Ed Bool := do
  let buf ← readBlock (start + bit / 8 / 512)
  pure (bitOf buf (bit / 8 % 512).toNat (bit % 8).toNat)

def edBitmapSet (start : Nat) (bit : Int) (val : Bool) : Ed Unit := do
  let buf ← readBlock (start + bit / 8 / 512)
  writeBlock (start + bit / 8 / 512) (withBit buf (bit / 8 % 512).toNat (bit % 8).toNat val)

/-! ## Allocation

First fit from the start of the bitmap, as in the kernel. A failure is the
index `-1`. -/

/-- `DiskImage.allocate_inode` from bit `i` on. -/
def edAllocateInodeFrom (sb : Superblock) : (n i : Nat) → Ed Int
  | 0, _ => pure (-1)
  | n + 1, i => do
      if ← edBitmapGet sb.inodeBitmapStart.toNat i then edAllocateInodeFrom sb n (i + 1)
      else do
        edBitmapSet sb.inodeBitmapStart.toNat i true
        edWriteInode (i + 1) PyInode.empty
        pure (i + 1)

def edAllocateInode : Ed Int := do
  let sb ← superblock
  edAllocateInodeFrom sb sb.inodeCount.toNat 0

/-- `DiskImage.allocate_block` from bit `i` on. -/
def edAllocateBlockFrom (sb : Superblock) : (n i : Nat) → Ed Int
  | 0, _ => pure (-1)
  | n + 1, i => do
      if ← edBitmapGet sb.blockBitmapStart.toNat i then edAllocateBlockFrom sb n (i + 1)
      else do
        edBitmapSet sb.blockBitmapStart.toNat i true
        writeBlock (sb.dataBlocksStart.toNat + i) Buf.zero
        pure (sb.dataBlocksStart.toNat + i)

def edAllocateBlock : Ed Int := do
  let sb ← superblock
  edAllocateBlockFrom sb (sb.fsSizeBlocks.toNat - sb.dataBlocksStart.toNat) 0

/-! ## Formatting

`format_disk` checks the length of the image, packs the superblock and
writes it, zeroes the regions, and writes the records of two directories,
the root and inode 2. -/

/-- Blocks `i` on, `n` of them, zeroed. -/
def edZeroBlocks : (n i : Nat) → Ed Unit
  | 0, _ => pure ()
  | n + 1, i => do
      writeBlock i Buf.zero
      edZeroBlocks n (i + 1)

/-- The regions `format_disk` lays out for a volume of `totalBlocks` blocks, in the
order of the superblock's fields after the sizes. -/
structure EdLayout where
  inodeBitmapStart : Nat
  blockBitmapStart : Nat
  inodeTableStart : Nat
  inodeTableBlocks : Nat

namespace EdLayout

def of (totalBlocks totalInodes : Nat) : EdLayout :=
  let inodeBitmapBlocks := (totalInodes + 4095) / 4096
  let blockBitmapBlocks := (totalBlocks + 4095) / 4096
  { inodeBitmapStart := 1
    blockBitmapStart := 1 + inodeBitmapBlocks
    inodeTableStart := 1 + inodeBitmapBlocks + blockBitmapBlocks
    inodeTableBlocks := (totalInodes * 76 + 512 - 1) / 512 }

def dataBlocksStart (l : EdLayout) : Nat := l.inodeTableStart + l.inodeTableBlocks

end EdLayout

/-- `struct.pack(SB_FMT, ...)` of a layout. -/
def packSuperblock (l : EdLayout) (totalBlocks totalInodes : Nat) : Ed Superblock :=
  if totalBlocks < 4294967296 ∧ totalInodes < 4294967296 ∧ l.blockBitmapStart < 4294967296
      ∧ l.inodeTableStart < 4294967296 ∧ l.dataBlocksStart < 4294967296 then
    pure
      { magic := fun i => ([73, 80, 79, 95, 70, 83, 0, 0] : List UInt8).getD i.val 0
        fsSizeBlocks := UInt32.ofNat totalBlocks
        blockSize := 512
        inodeCount := UInt32.ofNat totalInodes
        inodeBitmapStart := UInt32.ofNat l.inodeBitmapStart
        blockBitmapStart := UInt32.ofNat l.blockBitmapStart
        inodeTableStart := UInt32.ofNat l.inodeTableStart
        dataBlocksStart := UInt32.ofNat l.dataBlocksStart }
  else Ed.raise .struct

/-- `self.sb = ...`. -/
def setSuperblock (sb : Superblock) : Ed Unit := fun img => (.ok (), { img with sb := sb })

/-- `DiskImage.format_disk`. The dictionary in `self.sb` is of no use to anyone when
packing it fails, so it is set once it is packed. -/
def formatDisk (totalInodes : Nat) : Ed Unit := fun img =>
  if img.count < img.startLba + 100 then (.error (.disk "disk too small"), img)
  else
    let totalBlocks := img.count - img.startLba
    let l := EdLayout.of totalBlocks totalInodes
    let directory := { PyInode.empty with mode := 1, linksCount := 1 }
    (do
      let sb ← packSuperblock l totalBlocks totalInodes
      setSuperblock sb
      writeBlock 0 (Buf.zero.patch 0 36 sb.encode)
      edZeroBlocks (l.inodeTableStart + l.inodeTableBlocks - l.inodeBitmapStart) l.inodeBitmapStart
      edBitmapSet l.inodeBitmapStart 0 true
      edWriteInode 1 directory
      edBitmapSet l.inodeBitmapStart 1 true
      edWriteInode 2 directory : Ed Unit) img

/-! ## What block access leaves alone

A function of the image that no write to a sector changes is kept by
everything below that writes sectors. -/

section

variable {γ : Type} {f : DiskImage → γ} (hf : ∀ img p b, f (DiskImage.put img p b) = f img)

theorem keeps_superblock : Ed.Keeps f superblock := fun _ => rfl

theorem keeps_readBlock (idx : Int) : Ed.Keeps f (readBlock idx) := by
  intro img
  unfold readBlock
  split
  · rfl
  · split <;> rfl

include hf

theorem keeps_writeBlock (idx : Int) (b : Block) : Ed.Keeps f (writeBlock idx b) := by
  intro img
  unfold writeBlock writeBytes
  split
  · rfl
  · split
    · rfl
    · exact hf img _ _

theorem keeps_edBitmapSet (start : Nat) (bit : Int) (val : Bool) :
    Ed.Keeps f (edBitmapSet start bit val) :=
  (keeps_readBlock _).bind fun _ => keeps_writeBlock hf _ _

theorem keeps_edWriteInode (ino : Int) (r : PyInode) : Ed.Keeps f (edWriteInode ino r) := by
  refine keeps_superblock.bind fun sb => (keeps_readBlock _).bind fun buf => ?_
  refine Ed.Keeps.bind ?_ fun packed => keeps_writeBlock hf _ _
  exact Ed.Keeps.ite (.pure _) (.raise _)

theorem keeps_edZeroBlocks (n i : Nat) : Ed.Keeps f (edZeroBlocks n i) := by
  induction n generalizing i with
  | zero => exact .pure _
  | succ n ih => exact (keeps_writeBlock hf _ _).bind fun _ => ih _

end

end IpoOs
