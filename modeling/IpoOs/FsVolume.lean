import IpoOs.FsApi

/-!
# A volume on an array of blocks

What the low-level functions compute when the device is an array of
blocks, as equations over the disk: inode slots (`Disk.inodeAt`,
`Disk.putInode`), the two bitmaps (`Disk.inodeUsed`, `Disk.blockUsed`)
and first-fit allocation. `SoundLayout` is the one assumption about the
superblock; under it the regions of the volume do not overlap, and each
update below leaves the other regions as they were.

The equations are the interface of this module. A result about a function of
the file system rewrites with `readInode_array`, `writeInode_array` and the
allocation equations, and then reads inode slots and bits through the frame
lemmas; the blocks of the table and the bitmaps are not looked at again.
-/

namespace IpoOs

/-- The regions of the volume follow each other and each is large enough: the
inode bitmap for every inode, the block bitmap for every data block, the inode
table for every slot, six to a block. -/
structure SoundLayout (sb : Superblock) : Prop where
  first : 1 ≤ sb.inodeBitmapStart.toNat
  inodeBitmap : sb.inodeBitmapStart.toNat + (sb.inodeCount.toNat + 4095) / 4096
    ≤ sb.blockBitmapStart.toNat
  blockBitmap : sb.blockBitmapStart.toNat
    + (sb.fsSizeBlocks.toNat - sb.dataBlocksStart.toNat + 4095) / 4096
    ≤ sb.inodeTableStart.toNat
  inodeTable : sb.inodeTableStart.toNat + (sb.inodeCount.toNat + 5) / 6
    ≤ sb.dataBlocksStart.toNat
  data : sb.dataBlocksStart.toNat ≤ sb.fsSizeBlocks.toNat

/-- The inode numbers of the volume. -/
def Superblock.ValidIno (sb : Superblock) (i : Nat) : Prop :=
  1 ≤ i ∧ i ≤ sb.inodeCount.toNat

instance (sb : Superblock) (i : Nat) : Decidable (sb.ValidIno i) :=
  inferInstanceAs (Decidable (_ ∧ _))

namespace Disk

/-- The record in an inode slot; a number without a slot reads as zero. -/
def inodeAt (d : Disk) (sb : Superblock) (i : Nat) : Inode :=
  if sb.ValidIno i then Inode.decode (d (inodeBlock sb i)) (inodeOffset i) else Inode.zero

def putInode (d : Disk) (sb : Superblock) (i : Nat) (r : Inode) : Disk :=
  d.set (inodeBlock sb i) ((d (inodeBlock sb i)).patch (inodeOffset i) 76 r.encode)

/-- The bit of an inode in the inode bitmap. -/
def inodeUsed (d : Disk) (sb : Superblock) (i : Nat) : Bool :=
  d.bit sb.inodeBitmapStart.toNat (i - 1)

def blockUsed (d : Disk) (sb : Superblock) (p : Nat) : Bool :=
  d.bit sb.blockBitmapStart.toNat (p - sb.dataBlocksStart.toNat)

/-- The disk with the bit of an inode changed. -/
def setInodeUsed (d : Disk) (sb : Superblock) (i : Nat) (value : Bool) : Disk :=
  d.setBit sb.inodeBitmapStart.toNat (i - 1) value

/-- The disk with the bit of a block changed. -/
def setBlockUsed (d : Disk) (sb : Superblock) (p : Nat) (value : Bool) : Disk :=
  d.setBit sb.blockBitmapStart.toNat (p - sb.dataBlocksStart.toNat) value

/-- The disk after `allocate_block` took block `p`. -/
def takeBlock (d : Disk) (sb : Superblock) (p : Nat) : Disk :=
  (d.setBlockUsed sb p true).set p Buf.zero

end Disk

/-- The data blocks of the volume. -/
def Superblock.DataBlock (sb : Superblock) (p : Nat) : Prop :=
  sb.dataBlocksStart.toNat ≤ p ∧ p < sb.fsSizeBlocks.toNat

/-- The blocks of the block bitmap, as many as the data blocks need. -/
def Superblock.BitmapBlock (sb : Superblock) (q : Nat) : Prop :=
  sb.blockBitmapStart.toNat ≤ q ∧ q < sb.blockBitmapStart.toNat
    + (sb.fsSizeBlocks.toNat - sb.dataBlocksStart.toNat + 4095) / 4096

/-- What the allocation of blocks asks of the layout: the block bitmap lies below
the data region, wherever the inode table ends. -/
structure BitmapBelow (sb : Superblock) : Prop where
  data : sb.dataBlocksStart.toNat ≤ sb.fsSizeBlocks.toNat
  below : sb.blockBitmapStart.toNat
    + (sb.fsSizeBlocks.toNat - sb.dataBlocksStart.toNat + 4095) / 4096
    ≤ sb.dataBlocksStart.toNat

/-! ## Where things are

Slots and bits live in blocks below the data region, and under a sound
layout each of them in a region of its own. -/

section

variable {sb : Superblock} (W : BitmapBelow sb)

include W

theorem BitmapBelow.blockBit_block {p : Nat} (h : sb.DataBlock p) :
    u32 (sb.blockBitmapStart.toNat + (p - sb.dataBlocksStart.toNat) / 8 / 512)
      = sb.blockBitmapStart.toNat + (p - sb.dataBlocksStart.toNat) / 4096
    ∧ sb.BitmapBlock (sb.blockBitmapStart.toNat + (p - sb.dataBlocksStart.toNat) / 4096) := by
  have h1 := W.below
  have h2 := sb.dataBlocksStart.toNat_lt
  obtain ⟨h3, h4⟩ := h
  refine ⟨?_, by omega, by omega⟩
  rw [u32_of_lt (by omega)]
  omega

theorem BitmapBelow.not_bitmapBlock {p : Nat} (h : sb.DataBlock p) : ¬ sb.BitmapBlock p := by
  have h1 := W.below
  rintro ⟨-, h2⟩
  have h3 := h.1
  omega

end

section

variable {sb : Superblock} (L : SoundLayout sb)

include L

theorem SoundLayout.inodeBlock_eq {i : Nat} (h : sb.ValidIno i) :
    inodeBlock sb i = sb.inodeTableStart.toNat + (i - 1) / 6 := by
  have h1 := L.inodeTable
  have h2 := sb.dataBlocksStart.toNat_lt
  obtain ⟨h3, h4⟩ := h
  exact u32_of_lt (by omega)

theorem SoundLayout.inodeBlock_lt {i : Nat} (h : sb.ValidIno i) :
    inodeBlock sb i < sb.dataBlocksStart.toNat := by
  have h1 := L.inodeTable
  have h2 := L.inodeBlock_eq h
  obtain ⟨h3, h4⟩ := h
  omega

theorem SoundLayout.le_inodeBlock {i : Nat} (h : sb.ValidIno i) :
    sb.inodeTableStart.toNat ≤ inodeBlock sb i := by
  rw [L.inodeBlock_eq h]
  omega

theorem SoundLayout.dataBlock_ne_zero {p : Nat} (h : sb.DataBlock p) : p ≠ 0 := by
  have h1 := L.first
  have h2 := L.inodeBitmap
  have h3 := L.blockBitmap
  have h4 := L.inodeTable
  have h5 := h.1
  omega

/-- The block of the inode bitmap that holds the bit of inode `i`. -/
theorem SoundLayout.inodeBit_block {i : Nat} (h : sb.ValidIno i) :
    u32 (sb.inodeBitmapStart.toNat + (i - 1) / 8 / 512)
      = sb.inodeBitmapStart.toNat + (i - 1) / 4096
    ∧ sb.inodeBitmapStart.toNat + (i - 1) / 4096 < sb.blockBitmapStart.toNat := by
  have h1 := L.inodeBitmap
  have h2 := sb.blockBitmapStart.toNat_lt
  obtain ⟨h3, h4⟩ := h
  refine ⟨?_, by omega⟩
  rw [u32_of_lt (by omega)]
  omega

theorem SoundLayout.bitmapBelow : BitmapBelow sb := by
  have h1 := L.blockBitmap
  have h2 := L.inodeTable
  exact ⟨L.data, by omega⟩

/-- The block of the block bitmap that holds the bit of block `p`. -/
theorem SoundLayout.blockBit_block {p : Nat} (h : sb.DataBlock p) :
    u32 (sb.blockBitmapStart.toNat + (p - sb.dataBlocksStart.toNat) / 8 / 512)
      = sb.blockBitmapStart.toNat + (p - sb.dataBlocksStart.toNat) / 4096
    ∧ sb.blockBitmapStart.toNat + (p - sb.dataBlocksStart.toNat) / 4096
      < sb.inodeTableStart.toNat := by
  have h1 := L.blockBitmap
  obtain ⟨h3, h4⟩ := h
  exact ⟨(L.bitmapBelow.blockBit_block ⟨h3, h4⟩).1, by omega⟩

end

/-! ## Updates and what they leave alone

`SameMeta` collects what an update outside the inode table and the bitmap of
inodes preserves. -/

/-- The blocks before the data region agree, the block bitmap excepted. -/
def SameMeta (sb : Superblock) (d d' : Disk) : Prop :=
  ∀ q, q < sb.dataBlocksStart.toNat →
    q < sb.blockBitmapStart.toNat ∨ sb.inodeTableStart.toNat ≤ q → d' q = d q

section

variable {sb : Superblock} {d d' d'' : Disk}

theorem SameMeta.refl (d : Disk) : SameMeta sb d d := fun _ _ _ => rfl

theorem SameMeta.trans (h : SameMeta sb d d') (h' : SameMeta sb d' d'') :
    SameMeta sb d d'' := fun q h1 h2 => (h' q h1 h2).trans (h q h1 h2)

theorem Disk.inodeAt_congr {i : Nat} (h : d' (inodeBlock sb i) = d (inodeBlock sb i)) :
    d'.inodeAt sb i = d.inodeAt sb i := by
  simp only [Disk.inodeAt, h]

theorem Disk.inodeAt_of_not_valid {i : Nat} (h : ¬ sb.ValidIno i) :
    d.inodeAt sb i = Inode.zero := if_neg h

theorem Disk.bit_congr {start i : Nat}
    (h : d' (u32 (start + i / 8 / 512)) = d (u32 (start + i / 8 / 512))) :
    d'.bit start i = d.bit start i := by
  simp only [Disk.bit, h]

/-! ### What the allocator changes

The bit of a block is in a block of the bitmap, and the block it stands for is not. -/

section

variable (W : BitmapBelow sb) {p q : Nat}

include W

theorem BitmapBelow.blockUsed_set (hp : ¬ sb.BitmapBlock p) (hq : sb.DataBlock q) (b : Block) :
    (d.set p b).blockUsed sb q = d.blockUsed sb q := by
  obtain ⟨h1, h2⟩ := W.blockBit_block hq
  refine Disk.bit_congr ?_
  rw [h1]
  exact Disk.set_of_ne fun hc => hp (hc ▸ h2)

theorem BitmapBelow.setBlockUsed_of_not (hp : sb.DataBlock p) (hq : ¬ sb.BitmapBlock q) (v : Bool) :
    d.setBlockUsed sb p v q = d q := by
  obtain ⟨h1, h2⟩ := W.blockBit_block hp
  refine Disk.setBit_of_ne ?_
  rw [h1]
  exact fun hc => hq (hc ▸ h2)

theorem BitmapBelow.blockUsed_setBlockUsed (hp : sb.DataBlock p) (hq : sb.DataBlock q) (v : Bool) :
    (d.setBlockUsed sb p v).blockUsed sb q = if q = p then v else d.blockUsed sb q := by
  by_cases hqp : q = p
  · rw [if_pos hqp, hqp]
    exact Disk.bit_setBit_self d _ _ v
  · have h1 := W.below
    have h2 := sb.dataBlocksStart.toNat_lt
    have hp1 := hp.1
    have hp2 := hp.2
    have hq1 := hq.1
    have hq2 := hq.2
    rw [if_neg hqp]
    exact Disk.bit_setBit_of_ne (by omega) (by omega) (by omega)

theorem BitmapBelow.blockUsed_takeBlock (hp : sb.DataBlock p) (hq : sb.DataBlock q) :
    (d.takeBlock sb p).blockUsed sb q = if q = p then true else d.blockUsed sb q := by
  rw [Disk.takeBlock, W.blockUsed_set (W.not_bitmapBlock hp) hq, W.blockUsed_setBlockUsed hp hq]

theorem BitmapBelow.takeBlock_of_not (hp : sb.DataBlock p) (hq : ¬ sb.BitmapBlock q) :
    d.takeBlock sb p q = if q = p then Buf.zero else d q := by
  by_cases hqp : q = p
  · rw [if_pos hqp, hqp, Disk.takeBlock, Disk.set_self]
  · rw [if_neg hqp, Disk.takeBlock, Disk.set_of_ne hqp, W.setBlockUsed_of_not hp hq]

end

section

variable (L : SoundLayout sb)

include L

theorem SameMeta.inodeAt (h : SameMeta sb d d') (i : Nat) :
    d'.inodeAt sb i = d.inodeAt sb i := by
  by_cases hi : sb.ValidIno i
  · exact Disk.inodeAt_congr (h _ (L.inodeBlock_lt hi) (Or.inr (L.le_inodeBlock hi)))
  · rw [Disk.inodeAt_of_not_valid hi, Disk.inodeAt_of_not_valid hi]

theorem SameMeta.inodeUsed (h : SameMeta sb d d') {i : Nat} (hi : sb.ValidIno i) :
    d'.inodeUsed sb i = d.inodeUsed sb i := by
  obtain ⟨h1, h2⟩ := L.inodeBit_block hi
  have h3 := L.blockBitmap
  have h4 := L.inodeTable
  exact Disk.bit_congr (by rw [h1]; exact h _ (by omega) (Or.inl h2))

theorem SameMeta.block_zero (h : SameMeta sb d d') : d' 0 = d 0 := by
  have h1 := L.first
  have h2 := L.inodeBitmap
  have h3 := L.blockBitmap
  have h4 := L.inodeTable
  exact h 0 (by omega) (Or.inl (by omega))

/-! ### A data block -/

omit L in
theorem sameMeta_set {p : Nat} (hp : sb.DataBlock p) (b : Block) :
    SameMeta sb d (d.set p b) := fun q hq _ => by
  have := hp.1
  exact Disk.set_of_ne (by omega)

theorem SoundLayout.blockUsed_set {p q : Nat} (hp : sb.DataBlock p)
    (hq : sb.DataBlock q) (b : Block) : (d.set p b).blockUsed sb q = d.blockUsed sb q :=
  L.bitmapBelow.blockUsed_set (L.bitmapBelow.not_bitmapBlock hp) hq b

/-! ### The bit of a block -/

theorem SoundLayout.sameMeta_setBlockUsed {p : Nat} (hp : sb.DataBlock p) (v : Bool) :
    SameMeta sb d (d.setBlockUsed sb p v) := fun q _ hq => by
  obtain ⟨h1, h2⟩ := L.blockBit_block hp
  exact Disk.setBit_of_ne (by omega)

theorem SoundLayout.setBlockUsed_data {p q : Nat} (hp : sb.DataBlock p)
    (hq : sb.dataBlocksStart.toNat ≤ q) (v : Bool) : d.setBlockUsed sb p v q = d q := by
  obtain ⟨h1, h2⟩ := L.blockBit_block hp
  have h3 := L.inodeTable
  exact Disk.setBit_of_ne (by omega)

theorem SoundLayout.blockUsed_setBlockUsed {p q : Nat} (hp : sb.DataBlock p)
    (hq : sb.DataBlock q) (v : Bool) :
    (d.setBlockUsed sb p v).blockUsed sb q = if q = p then v else d.blockUsed sb q :=
  L.bitmapBelow.blockUsed_setBlockUsed hp hq v

/-! ### A block taken by the allocator -/

theorem SoundLayout.sameMeta_takeBlock {p : Nat} (hp : sb.DataBlock p) :
    SameMeta sb d (d.takeBlock sb p) :=
  (L.sameMeta_setBlockUsed hp true).trans (sameMeta_set hp _)

theorem SoundLayout.blockUsed_takeBlock {p q : Nat} (hp : sb.DataBlock p)
    (hq : sb.DataBlock q) :
    (d.takeBlock sb p).blockUsed sb q = if q = p then true else d.blockUsed sb q :=
  L.bitmapBelow.blockUsed_takeBlock hp hq

theorem SoundLayout.takeBlock_data {p q : Nat} (hp : sb.DataBlock p)
    (hq : sb.dataBlocksStart.toNat ≤ q) :
    d.takeBlock sb p q = if q = p then Buf.zero else d q := by
  by_cases hqp : q = p
  · rw [if_pos hqp, hqp, Disk.takeBlock, Disk.set_self]
  · rw [if_neg hqp, Disk.takeBlock, Disk.set_of_ne hqp, L.setBlockUsed_data hp hq]

/-! ### The bit of an inode -/

theorem SoundLayout.setInodeUsed_of_le {i q : Nat} (hi : sb.ValidIno i)
    (hq : q < sb.inodeBitmapStart.toNat ∨ sb.blockBitmapStart.toNat ≤ q) (v : Bool) :
    d.setInodeUsed sb i v q = d q := by
  obtain ⟨h1, h2⟩ := L.inodeBit_block hi
  exact Disk.setBit_of_ne (by omega)

theorem SoundLayout.inodeUsed_setInodeUsed {i j : Nat} (hi : sb.ValidIno i)
    (hj : sb.ValidIno j) (v : Bool) :
    (d.setInodeUsed sb i v).inodeUsed sb j = if j = i then v else d.inodeUsed sb j := by
  by_cases hji : j = i
  · rw [if_pos hji, hji]
    exact Disk.bit_setBit_self d _ _ v
  · obtain ⟨-, h2⟩ := L.inodeBit_block hi
    obtain ⟨-, h4⟩ := L.inodeBit_block hj
    have h5 := sb.blockBitmapStart.toNat_lt
    have hi1 := hi.1
    have hj1 := hj.1
    rw [if_neg hji]
    exact Disk.bit_setBit_of_ne (by omega) (by omega) (by omega)

theorem SoundLayout.inodeAt_setInodeUsed {i : Nat} (hi : sb.ValidIno i) (v : Bool)
    (j : Nat) : (d.setInodeUsed sb i v).inodeAt sb j = d.inodeAt sb j := by
  by_cases hj : sb.ValidIno j
  · have h1 := L.le_inodeBlock hj
    have h2 := L.blockBitmap
    exact Disk.inodeAt_congr (L.setInodeUsed_of_le hi (Or.inr (by omega)) v)
  · rw [Disk.inodeAt_of_not_valid hj, Disk.inodeAt_of_not_valid hj]

theorem SoundLayout.blockUsed_setInodeUsed {i p : Nat} (hi : sb.ValidIno i)
    (hp : sb.DataBlock p) (v : Bool) :
    (d.setInodeUsed sb i v).blockUsed sb p = d.blockUsed sb p := by
  obtain ⟨h1, -⟩ := L.blockBit_block hp
  exact Disk.bit_congr (by rw [h1]; exact L.setInodeUsed_of_le hi (Or.inr (by omega)) v)

/-! ### An inode slot -/

theorem SoundLayout.putInode_of_ne {i q : Nat} (hi : sb.ValidIno i) (r : Inode)
    (hq : q < sb.inodeTableStart.toNat ∨ sb.dataBlocksStart.toNat ≤ q) :
    d.putInode sb i r q = d q := by
  have h1 := L.le_inodeBlock hi
  have h2 := L.inodeBlock_lt hi
  exact Disk.set_of_ne (by omega)

theorem SoundLayout.inodeAt_putInode {i : Nat} (hi : sb.ValidIno i) (r : Inode) (j : Nat) :
    (d.putInode sb i r).inodeAt sb j = if j = i then r else d.inodeAt sb j := by
  by_cases hji : j = i
  · rw [if_pos hji, hji, Disk.inodeAt, if_pos hi, Disk.putInode, Disk.set_self,
      Inode.decode_patch]
  · rw [if_neg hji]
    by_cases hj : sb.ValidIno j
    · rw [Disk.inodeAt, Disk.inodeAt, if_pos hj, if_pos hj, Disk.putInode]
      by_cases hb : inodeBlock sb j = inodeBlock sb i
      · rw [hb, Disk.set_self]
        refine Inode.decode_congr fun k hk1 hk2 => Buf.patch_out ?_
        rw [L.inodeBlock_eq hi, L.inodeBlock_eq hj] at hb
        have hi1 := hi.1
        have hj1 := hj.1
        simp only [inodeOffset] at hk1 hk2 ⊢
        omega
      · rw [Disk.set_of_ne hb]
    · rw [Disk.inodeAt_of_not_valid hj, Disk.inodeAt_of_not_valid hj]

theorem SoundLayout.inodeUsed_putInode {i j : Nat} (hi : sb.ValidIno i)
    (hj : sb.ValidIno j) (r : Inode) :
    (d.putInode sb i r).inodeUsed sb j = d.inodeUsed sb j := by
  obtain ⟨h1, h2⟩ := L.inodeBit_block hj
  have h3 := L.blockBitmap
  exact Disk.bit_congr (by rw [h1]; exact L.putInode_of_ne hi r (Or.inl (by omega)))

theorem SoundLayout.blockUsed_putInode {i p : Nat} (hi : sb.ValidIno i)
    (hp : sb.DataBlock p) (r : Inode) :
    (d.putInode sb i r).blockUsed sb p = d.blockUsed sb p := by
  obtain ⟨h1, h2⟩ := L.blockBit_block hp
  exact Disk.bit_congr (by rw [h1]; exact L.putInode_of_ne hi r (Or.inl (by omega)))

end

end

/-! ## The functions on an array of blocks

What the four low-level functions are over an array: a look-up, an update,
and the first clear bit. -/

section

variable (u : Block) {sb : Superblock} (d : Disk)

theorem readInode_array (i : Nat) :
    readInode (arrayDev u) sb i d
      = (if sb.ValidIno i then some (d.inodeAt sb i) else none, d) := by
  unfold readInode
  by_cases h : sb.ValidIno i
  · have h' : ¬ (i = 0 ∨ i > sb.inodeCount.toNat) := by
      obtain ⟨h1, h2⟩ := h
      omega
    simp [h, h', Disk.inodeAt]
  · have h' : i = 0 ∨ i > sb.inodeCount.toNat := by
      simp only [Superblock.ValidIno] at h
      omega
    simp [h, h']

theorem writeInode_array (i : Nat) (r : Inode) :
    writeInode (arrayDev u) sb i r d
      = if sb.ValidIno i then (true, d.putInode sb i r) else (false, d) := by
  unfold writeInode
  by_cases h : sb.ValidIno i
  · have h' : ¬ (i = 0 ∨ i > sb.inodeCount.toNat) := by
      obtain ⟨h1, h2⟩ := h
      omega
    simp [h, h', Disk.putInode]
  · have h' : i = 0 ∨ i > sb.inodeCount.toNat := by
      simp only [Superblock.ValidIno] at h
      omega
    simp [h, h']

theorem allocateBlockFrom_array (n i : Nat) :
    (∃ k, i ≤ k ∧ k < i + n ∧ d.bit sb.blockBitmapStart.toNat k = false
      ∧ (∀ j, i ≤ j → j < k → d.bit sb.blockBitmapStart.toNat j = true)
      ∧ allocateBlockFrom (arrayDev u) sb n i d
        = (asInt (u32 (sb.dataBlocksStart.toNat + k)),
            (d.setBit sb.blockBitmapStart.toNat k true).set
              (u32 (sb.dataBlocksStart.toNat + k)) Buf.zero))
    ∨ ((∀ j, i ≤ j → j < i + n → d.bit sb.blockBitmapStart.toNat j = true)
      ∧ allocateBlockFrom (arrayDev u) sb n i d = (none, d)) := by
  induction n generalizing i with
  | zero => exact Or.inr ⟨fun j h1 h2 => by omega, rfl⟩
  | succ n ih =>
      cases hb : d.bit sb.blockBitmapStart.toNat i with
      | false =>
          exact Or.inl ⟨i, by omega, by omega, hb, fun j h1 h2 => by omega,
            by simp [allocateBlockFrom, hb]⟩
      | true =>
          have hstep : allocateBlockFrom (arrayDev u) sb (n + 1) i d
              = allocateBlockFrom (arrayDev u) sb n (i + 1) d := by
            simp [allocateBlockFrom, hb]
          have hcov : ∀ k, (∀ j, i + 1 ≤ j → j < k →
              d.bit sb.blockBitmapStart.toNat j = true) →
              ∀ j, i ≤ j → j < k → d.bit sb.blockBitmapStart.toNat j = true :=
            fun k hall j h1 h2 => by
              by_cases hj : j = i
              · exact hj ▸ hb
              · exact hall j (by omega) h2
          rw [hstep]
          rcases ih (i + 1) with ⟨k, h1, h2, h3, h4, h5⟩ | ⟨h1, h2⟩
          · exact Or.inl ⟨k, by omega, by omega, h3, hcov k h4, h5⟩
          · exact Or.inr ⟨hcov (i + (n + 1)) (fun j h3 h4 => h1 j h3 (by omega)), h2⟩

theorem allocateInodeFrom_array (n i : Nat) :
    (∃ k, i ≤ k ∧ k < i + n ∧ d.bit sb.inodeBitmapStart.toNat k = false
      ∧ allocateInodeFrom (arrayDev u) sb n i d
        = (asInt (u32 (k + 1)),
            (writeInode (arrayDev u) sb (k + 1) Inode.zero
              (d.setBit sb.inodeBitmapStart.toNat k true)).2))
    ∨ ((∀ j, i ≤ j → j < i + n → d.bit sb.inodeBitmapStart.toNat j = true)
      ∧ allocateInodeFrom (arrayDev u) sb n i d = (none, d)) := by
  induction n generalizing i with
  | zero => exact Or.inr ⟨fun j h1 h2 => by omega, rfl⟩
  | succ n ih =>
      cases hb : d.bit sb.inodeBitmapStart.toNat i with
      | false =>
          exact Or.inl ⟨i, by omega, by omega, hb, by simp [allocateInodeFrom, hb]⟩
      | true =>
          have hstep : allocateInodeFrom (arrayDev u) sb (n + 1) i d
              = allocateInodeFrom (arrayDev u) sb n (i + 1) d := by
            simp [allocateInodeFrom, hb]
          rw [hstep]
          rcases ih (i + 1) with ⟨k, h1, h2, h3, h4⟩ | ⟨h1, h2⟩
          · exact Or.inl ⟨k, by omega, by omega, h3, h4⟩
          · refine Or.inr ⟨fun j h3 h4 => ?_, h2⟩
            by_cases hj : j = i
            · exact hj ▸ hb
            · exact h1 j (by omega) (by omega)

/-- `allocate_inode` takes a free inode and zeroes its slot, or finds none. -/
theorem allocateInode_array :
    (∃ i, sb.ValidIno i ∧ d.inodeUsed sb i = false
      ∧ allocateInode (arrayDev u) sb d
        = (asInt i, (d.setInodeUsed sb i true).putInode sb i Inode.zero))
    ∨ ((∀ i, sb.ValidIno i → d.inodeUsed sb i = true)
      ∧ allocateInode (arrayDev u) sb d = (none, d)) := by
  unfold allocateInode
  have hlt := sb.inodeCount.toNat_lt
  rcases @allocateInodeFrom_array u sb d sb.inodeCount.toNat 0 with
    ⟨k, -, hk, hfree, hrun⟩ | ⟨hall, hrun⟩
  · have hv : sb.ValidIno (k + 1) := ⟨by omega, by omega⟩
    refine Or.inl ⟨k + 1, hv, ?_, ?_⟩
    · simpa [Disk.inodeUsed] using hfree
    · rw [hrun, writeInode_array, if_pos hv, u32_of_lt (by omega)]
      simp [Disk.setInodeUsed]
  · exact Or.inr ⟨fun i hi => hall _ (by omega) (by have := hi.1; have := hi.2; omega), hrun⟩

/-- `allocate_block` takes the first free data block, or finds none. A block
number with its top bit set is taken as well and then reported as a failure. -/
theorem allocateBlock_first (hds : sb.dataBlocksStart.toNat ≤ sb.fsSizeBlocks.toNat) :
    (∃ p, sb.DataBlock p ∧ d.blockUsed sb p = false
      ∧ (∀ q, sb.DataBlock q → q < p → d.blockUsed sb q = true)
      ∧ allocateBlock (arrayDev u) sb d = (asInt p, d.takeBlock sb p))
    ∨ ((∀ q, sb.DataBlock q → d.blockUsed sb q = true)
      ∧ allocateBlock (arrayDev u) sb d = (none, d)) := by
  have hfs := sb.fsSizeBlocks.toNat_lt
  have htotal : dataBlocksTotal sb
      = sb.fsSizeBlocks.toNat - sb.dataBlocksStart.toNat :=
    sub32_of_le hds (by omega)
  unfold allocateBlock
  rw [htotal]
  rcases @allocateBlockFrom_array u sb d
      (sb.fsSizeBlocks.toNat - sb.dataBlocksStart.toNat) 0 with
    ⟨k, -, hk, hfree, hlow, hrun⟩ | ⟨hall, hrun⟩
  · have hu : u32 (sb.dataBlocksStart.toNat + k) = sb.dataBlocksStart.toNat + k :=
      u32_of_lt (by omega)
    have hsub : sb.dataBlocksStart.toNat + k - sb.dataBlocksStart.toNat = k := by omega
    refine Or.inl ⟨sb.dataBlocksStart.toNat + k, ⟨by omega, by omega⟩, ?_, ?_, ?_⟩
    · simp only [Disk.blockUsed, hsub, hfree]
    · intro q hq hlt
      exact hlow _ (by omega) (by have := hq.1; omega)
    · simp only [hrun, hu, Disk.takeBlock, Disk.setBlockUsed, hsub]
  · exact Or.inr ⟨fun q hq => hall _ (by omega) (by have := hq.1; have := hq.2; omega), hrun⟩

theorem allocateBlock_array (L : SoundLayout sb) :
    (∃ p, sb.DataBlock p ∧ d.blockUsed sb p = false
      ∧ (∀ q, sb.DataBlock q → q < p → d.blockUsed sb q = true)
      ∧ allocateBlock (arrayDev u) sb d = (asInt p, d.takeBlock sb p))
    ∨ ((∀ q, sb.DataBlock q → d.blockUsed sb q = true)
      ∧ allocateBlock (arrayDev u) sb d = (none, d)) :=
  allocateBlock_first u d L.data

end

end IpoOs
