import IpoOs.EdContents
import IpoOs.EdFiles

/-!
# Inode slots of both implementations

The C struct and the `struct.pack` format are the same 76 bytes, and both
address the slots six to a block. So each implementation reads back what
the other wrote, and a write changes the 76 bytes of its slot only.

Nothing is asked of the volume but that the table lies in the image, so the
slots of a corrupt volume are covered as well.
-/

namespace IpoOs

/-- The inode table lies inside a disk of that many blocks, with `inode_count` slots six to a
block. -/
def Superblock.TableInside (sb : Superblock) (blocks : Nat) : Prop :=
  sb.inodeTableStart.toNat + (sb.inodeCount.toNat + 5) / 6 ≤ min blocks 4294967296

instance (sb : Superblock) (blocks : Nat) : Decidable (sb.TableInside blocks) :=
  inferInstanceAs (Decidable (_ ≤ _))

/-- A disk after a write of the slot of inode `i`: the other slots and the other blocks have the
bytes they had, and so has the rest of the block. -/
structure SlotOnly (sb : Superblock) (i : Nat) (d d' : Disk) : Prop where
  slots : ∀ j, sb.ValidIno j → j ≠ i → ∀ k < 76,
    d' (inodeBlock sb j) (inodeOffset j + k) = d (inodeBlock sb j) (inodeOffset j + k)
  blocks : ∀ q, q ≠ inodeBlock sb i → d' q = d q
  bytes : ∀ k, k < inodeOffset i ∨ inodeOffset i + 76 ≤ k →
    d' (inodeBlock sb i) k = d (inodeBlock sb i) k

section

variable {sb : Superblock} {blocks : Nat} (T : sb.TableInside blocks)

include T

theorem Superblock.TableInside.inodeBlock_eq {i : Nat} (hv : sb.ValidIno i) :
    inodeBlock sb i = sb.inodeTableStart.toNat + (i - 1) / 6 ∧ inodeBlock sb i < blocks := by
  obtain ⟨h1, h2⟩ := hv
  unfold TableInside at T
  have hwrap : inodeBlock sb i = sb.inodeTableStart.toNat + (i - 1) / 6 := u32_of_lt (by omega)
  exact ⟨hwrap, by omega⟩

theorem Superblock.TableInside.slotOnly {i : Nat} (hv : sb.ValidIno i) (d : Disk) (r : Inode) :
    SlotOnly sb i d (d.putInode sb i r) where
  slots := by
    intro j hj hne k hk
    rcases em (inodeBlock sb j = inodeBlock sb i) with hsame | hother
    · obtain ⟨hi, -⟩ := T.inodeBlock_eq hv
      obtain ⟨hj', -⟩ := T.inodeBlock_eq hj
      rw [Disk.putInode, hsame, Disk.set_self]
      -- the two slots of one block lie 76 bytes apart
      refine Buf.patch_out ?_
      have h1 := hv.1
      have h2 := hj.1
      unfold inodeOffset
      omega
    · rw [Disk.putInode, Disk.set_of_ne hother]
  blocks := fun q hq => Disk.set_of_ne hq
  bytes := fun k hk => by
    rw [Disk.putInode, Disk.set_self]
    exact Buf.patch_out hk

end

theorem inodeAt_putInode_self {sb : Superblock} {i : Nat} (hv : sb.ValidIno i) (d : Disk)
    (r : Inode) : (d.putInode sb i r).inodeAt sb i = r := by
  rw [Disk.inodeAt, if_pos hv, Disk.putInode, Disk.set_self, Inode.decode_patch]

section

variable {img : DiskImage} (T : img.sb.TableInside (img.count - img.startLba)) {i : Nat}
  (hv : img.sb.ValidIno i)

include T hv

theorem edReadInode_slot :
    edReadInode i img = (.ok (PyInode.ofInode (img.disk.inodeAt img.sb i)), img) := by
  obtain ⟨hwrap, hlt⟩ := T.inodeBlock_eq hv
  obtain ⟨h1, h2⟩ := hv
  have hblock : slotBlock img.sb i = (inodeBlock img.sb i : Nat) := by
    rw [hwrap]
    unfold slotBlock
    omega
  have hoffset : slotOffset i = inodeOffset i := by
    unfold slotOffset inodeOffset
    omega
  have hin : img.Holds (inodeBlock img.sb i) := by
    unfold DiskImage.Holds
    omega
  have hread := readBlock_eq img (inodeBlock img.sb i)
  rw [if_pos hin] at hread
  have hvalid : ¬ ((i : Int) ≤ 0 ∨ (i : Int) > img.sb.inodeCount.toNat) := by omega
  unfold edReadInode
  rw [Ed.run_bind_ok (superblock_run img), if_neg hvalid, hblock, hoffset, Ed.run_bind_ok hread,
    Disk.inodeAt, if_pos ⟨h1, h2⟩]
  rfl

theorem edWriteInode_slot (r : Inode) : edWriteInode i (PyInode.ofInode r) img
    = (.ok (), img.withDisk (img.disk.putInode img.sb i (r.packed r.size))) := by
  obtain ⟨hwrap, hlt⟩ := T.inodeBlock_eq hv
  have h1 := hv.1
  have hblock : slotBlock img.sb i = (inodeBlock img.sb i : Nat) := by
    rw [hwrap]
    unfold slotBlock
    omega
  have hoffset : slotOffset i = inodeOffset i := by
    unfold slotOffset inodeOffset
    omega
  have hin : img.Holds (inodeBlock img.sb i) := by
    unfold DiskImage.Holds
    omega
  have hread := readBlock_eq img (inodeBlock img.sb i)
  rw [if_pos hin] at hread
  have hpack := packInode_ofInode r r.size.toNat img
  rw [if_pos r.size.toNat_lt, UInt32.ofNat_toNat] at hpack
  have hpack' : packInode (PyInode.ofInode r) img = (.ok (r.packed r.size), img) := hpack
  unfold edWriteInode
  rw [Ed.run_bind_ok (superblock_run img), hblock, hoffset, Ed.run_bind_ok hread,
    Ed.run_bind_ok hpack', writeBlock_holds hin]
  rfl

end

/-- Both implementations read back a record that either of them wrote, and the write touches its
slot only. -/
theorem inode_slots {img : DiskImage} (T : img.sb.TableInside (img.count - img.startLba))
    (u : Block) {i : Nat} (hv : img.sb.ValidIno i) (r : Inode) :
    (∃ d', writeInode (arrayDev u) img.sb i r img.disk = (true, d')
      ∧ readInode (arrayDev u) img.sb i d' = (some r, d')
      ∧ edReadInode i (img.withDisk d') = (.ok (PyInode.ofInode r), img.withDisk d')
      ∧ SlotOnly img.sb i img.disk d')
    ∧ ∃ d', edWriteInode i (PyInode.ofInode r) img = (.ok (), img.withDisk d')
      ∧ (∃ r', readInode (arrayDev u) img.sb i d' = (some r', d')
        ∧ PyInode.ofInode r' = PyInode.ofInode r)
      ∧ edReadInode i (img.withDisk d') = (.ok (PyInode.ofInode r), img.withDisk d')
      ∧ SlotOnly img.sb i img.disk d' := by
  have hed : ∀ r' : Inode, edReadInode i (img.withDisk (img.disk.putInode img.sb i r'))
      = (.ok (PyInode.ofInode r'), img.withDisk (img.disk.putInode img.sb i r')) := by
    intro r'
    have hread := @edReadInode_slot (img.withDisk (img.disk.putInode img.sb i r')) T i hv
    rwa [DiskImage.disk_withDisk, DiskImage.withDisk_sb, inodeAt_putInode_self hv] at hread
  have hkernel : ∀ r' : Inode, readInode (arrayDev u) img.sb i (img.disk.putInode img.sb i r')
      = (some r', img.disk.putInode img.sb i r') := by
    intro r'
    rw [readInode_array, if_pos hv, inodeAt_putInode_self hv]
  have hwrite := @writeInode_array u img.sb img.disk i r
  rw [if_pos hv] at hwrite
  exact ⟨⟨_, hwrite, hkernel r, hed r, T.slotOnly hv _ _⟩,
    ⟨_, edWriteInode_slot T hv r, ⟨_, hkernel _, rfl⟩, hed _, T.slotOnly hv _ _⟩⟩

/-- A record with a value of its own in every field. -/
def Inode.sample : Inode where
  mode := 1
  size := 0x02030405
  linksCount := 6
  direct i := UInt32.ofNat (0x07000000 + i)
  indirect := 0x0D0C0B0A
  doubleIndirect := 0x1234
  pad i := UInt8.ofNat (100 + i)

/-- The root's slot of a volume that the kernel formatted. -/
theorem inode_slots_root :
    readInode (arrayDev Buf.zero) (imageOf (mountedKernel 12 6)).sb 1
        ((imageOf (mountedKernel 12 6)).disk.putInode (imageOf (mountedKernel 12 6)).sb 1
          Inode.sample)
      = (some Inode.sample, (imageOf (mountedKernel 12 6)).disk.putInode
        (imageOf (mountedKernel 12 6)).sb 1 Inode.sample) := by
  have T : (imageOf (mountedKernel 12 6)).sb.TableInside
      ((imageOf (mountedKernel 12 6)).count - (imageOf (mountedKernel 12 6)).startLba) := by
    decide +kernel
  have hv : (imageOf (mountedKernel 12 6)).sb.ValidIno 1 := by decide +kernel
  obtain ⟨d', hwrite, hread, -, -⟩ := (inode_slots T Buf.zero hv Inode.sample).1
  rw [writeInode_array, if_pos hv] at hwrite
  rw [(Prod.mk.inj hwrite).2]
  exact hread

end IpoOs
