import IpoOs.FsImage
import IpoOs.EdImage

/-!
# The size of the inode table

Both formatters size the inode table by bytes, 76 for an inode rounded up
to whole blocks, and both address it six slots to a block. A block of the
table has room for 6.7 records, so the two agree for few counts only:
`TableCount` lists them.

For the kernel the arithmetic is that of 32 bits, and the condition is
proved in it. The editor computes without a width and refuses what does not
fit its fields.
-/

namespace IpoOs

/-- The inode counts whose slots all lie in the region sized for them. -/
def TableCount (n : Nat) : Prop :=
  n ≤ 12 ∨ (14 ≤ n ∧ n ≤ 18) ∨ (21 ≤ n ∧ n ≤ 24) ∨ (27 ≤ n ∧ n ≤ 30) ∨ (34 ≤ n ∧ n ≤ 36)
    ∨ (41 ≤ n ∧ n ≤ 42) ∨ n = 48 ∨ n = 54

instance : DecidablePred TableCount := fun n => by
  unfold TableCount
  infer_instance

theorem tableCount_iff (n : Nat) : (n + 5) / 6 ≤ (n * 76 + 511) / 512 ↔ TableCount n := by
  rcases Nat.lt_or_ge n 55 with h | h
  · have hall : ∀ m < 55, ((m + 5) / 6 ≤ (m * 76 + 511) / 512 ↔ TableCount m) := by decide
    exact hall n h
  · unfold TableCount
    omega

/-- The kernel's 32-bit size is that of the count, or the count is too large anyway. -/
theorem tableFits_iff (totalInodes : UInt32) :
    TableFits totalInodes ↔ TableCount totalInodes.toNat := by
  have hexact : totalInodes.toNat ≤ 54 →
      inodeTableBlocks totalInodes.toNat = (totalInodes.toNat * 76 + 511) / 512 := by
    intro h
    have hbytes : u32 (totalInodes.toNat * 76) = totalInodes.toNat * 76 := u32_of_lt (by omega)
    rw [inodeTableBlocks, hbytes, u32_of_lt (by omega)]
  constructor
  · intro h
    have hle := hexact h.count_le
    rw [← tableCount_iff]
    unfold TableFits at h
    rwa [hle] at h
  · intro h
    have hle : totalInodes.toNat ≤ 54 := by
      unfold TableCount at h
      omega
    unfold TableFits
    rw [hexact hle]
    exact (tableCount_iff _).mpr h

/-- The slots of `n` inodes from block `start` on lie below `start + blocks`. -/
theorem slots_below_iff {start blocks n : Nat} :
    (∀ i, 1 ≤ i → i ≤ n → start + (i - 1) / 6 < start + blocks) ↔ (n + 5) / 6 ≤ blocks := by
  constructor
  · intro h
    rcases Nat.eq_zero_or_pos n with rfl | hpos
    · omega
    · have hlast := h n hpos (Nat.le_refl n)
      omega
  · intro h i h1 h2
    omega

/-- What a successful `ipo_fs_format` leaves in the superblock, on any device. -/
theorem ipoFsFormat_sb {σ : Type} {dev : UInt32 → BlockDev σ}
    {start totalBlocks totalInodes : UInt32}
    {k₀ k : Kernel σ} (h : ipoFsFormat dev start totalBlocks totalInodes k₀ = (true, k)) :
    k.sb = formatSuperblock totalBlocks totalInodes ∧ 10 ≤ totalBlocks.toNat
      ∧ dataBlocks totalBlocks.toNat totalInodes.toNat < 2147483648 ∧ k.fsStartLba = start := by
  unfold ipoFsFormat at h
  simp only [Prog.run_ite, Prog.run_pure] at h
  split at h
  · cases (Prod.mk.inj h).1
  · split at h
    · cases (Prod.mk.inj h).1
    · rename_i h10 hdata
      rw [Prog.run_bind, Prog.run_bind] at h
      generalize withFs dev
        (fun dev _ => formatRegions dev (formatSuperblock totalBlocks totalInodes)
        (inodeBitmapBlocks totalInodes.toNat)
        (blockBitmapBlocks totalBlocks.toNat totalInodes.toNat)
        (inodeTableBlocks totalInodes.toNat)) _ = res at h
      obtain ⟨ok, k₁⟩ := res
      cases ok with
      | true =>
          rw [← (Prod.mk.inj h).2]
          exact ⟨rfl, by omega, by omega, rfl⟩
      | false => cases (Prod.mk.inj h).1

theorem ipoFsFormat_slots {σ : Type} {dev : UInt32 → BlockDev σ}
    {start totalBlocks totalInodes : UInt32} {k₀ k : Kernel σ}
    (h : ipoFsFormat dev start totalBlocks totalInodes k₀ = (true, k)) :
    (∀ i, 1 ≤ i → i ≤ k.sb.inodeCount.toNat → inodeBlock k.sb i < k.sb.dataBlocksStart.toNat)
      ↔ TableCount totalInodes.toNat := by
  obtain ⟨hsb, h10, hdata, -⟩ := ipoFsFormat_sb h
  obtain ⟨-, -, hit, hds⟩ := formatSuperblock_starts h10 hdata
  have hl := formatLayout h10 hdata
  have htb := totalBlocks.toNat_lt
  have hti := totalInodes.toNat_lt
  have hib : inodeBitmapBlocks totalInodes.toNat ≤ 1048576 := by
    have hlt := u32_lt (totalInodes.toNat + 4095)
    unfold inodeBitmapBlocks
    omega
  have hbb : blockBitmapBlocks totalBlocks.toNat totalInodes.toNat ≤ 1048576 :=
    blockBitmapRounds_le _ _ 8 1 (by omega)
  have hblock : ∀ i, i ≤ totalInodes.toNat →
      inodeBlock (formatSuperblock totalBlocks totalInodes) i
        = (formatSuperblock totalBlocks totalInodes).inodeTableStart.toNat + (i - 1) / 6 := by
    intro i hi
    exact u32_of_lt (by omega)
  have hstart : (formatSuperblock totalBlocks totalInodes).dataBlocksStart.toNat
      = (formatSuperblock totalBlocks totalInodes).inodeTableStart.toNat
        + inodeTableBlocks totalInodes.toNat := by omega
  have hcount : (formatSuperblock totalBlocks totalInodes).inodeCount = totalInodes := rfl
  rw [hsb, hcount, ← tableFits_iff, TableFits, hstart, ← slots_below_iff]
  refine forall_congr' fun i => imp_congr_right fun _ => imp_congr_right fun h2 => ?_
  rw [hblock i h2]

/-- The sizes and the layout that a superblock holds. -/
structure EdLayout.Packed (l : EdLayout) (totalBlocks totalInodes : Nat) (sb : Superblock) :
    Prop where
  blocks : sb.fsSizeBlocks.toNat = totalBlocks
  inodes : sb.inodeCount.toNat = totalInodes
  inodeBitmap : sb.inodeBitmapStart.toNat = l.inodeBitmapStart
  blockBitmap : sb.blockBitmapStart.toNat = l.blockBitmapStart
  inodeTable : sb.inodeTableStart.toNat = l.inodeTableStart
  data : sb.dataBlocksStart.toNat = l.dataBlocksStart

theorem packSuperblock_packed {totalBlocks totalInodes : Nat} {img img' : DiskImage}
    {sb : Superblock}
    (h : packSuperblock (EdLayout.of totalBlocks totalInodes) totalBlocks totalInodes img
      = (.ok sb, img')) :
    (EdLayout.of totalBlocks totalInodes).Packed totalBlocks totalInodes sb ∧ img' = img := by
  unfold packSuperblock at h
  rw [Ed.run_ite] at h
  split at h
  · rename_i hfits
    obtain ⟨h1, h2, h3, h4, h5⟩ := hfits
    obtain ⟨hres, rfl⟩ := Prod.mk.inj h
    obtain rfl := Except.ok.inj hres
    exact ⟨⟨Nat.mod_eq_of_lt h1, Nat.mod_eq_of_lt h2, rfl, Nat.mod_eq_of_lt h3, Nat.mod_eq_of_lt h4,
      Nat.mod_eq_of_lt h5⟩, rfl⟩
  · cases (Prod.mk.inj h).1

theorem formatDisk_sb {totalInodes : Nat} {img img' : DiskImage}
    (h : formatDisk totalInodes img = (.ok (), img')) :
    img'.sb.inodeCount.toNat = totalInodes
    ∧ img'.sb.inodeTableStart.toNat
      = (EdLayout.of (img.count - img.startLba) totalInodes).inodeTableStart
    ∧ img'.sb.dataBlocksStart.toNat
      = (EdLayout.of (img.count - img.startLba) totalInodes).dataBlocksStart
    ∧ img'.sb.fsSizeBlocks.toNat = img.count - img.startLba := by
  unfold formatDisk at h
  split at h
  · cases (Prod.mk.inj h).1
  · obtain ⟨sb, img₁, hpack, h⟩ := Ed.bind_ok h
    obtain ⟨_, img₂, hset, h⟩ := Ed.bind_ok h
    have hput : ∀ (img : DiskImage) (p : Nat) (b : Block), (img.put p b).sb = img.sb := by
      intro img p b
      rfl
    have hkeep : img'.sb = img₂.sb := by
      refine Ed.Keeps.of_run (f := DiskImage.sb) ?_ h
      refine (keeps_writeBlock hput _ _).bind fun _ => (keeps_edZeroBlocks hput _ _).bind fun _ =>
        ?_
      refine (keeps_edBitmapSet hput _ _ _).bind fun _ => (keeps_edWriteInode hput _ _).bind
        fun _ => ?_
      exact (keeps_edBitmapSet hput _ _ _).bind fun _ => keeps_edWriteInode hput _ _
    obtain ⟨-, rfl⟩ := Prod.mk.inj hset
    obtain ⟨hpacked, -⟩ := packSuperblock_packed hpack
    rw [hkeep]
    exact ⟨hpacked.inodes, hpacked.inodeTable, hpacked.data, hpacked.blocks⟩

theorem formatDisk_slots {totalInodes : Nat} {img img' : DiskImage}
    (h : formatDisk totalInodes img = (.ok (), img')) :
    (∀ i : Nat, 1 ≤ i → i ≤ img'.sb.inodeCount.toNat →
      slotBlock img'.sb i < img'.sb.dataBlocksStart.toNat) ↔ TableCount totalInodes := by
  obtain ⟨hcount, hit, hds, -⟩ := formatDisk_sb h
  have hstart : img'.sb.dataBlocksStart.toNat
      = img'.sb.inodeTableStart.toNat + (totalInodes * 76 + 511) / 512 := by
    rw [hds, hit]
    rfl
  have hblock : ∀ i : Nat, 1 ≤ i →
      slotBlock img'.sb i = ((img'.sb.inodeTableStart.toNat + (i - 1) / 6 : Nat) : Int) := by
    intro i hi
    unfold slotBlock
    omega
  rw [hcount, hstart, ← tableCount_iff, ← slots_below_iff]
  refine forall_congr' fun i => imp_congr_right fun h1 => imp_congr_right fun _ => ?_
  rw [hblock i h1, Int.ofNat_lt]

/-- Whenever one of the two formatters succeeds, every slot lies below the data
blocks exactly for the inode counts of `TableCount`. -/
theorem inodeTable_below_data {σ : Type} (dev : UInt32 → BlockDev σ)
    (start totalBlocks totalInodes : UInt32) (k₀ k : Kernel σ) (inodes : Nat)
    (img img' : DiskImage) :
    (ipoFsFormat dev start totalBlocks totalInodes k₀ = (true, k) →
      ((∀ i, 1 ≤ i → i ≤ k.sb.inodeCount.toNat → inodeBlock k.sb i < k.sb.dataBlocksStart.toNat)
        ↔ TableCount totalInodes.toNat))
    ∧ (formatDisk inodes img = (.ok (), img') →
      ((∀ i : Nat, 1 ≤ i → i ≤ img'.sb.inodeCount.toNat →
        slotBlock img'.sb i < img'.sb.dataBlocksStart.toNat) ↔ TableCount inodes)) :=
  ⟨fun h => ipoFsFormat_slots h, fun h => formatDisk_slots h⟩

/-- A blank image of 100 sectors, the whole of it the volume. -/
def blankImage : DiskImage where
  startLba := 0
  count := 100
  sectors := fun _ => Buf.zero
  sb := Superblock.zero

/-- Thirteen inodes: the last slot is in the first data block, for both formatters. -/
theorem inodeTable_thirteen :
    (ipoFsFormat (diskDev Buf.zero) 0 12 13 blankKernel).1 = true
    ∧ (formattedKernel 12 13).sb.inodeCount = 13
    ∧ inodeBlock (formattedKernel 12 13).sb 13 = (formattedKernel 12 13).sb.dataBlocksStart.toNat
    ∧ (formatDisk 13 blankImage).1.isOk = true
    ∧ (formatDisk 13 blankImage).2.sb.inodeCount = 13
    ∧ slotBlock (formatDisk 13 blankImage).2.sb 13
      = (formatDisk 13 blankImage).2.sb.dataBlocksStart.toNat := by
  refine ⟨?_, ?_, ?_, ?_, ?_, ?_⟩ <;> decide +kernel

theorem formatDisk_six : formatDisk 6 blankImage = (.ok (), (formatDisk 6 blankImage).2) := by
  have hok : (formatDisk 6 blankImage).1 = .ok () := by decide +kernel
  rw [← hok]

theorem inodeTable_below_data_six :
    (∀ i, 1 ≤ i → i ≤ (formattedKernel 12 6).sb.inodeCount.toNat →
      inodeBlock (formattedKernel 12 6).sb i < (formattedKernel 12 6).sb.dataBlocksStart.toNat)
    ∧ ∀ i : Nat, 1 ≤ i → i ≤ (formatDisk 6 blankImage).2.sb.inodeCount.toNat →
      slotBlock (formatDisk 6 blankImage).2.sb i
        < (formatDisk 6 blankImage).2.sb.dataBlocksStart.toNat :=
  ⟨((inodeTable_below_data (diskDev Buf.zero) 0 12 6 blankKernel (formattedKernel 12 6) 6
      blankImage (formatDisk 6 blankImage).2).1 formattedKernel_run).mpr (by decide),
    ((inodeTable_below_data (diskDev Buf.zero) 0 12 6 blankKernel (formattedKernel 12 6) 6
      blankImage (formatDisk 6 blankImage).2).2 formatDisk_six).mpr (by decide)⟩

end IpoOs
