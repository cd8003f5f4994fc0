import IpoOs.EdRuns

/-!
# The volume that `format_disk` makes

A new volume has no block pointers at all, so its pointers are owned. The
superblock may count inodes whose slots lie past the table and may place
the data blocks past the end of the volume; `inTable` is the image as a
superblock would describe it that counts the slots of the table only.

The writes of the function are followed one by one, and what each leaves
alone is read from the record `Rewrote`. The layout is packed first, so that
it is sound is a lemma about the numbers alone (`Packed.sound`).

For the counts of `TableCount` the superblock describes the volume as it is,
and `inTable` changes nothing.
-/

namespace IpoOs

/-- The superblock with the inodes that have a slot in the table, and without data blocks where
the regions before them fill the volume. -/
def Superblock.inTable (sb : Superblock) : Superblock :=
  { sb with
    inodeCount := UInt32.ofNat (min sb.inodeCount.toNat
      (6 * (sb.dataBlocksStart.toNat - sb.inodeTableStart.toNat)))
    fsSizeBlocks := UInt32.ofNat (max sb.fsSizeBlocks.toNat sb.dataBlocksStart.toNat) }

def DiskImage.inTable (img : DiskImage) : DiskImage := { img with sb := img.sb.inTable }

namespace Superblock

variable (sb : Superblock)

theorem inTable_inodeCount : sb.inTable.inodeCount.toNat
    = min sb.inodeCount.toNat (6 * (sb.dataBlocksStart.toNat - sb.inodeTableStart.toNat)) := by
  have hlt := sb.inodeCount.toNat_lt
  show (UInt32.ofNat _).toNat = _
  rw [UInt32.toNat_ofNat', Nat.mod_eq_of_lt (by omega)]

theorem inTable_fsSizeBlocks : sb.inTable.fsSizeBlocks.toNat
    = max sb.fsSizeBlocks.toNat sb.dataBlocksStart.toNat := by
  have hlt := sb.fsSizeBlocks.toNat_lt
  have hlt' := sb.dataBlocksStart.toNat_lt
  show (UInt32.ofNat _).toNat = _
  rw [UInt32.toNat_ofNat', Nat.mod_eq_of_lt (by omega)]

/-- A superblock all of whose regions have room is described as it is. -/
theorem inTable_eq (hcount : sb.inodeCount.toNat
      ≤ 6 * (sb.dataBlocksStart.toNat - sb.inodeTableStart.toNat))
    (hdata : sb.dataBlocksStart.toNat ≤ sb.fsSizeBlocks.toNat) : sb.inTable = sb := by
  have h1 : sb.inTable.inodeCount = sb.inodeCount := by
    apply UInt32.toNat.inj
    rw [inTable_inodeCount]
    omega
  have h2 : sb.inTable.fsSizeBlocks = sb.fsSizeBlocks := by
    apply UInt32.toNat.inj
    rw [inTable_fsSizeBlocks]
    omega
  unfold inTable at h1 h2 ⊢
  cases sb
  simp only at h1 h2
  rw [h1, h2]

end Superblock

/-! ## Writes to a file that may grow

A block past the end of the file makes it longer. -/

section

variable {img img' : DiskImage}

theorem writeBlock_put (img : DiskImage) (p : Nat) (b : Block) :
    writeBlock p b img = (.ok (), img.put (img.startLba + p) b) := by
  unfold writeBlock writeBytes
  rw [if_neg (by simp), img.sector_eq]

theorem DiskImage.put_disk (img : DiskImage) (p : Nat) (b : Block) (q : Nat) :
    (img.put (img.startLba + p) b).disk q
      = if q = p then b else if img.count ≤ img.startLba + q ∧ q < p then Buf.zero
        else img.disk q := by
  unfold DiskImage.disk DiskImage.put
  simp only [Nat.add_left_cancel_iff, Nat.add_lt_add_iff_left]

theorem edZeroBlocks_run (n i : Nat) :
    ∃ img', edZeroBlocks n i img = (.ok (), img') ∧ img'.sb = img.sb ∧ img'.startLba = img.startLba
      ∧ img.count ≤ img'.count ∧ (0 < n → img.startLba + i + n ≤ img'.count)
      ∧ (∀ q, q < i → img.startLba + q < img.count → img'.disk q = img.disk q)
      ∧ ∀ q, i ≤ q → q < i + n → img'.disk q = Buf.zero := by
  induction n generalizing i img with
  | zero =>
      exact ⟨img, rfl, rfl, rfl, Nat.le_refl _, fun h => absurd h (Nat.lt_irrefl 0),
        fun _ _ _ => rfl,
        fun q h1 h2 => absurd h2 (by omega)⟩
  | succ n ih =>
      have hlong : max img.count (img.startLba + i + 1)
          = (img.put (img.startLba + i) Buf.zero).count :=
        rfl
      have hdisk := img.put_disk i Buf.zero
      obtain ⟨img₁, hrun, hsb, hlba, hcount, hend, hkept, hzero⟩ :=
        @ih (img.put (img.startLba + i) Buf.zero) (i + 1)
      have hsame : (img.put (img.startLba + i) Buf.zero).startLba = img.startLba := rfl
      rw [hsame] at hlba hend hkept
      refine ⟨img₁, (Ed.run_bind_ok (writeBlock_put img i Buf.zero)).trans hrun, hsb, hlba, ?_,
        fun _ => ?_, fun q hq hin => ?_, fun q h1 h2 => ?_⟩
      · omega
      · rcases Nat.eq_zero_or_pos n with rfl | hn
        · omega
        · have := hend hn
          omega
      · rw [hkept q (by omega) (by omega), hdisk, if_neg (by omega), if_neg (by omega)]
      · rcases Nat.eq_or_lt_of_le h1 with rfl | hlt
        · rw [hkept i (by omega) (by omega), hdisk, if_pos rfl]
        · exact hzero q hlt (by omega)

/-! ## Volumes without pointers

A table in which no record has a pointer owns nothing, and stays so when a
record without pointers is written. -/

/-- No inode slot of the volume has a block pointer. -/
def Disk.NoRoots (d : Disk) (sb : Superblock) : Prop := ∀ i pos, (d.inodeAt sb i).root pos = 0

theorem Disk.NoRoots.owned {d : Disk} {sb : Superblock} (h : d.NoRoots sb) (hi : Nat) :
    OwnedVol sb hi d := by
  have hnull : ∀ s, volPtr (d.inodeAt sb) d s = 0 := fun s =>
    Disk.ptr_of_no_roots (h s.1) d s.2
  exact ⟨fun s h0 => absurd (hnull s) h0, fun s h0 => absurd (hnull s) h0,
    fun s h0 => absurd (hnull s) h0, fun s _ h0 => absurd (hnull s) h0⟩

variable {sb : Superblock} (L : SoundLayout sb)

include L

theorem SoundLayout.noRoots_zeroed {d : Disk} (hz : ∀ q, 1 ≤ q → q < sb.dataBlocksStart.toNat →
    d q = Buf.zero) : d.NoRoots sb := by
  intro i pos
  rw [(ownedVol_zeroed 0 L hz).2.1 i]
  cases pos <;> rfl

theorem SoundLayout.noRoots_congr {d d' : Disk} (h : d.NoRoots sb)
    (hd : ∀ q, sb.inodeTableStart.toNat ≤ q → q < sb.dataBlocksStart.toNat → d' q = d q) :
    d'.NoRoots sb := by
  intro i pos
  rcases em (sb.ValidIno i) with hv | hv
  · rw [Disk.inodeAt_congr (hd _ (L.le_inodeBlock hv) (L.inodeBlock_lt hv))]
    exact h i pos
  · rw [Disk.inodeAt_of_not_valid hv]
    cases pos <;> rfl

theorem SoundLayout.noRoots_slot {d d' : Disk} (h : d.NoRoots sb) {k : Nat} (hk : k < 2) {r : Inode}
    (hr : ∀ pos, r.root pos = 0)
    (hslot : d' sb.inodeTableStart.toNat
      = (d sb.inodeTableStart.toNat).patch (k * 76) 76 r.encode)
    (hd : ∀ q, sb.inodeTableStart.toNat < q → q < sb.dataBlocksStart.toNat → d' q = d q) :
    d'.NoRoots sb := by
  intro i pos
  rcases em (sb.ValidIno i) with hv | hv
  · have hblock := L.inodeBlock_eq hv
    have hlow := L.le_inodeBlock hv
    rcases Nat.eq_or_lt_of_le hlow with heq | hlt
    · have hoffset : inodeOffset i = (i - 1) % 6 * 76 := rfl
      have hsmall : (i - 1) / 6 = 0 := by omega
      have hrec : d'.inodeAt sb i = if i = k + 1 then r else d.inodeAt sb i := by
        rw [Disk.inodeAt, if_pos hv, ← heq, hslot]
        split
        · rename_i hik
          have hoff : inodeOffset i = k * 76 := by
            rw [hoffset]
            omega
          rw [hoff, Inode.decode_patch]
        · rename_i hik
          rw [Disk.inodeAt, if_pos hv, ← heq]
          refine Inode.decode_congr fun j hj1 hj2 => Buf.patch_out ?_
          have hpos := hv.1
          omega
      rw [hrec]
      split
      · exact hr pos
      · exact h i pos
    · rw [Disk.inodeAt_congr (hd _ hlt (L.inodeBlock_lt hv))]
      exact h i pos
  · rw [Disk.inodeAt_of_not_valid hv]
    cases pos <;> rfl

end

/-! ## The new volume

From the bytes that were written to the invariant of the runs. -/

/-- Block `p` of the file rewritten: the image is the same but for that block of the volume. -/
structure DiskImage.Rewrote (img : DiskImage) (p : Nat) (b : Block) (img' : DiskImage) : Prop where
  sb : img'.sb = img.sb
  startLba : img'.startLba = img.startLba
  count : img'.count = img.count
  at_block : img'.disk p = b
  other : ∀ q, q ≠ p → img'.disk q = img.disk q

section

variable {img img' : DiskImage}

theorem readBlock_holds {p : Nat} {b : Block} (h : readBlock p img = (.ok b, img')) :
    img.Holds p ∧ b = img.disk p ∧ img' = img := by
  rw [readBlock_eq] at h
  split at h
  · rename_i hin
    obtain ⟨hres, rfl⟩ := Prod.mk.inj h
    exact ⟨hin, (Except.ok.inj hres).symm, rfl⟩
  · cases (Prod.mk.inj h).1

theorem writeBlock_rewrote {p : Nat} {b : Block} (hin : img.Holds p)
    (h : writeBlock p b img = (.ok (), img')) : img.Rewrote p b img' := by
  unfold DiskImage.Holds at hin
  have hdisk := img.put_disk p b
  have hcount : (img.put (img.startLba + p) b).count = max img.count (img.startLba + p + 1) := rfl
  rw [writeBlock_put] at h
  obtain ⟨-, rfl⟩ := Prod.mk.inj h
  refine ⟨rfl, rfl, by omega, ?_, fun q hq => ?_⟩
  · rw [hdisk, if_pos rfl]
  · rw [hdisk, if_neg hq, if_neg (by omega)]

theorem edBitmapSet_rewrote {start bit : Nat} {v : Bool}
    (h : edBitmapSet start bit v img = (.ok (), img')) :
    ∃ b, img.Rewrote (start + bit / 8 / 512) b img' := by
  have hidx : (start : Int) + (bit : Int) / 8 / 512 = ((start + bit / 8 / 512 : Nat) : Int) := by
    push_cast
    rfl
  obtain ⟨buf, img₁, hread, hwrite⟩ := Ed.bind_ok h
  rw [hidx] at hread hwrite
  obtain ⟨hin, -, rfl⟩ := readBlock_holds hread
  exact ⟨_, writeBlock_rewrote hin hwrite⟩

/-- A record written to one of the first two slots, whether or not the superblock counts it. -/
theorem edWriteInode_rewrote {k : Nat} (hk : k < 2) {x : PyInode}
    (h : edWriteInode ((k + 1 : Nat) : Int) x img = (.ok (), img')) :
    ∃ packed, packInode x img = (.ok packed, img)
      ∧ img.Rewrote img.sb.inodeTableStart.toNat
        ((img.disk img.sb.inodeTableStart.toNat).patch (k * 76) 76 packed.encode) img' := by
  have hblock : slotBlock img.sb ((k + 1 : Nat) : Int) = (img.sb.inodeTableStart.toNat : Nat) := by
    unfold slotBlock
    omega
  have hoffset : slotOffset ((k + 1 : Nat) : Int) = k * 76 := by
    unfold slotOffset
    omega
  obtain ⟨sb, img₁, hsb, hrest⟩ := Ed.bind_ok h
  obtain ⟨hres, rfl⟩ := Prod.mk.inj hsb
  obtain rfl := Except.ok.inj hres
  rw [hblock, hoffset] at hrest
  obtain ⟨buf, img₂, hread, hpacked⟩ := Ed.bind_ok hrest
  obtain ⟨hin, rfl, rfl⟩ := readBlock_holds hread
  obtain ⟨packed, img₃, hpack, hwrite⟩ := Ed.bind_ok hpacked
  obtain rfl : img₃ = img₂ := Ed.Keeps.same (Ed.Keeps.ite (.pure _) (.raise _)) hpack
  exact ⟨packed, hpack, writeBlock_rewrote hin hwrite⟩

end

theorem packInode_directory (img : DiskImage) :
    packInode { PyInode.empty with mode := 1, linksCount := 1 } img
      = (.ok { Inode.zero with mode := 1, linksCount := 1 }, img) := by
  have hpack := packInode_ofInode { Inode.zero with mode := 1, linksCount := 1 } 0 img
  rw [if_pos (by decide)] at hpack
  exact hpack

/-- The layout that `format_disk` packs is sound over the slots of the table. -/
theorem EdLayout.Packed.sound {totalBlocks totalInodes : Nat} {sb : Superblock}
    (h : (EdLayout.of totalBlocks totalInodes).Packed totalBlocks totalInodes sb) :
    SoundLayout sb.inTable := by
  obtain ⟨hfs, hcount, hib, hbb, hit, hdb⟩ := h
  have hcount' := sb.inTable_inodeCount
  have hfs' := sb.inTable_fsSizeBlocks
  have hstart : (EdLayout.of totalBlocks totalInodes).inodeBitmapStart = 1 := rfl
  have hblock : (EdLayout.of totalBlocks totalInodes).blockBitmapStart
      = 1 + (totalInodes + 4095) / 4096 := rfl
  have htable : (EdLayout.of totalBlocks totalInodes).inodeTableStart
      = 1 + (totalInodes + 4095) / 4096 + (totalBlocks + 4095) / 4096 := rfl
  have hdata : (EdLayout.of totalBlocks totalInodes).dataBlocksStart
      = (EdLayout.of totalBlocks totalInodes).inodeTableStart + (totalInodes * 76 + 511) / 512 :=
        rfl
  refine ⟨?_, ?_, ?_, ?_, ?_⟩
  · show 1 ≤ sb.inodeBitmapStart.toNat
    omega
  · show sb.inodeBitmapStart.toNat + _ ≤ sb.blockBitmapStart.toNat
    omega
  · show sb.blockBitmapStart.toNat
      + (sb.inTable.fsSizeBlocks.toNat - sb.dataBlocksStart.toNat + 4095) / 4096
      ≤ sb.inodeTableStart.toNat
    omega
  · show sb.inodeTableStart.toNat + _ ≤ sb.dataBlocksStart.toNat
    omega
  · show sb.dataBlocksStart.toNat ≤ _
    omega

/-- What a `format_disk` that returns leaves: a sound layout over the slots of the table, no
pointers, and a file that is long enough. -/
theorem formatDisk_sound {totalInodes : Nat} {img img' : DiskImage}
    (h : formatDisk totalInodes img = (.ok (), img')) : img'.inTable.Sound := by
  unfold formatDisk at h
  split at h
  · cases (Prod.mk.inj h).1
  rename_i hsize
  obtain ⟨sb, img₁, hpack, hset⟩ := Ed.bind_ok h
  obtain ⟨_, img₂, hsb, hsuper⟩ := Ed.bind_ok hset
  obtain ⟨_, img₃, hblock, hzeros⟩ := Ed.bind_ok hsuper
  obtain ⟨_, img₄, hzeroed, hbit⟩ := Ed.bind_ok hzeros
  obtain ⟨_, img₅, hroot, hinode⟩ := Ed.bind_ok hbit
  obtain ⟨_, img₆, hfirst, hbit₂⟩ := Ed.bind_ok hinode
  obtain ⟨_, img₇, happ, hsecond⟩ := Ed.bind_ok hbit₂
  clear h hset hsuper hzeros hbit hinode hbit₂
  -- the superblock that was packed
  obtain ⟨hpacked, rfl⟩ := packSuperblock_packed hpack
  have L := hpacked.sound
  have hblocks := hpacked.blocks
  have hit := hpacked.inodeTable
  have hdb := hpacked.data
  have hfs := sb.inTable_fsSizeBlocks
  have hstart : (EdLayout.of (img₁.count - img₁.startLba) totalInodes).inodeBitmapStart = 1 := rfl
  have htable : 1 < (EdLayout.of (img₁.count - img₁.startLba) totalInodes).inodeTableStart := by
    show 1 < 1 + (totalInodes + 4095) / 4096 + (img₁.count - img₁.startLba + 4095) / 4096
    omega
  generalize EdLayout.of _ totalInodes = l at *
  have hregion : l.dataBlocksStart = l.inodeTableStart + l.inodeTableBlocks := rfl
  obtain ⟨-, rfl⟩ := Prod.mk.inj hsb
  -- the blocks, one write after the other
  have hsup := (Prod.mk.inj (hblock.symm.trans (writeBlock_put _ 0 _))).2
  obtain ⟨img₄', hrun, hsb₄, hlba₄, hcount₄, hend₄, -, hzero⟩ :=
    @edZeroBlocks_run img₃ (l.inodeTableStart + l.inodeTableBlocks - l.inodeBitmapStart)
      l.inodeBitmapStart
  rw [hzeroed] at hrun
  obtain rfl := (Prod.mk.inj hrun).2
  obtain ⟨b, hw₅⟩ := @edBitmapSet_rewrote _ _ _ 0 _ hroot
  obtain ⟨packed, hp, hw₆⟩ := edWriteInode_rewrote (k := 0) (by decide) hfirst
  obtain ⟨b', hw₇⟩ := @edBitmapSet_rewrote _ _ _ 1 _ happ
  obtain ⟨packed', hp', hw₈⟩ := edWriteInode_rewrote (k := 1) (by decide) hsecond
  rw [packInode_directory] at hp hp'
  obtain rfl := Except.ok.inj (Prod.mk.inj hp).1
  obtain rfl := Except.ok.inj (Prod.mk.inj hp').1
  have hsb₃ : img₃.sb = sb := by rw [hsup]; rfl
  have hlba₃ : img₃.startLba = img₁.startLba := by rw [hsup]; rfl
  have hcount₃ : img₁.count ≤ img₃.count := by
    rw [hsup]
    exact Nat.le_max_left _ _
  have hsb₅ : img₅.sb = sb := by rw [hw₅.sb, hsb₄, hsb₃]
  have hsb₇ : img₇.sb = sb := by rw [hw₇.sb, hw₆.sb, hsb₅]
  have hsb₈ : img'.sb = sb := by rw [hw₈.sb, hsb₇]
  have hroots : ∀ pos, ({ Inode.zero with mode := 1, linksCount := 1 } : Inode).root pos = 0 :=
    fun pos => by cases pos <;> rfl
  rw [hsb₅] at hw₆
  rw [hsb₇] at hw₈
  have hR₄ : img₄.disk.NoRoots sb.inTable := L.noRoots_zeroed fun q h1 h2 => by
    have h3 : q < sb.dataBlocksStart.toNat := h2
    exact hzero q (by omega) (by omega)
  have hR₅ : img₅.disk.NoRoots sb.inTable := L.noRoots_congr hR₄ fun q h1 h2 => by
    have h3 : sb.inodeTableStart.toNat ≤ q := h1
    exact hw₅.other q (by omega)
  have hR₆ : img₆.disk.NoRoots sb.inTable := L.noRoots_slot hR₅ (by decide : 0 < 2) hroots
    hw₆.at_block fun q h1 _ => hw₆.other q (Nat.ne_of_gt h1)
  have hR₇ : img₇.disk.NoRoots sb.inTable := L.noRoots_congr hR₆ fun q h1 h2 => by
    have h3 : sb.inodeTableStart.toNat ≤ q := h1
    exact hw₇.other q (by omega)
  have hR₈ : img'.disk.NoRoots sb.inTable := L.noRoots_slot hR₇ (by decide : 1 < 2) hroots
    hw₈.at_block fun q h1 _ => hw₈.other q (Nat.ne_of_gt h1)
  have hsbT : img'.inTable.sb = sb.inTable := congrArg Superblock.inTable hsb₈
  have hlba' : img'.startLba = img₁.startLba := by
    rw [hw₈.startLba, hw₇.startLba, hw₆.startLba, hw₅.startLba, hlba₄, hlba₃]
  have hcount₈ : img'.count = img₄.count := by rw [hw₈.count, hw₇.count, hw₆.count, hw₅.count]
  refine ⟨⟨?_, ?_⟩, ?_⟩
  · rw [hsbT]
    exact L
  · rw [hsbT]
    show img'.startLba + _ ≤ img'.count
    omega
  · rw [hsbT]
    exact hR₈.owned _

theorem formatDisk_inTable {totalInodes : Nat} {img img' : DiskImage}
    (ht : TableCount totalInodes) (h : formatDisk totalInodes img = (.ok (), img')) :
    img'.inTable = img' := by
  obtain ⟨hcount, hit, hds, hfs⟩ := formatDisk_sb h
  have hlong : img.startLba + 100 ≤ img.count := by
    by_contra hc
    rw [formatDisk, if_pos (by omega)] at h
    cases (Prod.mk.inj h).1
  have hslots := (tableCount_iff totalInodes).mpr ht
  have hmax : totalInodes ≤ 54 := by
    unfold TableCount at ht
    omega
  have hregion : img'.sb.dataBlocksStart.toNat
      = img'.sb.inodeTableStart.toNat + (totalInodes * 76 + 511) / 512 := by
    rw [hds, hit]
    rfl
  unfold EdLayout.of at hit
  dsimp only at hit
  have hsb : img'.sb.inTable = img'.sb := Superblock.inTable_eq _ (by omega) (by omega)
  unfold DiskImage.inTable
  rw [hsb]

/-! ## Runs on a new volume

The image after a list of commands, for the examples. -/

theorem run_of_toOption {α : Type} {x : Ed α} (hx : Ed.Keeps (fun img : DiskImage => img) x)
    {img : DiskImage} {a : α} (h : (x img).1.toOption = some a) : x img = (.ok a, img) := by
  have hsame : (x img).2 = img := hx img
  rcases hrun : x img with ⟨e | b, img'⟩
  · rw [hrun] at h
    cases h
  · rw [hrun] at h hsame
    rw [Option.some.inj h]
    exact congrArg (Prod.mk _) hsame

/-- The image after some commands on a new volume for six inodes. -/
def imageAfter (cs : List EdCommand) : DiskImage :=
  cs.foldl (fun img c => (c.run img).2) (formatDisk 6 blankImage).2

theorem edStep_imageAfter {cs : List EdCommand} {c : EdCommand}
    (h : (c.run (imageAfter cs)).1.isOk = true) :
    edStep c (imageAfter cs) = some (imageAfter (cs ++ [c])) := by
  have hlast : imageAfter (cs ++ [c]) = (c.run (imageAfter cs)).2 := by
    unfold imageAfter
    rw [List.foldl_concat]
  rw [edStep, if_pos h, hlast]

end IpoOs
