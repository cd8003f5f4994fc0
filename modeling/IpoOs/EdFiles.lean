import IpoOs.EdFill
import IpoOs.EdNames

/-!
# Files as the editor reads and writes them

The blocks of a file, with zeros where none is mapped: an allocating walk
does not change them, and a write to one of them changes that one. The
loops of the editor go over whole blocks, so what they read and write is
stated of blocks, not of bytes.

Holes are zeros here, which is what the editor's loops make of them after an
allocation; before one they are reads of the index -1, and the lemmas about
reading ask for blocks that are mapped.
-/

namespace IpoOs

/-- A logical index that a block is linked for. -/
def Disk.Mapped (d : Disk) (r : Inode) (c : Nat) : Prop :=
  ∃ pos, posOf c = some pos ∧ d.ptr r pos ≠ 0

/-- Block `c` of a file, zero where none is mapped. -/
def Disk.blockAt (d : Disk) (r : Inode) (c : Nat) : Block :=
  match posOf c with
  | none => Buf.zero
  | some pos => if d.ptr r pos = 0 then Buf.zero else d (d.ptr r pos)

/-- The first `n` blocks of a file. -/
def Disk.blocks (d : Disk) (r : Inode) (n : Nat) : List Block := (List.range n).map (d.blockAt r)

section

variable {d d' : Disk} {r r' : Inode}

theorem Disk.length_blocks (d : Disk) (r : Inode) (n : Nat) : (d.blocks r n).length = n := by
  rw [Disk.blocks, List.length_map, List.length_range]

theorem Disk.blockAt_of {c : Nat} {pos : Pos} (hpos : posOf c = some pos) (h0 : d.ptr r pos ≠ 0) :
    d.blockAt r c = d (d.ptr r pos) := by
  rw [Disk.blockAt, hpos]
  exact if_neg h0

theorem Disk.blockAt_null {c : Nat} (h : ¬ d.Mapped r c) : d.blockAt r c = Buf.zero := by
  unfold Disk.blockAt
  cases hpos : posOf c with
  | none => rfl
  | some pos => exact if_pos (by_contra fun h0 => h ⟨pos, hpos, h0⟩)

theorem SameFile.mapped (h : SameFile d r d' r') (c : Nat) : d'.Mapped r' c ↔ d.Mapped r c := by
  simp only [Disk.Mapped, h.ptr]

theorem SameFile.blockAt (h : SameFile d r d' r') (c : Nat) : d'.blockAt r' c = d.blockAt r c := by
  by_cases hm : d.Mapped r c
  · obtain ⟨pos, hpos, h0⟩ := hm
    rw [Disk.blockAt_of hpos h0, Disk.blockAt_of hpos (by rwa [h.ptr]), h.ptr, h.block pos h0]
  · rw [Disk.blockAt_null hm, Disk.blockAt_null (fun hc => hm ((h.mapped c).mp hc))]

theorem KeepsMap.mapped (h : KeepsMap d r d' r') {c : Nat} (hm : d.Mapped r c) :
    d'.Mapped r' c := by
  obtain ⟨pos, hpos, h0⟩ := hm
  exact ⟨pos, hpos, by rwa [h pos h0]⟩

variable {sb : Superblock} {hi : Nat} {T : Nat → Inode} {ino : Nat} {A : Pos → Prop}

theorem Grew.blockAt (O : VolOwned sb hi d (Function.update T ino r))
    (h : Grew sb hi T ino A r d r' d') (c : Nat) : d'.blockAt r' c = d.blockAt r c := by
  by_cases hm : d.Mapped r c
  · obtain ⟨pos, hpos, h0⟩ := hm
    have hk := h.ptr_kept h0
    rw [Disk.blockAt_of hpos h0, Disk.blockAt_of hpos (by rwa [hk]), hk,
      h.data_kept O (isTable_posOf hpos) h0]
  · rw [Disk.blockAt_null hm]
    by_cases hm' : d'.Mapped r' c
    · obtain ⟨pos, hpos, h0⟩ := hm'
      have hnull : d.ptr r pos = 0 := by_contra fun hc => hm ⟨pos, hpos, hc⟩
      rw [Disk.blockAt_of hpos h0, h.zero pos (isTable_posOf hpos) hnull h0]
    · exact Disk.blockAt_null hm'

theorem VolOwned.ptr_set (O : VolOwned sb hi d (Function.update T ino r)) {pos : Pos}
    (hpos : pos.isTable = false) (h0 : d.ptr r pos ≠ 0) (b : Block) (s : Pos) :
    (d.set (d.ptr r pos) b).ptr r s = d.ptr r s := by
  have hvol : volPtr (Function.update T ino r) d (ino, pos) ≠ 0 := by
    rw [volPtr_self]
    exact h0
  have hv := O.volPtr_set hvol hpos b
  rw [volPtr_self] at hv
  rw [← @volPtr_self T ino, hv, volPtr_self]

theorem VolOwned.blockAt_set (O : VolOwned sb hi d (Function.update T ino r)) {l : Nat} {pos : Pos}
    (hpos : posOf l = some pos) (h0 : d.ptr r pos ≠ 0) (b : Block) (c : Nat) :
    (d.set (d.ptr r pos) b).blockAt r c = if c = l then b else d.blockAt r c := by
  have hptr := O.ptr_set (isTable_posOf hpos) h0 b
  rcases em (c = l) with rfl | hcl
  · rw [if_pos rfl, Disk.blockAt_of hpos (by rwa [hptr]), hptr, Disk.set_self]
  · rw [if_neg hcl]
    have hmapped : (d.set (d.ptr r pos) b).Mapped r c ↔ d.Mapped r c := by
      simp only [Disk.Mapped, hptr]
    by_cases hm : d.Mapped r c
    · obtain ⟨s, hs, hs0⟩ := hm
      have hne : d.ptr r s ≠ d.ptr r pos := by
        intro hc
        have hinj := O.inj (ino, s) (ino, pos) (by rwa [volPtr_self])
          (by rw [volPtr_self, volPtr_self, hc])
        rw [(Prod.mk.inj hinj).2] at hs
        exact hcl (posOf_inj hs hpos)
      rw [Disk.blockAt_of hs hs0, Disk.blockAt_of hs (by rwa [hptr]), hptr, Disk.set_of_ne hne]
    · rw [Disk.blockAt_null hm, Disk.blockAt_null (fun hc => hm (hmapped.mp hc))]

end

/-! ## The loops that read

The blocks of a file one after another, up to a given count. -/

section

variable {img : DiskImage} (W : img.Whole) {r : Inode}
  (hbelow : ∀ pos, img.disk.ptr r pos < img.sb.fsSizeBlocks.toNat)

include W hbelow

theorem edGetBlock_at {c : Nat} (hm : img.disk.Mapped r c) :
    ∃ p : Nat, edGetBlockForInode (PyInode.ofInode r) c false img
        = (.ok ((p : Int), PyInode.ofInode r), img)
      ∧ readBlock p img = (.ok (img.disk.blockAt r c), img) := by
  obtain ⟨pos, hpos, h0⟩ := hm
  have hwalk : img.Walkable r pos := fun t _ => W.holds (hbelow t)
  have hget := @edGetBlock_mapped img r c pos hpos h0
  rw [if_pos hwalk] at hget
  refine ⟨img.disk.ptr r pos, hget, ?_⟩
  rw [readBlock_run W (hbelow pos), Disk.blockAt_of hpos h0]

theorem edGetSingle_hole {pos t : Pos} (hpos : pos.parent = some t) (ht : img.disk.ptr r t ≠ 0)
    (h0 : img.disk.ptr r pos = 0) :
    edGetSingle (img.disk.ptr r t) pos.index false img = (.ok (-1), img) := by
  rw [Disk.ptr_child hpos, Disk.entry, if_neg ht] at h0
  have hword : (img.disk (img.disk.ptr r t)).word (4 * pos.index) = 0 := UInt32.toNat.inj h0
  unfold edGetSingle
  rw [Ed.run_bind_ok (readBlock_run W (hbelow t))]
  unfold edPointerEntry
  rw [if_pos hword]
  rfl

theorem edGetBlock_hole {c : Nat} (h : ¬ img.disk.Mapped r c) :
    edGetBlockForInode (PyInode.ofInode r) c false img = (.ok (-1, PyInode.ofInode r), img) := by
  have hnull : ∀ pos, posOf c = some pos → img.disk.ptr r pos = 0 := fun pos hpos =>
    by_contra fun h0 => h ⟨pos, hpos, h0⟩
  unfold edGetBlockForInode
  unfold posOf at hnull
  rcases em (c < 6) with h6 | h6
  · rw [dif_pos h6] at hnull ⊢
    have hfield : (PyInode.ofInode r).direct ⟨c, h6⟩ = 0 := congrArg Int.ofNat (hnull _ rfl)
    unfold edGetDirect
    rw [if_pos hfield]
    rfl
  · rw [dif_neg h6] at hnull ⊢
    rcases em (c - 6 < 128) with h128 | h128
    · rw [dif_pos h128] at hnull
      rw [if_pos h128]
      unfold edGetIndirect
      rcases em (r.indirect.toNat = 0) with hroot | hroot
      · have hfield : (PyInode.ofInode r).indirect = 0 := congrArg Int.ofNat hroot
        rw [hfield]
        rfl
      · have hparent : (Pos.single ⟨c - 6, h128⟩).parent = some .indirect := rfl
        have hsingle := edGetSingle_hole W hbelow hparent hroot (hnull _ rfl)
        refine (Ed.run_bind_ok (edRootTable_mapped hroot false)).trans ?_
        exact Ed.run_bind_ok hsingle
    · rw [dif_neg h128] at hnull
      rw [if_neg h128]
      rcases em (c - 134 < 16384) with hbig | hbig
      · rw [dif_pos hbig] at hnull
        rw [if_neg (by omega)]
        have hsub : c - 6 - 128 = c - 134 := by omega
        rw [hsub]
        unfold edGetDouble
        rcases em (r.doubleIndirect.toNat = 0) with hroot | hroot
        · have hfield : (PyInode.ofInode r).doubleIndirect = 0 := congrArg Int.ofNat hroot
          rw [hfield]
          rfl
        · refine (Ed.run_bind_ok (edRootTable_mapped hroot false)).trans ?_
          refine @Ed.run_bind_ok _ _ _ _ img img (-1) ?_
          unfold edGetLeaf
          have hread : readBlock r.doubleIndirect.toNat img
              = (.ok (img.disk r.doubleIndirect.toNat), img) := readBlock_run W (hbelow .double)
          refine (Ed.run_bind_ok hread).trans ?_
          have hentry : img.disk.ptr r (.table ⟨(c - 134) / 128, by omega⟩)
              = ((img.disk r.doubleIndirect.toNat).word (4 * ((c - 134) / 128))).toNat := by
            rw [Disk.ptr, Disk.entry, if_neg hroot]
          rcases em ((img.disk r.doubleIndirect.toNat).word (4 * ((c - 134) / 128)) = 0)
            with h0 | h0
          · unfold edGetTable
            rw [if_pos h0]
            rfl
          · have hne : img.disk.ptr r (.table ⟨(c - 134) / 128, by omega⟩) ≠ 0 := by
              rw [hentry]
              exact fun hc => h0 (UInt32.toNat.inj hc)
            have hparent : (Pos.leaf ⟨(c - 134) / 128, by omega⟩ ⟨(c - 134) % 128, by omega⟩).parent
                = some (.table ⟨(c - 134) / 128, by omega⟩) := rfl
            have hsingle := edGetSingle_hole W hbelow hparent hne (hnull _ rfl)
            rw [hentry] at hsingle
            unfold edGetTable
            rw [if_neg h0]
            exact hsingle
      · rw [if_pos (by omega)]
        rfl

/-- The block loop of `dir_entries` over blocks that are mapped. -/
theorem edReadBlocks_mapped (n b : Nat) (hm : ∀ c, b ≤ c → c < b + n → img.disk.Mapped r c) :
    edReadBlocks (PyInode.ofInode r) n b img
      = (.ok ((List.range' b n).map (img.disk.blockAt r)), img) := by
  induction n generalizing b with
  | zero => rfl
  | succ n ih =>
      obtain ⟨p, hget, hread⟩ := edGetBlock_at W hbelow (hm b (Nat.le_refl b) (by omega))
      have hrest := ih (b + 1) fun c h1 h2 => hm c (by omega) (by omega)
      unfold edReadBlocks
      rw [Ed.run_bind_ok hget]
      show ((if (p : Int) < 0 then _ else _ : Ed _) img) = _
      rw [if_neg (Int.not_lt.mpr (Int.natCast_nonneg p)), Ed.run_bind_ok hread,
        Ed.run_bind_ok hrest, List.range'_succ, List.map_cons]
      rfl

end

/-! ## Records written

A record that is packed and written back is the record of the kernel, with
the size cut to a word. -/

/-- A record as the editor packs it: another size, and the padding zeroed. -/
def Inode.packed (r : Inode) (size : UInt32) : Inode := { r with size := size, pad := fun _ => 0 }

theorem Inode.root_packed (r : Inode) (size : UInt32) : (r.packed size).root = r.root := by
  funext pos
  cases pos <;> rfl

theorem packWord_natCast (n : UInt32) : packWord (n.toNat : Nat) = n := by
  unfold packWord
  rw [Int.toNat_natCast, UInt32.ofNat_toNat]

theorem packInode_ofInode (r : Inode) (size : Nat) (img : DiskImage) :
    packInode { PyInode.ofInode r with size := size } img
      = if size < 4294967296 then (.ok (r.packed (UInt32.ofNat size)), img)
        else (.error .struct, img) := by
  have hword : ∀ w : UInt32, fitsWord (w.toNat : Nat) := fun w => by
    have hlt := w.toNat_lt
    exact ⟨Int.natCast_nonneg _, by omega⟩
  unfold packInode
  rcases em (size < 4294967296) with hlt | hge
  · have hfits : fitsWord (size : Nat) := ⟨Int.natCast_nonneg _, by omega⟩
    rw [if_pos hlt, if_pos ⟨hword _, hfits, hword _, fun i => hword _, hword _, hword _⟩]
    simp only [PyInode.ofInode, packWord_natCast, Ed.run_pure, Inode.packed]
    rfl
  · have hfits : ¬ fitsWord (size : Nat) := fun h => hge (by
      have hlt := h.2
      omega)
    rw [if_neg hge, if_neg fun h => hfits h.2.1]
    rfl

theorem edWriteInode_run {img : DiskImage} (W : img.Whole) {ino : Nat} (hv : img.sb.ValidIno ino)
    {r : PyInode} {packed : Inode} (hpack : packInode r img = (.ok packed, img)) :
    edWriteInode ino r img = (.ok (), img.withDisk (img.disk.putInode img.sb ino packed)) := by
  have h1 := hv.1
  have hoffset : slotOffset ino = inodeOffset ino := by
    unfold slotOffset inodeOffset
    omega
  have hblock : slotBlock img.sb ino = (inodeBlock img.sb ino : Nat) := by
    rw [W.sound.inodeBlock_eq hv]
    unfold slotBlock
    omega
  have hlt : inodeBlock img.sb ino < img.sb.fsSizeBlocks.toNat :=
    Nat.lt_of_lt_of_le (W.sound.inodeBlock_lt hv) W.sound.data
  unfold edWriteInode
  rw [Ed.run_bind_ok (superblock_run img), hblock, hoffset, Ed.run_bind_ok (readBlock_run W hlt),
    Ed.run_bind_ok hpack, writeBlock_run W hlt]
  rfl

end IpoOs
