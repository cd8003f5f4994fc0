import IpoOs.EdAgree
import IpoOs.EdCommands
import IpoOs.FsFree

/-!
# Block ownership under the editor's block map

An allocating walk of the editor that returns did what the kernel's does:
it linked free blocks, or an allocation failed at a field of the record.
The field is then the index `-1`, and such a dictionary is `Broken`: it
stays so, and packing it raises. Writes at the index `-1` land in the
sector before the volume, so what is stated of an image after a command
is its volume, not all of its sectors.

The editor keeps its dictionary in memory until the end of a command, and an
allocation that failed midway is noticed only then. The two cases are kept
side by side in `EdGrew`, so that a command is followed to its end in either
of them.
-/

namespace IpoOs

/-! ## Images after a command

The volume of the image after a command, whatever happened in the sector
before it. -/

/-- The image after something was done to its volume and perhaps to sectors outside. -/
structure DiskImage.Becomes (img : DiskImage) (d : Disk) (img' : DiskImage) : Prop where
  disk : img'.disk = d
  sb : img'.sb = img.sb
  startLba : img'.startLba = img.startLba
  count : img.count ≤ img'.count

namespace DiskImage.Becomes

variable {img img' img'' : DiskImage} {d d' : Disk}

theorem refl (img : DiskImage) : img.Becomes img.disk img := ⟨rfl, rfl, rfl, Nat.le_refl _⟩

theorem withDisk (img : DiskImage) (d : Disk) : img.Becomes d (img.withDisk d) :=
  ⟨DiskImage.disk_withDisk img d, rfl, rfl, Nat.le_refl _⟩

theorem trans (h : img.Becomes d img') (h' : img'.Becomes d' img'') : img.Becomes d' img'' where
  disk := h'.disk
  sb := h'.sb.trans h.sb
  startLba := h'.startLba.trans h.startLba
  count := Nat.le_trans h.count h'.count

theorem whole (h : img.Becomes d img') (W : img.Whole) : img'.Whole where
  sound := h.sb ▸ W.sound
  covered := by
    rw [h.startLba, h.sb]
    exact Nat.le_trans W.covered h.count

end DiskImage.Becomes

theorem writeBlock_before {img img' : DiskImage} {idx : Int} {b : Block} (hidx : idx < 0)
    (h : writeBlock idx b img = (.ok (), img')) : img.Becomes img.disk img' := by
  unfold writeBlock writeBytes at h
  rw [if_neg (by decide)] at h
  cases hs : img.sector idx with
  | none =>
      rw [hs] at h
      cases (Prod.mk.inj h).1
  | some q =>
      rw [hs] at h
      obtain rfl := (Prod.mk.inj h).2
      unfold DiskImage.sector at hs
      split at hs
      · rename_i hge
        have hq : (img.startLba + idx).toNat = q := Option.some.inj hs
        refine ⟨?_, rfl, rfl, Nat.le_max_left _ _⟩
        funext i
        show (if img.startLba + i = q then b
          else if img.count ≤ img.startLba + i ∧ img.startLba + i < q then Buf.zero
          else img.sectors (img.startLba + i)) = img.sectors (img.startLba + i)
        rw [if_neg (by omega), if_neg (by omega)]
      · cases hs

/-! ## Dictionaries that do not pack

A record with the index -1 in a pointer field raises when it is packed, and
every walk leaves it so. -/

/-- A pointer field holds the index of a failed allocation. -/
def PyInode.Broken (r : PyInode) : Prop :=
  (∃ i, r.direct i < 0) ∨ r.indirect < 0 ∨ r.doubleIndirect < 0

theorem PyInode.Broken.raises {r : PyInode} (h : r.Broken) {img img' : DiskImage} {a : Inode} :
    packInode r img ≠ (.ok a, img') := by
  intro hrun
  unfold packInode at hrun
  rw [Ed.run_ite] at hrun
  split at hrun
  · rename_i hfits
    obtain ⟨-, -, -, hdir, hind, hdbl⟩ := hfits
    rcases h with ⟨i, hneg⟩ | hneg | hneg
    · exact absurd (hdir i).1 (Int.not_le.mpr hneg)
    · exact absurd hind.1 (Int.not_le.mpr hneg)
    · exact absurd hdbl.1 (Int.not_le.mpr hneg)
  · cases (Prod.mk.inj hrun).1

theorem edWriteInode_broken {ino : Int} {r : PyInode} (h : r.Broken) {img img' : DiskImage} :
    edWriteInode ino r img ≠ (.ok (), img') := by
  intro hrun
  obtain ⟨sb, img₁, -, hrun⟩ := Ed.bind_ok hrun
  obtain ⟨buf, img₂, -, hrun⟩ := Ed.bind_ok hrun
  obtain ⟨packed, img₃, hpack, -⟩ := Ed.bind_ok hrun
  exact h.raises hpack

theorem edRootTable_some {field block : Int} {alloc : Bool} {img img' : DiskImage}
    (h : edRootTable field alloc img = (.ok (some block), img')) (hne : field ≠ 0) :
    block = field := by
  unfold edRootTable at h
  rw [if_neg hne] at h
  exact (Option.some.inj (Except.ok.inj (Prod.mk.inj h).1)).symm

/-- The block map does not take the index of a failed allocation back. -/
theorem edGetBlock_broken {inode inode' : PyInode} {l : Nat} {alloc : Bool} {p : Int}
    {img img' : DiskImage} (h : edGetBlockForInode inode l alloc img = (.ok (p, inode'), img'))
    (hb : inode.Broken) : inode'.Broken := by
  unfold edGetBlockForInode at h
  split at h
  · rename_i h6
    unfold edGetDirect at h
    split at h
    · rename_i h0
      split at h
      · obtain ⟨ptr, img₁, -, h⟩ := Ed.bind_ok h
        obtain ⟨-, rfl⟩ := Prod.mk.inj (Except.ok.inj (Prod.mk.inj h).1)
        refine hb.imp_left ?_
        rintro ⟨i, hneg⟩
        refine ⟨i, ?_⟩
        have hne : i.val ≠ l := by
          intro hc
          have hi : i = ⟨l, h6⟩ := Fin.ext hc
          rw [hi, h0] at hneg
          exact absurd hneg (Int.lt_irrefl 0)
        show (if i.val = l then ptr else inode.direct i) < 0
        rwa [if_neg hne]
      · obtain ⟨-, rfl⟩ := Prod.mk.inj (Except.ok.inj (Prod.mk.inj h).1)
        exact hb
    · obtain ⟨-, rfl⟩ := Prod.mk.inj (Except.ok.inj (Prod.mk.inj h).1)
      exact hb
  · split at h
    · obtain ⟨root, img₁, hroot, h⟩ := Ed.bind_ok h
      cases root with
      | none =>
          obtain ⟨-, rfl⟩ := Prod.mk.inj (Except.ok.inj (Prod.mk.inj h).1)
          exact hb
      | some block =>
          obtain ⟨ptr, img₂, -, h⟩ := Ed.bind_ok h
          obtain ⟨-, rfl⟩ := Prod.mk.inj (Except.ok.inj (Prod.mk.inj h).1)
          refine hb.imp_right (Or.imp_left ?_)
          intro hneg
          have hsame := edRootTable_some hroot (by omega)
          exact hsame ▸ hneg
    · split at h
      · obtain ⟨-, rfl⟩ := Prod.mk.inj (Except.ok.inj (Prod.mk.inj h).1)
        exact hb
      · obtain ⟨root, img₁, hroot, h⟩ := Ed.bind_ok h
        cases root with
        | none =>
            obtain ⟨-, rfl⟩ := Prod.mk.inj (Except.ok.inj (Prod.mk.inj h).1)
            exact hb
        | some block =>
            obtain ⟨ptr, img₂, -, h⟩ := Ed.bind_ok h
            obtain ⟨-, rfl⟩ := Prod.mk.inj (Except.ok.inj (Prod.mk.inj h).1)
            refine hb.imp_right (Or.imp_right ?_)
            intro hneg
            have hsame := edRootTable_some hroot (by omega)
            exact hsame ▸ hneg

/-! ## Allocation

The editor's allocation on a whole image. -/

section

variable {img img' : DiskImage} (W : img.Whole)

include W

theorem edAllocateBlockFrom_run (n i : Nat)
    (hn : img.sb.dataBlocksStart.toNat + i + n ≤ img.sb.fsSizeBlocks.toNat) :
    (∃ k, i ≤ k ∧ k < i + n ∧ img.disk.bit img.sb.blockBitmapStart.toNat k = false
      ∧ edAllocateBlockFrom img.sb n i img
        = (.ok ((img.sb.dataBlocksStart.toNat + k : Nat) : Int),
            img.withDisk ((img.disk.setBit img.sb.blockBitmapStart.toNat k true).set
              (img.sb.dataBlocksStart.toNat + k) Buf.zero)))
    ∨ ((∀ j, i ≤ j → j < i + n → img.disk.bit img.sb.blockBitmapStart.toNat j = true)
      ∧ edAllocateBlockFrom img.sb n i img = (.ok (-1), img)) := by
  have h1 := W.sound.blockBitmap
  have h2 := W.sound.inodeTable
  induction n generalizing i with
  | zero => exact Or.inr ⟨fun j h3 h4 => by omega, rfl⟩
  | succ n ih =>
      have hget := edBitmapGet_run W
        (show img.sb.blockBitmapStart.toNat + i / 8 / 512 < img.sb.fsSizeBlocks.toNat by omega)
      cases hb : img.disk.bit img.sb.blockBitmapStart.toNat i with
      | false =>
          rw [hb] at hget
          refine Or.inl ⟨i, Nat.le_refl i, by omega, hb, ?_⟩
          have hset := edBitmapSet_run W
            (show img.sb.blockBitmapStart.toNat + i / 8 / 512 < img.sb.fsSizeBlocks.toNat by omega)
            true
          have hzero := writeBlock_withDisk W
            (show img.sb.dataBlocksStart.toNat + i < img.sb.fsSizeBlocks.toNat by omega)
            (img.disk.setBit img.sb.blockBitmapStart.toNat i true) Buf.zero
          unfold edAllocateBlockFrom
          refine (Ed.run_bind_ok hget).trans ((Ed.run_bind_ok hset).trans ?_)
          exact Ed.run_bind_ok hzero
      | true =>
          rw [hb] at hget
          have hstep : edAllocateBlockFrom img.sb (n + 1) i img
              = edAllocateBlockFrom img.sb n (i + 1) img := by
            unfold edAllocateBlockFrom
            exact (Ed.run_bind_ok hget).trans (by cases n <;> rfl)
          rw [hstep]
          rcases ih (i + 1) (by omega) with ⟨k, h3, h4, h5, h6⟩ | ⟨h3, h4⟩
          · exact Or.inl ⟨k, by omega, by omega, h5, h6⟩
          · refine Or.inr ⟨fun j h5 h6 => ?_, h4⟩
            rcases Nat.eq_or_lt_of_le h5 with rfl | hlt
            · exact hb
            · exact h3 j hlt (by omega)

/-- `allocate_block` takes a free data block, or finds none and returns the index `-1`. -/
theorem edAllocateBlock_run :
    (∃ p, img.sb.DataBlock p ∧ img.disk.blockUsed img.sb p = false
      ∧ edAllocateBlock img = (.ok (p : Int), img.withDisk (img.disk.takeBlock img.sb p)))
    ∨ ((∀ p, img.sb.DataBlock p → img.disk.blockUsed img.sb p = true)
      ∧ edAllocateBlock img = (.ok (-1), img)) := by
  have hdata := W.sound.data
  have hfrom := edAllocateBlockFrom_run W
    (img.sb.fsSizeBlocks.toNat - img.sb.dataBlocksStart.toNat) 0 (by omega)
  have hrun : edAllocateBlock img = edAllocateBlockFrom img.sb
      (img.sb.fsSizeBlocks.toNat - img.sb.dataBlocksStart.toNat) 0 img := rfl
  rw [hrun]
  rcases hfrom with ⟨k, -, hk, hfree, hres⟩ | ⟨hall, hres⟩
  · have hsub : img.sb.dataBlocksStart.toNat + k - img.sb.dataBlocksStart.toNat = k := by omega
    refine Or.inl ⟨img.sb.dataBlocksStart.toNat + k, ⟨by omega, by omega⟩, ?_, ?_⟩
    · rw [Disk.blockUsed, hsub]
      exact hfree
    · rw [hres, Disk.takeBlock, Disk.setBlockUsed, hsub]
  · refine Or.inr ⟨fun p hp => hall _ (Nat.zero_le _) ?_, hres⟩
    obtain ⟨h1, h2⟩ := hp
    omega

end

/-! ## The walk, part by part

The walk that returns, by position. A table that could not be had is the
index -1 in the record, and what is written through it goes to the sector
before the volume. -/

/-- An allocating walk on inode `ino` that went through: `Grew` between the volumes,
and nothing outside the volume. -/
structure EdGrew (img : DiskImage) (T : Nat → Inode) (ino : Nat) (A : Pos → Prop) (r r' : Inode)
    (img' : DiskImage) : Prop where
  image : img' = img.withDisk img'.disk
  grew : Grew img.sb img.sb.fsSizeBlocks.toNat T ino A r img.disk r' img'.disk

section

variable {img img' img'' : DiskImage} {T : Nat → Inode} {ino : Nat} {A : Pos → Prop}
  {r r' r'' : Inode}

theorem EdGrew.of_grew {d' : Disk}
    (h : Grew img.sb img.sb.fsSizeBlocks.toNat T ino A r img.disk r' d') :
    EdGrew img T ino A r r' (img.withDisk d') where
  image := by rw [DiskImage.disk_withDisk]
  grew := by
    rw [DiskImage.disk_withDisk]
    exact h

theorem EdGrew.refl
    (O : VolOwned img.sb img.sb.fsSizeBlocks.toNat img.disk (Function.update T ino r)) :
    EdGrew img T ino A r r img := ⟨(DiskImage.withDisk_disk img).symm, Grew.refl O⟩

theorem EdGrew.sb (h : EdGrew img T ino A r r' img') : img'.sb = img.sb := by
  rw [h.image, DiskImage.withDisk_sb]

theorem EdGrew.whole (h : EdGrew img T ino A r r' img') (W : img.Whole) : img'.Whole := by
  rw [h.image]
  exact W.withDisk _

theorem EdGrew.owned (h : EdGrew img T ino A r r' img') :
    VolOwned img'.sb img'.sb.fsSizeBlocks.toNat img'.disk (Function.update T ino r') := by
  rw [h.sb]
  exact h.grew.owned

theorem EdGrew.trans (h : EdGrew img T ino A r r' img') (h' : EdGrew img' T ino A r' r'' img'') :
    EdGrew img T ino A r r'' img'' where
  image := by
    have himg := h'.image
    rw [h.image, DiskImage.withDisk_withDisk] at himg
    exact himg
  grew := by
    have hgrew := h'.grew
    rw [h.sb] at hgrew
    exact h.grew.trans hgrew

variable (W : img.Whole)
  (O : VolOwned img.sb img.sb.fsSizeBlocks.toNat img.disk (Function.update T ino r))

theorem VolOwned.ptr_lt {sb : Superblock} {d : Disk}
    (O : VolOwned sb sb.fsSizeBlocks.toNat d (Function.update T ino r)) {pos : Pos}
    (h0 : d.ptr r pos ≠ 0) : d.ptr r pos < sb.fsSizeBlocks.toNat := by
  have hup := O.upper (ino, pos)
  rw [volPtr_self] at hup
  exact hup h0

include W O

theorem edLink_grew {pos t : Pos} (hA : A pos) (hpos : pos.parent = some t)
    (ht : img.disk.ptr r t ≠ 0) (hnull : img.disk.ptr r pos = 0) {p : Nat}
    (hp : img.sb.DataBlock p) (hfree : img.disk.blockUsed img.sb p = false) :
    writeBlock (img.disk.ptr r t) ((img.disk (img.disk.ptr r t)).putWord (4 * pos.index)
        (UInt32.ofNat p)) (img.withDisk (img.disk.takeBlock img.sb p))
      = (.ok (), img.withDisk ((img.disk.takeBlock img.sb p).setPtr r pos p))
    ∧ ((img.disk.takeBlock img.sb p).setPtr r pos p).ptr r pos = p
    ∧ ((img.disk.takeBlock img.sb p).setPtr r pos p) p = Buf.zero
    ∧ EdGrew img T ino A r r (img.withDisk ((img.disk.takeBlock img.sb p).setPtr r pos p)) := by
  have hlt := img.sb.fsSizeBlocks.toNat_lt
  have hp32 : p < 4294967296 := Nat.lt_trans hp.2 hlt
  have hpar : ∀ v, pos.parent = some v → img.disk.ptr r v ≠ 0 := by
    intro v hv
    rw [hpos] at hv
    rwa [← Option.some.inj hv]
  have hlink := Grew.link W.sound (blockBound_size img.sb) O hp hp32 hp.2 hfree hA hnull hpar
  have hptr := VolOwned.ptr_link W.sound O hp hp32 hfree hnull hpar pos
  have hzero := VolOwned.link_zero W.sound O hp hfree hpar
  rw [setPtr_of_parent hpos] at hlink hptr
  rw [if_pos rfl] at hptr
  refine ⟨?_, hptr, hzero, .of_grew hlink⟩
  rw [O.setPtr_takeBlock W.sound hp hfree hpos ht]
  exact writeBlock_withDisk W (O.ptr_lt ht) _ _

theorem edPointerEntry_grew {pos t : Pos} (hA : A pos) (hpos : pos.parent = some t)
    (ht : img.disk.ptr r t ≠ 0) {p : Int}
    (h : edPointerEntry (img.disk.ptr r t) (img.disk (img.disk.ptr r t)) pos.index true img
      = (.ok p, img')) :
    p = (img'.disk.ptr r pos : Nat) ∧ img'.disk.ptr r pos ≠ 0 ∧ EdGrew img T ino A r r img' := by
  have hentry : img.disk.ptr r pos
      = ((img.disk (img.disk.ptr r t)).word (4 * pos.index)).toNat := by
    rw [Disk.ptr_child hpos, Disk.entry, if_neg ht]
  unfold edPointerEntry at h
  split at h
  · rename_i h0
    rw [h0] at hentry
    rw [if_pos rfl] at h
    obtain ⟨ptr, img₁, halloc, h⟩ := Ed.bind_ok h
    obtain ⟨packed, img₂, hpack, h⟩ := Ed.bind_ok h
    obtain ⟨_, img₃, hwrite, h⟩ := Ed.bind_ok h
    rcases edAllocateBlock_run W with ⟨q, hq, hfree, hrun⟩ | ⟨-, hrun⟩
    · rw [halloc] at hrun
      obtain ⟨hres, rfl⟩ := Prod.mk.inj hrun
      obtain rfl := Except.ok.inj hres
      rw [packPointer_run hq.2] at hpack
      obtain ⟨hres, rfl⟩ := Prod.mk.inj hpack
      obtain rfl := Except.ok.inj hres
      obtain ⟨hstore, hptr, -, hg⟩ := edLink_grew W O hA hpos ht hentry hq hfree
      rw [hstore] at hwrite
      obtain ⟨-, rfl⟩ := Prod.mk.inj hwrite
      obtain ⟨hres, rfl⟩ := Prod.mk.inj h
      rw [DiskImage.disk_withDisk, hptr]
      exact ⟨(Except.ok.inj hres).symm, W.sound.dataBlock_ne_zero hq, hg⟩
    · rw [halloc] at hrun
      obtain ⟨hres, rfl⟩ := Prod.mk.inj hrun
      obtain rfl := Except.ok.inj hres
      cases (Prod.mk.inj hpack).1
  · rename_i h0
    obtain ⟨hres, rfl⟩ := Prod.mk.inj h
    refine ⟨?_, ?_, .refl O⟩
    · rw [hentry]
      exact (Except.ok.inj hres).symm
    · rw [hentry]
      exact fun hc => h0 (UInt32.toNat.inj hc)

theorem edGetSingle_grew {pos t : Pos} (hA : A pos) (hpos : pos.parent = some t)
    (ht : img.disk.ptr r t ≠ 0) {p : Int}
    (h : edGetSingle (img.disk.ptr r t) pos.index true img = (.ok p, img')) :
    p = (img'.disk.ptr r pos : Nat) ∧ img'.disk.ptr r pos ≠ 0 ∧ EdGrew img T ino A r r img' := by
  obtain ⟨buf, img₁, hread, h⟩ := Ed.bind_ok h
  rw [readBlock_run W (O.ptr_lt ht)] at hread
  obtain ⟨hres, rfl⟩ := Prod.mk.inj hread
  obtain rfl := Except.ok.inj hres
  exact edPointerEntry_grew W O hA hpos ht h

/-- The second-level block at entry `j` of the double indirect block. -/
theorem edGetTable_grew {j : Fin 128} (hA : A (.table j)) (ht : img.disk.ptr r .double ≠ 0)
    {res : Option Int}
    (h : edGetTable (img.disk.ptr r .double) (img.disk (img.disk.ptr r .double)) j.val true img
      = (.ok res, img')) :
    res = some ((img'.disk.ptr r (.table j) : Nat) : Int) ∧ img'.disk.ptr r (.table j) ≠ 0
      ∧ EdGrew img T ino A r r img' := by
  have hpos : (Pos.table j).parent = some .double := rfl
  have hentry : img.disk.ptr r (.table j)
      = ((img.disk (img.disk.ptr r .double)).word (4 * j.val)).toNat := by
    rw [Disk.ptr_child hpos, Disk.entry, if_neg ht]
    rfl
  unfold edGetTable at h
  split at h
  · rename_i h0
    rw [h0] at hentry
    rw [if_pos rfl] at h
    obtain ⟨ptr, img₁, halloc, h⟩ := Ed.bind_ok h
    obtain ⟨packed, img₂, hpack, h⟩ := Ed.bind_ok h
    obtain ⟨_, img₃, hwrite, h⟩ := Ed.bind_ok h
    obtain ⟨_, img₄, hclear, h⟩ := Ed.bind_ok h
    rcases edAllocateBlock_run W with ⟨q, hq, hfree, hrun⟩ | ⟨-, hrun⟩
    · rw [halloc] at hrun
      obtain ⟨hres, rfl⟩ := Prod.mk.inj hrun
      obtain rfl := Except.ok.inj hres
      rw [packPointer_run hq.2] at hpack
      obtain ⟨hres, rfl⟩ := Prod.mk.inj hpack
      obtain rfl := Except.ok.inj hres
      obtain ⟨hstore, hptr, hzero, hg⟩ := edLink_grew W O hA hpos ht hentry hq hfree
      rw [show j.val = (Pos.table j).index from rfl, hstore] at hwrite
      obtain ⟨-, rfl⟩ := Prod.mk.inj hwrite
      -- the block is zero since the allocator took it
      rw [writeBlock_withDisk W hq.2, Disk.set_eq_self hzero] at hclear
      obtain ⟨-, rfl⟩ := Prod.mk.inj hclear
      obtain ⟨hres, rfl⟩ := Prod.mk.inj h
      rw [DiskImage.disk_withDisk, hptr]
      exact ⟨(Except.ok.inj hres).symm, W.sound.dataBlock_ne_zero hq, hg⟩
    · rw [halloc] at hrun
      obtain ⟨hres, rfl⟩ := Prod.mk.inj hrun
      obtain rfl := Except.ok.inj hres
      cases (Prod.mk.inj hpack).1
  · rename_i h0
    obtain ⟨hres, rfl⟩ := Prod.mk.inj h
    refine ⟨?_, ?_, .refl O⟩
    · rw [hentry]
      exact (Except.ok.inj hres).symm
    · rw [hentry]
      exact fun hc => h0 (UInt32.toNat.inj hc)

/-- The second level and the entry, once the double indirect block is there. -/
theorem edGetLeaf_grew {idx : Nat} {j k : Fin 128} (hj : j.val = idx / 128) (hk : k.val = idx % 128)
    (hA : A (.table j)) (hA' : A (.leaf j k)) (ht : img.disk.ptr r .double ≠ 0) {p : Int}
    (h : edGetLeaf (img.disk.ptr r .double) idx true img = (.ok p, img')) :
    p = (img'.disk.ptr r (.leaf j k) : Nat) ∧ img'.disk.ptr r (.leaf j k) ≠ 0
      ∧ EdGrew img T ino A r r img' := by
  obtain ⟨buf, img₁, hread, h⟩ := Ed.bind_ok h
  rw [readBlock_run W (O.ptr_lt ht)] at hread
  obtain ⟨hres, rfl⟩ := Prod.mk.inj hread
  obtain rfl := Except.ok.inj hres
  obtain ⟨res, img₂, htable, h⟩ := Ed.bind_ok h
  rw [← hj] at htable
  obtain ⟨rfl, ht', hg⟩ := edGetTable_grew W O hA ht htable
  have hidx : (Pos.leaf j k).index = idx % 128 := hk
  have hsingle : edGetSingle (img₂.disk.ptr r (.table j)) (Pos.leaf j k).index true img₂
      = (.ok p, img') := by
    rw [hidx]
    exact h
  obtain ⟨hp, hp0, hg'⟩ := edGetSingle_grew (hg.whole W) hg.owned hA' rfl ht' hsingle
  exact ⟨hp, hp0, hg.trans hg'⟩

/-- The pointer block behind a field of the record, at the root position `pos`. -/
theorem edRootTable_grew {pos : Pos} (hA : A pos) (hpos : pos.parent = none) {field : UInt32}
    (hfield : img.disk.ptr r pos = field.toNat) (hsame : r.setPtr pos field.toNat = r)
    {res : Option Int} (h : edRootTable field.toNat true img = (.ok res, img')) :
    res = some (-1) ∨ ∃ q : UInt32, res = some (q.toNat : Int) ∧ q.toNat ≠ 0
      ∧ EdGrew img T ino A r (r.setPtr pos q.toNat) img' := by
  unfold edRootTable at h
  split at h
  · rename_i h0
    rw [if_pos rfl] at h
    have hnull : img.disk.ptr r pos = 0 := by
      rw [hfield]
      exact Int.natCast_eq_zero.mp h0
    obtain ⟨ptr, img₁, halloc, h⟩ := Ed.bind_ok h
    obtain ⟨_, img₂, hclear, h⟩ := Ed.bind_ok h
    obtain ⟨hres, rfl⟩ := Prod.mk.inj h
    rcases edAllocateBlock_run W with ⟨p, hp, hfree, hrun⟩ | ⟨-, hrun⟩
    · rw [halloc] at hrun
      obtain ⟨hptr, rfl⟩ := Prod.mk.inj hrun
      obtain rfl := Except.ok.inj hptr
      have hlt := img.sb.fsSizeBlocks.toNat_lt
      have hp32 : p < 4294967296 := Nat.lt_trans hp.2 hlt
      have hpar : ∀ v, pos.parent = some v → img.disk.ptr r v ≠ 0 := by
        intro v hv
        rw [hpos] at hv
        cases hv
      have hset : (img.disk.takeBlock img.sb p).setPtr r pos p = img.disk.takeBlock img.sb p := by
        simp only [Disk.setPtr, hpos]
      have hlink := Grew.link W.sound (blockBound_size img.sb) O hp hp32 hp.2 hfree hA hnull hpar
      have hzero := VolOwned.link_zero W.sound O hp hfree hpar
      rw [hset] at hlink hzero
      rw [writeBlock_withDisk W hp.2, Disk.set_eq_self hzero] at hclear
      obtain ⟨-, rfl⟩ := Prod.mk.inj hclear
      have hn : (UInt32.ofNat p).toNat = p := by
        rw [UInt32.toNat_ofNat', Nat.mod_eq_of_lt hp32]
      refine Or.inr ⟨UInt32.ofNat p, ?_, ?_, ?_⟩
      · rw [hn]
        exact (Except.ok.inj hres).symm
      · rw [hn]
        exact W.sound.dataBlock_ne_zero hp
      · rw [hn]
        exact .of_grew hlink
    · rw [halloc] at hrun
      obtain ⟨hptr, -⟩ := Prod.mk.inj hrun
      obtain rfl := Except.ok.inj hptr
      exact Or.inl (Except.ok.inj hres).symm
  · rename_i h0
    obtain ⟨hres, rfl⟩ := Prod.mk.inj h
    refine Or.inr ⟨field, (Except.ok.inj hres).symm, fun hc => h0 (by rw [hc]; rfl), ?_⟩
    rw [hsame]
    exact .refl O

end

end IpoOs
