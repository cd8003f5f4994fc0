import IpoOs.FsEnds
import IpoOs.FsApart

/-!
# The blocks a write takes

`ipo_fs_write` marks blocks used through `get_data_block_for_inode`, for
the blocks of the range it computes from the offset and the size. For a
proper range these are the blocks the bytes lie in. The range of a write
of no bytes is computed by the same wrapping subtraction: it is the whole
file at offset zero, and one block at an offset inside a block.

The condition is on the file alone: its own pointers are sound, and those
that the walks of the write meet lie apart (`FsApart`). The rest of the
volume may be corrupt, and the bits of other files may say anything.

A write of no bytes at offset 0 goes over the whole range of block numbers
and takes a block at every null pointer it meets, until the volume is full.
-/

namespace IpoOs

/-- The pointers of one file are owned: in the data region, marked used, and none of
them twice. -/
def Disk.FileOwned (d : Disk) (sb : Superblock) (r : Inode) : Prop :=
  Owned sb.dataBlocksStart.toNat sb.fsSizeBlocks.toNat (fun p => d.blockUsed sb p = true)
    fun pos => d.ptr r pos

/-- A block that was free and is marked used. -/
def NewlyUsed (sb : Superblock) (d d' : Disk) (p : Nat) : Prop :=
  sb.DataBlock p ∧ d.blockUsed sb p = false ∧ d'.blockUsed sb p = true

/-- What a write may take: blocks for null pointers on the way to the blocks of its range,
and none when it has no bytes. A block whose number is no `int` is marked and not linked. -/
structure TakesCovered (sb : Superblock) (r : Inode) (d : Disk) (r' : Inode) (d' : Disk)
    (offset size : Nat) : Prop where
  covered : ∀ p, NewlyUsed sb d d' p → ∃ b pos, offset / 512 ≤ b ∧ 512 * b < offset + size
    ∧ OnTheWay b pos ∧ d.ptr r pos = 0 ∧ (d'.ptr r' pos = p ∨ 2147483648 ≤ p)
  empty : size = 0 → ∀ p, ¬ NewlyUsed sb d d' p

/-- The loop over the blocks `[first, first + n)` meets no null pointer: the first block
that is not mapped, if there is one, has a block number that is no `int`. -/
def Disk.NoNull (d : Disk) (r : Inode) (first n : Nat) : Prop :=
  ∀ b pos, first ≤ b → b < first + n → posOf b = some pos →
    (∀ c, first ≤ c → c < b → (d.lookup r c).isSome) → d.ptr r pos ≠ 0

/-- Nothing to take for the blocks `[first, first + n)` of an inode. -/
def Disk.TakesNone (d : Disk) (sb : Superblock) (ino first n : Nat) : Prop :=
  ¬ sb.ValidIno ino ∨ (∀ p, sb.DataBlock p → d.blockUsed sb p = true)
    ∨ d.NoNull (d.inodeAt sb ino) first n

theorem Disk.FileOwned.apart {sb : Superblock} {d : Disk} {r : Inode} (L : SoundLayout sb)
    (h : d.FileOwned sb r) (ino : Nat) (V : Pos → Prop) : d.Apart sb ino V r where
  bitmap := fun s _ h0 => L.bitmapBelow.not_bitmapBlock ⟨h.lower s h0, h.upper s h0⟩
  slot := fun hv t _ _ h0 => by
    have hlow := h.lower t h0
    have hslot := L.inodeBlock_lt hv
    omega
  alone := fun t s _ _ _ h0 he => (h.inj t s h0 he.symm).symm
  used := fun _ t _ _ _ _ hdb => h.used t (L.dataBlock_ne_zero hdb)
  fresh := fun _ s _ _ _ _ hdb => h.used s (L.dataBlock_ne_zero hdb)

/-! ## Walks that allocate nothing

A walk that meets no null pointer takes nothing, and a volume without free
blocks gives nothing. -/

section

variable (u : Block) (sb : Superblock) (r : Inode) {d : Disk}

section

variable (h : allocateBlock (arrayDev u) sb d = (none, d))

include h

theorem rootTable_full (field : UInt32) :
    rootTable (arrayDev u) sb field true d = rootTable (arrayDev u) sb field false d := by
  rcases em (field = 0) with h0 | h0
  · simp [rootTable, h0, h]
  · simp [rootTable, h0]

theorem pointerEntry_full (q : Nat) (buf : Block) (idx : Nat) :
    pointerEntry (arrayDev u) sb q buf idx true d
      = pointerEntry (arrayDev u) sb q buf idx false d := by
  rcases em (buf.word (4 * idx) = 0) with h0 | h0
  · simp [pointerEntry, h0, h]
  · simp [pointerEntry, h0]

theorem getTable_full (q : Nat) (buf : Block) (di : Nat) :
    getTable (arrayDev u) sb q buf di true d = getTable (arrayDev u) sb q buf di false d := by
  rcases em (buf.word (4 * di) = 0) with h0 | h0
  · simp [getTable, h0, h]
  · simp [getTable, h0]

end

theorem rootTable_run (field : UInt32) :
    rootTable (arrayDev u) sb field false d = (if field = 0 then none else some field, d) := by
  rcases em (field = 0) with h0 | h0
  · simp [rootTable, h0]
  · simp [rootTable, h0]

theorem getTable_run (q : Nat) (buf : Block) (di : Nat) :
    getTable (arrayDev u) sb q buf di false d
      = (if buf.word (4 * di) = 0 then none else some (buf.word (4 * di)).toNat, d) := by
  rcases em (buf.word (4 * di) = 0) with h0 | h0
  · simp [getTable, h0]
  · simp [getTable, h0]

theorem getDataBlock_full (h : allocateBlock (arrayDev u) sb d = (none, d)) (l : Nat) :
    getDataBlockForInode (arrayDev u) sb r l true d = ((d.lookup r l, r), d) := by
  rw [← getDataBlock_lookup u sb r d l]
  unfold getDataBlockForInode
  split
  · rename_i h6
    rcases em (r.direct ⟨l, h6⟩ = 0) with h0 | h0
    · simp [getDirect, h0, h]
    · simp [getDirect, h0]
  · split
    · unfold getIndirect
      rw [Prog.run_bind, Prog.run_bind, rootTable_full u sb h, rootTable_run]
      rcases em (r.indirect = 0) with h0 | h0
      · simp [h0]
      · simp [h0, getSingle, pointerEntry_full u sb h]
    · split
      · rfl
      · unfold getDouble
        rw [Prog.run_bind, Prog.run_bind, rootTable_full u sb h, rootTable_run]
        rcases em (r.doubleIndirect = 0) with h0 | h0
        · simp [h0]
        · rcases em ((d r.doubleIndirect.toNat).word (4 * ((l - 6 - 128) / 128)) = 0) with ht | ht
          · simp [h0, getLeaf, getTable_full u sb h, getTable_run, ht]
          · simp [h0, getLeaf, getSingle, getTable_full u sb h, getTable_run, ht,
              pointerEntry_full u sb h]

end

/-! ## The write of no bytes

The loop over blocks that are all mapped moves nothing. -/

theorem Disk.NoNull.tail {d : Disk} {r : Inode} {b n : Nat} (h : d.NoNull r b (n + 1))
    (hb : (d.lookup r b).isSome) : d.NoNull r (b + 1) n := by
  intro c pos h1 h2 hpos hmap
  refine h c pos (by omega) (by omega) hpos fun e he he' => ?_
  rcases Nat.eq_or_lt_of_le he with rfl | hlt
  · exact hb
  · exact hmap e hlt he'

section

variable (u : Block) {sb : Superblock} {r : Inode} {d : Disk}

/-- The block loop of a write of no bytes over mapped blocks: nothing happens. -/
theorem writeBlocks_still (buffer : Buf) (first offset n b written : Nat) (tmp : Block)
    (h : allocateBlock (arrayDev u) sb d = (none, d) ∨ d.NoNull r b n) :
    writeBlocks (arrayDev u) sb buffer first offset 0 n b written tmp r d = ((written, r), d) := by
  induction n generalizing b written tmp with
  | zero => rfl
  | succ n ih =>
      have hrun : getDataBlockForInode (arrayDev u) sb r b true d = ((d.lookup r b, r), d) := by
        rcases h with h | h
        · exact getDataBlock_full u sb r h b
        · refine getDataBlock_set u sb r fun pos hpos => ?_
          exact h b pos (Nat.le_refl _) (by omega) hpos fun c h1 h2 => by omega
      cases hl : d.lookup r b with
      | none =>
          rw [hl] at hrun
          simp [writeBlocks, hrun]
      | some p =>
          rw [hl] at hrun
          have hnext := ih (b + 1) written (d p) (h.imp id fun h => h.tail (by rw [hl]; rfl))
          have hset : d.set p (d p) = d := Disk.set_eq_self rfl
          simp [writeBlocks, hrun, Buf.patch_none, hset, hnext]

end

/-! ## A write of no bytes that meets a null pointer

The loop takes a block at the first null pointer, if one is free. -/

section

variable {sb : Superblock} {ino : Nat} {V A : Pos → Prop} {r r' : Inode} {d d' : Disk}

/-- A walk to a null pointer takes a block, if the walk that leaves it null does. -/
theorem Linked.takesFree (h : Linked sb ino V A r d r' d') {pos : Pos} (hpos : V pos)
    (h0 : d.ptr r pos = 0) (hnone : d'.ptr r' pos = 0 → TakesFree sb d d') : TakesFree sb d d' := by
  rcases h.ptr pos hpos with he | ⟨-, hdb, hf, hu⟩
  · exact hnone (he.trans h0)
  · exact fun _ _ _ => ⟨_, hdb, hf, hu⟩

variable (L : SoundLayout sb) (hV : ∀ {s t : Pos}, V s → s.parent = some t → V t) (u : Block)

include L hV

/-- The loop of a write of no bytes that meets a null pointer takes a free block. -/
theorem writeBlocks_takesFree (buffer : Buf) (offset n b written : Nat) (tmp : Block)
    (h : d.Apart sb ino V r) (hsight : ∀ s, InSight b n s → V s) (hnull : ¬ d.NoNull r b n) :
    TakesFree sb d
        (writeBlocks (arrayDev u) sb buffer (offset / 512) offset 0 n b written tmp r d).2 := by
  induction n generalizing b written tmp with
  | zero =>
      refine absurd ?_ hnull
      intro c pos h1 h2
      omega
  | succ n ih =>
      have hnext : ∀ s, InSight (b + 1) n s → V s := by
        rintro s ⟨c, h1, h2, h3⟩
        exact hsight s ⟨c, by omega, by omega, h3⟩
      cases hl : d.lookup r b with
      | some p =>
          -- a mapped block is passed and keeps its bytes
          have hpass : getDataBlockForInode (arrayDev u) sb r b true d
              = ((d.lookup r b, r), d) := by
            obtain ⟨pos, hpos, rfl, hp0, -⟩ := Disk.lookup_eq_some.mp hl
            refine getDataBlock_set u sb r fun s hs => ?_
            rw [hpos] at hs
            exact Option.some.inj hs ▸ hp0
          rw [hl] at hpass
          have hset : d.set p (d p) = d := Disk.set_eq_self rfl
          have hlater := ih (b + 1) written (d p) hnext fun hno => hnull ?_
          · simpa [writeBlocks, hpass, Buf.patch_none, hset] using hlater
          · intro c pos h1 h2 hpos hmap
            rcases Nat.eq_or_lt_of_le h1 with rfl | hlt
            · obtain ⟨s, hs, hp, hp0, -⟩ := Disk.lookup_eq_some.mp hl
              rw [hpos] at hs
              rw [Option.some.inj hs, hp]
              exact hp0
            · exact hno c pos (by omega) (by omega) hpos fun e he he' => hmap e (by omega) he'
      | none =>
          -- the first block that is not mapped: its pointer is the null one
          have hptr : ∃ pos, posOf b = some pos ∧ d.ptr r pos = 0 := by
            by_contra hc
            refine hnull fun c pos h1 h2 hpos hmap h0 => ?_
            rcases Nat.eq_or_lt_of_le h1 with rfl | hlt
            · exact hc ⟨pos, hpos, h0⟩
            · have hb := hmap b (Nat.le_refl _) hlt
              rw [hl] at hb
              cases hb
          obtain ⟨pos, hpos, h0⟩ := hptr
          have hway : ∀ s, OnTheWay b s → V s :=
            fun s hs => hsight s ⟨b, Nat.le_refl _, by omega, hs⟩
          obtain ⟨r₁, d₁, hwalk, hg, hnone⟩ := (growth_apart L hV).getDataBlock L u h hway
          have htk := hg.takesFree (hway pos ⟨pos, hpos, Pos.mem_path pos⟩) h0 (hnone pos hpos)
          cases hl₁ : d₁.lookup r₁ b with
          | none =>
              rw [hl₁] at hwalk
              simpa [writeBlocks, hwalk] using htk
          | some p =>
              rw [hl₁] at hwalk
              have hset : d₁.set p (d₁ p) = d₁ := Disk.set_eq_self rfl
              generalize hrun : writeBlocks (arrayDev u) sb buffer (offset / 512) offset 0 n (b + 1)
                written (d₁ p) r₁ d₁ = res
              obtain ⟨⟨w', r'⟩, d'⟩ := res
              have hlater := writeBlocks_linked L hV u buffer offset 0 n (b + 1) written (d₁ p)
                hg.apart hnext hrun
              simp only [writeBlocks, Prog.run_bind, hwalk, arrayDev_read, arrayDev_write,
                Option.getD_some, Nat.zero_sub, Nat.min_zero, Nat.add_zero, Buf.patch_none, hset,
                  hrun]
              intro q hq hf
              obtain ⟨q', hq', hqf, hqu⟩ := htk q hq hf
              exact ⟨q', hq', hqf, hlater.used q' hq' hqu⟩

end

/-! ## The write

The three cases together. `WriteBounded` is the condition before the call. -/

section

variable {sb : Superblock} {ino : Nat} {d : Disk} (u : Block) (L : SoundLayout sb)

theorem allocateBlock_full {sb : Superblock} {d : Disk} (L : SoundLayout sb)
    (h : ∀ p, sb.DataBlock p → d.blockUsed sb p = true) :
    allocateBlock (arrayDev u) sb d = (none, d) := by
  rcases allocateBlock_array u d L with ⟨p, hp, hfree, -⟩ | ⟨-, hrun⟩
  · rw [h p hp] at hfree
    cases hfree
  · exact hrun

theorem writeFile_disk (hv : sb.ValidIno ino) (buffer : Buf) (size offset : Nat) {w : Nat}
    {r' : Inode} {d' : Disk}
    (hrun : writeBlocks (arrayDev u) sb buffer (offset / 512) offset size (blockCount offset size)
      (offset / 512) 0 u (d.inodeAt sb ino) d = ((w, r'), d')) :
    (writeFile ino buffer size offset (arrayDev u) sb d).2
      = d'.putInode sb ino (r'.grownTo (u32 (offset + w))) := by
  have hread : readInode (arrayDev u) sb ino d = (some (d.inodeAt sb ino), d) := by
    rw [readInode_array, if_pos hv]
  have hwrite : ∀ r e, writeInode (arrayDev u) sb ino r e = (true, e.putInode sb ino r) := by
    intro r e
    rw [writeInode_array, if_pos hv]
  have hu : (arrayDev u).uninit = u := rfl
  simp only [writeFile, Prog.run_bind, hread, hu, hrun, hwrite, Prog.run_pure]

include L

omit L in
/-- The slot of the inode written back leaves the pointers in sight. -/
theorem Disk.Apart.putInode_ptr {V : Pos → Prop} {r r' : Inode}
    (hV : ∀ {s t : Pos}, V s → s.parent = some t → V t) (h : d.Apart sb ino V r)
    (hv : sb.ValidIno ino) (hroot : r'.root = r.root) (s : Pos) (hs : V s) :
    (d.putInode sb ino r').ptr r' s = d.ptr r s :=
  Disk.ptr_steady hV (fun _ => congrFun hroot _) (fun t ht htable ht0 =>
    Disk.set_of_ne (h.slot hv t ht htable ht0)) s hs

theorem writeFile_covered (hv : sb.ValidIno ino) (buffer : Buf) {offset size : Nat}
    (hapart : d.Apart sb ino (InSight (offset / 512) (blockCount offset size)) (d.inodeAt sb ino))
    (hsize : 0 < size) (hend : offset + size < 4294967296) :
    TakesCovered sb (d.inodeAt sb ino) d
      ((writeFile ino buffer size offset (arrayDev u) sb d).2.inodeAt sb ino)
      (writeFile ino buffer size offset (arrayDev u) sb d).2 offset size := by
  generalize hrun : writeBlocks (arrayDev u) sb buffer (offset / 512) offset size
    (blockCount offset size) (offset / 512) 0 u (d.inodeAt sb ino) d = res
  obtain ⟨⟨w, r'⟩, d'⟩ := res
  have hlinked := writeBlocks_linked L inSight_closed u buffer offset size (blockCount offset size)
    (offset / 512) 0 u hapart (fun _ hs => hs) hrun
  rw [writeFile_disk u hv buffer size offset hrun]
  have hroot : (r'.grownTo (u32 (offset + w))).root = r'.root := by
    unfold Inode.grownTo
    split <;> rfl
  refine ⟨fun p ⟨hp, hfree, hused⟩ => ?_, fun h0 => absurd h0 (by omega)⟩
  rw [L.blockUsed_putInode hv hp] at hused
  rcases hlinked.taken p (L.dataBlock_ne_zero hp) hp hused with
    hu | ⟨pos, ⟨-, hsight⟩, hnull, hq⟩
  · rw [hfree] at hu
    cases hu
  · obtain ⟨b, h1, h2, hway⟩ := hsight
    have hat := (atBlock_start hsize hend).2 (by omega)
    refine ⟨b, pos, h1, by omega, hway, hnull, ?_⟩
    rw [L.inodeAt_putInode hv, if_pos rfl,
      hlinked.apart.putInode_ptr inSight_closed hv hroot pos ⟨b, h1, h2, hway⟩]
    exact hq

theorem writeFile_still (hv : sb.ValidIno ino) (buffer : Buf) {offset : Nat}
    (h : (∀ p, sb.DataBlock p → d.blockUsed sb p = true)
      ∨ d.NoNull (d.inodeAt sb ino) (offset / 512) (blockCount offset 0)) (p : Nat) :
    ¬ NewlyUsed sb d (writeFile ino buffer 0 offset (arrayDev u) sb d).2 p := by
  have hrun := writeBlocks_still u buffer (offset / 512) offset (blockCount offset 0)
    (offset / 512) 0 u (h.imp (allocateBlock_full u L) id)
  rw [writeFile_disk u hv buffer 0 offset hrun]
  rintro ⟨hp, hfree, hused⟩
  rw [L.blockUsed_putInode hv hp, hfree] at hused
  cases hused

theorem writeFile_takesFree (hv : sb.ValidIno ino) (buffer : Buf) {offset : Nat}
    (hapart : d.Apart sb ino (InSight (offset / 512) (blockCount offset 0)) (d.inodeAt sb ino))
    (hnull : ¬ d.NoNull (d.inodeAt sb ino) (offset / 512) (blockCount offset 0)) :
    TakesFree sb d (writeFile ino buffer 0 offset (arrayDev u) sb d).2 := by
  have htk := writeBlocks_takesFree L inSight_closed u buffer offset (blockCount offset 0)
    (offset / 512) 0 u hapart (fun _ hs => hs) hnull
  generalize hrun : writeBlocks (arrayDev u) sb buffer (offset / 512) offset 0 (blockCount offset 0)
    (offset / 512) 0 u (d.inodeAt sb ino) d = res at htk
  obtain ⟨⟨w, r'⟩, d'⟩ := res
  rw [writeFile_disk u hv buffer 0 offset hrun]
  intro p hp hf
  obtain ⟨q, hq, hqf, hqu⟩ := htk p hp hf
  exact ⟨q, hq, hqf, by rw [L.blockUsed_putInode hv hq, hqu]⟩

end

/-- The write through descriptor `fd` takes only what it covers. -/
def WriteCovered (u : Block) (k : Kernel Disk) (fd : Int) (buffer : Buf) (size offset : UInt32) :
    Prop :=
  TakesCovered k.sb (k.disk.inodeAt k.sb (k.fds fd.toNat).inode) k.disk
    ((ipoFsWrite (diskDev u) fd buffer size offset k).2.disk.inodeAt k.sb (k.fds fd.toNat).inode)
    (ipoFsWrite (diskDev u) fd buffer size offset k).2.disk offset.toNat size.toNat

/-- The pointers the write can meet lie apart. -/
def SightApart (k : Kernel Disk) (fd : Int) (size offset : UInt32) : Prop :=
  k.disk.Apart k.sb (k.fds fd.toNat).inode
    (InSight (offset.toNat / 512) (blockCount offset.toNat size.toNat))
    (k.disk.inodeAt k.sb (k.fds fd.toNat).inode)

/-- The writes that do: those with bytes whose pointers lie apart, and those without bytes
whose range holds nothing to take. -/
def WriteBounded (k : Kernel Disk) (fd : Int) (size offset : UInt32) : Prop :=
  (0 < size.toNat ∧ SightApart k fd size offset)
    ∨ (size.toNat = 0 ∧ k.disk.TakesNone k.sb (k.fds fd.toNat).inode (offset.toNat / 512)
        (blockCount offset.toNat 0))

theorem VolOwned.fileOwned {sb : Superblock} {hi : Nat} {T : Nat → Inode} {d : Disk}
    (O : VolOwned sb hi d T) (hle : hi ≤ sb.fsSizeBlocks.toNat) (ino : Nat) :
    d.FileOwned sb (T ino) where
  lower pos := O.lower (ino, pos)
  upper pos h0 := Nat.lt_of_lt_of_le (O.upper (ino, pos) h0) hle
  used pos := O.used (ino, pos)
  inj pos pos' h0 he := (Prod.mk.inj (O.inj (ino, pos) (ino, pos') h0 he)).2

end IpoOs
