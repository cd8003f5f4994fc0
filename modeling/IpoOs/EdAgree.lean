import IpoOs.EdBlocks
import IpoOs.FsGrow
import IpoOs.FsSpare

/-!
# The two block maps agree

`Mirrors` relates an action of the editor to code of the kernel: from an
image whose volume is the kernel's disk, the editor returns, what the two
return is related, and the image afterwards is the one before with the
kernel's disk in place of its volume. It composes like the code it is
about, so each pair of functions gets one lemma, from allocation up to
the whole block map.

The kernel reports a failed allocation where the editor stores the index
`-1`, so the two part ways when the volume runs full in the middle of a
walk. Three free blocks are enough for every walk, provided that none of
its own writes brings the block bitmap back to an earlier state; that
happens when `double_indirect` points into the bitmap.
-/

namespace IpoOs

/-- A block number as the editor returns it. -/
def asPy : Option Nat → Int
  | some p => p
  | none => -1

/-! ## Free blocks

With a block to spare the allocation of the kernel succeeds. -/

section

variable {sb : Superblock} {d : Disk}

variable (L : SoundLayout sb)

include L

theorem SoundLayout.allocateBlock_free (u : Block) (hsmall : sb.fsSizeBlocks.toNat < 2147483648)
    (hfree : 1 ≤ (d.freeBlocks sb).card) :
    ∃ p ∈ d.freeBlocks sb, p < 2147483648
      ∧ allocateBlock (arrayDev u) sb d = (some p, d.takeBlock sb p) := by
  rcases @allocateBlock_array u sb d L with ⟨p, hp, hf, -, hrun⟩ | ⟨hall, -⟩
  · have hlt : p < 2147483648 := by
      have := hp.2
      omega
    refine ⟨p, Disk.mem_freeBlocks.mpr ⟨hp, hf⟩, hlt, ?_⟩
    rw [hrun, asInt, if_pos hlt]
  · obtain ⟨p, hp⟩ := Finset.card_pos.mp hfree
    obtain ⟨hdata, hf⟩ := Disk.mem_freeBlocks.mp hp
    rw [hall p hdata] at hf
    cases hf

end

/-! ## One action mirrors the other

The rules for return, sequence and reads; `run` takes the relation to a
statement about runs. -/

/-- From `img`, the editor's `x` returns, does to the volume what the kernel's `y` does
to its disk and nothing to the rest of the image; `R` relates what they return. -/
def Mirrors {α β : Type} (R : α → β → Prop) (x : Ed α) (y : Prog Disk β) (img : DiskImage) :
    Prop :=
  ∃ a, x img = (.ok a, img.withDisk (y img.disk).2) ∧ R a (y img.disk).1

namespace Mirrors

variable {α α' β β' : Type} {R : α → β → Prop} {S : α' → β' → Prop} {img : DiskImage}

theorem pure {a : α} {b : β} (h : R a b) : Mirrors R (pure a) (pure b) img :=
  ⟨a, Prod.ext rfl (DiskImage.withDisk_disk img).symm, h⟩

theorem bind {x : Ed α} {y : Prog Disk β} {f : α → Ed α'} {g : β → Prog Disk β'}
    (hxy : Mirrors R x y img)
    (hfg : ∀ a, R a (y img.disk).1 →
      Mirrors S (f a) (g (y img.disk).1) (img.withDisk (y img.disk).2)) :
    Mirrors S (x >>= f) (y >>= g) img := by
  obtain ⟨a, hx, hR⟩ := hxy
  obtain ⟨a', hf, hS⟩ := hfg a hR
  refine ⟨a', ?_, ?_⟩
  · rw [Ed.run_bind, hx]
    refine hf.trans ?_
    rw [DiskImage.withDisk_withDisk, DiskImage.disk_withDisk]
    rfl
  · rw [DiskImage.disk_withDisk] at hS
    exact hS

theorem of_eq {x : Ed α} {y : Prog Disk β} {a : α} {b : β} {d : Disk}
    (hx : x img = (.ok a, img.withDisk d)) (hy : y img.disk = (b, d)) (h : R a b) :
    Mirrors R x y img := by
  refine ⟨a, ?_, ?_⟩
  · rw [hx, hy]
  · rw [hy]
    exact h

theorem bind_eq {x : Ed α} {y : Prog Disk β} {f : α → Ed α'} {g : β → Prog Disk β'} {a : α} {b : β}
    {d : Disk} (hx : x img = (.ok a, img.withDisk d)) (hy : y img.disk = (b, d))
    (h : Mirrors S (f a) (g b) (img.withDisk d)) : Mirrors S (x >>= f) (y >>= g) img := by
  have hxy : Mirrors (fun a' _ => a' = a) x y img := .of_eq hx hy rfl
  refine hxy.bind ?_
  rintro a' rfl
  rw [hy]
  exact h

theorem bind_read {x : Ed α} {y : Prog Disk β} {f : α → Ed α'} {g : β → Prog Disk β'} {a : α}
    {b : β} (hx : x img = (.ok a, img)) (hy : y img.disk = (b, img.disk))
    (h : Mirrors S (f a) (g b) img) : Mirrors S (x >>= f) (y >>= g) img := by
  refine bind_eq (a := a) (d := img.disk) ?_ hy ?_
  · rw [hx, DiskImage.withDisk_disk]
  · rw [DiskImage.withDisk_disk]
    exact h

theorem run {x : Ed α} {y : Prog Disk β} {f : β → α}
    (h : Mirrors (fun a b => a = f b) x y img) :
    x img = (.ok (f (y img.disk).1), img.withDisk (y img.disk).2) := by
  obtain ⟨a, hx, rfl⟩ := h
  exact hx

end Mirrors

/-! ## Allocation

Both scan the same bits in the same order. -/

section

variable {img : DiskImage} (W : img.Whole)
  (hsmall : img.sb.fsSizeBlocks.toNat < 2147483648) (u : Block)

include W hsmall

theorem allocateBlockFrom_mirrors (n i : Nat)
    (hn : img.sb.dataBlocksStart.toNat + i + n ≤ img.sb.fsSizeBlocks.toNat) :
    Mirrors (fun a b => a = asPy b) (edAllocateBlockFrom img.sb n i)
      (allocateBlockFrom (arrayDev u) img.sb n i) img := by
  have h1 := W.sound.blockBitmap
  have h2 := W.sound.inodeTable
  induction n generalizing i with
  | zero => exact .pure rfl
  | succ n ih =>
      have hblock : img.sb.blockBitmapStart.toNat + i / 8 / 512
          < img.sb.fsSizeBlocks.toNat := by omega
      unfold edAllocateBlockFrom allocateBlockFrom
      refine .bind_read (edBitmapGet_run W hblock) (bitmapGet_array _ _ _ _) ?_
      cases img.disk.bit img.sb.blockBitmapStart.toNat i with
      | true => exact ih (i + 1) (by omega)
      | false =>
          have hp : img.sb.dataBlocksStart.toNat + i < img.sb.fsSizeBlocks.toNat := by omega
          have hu : u32 (img.sb.dataBlocksStart.toNat + i) = img.sb.dataBlocksStart.toNat + i :=
            u32_of_lt (by omega)
          have hset := edBitmapSet_run W hblock true
          have hzero := writeBlock_run (W.withDisk
            (img.disk.setBit img.sb.blockBitmapStart.toNat i true)) hp Buf.zero
          rw [DiskImage.disk_withDisk, DiskImage.withDisk_withDisk] at hzero
          refine Mirrors.of_eq (a := ((img.sb.dataBlocksStart.toNat + i : Nat) : Int))
            (b := some (img.sb.dataBlocksStart.toNat + i)) (d := (img.disk.setBit
            img.sb.blockBitmapStart.toNat i true).set (img.sb.dataBlocksStart.toNat + i) Buf.zero)
            ?_ ?_ rfl
          · simp only [Bool.false_eq_true, if_false, Ed.run_bind, hset]
            rw [show (img.sb.dataBlocksStart.toNat : Int) + (i : Int)
              = ((img.sb.dataBlocksStart.toNat + i : Nat) : Int) from by push_cast; rfl, hzero]
            rfl
          · simp [hu, asInt, show img.sb.dataBlocksStart.toNat + i < 2147483648 from by omega]

theorem allocateBlock_mirrors :
    Mirrors (fun a b => a = asPy b) edAllocateBlock (allocateBlock (arrayDev u) img.sb) img := by
  have hdata := W.sound.data
  have hfs := img.sb.fsSizeBlocks.toNat_lt
  have htotal : dataBlocksTotal img.sb
      = img.sb.fsSizeBlocks.toNat - img.sb.dataBlocksStart.toNat :=
    sub32_of_le hdata (by omega)
  have hfrom := allocateBlockFrom_mirrors W hsmall u (dataBlocksTotal img.sb) 0 (by omega)
  unfold allocateBlock
  rw [htotal] at hfrom ⊢
  exact hfrom

theorem allocateBlock_both (hfree : 1 ≤ (img.disk.freeBlocks img.sb).card) :
    ∃ p ∈ img.disk.freeBlocks img.sb, p < img.sb.fsSizeBlocks.toNat
      ∧ allocateBlock (arrayDev u) img.sb img.disk = (some p, img.disk.takeBlock img.sb p)
      ∧ edAllocateBlock img = (.ok (p : Int), img.withDisk (img.disk.takeBlock img.sb p)) := by
  obtain ⟨p, hp, -, hrun⟩ := W.sound.allocateBlock_free u hsmall hfree
  have hed := (allocateBlock_mirrors W hsmall u).run
  rw [hrun] at hed
  exact ⟨p, hp, (Disk.mem_freeBlocks.mp hp).1.2, hrun, hed⟩

/-! ## The walk, part by part

One lemma for each function of the block map, on both sides of which the
functions are cut at the same places. -/

omit hsmall in
theorem writeBlock_withDisk {q : Nat} (hq : q < img.sb.fsSizeBlocks.toNat) (d : Disk) (b : Block) :
    writeBlock q b (img.withDisk d) = (.ok (), img.withDisk (d.set q b)) := by
  have hrun := writeBlock_run (W.withDisk d) hq b
  rw [DiskImage.disk_withDisk, DiskImage.withDisk_withDisk] at hrun
  exact hrun

omit W hsmall in
theorem packPointer_run {p : Nat} (hp : p < img.sb.fsSizeBlocks.toNat) (img' : DiskImage) :
    packPointer p img' = (.ok (UInt32.ofNat p), img') := by
  have hlt := img.sb.fsSizeBlocks.toNat_lt
  have hfits : fitsWord p := ⟨by omega, by omega⟩
  unfold packPointer
  rw [if_pos hfits]
  rfl

omit hsmall

theorem pointerEntry_mirrors {q idx : Nat} {buf : Block} {alloc : Bool}
    (hq : q < img.sb.fsSizeBlocks.toNat)
    (hent : (buf.word (4 * idx)).toNat < min img.sb.fsSizeBlocks.toNat 2147483648)
    (hsmall : alloc = true → img.sb.fsSizeBlocks.toNat < 2147483648)
    (hfree : alloc = true → 1 ≤ (img.disk.freeBlocks img.sb).card) :
    Mirrors (fun a b => a = asPy b) (edPointerEntry q buf idx alloc)
      (pointerEntry (arrayDev u) img.sb q buf idx alloc) img := by
  unfold edPointerEntry pointerEntry
  rcases em (buf.word (4 * idx) = 0) with h0 | h0
  · simp only [h0, if_true]
    cases alloc with
    | false => exact .pure rfl
    | true =>
        have hfs := hsmall rfl
        obtain ⟨p, -, hlt, hk, he⟩ := allocateBlock_both W hfs u (hfree rfl)
        have hwrite := writeBlock_withDisk W hq (img.disk.takeBlock img.sb p)
          (buf.putWord (4 * idx) (UInt32.ofNat p))
        refine .of_eq (a := (p : Int)) (b := asInt p) (d := (img.disk.takeBlock img.sb p).set q
          (buf.putWord (4 * idx) (UInt32.ofNat p))) ?_ ?_ ?_
        · rw [if_pos rfl, Ed.run_bind_ok he, Ed.run_bind_ok (packPointer_run hlt _),
            Ed.run_bind_ok hwrite]
          rfl
        · simp only [if_true, Prog.run_bind, hk, arrayDev_write]
          rfl
        · rw [asInt, if_pos (by omega)]
          rfl
  · simp only [h0, if_false]
    refine .pure ?_
    rw [asInt, if_pos (by omega)]
    rfl

theorem getSingle_mirrors {q idx : Nat} {alloc : Bool} (hq : q < img.sb.fsSizeBlocks.toNat)
    (hent : ((img.disk q).word (4 * idx)).toNat < min img.sb.fsSizeBlocks.toNat 2147483648)
    (hsmall : alloc = true → img.sb.fsSizeBlocks.toNat < 2147483648)
    (hfree : alloc = true → 1 ≤ (img.disk.freeBlocks img.sb).card) :
    Mirrors (fun a b => a = asPy b) (edGetSingle q idx alloc)
      (getSingle (arrayDev u) img.sb q idx alloc) img := by
  refine .bind_read (readBlock_run W hq) (arrayDev_read u q img.disk) ?_
  exact pointerEntry_mirrors W u hq hent hsmall hfree

/-- The pointer block behind a field: nothing, the field, or a fresh block of zeros. -/
theorem rootTable_mirrors {field : UInt32} {alloc : Bool}
    (hsmall : alloc = true → img.sb.fsSizeBlocks.toNat < 2147483648)
    (hfree : alloc = true → 1 ≤ (img.disk.freeBlocks img.sb).card) :
    (edRootTable field.toNat alloc img = (.ok none, img)
      ∧ rootTable (arrayDev u) img.sb field alloc img.disk = (none, img.disk))
    ∨ (field ≠ 0 ∧ edRootTable field.toNat alloc img = (.ok (some (field.toNat : Int)), img)
      ∧ rootTable (arrayDev u) img.sb field alloc img.disk = (some field, img.disk))
    ∨ (alloc = true ∧ ∃ p ∈ img.disk.freeBlocks img.sb,
      edRootTable field.toNat alloc img
        = (.ok (some (p : Int)), img.withDisk (img.disk.takeBlock img.sb p))
      ∧ rootTable (arrayDev u) img.sb field alloc img.disk
        = (some (UInt32.ofNat p), img.disk.takeBlock img.sb p)) := by
  unfold edRootTable rootTable
  rcases em (field = 0) with rfl | h0
  · cases alloc with
    | false => exact Or.inl ⟨rfl, rfl⟩
    | true =>
        have hfs := hsmall rfl
        obtain ⟨p, hp, hlt, hk, he⟩ := allocateBlock_both W hfs u (hfree rfl)
        have hwrite := writeBlock_withDisk W hlt (img.disk.takeBlock img.sb p) Buf.zero
        have hzero : (img.disk.takeBlock img.sb p).set p Buf.zero
            = img.disk.takeBlock img.sb p := Disk.set_set _ _ _ _
        rw [hzero] at hwrite
        refine Or.inr (Or.inr ⟨rfl, p, hp, ?_, ?_⟩)
        · show (edAllocateBlock >>= fun block => writeBlock block Buf.zero >>= fun _ =>
            pure (some block)) img = _
          rw [Ed.run_bind_ok he, Ed.run_bind_ok hwrite]
          rfl
        · simp only [if_true, Prog.run_bind, hk, arrayDev_write, hzero, Prog.run_pure]
  · have h0' : (field.toNat : Int) ≠ 0 := by
      intro hc
      exact h0 (UInt32.toNat.inj (Int.ofNat_eq_zero.mp hc))
    refine Or.inr (Or.inl ⟨h0, ?_, ?_⟩)
    · rw [if_neg h0']
      rfl
    · rw [if_neg h0]
      rfl

/-- The second-level block: nothing, the one stored, or a fresh block of zeros linked
from the double indirect block. -/
theorem getTable_mirrors {q di : Nat} {dibuf : Block} {alloc : Bool}
    (hq : q < img.sb.fsSizeBlocks.toNat)
    (hsmall : alloc = true → img.sb.fsSizeBlocks.toNat < 2147483648)
    (hfree : alloc = true → 1 ≤ (img.disk.freeBlocks img.sb).card) :
    (edGetTable q dibuf di alloc img = (.ok none, img)
      ∧ getTable (arrayDev u) img.sb q dibuf di alloc img.disk = (none, img.disk))
    ∨ (dibuf.word (4 * di) ≠ 0
      ∧ edGetTable q dibuf di alloc img = (.ok (some ((dibuf.word (4 * di)).toNat : Int)), img)
      ∧ getTable (arrayDev u) img.sb q dibuf di alloc img.disk
        = (some (dibuf.word (4 * di)).toNat, img.disk))
    ∨ (alloc = true ∧ ∃ p ∈ img.disk.freeBlocks img.sb, ∃ b,
      edGetTable q dibuf di alloc img = (.ok (some (p : Int)),
        img.withDisk (((img.disk.takeBlock img.sb p).set q b).set p Buf.zero))
      ∧ getTable (arrayDev u) img.sb q dibuf di alloc img.disk
        = (some p, ((img.disk.takeBlock img.sb p).set q b).set p Buf.zero)) := by
  unfold edGetTable getTable
  rcases em (dibuf.word (4 * di) = 0) with h0 | h0
  · simp only [h0, if_true]
    cases alloc with
    | false => exact Or.inl ⟨rfl, rfl⟩
    | true =>
        have hfs := hsmall rfl
        obtain ⟨p, hp, hlt, hk, he⟩ := allocateBlock_both W hfs u (hfree rfl)
        have hlink := writeBlock_withDisk W hq (img.disk.takeBlock img.sb p)
          (dibuf.putWord (4 * di) (UInt32.ofNat p))
        have hzero := writeBlock_withDisk W hlt ((img.disk.takeBlock img.sb p).set q
          (dibuf.putWord (4 * di) (UInt32.ofNat p))) Buf.zero
        refine Or.inr (Or.inr ⟨rfl, p, hp, dibuf.putWord (4 * di) (UInt32.ofNat p), ?_, ?_⟩)
        · rw [if_pos rfl, Ed.run_bind_ok he, Ed.run_bind_ok (packPointer_run hlt _),
            Ed.run_bind_ok hlink, Ed.run_bind_ok hzero]
          rfl
        · simp only [if_true, Prog.run_bind, hk, arrayDev_write, Prog.run_pure]
  · rw [if_neg h0, if_neg h0]
    exact Or.inr (Or.inl ⟨h0, rfl, rfl⟩)

theorem getLeaf_mirrors {q idx : Nat} {alloc : Bool} (hq : q < img.sb.fsSizeBlocks.toNat)
    (htable : img.disk.entry q (idx / 128) < min img.sb.fsSizeBlocks.toNat 2147483648)
    (hleaf : img.disk.entry (img.disk.entry q (idx / 128)) (idx % 128)
      < min img.sb.fsSizeBlocks.toNat 2147483648)
    (hq0 : q ≠ 0) (hbitmap : alloc = true → ¬ img.sb.BitmapBlock q)
    (hsmall : alloc = true → img.sb.fsSizeBlocks.toNat < 2147483648)
    (hfree : alloc = true → 2 ≤ (img.disk.freeBlocks img.sb).card) :
    Mirrors (fun a b => a = asPy b) (edGetLeaf q idx alloc)
      (getLeaf (arrayDev u) img.sb q idx alloc) img := by
  have L := W.sound
  have hentry : img.disk.entry q (idx / 128)
      = ((img.disk q).word (4 * (idx / 128))).toNat := if_neg hq0
  rw [hentry] at htable hleaf
  refine .bind_read (readBlock_run W hq) (arrayDev_read u q img.disk) ?_
  rcases @getTable_mirrors img W u q (idx / 128) (img.disk q) alloc hq hsmall
      (fun h => Nat.le_trans (by omega) (hfree h)) with
    ⟨he, hk⟩ | ⟨hne, he, hk⟩ | ⟨halloc, p, hp, b, he, hk⟩
  · exact .bind_read he hk (.pure rfl)
  · refine .bind_read he hk ?_
    have hne' : ((img.disk q).word (4 * (idx / 128))).toNat ≠ 0 := by
      intro hc
      exact hne (UInt32.toNat.inj hc)
    rw [Disk.entry, if_neg hne'] at hleaf
    exact getSingle_mirrors W u (by omega) hleaf hsmall fun h => Nat.le_trans (by omega) (hfree h)
  · obtain ⟨hdata, -⟩ := Disk.mem_freeBlocks.mp hp
    refine .bind_eq he hk ?_
    have hcard := L.bitmapBelow.card_takeBlock hp
    have hpos : 0 < min img.sb.fsSizeBlocks.toNat 2147483648 := by
      have hlt := hdata.2
      omega
    have hmany := hfree halloc
    have hfs := hsmall halloc
    refine getSingle_mirrors (W.withDisk _) u hdata.2 ?_ hsmall ?_
    · rw [DiskImage.disk_withDisk, Disk.set_self, Buf.word_zero]
      exact hpos
    · intro _
      rw [DiskImage.disk_withDisk, DiskImage.withDisk_sb, L.bitmapBelow.freeBlocks_set
        (L.bitmapBelow.not_bitmapBlock hdata), L.bitmapBelow.freeBlocks_set (hbitmap halloc)]
      omega

/-- What the kernel's block map returns, as the editor returns it. -/
def pyResult (res : Option Nat × Inode) : Int × PyInode := (asPy res.1, PyInode.ofInode res.2)

omit W hsmall in
theorem ofInode_setDirect (r : Inode) (l : Fin 6) {p : Nat} (hp : p < 4294967296) :
    PyInode.ofInode (r.setDirect l.val p) = (PyInode.ofInode r).setDirect l.val p := by
  unfold PyInode.ofInode Inode.setDirect PyInode.setDirect
  congr 1
  funext i
  simp only []
  split
  · rw [UInt32.toNat_ofNat', Nat.mod_eq_of_lt hp]
  · rfl

theorem getDirect_mirrors {r : Inode} {l : Fin 6} {alloc : Bool}
    (hptr : (r.direct l).toNat < min img.sb.fsSizeBlocks.toNat 2147483648)
    (hsmall : alloc = true → img.sb.fsSizeBlocks.toNat < 2147483648)
    (hfree : alloc = true → 1 ≤ (img.disk.freeBlocks img.sb).card) :
    Mirrors (fun a b => a = pyResult b) (edGetDirect (PyInode.ofInode r) l alloc)
      (getDirect (arrayDev u) img.sb r l alloc) img := by
  have hfield : (PyInode.ofInode r).direct l = ((r.direct l).toNat : Int) := rfl
  unfold edGetDirect getDirect
  rw [hfield]
  rcases em (r.direct l = 0) with h0 | h0
  · rw [if_pos (by rw [h0]; rfl), if_pos h0]
    cases alloc with
    | false => exact .pure rfl
    | true =>
        have hfs := hsmall rfl
        obtain ⟨p, -, hlt, hk, he⟩ := allocateBlock_both W hfs u (hfree rfl)
        rw [if_pos rfl, if_pos rfl]
        refine .bind_eq he hk (.pure ?_)
        rw [pyResult, ofInode_setDirect r l (by omega), asInt, if_pos (by omega)]
        rfl
  · have h0' : ((r.direct l).toNat : Int) ≠ 0 := by
      intro hc
      exact h0 (UInt32.toNat.inj (Int.ofNat_eq_zero.mp hc))
    rw [if_neg h0', if_neg h0]
    refine .pure ?_
    rw [pyResult, asInt, if_pos (by omega)]
    rfl

theorem getIndirect_mirrors {r : Inode} {j : Fin 128} {alloc : Bool}
    (hbelow : ∀ pos, img.disk.ptr r pos < min img.sb.fsSizeBlocks.toNat 2147483648)
    (hsmall : alloc = true → img.sb.fsSizeBlocks.toNat < 2147483648)
    (hfree : alloc = true → 2 ≤ (img.disk.freeBlocks img.sb).card) :
    Mirrors (fun a b => a = pyResult b) (edGetIndirect (PyInode.ofInode r) j.val alloc)
      (getIndirect (arrayDev u) img.sb r j.val alloc) img := by
  have hroot : r.indirect.toNat < min img.sb.fsSizeBlocks.toNat 2147483648 := hbelow .indirect
  unfold edGetIndirect getIndirect
  rcases @rootTable_mirrors img W u _ alloc hsmall
      (fun h => Nat.le_trans (by omega) (hfree h)) with
    ⟨he, hk⟩ | ⟨hne, he, hk⟩ | ⟨halloc, p, hp, he, hk⟩
  · exact .bind_read he hk (.pure rfl)
  · have hne' : r.indirect.toNat ≠ 0 := by
      intro hc
      exact hne (UInt32.toNat.inj hc)
    have hentry := hbelow (.single j)
    simp only [Disk.ptr, Disk.entry, if_neg hne'] at hentry
    refine .bind_read he hk ?_
    refine Mirrors.bind (getSingle_mirrors W u (by omega) hentry hsmall
      fun h => Nat.le_trans (by omega) (hfree h)) ?_
    rintro a rfl
    exact .pure rfl
  · obtain ⟨hdata, -⟩ := Disk.mem_freeBlocks.mp hp
    have hcard := W.sound.bitmapBelow.card_takeBlock hp
    have hpos : 0 < min img.sb.fsSizeBlocks.toNat 2147483648 := by
      have hlt := hdata.2
      omega
    have hmany := hfree halloc
    have hfs := hsmall halloc
    have hword : (UInt32.ofNat p).toNat = p := by
      rw [UInt32.toNat_ofNat', Nat.mod_eq_of_lt]
      have hlt := hdata.2
      omega
    refine .bind_eq he hk ?_
    simp only [hword]
    refine Mirrors.bind (getSingle_mirrors (W.withDisk _) u hdata.2 ?_ hsmall ?_) ?_
    · rw [DiskImage.disk_withDisk, Disk.takeBlock, Disk.set_self, Buf.word_zero]
      exact hpos
    · intro _
      rw [DiskImage.disk_withDisk, DiskImage.withDisk_sb]
      omega
    · rintro a rfl
      refine .pure ?_
      unfold pyResult PyInode.ofInode
      rw [hword]

theorem getDouble_mirrors {r : Inode} {idx : Nat} {alloc : Bool} (hidx : idx < 16384)
    (hbelow : ∀ pos, img.disk.ptr r pos < min img.sb.fsSizeBlocks.toNat 2147483648)
    (hbitmap : alloc = true → ¬ img.sb.BitmapBlock r.doubleIndirect.toNat)
    (hsmall : alloc = true → img.sb.fsSizeBlocks.toNat < 2147483648)
    (hfree : alloc = true → 3 ≤ (img.disk.freeBlocks img.sb).card) :
    Mirrors (fun a b => a = pyResult b) (edGetDouble (PyInode.ofInode r) idx alloc)
      (getDouble (arrayDev u) img.sb r idx alloc) img := by
  have hroot : r.doubleIndirect.toNat < min img.sb.fsSizeBlocks.toNat 2147483648 :=
    hbelow .double
  unfold edGetDouble getDouble
  rcases @rootTable_mirrors img W u _ alloc hsmall
      (fun h => Nat.le_trans (by omega) (hfree h)) with
    ⟨he, hk⟩ | ⟨hne, he, hk⟩ | ⟨halloc, p, hp, he, hk⟩
  · exact .bind_read he hk (.pure rfl)
  · have hne' : r.doubleIndirect.toNat ≠ 0 := by
      intro hc
      exact hne (UInt32.toNat.inj hc)
    have htable := hbelow (.table ⟨idx / 128, by omega⟩)
    have hleaf := hbelow (.leaf ⟨idx / 128, by omega⟩ ⟨idx % 128, by omega⟩)
    refine .bind_read he hk ?_
    refine Mirrors.bind (getLeaf_mirrors W u (by omega) htable hleaf hne' hbitmap hsmall
      fun h => Nat.le_trans (by omega) (hfree h)) ?_
    rintro a rfl
    exact .pure rfl
  · obtain ⟨hdata, -⟩ := Disk.mem_freeBlocks.mp hp
    have hcard := W.sound.bitmapBelow.card_takeBlock hp
    have hpos : 0 < min img.sb.fsSizeBlocks.toNat 2147483648 := by
      have hlt := hdata.2
      omega
    have hmany := hfree halloc
    have hfs := hsmall halloc
    have hp0 := W.sound.dataBlock_ne_zero hdata
    have hword : (UInt32.ofNat p).toNat = p := by
      rw [UInt32.toNat_ofNat', Nat.mod_eq_of_lt]
      have hlt := hdata.2
      omega
    have hnull : (img.disk.takeBlock img.sb p).entry p (idx / 128) = 0 := by
      rw [Disk.entry, if_neg hp0, Disk.takeBlock, Disk.set_self, Buf.word_zero]
      rfl
    refine .bind_eq he hk ?_
    simp only [hword]
    refine Mirrors.bind (getLeaf_mirrors (W.withDisk _) u hdata.2 ?_ ?_ hp0 ?_ hsmall ?_) ?_
    · rw [DiskImage.disk_withDisk, hnull]
      exact hpos
    · rw [DiskImage.disk_withDisk, hnull]
      exact hpos
    · intro _
      exact W.sound.bitmapBelow.not_bitmapBlock hdata
    · intro _
      rw [DiskImage.disk_withDisk, DiskImage.withDisk_sb]
      omega
    · rintro a rfl
      refine .pure ?_
      unfold pyResult PyInode.ofInode
      rw [hword]

theorem getBlockForInode_mirrors {r : Inode} {alloc : Bool} (l : Nat)
    (hbelow : ∀ pos, img.disk.ptr r pos < min img.sb.fsSizeBlocks.toNat 2147483648)
    (hbitmap : alloc = true → ¬ img.sb.BitmapBlock r.doubleIndirect.toNat)
    (hsmall : alloc = true → img.sb.fsSizeBlocks.toNat < 2147483648)
    (hfree : alloc = true → 3 ≤ (img.disk.freeBlocks img.sb).card) :
    Mirrors (fun a b => a = pyResult b) (edGetBlockForInode (PyInode.ofInode r) l alloc)
      (getDataBlockForInode (arrayDev u) img.sb r l alloc) img := by
  unfold edGetBlockForInode getDataBlockForInode
  rcases em (l < 6) with h6 | h6
  · rw [dif_pos h6, dif_pos h6]
    exact getDirect_mirrors W u (hbelow (.direct ⟨l, h6⟩)) hsmall
      fun h => Nat.le_trans (by omega) (hfree h)
  · rw [dif_neg h6, dif_neg h6]
    rcases em (l - 6 < 128) with h128 | h128
    · rw [if_pos h128, if_pos h128]
      exact getIndirect_mirrors W u (j := ⟨l - 6, h128⟩) hbelow hsmall
        fun h => Nat.le_trans (by omega) (hfree h)
    · rw [if_neg h128, if_neg h128]
      rcases em (l - 6 - 128 ≥ 128 * 128) with hbig | hbig
      · rw [if_pos hbig, if_pos hbig]
        exact .pure rfl
      · rw [if_neg hbig, if_neg hbig]
        exact getDouble_mirrors W u (by omega) hbelow hbitmap hsmall hfree

end

/-- On a whole volume below `2^31` blocks, for a record none of whose pointers leaves the
volume, the two block maps look up the same block, and with three free blocks and
a double indirect block outside the block bitmap they allocate the same block, and leave
the same record and the same image. -/
theorem blockMaps_agree (u : Block) (img : DiskImage) (W : img.Whole)
    (hsmall : img.sb.fsSizeBlocks.toNat < 2147483648) (r : Inode)
    (hbelow : ∀ pos, img.disk.ptr r pos < img.sb.fsSizeBlocks.toNat) (l : Nat) :
    (∃ res, getDataBlockForInode (arrayDev u) img.sb r l false img.disk = (res, img.disk)
      ∧ edGetBlockForInode (PyInode.ofInode r) l false img = (.ok (pyResult res), img))
    ∧ (3 ≤ (img.disk.freeBlocks img.sb).card →
      ¬ img.sb.BitmapBlock r.doubleIndirect.toNat →
      ∃ res d, getDataBlockForInode (arrayDev u) img.sb r l true img.disk = (res, d)
        ∧ edGetBlockForInode (PyInode.ofInode r) l true img
          = (.ok (pyResult res), img.withDisk d)) := by
  have hmin : ∀ pos, img.disk.ptr r pos < min img.sb.fsSizeBlocks.toNat 2147483648 := by
    intro pos
    have hlt := hbelow pos
    omega
  refine ⟨?_, fun hfree hbitmap => ?_⟩
  · have hread := @getBlockForInode_mirrors img W u r false l hmin nofun nofun nofun
    have hrun := hread.run
    have hsame := getDataBlock_lookup u img.sb r img.disk l
    rw [hsame, DiskImage.withDisk_disk] at hrun
    exact ⟨_, hsame, hrun⟩
  · have hmap := @getBlockForInode_mirrors img W u r true l hmin
      (fun _ => hbitmap) (fun _ => hsmall) (fun _ => hfree)
    exact ⟨_, _, rfl, hmap.run⟩

/-- A volume of ten blocks, three of them data blocks, all free. -/
def emptyVolume : DiskImage where
  startLba := 0
  count := 10
  sectors := fun _ => Buf.zero
  sb :=
    { Superblock.zero with
      fsSizeBlocks := 10
      inodeCount := 1
      inodeBitmapStart := 1
      blockBitmapStart := 2
      inodeTableStart := 3
      dataBlocksStart := 7 }

theorem emptyVolume_whole : emptyVolume.Whole where
  sound := by constructor <;> decide
  covered := by decide

theorem emptyVolume_free : (emptyVolume.disk.freeBlocks emptyVolume.sb).card = 3 := by
  decide +kernel

/-- A record whose double indirect block is the block bitmap. -/
def bitmapRecord : Inode := { Inode.zero with doubleIndirect := 2 }

theorem emptyVolume_entry (q j : Nat) : emptyVolume.disk.entry q j = 0 := by
  unfold Disk.entry
  split
  · rfl
  · exact congrArg UInt32.toNat (Buf.word_zero (4 * j))

theorem bitmapRecord_below (r : Inode) (hr : r = Inode.zero ∨ r = bitmapRecord) (pos : Pos) :
    emptyVolume.disk.ptr r pos < emptyVolume.sb.fsSizeBlocks.toNat := by
  have hsize : emptyVolume.sb.fsSizeBlocks.toNat = 10 := rfl
  rw [hsize]
  cases pos with
  | direct i => rcases hr with rfl | rfl <;> exact Nat.zero_lt_succ 9
  | indirect => rcases hr with rfl | rfl <;> decide
  | double => rcases hr with rfl | rfl <;> decide
  | single j => simp only [Disk.ptr, emptyVolume_entry, Nat.zero_lt_succ]
  | table j => simp only [Disk.ptr, emptyVolume_entry, Nat.zero_lt_succ]
  | leaf j k => simp only [Disk.ptr, emptyVolume_entry, Nat.zero_lt_succ]

/-- A fresh record on an empty volume, at the first index of the double indirect tree. -/
theorem blockMaps_agree_fresh :
    emptyVolume.sb.fsSizeBlocks.toNat < 2147483648
    ∧ 3 ≤ (emptyVolume.disk.freeBlocks emptyVolume.sb).card
    ∧ ∃ res d, getDataBlockForInode (arrayDev Buf.zero) emptyVolume.sb Inode.zero 134 true
          emptyVolume.disk = (res, d)
        ∧ edGetBlockForInode (PyInode.ofInode Inode.zero) 134 true emptyVolume
          = (.ok (pyResult res), emptyVolume.withDisk d) :=
  ⟨by decide, emptyVolume_free.ge,
    (blockMaps_agree Buf.zero emptyVolume emptyVolume_whole (by decide) Inode.zero
      (bitmapRecord_below _ (Or.inl rfl)) 134).2 emptyVolume_free.ge (by decide)⟩

/-- With its double indirect block in the block bitmap, a record gets an entry that
marks the last free blocks used: the kernel reports no space, the editor raises. -/
theorem blockMaps_bitmap_differ :
    emptyVolume.Whole ∧ emptyVolume.sb.fsSizeBlocks.toNat < 2147483648
    ∧ (∀ pos, emptyVolume.disk.ptr bitmapRecord pos < emptyVolume.sb.fsSizeBlocks.toNat)
    ∧ 3 ≤ (emptyVolume.disk.freeBlocks emptyVolume.sb).card
    ∧ (getDataBlockForInode (arrayDev Buf.zero) emptyVolume.sb bitmapRecord 134 true
        emptyVolume.disk).1.1 = none
    ∧ (edGetBlockForInode (PyInode.ofInode bitmapRecord) 134 true emptyVolume).1.isOk = false :=
  ⟨emptyVolume_whole, by decide, bitmapRecord_below _ (Or.inr rfl), emptyVolume_free.ge,
    by decide +kernel, by decide +kernel⟩

end IpoOs
