import IpoOs.EdFiles

/-!
# Blocks released by the editor

`put` and `delete` clear the bits of the blocks that they give back. Both
go through the direct pointers that the recorded size covers and through
the indirect block with all of its entries, which is the release of the
kernel; `delete` goes through the double indirect block as well. The
direct pointers past the recorded size are left out by both.

The positions of a release are a predicate (`putPos`, `deletePos`), so the
state after it is the state before with the bits at these positions clear.
Where the release is the kernel's, its lemma is the kernel's lemma taken
over by `Mirrors`.
-/

namespace IpoOs

/-- The positions that `put` releases. -/
def putPos (r : Inode) : Pos → Prop
  | .direct j => j.val < blocksFor r.size.toNat
  | .indirect => True
  | .single _ => True
  | _ => False

/-- The positions that `delete` releases. -/
def deletePos (r : Inode) : Pos → Prop
  | .direct j => j.val < blocksFor r.size.toNat
  | _ => True

instance (r : Inode) : DecidablePred (putPos r) := fun pos =>
  Pos.casesOn (motive := fun pos => Decidable (putPos r pos)) pos
    (fun j => inferInstanceAs (Decidable (j.val < blocksFor r.size.toNat))) instDecidableTrue
    (fun _ => instDecidableTrue) instDecidableFalse (fun _ => instDecidableFalse)
    fun _ _ => instDecidableFalse

instance (r : Inode) : DecidablePred (deletePos r) := fun pos =>
  Pos.casesOn (motive := fun pos => Decidable (deletePos r pos)) pos
    (fun j => inferInstanceAs (Decidable (j.val < blocksFor r.size.toNat))) instDecidableTrue
    (fun _ => instDecidableTrue) instDecidableTrue (fun _ => instDecidableTrue)
    fun _ _ => instDecidableTrue

/-- The record after the release of `put`. -/
def Inode.putFreed (r : Inode) : Inode :=
  { r with
    direct := fun j => if j.val < blocksFor r.size.toNat then 0 else r.direct j
    indirect := 0 }

/-- The blocks that a record has at the positions of `A`. -/
def Disk.blocksAt (d : Disk) (r : Inode) (A : Pos → Prop) (p : Nat) : Prop :=
  p ≠ 0 ∧ ∃ pos, A pos ∧ d.ptr r pos = p

section

variable {img : DiskImage} (W : img.Whole) (u : Block)

include W

theorem edClearBit_run {p : Nat} (hp : img.sb.DataBlock p) :
    edClearBit p img = (.ok (), img.withDisk (img.disk.setBlockUsed img.sb p false)) := by
  obtain ⟨hlow, hup⟩ := hp
  have h1 := W.sound.blockBitmap
  have h2 := W.sound.inodeTable
  have h3 := W.sound.data
  have hsub : (p : Int) - (img.sb.dataBlocksStart.toNat : Nat)
      = ((p - img.sb.dataBlocksStart.toNat : Nat) : Int) := (Int.ofNat_sub hlow).symm
  unfold edClearBit
  rw [Ed.run_bind_ok (superblock_run img), hsub]
  exact edBitmapSet_run W (by omega) false

/-! ## What the kernel releases too

The direct pointers and the indirect block. -/

theorem clearBit_mirrors {ptr : UInt32} (h0 : ptr ≠ 0) (hp : img.sb.DataBlock ptr.toNat) :
    Mirrors (fun _ _ => True) (edClearBit (ptr.toNat : Nat))
      (clearBlockBit (arrayDev u) img.sb ptr) img := by
  have hsub := sub32_of_le hp.1 ptr.toNat_lt
  refine .of_eq (edClearBit_run W hp) (b := true) ?_ trivial
  simp [clearBlockBit, h0, Disk.setBlockUsed, hsub]

omit W in
theorem Inode.setDirect_null {r : Inode} {i : Nat} (hi : i < 6) (h0 : r.direct ⟨i, hi⟩ = 0) :
    r.setDirect i 0 = r := by
  have hd : (r.setDirect i 0).direct = r.direct := by
    funext j
    show (if j.val = i then 0 else r.direct j) = r.direct j
    split
    · rename_i hj
      rw [← h0]
      exact congrArg r.direct (Fin.ext hj.symm)
    · rfl
  cases r
  exact congrArg (fun d => Inode.mk _ _ _ d _ _ _) hd

theorem freeDirect_mirrors (n i : Nat) (r : Inode)
    (h : ∀ j, r.direct j ≠ 0 → img.sb.DataBlock (r.direct j).toNat) :
    Mirrors (fun a b => a = PyInode.ofInode b) (edFreeDirect n i (PyInode.ofInode r))
      (freeDirect (arrayDev u) img.sb n i r) img := by
  induction n generalizing i r img with
  | zero => exact .pure rfl
  | succ n ih =>
      unfold edFreeDirect freeDirect
      split
      · rename_i hi
        have hnext : ∀ j, (r.setDirect i 0).direct j ≠ 0 →
            img.sb.DataBlock ((r.setDirect i 0).direct j).toNat := by
          intro j hj
          have heq : (r.setDirect i 0).direct j = if j.val = i then 0 else r.direct j := rfl
          rw [heq] at hj ⊢
          split at hj
          · exact absurd rfl hj
          · rename_i hji
            rw [if_neg hji]
            exact h j hj
        split
        · rename_i h0
          have hne : r.direct ⟨i, hi⟩ ≠ 0 := by
            intro hc
            refine h0 ?_
            show ((r.direct ⟨i, hi⟩).toNat : Int) = 0
            rw [hc]
            rfl
          have hset := ofInode_setDirect r ⟨i, hi⟩ (p := 0) (by decide)
          refine (clearBit_mirrors W u hne (h _ hne)).bind fun _ _ => ?_
          rw [show (PyInode.ofInode r).setDirect i 0
            = PyInode.ofInode (r.setDirect i 0) from hset.symm]
          exact ih (W.withDisk _) (i + 1) (r.setDirect i 0) hnext
        · rename_i h0
          have hnull : r.direct ⟨i, hi⟩ = 0 := by
            have hz : ((r.direct ⟨i, hi⟩).toNat : Int) = 0 := not_not.mp h0
            exact UInt32.toNat.inj (Int.natCast_eq_zero.mp hz)
          rw [Inode.setDirect_null hi hnull]
          have hclear : clearBlockBit (arrayDev u) img.sb (r.direct ⟨i, hi⟩) = pure true := by
            rw [clearBlockBit, if_pos hnull]
          rw [hclear]
          exact ih W (i + 1) r h
      · exact .pure rfl

theorem freePtrs_mirrors (b : Block) (n i : Nat)
    (h : ∀ j, j < i + n → b.word (4 * j) ≠ 0 → img.sb.DataBlock (b.word (4 * j)).toNat) :
    Mirrors (fun _ _ => True) (edFreePtrs b n i) (freePtrs (arrayDev u) img.sb b n i) img := by
  induction n generalizing i img with
  | zero => exact .pure trivial
  | succ n ih =>
      have hrest : ∀ j, j < i + 1 + n → b.word (4 * j) ≠ 0 →
          img.sb.DataBlock (b.word (4 * j)).toNat := fun j hj => h j (by omega)
      unfold edFreePtrs freePtrs
      split
      · rename_i h0
        refine (clearBit_mirrors W u h0 (h i (by omega) h0)).bind fun _ _ => ?_
        exact ih (W.withDisk _) (i + 1) hrest
      · rename_i h0
        have hclear : clearBlockBit (arrayDev u) img.sb (b.word (4 * i)) = pure true := by
          rw [clearBlockBit, if_pos (not_not.mp h0)]
        rw [hclear]
        exact ih W (i + 1) hrest

theorem edFreePtrs_spec (b : Block) (n i : Nat)
    (h : ∀ j, j < i + n → b.word (4 * j) ≠ 0 → img.sb.DataBlock (b.word (4 * j)).toNat) :
    ∃ d', edFreePtrs b n i img = (.ok (), img.withDisk d')
      ∧ Freed img.sb (fun p => ∃ j, (i ≤ j ∧ j < i + n) ∧ p = (b.word (4 * j)).toNat ∧ p ≠ 0)
        img.disk d' := by
  obtain ⟨d', hrun, hf⟩ := freePtrs_spec W.sound Buf.zero (d := img.disk) b n i fun j hj h0 =>
    h j hj fun hc => h0 (by rw [hc]; rfl)
  obtain ⟨a, hed, -⟩ := freePtrs_mirrors W Buf.zero b n i h
  rw [hrun] at hed
  exact ⟨d', hed, hf⟩

theorem edFreeIndirect_spec (r : Inode)
    (h : ∀ pos, pos = .indirect ∨ (∃ j, pos = .single j) → img.disk.ptr r pos ≠ 0 →
      img.sb.DataBlock (img.disk.ptr r pos)) :
    ∃ d', edFreeIndirect (PyInode.ofInode r) img
        = (.ok (PyInode.ofInode { r with indirect := 0 }), img.withDisk d')
      ∧ Freed img.sb (img.disk.blocksAt r fun pos => pos = .indirect ∨ ∃ j, pos = .single j)
        img.disk d' := by
  have hfield : (PyInode.ofInode r).indirect = (r.indirect.toNat : Nat) := rfl
  unfold edFreeIndirect
  rw [hfield]
  rcases em (r.indirect.toNat = 0) with h0 | h0
  · have hnull : r.indirect = 0 := UInt32.toNat.inj h0
    refine ⟨img.disk, ?_, (Freed.refl img.disk).congr fun p => ?_⟩
    · have hr : { r with indirect := 0 } = r := by
        rw [← hnull]
      rw [h0, if_neg (by simp), hr, DiskImage.withDisk_disk]
      rfl
    · simp only [false_iff]
      rintro ⟨hp0, pos, rfl | ⟨j, rfl⟩, hp⟩
      · exact hp0 (hp.symm.trans h0)
      · refine hp0 (hp.symm.trans ?_)
        rw [Disk.ptr, Disk.entry, if_pos h0]
  · have hdb : img.sb.DataBlock r.indirect.toNat := h .indirect (Or.inl rfl) h0
    have hword : ∀ j : Fin 128, img.disk.ptr r (.single j)
        = ((img.disk r.indirect.toNat).word (4 * j.val)).toNat := by
      intro j
      rw [Disk.ptr, Disk.entry, if_neg h0]
    obtain ⟨d₁, hptrs, hf⟩ := edFreePtrs_spec W (img.disk r.indirect.toNat) 128 0
      fun j hj hj0 => by
        have hs := h (.single ⟨j, by omega⟩) (Or.inr ⟨_, rfl⟩)
        rw [hword] at hs
        exact hs fun hc => hj0 (UInt32.toNat.inj hc)
    have hclear := edClearBit_run (W.withDisk d₁) (p := r.indirect.toNat) hdb
    rw [DiskImage.withDisk_withDisk, DiskImage.disk_withDisk, DiskImage.withDisk_sb] at hclear
    refine ⟨d₁.setBlockUsed img.sb r.indirect.toNat false, ?_,
      (hf.trans (freed_one W.sound hdb)).congr fun p => ?_⟩
    · rw [if_pos (Int.natCast_ne_zero.mpr h0), Ed.run_bind_ok (readBlock_run W hdb.2),
        Ed.run_bind_ok hptrs, Ed.run_bind_ok hclear]
      rfl
    · constructor
      · rintro (⟨j, hj, hp, hp0⟩ | rfl)
        · exact ⟨hp0, .single ⟨j, by omega⟩, Or.inr ⟨_, rfl⟩, by rw [hword, hp]⟩
        · exact ⟨h0, .indirect, Or.inl rfl, rfl⟩
      · rintro ⟨hp0, pos, rfl | ⟨j, rfl⟩, hp⟩
        · exact Or.inr hp.symm
        · exact Or.inl ⟨j.val, by omega, by rw [← hword, hp], hp0⟩

/-! ## The double indirect block

Each table and then the block of tables. -/

/-- The blocks of the second-level block behind entry `j` of a pointer block, and that block. -/
def Disk.tableBlocks (d : Disk) (b : Block) (j p : Nat) : Prop :=
  b.word (4 * j) ≠ 0 ∧ (p = (b.word (4 * j)).toNat
    ∨ p ≠ 0 ∧ ∃ k, k < 128 ∧ p = ((d (b.word (4 * j)).toNat).word (4 * k)).toNat)

theorem edFreeTables_spec (b : Block) (n i : Nat)
    (h : ∀ j, j < i + n → ∀ p, img.disk.tableBlocks b j p → img.sb.DataBlock p) :
    ∃ d', edFreeTables b n i img = (.ok (), img.withDisk d')
      ∧ Freed img.sb (fun p => ∃ j, (i ≤ j ∧ j < i + n) ∧ img.disk.tableBlocks b j p)
        img.disk d' := by
  induction n generalizing i img with
  | zero =>
      refine ⟨img.disk, ?_, (Freed.refl img.disk).congr fun p => ?_⟩
      · rw [DiskImage.withDisk_disk]
        rfl
      · simp only [false_iff]
        rintro ⟨j, hj, -⟩
        omega
  | succ n ih =>
      have hrest : ∀ j, j < i + 1 + n → ∀ p, img.disk.tableBlocks b j p → img.sb.DataBlock p :=
        fun j hj => h j (by omega)
      unfold edFreeTables
      split
      · rename_i h0
        have hdb : img.sb.DataBlock (b.word (4 * i)).toNat := h i (by omega) _ ⟨h0, Or.inl rfl⟩
        obtain ⟨d₁, hptrs, hf⟩ := edFreePtrs_spec W (img.disk (b.word (4 * i)).toNat) 128 0
          fun k hk hk0 => h i (by omega) _ ⟨h0, Or.inr ⟨fun hc => hk0 (UInt32.toNat.inj hc),
            k, by omega, rfl⟩⟩
        have hclear := edClearBit_run (W.withDisk d₁) (p := (b.word (4 * i)).toNat) hdb
        rw [DiskImage.withDisk_withDisk, DiskImage.disk_withDisk, DiskImage.withDisk_sb] at hclear
        have hf₂ := hf.trans (freed_one W.sound hdb)
        -- the bits cleared so far are not in the second-level blocks
        have htables : ∀ j, j < i + 1 + n → ∀ p,
            (d₁.setBlockUsed img.sb (b.word (4 * i)).toNat false).tableBlocks b j p
              ↔ img.disk.tableBlocks b j p := by
          intro j hj p
          refine and_congr_right fun hj0 => or_congr_right (and_congr_right fun _ => ?_)
          rw [hf₂.data _ (h j (by omega) _ ⟨hj0, Or.inl rfl⟩).1]
        obtain ⟨d₂, hrun, hf₃⟩ := @ih (img.withDisk (d₁.setBlockUsed img.sb (b.word (4 * i)).toNat
            false)) (W.withDisk _) (i + 1) fun j hj p hp => hrest j hj p (by
          rw [DiskImage.disk_withDisk] at hp
          exact (htables j hj p).mp hp)
        rw [DiskImage.withDisk_withDisk] at hrun
        rw [DiskImage.disk_withDisk, DiskImage.withDisk_sb] at hf₃
        refine ⟨d₂, ?_, (hf₂.trans hf₃).congr fun p => ?_⟩
        · rw [Ed.run_bind_ok (readBlock_run W hdb.2), Ed.run_bind_ok hptrs, Ed.run_bind_ok hclear]
          exact hrun
        · constructor
          · rintro ((⟨k, hk, hp, hp0⟩ | rfl) | ⟨j, hj, hp⟩)
            · exact ⟨i, by omega, h0, Or.inr ⟨hp0, k, by omega, hp⟩⟩
            · exact ⟨i, by omega, h0, Or.inl rfl⟩
            · exact ⟨j, by omega, (htables j (by omega) p).mp hp⟩
          · rintro ⟨j, hj, hp⟩
            rcases em (j = i) with rfl | hji
            · refine Or.inl ?_
              rcases hp.2 with hp | ⟨hp0, k, hk, hp⟩
              · exact Or.inr hp
              · exact Or.inl ⟨k, by omega, hp, hp0⟩
            · exact Or.inr ⟨j, by omega, (htables j (by omega) p).mpr hp⟩
      · rename_i h0
        obtain ⟨d', hrun, hf⟩ := ih W (i + 1) hrest
        refine ⟨d', hrun, hf.congr fun p => ?_⟩
        constructor
        · rintro ⟨j, hj, hp⟩
          exact ⟨j, by omega, hp⟩
        · rintro ⟨j, hj, hp⟩
          refine ⟨j, ?_, hp⟩
          rcases em (j = i) with rfl | hji
          · exact absurd hp.1 h0
          · omega

theorem edFreeDouble_spec (r : Inode)
    (h : ∀ pos, pos = .double ∨ (∃ j, pos = .table j) ∨ (∃ j k, pos = .leaf j k) →
      img.disk.ptr r pos ≠ 0 → img.sb.DataBlock (img.disk.ptr r pos)) :
    ∃ d', edFreeDouble (PyInode.ofInode r) img
        = (.ok (PyInode.ofInode { r with doubleIndirect := 0 }), img.withDisk d')
      ∧ Freed img.sb (img.disk.blocksAt r fun pos =>
          pos = .double ∨ (∃ j, pos = .table j) ∨ ∃ j k, pos = .leaf j k) img.disk d' := by
  have hfield : (PyInode.ofInode r).doubleIndirect = (r.doubleIndirect.toNat : Nat) := rfl
  unfold edFreeDouble
  rw [hfield]
  rcases em (r.doubleIndirect.toNat = 0) with h0 | h0
  · have hnull : r.doubleIndirect = 0 := UInt32.toNat.inj h0
    refine ⟨img.disk, ?_, (Freed.refl img.disk).congr fun p => ?_⟩
    · have hr : { r with doubleIndirect := 0 } = r := by
        rw [← hnull]
      rw [h0, if_neg (by simp), hr, DiskImage.withDisk_disk]
      rfl
    · simp only [false_iff]
      have hzero : ∀ j, img.disk.entry r.doubleIndirect.toNat j = 0 := fun j => by
        rw [Disk.entry, if_pos h0]
      rintro ⟨hp0, pos, rfl | ⟨j, rfl⟩ | ⟨j, k, rfl⟩, hp⟩
      · exact hp0 (hp.symm.trans h0)
      · exact hp0 (hp.symm.trans (hzero j))
      · refine hp0 (hp.symm.trans ?_)
        rw [Disk.ptr, hzero, Disk.entry, if_pos rfl]
  · have hdb : img.sb.DataBlock r.doubleIndirect.toNat := h .double (Or.inl rfl) h0
    have htable : ∀ j : Fin 128, img.disk.ptr r (.table j)
        = ((img.disk r.doubleIndirect.toNat).word (4 * j.val)).toNat := by
      intro j
      rw [Disk.ptr, Disk.entry, if_neg h0]
    have hleaf : ∀ j k : Fin 128, (img.disk r.doubleIndirect.toNat).word (4 * j.val) ≠ 0 →
        img.disk.ptr r (.leaf j k)
          = ((img.disk ((img.disk r.doubleIndirect.toNat).word (4 * j.val)).toNat).word
              (4 * k.val)).toNat := by
      intro j k hj
      have hne : img.disk.entry r.doubleIndirect.toNat j.val ≠ 0 := by
        rw [Disk.entry, if_neg h0]
        exact fun hc => hj (UInt32.toNat.inj hc)
      rw [Disk.ptr, Disk.entry, if_neg hne, Disk.entry, if_neg h0]
    have hblocks : ∀ p, (∃ j, j < 128 ∧ img.disk.tableBlocks (img.disk r.doubleIndirect.toNat) j p)
        ↔ img.disk.blocksAt r (fun pos => (∃ j, pos = .table j) ∨ ∃ j k, pos = .leaf j k) p := by
      intro p
      constructor
      · rintro ⟨j, hj, hj0, rfl | ⟨hp0, k, hk, rfl⟩⟩
        · exact ⟨fun hc => hj0 (UInt32.toNat.inj hc), .table ⟨j, hj⟩, Or.inl ⟨_, rfl⟩, htable _⟩
        · exact ⟨hp0, .leaf ⟨j, hj⟩ ⟨k, hk⟩, Or.inr ⟨_, _, rfl⟩, hleaf ⟨j, hj⟩ ⟨k, hk⟩ hj0⟩
      · rintro ⟨hp0, pos, ⟨j, rfl⟩ | ⟨j, k, rfl⟩, hp⟩
        · rw [htable] at hp
          exact ⟨j.val, j.isLt, fun hc => hp0 (by rw [← hp, hc]; rfl), Or.inl hp.symm⟩
        · have hj0 : (img.disk r.doubleIndirect.toNat).word (4 * j.val) ≠ 0 := by
            intro hc
            refine hp0 (hp.symm.trans ?_)
            have hnull : img.disk.entry r.doubleIndirect.toNat j.val = 0 := by
              rw [Disk.entry, if_neg h0, hc]
              rfl
            rw [Disk.ptr, hnull, Disk.entry, if_pos rfl]
          rw [hleaf j k hj0] at hp
          exact ⟨j.val, j.isLt, hj0, Or.inr ⟨hp0, k.val, k.isLt, hp.symm⟩⟩
    obtain ⟨d₁, htables, hf⟩ := edFreeTables_spec W (img.disk r.doubleIndirect.toNat) 128 0
      fun j hj p hp => by
        obtain ⟨hp0, pos, hpos, rfl⟩ := (hblocks p).mp ⟨j, by omega, hp⟩
        exact h pos (Or.inr hpos) hp0
    have hclear := edClearBit_run (W.withDisk d₁) (p := r.doubleIndirect.toNat) hdb
    rw [DiskImage.withDisk_withDisk, DiskImage.disk_withDisk, DiskImage.withDisk_sb] at hclear
    refine ⟨d₁.setBlockUsed img.sb r.doubleIndirect.toNat false, ?_,
      (hf.trans (freed_one W.sound hdb)).congr fun p => ?_⟩
    · rw [if_pos (Int.natCast_ne_zero.mpr h0), Ed.run_bind_ok (readBlock_run W hdb.2),
        Ed.run_bind_ok htables, Ed.run_bind_ok hclear]
      rfl
    · constructor
      · rintro (⟨j, hj, hp⟩ | rfl)
        · obtain ⟨hp0, pos, hpos, hp⟩ := (hblocks p).mp ⟨j, by omega, hp⟩
          exact ⟨hp0, pos, Or.inr hpos, hp⟩
        · exact ⟨h0, .double, Or.inl rfl, rfl⟩
      · rintro ⟨hp0, pos, rfl | hpos, hp⟩
        · exact Or.inr hp.symm
        · obtain ⟨j, hj, hp⟩ := (hblocks p).mpr ⟨hp0, pos, hpos, hp⟩
          exact Or.inl ⟨j, by omega, hp⟩

end

/-! ## The release as a whole

The two releases, and the record that `put` goes on with. -/

theorem packInode_empty (img : DiskImage) :
    packInode PyInode.empty img = (.ok Inode.zero, img) := by
  have hpack := packInode_ofInode Inode.zero 0 img
  rw [if_pos (by decide)] at hpack
  exact hpack

theorem Disk.ptr_of_data {sb : Superblock} {d d' : Disk} {r : Inode}
    (hdb : ∀ pos, d.ptr r pos ≠ 0 → sb.DataBlock (d.ptr r pos))
    (h : ∀ q, sb.dataBlocksStart.toNat ≤ q → d' q = d q) (pos : Pos) :
    d'.ptr r pos = d.ptr r pos := by
  have hentry : ∀ s j, d'.entry (d.ptr r s) j = d.entry (d.ptr r s) j := by
    intro s j
    unfold Disk.entry
    split
    · rfl
    · rename_i h0
      rw [h _ (hdb s h0).1]
  cases pos with
  | direct i => rfl
  | indirect => rfl
  | double => rfl
  | single j => exact hentry .indirect j
  | table j => exact hentry .double j
  | leaf j k =>
      have htable : d'.ptr r (.table j) = d.ptr r (.table j) := hentry .double j
      show d'.entry (d'.ptr r (.table j)) k = _
      rw [htable]
      exact hentry (.table j) k

theorem Disk.ptr_putFreed (d : Disk) (r : Inode) (pos : Pos) :
    d.ptr r.putFreed pos = if putPos r pos then 0 else d.ptr r pos := by
  cases pos with
  | direct j =>
      by_cases hj : putPos r (.direct j)
      · have hlt : j.val < blocksFor r.size.toNat := hj
        rw [if_pos hj]
        simp only [Disk.ptr, Inode.putFreed, if_pos hlt, UInt32.toNat_zero]
      · have hge : ¬ j.val < blocksFor r.size.toNat := hj
        rw [if_neg hj]
        simp only [Disk.ptr, Inode.putFreed, if_neg hge]
  | indirect => simp [Disk.ptr, Inode.putFreed, putPos]
  | single j => simp [Disk.ptr, Inode.putFreed, putPos, Disk.entry]
  | double => simp [Disk.ptr, Inode.putFreed, putPos]
  | table j => simp [Disk.ptr, Inode.putFreed, putPos]
  | leaf j k => simp [Disk.ptr, Inode.putFreed, putPos]

section

variable {img : DiskImage} (W : img.Whole) {r : Inode}
  (hdb : ∀ pos, img.disk.ptr r pos ≠ 0 → img.sb.DataBlock (img.disk.ptr r pos))

include W hdb

theorem edPutFree_spec : ∃ d', edPutFree (PyInode.ofInode r) img
      = (.ok (PyInode.ofInode r.putFreed), img.withDisk d')
    ∧ Freed img.sb (img.disk.blocksAt r (putPos r)) img.disk d' := by
  have hfield : (PyInode.ofInode r).size = r.size.toNat := rfl
  have hdirect : ∀ j, r.direct j ≠ 0 → img.sb.DataBlock (r.direct j).toNat := fun j hj =>
    hdb (.direct j) fun hc => hj (UInt32.toNat.inj hc)
  obtain ⟨d₁, hrun, hf⟩ := freeDirect_spec W.sound Buf.zero (d := img.disk)
    (min 6 (blocksFor r.size.toNat)) 0 r (fun j hj => hdb (.direct j) hj) (by omega)
  have hed := (freeDirect_mirrors W Buf.zero (min 6 (blocksFor r.size.toNat)) 0 r hdirect).run
  rw [hrun] at hed
  have hkept : ∀ pos, d₁.ptr r pos = img.disk.ptr r pos := Disk.ptr_of_data hdb hf.data
  have hrecord : ∀ pos, pos = .indirect ∨ (∃ j, pos = .single j) →
      d₁.ptr { r with direct := fun j : Fin 6 => if 0 ≤ j.val
        ∧ j.val < 0 + min 6 (blocksFor r.size.toNat) then 0 else r.direct j } pos
        = img.disk.ptr r pos := by
    rintro pos (rfl | ⟨j, rfl⟩)
    · rfl
    · exact hkept (.single j)
  obtain ⟨d₂, hind, hf₂⟩ := edFreeIndirect_spec (W.withDisk d₁)
    { r with direct := fun j : Fin 6 => if 0 ≤ j.val
        ∧ j.val < 0 + min 6 (blocksFor r.size.toNat) then 0 else r.direct j } fun pos hpos h0 => by
      rw [DiskImage.disk_withDisk, hrecord pos hpos] at h0 ⊢
      exact hdb pos h0
  rw [DiskImage.withDisk_withDisk] at hind
  rw [DiskImage.disk_withDisk, DiskImage.withDisk_sb] at hf₂
  have hfreed : { r with
      direct := fun j : Fin 6 => (if 0 ≤ j.val ∧ j.val < 0 + min 6 (blocksFor r.size.toNat) then 0
        else r.direct j)
      indirect := 0 } = r.putFreed := by
    have hd : (fun j : Fin 6 => if 0 ≤ j.val ∧ j.val < 0 + min 6 (blocksFor r.size.toNat) then 0
        else r.direct j) = fun j => if j.val < blocksFor r.size.toNat then 0 else r.direct j := by
      funext j
      have hj := j.isLt
      refine if_congr ?_ rfl rfl
      omega
    rw [hd]
    rfl
  refine ⟨d₂, ?_, (hf.trans hf₂).congr fun p => ?_⟩
  · unfold edPutFree
    rw [hfield, Ed.run_bind_ok hed, hind, ← hfreed]
  · constructor
    · rintro (⟨j, hj, hp, hp0⟩ | ⟨hp0, pos, hpos, hp⟩)
      · have hlt : putPos r (.direct j) := by
          show j.val < blocksFor r.size.toNat
          omega
        exact ⟨hp0, .direct j, hlt, hp.symm⟩
      · rw [hrecord pos hpos] at hp
        refine ⟨hp0, pos, ?_, hp⟩
        rcases hpos with rfl | ⟨j, rfl⟩ <;> trivial
    · rintro ⟨hp0, pos, hpos, hp⟩
      cases pos with
      | direct j =>
          have hlt : j.val < blocksFor r.size.toNat := hpos
          exact Or.inl ⟨j, by omega, hp.symm, hp0⟩
      | indirect => exact Or.inr ⟨hp0, .indirect, Or.inl rfl, hp⟩
      | single j =>
          refine Or.inr ⟨hp0, .single j, Or.inr ⟨j, rfl⟩, ?_⟩
          rw [hrecord _ (Or.inr ⟨j, rfl⟩), hp]
      | double => exact hpos.elim
      | table j => exact hpos.elim
      | leaf j k => exact hpos.elim

theorem edRelease_spec {ino : Nat} (hv : img.sb.ValidIno ino) :
    ∃ d', edRelease ino (PyInode.ofInode r) img = (.ok (), img.withDisk
        ((d'.setInodeUsed img.sb ino false).putInode img.sb ino Inode.zero))
      ∧ Freed img.sb (img.disk.blocksAt r (deletePos r)) img.disk d' := by
  obtain ⟨d₁, hput, hf⟩ := edPutFree_spec W hdb
  have hkept : ∀ pos, ¬ putPos r pos → d₁.ptr r.putFreed pos = img.disk.ptr r pos := by
    intro pos hpos
    rw [Disk.ptr_putFreed, if_neg hpos, Disk.ptr_of_data hdb hf.data]
  have hdouble : ∀ pos, pos = .double ∨ (∃ j, pos = .table j) ∨ (∃ j k, pos = .leaf j k) →
      ¬ putPos r pos := by
    rintro pos (rfl | ⟨j, rfl⟩ | ⟨j, k, rfl⟩) h <;> exact h
  obtain ⟨d₂, hdbl, hf₂⟩ := edFreeDouble_spec (W.withDisk d₁) r.putFreed fun pos hpos h0 => by
    rw [DiskImage.disk_withDisk, hkept pos (hdouble pos hpos)] at h0 ⊢
    exact hdb pos h0
  rw [DiskImage.withDisk_withDisk] at hdbl
  rw [DiskImage.disk_withDisk, DiskImage.withDisk_sb] at hf₂
  obtain ⟨hlow, hup⟩ := hv
  have h1 := W.sound.inodeBitmap
  have h2 := W.sound.blockBitmap
  have h3 := W.sound.inodeTable
  have h4 := W.sound.data
  have hinside : img.sb.inodeBitmapStart.toNat + (ino - 1) / 8 / 512
      < (img.withDisk d₂).sb.fsSizeBlocks.toNat := by
    rw [DiskImage.withDisk_sb]
    omega
  have hbit := edBitmapSet_run (W.withDisk d₂) hinside false
  rw [DiskImage.withDisk_withDisk, DiskImage.disk_withDisk] at hbit
  have hsub : ((ino : Nat) : Int) - 1 = ((ino - 1 : Nat) : Int) := by omega
  have hvalid : (img.withDisk (d₂.setBit img.sb.inodeBitmapStart.toNat (ino - 1) false)).sb.ValidIno
      ino := ⟨hlow, hup⟩
  have hwrite := edWriteInode_run (W.withDisk _) hvalid (packInode_empty
    (img.withDisk (d₂.setBit img.sb.inodeBitmapStart.toNat (ino - 1) false)))
  rw [DiskImage.withDisk_withDisk, DiskImage.disk_withDisk, DiskImage.withDisk_sb] at hwrite
  refine ⟨d₂, ?_, (hf.trans hf₂).congr fun p => ?_⟩
  · obtain ⟨x, img₁, hfirst, hsecond⟩ := Ed.bind_ok hput
    unfold edRelease
    rw [Ed.run_bind_ok hfirst, Ed.run_bind_ok hsecond, Ed.run_bind_ok hdbl,
      Ed.run_bind_ok (superblock_run _), hsub, DiskImage.withDisk_sb, Ed.run_bind_ok hbit]
    exact hwrite
  · constructor
    · rintro (⟨hp0, pos, hpos, hp⟩ | ⟨hp0, pos, hpos, hp⟩)
      · refine ⟨hp0, pos, ?_, hp⟩
        cases pos with
        | direct j => exact hpos
        | _ => trivial
      · rw [hkept pos (hdouble pos hpos)] at hp
        refine ⟨hp0, pos, ?_, hp⟩
        rcases hpos with rfl | ⟨j, rfl⟩ | ⟨j, k, rfl⟩ <;> trivial
    · rintro ⟨hp0, pos, hpos, hp⟩
      rcases em (putPos r pos) with hput | hput
      · exact Or.inl ⟨hp0, pos, hput, hp⟩
      · refine Or.inr ⟨hp0, pos, ?_, by rw [hkept pos hput, hp]⟩
        cases pos with
        | direct j => exact absurd hpos hput
        | indirect => exact absurd trivial hput
        | single j => exact absurd trivial hput
        | double => exact Or.inl rfl
        | table j => exact Or.inr (Or.inl ⟨j, rfl⟩)
        | leaf j k => exact Or.inr (Or.inr ⟨j, k, rfl⟩)

end

end IpoOs
