import IpoOs.FsTable

/-!
# The size of the block bitmap

The bitmap and the data blocks share what the other regions leave of the
volume, and each size depends on the other. `ipo_fs_format` settles them
by eight rounds of a correction. The rounds end at a bitmap that covers
every data block, except when the shared part is one block more than a
multiple of 4097: there they swing between two sizes, and the eighth
round is at the smaller one.

A round computes the size of the bitmap from the data blocks that the last
size leaves, so the rounds are the iterates of one map on sizes, started at
one block. That map is followed near the right size, where all but the first
iterates are.
-/

namespace IpoOs

/-- The blocks that are neither superblock, inode bitmap nor inode table. -/
def sharedBlocks (totalBlocks totalInodes : Nat) : Nat :=
  sub32 totalBlocks (1 + inodeBitmapBlocks totalInodes + inodeTableBlocks totalInodes)

def nextBitmapBlocks (shared bb : Nat) : Nat := u32 (sub32 shared bb + 4095) / 4096

/-! ## The rounds

One round as a map on sizes, and its behaviour near the right size. -/

/-- The early exit of the loop changes nothing: it leaves at a fixed point. -/
theorem blockBitmapRounds_iterate (totalBlocks other n bb : Nat) :
    blockBitmapRounds totalBlocks other n bb
      = (nextBitmapBlocks (sub32 totalBlocks other))^[n] bb := by
  induction n generalizing bb with
  | zero => rfl
  | succ n ih =>
      rw [Function.iterate_succ_apply]
      unfold blockBitmapRounds
      show (if nextBitmapBlocks (sub32 totalBlocks other) bb = bb then bb else _) = _
      split
      · rename_i hfix
        rw [hfix, Function.iterate_fixed hfix]
      · exact ih _

section

variable {shared k s : Nat} (hshared : shared = 4097 * k + s) (hs : s < 4097)
  (hbound : shared ≤ 2148532224)

include hshared hs hbound

theorem nextBitmapBlocks_near {m : Nat} (hm : m ≤ 4095) (hle : k + m ≤ shared) :
    nextBitmapBlocks shared (k + m) = k + (s + 4095 - m) / 4096 := by
  have hsub : sub32 shared (k + m) = shared - (k + m) := sub32_of_le hle (by omega)
  unfold nextBitmapBlocks
  rw [hsub, u32_of_lt (by omega)]
  omega

omit hs in
theorem nextBitmapBlocks_one (hpos : 1 ≤ shared) :
    nextBitmapBlocks shared 1 = k + (k + s + 4094) / 4096 := by
  have hsub : sub32 shared 1 = shared - 1 := sub32_of_le hpos (by omega)
  unfold nextBitmapBlocks
  rw [hsub, u32_of_lt (by omega)]
  omega

theorem nextBitmapBlocks_two (hpos : 1 ≤ shared) (hle : k + (k + s + 4094) / 4096 ≤ shared) :
    (nextBitmapBlocks shared)^[2] 1 = k + (s + 4095 - (k + s + 4094) / 4096) / 4096 := by
  show nextBitmapBlocks shared (nextBitmapBlocks shared 1) = _
  rw [nextBitmapBlocks_one hshared hbound hpos]
  exact nextBitmapBlocks_near hshared hs hbound (by omega) hle

end

section

variable {shared k : Nat} (hbound : shared ≤ 2148532224) (hpos : 1 ≤ shared)

include hbound hpos

theorem bitmapRounds_settle {s : Nat} (hshared : shared = 4097 * k + s) (hs : s < 4097)
    (hne : s ≠ 1) : (nextBitmapBlocks shared)^[8] 1 = if s = 0 then k else k + 1 := by
  have htwo := nextBitmapBlocks_two hshared hs hbound (by omega) (by omega)
  have hnear := fun m => @nextBitmapBlocks_near shared k s hshared hs hbound m
  -- the third round is at a fixed point
  have hthree : (nextBitmapBlocks shared)^[3] 1 = if s = 0 then k else k + 1 := by
    rw [Function.iterate_succ_apply', htwo]
    have hsmall : (s + 4095 - (k + s + 4094) / 4096) / 4096 ≤ 1 := by omega
    rw [hnear _ (by omega) (by omega)]
    split <;> omega
  have hfix : nextBitmapBlocks shared (if s = 0 then k else k + 1)
      = if s = 0 then k else k + 1 := by
    split
    · have h0 := hnear 0 (by omega) (by omega)
      rw [Nat.add_zero] at h0
      omega
    · have h1 := hnear 1 (by omega) (by omega)
      omega
  rw [show (8 : Nat) = 5 + 3 from rfl, Function.iterate_add_apply, hthree]
  exact Function.iterate_fixed hfix 5

omit hpos in
/-- At the remainder 1 the rounds swing, and end at the smaller size. -/
theorem bitmapRounds_swing (hshared : shared = 4097 * k + 1) (hk : 1 ≤ k) :
    (nextBitmapBlocks shared)^[8] 1 = k := by
  have hnear := fun m => @nextBitmapBlocks_near shared k 1 hshared (by omega) hbound m
  have htwo : (nextBitmapBlocks shared)^[2] 1 = k := by
    rw [nextBitmapBlocks_two hshared (by omega) hbound (by omega) (by omega)]
    omega
  have hswing : (nextBitmapBlocks shared)^[2] k = k := by
    have h0 := hnear 0 (by omega) (by omega)
    have h1 := hnear 1 (by omega) (by omega)
    rw [Nat.add_zero] at h0
    show nextBitmapBlocks shared (nextBitmapBlocks shared k) = k
    rw [h0, h1]
    omega
  rw [show (8 : Nat) = 2 + (2 + (2 + 2)) from rfl, Function.iterate_add_apply,
    Function.iterate_add_apply, Function.iterate_add_apply, htwo, hswing, hswing, hswing]

end

/-! ## The bitmap of a formatted volume

The sizes in the superblock, and when the bitmap covers the data blocks. -/

/-- A bitmap of the size the rounds end at has a bit for every data block. -/
theorem bitmapFits_iff {totalBlocks totalInodes : UInt32} (h10 : 10 ≤ totalBlocks.toNat)
    (hdata : dataBlocks totalBlocks.toNat totalInodes.toNat < 2147483648)
    (hdata0 : dataBlocks totalBlocks.toNat totalInodes.toNat ≠ 0) :
    BitmapFits totalBlocks totalInodes
      ↔ sharedBlocks totalBlocks.toNat totalInodes.toNat % 4097 ≠ 1 := by
  have hl := formatLayout h10 hdata
  have htb := totalBlocks.toNat_lt
  have hbb : blockBitmapBlocks totalBlocks.toNat totalInodes.toNat ≤ 1048576 :=
    blockBitmapRounds_le _ _ 8 1 (by omega)
  have hshared : sharedBlocks totalBlocks.toNat totalInodes.toNat
      = blockBitmapBlocks totalBlocks.toNat totalInodes.toNat
        + dataBlocks totalBlocks.toNat totalInodes.toNat := by
    unfold sharedBlocks
    rw [sub32_of_le (by omega) (by omega)]
    omega
  have hrounds : blockBitmapBlocks totalBlocks.toNat totalInodes.toNat
      = (nextBitmapBlocks (sharedBlocks totalBlocks.toNat totalInodes.toNat))^[8] 1 :=
    blockBitmapRounds_iterate _ _ 8 1
  unfold BitmapFits
  generalize sharedBlocks totalBlocks.toNat totalInodes.toNat = shared at *
  have hdiv : shared = 4097 * (shared / 4097) + shared % 4097 := (Nat.div_add_mod _ _).symm
  rcases em (shared % 4097 = 1) with hone | hne
  · rw [hone] at hdiv
    have hk : 1 ≤ shared / 4097 := by
      rcases Nat.eq_zero_or_pos (shared / 4097) with h0 | hpos
      · -- one block to share: the rounds give it to the bitmap
        have hshared1 : shared = 1 := by omega
        rw [hshared1] at hrounds hshared
        have height : (nextBitmapBlocks 1)^[8] 1 = 1 := by decide
        omega
      · exact hpos
    rw [bitmapRounds_swing (by omega) hdiv hk] at hrounds
    omega
  · rw [bitmapRounds_settle (by omega) (by omega) hdiv (Nat.mod_lt _ (by decide)) hne] at hrounds
    split at hrounds <;> omega

/-- The block bitmap of a volume has a bit for every data block, and the bits of data
blocks are in its blocks. -/
def Superblock.BitmapCovers (sb : Superblock) : Prop :=
  (∀ i, i < dataBlocksTotal sb →
    sb.blockBitmapStart.toNat + i / 4096 < sb.inodeTableStart.toNat)
  ∧ ∀ p, sb.DataBlock p →
    sb.blockBitmapStart.toNat
      ≤ u32 (sb.blockBitmapStart.toNat + (p - sb.dataBlocksStart.toNat) / 8 / 512)
    ∧ u32 (sb.blockBitmapStart.toNat + (p - sb.dataBlocksStart.toNat) / 8 / 512)
      < sb.inodeTableStart.toNat

theorem ipoFsFormat_data {σ : Type} {dev : UInt32 → BlockDev σ}
    {start totalBlocks totalInodes : UInt32} {k₀ k : Kernel σ}
    (h : ipoFsFormat dev start totalBlocks totalInodes k₀ = (true, k)) :
    dataBlocks totalBlocks.toNat totalInodes.toNat ≠ 0 := by
  intro h0
  unfold ipoFsFormat at h
  simp only [Prog.run_ite, Prog.run_pure] at h
  split at h
  · cases (Prod.mk.inj h).1
  · rw [if_pos (Or.inl h0)] at h
    cases (Prod.mk.inj h).1

/-- Whenever `ipo_fs_format` succeeds, its block bitmap covers the data blocks unless
the part it shares with them is one block more than a multiple of 4097. -/
theorem ipoFsFormat_bitmap {σ : Type} (dev : UInt32 → BlockDev σ)
    (start totalBlocks totalInodes : UInt32) (k₀ k : Kernel σ)
    (h : ipoFsFormat dev start totalBlocks totalInodes k₀ = (true, k)) :
    k.sb.BitmapCovers ↔ sharedBlocks totalBlocks.toNat totalInodes.toNat % 4097 ≠ 1 := by
  obtain ⟨hsb, h10, hdata, -⟩ := ipoFsFormat_sb h
  have hdata0 : dataBlocks totalBlocks.toNat totalInodes.toNat ≠ 0 := ipoFsFormat_data h
  rw [← bitmapFits_iff h10 hdata hdata0, hsb]
  obtain ⟨-, hbit, htable, hds⟩ := formatSuperblock_starts h10 hdata
  have hl := formatLayout h10 hdata
  have htb := totalBlocks.toNat_lt
  have hsize : (formatSuperblock totalBlocks totalInodes).fsSizeBlocks = totalBlocks := rfl
  have htotal : dataBlocksTotal (formatSuperblock totalBlocks totalInodes)
      = dataBlocks totalBlocks.toNat totalInodes.toNat := by
    unfold dataBlocksTotal
    rw [hsize, hds, sub32_of_le (by omega) (by omega)]
    omega
  unfold BitmapFits
  constructor
  · rintro ⟨hall, -⟩
    have hlast := hall (dataBlocks totalBlocks.toNat totalInodes.toNat - 1) (by omega)
    omega
  · intro hfits
    refine ⟨fun i hi => by omega, ?_⟩
    rintro p ⟨hp, hlt⟩
    rw [hsize] at hlt
    rw [u32_of_lt (by omega)]
    omega

theorem ipoFsFormat_bitmap_twelve : (formattedKernel 12 6).sb.BitmapCovers :=
  (ipoFsFormat_bitmap (diskDev Buf.zero) 0 12 6 blankKernel (formattedKernel 12 6)
    formattedKernel_run).mpr (by decide)

/-- A volume of 4101 blocks has 4097 data blocks and one block of bits. -/
theorem ipoFsFormat_bitmap_short :
    (ipoFsFormat (diskDev Buf.zero) 0 4101 6 blankKernel).1 = true
    ∧ ¬ (formattedKernel 4101 6).sb.BitmapCovers := by
  refine ⟨by decide +kernel, ?_⟩
  rintro ⟨hall, -⟩
  have hlast := hall 4096 (by decide +kernel)
  revert hlast
  decide +kernel

end IpoOs
