import IpoOs.FsGrowth
import Mathlib.Order.Interval.Finset.Nat

/-!
# The blocks a walk needs

`get_data_block_for_inode` with `alloc` set takes a block for every null
pointer on its way: one for a direct pointer, up to two through the
indirect block and up to three through the double indirect block. Whether
it comes back with a block can be told from the state before the call, by
counting: the null pointers on the way on one side (`Disk.nulls`), the
free blocks on the other (`Disk.spare`).

The count is right as long as taking a block takes one free block and no
more. A walk that takes a single block needs nothing for that. A walk that
takes several also writes between two of them, into the blocks it has just
taken and into the double indirect block of the file; `WalkApart` says
that none of these is a block of the bitmap. It asks nothing of the other
pointers of the volume, which may be as corrupt as they like.

Only blocks whose number fits in an `int` count as free. `allocate_block`
takes the lowest free block, so one with a larger number is taken only
when no other is left, and is then reported as a failure.
-/

namespace IpoOs

instance (sb : Superblock) : DecidablePred sb.BitmapBlock := fun _ =>
  inferInstanceAs (Decidable (_ ∧ _))

def Disk.freeBlocks (d : Disk) (sb : Superblock) : Finset Nat :=
  (Finset.Ico sb.dataBlocksStart.toNat sb.fsSizeBlocks.toNat).filter
    fun p => d.blockUsed sb p = false

/-- The free data blocks whose number is an `int`. -/
def Disk.spare (d : Disk) (sb : Superblock) : Finset Nat :=
  (d.freeBlocks sb).filter (· < 2147483648)

def Disk.nullAt (d : Disk) (r : Inode) (pos : Pos) : Nat := if d.ptr r pos = 0 then 1 else 0

/-- The null pointers on the way to a block. -/
def Disk.nulls (d : Disk) (r : Inode) (l : Nat) : Nat :=
  match posOf l with
  | none => 0
  | some pos => (pos.path.map (d.nullAt r)).sum

theorem posOf_of_lt {l : Nat} (h : l < 16518) : ∃ pos, posOf l = some pos := by
  rcases em (l < 6) with h6 | h6
  · exact ⟨.direct ⟨l, h6⟩, dif_pos h6⟩
  · rcases em (l - 6 < 128) with h128 | h128
    · exact ⟨.single ⟨l - 6, h128⟩, by rw [posOf, dif_neg h6, dif_pos h128]⟩
    · have hbig : l - 134 < 16384 := by omega
      exact ⟨.leaf ⟨(l - 134) / 128, by omega⟩ ⟨(l - 134) % 128, by omega⟩,
        by rw [posOf, dif_neg h6, dif_neg h128, dif_pos hbig]⟩

theorem Disk.nulls_of {d : Disk} {r : Inode} {l : Nat} {pos : Pos} (hpos : posOf l = some pos) :
    d.nulls r l = (pos.path.map (d.nullAt r)).sum := by
  rw [Disk.nulls, hpos]

theorem Disk.nulls_le (d : Disk) (r : Inode) (l : Nat) : d.nulls r l ≤ 3 := by
  have hone : ∀ pos, d.nullAt r pos ≤ 1 := by
    intro pos
    unfold Disk.nullAt
    split
    · exact Nat.le_refl 1
    · exact Nat.zero_le 1
  unfold Disk.nulls
  cases posOf l with
  | none => exact Nat.zero_le 3
  | some pos =>
      cases pos with
      | direct i => exact Nat.le_trans (Nat.add_le_add_right (hone _) 0) (by decide)
      | indirect => exact Nat.le_trans (Nat.add_le_add_right (hone _) 0) (by decide)
      | double => exact Nat.le_trans (Nat.add_le_add_right (hone _) 0) (by decide)
      | single j =>
          exact Nat.le_trans (Nat.add_le_add (hone _) (Nat.add_le_add_right (hone _) 0)) (by decide)
      | table j =>
          exact Nat.le_trans (Nat.add_le_add (hone _) (Nat.add_le_add_right (hone _) 0)) (by decide)
      | leaf j k =>
          exact Nat.add_le_add (hone _) (Nat.add_le_add (hone _) (Nat.add_le_add_right (hone _) 0))

/-- The block bitmap is out of the way of a walk on the inode `r`. -/
structure WalkApart (sb : Superblock) (r : Inode) : Prop extends BitmapBelow sb where
  double : ¬ sb.BitmapBlock r.doubleIndirect.toNat

/-- The file has block `b`, or there are free blocks for the null pointers on the way to it. -/
def Disk.Obtains (d : Disk) (sb : Superblock) (r : Inode) (b : Nat) : Prop :=
  (d.lookup r b).isSome ∨ ∃ pos, posOf b = some pos ∧ d.ptr r pos = 0
    ∧ d.nulls r b ≤ (d.spare sb).card ∧ (d.nulls r b = 1 ∨ WalkApart sb r)

/-! ## Free blocks, one at a time

A block taken is one free block less, and the first free block is the one
that is taken. -/

section

variable {sb : Superblock} {d : Disk} {p : Nat}

theorem Disk.mem_freeBlocks : p ∈ d.freeBlocks sb ↔ sb.DataBlock p ∧ d.blockUsed sb p = false := by
  rw [Disk.freeBlocks, Finset.mem_filter, Finset.mem_Ico]
  rfl

theorem mem_spare : p ∈ d.spare sb ↔ p ∈ d.freeBlocks sb ∧ p < 2147483648 := by
  rw [Disk.spare, Finset.mem_filter]

theorem dataBlock_of_spare (h : p ∈ d.spare sb) : sb.DataBlock p :=
  (Disk.mem_freeBlocks.mp (mem_spare.mp h).1).1

section

variable (W : BitmapBelow sb)

include W

theorem BitmapBelow.freeBlocks_set (hp : ¬ sb.BitmapBlock p) (b : Block) :
    (d.set p b).freeBlocks sb = d.freeBlocks sb := by
  refine Finset.filter_congr fun q hq => ?_
  rw [W.blockUsed_set hp (Finset.mem_Ico.mp hq)]

theorem BitmapBelow.freeBlocks_takeBlock (hp : sb.DataBlock p) :
    (d.takeBlock sb p).freeBlocks sb = (d.freeBlocks sb).erase p := by
  ext q
  rw [Finset.mem_erase, Disk.mem_freeBlocks, Disk.mem_freeBlocks]
  constructor
  · rintro ⟨hq, hfree⟩
    rw [W.blockUsed_takeBlock hp hq] at hfree
    by_cases hqp : q = p
    · rw [if_pos hqp] at hfree
      cases hfree
    · rw [if_neg hqp] at hfree
      exact ⟨hqp, hq, hfree⟩
  · rintro ⟨hqp, hq, hfree⟩
    refine ⟨hq, ?_⟩
    rw [W.blockUsed_takeBlock hp hq, if_neg hqp, hfree]

theorem BitmapBelow.card_takeBlock (hp : p ∈ d.freeBlocks sb) :
    ((d.takeBlock sb p).freeBlocks sb).card + 1 = (d.freeBlocks sb).card := by
  rw [W.freeBlocks_takeBlock (Disk.mem_freeBlocks.mp hp).1]
  exact Finset.card_erase_add_one hp

theorem BitmapBelow.spare_set (hp : ¬ sb.BitmapBlock p) (b : Block) :
    (d.set p b).spare sb = d.spare sb := by
  rw [Disk.spare, W.freeBlocks_set hp, Disk.spare]

theorem BitmapBelow.card_spare (hp : p ∈ d.spare sb) :
    ((d.takeBlock sb p).spare sb).card + 1 = (d.spare sb).card := by
  rw [Disk.spare, W.freeBlocks_takeBlock (dataBlock_of_spare hp), Finset.filter_erase]
  exact Finset.card_erase_add_one hp

end

/-- `allocate_block` succeeds as long as a free block with a fitting number is left. -/
theorem allocateBlock_spare (u : Block)
    (hds : sb.dataBlocksStart.toNat ≤ sb.fsSizeBlocks.toNat) :
    (∃ p, p ∈ d.spare sb ∧ allocateBlock (arrayDev u) sb d = (some p, d.takeBlock sb p))
    ∨ ((d.spare sb).card = 0 ∧ ∃ d', allocateBlock (arrayDev u) sb d = (none, d')) := by
  have hempty : (∀ q, sb.DataBlock q → q < 2147483648 → d.blockUsed sb q = true) →
      (d.spare sb).card = 0 := by
    intro h
    refine Finset.card_eq_zero.mpr (Finset.eq_empty_of_forall_notMem fun q hq => ?_)
    obtain ⟨hfree, hlt⟩ := mem_spare.mp hq
    obtain ⟨hdb, hclear⟩ := Disk.mem_freeBlocks.mp hfree
    rw [h q hdb hlt] at hclear
    cases hclear
  rcases allocateBlock_first u d hds with ⟨p, hp, hfree, hlow, hrun⟩ | ⟨hfull, hrun⟩
  · by_cases hlt : p < 2147483648
    · refine Or.inl ⟨p, mem_spare.mpr ⟨Disk.mem_freeBlocks.mpr ⟨hp, hfree⟩, hlt⟩, ?_⟩
      rw [hrun, asInt_eq_some.mpr ⟨rfl, hlt⟩]
    · -- the lowest free block is no `int`, so none is
      exact Or.inr ⟨hempty fun q hq hqlt => hlow q hq (by omega), _,
        by rw [hrun, asInt_eq_none.mpr (by omega)]⟩
  · exact Or.inr ⟨hempty fun q hq _ => hfull q hq, d, hrun⟩

end

/-! ## One level of the walk

A table that is missing takes a block, which is then zero; the entry of a
zero block is null. -/

section

variable (u : Block) {sb : Superblock} {d : Disk}

/-- A step that makes a table: it comes back with a fresh zero block and one free block
less, or there was none. -/
def MakesTable (sb : Superblock) (d : Disk) (res : Option Nat × Disk) : Prop :=
  (∃ p, res.1 = some p ∧ res.2 p = Buf.zero ∧ ¬ sb.BitmapBlock p
    ∧ (res.2.spare sb).card + 1 = (d.spare sb).card)
  ∨ (d.spare sb).card = 0 ∧ res.1 = none

theorem rootTable_makes (W : BitmapBelow sb) :
    MakesTable sb d (((rootTable (arrayDev u) sb 0 true d).1.map UInt32.toNat),
      (rootTable (arrayDev u) sb 0 true d).2) := by
  rcases allocateBlock_spare (d := d) u W.data with ⟨p, hp, hrun⟩ | ⟨hnone, d', hrun⟩
  · have hnot := W.not_bitmapBlock (dataBlock_of_spare hp)
    have hn : (UInt32.ofNat p).toNat = p := by
      have hlt := (mem_spare.mp hp).2
      rw [UInt32.toNat_ofNat', Nat.mod_eq_of_lt (by omega)]
    have htable : rootTable (arrayDev u) sb 0 true d
        = (some (UInt32.ofNat p), (d.takeBlock sb p).set p Buf.zero) := by
      simp [rootTable, hrun]
    rw [htable]
    refine Or.inl ⟨p, congrArg some hn, Disk.set_self .., hnot, ?_⟩
    rw [W.spare_set hnot]
    exact W.card_spare hp
  · have htable : rootTable (arrayDev u) sb 0 true d = (none, d') := by simp [rootTable, hrun]
    rw [htable]
    exact Or.inr ⟨hnone, rfl⟩

theorem getTable_makes (W : BitmapBelow sb) {q : Nat} (hq : ¬ sb.BitmapBlock q) {buf : Block}
    {di : Nat} (h0 : buf.word (4 * di) = 0) :
    MakesTable sb d (getTable (arrayDev u) sb q buf di true d) := by
  rcases allocateBlock_spare (d := d) u W.data with ⟨p, hp, hrun⟩ | ⟨hnone, d', hrun⟩
  · have hnot := W.not_bitmapBlock (dataBlock_of_spare hp)
    have htable : getTable (arrayDev u) sb q buf di true d = (some p,
        ((d.takeBlock sb p).set q (buf.putWord (4 * di) (UInt32.ofNat p))).set p Buf.zero) := by
      simp [getTable, h0, hrun]
    rw [htable]
    refine Or.inl ⟨p, rfl, Disk.set_self .., hnot, ?_⟩
    rw [W.spare_set hnot, W.spare_set hq]
    exact W.card_spare hp
  · have htable : getTable (arrayDev u) sb q buf di true d = (none, d') := by
      simp [getTable, h0, hrun]
    rw [htable]
    exact Or.inr ⟨hnone, rfl⟩

theorem getSingle_spare (hds : sb.dataBlocksStart.toNat ≤ sb.fsSizeBlocks.toNat) {q idx : Nat}
    (h0 : (d q).word (4 * idx) = 0) :
    (getSingle (arrayDev u) sb q idx true d).1.isSome ↔ 1 ≤ (d.spare sb).card := by
  rcases allocateBlock_spare (d := d) u hds with ⟨p, hp, hrun⟩ | ⟨hnone, d', hrun⟩
  · have hint := asInt_eq_some.mpr ⟨rfl, (mem_spare.mp hp).2⟩
    have hpos := Finset.card_pos.mpr ⟨p, hp⟩
    have h1 : 1 ≤ (d.spare sb).card := hpos
    simp [getSingle, pointerEntry, h0, hrun, hint, h1]
  · simp [getSingle, pointerEntry, h0, hrun, hnone]

theorem MakesTable.single {res : Option Nat × Disk} (h : MakesTable sb d res)
    (hds : sb.dataBlocksStart.toNat ≤ sb.fsSizeBlocks.toNat) (idx : Nat) :
    (∃ p, res.1 = some p ∧ (getSingle (arrayDev u) sb p idx true res.2).1.isSome)
      ↔ 2 ≤ (d.spare sb).card := by
  rcases h with ⟨p, hp, hzero, -, hcard⟩ | ⟨hnone, hres⟩
  · have hentry := @getSingle_spare u sb res.2 hds p idx (by rw [hzero]; rfl)
    constructor
    · rintro ⟨q, hq, hsome⟩
      obtain rfl := Option.some.inj (hp.symm.trans hq)
      have hone := hentry.mp hsome
      omega
    · intro h2
      exact ⟨p, hp, hentry.mpr (by omega)⟩
  · constructor
    · rintro ⟨q, hq, -⟩
      rw [hres] at hq
      cases hq
    · omega

end

/-! ## The walk

By region of the index: one null pointer at most through the record, two
through the indirect block and three through the double indirect block. -/

section

variable (u : Block) {sb : Superblock} {r : Inode} {d : Disk}

theorem getDirect_spare (hds : sb.dataBlocksStart.toNat ≤ sb.fsSizeBlocks.toNat) {i : Fin 6}
    (h0 : r.direct i = 0) :
    (getDirect (arrayDev u) sb r i true d).1.1.isSome ↔ 1 ≤ (d.spare sb).card := by
  rcases allocateBlock_spare (d := d) u hds with ⟨p, hp, hrun⟩ | ⟨hnone, d', hrun⟩
  · have hint := asInt_eq_some.mpr ⟨rfl, (mem_spare.mp hp).2⟩
    have hpos := Finset.card_pos.mpr ⟨p, hp⟩
    have h1 : 1 ≤ (d.spare sb).card := hpos
    simp [getDirect, h0, hrun, hint, h1]
  · simp [getDirect, h0, hrun, hnone]

theorem getIndirect_spare (W : BitmapBelow sb) (h0 : r.indirect = 0) (idx : Nat) :
    (getIndirect (arrayDev u) sb r idx true d).1.1.isSome ↔ 2 ≤ (d.spare sb).card := by
  rw [← (rootTable_makes u W).single u W.data idx]
  generalize hrun : rootTable (arrayDev u) sb 0 true d = res
  obtain ⟨block | block, d'⟩ := res
  · simp [getIndirect, h0, hrun]
  · simp [getIndirect, h0, hrun]

theorem getLeaf_spare (W : BitmapBelow sb) {q idx : Nat} (hq : ¬ sb.BitmapBlock q)
    (h0 : (d q).word (4 * (idx / 128)) = 0) :
    (getLeaf (arrayDev u) sb q idx true d).1.isSome ↔ 2 ≤ (d.spare sb).card := by
  rw [← (getTable_makes u W hq h0).single u W.data (idx % 128)]
  generalize hrun : getTable (arrayDev u) sb q (d q) (idx / 128) true d = res
  obtain ⟨block | block, d'⟩ := res
  · simp [getLeaf, hrun]
  · simp [getLeaf, hrun]

/-- A double indirect block that is missing takes the first of three blocks. -/
theorem getDouble_spare (W : BitmapBelow sb) (h0 : r.doubleIndirect = 0) (idx : Nat) :
    (getDouble (arrayDev u) sb r idx true d).1.1.isSome ↔ 3 ≤ (d.spare sb).card := by
  have hmakes := @rootTable_makes u sb d W
  generalize hrun : rootTable (arrayDev u) sb 0 true d = res at hmakes
  obtain ⟨block | block, d'⟩ := res
  · rcases hmakes with ⟨p, hp, -⟩ | ⟨hnone, -⟩
    · cases hp
    · simp [getDouble, h0, hrun, hnone]
  · rcases hmakes with ⟨p, hp, hzero, hnot, hcard⟩ | ⟨-, hp⟩
    · obtain rfl := Option.some.inj hp
      have hleaf := @getLeaf_spare u sb d' W block.toNat idx hnot (by
        rw [show d' block.toNat = Buf.zero from hzero]
        rfl)
      have hcount : 2 ≤ (d'.spare sb).card ↔ 3 ≤ (d.spare sb).card := by
        have hone : (d'.spare sb).card + 1 = (d.spare sb).card := hcard
        omega
      simp [getDouble, h0, hrun, hleaf, hcount]
    · cases hp

theorem nullAt_null {pos : Pos} (h : d.ptr r pos = 0) : d.nullAt r pos = 1 := if_pos h

theorem nullAt_set {pos : Pos} (h : d.ptr r pos ≠ 0) : d.nullAt r pos = 0 := if_neg h

/-- The walk to a null pointer succeeds exactly when there is a free block for each null
pointer on its way. -/
theorem getDataBlock_spare {b : Nat} {pos : Pos} (hpos : posOf b = some pos) (h0 : d.ptr r pos = 0)
    (hds : sb.dataBlocksStart.toNat ≤ sb.fsSizeBlocks.toNat)
    (hs : d.nulls r b = 1 ∨ WalkApart sb r) :
    (getDataBlockForInode (arrayDev u) sb r b true d).1.1.isSome
      ↔ d.nulls r b ≤ (d.spare sb).card := by
  rw [Disk.nulls_of hpos] at hs ⊢
  unfold getDataBlockForInode
  unfold posOf at hpos
  split at hpos
  · -- a direct pointer
    rename_i h6
    obtain rfl := Option.some.inj hpos
    have hfield : r.direct ⟨b, h6⟩ = 0 := UInt32.toNat.inj h0
    rw [dif_pos h6, getDirect_spare u hds hfield]
    simp [Pos.path, nullAt_null h0]
  · rename_i h6
    rw [dif_neg h6]
    split at hpos
    · -- an entry of the indirect block
      rename_i h128
      obtain rfl := Option.some.inj hpos
      have hsum : ((Pos.single ⟨b - 6, h128⟩).path.map (d.nullAt r)).sum
          = d.nullAt r .indirect + 1 := by
        simp [Pos.path, nullAt_null h0]
      rw [if_pos h128]
      rw [hsum] at hs ⊢
      by_cases hroot : r.indirect = 0
      · have hnull : d.nullAt r .indirect = 1 := nullAt_null (by rw [Disk.ptr, hroot]; rfl)
        rw [hnull] at hs ⊢
        have W := (hs.resolve_left (by decide)).toBitmapBelow
        exact getIndirect_spare u W hroot (b - 6)
      · have hne : r.indirect.toNat ≠ 0 := fun hc => hroot (UInt32.toNat.inj hc)
        have hset : d.nullAt r .indirect = 0 := nullAt_set hne
        rw [hset]
        have hentry : (d r.indirect.toNat).word (4 * (b - 6)) = 0 := by
          rw [Disk.ptr, Disk.entry, if_neg hne] at h0
          exact UInt32.toNat.inj h0
        rw [← getSingle_spare u hds hentry]
        simp [getIndirect, rootTable, hroot]
    · rename_i h128
      split at hpos
      · -- an entry behind the double indirect block
        rename_i hbig
        obtain rfl := Option.some.inj hpos
        have hsub : b - 6 - 128 = b - 134 := by omega
        have hsum : ((Pos.leaf ⟨(b - 134) / 128, by omega⟩ ⟨(b - 134) % 128, by omega⟩).path.map
            (d.nullAt r)).sum
            = d.nullAt r .double + (d.nullAt r (.table ⟨(b - 134) / 128, by omega⟩) + 1) := by
          simp [Pos.path, nullAt_null h0]
        rw [if_neg h128, if_neg (by omega), hsub]
        rw [hsum] at hs ⊢
        by_cases hroot : r.doubleIndirect = 0
        · have htable : d.ptr r (.table ⟨(b - 134) / 128, by omega⟩) = 0 := by
            rw [Disk.ptr, hroot]
            rfl
          have hnull : d.nullAt r .double = 1 := nullAt_null (by rw [Disk.ptr, hroot]; rfl)
          rw [hnull, nullAt_null htable] at hs ⊢
          have W := (hs.resolve_left (by decide)).toBitmapBelow
          exact getDouble_spare u W hroot (b - 134)
        · have hne : r.doubleIndirect.toNat ≠ 0 := fun hc => hroot (UInt32.toNat.inj hc)
          have hset : d.nullAt r .double = 0 := nullAt_set hne
          rw [hset, Nat.zero_add] at hs ⊢
          have hdouble : (getDouble (arrayDev u) sb r (b - 134) true d).1.1
              = (getLeaf (arrayDev u) sb r.doubleIndirect.toNat (b - 134) true d).1 := by
            simp [getDouble, rootTable, hroot]
          rw [hdouble]
          by_cases htable : (d r.doubleIndirect.toNat).word (4 * ((b - 134) / 128)) = 0
          · have hptr : d.ptr r (.table ⟨(b - 134) / 128, by omega⟩) = 0 := by
              rw [Disk.ptr, Disk.entry, if_neg hne]
              exact congrArg UInt32.toNat htable
            rw [nullAt_null hptr] at hs ⊢
            have hapart := hs.resolve_left (by decide)
            exact getLeaf_spare u hapart.toBitmapBelow hapart.double htable
          · have hset : ((d r.doubleIndirect.toNat).word (4 * ((b - 134) / 128))).toNat ≠ 0 :=
              fun hc => htable (UInt32.toNat.inj hc)
            have hptr : d.ptr r (.table ⟨(b - 134) / 128, by omega⟩)
                = ((d r.doubleIndirect.toNat).word (4 * ((b - 134) / 128))).toNat := by
              rw [Disk.ptr, Disk.entry, if_neg hne]
            rw [nullAt_set (by rw [hptr]; exact hset)]
            have hentry : (d ((d r.doubleIndirect.toNat).word (4 * ((b - 134) / 128))).toNat).word
                (4 * ((b - 134) % 128)) = 0 := by
              have hleaf : d.entry (d.ptr r (.table ⟨(b - 134) / 128, by omega⟩))
                  ((b - 134) % 128) = 0 := h0
              rw [hptr, Disk.entry, if_neg hset] at hleaf
              exact UInt32.toNat.inj hleaf
            rw [← getSingle_spare u hds hentry]
            simp [getLeaf, getTable, htable]
      · cases hpos

end

section

variable (u : Block) (sb : Superblock) (r : Inode) {d : Disk}

theorem getDataBlock_set {l : Nat} (h : ∀ pos, posOf l = some pos → d.ptr r pos ≠ 0) :
    getDataBlockForInode (arrayDev u) sb r l true d = ((d.lookup r l, r), d) := by
  rw [← getDataBlock_lookup u sb r d l]
  unfold getDataBlockForInode
  split
  · rename_i h6
    have h0 : r.direct ⟨l, h6⟩ ≠ 0 := by
      intro hc
      refine h (.direct ⟨l, h6⟩) (by rw [posOf, dif_pos h6]) ?_
      rw [Disk.ptr, hc]
      rfl
    simp [getDirect, h0]
  · rename_i h6
    split
    · rename_i h128
      have hp := h (.single ⟨l - 6, h128⟩) (by rw [posOf, dif_neg h6, dif_pos h128])
      have h0 : r.indirect ≠ 0 := by
        intro hc
        simp [Disk.ptr, hc, Disk.entry] at hp
      have hw : (d r.indirect.toNat).word (4 * (l - 6)) ≠ 0 := by
        intro hc
        simp [Disk.ptr, Disk.entry, hc] at hp
      simp [getIndirect, rootTable, getSingle, pointerEntry, h0, hw]
    · rename_i h128
      split
      · rfl
      · rename_i hbig
        have hl : l - 134 < 16384 := by omega
        have hsub : l - 6 - 128 = l - 134 := by omega
        have hp := h (.leaf ⟨(l - 134) / 128, by omega⟩ ⟨(l - 134) % 128, by omega⟩)
          (by rw [posOf, dif_neg h6, dif_neg h128, dif_pos hl])
        have h0 : r.doubleIndirect ≠ 0 := by
          intro hc
          simp [Disk.ptr, hc, Disk.entry] at hp
        have ht : (d r.doubleIndirect.toNat).word (4 * ((l - 134) / 128)) ≠ 0 := by
          intro hc
          simp [Disk.ptr, Disk.entry, hc] at hp
        have hne : r.doubleIndirect.toNat ≠ 0 := fun hc => h0 (UInt32.toNat.inj hc)
        have hw : (d ((d r.doubleIndirect.toNat).word (4 * ((l - 134) / 128))).toNat).word
            (4 * ((l - 134) % 128)) ≠ 0 := by
          intro hc
          simp [Disk.ptr, Disk.entry, hne, hc] at hp
        simp [getDouble, rootTable, getLeaf, getTable, getSingle, pointerEntry, hsub, h0, ht, hw]

/-- The walk gives a block when the state says that it can be obtained. -/
theorem getDataBlock_obtains {b : Nat} (h : d.Obtains sb r b) :
    (getDataBlockForInode (arrayDev u) sb r b true d).1.1.isSome := by
  rcases h with hmap | ⟨pos, hpos, h0, hcount, hs⟩
  · obtain ⟨p, hp⟩ := Option.isSome_iff_exists.mp hmap
    obtain ⟨pos, hpos, hptr, hp0, -⟩ := Disk.lookup_eq_some.mp hp
    rw [getDataBlock_set u sb r fun s hs => ?_, hp]
    · rfl
    · rw [hpos] at hs
      rw [← Option.some.inj hs, hptr]
      exact hp0
  · have hone : 1 ≤ d.nulls r b := by
      rw [Disk.nulls_of hpos]
      cases pos <;> simp only [Pos.path, List.map_cons, List.map_nil, List.sum_cons, List.sum_nil,
        nullAt_null h0] <;> omega
    obtain ⟨p, hp⟩ := Finset.card_pos.mp (Nat.lt_of_lt_of_le hone hcount)
    have hdb := dataBlock_of_spare hp
    exact (getDataBlock_spare u hpos h0 (Nat.le_of_lt (Nat.lt_of_le_of_lt hdb.1 hdb.2)) hs).mpr
      hcount

/-- With the bitmap out of the way the walk gives a block in no other case. -/
theorem getDataBlock_obtains_iff (W : WalkApart sb r) {b : Nat} :
    (getDataBlockForInode (arrayDev u) sb r b true d).1.1.isSome ↔ d.Obtains sb r b := by
  refine ⟨fun hsome => ?_, getDataBlock_obtains u sb r⟩
  by_cases hnull : ∃ pos, posOf b = some pos ∧ d.ptr r pos = 0
  · obtain ⟨pos, hpos, h0⟩ := hnull
    exact Or.inr ⟨pos, hpos, h0, (getDataBlock_spare u hpos h0 W.data (Or.inr W)).mp hsome,
      Or.inr W⟩
  · rw [getDataBlock_set u sb r fun pos hpos h0 => hnull ⟨pos, hpos, h0⟩] at hsome
    exact Or.inl hsome

end

end IpoOs
