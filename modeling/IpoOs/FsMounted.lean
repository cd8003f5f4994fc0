import IpoOs.FsUndisturbed

/-!
# Mounting and formatting

`sb`, `fs_start_lba` and `fs_mounted` over sequences of `ipo_fs_init`,
`ipo_fs_mount` and `ipo_fs_format` on a device any of whose transfers may
fail. Neither `ipo_fs_mount` nor `ipo_fs_format` takes the volume in use
down before it starts, so that each early exit after the first assignment
leaves a mounted file system with a part of the new volume's state.

The tree of a new volume is built by code that reads its pointers from
the disk. `Keeps` follows it: whatever fails, it writes no block 0.

Whether a call is harmless is read off its arguments and the state before it
(`SetupOk`): the sizes, the sector, and which transfers will fail. A call
while nothing is mounted can do no harm, since a mount marks the file system
mounted last. With one mounted, `ipo_fs_mount` must find a superblock it
accepts, and `ipo_fs_format` must get to its end or stop before it starts.
The state that is protected is `SuperOk`: mounted means that `sb` is an
accepted superblock, and the one in the volume's first block, which is at
`fs_start_lba`.
-/

namespace IpoOs

/-! ## Code that keeps a property of the state

`Keeps` is a property of programs that says nothing of what they return but
what the next step needs: a block number that is not 0. -/

/-- Started in a state with `I`, the code ends in one, with a result in `Q`. -/
def Prog.Keeps {σ α : Type} (I : σ → Prop) (x : Prog σ α) (Q : α → Prop) : Prop :=
  ∀ s, I s → I (x s).2 ∧ Q (x s).1

namespace Prog.Keeps

variable {σ α β : Type} {I : σ → Prop} {x y : Prog σ α} {f : α → Prog σ β} {Q : α → Prop}
  {R : β → Prop}

theorem pure {a : α} (h : Q a) : Keeps I (pure a) Q := fun _ hs => ⟨hs, h⟩

theorem bind (hx : Keeps I x Q) (hf : ∀ a, Q a → Keeps I (f a) R) : Keeps I (x >>= f) R :=
  fun s hs => hf _ (hx s hs).2 _ (hx s hs).1

theorem ite {c : Prop} [Decidable c] (hx : c → Keeps I x Q) (hy : ¬ c → Keeps I y Q) :
    Keeps I (if c then x else y) Q := by
  split
  · rename_i h
    exact hx h
  · rename_i h
    exact hy h

end Prog.Keeps

open Prog (Keeps)

abbrev anyResult {α : Type} : α → Prop := fun _ => True

/-- A block number, when there is one, that is not 0. -/
abbrev NotZero (r : Option Nat) : Prop := ∀ p, r = some p → p ≠ 0 ∧ p < 4294967296

/-- A property that reads keep, and writes to other blocks than 0. -/
structure KeptByDev {σ : Type} (dev : BlockDev σ) (I : σ → Prop) : Prop where
  read : ∀ i, Keeps I (dev.read i) anyResult
  write : ∀ i b, i ≠ 0 → i < 4294967296 → Keeps I (dev.write i b) anyResult

/-- The regions of the volume do not come around to block 0. -/
structure ClearOfSuper (sb : Superblock) : Prop where
  inodeBit : ∀ i, i < sb.inodeCount.toNat → u32 (sb.inodeBitmapStart.toNat + i / 8 / 512) ≠ 0
  blockBit : ∀ i, i < dataBlocksTotal sb → u32 (sb.blockBitmapStart.toNat + i / 8 / 512) ≠ 0
  slot : ∀ n, sb.ValidIno n → inodeBlock sb n ≠ 0
  data : ∀ i, i < dataBlocksTotal sb → u32 (sb.dataBlocksStart.toNat + i) ≠ 0

section

variable {σ : Type} {dev : BlockDev σ} {I : σ → Prop} {sb : Superblock} (D : KeptByDev dev I)
  (C : ClearOfSuper sb)

include D

theorem keeps_readRetry (lba n : Nat) : Keeps I (readRetry dev lba n) anyResult := by
  induction n with
  | zero => exact Keeps.pure trivial
  | succ n ih =>
      refine (D.read lba).bind fun got _ => ?_
      cases got with
      | none => exact ih
      | some buf => exact Keeps.pure trivial

theorem keeps_writeRetry {lba : Nat} (h0 : lba ≠ 0) (hlt : lba < 4294967296) (buf : Block)
    (n : Nat) :
    Keeps I (writeRetry dev lba buf n) anyResult := by
  induction n with
  | zero => exact Keeps.pure trivial
  | succ n ih =>
      refine (D.write lba buf h0 hlt).bind fun ok _ => ?_
      exact Keeps.ite (fun _ => Keeps.pure trivial) fun _ => ih

theorem keeps_bitmapGet (bitmap i : Nat) : Keeps I (bitmapGet dev bitmap i) anyResult := by
  refine (keeps_readRetry D _ 5).bind fun got _ => ?_
  cases got with
  | none => exact Keeps.pure trivial
  | some buf => exact Keeps.pure trivial

theorem keeps_bitmapSet {bitmap i : Nat} (h0 : u32 (bitmap + i / 8 / 512) ≠ 0) (value : Bool) :
    Keeps I (bitmapSet dev bitmap i value) anyResult := by
  refine (keeps_readRetry D _ 5).bind fun got _ => ?_
  cases got with
  | none => exact Keeps.pure trivial
  | some buf => exact keeps_writeRetry D h0 (u32_lt _) _ 5

theorem keeps_readInode (n : Nat) : Keeps I (readInode dev sb n) anyResult := by
  refine Keeps.ite (fun _ => Keeps.pure trivial) fun _ => ?_
  refine (D.read _).bind fun got _ => ?_
  cases got with
  | none => exact Keeps.pure trivial
  | some buf => exact Keeps.pure trivial

include C

theorem keeps_writeInode (n : Nat) (r : Inode) : Keeps I (writeInode dev sb n r) anyResult := by
  refine Keeps.ite (fun _ => Keeps.pure trivial) fun hv => ?_
  have hvalid : sb.ValidIno n := by
    unfold Superblock.ValidIno
    omega
  refine (D.read _).bind fun got _ => ?_
  cases got with
  | none => exact Keeps.pure trivial
  | some buf => exact D.write _ _ (C.slot n hvalid) (u32_lt _)

theorem keeps_allocateBlockFrom {n i : Nat} (hi : i + n ≤ dataBlocksTotal sb) :
    Keeps I (allocateBlockFrom dev sb n i) NotZero := by
  induction n generalizing i with
  | zero => exact Keeps.pure fun p hp => by cases hp
  | succ n ih =>
      refine (keeps_bitmapGet D _ i).bind fun used _ => Keeps.ite (fun _ => ih (by omega)) fun _ =>
        ?_
      refine (keeps_bitmapSet D (C.blockBit i (by omega)) true).bind fun ok _ =>
        Keeps.ite (fun _ => ?_) fun _ => Keeps.pure fun p hp => by cases hp
      have hdata := C.data i (by omega)
      refine (D.write _ _ hdata (u32_lt _)).bind fun ok _ =>
        Keeps.ite (fun _ => ?_) fun _ => Keeps.pure fun p hp => by cases hp
      refine Keeps.pure fun p hp => ?_
      obtain ⟨rfl, -⟩ := asInt_eq_some.mp hp
      exact ⟨hdata, u32_lt _⟩

theorem keeps_allocateBlock : Keeps I (allocateBlock dev sb) NotZero :=
  keeps_allocateBlockFrom D C (Nat.le_of_eq (Nat.zero_add _))

theorem keeps_allocateInodeFrom {n i : Nat} (hi : i + n ≤ sb.inodeCount.toNat) :
    Keeps I (allocateInodeFrom dev sb n i) anyResult := by
  induction n generalizing i with
  | zero => exact Keeps.pure trivial
  | succ n ih =>
      refine (keeps_bitmapGet D _ i).bind fun used _ => Keeps.ite (fun _ => ih (by omega)) fun _ =>
        ?_
      refine (keeps_bitmapSet D (C.inodeBit i (by omega)) true).bind fun ok _ =>
        Keeps.ite (fun _ => ?_) fun _ => Keeps.pure trivial
      exact (keeps_writeInode D C (i + 1) _).bind fun _ _ => Keeps.pure trivial

theorem keeps_allocateInode : Keeps I (allocateInode dev sb) anyResult :=
  keeps_allocateInodeFrom D C (Nat.le_of_eq (Nat.zero_add _))

/-! ## The block map

Every pointer that is written through was allocated, and allocations come
from the data region. -/

omit D C in
theorem notZero_word {w : UInt32} (h : w ≠ 0) : NotZero (some w.toNat) := by
  intro p hp
  obtain rfl := Option.some.inj hp
  exact ⟨fun h0 => h (UInt32.toNat_inj.mp h0), w.toNat_lt⟩

omit D C in
theorem notZero_asInt {n : Nat} (h : NotZero (some n)) : NotZero (asInt n) := by
  intro p hp
  obtain ⟨rfl, -⟩ := asInt_eq_some.mp hp
  exact h n rfl

omit D C in
theorem ofNat_ne_zero {n : Nat} (h : NotZero (some n)) : UInt32.ofNat n ≠ 0 := by
  obtain ⟨h0, hlt⟩ := h n rfl
  intro hz
  have hval := congrArg UInt32.toNat hz
  rw [UInt32.toNat_ofNat', Nat.mod_eq_of_lt hlt] at hval
  exact h0 hval

theorem keeps_pointerEntry {p : Nat} (hp : NotZero (some p)) (buf : Block) (idx : Nat)
    (alloc : Bool) : Keeps I (pointerEntry dev sb p buf idx alloc) NotZero := by
  have hnone : ∀ q, (none : Option Nat) = some q → q ≠ 0 ∧ q < 4294967296 := fun q hq => by cases hq
  refine Keeps.ite (fun _ => Keeps.ite (fun _ => ?_) fun _ => Keeps.pure hnone) fun he =>
    Keeps.pure (notZero_asInt (notZero_word he))
  refine (keeps_allocateBlock D C).bind fun got hgot => ?_
  cases got with
  | none => exact Keeps.pure hnone
  | some phys =>
      exact (D.write p _ (hp p rfl).1 (hp p rfl).2).bind fun _ _ => Keeps.pure (notZero_asInt hgot)

theorem keeps_getDirect (r : Inode) (l : Fin 6) (alloc : Bool) :
    Keeps I (getDirect dev sb r l alloc) fun res => NotZero res.1 := by
  have hnone : ∀ q, (none : Option Nat) = some q → q ≠ 0 ∧ q < 4294967296 := fun q hq => by cases hq
  refine Keeps.ite (fun _ => Keeps.ite (fun _ => ?_) fun _ => Keeps.pure hnone) fun he =>
    Keeps.pure (notZero_asInt (notZero_word he))
  refine (keeps_allocateBlock D C).bind fun got hgot => ?_
  cases got with
  | none => exact Keeps.pure hnone
  | some phys => exact Keeps.pure (notZero_asInt hgot)

theorem keeps_rootTable (field : UInt32) (alloc : Bool) :
    Keeps I (rootTable dev sb field alloc) fun res => ∀ w, res = some w → w ≠ 0 := by
  have hnone : ∀ q, (none : Option UInt32) = some q → q ≠ 0 := fun q hq => by cases hq
  refine Keeps.ite (fun _ => Keeps.ite (fun _ => ?_) fun _ => Keeps.pure hnone) fun he =>
    Keeps.pure fun w hw => Option.some.inj hw ▸ he
  refine (keeps_allocateBlock D C).bind fun got hgot => ?_
  cases got with
  | none => exact Keeps.pure hnone
  | some block =>
      refine (D.write block _ (hgot block rfl).1 (hgot block rfl).2).bind fun _ _ =>
        Keeps.pure fun w hw => ?_
      exact Option.some.inj hw ▸ ofNat_ne_zero hgot

theorem keeps_getSingle {p : Nat} (hp : NotZero (some p)) (idx : Nat) (alloc : Bool) :
    Keeps I (getSingle dev sb p idx alloc) NotZero := by
  refine (D.read p).bind fun got _ => ?_
  cases got with
  | none => exact Keeps.pure fun q hq => by cases hq
  | some ibuf => exact keeps_pointerEntry D C hp ibuf idx alloc

theorem keeps_getIndirect (r : Inode) (idx : Nat) (alloc : Bool) :
    Keeps I (getIndirect dev sb r idx alloc) fun res => NotZero res.1 := by
  refine (keeps_rootTable D C r.indirect alloc).bind fun got hgot => ?_
  cases got with
  | none => exact Keeps.pure fun q hq => by cases hq
  | some w =>
      exact (keeps_getSingle D C (notZero_word (hgot w rfl)) idx alloc).bind fun res hres =>
        Keeps.pure hres

theorem keeps_getTable {p : Nat} (hp : NotZero (some p)) (dibuf : Block) (di : Nat) (alloc : Bool) :
    Keeps I (getTable dev sb p dibuf di alloc) NotZero := by
  have hnone : ∀ q, (none : Option Nat) = some q → q ≠ 0 ∧ q < 4294967296 := fun q hq => by cases hq
  refine Keeps.ite (fun _ => Keeps.ite (fun _ => ?_) fun _ => Keeps.pure hnone) fun he =>
    Keeps.pure (notZero_word he)
  refine (keeps_allocateBlock D C).bind fun got hgot => ?_
  cases got with
  | none => exact Keeps.pure hnone
  | some si =>
      refine (D.write p _ (hp p rfl).1 (hp p rfl).2).bind fun _ _ => ?_
      exact (D.write si _ (hgot si rfl).1 (hgot si rfl).2).bind fun _ _ => Keeps.pure hgot

theorem keeps_getLeaf {p : Nat} (hp : NotZero (some p)) (idx : Nat) (alloc : Bool) :
    Keeps I (getLeaf dev sb p idx alloc) NotZero := by
  refine (D.read p).bind fun got _ => ?_
  cases got with
  | none => exact Keeps.pure fun q hq => by cases hq
  | some dibuf =>
      refine (keeps_getTable D C hp dibuf (idx / 128) alloc).bind fun got hgot => ?_
      cases got with
      | none => exact Keeps.pure fun q hq => by cases hq
      | some si => exact keeps_getSingle D C hgot (idx % 128) alloc

theorem keeps_getDouble (r : Inode) (idx : Nat) (alloc : Bool) :
    Keeps I (getDouble dev sb r idx alloc) fun res => NotZero res.1 := by
  refine (keeps_rootTable D C r.doubleIndirect alloc).bind fun got hgot => ?_
  cases got with
  | none => exact Keeps.pure fun q hq => by cases hq
  | some w =>
      exact (keeps_getLeaf D C (notZero_word (hgot w rfl)) idx alloc).bind fun res hres =>
        Keeps.pure hres

theorem keeps_getDataBlockForInode (r : Inode) (l : Nat) (alloc : Bool) :
    Keeps I (getDataBlockForInode dev sb r l alloc) fun res => NotZero res.1 := by
  unfold getDataBlockForInode
  split
  · exact keeps_getDirect D C r _ alloc
  · refine Keeps.ite (fun _ => keeps_getIndirect D C r _ alloc) fun _ => ?_
    exact Keeps.ite (fun _ => Keeps.pure fun q hq => by cases hq) fun _ =>
      keeps_getDouble D C r _ alloc

/-! ## Directories

The blocks of a directory come from its map, or are new. -/

theorem keeps_findPhys (din : Inode) (e : Nat) : Keeps I (findPhys dev sb din e) anyResult := by
  unfold findPhys
  split
  · exact Keeps.pure trivial
  · exact (keeps_getDataBlockForInode D C din (e / 7) false).bind fun _ _ => Keeps.pure trivial

theorem keeps_dirFindFrom (din : Inode) (name : Str) (n e : Nat) :
    Keeps I (dirFindFrom dev sb din name n e) anyResult := by
  induction n generalizing e with
  | zero => exact Keeps.pure trivial
  | succ n ih =>
      refine (keeps_findPhys D C din e).bind fun got _ => ?_
      cases got with
      | none => exact ih (e + 1)
      | some phys =>
          refine Keeps.ite (fun _ => ih (e + 1)) fun _ => (D.read phys).bind fun got _ => ?_
          cases got with
          | none => exact Keeps.pure trivial
          | some buf => exact Keeps.ite (fun _ => Keeps.pure trivial) fun _ => ih (e + 1)

theorem keeps_dirFindEntry (dir : Nat) (name : Str) :
    Keeps I (dirFindEntry dev sb dir name) anyResult := by
  refine (keeps_readInode D dir).bind fun got _ => ?_
  cases got with
  | none => exact Keeps.pure trivial
  | some din => exact Keeps.ite (fun _ => keeps_dirFindFrom D C din name _ 0) fun _ =>
      Keeps.pure trivial

theorem keeps_dirAddEntry (dir : Nat) (name : Str) (n : Nat) (t : UInt8) :
    Keeps I (dirAddEntry dev sb dir name n t) anyResult := by
  refine (keeps_readInode D dir).bind fun got _ => ?_
  cases got with
  | none => exact Keeps.pure trivial
  | some din =>
      refine Keeps.ite (fun _ => Keeps.pure trivial) fun _ =>
        Keeps.ite (fun _ => Keeps.pure trivial) fun _ => ?_
      refine (keeps_dirFindEntry D C dir name).bind fun found _ => ?_
      cases found with
      | some f => exact Keeps.pure trivial
      | none =>
          refine (keeps_getDataBlockForInode D C din _ true).bind fun r hr => ?_
          cases hphys : r.1 with
          | none => exact Keeps.pure trivial
          | some phys =>
              rw [hphys] at hr
              refine (D.read phys).bind fun got _ => ?_
              cases got with
              | none => exact Keeps.pure trivial
              | some buf =>
                  refine (D.write phys _ (hr phys rfl).1 (hr phys rfl).2).bind fun ok _ =>
                    Keeps.ite (fun _ => ?_) fun _ => Keeps.pure trivial
                  exact (keeps_writeInode D C dir _).bind fun _ _ => Keeps.pure trivial

/-! ## The tree of a new volume -/

omit C in
theorem keeps_writeDirDots (n parent : Nat) {block : Nat} (hblock : NotZero (some block)) :
    Keeps I (writeDirDots dev n parent block) anyResult :=
  D.write block _ (hblock block rfl).1 (hblock block rfl).2

theorem keeps_formatRoot (hfirst : u32 (sb.inodeBitmapStart.toNat + 0 / 8 / 512) ≠ 0) :
    Keeps I (formatRoot dev sb) anyResult := by
  refine (keeps_bitmapSet D hfirst true).bind fun _ _ => (keeps_writeInode D C 1 _).bind fun _ _ =>
    ?_
  refine (keeps_allocateBlock D C).bind fun got hgot => ?_
  cases got with
  | none => exact Keeps.pure trivial
  | some block =>
      exact (keeps_writeDirDots D 1 1 hgot).bind fun _ _ =>
        (keeps_writeInode D C 1 _).bind fun _ _ => Keeps.pure trivial

theorem keeps_formatApp : Keeps I (formatApp dev sb) anyResult := by
  refine (keeps_allocateInode D C).bind fun got _ => ?_
  cases got with
  | none => exact Keeps.pure trivial
  | some app =>
      refine (keeps_writeInode D C app _).bind fun _ _ => (keeps_allocateBlock D C).bind
        fun got hgot => ?_
      cases got with
      | none => exact Keeps.pure trivial
      | some block =>
          exact (keeps_writeDirDots D app 1 hgot).bind fun _ _ =>
            (keeps_writeInode D C app _).bind fun _ _ => keeps_dirAddEntry D C 1 _ app _

theorem keeps_formatAutorun : Keeps I (formatAutorun dev sb) anyResult := by
  refine (keeps_allocateInode D C).bind fun got _ => ?_
  cases got with
  | none => exact Keeps.pure trivial
  | some autorun =>
      exact (keeps_writeInode D C autorun _).bind fun _ _ => keeps_dirAddEntry D C 1 _ autorun _

theorem keeps_formatTree (hfirst : u32 (sb.inodeBitmapStart.toNat + 0 / 8 / 512) ≠ 0)
    (hsuper : Keeps I (dev.write 0 (superBlock dev.uninit sb)) anyResult) :
    Keeps I (formatTree dev sb) anyResult := by
  refine (keeps_formatRoot D C hfirst).bind fun _ _ => Keeps.ite (fun _ => ?_) fun _ =>
    Keeps.pure trivial
  refine (keeps_formatApp D C).bind fun _ _ => Keeps.ite (fun _ => ?_) fun _ => Keeps.pure trivial
  exact (keeps_formatAutorun D C).bind fun _ _ => Keeps.ite (fun _ => hsuper) fun _ =>
    Keeps.pure trivial

end

/-! ## Formatting on sectors

The same code on the device of sectors, at the start of the volume. The
superblock is written first. -/

theorem formatSuperblock_clear {totalBlocks totalInodes : UInt32} (h10 : 10 ≤ totalBlocks.toNat)
    (hlt : dataBlocks totalBlocks.toNat totalInodes.toNat < 2147483648) :
    ClearOfSuper (formatSuperblock totalBlocks totalInodes) := by
  have hl := formatLayout h10 hlt
  obtain ⟨hib, hit, hbb⟩ := regionBlocks_le totalBlocks.toNat totalInodes.toNat
  obtain ⟨h1, h2, h3, h4⟩ := formatSuperblock_starts h10 hlt
  have htb := totalBlocks.toNat_lt
  have hti := totalInodes.toNat_lt
  have hcount : (formatSuperblock totalBlocks totalInodes).inodeCount = totalInodes := rfl
  have hsize : (formatSuperblock totalBlocks totalInodes).fsSizeBlocks = totalBlocks := rfl
  have htotal : dataBlocksTotal (formatSuperblock totalBlocks totalInodes)
      = dataBlocks totalBlocks.toNat totalInodes.toNat := by
    unfold dataBlocksTotal
    rw [h4, hsize, sub32_of_le (by omega) htb]
    omega
  constructor
  · intro i hi
    rw [hcount] at hi
    rw [h1, u32_of_lt (by omega)]
    omega
  · intro i hi
    rw [htotal] at hi
    rw [h2, u32_of_lt (by omega)]
    omega
  · rintro n ⟨hpos, hle⟩
    rw [hcount] at hle
    unfold inodeBlock
    rw [h3, u32_of_lt (by omega)]
    omega
  · intro i hi
    rw [htotal] at hi
    rw [h4, u32_of_lt (by omega)]
    omega

section

variable {u : Block} {start : UInt32} {b : Block}

/-- The superblock of a volume is kept by writes to its other blocks. -/
theorem keptByDev_sector :
    KeptByDev (sectorDev u start) fun s => s.volume start 0 = b where
  read i := fun s hs => ⟨hs, trivial⟩
  write i buf h0 hlt := fun s hs => by
    refine ⟨?_, trivial⟩
    show (if s.works 0 then (s.setBlock start i buf).skip 1 else s.skip 1).volume start 0 = b
    split
    · rw [FaultyDisk.skip_volume, FaultyDisk.volume_setBlock s start buf hlt (by decide),
        if_neg (Ne.symm h0), hs]
    · exact hs

/-- The zeroing of a region: all its transfers succeed, or it stops at the first that fails. -/
theorem zeroBlocks_sectors {region n i c : Nat} {s : FaultyDisk} (hpos : 1 ≤ region)
    (hend : region + i + n ≤ 4294967296) (hs : s.volume start 0 = b) :
    ∃ s' : FaultyDisk, s'.works = s.works ∧ s'.volume start 0 = b
      ∧ (((∀ t, t < n → s.works (c + t) = true)
          ∧ zeroBlocks (sectorDev u start) region n i (s.skip c) = (true, s'.skip (c + n)))
        ∨ ((∃ t, t < n ∧ s.works (c + t) = false)
          ∧ ∃ c', zeroBlocks (sectorDev u start) region n i (s.skip c) = (false, s'.skip c'))) := by
  induction n generalizing i c s with
  | zero => exact ⟨s, rfl, hs, Or.inl ⟨fun t ht => absurd ht (Nat.not_lt_zero t), rfl⟩⟩
  | succ n ih =>
      rw [zeroBlocks, Prog.run_bind, sectorDev_write]
      cases hw : s.works c with
      | false => exact ⟨s, rfl, hs, Or.inr ⟨⟨0, Nat.succ_pos n, hw⟩, c + 1, rfl⟩⟩
      | true =>
          have hu : u32 (region + i) = region + i := u32_of_lt (by omega)
          have hkeep : (s.setBlock start (u32 (region + i)) Buf.zero).volume start 0 = b := by
            rw [hu, FaultyDisk.volume_setBlock s start Buf.zero (by omega) (by decide),
              if_neg (by omega), hs]
          obtain ⟨s', hworks, hvol, hres⟩ := ih (i := i + 1) (c := c + 1) (by omega) hkeep
          refine ⟨s', hworks, hvol, ?_⟩
          rcases hres with ⟨hall, hrun⟩ | ⟨⟨t, ht, hfail⟩, hrun⟩
          · refine Or.inl ⟨fun t ht => ?_, ?_⟩
            · rcases t with _ | t
              · exact hw
              · rw [← Nat.add_assoc, Nat.add_right_comm]
                exact hall t (by omega)
            · rw [Nat.add_comm n 1, ← Nat.add_assoc]
              exact hrun
          · refine Or.inr ⟨⟨t + 1, by omega, ?_⟩, hrun⟩
            rw [← Nat.add_assoc, Nat.add_right_comm]
            exact hfail

/-- The regions of a volume on sectors: nothing written, or its superblock and all regions, or
its superblock and a part of them. -/
theorem formatRegions_sectors {s : FaultyDisk} {sb : Superblock} {ib bb it : Nat}
    (hib : 1 ≤ sb.inodeBitmapStart.toNat ∧ sb.inodeBitmapStart.toNat + ib ≤ 4294967296)
    (hbb : 1 ≤ sb.blockBitmapStart.toNat ∧ sb.blockBitmapStart.toNat + bb ≤ 4294967296)
    (hit : 1 ≤ sb.inodeTableStart.toNat ∧ sb.inodeTableStart.toNat + it ≤ 4294967296) :
    ((s.works 0 = false)
      ∧ formatRegions (sectorDev u start) sb ib bb it s = (false, s.skip 1))
    ∨ (s.works 0 = true ∧ ∃ s' : FaultyDisk, s'.volume start 0 = superBlock u sb
      ∧ (((∀ t, t < 1 + ib + bb + it → s.works t = true)
          ∧ formatRegions (sectorDev u start) sb ib bb it s = (true, s'))
        ∨ ((∃ t, t < 1 + ib + bb + it ∧ s.works t = false)
          ∧ formatRegions (sectorDev u start) sb ib bb it s = (false, s')))) := by
  have hwrite : (sectorDev u start).write 0 (superBlock (sectorDev u start).uninit sb) s
      = (s.works 0, if s.works 0 then (s.setBlock start 0 (superBlock u sb)).skip 1 else s.skip
          1) :=
    rfl
  unfold formatRegions
  rw [Prog.run_bind, hwrite]
  cases h0 : s.works 0 with
  | false => exact Or.inl ⟨rfl, rfl⟩
  | true =>
      refine Or.inr ⟨rfl, ?_⟩
      have hvol : (s.setBlock start 0 (superBlock u sb)).volume start 0 = superBlock u sb := by
        rw [FaultyDisk.volume_setBlock _ _ _ (by decide) (by decide), if_pos rfl]
      simp only [if_true]
      -- the three regions one after the other
      obtain ⟨s₁, hw₁, hv₁, h₁⟩ := zeroBlocks_sectors (u := u) (i := 0) (c := 1) hib.1 hib.2 hvol
      rw [Prog.run_bind]
      rcases h₁ with ⟨hall₁, hrun₁⟩ | ⟨⟨t, hlt, hfail⟩, c', hrun₁⟩
      · rw [hrun₁]
        simp only [if_true]
        obtain ⟨s₂, hw₂, hv₂, h₂⟩ :=
          zeroBlocks_sectors (u := u) (i := 0) (c := 1 + ib) hbb.1 hbb.2 hv₁
        rw [Prog.run_bind]
        rcases h₂ with ⟨hall₂, hrun₂⟩ | ⟨⟨t, hlt, hfail⟩, c', hrun₂⟩
        · rw [hrun₂]
          simp only [if_true]
          obtain ⟨s₃, hw₃, hv₃, h₃⟩ :=
            zeroBlocks_sectors (u := u) (i := 0) (c := 1 + ib + bb) hit.1 hit.2 hv₂
          rw [hw₁] at hall₂
          rw [hw₂, hw₁] at h₃
          rcases h₃ with ⟨hall₃, hrun₃⟩ | ⟨⟨t, hlt, hfail⟩, c', hrun₃⟩
          · refine ⟨s₃.skip (1 + ib + bb + it), hv₃, Or.inl ⟨fun t hlast => ?_, hrun₃⟩⟩
            rcases Nat.lt_or_ge t 1 with hlt | hge
            · obtain rfl := Nat.lt_one_iff.mp hlt
              exact h0
            rcases Nat.lt_or_ge t (1 + ib) with hlt | hge
            · have h := hall₁ (t - 1) (by omega)
              rwa [Nat.add_sub_cancel' (by omega)] at h
            rcases Nat.lt_or_ge t (1 + ib + bb) with hlt | hge
            · have h := hall₂ (t - (1 + ib)) (by omega)
              rwa [Nat.add_sub_cancel' hge] at h
            · have h := hall₃ (t - (1 + ib + bb)) (by omega)
              rwa [Nat.add_sub_cancel' hge] at h
          · exact ⟨s₃.skip c', hv₃, Or.inr ⟨⟨1 + ib + bb + t, by omega, hfail⟩, hrun₃⟩⟩
        · rw [hw₁] at hfail
          rw [hrun₂]
          exact ⟨s₂.skip c', hv₂, Or.inr ⟨⟨1 + ib + t, by omega, hfail⟩, rfl⟩⟩
      · rw [hrun₁]
        exact ⟨s₁.skip c', hv₁, Or.inr ⟨⟨1 + t, by omega, hfail⟩, rfl⟩⟩

end

/-! ## The calls

The three calls in turn, each under `SetupOk`. For the format the number of
transfers it makes is counted, and those after the count do not matter. -/

/-- The calls that set up a file system. -/
inductive FsSetup where
  | init
  | mount (lba : UInt32)
  | format (lba totalBlocks totalInodes : UInt32)

/-- A call on sectors; `ipo_fs_init` does not fail. -/
def FsSetup.run (u : Block) : FsSetup → Prog (Kernel FaultyDisk) Bool
  | .init => do
      ipoFsInit
      pure true
  | .mount lba => ipoFsMount (sectorDev u) lba
  | .format lba totalBlocks totalInodes => ipoFsFormat (sectorDev u) lba totalBlocks totalInodes

/-- A mounted file system has an accepted superblock, that of the volume it starts at. -/
def Kernel.SuperOk (k : Kernel FaultyDisk) : Prop :=
  k.fsMounted = true →
    k.sb.accepted = true ∧ Superblock.decode (k.disk.volume k.fsStartLba 0) = k.sb

/-- The three globals are as they were. -/
structure SameSetup (k k' : Kernel FaultyDisk) : Prop where
  super : k'.sb = k.sb
  start : k'.fsStartLba = k.fsStartLba
  mounted : k'.fsMounted = k.fsMounted

/-- A call that leaves a mounted file system in order, and the globals alone or no mounted file
system when it fails. -/
structure SetupSafe (k : Kernel FaultyDisk) (r : Bool × Kernel FaultyDisk) : Prop where
  super : r.2.SuperOk
  failed : r.1 = false → SameSetup k r.2 ∨ r.2.fsMounted = false

/-- The sizes `ipo_fs_format` refuses before it does anything. -/
def FormatRefused (totalBlocks totalInodes : UInt32) : Prop :=
  totalBlocks.toNat < 10 ∨ dataBlocks totalBlocks.toNat totalInodes.toNat = 0
    ∨ 2147483648 ≤ dataBlocks totalBlocks.toNat totalInodes.toNat

/-- The transfers of a format up to the zeroed regions. -/
def formatTransfers (totalBlocks totalInodes : UInt32) : Nat :=
  1 + inodeBitmapBlocks totalInodes.toNat + blockBitmapBlocks totalBlocks.toNat totalInodes.toNat
    + inodeTableBlocks totalInodes.toNat

/-- The transfers of a tree none of which fails: 11 for the root, 24 for `/app`, 18 for `/autorun`
and the superblock once more. -/
def treeTransfers : Nat := 54

/-- The superblock and the zeroed regions of a format. -/
def formatMeta (u : Block) (lba totalBlocks totalInodes : UInt32) : Prog FaultyDisk Bool :=
  formatRegions (sectorDev u lba) (formatSuperblock totalBlocks totalInodes)
    (inodeBitmapBlocks totalInodes.toNat) (blockBitmapBlocks totalBlocks.toNat totalInodes.toNat)
    (inodeTableBlocks totalInodes.toNat)

/-- A call that no early exit leaves with a part of a new volume: there is none mounted, or the
mount finds a superblock (a read that fails is harmless where the volume starts already), or the
format is refused for its sizes, or has room for the tree and no transfer that fails, or is of the
volume in use with its first transfer failing or with the superblock it has. -/
def SetupOk (k : Kernel FaultyDisk) : FsSetup → Prop
  | .init => True
  | .mount lba => k.fsMounted = true →
      if k.disk.works 0 = true then (Superblock.decode (k.disk.volume lba 0)).accepted = true
      else lba = k.fsStartLba
  | .format lba totalBlocks totalInodes => k.fsMounted = true →
      FormatRefused totalBlocks totalInodes
      ∨ (RoomForTree totalBlocks totalInodes
        ∧ ∀ t, t < formatTransfers totalBlocks totalInodes + treeTransfers → k.disk.works t = true)
      ∨ (lba = k.fsStartLba
        ∧ (k.disk.works 0 = false ∨ formatSuperblock totalBlocks totalInodes = k.sb))

section

variable {u : Block} {k : Kernel FaultyDisk} {lba totalBlocks totalInodes : UInt32}

theorem ipoFsMount_sectors : ipoFsMount (sectorDev u) lba k
    = if k.disk.works 0 = true then
        ((Superblock.decode (k.disk.volume lba 0)).accepted,
          { k with
            fsStartLba := lba
            sb := Superblock.decode (k.disk.volume lba 0)
            fsMounted := (Superblock.decode (k.disk.volume lba 0)).accepted || k.fsMounted
            disk := k.disk.skip 1 })
      else (false, { k with fsStartLba := lba, disk := k.disk.skip 1 }) := by
  have hread : (sectorDev u lba).read 0 k.disk
      = (if k.disk.works 0 = true then some (k.disk.volume lba 0) else none, k.disk.skip 1) := rfl
  cases h0 : k.disk.works 0 with
  | false => simp [ipoFsMount, modifyKernel, withFs, hread, h0]
  | true =>
      cases hacc : (Superblock.decode (k.disk.volume lba 0)).accepted <;>
        simp [ipoFsMount, modifyKernel, withFs, hread, h0, hacc]

theorem formatSuperblock_accepted : (formatSuperblock totalBlocks totalInodes).accepted = true :=
  rfl

/-- The format on sectors: the sizes refused, or what the regions and the tree come to. -/
theorem ipoFsFormat_sectors : ipoFsFormat (sectorDev u) lba totalBlocks totalInodes k
    = if totalBlocks.toNat < 10 then (false, k)
      else if dataBlocks totalBlocks.toNat totalInodes.toNat = 0
        ∨ 2147483648 ≤ dataBlocks totalBlocks.toNat totalInodes.toNat then (false, k)
      else if (formatMeta u lba totalBlocks totalInodes k.disk).1 = true then
        ((formatTree (sectorDev u lba) (formatSuperblock totalBlocks totalInodes)
            (formatMeta u lba totalBlocks totalInodes k.disk).2).1,
          { k with
            sb := formatSuperblock totalBlocks totalInodes
            fsStartLba := lba
            disk := (formatTree (sectorDev u lba) (formatSuperblock totalBlocks totalInodes)
              (formatMeta u lba totalBlocks totalInodes k.disk).2).2 })
      else (false, { k with
        fsStartLba := lba
        disk := (formatMeta u lba totalBlocks totalInodes k.disk).2 }) := by
  have hmeta : formatMeta u lba totalBlocks totalInodes = formatRegions (sectorDev u lba)
      (formatSuperblock totalBlocks totalInodes) (inodeBitmapBlocks totalInodes.toNat)
      (blockBitmapBlocks totalBlocks.toNat totalInodes.toNat)
      (inodeTableBlocks totalInodes.toNat) := rfl
  cases hok : (formatMeta u lba totalBlocks totalInodes k.disk).1 <;>
    simp [ipoFsFormat, modifyKernel, withFs, ← hmeta, hok]

/-- The superblock and the regions of a format of accepted sizes. -/
theorem formatMeta_sectors (h : ¬ FormatRefused totalBlocks totalInodes) (s : FaultyDisk) :
    (s.works 0 = false ∧ formatMeta u lba totalBlocks totalInodes s = (false, s.skip 1))
    ∨ (s.works 0 = true ∧ ∃ s' : FaultyDisk,
      s'.volume lba 0 = superBlock u (formatSuperblock totalBlocks totalInodes)
      ∧ (((∀ t, t < formatTransfers totalBlocks totalInodes → s.works t = true)
          ∧ formatMeta u lba totalBlocks totalInodes s = (true, s'))
        ∨ ((∃ t, t < formatTransfers totalBlocks totalInodes ∧ s.works t = false)
          ∧ formatMeta u lba totalBlocks totalInodes s = (false, s')))) := by
  unfold FormatRefused at h
  have hl := @formatLayout totalBlocks totalInodes (by omega) (by omega)
  obtain ⟨h1, h2, h3, h4⟩ := @formatSuperblock_starts totalBlocks totalInodes (by omega)
    (by omega)
  have htb := totalBlocks.toNat_lt
  exact formatRegions_sectors (by omega) (by omega) (by omega)

theorem formatTree_super (h : ¬ FormatRefused totalBlocks totalInodes) {s : FaultyDisk}
    (hs : s.volume lba 0 = superBlock u (formatSuperblock totalBlocks totalInodes)) :
    (formatTree (sectorDev u lba) (formatSuperblock totalBlocks totalInodes) s).2.volume lba 0
      = superBlock u (formatSuperblock totalBlocks totalInodes) := by
  unfold FormatRefused at h
  have hclear := @formatSuperblock_clear totalBlocks totalInodes (by omega) (by omega)
  have hsuper : Keeps (fun s : FaultyDisk =>
      s.volume lba 0 = superBlock u (formatSuperblock totalBlocks totalInodes))
      ((sectorDev u lba).write 0 (superBlock (sectorDev u lba).uninit
        (formatSuperblock totalBlocks totalInodes))) anyResult := fun t ht => by
    refine ⟨?_, trivial⟩
    show (if t.works 0 then (t.setBlock lba 0 (superBlock u
      (formatSuperblock totalBlocks totalInodes))).skip 1 else t.skip 1).volume lba 0 = _
    split
    · rw [FaultyDisk.skip_volume, FaultyDisk.volume_setBlock t lba _ (by decide) (by decide),
        if_pos rfl]
    · exact ht
  have hfirst : u32 ((1 : UInt32).toNat + 0 / 8 / 512) ≠ 0 := by decide
  exact (keeps_formatTree keptByDev_sector hclear hfirst hsuper s hs).1

theorem SetupSafe.of_unmounted {r : Bool × Kernel FaultyDisk} (h : r.2.fsMounted = false) :
    SetupSafe k r :=
  ⟨fun hm => absurd (h.symm.trans hm) Bool.false_ne_true, fun _ => Or.inr h⟩

/-- A failed call that leaves a file system mounted leaves the globals alone. -/
theorem SetupSafe.same {r : Bool × Kernel FaultyDisk} (h : SetupSafe k r) (hfail : r.1 = false)
    (hm : r.2.fsMounted = true) : SameSetup k r.2 :=
  (h.failed hfail).resolve_right fun hun => absurd (hun.symm.trans hm) Bool.false_ne_true

/-- A mount keeps the file system in order exactly when it meets its condition. -/
theorem ipoFsMount_safe (hk : k.SuperOk) :
    SetupSafe k (ipoFsMount (sectorDev u) lba k) ↔ SetupOk k (.mount lba) := by
  unfold SetupOk
  rw [ipoFsMount_sectors]
  rcases Bool.eq_false_or_eq_true k.fsMounted with hm | hm
  · obtain ⟨hacc, hsuper⟩ := hk hm
    cases h0 : k.disk.works 0 with
    | false =>
        simp only [Bool.false_eq_true, if_false]
        constructor
        · intro h _
          exact (h.same rfl hm).start
        · intro h
          obtain rfl := h hm
          exact ⟨fun _ => ⟨hacc, hsuper⟩, fun _ => Or.inl ⟨rfl, rfl, rfl⟩⟩
    | true =>
        simp only [if_true]
        constructor
        · intro h _
          refine (h.super ?_).1
          show ((Superblock.decode (k.disk.volume lba 0)).accepted || k.fsMounted) = true
          rw [hm, Bool.or_true]
        · intro h
          exact ⟨fun _ => ⟨h hm, rfl⟩, fun hfail =>
            absurd (hfail.symm.trans (h hm)) Bool.false_ne_true⟩
  · refine iff_of_true ?_ fun h => absurd (hm.symm.trans h) Bool.false_ne_true
    split
    · cases hacc : (Superblock.decode (k.disk.volume lba 0)).accepted with
      | false => exact SetupSafe.of_unmounted hm
      | true => exact ⟨fun _ => ⟨hacc, rfl⟩, fun h => by cases h⟩
    · exact SetupSafe.of_unmounted hm

/-- A format of accepted sizes keeps a mounted file system in order exactly when it comes through
or repeats the volume in use. -/
theorem ipoFsFormat_mounted (hk : k.SuperOk) (hm : k.fsMounted = true)
    (href : ¬ FormatRefused totalBlocks totalInodes) :
    SetupSafe k (ipoFsFormat (sectorDev u) lba totalBlocks totalInodes k)
      ↔ ((∀ t, t < formatTransfers totalBlocks totalInodes → k.disk.works t = true)
        ∧ (formatTree (sectorDev u lba) (formatSuperblock totalBlocks totalInodes)
          (formatMeta u lba totalBlocks totalInodes k.disk).2).1 = true)
      ∨ (lba = k.fsStartLba
        ∧ (k.disk.works 0 = false ∨ formatSuperblock totalBlocks totalInodes = k.sb)) := by
  obtain ⟨hacc, hsuper⟩ := hk hm
  have h10 : ¬ totalBlocks.toNat < 10 := fun h => href (Or.inl h)
  have hdata : ¬ (dataBlocks totalBlocks.toNat totalInodes.toNat = 0
      ∨ 2147483648 ≤ dataBlocks totalBlocks.toNat totalInodes.toNat) := fun h => href (Or.inr h)
  have hdecode : Superblock.decode (superBlock u (formatSuperblock totalBlocks totalInodes))
      = formatSuperblock totalBlocks totalInodes := by
    rw [superBlock, Superblock.decode_patch]
  rw [ipoFsFormat_sectors, if_neg h10, if_neg hdata]
  rcases @formatMeta_sectors u lba totalBlocks totalInodes href k.disk with
    ⟨h0, hrun⟩ | ⟨h0, s', hvol, ⟨hall, hrun⟩ | ⟨⟨t, ht, hfail⟩, hrun⟩⟩
  · -- nothing was written
    rw [hrun]
    simp only [Bool.false_eq_true, if_false]
    constructor
    · intro h
      exact Or.inr ⟨(h.same rfl hm).start, Or.inl h0⟩
    · rintro (⟨hworks, -⟩ | ⟨rfl, -⟩)
      · have hfirst := hworks 0 (by unfold formatTransfers; omega)
        exact absurd (h0.symm.trans hfirst) Bool.false_ne_true
      · exact ⟨fun _ => ⟨hacc, hsuper⟩, fun _ => Or.inl ⟨rfl, rfl, rfl⟩⟩
  · -- the regions are there, and the tree decides
    rw [hrun]
    simp only [if_true]
    constructor
    · intro h
      cases htree :
        (formatTree (sectorDev u lba) (formatSuperblock totalBlocks totalInodes) s').1 with
      | true => exact Or.inl ⟨hall, rfl⟩
      | false =>
          have hsame := h.same htree hm
          exact Or.inr ⟨hsame.start, Or.inr hsame.super⟩
    · intro h
      refine ⟨fun _ => ⟨formatSuperblock_accepted,
        (congrArg Superblock.decode (formatTree_super href hvol)).trans hdecode⟩, fun hfail => ?_⟩
      rcases h with ⟨-, htree⟩ | ⟨hlba, hfirst | hsb⟩
      · exact absurd (hfail.symm.trans htree) Bool.false_ne_true
      · exact absurd (hfirst.symm.trans h0) Bool.false_ne_true
      · exact Or.inl ⟨hsb, hlba, rfl⟩
  · -- a region is missing
    have hblock : Superblock.decode (s'.volume lba 0)
        = formatSuperblock totalBlocks totalInodes := by
      rw [hvol, hdecode]
    rw [hrun]
    simp only [Bool.false_eq_true, if_false]
    constructor
    · intro h
      exact Or.inr ⟨(h.same rfl hm).start, Or.inr (hblock.symm.trans (h.super hm).2)⟩
    · rintro (⟨hworks, -⟩ | ⟨hlba, hfirst | hsb⟩)
      · exact absurd (hfail.symm.trans (hworks t ht)) Bool.false_ne_true
      · exact absurd (hfirst.symm.trans h0) Bool.false_ne_true
      · exact ⟨fun _ => ⟨hacc, hblock.trans hsb⟩, fun _ => Or.inl ⟨rfl, hlba, rfl⟩⟩

theorem ipoFsFormat_fsMounted :
    (ipoFsFormat (sectorDev u) lba totalBlocks totalInodes k).2.fsMounted = k.fsMounted := by
  rw [ipoFsFormat_sectors]
  split
  · rfl
  · split
    · rfl
    · split <;> rfl

/-- A format with room for the tree none of whose transfers fails builds the tree. -/
theorem formatTree_through {s : FaultyDisk} (href : ¬ FormatRefused totalBlocks totalInodes)
    (hroom : RoomForTree totalBlocks totalInodes)
    (hworks : ∀ t, t < formatTransfers totalBlocks totalInodes + treeTransfers → s.works t = true) :
    (formatTree (sectorDev u lba) (formatSuperblock totalBlocks totalInodes)
      (formatMeta u lba totalBlocks totalInodes s).2).1 = true := by
  unfold FormatRefused at href
  have h10 : 10 ≤ totalBlocks.toNat := by omega
  have hlt : dataBlocks totalBlocks.toNat totalInodes.toNat < 2147483648 := by omega
  obtain ⟨sb, R, hstart⟩ := hroom.treeRoom h10 hlt
  obtain ⟨d, hregions, hzero⟩ :=
    Undisturbed.formatRegions u lba (d := s.volume lba) h10 hlt
  obtain ⟨d', htree⟩ := R.formatTree u lba (d := d) fun q hq hlast =>
    hzero q hq (hstart ▸ hlast)
  -- the regions take the first transfers, the tree those that follow
  obtain ⟨s₁, hrun₁, hworks₁, hvol₁⟩ := hregions s
    (fun t ht => hworks t (Nat.lt_of_lt_of_le ht (Nat.le_add_right _ _))) fun _ _ => rfl
  obtain ⟨s₂, hrun₂, -, -⟩ := htree s₁
    (fun t ht => (hworks₁ t).trans (hworks _ (Nat.add_lt_add_left ht _))) hvol₁
  rw [show formatMeta u lba totalBlocks totalInodes s = (true, s₁) from hrun₁]
  exact congrArg Prod.fst hrun₂

/-- A format that meets its condition keeps the file system in order. -/
theorem ipoFsFormat_safe (hk : k.SuperOk) (hok : SetupOk k (.format lba totalBlocks totalInodes)) :
    SetupSafe k (ipoFsFormat (sectorDev u) lba totalBlocks totalInodes k) := by
  rcases Bool.eq_false_or_eq_true k.fsMounted with hm | hm
  · rcases em (FormatRefused totalBlocks totalInodes) with href | href
    · have hsame : SetupSafe k (false, k) := ⟨hk, fun _ => Or.inl ⟨rfl, rfl, rfl⟩⟩
      rw [ipoFsFormat_sectors]
      rcases href with h10 | hdata
      · rw [if_pos h10]
        exact hsame
      · rw [if_pos hdata]
        split <;> exact hsame
    · rw [ipoFsFormat_mounted hk hm href]
      rcases hok hm with hrefused | ⟨hroom, hworks⟩ | hrepeat
      · exact absurd hrefused href
      · exact Or.inl ⟨fun t ht => hworks t (Nat.lt_of_lt_of_le ht (Nat.le_add_right _ _)),
          formatTree_through href hroom hworks⟩
      · exact Or.inr hrepeat
  · exact SetupSafe.of_unmounted (ipoFsFormat_fsMounted.trans hm)

/-- A call that meets its condition keeps the file system in order. -/
theorem FsSetup.run_safe (hk : k.SuperOk) (c : FsSetup) (hok : SetupOk k c) :
    SetupSafe k (c.run u k) := by
  cases c with
  | init => exact SetupSafe.of_unmounted rfl
  | mount lba => exact (ipoFsMount_safe hk).mpr hok
  | format lba totalBlocks totalInodes => exact ipoFsFormat_safe hk hok

end

/-- Runs of setup calls that meet a condition. -/
abbrev SetupRun (u : Block) (ok : Kernel FaultyDisk → FsSetup → Prop) :
    Kernel FaultyDisk → Kernel FaultyDisk → Prop :=
  RunBy (fun c k => some (c.run u k).2) ok

/-- From the boot state on, whatever transfers fail: in every state of every run whose calls meet
the condition a mounted file system has the accepted superblock of its volume, and a further call
that meets it keeps that and leaves nothing behind when it fails. A mount does so only then. -/
theorem setup_safe {u : Block} {k₀ k : Kernel FaultyDisk} (hboot : k₀.fsMounted = false)
    (hr : SetupRun u SetupOk k₀ k) :
    k.SuperOk
    ∧ (∀ c : FsSetup, SetupOk k c → SetupSafe k (c.run u k))
    ∧ ∀ lba, SetupSafe k ((FsSetup.mount lba).run u k) → SetupOk k (.mount lba) := by
  have hk : k.SuperOk := by
    refine RunBy.invariant (fun k c k' hk hok hrun => ?_) hr fun hm => ?_
    · obtain rfl := Option.some.inj hrun
      exact (FsSetup.run_safe hk c hok).super
    · rw [hboot] at hm
      cases hm
  exact ⟨hk, FsSetup.run_safe hk, fun lba => (ipoFsMount_safe hk).mp⟩

/-- The kernel at boot, over blank sectors none of whose transfers fails. -/
def bootKernel : Kernel FaultyDisk where
  sb := Superblock.zero
  fsStartLba := 0
  fsMounted := false
  fds := fun _ => ⟨false, 0, 0⟩
  disk := ⟨fun _ => Buf.zero, fun _ => true⟩

def formattedSetup : Kernel FaultyDisk := ((FsSetup.format 0 12 6).run Buf.zero bootKernel).2

def setupKernel : Kernel FaultyDisk := ((FsSetup.mount 0).run Buf.zero formattedSetup).2

theorem SetupOk.of_unmounted {k : Kernel FaultyDisk} (hm : k.fsMounted = false)
    (c : FsSetup) : SetupOk k c := by
  have hno : k.fsMounted ≠ true := fun h => absurd (hm.symm.trans h) Bool.false_ne_true
  cases c with
  | init => trivial
  | mount lba => exact fun h => absurd h hno
  | format lba totalBlocks totalInodes => exact fun h => absurd h hno

/-- The kernel after a second format, of a volume elsewhere. -/
def reformattedSetup : Kernel FaultyDisk := ((FsSetup.format 100 12 6).run Buf.zero setupKernel).2

/-- The format and the mount of a boot, and a format over the mounted volume. -/
theorem setup_safe_reformat :
    reformattedSetup.SuperOk
    ∧ (∀ c : FsSetup, SetupOk reformattedSetup c →
        SetupSafe reformattedSetup (c.run Buf.zero reformattedSetup))
    ∧ ∀ lba, SetupSafe reformattedSetup ((FsSetup.mount lba).run Buf.zero reformattedSetup) →
        SetupOk reformattedSetup (.mount lba) := by
  have hboot : bootKernel.fsMounted = false := rfl
  have hformat : formattedSetup.fsMounted = false := by decide +kernel
  have hroom : RoomForTree 12 6 := by decide
  have hworks : ∀ t, t < formatTransfers 12 6 + treeTransfers →
      setupKernel.disk.works t = true := by
    decide +kernel
  have hfirst : SetupRun Buf.zero SetupOk bootKernel formattedSetup :=
    Relation.ReflTransGen.single ⟨.format 0 12 6, SetupOk.of_unmounted hboot _, rfl⟩
  have hmount : SetupRun Buf.zero SetupOk bootKernel setupKernel :=
    hfirst.tail ⟨.mount 0, SetupOk.of_unmounted hformat _, rfl⟩
  have hrun : SetupRun Buf.zero SetupOk bootKernel reformattedSetup :=
    hmount.tail ⟨.format 100 12 6, fun _ => Or.inr (Or.inl ⟨hroom, hworks⟩), rfl⟩
  exact setup_safe hboot hrun

/-- The kernel after the mount of a blank sector. -/
def rejectedKernel : Kernel FaultyDisk := ((FsSetup.mount 100).run Buf.zero setupKernel).2

/-- A mount that finds no superblock fails and leaves what it read behind, with the file system
mounted. -/
theorem setup_mount_rejected :
    SetupRun Buf.zero (fun _ _ => True) bootKernel rejectedKernel
    ∧ ((FsSetup.mount 100).run Buf.zero setupKernel).1 = false
    ∧ rejectedKernel.fsMounted = true ∧ rejectedKernel.sb.accepted = false
    ∧ ¬ rejectedKernel.SuperOk
    ∧ ¬ SetupSafe setupKernel ((FsSetup.mount 100).run Buf.zero setupKernel) := by
  have hrun : SetupRun Buf.zero (fun _ _ => True) bootKernel rejectedKernel :=
    ((Relation.ReflTransGen.single ⟨.format 0 12 6, trivial, rfl⟩ :
      SetupRun Buf.zero (fun _ _ => True) bootKernel formattedSetup).tail
      ⟨.mount 0, trivial, rfl⟩ : SetupRun Buf.zero (fun _ _ => True) bootKernel setupKernel).tail
      ⟨.mount 100, trivial, rfl⟩
  have hfail : ((FsSetup.mount 100).run Buf.zero setupKernel).1 = false := by decide +kernel
  have hm : rejectedKernel.fsMounted = true := by decide +kernel
  have hacc : rejectedKernel.sb.accepted = false := by decide +kernel
  have hbad : ¬ rejectedKernel.SuperOk := fun h =>
    absurd (hacc.symm.trans (h hm).1) Bool.false_ne_true
  exact ⟨hrun, hfail, hm, hacc, hbad, fun h => hbad h.super⟩

end IpoOs
