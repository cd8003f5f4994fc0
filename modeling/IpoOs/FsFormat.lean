import IpoOs.FsRun

/-!
# What `ipo_fs_format` leaves

A successful format on the device that behaves as an array of blocks, in
two steps. The layout: the conditions on the two region sizes
give `SoundLayout`. The tree: `FormatSteps` lists the volumes the
function goes through after the regions are zeroed, each by one of the
operations of the lower layers, so that whatever these keep holds of the
formatted volume.

The layout is computed by the source in 32 bits and in eight rounds; here it
is shown to be sound under `TableFits` and `BitmapFits`, which speak about
the two sizes that the arithmetic can get wrong. What exactly the rounds do
is in `FsBitmap`, and when the table is large enough in `FsTable`.
-/

namespace IpoOs

/-! ## The layout

From the sizes that were asked for to `SoundLayout`. -/

/-- `inode_table_blocks` holds every slot. -/
def TableFits (totalInodes : UInt32) : Prop :=
  (totalInodes.toNat + 5) / 6 ≤ inodeTableBlocks totalInodes.toNat

/-- `block_bitmap_blocks` has a bit for every data block. -/
def BitmapFits (totalBlocks totalInodes : UInt32) : Prop :=
  dataBlocks totalBlocks.toNat totalInodes.toNat
    ≤ 4096 * blockBitmapBlocks totalBlocks.toNat totalInodes.toNat

instance (totalInodes : UInt32) : Decidable (TableFits totalInodes) :=
  inferInstanceAs (Decidable (_ ≤ _))

instance (totalBlocks totalInodes : UInt32) : Decidable (BitmapFits totalBlocks totalInodes) :=
  inferInstanceAs (Decidable (_ ≤ _))

theorem TableFits.count_le {totalInodes : UInt32} (h : TableFits totalInodes) :
    totalInodes.toNat ≤ 54 := by
  have h1 : u32 (totalInodes.toNat * 76) ≤ totalInodes.toNat * 76 := Nat.mod_le _ _
  have h2 : u32 (u32 (totalInodes.toNat * 76) + 511) ≤ u32 (totalInodes.toNat * 76) + 511 :=
    Nat.mod_le _ _
  unfold TableFits inodeTableBlocks at h
  omega

theorem blockBitmapRounds_le (totalBlocks other n bb : Nat) (h : bb ≤ 1048576) :
    blockBitmapRounds totalBlocks other n bb ≤ 1048576 := by
  induction n generalizing bb with
  | zero => exact h
  | succ n ih =>
      have hnb : u32 (sub32 (sub32 totalBlocks other) bb + 4095) / 4096 ≤ 1048576 := by
        have := u32_lt (sub32 (sub32 totalBlocks other) bb + 4095)
        omega
      simp only [blockBitmapRounds]
      split
      · exact h
      · exact ih _ hnb

theorem regionBlocks_le (totalBlocks totalInodes : Nat) :
    inodeBitmapBlocks totalInodes ≤ 1048576 ∧ inodeTableBlocks totalInodes ≤ 8388608
    ∧ blockBitmapBlocks totalBlocks totalInodes ≤ 1048576 := by
  refine ⟨?_, ?_, blockBitmapRounds_le _ _ 8 1 (by omega)⟩
  · have := u32_lt (totalInodes + 4095)
    unfold inodeBitmapBlocks
    omega
  · have := u32_lt (u32 (totalInodes * 76) + 511)
    unfold inodeTableBlocks
    omega

/-- The regions `ipo_fs_format` lays out, when it accepts the sizes. -/
theorem formatLayout {totalBlocks totalInodes : UInt32} (h10 : 10 ≤ totalBlocks.toNat)
    (hlt : dataBlocks totalBlocks.toNat totalInodes.toNat < 2147483648) :
    totalBlocks.toNat = 1 + inodeBitmapBlocks totalInodes.toNat
      + blockBitmapBlocks totalBlocks.toNat totalInodes.toNat
      + inodeTableBlocks totalInodes.toNat + dataBlocks totalBlocks.toNat totalInodes.toNat := by
  obtain ⟨hib, hit, hbb⟩ := regionBlocks_le totalBlocks.toNat totalInodes.toNat
  have htb := totalBlocks.toNat_lt
  unfold dataBlocks at hlt ⊢
  generalize blockBitmapBlocks totalBlocks.toNat totalInodes.toNat = bb at *
  generalize inodeBitmapBlocks totalInodes.toNat = ib at *
  generalize inodeTableBlocks totalInodes.toNat = it at *
  unfold sub32 at *
  omega

/-- The sizes of the regions of the superblock `ipo_fs_format` writes. -/
theorem formatSuperblock_starts {totalBlocks totalInodes : UInt32}
    (h10 : 10 ≤ totalBlocks.toNat)
    (hlt : dataBlocks totalBlocks.toNat totalInodes.toNat < 2147483648) :
    (formatSuperblock totalBlocks totalInodes).inodeBitmapStart.toNat = 1
    ∧ (formatSuperblock totalBlocks totalInodes).blockBitmapStart.toNat
      = 1 + inodeBitmapBlocks totalInodes.toNat
    ∧ (formatSuperblock totalBlocks totalInodes).inodeTableStart.toNat
      = 1 + inodeBitmapBlocks totalInodes.toNat
        + blockBitmapBlocks totalBlocks.toNat totalInodes.toNat
    ∧ (formatSuperblock totalBlocks totalInodes).dataBlocksStart.toNat
      = 1 + inodeBitmapBlocks totalInodes.toNat
        + blockBitmapBlocks totalBlocks.toNat totalInodes.toNat
        + inodeTableBlocks totalInodes.toNat := by
  have hl := formatLayout h10 hlt
  have htb := totalBlocks.toNat_lt
  refine ⟨rfl, ?_, ?_, ?_⟩
  · simp only [formatSuperblock, UInt32.toNat_ofNat']
    omega
  · simp only [formatSuperblock, UInt32.toNat_ofNat']
    omega
  · simp only [formatSuperblock, UInt32.toNat_ofNat']
    omega

theorem formatSuperblock_sound {totalBlocks totalInodes : UInt32}
    (h10 : 10 ≤ totalBlocks.toNat)
    (hlt : dataBlocks totalBlocks.toNat totalInodes.toNat < 2147483648)
    (htable : TableFits totalInodes) (hbitmap : BitmapFits totalBlocks totalInodes) :
    SoundLayout (formatSuperblock totalBlocks totalInodes) := by
  have hl := formatLayout h10 hlt
  obtain ⟨h1, h2, h3, h4⟩ := formatSuperblock_starts h10 hlt
  have hcount : (formatSuperblock totalBlocks totalInodes).inodeCount = totalInodes := rfl
  have hsize : (formatSuperblock totalBlocks totalInodes).fsSizeBlocks = totalBlocks := rfl
  have hib : inodeBitmapBlocks totalInodes.toNat = (totalInodes.toNat + 4095) / 4096 := by
    have := htable.count_le
    unfold inodeBitmapBlocks
    rw [u32_of_lt (by omega)]
  unfold TableFits at htable
  unfold BitmapFits at hbitmap
  constructor
  · omega
  · rw [h1, h2, hcount]
    omega
  · rw [h2, h3, h4, hsize]
    omega
  · rw [h3, h4, hcount]
    omega
  · rw [h4, hsize]
    omega

/-! ## The zeroed regions

The loops that zero the bitmaps and the table, and a table of zeros, in
which no inode has a pointer. -/

theorem zeroBlocks_array (u : Block) (start n i : Nat) (d : Disk)
    (h : start + i + n ≤ 4294967296) :
    zeroBlocks (arrayDev u) start n i d
      = (true, fun q => if start + i ≤ q ∧ q < start + i + n then Buf.zero else d q) := by
  induction n generalizing i d with
  | zero =>
      have hd : (fun q => if start + i ≤ q ∧ q < start + i + 0 then Buf.zero else d q) = d :=
        funext fun q => if_neg (by omega)
      rw [hd]
      rfl
  | succ n ih =>
      have hu : u32 (start + i) = start + i := u32_of_lt (by omega)
      simp only [zeroBlocks, Prog.run_bind, arrayDev_write, hu, if_true]
      rw [ih (i + 1) _ (by omega)]
      congr 1
      funext q
      by_cases hq : q = start + i
      · rw [hq, Disk.set_self, if_neg (by omega), if_pos (by omega)]
      · rw [Disk.set_of_ne hq]
        by_cases hq' : start + (i + 1) ≤ q ∧ q < start + (i + 1) + n
        · rw [if_pos hq', if_pos (by omega)]
        · rw [if_neg hq', if_neg (by omega)]

theorem formatRegions_array (u : Block) (d : Disk) {totalBlocks totalInodes : UInt32}
    (h10 : 10 ≤ totalBlocks.toNat)
    (hlt : dataBlocks totalBlocks.toNat totalInodes.toNat < 2147483648) :
    ∃ d', formatRegions (arrayDev u) (formatSuperblock totalBlocks totalInodes)
        (inodeBitmapBlocks totalInodes.toNat)
        (blockBitmapBlocks totalBlocks.toNat totalInodes.toNat)
        (inodeTableBlocks totalInodes.toNat) d = (true, d')
      ∧ d' 0 = superBlock u (formatSuperblock totalBlocks totalInodes)
      ∧ (∀ q, 1 ≤ q → q < (formatSuperblock totalBlocks totalInodes).dataBlocksStart.toNat →
        d' q = Buf.zero)
      ∧ ∀ q, (formatSuperblock totalBlocks totalInodes).dataBlocksStart.toNat ≤ q →
        d' q = d q := by
  have hl := formatLayout h10 hlt
  have htb := totalBlocks.toNat_lt
  obtain ⟨h1, h2, h3, h4⟩ := formatSuperblock_starts h10 hlt
  have hu : (arrayDev u).uninit = u := rfl
  refine ⟨fun q =>
      if (formatSuperblock totalBlocks totalInodes).inodeTableStart.toNat + 0 ≤ q
        ∧ q < (formatSuperblock totalBlocks totalInodes).inodeTableStart.toNat + 0
          + inodeTableBlocks totalInodes.toNat then Buf.zero
      else if (formatSuperblock totalBlocks totalInodes).blockBitmapStart.toNat + 0 ≤ q
        ∧ q < (formatSuperblock totalBlocks totalInodes).blockBitmapStart.toNat + 0
          + blockBitmapBlocks totalBlocks.toNat totalInodes.toNat then Buf.zero
      else if (formatSuperblock totalBlocks totalInodes).inodeBitmapStart.toNat + 0 ≤ q
        ∧ q < (formatSuperblock totalBlocks totalInodes).inodeBitmapStart.toNat + 0
          + inodeBitmapBlocks totalInodes.toNat then Buf.zero
      else d.set 0 (superBlock u (formatSuperblock totalBlocks totalInodes)) q, ?_, ?_, ?_, ?_⟩
  · simp only [formatRegions, Prog.run_bind, arrayDev_write, hu, if_true]
    rw [zeroBlocks_array u _ _ _ _ (by omega)]
    simp only [Prog.run_bind, if_true]
    rw [zeroBlocks_array u _ _ _ _ (by omega)]
    simp only [if_true]
    rw [zeroBlocks_array u _ _ _ _ (by omega)]
  · simp only
    rw [if_neg (by omega), if_neg (by omega), if_neg (by omega), Disk.set_self]
  · intro q hq hq'
    simp only
    by_cases ht : (formatSuperblock totalBlocks totalInodes).inodeTableStart.toNat ≤ q
    · rw [if_pos (by omega)]
    · rw [if_neg (by omega)]
      by_cases hb : (formatSuperblock totalBlocks totalInodes).blockBitmapStart.toNat ≤ q
      · rw [if_pos (by omega)]
      · rw [if_neg (by omega), if_pos (by omega)]
  · intro q hq
    simp only
    rw [if_neg (by omega), if_neg (by omega), if_neg (by omega), Disk.set_of_ne (by omega)]

theorem Inode.decode_zero (off : Nat) : Inode.decode Buf.zero off = Inode.zero := rfl

theorem ownedVol_zeroed {sb : Superblock} (hi : Nat) {d : Disk} (L : SoundLayout sb)
    (hz : ∀ q, 1 ≤ q → q < sb.dataBlocksStart.toNat → d q = Buf.zero) :
    OwnedVol sb hi d ∧ (∀ i, d.inodeAt sb i = Inode.zero)
      ∧ (∀ i, sb.ValidIno i → d.inodeUsed sb i = false) := by
  have h1 := L.first
  have h2 := L.inodeBitmap
  have h3 := L.blockBitmap
  have h4 := L.inodeTable
  have hat : ∀ i, d.inodeAt sb i = Inode.zero := fun i => by
    by_cases hv : sb.ValidIno i
    · have := L.le_inodeBlock hv
      rw [Disk.inodeAt, if_pos hv, hz _ (by omega) (L.inodeBlock_lt hv), Inode.decode_zero]
    · exact Disk.inodeAt_of_not_valid hv
  have hnull : ∀ s, volPtr (d.inodeAt sb) d s = 0 := fun s => by
    rw [volPtr, hat]
    exact Disk.ptr_of_no_roots (fun pos => by cases pos <;> rfl) d s.2
  refine ⟨⟨fun s h => absurd (hnull s) h, fun s h => absurd (hnull s) h,
    fun s h => absurd (hnull s) h, fun s _ h => absurd (hnull s) h⟩, hat, fun i hv => ?_⟩
  obtain ⟨h5, h6⟩ := L.inodeBit_block hv
  rw [Disk.inodeUsed, Disk.bit, h5, hz _ (by omega) (by omega)]
  simp [bitOf, Buf.zero]

/-! ## The tree

Three directories at most: the root with its dots, and `/app` and `/autorun`
as long as inodes and blocks are left. -/

/-- The block `write_dir_dots` writes. -/
def dotsBlock (ino parent : Nat) : Block :=
  (Buf.zero.patch 0 72 (makeEntry ino typeDir dot).encode).patch 72 72
    (makeEntry parent typeDir dotdot).encode

/-- The volume after an inode without pointers became a directory of two entries
in block `p`. -/
structure DirStarted (sb : Superblock) (ino parent p : Nat) (d d' : Disk) : Prop where
  block : sb.DataBlock p
  low : p < 2147483648
  free : d.blockUsed sb p = false
  eq : d' = ((d.takeBlock sb p).set p (dotsBlock ino parent)).putInode sb ino
    { (d.inodeAt sb ino).setDirect 0 p with size := 144 }

section

variable {sb : Superblock} {hi : Nat} {d d' : Disk} (L : SoundLayout sb) (B : BlockBound sb hi)
  (u : Block)

include L B

theorem DirStarted.touched {ino parent p : Nat} (O : OwnedVol sb hi d) (hv : sb.ValidIno ino)
    (hr : ∀ pos, (d.inodeAt sb ino).root pos = 0) (h : DirStarted sb ino parent p d d') :
    Touched sb hi ino d d' := by
  have O' : VolOwned sb hi d (Function.update (d.inodeAt sb) ino (d.inodeAt sb ino)) := by
    rw [Function.update_eq_self]
    exact O
  have hlow := h.low
  have hnull : d.ptr (d.inodeAt sb ino) (.direct 0) = 0 := Disk.ptr_of_no_roots hr d _
  have hpar : ∀ t, (Pos.direct 0).parent = some t → d.ptr (d.inodeAt sb ino) t ≠ 0 :=
    fun t ht => by cases ht
  have hlink := Grew.link (A := fun _ => True) L B O' h.block (by omega)
    (B.low p h.block h.low) h.free trivial hnull hpar
  have hptr := VolOwned.ptr_link L O' h.block (by omega) h.free hnull hpar (.direct 0)
  rw [if_pos rfl] at hptr
  have hset := Changed.set L B hlink.owned
    (by rw [hptr]; exact L.dataBlock_ne_zero h.block) rfl (dotsBlock ino parent)
  rw [hptr] at hset
  rw [h.eq]
  exact (hlink.changed.trans hset).touched L B O hv rfl rfl

omit B in
theorem allocateBlock_some {p : Nat} (h : allocateBlock (arrayDev u) sb d = (some p, d')) :
    sb.DataBlock p ∧ p < 2147483648 ∧ d.blockUsed sb p = false ∧ d' = d.takeBlock sb p := by
  rcases allocateBlock_array u d L with ⟨q, hq, hfree, -, hrun⟩ | ⟨-, hrun⟩
  · rw [hrun] at h
    obtain ⟨h1, h2⟩ := Prod.mk.inj h
    obtain ⟨rfl, hlt⟩ := asInt_eq_some.mp h1
    exact ⟨hq, hlt, hfree, h2.symm⟩
  · rw [hrun] at h
    cases (Prod.mk.inj h).1

/-- The name `app`. -/
def appName : Str := [97, 112, 112]

/-- The name `autorun`. -/
def autorunName : Str := [97, 117, 116, 111, 114, 117, 110]

/-- The volumes `ipo_fs_format` goes through after the regions are zeroed, up to
the second write of the superblock. -/
structure FormatSteps (u : Block) (sb : Superblock) (hi : Nat) (d₀ d₁ d₂ d₃ d₄ d₅ d₆ d₇ : Disk)
    (app autorun p q : Nat) : Prop where
  root : InodeTaken sb hi 1 (freshInode 1 2) d₀ d₁
  rootDir : DirStarted sb 1 1 p d₁ d₂
  appFree : sb.ValidIno app ∧ d₂.inodeUsed sb app = false
  appInode : InodeTaken sb hi app (freshInode (1 ||| flagProtected) 2) d₂ d₃
  appDir : DirStarted sb app 1 q d₃ d₄
  appEntry : dirAddEntry (arrayDev u) sb 1 appName app typeDir d₄ = (true, d₅)
  autorunFree : sb.ValidIno autorun ∧ d₅.inodeUsed sb autorun = false
  autorunInode : InodeTaken sb hi autorun (freshInode (2 ||| flagProtected) 1) d₅ d₆
  autorunEntry : dirAddEntry (arrayDev u) sb 1 autorunName autorun typeFile d₆ = (true, d₇)

theorem formatRoot_cases (O : OwnedVol sb hi d) (hv : sb.ValidIno 1)
    (h : formatRoot (arrayDev u) sb d = (true, d')) :
    ∃ d₁ p, InodeTaken sb hi 1 (freshInode 1 2) d d₁ ∧ DirStarted sb 1 1 p d₁ d' := by
  have ht := inodeTaken L B O hv (root_freshInode 1 2)
  have hd : d.setBit sb.inodeBitmapStart.toNat 0 true = d.setInodeUsed sb 1 true := rfl
  have hw : ∀ r e, writeInode (arrayDev u) sb 1 r e = (true, e.putInode sb 1 r) := fun r e => by
    rw [writeInode_array, if_pos hv]
  simp only [formatRoot, Prog.run_bind, bitmapSet_array, hd, hw] at h
  obtain ⟨ph, d₂, ha⟩ : ∃ ph d₂, allocateBlock (arrayDev u) sb
      ((d.setInodeUsed sb 1 true).putInode sb 1 (freshInode 1 2)) = (ph, d₂) := ⟨_, _, rfl⟩
  rw [ha] at h
  cases ph with
  | none => cases (Prod.mk.inj h).1
  | some p =>
      obtain ⟨h1, h2, h3, h4⟩ := allocateBlock_some L u ha
      simp only [Prog.run_bind, hw, Prog.run_pure, writeDirDots, arrayDev_write] at h
      refine ⟨_, p, ht, h1, h2, h3, ?_⟩
      rw [← (Prod.mk.inj h).2, h4, ht.inodeAt, if_pos rfl]
      rfl

theorem formatApp_cases (O : OwnedVol sb hi d) (hc : sb.inodeCount.toNat < 2147483648)
    (h : formatApp (arrayDev u) sb d = (true, d')) :
    ∃ app d₁ d₂ q, (sb.ValidIno app ∧ d.inodeUsed sb app = false)
      ∧ InodeTaken sb hi app (freshInode (1 ||| flagProtected) 2) d d₁
      ∧ DirStarted sb app 1 q d₁ d₂
      ∧ dirAddEntry (arrayDev u) sb 1 appName app typeDir d₂ = (true, d') := by
  rcases allocateInode_cases L B u O hc with ⟨app, d₀, hv, hfree, hrun, ht⟩ | ⟨-, hrun⟩
  · have ht' := ht.putInode L B hv (root_freshInode (1 ||| flagProtected) 2)
    have hw : ∀ r e, writeInode (arrayDev u) sb app r e = (true, e.putInode sb app r) :=
      fun r e => by rw [writeInode_array, if_pos hv]
    simp only [formatApp, Prog.run_bind, hrun, hw] at h
    obtain ⟨ph, d₂, ha⟩ : ∃ ph d₂, allocateBlock (arrayDev u) sb
        (d₀.putInode sb app (freshInode (1 ||| flagProtected) 2)) = (ph, d₂) := ⟨_, _, rfl⟩
    rw [ha] at h
    cases ph with
    | none => cases (Prod.mk.inj h).1
    | some q =>
        obtain ⟨h1, h2, h3, h4⟩ := allocateBlock_some L u ha
        simp only [Prog.run_bind, hw, writeDirDots, arrayDev_write] at h
        refine ⟨app, _, _, q, ⟨hv, hfree⟩, ht', ⟨h1, h2, h3, rfl⟩, ?_⟩
        rw [ht'.inodeAt, if_pos rfl, ← h4]
        exact h
  · simp only [formatApp, Prog.run_bind, hrun] at h
    cases (Prod.mk.inj h).1

theorem formatAutorun_cases (O : OwnedVol sb hi d) (hc : sb.inodeCount.toNat < 2147483648)
    (h : formatAutorun (arrayDev u) sb d = (true, d')) :
    ∃ autorun d₁, (sb.ValidIno autorun ∧ d.inodeUsed sb autorun = false)
      ∧ InodeTaken sb hi autorun (freshInode (2 ||| flagProtected) 1) d d₁
      ∧ dirAddEntry (arrayDev u) sb 1 autorunName autorun typeFile d₁ = (true, d') := by
  rcases allocateInode_cases L B u O hc with ⟨autorun, d₀, hv, hfree, hrun, ht⟩ | ⟨-, hrun⟩
  · have ht' := ht.putInode L B hv (root_freshInode (2 ||| flagProtected) 1)
    simp only [formatAutorun, Prog.run_bind, hrun, writeInode_array, hv, if_true] at h
    exact ⟨autorun, _, ⟨hv, hfree⟩, ht', h⟩
  · simp only [formatAutorun, Prog.run_bind, hrun] at h
    cases (Prod.mk.inj h).1

omit L B in
theorem formatTree_no_inodes (h : ¬ sb.ValidIno 1) : (formatTree (arrayDev u) sb d).1 = false := by
  have h0 : sb.inodeCount.toNat = 0 := by
    simp only [Superblock.ValidIno] at h
    omega
  have happ : ∀ e, formatApp (arrayDev u) sb e = (false, e) := fun e => by
    simp [formatApp, allocateInode, h0, allocateInodeFrom]
  simp only [formatTree, Prog.run_bind, Prog.run_ite, happ, Bool.false_eq_true, if_false,
    Prog.run_pure]
  split <;> rfl

theorem formatTree_cases (O : OwnedVol sb hi d) (hc : sb.inodeCount.toNat < 2147483648)
    (h : formatTree (arrayDev u) sb d = (true, d')) :
    ∃ d₁ d₂ d₃ d₄ d₅ d₆ d₇ app autorun p q, sb.ValidIno 1
      ∧ FormatSteps u sb hi d d₁ d₂ d₃ d₄ d₅ d₆ d₇ app autorun p q
      ∧ d' = d₇.set 0 (superBlock u sb) := by
  by_cases hv : sb.ValidIno 1
  · obtain ⟨ok₂, d₂, h₂⟩ : ∃ ok e, formatRoot (arrayDev u) sb d = (ok, e) := ⟨_, _, rfl⟩
    simp only [formatTree, Prog.run_bind, Prog.run_ite, h₂] at h
    cases ok₂ with
    | false => cases (Prod.mk.inj h).1
    | true =>
        obtain ⟨d₁, p, hroot, hdir⟩ := formatRoot_cases L B u O hv h₂
        have O₂ := (hdir.touched L B hroot.owned hv fun pos => by
          rw [hroot.inodeAt, if_pos rfl]
          exact root_freshInode 1 2 pos).owned
        obtain ⟨ok₅, d₅, h₅⟩ : ∃ ok e, formatApp (arrayDev u) sb d₂ = (ok, e) := ⟨_, _, rfl⟩
        simp only [if_true, h₅] at h
        cases ok₅ with
        | false => cases (Prod.mk.inj h).1
        | true =>
            obtain ⟨app, d₃, d₄, q, hfree, happ, hdir', hadd⟩ := formatApp_cases L B u O₂ hc h₅
            have O₄ := (hdir'.touched L B happ.owned hfree.1 fun pos => by
              rw [happ.inodeAt, if_pos rfl]
              exact root_freshInode _ 2 pos).owned
            have O₅ := (dirAddEntry_touched L B u O₄ 1 appName app typeDir).owned
            rw [hadd] at O₅
            obtain ⟨ok₇, d₇, h₇⟩ : ∃ ok e, formatAutorun (arrayDev u) sb d₅ = (ok, e) :=
              ⟨_, _, rfl⟩
            simp only [if_true, h₇] at h
            cases ok₇ with
            | false => cases (Prod.mk.inj h).1
            | true =>
                obtain ⟨autorun, d₆, hfree', hauto, hadd'⟩ := formatAutorun_cases L B u O₅ hc h₇
                exact ⟨d₁, d₂, d₃, d₄, d₅, d₆, d₇, app, autorun, p, q, hv,
                  ⟨hroot, hdir, hfree, happ, hdir', hadd, hfree', hauto, hadd'⟩,
                  (Prod.mk.inj h).2.symm⟩
  · have hfalse := formatTree_no_inodes (d := d) u hv
    rw [h] at hfalse
    cases hfalse

theorem FormatSteps.owned {d₀ d₁ d₂ d₃ d₄ d₅ d₆ d₇ : Disk} {app autorun p q : Nat}
    (h : FormatSteps u sb hi d₀ d₁ d₂ d₃ d₄ d₅ d₆ d₇ app autorun p q) (hv : sb.ValidIno 1) :
    Touched sb hi 1 d₁ d₂ ∧ Touched sb hi app d₃ d₄ ∧ Touched sb hi 1 d₄ d₅
      ∧ Touched sb hi 1 d₆ d₇ := by
  have h12 := h.rootDir.touched L B h.root.owned hv fun pos => by
    rw [h.root.inodeAt, if_pos rfl]
    exact root_freshInode 1 2 pos
  have h34 := h.appDir.touched L B h.appInode.owned h.appFree.1 fun pos => by
    rw [h.appInode.inodeAt, if_pos rfl]
    exact root_freshInode _ 2 pos
  have h45 := dirAddEntry_touched L B u h34.owned 1 appName app typeDir
  rw [h.appEntry] at h45
  have h67 := dirAddEntry_touched L B u h.autorunInode.owned 1 autorunName autorun typeFile
  rw [h.autorunEntry] at h67
  exact ⟨h12, h34, h45, h67⟩

end

/-! ## The formatted volume

What a format that returns true leaves is sound, and owned. -/

/-- A successful format on the array device: the superblock it leaves and the
volumes it went through. -/
theorem ipoFsFormat_cases {u : Block} {start totalBlocks totalInodes : UInt32}
    {k₀ k : Kernel Disk} (hf : ipoFsFormat (diskDev u) start totalBlocks totalInodes k₀ = (true, k))
    (htable : TableFits totalInodes) (hbitmap : BitmapFits totalBlocks totalInodes) :
    SoundLayout (formatSuperblock totalBlocks totalInodes)
    ∧ k.sb = formatSuperblock totalBlocks totalInodes ∧ k.fds = k₀.fds
    ∧ k.fsMounted = k₀.fsMounted ∧ k.fsStartLba = start
    ∧ ∃ d₀ d₁ d₂ d₃ d₄ d₅ d₆ d₇ app autorun p q,
      (∀ j, 1 ≤ j → j < k.sb.dataBlocksStart.toNat → d₀ j = Buf.zero)
      ∧ k.sb.ValidIno 1
      ∧ FormatSteps u k.sb (intBound k.sb) d₀ d₁ d₂ d₃ d₄ d₅ d₆ d₇ app autorun p q
      ∧ k.disk = d₇.set 0 (superBlock u k.sb) := by
  unfold ipoFsFormat at hf
  simp only [Prog.run_ite] at hf
  split at hf
  · cases (Prod.mk.inj hf).1
  · rename_i h10
    split at hf
    · cases (Prod.mk.inj hf).1
    · rename_i hdata
      have hlt : dataBlocks totalBlocks.toNat totalInodes.toNat < 2147483648 := by omega
      have h10' : 10 ≤ totalBlocks.toNat := by omega
      have L := formatSuperblock_sound h10' hlt htable hbitmap
      have B := blockBound_int (formatSuperblock totalBlocks totalInodes)
      obtain ⟨d₀, hregions, hsuper, hzero, -⟩ := formatRegions_array u k₀.disk h10' hlt
      have O := (ownedVol_zeroed (intBound (formatSuperblock totalBlocks totalInodes)) L hzero).1
      have hcount : (formatSuperblock totalBlocks totalInodes).inodeCount.toNat < 2147483648 := by
        have := htable.count_le
        show totalInodes.toNat < 2147483648
        omega
      simp only [Prog.run_bind, modifyKernel, withFs_run, hregions, if_true] at hf
      obtain ⟨hok, hk⟩ := Prod.mk.inj hf
      obtain ⟨d', hd'⟩ : ∃ d', formatTree (arrayDev u) (formatSuperblock totalBlocks totalInodes) d₀
          = (true, d') := ⟨_, Prod.ext hok rfl⟩
      obtain ⟨d₁, d₂, d₃, d₄, d₅, d₆, d₇, app, autorun, p, q, hv, hsteps, heq⟩ :=
        formatTree_cases L B u O hcount hd'
      rw [hd'] at hk
      subst hk
      exact ⟨L, rfl, rfl, rfl, rfl, d₀, d₁, d₂, d₃, d₄, d₅, d₆, d₇, app, autorun, p, q, hzero, hv,
        hsteps, heq⟩

theorem ownedVol_set_zero {sb : Superblock} {hi : Nat} {d : Disk} (L : SoundLayout sb)
    (B : BlockBound sb hi) (O : OwnedVol sb hi d) (b : Block) :
    OwnedVol sb hi (d.set 0 b) ∧ (d.set 0 b).inodeAt sb = d.inodeAt sb := by
  have h1 := L.first
  have h2 := L.inodeBitmap
  have h3 := L.blockBitmap
  have h4 := L.inodeTable
  have hat : (d.set 0 b).inodeAt sb = d.inodeAt sb := funext fun i => by
    by_cases hv : sb.ValidIno i
    · have := L.le_inodeBlock hv
      exact Disk.inodeAt_congr (Disk.set_of_ne (by omega))
    · rw [Disk.inodeAt_of_not_valid hv, Disk.inodeAt_of_not_valid hv]
  refine ⟨?_, hat⟩
  unfold OwnedVol
  rw [hat]
  refine O.of_data B (fun q hq => Disk.set_of_ne (by omega)) fun p hp => ?_
  obtain ⟨h5, h6⟩ := L.blockBit_block hp
  exact Disk.bit_congr (by rw [h5]; exact Disk.set_of_ne (by omega))

/-- A successful format of sound sizes leaves the volume in order. -/
theorem ipoFsFormat_ok {u : Block} {start totalBlocks totalInodes : UInt32}
    {k₀ k : Kernel Disk} (hf : ipoFsFormat (diskDev u) start totalBlocks totalInodes k₀ = (true, k))
    (htable : TableFits totalInodes) (hbitmap : BitmapFits totalBlocks totalInodes) : VolOk k := by
  obtain ⟨L, hsb, -, -, -, d₀, d₁, d₂, d₃, d₄, d₅, d₆, d₇, app, autorun, p, q, hzero, hv, hsteps,
    hdisk⟩ := ipoFsFormat_cases hf htable hbitmap
  rw [← hsb] at L
  have B := blockBound_int k.sb
  obtain ⟨-, -, -, h67⟩ := hsteps.owned L B u hv
  refine ⟨L, ?_, ?_, ?_⟩
  · have := htable.count_le
    rw [hsb]
    show totalInodes.toNat < 2147483648
    omega
  · rw [hdisk, Disk.set_self, superBlock, Superblock.decode_patch]
  · rw [hdisk]
    exact (ownedVol_set_zero L B h67.owned _).1

end IpoOs
