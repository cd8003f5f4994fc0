import IpoOs.FsFaults
import IpoOs.FsFormat

/-!
# Code whose transfers succeed

On a device any of whose transfers may fail, code behaves as on the array
of blocks for as long as none does. `Undisturbed` says this of one program
on one volume, with the number of transfers it makes: while that many
transfers succeed it returns this result and leaves that volume, and the
outcomes of the transfers after them are still to come. The numbers add up
along a program (`Undisturbed.bind`), so a bound on the failures that a
caller has to exclude is found together with the result.

The superblock that the code runs with may describe more inodes and blocks
than the code gets to. `Within` relates it to that of a smaller volume with
the same regions, for which the updates of the volume are stated; the large
one need not be of a sound layout then.
-/

namespace IpoOs

/-- While its first `n` transfers succeed, the code returns `a` on the volume `d` and leaves
`d'`. -/
def Undisturbed {α : Type} (start : UInt32) (x : Prog FaultyDisk α) (d : Disk) (n : Nat) (a : α)
    (d' : Disk) : Prop :=
  ∀ s : FaultyDisk, (∀ t, t < n → s.works t = true) →
    (∀ j, j < 4294967296 → s.volume start j = d j) →
    ∃ s', x s = (a, s') ∧ (∀ t, s'.works t = s.works (n + t))
      ∧ ∀ j, j < 4294967296 → s'.volume start j = d' j

namespace Undisturbed

variable {α β : Type} {u : Block} {start : UInt32} {x : Prog FaultyDisk α} {f : α →
    Prog FaultyDisk β}
  {d d' d'' : Disk} {n m : Nat} {a : α} {b : β}

theorem pure (a : α) (d : Disk) : Undisturbed start (pure a) d 0 a d := fun s _ hvol =>
  ⟨s, rfl, fun t => by rw [Nat.zero_add], hvol⟩

theorem bind (hx : Undisturbed start x d n a d') (hf : Undisturbed start (f a) d' m b d'') :
    Undisturbed start (x >>= f) d (n + m) b d'' := by
  intro s hworks hvol
  obtain ⟨s₁, hrun, hworks₁, hvol₁⟩ := hx s (fun t ht => hworks t (by omega)) hvol
  obtain ⟨s₂, hrun₂, hworks₂, hvol₂⟩ := hf s₁ (fun t ht => by
    rw [hworks₁]
    exact hworks _ (by omega)) hvol₁
  refine ⟨s₂, ?_, fun t => ?_, hvol₂⟩
  · rw [Prog.run_bind, hrun]
    exact hrun₂
  · rw [hworks₂, hworks₁, Nat.add_assoc]

theorem count (hx : Undisturbed start x d n a d') (h : n = m) : Undisturbed start x d m a d' :=
  h ▸ hx

theorem read {i : Nat} (hi : i < 4294967296) :
    Undisturbed start ((sectorDev u start).read i) d 1 (some (d i)) d := by
  intro s hworks hvol
  refine ⟨s.skip 1, ?_, fun _ => rfl, hvol⟩
  have h0 := hworks 0 Nat.one_pos
  show (if s.works 0 then some (s.volume start i) else none, s.skip 1) = _
  rw [h0, if_pos rfl, hvol i hi]

theorem write {i : Nat} (hi : i < 4294967296) (buf : Block) :
    Undisturbed start ((sectorDev u start).write i buf) d 1 true (d.set i buf) := by
  intro s hworks hvol
  refine ⟨(s.setBlock start i buf).skip 1, ?_, fun _ => rfl, fun j hj => ?_⟩
  · have h0 := hworks 0 Nat.one_pos
    show (s.works 0, if s.works 0 then (s.setBlock start i buf).skip 1 else s.skip 1) = _
    rw [h0, if_pos rfl]
  · rw [FaultyDisk.skip_volume, FaultyDisk.volume_setBlock s start buf hi hj, hvol j hj]
    rfl

/-! ## The bitmaps

A transfer that succeeds is done once; the retries of the driver are not
needed. -/

variable {bitmap i : Nat}

theorem readRetry {lba : Nat} (hlba : lba < 4294967296) (n : Nat) :
    Undisturbed start (readRetry (sectorDev u start) lba (n + 1)) d 1 (some (d lba)) d := by
  unfold IpoOs.readRetry
  refine (read hlba).bind (m := 0) ?_
  exact pure _ _

theorem writeRetry {lba : Nat} (hlba : lba < 4294967296) (buf : Block) (n : Nat) :
    Undisturbed start (writeRetry (sectorDev u start) lba buf (n + 1)) d 1 true
        (d.set lba buf) := by
  unfold IpoOs.writeRetry
  refine (write hlba buf).bind (m := 0) ?_
  exact pure true _

theorem bitmapGet :
    Undisturbed start (bitmapGet (sectorDev u start) bitmap i) d 1 (d.bit bitmap i) d := by
  unfold IpoOs.bitmapGet
  refine (readRetry (u32_lt _) 4).bind (m := 0) ?_
  exact pure _ _

theorem bitmapSet (value : Bool) :
    Undisturbed start (bitmapSet (sectorDev u start) bitmap i value) d 2 true
      (d.setBit bitmap i value) := by
  unfold IpoOs.bitmapSet
  refine (readRetry (u32_lt _) 4).bind (m := 1) ?_
  exact writeRetry (u32_lt _) _ 4

theorem zeroBlocks {region : Nat} (hend : region + i + n ≤ 4294967296) :
    Undisturbed start (zeroBlocks (sectorDev u start) region n i) d n true
      (fun q => if region + i ≤ q ∧ q < region + i + n then Buf.zero else d q) := by
  induction n generalizing i d with
  | zero =>
      have hd : (fun q => if region + i ≤ q ∧ q < region + i + 0 then Buf.zero else d q) = d :=
        funext fun q => if_neg (by omega)
      rw [hd]
      exact pure true d
  | succ n ih =>
      have hu : u32 (region + i) = region + i := u32_of_lt (by omega)
      have hrest := @ih (d.set (u32 (region + i)) Buf.zero) (i + 1) (by omega)
      have hd : (fun q => if region + (i + 1) ≤ q ∧ q < region + (i + 1) + n then Buf.zero
          else d.set (u32 (region + i)) Buf.zero q)
          = fun q => if region + i ≤ q ∧ q < region + i + (n + 1) then Buf.zero else d q := by
        funext q
        rw [hu]
        rcases em (q = region + i) with rfl | hne
        · rw [Disk.set_self, if_neg (by omega), if_pos (by omega)]
        · rw [Disk.set_of_ne hne]
          rcases em (region + (i + 1) ≤ q ∧ q < region + (i + 1) + n) with hq | hq
          · rw [if_pos hq, if_pos (by omega)]
          · rw [if_neg hq, if_neg (by omega)]
      rw [hd] at hrest
      exact ((write (u32_lt _) Buf.zero).bind hrest).count (Nat.add_comm 1 n)

end Undisturbed

/-- A volume whose regions start where those of another do, with no more inodes and blocks. -/
structure Within (sb full : Superblock) : Prop where
  inodeBitmap : full.inodeBitmapStart = sb.inodeBitmapStart
  blockBitmap : full.blockBitmapStart = sb.blockBitmapStart
  inodeTable : full.inodeTableStart = sb.inodeTableStart
  data : full.dataBlocksStart = sb.dataBlocksStart
  inodes : sb.inodeCount.toNat ≤ full.inodeCount.toNat
  blocks : dataBlocksTotal sb ≤ dataBlocksTotal full

namespace Undisturbed

section

variable {u : Block} {start : UInt32} {sb full : Superblock} {d : Disk} {i p : Nat}
    (W : Within sb full)

include W

/-! ## Inodes and blocks

The searches count a transfer for each bit they look at. -/

theorem readInode (hv : sb.ValidIno i) :
    Undisturbed start (readInode (sectorDev u start) full i) d 1 (some (d.inodeAt sb i)) d := by
  have hfull : ¬ (i = 0 ∨ i > full.inodeCount.toNat) := by
    have h1 := hv.1
    have h2 := hv.2
    have h3 := W.inodes
    omega
  have hblock : inodeBlock full i = inodeBlock sb i := by
    unfold inodeBlock
    rw [W.inodeTable]
  unfold IpoOs.readInode
  rw [if_neg hfull, hblock, Disk.inodeAt, if_pos hv]
  refine (read (u32_lt _)).bind (m := 0) ?_
  exact pure _ _

theorem writeInode (hv : sb.ValidIno i) (r : Inode) :
    Undisturbed start (writeInode (sectorDev u start) full i r) d 2 true (d.putInode sb i r) := by
  have hfull : ¬ (i = 0 ∨ i > full.inodeCount.toNat) := by
    have h1 := hv.1
    have h2 := hv.2
    have h3 := W.inodes
    omega
  have hblock : inodeBlock full i = inodeBlock sb i := by
    unfold inodeBlock
    rw [W.inodeTable]
  unfold IpoOs.writeInode
  rw [if_neg hfull, hblock]
  refine (read (u32_lt _)).bind (m := 1) ?_
  exact write (u32_lt _) _

theorem allocateInodeFrom {n j : Nat} (hj : j < n) (hv : sb.ValidIno (i + j + 1))
    (hlow : i + j + 1 < 2147483648)
    (hused : ∀ t, t < j → d.bit sb.inodeBitmapStart.toNat (i + t) = true)
    (hfree : d.bit sb.inodeBitmapStart.toNat (i + j) = false) :
    Undisturbed start (allocateInodeFrom (sectorDev u start) full n i) d (j + 5) (some (i + j + 1))
      ((d.setInodeUsed sb (i + j + 1) true).putInode sb (i + j + 1) Inode.zero) := by
  induction j generalizing n i with
  | zero =>
      obtain ⟨m, rfl⟩ := Nat.exists_eq_add_of_le' hj
      have hget :
        Undisturbed start (IpoOs.bitmapGet (sectorDev u start) sb.inodeBitmapStart.toNat i) d 1
          false d := hfree ▸ bitmapGet
      have hnum : asInt (u32 (i + 1)) = some (i + 1) := by
        rw [u32_of_lt (by omega)]
        exact asInt_eq_some.mpr ⟨rfl, hlow⟩
      unfold IpoOs.allocateInodeFrom
      rw [W.inodeBitmap]
      refine hget.bind (m := 4) ?_
      refine (bitmapSet true).bind (m := 2) ?_
      refine (writeInode W hv Inode.zero).bind (m := 0) ?_
      rw [hnum]
      exact pure _ _
  | succ j ih =>
      obtain ⟨m, rfl⟩ := Nat.exists_eq_add_of_le' (Nat.le_trans (Nat.le_add_left 1 (j + 1)) hj)
      have hbit := hused 0 (Nat.succ_pos j)
      rw [Nat.add_zero] at hbit
      have hget :
        Undisturbed start (IpoOs.bitmapGet (sectorDev u start) sb.inodeBitmapStart.toNat i) d 1
          true d := hbit ▸ bitmapGet
      have hshift : i + (j + 1) = i + 1 + j := by omega
      rw [hshift] at hv hlow hfree ⊢
      have hrest := @ih (i + 1) m (by omega) hv hlow (fun t ht => by
        rw [Nat.add_assoc, Nat.add_comm 1 t]
        exact hused (t + 1) (by omega)) hfree
      unfold IpoOs.allocateInodeFrom
      rw [W.inodeBitmap]
      refine (hget.bind (m := j + 5) ?_).count (by omega)
      exact hrest

theorem allocateInode (hv : sb.ValidIno i) (hlow : i < 2147483648)
    (hused : ∀ j, sb.ValidIno j → j < i → d.inodeUsed sb j = true)
    (hfree : d.inodeUsed sb i = false) :
    Undisturbed start (allocateInode (sectorDev u start) full) d (i + 4) (some i)
      ((d.setInodeUsed sb i true).putInode sb i Inode.zero) := by
  have h1 := hv.1
  have h2 := hv.2
  have hi : 0 + (i - 1) + 1 = i := by omega
  have hv' : sb.ValidIno (0 + (i - 1) + 1) := by rwa [hi]
  have hrun := @allocateInodeFrom u start sb full d 0 W full.inodeCount.toNat (i - 1)
    (by have h3 := W.inodes; omega) hv' (by omega) (fun t ht => ?_) ?_
  · rw [hi] at hrun
    exact hrun.count (by omega)
  · rw [Nat.zero_add]
    have hbit := hused (t + 1) ⟨by omega, by omega⟩ (by omega)
    exact hbit
  · rw [Nat.zero_add]
    exact hfree

theorem allocateBlockFrom {n j : Nat} (hj : j < n)
    (hlow : sb.dataBlocksStart.toNat + (i + j) < 2147483648)
    (hused : ∀ t, t < j → d.bit sb.blockBitmapStart.toNat (i + t) = true)
    (hfree : d.bit sb.blockBitmapStart.toNat (i + j) = false) :
    Undisturbed start (allocateBlockFrom (sectorDev u start) full n i) d (j + 4)
      (some (sb.dataBlocksStart.toNat + (i + j)))
      (d.takeBlock sb (sb.dataBlocksStart.toNat + (i + j))) := by
  induction j generalizing n i with
  | zero =>
      obtain ⟨m, rfl⟩ := Nat.exists_eq_add_of_le' hj
      have hget :
        Undisturbed start (IpoOs.bitmapGet (sectorDev u start) sb.blockBitmapStart.toNat i) d 1
          false d := hfree ▸ bitmapGet
      have hblock : u32 (sb.dataBlocksStart.toNat + i) = sb.dataBlocksStart.toNat + i :=
        u32_of_lt (by omega)
      have hnum : asInt (sb.dataBlocksStart.toNat + i) = some (sb.dataBlocksStart.toNat + i) :=
        asInt_eq_some.mpr ⟨rfl, hlow⟩
      have htake : d.takeBlock sb (sb.dataBlocksStart.toNat + i)
          = (d.setBit sb.blockBitmapStart.toNat i true).set (sb.dataBlocksStart.toNat + i)
              Buf.zero := by
        unfold Disk.takeBlock Disk.setBlockUsed
        rw [Nat.add_sub_cancel_left]
      show Undisturbed start _ d 4 (some (sb.dataBlocksStart.toNat + i))
        (d.takeBlock sb (sb.dataBlocksStart.toNat + i))
      unfold IpoOs.allocateBlockFrom
      rw [W.blockBitmap, W.data, htake]
      refine hget.bind (m := 3) ?_
      refine (bitmapSet true).bind (m := 1) ?_
      dsimp only
      rw [hblock, hnum]
      refine (write (by omega) Buf.zero).bind (m := 0) ?_
      exact pure _ _
  | succ j ih =>
      obtain ⟨m, rfl⟩ := Nat.exists_eq_add_of_le' (Nat.le_trans (Nat.le_add_left 1 (j + 1)) hj)
      have hbit := hused 0 (Nat.succ_pos j)
      rw [Nat.add_zero] at hbit
      have hget :
        Undisturbed start (IpoOs.bitmapGet (sectorDev u start) sb.blockBitmapStart.toNat i) d 1
          true d := hbit ▸ bitmapGet
      have hshift : i + (j + 1) = i + 1 + j := by omega
      rw [hshift] at hlow hfree ⊢
      have hrest := @ih (i + 1) m (by omega) hlow (fun t ht => by
        rw [Nat.add_assoc, Nat.add_comm 1 t]
        exact hused (t + 1) (by omega)) hfree
      unfold IpoOs.allocateBlockFrom
      rw [W.blockBitmap]
      refine (hget.bind (m := j + 4) ?_).count (by omega)
      exact hrest

end

/-! ## Directories

A directory whose entries are in its first block, under names that are not the one looked for. -/

section

variable {u : Block} {start : UInt32} {sb full : Superblock} {d : Disk} {din : Inode} {p n : Nat}
  {name : Str}

theorem dirFindFrom {e : Nat} (hp : (din.direct 0).toNat = p) (hne : p ≠ 0) (hend : e + n ≤ 7)
    (hmiss : ∀ t, t < n → entryMatches (d p) ((e + t) * 72) name = false) :
    Undisturbed start (dirFindFrom (sectorDev u start) full din name n e) d n none d := by
  have hlt : p < 4294967296 := hp ▸ (din.direct 0).toNat_lt
  induction n generalizing e with
  | zero => exact pure none d
  | succ n ih =>
      have hblock : e / 7 = 0 := by omega
      have hslot : e % 7 = e := by omega
      have hfind : Undisturbed start (findPhys (sectorDev u start) full din e) d 0 (some p) d := by
        have h6 : e / 7 < 6 := by omega
        have hfin : (⟨e / 7, h6⟩ : Fin 6) = 0 := Fin.ext hblock
        unfold findPhys
        rw [dif_pos h6, hfin, hp]
        exact pure _ _
      have hfirst := hmiss 0 (Nat.succ_pos n)
      rw [Nat.add_zero] at hfirst
      have hrest := @ih (e + 1) (by omega) fun t ht => by
        rw [Nat.add_assoc, Nat.add_comm 1 t]
        exact hmiss (t + 1) (by omega)
      unfold IpoOs.dirFindFrom
      refine (hfind.bind (m := 1 + n) ?_).count (by omega)
      show Undisturbed start (if p = 0 then _ else _) d (1 + n) none d
      rw [if_neg hne]
      refine (read hlt).bind ?_
      show Undisturbed start (if entryMatches (d p) (e % 7 * 72) name = true then _ else _) d n none
        d
      rw [hslot, hfirst, if_neg (by decide)]
      exact hrest

variable {dir : Nat} (W : Within sb full) (hv : sb.ValidIno dir) (hdin : d.inodeAt sb dir = din)
  (hdir : din.isDir = true) (hp : (din.direct 0).toNat = p) (hne : p ≠ 0)
  (hsize : din.size.toNat / 72 = n)
  (hmiss : ∀ e, e < n → entryMatches (d p) (e * 72) name = false)

include W hv hdin hdir hp hne hsize hmiss

theorem dirFindEntry (hn : n ≤ 7) :
    Undisturbed start (dirFindEntry (sectorDev u start) full dir name) d (1 + n) none d := by
  have hread := @readInode u start sb full d dir W hv
  rw [hdin] at hread
  unfold IpoOs.dirFindEntry
  refine hread.bind ?_
  show Undisturbed start (if din.isDir = true then _ else _) d n none d
  rw [if_pos hdir, hsize]
  refine dirFindFrom hp hne (by omega) fun t ht => ?_
  rw [Nat.zero_add]
  exact hmiss t ht

theorem dirAddEntry (hn : n < 7) (hlow : p < 2147483648) (hname : isValidFilename name = true)
    (ino : Nat) (type : UInt8) :
    Undisturbed start (dirAddEntry (sectorDev u start) full dir name ino type) d (n + 6) true
      ((d.set p ((d p).patch (n * 72) 72 (makeEntry ino type name).encode)).putInode sb dir
        { din with size := din.size + 72 }) := by
  have hread := @readInode u start sb full d dir W hv
  have hfind :=
    @dirFindEntry u start sb full d din p n name dir W hv hdin hdir hp hne hsize hmiss (by omega)
  have hget : Undisturbed start (getDataBlockForInode (sectorDev u start) full din (n / 7) true) d 0
      (some p, din) d := by
    have h6 : n / 7 < 6 := by omega
    have hfin : (⟨n / 7, h6⟩ : Fin 6) = 0 := Fin.ext (by show n / 7 = 0; omega)
    have hset : din.direct 0 ≠ 0 := fun hc => hne (by rw [← hp, hc]; rfl)
    have hnum : asInt (din.direct 0).toNat = some p := by
      rw [hp]
      exact asInt_eq_some.mpr ⟨rfl, hlow⟩
    unfold getDataBlockForInode getDirect
    rw [dif_pos h6, hfin, if_neg hset, hnum]
    exact pure _ _
  have hslot : n % 7 = n := by omega
  rw [hdin] at hread
  unfold IpoOs.dirAddEntry
  refine (hread.bind (m := n + 5) ?_).count (by omega)
  show Undisturbed start (if ¬ din.isDir = true then _ else _) d (n + 5) true _
  rw [if_neg (not_not.mpr hdir), if_neg (not_not.mpr hname)]
  refine (hfind.bind (m := 4) ?_).count (by omega)
  rw [hsize]
  refine hget.bind (m := 4) ((read (by omega)).bind (m := 3) ?_)
  rw [hslot]
  refine (write (by omega) _).bind (m := 2) ?_
  exact (writeInode W hv _).bind (m := 0) (pure true _)

end

end Undisturbed

/-! ## The tree of a new volume

Root, `/app` and `/autorun` in the order of `ipo_fs_format`, each with the
state of the volume before and after it. -/

/-- The tree while it is built: the first `m` inodes and `k` data blocks are taken, and the root has
`n` entries, all in the first data block. -/
structure TreeBegun (sb : Superblock) (d : Disk) (m k n : Nat) (b : Block) : Prop where
  inodes : ∀ i, sb.ValidIno i → d.inodeUsed sb i = decide (i ≤ m)
  blocks : ∀ p, sb.DataBlock p → d.blockUsed sb p = decide (p < sb.dataBlocksStart.toNat + k)
  root : d.inodeAt sb 1
    = { (freshInode 1 2).setDirect 0 sb.dataBlocksStart.toNat with size := UInt32.ofNat (72 * n) }
  block : d sb.dataBlocksStart.toNat = b

section

variable {sb : Superblock} {d : Disk} {m k n i : Nat} {b : Block} (L : SoundLayout sb)

include L

theorem TreeBegun.putInode (h : TreeBegun sb d m k n b) (hv : sb.ValidIno i) (hi : i ≠ 1)
    (r : Inode) :
    TreeBegun sb (d.putInode sb i r) m k n b where
  inodes j hj := by rw [L.inodeUsed_putInode hv hj, h.inodes j hj]
  blocks p hp := by rw [L.blockUsed_putInode hv hp, h.blocks p hp]
  root := by rw [L.inodeAt_putInode hv, if_neg hi.symm, h.root]
  block := by rw [L.putInode_of_ne hv r (Or.inr (Nat.le_refl _)), h.block]

theorem TreeBegun.takeInode (h : TreeBegun sb d m k n b) (hv : sb.ValidIno (m + 1)) (hm : 1 ≤ m)
    (r : Inode) :
    TreeBegun sb ((d.setInodeUsed sb (m + 1) true).putInode sb (m + 1) r) (m + 1) k n b := by
  refine TreeBegun.putInode L ⟨fun j hj => ?_, fun p hp => ?_, ?_, ?_⟩ hv (by omega) r
  · rw [L.inodeUsed_setInodeUsed hv hj, h.inodes j hj]
    split
    · rename_i hj'
      exact (decide_eq_true (by omega)).symm
    · rename_i hj'
      exact decide_eq_decide.mpr (by omega)
  · rw [L.blockUsed_setInodeUsed hv hp, h.blocks p hp]
  · rw [L.inodeAt_setInodeUsed hv, h.root]
  · have h1 := L.blockBitmap
    have h2 := L.inodeTable
    rw [L.setInodeUsed_of_le hv (Or.inr (by omega)), h.block]

theorem TreeBegun.takeBlock (h : TreeBegun sb d m k n b) (hk : 1 ≤ k)
    (hp : sb.DataBlock (sb.dataBlocksStart.toNat + k)) (c : Block) :
    TreeBegun sb
      ((d.takeBlock sb (sb.dataBlocksStart.toNat + k)).set (sb.dataBlocksStart.toNat + k) c)
      m (k + 1) n b := by
  have hsame : SameMeta sb d
      ((d.takeBlock sb (sb.dataBlocksStart.toNat + k)).set (sb.dataBlocksStart.toNat + k) c) :=
    (L.sameMeta_takeBlock hp).trans (sameMeta_set hp c)
  refine ⟨fun j hj => ?_, fun q hq => ?_, ?_, ?_⟩
  · rw [hsame.inodeUsed L hj, h.inodes j hj]
  · rw [L.blockUsed_set hp hq, L.blockUsed_takeBlock hp hq, h.blocks q hq]
    split
    · rename_i hq'
      exact (decide_eq_true (by omega)).symm
    · rename_i hq'
      exact decide_eq_decide.mpr (by omega)
  · rw [hsame.inodeAt L, h.root]
  · rw [Disk.set_of_ne (by omega), L.takeBlock_data hp (Nat.le_refl _), if_neg (by omega), h.block]

theorem TreeBegun.addEntry (h : TreeBegun sb d m k n b) (hv : sb.ValidIno 1)
    (hp : sb.DataBlock sb.dataBlocksStart.toNat) (c : Block) :
    TreeBegun sb ((d.set sb.dataBlocksStart.toNat c).putInode sb 1
      { d.inodeAt sb 1 with size := (d.inodeAt sb 1).size + 72 }) m k (n + 1) c := by
  have hsame : SameMeta sb d (d.set sb.dataBlocksStart.toNat c) := sameMeta_set hp c
  refine ⟨fun j hj => ?_, fun q hq => ?_, ?_, ?_⟩
  · rw [L.inodeUsed_putInode hv hj, hsame.inodeUsed L hj, h.inodes j hj]
  · rw [L.blockUsed_putInode hv hq, L.blockUsed_set hp hq, h.blocks q hq]
  · rw [L.inodeAt_putInode hv, if_pos rfl, h.root]
    have hsize : UInt32.ofNat (72 * n) + 72 = UInt32.ofNat (72 * (n + 1)) := by
      rw [Nat.mul_add, UInt32.ofNat_add]
      rfl
    show { (freshInode 1 2).setDirect 0 sb.dataBlocksStart.toNat with
      size := UInt32.ofNat (72 * n) + 72 } = _
    rw [hsize]
  · rw [L.putInode_of_ne hv _ (Or.inr (Nat.le_refl _)), Disk.set_self]

end

/-- A volume with room for the tree: three inodes and two data blocks below `2^31`. -/
structure TreeRoom (sb full : Superblock) : Prop where
  layout : SoundLayout sb
  within : Within sb full
  inodes : sb.ValidIno 3
  blocks : sb.DataBlock (sb.dataBlocksStart.toNat + 1)
  low : sb.dataBlocksStart.toNat + 1 < 2147483648

namespace TreeRoom

variable (u : Block) (start : UInt32) {sb full : Superblock} {d : Disk} (R : TreeRoom sb full)

include R

theorem first : sb.ValidIno 1 := ⟨Nat.le_refl 1, Nat.le_trans (by decide) R.inodes.2⟩

theorem second : sb.ValidIno 2 := ⟨by decide, Nat.le_trans (by decide) R.inodes.2⟩

theorem firstBlock : sb.DataBlock sb.dataBlocksStart.toNat :=
  ⟨Nat.le_refl _, Nat.lt_trans (Nat.lt_succ_self _) R.blocks.2⟩

theorem allocateBlock {k : Nat} (hk : k ≤ 1)
    (hused : ∀ p, sb.DataBlock p → d.blockUsed sb p = decide (p < sb.dataBlocksStart.toNat + k)) :
    Undisturbed start (allocateBlock (sectorDev u start) full) d (k + 4)
      (some (sb.dataBlocksStart.toNat + k)) (d.takeBlock sb (sb.dataBlocksStart.toNat + k)) := by
  have hlast := R.blocks.2
  have hlow := R.low
  have hbit : ∀ t, t ≤ 1 → d.bit sb.blockBitmapStart.toNat t = decide (t < k) := by
    intro t ht
    have h := hused (sb.dataBlocksStart.toNat + t) ⟨Nat.le_add_right _ _, by omega⟩
    unfold Disk.blockUsed at h
    rw [Nat.add_sub_cancel_left] at h
    rw [h]
    exact decide_eq_decide.mpr (by omega)
  have htotal : k < dataBlocksTotal full := by
    have hfits := sb.fsSizeBlocks.toNat_lt
    have h := R.within.blocks
    unfold dataBlocksTotal at h
    rw [sub32_of_le (by omega) hfits] at h
    unfold dataBlocksTotal
    omega
  have hrun :=
    @Undisturbed.allocateBlockFrom u start sb full d 0 R.within (dataBlocksTotal full) k htotal
    (by omega) (fun t ht => by
      rw [Nat.zero_add, hbit t (by omega)]
      exact decide_eq_true ht)
    (by
      rw [Nat.zero_add, hbit k hk]
      exact decide_eq_false (Nat.lt_irrefl k))
  rw [Nat.zero_add] at hrun
  exact hrun

theorem dirAddEntry {m k n : Nat} {b : Block} (h : TreeBegun sb d m k n b) (hn : n < 7) {name : Str}
    (hname : isValidFilename name = true)
    (hmiss : ∀ e, e < n → entryMatches b (e * 72) name = false) (ino : Nat) (type : UInt8) :
    ∃ d', Undisturbed start (dirAddEntry (sectorDev u start) full 1 name ino type) d (n + 6) true d'
      ∧ TreeBegun sb d' m k (n + 1) (b.patch (n * 72) 72 (makeEntry ino type name).encode) := by
  have hlow := R.low
  have hlay := R.layout.dataBlock_ne_zero R.firstBlock
  have hblock := h.block
  have hp : ((d.inodeAt sb 1).direct 0).toNat = sb.dataBlocksStart.toNat := by
    rw [h.root]
    show (UInt32.ofNat sb.dataBlocksStart.toNat).toNat = _
    rw [UInt32.ofNat_toNat]
  have hsize : (d.inodeAt sb 1).size.toNat / 72 = n := by
    rw [h.root]
    show (UInt32.ofNat (72 * n)).toNat / 72 = n
    rw [UInt32.toNat_ofNat', Nat.mod_eq_of_lt (by omega)]
    omega
  have hdir : (d.inodeAt sb 1).isDir = true := by
    rw [h.root]
    show (freshInode 1 2).isDir = true
    decide
  have hrun :=
    @Undisturbed.dirAddEntry u start sb full d _ _ n name 1 R.within R.first rfl hdir hp hlay
    hsize (by rw [hblock]; exact hmiss) hn (by omega) hname ino type
  rw [hblock] at hrun
  exact ⟨_, hrun, h.addEntry R.layout R.first R.firstBlock _⟩

/-- The root of a volume whose regions are zeroed, in 11 transfers. -/
theorem formatRoot (hz : ∀ q, 1 ≤ q → q < sb.dataBlocksStart.toNat → d q = Buf.zero) :
    ∃ d', Undisturbed start (formatRoot (sectorDev u start) full) d 11 true d'
      ∧ TreeBegun sb d' 1 1 2 (dotsBlock 1 1) := by
  have L := R.layout
  have hlow := R.low
  obtain ⟨-, -, hinodes⟩ := ownedVol_zeroed 0 L hz
  have hblocks : ∀ p, sb.DataBlock p → d.blockUsed sb p = false := by
    intro p hp
    obtain ⟨h1, h2⟩ := L.blockBit_block hp
    have h3 := L.first
    have h4 := L.inodeBitmap
    have h5 := L.inodeTable
    rw [Disk.blockUsed, Disk.bit, h1, hz _ (by omega) (by omega)]
    simp [bitOf, Buf.zero]
  obtain ⟨d₁, hd₁⟩ : ∃ e, e = (d.setInodeUsed sb 1 true).putInode sb 1 (freshInode 1 2) := ⟨_, rfl⟩
  have hused : ∀ p, sb.DataBlock p → d₁.blockUsed sb p
      = decide (p < sb.dataBlocksStart.toNat + 0) := by
    intro p hp
    rw [hd₁, L.blockUsed_putInode R.first hp, L.blockUsed_setInodeUsed R.first hp, hblocks p hp]
    exact (decide_eq_false (by have h1 := hp.1; omega)).symm
  have hset : Undisturbed start (bitmapSet (sectorDev u start) full.inodeBitmapStart.toNat 0 true) d
    2 true
      (d.setInodeUsed sb 1 true) := by
    rw [R.within.inodeBitmap]
    exact Undisturbed.bitmapSet true
  have hput := @Undisturbed.writeInode u start sb full (d.setInodeUsed sb 1 true) 1 R.within R.first
    (freshInode 1 2)
  rw [← hd₁] at hput
  have htake := R.allocateBlock u start (Nat.zero_le 1) hused
  simp only [Nat.add_zero] at htake
  obtain ⟨r, hr⟩ : ∃ r : Inode, r
      = { (freshInode 1 2).setDirect 0 sb.dataBlocksStart.toNat with size := 144 } := ⟨_, rfl⟩
  have hp := R.firstBlock
  have hsame : SameMeta sb d₁
      ((d₁.takeBlock sb sb.dataBlocksStart.toNat).set sb.dataBlocksStart.toNat (dotsBlock 1 1)) :=
    (L.sameMeta_takeBlock hp).trans (sameMeta_set hp _)
  refine ⟨((d₁.takeBlock sb sb.dataBlocksStart.toNat).set sb.dataBlocksStart.toNat
    (dotsBlock 1 1)).putInode sb 1 r, ?_, ⟨fun i hi => ?_, fun p hpb => ?_, ?_, ?_⟩⟩
  · unfold IpoOs.formatRoot
    refine hset.bind (m := 9) ?_
    refine hput.bind (m := 7) ?_
    refine htake.bind (m := 3) ?_
    refine (Undisturbed.write (by omega) _).bind (m := 2) ?_
    rw [← hr]
    refine (Undisturbed.writeInode R.within R.first r).bind (m := 0) ?_
    exact Undisturbed.pure true _
  · rw [L.inodeUsed_putInode R.first hi, hsame.inodeUsed L hi, hd₁, L.inodeUsed_putInode R.first hi,
      L.inodeUsed_setInodeUsed R.first hi, hinodes i hi]
    have h1 := hi.1
    split
    · exact (decide_eq_true (by omega)).symm
    · exact (decide_eq_false (by omega)).symm
  · rw [L.blockUsed_putInode R.first hpb, L.blockUsed_set hp hpb, L.blockUsed_takeBlock hp hpb,
      hused p hpb]
    have h1 := hpb.1
    split
    · exact (decide_eq_true (by omega)).symm
    · exact decide_eq_decide.mpr (by omega)
  · rw [L.inodeAt_putInode R.first, if_pos rfl, hr]
    rfl
  · rw [L.putInode_of_ne R.first _ (Or.inr (Nat.le_refl _)), Disk.set_self]

theorem formatApp (h : TreeBegun sb d 1 1 2 (dotsBlock 1 1)) :
    ∃ d', Undisturbed start (formatApp (sectorDev u start) full) d 24 true d'
      ∧ TreeBegun sb d' 2 2 3
        ((dotsBlock 1 1).patch (2 * 72) 72 (makeEntry 2 typeDir appName).encode) := by
  have L := R.layout
  have hlow := R.low
  have halloc := @Undisturbed.allocateInode u start sb full d 2 R.within R.second (by decide)
    (fun j hj hlt => by
      rw [h.inodes j hj]
      exact decide_eq_true (by omega))
    (by
      rw [h.inodes 2 R.second]
      rfl)
  obtain ⟨d₁, hd₁⟩ : ∃ e, e = ((d.setInodeUsed sb 2 true).putInode sb 2 Inode.zero).putInode sb 2
      (freshInode (1 ||| flagProtected) 2) := ⟨_, rfl⟩
  have h₁ : TreeBegun sb d₁ 2 1 2 (dotsBlock 1 1) := by
    rw [hd₁]
    exact (h.takeInode L R.second (Nat.le_refl 1) Inode.zero).putInode L R.second (by decide) _
  have hput := @Undisturbed.writeInode u start sb full
    ((d.setInodeUsed sb 2 true).putInode sb 2 Inode.zero) 2 R.within R.second
    (freshInode (1 ||| flagProtected) 2)
  rw [← hd₁] at hput
  have htake := R.allocateBlock u start (Nat.le_refl 1) h₁.blocks
  obtain ⟨r, hr⟩ : ∃ r : Inode, r = { (freshInode (1 ||| flagProtected) 2).setDirect 0
      (sb.dataBlocksStart.toNat + 1) with size := 144 } := ⟨_, rfl⟩
  have h₂ :=
    (h₁.takeBlock L (Nat.le_refl 1) R.blocks (dotsBlock 2 1)).putInode L R.second (by decide) r
  have hmiss : ∀ e, e < 2 →
    entryMatches (dotsBlock 1 1) (e * 72) appName = false := by decide +kernel
  obtain ⟨d', hadd, h'⟩ := R.dirAddEntry u start h₂ (by decide)
    (by decide : isValidFilename appName = true) hmiss 2 typeDir
  refine ⟨d', ?_, h'⟩
  unfold IpoOs.formatApp
  refine halloc.bind (m := 18) ?_
  refine hput.bind (m := 16) ?_
  refine htake.bind (m := 11) ?_
  refine (Undisturbed.write (by omega) _).bind (m := 10) ?_
  rw [← hr]
  refine (Undisturbed.writeInode R.within R.second r).bind (m := 8) ?_
  exact hadd

theorem formatAutorun (h : TreeBegun sb d 2 2 3
      ((dotsBlock 1 1).patch (2 * 72) 72 (makeEntry 2 typeDir appName).encode)) :
    ∃ d', Undisturbed start (formatAutorun (sectorDev u start) full) d 18 true d' := by
  have L := R.layout
  have halloc := @Undisturbed.allocateInode u start sb full d 3 R.within R.inodes (by decide)
    (fun j hj hlt => by
      rw [h.inodes j hj]
      exact decide_eq_true (by omega))
    (by
      rw [h.inodes 3 R.inodes]
      rfl)
  have h₁ := (h.takeInode L R.inodes (by decide) Inode.zero).putInode L R.inodes (by decide)
    (freshInode (2 ||| flagProtected) 1)
  have hmiss : ∀ e, e < 3 → entryMatches ((dotsBlock 1 1).patch (2 * 72) 72
      (makeEntry 2 typeDir appName).encode) (e * 72) autorunName = false := by decide +kernel
  obtain ⟨d', hadd, -⟩ := R.dirAddEntry u start h₁ (by decide)
    (by decide : isValidFilename autorunName = true) hmiss 3 typeFile
  refine ⟨d', ?_⟩
  unfold IpoOs.formatAutorun
  refine halloc.bind (m := 11) ?_
  refine (Undisturbed.writeInode R.within R.inodes _).bind (m := 9) ?_
  exact hadd

theorem formatTree (hz : ∀ q, 1 ≤ q → q < sb.dataBlocksStart.toNat → d q = Buf.zero) :
    ∃ d', Undisturbed start (formatTree (sectorDev u start) full) d 54 true d' := by
  obtain ⟨d₁, hroot, h₁⟩ := R.formatRoot u start hz
  obtain ⟨d₂, happ, h₂⟩ := R.formatApp u start h₁
  obtain ⟨d₃, hauto⟩ := R.formatAutorun u start h₂
  refine ⟨d₃.set 0 (superBlock u full), ?_⟩
  unfold IpoOs.formatTree
  refine hroot.bind (m := 43) ?_
  refine happ.bind (m := 19) ?_
  refine hauto.bind (m := 1) ?_
  exact Undisturbed.write (by decide) _

end TreeRoom

/-! ## A whole format

The sum of the transfers. -/

section

variable (u : Block) (start : UInt32) {totalBlocks totalInodes : UInt32} {d : Disk}

/-- The superblock and the zeroed regions of a format of accepted sizes. -/
theorem Undisturbed.formatRegions (h10 : 10 ≤ totalBlocks.toNat)
    (hlt : dataBlocks totalBlocks.toNat totalInodes.toNat < 2147483648) :
    ∃ d', Undisturbed start
      (formatRegions (sectorDev u start) (formatSuperblock totalBlocks totalInodes)
        (inodeBitmapBlocks totalInodes.toNat)
          (blockBitmapBlocks totalBlocks.toNat totalInodes.toNat)
        (inodeTableBlocks totalInodes.toNat)) d
        (1 + inodeBitmapBlocks totalInodes.toNat + blockBitmapBlocks totalBlocks.toNat
          totalInodes.toNat
          + inodeTableBlocks totalInodes.toNat) true d'
      ∧ ∀ q, 1 ≤ q → q < (formatSuperblock totalBlocks totalInodes).dataBlocksStart.toNat →
        d' q = Buf.zero := by
  have hl := formatLayout h10 hlt
  have htb := totalBlocks.toNat_lt
  obtain ⟨h1, h2, h3, h4⟩ := formatSuperblock_starts h10 hlt
  generalize formatSuperblock totalBlocks totalInodes = sb at h1 h2 h3 h4 ⊢
  generalize inodeBitmapBlocks totalInodes.toNat = ib at hl h2 h3 h4 ⊢
  generalize blockBitmapBlocks totalBlocks.toNat totalInodes.toNat = bb at hl h3 h4 ⊢
  generalize inodeTableBlocks totalInodes.toNat = it at hl h4 ⊢
  have hib :=
    @Undisturbed.zeroBlocks u start (d.set 0 (superBlock u sb)) ib 0 sb.inodeBitmapStart.toNat
    (by omega)
  generalize hd₁ : (fun q => if sb.inodeBitmapStart.toNat + 0 ≤ q
    ∧ q < sb.inodeBitmapStart.toNat + 0 + ib
    then Buf.zero else d.set 0 (superBlock u sb) q) = d₁ at hib
  have hbb := @Undisturbed.zeroBlocks u start d₁ bb 0 sb.blockBitmapStart.toNat (by omega)
  generalize hd₂ : (fun q => if sb.blockBitmapStart.toNat + 0 ≤ q
    ∧ q < sb.blockBitmapStart.toNat + 0 + bb
    then Buf.zero else d₁ q) = d₂ at hbb
  have hit := @Undisturbed.zeroBlocks u start d₂ it 0 sb.inodeTableStart.toNat (by omega)
  generalize hd₃ : (fun q => if sb.inodeTableStart.toNat + 0 ≤ q
    ∧ q < sb.inodeTableStart.toNat + 0 + it
    then Buf.zero else d₂ q) = d₃ at hit
  refine ⟨d₃, ?_, fun q hq hlast => ?_⟩
  · unfold IpoOs.formatRegions
    refine ((Undisturbed.write (by decide) (superBlock u sb)).bind (m := ib + (bb + it)) ?_).count
      (by omega)
    refine hib.bind (m := bb + it) ?_
    refine hbb.bind (m := it) ?_
    exact hit
  · -- the table, the block bitmap or the inode bitmap
    rw [← hd₃]
    dsimp only
    split
    · rfl
    · rename_i htable
      rw [← hd₂]
      dsimp only
      split
      · rfl
      · rename_i hblocks
        rw [← hd₁]
        exact if_pos (by omega)

/-- The sizes of a volume that has room for its tree. -/
def RoomForTree (totalBlocks totalInodes : UInt32) : Prop :=
  3 ≤ totalInodes.toNat ∧ 2 ≤ dataBlocks totalBlocks.toNat totalInodes.toNat
    ∧ 1 ≤ inodeBitmapBlocks totalInodes.toNat
    ∧ 1 ≤ blockBitmapBlocks totalBlocks.toNat totalInodes.toNat
    ∧ 1 ≤ inodeTableBlocks totalInodes.toNat

instance (totalBlocks totalInodes : UInt32) : Decidable (RoomForTree totalBlocks totalInodes) :=
  inferInstanceAs (Decidable (_ ∧ _))

/-- Of such a volume, the part that the tree is built in has a sound layout. -/
theorem RoomForTree.treeRoom (h : RoomForTree totalBlocks totalInodes)
    (h10 : 10 ≤ totalBlocks.toNat)
    (hlt : dataBlocks totalBlocks.toNat totalInodes.toNat < 2147483648) :
    ∃ sb, TreeRoom sb (formatSuperblock totalBlocks totalInodes)
      ∧ sb.dataBlocksStart = (formatSuperblock totalBlocks totalInodes).dataBlocksStart := by
  have hl := formatLayout h10 hlt
  have htb := totalBlocks.toNat_lt
  obtain ⟨h1, h2, h3, h4⟩ := @formatSuperblock_starts totalBlocks totalInodes h10 hlt
  obtain ⟨hib, hit, hbb⟩ := regionBlocks_le totalBlocks.toNat totalInodes.toNat
  obtain ⟨hinodes, hdata, hib1, hbb1, hit1⟩ := h
  have hcount : (formatSuperblock totalBlocks totalInodes).inodeCount = totalInodes := rfl
  have hsize : (formatSuperblock totalBlocks totalInodes).fsSizeBlocks = totalBlocks := rfl
  have htotal : dataBlocksTotal (formatSuperblock totalBlocks totalInodes)
      = dataBlocks totalBlocks.toNat totalInodes.toNat := by
    unfold dataBlocksTotal
    rw [h4, hsize, sub32_of_le (by omega) htb]
    omega
  generalize formatSuperblock totalBlocks totalInodes = full at h1 h2 h3 h4 hcount hsize htotal ⊢
  have hend : (UInt32.ofNat (full.dataBlocksStart.toNat + 2)).toNat
      = full.dataBlocksStart.toNat + 2 := by
    rw [UInt32.toNat_ofNat', Nat.mod_eq_of_lt (by omega)]
  obtain ⟨sb, hib', hbb', hit', hds', hcount', hsize'⟩ : ∃ sb : Superblock,
      full.inodeBitmapStart = sb.inodeBitmapStart ∧ full.blockBitmapStart = sb.blockBitmapStart
      ∧ full.inodeTableStart = sb.inodeTableStart ∧ full.dataBlocksStart = sb.dataBlocksStart
      ∧ sb.inodeCount.toNat = 3 ∧ sb.fsSizeBlocks.toNat = full.dataBlocksStart.toNat + 2 :=
    ⟨{ full with inodeCount := 3, fsSizeBlocks := UInt32.ofNat (full.dataBlocksStart.toNat + 2) },
      rfl, rfl, rfl, rfl, rfl, hend⟩
  rw [hib'] at h1
  rw [hbb'] at h2
  rw [hit'] at h3
  rw [hds'] at h4 hsize'
  have hblocks : dataBlocksTotal sb ≤ dataBlocksTotal full := by
    have hdata : dataBlocksTotal sb = 2 := by
      unfold dataBlocksTotal
      rw [hsize', sub32_of_le (by omega) (by omega)]
      omega
    omega
  refine ⟨sb,
    ⟨⟨?_, ?_, ?_, ?_, ?_⟩, ⟨hib', hbb', hit', hds', ?_, hblocks⟩, ⟨by decide, ?_⟩, ⟨?_, ?_⟩, ?_⟩,
    hds'.symm⟩
  · omega
  · omega
  · omega
  · omega
  · omega
  · rw [hcount]
    omega
  · omega
  · omega
  · omega
  · omega

end

end IpoOs
