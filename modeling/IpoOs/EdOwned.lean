import IpoOs.EdRelease

/-!
# Block ownership under the editor's helpers

What a helper of the editor does to a volume with owned pointers when it
returns: an allocation that failed shows up in the record, as the index
`-1`, and such a record is refused when it is written back. So the loop
that writes the blocks of a file has either changed that file and nothing
else, or the command that called it will raise.

The lemmas are stated for commands that return, since a command that raises
ends a run. Where a helper returns with an allocation that failed, its
record is `Broken`, and every later step of a command either hands the
broken record on or packs it.
-/

namespace IpoOs

/-- The superblock is sound, the file holds the volume, and the pointers of all inode slots are
owned. -/
structure DiskImage.Sound (img : DiskImage) : Prop where
  whole : img.Whole
  owned : OwnedVol img.sb img.sb.fsSizeBlocks.toNat img.disk

theorem DiskImage.Sound.becomes {img img' : DiskImage} {d : Disk} (S : img.Sound)
    (h : img.Becomes d img') (O : OwnedVol img.sb img.sb.fsSizeBlocks.toNat d) : img'.Sound where
  whole := h.whole S.whole
  owned := by
    rw [h.sb, h.disk]
    exact O

/-! ## The walk

The allocating walk that returns, for each region of indices. -/

section

variable {img img' : DiskImage}

theorem edGetBlock_sized (x : PyInode) (n l : Nat) (alloc : Bool) :
    edGetBlockForInode { x with size := n } l alloc
      = edGetBlockForInode x l alloc >>= fun r => pure (r.1, { r.2 with size := n }) := by
  funext img
  unfold edGetBlockForInode
  split
  · rename_i h6
    unfold edGetDirect
    by_cases h0 : x.direct ⟨l, h6⟩ = 0
    · cases alloc with
      | false => simp [h0]
      | true =>
          simp only [h0, if_true, Ed.run_bind]
          rcases edAllocateBlock img with ⟨e | ptr, img₁⟩ <;> rfl
    · simp [h0]
  · split
    · unfold edGetIndirect
      rw [Ed.run_bind, Ed.run_bind, Ed.run_bind]
      rcases edRootTable x.indirect alloc img with ⟨e | _ | block, img₁⟩
      · rfl
      · rfl
      · dsimp only
        rw [Ed.run_bind, Ed.run_bind]
        rcases edGetSingle block (l - 6) alloc img₁ with ⟨e | p, img₂⟩ <;> rfl
    · split
      · rfl
      · unfold edGetDouble
        rw [Ed.run_bind, Ed.run_bind, Ed.run_bind]
        rcases edRootTable x.doubleIndirect alloc img with ⟨e | _ | block, img₁⟩
        · rfl
        · rfl
        · dsimp only
          rw [Ed.run_bind, Ed.run_bind]
          rcases edGetLeaf block (l - 6 - 128) alloc img₁ with ⟨e | p, img₂⟩ <;> rfl

variable {T : Nat → Inode} {ino : Nat} {r : Inode} (W : img.Whole)
  (O : VolOwned img.sb img.sb.fsSizeBlocks.toNat img.disk (Function.update T ino r))

include W O

/-- A root of the record that an allocating walk filled, or an allocation that failed. -/
theorem edGetDirect_returns {i : Fin 6} {p : Int} {x : PyInode}
    (h : edGetDirect (PyInode.ofInode r) i true img = (.ok (p, x), img')) :
    x.Broken ∨ ∃ r', x = PyInode.ofInode r' ∧ p = (img'.disk.ptr r' (.direct i) : Nat)
      ∧ img'.disk.ptr r' (.direct i) ≠ 0 ∧ EdGrew img T ino (fun _ => True) r r' img' := by
  rcases Nat.eq_zero_or_pos (img.disk.freeBlocks img.sb).card with hfull | hfree
  · unfold edGetDirect at h
    split at h
    · rename_i h0
      rw [if_pos rfl] at h
      obtain ⟨ptr, img₁, halloc, h⟩ := Ed.bind_ok h
      obtain ⟨-, rfl⟩ := Prod.mk.inj (Except.ok.inj (Prod.mk.inj h).1)
      rcases edAllocateBlock_run W with ⟨q, hq, hf, -⟩ | ⟨-, hrun⟩
      · have hmem : q ∈ img.disk.freeBlocks img.sb := Disk.mem_freeBlocks.mpr ⟨hq, hf⟩
        rw [Finset.card_eq_zero.mp hfull] at hmem
        exact absurd hmem (Finset.notMem_empty q)
      · rw [halloc] at hrun
        obtain rfl := Except.ok.inj (Prod.mk.inj hrun).1
        refine Or.inl (Or.inl ⟨i, ?_⟩)
        show (if i.val = i.val then (-1 : Int) else _) < 0
        rw [if_pos rfl]
        decide
    · rename_i h0
      obtain ⟨hres, rfl⟩ := Prod.mk.inj h
      obtain ⟨rfl, rfl⟩ := Prod.mk.inj (Except.ok.inj hres)
      refine Or.inr ⟨r, rfl, rfl, fun hc => h0 ?_, .refl O⟩
      show ((r.direct i).toNat : Int) = 0
      exact congrArg Int.ofNat hc
  · have hnull : img.disk.nullAt r (.direct i) ≤ (img.disk.freeBlocks img.sb).card := by
      unfold Disk.nullAt
      split
      · exact hfree
      · exact Nat.zero_le _
    obtain ⟨r', img₁, hw⟩ := edGetDirect_walked W O hnull
    have hrun := hw.run
    rw [h] at hrun
    obtain ⟨hres, rfl⟩ := Prod.mk.inj hrun
    obtain ⟨rfl, rfl⟩ := Prod.mk.inj (Except.ok.inj hres)
    exact Or.inr ⟨r', rfl, rfl, hw.mapped, hw.grew.weaken fun _ _ => trivial⟩

theorem edGetIndirect_returns {j : Fin 128} {p : Int} {x : PyInode}
    (h : edGetIndirect (PyInode.ofInode r) j.val true img = (.ok (p, x), img')) :
    x.Broken ∨ ∃ r', x = PyInode.ofInode r' ∧ p = (img'.disk.ptr r' (.single j) : Nat)
      ∧ img'.disk.ptr r' (.single j) ≠ 0 ∧ EdGrew img T ino (fun _ => True) r r' img' := by
  obtain ⟨root, img₁, hroot, h⟩ := Ed.bind_ok h
  have htop : Pos.indirect.parent = none := rfl
  rcases edRootTable_grew (A := fun _ => True) W O trivial htop rfl
    (r.setPtr_indirect r.indirect) hroot with rfl | ⟨q, rfl, hq0, hg⟩
  · obtain ⟨ptr, img₂, -, h⟩ := Ed.bind_ok h
    obtain ⟨-, rfl⟩ := Prod.mk.inj (Except.ok.inj (Prod.mk.inj h).1)
    exact Or.inl (Or.inr (Or.inl (by decide : (-1 : Int) < 0)))
  · obtain ⟨ptr, img₂, hsingle, h⟩ := Ed.bind_ok h
    obtain ⟨hres, rfl⟩ := Prod.mk.inj h
    obtain ⟨rfl, rfl⟩ := Prod.mk.inj (Except.ok.inj hres)
    rw [r.setPtr_indirect q] at hg
    have hparent : (Pos.single j).parent = some .indirect := rfl
    obtain ⟨rfl, hp0, hg'⟩ := edGetSingle_grew (A := fun _ => True) (hg.whole W) hg.owned
      trivial hparent hq0 hsingle
    exact Or.inr ⟨_, rfl, rfl, hp0, hg.trans hg'⟩

theorem edGetDouble_returns {idx : Nat} {j k : Fin 128} (hj : j.val = idx / 128)
    (hk : k.val = idx % 128) {p : Int} {x : PyInode}
    (h : edGetDouble (PyInode.ofInode r) idx true img = (.ok (p, x), img')) :
    x.Broken ∨ ∃ r', x = PyInode.ofInode r' ∧ p = (img'.disk.ptr r' (.leaf j k) : Nat)
      ∧ img'.disk.ptr r' (.leaf j k) ≠ 0 ∧ EdGrew img T ino (fun _ => True) r r' img' := by
  obtain ⟨root, img₁, hroot, h⟩ := Ed.bind_ok h
  have htop : Pos.double.parent = none := rfl
  rcases edRootTable_grew (A := fun _ => True) W O trivial htop rfl
    (r.setPtr_double r.doubleIndirect) hroot with rfl | ⟨q, rfl, hq0, hg⟩
  · obtain ⟨ptr, img₂, -, h⟩ := Ed.bind_ok h
    obtain ⟨-, rfl⟩ := Prod.mk.inj (Except.ok.inj (Prod.mk.inj h).1)
    exact Or.inl (Or.inr (Or.inr (by decide : (-1 : Int) < 0)))
  · obtain ⟨ptr, img₂, hleaf, h⟩ := Ed.bind_ok h
    obtain ⟨hres, rfl⟩ := Prod.mk.inj h
    obtain ⟨rfl, rfl⟩ := Prod.mk.inj (Except.ok.inj hres)
    rw [r.setPtr_double q] at hg
    obtain ⟨rfl, hp0, hg'⟩ := edGetLeaf_grew (A := fun _ => True) (hg.whole W) hg.owned hj hk
      trivial trivial hq0 hleaf
    exact Or.inr ⟨_, rfl, rfl, hp0, hg.trans hg'⟩

/-- An allocating walk that returns: an index past the last one has no block, a failed allocation
is in the record, and otherwise the block is mapped. -/
theorem edGetBlock_returns {l : Nat} {p : Int} {x : PyInode}
    (h : edGetBlockForInode (PyInode.ofInode r) l true img = (.ok (p, x), img')) :
    x.Broken ∨ (posOf l = none ∧ p = -1 ∧ x = PyInode.ofInode r ∧ img' = img)
    ∨ ∃ pos r', posOf l = some pos ∧ x = PyInode.ofInode r' ∧ p = (img'.disk.ptr r' pos : Nat)
      ∧ img'.disk.ptr r' pos ≠ 0 ∧ EdGrew img T ino (fun _ => True) r r' img' := by
  unfold edGetBlockForInode at h
  unfold posOf
  split at h
  · rename_i h6
    rw [dif_pos h6]
    rcases edGetDirect_returns W O h with hbroken | ⟨r', hx⟩
    · exact Or.inl hbroken
    · exact Or.inr (Or.inr ⟨_, r', rfl, hx⟩)
  · rename_i h6
    rw [dif_neg h6]
    split at h
    · rename_i h128
      rw [dif_pos h128]
      rcases edGetIndirect_returns (j := ⟨l - 6, h128⟩) W O h with hbroken | ⟨r', hx⟩
      · exact Or.inl hbroken
      · exact Or.inr (Or.inr ⟨_, r', rfl, hx⟩)
    · rename_i h128
      rw [dif_neg h128]
      split at h
      · rename_i hbig
        obtain ⟨hres, rfl⟩ := Prod.mk.inj h
        obtain ⟨rfl, rfl⟩ := Prod.mk.inj (Except.ok.inj hres)
        rw [dif_neg (by omega)]
        exact Or.inr (Or.inl ⟨rfl, rfl, rfl, rfl⟩)
      · rename_i hbig
        have hsub : l - 6 - 128 = l - 134 := by omega
        rw [hsub] at h
        rw [dif_pos (by omega)]
        rcases edGetDouble_returns (j := ⟨(l - 134) / 128, by omega⟩)
          (k := ⟨(l - 134) % 128, by omega⟩) W O rfl rfl h with hbroken | ⟨r', hx⟩
        · exact Or.inl hbroken
        · exact Or.inr (Or.inr ⟨_, r', rfl, hx⟩)

end

/-! ## The loop that writes blocks

Blocks of the file are written one after the other, each after its walk. -/

/-- A dictionary of the size `n` that holds the pointers of `r`. -/
def PyInode.sized (r : Inode) (n : Nat) : PyInode := { PyInode.ofInode r with size := n }

/-- What a part of a command that returns does to the file it works on: the record is broken, or
that file and nothing else has changed. -/
def EdWrote (img : DiskImage) (T : Nat → Inode) (ino : Nat) (r : Inode) (n : Nat) (x : PyInode)
    (img' : DiskImage) : Prop :=
  x.Broken ∨ ∃ r' d', x = PyInode.sized r' n ∧ img.Becomes d' img'
    ∧ Changed img.sb img.sb.fsSizeBlocks.toNat T ino r img.disk r' d'

theorem PyInode.Broken.sized {x : PyInode} (h : x.Broken) (n : Nat) :
    ({ x with size := n } : PyInode).Broken := h

theorem edWriteBlocks_broken {content : Nat → Block} {n b : Nat} {x y : PyInode}
    {img img' : DiskImage} (hb : x.Broken)
    (h : edWriteBlocks content n b x img = (.ok y, img')) : y.Broken := by
  induction n generalizing b x img with
  | zero =>
      obtain rfl := Except.ok.inj (Prod.mk.inj h).1
      exact hb
  | succ n ih =>
      obtain ⟨res, img₁, hget, h⟩ := Ed.bind_ok h
      obtain ⟨_, img₂, -, h⟩ := Ed.bind_ok h
      exact ih (edGetBlock_broken hget hb) h

theorem edBlock_wrote {l n : Nat} {T : Nat → Inode} {ino : Nat} {r : Inode} {res : Int × PyInode}
    {b : Block} {img img₁ img' : DiskImage} (W : img.Whole)
    (O : VolOwned img.sb img.sb.fsSizeBlocks.toNat img.disk (Function.update T ino r))
    (hget : edGetBlockForInode (PyInode.sized r n) l true img = (.ok res, img₁))
    (hwrite : writeBlock res.1 b img₁ = (.ok (), img')) : EdWrote img T ino r n res.2 img' := by
  have hsized := edGetBlock_sized (PyInode.ofInode r) n l true
  rw [show ({ PyInode.ofInode r with size := n } : PyInode) = PyInode.sized r n from rfl] at hsized
  rw [hsized] at hget
  obtain ⟨⟨p, x⟩, img₀, hwalk, hpair⟩ := Ed.bind_ok hget
  obtain ⟨hres, rfl⟩ := Prod.mk.inj hpair
  obtain rfl := Except.ok.inj hres
  rcases edGetBlock_returns W O hwalk with hbroken | ⟨-, rfl, rfl, rfl⟩ |
      ⟨pos, r', hpos, rfl, rfl, hp0, hg⟩
  · exact Or.inl (hbroken.sized n)
  · -- an index past the last one: the block goes to the sector before the volume
    have hbefore := writeBlock_before (by decide : (-1 : Int) < 0) hwrite
    exact Or.inr ⟨r, _, rfl, hbefore, Changed.refl O⟩
  · have hwritten := writeBlock_run (hg.whole W) (hg.owned.ptr_lt hp0) b
    rw [hwrite] at hwritten
    obtain ⟨-, rfl⟩ := Prod.mk.inj hwritten
    have hset := Changed.set (hg.whole W).sound (blockBound_size _) hg.owned hp0
      (isTable_posOf hpos) b
    rw [hg.sb] at hset
    rw [hg.withDisk]
    exact Or.inr ⟨r', _, rfl, DiskImage.Becomes.withDisk img _, hg.grew.changed.trans hset⟩

/-- The loop goes through with a record that packs or leaves a broken one. -/
theorem edWriteBlocks_wrote {content : Nat → Block} {n b size : Nat} {T : Nat → Inode} {ino : Nat}
    {r : Inode} {img img' : DiskImage} {y : PyInode} (W : img.Whole)
    (O : VolOwned img.sb img.sb.fsSizeBlocks.toNat img.disk (Function.update T ino r))
    (h : edWriteBlocks content n b (PyInode.sized r size) img = (.ok y, img')) :
    EdWrote img T ino r size y img' := by
  induction n generalizing b r img with
  | zero =>
      obtain ⟨hres, rfl⟩ := Prod.mk.inj h
      obtain rfl := Except.ok.inj hres
      exact Or.inr ⟨r, img.disk, rfl, .refl img, Changed.refl O⟩
  | succ n ih =>
      obtain ⟨⟨p, x⟩, img₁, hget, hloop⟩ := Ed.bind_ok h
      obtain ⟨_, img₂, hwrite, hrest⟩ := Ed.bind_ok hloop
      rcases edBlock_wrote W O hget hwrite with hbroken | ⟨r', d', hx, hd, hch⟩
      · exact Or.inl (edWriteBlocks_broken hbroken hrest)
      · have hO : VolOwned img₂.sb img₂.sb.fsSizeBlocks.toNat img₂.disk
            (Function.update T ino r') := by
          rw [hd.sb, hd.disk]
          exact hch.owned
        dsimp only at hx hrest
        rw [hx] at hrest
        rcases ih (hd.whole W) hO hrest with hbroken | ⟨r'', d'', hy, hd', hch'⟩
        · exact Or.inl hbroken
        · rw [hd.sb, hd.disk] at hch'
          exact Or.inr ⟨r'', d'', hy, hd.trans hd', hch.trans hch'⟩

/-- A record whose pointers fit goes into its slot, if its size fits too. -/
theorem edWriteInode_returns {img img' : DiskImage} (W : img.Whole) {ino : Nat}
    (hv : img.sb.ValidIno ino) {r : Inode} {n : Nat}
    (h : edWriteInode ino { PyInode.ofInode r with size := n } img = (.ok (), img')) :
    img' = img.withDisk (img.disk.putInode img.sb ino (r.packed (UInt32.ofNat n))) := by
  have hpack := packInode_ofInode r n img
  rcases em (n < 4294967296) with hn | hn
  · rw [if_pos hn] at hpack
    rw [edWriteInode_run W hv hpack] at h
    exact (Prod.mk.inj h).2.symm
  · obtain ⟨sb, img₁, -, hread⟩ := Ed.bind_ok h
    obtain ⟨buf, img₂, -, hpacked⟩ := Ed.bind_ok hread
    obtain ⟨packed, img₃, hp, -⟩ := Ed.bind_ok hpacked
    have hfail := packInode_ofInode r n img₂
    rw [if_neg hn, hp] at hfail
    cases (Prod.mk.inj hfail).1

theorem EdWrote.writeInode {img img₁ img' : DiskImage} (S : img.Sound) {ino : Nat}
    (hv : img.sb.ValidIno ino) {n size : Nat} {x : PyInode}
    (h : EdWrote img (img.disk.inodeAt img.sb) ino (img.disk.inodeAt img.sb ino) n x img₁)
    (hwrite : edWriteInode ino { x with size := size } img₁ = (.ok (), img')) :
    ∃ d', img.Becomes d' img' ∧ Touched img.sb img.sb.fsSizeBlocks.toNat ino img.disk d' := by
  rcases h with hbroken | ⟨r', d₁, rfl, hd, hch⟩
  · exact absurd hwrite (edWriteInode_broken (hbroken.sized size))
  · have hv' : img₁.sb.ValidIno ino := by
      rw [hd.sb]
      exact hv
    obtain rfl := edWriteInode_returns (hd.whole S.whole) hv' hwrite
    have ht := hch.touched S.whole.sound (blockBound_size img.sb) S.owned hv
      (r'.root_packed (UInt32.ofNat size)) rfl
    rw [hd.sb, hd.disk]
    exact ⟨_, hd.trans (DiskImage.Becomes.withDisk _ _), ht⟩

/-! ## Inodes

Reads and allocations of inodes that return. -/

theorem edReadInode_returns {img img' : DiskImage} (W : img.Whole) {i : Int} {x : PyInode}
    (h : edReadInode i img = (.ok x, img')) :
    ∃ n : Nat, i = n ∧ img.sb.ValidIno n ∧ x = PyInode.ofInode (img.disk.inodeAt img.sb n)
      ∧ img' = img := by
  obtain ⟨sb, img₁, hsb, hread⟩ := Ed.bind_ok h
  obtain ⟨hres, rfl⟩ := Prod.mk.inj hsb
  obtain rfl := Except.ok.inj hres
  rcases em (i ≤ 0 ∨ i > img.sb.inodeCount.toNat) with hbad | hgood
  · rw [if_pos hbad] at hread
    cases (Prod.mk.inj hread).1
  · obtain ⟨n, rfl⟩ := Int.eq_ofNat_of_zero_le (show 0 ≤ i by omega)
    have hv : img.sb.ValidIno n := ⟨by omega, by omega⟩
    rw [edReadInode_whole W hv] at h
    obtain ⟨hres, rfl⟩ := Prod.mk.inj h
    exact ⟨n, rfl, hv, (Except.ok.inj hres).symm, rfl⟩

section

variable {img : DiskImage} (W : img.Whole)

include W

theorem edAllocateInodeFrom_run (n i : Nat) (hn : i + n ≤ img.sb.inodeCount.toNat) :
    (∃ k, i < k ∧ k ≤ i + n ∧ img.disk.inodeUsed img.sb k = false
      ∧ edAllocateInodeFrom img.sb n i img = (.ok (k : Int), img.withDisk
          ((img.disk.setInodeUsed img.sb k true).putInode img.sb k Inode.zero)))
    ∨ ((∀ k, i < k → k ≤ i + n → img.disk.inodeUsed img.sb k = true)
      ∧ edAllocateInodeFrom img.sb n i img = (.ok (-1), img)) := by
  have h1 := W.sound.inodeBitmap
  have h2 := W.sound.blockBitmap
  have h3 := W.sound.inodeTable
  have h4 := W.sound.data
  induction n generalizing i with
  | zero => exact Or.inr ⟨fun k h5 h6 => by omega, rfl⟩
  | succ n ih =>
      have hin : img.sb.inodeBitmapStart.toNat + i / 8 / 512 < img.sb.fsSizeBlocks.toNat := by omega
      have hget := edBitmapGet_run W hin
      have hbit : img.disk.inodeUsed img.sb (i + 1)
          = img.disk.bit img.sb.inodeBitmapStart.toNat i := by
        rfl
      cases hb : img.disk.bit img.sb.inodeBitmapStart.toNat i with
      | false =>
          rw [hb] at hget hbit
          have hset := edBitmapSet_run W hin true
          have hv :
            (img.withDisk (img.disk.setBit img.sb.inodeBitmapStart.toNat i true)).sb.ValidIno
              (i + 1) := ⟨by omega, by rw [DiskImage.withDisk_sb]; omega⟩
          have hwrite := edWriteInode_run (W.withDisk _) hv (packInode_empty _)
          rw [DiskImage.withDisk_withDisk, DiskImage.disk_withDisk, DiskImage.withDisk_sb] at hwrite
          refine Or.inl ⟨i + 1, by omega, by omega, hbit, ?_⟩
          unfold edAllocateInodeFrom
          refine (Ed.run_bind_ok hget).trans ((Ed.run_bind_ok hset).trans ?_)
          exact Ed.run_bind_ok hwrite
      | true =>
          rw [hb] at hget hbit
          have hstep : edAllocateInodeFrom img.sb (n + 1) i img
              = edAllocateInodeFrom img.sb n (i + 1) img := by
            unfold edAllocateInodeFrom
            exact (Ed.run_bind_ok hget).trans (by cases n <;> rfl)
          rw [hstep]
          rcases ih (i + 1) (by omega) with ⟨k, h5, h6, h7, h8⟩ | ⟨h5, h6⟩
          · exact Or.inl ⟨k, by omega, by omega, h7, h8⟩
          · refine Or.inr ⟨fun k h7 h8 => ?_, h6⟩
            rcases Nat.eq_or_lt_of_le h7 with rfl | hlt
            · exact hbit
            · exact h5 k hlt (by omega)

/-- `allocate_inode` takes a free inode, or finds none and returns the number `-1`. -/
theorem edAllocateInode_run :
    (∃ k, img.sb.ValidIno k ∧ img.disk.inodeUsed img.sb k = false
      ∧ edAllocateInode img = (.ok (k : Int), img.withDisk
          ((img.disk.setInodeUsed img.sb k true).putInode img.sb k Inode.zero)))
    ∨ ((∀ k, img.sb.ValidIno k → img.disk.inodeUsed img.sb k = true)
      ∧ edAllocateInode img = (.ok (-1), img)) := by
  have hrun : edAllocateInode img = edAllocateInodeFrom img.sb img.sb.inodeCount.toNat 0 img := rfl
  rw [hrun]
  rcases edAllocateInodeFrom_run W img.sb.inodeCount.toNat 0 (by omega) with
    ⟨k, h1, h2, hfree, hres⟩ | ⟨hall, hres⟩
  · exact Or.inl ⟨k, ⟨h1, by omega⟩, hfree, hres⟩
  · exact Or.inr ⟨fun k hv => hall k hv.1 (by have := hv.2; omega), hres⟩

end

/-! ## Directory entries

An addition is a write to the directory. A removal rewrites its blocks and
clears the bits of those at the end that are no longer needed. -/

section

variable {img img' : DiskImage} (S : img.Sound)

include S

theorem edDirAddEntry_touched {dirino ino typ : Int} {name : PyStr} {b : Bool}
    (h : edDirAddEntry dirino name ino typ img = (.ok b, img')) :
    ∃ dir : Nat, dirino = dir ∧ img.sb.ValidIno dir
      ∧ (b = false ∧ img' = img ∨ b = true ∧ fitsWord ino ∧ ∃ d', img.Becomes d' img'
        ∧ Touched img.sb img.sb.fsSizeBlocks.toNat dir img.disk d') := by
  obtain ⟨din, img₁, hread, hfound⟩ := Ed.bind_ok h
  obtain ⟨dir, rfl, hv, rfl, rfl⟩ := edReadInode_returns S.whole hread
  refine ⟨dir, rfl, hv, ?_⟩
  obtain ⟨ent, img₂, hfind, hadd⟩ := Ed.bind_ok hfound
  obtain rfl := Ed.Keeps.same (keeps_edFindEntry _ _) hfind
  cases ent with
  | some e =>
      obtain ⟨hres, rfl⟩ := Prod.mk.inj hadd
      exact Or.inl ⟨(Except.ok.inj hres).symm, rfl⟩
  | none =>
      obtain ⟨entry, img₃, hpack, hwalk⟩ := Ed.bind_ok hadd
      obtain ⟨res, img₄, hget, hblock⟩ := Ed.bind_ok hwalk
      obtain ⟨blk, img₅, hblk, hput⟩ := Ed.bind_ok hblock
      obtain ⟨_, img₆, hwrite, hinode⟩ := Ed.bind_ok hput
      obtain ⟨_, img₇, hrecord, hdone⟩ := Ed.bind_ok hinode
      obtain ⟨hres, rfl⟩ := Prod.mk.inj hdone
      refine Or.inr ⟨(Except.ok.inj hres).symm, ?_⟩
      have hfits : fitsWord ino ∧ img₃ = img₂ := by
        unfold packEntry at hpack
        rw [Ed.run_ite] at hpack
        split at hpack
        · rename_i hc
          exact ⟨hc.1, (Prod.mk.inj hpack).2.symm⟩
        · cases (Prod.mk.inj hpack).1
      obtain ⟨hfits, rfl⟩ := hfits
      refine ⟨hfits, ?_⟩
      obtain rfl := Ed.Keeps.same (keeps_readBlock _) hblk
      have hO : VolOwned img₃.sb img₃.sb.fsSizeBlocks.toNat img₃.disk
          (Function.update (img₃.disk.inodeAt img₃.sb) dir (img₃.disk.inodeAt img₃.sb dir)) := by
        rw [Function.update_eq_self]
        exact S.owned
      have hblockWrite : writeBlock res.1 (blk.patch ((PyInode.ofInode
          (img₃.disk.inodeAt img₃.sb dir)).size % 512) 72 entry.encode) img₅ = (.ok (), img₆) := by
        unfold writeBytes at hwrite
        split at hwrite
        · cases (Prod.mk.inj hwrite).1
        · exact hwrite
      have hwrote : EdWrote img₃ (img₃.disk.inodeAt img₃.sb) dir (img₃.disk.inodeAt img₃.sb dir)
          (img₃.disk.inodeAt img₃.sb dir).size.toNat res.2 img₆ :=
        edBlock_wrote S.whole hO hget hblockWrite
      exact hwrote.writeInode S hv hrecord

end

section

variable {img : DiskImage} (W : img.Whole) {r : Inode}
  (hbelow : ∀ pos, img.disk.ptr r pos < img.sb.fsSizeBlocks.toNat)

include W hbelow

theorem edReadAll_mapped {n b : Nat} {blocks : List Block}
    (h : (edReadAll (PyInode.ofInode r) n b img).1 = .ok (some blocks)) :
    ∀ c, b ≤ c → c < b + n → img.disk.Mapped r c := by
  induction n generalizing b blocks with
  | zero => exact fun c h1 h2 => absurd h2 (by omega)
  | succ n ih =>
      by_cases hm : img.disk.Mapped r b
      · obtain ⟨p, hget, hread⟩ := edGetBlock_at W hbelow hm
        unfold edReadAll at h
        rw [Ed.run_bind_ok hget, if_neg (Int.not_lt.mpr (Int.natCast_nonneg p)),
          Ed.run_bind_ok hread, Ed.run_bind] at h
        rcases hrest : edReadAll (PyInode.ofInode r) n (b + 1) img with ⟨e | rest, img'⟩
        · rw [hrest] at h
          cases h
        · rw [hrest] at h
          cases rest with
          | none => cases Except.ok.inj h
          | some rest =>
              have hlater := @ih (b + 1) rest (by rw [hrest])
              intro c h1 h2
              rcases Nat.eq_or_lt_of_le h1 with rfl | hlt
              · exact hm
              · exact hlater c hlt (by omega)
      · have hget := edGetBlock_hole W hbelow hm
        unfold edReadAll at h
        rw [Ed.run_bind_ok hget, if_pos (by decide : (-1 : Int) < 0)] at h
        cases Except.ok.inj h

end

/-- The blocks of the indices `[b, b + n)` of a record. -/
def Disk.blocksFrom (d : Disk) (r : Inode) (n b p : Nat) : Prop :=
  ∃ c pos, (b ≤ c ∧ c < b + n) ∧ posOf c = some pos ∧ d.ptr r pos = p

theorem edDropBlocks_spec {img : DiskImage} (W : img.Whole) {r : Inode} {n b size : Nat}
    (hdb : ∀ pos, img.disk.ptr r pos ≠ 0 → img.sb.DataBlock (img.disk.ptr r pos))
    (hm : ∀ c, b ≤ c → c < b + n → img.disk.Mapped r c) :
    ∃ d', edDropBlocks (PyInode.sized r size) n b img = (.ok (), img.withDisk d')
      ∧ Freed img.sb (img.disk.blocksFrom r n b) img.disk d' := by
  induction n generalizing b img with
  | zero =>
      refine ⟨img.disk, ?_, (Freed.refl img.disk).congr fun p => ?_⟩
      · rw [DiskImage.withDisk_disk]
        rfl
      · simp only [false_iff]
        rintro ⟨c, pos, hc, -⟩
        omega
  | succ n ih =>
      obtain ⟨pos, hpos, h0⟩ := hm b (Nat.le_refl b) (by omega)
      have hp := hdb pos h0
      have hbelow : ∀ t, img.disk.ptr r t < img.sb.fsSizeBlocks.toNat := by
        intro t
        rcases em (img.disk.ptr r t = 0) with ht | ht
        · rw [ht]
          exact Nat.lt_of_le_of_lt (Nat.zero_le _) hp.2
        · exact (hdb t ht).2
      have hwalk : img.Walkable r pos := fun t _ => W.holds (hbelow t)
      have hget : edGetBlockForInode (PyInode.sized r size) b false img
          = (.ok ((img.disk.ptr r pos : Nat), PyInode.sized r size), img) := by
        have hmapped := edGetBlock_mapped hpos h0
        rw [if_pos hwalk] at hmapped
        have hsized := edGetBlock_sized (PyInode.ofInode r) size b false
        exact (congrFun hsized img).trans (Ed.run_bind_ok hmapped)
      have hclear := edClearBit_run W hp
      have hf := freed_one (d := img.disk) W.sound hp
      have hkept : ∀ t, (img.disk.setBlockUsed img.sb (img.disk.ptr r pos) false).ptr r t
          = img.disk.ptr r t := Disk.ptr_of_data hdb hf.data
      obtain ⟨d', hrest, hf'⟩ := @ih
        (img.withDisk (img.disk.setBlockUsed img.sb (img.disk.ptr r pos) false)) (W.withDisk _)
          (b + 1)
        (fun t ht => by
          rw [DiskImage.disk_withDisk, hkept] at ht ⊢
          exact hdb t ht)
        (fun c h1 h2 => by
          obtain ⟨t, ht, ht0⟩ := hm c (by omega) (by omega)
          exact ⟨t, ht, by rwa [DiskImage.disk_withDisk, hkept]⟩)
      rw [DiskImage.withDisk_withDisk] at hrest
      rw [DiskImage.disk_withDisk, DiskImage.withDisk_sb] at hf'
      refine ⟨d', ?_, (hf.trans hf').congr fun p => ?_⟩
      · have hstep : edDropBlocks (PyInode.sized r size) (n + 1) b img
            = (edClearBit (img.disk.ptr r pos : Nat) >>= fun _ =>
                edDropBlocks (PyInode.sized r size) n (b + 1)) img := by
          have hlow : ((img.disk.ptr r pos : Nat) : Int) ≠ 0
              ∧ ((img.disk.ptr r pos : Nat) : Int) ≥ (img.sb.dataBlocksStart.toNat : Nat) :=
            ⟨Int.natCast_ne_zero.mpr h0, Int.ofNat_le.mpr hp.1⟩
          rw [edDropBlocks, Ed.run_bind_ok hget, Ed.run_bind_ok (superblock_run img), if_pos hlow]
          rfl
        rw [hstep, Ed.run_bind_ok hclear]
        exact hrest
      · constructor
        · rintro (rfl | ⟨c, t, hc, ht, hp⟩)
          · exact ⟨b, pos, by omega, hpos, rfl⟩
          · rw [hkept] at hp
            exact ⟨c, t, by omega, ht, hp⟩
        · rintro ⟨c, t, hc, ht, hp⟩
          rcases em (c = b) with rfl | hcb
          · rw [hpos] at ht
            obtain rfl := Option.some.inj ht
            exact Or.inl hp.symm
          · exact Or.inr ⟨c, t, by omega, ht, by rw [hkept, hp]⟩

theorem edDropBlocks_returns {img img' : DiskImage} (W : img.Whole) {r : Inode} {b e size : Nat}
    (hle : b ≤ e) (hdb : ∀ pos, img.disk.ptr r pos ≠ 0 → img.sb.DataBlock (img.disk.ptr r pos))
    (hm : ∀ c, b ≤ c → c < e → img.disk.Mapped r c)
    (h : edDropBlocks (PyInode.sized r size) (e - b) b img = (.ok (), img')) :
    ∃ d', img' = img.withDisk d' ∧ Freed img.sb (img.disk.blocksFrom r (e - b) b) img.disk d'
      ∧ (b = e → d' = img.disk) := by
  rcases Nat.eq_or_lt_of_le hle with rfl | hlt
  · rw [Nat.sub_self] at h ⊢
    obtain ⟨-, rfl⟩ := Prod.mk.inj h
    refine ⟨img.disk, (DiskImage.withDisk_disk img).symm, (Freed.refl img.disk).congr fun p => ?_,
      fun _ => rfl⟩
    simp only [false_iff]
    rintro ⟨c, pos, hc, -⟩
    omega
  · obtain ⟨d', hrun, hf⟩ := @edDropBlocks_spec img W r (e - b) b size hdb
      fun c h1 h2 => hm c h1 (by omega)
    rw [hrun] at h
    exact ⟨d', (Prod.mk.inj h).2.symm, hf, fun heq => absurd heq (Nat.ne_of_lt hlt)⟩

/-- The blocks that a directory needs once the entries of a name are gone. -/
def blocksKept (blocks : List Block) (name : PyStr) (size : Nat) : Nat :=
  blocksFor (72 * (edKept blocks name (size / 72)).length)

/-- A removal that went through: the kept slots written to the first blocks, the bits of the
others cleared, and the record written back. -/
structure EdRemoved (img : DiskImage) (dir : Nat) (name : PyStr) (blocks : List Block) (r : Inode)
    (d d' : Disk) (img' : DiskImage) : Prop where
  read : edReadAll (PyInode.ofInode (img.disk.inodeAt img.sb dir))
    (blocksFor (img.disk.inodeAt img.sb dir).size.toNat) 0 img = (.ok (some blocks), img)
  changed : Changed img.sb img.sb.fsSizeBlocks.toNat (img.disk.inodeAt img.sb) dir
    (img.disk.inodeAt img.sb dir) img.disk r d
  freed : Freed img.sb (d.blocksFrom r (blocksFor (img.disk.inodeAt img.sb dir).size.toNat
      - blocksKept blocks name (img.disk.inodeAt img.sb dir).size.toNat)
    (blocksKept blocks name (img.disk.inodeAt img.sb dir).size.toNat)) d d'
  becomes : ∃ size, img.Becomes (d'.putInode img.sb dir (r.packed size)) img'
  none_dropped : blocksKept blocks name (img.disk.inodeAt img.sb dir).size.toNat
    = blocksFor (img.disk.inodeAt img.sb dir).size.toNat → d' = d

theorem DiskImage.Sound.dataBlock {img : DiskImage} (S : img.Sound) (i : Nat) (pos : Pos)
    (h0 : img.disk.ptr (img.disk.inodeAt img.sb i) pos ≠ 0) :
    img.sb.DataBlock (img.disk.ptr (img.disk.inodeAt img.sb i) pos) :=
  S.owned.dataBlock (blockBound_size img.sb) (s := (i, pos)) h0

theorem DiskImage.Sound.below {img : DiskImage} (S : img.Sound) (i : Nat) (pos : Pos) :
    img.disk.ptr (img.disk.inodeAt img.sb i) pos < img.sb.fsSizeBlocks.toNat := by
  have h1 := S.whole.sound.first
  have h2 := S.whole.sound.inodeBitmap
  have h3 := S.whole.sound.blockBitmap
  have h4 := S.whole.sound.inodeTable
  have h5 := S.whole.sound.data
  rcases em (img.disk.ptr (img.disk.inodeAt img.sb i) pos = 0) with h0 | h0
  · omega
  · exact (S.dataBlock i pos h0).2

theorem keeps_edReadAll {γ : Type} {f : DiskImage → γ} (inode : PyInode) (n b : Nat) :
    Ed.Keeps f (edReadAll inode n b) := by
  induction n generalizing b with
  | zero => exact .pure _
  | succ n ih =>
      refine (keeps_edGetBlock _ _).bind fun r => Ed.Keeps.ite (.pure _) ?_
      exact (keeps_readBlock _).bind fun _ => (ih (b + 1)).bind fun _ => .pure _

theorem blocksFor_mono {m n : Nat} (h : m ≤ n) : blocksFor m ≤ blocksFor n :=
  Nat.div_le_div_right (Nat.add_le_add_right h 511)

theorem blocksKept_le (blocks : List Block) (name : PyStr) (size : Nat) :
    blocksKept blocks name size ≤ blocksFor size := by
  have hlen : (edKept blocks name (size / 72)).length ≤ size / 72 := by
    have hfilter := List.length_filter_le
      (fun i => decodeIgnore 64 (DirEntry.decode (joined blocks) (72 * i)).nameBytes ≠ name)
      (List.range (size / 72))
    rw [List.length_range] at hfilter
    exact hfilter
  exact blocksFor_mono (by omega)

theorem edDirRemoveEntry_returns {img img' : DiskImage} (S : img.Sound) {dirino : Int}
    {name : PyStr} {b : Bool} (h : edDirRemoveEntry dirino name img = (.ok b, img')) :
    ∃ dir : Nat, dirino = dir ∧ img.sb.ValidIno dir ∧ (b = false ∧ img' = img
      ∨ b = true ∧ ∃ blocks r d d', EdRemoved img dir name blocks r d d' img') := by
  obtain ⟨din, img₁, hread, hrest⟩ := Ed.bind_ok h
  obtain ⟨dir, rfl, hv, rfl, rfl⟩ := edReadInode_returns S.whole hread
  clear h hread
  refine ⟨dir, rfl, hv, ?_⟩
  generalize hr : img₁.disk.inodeAt img₁.sb dir = r at hrest
  split at hrest
  · obtain ⟨hres, rfl⟩ := Prod.mk.inj hrest
    exact Or.inl ⟨(Except.ok.inj hres).symm, rfl⟩
  · obtain ⟨blocks, img₂, hall, hkept⟩ := Ed.bind_ok hrest
    obtain rfl := Ed.Keeps.same (keeps_edReadAll _ _ _) hall
    cases blocks with
    | none =>
        obtain ⟨hres, rfl⟩ := Prod.mk.inj hkept
        exact Or.inl ⟨(Except.ok.inj hres).symm, rfl⟩
    | some blocks =>
        dsimp only at hkept
        split at hkept
        · obtain ⟨hres, rfl⟩ := Prod.mk.inj hkept
          exact Or.inl ⟨(Except.ok.inj hres).symm, rfl⟩
        · obtain ⟨x, img₃, hloop, hdrop⟩ := Ed.bind_ok hkept
          obtain ⟨_, img₄, hdropped, hinode⟩ := Ed.bind_ok hdrop
          obtain ⟨_, img₅, hwrite, hdone⟩ := Ed.bind_ok hinode
          obtain ⟨hres, rfl⟩ := Prod.mk.inj hdone
          refine Or.inr ⟨(Except.ok.inj hres).symm, blocks, ?_⟩
          have hO : VolOwned img₂.sb img₂.sb.fsSizeBlocks.toNat img₂.disk
              (Function.update (img₂.disk.inodeAt img₂.sb) dir r) := by
            rw [← hr, Function.update_eq_self]
            exact S.owned
          have hwrote : EdWrote img₂ (img₂.disk.inodeAt img₂.sb) dir r r.size.toNat x img₃ :=
            edWriteBlocks_wrote S.whole hO hloop
          rcases hwrote with hbroken | ⟨r', d, rfl, hd, hch⟩
          · exact absurd hwrite (edWriteInode_broken (hbroken.sized _))
          · have W₃ := hd.whole S.whole
            have hmapped : ∀ c, c < blocksFor r.size.toNat → img₂.disk.Mapped r c := by
              have hbelow := S.below dir
              rw [hr] at hbelow
              intro c hc
              exact edReadAll_mapped S.whole hbelow (congrArg Prod.fst hall) c (Nat.zero_le c)
                (by rwa [Nat.zero_add])
            have hdb : ∀ pos, img₃.disk.ptr r' pos ≠ 0 →
                img₃.sb.DataBlock (img₃.disk.ptr r' pos) := by
              intro pos h0
              rw [hd.sb, hd.disk] at *
              have hvol := hch.owned.dataBlock (blockBound_size img₂.sb) (s := (dir, pos))
              rw [volPtr_self] at hvol
              exact hvol h0
            have hm : ∀ c, blocksKept blocks name r.size.toNat ≤ c → c < blocksFor r.size.toNat →
                img₃.disk.Mapped r' c := by
              intro c _ hc
              rw [hd.disk]
              exact hch.keepsMap.mapped (hmapped c hc)
            obtain ⟨d', rfl, hf, hnone⟩ := edDropBlocks_returns W₃
              (blocksKept_le blocks name r.size.toNat) hdb hm hdropped
            rw [hd.disk, hd.sb] at hf
            rw [hd.disk] at hnone
            have hv₃ : img₃.sb.ValidIno dir := by
              rw [hd.sb]
              exact hv
            have hlast := edWriteInode_returns (W₃.withDisk d') hv₃ hwrite
            rw [DiskImage.withDisk_withDisk, DiskImage.disk_withDisk, DiskImage.withDisk_sb, hd.sb]
              at hlast
            refine ⟨r', d, d', ?_⟩
            subst hr
            exact {
              read := hall
              changed := hch
              freed := hf
              becomes := by
                rw [hlast]
                exact ⟨_, hd.trans (DiskImage.Becomes.withDisk _ _)⟩
              none_dropped := hnone }

end IpoOs
