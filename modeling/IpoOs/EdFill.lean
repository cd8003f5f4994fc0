import IpoOs.EdGrow

/-!
# Blocks taken one after the other

The editor's allocating walk in full: with a free block for each null
pointer on the way it returns the block that the index then maps to, and
takes exactly those blocks. Over the blocks of a file the null pointers
on the ways add up, so a volume with that many free blocks holds the file.

`Took` counts: the free blocks after are those before, less a given number.
With the walk of each index known exactly, the loop over the blocks of a
file needs only the sum of the null pointers, and that sum is computed from
the state before the first walk.
-/

namespace IpoOs

/-- An action that took `k` of the free blocks. -/
def DiskImage.Took (img img' : DiskImage) (k : Nat) : Prop :=
  (img'.disk.freeBlocks img'.sb).card + k = (img.disk.freeBlocks img.sb).card

section

variable {img img' : DiskImage} {T : Nat → Inode} {ino : Nat} {r r' : Inode}

theorem DiskImage.Took.refl (img : DiskImage) : img.Took img 0 := Nat.add_zero _

theorem DiskImage.Took.trans {img'' : DiskImage} {k k' : Nat} (h : img.Took img' k)
    (h' : img'.Took img'' k') : img.Took img'' (k + k') := by
  unfold DiskImage.Took at *
  omega

variable (W : img.Whole)
  (O : VolOwned img.sb img.sb.fsSizeBlocks.toNat img.disk (Function.update T ino r))

include W

theorem edAllocateBlock_free (hfree : 0 < (img.disk.freeBlocks img.sb).card) :
    ∃ p, img.sb.DataBlock p ∧ img.disk.blockUsed img.sb p = false
      ∧ edAllocateBlock img = (.ok (p : Int), img.withDisk (img.disk.takeBlock img.sb p))
      ∧ ((img.disk.takeBlock img.sb p).freeBlocks img.sb).card + 1
        = (img.disk.freeBlocks img.sb).card := by
  rcases edAllocateBlock_run W with ⟨p, hp, hf, hrun⟩ | ⟨hall, -⟩
  · exact ⟨p, hp, hf, hrun, W.sound.bitmapBelow.card_takeBlock (Disk.mem_freeBlocks.mpr ⟨hp, hf⟩)⟩
  · obtain ⟨p, hp⟩ := Finset.card_pos.mp hfree
    obtain ⟨hdata, hf⟩ := Disk.mem_freeBlocks.mp hp
    rw [hall p hdata] at hf
    cases hf

include O

theorem took_link {pos t : Pos} (hpos : pos.parent = some t) (ht : img.disk.ptr r t ≠ 0) {p : Nat}
    (hp : img.sb.DataBlock p) (hfree : img.disk.blockUsed img.sb p = false)
    (hcard : ((img.disk.takeBlock img.sb p).freeBlocks img.sb).card + 1
      = (img.disk.freeBlocks img.sb).card) :
    img.Took (img.withDisk ((img.disk.takeBlock img.sb p).setPtr r pos p)) 1 := by
  have hdata : img.sb.DataBlock (img.disk.ptr r t) := by
    have hvol : volPtr (Function.update T ino r) img.disk (ino, t) ≠ 0 := by
      rw [volPtr_self]
      exact ht
    have hdb := O.dataBlock (blockBound_size img.sb) hvol
    rwa [volPtr_self] at hdb
  unfold DiskImage.Took
  rw [DiskImage.disk_withDisk, DiskImage.withDisk_sb, O.setPtr_takeBlock W.sound hp hfree hpos ht,
    W.sound.bitmapBelow.freeBlocks_set (W.sound.bitmapBelow.not_bitmapBlock hdata)]
  exact hcard

theorem edPointerEntry_took {pos t : Pos} (hpos : pos.parent = some t)
    (ht : img.disk.ptr r t ≠ 0)
    (hfree : img.disk.nullAt r pos ≤ (img.disk.freeBlocks img.sb).card) :
    ∃ p img', edPointerEntry (img.disk.ptr r t) (img.disk (img.disk.ptr r t)) pos.index true img
        = (.ok p, img') ∧ img.Took img' (img.disk.nullAt r pos) := by
  have hentry : img.disk.ptr r pos
      = ((img.disk (img.disk.ptr r t)).word (4 * pos.index)).toNat := by
    rw [Disk.ptr_child hpos, Disk.entry, if_neg ht]
  unfold edPointerEntry
  unfold Disk.nullAt at hfree ⊢
  split
  · rename_i h0
    rw [h0, UInt32.toNat_zero] at hentry
    rw [if_pos hentry] at hfree ⊢
    obtain ⟨p, hp, hf, hrun, hcard⟩ := edAllocateBlock_free W hfree
    obtain ⟨hstore, -⟩ := edLink_grew (A := fun _ => True) W O trivial hpos ht hentry hp hf
    refine ⟨p, _, ?_, took_link W O hpos ht hp hf hcard⟩
    rw [if_pos rfl, Ed.run_bind_ok hrun, Ed.run_bind_ok (packPointer_run hp.2 _),
      Ed.run_bind_ok hstore]
    rfl
  · rename_i h0
    have hne : img.disk.ptr r pos ≠ 0 := by
      rw [hentry]
      exact fun hc => h0 (UInt32.toNat.inj hc)
    rw [if_neg hne]
    exact ⟨_, img, rfl, .refl img⟩

theorem edGetSingle_took {pos t : Pos} (hpos : pos.parent = some t) (ht : img.disk.ptr r t ≠ 0)
    (hfree : img.disk.nullAt r pos ≤ (img.disk.freeBlocks img.sb).card) :
    ∃ p img', edGetSingle (img.disk.ptr r t) pos.index true img = (.ok p, img')
      ∧ img.Took img' (img.disk.nullAt r pos) := by
  obtain ⟨p, img', hrun, htook⟩ := edPointerEntry_took W O hpos ht hfree
  refine ⟨p, img', ?_, htook⟩
  unfold edGetSingle
  rw [Ed.run_bind_ok (readBlock_run W (O.ptr_lt ht))]
  exact hrun

theorem edGetTable_took {j : Fin 128} (ht : img.disk.ptr r .double ≠ 0)
    (hfree : img.disk.nullAt r (.table j) ≤ (img.disk.freeBlocks img.sb).card) :
    ∃ res img', edGetTable (img.disk.ptr r .double) (img.disk (img.disk.ptr r .double)) j.val true
        img = (.ok res, img') ∧ img.Took img' (img.disk.nullAt r (.table j)) := by
  have hpos : (Pos.table j).parent = some .double := rfl
  have hentry : img.disk.ptr r (.table j)
      = ((img.disk (img.disk.ptr r .double)).word (4 * j.val)).toNat := by
    rw [Disk.ptr_child hpos, Disk.entry, if_neg ht]
    rfl
  unfold edGetTable
  unfold Disk.nullAt at hfree ⊢
  split
  · rename_i h0
    rw [h0, UInt32.toNat_zero] at hentry
    rw [if_pos hentry] at hfree ⊢
    obtain ⟨p, hp, hf, hrun, hcard⟩ := edAllocateBlock_free W hfree
    obtain ⟨hstore, -, hzero, -⟩ :=
      edLink_grew (A := fun _ => True) W O trivial hpos ht hentry hp hf
    have hstore' : writeBlock (img.disk.ptr r .double)
        ((img.disk (img.disk.ptr r .double)).putWord (4 * j.val) (UInt32.ofNat p))
        (img.withDisk (img.disk.takeBlock img.sb p))
        = (.ok (), img.withDisk ((img.disk.takeBlock img.sb p).setPtr r (.table j) p)) := hstore
    refine ⟨some p, _, ?_, took_link W O hpos ht hp hf hcard⟩
    have hclear := writeBlock_withDisk W hp.2
      ((img.disk.takeBlock img.sb p).setPtr r (.table j) p) Buf.zero
    rw [Disk.set_eq_self hzero] at hclear
    rw [if_pos rfl, Ed.run_bind_ok hrun, Ed.run_bind_ok (packPointer_run hp.2 _),
      Ed.run_bind_ok hstore', Ed.run_bind_ok hclear]
    rfl
  · rename_i h0
    have hne : img.disk.ptr r (.table j) ≠ 0 := by
      rw [hentry]
      exact fun hc => h0 (UInt32.toNat.inj hc)
    rw [if_neg hne]
    exact ⟨_, img, rfl, .refl img⟩

omit W O in
/-- A walk that links at one position leaves the other pointers as they are. -/
theorem EdGrew.ptr_other {pos s : Pos} (h : EdGrew img T ino (· = pos) r r' img') (hs : s ≠ pos) :
    img'.disk.ptr r' s = img.disk.ptr r s :=
  (h.grew.ptr s).resolve_right fun hc => hs hc.1

theorem edGetLeaf_took {idx : Nat} {j k : Fin 128} (hj : j.val = idx / 128)
    (hk : k.val = idx % 128) (ht : img.disk.ptr r .double ≠ 0)
    (hfree : img.disk.nullAt r (.table j) + img.disk.nullAt r (.leaf j k)
      ≤ (img.disk.freeBlocks img.sb).card) :
    ∃ p img', edGetLeaf (img.disk.ptr r .double) idx true img = (.ok p, img')
      ∧ img.Took img' (img.disk.nullAt r (.table j) + img.disk.nullAt r (.leaf j k)) := by
  obtain ⟨res, img₁, htable, htook⟩ :=
    edGetTable_took W O ht (Nat.le_trans (Nat.le_add_right _ _) hfree)
  obtain ⟨rfl, ht', hg⟩ := edGetTable_grew (A := (· = .table j)) W O rfl ht htable
  have hleaf : img₁.disk.nullAt r (.leaf j k) = img.disk.nullAt r (.leaf j k) := by
    unfold Disk.nullAt
    rw [hg.ptr_other (by simp)]
  have hleft : img₁.disk.nullAt r (.leaf j k) ≤ (img₁.disk.freeBlocks img₁.sb).card := by
    unfold DiskImage.Took at htook
    omega
  obtain ⟨p, img₂, hsingle, htook'⟩ := edGetSingle_took (hg.whole W) hg.owned
    (show (Pos.leaf j k).parent = some (.table j) from rfl) ht' hleft
  refine ⟨p, img₂, ?_, hleaf ▸ htook.trans htook'⟩
  unfold edGetLeaf
  rw [Ed.run_bind_ok (readBlock_run W (O.ptr_lt ht)), ← hj, Ed.run_bind_ok htable, ← hk]
  exact hsingle

theorem edRootTable_took (pos : Pos) (hpos : pos.parent = none) (field : UInt32)
    (hfield : img.disk.ptr r pos = field.toNat) (hsame : r.setPtr pos field.toNat = r)
    (hfree : img.disk.nullAt r pos ≤ (img.disk.freeBlocks img.sb).card) :
    ∃ (q : UInt32) (img' : DiskImage),
      edRootTable field.toNat true img = (.ok (some (q.toNat : Int)), img') ∧ q.toNat ≠ 0
      ∧ EdGrew img T ino (· = pos) r (r.setPtr pos q.toNat) img'
      ∧ img.Took img' (img.disk.nullAt r pos) := by
  obtain ⟨res, img', hrun, hnonneg, htook⟩ : ∃ res img',
      edRootTable field.toNat true img = (.ok (some res), img') ∧ 0 ≤ res
      ∧ img.Took img' (img.disk.nullAt r pos) := by
    unfold edRootTable
    unfold Disk.nullAt at hfree ⊢
    split
    · rename_i h0
      have hnull : img.disk.ptr r pos = 0 := by
        rw [hfield]
        exact Int.natCast_eq_zero.mp h0
      rw [if_pos hnull] at hfree ⊢
      obtain ⟨p, hp, hf, hrun, hcard⟩ := edAllocateBlock_free W hfree
      refine ⟨p, img.withDisk ((img.disk.takeBlock img.sb p).set p Buf.zero), ?_,
        Int.natCast_nonneg p, ?_⟩
      · rw [if_pos rfl, Ed.run_bind_ok hrun, Ed.run_bind_ok (writeBlock_withDisk W hp.2 _ _)]
        rfl
      · unfold DiskImage.Took
        rw [DiskImage.disk_withDisk, DiskImage.withDisk_sb,
          W.sound.bitmapBelow.freeBlocks_set (W.sound.bitmapBelow.not_bitmapBlock hp)]
        exact hcard
    · rename_i h0
      have hne : img.disk.ptr r pos ≠ 0 := by
        rw [hfield]
        exact fun hc => h0 (by rw [hc]; rfl)
      rw [if_neg hne]
      exact ⟨_, img, rfl, Int.natCast_nonneg _, .refl img⟩
  rcases edRootTable_grew (A := (· = pos)) W O rfl hpos hfield hsame hrun with
    hfail | ⟨q, hq, hq0, hg⟩
  · have hneg := Option.some.inj hfail
    omega
  · rw [hq] at hrun
    exact ⟨q, img', hrun, hq0, hg, htook⟩

end

/-! ## The walk

A walk with enough free blocks, for each region of indices: the block it
returns, and what it took. -/

theorem Inode.setPtr_indirect (r : Inode) (q : UInt32) :
    r.setPtr .indirect q.toNat = { r with indirect := q } := by
  rw [Inode.setPtr, UInt32.ofNat_toNat]

theorem Inode.setPtr_double (r : Inode) (q : UInt32) :
    r.setPtr .double q.toNat = { r with doubleIndirect := q } := by
  rw [Inode.setPtr, UInt32.ofNat_toNat]

/-- A walk of the editor that went through: the block that the position now holds, and the
free blocks that it took for the null pointers on its way. -/
structure EdWalked (img : DiskImage) (T : Nat → Inode) (ino : Nat) (r : Inode) (pos : Pos)
    (x : Ed (Int × PyInode)) (r' : Inode) (img' : DiskImage) : Prop where
  grew : EdGrew img T ino (· ∈ pos.path) r r' img'
  mapped : img'.disk.ptr r' pos ≠ 0
  run : x img = (.ok ((img'.disk.ptr r' pos : Nat), PyInode.ofInode r'), img')
  took : img.Took img' (pos.path.map (img.disk.nullAt r)).sum

section

variable {img img' : DiskImage} {T : Nat → Inode} {ino : Nat} {r r' : Inode}

theorem EdGrew.withDisk {A : Pos → Prop} (h : EdGrew img T ino A r r' img') (d : Disk) :
    img'.withDisk d = img.withDisk d := by
  rw [h.image, DiskImage.withDisk_withDisk]

theorem EdGrew.weaken {A A' : Pos → Prop} (h : EdGrew img T ino A r r' img')
    (hA : ∀ pos, A pos → A' pos) : EdGrew img T ino A' r r' img' :=
  ⟨h.image, h.grew.weaken hA⟩

variable (W : img.Whole)
  (O : VolOwned img.sb img.sb.fsSizeBlocks.toNat img.disk (Function.update T ino r))

include W O

theorem edGetDirect_walked {i : Fin 6}
    (hfree : img.disk.nullAt r (.direct i) ≤ (img.disk.freeBlocks img.sb).card) :
    ∃ r' img', EdWalked img T ino r (.direct i) (edGetDirect (PyInode.ofInode r) i true) r'
        img' := by
  have hsum : ((Pos.direct i).path.map (img.disk.nullAt r)).sum = img.disk.nullAt r (.direct i) :=
    Nat.add_zero _
  have hfield : (PyInode.ofInode r).direct i = (img.disk.ptr r (.direct i) : Nat) := rfl
  rcases em (img.disk.ptr r (.direct i) = 0) with hnull | hne
  · have hone : img.disk.nullAt r (.direct i) = 1 := if_pos hnull
    rw [hone] at hfree hsum
    obtain ⟨p, hp, hf, hrun, hcard⟩ := edAllocateBlock_free W hfree
    have hp32 : p < 4294967296 := Nat.lt_trans hp.2 img.sb.fsSizeBlocks.toNat_lt
    have hpar : ∀ v, (Pos.direct i).parent = some v → img.disk.ptr r v ≠ 0 := nofun
    have hlink := Grew.link (A := (· ∈ (Pos.direct i).path)) W.sound (blockBound_size img.sb) O hp
      hp32 hp.2 hf (Pos.mem_path _) hnull hpar
    have hptr : ((img.disk.takeBlock img.sb p).ptr (r.setPtr (.direct i) p) (.direct i)) = p := by
      have hat := VolOwned.ptr_link W.sound O hp hp32 hf hnull hpar (.direct i)
      rwa [if_pos rfl] at hat
    refine ⟨r.setPtr (.direct i) p, img.withDisk (img.disk.takeBlock img.sb p), ?_⟩
    exact {
      grew := .of_grew hlink
      mapped := by
        rw [DiskImage.disk_withDisk, hptr]
        exact W.sound.dataBlock_ne_zero hp
      run := by
        unfold edGetDirect
        have hz : (PyInode.ofInode r).direct i = 0 := by
          rw [hfield, hnull]
          rfl
        rw [if_pos hz, if_pos rfl, Ed.run_bind_ok hrun,
          DiskImage.disk_withDisk, hptr, Inode.setPtr, ofInode_setDirect r i hp32]
        rfl
      took := by
        unfold DiskImage.Took
        rw [hsum, DiskImage.disk_withDisk, DiskImage.withDisk_sb]
        exact hcard }
  · have hzero : img.disk.nullAt r (.direct i) = 0 := if_neg hne
    refine ⟨r, img, ?_⟩
    exact {
      grew := .refl O
      mapped := hne
      run := by
        unfold edGetDirect
        rw [hfield, if_neg (Int.natCast_ne_zero.mpr hne)]
        rfl
      took := by
        rw [hsum, hzero]
        exact .refl img }

theorem edGetIndirect_walked {j : Fin 128}
    (hfree : img.disk.nullAt r .indirect + img.disk.nullAt r (.single j)
      ≤ (img.disk.freeBlocks img.sb).card) :
    ∃ r' img', EdWalked img T ino r (.single j)
      (edGetIndirect (PyInode.ofInode r) j.val true) r' img' := by
  have hsum : ((Pos.single j).path.map (img.disk.nullAt r)).sum
      = img.disk.nullAt r .indirect + img.disk.nullAt r (.single j) := rfl
  obtain ⟨q, img₁, hroot, hq0, hg, htook⟩ := edRootTable_took W O .indirect rfl r.indirect
    rfl (r.setPtr_indirect r.indirect) (Nat.le_trans (Nat.le_add_right _ _) hfree)
  rw [r.setPtr_indirect q] at hg
  have hentry : img₁.disk.nullAt { r with indirect := q } (.single j)
      = img.disk.nullAt r (.single j) := by
    unfold Disk.nullAt
    rw [hg.ptr_other (by simp)]
  have hleft : img₁.disk.nullAt { r with indirect := q } (.single j)
      ≤ (img₁.disk.freeBlocks img₁.sb).card := by
    unfold DiskImage.Took at htook
    omega
  have hparent : (Pos.single j).parent = some .indirect := rfl
  obtain ⟨p, img₂, hsingle, htook'⟩ := edGetSingle_took (hg.whole W) hg.owned hparent hq0 hleft
  obtain ⟨rfl, hp0, hg'⟩ := edGetSingle_grew (A := (· ∈ (Pos.single j).path)) (hg.whole W) hg.owned
    (Pos.mem_path _) hparent hq0 hsingle
  have hroots : ∀ s, s = .indirect → s ∈ (Pos.single j).path := by
    rintro s rfl
    exact List.mem_cons_self
  exact ⟨{ r with indirect := q }, img₂, {
    grew := (hg.weaken hroots).trans hg'
    mapped := hp0
    run := (Ed.run_bind_ok hroot).trans (Ed.run_bind_ok hsingle)
    took := by
      rw [hsum, ← hentry]
      exact htook.trans htook' }⟩

theorem edGetDouble_walked {idx : Nat} {j k : Fin 128} (hj : j.val = idx / 128)
    (hk : k.val = idx % 128)
    (hfree : img.disk.nullAt r .double + (img.disk.nullAt r (.table j)
      + img.disk.nullAt r (.leaf j k)) ≤ (img.disk.freeBlocks img.sb).card) :
    ∃ r' img', EdWalked img T ino r (.leaf j k)
      (edGetDouble (PyInode.ofInode r) idx true) r' img' := by
  have hsum : ((Pos.leaf j k).path.map (img.disk.nullAt r)).sum
      = img.disk.nullAt r .double
          + (img.disk.nullAt r (.table j) + img.disk.nullAt r (.leaf j k)) :=
    rfl
  obtain ⟨q, img₁, hroot, hq0, hg, htook⟩ := edRootTable_took W O .double rfl
    r.doubleIndirect rfl (r.setPtr_double r.doubleIndirect)
    (Nat.le_trans (Nat.le_add_right _ _) hfree)
  rw [r.setPtr_double q] at hg
  have hother : ∀ s, s ≠ .double → img₁.disk.nullAt { r with doubleIndirect := q } s
      = img.disk.nullAt r s := by
    intro s hs
    unfold Disk.nullAt
    rw [hg.ptr_other hs]
  have htable := hother (.table j) (by simp)
  have hentry := hother (.leaf j k) (by simp)
  have hleft : img₁.disk.nullAt { r with doubleIndirect := q } (.table j)
      + img₁.disk.nullAt { r with doubleIndirect := q } (.leaf j k)
      ≤ (img₁.disk.freeBlocks img₁.sb).card := by
    unfold DiskImage.Took at htook
    omega
  obtain ⟨p, img₂, hleaf, htook'⟩ := edGetLeaf_took (hg.whole W) hg.owned hj hk hq0 hleft
  have hmem : Pos.table j ∈ (Pos.leaf j k).path := List.mem_cons_of_mem _ List.mem_cons_self
  obtain ⟨rfl, hp0, hg'⟩ := edGetLeaf_grew (A := (· ∈ (Pos.leaf j k).path)) (hg.whole W) hg.owned hj
    hk hmem (Pos.mem_path _) hq0 hleaf
  have hroots : ∀ s, s = .double → s ∈ (Pos.leaf j k).path := by
    rintro s rfl
    exact List.mem_cons_self
  exact ⟨{ r with doubleIndirect := q }, img₂, {
    grew := (hg.weaken hroots).trans hg'
    mapped := hp0
    run := (Ed.run_bind_ok hroot).trans (Ed.run_bind_ok hleaf)
    took := by
      rw [hsum, ← htable, ← hentry]
      exact htook.trans htook' }⟩

/-- With a free block for each null pointer on the way, the walk goes through. -/
theorem edGetBlock_walked {l : Nat} {pos : Pos} (hpos : posOf l = some pos)
    (hfree : img.disk.nulls r l ≤ (img.disk.freeBlocks img.sb).card) :
    ∃ r' img', EdWalked img T ino r pos (edGetBlockForInode (PyInode.ofInode r) l true) r'
        img' := by
  have hpath : (pos.path.map (img.disk.nullAt r)).sum ≤ (img.disk.freeBlocks img.sb).card :=
    Disk.nulls_of hpos ▸ hfree
  unfold posOf at hpos
  split at hpos
  · rename_i h6
    obtain rfl := Option.some.inj hpos
    have hwalk := edGetDirect_walked (i := ⟨l, h6⟩) W O (by simpa [Pos.path] using hpath)
    unfold edGetBlockForInode
    rwa [dif_pos h6]
  · rename_i h6
    split at hpos
    · rename_i h128
      obtain rfl := Option.some.inj hpos
      have hwalk := edGetIndirect_walked (j := ⟨l - 6, h128⟩) W O (by simpa [Pos.path] using hpath)
      unfold edGetBlockForInode
      rwa [dif_neg h6, if_pos h128]
    · rename_i h128
      split at hpos
      · rename_i hbig
        obtain rfl := Option.some.inj hpos
        have hsub : l - 6 - 128 = l - 134 := by omega
        have hwalk : ∃ r' img', EdWalked img T ino r
            (.leaf ⟨(l - 134) / 128, by omega⟩ ⟨(l - 134) % 128, by omega⟩)
            (edGetDouble (PyInode.ofInode r) (l - 134) true) r' img' :=
          edGetDouble_walked W O rfl rfl (by simpa [Pos.path] using hpath)
        unfold edGetBlockForInode
        rw [dif_neg h6, if_neg h128, hsub, if_neg (Nat.not_le.mpr hbig)]
        exact hwalk
      · cases hpos

end

end IpoOs
