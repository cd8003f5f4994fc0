import IpoOs.EdOwnership
import IpoOs.EdPaths

/-!
# What a deletion releases

`delete` frees the direct blocks that the recorded size covers and all
blocks under the two pointer trees. `write_text` and `put` can lower the
size and leave the direct pointers as they are, so a deletion frees every
block of the file exactly when its record has no direct pointer past its
size. Blocks of other files stay marked used.

The commands before the deletion are arbitrary, so what a file looks like
when it is deleted is only known by the invariant of the runs. The condition
is on its record.
-/

namespace IpoOs

/-- The blocks that slot `i` had before are free now. -/
def BlocksFreed (img img' : DiskImage) (i : Nat) : Prop :=
  ∀ pos, img.disk.ptr (img.disk.inodeAt img.sb i) pos ≠ 0 →
    img'.disk.blockUsed img.sb (img.disk.ptr (img.disk.inodeAt img.sb i) pos) = false

/-- The blocks that slot `i` had before are still marked used. -/
def BlocksKept (img img' : DiskImage) (i : Nat) : Prop :=
  ∀ pos, img.disk.ptr (img.disk.inodeAt img.sb i) pos ≠ 0 →
    img'.disk.blockUsed img.sb (img.disk.ptr (img.disk.inodeAt img.sb i) pos) = true

/-- What the deletion of file `ino` does to the blocks: those of the file are free, and those of
every other file are not. -/
def DeleteReleases (img img' : DiskImage) (ino : Nat) : Prop :=
  BlocksFreed img img' ino
    ∧ ∀ i, i ≠ ino → (img.disk.inodeAt img.sb i).isDir = false → BlocksKept img img' i

/-- The record has no direct pointer past the blocks that its size covers. -/
def Inode.NoDirectPast (r : Inode) : Prop :=
  ∀ j : Fin 6, blocksFor r.size.toNat ≤ j.val → r.direct j = 0

section

variable {img img' : DiskImage} (S : img.Sound)

include S

/-! ## The removal of the entry

The directory loses the entry, and other files keep their pointers. -/

/-- The removal of an entry leaves the pointers of the other slots. -/
theorem EdRemoved.ptr_other {dir : Nat} (hv : img.sb.ValidIno dir) {name : PyStr}
    {blocks : List Block} {r : Inode} {d d' : Disk} (h : EdRemoved img dir name blocks r d d' img')
    {i : Nat} (hi : i ≠ dir) (pos : Pos) :
    img'.disk.ptr (img.disk.inodeAt img.sb i) pos
      = img.disk.ptr (img.disk.inodeAt img.sb i) pos := by
  obtain ⟨size, hd⟩ := h.becomes
  have hsame := h.changed.others i hi
  have hdb : ∀ pos, d.ptr (img.disk.inodeAt img.sb i) pos ≠ 0 →
      img.sb.DataBlock (d.ptr (img.disk.inodeAt img.sb i) pos) := by
    intro pos h0
    rw [hsame] at h0 ⊢
    exact S.dataBlock i pos h0
  rw [← hsame]
  refine Disk.ptr_of_data hdb (fun q hq => ?_) pos
  rw [hd.disk, S.whole.sound.putInode_of_ne hv _ (Or.inr hq), h.freed.data q hq]

theorem EdRemoved.used_other {dir : Nat} (hv : img.sb.ValidIno dir) {name : PyStr}
    {blocks : List Block} {r : Inode} {d d' : Disk} (h : EdRemoved img dir name blocks r d d' img')
    {i : Nat} (hi : i ≠ dir) : BlocksKept img img' i := by
  intro pos h0
  obtain ⟨size, hd⟩ := h.becomes
  have hp := S.dataBlock i pos h0
  have hused : img.disk.blockUsed img.sb (img.disk.ptr (img.disk.inodeAt img.sb i) pos) = true :=
    S.owned.used (i, pos) h0
  rw [hd.disk, S.whole.sound.blockUsed_putInode hv hp, h.freed.used _ hp]
  refine ⟨h.changed.used _ hp hused, ?_⟩
  -- a dropped block has its pointer in the directory, and the pointers are owned
  rintro ⟨c, t, -, -, ht⟩
  have hsame := h.changed.others i hi pos
  have hown := h.changed.owned.inj (i, pos) (dir, t)
  rw [volPtr_other hi, volPtr_self, hsame, ht] at hown
  exact hi (Prod.mk.inj (hown h0 rfl)).1

/-! ## The release of the blocks

Exactly the positions of `deletePos`. -/

/-- The release clears the bits of the blocks at the positions of `deletePos` and no others. -/
theorem edRelease_used {i : Nat} (hv : img.sb.ValidIno i) {r : Inode} (W : img'.Whole)
    (hsb : img'.sb = img.sb)
    (hptr : ∀ pos, img'.disk.ptr r pos = img.disk.ptr (img.disk.inodeAt img.sb i) pos)
    {img'' : DiskImage} (h : edRelease i (PyInode.ofInode r) img' = (.ok (), img'')) {p : Nat}
    (hp : img.sb.DataBlock p) :
    img''.disk.blockUsed img.sb p = true ↔ img'.disk.blockUsed img.sb p = true
      ∧ ¬ img'.disk.blocksAt r (deletePos r) p := by
  have hdb : ∀ pos, img'.disk.ptr r pos ≠ 0 → img'.sb.DataBlock (img'.disk.ptr r pos) := by
    intro pos h0
    rw [hsb]
    rw [hptr] at h0 ⊢
    exact S.dataBlock i pos h0
  have hv' : img'.sb.ValidIno i := by rwa [hsb]
  obtain ⟨d, hrun, hf⟩ := edRelease_spec W hdb hv'
  rw [h] at hrun
  obtain ⟨-, rfl⟩ := Prod.mk.inj hrun
  rw [hsb] at hf
  rw [DiskImage.disk_withDisk, hsb, S.whole.sound.blockUsed_putInode hv hp,
    S.whole.sound.blockUsed_setInodeUsed hv hp, hf.used p hp]

/-! ## The deletion

The two together, on a run from a new volume. -/

/-- The inode of a deletion is the one that the path names, and a regular file is not the
directory that names it. -/
theorem EdDeleted.resolved {path name : PyStr} {dir ino ino' : Nat} {blocks : List Block}
    {r : Inode} {d d' : Disk} {img₁ : DiskImage}
    (h : EdDeleted img path dir ino' name blocks r d d' img₁ img')
    (hres : edPathResolve path img = (.ok (ino : Int), img))
    (hfile : (img.disk.inodeAt img.sb ino).isDir = false) : ino' = ino ∧ ino ≠ dir := by
  have hne : ((dir : Nat) : Int) ≠ -1 := by omega
  have hne' : ((ino : Nat) : Int) ≠ -1 := by omega
  obtain ⟨x, ent, hread, hdir, hfind, hent⟩ := edPath_entry h.parent hne hres hne'
  obtain ⟨ent', hfind', hent'⟩ := h.found
  rw [hfind] at hfind'
  cases hfind'
  refine ⟨hent'.symm.trans (Int.ofNat.inj hent), ?_⟩
  rintro rfl
  obtain ⟨n, hn, -, rfl, -⟩ := edReadInode_returns S.whole hread
  obtain rfl := Int.ofNat.inj hn
  rw [isDir_ofInode, hfile] at hdir
  cases hdir

theorem edDelete_blocks {path : PyStr} {ino : Nat}
    (hres : edPathResolve path img = (.ok (ino : Int), img))
    (hfile : (img.disk.inodeAt img.sb ino).isDir = false)
    (h : edDelete path img = (.ok true, img')) :
    (∀ pos, img.disk.ptr (img.disk.inodeAt img.sb ino) pos ≠ 0 →
      (img'.disk.blockUsed img.sb (img.disk.ptr (img.disk.inodeAt img.sb ino) pos) = true
        ↔ ¬ deletePos (img.disk.inodeAt img.sb ino) pos))
    ∧ ∃ dir, (img.disk.inodeAt img.sb dir).isDir = true
      ∧ (∀ i, i ≠ ino → i ≠ dir → BlocksKept img img' i)
      ∧ (img.KeepsBlocks path → BlocksKept img img' dir) := by
  rcases edDelete_returns S h with ⟨hb, -⟩ | ⟨-, dir, ino', name, blocks, r, d, d', img₁, hdel⟩
  · cases hb
  obtain ⟨rfl, hne⟩ := hdel.resolved S hres hfile
  obtain ⟨size, hd⟩ := hdel.removed.becomes
  have hptr := hdel.removed.ptr_other S hdel.dir_valid hne
  have hused := fun {p} (hp : img.sb.DataBlock p) =>
    edRelease_used S hdel.ino_valid (hd.whole S.whole) hd.sb hptr hdel.released hp
  -- the pointers of the file lead to different blocks than those of the others
  have hkept : ∀ i, i ≠ ino' → BlocksKept img img₁ i → BlocksKept img img' i := by
    intro i hi hkeep pos h0
    refine (hused (S.dataBlock i pos h0)).mpr ⟨hkeep pos h0, ?_⟩
    rintro ⟨-, t, -, ht⟩
    rw [hptr] at ht
    exact hi (Prod.mk.inj (S.owned.inj (i, pos) (ino', t) h0 ht.symm)).1
  refine ⟨fun pos h0 => ?_, dir, ?_, fun i hi hdir =>
    hkept i hi (hdel.removed.used_other S hdel.dir_valid hdir), fun hkeep => ?_⟩
  · rw [hused (S.dataBlock ino' pos h0)]
    have hbefore := hdel.removed.used_other S hdel.dir_valid hne pos h0
    refine ⟨fun hh hpos => hh.2 ⟨h0, pos, hpos, hptr pos⟩, fun hpos => ⟨hbefore, ?_⟩⟩
    rintro ⟨-, t, ht, hp⟩
    rw [hptr] at hp
    obtain rfl := (Prod.mk.inj (S.owned.inj (ino', pos) (ino', t) h0 hp.symm)).2
    exact hpos ht
  · have hdirne : ((dir : Nat) : Int) ≠ -1 := by omega
    have hinone : ((ino' : Nat) : Int) ≠ -1 := by omega
    obtain ⟨x, -, hread, hdir, -, -⟩ := edPath_entry hdel.parent hdirne hres hinone
    obtain ⟨n, hn, -, rfl, -⟩ := edReadInode_returns S.whole hread
    obtain rfl := Int.ofNat.inj hn
    rw [isDir_ofInode] at hdir
    exact hdir
  · have hnone := hkeep dir name blocks hdel.parent hdel.deletes hdel.removed.read
    obtain ⟨d₁, hd₁, ht⟩ := hdel.removed.touched S hdel.dir_valid hnone
    refine hkept dir hne.symm fun pos h0 => ?_
    rw [hd₁.disk]
    exact ht.used _ (S.dataBlock dir pos h0) (S.owned.used (dir, pos) h0)

end

/-- In every image of every run that keeps the blocks of its directories: a deletion of a regular
file that returns true frees all blocks of the file exactly when the file has no direct pointer past
its size, and none of another file; none of another directory either, if it keeps the blocks of
its own. -/
theorem edDelete_releases {totalInodes : Nat} {img₀ img₁ img img' : DiskImage}
    (ht : TableCount totalInodes) (hf : formatDisk totalInodes img₀ = (.ok (), img₁))
    (hr : RunBy edStep KeepsDirBlocks img₁ img) {path : PyStr} {ino : Nat}
    (hres : edPathResolve path img = (.ok (ino : Int), img))
    (hfile : (img.disk.inodeAt img.sb ino).isDir = false)
    (h : edDelete path img = (.ok true, img')) :
    (DeleteReleases img img' ino ↔ (img.disk.inodeAt img.sb ino).NoDirectPast)
    ∧ (img.KeepsBlocks path → ∀ i, i ≠ ino → BlocksKept img img' i) := by
  have S₁ := formatDisk_sound hf
  rw [formatDisk_inTable ht hf] at S₁
  have S := edRun_sound hr S₁
  obtain ⟨hown, dir, hdir, hothers, hparent⟩ := edDelete_blocks S hres hfile h
  have hkept : ∀ i, i ≠ ino → (img.disk.inodeAt img.sb i).isDir = false →
      BlocksKept img img' i := by
    intro i hi hreg
    refine hothers i hi ?_
    rintro rfl
    rw [hreg] at hdir
    cases hdir
  refine ⟨⟨fun hrel j hj => ?_, fun hpast => ⟨fun pos h0 => ?_, hkept⟩⟩, fun hkeep i hi => ?_⟩
  · by_contra h0
    have hne : img.disk.ptr (img.disk.inodeAt img.sb ino) (.direct j) ≠ 0 :=
      fun hc => h0 (UInt32.toNat.inj hc)
    have hnot : ¬ deletePos (img.disk.inodeAt img.sb ino) (.direct j) := Nat.not_lt.mpr hj
    have hused := (hown (.direct j) hne).mpr hnot
    rw [hrel.1 (.direct j) hne] at hused
    cases hused
  · rw [Bool.eq_false_iff, ne_eq, hown pos h0, not_not]
    cases pos with
    | direct j =>
        refine Nat.not_le.mp fun hj => h0 ?_
        show ((img.disk.inodeAt img.sb ino).direct j).toNat = 0
        rw [hpast j hj]
        rfl
    | _ => trivial
  · rcases em (i = dir) with rfl | hne
    · exact hparent hkeep
    · exact hothers i hi hne

theorem imageAfter_delete {cs : List EdCommand} {path : PyStr} {b : Bool}
    (h : (EdCommand.run (.delete path) (imageAfter cs)).1 = .ok b) :
    edDelete path (imageAfter cs) = (.ok b, imageAfter (cs ++ [.delete path])) := by
  unfold imageAfter
  rw [List.foldl_concat]
  exact Prod.ext h rfl

/-- The deletion of the file `/a` of the two. -/
theorem edDelete_releases_two :
    (DeleteReleases (imageAfter twoFiles) (imageAfter (twoFiles ++ [.delete ['/', 'a']])) 3
      ↔ ((imageAfter twoFiles).disk.inodeAt (imageAfter twoFiles).sb 3).NoDirectPast)
    ∧ ((imageAfter twoFiles).KeepsBlocks ['/', 'a'] → ∀ i, i ≠ 3 →
      BlocksKept (imageAfter twoFiles) (imageAfter (twoFiles ++ [.delete ['/', 'a']])) i) := by
  have ht : TableCount 6 := by decide
  have hrun : RunBy edStep KeepsDirBlocks (imageAfter []) (imageAfter twoFiles) :=
    (Relation.ReflTransGen.single ⟨.writeText ['/', 'a'] ['x'], trivial, twoFiles_run.1⟩).tail
      ⟨.writeText ['/', 'b'] ['y'], trivial, twoFiles_run.2⟩
  have hres : edPathResolve ['/', 'a'] (imageAfter twoFiles)
      = (.ok ((3 : Nat) : Int), imageAfter twoFiles) :=
    run_of_toOption (keeps_edPathResolve ['/', 'a']) (by decide +kernel)
  have hfile : ((imageAfter twoFiles).disk.inodeAt (imageAfter twoFiles).sb 3).isDir = false := by
    decide +kernel
  have hdelete : (EdCommand.run (.delete ['/', 'a']) (imageAfter twoFiles)).1 = .ok true := by
    decide +kernel
  exact edDelete_releases ht formatDisk_six hrun hres hfile (imageAfter_delete hdelete)

/-- A file written, emptied by a second `write_text`, and another file. -/
def emptiedFile : List EdCommand :=
  [.writeText ['/', 'a'] ['x'], .writeText ['/', 'a'] [], .writeText ['/', 'b'] ['y']]

/-- The block of the emptied file stays marked used when the file is deleted. -/
theorem edDelete_keeps_block :
    TableCount 6 ∧ formatDisk 6 blankImage = (.ok (), imageAfter [])
    ∧ RunBy edStep KeepsDirBlocks (imageAfter []) (imageAfter emptiedFile)
    ∧ edPathResolve ['/', 'a'] (imageAfter emptiedFile)
      = (.ok ((3 : Nat) : Int), imageAfter emptiedFile)
    ∧ ((imageAfter emptiedFile).disk.inodeAt (imageAfter emptiedFile).sb 3).isDir = false
    ∧ edDelete ['/', 'a'] (imageAfter emptiedFile)
      = (.ok true, imageAfter (emptiedFile ++ [.delete ['/', 'a']]))
    ∧ ¬ DeleteReleases (imageAfter emptiedFile)
      (imageAfter (emptiedFile ++ [.delete ['/', 'a']])) 3 := by
  have hempty : edStep (.writeText ['/', 'a'] []) (imageAfter [.writeText ['/', 'a'] ['x']])
      = some (imageAfter [.writeText ['/', 'a'] ['x'], .writeText ['/', 'a'] []]) :=
    @edStep_imageAfter [.writeText ['/', 'a'] ['x']] (.writeText ['/', 'a'] []) (by decide +kernel)
  have hother : edStep (.writeText ['/', 'b'] ['y'])
      (imageAfter [.writeText ['/', 'a'] ['x'], .writeText ['/', 'a'] []])
      = some (imageAfter emptiedFile) :=
    @edStep_imageAfter [.writeText ['/', 'a'] ['x'], .writeText ['/', 'a'] []]
      (.writeText ['/', 'b'] ['y']) (by decide +kernel)
  have hdelete : (EdCommand.run (.delete ['/', 'a']) (imageAfter emptiedFile)).1 = .ok true := by
    decide +kernel
  have h0 : (imageAfter emptiedFile).disk.ptr
      ((imageAfter emptiedFile).disk.inodeAt (imageAfter emptiedFile).sb 3) (.direct 0) ≠ 0 := by
    decide +kernel
  have hused : (imageAfter (emptiedFile ++ [.delete ['/', 'a']])).disk.blockUsed
      (imageAfter emptiedFile).sb ((imageAfter emptiedFile).disk.ptr
        ((imageAfter emptiedFile).disk.inodeAt (imageAfter emptiedFile).sb 3) (.direct 0))
      = true := by decide +kernel
  refine ⟨by decide, formatDisk_six, ?_, ?_, by decide +kernel, imageAfter_delete hdelete,
    fun hrel => ?_⟩
  · exact ((Relation.ReflTransGen.single
      ⟨.writeText ['/', 'a'] ['x'], trivial, twoFiles_run.1⟩).tail
      ⟨.writeText ['/', 'a'] [], trivial, hempty⟩).tail
        ⟨.writeText ['/', 'b'] ['y'], trivial, hother⟩
  · exact run_of_toOption (keeps_edPathResolve ['/', 'a']) (by decide +kernel)
  · rw [hrel.1 (.direct 0) h0] at hused
    cases hused

end IpoOs
