import IpoOs.EdFormat

/-!
# Block ownership in runs of the editor

A deletion that leaves its directory with fewer blocks clears their bits
and keeps their pointers. In a run without such a deletion every pointer
of every inode slot is in the data region, marked used, and the only
pointer to its block.

The example run writes two files and deletes one of them, which leaves the
root with its block. The deletion of a single file from the root is the
other case: the root is left without entries of its own blocks, and its
pointer stays.
-/

namespace IpoOs

/-- Every pointer of every inode slot is in the data region, marked used, and the only pointer to
its block. -/
def DiskImage.BlocksOwned (img : DiskImage) : Prop :=
  Owned img.sb.dataBlocksStart.toNat img.sb.fsSizeBlocks.toNat
    (fun p => img.disk.blockUsed img.sb p = true)
    (fun s : Nat × Pos => img.disk.ptr (img.disk.inodeAt img.sb s.1) s.2)

/-- In every image of every run that keeps the blocks of its directories the pointers are owned,
and `allocate_block` hands out no block that has a pointer. -/
theorem edBlocksOwned_of_run {totalInodes : Nat} {img₀ img₁ img : DiskImage}
    (ht : TableCount totalInodes) (hf : formatDisk totalInodes img₀ = (.ok (), img₁))
    (hr : RunBy edStep KeepsDirBlocks img₁ img) :
    img.BlocksOwned
    ∧ ∀ (p : Nat) (img' : DiskImage), edAllocateBlock img = (.ok (p : Int), img') →
      ∀ i pos, img.disk.ptr (img.disk.inodeAt img.sb i) pos ≠ p := by
  have S₁ := formatDisk_sound hf
  rw [formatDisk_inTable ht hf] at S₁
  have S := edRun_sound hr S₁
  refine ⟨S.owned, fun p img' halloc i pos hp => ?_⟩
  rcases edAllocateBlock_run S.whole with ⟨q, hq, hfree, hrun⟩ | ⟨-, hrun⟩
  · rw [halloc] at hrun
    obtain rfl : p = q := Int.ofNat.inj (Except.ok.inj (Prod.mk.inj hrun).1)
    have h0 : volPtr (img.disk.inodeAt img.sb) img.disk (i, pos) ≠ 0 := by
      show img.disk.ptr _ _ ≠ 0
      rw [hp]
      exact S.whole.sound.dataBlock_ne_zero hq
    have hused : img.disk.blockUsed img.sb (img.disk.ptr (img.disk.inodeAt img.sb i) pos) = true :=
      S.owned.used (i, pos) h0
    rw [hp, hfree] at hused
    cases hused
  · rw [halloc] at hrun
    cases (Prod.mk.inj hrun).1

/-- Two files written to the root of a new volume. -/
def twoFiles : List EdCommand := [.writeText ['/', 'a'] ['x'], .writeText ['/', 'b'] ['y']]

theorem twoFiles_run :
    edStep (.writeText ['/', 'a'] ['x']) (imageAfter [])
      = some (imageAfter [.writeText ['/', 'a'] ['x']])
    ∧ edStep (.writeText ['/', 'b'] ['y']) (imageAfter [.writeText ['/', 'a'] ['x']])
      = some (imageAfter twoFiles) :=
  ⟨@edStep_imageAfter [] (.writeText ['/', 'a'] ['x']) (by decide +kernel),
    @edStep_imageAfter [.writeText ['/', 'a'] ['x']] (.writeText ['/', 'b'] ['y'])
      (by decide +kernel)⟩

/-- The deletion of the first of them leaves the root with its block. -/
theorem twoFiles_keepsBlocks : (imageAfter twoFiles).KeepsBlocks ['/', 'a'] := by
  have hpath : (edPathParent ['/', 'a'] (imageAfter twoFiles)).1.toOption
      = some (((1 : Nat) : Int), ['a']) := by decide +kernel
  have hsize : ((imageAfter twoFiles).disk.inodeAt (imageAfter twoFiles).sb 1).size.toNat
      = 144 := by
    decide +kernel
  have hkept : ((edReadAll (PyInode.ofInode
      ((imageAfter twoFiles).disk.inodeAt (imageAfter twoFiles).sb 1)) 1 0
      (imageAfter twoFiles)).1.toOption.join).map (fun blocks => blocksKept blocks ['a'] 144)
      = some 1 := by decide +kernel
  obtain ⟨blocks, hjoin, hone⟩ := Option.map_eq_some_iff.mp hkept
  have hparent : edPathParent ['/', 'a'] (imageAfter twoFiles)
      = (.ok (((1 : Nat) : Int), ['a']), imageAfter twoFiles) :=
    run_of_toOption (keeps_edPathParent ['/', 'a']) hpath
  have hread : edReadAll (PyInode.ofInode
      ((imageAfter twoFiles).disk.inodeAt (imageAfter twoFiles).sb 1)) 1 0 (imageAfter twoFiles)
      = (.ok (some blocks), imageAfter twoFiles) :=
    run_of_toOption (keeps_edReadAll _ 1 0) (Option.join_eq_some_iff.mp hjoin)
  refine @DiskImage.keepsBlocks_of _ _ _ _ blocks hparent ?_ ?_
  · rw [hsize]
    exact hread
  · rw [hsize]
    exact hone

theorem edBlocksOwned_of_run_two : (imageAfter (twoFiles ++ [.delete ['/', 'a']])).BlocksOwned := by
  have ht : TableCount 6 := by decide
  have hrun : RunBy edStep KeepsDirBlocks (imageAfter [])
      (imageAfter (twoFiles ++ [.delete ['/', 'a']])) :=
    ((Relation.ReflTransGen.single ⟨.writeText ['/', 'a'] ['x'], trivial, twoFiles_run.1⟩).tail
      ⟨.writeText ['/', 'b'] ['y'], trivial, twoFiles_run.2⟩).tail
      ⟨.delete ['/', 'a'], twoFiles_keepsBlocks, edStep_imageAfter (by decide +kernel)⟩
  exact (edBlocksOwned_of_run ht formatDisk_six hrun).1

/-- A file written to the root of a new volume and deleted again. -/
def emptiedRoot : List EdCommand := [.writeText ['/', 'a'] ['x'], .delete ['/', 'a']]

/-- The root keeps its pointer to the block whose bit was cleared. -/
theorem edDelete_keeps_pointer :
    TableCount 6 ∧ formatDisk 6 blankImage = (.ok (), imageAfter [])
    ∧ RunBy edStep (fun _ _ => True) (imageAfter []) (imageAfter emptiedRoot)
    ∧ ¬ (imageAfter emptiedRoot).BlocksOwned := by
  have hdelete : edStep (.delete ['/', 'a']) (imageAfter [.writeText ['/', 'a'] ['x']])
      = some (imageAfter emptiedRoot) :=
    @edStep_imageAfter [.writeText ['/', 'a'] ['x']] (.delete ['/', 'a']) (by decide +kernel)
  have h0 : (imageAfter emptiedRoot).disk.ptr
      ((imageAfter emptiedRoot).disk.inodeAt (imageAfter emptiedRoot).sb 1) (.direct 0) ≠ 0 := by
    decide +kernel
  have hfree : (imageAfter emptiedRoot).disk.blockUsed (imageAfter emptiedRoot).sb
      ((imageAfter emptiedRoot).disk.ptr
        ((imageAfter emptiedRoot).disk.inodeAt (imageAfter emptiedRoot).sb 1) (.direct 0))
      = false := by decide +kernel
  refine ⟨by decide, formatDisk_six, ?_, fun hown => ?_⟩
  · exact (Relation.ReflTransGen.single ⟨_, trivial, twoFiles_run.1⟩).tail ⟨_, trivial, hdelete⟩
  · have hused := hown.used (1, .direct 0) h0
    dsimp only at hused
    rw [hfree] at hused
    cases hused

end IpoOs
