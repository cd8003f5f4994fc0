import IpoOs.FsRelease
import IpoOs.FsDirMap

/-!
# The deletion of a directory

`ipo_fs_delete` takes a directory for empty by its size, which counts
slots: the dots are among them in the directories of `ipo_fs_format` only,
and a removed entry leaves its slot behind. What the function decides is
compared here with the live entries, on every volume.

The equivalence separates the two ways in which the size misleads: a
directory with dots, or with dead slots, is larger than its entries, and a
directory without dots may have two files in it and pass the test.
-/

namespace IpoOs

/-- No live entry but the two dots. -/
def Disk.DirEmpty (d : Disk) (r : Inode) : Prop :=
  ∀ e s, e < r.slots → d.dirSlot r e = some s → s.inode ≠ 0 → s.nameBytes = dot
    ∨ s.nameBytes = dotdot

/-- The directory of an entry is too large to be taken for empty: more than two slots. -/
def Disk.Oversized (d : Disk) (sb : Superblock) (de : DirEntry) : Prop :=
  de.type = typeDir ∧ 144 < (d.inodeAt sb de.inode.toNat).size.toNat

section

variable {sb : Superblock} {d : Disk} (u : Block)

/-- The result of a deletion, when the path names an entry of an unprotected inode. -/
theorem deleteEntry_iff {path name : Str} {parent p k : Nat} {de : DirEntry}
    (hp : (pathResolveParent (arrayDev u) sb path d).1 = some (parent, name))
    (hf : (dirFindEntry (arrayDev u) sb parent name d).1 = some (de, p, k))
    (hv : sb.ValidIno de.inode.toNat) (hprot : (d.inodeAt sb de.inode.toNat).isProtected = false) :
    (deleteEntry path (arrayDev u) sb d).1 = true
      ↔ ¬ d.Oversized sb de ∧ d.Removable sb parent name := by
  have hp' : pathResolveParent (arrayDev u) sb path d = (some (parent, name), d) :=
    Prod.ext hp (readOnly_pathResolveParent u sb path d)
  have hf' : dirFindEntry (arrayDev u) sb parent name d = (some (de, p, k), d) :=
    Prod.ext hf (readOnly_dirFindEntry u sb parent name d)
  rw [← dirRemoveEntry_iff u]
  generalize hrem : dirRemoveEntry (arrayDev u) sb parent name d = res
  obtain ⟨ok, d₁⟩ := res
  rcases em (d.Oversized sb de) with hbig | hbig
  · have hfalse : (deleteEntry path (arrayDev u) sb d).1 = false := by
      have hbig' : de.type = typeDir ∧ (d.inodeAt sb de.inode.toNat).size.toNat > 144 := hbig
      simp [deleteEntry, hp', hf', readInode_array, hv, hprot, hbig']
    simp [hfalse, hbig]
  · have hbig' : ¬ (de.type = typeDir ∧ (d.inodeAt sb de.inode.toNat).size.toNat > 144) := hbig
    cases ok with
    | true =>
        simp only [deleteEntry, Prog.run_bind, hp', hf', readInode_array, hv, if_true, hprot,
          Bool.false_eq_true, if_false, Option.getD_some, hbig', hrem, Prog.run_pure]
        simp [hbig]
    | false =>
        simp only [deleteEntry, Prog.run_bind, hp', hf', readInode_array, hv, if_true, hprot,
          Bool.false_eq_true, if_false, Option.getD_some, hbig', hrem, Prog.run_pure]
        simp

end

/-- On a mounted volume in any state a path that names an unprotected directory is deleted
exactly when the directory is empty, if and only if the size tells whether it is: it is
empty, has at most two slots or another type in its entry, and the entry can be removed;
or it is not empty, and has more slots than that or an entry that cannot be removed. -/
theorem ipoFsDelete_empty {u : Block} {k : Kernel Disk} (hm : k.fsMounted = true) {path : CString}
    {parent p i : Nat} {name : Str} {de : DirEntry}
    (hp : (pathResolveParent (arrayDev u) k.sb path.chars k.disk).1 = some (parent, name))
    (hf : (dirFindEntry (arrayDev u) k.sb parent name k.disk).1 = some (de, p, i))
    (hv : k.sb.ValidIno de.inode.toNat)
    (hprot : (k.disk.inodeAt k.sb de.inode.toNat).isProtected = false) :
    ((ipoFsDelete (diskDev u) path k).1 = true
        ↔ k.disk.DirEmpty (k.disk.inodeAt k.sb de.inode.toNat))
      ↔ (k.disk.DirEmpty (k.disk.inodeAt k.sb de.inode.toNat) ∧ ¬ k.disk.Oversized k.sb de
          ∧ k.disk.Removable k.sb parent name)
        ∨ (¬ k.disk.DirEmpty (k.disk.inodeAt k.sb de.inode.toNat)
          ∧ (k.disk.Oversized k.sb de ∨ ¬ k.disk.Removable k.sb parent name)) := by
  have hrun : (ipoFsDelete (diskDev u) path k).1
      = (deleteEntry path.chars (arrayDev u) k.sb k.disk).1 := by
    rw [ipoFsDelete_run, if_pos hm]
  rw [hrun, deleteEntry_iff u hp hf hv hprot]
  rcases em (k.disk.DirEmpty (k.disk.inodeAt k.sb de.inode.toNat)) with hempty | hempty
  · simp [hempty]
  · simp only [hempty, iff_false, false_and, not_false_eq_true, true_and, false_or, not_and_or,
      not_not]

theorem noNul_d : (0 : UInt8) ∉ slash :: [100] := by decide

/-- The path `/d`. -/
def dPath : CString := rootPath [100] noNul_d

/-- The path `/d/f`. -/
def dfPath : CString := rootPath [100, 47, 102] (by decide)

/-- The kernel after a file `/d/f` was created. -/
def withFile (k : Kernel Disk) : Kernel Disk := (ipoFsCreate (diskDev Buf.zero) dfPath typeFile k).2

/-- The kernel after a file `/d/f` was created and deleted. -/
def withTombstone (k : Kernel Disk) : Kernel Disk :=
  (ipoFsDelete (diskDev Buf.zero) dfPath (withFile k)).2

/-- The mounted kernel after a directory `/d` was created. -/
def dirKernel : Kernel Disk :=
  (ipoFsCreate (diskDev Buf.zero) dPath typeDir (mountedKernel 12 6)).2

def fullKernel : Kernel Disk := withFile dirKernel

def emptiedKernel : Kernel Disk := withTombstone (withTombstone (withTombstone dirKernel))

theorem dirKernel_run : FsRun Buf.zero (fun _ _ => True) (formattedKernel 12 6) dirKernel :=
  mountedKernel_run.tail ⟨.create dPath typeDir, trivial, rfl⟩

theorem fullKernel_run : FsRun Buf.zero (fun _ _ => True) (formattedKernel 12 6) fullKernel :=
  dirKernel_run.tail ⟨.create dfPath typeFile, trivial, rfl⟩

theorem withTombstone_run {k : Kernel Disk}
    (h : FsRun Buf.zero (fun _ _ => True) (formattedKernel 12 6) k) :
    FsRun Buf.zero (fun _ _ => True) (formattedKernel 12 6) (withTombstone k) :=
  (h.tail ⟨.create dfPath typeFile, trivial, rfl⟩).tail ⟨.delete dfPath, trivial, rfl⟩

theorem emptiedKernel_run : FsRun Buf.zero (fun _ _ => True) (formattedKernel 12 6) emptiedKernel :=
  withTombstone_run (withTombstone_run (withTombstone_run dirKernel_run))

theorem fullKernel_entry : ∃ de p i, de.inode = 4
    ∧ (pathResolveParent (arrayDev Buf.zero) fullKernel.sb dPath.chars fullKernel.disk).1
      = some (1, [100])
    ∧ (dirFindEntry (arrayDev Buf.zero) fullKernel.sb 1 [100] fullKernel.disk).1
        = some (de, p, i) := by
  have hf : (dirFindEntry (arrayDev Buf.zero) fullKernel.sb 1 [100] fullKernel.disk).1.map
      (fun f => f.1.inode) = some 4 := by
    decide +kernel
  obtain ⟨⟨de, p, i⟩, hf, hino⟩ := Option.map_eq_some_iff.mp hf
  exact ⟨de, p, i, hino, by decide +kernel, hf⟩

/-- The theorem at the directory with a file in it. -/
theorem ipoFsDelete_empty_full : ∃ de : DirEntry, de.inode = 4 ∧
    (((ipoFsDelete (diskDev Buf.zero) dPath fullKernel).1 = true
        ↔ fullKernel.disk.DirEmpty (fullKernel.disk.inodeAt fullKernel.sb de.inode.toNat))
      ↔ (fullKernel.disk.DirEmpty (fullKernel.disk.inodeAt fullKernel.sb de.inode.toNat)
          ∧ ¬ fullKernel.disk.Oversized fullKernel.sb de
          ∧ fullKernel.disk.Removable fullKernel.sb 1 [100])
        ∨ (¬ fullKernel.disk.DirEmpty (fullKernel.disk.inodeAt fullKernel.sb de.inode.toNat)
          ∧ (fullKernel.disk.Oversized fullKernel.sb de
            ∨ ¬ fullKernel.disk.Removable fullKernel.sb 1 [100]))) := by
  obtain ⟨de, p, i, hino, hp, hf⟩ := fullKernel_entry
  have hv : fullKernel.sb.ValidIno de.inode.toNat := by
    rw [hino]
    exact ⟨by decide, by decide +kernel⟩
  have hprot : (fullKernel.disk.inodeAt fullKernel.sb de.inode.toNat).isProtected = false := by
    rw [hino]
    decide +kernel
  exact ⟨de, hino, ipoFsDelete_empty (by decide +kernel) hp hf hv hprot⟩

/-- A directory with a file in it is deleted, and one that had three files in it and has
none any more is not. -/
theorem ipoFsDelete_by_size :
    FsRun Buf.zero (fun _ _ => True) (formattedKernel 12 6) fullKernel ∧ VolOk fullKernel
    ∧ (∃ de, PathEntry Buf.zero fullKernel.sb fullKernel.disk dPath.chars de ∧ de.inode = 4)
    ∧ (fullKernel.disk.inodeAt fullKernel.sb 4).isDir = true
    ∧ (fullKernel.disk.inodeAt fullKernel.sb 4).isProtected = false
    ∧ (ipoFsDelete (diskDev Buf.zero) dPath fullKernel).1 = true
    ∧ ¬ fullKernel.disk.DirEmpty (fullKernel.disk.inodeAt fullKernel.sb 4)
    ∧ FsRun Buf.zero (fun _ _ => True) (formattedKernel 12 6) emptiedKernel
    ∧ (ipoFsDelete (diskDev Buf.zero) dPath emptiedKernel).1 = false
    ∧ emptiedKernel.disk.DirEmpty (emptiedKernel.disk.inodeAt emptiedKernel.sb 4) := by
  have hentry : ∃ de, PathEntry Buf.zero fullKernel.sb fullKernel.disk dPath.chars de
      ∧ de.inode = 4 := by
    obtain ⟨de, p, i, hino, hp, hf⟩ := fullKernel_entry
    exact ⟨de, ⟨1, [100], p, i, hp, hf⟩, hino⟩
  refine ⟨fullKernel_run, FsRun.volOk fullKernel_run
      (ipoFsFormat_ok formattedKernel_run (by decide) (by decide)), hentry, by decide +kernel,
    by decide +kernel, by decide +kernel, fun h => ?_, emptiedKernel_run, by decide +kernel,
    fun e s he hs hlive => ?_⟩
  · have hslot : (fullKernel.disk.dirSlot (fullKernel.disk.inodeAt fullKernel.sb 4) 0).map
        (fun s => (s.inode, s.nameBytes)) = some (5, [102]) := by
      decide +kernel
    obtain ⟨s, hs, hsv⟩ := Option.map_eq_some_iff.mp hslot
    obtain ⟨hino, hname⟩ := Prod.mk.inj hsv
    rcases h 0 s (by decide +kernel) hs (by rw [hino]; decide) with h | h
    · rw [hname] at h
      exact absurd h (by decide)
    · rw [hname] at h
      exact absurd h (by decide)
  · -- three slots, and no entry in them
    have hslots : (emptiedKernel.disk.inodeAt emptiedKernel.sb 4).slots = 3 := by decide +kernel
    have hdead : ∀ j : Fin 3, (emptiedKernel.disk.dirSlot
        (emptiedKernel.disk.inodeAt emptiedKernel.sb 4) j.val).map (fun s => s.inode) = some 0 := by
      decide +kernel
    rw [hslots] at he
    have hd := hdead ⟨e, he⟩
    rw [hs] at hd
    exact absurd (Option.some.inj hd) hlive

end IpoOs
