import IpoOs.FsImage

/-!
# The space a deleted file gives back

`ipo_fs_delete` returns the blocks that `free_inode` visits. These are
all the blocks of the file exactly when it has no doubly indirect block
and no direct block past its recorded size; otherwise the others stay
marked although nothing points to them any more.

Nothing needs to be known of the path but the entry it leads to. The
condition is on the record of the deleted inode alone, so it can be checked
before the call.

The example is a file that has size 0 and holds every block that was free: a
text write of no bytes takes them, and a deletion by size finds none of
them.
-/

namespace IpoOs

/-- The bitmaps after a deletion are those before it less the blocks reachable from
inode `ino` and less the inode. -/
structure SpaceReturned (sb : Superblock) (ino : Nat) (d d' : Disk) : Prop where
  blocks : ∀ p, sb.DataBlock p → (d'.blockUsed sb p = true ↔
    d.blockUsed sb p = true ∧ ¬ ∃ pos, d.ptr (d.inodeAt sb ino) pos = p)
  inodes : ∀ i, sb.ValidIno i → (d'.inodeUsed sb i = true ↔ d.inodeUsed sb i = true ∧ i ≠ ino)

/-- No doubly indirect block, and no direct block past the recorded size. -/
def Inode.Releasable (r : Inode) : Prop :=
  r.doubleIndirect = 0 ∧ ∀ j : Fin 6, sizeBlocks r ≤ j.val → r.direct j = 0

/-- The entry a path names: the last component looked up in its parent. -/
def PathEntry (u : Block) (sb : Superblock) (d : Disk) (path : Str) (de : DirEntry) : Prop :=
  ∃ parent name p k, (pathResolveParent (arrayDev u) sb path d).1 = some (parent, name)
    ∧ (dirFindEntry (arrayDev u) sb parent name d).1 = some (de, p, k)

theorem PathEntry.unique {u : Block} {sb : Superblock} {d : Disk} {path : Str} {de de' : DirEntry}
    (h : PathEntry u sb d path de) (h' : PathEntry u sb d path de') : de = de' := by
  obtain ⟨parent, name, p, k, hp, hf⟩ := h
  obtain ⟨parent', name', p', k', hp', hf'⟩ := h'
  rw [hp] at hp'
  obtain ⟨rfl, rfl⟩ := Prod.mk.inj (Option.some.inj hp')
  rw [hf] at hf'
  exact (Prod.mk.inj (Option.some.inj hf')).1

theorem dirFindEntry_isDir {u : Block} {sb : Superblock} {d : Disk} {dir : Nat} {name : Str}
    {f : DirEntry × Nat × Nat} (h : (dirFindEntry (arrayDev u) sb dir name d).1 = some f) :
    sb.ValidIno dir ∧ (d.inodeAt sb dir).isDir = true := by
  rcases em (sb.ValidIno dir) with hv | hv
  · refine ⟨hv, ?_⟩
    by_contra hdir
    simp [dirFindEntry, readInode_array, hv, hdir] at h
  · simp [dirFindEntry, readInode_array, hv] at h

section

variable {sb : Superblock} {hi : Nat} {d d' : Disk} (L : SoundLayout sb) (B : BlockBound sb hi)
  (u : Block)

theorem Inode.releasable_iff (d : Disk) (r : Inode) :
    r.Releasable ↔ ∀ pos, d.ptr r pos ≠ 0 → freePos r pos := by
  constructor
  · rintro ⟨hdouble, hdirect⟩ pos h0
    have hnull : r.doubleIndirect.toNat = 0 := by rw [hdouble]; rfl
    cases pos with
    | direct j =>
        show j.val < min 6 (sizeBlocks r)
        by_contra hj
        have hlt := j.isLt
        refine h0 ?_
        rw [Disk.ptr, hdirect j (by omega), UInt32.toNat_zero]
    | indirect => trivial
    | single j => trivial
    | double => exact absurd hnull h0
    | table j =>
        rw [Disk.ptr, hnull, Disk.entry, if_pos rfl] at h0
        exact absurd rfl h0
    | leaf j k =>
        rw [Disk.ptr, hnull, Disk.entry, Disk.entry, if_pos rfl, if_pos rfl] at h0
        exact absurd rfl h0
  · intro h
    refine ⟨?_, fun j hj => ?_⟩
    · by_contra hc
      exact h .double fun h0 => hc (UInt32.toNat_inj.mp h0)
    · by_contra hc
      have hlt : j.val < min 6 (sizeBlocks r) :=
        h (.direct j) fun h0 => hc (UInt32.toNat_inj.mp h0)
      omega

include L B

theorem dirRemoveEntry_blockUsed (O : OwnedVol sb hi d) (dir : Nat) (name : Str) {p : Nat}
    (hp : sb.DataBlock p) :
    (dirRemoveEntry (arrayDev u) sb dir name d).2.blockUsed sb p = d.blockUsed sb p := by
  rcases dirRemoveEntry_cases u d dir name with h | ⟨k, q, -, -, -, hq, -, -, -, h⟩
  · rw [h]
  · rw [h]
    obtain ⟨pos, -, rfl, hq0, -⟩ := Disk.lookup_eq_some.mp hq
    have hdb : sb.DataBlock (d.ptr (d.inodeAt sb dir) pos) := O.dataBlock B (s := (dir, pos)) hq0
    exact L.blockUsed_set hdb hp _

theorem deleteEntry_released (O : OwnedVol sb hi d) {path : Str} {de : DirEntry}
    (hde : PathEntry u sb d path de) (hfile : (d.inodeAt sb de.inode.toNat).isDir = false)
    (hrun : deleteEntry path (arrayDev u) sb d = (true, d')) :
    (∀ p, sb.DataBlock p → (d'.blockUsed sb p = true ↔ d.blockUsed sb p = true
      ∧ ¬ ∃ pos, freePos (d.inodeAt sb de.inode.toNat) pos
        ∧ d.ptr (d.inodeAt sb de.inode.toNat) pos = p))
    ∧ ∀ i, sb.ValidIno i →
      (d'.inodeUsed sb i = true ↔ d.inodeUsed sb i = true ∧ i ≠ de.inode.toNat) := by
  rcases deleteEntry_cases L B u O path with h | ⟨parent, name, de', d₁, d₂, hok, hrem, hfreed, h⟩
  · rw [h] at hrun
    cases (Prod.mk.inj hrun).1
  · rw [h] at hrun
    obtain ⟨-, rfl⟩ := Prod.mk.inj hrun
    obtain ⟨p, k, hf⟩ := hok.found
    obtain rfl := hde.unique ⟨parent, name, p, k, hok.resolve, hf⟩
    have hne : de.inode.toNat ≠ parent := by
      intro heq
      have hdir := (dirFindEntry_isDir hf).2
      rw [← heq, hfile] at hdir
      cases hdir
    have ht := dirRemoveEntry_touched L B u O parent name
    rw [hrem] at ht
    have hused : ∀ p, sb.DataBlock p → d₁.blockUsed sb p = d.blockUsed sb p := by
      intro p hp
      have hb := dirRemoveEntry_blockUsed L B u O parent name hp
      rwa [hrem] at hb
    refine ⟨fun p hp => ?_, fun i hv => ?_⟩
    · rw [hfreed.used p hp, hused p hp, ht.inodeAt _ hne]
      refine and_congr_right fun _ => not_congr (exists_congr fun pos => ?_)
      rw [(ht.same _ hne).ptr pos]
      exact and_congr_right fun _ => ⟨fun h => h.1.symm, fun h => ⟨h.symm, L.dataBlock_ne_zero hp⟩⟩
    · rw [hfreed.inodeUsed i hv, ht.inodeUsed i hv]
      split
      · rename_i heq
        simp [heq]
      · rename_i hne'
        simp [hne']

end

/-- A successful deletion of a regular file returns all of its space exactly when
the file has no doubly indirect block and no direct block past its size. -/
theorem ipoFsDelete_returns_space {u : Block} {k k' : Kernel Disk} (L : SoundLayout k.sb)
    (O : OwnedVol k.sb k.sb.fsSizeBlocks.toNat k.disk) {path : CString} {de : DirEntry}
    (hde : PathEntry u k.sb k.disk path.chars de)
    (hfile : (k.disk.inodeAt k.sb de.inode.toNat).isDir = false)
    (hrun : ipoFsDelete (diskDev u) path k = (true, k')) :
    SpaceReturned k.sb de.inode.toNat k.disk k'.disk
      ↔ (k.disk.inodeAt k.sb de.inode.toNat).Releasable := by
  rw [ipoFsDelete_run] at hrun
  split at hrun
  · obtain ⟨h1, rfl⟩ := Prod.mk.inj hrun
    obtain ⟨hblocks, hinodes⟩ := deleteEntry_released L (blockBound_size k.sb) u O hde hfile
      (Prod.ext h1 rfl)
    constructor
    · intro hspace
      refine (Inode.releasable_iff k.disk _).mpr fun pos h0 => ?_
      have hdb : k.sb.DataBlock (k.disk.ptr (k.disk.inodeAt k.sb de.inode.toNat) pos) :=
        O.dataBlock (blockBound_size k.sb) (s := (de.inode.toNat, pos)) h0
      have hused := O.used (de.inode.toNat, pos) h0
      -- the block is released, so a visited position points to it
      obtain ⟨t, ht, hp⟩ : ∃ t, freePos (k.disk.inodeAt k.sb de.inode.toNat) t
          ∧ k.disk.ptr (k.disk.inodeAt k.sb de.inode.toNat) t
            = k.disk.ptr (k.disk.inodeAt k.sb de.inode.toNat) pos := by
        by_contra hno
        exact ((hspace.blocks _ hdb).mp ((hblocks _ hdb).mpr ⟨hused, hno⟩)).2 ⟨pos, rfl⟩
      have hinj := O.inj (de.inode.toNat, pos) (de.inode.toNat, t) h0 hp.symm
      rw [(Prod.mk.inj hinj).2]
      exact ht
    · intro hrel
      refine ⟨fun p hp => ?_, hinodes⟩
      rw [hblocks p hp]
      refine and_congr_right fun _ => not_congr (exists_congr fun pos => ?_)
      refine ⟨And.right, fun h => ⟨?_, h⟩⟩
      refine (Inode.releasable_iff k.disk _).mp hrel pos ?_
      rw [h]
      exact L.dataBlock_ne_zero hp
  · cases (Prod.mk.inj hrun).1

/-- The path `/x`. -/
def xPath : CString := rootPath [120] (by decide)

/-- The mounted kernel after the empty text was written to `/x`: the file has size 0
and holds every block that was free. -/
def emptyTextKernel : Kernel Disk :=
  (ipoFsWriteText (diskDev Buf.zero) xPath ⟨[], by decide⟩ false (mountedKernel 12 6)).2

theorem emptyTextKernel_run :
    FsRun Buf.zero (fun _ _ => True) (formattedKernel 12 6) emptyTextKernel :=
  mountedKernel_run.tail ⟨.writeText xPath ⟨[], by decide⟩ false, trivial, rfl⟩

theorem emptyTextKernel_volOk : VolOk emptyTextKernel :=
  FsRun.volOk emptyTextKernel_run (ipoFsFormat_ok formattedKernel_run (by decide) (by decide))

/-- The kernel after `/x` was deleted again. -/
def deletedKernel : Kernel Disk := (ipoFsDelete (diskDev Buf.zero) xPath emptyTextKernel).2

/-- The path leads to a file of its own, inode 4, and the deletion succeeds. -/
theorem emptyTextKernel_delete :
    (∃ de, PathEntry Buf.zero emptyTextKernel.sb emptyTextKernel.disk xPath.chars de
      ∧ de.inode = 4)
    ∧ (emptyTextKernel.disk.inodeAt emptyTextKernel.sb 4).isDir = false
    ∧ ipoFsDelete (diskDev Buf.zero) xPath emptyTextKernel = (true, deletedKernel) := by
  have hp : (pathResolveParent (arrayDev Buf.zero) emptyTextKernel.sb xPath.chars
      emptyTextKernel.disk).1 = some (1, [120]) := by decide +kernel
  have hf : (dirFindEntry (arrayDev Buf.zero) emptyTextKernel.sb 1 [120]
      emptyTextKernel.disk).1.map (fun f => f.1.inode) = some 4 := by decide +kernel
  obtain ⟨⟨de, p, k⟩, hf, hino⟩ := Option.map_eq_some_iff.mp hf
  have hres : (ipoFsDelete (diskDev Buf.zero) xPath emptyTextKernel).1 = true := by decide +kernel
  refine ⟨⟨de, ⟨1, [120], p, k, hp, hf⟩, hino⟩, by decide +kernel, ?_⟩
  rw [← hres, deletedKernel]

theorem ipoFsDelete_returns_space_text : ∃ de : DirEntry, de.inode = 4 ∧
    (SpaceReturned emptyTextKernel.sb de.inode.toNat emptyTextKernel.disk deletedKernel.disk
      ↔ (emptyTextKernel.disk.inodeAt emptyTextKernel.sb de.inode.toNat).Releasable) := by
  obtain ⟨⟨de, hde, hino⟩, hkind, hrun⟩ := emptyTextKernel_delete
  have hfile : (emptyTextKernel.disk.inodeAt emptyTextKernel.sb
      de.inode.toNat).isDir = false := by
    rw [hino]
    exact hkind
  exact ⟨de, hino, ipoFsDelete_returns_space emptyTextKernel_volOk.layout
    (emptyTextKernel_volOk.owned.raise emptyTextKernel_volOk.bound.le) hde hfile
    hrun⟩

/-- After the empty text is written to a new file and the file is deleted, its blocks
are still marked. -/
theorem ipoFsDelete_keeps_blocks :
    FsRun Buf.zero (fun _ _ => True) (formattedKernel 12 6) emptyTextKernel
    ∧ VolOk emptyTextKernel
    ∧ (∃ de, PathEntry Buf.zero emptyTextKernel.sb emptyTextKernel.disk xPath.chars de
      ∧ de.inode = 4)
    ∧ (emptyTextKernel.disk.inodeAt emptyTextKernel.sb 4).mode = typeFile.toUInt32
    ∧ ipoFsDelete (diskDev Buf.zero) xPath emptyTextKernel = (true, deletedKernel)
    ∧ ¬ SpaceReturned emptyTextKernel.sb 4 emptyTextKernel.disk deletedKernel.disk := by
  refine ⟨emptyTextKernel_run, emptyTextKernel_volOk, emptyTextKernel_delete.1, by decide +kernel,
    emptyTextKernel_delete.2.2, fun h => ?_⟩
  have hdb : emptyTextKernel.sb.DataBlock 11 := ⟨by decide +kernel, by decide +kernel⟩
  have hused : deletedKernel.disk.blockUsed emptyTextKernel.sb 11 = true := by decide +kernel
  have hptr : emptyTextKernel.disk.ptr (emptyTextKernel.disk.inodeAt emptyTextKernel.sb 4)
      (.direct 5) = 11 := by decide +kernel
  exact ((h.blocks 11 hdb).mp hused).2 ⟨.direct 5, hptr⟩

end IpoOs
