import IpoOs.FsFormat

/-!
# A freshly made volume

The kernel before anything is mounted, the same kernel after a format of
a blank disk and after the mount of it. These are the starting points of
the runs on which the results about runs are tried.

The volume has twelve blocks and six inodes, which is enough for a root,
`/app`, `/autorun` and a few files. The facts about it are closed and are
evaluated by the kernel of the proof checker.
-/

namespace IpoOs

/-- A kernel before anything is mounted, over a blank disk. -/
def blankKernel : Kernel Disk where
  sb := Superblock.zero
  fsStartLba := 0
  fsMounted := false
  fds := fun _ => ⟨false, 0, 0⟩
  disk := fun _ => Buf.zero

/-- The kernel after a format of the blank disk. -/
def formattedKernel (totalBlocks totalInodes : UInt32) : Kernel Disk :=
  (ipoFsFormat (diskDev Buf.zero) 0 totalBlocks totalInodes blankKernel).2

/-- The kernel after a format of the blank disk and a mount. -/
def mountedKernel (totalBlocks totalInodes : UInt32) : Kernel Disk :=
  (ipoFsMount (diskDev Buf.zero) 0 (formattedKernel totalBlocks totalInodes)).2

theorem formattedKernel_ok : (ipoFsFormat (diskDev Buf.zero) 0 12 6 blankKernel).1 = true := by
  decide +kernel

theorem formattedKernel_run :
    ipoFsFormat (diskDev Buf.zero) 0 12 6 blankKernel = (true, formattedKernel 12 6) := by
  rw [← formattedKernel_ok, formattedKernel]

theorem formattedKernel_start : (formattedKernel 12 6).fsStartLba = 0 := by decide +kernel

theorem mountedKernel_run :
    FsRun Buf.zero (fun _ _ => True) (formattedKernel 12 6) (mountedKernel 12 6) := by
  refine Relation.ReflTransGen.single ⟨.mount, trivial, ?_⟩
  rw [mountedKernel, ← formattedKernel_start]
  exact rfl

theorem mountedKernel_volOk : VolOk (mountedKernel 12 6) :=
  FsRun.volOk mountedKernel_run (ipoFsFormat_ok formattedKernel_run (by decide) (by decide))

theorem mountedKernel_root : (mountedKernel 12 6).sb.ValidIno 1
    ∧ ((mountedKernel 12 6).disk.inodeAt (mountedKernel 12 6).sb 1).isDir = true := by
  decide +kernel

def rootPath (name : Str) (h : (0 : UInt8) ∉ slash :: name) : CString := ⟨slash :: name, h⟩

/-- The mounted kernel with `/autorun` opened. -/
def openedKernel : Kernel Disk :=
  (ipoFsOpen (diskDev Buf.zero) (rootPath autorunName (by decide)) (mountedKernel 12 6)).2

theorem openedKernel_volOk : VolOk openedKernel := by
  have hrun : FsRun Buf.zero (fun _ _ => True) (mountedKernel 12 6) openedKernel :=
    Relation.ReflTransGen.single ⟨.openFd (rootPath autorunName (by decide)), trivial, rfl⟩
  exact FsRun.volOk hrun mountedKernel_volOk

theorem openedKernel_fdOk : openedKernel.fdOk 0 :=
  ⟨by decide, by decide, by decide +kernel⟩

end IpoOs
