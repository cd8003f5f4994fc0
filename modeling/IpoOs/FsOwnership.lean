import IpoOs.FsImage

/-!
# Block ownership over whole runs

From a successful `ipo_fs_format` of sound sizes on, no sequence of calls
makes two block pointers name the same block, whatever the arguments and
however the volume fills up. The invariant is `VolOk`, which every call
keeps; here it is read for the reached state.

The conditions are those under which the format makes sound regions. No
condition is put on the calls: a volume that runs full, a write through a
descriptor of a deleted file and a rename that fails half way are all in.
-/

namespace IpoOs

/-- In every state of every run every pointer of every inode slot is in the data
region, marked used, and the only pointer to its block. -/
theorem blocksOwned_of_run {u : Block} {start totalBlocks totalInodes : UInt32}
    {k₀ k k' : Kernel Disk}
    (hf : ipoFsFormat (diskDev u) start totalBlocks totalInodes k₀ = (true, k))
    (htable : TableFits totalInodes) (hbitmap : BitmapFits totalBlocks totalInodes)
    (hr : FsRun u (fun _ _ => True) k k') :
    Owned k'.sb.dataBlocksStart.toNat k'.sb.fsSizeBlocks.toNat
      (fun p => k'.disk.blockUsed k'.sb p = true)
      (fun s : Nat × Pos => k'.disk.ptr (k'.disk.inodeAt k'.sb s.1) s.2) := by
  have hk := FsRun.volOk hr (ipoFsFormat_ok hf htable hbitmap)
  exact hk.owned.raise hk.bound.le

/-- The path `/w`. -/
def wPath : CString := rootPath [119] (by decide)

/-- The mounted kernel with a file `/w` opened on descriptor 0. -/
def wKernel : Kernel Disk :=
  (ipoFsOpen (diskDev Buf.zero) wPath
    (ipoFsCreate (diskDev Buf.zero) wPath typeFile (mountedKernel 12 6)).2).2

/-- The kernel after 700 bytes were written to `/w`. -/
def wWritten : Kernel Disk := (ipoFsWrite (diskDev Buf.zero) 0 (fun _ => 65) 700 0 wKernel).2

/-- The kernel after `/w` was deleted again. -/
def wDeleted : Kernel Disk := (ipoFsDelete (diskDev Buf.zero) wPath wWritten).2

theorem wWritten_run : FsRun Buf.zero (fun _ _ => True) (formattedKernel 12 6) wWritten :=
  .tail (.tail (.tail mountedKernel_run ⟨.create wPath typeFile, trivial, rfl⟩)
    ⟨.openFd wPath, trivial, rfl⟩) ⟨.write 0 (fun _ => 65) 700 0, trivial, rfl⟩

/-- A run that creates a file, writes two blocks of it and deletes it, before and after the
deletion. -/
theorem blocksOwned_of_run_delete :
    (ipoFsWrite (diskDev Buf.zero) 0 (fun _ => 65) 700 0 wKernel).1 = some 700
    ∧ (ipoFsDelete (diskDev Buf.zero) wPath wWritten).1 = true
    ∧ Owned wWritten.sb.dataBlocksStart.toNat wWritten.sb.fsSizeBlocks.toNat
      (fun p => wWritten.disk.blockUsed wWritten.sb p = true)
      (fun s : Nat × Pos => wWritten.disk.ptr (wWritten.disk.inodeAt wWritten.sb s.1) s.2)
    ∧ Owned wDeleted.sb.dataBlocksStart.toNat wDeleted.sb.fsSizeBlocks.toNat
      (fun p => wDeleted.disk.blockUsed wDeleted.sb p = true)
      (fun s : Nat × Pos => wDeleted.disk.ptr (wDeleted.disk.inodeAt wDeleted.sb s.1) s.2) :=
  ⟨by decide +kernel, by decide +kernel,
    blocksOwned_of_run formattedKernel_run (by decide) (by decide) wWritten_run,
    blocksOwned_of_run formattedKernel_run (by decide) (by decide)
      (.tail wWritten_run ⟨.delete wPath, trivial, rfl⟩)⟩

end IpoOs
