import IpoOs.FsTreeRun

/-!
# Open descriptors and deleted files

The descriptor table is not looked at by `ipo_fs_delete`: a file can be
released while it is open. In a run that releases no open file each used
descriptor stays on the inode it was opened on, and this inode stays in
use and a file.

That a descriptor stays on its inode is a fact about the globals alone. That
the inode stays a file needs the tree, since a number that was released may
be given out again.
-/

namespace IpoOs

/-- Inode `i` is in use and no directory. -/
def Disk.LiveFile (d : Disk) (sb : Superblock) (i : Nat) : Prop :=
  (d.naming sb).used i ∧ (d.inodeAt sb i).isDir = false

/-- Every used descriptor is on a file. -/
def FdsOk (k : Kernel Disk) : Prop :=
  ∀ i, i < 32 → (k.fds i).used = true → k.disk.LiveFile k.sb (k.fds i).inode

/-- The descriptors used in `k` are on the same inodes in `k'`, and these are files in use. -/
def FdsKept (k k' : Kernel Disk) : Prop :=
  ∀ i, i < 32 → (k.fds i).used = true →
    k'.fds i = k.fds i ∧ k'.disk.LiveFile k'.sb (k'.fds i).inode

/-- No file is deleted that a used descriptor is on, and a directory that is moved has its second
slot free for the new parent. -/
def OpenSafe (u : Block) (k : Kernel Disk) : FsCall → Prop
  | .delete path => k.fsMounted = true → ∀ parent name de,
      DeleteOk u k.sb k.disk path.chars parent name de →
      ∀ i, i < 32 → (k.fds i).used = true → (k.fds i).inode ≠ de.inode.toNat
  | .rename fuel oldpath newpath => TreeSafe u k (.rename fuel oldpath newpath)
  | _ => True

section

variable {u : Block} {k k' k'' : Kernel Disk} {c : FsCall}

theorem FdsOk.treeSafe (h : FdsOk k) (hs : OpenSafe u k c) : TreeSafe u k c := by
  cases c with
  | write fd buffer size offset =>
      rintro ⟨h0, hlt, hu⟩ hlive
      have hfile := (h fd.toNat (by omega) hu).2
      exact absurd (hlive.2.2.symm.trans hfile) (by decide)
  | rename fuel oldpath newpath => exact hs
  | _ => trivial

theorem LinksKept.liveFile {sb : Superblock} {d d' : Disk} (h : LinksKept sb d d') {i : Nat}
    (hf : d.LiveFile sb i) : d'.LiveFile sb i := by
  refine ⟨by rw [h.naming]; exact hf.1, ?_⟩
  have hfile := hf.2
  unfold Inode.isDir at hfile ⊢
  rw [h.mode hf.1]
  exact hfile

theorem LinkStep.liveFile {d : Disk} (h : LinkStep u k c d) {i : Nat}
    (hkeep : ∀ path, c = .delete path → k.fsMounted = true → ∀ parent name de,
      DeleteOk u k.sb k.disk path.chars parent name de → i ≠ de.inode.toNat)
    (hf : k.disk.LiveFile k.sb i) : d.LiveFile k.sb i := by
  have hfile := hf.2
  unfold Inode.isDir at hfile
  unfold Disk.LiveFile Inode.isDir
  cases h with
  | kept h => exact h.liveFile hf
  | @created c d path type parent j name _ _ _ h =>
      have hne : i ≠ j := by
        rintro rfl
        exact h.fresh hf.1
      rw [h.naming, h.mode hne]
      exact ⟨Or.inr hf.1, hfile⟩
  | deleted hm hok h =>
      have hne := hkeep _ rfl hm _ _ _ hok
      rw [h.naming, h.mode hne]
      exact ⟨⟨hf.1, hne⟩, hfile⟩
  | moved _ _ h =>
      rw [h.naming, h.mode]
      exact ⟨hf.1, hfile⟩

theorem openTarget_liveFile {sb : Superblock} {d : Disk} (ht : TreeOk sb d) {path : Str} {ino : Nat}
    (h : (openTarget path (arrayDev u) sb d).1 = some ino) : d.LiveFile sb ino := by
  obtain ⟨-, hdir, hp⟩ := openTarget_some h
  exact ⟨ht.used_of_reach ht.root_used (ht.resolve_reach hp), hdir⟩

/-- A used descriptor is one from before the call, or was opened on a file by it; and the call
leaves the used ones alone. -/
theorem exec_fds (h : VolOk k) (ht : TreeOk k.sb k.disk) (hc : c.exec (diskDev u) k = some k') :
    (∀ i, (k.fds i).used = true → k'.fds i = k.fds i)
    ∧ ∀ i, (k'.fds i).used = true → k'.fds i = k.fds i
        ∨ k'.disk.LiveFile k'.sb (k'.fds i).inode := by
  have hsame : k'.fds = k.fds → (∀ i, (k.fds i).used = true → k'.fds i = k.fds i)
      ∧ ∀ i, (k'.fds i).used = true →
        k'.fds i = k.fds i ∨ k'.disk.LiveFile k'.sb (k'.fds i).inode := fun he =>
    ⟨fun i _ => congrFun he i, fun i _ => Or.inl (congrFun he i)⟩
  have hwrite : ∀ fd buffer size offset (k : Kernel Disk),
      (ipoFsWrite (diskDev u) fd buffer size offset k).2.fds = k.fds := by
    intro fd buffer size offset k
    rcases ipoFsWrite_run u k fd buffer size offset with ⟨-, hrun⟩ | ⟨-, hrun⟩
    · rw [hrun]
    · rw [hrun]
  have hcreate : ∀ path type, (ipoFsCreate (diskDev u) path type k).2.fds = k.fds := by
    intro path type
    rw [ipoFsCreate_run]
    split <;> rfl
  -- a descriptor opened in the lowest unused slot
  have hopen : ∀ {k₁ : Kernel Disk} {j ino : Nat}, k₁.fds = k.fds →
    firstUnused k₁.fds 32 0 = some j →
      k'.fds = (k₁.opened j ino).fds → k'.disk.LiveFile k'.sb ino →
      (∀ i, (k.fds i).used = true → k'.fds i = k.fds i)
      ∧ ∀ i, (k'.fds i).used = true →
        k'.fds i = k.fds i ∨ k'.disk.LiveFile k'.sb (k'.fds i).inode := by
    intro k₁ j ino hfds hfirst he hfile
    have hunused := (firstUnused_lt hfirst).2.2
    rw [hfds] at hunused
    have hother : ∀ {i}, i ≠ j → k'.fds i = k.fds i := by
      intro i hne
      rw [he, ← hfds]
      exact if_neg hne
    refine ⟨fun i hu => hother ?_, fun i _ => ?_⟩
    · rintro rfl
      rw [hunused] at hu
      cases hu
    · rcases em (i = j) with rfl | hne
      · rw [he, Kernel.opened_fd]
        exact Or.inr hfile
      · exact Or.inl (hother hne)
  cases c with
  | mount =>
      refine hsame ?_
      obtain rfl := Option.some.inj hc
      rw [ipoFsMount_run]
      split <;> rfl
  | create path type => exact hsame (Option.some.inj hc ▸ hcreate path type)
  | openFd path =>
      obtain rfl := Option.some.inj hc
      rcases ipoFsOpen_run u k path with hrun | ⟨ino, j, -, htarget, hfirst, hrun⟩
      · exact hsame (by rw [hrun])
      · refine hopen rfl hfirst (by rw [hrun]) ?_
        rw [hrun]
        exact openTarget_liveFile ht htarget
  | read fd buffer size offset =>
      refine hsame ?_
      obtain rfl := Option.some.inj hc
      rcases ipoFsRead_run u k fd buffer size offset with ⟨-, hrun⟩ | ⟨-, hrun⟩
      · rw [hrun]
      · rw [hrun]
  | write fd buffer size offset => exact hsame (Option.some.inj hc ▸ hwrite fd buffer size offset k)
  | writeText path text append =>
      obtain rfl := Option.some.inj hc
      obtain ⟨k₁, hk₁, hrest⟩ := @ipoFsWriteText_steps u k path text append
      have hfirst : VolOk k₁ ∧ TreeOk k₁.sb k₁.disk ∧ k₁.fds = k.fds := by
        rcases hk₁ with rfl | rfl
        · exact ⟨h, ht, rfl⟩
        · exact ⟨ipoFsCreate_ok h path typeFile,
            exec_treeOk (c := .create path typeFile) h ht trivial rfl, hcreate path typeFile⟩
      obtain ⟨h₁, ht₁, hfds⟩ := hfirst
      rcases hrest with hres | ⟨ino, j, size, offset, htarget, hunused, hres⟩
      · exact hsame (by rw [hres, hfds])
      · have hfile := openTarget_liveFile ht₁ htarget
        have hvol : VolOk (k₁.opened j ino) := h₁.of_disk rfl h₁.owned _
        have hkept :=
          ipoFsWrite_kept (u := u) hvol j (cstr text.chars) size offset fun _ hlive => by
          rw [Int.toNat_natCast, Kernel.opened_fd] at hlive
          exact absurd (hlive.2.2.symm.trans hfile.2) (by decide)
        have hsb := exec_sb (u := u) hvol (c := .write j (cstr text.chars) size offset) rfl
        refine hopen hfds hunused (by rw [hres, hwrite]) ?_
        rw [hres, hsb]
        exact hkept.liveFile hfile
  | delete path =>
      refine hsame ?_
      obtain rfl := Option.some.inj hc
      rw [ipoFsDelete_run]
      split <;> rfl
  | rename fuel oldpath newpath =>
      refine hsame ?_
      simp only [FsCall.exec] at hc
      rw [ipoFsRename_run] at hc
      split at hc
      · cases hc
      · rename_i b k₁ heq
        obtain rfl := Option.some.inj hc
        split at heq <;> obtain ⟨-, rfl⟩ := Prod.mk.inj heq <;> rfl

theorem exec_fdsOk (h : VolOk k) (ht : TreeOk k.sb k.disk) (hfds : FdsOk k) (hs : OpenSafe u k c)
    (hc : c.exec (diskDev u) k = some k') : FdsOk k' := by
  intro i hi hu
  rcases (exec_fds h ht hc).2 i hu with heq | hfile
  · rw [heq] at hu ⊢
    obtain ⟨d, hstep, hkept⟩ := exec_linkStep h ht (hfds.treeSafe hs) hc
    rw [exec_sb h hc]
    refine hkept.liveFile
      (hstep.liveFile (fun path hpath hm parent name de hok => ?_) (hfds i hi hu))
    subst hpath
    exact hs hm parent name de hok i hi hu
  · exact hfile

/-- In a run that deletes no open file the used descriptors stay where they are, on files. -/
theorem FsRun.fdsKept (hr : FsRun u (OpenSafe u) k k') (h : VolOk k) (ht : TreeOk k.sb k.disk)
    (hfds : FdsOk k) : VolOk k' ∧ TreeOk k'.sb k'.disk ∧ FdsOk k' ∧ FdsKept k k' := by
  refine @RunBy.invariant _ _ _ _
    (fun k' => VolOk k' ∧ TreeOk k'.sb k'.disk ∧ FdsOk k' ∧ FdsKept k k')
    (fun k₁ c k₂ hk hs hc => ?_) _ _ hr ⟨h, ht, hfds, fun i hi hu => ⟨rfl, hfds i hi hu⟩⟩
  obtain ⟨hv, ht, hfds, hkept⟩ := hk
  have hfds₂ := exec_fdsOk hv ht hfds hs hc
  refine ⟨exec_ok hv hc, exec_treeOk hv ht (hfds.treeSafe hs) hc, hfds₂, fun i hi hu => ?_⟩
  obtain ⟨heq, -⟩ := hkept i hi hu
  have hstay := (exec_fds hv ht hc).1 i (by rw [heq]; exact hu)
  exact ⟨hstay.trans heq, hfds₂ i hi (by rw [hstay, heq]; exact hu)⟩

end

/-- From `ipo_fs_init` and a new volume, in every run that deletes no open file and moves no
directory whose second slot is in use: a descriptor that is used at some point is on the same
inode at every later one, and the inode is in use, and a file. -/
theorem descriptors_live {u : Block} {start totalBlocks totalInodes : UInt32}
    {k k₀ k₁ k₂ : Kernel Disk}
    (hf : ipoFsFormat (diskDev u) start totalBlocks totalInodes (ipoFsInit k).2 = (true, k₀))
    (htable : TableFits totalInodes) (hbitmap : BitmapFits totalBlocks totalInodes)
    (hr₁ : FsRun u (OpenSafe u) k₀ k₁) (hr₂ : FsRun u (OpenSafe u) k₁ k₂) : FdsKept k₁ k₂ := by
  obtain ⟨-, -, hfds, -⟩ := ipoFsFormat_cases hf htable hbitmap
  have hnone : FdsOk k₀ := by
    intro i hi hu
    have hinit : ((ipoFsInit k).2.fds i).used = false := by
      show (if i < 32 then { k.fds i with used := false } else k.fds i).used = false
      rw [if_pos hi]
    rw [hfds, hinit] at hu
    cases hu
  obtain ⟨hv, ht, hok, -⟩ := hr₁.fdsKept (ipoFsFormat_ok hf htable hbitmap)
    (ipoFsFormat_tree hf htable hbitmap).1 hnone
  exact (hr₂.fdsKept hv ht hok).2.2.2

/-! ## A file deleted while it is open

The same run with one deletion more: the descriptor is on an inode that is
free. -/

theorem blankKernel_init : (ipoFsInit blankKernel).2 = blankKernel := by
  unfold ipoFsInit modifyKernel blankKernel
  refine congrArg (Kernel.mk _ _ _ · _) (funext fun i => ?_)
  exact ite_self _

/-- The descriptor on `/x` after a write to it and a file created. -/
theorem descriptors_live_text : FdsKept emptyTextKernel
    (ipoFsCreate (diskDev Buf.zero) dPath typeDir emptyTextKernel).2 := by
  have hf : ipoFsFormat (diskDev Buf.zero) 0 12 6 (ipoFsInit blankKernel).2
      = (true, formattedKernel 12 6) := by
    rw [blankKernel_init]
    exact formattedKernel_run
  have hmount : FsCall.exec (diskDev Buf.zero) .mount (formattedKernel 12 6)
      = some (mountedKernel 12 6) := by
    rw [mountedKernel, ← formattedKernel_start]
    exact rfl
  exact descriptors_live hf (by decide) (by decide)
    ((Relation.ReflTransGen.single ⟨.mount, trivial, hmount⟩).tail
      ⟨.writeText xPath ⟨[], by decide⟩ false, trivial, rfl⟩)
    (Relation.ReflTransGen.single ⟨.create dPath typeDir, trivial, rfl⟩)

/-- The descriptor on `/x` after the file was deleted: its inode is free. -/
theorem descriptors_outlive :
    FsRun Buf.zero (fun _ _ => True) (formattedKernel 12 6) deletedKernel
    ∧ (deletedKernel.fds 0).used = true ∧ (deletedKernel.fds 0).inode = 4
    ∧ deletedKernel.disk.inodeUsed deletedKernel.sb 4 = false :=
  ⟨emptyTextKernel_run.tail ⟨.delete xPath, trivial, rfl⟩, by decide +kernel, by decide +kernel,
    by decide +kernel⟩

end IpoOs
