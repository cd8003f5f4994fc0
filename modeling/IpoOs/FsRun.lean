import IpoOs.FsCalls

/-!
# Runs of the mounted file system

The calls a user can make (`FsCall`), what each does to the globals and
the disk (`FsCall.exec`), and runs of them on the device that behaves as
an array of blocks. `VolOk` is what every call keeps whatever its
arguments and whatever was done through descriptors before: the layout
is sound, block 0 holds the mounted superblock, and the block pointers
of all inode slots are owned.

The arguments of a call are arbitrary. A rename takes the number of rounds
its loop may run, and a call that has not returned within them is not a step
of a run. A run with a condition on its calls (`FsRun u ok`) has the
condition checked in the state of each call.

Over an array of blocks the start of the volume plays no part: `diskDev` is
the array behind every start sector, which is right for a single volume that
no other sector aliases. The device that minds the start is in `FsBoot`.
-/

namespace IpoOs

/-- The calls of the file system after `ipo_fs_format`. A rename carries the
rounds its descendant check may run. -/
inductive FsCall where
  | mount
  | create (path : CString) (type : UInt8)
  | openFd (path : CString)
  | read (fd : Int) (buffer : Buf) (size offset : UInt32)
  | write (fd : Int) (buffer : Buf) (size offset : UInt32)
  | writeText (path text : CString) (append : Bool)
  | delete (path : CString)
  | rename (fuel : Nat) (oldpath newpath : CString)

/-- The state after a call; `none` when it has not returned. The mount is of the
volume that is in use. -/
def FsCall.exec {σ : Type} (dev : UInt32 → BlockDev σ) : FsCall → Kernel σ → Option (Kernel σ)
  | .mount, k => some (ipoFsMount dev k.fsStartLba k).2
  | .create path type, k => some (ipoFsCreate dev path type k).2
  | .openFd path, k => some (ipoFsOpen dev path k).2
  | .read fd buffer size offset, k => some (ipoFsRead dev fd buffer size offset k).2
  | .write fd buffer size offset, k => some (ipoFsWrite dev fd buffer size offset k).2
  | .writeText path text append, k => some (ipoFsWriteText dev path text append k).2
  | .delete path, k => some (ipoFsDelete dev path k).2
  | .rename fuel oldpath newpath, k =>
      match ipoFsRename dev fuel oldpath newpath k with
      | (none, _) => none
      | (some _, k') => some k'

/-- What a call returns, -1 as `none`; with what it counts, a read gives the buffer it has
filled. -/
inductive FsAnswer where
  | done (ok : Bool)
  | number (n : Option Nat)
  | bytes (count : Option Nat) (buffer : Buf)

/-- What a call returns and the state after it. -/
def FsCall.run {σ : Type} (dev : UInt32 → BlockDev σ) :
    FsCall → Kernel σ → Option (FsAnswer × Kernel σ)
  | .mount, k =>
      let r := ipoFsMount dev k.fsStartLba k
      some (.done r.1, r.2)
  | .create path type, k =>
      let r := ipoFsCreate dev path type k
      some (.number r.1, r.2)
  | .openFd path, k =>
      let r := ipoFsOpen dev path k
      some (.number r.1, r.2)
  | .read fd buffer size offset, k =>
      let r := ipoFsRead dev fd buffer size offset k
      some (.bytes r.1.1 r.1.2, r.2)
  | .write fd buffer size offset, k =>
      let r := ipoFsWrite dev fd buffer size offset k
      some (.number r.1, r.2)
  | .writeText path text append, k =>
      let r := ipoFsWriteText dev path text append k
      some (.done r.1, r.2)
  | .delete path, k =>
      let r := ipoFsDelete dev path k
      some (.done r.1, r.2)
  | .rename fuel oldpath newpath, k =>
      match ipoFsRename dev fuel oldpath newpath k with
      | (none, _) => none
      | (some ok, k') => some (.done ok, k')

theorem FsCall.exec_eq {σ : Type} {dev : UInt32 → BlockDev σ} {c : FsCall} {k k' : Kernel σ} :
    c.exec dev k = some k' ↔ ∃ r, c.run dev k = some (r, k') := by
  have hone : ∀ (r : FsAnswer) (k₁ : Kernel σ),
      some k₁ = some k' ↔ ∃ r', some (r, k₁) = some (r', k') := by
    intro r k₁
    constructor
    · rintro h
      exact ⟨r, congrArg (fun k => some (r, k)) (Option.some.inj h)⟩
    · rintro ⟨r', h⟩
      exact congrArg some (Prod.mk.inj (Option.some.inj h)).2
  cases c with
  | rename fuel oldpath newpath =>
      simp only [FsCall.exec, FsCall.run]
      rcases ipoFsRename dev fuel oldpath newpath k with ⟨ok | ok, k₁⟩
      · exact ⟨fun h => (by cases h), fun ⟨_, h⟩ => (by cases h)⟩
      · exact hone _ _
  | _ => exact hone _ _

/-- The device of a run: an array of blocks. -/
abbrev diskDev (u : Block) : UInt32 → BlockDev Disk := fun _ => arrayDev u

/-- Runs of calls that meet a condition. -/
abbrev FsRun (u : Block) (ok : Kernel Disk → FsCall → Prop) : Kernel Disk → Kernel Disk → Prop :=
  RunBy (FsCall.exec (diskDev u)) ok

/-! ## What the calls do to the globals

Each call in terms of its body on the volume and of the descriptor table,
once and for all. -/

section

variable (u : Block) (k : Kernel Disk)

theorem withFs_run {α : Type} (f : BlockDev Disk → Superblock → Prog Disk α) :
    withFs (diskDev u) f k = ((f (arrayDev u) k.sb k.disk).1,
      { k with disk := (f (arrayDev u) k.sb k.disk).2 }) := rfl

theorem getKernel_run : getKernel k = (k, k) := rfl

theorem ipoFsCreate_run (path : CString) (type : UInt8) :
    ipoFsCreate (diskDev u) path type k = if k.fsMounted then
      ((createEntry path.chars type (arrayDev u) k.sb k.disk).1,
        { k with disk := (createEntry path.chars type (arrayDev u) k.sb k.disk).2 })
      else (none, k) := by
  cases h : k.fsMounted <;> simp [ipoFsCreate, getKernel, h, withFs_run]

theorem ipoFsDelete_run (path : CString) :
    ipoFsDelete (diskDev u) path k = if k.fsMounted then
      ((deleteEntry path.chars (arrayDev u) k.sb k.disk).1,
        { k with disk := (deleteEntry path.chars (arrayDev u) k.sb k.disk).2 })
      else (false, k) := by
  cases h : k.fsMounted <;> simp [ipoFsDelete, getKernel, h, withFs_run]

theorem ipoFsRename_run (fuel : Nat) (oldpath newpath : CString) :
    ipoFsRename (diskDev u) fuel oldpath newpath k = if k.fsMounted then
      ((renameEntry fuel oldpath.chars newpath.chars (arrayDev u) k.sb k.disk).1,
        { k with disk :=
          (renameEntry fuel oldpath.chars newpath.chars (arrayDev u) k.sb k.disk).2 })
      else (some false, k) := by
  cases h : k.fsMounted <;> simp [ipoFsRename, getKernel, h, withFs_run]

theorem ipoFsStat_run (path : CString) :
    ipoFsStat (diskDev u) path k = if k.fsMounted then
      ((statPath path.chars (arrayDev u) k.sb k.disk).1, k) else (none, k) := by
  cases h : k.fsMounted with
  | false => simp [ipoFsStat, getKernel, h]
  | true =>
      simp [ipoFsStat, getKernel, h, withFs_run, readOnly_statPath u k.sb path.chars k.disk]
      rw [← h]

/-- A descriptor number with a used descriptor. -/
def Kernel.fdOk (k : Kernel Disk) (fd : Int) : Prop :=
  0 ≤ fd ∧ fd < 32 ∧ (k.fds fd.toNat).used = true

theorem ipoFsWrite_run (fd : Int) (buffer : Buf) (size offset : UInt32) :
    (k.fdOk fd ∧ ipoFsWrite (diskDev u) fd buffer size offset k
      = ((writeFile (k.fds fd.toNat).inode buffer size.toNat offset.toNat (arrayDev u) k.sb
          k.disk).1,
        { k with disk := (writeFile (k.fds fd.toNat).inode buffer size.toNat offset.toNat
          (arrayDev u) k.sb k.disk).2 }))
    ∨ (¬ k.fdOk fd ∧ ipoFsWrite (diskDev u) fd buffer size offset k = (none, k)) := by
  by_cases hfd : fd < 0 ∨ fd ≥ 32
  · refine Or.inr ⟨fun h => ?_, by simp [ipoFsWrite, getKernel, hfd]⟩
    obtain ⟨h1, h2, -⟩ := h
    omega
  · cases hu : (k.fds fd.toNat).used with
    | false =>
        exact Or.inr ⟨fun h => (by rw [h.2.2] at hu; cases hu),
          by simp [ipoFsWrite, getKernel, hfd, hu]⟩
    | true =>
        exact Or.inl ⟨⟨by omega, by omega, hu⟩, by simp [ipoFsWrite, getKernel, hfd, hu,
          withFs_run]⟩

theorem ipoFsRead_run (fd : Int) (buffer : Buf) (size offset : UInt32) :
    (k.fdOk fd ∧ ipoFsRead (diskDev u) fd buffer size offset k
      = ((readFile (k.fds fd.toNat).inode buffer size.toNat offset.toNat (arrayDev u) k.sb
          k.disk).1, k))
    ∨ (¬ k.fdOk fd ∧ ipoFsRead (diskDev u) fd buffer size offset k = ((none, buffer), k)) := by
  by_cases hfd : fd < 0 ∨ fd ≥ 32
  · refine Or.inr ⟨fun h => ?_, by simp [ipoFsRead, getKernel, hfd]⟩
    obtain ⟨h1, h2, -⟩ := h
    omega
  · cases hu : (k.fds fd.toNat).used with
    | false =>
        exact Or.inr ⟨fun h => (by rw [h.2.2] at hu; cases hu),
          by simp [ipoFsRead, getKernel, hfd, hu]⟩
    | true =>
        refine Or.inl ⟨⟨by omega, by omega, hu⟩, ?_⟩
        simp [ipoFsRead, getKernel, hfd, hu, withFs_run,
          readOnly_readFile u k.sb (k.fds fd.toNat).inode buffer size.toNat offset.toNat k.disk]

/-- The table with descriptor `i` opened on an inode. -/
def Kernel.opened (k : Kernel Disk) (i ino : Nat) : Kernel Disk :=
  { k with fds := fun j => if j = i then ⟨true, ino, 0⟩ else k.fds j }

theorem ipoFsOpen_run (path : CString) :
    ipoFsOpen (diskDev u) path k = (none, k)
    ∨ ∃ ino i, k.fsMounted = true
      ∧ (openTarget path.chars (arrayDev u) k.sb k.disk).1 = some ino
      ∧ firstUnused k.fds 32 0 = some i
      ∧ ipoFsOpen (diskDev u) path k = (some i, k.opened i ino) := by
  cases h : k.fsMounted with
  | false => exact Or.inl (by simp [ipoFsOpen, getKernel, h])
  | true =>
      obtain ⟨t, ht⟩ : ∃ t, openTarget path.chars (arrayDev u) k.sb k.disk = (t, k.disk) :=
        ⟨_, (readOnly_openTarget u k.sb path.chars).run_eq k.disk⟩
      cases t with
      | none =>
          refine Or.inl ?_
          simp [ipoFsOpen, getKernel, h, withFs_run, ht]
          rw [← h]
      | some ino =>
          cases hf : firstUnused k.fds 32 0 with
          | none =>
              refine Or.inl ?_
              simp [ipoFsOpen, getKernel, h, withFs_run, ht, hf]
              rw [← h]
          | some i =>
              refine Or.inr ⟨ino, i, rfl, by rw [ht], rfl, ?_⟩
              simp [ipoFsOpen, getKernel, h, withFs_run, ht, hf, modifyKernel, Kernel.opened]

theorem ipoFsMount_run :
    ipoFsMount (diskDev u) k.fsStartLba k
      = if (Superblock.decode (k.disk 0)).accepted then
          (true, { k with sb := Superblock.decode (k.disk 0), fsMounted := true })
        else (false, { k with sb := Superblock.decode (k.disk 0) }) := by
  cases h : (Superblock.decode (k.disk 0)).accepted <;>
    simp [ipoFsMount, modifyKernel, withFs_run, h]

end

/-! ## What every call keeps

One lemma for each call, then `exec_ok` for any call, and `FsRun.volOk` for
a run. -/

/-- Block numbers below `2^31` in the volume: what the allocator hands out. -/
def intBound (sb : Superblock) : Nat := min sb.fsSizeBlocks.toNat 2147483648

/-- What every call keeps. -/
structure VolOk (k : Kernel Disk) : Prop where
  layout : SoundLayout k.sb
  count : k.sb.inodeCount.toNat < 2147483648
  super : Superblock.decode (k.disk 0) = k.sb
  owned : OwnedVol k.sb (intBound k.sb) k.disk

theorem VolOk.bound {k : Kernel Disk} (_ : VolOk k) : BlockBound k.sb (intBound k.sb) :=
  blockBound_int k.sb

theorem VolOk.of_disk {k : Kernel Disk} (h : VolOk k) {d : Disk} (h0 : d 0 = k.disk 0)
    (hd : OwnedVol k.sb (intBound k.sb) d) (fds : Nat → Fd) :
    VolOk { k with disk := d, fds := fds } where
  layout := h.layout
  count := h.count
  super := by
    show Superblock.decode (d 0) = k.sb
    rw [h0, h.super]
  owned := hd

section

variable {u : Block} {k : Kernel Disk}

theorem ipoFsMount_ok (h : VolOk k) : VolOk (ipoFsMount (diskDev u) k.fsStartLba k).2 := by
  rw [ipoFsMount_run, h.super]
  split
  · exact ⟨h.layout, h.count, h.super, h.owned⟩
  · exact h

theorem ipoFsCreate_ok (h : VolOk k) (path : CString) (type : UInt8) :
    VolOk (ipoFsCreate (diskDev u) path type k).2 := by
  rw [ipoFsCreate_run]
  split
  · rcases createEntry_cases h.layout h.bound u h.owned h.count path.chars type with
      hrun | ⟨parent, name, i, d₁, d₂, -, -, -, ht, ⟨hadd, hrun⟩ | ⟨d₃, hadd, hf, hrun⟩⟩
    · rw [hrun]
      exact h
    · have htou := dirAddEntry_touched h.layout h.bound u ht.owned parent name i type
      rw [hadd] at htou
      rw [hrun]
      exact h.of_disk (htou.blockZero.trans ht.blockZero) htou.owned k.fds
    · have htou := dirAddEntry_touched h.layout h.bound u ht.owned parent name i type
      rw [hadd] at htou
      rw [hrun]
      exact h.of_disk (hf.blockZero.trans (htou.blockZero.trans ht.blockZero)) hf.owned k.fds
  · exact h

theorem ipoFsDelete_ok (h : VolOk k) (path : CString) :
    VolOk (ipoFsDelete (diskDev u) path k).2 := by
  rw [ipoFsDelete_run]
  split
  · rcases deleteEntry_cases h.layout h.bound u h.owned path.chars with
      hrun | ⟨parent, name, de, d₁, d₂, -, hrem, hf, hrun⟩
    · rw [hrun]
      exact h
    · have htou := dirRemoveEntry_touched h.layout h.bound u h.owned parent name
      rw [hrem] at htou
      rw [hrun]
      exact h.of_disk (hf.blockZero.trans htou.blockZero) hf.owned k.fds
  · exact h

theorem ipoFsRename_ok (h : VolOk k) (fuel : Nat) (oldpath newpath : CString) :
    VolOk (ipoFsRename (diskDev u) fuel oldpath newpath k).2 := by
  rw [ipoFsRename_run]
  split
  · rcases @renameEntry_cases k.sb u k.disk fuel oldpath.chars newpath.chars with
      ⟨res, hrun, -⟩ | ⟨op, on, de, np, nn, hok, hrun⟩
    · rw [hrun]
      exact h
    · rw [hrun]
      have hadd := dirAddEntry_touched h.layout h.bound u h.owned np nn de.inode.toNat de.type
      rcases moveEntry_cases u k.disk op on hok.valid np nn with
        ⟨d₁, hrun₁, hmove⟩ | ⟨d₁, d₂, hrun₁, hd₂, hmove⟩
      · rw [hrun₁] at hadd
        rw [hmove]
        exact h.of_disk hadd.blockZero hadd.owned k.fds
      · rw [hrun₁] at hadd
        -- the middle step is the new `..`, or nothing
        have hmid : d₂ 0 = d₁ 0 ∧ OwnedVol k.sb (intBound k.sb) d₂ := by
          rw [hd₂]
          split
          · have hp := patchDotdot_touched h.layout h.bound u hadd.owned de.inode.toNat np
            exact ⟨hp.blockZero, hp.owned⟩
          · exact ⟨rfl, hadd.owned⟩
        have hrem := dirRemoveEntry_touched h.layout h.bound u hmid.2 op on
        rw [hmove]
        exact h.of_disk (hrem.blockZero.trans (hmid.1.trans hadd.blockZero)) hrem.owned k.fds
  · exact h

theorem ipoFsWrite_ok (h : VolOk k) (fd : Int) (buffer : Buf) (size offset : UInt32) :
    VolOk (ipoFsWrite (diskDev u) fd buffer size offset k).2 := by
  rcases ipoFsWrite_run u k fd buffer size offset with ⟨-, hrun⟩ | ⟨-, hrun⟩
  · have htou := writeFile_touched h.layout h.bound u h.owned (k.fds fd.toNat).inode buffer
      size.toNat offset.toNat
    rw [hrun]
    exact h.of_disk htou.blockZero htou.owned k.fds
  · rw [hrun]
    exact h

theorem ipoFsRead_ok (h : VolOk k) (fd : Int) (buffer : Buf) (size offset : UInt32) :
    VolOk (ipoFsRead (diskDev u) fd buffer size offset k).2 := by
  rcases ipoFsRead_run u k fd buffer size offset with ⟨-, hrun⟩ | ⟨-, hrun⟩
  · rw [hrun]
    exact h
  · rw [hrun]
    exact h

theorem ipoFsOpen_ok (h : VolOk k) (path : CString) :
    VolOk (ipoFsOpen (diskDev u) path k).2 := by
  rcases ipoFsOpen_run u k path with hrun | ⟨ino, i, -, -, -, hrun⟩
  · rw [hrun]
    exact h
  · rw [hrun]
    exact h.of_disk rfl h.owned _

theorem writeTextAt_ok (h : VolOk k) (path text : CString) (append : Bool) :
    VolOk (writeTextAt (diskDev u) path text append k).2 := by
  have hstat : (ipoFsStat (diskDev u) path k).2 = k := by
    rw [ipoFsStat_run]
    split <;> rfl
  have hopen := ipoFsOpen_ok (u := u) h path
  unfold writeTextAt
  simp only [Prog.run_bind, hstat]
  cases (ipoFsStat (diskDev u) path k).1 with
  | none => exact h
  | some inode =>
      simp only [Prog.run_ite]
      split
      · exact h
      · simp only [Prog.run_bind]
        generalize ipoFsOpen (diskDev u) path k = res at hopen ⊢
        obtain ⟨fd, k₁⟩ := res
        cases fd with
        | none => exact hopen
        | some fd => exact ipoFsWrite_ok hopen _ _ _ _

theorem ipoFsWriteText_ok (h : VolOk k) (path text : CString) (append : Bool) :
    VolOk (ipoFsWriteText (diskDev u) path text append k).2 := by
  have hres : (withFs (diskDev u) (fun dev sb => pathResolve dev sb path.chars) k).2 = k := by
    rw [withFs_run, readOnly_pathResolve u k.sb path.chars k.disk]
  have hcreate := ipoFsCreate_ok (u := u) h path typeFile
  unfold ipoFsWriteText
  rw [Prog.run_bind, getKernel_run, Prog.run_ite]
  split
  · exact h
  · rw [Prog.run_bind, hres]
    cases (withFs (diskDev u) (fun dev sb => pathResolve dev sb path.chars) k).1 with
    | some i => exact writeTextAt_ok h path text append
    | none =>
        simp only [Prog.run_bind]
        generalize ipoFsCreate (diskDev u) path typeFile k = res at hcreate ⊢
        obtain ⟨ino, k₁⟩ := res
        cases ino with
        | none => exact hcreate
        | some ino => exact writeTextAt_ok hcreate path text append

/-- Every call keeps the volume in order, whatever its arguments. -/
theorem exec_ok {k' : Kernel Disk} (h : VolOk k) {c : FsCall}
    (hc : c.exec (diskDev u) k = some k') : VolOk k' := by
  cases c with
  | mount => exact Option.some.inj hc ▸ ipoFsMount_ok h
  | create path type => exact Option.some.inj hc ▸ ipoFsCreate_ok h path type
  | openFd path => exact Option.some.inj hc ▸ ipoFsOpen_ok h path
  | read fd buffer size offset => exact Option.some.inj hc ▸ ipoFsRead_ok h fd buffer size offset
  | write fd buffer size offset =>
      exact Option.some.inj hc ▸ ipoFsWrite_ok h fd buffer size offset
  | writeText path text append =>
      exact Option.some.inj hc ▸ ipoFsWriteText_ok h path text append
  | delete path => exact Option.some.inj hc ▸ ipoFsDelete_ok h path
  | rename fuel oldpath newpath =>
      have hr := ipoFsRename_ok (u := u) h fuel oldpath newpath
      simp only [FsCall.exec] at hc
      generalize ipoFsRename (diskDev u) fuel oldpath newpath k = res at hr hc
      obtain ⟨res, k₁⟩ := res
      cases res with
      | none => cases hc
      | some b => exact Option.some.inj hc ▸ hr

theorem FsRun.volOk {ok : Kernel Disk → FsCall → Prop} {k' : Kernel Disk}
    (hr : FsRun u ok k k') (h : VolOk k) : VolOk k' :=
  RunBy.invariant (fun _ _ _ hk _ he => exec_ok hk he) hr h

end

end IpoOs
