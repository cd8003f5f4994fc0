import IpoOs.FsRefines
import IpoOs.FsMounted
import IpoOs.Simulation

/-!
# The file system through power cycles

`kmain` resets the globals of the file system and mounts the volume at
`FS_START_LBA`, or makes one where there is none. Nothing of the memory
from before is used, so what the paths lead to is on the disk: it is the
same after every boot, and no descriptor is open.

The device is a parameter. All that is asked of it is that the volume
that starts at `FS_START_LBA` behaves as an array of blocks; what is
read and written of a volume that starts elsewhere may be anything. The
calls follow `fs_start_lba`, which only a mount or a format changes, so
from the boot on they use that one volume: `FsCall.run_at` says so, by a
simulation of the code over the one device by the code over another.

A run starts at a format of that volume, and then goes through calls and
power cycles in any order. The contents of the memory after a power
cycle are any.
-/

namespace IpoOs

/-- `FS_START_LBA`. -/
def fsStart : UInt32 := 2048

section

variable {σ : Type} (dev : UInt32 → BlockDev σ)

def ensureFsMounted : Prog (Kernel σ) Unit := do
  if ← ipoFsMount dev fsStart then pure ()
  else if ← ipoFsFormat dev fsStart 10000 1024 then do
    let _ ← ipoFsMount dev fsStart
    pure ()
  else pure ()

/-- What `kmain` does to the file system before it runs `/autorun`. -/
def bootFs : Prog (Kernel σ) Unit := do
  ipoFsInit
  ensureFsMounted dev

end

/-! ## The volume in use

Each call over two devices that agree on the volume in use. -/

/-- One kernel, with its volume at a sector. -/
def AtStart {σ : Type} (start : UInt32) (k k' : Kernel σ) : Prop := k = k' ∧ k.fsStartLba = start

section

open Prog (Simulates)

variable {σ α : Type} {start : UInt32} {dev dev' : UInt32 → BlockDev σ}
    (hdev : dev start = dev' start)

theorem getKernel_at :
    Simulates (AtStart start) (getKernel : Prog (Kernel σ) (Kernel σ)) getKernel :=
  fun _ _ h => ⟨h.1, h⟩

theorem modifyKernel_at {f : Kernel σ → Kernel σ} (hf : ∀ k, (f k).fsStartLba = k.fsStartLba) :
    Simulates (AtStart start) (modifyKernel f) (modifyKernel f) :=
  fun k _ h => ⟨rfl, congrArg f h.1, (hf k).trans h.2⟩

include hdev

theorem withFs_at (f : BlockDev σ → Superblock → Prog σ α) :
    Simulates (AtStart start) (withFs dev f) (withFs dev' f) := by
  rintro k k' ⟨rfl, rfl⟩
  unfold withFs
  rw [hdev]
  exact ⟨rfl, rfl, rfl⟩

theorem ipoFsCreate_at (path : CString) (type : UInt8) :
    Simulates (AtStart start) (ipoFsCreate dev path type) (ipoFsCreate dev' path type) :=
  getKernel_at.bind fun _ => .ite (.pure _) (withFs_at hdev _)

theorem ipoFsOpen_at (path : CString) :
    Simulates (AtStart start) (ipoFsOpen dev path) (ipoFsOpen dev' path) := by
  refine getKernel_at.bind fun k => .ite (.pure _) ((withFs_at hdev _).bind fun got => ?_)
  cases got with
  | none => exact .pure _
  | some ino =>
      dsimp only
      cases firstUnused k.fds 32 0 with
      | none => exact .pure _
      | some i =>
          refine Simulates.bind (modifyKernel_at ?_) fun _ => .pure (some i)
          exact fun _ => rfl

theorem ipoFsRead_at (fd : Int) (buffer : Buf) (size offset : UInt32) :
    Simulates (AtStart start) (ipoFsRead dev fd buffer size offset)
      (ipoFsRead dev' fd buffer size offset) :=
  getKernel_at.bind fun _ => .ite (.pure _) (.ite (.pure _) (withFs_at hdev _))

theorem ipoFsWrite_at (fd : Int) (buffer : Buf) (size offset : UInt32) :
    Simulates (AtStart start) (ipoFsWrite dev fd buffer size offset)
      (ipoFsWrite dev' fd buffer size offset) :=
  getKernel_at.bind fun _ => .ite (.pure _) (.ite (.pure _) (withFs_at hdev _))

theorem ipoFsStat_at (path : CString) :
    Simulates (AtStart start) (ipoFsStat dev path) (ipoFsStat dev' path) :=
  getKernel_at.bind fun _ => .ite (.pure _) (withFs_at hdev _)

theorem writeTextAt_at (path text : CString) (append : Bool) :
    Simulates (AtStart start) (writeTextAt dev path text append)
        (writeTextAt dev' path text append) := by
  refine (ipoFsStat_at hdev path).bind fun got => ?_
  cases got with
  | none => exact .pure _
  | some inode =>
      refine .ite (.pure _) ((ipoFsOpen_at hdev path).bind fun got => ?_)
      cases got with
      | none => exact .pure _
      | some fd => exact (ipoFsWrite_at hdev _ _ _ _).bind fun _ => .pure _

theorem ipoFsWriteText_at (path text : CString) (append : Bool) :
    Simulates (AtStart start) (ipoFsWriteText dev path text append)
      (ipoFsWriteText dev' path text append) := by
  refine getKernel_at.bind fun k => .ite (.pure _) ((withFs_at hdev _).bind fun got => ?_)
  cases got with
  | some _ => exact writeTextAt_at hdev path text append
  | none =>
      refine (ipoFsCreate_at hdev path typeFile).bind fun got => ?_
      cases got with
      | none => exact .pure _
      | some _ => exact writeTextAt_at hdev path text append

theorem ipoFsDelete_at (path : CString) :
    Simulates (AtStart start) (ipoFsDelete dev path) (ipoFsDelete dev' path) :=
  getKernel_at.bind fun _ => .ite (.pure _) (withFs_at hdev _)

theorem ipoFsRename_at (fuel : Nat) (oldpath newpath : CString) :
    Simulates (AtStart start) (ipoFsRename dev fuel oldpath newpath)
      (ipoFsRename dev' fuel oldpath newpath) :=
  getKernel_at.bind fun _ => .ite (.pure _) (withFs_at hdev _)

theorem ipoFsMount_at :
    Simulates (AtStart start) (ipoFsMount dev start) (ipoFsMount dev' start) := by
  have hfirst : Simulates (AtStart start)
      (modifyKernel fun k : Kernel σ => { k with fsStartLba := start })
      (modifyKernel fun k : Kernel σ => { k with fsStartLba := start }) := by
    rintro k k' ⟨rfl, -⟩
    exact ⟨rfl, rfl, rfl⟩
  refine hfirst.bind fun _ => (withFs_at hdev _).bind fun got => ?_
  cases got with
  | none => exact .pure _
  | some buf =>
      refine Simulates.bind (modifyKernel_at ?_) fun _ => Simulates.ite ?_ (.pure false)
      · exact fun _ => rfl
      · refine Simulates.bind (modifyKernel_at ?_) fun _ => .pure true
        exact fun _ => rfl

theorem FsCall.run_at (c : FsCall) {k : Kernel σ} (hk : k.fsStartLba = start) :
    c.run dev k = c.run dev' k
      ∧ ∀ r k', c.run dev k = some (r, k') → k'.fsStartLba = start := by
  have hone : ∀ {β : Type} {x y : Prog (Kernel σ) β} (g : β → FsAnswer),
      Simulates (AtStart start) x y →
      some (g (x k).1, (x k).2) = some (g (y k).1, (y k).2)
        ∧ ∀ r k', some (g (x k).1, (x k).2) = some (r, k') → k'.fsStartLba = start := by
    intro β x y g hxy
    obtain ⟨hval, hst, hstart⟩ := hxy k k ⟨rfl, hk⟩
    refine ⟨by rw [hval, hst], fun r k' h => ?_⟩
    rw [← (Prod.mk.inj (Option.some.inj h)).2]
    exact hstart
  cases c with
  | mount =>
      subst hk
      exact hone .done (ipoFsMount_at hdev)
  | create path type => exact hone .number (ipoFsCreate_at hdev path type)
  | openFd path => exact hone .number (ipoFsOpen_at hdev path)
  | read fd buffer size offset =>
      exact hone (fun r => .bytes r.1 r.2) (ipoFsRead_at hdev fd buffer size offset)
  | write fd buffer size offset => exact hone .number (ipoFsWrite_at hdev fd buffer size offset)
  | writeText path text append => exact hone .done (ipoFsWriteText_at hdev path text append)
  | delete path => exact hone .done (ipoFsDelete_at hdev path)
  | rename fuel oldpath newpath =>
      obtain ⟨hval, hst, hstart⟩ := ipoFsRename_at hdev fuel oldpath newpath k k ⟨rfl, hk⟩
      rw [FsCall.run, FsCall.run, Prod.ext hval hst]
      rw [hst] at hstart
      generalize ipoFsRename dev' fuel oldpath newpath k = res at hstart ⊢
      obtain ⟨ok | ok, k₁⟩ := res
      · exact ⟨rfl, fun r k' h => by cases h⟩
      · refine ⟨rfl, fun r k' h => ?_⟩
        rw [← (Prod.mk.inj (Option.some.inj h)).2]
        exact hstart

theorem ipoFsFormat_at {totalBlocks totalInodes : UInt32} {k k' : Kernel σ}
    (hf : ipoFsFormat dev start totalBlocks totalInodes k = (true, k')) :
    ipoFsFormat dev' start totalBlocks totalInodes k = (true, k') ∧ k'.fsStartLba = start := by
  obtain ⟨regions, hregions⟩ : ∃ regions : Prog σ Bool, formatRegions (dev' start)
      (formatSuperblock totalBlocks totalInodes) (inodeBitmapBlocks totalInodes.toNat)
      (blockBitmapBlocks totalBlocks.toNat totalInodes.toNat) (inodeTableBlocks totalInodes.toNat)
        = regions := ⟨_, rfl⟩
  have hrun : ∀ e : UInt32 → BlockDev σ, e start = dev' start →
      ipoFsFormat e start totalBlocks totalInodes k = if totalBlocks.toNat < 10 then (false, k)
        else if dataBlocks totalBlocks.toNat totalInodes.toNat = 0
          ∨ 2147483648 ≤ dataBlocks totalBlocks.toNat totalInodes.toNat then (false, k)
        else if (regions k.disk).1 = true then
          ((formatTree (dev' start) (formatSuperblock totalBlocks totalInodes)
            (regions k.disk).2).1, { k with
              sb := formatSuperblock totalBlocks totalInodes
              fsStartLba := start
              disk := (formatTree (dev' start) (formatSuperblock totalBlocks totalInodes)
                (regions k.disk).2).2 })
        else (false, { k with fsStartLba := start, disk := (regions k.disk).2 }) := by
    intro e he
    cases hok : (regions k.disk).1 <;> simp [ipoFsFormat, modifyKernel, withFs, he, hregions, hok]
  rw [hrun dev hdev] at hf
  rw [hrun dev' rfl]
  refine ⟨hf, ?_⟩
  split at hf
  · cases (Prod.mk.inj hf).1
  · split at hf
    · cases (Prod.mk.inj hf).1
    · split at hf
      · rw [← (Prod.mk.inj hf).2]
      · cases (Prod.mk.inj hf).1

end

/-! ## The machine

The events of a run and its invariant. -/

/-- A call, or the power off and on again with anything in the memory. -/
inductive MachineEvent where
  | call (c : FsCall)
  | power (ram : Kernel Disk)

/-- The state after an event. Of the state before, a boot has the disk only. -/
def MachineEvent.exec (dev : UInt32 → BlockDev Disk) :
    MachineEvent → Kernel Disk → Option (Kernel Disk)
  | .call c, k => c.exec dev k
  | .power ram, k => some (bootFs dev { ram with disk := k.disk }).2

/-- A condition on the calls. -/
def MachineEvent.Meets (ok : Kernel Disk → FsCall → Prop) (k : Kernel Disk) : MachineEvent → Prop
  | .call c => ok k c
  | .power _ => True

/-- Calls that meet a condition, and power cycles between them. -/
abbrev MachineRun (dev : UInt32 → BlockDev Disk) (ok : Kernel Disk → FsCall → Prop) :
    Kernel Disk → Kernel Disk → Prop :=
  RunBy (MachineEvent.exec dev) (MachineEvent.Meets ok)

/-- The states of the safe runs from the formats of the volume at `FS_START_LBA`. -/
inductive MachineReached (dev : UInt32 → BlockDev Disk) (u : Block) : Kernel Disk → Prop
  | format {totalBlocks totalInodes : UInt32} {k₀ k : Kernel Disk}
      (hf : ipoFsFormat dev fsStart totalBlocks totalInodes k₀ = (true, k))
      (htable : TableFits totalInodes) (hbitmap : BitmapFits totalBlocks totalInodes) :
      MachineReached dev u k
  | event {e : MachineEvent} {k k' : Kernel Disk} (h : MachineReached dev u k)
      (hs : e.Meets (StoreSafe u) k) (hc : e.exec dev k = some k') : MachineReached dev u k'

/-- What every state of the machine has: a volume that a boot mounts. -/
structure MachineOk (u : Block) (k : Kernel Disk) : Prop where
  ok : KernelOk k
  store : StoreOk (k.files u).store
  start : k.fsStartLba = fsStart

section

variable {u : Block} {k k' ram : Kernel Disk} {dev : UInt32 → BlockDev Disk}

theorem KernelOk.of_disk (h : KernelOk k) (hsb : k'.sb = k.sb) (hdisk : k'.disk = k.disk) :
    KernelOk k' := by
  obtain ⟨⟨hl, hc, hs, ho⟩, ht, htag, hacc⟩ := h
  rw [← hsb] at hl hc ho hacc
  rw [← hsb, ← hdisk] at hs ht htag
  rw [← hdisk] at ho
  exact ⟨⟨hl, hc, hs, ho⟩, ht, htag, hacc⟩

theorem Kernel.store_congr (hsb : k'.sb = k.sb) (hdisk : k'.disk = k.disk) :
    (k'.files u).store = (k.files u).store := by
  show k'.disk.view u k'.sb = k.disk.view u k.sb
  rw [hsb, hdisk]

variable (hdev : dev fsStart = arrayDev u)

include hdev

theorem bootFs_mounts (h : (Superblock.decode (k.disk 0)).accepted = true) :
    (bootFs dev k).2 = { (ipoFsInit k).2 with
      fsStartLba := fsStart, sb := Superblock.decode (k.disk 0), fsMounted := true } := by
  have hdisk : (ipoFsInit k).2.disk = k.disk := rfl
  unfold bootFs ensureFsMounted
  simp [ipoFsMount, modifyKernel, withFs, hdev, hdisk, h]

/-- A power cycle keeps what every path leads to, mounts the volume and closes all files. -/
theorem MachineOk.power (h : MachineOk u k) (ram : Kernel Disk) :
    MachineOk u (bootFs dev { ram with disk := k.disk }).2
    ∧ (bootFs dev { ram with disk := k.disk }).2.disk = k.disk
    ∧ (bootFs dev { ram with disk := k.disk }).2.fsMounted = true
    ∧ ((bootFs dev { ram with disk := k.disk }).2.files u).store = (k.files u).store
    ∧ ∀ i, ((bootFs dev { ram with disk := k.disk }).2.files u).opened i = none := by
  have hacc : (Superblock.decode (k.disk 0)).accepted = true := by
    rw [h.ok.vol.super]
    exact h.ok.accepted
  have hrun := bootFs_mounts hdev (k := { ram with disk := k.disk }) hacc
  have hsb : (bootFs dev { ram with disk := k.disk }).2.sb = k.sb := by
    rw [hrun]
    exact h.ok.vol.super
  have hdisk : (bootFs dev { ram with disk := k.disk }).2.disk = k.disk := by
    rw [hrun]
    rfl
  have hstore : ((bootFs dev { ram with disk := k.disk }).2.files u).store = (k.files u).store :=
    Kernel.store_congr hsb hdisk
  refine ⟨⟨h.ok.of_disk hsb hdisk, hstore ▸ h.store, by rw [hrun]⟩, hdisk, by rw [hrun], hstore,
    fun i => ?_⟩
  rw [hrun]
  show (if i < 32
      ∧ (if i < 32 then { ram.fds i with used := false } else ram.fds i).used = true then
    some _ else none) = none
  refine if_neg ?_
  rintro ⟨hi, hu⟩
  rw [if_pos hi] at hu
  cases hu

/-- A safe call on the volume at `FS_START_LBA` is a step of its store. -/
theorem MachineOk.call {c : FsCall} (h : MachineOk u k) (hs : StoreSafe u k c)
    (hc : c.exec dev k = some k') :
    MachineOk u k' ∧ ∃ r, StoreStep (k.files u) c r (k'.files u) := by
  obtain ⟨r, hrun⟩ := FsCall.exec_eq.mp hc
  have hsector : dev fsStart = diskDev u fsStart := hdev
  obtain ⟨hsame, hstart⟩ := FsCall.run_at hsector c h.start
  have hrun' := hsame.symm.trans hrun
  have hstep := h.ok.step hs hrun'
  exact ⟨⟨h.ok.exec hs (FsCall.exec_eq.mpr ⟨r, hrun'⟩), hstep.storeOk h.store, hstart r k' hrun⟩,
    r, hstep⟩

theorem MachineOk.exec {e : MachineEvent} (h : MachineOk u k) (hs : e.Meets (StoreSafe u) k)
    (hc : e.exec dev k = some k') : MachineOk u k' := by
  cases e with
  | call c => exact (h.call hdev hs hc).1
  | power ram =>
      obtain rfl := Option.some.inj hc
      exact (h.power hdev ram).1

theorem MachineReached.ok (h : MachineReached dev u k) : MachineOk u k := by
  induction h with
  | format hf htable hbitmap =>
      have hsector : dev fsStart = diskDev u fsStart := hdev
      obtain ⟨hf', hstart⟩ := ipoFsFormat_at hsector hf
      obtain ⟨hok, hstore⟩ := (Reached.format hf' htable hbitmap).ok
      exact ⟨hok, hstore, hstart⟩
  | event _ hs hc ih => exact ih.exec hdev hs hc

/-- After any history of calls and power cycles, a boot with anything in the memory mounts the
volume that is there and leaves the disk alone: every path leads to what it led to before, and no
descriptor is open. -/
theorem bootFs_keeps (hk : MachineReached dev u k) (ram : Kernel Disk) :
    (bootFs dev { ram with disk := k.disk }).2.disk = k.disk
    ∧ (bootFs dev { ram with disk := k.disk }).2.fsMounted = true
    ∧ ((bootFs dev { ram with disk := k.disk }).2.files u).store = (k.files u).store
    ∧ ∀ i, ((bootFs dev { ram with disk := k.disk }).2.files u).opened i = none :=
  ((hk.ok hdev).power hdev ram).2

/-- Through calls and power cycles in any order, a file that no call writes and none deletes, it
or a directory above it, keeps its type, its size and its bytes, at one path. -/
theorem file_survives_power {ino n : Nat} {m : UInt32} {b : Nat → Option UInt8}
    (hk : MachineReached dev u k)
    (hr : MachineRun dev (fun k c => StoreSafe u k c ∧ (k.files u).Spares ino c) k k')
    (hfile : HasFile (k.files u).store ino m n b) :
    ∃ p, (k'.files u).store p = some (.file ino m n b)
      ∧ ∀ q v, (k'.files u).store q = some v → v.ino = ino → q = p := by
  have hstep : ∀ s e s', (MachineOk u s ∧ HasFile (s.files u).store ino m n b) →
      MachineEvent.Meets (fun k c => StoreSafe u k c ∧ (k.files u).Spares ino c) s e →
      MachineEvent.exec dev e s = some s' →
      MachineOk u s' ∧ HasFile (s'.files u).store ino m n b := by
    rintro s e s' ⟨hs, hfile⟩ hok he
    cases e with
    | call c =>
        obtain ⟨hs', r, hcall⟩ := hs.call hdev hok.1 he
        exact ⟨hs', hcall.hasFile hs.store hok.2 hfile⟩
    | power ram =>
        obtain rfl := Option.some.inj he
        obtain ⟨hm, -, -, hstore, -⟩ := hs.power hdev ram
        exact ⟨hm, by rw [hstore]; exact hfile⟩
  obtain ⟨hm, p, hp⟩ := RunBy.invariant hstep hr ⟨hk.ok hdev, hfile⟩
  exact ⟨p, hp, fun q v hq hino => hm.store.inj hq hp hino⟩

end

/-! ## A small machine

A volume at `FS_START_LBA` with a file on it, switched off and on. -/

/-- A device on which nothing but the volume at `FS_START_LBA` can be read or written. -/
def volumeDev (u : Block) (start : UInt32) : BlockDev Disk :=
  if start = fsStart then arrayDev u else ⟨fun _ => pure none, fun _ _ => pure false, u⟩

theorem volumeDev_start (u : Block) : volumeDev u fsStart = arrayDev u := if_pos rfl

/-- The machine after a format of twelve blocks. -/
def newMachine : Kernel Disk := (ipoFsFormat (volumeDev Buf.zero) fsStart 12 6 blankKernel).2

/-- The machine after a boot from that volume. -/
def bootedMachine : Kernel Disk :=
  (bootFs (volumeDev Buf.zero) { blankKernel with disk := newMachine.disk }).2

/-- The machine after the file `/e` was created. -/
def fileMachine : Kernel Disk := (ipoFsCreate (volumeDev Buf.zero) ePath typeFile bootedMachine).2

/-- The machine after another boot, with what was there in the memory. -/
def rebootedMachine : Kernel Disk :=
  (bootFs (volumeDev Buf.zero) { openedKernel with disk := fileMachine.disk }).2

theorem fileMachine_reached : MachineReached (volumeDev Buf.zero) Buf.zero fileMachine := by
  have hres : (ipoFsFormat (volumeDev Buf.zero) fsStart 12 6 blankKernel).1
    = true := by decide +kernel
  have hf : ipoFsFormat (volumeDev Buf.zero) fsStart 12 6 blankKernel = (true, newMachine) := by
    rw [← hres, newMachine]
  have hboot : MachineEvent.exec (volumeDev Buf.zero) (.power blankKernel) newMachine
      = some bootedMachine := by
    rw [bootedMachine]
    rfl
  have hcreate : MachineEvent.exec (volumeDev Buf.zero)
    (.call (.create ePath typeFile)) bootedMachine
      = some fileMachine := by
    rw [fileMachine]
    rfl
  have hsafe : MachineEvent.Meets (StoreSafe Buf.zero) bootedMachine
      (.call (.create ePath typeFile)) :=
    ⟨trivial, fun hc => hc⟩
  have hpower : MachineEvent.Meets (StoreSafe Buf.zero) newMachine (.power blankKernel) := trivial
  exact .event (.event (.format hf (by decide) (by decide)) hpower hboot) hsafe hcreate

theorem bootFs_keeps_file :
    (rebootedMachine.files Buf.zero).store = (fileMachine.files Buf.zero).store :=
  (bootFs_keeps (volumeDev_start Buf.zero) fileMachine_reached openedKernel).2.2.1

/-- The file `/e` after a power cycle. -/
theorem file_survives_power_boot : ∃ p,
    (rebootedMachine.files Buf.zero).store p
      = (fileMachine.files Buf.zero).store (pathComps ePath.chars)
      ∧ ∀ q v, (rebootedMachine.files Buf.zero).store q = some v → v.ino = 4 → q = p := by
  have hok := fileMachine_reached.ok (volumeDev_start Buf.zero)
  have hres : (pathResolve (arrayDev Buf.zero) fileMachine.sb ePath.chars fileMachine.disk).1
      = some 4 := by
    decide +kernel
  have hdir : (fileMachine.disk.inodeAt fileMachine.sb 4).isDir = false := by decide +kernel
  have hstore : (fileMachine.files Buf.zero).store (pathComps ePath.chars)
      = some (.file 4 (fileMachine.disk.inodeAt fileMachine.sb 4).mode
        (fileMachine.disk.inodeAt fileMachine.sb 4).size.toNat
        (fileMachine.disk.fileByte (fileMachine.disk.inodeAt fileMachine.sb 4))) := by
    rw [Kernel.store_resolve, hres, Option.map_some, Disk.node, hdir, if_neg (by decide)]
  have hrun : MachineRun (volumeDev Buf.zero)
      (fun k c => StoreSafe Buf.zero k c ∧ (k.files Buf.zero).Spares 4 c) fileMachine
          rebootedMachine :=
    Relation.ReflTransGen.single ⟨.power openedKernel, trivial, by rw [rebootedMachine]; rfl⟩
  obtain ⟨p, hp, hall⟩ :=
    file_survives_power (volumeDev_start Buf.zero) fileMachine_reached hrun ⟨_, hstore⟩
  exact ⟨p, by rw [hp, hstore], hall⟩

end IpoOs
