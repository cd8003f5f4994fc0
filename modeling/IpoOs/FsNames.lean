import IpoOs.FsSlots

/-!
# Directories over whole runs

In every run without a write into a directory, each slot of each
directory is mapped and holds an entry with a proper name or none. On
such volumes `dir_find_entry` is a search of the live entries by name.

A write into a directory takes a descriptor that outlived its file, whose
inode number was given to a directory since.

The invariant is kept by every call but a write into a directory, and that
is the condition on the runs (`FilesWritten`). It needs the ownership of
`VolOk` at every step, so the two go together through the calls.
-/

namespace IpoOs

/-! ## The invariant

`DirOk` is about one directory and `DirsOk` about all of them. The lemmas
say which effects on slots keep it. -/

/-- An allocated directory. -/
def Disk.LiveDir (d : Disk) (sb : Superblock) (i : Nat) : Prop :=
  sb.ValidIno i ∧ d.inodeUsed sb i = true ∧ (d.inodeAt sb i).isDir = true

instance (d : Disk) (sb : Superblock) (i : Nat) : Decidable (d.LiveDir sb i) :=
  inferInstanceAs (Decidable (_ ∧ _ ∧ _))

/-- Every slot of the directory is mapped and properly named. -/
def Disk.DirOk (d : Disk) (sb : Superblock) (i : Nat) : Prop :=
  ∀ e, e < (d.inodeAt sb i).slots → ∃ s, d.dirSlot (d.inodeAt sb i) e = some s ∧ s.Named

/-- All allocated directories are in order. -/
def DirsOk (sb : Superblock) (d : Disk) : Prop := ∀ i, d.LiveDir sb i → d.DirOk sb i

section

variable {sb : Superblock} {hi ino : Nat} {d d' : Disk}

theorem Touched.liveDir (h : Touched sb hi ino d d') (i : Nat) :
    d'.LiveDir sb i ↔ d.LiveDir sb i := by
  unfold Disk.LiveDir Inode.isDir
  rcases em (sb.ValidIno i) with hv | hv
  · rw [h.inodeUsed i hv]
    rcases em (i = ino) with rfl | hi
    · rw [h.mode]
    · rw [h.inodeAt i hi]
  · simp only [hv, false_and]

theorem Touched.dirOk (h : Touched sb hi ino d d') {i : Nat} (hi : i ≠ ino)
    (hd : d.DirOk sb i) : d'.DirOk sb i := by
  intro e he
  rw [h.inodeAt i hi] at he ⊢
  obtain ⟨s, hs, hn⟩ := hd e he
  exact ⟨s, by rw [(h.same i hi).dirSlot, hs], hn⟩

theorem DirsOk.touched (h : DirsOk sb d) (ht : Touched sb hi ino d d')
    (hself : d.LiveDir sb ino → d'.DirOk sb ino) : DirsOk sb d' := by
  intro i hlive
  rw [ht.liveDir i] at hlive
  rcases em (i = ino) with rfl | hi
  · exact hself hlive
  · exact ht.dirOk hi (h i hlive)

theorem DirsOk.added {de : DirEntry} (h : DirsOk sb d) (ha : EntryAdded sb ino de d d')
    (hn : de.Named) : DirsOk sb d' := by
  refine h.touched ha.touched fun hlive e he => ?_
  rw [ha.slots] at he
  rcases em (e = (d.inodeAt sb ino).slots) with rfl | hne
  · exact ⟨de, ha.slot, hn⟩
  · obtain ⟨s, hs, hsn⟩ := h ino hlive e (by omega)
    exact ⟨s, ha.kept e s hne hs, hsn⟩

theorem DirsOk.refused (h : DirsOk sb d) (hr : EntryRefused sb ino d d') : DirsOk sb d' := by
  refine h.touched hr.touched fun hlive e he => ?_
  rw [hr.inodeAt] at he ⊢
  obtain ⟨s, hs, hsn⟩ := h ino hlive e he
  exact ⟨s, hr.kept e s hs, hsn⟩

theorem DirsOk.changed {k : Nat} {f : DirEntry → DirEntry} (h : DirsOk sb d)
    (hc : SlotChanged sb ino k f d d') (hf : ∀ s : DirEntry, s.Named → (f s).Named) :
    DirsOk sb d' := by
  refine h.touched hc.touched fun hlive e he => ?_
  rw [hc.inodeAt] at he ⊢
  obtain ⟨s, hs, hsn⟩ := h ino hlive e he
  rw [hc.slot]
  split
  · rename_i hek
    exact ⟨f s, by rw [← hek, hs, Option.map_some], hf s hsn⟩
  · exact ⟨s, hs, hsn⟩

theorem DirsOk.taken {r : Inode} (h : DirsOk sb d) (ht : InodeTaken sb hi ino r d d')
    (hsize : r.size = 0) : DirsOk sb d' := by
  rintro i ⟨hv, hused, hdir⟩ e he
  rw [ht.inodeAt] at hdir he ⊢
  rw [ht.inodeUsed i hv] at hused
  rcases em (i = ino) with hi | hi
  · rw [if_pos hi, Inode.slots, hsize] at he
    exact absurd he (Nat.not_lt_zero e)
  · rw [if_neg hi] at hdir he hused ⊢
    obtain ⟨s, hs, hsn⟩ := h i ⟨hv, hused, hdir⟩ e he
    exact ⟨s, by rw [(ht.same i hi).dirSlot, hs], hsn⟩

theorem DirsOk.freed (h : DirsOk sb d) (hf : InodeFreed sb hi ino d d') : DirsOk sb d' := by
  rintro i ⟨hv, hused, hdir⟩ e he
  rw [hf.inodeUsed i hv] at hused
  have hi : i ≠ ino := fun hc => by
    rw [if_pos hc] at hused
    cases hused
  rw [if_neg hi] at hused
  rw [hf.inodeAt, if_neg hi] at hdir he ⊢
  obtain ⟨s, hs, hsn⟩ := h i ⟨hv, hused, hdir⟩ e he
  exact ⟨s, by rw [(hf.same i hi).dirSlot, hs], hsn⟩

end

/-! ## The steps of `ipo_fs_write_text`

The one call that is made of others: it may create the file, opens it, and
writes through the descriptor. -/

section

variable {u : Block} {k : Kernel Disk}

theorem openTarget_some {sb : Superblock} {d : Disk} {path : Str} {ino : Nat}
    (h : (openTarget path (arrayDev u) sb d).1 = some ino) :
    sb.ValidIno ino ∧ (d.inodeAt sb ino).isDir = false
      ∧ (pathResolve (arrayDev u) sb path d).1 = some ino := by
  obtain ⟨p, hp⟩ : ∃ p, pathResolve (arrayDev u) sb path d = (p, d) :=
    ⟨_, (readOnly_pathResolve u sb path).run_eq d⟩
  cases p with
  | none => simp [openTarget, hp] at h
  | some i =>
      rcases em (sb.ValidIno i) with hv | hv
      · cases hdir : (d.inodeAt sb i).isDir with
        | true => simp [openTarget, hp, readInode_array, hv, hdir] at h
        | false =>
            simp only [openTarget, Prog.run_bind, hp, readInode_array, hv, if_true, hdir,
              Bool.false_eq_true, if_false, Prog.run_pure, Option.some.injEq] at h
            subst h
            exact ⟨hv, hdir, by rw [hp]⟩
      · simp [openTarget, hp, readInode_array, hv] at h

/-- `ipo_fs_write_text` on an existing path: nothing, or the file opened and written. -/
theorem writeTextAt_steps (path text : CString) (append : Bool) :
    (writeTextAt (diskDev u) path text append k).2 = k
    ∨ ∃ ino i size offset, (openTarget path.chars (arrayDev u) k.sb k.disk).1 = some ino
      ∧ firstUnused k.fds 32 0 = some i
      ∧ (writeTextAt (diskDev u) path text append k).2
        = (ipoFsWrite (diskDev u) i (cstr text.chars) size offset (k.opened i ino)).2 := by
  have hstat : (ipoFsStat (diskDev u) path k).2 = k := by
    rw [ipoFsStat_run]
    split <;> rfl
  unfold writeTextAt
  simp only [Prog.run_bind, hstat]
  cases (ipoFsStat (diskDev u) path k).1 with
  | none => exact Or.inl rfl
  | some inode =>
      simp only [Prog.run_ite]
      split
      · exact Or.inl rfl
      · simp only [Prog.run_bind]
        rcases ipoFsOpen_run u k path with hrun | ⟨ino, i, -, htarget, hfirst, hrun⟩
        · rw [hrun]
          exact Or.inl rfl
        · rw [hrun]
          exact Or.inr ⟨ino, i, _, _, htarget, hfirst, rfl⟩

/-- `ipo_fs_write_text`: perhaps a file created, perhaps a file opened and written. -/
theorem ipoFsWriteText_steps (path text : CString) (append : Bool) :
    ∃ k₁, (k₁ = k ∨ k₁ = (ipoFsCreate (diskDev u) path typeFile k).2)
      ∧ ((ipoFsWriteText (diskDev u) path text append k).2 = k₁
      ∨ ∃ ino i size offset, (openTarget path.chars (arrayDev u) k₁.sb k₁.disk).1 = some ino
        ∧ firstUnused k₁.fds 32 0 = some i
        ∧ (ipoFsWriteText (diskDev u) path text append k).2
          = (ipoFsWrite (diskDev u) i (cstr text.chars) size offset (k₁.opened i ino)).2) := by
  have hres : (withFs (diskDev u) (fun dev sb => pathResolve dev sb path.chars) k).2 = k := by
    rw [withFs_run, readOnly_pathResolve u k.sb path.chars k.disk]
  unfold ipoFsWriteText
  rw [Prog.run_bind, getKernel_run, Prog.run_ite]
  split
  · exact ⟨k, Or.inl rfl, Or.inl rfl⟩
  · rw [Prog.run_bind, hres]
    cases (withFs (diskDev u) (fun dev sb => pathResolve dev sb path.chars) k).1 with
    | some i => exact ⟨k, Or.inl rfl, writeTextAt_steps path text append⟩
    | none =>
        refine ⟨_, Or.inr rfl, ?_⟩
        simp only [Prog.run_bind]
        generalize ipoFsCreate (diskDev u) path typeFile k = res
        obtain ⟨ino, k₁⟩ := res
        cases ino with
        | none => exact Or.inl rfl
        | some ino => exact writeTextAt_steps path text append

theorem firstUnused_lt {fds : Nat → Fd} {n i j : Nat} (h : firstUnused fds n i = some j) :
    i ≤ j ∧ j < i + n ∧ (fds j).used = false := by
  induction n generalizing i with
  | zero => cases h
  | succ n ih =>
      unfold firstUnused at h
      cases hu : (fds i).used with
      | false =>
          rw [hu] at h
          obtain rfl := Option.some.inj h
          exact ⟨Nat.le_refl _, by omega, hu⟩
      | true =>
          rw [hu] at h
          obtain ⟨h1, h2, h3⟩ := ih h
          exact ⟨by omega, by omega, h3⟩

theorem Kernel.opened_fd {i : Nat} (ino : Nat) :
    (k.opened i ino).fds i = ⟨true, ino, 0⟩ := if_pos rfl

end

/-! ## Every call keeps the directories in order

One lemma for each call, from the effects on slots. -/

/-- A write through a descriptor does not go into an allocated directory. -/
def FilesWritten (k : Kernel Disk) : FsCall → Prop
  | .write fd _ _ _ => k.fdOk fd → ¬ k.disk.LiveDir k.sb (k.fds fd.toNat).inode
  | _ => True

section

variable {u : Block} {k : Kernel Disk}

theorem createEntry_dirsOk (h : VolOk k) (hd : DirsOk k.sb k.disk) (path : Str) (type : UInt8) :
    DirsOk k.sb (createEntry path type (arrayDev u) k.sb k.disk).2 := by
  rcases createEntry_cases h.layout h.bound u h.owned h.count path type with
    hrun | ⟨parent, name, i, d₁, d₂, hok, -, -, ht, ⟨hadd, hrun⟩ | ⟨d₃, hadd, hf, hrun⟩⟩
  · rw [hrun]
    exact hd
  · rw [hrun]
    exact (hd.taken ht rfl).added (dirAddEntry_added h.layout u ht.owned hadd).2
      (DirEntry.named_makeEntry (Or.inl hok.valid))
  · rw [hrun]
    exact ((hd.taken ht rfl).refused (dirAddEntry_refused h.layout u ht.owned hadd)).freed hf

theorem dirRemoveEntry_dirsOk (h : SoundLayout k.sb) {d d' : Disk}
    (O : OwnedVol k.sb (intBound k.sb) d) (hd : DirsOk k.sb d) {dir : Nat} {name : Str} {ok : Bool}
    (hrun : dirRemoveEntry (arrayDev u) k.sb dir name d = (ok, d')) : DirsOk k.sb d' := by
  cases ok with
  | false =>
      rcases @dirRemoveEntry_cases k.sb u d dir name with hsame | ⟨e, p, -, -, -, -, -, -, -, hkill⟩
      · rw [hrun] at hsame
        exact (Prod.mk.inj hsame).2 ▸ hd
      · rw [hrun] at hkill
        cases (Prod.mk.inj hkill).1
  | true =>
      obtain ⟨e, p, -, -, -, -, -, hc⟩ := dirRemoveEntry_removed h u O hrun
      exact hd.changed hc fun s _ => s.named_dead

theorem deleteEntry_dirsOk (h : VolOk k) (hd : DirsOk k.sb k.disk) (path : Str) :
    DirsOk k.sb (deleteEntry path (arrayDev u) k.sb k.disk).2 := by
  rcases deleteEntry_cases h.layout h.bound u h.owned path with
    hrun | ⟨parent, name, de, d₁, d₂, -, hrem, hf, hrun⟩
  · rw [hrun]
    exact hd
  · rw [hrun]
    exact (dirRemoveEntry_dirsOk h.layout h.owned hd hrem).freed hf

theorem renameEntry_dirsOk (h : VolOk k) (hd : DirsOk k.sb k.disk) (fuel : Nat)
    (oldpath newpath : Str) :
    DirsOk k.sb (renameEntry fuel oldpath newpath (arrayDev u) k.sb k.disk).2 := by
  rcases @renameEntry_cases k.sb u k.disk fuel oldpath newpath with
    ⟨res, hrun, -⟩ | ⟨op, on, de, np, nn, hok, hrun⟩
  · rw [hrun]
    exact hd
  · rw [hrun]
    rcases moveEntry_cases u k.disk op on hok.valid np nn with
      ⟨d₁, hadd, hmove⟩ | ⟨d₁, d₂, hadd, hd₂, hmove⟩
    · rw [hmove]
      exact hd.refused (dirAddEntry_refused h.layout u h.owned hadd)
    · have hadded := (dirAddEntry_added h.layout u h.owned hadd).2
      have hd₁ := hd.added hadded (DirEntry.named_makeEntry (Or.inl hok.validName))
      have hmid : OwnedVol k.sb (intBound k.sb) d₂ ∧ DirsOk k.sb d₂ := by
        rw [hd₂]
        split
        · have hc := patchDotdot_slot h.layout u hadded.touched.owned hok.valid np
          exact ⟨hc.touched.owned, hd₁.changed hc fun s hs => hs.setInode _⟩
        · exact ⟨hadded.touched.owned, hd₁⟩
      rw [hmove]
      exact dirRemoveEntry_dirsOk h.layout hmid.1 hmid.2 rfl

theorem ipoFsWrite_dirsOk (h : VolOk k) (hd : DirsOk k.sb k.disk) (fd : Int) (buffer : Buf)
    (size offset : UInt32) (hfile : k.fdOk fd → ¬ k.disk.LiveDir k.sb (k.fds fd.toNat).inode) :
    DirsOk k.sb (ipoFsWrite (diskDev u) fd buffer size offset k).2.disk := by
  rcases ipoFsWrite_run u k fd buffer size offset with ⟨hfd, hrun⟩ | ⟨-, hrun⟩
  · rw [hrun]
    exact hd.touched (writeFile_touched h.layout h.bound u h.owned _ buffer size.toNat
      offset.toNat) fun hlive => absurd hlive (hfile hfd)
  · rw [hrun]
    exact hd

theorem ipoFsCreate_dirsOk (h : VolOk k) (hd : DirsOk k.sb k.disk) (path : CString)
    (type : UInt8) : DirsOk k.sb (ipoFsCreate (diskDev u) path type k).2.disk := by
  rw [ipoFsCreate_run]
  split
  · exact createEntry_dirsOk h hd path.chars type
  · exact hd

/-- The superblock in memory is that of the volume, and no call changes it. -/
theorem exec_sb {c : FsCall} {k' : Kernel Disk} (h : VolOk k)
    (hc : c.exec (diskDev u) k = some k') : k'.sb = k.sb := by
  have hwrite : ∀ fd buffer size offset (k : Kernel Disk),
      (ipoFsWrite (diskDev u) fd buffer size offset k).2.sb = k.sb :=
    fun fd buffer size offset k => by
      rcases ipoFsWrite_run u k fd buffer size offset with ⟨-, hrun⟩ | ⟨-, hrun⟩ <;> rw [hrun]
  have hcreate : ∀ path type, (ipoFsCreate (diskDev u) path type k).2.sb = k.sb :=
    fun path type => by
      rw [ipoFsCreate_run]
      split <;> rfl
  cases c with
  | mount =>
      obtain rfl := Option.some.inj hc
      rw [ipoFsMount_run, h.super]
      split <;> rfl
  | create path type => exact Option.some.inj hc ▸ hcreate path type
  | openFd path =>
      obtain rfl := Option.some.inj hc
      rcases ipoFsOpen_run u k path with hrun | ⟨ino, i, -, -, -, hrun⟩ <;> rw [hrun]
      rfl
  | read fd buffer size offset =>
      obtain rfl := Option.some.inj hc
      rcases ipoFsRead_run u k fd buffer size offset with ⟨-, hrun⟩ | ⟨-, hrun⟩ <;> rw [hrun]
  | write fd buffer size offset => exact Option.some.inj hc ▸ hwrite fd buffer size offset k
  | writeText path text append =>
      obtain rfl := Option.some.inj hc
      obtain ⟨k₁, hk₁, hres | ⟨ino, i, size, offset, -, -, hres⟩⟩ :=
        @ipoFsWriteText_steps u k path text append
      · rw [hres]
        rcases hk₁ with rfl | rfl
        · rfl
        · exact hcreate path typeFile
      · rw [hres, hwrite]
        rcases hk₁ with rfl | rfl
        · rfl
        · exact hcreate path typeFile
  | delete path =>
      obtain rfl := Option.some.inj hc
      rw [ipoFsDelete_run]
      split <;> rfl
  | rename fuel oldpath newpath =>
      simp only [FsCall.exec] at hc
      rw [ipoFsRename_run] at hc
      split at hc
      · rename_i res k₁ heq
        cases hc
      · rename_i b k₁ heq
        obtain rfl := Option.some.inj hc
        split at heq <;> obtain ⟨-, rfl⟩ := Prod.mk.inj heq <;> rfl

/-- Every call that writes no directory keeps the directories in order. -/
theorem exec_dirsOk {c : FsCall} {k' : Kernel Disk} (h : VolOk k) (hd : DirsOk k.sb k.disk)
    (hok : FilesWritten k c) (hc : c.exec (diskDev u) k = some k') : DirsOk k'.sb k'.disk := by
  rw [exec_sb h hc]
  cases c with
  | mount =>
      obtain rfl := Option.some.inj hc
      rw [ipoFsMount_run]
      split <;> exact hd
  | create path type => exact Option.some.inj hc ▸ ipoFsCreate_dirsOk h hd path type
  | openFd path =>
      obtain rfl := Option.some.inj hc
      rcases ipoFsOpen_run u k path with hrun | ⟨ino, i, -, -, -, hrun⟩ <;> rw [hrun] <;> exact hd
  | read fd buffer size offset =>
      obtain rfl := Option.some.inj hc
      rcases ipoFsRead_run u k fd buffer size offset with ⟨-, hrun⟩ | ⟨-, hrun⟩ <;>
        rw [hrun] <;> exact hd
  | write fd buffer size offset =>
      exact Option.some.inj hc ▸ ipoFsWrite_dirsOk h hd fd buffer size offset hok
  | writeText path text append =>
      obtain rfl := Option.some.inj hc
      obtain ⟨k₁, hk₁, hrest⟩ := @ipoFsWriteText_steps u k path text append
      have hfirst : VolOk k₁ ∧ DirsOk k₁.sb k₁.disk ∧ k₁.sb = k.sb := by
        rcases hk₁ with rfl | rfl
        · exact ⟨h, hd, rfl⟩
        · have hsb := exec_sb h (c := .create path typeFile) (u := u) rfl
          exact ⟨ipoFsCreate_ok h path typeFile, by rw [hsb]; exact ipoFsCreate_dirsOk h hd path _,
            hsb⟩
      obtain ⟨h₁, hd₁, hsb⟩ := hfirst
      rcases hrest with hres | ⟨ino, i, size, offset, htarget, -, hres⟩
      · rw [hres, ← hsb]
        exact hd₁
      · rw [hres, ← hsb]
        have hopen : VolOk (k₁.opened i ino) := h₁.of_disk rfl h₁.owned _
        refine ipoFsWrite_dirsOk (k := k₁.opened i ino) hopen hd₁ i _ size offset fun _ hlive => ?_
        -- the file just opened is not a directory
        have hdir := (openTarget_some htarget).2.1
        rw [Int.toNat_natCast, Kernel.opened_fd] at hlive
        exact absurd (hlive.2.2.symm.trans hdir) (by decide)
  | delete path =>
      obtain rfl := Option.some.inj hc
      rw [ipoFsDelete_run]
      split
      · exact deleteEntry_dirsOk h hd path.chars
      · exact hd
  | rename fuel oldpath newpath =>
      simp only [FsCall.exec] at hc
      rw [ipoFsRename_run] at hc
      split at hc
      · cases hc
      · rename_i b k₁ heq
        obtain rfl := Option.some.inj hc
        split at heq
        · obtain ⟨-, rfl⟩ := Prod.mk.inj heq
          exact renameEntry_dirsOk h hd fuel oldpath.chars newpath.chars
        · obtain ⟨-, rfl⟩ := Prod.mk.inj heq
          exact hd

end

/-! ## The directories of a new volume

The three directories of a format, with their dots. -/

section

variable {sb : Superblock} {d d' : Disk} (L : SoundLayout sb) (u : Block)

theorem decode_dotsBlock_self (ino parent : Nat) :
    DirEntry.decode (dotsBlock ino parent) 0 = makeEntry ino typeDir dot := by
  unfold dotsBlock
  rw [← DirEntry.decode_patch Buf.zero 0 (makeEntry ino typeDir dot)]
  refine DirEntry.decode_congr fun i hi => ?_
  rw [DirEntry.decode_patch]
  exact Buf.patch_out (Or.inl (by omega))

theorem decode_dotsBlock_parent (ino parent : Nat) :
    DirEntry.decode (dotsBlock ino parent) 72 = makeEntry parent typeDir dotdot :=
  DirEntry.decode_patch _ 72 _

include L

theorem DirStarted.slots {ino parent p : Nat} (hv : sb.ValidIno ino)
    (h : DirStarted sb ino parent p d d') :
    (d'.inodeAt sb ino).slots = 2
      ∧ d'.dirSlot (d'.inodeAt sb ino) 0 = some (makeEntry ino typeDir dot)
      ∧ d'.dirSlot (d'.inodeAt sb ino) 1 = some (makeEntry parent typeDir dotdot) := by
  have hp0 : p ≠ 0 := L.dataBlock_ne_zero h.block
  have hlow := h.low
  have hat : d'.inodeAt sb ino = { (d.inodeAt sb ino).setDirect 0 p with size := 144 } := by
    rw [h.eq, L.inodeAt_putInode_eq hv, Function.update_self]
  have hblock : d' p = dotsBlock ino parent := by
    rw [h.eq, L.putInode_data hv _ h.block.1, Disk.set_self]
  have hphys : ∀ e, e / 7 = 0 → d'.findPhys (d'.inodeAt sb ino) e = some p := fun e he => by
    unfold Disk.findPhys
    rw [dif_pos (by omega), hat]
    simp only [Inode.setDirect, he, if_true, Option.some.injEq]
    rw [UInt32.toNat_ofNat']
    omega
  have hsize : (d'.inodeAt sb ino).size = 144 := by rw [hat]
  refine ⟨by rw [Inode.slots, hsize]; decide, ?_, ?_⟩
  · simp only [Disk.dirSlot, hphys 0 rfl, hp0, if_false, hblock]
    rw [← decode_dotsBlock_self ino parent]
  · simp only [Disk.dirSlot, hphys 1 rfl, hp0, if_false, hblock]
    rw [← decode_dotsBlock_parent ino parent]

theorem DirStarted.dirOk {ino parent p : Nat} (hv : sb.ValidIno ino)
    (h : DirStarted sb ino parent p d d') : d'.DirOk sb ino := by
  obtain ⟨hn, h0, h1⟩ := h.slots L hv
  intro e he
  rw [hn] at he
  rcases Nat.lt_succ_iff_lt_or_eq.mp he with hlt | rfl
  · obtain rfl := Nat.lt_one_iff.mp hlt
    exact ⟨_, h0, DirEntry.named_makeEntry (Or.inr (Or.inl rfl))⟩
  · exact ⟨_, h1, DirEntry.named_makeEntry (Or.inr (Or.inr rfl))⟩

theorem DirsOk.set_zero (O : OwnedVol sb (intBound sb) d) (h : DirsOk sb d) (b : Block) :
    DirsOk sb (d.set 0 b) := by
  have h1 := L.first
  have h2 := L.inodeBitmap
  have h3 := L.blockBitmap
  have h4 := L.inodeTable
  obtain ⟨-, hat⟩ := ownedVol_set_zero L (blockBound_int sb) O b
  have hdata : ∀ q, sb.dataBlocksStart.toNat ≤ q → d.set 0 b q = d q := fun q hq =>
    Disk.set_of_ne (by omega)
  rintro i ⟨hv, hused, hdir⟩ e he
  have husedEq : (d.set 0 b).inodeUsed sb i = d.inodeUsed sb i := by
    obtain ⟨h5, h6⟩ := L.inodeBit_block hv
    exact Disk.bit_congr (by rw [h5]; exact Disk.set_of_ne (by omega))
  rw [husedEq] at hused
  rw [hat] at hdir he ⊢
  rw [(O.sameFile hdata i).dirSlot]
  exact h i ⟨hv, hused, hdir⟩ e he

theorem FormatSteps.dirsOk {d₀ d₁ d₂ d₃ d₄ d₅ d₆ d₇ : Disk} {app autorun p q : Nat}
    (h : FormatSteps u sb (intBound sb) d₀ d₁ d₂ d₃ d₄ d₅ d₆ d₇ app autorun p q)
    (hv : sb.ValidIno 1) (hd : DirsOk sb d₀) : DirsOk sb d₇ := by
  have B := blockBound_int sb
  obtain ⟨h12, h34, h45, h67⟩ := h.owned L B u hv
  have hd₂ := (hd.taken h.root rfl).touched h12 fun _ => h.rootDir.dirOk L hv
  have hd₄ := (hd₂.taken h.appInode rfl).touched h34 fun _ => h.appDir.dirOk L h.appFree.1
  have hd₅ := hd₄.added (dirAddEntry_added L u h34.owned h.appEntry).2
    (DirEntry.named_makeEntry (Or.inl (by decide)))
  exact (hd₅.taken h.autorunInode rfl).added
    (dirAddEntry_added L u h.autorunInode.owned h.autorunEntry).2
    (DirEntry.named_makeEntry (Or.inl (by decide)))

end

theorem ipoFsFormat_dirsOk {u : Block} {start totalBlocks totalInodes : UInt32}
    {k₀ k : Kernel Disk} (hf : ipoFsFormat (diskDev u) start totalBlocks totalInodes k₀ = (true, k))
    (htable : TableFits totalInodes) (hbitmap : BitmapFits totalBlocks totalInodes) :
    DirsOk k.sb k.disk := by
  obtain ⟨L, hsb, -, -, -, d₀, d₁, d₂, d₃, d₄, d₅, d₆, d₇, app, autorun, p, q, hzero, hv, hsteps,
    hdisk⟩ := ipoFsFormat_cases hf htable hbitmap
  rw [← hsb] at L
  obtain ⟨-, -, hunused⟩ := ownedVol_zeroed (intBound k.sb) L hzero
  have hd₀ : DirsOk k.sb d₀ := fun i hlive =>
    absurd (hlive.2.1.symm.trans (hunused i hlive.1)) (by decide)
  obtain ⟨-, -, -, h67⟩ := hsteps.owned L (blockBound_int k.sb) u hv
  rw [hdisk]
  exact (hsteps.dirsOk L u hv hd₀).set_zero L h67.owned _

/-- The directories are in order in every state of every run that writes no directory. -/
theorem FsRun.dirsOk {u : Block} {k k' : Kernel Disk} (hr : FsRun u FilesWritten k k')
    (h : VolOk k) (hd : DirsOk k.sb k.disk) : DirsOk k'.sb k'.disk :=
  (hr.invariant (fun _ _ _ (hk : VolOk _ ∧ DirsOk _ _) hok he =>
    ⟨exec_ok hk.1 he, exec_dirsOk hk.1 hk.2 hok he⟩) ⟨h, hd⟩).2

/-! ## The live entries

The list that a search goes through, and `dir_find_entry` as `List.find?` on
it. -/

/-- The live entries of a directory, in slot order. -/
def Disk.liveEntries (d : Disk) (r : Inode) : List DirEntry :=
  (List.range r.slots).filterMap fun e => (d.dirSlot r e).filter fun s => s.inode ≠ 0

section

variable {sb : Superblock} {d : Disk} {r : Inode} (u : Block)

/-- The walk of `dir_find_entry` is a search of the live entries by name. -/
theorem dirFindFrom_find {name : Str} (hname : name ≠ []) {n e : Nat}
    (h : ∀ j s, e ≤ j → j < e + n → d.dirSlot r j = some s → s.Readable) :
    (dirFindFrom (arrayDev u) sb r name n e d).1.map (·.1)
      = ((List.range' e n).filterMap fun j => (d.dirSlot r j).filter fun s => s.inode ≠ 0).find?
          fun s => s.nameBytes = name := by
  induction n generalizing e with
  | zero => rfl
  | succ n ih =>
      have ih' := @ih (e + 1) fun j s h1 h2 => h j s (by omega) (by omega)
      rw [List.range'_succ]
      unfold dirFindFrom
      rw [Prog.run_bind, findPhys_array]
      cases hp : d.findPhys r e with
      | none =>
          have hslot : d.dirSlot r e = none := by rw [Disk.dirSlot, hp]
          rw [List.filterMap_cons_none (by rw [hslot]; rfl)]
          exact ih'
      | some p =>
          show (Option.map _ ((if p = 0 then _ else _ : Prog Disk _) d).1) = _
          rw [Prog.run_ite]
          split
          · rename_i h0
            have hslot : d.dirSlot r e = none := by rw [Disk.dirSlot, hp]; exact if_pos h0
            rw [List.filterMap_cons_none (by rw [hslot]; rfl)]
            exact ih'
          · rename_i h0
            have hslot : d.dirSlot r e = some (DirEntry.decode (d p) (e % 7 * 72)) := by
              rw [Disk.dirSlot, hp]
              exact if_neg h0
            have hmatch := entryMatches_iff (h e _ (Nat.le_refl _) (by omega) hslot) name
            rw [Prog.run_bind, arrayDev_read]
            show (Option.map _ ((if entryMatches (d p) (e % 7 * 72) name then _ else _ :
              Prog Disk _) d).1) = _
            rw [Prog.run_ite]
            rcases em ((DirEntry.decode (d p) (e % 7 * 72)).inode = 0) with hz | hz
            · rw [List.filterMap_cons_none (by rw [hslot]; simp [Option.filter, hz]),
                if_neg fun hm => (hmatch.mp hm).1 hz]
              exact ih'
            · rw [List.filterMap_cons_some (by rw [hslot]; simp [Option.filter, hz]; rfl)]
              rcases em ((DirEntry.decode (d p) (e % 7 * 72)).nameBytes = name) with hn | hn
              · rw [if_pos (hmatch.mpr ⟨hz, hname, hn⟩), List.find?_cons_of_pos (by simpa using hn)]
                rfl
              · rw [if_neg fun hm => hn (hmatch.mp hm).2.2,
                  List.find?_cons_of_neg (by simpa using hn)]
                exact ih'

theorem dirFindEntry_find {i : Nat} (h : d.DirOk sb i) (hv : sb.ValidIno i)
    (hdir : (d.inodeAt sb i).isDir = true) {name : Str} (hname : name ≠ []) :
    (dirFindEntry (arrayDev u) sb i name d).1.map (·.1)
      = (d.liveEntries (d.inodeAt sb i)).find? fun s => s.nameBytes = name := by
  have hrun : dirFindEntry (arrayDev u) sb i name d
      = dirFindFrom (arrayDev u) sb (d.inodeAt sb i) name (d.inodeAt sb i).slots 0 d := by
    simp [dirFindEntry, readInode_array, hv, hdir, Inode.slots]
  rw [hrun, dirFindFrom_find u hname, Disk.liveEntries, List.range_eq_range']
  intro j s _ hj hs
  obtain ⟨s', hs', hn⟩ := h j (by omega)
  exact Option.some.inj (hs.symm.trans hs') ▸ hn.readable

end

end IpoOs
