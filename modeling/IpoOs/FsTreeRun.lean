import IpoOs.FsTreeSteps

/-!
# The tree in every state of a run

Each call is one step on the links of the volume, perhaps followed by a
write to a file. The tree of `ipo_fs_format` is kept by every call that
meets `TreeSafe`; the other results about runs are read off the same
steps.

`LinkStep` is the abstraction of a call that the tree needs, and
`exec_linkStep` connects it with the code. The condition `TreeSafe` has two
parts: writes go to files, and a directory that is renamed has a free second
slot.
-/

namespace IpoOs

/-- A call that may create an object of that type at that path. -/
def FsCall.creates : FsCall → CString → UInt8 → Prop
  | .create path type, p, t => p = path ∧ t = type
  | .writeText path _ _, p, t => p = path ∧ t = typeFile
  | _, _, _ => False

/-- One step on the links. -/
inductive LinkStep (u : Block) (k : Kernel Disk) : FsCall → Disk → Prop
  | kept {c : FsCall} {d : Disk} (h : LinksKept k.sb k.disk d) : LinkStep u k c d
  | created {c : FsCall} {d : Disk} {path : CString} {type : UInt8} {parent i : Nat} {name : Str}
      (hm : k.fsMounted = true) (hc : c.creates path type)
      (hok : CreateOk u k.sb k.disk path.chars parent name)
      (h : Created k.sb parent name type i k.disk d) : LinkStep u k c d
  | deleted {d : Disk} {path : CString} {parent e : Nat} {name : Str} {de : DirEntry}
      (hm : k.fsMounted = true) (hok : DeleteOk u k.sb k.disk path.chars parent name de)
      (h : Deleted k.sb parent de name e k.disk d) : LinkStep u k (.delete path) d
  | moved {d : Disk} {fuel : Nat} {oldpath newpath : CString} {op np e : Nat} {on nn : Str}
      {de : DirEntry} (hm : k.fsMounted = true)
      (hok : RenameOk u k.sb k.disk fuel oldpath.chars newpath.chars op on de np nn)
      (h : Moved k.sb op on de np nn e k.disk d) : LinkStep u k (.rename fuel oldpath newpath) d

/-- A write through a descriptor does not go into a directory, and a directory that is moved has
its second slot free for the new parent. -/
def TreeSafe (u : Block) (k : Kernel Disk) : FsCall → Prop
  | .write fd _ _ _ => k.fdOk fd → ¬ k.disk.LiveDir k.sb (k.fds fd.toNat).inode
  | .rename fuel oldpath newpath => k.fsMounted = true → ∀ op on de np nn,
      RenameOk u k.sb k.disk fuel oldpath.chars newpath.chars op on de np nn →
      de.type = typeDir → k.disk.LiveDir k.sb de.inode.toNat →
      k.disk.SecondFree (k.disk.inodeAt k.sb de.inode.toNat) np
  | _ => True

/-! ## One call

Every call is a link step, and every link step keeps the tree. -/

section

variable {sb : Superblock} {d d' d'' : Disk}

theorem LinksKept.liveDir (h : LinksKept sb d d') {v : Nat} : d'.LiveDir sb v ↔ d.LiveDir sb v :=
  iff_of_eq (congrFun (congrArg Naming.dir h.naming) v)

theorem LinksKept.trans (h : LinksKept sb d d') (h' : LinksKept sb d' d'') :
    LinksKept sb d d'' where
  naming := h'.naming.trans h.naming
  up hl := (h'.up (h.liveDir.mpr hl)).trans (h.up hl)
  mode hu := (h'.mode (by rw [h.naming]; exact hu)).trans (h.mode hu)

theorem Created.tree {parent i : Nat} {name : Str} {type : UInt8}
    (h : Created sb parent name type i d d')
    (ht : (d.naming sb).Tree 1) : (d'.naming sb).Tree 1 := by
  have hne : ∀ {v}, (d.naming sb).used v → v ≠ i := fun hv hc => h.fresh (hc ▸ hv)
  rw [h.naming]
  refine (ht.alloc _).link (Or.inr h.parentDir)
    ⟨Or.inl rfl, (hne (ht.dir_used ht.root_dir)).symm⟩ h.absent fun hm => hne (ht.target hm).1

theorem Deleted.tree {parent e : Nat} {name : Str} {de : DirEntry}
    (h : Deleted sb parent de name e d d') (ht : (d.naming sb).Tree 1) : (d'.naming sb).Tree 1 := by
  rw [h.naming]
  refine ht.unlink.free (ht.target h.entry).2 fun hm htarget => ?_
  obtain ⟨hother, hm⟩ := Naming.unlink_entry.mp hm
  exact hother (ht.unique hm h.entry htarget)

theorem Moved.slot_ne {op np e : Nat} {on nn : Str} {de : DirEntry}
    (h : Moved sb op on de np nn e d d') :
    ¬ (np = op ∧ (d.inodeAt sb np).slots = e) := by
  rintro ⟨rfl, he⟩
  exact Nat.ne_of_lt (Disk.naming_entry.mp h.entry).2.1 he.symm

theorem Moved.tree {op np e : Nat} {on nn : Str} {de : DirEntry}
    (h : Moved sb op on de np nn e d d') (ht : (d.naming sb).Tree 1) : (d'.naming sb).Tree 1 := by
  rw [h.naming]
  exact ht.move h.entry h.newDir h.slot_ne rfl h.absent

theorem LinkStep.tree {u : Block} {k : Kernel Disk} {c : FsCall} (h : LinkStep u k c d)
    (ht : (k.disk.naming k.sb).Tree 1) : (d.naming k.sb).Tree 1 := by
  cases h with
  | kept h =>
      rw [h.naming]
      exact ht
  | created _ _ _ h => exact h.tree ht
  | deleted _ _ h => exact h.tree ht
  | moved _ _ h => exact h.tree ht

end

section

variable {u : Block} {k k' : Kernel Disk} {c : FsCall}

theorem TreeSafe.filesWritten (hs : TreeSafe u k c) : FilesWritten k c := by
  cases c with
  | write fd buffer size offset => exact hs
  | _ => trivial

theorem ipoFsCreate_step (h : VolOk k) (ht : TreeOk k.sb k.disk) {path : CString} {type : UInt8}
    (hc : c.creates path type) :
    LinkStep u k c (ipoFsCreate (diskDev u) path type k).2.disk := by
  rw [ipoFsCreate_run]
  split
  · rename_i hm
    rcases createEntry_links (u := u) h ht path.chars type with
      ⟨-, hkept⟩ | ⟨parent, name, i, -, hok, hcreated⟩
    · exact .kept hkept
    · exact .created hm hc hok hcreated
  · exact .kept (LinksKept.refl _)

theorem ipoFsWrite_kept (h : VolOk k) (fd : Int) (buffer : Buf) (size offset : UInt32)
    (hfile : k.fdOk fd → ¬ k.disk.LiveDir k.sb (k.fds fd.toNat).inode) :
    LinksKept k.sb k.disk (ipoFsWrite (diskDev u) fd buffer size offset k).2.disk := by
  rcases ipoFsWrite_run u k fd buffer size offset with ⟨hfd, hrun⟩ | ⟨-, hrun⟩
  · rw [hrun]
    exact (writeFile_touched h.layout h.bound u h.owned _ buffer size.toNat offset.toNat).linksKept
      (hfile hfd)
  · rw [hrun]
    exact LinksKept.refl _

/-- Every call is a step on the links, after which at most a file is written. -/
theorem exec_linkStep (h : VolOk k) (ht : TreeOk k.sb k.disk) (hs : TreeSafe u k c)
    (hc : c.exec (diskDev u) k = some k') :
    ∃ d, LinkStep u k c d ∧ LinksKept k.sb d k'.disk := by
  have hsame : k'.disk = k.disk → ∃ d, LinkStep u k c d ∧ LinksKept k.sb d k'.disk :=
    fun he => ⟨k.disk, .kept (LinksKept.refl _), he ▸ LinksKept.refl _⟩
  have hone : LinkStep u k c k'.disk →
      ∃ d, LinkStep u k c d ∧ LinksKept k.sb d k'.disk := fun hstep =>
    ⟨_, hstep, LinksKept.refl _⟩
  cases c with
  | mount =>
      refine hsame ?_
      obtain rfl := Option.some.inj hc
      rw [ipoFsMount_run]
      split <;> rfl
  | create path type =>
      obtain rfl := Option.some.inj hc
      exact hone (ipoFsCreate_step h ht ⟨rfl, rfl⟩)
  | openFd path =>
      refine hsame ?_
      obtain rfl := Option.some.inj hc
      rcases ipoFsOpen_run u k path with hrun | ⟨ino, i, -, -, -, hrun⟩
      · rw [hrun]
      · rw [hrun]
        rfl
  | read fd buffer size offset =>
      refine hsame ?_
      obtain rfl := Option.some.inj hc
      rcases ipoFsRead_run u k fd buffer size offset with ⟨-, hrun⟩ | ⟨-, hrun⟩
      · rw [hrun]
      · rw [hrun]
  | write fd buffer size offset =>
      obtain rfl := Option.some.inj hc
      exact hone (.kept (ipoFsWrite_kept h fd buffer size offset hs))
  | writeText path text append =>
      obtain rfl := Option.some.inj hc
      obtain ⟨k₁, hk₁, hrest⟩ := @ipoFsWriteText_steps u k path text append
      have hfirst : VolOk k₁ ∧ k₁.sb = k.sb
          ∧ LinkStep u k (.writeText path text append) k₁.disk := by
        rcases hk₁ with rfl | rfl
        · exact ⟨h, rfl, .kept (LinksKept.refl _)⟩
        · exact ⟨ipoFsCreate_ok h path typeFile, exec_sb h (c := .create path typeFile)
            (u := u) rfl, ipoFsCreate_step h ht ⟨rfl, rfl⟩⟩
      obtain ⟨h₁, hsb, hstep⟩ := hfirst
      refine ⟨k₁.disk, hstep, ?_⟩
      rcases hrest with hres | ⟨ino, i, size, offset, htarget, -, hres⟩
      · rw [hres]
        exact LinksKept.refl _
      · rw [hres, ← hsb]
        have hopen : VolOk (k₁.opened i ino) := h₁.of_disk rfl h₁.owned _
        refine ipoFsWrite_kept (k := k₁.opened i ino) hopen i _ size offset fun _ hlive => ?_
        -- the file just opened is not a directory
        have hdir := (openTarget_some htarget).2.1
        rw [Int.toNat_natCast, Kernel.opened_fd] at hlive
        exact absurd (hlive.2.2.symm.trans hdir) (by decide)
  | delete path =>
      refine hone ?_
      obtain rfl := Option.some.inj hc
      rw [ipoFsDelete_run]
      split
      · rename_i hm
        rcases deleteEntry_links (u := u) h ht path.chars with
          hrun | ⟨parent, name, de, e, -, hok, hdeleted⟩
        · rw [hrun]
          exact .kept (LinksKept.refl _)
        · exact .deleted hm hok hdeleted
      · exact .kept (LinksKept.refl _)
  | rename fuel oldpath newpath =>
      refine hone ?_
      simp only [FsCall.exec] at hc
      rw [ipoFsRename_run] at hc
      split at hc
      · cases hc
      · rename_i b k₁ heq
        obtain rfl := Option.some.inj hc
        split at heq
        · rename_i hm
          obtain ⟨-, rfl⟩ := Prod.mk.inj heq
          rcases renameEntry_links h ht fuel oldpath.chars newpath.chars
              (fun hok => hs hm _ _ _ _ _ hok) with
            ⟨hkept, -⟩ | ⟨op, on, de, np, nn, e, -, hok, hmoved⟩
          · exact .kept hkept
          · exact .moved hm hok hmoved
        · obtain ⟨-, rfl⟩ := Prod.mk.inj heq
          exact .kept (LinksKept.refl _)

theorem exec_treeOk (h : VolOk k) (ht : TreeOk k.sb k.disk) (hs : TreeSafe u k c)
    (hc : c.exec (diskDev u) k = some k') : TreeOk k'.sb k'.disk := by
  obtain ⟨d, hstep, hkept⟩ := exec_linkStep h ht hs hc
  refine ⟨exec_dirsOk h ht.dirs hs.filesWritten hc, ?_⟩
  rw [exec_sb h hc, hkept.naming]
  exact hstep.tree ht.tree

/-- What the steps on the links keep holds in every state of every safe run. -/
theorem FsRun.links {ok : Kernel Disk → FsCall → Prop} (hok : ∀ k c, ok k c → TreeSafe u k c)
    {P : Superblock → Disk → Prop}
    (hstep : ∀ {k c d}, VolOk k → TreeOk k.sb k.disk → ok k c → LinkStep u k c d →
      P k.sb k.disk → P k.sb d)
    (hkept : ∀ {sb d d'}, (d.naming sb).Tree 1 → LinksKept sb d d' → P sb d → P sb d')
    (hr : FsRun u ok k k') (h : VolOk k) (ht : TreeOk k.sb k.disk) (hP : P k.sb k.disk) :
    VolOk k' ∧ TreeOk k'.sb k'.disk ∧ P k'.sb k'.disk := by
  refine @RunBy.invariant _ _ _ _ (fun k => VolOk k ∧ TreeOk k.sb k.disk ∧ P k.sb k.disk)
    (fun k c k' hk hs hc => ?_) _ _ hr ⟨h, ht, hP⟩
  obtain ⟨d, hlink, hrest⟩ := exec_linkStep hk.1 hk.2.1 (hok _ _ hs) hc
  refine ⟨exec_ok hk.1 hc, exec_treeOk hk.1 hk.2.1 (hok _ _ hs) hc, ?_⟩
  rw [exec_sb hk.1 hc]
  exact hkept (hlink.tree hk.2.1.tree) hrest (hstep hk.1 hk.2.1 hs hlink hk.2.2)

end

theorem exec_rename {k : Kernel Disk} {u : Block} {fuel : Nat} {oldpath newpath : CString}
    {b : Bool} (h : (ipoFsRename (diskDev u) fuel oldpath newpath k).1 = some b) :
    FsCall.exec (diskDev u) (.rename fuel oldpath newpath) k
      = some (ipoFsRename (diskDev u) fuel oldpath newpath k).2 := by
  simp only [FsCall.exec]
  generalize ipoFsRename (diskDev u) fuel oldpath newpath k = res at h ⊢
  obtain ⟨r, k'⟩ := res
  cases h
  rfl

/-! ## A new volume

The links of a new volume: the root, and what it leads to. -/

/-- The links of a new volume: the root holds `/app` and `/autorun`, both protected. -/
structure NewTree (sb : Superblock) (app autorun : Nat) (d : Disk) : Prop where
  tree : (d.naming sb).Tree 1
  entries : ∀ {x e l}, (d.naming sb).entry x e = some l ↔
    (x = 1 ∧ e = 2 ∧ l = ⟨appName, typeDir, app⟩)
      ∨ (x = 1 ∧ e = 3 ∧ l = ⟨autorunName, typeFile, autorun⟩)
  appMode : (d.inodeAt sb app).mode = 1 ||| flagProtected
  autorunMode : (d.inodeAt sb autorun).mode = 2 ||| flagProtected
  appUp : ∀ {z}, d.upLink sb app = some z → z = 1

section

variable {sb : Superblock} {d d' : Disk} (L : SoundLayout sb) (u : Block)

include L

theorem DirStarted.naming {ino parent p : Nat} (hv : sb.ValidIno ino)
    (h : DirStarted sb ino parent p d d') (ht : Touched sb (intBound sb) ino d d')
    (hslots : (d.inodeAt sb ino).slots = 0) : d'.naming sb = d.naming sb := by
  obtain ⟨hn, h0, h1⟩ := h.slots L hv
  have hdot : ∀ {i : Nat} {name : Str}, StoredName name → ¬ LinkName name →
      (makeEntry i typeDir name).link = none := fun hs hno =>
    DirEntry.link_of_nameless (by rw [nameBytes_makeEntry hs.length_lt]; exact hno)
  rcases em (d.LiveDir sb ino) with hdir | hdir
  · refine ht.naming_same fun e => ?_
    rw [ht.entry_self hdir, Disk.entry_of_dir hdir, hn, hslots, if_neg (Nat.not_lt_zero e)]
    split
    · rename_i he
      rcases Nat.lt_succ_iff_lt_or_eq.mp he with hlt | rfl
      · obtain rfl := Nat.lt_one_iff.mp hlt
        rw [h0]
        exact hdot (Or.inr (Or.inl rfl)) fun hc => hc.2.1 rfl
      · rw [h1]
        exact hdot (Or.inr (Or.inr rfl)) fun hc => hc.2.2 rfl
    · rfl
  · exact ht.naming_file hdir

theorem naming_set_zero (O : OwnedVol sb (intBound sb) d) (b : Block) :
    (d.set 0 b).naming sb = d.naming sb ∧ ∀ i, (d.set 0 b).upLink sb i = d.upLink sb i := by
  have h1 := L.first
  have h2 := L.inodeBitmap
  have h3 := L.blockBitmap
  have h4 := L.inodeTable
  obtain ⟨-, hat⟩ := ownedVol_set_zero L (blockBound_int sb) O b
  have hdata : ∀ q, sb.dataBlocksStart.toNat ≤ q → d.set 0 b q = d q := fun q hq =>
    Disk.set_of_ne (by omega)
  have hused : ∀ i, sb.ValidIno i → (d.set 0 b).inodeUsed sb i = d.inodeUsed sb i := fun i hv => by
    obtain ⟨h5, h6⟩ := L.inodeBit_block hv
    exact Disk.bit_congr (by rw [h5]; exact Disk.set_of_ne (by omega))
  have hslot : ∀ i e, (d.set 0 b).dirSlot (d.inodeAt sb i) e = d.dirSlot (d.inodeAt sb i) e :=
    fun i e => (O.sameFile hdata i).dirSlot e
  have hlive : ∀ i, (d.set 0 b).LiveDir sb i ↔ d.LiveDir sb i := fun i => by
    unfold Disk.LiveDir
    rw [hat]
    exact and_congr_right fun hv => by rw [hused i hv]
  refine ⟨Naming.ext ?_ ?_ ?_, fun i => ?_⟩
  · exact funext fun i => propext (and_congr_right fun hv => by rw [hused i hv])
  · exact funext fun i => propext (hlive i)
  · funext x e
    show (if (d.set 0 b).LiveDir sb x ∧ e < ((d.set 0 b).inodeAt sb x).slots then _ else none) = _
    rw [hat, hslot]
    simp only [hlive]
    rfl
  · unfold Disk.upLink
    rw [hat, hslot]

theorem FormatSteps.newTree {d₀ d₁ d₂ d₃ d₄ d₅ d₆ d₇ : Disk} {app autorun p q : Nat}
    (h : FormatSteps u sb (intBound sb) d₀ d₁ d₂ d₃ d₄ d₅ d₆ d₇ app autorun p q)
    (hv : sb.ValidIno 1) (hunused : ∀ i, sb.ValidIno i → d₀.inodeUsed sb i = false) :
    NewTree sb app autorun d₇ := by
  obtain ⟨h12, h34, h45, h67⟩ := h.owned L (blockBound_int sb) u hv
  have hslots₁ : (d₁.inodeAt sb 1).slots = 0 := by
    rw [h.root.inodeAt, if_pos rfl]
    rfl
  have hslots₃ : (d₃.inodeAt sb app).slots = 0 := by
    rw [h.appInode.inodeAt, if_pos rfl]
    rfl
  have hG₂ : d₂.naming sb = (d₀.naming sb).alloc 1 ((freshInode 1 2).isDir = true) := by
    rw [h.rootDir.naming L hv h12 hslots₁, h.root.naming hv (hunused 1 hv) rfl]
  have hG₄ : d₄.naming sb
      = (d₂.naming sb).alloc app ((freshInode (1 ||| flagProtected) 2).isDir = true) := by
    rw [h.appDir.naming L h.appFree.1 h34 hslots₃, h.appInode.naming h.appFree.1 h.appFree.2 rfl]
  have hnone : ∀ {x e l}, (d₂.naming sb).entry x e = some l → False := by
    intro x e l hl
    rw [hG₂] at hl
    have hused := (Disk.naming_entry.mp hl).1
    exact absurd (hused.2.1.symm.trans (hunused x hused.1)) (by decide)
  have hused₂ : ∀ {x}, (d₂.naming sb).used x → x = 1 := by
    intro x hx
    rw [hG₂] at hx
    rcases hx with hx | hx
    · exact hx
    · exact absurd (hx.2.symm.trans (hunused x hx.1)) (by decide)
  have hroot₂ : d₂.LiveDir sb 1 := by
    have hdir : (d₂.naming sb).dir 1 := by
      rw [hG₂]
      exact Or.inl ⟨rfl, by decide⟩
    exact hdir
  have htree₂ : (d₂.naming sb).Tree 1 :=
    ⟨hroot₂, fun hx => ⟨hx.1, hx.2.1⟩, fun hl => (hnone hl).elim, fun hl => (hnone hl).elim,
      fun hl => (hnone hl).elim, fun hl => (hnone hl).elim⟩
  have happ1 : app ≠ 1 := fun hc => by
    have hfree := h.appFree.2
    rw [hc, hroot₂.2.1] at hfree
    cases hfree
  have htree₄ : (d₄.naming sb).Tree 1 := by
    rw [hG₄]
    exact htree₂.alloc _
  have hnone₄ : ∀ {x e l}, (d₄.naming sb).entry x e = some l → False := by
    intro x e l hl
    rw [hG₄] at hl
    exact hnone hl
  have hat₄ : d₄.inodeAt sb 1 = d₂.inodeAt sb 1 := by
    rw [h34.inodeAt 1 happ1.symm, h.appInode.inodeAt, if_neg happ1.symm]
  have hslots₄ : (d₄.inodeAt sb 1).slots = 2 := by
    rw [hat₄]
    exact (h.rootDir.slots L hv).1
  have happUsed : (d₄.naming sb).used app := by
    rw [hG₄]
    exact Or.inl rfl
  have hnat := toNat_ofNat_ino h.appFree.1
  have hadd₅ := (dirAddEntry_added L u h34.owned h.appEntry).2
  rw [← hnat] at hadd₅
  have hG₅ := hadd₅.naming htree₄.root_dir (by decide) (ofNat_ino_ne_zero h.appFree.1)
  rw [hslots₄, hnat] at hG₅
  have htree₅ : (d₅.naming sb).Tree 1 := by
    rw [hG₅]
    exact htree₄.link htree₄.root_dir ⟨happUsed, happ1⟩ (fun hm => (hnone₄ hm).elim)
      fun hm => (hnone₄ hm).elim
  have hslots₅ : (d₅.inodeAt sb 1).slots = 3 := by rw [hadd₅.slots, hslots₄]
  have hG₆ := h.autorunInode.naming h.autorunFree.1 h.autorunFree.2 rfl
  have hfree : ∀ {x}, (d₅.naming sb).used x → x ≠ autorun := by
    rintro x hx rfl
    exact absurd (hx.2.symm.trans h.autorunFree.2) (by decide)
  have hauto1 : autorun ≠ 1 := (hfree (htree₅.dir_used htree₅.root_dir)).symm
  have htree₆ : (d₆.naming sb).Tree 1 := by
    rw [hG₆]
    exact htree₅.alloc _
  have hslots₆ : (d₆.inodeAt sb 1).slots = 3 := by
    rw [h.autorunInode.inodeAt, if_neg hauto1.symm, hslots₅]
  have hnat' := toNat_ofNat_ino h.autorunFree.1
  have hadd₇ := (dirAddEntry_added L u h.autorunInode.owned h.autorunEntry).2
  rw [← hnat'] at hadd₇
  have hG₇ := hadd₇.naming htree₆.root_dir (by decide) (ofNat_ino_ne_zero h.autorunFree.1)
  rw [hslots₆, hnat'] at hG₇
  have hentries₆ : ∀ {x e l}, (d₆.naming sb).entry x e = some l ↔
      x = 1 ∧ e = 2 ∧ l = ⟨appName, typeDir, app⟩ := by
    intro x e l
    rw [hG₆, hG₅]
    show ((d₄.naming sb).link 1 2 ⟨appName, typeDir, app⟩).entry x e = some l ↔ _
    rw [Naming.link_entry]
    exact or_iff_left fun hl => hnone₄ hl.2
  have happAuto : app ≠ autorun := by
    refine hfree ?_
    rw [hG₅]
    exact happUsed
  have hautoUsed : (d₆.naming sb).used autorun := by
    rw [hG₆]
    exact Or.inl rfl
  refine ⟨?_, ?_, ?_, ?_, fun {z} hz => ?_⟩
  · rw [hG₇]
    refine htree₆.link htree₆.root_dir ⟨hautoUsed, hauto1⟩ (fun hm => ?_) fun hm => ?_
    · obtain ⟨-, -, rfl⟩ := hentries₆.mp hm
      show appName ≠ autorunName
      decide
    · obtain ⟨-, -, rfl⟩ := hentries₆.mp hm
      exact happAuto
  · intro x e l
    rw [hG₇, Naming.link_entry, hentries₆]
    constructor
    · rintro (hl | ⟨-, hl⟩)
      · exact Or.inr hl
      · exact Or.inl hl
    · rintro (hl | hl)
      · refine Or.inr ⟨?_, hl⟩
        rintro ⟨-, he⟩
        exact absurd (he.symm.trans hl.2.1) (by decide)
      · exact Or.inl hl
  · rw [h67.inodeAt app happ1, h.autorunInode.inodeAt, if_neg happAuto, h45.inodeAt app happ1,
      h34.mode, h.appInode.inodeAt, if_pos rfl]
    rfl
  · rw [h67.inodeAt autorun hauto1, h.autorunInode.inodeAt, if_pos rfl]
    rfl
  · have hup : d₇.upLink sb app = d₄.upLink sb app := by
      rw [h67.upLink happ1, h.autorunInode.upLink happAuto, h45.upLink happ1]
    rw [hup] at hz
    obtain ⟨-, -, h1⟩ := h.appDir.slots L h.appFree.1
    rw [h34.upLink_self, h1] at hz
    split at hz
    · exact (DirEntry.upFrom_eq_some.mp hz).2.2.symm
    · cases hz

end

theorem ipoFsFormat_tree {u : Block} {start totalBlocks totalInodes : UInt32}
    {k₀ k : Kernel Disk} (hf : ipoFsFormat (diskDev u) start totalBlocks totalInodes k₀ = (true, k))
    (htable : TableFits totalInodes) (hbitmap : BitmapFits totalBlocks totalInodes) :
    TreeOk k.sb k.disk ∧ ∃ app autorun, NewTree k.sb app autorun k.disk := by
  obtain ⟨L, hsb, -, -, -, d₀, d₁, d₂, d₃, d₄, d₅, d₆, d₇, app, autorun, p, q, hzero, hv, hsteps,
    hdisk⟩ := ipoFsFormat_cases hf htable hbitmap
  rw [← hsb] at L
  obtain ⟨-, -, hunused⟩ := ownedVol_zeroed (intBound k.sb) L hzero
  obtain ⟨-, -, -, h67⟩ := hsteps.owned L (blockBound_int k.sb) u hv
  have hnew := hsteps.newTree L u hv hunused
  obtain ⟨hG, hup⟩ := naming_set_zero L h67.owned (superBlock u k.sb)
  obtain ⟨-, hat⟩ := ownedVol_set_zero L (blockBound_int k.sb) h67.owned (superBlock u k.sb)
  rw [← hdisk] at hG hup hat
  have htree := hnew.tree
  rw [← hG] at htree
  refine ⟨⟨ipoFsFormat_dirsOk hf htable hbitmap, htree⟩, app, autorun, htree, ?_, ?_, ?_, ?_⟩
  · rw [hG]
    exact hnew.entries
  · rw [hat]
    exact hnew.appMode
  · rw [hat]
    exact hnew.autorunMode
  · rw [hup]
    exact hnew.appUp

end IpoOs
