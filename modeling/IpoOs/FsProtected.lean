import IpoOs.FsTreeRun

/-!
# The protected objects

`/app` and `/autorun` carry a flag that `ipo_fs_delete`, `ipo_fs_rename`
and `dir_remove_entry` look at in the inode of the entry they are about to
take out. While the links are a tree that is enough: the entry in the root
is the only one that leads to the inode, and neither goes away.

Every step that takes a link out of a directory checks the inode of the
entry first. A rename over the second slot of a directory is the one write
of an inode number that checks nothing, which is why the condition on runs
is that of the tree.
-/

namespace IpoOs

/-- The root links the name to an inode of that mode. -/
structure RootLink (name : Str) (i : Nat) (mode : UInt32) (sb : Superblock) (d : Disk) : Prop where
  entry : ∃ e t, (d.naming sb).entry 1 e = some ⟨name, t, i⟩
  inodeMode : (d.inodeAt sb i).mode = mode

/-- The path resolves to the inode it resolved to at first, which is protected and has the same
mode. -/
def Survives (u : Block) (k₀ k : Kernel Disk) (path : Str) : Prop :=
  ∃ i, (pathResolve (arrayDev u) k₀.sb path k₀.disk).1 = some i
    ∧ (pathResolve (arrayDev u) k.sb path k.disk).1 = some i
    ∧ (k.disk.inodeAt k.sb i).isProtected = true
    ∧ (k.disk.inodeAt k.sb i).mode = (k₀.disk.inodeAt k₀.sb i).mode

section

variable {u : Block} {sb : Superblock} {d d' : Disk} {name : Str} {i : Nat} {mode : UInt32}
  (h : RootLink name i mode sb d) (ht : (d.naming sb).Tree 1)

include h

theorem RootLink.protected (hmode : mode &&& flagProtected ≠ 0) :
    (d.inodeAt sb i).isProtected = true := by
  unfold Inode.isProtected
  rw [h.inodeMode]
  exact decide_eq_true hmode

include ht

theorem RootLink.kept (hk : LinksKept sb d d') : RootLink name i mode sb d' := by
  obtain ⟨e, t, hl⟩ := h.entry
  refine ⟨⟨e, t, by rw [hk.naming]; exact hl⟩, ?_⟩
  rw [hk.mode (ht.target hl).1, h.inodeMode]

theorem RootLink.created {parent j : Nat} {other : Str} {type : UInt8}
    (hc : Created sb parent other type j d d') : RootLink name i mode sb d' := by
  obtain ⟨e, t, hl⟩ := h.entry
  have hne : i ≠ j := fun heq => hc.fresh (heq ▸ (ht.target hl).1)
  refine ⟨⟨e, t, ?_⟩, by rw [hc.mode hne, h.inodeMode]⟩
  rw [hc.naming]
  refine Naming.link_entry.mpr (Or.inr ⟨?_, hl⟩)
  rintro ⟨rfl, he⟩
  exact Nat.ne_of_lt (Disk.naming_entry.mp hl).2.1 he

theorem RootLink.deleted (hmode : mode &&& flagProtected ≠ 0) {parent e : Nat} {other : Str}
    {de : DirEntry} (hun : (d.inodeAt sb de.inode.toNat).isProtected = false)
    (hd : Deleted sb parent de other e d d') : RootLink name i mode sb d' := by
  obtain ⟨e', t, hl⟩ := h.entry
  have hne : i ≠ de.inode.toNat := fun heq => by
    have hp := h.protected hmode
    rw [heq, hun] at hp
    cases hp
  refine ⟨⟨e', t, ?_⟩, by rw [hd.mode hne, h.inodeMode]⟩
  rw [hd.naming]
  refine Naming.free_entry.mpr ⟨(ht.target hd.entry).2.symm, Naming.unlink_entry.mpr ⟨?_, hl⟩⟩
  rintro ⟨rfl, rfl⟩
  have heq := Option.some.inj (hl.symm.trans hd.entry)
  exact hne (congrArg Link.target heq)

omit ht in
theorem RootLink.moved (hmode : mode &&& flagProtected ≠ 0) {op np e : Nat} {on nn : Str}
    {de : DirEntry} (hun : (d.inodeAt sb de.inode.toNat).isProtected = false)
    (hm : Moved sb op on de np nn e d d') : RootLink name i mode sb d' := by
  obtain ⟨e', t, hl⟩ := h.entry
  have hne : i ≠ de.inode.toNat := fun heq => by
    have hp := h.protected hmode
    rw [heq, hun] at hp
    cases hp
  refine ⟨⟨e', t, ?_⟩, by rw [hm.mode, h.inodeMode]⟩
  rw [hm.naming]
  refine Naming.unlink_entry.mpr ⟨?_, Naming.link_entry.mpr (Or.inr ⟨?_, hl⟩)⟩
  · rintro ⟨rfl, rfl⟩
    have heq := Option.some.inj (hl.symm.trans hm.entry)
    exact hne (congrArg Link.target heq)
  · rintro ⟨rfl, he⟩
    exact Nat.ne_of_lt (Disk.naming_entry.mp hl).2.1 he

end

/-- Every safe call keeps the link of a protected inode in the root. -/
theorem LinkStep.rootLink {u : Block} {k : Kernel Disk} {c : FsCall} {d : Disk} {name : Str}
    {i : Nat} {mode : UInt32} (hmode : mode &&& flagProtected ≠ 0) (hs : LinkStep u k c d)
    (ht : (k.disk.naming k.sb).Tree 1) (h : RootLink name i mode k.sb k.disk) :
    RootLink name i mode k.sb d := by
  cases hs with
  | kept hk => exact h.kept ht hk
  | created _ _ _ hc => exact h.created ht hc
  | deleted _ hok hd => exact h.deleted ht hmode hok.unprotected hd
  | moved _ hok hm => exact h.moved hmode hok.unprotected hm

theorem FsRun.rootLink {u : Block} {k k' : Kernel Disk} {name : Str} {i : Nat} {mode : UInt32}
    (hmode : mode &&& flagProtected ≠ 0) (hr : FsRun u (TreeSafe u) k k') (h : VolOk k)
    (ht : TreeOk k.sb k.disk) (hl : RootLink name i mode k.sb k.disk) :
    TreeOk k'.sb k'.disk ∧ RootLink name i mode k'.sb k'.disk :=
  (hr.links (P := RootLink name i mode) (fun _ _ hs => hs)
    (fun _ ht _ hs hl => hs.rootLink hmode ht.tree hl) (fun ht hk hl => hl.kept ht hk) h ht hl).2

/-! ## Their paths

The paths `/app` and `/autorun` lead to what the format linked there. -/

section

variable {u : Block} {sb : Superblock} {d : Disk} {name path : Str} {i : Nat} {mode : UInt32}

theorem RootLink.resolve (h : RootLink name i mode sb d) (ht : TreeOk sb d) (hname : PathToken name)
    (hpath : fsCanonicalize path 512 = joinPath [name]) :
    (pathResolve (arrayDev u) sb path d).1 = some i := by
  obtain ⟨e, t, hl⟩ := h.entry
  have htokens : ∀ s ∈ [name], PathToken s := fun s hs => List.mem_singleton.mp hs ▸ hname
  have hroot : joinPath [name] ≠ [slash] := by
    rw [joinPath_cons, joinPath_nil, List.append_nil]
    intro hc
    exact hname.ne_nil (List.cons.inj hc).2
  have hwalk := @resolveFrom_walk u sb d [name] htokens ((joinPath [name]).length + 1) 1
    (Nat.succ_lt_succ (Nat.succ_pos _))
  unfold pathResolve
  rw [hpath]
  simp only [Prog.run_ite, hroot, if_false]
  rw [hwalk]
  unfold Disk.walk
  cases hf : (dirFindEntry (arrayDev u) sb 1 name d).1 with
  | none => exact absurd rfl (dirFindEntry_absent ht.dirs ht.tree.root_dir hf hl)
  | some f =>
      obtain ⟨de, p, q⟩ := f
      obtain ⟨-, e', hl'⟩ := dirFindEntry_link ht.dirs ht.tree.root_dir hname.linkName hf
      obtain rfl := ht.tree.name hl' hl rfl
      have heq := Option.some.inj (hl'.symm.trans hl)
      exact congrArg (fun l => some (Link.target l)) heq

end

/-- The path of a protected object that the root linked at first. -/
theorem RootLink.survives {u : Block} {k k' : Kernel Disk} {name path : Str} {i : Nat}
    {mode : UInt32} (h : RootLink name i mode k.sb k.disk) (h' : RootLink name i mode k'.sb k'.disk)
    (ht : TreeOk k.sb k.disk) (ht' : TreeOk k'.sb k'.disk) (hmode : mode &&& flagProtected ≠ 0)
    (hname : PathToken name) (hpath : fsCanonicalize path 512 = joinPath [name]) :
    Survives u k k' path :=
  ⟨i, h.resolve ht hname hpath, h'.resolve ht' hname hpath, h'.protected hmode,
    h'.inodeMode.trans h.inodeMode.symm⟩

theorem pathToken_of_check {t : Str}
    (h : (t ≠ [] ∧ t ≠ dot ∧ t ≠ dotdot ∧ slash ∉ t ∧ t.length < 64)) :
    PathToken t := ⟨h.1, h.2.1, h.2.2.1, h.2.2.2.1, h.2.2.2.2⟩

/-- In every state of every run from a new volume that writes no directory and moves no directory
whose second slot is in use, `/app` and `/autorun` are where `ipo_fs_format` put them, protected
and of the same type. -/
theorem protected_survive {u : Block} {start totalBlocks totalInodes : UInt32}
    {k k₀ k₁ : Kernel Disk}
    (hf : ipoFsFormat (diskDev u) start totalBlocks totalInodes k = (true, k₀))
    (htable : TableFits totalInodes) (hbitmap : BitmapFits totalBlocks totalInodes)
    (hr : FsRun u (TreeSafe u) k₀ k₁) :
    Survives u k₀ k₁ (slash :: appName) ∧ Survives u k₀ k₁ (slash :: autorunName) := by
  obtain ⟨ht₀, app, autorun, hnew⟩ := ipoFsFormat_tree hf htable hbitmap
  have h₀ := ipoFsFormat_ok hf htable hbitmap
  have happ : RootLink appName app (1 ||| flagProtected) k₀.sb k₀.disk :=
    ⟨⟨2, typeDir, hnew.entries.mpr (Or.inl ⟨rfl, rfl, rfl⟩)⟩, hnew.appMode⟩
  have hauto : RootLink autorunName autorun (2 ||| flagProtected) k₀.sb k₀.disk :=
    ⟨⟨3, typeFile, hnew.entries.mpr (Or.inr ⟨rfl, rfl, rfl⟩)⟩, hnew.autorunMode⟩
  obtain ⟨ht₁, happ₁⟩ := hr.rootLink (by decide) h₀ ht₀ happ
  obtain ⟨-, hauto₁⟩ := hr.rootLink (by decide) h₀ ht₀ hauto
  exact ⟨happ.survives happ₁ ht₀ ht₁ (by decide) (pathToken_of_check (by decide)) (by decide),
    hauto.survives hauto₁ ht₀ ht₁ (by decide) (pathToken_of_check (by decide)) (by decide)⟩

theorem dirKernel_treeSafe :
    FsRun Buf.zero (TreeSafe Buf.zero) (formattedKernel 12 6) dirKernel := by
  have hmount : FsCall.exec (diskDev Buf.zero) .mount (formattedKernel 12 6)
      = some (mountedKernel 12 6) := by
    rw [mountedKernel, ← formattedKernel_start]
    exact rfl
  exact (Relation.ReflTransGen.single ⟨.mount, trivial, hmount⟩).tail
    ⟨.create dPath typeDir, trivial, rfl⟩

/-- The protected objects next to a directory that was created. -/
theorem protected_survive_dir :
    Survives Buf.zero (formattedKernel 12 6) dirKernel (slash :: appName)
    ∧ Survives Buf.zero (formattedKernel 12 6) dirKernel (slash :: autorunName) :=
  protected_survive formattedKernel_run (by decide) (by decide) dirKernel_treeSafe

/-! ## The protected objects lost

A run with a rename that is outside the condition. -/

/-- The path `/e/g`. -/
def egPath : CString := rootPath [101, 47, 103] (by decide)

/-- The kernel after a directory with two files was renamed to `/e` and `/e/g` was deleted. -/
def lostKernel : Kernel Disk := (ipoFsDelete (diskDev Buf.zero) egPath (renamed pairKernel)).2

/-- The rename makes `/e/g` a link to the root, and the deletion releases the root. -/
theorem protected_lost :
    (ipoFsFormat (diskDev Buf.zero) 0 12 6 blankKernel).1 = true ∧ TableFits 6 ∧ BitmapFits 12 6
    ∧ FsRun Buf.zero (fun _ _ => True) (formattedKernel 12 6) lostKernel
    ∧ (pathResolve (arrayDev Buf.zero) (formattedKernel 12 6).sb (slash :: appName)
      (formattedKernel 12 6).disk).1 = some 2
    ∧ ¬ Survives Buf.zero (formattedKernel 12 6) lostKernel (slash :: appName)
    ∧ ¬ Survives Buf.zero (formattedKernel 12 6) lostKernel (slash :: autorunName) := by
  have hrename : (ipoFsRename (diskDev Buf.zero) 8 dPath ePath pairKernel).1 = some true := by
    decide +kernel
  have hrun : FsRun Buf.zero (fun _ _ => True) (formattedKernel 12 6) lostKernel :=
    ((RunBy.mono (fun _ _ _ => trivial) pairKernel_files).tail
      ⟨.rename 8 dPath ePath, trivial, exec_rename hrename⟩).tail ⟨.delete egPath, trivial, rfl⟩
  have happ : (pathResolve (arrayDev Buf.zero) lostKernel.sb (slash :: appName)
      lostKernel.disk).1 = none := by
    decide +kernel
  have hauto : (pathResolve (arrayDev Buf.zero) lostKernel.sb (slash :: autorunName)
      lostKernel.disk).1 = none := by
    decide +kernel
  refine ⟨formattedKernel_ok, by decide, by decide, hrun, by decide +kernel, ?_, ?_⟩
  · rintro ⟨i, -, hi, -⟩
    exact Option.some_ne_none i (hi.symm.trans happ)
  · rintro ⟨i, -, hi, -⟩
    exact Option.some_ne_none i (hi.symm.trans hauto)

end IpoOs
