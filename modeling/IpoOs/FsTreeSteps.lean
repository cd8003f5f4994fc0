import IpoOs.FsTree

/-!
# What the calls do to the tree

Inversion lemmas for `ipo_fs_create`, `ipo_fs_delete` and `ipo_fs_rename`
in terms of the links of the volume: each call leaves them alone, or it is
one operation on names, and the second slots of all directories but those
named keep their inode number.

The records `Created`, `Deleted` and `Moved` hold the volumes between the
steps only where a later proof needs one, and name the links before and
after. That the other slots are kept is `LinksKept`.
-/

namespace IpoOs

/-- An inode was taken and linked in directory `parent`. -/
structure Created (sb : Superblock) (parent : Nat) (name : Str) (type : UInt8) (i : Nat)
    (d d' : Disk) : Prop where
  parentDir : d.LiveDir sb parent
  fresh : ¬ (d.naming sb).used i
  newIno : sb.ValidIno i
  valid : isValidFilename name = true
  absent : ∀ {e l}, (d.naming sb).entry parent e = some l → l.name ≠ name
  naming : d'.naming sb = ((d.naming sb).alloc i ((freshInode type.toUInt32 1).isDir = true)).link
    parent (d.inodeAt sb parent).slots ⟨name, type, i⟩
  upNew : d'.upLink sb i = none
  upSecond : (d.inodeAt sb parent).slots = 1 → d'.upLink sb parent = some i
  upOther : ∀ {v}, v ≠ i → ¬ (v = parent ∧ (d.inodeAt sb parent).slots = 1) →
    d'.upLink sb v = d.upLink sb v
  mode : ∀ {v}, v ≠ i → (d'.inodeAt sb v).mode = (d.inodeAt sb v).mode

/-- The links of a volume stay, and so do the up-links of the directories and the modes. -/
structure LinksKept (sb : Superblock) (d d' : Disk) : Prop where
  naming : d'.naming sb = d.naming sb
  up : ∀ {v}, d.LiveDir sb v → d'.upLink sb v = d.upLink sb v
  mode : ∀ {v}, (d.naming sb).used v → (d'.inodeAt sb v).mode = (d.inodeAt sb v).mode

/-- An entry was removed and its inode released. -/
structure Deleted (sb : Superblock) (parent : Nat) (de : DirEntry) (name : Str) (e : Nat)
    (d d' : Disk) : Prop where
  entry : (d.naming sb).entry parent e = some ⟨name, de.type, de.inode.toNat⟩
  naming : d'.naming sb = ((d.naming sb).unlink parent e).free de.inode.toNat
  upNone : e = 1 → parent ≠ de.inode.toNat → d'.upLink sb parent = none
  upOther : ∀ {v}, v ≠ de.inode.toNat → ¬ (v = parent ∧ e = 1) → d'.upLink sb v = d.upLink sb v
  mode : ∀ {v}, v ≠ de.inode.toNat → (d'.inodeAt sb v).mode = (d.inodeAt sb v).mode

/-- An entry was moved. -/
structure Moved (sb : Superblock) (oldParent : Nat) (oldname : Str) (de : DirEntry)
    (newParent : Nat) (newname : Str) (e : Nat) (d d' : Disk) : Prop where
  entry : (d.naming sb).entry oldParent e = some ⟨oldname, de.type, de.inode.toNat⟩
  newDir : d.LiveDir sb newParent
  absent : ∀ {j l}, (d.naming sb).entry newParent j = some l → l.name ≠ newname
  naming : d'.naming sb = ((d.naming sb).link newParent (d.inodeAt sb newParent).slots
    ⟨newname, de.type, de.inode.toNat⟩).unlink oldParent e
  upDir : de.type = typeDir → ∀ {z}, d'.upLink sb de.inode.toNat = some z → z = newParent
  upSet : de.type = typeDir → d.LiveDir sb de.inode.toNat → de.inode.toNat ≠ newParent →
    (d.dirSlot (d.inodeAt sb de.inode.toNat) 1).isSome →
    d'.upLink sb de.inode.toNat = some newParent
  upFilled : (d.inodeAt sb newParent).slots = 1 → ¬ (newParent = oldParent ∧ e = 1) →
    newParent ≠ de.inode.toNat → d'.upLink sb newParent = some de.inode.toNat
  upNone : e = 1 → d'.upLink sb oldParent = none
  upOther : ∀ {v}, (v = de.inode.toNat → de.type ≠ typeDir) → ¬ (v = oldParent ∧ e = 1) →
    ¬ (v = newParent ∧ (d.inodeAt sb newParent).slots = 1) → d'.upLink sb v = d.upLink sb v
  mode : ∀ v, (d'.inodeAt sb v).mode = (d.inodeAt sb v).mode

section

variable {u : Block} {k : Kernel Disk} (h : VolOk k) (ht : TreeOk k.sb k.disk)

theorem LinksKept.refl {sb : Superblock} (d : Disk) : LinksKept sb d d :=
  ⟨rfl, fun _ => rfl, fun _ => rfl⟩

theorem EntryRefused.linksKept {sb : Superblock} {ino : Nat} {d d' : Disk}
    (h : EntryRefused sb ino d d') (hd : DirsOk sb d) : LinksKept sb d d' :=
  ⟨h.naming hd, fun _ => h.upLink _, fun _ => by rw [h.inodeAt]⟩

theorem Touched.mode_all {sb : Superblock} {hi ino : Nat} {d d' : Disk} (h : Touched sb hi ino d d')
    (v : Nat) : (d'.inodeAt sb v).mode = (d.inodeAt sb v).mode := by
  rcases em (v = ino) with rfl | hne
  · exact h.mode
  · rw [h.inodeAt v hne]

theorem Touched.linksKept {sb : Superblock} {hi ino : Nat} {d d' : Disk}
    (h : Touched sb hi ino d d') (hfile : ¬ d.LiveDir sb ino) : LinksKept sb d d' :=
  ⟨h.naming_file hfile, fun hl => h.upLink fun hc => hfile (hc ▸ hl), fun _ => h.mode_all _⟩

theorem ofNat_ino_ne_zero {sb : Superblock} {i : Nat} (hv : sb.ValidIno i) :
    UInt32.ofNat i ≠ 0 := by
  intro hc
  have hzero := congrArg UInt32.toNat hc
  rw [toNat_ofNat_ino hv] at hzero
  exact absurd hzero (Nat.ne_of_gt hv.1)

include h ht

/-- `ipo_fs_create` links a new inode or leaves the links alone. -/
theorem createEntry_links (path : Str) (type : UInt8) :
    ((createEntry path type (arrayDev u) k.sb k.disk).1 = none
      ∧ LinksKept k.sb k.disk (createEntry path type (arrayDev u) k.sb k.disk).2)
    ∨ ∃ parent name i, (createEntry path type (arrayDev u) k.sb k.disk).1 = some i
      ∧ CreateOk u k.sb k.disk path parent name
      ∧ Created k.sb parent name type i k.disk
          (createEntry path type (arrayDev u) k.sb k.disk).2 := by
  rcases createEntry_cases h.layout h.bound u h.owned h.count path type with
    hrun | ⟨parent, name, i, d₁, d₂, hok, hv, hfree, hi, hrest⟩
  · rw [hrun]
    exact Or.inl ⟨rfl, LinksKept.refl _⟩
  · have hd₁ := ht.dirs.taken hi rfl
    have hG₁ := hi.naming hv hfree rfl
    have hfresh : ¬ (k.disk.naming k.sb).used i := fun hc => by
      have hused := hc.2
      rw [hfree] at hused
      cases hused
    have hold : ∀ {v}, k.disk.LiveDir k.sb v → v ≠ i :=
      fun hl hc => hfresh (hc ▸ ht.tree.dir_used hl)
    rcases hrest with ⟨hadd, hrun⟩ | ⟨d₃, hadd, hf, hrun⟩
    · obtain ⟨haddOk, hadded⟩ := dirAddEntry_added h.layout u hi.owned hadd
      have hparent : k.disk.LiveDir k.sb parent := by
        have hused := ht.used_of_reach ht.root_used (ht.resolveParent_reach hok.resolve).2
        have hne : parent ≠ i := fun hc => hfresh (hc ▸ hused)
        have hdir := haddOk.2.1
        rw [hi.inodeAt, if_neg hne] at hdir
        exact ⟨hused.1, hused.2, hdir⟩
      have hne := hold hparent
      have hparent₁ : d₁.LiveDir k.sb parent := by
        refine ⟨hparent.1, ?_, ?_⟩
        · rw [hi.inodeUsed parent hparent.1, if_neg hne]
          exact hparent.2.1
        · rw [hi.inodeAt, if_neg hne]
          exact hparent.2.2
      have hat : d₁.inodeAt k.sb parent = k.disk.inodeAt k.sb parent := by
        rw [hi.inodeAt, if_neg hne]
      have hnat := toNat_ofNat_ino hv
      have hn0 := ofNat_ino_ne_zero hv
      rw [← hnat] at hadded
      have hG₂ := hadded.naming hparent₁ hok.valid hn0
      rw [hG₁, hat, hnat] at hG₂
      refine Or.inr ⟨parent, name, i, by rw [hrun], hok, ?_⟩
      rw [hrun]
      refine ⟨hparent, hfresh, hv, hok.valid,
        fun hl => dirFindEntry_absent ht.dirs hparent hok.absent hl, hG₂, ?_, fun hs => ?_,
        fun hv' hno => ?_, fun hv' => ?_⟩
      · rw [hadded.touched.upLink hne.symm]
        exact hi.upLink_self (root_freshInode _ _ _)
      · rw [← hat] at hs
        have hup := hadded.upLink_second hparent₁ hn0 (by rw [hnat]; exact hne.symm) hs
        rw [hnat] at hup
        exact hup
      · rw [hadded.upLink (by rw [hat]; exact hno), hi.upLink hv']
      · rw [hadded.touched.mode_all, hi.inodeAt, if_neg hv']
    · have hrefused := dirAddEntry_refused h.layout u hi.owned hadd
      rw [hrun]
      refine Or.inl ⟨rfl, ?_, fun hl => ?_, fun {v} hused => ?_⟩
      · rw [hf.naming, hrefused.naming hd₁, hG₁, ht.tree.alloc_free hfresh]
      · rw [hf.upLink (hold hl), hrefused.upLink, hi.upLink (hold hl)]
      · have hne : v ≠ i := fun hc => hfresh (hc ▸ hused)
        rw [hf.inodeAt, if_neg hne, hrefused.inodeAt, hi.inodeAt, if_neg hne]

theorem deleteEntry_links (path : Str) :
    deleteEntry path (arrayDev u) k.sb k.disk = (false, k.disk)
    ∨ ∃ parent name de e, (deleteEntry path (arrayDev u) k.sb k.disk).1 = true
      ∧ DeleteOk u k.sb k.disk path parent name de
      ∧ Deleted k.sb parent de name e k.disk (deleteEntry path (arrayDev u) k.sb k.disk).2 := by
  rcases deleteEntry_cases h.layout h.bound u h.owned path with
    hrun | ⟨parent, name, de, d₁, d₂, hok, hrem, hf, hrun⟩
  · exact Or.inl hrun
  · obtain ⟨hname, hreach⟩ := ht.resolveParent_reach hok.resolve
    obtain ⟨p, q, hfound⟩ := hok.found
    have hparent := liveDir_of_find (ht.used_of_reach ht.root_used hreach) hfound
    obtain ⟨-, e, hl⟩ := dirFindEntry_link ht.dirs hparent hname.linkName hfound
    obtain ⟨d', hrem', hdead⟩ := dirRemoveEntry_link (u := u) h.layout h.owned ht.dirs hl
      (fun hm hmn => ht.tree.name hm hl hmn) hok.unprotected
    obtain rfl := (Prod.mk.inj (hrem.symm.trans hrem')).2
    refine Or.inr ⟨parent, name, de, e, by rw [hrun], hok, ?_⟩
    rw [hrun]
    refine ⟨hl, by rw [hf.naming, hdead.naming_dead], fun he hne => ?_, fun hv hno => ?_,
      fun hv => ?_⟩
    · subst he
      rw [hf.upLink hne, hdead.upLink_dead_second]
    · rw [hf.upLink hv, hdead.upLink_dead hno]
    · rw [hf.inodeAt, if_neg hv, hdead.inodeAt]

omit h ht in
/-- Where a rename goes: into the directory the new path names, or under the last component
of the new path. -/
theorem renameTarget_some {sb : Superblock} {d : Disk} {fuel np : Nat} {de : DirEntry}
    {oldname newpath nn : Str}
    (hr : (renameTarget (arrayDev u) sb fuel de oldname newpath d).1 = some (some (np, nn))) :
    (pathResolveParent (arrayDev u) sb newpath d).1 = some (np, nn)
    ∨ ((pathResolve (arrayDev u) sb newpath d).1 = some np ∧ nn = oldname.take 63
      ∧ sb.ValidIno np ∧ (d.inodeAt sb np).isDir = true
      ∧ (de.type = typeDir →
          (isDescendant (arrayDev u) sb fuel de.inode.toNat np d).1 = some false)) := by
  have hparent : (∀ b : Option (Nat × Str), (some b : Option (Option (Nat × Str)))
      = some (some (np, nn)) → b = some (np, nn)) := fun b hb => Option.some.inj hb
  obtain ⟨t, hrun⟩ : ∃ t, pathResolve (arrayDev u) sb newpath d = (t, d) :=
    ⟨_, (readOnly_pathResolve u sb newpath).run_eq d⟩
  rw [hrun]
  unfold renameTarget at hr
  rw [Prog.run_bind, hrun] at hr
  cases t with
  | none => exact Or.inl (hparent _ hr)
  | some i =>
      dsimp only at hr
      rw [Prog.run_bind, readInode_array] at hr
      rcases em (sb.ValidIno i) with hv | hv
      · rw [if_pos hv] at hr
        dsimp only at hr
        rw [Prog.run_ite] at hr
        split at hr
        · rename_i hdir
          rw [Prog.run_ite] at hr
          split at hr
          · obtain ⟨b, hdesc⟩ : ∃ b, isDescendant (arrayDev u) sb fuel de.inode.toNat i d
                = (b, d) :=
              ⟨_, (readOnly_isDescendant u sb fuel de.inode.toNat i).run_eq d⟩
            rw [Prog.run_bind, hdesc] at hr
            rcases b with _ | _ | _
            · cases hr
            · obtain ⟨rfl, rfl⟩ := Prod.mk.inj (Option.some.inj (Option.some.inj hr))
              exact Or.inr ⟨rfl, rfl, hv, hdir, fun _ => by rw [hdesc]⟩
            · cases Option.some.inj hr
          · rename_i htype
            obtain ⟨rfl, rfl⟩ := Prod.mk.inj (Option.some.inj (Option.some.inj hr))
            exact Or.inr ⟨rfl, rfl, hv, hdir, fun hc => absurd hc htype⟩
        · exact Or.inl (hparent _ hr)
      · rw [if_neg hv] at hr
        cases Option.some.inj hr

omit h ht in
/-- The second slot of a directory, after an entry was added to `dir`. -/
theorem EntryAdded.secondFree {sb : Superblock} {d d₁ : Disk} {dir y : Nat} {name : Str}
    {n : UInt32}
    {t : UInt8} (ha : EntryAdded sb dir (makeEntry n.toNat t name) d d₁) (hy : n.toNat = y)
    (hd : d.DirOk sb y) (hfree : d.SecondFree (d.inodeAt sb y) dir) :
    d₁.SecondFree (d₁.inodeAt sb y) dir := by
  rcases em (y = dir) with rfl | hne
  · intro s hs hslot
    rw [ha.slots] at hs
    rcases Nat.lt_or_ge 1 (d.inodeAt sb y).slots with hlt | hge
    · obtain ⟨s', hold, -⟩ := hd 1 hlt
      obtain rfl := Option.some.inj ((ha.kept 1 s' (Nat.ne_of_lt hlt) hold).symm.trans hslot)
      exact hfree s' hlt hold
    · -- the new entry is in the second slot, and leads to the directory itself
      have hone : (d.inodeAt sb y).slots = 1 := by omega
      have hnew := ha.slot
      rw [hone] at hnew
      obtain rfl := Option.some.inj (hnew.symm.trans hslot)
      exact Or.inr (Or.inr (by rw [← hy]; rfl))
  · have hs := ha.touched.slotsKept hne
    intro s
    rw [hs.inode, hs.slot]
    exact hfree s

/-- `ipo_fs_rename` moves a link or leaves the links alone, unless it moves a directory whose
second slot holds something else. -/
theorem renameEntry_links (fuel : Nat) (oldpath newpath : Str)
    (hclear : ∀ {op on de np nn}, RenameOk u k.sb k.disk fuel oldpath newpath op on de np nn →
      de.type = typeDir → k.disk.LiveDir k.sb de.inode.toNat →
      k.disk.SecondFree (k.disk.inodeAt k.sb de.inode.toNat) np) :
    (LinksKept k.sb k.disk (renameEntry fuel oldpath newpath (arrayDev u) k.sb k.disk).2
      ∧ ((renameEntry fuel oldpath newpath (arrayDev u) k.sb k.disk).1 = some true →
        RenameSame u k.sb k.disk fuel oldpath newpath))
    ∨ ∃ op on de np nn e,
      (renameEntry fuel oldpath newpath (arrayDev u) k.sb k.disk).1 = some true
      ∧ RenameOk u k.sb k.disk fuel oldpath newpath op on de np nn
      ∧ Moved k.sb op on de np nn e k.disk
        (renameEntry fuel oldpath newpath (arrayDev u) k.sb k.disk).2 := by
  rcases @renameEntry_cases k.sb u k.disk fuel oldpath newpath with
    ⟨res, hrun, hsame⟩ | ⟨op, on, de, np, nn, hok, hrun⟩
  · rw [hrun]
    exact Or.inl ⟨LinksKept.refl _, hsame⟩
  rcases moveEntry_cases u k.disk op on hok.valid np nn with
    ⟨d₁, hadd, hmove⟩ | ⟨d₁, d₂, hadd, hd₂, hmove⟩
  · rw [hrun, hmove]
    refine Or.inl ⟨(dirAddEntry_refused h.layout u h.owned hadd).linksKept ht.dirs, fun hc => ?_⟩
    cases Option.some.inj hc
  · obtain ⟨hname, hreach⟩ := ht.resolveParent_reach hok.resolve
    obtain ⟨p, q, hfound⟩ := hok.found
    have hold := liveDir_of_find (ht.used_of_reach ht.root_used hreach) hfound
    obtain ⟨hlive, e, hl⟩ := dirFindEntry_link ht.dirs hold hname.linkName hfound
    obtain ⟨haddOk, hadded⟩ := dirAddEntry_added h.layout u h.owned hadd
    have hnew : k.disk.LiveDir k.sb np := by
      have hto : Relation.ReflTransGen (k.disk.naming k.sb).Child 1 np := by
        rcases renameTarget_some hok.target with hp | ⟨hp, -⟩
        · exact (ht.resolveParent_reach hp).2
        · exact ht.resolve_reach hp
      have hused := ht.used_of_reach ht.root_used hto
      exact ⟨hused.1, hused.2, haddOk.2.1⟩
    have habsent : ∀ {j l}, (k.disk.naming k.sb).entry np j = some l → l.name ≠ nn :=
      fun hm => dirFindEntry_absent ht.dirs hnew hok.absent hm
    -- the inode moved is not the directory it is moved from
    have hself : de.inode.toNat ≠ op := fun hc => by
      rw [hc] at hl
      exact ht.tree.not_mutual hreach hl hl rfl
    have hG₁ := hadded.naming hnew hok.validName hlive
    have hd₁ := ht.dirs.added hadded (DirEntry.named_makeEntry (Or.inl hok.validName))
    -- the second slot of a directory moved holds no link, or the right one
    have hmid : OwnedVol k.sb (intBound k.sb) d₂ ∧ DirsOk k.sb d₂
        ∧ d₂.naming k.sb = d₁.naming k.sb ∧ d₂.inodeAt k.sb = d₁.inodeAt k.sb
        ∧ (∀ v, (v = de.inode.toNat → de.type ≠ typeDir) → d₂.upLink k.sb v = d₁.upLink k.sb v)
        ∧ (de.type = typeDir → SlotChanged k.sb de.inode.toNat 1
          (fun s => { s with inode := UInt32.ofNat np }) d₁ d₂) := by
      rcases em (de.type = typeDir) with htype | htype
      · rw [if_pos htype] at hd₂
        subst hd₂
        have hc := patchDotdot_slot h.layout u hadded.touched.owned hok.valid np
        refine ⟨hc.touched.owned, hd₁.changed hc fun s hs => hs.setInode _,
          hc.naming_second fun hl₁ => ?_, hc.inodeAt, fun v hv => ?_, fun _ => hc⟩
        · rw [hadded.touched.liveDir] at hl₁
          exact hadded.secondFree rfl (ht.dirs _ hl₁) (hclear hok htype hl₁)
        · exact hc.touched.upLink fun hc => hv hc htype
      · rw [if_neg htype] at hd₂
        subst hd₂
        exact ⟨hadded.touched.owned, hd₁, rfl, rfl, fun _ _ => rfl, fun hc => absurd hc htype⟩
    obtain ⟨hown₂, hdirs₂, hG₂, hat₂, hup₂, hslot₂⟩ := hmid
    rw [hG₁] at hG₂
    -- the entry to remove is still the only one of its name
    have hl₂ : (d₂.naming k.sb).entry op e = some ⟨on, de.type, de.inode.toNat⟩ := by
      rw [hG₂]
      refine Naming.link_entry.mpr (Or.inr ⟨?_, hl⟩)
      rintro ⟨rfl, he⟩
      exact Nat.ne_of_lt (Disk.naming_entry.mp hl).2.1 he
    have honly : ∀ {j m}, (d₂.naming k.sb).entry op j = some m → m.name = on → j = e := by
      intro j m hm hmn
      rw [hG₂] at hm
      rcases Naming.link_entry.mp hm with ⟨rfl, -, rfl⟩ | ⟨-, hm⟩
      · exact absurd hmn.symm (habsent hl)
      · exact ht.tree.name hm hl hmn
    have hprot : (d₂.inodeAt k.sb de.inode.toNat).isProtected = false := by
      have hun := hok.unprotected
      unfold Inode.isProtected at hun ⊢
      rw [hat₂, hadded.touched.mode_all]
      exact hun
    obtain ⟨d₃, hrem, hdead⟩ := dirRemoveEntry_link (u := u) h.layout hown₂ hdirs₂ hl₂ honly hprot
    refine Or.inr ⟨op, on, de, np, nn, e, by rw [hrun, hmove, hrem], hok, ?_⟩
    rw [hrun, hmove, hrem]
    have hafter : ∀ {v}, ¬ (v = op ∧ e = 1) → d₃.upLink k.sb v = d₂.upLink k.sb v :=
      fun hv => hdead.upLink_dead hv
    have hself₃ := @hafter de.inode.toNat fun hc => hself hc.1
    have hnp : np < 4294967296 :=
      Nat.lt_of_le_of_lt hnew.1.2 k.sb.inodeCount.toNat_lt
    refine ⟨hl, hnew, habsent, by rw [hdead.naming_dead, hG₂], fun htype z hz => ?_,
      fun htype hlive hne hmapped => ?_, fun hs hno hne => ?_, fun he => ?_, fun hv hno hno' => ?_,
      fun v => by rw [hdead.inodeAt, hat₂, hadded.touched.mode_all]⟩
    · rw [hself₃] at hz
      exact (hslot₂ htype).upLink_second hnp hz
    · rw [hself₃]
      have hkept := hadded.touched.slotsKept hne
      have hdir₁ := ((hadded.touched.liveDir _).mpr hlive).2.2
      exact (hslot₂ htype).upLink_set hnp (Nat.ne_of_gt hnew.1.1) hne.symm hok.valid hdir₁
        (by rw [hkept.inode, hkept.slot]; exact hmapped)
    · rw [hafter hno, hup₂ _ fun hc => absurd hc hne]
      exact hadded.upLink_second hnew hlive hne.symm hs
    · subst he
      exact hdead.upLink_dead_second
    · rw [hafter hno, hup₂ _ hv, hadded.upLink hno']

end

end IpoOs
