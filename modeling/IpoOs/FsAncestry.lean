import IpoOs.FsTreeRun

/-!
# The ancestor check of a rename

`is_descendant` climbs from a directory towards the root, through the
inode number in the second slot of each directory on the way. In the
directories of `ipo_fs_format` this is the entry `..`; in those of
`ipo_fs_create` it is whatever was added second, or what a rename wrote
there. The climb is that of `climb`, and it is right in every state of
every run that keeps the second slots of the directories for the parent.

The loop is proved to end by the climb of `Ancestry`, with the tree of the
volume as the relation and the second slots as the map. Without the
condition on the second slots it need not end: two directories that name
each other there keep it going, and the last section reaches that state by a
run.
-/

namespace IpoOs

/-! ## The loop as a climb

The look-up of the second slot of a directory, and the loop over such
look-ups. -/

section

variable {u : Block} {sb : Superblock} {d : Disk} {a v : Nat}

theorem dirSlot_second {r : Inode} (h : r.direct0 ≠ 0) :
    d.dirSlot r 1 = some (DirEntry.decode (d r.direct0.toNat) 72) := by
  have hphys : d.findPhys r 1 = some r.direct0.toNat := dif_pos (by decide)
  have h0 : r.direct0.toNat ≠ 0 := toNat_ne_zero.mpr h
  simp only [Disk.dirSlot, hphys, h0, if_false]

theorem dirSlot_second_null {r : Inode} (h : r.direct0 = 0) : d.dirSlot r 1 = none := by
  have hphys : d.findPhys r 1 = some r.direct0.toNat := dif_pos (by decide)
  rw [Disk.dirSlot, hphys, h]
  exact if_pos rfl

theorem isDescendantFrom_up {fuel z : Nat} (h1 : v ≠ 1) (h0 : v ≠ 0) (ha : v ≠ a)
    (hup : d.upLink sb v = some z) :
    isDescendantFrom (arrayDev u) sb a (fuel + 1) v d
        = isDescendantFrom (arrayDev u) sb a fuel z d := by
  unfold Disk.upLink at hup
  split at hup
  · rename_i hdir
    obtain ⟨s, hs, hz⟩ := Option.bind_eq_some_iff.mp hup
    obtain ⟨-, hne, rfl⟩ := DirEntry.upFrom_eq_some.mp hz
    rcases em ((d.inodeAt sb v).direct0 = 0) with hd | hd
    · rw [dirSlot_second_null hd] at hs
      cases hs
    · rw [dirSlot_second hd] at hs
      obtain rfl := Option.some.inj hs
      have hpar : ¬ (entryInode (d (d.inodeAt sb v).direct0.toNat) 72).toNat = v := hne
      rw [isDescendantFrom, Prog.run_ite, if_neg (not_or.mpr ⟨h1, h0⟩), Prog.run_ite, if_neg ha]
      simp only [Prog.run_bind, readInode_array, if_pos hdir.1, Prog.run_ite, hdir.2, not_true,
        if_false, hd, arrayDev_read, hpar]
      rfl
  · cases hup

/-- Without an up-link the loop ends, at the latest in the round after. -/
theorem isDescendantFrom_none {fuel : Nat} (h1 : v ≠ 1) (h0 : v ≠ 0) (ha : v ≠ a)
    (hup : d.upLink sb v = none) :
    (isDescendantFrom (arrayDev u) sb a (fuel + 2) v d).1 = some false := by
  rw [isDescendantFrom, Prog.run_ite, if_neg (not_or.mpr ⟨h1, h0⟩), Prog.run_ite, if_neg ha]
  rcases em (sb.ValidIno v) with hv | hv
  · cases hdir : (d.inodeAt sb v).isDir with
    | false => simp [readInode_array, hv, hdir]
    | true =>
        rw [Disk.upLink, if_pos ⟨hv, hdir⟩] at hup
        rcases em ((d.inodeAt sb v).direct0 = 0) with hd | hd
        · simp [readInode_array, hv, hdir, hd]
        · rw [dirSlot_second hd] at hup
          rcases em ((entryInode (d (d.inodeAt sb v).direct0.toNat) 72).toNat = v)
            with hself | hself
          · simp [readInode_array, hv, hdir, hd, hself]
          · have hzero : (entryInode (d (d.inodeAt sb v).direct0.toNat) 72).toNat = 0 := by
              by_contra hc
              have hsome := DirEntry.upFrom_eq_some (i := v)
                (s := DirEntry.decode (d (d.inodeAt sb v).direct0.toNat) 72) |>.mpr
                ⟨toNat_ne_zero.mp hc, hself, rfl⟩
              rw [Option.bind_some, hsome] at hup
              cases hup
            simp [readInode_array, hv, hdir, hd, hzero, Ne.symm h0, isDescendantFrom]
  · simp [readInode_array, hv]

theorem isDescendantFrom_climb {fuel : Nat} {b : Bool} (h0 : v ≠ 0)
    (h : climb 1 (d.upLink sb) a fuel v = some b) :
    (isDescendantFrom (arrayDev u) sb a (fuel + 1) v d).1 = some b := by
  induction fuel generalizing v with
  | zero => cases h
  | succ fuel ih =>
      rw [climb] at h
      rcases em (v = 1) with h1 | h1
      · rw [if_pos h1] at h
        rw [← h, isDescendantFrom, Prog.run_ite, if_pos (Or.inl h1)]
        rfl
      rcases em (v = a) with ha | ha
      · rw [if_neg h1, if_pos ha] at h
        rw [← h, isDescendantFrom, Prog.run_ite, if_neg (not_or.mpr ⟨h1, h0⟩), Prog.run_ite,
          if_pos ha]
        rfl
      rw [if_neg h1, if_neg ha] at h
      cases hup : d.upLink sb v with
      | none =>
          rw [hup] at h
          rw [← h]
          exact isDescendantFrom_none h1 h0 ha hup
      | some z =>
          rw [hup] at h
          rw [isDescendantFrom_up h1 h0 ha hup]
          have hz : z ≠ 0 := by
            unfold Disk.upLink at hup
            split at hup
            · obtain ⟨s, -, hz⟩ := Option.bind_eq_some_iff.mp hup
              obtain ⟨hs, -, rfl⟩ := DirEntry.upFrom_eq_some.mp hz
              exact toNat_ne_zero.mpr hs
            · cases hup
          exact ih hz h

end

/-! ## The up-links over whole runs

When the second slots of the directories lead to their parents, and which
calls keep it so. -/

/-- The up-links of the directories serve the climb. -/
abbrev UpOk (sb : Superblock) (d : Disk) : Prop := (d.naming sb).Linked 1 typeDir (d.upLink sb)

/-- The next entry of directory `x` does not go into the second slot, unless `x` is the root, or
is in the root and the entry is no directory. -/
abbrev Disk.NextClear (d : Disk) (sb : Superblock) (x : Nat) (isDir : Prop) : Prop :=
  (d.naming sb).SlotClear 1 x (d.inodeAt sb x).slots isDir

/-- A new object can be linked: a directory in the root only. -/
def CreateSafe (u : Block) (k : Kernel Disk) (path : CString) (type : UInt8) : Prop :=
  k.fsMounted = true → ∀ parent name, CreateOk u k.sb k.disk path.chars parent name →
    ((freshInode type.toUInt32 1).isDir = true → parent = 1)
    ∧ k.disk.NextClear k.sb parent ((freshInode type.toUInt32 1).isDir = true)

/-- An object can be moved: a directory with a first block and a second slot that is free for
the new parent, unless this is the root. -/
def MoveSafe (u : Block) (k : Kernel Disk) (fuel : Nat) (oldpath newpath : CString) : Prop :=
  k.fsMounted = true → ∀ op on de np nn,
    RenameOk u k.sb k.disk fuel oldpath.chars newpath.chars op on de np nn →
    k.disk.NextClear k.sb np (k.disk.LiveDir k.sb de.inode.toNat)
    ∧ (k.disk.LiveDir k.sb de.inode.toNat → np ≠ 1 →
      de.type = typeDir ∧ (k.disk.inodeAt k.sb de.inode.toNat).direct0 ≠ 0)

/-- A call that keeps the second slots of the directories for the parent. -/
def UpSafe (u : Block) (k : Kernel Disk) (c : FsCall) : Prop :=
  TreeSafe u k c ∧ (∀ path type, c.creates path type → CreateSafe u k path type)
    ∧ ∀ fuel oldpath newpath, c = .rename fuel oldpath newpath → MoveSafe u k fuel oldpath newpath

section

variable {u : Block} {sb : Superblock} {d d' : Disk}

theorem LinksKept.upOk (h : LinksKept sb d d') (hl : UpOk sb d) : UpOk sb d' := by
  unfold UpOk
  rw [h.naming]
  exact hl.congr fun v hv => h.up hv

theorem Created.upOk {parent i : Nat} {name : Str} {type : UInt8}
    (h : Created sb parent name type i d d') (ht : (d.naming sb).Tree 1) (hl : UpOk sb d)
    (hdir : (freshInode type.toUInt32 1).isDir = true → parent = 1)
    (hclear : d.NextClear sb parent ((freshInode type.toUInt32 1).isDir = true)) : UpOk sb d' := by
  unfold UpOk
  rw [h.naming]
  exact hl.create (l := ⟨name, type, i⟩) ht h.parentDir h.fresh hdir hclear h.upNew h.upSecond
      fun v hv hno =>
    h.upOther hv hno

theorem Deleted.upOk {parent e : Nat} {name : Str} {de : DirEntry}
    (h : Deleted sb parent de name e d d') (hl : UpOk sb d) : UpOk sb d' := by
  unfold UpOk
  rw [h.naming]
  exact hl.delete h.entry (fun hm hne => Disk.upLink_second hm hne) h.upNone fun v _ hv hno =>
    h.upOther hv hno

theorem Moved.upOk {op np e : Nat} {on nn : Str} {de : DirEntry}
    (h : Moved sb op on de np nn e d d') (ht : (d.naming sb).Tree 1) (hl : UpOk sb d)
    (hreach : Relation.ReflTransGen (d.naming sb).Child 1 op)
    (hclear : d.NextClear sb np (d.LiveDir sb de.inode.toNat))
    (hdir : d.LiveDir sb de.inode.toNat → np ≠ 1 →
      de.type = typeDir ∧ (d.inodeAt sb de.inode.toNat).direct0 ≠ 0) : UpOk sb d' := by
  have hroot : de.inode.toNat ≠ 1 := (ht.target h.entry).2
  have hself : de.inode.toNat ≠ op := fun hc => by
    have hloop := h.entry
    rw [hc] at hloop
    exact ht.not_mutual hreach hloop hloop rfl
  unfold UpOk
  rw [h.naming]
  refine hl.move ht h.entry hreach rfl hclear (fun hm hne => Disk.upLink_second hm hne)
    (fun hd hnp => (hdir hd hnp).1) (fun hd hnp hne => ?_) (fun hd hnp z hz => ?_) h.upFilled
    h.upNone fun v hv hno hno' => h.upOther (fun hc => absurd hc hv) hno hno'
  · obtain ⟨htype, hmapped⟩ := hdir hd hnp
    refine h.upSet htype hd (Ne.symm hne) ?_
    rw [dirSlot_second hmapped]
    rfl
  · rcases em (de.type = typeDir) with htype | htype
    · exact Or.inl ((h.upDir htype hz).trans hnp)
    · -- in another directory than the root the entry would have the type of a directory
      have hop : op = 1 := by
        by_contra hc
        exact htype (hl.tag h.entry hd hc)
      have hsame := h.upOther (fun _ => htype) (fun hc => hself hc.1) (v := de.inode.toNat)
        fun hc => hroot (hc.1.trans hnp)
      exact Or.inr ⟨hop, hsame.symm.trans hz⟩

theorem NewTree.upOk {app autorun : Nat} (h : NewTree sb app autorun d) : UpOk sb d where
  inner he _ hx := by
    rcases h.entries.mp he with ⟨rfl, -⟩ | ⟨rfl, -⟩ <;> exact absurd rfl hx
  tag he _ hx := by
    rcases h.entries.mp he with ⟨rfl, -⟩ | ⟨rfl, -⟩ <;> exact absurd rfl hx
  top he hd hz := by
    rcases h.entries.mp he with ⟨-, -, rfl⟩ | ⟨-, -, rfl⟩
    · exact Or.inl (h.appUp hz)
    · have hdir : (d.inodeAt sb autorun).isDir = true := hd.2.2
      unfold Inode.isDir at hdir
      rw [h.autorunMode] at hdir
      exact absurd hdir (by decide)

end

section

variable {u : Block} {k k' : Kernel Disk}

/-- The up-links serve the climb in every state of every run of safe calls. -/
theorem FsRun.upOk (hr : FsRun u (UpSafe u) k k') (h : VolOk k) (ht : TreeOk k.sb k.disk)
    (hl : UpOk k.sb k.disk) : VolOk k' ∧ TreeOk k'.sb k'.disk ∧ UpOk k'.sb k'.disk := by
  refine FsRun.links (P := UpOk) (fun k c hs => hs.1) (fun {k c d} h ht hs hstep hl => ?_)
    (fun _ hk hl => hk.upOk hl) hr h ht hl
  cases hstep with
  | kept hk => exact hk.upOk hl
  | created hm hc hok hcreated =>
      obtain ⟨hdir, hclear⟩ := hs.2.1 _ _ hc hm _ _ hok
      exact hcreated.upOk ht.tree hl hdir hclear
  | deleted _ _ hdeleted => exact hdeleted.upOk hl
  | moved hm hok hmoved =>
      obtain ⟨hclear, hdir⟩ := hs.2.2 _ _ _ rfl hm _ _ _ _ _ hok
      exact hmoved.upOk ht.tree hl (ht.resolveParent_reach hok.resolve).2 hclear hdir

end

/-! ## The check

In a state with right up-links the check ends and is right, so a rename
returns. -/

/-- `is_descendant` returns for every directory a path resolves to, and says whether the first
directory is the second or contains it; so every rename returns. -/
structure CheckRight (u : Block) (k : Kernel Disk) : Prop where
  right : ∀ (a n : Nat) (path : CString), k.disk.LiveDir k.sb a → a ≠ 1 →
    (pathResolve (arrayDev u) k.sb path.chars k.disk).1 = some n → k.disk.LiveDir k.sb n →
    ∃ rounds, ∀ fuel, rounds ≤ fuel → ∃ b,
      (isDescendant (arrayDev u) k.sb fuel a n k.disk).1 = some b
      ∧ (b = true ↔ Relation.ReflTransGen (k.disk.naming k.sb).Child a n)
  returns : ∀ oldpath newpath, ∃ rounds, ∀ fuel, rounds ≤ fuel →
    (ipoFsRename (diskDev u) fuel oldpath newpath k).1 ≠ none

section

variable {u : Block} {sb : Superblock} {d : Disk}

/-- A target that is not found is one whose check does not return. -/
theorem renameTarget_none {fuel : Nat} {de : DirEntry} {oldname newpath : Str}
    (h : (renameTarget (arrayDev u) sb fuel de oldname newpath d).1 = none) :
    ∃ n, (pathResolve (arrayDev u) sb newpath d).1 = some n
      ∧ sb.ValidIno n ∧ (d.inodeAt sb n).isDir = true
      ∧ (isDescendant (arrayDev u) sb fuel de.inode.toNat n d).1 = none := by
  obtain ⟨t, hrun⟩ : ∃ t, pathResolve (arrayDev u) sb newpath d = (t, d) :=
    ⟨_, (readOnly_pathResolve u sb newpath).run_eq d⟩
  rw [hrun]
  unfold renameTarget at h
  rw [Prog.run_bind, hrun] at h
  cases t with
  | none => cases h
  | some i =>
      dsimp only at h
      rw [Prog.run_bind, readInode_array] at h
      rcases em (sb.ValidIno i) with hv | hv
      · rw [if_pos hv] at h
        dsimp only at h
        rw [Prog.run_ite] at h
        split at h
        · rename_i hdir
          rw [Prog.run_ite] at h
          split at h
          · obtain ⟨b, hdesc⟩ : ∃ b, isDescendant (arrayDev u) sb fuel de.inode.toNat i d
                = (b, d) :=
              ⟨_, (readOnly_isDescendant u sb fuel de.inode.toNat i).run_eq d⟩
            rw [Prog.run_bind, hdesc] at h
            rcases b with _ | _ | _
            · exact ⟨i, rfl, hv, hdir, by rw [hdesc]⟩
            · cases h
            · cases h
          · cases h
        · cases h
      · rw [if_neg hv] at h
        cases h

theorem renameEntry_none {fuel : Nat} {oldpath newpath : Str}
    (h : (renameEntry fuel oldpath newpath (arrayDev u) sb d).1 = none) :
    ∃ op on de p q n, (pathResolveParent (arrayDev u) sb oldpath d).1 = some (op, on)
      ∧ (dirFindEntry (arrayDev u) sb op on d).1 = some (de, p, q)
      ∧ (pathResolve (arrayDev u) sb newpath d).1 = some n
      ∧ sb.ValidIno n ∧ (d.inodeAt sb n).isDir = true
      ∧ (isDescendant (arrayDev u) sb fuel de.inode.toNat n d).1 = none := by
  obtain ⟨oi, hoi⟩ : ∃ p, pathResolve (arrayDev u) sb oldpath d = (p, d) :=
    ⟨_, (readOnly_pathResolve u sb oldpath).run_eq d⟩
  obtain ⟨ni, hni⟩ : ∃ p, pathResolve (arrayDev u) sb newpath d = (p, d) :=
    ⟨_, (readOnly_pathResolve u sb newpath).run_eq d⟩
  obtain ⟨p, hp⟩ : ∃ p, pathResolveParent (arrayDev u) sb oldpath d = (p, d) :=
    ⟨_, (readOnly_pathResolveParent u sb oldpath).run_eq d⟩
  unfold renameEntry at h
  rw [Prog.run_ite] at h
  split at h
  · cases h
  rw [Prog.run_bind, hoi, Prog.run_bind, hni, Prog.run_ite] at h
  split at h
  · cases h
  rw [Prog.run_bind, hp] at h
  cases p with
  | none => cases h
  | some pn =>
      obtain ⟨op, on⟩ := pn
      obtain ⟨f, hfind⟩ : ∃ f, dirFindEntry (arrayDev u) sb op on d = (f, d) :=
        ⟨_, (readOnly_dirFindEntry u sb op on).run_eq d⟩
      dsimp only at h
      rw [Prog.run_bind, hfind] at h
      cases f with
      | none => cases h
      | some f =>
          obtain ⟨de, ph, j⟩ := f
          obtain ⟨t, ht⟩ : ∃ t, renameTarget (arrayDev u) sb fuel de on newpath d = (t, d) :=
            ⟨_, (readOnly_renameTarget u sb fuel de on newpath).run_eq d⟩
          dsimp only at h
          rw [Prog.run_bind, readInode_array] at h
          rcases em (sb.ValidIno de.inode.toNat) with hv | hv
          · rw [if_pos hv] at h
            dsimp only at h
            rw [Prog.run_ite] at h
            split at h
            · cases h
            rw [Prog.run_bind, ht] at h
            rcases t with _ | _ | ⟨np, nn⟩
            · obtain ⟨n, hn⟩ :=
                renameTarget_none (by rw [ht] : (renameTarget (arrayDev u) sb fuel de
                on newpath d).1 = none)
              exact ⟨op, on, de, ph, j, n, by rw [hp], by rw [hfind], hn⟩
            · cases h
            · dsimp only at h
              rw [Prog.run_ite] at h
              split at h
              · cases h
              rw [Prog.run_bind] at h
              generalize dirFindEntry (arrayDev u) sb np nn d = res at h
              obtain ⟨g, d'⟩ := res
              cases g with
              | some tmp => cases h
              | none => cases h
          · rw [if_neg hv] at h
            cases h

/-- On a volume whose up-links serve the climb the check returns, and is right. -/
theorem isDescendant_right (ht : TreeOk sb d) (hl : UpOk sb d) {path : Str} {n : Nat}
    (hp : (pathResolve (arrayDev u) sb path d).1 = some n) (hn : d.LiveDir sb n) (a : Nat) :
    ∃ rounds, ∀ fuel, rounds ≤ fuel → ∃ b,
      (isDescendant (arrayDev u) sb fuel a n d).1 = some b
      ∧ (d.LiveDir sb a → a ≠ 1 → (b = true ↔ Relation.ReflTransGen (d.naming sb).Child a n)) := by
  have hstop : ∀ z, (d.naming sb).used z → ¬ (d.naming sb).dir z → d.upLink sb z = none := by
    intro z hz hdir
    cases hf : (d.inodeAt sb z).isDir with
    | false => exact Disk.upLink_of_file hf
    | true => exact absurd ⟨hz.1, hz.2, hf⟩ hdir
  have hreach := ht.tree.reach_dirs (ht.resolve_reach hp) hn
  obtain ⟨rounds, hrounds⟩ := (hl.upLinks ht.tree hstop).climb_right a hreach
  have hn0 : n ≠ 0 := Nat.ne_of_gt hn.1.1
  refine ⟨rounds + 1, fun fuel hfuel => ?_⟩
  rcases em (a = 0) with rfl | ha
  · refine ⟨false, by rw [isDescendant, if_pos (Or.inl rfl)]; rfl, fun hlive => ?_⟩
    exact absurd hlive.1.1 (by decide)
  · obtain ⟨f, rfl⟩ := Nat.exists_eq_add_of_le' hfuel
    obtain ⟨b, hb, hiff⟩ := hrounds (f + rounds) (Nat.le_add_left _ _)
    refine ⟨b, ?_, fun hlive hroot => ?_⟩
    · rw [isDescendant, if_neg (not_or.mpr ⟨ha, hn0⟩)]
      exact isDescendantFrom_climb hn0 hb
    · rw [hiff hlive hroot]
      exact ⟨fun hr => Relation.ReflTransGen.mono (fun _ _ hc => hc.1) _ _ hr,
        fun hr => ht.tree.reach_dirs hr hn⟩

end

/-- In every state of every run from a new volume whose calls keep the second slots of the
directories for the parent, the ancestor check of `ipo_fs_rename` returns and is right. -/
theorem isDescendant_terminates {u : Block} {start totalBlocks totalInodes : UInt32}
    {k k₀ k₁ : Kernel Disk}
    (hf : ipoFsFormat (diskDev u) start totalBlocks totalInodes k = (true, k₀))
    (htable : TableFits totalInodes) (hbitmap : BitmapFits totalBlocks totalInodes)
    (hr : FsRun u (UpSafe u) k₀ k₁) : CheckRight u k₁ := by
  obtain ⟨ht₀, app, autorun, hnew⟩ := ipoFsFormat_tree hf htable hbitmap
  obtain ⟨-, ht, hl⟩ := hr.upOk (ipoFsFormat_ok hf htable hbitmap) ht₀ hnew.upOk
  constructor
  · intro a n path ha hroot hp hn
    obtain ⟨rounds, hrounds⟩ := isDescendant_right ht hl hp hn a
    refine ⟨rounds, fun fuel hfuel => ?_⟩
    obtain ⟨b, hb, hiff⟩ := hrounds fuel hfuel
    exact ⟨b, hb, hiff ha hroot⟩
  · intro oldpath newpath
    have hentry : ∀ fuel, (ipoFsRename (diskDev u) fuel oldpath newpath k₁).1 = none →
        (renameEntry fuel oldpath.chars newpath.chars (arrayDev u) k₁.sb k₁.disk).1 = none := by
      intro fuel hnone
      rw [ipoFsRename_run] at hnone
      split at hnone
      · exact hnone
      · cases hnone
    rcases em (∃ fuel, (ipoFsRename (diskDev u) fuel oldpath newpath k₁).1 = none) with
      ⟨fuel₀, h₀⟩ | hno
    · obtain ⟨op, on, de, p, q, n, hop, hfound, hp, hv, hdir, -⟩ := renameEntry_none (hentry _ h₀)
      have hused := ht.used_of_reach ht.root_used (ht.resolve_reach hp)
      obtain ⟨rounds, hrounds⟩ := isDescendant_right ht hl hp ⟨hv, hused.2, hdir⟩ de.inode.toNat
      refine ⟨rounds, fun fuel hfuel hnone => ?_⟩
      obtain ⟨op', on', de', p', q', n', hop', hfound', hp', -, -, hdesc⟩ :=
        renameEntry_none (hentry _ hnone)
      obtain ⟨rfl, rfl⟩ := Prod.mk.inj (Option.some.inj (hop.symm.trans hop'))
      obtain ⟨rfl, -⟩ := Prod.mk.inj (Option.some.inj (hfound.symm.trans hfound'))
      obtain rfl := Option.some.inj (hp.symm.trans hp')
      obtain ⟨b, hb, -⟩ := hrounds fuel hfuel
      rw [hdesc] at hb
      cases hb
    · exact ⟨0, fun fuel _ hnone => hno ⟨fuel, hnone⟩⟩

theorem dirKernel_upSafe : FsRun Buf.zero (UpSafe Buf.zero) (formattedKernel 12 6) dirKernel := by
  have hmount : FsCall.exec (diskDev Buf.zero) .mount (formattedKernel 12 6)
      = some (mountedKernel 12 6) := by
    rw [mountedKernel, ← formattedKernel_start]
    exact rfl
  have hp : (pathResolveParent (arrayDev Buf.zero) (mountedKernel 12 6).sb dPath.chars
      (mountedKernel 12 6).disk).1 = some (1, [100]) := by
    decide +kernel
  have hcreate : UpSafe Buf.zero (mountedKernel 12 6) (.create dPath typeDir) := by
    refine ⟨trivial, fun path type hc _ parent name hok => ?_, fun _ _ _ hc => (by cases hc)⟩
    obtain ⟨rfl, rfl⟩ := hc
    obtain ⟨rfl, -⟩ := Prod.mk.inj (Option.some.inj (hp.symm.trans hok.resolve))
    exact ⟨fun _ => rfl, fun _ hroot => absurd rfl hroot⟩
  exact (Relation.ReflTransGen.single ⟨.mount, ⟨trivial, fun _ _ hc => hc.elim,
    fun _ _ _ hc => (by cases hc)⟩, hmount⟩).tail ⟨.create dPath typeDir, hcreate, rfl⟩

/-- The check on a volume with a directory in the root. -/
theorem isDescendant_terminates_dir : CheckRight Buf.zero dirKernel :=
  isDescendant_terminates formattedKernel_run (by decide) (by decide) dirKernel_upSafe

/-! ## A rename that does not return

Two directories whose second slots name each other. -/

section

variable {u : Block} {sb : Superblock} {d : Disk}

theorem ipoFsRename_stuck {k : Kernel Disk} (hm : k.fsMounted = true) {fuel old new op p q : Nat}
    {oldpath newpath : CString} {on : Str} {de : DirEntry} (hroot : oldpath.chars ≠ [slash])
    (hold : (pathResolve (arrayDev u) k.sb oldpath.chars k.disk).1 = some old)
    (hnew : (pathResolve (arrayDev u) k.sb newpath.chars k.disk).1 = some new) (hne : old ≠ new)
    (hp : (pathResolveParent (arrayDev u) k.sb oldpath.chars k.disk).1 = some (op, on))
    (hf : (dirFindEntry (arrayDev u) k.sb op on k.disk).1 = some (de, p, q))
    (hv : k.sb.ValidIno de.inode.toNat)
    (hun : (k.disk.inodeAt k.sb de.inode.toNat).isProtected = false)
    (hdir : k.disk.LiveDir k.sb new) (htype : de.type = typeDir)
    (hstuck : (isDescendant (arrayDev u) k.sb fuel de.inode.toNat new k.disk).1 = none) :
    (ipoFsRename (diskDev u) fuel oldpath newpath k).1 = none := by
  have hold' : pathResolve (arrayDev u) k.sb oldpath.chars k.disk = (some old, k.disk) :=
    Prod.ext hold (readOnly_pathResolve u k.sb oldpath.chars k.disk)
  have hnew' : pathResolve (arrayDev u) k.sb newpath.chars k.disk = (some new, k.disk) :=
    Prod.ext hnew (readOnly_pathResolve u k.sb newpath.chars k.disk)
  have hp' : pathResolveParent (arrayDev u) k.sb oldpath.chars k.disk = (some (op, on), k.disk) :=
    Prod.ext hp (readOnly_pathResolveParent u k.sb oldpath.chars k.disk)
  have hf' : dirFindEntry (arrayDev u) k.sb op on k.disk = (some (de, p, q), k.disk) :=
    Prod.ext hf (readOnly_dirFindEntry u k.sb op on k.disk)
  have hstuck' : isDescendant (arrayDev u) k.sb fuel de.inode.toNat new k.disk = (none, k.disk) :=
    Prod.ext hstuck (readOnly_isDescendant u k.sb fuel de.inode.toNat new k.disk)
  have htarget : renameTarget (arrayDev u) k.sb fuel de on newpath.chars k.disk
      = (none, k.disk) := by
    simp [renameTarget, hnew', readInode_array, hdir.1, hdir.2.2, htype, hstuck']
  rw [ipoFsRename_run, if_pos hm]
  simp [renameEntry, hroot, hold', hnew', hne, hp', hf', readInode_array, hv, hun, htarget]

end

/-- The path `/s`. -/
def sPath : CString := rootPath [115] (by decide)

/-- The path `/s/t`. -/
def stPath : CString := rootPath [115, 47, 116] (by decide)

/-- The path `/d/s`. -/
def dsPath : CString := rootPath [100, 47, 115] (by decide)

/-- A kernel with the directory `/d`, a file in it, and the directory `/s`, with a file in it. -/
def twoDirsKernel : Kernel Disk :=
  (ipoFsCreate (diskDev Buf.zero) stPath typeFile
    (ipoFsCreate (diskDev Buf.zero) sPath typeDir
      (ipoFsCreate (diskDev Buf.zero) dfPath typeFile
        (ipoFsCreate (diskDev Buf.zero) dPath typeDir (mountedKernel 12 8)).2).2).2).2

/-- The same kernel after `/s` was renamed to `/d`, and with a directory `/x`. -/
def loopKernel : Kernel Disk :=
  (ipoFsCreate (diskDev Buf.zero) xPath typeDir
    (ipoFsRename (diskDev Buf.zero) 8 sPath dPath twoDirsKernel).2).2

theorem loopKernel_run : FsRun Buf.zero (fun _ _ => True) (formattedKernel 12 8) loopKernel := by
  have hstart : (formattedKernel 12 8).fsStartLba = 0 := by decide +kernel
  have hmount : FsCall.exec (diskDev Buf.zero) .mount (formattedKernel 12 8)
      = some (mountedKernel 12 8) := by
    rw [mountedKernel, ← hstart]
    exact rfl
  have hrename : (ipoFsRename (diskDev Buf.zero) 8 sPath dPath twoDirsKernel).1 = some true := by
    decide +kernel
  have htwo : FsRun Buf.zero (fun _ _ => True) (formattedKernel 12 8) twoDirsKernel :=
    ((((Relation.ReflTransGen.single ⟨.mount, trivial, hmount⟩).tail
      ⟨.create dPath typeDir, trivial, rfl⟩).tail ⟨.create dfPath typeFile, trivial, rfl⟩).tail
      ⟨.create sPath typeDir, trivial, rfl⟩).tail ⟨.create stPath typeFile, trivial, rfl⟩
  exact (htwo.tail ⟨.rename 8 sPath dPath, trivial, exec_rename hrename⟩).tail
    ⟨.create xPath typeDir, trivial, rfl⟩

/-- `/s` in `/d` and `/d` in `/s`, for the check: no number of rounds is enough, and the rename of
`/x` to `/d/s` does not return. -/
theorem isDescendant_loops :
    (ipoFsFormat (diskDev Buf.zero) 0 12 8 blankKernel).1 = true ∧ TableFits 8 ∧ BitmapFits 12 8
    ∧ FsRun Buf.zero (fun _ _ => True) (formattedKernel 12 8) loopKernel
    ∧ loopKernel.disk.LiveDir loopKernel.sb 8
    ∧ (pathResolve (arrayDev Buf.zero) loopKernel.sb dsPath.chars loopKernel.disk).1 = some 6
    ∧ loopKernel.disk.LiveDir loopKernel.sb 6
    ∧ (∀ fuel, (isDescendant (arrayDev Buf.zero) loopKernel.sb fuel 8 6 loopKernel.disk).1 = none)
    ∧ ∀ fuel, (ipoFsRename (diskDev Buf.zero) fuel xPath dsPath loopKernel).1 = none := by
  have hup : loopKernel.disk.upLink loopKernel.sb 6 = some 4 := by decide +kernel
  have hdown : loopKernel.disk.upLink loopKernel.sb 4 = some 6 := by decide +kernel
  have hlive : loopKernel.disk.LiveDir loopKernel.sb 8 := by decide +kernel
  have hnew : (pathResolve (arrayDev Buf.zero) loopKernel.sb dsPath.chars loopKernel.disk).1
      = some 6 := by
    decide +kernel
  have hdir : loopKernel.disk.LiveDir loopKernel.sb 6 := by decide +kernel
  have hloop : ∀ fuel v, v = 6 ∨ v = 4 →
      (isDescendantFrom (arrayDev Buf.zero) loopKernel.sb 8 fuel v loopKernel.disk).1 = none := by
    intro fuel
    induction fuel with
    | zero => exact fun _ _ => rfl
    | succ fuel ih =>
        rintro v (rfl | rfl)
        · rw [isDescendantFrom_up (by decide) (by decide) (by decide) hup]
          exact ih 4 (Or.inr rfl)
        · rw [isDescendantFrom_up (by decide) (by decide) (by decide) hdown]
          exact ih 6 (Or.inl rfl)
  have hcheck : ∀ fuel,
      (isDescendant (arrayDev Buf.zero) loopKernel.sb fuel 8 6 loopKernel.disk).1 = none := by
    intro fuel
    rw [isDescendant, if_neg (by decide)]
    exact hloop fuel 6 (Or.inl rfl)
  have hold : (pathResolve (arrayDev Buf.zero) loopKernel.sb xPath.chars loopKernel.disk).1
      = some 8 := by
    decide +kernel
  have hp : (pathResolveParent (arrayDev Buf.zero) loopKernel.sb xPath.chars loopKernel.disk).1
      = some (1, [120]) := by
    decide +kernel
  have hf : (dirFindEntry (arrayDev Buf.zero) loopKernel.sb 1 [120] loopKernel.disk).1.map
      (fun f => (f.1.inode, f.1.type)) = some (8, typeDir) := by
    decide +kernel
  have hun : (loopKernel.disk.inodeAt loopKernel.sb 8).isProtected = false := by decide +kernel
  have hmounted : loopKernel.fsMounted = true := by decide +kernel
  obtain ⟨⟨de, p, q⟩, hf, hde⟩ := Option.map_eq_some_iff.mp hf
  obtain ⟨hino, htype⟩ := Prod.mk.inj hde
  have hnat : de.inode.toNat = 8 := congrArg UInt32.toNat hino
  have hv : loopKernel.sb.ValidIno de.inode.toNat := by
    rw [hnat]
    exact hlive.1
  rw [← hnat] at hun
  have hstuck : ∀ fuel, (ipoFsRename (diskDev Buf.zero) fuel xPath dsPath loopKernel).1 = none := by
    intro fuel
    have hcheck' := hcheck fuel
    rw [← hnat] at hcheck'
    exact ipoFsRename_stuck hmounted (by decide) hold hnew (by decide) hp hf hv hun hdir htype
      hcheck'
  exact ⟨by decide +kernel, by decide, by decide, loopKernel_run, hlive, hnew, hdir, hcheck, hstuck⟩

end IpoOs
