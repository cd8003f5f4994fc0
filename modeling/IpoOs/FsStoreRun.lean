import IpoOs.FsStore
import IpoOs.Descriptors

/-!
# Names in the store

`ipo_fs_create`, `ipo_fs_delete` and `ipo_fs_rename` as changes of what
the paths lead to. Two facts about each are put together here.

* The links. `Created`, `Deleted` and `Moved` say what the operation does
  to the entries of the volume; the naming library turns that into paths.
* The nodes. The records that an operation touches are those of
  directories, of which a user sees the mode only, and of the object that
  it creates or takes out. So whatever happens to slots, sizes and blocks
  of directories, nothing of it is seen.

`Tagged` is the invariant behind the rename: an entry of type directory
leads to a directory, so that the new parent number, which is written
into the second slot of what is moved, never goes into a file.
-/

namespace IpoOs

/-- An entry of type directory leads to a directory. -/
def Tagged (sb : Superblock) (d : Disk) : Prop :=
  ∀ {x e l}, (d.naming sb).entry x e = some l → l.tag = typeDir → d.LiveDir sb l.target

/-- A rename to a path below the old one. -/
def FsCall.IntoItself : FsCall → Prop
  | .rename _ oldpath newpath =>
      pathComps oldpath.chars <+: pathComps newpath.chars
        ∧ pathComps oldpath.chars ≠ pathComps newpath.chars
  | _ => False

/-- A write does not go into a directory, a directory that is moved has its second slot free for
the new parent, and no rename goes below what it moves. -/
def StoreSafe (u : Block) (k : Kernel Disk) (c : FsCall) : Prop := TreeSafe u k c ∧ ¬ c.IntoItself

/-! ## Entries of type directory

The invariant that the type in an entry is that of what it leads to. -/

section

variable {u : Block} {sb : Superblock} {d d' : Disk}

theorem LinksKept.tagged (h : LinksKept sb d d') (ht : Tagged sb d) : Tagged sb d' := by
  intro x e l hl htag
  rw [h.naming] at hl
  exact h.liveDir.mpr (ht hl htag)

theorem LinkStep.tagged {k : Kernel Disk} {c : FsCall} (h : LinkStep u k c d)
    (htree : (k.disk.naming k.sb).Tree 1) (ht : Tagged k.sb k.disk) : Tagged k.sb d := by
  have hdir : ∀ {G}, d.naming k.sb = G → ∀ {i}, d.LiveDir k.sb i ↔ G.dir i := by
    rintro G rfl i
    exact Iff.rfl
  intro x e l hl htag
  cases h with
  | kept h => exact h.tagged ht hl htag
  | @created _ _ _ type parent i name _ _ _ h =>
      rw [h.naming] at hl
      rw [hdir h.naming]
      rcases Naming.link_entry.mp hl with ⟨-, -, rfl⟩ | ⟨-, hl⟩
      · obtain rfl : type = typeDir := htag
        exact Or.inl ⟨rfl, by decide⟩
      · exact Or.inr (ht hl htag)
  | deleted _ _ h =>
      rw [h.naming] at hl
      rw [hdir h.naming]
      obtain ⟨hother, hold⟩ := Naming.unlink_entry.mp (Naming.free_entry.mp hl).2
      exact ⟨ht hold htag, fun hc => hother (htree.unique hold h.entry hc)⟩
  | moved _ _ h =>
      rw [h.naming] at hl
      rw [hdir h.naming]
      rcases Naming.link_entry.mp (Naming.unlink_entry.mp hl).2 with ⟨-, -, rfl⟩ | ⟨-, hold⟩
      · have htarget := ht h.entry htag
        exact htarget
      · exact ht hold htag

end

/-! ## What becomes of the nodes

An operation on names changes records of directories and of the object it
makes or takes out. -/

section

variable {u : Block} {k : Kernel Disk} (h : VolOk k)

include h

theorem dirAddEntry_node {d : Disk} (O : OwnedVol k.sb (intBound k.sb) d) (dir : Nat) (name : Str)
    (ino : Nat) (type : UInt8) (v : Nat) :
    (dirAddEntry (arrayDev u) k.sb dir name ino type d).2.node k.sb v = d.node k.sb v := by
  have htou := dirAddEntry_touched h.layout h.bound u O dir name ino type
  rcases dirAddEntry_cases h.layout h.bound u O dir name ino type with
    ⟨-, hrun⟩ | ⟨hok, -⟩ | ⟨hok, -⟩
  · rw [hrun]
  · exact htou.node_dir hok.2.1 v
  · exact htou.node_dir hok.2.1 v

/-- A creation changes no node in use, and the new one is empty. -/
theorem createEntry_node (path : Str) (type : UInt8) :
    (∀ {v}, (k.disk.naming k.sb).used v →
      (createEntry path type (arrayDev u) k.sb k.disk).2.node k.sb v = k.disk.node k.sb v)
    ∧ ∀ {i}, (createEntry path type (arrayDev u) k.sb k.disk).1 = some i →
      (createEntry path type (arrayDev u) k.sb k.disk).2.node k.sb i = newNode i type.toUInt32 := by
  rcases createEntry_cases h.layout h.bound u h.owned h.count path type with
    hrun | ⟨parent, name, j, d₁, d₂, -, -, hfree, ht, hrest⟩
  · rw [hrun]
    refine ⟨fun _ => rfl, fun hi => ?_⟩
    cases hi
  · have hadd := dirAddEntry_node (u := u) h ht.owned parent name j type
    have hold : ∀ {v}, (k.disk.naming k.sb).used v → v ≠ j := by
      rintro v hv rfl
      exact absurd (hv.2.symm.trans hfree) (by decide)
    rcases hrest with ⟨hok, hrun⟩ | ⟨d₃, hok, hf, hrun⟩
    · rw [hok] at hadd
      rw [hrun]
      refine ⟨fun hv => (hadd _).trans (ht.node (hold hv)), fun hi => ?_⟩
      obtain rfl := Option.some.inj hi
      exact (hadd _).trans ht.node_new
    · rw [hok] at hadd
      rw [hrun]
      refine ⟨fun hv => (hf.node (hold hv)).trans ((hadd _).trans (ht.node (hold hv))),
        fun hi => ?_⟩
      cases hi

theorem deleteEntry_node {path : Str} {parent : Nat} {name : Str} {de : DirEntry}
    (hok : DeleteOk u k.sb k.disk path parent name de) {v : Nat} (hv : v ≠ de.inode.toNat) :
    (deleteEntry path (arrayDev u) k.sb k.disk).2.node k.sb v = k.disk.node k.sb v := by
  rcases deleteEntry_cases h.layout h.bound u h.owned path with
    hrun | ⟨parent', name', de', d₁, d₂, hok', hrem, hf, hrun⟩
  · rw [hrun]
  · obtain ⟨rfl, rfl⟩ := Prod.mk.inj (Option.some.inj (hok.resolve.symm.trans hok'.resolve))
    obtain ⟨p, q, hfound⟩ := hok.found
    obtain ⟨p', q', hfound'⟩ := hok'.found
    obtain rfl := (Prod.mk.inj (Option.some.inj (hfound.symm.trans hfound'))).1
    have htou := dirRemoveEntry_touched h.layout h.bound u h.owned parent name
    rw [hrem] at htou
    rw [hrun, hf.node hv]
    exact htou.node_dir (dirFindEntry_isDir hfound).2 v

theorem renameEntry_node (ht : TreeOk k.sb k.disk) (htag : Tagged k.sb k.disk) (fuel : Nat)
    (oldpath newpath : Str) (v : Nat) :
    (renameEntry fuel oldpath newpath (arrayDev u) k.sb k.disk).2.node k.sb v
        = k.disk.node k.sb v := by
  rcases @renameEntry_cases k.sb u k.disk fuel oldpath newpath with
    ⟨res, hrun, -⟩ | ⟨op, on, de, np, nn, hok, hrun⟩
  · rw [hrun]
  have hadd := dirAddEntry_node (u := u) h h.owned np nn de.inode.toNat de.type
  have htou := dirAddEntry_touched h.layout h.bound u h.owned np nn de.inode.toNat de.type
  rcases moveEntry_cases u k.disk op on hok.valid np nn with
    ⟨d₁, hrun₁, hmove⟩ | ⟨d₁, d₂, hrun₁, hd₂, hmove⟩
  · rw [hrun, hmove]
    rw [hrun₁] at hadd
    exact hadd v
  · rw [hrun₁] at hadd htou
    obtain ⟨hname, hreach⟩ := ht.resolveParent_reach hok.resolve
    obtain ⟨p, q, hfound⟩ := hok.found
    have hold := liveDir_of_find (ht.used_of_reach ht.root_used hreach) hfound
    obtain ⟨-, e, hl⟩ := dirFindEntry_link ht.dirs hold hname.linkName hfound
    have hdir : ∀ {i}, (k.disk.inodeAt k.sb i).isDir = true → (d₁.inodeAt k.sb i).isDir = true := by
      intro i hi
      unfold Inode.isDir at hi ⊢
      rw [htou.mode_all]
      exact hi
    -- the new parent number goes into a directory
    have hmid : (∀ i, d₂.node k.sb i = d₁.node k.sb i) ∧ OwnedVol k.sb (intBound k.sb) d₂
        ∧ (d₂.inodeAt k.sb op).isDir = true := by
      rcases em (de.type = typeDir) with htype | htype
      · rw [if_pos htype] at hd₂
        have hp := patchDotdot_touched h.layout h.bound u htou.owned de.inode.toNat np
        rw [← hd₂] at hp
        refine ⟨hp.node_dir (hdir (htag hl htype).2.2), hp.owned, ?_⟩
        have hop := hdir hold.2.2
        unfold Inode.isDir at hop ⊢
        rw [hp.mode_all]
        exact hop
      · rw [if_neg htype] at hd₂
        subst hd₂
        exact ⟨fun _ => rfl, htou.owned, hdir hold.2.2⟩
    have hrem := dirRemoveEntry_touched h.layout h.bound u hmid.2.1 op on
    rw [hrun, hmove, hrem.node_dir hmid.2.2, hmid.1, hadd]

theorem writeFile_node {ino : Nat} (hv : k.sb.ValidIno ino)
    (hfile : (k.disk.inodeAt k.sb ino).isDir = false) (buffer : Buf) (size : Nat) {offset : Nat}
    (hoffset : offset < 4294967296) :
    ∃ w n' b', (writeFile ino buffer size offset (arrayDev u) k.sb k.disk).1 = some w
      ∧ (writeFile ino buffer size offset (arrayDev u) k.sb k.disk).2.node k.sb ino
        = .file ino (k.disk.inodeAt k.sb ino).mode n' b'
      ∧ WriteOk buffer size offset (k.disk.inodeAt k.sb ino).size.toNat
        (k.disk.fileByte (k.disk.inodeAt k.sb ino)) w n' b' := by
  have htou := writeFile_touched h.layout h.bound u h.owned ino buffer size offset
  have hfile' :
    ¬ ((writeFile ino buffer size offset (arrayDev u) k.sb k.disk).2.inodeAt k.sb ino).isDir
      = true := by
    unfold Inode.isDir at hfile ⊢
    rw [htou.mode, hfile]
    decide
  obtain ⟨w, d', hrun, hle, -, hwrote, hsize, -⟩ :=
    writeFile_wrote h.layout u h.bound h.owned hv buffer size hoffset
  refine ⟨w, _, _, by rw [hrun], by rw [Disk.node, if_neg hfile', htou.mode], hle, ?_, ?_⟩
  · rw [hrun]
    exact ⟨hwrote.written, hwrote.kept, hwrote.fresh⟩
  · rw [hrun]
    exact hsize

end

/-! ## One call

The three calls on names as changes of the store. -/

section

variable {u : Block} {k k' : Kernel Disk} {c : FsCall}

theorem Kernel.files_of_view {d : Disk} {s : PathStore Str Node} (hview : d.view u k.sb = s) :
    ({ k with disk := d } : Kernel Disk).files u = { k.files u with store := s } := by
  subst hview
  rfl

theorem Kernel.files_kept {d : Disk} (hview : d.view u k.sb = k.disk.view u k.sb) :
    ({ k with disk := d } : Kernel Disk).files u = k.files u := Kernel.files_of_view hview

theorem unprotected_mode {r : Inode} (h : r.isProtected = false) :
    r.mode &&& flagProtected = 0 := by
  unfold Inode.isProtected at h
  simpa using h

variable (h : VolOk k) (ht : TreeOk k.sb k.disk)

include h ht

/-- `ipo_fs_create` leaves the store alone and returns -1, or creates the object and returns its
inode number. -/
theorem ipoFsCreate_effect (path : CString) (type : UInt8) :
    ((ipoFsCreate (diskDev u) path type k).1 = none
      ∧ (ipoFsCreate (diskDev u) path type k).2.files u = k.files u)
    ∨ ∃ i s, (ipoFsCreate (diskDev u) path type k).1 = some i ∧ (k.files u).mounted = true
      ∧ PutNew (k.files u).store path i s type
      ∧ (ipoFsCreate (diskDev u) path type k).2.files u = { k.files u with store := s } := by
  have ht' : TreeOk k.sb (ipoFsCreate (diskDev u) path type k).2.disk := by
    have hall := exec_treeOk (c := .create path type) (u := u) h ht trivial rfl
    rwa [exec_sb (c := .create path type) (u := u) h rfl] at hall
  rw [ipoFsCreate_run] at ht' ⊢
  split at ht'
  · rename_i hm
    rw [if_pos hm]
    obtain ⟨hnode, hnew⟩ := createEntry_node (u := u) h path.chars type
    rcases createEntry_links (u := u) h ht path.chars type with
      ⟨hres, hkept⟩ | ⟨parent, name, i, hres, hok, hcreated⟩
    · exact Or.inl ⟨hres, Kernel.files_kept (view_congr ht ht' hkept.naming hnode)⟩
    · obtain ⟨init, hpath, hwalk⟩ := pathResolveParent_comps.mp hok.resolve
      have htok := pathComps_token path
      rw [hpath] at htok
      have hinit := fun t ht => htok t (List.mem_append_left [name] ht)
      have hway := (ht.walk_root hinit).mp hwalk
      obtain ⟨hfree, hview⟩ := hcreated.view (u := u) ht ht' hway htok hnode
      rw [hnew hres] at hview
      rw [← hpath] at hfree hview
      refine Or.inr ⟨i, _, hres, hm, ⟨⟨init, name, _, hpath, ht.view_of_way hinit hway,
        Disk.node_isDir.mpr hcreated.parentDir.2.2⟩, hfree, fun p w hw heq => ?_, rfl⟩,
        Kernel.files_of_view hview⟩
      obtain ⟨-, y, hy, rfl⟩ := ht.view_eq_some.mp hw
      rw [Disk.node_ino] at heq
      exact hcreated.fresh (heq ▸ ht.way_used hy)
  · rename_i hm
    rw [if_neg hm]
    exact Or.inl ⟨rfl, rfl⟩

/-- `ipo_fs_delete` leaves the store alone and returns false, or takes the path out and returns
true. -/
theorem ipoFsDelete_effect (path : CString) :
    ((ipoFsDelete (diskDev u) path k).1 = false
      ∧ (ipoFsDelete (diskDev u) path k).2.files u = k.files u)
    ∨ ∃ s, (ipoFsDelete (diskDev u) path k).1 = true ∧ (k.files u).mounted = true
      ∧ Pruned (k.files u).store path s
      ∧ (ipoFsDelete (diskDev u) path k).2.files u = { k.files u with store := s } := by
  have ht' : TreeOk k.sb (ipoFsDelete (diskDev u) path k).2.disk := by
    have hall := exec_treeOk (c := .delete path) (u := u) h ht trivial rfl
    rwa [exec_sb (c := .delete path) (u := u) h rfl] at hall
  rw [ipoFsDelete_run] at ht' ⊢
  split at ht'
  · rename_i hm
    rw [if_pos hm]
    rcases deleteEntry_links (u := u) h ht path.chars with
      hrun | ⟨parent, name, de, e, hres, hok, hdeleted⟩
    · rw [hrun]
      exact Or.inl ⟨rfl, rfl⟩
    · obtain ⟨init, hpath, hwalk⟩ := pathResolveParent_comps.mp hok.resolve
      have htok := pathComps_token path
      rw [hpath] at htok
      have hway := (ht.walk_root fun t ht => htok t (List.mem_append_left [name] ht)).mp hwalk
      have hview := hdeleted.view (u := u) ht ht' hway fun _ hv => deleteEntry_node h hok hv
      have hself := ht.view_of_way (u := u) htok (hway.append (.single hdeleted.entry))
      rw [← hpath] at hview hself
      refine Or.inr ⟨_, hres, hm, ⟨?_, ⟨_, hself, ?_⟩, rfl⟩, Kernel.files_of_view hview⟩
      · rw [hpath]
        exact List.append_ne_nil_of_right_ne_nil _ (List.cons_ne_nil _ _)
      · rw [Disk.node_mode]
        exact unprotected_mode hok.unprotected
  · rename_i hm
    rw [if_neg hm]
    exact Or.inl ⟨rfl, rfl⟩

omit h ht in
theorem renameEntry_same {sb : Superblock} {d : Disk} {fuel i : Nat} {oldpath newpath : Str}
    (hroot : oldpath ≠ [slash]) (hold : (pathResolve (arrayDev u) sb oldpath d).1 = some i)
    (hnew : (pathResolve (arrayDev u) sb newpath d).1 = some i) :
    renameEntry fuel oldpath newpath (arrayDev u) sb d = (some true, d) := by
  have hrun : pathResolve (arrayDev u) sb oldpath d = (some i, d) :=
    Prod.ext hold (readOnly_pathResolve u sb oldpath d)
  have hrun' : pathResolve (arrayDev u) sb newpath d = (some i, d) :=
    Prod.ext hnew (readOnly_pathResolve u sb newpath d)
  simp [renameEntry, hroot, hrun, hrun']

omit h ht in
theorem renameTarget_dir {sb : Superblock} {d : Disk} {fuel np i : Nat} {de : DirEntry}
    {oldname newpath nn : Str}
    (hr : (renameTarget (arrayDev u) sb fuel de oldname newpath d).1 = some (some (np, nn)))
    (hres : (pathResolve (arrayDev u) sb newpath d).1 = some i) (hv : sb.ValidIno i)
    (hdir : (d.inodeAt sb i).isDir = true) : np = i ∧ nn = oldname.take 63 := by
  have hrun : pathResolve (arrayDev u) sb newpath d = (some i, d) :=
    Prod.ext hres (readOnly_pathResolve u sb newpath d)
  unfold renameTarget at hr
  rw [Prog.run_bind, hrun] at hr
  dsimp only at hr
  rw [Prog.run_bind, readInode_array, if_pos hv] at hr
  dsimp only at hr
  rw [Prog.run_ite, if_pos hdir, Prog.run_ite] at hr
  split at hr
  · obtain ⟨b, hdesc⟩ : ∃ b, isDescendant (arrayDev u) sb fuel de.inode.toNat i d = (b, d) :=
      ⟨_, (readOnly_isDescendant u sb fuel de.inode.toNat i).run_eq d⟩
    rw [Prog.run_bind, hdesc] at hr
    rcases b with _ | _ | _
    · cases hr
    · obtain ⟨rfl, rfl⟩ := Prod.mk.inj (Option.some.inj (Option.some.inj hr))
      exact ⟨rfl, rfl⟩
    · cases Option.some.inj hr
  · obtain ⟨rfl, rfl⟩ := Prod.mk.inj (Option.some.inj (Option.some.inj hr))
    exact ⟨rfl, rfl⟩

omit h in
theorem renameTarget_comps {fuel op np : Nat} {oldpath newpath : CString} {on nn : Str}
    {de : DirEntry}
    (hold : (pathResolveParent (arrayDev u) k.sb oldpath.chars k.disk).1 = some (op, on))
    (hr : (renameTarget (arrayDev u) k.sb fuel de on newpath.chars k.disk).1
      = some (some (np, nn))) :
    ∃ pn, (k.disk.naming k.sb).Way 1 pn np ∧ (∀ t ∈ pn ++ [nn], PathToken t)
      ∧ RenameTo (k.disk.view u k.sb) oldpath newpath (pn ++ [nn])
      ∧ (pn ++ [nn] = pathComps newpath.chars
        ∨ pn = pathComps newpath.chars
            ∧ (pathResolve (arrayDev u) k.sb newpath.chars k.disk).1 = some np) := by
  obtain ⟨po, hcomps, -⟩ := pathResolveParent_comps.mp hold
  have htok := pathComps_token oldpath
  have htokn := pathComps_token newpath
  rw [hcomps] at htok
  have hlast := htok on (List.mem_append_right _ (List.mem_singleton.mpr rfl))
  have hshort := hlast.short
  have htake : on.take 63 = on := List.take_of_length_le (by omega)
  have hinto : (pathResolve (arrayDev u) k.sb newpath.chars k.disk).1 = some np → nn = on →
      (k.disk.inodeAt k.sb np).isDir = true →
      ∃ pn, (k.disk.naming k.sb).Way 1 pn np ∧ (∀ t ∈ pn ++ [nn], PathToken t)
        ∧ RenameTo (k.disk.view u k.sb) oldpath newpath (pn ++ [nn])
        ∧ (pn ++ [nn] = pathComps newpath.chars
          ∨ pn = pathComps newpath.chars
            ∧ (pathResolve (arrayDev u) k.sb newpath.chars k.disk).1 = some np) := by
    rintro hp rfl hdir
    have hres := hp
    rw [pathResolve_comps] at hp
    have hpn := (ht.walk_root htokn).mp hp
    refine ⟨_, hpn, fun t ht => ?_, Or.inr ⟨po, nn, _, hcomps, ht.view_of_way htokn hpn,
      Disk.node_isDir.mpr hdir, rfl⟩, Or.inr ⟨rfl, hres⟩⟩
    rcases List.mem_append.mp ht with ht | ht
    · exact htokn t ht
    · exact List.mem_singleton.mp ht ▸ hlast
  rcases renameTarget_some hr with hp | ⟨hp, hnn, -, hdir, -⟩
  · by_cases hd : ∃ v, k.disk.view u k.sb (pathComps newpath.chars) = some v ∧ v.IsDir
    · obtain ⟨v, hv, hisdir⟩ := hd
      obtain ⟨-, y, hy, rfl⟩ := ht.view_eq_some.mp hv
      have hres : (pathResolve (arrayDev u) k.sb newpath.chars k.disk).1 = some y := by
        rw [pathResolve_comps]
        exact (ht.walk_root htokn).mpr hy
      have hisdir := Disk.node_isDir.mp hisdir
      obtain ⟨rfl, hnn⟩ := renameTarget_dir hr hres (ht.way_used hy).1 hisdir
      exact hinto hres (hnn.trans htake) hisdir
    · obtain ⟨pn, hnew, hwalk⟩ := pathResolveParent_comps.mp hp
      have hto : RenameTo (k.disk.view u k.sb) oldpath newpath (pn ++ [nn]) :=
        Or.inl ⟨hnew.symm, fun v hv hisdir => hd ⟨v, hv, hisdir⟩⟩
      rw [hnew] at htokn
      exact ⟨pn, (ht.walk_root fun t ht => htokn t (List.mem_append_left [nn] ht)).mp hwalk, htokn,
        hto, Or.inl hnew.symm⟩
  · exact hinto hp (hnn.trans htake) hdir

omit h in
/-- A rename that stays out of what it moves goes to a place that is not below it. -/
theorem Moved.grafted {fuel : Nat} {oldpath newpath : CString} {op np e : Nat} {on nn : Str}
    {de : DirEntry} {d' : Disk}
    (hok : RenameOk u k.sb k.disk fuel oldpath.chars newpath.chars op on de np nn)
    (hmoved : Moved k.sb op on de np nn e k.disk d')
    (hrun : renameEntry fuel oldpath.chars newpath.chars (arrayDev u) k.sb k.disk = (some true, d'))
    (hout : ¬ (FsCall.rename fuel oldpath newpath).IntoItself) (ht' : TreeOk k.sb d')
    (hnode : ∀ v, d'.node k.sb v = k.disk.node k.sb v) :
    ∃ q, Grafted (k.disk.view u k.sb) oldpath newpath q (d'.view u k.sb) := by
  obtain ⟨po, hold, hwalk⟩ := pathResolveParent_comps.mp hok.resolve
  have htok := pathComps_token oldpath
  rw [hold] at htok
  have hpo := (ht.walk_root fun t ht => htok t (List.mem_append_left [on] ht)).mp hwalk
  have hself := hpo.append (.single hmoved.entry)
  obtain ⟨pn, hpn, htok', hto, hnew⟩ := renameTarget_comps ht hok.resolve hok.target
  have hinto : ¬ Relation.ReflTransGen (k.disk.naming k.sb).Child de.inode.toNat np := by
    intro hr
    -- what is below the object moved has its path in front
    obtain ⟨us, hus⟩ := Naming.Way.exists_of_reach hr
    have hbelow : po ++ [on] <+: pn := ⟨us, (ht.tree.way_unique hpn (hself.append hus)).symm⟩
    rcases hnew with hnew | ⟨rfl, hres⟩
    · refine hout ⟨?_, ?_⟩
      · rw [hold, ← hnew]
        exact hbelow.trans (List.prefix_append pn [nn])
      · rw [hold, ← hnew]
        intro heq
        have hlen := hbelow.length_le
        rw [heq, List.length_append, List.length_singleton] at hlen
        omega
    · refine hout ⟨by rw [hold]; exact hbelow, fun heq => ?_⟩
      -- both paths lead to one inode, and the call has done nothing
      have hres' : (pathResolve (arrayDev u) k.sb oldpath.chars k.disk).1 = some np := by
        rw [pathResolve_comps, heq, ← pathResolve_comps]
        exact hres
      rw [renameEntry_same hok.notRoot hres' hres] at hrun
      obtain ⟨-, rfl⟩ := Prod.mk.inj hrun
      have hentry := hmoved.entry
      rw [hmoved.naming] at hentry
      exact (Naming.unlink_entry.mp hentry).1 ⟨rfl, rfl⟩
  obtain ⟨hfree, hview⟩ := hmoved.view (u := u) ht ht' hpo hpn htok htok' hinto fun _ => hnode _
  have hseen := ht.view_of_way (u := u) htok hself
  have hparent := ht.view_of_way (u := u) (fun t ht => htok' t (List.mem_append_left [nn] ht)) hpn
  refine ⟨pn ++ [nn], ?_, ⟨_, by rw [hold]; exact hseen, ?_⟩, ⟨pn, nn, _, rfl, hparent,
    Disk.node_isDir.mpr hmoved.newDir.2.2⟩, hfree, fun hpre => ?_, hto, by rw [hold]; exact hview⟩
  · rw [hold]
    exact List.append_ne_nil_of_right_ne_nil _ (List.cons_ne_nil _ _)
  · rw [Disk.node_mode]
    exact unprotected_mode hok.unprotected
  · rw [hold] at hpre
    rcases List.prefix_concat_iff.mp hpre with heq | ⟨us, rfl⟩
    · -- the new place is free, and the old one is not
      rw [heq, hfree] at hseen
      cases hseen
    · obtain ⟨v, hv, hus⟩ := hpn.split
      rw [ht.tree.way_det hv hself] at hus
      exact hinto hus.reach

/-- `ipo_fs_rename` returns false and leaves the store alone, or returns true and moves what is
under the old path, or is asked to move it to where it is. -/
theorem ipoFsRename_effect (htag : Tagged k.sb k.disk) {fuel : Nat} {oldpath newpath : CString}
    {b : Bool} (hs : StoreSafe u k (.rename fuel oldpath newpath))
    (hrun : ipoFsRename (diskDev u) fuel oldpath newpath k = (some b, k')) :
    (k'.files u = k.files u ∧ (b = true → (k.files u).mounted = true
      ∧ ∃ v, (k.files u).store (pathComps oldpath.chars) = some v
      ∧ (pathComps newpath.chars = pathComps oldpath.chars
        ∨ RenameTo (k.files u).store oldpath newpath (pathComps oldpath.chars))))
    ∨ ∃ q s, b = true ∧ (k.files u).mounted = true ∧ Grafted (k.files u).store oldpath newpath q s
      ∧ k'.files u = { k.files u with store := s } := by
  have hc : FsCall.exec (diskDev u) (.rename fuel oldpath newpath) k = some k' := by
    have hexec := @exec_rename k u fuel oldpath newpath b (by rw [hrun])
    rwa [hrun] at hexec
  have ht' := exec_treeOk h ht hs.1 hc
  rw [exec_sb h hc] at ht'
  rw [ipoFsRename_run] at hrun
  split at hrun
  · rename_i hm
    obtain ⟨hb, rfl⟩ := Prod.mk.inj hrun
    have hnode := renameEntry_node (u := u) h ht htag fuel oldpath.chars newpath.chars
    rcases renameEntry_links h ht fuel oldpath.chars newpath.chars
        (fun hok => hs.1 hm _ _ _ _ _ hok) with
      ⟨hkept, hsame⟩ | ⟨op, on, de, np, nn, e, hres, hok, hmoved⟩
    · refine Or.inl ⟨Kernel.files_kept (view_congr ht ht' hkept.naming fun _ => hnode _),
        fun hbt => ?_⟩
      rw [hbt] at hb
      rcases hsame hb
        with ⟨i, hold, hnew⟩ | ⟨op, on, de, p, q, np, nn, tmp, p', q', hp, hf, hr, hf', heq⟩
      · rw [pathResolve_comps] at hold hnew
        have hway := (ht.walk_root (pathComps_token oldpath)).mp hold
        have hway' := (ht.walk_root (pathComps_token newpath)).mp hnew
        exact ⟨hm, _, ht.view_of_way (pathComps_token oldpath) hway,
          Or.inl (ht.tree.way_unique hway' hway)⟩
      · -- the entry there is the one to be moved
        obtain ⟨po, hold, hwalk⟩ := pathResolveParent_comps.mp hp
        have htok := pathComps_token oldpath
        rw [hold] at htok ⊢
        have hpo := (ht.walk_root fun t ht => htok t (List.mem_append_left [on] ht)).mp hwalk
        have hlast := htok on (List.mem_append_right _ (List.mem_singleton.mpr rfl))
        obtain ⟨-, e, hl⟩ := dirFindEntry_link ht.dirs (liveDir_of_find (ht.way_used hpo) hf)
          hlast.linkName hf
        obtain ⟨pn, hpn, htok', hto, -⟩ := renameTarget_comps ht hp hr
        have hlast' := htok' nn (List.mem_append_right _ (List.mem_singleton.mpr rfl))
        obtain ⟨-, e', hl'⟩ := dirFindEntry_link ht.dirs (liveDir_of_find (ht.way_used hpn) hf')
          hlast'.linkName hf'
        have hself := hpo.append (.single hl)
        have hself' := hpn.append (.single hl')
        have htarget : tmp.inode.toNat = de.inode.toNat := congrArg UInt32.toNat heq
        rw [htarget] at hself'
        have hplace := ht.tree.way_unique hself' hself
        exact ⟨hm, _, ht.view_of_way htok hself, Or.inr (by rw [← hplace]; exact hto)⟩
    · have hbt : b = true := Option.some.inj (hb.symm.trans hres)
      obtain ⟨q, hgrafted⟩ := Moved.grafted ht hok hmoved (Prod.ext hres rfl) hs.2 ht' hnode
      exact Or.inr ⟨q, _, hbt, hm, hgrafted, Kernel.files_of_view rfl⟩
  · obtain ⟨hb, rfl⟩ := Prod.mk.inj hrun
    refine Or.inl ⟨rfl, fun hbt => ?_⟩
    rw [hbt] at hb
    cases Option.some.inj hb

end

end IpoOs
