import IpoOs.EdContents
import IpoOs.EdFiles
import IpoOs.EdPaths
import IpoOs.FsObserve

/-!
# The kernel's files in the editor

The editor opens a volume that the kernel made and changed. As long as no
directory goes past its seventh slot, where the two lay out slots
differently, `path_resolve` of the editor leads to what the store of the
kernel has at the components of the path, `ls` lists what is below it, and
`cat` gives the bytes of a file without holes.

The two walks are compared component by component. The editor's path is a
string of characters and the kernel's one of bytes, and `encodeComps`
connects their components.
-/

namespace IpoOs

def edLs (path : PyStr) : Ed (List (PyStr × UInt8)) := do
  let ino ← edPathResolve path
  if ino < 0 then Ed.raise (.disk "path not found")
  else do
    let inode ← edReadInode ino
    if inode.isDir then do
      let es ← edDirEntries inode
      pure (es.map fun e => (e.name, e.type))
    else Ed.raise (.disk "not dir")

/-- No directory has an entry after its seventh slot. -/
def Disk.FewSlots (d : Disk) (sb : Superblock) : Prop :=
  ∀ i, d.LiveDir sb i → (d.inodeAt sb i).slots ≤ 7

/-- The image file has the volume of a kernel, all of it. -/
structure DiskImage.Carries (img : DiskImage) (k : Kernel Disk) : Prop where
  sb : img.sb = k.sb
  disk : img.disk = k.disk
  covered : img.startLba + k.sb.fsSizeBlocks.toNat ≤ img.count

/-- A list of components in the bytes that the kernel compares. -/
def encodeComps (comps : List PyStr) : List Str := comps.map encodeUtf8

/-! ## Names

A proper name is encoded to a name that the kernel accepts. -/

theorem encodeUtf8_eq_nil {s : PyStr} : encodeUtf8 s = [] ↔ s = [] :=
  ⟨fun hc => encodeUtf8_inj (t := []) hc, fun hc => by rw [hc]; rfl⟩

theorem encodeUtf8_eq_dot {s : PyStr} : encodeUtf8 s = dot ↔ s = ['.'] :=
  ⟨fun hc => encodeUtf8_inj (t := ['.']) hc, fun hc => by rw [hc]; rfl⟩

theorem encodeUtf8_eq_dotdot {s : PyStr} : encodeUtf8 s = dotdot ↔ s = ['.', '.'] :=
  ⟨fun hc => encodeUtf8_inj (t := ['.', '.']) hc, fun hc => by rw [hc]; rfl⟩

/-- A name that is none of the two dots. -/
def ProperName (name : PyStr) : Prop := name ≠ [] ∧ name ≠ ['.'] ∧ name ≠ ['.', '.']

theorem properName_encode {name : PyStr} : LinkName (encodeUtf8 name) ↔ ProperName name :=
  and_congr (not_congr encodeUtf8_eq_nil)
    (and_congr (not_congr encodeUtf8_eq_dot) (not_congr encodeUtf8_eq_dotdot))

theorem ProperComp.linkName {c : PyStr} (h : ProperComp c) : LinkName (encodeUtf8 c) :=
  properName_encode.mpr ⟨h.1, h.2.1, h.2.2.1⟩

/-- A name in a slot that is none of the two dots can be a component of a path. -/
theorem DirEntry.Named.token {s : DirEntry} (h : s.Named) (hname : LinkName s.nameBytes) :
    PathToken s.nameBytes := by
  rcases h with ⟨hlen, -⟩ | ⟨name, hstored, he⟩
  · exact absurd (nameBytes_eq_nil hlen) hname.1
  · have heq : s.nameBytes = name := by rw [he, nameBytes_makeEntry hstored.length_lt]
    rw [heq] at hname ⊢
    rcases hstored with hvalid | hdots
    · have hchars : ∀ c ∈ name, isNameChar c = true := by
        simp only [isValidFilename, Bool.and_eq_true, List.all_eq_true] at hvalid
        exact hvalid.1.1.2
      have hslash : isNameChar slash = false := by decide
      refine ⟨hname.1, hname.2.1, hname.2.2, fun hc => ?_, StoredName.length_lt (Or.inl hvalid)⟩
      rw [hchars _ hc] at hslash
      cases hslash
    · exact absurd hdots (not_or.mpr ⟨hname.2.1, hname.2.2⟩)

/-! ## Nodes

Every volume has block numbers that an `int` can hold. -/

section

variable {sb : Superblock} {d : Disk} {i y n : Nat} {m : UInt32} {bytes : Nat → Option UInt8}

theorem SoundLayout.intBound_pos (h : SoundLayout sb) : 0 < intBound sb := by
  have h1 := h.first
  have h2 := h.inodeBitmap
  have h3 := h.blockBitmap
  have h4 := h.inodeTable
  have h5 := h.data
  unfold intBound
  omega

end

/-! ## Listings

The live entries of a directory are what the store has below it. -/

section

variable {u : Block} {sb : Superblock} {d : Disk} (T : TreeOk sb d) {i : Nat}

include T

/-- The names in the slots of a directory are the components that lead on from it. -/
theorem mem_liveEntries_view {ts : List Str} (hts : ∀ t ∈ ts, PathToken t)
    (hway : (d.naming sb).Way 1 ts i) (hlive : d.LiveDir sb i) {name : Str}
    (hname : LinkName name) :
    (∃ s ∈ d.liveEntries (d.inodeAt sb i), s.nameBytes = name)
        ↔ d.view u sb (ts ++ [name]) ≠ none := by
  rw [Option.ne_none_iff_exists']
  constructor
  · rintro ⟨s, hs, rfl⟩
    obtain ⟨e, he, hslot, h0⟩ := mem_liveEntries.mp hs
    have hentry : (d.naming sb).entry i e = some ⟨s.nameBytes, s.type, s.inode.toNat⟩ :=
      Disk.naming_entry.mpr ⟨hlive, he, s, hslot, DirEntry.link_eq_some.mpr ⟨h0, hname, rfl⟩⟩
    refine ⟨_, T.view_of_way (fun t ht => ?_) (hway.append (.single hentry))⟩
    rcases List.mem_append.mp ht with ht | ht
    · exact hts t ht
    · rw [List.mem_singleton.mp ht]
      exact (named_of_live (T.dirs i hlive) hs).token hname
  · rintro ⟨v, hv⟩
    obtain ⟨-, y, hw, -⟩ := T.view_eq_some.mp hv
    obtain ⟨x, e, l, hw', he, hln, -⟩ := hw.last
    obtain rfl := T.tree.way_det hw' hway
    obtain ⟨-, hslots, s, hs, hlink⟩ := Disk.naming_entry.mp he
    obtain ⟨h0, -, rfl⟩ := DirEntry.link_eq_some.mp hlink
    exact ⟨s, mem_liveEntries.mpr ⟨e, hslots, hs, h0⟩, hln⟩

/-- No two slots of a directory have the same name, the two dots apart. -/
theorem liveEntries_names (hlive : d.LiveDir sb i) :
    (d.liveEntries (d.inodeAt sb i)).Pairwise fun s s' =>
      LinkName s.nameBytes → s.nameBytes ≠ s'.nameBytes := by
  unfold Disk.liveEntries
  rw [List.pairwise_filterMap]
  refine List.pairwise_lt_range.imp_of_mem fun {e e'} he he' hlt s hs s' hs' hname heq => ?_
  obtain ⟨hslot, h0⟩ := Option.filter_eq_some_iff.mp hs
  obtain ⟨hslot', h0'⟩ := Option.filter_eq_some_iff.mp hs'
  have hentry : (d.naming sb).entry i e = some ⟨s.nameBytes, s.type, s.inode.toNat⟩ :=
    Disk.naming_entry.mpr ⟨hlive, List.mem_range.mp he, s, hslot,
      DirEntry.link_eq_some.mpr ⟨of_decide_eq_true h0, hname, rfl⟩⟩
  have hentry' : (d.naming sb).entry i e' = some ⟨s'.nameBytes, s'.type, s'.inode.toNat⟩ :=
    Disk.naming_entry.mpr ⟨hlive, List.mem_range.mp he', s', hslot',
      DirEntry.link_eq_some.mpr ⟨of_decide_eq_true h0', heq ▸ hname, rfl⟩⟩
  have hsame := T.tree.name hentry hentry' heq
  omega

end

/-! ## Walks

The editor's resolution, `ls` and `cat` in terms of the store. -/

theorem token_of_walk {u : Block} {sb : Superblock} {d : Disk} (h : TreeOk sb d) {ts : List Str}
    (hts : ∀ t ∈ ts, LinkName t) {cur y : Nat} (hcur : (d.naming sb).used cur)
    (hw : d.walk u sb ts cur = some y) : ∀ t ∈ ts, PathToken t := by
  induction ts generalizing cur with
  | nil => exact fun t ht => absurd ht List.not_mem_nil
  | cons t ts ih =>
      have hrest : ∀ s ∈ ts, LinkName s := fun s hs => hts s (List.mem_cons_of_mem t hs)
      rw [Disk.walk] at hw
      cases hf : (dirFindEntry (arrayDev u) sb cur t d).1 with
      | none =>
          rw [hf] at hw
          cases hw
      | some f =>
          rw [hf] at hw
          have hlive := liveDir_of_find hcur hf
          obtain ⟨-, e, hl⟩ := dirFindEntry_link h.dirs hlive (hts t List.mem_cons_self) hf
          obtain ⟨-, he, s, hs, hlink⟩ := Disk.naming_entry.mp hl
          obtain ⟨-, hname, heq⟩ := DirEntry.link_eq_some.mp hlink
          obtain ⟨s', hs', hnamed⟩ := h.dirs cur hlive e he
          obtain rfl := Option.some.inj (hs.symm.trans hs')
          have htoken := hnamed.token hname
          have ht : t = s.nameBytes := congrArg Link.name heq
          rw [← ht] at htoken
          intro r hr
          rcases List.mem_cons.mp hr with rfl | hr
          · exact htoken
          · exact ih hrest (h.tree.target hl).1 hw r hr

section

variable {u : Block} {img : DiskImage} (W : img.Whole)
    (O : OwnedVol img.sb (intBound img.sb) img.disk)
  (T : TreeOk img.sb img.disk) (F : img.disk.FewSlots img.sb)

include W O T F

theorem edFindEntry_kernel {i : Nat} (hi : img.disk.LiveDir img.sb i) {name : PyStr}
    (hname : name ≠ []) :
    edFindEntry i name img
      = (.ok ((dirFindEntry (arrayDev u) img.sb i (encodeUtf8 name) img.disk).1.map fun f =>
          PyEntry.ofEntry f.1), img) := by
  have hok := T.dirs i hi
  have hne : encodeUtf8 name ≠ [] := fun hc => hname (encodeUtf8_inj (t := []) hc)
  have hkernel := dirFindEntry_find u hok hi.1 hi.2.2 hne
  rw [edFindEntry_live W O hi.1 hok (F i hi)]
  refine Prod.ext (congrArg Except.ok ?_) rfl
  have hcomp : (dirFindEntry (arrayDev u) img.sb i (encodeUtf8 name) img.disk).1.map
      (fun f => PyEntry.ofEntry f.1)
      = ((dirFindEntry (arrayDev u) img.sb i (encodeUtf8 name) img.disk).1.map (·.1)).map
          PyEntry.ofEntry := by
    rw [Option.map_map]
    rfl
  rw [hcomp, hkernel, List.find?_map]
  congr 1
  exact find?_congr fun s hs => decide_eq_decide.mpr ((named_of_live hok hs).name_eq name)

theorem edResolveFrom_walk {comps : List PyStr} (hcomps : ∀ c ∈ comps, ProperComp c) {cur : Nat}
    (hcur : (img.disk.naming img.sb).used cur) :
    edResolveFrom comps cur img
      = (.ok (asPy (img.disk.walk u img.sb (encodeComps comps) cur)), img) := by
  induction comps generalizing cur with
  | nil => rfl
  | cons c comps ih =>
      have hc := hcomps c List.mem_cons_self
      have hrest := fun b hb => hcomps b (List.mem_cons_of_mem c hb)
      rw [edResolveFrom, Ed.run_bind_ok (edReadInode_whole W hcur.1), isDir_ofInode, encodeComps,
        List.map_cons, Disk.walk]
      cases hdir : (img.disk.inodeAt img.sb cur).isDir with
      | false =>
          have hnone : (dirFindEntry (arrayDev u) img.sb cur (encodeUtf8 c) img.disk).1 = none := by
            refine Option.eq_none_iff_forall_ne_some.mpr fun f hf => ?_
            have hisDir := (dirFindEntry_isDir hf).2
            rw [hdir] at hisDir
            cases hisDir
          rw [hnone]
          rfl
      | true =>
          have hlive : img.disk.LiveDir img.sb cur := ⟨hcur.1, hcur.2, hdir⟩
          rw [if_pos rfl, Ed.run_bind_ok (edFindEntry_kernel (u := u) W O T F hlive hc.1)]
          cases hf : (dirFindEntry (arrayDev u) img.sb cur (encodeUtf8 c) img.disk).1 with
          | none => rfl
          | some f =>
              obtain ⟨de, p, k⟩ := f
              obtain ⟨-, e, hl⟩ := dirFindEntry_link T.dirs hlive hc.linkName hf
              exact ih hrest (T.tree.target hl).1

/-- `path_resolve` leads to what the store has at the components. -/
theorem edPathResolve_view {path : PyStr} (habs : path.take 1 = ['/']) :
    edPathResolve path img = (.ok (asPy ((img.disk.view u img.sb (encodeComps (normComps path))).map
      Node.ino)), img) := by
  have hproper := normComps_proper habs
  have hname : ∀ t ∈ encodeComps (normComps path), LinkName t := by
    intro t ht
    obtain ⟨c, hc, rfl⟩ := List.mem_map.mp ht
    exact (hproper c hc).linkName
  have hwalk : edResolveFrom (normComps path) 1 img
      = (.ok (asPy (img.disk.walk u img.sb (encodeComps (normComps path)) 1)), img) :=
    edResolveFrom_walk W O T F hproper T.root_used
  rw [edPathResolve_absolute habs, hwalk]
  refine Prod.ext (congrArg (fun o => Except.ok (asPy o)) ?_) rfl
  unfold Disk.view
  split
  · rw [Option.map_map]
    cases img.disk.walk u img.sb (encodeComps (normComps path)) 1 with
    | none => rfl
    | some y => exact congrArg some (Disk.node_ino _ _ y).symm
  · rename_i hno
    refine Option.eq_none_iff_forall_ne_some.mpr fun y hy => hno ?_
    exact token_of_walk T hname T.root_used hy

theorem edPathResolve_some {path : PyStr} (habs : path.take 1 = ['/']) {v : Node}
    (hview : img.disk.view u img.sb (encodeComps (normComps path)) = some v) :
    edPathResolve path img = (.ok (v.ino : Int), img) := by
  rw [edPathResolve_view (u := u) W O T F habs, hview]
  rfl

omit T F in
theorem readable_of_bytes {i : Nat}
    (hbytes : ∀ x < (img.disk.inodeAt img.sb i).size.toNat,
      img.disk.fileByte (img.disk.inodeAt img.sb i) x ≠ none) {b : Nat}
    (hb : b < blocksFor (img.disk.inodeAt img.sb i).size.toNat) :
    img.Readable (img.disk.inodeAt img.sb i) b := by
  have hbelow : ∀ pos, img.Holds (img.disk.ptr (img.disk.inodeAt img.sb i) pos) := fun pos =>
    W.holds (Nat.lt_of_lt_of_le (O.below W.sound.intBound_pos i pos) (Nat.min_le_left _ _))
  obtain ⟨v, hv⟩ :=
    Option.ne_none_iff_exists'.mp (hbytes (512 * b) (by unfold blocksFor at hb; omega))
  obtain ⟨pos, hpos, h0, -⟩ := Disk.fileByte_eq_some.mp hv
  rw [Nat.mul_div_cancel_left b (by decide : 0 < 512)] at hpos
  exact ⟨pos, _, hpos, Disk.lookup_eq_some.mpr ⟨pos, hpos, rfl, h0, O.intPtrs i pos⟩,
    fun t _ => hbelow t, hbelow pos⟩

theorem edCat_view {path : PyStr} (habs : path.take 1 = ['/']) {i n : Nat} {m : UInt32}
    {bytes : Nat → Option UInt8}
    (hview : img.disk.view u img.sb (encodeComps (normComps path)) = some (.file i m n bytes))
    (hbytes : ∀ x < n, bytes x ≠ none) :
    ∃ data, edCat path img = (.ok data, img) ∧ data.length = n ∧ ∀ x < n, data[x]? = bytes x := by
  obtain ⟨-, y, hway, hnode⟩ := T.view_eq_some.mp hview
  obtain ⟨rfl, hfile, -, rfl, rfl⟩ := Disk.node_eq_file hnode.symm
  have hres : edPathResolve path img = (.ok (y : Int), img) := edPathResolve_some W O T F habs hview
  have hv := (T.way_used hway).1
  obtain ⟨data, hrun, hdata⟩ := @edCatBlocks_run img (img.disk.inodeAt img.sb y)
    (blocksFor (img.disk.inodeAt img.sb y).size.toNat) 0
    fun c _ hc => readable_of_bytes W O hbytes (by omega)
  have hlen := edCatBlocks_length hrun
  refine ⟨data.take (img.disk.inodeAt img.sb y).size.toNat, ?_, ?_, fun x hx => ?_⟩
  · unfold edCat
    rw [Ed.run_bind_ok hres, if_neg (Int.not_lt.mpr (Int.natCast_nonneg y)),
      Ed.run_bind_ok (edReadInode_whole W hv), isDir_ofInode, hfile]
    exact Ed.run_bind_ok hrun
  · rw [List.length_take, hlen]
    unfold blocksFor
    omega
  · rw [List.getElem?_take_of_lt hx, hdata x (by unfold blocksFor; omega)]
    rw [Nat.mul_zero, Nat.zero_add]

theorem edLs_view {path : PyStr} (habs : path.take 1 = ['/']) {i : Nat} {m : UInt32}
    (hview : img.disk.view u img.sb (encodeComps (normComps path)) = some (.dir i m)) :
    edLs path img = (.ok ((img.disk.liveEntries (img.disk.inodeAt img.sb i)).map fun s =>
      (asciiStr s.nameBytes, s.type)), img) := by
  obtain ⟨-, y, hway, hnode⟩ := T.view_eq_some.mp hview
  obtain ⟨rfl, hdir⟩ := Disk.node_eq_dir hnode.symm
  have hres : edPathResolve path img = (.ok (y : Int), img) := edPathResolve_some W O T F habs hview
  have hused := T.way_used hway
  have hlive : img.disk.LiveDir img.sb y := ⟨hused.1, hused.2, hdir⟩
  unfold edLs
  rw [Ed.run_bind_ok hres, if_neg (Int.not_lt.mpr (Int.natCast_nonneg y)),
    Ed.run_bind_ok (edReadInode_whole W hused.1), isDir_ofInode, hdir, if_pos rfl,
    Ed.run_bind_ok (edDirEntries_live W O (T.dirs y hlive) (F y hlive))]
  refine Prod.ext (congrArg Except.ok ?_) rfl
  rw [List.map_map]
  rfl

theorem edLs_names {path : PyStr} (habs : path.take 1 = ['/']) {i : Nat} {m : UInt32}
    (hview : img.disk.view u img.sb (encodeComps (normComps path)) = some (.dir i m)) :
    ∃ l, edLs path img = (.ok l, img)
      ∧ (∀ name, ProperName name → (name ∈ l.map Prod.fst
        ↔ img.disk.view u img.sb (encodeComps (normComps path) ++ [encodeUtf8 name]) ≠ none))
      ∧ l.Pairwise fun a b => ProperName a.1 → a.1 ≠ b.1 := by
  refine ⟨_, edLs_view W O T F habs hview, fun name hname => ?_, ?_⟩
  · obtain ⟨htoken, y, hway, hnode⟩ := T.view_eq_some.mp hview
    obtain ⟨rfl, hdir⟩ := Disk.node_eq_dir hnode.symm
    have hused := T.way_used hway
    have hlive : img.disk.LiveDir img.sb y := ⟨hused.1, hused.2, hdir⟩
    rw [← mem_liveEntries_view T htoken hway hlive (properName_encode.mpr hname), List.map_map,
      List.mem_map]
    refine exists_congr fun s => and_congr_right fun hs => ?_
    exact (named_of_live (T.dirs y hlive) hs).name_eq name
  · obtain ⟨-, y, hway, hnode⟩ := T.view_eq_some.mp hview
    obtain ⟨rfl, hdir⟩ := Disk.node_eq_dir hnode.symm
    have hused := T.way_used hway
    have hlive : img.disk.LiveDir img.sb y := ⟨hused.1, hused.2, hdir⟩
    refine List.pairwise_map.mpr
      ((liveEntries_names T hlive).imp_of_mem fun {s s'} hs hs' hne hname heq => ?_)
    have hs₀ := (named_of_live (T.dirs y hlive) hs).encode_name
    have hs₁ := (named_of_live (T.dirs y hlive) hs').encode_name
    have hbytes : s.nameBytes = s'.nameBytes := hs₀.symm.trans ((congrArg encodeUtf8 heq).trans hs₁)
    refine hne ?_ hbytes
    rw [← hs₀]
    exact properName_encode.mpr hname

theorem edCat_dir {path : PyStr} (habs : path.take 1 = ['/']) {i : Nat} {m : UInt32}
    (hview : img.disk.view u img.sb (encodeComps (normComps path)) = some (.dir i m)) :
    edCat path img = (.error (.disk "is dir"), img) := by
  obtain ⟨-, y, hway, hnode⟩ := T.view_eq_some.mp hview
  obtain ⟨rfl, hdir⟩ := Disk.node_eq_dir hnode.symm
  have hres : edPathResolve path img = (.ok (y : Int), img) := edPathResolve_some W O T F habs hview
  unfold edCat
  rw [Ed.run_bind_ok hres, if_neg (Int.not_lt.mpr (Int.natCast_nonneg y)),
    Ed.run_bind_ok (edReadInode_whole W (T.way_used hway).1), isDir_ofInode, hdir]
  rfl

theorem edLs_file {path : PyStr} (habs : path.take 1 = ['/']) {i n : Nat} {m : UInt32}
    {bytes : Nat → Option UInt8}
    (hview : img.disk.view u img.sb (encodeComps (normComps path)) = some (.file i m n bytes)) :
    edLs path img = (.error (.disk "not dir"), img) := by
  obtain ⟨-, y, hway, hnode⟩ := T.view_eq_some.mp hview
  obtain ⟨rfl, hfile, -⟩ := Disk.node_eq_file hnode.symm
  have hres : edPathResolve path img = (.ok (y : Int), img) := edPathResolve_some W O T F habs hview
  unfold edLs
  rw [Ed.run_bind_ok hres, if_neg (Int.not_lt.mpr (Int.natCast_nonneg y)),
    Ed.run_bind_ok (edReadInode_whole W (T.way_used hway).1), isDir_ofInode, hfile]
  rfl

theorem edAbsent {path : PyStr} (habs : path.take 1 = ['/'])
    (hview : img.disk.view u img.sb (encodeComps (normComps path)) = none) :
    edCat path img = (.error (.disk "file not found"), img)
      ∧ edLs path img = (.error (.disk "path not found"), img) := by
  have hres : edPathResolve path img = (.ok (-1), img) := by
    rw [edPathResolve_view (u := u) W O T F habs, hview]
    rfl
  unfold edCat edLs
  rw [Ed.run_bind_ok hres, Ed.run_bind_ok hres]
  exact ⟨rfl, rfl⟩

end

/-! ## One path for both

The components of a path of characters, encoded, are those of the encoded
path. -/

theorem slash_of_encodeChar {c : Char} (h : slash ∈ String.utf8EncodeChar c) : c = '/' := by
  have hbyte : ∀ n, slash = UInt8.ofNat n → n < 256 → n = 47 := by
    intro n hn hlt
    have heq := congrArg UInt8.toNat hn
    rw [UInt8.toNat_ofNat', Nat.mod_eq_of_lt hlt] at heq
    exact heq.symm
  have hc : c.val.toNat = 47 := by
    unfold String.utf8EncodeChar at h
    dsimp only at h
    split at h
    · exact hbyte _ (List.mem_singleton.mp h) (by omega)
    · -- the bytes of a longer encoding are 128 at least
      have hhigh : ∀ {n}, slash = UInt8.ofNat n → n < 256 → 128 ≤ n → False := by
        intro n hn hlt hge
        have := hbyte n hn hlt
        omega
      split at h
      · simp only [List.mem_cons, List.not_mem_nil, or_false] at h
        rcases h with h | h
        · exact (hhigh h (by omega) (by omega)).elim
        · exact (hhigh h (by omega) (by omega)).elim
      · split at h
        · simp only [List.mem_cons, List.not_mem_nil, or_false] at h
          rcases h with h | h | h
          · exact (hhigh h (by omega) (by omega)).elim
          · exact (hhigh h (by omega) (by omega)).elim
          · exact (hhigh h (by omega) (by omega)).elim
        · simp only [List.mem_cons, List.not_mem_nil, or_false] at h
          rcases h with h | h | h | h
          · exact (hhigh h (by omega) (by omega)).elim
          · exact (hhigh h (by omega) (by omega)).elim
          · exact (hhigh h (by omega) (by omega)).elim
          · exact (hhigh h (by omega) (by omega)).elim
  exact Char.ext (UInt32.toNat.inj hc)

theorem slash_encodeUtf8 {s : PyStr} (h : '/' ∉ s) : slash ∉ encodeUtf8 s := by
  intro hc
  obtain ⟨c, hmem, hc⟩ := List.mem_flatMap.mp hc
  rw [slash_of_encodeChar hc] at hmem
  exact h hmem

theorem encodeUtf8_append (s t : PyStr) : encodeUtf8 (s ++ t) = encodeUtf8 s ++ encodeUtf8 t :=
  List.flatMap_append

theorem encodeUtf8_intercalate (l : List PyStr) :
    encodeUtf8 (['/'].intercalate l) = [slash].intercalate (encodeComps l) := by
  unfold encodeComps
  induction l with
  | nil => rfl
  | cons a l ih =>
      cases l with
      | nil => rw [List.map_singleton, List.intercalate_singleton, List.intercalate_singleton]
      | cons b l =>
          rw [List.intercalate_cons_cons, encodeUtf8_append, encodeUtf8_append, ih]
          simp only [List.map_cons, List.intercalate_cons_cons]
          rfl

/-- A path falls into the same pieces before and after encoding. -/
theorem splitOn_encodeUtf8 (path : PyStr) :
    (encodeUtf8 path).splitOn slash = encodeComps (path.splitOn '/') := by
  have hne : encodeComps (path.splitOn '/') ≠ [] := fun hc =>
    List.splitOn_ne_nil '/' path (List.map_eq_nil_iff.mp hc)
  have hpieces : ∀ t ∈ encodeComps (path.splitOn '/'), slash ∉ t := by
    intro t ht
    obtain ⟨c, hc, rfl⟩ := List.mem_map.mp ht
    exact slash_encodeUtf8 (not_mem_splitOn hc)
  calc (encodeUtf8 path).splitOn slash
      = (encodeUtf8 (['/'].intercalate (path.splitOn '/'))).splitOn slash := by
        rw [List.intercalate_splitOn]
    _ = ([slash].intercalate (encodeComps (path.splitOn '/'))).splitOn slash := by
        rw [encodeUtf8_intercalate]
    _ = encodeComps (path.splitOn '/') := List.splitOn_intercalate slash hpieces hne

/-- One component in both loops: on an absolute path `normpath` never keeps `..`. -/
theorem normStep_encode {comps : List PyStr} (h : ∀ c ∈ comps, ProperComp c) (comp : PyStr) :
    encodeComps (normStep true comps comp) = normalStep (encodeComps comps) (encodeUtf8 comp) := by
  have hlast : comps.getLast? ≠ some ['.', '.'] := fun hc =>
    (h _ (List.mem_of_getLast? hc)).2.2.1 rfl
  unfold normStep normalStep
  rcases em (comp = [] ∨ comp = ['.']) with hskip | hkeep
  · rw [if_pos hskip, if_pos (hskip.imp encodeUtf8_eq_nil.mpr encodeUtf8_eq_dot.mpr)]
  · have hkeep' : ¬ (encodeUtf8 comp = [] ∨ encodeUtf8 comp = dot) := fun hc =>
      hkeep (hc.imp encodeUtf8_eq_nil.mp encodeUtf8_eq_dot.mp)
    rw [if_neg hkeep, if_neg hkeep']
    rcases em (comp = ['.', '.']) with hup | hname
    · have hpop : ¬ (comp ≠ ['.', '.'] ∨ (¬ true = true ∧ comps = [])
          ∨ comps.getLast? = some ['.', '.']) := by
        rintro (hne | ⟨hno, -⟩ | hdots)
        · exact hne hup
        · exact hno rfl
        · exact hlast hdots
      rw [if_neg hpop, if_pos (encodeUtf8_eq_dotdot.mpr hup)]
      exact List.map_dropLast
    · have hname' : ¬ encodeUtf8 comp = dotdot := fun hc => hname (encodeUtf8_eq_dotdot.mp hc)
      rw [if_pos (Or.inl hname), if_neg hname']
      exact List.map_append

/-- The live components of an absolute path are those that `normpath` leaves. -/
theorem normalComponents_encode {path : PyStr} (habs : path.take 1 = ['/']) :
    normalComponents (encodeUtf8 path) = encodeComps (normComps path) := by
  have hfold : ∀ (l : List PyStr), (∀ c ∈ l, '/' ∉ c) →
    ∀ comps : List PyStr, (∀ c ∈ comps, ProperComp c) →
      (encodeComps l).foldl normalStep (encodeComps comps)
          = encodeComps (l.foldl (normStep true) comps) := by
    intro l
    induction l with
    | nil => exact fun _ _ _ => rfl
    | cons c l ih =>
        intro hl comps hcomps
        have hrest := ih (fun x hx => hl x (List.mem_cons_of_mem c hx)) _
          (normStep_proper hcomps (hl c List.mem_cons_self))
        rw [normStep_encode hcomps] at hrest
        exact hrest
  unfold normalComponents normalFrom normComps
  rw [splitOn_encodeUtf8, decide_eq_true habs]
  exact hfold _ (fun c hc => not_mem_splitOn hc) [] fun c hc => absurd hc List.not_mem_nil

/-- A path that the kernel keeps whole has the same components for both. -/
theorem pathComps_encode {path : CString} {p : PyStr} (hp : path.chars = encodeUtf8 p)
    (habs : p.take 1 = ['/']) (hkept : KeptWhole path.chars) :
    pathComps path.chars = encodeComps (normComps p) := by
  rw [(pathComps_canonical path).keptWhole.mp hkept, hp, normalComponents_encode habs]

/-! ## A volume from the kernel

An image that carries a volume which the kernel made and changed. -/

section

variable {u : Block} {k : Kernel Disk} {img : DiskImage}

theorem DiskImage.Carries.volume (hc : img.Carries k) (hok : KernelOk k) :
    img.Whole ∧ OwnedVol img.sb (intBound img.sb) img.disk ∧ TreeOk img.sb img.disk := by
  have hsb := hc.sb
  have hdisk := hc.disk
  refine ⟨⟨hsb ▸ hok.vol.layout, hsb ▸ hc.covered⟩, ?_, ?_⟩
  · rw [hsb, hdisk]
    exact hok.vol.owned
  · rw [hsb, hdisk]
    exact hok.tree

theorem DiskImage.Carries.fewSlots (hc : img.Carries k) (hfew : k.disk.FewSlots k.sb) :
    img.disk.FewSlots img.sb := by
  rw [hc.sb, hc.disk]
  exact hfew

theorem DiskImage.Carries.store (hc : img.Carries k) :
    (k.files u).store = img.disk.view u img.sb := by
  rw [hc.sb, hc.disk]
  rfl

end

theorem fewSlots_of_check {d : Disk} {sb : Superblock}
    (h : ∀ i ∈ List.range (sb.inodeCount.toNat + 1), (d.inodeAt sb i).slots ≤ 7) : d.FewSlots sb :=
  fun i hi => h i (List.mem_range.mpr (Nat.lt_succ_of_le hi.1.2))

theorem abKernel_fewSlots : abKernel.disk.FewSlots abKernel.sb := by
  have hfew : ∀ i ∈ List.range (abKernel.sb.inodeCount.toNat + 1),
      (abKernel.disk.inodeAt abKernel.sb i).slots ≤ 7 := by decide +kernel
  exact fewSlots_of_check hfew

theorem abKernel_carried : (imageOf abKernel).Carries abKernel := by
  have hcovered : (imageOf abKernel).startLba + abKernel.sb.fsSizeBlocks.toNat
      ≤ (imageOf abKernel).count := by decide +kernel
  exact ⟨imageOf_sb abKernel, imageOf_disk abKernel, hcovered⟩

def dfPyPath : PyStr := ['/', 'd', '/', '.', '/', '/', 'f']

/-- The kernel and the editor resolve the same path to the same inode, an absolute one of which
`fs_canonicalize` loses no component. -/
theorem pathResolve_agree {u : Block} {k : Kernel Disk} (hr : Reached u k) {img : DiskImage}
    (hc : img.Carries k) (hfew : k.disk.FewSlots k.sb) {path : CString} {p : PyStr}
    (hp : path.chars = encodeUtf8 p) (habs : p.take 1 = ['/']) (hkept : KeptWhole path.chars) :
    edPathResolve p img
      = (.ok (asPy (pathResolve (arrayDev u) k.sb path.chars k.disk).1), img) := by
  obtain ⟨W, O, T⟩ := hc.volume hr.ok.1
  have hstore := @Kernel.store_resolve u k path
  rw [pathComps_encode hp habs hkept, hc.store] at hstore
  rw [edPathResolve_view (u := u) W O T (hc.fewSlots hfew) habs, hstore, Option.map_map]
  refine Prod.ext (congrArg (fun o => Except.ok (asPy o)) ?_) rfl
  cases (pathResolve (arrayDev u) k.sb path.chars k.disk).1 with
  | none => rfl
  | some y => exact congrArg some (Disk.node_ino _ _ y)

theorem pathResolve_agree_text : edPathResolve dfPyPath (imageOf abKernel)
    = (.ok (asPy
      (pathResolve (arrayDev Buf.zero) abKernel.sb (encodeUtf8 dfPyPath) abKernel.disk).1),
      imageOf abKernel) := by
  have hnul : (0 : UInt8) ∉ encodeUtf8 dfPyPath := by decide +kernel
  have hkept : fsCanonicalize (encodeUtf8 dfPyPath) 512
      = normalPath (normalComponents (encodeUtf8 dfPyPath)) := by decide +kernel
  have habs : dfPyPath.take 1 = ['/'] := rfl
  exact @pathResolve_agree Buf.zero abKernel abKernel_reached (imageOf abKernel) abKernel_carried
    abKernel_fewSlots ⟨encodeUtf8 dfPyPath, hnul⟩ dfPyPath rfl habs hkept

end IpoOs
