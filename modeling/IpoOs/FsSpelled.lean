import IpoOs.FsCanonical
import IpoOs.FsImage

/-!
# What a path means

A path is looked up as it is spelled when every lookup that succeeds is the
walk through its live components. `fs_canonicalize` cuts components at 63
characters, stops at 128 of them and drops what does not fit its output, all
without an error. On every mounted volume a path is looked up as it is spelled
exactly when nothing of it gets lost there: for a path that lost something a
volume of directories one below the other holds the object of another name.

One direction is about all volumes: a path of which nothing is lost is
looked up as the list of its components, whatever the directories hold. For
the other one a volume has to be built for each path that loses something,
and `chainDisk` is that volume.
-/

namespace IpoOs

/-- A path is looked up on a volume as it is spelled. -/
structure Disk.Spelled (d : Disk) (u : Block) (sb : Superblock) (path : Str) : Prop where
  resolve : ∀ ino, (pathResolve (arrayDev u) sb path d).1 = some ino →
    d.walk u sb (normalComponents path) 1 = some ino
  parent : ∀ ino name, (pathResolveParent (arrayDev u) sb path d).1 = some (ino, name) →
    ∃ init, normalComponents path = init ++ [name] ∧ d.walk u sb init 1 = some ino

/-- `fs_canonicalize` puts out all live components of the path, each in full. -/
def KeptWhole (path : Str) : Prop := fsCanonicalize path 512 = normalPath (normalComponents path)

/-! ## Components

The components that `fs_canonicalize` keeps, and when these are all that
there are. -/

theorem normalComponents_pieces (s : Str) : ∀ t ∈ normalComponents s, t ≠ [] ∧ slash ∉ t := by
  have hstep : ∀ (l : List Str), (∀ t ∈ l, slash ∉ t) → ∀ stack : List Str,
      (∀ t ∈ stack, t ≠ [] ∧ slash ∉ t) → ∀ t ∈ l.foldl normalStep stack, t ≠ [] ∧ slash ∉ t := by
    intro l
    induction l with
    | nil => exact fun _ _ h => h
    | cons x l ih =>
        intro hl stack hstack
        refine ih (fun t ht => hl t (List.mem_cons_of_mem x ht)) _ ?_
        unfold normalStep
        split
        · exact hstack
        rename_i hskip
        split
        · exact fun t ht => hstack t (List.mem_of_mem_dropLast ht)
        · intro t ht
          rcases List.mem_append.mp ht with ht | ht
          · exact hstack t ht
          · rw [List.mem_singleton.mp ht]
            exact ⟨fun hc => hskip (Or.inl hc), hl x List.mem_cons_self⟩
  exact hstep _ (fun t ht => not_mem_splitOn ht) [] fun t ht => absurd ht List.not_mem_nil

/-- Components without slashes can be read back from their path. -/
theorem joinPath_inj {ts ts' : List Str} (h : ∀ t ∈ ts, slash ∉ t) (h' : ∀ t ∈ ts', slash ∉ t)
    (heq : joinPath ts = joinPath ts') : ts = ts' := by
  induction ts generalizing ts' with
  | nil =>
      cases ts' with
      | nil => rfl
      | cons t' ts' => cases heq
  | cons t ts ih =>
      cases ts' with
      | nil => cases heq
      | cons t' ts' =>
          rw [joinPath_cons, joinPath_cons] at heq
          have hrest := (List.cons.inj heq).2
          obtain ⟨htake, hdrop⟩ := takeWhile_noSlash (h t List.mem_cons_self) (joinPath_start ts)
          obtain ⟨htake', hdrop'⟩ :=
            takeWhile_noSlash (h' t' List.mem_cons_self) (joinPath_start ts')
          rw [hrest, htake'] at htake
          rw [hrest, hdrop'] at hdrop
          rw [htake, ih (fun x hx => h x (List.mem_cons_of_mem t hx))
            (fun x hx => h' x (List.mem_cons_of_mem t' hx)) hdrop.symm]

/-- The components that the code goes by. -/
structure CanonicalComps (path : Str) (ts : List Str) : Prop where
  eq : fsCanonicalize path 512 = normalPath ts
  count : ts.length ≤ 128
  token : ∀ t ∈ ts, PathToken t
  noNul : ∀ t ∈ ts, (0 : UInt8) ∉ t

theorem canonicalComps (path : CString) : ∃ ts, CanonicalComps path.chars ts := by
  obtain ⟨hnormal, hnul, -⟩ := fsCanonicalize_normal (by decide : 66 ≤ 512) path
  rcases hnormal with hroot | ⟨ts, hne, hcount, htok, heq⟩
  · exact ⟨[], hroot, Nat.zero_le _, fun t ht => absurd ht List.not_mem_nil,
      fun t ht => absurd ht List.not_mem_nil⟩
  · refine ⟨ts, by rw [heq, normalPath, if_neg hne], hcount, htok, fun t ht h0 => hnul ?_⟩
    rw [heq]
    exact List.mem_flatMap.mpr ⟨t, ht, List.mem_cons_of_mem _ h0⟩

/-- Nothing is lost exactly when the code goes by the live components. -/
theorem CanonicalComps.keptWhole {path : Str} {ts : List Str} (h : CanonicalComps path ts) :
    KeptWhole path ↔ ts = normalComponents path := by
  have hpieces := normalComponents_pieces path
  constructor
  · intro hkept
    have heq : normalPath ts = normalPath (normalComponents path) := h.eq.symm.trans hkept
    have hslash : ∀ {l : List Str}, (∀ t ∈ l, t ≠ []) → l ≠ [] → [slash] ≠ joinPath l := by
      intro l hl hne hc
      obtain ⟨t, l, rfl⟩ := List.exists_cons_of_ne_nil hne
      rw [joinPath_cons] at hc
      exact hl t List.mem_cons_self (List.append_eq_nil_iff.mp (List.cons.inj hc).2.symm).1
    unfold normalPath at heq
    split at heq
    · rename_i hnil
      split at heq
      · rename_i hnil'
        rw [hnil, hnil']
      · rename_i hne
        exact absurd heq (hslash (fun t ht => (hpieces t ht).1) hne)
    · rename_i hne
      split at heq
      · exact absurd heq.symm (hslash (fun t ht => (h.token t ht).ne_nil) hne)
      · exact joinPath_inj (fun t ht => (h.token t ht).noSlash) (fun t ht => (hpieces t ht).2) heq
  · rintro rfl
    exact h.eq

/-! ## Lookups

The walks of the two resolutions along the components. -/

section

variable {u : Block} {sb : Superblock} {d : Disk} {path : Str} {ts : List Str}

theorem CanonicalComps.resolve (h : CanonicalComps path ts) :
    (pathResolve (arrayDev u) sb path d).1 = d.walk u sb ts 1 := by
  refine pathResolve_canonical h.token ?_
  rw [h.eq, normalPath]
  split
  · rename_i hnil
    exact Or.inr ⟨rfl, hnil⟩
  · exact Or.inl rfl

/-- The components of a canonical path but the last are those of their own path. -/
theorem CanonicalComps.init {init : List Str} {t : Str} (h : CanonicalComps path (init ++ [t]))
    (hshort : (joinPath (init ++ [t])).length < 511) (hne : init ≠ []) :
    CanonicalComps (joinPath init) init where
  eq := by
    have hcount := h.count
    have hlen : (joinPath init).length ≤ (joinPath (init ++ [t])).length := by
      rw [joinPath_append, List.length_append]
      exact Nat.le_add_right _ _
    rw [List.length_append] at hcount
    rw [normalPath, if_neg hne]
    refine @fsCanonicalize_of_normal 512 (by decide) _
      (Or.inr ⟨init, hne, by omega, fun x hx => ?_, rfl⟩)
      (by omega)
    exact h.token x (List.mem_append_left _ hx)
  count := by
    have hcount := h.count
    rw [List.length_append] at hcount
    omega
  token x hx := h.token x (List.mem_append_left _ hx)
  noNul x hx := h.noNul x (List.mem_append_left _ hx)

/-- `path_resolve_parent` gives the last component, and the walk of the others. -/
theorem CanonicalComps.parent {init : List Str} {t : Str} (h : CanonicalComps path (init ++ [t]))
    (hshort : (joinPath (init ++ [t])).length < 511) :
    (pathResolveParent (arrayDev u) sb path d).1
        = (d.walk u sb init 1).map fun ino => (ino, t) := by
  have ht := h.token t (List.mem_append_right _ (List.mem_singleton.mpr rfl))
  have hcanon : fsCanonicalize path 512 = joinPath init ++ slash :: t := by
    rw [h.eq, normalPath, if_neg (List.append_ne_nil_of_right_ne_nil _ (List.cons_ne_nil t [])),
      joinPath_append, joinPath_cons, joinPath_nil, List.append_nil]
  have hroot : joinPath init ++ slash :: t ≠ [slash] := by
    intro hc
    have hlen := congrArg List.length hc
    rw [List.length_append, List.length_cons, List.length_singleton] at hlen
    exact ht.ne_nil (List.length_eq_zero_iff.mp (by omega))
  have hname : (joinPath init ++ slash :: t).drop ((joinPath init).length + 1) = t := by
    rw [← List.drop_drop, List.drop_left]
    rfl
  have hsize : (joinPath init).length + (1 + t.length) < 511 := by
    have hjoin : joinPath (init ++ [t]) = joinPath init ++ slash :: t := by
      rw [joinPath_append, joinPath_cons, joinPath_nil, List.append_nil]
    rw [hjoin, List.length_append, List.length_cons] at hshort
    omega
  -- the path of the parent is looked up as the walk of the other components
  have hparent : ∃ parentPath, (if (joinPath init).length = 0 then [slash]
      else (joinPath init ++ slash :: t).take (joinPath init).length) = parentPath
      ∧ parentPath.length < 512
      ∧ (pathResolve (arrayDev u) sb parentPath d).1 = d.walk u sb init 1 := by
    cases init with
    | nil =>
        refine ⟨[slash], if_pos rfl, by decide, ?_⟩
        rw [pathResolve, if_pos (by decide)]
        rfl
    | cons x init =>
        refine ⟨joinPath (x :: init), ?_, by omega, ?_⟩
        · have hpos : ¬ (joinPath (x :: init)).length = 0 := Nat.succ_ne_zero _
          rw [if_neg hpos, List.take_left]
        · exact (h.init hshort (List.cons_ne_nil x init)).resolve
  obtain ⟨parentPath, heq, hlen, hres⟩ := hparent
  have hrun : pathResolve (arrayDev u) sb parentPath d = (d.walk u sb init 1, d) :=
    Prod.ext hres (readOnly_pathResolve u sb parentPath d)
  have htlen := ht.short
  unfold pathResolveParent
  rw [hcanon, if_neg hroot, lastSlash_append ht.noSlash]
  dsimp only
  rw [heq, hname, if_neg (by omega), if_neg (by omega), Prog.run_bind, hrun]
  cases d.walk u sb init 1 with
  | none => rfl
  | some ino => rfl

theorem CanonicalComps.parent_root (h : CanonicalComps path []) :
    (pathResolveParent (arrayDev u) sb path d).1 = none := by
  rw [pathResolveParent, h.eq]
  rfl

end

/-- A path of which nothing is lost is looked up as it is spelled. -/
theorem KeptWhole.spelled {path : CString} (h : KeptWhole path.chars) (u : Block) (sb : Superblock)
    (d : Disk) : d.Spelled u sb path.chars := by
  obtain ⟨ts, hts⟩ := canonicalComps path
  obtain rfl := hts.keptWhole.mp h
  obtain ⟨-, -, hlen⟩ := fsCanonicalize_normal (by decide : 66 ≤ 512) path
  refine ⟨fun ino hres => ?_, fun ino name hres => ?_⟩
  · rw [← hts.resolve]
    exact hres
  · rcases List.eq_nil_or_concat' (normalComponents path.chars) with hnil | ⟨init, t, hsplit⟩
    · rw [hnil] at hts
      rw [hts.parent_root] at hres
      cases hres
    · rw [h, normalPath, hsplit,
        if_neg (List.append_ne_nil_of_right_ne_nil _ (List.cons_ne_nil t []))]
        at hlen
      rw [hsplit] at hts
      rw [hts.parent (by omega)] at hres
      obtain ⟨x, hx, heq⟩ := Option.map_eq_some_iff.mp hres
      obtain ⟨rfl, rfl⟩ := Prod.mk.inj heq
      exact ⟨init, hsplit, hx⟩

/-! ## A volume of directories one below the other

Inode i has one entry, and it leads to inode i + 1; the names are a
parameter. -/

def chainSuper : Superblock where
  magic := fun i => [73, 80, 79, 95, 70, 83, 0, 0].getD i.val 0
  fsSizeBlocks := 300
  blockSize := 512
  inodeCount := 132
  inodeBitmapStart := 1
  blockBitmapStart := 2
  inodeTableStart := 3
  dataBlocksStart := 100

/-- The record of slot `i`: one directory for each component. -/
def chainRecord (ts : List Str) (i : Nat) : Inode :=
  if i < ts.length then
    { Inode.zero with
      mode := 1
      size := 72
      linksCount := 1
      direct := fun j => if j.val = 0 then UInt32.ofNat (100 + i) else 0 }
  else Inode.zero

/-- The entry of directory `i`: component `i`, which leads to the next directory. -/
def chainEntry (ts : List Str) (i : Nat) : DirEntry := makeEntry (i + 2) typeDir (ts.getD i [])

/-- The volume on which the walk of `ts` goes through all directories. -/
def chainDisk (ts : List Str) : Disk := fun p =>
  if p = 0 then Buf.zero.patch 0 36 chainSuper.encode
  else if p < 100 then fun k => (chainRecord ts (6 * (p - 3) + k / 76)).encode (k % 76)
  else Buf.zero.patch 0 72 (chainEntry ts (p - 100)).encode

section

variable {ts : List Str}

theorem chainDisk_inodeAt {i : Nat} (hi : i < 132) :
    (chainDisk ts).inodeAt chainSuper (i + 1) = chainRecord ts i := by
  have hcount : chainSuper.inodeCount.toNat = 132 := rfl
  have htable : chainSuper.inodeTableStart.toNat = 3 := rfl
  have hvalid : chainSuper.ValidIno (i + 1) := ⟨Nat.succ_pos i, by omega⟩
  have hblock : inodeBlock chainSuper (i + 1) = 3 + i / 6 := by
    unfold inodeBlock
    rw [htable, Nat.add_sub_cancel, u32_of_lt (by omega)]
  have hoffset : inodeOffset (i + 1) = i % 6 * 76 := by rw [inodeOffset, Nat.add_sub_cancel]
  rw [Disk.inodeAt, if_pos hvalid, hblock, hoffset,
    ← Inode.decode_patch Buf.zero (i % 6 * 76) (chainRecord ts i)]
  refine Inode.decode_congr fun k h1 h2 => ?_
  have hne : ¬ 3 + i / 6 = 0 := by omega
  have hlt : 3 + i / 6 < 100 := by omega
  have hslot : 6 * (3 + i / 6 - 3) + k / 76 = i := by omega
  have hbyte : k % 76 = k - i % 6 * 76 := by omega
  rw [Buf.patch_in h1 h2, chainDisk, if_neg hne, if_pos hlt, hslot, hbyte]

theorem chainDisk_entry {i : Nat} (hi : i < 132) :
    DirEntry.decode (chainDisk ts (100 + i)) 0 = chainEntry ts i := by
  have hne : ¬ 100 + i = 0 := by omega
  have hge : ¬ 100 + i < 100 := by omega
  rw [chainDisk, if_neg hne, if_neg hge, Nat.add_sub_cancel_left, DirEntry.decode_patch]

theorem chainDisk_find (u : Block) {i : Nat} (hi : i < ts.length) (hcount : ts.length ≤ 128)
    (htok : PathToken (ts.getD i [])) (hnul : (0 : UInt8) ∉ ts.getD i []) (name : Str) :
    (dirFindEntry (arrayDev u) chainSuper (i + 1) name (chainDisk ts)).1.map
      (fun f => f.1.inode.toNat)
      = if ts.getD i [] = name then some (i + 2) else none := by
  have hrecord := @chainDisk_inodeAt ts i (by omega)
  rw [chainRecord, if_pos hi] at hrecord
  have hvalid : chainSuper.ValidIno (i + 1) := by
    have h132 : chainSuper.inodeCount.toNat = 132 := rfl
    exact ⟨Nat.succ_pos i, by omega⟩
  have hentry := @chainDisk_entry ts i (by omega)
  have hreadable : (DirEntry.decode (chainDisk ts (100 + i)) 0).Readable := by
    rw [hentry]
    exact fun _ => Or.inr ⟨_, DirEntry.hasName_of_chars htok.ne_nil hnul htok.short _ _⟩
  have hmatch := entryMatches_iff hreadable name
  have hino : (makeEntry (i + 2) typeDir (ts.getD i [])).inode.toNat = i + 2 :=
    UInt32.toNat_ofNat_of_lt' (Nat.lt_of_lt_of_le (show i + 2 < 256 by omega) (by decide))
  have hino0 : (makeEntry (i + 2) typeDir (ts.getD i [])).inode ≠ 0 := by
    intro hc
    rw [hc, UInt32.toNat_zero] at hino
    omega
  rw [hentry, chainEntry, nameBytes_makeEntry htok.short] at hmatch
  have hphys : (UInt32.ofNat (100 + i)).toNat = 100 + i :=
    UInt32.toNat_ofNat_of_lt' (Nat.lt_of_lt_of_le (show 100 + i < 256 by omega) (by decide))
  have hfind : findPhys (arrayDev u) chainSuper ((chainDisk ts).inodeAt chainSuper (i + 1)) 0
      (chainDisk ts) = (some (100 + i), chainDisk ts) := by
    rw [findPhys_array, hrecord, Disk.findPhys, dif_pos (by decide)]
    exact congrArg (fun x => (some x, chainDisk ts)) hphys
  have hmode : ((chainDisk ts).inodeAt chainSuper (i + 1)).mode = 1 := by rw [hrecord]
  have hsize : ((chainDisk ts).inodeAt chainSuper (i + 1)).size = 72 := by rw [hrecord]
  have hdir : ((chainDisk ts).inodeAt chainSuper (i + 1)).isDir = true := by
    rw [Inode.isDir, hmode]
    decide
  have hslots : ((chainDisk ts).inodeAt chainSuper (i + 1)).size.toNat / 72 = 1 := by
    rw [hsize]
    decide
  have hne : ¬ 100 + i = 0 := by omega
  unfold dirFindEntry
  rw [Prog.run_bind, readInode_array, if_pos hvalid]
  dsimp only
  rw [if_pos hdir, hslots, dirFindFrom, Prog.run_bind, hfind]
  dsimp only
  rw [if_neg hne, Prog.run_bind, arrayDev_read]
  dsimp only
  rcases em (ts.getD i [] = name) with heq | hother
  · have hhit : entryMatches (chainDisk ts (100 + i)) (0 % 7 * 72) name = true :=
      hmatch.mpr ⟨hino0, heq ▸ htok.ne_nil, heq⟩
    rw [if_pos hhit, if_pos heq]
    show some (DirEntry.decode (chainDisk ts (100 + i)) 0).inode.toNat = some (i + 2)
    rw [hentry, chainEntry, hino]
  · have hmiss : ¬ entryMatches (chainDisk ts (100 + i)) (0 % 7 * 72) name = true :=
      fun hc => hother (hmatch.mp hc).2.2
    rw [if_neg hmiss, if_neg hother]
    rfl

theorem chainDisk_last (u : Block) {i : Nat} (hi : ts.length ≤ i) (hlt : i < 132) (name : Str) :
    (dirFindEntry (arrayDev u) chainSuper (i + 1) name (chainDisk ts)).1 = none := by
  have hrecord := @chainDisk_inodeAt ts i hlt
  rw [chainRecord, if_neg (by omega)] at hrecord
  have hvalid : chainSuper.ValidIno (i + 1) := by
    have h132 : chainSuper.inodeCount.toNat = 132 := rfl
    exact ⟨Nat.succ_pos i, by omega⟩
  have hdir : ¬ ((chainDisk ts).inodeAt chainSuper (i + 1)).isDir = true := by
    rw [hrecord]
    decide
  unfold dirFindEntry
  rw [Prog.run_bind, readInode_array, if_pos hvalid]
  dsimp only
  rw [if_neg hdir]
  rfl

/-- A walk from directory `i` that goes through follows the components from there on. -/
theorem chainDisk_walk (u : Block) (hcount : ts.length ≤ 128)
    (htok : ∀ t ∈ ts, PathToken t) (hnul : ∀ t ∈ ts, (0 : UInt8) ∉ t) {cs : List Str} {i x : Nat}
    (hi : i ≤ ts.length) : (chainDisk ts).walk u chainSuper cs (i + 1) = some x
      ↔ cs <+: ts.drop i ∧ x = i + 1 + cs.length := by
  induction cs generalizing i with
  | nil =>
      rw [Disk.walk, List.length_nil, Option.some.injEq]
      exact ⟨fun h => ⟨List.nil_prefix, h.symm⟩, fun h => h.2.symm⟩
  | cons c cs ih =>
      rw [Disk.walk]
      rcases Nat.lt_or_ge i ts.length with hlt | hge
      · have hget : ts.getD i [] = ts[i] := (List.getElem_eq_getD []).symm
        have hfind := @chainDisk_find ts u i hlt hcount
        rw [hget] at hfind
        have hfind := hfind (htok _ (List.getElem_mem hlt)) (hnul _ (List.getElem_mem hlt)) c
        rw [List.drop_eq_getElem_cons hlt, List.cons_prefix_cons]
        cases hf : (dirFindEntry (arrayDev u) chainSuper (i + 1) c (chainDisk ts)).1 with
        | none =>
            rw [hf, Option.map_none] at hfind
            split at hfind
            · cases hfind
            · rename_i hne
              dsimp only
              constructor
              · intro h
                cases h
              · rintro ⟨⟨heq, -⟩, -⟩
                exact absurd heq.symm hne
        | some found =>
            rw [hf, Option.map_some] at hfind
            split at hfind
            · rename_i heq
              dsimp only
              rw [Option.some.inj hfind, ih hlt, List.length_cons]
              constructor
              · rintro ⟨h1, h2⟩
                exact ⟨⟨heq.symm, h1⟩, by omega⟩
              · rintro ⟨⟨-, h1⟩, h2⟩
                exact ⟨h1, by omega⟩
            · cases hfind
      · rw [chainDisk_last u hge (by omega) c, List.drop_of_length_le hge]
        dsimp only
        constructor
        · intro h
          cases h
        · rintro ⟨hpre, -⟩
          exact absurd (List.prefix_nil.mp hpre) (List.cons_ne_nil c cs)

end

def chainKernel (ts : List Str) : Kernel Disk :=
  { blankKernel with sb := chainSuper, fsMounted := true, disk := chainDisk ts }

theorem chainKernel_mount (u : Block) (ts : List Str) :
    ipoFsMount (diskDev u) 0
        { blankKernel with disk := chainDisk ts } = (true, chainKernel ts) := by
  have hsuper : Superblock.decode (chainDisk ts 0) = chainSuper := by
    rw [chainDisk, if_pos rfl, Superblock.decode_patch]
  have hrun := @ipoFsMount_run u { blankKernel with disk := chainDisk ts }
  have haccepted : chainSuper.accepted = true := by decide
  dsimp only at hrun
  rw [hsuper, if_pos haccepted] at hrun
  exact hrun

/-- On every mounted volume a path is looked up as it is spelled exactly when `fs_canonicalize`
loses nothing of it; it does not when no component is longer than 63 characters, at most 128 are
live at any time, and the canonical path has at most 510 characters. -/
theorem pathSpelled_iff (u : Block) (path : CString) :
    ((∀ (start : UInt32) (k k' : Kernel Disk), ipoFsMount (diskDev u) start k = (true, k') →
      k'.disk.Spelled u k'.sb path.chars) ↔ KeptWhole path.chars)
    ∧ ((∀ t ∈ path.chars.splitOn slash, t.length ≤ 63) →
      (∀ p, p <+: path.chars → (normalComponents p).length ≤ 128) →
      (normalPath (normalComponents path.chars)).length ≤ 510 → KeptWhole path.chars) := by
  refine ⟨⟨fun hall => ?_, fun hkept _ _ k' _ => hkept.spelled u k'.sb k'.disk⟩,
    fun hshort hlive hfits => fsCanonicalize_live (by decide : 66 ≤ 512) hshort hlive hfits⟩
  obtain ⟨ts, hts⟩ := canonicalComps path
  have hspelled := hall 0 _ _ (chainKernel_mount u ts)
  have hwalk := @chainDisk_walk ts u hts.count hts.token hts.noNul
  have hend : (chainDisk ts).walk u chainSuper ts 1 = some (0 + 1 + ts.length) :=
    (hwalk (Nat.zero_le _)).mpr ⟨List.prefix_rfl, rfl⟩
  have hspell := hspelled.resolve _ (hts.resolve.trans hend)
  obtain ⟨hpre, hlen⟩ := (hwalk (Nat.zero_le _)).mp hspell
  refine hts.keptWhole.mpr (hpre.eq_of_length ?_).symm
  rw [List.drop_zero]
  omega

/-- The path `/a` with 63 or 64 times the `a`. -/
def manyAs (n : Nat) : CString :=
  rootPath (List.replicate n 97) (by
    rw [List.mem_cons, not_or]
    exact ⟨by decide, fun h => absurd (List.eq_of_mem_replicate h) (by decide)⟩)

/-- The volume with a file of 63 characters. -/
def manyAsKernel : Kernel Disk :=
  (ipoFsCreate (diskDev Buf.zero) (manyAs 63) typeFile (mountedKernel 12 6)).2

/-- A component of 64 characters leads to the file of the first 63. -/
theorem pathResolve_cut :
    ipoFsMount (diskDev Buf.zero) 0 (formattedKernel 12 6) = (true, mountedKernel 12 6)
    ∧ FsRun Buf.zero (fun _ _ => True) (mountedKernel 12 6) manyAsKernel
    ∧ (pathResolve (arrayDev Buf.zero) manyAsKernel.sb (manyAs 64).chars manyAsKernel.disk).1
      = some 4
    ∧ manyAsKernel.disk.walk Buf.zero manyAsKernel.sb (normalComponents (manyAs 64).chars) 1 = none
    ∧ ¬ manyAsKernel.disk.Spelled Buf.zero manyAsKernel.sb (manyAs 64).chars := by
  have hres :
    (pathResolve (arrayDev Buf.zero) manyAsKernel.sb (manyAs 64).chars manyAsKernel.disk).1
      = some 4 := by decide +kernel
  have hwalk : manyAsKernel.disk.walk Buf.zero manyAsKernel.sb (normalComponents (manyAs 64).chars)
    1
      = none := by decide +kernel
  have hmount : (ipoFsMount (diskDev Buf.zero) 0 (formattedKernel 12 6)).1 = true := by
    decide +kernel
  have hpair : ipoFsMount (diskDev Buf.zero) 0 (formattedKernel 12 6)
      = (true, mountedKernel 12 6) := by
    rw [← hmount, mountedKernel]
  refine ⟨hpair, Relation.ReflTransGen.single ⟨.create (manyAs 63) typeFile, trivial, rfl⟩,
    hres, hwalk, fun h => ?_⟩
  have hspelled := h.resolve 4 hres
  rw [hwalk] at hspelled
  cases hspelled

end IpoOs
