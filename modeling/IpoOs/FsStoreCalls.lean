import IpoOs.FsStoreRun

/-!
# Calls on the store

Every call of the interface is one step of the store, with the answer
that the store gives: `run_storeStep`. The calls on names are in the
module before; here are the descriptors and the bytes.

A read and a write are followed for any offset and size, also where
`offset + size` wraps: the loops move the bytes of the range from its
start on, block by block, and count what they have moved, so that the
count says which bytes they are. Only for a range that does not wrap is
there a word on where a read stops.

`ipo_fs_write_text` is a creation, an opening and a write, of which each
may be the last. It opens its file like `ipo_fs_open` does, and does not
close it.
-/

namespace IpoOs

/-! ## What a read delivers

The bytes from the offset on, up to the first block that is not mapped. -/

section

variable {u : Block} {sb : Superblock} {d : Disk}

theorem Disk.fileByte_none {r : Inode} {x : Nat} (hint : d.IntPtrs r)
    (hx : d.lookup r (x / 512) = none) :
    d.fileByte r x = none := by
  refine Option.eq_none_iff_forall_ne_some.mpr fun v hv => ?_
  obtain ⟨pos, hpos, hne, -⟩ := Disk.fileByte_eq_some.mp hv
  have hsome := Disk.lookup_eq_some.mpr ⟨pos, hpos, rfl, hne, hint pos⟩
  rw [hx] at hsome
  cases hsome

/-- A loop that passes mapped blocks only moves fewer bytes than an `int` can count. -/
theorem asInt_reached {r : Inode} {offset m : Nat} (size : Nat)
    (hmap : ∀ c, offset / 512 ≤ c → c < offset / 512 + m → (d.lookup r c).isSome) :
    asInt (reached offset size (offset / 512 + m))
        = some (reached offset size (offset / 512 + m)) := by
  refine asInt_eq_some.mpr ⟨rfl, ?_⟩
  rcases Nat.eq_zero_or_pos m with rfl | hpos
  · rw [Nat.add_zero, reached_start]
    decide
  · obtain ⟨p, hp⟩ :=
      Option.isSome_iff_exists.mp (hmap (offset / 512 + m - 1) (by omega) (by omega))
    obtain ⟨pos, hposb, -⟩ := Disk.lookup_eq_some.mp hp
    have hlt := lt_of_posOf hposb
    unfold reached
    omega

theorem readFile_delivers {ino : Nat} (hv : sb.ValidIno ino) (buffer : Buf) {offset size : Nat}
    (hoffset : offset < 4294967296) (hsize : size < 4294967296)
    (hint : d.IntPtrs (d.inodeAt sb ino)) :
    ∃ count out, readFile ino buffer size offset (arrayDev u) sb d = ((some count, out), d)
      ∧ ReadOk buffer size offset (d.inodeAt sb ino).size.toNat (d.fileByte (d.inodeAt sb ino))
        count
        out := by
  have hread : readInode (arrayDev u) sb ino d = (some (d.inodeAt sb ino), d) := by
    rw [readInode_array, if_pos hv]
  have hlen := (d.inodeAt sb ino).size.toNat_lt
  rcases Nat.lt_or_ge offset (d.inodeAt sb ino).size.toNat with hin | hpast
  · generalize hclamp : (if u32 (offset + size) > (d.inodeAt sb ino).size.toNat
      then (d.inodeAt sb ino).size.toNat - offset else size) = size'
    obtain ⟨m, out, hm, hrun, hmap, hstop, hbytes, hrest⟩ := readBlocks_reached u sb
      (d.inodeAt sb ino) d offset size' (blockCount offset size') (offset / 512) (Nat.le_refl _) u
      buffer
    rw [reached_start] at hrun hbytes hrest
    have hint' := asInt_reached size' hmap
    have hle : size' ≤ size ∧ (offset + size < 4294967296 →
        size' = min size ((d.inodeAt sb ino).size.toNat - offset)) := by
      unfold u32 at hclamp
      split at hclamp <;> omega
    have hreached : reached offset size' (offset / 512 + m) ≤ size' := Nat.min_le_left _ _
    refine ⟨reached offset size' (offset / 512 + m), out, ?_, Nat.le_trans hreached hle.1,
      fun i hi => hbytes i (Nat.zero_le i) hi, fun i hi => hrest i (Or.inr hi), fun hend => ?_,
      fun hend hshort => ?_⟩
    · have hu : (arrayDev u).uninit = u := rfl
      have hno : ¬ offset ≥ (d.inodeAt sb ino).size.toNat := by omega
      simp only
        [readFile, Prog.run_bind, hread, hno, if_false, hclamp, hu, hrun, Prog.run_pure, hint']
    · have heq := hle.2 hend
      omega
    · -- the loop stopped before its last block
      have heq := hle.2 hend
      have hblock : m < blockCount offset size'
        ∧ (offset + reached offset size' (offset / 512 + m)) / 512
          = offset / 512 + m := by
        have hfit : offset + size' < 4294967296 := by omega
        have hpos : 1 ≤ offset + size' := by omega
        rw [← heq] at hshort
        unfold reached at hshort ⊢
        unfold blockCount
        rw [u32_of_lt hfit, sub32_of_le hpos hfit]
        omega
      refine Disk.fileByte_none hint ?_
      rw [hblock.2]
      exact hstop hblock.1
  · refine ⟨0, buffer, ?_, Nat.zero_le _, fun i hi => absurd hi (Nat.not_lt_zero i), fun _ _ => rfl,
      fun _ => Nat.zero_le _, fun _ hlt => ?_⟩
    · simp only [readFile, Prog.run_bind, hread, if_pos hpast, Prog.run_pure]
    · omega

end

/-! ## Descriptors

The table of open files is the descriptor table, and opening finds the
lowest free entry. -/

section

variable {u : Block} {k k' : Kernel Disk} {c : FsCall} (h : VolOk k) (ht : TreeOk k.sb k.disk)

include h ht

omit h ht in
theorem Kernel.store_resolve (path : CString) : (k.files u).store (pathComps path.chars)
    = ((pathResolve (arrayDev u) k.sb path.chars k.disk).1).map (k.disk.node k.sb) := by
  rw [pathResolve_comps]
  show k.disk.view u k.sb _ = _
  unfold Disk.view
  rw [if_pos (pathComps_token path)]

omit h ht in
theorem Kernel.opened_none {j : Nat} (hj : j < 32) :
    (k.files u).opened j = none ↔ (k.fds j).used = false := by
  show (if j < 32 ∧ (k.fds j).used = true then some (k.fds j).inode else none) = none ↔ _
  cases hu : (k.fds j).used <;> simp [hj]

omit h ht in
theorem Kernel.inodeOf_some {fd : Int} {ino : Nat} :
    (k.files u).inodeOf fd = some ino ↔ k.fdOk fd ∧ (k.fds fd.toNat).inode = ino := by
  unfold Files.inodeOf
  show (if 0
    ≤ fd then (if fd.toNat < 32 ∧ (k.fds fd.toNat).used = true then some (k.fds fd.toNat).inode
    else none) else none) = some ino ↔ _
  constructor
  · intro hino
    split at hino
    · split at hino
      · rename_i h0 hu
        exact ⟨⟨h0, by omega, hu.2⟩, Option.some.inj hino⟩
      · cases hino
    · cases hino
  · rintro ⟨⟨h0, hlt, hu⟩, rfl⟩
    rw [if_pos h0, if_pos ⟨by omega, hu⟩]

omit h ht in
theorem Kernel.inodeOf_none {fd : Int} (hfd : ¬ k.fdOk fd) : (k.files u).inodeOf fd = none := by
  refine Option.eq_none_iff_forall_ne_some.mpr fun ino hino => ?_
  exact hfd (Kernel.inodeOf_some.mp hino).1

omit h ht in
theorem firstUnused_iff {i : Nat} : firstUnused k.fds 32 0 = some i
    ↔ i < 32 ∧ (k.files u).opened i = none ∧ ∀ j, j < i → (k.files u).opened j ≠ none := by
  constructor
  · intro hi
    obtain ⟨-, hlt, hall, hfree⟩ := firstUnused_some hi
    rw [Nat.zero_add] at hlt
    refine ⟨hlt, (Kernel.opened_none hlt).mpr hfree, fun j hj hc => ?_⟩
    rw [Kernel.opened_none (by omega), hall j (Nat.zero_le j) hj] at hc
    cases hc
  · rintro ⟨hlt, hnone, hall⟩
    cases hi : firstUnused k.fds 32 0 with
    | none =>
        have hused := firstUnused_none hi (Nat.zero_le i) (by omega)
        rw [Kernel.opened_none hlt, hused] at hnone
        cases hnone
    | some j =>
        obtain ⟨-, hlt', hall', hfree⟩ := firstUnused_some hi
        rcases Nat.lt_trichotomy i j with hij | rfl | hji
        · rw [Kernel.opened_none hlt, hall' i (Nat.zero_le i) hij] at hnone
          cases hnone
        · rfl
        · exact absurd ((Kernel.opened_none (by omega)).mpr hfree) (hall j hji)

omit h ht in
theorem Kernel.files_opened {i ino : Nat} (hi : i < 32) :
    (k.opened i ino).files u = (k.files u).openAt i ino := by
  refine Files.ext rfl rfl (funext fun j => ?_)
  show (if j < 32
    ∧ ((k.opened i ino).fds j).used = true then some ((k.opened i ino).fds j).inode else none)
    = Function.update (k.files u).opened i (some ino) j
  rcases em (j = i) with rfl | hne
  · rw [Function.update_self, Kernel.opened_fd, if_pos ⟨hi, rfl⟩]
  · rw [Function.update_of_ne hne, show (k.opened i ino).fds j = k.fds j from if_neg hne]
    rfl

omit h in
/-- A file that a path leads to can be opened by the path, and so can nothing else. -/
theorem openTarget_iff {path : CString} {ino : Nat} :
    (openTarget path.chars (arrayDev u) k.sb k.disk).1 = some ino
      ↔ ∃ v, (k.files u).store (pathComps path.chars) = some v ∧ ¬ v.IsDir ∧ v.ino = ino := by
  constructor
  · intro hino
    obtain ⟨-, hdir, hres⟩ := openTarget_some hino
    refine ⟨k.disk.node k.sb ino, by rw [Kernel.store_resolve, hres]; rfl, fun hd => ?_,
      Disk.node_ino _ _ _⟩
    rw [Disk.node_isDir, hdir] at hd
    cases hd
  · rintro ⟨v, hv, hfile, rfl⟩
    rw [Kernel.store_resolve, Option.map_eq_some_iff] at hv
    obtain ⟨ino, hres, rfl⟩ := hv
    have hrun : pathResolve (arrayDev u) k.sb path.chars k.disk = (some ino, k.disk) :=
      Prod.ext hres (readOnly_pathResolve u k.sb path.chars k.disk)
    have hdir : (k.disk.inodeAt k.sb ino).isDir = false := by
      rw [Disk.node_isDir] at hfile
      exact Bool.eq_false_iff.mpr hfile
    rw [pathResolve_comps] at hres
    have hused := ht.way_used ((ht.walk_root (pathComps_token path)).mp hres)
    simp [openTarget, hrun, readInode_array, hused.1, hdir]

omit h in
theorem ipoFsOpen_effect (path : CString) :
    (ipoFsOpen (diskDev u) path k = (none, k) ∧ ∀ v i, ¬ (k.files u).Opens path v i)
    ∨ ∃ v i, (k.files u).Opens path v i
      ∧ ipoFsOpen (diskDev u) path k = (some i, k.opened i v.ino) := by
  rcases em (∃ v i, (k.files u).Opens path v i) with ⟨v, i, ho⟩ | hno
  · have hm : k.fsMounted = true := ho.mounted
    have htarget := (openTarget_iff (u := u) ht).mpr ⟨v, ho.here, ho.file, rfl⟩
    have hfirst := firstUnused_iff.mpr ⟨ho.bound, ho.free, ho.low⟩
    have hrun : openTarget path.chars (arrayDev u) k.sb k.disk = (some v.ino, k.disk) :=
      Prod.ext htarget (readOnly_openTarget u k.sb path.chars k.disk)
    refine Or.inr ⟨v, i, ho, ?_⟩
    simp [ipoFsOpen, getKernel, hm, withFs_run, hrun, hfirst, modifyKernel, Kernel.opened]
  · refine Or.inl ⟨?_, fun v i ho => hno ⟨v, i, ho⟩⟩
    rcases ipoFsOpen_run u k path with hrun | ⟨ino, i, hm, htarget, hfirst, -⟩
    · exact hrun
    · obtain ⟨v, hv, hfile, -⟩ := (openTarget_iff ht).mp htarget
      obtain ⟨hlt, hfree, hlow⟩ := (firstUnused_iff (u := u)).mp hfirst
      exact absurd ⟨v, i, hm, hv, hfile, hlt, hfree, hlow⟩ hno

omit h in
theorem Kernel.store_file {p : List Str} {ino n : Nat} {m : UInt32} {b : Nat → Option UInt8}
    (hp : (k.files u).store p = some (.file ino m n b)) : (k.disk.naming k.sb).used ino
      ∧ (k.disk.inodeAt k.sb ino).isDir = false ∧ (k.disk.inodeAt k.sb ino).mode = m
      ∧ (k.disk.inodeAt k.sb ino).size.toNat = n
          ∧ k.disk.fileByte (k.disk.inodeAt k.sb ino) = b := by
  obtain ⟨-, y, hway, hnode⟩ := ht.view_eq_some.mp hp
  obtain ⟨rfl, hrest⟩ := Disk.node_eq_file hnode.symm
  exact ⟨ht.way_used hway, hrest⟩

/-! ## Bytes

A read and a write through a descriptor, as changes of one file. -/

theorem ipoFsRead_effect {fd : Int} {ino n : Nat} {m : UInt32} {b : Nat → Option UInt8}
    {p : List Str}
    (hfd : (k.files u).inodeOf fd = some ino) (hp : (k.files u).store p = some (.file ino m n b))
    (buffer : Buf) (size offset : UInt32) :
    ∃ count out, ipoFsRead (diskDev u) fd buffer size offset k = ((some count, out), k)
      ∧ ReadOk buffer size.toNat offset.toNat n b count out := by
  obtain ⟨hok, rfl⟩ := Kernel.inodeOf_some.mp hfd
  obtain ⟨hused, -, -, rfl, rfl⟩ := Kernel.store_file ht hp
  obtain ⟨count, out, hrun, hread⟩ := readFile_delivers (u := u) hused.1 buffer offset.toNat_lt
    size.toNat_lt (h.owned.intPtrs _)
  rcases ipoFsRead_run u k fd buffer size offset with ⟨-, hcall⟩ | ⟨hno, -⟩
  · rw [hrun] at hcall
    exact ⟨count, out, hcall, hread⟩
  · exact absurd hok hno

theorem ipoFsWrite_effect {fd : Int} {ino n : Nat} {m : UInt32} {b : Nat → Option UInt8}
    {p : List Str}
    (hfd : (k.files u).inodeOf fd = some ino) (hp : (k.files u).store p = some (.file ino m n b))
    (buffer : Buf) (size offset : UInt32) :
    ∃ w n' b', (ipoFsWrite (diskDev u) fd buffer size offset k).1 = some w
      ∧ WriteOk buffer size.toNat offset.toNat n b w n' b'
      ∧ (ipoFsWrite (diskDev u) fd buffer size offset k).2.files u
        = { k.files u with store := (k.files u).store.put p (.file ino m n' b') } := by
  obtain ⟨hok, hino⟩ := Kernel.inodeOf_some.mp hfd
  obtain ⟨hused, hdir, hm, hn, hb⟩ := Kernel.store_file ht hp
  have hnot : ¬ k.disk.LiveDir k.sb (k.fds fd.toNat).inode := fun hc => by
    rw [hino] at hc
    exact absurd (hc.2.2.symm.trans hdir) (by decide)
  have ht' := exec_treeOk (c := .write fd buffer size offset) (u := u) h ht (fun _ => hnot) rfl
  rw [exec_sb (c := .write fd buffer size offset) (u := u) h rfl] at ht'
  rcases ipoFsWrite_run u k fd buffer size offset with ⟨-, hrun⟩ | ⟨hno, -⟩
  · rw [hrun] at ht' ⊢
    rw [hino] at ht' hnot ⊢
    obtain ⟨w, n', b', hres, hnew, hwrote⟩ :=
      writeFile_node (u := u) h hused.1 hdir buffer size.toNat offset.toNat_lt
    have htou := writeFile_touched h.layout h.bound u h.owned ino buffer size.toNat offset.toNat
    obtain ⟨htok, y, hway, hnode⟩ := ht.view_eq_some.mp hp
    obtain ⟨rfl, -⟩ := Disk.node_eq_file hnode.symm
    have hview :=
      view_put (u := u) ht ht' htok hway (htou.linksKept hnot).naming fun _ hne => htou.node hne
    rw [hnew, hm] at hview
    rw [hn, hb] at hwrote
    exact ⟨w, n', b', hres, hwrote, Kernel.files_of_view hview⟩
  · exact absurd hok hno

theorem ipoFsWrite_unseen {fd : Int} {buffer : Buf} {size offset : UInt32}
    (hfile : k.fdOk fd → ¬ k.disk.LiveDir k.sb (k.fds fd.toNat).inode)
    (hno : ∀ p v, (k.files u).store p = some v → v.ino ≠ (k.fds fd.toNat).inode) :
    (ipoFsWrite (diskDev u) fd buffer size offset k).2.files u = k.files u := by
  have ht' := exec_treeOk (c := .write fd buffer size offset) (u := u) h ht hfile rfl
  rw [exec_sb (c := .write fd buffer size offset) (u := u) h rfl] at ht'
  rcases ipoFsWrite_run u k fd buffer size offset with ⟨hfd, hrun⟩ | ⟨-, hrun⟩
  · rw [hrun] at ht' ⊢
    have htou :=
      writeFile_touched h.layout h.bound u h.owned (k.fds fd.toNat).inode buffer size.toNat
      offset.toNat
    refine Kernel.files_kept (view_unseen ht ht' (fun ts hts hw => ?_)
      (htou.linksKept (hfile hfd)).naming fun _ hne => htou.node hne)
    exact hno ts _ (ht.view_of_way hts hw) (Disk.node_ino _ _ _)
  · rw [hrun]

/-! ## Texts

The parts of `ipo_fs_write_text` and the step that they make. -/

omit h in
/-- `ipo_fs_write_text` on a path that it can open writes the text at the end of the file or at its
start, and does nothing on another. -/
theorem writeTextAt_effect (path text : CString) (append : Bool) :
    (writeTextAt (diskDev u) path text append k = (false, k) ∧ ∀ v i, ¬ (k.files u).Opens path v i)
    ∨ ∃ v i, (k.files u).Opens path v i
      ∧ writeTextAt (diskDev u) path text append k
        = (decide ((ipoFsWrite (diskDev u) i (cstr text.chars) (UInt32.ofNat text.chars.length)
            (textOffset append (k.disk.inodeAt k.sb v.ino)) (k.opened i v.ino)).1
              = some (u32 text.chars.length)),
          (ipoFsWrite (diskDev u) i (cstr text.chars) (UInt32.ofNat text.chars.length)
            (textOffset append (k.disk.inodeAt k.sb v.ino)) (k.opened i v.ino)).2) := by
  have hstat : (ipoFsStat (diskDev u) path k).2 = k := by
    rw [ipoFsStat_run]
    split <;> rfl
  unfold writeTextAt
  simp only [Prog.run_bind, hstat]
  rcases ipoFsOpen_effect (u := u) ht path with ⟨hrun, hno⟩ | ⟨v, i, ho, hrun⟩
  · refine Or.inl ⟨?_, hno⟩
    cases (ipoFsStat (diskDev u) path k).1 with
    | none => rfl
    | some r =>
        simp only [Prog.run_ite]
        split
        · rfl
        · simp only [Prog.run_bind, hrun]
          rfl
  · refine Or.inr ⟨v, i, ho, ?_⟩
    obtain ⟨hv, hdir, hres⟩ := openTarget_some ((openTarget_iff ht).mpr ⟨v, ho.here, ho.file, rfl⟩)
    have hm : k.fsMounted = true := ho.mounted
    have hsome : (ipoFsStat (diskDev u) path k).1 = some (k.disk.inodeAt k.sb v.ino) := by
      have hrun : pathResolve (arrayDev u) k.sb path.chars k.disk = (some v.ino, k.disk) :=
        Prod.ext hres (readOnly_pathResolve u k.sb path.chars k.disk)
      rw [ipoFsStat_run, if_pos hm]
      simp [statPath, hrun, readInode_array, hv]
    rw [hsome]
    simp only [Prog.run_ite, hdir, Bool.false_eq_true, if_false, Prog.run_bind, hrun]
    rfl

theorem writeTextAt_step {s : Files} (path text : CString) (append : Bool)
    (hmade : TextMade s path (k.files u)) :
    StoreStep s (.writeText path text append) (.done (writeTextAt (diskDev u) path text append k).1)
      ((writeTextAt (diskDev u) path text append k).2.files u) := by
  rcases writeTextAt_effect (u := u) ht path text append with ⟨hrun, hno⟩ | ⟨v, i, ho, hrun⟩
  · rw [hrun]
    exact .noText hmade hno
  · obtain ⟨ino, m, n, b, rfl⟩ : ∃ ino m n b, v = .file ino m n b := by
      cases v with
      | dir j m => exact absurd ⟨j, m, rfl⟩ ho.file
      | file ino m n b => exact ⟨ino, m, n, b, rfl⟩
    obtain ⟨-, -, -, hn, -⟩ := Kernel.store_file ht ho.here
    have hfiles := @Kernel.files_opened u k _ ino ho.bound
    have hfd : ((k.opened i ino).files u).inodeOf i = some ino := by
      rw [hfiles, Files.inodeOf, if_pos (Int.natCast_nonneg i), Int.toNat_natCast]
      exact Function.update_self ..
    have hp : ((k.opened i ino).files u).store (pathComps path.chars) = some (.file ino m n b) := by
      rw [hfiles]
      exact ho.here
    have h₁ : VolOk (k.opened i ino) := h.of_disk rfl h.owned _
    have ht₁ : TreeOk (k.opened i ino).sb (k.opened i ino).disk := ht
    obtain ⟨w, n', b', hres, hok, hwrote⟩ := ipoFsWrite_effect h₁ ht₁ hfd hp (cstr text.chars)
      (UInt32.ofNat text.chars.length) (textOffset append (k.disk.inodeAt k.sb ino))
    have hoff : (textOffset append (k.disk.inodeAt k.sb ino)).toNat = if append then n else 0 := by
      unfold textOffset
      cases append with
      | true => exact hn
      | false => rfl
    rw [hoff, UInt32.toNat_ofNat'] at hok
    rw [hrun]
    show StoreStep s _ (.done (decide (_ = some (u32 text.chars.length)))) (Kernel.files u _)
    rw [show (Node.file ino m n b).ino = ino from rfl, hres, hwrote, hfiles]
    rw [show decide (some w = some (u32 text.chars.length))
      = decide (w = u32 text.chars.length) from
      decide_eq_decide.mpr Option.some_inj]
    exact .text hmade ho hok

/-- A text written: a file created or not, then opened and written or not. -/
theorem ipoFsWriteText_step (path text : CString) (append : Bool) :
    StoreStep (k.files u) (.writeText path text append)
      (.done (ipoFsWriteText (diskDev u) path text append k).1)
      ((ipoFsWriteText (diskDev u) path text append k).2.files u) := by
  have hres : (withFs (diskDev u) (fun dev sb => pathResolve dev sb path.chars) k).2 = k := by
    rw [withFs_run, readOnly_pathResolve u k.sb path.chars k.disk]
  unfold ipoFsWriteText
  rw [Prog.run_bind, getKernel_run, Prog.run_ite]
  split
  · rename_i hm
    exact .noText (Or.inl rfl) fun v i ho => hm ho.mounted
  · rw [Prog.run_bind, hres]
    cases hpath : (withFs (diskDev u) (fun dev sb => pathResolve dev sb path.chars) k).1 with
    | some i => exact writeTextAt_step h ht path text append (Or.inl rfl)
    | none =>
        have hnone : (k.files u).store (pathComps path.chars) = none := by
          rw [Kernel.store_resolve, show (pathResolve (arrayDev u) k.sb path.chars k.disk).1
            = none from hpath]
          rfl
        simp only [Prog.run_bind]
        have h₁ := ipoFsCreate_ok h path typeFile (u := u)
        have ht₁ := exec_treeOk (c := .create path typeFile) (u := u) h ht trivial rfl
        rcases ipoFsCreate_effect (u := u) h ht path typeFile with
          ⟨hno, he⟩ | ⟨i, t, hi, hm, hput, he⟩
        · rw [hno]
          have hmade : TextMade (k.files u) path
              ((ipoFsCreate (diskDev u) path typeFile k).2.files u) :=
            Or.inl he
          have hclosed : ∀ v j,
              ¬ ((ipoFsCreate (diskDev u) path typeFile k).2.files u).Opens path v j :=
                fun v j ho => by
            rw [he] at ho
            cases hnone.symm.trans ho.here
          exact .noText hmade hclosed
        · rw [hi]
          exact writeTextAt_step h₁ ht₁ path text append (Or.inr ⟨hm, i, t, hput, he⟩)

/-! ## All calls

The step lemma of the refinement. -/

/-- Every call that is safe for the tree and moves nothing into itself is a step of the store. -/
theorem run_storeStep {r : FsAnswer} (hacc : k.sb.accepted = true) (htag : Tagged k.sb k.disk)
    (hs : StoreSafe u k c) (hc : c.run (diskDev u) k = some (r, k')) :
    StoreStep (k.files u) c r (k'.files u) := by
  cases c with
  | mount =>
      obtain ⟨rfl, rfl⟩ := Prod.mk.inj (Option.some.inj hc)
      rw [ipoFsMount_run, h.super, if_pos hacc]
      exact .mounted
  | create path type =>
      obtain ⟨rfl, rfl⟩ := Prod.mk.inj (Option.some.inj hc)
      rcases ipoFsCreate_effect (u := u) h ht path type with ⟨hno, he⟩ | ⟨i, s, hi, hm, hp, he⟩
      · rw [hno, he]
        exact .notCreated
      · rw [hi, he]
        exact .created hm hp
  | openFd path =>
      obtain ⟨rfl, rfl⟩ := Prod.mk.inj (Option.some.inj hc)
      rcases ipoFsOpen_effect (u := u) ht path with ⟨hrun, hno⟩ | ⟨v, i, ho, hrun⟩
      · rw [hrun]
        exact .notOpened hno
      · rw [hrun, Kernel.files_opened ho.bound]
        exact .opened ho
  | read fd buffer size offset =>
      obtain ⟨rfl, rfl⟩ := Prod.mk.inj (Option.some.inj hc)
      have hsame : (ipoFsRead (diskDev u) fd buffer size offset k).2 = k := by
        rcases ipoFsRead_run u k fd buffer size offset with ⟨-, hrun⟩ | ⟨-, hrun⟩ <;> rw [hrun]
      rw [hsame]
      cases hfd : (k.files u).inodeOf fd with
      | none =>
          rcases ipoFsRead_run u k fd buffer size offset with ⟨hok, -⟩ | ⟨-, hrun⟩
          · cases hfd.symm.trans (Kernel.inodeOf_some.mpr ⟨hok, rfl⟩)
          · rw [hrun]
            exact .notRead hfd
      | some ino =>
          rcases em (∃ p m n b, (k.files u).store p = some (.file ino m n b))
            with ⟨p, m, n, b, hp⟩ | hno
          · obtain ⟨count, out, hrun, hok⟩ := ipoFsRead_effect h ht hfd hp buffer size offset
            rw [hrun]
            exact .read hfd hp hok
          · exact .readUnseen hfd fun p m n b hp => hno ⟨p, m, n, b, hp⟩
  | write fd buffer size offset =>
      obtain ⟨rfl, rfl⟩ := Prod.mk.inj (Option.some.inj hc)
      cases hfd : (k.files u).inodeOf fd with
      | none =>
          rcases ipoFsWrite_run u k fd buffer size offset with ⟨hok, -⟩ | ⟨-, hrun⟩
          · cases hfd.symm.trans (Kernel.inodeOf_some.mpr ⟨hok, rfl⟩)
          · rw [hrun]
            exact .notWritten hfd
      | some ino =>
          obtain ⟨hok, hino⟩ := Kernel.inodeOf_some.mp hfd
          rcases em (∃ p v, (k.files u).store p = some v ∧ v.ino = ino) with ⟨p, v, hp, hv⟩ | hno
          · obtain ⟨-, y, hway, hnode⟩ := ht.view_eq_some.mp hp
            have hy : y = ino := by
              rw [← hv, hnode, Disk.node_ino]
            subst hy
            -- a directory is not written
            have hdir : (k.disk.inodeAt k.sb y).isDir = false := by
              rw [← Bool.not_eq_true]
              intro hc
              have hused := ht.way_used hway
              exact hs.1 hok (hino ▸ ⟨hused.1, hused.2, hc⟩)
            rw [hnode, Disk.node, hdir, if_neg (by decide)] at hp
            obtain ⟨w, n', b', hres, hwok, he⟩ := ipoFsWrite_effect h ht hfd hp buffer size offset
            rw [hres, he]
            exact .written hfd hp hwok
          · have hunseen : ∀ p v, (k.files u).store p = some v → v.ino ≠ ino :=
              fun p v hp hv => hno ⟨p, v, hp, hv⟩
            rw [ipoFsWrite_unseen h ht hs.1 (hino ▸ hunseen)]
            exact .writtenUnseen hfd hunseen
  | writeText path text append =>
      obtain ⟨rfl, rfl⟩ := Prod.mk.inj (Option.some.inj hc)
      exact ipoFsWriteText_step h ht path text append
  | delete path =>
      obtain ⟨rfl, rfl⟩ := Prod.mk.inj (Option.some.inj hc)
      rcases ipoFsDelete_effect (u := u) h ht path with ⟨hno, he⟩ | ⟨s, hyes, hm, hp, he⟩
      · rw [hno, he]
        exact .notDeleted
      · rw [hyes, he]
        exact .deleted hm hp
  | rename fuel oldpath newpath =>
      obtain ⟨b, rfl, hrun⟩ : ∃ b, r = .done b
          ∧ ipoFsRename (diskDev u) fuel oldpath newpath k = (some b, k') := by
        simp only [FsCall.run] at hc
        split at hc
        · cases hc
        · rename_i b k₁ heq
          obtain ⟨rfl, rfl⟩ := Prod.mk.inj (Option.some.inj hc)
          exact ⟨b, rfl, heq⟩
      rcases ipoFsRename_effect h ht htag hs hrun with ⟨he, hplace⟩ | ⟨q, s, rfl, hm, hg, he⟩
      · rw [he]
        cases b with
        | false => exact .notMoved
        | true =>
            obtain ⟨hm, v, hold, hnew⟩ := hplace rfl
            exact .inPlace hm hold hnew
      · rw [he]
        exact .moved hm hg

end

end IpoOs
