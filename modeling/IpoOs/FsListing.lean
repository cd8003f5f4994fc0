import IpoOs.FsDirMap

/-!
# The listing of a directory

`ipo_fs_list_dir` writes the names of the live entries into the caller's
buffer, a line for each, as long as there is room for one more. Its walk is
that of `dir_find_entry`, so what it lists is what a lookup finds.

The listing is the longest prefix of the live entries that fits, with each
name on a line of its own and a NUL at the end. The buffer has to hold one
byte at least.
-/

namespace IpoOs

section

variable {σ : Type} (dev : BlockDev σ) (sb : Superblock)

/-- The loop of `ipo_fs_list_dir` from slot `e` on, `n` of them; `pos` is the end of the text in
`out`. -/
def listDirFrom (din : Inode) (outSize : Nat) :
    (n e pos : Nat) → (out : Buf) → Prog σ (Option Nat × Buf)
  | 0, _, pos, out => pure (some pos, out)
  | n + 1, e, pos, out => do
      let r ← getDataBlockForInode dev sb din (e / 7) false
      match r.1 with
      | none => listDirFrom din outSize n (e + 1) pos out
      | some phys => do
          match ← dev.read phys with
          | none => pure (none, out)
          | some buf =>
              let de := DirEntry.decode buf (e % 7 * 72)
              if de.inode = 0 ∨ de.nameLen = 0 then listDirFrom din outSize n (e + 1) pos out
              else
                let l := de.nameLen.toNat
                if pos + l + 3 ≥ outSize then pure (some pos, out)
                else
                  let out := out.patch pos l (entryName buf (e % 7 * 72))
                  let pos := pos + l
                  if de.type = typeDir then
                    listDirFrom din outSize n (e + 1) (pos + 2)
                      ((out.putByte pos slash).putByte (pos + 1) 10)
                  else listDirFrom din outSize n (e + 1) (pos + 1) (out.putByte pos 10)

/-- `ipo_fs_list_dir`: the length of the text (`none` for -1) and the caller's buffer. -/
def ipoFsListDir (path : CString) (out : Buf) (outSize : Nat) : Prog σ (Option Nat × Buf) := do
  match ← pathResolve dev sb path.chars with
  | none => pure (none, out)
  | some ino => do
      match ← readInode dev sb ino with
      | none => pure (none, out)
      | some din =>
          if ¬ din.isDir then pure (none, out)
          else do
            let r ← listDirFrom dev sb din outSize (din.size.toNat / 72) 0 0 out
            match r.1 with
            | none => pure (none, r.2)
            | some pos =>
                pure (some pos, r.2.putByte (if pos < outSize then pos else outSize - 1) 0)

end

/-! ## Texts in buffers

A text put into a buffer, byte after byte. -/

/-- A text copied to offset `off`. -/
def Buf.putText (b : Buf) (off : Nat) (s : Str) : Buf := b.patch off s.length (cstr s)

section

variable {b : Buf} {off : Nat} {s t : Str}

@[simp] theorem putText_nil : b.putText off [] = b := by
  funext i
  exact Buf.patch_out (by rw [List.length_nil]; omega)

theorem putText_append : (b.putText off s).putText (off + s.length) t = b.putText off (s ++ t) := by
  funext i
  unfold Buf.putText
  rw [List.length_append]
  rcases Nat.lt_or_ge i off with hlt | hge
  · rw [Buf.patch_out (Or.inl (by omega)), Buf.patch_out (Or.inl hlt), Buf.patch_out (Or.inl hlt)]
  rcases Nat.lt_or_ge i (off + s.length) with hs | hs
  · rw [Buf.patch_out (Or.inl hs), Buf.patch_in hge hs, Buf.patch_in hge (by omega),
      cstr_lt (by omega), cstr_lt (by rw [List.length_append]; omega), List.getElem_append_left]
  rcases Nat.lt_or_ge i (off + s.length + t.length) with ht | ht
  · rw [Buf.patch_in hs ht, Buf.patch_in hge (by omega), cstr_lt (by omega),
      cstr_lt (by rw [List.length_append]; omega), List.getElem_append_right (by omega)]
    congr 1
    omega
  · rw [Buf.patch_out (Or.inr ht), Buf.patch_out (Or.inr hs), Buf.patch_out (Or.inr (by omega))]

theorem putByte_eq_putText (c : UInt8) : b.putByte off c = b.putText off [c] := by
  funext i
  unfold Buf.putText
  rcases em (i = off) with rfl | hne
  · rw [Buf.putByte_self, Buf.patch_in (Nat.le_refl _) (Nat.lt_succ_self _), Nat.sub_self]
    rfl
  · rw [Buf.putByte_of_ne hne, Buf.patch_out (by rw [List.length_singleton]; omega)]

theorem putText_putByte {n : Nat} (h : n = off + s.length) (c : UInt8) :
    (b.putText off s).putByte n c = b.putText off (s ++ [c]) := by
  rw [h, putByte_eq_putText, putText_append]

end

/-! ## What is listed

The room is checked for each line before it is written. -/

/-- The line of an entry: its name, and a `/` behind that of a directory. -/
def DirEntry.line (s : DirEntry) : Str :=
  s.nameBytes ++ (if s.type = typeDir then [slash] else []) ++ [10]

def listText (es : List DirEntry) : Str := es.flatMap DirEntry.line

/-- Every entry of the list still has its room when those before it are written from `pos` on. -/
def FitsFrom (outSize : Nat) : (pos : Nat) → List DirEntry → Prop
  | _, [] => True
  | pos, s :: es => pos + s.nameLen.toNat + 3 < outSize ∧ FitsFrom outSize (pos + s.line.length) es

/-- The entries that are written from `pos` on. -/
def listedFrom (outSize : Nat) : (pos : Nat) → List DirEntry → List DirEntry
  | _, [] => []
  | pos, s :: es =>
      if pos + s.nameLen.toNat + 3 < outSize then
        s :: listedFrom outSize (pos + s.line.length) es
      else []

section

variable {outSize pos : Nat} {es longer : List DirEntry}

theorem listedFrom_prefix : listedFrom outSize pos es <+: es := by
  induction es generalizing pos with
  | nil => exact List.prefix_refl []
  | cons s es ih =>
      unfold listedFrom
      split
      · exact (List.prefix_cons_inj s).mpr ih
      · exact List.nil_prefix

theorem fitsFrom_listedFrom : FitsFrom outSize pos (listedFrom outSize pos es) := by
  induction es generalizing pos with
  | nil => trivial
  | cons s es ih =>
      unfold listedFrom
      split
      · rename_i h
        exact ⟨h, ih⟩
      · trivial

theorem listedFrom_longest (h : longer <+: es) (hfit : FitsFrom outSize pos longer) :
    longer <+: listedFrom outSize pos es := by
  induction es generalizing pos longer with
  | nil => exact h
  | cons s es ih =>
      cases longer with
      | nil => exact List.nil_prefix
      | cons s' longer =>
          obtain ⟨rfl, htail⟩ := List.cons_prefix_cons.mp h
          unfold listedFrom
          rw [if_pos hfit.1]
          exact (List.prefix_cons_inj _).mpr (ih htail hfit.2)

end

/-! ## The walk

The loop over the slots is a recursion on the live entries. -/

section

variable {sb : Superblock} {d : Disk} {r : Inode} {outSize : Nat}

/-- The name and the suffix of an entry, as the loop writes them. -/
theorem DirEntry.HasName.putLine {buf : Block} {off pos : Nat} {name : Str} {out : Buf}
    (h : (DirEntry.decode buf off).HasName name) :
    out.patch pos name.length (IpoOs.entryName buf off) = out.putText pos name := by
  funext i
  unfold Buf.putText
  rcases Nat.lt_or_ge i pos with hlt | hge
  · rw [Buf.patch_out (Or.inl hlt), Buf.patch_out (Or.inl hlt)]
  rcases Nat.lt_or_ge i (pos + name.length) with hin | hout
  · rw [Buf.patch_in hge hin, Buf.patch_in hge hin, h.entryName (by omega)]
  · rw [Buf.patch_out (Or.inr hout), Buf.patch_out (Or.inr hout)]

/-- What the loop leaves, `es` being the live entries of the slots that it reads. -/
def listed (outSize pos : Nat) (out : Buf) (es : List DirEntry) : Option Nat × Buf :=
  (some (pos + (listText (listedFrom outSize pos es)).length),
    out.putText pos (listText (listedFrom outSize pos es)))

theorem listed_cons {pos : Nat} {out : Buf} {s : DirEntry} {es : List DirEntry}
    (hfit : pos + s.nameLen.toNat + 3 < outSize) :
    listed outSize pos out (s :: es)
      = listed outSize (pos + s.line.length) (out.putText pos s.line) es := by
  unfold listed
  rw [listedFrom, if_pos hfit]
  show (some (pos + (s.line ++ listText _).length), out.putText pos (s.line ++ listText _)) = _
  rw [putText_append, List.length_append, Nat.add_assoc]

theorem listed_full {pos : Nat} {out : Buf} {s : DirEntry} {es : List DirEntry}
    (hfull : ¬ pos + s.nameLen.toNat + 3 < outSize) :
    listed outSize pos out (s :: es) = (some pos, out) := by
  unfold listed
  rw [listedFrom, if_neg hfull]
  exact congrArg (some pos, ·) putText_nil

variable (u : Block)

theorem listDirFrom_listed (hint : d.IntPtrs r) {n e pos : Nat} {out : Buf}
    (h : ∀ j s, e ≤ j → j < e + n → d.dirSlot r j = some s → s.inode ≠ 0 →
      ∃ name, s.HasName name) :
    listDirFrom (arrayDev u) sb r outSize n e pos out d
      = (listed outSize pos out
          ((List.range' e n).filterMap fun j => (d.dirSlot r j).filter fun s => s.inode ≠ 0),
              d) := by
  induction n generalizing e pos out with
  | zero => exact congrArg (fun b => ((some pos, b), d)) putText_nil.symm
  | succ n ih =>
      have ih' : ∀ {pos out}, listDirFrom (arrayDev u) sb r outSize n (e + 1) pos out d = _ :=
        ih fun j s h1 h2 => h j s (by omega) (by omega)
      rw [List.range'_succ]
      unfold listDirFrom
      rw [Prog.run_bind, getDataBlock_lookup]
      cases hp : d.lookup r (e / 7) with
      | none =>
          -- a slot without a block
          have hslot : d.dirSlot r e = none := by
            refine Option.eq_none_iff_forall_ne_some.mpr fun s hs => ?_
            obtain ⟨p, hp', -⟩ := (dirSlot_lookup hint).mp hs
            rw [hp] at hp'
            cases hp'
          rw [List.filterMap_cons_none (by rw [hslot]; rfl)]
          exact ih'
      | some p =>
          have hslot : d.dirSlot r e = some (DirEntry.decode (d p) (e % 7 * 72)) :=
            (dirSlot_lookup hint).mpr ⟨p, hp, rfl⟩
          have hname := h e _ (Nat.le_refl _) (by omega) hslot
          show ((arrayDev u).read p >>= _ : Prog Disk _) d = _
          rw [Prog.run_bind, arrayDev_read]
          show (if (DirEntry.decode (d p) (e % 7 * 72)).inode = 0
            ∨ (DirEntry.decode (d p) (e % 7 * 72)).nameLen = 0 then _ else _ : Prog Disk _) d = _
          rw [Prog.run_ite]
          generalize hs : DirEntry.decode (d p) (e % 7 * 72) = s at *
          rcases em (s.inode = 0) with hz | hlive
          · rw [List.filterMap_cons_none (by rw [hslot]; simp [Option.filter, hz]),
              if_pos (Or.inl hz)]
            exact ih'
          · obtain ⟨name, hn⟩ := hname hlive
            have hlen : s.nameLen ≠ 0 := by
              intro h0
              have h0' := hn.len
              rw [h0] at h0'
              exact hn.ne_nil (List.length_eq_zero_iff.mp h0'.symm)
            rw [List.filterMap_cons_some (by rw [hslot]; simp [Option.filter, hlive]; rfl),
              if_neg (by simp [hlive, hlen])]
            show (if pos + s.nameLen.toNat + 3 ≥ outSize then _ else _ : Prog Disk _) d = _
            rw [Prog.run_ite]
            rcases Nat.lt_or_ge (pos + s.nameLen.toNat + 3) outSize with hfit | hfull
            · -- the line is written and the walk goes on behind it
              rw [if_neg (by omega), listed_cons hfit, hn.len,
                DirEntry.HasName.putLine (hs ▸ hn)]
              split
              · rename_i hdir
                have hline : s.line = name ++ [slash] ++ [10] := by
                  rw [DirEntry.line, hn.nameBytes, if_pos hdir]
                have hsuffix : pos + name.length + 1 = pos + (name ++ [slash]).length := by
                  simp [Nat.add_assoc]
                have hend : pos + name.length + 2 = pos + s.line.length := by
                  simp [hline, Nat.add_assoc]
                rw [ih', putText_putByte rfl, putText_putByte hsuffix, hend, hline]
              · rename_i hfile
                have hline : s.line = name ++ [10] := by
                  rw [DirEntry.line, hn.nameBytes, if_neg hfile, List.append_nil]
                have hend : pos + name.length + 1 = pos + s.line.length := by
                  simp [hline, Nat.add_assoc]
                rw [ih', putText_putByte rfl, hend, hline]
            · rw [if_pos hfull, listed_full (by omega)]
              rfl

end

/-! ## The listing agrees with the lookup

What is listed is found by `dir_find_entry`, and when everything is listed
every name that is found is listed once. -/

section

variable {outSize pos : Nat} {es : List DirEntry}

theorem DirEntry.line_length_le (s : DirEntry) : s.line.length ≤ s.nameLen.toNat + 2 := by
  have hname : s.nameBytes.length ≤ s.nameLen.toNat := List.length_take_le _ _
  unfold DirEntry.line
  rw [List.length_append, List.length_append]
  split
  · exact Nat.add_le_add_right (Nat.add_le_add_right hname 1) 1
  · exact Nat.add_le_add hname (by decide)

theorem FitsFrom.end_lt (hpos : pos < outSize) (h : FitsFrom outSize pos es) :
    pos + (listText es).length < outSize := by
  induction es generalizing pos with
  | nil => exact hpos
  | cons s es ih =>
      have hline := s.line_length_le
      have hroom := h.1
      have hrest := ih (by omega) h.2
      show pos + (s.line ++ listText es).length < outSize
      rwa [List.length_append, ← Nat.add_assoc]

theorem noNul_listText (h : ∀ s ∈ es, ∃ name, s.HasName name) : (0 : UInt8) ∉ listText es := by
  intro h0
  obtain ⟨s, hs, hline⟩ := List.mem_flatMap.mp h0
  obtain ⟨name, hname⟩ := h s hs
  rw [DirEntry.line, hname.nameBytes, List.mem_append, List.mem_append] at hline
  rcases hline with (hline | hline) | hline
  · exact hname.noNul hline
  · split at hline
    · exact absurd hline (by decide)
    · exact absurd hline List.not_mem_nil
  · exact absurd hline (by decide)

end

section

variable {sb : Superblock} {d : Disk} {dir : Nat} {u : Block}

theorem Disk.NamesOk.live_named {r : Inode} (N : d.NamesOk r) {s : DirEntry}
    (h : s ∈ d.liveEntries r) : ∃ name, s.HasName name := by
  obtain ⟨e, he, hslot, hlive⟩ := mem_liveEntries.mp h
  exact N.named e s he hslot hlive

theorem Disk.NamesOk.nodup_live {r : Inode} (N : d.NamesOk r) :
    ((d.liveEntries r).map DirEntry.nameBytes).Nodup := by
  refine List.pairwise_map.mpr (List.pairwise_filterMap.mpr ?_)
  refine List.Pairwise.imp_of_mem ?_ List.pairwise_lt_range
  intro e e' he he' hlt s hs s' hs' heq
  obtain ⟨hslot, hlive⟩ := Option.filter_eq_some_iff.mp hs
  obtain ⟨hslot', hlive'⟩ := Option.filter_eq_some_iff.mp hs'
  have hlive := of_decide_eq_true hlive
  have hlive' := of_decide_eq_true hlive'
  have hr := List.mem_range.mp he
  have hr' := List.mem_range.mp he'
  obtain ⟨name, hname⟩ := N.named e s hr hslot hlive
  obtain ⟨name', hname'⟩ := N.named e' s' hr' hslot' hlive'
  rw [hname.nameBytes, hname'.nameBytes] at heq
  subst heq
  exact Nat.ne_of_lt hlt
    (N.distinct e e' s s' name ⟨hr, hslot, hlive, hname⟩ ⟨hr', hslot', hlive', hname'⟩)

theorem dirMap_live (hv : sb.ValidIno dir) (hdir : (d.inodeAt sb dir).isDir = true)
    (N : d.NamesOk (d.inodeAt sb dir)) {s : DirEntry}
    (h : s ∈ d.liveEntries (d.inodeAt sb dir)) :
    d.dirMap u sb dir s.nameBytes = some (s.inode, s.type) := by
  obtain ⟨e, he, hslot, hlive⟩ := mem_liveEntries.mp h
  obtain ⟨name, hname⟩ := N.named e s he hslot hlive
  rw [hname.nameBytes]
  exact (dirMap_eq_some u hv hdir N).mpr ⟨e, s, ⟨he, hslot, hlive, hname⟩, rfl, rfl⟩

theorem mem_names_of_dirMap (hv : sb.ValidIno dir) (hdir : (d.inodeAt sb dir).isDir = true)
    (N : d.NamesOk (d.inodeAt sb dir)) {name : Str} {f : UInt32 × UInt8}
    (h : d.dirMap u sb dir name = some f) :
    name ∈ (d.liveEntries (d.inodeAt sb dir)).map DirEntry.nameBytes := by
  obtain ⟨e, s, hs, -⟩ := (dirMap_eq_some u hv hdir N).mp h
  exact List.mem_map.mpr ⟨s, mem_liveEntries.mpr ⟨e, hs.1, hs.2.1, hs.2.2.1⟩, hs.2.2.2.nameBytes⟩

theorem ipoFsListDir_run (O : OwnedVol sb (intBound sb) d) {path : CString}
    (hpath : (pathResolve (arrayDev u) sb path.chars d).1 = some dir) (hv : sb.ValidIno dir)
    (hdir : (d.inodeAt sb dir).isDir = true) (N : d.NamesOk (d.inodeAt sb dir)) (out : Buf)
    {outSize : Nat} (hsize : 1 ≤ outSize) :
    ipoFsListDir (arrayDev u) sb path out outSize d
      = ((some (listText (listedFrom outSize 0 (d.liveEntries (d.inodeAt sb dir)))).length,
          out.putText 0 (listText (listedFrom outSize 0 (d.liveEntries (d.inodeAt sb dir)))
            ++ [0])), d) := by
  have hfits : FitsFrom outSize 0 (listedFrom outSize 0 (d.liveEntries (d.inodeAt sb dir))) :=
    fitsFrom_listedFrom
  have hend := hfits.end_lt hsize
  rw [Nat.zero_add] at hend
  have hread := readOnly_pathResolve u sb path.chars d
  have hloop :=
    @listDirFrom_listed sb d _ outSize u (O.intPtrs dir) (d.inodeAt sb dir).slots 0 0 out
    fun j s _ hj => N.named j s (by omega)
  rw [← List.range_eq_range', ← Disk.liveEntries, Inode.slots] at hloop
  have hpos : 0 + (listText (listedFrom outSize 0 (d.liveEntries (d.inodeAt sb dir)))).length
      = (listText (listedFrom outSize 0 (d.liveEntries (d.inodeAt sb dir)))).length :=
        Nat.zero_add _
  simp only [ipoFsListDir, Prog.run_bind, hpath, show _ = d from hread, readInode_array, if_pos hv,
    hdir, not_true, if_false, hloop, listed, hpos, Prog.run_pure, if_pos hend,
    putText_putByte hpos.symm]

/-- `ipo_fs_list_dir` lists what `dir_find_entry` finds: the longest prefix of the live entries
that fits, as a text that ends inside the buffer. The volume is sound also in that its block
numbers are below 2^31 (`intBound`): `dir_map` keeps a physical block in an `int`. -/
theorem ipoFsListDir_listing (O : OwnedVol sb (intBound sb) d) {path : CString}
    (hpath : (pathResolve (arrayDev u) sb path.chars d).1 = some dir) (hv : sb.ValidIno dir)
    (hdir : (d.inodeAt sb dir).isDir = true) (N : d.NamesOk (d.inodeAt sb dir)) (out : Buf)
    {outSize : Nat} (hsize : 1 ≤ outSize) :
    ∃ shown, (shown <+: d.liveEntries (d.inodeAt sb dir) ∧ FitsFrom outSize 0 shown
        ∧ ∀ longer, longer <+: d.liveEntries (d.inodeAt sb dir) → FitsFrom outSize 0 longer →
          longer <+: shown)
      ∧ ipoFsListDir (arrayDev u) sb path out outSize d
        = ((some (listText shown).length, out.putText 0 (listText shown ++ [0])), d)
      ∧ (0 ∉ listText shown ∧ (listText shown).length < outSize)
      ∧ (∀ s ∈ shown, d.dirMap u sb dir s.nameBytes = some (s.inode, s.type))
      ∧ (shown = d.liveEntries (d.inodeAt sb dir) → ∀ name f, d.dirMap u sb dir name = some f →
          (shown.map DirEntry.nameBytes).count name = 1) := by
  have hshown : listedFrom outSize 0 (d.liveEntries (d.inodeAt sb dir))
      <+: d.liveEntries (d.inodeAt sb dir) := listedFrom_prefix
  have hfits : FitsFrom outSize 0 (listedFrom outSize 0 (d.liveEntries (d.inodeAt sb dir))) :=
    fitsFrom_listedFrom
  have hend := hfits.end_lt hsize
  refine ⟨_, ⟨hshown, hfits, fun longer => listedFrom_longest⟩,
    ipoFsListDir_run O hpath hv hdir N out hsize, ⟨?_, by rwa [Nat.zero_add] at hend⟩, ?_, ?_⟩
  · exact noNul_listText fun s hs => N.live_named (hshown.subset hs)
  · intro s hs
    exact dirMap_live hv hdir N (hshown.subset hs)
  · intro hall name f hf
    rw [hall]
    exact List.count_eq_one_of_mem N.nodup_live (mem_names_of_dirMap hv hdir N hf)

end

/-- The path `/`. -/
def slashPath : CString := ⟨[slash], by decide⟩

/-- The root of a new volume in a buffer that is too short for its last entry. -/
theorem ipoFsListDir_listing_root :
    (pathResolve (arrayDev Buf.zero) (mountedKernel 12 6).sb slashPath.chars
        (mountedKernel 12 6).disk).1 = some 1
    ∧ ∃ shown, (shown <+: (mountedKernel 12 6).disk.liveEntries
          ((mountedKernel 12 6).disk.inodeAt (mountedKernel 12 6).sb 1) ∧ FitsFrom 16 0 shown
        ∧ ∀ longer, longer <+: (mountedKernel 12 6).disk.liveEntries
          ((mountedKernel 12 6).disk.inodeAt (mountedKernel 12 6).sb 1) → FitsFrom 16 0 longer →
          longer <+: shown)
      ∧ ipoFsListDir (arrayDev Buf.zero) (mountedKernel 12 6).sb slashPath Buf.zero 16
          (mountedKernel 12 6).disk
        = ((some (listText shown).length, Buf.zero.putText 0 (listText shown ++ [0])),
          (mountedKernel 12 6).disk)
      ∧ (0 ∉ listText shown ∧ (listText shown).length < 16)
      ∧ (∀ s ∈ shown, (mountedKernel 12 6).disk.dirMap Buf.zero (mountedKernel 12 6).sb 1
        s.nameBytes
          = some (s.inode, s.type))
      ∧ (shown = (mountedKernel 12 6).disk.liveEntries
            ((mountedKernel 12 6).disk.inodeAt (mountedKernel 12 6).sb 1) →
          ∀ name f, (mountedKernel 12 6).disk.dirMap Buf.zero (mountedKernel 12 6).sb 1 name
            = some f →
            (shown.map DirEntry.nameBytes).count name = 1) := by
  have hpath : (pathResolve (arrayDev Buf.zero) (mountedKernel 12 6).sb slashPath.chars
      (mountedKernel 12 6).disk).1 = some 1 := by decide +kernel
  obtain ⟨hv, hdir⟩ := mountedKernel_root
  have hsize : 1 ≤ 16 := by decide
  exact ⟨hpath, ipoFsListDir_listing mountedKernel_volOk.owned hpath hv hdir rootNames_ok Buf.zero
    hsize⟩

end IpoOs
