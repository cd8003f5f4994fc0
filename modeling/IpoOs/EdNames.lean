import IpoOs.EdAgree
import IpoOs.EdContents
import IpoOs.FsNames

/-!
# What the editor and the kernel find in a directory

The kernel puts seven entries in a block and leaves eight bytes over; the
editor takes the blocks for one string of entries. The two layouts agree
in the first block, so on directories of at most seven slots, live or
dead, `dir_entries` yields the kernel's live entries and `find_entry`
finds what `dir_find_entry` finds. From the eighth slot on they differ.

Names are compared as strings on this side and as bytes on the other, so the
agreement needs the names on the volume to be ASCII or at least to be UTF-8;
those that `is_valid_filename` lets through are ASCII.
-/

namespace IpoOs

/-! ## Decoding names

Encoding is injective, and an ASCII name decodes to its characters. -/

theorem encodeUtf8_toByteArray (s : PyStr) : (encodeUtf8 s).toByteArray = s.utf8Encode := rfl

theorem decodeUtf8_encodeUtf8 (s : PyStr) : decodeUtf8 (encodeUtf8 s) = some s := by
  rw [decodeUtf8, encodeUtf8_toByteArray, List.utf8Decode?_utf8Encode]
  rfl

theorem encodeUtf8_inj {s t : PyStr} (h : encodeUtf8 s = encodeUtf8 t) : s = t := by
  have hs := decodeUtf8_encodeUtf8 s
  rw [h, decodeUtf8_encodeUtf8] at hs
  exact (Option.some.inj hs).symm

def asciiStr (s : Str) : PyStr := s.map fun c => Char.ofNat c.toNat

theorem encodeChar_ascii {c : UInt8} (h : c < 128) :
    String.utf8EncodeChar (Char.ofNat c.toNat) = [c] := by
  have hall : ∀ n : Fin 128, String.utf8EncodeChar (Char.ofNat n.val) = [UInt8.ofNat n.val] := by
    decide +kernel
  have hlt : c.toNat < 128 := h
  rw [hall ⟨c.toNat, hlt⟩, UInt8.ofNat_toNat]

theorem encodeUtf8_asciiStr {s : Str} (h : ∀ c ∈ s, c < 128) : encodeUtf8 (asciiStr s) = s := by
  induction s with
  | nil => rfl
  | cons c s ih =>
      have hc := h c List.mem_cons_self
      have hs := ih fun b hb => h b (List.mem_cons_of_mem c hb)
      show String.utf8EncodeChar _ ++ encodeUtf8 (asciiStr s) = c :: s
      rw [encodeChar_ascii hc, hs]
      rfl

theorem StoredName.ascii {name : Str} (h : StoredName name) : ∀ c ∈ name, c < 128 := by
  have hchar : ∀ c : UInt8, isNameChar c = true → c < 128 := by
    intro c hc
    simp only [isNameChar, Bool.or_eq_true, Bool.and_eq_true, decide_eq_true_eq, beq_iff_eq,
      UInt8.le_iff_toNat_le, ← UInt8.toNat_inj] at hc
    rw [UInt8.lt_iff_toNat_lt]
    simp at hc ⊢
    omega
  rcases h with h | rfl | rfl
  · simp only [isValidFilename, Bool.and_eq_true, List.all_eq_true, decide_eq_true_eq] at h
    exact fun c hc => hchar c (h.1.1.2 c hc)
  · intro c hc
    rw [List.mem_singleton.mp hc]
    decide
  · intro c hc
    have h46 : c = 46 := by simpa [dotdot] using hc
    rw [h46]
    decide

/-- An entry of the kernel as the editor shows it. -/
def PyEntry.ofEntry (s : DirEntry) : PyEntry := ⟨s.inode.toNat, s.type, asciiStr s.nameBytes⟩

theorem DirEntry.Named.encode_name {s : DirEntry} (h : s.Named) :
    encodeUtf8 (asciiStr s.nameBytes) = s.nameBytes := by
  rcases h with ⟨hlen, -⟩ | ⟨name, hname, he⟩
  · rw [nameBytes_eq_nil hlen]
    rfl
  · rw [he, nameBytes_makeEntry hname.length_lt]
    exact encodeUtf8_asciiStr hname.ascii

theorem DirEntry.Named.decode_name {s : DirEntry} (h : s.Named) :
    decodeUtf8 s.nameBytes = some (asciiStr s.nameBytes) := by
  have hdec := decodeUtf8_encodeUtf8 (asciiStr s.nameBytes)
  rwa [h.encode_name] at hdec

theorem DirEntry.Named.name_eq {s : DirEntry} (h : s.Named) (name : PyStr) :
    (PyEntry.ofEntry s).name = name ↔ s.nameBytes = encodeUtf8 name := by
  show asciiStr s.nameBytes = name ↔ _
  constructor
  · rintro rfl
    exact h.encode_name.symm
  · intro hn
    exact encodeUtf8_inj (h.encode_name.trans hn)

/-! ## Reading the blocks

The editor's block loop returns the blocks that the kernel looks up. -/

section

variable {img : DiskImage} (W : img.Whole) {r : Inode}
  (hbelow : ∀ pos, img.disk.ptr r pos < min img.sb.fsSizeBlocks.toNat 2147483648)

include W

theorem edReadInode_whole {ino : Nat} (hv : img.sb.ValidIno ino) :
    edReadInode ino img = (.ok (PyInode.ofInode (img.disk.inodeAt img.sb ino)), img) := by
  have hoffset : slotOffset ino = inodeOffset ino := by
    unfold slotOffset inodeOffset
    have := hv.1
    omega
  have hblock : slotBlock img.sb ino = (inodeBlock img.sb ino : Int) := by
    rw [W.sound.inodeBlock_eq hv]
    unfold slotBlock
    have := hv.1
    omega
  have hlow := W.sound.inodeBlock_lt hv
  have hdata := W.sound.data
  have hread := readBlock_run W (p := inodeBlock img.sb ino) (by omega)
  unfold edReadInode
  refine (Ed.run_bind_ok (superblock_run img)).trans ?_
  rw [if_neg (by have := hv.1; have := hv.2; omega), hblock, hoffset]
  refine (Ed.run_bind_ok hread).trans ?_
  rw [Disk.inodeAt, if_pos hv]
  rfl

include hbelow

theorem edGetBlock_lookup (b : Nat) :
    edGetBlockForInode (PyInode.ofInode r) b false img
      = (.ok (asPy (img.disk.lookup r b), PyInode.ofInode r), img) := by
  have hread := @getBlockForInode_mirrors img W Buf.zero r false b hbelow nofun nofun nofun
  have hrun := hread.run
  rw [getDataBlock_lookup, DiskImage.withDisk_disk] at hrun
  exact hrun

/-- The block loop returns the mapped blocks, up to the first that is not. -/
theorem edReadBlocks_run (n b : Nat) :
    ∃ blocks, edReadBlocks (PyInode.ofInode r) n b img = (.ok blocks, img)
      ∧ ∀ p, 0 < n → img.disk.lookup r b = some p → blocks[0]? = some (img.disk p) := by
  induction n generalizing b with
  | zero => exact ⟨[], rfl, fun p hn => absurd hn (Nat.lt_irrefl 0)⟩
  | succ n ih =>
      have hget := edGetBlock_lookup W hbelow b
      cases hlook : img.disk.lookup r b with
      | none =>
          refine ⟨[], ?_, nofun⟩
          rw [hlook] at hget
          unfold edReadBlocks
          rw [Ed.run_bind_ok hget]
          rfl
      | some p =>
          rw [hlook] at hget
          obtain ⟨pos, -, hptr, -, -⟩ := Disk.lookup_eq_some.mp hlook
          have hlt := hbelow pos
          have hread := readBlock_run W (p := p) (by omega)
          obtain ⟨rest, hrest, -⟩ := ih (b + 1)
          refine ⟨img.disk p :: rest, ?_, ?_⟩
          · unfold edReadBlocks
            rw [Ed.run_bind_ok hget]
            show ((if (p : Int) < 0 then _ else _ : Ed _) img) = _
            rw [if_neg (by omega)]
            show (readBlock (p : Int) >>= _) img = _
            rw [Ed.run_bind_ok hread]
            show (edReadBlocks _ n (b + 1) >>= _) img = _
            rw [Ed.run_bind_ok hrest]
            rfl
          · intro q _ hq
            rw [List.getElem?_cons_zero, Option.some.inj hq]

end

/-! ## The entries of the first block

Seven entries at multiples of 72 in both layouts. -/

section

variable {d : Disk} {r : Inode} {blocks : List Block}

theorem edSlot_first {p : Nat} (hblock : blocks[0]? = some (d p)) {e : Nat} (he : e < 7)
    {s : DirEntry} (hs : DirEntry.decode (d p) (e % 7 * 72) = s) (hnamed : s.Named) :
    edSlot blocks e = .ok (if s.inode = 0 then none else some (PyEntry.ofEntry s)) := by
  have hlen : 0 < blocks.length := (List.getElem?_eq_some_iff.mp hblock).1
  have hdec : DirEntry.decode (joined blocks) (72 * e) = s := by
    rw [← hs]
    refine DirEntry.decode_congr fun i hi => ?_
    have hdiv : (72 * e + i) / 512 = 0 := by omega
    have hmod : (72 * e + i) % 512 = e % 7 * 72 + i := by omega
    rw [joined, hdiv, hmod, List.getD_eq_getElem?_getD, hblock, Option.getD_some]
  unfold edSlot
  rw [if_neg (by omega), hdec]
  show (if s.inode = 0 then _ else _) = _
  rcases em (s.inode = 0) with hz | hz
  · rw [if_pos hz, if_pos hz]
  · rw [if_neg hz, if_neg hz, hnamed.decode_name]
    rfl

/-- Over slots of the first block the editor's walk yields the live entries. -/
theorem edEntriesFrom_live {n e : Nat} (hn : e + n ≤ 7)
    (h : ∀ j, e ≤ j → j < e + n → ∃ p s, blocks[0]? = some (d p)
      ∧ DirEntry.decode (d p) (j % 7 * 72) = s ∧ d.dirSlot r j = some s ∧ s.Named) :
    edEntriesFrom blocks n e = .ok (((List.range' e n).filterMap fun j =>
      (d.dirSlot r j).filter fun s => s.inode ≠ 0).map PyEntry.ofEntry) := by
  induction n generalizing e with
  | zero => rfl
  | succ n ih =>
      have ih' := @ih (e + 1) (by omega) fun j h1 h2 => h j (by omega) (by omega)
      obtain ⟨p, s, hblock, hs, hslot, hnamed⟩ := h e (Nat.le_refl e) (by omega)
      rw [List.range'_succ]
      unfold edEntriesFrom
      rw [edSlot_first hblock (by omega) hs hnamed]
      rcases em (s.inode = 0) with hz | hz
      · rw [if_pos hz, List.filterMap_cons_none (by rw [hslot]; simp [Option.filter, hz])]
        exact ih'
      · rw [if_neg hz, List.filterMap_cons_some (by rw [hslot]; simp [Option.filter, hz]; rfl),
          ih']
        rfl

/-- `find_entry` takes the first entry of the name that `dir_entries` yields. -/
theorem edFindFrom_find (name : PyStr) {n i : Nat} {l : List PyEntry}
    (h : edEntriesFrom blocks n i = .ok l) :
    edFindFrom blocks name n i = .ok (l.find? fun e => e.name = name) := by
  induction n generalizing i l with
  | zero =>
      obtain rfl := Except.ok.inj h
      rfl
  | succ n ih =>
      unfold edEntriesFrom at h
      unfold edFindFrom
      cases hs : edSlot blocks i with
      | error err =>
          rw [hs] at h
          cases h
      | ok slot =>
          rw [hs] at h
          cases slot with
          | none => exact ih h
          | some e =>
              cases hrest : edEntriesFrom blocks n (i + 1) with
              | error err =>
                  rw [hrest] at h
                  cases h
              | ok rest =>
                  rw [hrest] at h
                  obtain rfl := Except.ok.inj h
                  show (if e.name = name then _ else _) = _
                  rcases em (e.name = name) with hn | hn
                  · rw [if_pos hn, List.find?_cons_of_pos (by simpa using hn)]
                  · rw [if_neg hn, List.find?_cons_of_neg (by simpa using hn)]
                    exact ih hrest

end

/-! ## A directory of at most seven slots

The editor's list of entries is the kernel's, and the searches agree for
every name that is asked for. -/

section

variable {img : DiskImage} (W : img.Whole) (O : OwnedVol img.sb (intBound img.sb) img.disk)

theorem OwnedVol.below {sb : Superblock} {hi : Nat} {d : Disk} (O : OwnedVol sb hi d)
    (hpos : 0 < hi) (i : Nat) (pos : Pos) : d.ptr (d.inodeAt sb i) pos < hi := by
  rcases em (d.ptr (d.inodeAt sb i) pos = 0) with h0 | h0
  · rw [h0]
    exact hpos
  · exact O.upper (i, pos) h0

include W O

theorem edRead_entries {i : Nat} (hok : img.disk.DirOk img.sb i)
    (hfew : (img.disk.inodeAt img.sb i).slots ≤ 7) :
    ∃ blocks, edReadBlocks (PyInode.ofInode (img.disk.inodeAt img.sb i))
        (blocksFor (img.disk.inodeAt img.sb i).size.toNat) 0 img = (.ok blocks, img)
      ∧ edEntriesFrom blocks (img.disk.inodeAt img.sb i).slots 0
        = .ok ((img.disk.liveEntries (img.disk.inodeAt img.sb i)).map PyEntry.ofEntry) := by
  have hpos : 0 < intBound img.sb := by
    have h1 := W.sound.first
    have h2 := W.sound.inodeBitmap
    have h3 := W.sound.blockBitmap
    have h4 := W.sound.inodeTable
    have h5 := W.sound.data
    unfold intBound
    omega
  obtain ⟨blocks, hrun, hfirst⟩ := edReadBlocks_run W (O.below hpos i)
    (blocksFor (img.disk.inodeAt img.sb i).size.toNat) 0
  refine ⟨blocks, hrun, ?_⟩
  rw [Disk.liveEntries, List.range_eq_range']
  refine edEntriesFrom_live (by omega) fun j _ hj => ?_
  obtain ⟨s, hs, hnamed⟩ := hok j (by omega)
  obtain ⟨pos, hposof, h0, hdec⟩ := (Disk.dirSlot_eq_some (O.intPtrs i)).mp hs
  have hdiv : j / 7 = 0 := by omega
  have hlook : img.disk.lookup (img.disk.inodeAt img.sb i) 0
      = some (img.disk.ptr (img.disk.inodeAt img.sb i) pos) :=
    Disk.lookup_eq_some.mpr ⟨pos, by rw [← hdiv]; exact hposof, rfl, h0, O.intPtrs i pos⟩
  have hblocks : 0 < blocksFor (img.disk.inodeAt img.sb i).size.toNat := by
    unfold Inode.slots at hj
    unfold blocksFor
    omega
  exact ⟨_, s, hfirst _ hblocks hlook, hdec, hs, hnamed⟩

theorem edDirEntries_live {i : Nat} (hok : img.disk.DirOk img.sb i)
    (hfew : (img.disk.inodeAt img.sb i).slots ≤ 7) :
    edDirEntries (PyInode.ofInode (img.disk.inodeAt img.sb i)) img
      = (.ok ((img.disk.liveEntries (img.disk.inodeAt img.sb i)).map PyEntry.ofEntry), img) := by
  obtain ⟨blocks, hrun, hentries⟩ := edRead_entries W O hok hfew
  unfold edDirEntries
  rcases em ((PyInode.ofInode (img.disk.inodeAt img.sb i)).size = 0) with hz | hz
  · have hslots : (img.disk.inodeAt img.sb i).slots = 0 := by
      rw [Inode.slots, show (img.disk.inodeAt img.sb i).size.toNat = 0 from hz]
    rw [if_pos hz, Disk.liveEntries, hslots]
    rfl
  · rw [if_neg hz]
    exact (Ed.run_bind_ok hrun).trans (Prod.ext hentries rfl)

theorem edFindEntry_live {i : Nat} (hv : img.sb.ValidIno i) (hok : img.disk.DirOk img.sb i)
    (hfew : (img.disk.inodeAt img.sb i).slots ≤ 7) (name : PyStr) :
    edFindEntry i name img
      = (.ok (((img.disk.liveEntries (img.disk.inodeAt img.sb i)).map PyEntry.ofEntry).find?
          fun e => e.name = name), img) := by
  obtain ⟨blocks, hrun, hentries⟩ := edRead_entries W O hok hfew
  unfold edFindEntry
  rw [Ed.run_bind_ok (edReadInode_whole W hv)]
  rcases em ((PyInode.ofInode (img.disk.inodeAt img.sb i)).size = 0) with hz | hz
  · have hslots : (img.disk.inodeAt img.sb i).slots = 0 := by
      rw [Inode.slots, show (img.disk.inodeAt img.sb i).size.toNat = 0 from hz]
    rw [if_pos hz, Disk.liveEntries, hslots]
    rfl
  · rw [if_neg hz]
    exact (Ed.run_bind_ok hrun).trans (Prod.ext (edFindFrom_find name hentries) rfl)

end

theorem find?_congr {α : Type} {p q : α → Bool} {l : List α} (h : ∀ a ∈ l, p a = q a) :
    l.find? p = l.find? q := by
  induction l with
  | nil => rfl
  | cons a l ih =>
      have hl := ih fun b hb => h b (List.mem_cons_of_mem a hb)
      rw [List.find?_cons, List.find?_cons, h a List.mem_cons_self, hl]

theorem named_of_live {sb : Superblock} {d : Disk} {i : Nat} (h : d.DirOk sb i) {s : DirEntry}
    (hs : s ∈ d.liveEntries (d.inodeAt sb i)) : s.Named := by
  obtain ⟨e, he, hslot⟩ := List.mem_filterMap.mp hs
  obtain ⟨t, ht, hnamed⟩ := h e (List.mem_range.mp he)
  rw [ht] at hslot
  obtain ⟨rfl, -⟩ := Option.filter_eq_some_iff.mp hslot |>.imp Option.some.inj id
  exact hnamed

/-- From a sound format on, in every run that writes no directory through a descriptor:
for every directory of at most seven slots, `dir_entries` yields the kernel's live
entries in order, and `find_entry` finds an inode under a name exactly when
`dir_find_entry` does. -/
theorem dirEntries_agree {u : Block} {start totalBlocks totalInodes : UInt32}
    {k₀ k k' : Kernel Disk}
    (hf : ipoFsFormat (diskDev u) start totalBlocks totalInodes k₀ = (true, k))
    (htable : TableFits totalInodes) (hbitmap : BitmapFits totalBlocks totalInodes)
    (hr : FsRun u FilesWritten k k') (i : Nat) (hlive : k'.disk.LiveDir k'.sb i)
    (hfew : (k'.disk.inodeAt k'.sb i).slots ≤ 7) (img : DiskImage) (hsb : img.sb = k'.sb)
    (hdisk : img.disk = k'.disk) (hwhole : img.startLba + k'.sb.fsSizeBlocks.toNat ≤ img.count) :
    (∃ l, edDirEntries (PyInode.ofInode (k'.disk.inodeAt k'.sb i)) img = (.ok l, img)
      ∧ l.map (fun e => (e.inode, e.type, encodeUtf8 e.name))
        = (k'.disk.liveEntries (k'.disk.inodeAt k'.sb i)).map fun s =>
            (s.inode.toNat, s.type, s.nameBytes))
    ∧ ∀ name, name ≠ [] → ∀ n,
      (∃ e, edFindEntry i name img = (.ok (some e), img) ∧ e.inode = n)
      ↔ ∃ de p j, (dirFindEntry (arrayDev u) k'.sb i (encodeUtf8 name) k'.disk).1 = some (de, p, j)
        ∧ de.inode.toNat = n := by
  have hvol := FsRun.volOk (hr.mono fun _ _ _ => trivial) (ipoFsFormat_ok hf htable hbitmap)
  have hdirs := hr.dirsOk (ipoFsFormat_ok hf htable hbitmap) (ipoFsFormat_dirsOk hf htable hbitmap)
  have hok := hdirs i hlive
  have W : img.Whole := ⟨hsb ▸ hvol.layout, hsb ▸ hwhole⟩
  have O : OwnedVol img.sb (intBound img.sb) img.disk := by
    rw [hsb, hdisk]
    exact hvol.owned
  have hentries := edDirEntries_live W O (i := i) (by rw [hsb, hdisk]; exact hok)
    (by rw [hsb, hdisk]; exact hfew)
  have hfind := edFindEntry_live W O (i := i) (hsb ▸ hlive.1) (by rw [hsb, hdisk]; exact hok)
    (by rw [hsb, hdisk]; exact hfew)
  rw [hsb, hdisk] at hentries hfind
  refine ⟨⟨_, hentries, ?_⟩, fun name hname n => ?_⟩
  · rw [List.map_map]
    refine List.map_congr_left fun s hs => ?_
    show (s.inode.toNat, s.type, encodeUtf8 (asciiStr s.nameBytes)) = _
    rw [(named_of_live hok hs).encode_name]
  · have hne : encodeUtf8 name ≠ [] := fun hc => hname (encodeUtf8_inj (t := []) hc)
    have hkernel := dirFindEntry_find u hok hlive.1 hlive.2.2 hne
    have hsame : ((k'.disk.liveEntries (k'.disk.inodeAt k'.sb i)).map PyEntry.ofEntry).find?
          (fun e => e.name = name)
        = ((dirFindEntry (arrayDev u) k'.sb i (encodeUtf8 name) k'.disk).1.map (·.1)).map
            PyEntry.ofEntry := by
      rw [hkernel, List.find?_map]
      congr 1
      exact find?_congr fun s hs => decide_eq_decide.mpr ((named_of_live hok hs).name_eq name)
    rw [hfind, hsame]
    cases hres : (dirFindEntry (arrayDev u) k'.sb i (encodeUtf8 name) k'.disk).1 with
    | none =>
        constructor
        · rintro ⟨e, he, -⟩
          cases (Prod.mk.inj he).1
        · rintro ⟨de, p, j, he, -⟩
          cases he
    | some found =>
        obtain ⟨de, p, j⟩ := found
        constructor
        · rintro ⟨e, he, hn⟩
          obtain rfl := Option.some.inj (Except.ok.inj (Prod.mk.inj he).1)
          exact ⟨de, p, j, rfl, hn⟩
        · rintro ⟨de', p', j', he, hn⟩
          obtain ⟨rfl, -⟩ := Prod.mk.inj (Option.some.inj he)
          exact ⟨_, rfl, hn⟩

/-! ## A new volume, and one with an eighth slot

The eighth entry is in the second block for the kernel, and at byte 504 of
the joined blocks for the editor. -/

theorem mountedKernel_filesWritten :
    FsRun Buf.zero FilesWritten (formattedKernel 12 6) (mountedKernel 12 6) := by
  refine Relation.ReflTransGen.single ⟨.mount, trivial, ?_⟩
  rw [mountedKernel, ← formattedKernel_start]
  exact rfl

/-- The root of a new volume. -/
theorem dirEntries_agree_root :
    (∃ l, edDirEntries
      (PyInode.ofInode ((mountedKernel 12 6).disk.inodeAt (mountedKernel 12 6).sb 1))
        (imageOf (mountedKernel 12 6)) = (.ok l, imageOf (mountedKernel 12 6))
      ∧ l.map (fun e => (e.inode, e.type, encodeUtf8 e.name))
        = ((mountedKernel 12 6).disk.liveEntries
            ((mountedKernel 12 6).disk.inodeAt (mountedKernel 12 6).sb 1)).map fun s =>
            (s.inode.toNat, s.type, s.nameBytes))
    ∧ ∀ name, name ≠ [] → ∀ n,
      (∃ e, edFindEntry (1 : Nat) name (imageOf (mountedKernel 12 6))
          = (.ok (some e), imageOf (mountedKernel 12 6)) ∧ e.inode = n)
      ↔ ∃ de p j, (dirFindEntry (arrayDev Buf.zero) (mountedKernel 12 6).sb 1 (encodeUtf8 name)
          (mountedKernel 12 6).disk).1 = some (de, p, j) ∧ de.inode.toNat = n := by
  have hroot : (mountedKernel 12 6).disk.LiveDir (mountedKernel 12 6).sb 1 := by decide +kernel
  have hslots : ((mountedKernel 12 6).disk.inodeAt (mountedKernel 12 6).sb 1).slots = 4 := by
    decide +kernel
  exact dirEntries_agree formattedKernel_run (by decide) (by decide) mountedKernel_filesWritten 1
    hroot (by rw [hslots]; decide) (imageOf (mountedKernel 12 6)) (imageOf_sb _) (imageOf_disk _)
    (by decide +kernel)

/-- The mounted kernel after three files are made in the root. -/
def sevenKernel : Kernel Disk :=
  (ipoFsCreate (diskDev Buf.zero) (rootPath [99] (by decide)) typeFile
    (ipoFsCreate (diskDev Buf.zero) (rootPath [98] (by decide)) typeFile
      (ipoFsCreate (diskDev Buf.zero) (rootPath [97] (by decide)) typeFile
        (mountedKernel 12 6)).2).2).2

/-- The same after the last file is renamed: the new entry takes the eighth slot. -/
def eightKernel : Kernel Disk :=
  (ipoFsRename (diskDev Buf.zero) 1 (rootPath [99] (by decide)) (rootPath [100] (by decide))
    sevenKernel).2

theorem sevenKernel_renamed :
    (ipoFsRename (diskDev Buf.zero) 1 (rootPath [99] (by decide)) (rootPath [100] (by decide))
      sevenKernel).1 = some true := by
  decide +kernel

theorem eightKernel_exec :
    ipoFsRename (diskDev Buf.zero) 1 (rootPath [99] (by decide)) (rootPath [100] (by decide))
      sevenKernel = (some true, eightKernel) := by
  rw [← sevenKernel_renamed, eightKernel]

theorem eightKernel_run : FsRun Buf.zero FilesWritten (mountedKernel 12 6) eightKernel := by
  refine .tail (.tail (.tail (.single ⟨.create (rootPath [97] (by decide)) typeFile, trivial, rfl⟩)
    ⟨.create (rootPath [98] (by decide)) typeFile, trivial, rfl⟩)
    (c := sevenKernel) ⟨.create (rootPath [99] (by decide)) typeFile, trivial, rfl⟩)
    ⟨.rename 1 (rootPath [99] (by decide)) (rootPath [100] (by decide)), trivial, ?_⟩
  simp only [FsCall.exec, eightKernel_exec]

/-- The kernel finds the entry in the eighth slot of the root, the editor does not. -/
theorem dirEntries_eighth_differs :
    FsRun Buf.zero FilesWritten (mountedKernel 12 6) eightKernel
    ∧ eightKernel.disk.LiveDir eightKernel.sb 1
    ∧ (eightKernel.disk.inodeAt eightKernel.sb 1).slots = 8
    ∧ (dirFindEntry (arrayDev Buf.zero) eightKernel.sb 1 (encodeUtf8 ['d'])
        eightKernel.disk).1.map (fun f => f.1.inode.toNat) = some 6
    ∧ (edFindEntry 1 ['d'] (imageOf eightKernel)).1.toOption = some none :=
  ⟨eightKernel_run, by decide +kernel, by decide +kernel, by decide +kernel, by decide +kernel⟩

end IpoOs
