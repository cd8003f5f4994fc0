import IpoOs.EdFiles
import IpoOs.FsTaken

/-!
# Entries added by the editor

`dir_add_entry` packs an entry with the length of the name in characters
and the first 64 bytes of its encoding, and writes it at the byte size of
the directory. So an entry reads back when its name has as many bytes as
characters, at most 64 of them, and when it does not reach over the end
of a block: a block with an entry over its end is longer than a block,
which `write_block` refuses.

What an addition promises is stated with the directory before it: it reads
to its end as a list of entries, and afterwards it reads to its end as that
list with the new entry. So a sequence of additions is an induction with
nothing else to carry, and the condition of each call is computed from the
names before it.
-/

namespace IpoOs

/-- What is added: a name, an inode number and a type. -/
structure Addition where
  name : PyStr
  ino : Int
  type : Int

namespace Addition

/-- `struct.pack` raises on it. -/
def Refused (a : Addition) : Prop :=
  ¬ fitsWord a.ino ∨ ¬ fitsByte a.type ∨ 256 ≤ a.name.length

/-- The entry that is packed can be read back. -/
def ReadsBack (a : Addition) : Prop :=
  a.ino ≠ 0 ∧ (encodeUtf8 a.name).length = a.name.length ∧ a.name.length ≤ 64

instance : DecidablePred Refused := fun _ => inferInstanceAs (Decidable (_ ∨ _ ∨ _))

instance : DecidablePred ReadsBack := fun _ => inferInstanceAs (Decidable (_ ∧ _ ∧ _))

/-- The entry as `dir_entries` is to yield it. -/
def entry (a : Addition) : PyEntry := ⟨a.ino.toNat, packByte a.type, a.name⟩

def packed (a : Addition) : DirEntry where
  inode := packWord a.ino
  type := packByte a.type
  nameLen := UInt8.ofNat a.name.length
  name := fun i => (encodeUtf8 a.name).getD i.val 0

/-- The block of byte `size` of a directory with the entry written there. -/
def putAt (a : Addition) (size : Nat) (b : Block) : Block := b.patch (size % 512) 72 a.packed.encode

/-- `dir_add_entry`. -/
def run (a : Addition) (dir : Nat) : Ed Bool := edDirAddEntry dir a.name a.ino a.type

end Addition

/-! ## Names packed and read back

The field holds the first 64 bytes and the length in characters; the name
reads back when the two agree. -/

theorem toByteArray_inj {b c : List UInt8} (h : b.toByteArray = c.toByteArray) : b = c := by
  have hdata := congrArg ByteArray.data h
  rw [List.data_toByteArray, List.data_toByteArray] at hdata
  exact Array.toList_inj.mpr hdata |>.trans rfl

theorem decodeUtf8_eq_some {b : List UInt8} {s : PyStr} :
    decodeUtf8 b = some s ↔ b = encodeUtf8 s := by
  constructor
  · intro h
    have hsome : b.toByteArray.utf8Decode?.isSome := by
      unfold decodeUtf8 at h
      rw [← Option.isSome_map (f := Array.toList), h]
      rfl
    obtain ⟨m, hm⟩ := ByteArray.isSome_utf8Decode?_iff.mp hsome
    have hb : b = encodeUtf8 m := toByteArray_inj (hm.trans (encodeUtf8_toByteArray m).symm)
    rw [hb, decodeUtf8_encodeUtf8] at h
    rw [hb, Option.some.inj h]
  · rintro rfl
    exact decodeUtf8_encodeUtf8 s

theorem length_le_encodeUtf8 (s : PyStr) : s.length ≤ (encodeUtf8 s).length := by
  induction s with
  | nil => exact Nat.le_refl 0
  | cons c s ih =>
      have hc := c.utf8Size_pos
      have hlen : (encodeUtf8 (c :: s)).length = c.utf8Size + (encodeUtf8 s).length := by
        rw [encodeUtf8, List.flatMap_cons, List.length_append, String.length_utf8EncodeChar]
        rfl
      rw [hlen, List.length_cons]
      omega

namespace Addition

variable {a : Addition}

theorem not_refused : ¬ a.Refused ↔ fitsWord a.ino ∧ fitsByte a.type ∧ a.name.length < 256 := by
  rw [Refused, not_or, not_or, not_not, not_not, Nat.not_le]

theorem length_nameBytes (h : ¬ a.Refused) :
    a.packed.nameBytes.length = min a.name.length 64 := by
  have hlt := (not_refused.mp h).2.2
  have hlen : a.packed.nameLen.toNat = a.name.length := by
    show (UInt8.ofNat a.name.length).toNat = _
    rw [UInt8.toNat_ofNat', Nat.mod_eq_of_lt hlt]
  unfold DirEntry.nameBytes
  rw [List.length_take, List.length_ofFn, hlen]

theorem nameBytes_packed (h : ¬ a.Refused) (hle : (encodeUtf8 a.name).length = a.name.length)
    (h64 : a.name.length ≤ 64) : a.packed.nameBytes = encodeUtf8 a.name := by
  have hlen := a.length_nameBytes h
  unfold DirEntry.nameBytes at hlen ⊢
  refine List.ext_getElem (by omega) fun j hj hj' => ?_
  rw [List.getElem_take, List.getElem_ofFn]
  exact cstr_lt hj'

/-- The packed name is the name again when it has no more bytes than characters and fits. -/
theorem decode_packed (h : ¬ a.Refused) :
    decodeUtf8 a.packed.nameBytes = some a.name
      ↔ (encodeUtf8 a.name).length = a.name.length ∧ a.name.length ≤ 64 := by
  rw [decodeUtf8_eq_some]
  constructor
  · intro hname
    have hlen := a.length_nameBytes h
    have hle := length_le_encodeUtf8 a.name
    rw [hname] at hlen
    omega
  · rintro ⟨hle, h64⟩
    exact nameBytes_packed h hle h64

theorem packEntry_run (a : Addition) (img : DiskImage) :
    packEntry a.ino a.type a.name.length (encodeUtf8 a.name) img
      = if a.Refused then (.error .struct, img) else (.ok a.packed, img) := by
  unfold packEntry
  by_cases h : a.Refused
  · rw [if_pos h, if_neg fun hc => not_refused.mpr hc h]
    rfl
  · rw [if_neg h, if_pos (not_refused.mp h)]
    rfl

end Addition

/-! ## The slots of a directory

Entries of the joined blocks, which depend on their own 72 bytes only. -/

section

variable {blocks blocks' : List Block}

theorem joined_map {f : Nat → Block} {n x : Nat} (h : x < 512 * n) :
    joined ((List.range n).map f) x = f (x / 512) (x % 512) := by
  have hlt : x / 512 < n := by omega
  unfold joined
  rw [List.getD_eq_getElem?_getD, List.getElem?_map, List.getElem?_range hlt]
  rfl

theorem edSlot_congr {i : Nat} (h : 72 * i + 72 ≤ 512 * blocks.length)
    (h' : 72 * i + 72 ≤ 512 * blocks'.length)
    (hj : ∀ k, k < 72 → joined blocks' (72 * i + k) = joined blocks (72 * i + k)) :
    edSlot blocks' i = edSlot blocks i := by
  have hdec : DirEntry.decode (joined blocks') (72 * i)
      = DirEntry.decode (joined blocks) (72 * i) :=
    DirEntry.decode_congr hj
  unfold edSlot
  rw [if_neg (Nat.not_lt.mpr h), if_neg (Nat.not_lt.mpr h'), hdec]

theorem edEntriesFrom_congr {n i : Nat} (h : 72 * (i + n) ≤ 512 * blocks.length)
    (h' : 72 * (i + n) ≤ 512 * blocks'.length)
    (hj : ∀ x, x < 72 * (i + n) → joined blocks' x = joined blocks x) :
    edEntriesFrom blocks' n i = edEntriesFrom blocks n i := by
  induction n generalizing i with
  | zero => rfl
  | succ n ih =>
      have hslot : edSlot blocks' i = edSlot blocks i :=
        edSlot_congr (by omega) (by omega) fun k hk => hj _ (by omega)
      have hrest := @ih (i + 1) (by omega) (by omega) fun x hx => hj x (by omega)
      unfold edEntriesFrom
      rw [hslot, hrest]

theorem edEntriesFrom_succ {n i : Nat} {l : List PyEntry} (h : edEntriesFrom blocks n i = .ok l) :
    edEntriesFrom blocks (n + 1) i = (edSlot blocks (i + n)).map fun e => l ++ e.toList := by
  induction n generalizing i l with
  | zero =>
      obtain rfl := Except.ok.inj h
      rw [edEntriesFrom]
      rcases edSlot blocks (i + 0) with e | _ | e <;> rfl
  | succ n ih =>
      have hnext : i + (n + 1) = i + 1 + n := by omega
      rw [edEntriesFrom] at h
      rw [edEntriesFrom, hnext]
      cases hs : edSlot blocks i with
      | error e =>
          rw [hs] at h
          cases h
      | ok slot =>
          rw [hs] at h
          cases slot with
          | none => exact ih h
          | some e =>
              cases hrest : edEntriesFrom blocks n (i + 1) with
              | error err =>
                  rw [hrest] at h
                  cases h
              | ok rest =>
                  rw [hrest] at h
                  obtain rfl := Except.ok.inj h
                  have hlast := ih hrest
                  dsimp only
                  rw [hlast]
                  rcases edSlot blocks (i + 1 + n) with err | _ | e' <;> rfl

end

/-! ## The addition

The walk to the block of the new entry, and the entry patched into it by
slicing. -/

section

variable {img : DiskImage} (W : img.Whole) {T : Nat → Inode} {dir : Nat} {a : Addition}

include W

section

variable {name : PyStr} {ino : Int} {typ : Int} {din : PyInode} {entry : DirEntry}
  {res : Int × PyInode} {blk : Block} {img img₁ img₂ img₃ : DiskImage}
  (hread : edReadInode dir img = (.ok din, img))
  (hfind : edFindEntry dir name img = (.ok none, img))
  (hpack : packEntry ino typ name.length (encodeUtf8 name) img = (.ok entry, img))
  (hget : edGetBlockForInode din (din.size / 512) true img = (.ok res, img₁))
  (hblock : readBlock res.1 img₁ = (.ok blk, img₁))

include hread hfind hpack hget hblock

omit W in
theorem edDirAddEntry_ok
    (hwrite : writeBytes res.1 (max 512 (din.size % 512 + 72))
      (blk.patch (din.size % 512) 72 entry.encode) img₁ = (.ok (), img₂))
    (hinode : edWriteInode dir { res.2 with size := res.2.size + 72 } img₂ = (.ok (), img₃)) :
    edDirAddEntry dir name ino typ img = (.ok true, img₃) := by
  unfold edDirAddEntry
  refine (Ed.run_bind_ok hread).trans
    ((Ed.run_bind_ok hfind).trans ((Ed.run_bind_ok hpack).trans ?_))
  refine (Ed.run_bind_ok hget).trans ((Ed.run_bind_ok hblock).trans ?_)
  exact (Ed.run_bind_ok hwrite).trans ((Ed.run_bind_ok hinode).trans rfl)

omit W in
theorem edDirAddEntry_error {e : PyError}
    (hwrite : writeBytes res.1 (max 512 (din.size % 512 + 72))
      (blk.patch (din.size % 512) 72 entry.encode) img₁ = (.error e, img₂)) :
    edDirAddEntry dir name ino typ img = (.error e, img₂) := by
  unfold edDirAddEntry
  refine (Ed.run_bind_ok hread).trans
    ((Ed.run_bind_ok hfind).trans ((Ed.run_bind_ok hpack).trans ?_))
  refine (Ed.run_bind_ok hget).trans ((Ed.run_bind_ok hblock).trans ?_)
  exact Ed.run_bind_error hwrite

end

/-- What an addition that goes through leaves: `r` and `d` are the record and the volume before
the record is written back, with the entry in the block it belongs to. -/
structure EdAdded (img : DiskImage) (T : Nat → Inode) (dir : Nat) (a : Addition) (r : Inode)
    (d : Disk) : Prop where
  changed : Changed img.sb img.sb.fsSizeBlocks.toNat T dir (img.disk.inodeAt img.sb dir) img.disk r
    d
  block : ∀ c, d.blockAt r c
    = if c = (img.disk.inodeAt img.sb dir).size.toNat / 512 then
        a.putAt (img.disk.inodeAt img.sb dir).size.toNat
          (img.disk.blockAt (img.disk.inodeAt img.sb dir) c)
      else img.disk.blockAt (img.disk.inodeAt img.sb dir) c
  mapped : d.Mapped r ((img.disk.inodeAt img.sb dir).size.toNat / 512)
  took : img.Took (img.withDisk d)
    (img.disk.nulls (img.disk.inodeAt img.sb dir) ((img.disk.inodeAt img.sb dir).size.toNat / 512))

/-- The walk to the block of the entry, and the entry written into it. -/
theorem EdWalked.added (O : VolOwned img.sb img.sb.fsSizeBlocks.toNat img.disk
      (Function.update T dir (img.disk.inodeAt img.sb dir)))
    {pos : Pos} (hpos : posOf ((img.disk.inodeAt img.sb dir).size.toNat / 512) = some pos)
    {x : Ed (Int × PyInode)} {r : Inode} {img₁ : DiskImage}
    (hw : EdWalked img T dir (img.disk.inodeAt img.sb dir) pos x r img₁) :
    EdAdded img T dir a r (img₁.disk.set (img₁.disk.ptr r pos)
      (a.putAt (img.disk.inodeAt img.sb dir).size.toNat (img₁.disk (img₁.disk.ptr r pos)))) where
  changed := hw.grew.grew.changed.trans
    (Changed.set W.sound (blockBound_size img.sb) hw.grew.grew.owned hw.mapped (isTable_posOf hpos)
      _)
  block c := by
    have hkept := hw.grew.grew.blockAt O c
    rw [hw.grew.grew.owned.blockAt_set hpos hw.mapped]
    split
    · rename_i hc
      rw [← hkept, hc, Disk.blockAt_of hpos hw.mapped]
    · exact hkept
  mapped := ⟨pos, hpos, by
    rw [hw.grew.grew.owned.ptr_set (isTable_posOf hpos) hw.mapped]
    exact hw.mapped⟩
  took := by
    have hdata : img.sb.DataBlock (img₁.disk.ptr r pos) := by
      have hvol : volPtr (Function.update T dir r) img₁.disk (dir, pos) ≠ 0 := by
        rw [volPtr_self]
        exact hw.mapped
      have hdb := hw.grew.grew.owned.dataBlock (blockBound_size img.sb) hvol
      rwa [volPtr_self] at hdb
    have htook := hw.took
    unfold DiskImage.Took at htook ⊢
    rw [hw.grew.sb] at htook
    rw [Disk.nulls_of hpos, DiskImage.disk_withDisk, DiskImage.withDisk_sb,
      W.sound.bitmapBelow.freeBlocks_set (W.sound.bitmapBelow.not_bitmapBlock hdata)]
    exact htook

/-- An addition to a directory without the name that has a block or free blocks for it: the
entry is added, or it reaches over the end of the block. -/
theorem Addition.run_accepted (hv : img.sb.ValidIno dir)
    (O : VolOwned img.sb img.sb.fsSizeBlocks.toNat img.disk
      (Function.update T dir (img.disk.inodeAt img.sb dir)))
    (hfind : edFindEntry dir a.name img = (.ok none, img)) (hacc : ¬ a.Refused)
    (hlt : (img.disk.inodeAt img.sb dir).size.toNat < 512 * 16518)
    (hfree : img.disk.nulls (img.disk.inodeAt img.sb dir)
      ((img.disk.inodeAt img.sb dir).size.toNat / 512) ≤ (img.disk.freeBlocks img.sb).card) :
    ((img.disk.inodeAt img.sb dir).size.toNat % 512 + 72 ≤ 512 → ∃ r d, EdAdded img T dir a r d
        ∧ a.run dir img = (.ok true, img.withDisk (d.putInode img.sb dir
            (r.packed (UInt32.ofNat ((img.disk.inodeAt img.sb dir).size.toNat + 72))))))
    ∧ (512 < (img.disk.inodeAt img.sb dir).size.toNat % 512 + 72 →
        (a.run dir img).1 = .error (.disk "bad block size")) := by
  obtain ⟨pos, hpos⟩ := posOf_of_lt (Nat.div_lt_of_lt_mul hlt)
  obtain ⟨r, img₁, hw⟩ := edGetBlock_walked W O hpos hfree
  have W₁ := hw.grew.whole W
  have hread : readBlock (img₁.disk.ptr r pos) img₁
      = (.ok (img₁.disk (img₁.disk.ptr r pos)), img₁) :=
    readBlock_run W₁ (hw.grew.owned.ptr_lt hw.mapped)
  have hpack := a.packEntry_run img
  rw [if_neg hacc] at hpack
  have hdir := edReadInode_whole W hv
  refine ⟨fun hroom => ⟨r, _, hw.added W O hpos, ?_⟩, fun hover => ?_⟩
  · have hsize : r.size.toNat = (img.disk.inodeAt img.sb dir).size.toNat := by
      rw [hw.grew.grew.fields.2.1]
    have hlen : max 512 ((img.disk.inodeAt img.sb dir).size.toNat % 512 + 72) = 512 :=
      Nat.max_eq_left hroom
    have hwrite := writeBlock_run W₁ (hw.grew.owned.ptr_lt hw.mapped)
      (a.putAt (img.disk.inodeAt img.sb dir).size.toNat (img₁.disk (img₁.disk.ptr r pos)))
    rw [hw.grew.withDisk] at hwrite
    have hbytes : writeBytes (img₁.disk.ptr r pos)
        (max 512 ((img.disk.inodeAt img.sb dir).size.toNat % 512 + 72))
        (a.putAt (img.disk.inodeAt img.sb dir).size.toNat (img₁.disk (img₁.disk.ptr r pos))) img₁
        = (.ok (), img.withDisk (img₁.disk.set (img₁.disk.ptr r pos)
          (a.putAt (img.disk.inodeAt img.sb dir).size.toNat
              (img₁.disk (img₁.disk.ptr r pos))))) := by
      rw [hlen]
      exact hwrite
    have hpacked := packInode_ofInode r (r.size.toNat + 72) (img.withDisk
      (img₁.disk.set (img₁.disk.ptr r pos)
        (a.putAt (img.disk.inodeAt img.sb dir).size.toNat (img₁.disk (img₁.disk.ptr r pos)))))
    rw [if_pos (by omega)] at hpacked
    have hinode := edWriteInode_run (W.withDisk _) hv hpacked
    rw [DiskImage.withDisk_withDisk, DiskImage.disk_withDisk, DiskImage.withDisk_sb] at hinode
    have hres := edDirAddEntry_ok hdir hfind hpack hw.run hread hbytes hinode
    rwa [hsize] at hres
  · have hlong : max 512 ((img.disk.inodeAt img.sb dir).size.toNat % 512 + 72) ≠ 512 := by omega
    have hwrite : writeBytes (img₁.disk.ptr r pos)
        (max 512 ((img.disk.inodeAt img.sb dir).size.toNat % 512 + 72))
        (a.putAt (img.disk.inodeAt img.sb dir).size.toNat (img₁.disk (img₁.disk.ptr r pos))) img₁
        = (.error (.disk "bad block size"), img₁) := by
      unfold writeBytes
      exact if_pos hlong
    exact congrArg Prod.fst (edDirAddEntry_error hdir hfind hpack hw.run hread hwrite)

end

/-! ## Directories that read to their end

All blocks mapped, all entries decoded. Such a directory has a list of
entries, and a search in it is a search of the list. -/

/-- A directory that owns its blocks, has whole entries in blocks that are all mapped, and reads
to its end. -/
structure DiskImage.Directory (img : DiskImage) (dir : Nat) (es : List PyEntry) : Prop where
  valid : img.sb.ValidIno dir
  isDir : (img.disk.inodeAt img.sb dir).isDir = true
  owned : img.disk.FileOwned img.sb (img.disk.inodeAt img.sb dir)
  slots : 72 ∣ (img.disk.inodeAt img.sb dir).size.toNat
  mapped : ∀ c, c < blocksFor (img.disk.inodeAt img.sb dir).size.toNat →
    img.disk.Mapped (img.disk.inodeAt img.sb dir) c
  entries : edDirEntries (PyInode.ofInode (img.disk.inodeAt img.sb dir)) img = (.ok es, img)

theorem Disk.Mapped.lt {d : Disk} {r : Inode} {c : Nat} (h : d.Mapped r c) : c < 16518 := by
  obtain ⟨pos, hpos, -⟩ := h
  exact lt_of_posOf hpos

/-- The pointers of a file alone, as those of a table of empty inodes with this one. -/
theorem Disk.FileOwned.volOwned {sb : Superblock} {d : Disk} {r : Inode} (h : d.FileOwned sb r)
    (ino : Nat) :
    VolOwned sb sb.fsSizeBlocks.toNat d (Function.update (fun _ => Inode.zero) ino r) := by
  have hself : ∀ s : Nat × Pos, volPtr (Function.update (fun _ => Inode.zero) ino r) d s ≠ 0 →
      s.1 = ino := by
    rintro ⟨i, pos⟩ h0
    by_contra hi
    rw [volPtr_other hi, ptr_zero] at h0
    exact h0 rfl
  refine ⟨?_, ?_, ?_, ?_⟩
  · rintro ⟨i, pos⟩ h0
    obtain rfl : i = ino := hself _ h0
    rw [volPtr_self] at h0 ⊢
    exact h.lower pos h0
  · rintro ⟨i, pos⟩ h0
    obtain rfl : i = ino := hself _ h0
    rw [volPtr_self] at h0 ⊢
    exact h.upper pos h0
  · rintro ⟨i, pos⟩ h0
    obtain rfl : i = ino := hself _ h0
    rw [volPtr_self] at h0 ⊢
    exact h.used pos h0
  · rintro ⟨i, pos⟩ ⟨j, pos'⟩ h0 he
    obtain rfl : i = ino := hself _ h0
    obtain rfl : j = i := hself _ (he ▸ h0)
    rw [volPtr_self] at h0
    rw [volPtr_self, volPtr_self] at he
    rw [h.inj pos pos' h0 he]

theorem Disk.FileOwned.below {sb : Superblock} {d : Disk} {r : Inode} (h : d.FileOwned sb r)
    (L : SoundLayout sb) (pos : Pos) : d.ptr r pos < sb.fsSizeBlocks.toNat := by
  have h1 := L.first
  have h2 := L.inodeBitmap
  have h3 := L.blockBitmap
  have h4 := L.inodeTable
  have h5 := L.data
  rcases em (d.ptr r pos = 0) with h0 | h0
  · omega
  · exact h.upper pos h0

theorem Disk.FileOwned.congr {sb : Superblock} {d d' : Disk} {r r' : Inode} (h : d.FileOwned sb r)
    (hptr : ∀ pos, d'.ptr r' pos = d.ptr r pos)
    (hused : ∀ p, sb.DataBlock p → d'.blockUsed sb p = d.blockUsed sb p) : d'.FileOwned sb r' := by
  unfold Disk.FileOwned
  rw [funext hptr]
  refine Owned.of_used h fun pos h0 => ?_
  rw [hused _ ⟨h.lower pos h0, h.upper pos h0⟩]
  exact h.used pos h0

section

variable {img : DiskImage} (W : img.Whole) {r : Inode}
  (hbelow : ∀ pos, img.disk.ptr r pos < img.sb.fsSizeBlocks.toNat)
  (hm : ∀ c, c < blocksFor r.size.toNat → img.disk.Mapped r c)

include W hbelow hm

theorem edReadBlocks_all : edReadBlocks (PyInode.ofInode r) (blocksFor r.size.toNat) 0 img
    = (.ok (img.disk.blocks r (blocksFor r.size.toNat)), img) := by
  have hread :=
    edReadBlocks_mapped W hbelow (blocksFor r.size.toNat) 0 fun c _ hc => hm c (by omega)
  rwa [← List.range_eq_range'] at hread

/-- `dir_entries` on a directory all of whose blocks are mapped. -/
theorem edDirEntries_mapped : edDirEntries (PyInode.ofInode r) img
    = (edEntriesFrom (img.disk.blocks r (blocksFor r.size.toNat)) (r.size.toNat / 72) 0, img) := by
  have hread := edReadBlocks_all W hbelow hm
  unfold edDirEntries
  rcases em ((PyInode.ofInode r).size = 0) with hz | hz
  · have hsize : r.size.toNat = 0 := hz
    rw [if_pos hz, hsize]
    rfl
  · rw [if_neg hz]
    exact Ed.run_bind_ok hread

end

section

variable {img : DiskImage} (W : img.Whole) {dir : Nat} {es : List PyEntry}
    (D : img.Directory dir es)

include W D

theorem DiskImage.Directory.below (pos : Pos) :
    img.disk.ptr (img.disk.inodeAt img.sb dir) pos < img.sb.fsSizeBlocks.toNat :=
  D.owned.below W.sound pos

theorem DiskImage.Directory.entriesFrom :
    edEntriesFrom (img.disk.blocks (img.disk.inodeAt img.sb dir)
        (blocksFor (img.disk.inodeAt img.sb dir).size.toNat))
      ((img.disk.inodeAt img.sb dir).size.toNat / 72) 0 = .ok es := by
  have hall := D.entries
  rw [edDirEntries_mapped W (D.below W) D.mapped] at hall
  exact (Prod.mk.inj hall).1

theorem DiskImage.Directory.find (name : PyStr) :
    edFindEntry dir name img = (.ok (es.find? fun e => e.name = name), img) := by
  have hread := edReadBlocks_all W (D.below W) D.mapped
  have hfind := edFindFrom_find name (D.entriesFrom W)
  unfold edFindEntry
  rw [Ed.run_bind_ok (edReadInode_whole W D.valid)]
  rcases em ((PyInode.ofInode (img.disk.inodeAt img.sb dir)).size = 0) with hz | hz
  · have hsize : (img.disk.inodeAt img.sb dir).size.toNat = 0 := hz
    rw [hsize] at hfind
    rw [if_pos hz, ← Except.ok.inj hfind]
    rfl
  · rw [if_neg hz]
    exact (Ed.run_bind_ok hread).trans (Prod.ext hfind rfl)

omit W in
/-- A directory that fills all the blocks there are has part of an entry at its end. -/
theorem DiskImage.Directory.size_lt :
    (img.disk.inodeAt img.sb dir).size.toNat < 512 * 16518 := by
  obtain ⟨n, hn⟩ := D.slots
  rcases Nat.eq_zero_or_pos (blocksFor (img.disk.inodeAt img.sb dir).size.toNat) with h0 | hpos
  · unfold blocksFor at h0
    omega
  · have hlt := (D.mapped _ (Nat.sub_lt hpos Nat.one_pos)).lt
    unfold blocksFor at hlt
    omega

end

/-! ## The entries after an addition

The old entries are where they were and the new one is behind them. -/

theorem Addition.inode_packed {a : Addition} (h : ¬ a.Refused) :
    a.packed.inode.toNat = a.ino.toNat := by
  have hfits := (not_refused.mp h).1
  unfold fitsWord at hfits
  show (UInt32.ofNat a.ino.toNat).toNat = _
  rw [UInt32.toNat_ofNat', Nat.mod_eq_of_lt (by omega)]

/-- The slot of a packed entry yields the entry just when it can be read back. -/
theorem edSlot_packed {a : Addition} (hacc : ¬ a.Refused) {blocks : List Block} {i : Nat}
    (hlen : 72 * i + 72 ≤ 512 * blocks.length)
    (hbytes : ∀ k, k < 72 → joined blocks (72 * i + k) = a.packed.encode k) :
    edSlot blocks i = .ok (some a.entry) ↔ a.ReadsBack := by
  have hdec : DirEntry.decode (joined blocks) (72 * i) = a.packed := by
    rw [← DirEntry.decode_patch Buf.zero 0 a.packed]
    refine DirEntry.decode_congr fun k hk => ?_
    rw [hbytes k hk, Buf.patch_in (by omega) (by omega), Nat.zero_add, Nat.sub_zero]
  have hinode := Addition.inode_packed hacc
  have hname := a.decode_packed hacc
  have hfits := (Addition.not_refused.mp hacc).1
  unfold fitsWord at hfits
  unfold edSlot Addition.ReadsBack
  rw [if_neg (Nat.not_lt.mpr hlen), hdec]
  rcases em (a.packed.inode = 0) with h0 | h0
  · have hzero : a.ino = 0 := by
      rw [h0] at hinode
      have hnat : a.ino.toNat = 0 := hinode.symm
      omega
    simp only [h0, if_true, hzero, ne_eq, not_true, false_and, iff_false]
    exact nofun
  · have hne : a.ino ≠ 0 := by
      intro hc
      rw [hc] at hinode
      exact h0 (UInt32.toNat.inj hinode)
    simp only [h0, if_false]
    cases hdecode : decodeUtf8 a.packed.nameBytes with
    | none =>
        rw [hdecode] at hname
        simp only [reduceCtorEq, false_iff] at hname ⊢
        exact fun h => hname h.2
    | some name =>
        rw [hdecode] at hname
        rw [← hname]
        constructor
        · intro he
          have hentry := Option.some.inj (Except.ok.inj he)
          exact ⟨hne, congrArg some (congrArg PyEntry.name hentry)⟩
        · rintro ⟨-, hsame⟩
          rw [Option.some.inj hsame, hinode]
          rfl

/-- The image after an addition that went through. -/
def DiskImage.afterAdd (img : DiskImage) (dir : Nat) (r : Inode) (d : Disk) : DiskImage :=
  img.withDisk (d.putInode img.sb dir
    (r.packed (UInt32.ofNat ((img.disk.inodeAt img.sb dir).size.toNat + 72))))

section

variable {img : DiskImage} (W : img.Whole) {dir : Nat} {es : List PyEntry}
    (D : img.Directory dir es)
  {T : Nat → Inode} {a : Addition} {r : Inode} {d : Disk} (E : EdAdded img T dir a r d)
  (hroom : (img.disk.inodeAt img.sb dir).size.toNat % 512 + 72 ≤ 512)

include W D

theorem DiskImage.Directory.inodeAt_afterAdd :
    (img.afterAdd dir r d).disk.inodeAt (img.afterAdd dir r d).sb dir
      = r.packed (UInt32.ofNat ((img.disk.inodeAt img.sb dir).size.toNat + 72)) := by
  unfold DiskImage.afterAdd
  rw [DiskImage.disk_withDisk, DiskImage.withDisk_sb, W.sound.inodeAt_putInode D.valid, if_pos rfl]

theorem DiskImage.Directory.size_afterAdd :
    ((img.afterAdd dir r d).disk.inodeAt (img.afterAdd dir r d).sb dir).size.toNat
      = (img.disk.inodeAt img.sb dir).size.toNat + 72 := by
  have hlt := D.size_lt
  rw [D.inodeAt_afterAdd W]
  show (UInt32.ofNat ((img.disk.inodeAt img.sb dir).size.toNat + 72)).toNat = _
  rw [UInt32.toNat_ofNat', Nat.mod_eq_of_lt (by omega)]

include E

theorem EdAdded.same : SameFile d r (img.afterAdd dir r d).disk
    ((img.afterAdd dir r d).disk.inodeAt (img.afterAdd dir r d).sb dir) := by
  rw [D.inodeAt_afterAdd W]
  unfold DiskImage.afterAdd
  rw [DiskImage.disk_withDisk]
  exact E.changed.sameFile_putInode W.sound D.valid (r.root_packed _)

theorem EdAdded.owned : (img.afterAdd dir r d).disk.FileOwned (img.afterAdd dir r d).sb
    ((img.afterAdd dir r d).disk.inodeAt (img.afterAdd dir r d).sb dir) := by
  have hfile := E.changed.owned.fileOwned (Nat.le_refl _) dir
  rw [Function.update_self] at hfile
  refine hfile.congr (E.same W D).ptr fun p hp => ?_
  unfold DiskImage.afterAdd
  rw [DiskImage.disk_withDisk]
  exact W.sound.blockUsed_putInode D.valid hp _

/-- The bytes of the directory: the old ones, and the entry behind them. -/
theorem EdAdded.joined_old {x : Nat} (hx : x < (img.disk.inodeAt img.sb dir).size.toNat) :
    joined ((img.afterAdd dir r d).disk.blocks
        ((img.afterAdd dir r d).disk.inodeAt (img.afterAdd dir r d).sb dir)
        (blocksFor ((img.disk.inodeAt img.sb dir).size.toNat + 72))) x
      = joined (img.disk.blocks (img.disk.inodeAt img.sb dir)
        (blocksFor (img.disk.inodeAt img.sb dir).size.toNat)) x := by
  unfold Disk.blocks
  rw [joined_map (by unfold blocksFor; omega), joined_map (by unfold blocksFor; omega),
    (E.same W D).blockAt, E.block]
  split
  · exact Buf.patch_out (by omega)
  · rfl

include hroom

theorem EdAdded.mapped_all {c : Nat}
    (hc : c < blocksFor ((img.disk.inodeAt img.sb dir).size.toNat + 72)) :
    (img.afterAdd dir r d).disk.Mapped
      ((img.afterAdd dir r d).disk.inodeAt (img.afterAdd dir r d).sb dir) c := by
  rw [(E.same W D).mapped]
  rcases em (c = (img.disk.inodeAt img.sb dir).size.toNat / 512) with rfl | hne
  · exact E.mapped
  · refine E.changed.keepsMap.mapped (D.mapped c ?_)
    unfold blocksFor at hc ⊢
    omega

theorem EdAdded.joined_new {k : Nat} (hk : k < 72) :
    joined ((img.afterAdd dir r d).disk.blocks
        ((img.afterAdd dir r d).disk.inodeAt (img.afterAdd dir r d).sb dir)
        (blocksFor ((img.disk.inodeAt img.sb dir).size.toNat + 72)))
      ((img.disk.inodeAt img.sb dir).size.toNat + k) = a.packed.encode k := by
  have hdiv : ((img.disk.inodeAt img.sb dir).size.toNat + k) / 512
      = (img.disk.inodeAt img.sb dir).size.toNat / 512 := by omega
  have hmod : ((img.disk.inodeAt img.sb dir).size.toNat + k) % 512
      = (img.disk.inodeAt img.sb dir).size.toNat % 512 + k := by omega
  unfold Disk.blocks
  rw [joined_map (by unfold blocksFor; omega), (E.same W D).blockAt, E.block, hdiv, if_pos rfl,
    hmod]
  unfold Addition.putAt
  rw [Buf.patch_in (by omega) (by omega), Nat.add_sub_cancel_left]

/-- After the addition `dir_entries` yields the old entries and what the new slot yields. -/
theorem EdAdded.entries (hacc : ¬ a.Refused) :
    edDirEntries
      (PyInode.ofInode ((img.afterAdd dir r d).disk.inodeAt (img.afterAdd dir r d).sb dir))
        (img.afterAdd dir r d) = (.ok (es ++ [a.entry]), img.afterAdd dir r d) ↔ a.ReadsBack := by
  have hsize := D.size_afterAdd (r := r) (d := d) W
  obtain ⟨n, hn⟩ := D.slots
  have W' : (img.afterAdd dir r d).Whole := W.withDisk _
  rw [edDirEntries_mapped W' ((E.owned W D).below W'.sound)
    (fun c hc => E.mapped_all W D hroom (by rwa [hsize] at hc)), hsize]
  generalize hblocks : (img.afterAdd dir r d).disk.blocks
    ((img.afterAdd dir r d).disk.inodeAt (img.afterAdd dir r d).sb dir)
    (blocksFor ((img.disk.inodeAt img.sb dir).size.toNat + 72)) = blocks
  have hlen : blocks.length = blocksFor (72 * n + 72) := by
    rw [← hblocks, ← hn, Disk.length_blocks]
  have hold : edEntriesFrom blocks n 0 = .ok es := by
    have hall := D.entriesFrom W
    rw [hn, Nat.mul_div_cancel_left n (by decide)] at hall
    rw [← hall, ← hn]
    refine edEntriesFrom_congr ?_ ?_ fun x hx => ?_
    · rw [Disk.length_blocks, hn]
      unfold blocksFor
      omega
    · rw [hlen]
      unfold blocksFor
      omega
    · rw [← hblocks]
      exact E.joined_old W D (by omega)
  have hslot : edSlot blocks n = .ok (some a.entry) ↔ a.ReadsBack := by
    refine edSlot_packed hacc ?_ fun k hk => ?_
    · rw [hlen]
      unfold blocksFor
      omega
    · rw [← hblocks, ← hn]
      exact E.joined_new W D hroom hk
  have hcount : (72 * n + 72) / 72 = n + 1 := by omega
  rw [← hslot, hn, hcount, edEntriesFrom_succ hold, Nat.zero_add]
  constructor
  · intro hall
    have hmap := (Prod.mk.inj hall).1
    rcases hres : edSlot blocks n with e | e
    · rw [hres] at hmap
      cases hmap
    · rw [hres] at hmap
      have happ := List.append_cancel_left (Except.ok.inj hmap)
      cases e with
      | none => cases happ
      | some e => rw [(List.cons.inj happ).1]
  · intro hres
    rw [hres]
    rfl

end

/-! ## What an addition promises

Accepted, refused by `struct.pack`, or refused by `write_block`. -/

/-- `dir_entries` yields one entry more; `find_entry` finds it and all that it found before. -/
structure DiskImage.Gained (img img' : DiskImage) (dir : Nat) (es : List PyEntry) (a : Addition) :
    Prop where
  entries : edDirEntries (PyInode.ofInode (img'.disk.inodeAt img'.sb dir)) img'
    = (.ok (es ++ [a.entry]), img')
  finds : edFindEntry dir a.name img' = (.ok (some a.entry), img')
  keeps : ∀ name e, edFindEntry dir name img = (.ok (some e), img) →
    edFindEntry dir name img' = (.ok (some e), img')

/-- The call refuses what `struct.pack` does not take and changes nothing, or it returns true
and the directory gains the entry. -/
def DiskImage.AddsEntry (img : DiskImage) (dir : Nat) (es : List PyEntry) (a : Addition) : Prop :=
  a.run dir img = (.error .struct, img)
    ∨ (a.run dir img).1 = .ok true ∧ img.Gained (a.run dir img).2 dir es a

theorem SoundLayout.not_bitmapBlock_inode {sb : Superblock} (L : SoundLayout sb) {i : Nat}
    (hv : sb.ValidIno i) : ¬ sb.BitmapBlock (inodeBlock sb i) := by
  intro h
  have h1 := L.blockBitmap
  have h2 := L.le_inodeBlock hv
  have h3 := h.2
  omega

section

variable {img : DiskImage} (W : img.Whole) {dir : Nat} {es : List PyEntry}
    (D : img.Directory dir es)
  {a : Addition} (hnew : ∀ e ∈ es, e.name ≠ a.name)

include W D

theorem DiskImage.Directory.run_refused (hnew : ∀ e ∈ es, e.name ≠ a.name) (h : a.Refused) :
    a.run dir img = (.error .struct, img) := by
  have hfind := D.find W a.name
  have hnone : (es.find? fun e => e.name = a.name) = none :=
    List.find?_eq_none.mpr fun e he => by simpa using hnew e he
  have hpack := a.packEntry_run img
  rw [hnone] at hfind
  rw [if_pos h] at hpack
  unfold Addition.run edDirAddEntry
  refine (Ed.run_bind_ok (edReadInode_whole W D.valid)).trans ((Ed.run_bind_ok hfind).trans ?_)
  exact Ed.run_bind_error hpack

theorem DiskImage.Directory.run_accepted (hnew : ∀ e ∈ es, e.name ≠ a.name) (hacc : ¬ a.Refused)
    (hfree : img.disk.nulls (img.disk.inodeAt img.sb dir)
      ((img.disk.inodeAt img.sb dir).size.toNat / 512) ≤ (img.disk.freeBlocks img.sb).card) :
    ((img.disk.inodeAt img.sb dir).size.toNat % 512 + 72 ≤ 512 →
      ∃ r d, EdAdded img (fun _ => Inode.zero) dir a r d
        ∧ a.run dir img = (.ok true, img.afterAdd dir r d))
    ∧ (512 < (img.disk.inodeAt img.sb dir).size.toNat % 512 + 72 →
        (a.run dir img).1 = .error (.disk "bad block size")) := by
  have hfind := D.find W a.name
  have hnone : (es.find? fun e => e.name = a.name) = none :=
    List.find?_eq_none.mpr fun e he => by simpa using hnew e he
  rw [hnone] at hfind
  exact a.run_accepted W D.valid (D.owned.volOwned dir) hfind hacc D.size_lt hfree

theorem EdAdded.directory {T : Nat → Inode} {r : Inode} {d : Disk} (E : EdAdded img T dir a r d)
    (hroom : (img.disk.inodeAt img.sb dir).size.toNat % 512 + 72 ≤ 512) (hacc : ¬ a.Refused)
    (hback : a.ReadsBack) : (img.afterAdd dir r d).Directory dir (es ++ [a.entry]) where
  valid := D.valid
  isDir := by
    rw [D.inodeAt_afterAdd W]
    unfold Inode.isDir Inode.packed
    rw [E.changed.fields.1]
    exact D.isDir
  owned := E.owned W D
  slots := by
    rw [D.size_afterAdd W]
    exact Nat.dvd_add D.slots (Nat.dvd_refl 72)
  mapped c hc := by
    rw [D.size_afterAdd W] at hc
    exact E.mapped_all W D hroom hc
  entries := (E.entries W D hroom hacc).mpr hback

theorem EdAdded.took_afterAdd {T : Nat → Inode} {r : Inode} {d : Disk}
    (E : EdAdded img T dir a r d) :
    img.Took (img.afterAdd dir r d) (img.disk.nulls (img.disk.inodeAt img.sb dir)
      ((img.disk.inodeAt img.sb dir).size.toNat / 512)) := by
  have htook := E.took
  unfold DiskImage.Took DiskImage.afterAdd at *
  rw [DiskImage.disk_withDisk, DiskImage.withDisk_sb, Disk.putInode,
    W.sound.bitmapBelow.freeBlocks_set (W.sound.not_bitmapBlock_inode D.valid)]
  rwa [DiskImage.disk_withDisk, DiskImage.withDisk_sb] at htook

theorem DiskImage.Directory.gained {img' : DiskImage} (W' : img'.Whole)
    (hnew : ∀ e ∈ es, e.name ≠ a.name) (D' : img'.Directory dir (es ++ [a.entry])) :
    img.Gained img' dir es a where
  entries := D'.entries
  finds := by
    have hnone : (es.find? fun e => e.name = a.name) = none :=
      List.find?_eq_none.mpr fun e he => by simpa using hnew e he
    rw [D'.find W', List.find?_append, hnone]
    simp [Addition.entry]
  keeps name e he := by
    rw [D.find W] at he
    have hfound := Except.ok.inj (Prod.mk.inj he).1
    rw [D'.find W', List.find?_append, hfound]
    rfl

end

/-! ## Sequences of additions

Additions of names that are new, one after the other. -/

/-- A sequence of calls, each on the image that the one before it left. -/
def addAll (dir : Nat) (adds : List Addition) (img : DiskImage) : DiskImage :=
  adds.foldl (fun img a => (a.run dir img).2) img

/-- The entries of the additions that are not refused. -/
def acceptedEntries (adds : List Addition) : List PyEntry :=
  (adds.filter fun a => ¬ a.Refused).map Addition.entry

/-- Additions to a directory of `size` bytes that are refused, or read back and fit. -/
def Addable : (size : Nat) → List Addition → Prop
  | _, [] => True
  | size, a :: rest =>
      a.Refused ∧ Addable size rest
        ∨ ¬ a.Refused ∧ a.ReadsBack ∧ size % 512 + 72 ≤ 512 ∧ Addable (size + 72) rest

theorem addAll_directory {adds : List Addition} {dir : Nat} {img : DiskImage} {es : List PyEntry}
    (W : img.Whole) (D : img.Directory dir es) (hnodup : (adds.map Addition.name).Nodup)
    (hnew : ∀ a ∈ adds, ∀ e ∈ es, e.name ≠ a.name)
    (hfree : 3 * adds.length ≤ (img.disk.freeBlocks img.sb).card)
    (h : Addable (img.disk.inodeAt img.sb dir).size.toNat adds) :
    (addAll dir adds img).Whole
      ∧ (addAll dir adds img).Directory dir (es ++ acceptedEntries adds) := by
  induction adds generalizing img es with
  | nil => exact ⟨W, by simpa [addAll, acceptedEntries] using D⟩
  | cons a adds ih =>
      obtain ⟨hfresh, hrest⟩ := List.nodup_cons.mp hnodup
      have ha := hnew a List.mem_cons_self
      have hothers : ∀ b ∈ adds, ∀ e ∈ es, e.name ≠ b.name :=
        fun b hb => hnew b (List.mem_cons_of_mem a hb)
      rw [List.length_cons] at hfree
      rcases h with ⟨href, h⟩ | ⟨hacc, hback, hroom, h⟩
      · have hrun : addAll dir (a :: adds) img = addAll dir adds img := by
          unfold addAll
          rw [List.foldl_cons, D.run_refused W ha href]
        have hentries : acceptedEntries (a :: adds) = acceptedEntries adds := by
          unfold acceptedEntries
          rw [List.filter_cons_of_neg (by simpa using href)]
        rw [hrun, hentries]
        exact ih W D hrest hothers (by omega) h
      · have hnulls := img.disk.nulls_le (img.disk.inodeAt img.sb dir)
          ((img.disk.inodeAt img.sb dir).size.toNat / 512)
        obtain ⟨r, d, E, hres⟩ := (D.run_accepted W ha hacc (by omega)).1 hroom
        have hrun : addAll dir (a :: adds) img = addAll dir adds (img.afterAdd dir r d) := by
          unfold addAll
          rw [List.foldl_cons, hres]
        have hentries : es ++ acceptedEntries (a :: adds)
            = es ++ [a.entry] ++ acceptedEntries adds := by
          unfold acceptedEntries
          rw [List.filter_cons_of_pos (by simpa using hacc), List.map_cons, List.append_assoc]
          rfl
        have htook := E.took_afterAdd W D
        have hnew' : ∀ b ∈ adds, ∀ e ∈ es ++ [a.entry], e.name ≠ b.name := by
          intro b hb e he
          rcases List.mem_append.mp he with he | he
          · exact hothers b hb e he
          · obtain rfl := List.mem_singleton.mp he
            intro hc
            exact hfresh (List.mem_map.mpr ⟨b, hb, hc.symm⟩)
        rw [hrun, hentries]
        refine ih (W.withDisk _) (E.directory W D hroom hacc hback) hrest hnew' ?_ ?_
        · unfold DiskImage.Took at htook
          omega
        · rwa [D.size_afterAdd W]

/-- `dir_add_entry` adds an entry exactly when it refuses it or the entry reads back and ends in
its block; and it does so over every sequence of such additions. -/
theorem edDirAddEntry_adds {img : DiskImage} (W : img.Whole) {dir : Nat} {es : List PyEntry}
    (D : img.Directory dir es) :
    (∀ a : Addition, (∀ e ∈ es, e.name ≠ a.name) →
      img.disk.nulls (img.disk.inodeAt img.sb dir)
        ((img.disk.inodeAt img.sb dir).size.toNat / 512) ≤ (img.disk.freeBlocks img.sb).card →
      (img.AddsEntry dir es a ↔ a.Refused
        ∨ a.ReadsBack ∧ (img.disk.inodeAt img.sb dir).size.toNat % 512 + 72 ≤ 512))
    ∧ ∀ adds : List Addition, (adds.map Addition.name).Nodup →
      (∀ a ∈ adds, ∀ e ∈ es, e.name ≠ a.name) →
      3 * adds.length ≤ (img.disk.freeBlocks img.sb).card →
      Addable (img.disk.inodeAt img.sb dir).size.toNat adds →
      edDirEntries
        (PyInode.ofInode ((addAll dir adds img).disk.inodeAt (addAll dir adds img).sb dir))
          (addAll dir adds img) = (.ok (es ++ acceptedEntries adds), addAll dir adds img)
      ∧ ∀ name, edFindEntry dir name (addAll dir adds img)
        = (.ok ((es ++ acceptedEntries adds).find? fun e => e.name = name),
            addAll dir adds img) := by
  refine ⟨fun a hnew hfree => ?_, fun adds hnodup hnew hfree h => ?_⟩
  · by_cases hacc : a.Refused
    · exact ⟨fun _ => Or.inl hacc, fun _ => Or.inl (D.run_refused W hnew hacc)⟩
    · obtain ⟨hfits, hover⟩ := D.run_accepted W hnew hacc hfree
      rcases Nat.lt_or_ge 512 ((img.disk.inodeAt img.sb dir).size.toNat % 512 + 72)
        with hlong | hroom
      · have hrun := hover hlong
        constructor
        · rintro (h | ⟨h, -⟩)
          · rw [h] at hrun
            cases hrun
          · rw [hrun] at h
            cases h
        · rintro (h | ⟨-, h⟩)
          · exact absurd h hacc
          · omega
      · obtain ⟨r, d, E, hrun⟩ := hfits hroom
        unfold DiskImage.AddsEntry
        rw [hrun]
        constructor
        · rintro (h | ⟨-, h⟩)
          · cases (Prod.mk.inj h).1
          · exact Or.inr ⟨(E.entries W D hroom hacc).mp h.entries, hroom⟩
        · rintro (h | ⟨hback, -⟩)
          · exact absurd h hacc
          · exact Or.inr ⟨rfl, D.gained W (W.withDisk _) hnew (E.directory W D hroom hacc hback)⟩
  · obtain ⟨W', D'⟩ := addAll_directory W D hnodup hnew hfree h
    exact ⟨D'.entries, D'.find W'⟩

/-! ## A new volume, and a directory of seven entries

The eighth entry of a directory starts at byte 504. -/

theorem imageOf_whole {k : Kernel Disk} (hk : VolOk k) (hcount : k.sb.fsSizeBlocks.toNat ≤ 12) :
    (imageOf k).Whole where
  sound := hk.layout
  covered := Nat.add_le_add_left hcount 1

/-- The root of a volume that the kernel left, when it is one block long. -/
theorem imageOf_directory {k : Kernel Disk} (hk : VolOk k) {es : List PyEntry}
    (hv : k.sb.ValidIno 1) (hdir : (k.disk.inodeAt k.sb 1).isDir = true)
    (hslots : 72 ∣ (k.disk.inodeAt k.sb 1).size.toNat)
    (hsize : blocksFor (k.disk.inodeAt k.sb 1).size.toNat = 1)
    (h0 : k.disk.ptr (k.disk.inodeAt k.sb 1) (.direct 0) ≠ 0)
    (hes : (edDirEntries (PyInode.ofInode (k.disk.inodeAt k.sb 1)) (imageOf k)).1.toOption
      = some es) :
    (imageOf k).Directory 1 es := by
  have hdisk := imageOf_disk k
  have hsb := imageOf_sb k
  refine ⟨hv, ?_, ?_, ?_, ?_, ?_⟩
  · rw [hdisk, hsb]
    exact hdir
  · rw [hdisk, hsb]
    exact hk.owned.fileOwned hk.bound.le 1
  · rw [hdisk, hsb]
    exact hslots
  · rw [hdisk, hsb, hsize]
    intro c hc
    obtain rfl : c = 0 := by omega
    exact ⟨.direct 0, rfl, h0⟩
  · rw [hdisk, hsb]
    exact Prod.ext (ok_of_toOption hes) (@keeps_edDirEntries DiskImage (fun img => img) _ _)

/-- The entries of the root of a new volume. -/
def newRootEntries : List PyEntry :=
  [⟨1, 1, ['.']⟩, ⟨1, 1, ['.', '.']⟩, ⟨2, 1, ['a', 'p', 'p']⟩,
    ⟨3, 2, ['a', 'u', 't', 'o', 'r', 'u', 'n']⟩]

theorem mountedKernel_directory : (imageOf (mountedKernel 12 6)).Directory 1 newRootEntries :=
  imageOf_directory mountedKernel_volOk mountedKernel_root.1 mountedKernel_root.2
    (by decide +kernel) (by decide +kernel) (by decide +kernel) (by decide +kernel)

theorem sevenKernel_volOk : VolOk sevenKernel := by
  have hrun : FsRun Buf.zero (fun _ _ => True) (mountedKernel 12 6) sevenKernel :=
    .tail (.tail (.single ⟨.create (rootPath [97] (by decide)) typeFile, trivial, rfl⟩)
      ⟨.create (rootPath [98] (by decide)) typeFile, trivial, rfl⟩)
      ⟨.create (rootPath [99] (by decide)) typeFile, trivial, rfl⟩
  exact hrun.volOk mountedKernel_volOk

def sevenRootEntries : List PyEntry :=
  newRootEntries ++ [⟨4, 2, ['a']⟩, ⟨5, 2, ['b']⟩, ⟨6, 2, ['c']⟩]

theorem sevenKernel_directory : (imageOf sevenKernel).Directory 1 sevenRootEntries :=
  imageOf_directory sevenKernel_volOk (by decide +kernel) (by decide +kernel) (by decide +kernel)
    (by decide +kernel) (by decide +kernel) (by decide +kernel)

/-- Additions to the root of a new volume. -/
theorem edDirAddEntry_adds_root :
    (imageOf (mountedKernel 12 6)).AddsEntry 1 newRootEntries ⟨['x'], 4, 2⟩
    ∧ edDirEntries (PyInode.ofInode ((addAll 1 [⟨['x'], 4, 2⟩, ⟨['y'], 5, 1⟩]
          (imageOf (mountedKernel 12 6))).disk.inodeAt (addAll 1 [⟨['x'], 4, 2⟩, ⟨['y'], 5, 1⟩]
          (imageOf (mountedKernel 12 6))).sb 1))
        (addAll 1 [⟨['x'], 4, 2⟩, ⟨['y'], 5, 1⟩] (imageOf (mountedKernel 12 6)))
      = (.ok (newRootEntries ++ acceptedEntries [⟨['x'], 4, 2⟩, ⟨['y'], 5, 1⟩]),
          addAll 1 [⟨['x'], 4, 2⟩, ⟨['y'], 5, 1⟩] (imageOf (mountedKernel 12 6))) := by
  have W : (imageOf (mountedKernel 12 6)).Whole :=
    imageOf_whole mountedKernel_volOk (by decide +kernel)
  have hsize :
    ((imageOf (mountedKernel 12 6)).disk.inodeAt (imageOf (mountedKernel 12 6)).sb 1).size
      = 288 := by decide +kernel
  have hfree :
    ((imageOf (mountedKernel 12 6)).disk.freeBlocks (imageOf (mountedKernel 12 6)).sb).card
      = 6 := by decide +kernel
  have hnulls := (imageOf (mountedKernel 12 6)).disk.nulls_le
    ((imageOf (mountedKernel 12 6)).disk.inodeAt (imageOf (mountedKernel 12 6)).sb 1)
    (((imageOf (mountedKernel 12 6)).disk.inodeAt (imageOf (mountedKernel 12 6)).sb 1).size.toNat
      / 512)
  have hall := edDirAddEntry_adds W mountedKernel_directory
  rw [hfree, hsize] at hall
  rw [hsize] at hnulls
  refine ⟨(hall.1 ⟨['x'], 4, 2⟩ (by decide) (by omega)).mpr (Or.inr ⟨by decide, by decide⟩), ?_⟩
  refine (hall.2 _ (by decide) (by decide) (by decide) ?_).1
  exact Or.inr ⟨by decide, by decide, by decide,
    Or.inr ⟨by decide, by decide, by decide, trivial⟩⟩

/-- The eighth entry of a directory: it reaches over the end of the block, which is refused. -/
theorem edDirAddEntry_eighth :
    (imageOf sevenKernel).Whole ∧ (imageOf sevenKernel).Directory 1 sevenRootEntries
    ∧ (∀ e ∈ sevenRootEntries, e.name ≠ ['h'])
    ∧ 3 ≤ ((imageOf sevenKernel).disk.freeBlocks (imageOf sevenKernel).sb).card
    ∧ ¬ (imageOf sevenKernel).AddsEntry 1 sevenRootEntries ⟨['h'], 6, 2⟩ := by
  have W : (imageOf sevenKernel).Whole := imageOf_whole sevenKernel_volOk (by decide +kernel)
  have hsize : ((imageOf sevenKernel).disk.inodeAt (imageOf sevenKernel).sb 1).size = 504 := by
    decide +kernel
  have hfree : ((imageOf sevenKernel).disk.freeBlocks (imageOf sevenKernel).sb).card = 6 := by
    decide +kernel
  have hnulls := (imageOf sevenKernel).disk.nulls_le
    ((imageOf sevenKernel).disk.inodeAt (imageOf sevenKernel).sb 1)
    (((imageOf sevenKernel).disk.inodeAt (imageOf sevenKernel).sb 1).size.toNat / 512)
  have hnew : ∀ e ∈ sevenRootEntries, e.name ≠ ['h'] := by decide
  have hacc : ¬ (⟨['h'], 6, 2⟩ : Addition).Refused := by decide
  have hrun := (sevenKernel_directory.run_accepted W hnew hacc (by omega)).2
    (by rw [hsize]; decide)
  refine ⟨W, sevenKernel_directory, hnew, by omega, ?_⟩
  rintro (h | ⟨h, -⟩)
  · rw [h] at hrun
    cases hrun
  · rw [hrun] at h
    cases h

end IpoOs
