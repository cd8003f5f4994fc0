import IpoOs.EdDir
import IpoOs.FsTransfer

/-!
# What `cat` and `ipo_fs_read` return

Both read a file block by block along the same pointers. They differ at a
block that is not mapped: the kernel stops there and returns a short
count, the editor goes on with the index `-1`. So the two agree exactly
when every block below the file's size is mapped and the walk to it stays
inside the image file.

The condition is about the file and its pointers on both sides: a block
below the size that is not mapped makes the kernel stop and the editor read
the sector before the volume.
-/

namespace IpoOs

/-- The pointer blocks above a data position. -/
def Pos.tables : Pos → List Pos
  | .single _ => [.indirect]
  | .leaf j _ => [.double, .table j]
  | _ => []

/-- The pointer blocks above a position are in the file. -/
def DiskImage.Walkable (img : DiskImage) (r : Inode) (pos : Pos) : Prop :=
  ∀ t ∈ pos.tables, img.Holds (img.disk.ptr r t)

instance (img : DiskImage) (r : Inode) (pos : Pos) : Decidable (img.Walkable r pos) :=
  inferInstanceAs (Decidable (∀ t ∈ pos.tables, img.Holds (img.disk.ptr r t)))

/-- Block `b` of a file can be read: it is mapped, and the pointer blocks above it and
the block itself are in the file. -/
def DiskImage.Readable (img : DiskImage) (r : Inode) (b : Nat) : Prop :=
  ∃ pos p, posOf b = some pos ∧ img.disk.lookup r b = some p ∧ img.Walkable r pos ∧ img.Holds p

/-! ## The editor's look-up of a mapped block

A walk through tables that lie inside the image file returns the block that
the kernel looks up. -/

section

variable {img : DiskImage} {r : Inode}

theorem walkable_single {j : Fin 128} :
    img.Walkable r (.single j) ↔ img.Holds r.indirect.toNat := by
  simp only [DiskImage.Walkable, Pos.tables, List.mem_singleton, forall_eq, Disk.ptr]

theorem walkable_leaf {j k : Fin 128} :
    img.Walkable r (.leaf j k) ↔ img.Holds r.doubleIndirect.toNat
      ∧ img.Holds (img.disk.entry r.doubleIndirect.toNat j.val) := by
  simp only [DiskImage.Walkable, Pos.tables, List.mem_cons, List.not_mem_nil, or_false,
    forall_eq_or_imp, forall_eq, Disk.ptr]

theorem Disk.entry_ne_zero {d : Disk} {q j : Nat} (h : d.entry q j ≠ 0) :
    q ≠ 0 ∧ d.entry q j = ((d q).word (4 * j)).toNat := by
  unfold Disk.entry at h ⊢
  rcases em (q = 0) with hq | hq
  · rw [if_pos hq] at h
    exact absurd rfl h
  · exact ⟨hq, if_neg hq⟩

theorem edGetSingle_mapped {q idx : Nat} (h : img.disk.entry q idx ≠ 0) :
    edGetSingle q idx false img
      = if img.Holds q then (.ok (img.disk.entry q idx : Int), img)
        else (.error (.disk "short read"), img) := by
  obtain ⟨-, hentry⟩ := Disk.entry_ne_zero h
  have hword : (img.disk q).word (4 * idx) ≠ 0 := by
    intro hc
    rw [hentry, hc] at h
    exact h rfl
  have hread := readBlock_eq img q
  unfold edGetSingle
  rcases em (img.Holds q) with hq | hq
  · rw [if_pos hq] at hread ⊢
    refine (Ed.run_bind_ok hread).trans ?_
    unfold edPointerEntry
    rw [if_neg hword, hentry]
    rfl
  · rw [if_neg hq] at hread ⊢
    exact Ed.run_bind_error hread

theorem edRootTable_mapped {field : UInt32} (h : field.toNat ≠ 0) (alloc : Bool) :
    edRootTable field.toNat alloc img = (.ok (some (field.toNat : Int)), img) := by
  unfold edRootTable
  rw [if_neg (by omega)]
  rfl

theorem edGetLeaf_mapped {q idx : Nat}
    (h : img.disk.entry (img.disk.entry q (idx / 128)) (idx % 128) ≠ 0) :
    edGetLeaf q idx false img
      = if img.Holds q ∧ img.Holds (img.disk.entry q (idx / 128)) then
          (.ok (img.disk.entry (img.disk.entry q (idx / 128)) (idx % 128) : Int), img)
        else (.error (.disk "short read"), img) := by
  obtain ⟨htable0, -⟩ := Disk.entry_ne_zero h
  obtain ⟨-, htable⟩ := Disk.entry_ne_zero htable0
  have hword : (img.disk q).word (4 * (idx / 128)) ≠ 0 := by
    intro hc
    rw [htable, hc] at htable0
    exact htable0 rfl
  have hread := readBlock_eq img q
  unfold edGetLeaf
  rcases em (img.Holds q) with hq | hq
  · rw [if_pos hq] at hread
    refine (Ed.run_bind_ok hread).trans ?_
    have hget : edGetTable q (img.disk q) (idx / 128) false img
        = (.ok (some ((img.disk.entry q (idx / 128) : Nat) : Int)), img) := by
      unfold edGetTable
      rw [if_neg hword, htable]
      rfl
    refine (Ed.run_bind_ok hget).trans ((edGetSingle_mapped h).trans ?_)
    simp only [hq, true_and]
  · rw [if_neg hq] at hread
    rw [if_neg (fun hc => hq hc.1)]
    exact Ed.run_bind_error hread

/-- The editor finds the block of a mapped index, if the walk to it stays in the file. -/
theorem edGetBlock_mapped {b : Nat} {pos : Pos} (hpos : posOf b = some pos)
    (hmap : img.disk.ptr r pos ≠ 0) :
    edGetBlockForInode (PyInode.ofInode r) b false img
      = if img.Walkable r pos then (.ok ((img.disk.ptr r pos : Int), PyInode.ofInode r), img)
        else (.error (.disk "short read"), img) := by
  unfold edGetBlockForInode
  unfold posOf at hpos
  rcases em (b < 6) with h6 | h6
  · rw [dif_pos h6] at hpos ⊢
    obtain rfl := Option.some.inj hpos
    have hfield : (PyInode.ofInode r).direct ⟨b, h6⟩ = ((r.direct ⟨b, h6⟩).toNat : Int) := rfl
    have hne : (PyInode.ofInode r).direct ⟨b, h6⟩ ≠ 0 := by
      rw [hfield]
      exact Int.natCast_ne_zero.mpr hmap
    have hwalk : img.Walkable r (.direct ⟨b, h6⟩) := nofun
    unfold edGetDirect
    rw [if_neg hne, if_pos hwalk]
    rfl
  · rw [dif_neg h6] at hpos ⊢
    rcases em (b - 6 < 128) with h128 | h128
    · rw [dif_pos h128] at hpos
      rw [if_pos h128]
      obtain rfl := Option.some.inj hpos
      have hroot := (Disk.entry_ne_zero hmap).1
      unfold edGetIndirect
      refine (Ed.run_bind_ok (edRootTable_mapped hroot false)).trans ?_
      show (edGetSingle _ _ _ >>= _) img = _
      have hget := edGetSingle_mapped hmap
      rcases em (img.Holds r.indirect.toNat) with hq | hq
      · rw [if_pos hq] at hget
        rw [if_pos (walkable_single.mpr hq)]
        exact Ed.run_bind_ok hget
      · rw [if_neg hq] at hget
        rw [if_neg (fun hc => hq (walkable_single.mp hc))]
        exact Ed.run_bind_error hget
    · rw [dif_neg h128] at hpos
      rw [if_neg h128]
      rcases em (b - 134 < 16384) with hbig | hbig
      · rw [dif_pos hbig] at hpos
        rw [if_neg (by omega)]
        obtain rfl := Option.some.inj hpos
        have hroot := (Disk.entry_ne_zero (Disk.entry_ne_zero hmap).1).1
        have hsub : b - 6 - 128 = b - 134 := by omega
        unfold edGetDouble
        refine (Ed.run_bind_ok (edRootTable_mapped hroot false)).trans ?_
        show (edGetLeaf _ _ _ >>= _) img = _
        rw [hsub]
        have hleaf : img.disk.entry (img.disk.entry r.doubleIndirect.toNat ((b - 134) / 128))
            ((b - 134) % 128) ≠ 0 := hmap
        have hget := edGetLeaf_mapped hleaf
        have hwalk := @walkable_leaf img r ⟨(b - 134) / 128, by omega⟩ ⟨(b - 134) % 128, by omega⟩
        split at hget
        · rename_i hq
          rw [if_pos (hwalk.mpr hq)]
          exact Ed.run_bind_ok hget
        · rename_i hq
          rw [if_neg (fun hc => hq (hwalk.mp hc))]
          exact Ed.run_bind_error hget
      · rw [dif_neg hbig] at hpos
        cases hpos

/-! ## The block loop of `cat`

Every block below the size, read and joined. -/

theorem length_blockBytes (b : Block) : (blockBytes b).length = 512 := by
  rw [blockBytes, List.length_map, List.length_range]

theorem edCatBlocks_length {n b : Nat} {img' : DiskImage} {data : List UInt8}
    (h : edCatBlocks (PyInode.ofInode r) n b img = (.ok data, img')) :
    data.length = 512 * n := by
  induction n generalizing b img img' data with
  | zero =>
      cases (Prod.mk.inj h).1
      rfl
  | succ n ih =>
      obtain ⟨res, img₁, -, h⟩ := Ed.bind_ok h
      obtain ⟨blk, img₂, -, h⟩ := Ed.bind_ok h
      obtain ⟨rest, img₃, hrest, h⟩ := Ed.bind_ok h
      obtain rfl := Except.ok.inj (Prod.mk.inj h).1
      have hblock := length_blockBytes blk
      have htail := ih hrest
      rw [List.length_append]
      omega

theorem getElem?_blockBytes (b : Block) {i : Nat} (hi : i < 512) :
    (blockBytes b)[i]? = some (b i) := by
  rw [blockBytes, List.getElem?_map, List.getElem?_range hi]
  rfl

theorem Disk.fileByte_of_lookup {d : Disk} {b p : Nat} (h : d.lookup r b = some p) {i : Nat}
    (hi : i < 512) : d.fileByte r (512 * b + i) = some (d p i) := by
  obtain ⟨pos, hpos, hptr, hne, -⟩ := Disk.lookup_eq_some.mp h
  have hdiv : (512 * b + i) / 512 = b := by omega
  have hmod : (512 * b + i) % 512 = i := by omega
  refine Disk.fileByte_eq_some.mpr ⟨pos, ?_, ?_, ?_⟩
  · rw [hdiv, hpos]
  · rw [hptr]
    exact hne
  · rw [hptr, hmod]

theorem catRound_run {b : Nat} (h : img.Readable r b) :
    ∃ p, img.disk.lookup r b = some p
      ∧ edGetBlockForInode (PyInode.ofInode r) b false img
        = (.ok ((p : Int), PyInode.ofInode r), img)
      ∧ readBlock p img = (.ok (img.disk p), img) := by
  obtain ⟨pos, p, hpos, hlook, hwalk, hin⟩ := h
  obtain ⟨pos', hpos', hptr, hne, -⟩ := Disk.lookup_eq_some.mp hlook
  cases hpos.symm.trans hpos'
  have hget := @edGetBlock_mapped img r b pos hpos (by rw [hptr]; exact hne)
  rw [if_pos hwalk, hptr] at hget
  have hread := readBlock_eq img p
  rw [if_pos hin] at hread
  exact ⟨p, hlook, hget, hread⟩

/-- Over blocks that can be read the loop returns the bytes of the file. -/
theorem edCatBlocks_run {n b : Nat} (h : ∀ c, b ≤ c → c < b + n → img.Readable r c) :
    ∃ data, edCatBlocks (PyInode.ofInode r) n b img = (.ok data, img)
      ∧ ∀ i, i < 512 * n → data[i]? = img.disk.fileByte r (512 * b + i) := by
  induction n generalizing b with
  | zero => exact ⟨[], rfl, fun i hi => absurd hi (Nat.not_lt_zero i)⟩
  | succ n ih =>
      obtain ⟨p, hlook, hget, hread⟩ := catRound_run (h b (Nat.le_refl b) (by omega))
      obtain ⟨rest, hrest, hbytes⟩ := @ih (b + 1) fun c h1 h2 => h c (by omega) (by omega)
      refine ⟨blockBytes (img.disk p) ++ rest, ?_, ?_⟩
      · unfold edCatBlocks
        rw [Ed.run_bind_ok hget, Ed.run_bind_ok hread, Ed.run_bind_ok hrest]
        rfl
      · intro i hi
        have hlen := length_blockBytes (img.disk p)
        rcases Nat.lt_or_ge i 512 with hlt | hge
        · rw [List.getElem?_append_left (by omega), getElem?_blockBytes _ hlt,
            Disk.fileByte_of_lookup hlook hlt]
        · have hpos : 512 * (b + 1) + (i - 512) = 512 * b + i := by omega
          rw [List.getElem?_append_right (by omega), hlen, hbytes (i - 512) (by omega), hpos]

/-- When the loop returns, every mapped block it passed could be read. -/
theorem readable_of_edCatBlocks {n b : Nat} {img' : DiskImage} {data : List UInt8}
    (h : edCatBlocks (PyInode.ofInode r) n b img = (.ok data, img')) {c : Nat} (h1 : b ≤ c)
    (h2 : c < b + n) (hmap : (img.disk.lookup r c).isSome) : img.Readable r c := by
  induction n generalizing b img' data with
  | zero => omega
  | succ n ih =>
      obtain ⟨res, img₁, hget, h₁⟩ := Ed.bind_ok h
      obtain ⟨blk, img₂, hread, h₂⟩ := Ed.bind_ok h₁
      obtain ⟨rest, img₃, hrest, -⟩ := Ed.bind_ok h₂
      obtain rfl := (keeps_edGetBlock _ _).same hget
      obtain rfl := (keeps_readBlock _).same hread
      rcases Nat.eq_or_lt_of_le h1 with rfl | hlt
      · obtain ⟨p, hp⟩ := Option.isSome_iff_exists.mp hmap
        obtain ⟨pos, hpos, hptr, hne, -⟩ := Disk.lookup_eq_some.mp hp
        have hrun := @edGetBlock_mapped img₂ r _ pos hpos (by rw [hptr]; exact hne)
        rw [hget, hptr] at hrun
        split at hrun
        · rename_i hwalk
          refine ⟨pos, p, hpos, hp, hwalk, ?_⟩
          cases (Prod.mk.inj hrun).1
          have hin := readBlock_eq img₂ p
          rw [hread] at hin
          split at hin
          · assumption
          · cases (Prod.mk.inj hin).1
        · cases (Prod.mk.inj hrun).1
      · exact ih hrest (by omega) (by omega)

end

/-! ## The block loop of `ipo_fs_read`

The whole file in one read, which is short exactly at a hole. -/

section

variable {sb : Superblock} {d : Disk} {r : Inode} {u : Block}

/-- The loop over a file from its start stops short at a block that is not mapped. -/
theorem readBlocks_short {size n b copied c : Nat} {tmp : Block} {out : Buf}
    (hcopied : copied = min (512 * b) size) (hn : b + n = blocksFor size) (h1 : b ≤ c)
    (h2 : c < b + n) (hnull : d.lookup r c = none) :
    (readBlocks (arrayDev u) sb r 0 0 size n b copied tmp out d).1.1 < size := by
  unfold blocksFor at hn
  induction n generalizing b copied tmp out with
  | zero => omega
  | succ n ih =>
      unfold readBlocks
      rw [Prog.run_bind, getDataBlock_lookup]
      cases hlook : d.lookup r b with
      | none =>
          show copied < size
          omega
      | some p =>
          have hne : b ≠ c := by
            rintro rfl
            rw [hnull] at hlook
            cases hlook
          have hoff : (if b = 0 then 0 % 512 else 0) = 0 := by
            split <;> rfl
          simp only [Prog.run_bind, hoff]
          refine ih ?_ (by omega) (by omega) (by omega)
          omega

theorem posOf_lt {b : Nat} {pos : Pos} (h : posOf b = some pos) : b < 16518 := by
  unfold posOf at h
  split at h
  · omega
  · split at h
    · omega
    · split at h
      · omega
      · cases h

variable {ino : Nat}

theorem readFile_whole (hv : sb.ValidIno ino)
    (hmap : ∀ b, b < blocksFor (d.inodeAt sb ino).size.toNat →
      (d.lookup (d.inodeAt sb ino) b).isSome) (buffer : Buf) :
    ∃ out, readFile ino buffer (d.inodeAt sb ino).size.toNat 0 (arrayDev u) sb d
        = ((some (d.inodeAt sb ino).size.toNat, out), d)
      ∧ ∀ i, i < (d.inodeAt sb ino).size.toNat →
        d.fileByte (d.inodeAt sb ino) i = some (out i) := by
  unfold blocksFor at hmap
  rcases Nat.eq_zero_or_pos (d.inodeAt sb ino).size.toNat with h0 | hpos
  · refine ⟨buffer, ?_, fun i hi => ?_⟩
    · unfold readFile
      rw [Prog.run_bind, readInode_array, if_pos hv, h0]
      show (if 0 ≥ (d.inodeAt sb ino).size.toNat then _ else _ : Prog Disk _) d = _
      rw [if_pos (by omega)]
      rfl
    · rw [h0] at hi
      exact absurd hi (Nat.not_lt_zero i)
  · have hbyte : ∀ x, x < (d.inodeAt sb ino).size.toNat →
        d.fileByte (d.inodeAt sb ino) x
          = some ((d.fileByte (d.inodeAt sb ino) x).getD 0) := by
      intro x hx
      obtain ⟨p, hp⟩ := Option.isSome_iff_exists.mp (hmap (x / 512) (by omega))
      have hlook := Disk.fileByte_of_lookup hp (Nat.mod_lt x (by decide))
      rw [Nat.div_add_mod] at hlook
      rw [hlook]
      rfl
    obtain ⟨out, hrun, hout⟩ := @readFile_spec sb d ino u hv 0 (d.inodeAt sb ino).size.toNat
      (fun x => (d.fileByte (d.inodeAt sb ino) x).getD 0) hpos (by omega)
      (fun x _ hx => hmap (x / 512) (by omega)) (fun x _ hx => hbyte x (by omega)) buffer
    refine ⟨out, ?_, fun i hi => ?_⟩
    · obtain ⟨p, hp⟩ := Option.isSome_iff_exists.mp
        (hmap (((d.inodeAt sb ino).size.toNat + 511) / 512 - 1) (by omega))
      obtain ⟨pos, hposof, -⟩ := Disk.lookup_eq_some.mp hp
      have hlt := posOf_lt hposof
      rw [hrun, asInt, if_pos (by omega)]
    · rw [hout i, if_pos hi]
      exact hbyte i hi

/-- A read of a whole file with a block that is not mapped is short. -/
theorem readFile_hole (hv : sb.ValidIno ino) {c : Nat}
    (hc : c < blocksFor (d.inodeAt sb ino).size.toNat)
    (hnull : d.lookup (d.inodeAt sb ino) c = none) (buffer : Buf) :
    (readFile ino buffer (d.inodeAt sb ino).size.toNat 0 (arrayDev u) sb d).1.1
      ≠ some (d.inodeAt sb ino).size.toNat := by
  have hlt := (d.inodeAt sb ino).size.toNat_lt
  have hpos : 0 < (d.inodeAt sb ino).size.toNat := by
    unfold blocksFor at hc
    omega
  have hu : u32 (0 + (d.inodeAt sb ino).size.toNat) = (d.inodeAt sb ino).size.toNat := by
    rw [Nat.zero_add]
    exact u32_of_lt hlt
  have hcount : blockCount 0 (d.inodeAt sb ino).size.toNat
      = blocksFor (d.inodeAt sb ino).size.toNat := by
    have hsub : sub32 (d.inodeAt sb ino).size.toNat 1 = (d.inodeAt sb ino).size.toNat - 1 :=
      sub32_of_le hpos hlt
    rw [blockCount, hu, hsub, blocksFor]
    omega
  have hshort := @readBlocks_short sb d (d.inodeAt sb ino) u (d.inodeAt sb ino).size.toNat
    (blocksFor (d.inodeAt sb ino).size.toNat) 0 0 c u buffer (by omega) (by omega) (by omega)
    (by omega) hnull
  intro hall
  unfold readFile at hall
  rw [Prog.run_bind, readInode_array, if_pos hv] at hall
  simp only [Prog.run_ite, Prog.run_bind, Prog.run_pure, hu, Nat.lt_irrefl, gt_iff_lt, if_false,
    hcount, Nat.zero_div] at hall
  rw [if_neg (by omega)] at hall
  exact absurd (asInt_eq_some.mp hall).1 (Nat.ne_of_lt hshort)

end

/-! ## The two together

The bytes that `cat` returns and the buffer of the read. -/

/-- A file whose inode slot is in the image, and each of whose blocks can be read. -/
def DiskImage.FileReadable (img : DiskImage) (ino : Nat) : Prop :=
  img.Holds (img.sb.inodeTableStart.toNat + (ino - 1) / 6)
    ∧ ∀ b, b < blocksFor (img.disk.inodeAt img.sb ino).size.toNat →
      img.Readable (img.disk.inodeAt img.sb ino) b

theorem isDir_ofInode (r : Inode) : (PyInode.ofInode r).isDir = r.isDir := by
  have hbit : (r.mode &&& 1).toNat = r.mode.toNat % 2 := by
    rw [UInt32.toNat_and]
    exact Nat.and_one_is_mod _
  unfold PyInode.isDir Inode.isDir PyInode.ofInode
  refine decide_eq_decide.mpr ?_
  rw [← hbit]
  constructor
  · intro h hc
    rw [hc] at h
    cases h
  · intro h
    have hne : (r.mode &&& 1).toNat ≠ 0 := fun hc => h (UInt32.toNat.inj hc)
    omega

/-- `read_inode` of a slot, on an image with 32-bit sector numbers. -/
theorem edReadInode_run {img : DiskImage} (hcount : img.count ≤ 4294967296) {ino : Nat}
    (hv : img.sb.ValidIno ino) :
    edReadInode ino img
      = if img.Holds (img.sb.inodeTableStart.toNat + (ino - 1) / 6) then
          (.ok (PyInode.ofInode (img.disk.inodeAt img.sb ino)), img)
        else (.error (.disk "short read"), img) := by
  obtain ⟨h1, h2⟩ := hv
  have hblock : slotBlock img.sb ino
      = ((img.sb.inodeTableStart.toNat + (ino - 1) / 6 : Nat) : Int) := by
    unfold slotBlock
    omega
  have hoffset : slotOffset ino = inodeOffset ino := by
    unfold slotOffset inodeOffset
    omega
  have hread := readBlock_eq img (img.sb.inodeTableStart.toNat + (ino - 1) / 6)
  have hvalid : ¬ ((ino : Int) ≤ 0 ∨ (ino : Int) > img.sb.inodeCount.toNat) := by omega
  unfold edReadInode
  refine (Ed.run_bind_ok (superblock_run img)).trans ?_
  rw [if_neg hvalid, hblock, hoffset]
  rcases em (img.Holds (img.sb.inodeTableStart.toNat + (ino - 1) / 6)) with hin | hin
  · rw [if_pos hin] at hread ⊢
    have hwrap : inodeBlock img.sb ino = img.sb.inodeTableStart.toNat + (ino - 1) / 6 := by
      unfold DiskImage.Holds at hin
      exact u32_of_lt (by omega)
    refine (Ed.run_bind_ok hread).trans ?_
    rw [Disk.inodeAt, if_pos ⟨h1, h2⟩, hwrap]
    rfl
  · rw [if_neg hin] at hread ⊢
    exact Ed.run_bind_error hread

theorem edCat_run {img : DiskImage} (hcount : img.count ≤ 4294967296) {path : PyStr} {ino : Nat}
    (hpath : (edPathResolve path img).1 = .ok (ino : Int)) (hv : img.sb.ValidIno ino)
    (hfile : (img.disk.inodeAt img.sb ino).isDir = false) :
    edCat path img
      = if img.Holds (img.sb.inodeTableStart.toNat + (ino - 1) / 6) then
          (edCatBlocks (PyInode.ofInode (img.disk.inodeAt img.sb ino))
            (blocksFor (img.disk.inodeAt img.sb ino).size.toNat) 0 >>= fun data =>
            pure (data.take (img.disk.inodeAt img.sb ino).size.toNat)) img
        else (.error (.disk "short read"), img) := by
  have hres : edPathResolve path img = (.ok (ino : Int), img) :=
    Prod.ext hpath (@keeps_edPathResolve DiskImage (fun img => img) path img)
  have hread := edReadInode_run hcount hv
  unfold edCat
  rw [Ed.run_bind_ok hres, if_neg (by omega)]
  rcases em (img.Holds (img.sb.inodeTableStart.toNat + (ino - 1) / 6)) with hin | hin
  · rw [if_pos hin] at hread ⊢
    rw [Ed.run_bind_ok hread, isDir_ofInode, hfile]
    rfl
  · rw [if_neg hin] at hread ⊢
    exact Ed.run_bind_error hread

/-- On every image whose volume is the kernel's disk, and for every regular file with an
open descriptor: `cat` returns what `ipo_fs_read` of the whole file delivers exactly
when every block of the file can be read. -/
theorem cat_eq_read (u : Block) (k : Kernel Disk) (img : DiskImage) (hsb : img.sb = k.sb)
    (hdisk : img.disk = k.disk) (hcount : img.count ≤ 4294967296) (path : PyStr) (ino : Nat)
    (hpath : (edPathResolve path img).1 = .ok (ino : Int)) (fd : Int) (hfd : k.fdOk fd)
    (hino : (k.fds fd.toNat).inode = ino) (hv : k.sb.ValidIno ino)
    (hfile : (k.disk.inodeAt k.sb ino).isDir = false) (buffer : Buf) :
    (∃ bytes out, (edCat path img).1 = .ok bytes
      ∧ (ipoFsRead (diskDev u) fd buffer (k.disk.inodeAt k.sb ino).size 0 k).1
        = (some bytes.length, out)
      ∧ ∀ i, i < bytes.length → bytes[i]? = some (out i))
    ↔ img.FileReadable ino := by
  have hcat := edCat_run hcount hpath (hsb ▸ hv) (by rw [hsb, hdisk]; exact hfile)
  have hread : (ipoFsRead (diskDev u) fd buffer (k.disk.inodeAt k.sb ino).size 0 k).1
      = (readFile ino buffer (k.disk.inodeAt k.sb ino).size.toNat 0 (arrayDev u) k.sb
          k.disk).1 := by
    rcases ipoFsRead_run u k fd buffer (k.disk.inodeAt k.sb ino).size 0 with ⟨-, hrun⟩ | ⟨hno, -⟩
    · rw [hrun, hino]
      rfl
    · exact absurd hfd hno
  unfold DiskImage.FileReadable
  rw [hread]
  rw [hsb, hdisk] at hcat ⊢
  have hsize := (k.disk.inodeAt k.sb ino).size.toNat_lt
  constructor
  · rintro ⟨bytes, out, hbytes, hout, -⟩
    rw [hcat] at hbytes
    split at hbytes
    · rename_i hin
      obtain ⟨data, img₁, hdata, hpure⟩ := Ed.bind_ok (Prod.ext hbytes rfl)
      obtain rfl := Except.ok.inj (Prod.mk.inj hpure).1
      have hlen := edCatBlocks_length hdata
      have hall : (data.take (k.disk.inodeAt k.sb ino).size.toNat).length
          = (k.disk.inodeAt k.sb ino).size.toNat := by
        rw [List.length_take, hlen]
        unfold blocksFor
        omega
      refine ⟨hin, fun b hb => readable_of_edCatBlocks hdata (Nat.zero_le b) (by omega) ?_⟩
      rw [hdisk]
      cases hlook : k.disk.lookup (k.disk.inodeAt k.sb ino) b with
      | some p => rfl
      | none =>
          have hshort := readFile_hole (u := u) hv hb hlook buffer
          rw [hout, hall] at hshort
          exact absurd rfl hshort
    · cases hbytes
  · rintro ⟨hin, hall⟩
    obtain ⟨data, hdata, hdbytes⟩ := @edCatBlocks_run img (k.disk.inodeAt k.sb ino)
      (blocksFor (k.disk.inodeAt k.sb ino).size.toNat) 0 fun c _ hc => hall c (by omega)
    obtain ⟨out, hrun, hobytes⟩ := @readFile_whole k.sb k.disk u ino hv (fun b hb => by
      obtain ⟨pos, p, -, hlook, -⟩ := hall b hb
      rw [hdisk] at hlook
      rw [hlook]
      rfl) buffer
    have hlen := edCatBlocks_length hdata
    have htake : (data.take (k.disk.inodeAt k.sb ino).size.toNat).length
        = (k.disk.inodeAt k.sb ino).size.toNat := by
      rw [List.length_take, hlen]
      unfold blocksFor
      omega
    rw [if_pos hin] at hcat
    refine ⟨data.take (k.disk.inodeAt k.sb ino).size.toNat, out, ?_, ?_, fun i hi => ?_⟩
    · rw [hcat, Ed.run_bind_ok hdata]
      rfl
    · rw [hrun, htake]
    · rw [htake] at hi
      have hblocks : i < 512 * blocksFor (k.disk.inodeAt k.sb ino).size.toNat := by
        unfold blocksFor
        omega
      rw [List.getElem?_take, if_pos hi, hdbytes i hblocks, hdisk]
      simp only [Nat.mul_zero, Nat.zero_add]
      exact hobytes i hi

/-! ## A file with and without a hole -/

/-- `/f`. -/
def pathF : CString := rootPath [102] (by decide)

/-- The mounted kernel with a byte written at an offset of the new file `/f`. -/
def fileKernel (offset : UInt32) : Kernel Disk :=
  (ipoFsWrite (diskDev Buf.zero) 0 Buf.zero 1 offset
    (ipoFsOpen (diskDev Buf.zero) pathF
      (ipoFsCreate (diskDev Buf.zero) pathF typeFile (mountedKernel 12 6)).2).2).2

theorem fileKernel_run (offset : UInt32) :
    FsRun Buf.zero (fun _ _ => True) (mountedKernel 12 6) (fileKernel offset) := by
  refine .tail (.tail (.single ⟨.create pathF typeFile, trivial, rfl⟩)
    ⟨.openFd pathF, trivial, rfl⟩) ⟨.write 0 Buf.zero 1 offset, trivial, rfl⟩

/-- An image with the volume of a kernel from sector 1 on. -/
def imageOf (k : Kernel Disk) : DiskImage where
  startLba := 1
  count := 13
  sectors := fun i => if i = 0 then Buf.zero else k.disk (i - 1)
  sb := k.sb

theorem imageOf_disk (k : Kernel Disk) : (imageOf k).disk = k.disk := by
  funext i
  show (if 1 + i = 0 then Buf.zero else k.disk (1 + i - 1)) = k.disk i
  rw [if_neg (by omega), Nat.add_sub_cancel_left]

theorem imageOf_sb (k : Kernel Disk) : (imageOf k).sb = k.sb := rfl

theorem ok_of_toOption {ε α : Type} {r : Except ε α} {a : α} (h : r.toOption = some a) :
    r = .ok a := by
  cases r with
  | error e => cases h
  | ok b => rw [Option.some.inj h]

theorem fileKernel_readable : (imageOf (fileKernel 0)).FileReadable 4 := by
  refine ⟨by decide +kernel, fun b hb => ?_⟩
  have hsize :
    blocksFor ((imageOf (fileKernel 0)).disk.inodeAt (imageOf (fileKernel 0)).sb 4).size.toNat
      = 1 := by decide +kernel
  rw [hsize] at hb
  obtain rfl : b = 0 := by omega
  exact ⟨.direct 0, 6, rfl, by decide +kernel, by decide +kernel, by decide +kernel⟩

/-- A byte at offset 0: `cat` and the read of the whole file agree. -/
theorem cat_eq_read_mapped :
    ∃ bytes out, (edCat ['/', 'f'] (imageOf (fileKernel 0))).1 = .ok bytes
      ∧ (ipoFsRead (diskDev Buf.zero) 0 Buf.zero
          ((fileKernel 0).disk.inodeAt (fileKernel 0).sb 4).size 0 (fileKernel 0)).1
        = (some bytes.length, out)
      ∧ ∀ i, i < bytes.length → bytes[i]? = some (out i) := by
  have hpath : (edPathResolve ['/', 'f'] (imageOf (fileKernel 0))).1 = .ok ((4 : Nat) : Int) :=
    ok_of_toOption (by decide +kernel)
  have hfd : (fileKernel 0).fdOk 0 := ⟨by decide, by decide, by decide +kernel⟩
  have hino : ((fileKernel 0).fds (0 : Int).toNat).inode = 4 := by decide +kernel
  have hv : (fileKernel 0).sb.ValidIno 4 := by decide +kernel
  have hfile : ((fileKernel 0).disk.inodeAt (fileKernel 0).sb 4).isDir = false := by
    decide +kernel
  exact (cat_eq_read Buf.zero (fileKernel 0) (imageOf (fileKernel 0)) (imageOf_sb (fileKernel 0))
    (imageOf_disk (fileKernel 0)) (by decide) ['/', 'f'] 4 hpath 0 hfd hino hv hfile
    Buf.zero).mpr fileKernel_readable

/-- A byte at offset 512 of an empty file: the kernel reads nothing, `cat` returns 513
bytes, the first 512 from the sector before the volume. -/
theorem cat_hole_differs :
    FsRun Buf.zero (fun _ _ => True) (mountedKernel 12 6) (fileKernel 512)
    ∧ ((fileKernel 512).fds 0).inode = 4
    ∧ ((fileKernel 512).disk.inodeAt (fileKernel 512).sb 4).isDir = false
    ∧ ((fileKernel 512).disk.inodeAt (fileKernel 512).sb 4).size = 513
    ∧ (edPathResolve ['/', 'f'] (imageOf (fileKernel 512))).1.toOption = some 4
    ∧ (edCat ['/', 'f'] (imageOf (fileKernel 512))).1.toOption.map List.length = some 513
    ∧ (ipoFsRead (diskDev Buf.zero) 0 Buf.zero 513 0 (fileKernel 512)).1.1 = some 0 :=
  ⟨fileKernel_run 512, by decide +kernel, by decide +kernel, by decide +kernel, by decide +kernel,
    by decide +kernel, by decide +kernel⟩

end IpoOs
