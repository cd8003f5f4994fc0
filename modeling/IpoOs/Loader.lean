import IpoOs.Descriptors
import IpoOs.FsEnds
import IpoOs.ProcessHeap

/-!
# The program loader

`load_ipob_file` on any volume: the chunks are read one after the other and
the loop stops short exactly where the file has a block that is not mapped,
so a file is loaded when it is one of the right size with all its blocks,
the magic, and an entry offset inside it; then the buffer holds its bytes.

The conditions for a valid image are on the file and its blocks, so they are
decided before the call. That the loop ends is part of the result: with one
round more than the file has bytes it never runs out.
-/

namespace IpoOs

/-- A byte of a file, where its block is mapped. -/
def Disk.mappedByte (d : Disk) (r : Inode) (i : Nat) : Option UInt8 :=
  (d.lookup r (i / 512)).map fun p => d p (i % 512)

section

variable {d : Disk} {r : Inode} {i : Nat}

theorem Disk.mappedByte_isSome : (d.mappedByte r i).isSome = (d.lookup r (i / 512)).isSome :=
  Option.isSome_map

theorem Disk.mappedByte_eq_none : d.mappedByte r i = none ↔ d.lookup r (i / 512) = none :=
  Option.map_eq_none_iff

theorem Disk.mappedByte_of_fileByte {v : UInt8} (hmap : (d.lookup r (i / 512)).isSome)
    (h : d.fileByte r i = some v) : d.mappedByte r i = some v := by
  obtain ⟨p, hp⟩ := Option.isSome_iff_exists.mp hmap
  obtain ⟨pos, hpos, hptr, -, -⟩ := Disk.lookup_eq_some.mp hp
  obtain ⟨pos', hpos', -, hv⟩ := Disk.fileByte_eq_some.mp h
  obtain rfl := Option.some.inj (hpos.symm.trans hpos')
  rw [Disk.mappedByte, hp, ← hptr]
  exact congrArg some hv

end

/-! ## One chunk

A read inside the file delivers the bytes up to the first block that is not
mapped. -/

/-- A read inside a file: it delivers the bytes of the file up to the first block that is not
mapped. -/
theorem readFile_chunk (u : Block) {sb : Superblock} {d : Disk} {ino : Nat} (hv : sb.ValidIno ino)
    (buffer : Buf) {offset size : Nat} (hpos : 0 < size)
    (hend : offset + size ≤ (d.inodeAt sb ino).size.toNat)
    (hsmall : offset + size < 2147483648) :
    ∃ count out, readFile ino buffer size offset (arrayDev u) sb d = ((some count, out), d)
      ∧ count ≤ size
      ∧ (∀ i, i < count → d.mappedByte (d.inodeAt sb ino) (offset + i) = some (out i))
      ∧ (count < size → d.mappedByte (d.inodeAt sb ino) (offset + count) = none) := by
  have hread : readInode (arrayDev u) sb ino d = (some (d.inodeAt sb ino), d) := by
    rw [readInode_array, if_pos hv]
  obtain ⟨m, out, hm, hrun, hmap, hstop, hbytes, -⟩ := readBlocks_reached u sb (d.inodeAt sb ino) d
    offset size (blockCount offset size) (offset / 512) (Nat.le_refl _) u buffer
  rw [reached_start] at hrun hbytes
  have hu32 : u32 (offset + size) = offset + size := u32_of_lt (by omega)
  have hcount : blockCount offset size = (offset + size - 1) / 512 + 1 - offset / 512 := by
    unfold blockCount
    rw [hu32, sub32_of_le (by omega) (by omega)]
  have hint : asInt (reached offset size (offset / 512 + m))
      = some (reached offset size (offset / 512 + m)) := by
    refine asInt_eq_some.mpr ⟨rfl, ?_⟩
    unfold reached
    omega
  refine ⟨reached offset size (offset / 512 + m), out, ?_, ?_, fun i hi => ?_, fun hlt => ?_⟩
  · have hu : (arrayDev u).uninit = u := rfl
    have hno : ¬ offset ≥ (d.inodeAt sb ino).size.toNat := by omega
    have hfits : ¬ offset + size > (d.inodeAt sb ino).size.toNat := by omega
    simp only [readFile, Prog.run_bind, hread, hno, if_false, hu32, hfits, hu, hrun, Prog.run_pure,
      hint]
  · unfold reached
    omega
  · have hi' : i < min size (512 * (offset / 512 + m) - offset) := hi
    exact Disk.mappedByte_of_fileByte (hmap _ (by omega) (by omega)) (hbytes i (Nat.zero_le i) hi)
  · have hlt' : min size (512 * (offset / 512 + m) - offset) < size := hlt
    have hblock : (offset + reached offset size (offset / 512 + m)) / 512 = offset / 512 + m := by
      unfold reached
      omega
    rw [Disk.mappedByte_eq_none, hblock]
    exact hstop (by omega)

/-! ## The loop

The chunks one after another. The induction is on what is left of the file. -/

section

variable {u : Block} {m : Machine Disk} {s : System Disk} {fd ino : Nat}

/-- What the read loop needs of the descriptor and the file. -/
structure Reading (u : Block) (m : Machine Disk) (s : System Disk) (fd ino : Nat) : Prop where
  dev : m.dev = diskDev u
  used : s.fs.fdOk fd
  inode : (s.fs.fds fd).inode = ino
  valid : s.fs.sb.ValidIno ino
  small : (s.fs.disk.inodeAt s.fs.sb ino).size.toNat ≤ maxProcessSize

theorem Reading.chunk (h : Reading u m s fd ino) (buffer : Buf) {total toRead : Nat}
    (hpos : 0 < toRead)
    (hend : total + toRead ≤ (s.fs.disk.inodeAt s.fs.sb ino).size.toNat) :
    ∃ count out, onFs (ipoFsRead m.dev fd buffer (UInt32.ofNat toRead) (UInt32.ofNat total)) s
        = ((some count, out), s)
      ∧ count ≤ toRead
      ∧ (∀ i, i < count → s.fs.disk.mappedByte (s.fs.disk.inodeAt s.fs.sb ino) (total + i)
        = some (out i))
      ∧ (count < toRead → s.fs.disk.mappedByte (s.fs.disk.inodeAt s.fs.sb ino) (total + count)
        = none) := by
  have hsmall := h.small
  have hmax : maxProcessSize = 536870912 := rfl
  have hword : UInt32.size = 4294967296 := rfl
  have htotal : (UInt32.ofNat total).toNat = total := UInt32.toNat_ofNat_of_lt' (by omega)
  have htoRead : (UInt32.ofNat toRead).toNat = toRead := UInt32.toNat_ofNat_of_lt' (by omega)
  obtain ⟨count, out, hrun, hrest⟩ := readFile_chunk u h.valid buffer hpos hend (by omega)
  refine ⟨count, out, ?_, hrest⟩
  rw [h.dev]
  rcases ipoFsRead_run u s.fs fd buffer (UInt32.ofNat toRead) (UInt32.ofNat total) with
    ⟨-, hread⟩ | ⟨hno, -⟩
  · have hino : (s.fs.fds ((fd : Int).toNat)).inode = ino := h.inode
    rw [hino, htotal, htoRead, hrun] at hread
    unfold onFs
    rw [hread]
  · exact absurd h.used hno

/-- The loop succeeds exactly when every byte from `total` on is in a mapped block, and the buffer
holds the bytes it read. -/
theorem Reading.rounds (h : Reading u m s fd ino) {size : Nat}
    (hsize : size = (s.fs.disk.inodeAt s.fs.sb ino).size.toNat) {n total : Nat}
    (hn : size - total < n) (image : Buf) :
    ∃ ok image', chunkRounds m fd size n total image s = (some (ok, image'), s)
      ∧ (ok = true ↔ ∀ i, total ≤ i → i < size →
        (s.fs.disk.mappedByte (s.fs.disk.inodeAt s.fs.sb ino) i).isSome)
      ∧ (ok = true → (∀ i, i < total → image' i = image i) ∧ ∀ i, total ≤ i → i < size →
        s.fs.disk.mappedByte (s.fs.disk.inodeAt s.fs.sb ino) i = some (image' i)) := by
  induction n generalizing total image with
  | zero => omega
  | succ n ih =>
      rcases Nat.lt_or_ge total size with hlt | hge
      · obtain ⟨count, out, hread, hcount, hbytes, hshort⟩ :=
          @Reading.chunk u m s fd ino h (fun i => image (total + i)) total
            (min (size - total) 65536) (by omega) (by omega)
        cases count with
        | zero =>
            have hnone : s.fs.disk.mappedByte (s.fs.disk.inodeAt s.fs.sb ino) total = none :=
              hshort (by omega)
            refine ⟨false, fun i => if i < total then image i else out (i - total), ?_,
              iff_of_false (by decide) fun hall => ?_, fun hok => ?_⟩
            · rw [chunkRounds, if_pos hlt, Prog.run_bind, hread]
              rfl
            · have hsome := hall total (Nat.le_refl _) hlt
              rw [hnone] at hsome
              cases hsome
            · cases hok
        | succ k =>
            have hless : size - (total + (k + 1)) < n := by omega
            obtain ⟨ok, image', hrest, hiff, hgot⟩ := ih hless fun i =>
              if i < total then image i else out (i - total)
            refine ⟨ok, image', ?_, hiff.trans ⟨fun hall i h1 h2 => ?_,
              fun hall i h1 h2 => hall i (by omega) h2⟩, fun hok => ?_⟩
            · rw [chunkRounds, if_pos hlt, Prog.run_bind, hread]
              exact hrest
            · rcases Nat.lt_or_ge i (total + (k + 1)) with hi | hi
              · have hbyte := hbytes (i - total) (by omega)
                rw [show total + (i - total) = i by omega] at hbyte
                rw [hbyte]
                rfl
              · exact hall i hi h2
            · obtain ⟨hkeep, hnew⟩ := hgot hok
              refine ⟨fun i hi => ?_, fun i h1 h2 => ?_⟩
              · rw [hkeep i (by omega), if_pos hi]
              · rcases Nat.lt_or_ge i (total + (k + 1)) with hi | hi
                · have hbyte := hbytes (i - total) (by omega)
                  rw [show total + (i - total) = i by omega] at hbyte
                  rw [hkeep i hi, if_neg (by omega), hbyte]
                · exact hnew i hi h2
      · refine ⟨true, image, ?_, iff_of_true rfl fun i h1 h2 => ?_, fun _ =>
          ⟨fun _ _ => rfl, fun i h1 h2 => ?_⟩⟩
        · rw [chunkRounds, if_neg (by omega)]
          rfl
        · omega
        · omega

theorem Reading.chunks (h : Reading u m s fd ino) {size : Nat}
    (hsize : size = (s.fs.disk.inodeAt s.fs.sb ino).size.toNat) (image : Buf) :
    ∃ ok image', readChunks m fd size image s = ((ok, image'), s)
      ∧ (ok = true ↔ ∀ i, i < size →
        (s.fs.disk.mappedByte (s.fs.disk.inodeAt s.fs.sb ino) i).isSome)
      ∧ (ok = true → ∀ i, i < size →
        s.fs.disk.mappedByte (s.fs.disk.inodeAt s.fs.sb ino) i = some (image' i)) := by
  have hn : size - 0 < size + 1 := by omega
  obtain ⟨ok, image', hrun, hiff, hgot⟩ := h.rounds hsize hn image
  refine ⟨ok, image', ?_, hiff.trans ⟨fun hall i => hall i (Nat.zero_le i),
    fun hall i _ => hall i⟩, fun hok i => (hgot hok).2 i (Nat.zero_le i)⟩
  simp [readChunks, hrun]

end

/-! ## The loader

What `load_ipob_file` returns, in terms of the file that the path names. -/

/-- The path names an inode that can be read. -/
def Kernel.FileAt (u : Block) (k : Kernel Disk) (path : CString) (ino : Nat) : Prop :=
  k.fsMounted = true ∧ (pathResolve (arrayDev u) k.sb path.chars k.disk).1 = some ino
    ∧ k.sb.ValidIno ino

/-- A file that is a valid image: its size, its blocks, the magic, and the entry offset. -/
structure Disk.ValidImage (d : Disk) (r : Inode) : Prop where
  file : r.isDir = false
  least : 20 ≤ r.size.toNat
  most : r.size.toNat ≤ 536870912
  mapped : ∀ b, b ≤ (r.size.toNat - 1) / 512 → (d.lookup r b).isSome
  header : ∃ header : Buf, (∀ i, i < 20 → d.mappedByte r i = some (header i))
    ∧ (∀ i : Fin 8, header i.val = ([73, 80, 79, 95, 66, 0, 0, 0] : List UInt8).getD i.val 0)
    ∧ header.word 8 < r.size

section

variable {u : Block} {m : Machine Disk} {s : System Disk} {path : CString} {ino : Nat}

theorem Disk.mapped_iff {d : Disk} {r : Inode} (hpos : 0 < r.size.toNat) :
    (∀ i, i < r.size.toNat → (d.mappedByte r i).isSome)
      ↔ ∀ b, b ≤ (r.size.toNat - 1) / 512 → (d.lookup r b).isSome := by
  constructor
  · intro h b hb
    have hbyte := h (512 * b) (by omega)
    rw [Disk.mappedByte_isSome, Nat.mul_div_cancel_left b (by decide)] at hbyte
    exact hbyte
  · intro h i hi
    rw [Disk.mappedByte_isSome]
    exact h (i / 512) (by omega)

theorem statPath_of_fileAt (h : s.fs.FileAt u path ino) :
    ipoFsStat (diskDev u) path s.fs = (some (s.fs.disk.inodeAt s.fs.sb ino), s.fs) := by
  obtain ⟨hmount, hres, hv⟩ := h
  rw [ipoFsStat_run, if_pos hmount]
  have hres' : pathResolve (arrayDev u) s.fs.sb path.chars s.fs.disk = (some ino, s.fs.disk) :=
    Prod.ext hres (readOnly_pathResolve u s.fs.sb path.chars s.fs.disk)
  unfold statPath
  rw [Prog.run_bind, hres']
  show ((readInode (arrayDev u) s.fs.sb ino s.fs.disk).1, s.fs) = _
  rw [readInode_array, if_pos hv]

theorem statPath_of_none (h : ∀ ino, ¬ s.fs.FileAt u path ino) :
    ipoFsStat (diskDev u) path s.fs = (none, s.fs) := by
  rw [ipoFsStat_run]
  split
  · rename_i hmount
    have hres' : pathResolve (arrayDev u) s.fs.sb path.chars s.fs.disk
        = ((pathResolve (arrayDev u) s.fs.sb path.chars s.fs.disk).1, s.fs.disk) :=
      Prod.ext rfl (readOnly_pathResolve u s.fs.sb path.chars s.fs.disk)
    unfold statPath
    rw [Prog.run_bind, hres']
    cases hres : (pathResolve (arrayDev u) s.fs.sb path.chars s.fs.disk).1 with
    | none => rfl
    | some ino =>
        show ((readInode (arrayDev u) s.fs.sb ino s.fs.disk).1, s.fs) = _
        rw [readInode_array, if_neg fun hv => h ino ⟨hmount, hres, hv⟩]
  · rfl

theorem ipoFsOpen_of_fileAt (h : s.fs.FileAt u path ino)
    (hfile : (s.fs.disk.inodeAt s.fs.sb ino).isDir = false)
    (hfree : ∃ i, i < 32 ∧ (s.fs.fds i).used = false) :
    ∃ fd, ipoFsOpen (diskDev u) path s.fs = (some fd, s.fs.opened fd ino) ∧ fd < 32 := by
  obtain ⟨hmount, hres, hv⟩ := h
  have hres' : pathResolve (arrayDev u) s.fs.sb path.chars s.fs.disk = (some ino, s.fs.disk) :=
    Prod.ext hres (readOnly_pathResolve u s.fs.sb path.chars s.fs.disk)
  have htarget : openTarget path.chars (arrayDev u) s.fs.sb s.fs.disk = (some ino, s.fs.disk) := by
    have hno : ¬ (s.fs.disk.inodeAt s.fs.sb ino).isDir = true := by
      rw [hfile]
      decide
    simp only [openTarget, Prog.run_bind, hres', readInode_array, if_pos hv, if_neg hno,
      Prog.run_pure]
  cases hfirst : firstUnused s.fs.fds 32 0 with
  | none =>
      obtain ⟨i, hi, hunused⟩ := hfree
      rw [firstUnused_none hfirst (Nat.zero_le i) (by omega)] at hunused
      cases hunused
  | some fd =>
      refine ⟨fd, ?_, by have := (firstUnused_some hfirst).2.1; omega⟩
      simp only [ipoFsOpen, Prog.run_bind, getKernel_run, hmount, not_true, if_false, withFs_run,
        htarget, hfirst, modifyKernel, Prog.run_pure, Kernel.opened]

/-- A file of the right size is read chunk by chunk, and then checked. -/
theorem loadIpobFile_file (hdev : m.dev = diskDev u) (hmalloc : m.mallocOk s.mallocs = true)
    (hfree : ∃ i, i < 32 ∧ (s.fs.fds i).used = false) (h : s.fs.FileAt u path ino)
    (hfile : (s.fs.disk.inodeAt s.fs.sb ino).isDir = false)
    (hleast : 20 ≤ (s.fs.disk.inodeAt s.fs.sb ino).size.toNat)
    (hmost : (s.fs.disk.inodeAt s.fs.sb ino).size.toNat ≤ 536870912) :
    ∃ ok image,
      (ok = true ↔ ∀ b, b ≤ ((s.fs.disk.inodeAt s.fs.sb ino).size.toNat - 1) / 512 →
        (s.fs.disk.lookup (s.fs.disk.inodeAt s.fs.sb ino) b).isSome)
      ∧ (ok = true → ∀ i, i < (s.fs.disk.inodeAt s.fs.sb ino).size.toNat →
        s.fs.disk.mappedByte (s.fs.disk.inodeAt s.fs.sb ino) i = some (image i))
      ∧ (loadIpobFile m path s).1 = if ok = false then (-4, 0, m.fresh)
        else if ipobMagicOk image = false then (-2, 0, m.fresh)
        else if image.word 8 ≥ (s.fs.disk.inodeAt s.fs.sb ino).size then (-2, 0, m.fresh)
        else (((s.fs.disk.inodeAt s.fs.sb ino).size.toNat : Int), s.mallocs + 1, image) := by
  obtain ⟨fd, hopen, hfd⟩ := ipoFsOpen_of_fileAt h hfile hfree
  have hstat := statPath_of_fileAt h
  generalize hr : s.fs.disk.inodeAt s.fs.sb ino = r at *
  -- the state after `kmalloc` and the open
  have hs : ∃ s' : System Disk, s' = { s with
      fs := s.fs.opened fd ino, mallocs := s.mallocs + 1, log :=
        s.log ++ [.alloc (s.mallocs + 1)] } :=
    ⟨_, rfl⟩
  obtain ⟨s', hs'⟩ := hs
  have hsame : s'.fs.disk.inodeAt s'.fs.sb ino = r := by
    rw [hs', ← hr]
    rfl
  have hread : Reading u m s' fd ino := by
    refine ⟨hdev, ⟨Int.natCast_nonneg _, by omega, ?_⟩, ?_, ?_, by rw [hsame]; exact hmost⟩
    · rw [hs']
      show (if fd = fd then (⟨true, ino, 0⟩ : Fd) else _).used = true
      rw [if_pos rfl]
    · rw [hs']
      show (if fd = fd then (⟨true, ino, 0⟩ : Fd) else _).inode = ino
      rw [if_pos rfl]
    · rw [hs']
      exact h.2.2
  have hsize : r.size.toNat = (s'.fs.disk.inodeAt s'.fs.sb ino).size.toNat := by rw [hsame]
  obtain ⟨ok, image, hrun, hiff, hgot⟩ := hread.chunks hsize m.fresh
  have hdisk : s'.fs.disk = s.fs.disk := by
    rw [hs']
    rfl
  rw [hsame, hdisk] at hiff hgot
  refine ⟨ok, image, hiff.trans (Disk.mapped_iff (by omega)), hgot, ?_⟩
  have hno : ¬ r.isDir = true := by
    rw [hfile]
    decide
  have hne : s.mallocs + 1 ≠ 0 := Nat.succ_ne_zero _
  have hstat' : onFs (ipoFsStat m.dev path) s = (some r, s) := by
    unfold onFs
    rw [hdev, hstat]
  have hkmalloc : kmallocCall m r.size.toNat s = (s.mallocs + 1, { s with
      mallocs := s.mallocs + 1, log := s.log ++ [.alloc (s.mallocs + 1)] }) := by
    unfold kmallocCall
    rw [if_pos hmalloc]
  have hopen' : onFs (ipoFsOpen m.dev path) { s with
      mallocs := s.mallocs + 1, log := s.log ++ [.alloc (s.mallocs + 1)] } = (some fd, s') := by
    unfold onFs
    rw [hdev]
    dsimp only
    rw [hopen, hs']
  have hsize1 : ¬ r.size.toNat < ipobHeaderSize := Nat.not_lt.mpr hleast
  have hsize2 : ¬ r.size.toNat > maxProcessSize := Nat.not_lt.mpr hmost
  unfold loadIpobFile
  rw [Prog.run_bind, hstat']
  dsimp only
  rw [if_neg hno, if_neg hsize1, if_neg hsize2, Prog.run_bind, hkmalloc]
  dsimp only
  rw [if_neg hne, Prog.run_bind, hopen']
  dsimp only
  rw [Prog.run_bind, hrun]
  dsimp only
  cases ok with
  | false => rfl
  | true =>
      cases hmagic : ipobMagicOk image with
      | false => rfl
      | true =>
          rcases em (image.word 8 ≥ r.size) with hout | hin
          · simp only [not_true_eq_false, if_false, if_pos hout, reduceCtorEq]
            rfl
          · simp only [not_true_eq_false, if_false, if_neg hin, reduceCtorEq]
            rfl

/-- A path that names no file of the right size is refused before anything is allocated. -/
theorem loadIpobFile_refused (hdev : m.dev = diskDev u)
    (h : (∀ ino, ¬ s.fs.FileAt u path ino) ∨ ∃ ino, s.fs.FileAt u path ino
      ∧ ((s.fs.disk.inodeAt s.fs.sb ino).isDir = true
        ∨ (s.fs.disk.inodeAt s.fs.sb ino).size.toNat < 20
        ∨ 536870912 < (s.fs.disk.inodeAt s.fs.sb ino).size.toNat)) :
    (loadIpobFile m path s).1 = (-1, 0, m.fresh) := by
  rcases h with hnone | ⟨ino, hfile, hbad⟩
  · have hstat : onFs (ipoFsStat m.dev path) s = (none, s) := by
      unfold onFs
      rw [hdev, statPath_of_none hnone]
    unfold loadIpobFile
    rw [Prog.run_bind, hstat]
    rfl
  · have hstat : onFs (ipoFsStat m.dev path) s = (some (s.fs.disk.inodeAt s.fs.sb ino), s) := by
      unfold onFs
      rw [hdev, statPath_of_fileAt hfile]
    generalize s.fs.disk.inodeAt s.fs.sb ino = r at *
    unfold loadIpobFile
    rw [Prog.run_bind, hstat]
    dsimp only
    split
    · rfl
    rename_i hdir
    split
    · rfl
    rename_i hleast
    split
    · rfl
    rename_i hmost
    rcases hbad with hd | hl | hm
    · exact absurd hd hdir
    · exact absurd hl hleast
    · exact absurd hm hmost

theorem word_congr {b b' : Buf} {off : Nat} (h : ∀ i, i < 4 → b (off + i) = b' (off + i)) :
    b.word off = b'.word off := by
  have h0 := h 0 (by decide)
  rw [Nat.add_zero] at h0
  unfold Buf.word
  rw [h0, h 1 (by decide), h 2 (by decide), h 3 (by decide)]

/-- The loader on a file: a valid image is loaded, and anything else is refused. -/
theorem loadIpobFile_result (hdev : m.dev = diskDev u) (hmalloc : m.mallocOk s.mallocs = true)
    (hfree : ∃ i, i < 32 ∧ (s.fs.fds i).used = false) (h : s.fs.FileAt u path ino) :
    (¬ s.fs.disk.ValidImage (s.fs.disk.inodeAt s.fs.sb ino) ∧ (loadIpobFile m path s).1.1 < 0)
    ∨ s.fs.disk.ValidImage (s.fs.disk.inodeAt s.fs.sb ino)
      ∧ (loadIpobFile m path s).1.1 = ((s.fs.disk.inodeAt s.fs.sb ino).size.toNat : Int)
      ∧ ∀ i, i < (s.fs.disk.inodeAt s.fs.sb ino).size.toNat →
        s.fs.disk.mappedByte (s.fs.disk.inodeAt s.fs.sb ino) i
          = some ((loadIpobFile m path s).1.2.2 i) := by
  have hneg : ∀ code : Int, code < 0 → (loadIpobFile m path s).1 = (code, 0, m.fresh) →
      (loadIpobFile m path s).1.1 < 0 := by
    intro code hcode hres
    rw [hres]
    exact hcode
  rcases em ((s.fs.disk.inodeAt s.fs.sb ino).isDir = true
      ∨ (s.fs.disk.inodeAt s.fs.sb ino).size.toNat < 20
      ∨ 536870912 < (s.fs.disk.inodeAt s.fs.sb ino).size.toNat) with hbad | hgood
  · refine Or.inl ⟨fun hvalid => ?_, hneg (-1) (by decide)
      (loadIpobFile_refused hdev (Or.inr ⟨ino, h, hbad⟩))⟩
    rcases hbad with hd | hl | hm
    · exact absurd (hd.symm.trans hvalid.file) (by decide)
    · exact absurd hvalid.least (Nat.not_le.mpr hl)
    · exact absurd hvalid.most (Nat.not_le.mpr hm)
  rw [not_or, not_or] at hgood
  have hfile := Bool.eq_false_iff.mpr hgood.1
  have hleast := Nat.not_lt.mp hgood.2.1
  have hmost := Nat.not_lt.mp hgood.2.2
  obtain ⟨ok, image, hmap, hbytes, hres⟩ :=
    loadIpobFile_file hdev hmalloc hfree h hfile hleast hmost
  generalize s.fs.disk.inodeAt s.fs.sb ino = r at *
  have hheader : s.fs.disk.ValidImage r → ok = true ∧ ipobMagicOk image = true
      ∧ ¬ image.word 8 ≥ r.size := by
    intro hvalid
    have hok := hmap.mpr hvalid.mapped
    obtain ⟨header, hh, hmagic, hentry⟩ := hvalid.header
    have hsame : ∀ i, i < 20 → image i = header i := fun i hi =>
      Option.some.inj ((hbytes hok i (by omega)).symm.trans (hh i hi))
    refine ⟨hok, decide_eq_true fun i => (hsame i.val (by omega)).trans (hmagic i), ?_⟩
    rw [word_congr fun i hi => hsame (8 + i) (by omega)]
    exact UInt32.not_le.mpr hentry
  rcases em (ok = true ∧ ipobMagicOk image = true ∧ ¬ image.word 8 ≥ r.size) with hall | hfail
  · obtain ⟨rfl, hmagic, hentry⟩ := hall
    rw [if_neg (by decide), hmagic, if_neg (by decide), if_neg hentry] at hres
    refine Or.inr ⟨⟨hfile, hleast, hmost, hmap.mp rfl, image, fun i hi => hbytes rfl i (by omega),
      fun i => of_decide_eq_true hmagic i, UInt32.not_le.mp hentry⟩, by rw [hres], ?_⟩
    rw [hres]
    exact hbytes rfl
  · refine Or.inl ⟨fun hvalid => hfail (hheader hvalid), ?_⟩
    split at hres
    · exact hneg (-4) (by decide) hres
    rename_i hok
    split at hres
    · exact hneg (-2) (by decide) hres
    rename_i hmagic
    split at hres
    · exact hneg (-2) (by decide) hres
    rename_i hentry
    exact absurd ⟨(Bool.not_eq_false _).mp hok, (Bool.not_eq_false _).mp hmagic, hentry⟩ hfail

/-! ## The header tool

What the tool that makes images writes in front of the code. -/

/-- `struct.pack('<I', v)`. -/
def packLe32 (v : UInt32) : List UInt8 := (List.range 4).map (Buf.wordBytes v)

/-- `gen_header`: the header of a code part; `none` where the size does not fit its field. -/
def genHeader (code : List UInt8) : Option (List UInt8) :=
  if code.length + 20 < 4294967296 then
    some ([73, 80, 79, 95, 66] ++ [0, 0, 0] ++ packLe32 20
      ++ packLe32 (UInt32.ofNat (code.length + 20)) ++ packLe32 0)
  else none

theorem length_packLe32 (v : UInt32) : (packLe32 v).length = 4 := by
  rw [packLe32, List.length_map, List.length_range]

theorem genHeader_length {code h : List UInt8} (hh : genHeader code = some h) : h.length = 20 := by
  unfold genHeader at hh
  split at hh
  · obtain rfl := Option.some.inj hh
    simp [length_packLe32]
  · cases hh

theorem genHeader_bytes {code h : List UInt8} (hh : genHeader code = some h) (rest : List UInt8) :
    (∀ i : Fin 8, (h ++ rest).getD i.val 0
      = ([73, 80, 79, 95, 66, 0, 0, 0] : List UInt8).getD i.val 0)
    ∧ (h ++ rest).getD 8 0 = 20 ∧ (h ++ rest).getD 9 0 = 0 ∧ (h ++ rest).getD 10 0 = 0
    ∧ (h ++ rest).getD 11 0 = 0 := by
  unfold genHeader at hh
  split at hh
  · obtain rfl := Option.some.inj hh
    have hentry : packLe32 20 = [20, 0, 0, 0] := by decide
    rw [hentry]
    refine ⟨fun i => ?_, rfl, rfl, rfl, rfl⟩
    fin_cases i <;> rfl
  · cases hh

/-! ## What is accepted

Valid images are loaded whole, and what the tool makes is valid. -/

/-- A file that holds these bytes, every one in a mapped block. -/
structure Disk.Contains (d : Disk) (r : Inode) (bytes : List UInt8) : Prop where
  file : r.isDir = false
  size : r.size.toNat = bytes.length
  bytes : ∀ i, i < bytes.length → d.mappedByte r i = some (bytes.getD i 0)

/-- What the loader does with a path: it accepts a valid image and loads it whole, and otherwise
fails and keeps no buffer. -/
theorem loadIpobFile_accepts (hdev : m.dev = diskDev u) (hmalloc : m.mallocOk s.mallocs = true)
    (hfree : ∃ i, i < 32 ∧ (s.fs.fds i).used = false) (path : CString) :
    (0 ≤ (loadIpobFile m path s).1.1
      ↔ ∃ ino, s.fs.FileAt u path ino ∧ s.fs.disk.ValidImage (s.fs.disk.inodeAt s.fs.sb ino))
    ∧ (∀ ino, s.fs.FileAt u path ino → 0 ≤ (loadIpobFile m path s).1.1 →
      (loadIpobFile m path s).1.1 = ((s.fs.disk.inodeAt s.fs.sb ino).size.toNat : Int)
      ∧ (loadIpobFile m path s).1.2.1 = s.mallocs + 1
      ∧ (loadIpobFile m path s).2.log = s.log ++ [.alloc (s.mallocs + 1)]
      ∧ ∀ i, i < (s.fs.disk.inodeAt s.fs.sb ino).size.toNat →
        s.fs.disk.mappedByte (s.fs.disk.inodeAt s.fs.sb ino) i
          = some ((loadIpobFile m path s).1.2.2 i))
    ∧ ((loadIpobFile m path s).1.1 < 0 → (loadIpobFile m path s).2.log = s.log
      ∨ (loadIpobFile m path s).2.log = s.log ++ [.alloc (s.mallocs + 1), .free (s.mallocs + 1)])
    ∧ (∀ fd size n image s', size < n → (chunkRounds m fd size n 0 image s').1.isSome)
    ∧ ∀ ino code header, s.fs.FileAt u path ino → genHeader code = some header → code ≠ [] →
      (header ++ code).length ≤ 536870912 →
      s.fs.disk.Contains (s.fs.disk.inodeAt s.fs.sb ino) (header ++ code) →
      (loadIpobFile m path s).1.1 = ((header ++ code).length : Int)
      ∧ (loadIpobFile m path s).1.2.2.word 8 = 20 := by
  obtain ⟨ev, hlog, hemits⟩ := loadIpobFile_emits m path s
  refine ⟨⟨fun hpos => ?_, ?_⟩, fun ino hfile hpos => ?_, fun hneg => ?_,
    fun fd size n image s' hn => chunkRounds_ends m fd (by omega) image s',
    fun ino code header hfile hheader hne hmost hbytes => ?_⟩
  · by_contra hno
    have hnone : ∀ ino, ¬ s.fs.FileAt u path ino := by
      intro ino hfile
      rcases loadIpobFile_result hdev hmalloc hfree hfile with ⟨-, hneg⟩ | ⟨hvalid, -⟩
      · omega
      · exact hno ⟨ino, hfile, hvalid⟩
    rw [loadIpobFile_refused hdev (Or.inl hnone)] at hpos
    have hneg : ¬ (0 : Int) ≤ -1 := by decide
    exact absurd hpos hneg
  · rintro ⟨ino, hfile, hvalid⟩
    rcases loadIpobFile_result hdev hmalloc hfree hfile with ⟨hno, -⟩ | ⟨-, hsize, -⟩
    · exact absurd hvalid hno
    · rw [hsize]
      exact Int.natCast_nonneg _
  · rcases loadIpobFile_result hdev hmalloc hfree hfile with ⟨-, hneg⟩ | ⟨-, hsize, hbytes⟩
    · omega
    · rcases hemits with ⟨hneg, -⟩ | ⟨-, hptr, rfl, -⟩
      · omega
      · exact ⟨hsize, hptr, hlog, hbytes⟩
  · rcases hemits with ⟨-, rfl | rfl⟩ | ⟨hpos, -⟩
    · exact Or.inl (hlog.trans (List.append_nil _))
    · exact Or.inr hlog
    · omega
  · obtain ⟨hmagic, h8, h9, h10, h11⟩ := genHeader_bytes hheader code
    have hlen : (header ++ code).length = 20 + code.length := by
      rw [List.length_append, genHeader_length hheader]
    have hcode : 0 < code.length := List.length_pos_iff.mpr hne
    have hsize := hbytes.size
    have hword : ∀ b : Buf, (∀ i, i < 20 → b i = (header ++ code).getD i 0) → b.word 8 = 20 := by
      intro b hb
      unfold Buf.word
      rw [hb 8 (by decide), hb 9 (by decide), hb 10 (by decide), hb 11 (by decide), h8, h9, h10,
        h11]
      rfl
    have hvalid : s.fs.disk.ValidImage (s.fs.disk.inodeAt s.fs.sb ino) := by
      refine ⟨hbytes.file, by omega, by omega, ?_, fun i => (header ++ code).getD i 0,
        fun i hi => hbytes.bytes i (by omega), hmagic, ?_⟩
      · refine (Disk.mapped_iff (by omega)).mp fun i hi => ?_
        rw [hbytes.bytes i (by omega)]
        rfl
      · rw [hword _ fun i _ => rfl, UInt32.lt_iff_toNat_lt, hsize, hlen]
        show 20 < 20 + code.length
        omega
    rcases loadIpobFile_result hdev hmalloc hfree hfile with ⟨hno, -⟩ | ⟨-, hres, hgot⟩
    · exact absurd hvalid hno
    · refine ⟨by rw [hres, hsize], hword _ fun i hi => ?_⟩
      exact Option.some.inj ((hgot i (by omega)).symm.trans (hbytes.bytes i (by omega)))

end

/-- The loader's machine: the allocator always has room. -/
def loadingMachine : Machine Disk where
  dev := diskDev Buf.zero
  mallocOk := fun _ => true
  fresh := Buf.zero
  program := fun _ => pure 0

/-- The image in `/autorun` is accepted. -/
theorem loadIpobFile_accepts_autorun :
    0 ≤ (loadIpobFile loadingMachine (rootPath autorunName (by decide)) imageSystem).1.1
    ∧ imageSystem.fs.disk.ValidImage (imageSystem.fs.disk.inodeAt imageSystem.fs.sb 3) := by
  have hmalloc : loadingMachine.mallocOk imageSystem.mallocs = true := rfl
  have hunused : (imageSystem.fs.fds 1).used = false := by decide +kernel
  have hpos : 0
      ≤ (loadIpobFile loadingMachine (rootPath autorunName (by decide)) imageSystem).1.1 := by
    decide +kernel
  have haccepts := (loadIpobFile_accepts rfl hmalloc ⟨1, by decide, hunused⟩
    (rootPath autorunName (by decide))).1.mp hpos
  obtain ⟨ino, hfile, hvalid⟩ := haccepts
  have hres : (pathResolve (arrayDev Buf.zero) imageSystem.fs.sb
      (rootPath autorunName (by decide)).chars imageSystem.fs.disk).1 = some 3 := by
    decide +kernel
  obtain rfl := Option.some.inj (hfile.2.1.symm.trans hres)
  exact ⟨hpos, hvalid⟩

end IpoOs
