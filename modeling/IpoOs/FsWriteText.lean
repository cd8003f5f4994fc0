import IpoOs.FsLookups
import IpoOs.FsTaken

/-!
# Texts in files

`ipo_fs_write_text` resolves a path, creates the file where there is none,
and writes at the start of the file or at its end. The text is what the
file holds afterwards unless the file was longer: nothing shortens it.

The text is in the file after a call that returns true, at the start or at
the old end. That the file then holds the text and nothing after it is the
promise of the name, and needs the old file to be no longer than the text.
-/

namespace IpoOs

/-- The bytes of a file without holes. -/
structure Disk.HoldsText (d : Disk) (r : Inode) (s : Str) : Prop where
  size : r.size.toNat = s.length
  bytes : ∀ x (h : x < s.length), d.fileByte r x = some s[x]

/-- Reading the whole file through any descriptor delivers these bytes. -/
structure Kernel.Reads (u : Block) (k : Kernel Disk) (ino : Nat) (s : Str) : Prop where
  size : (k.disk.inodeAt k.sb ino).size.toNat = s.length
  read : ∀ fd, k.fdOk fd → (k.fds fd.toNat).inode = ino → ∀ buffer, ∃ out,
    ipoFsRead (diskDev u) fd buffer (k.disk.inodeAt k.sb ino).size 0 k = ((some s.length, out), k)
      ∧ ∀ i (h : i < s.length), out i = s[i]

section

variable {sb : Superblock} {d d' : Disk} {ino : Nat} {s t : Str} (u : Block)

theorem readFile_text (hint : d.IntPtrs (d.inodeAt sb ino)) (hv : sb.ValidIno ino)
    (h : d.HoldsText (d.inodeAt sb ino) s) (buffer : Buf) :
    ∃ out, readFile ino buffer (d.inodeAt sb ino).size.toNat 0 (arrayDev u) sb d
        = ((some s.length, out), d)
      ∧ ∀ i (h : i < s.length), out i = s[i] := by
  rcases Nat.eq_zero_or_pos s.length with h0 | hpos
  · refine ⟨buffer, ?_, fun i hi => by omega⟩
    simp [readFile, readInode_array, hv, h.size, h0]
  · have hmap : ∀ x, 0 ≤ x → x < 0 + s.length →
        (d.lookup (d.inodeAt sb ino) (x / 512)).isSome := by
      intro x _ hx
      obtain ⟨pos, hpos, h0, -⟩ := Disk.fileByte_eq_some.mp (h.bytes x (by omega))
      exact Option.isSome_iff_exists.mpr
        ⟨_, Disk.lookup_eq_some.mpr ⟨pos, hpos, rfl, h0, hint pos⟩⟩
    have hbyte : ∀ x, 0 ≤ x → x < 0 + s.length →
        d.fileByte (d.inodeAt sb ino) x = some (cstr s (x - 0)) := by
      intro x _ hx
      rw [h.bytes x (by omega), cstr_lt (by omega)]
      rfl
    obtain ⟨out, hrun, hout⟩ := readFile_spec u hv hpos (by rw [h.size, Nat.zero_add]) hmap hbyte
      buffer
    refine ⟨out, ?_, fun i hi => ?_⟩
    · rw [h.size, hrun, asInt_eq_some.mpr ⟨rfl, lt_of_mapped hmap⟩]
    · rw [hout i, if_pos hi, cstr_lt hi]

theorem Disk.HoldsText.reads {k : Kernel Disk} (O : OwnedVol k.sb (intBound k.sb) k.disk)
    (hv : k.sb.ValidIno ino) (h : k.disk.HoldsText (k.disk.inodeAt k.sb ino) s) :
    k.Reads u ino s where
  size := h.size
  read fd hfd hino buffer := by
    obtain ⟨out, hrun, hout⟩ := readFile_text u (O.intPtrs ino) hv h buffer
    refine ⟨out, ?_, hout⟩
    rcases ipoFsRead_run u k fd buffer (k.disk.inodeAt k.sb ino).size 0 with ⟨-, hread⟩ | ⟨hno, -⟩
    · rw [hread, hino]
      exact congrArg (fun r => (r.1, k)) hrun
    · exact absurd hfd hno

/-! ## The write

A write from the start or from the end, which stores all of the text or does
not return its length. -/

/-- A write of `len` bytes that counts them all: the size of the file. -/
theorem writeFile_full_size (hv : sb.ValidIno ino) {buffer : Buf} {offset len : Nat}
    (hrun : writeFile ino buffer len offset (arrayDev u) sb d = (some len, d'))
    (hoff : offset < 4294967296) :
    (d'.inodeAt sb ino).size.toNat = max (d.inodeAt sb ino).size.toNat (offset + len) := by
  obtain ⟨w, d₁, hrun₁, hend, -, hsize⟩ := @writeFile_reached u sb d ino hv buffer offset len
  rw [hrun] at hrun₁
  obtain ⟨hw, rfl⟩ := Prod.mk.inj hrun₁
  obtain rfl := Option.some.inj hw
  have hlt : offset + len < 4294967296 := by
    rcases Nat.eq_zero_or_pos len with rfl | hpos
    · exact hoff
    · exact Nat.lt_of_le_of_lt (hend hpos) (by decide)
  rw [hsize, Inode.size_grownTo hlt]

variable (L : SoundLayout sb) (O : OwnedVol sb (intBound sb) d)

include L O

/-- A text behind bytes that are mapped, written in full up to the end of the file or over it. -/
theorem writeFile_text (hv : sb.ValidIno ino) {old : Str} (hold : old.length < 4294967296)
    (hbytes : ∀ x (h : x < old.length), d.fileByte (d.inodeAt sb ino) x = some old[x])
    (hsize : (d.inodeAt sb ino).size.toNat ≤ old.length + t.length)
    (hrun : writeFile ino (cstr t) t.length old.length (arrayDev u) sb d = (some t.length, d')) :
    d'.HoldsText (d'.inodeAt sb ino) (old ++ t) where
  size := by
    rw [writeFile_full_size u hv hrun hold, List.length_append]
    omega
  bytes x hx := by
    rw [List.length_append] at hx
    obtain ⟨w, d₂, hrun₂, -, -, hwrote, -⟩ :=
      writeFile_wrote L u (blockBound_int sb) O hv (cstr t) t.length hold
    rw [hrun] at hrun₂
    obtain ⟨hw, rfl⟩ := Prod.mk.inj hrun₂
    obtain rfl := Option.some.inj hw
    rcases Nat.lt_or_ge x old.length with hlt | hge
    · rw [hwrote.kept x _ (Or.inl hlt) (hbytes x hlt), List.getElem_append_left hlt]
    · have hb := hwrote.written (x - old.length) (by omega)
      rw [Nat.add_sub_cancel' hge, cstr_lt (by omega)] at hb
      rw [hb, List.getElem_append_right hge]

end

/-! ## The call

The three parts of the call, and the file before it. -/

section

variable {u : Block} {k : Kernel Disk} {path text : CString} {append : Bool}

/-- Where `ipo_fs_write_text` writes: at the end of the file or at its start. -/
def textOffset (append : Bool) (r : Inode) : UInt32 := if append then r.size else 0

theorem ipoFsStat_some {ino : Nat} {r : Inode} (h : (ipoFsStat (diskDev u) path k).1 = some r)
    (hv : k.sb.ValidIno ino)
    (hres : (pathResolve (arrayDev u) k.sb path.chars k.disk).1 = some ino) :
    r = k.disk.inodeAt k.sb ino := by
  rw [ipoFsStat_run] at h
  split at h
  · have hread := readOnly_pathResolve u k.sb path.chars k.disk
    simp only [statPath, Prog.run_bind, hres, show _ = k.disk from hread, readInode_array,
      if_pos hv] at h
    exact (Option.some.inj h).symm
  · cases h

/-- A text written in full: the file that the path names and the write to it. -/
theorem writeTextAt_true (hlen : text.chars.length < 4294967296)
    (h : (writeTextAt (diskDev u) path text append k).1 = true) :
    ∃ ino i d', (k.sb.ValidIno ino ∧ (k.disk.inodeAt k.sb ino).isDir = false
        ∧ (pathResolve (arrayDev u) k.sb path.chars k.disk).1 = some ino)
      ∧ writeFile ino (cstr text.chars) text.chars.length
          (textOffset append (k.disk.inodeAt k.sb ino)).toNat (arrayDev u) k.sb k.disk
        = (some text.chars.length, d')
      ∧ (writeTextAt (diskDev u) path text append k).2 = { k.opened i ino with disk := d' } := by
  have hstat : (ipoFsStat (diskDev u) path k).2 = k := by
    rw [ipoFsStat_run]
    split <;> rfl
  have hlen' : (UInt32.ofNat text.chars.length).toNat = text.chars.length := by
    rw [UInt32.toNat_ofNat', Nat.mod_eq_of_lt hlen]
  unfold writeTextAt at h ⊢
  simp only [Prog.run_bind, hstat] at h ⊢
  cases hs : (ipoFsStat (diskDev u) path k).1 with
  | none =>
      rw [hs] at h
      cases h
  | some r =>
      rw [hs] at h
      simp only [Prog.run_ite] at h ⊢
      split at h
      · cases h
      · rename_i hr
        rw [if_neg hr]
        simp only [Prog.run_bind] at h ⊢
        rcases ipoFsOpen_run u k path with hopen | ⟨ino, i, -, htarget, hfirst, hopen⟩
        · rw [hopen] at h
          cases h
        · obtain ⟨hv, hdir, hres⟩ := openTarget_some htarget
          obtain rfl := ipoFsStat_some hs hv hres
          have hlt := firstUnused_lt hfirst
          have hfd : (k.opened i ino).fdOk i := ⟨by omega, by omega, by
            rw [Int.toNat_natCast, Kernel.opened_fd]⟩
          rw [hopen] at h ⊢
          simp only [Prog.run_bind, Prog.run_pure] at h ⊢
          rcases ipoFsWrite_run u (k.opened i ino) i (cstr text.chars)
              (UInt32.ofNat text.chars.length) (textOffset append (k.disk.inodeAt k.sb ino)) with
            ⟨-, hwrite⟩ | ⟨hno, -⟩
          · rw [Int.toNat_natCast, Kernel.opened_fd, hlen'] at hwrite
            refine ⟨ino, i, _, ⟨hv, hdir, hres⟩, Prod.ext ?_ rfl, congrArg Prod.snd hwrite⟩
            have hw := of_decide_eq_true h
            rw [show (if append = true then _ else _ : UInt32) = textOffset append _ from rfl,
              hwrite, u32_of_lt hlen] at hw
            exact hw
          · exact absurd hfd hno

/-- The path names a file, and reading it whole delivers these bytes. -/
def Kernel.NamesText (u : Block) (k : Kernel Disk) (path : Str) (s : Str) : Prop :=
  ∃ ino, (pathResolve (arrayDev u) k.sb path k.disk).1 = some ino ∧ k.Reads u ino s

/-- The bytes of the file that a path names, without holes; none where it names nothing. -/
def Kernel.OldText (u : Block) (k : Kernel Disk) (path : Str) (s : Str) : Prop :=
  ((pathResolve (arrayDev u) k.sb path k.disk).1 = none ∧ s = [])
    ∨ ∃ ino, (pathResolve (arrayDev u) k.sb path k.disk).1 = some ino
      ∧ k.disk.HoldsText (k.disk.inodeAt k.sb ino) s

/-- What `ipo_fs_write_text` is to leave: the text, or the old bytes and the text behind them. -/
def StoresText (u : Block) (k k' : Kernel Disk) (path text : Str) (append : Bool) : Prop :=
  (append = false → k'.NamesText u path text)
    ∧ (append = true → ∀ old, k.OldText u path old → k'.NamesText u path (old ++ text))

/-- The text written at its place, in the state after a possible creation. -/
structure WroteText (u : Block) (k k' : Kernel Disk) (path text : Str) (append : Bool)
    (ino : Nat) : Prop where
  resolve : (pathResolve (arrayDev u) k.sb path k.disk).1 = some ino
  resolve' : (pathResolve (arrayDev u) k'.sb path k'.disk).1 = some ino
  size : (k'.disk.inodeAt k'.sb ino).size.toNat
    = max (k.disk.inodeAt k.sb ino).size.toNat
      ((textOffset append (k.disk.inodeAt k.sb ino)).toNat + text.length)
  overwrites : append = false → (k.disk.inodeAt k.sb ino).size.toNat ≤ text.length →
    k'.Reads u ino text
  behind : append = true → ∀ old, k.disk.HoldsText (k.disk.inodeAt k.sb ino) old →
    k'.Reads u ino (old ++ text)

theorem writeTextAt_wrote (hk : VolOk k) (hlen : text.chars.length < 4294967296)
    (h : (writeTextAt (diskDev u) path text append k).1 = true) :
    ∃ ino, WroteText u k (writeTextAt (diskDev u) path text append k).2 path.chars text.chars
      append ino := by
  obtain ⟨ino, i, d', ⟨hv, hdir, hres⟩, hrun, hstate⟩ := writeTextAt_true hlen h
  have hok := writeTextAt_ok (u := u) hk path text append
  have htou := writeFile_touched hk.layout hk.bound u hk.owned ino (cstr text.chars)
    text.chars.length (textOffset append (k.disk.inodeAt k.sb ino)).toNat
  rw [hstate] at hok ⊢
  rw [hrun] at htou
  have hreads : ∀ s, d'.HoldsText (d'.inodeAt k.sb ino) s →
      ({ k.opened i ino with disk := d' } : Kernel Disk).Reads u ino s :=
    fun s hs => Disk.HoldsText.reads u hok.owned hv hs
  refine ⟨ino, hres, ?_, writeFile_full_size u hv hrun (UInt32.toNat_lt _), ?_, ?_⟩
  · have hsame := htou.pathResolve (u := u) (by rw [hdir]; decide) path.chars
    rw [hres] at hsame
    exact hsame
  · rintro rfl hsize
    have hnone : ∀ x (h : x < ([] : Str).length),
        k.disk.fileByte (k.disk.inodeAt k.sb ino) x = some [][x] :=
      fun x hx => absurd hx (Nat.not_lt_zero x)
    exact hreads _ (writeFile_text u hk.layout hk.owned hv (by decide) hnone (by simpa using hsize)
      hrun)
  · rintro rfl old hold
    have hoff : (textOffset true (k.disk.inodeAt k.sb ino)).toNat = old.length := hold.size
    rw [hoff] at hrun
    have hlt := (k.disk.inodeAt k.sb ino).size.toNat_lt
    rw [hold.size] at hlt
    exact hreads _ (writeFile_text u hk.layout hk.owned hv hlt hold.bytes
      (by rw [hold.size]; exact Nat.le_add_right _ _) hrun)

/-- The state in which a successful `ipo_fs_write_text` writes: the path named a file, or now
names a new one, which is empty. -/
theorem ipoFsWriteText_true (hk : VolOk k)
    (h : (ipoFsWriteText (diskDev u) path text append k).1 = true) :
    ∃ k₁, VolOk k₁ ∧ (writeTextAt (diskDev u) path text append k₁).1 = true
      ∧ (ipoFsWriteText (diskDev u) path text append k).2
        = (writeTextAt (diskDev u) path text append k₁).2
      ∧ (k₁ = k ∨ (pathResolve (arrayDev u) k.sb path.chars k.disk).1 = none
        ∧ ∀ ino, (pathResolve (arrayDev u) k₁.sb path.chars k₁.disk).1 = some ino →
          (k₁.disk.inodeAt k₁.sb ino).size = 0) := by
  have hres : (withFs (diskDev u) (fun dev sb => pathResolve dev sb path.chars) k).2 = k := by
    rw [withFs_run, readOnly_pathResolve u k.sb path.chars k.disk]
  unfold ipoFsWriteText at h ⊢
  rw [Prog.run_bind, getKernel_run, Prog.run_ite] at h ⊢
  split at h
  · cases h
  · rename_i hmounted
    rw [if_neg hmounted]
    rw [Prog.run_bind, hres] at h ⊢
    cases hr : (withFs (diskDev u) (fun dev sb => pathResolve dev sb path.chars) k).1 with
    | some ino =>
        rw [hr] at h
        exact ⟨k, hk, h, rfl, Or.inl rfl⟩
    | none =>
        rw [hr] at h
        simp only [Prog.run_bind] at h ⊢
        have hok := ipoFsCreate_ok (u := u) hk path typeFile
        have hcreate := ipoFsCreate_run u k path typeFile
        rw [if_pos (not_not.mp hmounted)] at hcreate
        cases hc : createEntry path.chars typeFile (arrayDev u) k.sb k.disk with
        | mk i d₁ =>
            rw [hc] at hcreate
            rw [hcreate] at hok h ⊢
            cases i with
            | none => cases h
            | some i =>
                refine ⟨_, hok, h, rfl, Or.inr ⟨hr, fun ino hino => ?_⟩⟩
                exact createEntry_resolves hk.layout hk.owned hk.count hc hr hino

/-- `ipo_fs_write_text` leaves the text, or the old bytes and the text behind them, exactly when it
appends or the file was not longer than the text. -/
theorem ipoFsWriteText_stores (hk : VolOk k) (hlen : text.chars.length < 4294967296)
    (h : (ipoFsWriteText (diskDev u) path text append k).1 = true) :
    StoresText u k (ipoFsWriteText (diskDev u) path text append k).2 path.chars text.chars append
      ↔ append = true ∨ ∀ ino, (pathResolve (arrayDev u) k.sb path.chars k.disk).1 = some ino →
        (k.disk.inodeAt k.sb ino).size.toNat ≤ text.chars.length := by
  obtain ⟨k₁, hk₁, hwrite, hstate, hcase⟩ := ipoFsWriteText_true hk h
  obtain ⟨ino, W⟩ := writeTextAt_wrote hk₁ hlen hwrite
  rw [hstate]
  cases append with
  | true =>
      refine ⟨fun _ => Or.inl rfl, fun _ => ⟨fun hc => (by cases hc), fun _ old hold => ?_⟩⟩
      refine ⟨ino, W.resolve', W.behind rfl old ?_⟩
      rcases hcase with rfl | ⟨hnone, hempty⟩
      · rcases hold with ⟨hnone, -⟩ | ⟨ino', hres, hold⟩
        · rw [W.resolve] at hnone
          cases hnone
        · rw [W.resolve] at hres
          exact Option.some.inj hres ▸ hold
      · rcases hold with ⟨-, rfl⟩ | ⟨ino', hres, -⟩
        · exact ⟨by rw [hempty ino W.resolve]; rfl, fun x hx => absurd hx (Nat.not_lt_zero x)⟩
        · rw [hnone] at hres
          cases hres
  | false =>
      -- the size is that of the longer one
      have hsize := W.size
      simp only [textOffset, Bool.false_eq_true, if_false, UInt32.toNat_zero, Nat.zero_add] at hsize
      constructor
      · rintro ⟨hstores, -⟩
        obtain ⟨ino', hres', hreads⟩ := hstores rfl
        rw [W.resolve'] at hres'
        obtain rfl := Option.some.inj hres'
        have hsize' := hreads.size
        refine Or.inr fun ino' hres => ?_
        rcases hcase with rfl | ⟨hnone, -⟩
        · rw [W.resolve] at hres
          obtain rfl := Option.some.inj hres
          omega
        · rw [hnone] at hres
          cases hres
      · intro hshort
        replace hshort := hshort.resolve_left (by decide)
        refine ⟨fun _ => ⟨ino, W.resolve', W.overwrites rfl ?_⟩, fun hc => (by cases hc)⟩
        rcases hcase with rfl | ⟨-, hempty⟩
        · exact hshort ino W.resolve
        · rw [hempty ino W.resolve]
          exact Nat.zero_le _

end

theorem pathX_chars : (0 : UInt8) ∉ slash :: [120] := by decide

/-- The path `/x`, and the texts `AB` and `C`. -/
def pathX : CString := rootPath [120] pathX_chars

def textAB : CString := ⟨[65, 66], by decide⟩

def textC : CString := ⟨[67], by decide⟩

/-- The mounted kernel with the text `AB` in `/x`. -/
def textKernel : Kernel Disk :=
  (ipoFsWriteText (diskDev Buf.zero) pathX textAB false (mountedKernel 12 6)).2

theorem textKernel_run : FsRun Buf.zero (fun _ _ => True) (formattedKernel 12 6) textKernel :=
  mountedKernel_run.tail ⟨.writeText pathX textAB false, trivial, rfl⟩

theorem textKernel_volOk : VolOk textKernel :=
  FsRun.volOk textKernel_run (ipoFsFormat_ok formattedKernel_run (by decide) (by decide))

theorem textKernel_over :
    (ipoFsWriteText (diskDev Buf.zero) pathX textC false textKernel).1 = true := by
  decide +kernel

theorem ipoFsWriteText_stores_over :
    StoresText Buf.zero textKernel
        (ipoFsWriteText (diskDev Buf.zero) pathX textC false textKernel).2 pathX.chars textC.chars
          false
      ↔ false = true ∨ ∀ ino,
        (pathResolve (arrayDev Buf.zero) textKernel.sb pathX.chars textKernel.disk).1 = some ino →
        (textKernel.disk.inodeAt textKernel.sb ino).size.toNat ≤ textC.chars.length := by
  have hlen : textC.chars.length < 4294967296 := by decide
  exact ipoFsWriteText_stores textKernel_volOk hlen textKernel_over

/-- `C` written over `AB`: the call succeeds and the file holds `CB`. -/
theorem ipoFsWriteText_keeps_tail :
    FsRun Buf.zero (fun _ _ => True) (formattedKernel 12 6) textKernel
    ∧ VolOk textKernel
    ∧ (ipoFsWriteText (diskDev Buf.zero) pathX textC false textKernel).1 = true
    ∧ ¬ StoresText Buf.zero textKernel
        (ipoFsWriteText (diskDev Buf.zero) pathX textC false textKernel).2 pathX.chars textC.chars
        false := by
  refine ⟨textKernel_run, textKernel_volOk, textKernel_over, fun h => ?_⟩
  obtain ⟨ino, hres, hreads⟩ := h.1 rfl
  have hino : (pathResolve (arrayDev Buf.zero)
      (ipoFsWriteText (diskDev Buf.zero) pathX textC false textKernel).2.sb pathX.chars
      (ipoFsWriteText (diskDev Buf.zero) pathX textC false textKernel).2.disk).1 = some 4 := by
    decide +kernel
  have hsize : ((ipoFsWriteText (diskDev Buf.zero) pathX textC false textKernel).2.disk.inodeAt
      (ipoFsWriteText (diskDev Buf.zero) pathX textC false textKernel).2.sb 4).size = 2 := by
    decide +kernel
  rw [hino] at hres
  obtain rfl := Option.some.inj hres
  have hone := hreads.size
  rw [hsize] at hone
  exact absurd hone (by decide)

end IpoOs
