import IpoOs.FsImage

/-!
# A write and the read after it

`ipo_fs_write` on a volume with owned blocks is a write to one file:
what it reports as written is read back by `ipo_fs_read`, the other
bytes of the file keep their value or are new zeros, and no other inode
and no directory entry of another directory changes.

The two functions are connected by `Disk.fileByte`: the write says which
bytes of the file it has set, the read returns the bytes of the file. The
one place where they differ is the clamp of the read at the recorded size,
and the write has raised the size before.
-/

namespace IpoOs

/-- The directory entry in slot `e`; none where no block is mapped. -/
def Disk.dirSlot (d : Disk) (din : Inode) (e : Nat) : Option DirEntry :=
  match d.findPhys din e with
  | none => none
  | some p => if p = 0 then none else some (DirEntry.decode (d p) (e % 7 * 72))

theorem SameFile.findPhys {d d' : Disk} {r : Inode} (h : SameFile d r d' r) (e : Nat) :
    d'.findPhys r e = d.findPhys r e := by
  unfold Disk.findPhys
  rw [h.lookup]

theorem Disk.ptr_of_findPhys {d : Disk} {r : Inode} {e p : Nat}
    (h : d.findPhys r e = some p) :
    ∃ pos, posOf (e / 7) = some pos ∧ d.ptr r pos = p := by
  unfold Disk.findPhys at h
  split at h
  · rename_i hlt
    exact ⟨.direct ⟨e / 7, hlt⟩, by rw [posOf, dif_pos hlt], Option.some.inj h⟩
  · obtain ⟨pos, hpos, hp, -, -⟩ := Disk.lookup_eq_some.mp h
    exact ⟨pos, hpos, hp⟩

theorem SameFile.dirSlot {d d' : Disk} {r : Inode} (h : SameFile d r d' r) (e : Nat) :
    d'.dirSlot r e = d.dirSlot r e := by
  unfold Disk.dirSlot
  rw [h.findPhys]
  cases hp : d.findPhys r e with
  | none => rfl
  | some p =>
      rcases em (p = 0) with h0 | h0
      · simp only [h0, if_true]
      · obtain ⟨pos, -, rfl⟩ := Disk.ptr_of_findPhys hp
        simp only [h0, if_false, h.block pos h0]

/-- A write of `w` bytes at `offset` to inode `ino`, and of nothing else. -/
structure WroteFile (sb : Superblock) (buffer : Buf) (offset w ino : Nat) (d d' : Disk) :
    Prop where
  written : ∀ i, i < w → d'.fileByte (d'.inodeAt sb ino) (offset + i) = some (buffer i)
  kept : ∀ x v, x < offset ∨ offset + w ≤ x → d.fileByte (d.inodeAt sb ino) x = some v →
    d'.fileByte (d'.inodeAt sb ino) x = some v
  fresh : ∀ x v, x < offset ∨ offset + w ≤ x → d.fileByte (d.inodeAt sb ino) x = none →
    d'.fileByte (d'.inodeAt sb ino) x = some v → v = 0
  otherSize : ∀ i, i ≠ ino → (d'.inodeAt sb i).size = (d.inodeAt sb i).size
  otherBytes : ∀ i, i ≠ ino → ∀ x, d'.fileByte (d'.inodeAt sb i) x = d.fileByte (d.inodeAt sb i) x
  otherSlots : ∀ i, i ≠ ino → ∀ e, d'.dirSlot (d'.inodeAt sb i) e = d.dirSlot (d.inodeAt sb i) e

theorem atBlock_start {offset size : Nat} (hsize : 0 < size) (hend : offset + size < 4294967296) :
    AtBlock offset size (blockCount offset size) (offset / 512) 0 := by
  have hsub : sub32 (u32 (offset + size)) 1 = offset + size - 1 := by
    rw [u32_of_lt hend]
    exact sub32_of_le (by omega) (by omega)
  refine ⟨by omega, fun _ => ⟨Nat.le_refl _, ?_, by rw [if_pos rfl]⟩⟩
  rw [blockCount, hsub]
  omega

section

variable {sb : Superblock} {hi : Nat} {d d' : Disk} {ino : Nat} {r' : Inode}
  (L : SoundLayout sb) (u : Block)

include L

theorem Changed.sameFile_putInode {T : Nat → Inode} {r : Inode} (hv : sb.ValidIno ino)
    (h : Changed sb hi T ino r d r' d') {r'' : Inode}
    (hroot : r''.root = r'.root) : SameFile d' r' (d'.putInode sb ino r'') r'' where
  ptr pos := by
    have hvol := h.owned.volPtr_of_data fun q hq => L.putInode_data hv r'' hq
    have hpos := congrFun hvol (ino, pos)
    rw [volPtr_self, volPtr_self] at hpos
    rw [Disk.ptr_of_root_eq hroot, hpos]
  block pos h0 := by
    have hlow := h.owned.lower (ino, pos) (by rw [volPtr_self]; exact h0)
    rw [volPtr_self] at hlow
    exact L.putInode_data hv r'' hlow

omit L in
/-- A read of a mapped range inside the file delivers its bytes. -/
theorem readFile_spec (hv : sb.ValidIno ino) {offset size : Nat} {f : Buf} (hsize : 0 < size)
    (hin : offset + size ≤ (d.inodeAt sb ino).size.toNat)
    (hmap : ∀ x, offset ≤ x → x < offset + size →
      (d.lookup (d.inodeAt sb ino) (x / 512)).isSome)
    (hbyte : ∀ x, offset ≤ x → x < offset + size →
      d.fileByte (d.inodeAt sb ino) x = some (f (x - offset))) (out : Buf) :
    ∃ out', readFile ino out size offset (arrayDev u) sb d = ((asInt size, out'), d)
      ∧ ∀ i, out' i = if i < size then f i else out i := by
  have hlt := (d.inodeAt sb ino).size.toNat_lt
  have hat := @atBlock_start offset size hsize (by omega)
  have hsub : sub32 (u32 (offset + size)) 1 = offset + size - 1 := by
    rw [u32_of_lt (by omega)]
    exact sub32_of_le (by omega) (by omega)
  have hn : 0 < blockCount offset size := by
    rw [blockCount, hsub]
    omega
  obtain ⟨out', hrun, hout⟩ := @readBlocks_spec u sb d (d.inodeAt sb ino) offset size
    (blockCount offset size) (offset / 512) 0 u out f hsize hat (by omega)
    (by rw [blockCount, hsub]; omega) hmap hbyte
  refine ⟨out', ?_, fun i => ?_⟩
  · have h1 : ¬ offset ≥ (d.inodeAt sb ino).size.toNat := by omega
    have h2 : ¬ u32 (offset + size) > (d.inodeAt sb ino).size.toNat := by
      rw [u32_of_lt (by omega)]
      omega
    have hu : (arrayDev u).uninit = u := rfl
    simp only [readFile, Prog.run_bind, readInode_array, if_pos hv, h1, if_false, h2, hu, hrun,
      Prog.run_pure]
  · rw [hout i]
    simp only [Nat.zero_le, true_and]

omit L in
theorem Inode.size_grownTo {r : Inode} {n : Nat} (h : n < 4294967296) :
    (r.grownTo (u32 n)).size.toNat = max r.size.toNat n := by
  rw [u32_of_lt h]
  unfold Inode.grownTo
  split
  · rw [UInt32.toNat_ofNat', Nat.mod_eq_of_lt h]
    omega
  · omega

omit L in
theorem lt_of_posOf {l : Nat} {pos : Pos} (h : posOf l = some pos) : l < 16518 := by
  unfold posOf at h
  split at h
  · omega
  · split at h
    · omega
    · split at h
      · omega
      · cases h

omit L in
theorem lt_of_mapped {r : Inode} {offset w : Nat} (h : ∀ x, offset ≤ x → x < offset + w →
    (d.lookup r (x / 512)).isSome) : w < 2147483648 := by
  by_contra hw
  obtain ⟨p, hp⟩ := Option.isSome_iff_exists.mp (h (offset + (w - 1)) (by omega) (by omega))
  obtain ⟨pos, hpos, -⟩ := Disk.lookup_eq_some.mp hp
  have hlt := lt_of_posOf hpos
  omega

omit L in
theorem end_of_mapped {r : Inode} {offset w : Nat} (hoffset : offset < 4294967296)
    (h : ∀ x, offset ≤ x → x < offset + w → (d.lookup r (x / 512)).isSome) :
    offset + w < 4294967296 := by
  rcases Nat.eq_zero_or_pos w with rfl | hpos
  · exact hoffset
  · obtain ⟨p, hp⟩ := Option.isSome_iff_exists.mp (h (offset + (w - 1)) (by omega) (by omega))
    obtain ⟨pos, hposb, -⟩ := Disk.lookup_eq_some.mp hp
    have hlt := lt_of_posOf hposb
    omega

/-- The write of a range to an inode of the volume: some of the first bytes are written. -/
theorem writeFile_wrote (B : BlockBound sb hi) (O : OwnedVol sb hi d) (hv : sb.ValidIno ino)
    (buffer : Buf) (size : Nat) {offset : Nat} (hoffset : offset < 4294967296) :
    ∃ w d', writeFile ino buffer size offset (arrayDev u) sb d = (some w, d')
      ∧ w ≤ size ∧ w < 2147483648 ∧ WroteFile sb buffer offset w ino d d'
      ∧ (d'.inodeAt sb ino).size.toNat = max (d.inodeAt sb ino).size.toNat (offset + w)
      ∧ ∀ x, offset ≤ x → x < offset + w → (d'.lookup (d'.inodeAt sb ino) (x / 512)).isSome := by
  obtain ⟨w, r', d₁, hrun, hch, ht, hle, hwrote⟩ := writeFile_spec L B u O hv buffer size offset
  have hint := lt_of_mapped hwrote.mapped
  have hat : (d₁.putInode sb ino (r'.grownTo (u32 (offset + w)))).inodeAt sb ino
      = r'.grownTo (u32 (offset + w)) := by
    rw [L.inodeAt_putInode hv, if_pos rfl]
  have hroot : (r'.grownTo (u32 (offset + w))).root = r'.root := by
    unfold Inode.grownTo
    split <;> rfl
  have hsame := hch.sameFile_putInode L hv hroot
  rw [asInt_eq_some.mpr ⟨rfl, hint⟩] at hrun
  refine ⟨w, _, hrun, hle, hint, ⟨fun i hi => ?_, fun x v hx h => ?_, fun x v hx h h' => ?_,
    fun i hi => ?_, fun i hi x => ?_, fun i hi e => ?_⟩, ?_, fun x hx hx' => ?_⟩
  · rw [hat, hsame.fileByte, hwrote.written (offset + i) (by omega) (by omega),
      Nat.add_sub_cancel_left]
  · rw [hat, hsame.fileByte]
    exact hwrote.kept x v hx h
  · rw [hat, hsame.fileByte] at h'
    exact hwrote.fresh x v hx h h'
  · rw [ht.inodeAt i hi]
  · rw [ht.inodeAt i hi, (ht.same i hi).fileByte]
  · rw [ht.inodeAt i hi, (ht.same i hi).dirSlot]
  · rw [hat, Inode.size_grownTo (end_of_mapped hoffset hwrote.mapped), hch.fields.2.1]
  · rw [hat, hsame.lookup]
    exact hwrote.mapped x hx hx'

end

/-- A write through a used descriptor. A negative result is a descriptor whose inode number is
none of the volume, and then nothing has changed. A result `w` means that the first `w` bytes of
the buffer are in the file, that nothing else has changed, and that reading them back delivers
them. -/
theorem ipoFsWrite_read {u : Block} {k : Kernel Disk} (L : SoundLayout k.sb)
    (O : OwnedVol k.sb k.sb.fsSizeBlocks.toNat k.disk) {fd : Int} (hfd : k.fdOk fd)
    (buffer : Buf) (size offset : UInt32) :
    (¬ k.sb.ValidIno (k.fds fd.toNat).inode
      ∧ ipoFsWrite (diskDev u) fd buffer size offset k = (none, k))
    ∨ ∃ w k', ipoFsWrite (diskDev u) fd buffer size offset k = (some w, k') ∧ w ≤ size.toNat
      ∧ (0 < w → ∀ out, ∃ out',
          ipoFsRead (diskDev u) fd out (UInt32.ofNat w) offset k' = ((some w, out'), k')
          ∧ ∀ i, out' i = if i < w then buffer i else out i)
      ∧ WroteFile k.sb buffer offset.toNat w (k.fds fd.toNat).inode k.disk k'.disk := by
  rcases ipoFsWrite_run u k fd buffer size offset with ⟨-, hrun⟩ | ⟨hno, -⟩
  · rcases em (k.sb.ValidIno (k.fds fd.toNat).inode) with hv | hv
    · obtain ⟨w, d', hfile, hle, hint, hwrote, hgrown, hmap⟩ :=
        writeFile_wrote L u (blockBound_size k.sb) O hv buffer size.toNat offset.toNat_lt
      rw [hfile] at hrun
      refine Or.inr ⟨w, _, hrun, hle, fun hpos out => ?_, hwrote⟩
      have hofNat : (UInt32.ofNat w).toNat = w := by
        rw [UInt32.toNat_ofNat']
        omega
      obtain ⟨out', hread, hout⟩ := readFile_spec u hv hpos (hgrown ▸ Nat.le_max_right _ _) hmap
        (fun x hx hx' => by
          have hb := hwrote.written (x - offset.toNat) (by omega)
          rwa [show offset.toNat + (x - offset.toNat) = x by omega] at hb) out
      refine ⟨out', ?_, hout⟩
      rcases ipoFsRead_run u { k with disk := d' } fd out (UInt32.ofNat w) offset with
        ⟨-, hrun'⟩ | ⟨hno, -⟩
      · rw [hrun', hofNat, hread, asInt_eq_some.mpr ⟨rfl, hint⟩]
      · exact absurd hfd hno
    · rw [writeFile_invalid u hv] at hrun
      exact Or.inl ⟨hv, hrun⟩
  · exact absurd hfd hno

/-- 600 bytes written to the empty `/autorun` from its byte 5 on: all of them are stored. -/
theorem ipoFsWrite_read_autorun :
    ∃ k', ipoFsWrite (diskDev Buf.zero) 0 (fun _ => 65) 600 5 openedKernel = (some 600, k')
      ∧ (∀ out, ∃ out', ipoFsRead (diskDev Buf.zero) 0 out (UInt32.ofNat 600) 5 k'
        = ((some 600, out'), k')
        ∧ ∀ i, out' i = if i < 600 then (fun _ => 65 : Buf) i else out i)
      ∧ WroteFile openedKernel.sb (fun _ => 65) (5 : UInt32).toNat 600
        (openedKernel.fds (0 : Int).toNat).inode openedKernel.disk k'.disk := by
  have hres : (ipoFsWrite (diskDev Buf.zero) 0 (fun _ => 65) 600 5 openedKernel).1 = some 600 := by
    decide +kernel
  have hall := ipoFsWrite_read (u := Buf.zero) openedKernel_volOk.layout
    (openedKernel_volOk.owned.raise openedKernel_volOk.bound.le) openedKernel_fdOk (fun _ => 65) 600
      5
  rcases hall with ⟨-, hrun⟩ | ⟨w, k', hrun, -, hread, hwrote⟩
  · rw [hrun] at hres
    cases hres
  · rw [hrun] at hres
    obtain rfl := Option.some.inj hres
    exact ⟨k', hrun, hread (by decide), hwrote⟩

end IpoOs
