import IpoOs.FsTransfer
import IpoOs.FsSpare

/-!
# Where a transfer ends

The block loops of `ipo_fs_read` and `ipo_fs_write` on any volume, owned
or not, and for any offset and size: after `m` blocks they have moved
`reached` bytes, and they stop at the first block they do not get. What
the two functions promise about the end of the file is then arithmetic
on the numbers they compute before the loop, in wrapping 32-bit words.

Offsets and sizes are words, and the functions add them. The exact
conditions under which the calls do what is expected are found by splitting
on whether such a sum wraps; where it does not, they are the expected ones.
-/

namespace IpoOs

/-! ## The block map of any volume

Without ownership little is left, but an index past the last position is
mapped nowhere, and the size of a record does not depend on a walk. -/

section

variable {σ : Type} (dev : BlockDev σ) (sb : Superblock)

theorem getDataBlock_limit (r : Inode) {l : Nat} (h : 16518 ≤ l) (alloc : Bool) (s : σ) :
    (getDataBlockForInode dev sb r l alloc s).1.1 = none := by
  unfold getDataBlockForInode
  rw [dif_neg (by omega), if_neg (by omega), if_pos (by omega)]
  rfl

theorem getDataBlock_size (r : Inode) (l : Nat) (alloc : Bool) (s : σ) :
    (getDataBlockForInode dev sb r l alloc s).1.2.size = r.size := by
  unfold getDataBlockForInode
  split
  · unfold getDirect
    split
    · split
      · rw [Prog.run_bind]
        generalize allocateBlock dev sb s = res
        obtain ⟨phys | phys, s₁⟩ := res <;> rfl
      · rfl
    · rfl
  · split
    · unfold getIndirect
      rw [Prog.run_bind]
      generalize rootTable dev sb r.indirect alloc s = res
      obtain ⟨block | block, s₁⟩ := res <;> rfl
    · split
      · rfl
      · unfold getDouble
        rw [Prog.run_bind]
        generalize rootTable dev sb r.doubleIndirect alloc s = res
        obtain ⟨block | block, s₁⟩ := res <;> rfl

end

/-! ## The loops

The two loops, with the number of rounds and the reason for the end. -/

section

variable (u : Block) (sb : Superblock)

/-- The read loop: it passes blocks that are mapped, stops at one that is not, and
delivers the bytes of those it passed. -/
theorem readBlocks_reached (r : Inode) (d : Disk) (offset size n b : Nat)
    (hb : offset / 512 ≤ b) (tmp : Block) (out : Buf) :
    ∃ m out', m ≤ n
      ∧ readBlocks (arrayDev u) sb r (offset / 512) offset size n b (reached offset size b) tmp out
        d
        = ((reached offset size (b + m), out'), d)
      ∧ (∀ c, b ≤ c → c < b + m → (d.lookup r c).isSome)
      ∧ (m < n → d.lookup r (b + m) = none)
      ∧ (∀ i, reached offset size b ≤ i → i < reached offset size (b + m) →
        d.fileByte r (offset + i) = some (out' i))
      ∧ ∀ i, i < reached offset size b ∨ reached offset size (b + m) ≤ i → out' i = out i := by
  induction n generalizing b tmp out with
  | zero =>
      refine ⟨0, out, Nat.le_refl _, rfl, ?_, ?_, ?_, fun _ _ => rfl⟩
      · intro c h1 h2
        omega
      · intro h
        omega
      · intro i h1 h2
        rw [Nat.add_zero] at h2
        omega
  | succ n ih =>
      cases hl : d.lookup r b with
      | none =>
          refine ⟨0, out, Nat.zero_le _, ?_, ?_, fun _ => hl, ?_, fun _ _ => rfl⟩
          · simp [readBlocks, getDataBlock_lookup, hl]
          · intro c h1 h2
            omega
          · intro i h1 h2
            rw [Nat.add_zero] at h2
            omega
      | some p =>
          obtain ⟨pos, hpos, hptr, hp0, -⟩ := Disk.lookup_eq_some.mp hl
          generalize hbo : (if b = offset / 512 then offset % 512 else 0) = bo
          have hstep := @reached_step offset size b bo hb hbo.symm
          obtain ⟨m, out', hm, hrun, hmap, hstop, hbytes, hrest⟩ := ih (b + 1) (by omega) (d p)
            (out.patch (reached offset size b) (min (512 - bo) (size - reached offset size b))
              fun i => d p (bo + i))
          rw [← hstep] at hrun hbytes hrest
          have hadd : b + 1 + m = b + (m + 1) := by omega
          rw [hadd] at hrun hstop hbytes hrest
          have hmono : reached offset size (b + 1) ≤ reached offset size (b + (m + 1)) := by
            unfold reached
            omega
          refine ⟨m + 1, out', by omega, ?_, ?_, fun h => hstop (by omega), ?_, ?_⟩
          · rw [← hrun]
            simp [readBlocks, getDataBlock_lookup, hl, hbo]
          · intro c h1 h2
            rcases Nat.eq_or_lt_of_le h1 with rfl | hlt
            · rw [hl]
              rfl
            · exact hmap c hlt (by omega)
          · intro i h1 h2
            rcases Nat.lt_or_ge i (reached offset size (b + 1)) with hlt | hge
            · obtain ⟨hdiv, hmod⟩ := reached_byte hb hbo.symm h1 hlt
              rw [hrest i (Or.inl (by omega)), Buf.patch_in h1 (by omega)]
              refine Disk.fileByte_eq_some.mpr ⟨pos, by rw [hdiv, hpos], ?_, ?_⟩
              · rw [hptr]
                exact hp0
              · rw [hptr, hmod]
            · exact hbytes i (by omega) h2
          · intro i hi
            rw [hrest i (by omega), Buf.patch_out (by omega)]

/-- The write loop: the bytes it counts, and that it leaves the size alone. -/
theorem writeBlocks_reached (buffer : Buf) (offset size n b : Nat) (hb : offset / 512 ≤ b)
    (tmp : Block) (r : Inode) (d : Disk) :
    ∃ m r' d', m ≤ n
      ∧ writeBlocks (arrayDev u) sb buffer (offset / 512) offset size n b (reached offset size b)
          tmp r d = ((reached offset size (b + m), r'), d')
      ∧ r'.size = r.size
      ∧ (0 < m → b + m ≤ 16518)
      ∧ (0 < m ↔ 0 < n ∧ (getDataBlockForInode (arrayDev u) sb r b true d).1.1.isSome) := by
  induction n generalizing b tmp r d with
  | zero => exact ⟨0, r, d, Nat.le_refl _, rfl, rfl, nofun, by simp⟩
  | succ n ih =>
      have hsize := getDataBlock_size (arrayDev u) sb r b true d
      have hlimit : 16518 ≤ b → (getDataBlockForInode (arrayDev u) sb r b true d).1.1 = none :=
        fun h => getDataBlock_limit (arrayDev u) sb r h true d
      generalize hres : getDataBlockForInode (arrayDev u) sb r b true d = res at hsize hlimit ⊢
      obtain ⟨⟨p | p, r₁⟩, d₁⟩ := res
      · exact ⟨0, r₁, d₁, Nat.zero_le _, by simp [writeBlocks, hres], hsize, nofun, by simp⟩
      · generalize hbo : (if b = offset / 512 then offset % 512 else 0) = bo
        have hstep := @reached_step offset size b bo hb hbo.symm
        have hlt : b < 16518 := by
          by_contra hc
          cases hlimit (by omega)
        generalize htmp : (d₁ p).patch bo (min (512 - bo) (size - reached offset size b))
          (fun i => buffer (reached offset size b + i)) = tmp'
        obtain ⟨m, r', d', hm, hrun, hsize', hlast, -⟩ := ih (b + 1) (by omega) tmp' r₁
          (d₁.set p tmp')
        rw [← hstep] at hrun
        have hadd : b + 1 + m = b + (m + 1) := by omega
        rw [hadd] at hrun
        refine ⟨m + 1, r', d', by omega, ?_, hsize'.trans hsize, ?_, by simp⟩
        · rw [← hrun]
          simp [writeBlocks, hres, hbo, htmp]
        · intro _
          rcases Nat.eq_zero_or_pos m with rfl | hpos
          · omega
          · have hle := hlast hpos
            omega

end

/-! ## The size after a write

The size grows to the end of what was stored, and a write that stores
nothing leaves it. Whether anything is stored is read off the state before
the call: the first block is mapped, or there are blocks for it. -/

/-- A write stores a byte: it has one to store, the range of blocks it computes is not
empty, and the file has the first block or there are free blocks for the way to it. -/
def Disk.StoresAt (d : Disk) (sb : Superblock) (r : Inode) (offset size : Nat) : Prop :=
  0 < size ∧ 0 < blockCount offset size ∧ d.Obtains sb r (offset / 512)

theorem writeFile_reached (u : Block) {sb : Superblock} {d : Disk} {ino : Nat}
    (hv : sb.ValidIno ino) (buffer : Buf) (offset size : Nat) :
    ∃ w d', writeFile ino buffer size offset (arrayDev u) sb d = (some w, d')
      ∧ (0 < w → offset + w ≤ 8457216)
      ∧ (0 < w ↔ 0 < size ∧ 0 < blockCount offset size
        ∧ (getDataBlockForInode (arrayDev u) sb (d.inodeAt sb ino)
          (offset / 512) true d).1.1.isSome)
      ∧ (d'.inodeAt sb ino).size
        = ((d.inodeAt sb ino).grownTo (u32 (offset + w))).size := by
  obtain ⟨m, r', d₁, hm, hrun, hsize, hlast, hpos⟩ := writeBlocks_reached u sb buffer offset size
    (blockCount offset size) (offset / 512) (Nat.le_refl _) u (d.inodeAt sb ino) d
  rw [reached_start] at hrun
  have hend : 0 < m → offset + reached offset size (offset / 512 + m) ≤ 8457216 := by
    intro h
    have hle := hlast h
    unfold reached
    omega
  have hzero : 0 < reached offset size (offset / 512 + m) ↔ 0 < size ∧ 0 < m := by
    unfold reached
    omega
  have hint : asInt (reached offset size (offset / 512 + m))
      = some (reached offset size (offset / 512 + m)) := by
    refine asInt_eq_some.mpr ⟨rfl, ?_⟩
    rcases Nat.eq_zero_or_pos m with rfl | h
    · rw [Nat.add_zero, reached_start]
      decide
    · have hle := hend h
      omega
  have hread : readInode (arrayDev u) sb ino d = (some (d.inodeAt sb ino), d) := by
    rw [readInode_array, if_pos hv]
  have hwrite : ∀ r e, writeInode (arrayDev u) sb ino r e = (true, e.putInode sb ino r) := by
    intro r e
    rw [writeInode_array, if_pos hv]
  have hu : (arrayDev u).uninit = u := rfl
  generalize reached offset size (offset / 512 + m) = w at hrun hend hzero hint
  refine ⟨w, d₁.putInode sb ino (r'.grownTo (u32 (offset + w))), ?_, ?_, ?_, ?_⟩
  · simp only [writeFile, Prog.run_bind, hread, hu, hrun, hwrite, Prog.run_pure, hint]
  · intro h
    exact hend (hzero.mp h).2
  · rw [hzero, hpos]
  · rw [Disk.inodeAt, if_pos hv, Disk.putInode, Disk.set_self, Inode.decode_patch]
    unfold Inode.grownTo
    rw [hsize]
    split
    · rfl
    · exact hsize

/-- What the size of a file is to be after a write that returned `w`. -/
def GrownBy (before after offset w : Nat) : Prop :=
  (w = 0 → after = before) ∧ (0 < w → after = max before (offset + w))

/-- What a read that returned `count` is to have done: no more than was asked for, inside
the file, the bytes of the file in order and no other byte of the buffer. -/
structure ReadWithin (d : Disk) (r : Inode) (buffer out : Buf) (offset size count : Nat) :
    Prop where
  count_le : count ≤ size
  inside : 0 < count → offset + count ≤ r.size.toNat
  bytes : ∀ i, i < count → d.fileByte r (offset + i) = some (out i)
  rest : ∀ i, count ≤ i → out i = buffer i

/-- The end of a read wraps to a position the clamp lets through, the last block computed
from it is not before the end of the file, and the blocks up to there are mapped. -/
def Disk.Overruns (d : Disk) (r : Inode) (offset size : Nat) : Prop :=
  offset < r.size.toNat ∧ 4294967296 ≤ offset + size ∧ u32 (offset + size) ≤ r.size.toNat
    ∧ r.size.toNat / 512 ≤ sub32 (u32 (offset + size)) 1 / 512
    ∧ ∀ b, offset / 512 ≤ b → b ≤ r.size.toNat / 512 → (d.lookup r b).isSome

theorem readFile_reached (u : Block) {sb : Superblock} {d : Disk} {ino : Nat}
    (hv : sb.ValidIno ino) (buffer : Buf) {offset size : Nat} (hoff : offset < 4294967296)
    (hsize : size < 4294967296) :
    ∃ count out, readFile ino buffer size offset (arrayDev u) sb d = ((some count, out), d)
      ∧ (ReadWithin d (d.inodeAt sb ino) buffer out offset size count
        ↔ ¬ d.Overruns (d.inodeAt sb ino) offset size) := by
  have hread : readInode (arrayDev u) sb ino d = (some (d.inodeAt sb ino), d) := by
    rw [readInode_array, if_pos hv]
  have hlen := (d.inodeAt sb ino).size.toNat_lt
  rcases Nat.lt_or_ge offset (d.inodeAt sb ino).size.toNat with hin | hpast
  · generalize hclamp : (if u32 (offset + size) > (d.inodeAt sb ino).size.toNat
      then (d.inodeAt sb ino).size.toNat - offset else size) = size'
    obtain ⟨m, out, hm, hrun, hmap, hstop, hbytes, hrest⟩ := readBlocks_reached u sb
      (d.inodeAt sb ino) d offset size' (blockCount offset size') (offset / 512) (Nat.le_refl _) u
      buffer
    rw [reached_start] at hrun hbytes hrest
    have hlast : 0 < m → offset / 512 + m ≤ 16518 := by
      intro hpos
      obtain ⟨p, hp⟩ := Option.isSome_iff_exists.mp
        (hmap (offset / 512 + m - 1) (by omega) (by omega))
      obtain ⟨pos, hposb, -⟩ := Disk.lookup_eq_some.mp hp
      have hlt := lt_of_posOf hposb
      omega
    have hint : asInt (reached offset size' (offset / 512 + m))
        = some (reached offset size' (offset / 512 + m)) := by
      refine asInt_eq_some.mpr ⟨rfl, ?_⟩
      rcases Nat.eq_zero_or_pos m with rfl | h
      · rw [Nat.add_zero, reached_start]
        decide
      · have hle := hlast h
        unfold reached
        omega
    refine ⟨reached offset size' (offset / 512 + m), out, ?_, ?_⟩
    · have hu : (arrayDev u).uninit = u := rfl
      have hno : ¬ offset ≥ (d.inodeAt sb ino).size.toNat := by omega
      simp only [readFile, Prog.run_bind, hread, hno, if_false, hclamp, hu, hrun, Prog.run_pure,
        hint]
    · -- only the end of the range is in question
      have hwithin : ReadWithin d (d.inodeAt sb ino) buffer out offset size
          (reached offset size' (offset / 512 + m))
          ↔ reached offset size' (offset / 512 + m) ≤ size
            ∧ (0 < reached offset size' (offset / 512 + m) →
              offset + reached offset size' (offset / 512 + m) ≤ (d.inodeAt sb ino).size.toNat) :=
        ⟨fun h => ⟨h.count_le, h.inside⟩, fun h =>
          ⟨h.1, h.2, fun i hi => hbytes i (Nat.zero_le i) hi, fun i hi => hrest i (Or.inr hi)⟩⟩
      rw [hwithin]
      have hlow : u32 (offset + size) ≤ offset + size := Nat.mod_le _ _
      split at hclamp
      · rename_i hgt
        refine iff_of_true ⟨?_, fun _ => ?_⟩ fun h => absurd h.2.2.1 (Nat.not_le.mpr hgt)
        · unfold reached
          omega
        · unfold reached
          omega
      · rename_i hle
        subst hclamp
        rcases Nat.lt_or_ge (offset + size) 4294967296 with hfit | hwrap
        · rw [u32_of_lt hfit] at hle
          refine iff_of_true ⟨?_, fun _ => ?_⟩ fun h => absurd h.2.1 (Nat.not_le.mpr hfit)
          · unfold reached
            omega
          · unfold reached
            omega
        · -- the request is not clamped: the loop ends where the blocks end
          have hmoved : reached offset size (offset / 512 + m) ≤ size
              ∧ (0 < reached offset size (offset / 512 + m) →
                offset + reached offset size (offset / 512 + m)
                  ≤ (d.inodeAt sb ino).size.toNat)
              ↔ m = 0 ∨ 512 * (offset / 512 + m) ≤ (d.inodeAt sb ino).size.toNat := by
            unfold reached
            omega
          rw [hmoved]
          constructor
          · rintro hend ⟨-, -, -, hlastb, hall⟩
            have hn : d.lookup (d.inodeAt sb ino) (offset / 512 + m) = none := by
              refine hstop ?_
              unfold blockCount
              omega
            have hsome := hall (offset / 512 + m) (Nat.le_add_right _ _) (by omega)
            rw [hn] at hsome
            cases hsome
          · intro hno
            by_contra hend
            refine hno ⟨hin, hwrap, Nat.not_lt.mp hle, ?_, fun b h1 h2 => hmap b h1 (by omega)⟩
            unfold blockCount at hm
            omega
  · refine ⟨0, buffer, ?_, ?_⟩
    · simp only [readFile, Prog.run_bind, hread, if_pos hpast, Prog.run_pure]
    · refine iff_of_true ⟨Nat.zero_le _, fun h => absurd h (Nat.lt_irrefl 0),
        fun i h => absurd h (Nat.not_lt_zero i), fun _ _ => rfl⟩ ?_
      intro h
      exact absurd h.1 (Nat.not_lt.mpr hpast)

/-- On any volume a read through a used descriptor of a file returns a count, and stops at
the end of the file exactly when its range does not wrap past the clamp. -/
theorem ipoFsRead_within (u : Block) (k : Kernel Disk) (fd : Int) (hfd : k.fdOk fd)
    (hv : k.sb.ValidIno (k.fds fd.toNat).inode) (buffer : Buf) (size offset : UInt32) :
    ∃ count out, ipoFsRead (diskDev u) fd buffer size offset k = ((some count, out), k)
      ∧ (ReadWithin k.disk (k.disk.inodeAt k.sb (k.fds fd.toNat).inode) buffer out offset.toNat
          size.toNat count
        ↔ ¬ k.disk.Overruns (k.disk.inodeAt k.sb (k.fds fd.toNat).inode) offset.toNat
          size.toNat) := by
  obtain ⟨count, out, hfile, hwithin⟩ := @readFile_reached u k.sb k.disk _ hv buffer
    offset.toNat size.toNat offset.toNat_lt size.toNat_lt
  rcases ipoFsRead_run u k fd buffer size offset with ⟨-, hrun⟩ | ⟨hno, -⟩
  · rw [hfile] at hrun
    exact ⟨count, out, hrun, hwithin⟩
  · exact absurd hfd hno

/-- The kernel with three bytes in `/autorun`. -/
def threeKernel : Kernel Disk :=
  (ipoFsWrite (diskDev Buf.zero) 0 (fun _ => 65) 3 0 openedKernel).2

theorem threeKernel_fdOk : threeKernel.fdOk 0 :=
  ⟨by decide, by decide, by decide +kernel⟩

/-- A read of eight bytes at offset 1 of the three. -/
theorem ipoFsRead_within_autorun :
    ∃ count out, ipoFsRead (diskDev Buf.zero) 0 Buf.zero 8 1 threeKernel
        = ((some count, out), threeKernel)
      ∧ ReadWithin threeKernel.disk (threeKernel.disk.inodeAt threeKernel.sb
            (threeKernel.fds (0 : Int).toNat).inode) Buf.zero out (1 : UInt32).toNat
          (8 : UInt32).toNat count := by
  obtain ⟨count, out, hrun, hwithin⟩ :=
    ipoFsRead_within Buf.zero threeKernel 0 threeKernel_fdOk (by decide +kernel) Buf.zero 8 1
  refine ⟨count, out, hrun, hwithin.mpr fun hover => ?_⟩
  exact absurd hover.2.1 (by decide)

/-- A read of 4294967295 bytes at offset 2 of a file of three bytes returns 510. -/
theorem ipoFsRead_within_wrap :
    threeKernel.fdOk 0
    ∧ (threeKernel.disk.inodeAt threeKernel.sb (threeKernel.fds 0).inode).size = 3
    ∧ (ipoFsRead (diskDev Buf.zero) 0 Buf.zero 4294967295 2 threeKernel).1.1 = some 510 :=
  ⟨threeKernel_fdOk, by decide +kernel, by decide +kernel⟩

end IpoOs
