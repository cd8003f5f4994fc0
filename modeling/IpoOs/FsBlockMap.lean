import IpoOs.FsChange
import IpoOs.FsImage

/-!
# The block map of an inode

`get_data_block_for_inode` without `alloc` is a finite map from logical
indices to blocks. With `alloc` it adds one index to the map of the record
it is given, with a zeroed block that was free, or leaves every map of the
volume as it is.

`MapGrew` is read off `Grew`: the walk's effect on pointers, said in terms
of look-ups. The block map of another inode is looked up in that inode's own
record, and the map of the file in the record that the call returns.
-/

namespace IpoOs

def blockMap (u : Block) (sb : Superblock) (d : Disk) (r : Inode) (l : Nat) : Option Nat :=
  (getDataBlockForInode (arrayDev u) sb r l false d).1.1

theorem blockMap_eq (u : Block) (sb : Superblock) (d : Disk) (r : Inode) (l : Nat) :
    blockMap u sb d r l = d.lookup r l := by
  rw [blockMap, getDataBlock_lookup]

theorem Disk.lookup_of_ge {d : Disk} {r : Inode} {l : Nat} (h : 16518 ≤ l) :
    d.lookup r l = none := by
  have hpos : posOf l = none := by
    unfold posOf
    rw [dif_neg (by omega), dif_neg (by omega), dif_neg (by omega)]
  rw [Disk.lookup, hpos]
  rfl

/-- What a call with `alloc` that gives `res` did to the maps of a volume: `r` is the record of
inode `ino` on the disk `d`, and `r'` is the record on `d'` after the call. -/
structure MapGrew (u : Block) (sb : Superblock) (ino l : Nat) (res : Option Nat) (r : Inode)
    (d : Disk) (r' : Inode) (d' : Disk) : Prop where
  found : ∀ p, res = some p → blockMap u sb d' r' l = some p
  /-- The block was mapped, or it was free and is zeroed. -/
  block : ∀ p, res = some p → blockMap u sb d r l = some p
    ∨ blockMap u sb d r l = none ∧ sb.DataBlock p ∧ d.blockUsed sb p = false ∧ d' p = Buf.zero
  same : ∀ j, j ≠ l → blockMap u sb d' r' j = blockMap u sb d r j
  others : ∀ i, i ≠ ino → ∀ j,
    blockMap u sb d' (d'.inodeAt sb i) j = blockMap u sb d (d.inodeAt sb i) j
  failed : res = none → ∀ j, blockMap u sb d' r' j = blockMap u sb d r j

section

variable {sb : Superblock} {hi : Nat} {T : Nat → Inode} {ino : Nat} {r r' : Inode} {d d' : Disk}
  {l : Nat}

/-- A data position on the way to a logical index is the index's own. -/
theorem OnTheWay.eq_of_data {pos : Pos} {j : Nat} (h : OnTheWay l pos) (hj : posOf j = some pos) :
    j = l := by
  obtain ⟨q, hq, hmem⟩ := h
  have hdata := isTable_posOf hj
  have hpos : pos = q := by
    cases q with
    | direct i => simpa [Pos.path] using hmem
    | indirect => simpa [Pos.path] using hmem
    | double => simpa [Pos.path] using hmem
    | single i =>
        rcases (by simpa [Pos.path] using hmem : pos = .indirect ∨ pos = .single i) with rfl | hpos
        · cases hdata
        · exact hpos
    | table i =>
        rcases (by simpa [Pos.path] using hmem : pos = .double ∨ pos = .table i) with rfl | hpos
        · cases hdata
        · exact hpos
    | leaf i k =>
        rcases (by simpa [Pos.path] using hmem :
          pos = .double ∨ pos = .table i ∨ pos = .leaf i k) with rfl | rfl | hpos
        · cases hdata
        · cases hdata
        · exact hpos
  rw [hpos] at hj
  exact posOf_inj hj hq

theorem Grew.lookup_ne (h : Grew sb hi T ino (OnTheWay l) r d r' d') {j : Nat} (hj : j ≠ l) :
    d'.lookup r' j = d.lookup r j := by
  unfold Disk.lookup
  cases hpos : posOf j with
  | none => rfl
  | some pos =>
      rcases h.ptr pos with heq | ⟨hway, -⟩
      · rw [Option.bind_some, Option.bind_some, heq]
      · exact absurd (hway.eq_of_data hpos) hj

end

/-- `get_data_block_for_inode` with `alloc` on the record of an inode: what it does to the block
maps of a sound volume. A map has no index from 16518 on, and a look-up in it is the look-up of
`Disk.lookup`. -/
theorem blockMap_grows {sb : Superblock} (L : SoundLayout sb) (u : Block) {d : Disk}
    (O : OwnedVol sb sb.fsSizeBlocks.toNat d) {ino : Nat} {r : Inode}
    (hread : readInode (arrayDev u) sb ino d = (some r, d)) (l : Nat) :
    MapGrew u sb ino l (getDataBlockForInode (arrayDev u) sb r l true d).1.1 r d
      (getDataBlockForInode (arrayDev u) sb r l true d).1.2
      (getDataBlockForInode (arrayDev u) sb r l true d).2
    ∧ (16518 ≤ l → (getDataBlockForInode (arrayDev u) sb r l true d).1.1 = none
        ∧ ∀ e s, blockMap u sb e s l = none)
    ∧ ∀ e s j, blockMap u sb e s j = e.lookup s j := by
  obtain rfl : d.inodeAt sb ino = r := by
    rw [readInode_array] at hread
    split at hread
    · exact Option.some.inj (Prod.mk.inj hread).1
    · cases (Prod.mk.inj hread).1
  have hself : Function.update (d.inodeAt sb) ino (d.inodeAt sb ino) = d.inodeAt sb :=
    Function.update_eq_self _ _
  have O' : VolOwned sb sb.fsSizeBlocks.toNat d
      (Function.update (d.inodeAt sb) ino (d.inodeAt sb ino)) := by
    rw [hself]
    exact O
  obtain ⟨r', d', hrun, hgrew, -⟩ := getDataBlock_grew L (blockBound_size sb) u O' l
  have hkept := hgrew.changed.keepsMap
  rw [hrun]
  refine ⟨⟨fun p hp => ?_, fun p hp => ?_, fun j hj => ?_, fun i hi j => ?_, fun hnone j => ?_⟩,
    fun hbig => ⟨Disk.lookup_of_ge hbig, fun e s => ?_⟩, fun e s j => blockMap_eq u sb e s j⟩
  · rw [blockMap_eq]
    exact hp
  · rw [blockMap_eq]
    cases hold : d.lookup (d.inodeAt sb ino) l with
    | some q => exact Or.inl ((hkept.lookup hold).symm.trans hp)
    | none =>
        obtain ⟨pos, hpos, hptr, h0, hlt⟩ := Disk.lookup_eq_some.mp hp
        rcases hgrew.ptr pos with heq | ⟨-, hnull, -, hdata, hfree⟩
        · rw [heq] at hptr
          have hsome := Disk.lookup_eq_some.mpr ⟨pos, hpos, hptr, h0, hlt⟩
          rw [hold] at hsome
          cases hsome
        · have hzero := hgrew.zero pos (isTable_posOf hpos) hnull (by rw [hptr]; exact h0)
          rw [hptr] at hdata hfree hzero
          exact Or.inr ⟨rfl, hdata, hfree, hzero⟩
  · rw [blockMap_eq, blockMap_eq]
    exact hgrew.lookup_ne hj
  · have hrecord : d'.inodeAt sb i = d.inodeAt sb i := hgrew.sameMeta.inodeAt L i
    have hptrs := hgrew.others i hi
    rw [blockMap_eq, blockMap_eq, hrecord]
    unfold Disk.lookup
    cases posOf j with
    | none => rfl
    | some pos => rw [Option.bind_some, Option.bind_some, hptrs pos]
  · rw [blockMap_eq, blockMap_eq]
    rcases em (j = l) with rfl | hj
    · cases hold : d.lookup (d.inodeAt sb ino) j with
      | some q =>
          have hstill := hkept.lookup hold
          rw [show d'.lookup r' j = none from hnone] at hstill
          cases hstill
      | none => exact hnone
    · exact hgrew.lookup_ne hj
  · rw [blockMap_eq]
    exact Disk.lookup_of_ge hbig

/-- The first indirect block of the root of a new volume. -/
theorem blockMap_grows_root :
    (getDataBlockForInode (arrayDev Buf.zero) (mountedKernel 12 6).sb
        ((mountedKernel 12 6).disk.inodeAt (mountedKernel 12 6).sb 1) 6 true
        (mountedKernel 12 6).disk).1.1 ≠ none
    ∧ blockMap Buf.zero (mountedKernel 12 6).sb
        (getDataBlockForInode (arrayDev Buf.zero) (mountedKernel 12 6).sb
          ((mountedKernel 12 6).disk.inodeAt (mountedKernel 12 6).sb 1) 6 true
          (mountedKernel 12 6).disk).2
        (getDataBlockForInode (arrayDev Buf.zero) (mountedKernel 12 6).sb
          ((mountedKernel 12 6).disk.inodeAt (mountedKernel 12 6).sb 1) 6 true
          (mountedKernel 12 6).disk).1.2 0
      = blockMap Buf.zero (mountedKernel 12 6).sb (mountedKernel 12 6).disk
        ((mountedKernel 12 6).disk.inodeAt (mountedKernel 12 6).sb 1) 0 := by
  have hk := mountedKernel_volOk
  have O : OwnedVol (mountedKernel 12 6).sb (mountedKernel 12 6).sb.fsSizeBlocks.toNat
      (mountedKernel 12 6).disk := hk.owned.raise hk.bound.le
  have hv := mountedKernel_root.1
  have hread : readInode (arrayDev Buf.zero) (mountedKernel 12 6).sb 1 (mountedKernel 12 6).disk
      = (some ((mountedKernel 12 6).disk.inodeAt (mountedKernel 12 6).sb 1),
          (mountedKernel 12 6).disk) := by
    rw [readInode_array, if_pos hv]
  exact ⟨by decide +kernel, (blockMap_grows hk.layout Buf.zero O hread 6).1.same 0 (by decide)⟩

end IpoOs
