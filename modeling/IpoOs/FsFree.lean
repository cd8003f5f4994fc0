import IpoOs.FsChange

/-!
# The release of an inode

What `free_inode` does to a volume whose pointers are owned: the bits of
the blocks at the positions it visits are cleared (`freePos`), those
pointers are zeroed in the record (`Inode.freed`), and the inode's own
bit is cleared. `freePos` leaves out what the function leaves out: the
double indirect block with everything below it, and the direct pointers
past the recorded size.

The four loops of the function are gone through one after the other, each of
them a composition of single releases (`freed_one`). The invariant is
`Freed`: exactly the bits of the visited positions are clear, the disk is
otherwise as it was, and the pointers still stand in the blocks.
-/

namespace IpoOs

/-- The bits of the blocks in `S` cleared, and nothing else. -/
structure Freed (sb : Superblock) (S : Nat → Prop) (d d' : Disk) : Prop where
  sameMeta : SameMeta sb d d'
  data : ∀ q, sb.dataBlocksStart.toNat ≤ q → d' q = d q
  used : ∀ p, sb.DataBlock p →
    (d'.blockUsed sb p = true ↔ d.blockUsed sb p = true ∧ ¬ S p)

/-- The positions `free_inode` releases. -/
def freePos (r : Inode) : Pos → Prop
  | .direct j => j.val < min 6 (sizeBlocks r)
  | .indirect => True
  | .single _ => True
  | _ => False

instance (r : Inode) : DecidablePred (freePos r) := fun pos => by
  cases pos <;> unfold freePos <;> infer_instance

/-- The record `free_inode` leaves. -/
def Inode.freed (r : Inode) : Inode :=
  { r with
    direct := fun j => if j.val < min 6 (sizeBlocks r) then 0 else r.direct j
    indirect := 0 }

section

variable {sb : Superblock} {S S' : Nat → Prop} {d d' d'' : Disk}

theorem Freed.refl (d : Disk) : Freed sb (fun _ => False) d d where
  sameMeta := SameMeta.refl d
  data := fun _ _ => rfl
  used := fun p _ => by simp

theorem Freed.trans (h : Freed sb S d d') (h' : Freed sb S' d' d'') :
    Freed sb (fun p => S p ∨ S' p) d d'' where
  sameMeta := h.sameMeta.trans h'.sameMeta
  data := fun q hq => (h'.data q hq).trans (h.data q hq)
  used := fun p hp => by
    rw [h'.used p hp, h.used p hp]
    tauto

theorem Freed.congr (h : Freed sb S d d') (hS : ∀ p, S p ↔ S' p) : Freed sb S' d d' :=
  (funext fun p => propext (hS p)) ▸ h

variable (L : SoundLayout sb) (u : Block)

include L

theorem freed_one {p : Nat} (hp : sb.DataBlock p) :
    Freed sb (fun q => q = p) d (d.setBlockUsed sb p false) where
  sameMeta := L.sameMeta_setBlockUsed hp false
  data := fun q hq => L.setBlockUsed_data hp hq false
  used := fun q hq => by
    rw [L.blockUsed_setBlockUsed hp hq]
    by_cases hqp : q = p
    · simp [hqp]
    · simp [hqp]

theorem clearBlockBit_spec {ptr : UInt32} (h : ptr.toNat ≠ 0 → sb.DataBlock ptr.toNat) :
    ∃ d', clearBlockBit (arrayDev u) sb ptr d = (true, d')
      ∧ Freed sb (fun p => p = ptr.toNat ∧ p ≠ 0) d d' := by
  by_cases h0 : ptr = 0
  · refine ⟨d, by simp [clearBlockBit, h0], (Freed.refl d).congr fun p => ?_⟩
    simp [h0]
  · have hne : ptr.toNat ≠ 0 := fun hc => h0 (UInt32.toNat.inj hc)
    have hdb := h hne
    refine ⟨d.setBlockUsed sb ptr.toNat false, ?_, (freed_one L hdb).congr fun p => ?_⟩
    · have hsub := sub32_of_le hdb.1 ptr.toNat_lt
      simp [clearBlockBit, h0, Disk.setBlockUsed, hsub]
    · constructor
      · rintro rfl
        exact ⟨rfl, hne⟩
      · exact fun hp => hp.1

theorem freeDirect_spec (n i : Nat) (r : Inode)
    (h : ∀ j, (r.direct j).toNat ≠ 0 → sb.DataBlock (r.direct j).toNat) (hn : i + n ≤ 6) :
    ∃ d', freeDirect (arrayDev u) sb n i r d
        = ({ r with direct := fun j => if i ≤ j.val ∧ j.val < i + n then 0 else r.direct j }, d')
      ∧ Freed sb (fun p => ∃ j : Fin 6, (i ≤ j.val ∧ j.val < i + n)
          ∧ p = (r.direct j).toNat ∧ p ≠ 0) d d' := by
  induction n generalizing i r d with
  | zero =>
      refine ⟨d, ?_, (Freed.refl d).congr fun p => ?_⟩
      · have hd : (fun j : Fin 6 => if i ≤ j.val ∧ j.val < i + 0 then 0 else r.direct j)
            = r.direct := funext fun j => if_neg (by omega)
        simp only [freeDirect, Prog.run_pure, hd]
      · simp only [false_iff]
        rintro ⟨j, hj, -⟩
        omega
  | succ n ih =>
      have hi : i < 6 := by omega
      obtain ⟨d₁, hrun, hf⟩ := clearBlockBit_spec L u (d := d) (h ⟨i, hi⟩)
      have hset : ∀ j : Fin 6, (r.setDirect i 0).direct j = if j.val = i then 0 else r.direct j :=
        fun j => rfl
      obtain ⟨d₂, hrun', hf'⟩ := ih (d := d₁) (i + 1) (r.setDirect i 0)
        (fun j hj => by
          rw [hset] at hj ⊢
          split at hj
          · exact absurd rfl hj
          · rename_i hji
            rw [if_neg hji]
            exact h j hj) (by omega)
      refine ⟨d₂, ?_, (hf.trans hf').congr fun p => ?_⟩
      · have hd : (fun j : Fin 6 => if i + 1 ≤ j.val ∧ j.val < i + 1 + n then 0
              else (r.setDirect i 0).direct j)
            = fun j : Fin 6 => if i ≤ j.val ∧ j.val < i + (n + 1) then 0 else r.direct j := by
          funext j
          rw [hset]
          by_cases hji : j.val = i
          · rw [if_neg (by omega), if_pos hji, if_pos (by omega)]
          · rw [if_neg hji]
            by_cases hjn : i + 1 ≤ j.val ∧ j.val < i + 1 + n
            · rw [if_pos hjn, if_pos (by omega)]
            · rw [if_neg hjn, if_neg (by omega)]
        rw [hd] at hrun'
        simp only [freeDirect, hi, dif_pos, Prog.run_bind, hrun]
        exact hrun'
      · constructor
        · rintro (⟨hp, hp0⟩ | ⟨j, hj, hp, hp0⟩)
          · exact ⟨⟨i, hi⟩, ⟨Nat.le_refl i, by simp⟩, hp, hp0⟩
          · rw [hset] at hp
            by_cases hji : j.val = i
            · rw [if_pos hji] at hp
              exact absurd hp hp0
            · rw [if_neg hji] at hp
              exact ⟨j, by omega, hp, hp0⟩
        · rintro ⟨j, hj, hp, hp0⟩
          by_cases hji : j.val = i
          · have hj' : j = ⟨i, hi⟩ := Fin.ext hji
            exact Or.inl ⟨by rw [hp, hj'], hp0⟩
          · refine Or.inr ⟨j, by omega, ?_, hp0⟩
            rw [hset, if_neg hji]
            exact hp

theorem freePtrs_spec (b : Block) (n i : Nat)
    (h : ∀ j, j < i + n → (b.word (4 * j)).toNat ≠ 0 → sb.DataBlock (b.word (4 * j)).toNat) :
    ∃ d', freePtrs (arrayDev u) sb b n i d = ((), d')
      ∧ Freed sb (fun p => ∃ j, (i ≤ j ∧ j < i + n) ∧ p = (b.word (4 * j)).toNat ∧ p ≠ 0)
          d d' := by
  induction n generalizing i d with
  | zero =>
      refine ⟨d, rfl, (Freed.refl d).congr fun p => ?_⟩
      simp only [false_iff]
      rintro ⟨j, hj, -⟩
      omega
  | succ n ih =>
      obtain ⟨d₁, hrun, hf⟩ := clearBlockBit_spec L u (d := d) (h i (by omega))
      obtain ⟨d₂, hrun', hf'⟩ := ih (d := d₁) (i + 1) (fun j hj => h j (by omega))
      refine ⟨d₂, by simp [freePtrs, hrun, hrun'], (hf.trans hf').congr fun p => ?_⟩
      constructor
      · rintro (⟨hp, hp0⟩ | ⟨j, hj, hp, hp0⟩)
        · exact ⟨i, by omega, hp, hp0⟩
        · exact ⟨j, by omega, hp, hp0⟩
      · rintro ⟨j, hj, hp, hp0⟩
        by_cases hji : j = i
        · exact Or.inl ⟨hji ▸ hp, hp0⟩
        · exact Or.inr ⟨j, by omega, hp, hp0⟩

theorem freeIndirect_spec (r : Inode)
    (h : ∀ pos, pos = .indirect ∨ (∃ j, pos = .single j) → d.ptr r pos ≠ 0 →
      sb.DataBlock (d.ptr r pos)) :
    ∃ d', freeIndirect (arrayDev u) sb r d = ({ r with indirect := 0 }, d')
      ∧ Freed sb (fun p => ∃ pos, (pos = .indirect ∨ ∃ j, pos = .single j)
          ∧ p = d.ptr r pos ∧ p ≠ 0) d d' := by
  by_cases h0 : r.indirect = 0
  · refine ⟨d, ?_, (Freed.refl d).congr fun p => ?_⟩
    · have hr : r = { r with indirect := 0 } := by rw [← h0]
      simp [freeIndirect, h0, ← hr]
    · simp only [false_iff]
      rintro ⟨pos, rfl | ⟨j, rfl⟩, hp, hp0⟩
      · exact hp0 (by rw [hp, Disk.ptr, h0, UInt32.toNat_zero])
      · exact hp0 (by rw [hp, Disk.ptr, h0, UInt32.toNat_zero, Disk.entry, if_pos rfl])
  · have hne : r.indirect.toNat ≠ 0 := fun hc => h0 (UInt32.toNat.inj hc)
    have hdb : sb.DataBlock r.indirect.toNat := h .indirect (Or.inl rfl) hne
    have hword : ∀ j : Fin 128, d.ptr r (.single j)
        = ((d r.indirect.toNat).word (4 * j.val)).toNat := fun j => by
      rw [Disk.ptr, Disk.entry, if_neg hne]
    obtain ⟨d₁, hrun, hf⟩ := freePtrs_spec L u (d := d) (d r.indirect.toNat) 128 0
      (fun j hj hj0 => by
        have hs := h (.single ⟨j, by omega⟩) (Or.inr ⟨_, rfl⟩)
        rw [hword] at hs
        exact hs hj0)
    have hsub := sub32_of_le hdb.1 r.indirect.toNat_lt
    refine ⟨d₁.setBlockUsed sb r.indirect.toNat false, ?_,
      (hf.trans (freed_one L hdb)).congr fun p => ?_⟩
    · simp [freeIndirect, h0, hrun, hsub, Disk.setBlockUsed]
    · constructor
      · rintro (⟨j, hj, hp, hp0⟩ | rfl)
        · exact ⟨.single ⟨j, by omega⟩, Or.inr ⟨_, rfl⟩, by rw [hp, hword], hp0⟩
        · exact ⟨.indirect, Or.inl rfl, rfl, hne⟩
      · rintro ⟨pos, rfl | ⟨j, rfl⟩, hp, hp0⟩
        · exact Or.inr hp
        · exact Or.inl ⟨j.val, by omega, by rw [hp, hword], hp0⟩

theorem freeInode_spec {hi i : Nat} (B : BlockBound sb hi) (O : OwnedVol sb hi d)
    (hv : sb.ValidIno i) :
    ∃ d₁, freeInode (arrayDev u) sb i d
        = (true, (d₁.setInodeUsed sb i false).putInode sb i (d.inodeAt sb i).freed)
      ∧ Freed sb (fun p => ∃ pos, freePos (d.inodeAt sb i) pos
          ∧ p = d.ptr (d.inodeAt sb i) pos ∧ p ≠ 0) d d₁ := by
  generalize hr : d.inodeAt sb i = r
  have hdb : ∀ pos, d.ptr r pos ≠ 0 → sb.DataBlock (d.ptr r pos) := fun pos h0 => by
    subst hr
    exact O.dataBlock B (s := (i, pos)) h0
  obtain ⟨d₁, hrun₁, hf₁⟩ := freeDirect_spec L u (d := d) (min 6 (sizeBlocks r)) 0 r
    (fun j hj => hdb (.direct j) hj) (by omega)
  generalize hr₁ : { r with direct := fun j : Fin 6 =>
    if 0 ≤ j.val ∧ j.val < 0 + min 6 (sizeBlocks r) then 0 else r.direct j } = r₁ at hrun₁
  have hind : r₁.indirect = r.indirect := by rw [← hr₁]
  -- the bits cleared so far are not in the pointer blocks
  have hptr : ∀ pos, pos = .indirect ∨ (∃ j, pos = .single j) →
      d₁.ptr r₁ pos = d.ptr r pos := by
    rintro pos (rfl | ⟨j, rfl⟩)
    · rw [Disk.ptr, Disk.ptr, hind]
    · rw [Disk.ptr, Disk.ptr, hind, Disk.entry, Disk.entry]
      by_cases h0 : r.indirect.toNat = 0
      · rw [if_pos h0, if_pos h0]
      · have hlow : sb.dataBlocksStart.toNat ≤ r.indirect.toNat := (hdb .indirect h0).1
        rw [if_neg h0, if_neg h0, hf₁.data _ hlow]
  obtain ⟨d₂, hrun₂, hf₂⟩ := freeIndirect_spec L u (d := d₁) r₁ (fun pos hpos h0 => by
    rw [hptr pos hpos] at h0 ⊢
    exact hdb pos h0)
  have hfreed : { r₁ with indirect := 0 } = r.freed := by
    rw [← hr₁, Inode.freed]
    simp
  have hnv : ¬ (i = 0 ∨ i > sb.inodeCount.toNat) := by
    obtain ⟨h1, h2⟩ := hv
    omega
  refine ⟨d₂, ?_, (hf₁.trans hf₂).congr fun p => ?_⟩
  · simp only [freeInode, hnv, if_false, Prog.run_bind, readInode_array, hv, if_true, hr,
      hrun₁, hrun₂, bitmapSet_array, writeInode_array, Prog.run_pure, hfreed, Disk.setInodeUsed]
  · constructor
    · rintro (⟨j, hj, hp, hp0⟩ | ⟨pos, hpos, hp, hp0⟩)
      · exact ⟨.direct j, by simp only [freePos]; omega, hp, hp0⟩
      · rw [hptr pos hpos] at hp
        rcases hpos with rfl | ⟨j, rfl⟩
        · exact ⟨.indirect, trivial, hp, hp0⟩
        · exact ⟨.single j, trivial, hp, hp0⟩
    · rintro ⟨pos, hpos, hp, hp0⟩
      cases pos with
      | direct j =>
          simp only [freePos] at hpos
          exact Or.inl ⟨j, by omega, hp, hp0⟩
      | indirect => exact Or.inr ⟨.indirect, Or.inl rfl, by rw [hptr _ (Or.inl rfl), hp], hp0⟩
      | single j =>
          exact Or.inr ⟨.single j, Or.inr ⟨j, rfl⟩, by rw [hptr _ (Or.inr ⟨j, rfl⟩), hp], hp0⟩
      | double => exact hpos.elim
      | table j => exact hpos.elim
      | leaf j k => exact hpos.elim

end

/-! ## The volume after a release

With the record zeroed the pointers of the file are gone, and the others are
owned as before. A block that the function has not visited stays marked. -/

theorem Disk.ptr_freed (d : Disk) (r : Inode) (pos : Pos) :
    d.ptr r.freed pos = if freePos r pos then 0 else d.ptr r pos := by
  cases pos with
  | direct j =>
      by_cases hj : freePos r (.direct j)
      · have hlt : j.val < min 6 (sizeBlocks r) := hj
        rw [if_pos hj]
        simp only [Disk.ptr, Inode.freed, if_pos hlt, UInt32.toNat_zero]
      · have hge : ¬ j.val < min 6 (sizeBlocks r) := hj
        rw [if_neg hj]
        simp only [Disk.ptr, Inode.freed, if_neg hge]
  | indirect => simp [Disk.ptr, Inode.freed, freePos]
  | single j => simp [Disk.ptr, Inode.freed, freePos, Disk.entry]
  | double => simp [Disk.ptr, Inode.freed, freePos]
  | table j => simp [Disk.ptr, Inode.freed, freePos]
  | leaf j k => simp [Disk.ptr, Inode.freed, freePos]

/-- What the release of inode `i` does to the volume. -/
structure InodeFreed (sb : Superblock) (hi i : Nat) (d d' : Disk) : Prop where
  blockZero : d' 0 = d 0
  inodeUsed : ∀ j, sb.ValidIno j →
    d'.inodeUsed sb j = if j = i then false else d.inodeUsed sb j
  inodeAt : ∀ j, d'.inodeAt sb j = if j = i then (d.inodeAt sb i).freed else d.inodeAt sb j
  used : ∀ p, sb.DataBlock p → (d'.blockUsed sb p = true ↔ d.blockUsed sb p = true
    ∧ ¬ ∃ pos, freePos (d.inodeAt sb i) pos ∧ p = d.ptr (d.inodeAt sb i) pos ∧ p ≠ 0)
  same : ∀ j, j ≠ i → SameFile d (d.inodeAt sb j) d' (d.inodeAt sb j)
  owned : OwnedVol sb hi d'

/-- What taking a free inode, with a record that has no pointers yet, does to the
volume. -/
structure InodeTaken (sb : Superblock) (hi i : Nat) (r : Inode) (d d' : Disk) : Prop where
  blockZero : d' 0 = d 0
  inodeUsed : ∀ j, sb.ValidIno j →
    d'.inodeUsed sb j = if j = i then true else d.inodeUsed sb j
  inodeAt : ∀ j, d'.inodeAt sb j = if j = i then r else d.inodeAt sb j
  used : ∀ p, sb.DataBlock p → d'.blockUsed sb p = d.blockUsed sb p
  same : ∀ j, j ≠ i → SameFile d (d.inodeAt sb j) d' (d.inodeAt sb j)
  owned : OwnedVol sb hi d'

section

variable {sb : Superblock} {hi i : Nat} {d d' : Disk} {r r' : Inode}

theorem VolOwned.of_table {T T' : Nat → Inode} (O : VolOwned sb hi d T)
    (h : ∀ j pos, d.ptr (T' j) pos = 0 ∨ d.ptr (T' j) pos = d.ptr (T j) pos) :
    VolOwned sb hi d T' :=
  Owned.of_sub O fun s => h s.1 s.2

theorem OwnedVol.sameFile (O : OwnedVol sb hi d)
    (h : ∀ q, sb.dataBlocksStart.toNat ≤ q → d' q = d q) (j : Nat) :
    SameFile d (d.inodeAt sb j) d' (d.inodeAt sb j) where
  ptr pos := congrFun (VolOwned.volPtr_of_data O h) (j, pos)
  block pos h0 := h _ (O.lower (j, pos) h0)

variable (L : SoundLayout sb)

include L

theorem SoundLayout.blockZero_putInode (hv : sb.ValidIno i) (r : Inode) :
    d.putInode sb i r 0 = d 0 := by
  have h1 := L.first
  have h2 := L.inodeBitmap
  have h3 := L.blockBitmap
  exact L.putInode_of_ne hv r (Or.inl (by omega))

theorem SoundLayout.blockZero_setInodeUsed (hv : sb.ValidIno i) (v : Bool) :
    d.setInodeUsed sb i v 0 = d 0 := by
  have h1 := L.first
  exact L.setInodeUsed_of_le hv (Or.inl (by omega)) v

/-- The data blocks after an inode's bit and slot are rewritten. -/
theorem SoundLayout.inodeUpdate_data (hv : sb.ValidIno i) (v : Bool) (r : Inode) {q : Nat}
    (hq : sb.dataBlocksStart.toNat ≤ q) : (d.setInodeUsed sb i v).putInode sb i r q = d q := by
  have h1 := L.blockBitmap
  have h2 := L.inodeTable
  rw [L.putInode_data hv r hq, L.setInodeUsed_of_le hv (Or.inr (by omega)) v]

theorem Freed.inodeFreed (B : BlockBound sb hi) (O : OwnedVol sb hi d) (hv : sb.ValidIno i)
    (h : Freed sb (fun p => ∃ pos, freePos (d.inodeAt sb i) pos
      ∧ p = d.ptr (d.inodeAt sb i) pos ∧ p ≠ 0) d d') :
    InodeFreed sb hi i d
      ((d'.setInodeUsed sb i false).putInode sb i (d.inodeAt sb i).freed) := by
  have hdata : ∀ q, sb.dataBlocksStart.toNat ≤ q →
      (d'.setInodeUsed sb i false).putInode sb i (d.inodeAt sb i).freed q = d q := fun q hq => by
    rw [L.inodeUpdate_data hv false _ hq, h.data q hq]
  have hat : ∀ j, ((d'.setInodeUsed sb i false).putInode sb i (d.inodeAt sb i).freed).inodeAt sb j
      = if j = i then (d.inodeAt sb i).freed else d.inodeAt sb j := fun j => by
    rw [L.inodeAt_putInode hv, L.inodeAt_setInodeUsed hv, h.sameMeta.inodeAt L]
  have hused : ∀ p, sb.DataBlock p →
      ((d'.setInodeUsed sb i false).putInode sb i (d.inodeAt sb i).freed).blockUsed sb p
        = d'.blockUsed sb p := fun p hp => by
    rw [L.blockUsed_putInode hv hp, L.blockUsed_setInodeUsed hv hp]
  have hsub : ∀ j pos, d.ptr (if j = i then (d.inodeAt sb i).freed else d.inodeAt sb j) pos
      = if j = i ∧ freePos (d.inodeAt sb i) pos then 0 else d.ptr (d.inodeAt sb j) pos :=
    fun j pos => by
      by_cases hj : j = i
      · subst hj
        simp only [if_true, true_and, Disk.ptr_freed]
      · simp only [hj, if_false, false_and]
  exact {
    blockZero := by
      rw [L.blockZero_putInode hv, L.blockZero_setInodeUsed hv, h.sameMeta.block_zero L]
    inodeUsed := fun j hj => by
      rw [L.inodeUsed_putInode hv hj, L.inodeUsed_setInodeUsed hv hj, h.sameMeta.inodeUsed L hj]
    inodeAt := hat
    used := fun p hp => by rw [hused p hp, h.used p hp]
    same := fun j _ => O.sameFile hdata j
    owned := by
      have hdrop : VolOwned sb hi d
          (fun j => if j = i then (d.inodeAt sb i).freed else d.inodeAt sb j) :=
        VolOwned.of_table O fun j pos => by
          rw [hsub]
          split
          · exact Or.inl rfl
          · exact Or.inr rfl
      unfold OwnedVol VolOwned
      rw [funext hat, hdrop.volPtr_of_data hdata]
      refine Owned.of_used hdrop fun s h0 => ?_
      rw [hused _ (hdrop.dataBlock B h0), h.used _ (hdrop.dataBlock B h0)]
      refine ⟨hdrop.used s h0, ?_⟩
      -- a pointer that is left is not one of those released
      rintro ⟨pos, hpos, hp, hp0⟩
      obtain ⟨j, t⟩ := s
      simp only [volPtr, hsub] at h0 hp
      by_cases hj : j = i ∧ freePos (d.inodeAt sb i) t
      · rw [if_pos hj] at h0
        exact h0 rfl
      · rw [if_neg hj] at h0 hp
        have hinj := O.inj (j, t) (i, pos) h0 hp
        obtain ⟨rfl, rfl⟩ := Prod.mk.inj hinj
        exact hj ⟨rfl, hpos⟩ }

theorem freeInode_freed (u : Block) (B : BlockBound sb hi) (O : OwnedVol sb hi d)
    (hv : sb.ValidIno i) :
    ∃ d', freeInode (arrayDev u) sb i d = (true, d') ∧ InodeFreed sb hi i d d' := by
  obtain ⟨d₁, hrun, hf⟩ := freeInode_spec L u B O hv
  exact ⟨_, hrun, hf.inodeFreed L B O hv⟩

/-! ## The volume after an allocation

A new inode has a record without pointers, so nothing is owned through it. -/

omit L in
theorem Disk.ptr_of_no_roots (hr : ∀ pos, r.root pos = 0) (d : Disk) (pos : Pos) :
    d.ptr r pos = 0 := by
  have h : ∀ pos, r.root pos = 0 ∨ Inode.zero.root pos = r.root pos := fun s => Or.inl (hr s)
  rcases Disk.ptr_of_roots h pos with h0 | he
  · exact h0 d
  · rw [he d]
    cases pos <;> rfl

theorem inodeTaken (B : BlockBound sb hi) (O : OwnedVol sb hi d) (hv : sb.ValidIno i)
    (hr : ∀ pos, r.root pos = 0) :
    InodeTaken sb hi i r d ((d.setInodeUsed sb i true).putInode sb i r) := by
  have hdata : ∀ q, sb.dataBlocksStart.toNat ≤ q →
      (d.setInodeUsed sb i true).putInode sb i r q = d q := fun q hq =>
    L.inodeUpdate_data hv true r hq
  have hat : ∀ j, ((d.setInodeUsed sb i true).putInode sb i r).inodeAt sb j
      = if j = i then r else d.inodeAt sb j := fun j => by
    rw [L.inodeAt_putInode hv, L.inodeAt_setInodeUsed hv]
  have hused : ∀ p, sb.DataBlock p →
      ((d.setInodeUsed sb i true).putInode sb i r).blockUsed sb p = d.blockUsed sb p :=
    fun p hp => by rw [L.blockUsed_putInode hv hp, L.blockUsed_setInodeUsed hv hp]
  exact {
    blockZero := by rw [L.blockZero_putInode hv, L.blockZero_setInodeUsed hv]
    inodeUsed := fun j hj => by rw [L.inodeUsed_putInode hv hj, L.inodeUsed_setInodeUsed hv hj]
    inodeAt := hat
    used := hused
    same := fun j _ => O.sameFile hdata j
    owned := by
      have hdrop : VolOwned sb hi d (fun j => if j = i then r else d.inodeAt sb j) :=
        VolOwned.of_table O fun j pos => by
          by_cases hj : j = i
          · rw [if_pos hj]
            exact Or.inl (Disk.ptr_of_no_roots hr d pos)
          · rw [if_neg hj]
            exact Or.inr rfl
      unfold OwnedVol
      rw [funext hat]
      exact hdrop.of_data B hdata hused }

theorem InodeTaken.putInode (B : BlockBound sb hi) (h : InodeTaken sb hi i r d d')
    (hv : sb.ValidIno i) (hr : ∀ pos, r'.root pos = 0) :
    InodeTaken sb hi i r' d (d'.putInode sb i r') := by
  have hdata : ∀ q, sb.dataBlocksStart.toNat ≤ q → d'.putInode sb i r' q = d' q := fun q hq =>
    L.putInode_data hv r' hq
  have hat : ∀ j, (d'.putInode sb i r').inodeAt sb j
      = if j = i then r' else d'.inodeAt sb j := fun j => L.inodeAt_putInode hv r' j
  exact {
    blockZero := by rw [L.blockZero_putInode hv, h.blockZero]
    inodeUsed := fun j hj => by rw [L.inodeUsed_putInode hv hj, h.inodeUsed j hj]
    inodeAt := fun j => by
      rw [hat, h.inodeAt]
      by_cases hj : j = i
      · rw [if_pos hj, if_pos hj]
      · rw [if_neg hj, if_neg hj, if_neg hj]
    used := fun p hp => by rw [L.blockUsed_putInode hv hp, h.used p hp]
    same := fun j hj => by
      have hs := h.owned.sameFile hdata j
      rw [h.inodeAt, if_neg hj] at hs
      exact (h.same j hj).trans hs
    owned := by
      have hdrop : VolOwned sb hi d' (fun j => if j = i then r' else d'.inodeAt sb j) :=
        VolOwned.of_table h.owned fun j pos => by
          by_cases hj : j = i
          · rw [if_pos hj]
            exact Or.inl (Disk.ptr_of_no_roots hr d' pos)
          · rw [if_neg hj]
            exact Or.inr rfl
      unfold OwnedVol
      rw [funext hat]
      exact hdrop.of_data B hdata fun p hp => L.blockUsed_putInode hv hp r' }

end

end IpoOs
