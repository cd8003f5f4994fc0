import IpoOs.FsChange

/-!
# Reading and writing the bytes of a file

`Disk.fileByte` is the file of an inode as a partial function on byte
positions: undefined where no block is mapped. `Wrote` says what a write
of a range does to it. The block loops of `ipo_fs_write` and
`ipo_fs_read` are then inductions over the blocks of the transfer: one
round of the write is an allocating walk, which changes no byte that was
mapped, followed by a patch of the block it returns.

The arithmetic of a transfer is in `reached`: how many bytes of it lie
before a given block, which is 0 before the first block and the size after
the last one. The counts that the two functions return are values of it.
-/

namespace IpoOs

/-- The byte at position `x` of a file; none where no block is mapped. -/
def Disk.fileByte (d : Disk) (r : Inode) (x : Nat) : Option UInt8 :=
  match posOf (x / 512) with
  | none => none
  | some pos => if d.ptr r pos = 0 then none else some (d (d.ptr r pos) (x % 512))

theorem Disk.fileByte_eq_some {d : Disk} {r : Inode} {x : Nat} {v : UInt8} :
    d.fileByte r x = some v ↔ ∃ pos, posOf (x / 512) = some pos ∧ d.ptr r pos ≠ 0
      ∧ d (d.ptr r pos) (x % 512) = v := by
  unfold Disk.fileByte
  cases posOf (x / 512) with
  | none => simp
  | some pos =>
      by_cases h0 : d.ptr r pos = 0
      · simp [h0]
      · simp [h0]

theorem SameFile.fileByte {d d' : Disk} {r r' : Inode} (h : SameFile d r d' r') (x : Nat) :
    d'.fileByte r' x = d.fileByte r x := by
  unfold Disk.fileByte
  cases posOf (x / 512) with
  | none => rfl
  | some pos =>
      simp only [h.ptr]
      by_cases h0 : d.ptr r pos = 0
      · rw [if_pos h0, if_pos h0]
      · rw [if_neg h0, if_neg h0, h.block pos h0]

/-! ## How far a transfer is

`reached` at the start, after a round and at a byte, and what a walk and the
patch of its block do to the bytes of the file. -/

/-- The bytes a transfer has moved when it stands before block `b`. -/
def reached (offset size b : Nat) : Nat := min size (512 * b - offset)

section

variable {offset size b bo : Nat}

theorem reached_start : reached offset size (offset / 512) = 0 := by
  unfold reached
  omega

theorem reached_step (hb : offset / 512 ≤ b)
    (hbo : bo = if b = offset / 512 then offset % 512 else 0) :
    reached offset size b + min (512 - bo) (size - reached offset size b)
      = reached offset size (b + 1) := by
  unfold reached
  split at hbo <;> omega

theorem reached_byte {i : Nat} (hb : offset / 512 ≤ b)
    (hbo : bo = if b = offset / 512 then offset % 512 else 0) (hi : reached offset size b ≤ i)
    (hi' : i < reached offset size (b + 1)) :
    (offset + i) / 512 = b ∧ (offset + i) % 512 = bo + (i - reached offset size b) := by
  unfold reached at hi hi' ⊢
  split at hbo <;> omega

end

/-- The bytes `[lo, hi)` of a file written from a buffer whose first byte goes to
position `offset`. -/
structure Wrote (buffer : Buf) (offset lo hi : Nat) (d : Disk) (r : Inode) (d' : Disk)
    (r' : Inode) : Prop where
  mapped : ∀ x, lo ≤ x → x < hi → (d'.lookup r' (x / 512)).isSome
  written : ∀ x, lo ≤ x → x < hi → d'.fileByte r' x = some (buffer (x - offset))
  kept : ∀ x v, x < lo ∨ hi ≤ x → d.fileByte r x = some v → d'.fileByte r' x = some v
  fresh : ∀ x v, x < lo ∨ hi ≤ x → d.fileByte r x = none → d'.fileByte r' x = some v → v = 0

theorem Wrote.trans {buffer : Buf} {offset lo mid hi : Nat} {d d' d'' : Disk}
    {r r' r'' : Inode} (h : Wrote buffer offset lo mid d r d' r')
    (h' : Wrote buffer offset mid hi d' r' d'' r'') (hk : KeepsMap d' r' d'' r'')
    (hlo : lo ≤ mid) (hhi : mid ≤ hi) : Wrote buffer offset lo hi d r d'' r'' where
  mapped x hx hx' := by
    by_cases hm : x < mid
    · obtain ⟨p, hp⟩ := Option.isSome_iff_exists.mp (h.mapped x hx hm)
      exact Option.isSome_iff_exists.mpr ⟨p, hk.lookup hp⟩
    · exact h'.mapped x (by omega) hx'
  written x hx hx' := by
    by_cases hm : x < mid
    · exact h'.kept x _ (Or.inl hm) (h.written x hx hm)
    · exact h'.written x (by omega) hx'
  kept x v hx hv := h'.kept x v (by omega) (h.kept x v (by omega) hv)
  fresh x v hx hv hv' := by
    cases hm : d'.fileByte r' x with
    | none => exact h'.fresh x v (by omega) hm hv'
    | some w =>
        have hw := h'.kept x w (by omega) hm
        rw [hv'] at hw
        rw [Option.some.inj hw]
        exact h.fresh x w (by omega) hv hm

section

variable {sb : Superblock} {hi : Nat} {T : Nat → Inode} {ino : Nat} {A : Pos → Prop}
  {r r' : Inode} {d d' : Disk}

theorem Grew.data_kept (O : VolOwned sb hi d (Function.update T ino r))
    (h : Grew sb hi T ino A r d r' d') {pos : Pos} (hpos : pos.isTable = false)
    (h0 : d.ptr r pos ≠ 0) : d' (d.ptr r pos) = d (d.ptr r pos) := by
  have hvol : volPtr (Function.update T ino r) d (ino, pos) ≠ 0 := by
    rw [volPtr_self]
    exact h0
  have hlow := O.lower _ hvol
  have hused := O.used _ hvol
  rw [volPtr_self] at hlow hused
  rcases h.data _ hlow with he | ⟨-, hf⟩ | ⟨t, ht, hptr⟩
  · exact he
  · rw [hused] at hf; cases hf
  · have hinj := O.inj (ino, pos) (ino, t) hvol (by rw [volPtr_self, volPtr_self, hptr])
    rw [← (Prod.mk.inj hinj).2, hpos] at ht
    cases ht

theorem Grew.wrote (O : VolOwned sb hi d (Function.update T ino r))
    (h : Grew sb hi T ino A r d r' d') (buffer : Buf) (offset lo : Nat) :
    Wrote buffer offset lo lo d r d' r' where
  mapped x hx hx' := by omega
  written x hx hx' := by omega
  kept x v _ hv := by
    obtain ⟨pos, hpos, h0, hb⟩ := Disk.fileByte_eq_some.mp hv
    have hk := h.changed.keepsMap pos h0
    refine Disk.fileByte_eq_some.mpr ⟨pos, hpos, by rw [hk]; exact h0, ?_⟩
    rw [hk, h.data_kept O (isTable_posOf hpos) h0, hb]
  fresh x v _ hv hv' := by
    obtain ⟨pos, hpos, h0, hb⟩ := Disk.fileByte_eq_some.mp hv'
    have hnull : d.ptr r pos = 0 := by
      by_contra hc
      rw [Disk.fileByte, hpos] at hv
      simp only [hc, if_false] at hv
      cases hv
    rw [← hb, h.zero pos (isTable_posOf hpos) hnull h0]
    rfl

theorem wrote_patch (O : VolOwned sb hi d (Function.update T ino r)) {pos : Pos} {b : Nat}
    (hpos : posOf b = some pos) (h0 : d.ptr r pos ≠ 0) (hlt : d.ptr r pos < 2147483648)
    (buffer : Buf) {offset bo written : Nat} (n : Nat) (hn : bo + n ≤ 512)
    (hlo : 512 * b + bo = offset + written) :
    Wrote buffer offset (offset + written) (offset + written + n) d r
      (d.set (d.ptr r pos) ((d (d.ptr r pos)).patch bo n fun i => buffer (written + i))) r := by
  have hvol : volPtr (Function.update T ino r) d (ino, pos) ≠ 0 := by rw [volPtr_self]; exact h0
  have hv := O.volPtr_set hvol (isTable_posOf hpos)
    ((d (d.ptr r pos)).patch bo n fun i => buffer (written + i))
  rw [volPtr_self] at hv
  have hptr : ∀ s, (d.set (d.ptr r pos)
      ((d (d.ptr r pos)).patch bo n fun i => buffer (written + i))).ptr r s = d.ptr r s :=
    fun s => by rw [← @volPtr_self T ino, hv, volPtr_self]
  -- the bytes of the range lie in block `b`
  have hdiv : ∀ x, offset + written ≤ x → x < offset + written + n →
      x / 512 = b ∧ x % 512 = bo + (x - (offset + written)) := fun x hx hx' => by omega
  have hkeep : ∀ x, x < offset + written ∨ offset + written + n ≤ x → ∀ s,
      posOf (x / 512) = some s → d.ptr r s ≠ 0 →
      (d.set (d.ptr r pos) ((d (d.ptr r pos)).patch bo n fun i => buffer (written + i)))
        (d.ptr r s) (x % 512) = d (d.ptr r s) (x % 512) := fun x hx s hs hs0 => by
    by_cases hsp : d.ptr r s = d.ptr r pos
    · have hinj := O.inj (ino, s) (ino, pos) (by rw [volPtr_self]; exact hs0)
        (by rw [volPtr_self, volPtr_self, hsp])
      rw [(Prod.mk.inj hinj).2] at hs
      have hb : x / 512 = b := posOf_inj hs hpos
      rw [hsp, Disk.set_self, Buf.patch_out (by omega)]
    · rw [Disk.set_of_ne hsp]
  exact {
    mapped := fun x hx hx' => by
      rw [(hdiv x hx hx').1]
      exact Option.isSome_iff_exists.mpr ⟨d.ptr r pos,
        Disk.lookup_eq_some.mpr ⟨pos, hpos, hptr pos, h0, hlt⟩⟩
    written := fun x hx hx' => by
      obtain ⟨h1, h2⟩ := hdiv x hx hx'
      refine Disk.fileByte_eq_some.mpr ⟨pos, by rw [h1]; exact hpos, ?_, ?_⟩
      · rw [hptr]
        exact h0
      · rw [hptr, Disk.set_self, h2, Buf.patch_in (by omega) (by omega)]
        congr 1
        omega
    kept := fun x v hx hv => by
      obtain ⟨s, hs, hs0, hb⟩ := Disk.fileByte_eq_some.mp hv
      refine Disk.fileByte_eq_some.mpr ⟨s, hs, by rw [hptr]; exact hs0, ?_⟩
      rw [hptr, hkeep x hx s hs hs0, hb]
    fresh := fun x v hx hv hv' => by
      obtain ⟨s, hs, hs0, hb⟩ := Disk.fileByte_eq_some.mp hv'
      rw [hptr] at hs0
      rw [Disk.fileByte, hs] at hv
      simp only [hs0, if_false] at hv
      cases hv }

/-! ## The block loop of a write

The loop ends with the number of bytes written before the first block that
could not be had. -/

variable (L : SoundLayout sb) (B : BlockBound sb hi) (u : Block)

include L B

theorem walk_cases (O : VolOwned sb hi d (Function.update T ino r)) (b : Nat) :
    ∃ r₁ d₁, Grew sb hi T ino (OnTheWay b) r d r₁ d₁ ∧
      (getDataBlockForInode (arrayDev u) sb r b true d = ((none, r₁), d₁)
      ∨ ∃ pos, posOf b = some pos ∧ d₁.ptr r₁ pos ≠ 0 ∧ d₁.ptr r₁ pos < 2147483648
        ∧ getDataBlockForInode (arrayDev u) sb r b true d
          = ((some (d₁.ptr r₁ pos), r₁), d₁)) := by
  obtain ⟨r₁, d₁, hrun, hg, -⟩ := getDataBlock_grew L B u O b
  refine ⟨r₁, d₁, hg, ?_⟩
  cases hl : d₁.lookup r₁ b with
  | none => exact Or.inl (by rw [hrun, hl])
  | some p =>
      obtain ⟨pos, hpos, hp, hp0, hlt⟩ := Disk.lookup_eq_some.mp hl
      subst hp
      exact Or.inr ⟨pos, hpos, hp0, hlt, by rw [hrun, hl]⟩

/-- The write loop: the walk and the patches change the inode only, and the bytes that the loop
counts are written from the buffer, whatever the range. -/
theorem writeBlocks_spec (buffer : Buf) (offset size n b : Nat) (hb : offset / 512 ≤ b)
    (tmp : Block) (O : VolOwned sb hi d (Function.update T ino r)) :
    ∃ w r' d', writeBlocks (arrayDev u) sb buffer (offset / 512) offset size n b
      (reached offset size b)
        tmp r d = ((w, r'), d')
      ∧ Changed sb hi T ino r d r' d' ∧ reached offset size b ≤ w ∧ w ≤ size
      ∧ Wrote buffer offset (offset + reached offset size b) (offset + w) d r d' r' := by
  have hsize : reached offset size b ≤ size := Nat.min_le_left _ _
  induction n generalizing b tmp r d with
  | zero =>
      refine ⟨_, r, d, rfl, Changed.refl O, Nat.le_refl _, hsize, ?_⟩
      exact (Grew.refl (A := fun _ => False) O).wrote O buffer offset _
  | succ n ih =>
      obtain ⟨r₁, d₁, hg, hrun | ⟨pos, hpos, hp0, hlt, hrun⟩⟩ := walk_cases L B u O b
      · exact ⟨_, r₁, d₁, by simp [writeBlocks, hrun], hg.changed, Nat.le_refl _, hsize,
          hg.wrote O buffer offset _⟩
      · generalize hbo : (if b = offset / 512 then offset % 512 else 0) = bo
        have hstep := @reached_step offset size b bo hb hbo.symm
        generalize hk : min (512 - bo) (size - reached offset size b) = k at hstep
        generalize htmp : (d₁ (d₁.ptr r₁ pos)).patch bo k
          (fun i => buffer (reached offset size b + i)) = tmp'
        have hset := Changed.set L B hg.owned hp0 (isTable_posOf hpos) tmp'
        obtain ⟨w, r', d', hrest, hch, hge, hle, hw⟩ := ih (b + 1) (by omega) tmp' hset.owned
          (Nat.min_le_left _ _)
        rw [← hstep] at hrest hge hw
        have hpatch : Wrote buffer offset (offset + reached offset size b)
            (offset + reached offset size b + k) d₁ r₁ (d₁.set (d₁.ptr r₁ pos) tmp') r₁ := by
          rw [← htmp]
          rcases Nat.eq_zero_or_pos k with hk0 | hkpos
          · -- all bytes of the range are written
            rw [hk0, Buf.patch_none, Disk.set_eq_self rfl]
            exact (Grew.refl (A := fun _ => False) hg.owned).wrote hg.owned buffer offset _
          · refine wrote_patch hg.owned hpos hp0 hlt buffer k (by omega) ?_
            unfold reached at hk ⊢
            split at hbo <;> omega
        refine ⟨w, r', d', ?_, (hg.changed.trans hset).trans hch, by omega, hle, ?_⟩
        · rw [← hrest]
          simp [writeBlocks, hrun, hbo, hk, htmp]
        · have hboth := (hg.wrote O buffer offset (offset + reached offset size b)).trans hpatch
            hset.keepsMap (Nat.le_refl _) (by omega)
          rw [← Nat.add_assoc] at hw
          exact hboth.trans hw hch.keepsMap (by omega) (by omega)

end

/-! ## The block loop of a read

The same shape without allocation. The buffer holds the bytes read and is
untouched elsewhere. -/

/-- Where the loop over a proper range stands before block `b`, with `n` blocks left. -/
def AtBlock (offset size n b written : Nat) : Prop :=
  written ≤ size ∧ (0 < n → offset / 512 ≤ b ∧ 512 * (b + n - 1) < offset + size
    ∧ written = if b = offset / 512 then 0 else 512 * b - offset)

theorem AtBlock.next {offset size n b written bo : Nat}
    (h : AtBlock offset size (n + 1) b written)
    (hbo : bo = if b = offset / 512 then offset % 512 else 0) :
    512 * b + bo = offset + written ∧ bo ≤ 512
    ∧ AtBlock offset size n (b + 1) (written + min (512 - bo) (size - written)) := by
  obtain ⟨h1, h2⟩ := h
  obtain ⟨h3, h4, h5⟩ := h2 (by omega)
  refine ⟨?_, ?_, by omega, fun hn => ⟨by omega, by omega, ?_⟩⟩
  · split at hbo <;> split at h5 <;> omega
  · split at hbo <;> omega
  · have hne : b + 1 ≠ offset / 512 := by omega
    rw [if_neg hne]
    split at hbo <;> split at h5 <;> omega

section

variable (u : Block) (sb : Superblock) {d : Disk} {r : Inode}

/-- The read loop over a range that is mapped delivers its bytes. -/
theorem readBlocks_spec {offset size n b copied : Nat} {tmp : Block} {out : Buf} {f : Buf}
    (hsize : 0 < size) (hb : AtBlock offset size n b copied) (hend : n = 0 → copied = size)
    (hlast : 0 < n → offset + size ≤ 512 * (b + n))
    (hmap : ∀ x, offset ≤ x → x < offset + size → (d.lookup r (x / 512)).isSome)
    (hbyte : ∀ x, offset ≤ x → x < offset + size → d.fileByte r x = some (f (x - offset))) :
    ∃ out', readBlocks (arrayDev u) sb r (offset / 512) offset size n b copied tmp out d
        = ((size, out'), d)
      ∧ ∀ i, out' i = if copied ≤ i ∧ i < size then f i else out i := by
  induction n generalizing b copied tmp out with
  | zero =>
      have hc := hend rfl
      exact ⟨out, by rw [hc]; rfl, fun i => by rw [if_neg (by omega)]⟩
  | succ n ih =>
      generalize hbo : (if b = offset / 512 then offset % 512 else 0) = bo
      generalize hk : min (512 - bo) (size - copied) = k
      obtain ⟨hpos, hle, hnext⟩ := hb.next hbo.symm
      rw [hk] at hnext
      obtain ⟨h1, h2⟩ := hb
      obtain ⟨h3, h4, h5⟩ := h2 (by omega)
      have hl := hlast (by omega)
      have hbo512 : bo < 512 := by
        split at hbo <;> omega
      have hin : ∀ i, copied ≤ i → i < copied + k →
          (offset + i) / 512 = b ∧ (offset + i) % 512 = bo + (i - copied) := fun i hi hi' => by
        omega
      -- the block is mapped and holds the bytes of the range
      have hlt : copied < size := by split at h5 <;> omega
      have hx := hmap (offset + copied) (by omega) (by omega)
      have hdiv : (offset + copied) / 512 = b := by omega
      rw [hdiv] at hx
      obtain ⟨p, hp⟩ := Option.isSome_iff_exists.mp hx
      obtain ⟨pos, hposb, hptr, hp0, -⟩ := Disk.lookup_eq_some.mp hp
      have hblock : ∀ i, copied ≤ i → i < copied + k → d p (bo + (i - copied)) = f i :=
        fun i hi hi' => by
          obtain ⟨h6, h7⟩ := hin i hi hi'
          have hv := hbyte (offset + i) (by omega) (by omega)
          rw [Disk.fileByte, h6, hposb] at hv
          simp only [hptr, hp0, if_false] at hv
          rw [← h7, Option.some.inj hv, Nat.add_sub_cancel_left]
      obtain ⟨out', hrun, hout⟩ := @ih (b + 1) (copied + k)
        (d p) (out.patch copied k fun i => d p (bo + i)) hnext (by omega) (by omega)
      refine ⟨out', ?_, fun i => ?_⟩
      · rw [← hrun]
        simp [readBlocks, getDataBlock_lookup, hp, hbo, hk]
      · rw [hout i]
        by_cases hi : copied + k ≤ i ∧ i < size
        · rw [if_pos hi, if_pos (by omega)]
        · rw [if_neg hi]
          by_cases hi' : copied ≤ i ∧ i < copied + k
          · rw [Buf.patch_in hi'.1 hi'.2, hblock i hi'.1 hi'.2, if_pos (by omega)]
          · rw [Buf.patch_out (by omega), if_neg (by omega)]

end

end IpoOs
