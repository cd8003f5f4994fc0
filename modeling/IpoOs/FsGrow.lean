import IpoOs.FsGrowth

/-!
# What allocation does to a volume

`VolOwned` is the ownership discipline for the pointers of a table of
inodes. The table is a parameter because the code works on a record in
memory (`Function.update T ino r`) that reaches its slot on disk later.

`Grew` collects what `get_data_block_for_inode` with `alloc` set can do:
nothing, take a block and lose it, or link a fresh zeroed block at a null
position. The three are shown once each (`Grew.refl`, `Grew.leak`,
`Grew.link`), `Grew.trans` composes them, and `getDataBlock_grew` says
that the function does one of these compositions and returns what a
lookup of the logical index then gives.

The bound `hi` of the ownership is a parameter: an `int` that holds a block
number holds only those below 2^31, so a volume may have blocks that the
walk can never return, and `BlockBound` says which bounds make sense.
-/

namespace IpoOs

/-- The pointers of the inodes `T` are owned: in the data region below `hi`,
marked used, and no block is pointed to twice. -/
def VolOwned (sb : Superblock) (hi : Nat) (d : Disk) (T : Nat → Inode) : Prop :=
  Owned sb.dataBlocksStart.toNat hi (fun p => d.blockUsed sb p = true) (volPtr T d)

/-- A bound for block numbers that data blocks below `2^31` respect: the size of
the volume, or what a run of the allocator can reach of it. -/
structure BlockBound (sb : Superblock) (hi : Nat) : Prop where
  le : hi ≤ sb.fsSizeBlocks.toNat
  low : ∀ p, sb.DataBlock p → p < 2147483648 → p < hi

theorem blockBound_size (sb : Superblock) : BlockBound sb sb.fsSizeBlocks.toNat :=
  ⟨Nat.le_refl _, fun _ h _ => h.2⟩

theorem blockBound_int (sb : Superblock) :
    BlockBound sb (min sb.fsSizeBlocks.toNat 2147483648) :=
  ⟨Nat.min_le_left _ _, fun _ h h' => lt_min h.2 h'⟩

section

variable {sb : Superblock} {hi : Nat} {d d' : Disk} {T : Nat → Inode}

theorem VolOwned.dataBlock (B : BlockBound sb hi) (O : VolOwned sb hi d T)
    {s : Nat × Pos} (h : volPtr T d s ≠ 0) : sb.DataBlock (volPtr T d s) :=
  ⟨O.lower s h, Nat.lt_of_lt_of_le (O.upper s h) B.le⟩

theorem volPtr_frame (h : ∀ s : Nat × Pos, s.2.isTable = true → volPtr T d s ≠ 0 →
    d' (volPtr T d s) = d (volPtr T d s)) : volPtr T d' = volPtr T d := by
  refine (stored_volPtr T d).frame (stored_volPtr T d') (fun _ _ => rfl) ?_
  rintro ⟨i, s⟩ ⟨j, t⟩ hp h0
  simp only [Pos.shape, Option.map_eq_some_iff, Prod.mk.injEq] at hp
  obtain ⟨t', ht', rfl, rfl⟩ := hp
  rw [h (i, t') (Pos.isTable_of_parent ht') h0]

/-- A block no pointer block position points to can be rewritten. -/
theorem VolOwned.volPtr_set (O : VolOwned sb hi d T) {s : Nat × Pos}
    (h0 : volPtr T d s ≠ 0) (hs : s.2.isTable = false) (b : Block) :
    volPtr T (d.set (volPtr T d s) b) = volPtr T d :=
  volPtr_frame fun t ht _ => Disk.set_of_ne fun hc => by
    have := O.inj s t h0 hc.symm
    rw [← this, hs] at ht
    cases ht

theorem VolOwned.volPtr_of_data (O : VolOwned sb hi d T)
    (h : ∀ q, sb.dataBlocksStart.toNat ≤ q → d' q = d q) : volPtr T d' = volPtr T d :=
  volPtr_frame fun s _ h0 => h _ (O.lower s h0)

/-- A disk with the same data blocks and block bitmap has the same owners. -/
theorem VolOwned.of_data (B : BlockBound sb hi) (O : VolOwned sb hi d T)
    (h : ∀ q, sb.dataBlocksStart.toNat ≤ q → d' q = d q)
    (hu : ∀ p, sb.DataBlock p → d'.blockUsed sb p = d.blockUsed sb p) :
    VolOwned sb hi d' T := by
  unfold VolOwned
  rw [O.volPtr_of_data h]
  exact Owned.of_used O fun s h0 => (hu _ (O.dataBlock B h0)).trans (O.used s h0)

theorem VolOwned.set (L : SoundLayout sb) (B : BlockBound sb hi) (O : VolOwned sb hi d T)
    {s : Nat × Pos} (h0 : volPtr T d s ≠ 0) (hs : s.2.isTable = false) (b : Block) :
    VolOwned sb hi (d.set (volPtr T d s) b) T := by
  unfold VolOwned
  rw [O.volPtr_set h0 hs]
  exact Owned.of_used O fun t ht => by
    rw [L.blockUsed_set (O.dataBlock B h0) (O.dataBlock B ht)]
    exact O.used t ht

theorem VolOwned.ne_free (O : VolOwned sb hi d T) {p : Nat}
    (hfree : d.blockUsed sb p = false) (s : Nat × Pos) (h0 : volPtr T d s ≠ 0) :
    volPtr T d s ≠ p := fun hc => by
  have h := O.used s h0
  rw [hc, hfree] at h
  cases h

end

/-! ## The effect of allocation

The clauses of `Grew` are what later modules use: the record keeps its other
fields, pointers that were set stay, new ones are data blocks that were free
and are zero, and other inodes keep theirs. -/

/-- What an allocating walk on inode `ino` may do: `r` and `d` before, `r'` and
`d'` after, with fresh blocks linked at positions in `A` only. -/
structure Grew (sb : Superblock) (hi : Nat) (T : Nat → Inode) (ino : Nat) (A : Pos → Prop)
    (r : Inode) (d : Disk) (r' : Inode) (d' : Disk) : Prop where
  /-- The blocks before the data region stay, but for the block bitmap. -/
  sameMeta : SameMeta sb d d'
  /-- Blocks are only taken. -/
  used : ∀ p, sb.DataBlock p → d.blockUsed sb p = true → d'.blockUsed sb p = true
  taken : TakesFor sb A r d r' d'
  /-- The inode's pointers stay, or a null one gets a block that was free. -/
  ptr : ∀ pos, d'.ptr r' pos = d.ptr r pos
    ∨ (A pos ∧ d.ptr r pos = 0 ∧ d'.ptr r' pos ≠ 0 ∧ sb.DataBlock (d'.ptr r' pos)
      ∧ d.blockUsed sb (d'.ptr r' pos) = false)
  /-- Everybody else's pointers stay. -/
  others : ∀ i, i ≠ ino → ∀ pos, d'.ptr (T i) pos = d.ptr (T i) pos
  /-- Contents change in free blocks and in the inode's pointer blocks only. -/
  data : ∀ q, sb.dataBlocksStart.toNat ≤ q → d' q = d q
    ∨ (sb.DataBlock q ∧ d.blockUsed sb q = false)
    ∨ ∃ t, t.isTable = true ∧ d.ptr r t = q
  /-- A block newly linked for data is zero. -/
  zero : ∀ pos, pos.isTable = false → d.ptr r pos = 0 → d'.ptr r' pos ≠ 0 →
    d' (d'.ptr r' pos) = Buf.zero
  /-- The other fields of the record stay. -/
  fields : r'.mode = r.mode ∧ r'.size = r.size ∧ r'.linksCount = r.linksCount
    ∧ r'.pad = r.pad
  /-- A pointer field of the record stays or was null. -/
  roots : ∀ pos, r.root pos = 0 ∨ r'.root pos = r.root pos
  owned : VolOwned sb hi d' (Function.update T ino r')

section

variable {sb : Superblock} {hi : Nat} {T : Nat → Inode} {ino : Nat} {A A' : Pos → Prop}
  {r r' r'' : Inode} {d d' d'' : Disk}

theorem volPtr_self (pos : Pos) :
    volPtr (Function.update T ino r) d (ino, pos) = d.ptr r pos := by
  simp only [volPtr, Function.update_self]

theorem volPtr_other {i : Nat} (h : i ≠ ino) (pos : Pos) :
    volPtr (Function.update T ino r) d (i, pos) = d.ptr (T i) pos := by
  simp only [volPtr, Function.update_of_ne h]

theorem Grew.refl (O : VolOwned sb hi d (Function.update T ino r)) :
    Grew sb hi T ino A r d r d where
  sameMeta := SameMeta.refl d
  used := fun _ _ h => h
  taken := fun _ _ _ h => Or.inl h
  ptr := fun _ => Or.inl rfl
  others := fun _ _ _ => rfl
  data := fun _ _ => Or.inl rfl
  zero := fun _ _ h h' => absurd h h'
  fields := ⟨rfl, rfl, rfl, rfl⟩
  roots := fun _ => Or.inr rfl
  owned := O

theorem Grew.weaken (h : Grew sb hi T ino A r d r' d') (hA : ∀ pos, A pos → A' pos) :
    Grew sb hi T ino A' r d r' d' :=
  { h with
    taken := h.taken.weaken hA
    ptr := fun pos => (h.ptr pos).imp id fun ⟨h1, h2⟩ => ⟨hA pos h1, h2⟩ }

theorem Grew.free (h : Grew sb hi T ino A r d r' d') {p : Nat} (hp : sb.DataBlock p)
    (hf : d'.blockUsed sb p = false) : d.blockUsed sb p = false :=
  KeepsUsed.free h.used hp hf

theorem Grew.ptr_kept (h : Grew sb hi T ino A r d r' d') {pos : Pos} (h0 : d.ptr r pos ≠ 0) :
    d'.ptr r' pos = d.ptr r pos :=
  (h.ptr pos).resolve_right fun hc => h0 hc.2.1

theorem Grew.trans (h : Grew sb hi T ino A r d r' d')
    (h' : Grew sb hi T ino A r' d' r'' d'') : Grew sb hi T ino A r d r'' d'' where
  sameMeta := h.sameMeta.trans h'.sameMeta
  used := fun p hp hu => h'.used p hp (h.used p hp hu)
  taken := h.taken.trans h'.taken (fun pos _ h0 => h.ptr_kept h0) fun pos _ h0 => h'.ptr_kept h0
  ptr := fun pos => by
    rcases h'.ptr pos with he | ⟨hA, h0, hne, hdb, hf⟩
    · rw [he]
      exact h.ptr pos
    · rcases h.ptr pos with he | ⟨-, -, hne', -⟩
      · exact Or.inr ⟨hA, he ▸ h0, hne, hdb, h.free hdb hf⟩
      · exact absurd h0 hne'
  others := fun i hi pos => (h'.others i hi pos).trans (h.others i hi pos)
  data := fun q hq => by
    rcases h'.data q hq with he | ⟨hdb, hf⟩ | ⟨t, ht, hptr⟩
    · rw [he]
      exact h.data q hq
    · exact Or.inr (Or.inl ⟨hdb, h.free hdb hf⟩)
    · rcases h.ptr t with he | ⟨-, -, -, hdb, hf⟩
      · exact Or.inr (Or.inr ⟨t, ht, he ▸ hptr⟩)
      · rw [hptr] at hdb hf
        exact Or.inr (Or.inl ⟨hdb, hf⟩)
  zero := fun pos hp h0 hne => by
    by_cases hmid : d'.ptr r' pos = 0
    · exact h'.zero pos hp hmid hne
    · have he : d''.ptr r'' pos = d'.ptr r' pos :=
        (h'.ptr pos).resolve_right fun hc => hmid hc.2.1
      rw [he]
      have hz := h.zero pos hp h0 hmid
      have hvol : volPtr (Function.update T ino r') d' (ino, pos) ≠ 0 := by
        rw [volPtr_self]; exact hmid
      have hlow := h.owned.lower (ino, pos) hvol
      have hused := h.owned.used (ino, pos) hvol
      rw [volPtr_self] at hlow hused
      -- the linked block is in use and holds data, so the second part leaves it alone
      rcases h'.data _ hlow with hsame | ⟨-, hf⟩ | ⟨t, ht, hptr⟩
      · rw [hsame, hz]
      · rw [hused] at hf; cases hf
      · have hinj := h.owned.inj (ino, pos) (ino, t) hvol
          (by rw [volPtr_self, volPtr_self, hptr])
        rw [← (Prod.mk.inj hinj).2, hp] at ht
        cases ht
  fields := by
    obtain ⟨h1, h2, h3, h4⟩ := h.fields
    obtain ⟨h1', h2', h3', h4'⟩ := h'.fields
    exact ⟨h1'.trans h1, h2'.trans h2, h3'.trans h3, h4'.trans h4⟩
  roots := fun pos => by
    rcases h.roots pos with h0 | he
    · exact Or.inl h0
    · rcases h'.roots pos with h0' | he'
      · exact Or.inl (he ▸ h0')
      · exact Or.inr (he'.trans he)
  owned := h'.owned

/-! ## A block taken and lost

The bit is set and no pointer names the block. -/

variable (L : SoundLayout sb) (B : BlockBound sb hi)

include L

theorem SoundLayout.takeBlock_of_used {p q : Nat} (hp : sb.DataBlock p)
    (hfree : d.blockUsed sb p = false) (hq : sb.dataBlocksStart.toNat ≤ q)
    (hused : d.blockUsed sb q = true) : d.takeBlock sb p q = d q := by
  rw [L.takeBlock_data hp hq, if_neg fun hc => by rw [hc, hfree] at hused; cases hused]

theorem VolOwned.volPtr_takeBlock (O : VolOwned sb hi d T) {p : Nat} (hp : sb.DataBlock p)
    (hfree : d.blockUsed sb p = false) : volPtr T (d.takeBlock sb p) = volPtr T d :=
  volPtr_frame fun s _ h0 => L.takeBlock_of_used hp hfree (O.lower s h0) (O.used s h0)

include B

theorem VolOwned.takeBlock (O : VolOwned sb hi d T) {p : Nat} (hp : sb.DataBlock p)
    (hfree : d.blockUsed sb p = false) : VolOwned sb hi (d.takeBlock sb p) T := by
  unfold VolOwned
  rw [O.volPtr_takeBlock L hp hfree]
  exact Owned.of_used O fun s h0 => by
    rw [L.blockUsed_takeBlock hp (O.dataBlock B h0)]
    split
    · rfl
    · exact O.used s h0

theorem Grew.leak (O : VolOwned sb hi d (Function.update T ino r)) {p : Nat}
    (hp : sb.DataBlock p) (hbig : 2147483648 ≤ p) (hfree : d.blockUsed sb p = false) {pos : Pos}
    (hA : A pos) (hnull : d.ptr r pos = 0) :
    Grew sb hi T ino A r d r (d.takeBlock sb p)
    ∧ ∀ s, (d.takeBlock sb p).ptr r s = d.ptr r s := by
  have hv := O.volPtr_takeBlock L hp hfree
  have hptr : ∀ s, (d.takeBlock sb p).ptr r s = d.ptr r s := fun s => by
    rw [← @volPtr_self T ino, hv, volPtr_self]
  refine ⟨?_, hptr⟩
  exact {
    sameMeta := L.sameMeta_takeBlock hp
    used := fun q hq hu => by
      rw [L.blockUsed_takeBlock hp hq]
      split
      · rfl
      · exact hu
    taken := fun q _ hq hu => by
      rw [L.blockUsed_takeBlock hp hq] at hu
      split at hu
      · rename_i hqp
        exact Or.inr ⟨pos, hA, hnull, Or.inr (hqp ▸ hbig)⟩
      · exact Or.inl hu
    ptr := fun pos => Or.inl (hptr pos)
    others := fun i hi pos => by
      rw [← volPtr_other (T := T) (r := r) hi, hv, volPtr_other hi]
    data := fun q hq => by
      rw [L.takeBlock_data hp hq]
      split
      · rename_i hqp
        exact Or.inr (Or.inl (hqp ▸ ⟨hp, hfree⟩))
      · exact Or.inl rfl
    zero := fun s _ h0 hne => absurd (hptr s ▸ h0) hne
    fields := ⟨rfl, rfl, rfl, rfl⟩
    roots := fun _ => Or.inr rfl
    owned := O.takeBlock L B hp hfree }

/-! ## A fresh block linked

A null position gets the block that was just taken. What is below it reads
as null, since the block is zero. -/

omit B in
/-- The entry stored by a link lands in the parent's block as it was before. -/
theorem VolOwned.setPtr_takeBlock (O : VolOwned sb hi d (Function.update T ino r)) {p : Nat}
    (hp : sb.DataBlock p) (hfree : d.blockUsed sb p = false) {pos t : Pos}
    (h : pos.parent = some t) (ht : d.ptr r t ≠ 0) :
    (d.takeBlock sb p).setPtr r pos p = (d.takeBlock sb p).set (d.ptr r t)
      ((d (d.ptr r t)).putWord (4 * pos.index) (UInt32.ofNat p)) := by
  have hv := O.volPtr_takeBlock L hp hfree
  have hptr : (d.takeBlock sb p).ptr r t = d.ptr r t := by
    rw [← @volPtr_self T ino, hv, volPtr_self]
  have hvol : volPtr (Function.update T ino r) d (ino, t) ≠ 0 := by rw [volPtr_self]; exact ht
  have hlow := O.lower (ino, t) hvol
  have hused := O.used (ino, t) hvol
  rw [volPtr_self] at hlow hused
  simp only [Disk.setPtr, h, hptr, L.takeBlock_of_used hp hfree hlow hused]

omit B in
theorem VolOwned.link_data (O : VolOwned sb hi d (Function.update T ino r)) {p : Nat}
    (hp : sb.DataBlock p) (hfree : d.blockUsed sb p = false) {pos : Pos}
    (hpar : ∀ t, pos.parent = some t → d.ptr r t ≠ 0) {q : Nat} (hqp : q ≠ p)
    (hq : ∀ t, pos.parent = some t → q ≠ d.ptr r t) (hds : sb.dataBlocksStart.toNat ≤ q) :
    (d.takeBlock sb p).setPtr r pos p q = d q := by
  cases h : pos.parent with
  | none => simp only [Disk.setPtr, h, L.takeBlock_data hp hds, if_neg hqp]
  | some t =>
      rw [O.setPtr_takeBlock L hp hfree h (hpar t h), Disk.set_of_ne (hq t h),
        L.takeBlock_data hp hds, if_neg hqp]

omit B in
theorem VolOwned.link_zero (O : VolOwned sb hi d (Function.update T ino r)) {p : Nat}
    (hp : sb.DataBlock p) (hfree : d.blockUsed sb p = false) {pos : Pos}
    (hpar : ∀ t, pos.parent = some t → d.ptr r t ≠ 0) :
    (d.takeBlock sb p).setPtr r pos p p = Buf.zero := by
  cases hpp : pos.parent with
  | none => simp only [Disk.setPtr, hpp, L.takeBlock_data hp hp.1, if_true]
  | some v =>
      have hv0 := hpar v hpp
      have hvp : p ≠ d.ptr r v := fun hc => by
        refine O.ne_free hfree (ino, v) ?_ (by rw [volPtr_self, hc])
        rw [volPtr_self]; exact hv0
      rw [O.setPtr_takeBlock L hp hfree hpp hv0, Disk.set_of_ne hvp,
        L.takeBlock_data hp hp.1, if_pos rfl]

omit B in
theorem VolOwned.volPtr_link (O : VolOwned sb hi d (Function.update T ino r)) {p : Nat}
    (hp : sb.DataBlock p) (hp32 : p < 4294967296) (hfree : d.blockUsed sb p = false)
    {pos : Pos} (hnull : d.ptr r pos = 0) (hpar : ∀ t, pos.parent = some t → d.ptr r t ≠ 0) :
    volPtr (Function.update T ino (r.setPtr pos p)) ((d.takeBlock sb p).setPtr r pos p)
      = Function.update (volPtr (Function.update T ino r) d) (ino, pos) p := by
  have hp0 := L.dataBlock_ne_zero hp
  have hne := fun s h0 => VolOwned.ne_free O hfree s h0
  -- the entry of a pointer block after the link
  have hword : ∀ (s : Nat × Pos) (t : Nat × Pos), Pos.shape.parent s = some t →
      volPtr (Function.update T ino r) d t ≠ 0 →
      (((d.takeBlock sb p).setPtr r pos p
        (volPtr (Function.update T ino r) d t)).word (4 * s.2.index)).toNat
      = if s = (ino, pos) then p
        else ((d (volPtr (Function.update T ino r) d t)).word (4 * s.2.index)).toNat := by
    rintro ⟨i, s⟩ t hs ht
    simp only [Pos.shape, Option.map_eq_some_iff] at hs
    obtain ⟨t', hst, rfl⟩ := hs
    have hlow := O.lower _ ht
    cases hpp : pos.parent with
    | none =>
        have hspos : (i, s) ≠ (ino, pos) := fun hc => by
          rw [(Prod.mk.inj hc).2, hpp] at hst; cases hst
        rw [if_neg hspos, VolOwned.link_data L O hp hfree hpar (hne _ ht)
          (fun v hv => by rw [hpp] at hv; cases hv) hlow]
    | some v =>
        have hv0 := hpar v hpp
        by_cases hq : volPtr (Function.update T ino r) d (i, t') = d.ptr r v
        · -- the block that receives the entry
          have hsame : (i, t') = (ino, v) := O.inj _ _ ht (by rw [hq, volPtr_self])
          obtain ⟨rfl, rfl⟩ := Prod.mk.inj hsame
          rw [O.setPtr_takeBlock L hp hfree hpp hv0, hq, Disk.set_self]
          by_cases hidx : s.index = pos.index
          · have hspos : s = pos := by
              have h := Pos.shape.sibling (i, s) (i, pos) (i, t')
                (by simp [Pos.shape, hst]) (by simp [Pos.shape, hpp]) hidx
              exact (Prod.mk.inj h).2
            rw [hspos, if_pos rfl, Buf.word_putWord_self, UInt32.toNat_ofNat',
              Nat.mod_eq_of_lt hp32]
          · have hdis : 4 * s.index + 4 ≤ 4 * pos.index ∨ 4 * pos.index + 4 ≤ 4 * s.index := by
              omega
            rw [if_neg fun hc => hidx (by rw [(Prod.mk.inj hc).2]),
              Buf.word_putWord_of_disjoint hdis]
        · have hspos : (i, s) ≠ (ino, pos) := fun hc => by
            obtain ⟨rfl, rfl⟩ := Prod.mk.inj hc
            rw [hpp] at hst
            obtain rfl := Option.some.inj hst
            exact hq (volPtr_self _)
          rw [if_neg hspos, VolOwned.link_data L O hp hfree hpar (hne _ ht)
            (fun w hw => by rw [hpp] at hw; obtain rfl := Option.some.inj hw; exact hq) hlow]
  refine (stored_volPtr (Function.update T ino r) d).link
    (stored_volPtr (Function.update T ino (r.setPtr pos p)) _) hp0
    (by rw [volPtr_self]; exact hnull) (fun k => ?_) (fun t ht => ?_) (fun t ht => ?_)
    hword
  · rw [VolOwned.link_zero L O hp hfree hpar]
    rfl
  · simp only [Pos.shape, Option.map_eq_some_iff] at ht
    obtain ⟨t', ht', rfl⟩ := ht
    rw [volPtr_self]
    exact hpar t' ht'
  · obtain ⟨i, t⟩ := t
    have ht' : t.parent = none := by simpa [Pos.shape] using ht
    by_cases hi : i = ino
    · subst hi
      simp only [Function.update_self]
      cases hpp : pos.parent with
      | none => simp [root_setPtr hp32 hpp ht']
      | some v =>
          rw [setPtr_of_parent hpp, if_neg]
          intro hc
          rw [(Prod.mk.inj hc).2, hpp] at ht'
          cases ht'
    · simp only [Function.update_of_ne hi]
      rw [if_neg fun hc => hi (Prod.mk.inj hc).1]

omit B in
theorem VolOwned.ptr_link (O : VolOwned sb hi d (Function.update T ino r)) {p : Nat}
    (hp : sb.DataBlock p) (hp32 : p < 4294967296) (hfree : d.blockUsed sb p = false)
    {pos : Pos} (hnull : d.ptr r pos = 0) (hpar : ∀ t, pos.parent = some t → d.ptr r t ≠ 0)
    (s : Pos) : ((d.takeBlock sb p).setPtr r pos p).ptr (r.setPtr pos p) s
      = if s = pos then p else d.ptr r s := by
  rw [← @volPtr_self T ino,
    VolOwned.volPtr_link L O hp hp32 hfree hnull hpar]
  by_cases hs : s = pos
  · rw [if_pos hs, hs, Function.update_self]
  · rw [if_neg hs, Function.update_of_ne fun hc => hs (Prod.mk.inj hc).2, volPtr_self]

omit B in
theorem SoundLayout.sameMeta_link {p : Nat} (hp : sb.DataBlock p)
    (O : VolOwned sb hi d (Function.update T ino r)) (B : BlockBound sb hi)
    (hfree : d.blockUsed sb p = false) {pos : Pos}
    (hpar : ∀ t, pos.parent = some t → d.ptr r t ≠ 0) :
    SameMeta sb d ((d.takeBlock sb p).setPtr r pos p)
    ∧ ∀ q, sb.DataBlock q → ((d.takeBlock sb p).setPtr r pos p).blockUsed sb q
      = if q = p then true else d.blockUsed sb q := by
  cases hpp : pos.parent with
  | none =>
      have hset : (d.takeBlock sb p).setPtr r pos p = d.takeBlock sb p := by
        simp only [Disk.setPtr, hpp]
      rw [hset]
      exact ⟨L.sameMeta_takeBlock hp, fun q hq => L.blockUsed_takeBlock hp hq⟩
  | some t =>
      have ht := hpar t hpp
      have hdb : sb.DataBlock (d.ptr r t) := by
        rw [← @volPtr_self T ino] at ht ⊢
        exact O.dataBlock B ht
      rw [O.setPtr_takeBlock L hp hfree hpp ht]
      exact ⟨(L.sameMeta_takeBlock hp).trans (sameMeta_set hdb _), fun q hq => by
        rw [L.blockUsed_set hdb hq, L.blockUsed_takeBlock hp hq]⟩

theorem Grew.link (O : VolOwned sb hi d (Function.update T ino r)) {p : Nat}
    (hp : sb.DataBlock p) (hp32 : p < 4294967296) (hhi : p < hi)
    (hfree : d.blockUsed sb p = false) {pos : Pos} (hA : A pos) (hnull : d.ptr r pos = 0)
    (hpar : ∀ t, pos.parent = some t → d.ptr r t ≠ 0) :
    Grew sb hi T ino A r d (r.setPtr pos p) ((d.takeBlock sb p).setPtr r pos p) := by
  have hvol := VolOwned.volPtr_link L O hp hp32 hfree hnull hpar
  have hp0 := L.dataBlock_ne_zero hp
  obtain ⟨hmeta, hused⟩ := L.sameMeta_link hp O B hfree hpar
  have hptr := VolOwned.ptr_link L O hp hp32 hfree hnull hpar
  exact {
    sameMeta := hmeta
    used := fun q hq hu => by
      rw [hused q hq]
      split
      · rfl
      · exact hu
    taken := fun q _ hq hu => by
      rw [hused q hq] at hu
      split at hu
      · rename_i hqp
        exact Or.inr ⟨pos, hA, hnull, Or.inl (by rw [hptr pos, if_pos rfl, hqp])⟩
      · exact Or.inl hu
    ptr := fun s => by
      rw [hptr s]
      by_cases hs : s = pos
      · subst hs
        rw [if_pos rfl]
        exact Or.inr ⟨hA, hnull, hp0, hp, hfree⟩
      · rw [if_neg hs]
        exact Or.inl rfl
    others := fun i hi s => by
      have h := congrFun hvol (i, s)
      rwa [volPtr_other hi, Function.update_of_ne fun hc => hi (Prod.mk.inj hc).1,
        volPtr_other hi] at h
    data := fun q hq => by
      by_cases hqp : q = p
      · exact Or.inr (Or.inl (hqp ▸ ⟨hp, hfree⟩))
      · cases hpp : pos.parent with
        | none =>
            exact Or.inl (VolOwned.link_data L O hp hfree hpar hqp
              (fun t ht => by rw [hpp] at ht; cases ht) hq)
        | some t =>
            by_cases hqt : q = d.ptr r t
            · exact Or.inr (Or.inr ⟨t, Pos.isTable_of_parent hpp, hqt.symm⟩)
            · exact Or.inl (VolOwned.link_data L O hp hfree hpar hqp
                (fun v hv => by rw [hpp] at hv; rwa [← Option.some.inj hv]) hq)
    zero := fun s _ h0 hne => by
      rw [hptr s] at hne ⊢
      by_cases hs : s = pos
      · rw [if_pos hs]
        exact VolOwned.link_zero L O hp hfree hpar
      · rw [if_neg hs] at hne
        exact absurd h0 hne
    fields := by cases pos <;> exact ⟨rfl, rfl, rfl, rfl⟩
    roots := fun s => by
      cases hs : s.parent with
      | some t => exact Or.inl (Inode.root_of_parent hs)
      | none =>
          cases hpp : pos.parent with
          | some t => exact Or.inr (by rw [setPtr_of_parent hpp])
          | none =>
              rw [root_setPtr hp32 hpp hs]
              by_cases hsp : s = pos
              · exact Or.inl (by rw [hsp, ← Disk.ptr_root (d := d) hpp, hnull])
              · exact Or.inr (if_neg hsp)
    owned := by
      unfold VolOwned
      rw [hvol]
      refine Owned.link O hp.1 hhi hp0 (fun hc => by rw [hfree] at hc; cases hc)
        (fun t ht => ?_) (by rw [hused p hp, if_pos rfl])
      rw [hused _ (O.dataBlock B ht)]
      split
      · rfl
      · exact O.used t ht }

/-! ## The walk

The generic walk of `FsGrowth`, instantiated at this discipline. -/

/-- The walk keeps the ownership discipline, and what it does is a `Grew`. -/
theorem growth_owned : Growth sb (fun _ => True)
    (fun r d => VolOwned sb hi d (Function.update T ino r)) (Grew sb hi T ino) where
  closed := fun _ _ => trivial
  refl := Grew.refl
  trans := Grew.trans
  inv := Grew.owned
  used := Grew.used
  steady := by
    intro r d p pos O hp hfree _ _
    refine ⟨fun s _ => ?_, fun t _ _ ht => ?_⟩
    · rw [← @volPtr_self T ino, O.volPtr_takeBlock L hp hfree, volPtr_self]
    · have hvol : volPtr (Function.update T ino r) d (ino, t) ≠ 0 := by rwa [volPtr_self]
      have hlow := O.lower _ hvol
      have hused := O.used _ hvol
      rw [volPtr_self] at hlow hused
      exact L.takeBlock_of_used hp hfree hlow hused
  leak := fun O hp hbig hfree hA _ hnull => (Grew.leak L B O hp hbig hfree hA hnull).1
  link := by
    intro A r d p pos O hp hA _
    have hint := hp.int
    have hptr := VolOwned.ptr_link L O hp.data (by omega) hp.free hp.null hp.parents pos
    rw [if_pos rfl] at hptr
    exact ⟨Grew.link L B O hp.data (by omega) (B.low p hp.data hp.int) hp.free hA hp.null
      hp.parents, hptr, VolOwned.link_zero L O hp.data hp.free hp.parents⟩

/-- `get_data_block_for_inode` with `alloc` set: the record and the disk it
leaves, and the block it returns is what the logical index then maps to. -/
theorem getDataBlock_grew (u : Block) (O : VolOwned sb hi d (Function.update T ino r)) (l : Nat) :
    ∃ r' d', getDataBlockForInode (arrayDev u) sb r l true d = ((d'.lookup r' l, r'), d')
      ∧ Grew sb hi T ino (OnTheWay l) r d r' d'
      ∧ ∀ pos, posOf l = some pos → d'.ptr r' pos = 0 → TakesFree sb d d' :=
  (growth_owned L B).getDataBlock L u O fun _ _ => trivial

end

end IpoOs
