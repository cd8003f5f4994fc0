import IpoOs.FsGrow

/-!
# What an operation on one inode does to the others

`Changed` is the effect of any mixture of allocating walks and writes to
the data blocks of one inode whose record is held in memory. `Touched` is
the effect on the volume once the record is back in its slot: the other
inodes keep their records, their block maps and the contents of every
block they map, blocks are only taken, and the pointers are owned as
before. The operations of the file system are sequences of `Touched`
steps on single inodes, of `allocate_inode` and of `free_inode`.

The point of the two relations is that an operation need not say which walks
and writes it is made of. `Changed` composes, a write to a data block is a
`Changed` step, and putting the record back turns the composition into one
`Touched` step.
-/

namespace IpoOs

/-- The pointers of an inode and the contents of the blocks they point to agree. -/
structure SameFile (d : Disk) (r : Inode) (d' : Disk) (r' : Inode) : Prop where
  ptr : ∀ pos, d'.ptr r' pos = d.ptr r pos
  block : ∀ pos, d.ptr r pos ≠ 0 → d' (d.ptr r pos) = d (d.ptr r pos)

namespace SameFile

variable {d d' d'' : Disk} {r r' r'' : Inode}

theorem refl (d : Disk) (r : Inode) : SameFile d r d r := ⟨fun _ => rfl, fun _ _ => rfl⟩

theorem trans (h : SameFile d r d' r') (h' : SameFile d' r' d'' r'') :
    SameFile d r d'' r'' where
  ptr pos := (h'.ptr pos).trans (h.ptr pos)
  block pos h0 := by
    have hb := h'.block pos
    rw [h.ptr pos] at hb
    exact (hb h0).trans (h.block pos h0)

theorem lookup (h : SameFile d r d' r') (l : Nat) : d'.lookup r' l = d.lookup r l := by
  simp only [Disk.lookup, h.ptr]

end SameFile

/-- The blocks pointed to before stay at their position. -/
def KeepsMap (d : Disk) (r : Inode) (d' : Disk) (r' : Inode) : Prop :=
  ∀ pos, d.ptr r pos ≠ 0 → d'.ptr r' pos = d.ptr r pos

theorem KeepsMap.lookup {d d' : Disk} {r r' : Inode} (h : KeepsMap d r d' r') {l p : Nat}
    (hl : d.lookup r l = some p) : d'.lookup r' l = some p := by
  obtain ⟨pos, hpos, hp, hp0, hlt⟩ := Disk.lookup_eq_some.mp hl
  exact Disk.lookup_eq_some.mpr ⟨pos, hpos, by rw [h pos (by rw [hp]; exact hp0), hp], hp0, hlt⟩

/-- A record whose pointer fields are those of another, or null: what is not
below a null field is the same on every disk. -/
theorem Disk.ptr_of_roots {r r' : Inode}
    (h : ∀ pos, r.root pos = 0 ∨ r'.root pos = r.root pos) (pos : Pos) :
    (∀ d : Disk, d.ptr r pos = 0) ∨ ∀ d : Disk, d.ptr r pos = d.ptr r' pos := by
  have hd := h .double
  have hi := h .indirect
  have hdir := h pos
  simp only [Inode.root] at hd hi
  have hnull : ∀ (d : Disk) j, d.entry 0 j = 0 := fun d j => by rw [Disk.entry, if_pos rfl]
  cases pos with
  | direct i => exact hdir.imp (fun h0 _ => h0) (fun he _ => he.symm)
  | indirect => exact hi.imp (fun h0 _ => h0) (fun he _ => he.symm)
  | double => exact hd.imp (fun h0 _ => h0) (fun he _ => he.symm)
  | single j =>
      exact hi.imp (fun h0 d => by rw [Disk.ptr, h0, hnull])
        (fun he d => by rw [Disk.ptr, Disk.ptr, he])
  | table j =>
      exact hd.imp (fun h0 d => by rw [Disk.ptr, h0, hnull])
        (fun he d => by rw [Disk.ptr, Disk.ptr, he])
  | leaf j k =>
      exact hd.imp (fun h0 d => by rw [Disk.ptr, h0, hnull, hnull])
        (fun he d => by rw [Disk.ptr, Disk.ptr, he])

/-- Records with the same pointer fields have the same pointers. -/
theorem Disk.ptr_of_root_eq {d : Disk} {r r' : Inode} (h : r'.root = r.root) (pos : Pos) :
    d.ptr r' pos = d.ptr r pos := by
  have hd := congrFun h .double
  have hi := congrFun h .indirect
  have hdir := congrFun h pos
  simp only [Inode.root] at hd hi
  cases pos with
  | direct i => exact hdir
  | indirect => exact hi
  | double => exact hd
  | single j => simp only [Disk.ptr, hi]
  | table j => simp only [Disk.ptr, hd]
  | leaf j k => simp only [Disk.ptr, hd]

/-! ## The record in memory

Between the first read of a record and its write the table holds the old one
on disk, and the pointers in use are those of the record in memory. -/

/-- Allocating walks and writes to data blocks of inode `ino`. -/
structure Changed (sb : Superblock) (hi : Nat) (T : Nat → Inode) (ino : Nat)
    (r : Inode) (d : Disk) (r' : Inode) (d' : Disk) : Prop where
  sameMeta : SameMeta sb d d'
  used : ∀ p, sb.DataBlock p → d.blockUsed sb p = true → d'.blockUsed sb p = true
  ptr : ∀ pos, d'.ptr r' pos = d.ptr r pos ∨ d.ptr r pos = 0
  others : ∀ i, i ≠ ino → ∀ pos, d'.ptr (T i) pos = d.ptr (T i) pos
  data : ∀ q, sb.dataBlocksStart.toNat ≤ q → d' q = d q
    ∨ (sb.DataBlock q ∧ d.blockUsed sb q = false) ∨ ∃ t, d.ptr r t = q
  fields : r'.mode = r.mode ∧ r'.size = r.size ∧ r'.linksCount = r.linksCount
    ∧ r'.pad = r.pad
  fresh : ∀ pos, d.ptr r pos = 0 → d'.ptr r' pos ≠ 0 →
    sb.DataBlock (d'.ptr r' pos) ∧ d.blockUsed sb (d'.ptr r' pos) = false
  owned : VolOwned sb hi d' (Function.update T ino r')

section

variable {sb : Superblock} {hi : Nat} {T : Nat → Inode} {ino : Nat} {A : Pos → Prop}
  {r r' r'' : Inode} {d d' d'' : Disk}

theorem Grew.changed (h : Grew sb hi T ino A r d r' d') : Changed sb hi T ino r d r' d' where
  sameMeta := h.sameMeta
  used := h.used
  ptr := fun pos => (h.ptr pos).imp id fun hc => hc.2.1
  others := h.others
  data := fun q hq => (h.data q hq).imp id (Or.imp id fun ⟨t, _, ht⟩ => ⟨t, ht⟩)
  fields := h.fields
  fresh := fun pos h0 hne => by
    rcases h.ptr pos with he | ⟨-, -, -, hdb, hf⟩
    · exact absurd (he.trans h0) hne
    · exact ⟨hdb, hf⟩
  owned := h.owned

theorem Changed.refl (O : VolOwned sb hi d (Function.update T ino r)) :
    Changed sb hi T ino r d r d :=
  (Grew.refl (A := fun _ => False) O).changed

theorem Changed.trans (h : Changed sb hi T ino r d r' d')
    (h' : Changed sb hi T ino r' d' r'' d'') : Changed sb hi T ino r d r'' d'' := by
  have hback : ∀ p, sb.DataBlock p → d'.blockUsed sb p = false → d.blockUsed sb p = false :=
    fun p hp hf => by
      cases hd : d.blockUsed sb p with
      | false => rfl
      | true => rw [h.used p hp hd] at hf; cases hf
  exact {
    sameMeta := h.sameMeta.trans h'.sameMeta
    used := fun p hp hu => h'.used p hp (h.used p hp hu)
    ptr := fun pos => by
      rcases h.ptr pos with he | h0
      · rcases h'.ptr pos with he' | h0'
        · exact Or.inl (he'.trans he)
        · exact Or.inr (he ▸ h0')
      · exact Or.inr h0
    others := fun i hi pos => (h'.others i hi pos).trans (h.others i hi pos)
    data := fun q hq => by
      rcases h'.data q hq with he | ⟨hdb, hf⟩ | ⟨t, ht⟩
      · rw [he]
        exact h.data q hq
      · exact Or.inr (Or.inl ⟨hdb, hback q hdb hf⟩)
      · rcases h.ptr t with he | h0
        · exact Or.inr (Or.inr ⟨t, he ▸ ht⟩)
        · by_cases hz : d'.ptr r' t = 0
          · exact Or.inr (Or.inr ⟨t, by rw [h0, ← hz, ht]⟩)
          · obtain ⟨hdb, hf⟩ := h.fresh t h0 hz
            rw [ht] at hdb hf
            exact Or.inr (Or.inl ⟨hdb, hf⟩)
    fields := by
      obtain ⟨h1, h2, h3, h4⟩ := h.fields
      obtain ⟨h1', h2', h3', h4'⟩ := h'.fields
      exact ⟨h1'.trans h1, h2'.trans h2, h3'.trans h3, h4'.trans h4⟩
    fresh := fun pos h0 hne => by
      by_cases hz : d'.ptr r' pos = 0
      · obtain ⟨hdb, hf⟩ := h'.fresh pos hz hne
        exact ⟨hdb, hback _ hdb hf⟩
      · have he : d''.ptr r'' pos = d'.ptr r' pos := (h'.ptr pos).resolve_right hz
        rw [he]
        exact h.fresh pos h0 hz
    owned := h'.owned }

theorem Changed.set (L : SoundLayout sb) (B : BlockBound sb hi)
    (O : VolOwned sb hi d (Function.update T ino r)) {pos : Pos} (h0 : d.ptr r pos ≠ 0)
    (hpos : pos.isTable = false) (b : Block) :
    Changed sb hi T ino r d r (d.set (d.ptr r pos) b) := by
  have hvol : volPtr (Function.update T ino r) d (ino, pos) ≠ 0 := by rw [volPtr_self]; exact h0
  have hdb := O.dataBlock B hvol
  have hv := O.volPtr_set hvol hpos b
  have hown := O.set L B hvol hpos b
  rw [volPtr_self] at hdb hv hown
  have hptr : ∀ s, (d.set (d.ptr r pos) b).ptr r s = d.ptr r s := fun s => by
    rw [← @volPtr_self T ino, hv, volPtr_self]
  exact {
    sameMeta := sameMeta_set hdb b
    used := fun q hq hu => by rw [L.blockUsed_set hdb hq, hu]
    ptr := fun s => Or.inl (hptr s)
    others := fun i hi s => by
      rw [← volPtr_other (T := T) (r := r) hi, hv, volPtr_other hi]
    data := fun q _ => by
      by_cases hq : q = d.ptr r pos
      · exact Or.inr (Or.inr ⟨pos, hq.symm⟩)
      · exact Or.inl (Disk.set_of_ne hq)
    fields := ⟨rfl, rfl, rfl, rfl⟩
    fresh := fun s h0 hne => absurd (hptr s ▸ h0) hne
    owned := hown }

theorem Changed.same_others (O : VolOwned sb hi d (Function.update T ino r))
    (h : Changed sb hi T ino r d r' d') {i : Nat} (hi : i ≠ ino) :
    SameFile d (T i) d' (T i) where
  ptr := h.others i hi
  block := fun pos h0 => by
    have hvol : volPtr (Function.update T ino r) d (i, pos) ≠ 0 := by
      rw [volPtr_other hi]
      exact h0
    have hlow := O.lower _ hvol
    have hused := O.used _ hvol
    rw [volPtr_other hi] at hlow hused
    rcases h.data _ hlow with he | ⟨-, hf⟩ | ⟨t, ht⟩
    · exact he
    · rw [hused] at hf; cases hf
    · have hinj := O.inj (i, pos) (ino, t) hvol (by rw [volPtr_other hi, volPtr_self, ht])
      exact absurd (Prod.mk.inj hinj).1 hi

theorem Changed.keepsMap (h : Changed sb hi T ino r d r' d') : KeepsMap d r d' r' :=
  fun pos h0 => (h.ptr pos).resolve_right h0

end

/-! ## The record in its slot

After the write, the pointers of the volume are those of its table again. -/

/-- The pointers of the inodes on the disk are owned. -/
abbrev OwnedVol (sb : Superblock) (hi : Nat) (d : Disk) : Prop :=
  VolOwned sb hi d (d.inodeAt sb)

/-- What an operation on inode `ino` does to the volume. -/
structure Touched (sb : Superblock) (hi : Nat) (ino : Nat) (d d' : Disk) : Prop where
  blockZero : d' 0 = d 0
  inodeUsed : ∀ i, sb.ValidIno i → d'.inodeUsed sb i = d.inodeUsed sb i
  used : ∀ p, sb.DataBlock p → d.blockUsed sb p = true → d'.blockUsed sb p = true
  inodeAt : ∀ i, i ≠ ino → d'.inodeAt sb i = d.inodeAt sb i
  mode : (d'.inodeAt sb ino).mode = (d.inodeAt sb ino).mode
  same : ∀ i, i ≠ ino → SameFile d (d.inodeAt sb i) d' (d.inodeAt sb i)
  keepsMap : KeepsMap d (d.inodeAt sb ino) d' (d'.inodeAt sb ino)
  owned : OwnedVol sb hi d'

section

variable {sb : Superblock} {hi : Nat} {ino : Nat} {A : Pos → Prop}
  {r r' r'' : Inode} {d d' d'' : Disk}

theorem Touched.refl (O : OwnedVol sb hi d) : Touched sb hi ino d d where
  blockZero := rfl
  inodeUsed := fun _ _ => rfl
  used := fun _ _ h => h
  inodeAt := fun _ _ => rfl
  mode := rfl
  same := fun _ _ => SameFile.refl _ _
  keepsMap := fun _ _ => rfl
  owned := O

theorem Touched.trans (h : Touched sb hi ino d d') (h' : Touched sb hi ino d' d'') :
    Touched sb hi ino d d'' where
  blockZero := h'.blockZero.trans h.blockZero
  inodeUsed := fun i hi => (h'.inodeUsed i hi).trans (h.inodeUsed i hi)
  used := fun p hp hu => h'.used p hp (h.used p hp hu)
  inodeAt := fun i hi => (h'.inodeAt i hi).trans (h.inodeAt i hi)
  mode := h'.mode.trans h.mode
  same := fun i hi => by
    have hs := h'.same i hi
    rw [h.inodeAt i hi] at hs
    exact (h.same i hi).trans hs
  keepsMap := fun pos h0 => by
    have he := h.keepsMap pos h0
    rw [h'.keepsMap pos (by rw [he]; exact h0), he]
  owned := h'.owned

variable (L : SoundLayout sb)

include L

theorem SoundLayout.inodeAt_putInode_eq (hino : sb.ValidIno ino) (r : Inode) :
    (d.putInode sb ino r).inodeAt sb = Function.update (d.inodeAt sb) ino r := by
  funext j
  rw [L.inodeAt_putInode hino r j]
  by_cases hj : j = ino
  · rw [if_pos hj, hj, Function.update_self]
  · rw [if_neg hj, Function.update_of_ne hj]

theorem SoundLayout.putInode_data (hino : sb.ValidIno ino) (r : Inode) {q : Nat}
    (hq : sb.dataBlocksStart.toNat ≤ q) : d.putInode sb ino r q = d q :=
  L.putInode_of_ne hino r (Or.inr hq)

theorem VolOwned.putInode {T : Nat → Inode} (B : BlockBound sb hi) (O : VolOwned sb hi d T)
    (hino : sb.ValidIno ino) (r : Inode) : VolOwned sb hi (d.putInode sb ino r) T :=
  O.of_data B (fun _ hq => L.putInode_data hino r hq)
    (fun _ hp => L.blockUsed_putInode hino hp r)

theorem Changed.touched (B : BlockBound sb hi) (O : OwnedVol sb hi d)
    (hino : sb.ValidIno ino)
    (h : Changed sb hi (d.inodeAt sb) ino (d.inodeAt sb ino) d r' d')
    (hroot : r''.root = r'.root) (hmode : r''.mode = r'.mode) :
    Touched sb hi ino d (d'.putInode sb ino r'') := by
  have hself : Function.update (d.inodeAt sb) ino (d.inodeAt sb ino) = d.inodeAt sb :=
    Function.update_eq_self _ _
  have O' : VolOwned sb hi d (Function.update (d.inodeAt sb) ino (d.inodeAt sb ino)) := by
    rw [hself]
    exact O
  have htable : (d'.putInode sb ino r'').inodeAt sb
      = Function.update (d.inodeAt sb) ino r'' := by
    rw [L.inodeAt_putInode_eq hino]
    congr 1
    funext j
    exact h.sameMeta.inodeAt L j
  have hptr : ∀ T s, volPtr (Function.update T ino r'') d' s
      = volPtr (Function.update T ino r') d' s := by
    rintro T ⟨i, s⟩
    by_cases hi : i = ino
    · subst hi
      rw [volPtr_self, volPtr_self, Disk.ptr_of_root_eq hroot]
    · rw [volPtr_other hi, volPtr_other hi]
  -- the pointers do not see the slot
  have howned : VolOwned sb hi d' (Function.update (d.inodeAt sb) ino r'') := by
    have := h.owned
    unfold VolOwned at this ⊢
    rwa [funext (hptr (d.inodeAt sb))]
  have hvol := howned.volPtr_of_data fun q hq => L.putInode_data hino r'' hq
  exact {
    blockZero := by
      have h1 := L.first
      have h2 := L.inodeBitmap
      have h3 := L.blockBitmap
      rw [L.putInode_of_ne hino r'' (Or.inl (by omega)), h.sameMeta.block_zero L]
    inodeUsed := fun i hi => by
      rw [L.inodeUsed_putInode hino hi, h.sameMeta.inodeUsed L hi]
    used := fun p hp hu => by
      rw [L.blockUsed_putInode hino hp, h.used p hp hu]
    inodeAt := fun i hi => by rw [htable, Function.update_of_ne hi]
    mode := by rw [htable, Function.update_self, hmode, h.fields.1]
    same := fun i hi => by
      have hs := h.same_others O' hi
      refine ⟨fun pos => ?_, fun pos h0 => ?_⟩
      · rw [← hs.ptr pos]
        have := congrFun hvol (i, pos)
        rwa [volPtr_other hi, volPtr_other hi] at this
      · have hlow : sb.dataBlocksStart.toNat ≤ d.ptr (d.inodeAt sb i) pos :=
          O.lower (i, pos) h0
        rw [L.putInode_data hino r'' hlow, hs.block pos h0]
    keepsMap := fun pos h0 => by
      rw [htable, Function.update_self, ← h.keepsMap pos h0]
      have := congrFun hvol (ino, pos)
      rw [volPtr_self, volPtr_self] at this
      rw [this, Disk.ptr_of_root_eq hroot]
    owned := by
      unfold OwnedVol
      rw [htable]
      exact howned.putInode L B hino r'' }

theorem Changed.touched_same (O : OwnedVol sb hi d)
    (h : Changed sb hi (d.inodeAt sb) ino (d.inodeAt sb ino) d (d.inodeAt sb ino) d') :
    Touched sb hi ino d d' := by
  have O' : VolOwned sb hi d (Function.update (d.inodeAt sb) ino (d.inodeAt sb ino)) := by
    rw [Function.update_eq_self]
    exact O
  have htable : d'.inodeAt sb = d.inodeAt sb := funext fun j => h.sameMeta.inodeAt L j
  exact {
    blockZero := h.sameMeta.block_zero L
    inodeUsed := fun i hi => h.sameMeta.inodeUsed L hi
    used := h.used
    inodeAt := fun i _ => by rw [htable]
    mode := by rw [htable]
    same := fun i hi => h.same_others O' hi
    keepsMap := fun pos h0 => by
      rw [htable]
      exact h.keepsMap pos h0
    owned := by
      have hown := h.owned
      rw [Function.update_eq_self] at hown
      unfold OwnedVol
      rw [htable]
      exact hown }

theorem Grew.touched (O : OwnedVol sb hi d)
    (h : Grew sb hi (d.inodeAt sb) ino A (d.inodeAt sb ino) d r' d') :
    Touched sb hi ino d d' := by
  have hself : Function.update (d.inodeAt sb) ino (d.inodeAt sb ino) = d.inodeAt sb :=
    Function.update_eq_self _ _
  have O' : VolOwned sb hi d (Function.update (d.inodeAt sb) ino (d.inodeAt sb ino)) := by
    rw [hself]
    exact O
  have htable : d'.inodeAt sb = d.inodeAt sb := funext fun j => h.sameMeta.inodeAt L j
  exact {
    blockZero := h.sameMeta.block_zero L
    inodeUsed := fun i hi => h.sameMeta.inodeUsed L hi
    used := h.used
    inodeAt := fun i _ => by rw [htable]
    mode := by rw [htable]
    same := fun i hi => h.changed.same_others O' hi
    keepsMap := fun pos h0 => by
      rw [htable, ← h.changed.keepsMap pos h0]
      exact (Disk.ptr_of_roots h.roots pos).resolve_left (fun hc => h0 (hc d)) d'
    owned := by
      unfold OwnedVol
      rw [htable]
      refine Owned.of_sub h.owned fun s => ?_
      obtain ⟨i, s⟩ := s
      by_cases hi : i = ino
      · subst hi
        rw [volPtr_self]
        exact (Disk.ptr_of_roots h.roots s).imp (fun h0 => h0 d') (fun he => he d')
      · rw [volPtr_other hi]
        exact Or.inr rfl }

end

end IpoOs
