import IpoOs.FsSpare
import IpoOs.FsChange

/-!
# Pointers in sight

The ownership discipline of `VolOwned` speaks about all pointers of all
inodes. What one write takes from a volume depends on less: on the
pointers it can meet, which are those on the way to the blocks of its
range. `Disk.Apart` says what has to be true of them, and of nothing
else, so that the write changes no bit of the bitmap but those of the
blocks it allocates and overwrites no pointer of its own file.

Data blocks are free to be anywhere but in the bitmap and in the tables.
They may be shared, lie outside the data region or be marked free, the
last as long as no table is missing that could be put there. The clauses
about free blocks ask nothing when no pointer in sight is null, since
then nothing is allocated.

The discipline is kept by the walk (`growth_apart`) and by a data block
rewritten between two walks (`Linked.set`), so it holds along the whole
block loop of a write; `writeBlocks_linked` is that run.
-/

namespace IpoOs

/-- The positions on the way to the blocks `[first, first + n)`. -/
def InSight (first n : Nat) (pos : Pos) : Prop :=
  ∃ b, first ≤ b ∧ b < first + n ∧ OnTheWay b pos

/-- The pointers in `V` lie apart: none leads into the block bitmap, tables are not shared,
lie outside the block of the inode's own slot, and free blocks are pointed to only where
nothing can be allocated over them. -/
structure Disk.Apart (d : Disk) (sb : Superblock) (ino : Nat) (V : Pos → Prop) (r : Inode) :
    Prop where
  bitmap : ∀ s, V s → d.ptr r s ≠ 0 → ¬ sb.BitmapBlock (d.ptr r s)
  slot : sb.ValidIno ino → ∀ t, V t → t.isTable = true → d.ptr r t ≠ 0 →
    d.ptr r t ≠ inodeBlock sb ino
  alone : ∀ t s, V t → V s → t.isTable = true → d.ptr r t ≠ 0 → d.ptr r s = d.ptr r t → s = t
  used : ∀ z t, V z → V t → d.ptr r z = 0 → t.isTable = true → sb.DataBlock (d.ptr r t) →
    d.blockUsed sb (d.ptr r t) = true
  fresh : ∀ z s, V z → V s → d.ptr r z = 0 → z.isTable = true → sb.DataBlock (d.ptr r s) →
    d.blockUsed sb (d.ptr r s) = true

/-- What steps that allocate for positions in `A` do to the pointers in `V`. -/
structure Linked (sb : Superblock) (ino : Nat) (V A : Pos → Prop) (r : Inode) (d : Disk)
    (r' : Inode) (d' : Disk) : Prop where
  used : KeepsUsed sb d d'
  taken : TakesFor sb (fun s => A s ∧ V s) r d r' d'
  /-- A pointer stays, or a null one gets a block that was free. -/
  ptr : ∀ s, V s → d'.ptr r' s = d.ptr r s
    ∨ (d.ptr r s = 0 ∧ sb.DataBlock (d'.ptr r' s) ∧ d.blockUsed sb (d'.ptr r' s) = false
      ∧ d'.blockUsed sb (d'.ptr r' s) = true)
  apart : d'.Apart sb ino V r'

/-! ## Pointers read again

A pointer that is not in sight of a write may change; one that is in sight
is read from a block that the write does not touch. -/

theorem Pos.induct {P : Pos → Prop} (hroot : ∀ s, s.parent = none → P s)
    (hchild : ∀ s t, s.parent = some t → P t → P s) (s : Pos) : P s := by
  cases s with
  | direct i => exact hroot _ rfl
  | indirect => exact hroot _ rfl
  | single j => exact hchild _ _ rfl (hroot _ rfl)
  | double => exact hroot _ rfl
  | table j => exact hchild _ _ rfl (hroot _ rfl)
  | leaf j k => exact hchild _ _ rfl (hchild _ _ rfl (hroot _ rfl))

theorem Pos.sibling {s s' t : Pos} (h : s.parent = some t) (h' : s'.parent = some t)
    (hidx : s.index = s'.index) : s = s' := by
  have heq := Pos.shape.sibling (0, s) (0, s') (0, t) (by simp [Pos.shape, h])
    (by simp [Pos.shape, h']) hidx
  exact (Prod.mk.inj heq).2

theorem Pos.ne_of_parent {s t : Pos} (h : s.parent = some t) : s ≠ t := by
  rintro rfl
  cases s <;> cases h

section

variable {V : Pos → Prop} {r r' : Inode} {d d' : Disk}

/-- Pointers depend on the fields of the record and on the tables. -/
theorem Disk.ptr_steady (hV : ∀ {s t : Pos}, V s → s.parent = some t → V t)
    (hroot : ∀ s, r'.root s = r.root s)
    (h : ∀ t, V t → t.isTable = true → d.ptr r t ≠ 0 → d' (d.ptr r t) = d (d.ptr r t)) (s : Pos) :
    V s → d'.ptr r' s = d.ptr r s := by
  refine Pos.induct (P := fun s => V s → d'.ptr r' s = d.ptr r s) (fun s hs _ => ?_)
    (fun s t hst ih hs => ?_) s
  · rw [Disk.ptr_root hs, Disk.ptr_root hs, hroot s]
  · have hVt := hV hs hst
    rw [Disk.ptr_child hst, Disk.ptr_child hst, ih hVt, Disk.entry, Disk.entry]
    by_cases ht : d.ptr r t = 0
    · rw [if_pos ht, if_pos ht]
    · rw [if_neg ht, if_neg ht, h t hVt (Pos.isTable_of_parent hst) ht]

end

/-! ## A block taken

Taking a block changes a bit, and no pointer in sight stands in the bitmap. -/

section

variable {sb : Superblock} {ino : Nat} {V A : Pos → Prop} {r r' : Inode} {d d' : Disk} {p : Nat}
  (L : SoundLayout sb) (hV : ∀ {s t : Pos}, V s → s.parent = some t → V t)

theorem KeepsUsed.takeBlock (L : SoundLayout sb) (hp : sb.DataBlock p) :
    KeepsUsed sb d (d.takeBlock sb p) := by
  intro q hq hu
  rw [L.blockUsed_takeBlock hp hq]
  split
  · rfl
  · exact hu

include L

/-- A table in sight is not the free block that is taken, and no block of the bitmap. -/
theorem Disk.Apart.takeBlock_table (h : d.Apart sb ino V r) (hp : sb.DataBlock p)
    (hfree : d.blockUsed sb p = false) {pos t : Pos} (hpos : V pos) (hnull : d.ptr r pos = 0)
    (ht : V t) (htable : t.isTable = true) (ht0 : d.ptr r t ≠ 0) :
    d.ptr r t ≠ p ∧ d.takeBlock sb p (d.ptr r t) = d (d.ptr r t) := by
  have hne : d.ptr r t ≠ p := by
    intro hc
    have hu := h.used pos t hpos ht hnull htable (hc ▸ hp)
    rw [hc, hfree] at hu
    cases hu
  exact ⟨hne, by rw [L.bitmapBelow.takeBlock_of_not hp (h.bitmap t ht ht0), if_neg hne]⟩

include hV

theorem Disk.Apart.takeBlock_ptr (h : d.Apart sb ino V r) (hp : sb.DataBlock p)
    (hfree : d.blockUsed sb p = false) {pos : Pos} (hpos : V pos) (hnull : d.ptr r pos = 0)
    (s : Pos) (hs : V s) : (d.takeBlock sb p).ptr r s = d.ptr r s :=
  Disk.ptr_steady hV (fun _ => rfl) (fun _ ht htable ht0 =>
    (h.takeBlock_table L hp hfree hpos hnull ht htable ht0).2) s hs

omit L hV in
/-- The pointers lie apart as long as they stay and blocks are only taken. -/
theorem Disk.Apart.of_same (h : d.Apart sb ino V r) (hptr : ∀ s, V s → d'.ptr r' s = d.ptr r s)
    (hused : KeepsUsed sb d d') : d'.Apart sb ino V r' where
  bitmap := fun s hs h0 => by
    rw [hptr s hs] at h0 ⊢
    exact h.bitmap s hs h0
  slot := fun hv t ht htable h0 => by
    rw [hptr t ht] at h0 ⊢
    exact h.slot hv t ht htable h0
  alone := fun t s ht hs htable h0 he => by
    rw [hptr t ht] at h0
    rw [hptr t ht, hptr s hs] at he
    exact h.alone t s ht hs htable h0 he
  used := fun z t hz ht h0 htable hdb => by
    rw [hptr z hz] at h0
    rw [hptr t ht] at hdb ⊢
    exact hused _ hdb (h.used z t hz ht h0 htable hdb)
  fresh := fun z s hz hs h0 htable hdb => by
    rw [hptr z hz] at h0
    rw [hptr s hs] at hdb ⊢
    exact hused _ hdb (h.fresh z s hz hs h0 htable hdb)

theorem Linked.leak (h : d.Apart sb ino V r) (hp : sb.DataBlock p) (hbig : 2147483648 ≤ p)
    (hfree : d.blockUsed sb p = false) {pos : Pos} (hA : A pos) (hpos : V pos)
    (hnull : d.ptr r pos = 0) : Linked sb ino V A r d r (d.takeBlock sb p) where
  used := KeepsUsed.takeBlock L hp
  taken := by
    intro q _ hq hu
    rw [L.blockUsed_takeBlock hp hq] at hu
    split at hu
    · rename_i hqp
      exact Or.inr ⟨pos, ⟨hA, hpos⟩, hnull, Or.inr (hqp ▸ hbig)⟩
    · exact Or.inl hu
  ptr := fun s hs => Or.inl (h.takeBlock_ptr L hV hp hfree hpos hnull s hs)
  apart := h.of_same (h.takeBlock_ptr L hV hp hfree hpos hnull) (KeepsUsed.takeBlock L hp)

omit hV L in
theorem Linked.refl (h : d.Apart sb ino V r) : Linked sb ino V A r d r d where
  used := fun _ _ hu => hu
  taken := fun _ _ _ hu => Or.inl hu
  ptr := fun _ _ => Or.inl rfl
  apart := h

omit hV L in
theorem Linked.weaken {A' : Pos → Prop} (h : Linked sb ino V A r d r' d')
    (hA : ∀ s, A s → A' s) : Linked sb ino V A' r d r' d' :=
  { h with taken := h.taken.weaken fun s hs => ⟨hA s hs.1, hs.2⟩ }

omit hV L in
theorem Linked.kept (h : Linked sb ino V A r d r' d') {s : Pos} (hs : V s) (h0 : d.ptr r s ≠ 0) :
    d'.ptr r' s = d.ptr r s :=
  (h.ptr s hs).resolve_right fun hc => h0 hc.1

omit hV L in
theorem Linked.trans {r'' : Inode} {d'' : Disk} (h : Linked sb ino V A r d r' d')
    (h' : Linked sb ino V A r' d' r'' d'') : Linked sb ino V A r d r'' d'' where
  used := fun p hp hu => h'.used p hp (h.used p hp hu)
  taken := h.taken.trans h'.taken (fun s hs h0 => h.kept hs.2 h0) fun s hs h0 => h'.kept hs.2 h0
  ptr := fun s hs => by
    rcases h'.ptr s hs with he | ⟨h0, hdb, hf, hu⟩
    · rw [he]
      exact (h.ptr s hs).imp id fun ⟨h1, h2, h3, h4⟩ => ⟨h1, h2, h3, h'.used _ h2 h4⟩
    · have hnull : d.ptr r s = 0 := by
        by_contra hc
        exact hc (by rw [← h.kept hs hc, h0])
      exact Or.inr ⟨hnull, hdb, h.used.free hdb hf, hu⟩
  apart := h'.apart

end

/-! ## A fresh block linked

The two conditions of `Growth` for this discipline. -/

section

variable {sb : Superblock} {ino : Nat} {V A : Pos → Prop} {r : Inode} {d : Disk} {pos : Pos}
    {p : Nat}
  (L : SoundLayout sb) (hV : ∀ {s t : Pos}, V s → s.parent = some t → V t)
  (h : d.Apart sb ino V r) (hp : Linkable sb r d pos p) (hpos : V pos)

include L hV h hp hpos

theorem Disk.Apart.setPtr_takeBlock :
    (pos.parent = none ∧ (d.takeBlock sb p).setPtr r pos p = d.takeBlock sb p)
    ∨ ∃ t, pos.parent = some t ∧ V t ∧ (d.takeBlock sb p).setPtr r pos p
      = (d.takeBlock sb p).set (d.ptr r t)
        ((d (d.ptr r t)).putWord (4 * pos.index) (UInt32.ofNat p)) := by
  cases hpar : pos.parent with
  | none => exact Or.inl ⟨rfl, by simp only [Disk.setPtr, hpar]⟩
  | some t =>
      have hVt := hV hpos hpar
      have hptr := h.takeBlock_ptr L hV hp.data hp.free hpos hp.null t hVt
      have hblock := (h.takeBlock_table L hp.data hp.free hpos hp.null hVt
        (Pos.isTable_of_parent hpar) (hp.parents t hpar)).2
      exact Or.inr ⟨t, rfl, hVt, by simp only [Disk.setPtr, hpar, hptr, hblock]⟩

theorem Disk.Apart.link_zero : (d.takeBlock sb p).setPtr r pos p p = Buf.zero := by
  have hzero : d.takeBlock sb p p
    = Buf.zero := by rw [L.takeBlock_data hp.data hp.data.1, if_pos rfl]
  rcases h.setPtr_takeBlock L hV hp hpos with ⟨-, hset⟩ | ⟨t, hpar, hVt, hset⟩
  · rw [hset, hzero]
  · have hne := (h.takeBlock_table L hp.data hp.free hpos hp.null hVt
      (Pos.isTable_of_parent hpar) (hp.parents t hpar)).1
    rw [hset, Disk.set_of_ne hne.symm, hzero]

theorem Disk.Apart.link_used {q : Nat} (hq : sb.DataBlock q) :
    ((d.takeBlock sb p).setPtr r pos p).blockUsed sb q
      = if q = p then true else d.blockUsed sb q := by
  rcases h.setPtr_takeBlock L hV hp hpos with ⟨-, hset⟩ | ⟨t, hpar, hVt, hset⟩
  · rw [hset, L.blockUsed_takeBlock hp.data hq]
  · rw [hset, L.bitmapBelow.blockUsed_set (h.bitmap t hVt (hp.parents t hpar)) hq,
      L.blockUsed_takeBlock hp.data hq]

/-- A table in sight keeps its entries but for the one that is linked. -/
theorem Disk.Apart.link_entry {s t : Pos} (hst : s.parent = some t) (hVt : V t)
    (ht : d.ptr r t ≠ 0) :
    (((d.takeBlock sb p).setPtr r pos p (d.ptr r t)).word (4 * s.index)).toNat
      = if s = pos then p else ((d (d.ptr r t)).word (4 * s.index)).toNat := by
  have htable := Pos.isTable_of_parent hst
  have hkeep := (h.takeBlock_table L hp.data hp.free hpos hp.null hVt htable ht).2
  rcases h.setPtr_takeBlock L hV hp hpos with ⟨hpar, hset⟩ | ⟨v, hpar, hVv, hset⟩
  · have hspos : s ≠ pos := by
      rintro rfl
      rw [hpar] at hst
      cases hst
    rw [hset, hkeep, if_neg hspos]
  · rw [hset]
    by_cases hq : d.ptr r t = d.ptr r v
    · -- the table that receives the entry
      obtain rfl : t = v := h.alone v t hVv hVt (Pos.isTable_of_parent hpar) (hp.parents v hpar) hq
      rw [Disk.set_self]
      by_cases hidx : s.index = pos.index
      · have hint := hp.int
        rw [Pos.sibling hst hpar hidx, if_pos rfl, Buf.word_putWord_self, UInt32.toNat_ofNat',
          Nat.mod_eq_of_lt (by omega)]
      · have hdis : 4 * s.index + 4 ≤ 4 * pos.index ∨ 4 * pos.index + 4 ≤ 4 * s.index := by omega
        rw [if_neg fun hc => hidx (by rw [hc]), Buf.word_putWord_of_disjoint hdis]
    · have hspos : s ≠ pos := by
        rintro rfl
        rw [hpar] at hst
        exact hq (by rw [Option.some.inj hst])
      rw [Disk.set_of_ne hq, hkeep, if_neg hspos]

theorem Disk.Apart.link_ptr (s : Pos) : V s →
    ((d.takeBlock sb p).setPtr r pos p).ptr (r.setPtr pos p) s
      = if s = pos then p else d.ptr r s := by
  have hint := hp.int
  refine Pos.induct (P := fun s => V s → ((d.takeBlock sb p).setPtr r pos p).ptr (r.setPtr pos p) s
    = if s = pos then p else d.ptr r s) (fun s hs _ => ?_) (fun s t hst ih hs => ?_) s
  · rw [Disk.ptr_root hs, Disk.ptr_root hs]
    cases hpar : pos.parent with
    | none => rw [root_setPtr (by omega) hpar hs]
    | some t =>
        have hspos : s ≠ pos := by
          rintro rfl
          rw [hpar] at hs
          cases hs
        rw [setPtr_of_parent hpar, if_neg hspos]
  · have hVt := hV hs hst
    rw [Disk.ptr_child hst, ih hVt, Disk.entry]
    by_cases htp : t = pos
    · -- below the fresh block every entry is null, before and after
      have hspos : s ≠ pos := htp ▸ Pos.ne_of_parent hst
      have hbelow : d.ptr r s
        = 0 := by rw [Disk.ptr_child hst, htp, hp.null, Disk.entry, if_pos rfl]
      rw [if_pos htp, if_neg (L.dataBlock_ne_zero hp.data), h.link_zero L hV hp hpos, if_neg hspos,
        hbelow]
      rfl
    · rw [if_neg htp]
      by_cases ht : d.ptr r t = 0
      · have hspos : s ≠ pos := by
          rintro rfl
          exact hp.parents t hst ht
        rw [if_pos ht, if_neg hspos, Disk.ptr_child hst, Disk.entry, if_pos ht]
      · rw [if_neg ht, h.link_entry L hV hp hpos hst hVt ht, Disk.ptr_child hst, Disk.entry,
          if_neg ht]

omit L hV in
/-- The free block is pointed to by no table, and by nothing when a table is to be put there. -/
theorem Disk.Apart.ne_fresh {s t : Pos} (hs : V s) (ht : V t) (htable : t.isTable = true)
    (hst : t = pos ∨ s.isTable = true) : d.ptr r s ≠ p := by
  intro hc
  have hu : d.blockUsed sb (d.ptr r s) = true := by
    rcases hst with rfl | hst
    · exact h.fresh t s ht hs hp.null htable (hc ▸ hp.data)
    · exact h.used pos s hpos hs hp.null hst (hc ▸ hp.data)
  rw [hc, hp.free] at hu
  cases hu

theorem Disk.Apart.link : ((d.takeBlock sb p).setPtr r pos p).Apart sb ino V (r.setPtr pos p) := by
  have hptr := h.link_ptr L hV hp hpos
  have hp0 := L.dataBlock_ne_zero hp.data
  have hused : KeepsUsed sb d ((d.takeBlock sb p).setPtr r pos p) := by
    intro q hq hu
    rw [h.link_used L hV hp hpos hq]
    split
    · rfl
    · exact hu
  have hself : ((d.takeBlock sb p).setPtr r pos p).blockUsed sb p = true := by
    rw [h.link_used L hV hp hpos hp.data, if_pos rfl]
  -- a pointer that is null afterwards was null before
  have hnull : ∀ z, V z → ((d.takeBlock sb p).setPtr r pos p).ptr (r.setPtr pos p) z = 0 →
      z ≠ pos ∧ d.ptr r z = 0 := by
    intro z hz h0
    rw [hptr z hz] at h0
    split at h0
    · exact absurd h0 hp0
    · rename_i hne
      exact ⟨hne, h0⟩
  refine ⟨fun s hs h0 => ?_, fun hv t ht htable h0 => ?_, fun t s ht hs htable h0 he => ?_,
    fun z t hz ht h0 htable hdb => ?_, fun z s hz hs h0 htable hdb => ?_⟩
  · rw [hptr s hs] at h0 ⊢
    split at h0
    · rename_i he
      rw [if_pos he]
      exact L.bitmapBelow.not_bitmapBlock hp.data
    · rename_i he
      rw [if_neg he]
      exact h.bitmap s hs h0
  · rw [hptr t ht] at h0 ⊢
    split at h0
    · rename_i he
      rw [if_pos he]
      have hlow := hp.data.1
      have hslot := L.inodeBlock_lt hv
      omega
    · rename_i he
      rw [if_neg he]
      exact h.slot hv t ht htable h0
  · rw [hptr t ht] at h0
    rw [hptr t ht, hptr s hs] at he
    by_cases htp : t = pos
    · by_cases hsp : s = pos
      · rw [htp, hsp]
      · rw [if_pos htp, if_neg hsp] at he
        exact absurd he (h.ne_fresh hp hpos hs ht htable (Or.inl htp))
    · rw [if_neg htp] at h0 he
      by_cases hsp : s = pos
      · rw [if_pos hsp] at he
        exact absurd he.symm (h.ne_fresh hp hpos ht ht htable (Or.inr htable))
      · rw [if_neg hsp] at he
        exact h.alone t s ht hs htable h0 he
  · obtain ⟨-, h0⟩ := hnull z hz h0
    rw [hptr t ht] at hdb ⊢
    split
    · exact hself
    · rename_i hne
      rw [if_neg hne] at hdb
      exact hused _ hdb (h.used z t hz ht h0 htable hdb)
  · obtain ⟨-, h0⟩ := hnull z hz h0
    rw [hptr s hs] at hdb ⊢
    split
    · exact hself
    · rename_i hne
      rw [if_neg hne] at hdb
      exact hused _ hdb (h.fresh z s hz hs h0 htable hdb)

theorem Linked.link (hA : A pos) :
    Linked sb ino V A r d (r.setPtr pos p) ((d.takeBlock sb p).setPtr r pos p) where
  used := by
    intro q hq hu
    rw [h.link_used L hV hp hpos hq]
    split
    · rfl
    · exact hu
  taken := by
    intro q _ hq hu
    rw [h.link_used L hV hp hpos hq] at hu
    split at hu
    · rename_i hqp
      exact Or.inr ⟨pos, ⟨hA, hpos⟩, hp.null,
        Or.inl (by rw [h.link_ptr L hV hp hpos pos hpos, if_pos rfl, hqp])⟩
    · exact Or.inl hu
  ptr := fun s hs => by
    rw [h.link_ptr L hV hp hpos s hs]
    split
    · rename_i hsp
      refine Or.inr ⟨hsp ▸ hp.null, hp.data, hp.free, ?_⟩
      rw [h.link_used L hV hp hpos hp.data, if_pos rfl]
    · exact Or.inl rfl
  apart := h.link L hV hp hpos

end

theorem growth_apart {sb : Superblock} {ino : Nat} {V : Pos → Prop} (L : SoundLayout sb)
    (hV : ∀ {s t : Pos}, V s → s.parent = some t → V t) :
    Growth sb V (fun r d => d.Apart sb ino V r) (Linked sb ino V) where
  closed := hV
  refl := Linked.refl
  trans := Linked.trans
  inv := Linked.apart
  used := Linked.used
  steady := fun h hp hfree hpos hnull => ⟨h.takeBlock_ptr L hV hp hfree hpos hnull,
    fun _ ht htable ht0 => (h.takeBlock_table L hp hfree hpos hnull ht htable ht0).2⟩
  leak := fun h hp hbig hfree hA hpos hnull => Linked.leak L hV h hp hbig hfree hA hpos hnull
  link := fun {_ _ _ _ pos} h hp hA hpos => ⟨Linked.link L hV h hp hpos hA,
    by rw [h.link_ptr L hV hp hpos pos hpos, if_pos rfl], h.link_zero L hV hp hpos⟩

/-! ## The block loop of a write

The positions in sight of a range of blocks are closed under going up, so
the discipline is one for the whole loop. -/

section

variable {sb : Superblock} {ino : Nat} {V A : Pos → Prop} {r r' : Inode} {d d' : Disk}
  (L : SoundLayout sb) (hV : ∀ {s t : Pos}, V s → s.parent = some t → V t)

theorem inSight_closed {first n : Nat} {s t : Pos} (h : InSight first n s)
    (hst : s.parent = some t) : InSight first n t := by
  obtain ⟨b, h1, h2, q, hq, hs⟩ := h
  refine ⟨b, h1, h2, q, hq, ?_⟩
  cases q <;> simp only [Pos.path, List.mem_cons, List.not_mem_nil, or_false] at hs ⊢ <;>
    rcases hs with rfl | rfl | rfl <;> simp_all [Pos.parent]

include L hV

theorem Linked.set (h : d.Apart sb ino V r) {s : Pos} (hs : V s) (hdata : s.isTable = false)
    (h0 : d.ptr r s ≠ 0) (b : Block) : Linked sb ino V A r d r (d.set (d.ptr r s) b) := by
  have hused : ∀ q, sb.DataBlock q → (d.set (d.ptr r s) b).blockUsed sb q = d.blockUsed sb q :=
    fun q hq => L.bitmapBelow.blockUsed_set (h.bitmap s hs h0) hq b
  have hptr : ∀ t, V t → (d.set (d.ptr r s) b).ptr r t = d.ptr r t := by
    refine Disk.ptr_steady hV (fun _ => rfl) fun t ht htable ht0 => Disk.set_of_ne fun hc => ?_
    have hst := h.alone t s ht hs htable ht0 hc.symm
    rw [hst, htable] at hdata
    cases hdata
  have hkeeps : KeepsUsed sb d (d.set (d.ptr r s) b) := by
    intro q hq hu
    rw [hused q hq, hu]
  exact {
    used := hkeeps
    taken := fun q _ hq hu => Or.inl (by rwa [hused q hq] at hu)
    ptr := fun t ht => Or.inl (hptr t ht)
    apart := h.of_same hptr hkeeps }

/-- The loop links blocks for the null pointers on the way to its blocks, and no others. -/
theorem writeBlocks_linked (u : Block) (buffer : Buf) (offset size n b written : Nat) (tmp : Block)
    (h : d.Apart sb ino V r) (hsight : ∀ s, InSight b n s → V s) {w' : Nat}
    (hrun : writeBlocks (arrayDev u) sb buffer (offset / 512) offset size n b written tmp r d
      = ((w', r'), d')) : Linked sb ino V (InSight b n) r d r' d' := by
  induction n generalizing b written tmp r d with
  | zero =>
      obtain ⟨hw, rfl⟩ := Prod.mk.inj hrun
      obtain ⟨-, rfl⟩ := Prod.mk.inj hw
      exact Linked.refl h
  | succ n ih =>
      have hway : ∀ s, OnTheWay b s → InSight b (n + 1) s :=
        fun s hs => ⟨b, Nat.le_refl _, by omega, hs⟩
      obtain ⟨r₁, d₁, hwalk, hg, -⟩ := (growth_apart L hV).getDataBlock L u h
        fun s hs => hsight s (hway s hs)
      have hfirst := hg.weaken hway
      cases hl : d₁.lookup r₁ b with
      | none =>
          rw [hl] at hwalk
          have hres : writeBlocks (arrayDev u) sb buffer (offset / 512) offset size (n + 1) b
            written
              tmp r d = ((written, r₁), d₁) := by
            simp [writeBlocks, hwalk]
          rw [hres] at hrun
          obtain ⟨hw, rfl⟩ := Prod.mk.inj hrun
          obtain ⟨-, rfl⟩ := Prod.mk.inj hw
          exact hfirst
      | some p =>
          rw [hl] at hwalk
          obtain ⟨pos, hpos, rfl, hp0, -⟩ := Disk.lookup_eq_some.mp hl
          generalize hbo : (if b = offset / 512 then offset % 512 else 0) = bo
          generalize htmp : (d₁ (d₁.ptr r₁ pos)).patch bo (min (512 - bo) (size - written))
            (fun i => buffer (written + i)) = tmp'
          have hset : Linked sb ino V (InSight b (n + 1)) r₁ d₁ r₁ (d₁.set (d₁.ptr r₁ pos) tmp') :=
            Linked.set L hV hg.apart (hsight pos (hway pos ⟨pos, hpos, Pos.mem_path pos⟩))
              (isTable_posOf hpos) hp0 tmp'
          have hnext : ∀ s, InSight (b + 1) n s → InSight b (n + 1) s := by
            rintro s ⟨c, h1, h2, h3⟩
            exact ⟨c, by omega, by omega, h3⟩
          have hrest : writeBlocks (arrayDev u) sb buffer (offset / 512) offset size n (b + 1)
              (written + min (512 - bo) (size - written)) tmp' r₁ (d₁.set (d₁.ptr r₁ pos) tmp')
              = ((w', r'), d') := by
            rw [← hrun]
            simp [writeBlocks, hwalk, hbo, htmp]
          have hlater := ih (b + 1) _ tmp' hset.apart (fun s hs => hsight s (hnext s hs)) hrest
          exact (hfirst.trans hset).trans (hlater.weaken hnext)

end

end IpoOs
