import IpoOs.FsMap

/-!
# The walk that allocates

`get_data_block_for_inode` with `alloc` set goes down from the inode
record to the block of a logical index and links a fresh zeroed block at
every null pointer it meets. What such a walk does to a volume depends on
what is known about the volume: when all pointers of all inodes are owned
nothing but the walked file changes, and when only the pointers in sight
of the walk are known to lie apart, only those are promised to stay.

`Growth` is what the walk itself rests on. `I` is the discipline that
holds between two of its steps and `G` relates the record and the disk
before a number of steps to those after them. A discipline has to say two
things: what a block costs that is taken and lost because its number is
no `int` (`leak`), and what a block does that is linked at a null position
(`link`). The positions in `V` are those whose pointers the discipline
keeps an eye on; they contain the ones above them.

From this the functions of the walk are gone through once, from the entry
of a pointer block up to `get_data_block_for_inode`. Each returns what a
lookup of the position gives afterwards, and when that is nothing it has
taken a block all the same if one was free (`TakesFree`).
-/

namespace IpoOs

/-! ## The blocks taken

A walk takes blocks and gives none back. `TakesFree` is the strongest of
these facts: when the walk comes back with nothing, either no block was free
or one was taken and lost. -/

/-- Blocks are taken for null pointers at positions in `A` only; a block whose number is
no `int` is lost to them. -/
def TakesFor (sb : Superblock) (A : Pos → Prop) (r : Inode) (d : Disk) (r' : Inode) (d' : Disk) :
    Prop :=
  ∀ p, p ≠ 0 → sb.DataBlock p → d'.blockUsed sb p = true → d.blockUsed sb p = true
    ∨ ∃ pos, A pos ∧ d.ptr r pos = 0 ∧ (d'.ptr r' pos = p ∨ 2147483648 ≤ p)

theorem TakesFor.weaken {sb : Superblock} {A A' : Pos → Prop} {r r' : Inode} {d d' : Disk}
    (h : TakesFor sb A r d r' d') (hA : ∀ pos, A pos → A' pos) : TakesFor sb A' r d r' d' :=
  fun p h0 hp hu => (h p h0 hp hu).imp id fun ⟨pos, h1, h2⟩ => ⟨pos, hA pos h1, h2⟩

/-- Pointers that are set stay, so what was taken first is linked at the end. -/
theorem TakesFor.trans {sb : Superblock} {A : Pos → Prop} {r r' r'' : Inode} {d d' d'' : Disk}
    (h : TakesFor sb A r d r' d') (h' : TakesFor sb A r' d' r'' d'')
    (hk : ∀ pos, A pos → d.ptr r pos ≠ 0 → d'.ptr r' pos = d.ptr r pos)
    (hk' : ∀ pos, A pos → d'.ptr r' pos ≠ 0 → d''.ptr r'' pos = d'.ptr r' pos) :
    TakesFor sb A r d r'' d'' := fun p hp0 hp hu => by
  rcases h' p hp0 hp hu with hu' | ⟨pos, hA, h0, hq⟩
  · rcases h p hp0 hp hu' with hu'' | ⟨pos, hA, h0, rfl | hbig⟩
    · exact Or.inl hu''
    · exact Or.inr ⟨pos, hA, h0, Or.inl (hk' pos hA hp0)⟩
    · exact Or.inr ⟨pos, hA, h0, Or.inr hbig⟩
  · have hnull : d.ptr r pos = 0 := by
      by_contra hc
      exact hc (by rw [← hk pos hA hc, h0])
    exact Or.inr ⟨pos, hA, hnull, hq⟩

/-- A step that takes a data block, if one is free. -/
def TakesFree (sb : Superblock) (d d' : Disk) : Prop :=
  ∀ p, sb.DataBlock p → d.blockUsed sb p = false →
    ∃ q, sb.DataBlock q ∧ d.blockUsed sb q = false ∧ d'.blockUsed sb q = true

/-- Blocks are only taken. -/
def KeepsUsed (sb : Superblock) (d d' : Disk) : Prop :=
  ∀ p, sb.DataBlock p → d.blockUsed sb p = true → d'.blockUsed sb p = true

section

variable {sb : Superblock} {d d' d'' : Disk} {p : Nat}

/-- A block free after a step that only takes blocks was free before it. -/
theorem KeepsUsed.free (h : KeepsUsed sb d d') (hp : sb.DataBlock p)
    (hf : d'.blockUsed sb p = false) : d.blockUsed sb p = false := by
  cases hd : d.blockUsed sb p with
  | false => rfl
  | true =>
      rw [h p hp hd] at hf
      cases hf

theorem KeepsUsed.before_takes (h : KeepsUsed sb d d') (h' : KeepsUsed sb d' d'')
    (ht : TakesFree sb d' d'') : TakesFree sb d d'' := by
  intro p hp hf
  cases hu : d'.blockUsed sb p with
  | true => exact ⟨p, hp, hf, h' p hp hu⟩
  | false =>
      obtain ⟨q, hq, hqf, hqu⟩ := ht p hp hu
      exact ⟨q, hq, h.free hq hqf, hqu⟩

theorem takesFree_takeBlock (L : SoundLayout sb) (hp : sb.DataBlock p)
    (hfree : d.blockUsed sb p = false) : TakesFree sb d (d.takeBlock sb p) := fun _ _ _ =>
  ⟨p, hp, hfree, by rw [L.blockUsed_takeBlock hp hp, if_pos rfl]⟩

end

/-! ## A pointer of the record set

A direct pointer and the two table pointers are fields of the record;
setting one of them changes what is read at its position and below. -/

section

variable {r : Inode}

theorem setPtr_of_parent {pos t : Pos} (h : pos.parent = some t) (p : Nat) :
    r.setPtr pos p = r := by
  cases pos <;> simp only [Pos.parent, reduceCtorEq] at h <;> rfl

theorem root_setPtr {pos s : Pos} {p : Nat} (hp : p < 4294967296)
    (h : pos.parent = none) (hs : s.parent = none) :
    (r.setPtr pos p).root s = if s = pos then p else r.root s := by
  have hn : (UInt32.ofNat p).toNat = p := by
    rw [UInt32.toNat_ofNat', Nat.mod_eq_of_lt hp]
  cases pos with
  | direct i =>
      cases s with
      | direct j =>
          simp only [Inode.setPtr, Inode.setDirect, Inode.root, Pos.direct.injEq, Fin.ext_iff]
          split <;> simp_all
      | indirect => rfl
      | double => rfl
      | single j => rfl
      | table j => rfl
      | leaf j k => rfl
  | indirect => cases s <;> simp [Inode.setPtr, Inode.root, hn]
  | double => cases s <;> simp [Inode.setPtr, Inode.root, hn]
  | single j => cases h
  | table j => cases h
  | leaf j k => cases h

end

/-! ## What the walk asks of a discipline

The functions of the walk, from the entry of a table upwards. Each lemma
uses the one for the table above and the two clauses of the discipline. -/

/-- A free data block whose number is an `int`, and a null position to link it at whose
parents are set. -/
structure Linkable (sb : Superblock) (r : Inode) (d : Disk) (pos : Pos) (p : Nat) : Prop where
  data : sb.DataBlock p
  int : p < 2147483648
  free : d.blockUsed sb p = false
  null : d.ptr r pos = 0
  parents : ∀ t, pos.parent = some t → d.ptr r t ≠ 0

/-- A discipline the walk keeps: `I` holds between its steps, `G A` relates what is before and
after steps that take blocks for positions in `A`. -/
structure Growth (sb : Superblock) (V : Pos → Prop) (I : Inode → Disk → Prop)
    (G : (Pos → Prop) → Inode → Disk → Inode → Disk → Prop) : Prop where
  closed : ∀ {s t}, V s → s.parent = some t → V t
  refl : ∀ {A r d}, I r d → G A r d r d
  trans : ∀ {A r d r' d' r'' d''}, G A r d r' d' → G A r' d' r'' d'' → G A r d r'' d''
  inv : ∀ {A r d r' d'}, G A r d r' d' → I r' d'
  used : ∀ {A r d r' d'}, G A r d r' d' → KeepsUsed sb d d'
  /-- Taking a block for a null pointer leaves the pointers in sight, and the tables among them. -/
  steady : ∀ {r d p pos}, I r d → sb.DataBlock p → d.blockUsed sb p = false → V pos →
    d.ptr r pos = 0 → (∀ s, V s → (d.takeBlock sb p).ptr r s = d.ptr r s)
    ∧ ∀ t, V t → t.isTable = true → d.ptr r t ≠ 0 →
      d.takeBlock sb p (d.ptr r t) = d (d.ptr r t)
  leak : ∀ {A r d p pos}, I r d → sb.DataBlock p → 2147483648 ≤ p → d.blockUsed sb p = false →
    A pos → V pos → d.ptr r pos = 0 → G A r d r (d.takeBlock sb p)
  link : ∀ {A r d p pos}, I r d → Linkable sb r d pos p → A pos → V pos →
    G A r d (r.setPtr pos p) ((d.takeBlock sb p).setPtr r pos p)
    ∧ ((d.takeBlock sb p).setPtr r pos p).ptr (r.setPtr pos p) pos = p
    ∧ (d.takeBlock sb p).setPtr r pos p p = Buf.zero

section

variable {sb : Superblock} {V : Pos → Prop} {I : Inode → Disk → Prop}
  {G : (Pos → Prop) → Inode → Disk → Inode → Disk → Prop} {A : Pos → Prop} {r : Inode} {d : Disk}
  (K : Growth sb V I G) (L : SoundLayout sb) (hAV : ∀ pos, A pos → V pos) (u : Block)

include K

/-- The entry stored by a link lands in the parent's block as it was before. -/
theorem Growth.setPtr_takeBlock (hI : I r d) {p : Nat} {pos t : Pos} (hp : Linkable sb r d pos p)
    (hpos : pos.parent = some t) (hV : V pos) :
    (d.takeBlock sb p).setPtr r pos p = (d.takeBlock sb p).set (d.ptr r t)
      ((d (d.ptr r t)).putWord (4 * pos.index) (UInt32.ofNat p)) := by
  obtain ⟨hptr, htable⟩ := K.steady hI hp.data hp.free hV hp.null
  have hVt := K.closed hV hpos
  simp only [Disk.setPtr, hpos, hptr t hVt,
    htable t hVt (Pos.isTable_of_parent hpos) (hp.parents t hpos)]

include L hAV

/-- `allocate_block` for a null pointer: a free data block, or nothing that matters. -/
theorem Growth.allocateBlock (hI : I r d) {pos : Pos} (hA : A pos) (hnull : d.ptr r pos = 0)
    (hpar : ∀ t, pos.parent = some t → d.ptr r t ≠ 0) :
    (∃ p, IpoOs.allocateBlock (arrayDev u) sb d = (some p, d.takeBlock sb p)
      ∧ Linkable sb r d pos p)
    ∨ ∃ d', IpoOs.allocateBlock (arrayDev u) sb d = (none, d') ∧ G A r d r d'
      ∧ (∀ s, V s → d'.ptr r s = d.ptr r s) ∧ TakesFree sb d d' := by
  rcases allocateBlock_array u d L with ⟨p, hp, hfree, -, hrun⟩ | ⟨hfull, hrun⟩
  · by_cases hlt : p < 2147483648
    · exact Or.inl ⟨p, by rw [hrun, asInt_eq_some.mpr ⟨rfl, hlt⟩], hp, hlt, hfree, hnull, hpar⟩
    · exact Or.inr ⟨_, by rw [hrun, asInt_eq_none.mpr (by omega)],
        K.leak hI hp (by omega) hfree hA (hAV pos hA) hnull,
        (K.steady hI hp hfree (hAV pos hA) hnull).1, takesFree_takeBlock L hp hfree⟩
  · refine Or.inr ⟨d, hrun, K.refl hI, fun _ _ => rfl, fun p hp hf => ?_⟩
    rw [hfull p hp] at hf
    cases hf

theorem Growth.pointerEntry (hI : I r d) {pos t : Pos} (hA : A pos) (hpos : pos.parent = some t)
    (ht : d.ptr r t ≠ 0) :
    ∃ d', IpoOs.pointerEntry (arrayDev u) sb (d.ptr r t) (d (d.ptr r t)) pos.index true d
        = (asPtr (d'.ptr r pos), d')
      ∧ G A r d r d' ∧ (d'.ptr r pos = 0 → TakesFree sb d d') := by
  have hentry : d.ptr r pos = ((d (d.ptr r t)).word (4 * pos.index)).toNat := by
    rw [Disk.ptr_child hpos, Disk.entry, if_neg ht]
  have hpar : ∀ v, pos.parent = some v → d.ptr r v ≠ 0 := by
    intro v hv
    rw [hpos] at hv
    rwa [← Option.some.inj hv]
  by_cases h0 : (d (d.ptr r t)).word (4 * pos.index) = 0
  · have hnull : d.ptr r pos = 0 := by
      rw [hentry, h0]
      rfl
    rcases K.allocateBlock L hAV u hI hA hnull hpar with
      ⟨p, hrun, hp⟩ | ⟨d', hrun, hg, hsame, htk⟩
    · obtain ⟨hlink, hptr, -⟩ := K.link hI hp hA (hAV pos hA)
      have hp0 := L.dataBlock_ne_zero hp.data
      rw [setPtr_of_parent hpos] at hlink hptr
      refine ⟨_, ?_, hlink, fun hc => absurd (hptr.symm.trans hc) hp0⟩
      rw [hptr, K.setPtr_takeBlock hI hp hpos (hAV pos hA)]
      simp [IpoOs.pointerEntry, h0, hrun, asPtr, hp0]
    · refine ⟨d', ?_, hg, fun _ => htk⟩
      rw [hsame pos (hAV pos hA), hnull]
      simp [IpoOs.pointerEntry, h0, hrun, asPtr]
  · have hne : ((d (d.ptr r t)).word (4 * pos.index)).toNat ≠ 0 := fun hc =>
      h0 (UInt32.toNat.inj hc)
    refine ⟨d, ?_, K.refl hI, fun hc => absurd (hentry.symm.trans hc) hne⟩
    simp [IpoOs.pointerEntry, h0, hentry, asPtr, hne]

/-- The second-level block at entry `j` of the double indirect block. -/
theorem Growth.getTable (hI : I r d) {j : Fin 128} (hA : A (.table j)) (ht : d.ptr r .double ≠ 0) :
    ∃ d', IpoOs.getTable (arrayDev u) sb (d.ptr r .double) (d (d.ptr r .double)) j.val true d
        = (if d'.ptr r (.table j) = 0 then none else some (d'.ptr r (.table j)), d')
      ∧ G A r d r d' ∧ (d'.ptr r (.table j) = 0 → TakesFree sb d d') := by
  have hpos : (Pos.table j).parent = some .double := rfl
  have hentry : d.ptr r (.table j) = ((d (d.ptr r .double)).word (4 * j.val)).toNat := by
    rw [Disk.ptr_child hpos, Disk.entry, if_neg ht]
    rfl
  have hpar : ∀ v, (Pos.table j).parent = some v → d.ptr r v ≠ 0 := by
    intro v hv
    rw [hpos] at hv
    rwa [← Option.some.inj hv]
  by_cases h0 : (d (d.ptr r .double)).word (4 * j.val) = 0
  · have hnull : d.ptr r (.table j) = 0 := by
      rw [hentry, h0]
      rfl
    rcases K.allocateBlock L hAV u hI hA hnull hpar with
      ⟨p, hrun, hp⟩ | ⟨d', hrun, hg, hsame, htk⟩
    · obtain ⟨hlink, hptr, hzero⟩ := K.link hI hp hA (hAV _ hA)
      have hp0 := L.dataBlock_ne_zero hp.data
      rw [setPtr_of_parent hpos] at hlink hptr
      refine ⟨_, ?_, hlink, fun hc => absurd (hptr.symm.trans hc) hp0⟩
      -- the block is zeroed a second time
      have hset : ((d.takeBlock sb p).setPtr r (.table j) p).set p Buf.zero
          = (d.takeBlock sb p).setPtr r (.table j) p := Disk.set_eq_self hzero
      rw [hptr, if_neg hp0, ← hset, K.setPtr_takeBlock hI hp hpos (hAV _ hA)]
      simp [IpoOs.getTable, h0, hrun, Pos.index]
    · refine ⟨d', ?_, hg, fun _ => htk⟩
      rw [hsame _ (hAV _ hA), hnull]
      simp [IpoOs.getTable, h0, hrun]
  · have hne : ((d (d.ptr r .double)).word (4 * j.val)).toNat ≠ 0 := fun hc =>
      h0 (UInt32.toNat.inj hc)
    refine ⟨d, ?_, K.refl hI, fun hc => absurd (hentry.symm.trans hc) hne⟩
    simp [IpoOs.getTable, h0, hentry, hne]

/-- The pointer block behind a field of the record, at the root position `pos`. -/
theorem Growth.rootTable (hI : I r d) {pos : Pos} (hA : A pos) (hpos : pos.parent = none)
    {field : UInt32} (hfield : d.ptr r pos = field.toNat) (hfix : r.setPtr pos field.toNat = r) :
    (∃ p d', IpoOs.rootTable (arrayDev u) sb field true d = (some p, d') ∧ p.toNat ≠ 0
      ∧ G A r d (r.setPtr pos p.toNat) d')
    ∨ d.ptr r pos = 0 ∧ ∃ d', IpoOs.rootTable (arrayDev u) sb field true d = (none, d')
      ∧ G A r d r d' ∧ (∀ s, V s → d'.ptr r s = d.ptr r s) ∧ TakesFree sb d d' := by
  by_cases h0 : field = 0
  · have hnull : d.ptr r pos = 0 := by rw [hfield, h0, UInt32.toNat_zero]
    have hpar : ∀ v, pos.parent = some v → d.ptr r v ≠ 0 := by
      intro v hv
      rw [hpos] at hv
      cases hv
    rcases K.allocateBlock L hAV u hI hA hnull hpar with
      ⟨p, hrun, hp⟩ | ⟨d', hrun, hg, hsame, htk⟩
    · have hset : (d.takeBlock sb p).setPtr r pos p = d.takeBlock sb p := by
        simp only [Disk.setPtr, hpos]
      obtain ⟨hlink, -, hzero⟩ := K.link hI hp hA (hAV pos hA)
      have hint := hp.int
      rw [hset] at hlink hzero
      have hn : (UInt32.ofNat p).toNat = p := by
        rw [UInt32.toNat_ofNat', Nat.mod_eq_of_lt (by omega)]
      refine Or.inl ⟨UInt32.ofNat p, d.takeBlock sb p, ?_, ?_, ?_⟩
      · simp [IpoOs.rootTable, h0, hrun, Disk.set_eq_self hzero]
      · rw [hn]
        exact L.dataBlock_ne_zero hp.data
      · rw [hn]
        exact hlink
    · exact Or.inr ⟨hnull, d', by simp [IpoOs.rootTable, h0, hrun], hg, hsame, htk⟩
  · refine Or.inl ⟨field, d, by simp [IpoOs.rootTable, h0], ?_, ?_⟩
    · exact fun hc => h0 (UInt32.toNat.inj hc)
    · rw [hfix]
      exact K.refl hI

theorem Growth.getDirect (hI : I r d) {i : Fin 6} (hA : A (.direct i)) :
    ∃ r' d', IpoOs.getDirect (arrayDev u) sb r i true d = ((asPtr (d'.ptr r' (.direct i)), r'), d')
      ∧ G A r d r' d' ∧ (d'.ptr r' (.direct i) = 0 → TakesFree sb d d') := by
  by_cases h0 : r.direct i = 0
  · have hnull : d.ptr r (.direct i) = 0 := by
      simp only [Disk.ptr, h0, UInt32.toNat_zero]
    have hpar : ∀ t, (Pos.direct i).parent = some t → d.ptr r t ≠ 0 := by
      intro t ht
      cases ht
    rcases K.allocateBlock L hAV u hI hA hnull hpar with
      ⟨p, hrun, hp⟩ | ⟨d', hrun, hg, hsame, htk⟩
    · obtain ⟨hlink, hptr, -⟩ := K.link hI hp hA (hAV _ hA)
      have hp0 := L.dataBlock_ne_zero hp.data
      refine ⟨_, _, ?_, hlink, fun hc => absurd (hptr.symm.trans hc) hp0⟩
      rw [hptr]
      simp [IpoOs.getDirect, h0, hrun, asPtr, hp0, Inode.setPtr, Disk.setPtr, Pos.parent]
    · refine ⟨r, d', ?_, hg, fun _ => htk⟩
      rw [hsame _ (hAV _ hA), hnull]
      simp [IpoOs.getDirect, h0, hrun, asPtr]
  · have hne : (r.direct i).toNat ≠ 0 := fun hc => h0 (UInt32.toNat.inj hc)
    refine ⟨r, d, ?_, K.refl hI, fun hc => absurd hc hne⟩
    simp [IpoOs.getDirect, h0, Disk.ptr, asPtr, hne]

theorem Growth.getSingle (hI : I r d) {pos t : Pos} (hA : A pos) (hpos : pos.parent = some t)
    (ht : d.ptr r t ≠ 0) :
    ∃ d', IpoOs.getSingle (arrayDev u) sb (d.ptr r t) pos.index true d = (asPtr (d'.ptr r pos), d')
      ∧ G A r d r d' ∧ (d'.ptr r pos = 0 → TakesFree sb d d') := by
  obtain ⟨d', hrun, hg⟩ := K.pointerEntry L hAV u hI hA hpos ht
  exact ⟨d', by simp [IpoOs.getSingle, hrun], hg⟩

theorem Growth.getIndirect (hI : I r d) {j : Fin 128} (hA : A .indirect) (hA' : A (.single j)) :
    ∃ r' d', IpoOs.getIndirect (arrayDev u) sb r j.val true d
        = ((asPtr (d'.ptr r' (.single j)), r'), d')
      ∧ G A r d r' d' ∧ (d'.ptr r' (.single j) = 0 → TakesFree sb d d') := by
  rcases K.rootTable L hAV u hI hA rfl rfl
      (by simp [Inode.setPtr]) with ⟨p, d₁, hrun, hp, hg⟩ | ⟨h0, d', hrun, hg, hsame, htk⟩
  · have hset : r.setPtr .indirect p.toNat = { r with indirect := p } := by
      simp [Inode.setPtr]
    rw [hset] at hg
    obtain ⟨d₂, hrun', hg', htk⟩ := K.getSingle L hAV u (K.inv hg) hA' (t := .indirect) rfl hp
    refine ⟨_, d₂, ?_, K.trans hg hg', fun hc => (K.used hg).before_takes (K.used hg') (htk hc)⟩
    simp only [Disk.ptr, Pos.index] at hrun'
    simp [IpoOs.getIndirect, hrun, hrun', Disk.ptr]
  · refine ⟨r, d', ?_, hg, fun _ => htk⟩
    have hsingle : d'.ptr r (.single j) = 0 := by
      rw [hsame _ (hAV _ hA'), Disk.ptr_child (t := .indirect) rfl, Disk.entry, if_pos h0]
    simp [IpoOs.getIndirect, hrun, hsingle, asPtr]

/-- The second level and the entry, once the double indirect block is there. -/
theorem Growth.getLeaf (hI : I r d) {idx : Nat} {j k : Fin 128} (hj : j.val = idx / 128)
    (hk : k.val = idx % 128) (hA : A (.table j)) (hA' : A (.leaf j k)) (h0 : d.ptr r .double ≠ 0) :
    ∃ d', IpoOs.getLeaf (arrayDev u) sb (d.ptr r .double) idx true d
        = (asPtr (d'.ptr r (.leaf j k)), d')
      ∧ G A r d r d' ∧ (d'.ptr r (.leaf j k) = 0 → TakesFree sb d d') := by
  obtain ⟨d₁, hrun, hg, htk⟩ := K.getTable L hAV u hI (j := j) hA h0
  rw [hj] at hrun
  by_cases ht : d₁.ptr r (.table j) = 0
  · refine ⟨d₁, ?_, hg, fun _ => htk ht⟩
    have hleaf : d₁.ptr r (.leaf j k) = 0 := by
      rw [Disk.ptr_child (t := .table j) rfl, Disk.entry, if_pos ht]
    rw [if_pos ht] at hrun
    simp [IpoOs.getLeaf, hrun, hleaf, asPtr]
  · obtain ⟨d₂, hrun', hg', htk'⟩ := K.getSingle L hAV u (K.inv hg) hA' (t := .table j) rfl ht
    refine ⟨d₂, ?_, K.trans hg hg', fun hc => (K.used hg).before_takes (K.used hg') (htk' hc)⟩
    rw [if_neg ht] at hrun
    rw [Pos.index, hk] at hrun'
    simp [IpoOs.getLeaf, hrun, hrun']

theorem Growth.getDouble (hI : I r d) {idx : Nat} {j k : Fin 128} (hj : j.val = idx / 128)
    (hk : k.val = idx % 128) (hA : A .double) (hA' : A (.table j)) (hA'' : A (.leaf j k)) :
    ∃ r' d', IpoOs.getDouble (arrayDev u) sb r idx true d
        = ((asPtr (d'.ptr r' (.leaf j k)), r'), d')
      ∧ G A r d r' d' ∧ (d'.ptr r' (.leaf j k) = 0 → TakesFree sb d d') := by
  rcases K.rootTable L hAV u hI hA rfl rfl
      (by simp [Inode.setPtr]) with ⟨p, d₁, hrun, hp, hg⟩ | ⟨h0, d', hrun, hg, hsame, htk⟩
  · have hset : r.setPtr .double p.toNat = { r with doubleIndirect := p } := by
      simp [Inode.setPtr]
    rw [hset] at hg
    obtain ⟨d₂, hrun', hg', htk⟩ := K.getLeaf L hAV u (K.inv hg) hj hk hA' hA'' hp
    refine ⟨_, d₂, ?_, K.trans hg hg', fun hc => (K.used hg).before_takes (K.used hg') (htk hc)⟩
    simp only [Disk.ptr] at hrun'
    simp [IpoOs.getDouble, hrun, hrun', Disk.ptr]
  · refine ⟨r, d', ?_, hg, fun _ => htk⟩
    have hleaf : d'.ptr r (.leaf j k) = 0 := by
      rw [hsame _ (hAV _ hA''), Disk.ptr_child (t := .table j) rfl, Disk.entry,
        Disk.ptr_child (t := .double) rfl, Disk.entry, if_pos h0, if_pos rfl]
    simp [IpoOs.getDouble, hrun, hleaf, asPtr]

end

/-- The position `pos` lies on the way to logical block `b`, or is its own. -/
def OnTheWay (b : Nat) (pos : Pos) : Prop := ∃ q, posOf b = some q ∧ pos ∈ q.path

/-- The walk of `get_data_block_for_inode` with `alloc` set: the record and the disk it
leaves, and the block it returns is what the logical index then maps to. -/
theorem Growth.getDataBlock {sb : Superblock} {V : Pos → Prop} {I : Inode → Disk → Prop}
    {G : (Pos → Prop) → Inode → Disk → Inode → Disk → Prop} {r : Inode} {d : Disk}
    (K : Growth sb V I G) (L : SoundLayout sb) (u : Block) (hI : I r d) {l : Nat}
    (hV : ∀ pos, OnTheWay l pos → V pos) :
    ∃ r' d', getDataBlockForInode (arrayDev u) sb r l true d = ((d'.lookup r' l, r'), d')
      ∧ G (OnTheWay l) r d r' d'
      ∧ ∀ pos, posOf l = some pos → d'.ptr r' pos = 0 → TakesFree sb d d' := by
  unfold getDataBlockForInode
  by_cases h6 : l < 6
  · have hp : posOf l = some (.direct ⟨l, h6⟩) := by rw [posOf, dif_pos h6]
    obtain ⟨r', d', hrun, hg, htk⟩ := K.getDirect L hV u hI (i := ⟨l, h6⟩)
      ⟨_, hp, Pos.mem_path _⟩
    refine ⟨r', d', ?_, hg, fun pos hpos => ?_⟩
    · rw [dif_pos h6, hrun, Disk.lookup, hp]
      rfl
    · rw [hp] at hpos
      exact Option.some.inj hpos ▸ htk
  · rw [dif_neg h6]
    by_cases h128 : l - 6 < 128
    · have hp : posOf l = some (.single ⟨l - 6, h128⟩) := by
        rw [posOf, dif_neg h6, dif_pos h128]
      obtain ⟨r', d', hrun, hg, htk⟩ := K.getIndirect L hV u hI (j := ⟨l - 6, h128⟩)
        ⟨_, hp, by simp [Pos.path]⟩ ⟨_, hp, Pos.mem_path _⟩
      refine ⟨r', d', ?_, hg, fun pos hpos => ?_⟩
      · rw [if_pos h128, hrun, Disk.lookup, hp]
        rfl
      · rw [hp] at hpos
        exact Option.some.inj hpos ▸ htk
    · rw [if_neg h128]
      by_cases hbig : l - 6 - 128 ≥ 128 * 128
      · have hp : posOf l = none := by
          rw [posOf, dif_neg h6, dif_neg h128, dif_neg (by omega)]
        refine ⟨r, d, ?_, K.refl hI, fun pos hpos => ?_⟩
        · rw [if_pos hbig, Disk.lookup, hp]
          rfl
        · rw [hp] at hpos
          cases hpos
      · have hl : l - 134 < 16384 := by omega
        have hp : posOf l = some (.leaf ⟨(l - 134) / 128, by omega⟩
            ⟨(l - 134) % 128, by omega⟩) := by
          rw [posOf, dif_neg h6, dif_neg h128, dif_pos hl]
        obtain ⟨r', d', hrun, hg, htk⟩ := K.getDouble L hV u hI
          (j := ⟨(l - 134) / 128, by omega⟩) (k := ⟨(l - 134) % 128, by omega⟩)
          (show (l - 134) / 128 = (l - 6 - 128) / 128 by omega) (by simp only; omega)
          ⟨_, hp, by simp [Pos.path]⟩ ⟨_, hp, by simp [Pos.path]⟩ ⟨_, hp, Pos.mem_path _⟩
        refine ⟨r', d', ?_, hg, fun pos hpos => ?_⟩
        · rw [if_neg hbig, hrun, Disk.lookup, hp]
          rfl
        · rw [hp] at hpos
          exact Option.some.inj hpos ▸ htk

/-! ## The block map without allocation

Without `alloc` nothing is written, and the walk is `Disk.lookup`. -/

section

variable (u : Block) (sb : Superblock) (r : Inode) (d : Disk)

theorem pointerEntry_lookup {q : Nat} (hq : q ≠ 0) (idx : Nat) :
    pointerEntry (arrayDev u) sb q (d q) idx false d = (asPtr (d.entry q idx), d) := by
  by_cases h0 : (d q).word (4 * idx) = 0
  · simp [pointerEntry, h0, Disk.entry, asPtr]
  · have hne : ((d q).word (4 * idx)).toNat ≠ 0 := fun hc => h0 (UInt32.toNat.inj hc)
    simp [pointerEntry, h0, Disk.entry, hq, asPtr, hne]

/-- `get_data_block_for_inode` without `alloc` reads the block map. -/
theorem getDataBlock_lookup (l : Nat) :
    getDataBlockForInode (arrayDev u) sb r l false d = ((d.lookup r l, r), d) := by
  unfold getDataBlockForInode
  by_cases h6 : l < 6
  · have hp : posOf l = some (.direct ⟨l, h6⟩) := by rw [posOf, dif_pos h6]
    rw [dif_pos h6, Disk.lookup, hp]
    by_cases h0 : r.direct ⟨l, h6⟩ = 0
    · simp [getDirect, h0, Disk.ptr, asPtr]
    · have hne : (r.direct ⟨l, h6⟩).toNat ≠ 0 := fun hc => h0 (UInt32.toNat.inj hc)
      simp [getDirect, h0, Disk.ptr, asPtr, hne]
  · rw [dif_neg h6]
    by_cases h128 : l - 6 < 128
    · have hp : posOf l = some (.single ⟨l - 6, h128⟩) := by
        rw [posOf, dif_neg h6, dif_pos h128]
      rw [if_pos h128, Disk.lookup, hp]
      by_cases h0 : r.indirect = 0
      · simp [getIndirect, rootTable, h0, Disk.ptr, Disk.entry, asPtr]
      · have hne : r.indirect.toNat ≠ 0 := fun hc => h0 (UInt32.toNat.inj hc)
        simp [getIndirect, rootTable, getSingle, h0, Disk.ptr,
          pointerEntry_lookup u sb d hne]
    · rw [if_neg h128]
      by_cases hbig : l - 6 - 128 ≥ 128 * 128
      · have hp : posOf l = none := by
          rw [posOf, dif_neg h6, dif_neg h128, dif_neg (by omega)]
        rw [if_pos hbig, Disk.lookup, hp]
        rfl
      · have hl : l - 134 < 16384 := by omega
        have hsub : l - 6 - 128 = l - 134 := by omega
        have hp : posOf l = some (.leaf ⟨(l - 134) / 128, by omega⟩
            ⟨(l - 134) % 128, by omega⟩) := by
          rw [posOf, dif_neg h6, dif_neg h128, dif_pos hl]
        rw [if_neg hbig, hsub, Disk.lookup, hp]
        by_cases h0 : r.doubleIndirect = 0
        · simp [getDouble, rootTable, h0, Disk.ptr, Disk.entry, asPtr]
        · have hne : r.doubleIndirect.toNat ≠ 0 := fun hc => h0 (UInt32.toNat.inj hc)
          by_cases ht : (d r.doubleIndirect.toNat).word (4 * ((l - 134) / 128)) = 0
          · simp [getDouble, rootTable, getLeaf, getTable, h0, Disk.ptr, Disk.entry, hne, ht,
              asPtr]
          · have hte : ((d r.doubleIndirect.toNat).word (4 * ((l - 134) / 128))).toNat ≠ 0 :=
              fun hc => ht (UInt32.toNat.inj hc)
            have hent : d.entry r.doubleIndirect.toNat ((l - 134) / 128)
                = ((d r.doubleIndirect.toNat).word (4 * ((l - 134) / 128))).toNat := by
              rw [Disk.entry, if_neg hne]
            simp [getDouble, rootTable, getLeaf, getTable, getSingle, h0, Disk.ptr, hent, ht,
              pointerEntry_lookup u sb d hte]

end

end IpoOs
