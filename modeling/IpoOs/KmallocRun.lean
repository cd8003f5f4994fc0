import IpoOs.KmallocWf

/-!
# Runs of the allocator

The callers of the heap know two things the heap does not: which pointers
they were given, and which allocations they have not given back. Along every
run whose calls leave the heap well formed, each such allocation is a block
of its own, not free, and large enough; a pointer given back belongs to a
block that carries the freed magic, and so a second `kfree` of it does
nothing.

`HeapInv` is the invariant. It says of each allocation that was not given
back that its block is in the tiling, not free and large enough, and that no
two of them share a block; and of each pointer that was given back that its
block has the freed magic, until the block is handed out again. A step keeps
it if the heap is well formed after the step, and the one step after which
it is not is a split that leaves too little. So a run either keeps the
invariant or has made such a split.
-/

namespace IpoOs

section

variable {h : Heap} {bs : List Nat}

/-- The remainder of block `b` after `size` bytes are taken: none, or a header fits. -/
def LeavesRoom (mem : Buf) (b size : Nat) : Prop :=
  blockSize mem b = size + 12 ∨ size + 24 ≤ blockSize mem b

theorem kmalloc_spec (wf : HeapWf h bs) {size : Nat} (hpos : 0 < size)
    (hsize : size ≤ kmallocHeapSize) :
    ∃ r h', kmalloc (h.used + 1) size h = some (r, h')
      ∧ ((bs.find? (fits h.mem size) = none ∧ r = none ∧ h' = h
          ∧ kmallocHeapSize ≤ h.used + (size + 12))
        ∨ (bs.find? (fits h.mem size) = none ∧ r = some (h.used + 12)
          ∧ Handed h h' bs (bs ++ [h.used]) h.used size ∧ h'.used = h.used + (size + 12))
        ∨ ∃ b, bs.find? (fits h.mem size) = some b ∧ r = some (b + 12) ∧ h'.used = h.used
          ∧ (LeavesRoom h.mem b size → ∃ bs', Handed h h' bs bs' b size)
          ∧ (¬ LeavesRoom h.mem b size → ¬ ∃ bs', HeapWf h' bs')) := by
  have hk : kmallocHeapSize = 67108864 := rfl
  have hfind := findFreeBlock_eq hsize wf.bound (h.used + 1) 0 bs wf.tiles wf.magic wf.fuel
  unfold kmalloc
  simp only [if_neg (Nat.ne_of_gt hpos), wf.started, if_true, hfind]
  cases hf : bs.find? (fits h.mem size) with
  | none =>
      dsimp only
      rcases em (h.used + (size + 12) < kmallocHeapSize) with hroom | hroom
      · obtain ⟨h', htake, hout, hhand, hused⟩ := takeFresh_spec wf hsize hroom
        generalize takeFresh h size = t at htake hout ⊢
        obtain ⟨r, h₁⟩ := t
        obtain rfl : r = some h.used := htake
        refine ⟨some (h.used + 12), h', ?_, Or.inr (Or.inl ⟨rfl, rfl, hhand, hused⟩)⟩
        exact congrArg some hout
      · have hb := wf.bound
        have hu : u32 (size + 12) = size + 12 := u32_of_lt (by omega)
        have hu' : u32 (h.used + (size + 12)) = h.used + (size + 12) := u32_of_lt (by omega)
        have htake : takeFresh h size = (none, h) := by
          unfold takeFresh
          simp only [hu, hu']
          rw [if_pos (by omega)]
        rw [htake]
        exact ⟨none, h, rfl, Or.inl ⟨rfl, rfl, rfl, Nat.le_of_not_lt hroom⟩⟩
  | some b =>
      dsimp only
      have hb : b ∈ bs := List.mem_of_find?_eq_some hf
      have hfit : blockFree h.mem b = true ∧ size + 12 ≤ blockSize h.mem b := by
        simpa [fits] using List.find?_some hf
      refine ⟨some (b + 12), _, rfl, Or.inr (Or.inr ⟨b, rfl, rfl, rfl, ?_, ?_⟩)⟩
      · rintro (heq | hge)
        · exact ⟨bs, takeFree_exact wf hb heq⟩
        · exact takeFree_cut wf hb hge
      · intro hno
        unfold LeavesRoom at hno
        exact takeFree_damage wf hb (by omega) (by omega)

theorem kfree_spec (wf : HeapWf h bs) {b : Nat} (hb : b ∈ bs) :
    HeapWf (kfree (some (b + 12)) h) bs
      ∧ (kfree (some (b + 12)) h).used = h.used
      ∧ (∀ c ∈ bs, c ≠ b → SameHeader h.mem (kfree (some (b + 12)) h).mem c)
      ∧ (blockMagic h.mem b = kmallocMagic → blockFree h.mem b = false →
        blockMagic (kfree (some (b + 12)) h).mem b = kmallocFreedMagic
          ∧ blockFree (kfree (some (b + 12)) h).mem b = true
          ∧ blockSize (kfree (some (b + 12)) h).mem b = blockSize h.mem b)
      ∧ (blockMagic h.mem b ≠ kmallocMagic ∨ blockFree h.mem b = true →
        kfree (some (b + 12)) h = h) := by
  have hrefl : ∀ c, SameHeader h.mem h.mem c := fun c => ⟨rfl, rfl, rfl⟩
  rcases em (blockMagic h.mem b = kmallocMagic ∧ blockFree h.mem b = false) with ⟨hm, hf⟩ | hno
  · have hrun : kfree (some (b + 12)) h
        = { h with mem := setBlockMagic (setBlockFree h.mem b 1) b kmallocFreedMagic } := by
      unfold kfree
      simp only [Nat.add_sub_cancel, hm, hf, ne_eq, not_true_eq_false, if_false, Bool.false_eq_true]
    obtain ⟨h1, -, -⟩ := wf.block hb
    have hkeep := @setBlockMagic_keeps (setBlockFree h.mem b 1) b kmallocFreedMagic
    have hkeep' := @setBlockFree_keeps h.mem b 1
    have hmagic := @blockMagic_setBlockMagic (setBlockFree h.mem b 1) b kmallocFreedMagic
    have hsame : ∀ c ∈ bs, c ≠ b → SameHeader h.mem
        (setBlockMagic (setBlockFree h.mem b 1) b kmallocFreedMagic) c := by
      intro c hc hne
      refine wf.same_of_outside hb hc hne fun i hi => ?_
      rw [setBlockMagic_of_outside (by omega), setBlockFree_of_outside (by omega)]
    rw [hrun]
    refine ⟨⟨wf.started, wf.tiles.congr fun c hc => ?_, fun c hc => ?_, fun c hc => ?_, wf.bound⟩,
      rfl, hsame, fun _ _ => ⟨hmagic, ?_, hkeep.1.trans hkeep'.1⟩, ?_⟩
    · rcases eq_or_ne c b with rfl | hne
      · exact hkeep.1.trans hkeep'.1
      · exact (hsame c hc hne).1
    · rcases eq_or_ne c b with rfl | hne
      · rw [show blockSize _ c = _ from hkeep.1.trans hkeep'.1]
        exact wf.size c hc
      · rw [show blockSize _ c = _ from (hsame c hc hne).1]
        exact wf.size c hc
    · rcases eq_or_ne c b with rfl | hne
      · rw [show blockMagic _ c = _ from hmagic]
        rfl
      · rw [show blockMagic _ c = _ from (hsame c hc hne).2.1]
        exact wf.magic c hc
    · rw [show blockFree _ b = _ from hkeep.2, blockFree_setBlockFree]
      rfl
    · rintro (hm' | hf')
      · exact absurd hm hm'
      · rw [hf] at hf'
        cases hf'
  · have hrun : kfree (some (b + 12)) h = h := by
      unfold kfree
      simp only [Nat.add_sub_cancel]
      split
      · rfl
      split
      · rfl
      · rename_i h1 h2
        exact absurd ⟨not_not.mp h1, by simpa using h2⟩ hno
    rw [hrun]
    refine ⟨wf, rfl, fun c _ _ => hrefl c, fun hm hf => absurd ⟨hm, hf⟩ hno, fun _ => rfl⟩

end

/-! ## Runs

The two lists of pointers are what the callers know; no call reads them but
to say which `kfree` is allowed. -/

/-- The heap, the allocations not given back (pointer and size), and every pointer that
was returned. -/
structure HeapState where
  heap : Heap
  live : List (Nat × Nat)
  returned : List Nat

/-- A call of the allocator. -/
inductive HeapCall where
  | alloc (size : Nat)
  | free (p : Nat)

/-- One call; `none` when `kmalloc` does not return. -/
def HeapCall.run : HeapCall → HeapState → Option HeapState
  | .alloc size, s =>
      (kmalloc (s.heap.used + 1) size s.heap).map fun r =>
        match r.1 with
        | none => { s with heap := r.2 }
        | some p => { heap := r.2, live := (p, size) :: s.live, returned := p :: s.returned }
  | .free p, s =>
      some { s with
        heap := kfree (some p) s.heap
        live := s.live.filter fun a => a.1 ≠ p }

/-- A size between 1 and 64 MB, and a pointer that `kmalloc` returned. -/
def HeapCall.Allowed (s : HeapState) : HeapCall → Prop
  | .alloc size => 0 < size ∧ size ≤ kmallocHeapSize
  | .free p => p ∈ s.returned

/-- The free block that `kmalloc` takes is split only where a header fits into the rest. -/
def HeapCall.SplitFits (s : HeapState) : HeapCall → Prop
  | .alloc size => ∀ b, findFreeBlock s.heap.mem s.heap.used size (s.heap.used + 1) 0
      = some (some b) → LeavesRoom s.heap.mem b size
  | .free _ => True

/-- The state after `kmalloc_init`. -/
def initialHeap (h : Heap) : HeapState := ⟨kmallocInit h, [], []⟩

/-- Two payloads do not overlap. -/
def Apart (a a' : Nat × Nat) : Prop := a.1 + a.2 ≤ a'.1 ∨ a'.1 + a'.2 ≤ a.1

/-- The heap is well formed: its headers tile it, and every live payload lies in it, clear
of the headers and of the other payloads. -/
def HeapState.WellFormed (s : HeapState) : Prop :=
  ∃ bs, HeapWf s.heap bs
    ∧ (∀ a ∈ s.live, a.1 + a.2 ≤ s.heap.used ∧ ∀ b ∈ bs, a.1 + a.2 ≤ b ∨ b + 12 ≤ a.1)
    ∧ s.live.Pairwise Apart

/-- What the callers' pointers are. -/
structure HeapInv (s : HeapState) (bs : List Nat) : Prop where
  wf : HeapWf s.heap bs
  live : ∀ a ∈ s.live, ∃ b ∈ bs, a.1 = b + 12 ∧ blockFree s.heap.mem b = false
    ∧ a.2 + 12 ≤ blockSize s.heap.mem b
  distinct : s.live.Pairwise fun a a' => a.1 ≠ a'.1
  returned : ∀ p ∈ s.returned, ∃ b ∈ bs, p = b + 12
  known : ∀ a ∈ s.live, a.1 ∈ s.returned
  freed : ∀ p ∈ s.returned, (∀ a ∈ s.live, a.1 ≠ p) →
    blockMagic s.heap.mem (p - 12) = kmallocFreedMagic

theorem HeapInv.initial (h : Heap) : HeapInv (initialHeap h) [] where
  wf := ⟨rfl, rfl, nofun, nofun, (by decide : 0 < kmallocHeapSize)⟩
  live := nofun
  distinct := List.Pairwise.nil
  returned := nofun
  known := nofun
  freed := nofun

section

variable {s s' : HeapState} {bs : List Nat}

theorem HeapInv.wellFormed (hi : HeapInv s bs) : s.WellFormed := by
  refine ⟨bs, hi.wf, fun a ha => ?_, ?_⟩
  · obtain ⟨b, hb, hp, -, hroom⟩ := hi.live a ha
    obtain ⟨-, hend, -⟩ := hi.wf.block hb
    refine ⟨by omega, fun c hc => ?_⟩
    have hsize := hi.wf.size c hc
    rcases eq_or_ne c b with rfl | hne
    · exact Or.inr (by omega)
    · rcases hi.wf.tiles.disjoint hc hb hne with hd | hd
      · exact Or.inr (by omega)
      · exact Or.inl (by omega)
  · refine hi.distinct.imp_of_mem fun {a a'} ha ha' hne => ?_
    obtain ⟨b, hb, hp, -, hroom⟩ := hi.live a ha
    obtain ⟨b', hb', hp', -, hroom'⟩ := hi.live a' ha'
    rcases hi.wf.tiles.disjoint hb hb' (fun heq => hne (by rw [hp, hp', heq])) with hd | hd
    · exact Or.inl (by omega)
    · exact Or.inr (by omega)

theorem HeapInv.handed (hi : HeapInv s bs) {h' : Heap} {bs' : List Nat} {b size : Nat}
    (hh : Handed s.heap h' bs bs' b size) (hfree : b ∈ bs → blockFree s.heap.mem b = true) :
    HeapInv ⟨h', (b + 12, size) :: s.live, (b + 12) :: s.returned⟩ bs' := by
  have hnew : ∀ a ∈ s.live, a.1 ≠ b + 12 := by
    intro a ha heq
    obtain ⟨c, hc, hp, hnot, -⟩ := hi.live a ha
    obtain rfl : c = b := by omega
    rw [hfree hc] at hnot
    cases hnot
  refine ⟨hh.wf, fun a ha => ?_, ?_, fun p hp => ?_, fun a ha => ?_, fun p hp hno => ?_⟩
  · rcases List.mem_cons.mp ha with rfl | ha
    · exact ⟨b, hh.mem, rfl, hh.free, hh.room⟩
    · obtain ⟨c, hc, hp, hnot, hroom⟩ := hi.live a ha
      have hsame := hh.same c hc fun heq => hnew a ha (by rw [hp, heq])
      exact ⟨c, hh.old c hc, hp, hsame.2.2.trans hnot, by rw [hsame.1]; exact hroom⟩
  · exact List.pairwise_cons.mpr ⟨fun a ha => (hnew a ha).symm, hi.distinct⟩
  · rcases List.mem_cons.mp hp with rfl | hp
    · exact ⟨b, hh.mem, rfl⟩
    · obtain ⟨c, hc, rfl⟩ := hi.returned p hp
      exact ⟨c, hh.old c hc, rfl⟩
  · rcases List.mem_cons.mp ha with rfl | ha
    · exact List.mem_cons_self
    · exact List.mem_cons_of_mem _ (hi.known a ha)
  · have hpb : p ≠ b + 12 := fun heq => hno (b + 12, size) List.mem_cons_self heq.symm
    have hp' := (List.mem_cons.mp hp).resolve_left hpb
    obtain ⟨c, hc, rfl⟩ := hi.returned p hp'
    have hmagic := hi.freed _ hp' fun a ha => hno a (List.mem_cons_of_mem _ ha)
    rw [Nat.add_sub_cancel] at hmagic ⊢
    rw [(hh.same c hc (by omega)).2.1, hmagic]

theorem HeapInv.freePtr (hi : HeapInv s bs) {p : Nat} (hp : p ∈ s.returned) :
    HeapInv ⟨kfree (some p) s.heap, s.live.filter fun a => a.1 ≠ p, s.returned⟩ bs := by
  obtain ⟨b, hb, rfl⟩ := hi.returned p hp
  obtain ⟨hwf, -, hsame, hfreed, hnoop⟩ := kfree_spec hi.wf hb
  refine ⟨hwf, fun a ha => ?_, hi.distinct.filter _, hi.returned, fun a ha => ?_,
    fun q hq hno => ?_⟩
  · obtain ⟨ha, hne⟩ := List.mem_filter.mp ha
    obtain ⟨c, hc, hpc, hnot, hroom⟩ := hi.live a ha
    have hcb : c ≠ b := fun heq => (of_decide_eq_true hne) (by rw [hpc, heq])
    exact ⟨c, hc, hpc, (hsame c hc hcb).2.2.trans hnot, by rw [(hsame c hc hcb).1]; exact hroom⟩
  · exact hi.known a (List.mem_filter.mp ha).1
  · obtain ⟨c, hc, rfl⟩ := hi.returned q hq
    rw [Nat.add_sub_cancel]
    rcases eq_or_ne c b with rfl | hne
    · rcases em (∃ a ∈ s.live, a.1 = c + 12) with ⟨a, ha, hpa⟩ | hdead
      · -- it was live, so its block was not free
        obtain ⟨c', -, hpc, hnot, -⟩ := hi.live a ha
        obtain rfl : c' = c := by omega
        rcases em (blockMagic s.heap.mem c' = kmallocMagic) with hm | hm
        · exact (hfreed hm hnot).1
        · rw [hnoop (Or.inl hm)]
          have hok := hi.wf.magic c' hc
          simp only [magicOk, hm, false_or, decide_eq_true_eq] at hok
          exact hok
      · have hm := hi.freed (c + 12) hq fun a ha heq => hdead ⟨a, ha, heq⟩
        rw [Nat.add_sub_cancel] at hm
        rw [hnoop (Or.inl (by rw [hm]; decide)), hm]
    · have hm := hi.freed (c + 12) hq fun a ha heq => by
        refine hno a (List.mem_filter.mpr ⟨ha, decide_eq_true fun h => hne (by omega)⟩) heq
      rw [Nat.add_sub_cancel] at hm
      rw [(hsame c hc hne).2.1, hm]

theorem HeapInv.kfree_twice (hi : HeapInv s bs) {p : Nat} (hp : p ∈ s.returned)
    (hdead : ∀ a ∈ s.live, a.1 ≠ p) : kfree (some p) s.heap = s.heap := by
  obtain ⟨b, hb, rfl⟩ := hi.returned p hp
  have hm := hi.freed _ hp hdead
  rw [Nat.add_sub_cancel] at hm
  exact (kfree_spec hi.wf hb).2.2.2.2 (Or.inl (by rw [hm]; decide))

/-- One call from a state whose pointers are accounted for: it returns, and the heap is well
formed afterwards exactly when no split was too small. -/
theorem HeapInv.step (hi : HeapInv s bs) {e : HeapCall} (he : e.Allowed s) :
    ∃ s', e.run s = some s' ∧ (∀ p ∈ s.returned, p ∈ s'.returned)
      ∧ (e.SplitFits s → ∃ bs', HeapInv s' bs') ∧ (s'.WellFormed ↔ e.SplitFits s) := by
  cases e with
  | free p =>
      have hinv := hi.freePtr he
      exact ⟨_, rfl, fun q hq => hq, fun _ => ⟨bs, hinv⟩, iff_of_true hinv.wellFormed trivial⟩
  | alloc size =>
      obtain ⟨hpos, hsize⟩ := he
      have hfind :=
        findFreeBlock_eq hsize hi.wf.bound (s.heap.used + 1) 0 bs hi.wf.tiles hi.wf.magic
        hi.wf.fuel
      obtain ⟨r, h', hrun,
          ⟨hf, rfl, rfl, -⟩ | ⟨hf, rfl, hh, -⟩ | ⟨b, hf, rfl, hused, hgood, hbad⟩⟩ :=
        kmalloc_spec hi.wf hpos hsize
      · have hfits : (HeapCall.alloc size).SplitFits s := by
          intro b hb
          rw [hfind, hf] at hb
          cases hb
        refine ⟨s, ?_, fun q hq => hq, fun _ => ⟨bs, hi⟩, iff_of_true hi.wellFormed hfits⟩
        show (kmalloc (s.heap.used + 1) size s.heap).map _ = some s
        rw [hrun]
        rfl
      · have hfits : (HeapCall.alloc size).SplitFits s := by
          intro b hb
          rw [hfind, hf] at hb
          cases hb
        have hnot : s.heap.used ∉ bs := by
          intro hmem
          have hb := hi.wf.tiles.bounds hmem
          omega
        have hinv := hi.handed hh fun hmem => absurd hmem hnot
        refine ⟨⟨h', (s.heap.used + 12, size) :: s.live, (s.heap.used + 12) :: s.returned⟩, ?_,
          fun q hq => List.mem_cons_of_mem _ hq, fun _ => ⟨_, hinv⟩,
          iff_of_true hinv.wellFormed hfits⟩
        show (kmalloc (s.heap.used + 1) size s.heap).map _ = some _
        rw [hrun]
        rfl
      · have hb : b ∈ bs := List.mem_of_find?_eq_some hf
        have hfree : blockFree s.heap.mem b = true := by
          have hfit := List.find?_some hf
          simp only [fits, Bool.and_eq_true] at hfit
          exact hfit.1
        have hfits : (HeapCall.alloc size).SplitFits s ↔ LeavesRoom s.heap.mem b size := by
          constructor
          · intro h
            exact h b (by rw [hfind, hf])
          · intro h c hc
            rw [hfind, hf] at hc
            obtain rfl := Option.some.inj (Option.some.inj hc)
            exact h
        refine ⟨⟨h', (b + 12, size) :: s.live, (b + 12) :: s.returned⟩, ?_,
          fun q hq => List.mem_cons_of_mem _ hq, fun h => ?_, ?_⟩
        · show (kmalloc (s.heap.used + 1) size s.heap).map _ = some _
          rw [hrun]
          rfl
        · obtain ⟨bs', hh⟩ := hgood (hfits.mp h)
          exact ⟨bs', hi.handed hh fun _ => hfree⟩
        · rw [hfits]
          constructor
          · rintro ⟨bs', hwf, -⟩
            by_contra hno
            exact hbad hno ⟨bs', hwf⟩
          · intro h
            obtain ⟨bs', hh⟩ := hgood h
            exact (hi.handed hh fun _ => hfree).wellFormed

/-- Calls in the callers' rights that split no block too small. -/
def HeapCall.Fitting (s : HeapState) (e : HeapCall) : Prop := e.Allowed s ∧ e.SplitFits s

theorem HeapInv.run (hi : HeapInv s bs) (hr : RunBy HeapCall.run HeapCall.Fitting s s') :
    (∃ bs', HeapInv s' bs') ∧ ∀ p ∈ s.returned, p ∈ s'.returned := by
  refine @RunBy.invariant _ _ _ _
    (fun t => (∃ bs', HeapInv t bs') ∧ ∀ p ∈ s.returned, p ∈ t.returned) ?_ _ _ hr
    ⟨⟨bs, hi⟩, fun p hp => hp⟩
  rintro t e t' ⟨⟨bs₁, hi₁⟩, hret⟩ ⟨hall, hfit⟩ hrun
  obtain ⟨t'', hrun', hret', hinv, -⟩ := hi₁.step hall
  obtain rfl := Option.some.inj (hrun.symm.trans hrun')
  exact ⟨hinv hfit, fun p hp => hret' p (hret p hp)⟩

/-- Along calls that split no block too small, the heap is well formed in every state, every
call returns, and a call leaves it well formed exactly when it splits no block too small. -/
theorem kmalloc_wellFormed {h₀ : Heap}
    (hr : RunBy HeapCall.run (fun s e => e.Allowed s ∧ e.SplitFits s) (initialHeap h₀) s) :
    s.WellFormed ∧ ∀ e : HeapCall, e.Allowed s →
      ∃ s', e.run s = some s' ∧ (s'.WellFormed ↔ e.SplitFits s) := by
  obtain ⟨⟨bs, hi⟩, -⟩ := (HeapInv.initial h₀).run hr
  refine ⟨hi.wellFormed, fun e he => ?_⟩
  obtain ⟨s', hrun, -, -, hiff⟩ := hi.step he
  exact ⟨s', hrun, hiff⟩

end

/-! ## Concrete runs

A block given back and handed out again, and a split that damages the heap. -/

instance (mem : Buf) (b size : Nat) : Decidable (LeavesRoom mem b size) :=
  inferInstanceAs (Decidable (_ ∨ _))

instance (s : HeapState) : (e : HeapCall) → Decidable (e.Allowed s)
  | .alloc size => inferInstanceAs (Decidable (0 < size ∧ size ≤ kmallocHeapSize))
  | .free p => inferInstanceAs (Decidable (p ∈ s.returned))

instance (s : HeapState) : (e : HeapCall) → Decidable (e.SplitFits s)
  | .free _ => isTrue trivial
  | .alloc size =>
      match h : findFreeBlock s.heap.mem s.heap.used size (s.heap.used + 1) 0 with
      | none => isTrue fun b hb => by rw [h] at hb; cases hb
      | some none => isTrue fun b hb => by rw [h] at hb; cases hb
      | some (some b) =>
          decidable_of_iff (LeavesRoom s.heap.mem b size) ⟨fun hl c hc => by
            rw [h] at hc
            cases hc
            exact hl, fun hall => hall b h⟩

instance (s : HeapState) (e : HeapCall) : Decidable (e.Fitting s) :=
  inferInstanceAs (Decidable (_ ∧ _))

def blankHeap : Heap := ⟨Buf.zero, 0, false⟩

/-- The state after some calls from the start. -/
def heapAfter (cs : List HeapCall) : HeapState :=
  (cs.foldlM (fun s (e : HeapCall) => e.run s) (initialHeap blankHeap)).getD
    (initialHeap blankHeap)

theorem heapAfter_run (cs : List HeapCall)
    (hsome : (cs.foldlM (checkedStep HeapCall.run HeapCall.Fitting)
      (initialHeap blankHeap)).isSome = true) :
    RunBy HeapCall.run HeapCall.Fitting (initialHeap blankHeap) (heapAfter cs) := by
  obtain ⟨s, hs⟩ := Option.isSome_iff_exists.mp hsome
  have hrun : ∀ (cs : List HeapCall) (s s' : HeapState),
      cs.foldlM (checkedStep HeapCall.run HeapCall.Fitting) s = some s' →
      cs.foldlM (fun s (e : HeapCall) => e.run s) s = some s' := by
    intro cs
    induction cs with
    | nil => exact fun s s' h => h
    | cons e cs ih =>
        intro s s' h
        rw [List.foldlM_cons, Option.bind_eq_bind, Option.bind_eq_some_iff] at h ⊢
        obtain ⟨t, ht, hrest⟩ := h
        refine ⟨t, ?_, ih t s' hrest⟩
        unfold checkedStep at ht
        split at ht
        · exact ht
        · cases ht
  have hafter : heapAfter cs = s := by
    rw [heapAfter, hrun cs _ _ hs]
    rfl
  rw [hafter]
  exact RunBy.of_checked cs hs

theorem kmalloc_wellFormed_reused :
    (heapAfter [.alloc 20, .free 12, .alloc 8]).WellFormed ∧
    ∀ e : HeapCall, e.Allowed (heapAfter [.alloc 20, .free 12, .alloc 8]) →
      ∃ s', e.run (heapAfter [.alloc 20, .free 12, .alloc 8]) = some s'
        ∧ (s'.WellFormed ↔ e.SplitFits (heapAfter [.alloc 20, .free 12, .alloc 8])) :=
  kmalloc_wellFormed (heapAfter_run [.alloc 20, .free 12, .alloc 8] (by decide +kernel))

/-- A split that leaves four bytes writes a header over that of the next block. -/
theorem kmalloc_split_damages :
    (HeapCall.alloc 16).Allowed (heapAfter [.alloc 20, .alloc 20, .free 12])
    ∧ RunBy HeapCall.run HeapCall.Fitting (initialHeap blankHeap)
      (heapAfter [.alloc 20, .alloc 20, .free 12])
    ∧ ∃ s', (HeapCall.alloc 16).run (heapAfter [.alloc 20, .alloc 20, .free 12]) = some s'
      ∧ ¬ s'.WellFormed := by
  have hallowed : (HeapCall.alloc 16).Allowed (heapAfter [.alloc 20, .alloc 20, .free 12]) := by
    decide +kernel
  have hrun := heapAfter_run [.alloc 20, .alloc 20, .free 12] (by decide +kernel)
  have hsplit : ¬ (HeapCall.alloc 16).SplitFits (heapAfter [.alloc 20, .alloc 20, .free 12]) := by
    decide +kernel
  obtain ⟨⟨bs, hi⟩, -⟩ := (HeapInv.initial blankHeap).run hrun
  obtain ⟨s', hs', -, -, hiff⟩ := hi.step hallowed
  exact ⟨hallowed, hrun, s', hs', fun hwf => hsplit (hiff.mp hwf)⟩

end IpoOs
