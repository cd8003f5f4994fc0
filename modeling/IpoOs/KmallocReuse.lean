import IpoOs.KmallocRun

/-!
# Memory that can be used again

`kfree` looks for the magic that a block has when it is new, and leaves the
freed magic; `kmalloc` does not put the first one back when it hands out a
freed block. So a block can be given back once: it is marked free exactly
when it still carries the magic of a new block.

So the whole of what a caller expects of `kfree` (`AvailableAgain`) holds of
a block in its first life and of no other: the second `kfree` of a block
that was handed out twice returns at once, and the memory stays taken for
good.
-/

namespace IpoOs

/-- Calls in the callers' rights that leave the heap well formed. -/
def HeapCall.KeepsWellFormed (s : HeapState) (e : HeapCall) : Prop :=
  e.Allowed s ∧ ∀ s', e.run s = some s' → s'.WellFormed

/-- A run in which the heap is well formed all along. -/
abbrev WellFormedRun : HeapState → HeapState → Prop :=
  RunBy HeapCall.run HeapCall.KeepsWellFormed

/-- The state after `kfree(p)`. -/
def HeapState.freed (s : HeapState) (p : Nat) : HeapState :=
  { s with heap := kfree (some p) s.heap, live := s.live.filter fun a => a.1 ≠ p }

/-- What a caller expects of `kfree(p)`: the block is free, the next `kmalloc` that it is
large enough for takes no new memory, and until `p` is handed out again another `kfree(p)`
changes nothing. -/
def HeapState.AvailableAgain (s : HeapState) (p : Nat) : Prop :=
  blockFree (s.freed p).heap.mem (p - 12) = true
  ∧ (∀ n, 0 < n → n + 12 ≤ blockSize s.heap.mem (p - 12) → ∃ q h',
      kmalloc ((s.freed p).heap.used + 1) n (s.freed p).heap = some (some q, h')
      ∧ h'.used = s.heap.used)
  ∧ ∀ s', WellFormedRun (s.freed p) s' → (∀ a ∈ s'.live, a.1 ≠ p) →
      kfree (some p) s'.heap = s'.heap

section

variable {s s' : HeapState} {bs : List Nat}

/-- From a state whose pointers are accounted for, the heap stays well formed exactly along the
runs that split no block too small. -/
theorem HeapInv.wellFormedRun (hi : HeapInv s bs) (hr : WellFormedRun s s') :
    (∃ bs', HeapInv s' bs') ∧ ∀ p ∈ s.returned, p ∈ s'.returned := by
  refine @RunBy.invariant _ _ _ _
    (fun t => (∃ bs', HeapInv t bs') ∧ ∀ p ∈ s.returned, p ∈ t.returned) ?_ _ _ hr
    ⟨⟨bs, hi⟩, fun p hp => hp⟩
  rintro t e t' ⟨⟨bs₁, hi₁⟩, hret⟩ ⟨hall, hkeep⟩ hrun
  obtain ⟨t'', hrun', hret', hinv, hiff⟩ := hi₁.step hall
  obtain rfl := Option.some.inj (hrun.symm.trans hrun')
  exact ⟨hinv (hiff.mp (hkeep t' hrun)), fun p hp => hret' p (hret p hp)⟩

theorem HeapInv.wellFormedRun_of_fitting (hi : HeapInv s bs)
    (hr : RunBy HeapCall.run HeapCall.Fitting s s') : WellFormedRun s s' := by
  induction hr with
  | refl => exact .refl
  | tail hr hs ih =>
      obtain ⟨e, ⟨hall, hfit⟩, hrun⟩ := hs
      obtain ⟨⟨bs₁, hi₁⟩, -⟩ := hi.run hr
      obtain ⟨t, hrun', -, -, hiff⟩ := hi₁.step hall
      obtain rfl := Option.some.inj (hrun.symm.trans hrun')
      refine ih.tail ⟨e, ⟨hall, fun t' hrun' => ?_⟩, hrun⟩
      obtain rfl := Option.some.inj (hrun.symm.trans hrun')
      exact hiff.mpr hfit

/-- With a free block that is large enough, `kmalloc` takes no new memory. -/
theorem kmalloc_of_fits {h : Heap} (wf : HeapWf h bs) {n b : Nat} (hpos : 0 < n)
    (hsize : n ≤ kmallocHeapSize) (hb : b ∈ bs) (hfree : blockFree h.mem b = true)
    (hroom : n + 12 ≤ blockSize h.mem b) :
    ∃ q h', kmalloc (h.used + 1) n h = some (some q, h') ∧ h'.used = h.used := by
  have hfit : fits h.mem n b = true := by
    unfold fits
    rw [hfree, decide_eq_true hroom]
    rfl
  have hfound : bs.find? (fits h.mem n) ≠ none := by
    intro hnone
    exact absurd hfit (List.find?_eq_none.mp hnone b hb)
  obtain ⟨r, h', hrun, ⟨hf, -⟩ | ⟨hf, -⟩ | ⟨c, -, rfl, hused, -⟩⟩ := kmalloc_spec wf hpos hsize
  · exact absurd hf hfound
  · exact absurd hf hfound
  · exact ⟨c + 12, h', hrun, hused⟩

/-- After any history that leaves the heap well formed, an allocation is available again after
`kfree` exactly when its block carries the magic of a new block. -/
theorem kfree_available {h₀ : Heap} (hr : WellFormedRun (initialHeap h₀) s) {p n : Nat}
    (hp : (p, n) ∈ s.live) :
    s.AvailableAgain p ↔ blockMagic s.heap.mem (p - 12) = kmallocMagic := by
  obtain ⟨⟨bs, hi⟩, -⟩ := (HeapInv.initial h₀).wellFormedRun hr
  obtain ⟨b, hb, rfl, hnot, -⟩ := hi.live _ hp
  have hret : b + 12 ∈ s.returned := hi.known _ hp
  obtain ⟨hwf, hused, -, hfreed, hnoop⟩ := kfree_spec hi.wf hb
  have hsub : b + 12 - 12 = b := Nat.add_sub_cancel b 12
  constructor
  · rintro ⟨hfree, -, -⟩
    rw [hsub] at hfree ⊢
    by_contra hm
    rw [show (s.freed (b + 12)).heap = s.heap from hnoop (Or.inl hm), hnot] at hfree
    cases hfree
  · intro hm
    rw [hsub] at hm
    obtain ⟨-, hfree, hsize⟩ := hfreed hm hnot
    refine ⟨?_, fun k hk hroom => ?_, fun s' hr' hdead => ?_⟩
    · rw [hsub]
      exact hfree
    · rw [hsub] at hroom
      obtain ⟨-, hend, hbound⟩ := hi.wf.block hb
      have hlimit : kmallocHeapSize = 67108864 := rfl
      obtain ⟨q, h', hrun, hused'⟩ := kmalloc_of_fits hwf hk (by omega) hb hfree
        (by rw [hsize]; exact hroom)
      exact ⟨q, h', hrun, hused'.trans hused⟩
    · obtain ⟨⟨bs', hi'⟩, hret'⟩ := (hi.freePtr hret).wellFormedRun hr'
      exact hi'.kfree_twice (hret' _ hret) hdead

end

theorem kfree_available_new :
    (heapAfter [.alloc 8]).AvailableAgain 12
      ↔ blockMagic (heapAfter [.alloc 8]).heap.mem (12 - 12) = kmallocMagic :=
  @kfree_available _ blankHeap
    ((HeapInv.initial blankHeap).wellFormedRun_of_fitting
      (heapAfter_run [.alloc 8] (by decide +kernel))) 12 8 (by decide +kernel)

/-- A block handed out for the second time is not free after `kfree`, and so each further round
of `kmalloc` and `kfree` can take new memory. -/
theorem kfree_leaks_reused :
    WellFormedRun (initialHeap blankHeap) (heapAfter [.alloc 8, .free 12, .alloc 8])
    ∧ (12, 8) ∈ (heapAfter [.alloc 8, .free 12, .alloc 8]).live
    ∧ ¬ (heapAfter [.alloc 8, .free 12, .alloc 8]).AvailableAgain 12
    ∧ (heapAfter [.alloc 8, .free 12]).heap.used = 20
    ∧ (heapAfter [.alloc 8, .free 12, .alloc 8, .free 12, .alloc 8, .free 32]).heap.used = 40 := by
  refine ⟨(HeapInv.initial blankHeap).wellFormedRun_of_fitting
    (heapAfter_run [.alloc 8, .free 12, .alloc 8] (by decide +kernel)), by decide +kernel, ?_,
    by decide +kernel, by decide +kernel⟩
  intro h
  have hfree : blockFree ((heapAfter [.alloc 8, .free 12, .alloc 8]).freed 12).heap.mem (12 - 12)
      = false := by decide +kernel
  have hclaim := h.1
  rw [hfree] at hclaim
  cases hclaim

end IpoOs
