import IpoOs.KmallocRun

/-!
# Sizes the allocator serves

The sum of a size and a header wraps for the last twelve sizes, and the sum
of `heap_used` and a request wraps for those before them. A size for which
neither sum wraps is refused or served with all the memory it asked for.
One for which a sum wraps is served with less, unless nothing was free and
the wrapped request did not fit at the end of the heap either.

A request comes as a word, and twelve bytes are added before anything is
compared with the size of the heap. `SizeOk` is the condition read from the
source: it speaks of the size, `heap_used` and the free blocks, never of
what was returned. Each direction is one of the cases of `kmalloc` in
`KmallocWf`, with the wrapped sum in place of the request.
-/

namespace IpoOs

/-- The result of a request for `size` bytes from heap `h`, whose blocks are `bs`: `NULL`, with
`heap_used` and all headers as they were, or a pointer whose header and `size` bytes are in the
heap and in the block of that header. -/
def Serves (h : Heap) (bs : List Nat) (size : Nat) (r : Option Nat × Heap) : Prop :=
  (r.1 = none ∧ r.2.used = h.used ∧ ∀ c, SameHeader h.mem r.2.mem c)
  ∨ ∃ b, r.1 = some (b + 12) ∧ (b ∈ bs ∨ b = h.used) ∧ b + 12 + size ≤ kmallocHeapSize
    ∧ size + 12 ≤ blockSize r.2.mem b

/-- No sum wraps, or the request that is left after it wrapped finds no memory. -/
def SizeOk (h : Heap) (bs : List Nat) (size : Nat) : Prop :=
  size = 0 ∨ h.used + size + 12 < 4294967296
  ∨ (4294967296 ≤ size + 12 ∧ (∀ b ∈ bs, blockFree h.mem b = false)
    ∧ kmallocHeapSize ≤ h.used + (size + 12 - 4294967296))

section

variable {h : Heap} {bs : List Nat} {size : Nat}

theorem Serves.refused : Serves h bs size (none, h) := Or.inl ⟨rfl, rfl, fun _ => ⟨rfl, rfl, rfl⟩⟩

theorem not_serves {p : Nat} {h' : Heap} (hsize : kmallocHeapSize ≤ size) :
    ¬ Serves h bs size (some p, h') := by
  rintro (⟨hnone, -⟩ | ⟨b, -, -, hin, -⟩)
  · cases hnone
  · omega

/-- A free block that is large enough has the size that was asked for, whatever the split does to
what is behind it. -/
theorem takeFree_room (wf : HeapWf h bs) {b : Nat} (hb : b ∈ bs)
    (hfit : size + 12 ≤ blockSize h.mem b) :
    size + 12 ≤ blockSize (handOut (takeFree h b size) b size).2.mem b := by
  obtain ⟨-, h2, h3⟩ := wf.block hb
  rcases Nat.eq_or_lt_of_le hfit with heq | hlt
  · exact (takeFree_exact wf hb heq.symm).room
  · rw [takeFree_split wf hb hlt]
    obtain ⟨⟨hs, -, -⟩, -⟩ := splitMem_headers h.mem b (show size + 12 < 4294967296 by omega)
      (show blockSize h.mem b - (size + 12) < 4294967296 by omega)
    exact hs.ge

theorem kmalloc_serves (wf : HeapWf h bs) (hpos : 0 < size) (hsize : size ≤ kmallocHeapSize) :
    ∃ r, kmalloc (h.used + 1) size h = some r ∧ Serves h bs size r := by
  obtain ⟨p, h', hrun, hcases⟩ := kmalloc_spec wf hpos hsize
  refine ⟨(p, h'), hrun, ?_⟩
  rcases hcases with ⟨-, rfl, rfl, -⟩ | ⟨-, rfl, hhand, hused⟩ | ⟨b, hfind, rfl, -, -, -⟩
  · exact Serves.refused
  · have hbound := hhand.wf.bound
    exact Or.inr ⟨h.used, rfl, Or.inr rfl, by omega, hhand.room⟩
  · have hb := List.mem_of_find?_eq_some hfind
    have hfit : blockFree h.mem b = true ∧ size + 12 ≤ blockSize h.mem b := by
      simpa [fits] using List.find?_some hfind
    obtain ⟨-, h2, -⟩ := wf.block hb
    have hbound := wf.bound
    refine Or.inr ⟨b, rfl, Or.inl hb, by omega, ?_⟩
    have hout : kmalloc (h.used + 1) size h = some (handOut (takeFree h b size) b size) := by
      unfold kmalloc
      simp only [if_neg (Nat.ne_of_gt hpos), wf.started, if_true]
      rw [findFreeBlock_eq hsize wf.bound (h.used + 1) 0 bs wf.tiles wf.magic wf.fuel, hfind]
    rw [show (some (b + 12), h') = handOut (takeFree h b size) b size from
      Option.some.inj (hrun.symm.trans hout)]
    exact takeFree_room wf hb hfit.2

/-- A request larger than the heap is refused or ends in a pointer. -/
theorem kmalloc_large (wf : HeapWf h bs) (hsize : kmallocHeapSize ≤ size) :
    ∃ r, kmalloc (h.used + 1) size h = some r
      ∧ (((∀ b ∈ bs, freeOf h.mem (u32 (size + 12)) b = false)
          ∧ kmallocHeapSize ≤ u32 (h.used + u32 (size + 12)) ∧ r = (none, h))
        ∨ (¬ ((∀ b ∈ bs, freeOf h.mem (u32 (size + 12)) b = false)
          ∧ kmallocHeapSize ≤ u32 (h.used + u32 (size + 12))) ∧ ∃ p h', r = (some p, h'))) := by
  have hk : kmallocHeapSize = 67108864 := rfl
  have hpos : size ≠ 0 := by omega
  unfold kmalloc
  simp only [if_neg hpos, wf.started, if_true]
  rw [findFreeBlock_find wf.bound (h.used + 1) 0 bs wf.tiles wf.magic wf.fuel]
  cases hfind : bs.find? (freeOf h.mem (u32 (size + 12))) with
  | some b =>
      refine ⟨_, rfl, Or.inr ⟨fun hno => ?_, _, _, rfl⟩⟩
      have hfalse := hno.1 b (List.mem_of_find?_eq_some hfind)
      rw [List.find?_some hfind] at hfalse
      cases hfalse
  | none =>
      have hall : ∀ b ∈ bs, freeOf h.mem (u32 (size + 12)) b = false := fun b hb => by
        simpa using List.find?_eq_none.mp hfind b hb
      dsimp only
      unfold takeFresh
      simp only
      rcases em (u32 (h.used + u32 (size + 12)) ≥ kmallocHeapSize) with hroom | hroom
      · rw [if_pos hroom]
        exact ⟨_, rfl, Or.inl ⟨hall, hroom, rfl⟩⟩
      · rw [if_neg hroom]
        exact ⟨_, rfl, Or.inr ⟨fun hno => hroom hno.2, _, _, rfl⟩⟩

end

/-- On every well-formed heap `kmalloc` refuses a request, or serves it with a pointer to all the
memory it asked for, exactly when no sum with the size wraps or the request that is left after
that finds no memory. -/
theorem kmalloc_serves_iff {h : Heap} {bs : List Nat} (wf : HeapWf h bs) (size : UInt32) :
    ∃ r, kmalloc (h.used + 1) size.toNat h = some r
      ∧ (Serves h bs size.toNat r ↔ SizeOk h bs size.toNat) := by
  have hk : kmallocHeapSize = 67108864 := rfl
  have hlt := size.toNat_lt
  have hbound := wf.bound
  generalize size.toNat = n at hlt
  rcases Nat.eq_zero_or_pos n with rfl | hpos
  · exact ⟨(none, h), rfl, iff_of_true Serves.refused (Or.inl rfl)⟩
  rcases Nat.lt_or_ge kmallocHeapSize n with hlarge | hsmall
  · obtain ⟨r, hrun, ⟨hall, hroom, rfl⟩ | ⟨hno, p, h', rfl⟩⟩ :=
      kmalloc_large wf (Nat.le_of_lt hlarge)
    · -- refused: no sum wraps, or the rest finds no memory
      refine ⟨_, hrun, iff_of_true Serves.refused ?_⟩
      rcases Nat.lt_or_ge (h.used + n + 12) 4294967296 with hsum | hsum
      · exact Or.inr (Or.inl hsum)
      · rcases Nat.lt_or_ge (n + 12) 4294967296 with hone | hone
        · unfold u32 at hroom
          omega
        · refine Or.inr (Or.inr ⟨hone, fun b hb => ?_, ?_⟩)
          · have hfree := hall b hb
            have hsize := wf.size b hb
            have htotal : u32 (n + 12) ≤ blockSize h.mem b := by
              unfold u32
              omega
            simpa [freeOf, htotal] using hfree
          · unfold u32 at hroom
            omega
    · refine ⟨_, hrun, iff_of_false (not_serves (Nat.le_of_lt hlarge)) ?_⟩
      rintro (h0 | hsum | ⟨hone, hfree, hroom⟩)
      · omega
      · refine hno ⟨fun b hb => ?_, ?_⟩
        · obtain ⟨-, h2, -⟩ := wf.block hb
          have htotal : ¬ u32 (n + 12) ≤ blockSize h.mem b := by
            unfold u32
            omega
          simp [freeOf, htotal]
        · unfold u32
          omega
      · refine hno ⟨fun b hb => ?_, ?_⟩
        · unfold freeOf
          rw [hfree b hb, Bool.false_and]
        · unfold u32
          omega
  · obtain ⟨r, hrun, hserves⟩ := kmalloc_serves wf hpos hsmall
    exact ⟨r, hrun, iff_of_true hserves (Or.inr (Or.inl (by omega)))⟩

/-- The heap after `kmalloc_init`. -/
def emptyHeap : Heap := ⟨Buf.zero, 0, true⟩

theorem emptyHeap_wf : HeapWf emptyHeap [] where
  started := rfl
  tiles := rfl
  size b hb := absurd hb List.not_mem_nil
  magic b hb := absurd hb List.not_mem_nil
  bound := by decide

theorem kmalloc_serves_iff_eight :
    ∃ r, kmalloc 1 8 emptyHeap = some r ∧ (Serves emptyHeap [] 8 r ↔ SizeOk emptyHeap [] 8) :=
  kmalloc_serves_iff emptyHeap_wf 8

/-- A request for all but four bytes of the address space is served with eight bytes. -/
theorem kmalloc_wraps :
    HeapWf emptyHeap [] ∧ ∃ h', kmalloc 1 (4294967292 : UInt32).toNat emptyHeap = some (some 12, h')
      ∧ h'.used = 8 ∧ ¬ Serves emptyHeap [] (4294967292 : UInt32).toNat (some 12, h') :=
  ⟨emptyHeap_wf, _, rfl, rfl, not_serves (by decide)⟩

end IpoOs
