import IpoOs.Kmalloc
import IpoOs.Runs
import IpoOs.Tiling

/-!
# The heap stays a tiling

A heap is well formed when its headers tile it from the start to
`heap_used`. `find_free_block` is then a search in the list of blocks, a
block taken at the end extends the tiling, and a block that is split cuts
it; the cut is a tiling again exactly when the remainder is large enough
for a header of its own.

The addresses of the headers are kept beside the heap as a list, `bs`. All
of `kmalloc` is then three cases on this list: the first block that is free
and large enough is taken as it is, or split, or a block is added after the
last. What the caller is told of any of them is `Handed`.
-/

namespace IpoOs

/-! ## Headers

A header is twelve bytes of memory. Each setter changes its own field and
nothing outside the header. -/

section

variable {m m' : Buf} {b : Nat}

theorem header_congr (h : ∀ i, b ≤ i → i < b + 9 → m' i = m i) :
    blockSize m' b = blockSize m b ∧ blockMagic m' b = blockMagic m b
      ∧ blockFree m' b = blockFree m b := by
  refine ⟨congrArg UInt32.toNat (Buf.word_congr fun k hk => h _ (by omega) (by omega)),
    Buf.word_congr fun k hk => h _ (by omega) (by omega), ?_⟩
  unfold blockFree
  rw [h (b + 8) (by omega) (by omega)]

/-- The three fields of a header written one after the other. -/
def writeHeader (m : Buf) (b size : Nat) (free : UInt8) : Buf :=
  setBlockFree (setBlockMagic (setBlockSize m b size) b kmallocMagic) b free

theorem writeHeader_of_outside {size : Nat} {free : UInt8} {i : Nat} (h : i < b ∨ b + 9 ≤ i) :
    writeHeader m b size free i = m i := by
  unfold writeHeader setBlockFree setBlockMagic setBlockSize Buf.putWord
  rw [Buf.putByte_of_ne (by omega), Buf.patch_out (by omega), Buf.patch_out (by omega)]

theorem setBlockSize_of_outside {size i : Nat} (h : i < b ∨ b + 4 ≤ i) :
    setBlockSize m b size i = m i := Buf.patch_out h

theorem setBlockFree_of_outside {v : UInt8} {i : Nat} (h : i ≠ b + 8) :
    setBlockFree m b v i = m i := Buf.putByte_of_ne h

theorem setBlockMagic_of_outside {v : UInt32} {i : Nat} (h : i < b + 4 ∨ b + 8 ≤ i) :
    setBlockMagic m b v i = m i := Buf.patch_out (by omega)

theorem zeroPayload_of_outside {size i : Nat} (h : i < b + 12 ∨ b + 12 + size ≤ i) :
    zeroPayload m b size i = m i := Buf.patch_out h

@[simp] theorem blockSize_setBlockSize {size : Nat} (h : size < 4294967296) :
    blockSize (setBlockSize m b size) b = size := by
  unfold blockSize setBlockSize
  rw [Buf.word_putWord_self, UInt32.toNat_ofNat']
  exact Nat.mod_eq_of_lt h

@[simp] theorem blockMagic_setBlockMagic (v : UInt32) :
    blockMagic (setBlockMagic m b v) b = v := Buf.word_putWord_self _ _ _

@[simp] theorem blockFree_setBlockFree (v : UInt8) :
    blockFree (setBlockFree m b v) b = (v ≠ 0 : Bool) := by
  unfold blockFree setBlockFree
  rw [Buf.putByte_self]

theorem setBlockFree_keeps (v : UInt8) :
    blockSize (setBlockFree m b v) b = blockSize m b
      ∧ blockMagic (setBlockFree m b v) b = blockMagic m b := by
  constructor
  · exact congrArg UInt32.toNat
      (Buf.word_congr fun k hk => setBlockFree_of_outside (by omega))
  · exact Buf.word_congr fun k hk => setBlockFree_of_outside (by omega)

theorem setBlockMagic_keeps (v : UInt32) :
    blockSize (setBlockMagic m b v) b = blockSize m b
      ∧ blockFree (setBlockMagic m b v) b = blockFree m b := by
  constructor
  · exact congrArg UInt32.toNat
      (Buf.word_congr fun k hk => setBlockMagic_of_outside (by omega))
  · unfold blockFree
    rw [setBlockMagic_of_outside (by omega)]

theorem setBlockSize_keeps (size : Nat) :
    blockMagic (setBlockSize m b size) b = blockMagic m b
      ∧ blockFree (setBlockSize m b size) b = blockFree m b := by
  constructor
  · exact Buf.word_congr fun k hk => setBlockSize_of_outside (by omega)
  · unfold blockFree
    rw [setBlockSize_of_outside (by omega)]

theorem writeHeader_spec {size : Nat} (h : size < 4294967296) (free : UInt8) :
    blockSize (writeHeader m b size free) b = size
      ∧ blockMagic (writeHeader m b size free) b = kmallocMagic
      ∧ blockFree (writeHeader m b size free) b = (free ≠ 0 : Bool) := by
  unfold writeHeader
  refine ⟨?_, ?_, blockFree_setBlockFree free⟩
  · rw [(setBlockFree_keeps free).1, (setBlockMagic_keeps kmallocMagic).1,
      blockSize_setBlockSize h]
  · rw [(setBlockFree_keeps free).2, blockMagic_setBlockMagic]

end

/-! ## Well-formed heaps

`Tiles` is from the library: a header at the start, the next one where the
block of the first ends, and so on to `heap_used`. The magic of each block
is one of two values, and the search relies on it: it gives up at a block
with another. -/

/-- The headers at `bs` tile the heap. -/
structure HeapWf (h : Heap) (bs : List Nat) : Prop where
  started : h.started = true
  tiles : Tiles (blockSize h.mem) 0 h.used bs
  size : ∀ b ∈ bs, 12 ≤ blockSize h.mem b
  magic : ∀ b ∈ bs, magicOk (blockMagic h.mem b) = true
  bound : h.used < kmallocHeapSize

/-- A free block of `total` bytes at least. -/
def freeOf (mem : Buf) (total b : Nat) : Bool :=
  blockFree mem b && decide (total ≤ blockSize mem b)

/-- A free block with room for `size` bytes. -/
def fits (mem : Buf) (size b : Nat) : Bool :=
  blockFree mem b && decide (size + 12 ≤ blockSize mem b)

/-- On a well-formed heap, `find_free_block` is a search in the list of blocks, for the size it
computes. -/
theorem findFreeBlock_find {mem : Buf} {used size : Nat} (hused : used < kmallocHeapSize)
    (n off : Nat) (bs : List Nat) (ht : Tiles (blockSize mem) off used bs)
    (hmagic : ∀ b ∈ bs, magicOk (blockMagic mem b) = true) (hn : bs.length < n) :
    findFreeBlock mem used size n off = some (bs.find? (freeOf mem (u32 (size + 12)))) := by
  have hk : kmallocHeapSize = 67108864 := rfl
  induction n generalizing off bs with
  | zero => omega
  | succ n ih =>
      cases bs with
      | nil =>
          have hoff : off = used := ht
          rw [findFreeBlock, if_neg (by omega)]
          rfl
      | cons b bs =>
          have hbound := ht.bounds (List.mem_cons_self)
          obtain ⟨rfl, -, hrest⟩ := ht
          have hnext : u32 (b + blockSize mem b) = b + blockSize mem b := u32_of_lt (by omega)
          rw [findFreeBlock, if_pos (by omega), if_neg (by simp [hmagic b List.mem_cons_self]),
            hnext]
          cases hfit : freeOf mem (u32 (size + 12)) b with
          | true =>
              have hfit' : blockFree mem b = true ∧ blockSize mem b ≥ u32 (size + 12) := by
                simpa [freeOf] using hfit
              rw [if_pos hfit', List.find?_cons_of_pos hfit]
          | false =>
              have hfit' : ¬ (blockFree mem b = true ∧ blockSize mem b ≥ u32 (size + 12)) := by
                simpa [freeOf] using hfit
              rw [if_neg hfit', List.find?_cons_of_neg (by simp [hfit])]
              exact ih _ bs hrest (fun c hc => hmagic c (List.mem_cons_of_mem _ hc))
                (Nat.lt_of_succ_lt_succ hn)

/-- The size that is searched for is the one asked for and a header, when it does not wrap. -/
theorem findFreeBlock_eq {mem : Buf} {used size : Nat} (hsize : size ≤ kmallocHeapSize)
    (hused : used < kmallocHeapSize) (n off : Nat) (bs : List Nat)
    (ht : Tiles (blockSize mem) off used bs) (hmagic : ∀ b ∈ bs, magicOk (blockMagic mem b) = true)
    (hn : bs.length < n) :
    findFreeBlock mem used size n off = some (bs.find? (fits mem size)) := by
  have hk : kmallocHeapSize = 67108864 := rfl
  have hu : u32 (size + 12) = size + 12 := u32_of_lt (by omega)
  rw [findFreeBlock_find hused n off bs ht hmagic hn, hu]
  rfl

/-- The header of block `c` is the same in both. -/
def SameHeader (m m' : Buf) (c : Nat) : Prop :=
  blockSize m' c = blockSize m c ∧ blockMagic m' c = blockMagic m c ∧ blockFree m' c = blockFree m c

section

variable {h : Heap} {bs : List Nat}

theorem HeapWf.fuel (wf : HeapWf h bs) : bs.length < h.used + 1 := by
  have := wf.tiles.length_le
  omega

theorem HeapWf.block (wf : HeapWf h bs) {b : Nat} (hb : b ∈ bs) :
    12 ≤ blockSize h.mem b ∧ b + blockSize h.mem b ≤ h.used ∧ h.used < 67108864 :=
  ⟨wf.size b hb, (wf.tiles.bounds hb).2.2, wf.bound⟩

theorem HeapWf.frame (wf : HeapWf h bs) {m' : Buf} (hm : ∀ c ∈ bs, SameHeader h.mem m' c) :
    HeapWf { h with mem := m' } bs where
  started := wf.started
  tiles := wf.tiles.congr fun c hc => (hm c hc).1
  size c hc := by
    rw [(hm c hc).1]
    exact wf.size c hc
  magic c hc := by
    rw [(hm c hc).2.1]
    exact wf.magic c hc
  bound := wf.bound

theorem HeapWf.same_of_outside (wf : HeapWf h bs) {b c : Nat} (hb : b ∈ bs) (hc : c ∈ bs)
    (hne : c ≠ b) {m' : Buf}
    (hout : ∀ i, i < b ∨ b + blockSize h.mem b ≤ i → m' i = h.mem i) : SameHeader h.mem m' c := by
  refine header_congr fun i hi hi' => hout i ?_
  have hsize := wf.size c hc
  rcases wf.tiles.disjoint hc hb hne with hd | hd
  · omega
  · omega

/-! ## Taking a block

A block of exactly the requested size is taken whole. A larger one is split
whatever is left, and a remainder of less than twelve bytes has its header
in part over the next block: after `takeFree_damage` no list of headers
tiles the heap at all. -/

/-- What handing out block `b` for `size` bytes leaves. -/
structure Handed (h h' : Heap) (bs bs' : List Nat) (b size : Nat) : Prop where
  wf : HeapWf h' bs'
  mem : b ∈ bs'
  old : ∀ c ∈ bs, c ∈ bs'
  free : blockFree h'.mem b = false
  room : size + 12 ≤ blockSize h'.mem b
  same : ∀ c ∈ bs, c ≠ b → SameHeader h.mem h'.mem c

theorem takeFresh_spec (wf : HeapWf h bs) {size : Nat} (hsize : size ≤ kmallocHeapSize)
    (hroom : h.used + (size + 12) < kmallocHeapSize) :
    ∃ h', (takeFresh h size).1 = some h.used
      ∧ (handOut (takeFresh h size).2 h.used size) = (some (h.used + 12), h')
      ∧ Handed h h' bs (bs ++ [h.used]) h.used size ∧ h'.used = h.used + (size + 12) := by
  have hk : kmallocHeapSize = 67108864 := rfl
  have hu : u32 (size + 12) = size + 12 := u32_of_lt (by omega)
  have hu' : u32 (h.used + (size + 12)) = h.used + (size + 12) := u32_of_lt (by omega)
  have htake : takeFresh h size = (some h.used,
      { h with mem := writeHeader h.mem h.used (size + 12) 0, used := h.used + (size + 12) }) := by
    unfold takeFresh
    simp only [hu, hu', if_neg (show ¬ h.used + (size + 12) ≥ kmallocHeapSize by omega)]
    rfl
  refine ⟨{ h with
    mem := zeroPayload (writeHeader h.mem h.used (size + 12) 0) h.used size
    used := h.used + (size + 12) }, by rw [htake], by rw [htake]; rfl, ?_, rfl⟩
  -- the header of the new block, and those before it
  have hnew := @writeHeader_spec h.mem h.used (size + 12) (by omega) 0
  have hzero : SameHeader (writeHeader h.mem h.used (size + 12) 0)
      (zeroPayload (writeHeader h.mem h.used (size + 12) 0) h.used size) h.used :=
    header_congr fun i hi hi' => zeroPayload_of_outside (by omega)
  have hsame : ∀ c ∈ bs, SameHeader h.mem
      (zeroPayload (writeHeader h.mem h.used (size + 12) 0) h.used size) c := by
    intro c hc
    obtain ⟨h1, h2, -⟩ := wf.block hc
    refine header_congr fun i hi hi' => ?_
    rw [zeroPayload_of_outside (by omega), writeHeader_of_outside (by omega)]
  have hsizeb := hzero.1.trans hnew.1
  refine ⟨⟨wf.started, ?_, ?_, ?_, hroom⟩, ?_, fun c hc => List.mem_append_left _ hc, ?_, ?_,
    fun c hc _ => hsame c hc⟩
  · have ht := wf.tiles.congr fun c hc => (hsame c hc).1
    have hcat := ht.concat (by rw [hsizeb]; omega)
    rwa [hsizeb] at hcat
  · intro c hc
    rcases List.mem_append.mp hc with hc | hc
    · rw [(hsame c hc).1]
      exact wf.size c hc
    · rw [List.mem_singleton.mp hc, hsizeb]
      omega
  · intro c hc
    rcases List.mem_append.mp hc with hc | hc
    · rw [(hsame c hc).2.1]
      exact wf.magic c hc
    · rw [List.mem_singleton.mp hc, hzero.2.1, hnew.2.1]
      rfl
  · exact List.mem_append_right _ (List.mem_singleton.mpr rfl)
  · rw [hzero.2.2, hnew.2.2]
    rfl
  · rw [hsizeb]

theorem takeFree_exact (wf : HeapWf h bs) {b size : Nat} (hb : b ∈ bs)
    (heq : blockSize h.mem b = size + 12) :
    Handed h (handOut (takeFree h b size) b size).2 bs bs b size := by
  obtain ⟨-, h2, h3⟩ := wf.block hb
  have hu : u32 (size + 12) = size + 12 := u32_of_lt (by omega)
  have hmem : (handOut (takeFree h b size) b size).2
      = { h with mem := zeroPayload (setBlockFree h.mem b 0) b size } := by
    unfold takeFree handOut
    rw [hu, if_neg (by omega)]
  rw [hmem]
  have hzero : SameHeader (setBlockFree h.mem b 0)
      (zeroPayload (setBlockFree h.mem b 0) b size) b :=
    header_congr fun i hi hi' => zeroPayload_of_outside (by omega)
  have hkeep := @setBlockFree_keeps h.mem b 0
  have hsame : ∀ c ∈ bs, c ≠ b →
      SameHeader h.mem (zeroPayload (setBlockFree h.mem b 0) b size) c := by
    intro c hc hne
    refine wf.same_of_outside hb hc hne fun i hi => ?_
    rw [zeroPayload_of_outside (by omega), setBlockFree_of_outside (by omega)]
  have hsizes : ∀ c ∈ bs, blockSize (zeroPayload (setBlockFree h.mem b 0) b size) c
        = blockSize h.mem c
      ∧ blockMagic (zeroPayload (setBlockFree h.mem b 0) b size) c = blockMagic h.mem c := by
    intro c hc
    rcases eq_or_ne c b with rfl | hne
    · exact ⟨hzero.1.trans hkeep.1, hzero.2.1.trans hkeep.2⟩
    · exact ⟨(hsame c hc hne).1, (hsame c hc hne).2.1⟩
  refine ⟨⟨wf.started, wf.tiles.congr fun c hc => (hsizes c hc).1, fun c hc => ?_, fun c hc => ?_,
    wf.bound⟩, hb, fun c hc => hc, ?_, ?_, hsame⟩
  · rw [(hsizes c hc).1]
    exact wf.size c hc
  · rw [(hsizes c hc).2]
    exact wf.magic c hc
  · rw [hzero.2.2, blockFree_setBlockFree]
    rfl
  · rw [(hsizes b hb).1, heq]

def splitMem (m : Buf) (b size left : Nat) : Buf :=
  zeroPayload (setBlockFree (setBlockSize (writeHeader m (b + (size + 12)) left 1) b (size + 12))
    b 0) b size

theorem takeFree_split (wf : HeapWf h bs) {b size : Nat} (hb : b ∈ bs)
    (hlt : size + 12 < blockSize h.mem b) :
    (handOut (takeFree h b size) b size).2
      = { h with mem := splitMem h.mem b size (blockSize h.mem b - (size + 12)) } := by
  obtain ⟨-, h2, h3⟩ := wf.block hb
  have hu : u32 (size + 12) = size + 12 := u32_of_lt (by omega)
  have hu' : u32 (b + (size + 12)) = b + (size + 12) := u32_of_lt (by omega)
  unfold takeFree handOut splitBlock
  simp only [hu, hu', if_pos hlt, if_neg (show ¬ blockSize h.mem b ≤ size + 12 by omega),
    sub32_of_le (le_of_lt hlt) (show blockSize h.mem b < 4294967296 by omega)]
  rfl

/-- The two headers of a split: that of the block, and that of the remainder. -/
theorem splitMem_headers (m : Buf) (b : Nat) {size left : Nat} (hsize : size + 12 < 4294967296)
    (hleft : left < 4294967296) :
    (blockSize (splitMem m b size left) b = size + 12
        ∧ blockMagic (splitMem m b size left) b = blockMagic m b
        ∧ blockFree (splitMem m b size left) b = false)
      ∧ blockSize (splitMem m b size left) (b + (size + 12)) = left
      ∧ blockMagic (splitMem m b size left) (b + (size + 12)) = kmallocMagic
      ∧ blockFree (splitMem m b size left) (b + (size + 12)) = true := by
  unfold splitMem
  generalize hw : writeHeader m (b + (size + 12)) left 1 = w
  have hwb : SameHeader m w b := by
    rw [← hw]
    exact header_congr fun i hi hi' => writeHeader_of_outside (by omega)
  have hwr := @writeHeader_spec m (b + (size + 12)) left hleft 1
  rw [hw] at hwr
  have hzero : SameHeader (setBlockFree (setBlockSize w b (size + 12)) b 0)
      (zeroPayload (setBlockFree (setBlockSize w b (size + 12)) b 0) b size) b :=
    header_congr fun i hi hi' => zeroPayload_of_outside (by omega)
  have hkeep := @setBlockFree_keeps (setBlockSize w b (size + 12)) b 0
  refine ⟨⟨?_, ?_, ?_⟩, ?_⟩
  · rw [hzero.1, hkeep.1, blockSize_setBlockSize hsize]
  · rw [hzero.2.1, hkeep.2, (setBlockSize_keeps (size + 12)).1, hwb.2.1]
  · rw [hzero.2.2, blockFree_setBlockFree]
    rfl
  · have hrest : SameHeader w
        (zeroPayload (setBlockFree (setBlockSize w b (size + 12)) b 0) b size)
        (b + (size + 12)) := by
      refine header_congr fun i hi hi' => ?_
      rw [zeroPayload_of_outside (by omega), setBlockFree_of_outside (by omega),
        setBlockSize_of_outside (by omega)]
    exact ⟨hrest.1.trans hwr.1, hrest.2.1.trans hwr.2.1, hrest.2.2.trans hwr.2.2⟩

theorem splitMem_of_outside {m : Buf} {b size left i : Nat}
    (hi : i < b ∨ b + (size + 12) + 9 ≤ i) : splitMem m b size left i = m i := by
  unfold splitMem
  rw [zeroPayload_of_outside (by omega), setBlockFree_of_outside (by omega),
    setBlockSize_of_outside (by omega), writeHeader_of_outside (by omega)]

theorem takeFree_cut (wf : HeapWf h bs) {b size : Nat} (hb : b ∈ bs)
    (hlt : size + 24 ≤ blockSize h.mem b) :
    ∃ bs', Handed h (handOut (takeFree h b size) b size).2 bs bs' b size := by
  obtain ⟨-, h2, h3⟩ := wf.block hb
  obtain ⟨xs, ys, rfl⟩ := List.append_of_mem hb
  rw [takeFree_split wf hb (by omega)]
  obtain ⟨⟨hs, hm, hf⟩, hs', hm', hf'⟩ := splitMem_headers h.mem b
    (show size + 12 < 4294967296 by omega)
    (show blockSize h.mem b - (size + 12) < 4294967296 by omega)
  generalize hmem : splitMem h.mem b size (blockSize h.mem b - (size + 12))
    = m' at hs hm hf hs' hm' hf' ⊢
  have hsame : ∀ c ∈ xs ++ b :: ys, c ≠ b → SameHeader h.mem m' c := by
    intro c hc hne
    refine wf.same_of_outside hb hc hne fun i hi => ?_
    rw [← hmem]
    exact splitMem_of_outside (by omega)
  have hnd := wf.tiles.nodup
  have hne : ∀ c ∈ xs ++ ys, c ∈ xs ++ b :: ys ∧ c ≠ b := by
    intro c hc
    have hnb := (List.nodup_middle.mp hnd)
    refine ⟨?_, fun heq => (List.nodup_cons.mp hnb).1 (heq ▸ hc)⟩
    rcases List.mem_append.mp hc with hc | hc
    · exact List.mem_append_left _ hc
    · exact List.mem_append_right _ (List.mem_cons_of_mem _ hc)
  have hcases : ∀ c ∈ xs ++ b :: (b + (size + 12)) :: ys,
      c ∈ xs ++ ys ∨ c = b ∨ c = b + (size + 12) := by
    intro c hc
    simp only [List.mem_append, List.mem_cons] at hc ⊢
    tauto
  refine ⟨xs ++ b :: (b + (size + 12)) :: ys, ⟨wf.started, ?_, fun c hc => ?_, fun c hc => ?_,
    wf.bound⟩, ?_, fun c hc => ?_, hf, hs.ge, hsame⟩
  · refine wf.tiles.cut (fun c hc => (hsame c (hne c hc).1 (hne c hc).2).1) ?_ ?_ ?_ ?_
    · show b + (size + 12) = b + blockSize m' b
      rw [hs]
    · show 0 < blockSize m' b
      rw [hs]
      omega
    · show blockSize m' b + blockSize m' (b + (size + 12)) = blockSize h.mem b
      rw [hs, hs']
      omega
    · show 0 < blockSize m' (b + (size + 12))
      rw [hs']
      omega
  · rcases hcases c hc with hc | rfl | rfl
    · rw [show blockSize _ c = blockSize m' c from rfl, (hsame c (hne c hc).1 (hne c hc).2).1]
      exact wf.size c (hne c hc).1
    · show 12 ≤ blockSize m' c
      rw [hs]
      omega
    · show 12 ≤ blockSize m' (b + (size + 12))
      rw [hs']
      omega
  · rcases hcases c hc with hc | rfl | rfl
    · rw [show blockMagic _ c = blockMagic m' c from rfl, (hsame c (hne c hc).1 (hne c hc).2).2.1]
      exact wf.magic c (hne c hc).1
    · show magicOk (blockMagic m' c) = true
      rw [hm]
      exact wf.magic c hb
    · show magicOk (blockMagic m' (b + (size + 12))) = true
      rw [hm']
      rfl
  · exact List.mem_append_right _ List.mem_cons_self
  · simp only [List.mem_append, List.mem_cons] at hc ⊢
    tauto

/-- A split whose remainder has no room for a header: no headers tile the heap then. -/
theorem takeFree_damage (wf : HeapWf h bs) {b size : Nat} (hb : b ∈ bs)
    (hlt : size + 12 < blockSize h.mem b) (hsmall : blockSize h.mem b < size + 24) :
    ¬ ∃ bs', HeapWf (handOut (takeFree h b size) b size).2 bs' := by
  obtain ⟨-, h2, h3⟩ := wf.block hb
  obtain ⟨xs, ys, rfl⟩ := List.append_of_mem hb
  rw [takeFree_split wf hb hlt]
  obtain ⟨⟨hs, -, -⟩, hs', -, -⟩ := splitMem_headers h.mem b
    (show size + 12 < 4294967296 by omega)
    (show blockSize h.mem b - (size + 12) < 4294967296 by omega)
  generalize hmem : splitMem h.mem b size (blockSize h.mem b - (size + 12)) = m' at hs hs' ⊢
  rintro ⟨bs', wf'⟩
  -- the walk gets to the remainder, whose header is too small a size
  obtain ⟨mid, hxs, rfl, hpos, hrest⟩ := Tiles.append.mp wf.tiles
  have hkeep : ∀ c ∈ xs, blockSize m' c = blockSize h.mem c := by
    intro c hc
    have hbound := hxs.bounds hc
    have hsize := wf.size c (List.mem_append_left _ hc)
    refine (header_congr fun i hi hi' => ?_).1
    rw [← hmem]
    exact splitMem_of_outside (by omega)
  obtain ⟨ds, rfl, hds⟩ := hxs.walk_prefix wf'.tiles (show b ≤ h.used by omega) hkeep
  obtain ⟨es, rfl, hes⟩ := hds.head_eq (show b < h.used by omega)
  rw [show blockSize _ b = size + 12 from hs] at hes
  obtain ⟨fs, rfl, -⟩ := hes.head_eq (show b + (size + 12) < h.used by omega)
  have hbad := wf'.size (b + (size + 12)) (by simp)
  rw [show blockSize _ (b + (size + 12)) = _ from hs'] at hbad
  omega

end

end IpoOs
