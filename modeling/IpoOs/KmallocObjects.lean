import IpoOs.KmallocRun
import Mathlib.Data.List.Nodup
import Mathlib.Logic.Function.Basic

/-!
# The heap as a store of objects

What the allocator is for: objects that come zeroed, that nobody else
changes, and that are there until they are given back. The store of objects
says which answers those who use the heap may get. An allocation is refused
only when all that was ever taken leaves no room for it; else it is an
object of zeros at an address clear of every other object. `kfree` of an
object takes out that object, and of a pointer that was given back before,
nothing. A byte that is read is the byte of the object.

The users keep to their rights: the sizes they ask for are positive and at
most the whole heap, they give back pointers that they were given, and they
read and write inside objects. Whatever they do with them, and as long as
no free block is split too small (which damages the heap), the heap gives
the answers of the store. The proof goes through the blocks: the headers
that tile the heap, with the payloads that were not given back between
them.
-/

namespace IpoOs

/-! ## Uses of the heap

What the users see: the pointer or the byte that came back. -/

/-- A use of the heap: a call of the allocator, or a byte at `i` behind a pointer written or
read. -/
inductive HeapUse where
  | alloc (size : Nat)
  | free (p : Nat)
  | store (p i : Nat) (v : UInt8)
  | load (p i : Nat)

/-- What is seen of a use. -/
inductive HeapAnswer where
  | pointer (p : Option Nat)
  | done
  | byte (v : UInt8)
  deriving DecidableEq

/-- One use; `none` when `kmalloc` does not return. -/
def HeapUse.run : HeapUse → Heap → Option (HeapAnswer × Heap)
  | .alloc size, h => (kmalloc (h.used + 1) size h).map fun r => (.pointer r.1, r.2)
  | .free p, h => some (.done, kfree (some p) h)
  | .store p i v, h => some (.done, { h with mem := h.mem.putByte (p + i) v })
  | .load p i, h => some (.byte (h.mem (p + i)), h)

/-- The free block that `kmalloc` takes is split only where a header fits into the rest. -/
def HeapUse.SplitFits (h : Heap) : HeapUse → Prop
  | .alloc size => ∀ b, findFreeBlock h.mem h.used size (h.used + 1) 0 = some (some b) →
      LeavesRoom h.mem b size
  | _ => True

/-- A use that splits no block too small, with its answer. -/
def HeapStep (h : Heap) (l : HeapUse × HeapAnswer) (h' : Heap) : Prop :=
  l.1.SplitFits h ∧ l.1.run h = some (l.2, h')

/-! ## The store of objects

A partial map from addresses to the bytes of objects, and the pointers that
were handed out. -/

/-- The bytes of the object at each address, the pointers that were given out, and the bytes that
all allocations have taken, with their headers. -/
structure Objects where
  bytes : Nat → Option (List UInt8)
  given : List Nat
  taken : Nat

namespace Objects

def none : Objects := ⟨fun _ => Option.none, [], 0⟩

/-- What the users of the heap may do. -/
def Allowed (o : Objects) : HeapUse → Prop
  | .alloc size => 0 < size ∧ size ≤ kmallocHeapSize
  | .free p => p ∈ o.given
  | .store p i _ => ∃ l, o.bytes p = some l ∧ i < l.length
  | .load p i => ∃ l, o.bytes p = some l ∧ i < l.length

end Objects

/-- One use of the store of objects, with an answer that it allows. -/
inductive ObjectStep (o : Objects) : HeapUse × HeapAnswer → Objects → Prop
  | refused {size : Nat} (hfull : kmallocHeapSize ≤ o.taken + (size + 12)) :
      ObjectStep o (.alloc size, .pointer none) o
  | made {size p : Nat} (hnew : o.bytes p = none) (hin : p + size < kmallocHeapSize)
      (hapart : ∀ q l, o.bytes q = some l → p + size ≤ q ∨ q + l.length ≤ p) :
      ObjectStep o (.alloc size, .pointer (some p))
        { bytes := Function.update o.bytes p (some (List.replicate size 0))
          given := p :: o.given
          taken := o.taken + (size + 12) }
  | freed {p : Nat} {l : List UInt8} (hl : o.bytes p = some l) :
      ObjectStep o (.free p, .done) { o with bytes := Function.update o.bytes p none }
  | dead {p : Nat} (hp : p ∈ o.given) (hnone : o.bytes p = none) : ObjectStep o (.free p, .done) o
  | stored {p i : Nat} {v : UInt8} {l : List UInt8} (hl : o.bytes p = some l) (hi : i < l.length) :
      ObjectStep o (.store p i v, .done)
        { o with bytes := Function.update o.bytes p (some (l.set i v)) }
  | loaded {p i : Nat} {v : UInt8} {l : List UInt8} (hl : o.bytes p = some l)
      (hv : l[i]? = some v) :
      ObjectStep o (.load p i, .byte v) o

/-! ## The objects of the heap

The map that a state of the heap stands for. -/

def payload (mem : Buf) (a : Nat × Nat) : List UInt8 := (List.range a.2).map fun i => mem (a.1 + i)

def startsAt (p : Nat) (a : Nat × Nat) : Bool := decide (a.1 = p)

/-- The allocations not given back, as objects. -/
def HeapState.objects (s : HeapState) (p : Nat) : Option (List UInt8) :=
  (s.live.find? (startsAt p)).map (payload s.heap.mem)

/-- The heap holds the objects: they are the payloads of its blocks that were not given back. -/
def HeapHolds (h : Heap) (o : Objects) : Prop :=
  ∃ s bs, HeapInv s bs ∧ s.heap = h ∧ s.returned = o.given ∧ s.objects = o.bytes ∧ h.used ≤ o.taken

section

variable {mem mem' : Buf} {a : Nat × Nat} {live : List (Nat × Nat)} {p : Nat}

@[simp] theorem length_payload : (payload mem a).length = a.2 := by
  rw [payload, List.length_map, List.length_range]

theorem payload_congr (h : ∀ i, i < a.2 → mem' (a.1 + i) = mem (a.1 + i)) :
    payload mem' a = payload mem a :=
  List.map_congr_left fun i hi => h i (List.mem_range.mp hi)

theorem getElem?_payload {i : Nat} (h : i < a.2) : (payload mem a)[i]? = some (mem (a.1 + i)) := by
  rw [payload, List.getElem?_map, List.getElem?_range h]
  rfl

theorem payload_putByte {i : Nat} (v : UInt8) (h : i < a.2) :
    payload (mem.putByte (a.1 + i) v) a = (payload mem a).set i v := by
  refine List.ext_getElem? fun j => ?_
  rw [List.getElem?_set]
  rcases Nat.lt_or_ge j a.2 with hj | hj
  · rw [getElem?_payload hj]
    split
    · rename_i hij
      subst hij
      rw [length_payload, if_pos h, Buf.putByte_self]
    · rename_i hij
      rw [getElem?_payload hj, Buf.putByte_of_ne (by omega)]
  · rw [List.getElem?_eq_none (by rw [length_payload]; exact hj), if_neg (by omega),
      List.getElem?_eq_none (by rw [length_payload]; exact hj)]

end

/-! ## What the allocator writes

No payload but that of the block handed out. -/

section

variable {h : Heap} {bs : List Nat} {b size : Nat}

theorem handOut_zero (h : Heap) (b : Nat) {i : Nat} (hi : i < size) :
    (handOut h b size).2.mem (b + 12 + i) = 0 := by
  show h.mem.patch (b + 12) size Buf.zero (b + 12 + i) = 0
  rw [Buf.patch_in (by omega) (by omega)]
  rfl

theorem takeFresh_keeps {c : Nat} {h' : Heap} (hsize : size ≤ kmallocHeapSize)
    (htake : takeFresh h size = (some c, h')) :
    c = h.used ∧ ∀ i, i < h.used → (handOut h' c size).2.mem i = h.mem i := by
  have hk : kmallocHeapSize = 67108864 := rfl
  have hu : u32 (size + 12) = size + 12 := u32_of_lt (by omega)
  unfold takeFresh at htake
  rw [hu] at htake
  dsimp only at htake
  split at htake
  · cases htake
  · obtain ⟨hc, rfl⟩ := Prod.mk.inj htake
    obtain rfl := Option.some.inj hc
    refine ⟨rfl, fun i hi => ?_⟩
    show zeroPayload (writeHeader h.mem h.used (size + 12) 0) h.used size i = h.mem i
    rw [zeroPayload_of_outside (by omega), writeHeader_of_outside (by omega)]

theorem takeFree_keeps (wf : HeapWf h bs) (hb : b ∈ bs) (hroom : LeavesRoom h.mem b size) {i : Nat}
    (hi : i < b ∨ b + blockSize h.mem b ≤ i) :
    (handOut (takeFree h b size) b size).2.mem i = h.mem i := by
  obtain ⟨-, h2, h3⟩ := wf.block hb
  rcases hroom with heq | hcut
  · have hu : u32 (size + 12) = size + 12 := u32_of_lt (by omega)
    have hmem : (handOut (takeFree h b size) b size).2.mem
        = zeroPayload (setBlockFree h.mem b 0) b size := by
      unfold takeFree handOut
      rw [hu, if_neg (by omega)]
    rw [hmem, zeroPayload_of_outside (by omega), setBlockFree_of_outside (by omega)]
  · rw [takeFree_split wf hb (by omega)]
    exact splitMem_of_outside (by omega)

/-- A pointer that `kmalloc` returns is to zeros, and the other blocks have the bytes they had. -/
theorem kmalloc_keeps (wf : HeapWf h bs) (hpos : 0 < size) (hsize : size ≤ kmallocHeapSize)
    (hfit : ∀ b, findFreeBlock h.mem h.used size (h.used + 1) 0 = some (some b) →
      LeavesRoom h.mem b size) {p : Nat} {h' : Heap}
    (hrun : kmalloc (h.used + 1) size h = some (some p, h')) :
    (∀ i, i < size → h'.mem (p + i) = 0)
    ∧ ∀ c ∈ bs, c + 12 ≠ p → ∀ i, c ≤ i → i < c + blockSize h.mem c → h'.mem i = h.mem i := by
  have hfind := findFreeBlock_eq hsize wf.bound (h.used + 1) 0 bs wf.tiles wf.magic wf.fuel
  unfold kmalloc at hrun
  simp only [if_neg (Nat.ne_of_gt hpos), wf.started, if_true] at hrun
  rw [hfind] at hfit hrun
  cases hf : bs.find? (fits h.mem size) with
  | none =>
      rw [hf] at hrun
      dsimp only at hrun
      generalize htake : takeFresh h size = t at hrun
      obtain ⟨r, h₁⟩ := t
      cases r with
      | none => cases (Prod.mk.inj (Option.some.inj hrun)).1
      | some c =>
          obtain ⟨rfl, hkept⟩ := takeFresh_keeps hsize htake
          obtain ⟨hp, rfl⟩ := Prod.mk.inj (Option.some.inj hrun)
          obtain rfl := Option.some.inj hp
          refine ⟨fun i hi => handOut_zero _ _ hi, fun c hc _ i _ hhi => hkept i ?_⟩
          obtain ⟨-, hend, -⟩ := wf.block hc
          omega
  | some b =>
      rw [hf] at hrun
      have hb : b ∈ bs := List.mem_of_find?_eq_some hf
      obtain ⟨hp, rfl⟩ := Prod.mk.inj (Option.some.inj hrun)
      obtain rfl := Option.some.inj hp
      refine ⟨fun i hi => handOut_zero _ b hi, fun c hc hne i hlo hhi => ?_⟩
      refine takeFree_keeps wf hb (hfit b (by rw [hf])) ?_
      rcases wf.tiles.disjoint hc hb (by omega) with hd | hd
      · omega
      · omega

theorem kfree_keeps {i : Nat} (hi : i < b ∨ b + 9 ≤ i) :
    (kfree (some (b + 12)) h).mem i = h.mem i := by
  unfold kfree
  simp only [Nat.add_sub_cancel]
  split
  · rfl
  split
  · rfl
  · show setBlockMagic (setBlockFree h.mem b 1) b kmallocFreedMagic i = h.mem i
    rw [setBlockMagic_of_outside (by omega), setBlockFree_of_outside (by omega)]

end

/-! ## Objects of a state

How the map changes with the list of live allocations. -/

namespace HeapState

variable {s : HeapState} {a : Nat × Nat} {live : List (Nat × Nat)} {p : Nat}

theorem startsAt_iff : startsAt p a = true ↔ a.1 = p := decide_eq_true_iff

theorem objects_none (h : ∀ a ∈ s.live, a.1 ≠ p) : s.objects p = none := by
  unfold objects
  rw [List.find?_eq_none.mpr fun a ha => fun hc => h a ha (startsAt_iff.mp hc)]
  rfl

theorem objects_of_mem (hd : s.live.Pairwise fun a a' => a.1 ≠ a'.1) (ha : a ∈ s.live) :
    s.objects a.1 = some (payload s.heap.mem a) := by
  have hsome : (s.live.find? (startsAt a.1)).isSome :=
    List.find?_isSome.mpr ⟨a, ha, startsAt_iff.mpr rfl⟩
  obtain ⟨b, hb⟩ := Option.isSome_iff_exists.mp hsome
  have heq : b.1 = a.1 := startsAt_iff.mp (List.find?_some hb)
  have hnodup : (s.live.map Prod.fst).Nodup := List.pairwise_map.mpr hd
  have hba : b = a := List.inj_on_of_nodup_map hnodup (List.mem_of_find?_eq_some hb) ha heq
  rw [objects, hb, hba]
  rfl

theorem objects_kept {h' : Heap} {returned : List Nat}
    (hkept : ∀ a ∈ s.live, payload h'.mem a = payload s.heap.mem a) :
    objects ⟨h', s.live, returned⟩ = s.objects := by
  funext q
  unfold objects
  cases hq : s.live.find? (startsAt q) with
  | none => rfl
  | some a => exact congrArg some (hkept a (List.mem_of_find?_eq_some hq))

theorem objects_cons (h : Heap) (returned : List Nat) (a : Nat × Nat) :
    objects ⟨h, a :: live, returned⟩
      = Function.update (objects ⟨h, live, returned⟩) a.1 (some (payload h.mem a)) := by
  funext q
  rcases em (q = a.1) with rfl | hne
  · unfold objects
    rw [List.find?_cons_of_pos (startsAt_iff.mpr rfl), Function.update_self]
    rfl
  · rw [Function.update_of_ne hne]
    unfold objects
    rw [List.find?_cons_of_neg fun hc => hne (startsAt_iff.mp hc).symm]

theorem objects_filter (h : Heap) (returned : List Nat) (p : Nat) :
    objects ⟨h, live.filter fun a => a.1 ≠ p, returned⟩
      = Function.update (objects ⟨h, live, returned⟩) p none := by
  funext q
  rcases em (q = p) with rfl | hne
  · rw [Function.update_self]
    exact objects_none fun a ha => of_decide_eq_true (List.mem_filter.mp ha).2
  · rw [Function.update_of_ne hne]
    unfold objects
    rw [List.find?_filter]
    congr 2
    funext a
    rcases em (a.1 = q) with rfl | haq
    · simp [startsAt, hne]
    · simp [startsAt, haq]

end HeapState

/-! ## Steps

One lemma for each use, and from them the refinement of traces. -/

section

variable {s : HeapState} {bs : List Nat}

theorem HeapInv.payload_kept (hi : HeapInv s bs) {mem' : Buf} {a : Nat × Nat} (ha : a ∈ s.live)
    (hkept : ∀ b ∈ bs, a.1 = b + 12 → ∀ i, b + 12 ≤ i → i < b + blockSize s.heap.mem b →
      mem' i = s.heap.mem i) : payload mem' a = payload s.heap.mem a := by
  obtain ⟨b, hb, hp, -, hroom⟩ := hi.live a ha
  exact payload_congr fun i hlt => hkept b hb hp _ (by omega) (by omega)

theorem HeapState.of_object {p : Nat} {l : List UInt8} (hl : s.objects p = some l) :
    ∃ a ∈ s.live, a.1 = p ∧ l = payload s.heap.mem a := by
  obtain ⟨a, hfind, rfl⟩ := Option.map_eq_some_iff.mp hl
  exact ⟨a, List.mem_of_find?_eq_some hfind, HeapState.startsAt_iff.mp (List.find?_some hfind), rfl⟩

theorem HeapInv.not_live (hi : HeapInv s bs) {p : Nat} (hnone : s.objects p = none) :
    ∀ a ∈ s.live, a.1 ≠ p := by
  rintro a ha rfl
  rw [HeapState.objects_of_mem hi.distinct ha] at hnone
  cases hnone

/-- `kfree` takes out the object at its pointer, if there is one. -/
theorem HeapInv.objects_free (hi : HeapInv s bs) {p : Nat} (hp : p ∈ s.returned) :
    HeapState.objects ⟨kfree (some p) s.heap, s.live.filter fun a => a.1 ≠ p, s.returned⟩
      = Function.update s.objects p none := by
  obtain ⟨b, hb, rfl⟩ := hi.returned p hp
  obtain ⟨h1, h2, -⟩ := hi.wf.block hb
  have hkept : ∀ a ∈ s.live, payload (kfree (some (b + 12)) s.heap).mem a
      = payload s.heap.mem a := by
    intro a ha
    refine hi.payload_kept ha fun c hc _ i hlo hhi => kfree_keeps ?_
    rcases eq_or_ne c b with rfl | hne
    · exact Or.inr (by omega)
    · rcases hi.wf.tiles.disjoint hc hb hne with hd | hd
      · exact Or.inl (by omega)
      · exact Or.inr (by omega)
  have hobjects := @HeapState.objects_kept s _ s.returned hkept
  have hfilter :=
    @HeapState.objects_filter s.live (kfree (some (b + 12)) s.heap) s.returned (b + 12)
  rwa [hobjects] at hfilter

theorem HeapInv.objects_alloc (hi : HeapInv s bs) {size p : Nat} {h' : Heap} (hpos : 0 < size)
    (hsize : size ≤ kmallocHeapSize) (hfit : (HeapUse.alloc size).SplitFits s.heap)
    (hnew : ∀ a ∈ s.live, a.1 ≠ p)
    (hrun : kmalloc (s.heap.used + 1) size s.heap = some (some p, h')) :
    HeapState.objects ⟨h', (p, size) :: s.live, p :: s.returned⟩
      = Function.update s.objects p (some (List.replicate size 0)) := by
  obtain ⟨hzero, hkept⟩ := kmalloc_keeps hi.wf hpos hsize hfit hrun
  have hold : ∀ a ∈ s.live, payload h'.mem a = payload s.heap.mem a := fun a ha =>
    hi.payload_kept ha fun c hc hac i hlo hhi =>
      hkept c hc (fun hcp => hnew a ha (hac.trans hcp)) i (by omega) hhi
  have hobjects := @HeapState.objects_kept s h' (p :: s.returned) hold
  have hbytes : payload h'.mem (p, size) = List.replicate size 0 := by
    refine List.eq_replicate_iff.mpr ⟨length_payload, fun v hv => ?_⟩
    obtain ⟨i, hmem, rfl⟩ := List.mem_map.mp hv
    exact hzero i (List.mem_range.mp hmem)
  have hcons := @HeapState.objects_cons s.live h' (p :: s.returned) (p, size)
  rwa [hobjects, hbytes] at hcons

/-- A byte of an allocation is in no header, and in no other allocation. -/
theorem HeapInv.byte_apart (hi : HeapInv s bs) {a : Nat × Nat} (ha : a ∈ s.live) {i : Nat}
    (hlt : i < a.2) : (∀ c ∈ bs, a.1 + i < c ∨ c + 12 ≤ a.1 + i)
    ∧ ∀ a' ∈ s.live, a'.1 ≠ a.1 → ∀ j, j < a'.2 → a'.1 + j ≠ a.1 + i := by
  obtain ⟨b, hb, hp, -, hroom⟩ := hi.live a ha
  refine ⟨fun c hc => ?_, fun a' ha' hne j hj => ?_⟩
  · have hsize := hi.wf.size c hc
    rcases eq_or_ne c b with rfl | hcb
    · exact Or.inr (by omega)
    · rcases hi.wf.tiles.disjoint hc hb hcb with hd | hd
      · exact Or.inr (by omega)
      · exact Or.inl (by omega)
  · obtain ⟨b', hb', hp', -, hroom'⟩ := hi.live a' ha'
    rcases hi.wf.tiles.disjoint hb' hb (fun heq => hne (by rw [hp, hp', heq])) with hd | hd
    · omega
    · omega

theorem HeapInv.store (hi : HeapInv s bs) {a : Nat × Nat} (ha : a ∈ s.live) {i : Nat}
    (hlt : i < a.2) (v : UInt8) :
    HeapInv { s with heap := { s.heap with mem := s.heap.mem.putByte (a.1 + i) v } } bs := by
  have hsame : ∀ c ∈ bs, SameHeader s.heap.mem (s.heap.mem.putByte (a.1 + i) v) c := by
    intro c hc
    have hapart := (hi.byte_apart ha hlt).1 c hc
    exact header_congr fun j hj hj' => Buf.putByte_of_ne (by omega)
  refine ⟨hi.wf.frame hsame, fun a' ha' => ?_, hi.distinct, hi.returned, hi.known,
    fun p hp hno => ?_⟩
  · obtain ⟨c, hc, hp, hfree, hroom⟩ := hi.live a' ha'
    exact ⟨c, hc, hp, (hsame c hc).2.2.trans hfree, by rw [(hsame c hc).1]; exact hroom⟩
  · obtain ⟨c, hc, rfl⟩ := hi.returned p hp
    have hmagic := hi.freed _ hp hno
    rw [Nat.add_sub_cancel] at hmagic ⊢
    exact (hsame c hc).2.1.trans hmagic

theorem HeapInv.objects_store (hi : HeapInv s bs) {a : Nat × Nat} (ha : a ∈ s.live) {i : Nat}
    (hlt : i < a.2) (v : UInt8) :
    HeapState.objects { s with heap := { s.heap with mem := s.heap.mem.putByte (a.1 + i) v } }
      = Function.update s.objects a.1 (some ((payload s.heap.mem a).set i v)) := by
  funext q
  rcases em (q = a.1) with rfl | hne
  · rw [Function.update_self, ← payload_putByte v hlt]
    exact HeapState.objects_of_mem (hi.store ha hlt v).distinct ha
  · rw [Function.update_of_ne hne]
    unfold HeapState.objects
    cases hq : s.live.find? (startsAt q) with
    | none => rfl
    | some a' =>
        have ha' := List.mem_of_find?_eq_some hq
        have hq' : a'.1 = q := HeapState.startsAt_iff.mp (List.find?_some hq)
        refine congrArg some (payload_congr fun j hj => Buf.putByte_of_ne ?_)
        exact (hi.byte_apart ha hlt).2 a' ha' (hq'.trans_ne hne) j hj

end

section

variable {h : Heap} {o : Objects}

theorem HeapHolds.initial (h₀ : Heap) : HeapHolds (kmallocInit h₀) Objects.none :=
  ⟨initialHeap h₀, [], HeapInv.initial h₀, rfl, rfl, rfl, Nat.le_refl 0⟩

theorem HeapHolds.alloc (hh : HeapHolds h o) {size : Nat} (hpos : 0 < size)
    (hsize : size ≤ kmallocHeapSize) (hfit : (HeapUse.alloc size).SplitFits h) :
    ∃ r h' o', kmalloc (h.used + 1) size h = some (r, h')
      ∧ ObjectStep o (.alloc size, .pointer r) o' ∧ HeapHolds h' o' := by
  obtain ⟨s, bs, hi, rfl, hgiven, hobjects, hused⟩ := hh
  obtain ⟨r, h', hrun, hcases⟩ := kmalloc_spec hi.wf hpos hsize
  cases r with
  | none =>
      -- refused: no free block, and no room at the end
      obtain ⟨rfl, hfull⟩ : h' = s.heap ∧ kmallocHeapSize ≤ s.heap.used + (size + 12) := by
        rcases hcases with ⟨-, -, hsame, hfull⟩ | ⟨-, hno, -⟩ | ⟨b, -, hno, -⟩
        · exact ⟨hsame, hfull⟩
        · cases hno
        · cases hno
      exact ⟨none, s.heap, o, hrun, .refused (by omega), s, bs, hi, rfl, hgiven, hobjects, hused⟩
  | some p =>
      have hgrown : h'.used ≤ s.heap.used + (size + 12) := by
        rcases hcases with ⟨-, hno, -⟩ | ⟨-, -, -, hlast⟩ | ⟨b, -, -, hsame, -⟩
        · cases hno
        · omega
        · omega
      obtain ⟨s', hstep, -, hinv, -⟩ := hi.step (e := .alloc size) ⟨hpos, hsize⟩
      obtain ⟨bs', hi'⟩ := hinv hfit
      have hs' : s' = ⟨h', (p, size) :: s.live, p :: s.returned⟩ := by
        have hmap : (kmalloc (s.heap.used + 1) size s.heap).map _ = some s' := hstep
        rw [hrun] at hmap
        exact (Option.some.inj hmap).symm
      subst hs'
      have hnew : ∀ a ∈ s.live, a.1 ≠ p :=
        fun a ha => (List.rel_of_pairwise_cons hi'.distinct ha).symm
      have hmade := hi.objects_alloc hpos hsize hfit hnew hrun
      obtain ⟨bs'', hwf, hbounds, hpairs⟩ := hi'.wellFormed
      have hend := (hbounds (p, size) List.mem_cons_self).1
      have hlast := hwf.bound
      refine ⟨some p, h', _, hrun, .made (by rw [← hobjects]; exact HeapState.objects_none hnew)
        (Nat.lt_of_le_of_lt hend hlast) fun q l hl => ?_,
        ⟨h', (p, size) :: s.live, p :: s.returned⟩, bs', hi', rfl, congrArg (p :: ·) hgiven,
        hmade.trans (by rw [hobjects]), Nat.le_trans hgrown (Nat.add_le_add_right hused _)⟩
      rw [← hobjects] at hl
      obtain ⟨a, ha, rfl, rfl⟩ := HeapState.of_object hl
      rw [length_payload]
      exact List.rel_of_pairwise_cons hpairs ha

theorem HeapHolds.free (hh : HeapHolds h o) {p : Nat} (hp : p ∈ o.given) :
    ∃ o', ObjectStep o (.free p, .done) o' ∧ HeapHolds (kfree (some p) h) o' := by
  obtain ⟨s, bs, hi, rfl, hgiven, hobjects, hused⟩ := hh
  rw [← hgiven] at hp
  cases hl : o.bytes p with
  | none =>
      -- it was given back before
      rw [← hobjects] at hl
      rw [hi.kfree_twice hp (hi.not_live hl)]
      exact ⟨o, .dead (hgiven ▸ hp) (hobjects ▸ hl), s, bs, hi, rfl, hgiven, hobjects, hused⟩
  | some l =>
      obtain ⟨b, hb, rfl⟩ := hi.returned p hp
      have hsame := (kfree_spec hi.wf hb).2.1
      exact ⟨_, .freed hl, _, bs, hi.freePtr hp, rfl, hgiven,
        (hi.objects_free hp).trans (by rw [hobjects]), by rw [hsame]; exact hused⟩

theorem HeapHolds.store (hh : HeapHolds h o) {p i : Nat} {l : List UInt8} (hl : o.bytes p = some l)
    (hlt : i < l.length) (v : UInt8) :
    ∃ o', ObjectStep o (.store p i v, .done) o'
      ∧ HeapHolds { h with mem := h.mem.putByte (p + i) v } o' := by
  obtain ⟨s, bs, hi, rfl, hgiven, hobjects, hused⟩ := hh
  have hl' := hl
  rw [← hobjects] at hl'
  obtain ⟨a, ha, rfl, rfl⟩ := HeapState.of_object hl'
  have hi_lt := hlt
  rw [length_payload] at hi_lt
  exact ⟨_, .stored hl hlt, _, bs, hi.store ha hi_lt v, rfl, hgiven,
    (hi.objects_store ha hi_lt v).trans (by rw [hobjects]), hused⟩

theorem HeapHolds.load (hh : HeapHolds h o) {p i : Nat} {l : List UInt8} (hl : o.bytes p = some l)
    (hlt : i < l.length) : ObjectStep o (.load p i, .byte (h.mem (p + i))) o := by
  obtain ⟨s, bs, hi, rfl, hgiven, hobjects, hused⟩ := hh
  have hl' := hl
  rw [← hobjects] at hl'
  obtain ⟨a, ha, rfl, rfl⟩ := HeapState.of_object hl'
  rw [length_payload] at hlt
  exact .loaded hl (getElem?_payload hlt)

/-- A use in the users' rights that splits no block too small returns, with an answer of the
store. -/
theorem HeapHolds.use (hh : HeapHolds h o) {e : HeapUse} (he : o.Allowed e) (hfit : e.SplitFits h) :
    ∃ a h' o', e.run h = some (a, h') ∧ ObjectStep o (e, a) o' ∧ HeapHolds h' o' := by
  cases e with
  | alloc size =>
      obtain ⟨r, h', o', hrun, hstep, hh'⟩ := hh.alloc he.1 he.2 hfit
      refine ⟨.pointer r, h', o', ?_, hstep, hh'⟩
      show (kmalloc (h.used + 1) size h).map _ = _
      rw [hrun]
      rfl
  | free p =>
      obtain ⟨o', hstep, hh'⟩ := hh.free he
      exact ⟨.done, _, o', rfl, hstep, hh'⟩
  | store p i v =>
      obtain ⟨l, hl, hlt⟩ := he
      obtain ⟨o', hstep, hh'⟩ := hh.store hl hlt v
      exact ⟨.done, _, o', rfl, hstep, hh'⟩
  | load p i =>
      obtain ⟨l, hl, hlt⟩ := he
      exact ⟨_, h, o, rfl, hh.load hl hlt, hh⟩

/-- From `kmalloc_init` on, the heap answers its users as the store of objects does: a trace in
the users' rights is a trace of the store, and every use that they may make next returns with an
answer of the store. -/
theorem heap_refines_objects {h₀ : Heap} {ls : List (HeapUse × HeapAnswer)}
    (hr : Trace HeapStep (kmallocInit h₀) ls h)
    (hrights : InRights ObjectStep (fun o l => o.Allowed l.1) Objects.none ls) :
    ∃ o, Trace ObjectStep Objects.none ls o
      ∧ ∀ e, o.Allowed e → e.SplitFits h → ∃ a h' o', HeapStep h (e, a) h'
          ∧ ObjectStep o (e, a) o' := by
  have hstep : ∀ t o l t', HeapHolds t o → o.Allowed l.1 → HeapStep t l t' →
      ∃ o', ObjectStep o l o' ∧ HeapHolds t' o' := by
    rintro t o ⟨e, a⟩ t' hh he ⟨hfit, hrun⟩
    obtain ⟨a', t'', o', hrun', hobject, hh'⟩ := hh.use he hfit
    obtain ⟨rfl, rfl⟩ := Prod.mk.inj (Option.some.inj (hrun'.symm.trans hrun))
    exact ⟨o', hobject, hh'⟩
  obtain ⟨o, htrace, hh⟩ := hr.simulates hstep hrights (HeapHolds.initial h₀)
  refine ⟨o, htrace, fun e he hfit => ?_⟩
  obtain ⟨a, h', o', hrun, hobject, -⟩ := hh.use he hfit
  exact ⟨a, h', o', ⟨hfit, hrun⟩, hobject⟩

end

/-! ## A trace -/

instance (h : Heap) : (e : HeapUse) → Decidable (e.SplitFits h)
  | .alloc size => inferInstanceAs (Decidable ((HeapCall.alloc size).SplitFits ⟨h, [], []⟩))
  | .free _ => isTrue trivial
  | .store _ _ _ => isTrue trivial
  | .load _ _ => isTrue trivial

/-- The step with this label, if there is one. -/
def heapNext (h : Heap) (l : HeapUse × HeapAnswer) : Option Heap :=
  match l.1.run h with
  | some (a, h') => if l.1.SplitFits h ∧ a = l.2 then some h' else none
  | none => none

theorem heapNext_step {h h' : Heap} {l : HeapUse × HeapAnswer} (hn : heapNext h l = some h') :
    HeapStep h l h' := by
  unfold heapNext at hn
  split at hn
  · rename_i a h'' hrun
    split at hn
    · rename_i hok
      obtain rfl := Option.some.inj hn
      exact ⟨hok.1, hok.2 ▸ hrun⟩
    · cases hn
  · cases hn

/-- Two allocations, a byte written in the first, the second given back twice, and the byte read. -/
def someUses : List (HeapUse × HeapAnswer) :=
  [(.alloc 4, .pointer (some 12)), (.alloc 8, .pointer (some 28)), (.store 12 3 7, .done),
    (.free 28, .done), (.free 28, .done), (.load 12 3, .byte 7)]

theorem heap_refines_objects_some :
    ∃ h, Trace HeapStep (kmallocInit blankHeap) someUses h
      ∧ ∃ o, Trace ObjectStep Objects.none someUses o
        ∧ ∀ e, o.Allowed e → e.SplitFits h →
          ∃ a h' o', HeapStep h (e, a) h' ∧ ObjectStep o (e, a) o' := by
  have hsome : (someUses.foldlM heapNext (kmallocInit blankHeap)).isSome = true := by decide +kernel
  obtain ⟨h, hh⟩ := Option.isSome_iff_exists.mp hsome
  have hr := Trace.of_next (fun s l s' => heapNext_step) someUses hh
  refine ⟨h, hr, heap_refines_objects hr ?_⟩
  -- each label is allowed in the stores that those before it lead to
  refine ⟨⟨by decide, by decide⟩, fun o ho => ?_⟩
  obtain _ | ⟨-, -, -⟩ := ho
  refine ⟨⟨by decide, by decide⟩, fun o ho => ?_⟩
  obtain _ | ⟨-, -, -⟩ := ho
  refine ⟨⟨_, rfl, by decide⟩, fun o ho => ?_⟩
  obtain _ | _ | _ | _ | ⟨hl, hi⟩ := ho
  refine ⟨List.mem_cons_self, fun o ho => ?_⟩
  obtain _ | _ | hl₁ | ⟨hp₁, hnone₁⟩ := ho
  · refine ⟨List.mem_cons_self, fun o ho => ?_⟩
    obtain _ | _ | hl₂ | ⟨hp₂, hnone₂⟩ := ho
    · exact ⟨⟨_, rfl, by rw [List.length_set]; exact hi⟩, fun _ _ => trivial⟩
    · exact ⟨⟨_, rfl, by rw [List.length_set]; exact hi⟩, fun _ _ => trivial⟩
  · cases hnone₁

end IpoOs
