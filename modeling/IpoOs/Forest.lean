import Mathlib.Logic.Function.Basic
import Mathlib.Order.Basic
import Mathlib.Tactic.ByContra

/-!
# Forests of pointers kept in the blocks they point to

A finite set of positions, each of which holds a block number or null. A
root position is a field of some record; any other position is an entry
of the block its parent position points to, and reads as null when the
parent does. `Stored` says that `ptr` is what the records and the
blocks hold, and fixes it uniquely.

`Owned` is the discipline an allocator keeps: every pointer lies in the
managed range, its block is marked used, and no block is pointed to
twice. The results are the effect on `ptr` of the three things a file
system does (writing elsewhere, linking a fresh zeroed block, clearing
whole subtrees) and that each keeps `Owned`.

The shape is given by a parent function that ends at the roots, so that an
induction over positions goes from a root to its descendants
(`Shape.induct`). Nothing here knows what a file system is: the managed
range, the used marks and the records are parameters.
-/

namespace IpoOs

/-- The positions of a forest: the parent of each, and its entry in the
parent's block. -/
structure Shape (S : Type*) where
  parent : S → Option S
  index : S → Nat
  depth : S → Nat
  parent_depth : ∀ s t, parent s = some t → depth t < depth s
  sibling : ∀ s s' t, parent s = some t → parent s' = some t →
    index s = index s' → s = s'

variable {S : Type*} (F : Shape S)

/-- `ptr` is what the root fields and the blocks hold. -/
def Stored (root : S → Nat) (mem : Nat → Nat → Nat) (ptr : S → Nat) : Prop :=
  ∀ s, ptr s = match F.parent s with
    | none => root s
    | some t => if ptr t = 0 then 0 else mem (ptr t) (F.index s)

/-- Every pointer is in `[lo, hi)` and marked used, and no block is pointed
to twice. -/
structure Owned (lo hi : Nat) (used : Nat → Prop) (ptr : S → Nat) : Prop where
  lower : ∀ s, ptr s ≠ 0 → lo ≤ ptr s
  upper : ∀ s, ptr s ≠ 0 → ptr s < hi
  used : ∀ s, ptr s ≠ 0 → used (ptr s)
  inj : ∀ s t, ptr s ≠ 0 → ptr s = ptr t → s = t

section

variable {F} {root root' : S → Nat} {mem mem' : Nat → Nat → Nat} {ptr ptr' : S → Nat}

theorem Stored.root_eq (h : Stored F root mem ptr) {s : S} (hs : F.parent s = none) :
    ptr s = root s := by
  have := h s
  rw [hs] at this
  exact this

theorem Stored.child_eq (h : Stored F root mem ptr) {s t : S}
    (hs : F.parent s = some t) : ptr s = if ptr t = 0 then 0 else mem (ptr t) (F.index s) := by
  have := h s
  rw [hs] at this
  exact this

theorem Shape.induct (F : Shape S) {P : S → Prop}
    (hroot : ∀ s, F.parent s = none → P s)
    (hchild : ∀ s t, F.parent s = some t → P t → P s) (s : S) : P s := by
  induction hn : F.depth s using Nat.strongRecOn generalizing s with
  | ind n ih =>
      cases hp : F.parent s with
      | none => exact hroot s hp
      | some t =>
          have hlt : F.depth t < n := hn ▸ F.parent_depth s t hp
          exact hchild s t hp (ih _ hlt t rfl)

/-! ## Writing elsewhere

A block that no pointer points to can be rewritten, and no pointer changes. -/

/-- The pointers do not change when neither the root fields nor the blocks
that hold entries do. -/
theorem Stored.frame (h : Stored F root mem ptr) (h' : Stored F root' mem' ptr')
    (hroot : ∀ s, F.parent s = none → root' s = root s)
    (hmem : ∀ s t, F.parent s = some t → ptr t ≠ 0 →
      mem' (ptr t) (F.index s) = mem (ptr t) (F.index s)) : ptr' = ptr := by
  funext s
  refine F.induct (P := fun s => ptr' s = ptr s) (fun s hs => ?_) (fun s t hs ih => ?_) s
  · rw [h.root_eq hs, h'.root_eq hs, hroot s hs]
  · rw [h.child_eq hs, h'.child_eq hs, ih]
    by_cases ht : ptr t = 0
    · simp only [ht, if_true]
    · simp only [ht, if_false]
      exact hmem s t hs ht

/-! ## Linking a fresh block

A free block that is zeroed and linked at a null position has no pointers
below it yet, so `ptr` changes at one position only. -/

/-- A fresh, zeroed block `p` stored at the null position `s`: the pointers
change at `s` only, because everything below `s` reads as null before and
as an entry of a zeroed block after. -/
theorem Stored.link [DecidableEq S] (h : Stored F root mem ptr)
    (h' : Stored F root' mem' ptr') {s : S} {p : Nat} (hp : p ≠ 0)
    (hnull : ptr s = 0) (hzero : ∀ k, mem' p k = 0)
    (hpar : ∀ t, F.parent s = some t → ptr t ≠ 0)
    (hroot : ∀ t, F.parent t = none → root' t = if t = s then p else root t)
    (hmem : ∀ t v, F.parent t = some v → ptr v ≠ 0 →
      mem' (ptr v) (F.index t) = if t = s then p else mem (ptr v) (F.index t)) :
    ptr' = Function.update ptr s p := by
  funext u
  refine F.induct (P := fun u => ptr' u = Function.update ptr s p u)
    (fun u hu => ?_) (fun u v hu ih => ?_) u
  · rw [h'.root_eq hu, hroot u hu]
    by_cases hus : u = s
    · rw [if_pos hus, hus, Function.update_self]
    · rw [if_neg hus, Function.update_of_ne hus, h.root_eq hu]
  · rw [h'.child_eq hu, ih]
    by_cases hvs : v = s
    · -- below the new block every entry is null, before and after
      have hus : u ≠ s := fun hc => by
        have hlt := F.parent_depth u v hu
        rw [hvs, hc] at hlt
        exact Nat.lt_irrefl _ hlt
      rw [hvs, Function.update_self, if_neg hp, hzero, Function.update_of_ne hus,
        h.child_eq hu, hvs, hnull, if_pos rfl]
    · rw [Function.update_of_ne hvs]
      by_cases hv : ptr v = 0
      · have hus : u ≠ s := fun hc => hpar v (hc ▸ hu) hv
        rw [if_pos hv, Function.update_of_ne hus, h.child_eq hu, if_pos hv]
      · rw [if_neg hv, hmem u v hu hv]
        by_cases hus : u = s
        · rw [if_pos hus, hus, Function.update_self]
        · rw [if_neg hus, Function.update_of_ne hus, h.child_eq hu, if_neg hv]

/-! ## Clearing subtrees

When the roots of some positions are cleared, everything below them reads as
null, and what is not below them stays. -/

/-- The root fields of whole subtrees cleared: `U` tells which positions lie
in one of them. -/
theorem Stored.clear (h : Stored F root mem ptr) (h' : Stored F root' mem' ptr')
    {U : S → Prop} [DecidablePred U]
    (hU : ∀ s t, F.parent s = some t → (U s ↔ U t))
    (hroot : ∀ s, F.parent s = none → root' s = if U s then 0 else root s)
    (hmem : ∀ s t, F.parent s = some t → ptr t ≠ 0 →
      mem' (ptr t) (F.index s) = mem (ptr t) (F.index s)) :
    ptr' = fun s => if U s then 0 else ptr s := by
  funext s
  refine F.induct (P := fun s => ptr' s = if U s then 0 else ptr s)
    (fun s hs => ?_) (fun s t hs ih => ?_) s
  · rw [h'.root_eq hs, hroot s hs, h.root_eq hs]
  · rw [h'.child_eq hs, ih]
    by_cases hs' : U s
    · simp [hs', (hU s t hs).mp hs']
    · have ht : ¬ U t := fun hc => hs' ((hU s t hs).mpr hc)
      simp only [ht, hs', if_false]
      rw [h.child_eq hs]
      by_cases hz : ptr t = 0
      · simp only [hz, if_true]
      · simp only [hz, if_false]
        exact hmem s t hs hz

end

/-! ## The ownership discipline

Each of the three operations keeps `Owned`. The lemma about a link asks that
the block was free; the others take pointers away or leave them. -/

namespace Owned

variable {lo hi : Nat} {used used' : Nat → Prop} {ptr ptr' : S → Nat}

theorem ne_of_not_used (h : Owned lo hi used ptr) {p : Nat} (hp : ¬ used p) (hp0 : p ≠ 0)
    (s : S) : ptr s ≠ p := fun hs =>
  hp (hs ▸ h.used s (fun h0 => hp0 (hs ▸ h0)))

/-- Marking more blocks used, or none that is pointed to less, is harmless. -/
theorem of_used (h : Owned lo hi used ptr) (hu : ∀ s, ptr s ≠ 0 → used' (ptr s)) :
    Owned lo hi used' ptr :=
  ⟨h.lower, h.upper, hu, h.inj⟩

theorem raise {hi' : Nat} (h : Owned lo hi used ptr) (hle : hi ≤ hi') : Owned lo hi' used ptr :=
  ⟨h.lower, fun s h0 => Nat.lt_of_lt_of_le (h.upper s h0) hle, h.used, h.inj⟩

theorem of_sub (h : Owned lo hi used ptr) (hs : ∀ s, ptr' s = 0 ∨ ptr' s = ptr s) :
    Owned lo hi used ptr' := by
  have hkeep : ∀ s, ptr' s ≠ 0 → ptr' s = ptr s ∧ ptr s ≠ 0 := fun s h0 => by
    have he := (hs s).resolve_left h0
    exact ⟨he, he ▸ h0⟩
  refine ⟨fun s h0 => ?_, fun s h0 => ?_, fun s h0 => ?_, fun s t h0 he => ?_⟩
  · obtain ⟨he, h0'⟩ := hkeep s h0
    exact he ▸ h.lower s h0'
  · obtain ⟨he, h0'⟩ := hkeep s h0
    exact he ▸ h.upper s h0'
  · obtain ⟨he, h0'⟩ := hkeep s h0
    exact he ▸ h.used s h0'
  · obtain ⟨hes, h0'⟩ := hkeep s h0
    obtain ⟨het, -⟩ := hkeep t (he ▸ h0)
    exact h.inj s t h0' (by rw [← hes, he, het])

theorem link [DecidableEq S] (h : Owned lo hi used ptr) {s : S} {p : Nat}
    (hlo : lo ≤ p) (hhi : p < hi) (hp0 : p ≠ 0) (hfree : ¬ used p)
    (hkeep : ∀ t, ptr t ≠ 0 → used' (ptr t)) (hp : used' p) :
    Owned lo hi used' (Function.update ptr s p) := by
  have hne := h.ne_of_not_used hfree hp0
  have hval : ∀ t, Function.update ptr s p t = if t = s then p else ptr t := fun t => by
    by_cases ht : t = s
    · rw [if_pos ht, ht, Function.update_self]
    · rw [if_neg ht, Function.update_of_ne ht]
  refine ⟨fun t h0 => ?_, fun t h0 => ?_, fun t h0 => ?_, fun t v h0 he => ?_⟩
  · rw [hval] at h0 ⊢
    split at h0
    · rename_i hts; rw [if_pos hts]; exact hlo
    · rename_i hts; rw [if_neg hts]; exact h.lower t h0
  · rw [hval] at h0 ⊢
    split at h0
    · rename_i hts; rw [if_pos hts]; exact hhi
    · rename_i hts; rw [if_neg hts]; exact h.upper t h0
  · rw [hval] at h0 ⊢
    split at h0
    · rename_i hts; rw [if_pos hts]; exact hp
    · rename_i hts; rw [if_neg hts]; exact hkeep t h0
  · rw [hval, hval] at he
    rw [hval] at h0
    by_cases hts : t = s
    · by_cases hvs : v = s
      · rw [hts, hvs]
      · rw [if_pos hts, if_neg hvs] at he
        exact absurd he.symm (hne v)
    · rw [if_neg hts] at he h0
      by_cases hvs : v = s
      · rw [if_pos hvs] at he
        exact absurd he (hne t)
      · rw [if_neg hvs] at he
        exact h.inj t v h0 he

end Owned

end IpoOs
