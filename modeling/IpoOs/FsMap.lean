import IpoOs.Forest
import IpoOs.FsVolume

/-!
# The block map of an inode as a forest

The pointers of an inode sit at positions: six direct ones, the indirect
block and its 128 entries, the double indirect block, its 128 entries and
their 128 entries each. `Disk.ptr` reads the pointer at a position, and
`volPtr` collects the pointers of a whole table of inodes, which is a
forest in the sense of `Shape` and `Stored`.

`get_data_block_for_inode` is then seen as a walk down this forest that
may link fresh blocks on the way. `Grew` says once what such a walk can
do to the record, the disk and everybody else's pointers; every later
result about allocation is read off it.

The tree has depth three, and a position names its parent. `posOf` is the
position of a logical index and is injective; indices from 16518 on have
none. `Disk.lookup` is the map that the rest of the development reads: the
block of an index, when its position holds a pointer that an `int` can hold.
-/

namespace IpoOs

/-- The positions of an inode's block pointers. -/
inductive Pos where
  | direct (i : Fin 6)
  | indirect
  | single (j : Fin 128)
  | double
  | table (j : Fin 128)
  | leaf (j k : Fin 128)
deriving DecidableEq

namespace Pos

/-- The position whose block holds the entry. -/
def parent : Pos → Option Pos
  | .single _ => some .indirect
  | .table _ => some .double
  | .leaf j _ => some (.table j)
  | _ => none

def index : Pos → Nat
  | .single j => j.val
  | .table j => j.val
  | .leaf _ k => k.val
  | _ => 0

def depth : Pos → Nat
  | .single _ => 1
  | .table _ => 1
  | .leaf _ _ => 2
  | _ => 0

/-- Positions that point to a block of pointers. -/
def isTable : Pos → Bool
  | .indirect => true
  | .double => true
  | .table _ => true
  | _ => false

def path : Pos → List Pos
  | .single j => [.indirect, .single j]
  | .table j => [.double, .table j]
  | .leaf j k => [.double, .table j, .leaf j k]
  | pos => [pos]

theorem mem_path (pos : Pos) : pos ∈ pos.path := by
  cases pos <;> simp [path]

theorem isTable_of_parent {s t : Pos} (h : s.parent = some t) : t.isTable = true := by
  cases s <;> simp only [parent, reduceCtorEq] at h <;> cases h <;> rfl

/-- The forest of the positions of all inodes. -/
def shape : Shape (Nat × Pos) where
  parent s := s.2.parent.map fun t => (s.1, t)
  index s := s.2.index
  depth s := s.2.depth
  parent_depth := by
    rintro ⟨i, s⟩ ⟨j, t⟩ h
    cases s <;> simp only [parent, Option.map_some, Option.map_none, reduceCtorEq] at h <;>
      cases h <;> simp [depth]
  sibling := by
    rintro ⟨i, s⟩ ⟨i', s'⟩ ⟨j, t⟩ h h' hidx
    cases s <;> simp only [parent, Option.map_some, Option.map_none, reduceCtorEq] at h <;>
      cases h <;>
      cases s' <;> simp only [parent, Option.map_some, Option.map_none, reduceCtorEq] at h' <;>
      cases h' <;> simp only [index] at hidx <;> rw [Fin.ext hidx]

end Pos

def Inode.root (r : Inode) : Pos → Nat
  | .direct i => (r.direct i).toNat
  | .indirect => r.indirect.toNat
  | .double => r.doubleIndirect.toNat
  | _ => 0

/-- The pointer field of the record set; other positions are not in it. -/
def Inode.setPtr (r : Inode) (pos : Pos) (p : Nat) : Inode :=
  match pos with
  | .direct i => r.setDirect i.val p
  | .indirect => { r with indirect := UInt32.ofNat p }
  | .double => { r with doubleIndirect := UInt32.ofNat p }
  | _ => r

namespace Disk

/-- Entry `j` of the pointer block `q`. -/
def entry (d : Disk) (q j : Nat) : Nat :=
  if q = 0 then 0 else ((d q).word (4 * j)).toNat

/-- The block pointer at a position of an inode; null below a null pointer. -/
def ptr (d : Disk) (r : Inode) : Pos → Nat
  | .direct i => (r.direct i).toNat
  | .indirect => r.indirect.toNat
  | .single j => d.entry r.indirect.toNat j.val
  | .double => r.doubleIndirect.toNat
  | .table j => d.entry r.doubleIndirect.toNat j.val
  | .leaf j k => d.entry (d.entry r.doubleIndirect.toNat j.val) k.val

/-- The entry of a pointer block set; positions of the record are not on
the disk. -/
def setPtr (d : Disk) (r : Inode) (pos : Pos) (p : Nat) : Disk :=
  match pos.parent with
  | none => d
  | some t => d.set (d.ptr r t) ((d (d.ptr r t)).putWord (4 * pos.index) (UInt32.ofNat p))

end Disk

theorem Inode.root_of_parent {r : Inode} {s t : Pos} (h : s.parent = some t) :
    r.root s = 0 := by
  cases s <;> simp only [Pos.parent, reduceCtorEq] at h <;> rfl

theorem Disk.ptr_root {d : Disk} {r : Inode} {s : Pos} (h : s.parent = none) :
    d.ptr r s = r.root s := by
  cases s <;> simp only [Pos.parent, reduceCtorEq] at h <;> rfl

theorem Disk.ptr_child {d : Disk} {r : Inode} {s t : Pos} (h : s.parent = some t) :
    d.ptr r s = d.entry (d.ptr r t) s.index := by
  cases s <;> simp only [Pos.parent, reduceCtorEq, Option.some.injEq] at h <;> subst h <;> rfl

theorem ptr_zero (d : Disk) (pos : Pos) : d.ptr Inode.zero pos = 0 := by
  have hz : (0 : UInt32).toNat = 0 := rfl
  cases pos <;> simp [Disk.ptr, Disk.entry, Inode.zero, hz]

def volPtr (T : Nat → Inode) (d : Disk) (s : Nat × Pos) : Nat := d.ptr (T s.1) s.2

/-- The pointers of a table of inodes are what records and blocks hold. -/
theorem stored_volPtr (T : Nat → Inode) (d : Disk) :
    Stored Pos.shape (fun s => (T s.1).root s.2)
      (fun q j => ((d q).word (4 * j)).toNat) (volPtr T d) := by
  rintro ⟨i, pos⟩
  cases pos <;> rfl

def posOf (l : Nat) : Option Pos :=
  if h : l < 6 then some (.direct ⟨l, h⟩)
  else if h : l - 6 < 128 then some (.single ⟨l - 6, h⟩)
  else if h : l - 134 < 16384 then
    some (.leaf ⟨(l - 134) / 128, by omega⟩ ⟨(l - 134) % 128, by omega⟩)
  else none

def Pos.logical : Pos → Nat
  | .direct i => i.val
  | .single j => 6 + j.val
  | .leaf j k => 134 + 128 * j.val + k.val
  | _ => 0

theorem logical_posOf {l : Nat} {pos : Pos} (h : posOf l = some pos) :
    pos.logical = l := by
  unfold posOf at h
  split at h
  · rw [← Option.some.inj h]; rfl
  · split at h
    · rw [← Option.some.inj h]
      simp only [Pos.logical]
      omega
    · split at h
      · rw [← Option.some.inj h]
        simp only [Pos.logical]
        omega
      · cases h

theorem posOf_inj {l l' : Nat} {pos : Pos} (h : posOf l = some pos)
    (h' : posOf l' = some pos) : l = l' :=
  (logical_posOf h).symm.trans (logical_posOf h')

/-- The positions of logical indices point to data, not to pointers. -/
theorem isTable_posOf {l : Nat} {pos : Pos} (h : posOf l = some pos) :
    pos.isTable = false := by
  unfold posOf at h
  split at h
  · rw [← Option.some.inj h]; rfl
  · split at h
    · rw [← Option.some.inj h]; rfl
    · split at h
      · rw [← Option.some.inj h]; rfl
      · cases h

/-- A pointer as `get_data_block_for_inode` returns it. -/
def asPtr (n : Nat) : Option Nat := if n = 0 then none else asInt n

theorem asPtr_eq_some {n p : Nat} : asPtr n = some p ↔ n = p ∧ n ≠ 0 ∧ n < 2147483648 := by
  unfold asPtr
  split
  · simp_all
  · rw [asInt_eq_some]
    tauto

/-- The block of a logical index, when it is mapped. -/
def Disk.lookup (d : Disk) (r : Inode) (l : Nat) : Option Nat :=
  (posOf l).bind fun pos => asPtr (d.ptr r pos)

theorem Disk.lookup_eq_some {d : Disk} {r : Inode} {l p : Nat} :
    d.lookup r l = some p ↔ ∃ pos, posOf l = some pos ∧ d.ptr r pos = p ∧ p ≠ 0
      ∧ p < 2147483648 := by
  simp only [Disk.lookup, Option.bind_eq_some_iff, asPtr_eq_some]
  constructor
  · rintro ⟨pos, h1, h2, h3, h4⟩
    exact ⟨pos, h1, h2, h2 ▸ h3, h2 ▸ h4⟩
  · rintro ⟨pos, h1, h2, h3, h4⟩
    exact ⟨pos, h1, h2, h2 ▸ h3, h2 ▸ h4⟩

end IpoOs
