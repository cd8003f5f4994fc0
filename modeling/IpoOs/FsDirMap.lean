import IpoOs.FsNames

/-!
# Directories as finite maps

On a volume with owned blocks whose numbers an `int` can hold, a
directory with properly named entries is a map from names to an inode
number and a type: `dir_find_entry` reads it, `dir_add_entry` extends it
and `dir_remove_entry` takes a name out of it. Slots carry the argument:
`Holds` says that a slot holds a live entry of a name, and each operation
is one equivalence about it.

The three operations are stated together in `dir_map`: what each of them
returns, and the map after it in terms of the map before it. Slots beyond
the ones that an operation touches are kept, so each operation is one case
distinction on a slot.
-/

namespace IpoOs

/-- What `dir_find_entry` gives for a name: the inode number and the type. -/
def Disk.dirMap (d : Disk) (u : Block) (sb : Superblock) (dir : Nat) (name : Str) :
    Option (UInt32 × UInt8) :=
  (dirFindEntry (arrayDev u) sb dir name d).1.map fun f => (f.1.inode, f.1.type)

/-- Slot `e` holds the live entry `s` of that name. -/
def Disk.Holds (d : Disk) (r : Inode) (e : Nat) (name : Str) (s : DirEntry) : Prop :=
  e < r.slots ∧ d.dirSlot r e = some s ∧ s.inode ≠ 0 ∧ s.HasName name

/-- The live entries have names, and no two of them the same. -/
structure Disk.NamesOk (d : Disk) (r : Inode) : Prop where
  named : ∀ e s, e < r.slots → d.dirSlot r e = some s → s.inode ≠ 0 → ∃ name, s.HasName name
  distinct : ∀ e e' s s' name, d.Holds r e name s → d.Holds r e' name s' → e = e'

theorem DirEntry.HasName.unique {e : DirEntry} {name name' : Str} (h : e.HasName name)
    (h' : e.HasName name') : name = name' := by
  rw [← h.nameBytes, h'.nameBytes]

theorem Disk.Holds.unique {d : Disk} {r : Inode} {e e' : Nat} {name : Str} {s s' : DirEntry}
    (N : d.NamesOk r) (h : d.Holds r e name s) (h' : d.Holds r e' name s') : s = s' := by
  obtain rfl := N.distinct e e' s s' name h h'
  exact Option.some.inj (h.2.1.symm.trans h'.2.1)

theorem mem_liveEntries {d : Disk} {r : Inode} {s : DirEntry} :
    s ∈ d.liveEntries r ↔ ∃ e, e < r.slots ∧ d.dirSlot r e = some s ∧ s.inode ≠ 0 := by
  unfold Disk.liveEntries
  rw [List.mem_filterMap]
  constructor
  · rintro ⟨e, he, hs⟩
    obtain ⟨hs, hlive⟩ := Option.filter_eq_some_iff.mp hs
    exact ⟨e, List.mem_range.mp he, hs, of_decide_eq_true hlive⟩
  · rintro ⟨e, he, hs, hlive⟩
    exact ⟨e, List.mem_range.mpr he, Option.filter_eq_some_iff.mpr ⟨hs, decide_eq_true hlive⟩⟩

/-! ## Lookup

A search of slots finds the one that holds the name, which is unique. -/

section

variable {sb : Superblock} {d : Disk} {dir : Nat} (u : Block)

theorem dirFindFrom_nil (r : Inode) (n e : Nat) :
    (dirFindFrom (arrayDev u) sb r [] n e d).1 = none := by
  have hno : ∀ buf off, entryMatches buf off [] = false := by
    intro buf off
    rcases em (entryNameLen buf off = 0) with h0 | h0
    · simp [entryMatches, h0]
    · simp [entryMatches, h0]
  induction n generalizing e with
  | zero => rfl
  | succ n ih =>
      unfold dirFindFrom
      rw [Prog.run_bind, findPhys_array]
      cases d.findPhys r e with
      | none => exact ih (e + 1)
      | some p =>
          rcases em (p = 0) with h0 | h0
          · simpa [h0] using ih (e + 1)
          · simpa [h0, hno] using ih (e + 1)

theorem dirMap_eq_some (hv : sb.ValidIno dir) (hdir : (d.inodeAt sb dir).isDir = true)
    (N : d.NamesOk (d.inodeAt sb dir)) {name : Str} {n : UInt32} {t : UInt8} :
    d.dirMap u sb dir name = some (n, t)
      ↔ ∃ e s, d.Holds (d.inodeAt sb dir) e name s ∧ s.inode = n ∧ s.type = t := by
  have hrun : dirFindEntry (arrayDev u) sb dir name d
      = dirFindFrom (arrayDev u) sb (d.inodeAt sb dir) name (d.inodeAt sb dir).slots 0 d := by
    simp [dirFindEntry, readInode_array, hv, hdir, Inode.slots]
  rcases em (name = []) with rfl | hname
  · rw [Disk.dirMap, hrun, dirFindFrom_nil]
    constructor
    · intro h
      cases h
    · rintro ⟨e, s, hs, -⟩
      exact absurd rfl hs.2.2.2.ne_nil
  · have hread : ∀ j s, 0 ≤ j → j < 0 + (d.inodeAt sb dir).slots →
        d.dirSlot (d.inodeAt sb dir) j = some s → s.Readable := fun j s _ hj hs hlive =>
      Or.inr (N.named j s (by omega) hs hlive)
    have hfind := @dirFindFrom_find sb d (d.inodeAt sb dir) u name hname _ _ hread
    rw [← List.range_eq_range', ← Disk.liveEntries] at hfind
    have hmap : d.dirMap u sb dir name = ((d.liveEntries (d.inodeAt sb dir)).find?
        fun s => s.nameBytes = name).map fun s => (s.inode, s.type) := by
      rw [Disk.dirMap, hrun, ← hfind, Option.map_map]
      rfl
    rw [hmap]
    constructor
    · intro h
      obtain ⟨s, hs, hval⟩ := Option.map_eq_some_iff.mp h
      obtain ⟨hn, ht⟩ := Prod.mk.inj hval
      obtain ⟨e, he, hslot, hlive⟩ := mem_liveEntries.mp (List.mem_of_find?_eq_some hs)
      obtain ⟨name', hname'⟩ := N.named e s he hslot hlive
      have heq : s.nameBytes = name := by simpa using List.find?_some hs
      rw [hname'.nameBytes] at heq
      exact ⟨e, s, ⟨he, hslot, hlive, heq ▸ hname'⟩, hn, ht⟩
    · rintro ⟨e, s, hs, rfl, rfl⟩
      have hmem := mem_liveEntries.mpr ⟨e, hs.1, hs.2.1, hs.2.2.1⟩
      have hsome : ((d.liveEntries (d.inodeAt sb dir)).find? fun s => s.nameBytes = name).isSome :=
        List.find?_isSome.mpr ⟨s, hmem, by simpa using hs.2.2.2.nameBytes⟩
      obtain ⟨s', hs'⟩ := Option.isSome_iff_exists.mp hsome
      -- the entry found has the name, so it is this one
      obtain ⟨e', he', hslot', hlive'⟩ := mem_liveEntries.mp (List.mem_of_find?_eq_some hs')
      obtain ⟨name', hname'⟩ := N.named e' s' he' hslot' hlive'
      have heq : s'.nameBytes = name := by simpa using List.find?_some hs'
      rw [hname'.nameBytes] at heq
      rw [hs', Option.map_some, Disk.Holds.unique N hs ⟨he', hslot', hlive', heq ▸ hname'⟩]

end

/-- What a slot contributes to the lookup of a name. -/
def DirEntry.valueFor (name : Str) (s : DirEntry) : Option (UInt32 × UInt8) :=
  if s.inode ≠ 0 ∧ s.nameBytes = name then some (s.inode, s.type) else none

theorem find_live (f : Nat → Option DirEntry) (name : Str) (l : List Nat) :
    (((l.filterMap fun e => (f e).filter fun s => s.inode ≠ 0).find?
        fun s => s.nameBytes = name).map fun s => (s.inode, s.type))
      = l.findSome? fun e => (f e).bind (DirEntry.valueFor name) := by
  induction l with
  | nil => rfl
  | cons e l ih =>
      rw [List.findSome?_cons, ← ih]
      cases hs : f e with
      | none => simp [hs]
      | some s =>
          rcases em (s.inode = 0) with h0 | h0
          · simp [hs, Option.filter, h0, DirEntry.valueFor]
          · rcases em (s.nameBytes = name) with hn | hn
            · simp [hs, Option.filter, h0, DirEntry.valueFor, hn]
            · simp [hs, Option.filter, h0, DirEntry.valueFor, hn]

theorem findSome_congr {α β : Type} {f g : α → Option β} {l : List α} (h : ∀ a ∈ l, f a = g a) :
    l.findSome? f = l.findSome? g := by
  induction l with
  | nil => rfl
  | cons a l ih =>
      rw [List.findSome?_cons, List.findSome?_cons, h a List.mem_cons_self,
        ih fun b hb => h b (List.mem_cons_of_mem a hb)]

section

variable {sb : Superblock} {d d' : Disk} {dir : Nat} (u : Block)

theorem dirMap_findSome (hv : sb.ValidIno dir) (hdir : (d.inodeAt sb dir).isDir = true)
    (hread : ∀ e s, e < (d.inodeAt sb dir).slots → d.dirSlot (d.inodeAt sb dir) e = some s →
      s.Readable) {name : Str} (hname : name ≠ []) :
    d.dirMap u sb dir name = (List.range (d.inodeAt sb dir).slots).findSome? fun e =>
      (d.dirSlot (d.inodeAt sb dir) e).bind (DirEntry.valueFor name) := by
  have hrun : dirFindEntry (arrayDev u) sb dir name d
      = dirFindFrom (arrayDev u) sb (d.inodeAt sb dir) name (d.inodeAt sb dir).slots 0 d := by
    simp [dirFindEntry, readInode_array, hv, hdir, Inode.slots]
  have hfind := @dirFindFrom_find sb d (d.inodeAt sb dir) u name hname (d.inodeAt sb dir).slots 0
    fun j s _ hj hs => hread j s (by omega) hs
  rw [← find_live, List.range_eq_range', ← hfind, Disk.dirMap, hrun, Option.map_map]
  rfl

/-- Directories whose slots contribute the same to a name map it to the same. -/
theorem dirMap_congr (hv : sb.ValidIno dir) (hdir : (d.inodeAt sb dir).isDir = true)
    (hdir' : (d'.inodeAt sb dir).isDir = true)
    (hread : ∀ e s, e < (d.inodeAt sb dir).slots → d.dirSlot (d.inodeAt sb dir) e = some s →
      s.Readable)
    (hread' : ∀ e s, e < (d'.inodeAt sb dir).slots → d'.dirSlot (d'.inodeAt sb dir) e = some s →
      s.Readable)
    (hslots : (d'.inodeAt sb dir).slots = (d.inodeAt sb dir).slots) {name : Str}
    (h : name ≠ [] → ∀ e, e < (d.inodeAt sb dir).slots →
      (d'.dirSlot (d'.inodeAt sb dir) e).bind (DirEntry.valueFor name)
        = (d.dirSlot (d.inodeAt sb dir) e).bind (DirEntry.valueFor name)) :
    d'.dirMap u sb dir name = d.dirMap u sb dir name := by
  rcases em (name = []) with rfl | hname
  · have hnone : ∀ e : Disk, (e.inodeAt sb dir).isDir = true → e.dirMap u sb dir [] = none := by
      intro e he
      have hrun : dirFindEntry (arrayDev u) sb dir [] e = dirFindFrom (arrayDev u) sb
          (e.inodeAt sb dir) [] (e.inodeAt sb dir).slots 0 e := by
        simp [dirFindEntry, readInode_array, hv, he, Inode.slots]
      rw [Disk.dirMap, hrun, dirFindFrom_nil]
      rfl
    rw [hnone d' hdir', hnone d hdir]
  · rw [dirMap_findSome u hv hdir' hread' hname, dirMap_findSome u hv hdir hread hname, hslots]
    exact findSome_congr fun e he => h hname e (List.mem_range.mp he)

end

/-! ## Addition

The new slot is the last one, and the others stay. -/

section

variable {sb : Superblock} {d d' : Disk} {dir : Nat} {name : Str} {n : UInt32} {t : UInt8}

theorem EntryAdded.holds (h : EntryAdded sb dir (makeEntry n.toNat t name) d d') (hn : n ≠ 0)
    (hname : isValidFilename name = true) {e : Nat} {other : Str} {s : DirEntry} :
    d'.Holds (d'.inodeAt sb dir) e other s
      ↔ (e = (d.inodeAt sb dir).slots ∧ other = name ∧ s = makeEntry n.toNat t name)
        ∨ d.Holds (d.inodeAt sb dir) e other s := by
  have hnew := DirEntry.hasName_makeEntry (Or.inl hname) n.toNat t
  have hlive : (makeEntry n.toNat t name).inode ≠ 0 := by
    show UInt32.ofNat n.toNat ≠ 0
    rwa [UInt32.ofNat_toNat]
  unfold Disk.Holds
  rw [h.slots]
  constructor
  · rintro ⟨he, hs, hl, hh⟩
    rcases em (e = (d.inodeAt sb dir).slots) with rfl | hne
    · obtain rfl := Option.some.inj (h.slot.symm.trans hs)
      exact Or.inl ⟨rfl, hh.unique hnew, rfl⟩
    · refine Or.inr ⟨by omega, ?_, hl, hh⟩
      cases hd : d.dirSlot (d.inodeAt sb dir) e with
      | none => exact absurd (h.fresh e s hne hd hs) hl
      | some s' => rw [← hs, h.kept e s' hne hd]
  · rintro (⟨rfl, rfl, rfl⟩ | ⟨he, hs, hl, hh⟩)
    · exact ⟨Nat.lt_succ_self _, h.slot, hlive, hnew⟩
    · exact ⟨by omega, h.kept e s (by omega) hs, hl, hh⟩

theorem EntryAdded.namesOk (h : EntryAdded sb dir (makeEntry n.toNat t name) d d') (hn : n ≠ 0)
    (hname : isValidFilename name = true) (N : d.NamesOk (d.inodeAt sb dir))
    (hnew : ∀ e s, ¬ d.Holds (d.inodeAt sb dir) e name s) : d'.NamesOk (d'.inodeAt sb dir) where
  named e s he hs hl := by
    rcases em (e = (d.inodeAt sb dir).slots) with rfl | hne
    · obtain rfl := Option.some.inj (h.slot.symm.trans hs)
      exact ⟨name, DirEntry.hasName_makeEntry (Or.inl hname) _ _⟩
    · rw [h.slots] at he
      cases hd : d.dirSlot (d.inodeAt sb dir) e with
      | none => exact absurd (h.fresh e s hne hd hs) hl
      | some s' =>
          obtain rfl := Option.some.inj ((h.kept e s' hne hd).symm.trans hs)
          exact N.named e s' (by omega) hd hl
  distinct e e' s s' other hs hs' := by
    rcases (h.holds hn hname).mp hs with ⟨he, hother, -⟩ | hold
    · rcases (h.holds hn hname).mp hs' with ⟨he', -, -⟩ | hold'
      · rw [he, he']
      · rw [hother] at hold'
        exact absurd hold' (hnew e' s')
    · rcases (h.holds hn hname).mp hs' with ⟨-, hother, -⟩ | hold'
      · rw [hother] at hold
        exact absurd hold (hnew e s)
      · exact N.distinct e e' s s' other hold hold'

end

/-! ## Removal

The slot of the name dies. A name of the two dots, or of a protected inode,
is refused. -/

/-- The first slot of directory `dir` that `dir_remove_entry` takes for `name` is not one
it refuses to remove. -/
def Disk.Removable (d : Disk) (sb : Superblock) (dir : Nat) (name : Str) : Prop :=
  sb.ValidIno dir ∧ ∃ k p, k < (d.inodeAt sb dir).slots
    ∧ (∀ j, j < k → ¬ d.RemoveHit (d.inodeAt sb dir) name j)
    ∧ d.RemoveHit (d.inodeAt sb dir) name k
    ∧ d.lookup (d.inodeAt sb dir) (k / 7) = some p ∧ ¬ d.RemoveRefused sb p (k % 7 * 72)

section

variable {sb : Superblock} {d d' : Disk} {dir k : Nat}

theorem dirRemoveEntry_iff (u : Block) (dir : Nat) (name : Str) :
    (dirRemoveEntry (arrayDev u) sb dir name d).1 = true ↔ d.Removable sb dir name := by
  constructor
  · intro h
    rcases dirRemoveEntry_cases u d dir name with
      hrun | ⟨k, p, hv, hk, hfirst, hp, hne, hcmp, hnot, hrun⟩
    · rw [hrun] at h
      cases h
    · exact ⟨hv, k, p, hk, hfirst, ⟨p, hp, hne, hcmp⟩, hp, hnot⟩
  · rintro ⟨hv, k, p, hk, hfirst, hhit, hp, hnot⟩
    have hrun : dirRemoveEntry (arrayDev u) sb dir name d = dirRemoveFrom (arrayDev u) sb
        (d.inodeAt sb dir) name (d.inodeAt sb dir).slots 0 d := by
      simp [dirRemoveEntry, readInode_array, hv, Inode.slots]
    rw [hrun]
    rcases @dirRemoveFrom_cases u sb d (d.inodeAt sb dir) name (d.inodeAt sb dir).slots 0 with
      ⟨j, -, hj, hbefore, q, hq, hne, hcmp, hres⟩ | ⟨hnone, -⟩
    · -- the first hit is slot `k`
      obtain rfl : j = k := by
        rcases Nat.lt_trichotomy j k with hlt | heq | hgt
        · exact absurd ⟨q, hq, hne, hcmp⟩ (hfirst j hlt)
        · exact heq
        · exact absurd hhit (hbefore k (Nat.zero_le k) hgt)
      obtain rfl := Option.some.inj (hp.symm.trans hq)
      rcases hres with ⟨href, -⟩ | ⟨-, h⟩
      · exact absurd href hnot
      · rw [h]
    · exact absurd hhit (hnone k (Nat.zero_le k) (by omega))

theorem SlotChanged.holds_dead (h : SlotChanged sb dir k DirEntry.dead d d') {e : Nat} {other : Str}
    {s : DirEntry} : d'.Holds (d'.inodeAt sb dir) e other s
      ↔ e ≠ k ∧ d.Holds (d.inodeAt sb dir) e other s := by
  unfold Disk.Holds
  rw [h.inodeAt, h.slot]
  split
  · rename_i he
    constructor
    · rintro ⟨-, hs, hl, -⟩
      obtain ⟨s', -, rfl⟩ := Option.map_eq_some_iff.mp hs
      exact absurd rfl hl
    · rintro ⟨hne, -⟩
      exact absurd he hne
  · rename_i he
    exact ⟨fun hs => ⟨he, hs⟩, And.right⟩

theorem SlotChanged.namesOk_dead (h : SlotChanged sb dir k DirEntry.dead d d')
    (N : d.NamesOk (d.inodeAt sb dir)) : d'.NamesOk (d'.inodeAt sb dir) where
  named e s he hs hl := by
    rw [h.inodeAt, h.slot] at hs
    rw [h.inodeAt] at he
    split at hs
    · obtain ⟨s', -, rfl⟩ := Option.map_eq_some_iff.mp hs
      exact absurd rfl hl
    · exact N.named e s he hs hl
  distinct e e' s s' other hs hs' :=
    N.distinct e e' s s' other (h.holds_dead.mp hs).2 (h.holds_dead.mp hs').2

/-- A slot of a directory with owned blocks, as `dir_remove_entry` reads it. -/
theorem dirSlot_lookup {r : Inode} (hint : d.IntPtrs r) {e : Nat} {s : DirEntry} :
    d.dirSlot r e = some s
      ↔ ∃ p, d.lookup r (e / 7) = some p ∧ DirEntry.decode (d p) (e % 7 * 72) = s := by
  rw [Disk.dirSlot_eq_some hint]
  constructor
  · rintro ⟨pos, hpos, h0, hs⟩
    exact ⟨_, Disk.lookup_eq_some.mpr ⟨pos, hpos, rfl, h0, hint pos⟩, hs⟩
  · rintro ⟨p, hp, hs⟩
    obtain ⟨pos, hpos, rfl, h0, -⟩ := Disk.lookup_eq_some.mp hp
    exact ⟨pos, hpos, h0, hs⟩

/-- `dir_remove_entry` takes the slots that `dir_find_entry` finds. -/
theorem removeHit_iff {r : Inode} (hint : d.IntPtrs r) (N : d.NamesOk r) {name : Str}
    (hname : (0 : UInt8) ∉ name) {e : Nat} (he : e < r.slots) :
    d.RemoveHit r name e ↔ ∃ s, d.Holds r e name s := by
  constructor
  · rintro ⟨p, hp, hlive, hcmp⟩
    have hs := (dirSlot_lookup hint).mpr ⟨p, hp, rfl⟩
    obtain ⟨stored, hstored⟩ := N.named e _ he hs hlive
    have hshort := hstored.short
    have heq := (strncmp_hasName hstored hname (Or.inl hshort)).mp hcmp
    exact ⟨_, he, hs, hlive, heq ▸ hstored⟩
  · rintro ⟨s, -, hs, hlive, hh⟩
    obtain ⟨p, hp, rfl⟩ := (dirSlot_lookup hint).mp hs
    have hshort := hh.short
    exact ⟨p, hp, hlive, (strncmp_hasName hh hname (Or.inl hshort)).mpr rfl⟩

theorem removeRefused_iff {name : Str} {p off : Nat}
    (h : (DirEntry.decode (d p) off).HasName name) :
    d.RemoveRefused sb p off ↔ (sb.ValidIno (DirEntry.decode (d p) off).inode.toNat
        ∧ (d.inodeAt sb (DirEntry.decode (d p) off).inode.toNat).isProtected = true)
      ∨ name = dot ∨ name = dotdot := by
  unfold Disk.RemoveRefused
  rw [strcmp_hasName h (by decide), strcmp_hasName h (by decide)]
  exact Iff.rfl

end

/-! ## The map

The operations as equations between maps. -/

/-- `dir_add_entry` of a name with an inode number and a type. -/
structure AddsEntry (u : Block) (sb : Superblock) (dir : Nat) (name : Str) (n : UInt32) (t : UInt8)
    (d : Disk) : Prop where
  refused : (d.dirMap u sb dir name).isSome ∨ isValidFilename name = false →
    (dirAddEntry (arrayDev u) sb dir name n.toNat t d).1 = false
  added : ∀ d', dirAddEntry (arrayDev u) sb dir name n.toNat t d = (true, d') →
    d'.dirMap u sb dir name = some (n, t)
    ∧ (∀ other : CString, other.chars ≠ name →
      d'.dirMap u sb dir other.chars = d.dirMap u sb dir other.chars)
    ∧ d'.NamesOk (d'.inodeAt sb dir)

/-- `dir_remove_entry` of a name. -/
structure RemovesEntry (u : Block) (sb : Superblock) (dir : Nat) (name : Str) (d : Disk) :
    Prop where
  removed_iff : (dirRemoveEntry (arrayDev u) sb dir name d).1 = true
    ↔ ∃ n t, d.dirMap u sb dir name = some (n, t) ∧ name ≠ dot ∧ name ≠ dotdot
      ∧ ¬ (sb.ValidIno n.toNat ∧ (d.inodeAt sb n.toNat).isProtected = true)
  removed : ∀ d', dirRemoveEntry (arrayDev u) sb dir name d = (true, d') →
    d'.dirMap u sb dir name = none
    ∧ (∀ other : CString, other.chars ≠ name →
      d'.dirMap u sb dir other.chars = d.dirMap u sb dir other.chars)
    ∧ d'.NamesOk (d'.inodeAt sb dir)

section

variable {u : Block} {sb : Superblock} {d : Disk} (L : SoundLayout sb)
  (O : OwnedVol sb (intBound sb) d) {dir : Nat} (hv : sb.ValidIno dir)
  (hdir : (d.inodeAt sb dir).isDir = true) (N : d.NamesOk (d.inodeAt sb dir))

include hv hdir N

theorem dirMap_eq_none {name : Str} :
    d.dirMap u sb dir name = none ↔ ∀ e s, ¬ d.Holds (d.inodeAt sb dir) e name s := by
  rw [Option.eq_none_iff_forall_ne_some]
  constructor
  · intro h e s hs
    exact h (s.inode, s.type) ((dirMap_eq_some u hv hdir N).mpr ⟨e, s, hs, rfl, rfl⟩)
  · rintro h ⟨n, t⟩ hmap
    obtain ⟨e, s, hs, -⟩ := (dirMap_eq_some u hv hdir N).mp hmap
    exact h e s hs

include L O

theorem dirAddEntry_map (name : CString) {n : UInt32} (hn : n ≠ 0) (t : UInt8) :
    AddsEntry u sb dir name.chars n t d := by
  constructor
  · intro h
    cases hres : (dirAddEntry (arrayDev u) sb dir name.chars n.toNat t d).1 with
    | false => rfl
    | true =>
        obtain ⟨⟨-, -, hvalid, hnone⟩, -⟩ := dirAddEntry_added L u O (Prod.ext hres rfl)
        rcases h with h | h
        · rw [Disk.dirMap, hnone] at h
          cases h
        · rw [h] at hvalid
          cases hvalid
  · intro d' hrun
    obtain ⟨⟨-, -, hvalid, hnone⟩, hadd⟩ := dirAddEntry_added L u O hrun
    have hdir' : (d'.inodeAt sb dir).isDir = true := by
      rw [Inode.isDir, hadd.touched.mode]
      exact hdir
    have hnew : ∀ e s, ¬ d.Holds (d.inodeAt sb dir) e name.chars s := by
      refine (dirMap_eq_none (u := u) hv hdir N).mp ?_
      rw [Disk.dirMap, hnone]
      rfl
    have N' := hadd.namesOk hn hvalid N hnew
    refine ⟨?_, fun other hother => ?_, N'⟩
    · refine (dirMap_eq_some u hv hdir' N').mpr ⟨_, _, (hadd.holds hn hvalid).mpr
        (Or.inl ⟨rfl, rfl, rfl⟩), ?_, rfl⟩
      show UInt32.ofNat n.toNat = n
      rw [UInt32.ofNat_toNat]
    · refine Option.ext fun ⟨n', t'⟩ => ?_
      rw [dirMap_eq_some u hv hdir' N', dirMap_eq_some u hv hdir N]
      refine exists_congr fun e => exists_congr fun s => and_congr_left fun _ => ?_
      rw [hadd.holds hn hvalid]
      constructor
      · rintro (⟨-, heq, -⟩ | hs)
        · exact absurd heq hother
        · exact hs
      · exact Or.inr

theorem dirRemoveEntry_map (name : CString) : RemovesEntry u sb dir name.chars d := by
  constructor
  · rw [dirRemoveEntry_iff u]
    constructor
    · rintro ⟨-, k, p, hk, -, hhit, hp, hnot⟩
      obtain ⟨s, hs⟩ := (removeHit_iff (O.intPtrs dir) N name.noNul hk).mp hhit
      have hslot := (dirSlot_lookup (O.intPtrs dir)).mpr ⟨p, hp, rfl⟩
      obtain rfl := Option.some.inj (hslot.symm.trans hs.2.1)
      rw [removeRefused_iff hs.2.2.2, not_or, not_or] at hnot
      exact ⟨_, _, (dirMap_eq_some u hv hdir N).mpr ⟨k, _, hs, rfl, rfl⟩, hnot.2.1, hnot.2.2,
        hnot.1⟩
    · rintro ⟨n, t, hmap, hdot, hdotdot, hprot⟩
      obtain ⟨k, s, hs, rfl, -⟩ := (dirMap_eq_some u hv hdir N).mp hmap
      obtain ⟨p, hp, rfl⟩ := (dirSlot_lookup (O.intPtrs dir)).mp hs.2.1
      refine ⟨hv, k, p, hs.1, fun j hj hhit => ?_,
        (removeHit_iff (O.intPtrs dir) N name.noNul hs.1).mpr ⟨_, hs⟩, hp, ?_⟩
      · have hlt := hs.1
        obtain ⟨s', hs'⟩ := (removeHit_iff (O.intPtrs dir) N name.noNul (by omega)).mp hhit
        have heq := N.distinct j k s' _ name.chars hs' hs
        omega
      · rw [removeRefused_iff hs.2.2.2, not_or, not_or]
        exact ⟨hprot, hdot, hdotdot⟩
  · intro d' hrun
    obtain ⟨k, p, hk, -, -, hhit, -, hch⟩ := dirRemoveEntry_removed L u O hrun
    obtain ⟨s, hs⟩ := (removeHit_iff (O.intPtrs dir) N name.noNul hk).mp hhit
    have hdir' : (d'.inodeAt sb dir).isDir = true := by
      rw [hch.inodeAt]
      exact hdir
    have N' := hch.namesOk_dead N
    refine ⟨(dirMap_eq_none hv hdir' N').mpr fun e s' hs' => ?_, fun other hother => ?_, N'⟩
    · obtain ⟨hne, hold⟩ := hch.holds_dead.mp hs'
      exact hne (N.distinct e k s' s _ hold hs)
    · refine Option.ext fun ⟨n', t'⟩ => ?_
      rw [dirMap_eq_some u hv hdir' N', dirMap_eq_some u hv hdir N]
      refine exists_congr fun e => exists_congr fun s' => and_congr_left fun _ => ?_
      rw [hch.holds_dead]
      refine ⟨And.right, fun hold => ⟨?_, hold⟩⟩
      rintro rfl
      have hslot := Option.some.inj (hs.2.1.symm.trans hold.2.1)
      rw [← hslot] at hold
      exact hother (hold.2.2.2.unique hs.2.2.2)

end

/-- Directories with properly named entries behave as finite maps, on volumes whose
blocks are owned and have numbers below `2^31`. -/
theorem dir_map {u : Block} {sb : Superblock} {d : Disk} (L : SoundLayout sb)
    (O : OwnedVol sb (intBound sb) d) {dir : Nat} (hv : sb.ValidIno dir)
    (hdir : (d.inodeAt sb dir).isDir = true) (N : d.NamesOk (d.inodeAt sb dir)) (name : CString) :
    (∀ (n : UInt32) (t : UInt8), n ≠ 0 → AddsEntry u sb dir name.chars n t d)
    ∧ RemovesEntry u sb dir name.chars d :=
  ⟨fun _ t hn => dirAddEntry_map L O hv hdir N name hn t, dirRemoveEntry_map L O hv hdir N name⟩

theorem namesOk_of_names {d : Disk} {r : Inode} (names : List Str) (hslots : r.slots = names.length)
    (hnames : ∀ e (he : e < names.length), ∃ s, d.dirSlot r e = some s ∧ s.HasName names[e])
    (hnodup : names.Nodup) : d.NamesOk r where
  named e s he hs _ := by
    obtain ⟨s', hs', hh⟩ := hnames e (by omega)
    exact ⟨_, Option.some.inj (hs'.symm.trans hs) ▸ hh⟩
  distinct e e' s s' name hs hs' := by
    have he := hs.1
    have he' := hs'.1
    obtain ⟨t, ht, hh⟩ := hnames e (by omega)
    obtain ⟨t', ht', hh'⟩ := hnames e' (by omega)
    obtain rfl := Option.some.inj (ht.symm.trans hs.2.1)
    obtain rfl := Option.some.inj (ht'.symm.trans hs'.2.1)
    have heq : names[e] = names[e'] := by
      rw [hh.unique hs.2.2.2, hh'.unique hs'.2.2.2]
    exact (hnodup.getElem_inj_iff).mp heq

def DirEntry.checkName (s : DirEntry) (name : Str) : Bool :=
  name ≠ [] && !name.contains 0 && name.length < 64 && s.nameLen.toNat = name.length
    && decide (∀ i : Fin 64, i.val ≤ name.length → s.name i = cstr name i.val)

theorem DirEntry.hasName_of_checkName {s : DirEntry} {name : Str} (h : s.checkName name = true) :
    s.HasName name := by
  simp only [DirEntry.checkName, Bool.and_eq_true, decide_eq_true_eq, Bool.not_eq_true',
    List.contains_eq_mem, decide_eq_false_iff_not] at h
  exact ⟨h.1.1.1.1, h.1.1.1.2, h.1.1.2, h.1.2, h.2⟩

def rootNames : List Str := [dot, dotdot, appName, autorunName]

theorem rootNames_ok : (mountedKernel 12 6).disk.NamesOk
    ((mountedKernel 12 6).disk.inodeAt (mountedKernel 12 6).sb 1) := by
  have hcheck : ∀ e : Fin 4, ((mountedKernel 12 6).disk.dirSlot
      ((mountedKernel 12 6).disk.inodeAt (mountedKernel 12 6).sb 1) e.val).any
        (fun s => s.checkName (rootNames.getD e.val [])) = true := by
    decide +kernel
  refine namesOk_of_names rootNames (by decide +kernel) (fun e he => ?_) (by decide)
  obtain ⟨s, hs, hname⟩ := (Option.any_eq_true _ _).mp (hcheck ⟨e, he⟩)
  refine ⟨s, hs, DirEntry.hasName_of_checkName ?_⟩
  rwa [List.getD_eq_getElem?_getD, List.getElem?_eq_getElem he, Option.getD_some] at hname

/-- The name `autorun` in the root of a new volume. -/
theorem dir_map_root :
    (∀ (n : UInt32) (t : UInt8), n ≠ 0 →
      AddsEntry Buf.zero (mountedKernel 12 6).sb 1 autorunName n t
      (mountedKernel 12 6).disk)
    ∧ RemovesEntry Buf.zero (mountedKernel 12 6).sb 1 autorunName (mountedKernel 12 6).disk :=
  dir_map mountedKernel_volOk.layout mountedKernel_volOk.owned mountedKernel_root.1
    mountedKernel_root.2 rootNames_ok ⟨autorunName, by decide⟩

/-! ## Block numbers that are no `int`

A volume on which the bound on block numbers fails and with it the removal. -/

/-- The superblock of a volume with a data block numbered `2^31`. -/
def largeSuper : Superblock :=
  { Superblock.zero with
    fsSizeBlocks := 2147483649
    inodeCount := 1
    inodeBitmapStart := 1
    blockBitmapStart := 2
    inodeTableStart := 1000000
    dataBlocksStart := 2000000 }

def largeDir : Inode :=
  { Inode.zero with
    mode := typeDir.toUInt32
    size := 72
    direct := fun i => if i.val = 0 then 2147483648 else 0 }

/-- The volume: its root has one entry, `a`. -/
def largeDisk : Disk :=
  ((Disk.putInode (fun _ => Buf.zero) largeSuper 1 largeDir).takeBlock largeSuper 2147483648).set
    2147483648 (Buf.zero.patch 0 72 (makeEntry 1 typeDir [97]).encode)

theorem largeSuper_layout : SoundLayout largeSuper :=
  ⟨by decide, by decide, by decide, by decide, by decide⟩

theorem largeSuper_data : largeSuper.DataBlock 2147483648 := ⟨by decide, by decide⟩

theorem largeDisk_inodeAt (i : Nat) :
    largeDisk.inodeAt largeSuper i = if i = 1 then largeDir else Inode.zero := by
  have L := largeSuper_layout
  have hv : largeSuper.ValidIno 1 := ⟨by decide, by decide⟩
  unfold largeDisk
  rw [(sameMeta_set largeSuper_data _).inodeAt L, (L.sameMeta_takeBlock largeSuper_data).inodeAt L,
    L.inodeAt_putInode hv]
  split
  · rfl
  · unfold Disk.inodeAt
    split
    · rfl
    · rfl

theorem largeDir_ptr (d : Disk) (pos : Pos) :
    d.ptr largeDir pos = if pos = .direct 0 then 2147483648 else 0 := by
  have hz : (0 : UInt32).toNat = 0 := rfl
  cases pos with
  | direct j =>
      rcases em (j = 0) with rfl | hne
      · rfl
      · simp [Disk.ptr, largeDir, hne]
  | indirect => rfl
  | double => rfl
  | single j => simp [Disk.ptr, largeDir, Inode.zero, Disk.entry, hz]
  | table j => simp [Disk.ptr, largeDir, Inode.zero, Disk.entry, hz]
  | leaf j k => simp [Disk.ptr, largeDir, Inode.zero, Disk.entry, hz]

/-- The entry in the block numbered `2^31` is found and cannot be removed: everything the
map asks for holds of this volume but the bound on block numbers. -/
theorem dir_map_large :
    SoundLayout largeSuper ∧ OwnedVol largeSuper largeSuper.fsSizeBlocks.toNat largeDisk
    ∧ largeSuper.ValidIno 1 ∧ (largeDisk.inodeAt largeSuper 1).isDir = true
    ∧ largeDisk.NamesOk (largeDisk.inodeAt largeSuper 1)
    ∧ largeDisk.dirMap Buf.zero largeSuper 1 [97] = some (1, typeDir)
    ∧ (largeDisk.inodeAt largeSuper 1).isProtected = false
    ∧ (dirRemoveEntry (arrayDev Buf.zero) largeSuper 1 [97] largeDisk).1 = false := by
  have L := largeSuper_layout
  have hcheck : ((largeDisk.dirSlot (largeDisk.inodeAt largeSuper 1) 0).any
      fun s => s.checkName [97]) = true := by
    decide +kernel
  have hptr : ∀ s : Nat × Pos, volPtr (largeDisk.inodeAt largeSuper) largeDisk s ≠ 0 →
      s = (1, .direct 0) ∧ volPtr (largeDisk.inodeAt largeSuper) largeDisk s = 2147483648 := by
    rintro ⟨i, pos⟩ h0
    simp only [volPtr, largeDisk_inodeAt] at h0 ⊢
    rcases em (i = 1) with rfl | hi
    · rw [if_pos rfl, largeDir_ptr] at h0 ⊢
      rcases em (pos = .direct 0) with rfl | hpos
      · exact ⟨rfl, if_pos rfl⟩
      · rw [if_neg hpos] at h0
        exact absurd rfl h0
    · rw [if_neg hi, ptr_zero] at h0
      exact absurd rfl h0
  refine ⟨L, ⟨fun s h0 => ?_, fun s h0 => ?_, fun s h0 => ?_, fun s t h0 he => ?_⟩,
    ⟨by decide, by decide⟩, by decide +kernel, ?_, by decide +kernel, by decide +kernel,
    by decide +kernel⟩
  · rw [(hptr s h0).2]
    decide
  · rw [(hptr s h0).2]
    decide
  · rw [(hptr s h0).2]
    decide +kernel
  · rw [(hptr s h0).1, (hptr t (he ▸ h0)).1]
  · refine namesOk_of_names [[97]] (by decide +kernel) (fun e he => ?_) (by decide)
    obtain rfl : e = 0 := Nat.lt_one_iff.mp he
    obtain ⟨s, hs, hname⟩ := (Option.any_eq_true _ _).mp hcheck
    exact ⟨s, hs, DirEntry.hasName_of_checkName hname⟩

end IpoOs
