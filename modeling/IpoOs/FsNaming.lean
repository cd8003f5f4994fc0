import IpoOs.FsMove
import IpoOs.Naming

/-!
# The links of a volume

The directories of a volume as a `Naming`: the objects are the inodes in
use, and a slot of a directory links a name to an inode unless it is free,
has no name or is one of the two dots. Each step of a file system
operation is one of the four operations on names, or leaves them alone,
and says what becomes of the second slots, which `is_descendant` reads.

The dots and the nameless entries that a rename leaves behind are no links.
That makes the links those that a path can go along, and it is all that the
library of names has to know about directories.
-/

namespace IpoOs

/-- The link in a slot; none in a free one, in one without a name and in the two dots. -/
def DirEntry.link (s : DirEntry) : Option (Link Nat Str UInt8) :=
  if s.inode = 0 ∨ s.nameBytes = [] ∨ s.nameBytes = dot ∨ s.nameBytes = dotdot then none
  else some ⟨s.nameBytes, s.type, s.inode.toNat⟩

/-- The inodes in use, the directories and the links in their slots. -/
def Disk.naming (d : Disk) (sb : Superblock) : Naming Nat Str UInt8 where
  used i := sb.ValidIno i ∧ d.inodeUsed sb i = true
  dir i := d.LiveDir sb i
  entry x e := if d.LiveDir sb x ∧ e < (d.inodeAt sb x).slots
    then (d.dirSlot (d.inodeAt sb x) e).bind DirEntry.link else none

/-- What the inode number in a slot says to `is_descendant` at inode `i`. -/
def DirEntry.upFrom (i : Nat) (s : DirEntry) : Option Nat :=
  if s.inode = 0 ∨ s.inode.toNat = i then none else some s.inode.toNat

/-- The inode that `is_descendant` goes to from inode `i`: the one in its second slot. -/
def Disk.upLink (d : Disk) (sb : Superblock) (i : Nat) : Option Nat :=
  if sb.ValidIno i ∧ (d.inodeAt sb i).isDir = true
    then (d.dirSlot (d.inodeAt sb i) 1).bind (DirEntry.upFrom i) else none

/-- A name that a link can have. -/
def LinkName (name : Str) : Prop := name ≠ [] ∧ name ≠ dot ∧ name ≠ dotdot

/-! ## Links

A slot as a link, and the second slot as an up-link. -/

theorem DirEntry.link_eq_some {s : DirEntry} {l : Link Nat Str UInt8} :
    s.link = some l ↔ s.inode ≠ 0 ∧ LinkName s.nameBytes
      ∧ l = ⟨s.nameBytes, s.type, s.inode.toNat⟩ := by
  unfold DirEntry.link LinkName
  split
  · rename_i h
    constructor
    · intro hl
      cases hl
    · rintro ⟨hi, ⟨h1, h2, h3⟩, -⟩
      rcases h with h | h | h | h
      · exact absurd h hi
      · exact absurd h h1
      · exact absurd h h2
      · exact absurd h h3
  · rename_i h
    rw [not_or, not_or, not_or] at h
    obtain ⟨hi, h1, h2, h3⟩ := h
    rw [Option.some.injEq]
    exact ⟨fun hl => ⟨hi, ⟨h1, h2, h3⟩, hl.symm⟩, fun hl => hl.2.2.symm⟩

theorem DirEntry.link_of_free {s : DirEntry} (h : s.inode = 0) : s.link = none := if_pos (Or.inl h)

theorem DirEntry.link_of_nameless {s : DirEntry} (h : ¬ LinkName s.nameBytes) : s.link = none := by
  refine Option.eq_none_iff_forall_ne_some.mpr fun l hl => ?_
  exact h (DirEntry.link_eq_some.mp hl).2.1

theorem linkName_of_valid {name : Str} (h : isValidFilename name = true) : LinkName name := by
  simp only [isValidFilename, Bool.and_eq_true, decide_eq_true_eq, ne_eq] at h
  exact ⟨h.1.1.1.1, h.1.2, h.2⟩

theorem link_makeEntry {name : Str} (h : isValidFilename name = true) {n : UInt32} (hn : n ≠ 0)
    (t : UInt8) : (makeEntry n.toNat t name).link = some ⟨name, t, n.toNat⟩ := by
  have hshort := StoredName.length_lt (Or.inl h)
  have hino : (makeEntry n.toNat t name).inode = n := UInt32.ofNat_toNat
  have hname := nameBytes_makeEntry hshort n.toNat t
  refine DirEntry.link_eq_some.mpr
    ⟨by rw [hino]; exact hn, by rw [hname]; exact linkName_of_valid h, ?_⟩
  rw [hname, hino]
  rfl

/-- The inode number does not matter where the name is none that a link has. -/
theorem DirEntry.link_setInode {s : DirEntry} {v : UInt32}
    (h : s.nameBytes = [] ∨ s.nameBytes = dotdot ∨ s.inode = v) :
    DirEntry.link { s with inode := v } = s.link := by
  have hother : ¬ LinkName s.nameBytes →
      DirEntry.link { s with inode := v } = s.link := fun hno => by
    rw [DirEntry.link_of_nameless hno]
    exact DirEntry.link_of_nameless hno
  rcases h with h | h | h
  · exact hother fun hc => hc.1 h
  · exact hother fun hc => hc.2.2 h
  · rw [← h]

theorem DirEntry.upFrom_eq_some {i z : Nat} {s : DirEntry} :
    s.upFrom i = some z ↔ s.inode ≠ 0 ∧ s.inode.toNat ≠ i ∧ s.inode.toNat = z := by
  unfold DirEntry.upFrom
  split
  · rename_i h
    constructor
    · intro hz
      cases hz
    · rintro ⟨h0, hi, -⟩
      exact h.elim (absurd · h0) (absurd · hi)
  · rename_i h
    rw [not_or] at h
    rw [Option.some.injEq]
    exact ⟨fun hz => ⟨h.1, h.2, hz⟩, fun hz => hz.2.2⟩

theorem DirEntry.upFrom_of_free {i : Nat} {s : DirEntry} (h : s.inode = 0) : s.upFrom i = none :=
  if_pos (Or.inl h)

section

variable {sb : Superblock} {d : Disk} {x e : Nat} {l : Link Nat Str UInt8}

theorem Disk.naming_entry : (d.naming sb).entry x e = some l
    ↔ d.LiveDir sb x ∧ e < (d.inodeAt sb x).slots
      ∧ ∃ s, d.dirSlot (d.inodeAt sb x) e = some s ∧ s.link = some l := by
  show (if d.LiveDir sb x ∧ e < (d.inodeAt sb x).slots then _ else none) = some l ↔ _
  split
  · rename_i h
    rw [Option.bind_eq_some_iff]
    exact ⟨fun hs => ⟨h.1, h.2, hs⟩, fun hs => hs.2.2⟩
  · rename_i h
    exact ⟨fun hs => (by cases hs), fun hs => absurd ⟨hs.1, hs.2.1⟩ h⟩

theorem Disk.entry_of_dir (hdir : d.LiveDir sb x) (e : Nat) :
    (d.naming sb).entry x e = if e < (d.inodeAt sb x).slots
      then (d.dirSlot (d.inodeAt sb x) e).bind DirEntry.link else none := by
  show (if _ then _ else _) = _
  simp only [hdir, true_and]

theorem Disk.entry_of_file (hfile : ¬ d.LiveDir sb x) : (d.naming sb).entry x e = none :=
  if_neg fun hc => hfile hc.1

/-- The link in the second slot of a directory is its up-link, unless it leads to itself. -/
theorem Disk.upLink_second (h : (d.naming sb).entry x 1 = some l) (hne : l.target ≠ x) :
    d.upLink sb x = some l.target := by
  obtain ⟨⟨hv, -, hdir⟩, -, s, hs, hl⟩ := Disk.naming_entry.mp h
  obtain ⟨h0, -, rfl⟩ := DirEntry.link_eq_some.mp hl
  rw [Disk.upLink, if_pos ⟨hv, hdir⟩, hs]
  exact DirEntry.upFrom_eq_some.mpr ⟨h0, hne, rfl⟩

theorem Disk.upLink_of_file (h : (d.inodeAt sb x).isDir = false) : d.upLink sb x = none := by
  refine if_neg fun hc => ?_
  rw [h] at hc
  cases hc.2

end

/-! ## The steps

An addition is `link`, a slot made dead is `unlink`, a new inode is `alloc`
and a released one is `free`; a write to a file is nothing. -/

section

variable {sb : Superblock} {hi ino : Nat} {d d' : Disk}

/-- The links after an operation on one inode, given those of this inode. -/
theorem Touched.naming_eq (h : Touched sb hi ino d d') {G : Naming Nat Str UInt8}
    (hused : G.used = (d.naming sb).used) (hdir : G.dir = (d.naming sb).dir)
    (hother : ∀ x, x ≠ ino → G.entry x = (d.naming sb).entry x)
    (hself : ∀ e, (d'.naming sb).entry ino e = G.entry ino e) : d'.naming sb = G := by
  refine Naming.ext ?_ ?_ ?_
  · rw [hused]
    funext i
    refine propext (and_congr_right fun hv => ?_)
    rw [h.inodeUsed i hv]
  · rw [hdir]
    funext i
    exact propext (h.liveDir i)
  · funext x
    rcases em (x = ino) with rfl | hx
    · exact funext hself
    · rw [hother x hx]
      funext e
      show (if d'.LiveDir sb x ∧ e < (d'.inodeAt sb x).slots then _ else none) = _
      rw [h.inodeAt x hx, (h.same x hx).dirSlot]
      simp only [h.liveDir x]
      rfl

theorem Touched.naming_same (h : Touched sb hi ino d d')
    (hself : ∀ e, (d'.naming sb).entry ino e = (d.naming sb).entry ino e) :
    d'.naming sb = d.naming sb :=
  h.naming_eq rfl rfl (fun _ _ => rfl) hself

theorem Touched.naming_file (h : Touched sb hi ino d d') (hfile : ¬ d.LiveDir sb ino) :
    d'.naming sb = d.naming sb := by
  refine h.naming_same fun e => ?_
  rw [Disk.entry_of_file hfile, Disk.entry_of_file fun hc => hfile ((h.liveDir ino).mp hc)]

theorem Touched.upLink (h : Touched sb hi ino d d') {i : Nat} (hne : i ≠ ino) :
    d'.upLink sb i = d.upLink sb i := by
  unfold Disk.upLink
  rw [h.inodeAt i hne, (h.same i hne).dirSlot]

/-- The up-link of the inode operated on is the one in its second slot. -/
theorem Touched.upLink_self (h : Touched sb hi ino d d') : d'.upLink sb ino
    = if sb.ValidIno ino ∧ (d.inodeAt sb ino).isDir = true
      then (d'.dirSlot (d'.inodeAt sb ino) 1).bind (DirEntry.upFrom ino) else none := by
  unfold Disk.upLink Inode.isDir
  rw [h.mode]

theorem Touched.upLink_congr (h : Touched sb hi ino d d')
    (hslot : (d'.dirSlot (d'.inodeAt sb ino) 1).bind (DirEntry.upFrom ino)
      = (d.dirSlot (d.inodeAt sb ino) 1).bind (DirEntry.upFrom ino)) (i : Nat) :
    d'.upLink sb i = d.upLink sb i := by
  rcases em (i = ino) with rfl | hne
  · rw [h.upLink_self, hslot]
    rfl
  · exact h.upLink hne

theorem Touched.entry_self (h : Touched sb hi ino d d') (hdir : d.LiveDir sb ino) (e : Nat) :
    (d'.naming sb).entry ino e = if e < (d'.inodeAt sb ino).slots
      then (d'.dirSlot (d'.inodeAt sb ino) e).bind DirEntry.link else none := by
  show (if _ then _ else _) = _
  simp only [(h.liveDir ino).mpr hdir, true_and]

/-- The second slot is in the first block: it is mapped or not by the record. -/
theorem dirSlot_second_none {r : Inode} (h : d.dirSlot r 1 = none) : d'.dirSlot r 1 = none := by
  have hphys : ∀ e : Disk, e.findPhys r 1 = some (r.direct ⟨0, by decide⟩).toNat := fun e =>
    dif_pos (by decide)
  unfold Disk.dirSlot at h ⊢
  rw [hphys] at h ⊢
  rcases em ((r.direct ⟨0, by decide⟩).toNat = 0) with h0 | h0
  · simp only [h0, if_true]
  · simp only [h0, if_false] at h
    cases h

section

variable {name : Str} {n : UInt32} {t : UInt8}
  (h : EntryAdded sb ino (makeEntry n.toNat t name) d d')

include h

theorem EntryAdded.naming (hdir : d.LiveDir sb ino) (hname : isValidFilename name = true)
    (hn : n ≠ 0) : d'.naming sb
      = (d.naming sb).link ino (d.inodeAt sb ino).slots ⟨name, t, n.toNat⟩ := by
  refine h.touched.naming_eq rfl rfl (fun x hx => ?_) fun e => ?_
  · funext j
    exact if_neg fun hc => hx hc.1
  · rw [h.touched.entry_self hdir, h.slots]
    show _ = if ino = ino ∧ e = (d.inodeAt sb ino).slots then _ else (d.naming sb).entry ino e
    rw [Disk.entry_of_dir hdir]
    rcases Nat.lt_trichotomy e (d.inodeAt sb ino).slots with hlt | rfl | hgt
    · have hne := Nat.ne_of_lt hlt
      rw [if_pos (Nat.lt_succ_of_lt hlt), if_neg fun hc => hne hc.2, if_pos hlt]
      cases hs : d.dirSlot (d.inodeAt sb ino) e with
      | some s => rw [h.kept e s hne hs]
      | none =>
          cases hs' : d'.dirSlot (d'.inodeAt sb ino) e with
          | none => rfl
          | some s => exact DirEntry.link_of_free (h.fresh e s hne hs hs')
    · rw [if_pos (Nat.lt_succ_self _), if_pos ⟨rfl, rfl⟩, h.slot]
      exact link_makeEntry hname hn t
    · rw [if_neg (Nat.not_lt.mpr hgt), if_neg fun hc => Nat.ne_of_gt hgt hc.2,
        if_neg (Nat.not_lt.mpr (Nat.le_of_lt hgt))]

/-- An entry added in another slot than the second leaves the up-links alone. -/
theorem EntryAdded.upLink {i : Nat} (hi : ¬ (i = ino ∧ (d.inodeAt sb ino).slots = 1)) :
    d'.upLink sb i = d.upLink sb i := by
  rcases em (i = ino) with rfl | hne
  · have hslots : 1 ≠ (d.inodeAt sb i).slots := fun hc => hi ⟨rfl, hc.symm⟩
    refine h.touched.upLink_congr ?_ i
    cases hs : d.dirSlot (d.inodeAt sb i) 1 with
    | some s => rw [h.kept 1 s hslots hs]
    | none =>
        cases hs' : d'.dirSlot (d'.inodeAt sb i) 1 with
        | none => rfl
        | some s => exact DirEntry.upFrom_of_free (h.fresh 1 s hslots hs hs')
  · exact h.touched.upLink hne

theorem EntryAdded.upLink_second (hdir : d.LiveDir sb ino) (hn : n ≠ 0) (hne : n.toNat ≠ ino)
    (hslots : (d.inodeAt sb ino).slots = 1) : d'.upLink sb ino = some n.toNat := by
  have hslot := h.slot
  rw [hslots] at hslot
  have hino : (makeEntry n.toNat t name).inode = n := UInt32.ofNat_toNat
  rw [h.touched.upLink_self, if_pos ⟨hdir.1, hdir.2.2⟩, hslot]
  refine DirEntry.upFrom_eq_some.mpr ?_
  rw [hino]
  exact ⟨hn, hne, rfl⟩

end

theorem EntryRefused.naming (h : EntryRefused sb ino d d') (hd : DirsOk sb d) :
    d'.naming sb = d.naming sb := by
  rcases em (d.LiveDir sb ino) with hdir | hdir
  · refine h.touched.naming_same fun e => ?_
    rw [h.touched.entry_self hdir, Disk.entry_of_dir hdir, h.inodeAt]
    rcases Nat.lt_or_ge e (d.inodeAt sb ino).slots with hlt | hge
    · obtain ⟨s, hs, -⟩ := hd ino hdir e hlt
      rw [if_pos hlt, if_pos hlt, hs, h.kept e s hs]
    · rw [if_neg (Nat.not_lt.mpr hge), if_neg (Nat.not_lt.mpr hge)]
  · exact h.touched.naming_file hdir

theorem EntryRefused.upLink (h : EntryRefused sb ino d d') (i : Nat) :
    d'.upLink sb i = d.upLink sb i := by
  refine h.touched.upLink_congr ?_ i
  rw [h.inodeAt]
  cases hs : d.dirSlot (d.inodeAt sb ino) 1 with
  | some s => rw [h.kept 1 s hs]
  | none => rw [dirSlot_second_none hs]

theorem SlotChanged.naming_dead {k : Nat} (h : SlotChanged sb ino k DirEntry.dead d d') :
    d'.naming sb = (d.naming sb).unlink ino k := by
  refine h.touched.naming_eq rfl rfl (fun x hx => ?_) fun e => ?_
  · funext j
    exact if_neg fun hc => hx hc.1
  · have hright : ((d.naming sb).unlink ino k).entry ino e
        = if e = k then none else (d.naming sb).entry ino e := by
      rcases em (e = k) with hk | hk
      · rw [if_pos hk]
        exact if_pos ⟨rfl, hk⟩
      · rw [if_neg hk]
        exact if_neg fun hc => hk hc.2
    rw [hright]
    rcases em (d.LiveDir sb ino) with hdir | hdir
    · rw [h.touched.entry_self hdir, h.inodeAt, h.slot, Disk.entry_of_dir hdir]
      rcases em (e = k) with rfl | hne
      · rw [if_pos rfl, if_pos rfl]
        split
        · cases d.dirSlot (d.inodeAt sb ino) e with
          | none => rfl
          | some s => exact DirEntry.link_of_free rfl
        · rfl
      · rw [if_neg hne, if_neg hne]
    · rw [Disk.entry_of_file hdir, Disk.entry_of_file fun hc => hdir
        ((h.touched.liveDir ino).mp hc), ite_self]

theorem SlotChanged.upLink_dead {k i : Nat} (h : SlotChanged sb ino k DirEntry.dead d d')
    (hi : ¬ (i = ino ∧ k = 1)) : d'.upLink sb i = d.upLink sb i := by
  rcases em (i = ino) with rfl | hne
  · refine h.touched.upLink_congr ?_ i
    rw [h.inodeAt, h.slot, if_neg fun hc => hi ⟨rfl, hc.symm⟩]
  · exact h.touched.upLink hne

theorem SlotChanged.upLink_dead_second (h : SlotChanged sb ino 1 DirEntry.dead d d') :
    d'.upLink sb ino = none := by
  rw [h.touched.upLink_self, h.inodeAt, h.slot, if_pos rfl]
  split
  · cases d.dirSlot (d.inodeAt sb ino) 1 with
    | none => rfl
    | some s => exact DirEntry.upFrom_of_free rfl
  · rfl

section

variable {np : Nat} (h : SlotChanged sb ino 1 (fun s => { s with inode := UInt32.ofNat np }) d d')

include h

/-- The second slot rewritten, where it holds no link or the right one. -/
theorem SlotChanged.naming_second (hfree : d.LiveDir sb ino → d.SecondFree (d.inodeAt sb ino) np) :
    d'.naming sb = d.naming sb := by
  rcases em (d.LiveDir sb ino) with hdir | hdir
  · refine h.touched.naming_same fun e => ?_
    rw [h.touched.entry_self hdir, Disk.entry_of_dir hdir, h.inodeAt, h.slot]
    split
    · rename_i he
      split
      · rename_i h1
        subst h1
        cases hs : d.dirSlot (d.inodeAt sb ino) 1 with
        | none => rfl
        | some s => exact DirEntry.link_setInode (hfree hdir s he hs)
      · rfl
    · rfl
  · exact h.touched.naming_file hdir

theorem SlotChanged.upLink_second (hnp : np < 4294967296) {z : Nat}
    (hz : d'.upLink sb ino = some z) : z = np := by
  rw [h.touched.upLink_self, h.inodeAt, h.slot, if_pos rfl] at hz
  split at hz
  · obtain ⟨s, hs, hz⟩ := Option.bind_eq_some_iff.mp hz
    obtain ⟨s', -, rfl⟩ := Option.map_eq_some_iff.mp hs
    obtain ⟨-, -, rfl⟩ := DirEntry.upFrom_eq_some.mp hz
    exact UInt32.toNat_ofNat_of_lt' hnp
  · cases hz

theorem SlotChanged.upLink_set (hnp : np < 4294967296) (h0 : np ≠ 0) (hne : np ≠ ino)
    (hv : sb.ValidIno ino) (hdir : (d.inodeAt sb ino).isDir = true)
    (hmapped : (d.dirSlot (d.inodeAt sb ino) 1).isSome) : d'.upLink sb ino = some np := by
  obtain ⟨s, hs⟩ := Option.isSome_iff_exists.mp hmapped
  have hnat : (UInt32.ofNat np).toNat = np := UInt32.toNat_ofNat_of_lt' hnp
  rw [h.touched.upLink_self, if_pos ⟨hv, hdir⟩, h.inodeAt, h.slot, if_pos rfl, hs]
  refine DirEntry.upFrom_eq_some.mpr ⟨fun hc => h0 ?_, ?_, hnat⟩
  · have hzero := congrArg UInt32.toNat hc
    rwa [hnat] at hzero
  · show (UInt32.ofNat np).toNat ≠ ino
    rwa [hnat]

end

theorem InodeTaken.naming {r : Inode} (h : InodeTaken sb hi ino r d d') (hv : sb.ValidIno ino)
    (hfree : d.inodeUsed sb ino = false) (hsize : r.size = 0) :
    d'.naming sb = (d.naming sb).alloc ino (r.isDir = true) := by
  have hold : ¬ d.LiveDir sb ino := fun hc => by
    have hused := hc.2.1
    rw [hfree] at hused
    cases hused
  have hlive : ∀ x, x ≠ ino → (d'.LiveDir sb x ↔ d.LiveDir sb x) := fun x hx => by
    unfold Disk.LiveDir
    rw [h.inodeAt, if_neg hx]
    refine and_congr_right fun hvx => ?_
    rw [h.inodeUsed x hvx, if_neg hx]
  refine Naming.ext ?_ ?_ ?_
  · funext i
    refine propext ?_
    show sb.ValidIno i ∧ d'.inodeUsed sb i = true ↔ i = ino
      ∨ (sb.ValidIno i ∧ d.inodeUsed sb i = true)
    rcases em (i = ino) with rfl | hx
    · rw [h.inodeUsed i hv, if_pos rfl]
      exact iff_of_true ⟨hv, rfl⟩ (Or.inl rfl)
    · rw [or_iff_right hx]
      refine and_congr_right fun hvx => ?_
      rw [h.inodeUsed i hvx, if_neg hx]
  · funext i
    refine propext ?_
    show d'.LiveDir sb i ↔ (i = ino ∧ r.isDir = true) ∨ d.LiveDir sb i
    rcases em (i = ino) with rfl | hx
    · rw [or_iff_left hold]
      unfold Disk.LiveDir
      rw [h.inodeUsed i hv, if_pos rfl, h.inodeAt, if_pos rfl]
      exact ⟨fun hc => ⟨rfl, hc.2.2⟩, fun hc => ⟨hv, rfl, hc.2⟩⟩
    · rw [hlive i hx, or_iff_right fun hc => hx hc.1]
  · funext x e
    show (if d'.LiveDir sb x ∧ e < (d'.inodeAt sb x).slots then _ else none)
      = (d.naming sb).entry x e
    rcases em (x = ino) with rfl | hx
    · rw [Disk.entry_of_file hold, h.inodeAt, if_pos rfl, Inode.slots, hsize]
      exact if_neg fun hc => Nat.not_lt_zero e hc.2
    · rw [h.inodeAt, if_neg hx, (h.same x hx).dirSlot]
      simp only [hlive x hx]
      rfl

theorem InodeTaken.upLink {r : Inode} (h : InodeTaken sb hi ino r d d') {i : Nat} (hne : i ≠ ino) :
    d'.upLink sb i = d.upLink sb i := by
  unfold Disk.upLink
  rw [h.inodeAt, if_neg hne, (h.same i hne).dirSlot]

theorem InodeTaken.upLink_self {r : Inode} (h : InodeTaken sb hi ino r d d')
    (hroot : r.root (.direct 0) = 0) : d'.upLink sb ino = none := by
  have hphys : d'.findPhys r 1 = some (r.direct ⟨0, by decide⟩).toNat := dif_pos (by decide)
  have hslot : d'.dirSlot r 1 = none := by
    rw [Disk.dirSlot, hphys]
    exact if_pos hroot
  rw [Disk.upLink, h.inodeAt, if_pos rfl, hslot]
  exact ite_self _

theorem InodeFreed.naming (h : InodeFreed sb hi ino d d') :
    d'.naming sb = (d.naming sb).free ino := by
  have hlive : ∀ x, x ≠ ino → (d'.LiveDir sb x ↔ d.LiveDir sb x) := fun x hx => by
    unfold Disk.LiveDir
    rw [h.inodeAt, if_neg hx]
    refine and_congr_right fun hvx => ?_
    rw [h.inodeUsed x hvx, if_neg hx]
  have hgone : ¬ (sb.ValidIno ino ∧ d'.inodeUsed sb ino = true) := by
    rintro ⟨hv, hused⟩
    rw [h.inodeUsed ino hv, if_pos rfl] at hused
    cases hused
  have hdead : ¬ d'.LiveDir sb ino := fun hc => hgone ⟨hc.1, hc.2.1⟩
  refine Naming.ext ?_ ?_ ?_
  · funext i
    refine propext ?_
    show sb.ValidIno i ∧ d'.inodeUsed sb i = true ↔ (sb.ValidIno i ∧ d.inodeUsed sb i = true)
      ∧ i ≠ ino
    rcases em (i = ino) with rfl | hx
    · exact iff_of_false hgone fun hc => hc.2 rfl
    · rw [and_iff_left hx]
      refine and_congr_right fun hvx => ?_
      rw [h.inodeUsed i hvx, if_neg hx]
  · funext i
    refine propext ?_
    show d'.LiveDir sb i ↔ d.LiveDir sb i ∧ i ≠ ino
    rcases em (i = ino) with rfl | hx
    · exact iff_of_false hdead fun hc => hc.2 rfl
    · rw [and_iff_left hx, hlive i hx]
  · funext x e
    show _ = if x = ino then none else (d.naming sb).entry x e
    rcases em (x = ino) with rfl | hx
    · rw [if_pos rfl, Disk.entry_of_file hdead]
    · rw [if_neg hx]
      show (if d'.LiveDir sb x ∧ e < (d'.inodeAt sb x).slots then _ else none) = _
      rw [h.inodeAt, if_neg hx, (h.same x hx).dirSlot]
      simp only [hlive x hx]
      rfl

theorem InodeFreed.upLink (h : InodeFreed sb hi ino d d') {i : Nat} (hne : i ≠ ino) :
    d'.upLink sb i = d.upLink sb i := by
  unfold Disk.upLink
  rw [h.inodeAt, if_neg hne, (h.same i hne).dirSlot]

end

end IpoOs
