import IpoOs.FsView
import IpoOs.FsWriteText

/-!
# The file system as a store

What the file system is for: a store of directories and files under
paths, and a table of open files. `StoreStep` says what each call does to
it and what it returns. It is stated without inodes, blocks or slots, so
that it can be read as the manual of the file system:

* a call that returns a failure has done nothing, `ipo_fs_write_text`
  apart, which may leave the file it has created;
* `ipo_fs_create` puts one empty object under a free path, in a
  directory; `ipo_fs_delete` takes out a path with all below it;
  `ipo_fs_rename` moves what is under one path to another, free one;
* `ipo_fs_open` succeeds exactly for the files, while a descriptor is
  free, and returns the lowest free one;
* `ipo_fs_write` returns how many of the first bytes of the buffer are in
  the file after it, and `ipo_fs_read` delivers bytes of the file, each
  for any offset and size.

A creation, a deletion and a rename may fail for reasons that the store
does not have (no block left, a directory with slots). A descriptor is on
an inode number, also when no path leads to it any more; what is read and
written there is then not seen in the store.

`run_storeStep` says that the code does just that on a volume whose links
are a tree, if no write goes into a directory and no directory is moved
into itself or loses an entry to its new parent.
-/

namespace IpoOs

/-! ## The state

The mounted flag, the store and the table of open files. -/

/-- The store, the inodes that the descriptors are on, and whether a volume is mounted. -/
@[ext] structure Files where
  mounted : Bool
  store : PathStore Str Node
  opened : Nat → Option Nat

/-- What a user has of the kernel: what the paths lead to, and the open files. -/
def Kernel.files (u : Block) (k : Kernel Disk) : Files where
  mounted := k.fsMounted
  store := k.disk.view u k.sb
  opened i := if i < 32 ∧ (k.fds i).used = true then some (k.fds i).inode else none

namespace Files

def inodeOf (s : Files) (fd : Int) : Option Nat := if 0 ≤ fd then s.opened fd.toNat else none

/-- The descriptor `i` on an inode. -/
def openAt (s : Files) (i ino : Nat) : Files :=
  { s with opened := Function.update s.opened i (some ino) }

/-- The path leads to a file, and `i` is the lowest free descriptor. -/
structure Opens (s : Files) (path : CString) (v : Node) (i : Nat) : Prop where
  mounted : s.mounted = true
  here : s.store (pathComps path.chars) = some v
  file : ¬ v.IsDir
  bound : i < 32
  free : s.opened i = none
  low : ∀ j, j < i → s.opened j ≠ none

end Files

/-! ## The bytes of one file

What a write and a read promise about the bytes of a file, for any offset
and size. -/

/-- `w` bytes of a buffer in a file, and new zeros at most. -/
structure Splice (buffer : Buf) (offset w : Nat) (bytes bytes' : Nat → Option UInt8) : Prop where
  written : ∀ i, i < w → bytes' (offset + i) = some (buffer i)
  kept : ∀ x v, x < offset ∨ offset + w ≤ x → bytes x = some v → bytes' x = some v
  fresh : ∀ x v, x < offset ∨ offset + w ≤ x → bytes x = none → bytes' x = some v → v = 0

/-- A write to a file of `n` bytes that returns `w`. -/
structure WriteOk (buffer : Buf) (size offset n : Nat) (bytes : Nat → Option UInt8) (w n' : Nat)
    (bytes' : Nat → Option UInt8) : Prop where
  le : w ≤ size
  splice : Splice buffer offset w bytes bytes'
  size : n' = max n (offset + w)

/-- A read of a file of `n` bytes that returns `count`: bytes of the file in order. Of a range that
does not wrap it stops at the end of the file, or at a byte that is missing. -/
structure ReadOk (buffer : Buf) (size offset n : Nat) (bytes : Nat → Option UInt8) (count : Nat)
    (out : Buf) : Prop where
  le : count ≤ size
  delivered : ∀ i, i < count → bytes (offset + i) = some (out i)
  rest : ∀ i, count ≤ i → out i = buffer i
  within : offset + size < 4294967296 → count ≤ n - offset
  stops : offset + size < 4294967296 → count < min size (n - offset) → bytes (offset + count) = none

/-! ## The calls

One rule or two for each call and answer. -/

/-- Where a rename goes: into the directory at the new path under the old name, or to the new path
where there is none. -/
def RenameTo (s : PathStore Str Node) (oldpath newpath : CString) (q : List Str) : Prop :=
  (q = pathComps newpath.chars ∧ ∀ v, s (pathComps newpath.chars) = some v → ¬ v.IsDir)
    ∨ ∃ init on v, pathComps oldpath.chars = init ++ [on] ∧ s (pathComps newpath.chars) = some v
      ∧ v.IsDir ∧ q = pathComps newpath.chars ++ [on]

/-- An object created at a path. -/
structure PutNew (s : PathStore Str Node) (path : CString) (i : Nat) (s' : PathStore Str Node)
    (type : UInt8) :
    Prop where
  parent : ∃ init name v, pathComps path.chars = init ++ [name] ∧ s init = some v ∧ v.IsDir
  free : s (pathComps path.chars) = none
  fresh : ∀ p w, s p = some w → w.ino ≠ i
  put : s' = s.put (pathComps path.chars) (newNode i type.toUInt32)

/-- A path taken out with all below it. -/
structure Pruned (s : PathStore Str Node) (path : CString) (s' : PathStore Str Node) : Prop where
  notRoot : pathComps path.chars ≠ []
  here : ∃ v, s (pathComps path.chars) = some v ∧ v.mode &&& flagProtected = 0
  prune : s' = s.prune (pathComps path.chars)

/-- What is under the old path moved to a free place outside it. -/
structure Grafted (s : PathStore Str Node) (oldpath newpath : CString) (q : List Str)
    (s' : PathStore Str Node) : Prop where
  notRoot : pathComps oldpath.chars ≠ []
  here : ∃ v, s (pathComps oldpath.chars) = some v ∧ v.mode &&& flagProtected = 0
  parent : ∃ init name w, q = init ++ [name] ∧ s init = some w ∧ w.IsDir
  free : s q = none
  outside : ¬ pathComps oldpath.chars <+: q
  dest : RenameTo s oldpath newpath q
  graft : s' = s.graft (pathComps oldpath.chars) q

/-- The file at a path is there, or `ipo_fs_write_text` has created it. -/
def TextMade (s : Files) (path : CString) (s' : Files) : Prop :=
  s' = s ∨ s.mounted = true ∧ ∃ i t, PutNew s.store path i t typeFile ∧ s' = { s with store := t }

/-- A call on the store, with what it returns. -/
inductive StoreStep (s : Files) : FsCall → FsAnswer → Files → Prop
  | mounted : StoreStep s .mount (.done true) { s with mounted := true }
  | created {path : CString} {type : UInt8} {i : Nat} {t : PathStore Str Node}
      (hm : s.mounted = true)
      (h : PutNew s.store path i t type) :
      StoreStep s (.create path type) (.number (some i)) { s with store := t }
  | notCreated {path : CString} {type : UInt8} : StoreStep s (.create path type) (.number none) s
  | opened {path : CString} {v : Node} {i : Nat} (h : s.Opens path v i) :
      StoreStep s (.openFd path) (.number (some i)) (s.openAt i v.ino)
  | notOpened {path : CString} (h : ∀ v i, ¬ s.Opens path v i) :
      StoreStep s (.openFd path) (.number none) s
  | read {fd : Int} {buffer out : Buf} {size offset : UInt32} {ino n count : Nat} {m : UInt32}
      {b : Nat → Option UInt8} {p : List Str} (hfd : s.inodeOf fd = some ino)
      (hp : s.store p = some (.file ino m n b))
      (hok : ReadOk buffer size.toNat offset.toNat n b count out) :
      StoreStep s (.read fd buffer size offset) (.bytes (some count) out) s
  | readUnseen {fd : Int} {buffer out : Buf} {size offset : UInt32} {ino : Nat} {count : Option Nat}
      (hfd : s.inodeOf fd = some ino) (hno : ∀ p m n b, s.store p ≠ some (.file ino m n b)) :
      StoreStep s (.read fd buffer size offset) (.bytes count out) s
  | notRead {fd : Int} {buffer : Buf} {size offset : UInt32} (hfd : s.inodeOf fd = none) :
      StoreStep s (.read fd buffer size offset) (.bytes none buffer) s
  | written {fd : Int} {buffer : Buf} {size offset : UInt32} {ino n n' w : Nat} {m : UInt32}
      {b b' : Nat → Option UInt8} {p : List Str} (hfd : s.inodeOf fd = some ino)
      (hp : s.store p = some (.file ino m n b))
      (hok : WriteOk buffer size.toNat offset.toNat n b w n' b') :
      StoreStep s (.write fd buffer size offset) (.number (some w))
        { s with store := s.store.put p (.file ino m n' b') }
  | writtenUnseen {fd : Int} {buffer : Buf} {size offset : UInt32} {ino : Nat} {r : Option Nat}
      (hfd : s.inodeOf fd = some ino) (hno : ∀ p v, s.store p = some v → v.ino ≠ ino) :
      StoreStep s (.write fd buffer size offset) (.number r) s
  | notWritten {fd : Int} {buffer : Buf} {size offset : UInt32} (hfd : s.inodeOf fd = none) :
      StoreStep s (.write fd buffer size offset) (.number none) s
  | text {path text : CString} {append : Bool} {s₁ : Files} {i ino n n' w : Nat} {m : UInt32}
      {b b' : Nat → Option UInt8} (hmade : TextMade s path s₁)
      (hopen : s₁.Opens path (.file ino m n b) i)
      (hok : WriteOk (cstr text.chars) (u32 text.chars.length)
        (if append then n else 0) n b w n' b') :
      StoreStep s (.writeText path text append) (.done (decide (w = u32 text.chars.length)))
        { s₁.openAt i ino with store := s₁.store.put (pathComps path.chars) (.file ino m n' b') }
  | noText {path text : CString} {append : Bool} {s₁ : Files} (hmade : TextMade s path s₁)
      (h : ∀ v i, ¬ s₁.Opens path v i) : StoreStep s (.writeText path text append) (.done false) s₁
  | deleted {path : CString} {t : PathStore Str Node} (hm : s.mounted = true)
      (h : Pruned s.store path t) : StoreStep s (.delete path) (.done true) { s with store := t }
  | notDeleted {path : CString} : StoreStep s (.delete path) (.done false) s
  | moved {fuel : Nat} {oldpath newpath : CString} {q : List Str} {t : PathStore Str Node}
      (hm : s.mounted = true) (h : Grafted s.store oldpath newpath q t) :
      StoreStep s (.rename fuel oldpath newpath) (.done true) { s with store := t }
  | inPlace {fuel : Nat} {oldpath newpath : CString} {v : Node} (hm : s.mounted = true)
      (hold : s.store (pathComps oldpath.chars) = some v)
      (hnew : pathComps newpath.chars = pathComps oldpath.chars
        ∨ RenameTo s.store oldpath newpath (pathComps oldpath.chars)) :
      StoreStep s (.rename fuel oldpath newpath) (.done true) s
  | notMoved {fuel : Nat} {oldpath newpath : CString} :
      StoreStep s (.rename fuel oldpath newpath) (.done false) s

/-! ## The views of one another

The three operations on links as operations on the view of a volume. -/

section

variable {u : Block} {sb : Superblock} {d d' : Disk} (ht : TreeOk sb d) (ht' : TreeOk sb d')

include ht ht'

theorem view_congr (hG : d'.naming sb = d.naming sb)
    (hnode : ∀ {v}, (d.naming sb).used v → d'.node sb v = d.node sb v) :
    d'.view u sb = d.view u sb := by
  funext ts
  refine Option.ext fun v => ?_
  rw [ht'.view_eq_some, ht.view_eq_some, hG]
  refine and_congr_right fun _ => exists_congr fun y => and_congr_right fun hw => ?_
  rw [hnode (ht.way_used hw)]

theorem view_put {p : List Str} {i : Nat} (hp : ∀ t ∈ p, PathToken t) (hw : (d.naming sb).Way 1 p i)
    (hG : d'.naming sb = d.naming sb)
    (hnode : ∀ {v}, (d.naming sb).used v → v ≠ i → d'.node sb v = d.node sb v) :
    d'.view u sb = (d.view u sb).put p (d'.node sb i) := by
  funext ts
  rcases em (ts = p) with rfl | hne
  · rw [PathStore.put_self]
    exact ht'.view_of_way hp (by rw [hG]; exact hw)
  · rw [PathStore.put_of_ne hne]
    refine Option.ext fun v => ?_
    rw [ht'.view_eq_some, ht.view_eq_some, hG]
    refine and_congr_right fun _ => exists_congr fun y => and_congr_right fun hy => ?_
    have hyi : y ≠ i := fun hc => hne (ht.tree.way_unique (hc ▸ hy) hw)
    rw [hnode (ht.way_used hy) hyi]

theorem view_unseen {i : Nat} (hno : ∀ ts, (∀ t ∈ ts, PathToken t) → ¬ (d.naming sb).Way 1 ts i)
    (hG : d'.naming sb = d.naming sb)
    (hnode : ∀ {v}, (d.naming sb).used v → v ≠ i → d'.node sb v = d.node sb v) :
    d'.view u sb = d.view u sb := by
  funext ts
  refine Option.ext fun v => ?_
  rw [ht'.view_eq_some, ht.view_eq_some, hG]
  refine and_congr_right fun hts => exists_congr fun y => and_congr_right fun hy => ?_
  rw [hnode (ht.way_used hy) fun hc => hno ts hts (hc ▸ hy)]

theorem Created.view {parent i : Nat} {name : Str} {type : UInt8} {init : List Str}
    (h : Created sb parent name type i d d') (hinit : (d.naming sb).Way 1 init parent)
    (htok : ∀ t ∈ init ++ [name], PathToken t)
    (hnode : ∀ {v}, (d.naming sb).used v → d'.node sb v = d.node sb v) :
    d.view u sb (init ++ [name]) = none
      ∧ d'.view u sb = (d.view u sb).put (init ++ [name]) (d'.node sb i) := by
  have hG := h.naming
  generalize hA : (d.naming sb).alloc i ((freshInode type.toUInt32 1).isDir = true) = A at hG
  have hentry : ∀ {v j m}, A.entry v j = some m ↔ (d.naming sb).entry v j = some m := by
    intro v j m
    rw [← hA]
    exact Iff.rfl
  have hway : ∀ {v ts y}, A.Way v ts y ↔ (d.naming sb).Way v ts y :=
    ⟨fun hw => hw.of_entries fun _ hm => hentry.mp hm, fun hw => hw.of_entries fun _ hm =>
      hentry.mpr hm⟩
  have htree : A.Tree 1 := by
    rw [← hA]
    exact ht.tree.alloc _
  have hnone : ∀ {j m}, (d.naming sb).entry i j ≠ some m := fun hm =>
    h.fresh (ht.tree.dir_used (ht.tree.source hm))
  have hslot : A.entry parent (d.inodeAt sb parent).slots = none := by
    refine Option.eq_none_iff_forall_ne_some.mpr fun m hm => ?_
    exact Nat.lt_irrefl _ (Disk.naming_entry.mp (hentry.mp hm)).2.1
  have hleaf : ∀ {us y}, A.Way i us y → us = [] ∧ y = i := by
    intro us y hw
    cases hw with
    | here => exact ⟨rfl, rfl⟩
    | down he _ => exact absurd (hentry.mp he) hnone
  have hinto : ¬ Relation.ReflTransGen A.Child i parent := fun hr => by
    obtain ⟨us, hus⟩ := Naming.Way.exists_of_reach hr
    have hpi := (hleaf hus).2
    exact h.fresh (hpi ▸ ht.tree.dir_used h.parentDir)
  have hold : ∀ ts y, (d'.naming sb).Way 1 ts y
      ↔ (ts = init ++ [name] ∧ y = i) ∨ (d.naming sb).Way 1 ts y := by
    intro ts y
    rw [hG, htree.way_link (hway.mpr hinit) hslot (fun hm => h.absent (hentry.mp hm)) hinto, hway]
    refine or_congr_left ?_
    constructor
    · rintro ⟨us, rfl, hus⟩
      obtain ⟨rfl, rfl⟩ := hleaf hus
      exact ⟨rfl, rfl⟩
    · rintro ⟨rfl, rfl⟩
      exact ⟨[], rfl, .here⟩
  have habsent : d.view u sb (init ++ [name]) = none := by
    refine ht.view_none fun y hw => ?_
    obtain ⟨v, j, m, hv, hm, hname, -⟩ := hw.last
    obtain rfl := ht.tree.way_det hv hinit
    exact h.absent hm hname
  refine ⟨habsent, funext fun ts => ?_⟩
  rcases em (ts = init ++ [name]) with rfl | hne
  · rw [PathStore.put_self]
    exact ht'.view_of_way htok ((hold _ _).mpr (Or.inl ⟨rfl, rfl⟩))
  · rw [PathStore.put_of_ne hne]
    refine Option.ext fun v => ?_
    rw [ht'.view_eq_some, ht.view_eq_some]
    refine and_congr_right fun _ => exists_congr fun y => ?_
    rw [hold, or_iff_right fun hc => hne hc.1]
    refine and_congr_right fun hw => ?_
    rw [hnode (ht.way_used hw)]

theorem Deleted.view {parent e : Nat} {name : Str} {de : DirEntry} {init : List Str}
    (h : Deleted sb parent de name e d d') (hinit : (d.naming sb).Way 1 init parent)
    (hnode : ∀ {v}, (d.naming sb).used v → v ≠ de.inode.toNat → d'.node sb v = d.node sb v) :
    d'.view u sb = (d.view u sb).prune (init ++ [name]) := by
  have hno : ∀ {x j m}, ((d.naming sb).unlink parent e).entry x j = some m →
      m.target ≠ de.inode.toNat := by
    intro x j m hm htarget
    obtain ⟨hother, hm⟩ := Naming.unlink_entry.mp hm
    exact hother (ht.tree.unique hm h.entry htarget)
  have hway : ∀ ts y, (d'.naming sb).Way 1 ts y
      ↔ ¬ init ++ [name] <+: ts ∧ (d.naming sb).Way 1 ts y := by
    intro ts y
    rw [h.naming, Naming.Tree.way_free hno (ht.tree.target h.entry).2.symm,
      ht.tree.way_unlink hinit h.entry]
  funext ts
  refine Option.ext fun v => ?_
  rw [PathStore.prune_eq_some, ht'.view_eq_some, ht.view_eq_some]
  simp only [hway]
  constructor
  · rintro ⟨htok, y, ⟨hpre, hw⟩, rfl⟩
    refine ⟨hpre, htok, y, hw, hnode (ht.way_used hw) ?_⟩
    rintro rfl
    -- the entry was the only way to its inode
    rw [ht.tree.way_unique hw (hinit.append (.single h.entry))] at hpre
    exact hpre List.prefix_rfl
  · rintro ⟨hpre, htok, y, hw, rfl⟩
    refine ⟨htok, y, ⟨hpre, hw⟩, (hnode (ht.way_used hw) ?_).symm⟩
    rintro rfl
    rw [ht.tree.way_unique hw (hinit.append (.single h.entry))] at hpre
    exact hpre List.prefix_rfl

theorem Moved.view {op np e : Nat} {on nn : Str} {de : DirEntry} {po pn : List Str}
    (h : Moved sb op on de np nn e d d') (hpo : (d.naming sb).Way 1 po op)
    (hpn : (d.naming sb).Way 1 pn np) (htok : ∀ t ∈ po ++ [on], PathToken t)
    (htok' : ∀ t ∈ pn ++ [nn], PathToken t)
    (hinto : ¬ Relation.ReflTransGen (d.naming sb).Child de.inode.toNat np)
    (hnode : ∀ {v}, (d.naming sb).used v → d'.node sb v = d.node sb v) :
    d.view u sb (pn ++ [nn]) = none
      ∧ d'.view u sb = (d.view u sb).graft (po ++ [on]) (pn ++ [nn]) := by
  have hslot : (d.naming sb).entry np (d.inodeAt sb np).slots = none := by
    refine Option.eq_none_iff_forall_ne_some.mpr fun m hm => ?_
    exact Nat.lt_irrefl _ (Disk.naming_entry.mp hm).2.1
  have hway : ∀ ts y, (d'.naming sb).Way 1 ts y
      ↔ (∃ us, ts = pn ++ nn :: us ∧ (d.naming sb).Way 1 (po ++ on :: us) y)
        ∨ (¬ po ++ [on] <+: ts ∧ (d.naming sb).Way 1 ts y) := by
    intro ts y
    rw [h.naming]
    exact ht.tree.way_move hpo h.entry hpn hslot rfl h.absent hinto
  have hgone : ∀ {us y}, ¬ (d.naming sb).Way 1 (pn ++ nn :: us) y := by
    intro us y hw
    rw [← List.singleton_append, ← List.append_assoc] at hw
    obtain ⟨w, hw, -⟩ := hw.split
    obtain ⟨v, j, m, hv, hm, hname, -⟩ := hw.last
    obtain rfl := ht.tree.way_det hv hpn
    exact h.absent hm hname
  refine ⟨ht.view_none fun y => hgone, funext fun ts => Option.ext fun v => ?_⟩
  rw [ht'.view_eq_some]
  simp only [hway]
  rcases @PathStore.graft_cases _ _ _ (d.view u sb) (po ++ [on]) (pn ++ [nn]) ts with
    ⟨us, rfl, hval⟩ | ⟨hnq, hpt, hval⟩ | ⟨hnq, hnp, hval⟩
  · rw [hval, ht.view_eq_some, List.append_assoc, List.append_assoc, List.singleton_append,
      List.singleton_append]
    constructor
    · rintro ⟨htoks, y, ⟨us', heq, hw⟩ | ⟨-, hw⟩, rfl⟩
      · have hus := (List.cons.inj (List.append_cancel_left heq)).2
        subst hus
        refine ⟨fun t ht => ?_, y, hw, hnode (ht.way_used hw)⟩
        rcases List.mem_append.mp ht with ht | ht
        · exact htok t (List.mem_append_left _ ht)
        · rcases List.mem_cons.mp ht with rfl | ht
          · exact htok t (List.mem_append_right _ (List.mem_singleton.mpr rfl))
          · exact htoks t (List.mem_append_right _ (List.mem_cons_of_mem _ ht))
      · exact absurd hw hgone
    · rintro ⟨htoks, y, hw, rfl⟩
      refine ⟨fun t ht => ?_, y, Or.inl ⟨us, rfl, hw⟩, (hnode (ht.way_used hw)).symm⟩
      rcases List.mem_append.mp ht with ht | ht
      · exact htok' t (List.mem_append_left _ ht)
      · rcases List.mem_cons.mp ht with rfl | ht
        · exact htok' t (List.mem_append_right _ (List.mem_singleton.mpr rfl))
        · exact htoks t (List.mem_append_right _ (List.mem_cons_of_mem _ ht))
  · rw [hval]
    constructor
    · rintro ⟨-, y, ⟨us, rfl, -⟩ | ⟨hno, -⟩, -⟩
      · exact absurd ⟨us, by rw [List.append_assoc, List.singleton_append]⟩ hnq
      · exact absurd hpt hno
    · intro hc
      cases hc
  · rw [hval, ht.view_eq_some]
    constructor
    · rintro ⟨htoks, y, ⟨us, rfl, -⟩ | ⟨-, hw⟩, rfl⟩
      · exact absurd ⟨us, by rw [List.append_assoc, List.singleton_append]⟩ hnq
      · exact ⟨htoks, y, hw, hnode (ht.way_used hw)⟩
    · rintro ⟨htoks, y, hw, rfl⟩
      exact ⟨htoks, y, Or.inr ⟨hnp, hw⟩, (hnode (ht.way_used hw)).symm⟩

end

end IpoOs
