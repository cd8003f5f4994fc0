import IpoOs.FsTreeRun
import IpoOs.FsSpelled
import IpoOs.NamePaths
import IpoOs.PathStore

/-!
# What a user sees of a volume

`Disk.view` gives what each path leads to: a directory, or a file with
its size and its bytes. It is computed by lookups, one for each component,
and on a volume whose links are a tree it is what the ways through the
links say. An operation on one inode changes what is seen at that inode
only, and of a directory it changes nothing that is seen.

A node holds what a user can ask for. Of a directory this is its number and
its mode, so the view does not change when a directory gets a slot, a block
or a new size.

The view of a path is computed by lookups, and `view_of_way` turns it into a
statement about links. From there on the library of paths says how it
changes.
-/

namespace IpoOs

/-- What a path leads to. A byte of a file is none where no block is mapped. -/
inductive Node where
  | dir (ino : Nat) (mode : UInt32)
  | file (ino : Nat) (mode : UInt32) (size : Nat) (bytes : Nat → Option UInt8)

namespace Node

def ino : Node → Nat
  | dir i _ => i
  | file i _ _ _ => i

def mode : Node → UInt32
  | dir _ m => m
  | file _ m _ _ => m

/-- A directory. -/
def IsDir (v : Node) : Prop := ∃ i m, v = dir i m

end Node

def Disk.node (d : Disk) (sb : Superblock) (i : Nat) : Node :=
  if (d.inodeAt sb i).isDir then .dir i (d.inodeAt sb i).mode
  else .file i (d.inodeAt sb i).mode (d.inodeAt sb i).size.toNat (d.fileByte (d.inodeAt sb i))

instance : DecidablePred PathToken := fun t =>
  decidable_of_iff (t ≠ [] ∧ t ≠ dot ∧ t ≠ dotdot ∧ slash ∉ t ∧ t.length < 64)
    ⟨fun h => ⟨h.1, h.2.1, h.2.2.1, h.2.2.2.1, h.2.2.2.2⟩,
      fun h => ⟨h.ne_nil, h.ne_dot, h.ne_dotdot, h.noSlash, h.short⟩⟩

section

variable {sb : Superblock} {d : Disk} {i y n : Nat} {m : UInt32} {bytes : Nat → Option UInt8}

theorem Disk.node_eq_file (h : d.node sb y = .file i m n bytes) : y = i
    ∧ (d.inodeAt sb i).isDir = false ∧ (d.inodeAt sb i).mode = m ∧ (d.inodeAt sb i).size.toNat = n
    ∧ d.fileByte (d.inodeAt sb i) = bytes := by
  unfold Disk.node at h
  split at h
  · cases h
  · rename_i hfile
    cases h
    exact ⟨rfl, Bool.eq_false_iff.mpr hfile, rfl, rfl, rfl⟩

theorem Disk.node_eq_dir (h : d.node sb y = .dir i m) : y = i ∧ (d.inodeAt sb i).isDir = true := by
  unfold Disk.node at h
  split at h
  · rename_i hdir
    cases h
    exact ⟨rfl, hdir⟩
  · cases h

end

/-- What each list of components leads to from the root. -/
def Disk.view (d : Disk) (u : Block) (sb : Superblock) : PathStore Str Node := fun ts =>
  if ∀ t ∈ ts, PathToken t then (d.walk u sb ts 1).map (d.node sb) else none

/-- The components that a path is resolved by. -/
def pathComps (path : Str) : List Str :=
  canonTokens ((fsCanonicalize path 512).length + 1) (fsCanonicalize path 512) []

/-! ## The components of a path

The list of components that stands for a path in the view. -/

section

variable {path : Str} {ts : List Str}

theorem CanonicalComps.pathComps (h : CanonicalComps path ts) : IpoOs.pathComps path = ts := by
  unfold IpoOs.pathComps
  rw [h.eq, normalPath]
  split
  · rename_i hnil
    subst hnil
    decide
  · have hroom : ([] : List Str).length + ts.length ≤ 128 := by
      rw [List.length_nil, Nat.zero_add]
      exact h.count
    exact canonTokens_joinPath h.token (Nat.lt_succ_self _) hroom

theorem pathComps_canonical (path : CString) :
    CanonicalComps path.chars (pathComps path.chars) := by
  obtain ⟨ts, h⟩ := canonicalComps path
  rw [h.pathComps]
  exact h

theorem pathComps_token (path : CString) : ∀ t ∈ pathComps path.chars, PathToken t :=
  (pathComps_canonical path).token

variable {u : Block} {sb : Superblock} {d : Disk}

theorem pathResolve_comps (path : CString) :
    (pathResolve (arrayDev u) sb path.chars d).1 = d.walk u sb (pathComps path.chars) 1 :=
  (pathComps_canonical path).resolve

theorem pathResolveParent_comps {path : CString} {parent : Nat} {name : Str} :
    (pathResolveParent (arrayDev u) sb path.chars d).1 = some (parent, name)
      ↔ ∃ init, pathComps path.chars = init ++ [name] ∧ d.walk u sb init 1 = some parent := by
  have hts := pathComps_canonical path
  rcases List.eq_nil_or_concat' (pathComps path.chars) with hnil | ⟨init, t, hsplit⟩
  · rw [hnil] at hts ⊢
    rw [hts.parent_root]
    constructor
    · intro hc
      cases hc
    · rintro ⟨init, hc, -⟩
      exact absurd hc.symm (List.append_ne_nil_of_right_ne_nil _ (List.cons_ne_nil _ _))
  · rw [hsplit] at hts ⊢
    obtain ⟨-, -, hlen⟩ := fsCanonicalize_normal (by decide : 66 ≤ 512) path
    rw [hts.eq, normalPath,
      if_neg (List.append_ne_nil_of_right_ne_nil _ (List.cons_ne_nil t []))] at hlen
    rw [hts.parent (by omega), Option.map_eq_some_iff]
    constructor
    · rintro ⟨x, hx, heq⟩
      obtain ⟨rfl, rfl⟩ := Prod.mk.inj heq
      exact ⟨init, rfl, hx⟩
    · rintro ⟨init', hinit, hx⟩
      obtain ⟨rfl, hlast⟩ := List.append_inj' hinit rfl
      obtain rfl := (List.cons.inj hlast).1
      exact ⟨parent, hx, rfl⟩

end

/-! ## Walks and ways

Lookups along a path are a way through the links. -/

section

variable {u : Block} {sb : Superblock} {d : Disk} {ts : List Str}

theorem TreeOk.walk_way (h : TreeOk sb d) (hts : ∀ t ∈ ts, PathToken t) {x y : Nat}
    (hx : (d.naming sb).used x) : d.walk u sb ts x = some y ↔ (d.naming sb).Way x ts y := by
  induction ts generalizing x with
  | nil =>
      rw [Disk.walk, Option.some.injEq]
      constructor
      · rintro rfl
        exact .here
      · exact fun hw => hw.nil_eq.symm
  | cons t ts ih =>
      have ht := (hts t List.mem_cons_self).linkName
      have hrest : ∀ s ∈ ts, PathToken s := fun s hs => hts s (List.mem_cons_of_mem t hs)
      rw [Disk.walk]
      cases hf : (dirFindEntry (arrayDev u) sb x t d).1 with
      | none =>
          dsimp only
          constructor
          · intro hc
            cases hc
          · intro hw
            cases hw with
            | down he _ =>
                exact absurd rfl (dirFindEntry_absent h.dirs (Disk.naming_entry.mp he).1 hf he)
      | some f =>
          obtain ⟨de, p, k⟩ := f
          dsimp only
          obtain ⟨-, e, hl⟩ := dirFindEntry_link h.dirs (liveDir_of_find hx hf) ht hf
          rw [ih hrest (h.tree.target hl).1]
          constructor
          · exact fun hw => .down (l := ⟨t, de.type, de.inode.toNat⟩) hl hw
          · intro hw
            generalize hns : t :: ts = ns at hw
            cases hw with
            | here => cases hns
            | @down _ _ e' l' _ he hw =>
                obtain ⟨rfl, rfl⟩ := List.cons.inj hns
                obtain rfl := h.tree.name hl he rfl
                have htarget := congrArg Link.target (Option.some.inj (hl.symm.trans he))
                rw [← htarget] at hw
                exact hw

theorem TreeOk.walk_root (h : TreeOk sb d) (hts : ∀ t ∈ ts, PathToken t) {y : Nat} :
    d.walk u sb ts 1 = some y ↔ (d.naming sb).Way 1 ts y :=
  h.walk_way hts h.root_used

theorem TreeOk.view_eq_some (h : TreeOk sb d) {v : Node} :
    d.view u sb ts = some v ↔ (∀ t ∈ ts, PathToken t) ∧ ∃ y, (d.naming sb).Way 1 ts y
        ∧ v = d.node sb y := by
  unfold Disk.view
  split
  · rename_i hts
    rw [Option.map_eq_some_iff, and_iff_right hts]
    exact exists_congr fun y => and_congr (h.walk_root hts) eq_comm
  · rename_i hts
    exact ⟨fun hc => (by cases hc), fun hc => absurd hc.1 hts⟩

theorem TreeOk.view_of_way (h : TreeOk sb d) (hts : ∀ t ∈ ts, PathToken t) {y : Nat}
    (hw : (d.naming sb).Way 1 ts y) : d.view u sb ts = some (d.node sb y) :=
  h.view_eq_some.mpr ⟨hts, y, hw, rfl⟩

theorem TreeOk.way_used (h : TreeOk sb d) {y : Nat} (hw : (d.naming sb).Way 1 ts y) :
    (d.naming sb).used y :=
  h.used_of_reach h.root_used hw.reach

theorem TreeOk.view_none (h : TreeOk sb d)
    (hno : ∀ y, ¬ (d.naming sb).Way 1 ts y) : d.view u sb ts = none := by
  refine Option.eq_none_iff_forall_ne_some.mpr fun v hv => ?_
  obtain ⟨-, y, hw, -⟩ := h.view_eq_some.mp hv
  exact hno y hw

end

/-! ## Nodes

How the node of an inode changes with a step on it or on another. -/

section

variable {sb : Superblock} {hi ino i : Nat} {d d' : Disk}

@[simp] theorem Disk.node_ino (d : Disk) (sb : Superblock) (i : Nat) : (d.node sb i).ino = i := by
  unfold Disk.node
  split <;> rfl

@[simp] theorem Disk.node_mode (d : Disk) (sb : Superblock) (i : Nat) :
    (d.node sb i).mode = (d.inodeAt sb i).mode := by
  unfold Disk.node
  split <;> rfl

theorem Disk.node_isDir : (d.node sb i).IsDir ↔ (d.inodeAt sb i).isDir = true := by
  unfold Disk.node
  split
  · rename_i h
    exact ⟨fun _ => h, fun _ => ⟨_, _, rfl⟩⟩
  · rename_i h
    exact ⟨fun ⟨_, _, hc⟩ => (by cases hc), fun hc => absurd hc h⟩

theorem Disk.node_congr (hat : d'.inodeAt sb i = d.inodeAt sb i)
    (hsame : SameFile d (d.inodeAt sb i) d' (d.inodeAt sb i)) : d'.node sb i = d.node sb i := by
  unfold Disk.node
  rw [hat, show d'.fileByte (d.inodeAt sb i) = d.fileByte (d.inodeAt sb i) from
    funext fun x => hsame.fileByte x]

theorem Touched.node (h : Touched sb hi ino d d') (hne : i ≠ ino) : d'.node sb i = d.node sb i :=
  Disk.node_congr (h.inodeAt i hne) (h.same i hne)

theorem Touched.node_dir (h : Touched sb hi ino d d') (hdir : (d.inodeAt sb ino).isDir = true)
    (i : Nat) :
    d'.node sb i = d.node sb i := by
  rcases em (i = ino) with rfl | hne
  · have hdir' := hdir
    unfold Inode.isDir at hdir hdir'
    unfold Disk.node Inode.isDir
    rw [h.mode, if_pos hdir, if_pos hdir]
  · exact h.node hne

theorem InodeTaken.node {r : Inode} (h : InodeTaken sb hi ino r d d') (hne : i ≠ ino) :
    d'.node sb i = d.node sb i :=
  Disk.node_congr (by rw [h.inodeAt, if_neg hne]) (h.same i hne)

theorem InodeFreed.node (h : InodeFreed sb hi ino d d') (hne : i ≠ ino) :
    d'.node sb i = d.node sb i :=
  Disk.node_congr (by rw [h.inodeAt, if_neg hne]) (h.same i hne)

/-- What a new inode is: an empty directory or an empty file. -/
def newNode (i : Nat) (mode : UInt32) : Node :=
  if (freshInode mode 1).isDir then .dir i mode else .file i mode 0 fun _ => none

theorem InodeTaken.node_new {mode links : UInt32}
    (h : InodeTaken sb hi ino (freshInode mode links) d d') :
    d'.node sb ino = newNode ino mode := by
  have hat : d'.inodeAt sb ino = freshInode mode links := by rw [h.inodeAt, if_pos rfl]
  have hbytes : d'.fileByte (freshInode mode links) = fun _ => none := by
    funext x
    unfold Disk.fileByte
    cases hpos : posOf (x / 512) with
    | none => rfl
    | some pos =>
        exact if_pos (Disk.ptr_of_no_roots (root_freshInode _ _) d' pos)
  unfold Disk.node newNode
  rw [hat, hbytes]
  rfl

end

end IpoOs
