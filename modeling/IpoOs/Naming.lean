import IpoOs.Ancestry

/-!
# Trees of named entries

Objects, some of them directories, and the slots of the directories: a
slot is free or holds a link, a name with a tag and a target. `Tree` says
that no directory has a name twice and that no object is linked twice or
above the root; the four operations of a file system on names keep it,
and so does a move, which links an object anew and unlinks it.

Every directory may also keep an up-link of its own. `Linked` says that
the up-links are those of the tree, as far as a climb to the root needs
them, and each operation keeps it under conditions on the up-links it
writes.

The names, tags and objects are arbitrary. A file system's directory is a
function from slot numbers to slots, so a removal that leaves a gap and an
addition at the end are one store each, and the order of the entries plays
no part in what a tree is.

A tree is given by local conditions, and what is global follows: nothing
that can be reached from the root is above itself, and two directories that
can be reached never link each other.
-/

namespace IpoOs

/-- What a slot holds. -/
@[ext] structure Link (V N T : Type*) where
  name : N
  tag : T
  target : V

/-- The objects in use, the directories among them, and what is in the slots of these. -/
@[ext] structure Naming (V N T : Type*) where
  used : V → Prop
  dir : V → Prop
  entry : V → Nat → Option (Link V N T)

namespace Naming

variable {V N T : Type*} [DecidableEq V]

def alloc (G : Naming V N T) (y : V) (isDir : Prop) : Naming V N T where
  used v := v = y ∨ G.used v
  dir v := (v = y ∧ isDir) ∨ G.dir v
  entry := G.entry

def link (G : Naming V N T) (x : V) (e : Nat) (l : Link V N T) : Naming V N T :=
  { G with entry := fun v j => if v = x ∧ j = e then some l else G.entry v j }

def unlink (G : Naming V N T) (x : V) (e : Nat) : Naming V N T :=
  { G with entry := fun v j => if v = x ∧ j = e then none else G.entry v j }

/-- An object given back, with all its slots. -/
def free (G : Naming V N T) (y : V) : Naming V N T where
  used v := G.used v ∧ v ≠ y
  dir v := G.dir v ∧ v ≠ y
  entry v j := if v = y then none else G.entry v j

omit [DecidableEq V] in
/-- One object directly in another. -/
def Child (G : Naming V N T) (x y : V) : Prop := ∃ e l, G.entry x e = some l ∧ l.target = y

/-- Names are unique in a directory, and links to an object in the whole. -/
structure Tree (G : Naming V N T) (root : V) : Prop where
  root_dir : G.dir root
  dir_used : ∀ {x}, G.dir x → G.used x
  source : ∀ {x e l}, G.entry x e = some l → G.dir x
  target : ∀ {x e l}, G.entry x e = some l → G.used l.target ∧ l.target ≠ root
  name : ∀ {x e e' l l'}, G.entry x e = some l → G.entry x e' = some l' → l.name = l'.name → e = e'
  unique : ∀ {x x' e e' l l'}, G.entry x e = some l → G.entry x' e' = some l' →
    l.target = l'.target → x = x' ∧ e = e'

section

variable {G : Naming V N T} {root x x' y : V} {e e' : Nat} {l l' m : Link V N T}

theorem link_entry {v : V} {j : Nat} : (G.link x e l).entry v j = some m
    ↔ (v = x ∧ j = e ∧ m = l) ∨ (¬ (v = x ∧ j = e) ∧ G.entry v j = some m) := by
  show (if v = x ∧ j = e then some l else G.entry v j) = some m ↔ _
  split
  · rename_i h
    rw [Option.some.injEq]
    constructor
    · intro hm
      exact Or.inl ⟨h.1, h.2, hm.symm⟩
    · rintro (⟨-, -, hm⟩ | ⟨hn, -⟩)
      · exact hm.symm
      · exact absurd h hn
  · rename_i h
    constructor
    · intro hm
      exact Or.inr ⟨h, hm⟩
    · rintro (⟨hv, hj, -⟩ | ⟨-, hm⟩)
      · exact absurd ⟨hv, hj⟩ h
      · exact hm

theorem unlink_entry {v : V} {j : Nat} : (G.unlink x e).entry v j = some m
    ↔ ¬ (v = x ∧ j = e) ∧ G.entry v j = some m := by
  show (if v = x ∧ j = e then none else G.entry v j) = some m ↔ _
  split
  · rename_i h
    exact ⟨fun hm => (by cases hm), fun hm => absurd h hm.1⟩
  · rename_i h
    exact ⟨fun hm => ⟨h, hm⟩, And.right⟩

theorem free_entry {v : V} {j : Nat} : (G.free y).entry v j = some m
    ↔ v ≠ y ∧ G.entry v j = some m := by
  show (if v = y then none else G.entry v j) = some m ↔ _
  split
  · rename_i h
    exact ⟨fun hm => (by cases hm), fun hm => absurd h hm.1⟩
  · rename_i h
    exact ⟨fun hm => ⟨h, hm⟩, And.right⟩

/-! ## The operations keep the tree

One lemma for each operation, with the conditions under which it makes
sense. A move is a link to a second place and then an unlink of the first;
in between the object has two parents, and `link_unlink_comm` says that the
two steps can be seen in the other order. -/

namespace Tree

variable (h : Tree G root)

include h

omit [DecidableEq V] in
theorem alloc (isDir : Prop) : Tree (G.alloc y isDir) root where
  root_dir := Or.inr h.root_dir
  dir_used hv := by
    rcases hv with ⟨rfl, -⟩ | hv
    · exact Or.inl rfl
    · exact Or.inr (h.dir_used hv)
  source he := Or.inr (h.source he)
  target he := ⟨Or.inr (h.target he).1, (h.target he).2⟩
  name he he' := h.name he he'
  unique he he' := h.unique he he'

theorem unlink : Tree (G.unlink x e) root where
  root_dir := h.root_dir
  dir_used := h.dir_used
  source he := h.source (unlink_entry.mp he).2
  target he := h.target (unlink_entry.mp he).2
  name he he' := h.name (unlink_entry.mp he).2 (unlink_entry.mp he').2
  unique he he' := h.unique (unlink_entry.mp he).2 (unlink_entry.mp he').2

theorem alloc_free (hy : ¬ G.used y) (isDir : Prop) : (G.alloc y isDir).free y = G := by
  have hne : ∀ {v}, G.used v → v ≠ y := fun hv hc => hy (hc ▸ hv)
  refine Naming.ext (funext fun v => propext ?_) (funext fun v => propext ?_)
    (funext fun v => funext fun j => ?_)
  · constructor
    · rintro ⟨hv | hv, hvy⟩
      · exact absurd hv hvy
      · exact hv
    · exact fun hv => ⟨Or.inr hv, hne hv⟩
  · constructor
    · rintro ⟨hv | hv, hvy⟩
      · exact absurd hv.1 hvy
      · exact hv
    · exact fun hv => ⟨Or.inr hv, hne (h.dir_used hv)⟩
  · show (if v = y then none else G.entry v j) = G.entry v j
    rcases Classical.em (v = y) with rfl | hv
    · rw [if_pos rfl]
      refine (Option.eq_none_iff_forall_ne_some.mpr fun l hl => ?_).symm
      exact hy (h.dir_used (h.source hl))
    · rw [if_neg hv]

theorem free (hne : y ≠ root) (hno : ∀ {x e l}, G.entry x e = some l → l.target ≠ y) :
    Tree (G.free y) root where
  root_dir := ⟨h.root_dir, hne.symm⟩
  dir_used hv := ⟨h.dir_used hv.1, hv.2⟩
  source he := ⟨h.source (free_entry.mp he).2, (free_entry.mp he).1⟩
  target he := ⟨⟨(h.target (free_entry.mp he).2).1, hno (free_entry.mp he).2⟩,
    (h.target (free_entry.mp he).2).2⟩
  name he he' := h.name (free_entry.mp he).2 (free_entry.mp he').2
  unique he he' := h.unique (free_entry.mp he).2 (free_entry.mp he').2

/-- An object with no link to it can be linked under a new name. -/
theorem link (hx : G.dir x) (hl : G.used l.target ∧ l.target ≠ root)
    (hname : ∀ {j m}, G.entry x j = some m → m.name ≠ l.name)
    (hno : ∀ {x e m}, G.entry x e = some m → m.target ≠ l.target) : Tree (G.link x e l) root where
  root_dir := h.root_dir
  dir_used := h.dir_used
  source he := by
    rcases link_entry.mp he with ⟨rfl, -, -⟩ | ⟨-, he⟩
    · exact hx
    · exact h.source he
  target he := by
    rcases link_entry.mp he with ⟨-, -, rfl⟩ | ⟨-, he⟩
    · exact hl
    · exact h.target he
  name he he' heq := by
    rcases link_entry.mp he with ⟨rfl, rfl, rfl⟩ | ⟨-, hold⟩
    · rcases link_entry.mp he' with ⟨-, rfl, -⟩ | ⟨-, hold'⟩
      · rfl
      · exact absurd heq.symm (hname hold')
    · rcases link_entry.mp he' with ⟨rfl, rfl, rfl⟩ | ⟨-, hold'⟩
      · exact absurd heq (hname hold)
      · exact h.name hold hold' heq
  unique he he' heq := by
    rcases link_entry.mp he with ⟨rfl, rfl, rfl⟩ | ⟨-, hold⟩
    · rcases link_entry.mp he' with ⟨rfl, rfl, -⟩ | ⟨-, hold'⟩
      · exact ⟨rfl, rfl⟩
      · exact absurd heq.symm (hno hold')
    · rcases link_entry.mp he' with ⟨rfl, rfl, rfl⟩ | ⟨-, hold'⟩
      · exact absurd heq (hno hold)
      · exact h.unique hold hold' heq

omit h in
theorem link_unlink_comm (hne : ¬ (x' = x ∧ e' = e)) :
    (G.link x' e' l').unlink x e = (G.unlink x e).link x' e' l' := by
  refine Naming.ext rfl rfl (funext fun v => funext fun j => ?_)
  show (if v = x ∧ j = e then none else if v = x' ∧ j = e' then some l' else G.entry v j)
    = if v = x' ∧ j = e' then some l' else if v = x ∧ j = e then none else G.entry v j
  split
  · rename_i hv
    rw [if_neg fun hc => hne ⟨hc.1.symm.trans hv.1, hc.2.symm.trans hv.2⟩]
  · rfl

/-- A link moved to another slot, under a name that is new there. -/
theorem move (he : G.entry x e = some l) (hx : G.dir x') (hfree : ¬ (x' = x ∧ e' = e))
    (htarget : l'.target = l.target)
    (hname : ∀ {j m}, G.entry x' j = some m → m.name ≠ l'.name) :
    Tree ((G.link x' e' l').unlink x e) root := by
  rw [link_unlink_comm hfree]
  refine h.unlink.link hx (by rw [htarget]; exact h.target he)
    (fun hm => hname (unlink_entry.mp hm).2) fun hm heq => ?_
  obtain ⟨hother, hm⟩ := unlink_entry.mp hm
  exact hother (h.unique hm he (heq.trans htarget))

end Tree

/-! ## What is below the root

Reachability from the root along links, which the operations change only
where they link and unlink. -/

omit [DecidableEq V] in
/-- What holds of an object holds of what it is in, up to the root. -/
theorem reach_closed {S : V → Prop} (hS : ∀ {a b}, G.Child a b → S b → S a)
    (hr : Relation.ReflTransGen G.Child x y) (hy : S y) : S x := by
  induction hr with
  | refl => exact hy
  | tail _ hcb ih => exact ih (hS hcb hy)

omit [DecidableEq V] in
theorem Tree.not_mutual (h : Tree G root) (hr : Relation.ReflTransGen G.Child root x)
    (hx : G.entry x e = some l) (hy : G.entry l.target e' = some l') (hback : l'.target = x) :
    False := by
  have hS : ∀ {a b}, G.Child a b → b = x ∨ b = l.target → a = x ∨ a = l.target := by
    rintro a b ⟨j, m, hm, rfl⟩ (hb | hb)
    · exact Or.inr (h.unique hm hy (hb.trans hback.symm)).1
    · exact Or.inl (h.unique hm hx hb).1
  rcases reach_closed hS hr (Or.inl rfl) with hroot | hroot
  · exact (h.target hy).2 (hback.trans hroot.symm)
  · exact (h.target hx).2 hroot.symm

omit [DecidableEq V] in
theorem Tree.reach_dirs (h : Tree G root) (hr : Relation.ReflTransGen G.Child x y) (hy : G.dir y) :
    Relation.ReflTransGen (fun a b => G.Child a b ∧ G.dir b) x y := by
  induction hr with
  | refl => exact Relation.ReflTransGen.refl
  | tail _ hcb ih =>
      obtain ⟨e, l, he, -⟩ := id hcb
      exact (ih (h.source he)).tail ⟨hcb, hy⟩

/-! ## Up-links

The `..` of a directory is written by the code and not derived from the
tree, so that it agrees with the tree is an invariant of its own. -/

omit [DecidableEq V] in
/-- The up-links serve a climb from any directory to the root: outside the root they lead to
the parent, and the directories in the root have none that leads to another directory. The
up-link of a directory is in its second slot, which may also hold a file. -/
structure Linked (G : Naming V N T) (root : V) (dirTag : T) (up : V → Option V) : Prop where
  inner : ∀ {x e l}, G.entry x e = some l → G.dir l.target → x ≠ root → x ≠ l.target →
    up l.target = some x
  tag : ∀ {x e l}, G.entry x e = some l → G.dir l.target → x ≠ root → l.tag = dirTag
  top : ∀ {e l z}, G.entry root e = some l → G.dir l.target → up l.target = some z →
    z = root ∨ ∃ m, G.entry l.target 1 = some m ∧ m.target = z ∧ ¬ G.dir z

/-- An entry may be added in slot `e` of `x`: the second slot is free for a file in a directory
of the root, and is not used again elsewhere. -/
def SlotClear (G : Naming V N T) (root x : V) (e : Nat) (isDir : Prop) : Prop :=
  e = 1 → x ≠ root → G.Child root x ∧ ¬ isDir

namespace Linked

variable {dirTag : T} {up up' : V → Option V} (h : Linked G root dirTag up)

include h

omit [DecidableEq V] in
theorem congr (hup : ∀ v, G.dir v → up' v = up v) : Linked G root dirTag up' where
  inner he hd hx hne := (hup _ hd).trans (h.inner he hd hx hne)
  tag := h.tag
  top he hd hz := h.top he hd ((hup _ hd).symm.trans hz)

omit [DecidableEq V] in
/-- The up-links serve the climb, when what is in use and no directory has none. -/
theorem upLinks (ht : Tree G root) (hstop : ∀ z, G.used z → ¬ G.dir z → up z = none) :
    UpLinks root G.dir (fun a b => G.Child a b ∧ G.dir b) up where
  node_of_child hc := hc.2
  not_root := by
    rintro a b ⟨⟨e, l, he, rfl⟩, -⟩
    exact (ht.target he).2
  link := by
    rintro a b ⟨⟨e, l, he, rfl⟩, hd⟩ hne
    rcases Classical.em (a = l.target) with heq | hself
    · exact Or.inl heq
    · exact Or.inr (h.inner he hd hne hself)
  top := by
    rintro b z ⟨⟨e, l, he, rfl⟩, hd⟩ hz
    rcases h.top he hd hz with hroot | ⟨m, hm, rfl, hfile⟩
    · exact Or.inl hroot
    · exact Or.inr ⟨hfile, hstop _ (ht.target hm).1 hfile⟩

theorem create (ht : Tree G root) (hx : G.dir x) (hy : ¬ G.used l.target) {isDir : Prop}
    (hdir : isDir → x = root) (hclear : SlotClear G root x e isDir)
    (hnew : up' l.target = none) (hsecond : e = 1 → up' x = some l.target)
    (hup : ∀ v, v ≠ l.target → ¬ (v = x ∧ e = 1) → up' v = up v) :
    Linked ((G.alloc l.target isDir).link x e l) root dirTag up' := by
  have hold : ∀ {v}, G.used v → v ≠ l.target := fun hv hc => hy (hc ▸ hv)
  have hback : ∀ {v}, G.used v → (G.alloc l.target isDir).dir v → G.dir v := by
    rintro v hv (⟨rfl, -⟩ | hd)
    · exact absurd hv hy
    · exact hd
  have hfresh : (G.alloc l.target isDir).dir l.target → isDir := by
    rintro (⟨-, hd⟩ | hd)
    · exact hd
    · exact absurd (ht.dir_used hd) hy
  constructor
  · intro v j m hm hd hv hne
    rcases link_entry.mp hm with ⟨rfl, rfl, rfl⟩ | ⟨-, hm⟩
    · exact absurd (hdir (hfresh hd)) hv
    · have hused := (ht.target hm).1
      rw [hup _ (hold hused)]
      · exact h.inner hm (hback hused hd) hv hne
      · rintro ⟨hmx, he⟩
        -- the directory whose second slot is taken is in the root
        obtain ⟨⟨i, m', hm', hroot⟩, -⟩ := hclear he (hmx ▸ (ht.target hm).2)
        exact hv (ht.unique hm hm' (hmx.trans hroot.symm)).1
  · intro v j m hm hd hv
    rcases link_entry.mp hm with ⟨rfl, rfl, rfl⟩ | ⟨-, hm⟩
    · exact absurd (hdir (hfresh hd)) hv
    · exact h.tag hm (hback (ht.target hm).1 hd) hv
  · intro j m z hm hd hz
    rcases link_entry.mp hm with ⟨rfl, rfl, rfl⟩ | ⟨-, hm⟩
    · rw [hnew] at hz
      cases hz
    · have hused := (ht.target hm).1
      rcases Classical.em (m.target = x ∧ e = 1) with ⟨hmx, he⟩ | hno
      · rw [hmx, hsecond he] at hz
        obtain rfl := Option.some.inj hz
        refine Or.inr ⟨l, link_entry.mpr (Or.inl ⟨hmx, he.symm, rfl⟩), rfl, fun hdl => ?_⟩
        exact (hclear he (hmx ▸ (ht.target hm).2)).2 (hfresh hdl)
      · rw [hup _ (hold hused) hno] at hz
        rcases h.top hm (hback hused hd) hz with hroot | ⟨m', hm', rfl, hfile⟩
        · exact Or.inl hroot
        · refine Or.inr ⟨m', link_entry.mpr (Or.inr ⟨?_, hm'⟩), rfl, fun hd' =>
            hfile (hback (ht.target hm').1 hd')⟩
          rintro ⟨hc, he⟩
          exact hno ⟨hc, he.symm⟩

theorem delete (he : G.entry x e = some l)
    (hsecond : ∀ {m}, G.entry x 1 = some m → m.target ≠ x → up x = some m.target)
    (hnone : e = 1 → x ≠ l.target → up' x = none)
    (hup : ∀ v, G.dir v → v ≠ l.target → ¬ (v = x ∧ e = 1) → up' v = up v) :
    Linked ((G.unlink x e).free l.target) root dirTag up' := by
  have hsplit : ∀ {v j m}, ((G.unlink x e).free l.target).entry v j = some m →
      v ≠ l.target ∧ ¬ (v = x ∧ j = e) ∧ G.entry v j = some m := fun hm =>
    ⟨(free_entry.mp hm).1, unlink_entry.mp (free_entry.mp hm).2⟩
  constructor
  · rintro v j m hm ⟨hd, hmy⟩ hv hne
    obtain ⟨hvy, hother, hm⟩ := hsplit hm
    rw [hup _ hd hmy]
    · exact h.inner hm hd hv hne
    · rintro ⟨hmx, he1⟩
      -- its up-link was the entry itself, to the object given back
      have hlink := h.inner hm hd hv hne
      rw [hmx, hsecond (he1 ▸ he) fun hc => hmy (hmx.trans hc.symm)] at hlink
      exact hvy (Option.some.inj hlink).symm
  · rintro v j m hm ⟨hd, -⟩ hv
    exact h.tag (hsplit hm).2.2 hd hv
  · rintro j m z hm ⟨hd, hmy⟩ hz
    obtain ⟨-, -, hm⟩ := hsplit hm
    rcases Classical.em (m.target = x ∧ e = 1) with ⟨hmx, he1⟩ | hno
    · rw [hmx, hnone he1 (hmx ▸ hmy)] at hz
      cases hz
    · rw [hup _ hd hmy hno] at hz
      rcases h.top hm hd hz with hroot | ⟨m', hm', rfl, hfile⟩
      · exact Or.inl hroot
      · refine Or.inr ⟨m', free_entry.mpr ⟨hmy, unlink_entry.mpr ⟨?_, hm'⟩⟩, rfl, fun hd' =>
          hfile hd'.1⟩
        rintro ⟨hc, he1⟩
        exact hno ⟨hc, he1.symm⟩

/-- An object moved: a directory that does not go into the root carries the tag and gets its
new parent as up-link. -/
theorem move (ht : Tree G root) (he : G.entry x e = some l)
    (hreach : Relation.ReflTransGen G.Child root x) (htarget : l'.target = l.target)
    (hclear : SlotClear G root x' e' (G.dir l.target))
    (hsecond : ∀ {m}, G.entry x 1 = some m → m.target ≠ x → up x = some m.target)
    (htag : G.dir l.target → x' ≠ root → l'.tag = dirTag)
    (hparent : G.dir l.target → x' ≠ root → x' ≠ l.target → up' l.target = some x')
    (hroot : G.dir l.target → x' = root → ∀ z, up' l.target = some z →
      z = root ∨ (x = root ∧ up l.target = some z))
    (hfilled : e' = 1 → ¬ (x' = x ∧ e = 1) → x' ≠ l.target → up' x' = some l.target)
    (hnone : e = 1 → up' x = none)
    (hup : ∀ v, v ≠ l.target → ¬ (v = x ∧ e = 1) → ¬ (v = x' ∧ e' = 1) → up' v = up v) :
    Linked ((G.link x' e' l').unlink x e) root dirTag up' := by
  have hself : x ≠ l.target := fun hc => ht.not_mutual hreach he (hc ▸ he) hc.symm
  have hsplit : ∀ {v j m}, ((G.link x' e' l').unlink x e).entry v j = some m →
      ¬ (v = x ∧ j = e) ∧ ((v = x' ∧ j = e' ∧ m = l') ∨ (¬ (v = x' ∧ j = e')
        ∧ G.entry v j = some m)) := fun hm =>
    ⟨(unlink_entry.mp hm).1, link_entry.mp (unlink_entry.mp hm).2⟩
  have hother : ∀ {v j m}, ¬ (v = x ∧ j = e) → G.entry v j = some m → m.target ≠ l.target :=
    fun hne hm hc => hne (ht.unique hm he hc)
  constructor
  · intro v j m hm hd hv hne
    obtain ⟨hnot, ⟨rfl, rfl, rfl⟩ | ⟨-, hm⟩⟩ := hsplit hm
    · rw [htarget] at hd hne ⊢
      exact hparent hd hv hne
    · rw [hup _ (hother hnot hm)]
      · exact h.inner hm hd hv hne
      · rintro ⟨hmx, he1⟩
        -- the old parent and what it held would be in one another
        have hlink := h.inner hm hd hv hne
        rw [hmx, hsecond (he1 ▸ he) hself.symm] at hlink
        have hvl := Option.some.inj hlink
        exact ht.not_mutual hreach he (hvl ▸ hm) hmx
      · rintro ⟨hmx, he1⟩
        obtain ⟨⟨i, m', hm', hc⟩, -⟩ := hclear he1 (hmx ▸ (ht.target hm).2)
        exact hv (ht.unique hm hm' (hmx.trans hc.symm)).1
  · intro v j m hm hd hv
    obtain ⟨-, ⟨rfl, rfl, rfl⟩ | ⟨-, hm⟩⟩ := hsplit hm
    · rw [htarget] at hd
      exact htag hd hv
    · exact h.tag hm hd hv
  · intro j m z hm hd hz
    have hkeep : ∀ {v m'}, ¬ (v = x ∧ e = 1) → ¬ (v = x' ∧ e' = 1) → G.entry v 1 = some m' →
        ((G.link x' e' l').unlink x e).entry v 1 = some m' := fun h1 h2 hm' =>
      unlink_entry.mpr ⟨fun hc => h1 ⟨hc.1, hc.2.symm⟩,
        link_entry.mpr (Or.inr ⟨fun hc => h2 ⟨hc.1, hc.2.symm⟩, hm'⟩)⟩
    obtain ⟨hnot, ⟨hx', rfl, rfl⟩ | ⟨-, hm⟩⟩ := hsplit hm
    · rw [htarget] at hd hz ⊢
      rcases hroot hd hx'.symm z hz with hz | ⟨rfl, hz⟩
      · exact Or.inl hz
      · rcases h.top he hd hz with hz | ⟨m', hm', rfl, hfile⟩
        · exact Or.inl hz
        · refine Or.inr ⟨m', hkeep (fun hc => (ht.target he).2 hc.1) (fun hc => ?_) hm', rfl, hfile⟩
          exact (ht.target he).2 (hc.1.trans hx'.symm)
    · have hmy := hother hnot hm
      rcases Classical.em (m.target = x ∧ e = 1) with ⟨hmx, he1⟩ | hno
      · rw [hmx, hnone he1] at hz
        cases hz
      rcases Classical.em (m.target = x' ∧ e' = 1) with ⟨hmx, he1⟩ | hno'
      · -- the slot filled is the second one of a directory in the root
        have hfree : ¬ (x' = x ∧ e = 1) := fun hc => hno ⟨hmx.trans hc.1, hc.2⟩
        rw [hmx, hfilled he1 hfree fun hc => hmy (hmx.trans hc)] at hz
        obtain rfl := Option.some.inj hz
        refine Or.inr ⟨l', unlink_entry.mpr ⟨fun hc => hfree ⟨hmx.symm.trans hc.1, hc.2.symm⟩,
          link_entry.mpr (Or.inl ⟨hmx, he1.symm, rfl⟩)⟩, htarget, ?_⟩
        exact (hclear he1 (hmx ▸ (ht.target hm).2)).2
      · rw [hup _ hmy hno hno'] at hz
        rcases h.top hm hd hz with hz | ⟨m', hm', rfl, hfile⟩
        · exact Or.inl hz
        · exact Or.inr ⟨m', hkeep hno hno' hm', rfl, hfile⟩

end Linked

end

end Naming

end IpoOs
