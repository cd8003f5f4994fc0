import IpoOs.FsNaming
import IpoOs.FsWalk

/-!
# The directory tree over whole runs

As long as no write goes into a directory and no directory is moved whose
second slot is in use for something else, the links of the volume are a
tree: names are unique in a directory, and every inode has at most one
link. What a path resolves to is then linked from the root.

`TreeOk` puts together what a tree on a volume rests on: the links are a
tree, the directories are in order, and what is linked is in use. It is a
property of a volume, and the next two modules show that the calls keep it.
-/

namespace IpoOs

/-- The directories are in order and their links are a tree. -/
structure TreeOk (sb : Superblock) (d : Disk) : Prop where
  dirs : DirsOk sb d
  tree : (d.naming sb).Tree 1

/-! ## Lookups

A lookup finds the link of a name, or there is none. -/

section

variable {u : Block} {sb : Superblock} {d : Disk} {x : Nat} {name : Str}

theorem toNat_ne_zero {n : UInt32} : n.toNat ≠ 0 ↔ n ≠ 0 :=
  not_congr ⟨fun h => UInt32.toNat.inj h, fun h => h ▸ rfl⟩

theorem dirFindEntry_link (hd : DirsOk sb d) (hx : d.LiveDir sb x) (hname : LinkName name)
    {de : DirEntry} {p k : Nat}
    (hf : (dirFindEntry (arrayDev u) sb x name d).1 = some (de, p, k)) :
    de.inode ≠ 0 ∧ ∃ e, (d.naming sb).entry x e = some ⟨name, de.type, de.inode.toNat⟩ := by
  have hfind := dirFindEntry_find u (hd x hx) hx.1 hx.2.2 hname.1
  rw [hf, Option.map_some] at hfind
  obtain ⟨e, he, hs, hlive⟩ := mem_liveEntries.mp (List.mem_of_find?_eq_some hfind.symm)
  have hn : de.nameBytes = name := by simpa using List.find?_some hfind.symm
  refine ⟨hlive, e, Disk.naming_entry.mpr ⟨hx, he, de, hs, ?_⟩⟩
  rw [← hn]
  exact DirEntry.link_eq_some.mpr ⟨hlive, by rw [hn]; exact hname, rfl⟩

theorem dirFindEntry_absent (hd : DirsOk sb d) (hx : d.LiveDir sb x)
    (hf : (dirFindEntry (arrayDev u) sb x name d).1 = none) {e : Nat} {l : Link Nat Str UInt8}
    (hl : (d.naming sb).entry x e = some l) : l.name ≠ name := by
  rintro rfl
  obtain ⟨-, he, s, hs, hlink⟩ := Disk.naming_entry.mp hl
  obtain ⟨hlive, hname, rfl⟩ := DirEntry.link_eq_some.mp hlink
  have hfind := dirFindEntry_find u (hd x hx) hx.1 hx.2.2 hname.1
  rw [hf, Option.map_none] at hfind
  have hmem := mem_liveEntries.mpr ⟨e, he, hs, hlive⟩
  exact absurd (List.find?_eq_none.mp hfind.symm s hmem) (by simp)

theorem removeHit_link (hd : DirsOk sb d) (hint : d.IntPtrs (d.inodeAt sb x)) (hx : d.LiveDir sb x)
    (hname : LinkName name) (hnul : (0 : UInt8) ∉ name) {k : Nat} (hk : k < (d.inodeAt sb x).slots)
    (hhit : d.RemoveHit (d.inodeAt sb x) name k) :
    ∃ l, (d.naming sb).entry x k = some l ∧ l.name = name := by
  obtain ⟨p, hp, hlive, hcmp⟩ := hhit
  have hslot := (dirSlot_lookup hint).mpr ⟨p, hp, rfl⟩
  obtain ⟨s, hs, hn⟩ := hd x hx k hk
  obtain rfl := Option.some.inj (hs.symm.trans hslot)
  have heq := nameBytes_of_strncmp hn.readable hlive hname.1 hnul hcmp
  exact ⟨_, Disk.naming_entry.mpr ⟨hx, hk, _, hslot,
    DirEntry.link_eq_some.mpr ⟨hlive, by rw [heq]; exact hname, rfl⟩⟩, heq⟩

theorem DirEntry.Named.hasName {s : DirEntry} (h : s.Named) (hlive : s.inode ≠ 0)
    (hne : s.nameBytes ≠ []) : s.HasName s.nameBytes := by
  rcases h.readable hlive with ⟨hlen, -⟩ | ⟨stored, hstored⟩
  · exact absurd (nameBytes_eq_nil hlen) hne
  · rw [hstored.nameBytes]
    exact hstored

/-- `dir_remove_entry` removes the only link of a name in a directory, unless its inode is
protected. -/
theorem dirRemoveEntry_link (L : SoundLayout sb) (O : OwnedVol sb (intBound sb) d)
    (hd : DirsOk sb d) {e : Nat} {l : Link Nat Str UInt8} (hl : (d.naming sb).entry x e = some l)
    (honly : ∀ {j m}, (d.naming sb).entry x j = some m → m.name = l.name → j = e)
    (hprot : (d.inodeAt sb l.target).isProtected = false) :
    ∃ d', dirRemoveEntry (arrayDev u) sb x l.name d = (true, d')
      ∧ SlotChanged sb x e DirEntry.dead d d' := by
  obtain ⟨hx, he, s, hs, hlink⟩ := Disk.naming_entry.mp hl
  obtain ⟨hlive, hname, rfl⟩ := DirEntry.link_eq_some.mp hlink
  obtain ⟨s', hs', hn⟩ := hd x hx e he
  obtain rfl := Option.some.inj (hs'.symm.trans hs)
  have hhas := hn.hasName hlive hname.1
  have hshort := hhas.short
  have hint := O.intPtrs x
  have hunique : ∀ {j}, j < (d.inodeAt sb x).slots →
      d.RemoveHit (d.inodeAt sb x) s'.nameBytes j → j = e := fun hj hhit => by
    obtain ⟨m, hm, hmn⟩ := removeHit_link hd hint hx hname hhas.noNul hj hhit
    exact honly hm hmn
  obtain ⟨p, hp, hdec⟩ := (dirSlot_lookup hint).mp hs
  subst hdec
  have hhit : d.RemoveHit (d.inodeAt sb x) (DirEntry.decode (d p) (e % 7 * 72)).nameBytes e :=
    ⟨p, hp, hlive, (strncmp_hasName hhas hhas.noNul (Or.inl hshort)).mpr rfl⟩
  have hrefused : ¬ d.RemoveRefused sb p (e % 7 * 72) := by
    rw [removeRefused_iff hhas]
    rintro (⟨-, hpr⟩ | hdot | hdots)
    · exact absurd (hpr.symm.trans hprot) (by decide)
    · exact hname.2.1 hdot
    · exact hname.2.2 hdots
  have hrem : d.Removable sb x (DirEntry.decode (d p) (e % 7 * 72)).nameBytes :=
    ⟨hx.1, e, p, he, fun j hj hc => Nat.ne_of_lt hj (hunique (Nat.lt_trans hj he) hc), hhit, hp,
      hrefused⟩
  have htrue := (dirRemoveEntry_iff u x _).mpr hrem
  have hrun : dirRemoveEntry (arrayDev u) sb x (DirEntry.decode (d p) (e % 7 * 72)).nameBytes d
      = (true, (dirRemoveEntry (arrayDev u) sb x
        (DirEntry.decode (d p) (e % 7 * 72)).nameBytes d).2) := Prod.ext htrue rfl
  obtain ⟨k, -, hk, -, -, hkhit, -, hchanged⟩ := dirRemoveEntry_removed L u O hrun
  obtain rfl := hunique hk hkhit
  exact ⟨_, hrun, hchanged⟩

theorem liveDir_of_find (hused : (d.naming sb).used x) {f : DirEntry × Nat × Nat}
    (hf : (dirFindEntry (arrayDev u) sb x name d).1 = some f) : d.LiveDir sb x :=
  ⟨hused.1, hused.2, (dirFindEntry_isDir hf).2⟩

end

/-! ## Paths

A path that resolves to an inode is a way from the root to it. -/

section

variable {u : Block} {sb : Superblock} {d : Disk}

theorem PathToken.linkName {t : Str} (h : PathToken t) : LinkName t :=
  ⟨h.ne_nil, h.ne_dot, h.ne_dotdot⟩

namespace TreeOk

open Relation

variable (h : TreeOk sb d)

include h

theorem root_used : (d.naming sb).used 1 := h.tree.dir_used h.tree.root_dir

theorem used_of_reach {x y : Nat} (hx : (d.naming sb).used x)
    (hr : ReflTransGen (d.naming sb).Child x y) : (d.naming sb).used y := by
  induction hr with
  | refl => exact hx
  | tail _ hc _ =>
      obtain ⟨e, l, hl, rfl⟩ := hc
      exact (h.tree.target hl).1

theorem walk_reach {ts : List Str} (hts : ∀ t ∈ ts, PathToken t) {x n : Nat}
    (hx : (d.naming sb).used x) (hw : d.walk u sb ts x = some n) :
    ReflTransGen (d.naming sb).Child x n := by
  induction ts generalizing x with
  | nil =>
      obtain rfl := Option.some.inj hw
      exact ReflTransGen.refl
  | cons t ts ih =>
      unfold Disk.walk at hw
      cases hf : (dirFindEntry (arrayDev u) sb x t d).1 with
      | none =>
          rw [hf] at hw
          cases hw
      | some f =>
          obtain ⟨de, p, k⟩ := f
          rw [hf] at hw
          have hdir := liveDir_of_find hx hf
          obtain ⟨-, e, hl⟩ := dirFindEntry_link h.dirs hdir
            (hts t List.mem_cons_self).linkName hf
          have hrest := ih (fun t ht => hts t (List.mem_cons_of_mem _ ht)) (h.tree.target hl).1 hw
          exact ReflTransGen.head ⟨e, _, hl, rfl⟩ hrest

theorem resolve_reach {path : Str} {n : Nat}
    (hp : (pathResolve (arrayDev u) sb path d).1 = some n) :
    ReflTransGen (d.naming sb).Child 1 n := by
  obtain ⟨ts, hts, hwalk⟩ := @pathResolve_walk u sb d path
  rw [hwalk] at hp
  exact h.walk_reach hts h.root_used hp

theorem resolveParent_reach {path name : Str} {parent : Nat}
    (hp : (pathResolveParent (arrayDev u) sb path d).1 = some (parent, name)) :
    PathToken name ∧ ReflTransGen (d.naming sb).Child 1 parent := by
  obtain ⟨hname, ts, hts, hwalk⟩ := pathResolveParent_walk hp
  exact ⟨hname, h.walk_reach hts h.root_used hwalk⟩

end TreeOk

end

end IpoOs
