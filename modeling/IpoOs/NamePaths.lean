import IpoOs.Naming
import Mathlib.Data.List.Infix

/-!
# Paths of named entries

A way through the links of a `Naming`, by the names it goes by. In a tree
the names say where a way ends, and the end says which way from the root
it was. The operations on links are then operations on ways: an object
linked adds the ways below it, a link taken out cuts those through it, and
a move puts what was under one path under another.

A way is an inductive relation between two objects, with the names on it as
a list. All lemmas about a tree rest on two facts: names lead from an object
to at most one object, and an object has at most one link to it.
-/

namespace IpoOs

namespace Naming

variable {V N T : Type*}

/-- A way down from an object, with the names of the links it follows. -/
inductive Way (G : Naming V N T) : V → List N → V → Prop
  | here {x : V} : Way G x [] x
  | down {x y : V} {e : Nat} {l : Link V N T} {ts : List N} (he : G.entry x e = some l)
      (hw : Way G l.target ts y) : Way G x (l.name :: ts) y

section

variable {G G' : Naming V N T} {root x x' y z : V} {e e' : Nat} {l l' : Link V N T}
  {ts ts' po pn us : List N}

namespace Way

theorem nil_eq (h : Way G x [] y) : y = x := by
  cases h
  rfl

theorem single (he : G.entry x e = some l) : Way G x [l.name] l.target := .down he .here

theorem append (h : Way G x ts y) (h' : Way G y us z) : Way G x (ts ++ us) z := by
  induction h with
  | here => exact h'
  | down he _ ih => exact .down he (ih h')

theorem split (h : Way G x (ts ++ us) z) : ∃ y, Way G x ts y ∧ Way G y us z := by
  induction ts generalizing x with
  | nil => exact ⟨x, .here, h⟩
  | cons t ts ih =>
      rw [List.cons_append] at h
      cases h with
      | down he hw =>
          obtain ⟨y, h1, h2⟩ := ih hw
          exact ⟨y, .down he h1, h2⟩

theorem last {n : N} (h : Way G x (ts ++ [n]) z) :
    ∃ y e l, Way G x ts y ∧ G.entry y e = some l ∧ l.name = n ∧ l.target = z := by
  obtain ⟨y, h1, h2⟩ := h.split
  cases h2 with
  | down he hw =>
      cases hw
      exact ⟨y, _, _, h1, he, rfl, rfl⟩

theorem reach (h : Way G x ts y) : Relation.ReflTransGen G.Child x y := by
  induction h with
  | here => exact Relation.ReflTransGen.refl
  | down he _ ih => exact Relation.ReflTransGen.head ⟨_, _, he, rfl⟩ ih

theorem exists_of_reach (h : Relation.ReflTransGen G.Child x y) : ∃ ts, Way G x ts y := by
  induction h with
  | refl => exact ⟨[], .here⟩
  | tail _ hc ih =>
      obtain ⟨ts, hw⟩ := ih
      obtain ⟨e, l, he, rfl⟩ := hc
      exact ⟨ts ++ [l.name], hw.append (.single he)⟩

/-- A way stays one where the links of the objects it passes stay. -/
theorem of_entries (h : Way G x ts y)
    (hkeep : ∀ {v j m}, Relation.ReflTransGen G.Child x v → G.entry v j = some m →
      G'.entry v j = some m) : Way G' x ts y := by
  induction h with
  | here => exact .here
  | down he hw ih =>
      refine .down (hkeep Relation.ReflTransGen.refl he) (ih fun hr hm => ?_)
      exact hkeep (Relation.ReflTransGen.head ⟨_, _, he, rfl⟩ hr) hm

end Way

/-! ## Ways in a tree

Determinism from the root down, uniqueness from the end up, and the place at
which a way passes through a given object. -/

namespace Tree

variable (h : Tree G root)

include h

theorem way_det (hy : Way G x ts y) (hz : Way G x ts z) : y = z := by
  induction hy with
  | here => exact hz.nil_eq.symm
  | @down x y e l ts he _ ih =>
      generalize hts : l.name :: ts = ns at hz
      cases hz with
      | here => cases hts
      | @down _ _ e' l' _ he' hw' =>
          obtain ⟨hname, rfl⟩ := List.cons.inj hts
          obtain rfl := h.name he he' hname
          obtain rfl := Option.some.inj (he.symm.trans he')
          exact ih hw'

theorem way_unique (hy : Way G root ts y) (hz : Way G root ts' y) : ts = ts' := by
  induction ts using List.reverseRecOn generalizing ts' y with
  | nil =>
      obtain rfl := hy.nil_eq
      rcases List.eq_nil_or_concat' ts' with rfl | ⟨ts', n, rfl⟩
      · rfl
      · obtain ⟨_, _, l, -, hl, -, htarget⟩ := hz.last
        exact absurd htarget (h.target hl).2
  | append_singleton ts n ih =>
      obtain ⟨v, j, l, hw, hl, rfl, rfl⟩ := hy.last
      rcases List.eq_nil_or_concat' ts' with rfl | ⟨ts', n', rfl⟩
      · exact absurd hz.nil_eq (h.target hl).2
      · obtain ⟨v', j', l', hw', hl', rfl, htarget⟩ := hz.last
        obtain ⟨rfl, rfl⟩ := h.unique hl' hl htarget
        obtain rfl := Option.some.inj (hl'.symm.trans hl)
        rw [ih hw hw']

theorem way_back (hx : Way G root ts x) (hy : Way G x us y)
    (hback : Relation.ReflTransGen G.Child y x) :
    us = [] := by
  obtain ⟨vs, hvs⟩ := Way.exists_of_reach hback
  have heq := h.way_unique hx (hx.append (hy.append hvs))
  have hlen := congrArg List.length heq
  rw [List.length_append, List.length_append] at hlen
  exact List.length_eq_zero_iff.mp (by omega)

theorem target_not_above (hx : Way G root ts x) (he : G.entry x e = some l) :
    ¬ Relation.ReflTransGen G.Child l.target x := fun hr =>
  List.cons_ne_nil _ _ (h.way_back hx (.single he) hr)

theorem way_through (hpo : Way G root po x) (he : G.entry x e = some l) :
    Way G root (po ++ l.name :: us) y ↔ Way G l.target us y := by
  constructor
  · intro hw
    rw [← List.singleton_append, ← List.append_assoc] at hw
    obtain ⟨v, hv, hus⟩ := hw.split
    rwa [h.way_det (hpo.append (.single he)) hv]
  · exact fun hw => hpo.append (.down he hw)

end Tree

/-! ## Ways and operations

How the set of ways changes with each operation on links. These are the
lemmas by which the store of a volume changes as a store should. -/

variable [DecidableEq V]

theorem way_link_of_not (hno : ¬ Relation.ReflTransGen G.Child x x') :
    Way (G.link x' e' l') x ts y ↔ Way G x ts y := by
  have hentry : ∀ {v j m}, v ≠ x' → ((G.link x' e' l').entry v j = some m ↔ G.entry v j = some m) :=
    fun hne => link_entry.trans
      ⟨fun hm => (hm.resolve_left fun hc => hne hc.1).2, fun hm => Or.inr ⟨fun hc => hne hc.1, hm⟩⟩
  constructor
  · intro hw
    induction hw with
    | here => exact .here
    | @down x y j m ts hm _ ih =>
        have hold := (hentry fun hc => hno (hc ▸ Relation.ReflTransGen.refl)).mp hm
        exact .down hold (ih fun hc => hno (Relation.ReflTransGen.head ⟨_, _, hold, rfl⟩ hc))
  · intro hw
    refine hw.of_entries fun {v j m} hr hm => ?_
    exact link_entry.mpr (Or.inr ⟨fun hc => hno (hc.1 ▸ hr), hm⟩)

theorem Way.of_unlink (hw : Way (G.unlink x' e') x ts y) : Way G x ts y := by
  induction hw with
  | here => exact .here
  | down hm _ ih => exact .down (unlink_entry.mp hm).2 ih

theorem reach_of_unlink (hr : Relation.ReflTransGen (G.unlink x' e').Child x y) :
    Relation.ReflTransGen G.Child x y := by
  obtain ⟨ts, hw⟩ := Way.exists_of_reach hr
  exact hw.of_unlink.reach

namespace Tree

variable (h : Tree G root)

include h

/-- An object linked under a new name, out of the reach of the root before: the ways from the root
are those from before and the ones through the new link. -/
theorem way_link (hpn : Way G root pn x') (hfree : G.entry x' e' = none)
    (hname : ∀ {j m}, G.entry x' j = some m → m.name ≠ l'.name)
    (hinto : ¬ Relation.ReflTransGen G.Child l'.target x') :
    Way (G.link x' e' l') root ts y ↔ (∃ us, ts = pn ++ l'.name :: us ∧ Way G l'.target us y)
      ∨ Way G root ts y := by
  have hkeep : ∀ {v j m}, G.entry v j = some m → (G.link x' e' l').entry v j = some m := fun hm =>
    link_entry.mpr (Or.inr ⟨fun hc => (by rw [hc.1, hc.2, hfree] at hm; cases hm), hm⟩)
  have hlift : ∀ {v ts y}, Way G v ts y → Way (G.link x' e' l') v ts y := fun hw =>
    hw.of_entries fun _ hm => hkeep hm
  constructor
  · intro hw
    -- from any object the way from before goes to
    suffices hall : ∀ {v ps}, Way G root ps v → Way (G.link x' e' l') v ts y →
        (∃ us, ps ++ ts = pn ++ l'.name :: us ∧ Way G l'.target us y) ∨ Way G v ts y by
      exact hall .here hw
    clear hw
    intro v ps hps hw
    induction hw generalizing ps with
    | here => exact Or.inr .here
    | @down v y j m ts hm hw ih =>
        rcases link_entry.mp hm with ⟨rfl, rfl, rfl⟩ | ⟨-, hm⟩
        · refine Or.inl ⟨ts, ?_, (way_link_of_not hinto).mp hw⟩
          rw [h.way_unique hps hpn]
        · rcases ih (hps.append (.single hm)) with ⟨us, heq, hus⟩ | hold
          · exact Or.inl ⟨us, by rw [← heq, List.append_assoc, List.singleton_append], hus⟩
          · exact Or.inr (.down hm hold)
  · rintro (⟨us, rfl, hus⟩ | hw)
    · exact (hlift hpn).append (.down (link_entry.mpr (Or.inl ⟨rfl, rfl, rfl⟩)) (hlift hus))
    · exact hlift hw

theorem way_unlink (hpo : Way G root po x) (he : G.entry x e = some l) :
    Way (G.unlink x e) root ts y ↔ ¬ po ++ [l.name] <+: ts ∧ Way G root ts y := by
  constructor
  · intro hw
    suffices hall : ∀ {v ps}, Way G root ps v → ¬ po ++ [l.name] <+: ps →
        Way (G.unlink x e) v ts y → ¬ po ++ [l.name] <+: ps ++ ts ∧ Way G v ts y by
      refine hall .here (fun hc => ?_) hw
      exact List.append_ne_nil_of_right_ne_nil _ (List.cons_ne_nil _ _) (List.prefix_nil.mp hc)
    clear hw
    intro v ps hps hno hw
    induction hw generalizing ps with
    | here => exact ⟨by rwa [List.append_nil], .here⟩
    | @down v y j m ts hm _ ih =>
        obtain ⟨hother, hm⟩ := unlink_entry.mp hm
        have hps' := hps.append (.single hm)
        have hno' : ¬ po ++ [l.name] <+: ps ++ [m.name] := fun hc => by
          rcases List.prefix_concat_iff.mp hc with heq | hc
          · -- the link taken out is the only one at its path
            have htarget := h.way_det (heq ▸ hpo.append (.single he)) hps'
            exact hother (h.unique hm he htarget.symm)
          · exact hno hc
        obtain ⟨hall, hold⟩ := ih hps' hno'
        exact ⟨by rwa [List.append_assoc, List.singleton_append] at hall, .down hm hold⟩
  · rintro ⟨hno, hw⟩
    suffices hall : ∀ {v ps}, Way G root ps v → Way G v ts y → ¬ po ++ [l.name] <+: ps ++ ts →
        Way (G.unlink x e) v ts y by
      exact hall .here hw hno
    clear hw hno
    intro v ps hps hw hno
    induction hw generalizing ps with
    | here => exact .here
    | @down v y j m ts hm _ ih =>
        refine .down (unlink_entry.mpr ⟨?_, hm⟩) (ih (hps.append (.single hm)) ?_)
        · rintro ⟨rfl, rfl⟩
          obtain rfl := Option.some.inj (hm.symm.trans he)
          rw [h.way_unique hps hpo] at hno
          exact hno ⟨ts, by rw [List.append_assoc, List.singleton_append]⟩
        · rwa [List.append_assoc, List.singleton_append]

theorem way_unlink_below (hpo : Way G root po x) (he : G.entry x e = some l) :
    Way (G.unlink x e) l.target ts y ↔ Way G l.target ts y := by
  refine ⟨Way.of_unlink, fun hw => hw.of_entries fun {v j m} hr hm => unlink_entry.mpr ⟨?_, hm⟩⟩
  rintro ⟨rfl, -⟩
  exact h.target_not_above hpo he hr

omit h in
theorem way_free (hno : ∀ {x e l}, G.entry x e = some l → l.target ≠ z) (hne : x ≠ z) :
    Way (G.free z) x ts y ↔ Way G x ts y := by
  constructor
  · intro hw
    induction hw with
    | here => exact .here
    | down hm _ ih => exact .down (free_entry.mp hm).2 (ih (hno (free_entry.mp hm).2))
  · intro hw
    induction hw with
    | here => exact .here
    | down hm _ ih => exact .down (free_entry.mpr ⟨hne, hm⟩) (ih (hno hm))

theorem way_move (hpo : Way G root po x) (he : G.entry x e = some l) (hpn : Way G root pn x')
    (hfree : G.entry x' e' = none) (htarget : l'.target = l.target)
    (hname : ∀ {j m}, G.entry x' j = some m → m.name ≠ l'.name)
    (hinto : ¬ Relation.ReflTransGen G.Child l.target x') :
    Way ((G.link x' e' l').unlink x e) root ts y
      ↔ (∃ us, ts = pn ++ l'.name :: us ∧ Way G root (po ++ l.name :: us) y)
        ∨ (¬ po ++ [l.name] <+: ts ∧ Way G root ts y) := by
  have hslot : ¬ (x' = x ∧ e' = e) := fun hc => by
    rw [hc.1, hc.2, he] at hfree
    cases hfree
  have hnot : ¬ po ++ [l.name] <+: pn := by
    rintro ⟨us, rfl⟩
    obtain ⟨v, hv, hus⟩ := hpn.split
    rw [← h.way_det (hpo.append (.single he)) hv] at hus
    exact hinto hus.reach
  have hfree' : (G.unlink x e).entry x' e' = none := by
    refine Option.eq_none_iff_forall_ne_some.mpr fun m hm => ?_
    rw [(unlink_entry.mp hm).2] at hfree
    cases hfree
  rw [link_unlink_comm hslot, h.unlink.way_link ((h.way_unlink hpo he).mpr ⟨hnot, hpn⟩) hfree'
    (fun hm => hname (unlink_entry.mp hm).2) fun hr => hinto (htarget ▸ reach_of_unlink hr),
    h.way_unlink hpo he, htarget]
  simp only [h.way_unlink_below hpo he, h.way_through hpo he]

end Tree

end

end Naming

end IpoOs
