import Mathlib.Data.List.Infix
import Mathlib.Logic.Relation

/-!
# Stores of objects under paths

A store gives the object that a path leads to, if there is one: a partial
function on lists of names. Three operations change it: an object is put
under a path, a path is taken out with everything below it, and
everything under one path is moved under another. `Closed` says that what
has something below it is a container. The operations keep it where they
make sense, and they can be taken back.

A store is what a caller of a file system sees: paths, and what is there.
Directories are not containers of entries here, only objects that may have
something below them.
-/

namespace IpoOs

/-- The object that each path leads to. -/
abbrev PathStore (N V : Type*) := List N → Option V

namespace PathStore

variable {N V : Type*} [DecidableEq N]

def put (s : PathStore N V) (p : List N) (v : V) : PathStore N V := fun t =>
  if t = p then some v else s t

/-- A path taken out with everything below it. -/
def prune (s : PathStore N V) (p : List N) : PathStore N V := fun t =>
  if p <+: t then none else s t

/-- What is under `p` moved under `q`. -/
def graft (s : PathStore N V) (p q : List N) : PathStore N V := fun t =>
  if q <+: t then s (p ++ t.drop q.length) else if p <+: t then none else s t

omit [DecidableEq N] in
/-- What has something below it is a container. -/
def Closed (box : V → Prop) (s : PathStore N V) : Prop :=
  ∀ p n, s (p ++ [n]) ≠ none → ∃ v, s p = some v ∧ box v

section

variable {s : PathStore N V} {p q t : List N} {v w : V} {n : N} {box : V → Prop}

@[simp] theorem put_self : s.put p v p = some v := if_pos rfl

theorem put_of_ne (h : t ≠ p) : s.put p v t = s t := if_neg h

theorem prune_inside (h : p <+: t) : s.prune p t = none := if_pos h

theorem prune_of_not (h : ¬ p <+: t) : s.prune p t = s t := if_neg h

theorem prune_eq_some : s.prune p t = some v ↔ ¬ p <+: t ∧ s t = some v := by
  unfold prune
  split
  · rename_i h
    exact ⟨fun hv => (by cases hv), fun hv => absurd h hv.1⟩
  · rename_i h
    exact ⟨fun hv => ⟨h, hv⟩, And.right⟩

@[simp] theorem graft_append (us : List N) : s.graft p q (q ++ us) = s (p ++ us) := by
  unfold graft
  rw [if_pos (List.prefix_append q us), List.drop_left]

theorem graft_at : s.graft p q q = s p := by
  have h := @graft_append _ _ _ s p q []
  rwa [List.append_nil, List.append_nil] at h

theorem graft_of_not (h : ¬ q <+: t) : s.graft p q t = if p <+: t then none else s t := if_neg h

theorem graft_self : s.graft p p = s := by
  funext t
  by_cases h : p <+: t
  · obtain ⟨us, rfl⟩ := h
    exact graft_append us
  · rw [graft_of_not h, if_neg h]

theorem graft_cases (t : List N) : (∃ us, t = q ++ us ∧ s.graft p q t = s (p ++ us))
    ∨ (¬ q <+: t ∧ p <+: t ∧ s.graft p q t = none)
    ∨ (¬ q <+: t ∧ ¬ p <+: t ∧ s.graft p q t = s t) := by
  by_cases hq : q <+: t
  · obtain ⟨us, rfl⟩ := hq
    exact Or.inl ⟨us, rfl, graft_append us⟩
  · rw [graft_of_not hq]
    by_cases hp : p <+: t
    · exact Or.inr (Or.inl ⟨hq, hp, if_pos hp⟩)
    · exact Or.inr (Or.inr ⟨hq, hp, if_neg hp⟩)

/-! ## Containers

`Closed` is the invariant of a store that comes from a tree: what is above
an object is a container. `put` needs the parent to be there, `graft` the
new parent and that the place is free. -/

omit [DecidableEq N] in
theorem Closed.above (h : Closed box s) {us : List N} (hne : us ≠ []) (ht : s (p ++ us) ≠ none) :
    ∃ v, s p = some v ∧ box v := by
  induction us using List.reverseRecOn with
  | nil => exact absurd rfl hne
  | append_singleton us n ih =>
      rw [← List.append_assoc] at ht
      obtain ⟨v, hv, hbox⟩ := h _ _ ht
      rcases List.eq_nil_or_concat' us with rfl | ⟨init, m, rfl⟩
      · exact ⟨v, by rw [← hv, List.append_nil], hbox⟩
      · exact ih (List.append_ne_nil_of_right_ne_nil _ (List.cons_ne_nil m [])) (by rw [hv]; simp)

omit [DecidableEq N] in
theorem Closed.below_none (h : Closed box s) (hp : ∀ v, s p = some v → ¬ box v) {us : List N}
    (hne : us ≠ []) : s (p ++ us) = none := by
  by_contra hc
  obtain ⟨v, hv, hbox⟩ := h.above hne hc
  exact hp v hv hbox

/-- A new object in a container, or one in the place of an object that is as much a container. -/
theorem Closed.put (h : Closed box s) (hparent : ∀ init m, p = init ++ [m] → ∃ w, s init = some w
    ∧ box w)
    (hold : ∀ w, s p = some w → box w → box v) : Closed box (s.put p v) := by
  intro t m hm
  have hup : ∃ w, s t = some w ∧ box w := by
    by_cases heq : t ++ [m] = p
    · exact hparent t m heq.symm
    · rw [put_of_ne heq] at hm
      exact h t m hm
  obtain ⟨w, hw, hbox⟩ := hup
  by_cases htp : t = p
  · subst htp
    exact ⟨v, put_self, hold w hw hbox⟩
  · exact ⟨w, by rw [put_of_ne htp, hw], hbox⟩

theorem Closed.prune (h : Closed box s) : Closed box (s.prune p) := by
  intro t m hm
  have hno : ¬ p <+: t ++ [m] := fun hc => hm (prune_inside hc)
  rw [prune_of_not hno] at hm
  obtain ⟨w, hw, hbox⟩ := h t m hm
  exact ⟨w, prune_eq_some.mpr ⟨fun hc => hno (hc.trans (List.prefix_append t [m])), hw⟩, hbox⟩

theorem Closed.graft (h : Closed box s) (hinto : ¬ p <+: q) {init : List N} (hq : q = init ++ [n])
    (hparent : ∃ w, s init = some w ∧ box w) : Closed box (s.graft p q) := by
  have hinit : ¬ q <+: init := fun hc => by
    have hlen := hc.length_le
    rw [hq, List.length_append, List.length_singleton] at hlen
    omega
  have hpinit : ¬ p <+: init := fun hc => hinto (hq ▸ hc.trans (List.prefix_append init [n]))
  intro t m hm
  rcases @graft_cases _ _ _ s p q (t ++ [m]) with ⟨us, heq, hval⟩ | ⟨-, -, hnone⟩ | ⟨hnq, hnp, hval⟩
  · rcases List.eq_nil_or_concat' us with rfl | ⟨us, b, rfl⟩
    · -- the object moved, in its new parent
      rw [List.append_nil, hq] at heq
      obtain ⟨rfl, -⟩ := List.append_inj' heq rfl
      obtain ⟨w, hw, hbox⟩ := hparent
      exact ⟨w, by rw [graft_of_not hinit, if_neg hpinit, hw], hbox⟩
    · rw [← List.append_assoc] at heq
      obtain ⟨rfl, -⟩ := List.append_inj' heq rfl
      rw [hval, ← List.append_assoc] at hm
      obtain ⟨w, hw, hbox⟩ := h _ _ hm
      exact ⟨w, by rw [graft_append, hw], hbox⟩
  · exact absurd hnone hm
  · rw [hval] at hm
    obtain ⟨w, hw, hbox⟩ := h t m hm
    have hsub : t <+: t ++ [m] := List.prefix_append t [m]
    exact ⟨w, by rw [graft_of_not fun hc => hnq (hc.trans hsub),
      if_neg fun hc => hnp (hc.trans hsub), hw], hbox⟩

/-! ## Taking an operation back

A put is undone by a prune at the same path, and a move by the move back. -/

theorem prune_put (h : Closed box s) (hp : s p = none) : (s.put p v).prune p = s := by
  funext t
  by_cases ht : p <+: t
  · rw [prune_inside ht]
    obtain ⟨us, rfl⟩ := ht
    rcases em (us = []) with rfl | hne
    · rw [List.append_nil, hp]
    · exact (h.below_none (fun w hw => by rw [hp] at hw; cases hw) hne).symm
  · have hne : t ≠ p := by
      rintro rfl
      exact ht List.prefix_rfl
    rw [prune_of_not ht, put_of_ne hne]

theorem graft_graft (h : Closed box s) (hq : s q = none) : (s.graft p q).graft q p = s := by
  have hbelow : ∀ us, s (q ++ us) = none := fun us => by
    rcases em (us = []) with rfl | hne
    · rw [List.append_nil, hq]
    · exact h.below_none (fun w hw => by rw [hq] at hw; cases hw) hne
  funext t
  by_cases hp : p <+: t
  · obtain ⟨us, rfl⟩ := hp
    rw [graft_append, graft_append]
  · rw [graft_of_not hp]
    split
    · rename_i hqt
      obtain ⟨us, rfl⟩ := hqt
      exact (hbelow us).symm
    · rename_i hqt
      rw [graft_of_not hqt, if_neg hp]

end

end PathStore

end IpoOs
