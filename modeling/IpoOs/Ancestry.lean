import Mathlib.Logic.Relation

/-!
# Climbing parent links

A tree given by a relation from parents to children, and a partial map
that is to lead from a child to its parent. `climb` looks for a node on
the way up. When the links are those of the tree, the way up from any
node below the root ends, and it meets exactly the nodes above it.

The relation and the map are arbitrary, and nothing is assumed finite: what
makes the climb end is that the node it starts from is reached from the
root, so that its ancestors are the nodes of one path. `UpLinks` is the
agreement that a store of parent links has to keep; a node outside the tree
may have any link, and a climb from there may go round in circles.

The induction is on the path from the root to the node, from its lower end.
`climb` takes the rounds it may run as an argument, and the theorem says how
many are enough.
-/

namespace IpoOs

variable {V : Type*}

/-- The search for `a` from `v` upwards, with a number of rounds left. -/
def climb [DecidableEq V] (root : V) (up : V → Option V) (a : V) : Nat → V → Option Bool
  | 0, _ => none
  | fuel + 1, v =>
      if v = root then some false
      else if v = a then some true
      else
        match up v with
        | none => some false
        | some z => climb root up a fuel z

/-- The links of a tree: the root is nobody's child, a child of another node is linked to
it, and a child of the root to nothing that could be taken for a node below the root. -/
structure UpLinks (root : V) (node : V → Prop) (child : V → V → Prop) (up : V → Option V) :
    Prop where
  node_of_child : ∀ {x y}, child x y → node y
  not_root : ∀ {x y}, child x y → y ≠ root
  link : ∀ {x y}, child x y → x ≠ root → x = y ∨ up y = some x
  top : ∀ {y z}, child root y → up y = some z → z = root ∨ (¬ node z ∧ up z = none)

namespace UpLinks

open Relation Classical

variable {root : V} {node : V → Prop} {child : V → V → Prop} {up : V → Option V} {a m n : V}
  (h : UpLinks root node child up)

include h

theorem node_of_reach (ha : node a) (hr : ReflTransGen child a n) : node n := by
  rcases hr.cases_tail with rfl | ⟨c, -, hc⟩
  · exact ha
  · exact h.node_of_child hc

theorem eq_root_of_reach (hr : ReflTransGen child a root) : a = root := by
  rcases hr.cases_tail with heq | ⟨c, -, hc⟩
  · exact heq.symm
  · exact absurd rfl (h.not_root hc)

theorem parent_unique (hm : child m n) (hroot : m ≠ root) (hne : m ≠ n) (hnode : node m) {z : V}
    (hz : child z n) : z = n ∨ z = m := by
  have hup : up n = some m := (h.link hm hroot).resolve_left hne
  rcases Classical.em (z = root) with rfl | hzr
  · rcases h.top hz hup with hc | ⟨hc, -⟩
    · exact absurd hc hroot
    · exact absurd hnode hc
  · rcases h.link hz hzr with hc | hc
    · exact Or.inl hc
    · exact Or.inr (Option.some.inj (hc.symm.trans hup))

theorem reach_parent (hm : child m n) (hroot : m ≠ root) (hne : m ≠ n) (hnode : node m) {y : V}
    (hr : ReflTransGen child a y) (hy : y = n) (ha : a ≠ n) : ReflTransGen child a m := by
  induction hr with
  | refl => exact absurd hy ha
  | tail hac hcb ih =>
      subst hy
      rcases h.parent_unique hm hroot hne hnode hcb with rfl | rfl
      · exact ih rfl
      · exact hac

theorem not_above_top (hn : child root n) (hnode : node a) (hroot : a ≠ root) (ha : a ≠ n) {y : V}
    (hr : ReflTransGen child a y) (hy : y = n) : False := by
  induction hr with
  | refl => exact ha hy
  | @tail c b hac hcb ih =>
      subst hy
      rcases Classical.em (c = root) with rfl | hc
      · exact hroot (h.eq_root_of_reach hac)
      · rcases h.link hcb hc with rfl | hup
        · exact ih rfl
        · rcases h.top hn hup with hz | ⟨hz, -⟩
          · exact hc hz
          · exact hz (h.node_of_reach hnode hac)

/-- The climb from a node below the root ends, and finds the nodes above it. -/
theorem climb_right [DecidableEq V] (a : V) (hr : ReflTransGen child root n) :
    ∃ rounds, ∀ fuel, rounds ≤ fuel → ∃ b, climb root up a fuel n = some b
      ∧ (node a → a ≠ root → (b = true ↔ ReflTransGen child a n)) := by
  induction hr with
  | refl =>
      refine ⟨1, fun fuel hf => ⟨false, ?_, fun _ ha => ?_⟩⟩
      · obtain ⟨f, rfl⟩ := Nat.exists_eq_add_of_le' hf
        rw [climb, if_pos rfl]
      · exact iff_of_false Bool.false_ne_true fun hc => ha (h.eq_root_of_reach hc)
  | @tail m n hm hmn ih =>
      have hn := h.not_root hmn
      rcases Classical.em (n = a) with rfl | hna
      · refine ⟨1, fun fuel hf => ⟨true, ?_, fun _ _ => iff_of_true rfl ReflTransGen.refl⟩⟩
        obtain ⟨f, rfl⟩ := Nat.exists_eq_add_of_le' hf
        rw [climb, if_neg hn, if_pos rfl]
      rcases Classical.em (m = n) with rfl | hne
      · exact ih
      rcases Classical.em (root = m) with rfl | hroot
      · -- above a child of the root is no node but the root, whatever its link says
        have hfalse : node a → a ≠ root → ¬ ReflTransGen child a n := fun hnode ha hc =>
          h.not_above_top hmn hnode ha (Ne.symm hna) hc rfl
        cases hup : up n with
        | none =>
            refine ⟨1, fun fuel hf => ⟨false, ?_, fun hnode ha =>
              iff_of_false Bool.false_ne_true (hfalse hnode ha)⟩⟩
            obtain ⟨f, rfl⟩ := Nat.exists_eq_add_of_le' hf
            rw [climb, if_neg hn, if_neg hna, hup]
        | some z =>
            refine ⟨2, fun fuel hf => ?_⟩
            obtain ⟨f, rfl⟩ := Nat.exists_eq_add_of_le' hf
            have hstep : climb root up a (f + 2) n = climb root up a (f + 1) z := by
              rw [climb, if_neg hn, if_neg hna, hup]
            rw [hstep, climb]
            rcases h.top hmn hup with hz | ⟨hz, hstop⟩
            · exact ⟨false, by rw [if_pos hz], fun hnode ha =>
                iff_of_false Bool.false_ne_true (hfalse hnode ha)⟩
            · rcases Classical.em (z = a) with rfl | hza
              · refine ⟨decide (z ≠ root), ?_, fun hnode _ => absurd hnode hz⟩
                rcases Classical.em (z = root) with hzr | hzr <;> simp [hzr]
              · refine ⟨false, ?_, fun hnode ha =>
                  iff_of_false Bool.false_ne_true (hfalse hnode ha)⟩
                rw [if_neg hza, hstop]
                split <;> rfl
      · have hnode : node m := by
          rcases hm.cases_tail with rfl | ⟨c, -, hc⟩
          · exact absurd rfl hroot
          · exact h.node_of_child hc
        have hup : up n = some m := (h.link hmn (Ne.symm hroot)).resolve_left hne
        obtain ⟨rounds, hrounds⟩ := ih
        refine ⟨rounds + 1, fun fuel hf => ?_⟩
        obtain ⟨f, rfl⟩ := Nat.exists_eq_add_of_le' (Nat.le_trans (Nat.le_add_left 1 rounds) hf)
        obtain ⟨b, hb, hiff⟩ := hrounds f (by omega)
        refine ⟨b, ?_, fun hna' ha => ?_⟩
        · rw [climb, if_neg hn, if_neg hna, hup]
          exact hb
        · rw [hiff hna' ha]
          exact ⟨fun hc => hc.tail hmn, fun hc =>
            h.reach_parent hmn (Ne.symm hroot) hne hnode hc rfl (Ne.symm hna)⟩

end UpLinks

end IpoOs
