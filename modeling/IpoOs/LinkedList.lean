import Mathlib.Data.List.Nodup
import Mathlib.Logic.Function.Basic

/-!
# A linked list in memory

`ListAt next null p l`: the list that starts at `p` and follows `next` has
the nodes `l` and ends in `null`. The memory determines the nodes, so no
node comes twice; a node is put in front, and any node can be taken out by
a store in the node before it.

`erase` is the lemma behind `process_cleanup`: the walk that looks for the
node in front of a given one ends, finds it, and the store takes the node
out. The induction is on the list that the memory holds.
-/

namespace IpoOs

variable {α : Type*}

/-- The list from `p` on has the nodes `l` and ends in `null`. -/
def ListAt (next : α → α) (null : α) : α → List α → Prop
  | p, [] => p = null
  | p, x :: l => p = x ∧ x ≠ null ∧ ListAt next null (next x) l

/-- The loop that looks for the node before `x`, in at most `n` rounds; it gives `null` when there
is none. -/
def nodeBefore [DecidableEq α] (next : α → α) (null x : α) : (n : Nat) → α → Option α
  | 0, _ => none
  | n + 1, prev => if prev ≠ null ∧ next prev ≠ x then nodeBefore next null x n (next prev)
      else some prev

namespace ListAt

variable {next next' : α → α} {null p x : α} {l l' : List α}

theorem congr (h : ListAt next null p l) (hn : ∀ y ∈ l, next' y = next y) :
    ListAt next' null p l := by
  induction l generalizing p with
  | nil => exact h
  | cons y l ih =>
      refine ⟨h.1, h.2.1, ?_⟩
      rw [hn y List.mem_cons_self]
      exact ih h.2.2 fun z hz => hn z (List.mem_cons_of_mem _ hz)

theorem head_eq (h : ListAt next null p l) : p = l.headD null := by
  cases l with
  | nil => exact h
  | cons y l => exact h.1

theorem unique (h : ListAt next null p l) (h' : ListAt next null p l') : l = l' := by
  induction l generalizing p l' with
  | nil =>
      cases l' with
      | nil => rfl
      | cons y l' => exact absurd (h'.1.symm.trans h) h'.2.1
  | cons y l ih =>
      cases l' with
      | nil => exact absurd (h.1.symm.trans h') h.2.1
      | cons z l' =>
          obtain rfl : y = z := h.1.symm.trans h'.1
          rw [ih h.2.2 h'.2.2]

theorem drop {a : List α} (h : ListAt next null p (a ++ x :: l)) : ListAt next null x (x :: l) := by
  induction a generalizing p with
  | nil => exact ⟨rfl, h.2.1, h.2.2⟩
  | cons y a ih => exact ih h.2.2

theorem nodup (h : ListAt next null p l) : l.Nodup := by
  induction l generalizing p with
  | nil => exact List.nodup_nil
  | cons y l ih =>
      refine List.nodup_cons.mpr ⟨fun hy => ?_, ih h.2.2⟩
      obtain ⟨a, b, hab⟩ := List.append_of_mem hy
      have hsame := h.2.2
      rw [hab] at hsame
      have hall : ListAt next null y (y :: l) := ⟨rfl, h.2.1, h.2.2⟩
      have hshort := hsame.drop.unique hall
      have hlen := congrArg List.length hshort
      rw [hab, List.length_cons, List.length_cons, List.length_append, List.length_cons] at hlen
      omega

theorem push (h : ListAt next null p l) (hx : x ≠ null) (hn : next x = p) :
    ListAt next null x (x :: l) := ⟨rfl, hx, hn ▸ h⟩

theorem nodeBefore_isSome [DecidableEq α] (h : ListAt next null p l) (hx : x ∈ l) (hp : p ≠ x) :
    ∃ n, (nodeBefore next null x n p).isSome := by
  induction l generalizing p with
  | nil => exact absurd hx List.not_mem_nil
  | cons y l ih =>
      obtain ⟨rfl, hnull, hrest⟩ := h
      have hx' : x ∈ l := (List.mem_cons.mp hx).resolve_left fun heq => hp heq.symm
      rcases em (next p = x) with heq | hne
      · refine ⟨1, ?_⟩
        rw [nodeBefore, if_neg fun hc => hc.2 heq]
        rfl
      · obtain ⟨n, hn⟩ := ih hrest hx' hne
        refine ⟨n + 1, ?_⟩
        rw [nodeBefore, if_pos ⟨hnull, hne⟩]
        exact hn

theorem nodeBefore_eq [DecidableEq α] (h : ListAt next null p l) (hx : x ∈ l) (hp : p ≠ x) {n : Nat}
    {q : α} (hq : nodeBefore next null x n p = some q) : q ∈ l ∧ q ≠ null ∧ next q = x := by
  induction l generalizing p n with
  | nil => exact absurd hx List.not_mem_nil
  | cons y l ih =>
      obtain ⟨rfl, hnull, hrest⟩ := h
      have hx' : x ∈ l := (List.mem_cons.mp hx).resolve_left fun heq => hp heq.symm
      cases n with
      | zero => cases hq
      | succ n =>
          rw [nodeBefore] at hq
          split at hq
          · rename_i hgo
            obtain ⟨hmem, hrest'⟩ := ih hrest hx' hgo.2 hq
            exact ⟨List.mem_cons_of_mem _ hmem, hrest'⟩
          · rename_i hstop
            rw [← Option.some.inj hq]
            have hnext : next p = x := by
              by_contra hne
              exact hstop ⟨hnull, hne⟩
            exact ⟨List.mem_cons_self, hnull, hnext⟩

theorem erase [DecidableEq α] (h : ListAt next null p l) (hx : x ∈ l) (hp : p ≠ x) {q : α}
    (hq : q ∈ l) (hnext : next q = x) :
    ListAt (Function.update next q (next x)) null p (l.erase x) := by
  induction l generalizing p with
  | nil => exact absurd hx List.not_mem_nil
  | cons y l ih =>
      have hnd := h.nodup
      obtain ⟨rfl, hnull, hrest⟩ := h
      have hx' : x ∈ l := (List.mem_cons.mp hx).resolve_left fun heq => hp heq.symm
      rw [List.erase_cons_tail (by simpa using hp)]
      refine ⟨rfl, hnull, ?_⟩
      rcases em (q = p) with rfl | hne
      · -- the node before `x` is the first one
        rw [Function.update_self]
        obtain ⟨a, b, rfl⟩ : ∃ a b, l = a :: b := by
          cases l with
          | nil => exact absurd hx' List.not_mem_nil
          | cons a b => exact ⟨a, b, rfl⟩
        obtain rfl : x = a := hnext.symm.trans hrest.1
        rw [List.erase_cons_head]
        refine congr hrest.2.2 fun z hz => Function.update_of_ne (fun heq => ?_) _ _
        exact (List.nodup_cons.mp hnd).1 (heq ▸ List.mem_cons_of_mem _ hz)
      · rw [Function.update_of_ne fun heq => hne heq.symm]
        have hq' : q ∈ l := (List.mem_cons.mp hq).resolve_left hne
        have hhead : next p ≠ x := by
          intro heq
          -- two nodes with the same next one
          obtain ⟨a, b, hab⟩ := List.append_of_mem hq'
          have hsuffix := hrest
          rw [hab] at hsuffix
          have hafter := hsuffix.drop.2.2
          rw [hnext, ← heq] at hafter
          have hlen := congrArg List.length (hrest.unique hafter)
          rw [hab, List.length_append, List.length_cons] at hlen
          omega
        exact ih hrest hx' hhead hq'

end ListAt

end IpoOs
