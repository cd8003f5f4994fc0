import Mathlib.Data.List.TakeWhile

/-!
# Lists split at separators

A scanner that takes elements up to a separator, and skips separators,
cuts a list at the same places as `List.splitOnP`. `StartsAt p s` says that
a cut can be in front of `s`: it is empty or starts with a separator.

The lemmas turn a loop over a text, which looks at one character at a time,
into a statement about the list of its pieces. They are used for the words
of a command line, the lines of a file and the components of a path.
-/

namespace IpoOs

/-- `s` is empty or starts with an element that satisfies `p`. -/
def StartsAt {α : Type*} (p : α → Bool) (s : List α) : Prop := ∀ a ∈ s.head?, p a = true

section

variable {α : Type*} {p : α → Bool} {s t rest : List α}

theorem StartsAt.nil : StartsAt p ([] : List α) := by
  intro a ha
  cases ha

theorem StartsAt.cons {a : α} (ha : p a = true) : StartsAt p (a :: s) := by
  rintro b hb
  obtain rfl := Option.some.inj hb
  exact ha

/-- What is left behind a scan starts with an element the scan stops at. -/
theorem startsAt_dropWhile : StartsAt (fun a => !p a) (s.dropWhile p) := by
  intro a ha
  cases h : s.dropWhile p with
  | nil =>
      rw [h] at ha
      cases ha
  | cons b r =>
      rw [h] at ha
      obtain rfl := Option.some.inj ha
      have hne : s.dropWhile p ≠ [] := by
        rw [h]
        exact List.cons_ne_nil _ _
      have hb := List.head_dropWhile_not p hne
      simp only [h, List.head_cons] at hb
      simp [hb]

theorem scan_append (ht : ∀ a ∈ t, p a = true) (hr : StartsAt (fun a => !p a) rest) :
    (t ++ rest).takeWhile p = t ∧ (t ++ rest).dropWhile p = rest := by
  rw [List.takeWhile_append_of_pos ht, List.dropWhile_append_of_pos ht]
  cases rest with
  | nil => exact ⟨List.append_nil t, rfl⟩
  | cons a r =>
      have ha : ¬ p a = true := by simpa using hr a rfl
      rw [List.takeWhile_cons_of_neg ha, List.dropWhile_cons_of_neg ha]
      exact ⟨List.append_nil t, rfl⟩

theorem splitOnP_append (ht : ∀ a ∈ t, p a = false) (hr : StartsAt p rest) :
    (t ++ rest).splitOnP p = t :: (rest.splitOnP p).tail := by
  cases rest with
  | nil => rw [List.append_nil, List.splitOnP_eq_singleton ht, List.splitOnP_nil, List.tail_cons]
  | cons a r =>
      have hhead := @List.splitOnP_append_cons_of_forall_mem
      rw [hhead ht a (hr a rfl), ← List.nil_append (a :: r),
        hhead (fun b hb => absurd hb List.not_mem_nil) a (hr a rfl), List.tail_cons]

theorem filter_splitOnP {q : List α → Bool} (hq : q [] = false) (ht : ∀ a ∈ t, p a = false)
    (hr : StartsAt p rest) :
    ((t ++ rest).splitOnP p).filter q = [t].filter q ++ ((rest.drop 1).splitOnP p).filter q := by
  rw [splitOnP_append ht hr, ← List.singleton_append, List.filter_append]
  cases rest with
  | nil => simp [List.splitOnP_nil, hq]
  | cons a r =>
      have hsplit :=
        @List.splitOnP_append_cons_of_forall_mem α p [] (fun b hb => absurd hb List.not_mem_nil)
        a (hr a rfl) r
      rw [List.nil_append] at hsplit
      rw [hsplit, List.tail_cons, List.drop_one, List.tail_cons]

end

theorem not_mem_splitOn {α : Type*} [BEq α] [LawfulBEq α] {sep : α} {s c : List α}
    (h : c ∈ s.splitOn sep) : sep ∉ c := by
  induction s generalizing c with
  | nil =>
      rw [List.splitOn_nil, List.mem_singleton] at h
      rw [h]
      exact List.not_mem_nil
  | cons x s ih =>
      rw [List.splitOn_cons_eq_if_modifyHead] at h
      split at h
      · rcases List.mem_cons.mp h with rfl | h
        · exact List.not_mem_nil
        · exact ih h
      · rename_i hx
        cases hs : s.splitOn sep with
        | nil =>
            rw [hs] at h
            exact absurd h List.not_mem_nil
        | cons d rest =>
            rw [hs] at h ih
            rcases List.mem_cons.mp h with rfl | h
            · rw [List.mem_cons, not_or]
              refine ⟨fun hc => hx (by rw [← hc]; exact beq_self_eq_true _), ih List.mem_cons_self⟩
            · exact ih (List.mem_cons_of_mem d h)

end IpoOs
