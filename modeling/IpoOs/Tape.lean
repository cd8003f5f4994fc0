import Mathlib.Logic.Relation
import Mathlib.Data.List.Basic

/-!
# A window on a tape

A tape of lines seen through a window: the lines before the window, the
lines in it, and the lines after it. Moving the window over the tape
changes none of the lines, and the size of the window says where it is.
New lines come in at the end of the tape while nothing is after the
window; the lines before it are bounded, and the oldest is dropped when
there is no room.

The window has a fixed number of lines, and the position of the window is
the number of lines before it. The relations are inductive and have one rule
for a step, so that a run of scrolls is a chain of them.

Nothing is said here of a screen: the terminal has lines of cells, and the
tape has lines of any type.
-/

namespace IpoOs

/-- A tape and a window on it. -/
@[ext] structure Windowed (α : Type*) where
  before : List α
  window : List α
  after : List α

namespace Windowed

variable {α : Type*} {w w' w'' : Windowed α}

def tape (w : Windowed α) : List α := w.before ++ w.window ++ w.after

/-- The window moved one line back. -/
inductive Back : Windowed α → Windowed α → Prop
  | mk (p : List α) (l : α) (v : List α) (x : α) (f : List α) :
      Back ⟨p ++ [l], v ++ [x], f⟩ ⟨p, l :: v, x :: f⟩

/-- The window moved by one line, back or forward. -/
def Moved (w w' : Windowed α) : Prop := Back w w' ∨ Back w' w

/-- The window moved any number of times. -/
abbrev Scrolled : Windowed α → Windowed α → Prop := Relation.ReflTransGen Moved

theorem Back.tape (h : Back w w') : w'.tape = w.tape := by
  cases h
  simp [Windowed.tape]

theorem Back.window_length (h : Back w w') : w'.window.length = w.window.length := by
  cases h
  simp

/-- What is out of sight on one side comes out of sight on the other. -/
theorem Back.hidden (h : Back w w') :
    w'.before.length + w'.after.length = w.before.length + w.after.length := by
  cases h
  simp
  omega

theorem Scrolled.tape (h : Scrolled w w') : w'.tape = w.tape := by
  induction h with
  | refl => rfl
  | tail _ hs ih => exact (hs.elim (·.tape) (·.tape.symm)).trans ih

theorem Scrolled.window_length (h : Scrolled w w') : w'.window.length = w.window.length := by
  induction h with
  | refl => rfl
  | tail _ hs ih => exact (hs.elim (·.window_length) (·.window_length.symm)).trans ih

theorem Scrolled.hidden (h : Scrolled w w') :
    w'.before.length + w'.after.length = w.before.length + w.after.length := by
  induction h with
  | refl => rfl
  | tail _ hs ih => exact (hs.elim (·.hidden) (·.hidden.symm)).trans ih

theorem eq_of_tape (h : w.tape = w'.tape) (hlen : w.window.length = w'.window.length)
    (hw : w.after = []) (hw' : w'.after = []) : w = w' := by
  unfold tape at h
  rw [hw, hw', List.append_nil, List.append_nil] at h
  obtain ⟨hb, hv⟩ := List.append_inj' h hlen
  exact Windowed.ext hb hv (hw.trans hw'.symm)

theorem Scrolled.eq (h : Scrolled w w') (hw : w.after = []) (hw' : w'.after = []) : w' = w :=
  eq_of_tape h.tape h.window_length hw' hw

/-- A new line `b` at the end of the tape: at most `cap` lines are kept before the window. -/
inductive Emitted (cap : Nat) (b : α) : Windowed α → Windowed α → Prop
  | mk (p : List α) (x : α) (v : List α) :
      Emitted cap b ⟨p, x :: v, []⟩
        ⟨(if p.length < cap then p ++ [x] else p.tail ++ [x]), v ++ [b], []⟩

theorem Emitted.tape {cap : Nat} {b : α} (hcap : 0 < cap) (h : Emitted cap b w w') :
    w'.tape = (if w.before.length < cap then w.tape else w.tape.tail) ++ [b] := by
  obtain ⟨p, x, v⟩ := h
  rcases em (p.length < cap) with hlt | hge
  · simp [Windowed.tape, hlt]
  · cases p with
    | nil => exact absurd hcap hge
    | cons q p =>
        have hge' : ¬ p.length + 1 < cap := hge
        simp [Windowed.tape, hge']

theorem Emitted.before_length {cap : Nat} {b : α} (h : Emitted cap b w w')
    (hlt : w.before.length < cap) : w'.before.length = w.before.length + 1 := by
  obtain ⟨p, x, v⟩ := h
  show (if p.length < cap then p ++ [x] else p.tail ++ [x]).length = p.length + 1
  rw [if_pos hlt, List.length_append, List.length_singleton]

theorem Emitted.before_le {cap : Nat} {b : α} (hcap : 0 < cap) (h : Emitted cap b w w')
    (hle : w.before.length ≤ cap) : w'.before.length ≤ cap := by
  obtain ⟨p, x, v⟩ := h
  show (if p.length < cap then p ++ [x] else p.tail ++ [x]).length ≤ cap
  have hp : p.length ≤ cap := hle
  split
  · rw [List.length_append, List.length_singleton]
    omega
  · cases p with
    | nil => exact hcap
    | cons q p =>
        rw [List.tail_cons, List.length_append, List.length_singleton]
        exact hp

end Windowed

end IpoOs
