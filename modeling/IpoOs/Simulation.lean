import IpoOs.FsDevice

/-!
# Code that simulates other code

Two pieces of code over two states that a relation connects: they return
the same and the relation holds of the states after them. It passes
through sequences, branches and lists.

The relation is between the states, and the results are equal, so that code
that branches on a result takes the same branch on both sides. `Prog.each`
runs one piece of code for every element of a list.
-/

namespace IpoOs

namespace Prog

variable {σ τ α β : Type} {R : σ → τ → Prop}

/-- Code that returns what other code returns, with a relation kept between the states. -/
def Simulates (R : σ → τ → Prop) (x : Prog σ α) (y : Prog τ α) : Prop :=
  ∀ s t, R s t → (x s).1 = (y t).1 ∧ R (x s).2 (y t).2

namespace Simulates

theorem pure (a : α) : Simulates R (pure a : Prog σ α) (Pure.pure a) := fun _ _ h => ⟨rfl, h⟩

theorem bind {x : Prog σ α} {y : Prog τ α} {f : α → Prog σ β} {g : α → Prog τ β}
    (hx : Simulates R x y) (hf : ∀ a, Simulates R (f a) (g a)) :
    Simulates R (x >>= f) (y >>= g) := fun s t h => by
  obtain ⟨hval, hst⟩ := hx s t h
  rw [run_bind, run_bind, hval]
  exact hf _ _ _ hst

theorem ite {c : Prop} [Decidable c] {x x' : Prog σ α} {y y' : Prog τ α} (hx : Simulates R x y)
    (hy : Simulates R x' y') : Simulates R (if c then x else x') (if c then y else y') := by
  split
  · exact hx
  · exact hy

end Simulates

/-- The code of each element of a list, in order, with what each returns. -/
def each (f : α → Prog σ β) : List α → Prog σ (List β)
  | [] => Pure.pure []
  | a :: as => do
      let b ← f a
      let bs ← each f as
      Pure.pure (b :: bs)

theorem Simulates.each {f : α → Prog σ β} {g : α → Prog τ β} {as : List α}
    (h : ∀ a ∈ as, Simulates R (f a) (g a)) : Simulates R (each f as) (Prog.each g as) := by
  induction as with
  | nil => exact .pure []
  | cons a as ih =>
      exact (h a List.mem_cons_self).bind fun b =>
        (ih fun c hc => h c (List.mem_cons_of_mem _ hc)).bind fun bs => .pure (b :: bs)

end Prog

end IpoOs
