import Mathlib.Data.List.Basic
import Mathlib.Tactic.Linarith

/-!
# Blocks that tile an interval

`Tiles len off stop bs` says that the blocks that start at `bs`, the one at
`b` of length `len b`, follow one another without a gap from `off` to
`stop`. Such blocks are found by walking from `off` with the lengths, and
two of them never overlap. A tiling is extended by a block at the end and
refined by cutting a block in two.

The lengths are read from a map, so the tiling speaks of a memory that holds
them; `congr` says that it depends on the lengths of its own blocks only.
`walk_prefix` is the fact that makes a walk useful: whatever is found by
walking is one of the blocks.
-/

namespace IpoOs

/-- The blocks at `bs` tile the interval from `off` to `stop`. -/
def Tiles (len : Nat → Nat) : Nat → Nat → List Nat → Prop
  | off, stop, [] => off = stop
  | off, stop, b :: bs => b = off ∧ 0 < len b ∧ Tiles len (off + len off) stop bs

namespace Tiles

variable {len len' : Nat → Nat} {off mid stop b c : Nat} {bs cs : List Nat}

theorem congr (h : Tiles len off stop bs) (hlen : ∀ b ∈ bs, len' b = len b) :
    Tiles len' off stop bs := by
  induction bs generalizing off with
  | nil => exact h
  | cons a bs ih =>
      obtain ⟨rfl, hpos, hrest⟩ := h
      have ha := hlen a List.mem_cons_self
      refine ⟨rfl, ha ▸ hpos, ?_⟩
      rw [ha]
      exact ih hrest fun b hb => hlen b (List.mem_cons_of_mem _ hb)

theorem append :
    Tiles len off stop (bs ++ cs) ↔ ∃ mid, Tiles len off mid bs ∧ Tiles len mid stop cs := by
  induction bs generalizing off with
  | nil =>
      constructor
      · exact fun h => ⟨off, rfl, h⟩
      · rintro ⟨mid, rfl, h⟩
        exact h
  | cons a bs ih =>
      constructor
      · rintro ⟨ha, hpos, h⟩
        obtain ⟨mid, h1, h2⟩ := ih.mp h
        exact ⟨mid, ⟨ha, hpos, h1⟩, h2⟩
      · rintro ⟨mid, ⟨ha, hpos, h1⟩, h2⟩
        exact ⟨ha, hpos, ih.mpr ⟨mid, h1, h2⟩⟩

theorem le (h : Tiles len off stop bs) : off ≤ stop := by
  induction bs generalizing off with
  | nil => exact Nat.le_of_eq h
  | cons a bs ih =>
      obtain ⟨rfl, hpos, hrest⟩ := h
      have := ih hrest
      omega

theorem bounds (h : Tiles len off stop bs) (hb : b ∈ bs) :
    off ≤ b ∧ 0 < len b ∧ b + len b ≤ stop := by
  induction bs generalizing off with
  | nil => cases hb
  | cons a bs ih =>
      obtain ⟨rfl, hpos, hrest⟩ := h
      rcases List.mem_cons.mp hb with rfl | hmem
      · exact ⟨Nat.le_refl _, hpos, hrest.le⟩
      · obtain ⟨h1, h2, h3⟩ := ih hrest hmem
        exact ⟨by omega, h2, h3⟩

theorem disjoint (h : Tiles len off stop bs) (hb : b ∈ bs) (hc : c ∈ bs) (hne : b ≠ c) :
    b + len b ≤ c ∨ c + len c ≤ b := by
  induction bs generalizing off with
  | nil => cases hb
  | cons a bs ih =>
      obtain ⟨rfl, hpos, hrest⟩ := h
      rcases List.mem_cons.mp hb with rfl | hmem
      · rcases List.mem_cons.mp hc with rfl | hmem'
        · exact absurd rfl hne
        · exact Or.inl (hrest.bounds hmem').1
      · rcases List.mem_cons.mp hc with rfl | hmem'
        · exact Or.inr (hrest.bounds hmem).1
        · exact ih hrest hmem hmem'

theorem nodup (h : Tiles len off stop bs) : bs.Nodup := by
  induction bs generalizing off with
  | nil => exact List.nodup_nil
  | cons a bs ih =>
      obtain ⟨rfl, hpos, hrest⟩ := h
      refine List.nodup_cons.mpr ⟨fun hmem => ?_, ih hrest⟩
      have := (hrest.bounds hmem).1
      omega

theorem length_le (h : Tiles len off stop bs) : off + bs.length ≤ stop := by
  induction bs generalizing off with
  | nil => exact Nat.le_of_eq h
  | cons a bs ih =>
      obtain ⟨rfl, hpos, hrest⟩ := h
      have := ih hrest
      rw [List.length_cons]
      omega

/-- A walk with the same lengths goes through the same blocks first. -/
theorem walk_prefix (h : Tiles len off mid bs) (h' : Tiles len' off stop cs) (hle : mid ≤ stop)
    (hlen : ∀ b ∈ bs, len' b = len b) : ∃ ds, cs = bs ++ ds ∧ Tiles len' mid stop ds := by
  induction bs generalizing off cs with
  | nil => exact ⟨cs, rfl, h ▸ h'⟩
  | cons a bs ih =>
      obtain ⟨rfl, hpos, hrest⟩ := h
      have hmid := hrest.le
      cases cs with
      | nil =>
          have hstop : a = stop := h'
          omega
      | cons c cs =>
          obtain ⟨rfl, -, hrest'⟩ := h'
          rw [hlen c List.mem_cons_self] at hrest'
          obtain ⟨ds, rfl, hds⟩ := ih hrest hrest' fun b hb => hlen b (List.mem_cons_of_mem _ hb)
          exact ⟨ds, rfl, hds⟩

theorem head_eq (h : Tiles len off stop bs) (hlt : off < stop) :
    ∃ cs, bs = off :: cs ∧ Tiles len (off + len off) stop cs := by
  cases bs with
  | nil => exact absurd h (Nat.ne_of_lt hlt)
  | cons a cs =>
      obtain ⟨rfl, -, hrest⟩ := h
      exact ⟨cs, rfl, hrest⟩

theorem concat (h : Tiles len off stop bs) (hpos : 0 < len stop) :
    Tiles len off (stop + len stop) (bs ++ [stop]) :=
  append.mpr ⟨stop, h, rfl, hpos, rfl⟩

theorem cut (h : Tiles len off stop (bs ++ b :: cs)) (hkeep : ∀ a ∈ bs ++ cs, len' a = len a)
    (hc : c = b + len' b) (hb : 0 < len' b) (hlen : len' b + len' c = len b) (hpos : 0 < len' c) :
    Tiles len' off stop (bs ++ b :: c :: cs) := by
  obtain ⟨mid, h1, rfl, hpos', h2⟩ := append.mp h
  refine append.mpr ⟨b, h1.congr fun a ha => hkeep a (List.mem_append_left _ ha), rfl, hb, ?_⟩
  subst hc
  refine ⟨rfl, hpos, ?_⟩
  rw [Nat.add_assoc, hlen]
  exact h2.congr fun a ha => hkeep a (List.mem_append_right _ ha)

end Tiles

end IpoOs
