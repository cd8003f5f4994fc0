import IpoOs.FsNames
import IpoOs.Splitting

/-!
# Paths as lists of components

What `fs_canonicalize` puts out is a list of components, each behind a
`/`: none is empty, a dot entry or longer than 63 characters. On such a
path `path_resolve` is a walk through the directories, one lookup for
each component, and `path_resolve_parent` splits off the last one.

The walk is `Disk.walk`, a function on the disk, so that a property of path
resolution is an induction on the list of components.
-/

namespace IpoOs

/-- A component of a canonical path. -/
structure PathToken (t : Str) : Prop where
  ne_nil : t ≠ []
  ne_dot : t ≠ dot
  ne_dotdot : t ≠ dotdot
  noSlash : slash ∉ t
  short : t.length < 64

/-- Components, each behind a `/`. -/
def joinPath (ts : List Str) : Str := ts.flatMap fun t => slash :: t

@[simp] theorem joinPath_nil : joinPath [] = [] := rfl

@[simp] theorem joinPath_cons (t : Str) (ts : List Str) :
    joinPath (t :: ts) = slash :: (t ++ joinPath ts) := rfl

theorem joinPath_append (ts ts' : List Str) : joinPath (ts ++ ts') = joinPath ts ++ joinPath ts' :=
  List.flatMap_append

/-! ## Components

The two loops of `fs_canonicalize` as a list of kept components and the path
that is put together from it. -/

theorem takeWhile_noSlash {t rest : Str} (ht : slash ∉ t) (hr : rest = []
    ∨ ∃ r, rest = slash :: r) :
    (t ++ rest).takeWhile (· ≠ slash) = t ∧ (t ++ rest).dropWhile (· ≠ slash) = rest := by
  refine scan_append (fun a ha => ?_) ?_
  · have hne : a ≠ slash := fun hc => ht (hc ▸ ha)
    simpa using hne
  · rcases hr with rfl | ⟨r, rfl⟩
    · exact StartsAt.nil
    · exact StartsAt.cons (by simp)

theorem joinPath_start (ts : List Str) : joinPath ts = [] ∨ ∃ r, joinPath ts = slash :: r := by
  cases ts with
  | nil => exact Or.inl rfl
  | cons t ts => exact Or.inr ⟨_, rfl⟩

theorem next_component {c : Str} (hne : c.dropWhile (· = slash) ≠ []) :
    ∃ sl t rest, c = sl ++ (t ++ rest) ∧ c.dropWhile (· = slash) = t ++ rest
      ∧ (t ++ rest).takeWhile (· ≠ slash) = t ∧ (t ++ rest).dropWhile (· ≠ slash) = rest
      ∧ (∀ a ∈ sl, a = slash) ∧ t ≠ [] ∧ slash ∉ t ∧ (rest = [] ∨ ∃ r, rest = slash :: r) := by
  have hno : slash ∉ (c.dropWhile (· = slash)).takeWhile (· ≠ slash) := fun hm => by
    simpa using List.mem_takeWhile_imp hm
  have hstart : (c.dropWhile (· = slash)).dropWhile (· ≠ slash) = []
      ∨ ∃ r, (c.dropWhile (· = slash)).dropWhile (· ≠ slash) = slash :: r := by
    have hstop :=
      @startsAt_dropWhile _ (fun a : UInt8 => decide (a ≠ slash)) (c.dropWhile (· = slash))
    cases h : (c.dropWhile (· = slash)).dropWhile (· ≠ slash) with
    | nil => exact Or.inl rfl
    | cons a r =>
        rw [h] at hstop
        obtain rfl : a = slash := by simpa using hstop a rfl
        exact Or.inr ⟨r, rfl⟩
  have hsplit : (c.dropWhile (· = slash)).takeWhile (· ≠ slash)
      ++ (c.dropWhile (· = slash)).dropWhile (· ≠ slash) = c.dropWhile (· = slash) :=
    List.takeWhile_append_dropWhile
  obtain ⟨h1, h2⟩ := takeWhile_noSlash hno hstart
  refine ⟨c.takeWhile (· = slash), _, _, ?_, hsplit.symm, h1, h2, fun a ha => ?_, fun hnil => ?_,
    hno, hstart⟩
  · rw [hsplit]
    exact List.takeWhile_append_dropWhile.symm
  · simpa using List.mem_takeWhile_imp ha
  · -- what follows the slashes starts with another character
    obtain ⟨a, r, hr⟩ := List.exists_cons_of_ne_nil hne
    have ha := List.head_dropWhile_not (fun x : UInt8 => decide (x = slash)) hne
    simp only [hr, List.head_cons, decide_eq_false_iff_not] at ha
    rw [hr, List.takeWhile_cons_of_pos (by simpa using ha)] at hnil
    cases hnil

/-- The component loop takes components back and adds ones of a canonical path whose characters
are those of the input, while there is room. -/
theorem canonTokens_kept {P : List Str → Prop} {s : Str} (hpop : ∀ ts, P ts → P ts.dropLast)
    (hpush : ∀ ts t, P ts → ts.length < 128 → PathToken t → (∀ a ∈ t, a ∈ s) → P (ts ++ [t]))
    {fuel : Nat} {c : Str} {tokens : List Str} (hc : ∀ a ∈ c, a ∈ s) (h : P tokens) :
    P (canonTokens fuel c tokens) := by
  induction fuel generalizing c tokens with
  | zero => exact h
  | succ fuel ih =>
      unfold canonTokens
      simp only
      split
      · exact h
      rename_i hne
      obtain ⟨sl, t, rest, rfl, hdrop, htake, hrest, -, htne, hno, -⟩ := next_component hne
      rw [hdrop, htake, hrest]
      have hc' : ∀ a ∈ rest, a ∈ s := fun a ha =>
        hc a (List.mem_append_right _ (List.mem_append_right _ ha))
      split
      · exact ih hc' h
      rename_i hdot
      split
      · exact ih hc' (hpop _ h)
      rename_i hdots
      split
      · exact h
      rename_i hroom
      refine ih hc'
        (hpush _ _ h (Nat.lt_of_not_le hroom) ⟨fun hnil => ?_, hdot, hdots, fun hm => ?_,
        ?_⟩ fun a ha => ?_)
      · exact (List.take_eq_nil_iff.mp hnil).elim (by decide) htne
      · exact hno (List.mem_of_mem_take hm)
      · rw [List.length_take]
        exact Nat.lt_of_le_of_lt (Nat.min_le_left _ _) (by decide)
      · exact hc a (List.mem_append_right _ (List.mem_append_left _ (List.mem_of_mem_take ha)))

/-- The component loop keeps components of canonical paths only. -/
theorem canonTokens_tokens {fuel : Nat} {c : Str} {tokens : List Str}
    (h : ∀ t ∈ tokens, PathToken t) : ∀ t ∈ canonTokens fuel c tokens, PathToken t := by
  refine @canonTokens_kept (fun ts => ∀ t ∈ ts, PathToken t) c
    (fun ts hts t ht => hts t (List.mem_of_mem_dropLast ht)) (fun ts t hts _ htok _ t' ht' => ?_)
    _ _ _ (fun a ha => ha) h
  rcases List.mem_append.mp ht' with ht' | ht'
  · exact hts t' ht'
  · exact List.mem_singleton.mp ht' ▸ htok

theorem canonJoin_eq (outSize : Nat) (ts : List Str) (out : Str) :
    ∃ n, canonJoin outSize ts out = out ++ joinPath (ts.take n) := by
  induction ts generalizing out with
  | nil => exact ⟨0, by simp [canonJoin]⟩
  | cons t ts ih =>
      unfold canonJoin
      split
      · exact ⟨0, by simp⟩
      · obtain ⟨n, hn⟩ := ih (out ++ slash :: t)
        exact ⟨n + 1, by rw [hn]; simp⟩

theorem fsCanonicalize_eq (input : Str) (outSize : Nat) :
    ∃ ts, (∀ t ∈ ts, PathToken t) ∧ (fsCanonicalize input outSize = joinPath ts
      ∨ fsCanonicalize input outSize = [slash] ∧ ts = []) := by
  have htok : ∀ t ∈ canonTokens (input.length + 1) input [], PathToken t :=
    canonTokens_tokens fun t ht => absurd ht List.not_mem_nil
  unfold fsCanonicalize
  simp only
  split
  · split
    · exact ⟨[], fun t ht => absurd ht List.not_mem_nil, Or.inr ⟨rfl, rfl⟩⟩
    · exact ⟨[], fun t ht => absurd ht List.not_mem_nil, Or.inl rfl⟩
  · obtain ⟨n, hn⟩ := canonJoin_eq outSize (canonTokens (input.length + 1) input []) []
    exact ⟨_, fun t ht => htok t (List.mem_of_mem_take ht), Or.inl (by rw [hn, List.nil_append])⟩

/-! ## The walk

`path_resolve` is the walk along the components, and the parent of a path is
the walk along all but the last. -/

section

variable (u : Block) (sb : Superblock) (d : Disk)

/-- The walk through directories from inode `cur`: one lookup for each component. -/
def Disk.walk : List Str → (cur : Nat) → Option Nat
  | [], cur => some cur
  | t :: ts, cur =>
      match (dirFindEntry (arrayDev u) sb cur t d).1 with
      | none => none
      | some found => Disk.walk ts found.1.inode.toNat

variable {u sb d}

theorem length_le_joinPath (ts : List Str) : ts.length ≤ (joinPath ts).length := by
  induction ts with
  | nil => exact Nat.le_refl 0
  | cons t ts ih =>
      rw [joinPath_cons, List.length_cons, List.length_cons, List.length_append]
      omega

theorem resolveFrom_walk {ts : List Str} (hts : ∀ t ∈ ts, PathToken t) {fuel cur : Nat}
    (hfuel : ts.length < fuel) :
    (resolveFrom (arrayDev u) sb fuel ((joinPath ts).drop 1) cur d).1 = d.walk u sb ts cur := by
  induction ts generalizing fuel cur with
  | nil =>
      obtain ⟨fuel, rfl⟩ := Nat.exists_eq_succ_of_ne_zero (Nat.ne_of_gt hfuel)
      rfl
  | cons t ts ih =>
      obtain ⟨fuel, rfl⟩ := Nat.exists_eq_succ_of_ne_zero (Nat.ne_of_gt (Nat.zero_lt_of_lt hfuel))
      have ht := hts t List.mem_cons_self
      have hrest := joinPath_start ts
      obtain ⟨htake, hdrop⟩ := takeWhile_noSlash ht.noSlash hrest
      have hne : t ++ joinPath ts ≠ [] := fun hc => ht.ne_nil (List.append_eq_nil_iff.mp hc).1
      have hp : (joinPath (t :: ts)).drop 1 = t ++ joinPath ts := rfl
      have hfind : dirFindEntry (arrayDev u) sb cur t d
          = ((dirFindEntry (arrayDev u) sb cur t d).1, d) :=
        Prod.ext rfl (readOnly_dirFindEntry u sb cur t d)
      have hshort := ht.short
      rw [hp]
      unfold resolveFrom Disk.walk
      simp only [Prog.run_ite, hne, if_false, htake, Nat.not_le.mpr hshort, Prog.run_bind]
      rw [hfind]
      cases (dirFindEntry (arrayDev u) sb cur t d).1 with
      | none => rfl
      | some found =>
          simp only [hdrop]
          have ih' := @ih (fun t ht => hts t (List.mem_cons_of_mem _ ht)) fuel
            found.1.inode.toNat (Nat.lt_of_succ_lt_succ hfuel)
          rcases hrest with hnil | ⟨r, hr⟩
          · have hts0 : ts = [] := by
              cases ts with
              | nil => rfl
              | cons t ts => cases hnil
            subst hts0
            rfl
          · rw [hr] at ih' ⊢
            exact ih'

theorem pathResolve_canonical {path : Str} {ts : List Str} (hts : ∀ t ∈ ts, PathToken t)
    (hcanon : fsCanonicalize path 512 = joinPath ts ∨ fsCanonicalize path 512 = [slash] ∧ ts = []) :
    (pathResolve (arrayDev u) sb path d).1 = d.walk u sb ts 1 := by
  unfold pathResolve
  simp only [Prog.run_ite]
  rcases hcanon with hcanon | ⟨hcanon, rfl⟩
  · have hlen := length_le_joinPath ts
    split
    · rename_i hroot
      -- no component is empty, so `/` is not a list of them
      rw [hcanon] at hroot
      cases ts with
      | nil => cases hroot
      | cons t ts =>
          rw [joinPath_cons, List.cons.injEq] at hroot
          exact absurd (List.append_eq_nil_iff.mp hroot.2).1 (hts t List.mem_cons_self).ne_nil
    · rw [hcanon]
      exact resolveFrom_walk hts (by omega)
  · rw [if_pos hcanon]
    rfl

theorem pathResolve_walks (path : Str) : ∃ ts, (∀ t ∈ ts, PathToken t)
    ∧ ∀ d, (pathResolve (arrayDev u) sb path d).1 = d.walk u sb ts 1 := by
  obtain ⟨ts, hts, hcanon⟩ := fsCanonicalize_eq path 512
  exact ⟨ts, hts, fun d => pathResolve_canonical hts hcanon⟩

theorem pathResolve_walk (path : Str) : ∃ ts, (∀ t ∈ ts, PathToken t)
    ∧ (pathResolve (arrayDev u) sb path d).1 = d.walk u sb ts 1 := by
  obtain ⟨ts, hts, hwalk⟩ := @pathResolve_walks u sb path
  exact ⟨ts, hts, hwalk d⟩

theorem lastSlash_append {s t : Str} (ht : slash ∉ t) :
    lastSlash (s ++ slash :: t) = some s.length := by
  have hfind : (s ++ slash :: t).reverse.findIdx? (· = slash) = some t.length := by
    have hrev : (s ++ slash :: t).reverse = t.reverse ++ slash :: s.reverse := by simp
    have hno : t.reverse.findIdx? (fun c => decide (c = slash)) = none :=
      List.findIdx?_eq_none_iff.mpr fun c hc => by
        have hne : c ≠ slash := fun h => ht (h ▸ List.mem_reverse.mp hc)
        simpa using hne
    rw [hrev, List.findIdx?_append, hno, List.findIdx?_cons]
    simp
  rw [lastSlash, hfind, Option.map_some, List.length_append, List.length_cons, Option.some.injEq]
  omega

/-- `path_resolve_parent` gives the last component of the canonical path and the end of a
walk. -/
theorem pathResolveParent_walk {path name : Str} {parent : Nat}
    (h : (pathResolveParent (arrayDev u) sb path d).1 = some (parent, name)) :
    PathToken name ∧ ∃ ts, (∀ t ∈ ts, PathToken t) ∧ d.walk u sb ts 1 = some parent := by
  obtain ⟨ts, hts, hcanon⟩ := fsCanonicalize_eq path 512
  unfold pathResolveParent at h
  simp only [Prog.run_ite] at h
  split at h
  · cases h
  · rename_i hroot
    replace hcanon := hcanon.resolve_right fun hc => hroot hc.1
    rcases List.eq_nil_or_concat' ts with rfl | ⟨init, t, rfl⟩
    · rw [hcanon] at h
      cases h
    · have ht := hts t (List.mem_append_right _ (List.mem_singleton.mpr rfl))
      have hjoin : joinPath (init ++ [t]) = joinPath init ++ slash :: t := by
        rw [joinPath_append, joinPath_cons, joinPath_nil, List.append_nil]
      have hname : (joinPath init ++ slash :: t).drop ((joinPath init).length + 1) = t := by
        rw [← List.drop_drop, List.drop_left]
        rfl
      rw [hcanon, hjoin, lastSlash_append ht.noSlash] at h
      dsimp only at h
      rw [hname] at h
      generalize (if (joinPath init).length = 0 then [slash] else
        (joinPath init ++ slash :: t).take (joinPath init).length) = parentPath at h
      simp only [Prog.run_ite] at h
      split at h
      · cases h
      · split at h
        · cases h
        · obtain ⟨ts', hts', hwalk⟩ := @pathResolve_walk u sb d parentPath
          have hrun : pathResolve (arrayDev u) sb parentPath d
              = ((pathResolve (arrayDev u) sb parentPath d).1, d) :=
            Prod.ext rfl (readOnly_pathResolve u sb parentPath d)
          rw [Prog.run_bind, hrun] at h
          rw [hwalk] at h
          cases hp : d.walk u sb ts' 1 with
          | none =>
              rw [hp] at h
              cases h
          | some p =>
              rw [hp] at h
              obtain ⟨rfl, rfl⟩ := Prod.mk.inj (Option.some.inj h)
              exact ⟨ht, ts', hts', hp⟩

end

end IpoOs
