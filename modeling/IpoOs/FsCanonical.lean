import IpoOs.FsWalk

/-!
# Canonical paths

What `fs_canonicalize` puts out is a normal form, which it leaves as it
is when it is applied again. As long as no buffer is too small it is the
path of the components that are left when empty ones and `.` are dropped
and `..` takes the previous one back.

The normal form is stated on the list of pieces between slashes, and the
component loop is compared with it for any number of components that are
live at a time. The bounds are exact: one component that is too long, or one
too many, and the loop drops something.
-/

namespace IpoOs

/-! ## Normalisation

The fold over the pieces of a path, with its equations for a slash and for a
component. -/

/-- One component: an empty one or `.` is dropped, and `..` takes the previous one back. -/
def normalStep (stack : List Str) (t : Str) : List Str :=
  if t = [] ∨ t = dot then stack
  else if t = dotdot then stack.dropLast
  else stack ++ [t]

/-- The live components after those of `s`, with `stack` before them. -/
def normalFrom (stack : List Str) (s : Str) : List Str := (s.splitOn slash).foldl normalStep stack

def normalComponents (s : Str) : List Str := normalFrom [] s

def normalPath (ts : List Str) : Str := if ts = [] then [slash] else joinPath ts

/-- `/`, or at most 128 components, each behind a `/`. -/
def IsNormalPath (s : Str) : Prop :=
  s = [slash] ∨ ∃ ts, ts ≠ [] ∧ ts.length ≤ 128 ∧ (∀ t ∈ ts, PathToken t) ∧ s = joinPath ts

section

variable {stack : List Str} {s t rest : Str}

theorem splitOn_slash (s : Str) : (slash :: s).splitOn slash = [] :: s.splitOn slash :=
  List.splitOn_append_cons_self [] s

theorem splitOn_component (ht : slash ∉ t) (hr : rest = [] ∨ ∃ r, rest = slash :: r) :
    (t ++ rest).splitOn slash = t :: (rest.splitOn slash).tail := by
  refine splitOnP_append (fun a ha => beq_eq_false_iff_ne.mpr fun hc => ht (hc ▸ ha)) ?_
  rcases hr with rfl | ⟨r, rfl⟩
  · exact StartsAt.nil
  · exact StartsAt.cons (by simp)

theorem normalStep_nil : normalStep stack [] = stack := if_pos (Or.inl rfl)

theorem normalFrom_slash : normalFrom stack (slash :: s) = normalFrom stack s := by
  unfold normalFrom
  rw [splitOn_slash, List.foldl_cons, normalStep_nil]

theorem normalFrom_component (ht : slash ∉ t) (hr : rest = [] ∨ ∃ r, rest = slash :: r) :
    normalFrom stack (t ++ rest) = normalFrom (normalStep stack t) rest := by
  have hrest := @splitOn_component [] rest List.not_mem_nil hr
  unfold normalFrom
  rw [splitOn_component ht hr, List.foldl_cons]
  rw [List.nil_append] at hrest
  rw [hrest, List.foldl_cons, normalStep_nil, List.tail_cons]

theorem normalFrom_slashes {sl : Str} (hs : ∀ a ∈ sl, a = slash) :
    normalFrom stack (sl ++ s) = normalFrom stack s := by
  induction sl with
  | nil => rfl
  | cons a sl ih =>
      obtain rfl := hs a List.mem_cons_self
      rw [List.cons_append, normalFrom_slash]
      exact ih fun b hb => hs b (List.mem_cons_of_mem _ hb)

theorem splitOn_slashes {sl : Str} (hs : ∀ a ∈ sl, a = slash) :
    ∀ c ∈ s.splitOn slash, c ∈ (sl ++ s).splitOn slash := by
  induction sl with
  | nil => exact fun c hc => hc
  | cons a sl ih =>
      obtain rfl := hs a List.mem_cons_self
      intro c hc
      rw [List.cons_append, splitOn_slash]
      exact List.mem_cons_of_mem _ (ih (fun b hb => hs b (List.mem_cons_of_mem _ hb)) c hc)

end

/-! ## The component loop

While the buffers are large enough the loop computes the fold. -/

/-- Without a component that is too long and with at most 128 live ones at any time, the loop
keeps the live components. -/
theorem canonTokens_normal {fuel : Nat} {c : Str} {stack : List Str} (hfuel : c.length < fuel)
    (hshort : ∀ t ∈ c.splitOn slash, t.length ≤ 63)
    (hlive : ∀ p, p <+: c → (normalFrom stack p).length ≤ 128) :
    canonTokens fuel c stack = normalFrom stack c := by
  induction fuel generalizing c stack with
  | zero => exact absurd hfuel (Nat.not_lt_zero _)
  | succ fuel ih =>
      unfold canonTokens
      simp only
      split
      · rename_i hnil
        have hsl : ∀ a ∈ c, a = slash := fun a ha => by
          simpa using List.dropWhile_eq_nil_iff.mp hnil a ha
        have hnorm := @normalFrom_slashes stack [] c hsl
        rw [List.append_nil] at hnorm
        exact normalStep_nil.symm.trans hnorm.symm
      rename_i hne
      obtain ⟨sl, t, rest, rfl, hdrop, htake, hrest, hsl, htne, hno, hstart⟩ := next_component hne
      rw [hdrop, htake, hrest, normalFrom_slashes hsl, normalFrom_component hno hstart]
      have hcomps := splitOn_component hno hstart
      have hmem : ∀ x ∈ (t ++ rest).splitOn slash, x.length ≤ 63 := fun x hx =>
        hshort x (splitOn_slashes hsl x hx)
      have hlen : t.length ≤ 63 := hmem t (by rw [hcomps]; exact List.mem_cons_self)
      rw [List.take_of_length_le hlen]
      have hpre : ∀ p, (p = [] ∨ ∃ r, p = slash :: r) → p <+: rest →
          (normalFrom (normalStep stack t) p).length ≤ 128 := by
        intro p hp hpr
        have h := hlive (sl ++ (t ++ p)) ((List.prefix_append_right_inj _).mpr
          ((List.prefix_append_right_inj _).mpr hpr))
        rwa [normalFrom_slashes hsl, normalFrom_component hno hp] at h
      -- the loop goes on behind the component
      have hgo : canonTokens fuel rest (normalStep stack t)
          = normalFrom (normalStep stack t) rest := by
        refine ih ?_ (fun x hx => ?_) fun p hp => ?_
        · have hpos := List.length_pos_of_ne_nil htne
          rw [List.length_append, List.length_append] at hfuel
          omega
        · have hrest := @splitOn_component [] rest List.not_mem_nil hstart
          rw [List.nil_append] at hrest
          rw [hrest] at hx
          rcases List.mem_cons.mp hx with rfl | hx
          · exact Nat.zero_le _
          · exact hmem x (by rw [hcomps]; exact List.mem_cons_of_mem _ hx)
        · refine hpre p ?_ hp
          cases p with
          | nil => exact Or.inl rfl
          | cons a p =>
              rcases hstart with hnil | ⟨r, hr⟩
              · rw [hnil] at hp
                exact absurd (List.prefix_nil.mp hp) (List.cons_ne_nil _ _)
              · rw [hr] at hp
                exact Or.inr ⟨p, by rw [(List.cons_prefix_cons.mp hp).1]⟩
      have hone := hpre [] (Or.inl rfl) List.nil_prefix
      change (normalStep (normalStep stack t) []).length ≤ 128 at hone
      rw [normalStep_nil] at hone
      rw [← hgo]
      unfold normalStep at hone ⊢
      rcases em (t = dot) with hdot | hdot
      · rw [if_pos hdot, if_pos (Or.inr hdot)]
      rw [if_neg hdot, if_neg (not_or.mpr ⟨htne, hdot⟩)]
      rw [if_neg (not_or.mpr ⟨htne, hdot⟩)] at hone
      rcases em (t = dotdot) with hdots | hdots
      · rw [if_pos hdots, if_pos hdots]
      · rw [if_neg hdots, List.length_append, List.length_singleton] at hone
        rw [if_neg hdots, if_neg hdots]
        exact if_neg (Nat.not_le.mpr hone)

/-! ## The output loop

The components are written one after another up to the end of the output. -/

theorem canonJoin_fits {n : Nat} {ts : List Str} {out : Str}
    (h : out.length + (joinPath ts).length + 1 < n) : canonJoin n ts out = out ++ joinPath ts := by
  induction ts generalizing out with
  | nil => exact (List.append_nil _).symm
  | cons t ts ih =>
      rw [joinPath_cons, List.length_cons, List.length_append] at h
      unfold canonJoin
      rw [if_neg (by omega), ih]
      · rw [joinPath_cons, List.append_assoc, List.cons_append]
      · rw [List.length_append, List.length_cons]
        omega

theorem canonJoin_short {n : Nat} {ts : List Str} {out : Str} (h : out.length + 1 < n) :
    (canonJoin n ts out).length + 1 < n := by
  induction ts generalizing out with
  | nil => exact h
  | cons t ts ih =>
      unfold canonJoin
      split
      · exact h
      · rename_i hroom
        refine ih ?_
        rw [List.length_append, List.length_cons]
        omega

/-! ## Normal forms

What comes out goes in unchanged, and what goes in comes out in normal form. -/

section

variable {n : Nat} (hn : 66 ≤ n)

include hn

theorem fsCanonicalize_normal (input : CString) :
    IsNormalPath (fsCanonicalize input.chars n) ∧ (0 : UInt8) ∉ fsCanonicalize input.chars n
      ∧ (fsCanonicalize input.chars n).length + 1 < n := by
  have hkept : ∀ ts, ts = canonTokens (input.chars.length + 1) input.chars [] →
      ts.length ≤ 128 ∧ (∀ t ∈ ts, PathToken t) ∧ ∀ t ∈ ts, (0 : UInt8) ∉ t := by
    rintro ts rfl
    refine ⟨?_, canonTokens_tokens fun t ht => absurd ht List.not_mem_nil, ?_⟩
    · refine @canonTokens_kept (fun ts => ts.length ≤ 128) input.chars (fun ts hts => ?_)
        (fun ts t _ hroom _ _ => ?_) _ _ _ (fun a ha => ha) (Nat.zero_le _)
      · rw [List.length_dropLast]
        exact Nat.le_trans (Nat.sub_le _ _) hts
      · rw [List.length_append, List.length_singleton]
        exact hroom
    · refine @canonTokens_kept (fun ts => ∀ t ∈ ts, (0 : UInt8) ∉ t) input.chars
        (fun ts hts t ht => hts t (List.mem_of_mem_dropLast ht))
          (fun ts t hts _ _ hchars t' ht' => ?_)
        _ _ _ (fun a ha => ha) fun t ht => absurd ht List.not_mem_nil
      rcases List.mem_append.mp ht' with ht' | ht'
      · exact hts t' ht'
      · rw [List.mem_singleton.mp ht']
        exact fun h0 => input.noNul (hchars 0 h0)
  obtain ⟨hcount, htok, hnul⟩ := hkept _ rfl
  unfold fsCanonicalize
  simp only
  split
  · rw [if_pos (by omega)]
    exact ⟨Or.inl rfl, by decide, by rw [List.length_singleton]; omega⟩
  · rename_i hne
    generalize canonTokens (input.chars.length + 1) input.chars [] = ts at hne hcount htok hnul
    refine ⟨?_, ?_, canonJoin_short (by rw [List.length_nil]; omega)⟩
    · -- the first component always fits
      cases ts with
      | nil => exact absurd rfl hne
      | cons t ts =>
          have hfirst := (htok t List.mem_cons_self).short
          obtain ⟨m, hm⟩ := canonJoin_eq n ts ([] ++ slash :: t)
          unfold canonJoin
          rw [if_neg (by rw [List.length_nil]; omega), hm]
          refine Or.inr ⟨t :: ts.take m, List.cons_ne_nil _ _, ?_, fun x hx => ?_, ?_⟩
          · rw [List.length_cons, List.length_take]
            rw [List.length_cons] at hcount
            omega
          · rcases List.mem_cons.mp hx with rfl | hx
            · exact htok _ List.mem_cons_self
            · exact htok x (List.mem_cons_of_mem _ (List.mem_of_mem_take hx))
          · rw [joinPath_cons, List.nil_append, List.cons_append]
    · obtain ⟨m, hm⟩ := canonJoin_eq n ts []
      rw [hm, List.nil_append]
      intro h0
      obtain ⟨t, ht, h0⟩ := List.mem_flatMap.mp h0
      rcases List.mem_cons.mp h0 with h0 | h0
      · exact absurd h0 (by decide)
      · exact hnul t (List.mem_of_mem_take ht) h0

omit hn in
/-- The component loop reads back the components of a normal form. -/
theorem canonTokens_joinPath {ts : List Str} (hts : ∀ t ∈ ts, PathToken t) {fuel : Nat}
    {stack : List Str} (hfuel : (joinPath ts).length < fuel)
    (hroom : stack.length + ts.length ≤ 128) :
    canonTokens fuel (joinPath ts) stack = stack ++ ts := by
  induction ts generalizing fuel stack with
  | nil =>
      rw [List.append_nil]
      cases fuel <;> rfl
  | cons t ts ih =>
      obtain ⟨fuel, rfl⟩ := Nat.exists_eq_succ_of_ne_zero (Nat.ne_of_gt (Nat.zero_lt_of_lt hfuel))
      have ht := hts t List.mem_cons_self
      have hdrop : (slash :: (t ++ joinPath ts)).dropWhile (· = slash) = t ++ joinPath ts := by
        obtain ⟨a, r, rfl⟩ := List.exists_cons_of_ne_nil ht.ne_nil
        have ha : a ≠ slash := fun hc => ht.noSlash (hc ▸ List.mem_cons_self)
        rw [List.dropWhile_cons_of_pos (by simp), List.cons_append,
          List.dropWhile_cons_of_neg (by simpa using ha)]
      obtain ⟨htake, hrest⟩ := takeWhile_noSlash ht.noSlash (joinPath_start ts)
      have hne : t ++ joinPath ts ≠ [] := fun hc => ht.ne_nil (List.append_eq_nil_iff.mp hc).1
      rw [joinPath_cons, List.length_cons, List.length_append] at hfuel
      rw [List.length_cons] at hroom
      have hroom' : ¬ stack.length ≥ 128 := by omega
      unfold canonTokens
      simp only [joinPath_cons, hdrop, htake, hrest]
      rw [if_neg hne, List.take_of_length_le (Nat.le_of_lt_succ ht.short), if_neg ht.ne_dot,
        if_neg ht.ne_dotdot, if_neg hroom',
        ih (fun t ht => hts t (List.mem_cons_of_mem _ ht)) (by omega)
          (by rw [List.length_append, List.length_singleton]; omega),
        List.append_assoc, List.singleton_append]

theorem fsCanonicalize_of_normal {s : Str} (hs : IsNormalPath s) (hlen : s.length + 1 < n) :
    fsCanonicalize s n = s := by
  rcases hs with rfl | ⟨ts, hne, hcount, htok, rfl⟩
  · have htokens : canonTokens ([slash].length + 1) [slash] [] = [] := by decide
    unfold fsCanonicalize
    simp only
    rw [if_pos htokens, if_pos (by omega)]
  · have htokens := @canonTokens_joinPath ts htok ((joinPath ts).length + 1) []
      (Nat.lt_succ_self _) (by rw [List.length_nil]; omega)
    rw [List.nil_append] at htokens
    unfold fsCanonicalize
    simp only
    rw [htokens, if_neg hne, canonJoin_fits (by rw [List.length_nil]; omega), List.nil_append]

/-- Without a buffer that is too small the output is the path of the live components. -/
theorem fsCanonicalize_live {s : Str} (hshort : ∀ t ∈ s.splitOn slash, t.length ≤ 63)
    (hlive : ∀ p, p <+: s → (normalComponents p).length ≤ 128)
    (hfits : (normalPath (normalComponents s)).length ≤ n - 2) :
    fsCanonicalize s n = normalPath (normalComponents s) := by
  have htokens : canonTokens (s.length + 1) s [] = normalComponents s :=
    canonTokens_normal (Nat.lt_succ_self _) hshort hlive
  unfold fsCanonicalize normalPath at *
  simp only
  rw [htokens]
  split
  · rw [if_pos (by omega)]
  · rename_i hne
    rw [if_neg hne] at hfits
    rw [canonJoin_fits (by rw [List.length_nil]; omega), List.nil_append]

end

/-- For every output buffer of at least 66 bytes `fs_canonicalize` puts out a normal form that
ends before the buffer does and that it leaves as it is. When no component is longer than 63
characters, at most 128 are live at any time and the result fits, it is the path of the
components that are live in the end. -/
theorem fsCanonicalize_spec (input : CString) {outSize : Nat} (h : 66 ≤ outSize) :
    (IsNormalPath (fsCanonicalize input.chars outSize)
      ∧ (0 : UInt8) ∉ fsCanonicalize input.chars outSize
      ∧ (fsCanonicalize input.chars outSize).length < outSize)
    ∧ fsCanonicalize (fsCanonicalize input.chars outSize) outSize
      = fsCanonicalize input.chars outSize
    ∧ ((∀ t ∈ input.chars.splitOn slash, t.length ≤ 63) →
      (∀ p, p <+: input.chars → (normalComponents p).length ≤ 128) →
      (normalPath (normalComponents input.chars)).length ≤ outSize - 2 →
      fsCanonicalize input.chars outSize = normalPath (normalComponents input.chars)) := by
  obtain ⟨hnormal, hnul, hlen⟩ := fsCanonicalize_normal h input
  exact ⟨⟨hnormal, hnul, Nat.lt_of_succ_lt hlen⟩, fsCanonicalize_of_normal h hnormal hlen,
    fun hshort hlive hfits => fsCanonicalize_live h hshort hlive hfits⟩

/-- The path `/a//../b`. -/
def upPath : CString := ⟨[47, 97, 47, 47, 46, 46, 47, 98], by decide⟩

theorem fsCanonicalize_spec_upPath :
    fsCanonicalize upPath.chars 66 = [47, 98]
    ∧ fsCanonicalize (fsCanonicalize upPath.chars 66) 66 = fsCanonicalize upPath.chars 66 := by
  obtain ⟨-, hagain, hlive⟩ := fsCanonicalize_spec upPath (Nat.le_refl 66)
  refine ⟨hlive (by decide) (fun p hp => ?_) (by decide), hagain⟩
  have hall : ∀ p ∈ upPath.chars.inits, (normalComponents p).length ≤ 128 := by decide
  exact hall p ((List.mem_inits _ _).mpr hp)

end IpoOs
