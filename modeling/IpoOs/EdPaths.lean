import IpoOs.EdDir
import IpoOs.Splitting

/-!
# Paths of the editor

`os.path.normpath` of an absolute path is slashes followed by components
that are proper: not empty, no dots. `path_resolve` walks those
components, and `path_parent` walks all but the last and returns the last.
A relative path resolves to nothing.

The results are equations for `normpath` on lists of pieces. With them the
editor's resolution of a path is a walk along proper components, and can be
compared with the kernel's.
-/

namespace IpoOs

/-- A component that `normpath` keeps in an absolute path. -/
def ProperComp (c : PyStr) : Prop := c ≠ [] ∧ c ≠ ['.'] ∧ c ≠ ['.', '.'] ∧ '/' ∉ c

instance : DecidablePred ProperComp := fun _ => inferInstanceAs (Decidable (_ ∧ _ ∧ _ ∧ _))

/-! ## Splitting at slashes

Pieces joined by slashes are split into the same pieces. -/

theorem pathParts_joined (n : Nat) {comps : List PyStr} (h : ∀ c ∈ comps, c ≠ [] ∧ '/' ∉ c) :
    pathParts (List.replicate n '/' ++ ['/'].intercalate comps) = comps := by
  unfold pathParts
  induction n with
  | zero =>
      rw [List.replicate_zero, List.nil_append]
      cases comps with
      | nil => rfl
      | cons c rest =>
          have hsplit : (['/'].intercalate (c :: rest)).splitOn '/' = c :: rest :=
            List.splitOn_intercalate '/' (fun l hl => (h l hl).2) (List.cons_ne_nil c rest)
          rw [hsplit]
          exact List.filter_eq_self.mpr fun l hl => by simpa using (h l hl).1
  | succ n ih =>
      have hsplit : (List.replicate (n + 1) '/' ++ ['/'].intercalate comps).splitOn '/'
          = [] :: (List.replicate n '/' ++ ['/'].intercalate comps).splitOn '/' :=
        List.splitOn_append_cons_self [] _
      rw [hsplit, List.filter_cons_of_neg (by simp)]
      exact ih

theorem take_one_intercalate {comps : List PyStr} (h : ∀ c ∈ comps, c ≠ [] ∧ '/' ∉ c) :
    (['/'].intercalate comps).take 1 ≠ ['/'] := by
  cases comps with
  | nil => exact fun hc => absurd hc (List.cons_ne_nil '/' []).symm
  | cons c rest =>
      obtain ⟨hne, hslash⟩ := h c List.mem_cons_self
      obtain ⟨x, c', rfl⟩ := List.exists_cons_of_ne_nil hne
      have hx : x ≠ '/' := fun hc => hslash (by rw [hc]; exact List.mem_cons_self)
      intro hc
      cases rest with
      | nil => exact hx (List.cons.inj hc).1
      | cons d rest => exact hx (List.cons.inj hc).1

/-! ## `normpath`

The fold over the pieces, with `..` taking the last one back. -/

theorem normStep_pieces {absolute : Bool} {comps : List PyStr} {comp : PyStr}
    (h : ∀ c ∈ comps, c ≠ [] ∧ '/' ∉ c) (hcomp : '/' ∉ comp) :
    ∀ c ∈ normStep absolute comps comp, c ≠ [] ∧ '/' ∉ c := by
  unfold normStep
  split
  · exact h
  · rename_i hskip
    split
    · intro c hc
      rcases List.mem_append.mp hc with hc | hc
      · exact h c hc
      · rw [List.mem_singleton] at hc
        rw [hc]
        exact ⟨fun h0 => hskip (Or.inl h0), hcomp⟩
    · exact fun c hc => h c (List.dropLast_subset comps hc)

theorem normStep_proper {comps : List PyStr} {comp : PyStr} (h : ∀ c ∈ comps, ProperComp c)
    (hcomp : '/' ∉ comp) : ∀ c ∈ normStep true comps comp, ProperComp c := by
  unfold normStep
  split
  · exact h
  · rename_i hskip
    split
    · rename_i hkeep
      have hdots : comp ≠ ['.', '.'] := by
        rcases hkeep with hne | ⟨hno, -⟩ | hlast
        · exact hne
        · exact absurd rfl hno
        · have hmem : ['.', '.'] ∈ comps := List.mem_of_getLast? hlast
          exact absurd rfl (h _ hmem).2.2.1
      intro c hc
      rcases List.mem_append.mp hc with hc | hc
      · exact h c hc
      · rw [List.mem_singleton] at hc
        rw [hc]
        exact ⟨fun h0 => hskip (Or.inl h0), fun h0 => hskip (Or.inr h0), hdots, hcomp⟩
    · exact fun c hc => h c (List.dropLast_subset comps hc)

theorem foldl_normStep_pieces {absolute : Bool} {l comps : List PyStr} (hl : ∀ c ∈ l, '/' ∉ c)
    (h : ∀ c ∈ comps, c ≠ [] ∧ '/' ∉ c) :
    ∀ c ∈ l.foldl (normStep absolute) comps, c ≠ [] ∧ '/' ∉ c := by
  induction l generalizing comps with
  | nil => exact h
  | cons x l ih =>
      exact ih (fun c hc => hl c (List.mem_cons_of_mem x hc))
        (normStep_pieces h (hl x List.mem_cons_self))

theorem foldl_normStep_proper {l comps : List PyStr} (hl : ∀ c ∈ l, '/' ∉ c)
    (h : ∀ c ∈ comps, ProperComp c) : ∀ c ∈ l.foldl (normStep true) comps, ProperComp c := by
  induction l generalizing comps with
  | nil => exact h
  | cons x l ih =>
      exact ih (fun c hc => hl c (List.mem_cons_of_mem x hc))
        (normStep_proper h (hl x List.mem_cons_self))

theorem foldl_normStep_self {absolute : Bool} {l comps : List PyStr} (hl : ∀ c ∈ l, ProperComp c) :
    l.foldl (normStep absolute) comps = comps ++ l := by
  induction l generalizing comps with
  | nil => exact (List.append_nil comps).symm
  | cons x l ih =>
      obtain ⟨h1, h2, h3, -⟩ := hl x List.mem_cons_self
      have hstep : normStep absolute comps x = comps ++ [x] := by
        rw [normStep, if_neg (not_or.mpr ⟨h1, h2⟩), if_pos (Or.inl h3)]
      rw [List.foldl_cons, hstep, ih fun c hc => hl c (List.mem_cons_of_mem x hc),
        List.append_assoc]
      rfl

/-- The components that `normpath` leaves of a path. -/
def normComps (path : PyStr) : List PyStr :=
  (path.splitOn '/').foldl (normStep (path.take 1 = ['/'])) []

theorem normComps_proper {path : PyStr} (habs : path.take 1 = ['/']) :
    ∀ c ∈ normComps path, ProperComp c := by
  unfold normComps
  rw [decide_eq_true habs]
  exact foldl_normStep_proper (fun _ hc => not_mem_splitOn hc) fun _ hc => absurd hc
    List.not_mem_nil

theorem normComps_pieces (path : PyStr) : ∀ c ∈ normComps path, c ≠ [] ∧ '/' ∉ c :=
  foldl_normStep_pieces (fun _ hc => not_mem_splitOn hc) fun _ hc => absurd hc List.not_mem_nil

/-- `normpath` of an absolute path: one slash or two, and the components. -/
theorem normpath_absolute {path : PyStr} (habs : path.take 1 = ['/']) :
    ∃ n, 0 < n ∧ normpath path = List.replicate n '/' ++ ['/'].intercalate (normComps path) := by
  have hne : path ≠ [] := by
    rintro rfl
    cases habs
  unfold normpath normComps
  rw [if_neg hne, if_neg (not_not.mpr habs), decide_eq_true habs]
  by_cases h2 : path.take 2 = ['/', '/'] ∧ path.take 3 ≠ ['/', '/', '/']
  · rw [if_pos h2]
    exact ⟨2, by decide, if_neg (by simp)⟩
  · rw [if_neg h2]
    exact ⟨1, by decide, if_neg (by simp)⟩

theorem normpath_relative {path : PyStr} (habs : path.take 1 ≠ ['/']) :
    (normpath path).take 1 ≠ ['/'] := by
  have hpieces := normComps_pieces path
  unfold normComps at hpieces
  rw [decide_eq_false habs] at hpieces
  unfold normpath
  by_cases hne : path = []
  · rw [if_pos hne]
    decide
  · rw [if_neg hne, if_pos habs]
    dsimp only
    split
    · decide
    · exact take_one_intercalate hpieces

theorem pathParts_normpath {path : PyStr} (habs : path.take 1 = ['/']) :
    pathParts (normpath path) = normComps path := by
  obtain ⟨n, -, hnorm⟩ := normpath_absolute habs
  rw [hnorm]
  exact pathParts_joined n (normComps_pieces path)

theorem take_one_normpath {path : PyStr} (habs : path.take 1 = ['/']) :
    (normpath path).take 1 = ['/'] := by
  obtain ⟨n, hn, hnorm⟩ := normpath_absolute habs
  obtain ⟨m, rfl⟩ := Nat.exists_eq_succ_of_ne_zero (Nat.pos_iff_ne_zero.mp hn)
  rw [hnorm]
  rfl

theorem normComps_joined {comps : List PyStr} (h : ∀ c ∈ comps, ProperComp c) :
    normComps ('/' :: ['/'].intercalate comps) = comps := by
  have habs : ('/' :: ['/'].intercalate comps).take 1 = ['/'] := rfl
  unfold normComps
  rw [decide_eq_true habs]
  cases comps with
  | nil => decide
  | cons c rest =>
      have hpieces : (['/'].intercalate (c :: rest)).splitOn '/' = c :: rest :=
        List.splitOn_intercalate '/' (fun l hl => (h l hl).2.2.2) (List.cons_ne_nil c rest)
      have hsplit : ('/' :: ['/'].intercalate (c :: rest)).splitOn '/'
          = [] :: (['/'].intercalate (c :: rest)).splitOn '/' :=
        List.splitOn_append_cons_self [] _
      rw [hsplit, hpieces, List.foldl_cons]
      exact foldl_normStep_self h

/-! ## Resolution

`path_resolve` and `path_parent` as walks. -/

theorem edPathResolve_absolute {path : PyStr} (habs : path.take 1 = ['/']) :
    edPathResolve path = edResolveFrom (normComps path) 1 := by
  unfold edPathResolve
  dsimp only
  by_cases hroot : normpath path = ['/']
  · have hcomps : normComps path = [] := by
      rw [← pathParts_normpath habs, hroot]
      rfl
    rw [if_pos hroot, hcomps]
    rfl
  · rw [if_neg hroot, if_neg (not_not.mpr (take_one_normpath habs)), pathParts_normpath habs]

theorem edPathResolve_relative {path : PyStr} (habs : path.take 1 ≠ ['/']) :
    edPathResolve path = pure (-1) := by
  have hrel := normpath_relative habs
  unfold edPathResolve
  dsimp only
  rw [if_neg fun hroot => hrel (by rw [hroot]; rfl), if_pos hrel]

/-- The parent of an absolute path is where its components but the last lead. -/
theorem edPathParent_absolute {path : PyStr} (habs : path.take 1 = ['/']) {xs : List PyStr}
    {name : PyStr} (hcomps : normComps path = xs ++ [name]) :
    edPathParent path = (do let ino ← edResolveFrom xs 1; pure (ino, name)) := by
  have hproper : ∀ c ∈ xs, ProperComp c := fun c hc =>
    normComps_proper habs c (by rw [hcomps]; exact List.mem_append_left [name] hc)
  have hparts : pathParts (normpath path) = xs ++ [name] := by rw [pathParts_normpath habs, hcomps]
  have hroot : normpath path ≠ ['/'] := by
    intro hroot
    rw [hroot] at hparts
    exact List.append_ne_nil_of_right_ne_nil xs (List.cons_ne_nil name []) hparts.symm
  have hparent : (if (xs ++ [name]).length > 1
      then '/' :: ['/'].intercalate (xs ++ [name]).dropLast else ['/'])
      = '/' :: ['/'].intercalate xs := by
    rw [List.dropLast_concat]
    cases xs with
    | nil => rfl
    | cons x xs => rw [if_pos (by simp)]
  unfold edPathParent
  dsimp only
  rw [if_neg hroot, hparts, hparent, List.getLast?_concat]
  dsimp only
  rw [edPathResolve_absolute rfl, normComps_joined hproper]

/-- What the walk to a path went through: the walk to its parent and one search. -/
theorem edResolveFrom_concat {xs : List PyStr} {name : PyStr} {cur ino : Int} {img : DiskImage}
    (h : edResolveFrom (xs ++ [name]) cur img = (.ok ino, img)) (hino : ino ≠ -1) :
    ∃ dir r ent, edResolveFrom xs cur img = (.ok dir, img)
      ∧ edReadInode dir img = (.ok r, img) ∧ r.isDir
      ∧ edFindEntry dir name img = (.ok (some ent), img) ∧ (ent.inode : Int) = ino := by
  induction xs generalizing cur with
  | nil =>
      obtain ⟨r, img₁, hr, h⟩ := Ed.bind_ok h
      obtain rfl := Ed.Keeps.same (keeps_edReadInode _) hr
      split at h
      · rename_i hdir
        obtain ⟨ent, img₂, hent, h⟩ := Ed.bind_ok h
        obtain rfl := Ed.Keeps.same (keeps_edFindEntry _ _) hent
        cases ent with
        | none =>
            cases h
            exact absurd rfl hino
        | some ent =>
            cases h
            exact ⟨cur, r, ent, rfl, hr, hdir, hent, rfl⟩
      · cases h
        exact absurd rfl hino
  | cons x xs ih =>
      obtain ⟨r, img₁, hr, h⟩ := Ed.bind_ok h
      obtain rfl := Ed.Keeps.same (keeps_edReadInode _) hr
      split at h
      · rename_i hdir
        obtain ⟨ent, img₂, hent, h⟩ := Ed.bind_ok h
        obtain rfl := Ed.Keeps.same (keeps_edFindEntry _ _) hent
        cases ent with
        | none =>
            cases h
            exact absurd rfl hino
        | some ent =>
            obtain ⟨dir, r', ent', hwalk, hrest⟩ := ih h
            refine ⟨dir, r', ent', ?_, hrest⟩
            rw [edResolveFrom, Ed.run_bind_ok hr, if_pos hdir, Ed.run_bind_ok hent]
            exact hwalk
      · cases h
        exact absurd rfl hino

/-- A path that resolves is an entry of the directory that `path_parent` names. -/
theorem edPath_entry {path name : PyStr} {dir ino : Int} {img : DiskImage}
    (hpath : edPathParent path img = (.ok (dir, name), img)) (hdir : dir ≠ -1)
    (hres : edPathResolve path img = (.ok ino, img)) (hino : ino ≠ -1) :
    ∃ r ent, edReadInode dir img = (.ok r, img) ∧ r.isDir
      ∧ edFindEntry dir name img = (.ok (some ent), img) ∧ (ent.inode : Int) = ino := by
  by_cases habs : path.take 1 = ['/']
  · rw [edPathResolve_absolute habs] at hres
    rcases List.eq_nil_or_concat (normComps path) with hcomps | ⟨xs, last, hcomps⟩
    · have hparts : pathParts (normpath path) = [] := by rw [pathParts_normpath habs, hcomps]
      unfold edPathParent at hpath
      dsimp only at hpath
      rw [hparts] at hpath
      split at hpath
      · cases hpath
        exact absurd rfl hdir
      · cases hpath
    · rw [List.concat_eq_append] at hcomps
      rw [hcomps] at hres
      obtain ⟨dir', r, ent, hwalk, hr, hisDir, hent, heq⟩ := edResolveFrom_concat hres hino
      rw [edPathParent_absolute habs hcomps, Ed.run_bind_ok hwalk] at hpath
      cases hpath
      exact ⟨r, ent, hr, hisDir, hent, heq⟩
  · rw [edPathResolve_relative habs] at hres
    cases hres
    exact absurd rfl hino

end IpoOs
