import IpoOs.FsStore

/-!
# What a run of changes keeps of the store

Above every object are directories, no inode number is at two paths, and
a file that no call writes or takes out keeps its contents, wherever the
directories above it are moved.

The laws are proved of the abstract steps and of no code, by cases on
`StoreStep` and then by induction over a run. `HasFile` is the property of a
single file that survives: it is somewhere, under one path, with its number,
its size and its bytes.
-/

namespace IpoOs

/-- One object at each path, in a directory, and one path for each object. -/
structure StoreOk (s : PathStore Str Node) : Prop where
  closed : PathStore.Closed Node.IsDir s
  inj : ∀ {p q v w}, s p = some v → s q = some w → v.ino = w.ino → p = q

/-- A file with these contents. -/
def HasFile (s : PathStore Str Node) (ino : Nat) (m : UInt32) (n : Nat) (b : Nat → Option UInt8) :
    Prop :=
  ∃ p, s p = some (.file ino m n b)

/-- The call does not write the inode, and does not take it out. -/
def Files.Spares (s : Files) (ino : Nat) : FsCall → Prop
  | .write fd _ _ _ => s.inodeOf fd ≠ some ino
  | .writeText path _ _ => ∀ v, s.store (pathComps path.chars) = some v → v.ino ≠ ino
  | .delete path => ∀ p v, s.store p = some v → v.ino = ino → ¬ pathComps path.chars <+: p
  | _ => True

/-- Runs of the store, by the calls and what they return. -/
abbrev StoreTrace : Files → List (FsCall × FsAnswer) → Files → Prop :=
  Trace fun s call s' => StoreStep s call.1 call.2 s'

section

variable {s t : PathStore Str Node} {path oldpath newpath : CString} {q : List Str} {i : Nat}
    {type : UInt8}

theorem newNode_ino (i : Nat) (mode : UInt32) : (newNode i mode).ino = i := by
  unfold newNode
  split <;> rfl

theorem PutNew.storeOk (h : PutNew s path i t type) (hs : StoreOk s) : StoreOk t := by
  obtain ⟨init, name, w, hpath, hw, hdir⟩ := h.parent
  rw [h.put]
  refine ⟨hs.closed.put (fun init' m heq => ?_) (fun w hw _ => ?_), fun {p q v w} hp hq hino => ?_⟩
  · rw [hpath] at heq
    obtain ⟨rfl, -⟩ := List.append_inj' heq rfl
    exact ⟨w, hw, hdir⟩
  · rw [h.free] at hw
    cases hw
  · have hnew : ∀ {p v}, (s.put (pathComps path.chars) (newNode i type.toUInt32)) p = some v →
        (p = pathComps path.chars ∧ v.ino = i)
            ∨ (p ≠ pathComps path.chars ∧ s p = some v ∧ v.ino ≠ i) := by
      intro p v hv
      rcases em (p = pathComps path.chars) with rfl | hne
      · rw [PathStore.put_self] at hv
        obtain rfl := Option.some.inj hv
        exact Or.inl ⟨rfl, newNode_ino i _⟩
      · rw [PathStore.put_of_ne hne] at hv
        exact Or.inr ⟨hne, hv, h.fresh p v hv⟩
    rcases hnew hp with ⟨rfl, hi⟩ | ⟨-, hp, hi⟩
    · rcases hnew hq with ⟨rfl, -⟩ | ⟨-, -, hi'⟩
      · rfl
      · exact absurd (hino.symm.trans hi) hi'
    · rcases hnew hq with ⟨-, hi'⟩ | ⟨-, hq, -⟩
      · exact absurd (hino.trans hi') hi
      · exact hs.inj hp hq hino

theorem PutNew.kept (h : PutNew s path i t type) {p : List Str} {v : Node} (hp : s p = some v) :
    t p = some v := by
  rw [h.put, PathStore.put_of_ne, hp]
  rintro rfl
  rw [h.free] at hp
  cases hp

theorem Pruned.kept (h : Pruned s path t) {p : List Str} {v : Node}
    (hno : ¬ pathComps path.chars <+: p) (hp : s p = some v) : t p = some v := by
  rw [h.prune, PathStore.prune_of_not hno, hp]

theorem Pruned.storeOk (h : Pruned s path t) (hs : StoreOk s) : StoreOk t := by
  rw [h.prune]
  exact ⟨hs.closed.prune, fun hp hq => hs.inj (PathStore.prune_eq_some.mp hp).2
    (PathStore.prune_eq_some.mp hq).2⟩

/-- What is there after a move was there before, in another place perhaps. -/
theorem Grafted.before (h : Grafted s oldpath newpath q t) {p : List Str} {v : Node}
    (hv : t p = some v) :
    ∃ p', s p' = some v ∧ ((∃ us, p = q ++ us ∧ p' = pathComps oldpath.chars ++ us)
      ∨ (¬ q <+: p ∧ ¬ pathComps oldpath.chars <+: p ∧ p' = p)) := by
  rw [h.graft] at hv
  rcases @PathStore.graft_cases _ _ _ s (pathComps oldpath.chars) q p with
    ⟨us, rfl, hval⟩ | ⟨-, -, hnone⟩ | ⟨hq, hp, hval⟩
  · exact ⟨_, hval ▸ hv, Or.inl ⟨us, rfl, rfl⟩⟩
  · rw [hnone] at hv
    cases hv
  · exact ⟨p, hval ▸ hv, Or.inr ⟨hq, hp, rfl⟩⟩

theorem Grafted.after (h : Grafted s oldpath newpath q t) (hs : StoreOk s) {p : List Str} {v : Node}
    (hv : s p = some v) : ∃ p', t p' = some v := by
  rw [h.graft]
  rcases em (pathComps oldpath.chars <+: p) with ⟨us, rfl⟩ | hp
  · exact ⟨q ++ us, by rw [PathStore.graft_append, hv]⟩
  · refine ⟨p, ?_⟩
    rw [PathStore.graft_of_not, if_neg hp, hv]
    rintro ⟨us, rfl⟩
    -- below the new place there was nothing
    rcases em (us = []) with rfl | hne
    · rw [List.append_nil, h.free] at hv
      cases hv
    · rw [hs.closed.below_none (fun w hw => by rw [h.free] at hw; cases hw) hne] at hv
      cases hv

theorem Grafted.storeOk (h : Grafted s oldpath newpath q t) (hs : StoreOk s) : StoreOk t := by
  obtain ⟨init, name, w, hq, hw, hdir⟩ := h.parent
  refine ⟨by rw [h.graft]; exact hs.closed.graft h.outside hq ⟨w, hw, hdir⟩,
    fun {p p' v w} hp hp' hino => ?_⟩
  obtain ⟨o, hv, ho⟩ := h.before hp
  obtain ⟨o', hv', ho'⟩ := h.before hp'
  have heq := hs.inj hv hv' hino
  rcases ho with ⟨us, rfl, rfl⟩ | ⟨-, hnot, rfl⟩
  · rcases ho' with ⟨us', rfl, rfl⟩ | ⟨-, hnot, rfl⟩
    · rw [List.append_cancel_left heq]
    · exact absurd ⟨us, heq⟩ hnot
  · rcases ho' with ⟨us', rfl, rfl⟩ | ⟨-, -, rfl⟩
    · exact absurd ⟨us', heq.symm⟩ hnot
    · exact heq

end

/-! ## One call

What each step keeps: that the store is one, and a file that the step
spares. -/

section

variable {s s' : Files} {c : FsCall} {r : FsAnswer} {path : CString} {ino n n' : Nat} {m : UInt32}
  {b b' : Nat → Option UInt8} {p : List Str}

theorem StoreOk.rewrite {s : PathStore Str Node} (hs : StoreOk s)
    (hp : s p = some (.file ino m n b)) :
    StoreOk (s.put p (.file ino m n' b')) := by
  have hsame : ∀ {q v}, (s.put p (.file ino m n' b')) q = some v → ∃ w, s q = some w
      ∧ w.ino = v.ino := by
    intro q v hv
    rcases em (q = p) with rfl | hne
    · rw [PathStore.put_self] at hv
      obtain rfl := Option.some.inj hv
      exact ⟨_, hp, rfl⟩
    · rw [PathStore.put_of_ne hne] at hv
      exact ⟨v, hv, rfl⟩
  refine ⟨hs.closed.put (fun init x heq => hs.closed init x ?_) (fun w hw hd => ?_),
    fun hq hq' hino => ?_⟩
  · rw [← heq, hp]
    exact Option.some_ne_none _
  · -- a file is no directory
    rw [hp] at hw
    obtain rfl := Option.some.inj hw
    obtain ⟨i, m', hc⟩ := hd
    cases hc
  · obtain ⟨w, hw, hi⟩ := hsame hq
    obtain ⟨w', hw', hi'⟩ := hsame hq'
    exact hs.inj hw hw' (hi.trans (hino.trans hi'.symm))

theorem HasFile.rewrite {s : PathStore Str Node} {q : List Str} {ino' k : Nat} {m' : UInt32}
    {a : Nat → Option UInt8} (hf : HasFile s ino m n b) (hq : s q = some (.file ino' m' k a))
    (hne : ino' ≠ ino) (v : Node) : HasFile (s.put q v) ino m n b := by
  obtain ⟨p, hp⟩ := hf
  refine ⟨p, (PathStore.put_of_ne fun hpq => ?_).trans hp⟩
  rw [← hpq, hp] at hq
  exact hne (congrArg Node.ino (Option.some.inj hq)).symm

theorem TextMade.storeOk (h : TextMade s path s') (hs : StoreOk s.store) : StoreOk s'.store := by
  rcases h with rfl | ⟨-, i, t, hput, rfl⟩
  · exact hs
  · exact hput.storeOk hs

theorem TextMade.hasFile (h : TextMade s path s') (hf : HasFile s.store ino m n b) :
    HasFile s'.store ino m n b := by
  obtain ⟨p, hp⟩ := hf
  rcases h with rfl | ⟨-, i, t, hput, rfl⟩
  · exact ⟨p, hp⟩
  · exact ⟨p, hput.kept hp⟩

/-- What is at the path of a text is not the file of another path. -/
theorem TextMade.spares (h : TextMade s path s') (hf : HasFile s.store ino m n b)
    (hsp : ∀ v, s.store (pathComps path.chars) = some v → v.ino ≠ ino) {v : Node}
    (hv : s'.store (pathComps path.chars) = some v) : v.ino ≠ ino := by
  obtain ⟨p, hp⟩ := hf
  rcases h with rfl | ⟨-, i, t, hput, rfl⟩
  · exact hsp v hv
  · -- what is at the path now is the new object
    have hnew : t (pathComps path.chars) = some (newNode i typeFile.toUInt32) := by
      rw [hput.put, PathStore.put_self]
    obtain rfl := Option.some.inj (hnew.symm.trans hv)
    rw [newNode_ino]
    exact (hput.fresh p _ hp).symm

theorem StoreStep.mounted_kept (h : StoreStep s c r s') (hm : s.mounted = true) :
    s'.mounted = true := by
  cases h with
  | mounted => rfl
  | text hmade hopen _ => exact hopen.mounted
  | noText hmade _ =>
      rcases hmade with rfl | ⟨-, _, _, -, rfl⟩
      · exact hm
      · exact hm
  | _ => exact hm

theorem StoreStep.storeOk (h : StoreStep s c r s') (hs : StoreOk s.store) : StoreOk s'.store := by
  cases h with
  | created _ h => exact h.storeOk hs
  | written _ hp _ => exact hs.rewrite hp
  | text hmade hopen _ => exact (hmade.storeOk hs).rewrite hopen.here
  | noText hmade _ => exact hmade.storeOk hs
  | deleted _ h => exact h.storeOk hs
  | moved _ h => exact h.storeOk hs
  | _ => exact hs

theorem StoreStep.hasFile (h : StoreStep s c r s') (hs : StoreOk s.store) (hsp : s.Spares ino c)
    (hf : HasFile s.store ino m n b) : HasFile s'.store ino m n b := by
  cases h with
  | created _ h =>
      obtain ⟨p, hp⟩ := hf
      exact ⟨p, h.kept hp⟩
  | written hfd hp _ =>
      refine hf.rewrite hp ?_ _
      rintro rfl
      exact hsp hfd
  | text hmade hopen _ =>
      exact (hmade.hasFile hf).rewrite hopen.here (hmade.spares hf hsp hopen.here) _
  | noText hmade _ => exact hmade.hasFile hf
  | deleted _ h =>
      obtain ⟨p, hp⟩ := hf
      exact ⟨p, h.kept (hsp p _ hp rfl) hp⟩
  | moved _ h =>
      obtain ⟨p, hp⟩ := hf
      exact h.after hs hp
  | _ => exact hf

theorem StoreTrace.storeOk {calls : List (FsCall × FsAnswer)} (h : StoreTrace s calls s')
    (hs : StoreOk s.store) : StoreOk s'.store :=
  Trace.invariant (P := fun s : Files => StoreOk s.store) (fun _ _ _ hs hstep => hstep.storeOk hs) h
    hs

end

end IpoOs
