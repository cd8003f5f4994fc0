import IpoOs.FsImage
import IpoOs.Process

/-!
# What a launch takes and gives back

`Emits x s Q` says that `Q` holds of what code `x` returns in state `s`,
of the state it leaves and of what it did with the allocator. The rules
for it follow the code backwards; each function of `process.c` has one
lemma of this form, and `process_exec` is then a list of events on every
path. The one path on which something stays allocated is the one on
which a copy of an argument string cannot be allocated.

The log of the allocator is compared as a whole: `ReleasedOnce` says that
every pointer taken is given back once and nothing else is. The rules
compose the events of the parts, and the branches of the source are cases of
the events.
-/

namespace IpoOs

/-- What was obtained was given back exactly once. -/
def ReleasedOnce (ev : List HeapEvent) : Prop :=
  ∀ p, HeapEvent.alloc p ∈ ev → ev.count (.free p) = 1

def freed (ev : List HeapEvent) : List Nat :=
  ev.filterMap fun e => match e with
    | .alloc _ => none
    | .free p => some p

@[simp] theorem freed_nil : freed [] = [] := rfl

@[simp] theorem freed_alloc (p : Nat) (ev : List HeapEvent) :
    freed (.alloc p :: ev) = freed ev := rfl

@[simp] theorem freed_free (p : Nat) (ev : List HeapEvent) :
    freed (.free p :: ev) = p :: freed ev := rfl

@[simp] theorem freed_append (ev ev' : List HeapEvent) :
    freed (ev ++ ev') = freed ev ++ freed ev' := List.filterMap_append

theorem count_free (ev : List HeapEvent) (p : Nat) :
    ev.count (.free p) = (freed ev).count p := by
  induction ev with
  | nil => rfl
  | cons e ev ih =>
      cases e with
      | alloc q =>
          rw [freed_alloc, List.count_cons_of_ne (by simp), ih]
      | free q =>
          rcases eq_or_ne q p with rfl | hne
          · rw [freed_free, List.count_cons_self, List.count_cons_self, ih]
          · rw [freed_free, List.count_cons_of_ne (by simpa using hne), List.count_cons_of_ne hne,
              ih]

theorem ReleasedOnce.of_nodup {ev : List HeapEvent} (hnd : (freed ev).Nodup)
    (hall : ∀ p, HeapEvent.alloc p ∈ ev → p ∈ freed ev) : ReleasedOnce ev := by
  intro p hp
  rw [count_free, List.count_eq_one_of_mem hnd (hall p hp)]

theorem not_releasedOnce {ev : List HeapEvent} {p : Nat} (hp : HeapEvent.alloc p ∈ ev)
    (hkept : p ∉ freed ev) : ¬ ReleasedOnce ev := by
  intro h
  have hone := h p hp
  rw [count_free, List.count_eq_zero_of_not_mem hkept] at hone
  cases hone

/-! ## Code and its events

The rules, in the order in which a proof applies them: sequence, code that
is quiet, and the two calls of the allocator. -/

section

variable {σ α β : Type}

/-- `Q` holds of the result, the state and the events of code run in `s`. -/
def Emits (x : Prog (System σ) α) (s : System σ) (Q : α → System σ → List HeapEvent → Prop) :
    Prop :=
  ∃ ev, (x s).2.log = s.log ++ ev ∧ Q (x s).1 (x s).2 ev

variable {s : System σ} {Q Q' : α → System σ → List HeapEvent → Prop}

theorem Emits.mono {x : Prog (System σ) α} (h : Emits x s Q)
    (hq : ∀ a s' ev, Q a s' ev → Q' a s' ev) : Emits x s Q' := by
  obtain ⟨ev, hlog, hq'⟩ := h
  exact ⟨ev, hlog, hq _ _ _ hq'⟩

theorem Emits.result {x : Prog (System σ) α} (h : Emits x s Q) :
    Emits x s fun a s' ev => a = (x s).1 ∧ Q a s' ev := by
  obtain ⟨ev, hlog, hq⟩ := h
  exact ⟨ev, hlog, rfl, hq⟩

theorem Emits.pure {a : α} (h : Q a s []) : Emits (pure a) s Q :=
  ⟨[], (List.append_nil _).symm, h⟩

theorem Emits.bind {x : Prog (System σ) α} {f : α → Prog (System σ) β}
    {R : β → System σ → List HeapEvent → Prop} (hx : Emits x s Q)
    (hf : ∀ a s' ev, Q a s' ev → Emits (f a) s' fun b s'' ev' => R b s'' (ev ++ ev')) :
    Emits (x >>= f) s R := by
  obtain ⟨ev, hlog, hq⟩ := hx
  obtain ⟨ev', hlog', hr⟩ := hf _ _ _ hq
  refine ⟨ev ++ ev', ?_, hr⟩
  rw [Prog.run_bind, hlog', hlog, List.append_assoc]

/-- Code that leaves the allocator alone. -/
def Quiet (x : Prog (System σ) α) : Prop :=
  ∀ s, (x s).2.log = s.log ∧ (x s).2.mallocs = s.mallocs

theorem Quiet.emits {x : Prog (System σ) α} (h : Quiet x) (s : System σ) :
    Emits x s fun a s' ev => a = (x s).1 ∧ ev = [] ∧ s'.mallocs = s.mallocs :=
  ⟨[], by rw [(h s).1, List.append_nil], rfl, rfl, (h s).2⟩

theorem Quiet.pure (a : α) : Quiet (pure a : Prog (System σ) α) := fun _ => ⟨rfl, rfl⟩

theorem Quiet.bind {x : Prog (System σ) α} {f : α → Prog (System σ) β} (hx : Quiet x)
    (hf : ∀ a, Quiet (f a)) : Quiet (x >>= f) := by
  intro s
  rw [Prog.run_bind, (hf _ _).1, (hf _ _).2]
  exact hx s

theorem quiet_onFs (x : Prog (Kernel σ) α) : Quiet (onFs x) := fun _ => ⟨rfl, rfl⟩

theorem emits_kfree (p : Nat) (s : System σ) :
    Emits (kfreeCall p) s fun _ s' ev => ev = [.free p] ∧ s'.mallocs = s.mallocs :=
  ⟨_, rfl, rfl, rfl⟩

variable (m : Machine σ)

theorem emits_kmalloc (n : Nat) (s : System σ) :
    Emits (kmallocCall m n) s fun p s' ev => s'.mallocs = s.mallocs + 1
      ∧ ((m.mallocOk s.mallocs = false ∧ p = 0 ∧ ev = [])
        ∨ (m.mallocOk s.mallocs = true ∧ p = s.mallocs + 1 ∧ ev = [.alloc (s.mallocs + 1)])) := by
  cases h : m.mallocOk s.mallocs with
  | false => exact ⟨[], by simp [kmallocCall, h], by simp [kmallocCall, h]⟩
  | true => exact ⟨[.alloc (s.mallocs + 1)], by simp [kmallocCall, h], by simp [kmallocCall, h]⟩

/-! ## The loader

The loader takes one pointer, and gives it back when it fails. -/

theorem chunkRounds_quiet (fd size n total : Nat) (image : Buf) :
    Quiet (chunkRounds m fd size n total image) := by
  induction n generalizing total image with
  | zero => exact Quiet.pure _
  | succ n ih =>
      unfold chunkRounds
      split
      · refine (quiet_onFs _).bind fun r => ?_
        dsimp only
        split
        · exact Quiet.pure _
        · exact Quiet.pure _
        · exact ih _ _
      · exact Quiet.pure _

theorem readChunks_quiet (fd size : Nat) (image : Buf) : Quiet (readChunks m fd size image) :=
  fun s => chunkRounds_quiet m fd size (size + 1) 0 image s

theorem loadIpobFile_emits (path : CString) (s : System σ) :
    Emits (loadIpobFile m path) s fun r s' ev =>
      (r.1 < 0 ∧ (ev = [] ∨ ev = [.alloc (s.mallocs + 1), .free (s.mallocs + 1)]))
      ∨ (0 ≤ r.1 ∧ r.2.1 = s.mallocs + 1 ∧ ev = [.alloc (s.mallocs + 1)]
        ∧ s'.mallocs = s.mallocs + 1) := by
  unfold loadIpobFile
  have hneg : (-1 : Int) < 0 := by decide
  refine ((quiet_onFs _).emits s).bind ?_
  rintro stat s₁ ev ⟨-, rfl, hm₁⟩
  split
  · exact Emits.pure (Or.inl ⟨hneg, Or.inl rfl⟩)
  · split
    · exact Emits.pure (Or.inl ⟨hneg, Or.inl rfl⟩)
    split
    · exact Emits.pure (Or.inl ⟨hneg, Or.inl rfl⟩)
    split
    · exact Emits.pure (Or.inl ⟨hneg, Or.inl rfl⟩)
    refine (emits_kmalloc m _ s₁).bind ?_
    rw [hm₁]
    rintro image s₂ ev ⟨hm₂, ⟨-, rfl, rfl⟩ | ⟨-, rfl, rfl⟩⟩
    · exact Emits.pure (Or.inl ⟨(by decide : (-3 : Int) < 0), Or.inl rfl⟩)
    rw [if_neg (Nat.succ_ne_zero _)]
    -- a failure from here on gives the buffer back
    have hback : ∀ (code : Int) (s₃ : System σ), code < 0 →
        Emits (do
          kfreeCall (s.mallocs + 1)
          pure (code, 0, m.fresh) : Prog (System σ) (Int × Nat × Buf)) s₃ fun r _ ev =>
            r.1 < 0 ∧ ev = [.free (s.mallocs + 1)] := by
      intro code s₃ hcode
      refine (emits_kfree _ s₃).bind ?_
      rintro _ s₄ ev ⟨rfl, -⟩
      exact Emits.pure ⟨hcode, rfl⟩
    have hlift : ∀ {x : Prog (System σ) (Int × Nat × Buf)} {s₃ : System σ},
        Emits x s₃ (fun r _ ev => r.1 < 0 ∧ ev = [.free (s.mallocs + 1)]) →
        Emits x s₃ fun r s' ev => (r.1 < 0 ∧ ([.alloc (s.mallocs + 1)] ++ ev = []
            ∨ [.alloc (s.mallocs + 1)] ++ ev = [.alloc (s.mallocs + 1), .free (s.mallocs + 1)]))
          ∨ (0 ≤ r.1 ∧ r.2.1 = s.mallocs + 1
            ∧ [.alloc (s.mallocs + 1)] ++ ev = [.alloc (s.mallocs + 1)]
            ∧ s'.mallocs = s.mallocs + 1) := by
      intro x s₃ h
      refine h.mono ?_
      rintro r s' ev ⟨hr, rfl⟩
      exact Or.inl ⟨hr, Or.inr rfl⟩
    refine ((quiet_onFs _).emits s₂).bind ?_
    rintro fd s₃ ev ⟨-, rfl, hm₃⟩
    split
    · exact hlift (hback _ _ (by decide))
    refine ((readChunks_quiet m _ _ _).emits s₃).bind ?_
    rintro r s₄ ev ⟨-, rfl, hm₄⟩
    split
    · exact hlift (hback _ _ (by decide))
    split
    · exact hlift (hback _ _ (by decide))
    split
    · exact hlift (hback _ _ (by decide))
    exact Emits.pure (Or.inr ⟨Int.natCast_nonneg _, rfl, rfl, by rw [hm₄, hm₃, hm₂]⟩)

/-! ## The arguments

The array and the strings. `ArgsFail` is the refusal after which they are
lost. -/

/-- Among the `n` arguments from index `i` on, a copy is refused: the allocator's
calls start at `c`, and the arguments up to that one are not `NULL`. -/
def CopyFails (argv : Nat → Option Str) (n i c : Nat) : Prop :=
  ∃ k, k < n ∧ (∀ j, j ≤ k → (argv (i + j)).isSome) ∧ m.mallocOk (c + k) = false

omit Q Q' in
theorem copyFails_succ {argv : Nat → Option Str} {n i c : Nat} {arg : Str}
    (h : argv i = some arg) (hok : m.mallocOk c = true) :
    CopyFails m argv (n + 1) i c ↔ CopyFails m argv n (i + 1) (c + 1) := by
  constructor
  · rintro ⟨k, hk, hall, hfail⟩
    cases k with
    | zero => rw [Nat.add_zero, hok] at hfail; cases hfail
    | succ k =>
        refine ⟨k, by omega, fun j hj => ?_, ?_⟩
        · have hj' := hall (j + 1) (by omega)
          rwa [show i + (j + 1) = i + 1 + j by omega] at hj'
        · rwa [show c + (k + 1) = c + 1 + k by omega] at hfail
  · rintro ⟨k, hk, hall, hfail⟩
    refine ⟨k + 1, by omega, fun j hj => ?_, ?_⟩
    · cases j with
      | zero => rw [Nat.add_zero, h]; rfl
      | succ j =>
          have hj' := hall j (by omega)
          rwa [show i + 1 + j = i + (j + 1) by omega] at hj'
    · rwa [show c + (k + 1) = c + 1 + k by omega]

/-- The argument loop: every copy is an allocation of its own, or one is refused and
the copies before it are left. -/
theorem copyArguments_emits (argv : Nat → Option Str) (n i : Nat) (acc : List (Nat × Str))
    (s : System σ) :
    Emits (copyArguments m argv n i acc) s fun r _ ev =>
      (¬ CopyFails m argv n i s.mallocs ∧ ∃ copies, r = some (acc ++ copies)
        ∧ copies.length ≤ n ∧ copies.map Prod.fst = List.range' (s.mallocs + 1) copies.length
        ∧ ev = (copies.map Prod.fst).map .alloc)
      ∨ (CopyFails m argv n i s.mallocs ∧ r = none ∧ freed ev = []) := by
  induction n generalizing i acc s with
  | zero =>
      refine Emits.pure (Or.inl ⟨?_, [], by rw [List.append_nil], Nat.zero_le _, rfl, rfl⟩)
      rintro ⟨k, hk, -⟩
      omega
  | succ n ih =>
      unfold copyArguments
      split
      · rename_i hnone
        refine Emits.pure (Or.inl ⟨?_, [], by rw [List.append_nil], Nat.zero_le _, rfl, rfl⟩)
        rintro ⟨k, -, hall, -⟩
        have h0 := hall 0 (Nat.zero_le k)
        rw [Nat.add_zero, hnone] at h0
        cases h0
      · rename_i arg harg
        refine (emits_kmalloc m _ s).bind ?_
        rintro p s₁ ev ⟨hm₁, ⟨hok, rfl, rfl⟩ | ⟨hok, rfl, rfl⟩⟩
        · refine Emits.pure (Or.inr ⟨⟨0, by omega, fun j hj => ?_, hok⟩, rfl, rfl⟩)
          rw [Nat.le_zero.mp hj, Nat.add_zero, harg]
          rfl
        · rw [if_neg (Nat.succ_ne_zero _), copyFails_succ m harg hok]
          refine (ih (i + 1) _ s₁).mono ?_
          rw [hm₁]
          rintro r s₂ ev (⟨hno, copies, rfl, hlen, hptr, rfl⟩ | ⟨hf, rfl, hev⟩)
          · refine Or.inl ⟨hno, (s.mallocs + 1, arg) :: copies, ?_, Nat.succ_le_succ hlen, ?_, rfl⟩
            · rw [List.append_assoc]
              rfl
            · rw [List.map_cons, hptr, List.length_cons, List.range'_succ]
          · exact Or.inr ⟨hf, rfl, hev⟩

/-- A copy of an argument string is refused, in a call of `setup_arguments` that the
allocator's call `c` starts. -/
def ArgsFail (argc : Int) (argv : Option (Nat → Option Str)) (c : Nat) : Prop :=
  ∃ a, argv = some a ∧ argc ≠ 0 ∧ m.mallocOk c = true
    ∧ CopyFails m a (limitArgc argc).toNat 0 (c + 1)

/-- What `setup_arguments` leaves in the process on success. -/
def ArgsReady (proc proc' : Process) (c : Nat) (ev : List HeapEvent) : Prop :=
  proc'.binaryBase = proc.binaryBase
    ∧ ((proc'.argvKernel = proc.argvKernel ∧ ev = [])
      ∨ (proc'.argvKernel = c + 1 ∧ proc'.argc.toNat = proc'.argv.length
        ∧ proc'.argv.map Prod.fst = List.range' (c + 2) proc'.argv.length
        ∧ ev = .alloc (c + 1) :: (proc'.argv.map Prod.fst).map .alloc))

theorem setupArguments_emits (proc : Process) (argc : Int) (argv : Option (Nat → Option Str))
    (s : System σ) :
    Emits (setupArguments m proc argc argv) s fun r _ ev =>
      (¬ ArgsFail m argc argv s.mallocs ∧ ((r = none ∧ ev = [])
        ∨ ∃ proc', r = some proc' ∧ ArgsReady proc proc' s.mallocs ev))
      ∨ (ArgsFail m argc argv s.mallocs ∧ r = none
        ∧ ∃ ev', ev = .alloc (s.mallocs + 1) :: ev' ∧ freed ev' = []) := by
  unfold setupArguments
  cases argv with
  | none =>
      refine Emits.pure (Or.inl ⟨?_, Or.inr ⟨_, rfl, rfl, Or.inl ⟨rfl, rfl⟩⟩⟩)
      rintro ⟨a, ha, -⟩
      cases ha
  | some a =>
      dsimp only
      split
      · rename_i h0
        refine Emits.pure (Or.inl ⟨?_, Or.inr ⟨_, rfl, rfl, Or.inl ⟨rfl, rfl⟩⟩⟩)
        rintro ⟨-, -, hne, -⟩
        exact hne h0
      · rename_i h0
        refine (emits_kmalloc m _ s).bind ?_
        rintro p s₁ ev ⟨hm₁, ⟨hok, rfl, rfl⟩ | ⟨hok, rfl, rfl⟩⟩
        · refine Emits.pure (Or.inl ⟨?_, Or.inl ⟨rfl, rfl⟩⟩)
          rintro ⟨-, -, -, hok', -⟩
          rw [hok] at hok'
          cases hok'
        · rw [if_neg (Nat.succ_ne_zero _)]
          have hfail : ArgsFail m argc (some a) s.mallocs
              ↔ CopyFails m a (limitArgc argc).toNat 0 (s.mallocs + 1) := by
            constructor
            · rintro ⟨a', ha, -, -, hf⟩
              cases ha
              exact hf
            · exact fun hf => ⟨a, rfl, h0, hok, hf⟩
          refine (copyArguments_emits m a _ 0 [] s₁).bind ?_
          rw [hm₁, ← hfail]
          rintro r s₂ ev (⟨hno, copies, rfl, hlen, hptr, rfl⟩ | ⟨hf, rfl, hev⟩)
          · refine Emits.pure (Or.inl ⟨hno, Or.inr ⟨_, rfl, rfl, Or.inr ⟨rfl, ?_, hptr, ?_⟩⟩⟩)
            · show (if argc < 0 then argc else (copies.length : Int)).toNat = copies.length
              split
              · rename_i hneg
                unfold limitArgc at hlen
                omega
              · exact Int.toNat_natCast _
            · rw [List.append_nil]
              rfl
          · refine Emits.pure (Or.inr ⟨hf, rfl, ev, ?_, hev⟩)
            rw [List.append_nil]
            rfl

/-! ## Cleaning up

What `process_cleanup` frees is what the process says it has. -/

omit Q Q' in
theorem freeArguments_emits (l : List (Nat × Str)) (hne : ∀ p ∈ l.map Prod.fst, p ≠ 0)
    (s : System σ) :
    Emits (freeArguments l.length l) s fun _ _ ev => ev = (l.map Prod.fst).map .free := by
  induction l generalizing s with
  | nil => exact Emits.pure rfl
  | cons e l ih =>
      obtain ⟨p, arg⟩ := e
      have hp : p ≠ 0 := hne p List.mem_cons_self
      rw [List.length_cons]
      unfold freeArguments
      simp only [hp, ne_eq, not_false_eq_true, if_true]
      refine (emits_kfree p s).bind ?_
      rintro _ s₁ ev ⟨rfl, -⟩
      refine (ih (fun q hq => hne q (List.mem_cons_of_mem _ hq)) s₁).mono ?_
      rintro _ _ ev rfl
      rfl

/-- What `process_cleanup` gives back. -/
def cleanupEvents (procPtr : Nat) (proc : Process) : List HeapEvent :=
  (if proc.binaryBase ≠ 0 then [.free proc.binaryBase] else [])
    ++ (if proc.argvKernel ≠ 0 then
        (proc.argv.map Prod.fst).map .free ++ [.free proc.argvKernel] else [])
    ++ [.free procPtr]

theorem processCleanup_emits (procPtr : Nat) (proc : Process)
    (hargs : proc.argvKernel ≠ 0 → proc.argc.toNat = proc.argv.length
      ∧ ∀ p ∈ proc.argv.map Prod.fst, p ≠ 0) (s : System σ) :
    Emits (processCleanup procPtr proc) s fun _ _ ev => ev = cleanupEvents procPtr proc := by
  have hbase : ∀ (s : System σ), Emits (freeBinary proc) s fun _ _ ev =>
      ev = if proc.binaryBase ≠ 0 then [.free proc.binaryBase] else [] := by
    intro s
    unfold freeBinary
    split
    · exact (emits_kfree _ s).mono fun _ _ ev h => h.1
    · exact Emits.pure rfl
  have hargv : ∀ (s : System σ), Emits (freeArgv proc) s fun _ _ ev =>
      ev = if proc.argvKernel ≠ 0 then
        (proc.argv.map Prod.fst).map .free ++ [.free proc.argvKernel] else [] := by
    intro s
    unfold freeArgv
    split
    · rename_i hne
      obtain ⟨hlen, hptr⟩ := hargs hne
      rw [hlen]
      refine (freeArguments_emits _ hptr s).bind ?_
      rintro _ s₁ ev rfl
      refine (emits_kfree _ s₁).mono ?_
      rintro _ _ ev ⟨rfl, -⟩
      rfl
    · exact Emits.pure rfl
  unfold processCleanup cleanupEvents
  refine (hbase s).bind ?_
  rintro _ s₁ ev rfl
  refine (hargv s₁).bind ?_
  rintro _ s₂ ev rfl
  have hlist : Quiet (modifySystem fun s : System σ =>
      { s with processList := s.processList.erase procPtr }) := fun _ => ⟨rfl, rfl⟩
  refine (hlist.emits s₂).bind ?_
  rintro _ s₃ ev ⟨-, rfl, -⟩
  refine (emits_kfree procPtr s₃).mono ?_
  rintro _ _ ev ⟨rfl, -⟩
  rw [List.append_assoc]
  rfl

theorem runProcess_emits (procPtr : Nat) (proc : Process) (image : Buf) (size : Nat)
    (s : System σ) :
    Emits (runProcess m procPtr proc image size) s fun _ _ ev => ev = [] :=
  ⟨[], (List.append_nil _).symm, rfl⟩

/-! ## The launch

The events of a launch on each path, and whether they are balanced. -/

omit Q Q' in
@[simp] theorem freed_map_free (l : List Nat) : freed (l.map .free) = l := by
  induction l with
  | nil => rfl
  | cons p l ih => rw [List.map_cons, freed_free, ih]

omit Q Q' in
@[simp] theorem freed_map_alloc (l : List Nat) : freed (l.map .alloc) = [] := by
  induction l with
  | nil => rfl
  | cons p l ih => rw [List.map_cons, freed_alloc, ih]

/-- The events of a launch that got as far as the arguments: the pointers of the
structure, the image, the copy of it, the argument array and the strings. -/
def launchEvents (p : Nat) (n : Nat) : List HeapEvent :=
  .alloc p :: .alloc (p + 1) :: .alloc (p + 2) :: .free (p + 1) :: .alloc (p + 3)
    :: ((List.range' (p + 4) n).map .alloc ++ .free (p + 2)
      :: ((List.range' (p + 4) n).map .free ++ [.free (p + 3), .free p]))

omit Q Q' in
theorem launchEvents_released (p : Nat) (n : Nat) : ReleasedOnce (launchEvents p n) := by
  refine ReleasedOnce.of_nodup ?_ ?_
  · simp only [launchEvents, freed_alloc, freed_free, freed_append, freed_map_alloc,
      freed_map_free, freed_nil, List.nil_append]
    simp [List.nodup_cons, List.nodup_append, List.nodup_range', List.mem_range'_1]
    intro q h1 h2
    omega
  · intro q hq
    simp only [launchEvents, freed_alloc, freed_free, freed_append, freed_map_alloc,
      freed_map_free, freed_nil, List.nil_append]
    simp [launchEvents] at hq
    simp [List.mem_range'_1]
    omega

/-- A launch gives back what it took unless the loader succeeds, the target is allocated, and a
copy of an argument string is refused then. -/
theorem launch_emits (proc : Process) (h0 : proc.binaryBase = 0) (h0' : proc.argvKernel = 0)
    (path : CString) (argc : Int) (argv : Option (Nat → Option Str)) (s : System σ) :
    Emits (launch m s.mallocs proc path argc argv) s fun _ _ ev =>
      ReleasedOnce (.alloc s.mallocs :: ev) ↔ ¬ (0 ≤ (loadIpobFile m path s).1.1
        ∧ m.mallocOk (s.mallocs + 1) = true ∧ ArgsFail m argc argv (s.mallocs + 2)) := by
  -- cleaning up before there are arguments
  have hclean : ∀ (base : Nat) (proc' : Process), proc'.binaryBase = base →
      proc'.argvKernel = 0 →
          ∀ s' : System σ, Emits (processCleanup s.mallocs proc') s' fun _ _ ev =>
        ev = (if base ≠ 0 then [.free base] else []) ++ [.free s.mallocs] := by
    intro base proc' hb ha s'
    refine (processCleanup_emits s.mallocs proc' (fun h => absurd ha h) s').mono ?_
    rintro _ _ ev rfl
    simp [cleanupEvents, hb, ha]
  unfold launch
  refine (loadIpobFile_emits m path s).result.bind ?_
  rintro r s₁ ev ⟨hr, ⟨hneg, hev⟩ | ⟨hpos, himg, rfl, hm₁⟩⟩
  · have hno : ¬ (0 ≤ (loadIpobFile m path s).1.1 ∧ m.mallocOk (s.mallocs + 1) = true
        ∧ ArgsFail m argc argv (s.mallocs + 2)) := by
      rintro ⟨hload, -⟩
      rw [← hr] at hload
      omega
    dsimp only
    rw [if_pos hneg]
    refine (hclean 0 proc h0 h0' s₁).bind ?_
    rintro _ s₂ ev' rfl
    refine Emits.pure ((iff_true_right hno).mpr ?_)
    rcases hev with rfl | rfl
    · exact ReleasedOnce.of_nodup (by simp) (by simp)
    · exact ReleasedOnce.of_nodup (by simp) (by simp)
  -- the file is loaded
  dsimp only
  rw [if_neg (by omega : ¬ r.1 < 0), himg]
  refine (emits_kmalloc m _ s₁).bind ?_
  rw [hm₁]
  rintro target s₂ ev ⟨hm₂, ⟨hok, rfl, rfl⟩ | ⟨hok, rfl, rfl⟩⟩
  · have hno : ¬ (0 ≤ (loadIpobFile m path s).1.1 ∧ m.mallocOk (s.mallocs + 1) = true
        ∧ ArgsFail m argc argv (s.mallocs + 2)) := by
      rintro ⟨-, hok', -⟩
      rw [hok] at hok'
      cases hok'
    rw [if_pos rfl]
    refine (emits_kfree _ s₂).bind ?_
    rintro _ s₃ ev ⟨rfl, -⟩
    refine (hclean 0 proc h0 h0' s₃).bind ?_
    rintro _ s₄ ev rfl
    refine Emits.pure ((iff_true_right hno).mpr ?_)
    exact ReleasedOnce.of_nodup (by simp) (by simp)
  -- and there is memory for the program
  have hfails : (0 ≤ (loadIpobFile m path s).1.1 ∧ m.mallocOk (s.mallocs + 1) = true
      ∧ ArgsFail m argc argv (s.mallocs + 2)) ↔ ArgsFail m argc argv (s.mallocs + 2) := by
    constructor
    · exact fun h => h.2.2
    · exact fun h => ⟨hr ▸ hpos, hok, h⟩
  have hrel : ¬ relocateBinary < 0 := by decide
  rw [hfails, if_neg (Nat.succ_ne_zero _), if_neg hrel]
  refine (emits_kfree _ s₂).bind ?_
  rintro _ s₃ ev ⟨rfl, hm₃⟩
  refine (setupArguments_emits m _ argc argv s₃).bind ?_
  rw [hm₃, hm₂]
  rintro ready s₄ ev (⟨hno, ⟨rfl, rfl⟩ | ⟨proc', rfl, hbase, ⟨ha, rfl⟩ | ⟨ha, hlen, hptr, rfl⟩⟩⟩
    | ⟨hf, rfl, ev, rfl, hev⟩)
  · refine (hclean (s.mallocs + 2) { proc with binaryBase := s.mallocs + 1 + 1 } rfl h0' s₄).bind ?_
    rintro _ s₅ ev rfl
    refine Emits.pure ((iff_true_right hno).mpr ?_)
    exact ReleasedOnce.of_nodup (by simp) (by simp)
  · refine (runProcess_emits m _ _ _ _ s₄).bind ?_
    rintro _ s₅ ev rfl
    refine (hclean (s.mallocs + 2) proc' hbase (ha.trans h0') s₅).bind ?_
    rintro _ s₆ ev rfl
    refine Emits.pure ((iff_true_right hno).mpr ?_)
    exact ReleasedOnce.of_nodup (by simp) (by simp)
  · refine (runProcess_emits m _ _ _ _ s₄).bind ?_
    rintro _ s₅ ev rfl
    have hne : ∀ p ∈ proc'.argv.map Prod.fst, p ≠ 0 := by
      rw [hptr]
      intro p hp
      rw [List.mem_range'_1] at hp
      omega
    refine (processCleanup_emits s.mallocs proc' (fun _ => ⟨hlen, hne⟩) s₅).bind ?_
    rintro _ s₆ ev rfl
    refine Emits.pure ((iff_true_right hno).mpr ?_)
    have hevents := launchEvents_released s.mallocs proc'.argv.length
    have hne₁ : s.mallocs + 1 + 1 ≠ 0 := Nat.succ_ne_zero _
    have hne₂ : s.mallocs + 2 + 1 ≠ 0 := Nat.succ_ne_zero _
    simp only [cleanupEvents, hbase, ha, hptr, if_pos hne₁, if_pos hne₂]
    simpa [launchEvents, List.append_assoc] using hevents
  · refine (hclean (s.mallocs + 2) { proc with binaryBase := s.mallocs + 1 + 1 } rfl h0' s₄).bind ?_
    rintro _ s₅ ev' rfl
    refine Emits.pure (iff_of_false ?_ (not_not_intro hf))
    refine not_releasedOnce (p := s.mallocs + 3) (by simp) ?_
    simp [hev]

end

/-- The smallest image that loads: the magic and an entry offset of 0. -/
def smallImage : Buf := cstr [73, 80, 79, 95, 66]

/-- The system with `/autorun` holding such an image. -/
def imageSystem : System Disk where
  fs := (ipoFsWrite (diskDev Buf.zero) 0 smallImage 20 0 openedKernel).2
  mallocs := 0
  log := []
  nextPid := 1
  processList := []
  currentProcess := 0
  lastExitCode := 0

end IpoOs
