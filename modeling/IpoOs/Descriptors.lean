import IpoOs.Command
import IpoOs.FsImage
import Mathlib.Data.Finset.Card

/-!
# The descriptor table

No function of the file system clears a used flag: `ipo_fs_open` sets the
flag of the lowest unused slot, and nothing gives a slot back. `Takes n f g`
says that `n` slots were taken that way, and `Opens` is the rule-based way
to count the slots that code takes, given what it returns.

The rules of `Opens` follow the code: a sequence takes what its parts take,
and code that leaves the table alone takes nothing. The bound of a loop is a
count of its rounds that call `ipo_fs_open`, so the bound for a command line
and for the autorun file comes out of the text that is executed.
-/

namespace IpoOs

/-- The lowest unused one of the 32 slots is taken. -/
def TakesSlot (f g : Nat → Bool) : Prop :=
  ∃ i, i < 32 ∧ (∀ j, j < i → f j = true) ∧ f i = false ∧ g = fun j => if j = i then true else f j

/-- `n` slots are taken, each the lowest unused one at the time. -/
def Takes : Nat → (Nat → Bool) → (Nat → Bool) → Prop
  | 0, f, g => g = f
  | n + 1, f, g => ∃ h, Takes n f h ∧ TakesSlot h g

theorem Takes.add {m n : Nat} {f g h : Nat → Bool} (hm : Takes m f g) (hn : Takes n g h) :
    Takes (m + n) f h := by
  induction n generalizing h with
  | zero => exact hn ▸ hm
  | succ n ih =>
      obtain ⟨e, he, hslot⟩ := hn
      exact ⟨e, ih he, hslot⟩

theorem Takes.one {f g : Nat → Bool} (h : TakesSlot f g) : Takes 1 f g := ⟨f, rfl, h⟩

theorem Takes.kept {n : Nat} {f g : Nat → Bool} (h : Takes n f g) {i : Nat} (hi : f i = true) :
    g i = true := by
  induction n generalizing g with
  | zero => exact h ▸ hi
  | succ n ih =>
      obtain ⟨e, he, i', -, -, -, rfl⟩ := h
      show (if i = i' then true else e i) = true
      rw [ih he, ite_self]

def usedCount (f : Nat → Bool) : Nat := ((Finset.range 32).filter fun i => f i = true).card

theorem TakesSlot.usedCount {f g : Nat → Bool} (h : TakesSlot f g) :
    IpoOs.usedCount g = IpoOs.usedCount f + 1 := by
  obtain ⟨i, hi, -, hfree, rfl⟩ := h
  have hins : (Finset.range 32).filter (fun j => (if j = i then true else f j) = true)
      = insert i ((Finset.range 32).filter fun j => f j = true) := by
    ext j
    rcases em (j = i) with rfl | hne
    · simp [hi]
    · simp [hne]
  have hnot : i ∉ (Finset.range 32).filter fun j => f j = true := by
    intro hmem
    rw [Finset.mem_filter, hfree] at hmem
    cases hmem.2
  rw [IpoOs.usedCount, hins, Finset.card_insert_of_notMem hnot, IpoOs.usedCount]

theorem Takes.usedCount {n : Nat} {f g : Nat → Bool} (h : Takes n f g) :
    IpoOs.usedCount g = IpoOs.usedCount f + n := by
  induction n generalizing g with
  | zero => rw [show g = f from h, Nat.add_zero]
  | succ n ih =>
      obtain ⟨e, he, hslot⟩ := h
      rw [hslot.usedCount, ih he, Nat.add_assoc]

/-! ## Counting slots

The rules, for code over any state with used flags in it. -/

section

variable {S α β : Type} (flags : S → Nat → Bool)

/-- Code run in `s` takes `n` slots, where `Q` relates its result and `n`. -/
def Opens (x : Prog S α) (s : S) (Q : α → Nat → Prop) : Prop :=
  ∃ n, Takes n (flags s) (flags (x s).2) ∧ Q (x s).1 n

/-- Code that leaves the table alone. -/
def KeepsTable (x : Prog S α) : Prop := ∀ s, flags (x s).2 = flags s

variable {flags} {s : S} {Q Q' : α → Nat → Prop}

theorem Opens.mono {x : Prog S α} (h : Opens flags x s Q) (hq : ∀ a n, Q a n → Q' a n) :
    Opens flags x s Q' := by
  obtain ⟨n, htake, hq'⟩ := h
  exact ⟨n, htake, hq _ _ hq'⟩

theorem Opens.pure {a : α} (h : Q a 0) : Opens flags (pure a) s Q := ⟨0, rfl, h⟩

theorem Opens.bind {x : Prog S α} {f : α → Prog S β} {R : β → Nat → Prop}
    (hx : Opens flags x s Q)
    (hf : ∀ a n s', Q a n → Opens flags (f a) s' fun b n' => R b (n + n')) :
    Opens flags (x >>= f) s R := by
  obtain ⟨n, htake, hq⟩ := hx
  obtain ⟨n', htake', hr⟩ := hf _ _ (x s).2 hq
  exact ⟨n + n', htake.add htake', hr⟩

theorem KeepsTable.opens {x : Prog S α} (h : KeepsTable flags x) (s : S) :
    Opens flags x s fun _ n => n = 0 := ⟨0, h s, rfl⟩

theorem KeepsTable.opens_bind {x : Prog S α} {f : α → Prog S β} {R : β → Nat → Prop}
    (h : KeepsTable flags x) (hf : ∀ a s', Opens flags (f a) s' R) :
    Opens flags (x >>= f) s R := by
  refine (h.opens s).bind ?_
  rintro a n s' rfl
  refine (hf a s').mono fun b n' hr => ?_
  rwa [Nat.zero_add]

theorem KeepsTable.opens_of_bind {x : Prog S α} {f : α → Prog S β} {R : β → Nat → Prop}
    (h : KeepsTable flags x)
    (hf : flags (x s).2 = flags s → Opens flags (f (x s).1) (x s).2 R) :
    Opens flags (x >>= f) s R := by
  obtain ⟨n, htake, hr⟩ := hf (h s)
  exact ⟨n, h s ▸ htake, hr⟩

theorem KeepsTable.pure (a : α) : KeepsTable flags (pure a : Prog S α) := fun _ => rfl

theorem KeepsTable.bind {x : Prog S α} {f : α → Prog S β} (hx : KeepsTable flags x)
    (hf : ∀ a, KeepsTable flags (f a)) : KeepsTable flags (x >>= f) := by
  intro s
  rw [Prog.run_bind, hf, hx]

theorem Opens.then_keeps {x : Prog S α} {f : α → Prog S β} {R : β → Nat → Prop}
    (hx : Opens flags x s Q) (hf : ∀ a, KeepsTable flags (f a))
    (hr : ∀ a n s', Q a n → R (f a s').1 n) : Opens flags (x >>= f) s R := by
  obtain ⟨n, htake, hq⟩ := hx
  refine ⟨n, ?_, hr _ _ _ hq⟩
  rw [Prog.run_bind, hf]
  exact htake

end

/-! ## The file system

`ipo_fs_open` and `ipo_fs_write_text` take a slot; nothing else does. -/

def Kernel.usedFlags {σ : Type} (k : Kernel σ) (i : Nat) : Bool := (k.fds i).used

section

variable {σ α : Type} (dev : UInt32 → BlockDev σ)

theorem withFs_keeps (f : BlockDev σ → Superblock → Prog σ α) :
    KeepsTable Kernel.usedFlags (withFs dev f) := fun _ => rfl

omit dev in
theorem Opens.getKernel {f : Kernel σ → Prog (Kernel σ) α} {k : Kernel σ} {R : α → Nat → Prop}
    (h : Opens Kernel.usedFlags (f k) k R) : Opens Kernel.usedFlags (getKernel >>= f) k R := h

theorem ifMounted_keeps {f : BlockDev σ → Superblock → Prog σ α} (a : α) :
    KeepsTable Kernel.usedFlags (do
      let k ← getKernel
      if ¬ k.fsMounted then pure a else withFs dev f : Prog (Kernel σ) α) := by
  intro k
  rcases em (k.fsMounted = true) with h | h
  · simp [getKernel, h]
    rfl
  · simp [getKernel, h]

theorem ipoFsStat_keeps (path : CString) :
    KeepsTable Kernel.usedFlags (ipoFsStat dev path) := ifMounted_keeps dev none

theorem ipoFsCreate_keeps (path : CString) (type : UInt8) :
    KeepsTable Kernel.usedFlags (ipoFsCreate dev path type) := ifMounted_keeps dev none

theorem ipoFsWrite_keeps (fd : Int) (buffer : Buf) (size offset : UInt32) :
    KeepsTable Kernel.usedFlags (ipoFsWrite dev fd buffer size offset) := by
  intro k
  unfold ipoFsWrite
  rw [Prog.run_bind, Prog.run_ite, Prog.run_ite]
  split
  · rfl
  split
  · rfl
  · rfl

theorem ipoFsRead_keeps (fd : Int) (buffer : Buf) (size offset : UInt32) :
    KeepsTable Kernel.usedFlags (ipoFsRead dev fd buffer size offset) := by
  intro k
  unfold ipoFsRead
  rw [Prog.run_bind, Prog.run_ite, Prog.run_ite]
  split
  · rfl
  split
  · rfl
  · rfl

theorem firstUnused_none {fds : Nat → Fd} {n i : Nat} (h : firstUnused fds n i = none) {j : Nat}
    (hi : i ≤ j) (hj : j < i + n) : (fds j).used = true := by
  induction n generalizing i with
  | zero => omega
  | succ n ih =>
      unfold firstUnused at h
      split at h
      · rename_i hused
        rcases Nat.eq_or_lt_of_le hi with rfl | hlt
        · exact hused
        · exact ih h hlt (by omega)
      · cases h

theorem firstUnused_some {fds : Nat → Fd} {n i r : Nat} (h : firstUnused fds n i = some r) :
    i ≤ r ∧ r < i + n ∧ (∀ j, i ≤ j → j < r → (fds j).used = true) ∧ (fds r).used = false := by
  induction n generalizing i with
  | zero => cases h
  | succ n ih =>
      unfold firstUnused at h
      split at h
      · rename_i hused
        obtain ⟨hle, hlt, hall, hfree⟩ := ih h
        refine ⟨by omega, by omega, fun j hj hjr => ?_, hfree⟩
        rcases Nat.eq_or_lt_of_le hj with rfl | hlt'
        · exact hused
        · exact hall j hlt' hjr
      · rename_i hfree
        obtain rfl := Option.some.inj h
        exact ⟨le_refl _, by omega, fun j hj hjr => by omega, by simpa using hfree⟩

/-- `ipo_fs_open` takes a slot when it succeeds and none when it fails. -/
theorem ipoFsOpen_opens (path : CString) (k : Kernel σ) :
    Opens Kernel.usedFlags (ipoFsOpen dev path) k fun r n =>
      (r = none ∧ n = 0) ∨ (r.isSome ∧ n = 1) := by
  unfold ipoFsOpen
  refine Opens.getKernel ?_
  split
  · exact Opens.pure (Or.inl ⟨rfl, rfl⟩)
  refine (withFs_keeps dev _).opens_of_bind ?_
  intro hflags
  split
  · exact Opens.pure (Or.inl ⟨rfl, rfl⟩)
  rename_i ino hino
  cases hfree : firstUnused k.fds 32 0 with
  | none => exact Opens.pure (Or.inl ⟨rfl, rfl⟩)
  | some i =>
      obtain ⟨-, hi, hused, hunused⟩ := firstUnused_some hfree
      refine ⟨1, Takes.one ⟨i, by omega, fun j hj => ?_, ?_, ?_⟩, Or.inr ⟨rfl, rfl⟩⟩
      · exact hused j (Nat.zero_le j) hj
      · exact hunused
      · funext j
        show (if j = i then (⟨true, ino, 0⟩ : Fd) else k.fds j).used = _
        rcases em (j = i) with h | h
        · exact (congrArg Fd.used (if_pos h)).trans (if_pos h).symm
        · exact (congrArg Fd.used (if_neg h)).trans (if_neg h).symm

/-- `ipo_fs_write_text` takes a slot when it succeeds, and at most one. -/
theorem ipoFsWriteText_opens (path text : CString) (append : Bool) (k : Kernel σ) :
    Opens Kernel.usedFlags (ipoFsWriteText dev path text append) k fun r n =>
      n ≤ 1 ∧ (r = true → n = 1) := by
  have hat : ∀ k : Kernel σ, Opens Kernel.usedFlags (writeTextAt dev path text append) k
      fun r n => n ≤ 1 ∧ (r = true → n = 1) := by
    intro k
    unfold writeTextAt
    refine (ipoFsStat_keeps dev path).opens_bind fun stat k => ?_
    split
    · exact Opens.pure ⟨Nat.zero_le _, fun h => by cases h⟩
    split
    · exact Opens.pure ⟨Nat.zero_le _, fun h => by cases h⟩
    refine (ipoFsOpen_opens dev path k).bind ?_
    rintro fd n k (⟨rfl, rfl⟩ | ⟨hsome, rfl⟩)
    · exact Opens.pure ⟨Nat.zero_le _, fun h => by cases h⟩
    obtain ⟨fd, rfl⟩ := Option.isSome_iff_exists.mp hsome
    refine (ipoFsWrite_keeps dev _ _ _ _).opens_bind fun written k => ?_
    exact Opens.pure ⟨Nat.le_refl 1, fun _ => rfl⟩
  unfold ipoFsWriteText
  refine Opens.getKernel ?_
  split
  · exact Opens.pure ⟨Nat.zero_le _, fun h => by cases h⟩
  refine (withFs_keeps dev _).opens_bind fun r k => ?_
  split
  · exact hat k
  refine (ipoFsCreate_keeps dev path typeFile).opens_bind fun r k => ?_
  split
  · exact Opens.pure ⟨Nat.zero_le _, fun h => by cases h⟩
  · exact hat k

end

/-! ## Launches

A launch opens its file once and leaves the slot taken. Programs are assumed
to leave the table alone, which is a hypothesis about the parameter that
stands for them. -/

/-- The used flags of the descriptor table of the system. -/
def System.usedFlags {σ : Type} (s : System σ) : Nat → Bool := s.fs.usedFlags

/-- The programs open no descriptor that is open when they return. -/
def Machine.ProgramsKeepTable {σ : Type} (m : Machine σ) : Prop :=
  ∀ l, KeepsTable System.usedFlags (m.program l)

section

variable {σ α : Type} (m : Machine σ)

theorem Opens.onFs {x : Prog (Kernel σ) α} {s : System σ} {Q : α → Nat → Prop}
    (h : Opens Kernel.usedFlags x s.fs Q) : Opens System.usedFlags (onFs x) s Q := h

theorem KeepsTable.onFs {x : Prog (Kernel σ) α} (h : KeepsTable Kernel.usedFlags x) :
    KeepsTable System.usedFlags (onFs x) := fun s => h s.fs

theorem kmallocCall_keeps (size : Nat) : KeepsTable System.usedFlags (kmallocCall m size) := by
  intro s
  unfold kmallocCall
  split <;> rfl

theorem kfreeCall_keeps (p : Nat) : KeepsTable (@System.usedFlags σ) (kfreeCall p) :=
  fun _ => rfl

theorem setupArguments_keeps (proc : Process) (argc : Int) (argv : Option (Nat → Option Str)) :
    KeepsTable System.usedFlags (setupArguments m proc argc argv) := by
  have hcopy : ∀ (a : Nat → Option Str) (n i : Nat) (acc : List (Nat × Str)),
      KeepsTable System.usedFlags (copyArguments m a n i acc) := by
    intro a n
    induction n with
    | zero => exact fun i acc => KeepsTable.pure _
    | succ n ih =>
        intro i acc
        unfold copyArguments
        split
        · exact KeepsTable.pure _
        refine (kmallocCall_keeps m _).bind fun p => ?_
        split
        · exact KeepsTable.pure _
        · exact ih _ _
  unfold setupArguments
  split
  · exact KeepsTable.pure _
  split
  · exact KeepsTable.pure _
  refine (kmallocCall_keeps m _).bind fun p => ?_
  split
  · exact KeepsTable.pure _
  refine (hcopy _ _ _ _).bind fun r => ?_
  split
  · exact KeepsTable.pure _
  · exact KeepsTable.pure _

theorem freeArguments_keeps (n : Nat) (l : List (Nat × Str)) :
    KeepsTable (@System.usedFlags σ) (freeArguments n l) := by
  induction n generalizing l with
  | zero => exact KeepsTable.pure _
  | succ n ih =>
      cases l with
      | nil => exact KeepsTable.pure _
      | cons e l =>
          obtain ⟨p, arg⟩ := e
          unfold freeArguments
          rcases em (p = 0) with h | h
          · simp only [h, ne_eq, not_true_eq_false, if_false]
            exact ih l
          · simp only [h, ne_eq, not_false_eq_true, if_true]
            exact (kfreeCall_keeps p).bind fun _ => ih l

theorem processCleanup_keeps (procPtr : Nat) (proc : Process) :
    KeepsTable (@System.usedFlags σ) (processCleanup procPtr proc) := by
  unfold processCleanup freeBinary freeArgv
  refine KeepsTable.bind ?_ fun _ => KeepsTable.bind ?_ fun _ => KeepsTable.bind (fun _ => rfl)
    fun _ => kfreeCall_keeps _
  · split
    · exact kfreeCall_keeps _
    · exact KeepsTable.pure _
  · split
    · exact (freeArguments_keeps _ _).bind fun _ => kfreeCall_keeps _
    · exact KeepsTable.pure _

theorem runProcess_keeps (hprog : m.ProgramsKeepTable) (procPtr : Nat) (proc : Process)
    (image : Buf) (size : Nat) :
    KeepsTable System.usedFlags (runProcess m procPtr proc image size) :=
  fun s => hprog _ { s with currentProcess := procPtr }

theorem loadIpobFile_opens (path : CString) (s : System σ) :
    Opens System.usedFlags (loadIpobFile m path) s fun r n => n ≤ 1 ∧ (0 ≤ r.1 → n = 1) := by
  have hneg : ∀ {code : Int} {n : Nat} {r : Nat × Buf}, code < 0 → n ≤ 1 →
      n ≤ 1 ∧ (0 ≤ (code, r).1 → n = 1) := fun hc hn => ⟨hn, fun h => absurd h (by omega)⟩
  have hrounds : ∀ (fd size n total : Nat) (image : Buf),
      KeepsTable System.usedFlags (chunkRounds m fd size n total image) := by
    intro fd size n
    induction n with
    | zero => exact fun total image => KeepsTable.pure _
    | succ n ih =>
        intro total image
        unfold chunkRounds
        split
        · refine (ipoFsRead_keeps m.dev _ _ _ _).onFs.bind fun r => ?_
          dsimp only
          split
          · exact KeepsTable.pure _
          · exact KeepsTable.pure _
          · exact ih _ _
        · exact KeepsTable.pure _
  have hchunks : ∀ (fd size : Nat) (image : Buf),
      KeepsTable System.usedFlags (readChunks m fd size image) :=
    fun fd size image s => hrounds fd size (size + 1) 0 image s
  unfold loadIpobFile
  refine (ipoFsStat_keeps m.dev path).onFs.opens_bind fun stat s => ?_
  split
  · exact Opens.pure (hneg (by decide) (Nat.zero_le _))
  split
  · exact Opens.pure (hneg (by decide) (Nat.zero_le _))
  split
  · exact Opens.pure (hneg (by decide) (Nat.zero_le _))
  split
  · exact Opens.pure (hneg (by decide) (Nat.zero_le _))
  refine (kmallocCall_keeps m _).opens_bind fun image s => ?_
  split
  · exact Opens.pure (hneg (by decide) (Nat.zero_le _))
  refine (ipoFsOpen_opens m.dev path s.fs).onFs.bind ?_
  rintro fd n s (⟨rfl, rfl⟩ | ⟨hsome, rfl⟩)
  · refine (kfreeCall_keeps _).opens_bind fun _ s => ?_
    exact Opens.pure (hneg (by decide) (Nat.zero_le _))
  obtain ⟨fd, rfl⟩ := Option.isSome_iff_exists.mp hsome
  dsimp only
  -- whatever follows, one slot is taken
  have hone : ∀ {x : Prog (System σ) (Int × Nat × Buf)} {s : System σ},
      KeepsTable System.usedFlags x →
      Opens System.usedFlags x s fun r n => 1 + n ≤ 1 ∧ (0 ≤ r.1 → 1 + n = 1) := by
    intro x s hx
    refine (hx.opens s).mono ?_
    rintro r n rfl
    exact ⟨Nat.le_refl 1, fun _ => rfl⟩
  refine hone ?_
  refine (hchunks _ _ _).bind fun r => ?_
  split
  · exact (kfreeCall_keeps _).bind fun _ => KeepsTable.pure _
  split
  · exact (kfreeCall_keeps _).bind fun _ => KeepsTable.pure _
  split
  · exact (kfreeCall_keeps _).bind fun _ => KeepsTable.pure _
  · exact KeepsTable.pure _

/-- A launch takes a slot when it gets as far as a result that is not an error, and at
most one. -/
theorem processExec_opens (hprog : m.ProgramsKeepTable) (path : Option CString) (argc : Int)
    (argv : Option (Nat → Option Str)) (s : System σ) :
    Opens System.usedFlags (processExec m path argc argv) s fun r n =>
      n ≤ 1 ∧ (0 ≤ r → n = 1) := by
  have hlaunch : ∀ (procPtr : Nat) (proc : Process) (path : CString) (s : System σ),
      Opens System.usedFlags (launch m procPtr proc path argc argv) s fun r n =>
        n ≤ 1 ∧ (0 ≤ r → n = 1) := by
    intro procPtr proc path s
    unfold launch
    refine (loadIpobFile_opens m path s).bind ?_
    rintro r n s ⟨hn, hr⟩
    dsimp only
    split
    · refine (processCleanup_keeps _ _).opens_bind fun _ s => ?_
      exact Opens.pure ⟨hn, fun h => by omega⟩
    rename_i hpos
    obtain rfl := hr (by omega)
    have hone : ∀ {x : Prog (System σ) Int} {s : System σ}, KeepsTable System.usedFlags x →
        Opens System.usedFlags x s fun r n => 1 + n ≤ 1 ∧ (0 ≤ r → 1 + n = 1) := by
      intro x s hx
      refine (hx.opens s).mono ?_
      rintro r n rfl
      exact ⟨Nat.le_refl 1, fun _ => rfl⟩
    refine hone ?_
    refine (kmallocCall_keeps m _).bind fun target => ?_
    split
    · exact (kfreeCall_keeps _).bind fun _ => (processCleanup_keeps _ _).bind fun _ =>
        KeepsTable.pure _
    split
    · exact (kfreeCall_keeps _).bind fun _ => (kfreeCall_keeps _).bind fun _ =>
        (processCleanup_keeps _ _).bind fun _ => KeepsTable.pure _
    refine (kfreeCall_keeps _).bind fun _ => (setupArguments_keeps m _ _ _).bind fun ready => ?_
    split
    · exact (processCleanup_keeps _ _).bind fun _ => KeepsTable.pure _
    · exact (runProcess_keeps m hprog _ _ _ _).bind fun _ =>
        (processCleanup_keeps _ _).bind fun _ => KeepsTable.pure _
  unfold processExec
  split
  · exact Opens.pure ⟨Nat.zero_le _, fun h => absurd h (by decide)⟩
  refine (kmallocCall_keeps m _).opens_bind fun procPtr s => ?_
  split
  · exact Opens.pure ⟨Nat.zero_le _, fun h => absurd h (by decide)⟩
  have hget : KeepsTable (@System.usedFlags σ) getSystem := fun _ => rfl
  refine hget.opens_bind fun s₀ s => ?_
  refine KeepsTable.opens_bind (fun _ => rfl) fun _ s => ?_
  exact hlaunch _ _ _ _

/-! ## Command lines

A line is one launch at most, and the autorun file one launch a line and one
open for itself. -/

theorem resolveCommandPath_keeps (cmd : Str) :
    KeepsTable System.usedFlags (resolveCommandPath m cmd) := by
  have hnames : ∀ canonical, KeepsTable System.usedFlags (namesFile m canonical) := by
    intro canonical
    unfold namesFile
    refine (withFs_keeps m.dev _).onFs.bind fun ino => ?_
    split
    · exact KeepsTable.pure _
    refine (ipoFsStat_keeps m.dev _).onFs.bind fun stat => ?_
    split
    · exact KeepsTable.pure _
    · exact KeepsTable.pure _
  unfold resolveCommandPath
  split
  · exact KeepsTable.pure _
  refine (kmallocCall_keeps m _).bind fun path => ?_
  split
  · exact KeepsTable.pure _
  refine (hnames _).bind fun ok => ?_
  split
  · exact KeepsTable.pure _
  · exact (kfreeCall_keeps _).bind fun _ => KeepsTable.pure _

theorem parseArguments_keeps (cmdline : Str) (argv : List (Nat × Str)) (arg : Str) :
    KeepsTable System.usedFlags (parseArguments m cmdline argv arg) := by
  have hend : ∀ (argv : List (Nat × Str)) (arg : Str),
      KeepsTable System.usedFlags (endArgument m argv arg) := by
    intro argv arg
    unfold endArgument
    split
    · exact KeepsTable.pure _
    refine (kmallocCall_keeps m _).bind fun p => ?_
    split
    · exact KeepsTable.pure _
    · exact KeepsTable.pure _
  induction cmdline generalizing argv arg with
  | nil => exact hend _ _
  | cons c cmdline ih =>
      unfold parseArguments
      split
      · split
        · exact (hend _ _).bind fun argv => ih argv []
        · exact ih _ _
      · exact hend _ _

theorem freeCopies_keeps (l : List (Nat × Str)) :
    KeepsTable (@System.usedFlags σ) (freeCopies l) := by
  induction l with
  | nil => exact KeepsTable.pure _
  | cons e l ih => exact (kfreeCall_keeps e.1).bind fun _ => ih

theorem tryExecuteCommand_opens (hprog : m.ProgramsKeepTable) (cmdline : Str) (s : System σ) :
    Opens System.usedFlags (tryExecuteCommand m cmdline) s fun r n =>
      n ≤ 1 ∧ (0 < r → n = 1) := by
  unfold tryExecuteCommand
  dsimp only
  split
  · exact Opens.pure ⟨Nat.zero_le _, fun h => absurd h (by decide)⟩
  refine (resolveCommandPath_keeps m _).opens_bind fun r s => ?_
  split
  · exact Opens.pure ⟨Nat.zero_le _, fun h => absurd h (by decide)⟩
  refine (parseArguments_keeps m _ _ _).opens_bind fun argv s => ?_
  refine (processExec_opens m hprog _ _ _ s).then_keeps (fun result => ?_) ?_
  · exact (freeCopies_keeps _).bind fun _ => (kfreeCall_keeps _).bind fun _ => KeepsTable.pure _
  · rintro result n s ⟨hn, hr⟩
    exact ⟨hn, fun h => hr (le_of_lt h)⟩

/-- The lines of an autorun file that are executed. -/
def commandLines : (n : Nat) → (ptr : Str) → List Str
  | 0, _ => []
  | n + 1, ptr =>
      let ptr := skipBlanks ptr
      if ptr = [] then []
      else if ptr.head? = some 35 then commandLines n (skipLine ptr)
      else if ptr.head? = some 10 then commandLines n (ptr.drop 1)
      else fullLine ptr :: commandLines n (skipNewline (ptr.drop (fullLine ptr).length))

theorem autorunLines_opens (hprog : m.ProgramsKeepTable) (n : Nat) (ptr : Str) (s : System σ) :
    Opens System.usedFlags (autorunLines m n ptr) s fun _ k =>
      k ≤ (commandLines n ptr).length := by
  induction n generalizing ptr s with
  | zero => exact Opens.pure (Nat.le_refl 0)
  | succ n ih =>
      unfold autorunLines commandLines
      dsimp only
      split
      · exact Opens.pure (Nat.le_refl 0)
      split
      · exact ih _ _
      split
      · exact ih _ _
      refine (tryExecuteCommand_opens m hprog _ s).bind ?_
      rintro r k s ⟨hk, -⟩
      refine (ih _ s).mono fun _ k' hk' => ?_
      rw [List.length_cons]
      omega

/-- The lines that are executed of what was loaded. -/
def loadedCommands : Option (Nat × Str) → List Str
  | none => []
  | some (_, text) => commandLines (text.length + 1) text

/-- What `autorun_init` executes. -/
def autorunCommands (s : System σ) : List Str := loadedCommands (loadAutorun m s).1

theorem loadAutorun_opens (s : System σ) :
    Opens System.usedFlags (loadAutorun m) s fun r n => n ≤ 1 ∧ (r.isSome → n = 1) := by
  unfold loadAutorun
  refine (ipoFsStat_keeps m.dev _).onFs.opens_bind fun stat s => ?_
  split
  · exact Opens.pure ⟨Nat.zero_le _, fun h => by cases h⟩
  split
  · exact Opens.pure ⟨Nat.zero_le _, fun h => by cases h⟩
  split
  · exact Opens.pure ⟨Nat.zero_le _, fun h => by cases h⟩
  refine (kmallocCall_keeps m _).opens_bind fun buf s => ?_
  split
  · exact Opens.pure ⟨Nat.zero_le _, fun h => by cases h⟩
  refine (ipoFsOpen_opens m.dev _ s.fs).onFs.bind ?_
  rintro fd n s (⟨rfl, rfl⟩ | ⟨hsome, rfl⟩)
  · refine (kfreeCall_keeps _).opens_bind fun _ s => ?_
    exact Opens.pure ⟨Nat.zero_le _, fun h => by cases h⟩
  obtain ⟨fd, rfl⟩ := Option.isSome_iff_exists.mp hsome
  refine (ipoFsRead_keeps m.dev _ _ _ _).onFs.opens_bind fun r s => ?_
  split
  · exact Opens.pure ⟨Nat.le_refl 1, fun _ => rfl⟩
  · refine (kfreeCall_keeps _).opens_bind fun _ s => ?_
    exact Opens.pure ⟨Nat.le_refl 1, fun _ => rfl⟩

theorem autorunInit_opens (hprog : m.ProgramsKeepTable) (s : System σ) :
    Opens System.usedFlags (autorunInit m) s fun _ n =>
      n ≤ 1 + (autorunCommands m s).length := by
  obtain ⟨n, htake, hn, -⟩ := loadAutorun_opens m s
  have hrest : ∀ (r : Option (Nat × Str)) (s' : System σ),
      Opens System.usedFlags (runAutorun m r) s' fun _ n => n ≤ (loadedCommands r).length := by
    intro r s'
    cases r with
    | none => exact Opens.pure (Nat.le_refl 0)
    | some r =>
        exact (autorunLines_opens m hprog _ _ s').then_keeps (fun _ => kfreeCall_keeps _)
          fun _ _ _ h => h
  obtain ⟨n', htake', hn'⟩ := hrest (loadAutorun m s).1 (loadAutorun m s).2
  exact ⟨n + n', htake.add htake', Nat.add_le_add hn hn'⟩

/-! ## Runs

The kernel's own work, call after call, until the table is full. -/

/-- A text write or a launch. -/
inductive OwnCall where
  | writeText (path text : CString) (append : Bool)
  | exec (path : Option CString) (argc : Int) (argv : Option (Nat → Option Str))

def runOwnCall : OwnCall → Prog (System σ) Bool
  | .writeText path text append => onFs (ipoFsWriteText m.dev path text append)
  | .exec path argc argv => do
      let r ← processExec m path argc argv
      pure (decide (0 ≤ r))

/-- Calls one after the other, and how many of them succeeded. -/
def runOwnCalls : List OwnCall → Prog (System σ) Nat
  | [] => pure 0
  | c :: cs => do
      let ok ← runOwnCall m c
      let n ← runOwnCalls cs
      pure (ok.toNat + n)

theorem runOwnCall_opens (hprog : m.ProgramsKeepTable) (c : OwnCall) (s : System σ) :
    Opens System.usedFlags (runOwnCall m c) s fun ok n => ok.toNat ≤ n ∧ n ≤ 1 := by
  have hcount : ∀ {ok : Bool} {n : Nat}, n ≤ 1 → (ok = true → n = 1) → ok.toNat ≤ n ∧ n ≤ 1 := by
    intro ok n hn hok
    cases ok with
    | false => exact ⟨Nat.zero_le n, hn⟩
    | true => exact ⟨(hok rfl).ge, hn⟩
  cases c with
  | writeText path text append =>
      exact (ipoFsWriteText_opens m.dev path text append s.fs).onFs.mono
        fun ok n h => hcount h.1 h.2
  | exec path argc argv =>
      refine (processExec_opens m hprog path argc argv s).then_keeps
        (fun r => KeepsTable.pure _) ?_
      intro r n s' h
      exact hcount h.1 fun hr => h.2 (of_decide_eq_true hr)

theorem runOwnCalls_opens (hprog : m.ProgramsKeepTable) (cs : List OwnCall) (s : System σ) :
    Opens System.usedFlags (runOwnCalls m cs) s fun r n => r ≤ n ∧ n ≤ cs.length := by
  induction cs generalizing s with
  | nil => exact Opens.pure ⟨Nat.le_refl 0, Nat.le_refl 0⟩
  | cons c cs ih =>
      refine (runOwnCall_opens m hprog c s).bind ?_
      rintro ok n s ⟨hok, hn⟩
      refine (ih s).then_keeps (fun _ => KeepsTable.pure _) ?_
      rintro r k s' ⟨hr, hk⟩
      refine ⟨Nat.add_le_add hok hr, ?_⟩
      rw [List.length_cons]
      omega

omit m in
theorem firstUnused_of_usedCount {k : Kernel σ} (h : usedCount k.usedFlags < 32) :
    (firstUnused k.fds 32 0).isSome := by
  cases hf : firstUnused k.fds 32 0 with
  | some i => rfl
  | none =>
      have hall : (Finset.range 32).filter (fun i => k.usedFlags i = true) = Finset.range 32 := by
        refine Finset.filter_true_of_mem fun i hi => ?_
        exact firstUnused_none hf (Nat.zero_le i) (by simpa using hi)
      rw [usedCount, hall] at h
      exact absurd h (by decide)

/-- What the descriptor table loses to the system's own work. No flag is ever cleared;
a text write and a launch take the lowest unused slot when they succeed and at most
that one when they fail; `autorun_init` takes at most one slot, and one more for each
line it executes. A run of writes and launches takes one slot for each call that succeeds
and at most one for each call. -/
theorem ownWork_takes_slots (hprog : m.ProgramsKeepTable) (s : System σ) :
    (∀ path text append,
      Opens Kernel.usedFlags (ipoFsWriteText m.dev path text append) s.fs fun r n =>
        n ≤ 1 ∧ (r = true → n = 1))
    ∧ (∀ path argc argv,
      Opens System.usedFlags (processExec m path argc argv) s fun r n =>
        n ≤ 1 ∧ (0 ≤ r → n = 1))
    ∧ (Opens System.usedFlags (autorunInit m) s fun _ n => n ≤ 1 + (autorunCommands m s).length)
    ∧ ∀ cs, (Opens System.usedFlags (runOwnCalls m cs) s fun r n => r ≤ n ∧ n ≤ cs.length)
      ∧ (usedCount s.usedFlags + cs.length < 32 →
        (firstUnused (runOwnCalls m cs s).2.fs.fds 32 0).isSome) := by
  refine ⟨fun path text append => ipoFsWriteText_opens m.dev path text append s.fs,
    fun path argc argv => processExec_opens m hprog path argc argv s, autorunInit_opens m hprog s,
    fun cs => ⟨runOwnCalls_opens m hprog cs s, fun hfew => ?_⟩⟩
  obtain ⟨n, htake, -, hn⟩ := runOwnCalls_opens m hprog cs s
  have hcount : usedCount (runOwnCalls m cs s).2.fs.usedFlags = usedCount s.usedFlags + n :=
    htake.usedCount
  exact firstUnused_of_usedCount (by omega)

end

/-- A machine with programs that return at once. -/
def idleMachine : Machine Disk where
  dev := diskDev Buf.zero
  mallocOk := fun _ => true
  fresh := Buf.zero
  program := fun _ => pure 0

/-- The mounted volume before anything was launched. -/
def mountedSystem : System Disk where
  fs := mountedKernel 12 6
  mallocs := 0
  log := []
  nextPid := 1
  processList := []
  currentProcess := 0
  lastExitCode := 0

theorem ownWork_takes_slots_mounted :
    (∀ path text append,
      Opens Kernel.usedFlags (ipoFsWriteText idleMachine.dev path text append) mountedSystem.fs
        fun r n => n ≤ 1 ∧ (r = true → n = 1))
    ∧ (∀ path argc argv,
      Opens System.usedFlags (processExec idleMachine path argc argv) mountedSystem fun r n =>
        n ≤ 1 ∧ (0 ≤ r → n = 1))
    ∧ (Opens System.usedFlags (autorunInit idleMachine) mountedSystem fun _ n =>
      n ≤ 1 + (autorunCommands idleMachine mountedSystem).length)
    ∧ ∀ cs, (Opens System.usedFlags (runOwnCalls idleMachine cs) mountedSystem fun r n =>
        r ≤ n ∧ n ≤ cs.length)
      ∧ (usedCount mountedSystem.usedFlags + cs.length < 32 →
        (firstUnused (runOwnCalls idleMachine cs mountedSystem).2.fs.fds 32 0).isSome) :=
  ownWork_takes_slots idleMachine (fun _ _ => rfl) mountedSystem

/-- A text write to an existing file leaves a slot used that was not. -/
theorem writeText_keeps_descriptor :
    (ipoFsWriteText (diskDev Buf.zero) autorunPath ⟨[65], by decide⟩ false (mountedKernel 12 6)).1
      = true
    ∧ (mountedKernel 12 6).usedFlags 0 = false
    ∧ (ipoFsWriteText (diskDev Buf.zero) autorunPath ⟨[65], by decide⟩ false
      (mountedKernel 12 6)).2.usedFlags 0 = true := by
  decide +kernel

end IpoOs
