import IpoOs.Loader

/-!
# What a launch keeps

`process_exec` gives back every pointer it took, except on one path: the
file loads, the program gets its memory and its argument array, and then
the copy of an argument string is refused. `setup_arguments` returns
before it has told the process of the array, so `process_cleanup` frees
neither the array nor the strings copied before.

Whether that path is taken is read off three things the call starts
from: which calls of `kmalloc` fail, the arguments, and the file. The
calls come in a fixed order (the process structure, the image, the
target, the array, the strings), so the pattern of failures is about the
next calls of the allocator, counted from the one that is due. The file
loads when the path names a valid image and a descriptor is free, which
is what the loader's own theorems say.
-/

namespace IpoOs

section

variable {σ : Type} (m : Machine σ)

/-- The calls of the allocator from call `c` on, as far as `process_exec` goes with these arguments
once its file is loaded: the structure, the image, the target and the argument array are granted,
and the copy of an argument is refused. -/
def CopyRefused (argc : Int) (argv : Option (Nat → Option Str)) (c : Nat) : Prop :=
  m.mallocOk c = true ∧ m.mallocOk (c + 1) = true ∧ m.mallocOk (c + 2) = true
    ∧ ArgsFail m argc argv (c + 3)

/-- The state once the process structure is allocated and on the list. -/
def startedProcess (s : System σ) : System σ :=
  { s with
    mallocs := s.mallocs + 1
    log := s.log ++ [.alloc (s.mallocs + 1)]
    nextPid := s.nextPid + 1
    processList := (s.mallocs + 1) :: s.processList }

theorem loadIpobFile_noMemory (path : CString) {s : System σ} (h : m.mallocOk s.mallocs = false) :
    (loadIpobFile m path s).1.1 < 0 := by
  have hstat := (quiet_onFs (ipoFsStat m.dev path) s).2
  unfold loadIpobFile
  rw [Prog.run_bind]
  generalize onFs (ipoFsStat m.dev path) s = res at hstat ⊢
  obtain ⟨stat, s'⟩ := res
  have hrefused : ∀ n, kmallocCall m n s' = (0, { s' with mallocs := s'.mallocs + 1 }) := by
    intro n
    have hm : s'.mallocs = s.mallocs := hstat
    unfold kmallocCall
    rw [hm, h]
    rfl
  cases stat with
  | none => exact (by decide : (-1 : Int) < 0)
  | some r =>
      simp only [Prog.run_ite, Prog.run_bind, hrefused]
      split
      · exact (by decide : (-1 : Int) < 0)
      split
      · exact (by decide : (-1 : Int) < 0)
      split
      · exact (by decide : (-1 : Int) < 0)
      · exact (by decide : (-3 : Int) < 0)

theorem loadIpobFile_noDescriptor (path : CString) {s : System σ}
    (h : ¬ ∃ i, i < 32 ∧ (s.fs.fds i).used = false) : (loadIpobFile m path s).1.1 < 0 := by
  obtain ⟨n, htake, -, hone⟩ := loadIpobFile_opens m path s
  by_contra hpos
  obtain rfl := hone (by omega)
  obtain ⟨f, rfl, i, hi, -, hfree, -⟩ := htake
  exact h ⟨i, hi, hfree⟩

/-- `process_exec` as a launch from the state with its structure. -/
theorem processExec_started (path : CString) (argc : Int) (argv : Option (Nat → Option Str))
    {s : System σ} (hok : m.mallocOk s.mallocs = true) :
    ∃ ev, (processExec m (some path) argc argv s).2.log = s.log ++ ev
      ∧ (ReleasedOnce ev ↔ ¬ (0 ≤ (loadIpobFile m path (startedProcess s)).1.1
        ∧ m.mallocOk (s.mallocs + 2) = true ∧ ArgsFail m argc argv (s.mallocs + 3))) := by
  have hrun : processExec m (some path) argc argv s
      = launch m (startedProcess s).mallocs
          { pid := s.nextPid, binaryBase := 0, argc := 0, argvKernel := 0, argv := [] }
          path argc argv (startedProcess s) := by
    simp only [processExec, kmallocCall, hok, Prog.run_bind, if_true, Nat.succ_ne_zero,
      if_false, getSystem, modifySystem]
    rfl
  obtain ⟨ev, hlog, hiff⟩ := launch_emits m
    { pid := s.nextPid, binaryBase := 0, argc := 0, argvKernel := 0, argv := [] }
    rfl rfl path argc argv (startedProcess s)
  refine ⟨.alloc (s.mallocs + 1) :: ev, ?_, hiff⟩
  rw [hrun, hlog, startedProcess, List.append_assoc, List.singleton_append]

theorem processExec_nothing {path : Option CString} (argc : Int)
    (argv : Option (Nat → Option Str)) {s : System σ}
    (h : path = none ∨ m.mallocOk s.mallocs = false) :
    (processExec m path argc argv s).2.log = s.log := by
  cases path with
  | none => rfl
  | some path =>
      have hok : m.mallocOk s.mallocs = false := h.resolve_left (Option.some_ne_none path)
      simp [processExec, kmallocCall, hok]

end

/-- A file that loads: a valid image at the path, and a descriptor to open it with. -/
def Kernel.Loadable (u : Block) (k : Kernel Disk) (path : CString) : Prop :=
  (∃ ino, k.FileAt u path ino ∧ k.disk.ValidImage (k.disk.inodeAt k.sb ino))
    ∧ ∃ i, i < 32 ∧ (k.fds i).used = false

theorem loadIpobFile_iff {u : Block} {m : Machine Disk} (hdev : m.dev = diskDev u) (path : CString)
    (s : System Disk) : 0 ≤ (loadIpobFile m path s).1.1
      ↔ m.mallocOk s.mallocs = true ∧ s.fs.Loadable u path := by
  constructor
  · intro hpos
    have hmalloc : m.mallocOk s.mallocs = true := by
      by_contra hno
      have hneg := loadIpobFile_noMemory m path (Bool.not_eq_true _ ▸ hno)
      omega
    have hfree : ∃ i, i < 32 ∧ (s.fs.fds i).used = false := by
      by_contra hno
      have hneg := loadIpobFile_noDescriptor m path hno
      omega
    refine ⟨hmalloc, ?_, hfree⟩
    by_contra hno
    have hnone : ∀ ino, ¬ s.fs.FileAt u path ino := by
      intro ino hfile
      rcases loadIpobFile_result hdev hmalloc hfree hfile with ⟨-, hneg⟩ | ⟨hvalid, -⟩
      · omega
      · exact hno ⟨ino, hfile, hvalid⟩
    rw [loadIpobFile_refused hdev (Or.inl hnone)] at hpos
    have hneg : ¬ (0 : Int) ≤ -1 := by decide
    exact absurd hpos hneg
  · rintro ⟨hmalloc, ⟨ino, hfile, hvalid⟩, hfree⟩
    rcases loadIpobFile_result hdev hmalloc hfree hfile with ⟨hno, -⟩ | ⟨-, hsize, -⟩
    · exact absurd hvalid hno
    · rw [hsize]
      exact Int.natCast_nonneg _

/-- `process_exec` gives back what it took, once each: on any device unless a copy of an argument is
refused after the structure, the image, the target and the array were granted, and on one that does
not fail exactly when not, or when there is no file that loads. -/
theorem processExec_releases (path : Option CString) (argc : Int)
    (argv : Option (Nat → Option Str)) :
    (∀ (σ : Type) (m : Machine σ) (s : System σ),
      ∃ ev, (processExec m path argc argv s).2.log = s.log ++ ev
        ∧ (¬ CopyRefused m argc argv s.mallocs → ReleasedOnce ev))
    ∧ ∀ (u : Block) (m : Machine Disk), m.dev = diskDev u → ∀ s : System Disk,
      ∃ ev, (processExec m path argc argv s).2.log = s.log ++ ev
        ∧ (ReleasedOnce ev ↔ ¬ (CopyRefused m argc argv s.mallocs
          ∧ ∃ p, path = some p ∧ s.fs.Loadable u p)) := by
  have hnone : ReleasedOnce [] := by
    intro p hp
    cases hp
  refine ⟨fun σ m s => ?_, fun u m hdev s => ?_⟩
  · rcases em (path = none ∨ m.mallocOk s.mallocs = false) with hno | hyes
    · exact ⟨[], (processExec_nothing m argc argv hno).trans (List.append_nil _).symm,
        fun _ => hnone⟩
    · obtain ⟨hpath, hok⟩ := not_or.mp hyes
      obtain ⟨p, rfl⟩ := Option.ne_none_iff_exists'.mp hpath
      have hok := (Bool.not_eq_false _).mp hok
      obtain ⟨ev, hlog, hiff⟩ := processExec_started m p argc argv hok
      refine ⟨ev, hlog, fun hno => hiff.mpr ?_⟩
      rintro ⟨hload, htarget, hargs⟩
      -- a file that was loaded got its image
      have himage : m.mallocOk (s.mallocs + 1) = true := by
        by_contra hc
        have hneg := loadIpobFile_noMemory m p (s := startedProcess s) (Bool.not_eq_true _ ▸ hc)
        omega
      exact hno ⟨hok, himage, htarget, hargs⟩
  · rcases em (path = none ∨ m.mallocOk s.mallocs = false) with hno | hyes
    · refine ⟨[], (processExec_nothing m argc argv hno).trans (List.append_nil _).symm,
        iff_of_true hnone ?_⟩
      rintro ⟨hrefused, p, hp, -⟩
      rcases hno with hc | hc
      · rw [hc] at hp
        cases hp
      · exact absurd (hrefused.1.symm.trans hc) (by decide)
    · obtain ⟨hpath, hok⟩ := not_or.mp hyes
      obtain ⟨p, rfl⟩ := Option.ne_none_iff_exists'.mp hpath
      have hok := (Bool.not_eq_false _).mp hok
      obtain ⟨ev, hlog, hiff⟩ := processExec_started m p argc argv hok
      refine ⟨ev, hlog, hiff.trans (not_congr ?_)⟩
      rw [loadIpobFile_iff hdev]
      constructor
      · rintro ⟨⟨himage, hload⟩, htarget, hargs⟩
        exact ⟨⟨hok, himage, htarget, hargs⟩, p, rfl, hload⟩
      · rintro ⟨⟨-, himage, htarget, hargs⟩, q, hq, hload⟩
        obtain rfl := Option.some.inj hq
        exact ⟨⟨himage, hload⟩, htarget, hargs⟩

/-- A machine whose allocator refuses its fifth call only. -/
def refusingMachine : Machine Disk where
  dev := diskDev Buf.zero
  mallocOk := fun n => n ≠ 4
  fresh := Buf.zero
  program := fun _ => pure 0

/-- The argument array stays allocated when the first argument cannot be copied. -/
theorem processExec_keeps_argv :
    ∃ ev, (processExec refusingMachine (some (rootPath autorunName (by decide))) 1
        (some fun _ => some [97]) imageSystem).2.log = imageSystem.log ++ ev
      ∧ ¬ ReleasedOnce ev := by
  refine ⟨[.alloc 1, .alloc 2, .alloc 3, .free 2, .alloc 4, .free 3, .free 1], ?_, ?_⟩
  · decide +kernel
  · exact @not_releasedOnce _ 4 (by decide) (by decide)

/-- With all calls granted, the launch of the image in `/autorun` gives back what it took. -/
theorem processExec_releases_autorun :
    ∃ ev, (processExec loadingMachine (some (rootPath autorunName (by decide))) 1
        (some fun _ => some [97]) imageSystem).2.log = imageSystem.log ++ ev ∧ ReleasedOnce ev := by
  obtain ⟨ev, hlog, hiff⟩ := (processExec_releases (some (rootPath autorunName (by decide))) 1
    (some fun _ => some [97])).2 Buf.zero loadingMachine rfl imageSystem
  refine ⟨ev, hlog, hiff.mpr ?_⟩
  rintro ⟨⟨-, -, -, _, -, -, -, _, -, -, hrefused⟩, -⟩
  cases hrefused

end IpoOs
