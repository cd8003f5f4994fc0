import IpoOs.FsApi

/-!
# Launching programs

`process.c` over the file system. `kmalloc` and `kfree` are taken as an
abstract allocator: whether the `n`-th call succeeds is a parameter, a
successful call returns a pointer of its own, and the pointers that
kernel code obtained and gave back are recorded in a log; 0 is `NULL`. A program is a
parameter too: it gets its image and its arguments, and does what it
likes to the state; what it obtains from the allocator for itself is not
in the log.

The process structure is memory that only `process_exec` and what it
calls write to, so it is a value here, next to the pointer it lives at.
Of its fields those that are only printed are left out.

The functions are cut where the results need them: the copies of the
arguments, the read loop with its bound, and the end of a process. The read
loop returns `none` when its rounds are used up, and `chunkRounds_ends`
proves that the rounds it is given are always enough, so that `readChunks`
is total for a reason and not by construction.

What is not modelled is the machine code of a program and the page it runs
in: `callEntry` runs the parameter on the launch.
-/

namespace IpoOs

/-- What kernel code did with the allocator. -/
inductive HeapEvent where
  | alloc (p : Nat)
  | free (p : Nat)
  deriving DecidableEq

/-- What the entry point of a program is called with. -/
structure Launch where
  image : Buf
  size : Nat
  entryOffset : UInt32
  argc : Int
  argv : List Str

/-- The kernel around the file system. `mallocs` counts the calls of `kmalloc`,
and `log` is what kernel code did with it. -/
structure System (σ : Type) where
  fs : Kernel σ
  mallocs : Nat
  log : List HeapEvent
  nextPid : UInt32
  processList : List Nat
  currentProcess : Nat
  lastExitCode : Int

/-- What the kernel runs on: its disk, its allocator, fresh memory, and programs. -/
structure Machine (σ : Type) where
  dev : UInt32 → BlockDev σ
  mallocOk : Nat → Bool
  fresh : Buf
  program : Launch → Prog (System σ) Int

/-- The part of `struct process` that is read. -/
structure Process where
  pid : UInt32
  binaryBase : Nat
  argc : Int
  argvKernel : Nat
  argv : List (Nat × Str)

/-- A `uint32_t` as an `int`. -/
def toInt32 (n : UInt32) : Int :=
  if n.toNat < 2147483648 then n.toNat else (n.toNat : Int) - 4294967296

section

variable {σ : Type} (m : Machine σ)

def onFs {α : Type} (x : Prog (Kernel σ) α) : Prog (System σ) α := fun s =>
  ((x s.fs).1, { s with fs := (x s.fs).2 })

/-- `kmalloc`. -/
def kmallocCall (_size : Nat) : Prog (System σ) Nat := fun s =>
  if m.mallocOk s.mallocs then
    (s.mallocs + 1,
      { s with mallocs := s.mallocs + 1, log := s.log ++ [.alloc (s.mallocs + 1)] })
  else (0, { s with mallocs := s.mallocs + 1 })

/-- `kfree`. -/
def kfreeCall (p : Nat) : Prog (System σ) Unit := fun s =>
  ((), { s with log := s.log ++ [.free p] })

/-- A change of the process manager's variables. -/
def modifySystem (f : System σ → System σ) : Prog (System σ) Unit := fun s => ((), f s)

def getSystem : Prog (System σ) (System σ) := fun s => (s, s)

/-- The entry point of a program, whose own use of the allocator is not logged. -/
def callEntry (l : Launch) : Prog (System σ) Int := fun s =>
  ((m.program l s).1, { (m.program l s).2 with log := s.log })

/-! ## Arguments

The argument strings are copied one by one, and a copy that is refused gives
back the copies before it. -/

/-- The argument loop of `setup_arguments` from index `i` on, with `n` arguments
left; `acc` are the copies made so far. -/
def copyArguments (argv : Nat → Option Str) :
    (n i : Nat) → List (Nat × Str) → Prog (System σ) (Option (List (Nat × Str)))
  | 0, _, acc => pure (some acc)
  | n + 1, i, acc =>
      match argv i with
      | none => pure (some acc)
      | some arg => do
          let argCopy ← kmallocCall m (arg.length + 1)
          if argCopy = 0 then pure none
          else copyArguments argv n (i + 1) (acc ++ [(argCopy, arg)])

/-- `MAX_ARGV_COUNT` applied. -/
def limitArgc (argc : Int) : Int := if argc > 64 then 64 else argc

/-- `setup_arguments`: the process with its arguments, or `none` on failure. -/
def setupArguments (proc : Process) (argc : Int) (argv : Option (Nat → Option Str)) :
    Prog (System σ) (Option Process) :=
  match argv with
  | none => pure (some { proc with argc := 0 })
  | some argv =>
      if argc = 0 then pure (some { proc with argc := 0 })
      else do
        let argvArray ← kmallocCall m ((limitArgc argc + 1).toNat * 4)
        if argvArray = 0 then pure none
        else do
          match ← copyArguments m argv (limitArgc argc).toNat 0 [] with
          | none => pure none
          | some copies =>
              let argc := if argc < 0 then argc else copies.length
              pure (some { proc with argc := argc, argvKernel := argvArray, argv := copies })

/-! ## Loading

A stat, a check of the size, an allocation, an open, and reads of at most 64
KiB until the recorded size is reached or a read returns nothing. -/

def ipobHeaderSize : Nat := 20

def maxProcessSize : Nat := 536870912

/-- `memcmp` with the magic of an IPOB file. -/
def ipobMagicOk (image : Buf) : Bool :=
  ∀ i : Fin 8, image i.val = ([73, 80, 79, 95, 66, 0, 0, 0] : List UInt8).getD i.val 0

/-- The read loop of `load_ipob_file`, `none` when it has not ended after `n` rounds. -/
def chunkRounds (fd : Nat) (size : Nat) :
    (n totalRead : Nat) → Buf → Prog (System σ) (Option (Bool × Buf))
  | 0, _, _ => pure none
  | n + 1, totalRead, image =>
      if totalRead < size then do
        let toRead := min (size - totalRead) 65536
        let r ← onFs (ipoFsRead m.dev fd (fun i => image (totalRead + i)) (UInt32.ofNat toRead)
          (UInt32.ofNat totalRead))
        let image := fun i => if i < totalRead then image i else r.2 (i - totalRead)
        match r.1 with
        | none => pure (some (false, image))
        | some 0 => pure (some (false, image))
        | some (k + 1) => chunkRounds fd size n (totalRead + (k + 1)) image
      else pure (some (true, image))

-- a round that goes on reads a byte at least
theorem chunkRounds_ends (fd : Nat) {size n totalRead : Nat} (hn : size - totalRead < n)
    (image : Buf) (s : System σ) : (chunkRounds m fd size n totalRead image s).1.isSome := by
  induction n generalizing totalRead image s with
  | zero => omega
  | succ n ih =>
      rw [chunkRounds]
      split
      · rw [Prog.run_bind]
        generalize onFs (ipoFsRead m.dev fd _ _ _) s = res
        obtain ⟨⟨_ | _ | k, out⟩, s'⟩ := res
        · rfl
        · rfl
        · exact ih (by omega) _ _
      · rfl

/-- The read loop of `load_ipob_file` from the start of the file. -/
def readChunks (fd size : Nat) (image : Buf) : Prog (System σ) (Bool × Buf) := fun s =>
  ((chunkRounds m fd size (size + 1) 0 image s).1.get
      (chunkRounds_ends m fd (by omega) image s),
    (chunkRounds m fd size (size + 1) 0 image s).2)

/-- `load_ipob_file`: its result, the buffer (`NULL` on failure) and what is in it. -/
def loadIpobFile (path : CString) : Prog (System σ) (Int × Nat × Buf) := do
  match ← onFs (ipoFsStat m.dev path) with
  | none => pure (-1, 0, m.fresh)
  | some stat =>
      if stat.isDir then pure (-1, 0, m.fresh)
      else if stat.size.toNat < ipobHeaderSize then pure (-1, 0, m.fresh)
      else if stat.size.toNat > maxProcessSize then pure (-1, 0, m.fresh)
      else do
        let binaryImage ← kmallocCall m stat.size.toNat
        if binaryImage = 0 then pure (-3, 0, m.fresh)
        else do
          match ← onFs (ipoFsOpen m.dev path) with
          | none => do
              kfreeCall binaryImage
              pure (-4, 0, m.fresh)
          | some fd => do
              let r ← readChunks m fd stat.size.toNat m.fresh
              if ¬ r.1 then do
                kfreeCall binaryImage
                pure (-4, 0, m.fresh)
              else if ¬ ipobMagicOk r.2 then do
                kfreeCall binaryImage
                pure (-2, 0, m.fresh)
              else if r.2.word 8 ≥ stat.size then do
                kfreeCall binaryImage
                pure (-2, 0, m.fresh)
              else pure ((stat.size.toNat : Int), binaryImage, r.2)

def relocateBinary : Int := 0

/-! ## Processes

A process is put in the list before its program is called and taken out by
`process_cleanup` after it has returned; both are part of `process_exec`. -/

/-- The argument strings released, `n` of them. -/
def freeArguments : (n : Nat) → List (Nat × Str) → Prog (System σ) Unit
  | 0, _ => pure ()
  | _, [] => pure ()
  | n + 1, (p, _) :: rest => do
      if p ≠ 0 then kfreeCall p
      freeArguments n rest

def freeBinary (proc : Process) : Prog (System σ) Unit :=
  if proc.binaryBase ≠ 0 then kfreeCall proc.binaryBase else pure ()

/-- The arguments of a process released, strings first. -/
def freeArgv (proc : Process) : Prog (System σ) Unit :=
  if proc.argvKernel ≠ 0 then do
    freeArguments proc.argc.toNat proc.argv
    kfreeCall proc.argvKernel
  else pure ()

/-- `process_cleanup` of the process at `procPtr`. -/
def processCleanup (procPtr : Nat) (proc : Process) : Prog (System σ) Unit := do
  freeBinary proc
  freeArgv proc
  modifySystem fun s => { s with processList := s.processList.erase procPtr }
  kfreeCall procPtr

def runProcess (procPtr : Nat) (proc : Process) (image : Buf) (size : Nat) :
    Prog (System σ) Unit := do
  let s ← getSystem
  modifySystem fun s => { s with currentProcess := procPtr }
  let exitCode ← callEntry m
    { image := image, size := size, entryOffset := image.word 8, argc := proc.argc,
      argv := proc.argv.map Prod.snd }
  modifySystem fun s => { s with lastExitCode := exitCode }
  modifySystem fun s' => { s' with currentProcess := s.currentProcess }

/-- `process_exec` after the process structure was allocated. -/
def launch (procPtr : Nat) (proc : Process) (path : CString) (argc : Int)
    (argv : Option (Nat → Option Str)) : Prog (System σ) Int := do
  let loaded ← loadIpobFile m path
  let size := loaded.1
  let binaryImage := loaded.2.1
  if size < 0 then do
    processCleanup procPtr proc
    pure size
  else do
    let targetAddr ← kmallocCall m size.toNat
    if targetAddr = 0 then do
      kfreeCall binaryImage
      processCleanup procPtr proc
      pure (-5)
    else if relocateBinary < 0 then do
      kfreeCall targetAddr
      kfreeCall binaryImage
      processCleanup procPtr proc
      pure (-6)
    else do
      kfreeCall binaryImage
      let proc := { proc with binaryBase := targetAddr }
      match ← setupArguments m proc argc argv with
      | none => do
          processCleanup procPtr proc
          pure (-7)
      | some proc => do
          runProcess m procPtr proc loaded.2.2 size.toNat
          processCleanup procPtr proc
          pure (toInt32 proc.pid)

def processExec (path : Option CString) (argc : Int) (argv : Option (Nat → Option Str)) :
    Prog (System σ) Int :=
  match path with
  | none => pure (-1)
  | some path => do
      let procPtr ← kmallocCall m 308
      if procPtr = 0 then pure (-2)
      else do
        let s ← getSystem
        let proc : Process :=
          { pid := s.nextPid, binaryBase := 0, argc := 0, argvKernel := 0, argv := [] }
        modifySystem fun s =>
          { s with nextPid := s.nextPid + 1, processList := procPtr :: s.processList }
        launch m procPtr proc path argc argv

end

end IpoOs
