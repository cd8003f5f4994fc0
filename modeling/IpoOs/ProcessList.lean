import IpoOs.LinkedList
import IpoOs.Runs

/-!
# The process list under nesting

`process_exec` and `process_cleanup` over the memory they use: the process
structures are linked through their `next` fields, and `kmalloc` may hand
out any block that is not in use, one that was given back before too. A
program may call `process_exec` again from its entry point, so the calls
under way are a stack, and the machine takes one step at a time: how a load
ends and which allocations fail is up to the step. `relocate_binary`, which
never fails, is no step.

The machine is given by `step`: in a state, an event is possible or not, and
what it leads to is computed. The frames of the calls under way carry the
pointers that a C frame has in its locals, so that a cleanup reads them from
the frame and from the memory as the source does.

A failed allocation is an event as well, which makes the runs those of every
allocator that hands out blocks not in use.
-/

namespace IpoOs

/-- The fields of `struct process` that are read; `argv` is the array at `argv_kernel`. -/
structure ProcStruct where
  pid : UInt32
  binaryBase : Nat
  argc : Nat
  argvKernel : Nat
  argv : List Nat
  next : Nat

/-- The variables of `process.c`, the process structures in memory, and the blocks in use. -/
structure ProcManager where
  mem : Nat → ProcStruct
  live : Nat → Bool
  processList : Nat
  currentProcess : Nat
  nextPid : UInt32
  lastExitCode : Int

namespace ProcManager

/-- The `next` fields. -/
def next (pm : ProcManager) (p : Nat) : Nat := (pm.mem p).next

def store (p : Nat) (x : ProcStruct) (pm : ProcManager) : ProcManager :=
  { pm with mem := Function.update pm.mem p x }

def setLive (live : Nat → Bool) (pm : ProcManager) : ProcManager := { pm with live := live }

/-- `kmalloc` gives `p`: not `NULL`, and not in use. -/
def kmalloc (p : Nat) (pm : ProcManager) : Option ProcManager :=
  if p ≠ 0 ∧ pm.live p = false then some (pm.setLive (Function.update pm.live p true)) else none

/-- Some calls of `kmalloc`. -/
def kmallocs : List Nat → ProcManager → Option ProcManager
  | [], pm => some pm
  | p :: l, pm => (pm.kmalloc p).bind (kmallocs l)

def kfree (p : Nat) (pm : ProcManager) : ProcManager :=
  pm.setLive (Function.update pm.live p false)

/-- Some calls of `kfree`. -/
def kfreeAll (l : List Nat) (pm : ProcManager) : ProcManager := l.foldl (fun pm p => pm.kfree p) pm

/-- The structure cleared and put in front of the list. -/
def insertProcess (p : Nat) (pm : ProcManager) : ProcManager :=
  let proc : ProcStruct :=
    { pid := pm.nextPid, binaryBase := 0, argc := 0, argvKernel := 0, argv := [],
      next := pm.processList }
  { pm.store p proc with nextPid := pm.nextPid + 1, processList := p }

/-- The process taken out of the list, in at most `n` rounds of the loop. -/
def unlink (n p : Nat) (pm : ProcManager) : Option ProcManager :=
  if pm.processList = p then some { pm with processList := pm.next p }
  else (nodeBefore pm.next 0 p n pm.processList).map fun prev =>
    if prev ≠ 0 then pm.store prev { pm.mem prev with next := pm.next p } else pm

end ProcManager

/-- The blocks that a process structure points to, in the order they are given back. -/
def ProcStruct.blocks (x : ProcStruct) : List Nat :=
  (if x.binaryBase ≠ 0 then [x.binaryBase] else [])
    ++ if x.argvKernel ≠ 0 then (x.argv.take x.argc).filter (· ≠ 0) ++ [x.argvKernel] else []

/-- `process_cleanup`. -/
def processCleanupAt (n p : Nat) (pm : ProcManager) : Option ProcManager :=
  ((pm.kfreeAll (pm.mem p).blocks).unlink n p).map (·.kfree p)

/-! ## Calls of `process_exec`

The phases of one call, in the order of the source, and the stack of calls. -/

/-- How far a call of `process_exec` got: `loaded` has the buffer of the file, and `running` is in
the entry point with the process that was current before. -/
inductive Phase where
  | loading
  | loaded (image : Nat)
  | placed
  | running (old : Nat)
  deriving DecidableEq

/-- A call that has inserted its process. -/
structure Frame where
  proc : Nat
  phase : Phase
  deriving DecidableEq

/-- The calls under way, the innermost first. -/
structure ProcCalls where
  pm : ProcManager
  stack : List Frame

/-- What happens next. A call is refused when it has no path or no memory for its structure; `n`
is the number of rounds the loop of a cleanup takes. -/
inductive ProcEvent where
  | refused
  | start (p : Nat)
  | loadFailed (n : Nat)
  | loaded (image : Nat)
  | noMemory (n : Nat)
  | placed (target : Nat)
  | argsFailed (copies : List Nat) (n : Nat)
  | argsReady (array : Nat) (copies : List Nat)
  | exited (code : Int) (n : Nat)
  | alloc (p : Nat)
  | free (p : Nat)
  | write (p : Nat) (x : ProcStruct)

/-- `argc` and `argv_kernel` stored. -/
def ProcStruct.withArgs (x : ProcStruct) (array : Nat) (copies : List Nat) : ProcStruct :=
  { x with argc := copies.length, argvKernel := array, argv := copies }

/-- The arguments saved in the structure; there is no array when there are no arguments. -/
def ProcManager.saveArgs (p array : Nat) (copies : List Nat) (pm : ProcManager) :
    Option ProcManager :=
  if array = 0 then some (pm.store p { pm.mem p with argc := 0 })
  else (pm.kmallocs (array :: copies)).map fun pm =>
    pm.store p ((pm.mem p).withArgs array copies)

def Frame.blocks (mem : Nat → ProcStruct) (f : Frame) : List Nat :=
  f.proc :: ((match f.phase with
    | .loaded image => [image]
    | _ => []) ++ (mem f.proc).blocks)

namespace ProcCalls

def owned (c : ProcCalls) : List Nat := c.stack.flatMap (Frame.blocks c.pm.mem)

/-- `process_exec` is called by the kernel or by a program that runs. -/
def canCall (c : ProcCalls) : Bool :=
  match c.stack with
  | [] => true
  | ⟨_, .running _⟩ :: _ => true
  | _ => false

/-- The innermost call in a phase, and the calls around it. -/
def loadingCall (c : ProcCalls) : Option (Nat × List Frame) :=
  match c.stack with
  | ⟨p, .loading⟩ :: rest => some (p, rest)
  | _ => none

/-- The innermost call with its file loaded. -/
def loadedCall (c : ProcCalls) : Option (Nat × Nat × List Frame) :=
  match c.stack with
  | ⟨p, .loaded image⟩ :: rest => some (p, image, rest)
  | _ => none

/-- The innermost call with its program in place. -/
def placedCall (c : ProcCalls) : Option (Nat × List Frame) :=
  match c.stack with
  | ⟨p, .placed⟩ :: rest => some (p, rest)
  | _ => none

def runningCall (c : ProcCalls) : Option (Nat × Nat × List Frame) :=
  match c.stack with
  | ⟨p, .running old⟩ :: rest => some (p, old, rest)
  | _ => none

def finish (n p : Nat) (pm : ProcManager) (rest : List Frame) : Option ProcCalls :=
  (processCleanupAt n p pm).map fun pm => ⟨pm, rest⟩

/-- One step of `process_exec`, of a program, or of other kernel code: these use blocks of their
own. -/
def step : ProcEvent → ProcCalls → Option ProcCalls
  | .refused, c => if c.canCall then some c else none
  | .start p, c =>
      if c.canCall then
        (c.pm.kmalloc p).map fun pm => ⟨pm.insertProcess p, ⟨p, .loading⟩ :: c.stack⟩
      else none
  | .loadFailed n, c => c.loadingCall.bind fun (p, rest) => finish n p c.pm rest
  | .loaded image, c => c.loadingCall.bind fun (p, rest) =>
      (c.pm.kmalloc image).map fun pm => ⟨pm, ⟨p, .loaded image⟩ :: rest⟩
  | .noMemory n, c => c.loadedCall.bind fun (p, image, rest) => finish n p (c.pm.kfree image) rest
  | .placed target, c => c.loadedCall.bind fun (p, image, rest) =>
      (c.pm.kmalloc target).map fun pm =>
        ⟨(pm.kfree image).store p { pm.mem p with binaryBase := target }, ⟨p, .placed⟩ :: rest⟩
  | .argsFailed copies n, c => c.placedCall.bind fun (p, rest) =>
      (c.pm.kmallocs copies).bind fun pm => finish n p pm rest
  | .argsReady array copies, c => c.placedCall.bind fun (p, rest) =>
      (c.pm.saveArgs p array copies).map fun pm =>
        ⟨{ pm with currentProcess := p }, ⟨p, .running pm.currentProcess⟩ :: rest⟩
  | .exited code n, c => c.runningCall.bind fun (p, old, rest) =>
      finish n p { c.pm with lastExitCode := code, currentProcess := old } rest
  | .alloc p, c => (c.pm.kmalloc p).map fun pm => { c with pm := pm }
  | .free p, c => if p ∈ c.owned then none else some { c with pm := c.pm.kfree p }
  | .write p x, c =>
      if p ∈ c.stack.map Frame.proc then none else some { c with pm := c.pm.store p x }

end ProcCalls

end IpoOs
