import IpoOs.Process
import Mathlib.Data.List.TakeWhile

/-!
# Commands

How a command line becomes a launch: `resolve_command_path` and
`try_execute_command` of `terminal.c`, and the autorun file of
`autorun.c`, whose lines are executed one after the other. Buffers that
hold text are the text; the length limits are those of the buffers.

A line is cut twice: the first word is looked for as a command, and what
follows is cut into arguments by a loop of its own with its own buffer and
its own limit. Nothing checks that a word has fitted.
-/

namespace IpoOs

/-- What string functions read of a buffer that holds `s` and ends with a zero. -/
def CString.ofStr (s : Str) : CString :=
  ⟨s.takeWhile (· ≠ 0), fun h => by simpa using List.mem_takeWhile_imp h⟩

def isBlank (c : UInt8) : Bool := c = 32 ∨ c = 9

def skipBlanks (s : Str) : Str := s.dropWhile isBlank

/-- `/app/`. -/
def appPrefix : Str := [47, 97, 112, 112, 47]

/-- `to_check` of `resolve_command_path`, a buffer of 256 bytes. -/
def commandPath (cmd : Str) : Str :=
  if cmd.head? = some slash then cmd.take 255
  else if cmd.head? = some 46 ∨ slash ∈ cmd then (slash :: cmd).take 255
  else (appPrefix ++ cmd).take 255

section

variable {σ : Type} (m : Machine σ)

/-- The checks of `resolve_command_path`: the path names a file. -/
def namesFile (canonical : Str) : Prog (System σ) Bool := do
  match ← onFs (withFs m.dev fun dev sb => pathResolve dev sb canonical) with
  | none => pure false
  | some _ => do
      match ← onFs (ipoFsStat m.dev (CString.ofStr canonical)) with
      | none => pure false
      | some stat => pure (¬ stat.isDir)

/-- `resolve_command_path`: the buffer it returns and the path in it. -/
def resolveCommandPath (cmd : Str) : Prog (System σ) (Option (Nat × Str)) :=
  if cmd = [] then pure none
  else do
    let path ← kmallocCall m 256
    if path = 0 then pure none
    else do
      let canonical := fsCanonicalize (commandPath cmd) 256
      if ← namesFile m canonical then pure (some (path, canonical.take 255))
      else do
        kfreeCall path
        pure none

/-- The end of an argument, which is copied when it is not empty; an argument whose
copy is refused is dropped. -/
def endArgument (argv : List (Nat × Str)) (arg : Str) : Prog (System σ) (List (Nat × Str)) :=
  if arg = [] then pure argv
  else do
    let argCopy ← kmallocCall m (arg.length + 1)
    if argCopy = 0 then pure argv else pure (argv ++ [(argCopy, arg)])

/-- The argument loop of `try_execute_command`: `argv` are the arguments after the
program name and `arg` is what `arg_buf` holds. -/
def parseArguments : (cmdline : Str) → (argv : List (Nat × Str)) → (arg : Str) →
    Prog (System σ) (List (Nat × Str))
  | [], argv, arg => endArgument m argv arg
  | c :: cmdline, argv, arg =>
      if argv.length + 1 < 31 then
        if isBlank c then do
          let argv ← endArgument m argv arg
          parseArguments cmdline argv []
        else parseArguments cmdline argv (if arg.length < 511 then arg ++ [c] else arg)
      else endArgument m argv arg

def freeCopies : List (Nat × Str) → Prog (System σ) Unit
  | [] => pure ()
  | (p, _) :: rest => do
      kfreeCall p
      freeCopies rest

def tryExecuteCommand (cmdline : Str) : Prog (System σ) Int :=
  let cmdline := skipBlanks cmdline
  if cmdline = [] then pure 0
  else do
    let name := (cmdline.takeWhile fun c => ¬ isBlank c).take 127
    match ← resolveCommandPath m name with
    | none => pure 0
    | some (pathPtr, path) => do
        let argv ← parseArguments m (skipBlanks (cmdline.drop name.length)) [] []
        let result ← processExec m (some (CString.ofStr path)) ((argv.length : Int) + 1)
          (some fun i => (name :: argv.map Prod.snd)[i]?)
        freeCopies argv
        kfreeCall pathPtr
        pure result

/-! ## The autorun file

The file is loaded whole, ends at the first NUL, and is then walked with a
pointer. The walk is a recursion on the rounds left; each round takes one
character at least. -/

/-- `/autorun`. -/
def autorunPath : CString := ⟨[47, 97, 117, 116, 111, 114, 117, 110], by decide⟩

def skipLine (line : Str) : Str := (line.dropWhile (· ≠ 10)).drop 1

/-- The line at the start of `ptr`, as much of it as fits. -/
def fullLine (ptr : Str) : Str := (ptr.takeWhile (· ≠ 10)).take 511

def skipNewline (ptr : Str) : Str := if ptr.head? = some 10 then ptr.drop 1 else ptr

/-- The loop of `autorun_init` over the text at `ptr`, with at most `n` rounds: every
round takes a character at least, so the length of the text and one more are enough. -/
def autorunLines : (n : Nat) → (ptr : Str) → Prog (System σ) Unit
  | 0, _ => pure ()
  | n + 1, ptr =>
      let ptr := skipBlanks ptr
      if ptr = [] then pure ()
      else if ptr.head? = some 35 then autorunLines n (skipLine ptr)
      else if ptr.head? = some 10 then autorunLines n (ptr.drop 1)
      else do
        let _ ← tryExecuteCommand m (fullLine ptr)
        autorunLines n (skipNewline (ptr.drop (fullLine ptr).length))

/-- The part of `autorun_init` that loads the file: the buffer and the text in it. -/
def loadAutorun : Prog (System σ) (Option (Nat × Str)) := do
  match ← onFs (ipoFsStat m.dev autorunPath) with
  | none => pure none
  | some stat =>
      if stat.isDir then pure none
      else if stat.size.toNat > 10485760 then pure none
      else do
        let autorunBuf ← kmallocCall m (stat.size.toNat + 1)
        if autorunBuf = 0 then pure none
        else do
          match ← onFs (ipoFsOpen m.dev autorunPath) with
          | none => do
              kfreeCall autorunBuf
              pure none
          | some fd => do
              let r ← onFs (ipoFsRead m.dev fd m.fresh stat.size 0)
              if r.1.any (stat.size.toNat ≤ ·) then
                pure (some (autorunBuf,
                  ((List.range stat.size.toNat).map r.2).takeWhile (· ≠ 0)))
              else do
                kfreeCall autorunBuf
                pure none

/-- The part of `autorun_init` that executes the file. -/
def runAutorun : Option (Nat × Str) → Prog (System σ) Unit
  | none => pure ()
  | some (autorunBuf, text) => do
      autorunLines m (text.length + 1) text
      kfreeCall autorunBuf

def autorunInit : Prog (System σ) Unit := do
  let r ← loadAutorun m
  runAutorun m r

end

end IpoOs
