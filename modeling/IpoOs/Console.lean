import IpoOs.Printf
import IpoOs.TerminalTape

/-!
# The console

`terminal_console`: the keyboard state and the key maps, the echo of what is
typed, the input buffer, and the command that the Enter key runs. What runs
a command is a parameter. It is given the string in the input buffer, and
besides the terminal it has a state of its own, the rest of the machine
(files, memory, processes), which the console hands on and does not look at.

Everything that the loop of the console does for one scancode is
`handleScancode`, a step on the console's state. The parameter that runs a
command is only reached through `enter`: this is why what it is called with
can be read off the steps.
-/

namespace IpoOs

/-! ## The keyboard

The state of the modifier keys, the table of keymaps, and the character of a
scancode. A hot key changes the keymap or scrolls and gives no character. -/

/-- The key maps of a keyboard, up to their last key. -/
structure KeyboardStruct where
  keymap : List UInt8
  shiftKeymap : List UInt8

def keymapEnglish : List UInt8 :=
  [0, 27, 49, 50, 51, 52, 53, 54, 55, 56, 57, 48, 45, 61, 8,
    9, 113, 119, 101, 114, 116, 121, 117, 105, 111, 112, 91, 93, 10,
    0, 97, 115, 100, 102, 103, 104, 106, 107, 108, 59, 39, 96,
    0, 92, 122, 120, 99, 118, 98, 110, 109, 44, 46, 47, 0, 42, 0, 32]

def keymapEnglishShift : List UInt8 :=
  [0, 27, 33, 64, 35, 36, 37, 94, 38, 42, 40, 41, 95, 43, 8,
    9, 81, 87, 69, 82, 84, 89, 85, 73, 79, 80, 123, 125, 10,
    0, 65, 83, 68, 70, 71, 72, 74, 75, 76, 58, 34, 126,
    0, 124, 90, 88, 67, 86, 66, 78, 77, 60, 62, 63, 0, 42, 0, 32]

def availableKeyboards : List KeyboardStruct := [⟨keymapEnglish, keymapEnglishShift⟩]

/-- The variables of `keymap.c`. -/
structure Keyboard where
  keyState : Nat → Bool
  shiftMode : Bool
  currentIndex : Nat
  currentKeyboard : KeyboardStruct

/-- One entry of `key_state`. -/
def Keyboard.setKey (k : Keyboard) (i : Nat) (down : Bool) : Keyboard :=
  { k with keyState := fun j => if j = i then down else k.keyState j }

def updateHotKeyState (scancode : UInt8) (k : Keyboard) : Keyboard :=
  if scancode = 0x2A then k.setKey 0x2A true
  else if scancode = 0xAA then k.setKey 0x2A false
  else if scancode = 0x36 then k.setKey 0x36 true
  else if scancode = 0xB6 then k.setKey 0x36 false
  else if scancode = 0x1D then k.setKey 0x1D true
  else if scancode = 0x9D then k.setKey 0x1D false
  else if scancode = 0x38 then k.setKey 0x38 true
  else if scancode = 0xB8 then k.setKey 0x38 false
  else k

def switchToNextKeyboard (k : Keyboard) : Keyboard :=
  let index := if k.currentIndex + 1 ≥ availableKeyboards.length then 0 else k.currentIndex + 1
  { k with
    currentIndex := index
    currentKeyboard := availableKeyboards.getD index k.currentKeyboard }

def hotKeyHandler (k : Keyboard) : Keyboard :=
  let k := { k with shiftMode := k.keyState 0x2A || k.keyState 0x36 }
  if k.keyState 0x1D && (k.keyState 0x2A || k.keyState 0x36) then switchToNextKeyboard k else k

def getChar (k : Keyboard) (scancode : UInt8) : UInt8 :=
  if scancode = 0 then 0
  else (if k.shiftMode then k.currentKeyboard.shiftKeymap
    else k.currentKeyboard.keymap).getD scancode.toNat 0

/-! ## The console

The echo and the input buffer are kept in step by hand, character by
character; a tab is so many spaces in both. -/

def inputBufSize : Nat := 256

/-- The variables of the console, and the rest of the machine. -/
structure Console (ω : Type) where
  machine : ω
  term : Terminal
  keyboard : Keyboard
  inputBuf : Nat → UInt8
  inputLen : Nat
  promptShown : Bool

/-- What runs a command line: the result of `try_execute_command`, the exit code that
`process_get_exit_code` gives after it, and the machine and the terminal it leaves. -/
abbrev Exec (ω : Type) := List UInt8 → ω → Terminal → Option (Int × Int × ω × Terminal)

def promptStr : List UInt8 := [62, 32]

def promptFg : UInt8 := 10

namespace Console

variable {ω : Type}

def onTerm (f : Terminal → Option Terminal) (s : Console ω) : Option (Console ω) :=
  (f s.term).map fun t => { s with term := t }

def printPrompt (s : Console ω) : Option (Console ω) :=
  (promptStr.foldlM (fun t c => putcharColor c promptFg 0 t) s.term).map fun t =>
    { s with term := t, promptShown := true }

/-- `input_buf[input_len] = c`. -/
def storeInput (c : UInt8) (s : Console ω) : Option (Console ω) :=
  if s.inputLen < inputBufSize then
    some { s with inputBuf := fun i => if i = s.inputLen then c else s.inputBuf i }
  else none

/-- `putchar(c); input_buf[input_len++] = c;`. -/
def echo (c : UInt8) (s : Console ω) : Option (Console ω) := do
  let s ← s.onTerm (putchar c)
  let s ← s.storeInput c
  some { s with inputLen := s.inputLen + 1 }

def typeChar (c : UInt8) (s : Console ω) : Option (Console ω) :=
  if s.inputLen < inputBufSize - 1 then s.echo c else some s

def echoSpaces : (n : Nat) → Console ω → Option (Console ω)
  | 0, s => some s
  | n + 1, s => (s.echo 32).bind (echoSpaces n)

/-- A tab: spaces up to the next multiple of four, as many as there is room for. -/
def tab (s : Console ω) : Option (Console ω) :=
  let col := s.term.cursor % 80
  let spaces := 4 - col % 4
  let freeSpace := inputBufSize - 1 - s.inputLen
  if freeSpace = 0 then some s
  else echoSpaces (if spaces > freeSpace then freeSpace else spaces) s

/-- The cursor moved back, the cell overwritten, and the cursor moved back again. -/
def eraseCell (t : Terminal) : Option Terminal :=
  if t.cursor > 0 then
    (putchar 32 { t with cursor := t.cursor - 1 }).map fun t' => { t' with cursor := t.cursor - 1 }
  else some t

def backspace (s : Console ω) : Option (Console ω) :=
  if s.inputLen > 0 then
    (s.onTerm eraseCell).map fun s => { s with inputLen := s.inputLen - 1 }
  else some s

/-- The string at `input_buf`. -/
def commandLine (s : Console ω) : List UInt8 :=
  ((List.range inputBufSize).map s.inputBuf).takeWhile (· ≠ 0)

/-- The message after a command; the string of a `%s` is the command line. -/
def resultMessage (result exitCode : Int) (cmdline : List UInt8) : List UInt8 :=
  if result = 0 then  -- "Command not found: %s\n"
    (printf (fun _ => cmdline) [67, 111, 109, 109, 97, 110, 100, 32, 110, 111, 116, 32, 102, 111,
      117, 110, 100, 58, 32, 37, 115, 10] (fun _ => 1)).chars
  else if result < 0 then  -- "Execution failed (error %d): %s\n"
    (printf (fun _ => cmdline) [69, 120, 101, 99, 117, 116, 105, 111, 110, 32, 102, 97, 105, 108,
      101, 100, 32, 40, 101, 114, 114, 111, 114, 32, 37, 100, 41, 58, 32, 37, 115, 10]
      (fun i => if i = 0 then UInt32.ofInt result else 1)).chars
  else  -- "Return value: %d\n"
    (printf (fun _ => cmdline) [82, 101, 116, 117, 114, 110, 32, 118, 97, 108, 117, 101, 58, 32, 37,
      100, 10] (fun _ => UInt32.ofInt exitCode)).chars

def runCommand (exec : Exec ω) (s : Console ω) : Option (Console ω) :=
  if s.inputLen > 0 then do
    let (result, exitCode, m, t) ← exec s.commandLine s.machine s.term
    let t ← putchars (resultMessage result exitCode s.commandLine) t
    some { s with machine := m, term := t }
  else some s

def enter (exec : Exec ω) (s : Console ω) : Option (Console ω) := do
  let s ← s.onTerm (putchar 10)
  let s ← s.storeInput 0
  let s ← s.runCommand exec
  printPrompt { s with inputLen := 0, promptShown := false }

def handleChar (exec : Exec ω) (c : UInt8) (s : Console ω) : Option (Console ω) :=
  if c = 10 ∨ c = 13 then s.enter exec
  else if c = 8 ∨ c = 127 then s.backspace
  else if c = 9 then s.tab
  else if 32 ≤ c ∧ c < 127 then s.typeChar c
  else some s

def hotKeys (scancode : UInt8) (s : Console ω) : Console ω :=
  { s with keyboard := hotKeyHandler (updateHotKeyState scancode s.keyboard) }

/-- A key that is not a break code: the page and arrow keys scroll. -/
def handleKey (exec : Exec ω) (scancode : UInt8) (s : Console ω) : Option (Console ω) :=
  if scancode = 0x51 ∨ scancode = 0x50 then s.onTerm scrollDown
  else if scancode = 0x49 ∨ scancode = 0x48 then s.onTerm scrollUp
  else if getChar s.keyboard scancode = 0 then some s
  else (s.onTerm returnToPresent).bind (handleChar exec (getChar s.keyboard scancode))

/-- What comes after the prompt in `terminal_console`. -/
def handleScancode (exec : Exec ω) (scancode : UInt8) (s : Console ω) : Option (Console ω) :=
  if scancode = 0 then some s
  else if scancode &&& 0x80 ≠ 0 then some (s.hotKeys scancode)
  else (s.hotKeys scancode).handleKey exec scancode

def terminalConsole (exec : Exec ω) (scancode : UInt8) (s : Console ω) : Option (Console ω) :=
  (if s.promptShown then some (s.hotKeys scancode) else printPrompt (s.hotKeys scancode)).bind
    (handleScancode exec scancode)

end Console

end IpoOs
