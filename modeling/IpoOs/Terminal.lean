import IpoOs.Bytes

/-!
# The terminal

The scroll-back of `terminal.c` and the output of `putchar.c` over it. The
screen is the video memory, 25 rows of 80 cells one after the other, of
which the terminal has the last 23. The two history buffers hold 1024 lines
each; a store or a load outside a buffer is `none`.

The variables of the source are the fields of a record, and the functions
are in its order. A store that the source makes without looking at the
bounds is an option, so that staying inside a buffer is something to prove:
it is part of `terminal_tape`.
-/

namespace IpoOs

/-- A line: a cell for each of the `VGA_WIDTH` columns. -/
abbrev Line := Fin 80 → UInt16

/-- The video memory. -/
abbrev Vga := Nat → UInt16

def scrollHistorySize : Nat := 1024

/-- `VGA_START_CURSOR_POSITION`. -/
def vgaStart : Nat := 160

/-- `terminal_top_row()`. -/
def topRow : Nat := vgaStart / 80

/-- `terminal_rows()`. -/
def terminalRows : Nat := 25 - topRow

def terminalBottom : Nat := (topRow + terminalRows) * 80

/-- The variables of `terminal.c` that the scroll-back uses, and the screen. -/
structure Terminal where
  vga : Vga
  cursor : Nat
  cursorShown : Bool
  topBuffer : Nat → Line
  bottomBuffer : Nat → Line
  topCount : Nat
  bottomCount : Nat

def vgaEntry (c fg bg : UInt8) : UInt16 :=
  UInt16.ofNat (c.toNat ||| (((bg.toNat <<< 4) ||| fg.toNat) <<< 8))

/-- `vga_entry(0x00, VGA_COLOR_WHITE, VGA_COLOR_BLACK)`. -/
def blankCell : UInt16 := vgaEntry 0 15 0

def blankLine : Line := fun _ => blankCell

/-! ## Lines of the screen

A line is eighty cells. The four moves read and write the video memory only. -/

/-- `read_line_from_vga`. -/
def readLine (vga : Vga) (row : Nat) : Line := fun c => vga (row * 80 + c.val)

/-- `write_line_to_vga`. -/
def writeLine (vga : Vga) (row : Nat) (line : Line) : Vga := fun i =>
  if h : row * 80 ≤ i ∧ i - row * 80 < 80 then line ⟨i - row * 80, h.2⟩ else vga i

/-- The loop that copies the row below to rows `topRow + r` on, `n` of them. -/
def shiftUp : (n r : Nat) → Vga → Vga
  | 0, _, vga => vga
  | n + 1, r, vga =>
      shiftUp n (r + 1) (writeLine vga (topRow + r) (readLine vga (topRow + r + 1)))

/-- The loop that copies the row above to rows `topRow + r` down to `topRow + 1`. -/
def shiftDown : (r : Nat) → Vga → Vga
  | 0, vga => vga
  | r + 1, vga => shiftDown r (writeLine vga (topRow + r + 1) (readLine vga (topRow + r)))

/-! ## The history buffers

Two stacks of lines, one for what has left the screen at the top and one for
what has left it at the bottom, with a common limit. -/

def setLine (buf : Nat → Line) (i : Nat) (line : Line) : Nat → Line := fun j =>
  if j = i then line else buf j

def storeLine (buf : Nat → Line) (i : Nat) (line : Line) : Option (Nat → Line) :=
  if i < scrollHistorySize then some (setLine buf i line) else none

def loadLine (buf : Nat → Line) (i : Nat) : Option Line :=
  if i < scrollHistorySize then some (buf i) else none

/-- The full history with its lines moved down by one. -/
def dropOldest (buf : Nat → Line) : Nat → Line := fun i =>
  if i < scrollHistorySize - 1 then buf (i + 1) else buf i

/-- The top line of the terminal saved to the history by `terminal_auto_scroll`. -/
def saveTopLine (t : Terminal) : Option Terminal :=
  if t.topCount < scrollHistorySize then do
    let top ← storeLine t.topBuffer t.topCount (readLine t.vga topRow)
    some { t with topBuffer := top, topCount := t.topCount + 1 }
  else do
    let top ← storeLine (dropOldest t.topBuffer) (scrollHistorySize - 1) (readLine t.vga topRow)
    some { t with topBuffer := top }

def terminalAutoScroll (t : Terminal) : Option Terminal := do
  let t ← saveTopLine t
  some { t with
    bottomCount := 0
    vga := writeLine (shiftUp (terminalRows - 1) 0 t.vga) (topRow + terminalRows - 1) blankLine }

/-! ## Scrolling

The view is moved by one line in either direction; output returns it to the
present first. -/

/-- One line forward in time: the body of the loop of `return_to_present`, which is also
that of `scroll_down`. -/
def moveForward (t : Terminal) : Option Terminal := do
  let top ← storeLine t.topBuffer t.topCount (readLine t.vga topRow)
  let line ← loadLine t.bottomBuffer (t.bottomCount - 1)
  some { t with
    topBuffer := top
    topCount := t.topCount + 1
    vga := writeLine (shiftUp (terminalRows - 1) 0 t.vga) (topRow + terminalRows - 1) line
    bottomCount := t.bottomCount - 1 }

/-- The loop of `return_to_present`, with at most `n` rounds: every round takes a line off
the bottom buffer. -/
def forwardLoop : (n : Nat) → Terminal → Option Terminal
  | 0, t => some t
  | n + 1, t => if t.bottomCount > 0 then (moveForward t).bind (forwardLoop n) else some t

def returnToPresent (t : Terminal) : Option Terminal :=
  if t.bottomCount = 0 then some t
  else do
    let t ← forwardLoop t.bottomCount t
    some { t with cursorShown := true }

def scrollDown (t : Terminal) : Option Terminal :=
  if t.bottomCount = 0 then some t
  else do
    let t ← moveForward t
    some { t with cursorShown := if t.bottomCount = 0 then true else t.cursorShown }

/-- The bottom line of the terminal saved by `scroll_up`, when there is room for it. -/
def saveBottomLine (t : Terminal) : Option Terminal :=
  if t.bottomCount < scrollHistorySize then do
    let bottom ← storeLine t.bottomBuffer t.bottomCount
      (readLine t.vga (topRow + terminalRows - 1))
    some { t with bottomBuffer := bottom, bottomCount := t.bottomCount + 1 }
  else some t

def scrollUp (t : Terminal) : Option Terminal :=
  if t.topCount = 0 then some t
  else do
    let t ← saveBottomLine { t with cursorShown := false }
    let line ← loadLine t.topBuffer (t.topCount - 1)
    some { t with
      vga := writeLine (shiftDown (terminalRows - 1) t.vga) topRow line
      topCount := t.topCount - 1 }

/-! ## Output

`putchar_color` writes one character, with the newline, the tab and the
carriage return, and scrolls when the cursor leaves the last row. -/

def setCell (vga : Vga) (i : Nat) (v : UInt16) : Vga := fun j => if j = i then v else vga j

/-- The character part of `putchar_color`: the screen and the cursor after it. -/
def putCell (c fg bg : UInt8) (vga : Vga) (cursor : Nat) : Vga × Nat :=
  if c = 10 then (vga, (cursor / 80 + 1) * 80)
  else if c = 13 then (vga, cursor / 80 * 80)
  else if c = 9 then
    (vga, if cursor + (8 - cursor % 80 % 8) ≥ terminalBottom then terminalBottom - 80
      else cursor + (8 - cursor % 80 % 8))
  else (setCell vga cursor (vgaEntry c fg bg), cursor + 1)

def putcharColor (c fg bg : UInt8) (t : Terminal) : Option Terminal :=
  let cursor := if t.cursor ≥ terminalBottom ∨ t.cursor < vgaStart then vgaStart else t.cursor
  let out := putCell c fg bg t.vga cursor
  let t := { t with vga := out.1 }
  if out.2 ≥ terminalBottom then do
    let t ← terminalAutoScroll t
    some { t with cursor := terminalBottom - 80 }
  else some { t with cursor := out.2 }

def putchar (c : UInt8) (t : Terminal) : Option Terminal := putcharColor c 7 0 t

/-- The characters of a text, one after the other. -/
def putchars (s : List UInt8) (t : Terminal) : Option Terminal :=
  s.foldlM (fun t c => putchar c t) t

/-! ## The start

The header at the top of the screen stays there. -/

/-- The cells of a string from `start` on. -/
def printString (start : Nat) (fg : UInt8) (s : List UInt8) (vga : Vga) : Vga := fun i =>
  if h : start ≤ i ∧ i - start < s.length then vgaEntry (s.get ⟨i - start, h.2⟩) fg 0 else vga i

/-- `print_header`: `IPO_OS` on the left, the author on the right. -/
def printHeader (vga : Vga) : Vga :=
  let createdBy : List UInt8 := [67, 114, 101, 97, 116, 101, 100, 32, 98, 121, 32, 73, 80, 79,
    108, 101, 107, 115, 101, 110, 107, 111]
  printString (80 - createdBy.length) 10 createdBy (printString 0 10 [73, 80, 79, 95, 79, 83] vga)

def vgaClear (vga : Vga) : Vga := fun i => if i < 2000 then blankCell else vga i

/-- `terminal_initialize`, less the variables of the prompt. -/
def terminalInitialize (t : Terminal) : Terminal :=
  let firstCell : (Nat → Line) → Nat → Line := fun buf i c =>
    if i = 0 ∧ c = 0 then 0 else buf i c
  { vga := printHeader (vgaClear t.vga)
    cursor := vgaStart
    cursorShown := true
    topBuffer := firstCell t.topBuffer
    bottomBuffer := firstCell t.bottomBuffer
    topCount := 0
    bottomCount := 0 }

end IpoOs
