import IpoOs.Runs
import IpoOs.Tape
import IpoOs.Terminal

/-!
# The scroll-back as a tape

The history, the terminal rows and the lines scrolled away below them are a
window on a tape. Scrolling moves the window and `terminal_auto_scroll` adds
a line at the end, as long as the two buffers together hold no more than
1024 lines; that bound is what keeps every index inside its buffer, and no
operation breaks it.

The tape of a terminal is the list of its history lines, then the rows it
shows, then the lines scrolled away below. A scroll is a step of the window
(the library's `Windowed.Scrolled`), which has the same tape; when the
window is back at the end, it is the window it was. Output is another
matter: it happens at the present only, where nothing is below, and there
`terminal_auto_scroll` puts the first row into the history and a blank line
at the end. Two rows above the terminal belong to the header of the screen;
they are no part of the tape and are carried through every lemma as a frame.
-/

namespace IpoOs

/-! ## Rows

Reading and writing a row of eighty cells. -/

theorem readLine_writeLine_self (vga : Vga) (row : Nat) (line : Line) :
    readLine (writeLine vga row line) row = line := by
  funext c
  have hc := c.isLt
  have h : row * 80 ≤ row * 80 + c.val ∧ row * 80 + c.val - row * 80 < 80 := by omega
  unfold readLine writeLine
  rw [dif_pos h]
  congr 1
  exact Fin.ext (by simp)

theorem readLine_writeLine_of_ne {vga : Vga} {row row' : Nat} {line : Line} (h : row' ≠ row) :
    readLine (writeLine vga row line) row' = readLine vga row' := by
  funext c
  have hc := c.isLt
  unfold readLine writeLine
  rw [dif_neg (by omega)]

theorem writeLine_above {vga : Vga} {row : Nat} {line : Line} {i : Nat} (h : i < row * 80) :
    writeLine vga row line i = vga i := dif_neg (by omega)

/-- The rows after the loop that copies each row to the one above it. -/
theorem readLine_shiftUp (n r : Nat) (vga : Vga) (row : Nat) :
    readLine (shiftUp n r vga) row
      = readLine vga (if topRow + r ≤ row ∧ row < topRow + r + n then row + 1 else row) := by
  induction n generalizing r vga with
  | zero =>
      rw [if_neg (by omega)]
      rfl
  | succ n ih =>
      rw [shiftUp, ih]
      rcases em (row = topRow + r) with rfl | hne
      · rw [if_neg (by omega), if_pos (by omega), readLine_writeLine_self]
      · rw [readLine_writeLine_of_ne (by split <;> omega)]
        congr 1
        split <;> split <;> omega

/-- The rows after the loop that copies each row to the one below it. -/
theorem readLine_shiftDown (r : Nat) (vga : Vga) (row : Nat) :
    readLine (shiftDown r vga) row
      = readLine vga (if topRow < row ∧ row ≤ topRow + r then row - 1 else row) := by
  induction r generalizing vga with
  | zero =>
      rw [if_neg (by omega)]
      rfl
  | succ r ih =>
      rw [shiftDown, ih]
      rcases em (row = topRow + r + 1) with rfl | hne
      · rw [if_neg (by omega), if_pos (by omega), readLine_writeLine_self]
        rfl
      · rw [readLine_writeLine_of_ne (by split <;> omega)]
        congr 1
        split <;> split <;> omega

theorem shiftUp_above (n r : Nat) (vga : Vga) {i : Nat} (h : i < vgaStart) :
    shiftUp n r vga i = vga i := by
  have htop : vgaStart = topRow * 80 := rfl
  induction n generalizing r vga with
  | zero => rfl
  | succ n ih =>
      rw [shiftUp, ih]
      exact writeLine_above (by omega)

theorem shiftDown_above (r : Nat) (vga : Vga) {i : Nat} (h : i < vgaStart) :
    shiftDown r vga i = vga i := by
  have htop : vgaStart = topRow * 80 := rfl
  induction r generalizing vga with
  | zero => rfl
  | succ r ih =>
      rw [shiftDown, ih]
      exact writeLine_above (by omega)

theorem shiftUp_writeLine_above (vga : Vga) (line : Line) {i : Nat} (h : i < vgaStart) :
    writeLine (shiftUp (terminalRows - 1) 0 vga) (topRow + terminalRows - 1) line i = vga i := by
  have h1 : vgaStart = 160 := rfl
  have h2 : topRow + terminalRows - 1 = 24 := rfl
  rw [writeLine_above (by omega), shiftUp_above _ _ _ h]

/-! ## The tape

The buffers and the rows as lists of lines. -/

def screenRows (vga : Vga) : List Line :=
  (List.range terminalRows).map fun i => readLine vga (topRow + i)

/-- The first `n` lines of a buffer. -/
def stored (buf : Nat → Line) (n : Nat) : List Line := (List.range n).map buf

def Terminal.windowed (t : Terminal) : Windowed Line where
  before := stored t.topBuffer t.topCount
  window := screenRows t.vga
  after := (stored t.bottomBuffer t.bottomCount).reverse

/-- The history, the terminal rows, and what was scrolled away below them. -/
def Terminal.tape (t : Terminal) : List Line := t.windowed.tape

@[simp] theorem length_stored (buf : Nat → Line) (n : Nat) : (stored buf n).length = n := by
  simp [stored]

theorem stored_succ (buf : Nat → Line) (n : Nat) :
    stored buf (n + 1) = stored buf n ++ [buf n] := by
  simp [stored, List.range_succ]

theorem stored_congr {buf buf' : Nat → Line} {n : Nat} (h : ∀ i, i < n → buf i = buf' i) :
    stored buf n = stored buf' n := by
  refine List.map_congr_left fun i hi => ?_
  exact h i (List.mem_range.mp hi)

theorem stored_setLine (buf : Nat → Line) (n : Nat) (line : Line) :
    stored (setLine buf n line) (n + 1) = stored buf n ++ [line] := by
  have hbuf : stored (setLine buf n line) n = stored buf n :=
    stored_congr fun i hi => if_neg (by omega)
  have hlast : setLine buf n line n = line := if_pos rfl
  rw [stored_succ, hbuf, hlast]

theorem screenRows_head (vga : Vga) :
    screenRows vga = readLine vga topRow
      :: (List.range (terminalRows - 1)).map fun i => readLine vga (topRow + i + 1) := by
  unfold screenRows
  rw [show terminalRows = (terminalRows - 1) + 1 from rfl, List.range_succ_eq_map, List.map_cons,
    List.map_map]
  rfl

theorem screenRows_last (vga : Vga) :
    screenRows vga = ((List.range (terminalRows - 1)).map fun i => readLine vga (topRow + i))
      ++ [readLine vga (topRow + terminalRows - 1)] := by
  unfold screenRows
  rw [show terminalRows = (terminalRows - 1) + 1 from rfl, List.range_succ, List.map_append]
  rfl

theorem screenRows_up (vga : Vga) (line : Line) :
    screenRows (writeLine (shiftUp (terminalRows - 1) 0 vga) (topRow + terminalRows - 1) line)
      = ((List.range (terminalRows - 1)).map fun i => readLine vga (topRow + i + 1)) ++ [line] := by
  rw [screenRows_last, readLine_writeLine_self]
  congr 1
  refine List.map_congr_left fun i hi => ?_
  have hi' : i < 22 := List.mem_range.mp hi
  have h1 : topRow = 2 := rfl
  have h2 : terminalRows = 23 := rfl
  rw [readLine_writeLine_of_ne (by omega), readLine_shiftUp, if_pos (by omega)]

theorem screenRows_down (vga : Vga) (line : Line) :
    screenRows (writeLine (shiftDown (terminalRows - 1) vga) topRow line)
      = line :: (List.range (terminalRows - 1)).map fun i => readLine vga (topRow + i) := by
  rw [screenRows_head, readLine_writeLine_self]
  congr 1
  refine List.map_congr_left fun i hi => ?_
  have hi' : i < 22 := List.mem_range.mp hi
  have h1 : topRow = 2 := rfl
  have h2 : terminalRows = 23 := rfl
  rw [readLine_writeLine_of_ne (by omega), readLine_shiftDown, if_pos (by omega)]
  rfl

/-! ## The operations

One lemma for each function: it returns, since under `Bounded` no index
leaves its buffer, and what it does to the tape. -/

/-- The bound the two buffers share. -/
def Terminal.Bounded (t : Terminal) : Prop := t.topCount + t.bottomCount ≤ scrollHistorySize

/-- Nothing but the place of the window changed. -/
structure Terminal.ScrolledTo (t t' : Terminal) : Prop where
  scrolled : Windowed.Scrolled t.windowed t'.windowed
  above : ∀ i, i < vgaStart → t'.vga i = t.vga i

namespace Terminal

variable {t t' t'' : Terminal}

theorem bounded_iff :
    t.Bounded ↔ t.windowed.before.length + t.windowed.after.length ≤ scrollHistorySize := by
  simp [Bounded, windowed]

theorem ScrolledTo.refl (t : Terminal) : t.ScrolledTo t := ⟨.refl, fun _ _ => rfl⟩

theorem ScrolledTo.trans (h : t.ScrolledTo t') (h' : t'.ScrolledTo t'') : t.ScrolledTo t'' :=
  ⟨h.scrolled.trans h'.scrolled, fun i hi => (h'.above i hi).trans (h.above i hi)⟩

theorem ScrolledTo.bounded (h : t.ScrolledTo t') (hb : t.Bounded) : t'.Bounded := by
  rw [bounded_iff] at hb ⊢
  rw [h.scrolled.hidden]
  exact hb

theorem moveForward_spec (hb : t.Bounded) (hpos : 0 < t.bottomCount) :
    ∃ t', moveForward t = some t' ∧ t.ScrolledTo t' ∧ t'.bottomCount = t.bottomCount - 1 := by
  obtain ⟨n, hn⟩ : ∃ n, t.bottomCount = n + 1 := ⟨t.bottomCount - 1, by omega⟩
  unfold Bounded at hb
  have htop : t.topCount < scrollHistorySize := by omega
  have hbottom : t.bottomCount - 1 < scrollHistorySize := by omega
  simp only [moveForward, storeLine, loadLine, if_pos htop, if_pos hbottom]
  refine ⟨_, rfl, ⟨Relation.ReflTransGen.single (Or.inr ?_), fun i hi => ?_⟩, rfl⟩
  · show Windowed.Back
      ⟨stored (setLine t.topBuffer t.topCount (readLine t.vga topRow)) (t.topCount + 1),
        screenRows (writeLine (shiftUp (terminalRows - 1) 0 t.vga) (topRow + terminalRows - 1)
          (t.bottomBuffer (t.bottomCount - 1))),
        (stored t.bottomBuffer (t.bottomCount - 1)).reverse⟩
      ⟨stored t.topBuffer t.topCount, screenRows t.vga,
        (stored t.bottomBuffer t.bottomCount).reverse⟩
    rw [stored_setLine, screenRows_up, screenRows_head t.vga, hn, Nat.add_sub_cancel, stored_succ,
      List.reverse_append]
    exact Windowed.Back.mk _ _ _ _ _
  · exact shiftUp_writeLine_above _ _ hi

theorem forwardLoop_spec (n : Nat) (hb : t.Bounded) (hn : n ≤ t.bottomCount) :
    ∃ t', forwardLoop n t = some t' ∧ t.ScrolledTo t' ∧ t'.bottomCount = t.bottomCount - n := by
  induction n generalizing t with
  | zero => exact ⟨t, rfl, .refl t, rfl⟩
  | succ n ih =>
      obtain ⟨t₁, hrun, hs, hcount⟩ := moveForward_spec hb (by omega)
      obtain ⟨t₂, hrun', hs', hcount'⟩ := ih (hs.bounded hb) (by omega)
      refine ⟨t₂, ?_, hs.trans hs', by omega⟩
      rw [forwardLoop, if_pos (by omega), hrun, Option.bind_some, hrun']

theorem ScrolledTo.cursor (h : t.ScrolledTo t') (b : Bool) :
    t.ScrolledTo { t' with cursorShown := b } := ⟨h.scrolled, h.above⟩

theorem returnToPresent_spec (hb : t.Bounded) :
    ∃ t', returnToPresent t = some t' ∧ t.ScrolledTo t' ∧ t'.bottomCount = 0 := by
  unfold returnToPresent
  rcases em (t.bottomCount = 0) with h0 | h0
  · exact ⟨t, if_pos h0, .refl t, h0⟩
  · obtain ⟨t', hrun, hs, hcount⟩ := forwardLoop_spec t.bottomCount hb (Nat.le_refl _)
    rw [if_neg h0, hrun]
    exact ⟨_, rfl, hs.cursor true, by rw [hcount, Nat.sub_self]⟩

theorem scrollDown_spec (hb : t.Bounded) :
    ∃ t', scrollDown t = some t' ∧ t.ScrolledTo t' := by
  unfold scrollDown
  rcases em (t.bottomCount = 0) with h0 | h0
  · exact ⟨t, if_pos h0, .refl t⟩
  · obtain ⟨t', hrun, hs, -⟩ := moveForward_spec hb (Nat.pos_of_ne_zero h0)
    rw [if_neg h0, hrun]
    exact ⟨_, rfl, hs.cursor _⟩

/-- A line back in time moves the window back: there is room for the line it leaves. -/
theorem scrollUp_spec (hb : t.Bounded) : ∃ t', scrollUp t = some t' ∧ t.ScrolledTo t' := by
  unfold scrollUp
  rcases em (t.topCount = 0) with h0 | h0
  · exact ⟨t, if_pos h0, .refl t⟩
  obtain ⟨n, hn⟩ : ∃ n, t.topCount = n + 1 := ⟨t.topCount - 1, by omega⟩
  unfold Bounded at hb
  have hroom : t.bottomCount < scrollHistorySize := by omega
  have htop : t.topCount - 1 < scrollHistorySize := by omega
  rw [if_neg h0]
  simp only [saveBottomLine, storeLine, loadLine, if_pos hroom, Option.bind_eq_bind,
    Option.bind_some, if_pos htop]
  refine ⟨_, rfl, Relation.ReflTransGen.single (Or.inl ?_), fun i hi => ?_⟩
  · show Windowed.Back
      ⟨stored t.topBuffer t.topCount, screenRows t.vga,
        (stored t.bottomBuffer t.bottomCount).reverse⟩
      ⟨stored t.topBuffer (t.topCount - 1),
        screenRows (writeLine (shiftDown (terminalRows - 1) t.vga) topRow
          (t.topBuffer (t.topCount - 1))),
        (stored (setLine t.bottomBuffer t.bottomCount (readLine t.vga (topRow + terminalRows - 1)))
          (t.bottomCount + 1)).reverse⟩
    rw [stored_setLine, screenRows_down, screenRows_last t.vga, hn, Nat.add_sub_cancel, stored_succ,
      List.reverse_append]
    exact Windowed.Back.mk _ _ _ _ _
  · show writeLine (shiftDown (terminalRows - 1) t.vga) topRow _ i = t.vga i
    have h1 : vgaStart = topRow * 80 := rfl
    rw [writeLine_above (by omega), shiftDown_above _ _ hi]

theorem stored_dropOldest (buf : Nat → Line) :
    stored (dropOldest buf) (scrollHistorySize - 1) = (stored buf scrollHistorySize).tail := by
  unfold stored
  rw [show scrollHistorySize = (scrollHistorySize - 1) + 1 from rfl, List.range_succ_eq_map,
    List.map_cons, List.tail_cons, List.map_map]
  refine List.map_congr_left fun i hi => ?_
  exact if_pos (List.mem_range.mp hi)

/-- The top line goes to the history; a full history makes room for it. -/
theorem saveTopLine_spec (hle : t.topCount ≤ scrollHistorySize) :
    ∃ t', saveTopLine t = some t' ∧ t'.vga = t.vga
      ∧ stored t'.topBuffer t'.topCount = if t.topCount < scrollHistorySize
        then stored t.topBuffer t.topCount ++ [readLine t.vga topRow]
        else (stored t.topBuffer t.topCount).tail ++ [readLine t.vga topRow] := by
  unfold saveTopLine
  rcases em (t.topCount < scrollHistorySize) with hlt | hge
  · simp only [if_pos hlt, storeLine]
    exact ⟨_, rfl, rfl, stored_setLine _ _ _⟩
  · have hfull : t.topCount = scrollHistorySize := by omega
    have hlast : scrollHistorySize - 1 < scrollHistorySize := by decide
    simp only [if_neg hge, storeLine, if_pos hlast]
    refine ⟨_, rfl, rfl, ?_⟩
    show stored (setLine (dropOldest t.topBuffer) (scrollHistorySize - 1) _) t.topCount = _
    rw [hfull, ← stored_dropOldest]
    exact stored_setLine _ (scrollHistorySize - 1) _

theorem terminalAutoScroll_spec (hb : t.Bounded) (h0 : t.bottomCount = 0) :
    ∃ t', terminalAutoScroll t = some t'
      ∧ Windowed.Emitted scrollHistorySize blankLine t.windowed t'.windowed
      ∧ (∀ i, i < vgaStart → t'.vga i = t.vga i) ∧ t'.bottomCount = 0 := by
  unfold Bounded at hb
  obtain ⟨t₁, hsave, hvga, htop⟩ := @saveTopLine_spec t (by omega)
  unfold terminalAutoScroll
  rw [hsave]
  refine ⟨_, rfl, ?_, fun i hi => ?_, rfl⟩
  · have hw : t.windowed = ⟨stored t.topBuffer t.topCount, readLine t.vga topRow
        :: (List.range (terminalRows - 1)).map fun i => readLine t.vga (topRow + i + 1), []⟩ := by
      unfold windowed
      rw [h0, screenRows_head]
      rfl
    show Windowed.Emitted scrollHistorySize blankLine t.windowed
      ⟨stored t₁.topBuffer t₁.topCount,
        screenRows (writeLine (shiftUp (terminalRows - 1) 0 t₁.vga) (topRow + terminalRows - 1)
          blankLine), []⟩
    rw [hw, htop, hvga, screenRows_up]
    have hemit := @Windowed.Emitted.mk _ scrollHistorySize blankLine
      (stored t.topBuffer t.topCount) (readLine t.vga topRow)
      ((List.range (terminalRows - 1)).map fun i => readLine t.vga (topRow + i + 1))
    rwa [length_stored] at hemit
  · show writeLine (shiftUp (terminalRows - 1) 0 t₁.vga) _ _ i = t.vga i
    rw [shiftUp_writeLine_above _ _ hi, hvga]

theorem bounded_of_emitted (hb : t.Bounded) (h0' : t'.bottomCount = 0)
    (h : Windowed.Emitted scrollHistorySize blankLine t.windowed t'.windowed) : t'.Bounded := by
  unfold Bounded at hb ⊢
  have hle : t.windowed.before.length ≤ scrollHistorySize := by
    show (stored t.topBuffer t.topCount).length ≤ _
    rw [length_stored]
    omega
  have hle' := h.before_le (by decide) hle
  have hlen : t'.windowed.before.length = t'.topCount := length_stored _ _
  omega

/-- The cursor that `putchar_color` starts from. -/
def fixedCursor (t : Terminal) : Terminal :=
  { t with cursor :=
      if t.cursor ≥ terminalBottom ∨ t.cursor < vgaStart then vgaStart else t.cursor }

theorem fixedCursor_inside (t : Terminal) :
    vgaStart ≤ t.fixedCursor.cursor ∧ t.fixedCursor.cursor < terminalBottom := by
  unfold fixedCursor
  dsimp only
  split
  · decide
  · omega

theorem fixedCursor_eq (hlo : vgaStart ≤ t.cursor) (hhi : t.cursor < terminalBottom) :
    t.fixedCursor = t := by
  unfold fixedCursor
  rw [if_neg (by omega)]

theorem putcharColor_spec (hb : t.Bounded) (h0 : t.bottomCount = 0) (c fg bg : UInt8) :
    ∃ t', putcharColor c fg bg t = some t' ∧ t'.Bounded ∧ t'.bottomCount = 0
      ∧ ∀ i, i < vgaStart → t'.vga i = t.vga i := by
  unfold putcharColor
  generalize hcur : (if t.cursor ≥ terminalBottom ∨ t.cursor < vgaStart then vgaStart
    else t.cursor) = cursor
  have hstart : vgaStart ≤ cursor := by
    rw [← hcur]
    split
    · exact Nat.le_refl _
    · omega
  have hcell : ∀ i, i < vgaStart → (putCell c fg bg t.vga cursor).1 i = t.vga i := by
    intro i hi
    unfold putCell
    split
    · rfl
    split
    · rfl
    split
    · rfl
    · exact if_neg (by omega)
  dsimp only
  split
  · obtain ⟨t', hrun, hemit, habove, h0'⟩ :=
      @terminalAutoScroll_spec { t with vga := (putCell c fg bg t.vga cursor).1 } hb h0
    have hb' := bounded_of_emitted (t := { t with vga := (putCell c fg bg t.vga cursor).1 })
      hb h0' hemit
    rw [hrun]
    exact ⟨_, rfl, hb', h0', fun i hi => (habove i hi).trans (hcell i hi)⟩
  · exact ⟨_, rfl, hb, h0, hcell⟩

end Terminal

/-! ## Runs

The events are the functions that the rest of the kernel calls: the four
kinds of scrolling, and a character. -/

/-- What happens to the terminal. -/
inductive TerminalEvent where
  | putchar (c fg bg : UInt8)
  | autoScroll
  | scrollUp
  | scrollDown
  | returnToPresent

namespace TerminalEvent

/-- The code of an event; `none` is an index outside a history buffer. -/
def run : TerminalEvent → Terminal → Option Terminal
  | .putchar c fg bg => putcharColor c fg bg
  | .autoScroll => terminalAutoScroll
  | .scrollUp => IpoOs.scrollUp
  | .scrollDown => IpoOs.scrollDown
  | .returnToPresent => IpoOs.returnToPresent

def isScroll : TerminalEvent → Bool
  | .putchar _ _ _ => false
  | .autoScroll => false
  | _ => true

/-- Output is at the present. -/
def Allowed (t : Terminal) (e : TerminalEvent) : Prop := e.isScroll = false → t.bottomCount = 0

end TerminalEvent

/-- A run of the terminal with output at the present. -/
abbrev TerminalRun : Terminal → Terminal → Prop := RunBy TerminalEvent.run TerminalEvent.Allowed

/-- A run of scrolling only. -/
abbrev ScrollRun : Terminal → Terminal → Prop :=
  RunBy TerminalEvent.run fun _ e => e.isScroll = true

section

variable {t t' : Terminal} {e : TerminalEvent}

theorem scroll_spec (hb : t.Bounded) (he : e.isScroll = true) :
    ∃ t', e.run t = some t' ∧ t.ScrolledTo t' := by
  cases e with
  | putchar c fg bg => cases he
  | autoScroll => cases he
  | scrollUp => exact Terminal.scrollUp_spec hb
  | scrollDown => exact Terminal.scrollDown_spec hb
  | returnToPresent =>
      obtain ⟨t', hrun, hs, -⟩ := Terminal.returnToPresent_spec hb
      exact ⟨t', hrun, hs⟩

theorem event_spec (hb : t.Bounded) (he : TerminalEvent.Allowed t e) :
    ∃ t', e.run t = some t' ∧ t'.Bounded ∧ ∀ i, i < vgaStart → t'.vga i = t.vga i := by
  cases hkind : e.isScroll with
  | true =>
      obtain ⟨t', hrun, hs⟩ := scroll_spec hb hkind
      exact ⟨t', hrun, hs.bounded hb, hs.above⟩
  | false =>
      have h0 := he hkind
      cases e with
      | putchar c fg bg =>
          obtain ⟨t', hrun, hb', -, habove⟩ := Terminal.putcharColor_spec hb h0 c fg bg
          exact ⟨t', hrun, hb', habove⟩
      | autoScroll =>
          obtain ⟨t', hrun, hemit, habove, h0'⟩ := Terminal.terminalAutoScroll_spec hb h0
          exact ⟨t', hrun, Terminal.bounded_of_emitted hb h0' hemit, habove⟩
      | scrollUp => cases hkind
      | scrollDown => cases hkind
      | returnToPresent => cases hkind

theorem TerminalRun.spec (h : TerminalRun t t') (hb : t.Bounded) :
    t'.Bounded ∧ ∀ i, i < vgaStart → t'.vga i = t.vga i := by
  refine @RunBy.invariant _ _ _ _ (fun s => s.Bounded ∧ ∀ i, i < vgaStart → s.vga i = t.vga i)
    ?_ _ _ h ⟨hb, fun _ _ => rfl⟩
  rintro s e s' ⟨hb, habove⟩ he hrun
  obtain ⟨s'', hrun', hb', habove'⟩ := event_spec hb he
  obtain rfl := Option.some.inj (hrun.symm.trans hrun')
  exact ⟨hb', fun i hi => (habove' i hi).trans (habove i hi)⟩

theorem ScrollRun.spec (h : ScrollRun t t') (hb : t.Bounded) : t.ScrolledTo t' := by
  refine (@RunBy.invariant _ _ _ _ (fun s => s.Bounded ∧ t.ScrolledTo s) ?_ _ _ h
    ⟨hb, .refl t⟩).2
  rintro s e s' ⟨hb, hs⟩ he hrun
  obtain ⟨s'', hrun', hs'⟩ := scroll_spec hb he
  obtain rfl := Option.some.inj (hrun.symm.trans hrun')
  exact ⟨hs'.bounded hb, hs.trans hs'⟩

theorem terminalInitialize_bounded (t : Terminal) : (terminalInitialize t).Bounded :=
  Nat.zero_le _

/-- In every state the terminal reaches: the two histories together hold at most 1024
lines; no event uses an index outside them; scrolling leaves the tape as it is; going
back to the present after any scrolling restores the history and the screen; a new line
is added at the end, and the oldest is dropped only when 1024 are held; and the first two
rows are those of the start. -/
theorem terminal_tape {t₀ : Terminal} (h : TerminalRun (terminalInitialize t₀) t) :
    t.topCount + t.bottomCount ≤ 1024
    ∧ (∀ e, TerminalEvent.Allowed t e → (e.run t).isSome)
    ∧ (∀ (e : TerminalEvent) t', e.isScroll = true → e.run t = some t' → t'.tape = t.tape)
    ∧ (t.bottomCount = 0 → ∀ t₁ t₂, ScrollRun t t₁ → returnToPresent t₁ = some t₂ →
      t₂.windowed = t.windowed ∧ ∀ i, i < vgaStart → t₂.vga i = t.vga i)
    ∧ (t.bottomCount = 0 → ∃ t', terminalAutoScroll t = some t'
      ∧ t'.tape = (if t.topCount < 1024 then t.tape else t.tape.tail) ++ [blankLine])
    ∧ ∀ i, i < 160 → t.vga i = (terminalInitialize t₀).vga i := by
  obtain ⟨hb, habove⟩ := TerminalRun.spec h (terminalInitialize_bounded t₀)
  refine ⟨hb, fun e he => ?_, fun e t' he hrun => ?_, fun h0 t₁ t₂ hs hrun => ?_, fun h0 => ?_,
    habove⟩
  · obtain ⟨t', hrun, -⟩ := event_spec hb he
    rw [hrun]
    rfl
  · obtain ⟨t'', hrun', hs⟩ := scroll_spec hb he
    obtain rfl := Option.some.inj (hrun.symm.trans hrun')
    exact hs.scrolled.tape
  · have hs₁ := ScrollRun.spec hs hb
    obtain ⟨t₃, hrun', hs₂, h0'⟩ := Terminal.returnToPresent_spec (hs₁.bounded hb)
    obtain rfl := Option.some.inj (hrun.symm.trans hrun')
    have hend : ∀ s : Terminal, s.bottomCount = 0 → s.windowed.after = [] := by
      intro s h
      show (stored s.bottomBuffer s.bottomCount).reverse = []
      rw [h]
      rfl
    have hall := hs₁.trans hs₂
    exact ⟨hall.scrolled.eq (hend t h0) (hend t₂ h0'), hall.above⟩
  · obtain ⟨t', hrun, hemit, -, -⟩ := Terminal.terminalAutoScroll_spec hb h0
    refine ⟨t', hrun, ?_⟩
    have htape := hemit.tape (by decide)
    rw [show t.windowed.before.length = t.topCount from length_stored _ _] at htape
    exact htape

end

def blankTerminal : Terminal where
  vga := fun _ => 0
  cursor := 0
  cursorShown := false
  topBuffer := fun _ _ => 0
  bottomBuffer := fun _ _ => 0
  topCount := 0
  bottomCount := 0

def scrolledTerminal : Terminal :=
  ((terminalAutoScroll (terminalInitialize blankTerminal)).getD blankTerminal)

theorem terminal_tape_scrolled :
    scrolledTerminal.topCount + scrolledTerminal.bottomCount ≤ 1024
    ∧ (∀ e, TerminalEvent.Allowed scrolledTerminal e → (e.run scrolledTerminal).isSome)
    ∧ (∀ (e : TerminalEvent) t', e.isScroll = true → e.run scrolledTerminal = some t' →
      t'.tape = scrolledTerminal.tape)
    ∧ (scrolledTerminal.bottomCount = 0 → ∀ t₁ t₂, ScrollRun scrolledTerminal t₁ →
      returnToPresent t₁ = some t₂ → t₂.windowed = scrolledTerminal.windowed
        ∧ ∀ i, i < vgaStart → t₂.vga i = scrolledTerminal.vga i)
    ∧ (scrolledTerminal.bottomCount = 0 → ∃ t', terminalAutoScroll scrolledTerminal = some t'
      ∧ t'.tape = (if scrolledTerminal.topCount < 1024 then scrolledTerminal.tape
        else scrolledTerminal.tape.tail) ++ [blankLine])
    ∧ ∀ i, i < 160 → scrolledTerminal.vga i = (terminalInitialize blankTerminal).vga i :=
  terminal_tape (Relation.ReflTransGen.single ⟨.autoScroll, fun _ => rfl, rfl⟩)

end IpoOs
