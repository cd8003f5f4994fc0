import IpoOs.TerminalTape

/-!
# Text on the terminal from any row

A page is the text from the row the cursor started in, as many lines of it
as are written, with no end. The terminal shows the page through its history
and its rows, and everything `putchar` does is done to the page alike, with
one exception: a tab in the last eight columns goes to the next line, but in
the last row it goes back to the start of the same line.

Two runs of `putchar` on one string, from the first row and from another,
are compared through the page: each of them shows the page that `puts`
computes without a terminal. So the two show the same text as long as no tab
is wrapped in one run and sent back in the other, which is decided on the
string alone (`TabsAgree`).
-/

namespace IpoOs

/-! ## The page

Lines numbered from the row of the first character, and a cursor. `put` is
told whether a tab that wraps goes down or back. -/

/-- The lines of a text and the cursor. -/
structure Page where
  lines : Nat → Line
  line : Nat
  col : Nat

namespace Page

/-- The start of a line, after `n` lines. -/
def down (p : Page) (n : Nat) : Page := { p with line := p.line + n, col := 0 }

def setCell (p : Page) (v : UInt16) : Page :=
  { p with lines := fun i c => if i = p.line ∧ c.val = p.col then v else p.lines i c }

/-- The cursor at a column, or on the next line when there is no such column. -/
def moveTo (p : Page) (col : Nat) : Page := if col < 80 then { p with col := col } else p.down 1

/-- A tab that starts in the last eight columns. -/
def TabWraps (col : Nat) : Prop := 80 ≤ col + (8 - col % 8)

instance (col : Nat) : Decidable (TabWraps col) := inferInstanceAs (Decidable (_ ≤ _))

/-- One character, where the lines from `last` on are in the last row. -/
def put (last : Nat) (c : UInt8) (p : Page) : Page :=
  if c = 10 then p.down 1
  else if c = 13 then { p with col := 0 }
  else if c = 9 then
    if TabWraps p.col ∧ last ≤ p.line then { p with col := 0 }
    else p.moveTo (p.col + (8 - p.col % 8))
  else (p.setCell (vgaEntry c 7 0)).moveTo (p.col + 1)

def puts (last : Nat) (s : List UInt8) (p : Page) : Page := s.foldl (fun p c => p.put last c) p

def nextCol (c : UInt8) (col : Nat) : Nat :=
  if c = 10 ∨ c = 13 then 0
  else if c = 9 then if TabWraps col then 0 else col + (8 - col % 8)
  else if col + 1 < 80 then col + 1 else 0

/-- The lines that a character goes down where no line is in the last row. -/
def linesDown (c : UInt8) (col : Nat) : Nat :=
  if c = 10 then 1
  else if c = 13 then 0
  else if c = 9 then if TabWraps col then 1 else 0
  else if col + 1 < 80 then 0 else 1

/-- The cursor after a character where no line is in the last row. -/
def advance (c : UInt8) (pos : Nat × Nat) : Nat × Nat :=
  (pos.1 + linesDown c pos.2, nextCol c pos.2)

/-- Every tab that wraps finds the cursor in the last row of both pages or of neither. -/
def TabsAgree (last last' : Nat) : List UInt8 → Nat × Nat → Prop
  | [], _ => True
  | c :: s, pos =>
      (c = 9 → TabWraps pos.2 → (last ≤ pos.1 ↔ last' ≤ pos.1))
      ∧ TabsAgree last last' s (advance c pos)

instance decidableTabsAgree (last last' : Nat) :
    (s : List UInt8) → (pos : Nat × Nat) → Decidable (TabsAgree last last' s pos)
  | [], _ => isTrue trivial
  | c :: s, pos =>
      have := decidableTabsAgree last last' s (advance c pos)
      inferInstanceAs (Decidable ((c = 9 → TabWraps pos.2 → (last ≤ pos.1 ↔ last' ≤ pos.1))
        ∧ TabsAgree last last' s (advance c pos)))

variable {p q : Page} {last last' : Nat} {c : UInt8} {s : List UInt8} {pos : Nat × Nat}

@[simp] theorem moveTo_line (p : Page) (col : Nat) :
    (p.moveTo col).line = if col < 80 then p.line else p.line + 1 := by
  unfold moveTo
  split <;> rfl

@[simp] theorem moveTo_col (p : Page) (col : Nat) :
    (p.moveTo col).col = if col < 80 then col else 0 := by
  unfold moveTo
  split <;> rfl

theorem put_line (last : Nat) (c : UInt8) (p : Page) :
    (p.put last c).line = if c = 9 ∧ TabWraps p.col ∧ last ≤ p.line then p.line
      else p.line + linesDown c p.col := by
  unfold put linesDown
  rcases em (c = 10) with rfl | h10
  · rfl
  rcases em (c = 13) with rfl | h13
  · rfl
  rcases em (c = 9) with rfl | h9
  · rw [if_neg h10, if_neg h13, if_pos rfl, if_neg h10, if_neg h13, if_pos rfl]
    rcases em (TabWraps p.col) with hwrap | hwrap
    · simp only [hwrap, true_and]
      split
      · rfl
      · rw [moveTo_line, if_neg (Nat.not_lt.mpr hwrap), if_pos trivial]
    · simp only [hwrap, false_and, and_false, if_false]
      rw [moveTo_line, if_pos (Nat.not_le.mp hwrap), Nat.add_zero]
  · rw [if_neg h10, if_neg h13, if_neg h9, if_neg h10, if_neg h13, if_neg h9,
      if_neg fun hx => h9 hx.1, moveTo_line]
    split <;> rfl

theorem put_col (last : Nat) (c : UInt8) (p : Page) : (p.put last c).col = nextCol c p.col := by
  unfold put nextCol
  rcases em (c = 10) with rfl | h10
  · rfl
  rcases em (c = 13) with rfl | h13
  · rfl
  rw [if_neg h10, if_neg h13, if_neg (not_or.mpr ⟨h10, h13⟩)]
  rcases em (c = 9) with rfl | h9
  · rw [if_pos rfl, if_pos rfl]
    rcases em (TabWraps p.col) with hwrap | hwrap
    · rw [if_pos hwrap]
      split
      · rfl
      · rw [moveTo_col, if_neg (Nat.not_lt.mpr hwrap)]
    · rw [if_neg hwrap, if_neg fun hx => hwrap hx.1, moveTo_col, if_pos (Nat.not_le.mp hwrap)]
  · rw [if_neg h9, if_neg h9, moveTo_col]

theorem linesDown_tab {col : Nat} (h : TabWraps col) : linesDown 9 col = 1 := by
  unfold linesDown
  rw [if_neg (by decide), if_neg (by decide), if_pos rfl, if_pos h]

theorem put_eq (h : c = 9 → TabWraps p.col → (last ≤ p.line ↔ last' ≤ p.line)) :
    p.put last c = p.put last' c := by
  unfold put
  rcases em (c = 9 ∧ TabWraps p.col) with ⟨h9, hwrap⟩ | hno
  · simp only [h h9 hwrap]
  · split
    · rfl
    split
    · rfl
    split
    · rename_i h9
      rw [if_neg fun hw => hno ⟨h9, hw.1⟩, if_neg fun hw => hno ⟨h9, hw.1⟩]
    · rfl

/-- The cursor of a page and the one of the text without a last row: they are at the same place
until both rows are last ones. -/
def Tracks (last last' : Nat) (p : Page) (pos : Nat × Nat) : Prop :=
  p.col = pos.2 ∧ (p.line = pos.1 ∨ last ≤ p.line ∧ last' ≤ p.line ∧ p.line ≤ pos.1)

theorem Tracks.tab (h : Tracks last last' p pos) (hs : last ≤ pos.1 ↔ last' ≤ pos.1) :
    last ≤ p.line ↔ last' ≤ p.line := by
  rcases h.2 with heq | ⟨hl, hl', -⟩
  · rw [heq]
    exact hs
  · exact ⟨fun _ => hl', fun _ => hl⟩

theorem Tracks.put (h : Tracks last last' p pos)
    (hs : c = 9 → TabWraps pos.2 → (last ≤ pos.1 ↔ last' ≤ pos.1)) :
    Tracks last last' (p.put last c) (advance c pos) := by
  obtain ⟨hcol, hline⟩ := h
  refine ⟨by rw [put_col, hcol]; rfl, ?_⟩
  show (p.put last c).line = pos.1 + linesDown c pos.2 ∨ _ ∧ _ ∧ _ ≤ pos.1 + linesDown c pos.2
  rw [put_line, hcol]
  split
  · rename_i hstuck
    obtain ⟨h9, hwrap, hlast⟩ := hstuck
    have hlast' : last' ≤ p.line := by
      rcases hline with heq | ⟨-, hl', -⟩
      · exact heq ▸ (hs h9 hwrap).mp (heq ▸ hlast)
      · exact hl'
    exact Or.inr ⟨hlast, hlast', by omega⟩
  · rcases hline with heq | ⟨hl, hl', hle⟩
    · exact Or.inl (by omega)
    · exact Or.inr ⟨by omega, by omega, by omega⟩

theorem puts_eq (h : Tracks last last' p pos) (hs : TabsAgree last last' s pos) :
    p.puts last s = p.puts last' s := by
  induction s generalizing p pos with
  | nil => rfl
  | cons c s ih =>
      have hstep : p.put last c = p.put last' c := by
        refine put_eq fun h9 hwrap => h.tab ?_
        exact hs.1 h9 (h.1 ▸ hwrap)
      show (p.put last c).puts last s = (p.put last' c).puts last' s
      rw [← hstep]
      exact ih (h.put hs.1) hs.2

/-- A page whose cursor is in the last row stays behind one that is ahead of it. -/
theorem puts_behind (hcol : p.col = q.col) (hlast : last ≤ p.line) (hlt : p.line < q.line) :
    (p.puts last s).line < (q.puts last' s).line := by
  induction s generalizing p q with
  | nil => exact hlt
  | cons c s ih =>
      refine @ih (p.put last c) (q.put last' c) ?_ ?_ ?_
      · rw [put_col, put_col, hcol]
      · rw [put_line]
        split
        · exact hlast
        · omega
      · rw [put_line, put_line, ← hcol]
        split
        · split
          · exact hlt
          · omega
        · rename_i hfree
          split
          · rename_i hstuck
            exact absurd ⟨hstuck.1, hstuck.2.1, hlast⟩ hfree
          · omega

theorem puts_ne (h : Tracks last last' p pos) (hs : ¬ TabsAgree last last' s pos) :
    (p.puts last s).line ≠ (p.puts last' s).line := by
  induction s generalizing p pos with
  | nil => exact absurd trivial hs
  | cons c s ih =>
      show ((p.put last c).puts last s).line ≠ ((p.put last' c).puts last' s).line
      rcases em (c = 9 → TabWraps pos.2 → (last ≤ pos.1 ↔ last' ≤ pos.1)) with hagree | hpart
      · have hstep : p.put last c = p.put last' c := by
          refine put_eq fun h9 hwrap => h.tab ?_
          exact hagree h9 (h.1 ▸ hwrap)
        rw [← hstep]
        exact ih (h.put hagree) fun hrest => hs ⟨hagree, hrest⟩
      · obtain ⟨h9, hrest⟩ := Classical.not_imp.mp hpart
        obtain ⟨hwrap, hdiff⟩ := Classical.not_imp.mp hrest
        have hp : ¬ (last ≤ p.line ↔ last' ≤ p.line) := by
          rcases h.2 with heq | ⟨hl, hl', hle⟩
          · rw [heq]
            exact hdiff
          · exact absurd ⟨fun _ => Nat.le_trans hl' hle, fun _ => Nat.le_trans hl hle⟩ hdiff
        have hwrap' : TabWraps p.col := h.1 ▸ hwrap
        have hdown : linesDown c p.col = 1 := h9 ▸ linesDown_tab hwrap'
        have hcols : (p.put last c).col = (p.put last' c).col := by rw [put_col, put_col]
        rcases em (last ≤ p.line) with hlast | hfree
        · have hfree' : ¬ last' ≤ p.line := fun hlast' => hp ⟨fun _ => hlast', fun _ => hlast⟩
          have hl : (p.put last c).line = p.line := by
            rw [put_line, if_pos ⟨h9, hwrap', hlast⟩]
          have hl' : (p.put last' c).line = p.line + 1 := by
            rw [put_line, if_neg fun hx => hfree' hx.2.2, hdown]
          exact Nat.ne_of_lt (puts_behind hcols (by omega) (by omega))
        · have hlast' : last' ≤ p.line := by
            by_contra hfree'
            exact hp ⟨fun hx => absurd hx hfree, fun hx => absurd hx hfree'⟩
          have hl : (p.put last c).line = p.line + 1 := by
            rw [put_line, if_neg fun hx => hfree hx.2.2, hdown]
          have hl' : (p.put last' c).line = p.line := by
            rw [put_line, if_pos ⟨h9, hwrap', hlast'⟩]
          exact (Nat.ne_of_lt (puts_behind hcols.symm (by omega) (by omega))).symm

end Page

/-! ## The page on the terminal

`Shows` relates the two: line `i` of the page is line `r + i` of the tape,
and the history has as many lines as do not fit below row `r`. Each case of
`putchar` moves the cursor, writes a cell, and settles: a cursor past the
end scrolls by one row. -/

/-- The line of text at an index of the history and the screen together. -/
def Terminal.textLine (t : Terminal) (i : Int) : Line :=
  if 0 ≤ i then t.tape.getD i.toNat blankLine else blankLine

/-- What is done with the cursor that a character moved: past the end the terminal scrolls. -/
def settle (cursor : Nat) (t : Terminal) : Option Terminal :=
  if cursor ≥ terminalBottom then
    (terminalAutoScroll t).map fun t => { t with cursor := terminalBottom - 80 }
  else some { t with cursor := cursor }

/-- The lines that a character scrolls into the history. -/
def scrollsFor (c : UInt8) (t : Terminal) : Nat :=
  if terminalBottom ≤ (putCell c 7 0 t.vga t.fixedCursor.cursor).2 then 1 else 0

/-- The lines that a text scrolls into the history. -/
def scrollCount : List UInt8 → Terminal → Nat
  | [], _ => 0
  | c :: s, t => scrollsFor c t + (putchar c t).elim 0 (scrollCount s)

theorem putchar_settle (c : UInt8) (t : Terminal) :
    putchar c t = settle (putCell c 7 0 t.vga t.fixedCursor.cursor).2
      { t with vga := (putCell c 7 0 t.vga t.fixedCursor.cursor).1 } := by
  unfold putchar putcharColor settle
  have hcursor : (if t.cursor ≥ terminalBottom ∨ t.cursor < vgaStart then vgaStart else t.cursor)
      = t.fixedCursor.cursor := rfl
  rw [hcursor]
  dsimp only
  split
  · cases terminalAutoScroll { t with vga := (putCell c 7 0 t.vga t.fixedCursor.cursor).1 } <;> rfl
  · rfl

/-- The terminal shows a page that starts in row `r`. -/
structure Shows (r : Nat) (p : Page) (t : Terminal) : Prop where
  present : t.bottomCount = 0
  history : t.topCount = r + p.line - 22
  cursor : t.cursor = (topRow + min (r + p.line) 22) * 80 + p.col
  col : p.col < 80
  text : ∀ i, t.tape.getD i blankLine = if r ≤ i then p.lines (i - r) else blankLine

section

variable {r r' : Nat} {p q : Page} {t t' u u' : Terminal} {c : UInt8} {s : List UInt8}

theorem tape_present (h0 : t.bottomCount = 0) :
    t.tape = stored t.topBuffer t.topCount ++ screenRows t.vga := by
  show stored t.topBuffer t.topCount ++ screenRows t.vga
    ++ (stored t.bottomBuffer t.bottomCount).reverse = _
  rw [h0]
  exact List.append_nil _

theorem length_screenRows (vga : Vga) : (screenRows vga).length = 23 := by
  rw [screenRows, List.length_map, List.length_range]
  rfl

theorem tape_getD (h0 : t.bottomCount = 0) (i : Nat) :
    t.tape.getD i blankLine = if i < t.topCount then t.topBuffer i
      else if i < t.topCount + 23 then readLine t.vga (topRow + (i - t.topCount))
      else blankLine := by
  rw [tape_present h0, List.getD_eq_getElem?_getD]
  split
  · rename_i hlt
    rw [List.getElem?_append_left (by rwa [length_stored]), stored, List.getElem?_map,
      List.getElem?_range hlt]
    rfl
  · rename_i hge
    rw [List.getElem?_append_right (by rw [length_stored]; omega), length_stored]
    split
    · rename_i hlt
      have hrow : i - t.topCount < terminalRows := by
        have hrows : terminalRows = 23 := rfl
        omega
      rw [screenRows, List.getElem?_map, List.getElem?_range hrow]
      rfl
    · rw [List.getElem?_eq_none (by rw [length_screenRows]; omega)]
      rfl

theorem Shows.inside (h : Shows r p t) : t.fixedCursor.cursor = t.cursor := by
  have hcur := h.cursor
  have hcol := h.col
  have h1 : vgaStart = 160 := rfl
  have h2 : terminalBottom = 2000 := rfl
  have h3 : topRow = 2 := rfl
  rw [Terminal.fixedCursor_eq (by omega) (by omega)]

theorem Shows.setCell (h : Shows r p t) (v : UInt16) :
    Shows r (p.setCell v) { t with vga := IpoOs.setCell t.vga t.cursor v } := by
  refine ⟨h.present, h.history, h.cursor, h.col, fun i => ?_⟩
  have hold := h.text i
  have hcur := h.cursor
  have hcol := h.col
  have hhist := h.history
  have htop : topRow = 2 := rfl
  have hrow : ∀ k, readLine (IpoOs.setCell t.vga t.cursor v) (topRow + k)
      = fun c => if k = min (r + p.line) 22 ∧ c.val = p.col then v
        else readLine t.vga (topRow + k) c := by
    intro k
    funext c
    have hc := c.isLt
    show (if (topRow + k) * 80 + c.val = t.cursor then v else t.vga ((topRow + k) * 80 + c.val)) = _
    rcases em (k = min (r + p.line) 22 ∧ c.val = p.col) with hk | hk
    · rw [if_pos hk, if_pos (by omega)]
    · rw [if_neg hk, if_neg (by omega)]
      rfl
  rw [tape_getD h.present] at hold
  rw [tape_getD (t := { t with vga := IpoOs.setCell t.vga t.cursor v }) h.present]
  dsimp only
  rcases Nat.lt_or_ge i t.topCount with hlt | hge
  · rw [if_pos hlt] at hold ⊢
    rw [hold]
    split
    · funext c
      show _ = if i - r = p.line ∧ c.val = p.col then v else p.lines (i - r) c
      rw [if_neg (by omega)]
    · rfl
  rw [if_neg (by omega)] at hold ⊢
  rcases Nat.lt_or_ge i (t.topCount + 23) with hlt | hge'
  · rw [if_pos hlt] at hold ⊢
    rw [hrow, hold]
    split
    · funext c
      show _ = if i - r = p.line ∧ c.val = p.col then v else p.lines (i - r) c
      congr 1
      exact propext ⟨fun hk => ⟨by omega, hk.2⟩, fun hk => ⟨by omega, hk.2⟩⟩
    · funext c
      rw [if_neg (by omega)]
  · rw [if_neg (by omega)] at hold ⊢
    rw [hold]
    split
    · funext c
      show _ = if i - r = p.line ∧ c.val = p.col then v else p.lines (i - r) c
      rw [if_neg (by omega)]
    · rfl

/-- The cursor settles at `cursor` and the terminal shows `p` from row `r`. -/
def Settles (r : Nat) (p : Page) (cursor : Nat) (t : Terminal) : Prop :=
  ∃ t', settle cursor t = some t' ∧ Shows r p t'
    ∧ t'.topCount = t.topCount + if terminalBottom ≤ cursor then 1 else 0

theorem Shows.stay (h : Shows r p t) {col : Nat} (hcol : col < 80) :
    Settles r { p with col := col } ((topRow + min (r + p.line) 22) * 80 + col) t := by
  have h2 : terminalBottom = 2000 := rfl
  have h3 : topRow = 2 := rfl
  unfold Settles settle
  rw [if_neg (by omega), if_neg (by omega)]
  exact ⟨_, rfl, ⟨h.present, h.history, rfl, hcol, h.text⟩, rfl⟩

/-- The cursor at the start of the next line: from the last row the terminal scrolls. -/
theorem Shows.down (h : Shows r p t)
    (hroom : terminalBottom ≤ (topRow + min (r + p.line) 22 + 1) * 80 → t.topCount < 1024) :
    Settles r (p.down 1) ((topRow + min (r + p.line) 22 + 1) * 80) t := by
  have h2 : terminalBottom = 2000 := rfl
  have h3 : topRow = 2 := rfl
  have hzero : 0 < 80 := by decide
  have hhist := h.history
  unfold Settles settle
  rcases Nat.lt_or_ge (r + p.line) 22 with hlt | hge
  · rw [if_neg (by omega), if_neg (by omega)]
    refine ⟨_, rfl, ⟨h.present, ?_, ?_, hzero, h.text⟩, rfl⟩
    · show t.topCount = r + (p.line + 1) - 22
      omega
    · show (topRow + min (r + p.line) 22 + 1) * 80 = (topRow + min (r + (p.line + 1)) 22) * 80 + 0
      omega
  · have hend : terminalBottom ≤ (topRow + min (r + p.line) 22 + 1) * 80 := by omega
    have hlt := hroom hend
    rw [if_pos hend, if_pos hend]
    have hb : t.Bounded := by
      have h0 := h.present
      have hsize : scrollHistorySize = 1024 := rfl
      unfold Terminal.Bounded
      omega
    obtain ⟨t₁, hrun, hemit, -, h0⟩ := Terminal.terminalAutoScroll_spec hb h.present
    have hlen : t.windowed.before.length = t.topCount := length_stored _ _
    have hlen₁ : t₁.windowed.before.length = t₁.topCount := length_stored _ _
    have hcount := hemit.before_length (hlen ▸ hlt)
    have htape := hemit.tape (by decide)
    rw [if_pos (hlen ▸ hlt)] at htape
    rw [hrun]
    refine ⟨_, rfl, ⟨h0, ?_, ?_, hzero, fun i => ?_⟩, by rw [← hlen₁, hcount, hlen]⟩
    · show t₁.topCount = r + (p.line + 1) - 22
      omega
    · show terminalBottom - 80 = (topRow + min (r + (p.line + 1)) 22) * 80 + 0
      omega
    · show t₁.tape.getD i blankLine = if r ≤ i then p.lines (i - r) else blankLine
      rw [← h.text i, show t₁.tape = t.tape ++ [blankLine] from htape,
        List.getD_eq_getElem?_getD, List.getD_eq_getElem?_getD]
      rcases Nat.lt_or_ge i t.tape.length with hi | hi
      · rw [List.getElem?_append_left hi]
      · rw [List.getElem?_append_right hi, List.getElem?_eq_none hi]
        cases i - t.tape.length <;> rfl

theorem Shows.moveTo (h : Shows r p t) {col : Nat} (hcol : col ≤ 80)
    (hroom : terminalBottom ≤ (topRow + min (r + p.line) 22) * 80 + col → t.topCount < 1024) :
    Settles r (p.moveTo col) ((topRow + min (r + p.line) 22) * 80 + col) t := by
  unfold Page.moveTo
  rcases Nat.lt_or_ge col 80 with hlt | hge
  · rw [if_pos hlt]
    exact h.stay hlt
  · have hrow : (topRow + min (r + p.line) 22) * 80 + col
        = (topRow + min (r + p.line) 22 + 1) * 80 := by omega
    rw [if_neg (by omega), hrow]
    exact h.down fun hend => hroom (by omega)

/-- Where a character other than the four controls moves the cursor. -/
theorem putCell_plain (h10 : c ≠ 10) (h13 : c ≠ 13) (h9 : c ≠ 9) (vga : Vga) (cursor : Nat) :
    putCell c 7 0 vga cursor = (setCell vga cursor (vgaEntry c 7 0), cursor + 1) := by
  unfold putCell
  rw [if_neg h10, if_neg h13, if_neg h9]

theorem putCell_newline (vga : Vga) {row col : Nat} (hcol : col < 80) :
    putCell 10 7 0 vga ((topRow + row) * 80 + col) = (vga, (topRow + row + 1) * 80) := by
  have hrow : ((topRow + row) * 80 + col) / 80 = topRow + row := by omega
  unfold putCell
  rw [if_pos rfl, hrow]

theorem putCell_return (vga : Vga) {row col : Nat} (hcol : col < 80) :
    putCell 13 7 0 vga ((topRow + row) * 80 + col) = (vga, (topRow + row) * 80 + 0) := by
  have hrow : ((topRow + row) * 80 + col) / 80 = topRow + row := by omega
  unfold putCell
  rw [if_neg (by decide), if_pos rfl, hrow, Nat.add_zero]

/-- A tab that wraps goes back to the start of the line in the last row. -/
theorem putCell_tab (vga : Vga) {row col : Nat} (hcol : col < 80) (hrow : row ≤ 22) :
    putCell 9 7 0 vga ((topRow + row) * 80 + col)
      = (vga, if Page.TabWraps col ∧ row = 22 then (topRow + row) * 80 + 0
        else (topRow + row) * 80 + (col + (8 - col % 8))) := by
  have h2 : terminalBottom = 2000 := rfl
  have h3 : topRow = 2 := rfl
  have hmod : ((topRow + row) * 80 + col) % 80 = col := by omega
  unfold putCell
  rw [if_neg (by decide), if_neg (by decide), if_pos rfl, hmod]
  rcases em (Page.TabWraps col ∧ row = 22) with hstuck | hgo
  · have hwrap : 80 ≤ col + (8 - col % 8) := hstuck.1
    have hlast := hstuck.2
    rw [if_pos hstuck, if_pos (by omega), show terminalBottom - 80
      = (topRow + row) * 80 + 0 by omega]
  · have hshort : col + (8 - col % 8) < 80 ∨ row < 22 := by
      rcases em (Page.TabWraps col) with hwrap | hwrap
      · have hne : row ≠ 22 := fun heq => hgo ⟨hwrap, heq⟩
        exact Or.inr (by omega)
      · exact Or.inl (Nat.not_le.mp hwrap)
    rw [if_neg hgo, if_neg (by omega), Nat.add_assoc]

theorem Shows.putchar (h : Shows r p t) (hr : r ≤ 22)
    (hroom : t.topCount + scrollsFor c t ≤ 1024) :
    ∃ t', putchar c t = some t' ∧ Shows r (p.put (22 - r) c) t'
      ∧ t'.topCount = t.topCount + scrollsFor c t := by
  have hcol := h.col
  have hcur := h.cursor
  have hlast : min (r + p.line) 22 ≤ 22 := Nat.min_le_right _ _
  rw [putchar_settle]
  unfold scrollsFor at hroom ⊢
  rw [h.inside] at hroom ⊢
  have hfree : terminalBottom ≤ (putCell c 7 0 t.vga t.cursor).2 → t.topCount < 1024 := by
    intro hend
    rw [if_pos hend] at hroom
    omega
  unfold Page.put
  rcases em (c = 10) with rfl | h10
  · have hout := @putCell_newline t.vga (min (r + p.line) 22) p.col hcol
    rw [← hcur] at hout
    rw [if_pos rfl]
    rw [hout] at hfree ⊢
    exact h.down hfree
  rcases em (c = 13) with rfl | h13
  · have hout := @putCell_return t.vga (min (r + p.line) 22) p.col hcol
    rw [← hcur] at hout
    have hzero : 0 < 80 := by decide
    rw [if_neg h10, if_pos rfl, hout]
    exact h.stay hzero
  rcases em (c = 9) with rfl | h9
  · have hout := @putCell_tab t.vga (min (r + p.line) 22) p.col hcol hlast
    rw [← hcur] at hout
    have hstuck : (Page.TabWraps p.col ∧ min (r + p.line) 22 = 22)
        ↔ (Page.TabWraps p.col ∧ 22 - r ≤ p.line) := and_congr_right fun _ => by omega
    have hzero : 0 < 80 := by decide
    rw [if_neg h10, if_neg h13, if_pos rfl]
    rw [hout] at hfree ⊢
    rcases em (Page.TabWraps p.col ∧ 22 - r ≤ p.line) with hback | hgo
    · rw [if_pos hback, if_pos (hstuck.mpr hback)]
      exact h.stay hzero
    · have hgo' := fun hx => hgo (hstuck.mp hx)
      rw [if_neg hgo, if_neg hgo']
      rw [if_neg hgo'] at hfree
      exact h.moveTo (by omega) hfree
  · have hout : putCell c 7 0 t.vga t.cursor = (IpoOs.setCell t.vga t.cursor (vgaEntry c 7 0),
        (topRow + min (r + p.line) 22) * 80 + (p.col + 1)) := by
      rw [putCell_plain h10 h13 h9, ← Nat.add_assoc, ← hcur]
    rw [if_neg h10, if_neg h13, if_neg h9]
    rw [hout] at hfree ⊢
    exact (h.setCell (vgaEntry c 7 0)).moveTo (Nat.succ_le_of_lt hcol) hfree

theorem Shows.putchars (h : Shows r p t) (hr : r ≤ 22)
    (hroom : t.topCount + scrollCount s t ≤ 1024) :
    ∃ u, putchars s t = some u ∧ Shows r (p.puts (22 - r) s) u := by
  induction s generalizing p t with
  | nil => exact ⟨t, rfl, h⟩
  | cons c s ih =>
      rw [scrollCount] at hroom
      obtain ⟨t₁, hrun, hs, hcount⟩ := @Shows.putchar r p t c h hr (by omega)
      rw [hrun] at hroom
      have hrest : scrollsFor c t + scrollCount s t₁ + t.topCount ≤ 1024 := by
        have hroom' : t.topCount + (scrollsFor c t + scrollCount s t₁) ≤ 1024 := hroom
        omega
      obtain ⟨u, hruns, hu⟩ := ih hs (by omega)
      refine ⟨u, ?_, hu⟩
      rw [IpoOs.putchars, List.foldlM_cons, hrun]
      exact hruns

end

/-! ## Two rows

Both runs show the page of the string. If a tab tells them apart, the lines
at which the cursor stands differ from there on, and no later character
brings them together. -/

/-- The terminal is blank and nothing was scrolled. -/
structure Terminal.Blank (t : Terminal) : Prop where
  screen : ∀ i, vgaStart ≤ i → i < terminalBottom → t.vga i = blankCell
  history : t.topCount = 0
  present : t.bottomCount = 0

/-- The same lines of text, and the cursor in the same column of the same line, where the first
terminal counts the lines from row `r` and the second from row `r'`. -/
structure SameText (r r' : Nat) (u u' : Terminal) : Prop where
  lines : ∀ i : Int, u.textLine (r + i) = u'.textLine (r' + i)
  line : u.topCount + u.cursor / 80 + r' = u'.topCount + u'.cursor / 80 + r
  column : u.cursor % 80 = u'.cursor % 80

section

variable {r r' col : Nat} {p q : Page} {t t' u u' : Terminal}

theorem Terminal.Blank.shows (h : t.Blank) (hr : r ≤ 22) (hcol : col < 80)
    (hcur : t.cursor = (topRow + r) * 80 + col) : Shows r ⟨fun _ => blankLine, 0, col⟩ t := by
  have h1 : vgaStart = 160 := rfl
  have h2 : terminalBottom = 2000 := rfl
  have h3 : topRow = 2 := rfl
  have hhist := h.history
  refine ⟨h.present, ?_, ?_, hcol, fun i => ?_⟩
  · show t.topCount = r + 0 - 22
    omega
  · show t.cursor = (topRow + min (r + 0) 22) * 80 + col
    omega
  · rw [tape_getD h.present, if_neg (by omega), ite_self]
    split
    · funext c
      have hc := c.isLt
      exact h.screen _ (by omega) (by omega)
    · rfl

theorem Shows.textLine (h : Shows r p t) (i : Int) :
    t.textLine (r + i) = if 0 ≤ i then p.lines i.toNat else blankLine := by
  unfold Terminal.textLine
  rcases em (0 ≤ i) with hi | hi
  · rw [if_pos hi, if_pos (by omega), h.text, if_pos (by omega)]
    congr 1
    omega
  · rw [if_neg hi]
    split
    · rw [h.text, if_neg (by omega)]
    · rfl

theorem Shows.cursor_line (h : Shows r p t) : t.topCount + t.cursor / 80 = topRow + r + p.line := by
  have h3 : topRow = 2 := rfl
  have hhist := h.history
  have hcur := h.cursor
  have hcol := h.col
  omega

theorem Shows.cursor_col (h : Shows r p t) : t.cursor % 80 = p.col := by
  have hcur := h.cursor
  have hcol := h.col
  omega

/-- A text printed from two rows of blank terminals, with no more lines scrolled than the history
holds: it is the same text exactly when every tab that starts in the last eight columns does so
with both cursors in the last row or with neither. -/
theorem putchar_rows {s : List UInt8} (hr : r < 23) (hr' : r' < 23) (hcol : col < 80)
    (hb : t.Blank) (hb' : t'.Blank) (hcur : t.cursor = (topRow + r) * 80 + col)
    (hcur' : t'.cursor = (topRow + r') * 80 + col) (hroom : scrollCount s t ≤ 1024)
    (hroom' : scrollCount s t' ≤ 1024) :
    ∃ u u', putchars s t = some u ∧ putchars s t' = some u'
      ∧ (SameText r r' u u' ↔ Page.TabsAgree (22 - r) (22 - r') s (0, col)) := by
  have hle : r ≤ 22 := Nat.le_of_lt_succ hr
  have hle' : r' ≤ 22 := Nat.le_of_lt_succ hr'
  have hhist := hb.history
  have hhist' := hb'.history
  obtain ⟨u, hrun, hu⟩ := (hb.shows hle hcol hcur).putchars hle (s := s) (by omega)
  obtain ⟨u', hrun', hu'⟩ := (hb'.shows hle' hcol hcur').putchars hle' (s := s) (by omega)
  have htracks : Page.Tracks (22 - r) (22 - r') ⟨fun _ => blankLine, 0, col⟩ (0, col) :=
    ⟨rfl, Or.inl rfl⟩
  refine ⟨u, u', hrun, hrun', fun hsame => ?_, fun hagree => ?_⟩
  · by_contra hpart
    have hline := hsame.line
    rw [hu.cursor_line, hu'.cursor_line] at hline
    exact Page.puts_ne htracks hpart (by omega)
  · have hpage := Page.puts_eq htracks hagree
    refine ⟨fun i => ?_, ?_, ?_⟩
    · rw [hu.textLine, hu'.textLine, hpage]
    · rw [hu.cursor_line, hu'.cursor_line, hpage]
      omega
    · rw [hu.cursor_col, hu'.cursor_col, hpage]

end

/-- A new terminal with its cursor at a place. -/
def blankAt (row col : Nat) : Terminal :=
  { terminalInitialize blankTerminal with cursor := (topRow + row) * 80 + col }

theorem blankAt_blank (row col : Nat) : (blankAt row col).Blank := by
  have h1 : vgaStart = 160 := rfl
  have h2 : terminalBottom = 2000 := rfl
  refine ⟨fun i hlo hhi => ?_, rfl, rfl⟩
  show printHeader (vgaClear _) i = blankCell
  unfold printHeader printString
  rw [dif_neg (by simp; omega), dif_neg (by simp; omega)]
  exact if_pos (by omega)

/-- Characters that wrap at the end of the row, a newline and a tab, from the first and from the
last row: the second text scrolls twice, and it is the same text. -/
theorem putchar_rows_tab :
    scrollCount [65, 66, 67, 10, 9, 68] (blankAt 22 78) = 2
    ∧ ∃ u u', putchars [65, 66, 67, 10, 9, 68] (blankAt 0 78) = some u
      ∧ putchars [65, 66, 67, 10, 9, 68] (blankAt 22 78) = some u' ∧ SameText 0 22 u u' := by
  have hroom : scrollCount [65, 66, 67, 10, 9, 68] (blankAt 0 78) ≤ 1024 := by decide +kernel
  have hscroll : scrollCount [65, 66, 67, 10, 9, 68] (blankAt 22 78) = 2 := by decide +kernel
  have hagree : Page.TabsAgree (22 - 0) (22 - 22) [65, 66, 67, 10, 9, 68] (0, 78) := by decide
  obtain ⟨u, u', hrun, hrun', hsame⟩ := putchar_rows (by decide) (by decide) (by decide)
    (blankAt_blank 0 78) (blankAt_blank 22 78) rfl rfl hroom (by rw [hscroll]; decide)
  exact ⟨hscroll, u, u', hrun, hrun', hsame.mpr hagree⟩

/-- A tab in column 72 goes to the next line from the first row, and back to the start of the line
in the last row. -/
theorem tab_last_row : (blankAt 0 72).Blank ∧ (blankAt 22 72).Blank
    ∧ scrollCount [9] (blankAt 0 72) ≤ 1024 ∧ scrollCount [9] (blankAt 22 72) ≤ 1024
    ∧ ∃ u u', putchars [9] (blankAt 0 72) = some u ∧ putchars [9] (blankAt 22 72) = some u'
      ∧ ¬ SameText 0 22 u u' := by
  refine ⟨blankAt_blank 0 72, blankAt_blank 22 72, by decide +kernel, by decide +kernel,
    { blankAt 0 72 with cursor := 240 }, { blankAt 22 72 with cursor := 1920 }, rfl, rfl,
    fun h => ?_⟩
  exact absurd h.line (by decide)

end IpoOs
