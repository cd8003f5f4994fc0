import IpoOs.Console

/-!
# What is executed is what is shown

The cells before the cursor hold the prompt and the input buffer. Output
adds a cell, at the end of the screen it moves them up, and a backspace
takes one away; the scroll-back shows the terminal at another place and the
present is found again before the next character. The Enter key runs the
string in the input buffer, once, and no other key runs anything: the rest
of the machine changes by what that command does to it.

The invariant is `Consistent`: there is a terminal at the present whose
cells before the cursor are the prompt and the buffer, and the terminal of
the console is a view of it. Keys that type start by returning to the
present, and keys that scroll change the view. The command itself is a
parameter: it may print and scroll as it likes, and is asked only to leave
the terminal in bounds.
-/

namespace IpoOs

/-! ## The cells before the cursor

The cells are counted back from the cursor, so that a scroll, which moves
the cursor and the cells alike, keeps them. -/

/-- The last `n` cells before the cursor. -/
def cellsBefore (vga : Vga) (cursor n : Nat) : List UInt16 :=
  (List.range n).map fun i => vga (cursor - n + i)

section

variable {vga vga' : Vga} {cursor n : Nat}

theorem cellsBefore_succ (h : n ≤ cursor) :
    cellsBefore vga (cursor + 1) (n + 1) = cellsBefore vga cursor n ++ [vga cursor] := by
  unfold cellsBefore
  rw [List.range_succ, List.map_append, Nat.add_sub_add_right, List.map_singleton,
    Nat.sub_add_cancel h]

theorem cellsBefore_congr (h : ∀ i, cursor - n ≤ i → i < cursor → vga' i = vga i)
    (hn : n ≤ cursor) : cellsBefore vga' cursor n = cellsBefore vga cursor n := by
  refine List.map_congr_left fun i hi => ?_
  have hi' := List.mem_range.mp hi
  exact h _ (by omega) (by omega)

/-- The cells before the cursor after everything moved up by a row. -/
theorem cellsBefore_up (h : ∀ i, cursor - n ≤ i → i < cursor → vga' (i - 80) = vga i)
    (hn : n + 80 ≤ cursor) : cellsBefore vga' (cursor - 80) n = cellsBefore vga cursor n := by
  refine List.map_congr_left fun i hi => ?_
  have hi' := List.mem_range.mp hi
  rw [← h (cursor - n + i) (by omega) (by omega)]
  congr 1
  omega

end

/-! ## Output

A character that is no control character adds a cell; a backspace, a blank
and a backspace take one away. -/

/-- The terminal is at the present and the cells before its cursor are `l`. -/
structure Terminal.Holds (t : Terminal) (l : List UInt16) : Prop where
  bounded : t.Bounded
  present : t.bottomCount = 0
  room : vgaStart + l.length ≤ t.cursor
  inside : t.cursor < terminalBottom
  cells : cellsBefore t.vga t.cursor l.length = l

namespace Terminal

variable {t t' p : Terminal} {l : List UInt16}

theorem terminalAutoScroll_cell (h : terminalAutoScroll t = some t') {i : Nat}
    (hlo : vgaStart + 80 ≤ i) (hhi : i < terminalBottom) : t'.vga (i - 80) = t.vga i := by
  have hstart : vgaStart = 160 := rfl
  have hbottom : terminalBottom = 2000 := rfl
  have hvga : t'.vga
      = writeLine (shiftUp (terminalRows - 1) 0 t.vga) (topRow + terminalRows - 1) blankLine := by
    obtain ⟨t₁, hsave, hrest⟩ := Option.bind_eq_some_iff.mp h
    have hsame : t₁.vga = t.vga := by
      unfold saveTopLine at hsave
      split at hsave
      · obtain ⟨top, -, hsome⟩ := Option.bind_eq_some_iff.mp hsave
        cases hsome
        rfl
      · obtain ⟨top, -, hsome⟩ := Option.bind_eq_some_iff.mp hsave
        cases hsome
        rfl
    cases hrest
    rw [hsame]
  have hrow : readLine t'.vga (i / 80 - 1) = readLine t.vga (i / 80) := by
    have htop : topRow = 2 := rfl
    have hrows : terminalRows = 23 := rfl
    rw [hvga, readLine_writeLine_of_ne (by omega), readLine_shiftUp, if_pos (by omega)]
    congr 1
    omega
  have hcell := congrFun hrow ⟨i % 80, Nat.mod_lt _ (by decide)⟩
  unfold readLine at hcell
  dsimp only at hcell
  rw [show (i / 80 - 1) * 80 + i % 80 = i - 80 by omega,
    show i / 80 * 80 + i % 80 = i by omega] at hcell
  exact hcell

theorem holds_nil (hb : t.Bounded) (h0 : t.bottomCount = 0) : t.fixedCursor.Holds [] :=
  ⟨hb, h0, t.fixedCursor_inside.1, t.fixedCursor_inside.2, rfl⟩

/-- A character is one more cell before the cursor, wherever the cursor was found. -/
theorem put_fixed (h : t.fixedCursor.Holds l) {c : UInt8} (hc : c ≠ 10 ∧ c ≠ 13 ∧ c ≠ 9)
    (fg bg : UInt8) (hlen : l.length < 1760) :
    ∃ t', putcharColor c fg bg t = some t' ∧ t'.Holds (l ++ [vgaEntry c fg bg]) := by
  have hstart : vgaStart = 160 := rfl
  have hbottom : terminalBottom = 2000 := rfl
  obtain ⟨hb, hpresent, hroom, hinside, hcells⟩ := h
  have hcursor : (if t.cursor ≥ terminalBottom ∨ t.cursor < vgaStart then vgaStart else t.cursor)
      = t.fixedCursor.cursor := rfl
  have hvga : t.fixedCursor.vga = t.vga := rfl
  unfold putcharColor
  rw [hcursor]
  rw [hvga] at hcells
  generalize t.fixedCursor.cursor = cur at hroom hinside hcells
  have hout : putCell c fg bg t.vga cur = (setCell t.vga cur (vgaEntry c fg bg), cur + 1) := by
    unfold putCell
    rw [if_neg hc.1, if_neg hc.2.1, if_neg hc.2.2]
  have hbefore : cellsBefore (setCell t.vga cur (vgaEntry c fg bg)) (cur + 1) (l.length + 1)
      = l ++ [vgaEntry c fg bg] := by
    have hold : ∀ i, cur - l.length ≤ i → i < cur →
        setCell t.vga cur (vgaEntry c fg bg) i = t.vga i := fun i _ hi => if_neg (by omega)
    have hnew : setCell t.vga cur (vgaEntry c fg bg) cur = vgaEntry c fg bg := if_pos rfl
    rw [cellsBefore_succ (by omega), cellsBefore_congr hold (by omega), hcells, hnew]
  have hone : (l ++ [vgaEntry c fg bg]).length = l.length + 1 := by
    rw [List.length_append, List.length_singleton]
  dsimp only
  rw [hout]
  dsimp only
  rcases Nat.lt_or_ge (cur + 1) terminalBottom with hlt | hge
  · rw [if_neg (by omega)]
    refine ⟨_, rfl, hb, hpresent, ?_, hlt, ?_⟩
    · rw [hone]
      show vgaStart + (l.length + 1) ≤ cur + 1
      omega
    · rw [hone]
      exact hbefore
  · rw [if_pos hge]
    obtain ⟨t₁, hrun, hemit, -, h0⟩ := @terminalAutoScroll_spec
      { t with vga := setCell t.vga cur (vgaEntry c fg bg) } hb hpresent
    have hb₁ : t₁.Bounded := @bounded_of_emitted
      { t with vga := setCell t.vga cur (vgaEntry c fg bg) } t₁ hb h0 hemit
    have hend : cur + 1 = terminalBottom := by omega
    rw [hrun]
    refine ⟨_, rfl, hb₁, h0, ?_, (by decide : terminalBottom - 80 < terminalBottom), ?_⟩
    · rw [hone]
      show vgaStart + (l.length + 1) ≤ terminalBottom - 80
      omega
    · rw [hone]
      show cellsBefore t₁.vga (terminalBottom - 80) (l.length + 1) = l ++ [vgaEntry c fg bg]
      rw [← hbefore, hend]
      refine cellsBefore_up (fun i hlo hhi => ?_) (by omega)
      exact terminalAutoScroll_cell hrun (by omega) (by omega)

theorem Holds.put (h : t.Holds l) {c : UInt8} (hc : c ≠ 10 ∧ c ≠ 13 ∧ c ≠ 9) (fg bg : UInt8)
    (hlen : l.length < 1760) :
    ∃ t', putcharColor c fg bg t = some t' ∧ t'.Holds (l ++ [vgaEntry c fg bg]) := by
  have hlo := h.room
  have hfixed : t.fixedCursor = t := fixedCursor_eq (by omega) h.inside
  exact put_fixed (hfixed.symm ▸ h) hc fg bg hlen

theorem Holds.erase {x : UInt16} (h : t.Holds (l ++ [x])) :
    ∃ t', Console.eraseCell t = some t' ∧ t'.Holds l := by
  have hstart : vgaStart = 160 := rfl
  have hroom := h.room
  have hinside := h.inside
  have hcells := h.cells
  rw [List.length_append, List.length_singleton] at hroom hcells
  obtain ⟨cur, hcur⟩ : ∃ cur, t.cursor = cur + 1 := ⟨t.cursor - 1, by omega⟩
  rw [hcur] at hroom hinside hcells
  have hout : putCell 32 7 0 t.vga cur = (setCell t.vga cur (vgaEntry 32 7 0), cur + 1) := rfl
  have hput : putchar 32 { t with cursor := cur }
      = some { t with vga := setCell t.vga cur (vgaEntry 32 7 0), cursor := cur + 1 } := by
    have hin : ¬ (cur ≥ terminalBottom ∨ cur < vgaStart) := by omega
    have hfits : ¬ cur + 1 ≥ terminalBottom := by omega
    unfold putchar putcharColor
    dsimp only
    rw [if_neg hin, hout]
    dsimp only
    rw [if_neg hfits]
  unfold Console.eraseCell
  rw [if_pos (by omega), hcur, Nat.add_sub_cancel, hput]
  refine ⟨_, rfl, h.bounded, h.present, Nat.le_of_succ_le_succ hroom, Nat.lt_of_succ_lt hinside, ?_⟩
  show cellsBefore (setCell t.vga cur (vgaEntry 32 7 0)) cur l.length = l
  have hold : ∀ i, cur - l.length ≤ i → i < cur →
      setCell t.vga cur (vgaEntry 32 7 0) i = t.vga i := fun i _ hi => if_neg (by omega)
  rw [cellsBefore_succ (by omega)] at hcells
  rw [cellsBefore_congr hold (by omega)]
  exact (List.append_inj' hcells rfl).1

/-! ## The scroll-back

A scrolled terminal has the tape and the cursor of the one at the present. -/

theorem moveForward_cursor (h : moveForward t = some t') : t'.cursor = t.cursor := by
  obtain ⟨top, -, hrest⟩ := Option.bind_eq_some_iff.mp h
  obtain ⟨line, -, hsome⟩ := Option.bind_eq_some_iff.mp hrest
  cases hsome
  rfl

theorem forwardLoop_cursor {n : Nat} (h : forwardLoop n t = some t') : t'.cursor = t.cursor := by
  induction n generalizing t with
  | zero => exact congrArg Terminal.cursor (Option.some.inj h).symm
  | succ n ih =>
      rw [forwardLoop] at h
      split at h
      · obtain ⟨t₁, hstep, hrest⟩ := Option.bind_eq_some_iff.mp h
        exact (ih hrest).trans (moveForward_cursor hstep)
      · exact congrArg Terminal.cursor (Option.some.inj h).symm

theorem returnToPresent_cursor (h : returnToPresent t = some t') : t'.cursor = t.cursor := by
  unfold returnToPresent at h
  split at h
  · exact congrArg Terminal.cursor (Option.some.inj h).symm
  · obtain ⟨t₁, hloop, hsome⟩ := Option.bind_eq_some_iff.mp h
    have hsame : t₁.cursor = t.cursor := forwardLoop_cursor hloop
    cases hsome
    exact hsame

theorem scrollDown_cursor (h : scrollDown t = some t') : t'.cursor = t.cursor := by
  unfold scrollDown at h
  split at h
  · exact congrArg Terminal.cursor (Option.some.inj h).symm
  · obtain ⟨t₁, hstep, hsome⟩ := Option.bind_eq_some_iff.mp h
    have hsame : t₁.cursor = t.cursor := moveForward_cursor hstep
    cases hsome
    exact hsame

theorem saveBottomLine_cursor (h : saveBottomLine t = some t') : t'.cursor = t.cursor := by
  unfold saveBottomLine at h
  split at h
  · obtain ⟨bottom, -, hsome⟩ := Option.bind_eq_some_iff.mp h
    cases hsome
    rfl
  · exact congrArg Terminal.cursor (Option.some.inj h).symm

theorem scrollUp_cursor (h : scrollUp t = some t') : t'.cursor = t.cursor := by
  unfold scrollUp at h
  split at h
  · exact congrArg Terminal.cursor (Option.some.inj h).symm
  · obtain ⟨t₁, hsave, hrest⟩ := Option.bind_eq_some_iff.mp h
    obtain ⟨line, -, hsome⟩ := Option.bind_eq_some_iff.mp hrest
    have hsame : t₁.cursor = t.cursor :=
      @saveBottomLine_cursor { t with cursorShown := false } t₁ hsave
    cases hsome
    exact hsame

theorem vga_of_screenRows {vga vga' : Vga} (h : screenRows vga' = screenRows vga) {i : Nat}
    (hlo : vgaStart ≤ i) (hhi : i < terminalBottom) : vga' i = vga i := by
  have hstart : vgaStart = 160 := rfl
  have hbottom : terminalBottom = 2000 := rfl
  have htop : topRow = 2 := rfl
  have hrows : terminalRows = 23 := rfl
  have hrow : readLine vga' (topRow + (i / 80 - 2)) = readLine vga (topRow + (i / 80 - 2)) :=
    List.map_inj_left.mp h (i / 80 - 2) (List.mem_range.mpr (by omega))
  have hcell := congrFun hrow ⟨i % 80, Nat.mod_lt _ (by decide)⟩
  unfold readLine at hcell
  dsimp only at hcell
  rwa [show (topRow + (i / 80 - 2)) * 80 + i % 80 = i by omega] at hcell

/-- The terminal `t` shows another place of what `p` has. -/
structure ViewOf (p t : Terminal) : Prop where
  scrolled : p.ScrolledTo t
  cursor : t.cursor = p.cursor

theorem ViewOf.refl (t : Terminal) : ViewOf t t := ⟨.refl t, rfl⟩

/-- Back at the present the cells before the cursor are those there were. -/
theorem Holds.of_view (h : p.Holds l) (hv : ViewOf p t) (h0 : t.bottomCount = 0) : t.Holds l := by
  have hend : ∀ s : Terminal, s.bottomCount = 0 → s.windowed.after = [] := by
    intro s hs
    show (stored s.bottomBuffer s.bottomCount).reverse = []
    rw [hs]
    rfl
  have hwin := hv.scrolled.scrolled.eq (hend p h.present) (hend t h0)
  have hrows : screenRows t.vga = screenRows p.vga := congrArg Windowed.window hwin
  have hroom := h.room
  have hinside := h.inside
  refine ⟨hv.scrolled.bounded h.bounded, h0, hv.cursor ▸ hroom, hv.cursor ▸ hinside, ?_⟩
  rw [hv.cursor]
  refine (cellsBefore_congr (fun i hlo hhi => ?_) (by omega)).trans h.cells
  exact vga_of_screenRows hrows (by omega) (by omega)

theorem ViewOf.returnToPresent (hv : ViewOf p t) (hb : p.Bounded) :
    ∃ t', returnToPresent t = some t' ∧ ViewOf p t' ∧ t'.bottomCount = 0 := by
  obtain ⟨t', hrun, hs, h0⟩ := returnToPresent_spec (hv.scrolled.bounded hb)
  exact ⟨t', hrun, ⟨hv.scrolled.trans hs, (returnToPresent_cursor hrun).trans hv.cursor⟩, h0⟩

end Terminal

/-- The command line `l` takes the machine from `m` to `m'`. -/
def Exec.Runs {ω : Type} (exec : Exec ω) (m : ω) (l : List UInt8) (m' : ω) : Prop :=
  ∃ t result exitCode t', exec l m t = some (result, exitCode, m', t')

/-! ## The console

Each key that types is followed from a terminal at the present. -/

namespace Console

open Terminal

variable {ω : Type}

/-- What was typed: the input buffer up to `input_len`. -/
def input (s : Console ω) : List UInt8 := (List.range s.inputLen).map s.inputBuf

/-- The cells of the prompt and of what was typed. -/
def shownCells (s : Console ω) : List UInt16 :=
  promptStr.map (vgaEntry · promptFg 0) ++ s.input.map (vgaEntry · 7 0)

/-- A character that a key can put in the input buffer. -/
def Printable (c : UInt8) : Prop := 32 ≤ c ∧ c < 127

instance (c : UInt8) : Decidable (Printable c) := inferInstanceAs (Decidable (_ ∧ _))

/-- What every key keeps: the terminal shows a place of one that has the prompt and the input
before its cursor. -/
structure Consistent (s : Console ω) : Prop where
  shown : s.promptShown = true
  len : s.inputLen ≤ 255
  printable : ∀ i, i < s.inputLen → Printable (s.inputBuf i)
  view : ∃ p : Terminal, p.Holds s.shownCells ∧ ViewOf p s.term

variable {s s' : Console ω} {exec : Exec ω} {sc : UInt8}

@[simp] theorem length_input (s : Console ω) : s.input.length = s.inputLen := by simp [input]

@[simp] theorem length_shownCells (s : Console ω) : s.shownCells.length = s.inputLen + 2 := by
  rw [shownCells, List.length_append, List.length_map, List.length_map, length_input]
  show 2 + s.inputLen = s.inputLen + 2
  omega

theorem Printable.plain {c : UInt8} (h : Printable c) : c ≠ 10 ∧ c ≠ 13 ∧ c ≠ 9 := by
  refine ⟨?_, ?_, ?_⟩
  · rintro rfl
    exact absurd h (by decide)
  · rintro rfl
    exact absurd h (by decide)
  · rintro rfl
    exact absurd h (by decide)

theorem Consistent.hotKeys (h : s.Consistent) : (s.hotKeys sc).Consistent :=
  ⟨h.shown, h.len, h.printable, h.view⟩

theorem Consistent.scrolled (h : s.Consistent) {f : Terminal → Option Terminal}
    (hf : ∀ t : Terminal, t.Bounded → ∃ t', f t = some t' ∧ t.ScrolledTo t')
    (hcur : ∀ t t' : Terminal, f t = some t' → t'.cursor = t.cursor) :
    ∃ s', s.onTerm f = some s' ∧ s'.Consistent := by
  obtain ⟨p, hp, hv⟩ := h.view
  obtain ⟨t', hrun, hs⟩ := hf s.term (hv.scrolled.bounded hp.bounded)
  refine ⟨{ s with term := t' }, by rw [onTerm, hrun]; rfl, h.shown, h.len, h.printable, p, hp,
    hv.scrolled.trans hs, ?_⟩
  exact (hcur _ _ hrun).trans hv.cursor

/-- A console at the present, with what is typed before the cursor. -/
structure Present (s : Console ω) : Prop where
  shown : s.promptShown = true
  len : s.inputLen ≤ 255
  printable : ∀ i, i < s.inputLen → Printable (s.inputBuf i)
  holds : s.term.Holds s.shownCells

theorem Present.consistent (h : s.Present) : s.Consistent :=
  ⟨h.shown, h.len, h.printable, s.term, h.holds, .refl _⟩

/-- The first thing a character does is to bring the present back. -/
theorem Consistent.present (h : s.Consistent) :
    ∃ s', s.onTerm returnToPresent = some s' ∧ s'.Present ∧ s'.input = s.input
      ∧ s'.keyboard = s.keyboard ∧ s'.machine = s.machine := by
  obtain ⟨p, hp, hv⟩ := h.view
  obtain ⟨t', hrun, hv', h0⟩ := hv.returnToPresent hp.bounded
  exact ⟨{ s with term := t' }, by rw [onTerm, hrun]; rfl,
    ⟨h.shown, h.len, h.printable, hp.of_view hv' h0⟩, rfl, rfl, rfl⟩

theorem Present.echo (h : s.Present) {c : UInt8} (hc : Printable c) (hroom : s.inputLen < 255) :
    ∃ s', s.echo c = some s' ∧ s'.Present ∧ s'.inputLen = s.inputLen + 1 := by
  obtain ⟨t', hput, hholds⟩ := h.holds.put hc.plain 7 0 (by rw [length_shownCells]; omega)
  have hterm : s.onTerm (putchar c) = some { s with term := t' } := by
    rw [onTerm, putchar, hput]
    rfl
  have hfits : s.inputLen < inputBufSize := Nat.lt_trans hroom (by decide)
  have hinput : (List.range (s.inputLen + 1)).map
      (fun i => if i = s.inputLen then c else s.inputBuf i) = s.input ++ [c] := by
    rw [List.range_succ, List.map_append, List.map_singleton, if_pos rfl]
    congr 1
    refine List.map_congr_left fun i hi => ?_
    exact if_neg (Nat.ne_of_lt (List.mem_range.mp hi))
  unfold Console.echo
  rw [hterm, Option.bind_eq_bind, Option.bind_some, storeInput, if_pos hfits]
  refine ⟨_, rfl, ⟨h.shown, hroom, fun i hi => ?_, ?_⟩, rfl⟩
  · show Printable (if i = s.inputLen then c else s.inputBuf i)
    split
    · exact hc
    · rename_i hne
      have hi' : i < s.inputLen + 1 := hi
      exact h.printable i (by omega)
  · show t'.Holds (promptStr.map (vgaEntry · promptFg 0) ++ ((List.range (s.inputLen + 1)).map
      (fun i => if i = s.inputLen then c else s.inputBuf i)).map (vgaEntry · 7 0))
    rw [hinput, List.map_append, ← List.append_assoc]
    exact hholds

theorem Present.typeChar (h : s.Present) {c : UInt8} (hc : Printable c) :
    ∃ s', s.typeChar c = some s' ∧ s'.Present := by
  unfold Console.typeChar
  split
  · rename_i hroom
    obtain ⟨s', hrun, hp, -⟩ := h.echo hc hroom
    exact ⟨s', hrun, hp⟩
  · exact ⟨s, rfl, h⟩

theorem Present.echoSpaces {n : Nat} (h : s.Present) (hroom : s.inputLen + n ≤ 255) :
    ∃ s', s.echoSpaces n = some s' ∧ s'.Present := by
  induction n generalizing s with
  | zero => exact ⟨s, rfl, h⟩
  | succ n ih =>
      obtain ⟨s₁, hrun, hp, hlen⟩ := h.echo (c := 32) (by decide) (by omega)
      obtain ⟨s₂, hrest, hp₂⟩ := ih hp (by omega)
      refine ⟨s₂, ?_, hp₂⟩
      rw [Console.echoSpaces, hrun, Option.bind_some, hrest]

theorem Present.tab (h : s.Present) : ∃ s', s.tab = some s' ∧ s'.Present := by
  have hsize : inputBufSize = 256 := rfl
  have hlen := h.len
  unfold Console.tab
  dsimp only
  split
  · exact ⟨s, rfl, h⟩
  · refine h.echoSpaces ?_
    split
    · omega
    · omega

theorem Present.backspace (h : s.Present) : ∃ s', s.backspace = some s' ∧ s'.Present := by
  unfold Console.backspace
  split
  · rename_i hpos
    obtain ⟨n, hn⟩ : ∃ n, s.inputLen = n + 1 := ⟨s.inputLen - 1, by omega⟩
    have hcells : s.shownCells = promptStr.map (vgaEntry · promptFg 0)
        ++ ((List.range n).map s.inputBuf).map (vgaEntry · 7 0)
            ++ [vgaEntry (s.inputBuf n) 7 0] := by
      rw [shownCells, input, hn, List.range_succ, List.map_append, List.map_append,
        List.append_assoc]
      rfl
    have hholds := h.holds
    rw [hcells] at hholds
    obtain ⟨t', hrun, herased⟩ := hholds.erase
    have hlen := h.len
    rw [onTerm, hrun]
    refine ⟨_, rfl, h.shown, ?_, fun i hi => ?_, ?_⟩
    · show s.inputLen - 1 ≤ 255
      omega
    · have hi' : i < s.inputLen - 1 := hi
      exact h.printable i (by omega)
    · show t'.Holds (promptStr.map (vgaEntry · promptFg 0)
        ++ ((List.range (s.inputLen - 1)).map s.inputBuf).map (vgaEntry · 7 0))
      rw [hn, Nat.add_sub_cancel]
      exact herased
  · exact ⟨s, rfl, h⟩

theorem Present.handleChar (h : s.Present) {c : UInt8} (hc : ¬ (c = 10 ∨ c = 13)) :
    ∃ s', s.handleChar exec c = some s' ∧ s'.Present := by
  unfold Console.handleChar
  rw [if_neg hc]
  split
  · exact h.backspace
  split
  · exact h.tab
  split
  · rename_i hprint
    exact h.typeChar hprint
  · exact ⟨s, rfl, h⟩

/-- The scancode is that of the Enter key. -/
def Enters (s : Console ω) (sc : UInt8) : Prop :=
  sc &&& 0x80 = 0 ∧ ¬ (sc = 0x51 ∨ sc = 0x50) ∧ ¬ (sc = 0x49 ∨ sc = 0x48)
    ∧ (getChar ((s.hotKeys sc).hotKeys sc).keyboard sc = 10
      ∨ getChar ((s.hotKeys sc).hotKeys sc).keyboard sc = 13)

theorem Consistent.step (h : s.Consistent) (hne : ¬ s.Enters sc) :
    ∃ s', terminalConsole exec sc s = some s' ∧ s'.Consistent := by
  unfold terminalConsole
  rw [if_pos h.shown, Option.bind_some, handleScancode]
  split
  · exact ⟨_, rfl, h.hotKeys⟩
  split
  · exact ⟨_, rfl, h.hotKeys.hotKeys⟩
  rename_i hmake
  have h₂ : ((s.hotKeys sc).hotKeys sc).Consistent := h.hotKeys.hotKeys
  unfold handleKey
  split
  · exact h₂.scrolled (fun t hb => scrollDown_spec hb) (fun t t' hrun => scrollDown_cursor hrun)
  split
  · exact h₂.scrolled (fun t hb => scrollUp_spec hb) (fun t t' hrun => scrollUp_cursor hrun)
  split
  · exact ⟨_, rfl, h₂⟩
  · rename_i hdown hup hchar
    obtain ⟨s₃, hrun, hp, -, -, -⟩ := h₂.present
    have hcr : ¬ (getChar ((s.hotKeys sc).hotKeys sc).keyboard sc = 10
        ∨ getChar ((s.hotKeys sc).hotKeys sc).keyboard sc = 13) := by
      intro hcr
      exact hne ⟨Decidable.not_not.mp hmake, hdown, hup, hcr⟩
    obtain ⟨s₄, hrest, hp₄⟩ := @Present.handleChar _ _ exec hp _ hcr
    refine ⟨s₄, ?_, hp₄.consistent⟩
    rw [hrun, Option.bind_some, hrest]

theorem printPrompt_spec (hb : s.term.Bounded) (h0 : s.term.bottomCount = 0)
    (hlen : s.inputLen = 0) : ∃ s', printPrompt s = some s' ∧ s'.Present := by
  obtain ⟨t₁, hput₁, h₁⟩ := put_fixed (holds_nil hb h0) (c := 62) (by decide) promptFg 0 (by decide)
  obtain ⟨t₂, hput₂, h₂⟩ := h₁.put (c := 32) (by decide) promptFg 0 (by decide)
  have hrun : promptStr.foldlM (fun t c => putcharColor c promptFg 0 t) s.term = some t₂ := by
    rw [promptStr, List.foldlM_cons, hput₁, Option.bind_eq_bind, Option.bind_some, List.foldlM_cons,
      hput₂]
    rfl
  have hinput : s.input = [] := by rw [input, hlen]; rfl
  have hcells : s.shownCells = promptStr.map (vgaEntry · promptFg 0) := by
    rw [shownCells, hinput]
    rfl
  refine ⟨_, by rw [printPrompt, hrun]; rfl, rfl, ?_, fun i hi => ?_, ?_⟩
  · show s.inputLen ≤ 255
    omega
  · have hi' : i < s.inputLen := hi
    omega
  · show t₂.Holds s.shownCells
    rw [hcells]
    exact h₂

theorem commandLine_storeInput (hp : ∀ i, i < s.inputLen → Printable (s.inputBuf i))
    (h : s.storeInput 0 = some s') : s'.commandLine = s.input := by
  unfold storeInput at h
  split at h
  · rename_i hfits
    cases h
    have hsize : inputBufSize = s.inputLen + (1 + (255 - s.inputLen)) := by
      have h256 : inputBufSize = 256 := rfl
      omega
    show ((List.range inputBufSize).map
      (fun i => if i = s.inputLen then 0 else s.inputBuf i)).takeWhile (· ≠ 0) = s.input
    rw [hsize, List.range_add, List.map_append, List.takeWhile_append_of_pos]
    · have hhead : (List.range (1 + (255 - s.inputLen))).map (s.inputLen + ·)
          = s.inputLen :: (List.range (255 - s.inputLen)).map (fun i => s.inputLen + (i + 1)) := by
        rw [Nat.add_comm 1, List.range_succ_eq_map, List.map_cons, List.map_map]
        rfl
      rw [hhead, List.map_cons, if_pos rfl, List.takeWhile_cons_of_neg (by decide),
        List.append_nil, input]
      refine List.map_congr_left fun i hi => ?_
      exact if_neg (Nat.ne_of_lt (List.mem_range.mp hi))
    · intro c hc
      obtain ⟨i, hi, rfl⟩ := List.mem_map.mp hc
      have hlt := List.mem_range.mp hi
      rw [if_neg (Nat.ne_of_lt hlt)]
      have hne : s.inputBuf i ≠ 0 := by
        intro h0
        exact absurd (h0 ▸ hp i hlt : Printable 0) (by decide)
      exact decide_eq_true hne
  · cases h

theorem Present.enter (h : s.Present) (exec : Exec ω) :
    s.enter exec = s.enter (fun _ m t => exec s.input m t) := by
  unfold Console.enter
  cases hput : s.onTerm (putchar 10) with
  | none => rfl
  | some s₁ =>
      have hsame : s₁.input = s.input ∧ ∀ i, i < s₁.inputLen → Printable (s₁.inputBuf i) := by
        obtain ⟨t', -, rfl⟩ := Option.map_eq_some_iff.mp hput
        exact ⟨rfl, h.printable⟩
      rw [Option.bind_eq_bind, Option.bind_some, Option.bind_some]
      cases hstore : s₁.storeInput 0 with
      | none => rfl
      | some s₂ =>
          have hline : s₂.commandLine = s.input :=
            (commandLine_storeInput hsame.2 hstore).trans hsame.1
          rw [Option.bind_some, Option.bind_some, runCommand, runCommand, hline]

/-- At the Enter key the present is back and what was typed is entered. -/
theorem Consistent.enter_eq (h : s.Consistent) (he : s.Enters sc) :
    ∃ s₃ : Console ω, s₃.Present ∧ s₃.input = s.input ∧ s₃.machine = s.machine
      ∧ s₃.keyboard = ((s.hotKeys sc).hotKeys sc).keyboard
      ∧ ∀ exec : Exec ω, terminalConsole exec sc s = s₃.enter exec := by
  obtain ⟨hmake, hdown, hup, hcr⟩ := he
  have h₂ : ((s.hotKeys sc).hotKeys sc).Consistent := h.hotKeys.hotKeys
  obtain ⟨s₃, hrun, hp, hinput, hkeyboard, hmachine⟩ := h₂.present
  refine ⟨s₃, hp, hinput, hmachine, hkeyboard, fun exec => ?_⟩
  have hsc : sc ≠ 0 := by
    rintro rfl
    exact absurd hcr (by decide : ¬ ((0 : UInt8) = 10 ∨ (0 : UInt8) = 13))
  have hchar : getChar ((s.hotKeys sc).hotKeys sc).keyboard sc ≠ 0 := by
    intro hzero
    rw [hzero] at hcr
    exact absurd hcr (by decide)
  unfold terminalConsole handleScancode handleKey
  rw [if_pos h.shown, Option.bind_some, if_neg hsc, if_neg (not_not.mpr hmake), if_neg hdown,
    if_neg hup, if_neg hchar, hrun, Option.bind_some, handleChar, if_pos hcr]

/-! ## The machine

What is neither screen nor input belongs to the commands: no key but Enter
touches it, and Enter hands it to `exec` once, if there is a line. -/

theorem onTerm_machine {f : Terminal → Option Terminal} (h : s.onTerm f = some s') :
    s'.machine = s.machine := by
  obtain ⟨t', -, rfl⟩ := Option.map_eq_some_iff.mp h
  rfl

theorem storeInput_machine {c : UInt8} (h : s.storeInput c = some s') :
    s'.machine = s.machine ∧ s'.inputLen = s.inputLen := by
  unfold storeInput at h
  split at h
  · obtain rfl := Option.some.inj h
    exact ⟨rfl, rfl⟩
  · cases h

theorem echo_machine {c : UInt8} (h : s.echo c = some s') : s'.machine = s.machine := by
  obtain ⟨s₁, hterm, hrest⟩ := Option.bind_eq_some_iff.mp h
  obtain ⟨s₂, hstore, hsome⟩ := Option.bind_eq_some_iff.mp hrest
  obtain rfl := Option.some.inj hsome
  exact (storeInput_machine hstore).1.trans (onTerm_machine hterm)

theorem echoSpaces_machine {n : Nat} (h : s.echoSpaces n = some s') : s'.machine = s.machine := by
  induction n generalizing s with
  | zero => exact congrArg Console.machine (Option.some.inj h).symm
  | succ n ih =>
      obtain ⟨s₁, hecho, hrest⟩ := Option.bind_eq_some_iff.mp h
      exact (ih hrest).trans (echo_machine hecho)

theorem handleChar_machine {c : UInt8} (hc : ¬ (c = 10 ∨ c = 13))
    (h : s.handleChar exec c = some s') :
    s'.machine = s.machine := by
  unfold Console.handleChar at h
  rw [if_neg hc] at h
  split at h
  · unfold Console.backspace at h
    split at h
    · obtain ⟨s₁, herase, rfl⟩ := Option.map_eq_some_iff.mp h
      exact (onTerm_machine herase : s₁.machine = s.machine)
    · exact congrArg Console.machine (Option.some.inj h).symm
  split at h
  · unfold Console.tab at h
    dsimp only at h
    split at h
    · exact congrArg Console.machine (Option.some.inj h).symm
    · exact echoSpaces_machine h
  split at h
  · unfold Console.typeChar at h
    split at h
    · exact echo_machine h
    · exact congrArg Console.machine (Option.some.inj h).symm
  · exact congrArg Console.machine (Option.some.inj h).symm

theorem terminalConsole_machine (hshown : s.promptShown = true) (hne : ¬ s.Enters sc)
    (h : terminalConsole exec sc s = some s') : s'.machine = s.machine := by
  have hkeys : ((s.hotKeys sc).hotKeys sc).machine = s.machine := rfl
  unfold terminalConsole handleScancode at h
  rw [if_pos hshown, Option.bind_some] at h
  split at h
  · exact Option.some.inj h ▸ rfl
  split at h
  · exact Option.some.inj h ▸ rfl
  rename_i hmake
  unfold handleKey at h
  split at h
  · exact (onTerm_machine h).trans hkeys
  split at h
  · exact (onTerm_machine h).trans hkeys
  split at h
  · exact Option.some.inj h ▸ rfl
  · rename_i hdown hup hchar
    obtain ⟨s₁, hreturn, hrest⟩ := Option.bind_eq_some_iff.mp h
    refine (handleChar_machine (fun hcr => ?_) hrest).trans ((onTerm_machine hreturn).trans hkeys)
    exact hne ⟨Decidable.not_not.mp hmake, hdown, hup, hcr⟩

theorem enter_machine (hp : ∀ i, i < s.inputLen → Printable (s.inputBuf i))
    (h : s.enter exec = some s') :
    if 0 < s.inputLen then exec.Runs s.machine s.input s'.machine else s'.machine = s.machine := by
  obtain ⟨s₁, hterm, hrest⟩ := Option.bind_eq_some_iff.mp h
  obtain ⟨t₁, -, rfl⟩ := Option.map_eq_some_iff.mp hterm
  obtain ⟨s₂, hstore, hrest⟩ := Option.bind_eq_some_iff.mp hrest
  obtain ⟨s₃, hcommand, hprompt⟩ := Option.bind_eq_some_iff.mp hrest
  obtain ⟨t₄, -, rfl⟩ := Option.map_eq_some_iff.mp hprompt
  have hline : s₂.commandLine = s.input :=
    @commandLine_storeInput _ { s with term := t₁ } _ hp hstore
  have hkept := storeInput_machine hstore
  obtain ⟨hmachine, hlen⟩ : s₂.machine = s.machine ∧ s₂.inputLen = s.inputLen := hkept
  unfold runCommand at hcommand
  rw [hlen, hline, hmachine] at hcommand
  split
  · rename_i hpos
    rw [if_pos hpos] at hcommand
    obtain ⟨⟨result, exitCode, m, t₂⟩, hexec, hcommand⟩ := Option.bind_eq_some_iff.mp hcommand
    obtain ⟨t₃, -, hsome⟩ := Option.bind_eq_some_iff.mp hcommand
    obtain rfl := Option.some.inj hsome
    exact ⟨s₂.term, result, exitCode, t₂, hexec⟩
  · rename_i hzero
    rw [if_neg hzero] at hcommand
    obtain rfl := Option.some.inj hcommand
    exact hmachine

/-- The cells before the cursor are `l`, and all of them are in the terminal. -/
structure Displays (t : Terminal) (l : List UInt16) : Prop where
  room : vgaStart + l.length ≤ t.cursor
  inside : t.cursor < terminalBottom
  cells : cellsBefore t.vga t.cursor l.length = l

/-- A run of the console without the Enter key. -/
abbrev KeyRun (exec : Exec ω) : Console ω → Console ω → Prop :=
  RunBy (terminalConsole exec) fun s sc => ¬ s.Enters sc

/-- After any keys since the prompt was printed: `input_len` is at most 255, every key is handled
without an index outside a buffer, at the present the prompt and the input buffer are shown before
the cursor, and the Enter key shows them again and runs that input, if there is any. No other key
runs anything. -/
theorem input_shown {s₀ s₁ s : Console ω} {exec : Exec ω} (hb : s₀.term.Bounded)
    (h0 : s₀.term.bottomCount = 0) (hlen : s₀.inputLen = 0) (hprompt : s₀.printPrompt = some s₁)
    (hrun : KeyRun exec s₁ s) :
    s.inputLen ≤ 255
    ∧ (∀ sc, ¬ s.Enters sc → ∃ s', terminalConsole exec sc s = some s' ∧ s'.machine = s.machine)
    ∧ (s.term.bottomCount = 0 → Displays s.term s.shownCells)
    ∧ ∀ sc, s.Enters sc → ∃ t, returnToPresent s.term = some t ∧ Displays t s.shownCells
      ∧ ∀ exec : Exec ω, terminalConsole exec sc s
        = terminalConsole (fun _ m t => exec s.input m t) sc s
        ∧ ∀ s', terminalConsole exec sc s = some s' →
          if 0 < s.inputLen then exec.Runs s.machine s.input s'.machine
          else s'.machine = s.machine := by
  obtain ⟨s₁', hprompt', hp⟩ := printPrompt_spec hb h0 hlen
  obtain rfl := Option.some.inj (hprompt.symm.trans hprompt')
  have h : s.Consistent := by
    refine hrun.invariant (fun s sc s' hs hne hstep => ?_) hp.consistent
    obtain ⟨s'', hstep', hs'⟩ := hs.step hne
    exact Option.some.inj (hstep.symm.trans hstep') ▸ hs'
  obtain ⟨p, hholds, hv⟩ := h.view
  refine ⟨h.len, fun sc hne => ?_, fun hpresent => ?_, fun sc he => ?_⟩
  · obtain ⟨s', hstep, -⟩ := h.step hne
    exact ⟨s', hstep, terminalConsole_machine h.shown hne hstep⟩
  · have ht := hholds.of_view hv hpresent
    exact ⟨ht.room, ht.inside, ht.cells⟩
  · obtain ⟨t, hreturn, hv', hpresent⟩ := hv.returnToPresent hholds.bounded
    have ht := hholds.of_view hv' hpresent
    obtain ⟨s₃, hp₃, hinput, hmachine, -, henter⟩ := h.enter_eq he
    have hlen : s₃.inputLen = s.inputLen := by rw [← length_input, hinput, length_input]
    refine ⟨t, hreturn, ⟨ht.room, ht.inside, ht.cells⟩, fun exec => ⟨?_, fun s' hs' => ?_⟩⟩
    · rw [henter, henter, hp₃.enter, hinput]
    · rw [henter] at hs'
      have hruns := enter_machine hp₃.printable hs'
      rwa [hlen, hinput, hmachine] at hruns

/-- The console after `terminal_initialize`. -/
def initialized (m : ω) : Console ω where
  machine := m
  term := terminalInitialize blankTerminal
  keyboard := ⟨fun _ => false, false, 0, ⟨keymapEnglish, keymapEnglishShift⟩⟩
  inputBuf := fun _ => 0
  inputLen := 0
  promptShown := false

/-- What runs nothing and keeps a list of what it was to run. -/
def logExec : Exec (List (List UInt8)) := fun l ls t => some (0, 0, ls ++ [l], t)

def prompted : Console (List (List UInt8)) := (initialized []).printPrompt.getD (initialized [])

/-- The `a` key after it. -/
def typedA : Console (List (List UInt8)) :=
  (terminalConsole logExec 0x1E prompted).getD (initialized [])

theorem input_shown_typedA :
    typedA.inputLen ≤ 255
    ∧ (∀ sc, ¬ typedA.Enters sc →
      ∃ s', terminalConsole logExec sc typedA = some s' ∧ s'.machine = typedA.machine)
    ∧ (typedA.term.bottomCount = 0 → Displays typedA.term typedA.shownCells)
    ∧ ∀ sc, typedA.Enters sc → ∃ t, returnToPresent typedA.term = some t
      ∧ Displays t typedA.shownCells
        ∧ ∀ exec : Exec (List (List UInt8)), terminalConsole exec sc typedA
          = terminalConsole (fun _ m t => exec typedA.input m t) sc typedA
        ∧ ∀ s', terminalConsole exec sc typedA = some s' →
          if 0 < typedA.inputLen then exec.Runs typedA.machine typedA.input s'.machine
          else s'.machine = typedA.machine := by
  have hb : (initialized ([] : List (List UInt8))).term.Bounded :=
    terminalInitialize_bounded blankTerminal
  have hsome : ∀ {x : Option (Console (List (List UInt8)))}, x.isSome →
      x = some (x.getD (initialized [])) := by
    intro x hx
    obtain ⟨y, rfl⟩ := Option.isSome_iff_exists.mp hx
    rfl
  have hprompt : (initialized []).printPrompt = some prompted := hsome (by decide +kernel)
  have hcr : ¬ (getChar ((prompted.hotKeys 0x1E).hotKeys 0x1E).keyboard 0x1E = 10
      ∨ getChar ((prompted.hotKeys 0x1E).hotKeys 0x1E).keyboard 0x1E = 13) := by decide +kernel
  have hne : ¬ prompted.Enters 0x1E := fun he => hcr he.2.2.2
  have hkey : terminalConsole logExec 0x1E prompted = some typedA := hsome (by decide +kernel)
  exact input_shown hb rfl rfl hprompt (Relation.ReflTransGen.single ⟨0x1E, hne, hkey⟩)

end Console

end IpoOs
