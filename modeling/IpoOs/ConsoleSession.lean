import IpoOs.ConsoleShown

/-!
# Sessions at the console

A user at the keyboard, without a screen: `Typist` is the shift keys that
are held, the line typed so far, and the lines entered. The console goes
through any scancodes as the typist does. What it has in its buffer is the
line. What it runs are the lines entered: the rest of the machine, which
only `try_execute_command` touches, has gone through exactly these lines,
one after the other. So a command that wrote down each call of itself would
have written down the lines entered, in order and each once.

The screen matters for one thing, the column that a tab goes to, and that
is the length of the line with the prompt. After a command the cursor is in
the first column, since every message ends in a newline; before that the
command may have left it anywhere, as long as the terminal is at the
present.
-/

namespace IpoOs

/-! ## The typist

No screen and no buffer but the line. -/

/-- What the keys pressed so far come to. -/
structure Typist where
  left : Bool
  right : Bool
  line : List UInt8
  entered : List (List UInt8)

namespace Typist

def hold (sc : UInt8) (t : Typist) : Typist :=
  { t with
    left := if sc = 0x2A then true else if sc = 0xAA then false else t.left
    right := if sc = 0x36 then true else if sc = 0xB6 then false else t.right }

def charAt (sc : UInt8) (t : Typist) : UInt8 :=
  (if t.left || t.right then keymapEnglishShift else keymapEnglish).getD sc.toNat 0

/-- A character typed: the Enter key, the backspace, a tab up to the next multiple of four behind
the prompt, or one more character; 255 at most. -/
def type (c : UInt8) (t : Typist) : Typist :=
  if c = 10 ∨ c = 13 then
    { t with line := [], entered := if t.line = [] then t.entered else t.entered ++ [t.line] }
  else if c = 8 ∨ c = 127 then { t with line := t.line.dropLast }
  else if c = 9 then
    { t with line := t.line
        ++ List.replicate (min (4 - (t.line.length + 2) % 4) (255 - t.line.length)) 32 }
  else if Console.Printable c ∧ t.line.length < 255 then { t with line := t.line ++ [c] }
  else t

/-- A scancode: a key released and a key that scrolls type nothing. -/
def press (sc : UInt8) (t : Typist) : Typist :=
  if sc &&& 0x80 ≠ 0 ∨ sc = 0x51 ∨ sc = 0x50 ∨ sc = 0x49 ∨ sc = 0x48 then t.hold sc
  else (t.hold sc).type ((t.hold sc).charAt sc)

def presses (scs : List UInt8) (t : Typist) : Typist := scs.foldl (fun t sc => t.press sc) t

def start : Typist := ⟨false, false, [], []⟩

variable (sc c : UInt8) (t : Typist)

@[simp] theorem hold_hold : (t.hold sc).hold sc = t.hold sc := by
  unfold hold
  congr 1
  · dsimp only
    split_ifs <;> rfl
  · dsimp only
    split_ifs <;> rfl

@[simp] theorem charAt_zero : t.charAt 0 = 0 := by
  unfold charAt
  split
  · rfl
  · rfl

@[simp] theorem type_zero : t.type 0 = t := by
  unfold type
  rw [if_neg (by decide), if_neg (by decide), if_neg (by decide), if_neg]
  exact fun hc => absurd hc.1 (by decide)

@[simp] theorem type_left : (t.type c).left = t.left := by
  unfold type
  split_ifs <;> rfl

@[simp] theorem type_right : (t.type c).right = t.right := by
  unfold type
  split_ifs <;> rfl

end Typist

/-! ## The cursor

The column of the cursor after output. -/

namespace Terminal

variable {t t' : Terminal} {c fg bg : UInt8}

theorem putcharColor_cursor (h : putcharColor c fg bg t = some t') :
    t'.cursor = if (putCell c fg bg t.vga t.fixedCursor.cursor).2 ≥ terminalBottom
      then terminalBottom - 80 else (putCell c fg bg t.vga t.fixedCursor.cursor).2 := by
  have hfixed : (if t.cursor ≥ terminalBottom ∨ t.cursor < vgaStart then vgaStart else t.cursor)
      = t.fixedCursor.cursor := rfl
  unfold putcharColor at h
  rw [hfixed] at h
  dsimp only at h
  split at h
  · rename_i hover
    obtain ⟨t₁, -, hsome⟩ := Option.bind_eq_some_iff.mp h
    rw [if_pos hover, ← Option.some.inj hsome]
  · rename_i hfits
    rw [if_neg hfits, ← Option.some.inj h]

/-- A cursor that is not in the terminal is put into the first column. -/
theorem fixedCursor_column :
    t.fixedCursor.cursor % 80 = t.cursor % 80 ∨ t.fixedCursor.cursor % 80 = 0 := by
  unfold fixedCursor
  dsimp only
  split
  · exact Or.inr rfl
  · exact Or.inl rfl

/-- A character that is no control character moves the cursor by one column. -/
theorem putcharColor_next (h : putcharColor c fg bg t = some t') (hc : c ≠ 10 ∧ c ≠ 13 ∧ c ≠ 9) :
    t'.cursor % 80 = (t.fixedCursor.cursor + 1) % 80 ∧ t'.fixedCursor = t' := by
  have hbottom : terminalBottom = 2000 := rfl
  have hstart : vgaStart = 160 := rfl
  have hinside := t.fixedCursor_inside
  have hcell : (putCell c fg bg t.vga t.fixedCursor.cursor).2 = t.fixedCursor.cursor + 1 := by
    unfold putCell
    rw [if_neg hc.1, if_neg hc.2.1, if_neg hc.2.2]
  have hcursor := putcharColor_cursor h
  rw [hcell] at hcursor
  split at hcursor
  · exact ⟨by omega, fixedCursor_eq (by omega) (by omega)⟩
  · exact ⟨by omega, fixedCursor_eq (by omega) (by omega)⟩

theorem putcharColor_newline (h : putcharColor 10 fg bg t = some t') : t'.cursor % 80 = 0 := by
  have hbottom : terminalBottom = 2000 := rfl
  have hcell : (putCell 10 fg bg t.vga t.fixedCursor.cursor).2
    = (t.fixedCursor.cursor / 80 + 1) * 80 := rfl
  rw [putcharColor_cursor h, hcell]
  split
  · omega
  · omega

theorem putchars_kept (l : List UInt8) (hb : t.Bounded) (h0 : t.bottomCount = 0) :
    ∃ t', putchars l t = some t' ∧ t'.Bounded ∧ t'.bottomCount = 0 := by
  induction l generalizing t with
  | nil => exact ⟨t, rfl, hb, h0⟩
  | cons c l ih =>
      obtain ⟨t₁, hput, hb₁, h0₁, -⟩ := putcharColor_spec hb h0 c 7 0
      obtain ⟨t₂, hrest, hb₂, h0₂⟩ := ih hb₁ h0₁
      refine ⟨t₂, ?_, hb₂, h0₂⟩
      rw [putchars, List.foldlM_cons, putchar, hput]
      exact hrest

theorem putchars_line (l : List UInt8) (hb : t.Bounded) (h0 : t.bottomCount = 0) :
    ∃ t', putchars (l ++ [10]) t = some t' ∧ t'.Bounded ∧ t'.bottomCount = 0
      ∧ t'.cursor % 80 = 0 := by
  obtain ⟨t₁, hfirst, hb₁, h0₁⟩ := putchars_kept l hb h0
  obtain ⟨t₂, hput, hb₂, h0₂, -⟩ := putcharColor_spec hb₁ h0₁ 10 7 0
  refine ⟨t₂, ?_, hb₂, h0₂, putcharColor_newline hput⟩
  unfold putchars at hfirst ⊢
  rw [List.foldlM_append, hfirst, Option.bind_eq_bind, Option.bind_some, List.foldlM_cons, putchar,
    hput]
  rfl

end Terminal

/-- What is run comes back and leaves the terminal at the present. -/
def Exec.Keeps {ω : Type} (exec : Exec ω) : Prop := ∀ l m t, t.Bounded → t.bottomCount = 0 →
  ∃ result exitCode m' t', exec l m t = some (result, exitCode, m', t') ∧ t'.Bounded
    ∧ t'.bottomCount = 0

/-! ## The line

The buffer is the line, and the cursor is past the prompt and the line. -/

namespace Console

open Terminal

variable {ω : Type} {s s' : Console ω} {c : UInt8}

/-- The column is that behind the prompt and the line, as far as a tab sees it. -/
def Aligned (s : Console ω) : Prop := s.term.cursor % 4 = (s.inputLen + 2) % 4

/-- A key has made the line `l` of what was typed. -/
structure Edits (s s' : Console ω) (l : List UInt8) : Prop where
  input : s'.input = l
  aligned : s'.Aligned
  keyboard : s'.keyboard = s.keyboard

theorem echo_edits (h : s.Present) (ha : s.Aligned) (hc : Printable c) (hroom : s.inputLen < 255) :
    ∃ s', s.echo c = some s' ∧ s'.Present ∧ s.Edits s' (s.input ++ [c]) := by
  obtain ⟨s', hrun, hp, hlen⟩ := h.echo hc hroom
  refine ⟨s', hrun, hp, ?_⟩
  unfold Console.echo at hrun
  obtain ⟨s₁, hput, hrun⟩ := Option.bind_eq_some_iff.mp hrun
  obtain ⟨t', hchar, rfl⟩ := Option.map_eq_some_iff.mp hput
  have hfits : s.inputLen < inputBufSize := Nat.lt_trans hroom (by decide)
  rw [storeInput, if_pos hfits] at hrun
  obtain rfl := Option.some.inj hrun
  have hfixed : s.term.fixedCursor = s.term :=
    fixedCursor_eq (by have := h.holds.room; omega) h.holds.inside
  have hnext := (putcharColor_next hchar hc.plain).1
  rw [hfixed] at hnext
  refine ⟨?_, ?_, rfl⟩
  · show (List.range (s.inputLen + 1)).map (fun i => if i = s.inputLen then c else s.inputBuf i) = _
    rw [List.range_succ, List.map_append, List.map_singleton, if_pos rfl]
    congr 1
    exact List.map_congr_left fun i hi => if_neg (Nat.ne_of_lt (List.mem_range.mp hi))
  · unfold Aligned at ha ⊢
    show t'.cursor % 4 = (s.inputLen + 1 + 2) % 4
    omega

theorem echoSpaces_edits {n : Nat} (h : s.Present) (ha : s.Aligned) (hroom : s.inputLen + n ≤ 255) :
    ∃ s', s.echoSpaces n = some s' ∧ s'.Present ∧ s.Edits s' (s.input ++ List.replicate n 32) := by
  induction n generalizing s with
  | zero => exact ⟨s, rfl, h, by rw [List.replicate_zero, List.append_nil], ha, rfl⟩
  | succ n ih =>
      obtain ⟨s₁, hrun, hp, he⟩ := echo_edits h ha (c := 32) (by decide) (by omega)
      have hlen : s₁.inputLen = s.inputLen + 1 := by
        rw [← length_input, he.input, List.length_append, length_input]
        rfl
      obtain ⟨s₂, hrest, hp₂, he₂⟩ := ih hp he.aligned (by omega)
      refine ⟨s₂, ?_, hp₂, ?_, he₂.aligned, he₂.keyboard.trans he.keyboard⟩
      · rw [Console.echoSpaces, hrun, Option.bind_some, hrest]
      · rw [he₂.input, he.input, List.append_assoc, List.replicate_succ]
        rfl

theorem tab_edits (h : s.Present) (ha : s.Aligned) :
    ∃ s', s.tab = some s' ∧ s'.Present ∧ s.Edits s' (s.input
      ++ List.replicate (min (4 - (s.input.length + 2) % 4) (255 - s.input.length)) 32) := by
  have hsize : inputBufSize = 256 := rfl
  have hlen := h.len
  have hcol : s.term.cursor % 80 % 4 = (s.inputLen + 2) % 4 := by
    unfold Aligned at ha
    omega
  unfold Console.tab
  dsimp only
  rw [hcol, length_input]
  split
  · rename_i hfull
    refine ⟨s, rfl, h, ?_, ha, rfl⟩
    rw [show 255 - s.inputLen = 0 by omega, Nat.min_zero, List.replicate_zero, List.append_nil]
  · have hcount : (if 4 - (s.inputLen + 2) % 4 > inputBufSize - 1 - s.inputLen
        then inputBufSize - 1 - s.inputLen else 4 - (s.inputLen + 2) % 4)
        = min (4 - (s.inputLen + 2) % 4) (255 - s.inputLen) := by
      split
      · omega
      · omega
    rw [hcount]
    exact echoSpaces_edits h ha (by omega)

theorem backspace_edits (h : s.Present) (ha : s.Aligned) :
    ∃ s', s.backspace = some s' ∧ s'.Present ∧ s.Edits s' s.input.dropLast := by
  obtain ⟨s', hrun, hp⟩ := h.backspace
  refine ⟨s', hrun, hp, ?_⟩
  unfold Console.backspace at hrun
  split at hrun
  · rename_i hpos
    obtain ⟨s₁, herased, rfl⟩ := Option.map_eq_some_iff.mp hrun
    obtain ⟨t', hcell, rfl⟩ := Option.map_eq_some_iff.mp herased
    have hroom := h.holds.room
    have hcursor : t'.cursor = s.term.cursor - 1 := by
      unfold Console.eraseCell at hcell
      rw [if_pos (by unfold vgaStart at hroom; omega)] at hcell
      obtain ⟨t₁, -, rfl⟩ := Option.map_eq_some_iff.mp hcell
      rfl
    refine ⟨?_, ?_, rfl⟩
    · show (List.range (s.inputLen - 1)).map s.inputBuf = s.input.dropLast
      obtain ⟨n, hn⟩ : ∃ n, s.inputLen = n + 1 := ⟨s.inputLen - 1, by omega⟩
      rw [input, hn, List.range_succ, List.map_append, List.map_singleton, List.dropLast_concat]
      rfl
    · unfold Aligned at ha ⊢
      show t'.cursor % 4 = (s.inputLen - 1 + 2) % 4
      unfold vgaStart at hroom
      omega
  · rename_i hzero
    obtain rfl := Option.some.inj hrun
    have hnil : s.input = [] := List.length_eq_zero_iff.mp (by rw [length_input]; omega)
    exact ⟨by rw [hnil]; rfl, ha, rfl⟩

theorem handleChar_edits {exec : Exec ω} {t : Typist} (h : s.Present) (ha : s.Aligned)
    (hc : ¬ (c = 10 ∨ c = 13)) (hline : s.input = t.line) :
    ∃ s', s.handleChar exec c = some s' ∧ s'.Present ∧ s.Edits s' (t.type c).line
      ∧ (t.type c).entered = t.entered := by
  have hlen : t.line.length = s.inputLen := by rw [← hline, length_input]
  unfold Console.handleChar Typist.type
  rw [if_neg hc, if_neg hc]
  split
  · obtain ⟨s', hrun, hp, he⟩ := backspace_edits h ha
    rw [hline] at he
    exact ⟨s', hrun, hp, he, rfl⟩
  split
  · obtain ⟨s', hrun, hp, he⟩ := tab_edits h ha
    rw [hline] at he
    exact ⟨s', hrun, hp, he, rfl⟩
  split
  · rename_i hprint
    have hsize : inputBufSize = 256 := rfl
    unfold Console.typeChar
    split
    · rename_i hroom
      obtain ⟨s', hrun, hp, he⟩ := echo_edits h ha hprint (by omega)
      rw [hline] at he
      rw [if_pos ⟨hprint, by omega⟩]
      exact ⟨s', hrun, hp, he, rfl⟩
    · rename_i hfull
      rw [if_neg fun hno => hfull (by omega)]
      exact ⟨s, rfl, h, ⟨hline, ha, rfl⟩, rfl⟩
  · rename_i hother
    rw [if_neg fun hno => hother hno.1]
    exact ⟨s, rfl, h, ⟨hline, ha, rfl⟩, rfl⟩

/-! ## The keys

The flags of the keyboard driver and the keys that are held. -/

/-- The keyboard of the console has the shift keys of the typist. -/
structure KeysHeld (t : Typist) (k : Keyboard) : Prop where
  left : k.keyState 0x2A = t.left
  right : k.keyState 0x36 = t.right
  index : k.currentIndex = 0
  keyboard : k.currentKeyboard = ⟨keymapEnglish, keymapEnglishShift⟩

theorem updateHotKeyState_held {t : Typist} {k : Keyboard} (h : KeysHeld t k) (sc : UInt8) :
    KeysHeld (t.hold sc) (updateHotKeyState sc k) := by
  obtain ⟨hl, hr, hi, hk⟩ := h
  unfold updateHotKeyState
  split
  · rename_i hsc
    rw [hsc]
    exact ⟨rfl, hr, hi, hk⟩
  split
  · rename_i hsc
    rw [hsc]
    exact ⟨rfl, hr, hi, hk⟩
  split
  · rename_i hsc
    rw [hsc]
    exact ⟨hl, rfl, hi, hk⟩
  split
  · rename_i hsc
    rw [hsc]
    exact ⟨hl, rfl, hi, hk⟩
  · -- the other hot keys are not shift keys
    rename_i h1 h2 h3 h4
    have hsame : t.hold sc = t := by
      unfold Typist.hold
      rw [if_neg h1, if_neg h2, if_neg h3, if_neg h4]
    rw [hsame]
    split
    · exact ⟨hl, hr, hi, hk⟩
    split
    · exact ⟨hl, hr, hi, hk⟩
    split
    · exact ⟨hl, hr, hi, hk⟩
    split
    · exact ⟨hl, hr, hi, hk⟩
    · exact ⟨hl, hr, hi, hk⟩

/-- The hot keys follow the typist; there is no other keyboard to switch to. -/
theorem KeysHeld.hotKeys {t : Typist} (h : KeysHeld t s.keyboard) (sc : UInt8) :
    KeysHeld (t.hold sc) (s.hotKeys sc).keyboard
      ∧ (s.hotKeys sc).keyboard.shiftMode = ((t.hold sc).left || (t.hold sc).right) := by
  obtain ⟨hl, hr, hi, hk⟩ := updateHotKeyState_held h sc
  show KeysHeld _ (hotKeyHandler (updateHotKeyState sc s.keyboard))
    ∧ (hotKeyHandler _).shiftMode = _
  generalize updateHotKeyState sc s.keyboard = k at hl hr hi hk
  unfold hotKeyHandler switchToNextKeyboard
  dsimp only
  split
  · rw [hi, ← hl, ← hr]
    exact ⟨⟨hl, hr, rfl, rfl⟩, rfl⟩
  · rw [← hl, ← hr]
    exact ⟨⟨hl, hr, hi, hk⟩, rfl⟩

theorem KeysHeld.getChar {t : Typist} {k : Keyboard} (h : KeysHeld t k)
    (hshift : k.shiftMode = (t.left || t.right)) (sc : UInt8) : getChar k sc = t.charAt sc := by
  unfold IpoOs.getChar Typist.charAt
  rw [hshift, h.keyboard]
  split
  · rename_i hzero
    rw [hzero]
    split
    · rfl
    · rfl
  · rfl

theorem KeysHeld.type {t : Typist} {k : Keyboard} (h : KeysHeld t k) : KeysHeld (t.type c) k :=
  ⟨h.left.trans (t.type_left c).symm, h.right.trans (t.type_right c).symm, h.index, h.keyboard⟩

/-! ## Steps

A key that is not Enter. -/

/-- The console is where the typist is. -/
structure Follows (t : Typist) (s : Console ω) : Prop where
  consistent : s.Consistent
  aligned : s.Aligned
  keys : KeysHeld t s.keyboard
  line : s.input = t.line

instance (s : Console ω) (sc : UInt8) : Decidable (s.Enters sc) :=
  inferInstanceAs (Decidable (_ ∧ _ ∧ _ ∧ _))

variable {t : Typist} {exec : Exec ω} {sc : UInt8}

theorem Follows.hotKeys (h : Follows t s) (sc : UInt8) : Follows (t.hold sc) (s.hotKeys sc) :=
  ⟨h.consistent.hotKeys, h.aligned, (h.keys.hotKeys sc).1, h.line⟩

theorem Follows.hotKeys_twice (h : Follows t s) (sc : UInt8) :
    Follows (t.hold sc) ((s.hotKeys sc).hotKeys sc)
    ∧ getChar ((s.hotKeys sc).hotKeys sc).keyboard sc = (t.hold sc).charAt sc := by
  have h₂ := (h.hotKeys sc).hotKeys sc
  have hkeys := (h.hotKeys sc).keys.hotKeys sc
  rw [Typist.hold_hold] at h₂ hkeys
  exact ⟨h₂, hkeys.1.getChar hkeys.2 sc⟩

theorem Follows.scrolled (h : Follows t s) {f : Terminal → Option Terminal}
    (hf : ∀ t : Terminal, t.Bounded → ∃ t', f t = some t' ∧ t.ScrolledTo t')
    (hcur : ∀ t t' : Terminal, f t = some t' → t'.cursor = t.cursor) :
    ∃ s', s.onTerm f = some s' ∧ Follows t s' := by
  obtain ⟨s', hrun, hs'⟩ := h.consistent.scrolled hf hcur
  obtain ⟨t', hf', rfl⟩ := Option.map_eq_some_iff.mp hrun
  refine ⟨_, hrun, hs', ?_, h.keys, h.line⟩
  have ha := h.aligned
  unfold Aligned at ha ⊢
  rw [← hcur _ _ hf'] at ha
  exact ha

theorem Follows.present (h : Follows t s) :
    ∃ s', s.onTerm returnToPresent = some s' ∧ s'.Present ∧ s'.input = s.input
      ∧ s'.keyboard = s.keyboard ∧ s'.Aligned := by
  obtain ⟨s', hrun, hp, hinput, hkeyboard, -⟩ := h.consistent.present
  refine ⟨s', hrun, hp, hinput, hkeyboard, ?_⟩
  obtain ⟨t', hreturn, rfl⟩ := Option.map_eq_some_iff.mp hrun
  have ha := h.aligned
  unfold Aligned at ha ⊢
  rw [← returnToPresent_cursor hreturn] at ha
  exact ha

theorem Follows.step (h : Follows t s) (hne : ¬ s.Enters sc) :
    ∃ s', terminalConsole exec sc s = some s' ∧ Follows (t.press sc) s'
      ∧ (t.press sc).entered = t.entered := by
  obtain ⟨h₂, hchar⟩ := h.hotKeys_twice sc
  unfold terminalConsole Typist.press
  rw [if_pos h.consistent.shown, Option.bind_some, handleScancode]
  split
  · rename_i hzero
    subst hzero
    rw [if_neg (by decide), Typist.charAt_zero, Typist.type_zero]
    exact ⟨_, rfl, h.hotKeys 0, rfl⟩
  split
  · rename_i hbreak
    rw [if_pos (Or.inl hbreak)]
    exact ⟨_, rfl, h₂, rfl⟩
  rename_i hmake
  unfold handleKey
  by_cases hdown : sc = 0x51 ∨ sc = 0x50
  · have hscroll : sc &&& 0x80 ≠ 0 ∨ sc = 0x51 ∨ sc = 0x50 ∨ sc = 0x49 ∨ sc = 0x48 := by tauto
    rw [if_pos hdown, if_pos hscroll]
    obtain ⟨s', hrun, hs'⟩ := h₂.scrolled (fun t hb => scrollDown_spec hb) fun t t' hr =>
      scrollDown_cursor hr
    exact ⟨s', hrun, hs', rfl⟩
  rw [if_neg hdown]
  by_cases hup : sc = 0x49 ∨ sc = 0x48
  · have hscroll : sc &&& 0x80 ≠ 0 ∨ sc = 0x51 ∨ sc = 0x50 ∨ sc = 0x49 ∨ sc = 0x48 := by tauto
    rw [if_pos hup, if_pos hscroll]
    obtain ⟨s', hrun, hs'⟩ := h₂.scrolled (fun t hb => scrollUp_spec hb) fun t t' hr =>
      scrollUp_cursor hr
    exact ⟨s', hrun, hs', rfl⟩
  have htypes : ¬ (sc &&& 0x80 ≠ 0 ∨ sc = 0x51 ∨ sc = 0x50 ∨ sc = 0x49 ∨ sc = 0x48) := by tauto
  rw [if_neg hup, if_neg htypes]
  split
  · rename_i hzero
    rw [← hchar, hzero, Typist.type_zero]
    exact ⟨_, rfl, h₂, rfl⟩
  · have hcr : ¬ (getChar ((s.hotKeys sc).hotKeys sc).keyboard sc = 10
        ∨ getChar ((s.hotKeys sc).hotKeys sc).keyboard sc = 13) := fun hcr =>
      hne ⟨Decidable.not_not.mp hmake, hdown, hup, hcr⟩
    obtain ⟨s₃, hrun, hp, hinput, hkeyboard, ha⟩ := h₂.present
    obtain ⟨s₄, hrest, hp₄, he, hentered⟩ := @handleChar_edits _ s₃ _ exec (t.hold sc) hp ha hcr
      (hinput.trans h₂.line)
    rw [← hchar]
    refine ⟨s₄, ?_, ⟨hp₄.consistent, he.aligned, ?_, he.input⟩, hentered⟩
    · rw [hrun, Option.bind_some, hrest]
    · rw [he.keyboard, hkeyboard]
      exact (h₂.keys).type

/-! ## The Enter key

The command has the screen for itself and gives it back at the present. -/

theorem resultMessage_line (result exitCode : Int) (cmdline : List UInt8) :
    ∃ l, resultMessage result exitCode cmdline = l ++ [10] := by
  unfold resultMessage
  split
  · exact ⟨_, rfl⟩
  split
  · exact ⟨_, rfl⟩
  · exact ⟨_, rfl⟩

theorem printPrompt_aligned (h : s.printPrompt = some s') (hcol : s.term.cursor % 80 = 0)
    (hlen : s.inputLen = 0) : s'.Aligned ∧ s'.keyboard = s.keyboard ∧ s'.inputLen = 0 := by
  obtain ⟨t₂, hrun, rfl⟩ := Option.map_eq_some_iff.mp h
  refine ⟨?_, rfl, hlen⟩
  rw [promptStr, List.foldlM_cons] at hrun
  obtain ⟨t₁, hput₁, hrun⟩ := Option.bind_eq_some_iff.mp hrun
  rw [List.foldlM_cons] at hrun
  obtain ⟨t₂', hput₂, hrun⟩ := Option.bind_eq_some_iff.mp hrun
  obtain rfl := Option.some.inj hrun
  obtain ⟨h₁, hfixed⟩ := putcharColor_next hput₁ (by decide)
  obtain ⟨h₂, -⟩ := putcharColor_next hput₂ (by decide)
  rw [hfixed] at h₂
  have hstart := s.term.fixedCursor_column
  show t₂'.cursor % 4 = (s.inputLen + 2) % 4
  omega

theorem Present.enter_runs (h : s.Present) (hx : exec.Keeps) :
    ∃ s', s.enter exec = some s' ∧ s'.Present ∧ s'.Aligned ∧ s'.keyboard = s.keyboard
      ∧ s'.inputLen = 0 := by
  obtain ⟨t₁, hput, hb₁, h0₁, -⟩ := putcharColor_spec h.holds.bounded h.holds.present 10 7 0
  have hcol₁ := putcharColor_newline hput
  have hfits : s.inputLen < inputBufSize := Nat.lt_of_le_of_lt h.len (by decide)
  -- what is left after the command, if there is one
  have hcommand : ∀ s₂ : Console ω, s₂.term = t₁ → ∃ m t₃,
      s₂.runCommand exec = some { s₂ with machine := m, term := t₃ }
        ∧ t₃.Bounded ∧ t₃.bottomCount = 0 ∧ t₃.cursor % 80 = 0 := by
    rintro s₂ rfl
    unfold runCommand
    split
    · obtain ⟨result, exitCode, m, t₂, hexec, hb₂, h0₂⟩ :=
        hx s₂.commandLine s₂.machine s₂.term hb₁ h0₁
      obtain ⟨l, hl⟩ := resultMessage_line result exitCode s₂.commandLine
      obtain ⟨t₃, hmessage, hkept⟩ := putchars_line l hb₂ h0₂
      refine ⟨m, t₃, ?_, hkept⟩
      rw [hexec, Option.bind_eq_bind, Option.bind_some]
      dsimp only
      rw [hl, hmessage]
      rfl
    · exact ⟨s₂.machine, s₂.term, rfl, hb₁, h0₁, hcol₁⟩
  unfold Console.enter
  rw [onTerm, putchar, hput, Option.map_some, Option.bind_eq_bind, Option.bind_some, storeInput,
    if_pos hfits, Option.bind_some]
  obtain ⟨m, t₃, hrun, hb₃, h0₃, hcol₃⟩ := hcommand { s with
    term := t₁, inputBuf := fun i => if i = s.inputLen then 0 else s.inputBuf i } rfl
  rw [hrun, Option.bind_some]
  obtain ⟨s', hprompt, hp⟩ := @printPrompt_spec ω { s with
    machine := m, term := t₃, inputBuf :=
      fun i => if i = s.inputLen then 0 else s.inputBuf i, inputLen := 0,
    promptShown := false } hb₃ h0₃ rfl
  obtain ⟨ha, hkeyboard, hlen⟩ := printPrompt_aligned hprompt hcol₃ rfl
  exact ⟨s', hprompt, hp, ha, hkeyboard, hlen⟩

theorem Follows.enter (h : Follows t s) (he : s.Enters sc) (hx : exec.Keeps) :
    ∃ s' ls, terminalConsole exec sc s = some s' ∧ Follows (t.press sc) s'
      ∧ (t.press sc).entered = t.entered ++ ls ∧ Trace exec.Runs s.machine ls s'.machine := by
  obtain ⟨s₃, hp, hinput, hmachine, hkeyboard, hrun⟩ := h.consistent.enter_eq he
  obtain ⟨s', henter, hp', ha, hsame, hzero⟩ := hp.enter_runs hx
  obtain ⟨h₂, hchar⟩ := h.hotKeys_twice sc
  have hruns := enter_machine hp.printable henter
  have hlen : s₃.inputLen = t.line.length := by rw [← h.line, ← hinput, length_input]
  rw [hlen, hinput, h.line, hmachine] at hruns
  obtain ⟨hmake, hdown, hup, hcr⟩ := he
  have hpress : t.press sc = { t.hold sc with
      line := [], entered := if t.line = [] then t.entered else t.entered ++ [t.line] } := by
    have htypes : ¬ (sc &&& 0x80 ≠ 0 ∨ sc = 0x51 ∨ sc = 0x50 ∨ sc = 0x49 ∨ sc = 0x48) := by tauto
    unfold Typist.press Typist.type
    rw [if_neg htypes, ← hchar, if_pos hcr]
    rfl
  rw [hrun, hpress]
  refine ⟨s', if t.line = [] then [] else [t.line], henter, ⟨hp'.consistent, ha, ?_, ?_⟩, ?_, ?_⟩
  · rw [hsame, hkeyboard]
    exact ⟨h₂.keys.left, h₂.keys.right, h₂.keys.index, h₂.keys.keyboard⟩
  · exact List.length_eq_zero_iff.mp (by rw [length_input, hzero])
  · dsimp only
    split
    · rw [List.append_nil]
    · rfl
  · split
    · rename_i hnil
      rw [if_neg (by rw [hnil]; exact Nat.lt_irrefl 0)] at hruns
      rw [hruns]
      exact .nil _
    · rename_i hline
      rw [if_pos (List.length_pos_iff.mpr hline)] at hruns
      exact .cons hruns (.nil _)

theorem Follows.step_any (h : Follows t s) (sc : UInt8) (hx : exec.Keeps) :
    ∃ s' ls, terminalConsole exec sc s = some s' ∧ Follows (t.press sc) s'
      ∧ (t.press sc).entered = t.entered ++ ls ∧ Trace exec.Runs s.machine ls s'.machine := by
  rcases em (s.Enters sc) with he | hne
  · exact h.enter he hx
  · obtain ⟨s', hrun, hf, hentered⟩ := h.step hne
    refine ⟨s', [], hrun, hf, by rw [hentered, List.append_nil], ?_⟩
    rw [terminalConsole_machine h.consistent.shown hne hrun]
    exact .nil _

/-! ## Sessions

The list of lines is compared with the calls that are made, which the
command parameter may write down. -/

/-- The calls of `terminal_console` for some scancodes. -/
def session (exec : Exec ω) (scs : List UInt8) (s : Console ω) : Option (Console ω) :=
  scs.foldlM (fun s sc => terminalConsole exec sc s) s

theorem session_cons {sc : UInt8} {scs : List UInt8} :
    session exec (sc :: scs) s = (terminalConsole exec sc s).bind (session exec scs) := rfl

theorem session_follows (h : Follows t s) (hx : exec.Keeps) (scs : List UInt8) :
    ∃ s' ls, session exec scs s = some s' ∧ Follows (t.presses scs) s'
      ∧ (t.presses scs).entered = t.entered ++ ls ∧ Trace exec.Runs s.machine ls s'.machine := by
  induction scs generalizing s t with
  | nil => exact ⟨s, [], rfl, h, (List.append_nil _).symm, .nil _⟩
  | cons sc scs ih =>
      obtain ⟨s₁, ls₁, hrun, hf, hentered, htrace⟩ := h.step_any sc hx
      obtain ⟨s₂, ls₂, hrest, hf₂, hentered₂, htrace₂⟩ := ih hf
      refine ⟨s₂, ls₁ ++ ls₂, ?_, hf₂, ?_, htrace.append htrace₂⟩
      · rw [session_cons, hrun, Option.bind_some, hrest]
      · exact hentered₂.trans (by rw [hentered, List.append_assoc])

theorem initialized_prompt (m : ω) : ∃ s, Follows .start s ∧ s.machine = m
    ∧ ∀ (exec : Exec ω) (scs : List UInt8), scs ≠ [] →
      session exec scs (initialized m) = session exec scs s := by
  have hb : (initialized m).term.Bounded := terminalInitialize_bounded blankTerminal
  have hcol : (terminalInitialize blankTerminal).cursor % 80 = 0 := by decide
  obtain ⟨s, hprompt, hp⟩ := @printPrompt_spec ω (initialized m) hb rfl rfl
  obtain ⟨ha, hkeyboard, hlen⟩ := printPrompt_aligned hprompt hcol rfl
  obtain ⟨t', hput, rfl⟩ := Option.map_eq_some_iff.mp hprompt
  refine ⟨_, ⟨hp.consistent, ha, ?_, List.length_eq_zero_iff.mp (by rw [length_input, hlen])⟩, rfl,
    ?_⟩
  · rw [hkeyboard]
    exact ⟨rfl, rfl, rfl, rfl⟩
  · intro exec scs hne
    obtain ⟨sc, scs, rfl⟩ := List.exists_cons_of_ne_nil hne
    have hhot : printPrompt ((initialized m).hotKeys sc) = some _ :=
      Option.map_eq_some_iff.mpr ⟨t', hput, rfl⟩
    rw [session_cons, session_cons]
    congr 1
    unfold terminalConsole
    have hnot : ¬ (initialized m).promptShown = true := Bool.false_ne_true
    rw [if_neg hnot, if_pos hp.shown, hhot]
    rfl

/-- From the start of the terminal and for any keys: every key is handled, what is in the input
buffer is the line that was typed, and the machine has gone through the lines entered, in order,
each once, and through nothing else. -/
theorem session_typed (hx : exec.Keeps) (m : ω) (scs : List UInt8) :
    ∃ s, session exec scs (initialized m) = some s
      ∧ s.input = (Typist.start.presses scs).line
      ∧ Trace exec.Runs m (Typist.start.presses scs).entered s.machine := by
  rcases em (scs = []) with rfl | hne
  · exact ⟨initialized m, rfl, rfl, .nil m⟩
  · obtain ⟨s₁, hf, rfl, hsame⟩ := initialized_prompt m
    obtain ⟨s, ls, hrun, hf', hentered, htrace⟩ := session_follows hf hx scs
    have hls : (Typist.start.presses scs).entered = ls := hentered
    rw [hls]
    exact ⟨s, (hsame exec scs hne).trans hrun, hf'.line, htrace⟩

theorem logExec_trace {m m' ls : List (List UInt8)} (h : Trace logExec.Runs m ls m') :
    m' = m ++ ls := by
  induction h with
  | nil => exact (List.append_nil _).symm
  | cons hs _ ih =>
      obtain ⟨t, result, exitCode, t', hrun⟩ := hs
      cases hrun
      rw [ih, List.append_assoc]
      rfl

/-- Shift and `a`, a tab, a backspace, and the Enter key. -/
theorem session_typed_shift :
    ∃ s, session logExec [0x2A, 0x1E, 0xAA, 0x0F, 0x0E, 0x1C] (initialized []) = some s
      ∧ s.input = [] ∧ s.machine = [[65]] := by
  have hx : logExec.Keeps := fun l m t hb h0 => ⟨0, 0, m ++ [l], t, rfl, hb, h0⟩
  obtain ⟨s, hrun, hinput, htrace⟩ := session_typed hx [] [0x2A, 0x1E, 0xAA, 0x0F, 0x0E, 0x1C]
  exact ⟨s, hrun, hinput, logExec_trace htrace⟩

end Console

end IpoOs
