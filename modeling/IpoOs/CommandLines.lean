import IpoOs.FsNames
import IpoOs.Loader
import IpoOs.Splitting

/-!
# Command lines and their words

What `try_execute_command` makes of a line and `autorun_init` of a file,
when the allocator never refuses. Each is the plain split of its text as
long as the text fits the buffer it is cut in: 127 characters of the first
word of a line, and 511 characters of a line of the file. What does not
fit is not dropped: it becomes the next word, or the next command.

The exact bounds are part of the results: a line is executed as its words if
and only if its first word fits, and a file as its lines if and only if
every line that is executed fits. The text that is loaded is that of the
file `/autorun`, read through the file system of the model.
-/

namespace IpoOs

/-! ## Words

The pieces between blanks, empty ones left out. -/

/-- The words of a line: what stands between spaces and tabs. -/
def words (line : Str) : List Str := (line.splitOnP isBlank).filter (· ≠ [])

section

variable {t rest : Str}

theorem words_append (ht : ∀ a ∈ t, isBlank a = false) (hr : StartsAt isBlank rest) :
    words (t ++ rest) = [t].filter (· ≠ []) ++ words (rest.drop 1) :=
  filter_splitOnP (by simp) ht hr

theorem words_nil : words [] = [] := by
  simp [words, List.splitOnP_nil]

theorem words_blank {a : UInt8} (ha : isBlank a = true) : words (a :: rest) = words rest :=
  words_append (t := []) (fun _ hb => absurd hb List.not_mem_nil) (StartsAt.cons ha)

theorem words_skipBlanks (s : Str) : words (skipBlanks s) = words s := by
  induction s with
  | nil => rfl
  | cons a s ih =>
      unfold skipBlanks at ih ⊢
      cases ha : isBlank a with
      | true => rw [List.dropWhile_cons_of_pos ha, ih, words_blank ha]
      | false => rw [List.dropWhile_cons_of_neg (by simp [ha])]

theorem words_word (ht : ∀ a ∈ t, isBlank a = false) (hne : t ≠ []) (hr : StartsAt isBlank rest) :
    words (t ++ rest) = t :: words rest := by
  have hrest : words rest = words (rest.drop 1) := by
    cases rest with
    | nil => rfl
    | cons a r => exact words_blank (hr a rfl)
  rw [words_append ht hr, hrest]
  simp [hne]

end

/-! ## The arguments of a command

The argument loop makes words of the rest of the line, up to 31 in all with
the command itself. -/

/-- What the end of an argument adds to `argv`. -/
def endWord (arg : Str) : List Str := if arg = [] then [] else [arg]

/-- The argument loop of `try_execute_command`, when every copy is made: `n` arguments come before,
and `arg` is what `arg_buf` holds. -/
def lineArguments : (cmdline : Str) → (n : Nat) → (arg : Str) → List Str
  | [], _, arg => endWord arg
  | c :: cmdline, n, arg =>
      if n + 1 < 31 then
        if isBlank c then endWord arg ++ lineArguments cmdline (n + (endWord arg).length) []
        else lineArguments cmdline n (if arg.length < 511 then arg ++ [c] else arg)
      else endWord arg

/-- `argv` of `try_execute_command`. -/
def commandArgv (line : Str) : List Str :=
  let cmdline := skipBlanks line
  let name := (cmdline.takeWhile fun c => ¬ isBlank c).take 127
  name :: lineArguments (skipBlanks (cmdline.drop name.length)) 0 []

section

variable {σ : Type} (m : Machine σ)

/-- The copies of arguments, one after the other. -/
def copyWords : List Str → List (Nat × Str) → Prog (System σ) (List (Nat × Str))
  | [], acc => pure acc
  | w :: ws, acc => do
      let argCopy ← kmallocCall m (w.length + 1)
      copyWords ws (acc ++ [(argCopy, w)])

/-- The launch of a command: its first word is resolved, and the program in that file is executed
with all words as its arguments. -/
def launchWords (argv : List Str) : Prog (System σ) Int := do
  match ← resolveCommandPath m (argv.headD []) with
  | none => pure 0
  | some (pathPtr, path) => do
      let copies ← copyWords m argv.tail []
      let result ← processExec m (some (CString.ofStr path)) argv.length (some fun i => argv[i]?)
      freeCopies copies
      kfreeCall pathPtr
      pure result

def runCommands : List Str → Prog (System σ) Unit
  | [] => pure ()
  | line :: lines => do
      let _ ← tryExecuteCommand m line
      runCommands lines

variable {m}

theorem kmallocCall_ok (hm : ∀ n, m.mallocOk n = true) (size : Nat) (s : System σ) :
    (kmallocCall m size s).1 ≠ 0 := by
  unfold kmallocCall
  rw [if_pos (hm _)]
  exact Nat.succ_ne_zero _

theorem copyWords_words (ws : List Str) (acc : List (Nat × Str)) (s : System σ) :
    (copyWords m ws acc s).1.map Prod.snd = acc.map Prod.snd ++ ws := by
  induction ws generalizing acc s with
  | nil => exact (List.append_nil _).symm
  | cons w ws ih =>
      unfold copyWords
      rw [Prog.run_bind, ih, List.map_append, List.map_singleton, List.append_assoc,
        List.singleton_append]

theorem endArgument_eq (hm : ∀ n, m.mallocOk n = true) (argv : List (Nat × Str)) (arg : Str) :
    endArgument m argv arg = copyWords m (endWord arg) argv := by
  funext s
  unfold endArgument endWord
  rcases em (arg = []) with hnil | hne
  · rw [if_pos hnil, if_pos hnil]
    rfl
  · rw [if_neg hne, if_neg hne, Prog.run_bind, Prog.run_ite, if_neg (kmallocCall_ok hm _ s)]
    rfl

theorem copyWords_append (ws ws' : List Str) (acc : List (Nat × Str)) :
    copyWords m (ws ++ ws') acc = copyWords m ws acc >>= copyWords m ws' := by
  induction ws generalizing acc with
  | nil => rfl
  | cons w ws ih =>
      funext s
      rw [List.cons_append]
      unfold copyWords
      rw [Prog.run_bind, ih]
      rfl

theorem parseArguments_eq (hm : ∀ n, m.mallocOk n = true) (cmdline : Str) (argv : List (Nat × Str))
    (arg : Str) :
    parseArguments m cmdline argv arg
        = copyWords m (lineArguments cmdline argv.length arg) argv := by
  induction cmdline generalizing argv arg with
  | nil => exact endArgument_eq hm argv arg
  | cons c cmdline ih =>
      unfold parseArguments lineArguments
      split
      · split
        · rw [copyWords_append, endArgument_eq hm]
          funext s
          have hlen : (copyWords m (endWord arg) argv s).1.length
              = argv.length + (endWord arg).length := by
            have h := congrArg List.length (@copyWords_words σ m (endWord arg) argv s)
            rwa [List.length_map, List.length_append, List.length_map] at h
          rw [Prog.run_bind, Prog.run_bind, ih, hlen]
        · exact ih _ _
      · exact endArgument_eq hm argv arg

theorem tryExecuteCommand_eq (hm : ∀ n, m.mallocOk n = true) {line : Str} (hne : words line ≠ []) :
    tryExecuteCommand m line = launchWords m (commandArgv line) := by
  have hskip : skipBlanks line ≠ [] := fun hnil => hne (by rw [← words_skipBlanks, hnil, words_nil])
  funext s
  unfold tryExecuteCommand launchWords commandArgv
  simp only [if_neg hskip, List.headD_cons, List.tail_cons, List.length_cons]
  refine congrFun (congrArg (Bind.bind _) (funext fun r => ?_)) s
  rcases r with _ | ⟨pathPtr, path⟩
  · rfl
  dsimp only
  rw [parseArguments_eq hm]
  funext s
  have hmap := @copyWords_words σ m (lineArguments (skipBlanks ((skipBlanks line).drop
    ((List.takeWhile (fun c => ¬ isBlank c) (skipBlanks line)).take 127).length)) 0 []) [] s
  have hlen := congrArg List.length hmap
  rw [List.map_nil, List.nil_append] at hmap hlen
  rw [List.length_map] at hlen
  rw [Prog.run_bind, Prog.run_bind, List.length_nil, hmap, hlen]
  rfl

end

/-- The argument loop cuts the rest of the line into words, up to the limit. -/
theorem lineArguments_words (cmdline : Str) (n : Nat) {arg : Str}
    (harg : ∀ a ∈ arg, isBlank a = false)
    (hroom : arg ≠ [] → n < 30) (hlen : arg.length + cmdline.length ≤ 511) :
    lineArguments cmdline n arg = (words (arg ++ cmdline)).take (30 - n) := by
  have hend : [arg].filter (· ≠ []) = endWord arg := by
    unfold endWord
    rcases em (arg = []) with hnil | hne
    · rw [if_pos hnil]
      simp [hnil]
    · rw [if_neg hne]
      simp [hne]
  have hfew : (endWord arg).length ≤ 30 - n := by
    unfold endWord
    split
    · exact Nat.zero_le _
    · rename_i hne
      have hn := hroom hne
      rw [List.length_singleton]
      omega
  induction cmdline generalizing n arg with
  | nil =>
      rw [words_append harg StartsAt.nil, hend, List.drop_nil, words_nil, List.append_nil,
        List.take_of_length_le hfew]
      rfl
  | cons c cmdline ih =>
      unfold lineArguments
      rw [List.length_cons] at hlen
      split
      · rename_i hn
        split
        · rename_i hc
          have hnil : ∀ a ∈ ([] : Str), isBlank a = false := fun a ha => absurd ha List.not_mem_nil
          rw [words_append harg (StartsAt.cons hc), hend, List.drop_one, List.tail_cons,
            List.take_append, List.take_of_length_le hfew, Nat.sub_sub,
            ih (n + (endWord arg).length) hnil (fun h => absurd rfl h)
              (by rw [List.length_nil]; omega) rfl (Nat.zero_le _), List.nil_append]
        · rename_i hc
          have hblank : isBlank c = false := Bool.eq_false_iff.mpr hc
          have harg' : ∀ a ∈ arg ++ [c], isBlank a = false := by
            intro a ha
            rcases List.mem_append.mp ha with ha | ha
            · exact harg a ha
            · exact List.mem_singleton.mp ha ▸ hblank
          have hne : arg ++ [c] ≠ [] := List.append_ne_nil_of_right_ne_nil _ (List.cons_ne_nil _ _)
          rw [if_pos (by omega), ih n harg' (fun _ => by omega)
            (by rw [List.length_append, List.length_singleton]; omega)
            (by unfold endWord; rw [if_neg hne]; simp [hne])
            (by unfold endWord; rw [if_neg hne, List.length_singleton]; omega),
            List.append_assoc, List.singleton_append]
      · rename_i hn
        have hnil : arg = [] := by
          by_contra hne
          exact hn (Nat.succ_lt_succ (hroom hne))
        rw [show 30 - n = 0 by omega, List.take_zero, hnil]
        rfl

/-- The words of a line are its arguments exactly when the first one fits its buffer. -/
theorem commandArgv_words {line : Str} (hlen : line.length ≤ 511) (hne : words line ≠ []) :
    commandArgv line = (words line).take 31 ↔ ((words line).headD []).length ≤ 127 := by
  have hcut := List.takeWhile_append_dropWhile (p := fun c => !isBlank c) (l := skipBlanks line)
  have hword : ∀ a ∈ (skipBlanks line).takeWhile fun c => !isBlank c, isBlank a = false :=
    fun a ha => by
    simpa using List.mem_takeWhile_imp ha
  have hstart : StartsAt isBlank ((skipBlanks line).dropWhile fun c => !isBlank c) := by
    have h := @startsAt_dropWhile UInt8 (fun c => !isBlank c) (skipBlanks line)
    simpa only [Bool.not_not] using h
  have hskip : skipBlanks line ≠ [] := fun hnil => hne (by rw [← words_skipBlanks, hnil, words_nil])
  have hlen' : (skipBlanks line).length ≤ 511 :=
    Nat.le_trans (List.dropWhile_sublist _).length_le hlen
  have htne : (skipBlanks line).takeWhile (fun c => !isBlank c) ≠ [] := by
    intro hnil
    obtain ⟨a, r, hr⟩ := List.exists_cons_of_ne_nil hskip
    have ha := startsAt_dropWhile (p := isBlank) (s := line) a (by
      rw [show line.dropWhile isBlank = a :: r from hr]
      rfl)
    rw [hr, List.takeWhile_cons_of_pos (p := fun c => !isBlank c) ha] at hnil
    cases hnil
  unfold commandArgv
  simp only [Bool.decide_eq_true, decide_not, ← words_skipBlanks line]
  generalize hc : skipBlanks line = c at *
  generalize c.takeWhile (fun c => !isBlank c) = t at *
  generalize c.dropWhile (fun c => !isBlank c) = rest at *
  subst hcut
  rw [words_word hword htne hstart, List.headD_cons, List.take_succ_cons]
  constructor
  · intro heq
    rw [← (List.cons.inj heq).1, List.length_take]
    exact Nat.min_le_left _ _
  · intro hshort
    rw [List.length_append] at hlen'
    have hrest : (skipBlanks rest).length ≤ rest.length := (List.dropWhile_sublist _).length_le
    rw [List.take_of_length_le hshort, List.drop_left,
      lineArguments_words _ _ (fun a ha => absurd ha List.not_mem_nil) (fun h => absurd rfl h)
        (by rw [List.length_nil]; omega), List.nil_append, words_skipBlanks]

/-- With an allocator that never refuses, a line of at most 511 characters with a word in it
launches its first word with its first 31 words as arguments, exactly when the first one has at
most 127 characters. -/
theorem tryExecuteCommand_words {line : Str} (hlen : line.length ≤ 511) (hne : words line ≠ []) :
    (∀ {σ : Type} (m : Machine σ), (∀ n, m.mallocOk n = true) →
      tryExecuteCommand m line = launchWords m (commandArgv line))
    ∧ (commandArgv line = (words line).take 31 ↔ ((words line).headD []).length ≤ 127) :=
  ⟨fun _ hm => tryExecuteCommand_eq hm hne, commandArgv_words hlen hne⟩

/-- The line `/a b`. -/
def shortLine : Str := [47, 97, 32, 98]

theorem tryExecuteCommand_words_short :
    (∀ {σ : Type} (m : Machine σ), (∀ n, m.mallocOk n = true) →
      tryExecuteCommand m shortLine = launchWords m (commandArgv shortLine))
    ∧ (commandArgv shortLine = (words shortLine).take 31
      ↔ ((words shortLine).headD []).length ≤ 127) :=
  tryExecuteCommand_words (by decide) (by decide)

/-- 120 slashes and `autorunx`. -/
def longWordLine : Str := List.replicate 120 slash ++ autorunName ++ [120]

/-- The first 127 characters of a word of 128 are executed, although the word names no file. -/
theorem tryExecuteCommand_cuts :
    longWordLine.length ≤ 511 ∧ words longWordLine = [longWordLine]
    ∧ (launchWords idleMachine ((words longWordLine).take 31) mountedSystem).1 = 0
    ∧ commandArgv longWordLine = [List.replicate 120 slash ++ autorunName, [120]]
    ∧ (tryExecuteCommand idleMachine longWordLine mountedSystem).1 ≠ 0 := by
  decide +kernel

/-! ## The lines of the autorun file

The loop over the text executes a list of strings, which is the list of its
lines when they fit. -/

/-- A line that is executed is not empty and no comment. -/
def isCommand (line : Str) : Bool := line ≠ [] ∧ line.head? ≠ some 35

/-- The lines of a text without the blanks in front, less empty ones and comments. -/
def textCommands (text : Str) : List Str := ((text.splitOn 10).map skipBlanks).filter isCommand

/-- The autorun loop executes the lines it finds, one after the other. -/
theorem autorunLines_eq {σ : Type} (m : Machine σ) (n : Nat) (ptr : Str) :
    autorunLines m n ptr = runCommands m (commandLines n ptr) := by
  induction n generalizing ptr with
  | zero => rfl
  | succ n ih =>
      unfold autorunLines commandLines
      simp only
      split
      · rfl
      split
      · exact ih _
      split
      · exact ih _
      · rw [ih]
        rfl

theorem commandLines_short (n : Nat) (ptr : Str) : ∀ l ∈ commandLines n ptr, l.length ≤ 511 := by
  induction n generalizing ptr with
  | zero => exact fun l hl => absurd hl List.not_mem_nil
  | succ n ih =>
      unfold commandLines
      simp only
      split
      · exact fun l hl => absurd hl List.not_mem_nil
      split
      · exact ih _
      split
      · exact ih _
      · intro l hl
        rcases List.mem_cons.mp hl with rfl | hl
        · unfold fullLine
          rw [List.length_take]
          exact Nat.min_le_left _ _
        · exact ih _ l hl

section

variable {t rest : Str}

theorem textCommands_append (ht : (10 : UInt8) ∉ t) (hr : StartsAt (· == 10) rest) :
    textCommands (t ++ rest) = [skipBlanks t].filter isCommand ++ textCommands (rest.drop 1) := by
  have hline : ∀ a ∈ t, (a == (10 : UInt8)) = false := fun a ha =>
    beq_eq_false_iff_ne.mpr fun hc => ht (hc ▸ ha)
  have hsplit := filter_splitOnP (q := fun l => isCommand (skipBlanks l)) rfl hline hr
  have hcomp : ∀ ls : List Str, (ls.map skipBlanks).filter isCommand
      = (ls.filter fun l => isCommand (skipBlanks l)).map skipBlanks := fun ls => List.filter_map
  unfold textCommands
  rw [List.splitOn_eq_splitOnP, hcomp, hsplit, List.map_append, ← hcomp, ← hcomp,
    List.map_singleton, List.splitOn_eq_splitOnP]

/-- Blanks in front of a line are skipped up to the end of the line. -/
theorem skipBlanks_append (hr : StartsAt (· == 10) rest) :
    skipBlanks (t ++ rest) = skipBlanks t ++ rest := by
  have hrest : skipBlanks rest = rest := by
    cases rest with
    | nil => rfl
    | cons a r =>
        obtain rfl : a = 10 := by simpa using hr a rfl
        rfl
  induction t with
  | nil => exact hrest
  | cons a t ih =>
      unfold skipBlanks at ih ⊢
      cases ha : isBlank a with
      | true =>
          rw [List.cons_append, List.dropWhile_cons_of_pos ha, List.dropWhile_cons_of_pos ha, ih]
      | false =>
          rw [List.cons_append, List.dropWhile_cons_of_neg (by simp [ha]),
            List.dropWhile_cons_of_neg (by simp [ha]), List.cons_append]

end

theorem commandLines_text (n : Nat) {ptr : Str} (hn : ptr.length < n)
    (hshort : ∀ l ∈ textCommands ptr, l.length ≤ 511) : commandLines n ptr = textCommands ptr := by
  induction n generalizing ptr with
  | zero => exact absurd hn (Nat.not_lt_zero _)
  | succ n ih =>
      have hcut :=
        List.takeWhile_append_dropWhile (p := fun a : UInt8 => decide (a ≠ 10)) (l := ptr)
      have hline : (10 : UInt8) ∉ ptr.takeWhile (· ≠ 10) := fun hm => by
        simpa using List.mem_takeWhile_imp hm
      have hstart : StartsAt (· == 10) (ptr.dropWhile (· ≠ 10)) := by
        intro a ha
        have h := startsAt_dropWhile a ha
        simpa using h
      generalize ptr.takeWhile (· ≠ 10) = t at *
      generalize ptr.dropWhile (· ≠ 10) = rest at *
      subst hcut
      have hskip : (skipBlanks t).length ≤ t.length := (List.dropWhile_sublist _).length_le
      have hkeep : (10 : UInt8) ∉ skipBlanks t := fun hm => hline (List.dropWhile_subset _ hm)
      rw [List.length_append] at hn
      rw [textCommands_append hline hstart] at hshort ⊢
      unfold commandLines
      simp only [skipBlanks_append hstart]
      generalize skipBlanks t = l at *
      have hscan := @scan_append _ (fun a : UInt8 => decide (a ≠ 10)) l rest
        (fun a ha => by
          have hne : a ≠ 10 := fun hc => hkeep (hc ▸ ha)
          simpa using hne)
        (fun a ha => by simpa using hstart a ha)
      -- the rest of the text comes after the newline
      have hrest : rest ≠ [] ∨ l ≠ [] →
          commandLines n (rest.drop 1) = textCommands (rest.drop 1) := by
        intro hne
        refine ih ?_ fun x hx => hshort x (List.mem_append_right _ hx)
        rw [List.length_drop]
        rcases hne with hne | hne
        · have hpos := List.length_pos_of_ne_nil hne
          omega
        · have hpos := List.length_pos_of_ne_nil hne
          omega
      cases l with
      | nil =>
          cases rest with
          | nil => rfl
          | cons a r =>
              obtain rfl : a = 10 := by simpa using hstart a rfl
              exact hrest (Or.inl (List.cons_ne_nil _ _))
      | cons a l =>
          have hgo := hrest (Or.inr (List.cons_ne_nil _ _))
          rw [List.cons_append, if_neg (List.cons_ne_nil _ _), List.head?_cons]
          rcases em (a = 35) with rfl | hcomment
          · rw [if_pos rfl]
            unfold skipLine
            rw [← List.cons_append, hscan.2, hgo]
            rfl
          have hne : ¬ some a = some 10 := fun hc =>
            hkeep (Option.some.inj hc ▸ List.mem_cons_self)
          rw [if_neg fun hc => hcomment (Option.some.inj hc), if_neg hne]
          have hcommand : [a :: l].filter isCommand = [a :: l] := by
            simp [isCommand, hcomment]
          rw [hcommand] at hshort ⊢
          have hfull : fullLine (a :: (l ++ rest)) = a :: l := by
            unfold fullLine
            rw [← List.cons_append, hscan.1, List.take_of_length_le]
            exact hshort _ (List.mem_append_left _ (List.mem_singleton.mpr rfl))
          have hnext : skipNewline rest = rest.drop 1 := by
            unfold skipNewline
            cases rest with
            | nil => rfl
            | cons b r =>
                obtain rfl : b = 10 := by simpa using hstart b rfl
                rfl
          rw [hfull, ← List.cons_append, List.drop_left, hnext, hgo, List.singleton_append]

/-! ## What is loaded

The bytes of the file up to a NUL, all of them or nothing. -/

/-- The text of the autorun file: its bytes, all of them in blocks that are mapped, up to a NUL. -/
def Kernel.AutorunText (u : Block) (k : Kernel Disk) (text : Str) : Prop :=
  ∃ ino, k.FileAt u autorunPath ino ∧ (k.disk.inodeAt k.sb ino).isDir = false
    ∧ ∃ bytes : Buf, (∀ i, i < (k.disk.inodeAt k.sb ino).size.toNat →
        k.disk.mappedByte (k.disk.inodeAt k.sb ino) i = some (bytes i))
      ∧ text = ((List.range (k.disk.inodeAt k.sb ino).size.toNat).map bytes).takeWhile (· ≠ 0)

theorem onFs_of {σ α : Type} {x : Prog (Kernel σ) α} {s : System σ} {a : α} {k : Kernel σ}
    (h : x s.fs = (a, k)) : onFs x s = (a, { s with fs := k }) := by
  unfold onFs
  rw [h]

theorem kmallocCall_fs {σ : Type} (m : Machine σ) (n : Nat) (s : System σ) :
    (kmallocCall m n s).2.fs = s.fs := by
  unfold kmallocCall
  split <;> rfl

section
variable {u : Block} {m : Machine Disk} {s : System Disk} {ino : Nat}

/-- What a read of a whole file returns, when it returns all of it. -/
theorem readFile_all {sb : Superblock} {d : Disk} (hv : sb.ValidIno ino) (buffer : Buf)
    (hsmall : (d.inodeAt sb ino).size.toNat ≤ 10485760)
    (hall : (readFile ino buffer (d.inodeAt sb ino).size.toNat 0 (arrayDev u) sb d).1.1.any
      ((d.inodeAt sb ino).size.toNat ≤ ·) = true) :
    ∀ i, i < (d.inodeAt sb ino).size.toNat → d.mappedByte (d.inodeAt sb ino) i
      = some ((readFile ino buffer (d.inodeAt sb ino).size.toNat 0 (arrayDev u) sb d).1.2 i) := by
  intro i hi
  obtain ⟨count, out, hrun, hcount, hbytes, -⟩ := @readFile_chunk u sb d ino hv buffer 0
    (d.inodeAt sb ino).size.toNat (by omega) (by omega) (by omega)
  rw [hrun] at hall ⊢
  have hfull : (d.inodeAt sb ino).size.toNat ≤ count := by simpa using hall
  have hbyte := hbytes i (by omega)
  rwa [Nat.zero_add] at hbyte

theorem loadAutorun_text (hdev : m.dev = diskDev u) {buf : Nat} {text : Str}
    (hload : (loadAutorun m s).1 = some (buf, text)) : s.fs.AutorunText u text := by
  rcases em (∃ ino, s.fs.FileAt u autorunPath ino) with ⟨ino, hfile⟩ | hno
  · have hstat := onFs_of (statPath_of_fileAt hfile)
    unfold loadAutorun at hload
    rw [Prog.run_bind, hdev, hstat] at hload
    dsimp only at hload
    split at hload
    · cases hload
    rename_i hdir
    split at hload
    · cases hload
    rename_i hsmall
    rw [Prog.run_bind] at hload
    have hfs : (kmallocCall m ((s.fs.disk.inodeAt s.fs.sb ino).size.toNat + 1) s).2.fs = s.fs :=
      kmallocCall_fs m _ s
    generalize kmallocCall m ((s.fs.disk.inodeAt s.fs.sb ino).size.toNat + 1) s = r at hload hfs
    obtain ⟨b, s₁⟩ := r
    dsimp only at hload hfs
    split at hload
    · cases hload
    rw [Prog.run_bind] at hload
    rcases @ipoFsOpen_run u s₁.fs autorunPath with hopen | ⟨ino', fd, -, htarget, -, hopen⟩
    · rw [onFs_of hopen] at hload
      cases hload
    rw [onFs_of hopen] at hload
    dsimp only at hload
    have hino : ino' = ino := by
      have hres := (openTarget_some htarget).2.2
      rw [hfs, hfile.2.1] at hres
      exact (Option.some.inj hres).symm
    subst hino
    rw [Prog.run_bind] at hload
    rcases ipoFsRead_run u (s₁.fs.opened fd ino') fd m.fresh (s.fs.disk.inodeAt s.fs.sb ino').size 0
      with ⟨-, hread⟩ | ⟨-, hread⟩
    · have hname : ((s₁.fs.opened fd ino').fds ((fd : Int).toNat)).inode = ino' := by
        show (if fd = fd then (⟨true, ino', 0⟩ : Fd) else _).inode = ino'
        rw [if_pos rfl]
      have hsb : (s₁.fs.opened fd ino').sb = s.fs.sb := by rw [← hfs]; rfl
      have hdisk : (s₁.fs.opened fd ino').disk = s.fs.disk := by rw [← hfs]; rfl
      have hzero : (0 : UInt32).toNat = 0 := rfl
      rw [hname, hsb, hdisk, hzero] at hread
      rw [onFs_of hread] at hload
      dsimp only at hload
      split at hload
      · rename_i hall
        have heq := (Prod.mk.inj (Option.some.inj hload)).2
        refine ⟨ino', hfile, Bool.eq_false_iff.mpr hdir, _,
          readFile_all hfile.2.2 m.fresh (Nat.not_lt.mp hsmall) hall, heq.symm⟩
      · cases hload
    · rw [onFs_of hread] at hload
      cases hload
  · have hstat := onFs_of (statPath_of_none fun ino h => hno ⟨ino, h⟩)
    unfold loadAutorun at hload
    rw [Prog.run_bind, hdev, hstat] at hload
    cases hload
end

theorem autorunInit_run {σ : Type} {m : Machine σ} {s : System σ} {buf : Nat} {text : Str}
    (hload : (loadAutorun m s).1 = some (buf, text)) :
    autorunInit m s = (do
      runCommands m (commandLines (text.length + 1) text)
      kfreeCall buf : Prog (System σ) Unit) (loadAutorun m s).2 := by
  unfold autorunInit
  rw [Prog.run_bind, hload, ← autorunLines_eq]
  rfl

/-- What `autorun_init` loaded is executed line by line, in the order of the text and less blanks
in front, empty lines and comments, exactly when no line to be executed is longer than its
buffer. On a volume it is the text of `/autorun` that is loaded. -/
theorem autorunInit_lines (text : Str) :
    (∀ {σ : Type} (m : Machine σ) (s : System σ) (buf : Nat),
      (loadAutorun m s).1 = some (buf, text) →
      autorunInit m s = (do
        runCommands m (commandLines (text.length + 1) text)
        kfreeCall buf : Prog (System σ) Unit) (loadAutorun m s).2)
    ∧ (commandLines (text.length + 1) text = textCommands text
      ↔ ∀ l ∈ textCommands text, l.length ≤ 511)
    ∧ ∀ (u : Block) (m : Machine Disk) (s : System Disk) (buf : Nat), m.dev = diskDev u →
      (loadAutorun m s).1 = some (buf, text) → s.fs.AutorunText u text := by
  refine ⟨fun m s buf hload => autorunInit_run hload,
    ⟨fun heq l hl => ?_, commandLines_text _ (Nat.lt_succ_self _)⟩,
    fun u m s buf hdev hload => loadAutorun_text hdev hload⟩
  exact commandLines_short _ _ l (heq ▸ hl)

/-- The mounted volume with `/autorun` written. -/
def autorunSystem (text : Buf) (size : UInt32) : System Disk :=
  { mountedSystem with fs := (ipoFsWrite (diskDev Buf.zero) 0 text size 0 openedKernel).2 }

/-- `/x`, a comment, and `y` after a blank. -/
def threeLines : Str := [47, 120, 10, 35, 99, 10, 32, 121]

/-- The volume with these lines in `/autorun`. -/
def threeSystem : System Disk := autorunSystem (fun i => threeLines.getD i 0) 8

/-- Two of the lines are executed. -/
theorem autorunInit_lines_three :
    autorunInit idleMachine threeSystem = (do
      runCommands idleMachine [[47, 120], [121]]
      kfreeCall 1 : Prog (System Disk) Unit) (loadAutorun idleMachine threeSystem).2
    ∧ threeSystem.fs.AutorunText Buf.zero threeLines := by
  have hload : (loadAutorun idleMachine threeSystem).1 = some (1, threeLines) := by
    decide +kernel
  have hlines : commandLines (threeLines.length + 1) threeLines = [[47, 120], [121]] := by
    decide +kernel
  obtain ⟨hrun, -, htext⟩ := autorunInit_lines threeLines
  refine ⟨?_, htext Buf.zero idleMachine _ 1 rfl hload⟩
  rw [hrun idleMachine _ 1 hload, hlines]

def longLine : Str := List.replicate 512 97

/-- The volume with this line in `/autorun`. -/
def longSystem : System Disk := autorunSystem (fun _ => 97) 512

/-- A line of 512 characters is executed as two commands: more is allocated than by the one. -/
theorem autorunInit_cuts :
    (loadAutorun idleMachine longSystem).1 = some (1, longLine)
    ∧ textCommands longLine = [longLine]
    ∧ autorunInit idleMachine longSystem = (do
        runCommands idleMachine [List.replicate 511 97, [97]]
        kfreeCall 1 : Prog (System Disk) Unit) (loadAutorun idleMachine longSystem).2
    ∧ (autorunInit idleMachine longSystem).2.log
      ≠ ((do
        runCommands idleMachine (textCommands longLine)
        kfreeCall 1 : Prog (System Disk) Unit)
          (loadAutorun idleMachine longSystem).2).2.log := by
  have hload : (loadAutorun idleMachine longSystem).1 = some (1, longLine) := by
    decide +kernel
  have hlines : commandLines (longLine.length + 1) longLine = [List.replicate 511 97, [97]] := by
    decide +kernel
  have hrun := autorunInit_run hload
  rw [hlines] at hrun
  exact ⟨hload, by decide +kernel, hrun, by decide +kernel⟩

end IpoOs
