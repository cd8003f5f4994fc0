import IpoOs.Itoa

/-!
# Formatted output

`snprintf`, `printf` and `serial_printf` walk a format in the same way and
render its conversions each with code of its own. A variable argument list
is the words of the stack from the first argument on, one for an `int`, a
`long` or a pointer and two for a `long long`; a format and a string are
the characters before their NUL.

What `snprintf` stores is the start of a text that does not depend on the
size of the buffer, as long as the room left fits an `int`.

The three functions share the walk over the format (`nextItem`), which is
read off the source once. Their renderings are separate definitions, since
the source has them three times and they differ.

The text of `snprintf` is proved to be a prefix of a text that is defined
without a buffer, `snprintfFull`, by an induction over the rounds of the
loop; two sizes are then compared through that text.
-/

namespace IpoOs

/-! ## Formats and arguments

An item is a character or a conversion with its width of argument. A `%` at
the end of a format is an item of its own. -/

/-- The words of an argument list. -/
abbrev VaList := Nat → UInt32

/-- The arguments after the first `n` words. -/
def VaList.drop (va : VaList) (n : Nat) : VaList := fun i => va (i + n)

/-- The string at every address. -/
abbrev Strings := UInt32 → List UInt8

/-- What one round of a format loop handles. -/
inductive Item where
  | literal (c : UInt8)
  | conv (isLong : Bool) (c : UInt8)

/-- The `l` or `ll` before a conversion. -/
def lengthModifier (fmt : List UInt8) : Bool × List UInt8 :=
  if fmt.take 2 = [108, 108] then (true, fmt.drop 2)
  else if fmt.take 1 = [108] then (true, fmt.drop 1)
  else (false, fmt)

/-- The head of a format and the rest; none at its end, which may also come after the length
modifier. A `%` that ends the format is a literal. -/
def nextItem : List UInt8 → Option (Item × List UInt8)
  | [] => none
  | c :: rest =>
      if c = 37 ∧ rest ≠ [] then
        match (lengthModifier rest).2 with
        | [] => none
        | k :: rest' => some (.conv (lengthModifier rest).1 k, rest')
      else some (.literal c, rest)

/-- The characters `itoa` leaves in a local buffer. -/
def itoaText (num : UInt32) (base : Nat) : List UInt8 :=
  (List.range (itoa num Buf.zero base).1).map (itoa num Buf.zero base).2

/-- The characters `itoa64` leaves in a local buffer. -/
def itoa64Text (num : UInt64) (base : Nat) : List UInt8 :=
  (List.range (itoa64 num Buf.zero base).1).map (itoa64 num Buf.zero base).2

/-! ## `printf` and `serial_printf`

The characters are sent one by one and counted. -/

/-- The characters sent so far and their count. -/
structure Sent where
  chars : List UInt8
  count : Nat
  deriving DecidableEq

/-- `putchar(c); count++;`. -/
def Sent.put (o : Sent) (c : UInt8) : Sent := ⟨o.chars ++ [c], o.count + 1⟩

/-- `(unsigned int)(-(long)val)`, for a negative `val`. -/
def absVal (val : UInt32) : UInt32 := 0 - val

/-- The text of a conversion in `printf`, and the arguments it leaves. -/
def printfConv (strs : Strings) (isLong : Bool) (c : UInt8) (va : VaList) : List UInt8 × VaList :=
  if c = 100 then  -- 'd'
    (if 2147483648 ≤ va 0 then 45 :: (itoaText (absVal (va 0)) 10).take 32
      else (itoaText (va 0) 10).take 32, va.drop 1)
  else if c = 117 then  -- 'u'
    if isLong then (itoa64Text ((va 1).toUInt64 * 4294967296 + (va 0).toUInt64) 10, va.drop 2)
    else (itoaText (va 0) 10, va.drop 1)
  else if c = 120 then (itoaText (va 0) 16, va.drop 1)  -- 'x'
  else if c = 99 then ([(va 0).toUInt8], va.drop 1)  -- 'c'
  else if c = 115 then (if va 0 = 0 then [] else strs (va 0), va.drop 1)  -- 's'
  else if c = 37 then ([37], va)
  else ([37, c], va)

/-- The loop of `printf`, in at most `n` rounds. -/
def printfLoop (strs : Strings) : (n : Nat) → List UInt8 → VaList → Sent → Sent
  | 0, _, _, o => o
  | n + 1, fmt, va, o =>
      match nextItem fmt with
      | none => o
      | some (.literal c, rest) => printfLoop strs n rest va (o.put c)
      | some (.conv isLong c, rest) =>
          let r := printfConv strs isLong c va
          printfLoop strs n rest r.2 (r.1.foldl Sent.put o)

/-- `printf`: the characters given to `putchar`, and the return value. -/
def printf (strs : Strings) (fmt : List UInt8) (va : VaList) : Sent :=
  printfLoop strs fmt.length fmt va ⟨[], 0⟩

/-- `serial_printf`, the same text with `serial_putc` in place of `putchar`. -/
def serialPrintf (strs : Strings) (fmt : List UInt8) (va : VaList) : Sent :=
  printfLoop strs fmt.length fmt va ⟨[], 0⟩

/-! ## `snprintf`

The buffer and the number of characters written. What is put when there is
no room is counted and not stored. -/

/-- A buffer and the number of characters written to it. -/
structure Sink where
  buf : Buf
  written : Nat

namespace Sink

/-- `buf[written++] = c`. -/
def put (o : Sink) (c : UInt8) : Sink := ⟨o.buf.putByte o.written c, o.written + 1⟩

/-- The same where `written < max_write`. -/
def putRoom (maxWrite : Nat) (o : Sink) (c : UInt8) : Sink :=
  if o.written < maxWrite then o.put c else o

end Sink

/-- A `size_t` taken as an `int`. -/
def sizeAsInt (x : Nat) : Int := if x < 2147483648 then x else x - 4294967296

/-- `to_copy`, of `n` characters with `room` left. -/
def toCopy (n room : Nat) : Int := if (n : Int) > sizeAsInt room then sizeAsInt room else n

def putNumber (maxWrite : Nat) (o : Sink) (digits : List UInt8) : Sink :=
  (digits.take (toCopy digits.length (maxWrite - o.written)).toNat).foldl Sink.put o

/-- `"(null)"`. -/
def nullText : List UInt8 := [40, 110, 117, 108, 108, 41]

/-- A conversion in `snprintf`. A `long long` is cut to its low word, and there is no `u`. -/
def snprintfConv (strs : Strings) (maxWrite : Nat) (isLong : Bool) (c : UInt8) (va : VaList)
    (o : Sink) : Sink × VaList :=
  if c = 100 ∨ c = 105 then  -- 'd', 'i'
    (putNumber maxWrite o (itoaText (va 0) 10), va.drop (if isLong then 2 else 1))
  else if c = 115 then  -- 's'
    ((if va 0 = 0 then nullText else strs (va 0)).foldl (Sink.putRoom maxWrite) o, va.drop 1)
  else if c = 120 then (putNumber maxWrite o (itoaText (va 0) 16), va.drop 1)  -- 'x'
  else if c = 99 then (o.putRoom maxWrite (va 0).toUInt8, va.drop 1)  -- 'c'
  else if c = 37 then (o.putRoom maxWrite 37, va)
  else ((o.putRoom maxWrite 37).putRoom maxWrite c, va)

/-- The loop of `snprintf`, in at most `n` rounds. -/
def snprintfLoop (strs : Strings) (maxWrite : Nat) :
    (n : Nat) → List UInt8 → VaList → Sink → Sink
  | 0, _, _, o => o
  | n + 1, fmt, va, o =>
      if o.written < maxWrite then
        match nextItem fmt with
        | none => o
        | some (.literal c, rest) => snprintfLoop strs maxWrite n rest va (o.putRoom maxWrite c)
        | some (.conv isLong c, rest) =>
            let r := snprintfConv strs maxWrite isLong c va o
            snprintfLoop strs maxWrite n rest r.2 r.1
      else o

/-- `snprintf` with a buffer: the return value and the buffer afterwards. -/
def snprintf (strs : Strings) (buf : Buf) (size : Nat) (fmt : List UInt8) (va : VaList) :
    Nat × Buf :=
  if size = 0 then (0, buf)
  else
    let o := snprintfLoop strs (size - 1) fmt.length fmt va ⟨buf, 0⟩
    (o.written, o.buf.putByte o.written 0)

/-! ## Characters put one after another

A loop that puts characters is the put of a list. -/

def Sink.putAll (o : Sink) (l : List UInt8) : Sink :=
  ⟨o.buf.putAll o.written l, o.written + l.length⟩

theorem Sink.foldl_put (o : Sink) (l : List UInt8) : l.foldl Sink.put o = o.putAll l := by
  induction l generalizing o with
  | nil => rfl
  | cons c l ih =>
      rw [List.foldl_cons, ih]
      unfold putAll put
      dsimp only
      rw [List.length_cons, Nat.add_right_comm, Nat.add_assoc]
      rfl

theorem Sink.putAll_append (o : Sink) (l l' : List UInt8) :
    o.putAll (l ++ l') = (o.putAll l).putAll l' := by
  rw [← foldl_put, List.foldl_append, foldl_put, foldl_put]

theorem Sink.foldl_putRoom (maxWrite : Nat) (o : Sink) (l : List UInt8) :
    l.foldl (Sink.putRoom maxWrite) o = o.putAll (l.take (maxWrite - o.written)) := by
  induction l generalizing o with
  | nil =>
      rw [List.take_nil]
      rfl
  | cons c l ih =>
      rw [List.foldl_cons, ih, putRoom]
      split
      · rename_i hroom
        have hleft : maxWrite - o.written = (maxWrite - (o.put c).written) + 1 := by
          show maxWrite - o.written = maxWrite - (o.written + 1) + 1
          omega
        rw [hleft, List.take_succ_cons, ← foldl_put, ← foldl_put, List.foldl_cons]
      · rename_i hfull
        have hleft : maxWrite - o.written = 0 := by omega
        rw [hleft, List.take_zero, List.take_zero]

theorem Sent.foldl_put (o : Sent) (l : List UInt8) :
    l.foldl Sent.put o = ⟨o.chars ++ l, o.count + l.length⟩ := by
  induction l generalizing o with
  | nil => rw [List.append_nil]; rfl
  | cons c l ih =>
      rw [List.foldl_cons, ih]
      unfold put
      dsimp only
      rw [List.append_assoc, List.length_cons, Nat.add_right_comm, Nat.add_assoc]
      rfl

/-! ## The text of a conversion in `snprintf`

One list of characters for each conversion, whatever the room. -/

/-- The text of a conversion without a limit, and the arguments it leaves. -/
def snprintfText (strs : Strings) (isLong : Bool) (c : UInt8) (va : VaList) :
    List UInt8 × VaList :=
  if c = 100 ∨ c = 105 then (itoaText (va 0) 10, va.drop (if isLong then 2 else 1))
  else if c = 115 then (if va 0 = 0 then nullText else strs (va 0), va.drop 1)
  else if c = 120 then (itoaText (va 0) 16, va.drop 1)
  else if c = 99 then ([(va 0).toUInt8], va.drop 1)
  else if c = 37 then ([37], va)
  else ([37, c], va)

/-- A number is cut at the limit when the room left fits an `int`. -/
theorem putNumber_eq {maxWrite : Nat} {o : Sink} {digits : List UInt8}
    (hroom : maxWrite - o.written < 2147483648) :
    putNumber maxWrite o digits = o.putAll (digits.take (maxWrite - o.written)) := by
  have hint : sizeAsInt (maxWrite - o.written) = ((maxWrite - o.written : Nat) : Int) :=
    if_pos hroom
  rw [putNumber, Sink.foldl_put, toCopy, hint]
  split
  · rw [Int.toNat_natCast]
  · rename_i hle
    rw [Int.toNat_natCast, List.take_length, List.take_of_length_le (by omega)]

theorem snprintfConv_eq {strs : Strings} {maxWrite : Nat} {isLong : Bool} {c : UInt8} {va : VaList}
    {o : Sink} (hroom : c = 100 ∨ c = 105 ∨ c = 120 → maxWrite - o.written < 2147483648) :
    snprintfConv strs maxWrite isLong c va o
      = (o.putAll ((snprintfText strs isLong c va).1.take (maxWrite - o.written)),
          (snprintfText strs isLong c va).2) := by
  have hone : ∀ k : UInt8, o.putRoom maxWrite k = o.putAll ([k].take (maxWrite - o.written)) :=
    fun k => o.foldl_putRoom maxWrite [k]
  unfold snprintfConv snprintfText
  by_cases hd : c = 100 ∨ c = 105
  · rw [if_pos hd, if_pos hd, putNumber_eq (hroom (hd.imp_right Or.inl))]
  rw [if_neg hd, if_neg hd]
  by_cases hs : c = 115
  · rw [if_pos hs, if_pos hs, Sink.foldl_putRoom]
  rw [if_neg hs, if_neg hs]
  by_cases hx : c = 120
  · rw [if_pos hx, if_pos hx, putNumber_eq (hroom (Or.inr (Or.inr hx)))]
  rw [if_neg hx, if_neg hx]
  by_cases hc : c = 99
  · rw [if_pos hc, if_pos hc, hone]
  rw [if_neg hc, if_neg hc]
  by_cases hp : c = 37
  · rw [if_pos hp, if_pos hp, hone]
  rw [if_neg hp, if_neg hp]
  exact congrArg (fun r => (r, va)) (o.foldl_putRoom maxWrite [37, c])

/-! ## The text of a format

The texts of the items one after another, up to the size of the buffer less
one. -/

/-- The text of a format without a limit, in at most `n` rounds. -/
def snprintfFull (strs : Strings) : (n : Nat) → List UInt8 → VaList → List UInt8
  | 0, _, _ => []
  | n + 1, fmt, va =>
      match nextItem fmt with
      | none => []
      | some (.literal c, rest) => c :: snprintfFull strs n rest va
      | some (.conv isLong c, rest) =>
          let r := snprintfText strs isLong c va
          r.1 ++ snprintfFull strs n rest r.2

theorem Sink.putAll_cut (o : Sink) (maxWrite : Nat) (t rest : List UInt8) :
    (o.putAll (t.take (maxWrite - o.written))).putAll
        (rest.take (maxWrite - (o.putAll (t.take (maxWrite - o.written))).written))
      = o.putAll ((t ++ rest).take (maxWrite - o.written)) := by
  have hleft : maxWrite - (o.putAll (t.take (maxWrite - o.written))).written
      = maxWrite - o.written - t.length := by
    show maxWrite - (o.written + (t.take (maxWrite - o.written)).length) = _
    rw [List.length_take]
    omega
  rw [hleft, List.take_append, putAll_append]

theorem snprintfLoop_eq {strs : Strings} {maxWrite : Nat} (hmax : maxWrite < 2147483648) (n : Nat)
    (fmt : List UInt8) (va : VaList) (o : Sink) :
    snprintfLoop strs maxWrite n fmt va o
      = o.putAll ((snprintfFull strs n fmt va).take (maxWrite - o.written)) := by
  induction n generalizing fmt va o with
  | zero =>
      rw [snprintfFull, List.take_nil]
      rfl
  | succ n ih =>
      rw [snprintfLoop]
      split
      · rw [snprintfFull]
        rcases nextItem fmt with _ | ⟨_ | _, rest⟩
        · rw [List.take_nil]
          rfl
        · rename_i c
          have hone := o.foldl_putRoom maxWrite [c]
          rw [List.foldl_cons, List.foldl_nil] at hone
          dsimp only
          rw [ih, hone, Sink.putAll_cut]
          rfl
        · dsimp only
          rw [snprintfConv_eq (fun _ => by omega), ih, Sink.putAll_cut]
      · rename_i hfull
        have hleft : maxWrite - o.written = 0 := by omega
        rw [hleft, List.take_zero]
        rfl

theorem snprintf_eq {strs : Strings} {size : Nat} (h1 : 1 ≤ size) (h31 : size ≤ 2147483648)
    (buf : Buf) (fmt : List UInt8) (va : VaList) :
    snprintf strs buf size fmt va
      = (min (size - 1) (snprintfFull strs fmt.length fmt va).length,
          buf.putAll 0 ((snprintfFull strs fmt.length fmt va).take (size - 1) ++ [0])) := by
  rw [snprintf, if_neg (by omega), snprintfLoop_eq (by omega)]
  unfold Sink.putAll
  dsimp only
  rw [Nat.zero_add, Nat.sub_zero, List.length_take, Buf.putAll_append, Nat.zero_add,
    List.length_take]
  rfl

/-- A smaller size stores the start of what a larger one stores. -/
theorem snprintf_prefix (strs : Strings) (fmt : List UInt8) (va : VaList) (buf buf' : Buf)
    {n m : Nat} (h1 : 1 ≤ n) (hnm : n ≤ m) (hm : m ≤ 2147483648) :
    (snprintf strs buf n fmt va).1 = min (n - 1) (snprintf strs buf' m fmt va).1
    ∧ (∀ k < (snprintf strs buf n fmt va).1,
      (snprintf strs buf n fmt va).2 k = (snprintf strs buf' m fmt va).2 k)
    ∧ (snprintf strs buf n fmt va).2 (snprintf strs buf n fmt va).1 = 0
    ∧ ∀ k, n ≤ k → (snprintf strs buf n fmt va).2 k = buf k := by
  rw [snprintf_eq h1 (by omega), snprintf_eq (by omega) hm]
  generalize snprintfFull strs fmt.length fmt va = text
  have hlen : (text.take (n - 1) ++ [0]).length = min (n - 1) text.length + 1 := by
    rw [List.length_append, List.length_take]
    rfl
  refine ⟨by dsimp only; omega, fun k hk => ?_, ?_, fun k hk => ?_⟩
  · dsimp only at hk ⊢
    rw [Buf.putAll_zero _ _ (by omega),
      Buf.putAll_zero _ _ (by rw [List.length_append, List.length_take]; omega),
      List.getElem_append_left (by rw [List.length_take]; omega),
      List.getElem_append_left (by rw [List.length_take]; omega), List.getElem_take,
      List.getElem_take]
  · dsimp only
    rw [Buf.putAll_zero _ _ (by omega), List.getElem_append_right (by rw [List.length_take])]
    simp
  · dsimp only
    exact Buf.putAll_after _ _ (by omega)

/-- A number cut after its second digit. -/
theorem snprintf_prefix_number :
    (snprintf (fun _ => []) Buf.zero 3 [37, 100, 33] fun _ => 4711).1
      = min (3 - 1) (snprintf (fun _ => []) Buf.zero 10 [37, 100, 33] fun _ => 4711).1
    ∧ (snprintf (fun _ => []) Buf.zero 3 [37, 100, 33] fun _ => 4711).2
      (snprintf (fun _ => []) Buf.zero 3 [37, 100, 33] fun _ => 4711).1 = 0 := by
  have h1 : 1 ≤ 3 := by decide
  have hnm : 3 ≤ 10 := by decide
  have hm : 10 ≤ 2147483648 := by decide
  have hrun := snprintf_prefix (fun _ => []) [37, 100, 33] (fun _ => 4711) Buf.zero Buf.zero
    h1 hnm hm
  exact ⟨hrun.1, hrun.2.2.1⟩

end IpoOs
