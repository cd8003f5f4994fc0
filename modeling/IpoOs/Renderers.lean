import IpoOs.Printf

/-!
# The documented conversions

A format of the documented conversions is a list of pieces. Over the same
arguments `snprintf` stores what `printf` sends up to the first `%u`, which
it does not know, and the first `%d` of a negative number, which it takes
as unsigned. A third difference needs a buffer of more than 2 GiB: a number
is dropped where the room left does not fit an `int`.

A `Piece` is what a caller may write: text, or one of the documented
conversions. The format of a list of pieces is what the walk over a format
takes apart again (`nextItem_piece`), so the loops of the two functions are
compared piece by piece over the same words of the stack.
-/

namespace IpoOs

/-- A piece of a format. -/
inductive Piece where
  | literal (ch : UInt8)
  | decimal
  | unsigned
  | hex
  | char
  | str
  | percent
  deriving DecidableEq

namespace Piece

/-- The characters of a piece in the format. -/
def bytes : Piece → List UInt8
  | literal ch => [ch]
  | decimal => [37, 100]
  | unsigned => [37, 117]
  | hex => [37, 120]
  | char => [37, 99]
  | str => [37, 115]
  | percent => [37, 37]

/-- A literal is no `%`. -/
def Plain : Piece → Prop
  | literal ch => ch ≠ 37
  | _ => True

def words : Piece → Nat
  | literal _ => 0
  | percent => 0
  | _ => 1

/-- What `printf` sends for a piece. -/
def sent (strs : Strings) (va : VaList) : Piece → List UInt8
  | literal ch => [ch]
  | decimal => (printfConv strs false 100 va).1
  | unsigned => (printfConv strs false 117 va).1
  | hex => (printfConv strs false 120 va).1
  | char => (printfConv strs false 99 va).1
  | str => (printfConv strs false 115 va).1
  | percent => (printfConv strs false 37 va).1

end Piece

def formatOf (ps : List Piece) : List UInt8 := ps.flatMap Piece.bytes

/-- What `printf` sends for some pieces. -/
def sentOf (strs : Strings) : List Piece → VaList → List UInt8
  | [], _ => []
  | p :: ps, va => p.sent strs va ++ sentOf strs ps (va.drop p.words)

/-- The pieces with the word each of them finds and the number of characters before it. -/
def uses (strs : Strings) : List Piece → VaList → Nat → List (Piece × UInt32 × Nat)
  | [], _, _ => []
  | p :: ps, va, before => (p, va 0, before)
      :: uses strs ps (va.drop p.words) (before + (p.sent strs va).length)

/-- A `%s` finds a string. -/
def NoNull (strs : Strings) (ps : List Piece) (va : VaList) : Prop :=
  ∀ e ∈ uses strs ps va 0, e.1 = .str → e.2.1 ≠ 0

/-- A piece that both functions render alike: no `%u`, and no `%d` of a negative number. -/
def Piece.Shared (p : Piece) (w : UInt32) : Prop :=
  p ≠ .unsigned ∧ (p = .decimal → w.toNat < 2147483648)

/-- The pieces are rendered alike, and a number finds room that fits an `int`. -/
def RendersAlike (strs : Strings) (size : Nat) (ps : List Piece) (va : VaList) : Prop :=
  ∀ e ∈ uses strs ps va 0, e.1.Shared e.2.1
    ∧ (e.1 = .decimal ∨ e.1 = .hex → size - 1 - e.2.2 < 2147483648)

/-! ## Numbers

Both functions use `itoa` for their digits; what `Itoa` proves of it is all
that is used here. -/

theorem itoaText_numeral (num : UInt32) {base : Nat} (hb : 2 < base) (h36 : base ≤ 36) :
    Numeral 33 base num.toNat Buf.zero (itoa num Buf.zero base) :=
  (itoa_numeral (by omega) h36 num Buf.zero).mpr ⟨fun _ => rfl, fun h => by omega⟩

theorem itoaText_spec (num : UInt32) :
    (itoaText num 10).length ≤ 32 ∧ ∃ c l, itoaText num 10 = c :: l ∧ 48 ≤ c.toNat
        ∧ c.toNat ≤ 57 := by
  have hn := itoaText_numeral num (by decide : 2 < 10) (by decide)
  have hroom := hn.room
  have hlen : (itoaText num 10).length = (itoa num Buf.zero 10).1 := by
    rw [itoaText, List.length_map, List.length_range]
  have hpos : 0 < (itoa num Buf.zero 10).1 := by
    rcases Nat.eq_zero_or_pos num.toNat with h0 | h0
    · have hone := hn.zero h0
      omega
    · exact (hn.leading (Nat.ne_of_gt h0)).1
  refine ⟨by omega, ?_⟩
  obtain ⟨c, l, hcons⟩ :=
    List.exists_cons_of_length_pos (hlen ▸ hpos : 0 < (itoaText num 10).length)
  have hc : c = (itoa num Buf.zero 10).2 0 := by
    have hzero : 0 < (itoaText num 10).length := by omega
    have hhead : (itoaText num 10)[0] = c := by
      simp only [hcons, List.getElem_cons_zero]
    rw [← hhead]
    simp only [itoaText, List.getElem_map, List.getElem_range]
  obtain ⟨hrange, hvalue⟩ := hn.digits 0 hpos
  rw [← hc] at hrange hvalue
  unfold digitValue at hvalue
  refine ⟨c, l, hcons, ?_⟩
  split at hvalue <;> omega

theorem itoaText_take (num : UInt32) : (itoaText num 10).take 32 = itoaText num 10 :=
  List.take_of_length_le (itoaText_spec num).1

/-! ## Pieces

What one piece makes of each of the two loops. -/

/-- The round of the format loops that a piece is. -/
def Piece.item : Piece → Item
  | literal ch => .literal ch
  | decimal => .conv false 100
  | unsigned => .conv false 117
  | hex => .conv false 120
  | char => .conv false 99
  | str => .conv false 115
  | percent => .conv false 37

theorem nextItem_conv {k : UInt8} (hk : k ≠ 108) (rest : List UInt8) :
    nextItem (37 :: k :: rest) = some (.conv false k, rest) := by
  have hmod : lengthModifier (k :: rest) = (false, k :: rest) := by
    have h1 : (k :: rest).take 1 ≠ [108] := fun h => hk (List.cons.inj h).1
    have h2 : (k :: rest).take 2 ≠ [108, 108] := fun h => hk (List.cons.inj h).1
    rw [lengthModifier, if_neg h2, if_neg h1]
  rw [nextItem, if_pos ⟨rfl, List.cons_ne_nil k rest⟩, hmod]

theorem nextItem_piece {p : Piece} (hp : p.Plain) (ps : List Piece) :
    nextItem (formatOf (p :: ps)) = some (p.item, formatOf ps) := by
  unfold formatOf
  rw [List.flatMap_cons]
  cases p with
  | literal ch => exact if_neg fun h => hp h.1
  | decimal | unsigned | hex | char | str | percent => exact nextItem_conv (by decide) _

theorem formatOf_length (p : Piece) (ps : List Piece) :
    (formatOf ps).length < (formatOf (p :: ps)).length := by
  unfold formatOf
  rw [List.flatMap_cons, List.length_append]
  cases p <;> exact Nat.lt_add_of_pos_left (Nat.zero_lt_succ _)

theorem printfLoop_pieces (strs : Strings) {ps : List Piece} (hps : ∀ p ∈ ps, p.Plain) {n : Nat}
    (hn : (formatOf ps).length ≤ n) (va : VaList) (o : Sent) :
    printfLoop strs n (formatOf ps) va o
      = ⟨o.chars ++ sentOf strs ps va, o.count + (sentOf strs ps va).length⟩ := by
  induction ps generalizing n va o with
  | nil =>
      have hend : printfLoop strs n (formatOf []) va o = o := by cases n <;> rfl
      rw [hend, sentOf, List.append_nil]
      rfl
  | cons p ps ih =>
      have hlt := formatOf_length p ps
      obtain ⟨n, rfl⟩ := Nat.exists_eq_succ_of_ne_zero (by omega : n ≠ 0)
      have hrest :=
        fun va' o' => @ih (fun q hq => hps q (List.mem_cons_of_mem p hq)) n (by omega) va' o'
      have hstep : printfLoop strs (n + 1) (formatOf (p :: ps)) va o
          = printfLoop strs n (formatOf ps) (va.drop p.words)
              ((p.sent strs va).foldl Sent.put o) := by
        rw [printfLoop, nextItem_piece (hps p List.mem_cons_self)]
        cases p <;> rfl
      rw [hstep, hrest, Sent.foldl_put, sentOf, List.length_append, List.append_assoc,
        Nat.add_assoc]

theorem snprintfText_shared {strs : Strings} {p : Piece} {va : VaList} (h : p.Shared (va 0))
    (hs : p = .str → va 0 ≠ 0) {isLong : Bool} {c : UInt8} (hitem : p.item = .conv isLong c) :
    snprintfText strs isLong c va = (p.sent strs va, va.drop p.words) := by
  cases p with
  | literal ch => cases hitem
  | unsigned => exact absurd rfl h.1
  | decimal =>
      cases hitem
      have hneg : ¬ (2147483648 ≤ va 0) := fun hc => by
        have hle : (2147483648 : UInt32).toNat ≤ (va 0).toNat := hc
        have hlt := h.2 rfl
        have hlit : (2147483648 : UInt32).toNat = 2147483648 := rfl
        omega
      show (itoaText (va 0) 10, va.drop 1) = _
      rw [Piece.sent, printfConv, if_pos rfl, if_neg hneg, itoaText_take]
      rfl
  | str =>
      cases hitem
      have h0 := hs rfl
      show (if va 0 = 0 then nullText else strs (va 0), va.drop 1)
        = (if va 0 = 0 then [] else strs (va 0), va.drop 1)
      rw [if_neg h0, if_neg h0]
  | hex | char | percent =>
      cases hitem
      rfl

/-! ## Both renderings

The text that is stored is what is sent, up to the size of the buffer, for
formats whose pieces are shared. -/

/-- Where every piece is shared `snprintf` stores what `printf` sends. -/
theorem snprintfLoop_shared {strs : Strings} {maxWrite : Nat} {ps : List Piece}
    (hps : ∀ p ∈ ps, p.Plain) {n : Nat} (hn : (formatOf ps).length ≤ n) (va : VaList) (o : Sink)
    (hgood : ∀ e ∈ uses strs ps va o.written, (e.1.Shared e.2.1
      ∧ (e.1 = .decimal ∨ e.1 = .hex → maxWrite - e.2.2 < 2147483648)) ∧ (e.1 = .str → e.2.1 ≠ 0))
    (hroom : o.written + (sentOf strs ps va).length ≤ maxWrite) :
    snprintfLoop strs maxWrite n (formatOf ps) va o = o.putAll (sentOf strs ps va) := by
  induction ps generalizing n va o with
  | nil =>
      have hend : snprintfLoop strs maxWrite n (formatOf []) va o = o := by
        cases n with
        | zero => rfl
        | succ n =>
            rw [snprintfLoop]
            split <;> rfl
      rw [hend]
      rfl
  | cons p ps ih =>
      have hlt := formatOf_length p ps
      obtain ⟨n, rfl⟩ := Nat.exists_eq_succ_of_ne_zero (by omega : n ≠ 0)
      rw [sentOf, List.length_append] at hroom
      obtain ⟨⟨hshared, hnumber⟩, hnull⟩ := hgood (p, va 0, o.written) List.mem_cons_self
      dsimp only at hshared hnumber hnull
      have hrest := @ih (fun q hq => hps q (List.mem_cons_of_mem p hq)) n (by omega)
        (va.drop p.words) (o.putAll (p.sent strs va))
        (fun e he => hgood e (List.mem_cons_of_mem _ he))
        (by show o.written + (p.sent strs va).length + _ ≤ maxWrite; omega)
      have htake : (p.sent strs va).take (maxWrite - o.written) = p.sent strs va :=
        List.take_of_length_le (by omega)
      rw [snprintfLoop, nextItem_piece (hps p List.mem_cons_self)]
      split
      · rw [sentOf, Sink.putAll_append, ← hrest]
        cases hitem : p.item with
        | literal ch =>
            have hp : p = .literal ch := by
              cases p <;> cases hitem
              rfl
            have hput := o.foldl_putRoom maxWrite [ch]
            rw [List.foldl_cons, List.foldl_nil] at hput
            subst hp
            rw [← htake]
            dsimp only
            rw [hput]
            rfl
        | conv isLong c =>
            have htext := @snprintfText_shared strs p va hshared hnull isLong c hitem
            have hconv : snprintfConv strs maxWrite isLong c va o
                = (o.putAll (p.sent strs va), va.drop p.words) := by
              rw [snprintfConv_eq ?_, htext, htake]
              intro hc
              refine hnumber ?_
              cases p <;> cases hitem
              · exact Or.inl rfl
              · rcases hc with hc | hc | hc <;> cases hc
              · exact Or.inr rfl
              all_goals rcases hc with hc | hc | hc <;> cases hc
            dsimp only
            rw [hconv]
      · -- no room is left, and nothing is to be stored
        rename_i hfull
        have hp0 : p.sent strs va = [] := List.eq_nil_of_length_eq_zero (by omega)
        have hs0 : sentOf strs ps (va.drop p.words) = [] := List.eq_nil_of_length_eq_zero (by omega)
        rw [sentOf, hp0, hs0]
        rfl

theorem head_of_take {a b : UInt8} {l l' : List UInt8} {m : Nat} (hm : 0 < m)
    (h : (a :: l).take m = b :: l') : a = b := by
  obtain ⟨m, rfl⟩ := Nat.exists_eq_succ_of_ne_zero (Nat.ne_of_gt hm)
  exact (List.cons.inj h).1

/-- The text that `snprintf` renders agrees with what `printf` sends only if every piece is
shared: the first that is not starts with another character. -/
theorem shared_of_snprintfFull {strs : Strings} {ps : List Piece} (hps : ∀ p ∈ ps, p.Plain)
    {n : Nat} (hn : (formatOf ps).length ≤ n) (va : VaList) (before : Nat)
    (hnull : ∀ e ∈ uses strs ps va before, e.1 = .str → e.2.1 ≠ 0) {m : Nat}
    (hm : (sentOf strs ps va).length ≤ m)
    (heq : (snprintfFull strs n (formatOf ps) va).take m = sentOf strs ps va) :
    ∀ e ∈ uses strs ps va before, e.1.Shared e.2.1 := by
  induction ps generalizing n va before m with
  | nil => exact fun e he => absurd he List.not_mem_nil
  | cons p ps ih =>
      have hlt := formatOf_length p ps
      obtain ⟨n, rfl⟩ := Nat.exists_eq_succ_of_ne_zero (by omega : n ≠ 0)
      rw [sentOf, List.length_append] at hm
      rw [snprintfFull, nextItem_piece (hps p List.mem_cons_self), sentOf] at heq
      have hstr : p = .str → va 0 ≠ 0 := hnull (p, va 0, before) List.mem_cons_self
      -- a shared piece has the same text in both, and the rest is as before
      have hnext : p.Shared (va 0) → (p.sent strs va ++ snprintfFull strs n (formatOf ps)
          (va.drop p.words)).take m = p.sent strs va ++ sentOf strs ps (va.drop p.words) →
          ∀ e ∈ uses strs (p :: ps) va before, e.1.Shared e.2.1 := by
        intro hshared h
        rw [List.take_append, List.take_of_length_le (by omega)] at h
        intro e he
        rcases List.mem_cons.mp he with rfl | he
        · exact hshared
        · exact ih (fun q hq => hps q (List.mem_cons_of_mem p hq)) (by omega) _ _
            (fun e he => hnull e (List.mem_cons_of_mem _ he)) (by omega)
            (List.append_cancel_left h) e he
      rcases em (p.Shared (va 0)) with hshared | hnot
      · refine hnext hshared ?_
        cases hitem : p.item with
        | literal ch =>
            have hp : p = .literal ch := by
              cases p <;> cases hitem
              rfl
            subst hp
            exact heq
        | conv isLong c =>
            rw [hitem] at heq
            dsimp only at heq
            rwa [snprintfText_shared hshared hstr hitem] at heq
      · -- the first characters differ: a digit and `%`, or a digit and the sign
        have hcases : p = .unsigned ∨ p = .decimal ∧ 2147483648 ≤ va 0 := by
          rcases em (p = .unsigned) with hu | hu
          · exact Or.inl hu
          · by_contra hc
            refine hnot ⟨hu, fun hd => ?_⟩
            rw [not_or, not_and] at hc
            have hlt' : ¬ 2147483648 ≤ (va 0).toNat := hc.2 hd
            omega
        exfalso
        obtain ⟨-, c, l, htext, h48, -⟩ := itoaText_spec (va 0)
        rcases hcases with rfl | ⟨rfl, hneg⟩
        · have hsent : Piece.unsigned.sent strs va = c :: l := htext
          rw [hsent] at heq hm
          have hhead : (37 : UInt8) = c := head_of_take (by rw [List.length_cons] at hm; omega) heq
          rw [← hhead] at h48
          exact absurd h48 (by decide)
        · have hsent : Piece.decimal.sent strs va
              = 45 :: (itoaText (absVal (va 0)) 10).take 32 := if_pos hneg
          rw [hsent] at heq hm
          have hfull : ∃ rest, (c :: rest).take m
              = 45 :: (itoaText (absVal (va 0)) 10).take 32
                ++ sentOf strs ps (va.drop Piece.decimal.words) := by
            refine ⟨l ++ snprintfFull strs n (formatOf ps) (va.drop 1), ?_⟩
            rw [← heq, ← List.cons_append, ← htext]
            rfl
          obtain ⟨rest, hrest⟩ := hfull
          have hhead : c = 45 := head_of_take (by rw [List.length_cons] at hm; omega) hrest
          rw [hhead] at h48
          exact absurd h48 (by decide)

/-- What `printf` sends for a format of pieces, and its return value. -/
theorem printf_pieces (strs : Strings) {ps : List Piece} (hps : ∀ p ∈ ps, p.Plain) (va : VaList) :
    printf strs (formatOf ps) va = ⟨sentOf strs ps va, (sentOf strs ps va).length⟩ := by
  rw [printf, printfLoop_pieces strs hps (Nat.le_refl _), List.nil_append, Nat.zero_add]

/-- `snprintf` stores the characters that `printf` sends, ends them with a NUL and returns the
same count. -/
def StoresSent (strs : Strings) (buf : Buf) (size : Nat) (fmt : List UInt8) (va : VaList) : Prop :=
  (snprintf strs buf size fmt va).1 = (printf strs fmt va).count
  ∧ (∀ k, (hk : k < (printf strs fmt va).chars.length) →
    (snprintf strs buf size fmt va).2 k = (printf strs fmt va).chars[k])
  ∧ (snprintf strs buf size fmt va).2 (printf strs fmt va).chars.length = 0

/-- The three renderings of a format of the documented conversions, in a buffer with room for all
of it. In a buffer of at most 2 GiB they agree exactly where every piece is shared. -/
theorem renderers_agree (strs : Strings) {ps : List Piece} (hps : ∀ p ∈ ps, p.Plain) (va : VaList)
    (hnull : NoNull strs ps va) (buf : Buf) {size : Nat}
    (hsize : (printf strs (formatOf ps) va).chars.length < size) :
    serialPrintf strs (formatOf ps) va = printf strs (formatOf ps) va
    ∧ (RendersAlike strs size ps va → StoresSent strs buf size (formatOf ps) va)
    ∧ (size ≤ 2147483648 →
      (StoresSent strs buf size (formatOf ps) va ↔ RendersAlike strs size ps va)) := by
  have hsuff : RendersAlike strs size ps va → StoresSent strs buf size (formatOf ps) va := by
    intro halike
    rw [printf_pieces strs hps] at hsize
    have hloop := @snprintfLoop_shared strs (size - 1) ps hps _ (Nat.le_refl _) va ⟨buf, 0⟩
      (fun e he => ⟨halike e he, hnull e he⟩) (by dsimp only at hsize ⊢; omega)
    unfold StoresSent
    rw [printf_pieces strs hps, snprintf, if_neg (by omega), hloop]
    dsimp only [Sink.putAll]
    rw [Nat.zero_add]
    refine ⟨rfl, fun k hk => ?_, Buf.putByte_self ..⟩
    rw [Buf.putByte_of_ne (by omega), buf.putAll_zero _ hk]
  refine ⟨rfl, hsuff, fun h31 => ⟨fun hstores e he => ⟨?_, fun _ => by omega⟩, hsuff⟩⟩
  rw [printf_pieces strs hps] at hsize
  unfold StoresSent at hstores
  rw [printf_pieces strs hps, snprintf_eq (by omega) h31] at hstores
  dsimp only at hstores hsize
  obtain ⟨hcount, hchars, -⟩ := hstores
  refine shared_of_snprintfFull hps (Nat.le_refl _) va 0 hnull
    (show (sentOf strs ps va).length ≤ size - 1 by omega) ?_ e he
  refine List.ext_getElem (by rw [List.length_take]; exact hcount) fun k hk hk' => ?_
  have hk1 := hchars k hk'
  rw [buf.putAll_zero _ (by rw [List.length_append]; omega), List.getElem_append_left hk] at hk1
  exact hk1

/-- A format with every documented conversion but `%u`. -/
theorem renderers_agree_all :
    StoresSent (fun _ => [111, 107]) Buf.zero 40
      (formatOf [.decimal, .literal 32, .hex, .char, .str, .percent]) fun _ => 65 := by
  have hps : ∀ p ∈ [Piece.decimal, .literal 32, .hex, .char, .str, .percent], p.Plain := by
    intro p hp
    simp only [List.mem_cons, List.not_mem_nil, or_false] at hp
    rcases hp with rfl | rfl | rfl | rfl | rfl | rfl <;> simp [Piece.Plain]
  have hnull : NoNull (fun _ => [111, 107])
      [Piece.decimal, .literal 32, .hex, .char, .str, .percent] fun _ => 65 := by
    unfold NoNull
    decide +kernel
  have hsize : (printf (fun _ => [111, 107])
      (formatOf [Piece.decimal, .literal 32, .hex, .char, .str, .percent]) fun _ => 65).chars.length
      < 40 := by decide +kernel
  have halike : RendersAlike (fun _ => [111, 107]) 40
      [Piece.decimal, .literal 32, .hex, .char, .str, .percent] fun _ => 65 := by
    unfold RendersAlike Piece.Shared
    decide +kernel
  exact (renderers_agree (fun _ => [111, 107]) hps (fun _ => 65) hnull Buf.zero hsize).2.1 halike

/-- `%u` and a negative `%d`: `snprintf` stores `%u` and `4294967295` for what `printf` sends as
`7` and `-1`. -/
theorem renderers_differ :
    (printf (fun _ => []) (formatOf [.unsigned]) fun _ => 7).chars = [55]
    ∧ ¬ StoresSent (fun _ => []) Buf.zero 40 (formatOf [.unsigned]) (fun _ => 7)
    ∧ (printf (fun _ => []) (formatOf [.decimal]) fun _ => 4294967295).chars = [45, 49]
    ∧ ¬ StoresSent (fun _ => []) Buf.zero 40 (formatOf [.decimal]) (fun _ => 4294967295) := by
  refine ⟨by decide +kernel, fun h => ?_, by decide +kernel, fun h => ?_⟩
  · exact absurd h.1 (by decide +kernel)
  · exact absurd h.1 (by decide +kernel)

end IpoOs
