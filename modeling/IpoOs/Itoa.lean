import Mathlib.Data.Nat.Digits.Lemmas
import IpoOs.Bytes

/-!
# Integer conversion

`itoa` and `itoa64` take the digits of a number from the last one on into
an array and copy them back to front into the string. The loop, the copy
and the end of the string each have a limit of their own: 32, 31 and none
in `itoa`, 63, 63 and none in `itoa64`.

The digits are those of `Nat.digits`, and the results compare the string
with the numeral: the characters, the sign, and the end of the string. The
two functions differ in their buffers and in a branch for 0 that returns
without ending the string, which is why the exact condition for them to be
right is part of the result.
-/

namespace IpoOs

/-! ## Runs of bytes

Bytes put one after another into a buffer. -/

/-- The bytes of a list stored from `off` on. -/
def Buf.putAll (b : Buf) (off : Nat) : List UInt8 → Buf
  | [] => b
  | c :: l => (b.putByte off c).putAll (off + 1) l

namespace Buf

variable (b : Buf) {off i : Nat} (l l' : List UInt8)

theorem putAll_before (h : i < off) : b.putAll off l i = b i := by
  induction l generalizing b off with
  | nil => rfl
  | cons c l ih =>
      rw [putAll, ih _ (by omega), putByte_of_ne (by omega)]

theorem putAll_after (h : off + l.length ≤ i) : b.putAll off l i = b i := by
  induction l generalizing b off with
  | nil => rfl
  | cons c l ih =>
      rw [List.length_cons] at h
      rw [putAll, ih _ (by omega), putByte_of_ne (by omega)]

theorem putAll_in {k : Nat} (h : k < l.length) : b.putAll off l (off + k) = l[k] := by
  induction l generalizing b off k with
  | nil => exact absurd h (Nat.not_lt_zero k)
  | cons c l ih =>
      rw [putAll]
      cases k with
      | zero =>
          have hself := (b.putByte off c).putAll_before l (Nat.lt_succ_self off)
          rw [putByte_self] at hself
          exact hself
      | succ k =>
          have hstep := @ih (b.putByte off c) (off + 1) k (Nat.lt_of_succ_lt_succ h)
          rw [show off + (k + 1) = off + 1 + k by omega, hstep]
          rfl

theorem putAll_zero {k : Nat} (h : k < l.length) : b.putAll 0 l k = l[k] := by
  have hin := @putAll_in b 0 l k h
  rwa [Nat.zero_add] at hin

theorem putAll_append : b.putAll off (l ++ l') = (b.putAll off l).putAll (off + l.length) l' := by
  induction l generalizing b off with
  | nil => rfl
  | cons c l ih =>
      rw [List.cons_append, putAll, ih, putAll, List.length_cons]
      congr 1
      omega

end Buf

/-! ## The two functions

One definition with the limits as parameters; the two functions of the
source are its two instances, with what each does for 0. -/

/-- The loop that takes the digits: at most `rounds` of them, the last one first. -/
def digitsLoop (base : Nat) : (rounds num : Nat) → List Nat
  | 0, _ => []
  | rounds + 1, num =>
      if num = 0 then [] else num % base :: digitsLoop base rounds (num / base)

/-- `digit < 10 ? '0' + digit : 'a' + (digit - 10)`. -/
def digitChar (d : Nat) : UInt8 :=
  if d < 10 then UInt8.ofNat (48 + d) else UInt8.ofNat (97 + (d - 10))

/-- The loop that copies digits into the string while `len` is below `room`. -/
def putDigits (room : Nat) : List Nat → (len : Nat) → Buf → Nat × Buf
  | [], len, str => (len, str)
  | d :: ds, len, str =>
      if room ≤ len then (len, str)
      else putDigits room ds (len + 1) (str.putByte len (digitChar d))

/-- The conversion of a number that is not zero. -/
def convert (rounds room : Nat) (num : Nat) (str : Buf) (base : Nat) : Nat × Buf :=
  let r := putDigits room (digitsLoop base rounds num).reverse 0 str
  (r.1, r.2.putByte r.1 0)

/-- `itoa`, which does not end the string of zero. -/
def itoa (num : UInt32) (str : Buf) (base : Nat) : Nat × Buf :=
  if num = 0 then (1, str.putByte 0 48) else convert 32 31 num.toNat str base

def itoa64 (num : UInt64) (str : Buf) (base : Nat) : Nat × Buf :=
  if num = 0 then (1, (str.putByte 0 48).putByte 1 0) else convert 63 63 num.toNat str base

/-! ## What the loops leave

The loop leaves the digits from the last one on, and the copy turns them
around. -/

theorem digitsLoop_eq {base : Nat} (hb : 1 < base) (rounds num : Nat) :
    digitsLoop base rounds num = (base.digits num).take rounds := by
  induction rounds generalizing num with
  | zero => rfl
  | succ rounds ih =>
      rw [digitsLoop]
      split
      · rename_i h0
        rw [h0, Nat.digits_zero]
        rfl
      · rename_i h0
        rw [Nat.digits_def' hb (Nat.pos_of_ne_zero h0), List.take_succ_cons, ih]

theorem putDigits_eq (room : Nat) (ds : List Nat) (len : Nat) (str : Buf) :
    putDigits room ds len str = (len + (ds.take (room - len)).length,
      str.putAll len ((ds.take (room - len)).map digitChar)) := by
  induction ds generalizing len str with
  | nil =>
      rw [List.take_nil]
      rfl
  | cons d ds ih =>
      rw [putDigits]
      split
      · rename_i hfull
        rw [Nat.sub_eq_zero_of_le hfull]
        rfl
      · rename_i hroom
        have hleft : room - len = (room - (len + 1)) + 1 := by omega
        rw [ih, hleft, List.take_succ_cons, List.map_cons, Buf.putAll, List.length_cons]
        congr 1
        omega

/-- The digits that reach the string, the first one first. -/
def keptDigits (rounds room base num : Nat) : List Nat :=
  ((base.digits num).take rounds).reverse.take room

theorem convert_eq {base : Nat} (hb : 1 < base) (rounds room num : Nat) (str : Buf) :
    convert rounds room num str base = ((keptDigits rounds room base num).length,
      str.putAll 0 ((keptDigits rounds room base num).map digitChar ++ [0])) := by
  have hput := putDigits_eq room ((base.digits num).take rounds).reverse 0 str
  rw [Nat.sub_zero, Nat.zero_add] at hput
  rw [convert, digitsLoop_eq hb, hput, Buf.putAll_append, List.length_map, Nat.zero_add]
  rfl

/-- All digits reach the string when there are no more than both limits. -/
theorem keptDigits_all {rounds room base num : Nat}
    (h : (base.digits num).length ≤ min rounds room) :
    keptDigits rounds room base num = (base.digits num).reverse := by
  have hrounds : (base.digits num).take rounds = base.digits num :=
    List.take_of_length_le (by omega)
  rw [keptDigits, hrounds, List.take_of_length_le (by rw [List.length_reverse]; omega)]

theorem length_keptDigits (rounds room base num : Nat) : (keptDigits rounds room base num).length
    = min room (min rounds (base.digits num).length) := by
  rw [keptDigits, List.length_take, List.length_reverse, List.length_take]

/-! ## Numerals

A numeral of a number in a base is a sign and digits, without zeros in
front. -/

def digitValue (c : UInt8) : Nat := if c.toNat ≤ 57 then c.toNat - 48 else c.toNat - 87

/-- A character `0`-`9` or `a`-`z` for a digit of the base. -/
def IsDigit (base : Nat) (c : UInt8) : Prop :=
  (48 ≤ c.toNat ∧ c.toNat ≤ 57 ∨ 97 ≤ c.toNat ∧ c.toNat ≤ 122) ∧ digitValue c < base

theorem digitChar_toNat {d : Nat} (h : d < 36) :
    (digitChar d).toNat = if d < 10 then 48 + d else 87 + d := by
  unfold digitChar
  split
  · rw [UInt8.toNat_ofNat', Nat.mod_eq_of_lt (by omega)]
  · rw [UInt8.toNat_ofNat', Nat.mod_eq_of_lt (by omega)]
    omega

theorem digitValue_digitChar {d : Nat} (h : d < 36) : digitValue (digitChar d) = d := by
  rw [digitValue, digitChar_toNat h]
  by_cases h10 : d < 10
  · rw [if_pos h10, if_pos (by omega)]
    omega
  · rw [if_neg h10, if_neg (by omega)]
    omega

theorem isDigit_digitChar {base d : Nat} (hb : base ≤ 36) (h : d < base) :
    IsDigit base (digitChar d) := by
  have h36 : d < 36 := by omega
  refine ⟨?_, by rwa [digitValue_digitChar h36]⟩
  rw [digitChar_toNat h36]
  split <;> omega

/-- The result of a conversion into a string `str`: the length of a numeral of `num` in the base
and a string that holds it with a NUL, within `limit` bytes. -/
structure Numeral (limit base num : Nat) (str : Buf) (r : Nat × Buf) : Prop where
  room : r.1 + 1 ≤ limit
  digits : ∀ k < r.1, IsDigit base (r.2 k)
  value : Nat.ofDigits base ((List.range r.1).map fun k => digitValue (r.2 k)).reverse = num
  leading : num ≠ 0 → 1 ≤ r.1 ∧ r.2 0 ≠ 48
  zero : num = 0 → r.1 = 1
  terminated : r.2 r.1 = 0
  outside : ∀ k, r.1 < k → r.2 k = str k

theorem Numeral.length_le {limit base num : Nat} {str : Buf} {r : Nat × Buf} (hb : 1 < base)
    (h : Numeral limit base num str r) : (base.digits num).length ≤ r.1 := by
  rw [Nat.digits_length_le_iff hb, ← h.value]
  have hlen : ((List.range r.1).map fun k => digitValue (r.2 k)).reverse.length = r.1 := by simp
  have hlt := Nat.ofDigits_lt_base_pow_length hb
    (l := ((List.range r.1).map fun k => digitValue (r.2 k)).reverse) fun d hd => by
      rw [List.mem_reverse, List.mem_map] at hd
      obtain ⟨k, hk, rfl⟩ := hd
      exact (h.digits k (List.mem_range.mp hk)).2
  rwa [hlen] at hlt

theorem numeral_of_digits {limit base num : Nat} (hb : 1 < base) (h36 : base ≤ 36) (h0 : num ≠ 0)
    (hlimit : (base.digits num).length + 1 ≤ limit) (str : Buf) :
    Numeral limit base num str ((base.digits num).length,
      str.putAll 0 ((base.digits num).reverse.map digitChar ++ [0])) := by
  have hlen : ((base.digits num).reverse.map digitChar ++ [0]).length
      = (base.digits num).length + 1 := by simp
  have hget : ∀ k, (hk : k < ((base.digits num).reverse.map digitChar ++ [0]).length) →
      str.putAll 0 ((base.digits num).reverse.map digitChar ++ [0]) k
        = ((base.digits num).reverse.map digitChar ++ [0])[k] := fun _ hk =>
    str.putAll_zero _ hk
  have hbyte : ∀ k, (hk : k < (base.digits num).reverse.length) →
      str.putAll 0 ((base.digits num).reverse.map digitChar ++ [0]) k
        = digitChar (base.digits num).reverse[k] := by
    intro k hk
    rw [List.length_reverse] at hk
    rw [hget k (by omega), List.getElem_append_left (by simpa using hk), List.getElem_map]
  have hsmall : ∀ d ∈ (base.digits num).reverse, d < base := fun d hd =>
    Nat.digits_lt_base hb (List.mem_reverse.mp hd)
  have hvalues : (List.range (base.digits num).length).map (fun k => digitValue
      (str.putAll 0 ((base.digits num).reverse.map digitChar ++ [0]) k))
      = (base.digits num).reverse := by
    refine List.ext_getElem (by simp) fun k hk _ => ?_
    rw [List.length_map, List.length_range] at hk
    have hk' : k < (base.digits num).reverse.length := by rwa [List.length_reverse]
    have hd := hsmall _ (List.getElem_mem hk')
    rw [List.getElem_map, List.getElem_range, hbyte k hk', digitValue_digitChar (by omega)]
  have hne : base.digits num ≠ [] := Nat.digits_ne_nil_iff_ne_zero.mpr h0
  have hpos : 0 < (base.digits num).length := List.length_pos_of_ne_nil hne
  refine ⟨hlimit, fun k hk => ?_, ?_, fun _ => ⟨hpos, ?_⟩, fun hc => absurd hc h0, ?_,
    fun k hk => ?_⟩
  · have hk' : k < (base.digits num).reverse.length := by rwa [List.length_reverse]
    dsimp only
    rw [hbyte k hk']
    exact isDigit_digitChar h36 (hsmall _ (List.getElem_mem _))
  · dsimp only
    rw [hvalues, List.reverse_reverse, Nat.ofDigits_digits]
  · have hlast := Nat.getLast_digit_ne_zero base h0
    have hzero : 0 < (base.digits num).reverse.length := by rwa [List.length_reverse]
    have hhead : (base.digits num).reverse[0] = (base.digits num).getLast hne := by
      rw [List.getElem_reverse, List.getLast_eq_getElem]
      rfl
    have hd := hsmall _ (List.getElem_mem hzero)
    intro h48
    have hchar := hbyte 0 hzero
    dsimp only at h48
    rw [hchar] at h48
    have hnat := congrArg UInt8.toNat h48
    rw [digitChar_toNat (by omega)] at hnat
    rw [← hhead] at hlast
    have h48' : (48 : UInt8).toNat = 48 := rfl
    split at hnat <;> omega
  · have hend := hget (base.digits num).length (by omega)
    dsimp only
    rw [hend, List.getElem_append_right (by simp)]
    simp
  · dsimp only at hk ⊢
    exact Buf.putAll_after _ _ (by omega)

/-- A conversion leaves a numeral exactly when its limits hold all digits. -/
theorem convert_numeral {rounds room limit base num : Nat} (hb : 1 < base) (h36 : base ≤ 36)
    (h0 : num ≠ 0) (hlimit : min rounds room + 1 ≤ limit) (str : Buf) :
    Numeral limit base num str (convert rounds room num str base)
      ↔ num < base ^ min rounds room := by
  have hlength := length_keptDigits rounds room base num
  rw [← Nat.digits_length_le_iff hb]
  constructor
  · intro h
    have hle := h.length_le hb
    rw [convert_eq hb] at hle
    dsimp only at hle
    omega
  · intro h
    rw [convert_eq hb, keptDigits_all h, List.length_reverse]
    exact numeral_of_digits hb h36 h0 (by omega) str

theorem numeral_zero {limit base : Nat} (hb : 1 < base) (hlimit : 2 ≤ limit) {str str' : Buf}
    (h48 : str' 0 = 48) (hout : ∀ k, 1 < k → str' k = str k) :
    Numeral limit base 0 str (1, str') ↔ str' 1 = 0 := by
  constructor
  · exact fun h => h.terminated
  · intro hend
    have hvalue : digitValue 48 = 0 := rfl
    refine ⟨hlimit, fun k hk => ?_, ?_, fun hc => absurd rfl hc, fun _ => rfl, hend, hout⟩
    · obtain rfl : k = 0 := by
        dsimp only at hk
        omega
      dsimp only
      rw [h48]
      exact ⟨Or.inl ⟨by decide, by decide⟩, by rw [hvalue]; omega⟩
    · dsimp only
      rw [List.range_one, List.map_singleton, h48, hvalue]
      rfl

/-! ## Both functions on all numbers

`ItoaFits` is the bound on the digits, and it always holds: a number of 32
bits has at most 32 digits in base 2. -/

/-- The numbers and bases for which `itoa` has room; it ends the string of zero only where the
string has a NUL already. -/
def ItoaFits (num : UInt32) (str : Buf) (base : Nat) : Prop :=
  (num = 0 → str 1 = 0) ∧ ¬ (base = 2 ∧ 2147483648 ≤ num.toNat)

theorem lt_pow_31 {base num : Nat} (hb : 1 < base) (hnum : num < 4294967296) :
    num < base ^ 31 ↔ ¬ (base = 2 ∧ 2147483648 ≤ num) := by
  rcases Nat.eq_or_lt_of_le (Nat.succ_le_of_lt hb) with rfl | h3
  · have hpow : Nat.succ 1 ^ 31 = 2147483648 := by norm_num
    omega
  · have hpow : 3 ^ 31 ≤ base ^ 31 := Nat.pow_le_pow_left h3 31
    have h3pow : (4294967296 : Nat) ≤ 3 ^ 31 := by norm_num
    omega

theorem lt_pow_63 {base num : Nat} (hb : 1 < base) (hnum : num < 18446744073709551616) :
    num < base ^ 63 ↔ ¬ (base = 2 ∧ 9223372036854775808 ≤ num) := by
  rcases Nat.eq_or_lt_of_le (Nat.succ_le_of_lt hb) with rfl | h3
  · have hpow : Nat.succ 1 ^ 63 = 9223372036854775808 := by norm_num
    omega
  · have hpow : 3 ^ 63 ≤ base ^ 63 := Nat.pow_le_pow_left h3 63
    have h3pow : (18446744073709551616 : Nat) ≤ 3 ^ 63 := by norm_num
    omega

theorem itoa_numeral {base : Nat} (hb : 1 < base) (h36 : base ≤ 36) (num : UInt32) (str : Buf) :
    Numeral 33 base num.toNat str (itoa num str base) ↔ ItoaFits num str base := by
  unfold itoa ItoaFits
  split
  · rename_i h0
    rw [h0]
    have hnot : ¬ (base = 2 ∧ 2147483648 ≤ (0 : UInt32).toNat) := fun hc => absurd hc.2 (by decide)
    have hzero := @numeral_zero 33 base hb (by decide) str (str.putByte 0 48) (Buf.putByte_self ..)
      fun k hk => Buf.putByte_of_ne (by omega)
    rw [Buf.putByte_of_ne (by decide)] at hzero
    exact hzero.trans ⟨fun h => ⟨fun _ => h, hnot⟩, fun h => h.1 rfl⟩
  · rename_i h0
    have hne : num.toNat ≠ 0 := fun hc => h0 (UInt32.toNat_inj.mp hc)
    rw [convert_numeral hb h36 hne (by decide), show min 32 31 = 31 from rfl,
      lt_pow_31 hb num.toNat_lt]
    exact ⟨fun h => ⟨fun hc => absurd hc h0, h⟩, fun h => h.2⟩

theorem itoa64_numeral {base : Nat} (hb : 1 < base) (h36 : base ≤ 36) (num : UInt64) (str : Buf) :
    Numeral 65 base num.toNat str (itoa64 num str base)
      ↔ ¬ (base = 2 ∧ 9223372036854775808 ≤ num.toNat) := by
  unfold itoa64
  split
  · rename_i h0
    rw [h0]
    have hnot : ¬ (base = 2 ∧ 9223372036854775808 ≤ (0 : UInt64).toNat) :=
      fun hc => absurd hc.2 (by decide)
    have hzero := @numeral_zero 65 base hb (by decide) str ((str.putByte 0 48).putByte 1 0)
      (by rw [Buf.putByte_of_ne (by decide), Buf.putByte_self])
      fun k hk => by rw [Buf.putByte_of_ne (by omega), Buf.putByte_of_ne (by omega)]
    exact hzero.trans ⟨fun _ => hnot, fun _ => Buf.putByte_self ..⟩
  · rename_i h0
    have hne : num.toNat ≠ 0 := fun hc => h0 (UInt64.toNat_inj.mp hc)
    rw [convert_numeral hb h36 hne (by decide), show min 63 63 = 63 from rfl,
      lt_pow_63 hb num.toNat_lt]

/-- Up to 32 bits the two differ exactly where `itoa` has no room. -/
theorem itoa_eq_itoa64 {base : Nat} (hb : 1 < base) (num : UInt32) (str : Buf) :
    itoa num str base = itoa64 num.toUInt64 str base ↔ ItoaFits num str base := by
  have hlt := num.toNat_lt
  have hnat : num.toUInt64.toNat = num.toNat := UInt32.toNat_toUInt64 num
  unfold itoa itoa64 ItoaFits
  rw [hnat]
  by_cases h0 : num = 0
  · have h64 : num.toUInt64 = 0 := by
      rw [h0]
      rfl
    have hnot : ¬ (base = 2 ∧ 2147483648 ≤ num.toNat) := by
      rw [h0]
      exact fun hc => absurd hc.2 (by decide)
    rw [if_pos h0, if_pos h64]
    constructor
    · intro h
      have h1 := congrFun (Prod.mk.inj h).2 1
      rw [Buf.putByte_of_ne (by decide), Buf.putByte_self] at h1
      exact ⟨fun _ => h1, hnot⟩
    · intro h
      refine congrArg (Prod.mk 1) (funext fun k => ?_)
      rcases em (k = 1) with rfl | hk
      · rw [Buf.putByte_of_ne (by decide), Buf.putByte_self, h.1 h0]
      · exact (Buf.putByte_of_ne hk).symm
  · have h64 : num.toUInt64 ≠ 0 := by
      intro hc
      have hz := congrArg UInt64.toNat hc
      rw [hnat] at hz
      exact h0 (UInt32.toNat_inj.mp hz)
    rw [if_neg h0, if_neg h64, convert_eq hb, convert_eq hb]
    have h31 := lt_pow_31 hb hlt
    have h63 := lt_pow_63 hb (Nat.lt_trans hlt (by decide))
    rw [← Nat.digits_length_le_iff hb] at h31 h63
    have hlen63 := h63.mpr fun hc => by omega
    rw [@keptDigits_all 63 63 base num.toNat (by omega), List.length_reverse]
    constructor
    · intro h
      have hlen := (Prod.mk.inj h).1
      rw [length_keptDigits] at hlen
      exact ⟨fun hc => absurd hc h0, h31.mp (by omega)⟩
    · intro h
      have hlen31 := h31.mpr h.2
      rw [keptDigits_all (by omega), List.length_reverse]

/-- Both conversions in every base, and where they agree. -/
theorem itoa_exact {base : Nat} (hb : 2 ≤ base) (h36 : base ≤ 36) (str : Buf) :
    (∀ num : UInt32, Numeral 33 base num.toNat str (itoa num str base) ↔ ItoaFits num str base)
    ∧ (∀ num : UInt64, Numeral 65 base num.toNat str (itoa64 num str base)
      ↔ ¬ (base = 2 ∧ 9223372036854775808 ≤ num.toNat))
    ∧ ∀ num : UInt32, itoa num str base = itoa64 num.toUInt64 str base ↔ ItoaFits num str base :=
  ⟨fun num => itoa_numeral hb h36 num str, fun num => itoa64_numeral hb h36 num str,
    fun num => itoa_eq_itoa64 hb num str⟩

theorem itoa_exact_hex :
    Numeral 33 16 (255 : UInt32).toNat Buf.zero (itoa 255 Buf.zero 16)
    ∧ Numeral 65 16 (255 : UInt64).toNat Buf.zero (itoa64 255 Buf.zero 16)
    ∧ itoa 255 Buf.zero 16 = itoa64 (255 : UInt32).toUInt64 Buf.zero 16 := by
  have hb : 2 ≤ 16 := by decide
  have h36 : 16 ≤ 36 := by decide
  have hfits : ItoaFits 255 Buf.zero 16 := ⟨fun h => absurd h (by decide), fun h => by omega⟩
  exact ⟨((itoa_exact hb h36 Buf.zero).1 255).mpr hfits,
    ((itoa_exact hb h36 Buf.zero).2.1 255).mpr fun h => by omega,
    ((itoa_exact hb h36 Buf.zero).2.2 255).mpr hfits⟩

/-- The numbers with the most digits in base two lose one: the last digit in `itoa`, the first in
`itoa64`; and the string of zero is not ended. -/
theorem itoa_limits :
    ¬ Numeral 33 2 (4294967295 : UInt32).toNat Buf.zero (itoa 4294967295 Buf.zero 2)
    ∧ ¬ Numeral 65 2 (18446744073709551615 : UInt64).toNat Buf.zero
      (itoa64 18446744073709551615 Buf.zero 2)
    ∧ ¬ Numeral 33 10 (0 : UInt32).toNat (fun _ => 1) (itoa 0 (fun _ => 1) 10)
    ∧ itoa 4294967295 Buf.zero 2 ≠ itoa64 (4294967295 : UInt32).toUInt64 Buf.zero 2 := by
  refine ⟨fun h => ?_, fun h => ?_, fun h => ?_, fun h => ?_⟩
  · have hlen := h.length_le (by decide)
    exact absurd hlen (by decide +kernel)
  · have hlen := h.length_le (by decide)
    exact absurd hlen (by decide +kernel)
  · exact absurd h.terminated (by decide +kernel)
  · exact absurd (congrArg Prod.fst h) (by decide +kernel)

end IpoOs
