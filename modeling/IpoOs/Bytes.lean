import Mathlib.Tactic.Ring
import Mathlib.Tactic.Linarith

/-!
# Byte buffers

Buffers of bytes by offset, the little-endian words stored in them, and
`patch`, the copy of a run of bytes into a buffer. Everything a later
proof needs is one of two facts: a read inside a patched run sees the
source, and a read outside it sees the old buffer.

A buffer is a function from offsets, defined everywhere, so that writing
past its end needs no side condition: what a function of the source may
write is said where that function is modelled. Words are little-endian and
have the width of the field, which makes the round trip of a word
unconditional.

The lemmas of a patch come in pairs, inside and outside. They are enough to
read any field of a record back from a block that holds several of them, and
the record modules use nothing else.
-/

namespace IpoOs

/-- A buffer, as its byte at each offset. -/
abbrev Buf := Nat → UInt8

namespace Buf

/-- `len` bytes of `src` copied to offset `off`. -/
def patch (b : Buf) (off len : Nat) (src : Buf) : Buf :=
  fun i => if off ≤ i ∧ i < off + len then src (i - off) else b i

/-- The little-endian 32-bit word at byte offset `off`. -/
def word (b : Buf) (off : Nat) : UInt32 :=
  UInt32.ofNat ((b off).toNat + 256 * (b (off + 1)).toNat
    + 65536 * (b (off + 2)).toNat + 16777216 * (b (off + 3)).toNat)

def wordBytes (v : UInt32) : Buf := fun k => UInt8.ofNat (v.toNat / 256 ^ k)

/-- A word stored at byte offset `off`. -/
def putWord (b : Buf) (off : Nat) (v : UInt32) : Buf :=
  b.patch off 4 (wordBytes v)

/-- One byte stored at offset `off`. -/
def putByte (b : Buf) (off : Nat) (v : UInt8) : Buf :=
  fun i => if i = off then v else b i

def zero : Buf := fun _ => 0

/-! ## Reads of a patched buffer

A patch is the source inside its run and the buffer outside it. With
`patch_none` a patch of no bytes is no patch. -/

theorem patch_in {b src : Buf} {off len i : Nat} (h1 : off ≤ i)
    (h2 : i < off + len) : b.patch off len src i = src (i - off) :=
  if_pos ⟨h1, h2⟩

theorem patch_out {b src : Buf} {off len i : Nat}
    (h : i < off ∨ off + len ≤ i) : b.patch off len src i = b i :=
  if_neg (by omega)

theorem patch_none (b src : Buf) (off : Nat) : b.patch off 0 src = b := by
  funext i
  exact patch_out (by omega)

@[simp] theorem putByte_self (b : Buf) (off : Nat) (v : UInt8) :
    b.putByte off v off = v := if_pos rfl

theorem putByte_of_ne {b : Buf} {off i : Nat} {v : UInt8} (h : i ≠ off) :
    b.putByte off v i = b i := if_neg h

/-! ## Words

A word is read from four bytes and written to four bytes. Two words that do
not overlap do not disturb each other, which is all that the fields of a
record need. -/

theorem word_congr {a b : Buf} {i j : Nat}
    (h : ∀ k, k < 4 → a (i + k) = b (j + k)) : a.word i = b.word j := by
  have h0 := h 0 (by omega)
  have h1 := h 1 (by omega)
  have h2 := h 2 (by omega)
  have h3 := h 3 (by omega)
  simp only [Nat.add_zero] at h0
  simp only [word, h0, h1, h2, h3]

@[simp] theorem word_zero (off : Nat) : zero.word off = 0 := rfl

@[simp] theorem word_wordBytes (v : UInt32) : (wordBytes v).word 0 = v := by
  apply UInt32.toNat_inj.mp
  have hv : v.toNat < 4294967296 := v.toNat_lt
  simp only [word, wordBytes, UInt32.toNat_ofNat', UInt8.toNat_ofNat']
  norm_num
  omega

theorem word_patch_in {b src : Buf} {off len k : Nat} (h : k + 4 ≤ len) :
    (b.patch off len src).word (off + k) = src.word k :=
  word_congr fun i hi => by
    rw [patch_in (by omega) (by omega)]
    congr 1
    omega

theorem word_patch_out {b src : Buf} {off len i : Nat}
    (h : i + 4 ≤ off ∨ off + len ≤ i) :
    (b.patch off len src).word i = b.word i :=
  word_congr fun k hk => patch_out (by omega)

@[simp] theorem word_putWord_self (b : Buf) (off : Nat) (v : UInt32) :
    (b.putWord off v).word off = v := by
  have h := @word_patch_in b (wordBytes v) off 4 0
    (by omega)
  rw [Nat.add_zero, word_wordBytes] at h
  exact h

theorem word_putWord_of_disjoint {b : Buf} {off i : Nat} {v : UInt32}
    (h : i + 4 ≤ off ∨ off + 4 ≤ i) : (b.putWord off v).word i = b.word i :=
  word_patch_out h

end Buf

end IpoOs
