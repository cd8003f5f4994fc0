import IpoOs.FsRecord

/-!
# The block device and the bitmaps

The file system reaches the disk through `block_read` and `block_write`
only, so its code is written over an arbitrary device: a `BlockDev` says
what each of the two does to the device's state, failures included.
`arrayDev` is the device that never fails and behaves as an array of
512-byte blocks; the code over it is what most results are about, and
for it each function below has an equation that says what it computes.

`Prog` is a state monad without any structure of its own: a program is a
function, `run_bind` and its companions take a program apart by rewriting,
and a loop of the source is a recursion whose equation is its definition.
`ReadOnly` is the one property of programs that is proved by going through
their text; it composes, so a search of a directory or a path look-up is
read-only because its parts are.

The bitmaps retry a failed transfer five times. Over a device that never
fails the retries vanish, and `bitmap_get` and `bitmap_set` are the bit of
the block.
-/

namespace IpoOs

/-- A 512-byte block; only offsets below 512 are read or written. -/
abbrev Block := Buf

/-- Code over a state. -/
def Prog (σ α : Type) : Type := σ → α × σ

namespace Prog

instance {σ : Type} : Monad (Prog σ) where
  pure a := fun s => (a, s)
  bind x f := fun s => let (a, s') := x s; f a s'

-- `(rfl)`: simp rewrites with these, and the kernel need not unfold the program
@[simp] theorem run_pure {σ α : Type} (a : α) (s : σ) :
    (pure a : Prog σ α) s = (a, s) := (rfl)

@[simp] theorem run_bind {σ α β : Type} (x : Prog σ α) (f : α → Prog σ β) (s : σ) :
    (x >>= f) s = f (x s).1 (x s).2 := (rfl)

@[simp] theorem run_ite {σ α : Type} (c : Prop) [Decidable c] (x y : Prog σ α) (s : σ) :
    (if c then x else y) s = if c then x s else y s := by
  split <;> rfl

@[simp] theorem run_dite {σ α : Type} (c : Prop) [Decidable c] (x : c → Prog σ α)
    (y : ¬ c → Prog σ α) (s : σ) :
    (if h : c then x h else y h) s = if h : c then x h s else y h s := by
  split <;> rfl

/-- Code that leaves the state as it was. -/
def ReadOnly {σ α : Type} (x : Prog σ α) : Prop := ∀ s, (x s).2 = s

namespace ReadOnly

variable {σ α β : Type}

theorem pure (a : α) : ReadOnly (pure a : Prog σ α) := fun _ => rfl

theorem bind {x : Prog σ α} {f : α → Prog σ β} (hx : ReadOnly x) (hf : ∀ a, ReadOnly (f a)) :
    ReadOnly (x >>= f) := fun s => by
  rw [run_bind, hf, hx]

/-- What read-only code returns, with the state it leaves alone. -/
theorem run_eq {x : Prog σ α} (hx : ReadOnly x) (s : σ) : x s = ((x s).1, s) :=
  Prod.ext rfl (hx s)

end ReadOnly

end Prog

/-! ## Devices

A device may fail a transfer and may change its state in doing so. An array
of blocks is the device whose state is the disk itself. -/

/-- What `block_read` and `block_write` do. A failed read leaves the caller's
buffer as it was; `uninit` is what an uninitialised stack buffer holds. -/
structure BlockDev (σ : Type) where
  read : Nat → Prog σ (Option Block)
  write : Nat → Block → Prog σ Bool
  uninit : Block

/-- An array of blocks. -/
abbrev Disk := Nat → Block

def Disk.set (d : Disk) (i : Nat) (b : Block) : Disk :=
  fun j => if j = i then b else d j

@[simp] theorem Disk.set_self (d : Disk) (i : Nat) (b : Block) : d.set i b i = b :=
  if_pos rfl

theorem Disk.set_of_ne {d : Disk} {i j : Nat} {b : Block} (h : j ≠ i) :
    d.set i b j = d j := if_neg h

theorem Disk.set_eq_self {d : Disk} {i : Nat} {b : Block} (h : d i = b) : d.set i b = d := by
  funext j
  by_cases hj : j = i
  · rw [hj, set_self, h]
  · rw [set_of_ne hj]

theorem Disk.set_set (d : Disk) (i : Nat) (b b' : Block) : (d.set i b).set i b' = d.set i b' := by
  funext j
  by_cases hj : j = i
  · rw [hj, set_self, set_self]
  · rw [set_of_ne hj, set_of_ne hj, set_of_ne hj]

/-- The device that never fails: an array of blocks. -/
def arrayDev (uninit : Block) : BlockDev Disk where
  read i := fun d => (some (d i), d)
  write i b := fun d => (true, d.set i b)
  uninit := uninit

@[simp] theorem arrayDev_read (u : Block) (i : Nat) (d : Disk) :
    (arrayDev u).read i d = (some (d i), d) := (rfl)

@[simp] theorem arrayDev_write (u : Block) (i : Nat) (b : Block) (d : Disk) :
    (arrayDev u).write i b d = (true, d.set i b) := (rfl)

/-! ## The bitmaps

`bitmap_get` answers "clear" when its block cannot be read, which is also
the answer for a clear bit; `bitmap_set` says whether it wrote. -/

section

variable {σ : Type} (dev : BlockDev σ)

/-- `n` attempts at a block read. -/
def readRetry (lba : Nat) : Nat → Prog σ (Option Block)
  | 0 => pure none
  | n + 1 => do
      match ← dev.read lba with
      | some buf => pure (some buf)
      | none => readRetry lba n

/-- `n` attempts at a block write. -/
def writeRetry (lba : Nat) (buf : Block) : Nat → Prog σ Bool
  | 0 => pure false
  | n + 1 => do
      if ← dev.write lba buf then pure true else writeRetry lba buf n

/-- `(buf[inblock] >> (bit_index & 7)) & 1`. -/
def bitOf (buf : Block) (inblock bitIndex : Nat) : Bool :=
  (buf inblock).toNat.testBit (bitIndex % 8)

def withBit (buf : Block) (inblock bitIndex : Nat) (value : Bool) : Block :=
  if value then
    buf.putByte inblock (UInt8.ofNat ((buf inblock).toNat ||| 2 ^ (bitIndex % 8)))
  else
    buf.putByte inblock
      (UInt8.ofNat ((buf inblock).toNat &&& (255 ^^^ 2 ^ (bitIndex % 8))))

/-- `bitmap_get`: five attempts, and `false` when they all fail. -/
def bitmapGet (bitmapStart bitIndex : Nat) : Prog σ Bool := do
  let byteIndex := bitIndex / 8
  let blockOffset := byteIndex / 512
  let inblock := byteIndex % 512
  match ← readRetry dev (u32 (bitmapStart + blockOffset)) 5 with
  | none => pure false
  | some buf => pure (bitOf buf inblock bitIndex)

def bitmapSet (bitmapStart bitIndex : Nat) (value : Bool) : Prog σ Bool := do
  let byteIndex := bitIndex / 8
  let blockOffset := byteIndex / 512
  let inblock := byteIndex % 512
  let lba := u32 (bitmapStart + blockOffset)
  match ← readRetry dev lba 5 with
  | none => pure false
  | some buf => writeRetry dev lba (withBit buf inblock bitIndex value) 5

end

/-! ## The bitmaps on an array of blocks

The two bitmaps are read as functions from bit numbers to truth values, and
a write of one bit changes that bit. -/

/-- The bit of a bitmap that starts at block `start`. -/
def Disk.bit (d : Disk) (start i : Nat) : Bool :=
  bitOf (d (u32 (start + i / 8 / 512))) (i / 8 % 512) i

/-- The disk with one bit of a bitmap changed. -/
def Disk.setBit (d : Disk) (start i : Nat) (value : Bool) : Disk :=
  d.set (u32 (start + i / 8 / 512))
    (withBit (d (u32 (start + i / 8 / 512))) (i / 8 % 512) i value)

@[simp] theorem bitmapGet_array (u : Block) (start i : Nat) (d : Disk) :
    bitmapGet (arrayDev u) start i d = (d.bit start i, d) := (rfl)

@[simp] theorem bitmapSet_array (u : Block) (start i : Nat) (value : Bool) (d : Disk) :
    bitmapSet (arrayDev u) start i value d = (true, d.setBit start i value) := (rfl)

theorem bitOf_withBit_self (buf : Block) (k i : Nat) (value : Bool) :
    bitOf (withBit buf k i value) k i = value := by
  have hi : i % 8 < 8 := Nat.mod_lt _ (by decide)
  cases value with
  | true =>
      simp only [bitOf, withBit, if_true, Buf.putByte_self, UInt8.toNat_ofNat']
      rw [Nat.testBit_mod_two_pow, Nat.testBit_or, Nat.testBit_two_pow_self]
      simp [hi]
  | false =>
      simp only [bitOf, withBit, Bool.false_eq_true, if_false, Buf.putByte_self,
        UInt8.toNat_ofNat']
      rw [Nat.testBit_mod_two_pow, Nat.testBit_and, Nat.testBit_xor,
        Nat.testBit_two_pow_self, show (255 : Nat) = 2 ^ 8 - 1 from rfl,
        Nat.testBit_two_pow_sub_one]
      simp [hi]

theorem bitOf_withBit_of_ne {buf : Block} {k k' i j : Nat} {value : Bool}
    (h : k' ≠ k ∨ j % 8 ≠ i % 8) :
    bitOf (withBit buf k i value) k' j = bitOf buf k' j := by
  by_cases hk : k' = k
  · subst hk
    have hij : j % 8 ≠ i % 8 := h.resolve_left (fun hc => hc rfl)
    have hj : j % 8 < 8 := Nat.mod_lt _ (by decide)
    have hbuf : (buf k').toNat < 2 ^ 8 := (buf k').toNat_lt
    cases value with
    | true =>
        simp only [bitOf, withBit, if_true, Buf.putByte_self, UInt8.toNat_ofNat']
        rw [Nat.testBit_mod_two_pow, Nat.testBit_or, Nat.testBit_two_pow_of_ne hij.symm]
        simp [hj]
    | false =>
        simp only [bitOf, withBit, Bool.false_eq_true, if_false, Buf.putByte_self,
          UInt8.toNat_ofNat']
        rw [Nat.testBit_mod_two_pow, Nat.testBit_and, Nat.testBit_xor,
          Nat.testBit_two_pow_of_ne hij.symm, show (255 : Nat) = 2 ^ 8 - 1 from rfl,
          Nat.testBit_two_pow_sub_one]
        simp [hj]
  · cases value <;> simp [bitOf, withBit, Buf.putByte_of_ne hk]

@[simp] theorem Disk.bit_setBit_self (d : Disk) (start i : Nat) (value : Bool) :
    (d.setBit start i value).bit start i = value := by
  simp [Disk.bit, Disk.setBit, bitOf_withBit_self]

/-- Bits of one bitmap are independent, as long as the bitmap does not wrap
around the end of the block numbers. -/
theorem Disk.bit_setBit_of_ne {d : Disk} {start i j : Nat} {value : Bool}
    (hij : j ≠ i) (hi : start + i / 4096 < 4294967296)
    (hj : start + j / 4096 < 4294967296) :
    (d.setBit start i value).bit start j = d.bit start j := by
  have hi' : start + i / 8 / 512 < 4294967296 := by omega
  have hj' : start + j / 8 / 512 < 4294967296 := by omega
  simp only [Disk.bit, Disk.setBit, u32_of_lt hi', u32_of_lt hj']
  by_cases hb : j / 8 / 512 = i / 8 / 512
  · rw [hb, Disk.set_self]
    exact bitOf_withBit_of_ne (by omega)
  · rw [Disk.set_of_ne (by omega)]

theorem Disk.setBit_of_ne {d : Disk} {start i q : Nat} {value : Bool}
    (h : q ≠ u32 (start + i / 8 / 512)) : d.setBit start i value q = d q :=
  Disk.set_of_ne h

end IpoOs
