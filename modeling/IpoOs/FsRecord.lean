import IpoOs.Bytes
import Mathlib.Data.Fintype.Basic
import Mathlib.Tactic.FinCases

/-!
# On-disk records

The three records of the volume as the kernel lays them out in a block:
the superblock (36 bytes at the start of block 0), the inode (76 bytes,
six to a block) and the directory entry (72 bytes, seven to a block).
Fields have the width they have in `ipo_fs.h`, so a record read back is
the record written, with no side condition.

Block numbers and byte offsets computed from the fields are natural
numbers; `u32` marks each place where the 32-bit arithmetic can wrap.

A record is encoded into a buffer and decoded from one. `decode_patch` reads
back a record that was patched into a block, and `decode_congr` says that a
record depends on the bytes of its own slot only; no other property of the
encodings is used anywhere.

The padding bytes of an inode are kept: `write_inode` copies the whole
record, and what is said of the 76 bytes of a slot is said of them as well.
-/

namespace IpoOs

/-- A value reduced to `uint32_t`. -/
def u32 (n : Nat) : Nat := n % 4294967296

/-- `uint32_t` subtraction. -/
def sub32 (a b : Nat) : Nat := (4294967296 - b + a) % 4294967296

/-- A `uint32_t` returned through an `int`: with the top bit set it reads as
negative, which every caller takes for failure. -/
def asInt (n : Nat) : Option Nat := if n < 2147483648 then some n else none

theorem u32_of_lt {n : Nat} (h : n < 4294967296) : u32 n = n := Nat.mod_eq_of_lt h

theorem u32_lt (n : Nat) : u32 n < 4294967296 := Nat.mod_lt _ (by decide)

theorem sub32_of_le {a b : Nat} (h : b ≤ a) (ha : a < 4294967296) :
    sub32 a b = a - b := by
  unfold sub32
  omega

theorem asInt_eq_some {n p : Nat} : asInt n = some p ↔ n = p ∧ n < 2147483648 := by
  unfold asInt
  split
  · rename_i h
    simp [h]
  · rename_i h
    simp [h]

theorem asInt_eq_none {n : Nat} : asInt n = none ↔ 2147483648 ≤ n := by
  unfold asInt
  split <;> simp_all

/-! ## Constants

The type bits and the flag of `ipo_fs.h` that the code tests. -/

/-- `IPO_INODE_TYPE_DIR`. -/
def typeDir : UInt8 := 1

/-- `IPO_INODE_TYPE_FILE`. -/
def typeFile : UInt8 := 2

/-- `IPO_INODE_FLAG_PROTECTED`. -/
def flagProtected : UInt32 := 0x80000000

/-! ## The inode

Seventy-six bytes: mode, size and link count, six direct pointers, the two
indirect pointers, and padding. -/

/-- `struct ipo_inode`. -/
@[ext] structure Inode where
  mode : UInt32
  size : UInt32
  linksCount : UInt32
  direct : Fin 6 → UInt32
  indirect : UInt32
  doubleIndirect : UInt32
  pad : Fin 32 → UInt8

namespace Inode

/-- The record `memset` leaves. -/
def zero : Inode where
  mode := 0
  size := 0
  linksCount := 0
  direct := fun _ => 0
  indirect := 0
  doubleIndirect := 0
  pad := fun _ => 0

/-- `mode & IPO_INODE_TYPE_DIR`. -/
def isDir (r : Inode) : Bool := r.mode &&& 1 ≠ 0

/-- `mode & IPO_INODE_FLAG_PROTECTED`. -/
def isProtected (r : Inode) : Bool := r.mode &&& flagProtected ≠ 0

/-- `direct[0]`. -/
abbrev direct0 (r : Inode) : UInt32 := r.direct 0

/-- `direct[l] = p`. -/
def setDirect (r : Inode) (l p : Nat) : Inode :=
  { r with direct := fun i => if i.val = l then UInt32.ofNat p else r.direct i }

/-- The eleven words of the record, in order. -/
def field (r : Inode) : Nat → UInt32
  | 0 => r.mode
  | 1 => r.size
  | 2 => r.linksCount
  | 3 => r.direct 0
  | 4 => r.direct 1
  | 5 => r.direct 2
  | 6 => r.direct 3
  | 7 => r.direct 4
  | 8 => r.direct 5
  | 9 => r.indirect
  | _ => r.doubleIndirect

def encode (r : Inode) : Buf := fun i =>
  if i < 44 then Buf.wordBytes (r.field (i / 4)) (i % 4)
  else if h : i - 44 < 32 then r.pad ⟨i - 44, h⟩ else 0

/-- The record stored at byte offset `off`. -/
def decode (b : Buf) (off : Nat) : Inode where
  mode := b.word off
  size := b.word (off + 4)
  linksCount := b.word (off + 8)
  direct := fun i => b.word (off + (12 + 4 * i.val))
  indirect := b.word (off + 36)
  doubleIndirect := b.word (off + 40)
  pad := fun i => b (off + (44 + i.val))

theorem word_encode (r : Inode) {k : Nat} (hk : k < 11) :
    r.encode.word (4 * k) = r.field k := by
  rw [← Buf.word_wordBytes (r.field k)]
  refine Buf.word_congr fun i hi => ?_
  have hlt : 4 * k + i < 44 := by omega
  have hdiv : (4 * k + i) / 4 = k := by omega
  have hmod : (4 * k + i) % 4 = i := by omega
  simp only [encode, hlt, if_true, hdiv, hmod, Nat.zero_add]

theorem decode_patch (b : Buf) (off : Nat) (r : Inode) :
    decode (b.patch off 76 r.encode) off = r := by
  have hw : ∀ k, k < 11 →
      (b.patch off 76 r.encode).word (off + 4 * k) = r.field k := fun k hk => by
    rw [Buf.word_patch_in (by omega), word_encode r hk]
  ext i
  · exact congrArg UInt32.toNat (hw 0 (by omega))
  · exact congrArg UInt32.toNat (hw 1 (by omega))
  · exact congrArg UInt32.toNat (hw 2 (by omega))
  · have h := hw (3 + i.val) (by omega)
    rw [show 4 * (3 + i.val) = 12 + 4 * i.val by omega] at h
    have hf : r.field (3 + i.val) = r.direct i := by
      fin_cases i <;> rfl
    exact congrArg UInt32.toNat (h.trans hf)
  · exact congrArg UInt32.toNat (hw 9 (by omega))
  · exact congrArg UInt32.toNat (hw 10 (by omega))
  · have hi := i.isLt
    simp only [decode]
    rw [Buf.patch_in (by omega) (by omega)]
    have h1 : ¬ off + (44 + i.val) - off < 44 := by omega
    have h2 : off + (44 + i.val) - off - 44 < 32 := by omega
    simp only [encode, h1, if_false, h2, dif_pos]
    congr 2
    apply Fin.ext
    simp

theorem decode_congr {a b : Buf} {off : Nat}
    (h : ∀ i, off ≤ i → i < off + 76 → a i = b i) : decode a off = decode b off := by
  have hw : ∀ k, k < 11 → a.word (off + 4 * k) = b.word (off + 4 * k) := fun k hk =>
    Buf.word_congr fun i hi => h _ (by omega) (by omega)
  ext i
  · exact congrArg UInt32.toNat (hw 0 (by omega))
  · exact congrArg UInt32.toNat (hw 1 (by omega))
  · exact congrArg UInt32.toNat (hw 2 (by omega))
  · have h3 := hw (3 + i.val) (by omega)
    rw [show 4 * (3 + i.val) = 12 + 4 * i.val by omega] at h3
    exact congrArg UInt32.toNat h3
  · exact congrArg UInt32.toNat (hw 9 (by omega))
  · exact congrArg UInt32.toNat (hw 10 (by omega))
  · have hi := i.isLt
    exact congrArg UInt8.toNat (h (off + (44 + i.val)) (by omega) (by omega))

end Inode

/-! ## The directory entry

Seventy-two bytes: the inode number, the length of the name, the type and 64
bytes for the name, which need not end in a NUL. -/

/-- `struct ipo_dir_entry`; the two `reserved` bytes are written as zero and
never read. -/
@[ext] structure DirEntry where
  inode : UInt32
  type : UInt8
  nameLen : UInt8
  name : Fin 64 → UInt8

namespace DirEntry

def encode (e : DirEntry) : Buf := fun i =>
  if i < 4 then Buf.wordBytes e.inode i
  else if i = 4 then e.type
  else if i = 5 then e.nameLen
  else if h : 8 ≤ i ∧ i - 8 < 64 then e.name ⟨i - 8, h.2⟩ else 0

/-- The entry stored at byte offset `off`. -/
def decode (b : Buf) (off : Nat) : DirEntry where
  inode := b.word off
  type := b (off + 4)
  nameLen := b (off + 5)
  name := fun i => b (off + (8 + i.val))

theorem decode_patch (b : Buf) (off : Nat) (e : DirEntry) :
    decode (b.patch off 72 e.encode) off = e := by
  have hin : ∀ k, k < 72 → b.patch off 72 e.encode (off + k) = e.encode k :=
    fun k hk => by rw [Buf.patch_in (by omega) (by omega), Nat.add_sub_cancel_left]
  ext i
  · refine congrArg UInt32.toNat ?_
    rw [← Buf.word_wordBytes e.inode]
    refine Buf.word_congr fun k hk => ?_
    rw [hin k (by omega), Nat.zero_add]
    simp only [encode, hk, if_true]
  · exact congrArg UInt8.toNat (hin 4 (by omega))
  · exact congrArg UInt8.toNat (hin 5 (by omega))
  · have hi := i.isLt
    refine congrArg UInt8.toNat ?_
    simp only [decode]
    rw [hin (8 + i.val) (by omega)]
    have h1 : ¬ 8 + i.val < 4 := by omega
    have h2 : ¬ 8 + i.val = 4 := by omega
    have h3 : ¬ 8 + i.val = 5 := by omega
    have h4 : 8 ≤ 8 + i.val ∧ 8 + i.val - 8 < 64 := by omega
    simp only [encode, h1, h2, h3, if_false]
    rw [dif_pos h4]
    congr 1
    apply Fin.ext
    simp

theorem decode_congr {a b : Buf} {off off' : Nat}
    (h : ∀ i, i < 72 → a (off + i) = b (off' + i)) :
    decode a off = decode b off' := by
  ext i
  · exact congrArg UInt32.toNat (Buf.word_congr fun k hk => h k (by omega))
  · exact congrArg UInt8.toNat (h 4 (by omega))
  · exact congrArg UInt8.toNat (h 5 (by omega))
  · have hi := i.isLt
    exact congrArg UInt8.toNat (h (8 + i.val) (by omega))

end DirEntry

/-! ## The superblock

Eight bytes of magic and seven words. The block size is compared at a mount
and used nowhere else. -/

/-- `struct ipo_superblock`. -/
@[ext] structure Superblock where
  magic : Fin 8 → UInt8
  fsSizeBlocks : UInt32
  blockSize : UInt32
  inodeCount : UInt32
  inodeBitmapStart : UInt32
  blockBitmapStart : UInt32
  inodeTableStart : UInt32
  dataBlocksStart : UInt32

namespace Superblock

/-- The superblock before anything is mounted. -/
def zero : Superblock where
  magic := fun _ => 0
  fsSizeBlocks := 0
  blockSize := 0
  inodeCount := 0
  inodeBitmapStart := 0
  blockBitmapStart := 0
  inodeTableStart := 0
  dataBlocksStart := 0

/-- The seven words after the magic, in order. -/
def field (s : Superblock) : Nat → UInt32
  | 0 => s.fsSizeBlocks
  | 1 => s.blockSize
  | 2 => s.inodeCount
  | 3 => s.inodeBitmapStart
  | 4 => s.blockBitmapStart
  | 5 => s.inodeTableStart
  | _ => s.dataBlocksStart

def encode (s : Superblock) : Buf := fun i =>
  if h : i < 8 then s.magic ⟨i, h⟩
  else Buf.wordBytes (s.field ((i - 8) / 4)) (i % 4)

def decode (b : Buf) : Superblock where
  magic := fun i => b i.val
  fsSizeBlocks := b.word 8
  blockSize := b.word 12
  inodeCount := b.word 16
  inodeBitmapStart := b.word 20
  blockBitmapStart := b.word 24
  inodeTableStart := b.word 28
  dataBlocksStart := b.word 32

theorem word_encode (s : Superblock) {k : Nat} :
    s.encode.word (8 + 4 * k) = s.field k := by
  rw [← Buf.word_wordBytes (s.field k)]
  refine Buf.word_congr fun i hi => ?_
  have h1 : ¬ 8 + 4 * k + i < 8 := by omega
  have h2 : (8 + 4 * k + i - 8) / 4 = k := by omega
  have h3 : (8 + 4 * k + i) % 4 = i := by omega
  simp only [encode, h1, dif_neg, not_false_eq_true, h2, h3, Nat.zero_add]

theorem decode_patch (b : Buf) (s : Superblock) :
    decode (b.patch 0 36 s.encode) = s := by
  have hw : ∀ k, k < 7 →
      (b.patch 0 36 s.encode).word (8 + 4 * k) = s.field k := fun k hk => by
    have h := @Buf.word_patch_in b s.encode 0 36 (8 + 4 * k)
      (by omega)
    rw [Nat.zero_add] at h
    rw [h, word_encode]
  ext i
  · have hi := i.isLt
    refine congrArg UInt8.toNat ?_
    simp only [decode]
    rw [Buf.patch_in (by omega) (by omega)]
    simp [encode, hi]
  · exact congrArg UInt32.toNat (hw 0 (by omega))
  · exact congrArg UInt32.toNat (hw 1 (by omega))
  · exact congrArg UInt32.toNat (hw 2 (by omega))
  · exact congrArg UInt32.toNat (hw 3 (by omega))
  · exact congrArg UInt32.toNat (hw 4 (by omega))
  · exact congrArg UInt32.toNat (hw 5 (by omega))
  · exact congrArg UInt32.toNat (hw 6 (by omega))

end Superblock

end IpoOs
