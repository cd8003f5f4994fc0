import IpoOs.FsInode

/-!
# Directories

The functions of `ipo_dir.c`. A directory is an inode whose data is an
array of 72-byte entries, seven to a block with eight bytes of padding;
an entry whose `inode` field is zero is a tombstone. Lookups walk every
slot the recorded size covers, additions always use the slot after the
last one, and removals leave a tombstone.

`dir_find_entry` compares the lengths and then that many bytes, while
`dir_remove_entry` compares up to 64 bytes or a NUL; the two comparisons are
kept apart, and agree for the names that the file system writes. The loops
count in natural numbers where the source counts in 32 bits, and `FsMap`
bounds the sizes that make the difference.
-/

namespace IpoOs

/-! ## C strings

A path or a name that comes from a caller is a string that ends: the subtype
`CString`. A name inside a block is a pointer into the block. -/

/-- The characters of a C string, without the terminating NUL. -/
abbrev Str := List UInt8

/-- A C string: its characters, none of them NUL. -/
structure CString where
  chars : Str
  noNul : (0 : UInt8) ∉ chars

def cstr (s : Str) : Buf := fun i => s.getD i 0

/-- `strncmp` from offset `i`, with `n` characters left. -/
def strncmpFrom (a b : Buf) : (n i : Nat) → Int
  | 0, _ => 0
  | n + 1, i =>
      if a i ≠ 0 ∧ b i ≠ 0 ∧ a i = b i then strncmpFrom a b n (i + 1)
      else (a i).toNat - (b i).toNat

def strncmp (a b : Buf) (n : Nat) : Int := strncmpFrom a b n 0

/-- `strcmp` with a string as second argument: its NUL ends the comparison. -/
def strcmp (a : Buf) (s : Str) : Int := strncmpFrom a (cstr s) (s.length + 1) 0

/-- `strlen` of a buffer of which `n` bytes are left at offset `i`. -/
def strlenFrom (a : Buf) : (n i : Nat) → Nat
  | 0, _ => 0
  | n + 1, i => if a i = 0 then 0 else 1 + strlenFrom a n (i + 1)

/-- `/`. -/
def slash : UInt8 := 47

/-- The string `.`. -/
def dot : Str := [46]

/-- The string `..`. -/
def dotdot : Str := [46, 46]

/-- A character `is_valid_filename` accepts. -/
def isNameChar (c : UInt8) : Bool :=
  (65 ≤ c && c ≤ 90) || (97 ≤ c && c ≤ 122) || (48 ≤ c && c ≤ 57)
    || c == 95 || c == 45 || c == 46

def isValidFilename (name : Str) : Bool :=
  name ≠ [] && name.length < 64 && name.all isNameChar && name ≠ dot && name ≠ dotdot

/-! ## Entries in a block

A slot is addressed by its number in the directory, and its block is looked
up through the block map. A slot whose block is not mapped is skipped, and a
block that cannot be read ends the search. -/

/-- The `inode` field of the entry at byte offset `off`. -/
def entryInode (buf : Block) (off : Nat) : UInt32 := buf.word off

/-- The `name` field of the entry at byte offset `off`, as a pointer into the
block. -/
def entryName (buf : Block) (off : Nat) : Buf := fun i => buf (off + (8 + i))

/-- `name_len`, or `strlen(name)` when it is zero. -/
def entryNameLen (buf : Block) (off : Nat) : Nat :=
  if buf (off + 5) ≠ 0 then (buf (off + 5)).toNat
  else strlenFrom (entryName buf off) (512 - (off + 8)) 0

/-- The comparison of `dir_find_entry` with a live entry of that name. -/
def entryMatches (buf : Block) (off : Nat) (name : Str) : Bool :=
  entryInode buf off ≠ 0 && entryNameLen buf off = name.length
    && 0 < entryNameLen buf off
    && strncmp (entryName buf off) (cstr name) (entryNameLen buf off) = 0

def DirEntry.nameBytes (e : DirEntry) : List UInt8 := (List.ofFn e.name).take e.nameLen.toNat

/-- The entry `dir_add_entry` writes. -/
def makeEntry (inodeNo : Nat) (type : UInt8) (name : Str) : DirEntry where
  inode := UInt32.ofNat inodeNo
  type := type
  nameLen := UInt8.ofNat (min name.length 63)
  name := fun i => cstr (name.take 63) i.val

section

variable {σ : Type} (dev : BlockDev σ) (sb : Superblock)

/-- The block of slot `e` for `dir_find_entry`: direct pointers are read from
the record, the others through the block map. -/
def findPhys (din : Inode) (e : Nat) : Prog σ (Option Nat) :=
  if h : e / 7 < 6 then pure (some (din.direct ⟨e / 7, h⟩).toNat)
  else do
    let r ← getDataBlockForInode dev sb din (e / 7) false
    pure r.1

/-- `dir_find_entry` from slot `e` on. -/
def dirFindFrom (din : Inode) (name : Str) :
    (n e : Nat) → Prog σ (Option (DirEntry × Nat × Nat))
  | 0, _ => pure none
  | n + 1, e => do
      match ← findPhys dev sb din e with
      | none => dirFindFrom din name n (e + 1)
      | some phys =>
          if phys = 0 then dirFindFrom din name n (e + 1)
          else do
            match ← dev.read phys with
            | none => pure none
            | some buf =>
                if entryMatches buf (e % 7 * 72) name then
                  pure (some (DirEntry.decode buf (e % 7 * 72), phys, e % 7))
                else dirFindFrom din name n (e + 1)

/-- `dir_find_entry`: the entry, its block and its index in the block. -/
def dirFindEntry (dirInodeNo : Nat) (name : Str) :
    Prog σ (Option (DirEntry × Nat × Nat)) := do
  match ← readInode dev sb dirInodeNo with
  | none => pure none
  | some din =>
      if din.isDir then dirFindFrom dev sb din name (din.size.toNat / 72) 0
      else pure none

def dirAddEntry (dirInodeNo : Nat) (name : Str) (inodeNo : Nat) (type : UInt8) :
    Prog σ Bool := do
  match ← readInode dev sb dirInodeNo with
  | none => pure false
  | some din =>
      if ¬ din.isDir then pure false
      else if ¬ isValidFilename name then pure false
      else do
        match ← dirFindEntry dev sb dirInodeNo name with
        | some _ => pure false
        | none => do
            let entries := din.size.toNat / 72
            let r ← getDataBlockForInode dev sb din (entries / 7) true
            match r.1 with
            | none => pure false
            | some phys => do
                match ← dev.read phys with
                | none => pure false
                | some buf => do
                    let de := makeEntry inodeNo type name
                    if ← dev.write phys (buf.patch (entries % 7 * 72) 72 de.encode) then do
                      let _ ← writeInode dev sb dirInodeNo
                        { r.2 with size := r.2.size + 72 }
                      pure true
                    else pure false

/-- The entry at byte offset `off` made a tombstone. -/
def killEntry (buf : Block) (off : Nat) : Block :=
  ((buf.putWord off 0).putByte (off + 8) 0).putByte (off + 5) 0

/-- `dir_remove_entry` from slot `e` on. -/
def dirRemoveFrom (din : Inode) (name : Str) : (n e : Nat) → Prog σ Bool
  | 0, _ => pure false
  | n + 1, e => do
      let r ← getDataBlockForInode dev sb din (e / 7) false
      match r.1 with
      | none => dirRemoveFrom din name n (e + 1)
      | some phys => do
          match ← dev.read phys with
          | none => pure false
          | some buf =>
              let off := e % 7 * 72
              if entryInode buf off ≠ 0 ∧ strncmp (entryName buf off) (cstr name) 64 = 0
              then do
                let target ← readInode dev sb (entryInode buf off).toNat
                if target.any Inode.isProtected then pure false
                else if strcmp (entryName buf off) dot = 0
                    ∨ strcmp (entryName buf off) dotdot = 0 then pure false
                else dev.write phys (killEntry buf off)
              else dirRemoveFrom din name n (e + 1)

def dirRemoveEntry (dirInodeNo : Nat) (name : Str) : Prog σ Bool := do
  match ← readInode dev sb dirInodeNo with
  | none => pure false
  | some din => dirRemoveFrom dev sb din name (din.size.toNat / 72) 0

end

end IpoOs
