import IpoOs.EdBlocks

/-!
# Paths, directories and files of the editor

The read side of `disk_editor.py`: `os.path.normpath`, `path_resolve` and
`path_parent`, the walk over the entries of a directory, and `cat`.

A string is a list of characters and is encoded and decoded as UTF-8; a
name that is not UTF-8 raises when its entry is reached. `dir_entries` is
a generator: it reads all blocks first and unpacks an entry when it is
asked for it, so a search stops at the first match.

Exceptions are part of the result. A generator that raises half way has
yielded what came before, so `edFindFrom` finds an entry that stands in
front of a name that does not decode, and `edDirEntries` raises.
-/

namespace IpoOs

/-! ## Strings

UTF-8 both ways, strict and with errors ignored. A NUL ends nothing on this
side. -/

/-- A string of the editor. -/
abbrev PyStr := List Char

/-- `s.encode()`. -/
def encodeUtf8 (s : PyStr) : List UInt8 := s.flatMap String.utf8EncodeChar

/-- `b.decode()`, where it does not raise. -/
def decodeUtf8 (b : List UInt8) : Option PyStr :=
  b.toByteArray.utf8Decode?.map Array.toList

/-- `b.decode('utf-8', errors='ignore')`, in at most `n` rounds. A byte that starts no
character is dropped. -/
def decodeIgnore : (n : Nat) → List UInt8 → PyStr
  | 0, _ => []
  | _, [] => []
  | n + 1, b :: rest =>
      match (b :: rest).toByteArray.utf8DecodeChar? 0 with
      | some c => c :: decodeIgnore n ((b :: rest).drop c.utf8Size)
      | none => decodeIgnore n rest

def blockBytes (b : Block) : List UInt8 := (List.range 512).map b

/-! ## Path strings

`os.path.normpath` for absolute paths, split at slashes. A path may climb
above the root, where it stays. -/

/-- One component in the loop of `os.path.normpath`. -/
def normStep (absolute : Bool) (comps : List PyStr) (comp : PyStr) : List PyStr :=
  if comp = [] ∨ comp = ['.'] then comps
  else if comp ≠ ['.', '.'] ∨ (¬ absolute ∧ comps = []) ∨ comps.getLast? = some ['.', '.'] then
    comps ++ [comp]
  else comps.dropLast

/-- `os.path.normpath`. Two leading slashes stay two; three and more become one. -/
def normpath (path : PyStr) : PyStr :=
  if path = [] then ['.']
  else
    let slashes :=
      if path.take 1 ≠ ['/'] then 0
      else if path.take 2 = ['/', '/'] ∧ path.take 3 ≠ ['/', '/', '/'] then 2 else 1
    let comps := (path.splitOn '/').foldl (normStep (slashes ≠ 0)) []
    let joined := List.replicate slashes '/' ++ ['/'].intercalate comps
    if joined = [] then ['.'] else joined

/-- `[p for p in path.split('/') if p]`. -/
def pathParts (path : PyStr) : List PyStr := (path.splitOn '/').filter (· ≠ [])

def basename (path : PyStr) : PyStr := (path.splitOn '/').getLastD []

/-! ## Directories

All blocks that the size covers are read first, holes included, and joined;
entries are unpacked at multiples of 72 of the joined bytes, with no regard
to block boundaries. -/

/-- An entry as the editor yields it. -/
structure PyEntry where
  inode : Nat
  type : UInt8
  name : PyStr
  deriving DecidableEq

def liftExcept {α : Type} (r : Except PyError α) : Ed α := fun img => (r, img)

def joined (blocks : List Block) : Buf := fun i => blocks.getD (i / 512) Buf.zero (i % 512)

/-- The blocks of a directory or file from block `b` on, `n` of them, up to the first
that is not mapped. -/
def edReadBlocks (inode : PyInode) : (n b : Nat) → Ed (List Block)
  | 0, _ => pure []
  | n + 1, b => do
      let r ← edGetBlockForInode inode b false
      if r.1 < 0 then pure []
      else do
        let blk ← readBlock r.1
        let rest ← edReadBlocks inode n (b + 1)
        pure (blk :: rest)

/-- Slot `i` of the concatenated blocks, when it is live. -/
def edSlot (blocks : List Block) (i : Nat) : Except PyError (Option PyEntry) :=
  if 512 * blocks.length < 72 * i + 72 then .error .struct
  else
    let e := DirEntry.decode (joined blocks) (72 * i)
    if e.inode = 0 then .ok none
    else
      match decodeUtf8 e.nameBytes with
      | none => .error .unicode
      | some name => .ok (some ⟨e.inode.toNat, e.type, name⟩)

/-- The entries of the slots from `i` on, `n` of them. -/
def edEntriesFrom (blocks : List Block) : (n i : Nat) → Except PyError (List PyEntry)
  | 0, _ => .ok []
  | n + 1, i =>
      match edSlot blocks i with
      | .error e => .error e
      | .ok none => edEntriesFrom blocks n (i + 1)
      | .ok (some e) =>
          match edEntriesFrom blocks n (i + 1) with
          | .error err => .error err
          | .ok rest => .ok (e :: rest)

/-- The first entry of a name among the slots from `i` on, `n` of them. -/
def edFindFrom (blocks : List Block) (name : PyStr) : (n i : Nat) → Except PyError (Option PyEntry)
  | 0, _ => .ok none
  | n + 1, i =>
      match edSlot blocks i with
      | .error e => .error e
      | .ok none => edFindFrom blocks name n (i + 1)
      | .ok (some e) => if e.name = name then .ok (some e) else edFindFrom blocks name n (i + 1)

/-- `(size + BLOCK_SIZE - 1) // BLOCK_SIZE`. -/
def blocksFor (size : Nat) : Nat := (size + 511) / 512

/-- `DiskImage.dir_entries`, run to its end. -/
def edDirEntries (inode : PyInode) : Ed (List PyEntry) :=
  if inode.size = 0 then pure []
  else do
    let blocks ← edReadBlocks inode (blocksFor inode.size) 0
    liftExcept (edEntriesFrom blocks (inode.size / 72) 0)

def edFindEntry (dirino : Int) (name : PyStr) : Ed (Option PyEntry) := do
  let din ← edReadInode dirino
  if din.size = 0 then pure none
  else do
    let blocks ← edReadBlocks din (blocksFor din.size) 0
    liftExcept (edFindFrom blocks name (din.size / 72) 0)

/-! ## Resolution

A component that is not found gives -1, and so does a component below a
file. -/

/-- The component loop of `path_resolve`. -/
def edResolveFrom : List PyStr → Int → Ed Int
  | [], cur => pure cur
  | name :: rest, cur => do
      let inode ← edReadInode cur
      if inode.isDir then do
        match ← edFindEntry cur name with
        | none => pure (-1)
        | some ent => edResolveFrom rest ent.inode
      else pure (-1)

def edPathResolve (path : PyStr) : Ed Int :=
  let path := normpath path
  if path = ['/'] then pure 1
  else if path.take 1 ≠ ['/'] then pure (-1)
  else edResolveFrom (pathParts path) 1

/-- `DiskImage.path_parent`; a path of two slashes has no last component. -/
def edPathParent (path : PyStr) : Ed (Int × PyStr) :=
  let path := normpath path
  if path = ['/'] then pure (-1, [])
  else
    match (pathParts path).getLast? with
    | none => Ed.raise .index
    | some name => do
        let parent := if (pathParts path).length > 1
          then '/' :: ['/'].intercalate (pathParts path).dropLast else ['/']
        let ino ← edPathResolve parent
        pure (ino, name)

/-! ## Files

`cat` reads the blocks that the size covers and cuts the last one. -/

/-- The block loop of `cat`, which does not look at the sign of an index. -/
def edCatBlocks (inode : PyInode) : (n b : Nat) → Ed (List UInt8)
  | 0, _ => pure []
  | n + 1, b => do
      let r ← edGetBlockForInode inode b false
      let blk ← readBlock r.1
      let rest ← edCatBlocks inode n (b + 1)
      pure (blockBytes blk ++ rest)

def edCat (path : PyStr) : Ed (List UInt8) := do
  let ino ← edPathResolve path
  if ino < 0 then Ed.raise (.disk "file not found")
  else do
    let inode ← edReadInode ino
    if inode.isDir then Ed.raise (.disk "is dir")
    else do
      let data ← edCatBlocks inode (blocksFor inode.size) 0
      pure (data.take inode.size)

/-! ## Reading changes nothing

The read side leaves every function of the image alone, whether it returns
or raises. -/

section

variable {γ : Type} {f : DiskImage → γ}

theorem keeps_liftExcept {α : Type} (r : Except PyError α) : Ed.Keeps f (liftExcept r) :=
  fun _ => rfl

theorem keeps_edPointerEntry (ptrBlock : Int) (buf : Block) (idx : Nat) :
    Ed.Keeps f (edPointerEntry ptrBlock buf idx false) :=
  Ed.Keeps.ite (.pure _) (.pure _)

theorem keeps_edGetSingle (ptrBlock : Int) (idx : Nat) :
    Ed.Keeps f (edGetSingle ptrBlock idx false) :=
  (keeps_readBlock _).bind fun _ => keeps_edPointerEntry _ _ _

theorem keeps_edRootTable (field : Int) : Ed.Keeps f (edRootTable field false) :=
  Ed.Keeps.ite (.pure _) (.pure _)

theorem keeps_edGetLeaf (dblBlock : Int) (idx : Nat) :
    Ed.Keeps f (edGetLeaf dblBlock idx false) := by
  refine (keeps_readBlock _).bind fun dibuf => ?_
  refine Ed.Keeps.bind (Ed.Keeps.ite (.pure _) (.pure _)) fun si => ?_
  cases si with
  | none => exact .pure _
  | some si => exact keeps_edGetSingle _ _

/-- `get_block_for_inode` without `alloc` leaves the image alone. -/
theorem keeps_edGetBlock (inode : PyInode) (logical : Nat) :
    Ed.Keeps f (edGetBlockForInode inode logical false) := by
  unfold edGetBlockForInode
  split
  · exact Ed.Keeps.ite (.pure _) (.pure _)
  · refine Ed.Keeps.ite ?_ (Ed.Keeps.ite (.pure _) ?_)
    · refine (keeps_edRootTable _).bind fun block => ?_
      cases block with
      | none => exact .pure _
      | some block => exact (keeps_edGetSingle _ _).bind fun _ => .pure _
    · refine (keeps_edRootTable _).bind fun block => ?_
      cases block with
      | none => exact .pure _
      | some block => exact (keeps_edGetLeaf _ _).bind fun _ => .pure _

theorem keeps_edReadInode (ino : Int) : Ed.Keeps f (edReadInode ino) :=
  keeps_superblock.bind fun _ => Ed.Keeps.ite (.raise _) ((keeps_readBlock _).bind fun _ => .pure _)

theorem keeps_edReadBlocks (inode : PyInode) (n b : Nat) : Ed.Keeps f (edReadBlocks inode n b) := by
  induction n generalizing b with
  | zero => exact .pure _
  | succ n ih =>
      refine (keeps_edGetBlock _ _).bind fun r => Ed.Keeps.ite (.pure _) ?_
      exact (keeps_readBlock _).bind fun _ => (ih (b + 1)).bind fun _ => .pure _

theorem keeps_edFindEntry (dirino : Int) (name : PyStr) : Ed.Keeps f (edFindEntry dirino name) :=
  (keeps_edReadInode _).bind fun _ => Ed.Keeps.ite (.pure _)
    ((keeps_edReadBlocks _ _ _).bind fun _ => keeps_liftExcept _)

theorem keeps_edDirEntries (inode : PyInode) : Ed.Keeps f (edDirEntries inode) :=
  Ed.Keeps.ite (.pure _) ((keeps_edReadBlocks _ _ _).bind fun _ => keeps_liftExcept _)

theorem keeps_edResolveFrom (names : List PyStr) (cur : Int) :
    Ed.Keeps f (edResolveFrom names cur) := by
  induction names generalizing cur with
  | nil => exact .pure _
  | cons name rest ih =>
      refine (keeps_edReadInode _).bind fun inode => Ed.Keeps.ite ?_ (.pure _)
      refine (keeps_edFindEntry _ _).bind fun ent => ?_
      cases ent with
      | none => exact .pure _
      | some ent => exact ih _

theorem keeps_edPathResolve (path : PyStr) : Ed.Keeps f (edPathResolve path) :=
  Ed.Keeps.ite (.pure _) (Ed.Keeps.ite (.pure _) (keeps_edResolveFrom _ _))

end

end IpoOs
