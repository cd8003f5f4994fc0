import IpoOs.EdDir

/-!
# The commands of the editor

`dir_add_entry`, `dir_remove_entry` and the commands `mkdir`, `write_text`,
`put` and `delete` of `disk_editor.py`, with the helpers they share cut
out. What a command did before it raised is not undone, and a failed
allocation is the index `-1`, which the code goes on with until a record
is packed.

The commands are run one after the other on an image, which is how the
editor's own scripts use it, and `EdCommand.run` is the state after a
command that returned. Integers are checked where `struct.pack` checks them,
and nowhere else.
-/

namespace IpoOs

/-! ## Entries

An entry is packed with the length of the name in characters, while the 64
bytes hold its UTF-8; it is patched into the last block by slicing, so an
entry that crosses the end of the block makes the block too long. -/

/-- A number `struct.pack` takes for a `B` field. -/
def fitsByte (n : Int) : Prop := 0 ≤ n ∧ n < 256

instance (n : Int) : Decidable (fitsByte n) := inferInstanceAs (Decidable (_ ∧ _))

/-- A packed `B` field. -/
def packByte (n : Int) : UInt8 := UInt8.ofNat n.toNat

/-- `struct.pack(DIRENTRY_FMT, ...)`: a name longer than the field is cut, its length
is that of the string. -/
def packEntry (ino typ : Int) (nameLen : Nat) (name : List UInt8) : Ed DirEntry :=
  if fitsWord ino ∧ fitsByte typ ∧ nameLen < 256 then
    pure
      { inode := packWord ino
        type := packByte typ
        nameLen := UInt8.ofNat nameLen
        name := fun i => name.getD i.val 0 }
  else Ed.raise .struct

/-- `DiskImage.dir_add_entry`. An entry that reaches over the end of its block makes
the block longer, which `write_block` refuses. -/
def edDirAddEntry (dirino : Int) (name : PyStr) (ino typ : Int) : Ed Bool := do
  let din ← edReadInode dirino
  match ← edFindEntry dirino name with
  | some _ => pure false
  | none => do
      let entry ← packEntry ino typ name.length (encodeUtf8 name)
      let r ← edGetBlockForInode din (din.size / 512) true
      let blk ← readBlock r.1
      writeBytes r.1 (max 512 (din.size % 512 + 72)) (blk.patch (din.size % 512) 72 entry.encode)
      edWriteInode dirino { r.2 with size := r.2.size + 72 }
      pure true

/-! ## Removal of an entry

All entries but the one removed are written back without gaps. The blocks at
the end that are no longer needed are released in the bitmap. -/

/-- The blocks of a directory from block `b` on, `n` of them; none when one of them is
not mapped. -/
def edReadAll (inode : PyInode) : (n b : Nat) → Ed (Option (List Block))
  | 0, _ => pure (some [])
  | n + 1, b => do
      let r ← edGetBlockForInode inode b false
      if r.1 < 0 then pure none
      else do
        let blk ← readBlock r.1
        let rest ← edReadAll inode n (b + 1)
        pure (rest.map (blk :: ·))

/-- The slots that stay when the entries of a name go, live or not. -/
def edKept (blocks : List Block) (name : PyStr) (n : Nat) : List Nat :=
  (List.range n).filter fun i =>
    decodeIgnore 64 (DirEntry.decode (joined blocks) (72 * i)).nameBytes ≠ name

/-- Block `b` of the kept slots put together. -/
def keptBlock (blocks : List Block) (kept : List Nat) (b : Nat) : Block := fun i =>
  if i < 512 ∧ 512 * b + i < 72 * kept.length then
    joined blocks (72 * kept.getD ((512 * b + i) / 72) 0 + (512 * b + i) % 72)
  else 0

/-- The blocks of a file written from block `b` on, `n` of them. -/
def edWriteBlocks (content : Nat → Block) : (n b : Nat) → PyInode → Ed PyInode
  | 0, _, inode => pure inode
  | n + 1, b, inode => do
      let r ← edGetBlockForInode inode b true
      writeBlock r.1 (content b)
      edWriteBlocks content n (b + 1) r.2

/-- The bits of blocks `b` on of a directory cleared, `n` of them; the pointers stay. -/
def edDropBlocks (inode : PyInode) : (n b : Nat) → Ed Unit
  | 0, _ => pure ()
  | n + 1, b => do
      let r ← edGetBlockForInode inode b false
      let sb ← superblock
      if r.1 ≠ 0 ∧ r.1 ≥ sb.dataBlocksStart.toNat then do
        edBitmapSet sb.blockBitmapStart.toNat (r.1 - sb.dataBlocksStart.toNat) false
        edDropBlocks inode n (b + 1)
      else edDropBlocks inode n (b + 1)

def edDirRemoveEntry (dirino : Int) (name : PyStr) : Ed Bool := do
  let din ← edReadInode dirino
  if din.size = 0 then pure false
  else do
    match ← edReadAll din (blocksFor din.size) 0 with
    | none => pure false
    | some blocks =>
        let kept := edKept blocks name (din.size / 72)
        if kept.length = din.size / 72 then pure false
        else do
          let needed := blocksFor (72 * kept.length)
          let din' ← edWriteBlocks (keptBlock blocks kept) needed 0 din
          edDropBlocks din' (blocksFor din.size - needed) needed
          edWriteInode dirino { din' with size := 72 * kept.length }
          pure true

/-! ## Release of blocks

The editor's own release clears bits and nulls pointers, and walks the
double indirect tree as well. -/

def edClearBit (ptr : Int) : Ed Unit := do
  let sb ← superblock
  edBitmapSet sb.blockBitmapStart.toNat (ptr - sb.dataBlocksStart.toNat) false

/-- The direct blocks `i` on released, `n` of them. -/
def edFreeDirect : (n i : Nat) → PyInode → Ed PyInode
  | 0, _, inode => pure inode
  | n + 1, i, inode =>
      if h : i < 6 then
        if inode.direct ⟨i, h⟩ ≠ 0 then do
          edClearBit (inode.direct ⟨i, h⟩)
          edFreeDirect n (i + 1) (inode.setDirect i 0)
        else edFreeDirect n (i + 1) inode
      else pure inode

/-- The bits of entries `i` on of a pointer block cleared, `n` of them. -/
def edFreePtrs (ibuf : Block) : (n i : Nat) → Ed Unit
  | 0, _ => pure ()
  | n + 1, i =>
      if ibuf.word (4 * i) ≠ 0 then do
        edClearBit (ibuf.word (4 * i)).toNat
        edFreePtrs ibuf n (i + 1)
      else edFreePtrs ibuf n (i + 1)

/-- The indirect block and what it points to released. -/
def edFreeIndirect (inode : PyInode) : Ed PyInode :=
  if inode.indirect ≠ 0 then do
    let ibuf ← readBlock inode.indirect
    edFreePtrs ibuf 128 0
    edClearBit inode.indirect
    pure { inode with indirect := 0 }
  else pure inode

/-- The second-level blocks `i` on and what they point to released, `n` of them. -/
def edFreeTables (dibuf : Block) : (n i : Nat) → Ed Unit
  | 0, _ => pure ()
  | n + 1, i =>
      if dibuf.word (4 * i) ≠ 0 then do
        let sibuf ← readBlock (dibuf.word (4 * i)).toNat
        edFreePtrs sibuf 128 0
        edClearBit (dibuf.word (4 * i)).toNat
        edFreeTables dibuf n (i + 1)
      else edFreeTables dibuf n (i + 1)

/-- The double indirect block and what is below it released. -/
def edFreeDouble (inode : PyInode) : Ed PyInode :=
  if inode.doubleIndirect ≠ 0 then do
    let dibuf ← readBlock inode.doubleIndirect
    edFreeTables dibuf 128 0
    edClearBit inode.doubleIndirect
    pure { inode with doubleIndirect := 0 }
  else pure inode

/-! ## The commands

Each command is the sequence of reads and writes of the source, with what
the host contributes (a file's bytes) as an argument. -/

def edDotsBlock (dot ddot : DirEntry) : Block :=
  (Buf.zero.patch 0 72 dot.encode).patch 72 72 ddot.encode

/-- `DiskImage.mkdir` once the parent is known. -/
def edMkdirIn (parent : Int) (name : PyStr) : Ed Unit := do
  let ino ← edAllocateInode
  if ino < 0 then Ed.raise (.disk "no free inode")
  else do
    let block ← edAllocateBlock
    if block < 0 then Ed.raise (.disk "no free block")
    else do
      let dot ← packEntry ino 1 1 [46]
      let ddot ← packEntry parent 1 2 [46, 46]
      writeBlock block (edDotsBlock dot ddot)
      edWriteInode ino
        { ({ PyInode.empty with mode := 1, linksCount := 2 }.setDirect 0 block) with size := 144 }
      if ← edDirAddEntry parent name ino 1 then pure ()
      else Ed.raise (.disk "dir_add failed")

def edMkdir (path : PyStr) : Ed Unit := do
  let (parent, name) ← edPathParent path
  if parent < 0 ∨ name = [] then Ed.raise (.disk "invalid path")
  else do
    match ← edFindEntry parent name with
    | some _ => Ed.raise (.disk "already exists")
    | none => edMkdirIn parent name

def newFile : PyInode := { PyInode.empty with mode := 2, linksCount := 1 }

/-- Block `b` of the bytes of a file, the last one filled up with zeros. -/
def dataBlock (data : List UInt8) (b : Nat) : Block := fun i =>
  if i < 512 then data.getD (512 * b + i) 0 else 0

/-- The end of `write_text`: the contents put in place of the old. -/
def edWriteContents (ino : Int) (data : List UInt8) : Ed Unit := do
  let inode ← edReadInode ino
  let inode' ← edWriteBlocks (dataBlock data) (blocksFor data.length) 0
    { inode with size := data.length }
  edWriteInode ino inode'

/-- `DiskImage.write_text`, which does not look at what `dir_add_entry` returns. -/
def edWriteText (path : PyStr) (text : PyStr) : Ed Unit := do
  let (parent, name) ← edPathParent path
  let ino ← edPathResolve path
  if ino < 0 then do
    let ino ← edAllocateInode
    edWriteInode ino newFile
    let _ ← edDirAddEntry parent name ino 2
    edWriteContents ino (encodeUtf8 text)
  else edWriteContents ino (encodeUtf8 text)

/-- Where `put` places the file: the directory, the name in it and the inode to replace. -/
def edPutTarget (localpath : PyStr) (dest : PyStr) : Ed (Int × PyStr × Int) :=
  if dest = ['/'] then pure (1, basename localpath, -1)
  else do
    let (parent, name) ← edPathParent dest
    if parent < 0 then Ed.raise (.disk "invalid dest path")
    else do
      let name := if name = ['.'] ∨ name = ['.', '.'] then basename localpath else name
      let target ← edPathResolve dest
      if target ≥ 0 then do
        let tinode ← edReadInode target
        if tinode.isDir then pure (target, basename localpath, -1)
        else pure (parent, name, target)
      else pure (parent, name, target)

/-- The blocks `put` releases before it writes. -/
def edPutFree (inode : PyInode) : Ed PyInode := do
  let inode ← edFreeDirect (min 6 (blocksFor inode.size)) 0 inode
  edFreeIndirect inode

/-- The end of `put`: the contents replaced. -/
def edPutContents (target : Int) (data : List UInt8) : Ed Unit := do
  let inode ← edReadInode target
  let inode' ← edPutFree inode
  edWriteInode target { inode' with size := 0 }
  let inode'' ← edWriteBlocks (dataBlock data) (blocksFor data.length) 0 { inode' with size := 0 }
  edWriteInode target { inode'' with size := data.length }

/-- `destpath` of `put` with what stands for the root replaced by it. -/
def putDest (dest : Option PyStr) : PyStr :=
  match dest with
  | none => ['/']
  | some d => if d = [] ∨ d = ['.'] ∨ d = ['.', '/'] then ['/'] else d

/-- `DiskImage.put` of a host file; `content` is none when there is no such file. -/
def edPut (localpath : PyStr) (content : Option (List UInt8)) (dest : Option PyStr) : Ed Unit :=
  match content with
  | none => Ed.raise (.disk "local file not found")
  | some data => do
      let (parent, name, target) ← edPutTarget localpath (putDest dest)
      if target < 0 then do
        let ino ← edAllocateInode
        if ino < 0 then Ed.raise (.disk "no inodes")
        else do
          edWriteInode ino newFile
          if ← edDirAddEntry parent name ino 2 then edPutContents ino data
          else Ed.raise (.disk "dir add failed")
      else edPutContents target data

/-- The end of `delete`: what the inode's record points to and the inode released. -/
def edRelease (ino : Int) (inode : PyInode) : Ed Unit := do
  let inode ← edFreeDirect (min 6 (blocksFor inode.size)) 0 inode
  let inode ← edFreeIndirect inode
  let _ ← edFreeDouble inode
  let sb ← superblock
  edBitmapSet sb.inodeBitmapStart.toNat (ino - 1) false
  edWriteInode ino PyInode.empty

/-- `inode['mode'] & 0x80000000`. -/
def PyInode.isProtected (r : PyInode) : Bool := r.mode / 2147483648 % 2 = 1

def edDelete (path : PyStr) : Ed Bool := do
  let (parent, name) ← edPathParent path
  if parent < 0 then pure false
  else do
    match ← edFindEntry parent name with
    | none => pure false
    | some ent => do
        let inode ← edReadInode ent.inode
        if inode.isProtected then pure false
        else if inode.isDir ∧ inode.size > 144 then pure false
        else do
          if ← edDirRemoveEntry parent name then do
            edRelease ent.inode inode
            pure true
          else pure false

/-! ## Runs of commands

A command that raises ends the run it is in. -/

/-- The commands that change the image. -/
inductive EdCommand where
  | mkdir (path : PyStr)
  | writeText (path text : PyStr)
  | put (localpath : PyStr) (content : Option (List UInt8)) (dest : Option PyStr)
  | delete (path : PyStr)

/-- A command; the result is that of `delete`, and true for the others. -/
def EdCommand.run : EdCommand → Ed Bool
  | .mkdir path => do
      edMkdir path
      pure true
  | .writeText path text => do
      edWriteText path text
      pure true
  | .put localpath content dest => do
      edPut localpath content dest
      pure true
  | .delete path => edDelete path

end IpoOs
