import IpoOs.FsPath

/-!
# The public file system interface

The functions of `ipo_api.c` over the global state of `ipo_state.c`: the
mounted superblock, the start of the volume on the disk, the descriptor
table and the disk itself. Console output is left out.

`is_descendant` is the one loop of the file system that need not end; it
takes the number of rounds it may run, and `none` says that it has not
returned within them.

The functions run in `Prog` over a record of the global variables. Each of
them is written in the order of the source, with its early returns, and the
parts that work on the volume alone are cut out (`createEntry`,
`deleteEntry`, `renameEntry`) so that they can be run over any device and
any superblock: `withFs` gives them those of the mounted volume.

A call that fails midway leaves what it has done. The model does not restore
anything that the code does not restore.
-/

namespace IpoOs

/-- `struct ipo_fd`, less `flags`, which nothing reads or writes. -/
structure Fd where
  used : Bool
  inode : Nat
  offset : Nat

/-- The globals of the file system and the state of the disk. -/
structure Kernel (σ : Type) where
  sb : Superblock
  fsStartLba : UInt32
  fsMounted : Bool
  fds : Nat → Fd
  disk : σ

section

variable {σ α : Type} (dev : UInt32 → BlockDev σ)

/-- Code of the lower layers run on the mounted volume. -/
def withFs (f : BlockDev σ → Superblock → Prog σ α) : Prog (Kernel σ) α := fun k =>
  ((f (dev k.fsStartLba) k.sb k.disk).1,
    { k with disk := (f (dev k.fsStartLba) k.sb k.disk).2 })

def getKernel : Prog (Kernel σ) (Kernel σ) := fun k => (k, k)

def modifyKernel (f : Kernel σ → Kernel σ) : Prog (Kernel σ) Unit := fun k => ((), f k)

/-! ## Formatting

`ipo_fs_format` lays the regions out in 32-bit arithmetic, with eight rounds
for the size of the block bitmap, zeroes them, and builds a root with `/app`
and `/autorun`. `ipo_fs_mount` checks the magic and the block size and keeps
the superblock. -/

def ipoFsInit : Prog (Kernel σ) Unit :=
  modifyKernel fun k =>
    { k with
      sb := Superblock.zero
      fsMounted := false
      fds := fun i => if i < 32 then { k.fds i with used := false } else k.fds i }

/-- The rounds of `ipo_fs_format` that settle `block_bitmap_blocks`; `other`
is the number of blocks outside the bitmap and the data. -/
def blockBitmapRounds (totalBlocks other : Nat) : (n bb : Nat) → Nat
  | 0, bb => bb
  | n + 1, bb =>
      let nb := u32 (sub32 (sub32 totalBlocks other) bb + 4095) / 4096
      if nb = bb then bb else blockBitmapRounds totalBlocks other n nb

/-- `inode_table_blocks` of `ipo_fs_format`. -/
def inodeTableBlocks (totalInodes : Nat) : Nat := u32 (u32 (totalInodes * 76) + 511) / 512

/-- `inode_bitmap_blocks` of `ipo_fs_format`. -/
def inodeBitmapBlocks (totalInodes : Nat) : Nat := u32 (totalInodes + 4095) / 4096

/-- `block_bitmap_blocks` of `ipo_fs_format`. -/
def blockBitmapBlocks (totalBlocks totalInodes : Nat) : Nat :=
  blockBitmapRounds totalBlocks
    (1 + inodeBitmapBlocks totalInodes + inodeTableBlocks totalInodes) 8 1

/-- `data_blocks` of `ipo_fs_format`. -/
def dataBlocks (totalBlocks totalInodes : Nat) : Nat :=
  sub32 (sub32 totalBlocks (1 + inodeBitmapBlocks totalInodes + inodeTableBlocks totalInodes))
    (blockBitmapBlocks totalBlocks totalInodes)

def ipoFsMagicStr : Str := [73, 80, 79, 95, 70, 83]

/-- The superblock `ipo_fs_format` writes. -/
def formatSuperblock (totalBlocks totalInodes : UInt32) : Superblock :=
  let ib := inodeBitmapBlocks totalInodes.toNat
  let bb := blockBitmapBlocks totalBlocks.toNat totalInodes.toNat
  let it := inodeTableBlocks totalInodes.toNat
  { magic := fun i => cstr ipoFsMagicStr i.val
    fsSizeBlocks := totalBlocks
    blockSize := 512
    inodeCount := totalInodes
    inodeBitmapStart := 1
    blockBitmapStart := UInt32.ofNat (1 + ib)
    inodeTableStart := UInt32.ofNat (1 + ib + bb)
    dataBlocksStart := UInt32.ofNat (1 + ib + bb + it) }

/-- The block a superblock is written as; the bytes after its 36 are whatever
follows it in memory. -/
def superBlock (uninit : Block) (sb : Superblock) : Block := uninit.patch 0 36 sb.encode

/-- Blocks `start + i` on, `n` of them, zeroed. -/
def zeroBlocks (dev : BlockDev σ) (start : Nat) : (n i : Nat) → Prog σ Bool
  | 0, _ => pure true
  | n + 1, i => do
      if ← dev.write (u32 (start + i)) Buf.zero then zeroBlocks dev start n (i + 1)
      else pure false

def writeDirDots (dev : BlockDev σ) (inodeNo parent block : Nat) : Prog σ Bool :=
  let buf := Buf.zero.patch 0 72 (makeEntry inodeNo typeDir dot).encode
  dev.write block (buf.patch 72 72 (makeEntry parent typeDir dotdot).encode)

/-- `ipo_fs_format` up to the zeroed metadata: the superblock, the bitmaps and
the inode table. -/
def formatRegions (dev : BlockDev σ) (s : Superblock) (ib bb it : Nat) : Prog σ Bool := do
  if ← dev.write 0 (superBlock dev.uninit s) then
    if ← zeroBlocks dev s.inodeBitmapStart.toNat ib 0 then
      if ← zeroBlocks dev s.blockBitmapStart.toNat bb 0 then
        zeroBlocks dev s.inodeTableStart.toNat it 0
      else pure false
    else pure false
  else pure false

def freshInode (mode : UInt32) (links : UInt32) : Inode :=
  { Inode.zero with mode := mode, linksCount := links }

/-- The root directory of `ipo_fs_format`. -/
def formatRoot (dev : BlockDev σ) (sb : Superblock) : Prog σ Bool := do
  let _ ← bitmapSet dev sb.inodeBitmapStart.toNat 0 true
  let root := freshInode 1 2
  let _ ← writeInode dev sb 1 root
  match ← allocateBlock dev sb with
  | none => pure false
  | some rootBlock => do
      let _ ← writeDirDots dev 1 1 rootBlock
      let _ ← writeInode dev sb 1 { root.setDirect 0 rootBlock with size := 144 }
      pure true

/-- The protected directory `/app`. -/
def formatApp (dev : BlockDev σ) (sb : Superblock) : Prog σ Bool := do
  match ← allocateInode dev sb with
  | none => pure false
  | some appIno => do
      let app := freshInode (1 ||| flagProtected) 2
      let _ ← writeInode dev sb appIno app
      match ← allocateBlock dev sb with
      | none => pure false
      | some appBlock => do
          let _ ← writeDirDots dev appIno 1 appBlock
          let _ ← writeInode dev sb appIno { app.setDirect 0 appBlock with size := 144 }
          dirAddEntry dev sb 1 [97, 112, 112] appIno typeDir

/-- The protected file `/autorun`. -/
def formatAutorun (dev : BlockDev σ) (sb : Superblock) : Prog σ Bool := do
  match ← allocateInode dev sb with
  | none => pure false
  | some autorunIno => do
      let _ ← writeInode dev sb autorunIno (freshInode (2 ||| flagProtected) 1)
      dirAddEntry dev sb 1 [97, 117, 116, 111, 114, 117, 110] autorunIno typeFile

/-- The tree `ipo_fs_format` builds on the zeroed metadata. -/
def formatTree (dev : BlockDev σ) (sb : Superblock) : Prog σ Bool := do
  if ← formatRoot dev sb then
    if ← formatApp dev sb then
      if ← formatAutorun dev sb then dev.write 0 (superBlock dev.uninit sb)
      else pure false
    else pure false
  else pure false

def ipoFsFormat (diskStartLba totalBlocks totalInodes : UInt32) : Prog (Kernel σ) Bool :=
  let data := dataBlocks totalBlocks.toNat totalInodes.toNat
  if totalBlocks.toNat < 10 then pure false
  else if data = 0 ∨ 2147483648 ≤ data then pure false
  else do
    let s := formatSuperblock totalBlocks totalInodes
    modifyKernel fun k => { k with fsStartLba := diskStartLba }
    let ok ← withFs dev fun dev _ => formatRegions dev s
      (inodeBitmapBlocks totalInodes.toNat)
      (blockBitmapBlocks totalBlocks.toNat totalInodes.toNat)
      (inodeTableBlocks totalInodes.toNat)
    if ok then do
      modifyKernel fun k => { k with sb := s, fsStartLba := diskStartLba }
      withFs dev formatTree
    else pure false

/-- The magic and the block size `ipo_fs_mount` asks for. -/
def Superblock.accepted (sb : Superblock) : Bool :=
  strncmp (fun i => if h : i < 8 then sb.magic ⟨i, h⟩ else 0) (cstr ipoFsMagicStr) 6 = 0
    && sb.blockSize = 512

def ipoFsMount (diskStartLba : UInt32) : Prog (Kernel σ) Bool := do
  modifyKernel fun k => { k with fsStartLba := diskStartLba }
  match ← withFs dev fun dev _ => dev.read 0 with
  | none => pure false
  | some buf => do
      modifyKernel fun k => { k with sb := Superblock.decode buf }
      if (Superblock.decode buf).accepted then do
        modifyKernel fun k => { k with fsMounted := true }
        pure true
      else pure false

/-! ## Files

Creating and opening go by path; reading and writing go by descriptor and
work block by block. `blockCount` is the number of rounds that the wrapped
arithmetic of the source gives the loop. -/

/-- The body of `ipo_fs_create` on a mounted volume. -/
def createEntry (path : Str) (type : UInt8) (dev : BlockDev σ) (sb : Superblock) :
    Prog σ (Option Nat) := do
  match ← pathResolveParent dev sb path with
  | none => pure none
  | some (parent, name) =>
      if ¬ isValidFilename name then pure none
      else do
        match ← dirFindEntry dev sb parent name with
        | some _ => pure none
        | none => do
            match ← allocateInode dev sb with
            | none => pure none
            | some ino => do
                let _ ← writeInode dev sb ino (freshInode type.toUInt32 1)
                if ← dirAddEntry dev sb parent name ino type then pure (some ino)
                else do
                  let _ ← freeInode dev sb ino
                  pure none

def ipoFsCreate (path : CString) (type : UInt8) : Prog (Kernel σ) (Option Nat) := do
  let k ← getKernel
  if ¬ k.fsMounted then pure none
  else withFs dev (createEntry path.chars type)

/-- The first unused descriptor from `i` on, among `n`. -/
def firstUnused (fds : Nat → Fd) : (n i : Nat) → Option Nat
  | 0, _ => none
  | n + 1, i => if (fds i).used then firstUnused fds n (i + 1) else some i

/-- The inode `ipo_fs_open` opens: the one the path names, when it is not a
directory. -/
def openTarget (path : Str) (dev : BlockDev σ) (sb : Superblock) : Prog σ (Option Nat) := do
  match ← pathResolve dev sb path with
  | none => pure none
  | some ino => do
      match ← readInode dev sb ino with
      | none => pure none
      | some inode => if inode.isDir then pure none else pure (some ino)

def ipoFsOpen (path : CString) : Prog (Kernel σ) (Option Nat) := do
  let k ← getKernel
  if ¬ k.fsMounted then pure none
  else do
    match ← withFs dev (openTarget path.chars) with
    | none => pure none
    | some ino =>
        match firstUnused k.fds 32 0 with
        | none => pure none
        | some i => do
            modifyKernel fun k =>
              { k with fds := fun j => if j = i then ⟨true, ino, 0⟩ else k.fds j }
            pure (some i)

/-- The block loop of `ipo_fs_read`, with `n` blocks left from block `b` on:
`tmp` is the block buffer, `out` the caller's. -/
def readBlocks (dev : BlockDev σ) (sb : Superblock) (inode : Inode)
    (first offset size : Nat) :
    (n b copied : Nat) → (tmp : Block) → (out : Buf) → Prog σ (Nat × Buf)
  | 0, _, copied, _, out => pure (copied, out)
  | n + 1, b, copied, tmp, out => do
      let r ← getDataBlockForInode dev sb inode b false
      match r.1 with
      | none => pure (copied, out)
      | some phys => do
          let got ← dev.read phys
          let tmp := got.getD tmp
          let blockOffset := if b = first then offset % 512 else 0
          let tocopy := min (512 - blockOffset) (size - copied)
          readBlocks dev sb inode first offset size n (b + 1) (copied + tocopy) tmp
            (out.patch copied tocopy fun i => tmp (blockOffset + i))

/-- The blocks `first_block ..= last_block` of a transfer. -/
def blockCount (offset size : Nat) : Nat :=
  sub32 (u32 (offset + size)) 1 / 512 + 1 - offset / 512

/-- The body of `ipo_fs_read` on an inode. -/
def readFile (ino : Nat) (buffer : Buf) (size offset : Nat) (dev : BlockDev σ)
    (sb : Superblock) : Prog σ (Option Nat × Buf) := do
  match ← readInode dev sb ino with
  | none => pure (none, buffer)
  | some inode =>
      if offset ≥ inode.size.toNat then pure (some 0, buffer)
      else do
        let size := if u32 (offset + size) > inode.size.toNat
          then inode.size.toNat - offset else size
        let r ← readBlocks dev sb inode (offset / 512) offset size
          (blockCount offset size) (offset / 512) 0 dev.uninit buffer
        pure (asInt r.1, r.2)

/-- `ipo_fs_read`: the count (`none` for a negative result) and the caller's
buffer afterwards. -/
def ipoFsRead (fd : Int) (buffer : Buf) (size offset : UInt32) :
    Prog (Kernel σ) (Option Nat × Buf) := do
  let k ← getKernel
  if fd < 0 ∨ fd ≥ 32 then pure (none, buffer)
  else if ¬ (k.fds fd.toNat).used then pure (none, buffer)
  else withFs dev (readFile (k.fds fd.toNat).inode buffer size.toNat offset.toNat)

/-- The block loop of `ipo_fs_write`, with `n` blocks left from block `b` on. -/
def writeBlocks (dev : BlockDev σ) (sb : Superblock) (buffer : Buf)
    (first offset size : Nat) :
    (n b written : Nat) → (tmp : Block) → Inode → Prog σ (Nat × Inode)
  | 0, _, written, _, inode => pure (written, inode)
  | n + 1, b, written, tmp, inode => do
      let r ← getDataBlockForInode dev sb inode b true
      match r.1 with
      | none => pure (written, r.2)
      | some phys => do
          let got ← dev.read phys
          let tmp := got.getD tmp
          let blockOffset := if b = first then offset % 512 else 0
          let towrite := min (512 - blockOffset) (size - written)
          let tmp := tmp.patch blockOffset towrite fun i => buffer (written + i)
          let _ ← dev.write phys tmp
          writeBlocks dev sb buffer first offset size n (b + 1) (written + towrite) tmp r.2

/-- `if (offset + written > inode.size) inode.size = offset + written`. -/
def Inode.grownTo (r : Inode) (fileEnd : Nat) : Inode :=
  if fileEnd > r.size.toNat then { r with size := UInt32.ofNat fileEnd } else r

/-- The body of `ipo_fs_write` on an inode. -/
def writeFile (ino : Nat) (buffer : Buf) (size offset : Nat) (dev : BlockDev σ)
    (sb : Superblock) : Prog σ (Option Nat) := do
  match ← readInode dev sb ino with
  | none => pure none
  | some inode => do
      let r ← writeBlocks dev sb buffer (offset / 512) offset size
        (blockCount offset size) (offset / 512) 0 dev.uninit inode
      let _ ← writeInode dev sb ino (r.2.grownTo (u32 (offset + r.1)))
      pure (asInt r.1)

def ipoFsWrite (fd : Int) (buffer : Buf) (size offset : UInt32) :
    Prog (Kernel σ) (Option Nat) := do
  let k ← getKernel
  if fd < 0 ∨ fd ≥ 32 then pure none
  else if ¬ (k.fds fd.toNat).used then pure none
  else withFs dev (writeFile (k.fds fd.toNat).inode buffer size.toNat offset.toNat)

/-! ## Deletion and renaming

A directory is deleted by its size and not by its entries. A rename adds the
entry in the new directory, moves the `..` of a directory, and then removes
the entry from the old one. -/

/-- The body of `ipo_fs_delete` on a mounted volume. -/
def deleteEntry (path : Str) (dev : BlockDev σ) (sb : Superblock) : Prog σ Bool := do
  match ← pathResolveParent dev sb path with
  | none => pure false
  | some (parent, name) => do
      match ← dirFindEntry dev sb parent name with
      | none => pure false
      | some found => do
          let de := found.1
          match ← readInode dev sb de.inode.toNat with
          | none => pure false
          | some target =>
              if target.isProtected then pure false
              else do
                let din ← readInode dev sb de.inode.toNat
                if de.type = typeDir ∧ (din.getD Inode.zero).size.toNat > 144 then pure false
                else if ← dirRemoveEntry dev sb parent name then do
                  let _ ← freeInode dev sb de.inode.toNat
                  pure true
                else pure false

def ipoFsDelete (path : CString) : Prog (Kernel σ) Bool := do
  let k ← getKernel
  if ¬ k.fsMounted then pure false
  else withFs dev (deleteEntry path.chars)

/-- The body of `ipo_fs_stat` on a mounted volume. -/
def statPath (path : Str) (dev : BlockDev σ) (sb : Superblock) :
    Prog σ (Option Inode) := do
  match ← pathResolve dev sb path with
  | none => pure none
  | some ino => readInode dev sb ino

def ipoFsStat (path : CString) : Prog (Kernel σ) (Option Inode) := do
  let k ← getKernel
  if ¬ k.fsMounted then pure none
  else withFs dev (statPath path.chars)

/-- `ipo_fs_write_text` once the path resolves. -/
def writeTextAt (path text : CString) (append : Bool) : Prog (Kernel σ) Bool := do
  match ← ipoFsStat dev path with
  | none => pure false
  | some inode =>
      if inode.isDir then pure false
      else do
        match ← ipoFsOpen dev path with
        | none => pure false
        | some fd => do
            let offset := if append then inode.size else 0
            let written ← ipoFsWrite dev fd (cstr text.chars)
              (UInt32.ofNat text.chars.length) offset
            pure (written = some (u32 text.chars.length))

def ipoFsWriteText (path text : CString) (append : Bool) : Prog (Kernel σ) Bool := do
  let k ← getKernel
  if ¬ k.fsMounted then pure false
  else do
    match ← withFs dev fun dev sb => pathResolve dev sb path.chars with
    | some _ => writeTextAt dev path text append
    | none => do
        match ← ipoFsCreate dev path typeFile with
        | none => pure false
        | some _ => writeTextAt dev path text append

/-- The loop of `is_descendant`, with `fuel` rounds left. -/
def isDescendantFrom (dev : BlockDev σ) (sb : Superblock) (ancestor : Nat) :
    (fuel cur : Nat) → Prog σ (Option Bool)
  | 0, _ => pure none
  | fuel + 1, cur =>
      if cur = 1 ∨ cur = 0 then pure (some false)
      else if cur = ancestor then pure (some true)
      else do
        match ← readInode dev sb cur with
        | none => pure (some false)
        | some din =>
            if ¬ din.isDir then pure (some false)
            else if din.direct0 = 0 then pure (some false)
            else do
              match ← dev.read (din.direct0).toNat with
              | none => pure (some false)
              | some buf =>
                  let parent := (entryInode buf 72).toNat
                  if parent = cur then pure (some false)
                  else isDescendantFrom dev sb ancestor fuel parent

def isDescendant (dev : BlockDev σ) (sb : Superblock) (fuel ancestor node : Nat) :
    Prog σ (Option Bool) :=
  if ancestor = 0 ∨ node = 0 then pure (some false)
  else isDescendantFrom dev sb ancestor fuel node

/-- The destination of a rename: its directory and the new name. `none` stands
for a refusal, and the outer `none` for a descendant check that has not
returned. -/
def renameTarget (dev : BlockDev σ) (sb : Superblock) (fuel : Nat) (de : DirEntry)
    (oldname newpath : Str) : Prog σ (Option (Option (Nat × Str))) := do
  match ← pathResolve dev sb newpath with
  | none => do
      let p ← pathResolveParent dev sb newpath
      pure (some p)
  | some maybeDir => do
      match ← readInode dev sb maybeDir with
      | none => pure (some none)
      | some td =>
          if td.isDir then
            if de.type = typeDir then do
              match ← isDescendant dev sb fuel de.inode.toNat maybeDir with
              | none => pure none
              | some true => pure (some none)
              | some false => pure (some (some (maybeDir, oldname.take 63)))
            else pure (some (some (maybeDir, oldname.take 63)))
          else do
            let p ← pathResolveParent dev sb newpath
            pure (some p)

/-- The second slot of a moved directory's first block pointed at its new
parent. -/
def patchDotdot (dev : BlockDev σ) (sb : Superblock) (ino newParent : Nat) :
    Prog σ Bool := do
  match ← readInode dev sb ino with
  | none => pure false
  | some moved =>
      if moved.direct0 = 0 then pure true
      else do
        match ← dev.read (moved.direct0).toNat with
        | none => pure false
        | some buf =>
            dev.write (moved.direct0).toNat (buf.putWord 72 (UInt32.ofNat newParent))

/-- The part of `ipo_fs_rename` that changes the volume. -/
def moveEntry (dev : BlockDev σ) (sb : Superblock) (oldParent : Nat) (oldname : Str)
    (de : DirEntry) (newParent : Nat) (newname : Str) : Prog σ Bool := do
  if ← dirAddEntry dev sb newParent newname de.inode.toNat de.type then do
    let ok ← if de.type = typeDir then patchDotdot dev sb de.inode.toNat newParent
      else pure true
    if ok then dirRemoveEntry dev sb oldParent oldname else pure false
  else pure false

/-- The body of `ipo_fs_rename` on a mounted volume. -/
def renameEntry (fuel : Nat) (oldpath newpath : Str) (dev : BlockDev σ)
    (sb : Superblock) : Prog σ (Option Bool) :=
  if oldpath = [slash] then pure (some false)
  else do
    let oldIno ← pathResolve dev sb oldpath
    let newIno ← pathResolve dev sb newpath
    if oldIno.isSome ∧ oldIno = newIno then pure (some true)
    else do
      match ← pathResolveParent dev sb oldpath with
      | none => pure (some false)
      | some (oldParent, oldname) => do
          match ← dirFindEntry dev sb oldParent oldname with
          | none => pure (some false)
          | some found => do
              let de := found.1
              match ← readInode dev sb de.inode.toNat with
              | none => pure (some false)
              | some tin =>
                  if tin.isProtected then pure (some false)
                  else do
                    match ← renameTarget dev sb fuel de oldname newpath with
                    | none => pure none
                    | some none => pure (some false)
                    | some (some (newParent, newname)) =>
                        if ¬ isValidFilename newname then pure (some false)
                        else do
                          match ← dirFindEntry dev sb newParent newname with
                          | some tmp => pure (some (tmp.1.inode = de.inode))
                          | none => do
                              let ok ← moveEntry dev sb oldParent oldname de
                                newParent newname
                              pure (some ok)

/-- `ipo_fs_rename`; `none` when its descendant check has not returned within
`fuel` rounds. -/
def ipoFsRename (fuel : Nat) (oldpath newpath : CString) :
    Prog (Kernel σ) (Option Bool) := do
  let k ← getKernel
  if ¬ k.fsMounted then pure (some false)
  else withFs dev (renameEntry fuel oldpath.chars newpath.chars)

end

end IpoOs
