import IpoOs.FsFile
import IpoOs.FsFree

/-!
# The directory and file operations, case by case

For each operation on one directory or file: what it can return and what
the disk is then, once and for all. The read-only functions leave the
disk alone; `dir_add_entry`, `dir_remove_entry` and the write of a file
do one of a few things, each a `Touched` step on the inode they work on.

These are the spec lemmas of the layer: nothing above this module unfolds a
directory or file operation. A lemma names the outcomes, failed transfers
aside, which an array of blocks does not have.
-/

namespace IpoOs

/-! ## Functions that only read

Proved by composition, one function at a time in the order in which they
call each other. -/

section

variable (u : Block) (sb : Superblock) (d : Disk)

/-- The block of a directory slot as `dir_find_entry` takes it from the record. -/
def Disk.findPhys (d : Disk) (din : Inode) (e : Nat) : Option Nat :=
  if h : e / 7 < 6 then some (din.direct ⟨e / 7, h⟩).toNat else d.lookup din (e / 7)

theorem findPhys_array (din : Inode) (e : Nat) :
    findPhys (arrayDev u) sb din e d = (d.findPhys din e, d) := by
  by_cases h : e / 7 < 6
  · simp [findPhys, Disk.findPhys, h]
  · simp [findPhys, Disk.findPhys, h, getDataBlock_lookup]

open Prog

theorem readOnly_read (i : Nat) : ReadOnly ((arrayDev u).read i) := fun _ => rfl

theorem readOnly_readInode (i : Nat) : ReadOnly (readInode (arrayDev u) sb i) := fun d => by
  rw [readInode_array]

theorem readOnly_findPhys (din : Inode) (e : Nat) :
    ReadOnly (findPhys (arrayDev u) sb din e) := fun d => by
  rw [findPhys_array]

theorem readOnly_dirFindFrom (din : Inode) (name : Str) (n e : Nat) :
    ReadOnly (dirFindFrom (arrayDev u) sb din name n e) := by
  induction n generalizing e with
  | zero => exact ReadOnly.pure _
  | succ n ih =>
      refine (readOnly_findPhys u sb din e).bind fun phys => ?_
      split
      · exact ih _
      · split
        · exact ih _
        · refine (readOnly_read u _).bind fun buf => ?_
          split
          · exact ReadOnly.pure _
          · split
            · exact ReadOnly.pure _
            · exact ih _

theorem readOnly_dirFindEntry (i : Nat) (name : Str) :
    ReadOnly (dirFindEntry (arrayDev u) sb i name) := by
  refine (readOnly_readInode u sb i).bind fun din => ?_
  split
  · exact ReadOnly.pure _
  · split
    · exact readOnly_dirFindFrom u sb _ name _ _
    · exact ReadOnly.pure _

theorem readOnly_resolveFrom (fuel : Nat) (p : Str) (cur : Nat) :
    ReadOnly (resolveFrom (arrayDev u) sb fuel p cur) := by
  induction fuel generalizing p cur with
  | zero => exact ReadOnly.pure _
  | succ fuel ih =>
      unfold resolveFrom
      split
      · exact ReadOnly.pure _
      · dsimp only
        split
        · exact ReadOnly.pure _
        · refine (readOnly_dirFindEntry u sb cur _).bind fun found => ?_
          split
          · exact ReadOnly.pure _
          · split
            · exact ReadOnly.pure _
            · exact ih _ _

theorem readOnly_pathResolve (path : Str) : ReadOnly (pathResolve (arrayDev u) sb path) := by
  unfold pathResolve
  dsimp only
  split
  · exact ReadOnly.pure _
  · exact readOnly_resolveFrom u sb _ _ _

theorem readOnly_pathResolveParent (path : Str) :
    ReadOnly (pathResolveParent (arrayDev u) sb path) := by
  unfold pathResolveParent
  dsimp only
  split
  · exact ReadOnly.pure _
  · split
    · exact ReadOnly.pure _
    · rename_i r _
      generalize (if r = 0 then [slash] else (fsCanonicalize path 512).take r) = parentPath
      split
      · exact ReadOnly.pure _
      · split
        · exact ReadOnly.pure _
        · refine (readOnly_pathResolve u sb _).bind fun parent => ?_
          split <;> exact ReadOnly.pure _

theorem readOnly_isDescendantFrom (ancestor fuel cur : Nat) :
    ReadOnly (isDescendantFrom (arrayDev u) sb ancestor fuel cur) := by
  induction fuel generalizing cur with
  | zero => exact ReadOnly.pure _
  | succ fuel ih =>
      unfold isDescendantFrom
      split
      · exact ReadOnly.pure _
      · split
        · exact ReadOnly.pure _
        · refine (readOnly_readInode u sb cur).bind fun din => ?_
          split
          · exact ReadOnly.pure _
          · split
            · exact ReadOnly.pure _
            · split
              · exact ReadOnly.pure _
              · refine (readOnly_read u _).bind fun buf => ?_
                split
                · exact ReadOnly.pure _
                · dsimp only
                  split
                  · exact ReadOnly.pure _
                  · exact ih _

theorem readOnly_isDescendant (fuel ancestor node : Nat) :
    ReadOnly (isDescendant (arrayDev u) sb fuel ancestor node) := by
  unfold isDescendant
  split
  · exact ReadOnly.pure _
  · exact readOnly_isDescendantFrom u sb _ _ _

theorem readOnly_renameTarget (fuel : Nat) (de : DirEntry) (oldname newpath : Str) :
    ReadOnly (renameTarget (arrayDev u) sb fuel de oldname newpath) := by
  refine (readOnly_pathResolve u sb newpath).bind fun maybeDir => ?_
  split
  · exact (readOnly_pathResolveParent u sb newpath).bind fun p => ReadOnly.pure _
  · refine (readOnly_readInode u sb _).bind fun td => ?_
    split
    · exact ReadOnly.pure _
    · split
      · split
        · refine (readOnly_isDescendant u sb _ _ _).bind fun desc => ?_
          split <;> exact ReadOnly.pure _
        · exact ReadOnly.pure _
      · exact (readOnly_pathResolveParent u sb newpath).bind fun p => ReadOnly.pure _

theorem readOnly_openTarget (path : Str) : ReadOnly (openTarget path (arrayDev u) sb) := by
  refine (readOnly_pathResolve u sb path).bind fun ino => ?_
  split
  · exact ReadOnly.pure _
  · refine (readOnly_readInode u sb _).bind fun inode => ?_
    split
    · exact ReadOnly.pure _
    · split <;> exact ReadOnly.pure _

theorem readOnly_statPath (path : Str) : ReadOnly (statPath path (arrayDev u) sb) := by
  refine (readOnly_pathResolve u sb path).bind fun ino => ?_
  split
  · exact ReadOnly.pure _
  · exact readOnly_readInode u sb _

theorem readOnly_readBlocks (r : Inode) (first offset size n b copied : Nat) (tmp : Block)
    (out : Buf) : ReadOnly (readBlocks (arrayDev u) sb r first offset size n b copied tmp out) := by
  induction n generalizing b copied tmp out with
  | zero => exact ReadOnly.pure _
  | succ n ih =>
      refine ReadOnly.bind (fun d => by rw [getDataBlock_lookup]) fun res => ?_
      split
      · exact ReadOnly.pure _
      · exact (readOnly_read u _).bind fun got => ih _ _ _ _

theorem readOnly_readFile (ino : Nat) (buffer : Buf) (size offset : Nat) :
    ReadOnly (readFile ino buffer size offset (arrayDev u) sb) := by
  refine (readOnly_readInode u sb ino).bind fun inode => ?_
  split
  · exact ReadOnly.pure _
  · split
    · exact ReadOnly.pure _
    · exact (readOnly_readBlocks u sb _ _ _ _ _ _ _ _ _).bind fun r => ReadOnly.pure _

end

/-! ## Removal of an entry

The walk stops at the first live slot with the name, and either makes it a
tombstone or refuses. -/

/-- `dir_remove_entry` takes slot `e` for an entry of that name. -/
def Disk.RemoveHit (d : Disk) (din : Inode) (name : Str) (e : Nat) : Prop :=
  ∃ p, d.lookup din (e / 7) = some p ∧ entryInode (d p) (e % 7 * 72) ≠ 0
    ∧ strncmp (entryName (d p) (e % 7 * 72)) (cstr name) 64 = 0

/-- `dir_remove_entry` refuses to remove the entry in block `p` at byte `off`. -/
def Disk.RemoveRefused (d : Disk) (sb : Superblock) (p off : Nat) : Prop :=
  (sb.ValidIno (entryInode (d p) off).toNat
    ∧ (d.inodeAt sb (entryInode (d p) off).toNat).isProtected = true)
  ∨ strcmp (entryName (d p) off) dot = 0 ∨ strcmp (entryName (d p) off) dotdot = 0

section

variable (u : Block) (sb : Superblock) {d : Disk} {din : Inode} {name : Str}

theorem dirRemoveFrom_hit {n e : Nat} (h : d.RemoveHit din name e) :
    ∃ p, d.lookup din (e / 7) = some p ∧ entryInode (d p) (e % 7 * 72) ≠ 0
      ∧ strncmp (entryName (d p) (e % 7 * 72)) (cstr name) 64 = 0
      ∧ ((d.RemoveRefused sb p (e % 7 * 72)
          ∧ dirRemoveFrom (arrayDev u) sb din name (n + 1) e d = (false, d))
        ∨ (¬ d.RemoveRefused sb p (e % 7 * 72)
          ∧ dirRemoveFrom (arrayDev u) sb din name (n + 1) e d
            = (true, d.set p (killEntry (d p) (e % 7 * 72))))) := by
  obtain ⟨p, hp, hne, hcmp⟩ := h
  refine ⟨p, hp, hne, hcmp, ?_⟩
  by_cases hv : sb.ValidIno (entryInode (d p) (e % 7 * 72)).toNat
  · by_cases hprot : (d.inodeAt sb (entryInode (d p) (e % 7 * 72)).toNat).isProtected = true
    · refine Or.inl ⟨Or.inl ⟨hv, hprot⟩, ?_⟩
      simp [dirRemoveFrom, getDataBlock_lookup, hp, hne, hcmp, readInode_array, hv, hprot]
    · by_cases hdots : strcmp (entryName (d p) (e % 7 * 72)) dot = 0
          ∨ strcmp (entryName (d p) (e % 7 * 72)) dotdot = 0
      · refine Or.inl ⟨Or.inr hdots, ?_⟩
        simp [dirRemoveFrom, getDataBlock_lookup, hp, hne, hcmp, readInode_array, hv, hdots]
      · refine Or.inr ⟨?_, ?_⟩
        · rintro (⟨-, h⟩ | h)
          · exact hprot h
          · exact hdots h
        · simp [dirRemoveFrom, getDataBlock_lookup, hp, hne, hcmp, readInode_array, hv, hprot,
            hdots]
  · by_cases hdots : strcmp (entryName (d p) (e % 7 * 72)) dot = 0
        ∨ strcmp (entryName (d p) (e % 7 * 72)) dotdot = 0
    · refine Or.inl ⟨Or.inr hdots, ?_⟩
      simp [dirRemoveFrom, getDataBlock_lookup, hp, hne, hcmp, readInode_array, hv, hdots]
    · refine Or.inr ⟨?_, ?_⟩
      · rintro (⟨h, -⟩ | h)
        · exact hv h
        · exact hdots h
      · simp [dirRemoveFrom, getDataBlock_lookup, hp, hne, hcmp, readInode_array, hv, hdots]

theorem dirRemoveFrom_skip {n e : Nat} (h : ¬ d.RemoveHit din name e) :
    dirRemoveFrom (arrayDev u) sb din name (n + 1) e d
      = dirRemoveFrom (arrayDev u) sb din name n (e + 1) d := by
  cases hp : d.lookup din (e / 7) with
  | none => simp [dirRemoveFrom, getDataBlock_lookup, hp]
  | some p =>
      have hc : ¬ (entryInode (d p) (e % 7 * 72) ≠ 0
          ∧ strncmp (entryName (d p) (e % 7 * 72)) (cstr name) 64 = 0) :=
        fun hc => h ⟨p, hp, hc.1, hc.2⟩
      simp only [dirRemoveFrom, Prog.run_bind, getDataBlock_lookup, hp, arrayDev_read, hc,
        if_false]

/-- The removal loop over slots `[e, e + n)`: the first slot taken decides. -/
theorem dirRemoveFrom_cases (n e : Nat) :
    (∃ k, e ≤ k ∧ k < e + n ∧ (∀ j, e ≤ j → j < k → ¬ d.RemoveHit din name j)
      ∧ ∃ p, d.lookup din (k / 7) = some p ∧ entryInode (d p) (k % 7 * 72) ≠ 0
        ∧ strncmp (entryName (d p) (k % 7 * 72)) (cstr name) 64 = 0
        ∧ ((d.RemoveRefused sb p (k % 7 * 72)
            ∧ dirRemoveFrom (arrayDev u) sb din name n e d = (false, d))
          ∨ (¬ d.RemoveRefused sb p (k % 7 * 72)
            ∧ dirRemoveFrom (arrayDev u) sb din name n e d
              = (true, d.set p (killEntry (d p) (k % 7 * 72))))))
    ∨ ((∀ j, e ≤ j → j < e + n → ¬ d.RemoveHit din name j)
      ∧ dirRemoveFrom (arrayDev u) sb din name n e d = (false, d)) := by
  induction n generalizing e with
  | zero => exact Or.inr ⟨fun j h1 h2 => by omega, rfl⟩
  | succ n ih =>
      by_cases hit : d.RemoveHit din name e
      · exact Or.inl ⟨e, Nat.le_refl _, by omega, fun j h1 h2 => by omega,
          dirRemoveFrom_hit u sb hit⟩
      · rw [dirRemoveFrom_skip u sb hit]
        have hcov : ∀ k, (∀ j, e + 1 ≤ j → j < k → ¬ d.RemoveHit din name j) →
            ∀ j, e ≤ j → j < k → ¬ d.RemoveHit din name j := fun k h j h1 h2 => by
          by_cases hj : j = e
          · exact hj ▸ hit
          · exact h j (by omega) h2
        rcases ih (e + 1) with ⟨k, h1, h2, h3, h4⟩ | ⟨h1, h2⟩
        · exact Or.inl ⟨k, by omega, by omega, hcov k h3, h4⟩
        · exact Or.inr ⟨hcov (e + (n + 1)) (fun j h3 h4 => h1 j h3 (by omega)), h2⟩

end

/-! ## Addition of an entry

The entry goes into the slot after the last one. A walk that allocates comes
first, and when it comes back with nothing the directory keeps its size. -/

section

variable {sb : Superblock} {hi : Nat} {d : Disk} (L : SoundLayout sb) (B : BlockBound sb hi)
  (u : Block)

/-- What `dir_add_entry` asks before it looks for room. -/
def Disk.AddOk (d : Disk) (u : Block) (sb : Superblock) (dir : Nat) (name : Str) : Prop :=
  sb.ValidIno dir ∧ (d.inodeAt sb dir).isDir = true ∧ isValidFilename name = true
    ∧ (dirFindEntry (arrayDev u) sb dir name d).1 = none

/-- The block of a directory with an entry written at slot `e`. -/
def Disk.putEntry (d : Disk) (p e : Nat) (de : DirEntry) : Disk :=
  d.set p ((d p).patch (e % 7 * 72) 72 de.encode)

include L B

/-- `dir_add_entry` refuses, finds no room, or writes the slot after the last. -/
theorem dirAddEntry_cases (O : OwnedVol sb hi d) (dir : Nat) (name : Str) (ino : Nat)
    (type : UInt8) :
    (¬ d.AddOk u sb dir name ∧ dirAddEntry (arrayDev u) sb dir name ino type d = (false, d))
    ∨ (d.AddOk u sb dir name ∧ ∃ r₁ d₁ A,
      Grew sb hi (d.inodeAt sb) dir A (d.inodeAt sb dir) d r₁ d₁
      ∧ getDataBlockForInode (arrayDev u) sb (d.inodeAt sb dir)
          ((d.inodeAt sb dir).size.toNat / 72 / 7) true d = ((none, r₁), d₁)
      ∧ dirAddEntry (arrayDev u) sb dir name ino type d = (false, d₁))
    ∨ (d.AddOk u sb dir name ∧ ∃ r₁ d₁ A pos,
      Grew sb hi (d.inodeAt sb) dir A (d.inodeAt sb dir) d r₁ d₁
      ∧ posOf ((d.inodeAt sb dir).size.toNat / 72 / 7) = some pos
      ∧ d₁.ptr r₁ pos ≠ 0 ∧ d₁.ptr r₁ pos < 2147483648
      ∧ dirAddEntry (arrayDev u) sb dir name ino type d
        = (true, (d₁.putEntry (d₁.ptr r₁ pos) ((d.inodeAt sb dir).size.toNat / 72)
            (makeEntry ino type name)).putInode sb dir { r₁ with size := r₁.size + 72 })) := by
  obtain ⟨found, hfind⟩ : ∃ f, dirFindEntry (arrayDev u) sb dir name d = (f, d) :=
    ⟨_, (readOnly_dirFindEntry u sb dir name).run_eq d⟩
  by_cases hv : sb.ValidIno dir
  · by_cases hdir : (d.inodeAt sb dir).isDir = true
    · by_cases hname : isValidFilename name = true
      · cases found with
        | some f =>
            refine Or.inl ⟨fun h =>
              ?_, by simp [dirAddEntry, readInode_array, hv, hdir, hname, hfind]⟩
            obtain ⟨-, -, -, h⟩ := h
            rw [hfind] at h
            cases h
        | none =>
            have hok : d.AddOk u sb dir name := ⟨hv, hdir, hname, by rw [hfind]⟩
            have O' : VolOwned sb hi d
                (Function.update (d.inodeAt sb) dir (d.inodeAt sb dir)) := by
              rw [Function.update_eq_self]
              exact O
            obtain ⟨r₁, d₁, hg, hrun | ⟨pos, hpos, hp0, hlt, hrun⟩⟩ := walk_cases L B u O'
              ((d.inodeAt sb dir).size.toNat / 72 / 7)
            · refine Or.inr (Or.inl ⟨hok, r₁, d₁, _, hg, hrun, ?_⟩)
              simp [dirAddEntry, readInode_array, hv, hdir, hname, hfind, hrun]
            · refine Or.inr (Or.inr ⟨hok, r₁, d₁, _, pos, hg, hpos, hp0, hlt, ?_⟩)
              simp [dirAddEntry, readInode_array, hv, hdir, hname, hfind, hrun,
                writeInode_array, Disk.putEntry]
      · exact Or.inl ⟨fun h => hname h.2.2.1,
          by simp [dirAddEntry, readInode_array, hv, hname]⟩
    · exact Or.inl ⟨fun h => hdir h.2.1, by simp [dirAddEntry, readInode_array, hv, hdir]⟩
  · exact Or.inl ⟨fun h => hv h.1, by simp [dirAddEntry, readInode_array, hv]⟩

theorem dirAddEntry_touched (O : OwnedVol sb hi d) (dir : Nat) (name : Str) (ino : Nat)
    (type : UInt8) :
    Touched sb hi dir d (dirAddEntry (arrayDev u) sb dir name ino type d).2 := by
  rcases dirAddEntry_cases L B u O dir name ino type with
    ⟨-, hrun⟩ | ⟨-, r₁, d₁, A, hg, -, hrun⟩ | ⟨hok, r₁, d₁, A, pos, hg, hpos, hp0, -, hrun⟩
  · rw [hrun]
    exact Touched.refl O
  · rw [hrun]
    exact hg.touched L O
  · rw [hrun]
    have hset := Changed.set L B hg.owned hp0 (isTable_posOf hpos) ((d₁ (d₁.ptr r₁ pos)).patch
      ((d.inodeAt sb dir).size.toNat / 72 % 7 * 72) 72 (makeEntry ino type name).encode)
    exact (hg.changed.trans hset).touched L B O hok.1 rfl rfl

/-! ## Writes to a data block

The operations as `Touched` steps on the inode they work on. -/

theorem touched_set (O : OwnedVol sb hi d) {ino : Nat} {pos : Pos}
    (h0 : d.ptr (d.inodeAt sb ino) pos ≠ 0) (hpos : pos.isTable = false) (b : Block) :
    Touched sb hi ino d (d.set (d.ptr (d.inodeAt sb ino) pos) b) := by
  have O' : VolOwned sb hi d (Function.update (d.inodeAt sb) ino (d.inodeAt sb ino)) := by
    rw [Function.update_eq_self]
    exact O
  exact (Changed.set L B O' h0 hpos b).touched_same L O

theorem touched_set_lookup (O : OwnedVol sb hi d) {ino l p : Nat}
    (h : d.lookup (d.inodeAt sb ino) l = some p) (b : Block) :
    Touched sb hi ino d (d.set p b) := by
  obtain ⟨pos, hpos, rfl, hp0, -⟩ := Disk.lookup_eq_some.mp h
  exact touched_set L B O hp0 (isTable_posOf hpos) b

omit L B in
/-- `dir_remove_entry` leaves the disk alone or kills the first entry it takes. -/
theorem dirRemoveEntry_cases (d : Disk) (dir : Nat) (name : Str) :
    dirRemoveEntry (arrayDev u) sb dir name d = (false, d)
    ∨ ∃ k p, sb.ValidIno dir ∧ k < (d.inodeAt sb dir).size.toNat / 72
      ∧ (∀ j, j < k → ¬ d.RemoveHit (d.inodeAt sb dir) name j)
      ∧ d.lookup (d.inodeAt sb dir) (k / 7) = some p
      ∧ entryInode (d p) (k % 7 * 72) ≠ 0
      ∧ strncmp (entryName (d p) (k % 7 * 72)) (cstr name) 64 = 0
      ∧ ¬ d.RemoveRefused sb p (k % 7 * 72)
      ∧ dirRemoveEntry (arrayDev u) sb dir name d
        = (true, d.set p (killEntry (d p) (k % 7 * 72))) := by
  by_cases hv : sb.ValidIno dir
  · have hrun : dirRemoveEntry (arrayDev u) sb dir name d = dirRemoveFrom (arrayDev u) sb
        (d.inodeAt sb dir) name ((d.inodeAt sb dir).size.toNat / 72) 0 d := by
      simp [dirRemoveEntry, readInode_array, hv]
    rw [hrun]
    rcases @dirRemoveFrom_cases u sb d (d.inodeAt sb dir) name
        ((d.inodeAt sb dir).size.toNat / 72) 0 with
      ⟨k, -, hk, hfirst, p, hp, hne, hcmp, ⟨-, h⟩ | ⟨hnot, h⟩⟩ | ⟨-, h⟩
    · exact Or.inl h
    · exact Or.inr ⟨k, p, hv, by omega, fun j hj => hfirst j (Nat.zero_le j) hj, hp, hne, hcmp,
        hnot, h⟩
    · exact Or.inl h
  · exact Or.inl (by simp [dirRemoveEntry, readInode_array, hv])

theorem dirRemoveEntry_touched (O : OwnedVol sb hi d) (dir : Nat) (name : Str) :
    Touched sb hi dir d (dirRemoveEntry (arrayDev u) sb dir name d).2 := by
  rcases dirRemoveEntry_cases u d dir name with h | ⟨k, p, -, -, -, hp, -, -, -, h⟩
  · rw [h]
    exact Touched.refl O
  · rw [h]
    exact touched_set_lookup L B O hp _

theorem patchDotdot_touched (O : OwnedVol sb hi d) (ino newParent : Nat) :
    Touched sb hi ino d (patchDotdot (arrayDev u) sb ino newParent d).2 := by
  by_cases hv : sb.ValidIno ino
  · by_cases h0 : (d.inodeAt sb ino).direct 0 = 0
    · have hrun : patchDotdot (arrayDev u) sb ino newParent d = (true, d) := by
        simp [patchDotdot, readInode_array, hv, h0]
      rw [hrun]
      exact Touched.refl O
    · have hne : d.ptr (d.inodeAt sb ino) (.direct 0) ≠ 0 := fun hc =>
        h0 (UInt32.toNat.inj hc)
      have hrun : patchDotdot (arrayDev u) sb ino newParent d
          = (true, d.set (d.ptr (d.inodeAt sb ino) (.direct 0))
              ((d (d.ptr (d.inodeAt sb ino) (.direct 0))).putWord 72
                  (UInt32.ofNat newParent))) := by
        simp [patchDotdot, readInode_array, hv, h0, Disk.ptr]
      rw [hrun]
      exact touched_set L B O hne rfl _
  · have hrun : patchDotdot (arrayDev u) sb ino newParent d = (false, d) := by
      simp [patchDotdot, readInode_array, hv]
    rw [hrun]
    exact Touched.refl O

/-- The write of a file: the blocks written, then the record back in its slot. -/
theorem writeFile_spec (O : OwnedVol sb hi d) {ino : Nat} (hv : sb.ValidIno ino) (buffer : Buf)
    (size offset : Nat) :
    ∃ w r' d', writeFile ino buffer size offset (arrayDev u) sb d
        = (asInt w, d'.putInode sb ino (r'.grownTo (u32 (offset + w))))
      ∧ Changed sb hi (d.inodeAt sb) ino (d.inodeAt sb ino) d r' d'
      ∧ Touched sb hi ino d (d'.putInode sb ino (r'.grownTo (u32 (offset + w))))
      ∧ w ≤ size ∧ Wrote buffer offset offset (offset + w) d (d.inodeAt sb ino) d' r' := by
  have O' : VolOwned sb hi d (Function.update (d.inodeAt sb) ino (d.inodeAt sb ino)) := by
    rw [Function.update_eq_self]
    exact O
  obtain ⟨w, r', d', hrun, hch, -, hle, hwrote⟩ := writeBlocks_spec L B u buffer offset size
    (blockCount offset size) (offset / 512) (Nat.le_refl _) u O'
  rw [reached_start] at hrun hwrote
  have hwrite : ∀ r e, writeInode (arrayDev u) sb ino r e = (true, e.putInode sb ino r) := by
    intro r e
    rw [writeInode_array, if_pos hv]
  have hread : readInode (arrayDev u) sb ino d = (some (d.inodeAt sb ino), d) := by
    rw [readInode_array, if_pos hv]
  have hu : (arrayDev u).uninit = u := rfl
  have hgrown : ∀ n, (r'.grownTo n).root = r'.root ∧ (r'.grownTo n).mode = r'.mode := by
    intro n
    unfold Inode.grownTo
    split <;> exact ⟨rfl, rfl⟩
  refine ⟨w, r', d', ?_, hch, hch.touched L B O hv (hgrown _).1 (hgrown _).2, hle, hwrote⟩
  simp only [writeFile, Prog.run_bind, hread, hu, hrun, hwrite, Prog.run_pure]

omit L B in
theorem writeFile_invalid {ino : Nat} (hv : ¬ sb.ValidIno ino) (buffer : Buf)
    (size offset : Nat) : writeFile ino buffer size offset (arrayDev u) sb d = (none, d) := by
  simp [writeFile, readInode_array, hv]

theorem writeFile_touched (O : OwnedVol sb hi d) (ino : Nat) (buffer : Buf) (size offset : Nat) :
    Touched sb hi ino d (writeFile ino buffer size offset (arrayDev u) sb d).2 := by
  rcases em (sb.ValidIno ino) with hv | hv
  · obtain ⟨w, r', d', hrun, -, ht, -⟩ := writeFile_spec L B u O hv buffer size offset
    rw [hrun]
    exact ht
  · rw [writeFile_invalid u hv]
    exact Touched.refl O

end

end IpoOs
