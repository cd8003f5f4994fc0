import IpoOs.FsOps
import IpoOs.Runs

/-!
# The namespace operations, case by case

What the bodies of `ipo_fs_create`, `ipo_fs_delete` and `ipo_fs_rename`
can do, as inversion lemmas: the operation returns without touching the
disk, or it went through the steps listed, each of which is one of the
operations of the layer below. The invariants of later modules are read
off these lemmas.

The records `CreateOk`, `DeleteOk` and `RenameOk` name the steps of a call
that went through, with the states between them and the conditions that were
checked. A call that fails late has gone through some of the steps, and the
inversion lemma lists these cases as well.
-/

namespace IpoOs

theorem root_freshInode (mode links : UInt32) (pos : Pos) :
    (freshInode mode links).root pos = 0 := by
  cases pos <;> rfl

section

variable {sb : Superblock} {hi : Nat} {d : Disk} (L : SoundLayout sb) (B : BlockBound sb hi)
  (u : Block)

include L B

/-- `allocate_inode` on a volume whose inode numbers fit an `int`. -/
theorem allocateInode_cases (O : OwnedVol sb hi d) (hc : sb.inodeCount.toNat < 2147483648) :
    (∃ i d', sb.ValidIno i ∧ d.inodeUsed sb i = false
      ∧ allocateInode (arrayDev u) sb d = (some i, d')
      ∧ InodeTaken sb hi i Inode.zero d d')
    ∨ (∀ i, sb.ValidIno i → d.inodeUsed sb i = true)
      ∧ allocateInode (arrayDev u) sb d = (none, d) := by
  rcases @allocateInode_array u sb d with ⟨i, hv, hfree, hrun⟩ | h
  · refine Or.inl ⟨i, _, hv, hfree, ?_, inodeTaken L B O hv fun pos => by cases pos <;> rfl⟩
    have hlt : i < 2147483648 := Nat.lt_of_le_of_lt hv.2 hc
    rw [hrun, asInt_eq_some.mpr ⟨rfl, hlt⟩]
  · exact Or.inr h

/-- What `ipo_fs_create` asks before it takes an inode. -/
structure CreateOk (u : Block) (sb : Superblock) (d : Disk) (path : Str) (parent : Nat)
    (name : Str) : Prop where
  resolve : (pathResolveParent (arrayDev u) sb path d).1 = some (parent, name)
  valid : isValidFilename name = true
  absent : (dirFindEntry (arrayDev u) sb parent name d).1 = none

/-- The body of `ipo_fs_create`: nothing, or an inode taken and an entry added,
or the same with the addition refused and the inode released again. -/
theorem createEntry_cases (O : OwnedVol sb hi d) (hc : sb.inodeCount.toNat < 2147483648)
    (path : Str) (type : UInt8) :
    createEntry path type (arrayDev u) sb d = (none, d)
    ∨ ∃ parent name i d₁ d₂, CreateOk u sb d path parent name ∧ sb.ValidIno i
      ∧ d.inodeUsed sb i = false ∧ InodeTaken sb hi i (freshInode type.toUInt32 1) d d₁
      ∧ ((dirAddEntry (arrayDev u) sb parent name i type d₁ = (true, d₂)
          ∧ createEntry path type (arrayDev u) sb d = (some i, d₂))
        ∨ ∃ d₃, dirAddEntry (arrayDev u) sb parent name i type d₁ = (false, d₂)
          ∧ InodeFreed sb hi i d₂ d₃
          ∧ createEntry path type (arrayDev u) sb d = (none, d₃)) := by
  obtain ⟨p, hp⟩ : ∃ p, pathResolveParent (arrayDev u) sb path d = (p, d) :=
    ⟨_, (readOnly_pathResolveParent u sb path).run_eq d⟩
  cases p with
  | none => exact Or.inl (by simp [createEntry, hp])
  | some pn =>
      obtain ⟨parent, name⟩ := pn
      by_cases hname : isValidFilename name = true
      · obtain ⟨f, hf⟩ : ∃ f, dirFindEntry (arrayDev u) sb parent name d = (f, d) :=
          ⟨_, (readOnly_dirFindEntry u sb parent name).run_eq d⟩
        cases f with
        | some f => exact Or.inl (by simp [createEntry, hp, hname, hf])
        | none =>
            rcases allocateInode_cases L B u O hc with ⟨i, d₀, hv, hfree, hrun, ht⟩ | ⟨-, hrun⟩
            · have hok : CreateOk u sb d path parent name :=
                ⟨by rw [hp], hname, by rw [hf]⟩
              have ht' := ht.putInode L B hv (root_freshInode type.toUInt32 1)
              refine Or.inr ⟨parent, name, i, _, (dirAddEntry (arrayDev u) sb parent name i type
                (d₀.putInode sb i (freshInode type.toUInt32 1))).2, hok, hv, hfree, ht', ?_⟩
              obtain ⟨ok, d₂, hadd⟩ : ∃ ok d₂, dirAddEntry (arrayDev u) sb parent name i type
                  (d₀.putInode sb i (freshInode type.toUInt32 1)) = (ok, d₂) := ⟨_, _, rfl⟩
              rw [hadd]
              cases ok with
              | true =>
                  refine Or.inl ⟨rfl, ?_⟩
                  simp [createEntry, hp, hname, hf, hrun, writeInode_array, hv, hadd]
              | false =>
                  have hown := (dirAddEntry_touched L B u ht'.owned parent name i type).owned
                  rw [hadd] at hown
                  obtain ⟨d₃, hrel, hfreed⟩ := freeInode_freed L u B hown hv
                  refine Or.inr ⟨d₃, rfl, hfreed, ?_⟩
                  simp [createEntry, hp, hname, hf, hrun, writeInode_array, hv, hadd, hrel]
            · exact Or.inl (by simp [createEntry, hp, hname, hf, hrun])
      · exact Or.inl (by simp [createEntry, hp, hname])

/-- What `ipo_fs_delete` asks before it removes the entry. -/
structure DeleteOk (u : Block) (sb : Superblock) (d : Disk) (path : Str) (parent : Nat)
    (name : Str) (de : DirEntry) : Prop where
  resolve : (pathResolveParent (arrayDev u) sb path d).1 = some (parent, name)
  found : ∃ p k, (dirFindEntry (arrayDev u) sb parent name d).1 = some (de, p, k)
  valid : sb.ValidIno de.inode.toNat
  unprotected : (d.inodeAt sb de.inode.toNat).isProtected = false
  small : de.type = typeDir → (d.inodeAt sb de.inode.toNat).size.toNat ≤ 144

/-- The body of `ipo_fs_delete`: nothing, or an entry removed and its inode
released. -/
theorem deleteEntry_cases (O : OwnedVol sb hi d) (path : Str) :
    deleteEntry path (arrayDev u) sb d = (false, d)
    ∨ ∃ parent name de d₁ d₂, DeleteOk u sb d path parent name de
      ∧ dirRemoveEntry (arrayDev u) sb parent name d = (true, d₁)
      ∧ InodeFreed sb hi de.inode.toNat d₁ d₂
      ∧ deleteEntry path (arrayDev u) sb d = (true, d₂) := by
  obtain ⟨p, hp⟩ : ∃ p, pathResolveParent (arrayDev u) sb path d = (p, d) :=
    ⟨_, (readOnly_pathResolveParent u sb path).run_eq d⟩
  cases p with
  | none => exact Or.inl (by simp [deleteEntry, hp])
  | some pn =>
      obtain ⟨parent, name⟩ := pn
      obtain ⟨f, hf⟩ : ∃ f, dirFindEntry (arrayDev u) sb parent name d = (f, d) :=
        ⟨_, (readOnly_dirFindEntry u sb parent name).run_eq d⟩
      cases f with
      | none => exact Or.inl (by simp [deleteEntry, hp, hf])
      | some f =>
          obtain ⟨de, ph, k⟩ := f
          by_cases hv : sb.ValidIno de.inode.toNat
          · cases hprot : (d.inodeAt sb de.inode.toNat).isProtected with
            | true => exact Or.inl (by simp [deleteEntry, hp, hf, readInode_array, hv, hprot])
            | false =>
                by_cases hbig : de.type = typeDir
                    ∧ (d.inodeAt sb de.inode.toNat).size.toNat > 144
                · exact Or.inl (by simp [deleteEntry, hp, hf, readInode_array, hv, hprot, hbig])
                · have hok : DeleteOk u sb d path parent name de :=
                    ⟨by rw [hp], ⟨ph, k, by rw [hf]⟩, hv, hprot, fun ht => by
                      by_contra hc
                      exact hbig ⟨ht, by omega⟩⟩
                  obtain ⟨ok, d₁, hrem⟩ : ∃ ok d₁, dirRemoveEntry (arrayDev u) sb parent name d
                      = (ok, d₁) := ⟨_, _, rfl⟩
                  cases ok with
                  | true =>
                      have hown := (dirRemoveEntry_touched L B u O parent name).owned
                      rw [hrem] at hown
                      obtain ⟨d₂, hrel, hfreed⟩ := freeInode_freed L u B hown hv
                      refine Or.inr ⟨parent, name, de, d₁, d₂, hok, hrem, hfreed, ?_⟩
                      simp only [deleteEntry, Prog.run_bind, hp, hf, readInode_array, hv,
                        if_true, hprot, Bool.false_eq_true, if_false, Option.getD_some, hbig,
                        hrem, hrel, Prog.run_pure]
                  | false =>
                      have hsame : d₁ = d := by
                        rcases @dirRemoveEntry_cases sb u d parent name with
                          h | ⟨k, p, -, -, -, -, -, -, -, h⟩
                        · rw [hrem] at h
                          exact (Prod.mk.inj h).2
                        · rw [hrem] at h
                          cases (Prod.mk.inj h).1
                      refine Or.inl ?_
                      simp only [deleteEntry, Prog.run_bind, hp, hf, readInode_array, hv,
                        if_true, hprot, Bool.false_eq_true, if_false, Option.getD_some, hbig,
                        hrem, Prog.run_pure, hsame]
          · exact Or.inl (by simp [deleteEntry, hp, hf, readInode_array, hv])

/-! ## Renaming

The longest of the three: the new entry, the `..` of a directory, and the
removal of the old entry, each of which can fail. -/

/-- What `ipo_fs_rename` asks before it moves the entry. -/
structure RenameOk (u : Block) (sb : Superblock) (d : Disk) (fuel : Nat)
    (oldpath newpath : Str) (oldParent : Nat) (oldname : Str) (de : DirEntry)
    (newParent : Nat) (newname : Str) : Prop where
  notRoot : oldpath ≠ [slash]
  resolve : (pathResolveParent (arrayDev u) sb oldpath d).1 = some (oldParent, oldname)
  found : ∃ p k, (dirFindEntry (arrayDev u) sb oldParent oldname d).1 = some (de, p, k)
  valid : sb.ValidIno de.inode.toNat
  unprotected : (d.inodeAt sb de.inode.toNat).isProtected = false
  target : (renameTarget (arrayDev u) sb fuel de oldname newpath d).1
    = some (some (newParent, newname))
  validName : isValidFilename newname = true
  absent : (dirFindEntry (arrayDev u) sb newParent newname d).1 = none

/-- What makes `ipo_fs_rename` succeed without a move. -/
def RenameSame (u : Block) (sb : Superblock) (d : Disk) (fuel : Nat)
    (oldpath newpath : Str) : Prop :=
  (∃ i, (pathResolve (arrayDev u) sb oldpath d).1 = some i
    ∧ (pathResolve (arrayDev u) sb newpath d).1 = some i)
  ∨ ∃ oldParent oldname de p k newParent newname tmp q j,
    (pathResolveParent (arrayDev u) sb oldpath d).1 = some (oldParent, oldname)
    ∧ (dirFindEntry (arrayDev u) sb oldParent oldname d).1 = some (de, p, k)
    ∧ (renameTarget (arrayDev u) sb fuel de oldname newpath d).1
      = some (some (newParent, newname))
    ∧ (dirFindEntry (arrayDev u) sb newParent newname d).1 = some (tmp, q, j)
    ∧ tmp.inode = de.inode

omit L B in
/-- The body of `ipo_fs_rename` leaves the disk alone or moves the entry. -/
theorem renameEntry_cases (d : Disk) (fuel : Nat) (oldpath newpath : Str) :
    (∃ res, renameEntry fuel oldpath newpath (arrayDev u) sb d = (res, d)
      ∧ (res = some true → RenameSame u sb d fuel oldpath newpath))
    ∨ ∃ oldParent oldname de newParent newname,
      RenameOk u sb d fuel oldpath newpath oldParent oldname de newParent newname
      ∧ renameEntry fuel oldpath newpath (arrayDev u) sb d
        = (some (moveEntry (arrayDev u) sb oldParent oldname de newParent newname d).1,
          (moveEntry (arrayDev u) sb oldParent oldname de newParent newname d).2) := by
  by_cases hroot : oldpath = [slash]
  · exact Or.inl ⟨some false, by simp [renameEntry, hroot], by simp⟩
  · obtain ⟨oi, hoi⟩ : ∃ p, pathResolve (arrayDev u) sb oldpath d = (p, d) :=
      ⟨_, (readOnly_pathResolve u sb oldpath).run_eq d⟩
    obtain ⟨ni, hni⟩ : ∃ p, pathResolve (arrayDev u) sb newpath d = (p, d) :=
      ⟨_, (readOnly_pathResolve u sb newpath).run_eq d⟩
    by_cases hsame : oi.isSome ∧ oi = ni
    · refine Or.inl ⟨some true, ?_, fun _ => ?_⟩
      · simp only [renameEntry, hroot, if_false, Prog.run_bind, hoi, hni, Prog.run_ite]
        rw [if_pos hsame]
        rfl
      obtain ⟨i, hi⟩ := Option.isSome_iff_exists.mp hsame.1
      exact Or.inl ⟨i, by rw [hoi, hi], by rw [hni, ← hsame.2, hi]⟩
    · obtain ⟨p, hp⟩ : ∃ p, pathResolveParent (arrayDev u) sb oldpath d = (p, d) :=
        ⟨_, (readOnly_pathResolveParent u sb oldpath).run_eq d⟩
      cases p with
      | none =>
          exact Or.inl ⟨some false, by simp [renameEntry, hroot, hoi, hni, hsame, hp], by simp⟩
      | some pn =>
          obtain ⟨oldParent, oldname⟩ := pn
          obtain ⟨f, hf⟩ : ∃ f, dirFindEntry (arrayDev u) sb oldParent oldname d = (f, d) :=
            ⟨_, (readOnly_dirFindEntry u sb oldParent oldname).run_eq d⟩
          cases f with
          | none =>
              exact Or.inl ⟨some false,
                by simp [renameEntry, hroot, hoi, hni, hsame, hp, hf], by simp⟩
          | some f =>
              obtain ⟨de, ph, k⟩ := f
              by_cases hv : sb.ValidIno de.inode.toNat
              · cases hprot : (d.inodeAt sb de.inode.toNat).isProtected with
                | true =>
                    exact Or.inl ⟨some false, by simp [renameEntry, hroot, hoi, hni, hsame, hp,
                      hf, readInode_array, hv, hprot], by simp⟩
                | false =>
                    obtain ⟨t, ht⟩ : ∃ t, renameTarget (arrayDev u) sb fuel de oldname newpath d
                        = (t, d) :=
                          ⟨_, (readOnly_renameTarget u sb fuel de oldname newpath).run_eq d⟩
                    rcases t with _ | _ | ⟨newParent, newname⟩
                    · exact Or.inl ⟨none, by simp [renameEntry, hroot, hoi, hni, hsame, hp, hf,
                        readInode_array, hv, hprot, ht], by simp⟩
                    · exact Or.inl ⟨some false, by simp [renameEntry, hroot, hoi, hni, hsame,
                        hp, hf, readInode_array, hv, hprot, ht], by simp⟩
                    · by_cases hname : isValidFilename newname = true
                      · obtain ⟨g, hg⟩ : ∃ g, dirFindEntry (arrayDev u) sb newParent newname d
                            = (g, d) := ⟨_, (readOnly_dirFindEntry u sb newParent newname).run_eq d⟩
                        cases g with
                        | some g =>
                            obtain ⟨tmp, q, j⟩ := g
                            refine Or.inl ⟨some (tmp.inode = de.inode), by simp [renameEntry,
                              hroot, hoi, hni, hsame, hp, hf, readInode_array, hv, hprot, ht,
                              hname, hg],
                              fun h => Or.inr ⟨oldParent, oldname, de, ph, k, newParent, newname,
                                tmp, q, j, by rw [hp], by rw [hf], by rw [ht], by rw [hg], ?_⟩⟩
                            simpa using h
                        | none =>
                            refine Or.inr ⟨oldParent, oldname, de, newParent, newname,
                              ⟨hroot, by rw [hp], ⟨ph, k, by rw [hf]⟩, hv, hprot, by rw [ht],
                                hname, by rw [hg]⟩, ?_⟩
                            simp [renameEntry, hroot, hoi, hni, hsame, hp, hf, readInode_array,
                              hv, hprot, ht, hname, hg]
                      · exact Or.inl ⟨some false, by simp [renameEntry, hroot, hoi, hni, hsame,
                          hp, hf, readInode_array, hv, hprot, ht, hname], by simp⟩
              · exact Or.inl ⟨some false, by simp [renameEntry, hroot, hoi, hni, hsame, hp, hf,
                  readInode_array, hv], by simp⟩

omit L B in
theorem patchDotdot_cases (d : Disk) {ino : Nat} (hv : sb.ValidIno ino) (newParent : Nat) :
    patchDotdot (arrayDev u) sb ino newParent d = (true,
      if (d.inodeAt sb ino).direct 0 = 0 then d
      else d.set ((d.inodeAt sb ino).direct 0).toNat
        ((d ((d.inodeAt sb ino).direct 0).toNat).putWord 72 (UInt32.ofNat newParent))) := by
  by_cases h0 : (d.inodeAt sb ino).direct 0 = 0
  · simp [patchDotdot, readInode_array, hv, h0]
  · simp [patchDotdot, readInode_array, hv, h0]

omit L B in
/-- The move of an entry: the addition refused, or the addition, the new `..`
and the removal. -/
theorem moveEntry_cases (d : Disk) (oldParent : Nat) (oldname : Str) {de : DirEntry}
    (hv : sb.ValidIno de.inode.toNat) (newParent : Nat) (newname : Str) :
    (∃ d₁, dirAddEntry (arrayDev u) sb newParent newname de.inode.toNat de.type d = (false, d₁)
      ∧ moveEntry (arrayDev u) sb oldParent oldname de newParent newname d = (false, d₁))
    ∨ ∃ d₁ d₂,
      dirAddEntry (arrayDev u) sb newParent newname de.inode.toNat de.type d = (true, d₁)
      ∧ d₂ = (if de.type = typeDir then (patchDotdot (arrayDev u) sb de.inode.toNat newParent d₁).2
        else d₁)
      ∧ moveEntry (arrayDev u) sb oldParent oldname de newParent newname d
        = dirRemoveEntry (arrayDev u) sb oldParent oldname d₂ := by
  obtain ⟨ok, d₁, hadd⟩ : ∃ ok d₁,
      dirAddEntry (arrayDev u) sb newParent newname de.inode.toNat de.type d = (ok, d₁) :=
    ⟨_, _, rfl⟩
  cases ok with
  | false => exact Or.inl ⟨d₁, hadd, by simp [moveEntry, hadd]⟩
  | true =>
      refine Or.inr ⟨d₁, _, hadd, rfl, ?_⟩
      by_cases ht : de.type = typeDir
      · have hpatch : patchDotdot (arrayDev u) sb de.inode.toNat newParent d₁
            = (true, (patchDotdot (arrayDev u) sb de.inode.toNat newParent d₁).2) := by
          rw [patchDotdot_cases u d₁ hv]
        rw [if_pos ht]
        generalize (patchDotdot (arrayDev u) sb de.inode.toNat newParent d₁).2 = d₂ at hpatch ⊢
        simp only [moveEntry, Prog.run_bind, hadd, if_true, if_pos ht, hpatch]
      · simp [moveEntry, hadd, ht]

end

end IpoOs
