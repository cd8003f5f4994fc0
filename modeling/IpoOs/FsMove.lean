import IpoOs.FsEmpty
import IpoOs.FsLookups

/-!
# What a rename leaves alone

A move writes three slots: a new one in the new parent, the second one of
a moved directory, and the one it takes out of the old parent. The second
slot is rewritten by position; it holds the entry `..` in the directories
of `ipo_fs_format`, and whatever was added second in those of
`ipo_fs_create`.

`EntryMoved` says what a rename should do to the directories: one entry is
there that was not, one is gone, and every other directory has its entries.
It holds of every rename that returns true except of one that writes a new
parent over an entry, which is the case that `DirMoved` states exactly.
-/

namespace IpoOs

/-- The second slot of directory `ino` can be pointed at `newParent`: it holds no name but
`..`, or points there already. -/
def Disk.SecondFree (d : Disk) (r : Inode) (newParent : Nat) : Prop :=
  ∀ s, 1 < r.slots → d.dirSlot r 1 = some s →
    s.nameBytes = [] ∨ s.nameBytes = dotdot ∨ s.inode = UInt32.ofNat newParent

/-- A directory that can be moved: its old parent is allocated, it is neither its old parent nor
the new one, and its second slot is free for the new parent. -/
def MoveClear (u : Block) (sb : Superblock) (d : Disk) (fuel : Nat) (de : DirEntry)
    (oldParent : Nat) (oldname newpath : Str) : Prop :=
  ∀ newParent newname,
    (renameTarget (arrayDev u) sb fuel de oldname newpath d).1 = some (some (newParent, newname)) →
    d.LiveDir sb oldParent ∧ de.inode.toNat ≠ oldParent ∧ de.inode.toNat ≠ newParent
      ∧ (de.type = typeDir → d.SecondFree (d.inodeAt sb de.inode.toNat) newParent)

/-- The entry `de` moved: it is killed in the old parent, where it has the old name, and put in
the slot after the last of the new one under the new name; all other slots of all directories but
the one that is moved stay. -/
structure EntryMoved (sb : Superblock) (de : DirEntry) (oldParent : Nat) (oldname : Str)
    (newParent : Nat) (newname : Str) (d d' : Disk) : Prop where
  named : de.nameBytes = oldname
  removed : ∃ k, k < (d.inodeAt sb oldParent).slots
    ∧ d.dirSlot (d.inodeAt sb oldParent) k = some de
    ∧ d'.dirSlot (d'.inodeAt sb oldParent) k = some de.dead
    ∧ ∀ i, d.LiveDir sb i → i ≠ de.inode.toNat → ∀ e s, e < (d.inodeAt sb i).slots →
      ¬ (i = oldParent ∧ e = k) → d.dirSlot (d.inodeAt sb i) e = some s →
      d'.dirSlot (d'.inodeAt sb i) e = some s
  added : d'.dirSlot (d'.inodeAt sb newParent) (d.inodeAt sb newParent).slots
    = some (makeEntry de.inode.toNat de.type newname)
  slots : ∀ i, d.LiveDir sb i → i ≠ de.inode.toNat →
    (d'.inodeAt sb i).slots = (d.inodeAt sb i).slots + if i = newParent then 1 else 0

/-- What a rename of a directory may do: nothing to the names in it other than `..`, and to
the other directories nothing when the new path already leads to the entry, else one entry moved
to the directory and the name that the new path stands for. -/
structure DirMoved (u : Block) (sb : Superblock) (fuel : Nat) (de : DirEntry) (oldParent : Nat)
    (oldname oldpath newpath : Str) (d d' : Disk) : Prop where
  inner : ∀ name : CString, name.chars ≠ dotdot →
    d'.dirMap u sb de.inode.toNat name.chars = d.dirMap u sb de.inode.toNat name.chars
  outer : (RenameSame u sb d fuel oldpath newpath ∧ d' = d) ∨ ∃ newParent newname,
    (renameTarget (arrayDev u) sb fuel de oldname newpath d).1 = some (some (newParent, newname))
    ∧ (dirFindEntry (arrayDev u) sb newParent newname d).1 = none
    ∧ EntryMoved sb de oldParent oldname newParent newname d d'

/-! ## The three steps

Which slots each step may change, and the composition of the three. -/

/-- The slots of an inode stay. -/
structure SlotsKept (sb : Superblock) (i : Nat) (d d' : Disk) : Prop where
  inode : d'.inodeAt sb i = d.inodeAt sb i
  slot : ∀ e, d'.dirSlot (d.inodeAt sb i) e = d.dirSlot (d.inodeAt sb i) e

section

variable {sb : Superblock} {hi i ino : Nat} {d d' d'' : Disk}

theorem SlotsKept.refl : SlotsKept sb i d d := ⟨rfl, fun _ => rfl⟩

theorem SlotsKept.trans (h : SlotsKept sb i d d') (h' : SlotsKept sb i d' d'') :
    SlotsKept sb i d d'' := by
  have hs := h'.slot
  rw [h.inode] at hs
  exact ⟨h'.inode.trans h.inode, fun e => (hs e).trans (h.slot e)⟩

theorem Touched.slotsKept (h : Touched sb hi ino d d') (hne : i ≠ ino) : SlotsKept sb i d d' :=
  ⟨h.inodeAt i hne, fun e => (h.same i hne).dirSlot e⟩

theorem SlotChanged.slot_dead {k : Nat} (h : SlotChanged sb i k DirEntry.dead d d') {e : Nat}
    {s : DirEntry} (hs : d.dirSlot (d.inodeAt sb i) e = some s) :
    d'.dirSlot (d'.inodeAt sb i) e = some (if e = k then s.dead else s) := by
  rw [h.inodeAt, h.slot]
  split
  · rename_i he
    rw [← he, hs, Option.map_some]
  · exact hs

end

/-- The steps of a move: an entry added, `..` rewritten, an entry removed. -/
structure MoveSteps (sb : Superblock) (de : DirEntry) (oldParent : Nat) (oldname : Str)
    (newParent : Nat) (newname : Str) (d d₁ d₂ d₃ : Disk) (k : Nat) : Prop where
  added : EntryAdded sb newParent (makeEntry de.inode.toNat de.type newname) d d₁
  second : de.type = typeDir →
    SlotChanged sb de.inode.toNat 1 (fun s => { s with inode := UInt32.ofNat newParent }) d₁ d₂
  plain : de.type ≠ typeDir → d₂ = d₁
  owned : OwnedVol sb (intBound sb) d₂
  slot : k < (d₂.inodeAt sb oldParent).slots
  first : ∀ j, j < k → ¬ d₂.RemoveHit (d₂.inodeAt sb oldParent) oldname j
  hit : d₂.RemoveHit (d₂.inodeAt sb oldParent) oldname k
  removed : SlotChanged sb oldParent k DirEntry.dead d₂ d₃

theorem moveEntry_steps {u : Block} {sb : Superblock} {d d₃ : Disk} (L : SoundLayout sb)
    (O : OwnedVol sb (intBound sb) d) {oldParent newParent : Nat} {oldname newname : Str}
    {de : DirEntry} (hv : sb.ValidIno de.inode.toNat)
    (hrun : moveEntry (arrayDev u) sb oldParent oldname de newParent newname d = (true, d₃)) :
    ∃ d₁ d₂ k, MoveSteps sb de oldParent oldname newParent newname d d₁ d₂ d₃ k := by
  rcases moveEntry_cases u d oldParent oldname hv newParent newname with
    ⟨d₁, -, hmove⟩ | ⟨d₁, d₂, hadd, hd₂, hmove⟩
  · rw [hrun] at hmove
    cases (Prod.mk.inj hmove).1
  · have hadded := (dirAddEntry_added L u O hadd).2
    rw [hrun] at hmove
    have hmid : OwnedVol sb (intBound sb) d₂
        ∧ (de.type = typeDir → SlotChanged sb de.inode.toNat 1
          (fun s => { s with inode := UInt32.ofNat newParent }) d₁ d₂)
        ∧ (de.type ≠ typeDir → d₂ = d₁) := by
      rw [hd₂]
      rcases em (de.type = typeDir) with ht | ht
      · rw [if_pos ht]
        have hc := patchDotdot_slot L u hadded.touched.owned hv newParent
        exact ⟨hc.touched.owned, fun _ => hc, fun hne => absurd ht hne⟩
      · rw [if_neg ht]
        exact ⟨hadded.touched.owned, fun h => absurd h ht, fun _ => rfl⟩
    obtain ⟨hown, hdot, hplain⟩ := hmid
    obtain ⟨k, -, hk, -, hfirst, hhit, -, hrem⟩ := dirRemoveEntry_removed L u hown hmove.symm
    exact ⟨d₁, d₂, k, hadded, hdot, hplain, hown, hk, hfirst, hhit, hrem⟩

section

variable {sb : Superblock} {d d₁ d₂ d₃ : Disk} {de : DirEntry} {oldParent newParent k : Nat}
  {oldname newname : Str} (h : MoveSteps sb de oldParent oldname newParent newname d d₁ d₂ d₃ k)

include h

/-- The slots of the moved directory, when it is neither parent. -/
theorem MoveSteps.self_slot (hold : de.inode.toNat ≠ oldParent)
    (hnew : de.inode.toNat ≠ newParent) :
    d₃.inodeAt sb de.inode.toNat = d.inodeAt sb de.inode.toNat
    ∧ ∀ e, d₃.dirSlot (d.inodeAt sb de.inode.toNat) e
      = if de.type = typeDir ∧ e = 1 then
          (d.dirSlot (d.inodeAt sb de.inode.toNat) 1).map
            fun s => { s with inode := UInt32.ofNat newParent }
        else d.dirSlot (d.inodeAt sb de.inode.toNat) e := by
  have h₁ := h.added.touched.slotsKept hnew
  have h₃ := h.removed.touched.slotsKept hold
  rcases em (de.type = typeDir) with ht | ht
  · have h₂ := h.second ht
    have hat : d₂.inodeAt sb de.inode.toNat = d.inodeAt sb de.inode.toNat := by
      rw [h₂.inodeAt, h₁.inode]
    have hslot₂ := h₂.slot
    have hslot₃ := h₃.slot
    rw [h₁.inode] at hslot₂
    rw [hat] at hslot₃
    refine ⟨h₃.inode.trans hat, fun e => ?_⟩
    rw [hslot₃, hslot₂, h₁.slot, h₁.slot]
    simp only [ht, true_and]
  · obtain rfl := h.plain ht
    refine ⟨(h₁.trans h₃).inode, fun e => ?_⟩
    rw [(h₁.trans h₃).slot, if_neg fun hc => ht hc.1]

theorem MoveSteps.other_mid {i : Nat} (hi : i ≠ de.inode.toNat) : SlotsKept sb i d₁ d₂ := by
  rcases em (de.type = typeDir) with ht | ht
  · exact (h.second ht).touched.slotsKept hi
  · rw [h.plain ht]
    exact SlotsKept.refl

theorem MoveSteps.other_old {i : Nat} (hi : i ≠ de.inode.toNat) {e : Nat} {s : DirEntry}
    (he : e < (d.inodeAt sb i).slots) (hs : d.dirSlot (d.inodeAt sb i) e = some s) :
    d₂.dirSlot (d₂.inodeAt sb i) e = some s := by
  have hmid := h.other_mid hi
  rw [hmid.inode, hmid.slot]
  rcases em (i = newParent) with rfl | hne
  · exact h.added.kept e s (Nat.ne_of_lt he) hs
  · have h₁ := h.added.touched.slotsKept hne
    rw [h₁.inode, h₁.slot, hs]

/-- Another directory has one slot more after the addition when it is the new parent. -/
theorem MoveSteps.other_slots {i : Nat} (hi : i ≠ de.inode.toNat) :
    (d₂.inodeAt sb i).slots = (d.inodeAt sb i).slots + if i = newParent then 1 else 0 := by
  rw [(h.other_mid hi).inode]
  rcases em (i = newParent) with rfl | hne
  · rw [if_pos rfl, h.added.slots]
  · rw [if_neg hne, (h.added.touched.slotsKept hne).inode, Nat.add_zero]

end

/-! ## The move

The entries by name after a move, from the slots. -/

theorem dirFindEntry_named {u : Block} {sb : Superblock} {d : Disk} {dir p k : Nat} {name : Str}
    {de : DirEntry} (hd : d.DirOk sb dir)
    (hf : (dirFindEntry (arrayDev u) sb dir name d).1 = some (de, p, k)) : de.HasName name := by
  obtain ⟨hv, hdir⟩ := dirFindEntry_isDir hf
  have hne : name ≠ [] := by
    rintro rfl
    have hrun : dirFindEntry (arrayDev u) sb dir [] d = dirFindFrom (arrayDev u) sb
        (d.inodeAt sb dir) [] (d.inodeAt sb dir).slots 0 d := by
      simp [dirFindEntry, readInode_array, hv, hdir, Inode.slots]
    rw [hrun, dirFindFrom_nil] at hf
    cases hf
  have hfind := dirFindEntry_find u hd hv hdir hne
  rw [hf, Option.map_some] at hfind
  obtain ⟨e, he, hs, hlive⟩ := mem_liveEntries.mp (List.mem_of_find?_eq_some hfind.symm)
  have hname : de.nameBytes = name := by simpa using List.find?_some hfind.symm
  obtain ⟨s, hs', hn⟩ := hd e he
  obtain rfl := Option.some.inj (hs'.symm.trans hs)
  rcases hn.readable hlive with ⟨hlen, -⟩ | ⟨stored, hstored⟩
  · rw [nameBytes_eq_nil hlen] at hname
    exact absurd hname.symm hne
  · rw [hstored.nameBytes] at hname
    exact hname ▸ hstored

theorem DirEntry.hit_iff {s : DirEntry} (h : s.Readable) (name : Str) :
    s.hit name = true ↔ s.inode ≠ 0 ∧ name ≠ [] ∧ s.nameBytes = name := by
  have hdec : DirEntry.decode (Buf.zero.patch 0 72 s.encode) 0 = s :=
    DirEntry.decode_patch Buf.zero 0 s
  have hmatch := @entryMatches_iff (Buf.zero.patch 0 72 s.encode) 0 (by rw [hdec]; exact h) name
  rwa [hdec] at hmatch

theorem dirFindEntry_slot {u : Block} {sb : Superblock} {d : Disk} {dir p k : Nat} {name : Str}
    {de : DirEntry} (hd : d.DirOk sb dir)
    (hf : (dirFindEntry (arrayDev u) sb dir name d).1 = some (de, p, k)) :
    ∃ e, e < (d.inodeAt sb dir).slots ∧ d.dirSlot (d.inodeAt sb dir) e = some de ∧ de.inode ≠ 0
      ∧ ∀ e' s, e' < e → d.dirSlot (d.inodeAt sb dir) e' = some s → s.inode ≠ 0 →
        s.nameBytes ≠ name := by
  have hname := dirFindEntry_named hd hf
  have hlook : (dirFindEntry (arrayDev u) sb dir name d).1.map (·.1) = d.lookupName sb dir name :=
    dirFindEntry_lookupName u hname.short
  rw [hf, Option.map_some] at hlook
  obtain ⟨-, hhit, e, he, hs, hfirst⟩ := lookupName_eq_some.mp hlook.symm
  have hread : ∀ e' s, e' < (d.inodeAt sb dir).slots → d.dirSlot (d.inodeAt sb dir) e' = some s →
      s.Readable := by
    intro e' s he' hs'
    obtain ⟨t, ht, hn⟩ := hd e' he'
    exact Option.some.inj (ht.symm.trans hs') ▸ hn.readable
  refine ⟨e, he, hs, ((DirEntry.hit_iff (hread e de he hs) name).mp hhit).1,
    fun e' s he' hs' hlive hn => ?_⟩
  have hmiss := hfirst e' he' s hs'
  rw [(DirEntry.hit_iff (hread e' s (by omega) hs') name).mpr ⟨hlive, hname.ne_nil, hn⟩] at hmiss
  cases hmiss

theorem nameBytes_of_strncmp {buf : Block} {off : Nat} {name : Str}
    (hr : (DirEntry.decode buf off).Readable) (hlive : (DirEntry.decode buf off).inode ≠ 0)
    (hne : name ≠ []) (hnul : (0 : UInt8) ∉ name)
    (hcmp : strncmp (entryName buf off) (cstr name) 64 = 0) :
    (DirEntry.decode buf off).nameBytes = name := by
  rcases hr hlive with ⟨-, hzero⟩ | ⟨stored, hstored⟩
  · have hpos : 0 < name.length := List.length_pos_iff.mpr hne
    have h0 := strncmpFrom_eq_zero.mp hcmp 0 (by decide) fun k hk => by omega
    rw [Nat.add_zero] at h0
    have hn : entryName buf off 0 = 0 := hzero
    rw [hn] at h0
    exact absurd h0.symm (cstr_ne_zero hnul hpos)
  · have hshort := hstored.short
    rw [hstored.nameBytes, (strncmp_hasName hstored hnul (Or.inl hshort)).mp hcmp]

section

variable {u : Block} {sb : Superblock} {d d₁ d₂ d₃ : Disk} {de : DirEntry}
  {oldParent newParent k : Nat} {oldname newname : Str}
  (h : MoveSteps sb de oldParent oldname newParent newname d d₁ d₂ d₃ k)

include h

theorem MoveSteps.killed {p q : Nat} (hd : d.DirOk sb oldParent)
    (hf : (dirFindEntry (arrayDev u) sb oldParent oldname d).1 = some (de, p, q))
    (hold : oldParent ≠ de.inode.toNat) :
    k < (d.inodeAt sb oldParent).slots ∧ d.dirSlot (d.inodeAt sb oldParent) k = some de := by
  have hname := dirFindEntry_named hd hf
  obtain ⟨e, he, hs, hlive, hfirst⟩ := dirFindEntry_slot hd hf
  have hint := h.owned.intPtrs oldParent
  -- the entry is still there when the loop of the removal comes by
  have hhit : d₂.RemoveHit (d₂.inodeAt sb oldParent) oldname e := by
    obtain ⟨b, hb, hdec⟩ := (dirSlot_lookup hint).mp (h.other_old hold he hs)
    have hstored : (DirEntry.decode (d₂ b) (e % 7 * 72)).HasName oldname := hdec ▸ hname
    refine ⟨b, hb, ?_, (strncmp_hasName hstored hname.noNul (Or.inl hname.short)).mpr rfl⟩
    have hino : entryInode (d₂ b) (e % 7 * 72) = de.inode := congrArg DirEntry.inode hdec
    rw [hino]
    exact hlive
  have hle : k ≤ e := by
    by_contra hc
    exact h.first e (by omega) hhit
  rcases Nat.eq_or_lt_of_le hle with rfl | hlt
  · exact ⟨he, hs⟩
  · -- an earlier slot of that name would have been found
    obtain ⟨t, ht, hn⟩ := hd k (by omega)
    have ht₂ := h.other_old hold (by omega) ht
    obtain ⟨b, hb, hblive, hcmp⟩ := h.hit
    have hslot := (dirSlot_lookup hint).mpr ⟨b, hb, rfl⟩
    obtain rfl := Option.some.inj (hslot.symm.trans ht₂)
    exact absurd (nameBytes_of_strncmp hn.readable hblive hname.ne_nil hname.noNul hcmp)
      (hfirst k _ hlt ht hblive)

/-- The other directories lose the entry moved and gain it, and that is all. -/
theorem MoveSteps.entryMoved {p q : Nat} (hd : d.DirOk sb oldParent)
    (hf : (dirFindEntry (arrayDev u) sb oldParent oldname d).1 = some (de, p, q))
    (hold : oldParent ≠ de.inode.toNat) (hnew : newParent ≠ de.inode.toNat) :
    EntryMoved sb de oldParent oldname newParent newname d d₃ := by
  obtain ⟨hk, hks⟩ := h.killed hd hf hold
  -- a slot of another directory after the removal
  have hafter : ∀ i e s, ¬ (i = oldParent ∧ e = k) → d₂.dirSlot (d₂.inodeAt sb i) e = some s →
      d₃.dirSlot (d₃.inodeAt sb i) e = some s := by
    intro i e s hne hs
    rcases em (i = oldParent) with rfl | hi
    · have hs₃ := h.removed.slot_dead hs
      rwa [if_neg fun hc => hne ⟨rfl, hc⟩] at hs₃
    · have h₃ := h.removed.touched.slotsKept hi
      rw [h₃.inode, h₃.slot, hs]
  refine ⟨(dirFindEntry_named hd hf).nameBytes, ⟨k, hk, hks, ?_, fun i _ hi e s he hne hs =>
    hafter i e s hne (h.other_old hi he hs)⟩, ?_, fun i _ hi => ?_⟩
  · have hs₃ := h.removed.slot_dead (h.other_old hold hk hks)
    rwa [if_pos rfl] at hs₃
  · refine hafter newParent _ _ (fun hc => ?_) ?_
    · rw [← hc.1, hc.2] at hk
      exact Nat.lt_irrefl _ hk
    · have hmid := h.other_mid hnew
      rw [hmid.inode, hmid.slot]
      exact h.added.slot
  · rw [h.removed.inodeAt]
    exact h.other_slots hi

theorem MoveSteps.inner (hd : d.DirOk sb de.inode.toNat) (hv : sb.ValidIno de.inode.toNat)
    (hdir : (d.inodeAt sb de.inode.toNat).isDir = true) (hold : de.inode.toNat ≠ oldParent)
    (hnew : de.inode.toNat ≠ newParent)
    (hsecond : de.type = typeDir → d.SecondFree (d.inodeAt sb de.inode.toNat) newParent)
    {name : Str} (hname : name ≠ dotdot) :
    d₃.dirMap u sb de.inode.toNat name = d.dirMap u sb de.inode.toNat name := by
  obtain ⟨hat, hslot⟩ := h.self_slot hold hnew
  have hread : ∀ e s, e < (d.inodeAt sb de.inode.toNat).slots →
      d.dirSlot (d.inodeAt sb de.inode.toNat) e = some s → s.Named := by
    intro e s he hs
    obtain ⟨s', hs', hn⟩ := hd e he
    exact Option.some.inj (hs'.symm.trans hs) ▸ hn
  refine dirMap_congr u hv hdir (by rw [hat]; exact hdir)
    (fun e s he hs => (hread e s he hs).readable) (fun e s he hs => ?_) (by rw [hat])
    fun hne e he => ?_
  · rw [hat] at he hs
    rw [hslot] at hs
    split at hs
    · rename_i hc
      obtain ⟨s', hs', rfl⟩ := Option.map_eq_some_iff.mp hs
      exact ((hread 1 s' (hc.2 ▸ he) hs').setInode _).readable
    · exact (hread e s he hs).readable
  · rw [hat, hslot]
    split
    · rename_i hc
      obtain ⟨ht, rfl⟩ := hc
      cases hs : d.dirSlot (d.inodeAt sb de.inode.toNat) 1 with
      | none => rfl
      | some s =>
          -- the second slot has no name that is looked up, or does not change
          have hother : s.nameBytes ≠ name →
              DirEntry.valueFor name { s with inode := UInt32.ofNat newParent }
                = DirEntry.valueFor name s := by
            intro hn
            unfold DirEntry.valueFor
            rw [if_neg fun hc => hn hc.2, if_neg fun hc => hn hc.2]
          show DirEntry.valueFor name { s with inode := UInt32.ofNat newParent }
            = DirEntry.valueFor name s
          rcases hsecond ht s he hs with hnil | hdots | hsame
          · exact hother fun hc => hne (hc.symm.trans hnil)
          · exact hother fun hc => hname (hc.symm.trans hdots)
          · rw [← hsame]
    · rfl

end

theorem mountedKernel_files :
    FsRun Buf.zero FilesWritten (formattedKernel 12 6) (mountedKernel 12 6) := by
  refine Relation.ReflTransGen.single ⟨.mount, trivial, ?_⟩
  rw [mountedKernel, ← formattedKernel_start]
  exact rfl

theorem dirKernel_files : FsRun Buf.zero FilesWritten (formattedKernel 12 6) dirKernel :=
  mountedKernel_files.tail ⟨.create dPath typeDir, trivial, rfl⟩

theorem formattedKernel_volOk : VolOk (formattedKernel 12 6) :=
  ipoFsFormat_ok formattedKernel_run (by decide) (by decide)

theorem formattedKernel_dirsOk : DirsOk (formattedKernel 12 6).sb (formattedKernel 12 6).disk :=
  ipoFsFormat_dirsOk formattedKernel_run (by decide) (by decide)

theorem renameTarget_new {u : Block} {sb : Superblock} {d : Disk} {fuel : Nat} {de : DirEntry}
    {oldname newpath : Str} (h : (pathResolve (arrayDev u) sb newpath d).1 = none) :
    (renameTarget (arrayDev u) sb fuel de oldname newpath d).1
      = some (pathResolveParent (arrayDev u) sb newpath d).1 := by
  have hrun : pathResolve (arrayDev u) sb newpath d = (none, d) :=
    Prod.ext h (readOnly_pathResolve u sb newpath d)
  simp [renameTarget, hrun]

/-- The path `/e`. -/
def ePath : CString := rootPath [101] (by decide)

/-- The kernel after `/d` was renamed to `/e`. -/
def renamed (k : Kernel Disk) : Kernel Disk := (ipoFsRename (diskDev Buf.zero) 8 dPath ePath k).2

/-- The path `/d/g`. -/
def dgPath : CString := rootPath [100, 47, 103] (by decide)

def pairKernel : Kernel Disk :=
  (ipoFsCreate (diskDev Buf.zero) dgPath typeFile fullKernel).2

theorem pairKernel_files : FsRun Buf.zero FilesWritten (formattedKernel 12 6) pairKernel :=
  (dirKernel_files.tail ⟨.create dfPath typeFile, trivial, rfl⟩).tail
    ⟨.create dgPath typeFile, trivial, rfl⟩

end IpoOs
