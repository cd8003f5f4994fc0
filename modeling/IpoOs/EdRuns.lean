import IpoOs.EdOwned
import IpoOs.FsTable
import IpoOs.Runs

/-!
# Block ownership over runs of the editor

Every command of the editor that returns keeps the pointers of the volume
owned, with one exception: when the removal of an entry leaves a
directory with fewer blocks, `dir_remove_entry` clears the bits of the
others and leaves the pointers to them in the record.

The invariant is that of the kernel's runs, said of the volume of the image.
A command is followed from helper to helper with the record in memory, and
put back at its end.
-/

namespace IpoOs

/-! ## Records and blocks put back

The state between two helpers, where a record is in memory, and the steps
that return it to its slot. -/

section

variable {sb : Superblock} {hi : Nat} {d d' : Disk} {T T' : Nat → Inode} {ino : Nat} {r : Inode}

theorem VolOwned.freed {S : Nat → Prop} (O : VolOwned sb hi d T) (B : BlockBound sb hi)
    (hdrop : ∀ j pos, d.ptr (T' j) pos = 0 ∨ d.ptr (T' j) pos = d.ptr (T j) pos)
    (hf : Freed sb S d d') (hS : ∀ j pos, d.ptr (T' j) pos ≠ 0 → ¬ S (d.ptr (T' j) pos)) :
    VolOwned sb hi d' T' := by
  have hO : VolOwned sb hi d T' := VolOwned.of_table O hdrop
  unfold VolOwned
  rw [hO.volPtr_of_data hf.data]
  refine Owned.of_used hO fun s h0 => ?_
  exact (hf.used _ (hO.dataBlock B h0)).mpr ⟨hO.used s h0, hS s.1 s.2 h0⟩

theorem VolOwned.written (L : SoundLayout sb) (B : BlockBound sb hi)
    (hat : ∀ j, d'.inodeAt sb j = d.inodeAt sb j) (hv : sb.ValidIno ino)
    (O : VolOwned sb hi d' (Function.update (d.inodeAt sb) ino r)) :
    OwnedVol sb hi (d'.putInode sb ino r) := by
  have htable : (d'.putInode sb ino r).inodeAt sb = Function.update (d.inodeAt sb) ino r := by
    rw [L.inodeAt_putInode_eq hv, funext hat]
  unfold OwnedVol
  rw [htable]
  exact O.putInode L B hv r

theorem VolOwned.root_eq {r' : Inode} (O : VolOwned sb hi d (Function.update T ino r))
    (h : r'.root = r.root) : VolOwned sb hi d (Function.update T ino r') := by
  refine VolOwned.of_table O fun j pos => Or.inr ?_
  rcases em (j = ino) with rfl | hj
  · rw [Function.update_self, Function.update_self, Disk.ptr_of_root_eq h]
  · rw [Function.update_of_ne hj, Function.update_of_ne hj]

end

namespace DiskImage.Sound

variable {img img' : DiskImage} (S : img.Sound)

include S

theorem update (i : Nat) : VolOwned img.sb img.sb.fsSizeBlocks.toNat img.disk
    (Function.update (img.disk.inodeAt img.sb) i (img.disk.inodeAt img.sb i)) := by
  rw [Function.update_eq_self]
  exact S.owned

theorem touched {i : Nat} {d : Disk} (h : img.Becomes d img')
    (ht : Touched img.sb img.sb.fsSizeBlocks.toNat i img.disk d) : img'.Sound :=
  S.becomes h ht.owned

theorem taken {i : Nat} (hv : img.sb.ValidIno i) :
    (img.withDisk ((img.disk.setInodeUsed img.sb i true).putInode img.sb i Inode.zero)).Sound :=
  S.becomes (DiskImage.Becomes.withDisk img _)
    (inodeTaken S.whole.sound (blockBound_size img.sb) S.owned hv
      fun pos => by cases pos <;> rfl).owned

theorem putPlain {i : Nat} (hv : img.sb.ValidIno i) {r : Inode} (hr : ∀ pos, r.root pos = 0) :
    (img.withDisk (img.disk.putInode img.sb i r)).Sound := by
  refine S.becomes (DiskImage.Becomes.withDisk img _) ?_
  refine VolOwned.written S.whole.sound (blockBound_size img.sb) (fun _ => rfl) hv ?_
  refine VolOwned.of_table S.owned fun j pos => ?_
  rcases em (j = i) with rfl | hj
  · rw [Function.update_self]
    exact Or.inl (Disk.ptr_of_no_roots hr img.disk pos)
  · rw [Function.update_of_ne hj]
    exact Or.inr rfl

end DiskImage.Sound

theorem keeps_packEntry {γ : Type} {f : DiskImage → γ} (ino typ : Int) (nameLen : Nat)
    (name : List UInt8) : Ed.Keeps f (packEntry ino typ nameLen name) :=
  Ed.Keeps.ite (.pure _) (.raise _)

theorem packInode_newFile (img : DiskImage) :
    packInode newFile img = (.ok { Inode.zero with mode := 2, linksCount := 1 }, img) := by
  have hpack := packInode_ofInode { Inode.zero with mode := 2, linksCount := 1 } 0 img
  rw [if_pos (by decide)] at hpack
  exact hpack

section

variable {img img' : DiskImage} (S : img.Sound)

include S

/-- The number that `allocate_inode` returned is that of a free inode, or `-1`. -/
theorem edAllocateInode_sound {ino : Int} (h : edAllocateInode img = (.ok ino, img')) :
    ino = -1 ∨ ∃ i : Nat, ino = i ∧ img.sb.ValidIno i ∧ img'.Sound ∧ img'.sb = img.sb := by
  rcases edAllocateInode_run S.whole with ⟨i, hv, -, hrun⟩ | ⟨-, hrun⟩
  · rw [h] at hrun
    obtain ⟨hres, rfl⟩ := Prod.mk.inj hrun
    exact Or.inr ⟨i, Except.ok.inj hres, hv, S.taken hv, rfl⟩
  · rw [h] at hrun
    exact Or.inl (Except.ok.inj (Prod.mk.inj hrun).1)

theorem edWriteInode_newFile {i : Nat} (hv : img.sb.ValidIno i)
    (h : edWriteInode i newFile img = (.ok (), img')) : img'.Sound ∧ img'.sb = img.sb := by
  rw [edWriteInode_run S.whole hv (packInode_newFile img)] at h
  obtain ⟨-, rfl⟩ := Prod.mk.inj h
  exact ⟨S.putPlain hv fun pos => by cases pos <;> rfl, rfl⟩

theorem edDirAddEntry_sound {dirino ino typ : Int} {name : PyStr} {b : Bool}
    (h : edDirAddEntry dirino name ino typ img = (.ok b, img')) :
    img'.Sound ∧ img'.sb = img.sb := by
  obtain ⟨dir, -, -, ⟨-, rfl⟩ | ⟨-, -, d', hd, ht⟩⟩ := edDirAddEntry_touched S h
  · exact ⟨S, rfl⟩
  · exact ⟨S.touched hd ht, hd.sb⟩

/-! ## Contents

The contents of a file replaced, with the release before it. -/

theorem edWriteContents_sound {ino : Int} {data : List UInt8}
    (h : edWriteContents ino data img = (.ok (), img')) : img'.Sound := by
  obtain ⟨inode, img₁, hread, hrest⟩ := Ed.bind_ok h
  obtain ⟨i, rfl, hv, rfl, rfl⟩ := edReadInode_returns S.whole hread
  obtain ⟨x, img₂, hloop, hwrite⟩ := Ed.bind_ok hrest
  have hwrote : EdWrote img₁ (img₁.disk.inodeAt img₁.sb) i (img₁.disk.inodeAt img₁.sb i)
      data.length x img₂ := edWriteBlocks_wrote S.whole (S.update i) hloop
  obtain ⟨d', hd, ht⟩ := hwrote.writeInode S hv hwrite
  exact S.touched hd ht

/-- The volume once `put` has released the blocks of the file and written the record back. -/
theorem edPutFree_sound {i : Nat} (hv : img.sb.ValidIno i) {d : Disk}
    (hf : Freed img.sb (img.disk.blocksAt (img.disk.inodeAt img.sb i)
      (putPos (img.disk.inodeAt img.sb i))) img.disk d) {size : UInt32} :
    (img.withDisk
        (d.putInode img.sb i ((img.disk.inodeAt img.sb i).putFreed.packed size))).Sound := by
  have hptr : ∀ j pos, img.disk.ptr (Function.update (img.disk.inodeAt img.sb) i
      (img.disk.inodeAt img.sb i).putFreed j) pos
      = if j = i ∧ putPos (img.disk.inodeAt img.sb i) pos then 0
        else img.disk.ptr (img.disk.inodeAt img.sb j) pos := by
    intro j pos
    rcases em (j = i) with rfl | hj
    · rw [Function.update_self, Disk.ptr_putFreed]
      simp only [true_and]
    · rw [Function.update_of_ne hj]
      simp only [hj, false_and, if_false]
  have hO : VolOwned img.sb img.sb.fsSizeBlocks.toNat d
      (Function.update (img.disk.inodeAt img.sb) i (img.disk.inodeAt img.sb i).putFreed) := by
    refine S.owned.freed (blockBound_size img.sb) (fun j pos => ?_) hf fun j pos h0 => ?_
    · rw [hptr]
      split
      · exact Or.inl rfl
      · exact Or.inr rfl
    · rw [hptr] at h0 ⊢
      -- a pointer that is left is not one of those released
      rintro ⟨hp0, t, ht, hp⟩
      split at h0
      · exact h0 rfl
      · rename_i hkept
        rw [if_neg hkept] at hp
        have hinj := S.owned.inj (j, pos) (i, t) h0 hp.symm
        obtain ⟨rfl, rfl⟩ := Prod.mk.inj hinj
        exact hkept ⟨rfl, ht⟩
  refine S.becomes (DiskImage.Becomes.withDisk img _) ?_
  exact VolOwned.written S.whole.sound (blockBound_size img.sb) (hf.sameMeta.inodeAt S.whole.sound)
    hv
    (hO.root_eq (Inode.root_packed _ size))

theorem edPutContents_sound {target : Int} {data : List UInt8}
    (h : edPutContents target data img = (.ok (), img')) : img'.Sound := by
  obtain ⟨inode, img₁, hread, hfree⟩ := Ed.bind_ok h
  obtain ⟨i, rfl, hv, rfl, rfl⟩ := edReadInode_returns S.whole hread
  obtain ⟨x, img₂, hfreed, hempty⟩ := Ed.bind_ok hfree
  obtain ⟨_, img₃, hrecord, hloop⟩ := Ed.bind_ok hempty
  obtain ⟨y, img₄, hwritten, hlast⟩ := Ed.bind_ok hloop
  clear h hread hfree hempty hloop
  obtain ⟨d, hrun, hf⟩ := edPutFree_spec S.whole (S.dataBlock i)
  rw [hfreed] at hrun
  obtain ⟨hres, rfl⟩ := Prod.mk.inj hrun
  obtain rfl := Except.ok.inj hres
  have hsaved := edWriteInode_returns (S.whole.withDisk d) hv hrecord
  rw [DiskImage.withDisk_withDisk, DiskImage.disk_withDisk, DiskImage.withDisk_sb] at hsaved
  have S₃ : img₃.Sound := by
    rw [hsaved]
    exact edPutFree_sound S hv hf
  have hsb : img₃.sb = img₁.sb := by rw [hsaved, DiskImage.withDisk_sb]
  have hat : img₃.disk.inodeAt img₃.sb i
      = (img₁.disk.inodeAt img₁.sb i).putFreed.packed (UInt32.ofNat 0) := by
    rw [hsb, hsaved, DiskImage.disk_withDisk, S.whole.sound.inodeAt_putInode hv, if_pos rfl]
  have hdict : PyInode.sized (img₃.disk.inodeAt img₃.sb i) 0
      = PyInode.sized (img₁.disk.inodeAt img₁.sb i).putFreed 0 := by
    rw [hat]
    rfl
  have hrun₃ : edWriteBlocks (dataBlock data) (blocksFor data.length) 0
      (PyInode.sized (img₃.disk.inodeAt img₃.sb i) 0) img₃ = (.ok y, img₄) := by
    rw [hdict]
    exact hwritten
  have hwrote := edWriteBlocks_wrote S₃.whole (S₃.update i) hrun₃
  obtain ⟨d', hd, ht⟩ := hwrote.writeInode S₃ (hsb ▸ hv) hlast
  exact S₃.touched hd ht

/-! ## The commands

One lemma for each command. -/

def newDirectory : Inode := { Inode.zero with mode := 1, linksCount := 2 }

theorem newDirectory_sound {i : Nat} (hv : img.sb.ValidIno i) {p : Nat} (hp : img.sb.DataBlock p)
    (hfree : img.disk.blockUsed img.sb p = false) (b : Block) {size : UInt32} :
    (img.withDisk (((img.disk.takeBlock img.sb p).set p b).putInode img.sb i
      ((newDirectory.setPtr (.direct 0) p).packed size))).Sound := by
  have hp32 : p < 4294967296 := Nat.lt_trans hp.2 img.sb.fsSizeBlocks.toNat_lt
  have hroots : ∀ pos, newDirectory.root pos = 0 := fun pos => by cases pos <;> rfl
  have hO : VolOwned img.sb img.sb.fsSizeBlocks.toNat img.disk
      (Function.update (img.disk.inodeAt img.sb) i newDirectory) := by
    refine VolOwned.of_table S.owned fun j pos => ?_
    rcases em (j = i) with rfl | hj
    · rw [Function.update_self]
      exact Or.inl (Disk.ptr_of_no_roots hroots img.disk pos)
    · rw [Function.update_of_ne hj]
      exact Or.inr rfl
  have hnull := Disk.ptr_of_no_roots hroots img.disk (.direct 0)
  have hpar : ∀ v, (Pos.direct 0).parent = some v → img.disk.ptr newDirectory v ≠ 0 := nofun
  have hlink :=
    Grew.link (A := fun _ => True) S.whole.sound (blockBound_size img.sb) hO hp hp32 hp.2
    hfree trivial hnull hpar
  have hptr := VolOwned.ptr_link S.whole.sound hO hp hp32 hfree hnull hpar (.direct 0)
  rw [if_pos rfl] at hptr
  have hdisk : (img.disk.takeBlock img.sb p).setPtr newDirectory (.direct 0) p
      = img.disk.takeBlock img.sb p := rfl
  rw [hdisk] at hlink hptr
  have hne : (img.disk.takeBlock img.sb p).ptr (newDirectory.setPtr (.direct 0) p) (.direct 0)
      ≠ 0 := by
    rw [hptr]
    exact S.whole.sound.dataBlock_ne_zero hp
  have hset := Changed.set S.whole.sound (blockBound_size img.sb) hlink.owned hne rfl b
  rw [hptr] at hset
  have hch := hlink.changed.trans hset
  refine S.becomes (DiskImage.Becomes.withDisk img _) ?_
  exact VolOwned.written S.whole.sound (blockBound_size img.sb) (hch.sameMeta.inodeAt S.whole.sound)
    hv
    (hch.owned.root_eq (Inode.root_packed _ size))

theorem edMkdirIn_sound {parent : Int} {name : PyStr}
    (h : edMkdirIn parent name img = (.ok (), img')) : img'.Sound := by
  obtain ⟨ino, img₁, hino, hrest⟩ := Ed.bind_ok h
  rcases edAllocateInode_sound S hino with rfl | ⟨i, rfl, hv, S₁, hsb₁⟩
  · rw [if_pos (by decide)] at hrest
    cases (Prod.mk.inj hrest).1
  rw [if_neg (Int.not_lt.mpr (Int.natCast_nonneg i))] at hrest
  obtain ⟨block, img₂, hblock, hrest₂⟩ := Ed.bind_ok hrest
  rcases edAllocateBlock_run S₁.whole with ⟨p, hp, hfree, hrun⟩ | ⟨-, hrun⟩
  · rw [hblock] at hrun
    obtain ⟨hres, rfl⟩ := Prod.mk.inj hrun
    obtain rfl := Except.ok.inj hres
    rw [if_neg (Int.not_lt.mpr (Int.natCast_nonneg p))] at hrest₂
    obtain ⟨dot, img₃, hdot, hrest₃⟩ := Ed.bind_ok hrest₂
    obtain ⟨ddot, img₄, hddot, hrest₄⟩ := Ed.bind_ok hrest₃
    obtain ⟨_, img₅, hwrite, hrest₅⟩ := Ed.bind_ok hrest₄
    obtain ⟨_, img₆, hinode, hrest₆⟩ := Ed.bind_ok hrest₅
    obtain ⟨b, img₇, hadd, hrest₇⟩ := Ed.bind_ok hrest₆
    obtain rfl := Ed.Keeps.same (keeps_packEntry _ _ _ _) hdot
    obtain rfl := Ed.Keeps.same (keeps_packEntry _ _ _ _) hddot
    rw [writeBlock_withDisk S₁.whole hp.2] at hwrite
    obtain ⟨-, rfl⟩ := Prod.mk.inj hwrite
    have hp32 : p < 4294967296 := Nat.lt_trans hp.2 img₁.sb.fsSizeBlocks.toNat_lt
    have hdict : ({ ({ PyInode.empty with mode := 1, linksCount := 2 } : PyInode).setDirect 0 p with
        size := 144 } : PyInode)
        = { PyInode.ofInode (newDirectory.setPtr (.direct 0) p) with size := 144 } := by
      have hset := ofInode_setDirect newDirectory 0 hp32
      exact congrArg (fun x : PyInode => { x with size := 144 }) hset.symm
    rw [hdict] at hinode
    have hv₁ : img₁.sb.ValidIno i := hsb₁ ▸ hv
    have hsaved := edWriteInode_returns (S₁.whole.withDisk _) hv₁ hinode
    rw [DiskImage.withDisk_withDisk, DiskImage.disk_withDisk, DiskImage.withDisk_sb] at hsaved
    have S₆ : img₆.Sound := by
      rw [hsaved]
      exact newDirectory_sound S₁ hv₁ hp hfree _
    obtain ⟨S₇, -⟩ := edDirAddEntry_sound S₆ hadd
    cases b with
    | true =>
        obtain ⟨-, rfl⟩ := Prod.mk.inj hrest₇
        exact S₇
    | false => cases (Prod.mk.inj hrest₇).1
  · rw [hblock] at hrun
    obtain rfl := Except.ok.inj (Prod.mk.inj hrun).1
    rw [if_pos (by decide)] at hrest₂
    cases (Prod.mk.inj hrest₂).1

omit S in
theorem edDirAddEntry_fits {dirino ino typ : Int} {name : PyStr}
    (h : edDirAddEntry dirino name ino typ img = (.ok true, img')) : fitsWord ino := by
  obtain ⟨din, img₁, -, hfind⟩ := Ed.bind_ok h
  obtain ⟨ent, img₂, -, hadd⟩ := Ed.bind_ok hfind
  cases ent with
  | some e => cases Except.ok.inj (Prod.mk.inj hadd).1
  | none =>
      obtain ⟨entry, img₃, hpack, -⟩ := Ed.bind_ok hadd
      unfold packEntry at hpack
      rw [Ed.run_ite] at hpack
      split at hpack
      · rename_i hfits
        exact hfits.1
      · cases (Prod.mk.inj hpack).1

omit S in
theorem keeps_edPathParent {γ : Type} {f : DiskImage → γ} (path : PyStr) :
    Ed.Keeps f (edPathParent path) := by
  refine Ed.Keeps.ite (.pure _) ?_
  cases (pathParts (normpath path)).getLast? with
  | none => exact .raise _
  | some name => exact (keeps_edPathResolve _).bind fun _ => .pure _

theorem edMkdir_sound {path : PyStr} (h : edMkdir path img = (.ok (), img')) : img'.Sound := by
  obtain ⟨⟨parent, name⟩, img₁, hpath, hrest⟩ := Ed.bind_ok h
  obtain rfl := Ed.Keeps.same (keeps_edPathParent _) hpath
  dsimp only at hrest
  split at hrest
  · cases (Prod.mk.inj hrest).1
  · obtain ⟨ent, img₂, hfind, hin⟩ := Ed.bind_ok hrest
    obtain rfl := Ed.Keeps.same (keeps_edFindEntry _ _) hfind
    cases ent with
    | some e => cases (Prod.mk.inj hin).1
    | none => exact edMkdirIn_sound S hin

/-- `write_text` to a new file, which does not look at what `allocate_inode` returned: without a
free inode it writes before the inode table and raises after that. -/
theorem edWriteText_sound {path text : PyStr} (h : edWriteText path text img = (.ok (), img')) :
    img'.Sound := by
  obtain ⟨⟨parent, name⟩, img₁, hpath, hrest⟩ := Ed.bind_ok h
  obtain rfl := Ed.Keeps.same (keeps_edPathParent _) hpath
  obtain ⟨ino, img₂, hres, hwrite⟩ := Ed.bind_ok hrest
  obtain rfl := Ed.Keeps.same (keeps_edPathResolve _) hres
  split at hwrite
  · obtain ⟨new, img₃, hino, hnew⟩ := Ed.bind_ok hwrite
    obtain ⟨_, img₄, hrecord, hentry⟩ := Ed.bind_ok hnew
    obtain ⟨b, img₅, hadd, hcontents⟩ := Ed.bind_ok hentry
    rcases edAllocateInode_sound S hino with rfl | ⟨i, rfl, hv, S₃, hsb⟩
    · cases b with
      | true => exact absurd (edDirAddEntry_fits hadd) (by decide)
      | false =>
          obtain ⟨inode, img₆, hread, -⟩ := Ed.bind_ok hcontents
          obtain ⟨sb, img₇, -, hread⟩ := Ed.bind_ok hread
          rw [if_pos (Or.inl (by decide))] at hread
          cases (Prod.mk.inj hread).1
    · obtain ⟨S₄, -⟩ := edWriteInode_newFile S₃ (hsb ▸ hv) hrecord
      obtain ⟨S₅, -⟩ := edDirAddEntry_sound S₄ hadd
      exact edWriteContents_sound S₅ hcontents
  · exact edWriteContents_sound S hwrite

omit S in
theorem keeps_edPutTarget {γ : Type} {f : DiskImage → γ} (localpath dest : PyStr) :
    Ed.Keeps f (edPutTarget localpath dest) := by
  refine Ed.Keeps.ite (.pure _) ((keeps_edPathParent _).bind fun a => ?_)
  refine Ed.Keeps.ite (.raise _) ((keeps_edPathResolve _).bind fun target => ?_)
  refine Ed.Keeps.ite ((keeps_edReadInode _).bind fun tinode => ?_) (.pure _)
  exact Ed.Keeps.ite (.pure _) (.pure _)

theorem edPut_sound {localpath : PyStr} {content : Option (List UInt8)} {dest : Option PyStr}
    (h : edPut localpath content dest img = (.ok (), img')) : img'.Sound := by
  cases content with
  | none => cases (Prod.mk.inj h).1
  | some data =>
      obtain ⟨⟨parent, name, target⟩, img₁, htarget, hrest⟩ := Ed.bind_ok h
      obtain rfl := Ed.Keeps.same (keeps_edPutTarget _ _) htarget
      dsimp only at hrest
      split at hrest
      · obtain ⟨new, img₂, hino, hnew⟩ := Ed.bind_ok hrest
        rcases edAllocateInode_sound S hino with rfl | ⟨i, rfl, hv, S₂, hsb⟩
        · rw [if_pos (by decide)] at hnew
          cases (Prod.mk.inj hnew).1
        · rw [if_neg (Int.not_lt.mpr (Int.natCast_nonneg i))] at hnew
          obtain ⟨_, img₃, hrecord, hentry⟩ := Ed.bind_ok hnew
          obtain ⟨b, img₄, hadd, hcontents⟩ := Ed.bind_ok hentry
          obtain ⟨S₃, -⟩ := edWriteInode_newFile S₂ (hsb ▸ hv) hrecord
          obtain ⟨S₄, -⟩ := edDirAddEntry_sound S₃ hadd
          cases b with
          | true => exact edPutContents_sound S₄ hcontents
          | false => cases (Prod.mk.inj hcontents).1
      · exact edPutContents_sound S hrest

/-- The release of the blocks of a record that has the pointers of its slot. -/
theorem edRelease_sound {i : Nat} (hv : img.sb.ValidIno i) {r : Inode}
    (hr : ∀ pos, img.disk.ptr r pos = 0
      ∨ img.disk.ptr r pos = img.disk.ptr (img.disk.inodeAt img.sb i) pos)
    (h : edRelease i (PyInode.ofInode r) img = (.ok (), img')) : img'.Sound := by
  have hdb : ∀ pos, img.disk.ptr r pos ≠ 0 → img.sb.DataBlock (img.disk.ptr r pos) := by
    intro pos h0
    have heq := (hr pos).resolve_left h0
    rw [heq] at h0 ⊢
    exact S.dataBlock i pos h0
  obtain ⟨d, hrun, hf⟩ := edRelease_spec S.whole hdb hv
  rw [h] at hrun
  obtain ⟨-, rfl⟩ := Prod.mk.inj hrun
  have hself : ∀ pos, img.disk.ptr (Function.update (img.disk.inodeAt img.sb) i Inode.zero i) pos
      = 0 := fun pos => by rw [Function.update_self, ptr_zero]
  have hother : ∀ j, j ≠ i → Function.update (img.disk.inodeAt img.sb) i Inode.zero j
      = img.disk.inodeAt img.sb j := fun j hj => Function.update_of_ne hj _ _
  have hO : VolOwned img.sb img.sb.fsSizeBlocks.toNat d
      (Function.update (img.disk.inodeAt img.sb) i Inode.zero) := by
    refine S.owned.freed (blockBound_size img.sb) (fun j pos => ?_) hf fun j pos h0 => ?_
    · rcases em (j = i) with rfl | hj
      · exact Or.inl (hself pos)
      · rw [hother j hj]
        exact Or.inr rfl
    · rintro ⟨hp0, t, -, hp⟩
      rcases em (j = i) with rfl | hj
      · exact h0 (hself pos)
      · rw [hother j hj] at h0 hp
        have ht := (hr t).resolve_left (by rw [hp]; exact h0)
        have hinj := S.owned.inj (j, pos) (i, t) h0 (hp.symm.trans ht)
        exact hj (Prod.mk.inj hinj).1
  refine S.becomes (DiskImage.Becomes.withDisk img _) ?_
  have hbits : VolOwned img.sb img.sb.fsSizeBlocks.toNat (d.setInodeUsed img.sb i false)
      (Function.update (img.disk.inodeAt img.sb) i Inode.zero) := by
    have h1 := S.whole.sound.blockBitmap
    have h2 := S.whole.sound.inodeTable
    exact hO.of_data (blockBound_size img.sb)
      (fun q hq => S.whole.sound.setInodeUsed_of_le hv (Or.inr (by omega)) false)
      fun p hp => S.whole.sound.blockUsed_setInodeUsed hv hp false
  refine VolOwned.written S.whole.sound (blockBound_size img.sb) (fun j => ?_) hv hbits
  rw [S.whole.sound.inodeAt_setInodeUsed hv, hf.sameMeta.inodeAt S.whole.sound]

/-! ## Deletion

The exception is here: blocks of the directory that the removal has cut off.
`KeepsBlocks` says that it cut off none. -/

/-- A removal that frees no block leaves everything else as it was. -/
theorem EdRemoved.touched {dir : Nat} (hv : img.sb.ValidIno dir) {name : PyStr}
    {blocks : List Block} {r : Inode} {d d' : Disk}
    (h : EdRemoved img dir name blocks r d d' img')
    (hkeep : blocksKept blocks name (img.disk.inodeAt img.sb dir).size.toNat
      = blocksFor (img.disk.inodeAt img.sb dir).size.toNat) :
    ∃ d₁, img.Becomes d₁ img' ∧ Touched img.sb img.sb.fsSizeBlocks.toNat dir img.disk d₁ := by
  obtain ⟨size, hd⟩ := h.becomes
  rw [h.none_dropped hkeep] at hd
  exact ⟨_, hd, h.changed.touched S.whole.sound (blockBound_size img.sb) S.owned hv
    (r.root_packed size) rfl⟩

omit S in
/-- The record in the slot of a directory has the pointers it had, and perhaps more. -/
theorem EdRemoved.roots {dir : Nat} {name : PyStr} {blocks : List Block} {r : Inode} {d d' : Disk}
    (h : EdRemoved img dir name blocks r d d' img') (pos : Pos) :
    (img.disk.inodeAt img.sb dir).root pos = 0
      ∨ r.root pos = (img.disk.inodeAt img.sb dir).root pos := by
  cases hpos : pos.parent with
  | some t => exact Or.inl (Inode.root_of_parent hpos)
  | none =>
      have hptr := h.changed.ptr pos
      rw [Disk.ptr_root hpos, Disk.ptr_root hpos] at hptr
      exact hptr.symm

/-- `delete` finds an entry of that name whose inode it may delete. -/
def DiskImage.Deletes (img : DiskImage) (dir : Nat) (name : PyStr) : Prop :=
  ∃ ent r, edFindEntry dir name img = (.ok (some ent), img)
    ∧ edReadInode ent.inode img = (.ok r, img) ∧ r.isProtected = false ∧ ¬ (r.isDir ∧ r.size > 144)

/-- A deletion that returns true, from its parts. -/
structure EdDeleted (img : DiskImage) (path : PyStr) (dir ino : Nat) (name : PyStr)
    (blocks : List Block) (r : Inode) (d d' : Disk) (img₁ img' : DiskImage) : Prop where
  parent : edPathParent path img = (.ok ((dir : Int), name), img)
  dir_valid : img.sb.ValidIno dir
  deletes : img.Deletes dir name
  found : ∃ ent, edFindEntry dir name img = (.ok (some ent), img) ∧ ent.inode = ino
  ino_valid : img.sb.ValidIno ino
  removed : EdRemoved img dir name blocks r d d' img₁
  released : edRelease ino (PyInode.ofInode (img.disk.inodeAt img.sb ino)) img₁ = (.ok (), img')

theorem edDelete_returns {path : PyStr} {b : Bool} (h : edDelete path img = (.ok b, img')) :
    b = false ∧ img' = img
    ∨ b = true ∧ ∃ dir ino name blocks r d d' img₁,
      EdDeleted img path dir ino name blocks r d d' img₁ img' := by
  obtain ⟨⟨parent, name⟩, img₁, hpath, hrest⟩ := Ed.bind_ok h
  obtain rfl := Ed.Keeps.same (keeps_edPathParent _) hpath
  clear h
  dsimp only at hrest
  split at hrest
  · obtain ⟨hres, rfl⟩ := Prod.mk.inj hrest
    exact Or.inl ⟨(Except.ok.inj hres).symm, rfl⟩
  · obtain ⟨ent, img₂, hfind, hfound⟩ := Ed.bind_ok hrest
    obtain rfl := Ed.Keeps.same (keeps_edFindEntry _ _) hfind
    cases ent with
    | none =>
        obtain ⟨hres, rfl⟩ := Prod.mk.inj hfound
        exact Or.inl ⟨(Except.ok.inj hres).symm, rfl⟩
    | some ent =>
        obtain ⟨inode, img₃, hread, hchecks⟩ := Ed.bind_ok hfound
        obtain ⟨ino, hino, hv, rfl, rfl⟩ := edReadInode_returns S.whole hread
        have hent : ent.inode = ino := Int.ofNat.inj hino
        split at hchecks
        · obtain ⟨hres, rfl⟩ := Prod.mk.inj hchecks
          exact Or.inl ⟨(Except.ok.inj hres).symm, rfl⟩
        · rename_i hprotected
          split at hchecks
          · obtain ⟨hres, rfl⟩ := Prod.mk.inj hchecks
            exact Or.inl ⟨(Except.ok.inj hres).symm, rfl⟩
          · rename_i hdirectory
            obtain ⟨removed, img₄, hremove, hrelease⟩ := Ed.bind_ok hchecks
            obtain ⟨dir, rfl, hdir, ⟨rfl, rfl⟩ | ⟨rfl, blocks, r, d, d', hremoved⟩⟩ :=
              edDirRemoveEntry_returns S hremove
            · obtain ⟨hres, rfl⟩ := Prod.mk.inj hrelease
              exact Or.inl ⟨(Except.ok.inj hres).symm, rfl⟩
            · obtain ⟨_, img₅, hdone, hlast⟩ := Ed.bind_ok hrelease
              obtain ⟨hres, rfl⟩ := Prod.mk.inj hlast
              rw [hent] at hdone
              exact Or.inr ⟨(Except.ok.inj hres).symm, dir, ino, name, blocks, r, d, d', img₄,
                hpath, hdir, ⟨ent, _, hfind, hread, eq_false_of_ne_true hprotected, hdirectory⟩,
                ⟨ent, hfind, hent⟩, hv, hremoved, hdone⟩

end

/-- A deletion of the path, if it removes an entry, leaves its directory with as many blocks as
it has. -/
def DiskImage.KeepsBlocks (img : DiskImage) (path : PyStr) : Prop :=
  ∀ (dir : Nat) (name : PyStr) (blocks : List Block),
    edPathParent path img = (.ok ((dir : Int), name), img) → img.Deletes dir name →
    edReadAll (PyInode.ofInode (img.disk.inodeAt img.sb dir))
      (blocksFor (img.disk.inodeAt img.sb dir).size.toNat) 0 img = (.ok (some blocks), img) →
    blocksKept blocks name (img.disk.inodeAt img.sb dir).size.toNat
      = blocksFor (img.disk.inodeAt img.sb dir).size.toNat

/-- The directory and the name of a path determine the blocks that matter. -/
theorem DiskImage.keepsBlocks_of {img : DiskImage} {path name : PyStr} {dir : Nat}
    {blocks : List Block} (hpath : edPathParent path img = (.ok ((dir : Int), name), img))
    (hread : edReadAll (PyInode.ofInode (img.disk.inodeAt img.sb dir))
      (blocksFor (img.disk.inodeAt img.sb dir).size.toNat) 0 img = (.ok (some blocks), img))
    (hkept : blocksKept blocks name (img.disk.inodeAt img.sb dir).size.toNat
      = blocksFor (img.disk.inodeAt img.sb dir).size.toNat) : img.KeepsBlocks path := by
  intro dir' name' blocks' hpath' _ hread'
  rw [hpath] at hpath'
  cases hpath'
  rw [hread] at hread'
  cases hread'
  exact hkept

section

variable {img img' : DiskImage} (S : img.Sound)

include S

theorem edDelete_sound {path : PyStr} {b : Bool} (hkeep : img.KeepsBlocks path)
    (h : edDelete path img = (.ok b, img')) : img'.Sound := by
  rcases edDelete_returns S h with ⟨-, rfl⟩ | ⟨-, dir, ino, name, blocks, r, d, d', img₁, hdel⟩
  · exact S
  · have hnone := hkeep dir name blocks hdel.parent hdel.deletes hdel.removed.read
    obtain ⟨d₁, hd, ht⟩ := hdel.removed.touched S hdel.dir_valid hnone
    have S₁ := S.touched hd ht
    have hv₁ : img₁.sb.ValidIno ino := by
      rw [hd.sb]
      exact hdel.ino_valid
    refine edRelease_sound S₁ hv₁ (fun pos => ?_) hdel.released
    rw [hd.sb, hd.disk]
    rcases em (ino = dir) with rfl | hne
    · -- the directory itself: its record was read before the entry was removed
      obtain ⟨size, hd'⟩ := hdel.removed.becomes
      have hat : d₁.inodeAt img.sb ino = r.packed size := by
        rw [← hd.disk, hd'.disk, S.whole.sound.inodeAt_putInode hdel.ino_valid, if_pos rfl]
      have hroots : ∀ s, (img.disk.inodeAt img.sb ino).root s = 0
          ∨ (r.packed size).root s = (img.disk.inodeAt img.sb ino).root s := by
        rw [Inode.root_packed]
        exact hdel.removed.roots
      rw [hat]
      exact (Disk.ptr_of_roots hroots pos).imp (fun h0 => h0 d₁) fun heq => heq d₁
    · rw [ht.inodeAt ino hne]
      exact Or.inr rfl

end

/-- The step of a run: a command that returns. -/
def edStep (c : EdCommand) (img : DiskImage) : Option DiskImage :=
  if (c.run img).1.isOk then some (c.run img).2 else none

/-- A deletion of the run that leaves its directory with as many blocks; other commands anyway. -/
def KeepsDirBlocks (img : DiskImage) (c : EdCommand) : Prop :=
  match c with
  | .delete path => img.KeepsBlocks path
  | _ => True

theorem edStep_eq_some {c : EdCommand} {img img' : DiskImage} :
    edStep c img = some img' ↔ ∃ b, c.run img = (.ok b, img') := by
  unfold edStep
  rcases hrun : c.run img with ⟨e | b, img₁⟩
  · simp [Except.isOk, Except.toBool]
  · simp [Except.isOk, Except.toBool]

theorem edStep_sound {c : EdCommand} {img img' : DiskImage} (S : img.Sound)
    (hc : KeepsDirBlocks img c) (h : edStep c img = some img') : img'.Sound := by
  obtain ⟨b, hrun⟩ := edStep_eq_some.mp h
  cases c with
  | mkdir path =>
      obtain ⟨_, img₁, hmk, hlast⟩ := Ed.bind_ok hrun
      obtain ⟨-, rfl⟩ := Prod.mk.inj hlast
      exact edMkdir_sound S hmk
  | writeText path text =>
      obtain ⟨_, img₁, hwrite, hlast⟩ := Ed.bind_ok hrun
      obtain ⟨-, rfl⟩ := Prod.mk.inj hlast
      exact edWriteText_sound S hwrite
  | put localpath content dest =>
      obtain ⟨_, img₁, hput, hlast⟩ := Ed.bind_ok hrun
      obtain ⟨-, rfl⟩ := Prod.mk.inj hlast
      exact edPut_sound S hput
  | delete path => exact edDelete_sound S hc hrun

/-- A run whose deletions leave their directories with as many blocks. -/
theorem edRun_sound {img img' : DiskImage} (hr : RunBy edStep KeepsDirBlocks img img')
    (S : img.Sound) : img'.Sound :=
  hr.invariant (fun _ _ _ hS hc hs => edStep_sound hS hc hs) S

end IpoOs
