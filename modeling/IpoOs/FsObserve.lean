import IpoOs.FsUndo

/-!
# What a user gets of the store

The calls that change nothing deliver what is in the store. A file is
opened exactly when the path leads to one and a descriptor is free, and a
read delivers its bytes.

`ipo_fs_stat` is no call of the runs: it is what the runs are looked at
with. `StatStep` says how its answers before and after a call are
related, for every path at once, without a word on the volume: the mode
of an object never changes, a creation shows at its own path only, a
deletion at the path and those below it, a rename takes what was seen
below the old path to the new one, and a write shows as the new size of
one file. So a program that only asks `ipo_fs_stat` can keep its own
record of the volume. The size of a directory is left out: it counts the
slots that were ever used, and the last entries of a directory may go
without it getting smaller.
-/

namespace IpoOs

/-! ## Answers of `ipo_fs_stat`

What is answered for a path, and how the answers change with a call. -/

/-- What is seen of an object: its mode, and the size of a file. -/
def Node.stat : Node → UInt32 × Option Nat
  | dir _ m => (m, none)
  | file _ m n _ => (m, some n)

def Inode.stat (r : Inode) : UInt32 × Option Nat :=
  (r.mode, if r.isDir then none else some r.size.toNat)

/-- The answer for a path; none when the call fails. -/
def Kernel.stat (u : Block) (k : Kernel Disk) (path : CString) : Option (UInt32 × Option Nat) :=
  (ipoFsStat (diskDev u) path k).1.map Inode.stat

def newStat (type : UInt8) : UInt32 × Option Nat :=
  (type.toUInt32, if (freshInode type.toUInt32 1).isDir then none else some 0)

/-- The answers on all paths, before and after a call that gives an answer of its own. -/
def StatStep (before after : CString → Option (UInt32 × Option Nat)) : FsCall → FsAnswer → Prop
  | .create path type, .number (some _) =>
      before path = none ∧ after path = some (newStat type)
        ∧ ∀ p, pathComps p.chars ≠ pathComps path.chars → after p = before p
  | .delete path, .done true =>
      (∀ p, pathComps path.chars <+: pathComps p.chars → after p = none)
        ∧ ∀ p, ¬ pathComps path.chars <+: pathComps p.chars → after p = before p
  | .rename _ oldpath newpath, .done true => ∃ q,
      (q = pathComps oldpath.chars ∨ q = pathComps newpath.chars
        ∨ ∃ name, q = pathComps newpath.chars ++ [name])
      ∧ (∀ p p' us, pathComps p.chars = q ++ us →
        pathComps p'.chars = pathComps oldpath.chars ++ us →
        after p = before p')
      ∧ (∀ p, ¬ q <+: pathComps p.chars → pathComps oldpath.chars <+: pathComps p.chars →
        after p = none)
      ∧ ∀ p, ¬ q <+: pathComps p.chars → ¬ pathComps oldpath.chars <+: pathComps p.chars →
        after p = before p
  | .write _ _ _ offset, .number (some w) => (∀ p, after p = before p) ∨ ∃ q m n,
      (∀ p, pathComps p.chars ≠ q → after p = before p)
      ∧ ∀ p, pathComps p.chars = q →
        before p = some (m, some n) ∧ after p = some (m, some (max n (offset.toNat + w)))
  | .writeText path text append, .done true =>
      (∀ p, pathComps p.chars ≠ pathComps path.chars → after p = before p)
      ∧ ∃ m n, (before path = some (m, some n) ∨ before path = none ∧ n = 0 ∧ m = typeFile.toUInt32)
        ∧ after path = some (m, some (max n ((if append then n else 0) + u32 text.chars.length)))
  | .writeText path _ _, .done false =>
      ∀ p, pathComps p.chars ≠ pathComps path.chars → after p = before p
  | _, _ => ∀ p, after p = before p

section

variable {u : Block} {k k' : Kernel Disk}

theorem Disk.node_stat {sb : Superblock} {d : Disk} (i : Nat) :
    (d.node sb i).stat = (d.inodeAt sb i).stat := by
  unfold Disk.node Inode.stat
  split <;> rfl

theorem newNode_stat (i : Nat) (type : UInt8) : (newNode i type.toUInt32).stat = newStat type := by
  unfold newNode newStat
  split <;> rfl

theorem KernelOk.stat_store (h : KernelOk k) (hm : k.fsMounted = true) (path : CString) :
    k.stat u path = ((k.files u).store (pathComps path.chars)).map Node.stat := by
  unfold Kernel.stat
  rw [Kernel.store_resolve, ipoFsStat_run, if_pos hm]
  cases hi : (pathResolve (arrayDev u) k.sb path.chars k.disk).1 with
  | none =>
      have hrun : pathResolve (arrayDev u) k.sb path.chars k.disk = (none, k.disk) :=
        Prod.ext hi (readOnly_pathResolve u k.sb path.chars k.disk)
      simp [statPath, hrun]
  | some i =>
      have hrun : pathResolve (arrayDev u) k.sb path.chars k.disk = (some i, k.disk) :=
        Prod.ext hi (readOnly_pathResolve u k.sb path.chars k.disk)
      have hused : (k.disk.naming k.sb).used i := by
        rw [pathResolve_comps] at hi
        exact h.tree.way_used ((h.tree.walk_root (pathComps_token path)).mp hi)
      simp [statPath, hrun, readInode_array, hused.1, Disk.node_stat]

theorem TextMade.seen {s s' : Files} {path : CString} (h : TextMade s path s') :
    (∀ p, p ≠ pathComps path.chars → s'.store p = s.store p)
    ∧ ∀ v, s'.store (pathComps path.chars) = some v → s.store (pathComps path.chars) = some v
      ∨ s.store (pathComps path.chars) = none ∧ v.stat = (typeFile.toUInt32, some 0) := by
  rcases h with rfl | ⟨-, i, t, hput, rfl⟩
  · exact ⟨fun _ _ => rfl, fun v hv => Or.inl hv⟩
  · have ht := hput.put
    subst ht
    refine ⟨fun p hp => PathStore.put_of_ne hp, fun v hv => Or.inr ⟨hput.free, ?_⟩⟩
    obtain rfl := Option.some.inj (PathStore.put_self.symm.trans hv)
    rw [newNode_stat]
    decide

/-- `ipo_fs_open` opens exactly the files, while a descriptor is free: it returns the least free
one. -/
theorem ipoFsOpen_store (hk : Reached u k) (path : CString) (i : Nat) :
    (ipoFsOpen (diskDev u) path k).1 = some i ↔ ∃ v, (k.files u).Opens path v i := by
  rcases ipoFsOpen_effect (u := u) hk.ok.1.tree path with ⟨hrun, hno⟩ | ⟨v, j, ho, hrun⟩
  · rw [hrun]
    exact ⟨fun hi => (by cases hi), fun ⟨v, ho⟩ => absurd ho (hno v i)⟩
  · rw [hrun]
    constructor
    · rintro hi
      obtain rfl := Option.some.inj hi
      exact ⟨v, ho⟩
    · rintro ⟨w, ho'⟩
      -- both are the least free one
      rcases Nat.lt_trichotomy i j with hij | rfl | hji
      · exact absurd ho'.free (ho.low i hij)
      · rfl
      · exact absurd ho.free (ho'.low j hji)

theorem ipoFsOpen_store_file : ∃ v, (fullKernel.files Buf.zero).Opens dfPath v 0 := by
  have hres : (ipoFsOpen (diskDev Buf.zero) dfPath fullKernel).1 = some 0 := by decide +kernel
  exact (ipoFsOpen_store fullKernel_reached dfPath 0).mp hres

/-- A read through the descriptor of a file that a path leads to delivers bytes of the file in
order, from the offset on: as many as were asked for and are there, unless a block of the file is
missing before that, and no other byte of the buffer changes. -/
theorem ipoFsRead_store {fd : Int} {buffer : Buf} {size offset : UInt32} {p : List Str}
    {ino n : Nat}
    {m : UInt32} {b : Nat → Option UInt8} (hk : Reached u k)
    (hfd : (k.files u).inodeOf fd = some ino) (hp : (k.files u).store p = some (.file ino m n b)) :
    ∃ count out, ipoFsRead (diskDev u) fd buffer size offset k = ((some count, out), k)
      ∧ ReadOk buffer size.toNat offset.toNat n b count out :=
  ipoFsRead_effect hk.ok.1.vol hk.ok.1.tree hfd hp buffer size offset

end

/-- The kernel after `AB` was written to `/d/f`. -/
def abKernel : Kernel Disk := (ipoFsWriteText (diskDev Buf.zero) dfPath textAB false fullKernel).2

theorem abKernel_reached : Reached Buf.zero abKernel := by
  have hexec : FsCall.exec (diskDev Buf.zero) (.writeText dfPath textAB false) fullKernel
      = some abKernel := by
    rw [abKernel]
    rfl
  have hsafe : StoreSafe Buf.zero fullKernel (.writeText dfPath textAB false) :=
    ⟨trivial, fun hc => hc⟩
  exact fullKernel_reached.call hsafe hexec

/-- Four bytes asked of the two of `/d/f`. -/
theorem ipoFsRead_store_text :
    ∃ count out, ipoFsRead (diskDev Buf.zero) 0 Buf.zero 4 0 abKernel
      = ((some count, out), abKernel)
      ∧ ReadOk Buf.zero (4 : UInt32).toNat (0 : UInt32).toNat
        (abKernel.disk.inodeAt abKernel.sb 5).size.toNat
        (abKernel.disk.fileByte (abKernel.disk.inodeAt abKernel.sb 5)) count out := by
  have hfd : (abKernel.files Buf.zero).inodeOf 0 = some 5 := by decide +kernel
  have hres : (pathResolve (arrayDev Buf.zero) abKernel.sb dfPath.chars abKernel.disk).1
      = some 5 := by
    decide +kernel
  have hfile : (abKernel.disk.inodeAt abKernel.sb 5).isDir = false := by decide +kernel
  have hstore : (abKernel.files Buf.zero).store (pathComps dfPath.chars)
      = some (.file 5 (abKernel.disk.inodeAt abKernel.sb 5).mode
        (abKernel.disk.inodeAt abKernel.sb 5).size.toNat
        (abKernel.disk.fileByte (abKernel.disk.inodeAt abKernel.sb 5))) := by
    rw [Kernel.store_resolve, hres, Option.map_some, Disk.node, hfile, if_neg (by decide)]
  exact ipoFsRead_store abKernel_reached hfd hstore

end IpoOs
