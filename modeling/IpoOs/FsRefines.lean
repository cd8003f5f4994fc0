import IpoOs.FsStoreCalls
import IpoOs.FsStoreLaws
import IpoOs.FsEmpty

/-!
# The file system refines its store

Over every run from a new volume the kernel's globals and the disk go
through the states of a store that starts with the root, `/app` and
`/autorun`. What holds of all runs of the store then holds of the file
system: a file that no call names keeps its contents, wherever it is.

The rule of the refinement is `Trace.refines`, with `KernelOk` as the
invariant. What is compared are the calls and their answers, so the traces
of the two systems are the same lists.

`Reached` are the states of the results: a format whose regions are large
enough, and then safe calls.
-/

namespace IpoOs

def newStore (app autorun : Nat) : PathStore Str Node := fun ts =>
  if ts = [] then some (.dir 1 1)
  else if ts = [appName] then some (.dir app (1 ||| flagProtected))
  else if ts = [autorunName] then some (.file autorun (2 ||| flagProtected) 0 fun _ => none)
  else none

/-! ## A new volume

The store of a new volume has the root, `/app` and `/autorun`, as far as
there was room for them. -/

section

variable {u : Block} {sb : Superblock} {d : Disk}

theorem NewTree.way {app autorun : Nat} (h : NewTree sb app autorun d) {ts : List Str} {y : Nat} :
    (d.naming sb).Way 1 ts y ↔ (ts = [] ∧ y = 1) ∨ (ts = [appName] ∧ y = app)
      ∨ (ts = [autorunName] ∧ y = autorun) := by
  have happ := h.entries.mpr (Or.inl ⟨rfl, rfl, rfl⟩)
  have hauto := h.entries.mpr (Or.inr ⟨rfl, rfl, rfl⟩)
  -- the two objects have no links of their own
  have hleaf : ∀ {x ts y}, x ≠ 1 → (d.naming sb).Way x ts y → ts = [] ∧ y = x := by
    intro x ts y hne hw
    cases hw with
    | here => exact ⟨rfl, rfl⟩
    | down he _ =>
        rcases h.entries.mp he with ⟨hx, -⟩ | ⟨hx, -⟩
        · exact absurd hx hne
        · exact absurd hx hne
  constructor
  · intro hw
    cases hw with
    | here => exact Or.inl ⟨rfl, rfl⟩
    | down he hw =>
        rcases h.entries.mp he with ⟨-, -, rfl⟩ | ⟨-, -, rfl⟩
        · obtain ⟨rfl, rfl⟩ := hleaf (h.tree.target happ).2 hw
          exact Or.inr (Or.inl ⟨rfl, rfl⟩)
        · obtain ⟨rfl, rfl⟩ := hleaf (h.tree.target hauto).2 hw
          exact Or.inr (Or.inr ⟨rfl, rfl⟩)
  · rintro (⟨rfl, rfl⟩ | ⟨rfl, rfl⟩ | ⟨rfl, rfl⟩)
    · exact .here
    · exact .single happ
    · exact .single hauto

theorem FormatSteps.nodes (L : SoundLayout sb) {d₀ d₁ d₂ d₃ d₄ d₅ d₆ d₇ : Disk}
    {app autorun p q : Nat}
    (h : FormatSteps u sb (intBound sb) d₀ d₁ d₂ d₃ d₄ d₅ d₆ d₇ app autorun p q)
    (hv : sb.ValidIno 1) (happ : app ≠ 1) (hauto : autorun ≠ 1) (hne : app ≠ autorun) :
    d₇.node sb 1 = .dir 1 1 ∧ d₇.node sb app = .dir app (1 ||| flagProtected)
      ∧ d₇.node sb autorun = .file autorun (2 ||| flagProtected) 0 fun _ => none := by
  obtain ⟨h12, h34, h45, h67⟩ := h.owned L (blockBound_int sb) u hv
  have hdir : ∀ {d d' : Disk} {hi ino i : Nat}, Touched sb hi ino d d' →
    (d.inodeAt sb i).isDir = true →
      (d'.inodeAt sb i).isDir = true := fun ht hd => by
    unfold Inode.isDir at hd ⊢
    rw [ht.mode_all]
    exact hd
  have hkeep : ∀ {d d' : Disk} {hi ino i : Nat} {r : Inode}, InodeTaken sb hi ino r d d' → i ≠ ino →
      (d.inodeAt sb i).isDir = true → (d'.inodeAt sb i).isDir = true := fun ht hi hd => by
    rw [ht.inodeAt, if_neg hi]
    exact hd
  have hroot₁ : (d₁.inodeAt sb 1).isDir = true := by
    rw [h.root.inodeAt, if_pos rfl]
    decide
  have hroot₃ := hkeep h.appInode happ.symm (hdir h12 hroot₁)
  have happ₃ : (d₃.inodeAt sb app).isDir = true := by
    rw [h.appInode.inodeAt, if_pos rfl]
    decide
  have hroot₄ := hdir h34 hroot₃
  have hroot₆ := hkeep h.autorunInode hauto.symm (hdir h45 hroot₄)
  refine ⟨?_, ?_, ?_⟩
  · rw [h67.node_dir hroot₆, h.autorunInode.node hauto.symm, h45.node_dir hroot₄,
      h34.node_dir happ₃, h.appInode.node happ.symm, h12.node_dir hroot₁, h.root.node_new]
    rfl
  · rw [h67.node_dir hroot₆, h.autorunInode.node hne, h45.node_dir hroot₄, h34.node_dir happ₃,
      h.appInode.node_new]
    rfl
  · rw [h67.node_dir hroot₆, h.autorunInode.node_new]
    rfl

theorem ipoFsFormat_store {start totalBlocks totalInodes : UInt32} {k₀ k : Kernel Disk}
    (hf : ipoFsFormat (diskDev u) start totalBlocks totalInodes k₀ = (true, k))
    (htable : TableFits totalInodes) (hbitmap : BitmapFits totalBlocks totalInodes) :
    Tagged k.sb k.disk ∧ ∃ app autorun, 1 ≠ app ∧ 1 ≠ autorun ∧ app ≠ autorun
      ∧ (k.files u).store = newStore app autorun := by
  obtain ⟨L, hsb, -, -, -, d₀, d₁, d₂, d₃, d₄, d₅, d₆, d₇, app, autorun, p, q, hzero, hv, hsteps,
    hdisk⟩ := ipoFsFormat_cases hf htable hbitmap
  rw [← hsb] at L
  have ht := (ipoFsFormat_tree hf htable hbitmap).1
  obtain ⟨-, -, hunused⟩ := ownedVol_zeroed (intBound k.sb) L hzero
  obtain ⟨-, -, -, h67⟩ := hsteps.owned L (blockBound_int k.sb) u hv
  have hnew := hsteps.newTree L u hv hunused
  obtain ⟨hG, hup⟩ := naming_set_zero L h67.owned (superBlock u k.sb)
  obtain ⟨-, hat⟩ := ownedVol_set_zero L (blockBound_int k.sb) h67.owned (superBlock u k.sb)
  have happ := hnew.entries.mpr (Or.inl ⟨rfl, rfl, rfl⟩)
  have hauto := hnew.entries.mpr (Or.inr ⟨rfl, rfl, rfl⟩)
  have hne : app ≠ autorun := by
    intro hc
    have hslot := (hnew.tree.unique happ hauto hc).2
    cases hslot
  obtain ⟨hroot, hnapp, hnauto⟩ :=
    hsteps.nodes L hv (hnew.tree.target happ).2 (hnew.tree.target hauto).2 hne
  have hnode : ∀ i, k.disk.node k.sb i = d₇.node k.sb i := by
    intro i
    have h1 := L.first
    have h2 := L.inodeBitmap
    have h3 := L.blockBitmap
    have h4 := L.inodeTable
    rw [hdisk]
    exact Disk.node_congr (congrFun hat i)
      (h67.owned.sameFile (fun q hq => Disk.set_of_ne (by omega)) i)
  rw [← hdisk] at hG
  refine ⟨?_, app, autorun, (hnew.tree.target happ).2.symm, (hnew.tree.target hauto).2.symm, hne,
    funext fun ts => Option.ext fun v => ?_⟩
  · intro x e l hl htag
    rw [hG] at hl
    have hused : (k.disk.naming k.sb).used l.target := by
      rw [hG]
      exact (hnew.tree.target hl).1
    rcases hnew.entries.mp hl with ⟨-, -, rfl⟩ | ⟨-, -, rfl⟩
    · refine ⟨hused.1, hused.2, Disk.node_isDir.mp ?_⟩
      rw [hnode, hnapp]
      exact ⟨_, _, rfl⟩
    · have hfile : typeFile ≠ typeDir := by decide
      exact absurd htag hfile
  · show k.disk.view u k.sb ts = some v ↔ _
    have hway : ∀ y, (k.disk.naming k.sb).Way 1 ts y ↔ (ts = [] ∧ y = 1)
      ∨ (ts = [appName] ∧ y = app)
        ∨ (ts = [autorunName] ∧ y = autorun) := by
      intro y
      rw [hG]
      exact hnew.way
    have htok : ∀ t ∈ ts, t = appName ∨ t = autorunName → PathToken t := by
      rintro t - (rfl | rfl) <;> decide
    rw [ht.view_eq_some]
    simp only [hway, hnode]
    unfold newStore
    constructor
    · rintro ⟨-, y, ⟨rfl, rfl⟩ | ⟨rfl, rfl⟩ | ⟨rfl, rfl⟩, rfl⟩
      · rw [if_pos rfl, hroot]
      · rw [if_neg (List.cons_ne_nil _ _), if_pos rfl, hnapp]
      · rw [if_neg (List.cons_ne_nil _ _), if_neg (by decide), if_pos rfl, hnauto]
    · intro hv
      split at hv
      · rename_i hts
        subst hts
        exact ⟨fun t ht => absurd ht List.not_mem_nil, 1, Or.inl ⟨rfl, rfl⟩, by
          rw [hroot]; exact (Option.some.inj hv).symm⟩
      · split at hv
        · rename_i hts
          subst hts
          exact ⟨fun t ht => htok t ht (Or.inl (List.mem_singleton.mp ht)), app,
              Or.inr (Or.inl ⟨rfl, rfl⟩), by
            rw [hnapp]; exact (Option.some.inj hv).symm⟩
        · split at hv
          · rename_i hts
            subst hts
            exact ⟨fun t ht => htok t ht (Or.inr (List.mem_singleton.mp ht)), autorun,
              Or.inr (Or.inr ⟨rfl, rfl⟩), by rw [hnauto]; exact (Option.some.inj hv).symm⟩
          · cases hv

theorem newStore_ok {app autorun : Nat} (h1 : 1 ≠ app) (h2 : 1 ≠ autorun) (hne : app ≠ autorun) :
    StoreOk (newStore app autorun) := by
  have hcases : ∀ {p v}, newStore app autorun p = some v → (p = [] ∧ v.ino = 1)
      ∨ (p = [appName] ∧ v.ino = app) ∨ (p = [autorunName] ∧ v.ino = autorun) := by
    intro p v hv
    unfold newStore at hv
    split at hv
    · rename_i hp
      exact Or.inl ⟨hp, Option.some.inj hv ▸ rfl⟩
    · split at hv
      · rename_i hp
        exact Or.inr (Or.inl ⟨hp, Option.some.inj hv ▸ rfl⟩)
      · split at hv
        · rename_i hp
          exact Or.inr (Or.inr ⟨hp, Option.some.inj hv ▸ rfl⟩)
        · cases hv
  refine ⟨fun p n hn => ?_, fun {p q v w} hp hq heq => ?_⟩
  · obtain ⟨v, hv⟩ := Option.ne_none_iff_exists'.mp hn
    have hnil : p = [] := by
      rcases hcases hv with ⟨hc, -⟩ | ⟨hc, -⟩ | ⟨hc, -⟩
      · exact absurd hc (List.append_ne_nil_of_right_ne_nil _ (List.cons_ne_nil _ _))
      · exact (List.append_inj' (show p ++ [n] = [] ++ [appName] from hc) rfl).1
      · exact (List.append_inj' (show p ++ [n] = [] ++ [autorunName] from hc) rfl).1
    subst hnil
    exact ⟨.dir 1 1, rfl, 1, 1, rfl⟩
  · rcases hcases hp with ⟨rfl, hi⟩ | ⟨rfl, hi⟩ | ⟨rfl, hi⟩ <;>
      rcases hcases hq with ⟨rfl, hj⟩ | ⟨rfl, hj⟩ | ⟨rfl, hj⟩ <;> first | rfl | (exfalso; omega)

end

/-! ## Runs

The invariant over a run, and the trace of the store that belongs to it. -/

section

variable {u : Block} {k k' : Kernel Disk}

theorem exec_tagged {c : FsCall} (h : VolOk k) (ht : TreeOk k.sb k.disk) (htag : Tagged k.sb k.disk)
    (hs : TreeSafe u k c) (hc : c.exec (diskDev u) k = some k') : Tagged k'.sb k'.disk := by
  obtain ⟨d, hstep, hkept⟩ := exec_linkStep h ht hs hc
  rw [exec_sb h hc]
  exact hkept.tagged (hstep.tagged ht.tree htag)

/-- What every state of a safe run from a new volume has. -/
structure KernelOk (k : Kernel Disk) : Prop where
  vol : VolOk k
  tree : TreeOk k.sb k.disk
  tagged : Tagged k.sb k.disk
  accepted : k.sb.accepted = true

theorem KernelOk.exec {c : FsCall} (h : KernelOk k) (hs : StoreSafe u k c)
    (hc : c.exec (diskDev u) k = some k') : KernelOk k' :=
  ⟨exec_ok h.vol hc, exec_treeOk h.vol h.tree hs.1 hc, exec_tagged h.vol h.tree h.tagged hs.1 hc,
    by rw [exec_sb h.vol hc, h.accepted]⟩

theorem KernelOk.step {c : FsCall} {r : FsAnswer} (h : KernelOk k) (hs : StoreSafe u k c)
    (hc : c.run (diskDev u) k = some (r, k')) : StoreStep (k.files u) c r (k'.files u) :=
  run_storeStep h.vol h.tree h.accepted h.tagged hs hc

/-- Runs of safe calls, by the calls and what they return. -/
abbrev KernelTrace (u : Block) : Kernel Disk → List (FsCall × FsAnswer) → Kernel Disk → Prop :=
  Trace fun k call k' => StoreSafe u k call.1 ∧ call.1.run (diskDev u) k = some (call.2, k')

/-- The store goes through the same calls, with the same answers. -/
theorem KernelTrace.storeTrace {calls : List (FsCall × FsAnswer)} (hr : KernelTrace u k calls k')
    (h : KernelOk k) : StoreTrace (k.files u) calls (k'.files u) := by
  refine Trace.refines (P := KernelOk) (fun s call s' hs hstep => ?_) hr h
  obtain ⟨hsafe, hrun⟩ := hstep
  exact ⟨hs.exec hsafe (FsCall.exec_eq.mpr ⟨_, hrun⟩), hs.step hsafe hrun⟩

/-- The states of the safe runs from new volumes. -/
inductive Reached (u : Block) : Kernel Disk → Prop
  | format {start totalBlocks totalInodes : UInt32} {k₀ k : Kernel Disk}
      (hf : ipoFsFormat (diskDev u) start totalBlocks totalInodes k₀ = (true, k))
      (htable : TableFits totalInodes) (hbitmap : BitmapFits totalBlocks totalInodes) : Reached u k
  | call {c : FsCall} {k k' : Kernel Disk} (h : Reached u k) (hs : StoreSafe u k c)
      (hc : c.exec (diskDev u) k = some k') : Reached u k'

theorem Reached.run (h : Reached u k) (hr : FsRun u (StoreSafe u) k k') : Reached u k' := by
  induction hr with
  | refl => exact h
  | tail _ hs ih =>
      obtain ⟨c, hsafe, hc⟩ := hs
      exact ih.call hsafe hc

theorem Reached.ok (h : Reached u k) : KernelOk k ∧ StoreOk (k.files u).store := by
  induction h with
  | format hf htable hbitmap =>
      obtain ⟨htag, app, autorun, h1, h2, hne, hstore⟩ := ipoFsFormat_store hf htable hbitmap
      obtain ⟨-, hsuper, -⟩ := ipoFsFormat_cases hf htable hbitmap
      refine ⟨⟨ipoFsFormat_ok hf htable hbitmap, (ipoFsFormat_tree hf htable hbitmap).1, htag, ?_⟩,
        ?_⟩
      · rw [hsuper]
        rfl
      · rw [hstore]
        exact newStore_ok h1 h2 hne
  | call _ hs hc ih =>
      obtain ⟨r, hrun⟩ := FsCall.exec_eq.mp hc
      exact ⟨ih.1.exec hs hc, (ih.1.step hs hrun).storeOk ih.2⟩

/-- A file can always be moved, to a path that does not start with its own. -/
theorem storeSafe_file (h : KernelOk k) {fuel : Nat} {oldpath newpath : CString} {v : Node}
    (hv : (k.files u).store (pathComps oldpath.chars) = some v) (hfile : ¬ v.IsDir)
    (hout : ¬ (FsCall.rename fuel oldpath newpath).IntoItself) :
    StoreSafe u k (.rename fuel oldpath newpath) := by
  refine ⟨fun _ op on de np nn hok _ hlive => absurd ?_ hfile, hout⟩
  obtain ⟨init, hcomps, hwalk⟩ := pathResolveParent_comps.mp hok.resolve
  have htok := pathComps_token oldpath
  rw [hcomps] at hv htok
  have hinit := (h.tree.walk_root fun t ht => htok t (List.mem_append_left _ ht)).mp hwalk
  obtain ⟨p, j, hf⟩ := hok.found
  obtain ⟨-, e, hl⟩ := dirFindEntry_link h.tree.dirs (liveDir_of_find (h.tree.way_used hinit) hf)
    (htok on (List.mem_append_right _ (List.mem_singleton.mpr rfl))).linkName hf
  obtain ⟨-, y, hway, rfl⟩ := h.tree.view_eq_some.mp hv
  obtain rfl := h.tree.tree.way_det hway (hinit.append (.single hl))
  exact Disk.node_isDir.mpr hlive.2.2

theorem storeSafe_ino (h : KernelOk k) {fuel i : Nat} {oldpath newpath : CString}
    (hi : ((k.files u).store (pathComps oldpath.chars)).map Node.ino = some i)
    (hfile : (k.disk.inodeAt k.sb i).isDir = false)
    (hout : ¬ (FsCall.rename fuel oldpath newpath).IntoItself) :
    StoreSafe u k (.rename fuel oldpath newpath) := by
  obtain ⟨v, hv, hvi⟩ := Option.map_eq_some_iff.mp hi
  refine storeSafe_file h hv (fun hd => ?_) hout
  obtain ⟨-, y, -, rfl⟩ := h.tree.view_eq_some.mp hv
  rw [Disk.node_ino] at hvi
  subst hvi
  rw [Disk.node_isDir, hfile] at hd
  cases hd

end

/-! ## A small volume

A directory with a file in it, and the file moved to the root. -/

/-- The kernel after the file `/d/f` was renamed to `/e`. -/
def fileMovedKernel : Kernel Disk := (ipoFsRename (diskDev Buf.zero) 8 dfPath ePath fullKernel).2

theorem dirKernel_safe : FsRun Buf.zero (StoreSafe Buf.zero) (formattedKernel 12 6) dirKernel := by
  have hmount : FsCall.exec (diskDev Buf.zero) .mount (formattedKernel 12 6)
      = some (mountedKernel 12 6) := by
    rw [mountedKernel, ← formattedKernel_start]
    exact rfl
  exact (Relation.ReflTransGen.single ⟨.mount, ⟨trivial, fun hc => hc⟩, hmount⟩).tail
    ⟨.create dPath typeDir, ⟨trivial, fun hc => hc⟩, rfl⟩

theorem fullKernel_safe : FsRun Buf.zero (StoreSafe Buf.zero) (formattedKernel 12 6) fullKernel :=
  dirKernel_safe.tail ⟨.create dfPath typeFile, ⟨trivial, fun hc => hc⟩, rfl⟩

theorem formattedKernel_reached : Reached Buf.zero (formattedKernel 12 6) :=
  .format formattedKernel_run (by decide) (by decide)

theorem fullKernel_reached : Reached Buf.zero fullKernel :=
  formattedKernel_reached.run fullKernel_safe

theorem fullKernel_created :
    ipoFsCreate (diskDev Buf.zero) dfPath typeFile dirKernel = (some 5, fullKernel) := by
  have hres : (ipoFsCreate (diskDev Buf.zero) dfPath typeFile dirKernel).1
    = some 5 := by decide +kernel
  rw [← hres, fullKernel, withFile]

theorem fullKernel_file : (fullKernel.files Buf.zero).store (pathComps dfPath.chars)
    = some (.file 5 2 0 fun _ => none) := by
  have hok := (formattedKernel_reached.run dirKernel_safe).ok.1
  have hres := congrArg Prod.fst fullKernel_created
  rcases ipoFsCreate_effect (u := Buf.zero) hok.vol hok.tree dfPath typeFile with
    ⟨hno, -⟩ | ⟨i, s, hi, -, hput, hfiles⟩
  · rw [hres] at hno
    cases hno
  · obtain rfl := Option.some.inj (hres.symm.trans hi)
    rw [fullKernel, withFile, hfiles]
    show s _ = _
    rw [hput.put, PathStore.put_self]
    rfl

theorem fileMovedKernel_run :
    ipoFsRename (diskDev Buf.zero) 8 dfPath ePath fullKernel = (some true, fileMovedKernel) := by
  have hres : (ipoFsRename (diskDev Buf.zero) 8 dfPath ePath fullKernel).1 = some true := by
    decide +kernel
  rw [← hres, fileMovedKernel]

theorem fileMoved_safe : StoreSafe Buf.zero fullKernel (.rename 8 dfPath ePath) := by
  have hfile : ¬ (Node.file 5 2 0 fun _ => none).IsDir := by
    rintro ⟨_, _, hc⟩
    cases hc
  have hout : ¬ (FsCall.rename 8 dfPath ePath).IntoItself := by
    unfold FsCall.IntoItself
    decide
  exact storeSafe_file fullKernel_reached.ok.1 fullKernel_file hfile hout

theorem fileMovedKernel_exec :
    FsCall.exec (diskDev Buf.zero) (.rename 8 dfPath ePath) fullKernel = some fileMovedKernel := by
  have hres : (ipoFsRename (diskDev Buf.zero) 8 dfPath ePath fullKernel).1 = some true :=
    congrArg Prod.fst fileMovedKernel_run
  rw [fileMovedKernel]
  exact exec_rename hres

/-! ## What holds of all safe runs

The refinement itself, and the survival of a file that no call names. -/

section

variable {u : Block} {k k' : Kernel Disk}

/-- Every safe run from a new volume is, call by call and answer by answer, a run of the store
from the store of a new volume, and each path leads to an object of its own whose parent is a
directory. -/
theorem fs_refines_store {start totalBlocks totalInodes : UInt32} {k₀ : Kernel Disk}
    {calls : List (FsCall × FsAnswer)}
    (hf : ipoFsFormat (diskDev u) start totalBlocks totalInodes k₀ = (true, k))
    (htable : TableFits totalInodes) (hbitmap : BitmapFits totalBlocks totalInodes)
    (hr : KernelTrace u k calls k') :
    (∃ app autorun, 1 ≠ app ∧ 1 ≠ autorun ∧ app ≠ autorun
      ∧ (k.files u).store = newStore app autorun)
    ∧ StoreTrace (k.files u) calls (k'.files u) ∧ StoreOk (k'.files u).store := by
  obtain ⟨hok, hstore⟩ := (Reached.format hf htable hbitmap).ok
  have htrace := hr.storeTrace hok
  exact ⟨(ipoFsFormat_store hf htable hbitmap).2, htrace, htrace.storeOk hstore⟩

/-- A directory and a file in it created on a new volume, and the file moved to the root. -/
theorem fs_refines_store_moved :
    StoreTrace ((formattedKernel 12 6).files Buf.zero)
      [(.mount, .done true), (.create dPath typeDir, .number (some 4)),
        (.create dfPath typeFile, .number (some 5)), (.rename 8 dfPath ePath, .done true)]
      (fileMovedKernel.files Buf.zero)
    ∧ StoreOk (fileMovedKernel.files Buf.zero).store := by
  have hmount : FsCall.run (diskDev Buf.zero) .mount (formattedKernel 12 6)
      = some (.done true, mountedKernel 12 6) := by
    have hres : (ipoFsMount (diskDev Buf.zero) 0 (formattedKernel 12 6)).1
      = true := by decide +kernel
    rw [mountedKernel, ← hres, ← formattedKernel_start]
    rfl
  have hcreate : ∀ (path : CString) (type : UInt8) (k : Kernel Disk) (i : Nat),
      (ipoFsCreate (diskDev Buf.zero) path type k).1 = some i →
      FsCall.run (diskDev Buf.zero) (.create path type) k
        = some (.number (some i), (ipoFsCreate (diskDev Buf.zero) path type k).2) := by
    rintro path type k i hi
    rw [← hi]
    rfl
  have hdir : FsCall.run (diskDev Buf.zero) (.create dPath typeDir) (mountedKernel 12 6)
      = some (.number (some 4), dirKernel) := hcreate _ _ _ 4 (by decide +kernel)
  have hfile : FsCall.run (diskDev Buf.zero) (.create dfPath typeFile) dirKernel
      = some (.number (some 5), fullKernel) :=
        hcreate _ _ _ 5 (congrArg Prod.fst fullKernel_created)
  have hmove : FsCall.run (diskDev Buf.zero) (.rename 8 dfPath ePath) fullKernel
      = some (.done true, fileMovedKernel) := by
    simp only [FsCall.run, fileMovedKernel_run]
  have hsafe : ∀ {k : Kernel Disk} {path : CString} {type : UInt8},
      StoreSafe Buf.zero k (.create path type) := ⟨trivial, fun hc => hc⟩
  have hfirst : StoreSafe Buf.zero (formattedKernel 12 6) .mount := ⟨trivial, fun hc => hc⟩
  have htrace : KernelTrace Buf.zero (formattedKernel 12 6)
      [(.mount, .done true), (.create dPath typeDir, .number (some 4)),
        (.create dfPath typeFile, .number (some 5)), (.rename 8 dfPath ePath, .done true)]
      fileMovedKernel :=
    .cons ⟨hfirst, hmount⟩ (.cons ⟨hsafe, hdir⟩ (.cons ⟨hsafe, hfile⟩
      (.cons ⟨fileMoved_safe, hmove⟩ (.nil fileMovedKernel))))
  exact (fs_refines_store formattedKernel_run (by decide) (by decide) htrace).2

/-- Through every safe run whose calls do not write a file and do not delete it or a directory above
it, the file keeps its type, its size and its bytes, at one path. -/
theorem file_survives {ino n : Nat} {m : UInt32} {b : Nat → Option UInt8} (hk : Reached u k)
    (hr : FsRun u (fun k c => StoreSafe u k c ∧ (k.files u).Spares ino c) k k')
    (hfile : HasFile (k.files u).store ino m n b) :
    ∃ p, (k'.files u).store p = some (.file ino m n b)
      ∧ ∀ q v, (k'.files u).store q = some v → v.ino = ino → q = p := by
  have hstep : ∀ s c s', (KernelOk s ∧ StoreOk (s.files u).store
    ∧ HasFile (s.files u).store ino m n b) →
      (StoreSafe u s c ∧ (s.files u).Spares ino c) → c.exec (diskDev u) s = some s' →
      KernelOk s' ∧ StoreOk (s'.files u).store ∧ HasFile (s'.files u).store ino m n b := by
    rintro s c s' ⟨hs, hstore, hfile⟩ ⟨hsafe, hspares⟩ hc
    obtain ⟨r, hrun⟩ := FsCall.exec_eq.mp hc
    have hcall := hs.step hsafe hrun
    exact ⟨hs.exec hsafe hc, hcall.storeOk hstore, hcall.hasFile hstore hspares hfile⟩
  obtain ⟨-, hok, p, hp⟩ := RunBy.invariant hstep hr ⟨hk.ok.1, hk.ok.2, hfile⟩
  exact ⟨p, hp, fun q v hq hino => hok.inj hq hp hino⟩

/-- The file `/d/f` after its rename. -/
theorem file_survives_moved :
    ∃ p, (fileMovedKernel.files Buf.zero).store p = some (.file 5 2 0 fun _ => none)
    ∧ ∀ q v, (fileMovedKernel.files Buf.zero).store q = some v → v.ino = 5 → q = p := by
  have hspares : ∀ s : Files, s.Spares 5 (.rename 8 dfPath ePath) := fun _ => trivial
  have hrun : FsRun Buf.zero (fun k c => StoreSafe Buf.zero k c ∧ (k.files Buf.zero).Spares 5 c)
    fullKernel
      fileMovedKernel :=
    Relation.ReflTransGen.single
      ⟨.rename 8 dfPath ePath, ⟨fileMoved_safe, hspares _⟩, fileMovedKernel_exec⟩
  have hfile : HasFile (fullKernel.files Buf.zero).store 5 2 0 fun _ => none := ⟨_, fullKernel_file⟩
  exact file_survives fullKernel_reached hrun hfile

end

end IpoOs
