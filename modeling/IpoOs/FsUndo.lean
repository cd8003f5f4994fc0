import IpoOs.FsRefines

/-!
# Calls that are taken back

What `ipo_fs_create` makes is deleted again, and what `ipo_fs_rename`
moves is moved back. Both leave the store as it was, though not the disk:
the slots of the entries stay behind in their directories. A call that
reports a failure has nothing to be taken back.

The laws of `PathStore` about taking operations back are applied to the
store of a volume. What has to be shown of the code is that the second call
succeeds, which is a fact about the entry that the first one has made.
-/

namespace IpoOs

/-- Where a rename leaves an object: in a place for it, or where it is when both paths are one. -/
def RenamePlace (s : PathStore Str Node) (oldpath newpath : CString) (q : List Str) : Prop :=
  (pathComps newpath.chars = pathComps oldpath.chars ∧ q = pathComps oldpath.chars)
    ∨ RenameTo s oldpath newpath q

/-! ## Deletion succeeds

A file that was just created can be deleted. -/

section

variable {u : Block} {k : Kernel Disk} (h : VolOk k) (ht : TreeOk k.sb k.disk)

include h ht

/-- What a link of a directory leads to is deleted, if it is not protected and has two slots at
most. -/
theorem deleteEntry_of_link {path : CString} {init : List Str} {parent e : Nat}
    {l : Link Nat Str UInt8}
    (hcomps : pathComps path.chars = init ++ [l.name])
    (hway : (k.disk.naming k.sb).Way 1 init parent)
    (hl : (k.disk.naming k.sb).entry parent e = some l)
    (hprot : (k.disk.inodeAt k.sb l.target).isProtected = false)
    (hsize : (k.disk.inodeAt k.sb l.target).size.toNat ≤ 144) :
    (deleteEntry path.chars (arrayDev u) k.sb k.disk).1 = true := by
  have htok := pathComps_token path
  rw [hcomps] at htok
  have hname := htok l.name (List.mem_append_right _ (List.mem_singleton.mpr rfl))
  have hparent := ht.tree.source hl
  have hresolve := pathResolveParent_comps.mpr
    ⟨init, hcomps, (ht.walk_root (u := u) fun t ht => htok t (List.mem_append_left _ ht)).mpr hway⟩
  cases hf : (dirFindEntry (arrayDev u) k.sb parent l.name k.disk).1 with
  | none => exact absurd rfl (dirFindEntry_absent ht.dirs hparent hf hl)
  | some f =>
      obtain ⟨de, p, j⟩ := f
      obtain ⟨-, e', hl'⟩ := dirFindEntry_link ht.dirs hparent hname.linkName hf
      obtain rfl := ht.tree.name hl' hl rfl
      have htarget : de.inode.toNat = l.target :=
        congrArg Link.target (Option.some.inj (hl'.symm.trans hl))
      obtain ⟨d', hrem, -⟩ := dirRemoveEntry_link (u := u) h.layout h.owned ht.dirs hl
        (fun hm hmn => ht.tree.name hm hl hmn) hprot
      refine (deleteEntry_iff u hresolve hf ?_ ?_).mpr ⟨fun hbig => ?_, ?_⟩
      · rw [htarget]
        exact (ht.tree.target hl).1.1
      · rw [htarget]
        exact hprot
      · have hlarge := hbig.2
        rw [htarget] at hlarge
        omega
      · exact (dirRemoveEntry_iff u parent l.name).mp (by rw [hrem])

/-- The record of a new object is still the empty one when its entry is there. -/
theorem createEntry_fresh {path : Str} {type : UInt8} {i : Nat}
    (hi : (createEntry path type (arrayDev u) k.sb k.disk).1 = some i) :
    (createEntry path type (arrayDev u) k.sb k.disk).2.inodeAt k.sb i
        = freshInode type.toUInt32 1 := by
  rcases createEntry_cases h.layout h.bound u h.owned h.count path type with
    hrun | ⟨parent, name, j, d₁, d₂, hok, hv, hfree, htaken, hrest⟩
  · rw [hrun] at hi
    cases hi
  · rcases hrest with ⟨hadd, hrun⟩ | ⟨d₃, -, -, hrun⟩
    · have htou := dirAddEntry_touched h.layout h.bound u htaken.owned parent name j type
      rw [hadd] at htou
      rw [hrun] at hi ⊢
      obtain rfl := Option.some.inj hi
      have hne : j ≠ parent := by
        rintro rfl
        have hused := ht.used_of_reach ht.root_used (ht.resolveParent_reach hok.resolve).2
        exact absurd (hused.2.symm.trans hfree) (by decide)
      rw [htou.inodeAt j hne, htaken.inodeAt, if_pos rfl]
    · rw [hrun] at hi
      cases hi

end

section

variable {u : Block} {k k₁ k₂ : Kernel Disk} {path : CString} {type : UInt8} {i : Nat}

theorem type_unprotected (type : UInt8) : type.toUInt32 &&& flagProtected = 0 := by
  refine UInt32.toNat_inj.mp ?_
  rw [UInt32.toNat_and, UInt8.toNat_toUInt32]
  have hflag : flagProtected.toNat = 2 ^ 31 := rfl
  refine Nat.eq_of_testBit_eq fun n => ?_
  rw [hflag, Nat.testBit_and, Nat.testBit_two_pow]
  have hlt := type.toNat_lt
  rcases em (n = 31) with rfl | hne
  · rw [Nat.testBit_lt_two_pow (Nat.lt_of_lt_of_le hlt (by decide))]
    rfl
  · rw [decide_eq_false (Ne.symm hne), Bool.and_false]
    exact (Nat.zero_testBit n).symm

/-- An object that was created can be deleted again, and then every path leads to what it led to
before. -/
theorem ipoFsCreate_delete (hk : Reached u k)
    (hrun : ipoFsCreate (diskDev u) path type k = (some i, k₁)) :
    (ipoFsDelete (diskDev u) path k₁).1 = true
      ∧ (ipoFsDelete (diskDev u) path k₁).2.files u = k.files u := by
  have hexec : FsCall.exec (diskDev u) (.create path type) k = some k₁ :=
    congrArg some (congrArg Prod.snd hrun)
  have hsafe : StoreSafe u k (.create path type) := ⟨trivial, fun hc => hc⟩
  have hk₁ : Reached u k₁ := hk.call hsafe hexec
  obtain ⟨⟨hvol, htree, -, -⟩, hstore⟩ := hk.ok
  obtain ⟨⟨hvol₁, htree₁, -, -⟩, -⟩ := hk₁.ok
  have heffect := ipoFsCreate_effect (u := u) hvol htree path type
  rw [hrun] at heffect
  rcases heffect with ⟨hc, -⟩ | ⟨j, s, hj, -, hput, hfiles⟩
  · cases hc
  obtain rfl := Option.some.inj hj
  have hstore₁ : (k₁.files u).store = (k.files u).store.put (pathComps path.chars)
      (newNode i type.toUInt32) := by
    rw [hfiles]
    exact hput.put
  -- the entry, and the record that it leads to
  have hres : (ipoFsDelete (diskDev u) path k₁).1 = true := by
    obtain ⟨init, name, -, hcomps, -⟩ := hput.parent
    obtain ⟨-, y, hway, hnode⟩ := htree₁.view_eq_some.mp
      ((congrFun hstore₁ (pathComps path.chars)).trans PathStore.put_self)
    have hino := congrArg Node.ino hnode
    rw [newNode_ino, Disk.node_ino] at hino
    subst hino
    rw [hcomps] at hway
    obtain ⟨v, e, l, hinit, hl, rfl, htarget⟩ := hway.last
    rw [ipoFsCreate_run] at hrun
    split at hrun
    · rename_i hm
      obtain ⟨hi, rfl⟩ := Prod.mk.inj hrun
      have hfresh := createEntry_fresh hvol htree hi
      rw [ipoFsDelete_run, if_pos hm]
      refine deleteEntry_of_link hvol₁ htree₁ hcomps hinit hl ?_ ?_
      · show (Disk.inodeAt _ _ _).isProtected = false
        rw [htarget, hfresh]
        have htype : (freshInode type.toUInt32 1).mode &&& flagProtected = 0 :=
          type_unprotected type
        unfold Inode.isProtected
        simpa using htype
      · show (Disk.inodeAt _ _ _).size.toNat ≤ 144
        rw [htarget, hfresh]
        exact Nat.zero_le 144
    · cases (Prod.mk.inj hrun).1
  refine ⟨hres, ?_⟩
  rcases ipoFsDelete_effect (u := u) hvol₁ htree₁ path with
    ⟨hno, -⟩ | ⟨t, -, -, hpruned, hfiles'⟩
  · exact absurd (hres.symm.trans hno) (by decide)
  · rw [hfiles', hfiles]
    refine Files.ext rfl ?_ rfl
    have hp := hpruned.prune
    rw [hstore₁, PathStore.prune_put hstore.closed hput.free] at hp
    exact hp

/-- The file `/d/f` created and deleted. -/
theorem ipoFsCreate_delete_file : (ipoFsDelete (diskDev Buf.zero) dfPath fullKernel).1 = true
    ∧ (ipoFsDelete (diskDev Buf.zero) dfPath fullKernel).2.files Buf.zero
        = dirKernel.files Buf.zero := by
  have hreached : Reached Buf.zero dirKernel := formattedKernel_reached.run dirKernel_safe
  exact ipoFsCreate_delete hreached fullKernel_created

/-! ## Failed calls

A failure in the answer means that nothing was done. -/

/-- The answer is a failure. -/
def FsAnswer.Failed : FsAnswer → Prop
  | .done ok => ok = false
  | .number n => n = none
  | .bytes count _ => count = none

/-- After any safe run from a new volume, a call that reports a failure has left what every path
leads to, and what every descriptor is on, as it was. `ipo_fs_write_text` is left out: the file that
it has created stays when it cannot be opened. -/
theorem failed_calls_keep {c : FsCall} {r : FsAnswer} {k' : Kernel Disk} (hk : Reached u k)
    (hs : StoreSafe u k c) (hc : c.run (diskDev u) k = some (r, k')) (hf : r.Failed)
    (hnot : ∀ path text append, c ≠ .writeText path text append) : k'.files u = k.files u := by
  have hstep := hk.ok.1.step hs hc
  generalize k'.files u = s at hstep ⊢
  cases hstep with
  | text => exact absurd rfl (hnot _ _ _)
  | noText => exact absurd rfl (hnot _ _ _)
  | mounted => cases hf
  | created => cases hf
  | opened => cases hf
  | read => cases hf
  | written => cases hf
  | deleted => cases hf
  | moved => cases hf
  | _ => rfl

/-- The file `/d/f` is there, and `/d/f` is not created again. -/
theorem failed_calls_keep_file : (ipoFsCreate (diskDev Buf.zero) dfPath typeFile fullKernel).2.files
    Buf.zero = fullKernel.files Buf.zero := by
  have hres : (ipoFsCreate (diskDev Buf.zero) dfPath typeFile fullKernel).1
    = none := by decide +kernel
  have hrun : FsCall.run (diskDev Buf.zero) (.create dfPath typeFile) fullKernel
      = some (.number none, (ipoFsCreate (diskDev Buf.zero) dfPath typeFile fullKernel).2) := by
    rw [← hres]
    rfl
  have hsafe : StoreSafe Buf.zero fullKernel (.create dfPath typeFile) := ⟨trivial, fun hc => hc⟩
  exact failed_calls_keep fullKernel_reached hsafe hrun rfl fun _ _ _ hc => by cases hc

/-! ## Renames

A move as a change of the store, and the move back. -/

variable {fuel fuel' : Nat} {oldpath newpath oldpath' newpath' : CString} {b : Bool}

/-- `ipo_fs_rename` that returns false leaves the store alone. When it returns true it has moved the
object at the old path, and everything below it, to its new place: what is there now is what was
below the old path, the old path and those below it lead nowhere, all other paths lead where they
led, and no object is lost or new. -/
theorem ipoFsRename_grafts (hk : Reached u k) (hs : StoreSafe u k (.rename fuel oldpath newpath))
    (hrun : ipoFsRename (diskDev u) fuel oldpath newpath k = (some b, k₁)) :
    (b = false → k₁.files u = k.files u)
    ∧ (b = true → (k.files u).store (pathComps oldpath.chars) ≠ none
      ∧ (∃ q, RenamePlace (k.files u).store oldpath newpath q
        ∧ k₁.files u
          = { k.files u with store := (k.files u).store.graft (pathComps oldpath.chars) q })
      ∧ ∀ v, (∃ p, (k₁.files u).store p = some v) ↔ ∃ p, (k.files u).store p = some v) := by
  obtain ⟨⟨hvol, htree, htag, -⟩, hstore⟩ := hk.ok
  rcases ipoFsRename_effect hvol htree htag hs hrun with ⟨hsame, hplace⟩ | ⟨q, s, hb, -, hg, hfiles⟩
  · refine ⟨fun _ => hsame, fun hb => ?_⟩
    obtain ⟨-, v, hv, hto⟩ := hplace hb
    refine ⟨by rw [hv]; exact Option.some_ne_none v, ⟨pathComps oldpath.chars, ?_, ?_⟩,
      fun w => by rw [hsame]⟩
    · rcases hto with hto | hto
      · exact Or.inl ⟨hto, rfl⟩
      · exact Or.inr hto
    · rw [hsame, PathStore.graft_self]
  · refine ⟨fun hc => (by rw [hb] at hc; cases hc), fun _ => ?_⟩
    obtain ⟨v, hv, -⟩ := hg.here
    refine ⟨by rw [hv]; exact Option.some_ne_none v, ⟨q, Or.inr hg.dest, by rw [hfiles, hg.graft]⟩,
      fun w => ?_⟩
    rw [hfiles]
    constructor
    · rintro ⟨p, hp⟩
      obtain ⟨p', hp', -⟩ := hg.before hp
      exact ⟨p', hp'⟩
    · rintro ⟨p, hp⟩
      exact hg.after hstore hp

/-- The file `/d/f` renamed to `/e`. -/
theorem ipoFsRename_grafts_file : ∃ q, RenamePlace (fullKernel.files Buf.zero).store dfPath ePath q
    ∧ fileMovedKernel.files Buf.zero = { fullKernel.files Buf.zero with
      store := (fullKernel.files Buf.zero).store.graft (pathComps dfPath.chars) q } :=
  ((ipoFsRename_grafts fullKernel_reached fileMoved_safe fileMovedKernel_run).2 rfl).2.1

theorem Grafted.gone {s t : PathStore Str Node} {q : List Str} (h : Grafted s oldpath newpath q t)
    (hs : StoreOk s) : t (pathComps oldpath.chars) = none := by
  obtain ⟨v, hv, -⟩ := h.here
  have hnot : ¬ q <+: pathComps oldpath.chars := by
    rintro ⟨us, hus⟩
    rcases em (us = []) with rfl | hne
    · rw [← hus, List.append_nil, h.free] at hv
      cases hv
    · rw [← hus, hs.closed.below_none (fun w hw => by rw [h.free] at hw; cases hw) hne] at hv
      cases hv
  rw [h.graft, PathStore.graft_of_not hnot, if_pos List.prefix_rfl]

/-- What was moved is moved back: a second rename, from the path that leads to the object now to the
path that it had, makes every path lead to what it led to before. -/
theorem ipoFsRename_back (hk : Reached u k) (hs : StoreSafe u k (.rename fuel oldpath newpath))
    (hrun : ipoFsRename (diskDev u) fuel oldpath newpath k = (some true, k₁))
    (hs' : StoreSafe u k₁ (.rename fuel' oldpath' newpath'))
    (hrun' : ipoFsRename (diskDev u) fuel' oldpath' newpath' k₁ = (some true, k₂))
    (hold : ((k₁.files u).store (pathComps oldpath'.chars)).map Node.ino
      = ((k.files u).store (pathComps oldpath.chars)).map Node.ino)
    (hnew : pathComps newpath'.chars = pathComps oldpath.chars) :
    k₂.files u = k.files u := by
  have hexec : FsCall.exec (diskDev u) (.rename fuel oldpath newpath) k = some k₁ := by
    have hres := @exec_rename k u fuel oldpath newpath true (by rw [hrun])
    rwa [hrun] at hres
  obtain ⟨⟨hvol, htree, htag, -⟩, hstore⟩ := hk.ok
  obtain ⟨⟨hvol₁, htree₁, htag₁, -⟩, hstore₁⟩ := (hk.call hs hexec).ok
  rcases ipoFsRename_effect hvol htree htag hs hrun with ⟨hsame, hplace⟩ | ⟨q, s, -, -, hg, hfiles⟩
  · -- nothing was moved, and nothing is
    obtain ⟨-, v, hv, -⟩ := hplace rfl
    rw [hv, hsame] at hold
    obtain ⟨w, hw, hino⟩ := Option.map_eq_some_iff.mp hold
    have hcomps := hstore.inj hw hv hino
    rcases ipoFsRename_effect hvol₁ htree₁ htag₁ hs' hrun' with
      ⟨hsame', -⟩ | ⟨q', t, -, -, hg', -⟩
    · exact hsame'.trans hsame
    · exfalso
      rcases hg'.dest with ⟨rfl, -⟩ | ⟨init, on, w, -, -, -, rfl⟩
      · have hfree := hg'.free
        rw [hnew, hsame, hv] at hfree
        cases hfree
      · exact hg'.outside (by rw [hcomps, hnew]; exact List.prefix_append _ [on])
  · obtain ⟨v, hv, -⟩ := hg.here
    have hmoved : (k₁.files u).store q = some v := by
      rw [hfiles]
      show s q = some v
      rw [hg.graft, PathStore.graft_at, hv]
    have hgone : (k₁.files u).store (pathComps oldpath.chars) = none := by
      rw [hfiles]
      exact hg.gone hstore
    rw [hv] at hold
    obtain ⟨w, hw, hino⟩ := Option.map_eq_some_iff.mp hold
    have hcomps := hstore₁.inj hw hmoved hino
    rcases ipoFsRename_effect hvol₁ htree₁ htag₁ hs' hrun' with
      ⟨-, hplace⟩ | ⟨q', t, -, -, hg', hfiles'⟩
    · exfalso
      obtain ⟨-, w, -, hto⟩ := hplace rfl
      rcases hto with heq | ⟨heq, -⟩ | ⟨init, on, w, -, -, -, heq⟩
      · rw [hcomps, hnew] at heq
        rw [← heq, hgone] at hmoved
        cases hmoved
      · rw [hcomps, hnew] at heq
        rw [heq, hgone] at hmoved
        cases hmoved
      · rw [hcomps, hnew] at heq
        exact hg.outside (heq ▸ List.prefix_append _ [on])
    · rcases hg'.dest with ⟨rfl, -⟩ | ⟨init, on, w, -, hw, -, -⟩
      · rw [hfiles', hfiles]
        refine Files.ext rfl ?_ rfl
        have hback := hg'.graft
        rw [hcomps, hnew, hfiles] at hback
        show t = (k.files u).store
        rw [hback]
        show s.graft q (pathComps oldpath.chars) = _
        rw [hg.graft, PathStore.graft_graft hstore.closed hg.free]
      · rw [hnew, hgone] at hw
        cases hw

/-- The kernel after `/e` was renamed back to `/d/f`. -/
def fileBackKernel : Kernel Disk :=
  (ipoFsRename (diskDev Buf.zero) 8 ePath dfPath fileMovedKernel).2

/-- The file renamed back to `/d/f`. -/
theorem ipoFsRename_back_file : fileBackKernel.files Buf.zero = fullKernel.files Buf.zero := by
  have hres : (ipoFsRename (diskDev Buf.zero) 8 ePath dfPath fileMovedKernel).1 = some true := by
    decide +kernel
  have hrun : ipoFsRename (diskDev Buf.zero) 8 ePath dfPath fileMovedKernel
      = (some true, fileBackKernel) := by
    rw [← hres, fileBackKernel]
  have hino : ((fileMovedKernel.files Buf.zero).store (pathComps ePath.chars)).map Node.ino
      = some 5 := by
    decide +kernel
  have hino' : ((fullKernel.files Buf.zero).store (pathComps dfPath.chars)).map Node.ino
      = some 5 := by
    decide +kernel
  have hout : ¬ (FsCall.rename 8 ePath dfPath).IntoItself := by
    unfold FsCall.IntoItself
    decide
  have hok := (fullKernel_reached.call fileMoved_safe fileMovedKernel_exec).ok.1
  have hfile : (fileMovedKernel.disk.inodeAt fileMovedKernel.sb 5).isDir
    = false := by decide +kernel
  have hsafe : StoreSafe Buf.zero fileMovedKernel (.rename 8 ePath dfPath) :=
    storeSafe_ino hok hino hfile hout
  exact ipoFsRename_back fullKernel_reached fileMoved_safe fileMovedKernel_run hsafe hrun
    (hino.trans hino'.symm) (Eq.refl (pathComps dfPath.chars))

end

end IpoOs
