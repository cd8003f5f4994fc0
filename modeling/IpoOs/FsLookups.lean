import IpoOs.FsWalk
import IpoOs.FsDirMap

/-!
# Lookups on any volume

A path is resolved by lookups of names that are shorter than the name
field, and such a lookup reads each slot alone, whatever bytes it holds.
So what a change of slots does to a lookup, and what a change of lookups
does to a path, needs no directory to be in order.

A `hit` is a property of the bytes of a slot. Two volumes with the same
slots have the same lookups, and a step of the file system that changes one
slot changes lookups of one name.
-/

namespace IpoOs

/-! ## One slot

The comparison of `dir_find_entry` reads the 72 bytes of a slot and none
after them. -/

section

variable {a b : Buf}

/-- A length below the bytes that two strings share is the length of both. -/
theorem strlenFrom_congr {m n n' i i' l : Nat} (h : ∀ j, j < m → a (i + j) = b (i' + j))
    (hn : m ≤ n) (hn' : m ≤ n') (hl : l < m) : strlenFrom a n i = l ↔ strlenFrom b n' i' = l := by
  induction m generalizing n n' i i' l with
  | zero => exact absurd hl (Nat.not_lt_zero l)
  | succ m ih =>
      obtain ⟨n, rfl⟩ := Nat.exists_eq_succ_of_ne_zero (Nat.ne_of_gt (Nat.zero_lt_of_lt hn))
      obtain ⟨n', rfl⟩ := Nat.exists_eq_succ_of_ne_zero (Nat.ne_of_gt (Nat.zero_lt_of_lt hn'))
      have h0 : a i = b i' := h 0 (Nat.zero_lt_succ m)
      have htail : ∀ j, j < m → a (i + 1 + j) = b (i' + 1 + j) := by
        intro j hj
        have hj' := h (j + 1) (Nat.succ_lt_succ hj)
        rwa [Nat.add_comm j 1, ← Nat.add_assoc, ← Nat.add_assoc] at hj'
      unfold strlenFrom
      rw [h0]
      split
      · exact Iff.rfl
      · cases l with
        | zero => omega
        | succ l =>
            have hrest := ih htail (Nat.le_of_succ_le_succ hn) (Nat.le_of_succ_le_succ hn')
              (Nat.lt_of_succ_lt_succ hl)
            rw [Nat.add_comm 1, Nat.add_comm 1, Nat.succ.injEq, Nat.succ.injEq]
            exact hrest

theorem strncmpFrom_congr {c : Buf} {m n i : Nat} (h : ∀ j, j < m → a j = b j) (hn : i + n ≤ m) :
    strncmpFrom a c n i = strncmpFrom b c n i := by
  induction n generalizing i with
  | zero => rfl
  | succ n ih =>
      have hi := h i (by omega)
      unfold strncmpFrom
      rw [hi, ih (by omega)]

end

/-- `dir_find_entry` takes this entry for that name. -/
def DirEntry.hit (s : DirEntry) (name : Str) : Bool :=
  entryMatches (Buf.zero.patch 0 72 s.encode) 0 name

section

variable {buf buf' : Block} {off off' : Nat} {name : Str}

/-- A comparison with a short name reads no byte behind the slot. -/
theorem entryMatches_congr (h : DirEntry.decode buf off = DirEntry.decode buf' off')
    (hoff : off ≤ 432) (hoff' : off' ≤ 432) (hname : name.length < 64) :
    entryMatches buf off name = entryMatches buf' off' name := by
  have hinode : entryInode buf off = entryInode buf' off' := congrArg DirEntry.inode h
  have hlen : buf (off + 5) = buf' (off' + 5) := congrArg DirEntry.nameLen h
  have hchars : ∀ j, j < 64 → entryName buf off j = entryName buf' off' j := by
    intro j hj
    rw [entryName_lt hj, entryName_lt hj, h]
  have hn : entryNameLen buf off = name.length ↔ entryNameLen buf' off' = name.length := by
    unfold entryNameLen
    rw [hlen]
    split
    · exact Iff.rfl
    · refine strlenFrom_congr (fun j hj => ?_) (by omega) (by omega) hname
      rw [Nat.zero_add]
      exact hchars j hj
  unfold entryMatches
  rw [hinode]
  rcases em (entryNameLen buf off = name.length) with heq | hne
  · have hcmp : strncmp (entryName buf off) (cstr name) name.length
        = strncmp (entryName buf' off') (cstr name) name.length :=
      strncmpFrom_congr hchars (by omega)
    rw [heq, hn.mp heq, hcmp]
  · rw [decide_eq_false hne, decide_eq_false fun hc => hne (hn.mpr hc)]
    simp

theorem entryMatches_hit (hoff : off ≤ 432) (hname : name.length < 64) :
    entryMatches buf off name = (DirEntry.decode buf off).hit name :=
  entryMatches_congr (DirEntry.decode_patch _ 0 _).symm hoff (by decide) hname

theorem DirEntry.hit_dead {s : DirEntry} (h : s.inode = 0) : s.hit name = false := by
  have hinode : entryInode (Buf.zero.patch 0 72 s.encode) 0 = 0 :=
    (congrArg DirEntry.inode (DirEntry.decode_patch Buf.zero 0 s)).trans h
  simp [DirEntry.hit, entryMatches, hinode]

end

/-! ## One directory

A lookup is the first slot that is a hit. -/

/-- The entry that a lookup gives: the first slot that is taken for the name. -/
def Disk.lookupName (d : Disk) (sb : Superblock) (x : Nat) (name : Str) : Option DirEntry :=
  if sb.ValidIno x ∧ (d.inodeAt sb x).isDir = true then
    ((List.range (d.inodeAt sb x).slots).filterMap (d.dirSlot (d.inodeAt sb x))).find?
      fun s => s.hit name
  else none

section

variable {sb : Superblock} {d d' : Disk} {x : Nat} {name : Str} (u : Block)

theorem dirFindFrom_hit (r : Inode) (hname : name.length < 64) (n e : Nat) :
    (dirFindFrom (arrayDev u) sb r name n e d).1.map (·.1)
      = ((List.range' e n).filterMap (d.dirSlot r)).find? fun s => s.hit name := by
  induction n generalizing e with
  | zero => rfl
  | succ n ih =>
      rw [List.range'_succ]
      unfold dirFindFrom
      rw [Prog.run_bind, findPhys_array]
      cases hp : d.findPhys r e with
      | none =>
          have hslot : d.dirSlot r e = none := by rw [Disk.dirSlot, hp]
          rw [List.filterMap_cons_none hslot]
          exact ih (e + 1)
      | some p =>
          show (Option.map _ ((if p = 0 then _ else _ : Prog Disk _) d).1) = _
          rw [Prog.run_ite]
          split
          · rename_i h0
            have hslot : d.dirSlot r e = none := by rw [Disk.dirSlot, hp]; exact if_pos h0
            rw [List.filterMap_cons_none hslot]
            exact ih (e + 1)
          · rename_i h0
            have hslot : d.dirSlot r e = some (DirEntry.decode (d p) (e % 7 * 72)) := by
              rw [Disk.dirSlot, hp]
              exact if_neg h0
            have hhit := @entryMatches_hit (d p) (e % 7 * 72) name (by omega) hname
            rw [Prog.run_bind, arrayDev_read]
            show (Option.map _ ((if entryMatches (d p) (e % 7 * 72) name then _ else _ :
              Prog Disk _) d).1) = _
            rw [Prog.run_ite, hhit, List.filterMap_cons_some hslot]
            split
            · rename_i hm
              rw [List.find?_cons_of_pos (p := fun s : DirEntry => s.hit name) hm]
              rfl
            · rename_i hm
              rw [List.find?_cons_of_neg (p := fun s : DirEntry => s.hit name) hm]
              exact ih (e + 1)

theorem dirFindEntry_lookupName (hname : name.length < 64) :
    (dirFindEntry (arrayDev u) sb x name d).1.map (·.1) = d.lookupName sb x name := by
  unfold Disk.lookupName dirFindEntry
  rw [Prog.run_bind, readInode_array]
  rcases em (sb.ValidIno x) with hv | hv
  · rw [if_pos hv]
    show (Option.map _ ((if (d.inodeAt sb x).isDir then _ else _ : Prog Disk _) d).1) = _
    rw [Prog.run_ite]
    split
    · rename_i hdir
      rw [if_pos ⟨hv, hdir⟩, List.range_eq_range']
      exact dirFindFrom_hit u _ hname _ _
    · rename_i hdir
      rw [if_neg fun h => hdir h.2]
      rfl
  · rw [if_neg hv, if_neg fun h => hv h.1]
    rfl

end

section

variable {sb : Superblock} {d d' : Disk} {x : Nat} {name : Str}

theorem lookupName_of_file (h : ¬ (d.inodeAt sb x).isDir = true) : d.lookupName sb x name = none :=
  if_neg fun hc => h hc.2

theorem lookupName_same (hinode : d'.inodeAt sb x = d.inodeAt sb x)
    (hsame : SameFile d (d.inodeAt sb x) d' (d.inodeAt sb x)) :
    d'.lookupName sb x name = d.lookupName sb x name := by
  have hslot : d'.dirSlot (d.inodeAt sb x) = d.dirSlot (d.inodeAt sb x) := funext hsame.dirSlot
  unfold Disk.lookupName
  rw [hinode, hslot]

theorem lookupName_eq_some {s : DirEntry} :
    d.lookupName sb x name = some s
      ↔ (sb.ValidIno x ∧ (d.inodeAt sb x).isDir = true) ∧ s.hit name = true
        ∧ ∃ e, e < (d.inodeAt sb x).slots ∧ d.dirSlot (d.inodeAt sb x) e = some s
          ∧ ∀ e', e' < e → ∀ s', d.dirSlot (d.inodeAt sb x) e' = some s' → s'.hit name = false := by
  unfold Disk.lookupName
  split
  · rename_i hdir
    rw [List.find?_filterMap, Option.bind_eq_some_iff]
    simp only [List.find?_range_eq_some, List.mem_range, Option.any_eq_true, Bool.not_eq_true',
      Option.any_eq_false]
    constructor
    · rintro ⟨e, ⟨⟨t, ht, hhit⟩, he, hfirst⟩, hs⟩
      rw [hs] at ht
      cases ht
      exact ⟨hdir, hhit, e, he, hs, hfirst⟩
    · rintro ⟨-, hhit, e, he, hs, hfirst⟩
      exact ⟨e, ⟨⟨s, hs, hhit⟩, he, hfirst⟩, hs⟩
  · rename_i hdir
    constructor
    · intro h
      cases h
    · intro h
      exact absurd h.1 hdir

/-- An entry added to a directory is found, or what was found before. -/
theorem EntryAdded.lookupName {dir : Nat} {de s : DirEntry} (h : EntryAdded sb dir de d d')
    (hs : d'.lookupName sb dir name = some s) : s = de ∨ d.lookupName sb dir name = some s := by
  obtain ⟨hdir, hhit, e, he, hslot, hfirst⟩ := lookupName_eq_some.mp hs
  rw [h.slots] at he
  rcases Nat.lt_or_ge e (d.inodeAt sb dir).slots with hlt | hge
  · have hold : ∀ e' s', e' < (d.inodeAt sb dir).slots →
        d'.dirSlot (d'.inodeAt sb dir) e' = some s' → s'.hit name = true →
        d.dirSlot (d.inodeAt sb dir) e' = some s' := by
      intro e' s' he' hs' hhit'
      cases hslot' : d.dirSlot (d.inodeAt sb dir) e' with
      | none =>
          have hdead := h.fresh e' s' (Nat.ne_of_lt he') hslot' hs'
          rw [DirEntry.hit_dead hdead] at hhit'
          cases hhit'
      | some t => rw [← h.kept e' t (Nat.ne_of_lt he') hslot', hs']
    have hisdir : (d.inodeAt sb dir).isDir = true := by
      rw [← hdir.2, Inode.isDir, Inode.isDir, h.touched.mode]
    refine Or.inr (lookupName_eq_some.mpr ⟨⟨hdir.1, hisdir⟩, hhit, e, hlt,
      hold e s hlt hslot hhit, ?_⟩)
    intro e' he' s' hs'
    exact hfirst e' he' s' (h.kept e' s' (by omega) hs')
  · obtain rfl : e = (d.inodeAt sb dir).slots := by omega
    rw [h.slot] at hslot
    exact Or.inl (Option.some.inj hslot).symm

end

/-! ## Paths

A path is resolved alike on two volumes that agree on the lookups along it. -/

section

variable {u : Block} {sb : Superblock} {d d' : Disk}

theorem walk_cons (t : Str) (ts : List Str) (x : Nat) (ht : t.length < 64) :
    d.walk u sb (t :: ts) x
      = (d.lookupName sb x t).bind fun s => d.walk u sb ts s.inode.toNat := by
  rw [← dirFindEntry_lookupName u ht, Disk.walk]
  cases (dirFindEntry (arrayDev u) sb x t d).1 with
  | none => rfl
  | some f => rfl

theorem walk_congr (h : ∀ x t, PathToken t →
      (d'.lookupName sb x t).map DirEntry.inode = (d.lookupName sb x t).map DirEntry.inode)
    {ts : List Str} (hts : ∀ t ∈ ts, PathToken t) (x : Nat) :
    d'.walk u sb ts x = d.walk u sb ts x := by
  induction ts generalizing x with
  | nil => rfl
  | cons t ts ih =>
      have ht := hts t List.mem_cons_self
      have hx := h x t ht
      have ih' := ih fun t ht => hts t (List.mem_cons_of_mem _ ht)
      rw [walk_cons t ts x ht.short, walk_cons t ts x ht.short]
      cases hd : d.lookupName sb x t with
      | none =>
          rw [hd] at hx
          rw [Option.map_eq_none_iff.mp hx]
          rfl
      | some s =>
          rw [hd] at hx
          obtain ⟨s', hs', hino⟩ := Option.map_eq_some_iff.mp hx
          rw [hs', Option.bind_some, Option.bind_some, hino]
          exact ih' _

/-- When the lookups find what they found before or a new object that is no directory, a walk ends
where it ended before or at the new object. -/
theorem walk_new {i : Nat} (h : ∀ x t s, PathToken t → d'.lookupName sb x t = some s →
      s.inode.toNat = i ∨ d.lookupName sb x t = some s)
    (hfile : ∀ t, d'.lookupName sb i t = none) {ts : List Str} (hts : ∀ t ∈ ts, PathToken t)
    {x n : Nat} (hn : d'.walk u sb ts x = some n) : n = i ∨ d.walk u sb ts x = some n := by
  induction ts generalizing x with
  | nil => exact Or.inr hn
  | cons t ts ih =>
      have ht := hts t List.mem_cons_self
      rw [walk_cons t ts x ht.short] at hn ⊢
      obtain ⟨s, hs, hrest⟩ := Option.bind_eq_some_iff.mp hn
      rcases h x t s ht hs with hi | hold
      · -- the walk ends at the new object
        refine Or.inl ?_
        cases ts with
        | nil => exact (Option.some.inj hrest).symm.trans hi
        | cons t' ts =>
            rw [hi, walk_cons t' ts i (hts t' (by simp)).short, hfile] at hrest
            cases hrest
      · rw [hold, Option.bind_some]
        exact ih (fun t ht => hts t (List.mem_cons_of_mem _ ht)) hrest

theorem Touched.pathResolve {hi ino : Nat} (h : Touched sb hi ino d d')
    (hfile : ¬ (d.inodeAt sb ino).isDir = true) (path : Str) :
    (pathResolve (arrayDev u) sb path d').1 = (pathResolve (arrayDev u) sb path d).1 := by
  obtain ⟨ts, hts, hwalk⟩ := @pathResolve_walks u sb path
  rw [hwalk, hwalk]
  refine walk_congr (fun x t _ => ?_) hts 1
  rcases em (x = ino) with rfl | hne
  · have hfile' : ¬ (d'.inodeAt sb x).isDir = true := by
      rwa [Inode.isDir, h.mode]
    rw [lookupName_of_file hfile, lookupName_of_file hfile']
  · rw [lookupName_same (h.inodeAt x hne) (h.same x hne)]

/-- An inode taken for a file holds no entry, and the other directories are as they were. -/
theorem InodeTaken.lookupName {hi i x : Nat} {r : Inode} {name : Str} {s : DirEntry}
    (h : InodeTaken sb hi i r d d') (hfile : ¬ r.isDir = true)
    (hs : d'.lookupName sb x name = some s) : d.lookupName sb x name = some s := by
  have hne : x ≠ i := by
    rintro rfl
    have hfile' : ¬ (d'.inodeAt sb x).isDir = true := by rwa [h.inodeAt, if_pos rfl]
    rw [lookupName_of_file hfile'] at hs
    cases hs
  rwa [lookupName_same (by rw [h.inodeAt, if_neg hne]) (h.same x hne)] at hs

/-- A path that `ipo_fs_create` made resolve leads to the new inode, and its file is empty. -/
theorem createEntry_resolves (L : SoundLayout sb)
    (O : OwnedVol sb (intBound sb) d) (hc : sb.inodeCount.toNat < 2147483648) {path path' : Str}
    {i ino : Nat} (hrun : createEntry path typeFile (arrayDev u) sb d = (some i, d'))
    (hnone : (pathResolve (arrayDev u) sb path' d).1 = none)
    (hres : (pathResolve (arrayDev u) sb path' d').1 = some ino) :
    (d'.inodeAt sb ino).size = 0 := by
  rcases createEntry_cases L (blockBound_int sb) u O hc path typeFile with
    hsame | ⟨parent, name, j, d₁, d₂, -, hv, -, ht, ⟨hadd, hcreate⟩ | ⟨d₃, -, -, hcreate⟩⟩
  · rw [hrun] at hsame
    cases (Prod.mk.inj hsame).1
  · rw [hrun] at hcreate
    obtain ⟨hij, rfl⟩ := Prod.mk.inj hcreate
    obtain rfl := Option.some.inj hij
    obtain ⟨⟨-, hparent, -⟩, hadded⟩ := dirAddEntry_added L u ht.owned hadd
    have hfile : ¬ (freshInode typeFile.toUInt32 1).isDir = true := by decide
    have hne : i ≠ parent := by
      rintro rfl
      rw [ht.inodeAt, if_pos rfl] at hparent
      exact hfile hparent
    have hnew : d'.inodeAt sb i = freshInode typeFile.toUInt32 1 := by
      rw [hadded.touched.inodeAt i hne, ht.inodeAt, if_pos rfl]
    obtain ⟨ts, hts, hwalk⟩ := @pathResolve_walks u sb path'
    rw [hwalk] at hnone hres
    have hend : ino = i ∨ d.walk u sb ts 1 = some ino := by
      refine walk_new (fun x t s _ hs => ?_) (fun t => lookupName_of_file (hnew ▸ hfile)) hts hres
      rcases em (x = parent) with rfl | hx
      · rcases hadded.lookupName hs with rfl | hs₁
        · exact Or.inl (toNat_ofNat_ino hv)
        · exact Or.inr (ht.lookupName hfile hs₁)
      · rw [lookupName_same (hadded.touched.inodeAt x hx) (hadded.touched.same x hx)] at hs
        exact Or.inr (ht.lookupName hfile hs)
    rcases hend with rfl | hold
    · rw [hnew]
      rfl
    · rw [hnone] at hold
      cases hold
  · rw [hrun] at hcreate
    cases (Prod.mk.inj hcreate).1

end

end IpoOs
