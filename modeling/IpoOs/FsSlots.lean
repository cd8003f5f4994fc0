import IpoOs.FsTransfer

/-!
# The slots of a directory

A directory is its slots: `dirSlot` reads one, and the live ones in order
are what every walk over the directory sees. The names in the slots are
those `is_valid_filename` accepts, the two dots, or empty; for such slots
the comparisons of the code, by length or by terminating NUL, compare the
names. What the directory operations do to slots is stated here once.

A slot is `none` where its block is not mapped, and an entry otherwise. The
properties of names are decidable properties of the bytes, so they can be
checked on a volume, and the lemmas turn the comparisons of the code into
equality of names under them.
-/

namespace IpoOs

/-! ## C strings in a slot

`strncmp` over a slot is a comparison up to the first NUL. -/

/-- `strncmp` finds no difference when none comes before the end of the first string. -/
theorem strncmpFrom_eq_zero {a b : Buf} {n i : Nat} :
    strncmpFrom a b n i = 0
      ↔ ∀ j, j < n → (∀ k, k < j → a (i + k) ≠ 0) → a (i + j) = b (i + j) := by
  induction n generalizing i with
  | zero => simp [strncmpFrom]
  | succ n ih =>
      unfold strncmpFrom
      split
      · rename_i hgo
        rw [ih]
        constructor
        · intro h j hj hpre
          cases j with
          | zero => exact hgo.2.2
          | succ j =>
              have hstep := h j (by omega) fun k hk => by
                have hnz := hpre (k + 1) (by omega)
                rwa [show i + 1 + k = i + (k + 1) by omega]
              rwa [show i + (j + 1) = i + 1 + j by omega]
        · intro h j hj hpre
          have hstep := h (j + 1) (by omega) fun k hk => by
            cases k with
            | zero => exact hgo.1
            | succ k =>
                have hnz := hpre k (by omega)
                rwa [show i + (k + 1) = i + 1 + k by omega]
          rwa [show i + 1 + j = i + (j + 1) by omega]
      · rename_i hstop
        constructor
        · intro h j hj hpre
          have heq : a i = b i := UInt8.toNat.inj (by omega)
          cases j with
          | zero => exact heq
          | succ j =>
              -- the strings are equal up to here, so the first one ends here
              have hnz : a i ≠ 0 := hpre 0 (by omega)
              exact absurd ⟨hnz, heq ▸ hnz, heq⟩ hstop
        · intro h
          have heq := h 0 (by omega) fun k hk => absurd hk (Nat.not_lt_zero k)
          rw [Nat.add_zero] at heq
          rw [heq]
          omega

theorem cstr_lt {s : Str} {i : Nat} (h : i < s.length) : cstr s i = s[i] := by
  rw [cstr, List.getD_eq_getElem?_getD, List.getElem?_eq_getElem h, Option.getD_some]

theorem cstr_ge {s : Str} {i : Nat} (h : s.length ≤ i) : cstr s i = 0 := by
  rw [cstr, List.getD_eq_getElem?_getD, List.getElem?_eq_none h, Option.getD_none]

/-- A string without NUL is what its memory holds before the first NUL. -/
theorem cstr_ne_zero {s : Str} (hs : (0 : UInt8) ∉ s) {i : Nat} (h : i < s.length) :
    cstr s i ≠ 0 := by
  rw [cstr_lt h]
  intro hc
  exact hs (hc ▸ List.getElem_mem h)

/-! ## The name in a slot

The name that is stored, with the length next to it. `HasName` is a live
entry of a name, `Named` an entry that has some proper name or none. -/

theorem isNameChar_ne_zero {c : UInt8} (h : isNameChar c = true) : c ≠ 0 := by
  rintro rfl
  revert h
  decide

/-- A name as the file system stores them: valid, or one of the dots. -/
def StoredName (name : Str) : Prop := isValidFilename name = true ∨ name = dot ∨ name = dotdot

theorem StoredName.noNul {name : Str} (h : StoredName name) : (0 : UInt8) ∉ name := by
  rcases h with h | rfl | rfl
  · simp only [isValidFilename, Bool.and_eq_true, List.all_eq_true, decide_eq_true_eq] at h
    exact fun hc => isNameChar_ne_zero (h.1.1.2 _ hc) rfl
  · decide
  · decide

theorem StoredName.length_lt {name : Str} (h : StoredName name) : name.length < 64 := by
  rcases h with h | rfl | rfl
  · simp only [isValidFilename, Bool.and_eq_true, decide_eq_true_eq] at h
    exact h.1.1.1.2
  · decide
  · decide

theorem StoredName.ne_nil {name : Str} (h : StoredName name) : name ≠ [] := by
  rcases h with h | rfl | rfl
  · simp only [isValidFilename, Bool.and_eq_true, decide_eq_true_eq] at h
    exact h.1.1.1.1
  · decide
  · decide

namespace DirEntry

/-- An entry without a name, or with a stored name laid out as `dir_add_entry` does. -/
def Named (e : DirEntry) : Prop :=
  (e.nameLen = 0 ∧ e.name 0 = 0)
    ∨ ∃ name, StoredName name ∧ e = makeEntry e.inode.toNat e.type name

/-- A name laid out as a C string with its length in `name_len`. -/
structure HasName (e : DirEntry) (name : Str) : Prop where
  ne_nil : name ≠ []
  noNul : (0 : UInt8) ∉ name
  short : name.length < 64
  len : e.nameLen.toNat = name.length
  chars : ∀ i : Fin 64, i.val ≤ name.length → e.name i = cstr name i.val

/-- A live entry has a name or none: the comparisons of the code agree on it. -/
def Readable (e : DirEntry) : Prop :=
  e.inode ≠ 0 → (e.nameLen = 0 ∧ e.name 0 = 0) ∨ ∃ name, e.HasName name

def dead (e : DirEntry) : DirEntry :=
  { e with inode := 0, nameLen := 0, name := fun i => if i.val = 0 then 0 else e.name i }

theorem named_dead (e : DirEntry) : e.dead.Named := Or.inl ⟨rfl, rfl⟩

theorem Named.setInode {e : DirEntry} (h : e.Named) (v : UInt32) :
    ({ e with inode := v } : DirEntry).Named := by
  rcases h with h | ⟨name, hname, he⟩
  · exact Or.inl h
  · refine Or.inr ⟨name, hname, ?_⟩
    rw [he]
    simp only [makeEntry, UInt32.ofNat_toNat]

theorem named_makeEntry {ino : Nat} {type : UInt8} {name : Str} (h : StoredName name) :
    (makeEntry ino type name).Named := by
  refine Or.inr ⟨name, h, ?_⟩
  simp only [makeEntry, UInt32.ofNat_toNat]

end DirEntry

theorem toNat_nameLen {name : Str} (h : name.length < 64) :
    (UInt8.ofNat (min name.length 63)).toNat = name.length := by
  rw [UInt8.toNat_ofNat']
  omega

/-- An entry that `dir_add_entry` would write has its name, whatever characters are in it. -/
theorem DirEntry.hasName_of_chars {name : Str} (hne : name ≠ []) (hnul : (0 : UInt8) ∉ name)
    (hlen : name.length < 64) (ino : Nat) (type : UInt8) :
    (makeEntry ino type name).HasName name where
  ne_nil := hne
  noNul := hnul
  short := hlen
  len := toNat_nameLen hlen
  chars i _ := by
    show cstr (name.take 63) i.val = cstr name i.val
    rw [List.take_of_length_le (by omega)]

theorem DirEntry.hasName_makeEntry {name : Str} (h : StoredName name) (ino : Nat) (type : UInt8) :
    (makeEntry ino type name).HasName name :=
  hasName_of_chars h.ne_nil h.noNul h.length_lt ino type

theorem DirEntry.Named.readable {e : DirEntry} (h : e.Named) : e.Readable := by
  intro _
  rcases h with h | ⟨name, hname, he⟩
  · exact Or.inl h
  · refine Or.inr ⟨name, ?_⟩
    rw [he]
    exact hasName_makeEntry hname _ _

theorem DirEntry.HasName.nameBytes {e : DirEntry} {name : Str} (h : e.HasName name) :
    e.nameBytes = name := by
  have hlt := h.short
  unfold DirEntry.nameBytes
  rw [h.len]
  refine List.ext_getElem ?_ fun j hj hj' => ?_
  · rw [List.length_take, List.length_ofFn]
    omega
  · rw [List.getElem_take, List.getElem_ofFn, ← cstr_lt hj']
    exact h.chars ⟨j, by omega⟩ (Nat.le_of_lt hj')

theorem nameBytes_makeEntry {name : Str} (h : name.length < 64) (ino : Nat) (type : UInt8) :
    (makeEntry ino type name).nameBytes = name := by
  have htake : name.take 63 = name := List.take_of_length_le (by omega)
  unfold DirEntry.nameBytes makeEntry
  rw [toNat_nameLen h, htake]
  refine List.ext_getElem ?_ fun j hj hj' => ?_
  · rw [List.length_take, List.length_ofFn]
    omega
  · rw [List.getElem_take, List.getElem_ofFn]
    exact cstr_lt hj'

theorem nameBytes_eq_nil {e : DirEntry} (h : e.nameLen = 0) : e.nameBytes = [] := by
  rw [DirEntry.nameBytes, h]
  rfl

section

variable {buf : Block} {off : Nat}

theorem entryName_lt {i : Nat} (h : i < 64) :
    entryName buf off i = (DirEntry.decode buf off).name ⟨i, h⟩ := rfl

theorem DirEntry.HasName.entryName {name : Str} (h : (DirEntry.decode buf off).HasName name)
    {i : Nat} (hi : i ≤ name.length) : IpoOs.entryName buf off i = cstr name i := by
  have hlt := h.short
  rw [entryName_lt (show i < 64 by omega)]
  exact h.chars ⟨i, by omega⟩ hi

theorem entryMatches_iff (h : (DirEntry.decode buf off).Readable) (name : Str) :
    entryMatches buf off name = true ↔ (DirEntry.decode buf off).inode ≠ 0 ∧ name ≠ []
      ∧ (DirEntry.decode buf off).nameBytes = name := by
  rcases em ((DirEntry.decode buf off).inode = 0) with hdead | hlive
  · have hm : entryMatches buf off name = false := by
      have hi : entryInode buf off = 0 := hdead
      simp [entryMatches, hi]
    simp [hm, hdead]
  rcases h hlive with ⟨hlen, hnul⟩ | ⟨stored, hstored⟩
  · have hzero : entryNameLen buf off = 0 := by
      have hb : buf (off + 5) = 0 := hlen
      have hn : entryName buf off 0 = 0 := hnul
      rw [entryNameLen, if_neg (not_not_intro hb)]
      cases 512 - (off + 8) with
      | zero => rfl
      | succ n => rw [strlenFrom, if_pos hn]
    rw [entryMatches, hzero, nameBytes_eq_nil hlen]
    constructor
    · intro hm
      simp at hm
    · rintro ⟨-, hne, hn⟩
      exact absurd hn.symm hne
  · have hb : (buf (off + 5)).toNat = stored.length := hstored.len
    have hpos : 0 < stored.length := List.length_pos_iff.mpr hstored.ne_nil
    have hlen : entryNameLen buf off = stored.length := by
      have hb0 : buf (off + 5) ≠ 0 := fun hc => by
        rw [hc] at hb
        rw [← hb] at hpos
        exact absurd hpos (by decide)
      rw [entryNameLen, if_pos hb0, hb]
    simp only [entryMatches, hlen, hstored.nameBytes, Bool.and_eq_true, decide_eq_true_eq, strncmp]
    constructor
    · rintro ⟨⟨⟨hi, hl⟩, -⟩, hcmp⟩
      rw [strncmpFrom_eq_zero] at hcmp
      have heq : stored = name := by
        refine List.ext_getElem hl fun j hj hj' => ?_
        have hj64 := hcmp j hj fun k hk => by
          rw [Nat.zero_add, hstored.entryName (by omega)]
          exact cstr_ne_zero hstored.noNul (by omega)
        rwa [Nat.zero_add, hstored.entryName (by omega), cstr_lt hj, cstr_lt hj'] at hj64
      exact ⟨hi, heq ▸ hstored.ne_nil, heq⟩
    · rintro ⟨hi, -, rfl⟩
      refine ⟨⟨⟨hi, rfl⟩, hpos⟩, strncmpFrom_eq_zero.mpr fun j hj _ => ?_⟩
      rw [Nat.zero_add, hstored.entryName (by omega)]

/-- `strncmp` of the name in a slot with a string that leaves room for the NUL of one of
them. -/
theorem strncmp_hasName {stored name : Str} (h : (DirEntry.decode buf off).HasName stored)
    (hname : (0 : UInt8) ∉ name) {n : Nat} (hn : stored.length < n ∨ name.length < n) :
    strncmp (entryName buf off) (cstr name) n = 0 ↔ stored = name := by
  unfold strncmp
  rw [strncmpFrom_eq_zero]
  constructor
  · intro hcmp
    have hpre : ∀ j, j < n → j ≤ stored.length → cstr stored j = cstr name j := by
      intro j hj hle
      have hj' := hcmp j hj fun k hk => by
        rw [Nat.zero_add, h.entryName (by omega)]
        exact cstr_ne_zero h.noNul (by omega)
      rwa [Nat.zero_add, h.entryName hle] at hj'
    have hlen : stored.length = name.length := by
      rcases Nat.lt_trichotomy stored.length name.length with hlt | heq | hgt
      · have hend := hpre stored.length (by omega) (Nat.le_refl _)
        rw [cstr_ge (Nat.le_refl _)] at hend
        exact absurd hend.symm (cstr_ne_zero hname hlt)
      · exact heq
      · have hend := hpre name.length (by omega) (Nat.le_of_lt hgt)
        rw [cstr_ge (Nat.le_refl name.length)] at hend
        exact absurd hend (cstr_ne_zero h.noNul hgt)
    refine List.ext_getElem hlen fun j hj hj' => ?_
    rw [← cstr_lt hj, ← cstr_lt hj']
    exact hpre j (by omega) (Nat.le_of_lt hj)
  · rintro rfl j hj hpre
    rw [Nat.zero_add]
    rcases Nat.lt_or_ge stored.length j with hlt | hle
    · -- the NUL of the name stands before `j`
      have hnz := hpre stored.length hlt
      rw [Nat.zero_add, h.entryName (Nat.le_refl _), cstr_ge (Nat.le_refl _)] at hnz
      exact absurd rfl hnz
    · exact h.entryName hle

theorem strcmp_hasName {stored name : Str} (h : (DirEntry.decode buf off).HasName stored)
    (hname : (0 : UInt8) ∉ name) : strcmp (entryName buf off) name = 0 ↔ stored = name :=
  strncmp_hasName h hname (Or.inr (Nat.lt_succ_self _))

end

/-! ## The slots

A directory whose pointers are owned has a slot wherever its size reaches. -/

section

variable {d d' : Disk} {r r' : Inode} {e : Nat}

/-- Pointers that an `int` can hold. -/
def Disk.IntPtrs (d : Disk) (r : Inode) : Prop := ∀ pos, d.ptr r pos < 2147483648

theorem Disk.dirSlot_eq_some (h : d.IntPtrs r) {s : DirEntry} :
    d.dirSlot r e = some s ↔ ∃ pos, posOf (e / 7) = some pos ∧ d.ptr r pos ≠ 0
      ∧ DirEntry.decode (d (d.ptr r pos)) (e % 7 * 72) = s := by
  have hdirect : ∀ hlt : e / 7 < 6, d.ptr r (.direct ⟨e / 7, hlt⟩)
      = (r.direct ⟨e / 7, hlt⟩).toNat := fun _ => rfl
  unfold Disk.dirSlot Disk.findPhys
  rcases Nat.lt_or_ge (e / 7) 6 with hlt | hge
  · have hpos : posOf (e / 7) = some (.direct ⟨e / 7, hlt⟩) := by rw [posOf, dif_pos hlt]
    rw [dif_pos hlt, hpos]
    simp only [Option.some.injEq, exists_eq_left', hdirect]
    rcases em ((r.direct ⟨e / 7, hlt⟩).toNat = 0) with h0 | h0
    · simp [h0]
    · simp only [h0, if_false, Option.some.injEq, ne_eq, not_false_eq_true, true_and]
  · rw [dif_neg (Nat.not_lt.mpr hge)]
    constructor
    · intro hs
      cases hp : d.lookup r (e / 7) with
      | none =>
          rw [hp] at hs
          cases hs
      | some p =>
          obtain ⟨pos, hpos, hptr, hp0, -⟩ := Disk.lookup_eq_some.mp hp
          rw [hp] at hs
          simp only [hp0, if_false, Option.some.injEq] at hs
          exact ⟨pos, hpos, by rw [hptr]; exact hp0, by rw [hptr]; exact hs⟩
    · rintro ⟨pos, hpos, hp0, hs⟩
      have hp : d.lookup r (e / 7) = some (d.ptr r pos) :=
        Disk.lookup_eq_some.mpr ⟨pos, hpos, rfl, hp0, h pos⟩
      rw [hp]
      simp only [hp0, if_false, hs]

/-- The slots of a file that did not change, whatever else the record says. -/
theorem SameFile.dirSlot_eq (h : SameFile d r d' r') (hint : d.IntPtrs r) (e : Nat) :
    d'.dirSlot r' e = d.dirSlot r e := by
  have hint' : d'.IntPtrs r' := fun pos => by
    rw [h.ptr]
    exact hint pos
  refine Option.ext fun s => ?_
  rw [Disk.dirSlot_eq_some hint', Disk.dirSlot_eq_some hint]
  simp only [h.ptr]
  constructor
  · rintro ⟨pos, hpos, h0, hs⟩
    exact ⟨pos, hpos, h0, by rw [← hs, h.block pos h0]⟩
  · rintro ⟨pos, hpos, h0, hs⟩
    exact ⟨pos, hpos, h0, by rw [← hs, h.block pos h0]⟩

/-- A mapped slot keeps its entry when its block keeps its place and contents. -/
theorem Disk.dirSlot_kept (h : d.IntPtrs r) (h' : d'.IntPtrs r') (hmap : KeepsMap d r d' r')
    (hdata : ∀ pos, pos.isTable = false → d.ptr r pos ≠ 0 → d' (d.ptr r pos) = d (d.ptr r pos))
    {s : DirEntry} (hs : d.dirSlot r e = some s) : d'.dirSlot r' e = some s := by
  obtain ⟨pos, hpos, h0, he⟩ := (Disk.dirSlot_eq_some h).mp hs
  have hk := hmap pos h0
  refine (Disk.dirSlot_eq_some h').mpr ⟨pos, hpos, by rw [hk]; exact h0, ?_⟩
  rw [hk, hdata pos (isTable_posOf hpos) h0]
  exact he

end

section

variable {sb : Superblock} {d d' : Disk}

theorem VolOwned.intPtrs {T : Nat → Inode} {ino : Nat} {r : Inode}
    (O : VolOwned sb (intBound sb) d (Function.update T ino r)) : d.IntPtrs r := fun pos => by
  rcases em (d.ptr r pos = 0) with h0 | h0
  · rw [h0]
    decide
  · have hup := O.upper (ino, pos) (by rw [volPtr_self]; exact h0)
    rw [volPtr_self] at hup
    exact Nat.lt_of_lt_of_le hup (Nat.min_le_right _ _)

theorem OwnedVol.self (O : OwnedVol sb (intBound sb) d) (i : Nat) :
    VolOwned sb (intBound sb) d (Function.update (d.inodeAt sb) i (d.inodeAt sb i)) := by
  rw [Function.update_eq_self]
  exact O

theorem OwnedVol.intPtrs (O : OwnedVol sb (intBound sb) d) (i : Nat) :
    d.IntPtrs (d.inodeAt sb i) :=
  VolOwned.intPtrs (O.self i)

/-- The slots after a write to a block of the directory: those of that block are read
from the new contents. -/
theorem VolOwned.dirSlot_set {T : Nat → Inode} {ino : Nat} {r : Inode}
    (O : VolOwned sb (intBound sb) d (Function.update T ino r)) {k : Nat} {pos : Pos}
    (hpos : posOf (k / 7) = some pos) (h0 : d.ptr r pos ≠ 0) (b : Block) (e : Nat) :
    (d.set (d.ptr r pos) b).dirSlot r e
      = if e / 7 = k / 7 then some (DirEntry.decode b (e % 7 * 72)) else d.dirSlot r e := by
  have hvol : volPtr (Function.update T ino r) d (ino, pos) ≠ 0 := by rw [volPtr_self]; exact h0
  have hv := O.volPtr_set hvol (isTable_posOf hpos) b
  rw [volPtr_self] at hv
  have hptr : ∀ s, (d.set (d.ptr r pos) b).ptr r s = d.ptr r s := fun s => by
    rw [← @volPtr_self T ino, hv, volPtr_self]
  have hint := O.intPtrs
  have hint' : (d.set (d.ptr r pos) b).IntPtrs r := fun s => by rw [hptr]; exact hint s
  refine Option.ext fun s => ?_
  rw [Disk.dirSlot_eq_some hint']
  simp only [hptr]
  split
  · rename_i hek
    rw [hek, hpos]
    simp only [Option.some.injEq, exists_eq_left', ne_eq, h0, not_false_eq_true, true_and,
      Disk.set_self]
  · rename_i hek
    rw [Disk.dirSlot_eq_some hint]
    -- another block of the directory
    have hne : ∀ t, posOf (e / 7) = some t → d.ptr r t ≠ 0 → d.ptr r t ≠ d.ptr r pos :=
      fun t ht ht0 hc => by
        have hinj := O.inj (ino, t) (ino, pos) (by rw [volPtr_self]; exact ht0)
          (by rw [volPtr_self, volPtr_self, hc])
        rw [(Prod.mk.inj hinj).2] at ht
        exact hek (posOf_inj ht hpos)
    constructor
    · rintro ⟨t, ht, ht0, hs⟩
      exact ⟨t, ht, ht0, by rw [← hs, Disk.set_of_ne (hne t ht ht0)]⟩
    · rintro ⟨t, ht, ht0, hs⟩
      exact ⟨t, ht, ht0, by rw [← hs, Disk.set_of_ne (hne t ht ht0)]⟩

end

/-! ## Entries of one block

Entries of one block do not overlap, so a write to one of them is read back
there and nowhere else. -/

section

variable {b : Block} {e k : Nat}

theorem slots_apart (h : e % 7 ≠ k % 7) {i : Nat} (hi : i < 72) :
    e % 7 * 72 + i < k % 7 * 72 ∨ k % 7 * 72 + 72 ≤ e % 7 * 72 + i := by
  omega

theorem DirEntry.decode_patch_slot (de : DirEntry) (e : Nat) :
    DirEntry.decode (b.patch (k % 7 * 72) 72 de.encode) (e % 7 * 72)
      = if e % 7 = k % 7 then de else DirEntry.decode b (e % 7 * 72) := by
  split
  · rename_i h
    rw [h, DirEntry.decode_patch]
  · rename_i h
    exact DirEntry.decode_congr fun i hi => Buf.patch_out (slots_apart h hi)

theorem killEntry_out {off i : Nat} (h : i < off ∨ off + 72 ≤ i) : killEntry b off i = b i := by
  unfold killEntry
  rw [Buf.putByte_of_ne (by omega), Buf.putByte_of_ne (by omega), Buf.putWord,
    Buf.patch_out (by omega)]

theorem killEntry_in {off i : Nat} (h4 : 4 ≤ i) (h5 : i ≠ 5) (h8 : i ≠ 8) :
    killEntry b off (off + i) = b (off + i) := by
  unfold killEntry
  rw [Buf.putByte_of_ne (by omega), Buf.putByte_of_ne (by omega), Buf.putWord,
    Buf.patch_out (by omega)]

theorem DirEntry.decode_killEntry_self (off : Nat) :
    DirEntry.decode (killEntry b off) off = (DirEntry.decode b off).dead := by
  have hword : (killEntry b off).word off = 0 := by
    have hk : (killEntry b off).word off = (b.putWord off 0).word off :=
      Buf.word_congr fun i hi => by
        unfold killEntry
        rw [Buf.putByte_of_ne (by omega), Buf.putByte_of_ne (by omega)]
    rw [hk, Buf.word_putWord_self]
  ext i
  · exact congrArg UInt32.toNat hword
  · exact congrArg UInt8.toNat (killEntry_in (by decide) (by decide) (by decide))
  · refine congrArg UInt8.toNat ?_
    show killEntry b off (off + 5) = 0
    rw [killEntry, Buf.putByte_self]
  · have hi := i.isLt
    refine congrArg UInt8.toNat ?_
    show killEntry b off (off + (8 + i.val)) = if i.val = 0 then 0 else b (off + (8 + i.val))
    split
    · rename_i h0
      rw [h0, Nat.add_zero]
      unfold killEntry
      rw [Buf.putByte_of_ne (by omega), Buf.putByte_self]
    · exact killEntry_in (by omega) (by omega) (by omega)

theorem DirEntry.decode_killEntry_slot (e : Nat) :
    DirEntry.decode (killEntry b (k % 7 * 72)) (e % 7 * 72)
      = if e % 7 = k % 7 then (DirEntry.decode b (e % 7 * 72)).dead
        else DirEntry.decode b (e % 7 * 72) := by
  split
  · rename_i h
    rw [h, DirEntry.decode_killEntry_self]
  · rename_i h
    exact DirEntry.decode_congr fun i hi => killEntry_out (slots_apart h hi)

theorem DirEntry.decode_putDotdot (v : UInt32) (e : Nat) :
    DirEntry.decode (b.putWord 72 v) (e % 7 * 72)
      = if e % 7 = 1 then { DirEntry.decode b (e % 7 * 72) with inode := v }
        else DirEntry.decode b (e % 7 * 72) := by
  split
  · rename_i h
    rw [h, Nat.one_mul]
    have hout : ∀ i, 4 ≤ i → b.putWord 72 v (72 + i) = b (72 + i) := fun i hi =>
      Buf.patch_out (Or.inr (by omega))
    ext i
    · exact congrArg UInt32.toNat (Buf.word_putWord_self b 72 v)
    · exact congrArg UInt8.toNat (hout 4 (by decide))
    · exact congrArg UInt8.toNat (hout 5 (by decide))
    · exact congrArg UInt8.toNat (hout (8 + i.val) (by omega))
  · rename_i h
    exact DirEntry.decode_congr fun i hi => Buf.patch_out (by omega)

end

theorem zero_entry (off : Nat) : (DirEntry.decode Buf.zero off).inode = 0 :=
  Buf.word_zero off

/-! ## What the operations do to the slots

An addition appends a slot, a removal makes one dead, and the `..` of a
moved directory is its second slot. -/

def Inode.slots (r : Inode) : Nat := r.size.toNat / 72

/-- An entry was put in the slot after the last. -/
structure EntryAdded (sb : Superblock) (dir : Nat) (de : DirEntry) (d d' : Disk) : Prop where
  touched : Touched sb (intBound sb) dir d d'
  size : (d'.inodeAt sb dir).size.toNat = (d.inodeAt sb dir).size.toNat + 72
  slot : d'.dirSlot (d'.inodeAt sb dir) (d.inodeAt sb dir).slots = some de
  kept : ∀ e s, e ≠ (d.inodeAt sb dir).slots → d.dirSlot (d.inodeAt sb dir) e = some s →
    d'.dirSlot (d'.inodeAt sb dir) e = some s
  /-- A slot that was not mapped holds no entry. -/
  fresh : ∀ e s, e ≠ (d.inodeAt sb dir).slots → d.dirSlot (d.inodeAt sb dir) e = none →
    d'.dirSlot (d'.inodeAt sb dir) e = some s → s.inode = 0

theorem EntryAdded.slots {sb : Superblock} {dir : Nat} {de : DirEntry} {d d' : Disk}
    (h : EntryAdded sb dir de d d') :
    (d'.inodeAt sb dir).slots = (d.inodeAt sb dir).slots + 1 := by
  unfold Inode.slots
  rw [h.size]
  omega

/-- An addition found no room: the directory is as before. -/
structure EntryRefused (sb : Superblock) (dir : Nat) (d d' : Disk) : Prop where
  touched : Touched sb (intBound sb) dir d d'
  inodeAt : d'.inodeAt sb = d.inodeAt sb
  kept : ∀ e s, d.dirSlot (d.inodeAt sb dir) e = some s → d'.dirSlot (d.inodeAt sb dir) e = some s

/-- One slot of a directory was rewritten. -/
structure SlotChanged (sb : Superblock) (dir k : Nat) (f : DirEntry → DirEntry) (d d' : Disk) :
    Prop where
  touched : Touched sb (intBound sb) dir d d'
  inodeAt : d'.inodeAt sb = d.inodeAt sb
  slot : ∀ e, d'.dirSlot (d.inodeAt sb dir) e
    = if e = k then (d.dirSlot (d.inodeAt sb dir) k).map f else d.dirSlot (d.inodeAt sb dir) e

theorem toNat_ofNat_ino {sb : Superblock} {i : Nat} (hv : sb.ValidIno i) :
    (UInt32.ofNat i).toNat = i := by
  have hlt := sb.inodeCount.toNat_lt
  exact UInt32.toNat_ofNat_of_lt' (Nat.lt_of_le_of_lt hv.2 hlt)

section

variable {sb : Superblock} {d d' : Disk} (L : SoundLayout sb) (u : Block)

theorem div_mod_seven {e k : Nat} (h : e / 7 = k / 7) : e % 7 = k % 7 ↔ e = k := by
  omega

include L

theorem inodeAt_set_data (O : OwnedVol sb (intBound sb) d) {ino : Nat} {pos : Pos}
    (h0 : d.ptr (d.inodeAt sb ino) pos ≠ 0) (b : Block) :
    (d.set (d.ptr (d.inodeAt sb ino) pos) b).inodeAt sb = d.inodeAt sb := by
  have hdb : sb.DataBlock (d.ptr (d.inodeAt sb ino) pos) :=
    O.dataBlock (blockBound_int sb) (s := (ino, pos)) h0
  exact funext fun i => (sameMeta_set hdb b).inodeAt L i

theorem dirAddEntry_added (O : OwnedVol sb (intBound sb) d) {dir : Nat} {name : Str} {ino : Nat}
    {type : UInt8} (h : dirAddEntry (arrayDev u) sb dir name ino type d = (true, d')) :
    d.AddOk u sb dir name ∧ EntryAdded sb dir (makeEntry ino type name) d d' := by
  have B := blockBound_int sb
  have htou := dirAddEntry_touched L B u O dir name ino type
  rw [h] at htou
  rcases dirAddEntry_cases L B u O dir name ino type with
    ⟨-, hrun⟩ | ⟨-, r₁, d₁, A, hg, -, hrun⟩ | ⟨hok, r₁, d₁, A, pos, hg, hpos, hp0, -, hrun⟩
  · rw [h] at hrun
    cases (Prod.mk.inj hrun).1
  · rw [h] at hrun
    cases (Prod.mk.inj hrun).1
  · rw [h] at hrun
    have hd := (Prod.mk.inj hrun).2
    have hch := hg.changed
    have hset := Changed.set L B hg.owned hp0 (isTable_posOf hpos) ((d₁ (d₁.ptr r₁ pos)).patch
      ((d.inodeAt sb dir).size.toNat / 72 % 7 * 72) 72 (makeEntry ino type name).encode)
    have hat : d'.inodeAt sb dir = { r₁ with size := r₁.size + 72 } := by
      rw [hd, L.inodeAt_putInode_eq hok.1, Function.update_self]
    -- writing the record back moves no block
    have hsame := Changed.sameFile_putInode L hok.1 (hch.trans hset)
      (show ({ r₁ with size := r₁.size + 72 } : Inode).root = r₁.root from rfl)
    have hint := hg.owned.intPtrs
    have hslot : ∀ e, d'.dirSlot (d'.inodeAt sb dir) e
        = (d₁.putEntry (d₁.ptr r₁ pos) ((d.inodeAt sb dir).size.toNat / 72)
            (makeEntry ino type name)).dirSlot r₁ e := fun e => by
      rw [hat, hd]
      exact hsame.dirSlot_eq hset.owned.intPtrs e
    have hput : ∀ e, (d₁.putEntry (d₁.ptr r₁ pos) ((d.inodeAt sb dir).size.toNat / 72)
            (makeEntry ino type name)).dirSlot r₁ e
        = if e = (d.inodeAt sb dir).slots then some (makeEntry ino type name)
          else d₁.dirSlot r₁ e := fun e => by
      unfold Disk.putEntry
      rw [hg.owned.dirSlot_set hpos hp0, DirEntry.decode_patch_slot]
      unfold Inode.slots
      split
      · rename_i hdiv
        simp only [div_mod_seven hdiv]
        split
        · rfl
        · rename_i hne
          exact ((Disk.dirSlot_eq_some hint).mpr ⟨pos, by rw [hdiv, hpos], hp0, rfl⟩).symm
      · rename_i hdiv
        rw [if_neg fun hc => hdiv (by rw [hc])]
    refine ⟨hok, htou, ?_, ?_, ?_, ?_⟩
    · have hsize : r₁.size = (d.inodeAt sb dir).size := hg.fields.2.1
      have hlim : (d.inodeAt sb dir).size.toNat / 72 / 7 < 16518 := by
        have hlog := logical_posOf hpos
        unfold posOf at hpos
        split at hpos
        · omega
        · split at hpos
          · omega
          · split at hpos
            · omega
            · cases hpos
      rw [hat]
      show (r₁.size + 72).toNat = _
      rw [hsize, UInt32.toNat_add]
      show ((d.inodeAt sb dir).size.toNat + 72) % 4294967296 = _
      omega
    · rw [hslot, hput, if_pos rfl]
    · intro e s hne hs
      rw [hslot, hput, if_neg hne]
      exact Disk.dirSlot_kept (O.intPtrs dir) hint hch.keepsMap
        (fun t ht h0 => hg.data_kept (O.self dir) ht h0) hs
    · intro e s hne hnone hs
      rw [hslot, hput, if_neg hne] at hs
      obtain ⟨t, ht, ht0, hs⟩ := (Disk.dirSlot_eq_some hint).mp hs
      have hnull : d.ptr (d.inodeAt sb dir) t = 0 := by
        by_contra hc
        have hsome := (Disk.dirSlot_eq_some (O.intPtrs dir)).mpr ⟨t, ht, hc, rfl⟩
        rw [hnone] at hsome
        cases hsome
      rw [← hs, hg.zero t (isTable_posOf ht) hnull ht0]
      exact zero_entry _

theorem dirAddEntry_refused (O : OwnedVol sb (intBound sb) d) {dir : Nat} {name : Str} {ino : Nat}
    {type : UInt8} (h : dirAddEntry (arrayDev u) sb dir name ino type d = (false, d')) :
    EntryRefused sb dir d d' := by
  have B := blockBound_int sb
  have htou := dirAddEntry_touched L B u O dir name ino type
  rw [h] at htou
  rcases dirAddEntry_cases L B u O dir name ino type with
    ⟨-, hrun⟩ | ⟨-, r₁, d₁, A, hg, -, hrun⟩ | ⟨hok, r₁, d₁, A, pos, hg, hpos, hp0, -, hrun⟩
  · rw [h] at hrun
    obtain rfl := (Prod.mk.inj hrun).2
    exact ⟨htou, rfl, fun _ _ hs => hs⟩
  · rw [h] at hrun
    obtain rfl := (Prod.mk.inj hrun).2
    have hat : d'.inodeAt sb = d.inodeAt sb := funext fun i => hg.sameMeta.inodeAt L i
    have hkeep := htou.keepsMap
    have hint := htou.owned.intPtrs dir
    rw [hat] at hkeep hint
    exact ⟨htou, hat, fun e s hs => Disk.dirSlot_kept (O.intPtrs dir) hint hkeep
      (fun t ht h0 => hg.data_kept (O.self dir) ht h0) hs⟩
  · rw [h] at hrun
    cases (Prod.mk.inj hrun).1

/-- A block of a directory rewritten, with one slot in it different. -/
theorem slotChanged_set (O : OwnedVol sb (intBound sb) d) {dir k : Nat} {pos : Pos}
    (hpos : posOf (k / 7) = some pos) (h0 : d.ptr (d.inodeAt sb dir) pos ≠ 0) {b : Block}
    {f : DirEntry → DirEntry}
    (hb : ∀ e, DirEntry.decode b (e % 7 * 72) = if e % 7 = k % 7 then
      f (DirEntry.decode (d (d.ptr (d.inodeAt sb dir) pos)) (e % 7 * 72))
      else DirEntry.decode (d (d.ptr (d.inodeAt sb dir) pos)) (e % 7 * 72)) :
    SlotChanged sb dir k f d (d.set (d.ptr (d.inodeAt sb dir) pos) b) where
  touched := touched_set L (blockBound_int sb) O h0 (isTable_posOf hpos) b
  inodeAt := inodeAt_set_data L O h0 b
  slot e := by
    have hslot : ∀ j, j / 7 = k / 7 → d.dirSlot (d.inodeAt sb dir) j
        = some (DirEntry.decode (d (d.ptr (d.inodeAt sb dir) pos)) (j % 7 * 72)) := fun j hj =>
      (Disk.dirSlot_eq_some (O.intPtrs dir)).mpr ⟨pos, by rw [hj, hpos], h0, rfl⟩
    rw [(O.self dir).dirSlot_set hpos h0]
    split
    · rename_i hdiv
      rw [hb, hslot k rfl]
      simp only [div_mod_seven hdiv]
      split
      · rename_i hek
        rw [hek, Option.map_some]
      · rw [hslot e hdiv]
    · rename_i hdiv
      rw [if_neg fun hc => hdiv (by rw [hc])]

/-- A successful `dir_remove_entry` kills the first entry of the name. -/
theorem dirRemoveEntry_removed (O : OwnedVol sb (intBound sb) d) {dir : Nat} {name : Str}
    (h : dirRemoveEntry (arrayDev u) sb dir name d = (true, d')) :
    ∃ k p, k < (d.inodeAt sb dir).slots ∧ d.lookup (d.inodeAt sb dir) (k / 7) = some p
      ∧ (∀ j, j < k → ¬ d.RemoveHit (d.inodeAt sb dir) name j)
      ∧ d.RemoveHit (d.inodeAt sb dir) name k ∧ ¬ d.RemoveRefused sb p (k % 7 * 72)
      ∧ SlotChanged sb dir k DirEntry.dead d d' := by
  rcases dirRemoveEntry_cases u d dir name with
    hrun | ⟨k, p, -, hk, hfirst, hp, hne, hcmp, hnot, hrun⟩
  · rw [h] at hrun
    cases (Prod.mk.inj hrun).1
  · rw [h] at hrun
    obtain ⟨pos, hpos, rfl, hp0, -⟩ := Disk.lookup_eq_some.mp hp
    refine ⟨k, _, hk, hp, hfirst, ⟨_, hp, hne, hcmp⟩, hnot, ?_⟩
    rw [(Prod.mk.inj hrun).2]
    exact slotChanged_set L O hpos hp0 fun e => DirEntry.decode_killEntry_slot e

theorem patchDotdot_slot (O : OwnedVol sb (intBound sb) d) {ino : Nat} (hv : sb.ValidIno ino)
    (newParent : Nat) :
    SlotChanged sb ino 1 (fun s => { s with inode := UInt32.ofNat newParent }) d
      (patchDotdot (arrayDev u) sb ino newParent d).2 := by
  rw [patchDotdot_cases u d hv]
  have hpos : posOf (1 / 7) = some (.direct 0) := rfl
  split
  · rename_i hz
    refine ⟨Touched.refl O, rfl, fun e => ?_⟩
    split
    · rename_i he
      subst he
      have hnone : d.dirSlot (d.inodeAt sb ino) 1 = none := by
        cases hs : d.dirSlot (d.inodeAt sb ino) 1 with
        | none => rfl
        | some s =>
            obtain ⟨pos, hpos', h0, -⟩ := (Disk.dirSlot_eq_some (O.intPtrs ino)).mp hs
            obtain rfl := Option.some.inj (hpos'.symm.trans hpos)
            exact absurd (by rw [Disk.ptr, hz]; rfl) h0
      rw [hnone]
      rfl
    · rfl
  · rename_i hz
    have h0 : d.ptr (d.inodeAt sb ino) (.direct 0) ≠ 0 := fun hc => hz (UInt32.toNat.inj hc)
    exact slotChanged_set L O hpos h0 fun e => DirEntry.decode_putDotdot _ e

end

end IpoOs
