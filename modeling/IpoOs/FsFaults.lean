import IpoOs.FsImage

/-!
# A device that fails

Sectors behind transfers each of which may fail: the state carries the
outcomes of the transfers to come. A failed read delivers nothing and a
failed write changes nothing.

`bitmap_get` has one result for a bit that is clear and for five reads
that failed, so a scan for a clear bit stops at the first bit it cannot
read. What is at that bit is then taken, whether it was in use or not,
when the device recovers in time for the rest of the allocation.

Failures are not probabilities here: a device is a volume and a function
that says which of the transfers to come will work, so a theorem for all
functions is a theorem for every pattern of failures. Each attempt uses up
one transfer, and the number of transfers that an access has used is part of
what the lemmas say of it.
-/

namespace IpoOs

/-- A disk of sectors, and whether the `n`-th transfer from now on succeeds. -/
structure FaultyDisk where
  sectors : Disk
  works : Nat → Bool

namespace FaultyDisk

/-- The state after `n` transfers that changed nothing. -/
def skip (s : FaultyDisk) (n : Nat) : FaultyDisk := { s with works := fun t => s.works (n + t) }

/-- The blocks of the volume that starts at a sector. -/
def volume (s : FaultyDisk) (start : UInt32) : Disk := fun i => s.sectors (u32 (start.toNat + i))

def setBlock (s : FaultyDisk) (start : UInt32) (i : Nat) (b : Block) : FaultyDisk :=
  { s with sectors := s.sectors.set (u32 (start.toNat + i)) b }

end FaultyDisk

/-- `block_read` and `block_write` of the volume that starts at a sector. -/
def sectorDev (uninit : Block) (start : UInt32) : BlockDev FaultyDisk where
  read i := fun s => (if s.works 0 then some (s.volume start i) else none, s.skip 1)
  write i b := fun s => (s.works 0, if s.works 0 then (s.setBlock start i b).skip 1 else s.skip 1)
  uninit := uninit

namespace FaultyDisk

variable (s : FaultyDisk) (start : UInt32)

theorem skip_zero : s.skip 0 = s := by
  unfold skip
  simp only [Nat.zero_add]

theorem skip_skip (n m : Nat) : (s.skip n).skip m = s.skip (n + m) := by
  unfold skip
  simp only [Nat.add_assoc]

@[simp] theorem skip_works (n t : Nat) : (s.skip n).works t = s.works (n + t) := rfl

@[simp] theorem skip_volume (n : Nat) : (s.skip n).volume start = s.volume start := rfl

@[simp] theorem setBlock_works (i : Nat) (b : Block) : (s.setBlock start i b).works = s.works := rfl

theorem volume_setBlock {i j : Nat} (b : Block) (hi : i < 4294967296) (hj : j < 4294967296) :
    (s.setBlock start i b).volume start j = if j = i then b else s.volume start j := by
  have hs := start.toNat_lt
  unfold volume setBlock
  rcases em (j = i) with rfl | hne
  · rw [if_pos rfl]
    exact Disk.set_self _ _ _
  · rw [if_neg hne]
    refine Disk.set_of_ne ?_
    unfold u32
    omega

end FaultyDisk

/-! ## Attempts

Five tries, of which the first that works counts. -/

/-- The transfer after the first one of `n` that succeeds, from the `c`-th on. -/
def tries (works : Nat → Bool) : (n c : Nat) → Option Nat
  | 0, _ => none
  | n + 1, c => if works c then some (c + 1) else tries works n (c + 1)

/-- The transfer after the reads of `n` bits, when each of them succeeds in five attempts. -/
def readsFrom (works : Nat → Bool) : (n c : Nat) → Option Nat
  | 0, c => some c
  | n + 1, c => (tries works 5 c).bind (readsFrom works n)

/-- The transfer after `bitmap_set`, when its read and its write succeed in five attempts. -/
def setWorks (works : Nat → Bool) (c : Nat) : Option Nat := (tries works 5 c).bind (tries works 5)

section

variable {u : Block} {start : UInt32} {s : FaultyDisk} {c c' : Nat}

theorem sectorDev_read (lba : Nat) : (sectorDev u start).read lba (s.skip c)
    = (if s.works c then some (s.volume start lba) else none, s.skip (c + 1)) := by
  rw [← FaultyDisk.skip_skip]
  rfl

theorem sectorDev_write (lba : Nat) (b : Block) : (sectorDev u start).write lba b (s.skip c)
    = (s.works c, if s.works c then (s.setBlock start lba b).skip (c + 1) else s.skip (c + 1)) := by
  rw [← FaultyDisk.skip_skip, ← FaultyDisk.skip_skip]
  rfl

theorem readRetry_some {n lba : Nat} (h : tries s.works n c = some c') :
    readRetry (sectorDev u start) lba n (s.skip c) = (some (s.volume start lba), s.skip c') := by
  induction n generalizing c with
  | zero => cases h
  | succ n ih =>
      unfold tries at h
      rw [readRetry, Prog.run_bind, sectorDev_read]
      cases hw : s.works c with
      | true =>
          rw [hw, if_pos rfl] at h
          obtain rfl := Option.some.inj h
          rfl
      | false =>
          rw [hw] at h
          exact ih h

theorem readRetry_none {n lba : Nat} (h : tries s.works n c = none) :
    readRetry (sectorDev u start) lba n (s.skip c) = (none, s.skip (c + n)) := by
  induction n generalizing c with
  | zero => rfl
  | succ n ih =>
      unfold tries at h
      rw [readRetry, Prog.run_bind, sectorDev_read]
      cases hw : s.works c with
      | true =>
          rw [hw] at h
          cases h
      | false =>
          rw [hw] at h
          have hrest := ih h
          rw [Nat.add_right_comm] at hrest
          exact hrest

theorem writeRetry_some {n lba : Nat} {b : Block} (h : tries s.works n c = some c') :
    writeRetry (sectorDev u start) lba b n (s.skip c)
      = (true, (s.setBlock start lba b).skip c') := by
  induction n generalizing c with
  | zero => cases h
  | succ n ih =>
      unfold tries at h
      rw [writeRetry, Prog.run_bind, sectorDev_write]
      cases hw : s.works c with
      | true =>
          rw [hw, if_pos rfl] at h
          obtain rfl := Option.some.inj h
          rfl
      | false =>
          rw [hw] at h
          exact ih h

theorem writeRetry_none {n lba : Nat} {b : Block} (h : tries s.works n c = none) :
    writeRetry (sectorDev u start) lba b n (s.skip c) = (false, s.skip (c + n)) := by
  induction n generalizing c with
  | zero => rfl
  | succ n ih =>
      unfold tries at h
      rw [writeRetry, Prog.run_bind, sectorDev_write]
      cases hw : s.works c with
      | true =>
          rw [hw] at h
          cases h
      | false =>
          rw [hw] at h
          have hrest := ih h
          rw [Nat.add_right_comm] at hrest
          exact hrest

end

/-! ## The bitmaps

`bitmap_get` and `bitmap_set` in terms of the tries. -/

/-- The disk with a bit of a bitmap of the volume set. -/
def FaultyDisk.withBitSet (s : FaultyDisk) (start : UInt32) (bitmap i : Nat) : FaultyDisk :=
  s.setBlock start (u32 (bitmap + i / 8 / 512))
    (withBit (s.volume start (u32 (bitmap + i / 8 / 512))) (i / 8 % 512) i true)

section

variable {u : Block} {start : UInt32} {s : FaultyDisk} {c c' bitmap i : Nat}

theorem bitmapGet_some (h : tries s.works 5 c = some c') :
    bitmapGet (sectorDev u start) bitmap i (s.skip c)
      = ((s.volume start).bit bitmap i, s.skip c') := by
  unfold bitmapGet
  rw [Prog.run_bind, readRetry_some h]
  rfl

theorem bitmapGet_none (h : tries s.works 5 c = none) :
    bitmapGet (sectorDev u start) bitmap i (s.skip c) = (false, s.skip (c + 5)) := by
  unfold bitmapGet
  rw [Prog.run_bind, readRetry_none h]
  rfl

theorem bitmapSet_some (h : setWorks s.works c = some c') :
    bitmapSet (sectorDev u start) bitmap i true (s.skip c)
      = (true, (s.withBitSet start bitmap i).skip c') := by
  obtain ⟨c₁, h₁, h₂⟩ := Option.bind_eq_some_iff.mp h
  unfold bitmapSet
  rw [Prog.run_bind, readRetry_some h₁]
  exact writeRetry_some h₂

theorem bitmapSet_none (h : setWorks s.works c = none) :
    ∃ c', bitmapSet (sectorDev u start) bitmap i true (s.skip c) = (false, s.skip c') := by
  unfold bitmapSet
  rw [Prog.run_bind]
  cases h₁ : tries s.works 5 c with
  | none => exact ⟨c + 5, by rw [readRetry_none h₁]; rfl⟩
  | some c₁ =>
      unfold setWorks at h
      rw [h₁, Option.bind_some] at h
      exact ⟨c₁ + 5, by rw [readRetry_some h₁]; exact writeRetry_none h⟩

theorem withBit_ne_zero {b : Block} {k x : Nat} (h : b x ≠ 0) : withBit b k i true x ≠ 0 := by
  rcases em (x = k) with rfl | hne
  · have hmod : i % 8 < 8 := Nat.mod_lt _ (by decide)
    have hbyte := (b x).toNat_lt
    have hor : (b x).toNat ||| 2 ^ (i % 8) < 2 ^ 8 :=
      Nat.or_lt_two_pow hbyte (Nat.pow_lt_pow_right (by decide) hmod)
    intro h0
    have hzero : (b x).toNat ||| 2 ^ (i % 8) = 0 := by
      have hval := congrArg UInt8.toNat h0
      simp only [withBit, if_true, Buf.putByte_self, UInt8.toNat_ofNat'] at hval
      rwa [Nat.mod_eq_of_lt hor] at hval
    exact h (UInt8.toNat_inj.mp (Nat.or_eq_zero_iff.mp hzero).1)
  · simp only [withBit, if_true]
    rw [Buf.putByte_of_ne hne]
    exact h

theorem FaultyDisk.withBitSet_ne_zero {q x : Nat} (hq : q < 4294967296)
    (h : s.volume start q x ≠ 0) : (s.withBitSet start bitmap i).volume start q x ≠ 0 := by
  unfold withBitSet
  rw [volume_setBlock _ _ _ (u32_lt _) hq]
  split
  · rename_i heq
    rw [← heq]
    exact withBit_ne_zero h
  · exact h

end

/-! ## The scan

The scan over the bits, and where it stops: at a clear bit, at one that
could not be read, or nowhere. -/

/-- Both allocators take the first index whose bit reads as clear. -/
def scanBits {σ : Type} (dev : BlockDev σ) (bitmap : Nat) (take : Nat → Prog σ (Option Nat)) :
    (n i : Nat) → Prog σ (Option Nat)
  | 0, _ => pure none
  | n + 1, i => do
      if ← bitmapGet dev bitmap i then scanBits dev bitmap take n (i + 1) else take i

section

variable {u : Block} {start : UInt32} {s : FaultyDisk} {bitmap : Nat}
  {take : Nat → Prog FaultyDisk (Option Nat)}

theorem scanBits_blind {n k i c c' : Nat} (hk : k < n)
    (hused : ∀ j, j < k → (s.volume start).bit bitmap (i + j) = true)
    (hreads : readsFrom s.works k c = some c') (hfail : tries s.works 5 c' = none) :
    scanBits (sectorDev u start) bitmap take n i (s.skip c) = take (i + k) (s.skip (c' + 5)) := by
  induction k generalizing n i c with
  | zero =>
      obtain ⟨m, rfl⟩ := Nat.exists_eq_add_of_le' hk
      obtain rfl := Option.some.inj hreads
      rw [scanBits, Prog.run_bind, bitmapGet_none hfail]
      rfl
  | succ k ih =>
      obtain ⟨m, rfl⟩ := Nat.exists_eq_add_of_le' (Nat.le_trans (Nat.le_add_left 1 (k + 1)) hk)
      obtain ⟨c₁, h₁, hrest⟩ := Option.bind_eq_some_iff.mp hreads
      have hbit := hused 0 (Nat.succ_pos k)
      rw [Nat.add_zero] at hbit
      have hnext := ih (n := m) (i := i + 1) (c := c₁) (by omega)
        (fun j hj => by rw [Nat.add_assoc, Nat.add_comm 1 j]; exact hused (j + 1) (by omega)) hrest
      rw [scanBits, Prog.run_bind, bitmapGet_some h₁, hbit]
      show scanBits (sectorDev u start) bitmap take m (i + 1) (s.skip c₁) = _
      rw [hnext, Nat.add_assoc, Nat.add_comm 1 k]

/-- Where the scan ends: nowhere, at a clear bit, or at one it could not read. -/
theorem scanBits_cases (n i c : Nat) :
    (∃ c', scanBits (sectorDev u start) bitmap take n i (s.skip c) = (none, s.skip c'))
    ∨ ∃ k c', k < n ∧ (∀ j, j < k → (s.volume start).bit bitmap (i + j) = true)
      ∧ readsFrom s.works k c = some c'
      ∧ (((s.volume start).bit bitmap (i + k) = false
          ∧ ∃ c₁, scanBits (sectorDev u start) bitmap take n i (s.skip c)
            = take (i + k) (s.skip c₁))
        ∨ (tries s.works 5 c' = none
          ∧ scanBits (sectorDev u start) bitmap take n i (s.skip c)
            = take (i + k) (s.skip (c' + 5)))) := by
  induction n generalizing i c with
  | zero => exact Or.inl ⟨c, rfl⟩
  | succ n ih =>
      rw [scanBits, Prog.run_bind]
      cases h₁ : tries s.works 5 c with
      | none =>
          refine Or.inr ⟨0, c, Nat.succ_pos n, fun j hj => absurd hj (Nat.not_lt_zero j), rfl,
            Or.inr ⟨h₁, ?_⟩⟩
          rw [bitmapGet_none h₁]
          rfl
      | some c₁ =>
          rw [bitmapGet_some h₁]
          cases hbit : (s.volume start).bit bitmap i with
          | false =>
              exact Or.inr ⟨0, c, Nat.succ_pos n, fun j hj => absurd hj (Nat.not_lt_zero j), rfl,
                Or.inl ⟨hbit, c₁, rfl⟩⟩
          | true =>
              rcases ih (i + 1) c₁ with hnone | ⟨k, c', hk, hused, hreads, hend⟩
              · exact Or.inl hnone
              · refine Or.inr ⟨k + 1, c', by omega, fun j hj => ?_, ?_, ?_⟩
                · rcases j with _ | j
                  · exact hbit
                  · rw [← Nat.add_assoc, Nat.add_right_comm]
                    exact hused j (by omega)
                · unfold readsFrom
                  rw [h₁, Option.bind_some, hreads]
                · rw [← Nat.add_assoc, Nat.add_right_comm]
                  exact hend

end

/-- What `allocate_block` does with the index it stopped at. -/
def takeBlockAt {σ : Type} (dev : BlockDev σ) (sb : Superblock) (i : Nat) :
    Prog σ (Option Nat) := do
  if ← bitmapSet dev sb.blockBitmapStart.toNat i true then do
    let block := u32 (sb.dataBlocksStart.toNat + i)
    if ← dev.write block Buf.zero then pure (asInt block) else pure none
  else pure none

/-- What `allocate_inode` does with the index it stopped at. -/
def takeInodeAt {σ : Type} (dev : BlockDev σ) (sb : Superblock) (i : Nat) :
    Prog σ (Option Nat) := do
  if ← bitmapSet dev sb.inodeBitmapStart.toNat i true then do
    let _ ← writeInode dev sb (i + 1) Inode.zero
    pure (asInt (u32 (i + 1)))
  else pure none

theorem allocateBlockFrom_scan {σ : Type} (dev : BlockDev σ) (sb : Superblock) (n i : Nat) :
    allocateBlockFrom dev sb n i
      = scanBits dev sb.blockBitmapStart.toNat (takeBlockAt dev sb) n i := by
  induction n generalizing i with
  | zero => rfl
  | succ n ih =>
      unfold allocateBlockFrom scanBits
      rw [ih]
      rfl

theorem allocateInodeFrom_scan {σ : Type} (dev : BlockDev σ) (sb : Superblock) (n i : Nat) :
    allocateInodeFrom dev sb n i
      = scanBits dev sb.inodeBitmapStart.toNat (takeInodeAt dev sb) n i := by
  induction n generalizing i with
  | zero => rfl
  | succ n ih =>
      unfold allocateInodeFrom scanBits
      rw [ih]
      rfl

/-! ## What a wrong take does

`BlindStop` is the pattern of failures that matters: the reads of a set bit
fail, and the transfers after it work. -/

/-- Bytes that were not all zero are all zero. -/
def Zeroed (off len : Nat) (b b' : Block) : Prop :=
  (∃ k, k < len ∧ b (off + k) ≠ 0) ∧ ∀ k, k < len → b' (off + k) = 0

/-- An allocated block was free, and no block in use was zeroed. -/
structure BlockSafe (sb : Superblock) (start : UInt32) (s : FaultyDisk)
    (r : Option Nat × FaultyDisk) : Prop where
  returned : ∀ p, r.1 = some p →
    (s.volume start).bit sb.blockBitmapStart.toNat (sub32 p sb.dataBlocksStart.toNat) = false
  kept : ∀ p, p < 4294967296 →
    (s.volume start).bit sb.blockBitmapStart.toNat (sub32 p sb.dataBlocksStart.toNat) = true →
    ¬ Zeroed 0 512 (s.volume start p) (r.2.volume start p)

/-- An allocated inode was free, and no slot in use was zeroed. -/
structure InodeSafe (sb : Superblock) (start : UInt32) (s : FaultyDisk)
    (r : Option Nat × FaultyDisk) : Prop where
  returned : ∀ n, r.1 = some n → (s.volume start).bit sb.inodeBitmapStart.toNat (n - 1) = false
  kept : ∀ n, sb.ValidIno n → (s.volume start).bit sb.inodeBitmapStart.toNat (n - 1) = true →
    ¬ Zeroed (inodeOffset n) 76 (s.volume start (inodeBlock sb n))
      (r.2.volume start (inodeBlock sb n))

/-- The scan stops at bit `i`, which is set like all bits before it: these can be read and bit
`i` cannot. Then `bitmap_set` works, and `c` is the transfer after it. -/
def BlindStop (bitmap : Nat) (start : UInt32) (s : FaultyDisk) (i c : Nat) : Prop :=
  (∀ j, j ≤ i → (s.volume start).bit bitmap j = true)
  ∧ ∃ c₀, readsFrom s.works i 0 = some c₀ ∧ tries s.works 5 c₀ = none
    ∧ setWorks s.works (c₀ + 5) = some c

/-- A block in use is taken: the block is zeroed, and has a number that can be returned or a
byte to lose. -/
def BlockMisread (sb : Superblock) (start : UInt32) (s : FaultyDisk) : Prop :=
  ∃ i c, i < dataBlocksTotal sb ∧ BlindStop sb.blockBitmapStart.toNat start s i c
    ∧ s.works c = true
    ∧ (u32 (sb.dataBlocksStart.toNat + i) < 2147483648
      ∨ ∃ k, k < 512 ∧ s.volume start (u32 (sb.dataBlocksStart.toNat + i)) k ≠ 0)

/-- An inode in use is taken: it has a number that can be returned, or its slot is zeroed and
has a byte to lose. -/
def InodeMisread (sb : Superblock) (start : UInt32) (s : FaultyDisk) : Prop :=
  ∃ i c, i < sb.inodeCount.toNat ∧ BlindStop sb.inodeBitmapStart.toNat start s i c
    ∧ (i + 1 < 2147483648 ∨ (s.works c = true ∧ s.works (c + 1) = true
      ∧ ∃ k, k < 76 ∧ s.volume start (inodeBlock sb (i + 1)) (inodeOffset (i + 1) + k) ≠ 0))

section

variable {u : Block} {sb : Superblock} {start : UInt32} {s : FaultyDisk} {c i : Nat}

theorem BlindStop.scan {take : Nat → Prog FaultyDisk (Option Nat)} {bitmap n : Nat}
    (h : BlindStop bitmap start s i c) (hi : i < n) :
    ∃ c₀, scanBits (sectorDev u start) bitmap take n 0 s = take i (s.skip (c₀ + 5))
      ∧ setWorks s.works (c₀ + 5) = some c := by
  obtain ⟨hused, c₀, hreads, hfail, hset⟩ := h
  refine ⟨c₀, ?_, hset⟩
  have hscan := @scanBits_blind u start s bitmap take n i 0 0 c₀ hi
    (fun j hj => by rw [Nat.zero_add]; exact hused j (Nat.le_of_lt hj)) hreads hfail
  rw [s.skip_zero, Nat.zero_add] at hscan
  exact hscan

/-! ## Blocks

What is taken at the bit where the scan stopped, and what is zeroed. -/

theorem not_zeroed_withBitSet {bitmap q off len : Nat} (hq : q < 4294967296) :
    ¬ Zeroed off len (s.volume start q) ((s.withBitSet start bitmap i).volume start q) := by
  rintro ⟨⟨k, hk, hne⟩, hzero⟩
  exact FaultyDisk.withBitSet_ne_zero hq hne (hzero k hk)

theorem not_zeroed_same {off len : Nat} {b : Block} : ¬ Zeroed off len b b := by
  rintro ⟨⟨k, hk, hne⟩, hzero⟩
  exact hne (hzero k hk)

theorem takeBlockAt_none (h : setWorks s.works c = none) :
    ∃ c', takeBlockAt (sectorDev u start) sb i (s.skip c) = (none, s.skip c') := by
  obtain ⟨c', hrun⟩ := @bitmapSet_none u start s c sb.blockBitmapStart.toNat i h
  refine ⟨c', ?_⟩
  rw [takeBlockAt, Prog.run_bind, hrun]
  rfl

theorem takeBlockAt_some {c' : Nat} (h : setWorks s.works c = some c') :
    takeBlockAt (sectorDev u start) sb i (s.skip c)
      = if s.works c' then
          (asInt (u32 (sb.dataBlocksStart.toNat + i)),
            ((s.withBitSet start sb.blockBitmapStart.toNat i).setBlock start
              (u32 (sb.dataBlocksStart.toNat + i)) Buf.zero).skip (c' + 1))
        else (none, (s.withBitSet start sb.blockBitmapStart.toNat i).skip (c' + 1)) := by
  have hw : (s.withBitSet start sb.blockBitmapStart.toNat i).works c' = s.works c' := rfl
  rw [takeBlockAt, Prog.run_bind, bitmapSet_some h]
  simp only [Prog.run_bind, if_true]
  rw [sectorDev_write, hw]
  cases s.works c' <;> rfl

theorem sub32_block {start i : Nat} (hs : start < 4294967296) (hi : i < 4294967296) :
    sub32 (u32 (start + i)) start = i := by
  unfold sub32 u32
  omega

/-- A block taken at index `i`, safe unless the bit is set and the block zeroed. -/
theorem takeBlockAt_safe (hi : i < 4294967296)
    (h : (s.volume start).bit sb.blockBitmapStart.toNat i = true →
      ∀ c', setWorks s.works c = some c' →
      s.works c' = true → ¬ (u32 (sb.dataBlocksStart.toNat + i) < 2147483648
        ∨ ∃ k, k < 512 ∧ s.volume start (u32 (sb.dataBlocksStart.toNat + i)) k ≠ 0)) :
    BlockSafe sb start s (takeBlockAt (sectorDev u start) sb i (s.skip c)) := by
  have hindex := @sub32_block sb.dataBlocksStart.toNat i sb.dataBlocksStart.toNat_lt hi
  cases hset : setWorks s.works c with
  | none =>
      obtain ⟨c', hrun⟩ := @takeBlockAt_none u sb start s c i hset
      rw [hrun]
      exact ⟨fun p hp => (by cases hp), fun p _ _ => not_zeroed_same⟩
  | some c' =>
      rw [takeBlockAt_some hset]
      cases hw : s.works c' with
      | false => exact ⟨fun p hp => (by cases hp), fun p hp _ => not_zeroed_withBitSet hp⟩
      | true =>
          constructor
          · intro p hp
            obtain ⟨rfl, hlt⟩ := asInt_eq_some.mp hp
            rw [hindex]
            cases hbit : (s.volume start).bit sb.blockBitmapStart.toNat i with
            | false => rfl
            | true => exact absurd (Or.inl hlt) (h hbit c' hset hw)
          · intro p hp hused hzero
            rcases em (p = u32 (sb.dataBlocksStart.toNat + i)) with rfl | hne
            · rw [hindex] at hused
              obtain ⟨k, hk, hne⟩ := hzero.1
              rw [Nat.zero_add] at hne
              exact h hused c' hset hw (Or.inr ⟨k, hk, hne⟩)
            · -- another block sees the new bit at most
              rw [if_pos rfl, FaultyDisk.skip_volume,
                FaultyDisk.volume_setBlock _ _ _ (u32_lt _) hp, if_neg hne] at hzero
              exact not_zeroed_withBitSet hp hzero

theorem allocateBlock_blind (h : BlockMisread sb start s) :
    ¬ BlockSafe sb start s (allocateBlock (sectorDev u start) sb s) := by
  obtain ⟨i, c, hi, hblind, hw, hlose⟩ := h
  have hlt : i < 4294967296 := by
    have htotal : dataBlocksTotal sb < 4294967296 := Nat.mod_lt _ (by decide)
    omega
  have hindex := @sub32_block sb.dataBlocksStart.toNat i sb.dataBlocksStart.toNat_lt hlt
  have hused := hblind.1 i (Nat.le_refl i)
  obtain ⟨c₀, hscan, hset⟩ := @BlindStop.scan u start s c i (takeBlockAt (sectorDev u start) sb) _ _
    hblind hi
  rw [allocateBlock, allocateBlockFrom_scan, hscan, takeBlockAt_some hset, hw, if_pos rfl]
  intro hsafe
  rcases hlose with hint | ⟨k, hk, hne⟩
  · have hfree := hsafe.returned _ (asInt_eq_some.mpr ⟨rfl, hint⟩)
    rw [hindex, hused] at hfree
    cases hfree
  · refine hsafe.kept (u32 (sb.dataBlocksStart.toNat + i)) (u32_lt _) (by rw [hindex, hused])
      ⟨⟨k, hk, by rwa [Nat.zero_add]⟩, fun j hj => ?_⟩
    rw [FaultyDisk.skip_volume, FaultyDisk.volume_setBlock _ _ _ (u32_lt _) (u32_lt _), if_pos rfl]
    rfl

theorem allocateBlock_safe :
    BlockSafe sb start s (allocateBlock (sectorDev u start) sb s) ↔ ¬ BlockMisread sb start s := by
  refine ⟨fun hsafe hmis => allocateBlock_blind hmis hsafe, fun hno => ?_⟩
  rw [allocateBlock, allocateBlockFrom_scan]
  have htotal : dataBlocksTotal sb < 4294967296 := Nat.mod_lt _ (by decide)
  have hcases := @scanBits_cases u start s sb.blockBitmapStart.toNat
    (takeBlockAt (sectorDev u start) sb) (dataBlocksTotal sb) 0 0
  rw [s.skip_zero] at hcases
  rcases hcases with ⟨c', hrun⟩ | ⟨k, c', hk, hused, hreads, ⟨hclear, c₁, hrun⟩ | ⟨hfail, hrun⟩⟩
  · rw [hrun]
    exact ⟨fun p hp => (by cases hp), fun p _ _ => not_zeroed_same⟩
  · rw [Nat.zero_add] at hclear hrun
    rw [hrun]
    refine takeBlockAt_safe (by omega) fun hbit => ?_
    rw [hclear] at hbit
    cases hbit
  · rw [Nat.zero_add] at hrun
    rw [hrun]
    refine takeBlockAt_safe (by omega) fun hbit c₂ hset hw hlose => hno ⟨k, c₂, hk, ⟨?_, c', hreads,
      hfail, hset⟩, hw, hlose⟩
    intro j hj
    rcases Nat.lt_or_eq_of_le hj with hlt | rfl
    · have h := hused j hlt
      rwa [Nat.zero_add] at h
    · exact hbit

/-! ## Inodes

The same for `allocate_inode`, which zeroes a slot and not a block. -/

theorem inodeBlock_lt_word (sb : Superblock) (n : Nat) : inodeBlock sb n < 4294967296 := u32_lt _

def FaultyDisk.putInode (s : FaultyDisk) (start : UInt32) (sb : Superblock) (n : Nat) (r : Inode) :
    FaultyDisk :=
  s.setBlock start (inodeBlock sb n)
    ((s.volume start (inodeBlock sb n)).patch (inodeOffset n) 76 r.encode)

theorem writeInode_sectors {n : Nat} (hv : sb.ValidIno n) (r : Inode) :
    if s.works c = true ∧ s.works (c + 1) = true then
      writeInode (sectorDev u start) sb n r (s.skip c)
        = (true, (s.putInode start sb n r).skip (c + 2))
    else ∃ c', writeInode (sectorDev u start) sb n r (s.skip c) = (false, s.skip c') := by
  have hrange : ¬ (n = 0 ∨ n > sb.inodeCount.toNat) := by
    have h1 := hv.1
    have h2 := hv.2
    omega
  unfold writeInode
  rw [if_neg hrange, Prog.run_bind, sectorDev_read]
  cases h₁ : s.works c with
  | false =>
      rw [if_neg fun h => Bool.false_ne_true h.1]
      exact ⟨c + 1, rfl⟩
  | true =>
      simp only [if_true]
      rw [sectorDev_write]
      cases h₂ : s.works (c + 1) with
      | false =>
          rw [if_neg fun h => Bool.false_ne_true h.2]
          exact ⟨c + 1 + 1, rfl⟩
      | true =>
          rw [if_pos (And.intro trivial rfl)]
          rfl

theorem takeInodeAt_some {c' : Nat} (hi : i < sb.inodeCount.toNat)
    (h : setWorks s.works c = some c') :
    if s.works c' = true ∧ s.works (c' + 1) = true then
      takeInodeAt (sectorDev u start) sb i (s.skip c) = (asInt (i + 1),
        ((s.withBitSet start sb.inodeBitmapStart.toNat i).putInode start sb (i + 1)
          Inode.zero).skip (c' + 2))
    else ∃ c₁, takeInodeAt (sectorDev u start) sb i (s.skip c)
      = (asInt (i + 1), (s.withBitSet start sb.inodeBitmapStart.toNat i).skip c₁) := by
  have hcount := sb.inodeCount.toNat_lt
  have hu : u32 (i + 1) = i + 1 := u32_of_lt (by omega)
  have hwrite := @writeInode_sectors u sb start (s.withBitSet start sb.inodeBitmapStart.toNat i) c'
    (i + 1) ⟨by omega, by omega⟩ Inode.zero
  have hw : ∀ t, (s.withBitSet start sb.inodeBitmapStart.toNat i).works t = s.works t :=
    fun t => rfl
  rw [hw, hw] at hwrite
  rw [takeInodeAt, Prog.run_bind, bitmapSet_some h]
  simp only [if_true, Prog.run_bind]
  split at hwrite
  · rename_i hboth
    rw [if_pos hboth, hwrite, hu]
    rfl
  · rename_i hboth
    obtain ⟨c₁, hrun⟩ := hwrite
    rw [if_neg hboth, hrun, hu]
    exact ⟨c₁, rfl⟩

theorem takeInodeAt_none (h : setWorks s.works c = none) :
    ∃ c', takeInodeAt (sectorDev u start) sb i (s.skip c) = (none, s.skip c') := by
  obtain ⟨c', hrun⟩ := @bitmapSet_none u start s c sb.inodeBitmapStart.toNat i h
  refine ⟨c', ?_⟩
  rw [takeInodeAt, Prog.run_bind, hrun]
  rfl

theorem encode_zero (k : Nat) : Inode.zero.encode k = 0 := by
  have hfield : ∀ j, Inode.zero.field j = 0 := fun j => by
    unfold Inode.field
    split <;> rfl
  unfold Inode.encode
  split
  · rw [hfield]
    simp [Buf.wordBytes]
  · split <;> rfl

theorem putInode_self {n k : Nat} (hk : k < 76) :
    (s.putInode start sb n Inode.zero).volume start (inodeBlock sb n) (inodeOffset n + k) = 0 := by
  unfold FaultyDisk.putInode
  rw [FaultyDisk.volume_setBlock _ _ _ (inodeBlock_lt_word sb _) (inodeBlock_lt_word sb _),
    if_pos rfl, Buf.patch_in (Nat.le_add_right _ k) (by omega)]
  exact encode_zero _

theorem putInode_other {n m k : Nat} {r : Inode} (hn : sb.ValidIno n) (hm : sb.ValidIno m)
    (hne : m ≠ n) (hk : k < 76) :
    (s.putInode start sb n r).volume start (inodeBlock sb m) (inodeOffset m + k)
      = s.volume start (inodeBlock sb m) (inodeOffset m + k) := by
  unfold FaultyDisk.putInode
  rw [FaultyDisk.volume_setBlock _ _ _ (inodeBlock_lt_word sb _) (inodeBlock_lt_word sb _)]
  split
  · rename_i heq
    -- slots of one block are apart
    have h1 := hn.1
    have h2 := hn.2
    have h3 := hm.1
    have h4 := hm.2
    have hcount := sb.inodeCount.toNat_lt
    have hdiv : (m - 1) / 6 = (n - 1) / 6 := by
      unfold inodeBlock u32 at heq
      omega
    rw [Buf.patch_out, heq]
    unfold inodeOffset
    omega
  · rfl

/-- An inode taken at index `i`, safe unless the bit is set and the slot zeroed or returned. -/
theorem takeInodeAt_safe (hi : i < sb.inodeCount.toNat)
    (h : (s.volume start).bit sb.inodeBitmapStart.toNat i = true →
      ∀ c', setWorks s.works c = some c' →
      ¬ (i + 1 < 2147483648 ∨ (s.works c' = true ∧ s.works (c' + 1) = true
        ∧ ∃ k, k < 76 ∧ s.volume start (inodeBlock sb (i + 1)) (inodeOffset (i + 1) + k) ≠ 0))) :
    InodeSafe sb start s (takeInodeAt (sectorDev u start) sb i (s.skip c)) := by
  cases hset : setWorks s.works c with
  | none =>
      obtain ⟨c', hrun⟩ := @takeInodeAt_none u sb start s c i hset
      rw [hrun]
      exact ⟨fun p hp => (by cases hp), fun p _ _ => not_zeroed_same⟩
  | some c' =>
      have hret : ∀ n, asInt (i + 1) = some n →
          (s.volume start).bit sb.inodeBitmapStart.toNat (n - 1) = false := by
        intro n hn
        obtain ⟨rfl, hlt⟩ := asInt_eq_some.mp hn
        rw [Nat.add_sub_cancel]
        cases hbit : (s.volume start).bit sb.inodeBitmapStart.toNat i with
        | false => rfl
        | true => exact absurd (Or.inl hlt) (h hbit c' hset)
      have htake := @takeInodeAt_some u sb start s c i c' hi hset
      split at htake
      · rename_i hboth
        rw [htake]
        refine ⟨hret, fun n hn hused hzero => ?_⟩
        rcases em (n = i + 1) with rfl | hne
        · rw [Nat.add_sub_cancel] at hused
          exact h hused c' hset (Or.inr ⟨hboth.1, hboth.2, hzero.1⟩)
        · have hrange : sb.ValidIno (i + 1) := ⟨by omega, by omega⟩
          have hsame : ∀ k, k < 76 →
              (s.withBitSet start sb.inodeBitmapStart.toNat i).volume start (inodeBlock sb n)
                (inodeOffset n + k) = 0 := by
            intro k hk
            rw [← @putInode_other sb start (s.withBitSet start sb.inodeBitmapStart.toNat i)
              (i + 1) n
              k Inode.zero hrange hn hne hk]
            exact hzero.2 k hk
          exact not_zeroed_withBitSet (inodeBlock_lt_word sb n) ⟨hzero.1, hsame⟩
      · obtain ⟨c₁, hrun⟩ := htake
        rw [hrun]
        exact ⟨hret, fun n _ _ => not_zeroed_withBitSet (u32_lt _)⟩

theorem allocateInode_blind (h : InodeMisread sb start s) :
    ¬ InodeSafe sb start s (allocateInode (sectorDev u start) sb s) := by
  obtain ⟨i, c, hi, hblind, hlose⟩ := h
  have hused := hblind.1 i (Nat.le_refl i)
  obtain ⟨c₀, hscan, hset⟩ := @BlindStop.scan u start s c i (takeInodeAt (sectorDev u start) sb) _ _
    hblind hi
  rw [allocateInode, allocateInodeFrom_scan, hscan]
  intro hsafe
  have htake := @takeInodeAt_some u sb start s (c₀ + 5) i c hi hset
  rcases hlose with hint | ⟨hread, hwrite, k, hk, hne⟩
  · have hret : (takeInodeAt (sectorDev u start) sb i (s.skip (c₀ + 5))).1 = some (i + 1) := by
      split at htake
      · rw [htake]
        exact asInt_eq_some.mpr ⟨rfl, hint⟩
      · obtain ⟨c₁, hrun⟩ := htake
        rw [hrun]
        exact asInt_eq_some.mpr ⟨rfl, hint⟩
    have hfree := hsafe.returned _ hret
    rw [Nat.add_sub_cancel, hused] at hfree
    cases hfree
  · rw [if_pos ⟨hread, hwrite⟩] at htake
    rw [htake] at hsafe
    refine hsafe.kept (i + 1) ⟨by omega, by omega⟩ (by rw [Nat.add_sub_cancel, hused])
      ⟨⟨k, hk, hne⟩, fun j hj => ?_⟩
    exact putInode_self hj

theorem allocateInode_safe :
    InodeSafe sb start s (allocateInode (sectorDev u start) sb s) ↔ ¬ InodeMisread sb start s := by
  refine ⟨fun hsafe hmis => allocateInode_blind hmis hsafe, fun hno => ?_⟩
  rw [allocateInode, allocateInodeFrom_scan]
  have hcases := @scanBits_cases u start s sb.inodeBitmapStart.toNat
    (takeInodeAt (sectorDev u start) sb) sb.inodeCount.toNat 0 0
  rw [s.skip_zero] at hcases
  rcases hcases with ⟨c', hrun⟩ | ⟨k, c', hk, hused, hreads, ⟨hclear, c₁, hrun⟩ | ⟨hfail, hrun⟩⟩
  · rw [hrun]
    exact ⟨fun p hp => (by cases hp), fun p _ _ => not_zeroed_same⟩
  · rw [Nat.zero_add] at hclear hrun
    rw [hrun]
    refine takeInodeAt_safe hk fun hbit => ?_
    rw [hclear] at hbit
    cases hbit
  · rw [Nat.zero_add] at hrun
    rw [hrun]
    refine takeInodeAt_safe hk fun hbit c₂ hset hlose => hno ⟨k, c₂, hk, ⟨?_, c', hreads, hfail,
      hset⟩, hlose⟩
    intro j hj
    rcases Nat.lt_or_eq_of_le hj with hlt | rfl
    · have h := hused j hlt
      rwa [Nat.zero_add] at h
    · exact hbit

end

/-- The allocators hand out and zero only what was free, on every volume and for every pattern
of failing transfers, exactly when the scan does not stop at an unreadable bit that is set and
then get through. -/
theorem allocators_safe (u : Block) (sb : Superblock) (start : UInt32) (s : FaultyDisk) :
    (BlockSafe sb start s (allocateBlock (sectorDev u start) sb s) ↔ ¬ BlockMisread sb start s)
    ∧ (InodeSafe sb start s (allocateInode (sectorDev u start) sb s)
      ↔ ¬ InodeMisread sb start s) :=
  ⟨allocateBlock_safe, allocateInode_safe⟩

/-- A new volume whose next five transfers fail. -/
def fiveFailures : FaultyDisk := ⟨(mountedKernel 12 6).disk, fun n => 5 ≤ n⟩

/-- Five failed reads of the first bit give the root directory's block and inode out again. -/
theorem allocators_five_failures :
    (allocateBlock (sectorDev Buf.zero 0) (mountedKernel 12 6).sb fiveFailures).1 = some 4
    ∧ (allocateInode (sectorDev Buf.zero 0) (mountedKernel 12 6).sb fiveFailures).1 = some 1
    ∧ ¬ BlockSafe (mountedKernel 12 6).sb 0 fiveFailures
      (allocateBlock (sectorDev Buf.zero 0) (mountedKernel 12 6).sb fiveFailures)
    ∧ ¬ InodeSafe (mountedKernel 12 6).sb 0 fiveFailures
      (allocateInode (sectorDev Buf.zero 0) (mountedKernel 12 6).sb fiveFailures) := by
  have hblock : (allocateBlock (sectorDev Buf.zero 0) (mountedKernel 12 6).sb fiveFailures).1
      = some 4 := by
    decide +kernel
  have hinode : (allocateInode (sectorDev Buf.zero 0) (mountedKernel 12 6).sb fiveFailures).1
      = some 1 := by
    decide +kernel
  have hused : (fiveFailures.volume 0).bit (mountedKernel 12 6).sb.blockBitmapStart.toNat
      (sub32 4 (mountedKernel 12 6).sb.dataBlocksStart.toNat) = true := by
    decide +kernel
  have hused' : (fiveFailures.volume 0).bit (mountedKernel 12 6).sb.inodeBitmapStart.toNat (1 - 1)
      = true := by
    decide +kernel
  refine ⟨hblock, hinode, fun h => ?_, fun h => ?_⟩
  · exact absurd ((h.returned 4 hblock).symm.trans hused) (by decide)
  · exact absurd ((h.returned 1 hinode).symm.trans hused') (by decide)

end IpoOs
