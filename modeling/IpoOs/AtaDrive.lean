import IpoOs.Ata
import IpoOs.Simulation

/-!
# Drives behind the ports

The driver reaches its drives through port instructions. What is behind
them is not in the repository, so it is a parameter: any state and any
port instructions on it. `PioDrive` says what the driver relies on, in
terms of what a drive is in the middle of (its registers, the transfer
that is under way, the sectors on its media) and of the time that it takes,
counted in polls of the status.

A drive shows no error. While nothing is under way it shows BSY exactly as
long as it is not free, and while sectors are moved it shows DRQ exactly
when a word can be moved; what else it shows before that does not matter.
After a command and after each sector this takes fewer polls than the
driver makes. It takes what is written to its registers when it is free;
selecting a device may take as long as the four reads of the other status
register that the driver makes for it. After the last word of a read it is
free at once, which the driver needs, since it writes the registers of the
next command without looking. A flush may come while the drive is still
busy with the last sector written; whether the drive takes it is left open.

Over such a drive `block_read` and `block_write` are accesses to an array of
blocks: the same results in any order of accesses, and on the media nothing
but the blocks of the volume changes.
-/

namespace IpoOs

/-! ## What a drive does

The registers and the media as a record, what one word or one sector does to
it, and the laws that a drive behind the ports has to meet. -/

/-- What a drive is in the middle of: the sector, how many are left with it, and the next word. -/
inductive AtaTransfer where
  | idle
  | reading (sector left word : Nat)
  | writing (sector left word : Nat)

/-- The drives of a channel: the registers, the transfer under way, and the media of master and
slave, words by sector. -/
structure AtaDrive where
  regs : UInt16 → UInt8
  transfer : AtaTransfer
  media : Bool → Nat → Nat → UInt16

namespace AtaDrive

def slave (d : AtaDrive) : Bool := d.regs (ataPrimaryBase + ataRegHddevsel) &&& 0x10 ≠ 0

def setReg (d : AtaDrive) (p : UInt16) (v : UInt8) : AtaDrive :=
  { d with regs := fun q => if q = p then v else d.regs q }

def count (d : AtaDrive) : Nat := (d.regs (ataPrimaryBase + ataRegSeccount0)).toNat

def reads (d : AtaDrive) : AtaDrive :=
  { d with transfer := .reading (sectorAddress d.regs) d.count 0 }

def writes (d : AtaDrive) : AtaDrive :=
  { d with transfer := .writing (sectorAddress d.regs) d.count 0 }

/-- A word was read: after the last one of a sector comes the next sector. -/
def afterRead (d : AtaDrive) (sector left word : Nat) : AtaDrive :=
  if word + 1 < 256 then { d with transfer := .reading sector left (word + 1) }
  else if left ≤ 1 then { d with transfer := .idle }
  else { d with transfer := .reading (sector + 1) (left - 1) 0 }

def afterWrite (d : AtaDrive) (sector left word : Nat) : AtaDrive :=
  if word + 1 < 256 then { d with transfer := .writing sector left (word + 1) }
  else if left ≤ 1 then { d with transfer := .idle }
  else { d with transfer := .writing (sector + 1) (left - 1) 0 }

def store (d : AtaDrive) (sector word : Nat) (v : UInt16) : AtaDrive :=
  { d with media := fun b s w => if b = d.slave ∧ s = sector ∧ w = word then v else d.media b s w }

end AtaDrive

/-- The registers of the count and of the address. -/
def addressRegs : List UInt16 :=
  [ataPrimaryBase + ataRegSeccount0, ataPrimaryBase + ataRegLba0, ataPrimaryBase + ataRegLba1,
    ataPrimaryBase + ataRegLba2]

/-- Port instructions with a drive behind them that the driver can rely on. `busy` is how many polls
of the status it is until the drive is free, or has a word to move. -/
structure PioDrive {σ : Type} (io : PortDev σ) where
  drive : σ → AtaDrive
  busy : σ → Nat
  -- the status register
  status_drive : ∀ s, drive (io.inb (ataPrimaryBase + ataRegStatus) s).2 = drive s
  status_busy : ∀ s, busy (io.inb (ataPrimaryBase + ataRegStatus) s).2 ≤ busy s - 1
  no_error : ∀ s, (io.inb (ataPrimaryBase + ataRegStatus) s).1 &&& 0x01 = 0
  bsy : ∀ s, (drive s).transfer = .idle →
    ((io.inb (ataPrimaryBase + ataRegStatus) s).1 &&& 0x80 = 0 ↔ busy s = 0)
  drq : ∀ s, (drive s).transfer ≠ .idle →
    ((io.inb (ataPrimaryBase + ataRegStatus) s).1 &&& 0x08 ≠ 0 ↔ busy s = 0)
  -- the other status register
  alternate_drive : ∀ s, drive (io.inb ataPrimaryCtrl s).2 = drive s
  alternate_busy : ∀ s, busy (io.inb ataPrimaryCtrl s).2 ≤ busy s - 1
  -- the registers of a drive that is free
  select : ∀ s v, (drive s).transfer = .idle → busy s = 0 →
    drive (io.outb (ataPrimaryBase + ataRegHddevsel) v s).2
        = (drive s).setReg (ataPrimaryBase + ataRegHddevsel) v
      ∧ busy (io.outb (ataPrimaryBase + ataRegHddevsel) v s).2 ≤ 4
  register : ∀ s v, ∀ p ∈ addressRegs, (drive s).transfer = .idle → busy s = 0 →
    drive (io.outb p v s).2 = (drive s).setReg p v ∧ busy (io.outb p v s).2 = 0
  -- the commands
  read : ∀ s, (drive s).transfer = .idle → busy s = 0 → (drive s).count ≠ 0 →
    drive (io.outb (ataPrimaryBase + ataRegCommand) 0x20 s).2 = (drive s).reads
      ∧ busy (io.outb (ataPrimaryBase + ataRegCommand) 0x20 s).2 < 100000
  write : ∀ s, (drive s).transfer = .idle → busy s = 0 → (drive s).count ≠ 0 →
    drive (io.outb (ataPrimaryBase + ataRegCommand) 0x30 s).2 = (drive s).writes
      ∧ busy (io.outb (ataPrimaryBase + ataRegCommand) 0x30 s).2 < 100000
  flush : ∀ s, (drive s).transfer = .idle → busy s < 100000 →
    drive (io.outb (ataPrimaryBase + ataRegCommand) 0xE7 s).2 = drive s
      ∧ busy (io.outb (ataPrimaryBase + ataRegCommand) 0xE7 s).2 < 100000
  -- the words of a sector
  readWord : ∀ s sector left word, (drive s).transfer = .reading sector left word → busy s = 0 →
    (io.inw (ataPrimaryBase + ataRegData) s).1 = (drive s).media (drive s).slave sector word
      ∧ drive (io.inw (ataPrimaryBase + ataRegData) s).2 = (drive s).afterRead sector left word
      ∧ busy (io.inw (ataPrimaryBase + ataRegData) s).2 < 100000
      ∧ (word < 255 ∨ left ≤ 1 → busy (io.inw (ataPrimaryBase + ataRegData) s).2 = 0)
  writeWord : ∀ s v sector left word, (drive s).transfer = .writing sector left word → busy s = 0 →
    drive (io.outw (ataPrimaryBase + ataRegData) v s).2
        = ((drive s).store sector word v).afterWrite sector left word
      ∧ busy (io.outw (ataPrimaryBase + ataRegData) v s).2 < 100000
      ∧ (word < 255 → busy (io.outw (ataPrimaryBase + ataRegData) v s).2 = 0)

namespace PioDrive

variable {σ : Type} {io : PortDev σ} (P : PioDrive io) {s : σ}

/-- Nothing is under way, and the drive is free. -/
structure Ready (s : σ) : Prop where
  idle : (P.drive s).transfer = .idle
  free : P.busy s = 0

/-! ## Waiting

The waits of the driver end, with the drive ready. -/

theorem ioWait (s : σ) :
    P.drive (ataIoWait io s).2 = P.drive s ∧ P.busy (ataIoWait io s).2 ≤ P.busy s - 4 := by
  obtain ⟨s₁, h₁⟩ : ∃ t, t = (io.inb ataPrimaryCtrl s).2 := ⟨_, rfl⟩
  obtain ⟨s₂, h₂⟩ : ∃ t, t = (io.inb ataPrimaryCtrl s₁).2 := ⟨_, rfl⟩
  obtain ⟨s₃, h₃⟩ : ∃ t, t = (io.inb ataPrimaryCtrl s₂).2 := ⟨_, rfl⟩
  have hrun : (ataIoWait io s).2 = (io.inb ataPrimaryCtrl s₃).2 := by
    rw [h₃, h₂, h₁]
    rfl
  have hb₁ := P.alternate_busy s
  have hb₂ := P.alternate_busy s₁
  have hb₃ := P.alternate_busy s₂
  have hb₄ := P.alternate_busy s₃
  rw [← h₁] at hb₁
  rw [← h₂] at hb₂
  rw [← h₃] at hb₃
  rw [hrun]
  refine ⟨?_, by omega⟩
  rw [P.alternate_drive, h₃, P.alternate_drive, h₂, P.alternate_drive, h₁, P.alternate_drive]

theorem waitBsyClear {n : Nat} (hidle : (P.drive s).transfer = .idle) (h : P.busy s < n) :
    ∃ s', ataWaitBsyClear io ataPrimaryBase n s = (true, s') ∧ P.drive s' = P.drive s
      ∧ P.busy s' = 0 := by
  induction n generalizing s with
  | zero => omega
  | succ n ih =>
      have hdrive := P.status_drive s
      have hbusy := P.status_busy s
      rw [ataWaitBsyClear, Prog.run_bind, Prog.run_ite]
      rcases em (P.busy s = 0) with h0 | hpos
      · rw [if_pos ((P.bsy s hidle).mpr h0)]
        exact ⟨_, rfl, hdrive, by omega⟩
      · rw [if_neg fun hc => hpos ((P.bsy s hidle).mp hc)]
        obtain ⟨s', hrun, hd', h0⟩ := ih (hdrive ▸ hidle) (by omega)
        exact ⟨s', hrun, hd'.trans hdrive, h0⟩

theorem waitDrq {n : Nat} (hmove : (P.drive s).transfer ≠ .idle) (h : P.busy s < n) :
    ∃ s', ataWaitDrq io ataPrimaryBase n s = (true, s') ∧ P.drive s' = P.drive s
        ∧ P.busy s' = 0 := by
  induction n generalizing s with
  | zero => omega
  | succ n ih =>
      have hdrive := P.status_drive s
      have hbusy := P.status_busy s
      rw [ataWaitDrq, Prog.run_bind, Prog.run_ite, if_neg (not_not.mpr (P.no_error s)),
        Prog.run_ite]
      rcases em (P.busy s = 0) with h0 | hpos
      · rw [if_pos ((P.drq s hmove).mpr h0)]
        exact ⟨_, rfl, hdrive, by omega⟩
      · rw [if_neg fun hc => hpos ((P.drq s hmove).mp hc), Prog.run_bind]
        obtain ⟨hd₁, hb₁⟩ := P.ioWait (io.inb (ataPrimaryBase + ataRegStatus) s).2
        rw [hdrive] at hd₁
        obtain ⟨s', hrun, hd', h0⟩ := ih (hd₁ ▸ hmove) (by omega)
        exact ⟨s', hrun, hd'.trans hd₁, h0⟩

end PioDrive

/-! ## Words and sectors

The loops over words and sectors, each word moved at its place. -/

section

variable {d : AtaDrive} {sector left : Nat}

theorem AtaDrive.afterRead_next (d : AtaDrive) (sector left : Nat) :
    d.afterRead sector (left + 2) 255
        = { d with transfer := .reading (sector + 1) (left + 1) 0 } := by
  unfold AtaDrive.afterRead
  rw [if_neg (by decide), if_neg (by omega)]
  rfl

theorem ataReadData_step {σ : Type} {io : PortDev σ} {base : UInt16} {n s : Nat} {buf : Words}
    {t t' : σ} (h : ataWaitDrq io base 100000 t = (true, t')) :
    ataReadData io base (n + 1) s buf t
      = ataReadData io base n (s + 1) (ataReadWords io base 256 (256 * s) buf t').1
        (ataReadWords io base 256 (256 * s) buf t').2 := by
  have hwait : ∀ x : Prog σ Bool, x t = (true, t') → (do
      if ← x then do
        let buf' ← ataReadWords io base 256 (256 * s) buf
        ataReadData io base n (s + 1) buf'
      else pure (false, buf)) t
        = ataReadData io base n (s + 1) (ataReadWords io base 256 (256 * s) buf t').1
          (ataReadWords io base 256 (256 * s) buf t').2 := by
    intro x hx
    rw [Prog.run_bind, hx, if_pos rfl, Prog.run_bind]
  exact hwait _ h

/-- Words `256 * s` on of a buffer, `n` sectors of them, from the medium. -/
def AtaDrive.fill (d : AtaDrive) (sector n s : Nat) (buf : Words) : Words := fun j =>
  if 256 * s ≤ j ∧ j < 256 * (s + n) then d.media d.slave (sector + (j / 256 - s)) (j % 256)
  else buf j

theorem AtaDrive.fill_one (d : AtaDrive) (sector s : Nat) (buf : Words) :
    (fun j => if 256 * s ≤ j ∧ j < 256 * s + 256 then d.media d.slave sector (0 + (j - 256 * s))
      else buf j) = d.fill sector 1 s buf := by
  funext j
  unfold AtaDrive.fill
  rcases em (256 * s ≤ j ∧ j < 256 * s + 256) with hin | hout
  · rw [if_pos hin, if_pos (by omega), show j / 256 = s by omega, Nat.sub_self,
      show j % 256 = 0 + (j - 256 * s) by omega, Nat.add_zero]
  · rw [if_neg hout, if_neg (by omega)]

theorem AtaDrive.fill_succ {e : AtaDrive} (hmedia : e.media = d.media) (hslave : e.slave = d.slave)
    (n s : Nat) (buf : Words) :
    e.fill (sector + 1) n (s + 1) (d.fill sector 1 s buf) = d.fill sector (n + 1) s buf := by
  funext j
  unfold AtaDrive.fill
  rw [hmedia, hslave]
  rcases Nat.lt_or_ge j (256 * (s + 1)) with hfirst | hlater
  · rw [if_neg (by omega)]
    rcases Nat.lt_or_ge j (256 * s) with hbefore | hat
    · rw [if_neg (by omega), if_neg (by omega)]
    · rw [if_pos ⟨hat, hfirst⟩, if_pos ⟨hat, by omega⟩]
  · rcases Nat.lt_or_ge j (256 * (s + (n + 1))) with hin | hafter
    · rw [if_pos ⟨hlater, by omega⟩, if_pos ⟨by omega, hin⟩,
        show sector + 1 + (j / 256 - (s + 1)) = sector + (j / 256 - s) by omega]
    · rw [if_neg (by omega), if_neg (by omega), if_neg (by omega)]

theorem AtaDrive.afterWrite_next (d : AtaDrive) (sector left : Nat) :
    d.afterWrite sector (left + 2) 255
        = { d with transfer := .writing (sector + 1) (left + 1) 0 } := by
  unfold AtaDrive.afterWrite
  rw [if_neg (by decide), if_neg (by omega)]
  rfl

theorem ataWaitWrite_ready {σ : Type} {io : PortDev σ} {base : UInt16} {t t' : σ}
    (h : ataWaitDrq io base 100000 t = (true, t')) : ataWaitWrite io base t = (true, t') := by
  unfold ataWaitWrite
  rw [Prog.run_bind, h, if_pos rfl, Prog.run_pure]

theorem ataWriteData_step {σ : Type} {io : PortDev σ} {base : UInt16} {n s : Nat} {buf : Words}
    {t t' : σ} (h : ataWaitWrite io base t = (true, t')) :
    ataWriteData io base (n + 1) s buf t
      = ataWriteData io base n (s + 1) buf
        (ataIoWait io (ataWriteWords io base 256 (256 * s) buf t').2).2 := by
  have hbranch : ∀ y : Prog σ Bool, (if (ataWaitWrite io base t).1 then (do
        ataWriteWords io base 256 (256 * s) buf
        ataIoWait io
        y : Prog σ Bool) else pure false) (ataWaitWrite io base t).2
      = y (ataIoWait io (ataWriteWords io base 256 (256 * s) buf t').2).2 := by
    intro y
    rw [h, if_pos rfl, Prog.run_bind, Prog.run_bind]
  exact hbranch (ataWriteData io base n (s + 1) buf)

/-- The media after `n` sectors of a buffer, from word `256 * s` on, are written. -/
def AtaDrive.written (d : AtaDrive) (sector n s : Nat) (buf : Words) :
    Bool → Nat → Nat → UInt16 := fun b t w =>
  if b = d.slave ∧ sector ≤ t ∧ t < sector + n ∧ w < 256 then
    buf (256 * (s + (t - sector)) + w)
  else d.media b t w

theorem AtaDrive.written_one (d : AtaDrive) (sector s : Nat) (buf : Words) :
    (fun b t w => if b = d.slave ∧ t = sector ∧ 0 ≤ w ∧ w < 256 then buf (256 * s + (w - 0))
      else d.media b t w) = d.written sector 1 s buf := by
  funext b t w
  unfold AtaDrive.written
  rcases em (b = d.slave ∧ t = sector ∧ 0 ≤ w ∧ w < 256) with ⟨hb, rfl, hzero, hw⟩ | hother
  · rw [if_pos ⟨hb, rfl, hzero, hw⟩, if_pos ⟨hb, Nat.le_refl _, Nat.lt_succ_self _, hw⟩,
      Nat.sub_self, Nat.sub_zero, Nat.add_zero]
  · rw [if_neg hother, if_neg fun hc => hother ⟨hc.1, by omega, Nat.zero_le _, hc.2.2.2⟩]

theorem AtaDrive.written_succ {e : AtaDrive} (n s : Nat) (buf : Words)
    (hmedia : e.media = d.written sector 1 s buf) (hslave : e.slave = d.slave) :
    e.written (sector + 1) n (s + 1) buf = d.written sector (n + 1) s buf := by
  funext b t w
  unfold AtaDrive.written
  rw [hmedia, hslave]
  unfold AtaDrive.written
  rcases em (b = d.slave ∧ sector + 1 ≤ t ∧ t < sector + 1 + n ∧ w < 256) with hlater | hno
  · rw [if_pos hlater, if_pos ⟨hlater.1, by omega, by omega, hlater.2.2.2⟩,
      show s + 1 + (t - (sector + 1)) = s + (t - sector) by omega]
  · rw [if_neg hno]
    rcases em (b = d.slave ∧ sector ≤ t ∧ t < sector + 1 ∧ w < 256) with hfirst | hother
    · rw [if_pos hfirst, if_pos ⟨hfirst.1, hfirst.2.1, by omega, hfirst.2.2.2⟩]
    · rw [if_neg hother, if_neg fun hc => hc.2.1.eq_or_lt.elim
        (fun he => hother ⟨hc.1, hc.2.1, by omega, hc.2.2.2⟩)
        fun hlt => hno ⟨hc.1, hlt, by omega, hc.2.2.2⟩]

end

namespace PioDrive

variable {σ : Type} {io : PortDev σ} (P : PioDrive io) {s : σ} {sector left : Nat}

theorem readWords {n : Nat} (i : Nat) (buf : Words) (hn : 0 < n) {word : Nat}
    (hword : word + n = 256)
    (h0 : P.busy s = 0) (ht : (P.drive s).transfer = .reading sector left word) :
    ∃ s', ataReadWords io ataPrimaryBase n i buf s
        = (fun j => if i ≤ j ∧ j < i + n then
            (P.drive s).media (P.drive s).slave sector (word + (j - i)) else buf j, s')
      ∧ P.drive s' = (P.drive s).afterRead sector left 255 ∧ P.busy s' < 100000
      ∧ (left ≤ 1 → P.busy s' = 0) := by
  induction n generalizing s i buf word with
  | zero => omega
  | succ n ih =>
      obtain ⟨hval, hdrive, hshort, hfree⟩ := P.readWord s sector left word ht h0
      rw [ataReadWords, Prog.run_bind, hval]
      generalize (io.inw (ataPrimaryBase + ataRegData) s).2 = s₁ at hdrive hshort hfree
      rcases Nat.eq_zero_or_pos n with rfl | hpos
      · obtain rfl : word = 255 := by omega
        rw [ataReadWords, Prog.run_pure]
        refine ⟨s₁, Prod.ext (funext fun j => ?_) rfl, hdrive, hshort, fun hl => hfree (Or.inr hl)⟩
        dsimp only
        rcases em (j = i) with rfl | hne
        · rw [if_pos rfl, if_pos ⟨Nat.le_refl _, by omega⟩, Nat.sub_self]
        · rw [if_neg hne, if_neg (by omega)]
      · have hmore : P.drive s₁ = { P.drive s with transfer := .reading sector left (word + 1) } :=
          hdrive.trans (if_pos (by omega))
        obtain ⟨s', hrun, hd', hrest⟩ := @ih s₁ (i + 1)
          (fun j => if j = i then (P.drive s).media (P.drive s).slave sector word else buf j) hpos
          (word + 1) (by omega) (hfree (Or.inl (by omega))) (by rw [hmore])
        rw [hmore] at hrun hd'
        refine ⟨s', hrun.trans (Prod.ext (funext fun j => ?_) rfl), hd', hrest⟩
        dsimp only
        rcases Nat.lt_trichotomy j i with hlt | rfl | hgt
        · rw [if_neg (by omega), if_neg (by omega), if_neg (by omega)]
        · rw [if_neg (by omega), if_pos rfl, if_pos ⟨Nat.le_refl _, by omega⟩, Nat.sub_self]
          rfl
        · rcases Nat.lt_or_ge j (i + 1 + n) with hin | hout
          · rw [if_pos ⟨hgt, hin⟩, if_pos ⟨by omega, by omega⟩,
              show word + 1 + (j - (i + 1)) = word + (j - i) by omega]
            rfl
          · rw [if_neg (by omega), if_neg (by omega), if_neg (by omega)]

/-- One sector is read, however long the drive makes the driver wait for it. -/
theorem readSector (n k : Nat) (buf : Words) (hbusy : P.busy s < 100000)
    (ht : (P.drive s).transfer = .reading sector left 0) :
    ∃ s', ataReadData io ataPrimaryBase (n + 1) k buf s
        = ataReadData io ataPrimaryBase n (k + 1) ((P.drive s).fill sector 1 k buf) s'
      ∧ P.drive s' = (P.drive s).afterRead sector left 255 ∧ P.busy s' < 100000
      ∧ (left ≤ 1 → P.busy s' = 0) := by
  have hmove : (P.drive s).transfer ≠ .idle := by
    rw [ht]
    exact AtaTransfer.noConfusion
  obtain ⟨s₁, hwait, hdrive, h0⟩ := P.waitDrq hmove hbusy
  obtain ⟨s', hwords, hd', hrest⟩ := P.readWords (s := s₁) (n := 256) (256 * k) buf (by decide)
    (Nat.zero_add 256) h0 (hdrive ▸ ht)
  rw [hdrive] at hwords hd'
  rw [AtaDrive.fill_one] at hwords
  refine ⟨s', ?_, hd', hrest⟩
  rw [ataReadData_step hwait, hwords]

theorem readData (k : Nat) (buf : Words) (hbusy : P.busy s < 100000)
    (ht : (P.drive s).transfer = .reading sector (left + 1) 0) :
    ∃ s', ataReadData io ataPrimaryBase (left + 1) k buf s
        = ((true, (P.drive s).fill sector (left + 1) k buf), s')
      ∧ P.Ready s' ∧ (P.drive s').media = (P.drive s).media := by
  induction left generalizing s k buf sector with
  | zero =>
      obtain ⟨s', hrun, hdrive, -, hfree⟩ := P.readSector 0 k buf hbusy ht
      refine ⟨s', hrun, ⟨?_, hfree (Nat.le_refl 1)⟩, ?_⟩
      · rw [hdrive]
        rfl
      · rw [hdrive]
        rfl
  | succ left ih =>
      obtain ⟨s₁, hrun, hdrive, hshort, -⟩ := P.readSector (left + 1) k buf hbusy ht
      rw [AtaDrive.afterRead_next] at hdrive
      obtain ⟨s', hrest, hready, hmedia⟩ := @ih s₁ (sector + 1) (k + 1)
        ((P.drive s).fill sector 1 k buf) hshort (by rw [hdrive])
      refine ⟨s', ?_, hready, hmedia.trans (by rw [hdrive])⟩
      rw [hrun, hrest]
      exact congrArg (fun words => ((true, words), s'))
        (AtaDrive.fill_succ (by rw [hdrive]) (by rw [hdrive]; rfl) (left + 1) k buf)

theorem writeWords {n : Nat} (i : Nat) (buf : Words) (hn : 0 < n) {word : Nat}
    (hword : word + n = 256)
    (h0 : P.busy s = 0) (ht : (P.drive s).transfer = .writing sector left word) :
    P.drive (ataWriteWords io ataPrimaryBase n i buf s).2 = AtaDrive.afterWrite
        { P.drive s with
          media := fun b t w =>
            if b = (P.drive s).slave ∧ t = sector ∧ word ≤ w ∧ w < 256 then buf (i + (w - word))
            else (P.drive s).media b t w }
        sector left 255
      ∧ P.busy (ataWriteWords io ataPrimaryBase n i buf s).2 < 100000 := by
  induction n generalizing s i word with
  | zero => omega
  | succ n ih =>
      obtain ⟨hdrive, hshort, hfree⟩ := P.writeWord s (buf i) sector left word ht h0
      rw [ataWriteWords, Prog.run_bind]
      generalize (io.outw (ataPrimaryBase + ataRegData) (buf i) s).2 = s₁ at hdrive hshort hfree
      rcases Nat.eq_zero_or_pos n with rfl | hpos
      · obtain rfl : word = 255 := by omega
        refine ⟨hdrive.trans ?_, hshort⟩
        refine congrArg
          (fun m => AtaDrive.afterWrite { P.drive s with media := m } sector left 255) ?_
        funext b t w
        rcases em (b = (P.drive s).slave ∧ t = sector ∧ w = 255) with hthis | hother
        · rw [if_pos hthis, if_pos ⟨hthis.1, hthis.2.1, by omega, by omega⟩, hthis.2.2]
          rfl
        · rw [if_neg hother, if_neg fun hc => hother ⟨hc.1, hc.2.1, by omega⟩]
      · have hmore : P.drive s₁ = { (P.drive s).store sector word (buf i) with
            transfer := .writing sector left (word + 1) } := hdrive.trans (if_pos (by omega))
        obtain ⟨hd', hrest⟩ :=
          @ih s₁ (i + 1) hpos (word + 1) (by omega) (hfree (by omega)) (by rw [hmore])
        rw [hmore] at hd'
        refine ⟨hd'.trans ?_, hrest⟩
        refine congrArg
          (fun m => AtaDrive.afterWrite { P.drive s with media := m } sector left 255) ?_
        funext b t w
        show (if b = (P.drive s).slave ∧ t = sector ∧ word + 1 ≤ w ∧ w < 256 then
            buf (i + 1 + (w - (word + 1))) else ((P.drive s).store sector word (buf i)).media b t w)
              = _
        rcases em (b = (P.drive s).slave ∧ t = sector ∧ word + 1 ≤ w ∧ w < 256) with hlater | hno
        · rw [if_pos hlater, if_pos ⟨hlater.1, hlater.2.1, by omega, hlater.2.2.2⟩,
            show i + 1 + (w - (word + 1)) = i + (w - word) by omega]
        · unfold AtaDrive.store
          dsimp only
          rw [if_neg hno]
          rcases em (b = (P.drive s).slave ∧ t = sector ∧ w = word) with hthis | hother
          · rw [if_pos hthis, if_pos ⟨hthis.1, hthis.2.1, by omega, by omega⟩, hthis.2.2,
              Nat.sub_self]
            rfl
          · rw [if_neg hother, if_neg fun hc => hc.2.2.1.eq_or_lt.elim
              (fun he => hother ⟨hc.1, hc.2.1, he.symm⟩)
              fun hlt => hno ⟨hc.1, hc.2.1, hlt, hc.2.2.2⟩]

/-- One sector is written, however long the drive makes the driver wait for it. -/
theorem writeSector (n k : Nat) (buf : Words) (hbusy : P.busy s < 100000)
    (ht : (P.drive s).transfer = .writing sector left 0) :
    ∃ s', ataWriteData io ataPrimaryBase (n + 1) k buf s
      = ataWriteData io ataPrimaryBase n (k + 1) buf s'
      ∧ P.drive s'
        = AtaDrive.afterWrite { P.drive s with media := (P.drive s).written sector 1 k buf }
        sector left 255
      ∧ P.busy s' < 100000 := by
  have hmove : (P.drive s).transfer ≠ .idle := by
    rw [ht]
    exact AtaTransfer.noConfusion
  obtain ⟨s₁, hwait, hdrive, h0⟩ := P.waitDrq hmove hbusy
  obtain ⟨hd₂, hb₂⟩ :=
    P.writeWords (s := s₁) (n := 256) (256 * k) buf (by decide) (Nat.zero_add 256) h0
    (hdrive ▸ ht)
  obtain ⟨hd₃, hb₃⟩ := P.ioWait (ataWriteWords io ataPrimaryBase 256 (256 * k) buf s₁).2
  rw [hdrive, AtaDrive.written_one] at hd₂
  exact ⟨_, ataWriteData_step (ataWaitWrite_ready hwait), hd₃.trans hd₂, by omega⟩

/-- The sectors that are left are written. The drive may then be busy. -/
theorem writeData (k : Nat) (buf : Words) (hbusy : P.busy s < 100000)
    (ht : (P.drive s).transfer = .writing sector (left + 1) 0) :
    ∃ s', ataWriteData io ataPrimaryBase (left + 1) k buf s = (true, s')
      ∧ (P.drive s').media = (P.drive s).written sector (left + 1) k buf
      ∧ (P.drive s').transfer = .idle ∧ P.busy s' < 100000 := by
  induction left generalizing s k sector with
  | zero =>
      obtain ⟨s', hrun, hdrive, hshort⟩ := P.writeSector 0 k buf hbusy ht
      refine ⟨s', hrun, ?_, ?_, hshort⟩
      · rw [hdrive]
        rfl
      · rw [hdrive]
        rfl
  | succ left ih =>
      obtain ⟨s₁, hrun, hdrive, hshort⟩ := P.writeSector (left + 1) k buf hbusy ht
      rw [AtaDrive.afterWrite_next] at hdrive
      obtain ⟨s', hrest, hmedia, hidle⟩ := @ih s₁ (sector + 1) (k + 1) hshort (by rw [hdrive])
      refine ⟨s', hrun.trans hrest, hmedia.trans ?_, hidle⟩
      exact AtaDrive.written_succ (left + 1) k buf (by rw [hdrive]) (by rw [hdrive]; rfl)

/-- The flush waits until the drive is free, and finds no error. -/
theorem flushes (hidle : (P.drive s).transfer = .idle) (hbusy : P.busy s < 100000) :
    ∃ s', ataFlush io ataPrimaryBase s = (true, s') ∧ P.Ready s' ∧ P.drive s' = P.drive s := by
  obtain ⟨hd₁, hb₁⟩ := P.flush s hidle hbusy
  obtain ⟨s₁, h₁⟩ : ∃ t, t = (io.outb (ataPrimaryBase + ataRegCommand) 0xE7 s).2 := ⟨_, rfl⟩
  rw [← h₁] at hd₁ hb₁
  obtain ⟨hd₂, hb₂⟩ := P.ioWait s₁
  have hsame : P.drive (ataIoWait io s₁).2 = P.drive s := hd₂.trans hd₁
  obtain ⟨s₃, hwait, hd₃, h0⟩ := P.waitBsyClear (n := 100000) (hsame ▸ hidle) (by omega)
  have hd₄ := P.status_drive s₃
  have hb₄ := P.status_busy s₃
  have hdrive : P.drive (io.inb (ataPrimaryBase + ataRegStatus) s₃).2 = P.drive s :=
    hd₄.trans (hd₃.trans hsame)
  refine ⟨(io.inb (ataPrimaryBase + ataRegStatus) s₃).2, ?_, ⟨hdrive ▸ hidle, by omega⟩, hdrive⟩
  rw [ataFlush, Prog.run_bind, ← h₁, Prog.run_bind, Prog.run_bind, hwait, if_pos rfl, Prog.run_bind]
  exact congrArg (·, _) (decide_eq_true (P.no_error s₃))

end PioDrive

/-! ## Transfers

A command set up and carried through. -/

/-- The registers after a transfer is set up. -/
def AtaDrive.selected (d : AtaDrive) (deviceCount : UInt8) (lba : UInt32) (count : UInt8) :
    AtaDrive :=
  ((((d.setReg (ataPrimaryBase + ataRegHddevsel) ((0xE0 : UInt8)
      ||| (if deviceCount > 1 then (0x10 : UInt8) else 0x00) ||| ((lba >>> 24)
        &&& 0x0F).toUInt8)).setReg
    (ataPrimaryBase + ataRegSeccount0) count).setReg
    (ataPrimaryBase + ataRegLba0) (lba &&& 0xFF).toUInt8).setReg
    (ataPrimaryBase + ataRegLba1) ((lba >>> 8) &&& 0xFF).toUInt8).setReg
    (ataPrimaryBase + ataRegLba2) ((lba >>> 16) &&& 0xFF).toUInt8

section

variable {d : AtaDrive} {deviceCount count : UInt8} {lba : UInt32}

theorem AtaDrive.selected_address (d : AtaDrive) :
    sectorAddress (d.selected deviceCount lba count).regs = lba.toNat % 268435456 :=
  @ataSelect_address Unit ⟨fun _ => pure 0, fun _ _ => pure (), fun _ => pure 0, fun _ _ => pure ()⟩
    deviceCount lba count (d.regs, ())

theorem AtaDrive.selected_count (d : AtaDrive) :
    (d.selected deviceCount lba count).regs (ataPrimaryBase + ataRegSeccount0) = count := rfl

theorem AtaDrive.selected_slave (d : AtaDrive) :
    (d.selected deviceCount lba count).slave = decide (deviceCount > 1) := by
  have hall : ∀ x < 16, (0xE0 ||| (0x10 : UInt8) ||| UInt8.ofNat x) &&& 0x10 ≠ 0
      ∧ ¬ (0xE0 ||| (0x00 : UInt8) ||| UInt8.ofNat x) &&& 0x10 ≠ 0 := by decide
  have h16 : ((lba >>> 24) &&& 0x0F).toUInt8.toNat < 16 := by
    rw [UInt32.toNat_toUInt8, UInt32.toNat_and]
    have hand : (lba >>> 24).toNat &&& (0x0F : UInt32).toNat = (lba >>> 24).toNat % 16 :=
      Nat.and_two_pow_sub_one_eq_mod _ 4
    omega
  have hx : ((lba >>> 24) &&& 0x0F).toUInt8 = UInt8.ofNat ((lba >>> 24) &&& 0x0F).toUInt8.toNat :=
    UInt8.ofNat_toNat.symm
  show decide (((0xE0 : UInt8) ||| (if deviceCount > 1 then (0x10 : UInt8) else 0x00)
    ||| ((lba >>> 24) &&& 0x0F).toUInt8) &&& 0x10 ≠ 0) = _
  rw [hx]
  rcases em (deviceCount > 1) with htwo | hone
  · rw [if_pos htwo, decide_eq_true htwo, decide_eq_true (hall _ h16).1]
  · rw [if_neg hone, decide_eq_false hone, decide_eq_false (hall _ h16).2]

end

namespace PioDrive

variable {σ : Type} {io : PortDev σ} (P : PioDrive io) {s : σ} {deviceCount count : UInt8}
    {lba : UInt32}

theorem selects (deviceCount count : UInt8) (lba : UInt32) (hs : P.Ready s) :
    P.drive (ataSelect io deviceCount ataPrimaryBase lba count s).2
        = (P.drive s).selected deviceCount lba count
      ∧ P.Ready (ataSelect io deviceCount ataPrimaryBase lba count s).2 := by
  have hreg : ∀ (t : σ) (d : AtaDrive) (p : UInt16) (v : UInt8), p ∈ addressRegs →
      P.drive t = d ∧ P.Ready t → P.drive (io.outb p v t).2 = d.setReg p v
          ∧ P.Ready (io.outb p v t).2 := by
    rintro t d p v hp ⟨rfl, ht⟩
    obtain ⟨hdrive, hfree⟩ := P.register t v p hp ht.idle ht.free
    exact ⟨hdrive, by rw [hdrive]; exact ht.idle, hfree⟩
  obtain ⟨v, hv⟩ : ∃ v, v = (0xE0 : UInt8) ||| (if deviceCount > 1 then (0x10 : UInt8) else 0x00)
      ||| ((lba >>> 24) &&& 0x0F).toUInt8 := ⟨_, rfl⟩
  obtain ⟨hd₁, hb₁⟩ := P.select s v hs.idle hs.free
  obtain ⟨hd₂, hb₂⟩ := P.ioWait (io.outb (ataPrimaryBase + ataRegHddevsel) v s).2
  have hfirst : P.drive (ataIoWait io (io.outb (ataPrimaryBase + ataRegHddevsel) v s).2).2
        = (P.drive s).setReg (ataPrimaryBase + ataRegHddevsel) v
      ∧ P.Ready (ataIoWait io (io.outb (ataPrimaryBase + ataRegHddevsel) v s).2).2 := by
    have hdrive := hd₂.trans hd₁
    exact ⟨hdrive, by rw [hdrive]; exact hs.idle, by omega⟩
  have hcount := hreg _ _ (ataPrimaryBase + ataRegSeccount0) count (by decide) hfirst
  have hlba0 := hreg _ _ (ataPrimaryBase + ataRegLba0) (lba &&& 0xFF).toUInt8 (by decide) hcount
  have hlba1 :=
    hreg _ _ (ataPrimaryBase + ataRegLba1) ((lba >>> 8) &&& 0xFF).toUInt8 (by decide) hlba0
  have hlba2 :=
    hreg _ _ (ataPrimaryBase + ataRegLba2) ((lba >>> 16) &&& 0xFF).toUInt8 (by decide) hlba1
  rw [hv] at hlba2
  exact hlba2

theorem sets_up (deviceCount count : UInt8) (lba : UInt32) (hs : P.Ready s) :
    ∃ s', ataWaitBsyClear io ataPrimaryBase 100000
      (ataSelect io deviceCount ataPrimaryBase lba count s).2
        = (true, s')
      ∧ P.drive s' = (P.drive s).selected deviceCount lba count ∧ P.Ready s' := by
  obtain ⟨hdrive, hready⟩ := P.selects deviceCount count lba hs
  obtain ⟨s', hwait, hd', h0⟩ :=
    P.waitBsyClear (n := 100000) hready.idle (by rw [hready.free]; decide)
  exact ⟨s', hwait, hd'.trans hdrive, by rw [hd']; exact hready.idle, h0⟩

theorem readSectors (hs : P.Ready s) (hdev : deviceCount ≠ 0) (hcount : count ≠ 0) (buf : Words) :
    ∃ s', ataReadSectorsLba28 io deviceCount lba count buf s
        = ((true, fun j => if j < 256 * count.toNat then
            (P.drive s).media (decide (deviceCount > 1)) (lba.toNat % 268435456 + j / 256) (j % 256)
          else buf j), s')
      ∧ P.Ready s' ∧ (P.drive s').media = (P.drive s).media := by
  obtain ⟨left, hleft⟩ : ∃ left, count.toNat = left + 1 :=
    Nat.exists_eq_succ_of_ne_zero fun hc => hcount (UInt8.toNat_inj.mp hc)
  obtain ⟨s₁, hwait, hd₁, hready₁⟩ := P.sets_up deviceCount count lba hs
  have hsectors : (P.drive s₁).count = left + 1 := by
    rw [hd₁]
    exact hleft
  obtain ⟨hd₂, hb₂⟩ := P.read s₁ hready₁.idle hready₁.free (by omega)
  have htransfer : (P.drive (io.outb (ataPrimaryBase + ataRegCommand) 0x20 s₁).2).transfer
      = .reading (lba.toNat % 268435456) (left + 1) 0 := by
    rw [hd₂]
    show AtaTransfer.reading (sectorAddress (P.drive s₁).regs) (P.drive s₁).count 0 = _
    rw [hsectors, hd₁, AtaDrive.selected_address]
  obtain ⟨s', hread, hready', hmedia⟩ := P.readData 0 buf hb₂ htransfer
  have hsame : (P.drive (io.outb (ataPrimaryBase + ataRegCommand) 0x20 s₁).2).media
      = (P.drive s).media := by
    rw [hd₂, AtaDrive.reads, hd₁]
    rfl
  have hslave : (P.drive (io.outb (ataPrimaryBase + ataRegCommand) 0x20 s₁).2).slave
      = decide (deviceCount > 1) := by
    rw [hd₂, AtaDrive.reads, hd₁]
    exact @AtaDrive.selected_slave deviceCount count lba (P.drive s)
  refine ⟨s', ?_, hready', hmedia.trans hsame⟩
  rw [ataReadSectorsLba28, if_neg hcount, if_neg hdev, Prog.run_bind, Prog.run_bind, hwait,
    if_pos rfl, Prog.run_bind, hleft]
  refine hread.trans (Prod.ext (Prod.ext rfl (funext fun j => ?_)) rfl)
  unfold AtaDrive.fill
  rw [hsame, hslave]
  dsimp only
  rw [Nat.sub_zero]
  rcases Nat.lt_or_ge j (256 * (left + 1)) with hin | hout
  · rw [if_pos ⟨by omega, by omega⟩, if_pos hin]
  · rw [if_neg (by omega), if_neg (by omega)]

theorem writeSectors (hs : P.Ready s) (hdev : deviceCount ≠ 0) (hcount : count ≠ 0) (buf : Words) :
    ∃ s', ataWriteSectorsLba28 io deviceCount lba count buf s = (true, s') ∧ P.Ready s'
      ∧ (P.drive s').media = fun b t w =>
        if b = decide (deviceCount > 1) ∧ lba.toNat % 268435456 ≤ t
          ∧ t < lba.toNat % 268435456 + count.toNat ∧ w < 256
        then buf (256 * (t - lba.toNat % 268435456) + w) else (P.drive s).media b t w := by
  obtain ⟨left, hleft⟩ : ∃ left, count.toNat = left + 1 :=
    Nat.exists_eq_succ_of_ne_zero fun hc => hcount (UInt8.toNat_inj.mp hc)
  obtain ⟨s₁, hwait, hd₁, hready₁⟩ := P.sets_up deviceCount count lba hs
  have hsectors : (P.drive s₁).count = left + 1 := by
    rw [hd₁]
    exact hleft
  obtain ⟨hd₂, hb₂⟩ := P.write s₁ hready₁.idle hready₁.free (by omega)
  have htransfer : (P.drive (io.outb (ataPrimaryBase + ataRegCommand) 0x30 s₁).2).transfer
      = .writing (lba.toNat % 268435456) (left + 1) 0 := by
    rw [hd₂]
    show AtaTransfer.writing (sectorAddress (P.drive s₁).regs) (P.drive s₁).count 0 = _
    rw [hsectors, hd₁, AtaDrive.selected_address]
  obtain ⟨s₃, hwrite, hmedia, hidle, hshort⟩ := P.writeData 0 buf hb₂ htransfer
  obtain ⟨s', hflush, hready', hsame'⟩ := P.flushes hidle hshort
  have hsame : (P.drive (io.outb (ataPrimaryBase + ataRegCommand) 0x30 s₁).2).media
      = (P.drive s).media := by
    rw [hd₂, AtaDrive.writes, hd₁]
    rfl
  have hslave : (P.drive (io.outb (ataPrimaryBase + ataRegCommand) 0x30 s₁).2).slave
      = decide (deviceCount > 1) := by
    rw [hd₂, AtaDrive.writes, hd₁]
    exact @AtaDrive.selected_slave deviceCount count lba (P.drive s)
  refine ⟨s', ?_, hready', ?_⟩
  · rw [ataWriteSectorsLba28, if_neg hcount, if_neg hdev, Prog.run_bind, Prog.run_bind, hwait,
      if_pos rfl, Prog.run_bind, hleft, Prog.run_bind, hwrite, if_pos rfl, hflush]
  · rw [hsame', hmedia]
    unfold AtaDrive.written
    rw [hsame, hslave, hleft]
    funext b t w
    rw [Nat.zero_add]

end PioDrive

/-! ## Runs of block accesses

`Holds` relates a drive to an array of blocks, and every access keeps it. -/

/-- An access to a block of the volume. -/
inductive BlockAccess where
  | read (fsBlockIndex : UInt32) (buffer : Words)
  | write (fsBlockIndex : UInt32) (buffer : Words)

def BlockAccess.index : BlockAccess → UInt32
  | .read i _ => i
  | .write i _ => i

/-- The access through the driver: what it returns, with the buffer after it. -/
def BlockAccess.exec {σ : Type} (io : PortDev σ) (deviceCount : UInt8) (fsStartLba : UInt32) :
    BlockAccess → Prog σ (Bool × Words)
  | .read i buffer => blockRead io deviceCount fsStartLba i buffer
  | .write i buffer => do
      let ok ← blockWrite io deviceCount fsStartLba i buffer
      pure (ok, buffer)

/-- The access to an array of blocks of 256 words. -/
def BlockAccess.onArray : BlockAccess → Prog (Nat → Words) (Bool × Words)
  | .read i buffer => fun v => ((true, fun j => if j < 256 then v i.toNat j else buffer j), v)
  | .write i buffer => fun v =>
      ((true, buffer), fun n w => if n = i.toNat ∧ w < 256 then buffer w else v n w)

/-- A drive that is free and has the blocks of a volume of the array on one of its disks, and the
rest of its disks as in `rest`. -/
structure PioDrive.Holds {σ : Type} {io : PortDev σ} (P : PioDrive io) (slave : Bool)
    (start size : Nat) (rest : Bool → Nat → Nat → UInt16) (s : σ) (v : Nat → Words) : Prop where
  ready : P.Ready s
  blocks : ∀ i < size, ∀ w < 256, (P.drive s).media slave (start + i) w = v i w
  outside : ∀ b t w, ¬ (b = slave ∧ start ≤ t ∧ t < start + size) →
    (P.drive s).media b t w = rest b t w

section

variable {σ : Type} {io : PortDev σ} (P : PioDrive io) {deviceCount : UInt8} {start size : UInt32}
  {rest : Bool → Nat → Nat → UInt16}

theorem volume_sector (hfit : start.toNat + size.toNat ≤ 268435456) {i : UInt32} (hi : i < size) :
    (start + i).toNat % 268435456 = start.toNat + i.toNat := by
  have hlt : i.toNat < size.toNat := hi
  rw [UInt32.toNat_add, Nat.mod_eq_of_lt (by omega), Nat.mod_eq_of_lt (by omega)]

theorem blockAccess_array (hdev : deviceCount ≠ 0)
    (hfit : start.toNat + size.toNat ≤ 268435456) {a : BlockAccess} (ha : a.index < size) :
    Prog.Simulates (P.Holds (decide (deviceCount > 1)) start.toNat size.toNat rest)
      (a.exec io deviceCount start) a.onArray := by
  intro s v hd
  cases a with
  | read i buffer =>
      have hi : i.toNat < size.toNat := ha
      obtain ⟨s', hread, hready, hmedia⟩ :=
        @PioDrive.readSectors _ _ P s deviceCount 1 (start + i) hd.ready hdev (by decide) buffer
      rw [volume_sector hfit (i := i) ha] at hread
      rw [BlockAccess.exec, blockRead, hread]
      refine ⟨Prod.ext rfl (funext fun j => ?_), hready, ?_, ?_⟩
      · show (if j < 256 then
          (P.drive s).media (decide (deviceCount > 1)) (start.toNat + i.toNat + j / 256) (j % 256)
          else buffer j) = if j < 256 then v i.toNat j else buffer j
        rcases Nat.lt_or_ge j 256 with hin | hout
        · rw [if_pos hin, if_pos hin, Nat.div_eq_of_lt hin, Nat.mod_eq_of_lt hin, Nat.add_zero,
            hd.blocks _ hi _ hin]
        · rw [if_neg (by omega), if_neg (by omega)]
      · rw [hmedia]
        exact hd.blocks
      · rw [hmedia]
        exact hd.outside
  | write i buffer =>
      have hi : i.toNat < size.toNat := ha
      obtain ⟨s', hwrite, hready, hmedia⟩ :=
        @PioDrive.writeSectors _ _ P s deviceCount 1 (start + i) hd.ready hdev (by decide) buffer
      have hone : (1 : UInt8).toNat = 1 := rfl
      rw [volume_sector hfit (i := i) ha, hone] at hmedia
      rw [BlockAccess.exec, blockWrite, Prog.run_bind, hwrite]
      refine ⟨rfl, hready, fun n hn w hw => ?_, fun b t w hout => ?_⟩
      · show (P.drive s').media (decide (deviceCount > 1)) (start.toNat + n) w
          = if n = i.toNat ∧ w < 256 then buffer w else v n w
        rw [hmedia]
        dsimp only
        rcases em (n = i.toNat) with rfl | hne
        · rw [if_pos ⟨rfl, Nat.le_refl _, by omega, hw⟩, if_pos ⟨rfl, hw⟩, Nat.sub_self]
          exact congrArg buffer (Nat.zero_add w)
        · rw [if_neg (by omega), if_neg fun hc => hne hc.1, hd.blocks n hn w hw]
      · show (P.drive s').media b t w = rest b t w
        rw [hmedia]
        exact (if_neg fun hc => hout ⟨hc.1, by omega, by omega⟩).trans (hd.outside b t w hout)

/-- Over every such drive, a run of accesses through the driver is a run of accesses to the
array. -/
theorem blockAccesses_array (hdev : deviceCount ≠ 0)
    (hfit : start.toNat + size.toNat ≤ 268435456) (as : List BlockAccess)
    (has : ∀ a ∈ as, a.index < size) {s : σ} {v : Nat → Words}
    (hd : P.Holds (decide (deviceCount > 1)) start.toNat size.toNat rest s v) :
    (Prog.each (BlockAccess.exec io deviceCount start) as s).1
        = (Prog.each BlockAccess.onArray as v).1
      ∧ P.Holds (decide (deviceCount > 1)) start.toNat size.toNat rest
        (Prog.each (BlockAccess.exec io deviceCount start) as s).2
            (Prog.each BlockAccess.onArray as v).2 :=
  Prog.Simulates.each (fun _ ha => blockAccess_array P hdev hfit (has _ ha)) s v hd

end

/-! ## A slow drive

It is busy for as long as the driver waits at all, after each command and after each sector, and
for four polls when a device is selected; while it is busy it takes no command.
-/

/-- The state of the drive, and how long it is busy. -/
structure SlowDrive where
  state : AtaDrive
  pause : Nat
  short : pause < 100000

namespace SlowDrive

/-- The status register: busy, or ready, with a word to move or not. -/
def status (s : SlowDrive) : UInt8 :=
  if 0 < s.pause then 0x80
  else
    match s.state.transfer with
    | .idle => 0x50
    | _ => 0x58

def poll (s : SlowDrive) : SlowDrive :=
  ⟨s.state, s.pause - 1, Nat.lt_of_le_of_lt (Nat.sub_le _ _) s.short⟩

def working (d : AtaDrive) : SlowDrive := ⟨d, 99999, by decide⟩

def free (d : AtaDrive) : SlowDrive := ⟨d, 0, by decide⟩

end SlowDrive

def slowIo : PortDev SlowDrive where
  inb p := fun s =>
    if p = ataPrimaryBase + ataRegStatus ∨ p = ataPrimaryCtrl then (s.status, s.poll)
    else (s.state.regs p, s)
  outb p v := fun s =>
    if 0 < s.pause then ((), s)
    else if p = ataPrimaryBase + ataRegCommand then
      if v = 0x20 then ((), .working s.state.reads)
      else if v = 0x30 then ((), .working s.state.writes)
      else ((), .working s.state)
    else if p = ataPrimaryBase + ataRegHddevsel then ((), ⟨s.state.setReg p v, 4, by decide⟩)
    else ((), .free (s.state.setReg p v))
  inw p := fun s =>
    match s.state.transfer with
    | .reading sector left word =>
        if p = ataPrimaryBase + ataRegData ∧ s.pause = 0 then
          (s.state.media s.state.slave sector word,
            if word < 255 ∨ left ≤ 1 then .free (s.state.afterRead sector left word)
            else .working (s.state.afterRead sector left word))
        else (0, s)
    | _ => (0, s)
  outw p v := fun s =>
    match s.state.transfer with
    | .writing sector left word =>
        if p = ataPrimaryBase + ataRegData ∧ s.pause = 0 then
          ((), if word < 255 then .free ((s.state.store sector word v).afterWrite sector left word)
            else .working ((s.state.store sector word v).afterWrite sector left word))
        else ((), s)
    | _ => ((), s)

theorem SlowDrive.status_busy {s : SlowDrive} (h : s.pause ≠ 0) : s.status = 0x80 :=
  if_pos (Nat.pos_of_ne_zero h)

theorem SlowDrive.status_idle {s : SlowDrive} (h : s.pause = 0) (ht : s.state.transfer = .idle) :
    s.status = 0x50 := by
  unfold SlowDrive.status
  rw [if_neg (by omega), ht]

theorem SlowDrive.status_moving {s : SlowDrive} (h : s.pause = 0) (ht : s.state.transfer ≠ .idle) :
    s.status = 0x58 := by
  unfold SlowDrive.status
  rw [if_neg (by omega)]
  cases htr : s.state.transfer with
  | idle => exact absurd htr ht
  | reading => rfl
  | writing => rfl

def slowPio : PioDrive slowIo where
  drive := SlowDrive.state
  busy := SlowDrive.pause
  status_drive _ := rfl
  status_busy _ := Nat.le_refl _
  no_error s := by
    show s.status &&& 0x01 = 0
    rcases em (s.pause = 0) with h0 | hpos
    · rcases em (s.state.transfer = .idle) with ht | ht
      · rw [SlowDrive.status_idle h0 ht]
        decide
      · rw [SlowDrive.status_moving h0 ht]
        decide
    · rw [SlowDrive.status_busy hpos]
      decide
  bsy s ht := by
    show s.status &&& 0x80 = 0 ↔ s.pause = 0
    rcases em (s.pause = 0) with h0 | hpos
    · rw [SlowDrive.status_idle h0 ht]
      exact iff_of_true (by decide) h0
    · rw [SlowDrive.status_busy hpos]
      exact iff_of_false (by decide) hpos
  drq s ht := by
    show s.status &&& 0x08 ≠ 0 ↔ s.pause = 0
    rcases em (s.pause = 0) with h0 | hpos
    · rw [SlowDrive.status_moving h0 ht]
      exact iff_of_true (by decide) h0
    · rw [SlowDrive.status_busy hpos]
      exact iff_of_false (by decide) hpos
  alternate_drive _ := rfl
  alternate_busy _ := Nat.le_refl _
  select s v _ h0 := by
    have hrun : (slowIo.outb (ataPrimaryBase + ataRegHddevsel) v s).2
        = ⟨s.state.setReg (ataPrimaryBase + ataRegHddevsel) v, 4, by decide⟩ := by
      show (if 0 < s.pause then ((), s) else _).2 = _
      rw [if_neg (by omega)]
      rfl
    rw [hrun]
    exact ⟨rfl, Nat.le_refl 4⟩
  register s v p hp _ h0 := by
    have hports : p ≠ ataPrimaryBase + ataRegCommand ∧ p ≠ ataPrimaryBase + ataRegHddevsel := by
      refine ⟨fun h => ?_, fun h => ?_⟩
      · exact absurd (h ▸ hp) (by decide)
      · exact absurd (h ▸ hp) (by decide)
    have hrun : (slowIo.outb p v s).2 = .free (s.state.setReg p v) := by
      show (if 0 < s.pause then ((), s) else _).2 = _
      rw [if_neg (by omega), if_neg hports.1, if_neg hports.2]
    rw [hrun]
    exact ⟨rfl, rfl⟩
  read s _ h0 _ := by
    have hrun : (slowIo.outb (ataPrimaryBase + ataRegCommand) 0x20 s).2
        = .working s.state.reads := by
      show (if 0 < s.pause then ((), s) else _).2 = _
      rw [if_neg (by omega)]
      rfl
    rw [hrun]
    exact ⟨rfl, Nat.lt_succ_self _⟩
  write s _ h0 _ := by
    have hrun : (slowIo.outb (ataPrimaryBase + ataRegCommand) 0x30 s).2
        = .working s.state.writes := by
      show (if 0 < s.pause then ((), s) else _).2 = _
      rw [if_neg (by omega)]
      rfl
    rw [hrun]
    exact ⟨rfl, Nat.lt_succ_self _⟩
  flush s _ _ := by
    have hrun : (slowIo.outb (ataPrimaryBase + ataRegCommand) 0xE7 s).2
        = if 0 < s.pause then s else .working s.state := by
      show (if 0 < s.pause then ((), s) else _).2 = _
      split
      · rfl
      · rfl
    rw [hrun]
    split
    · exact ⟨rfl, s.short⟩
    · exact ⟨rfl, Nat.lt_succ_self _⟩
  readWord s sector left word ht h0 := by
    have hrun : slowIo.inw (ataPrimaryBase + ataRegData) s
      = (s.state.media s.state.slave sector word,
        if word < 255 ∨ left ≤ 1 then .free (s.state.afterRead sector left word)
        else .working (s.state.afterRead sector left word)) := by
      unfold slowIo
      dsimp only
      rw [ht]
      exact if_pos ⟨rfl, h0⟩
    rw [hrun]
    dsimp only
    split
    · exact ⟨rfl, rfl, Nat.zero_lt_succ _, fun _ => rfl⟩
    · rename_i hno
      exact ⟨rfl, rfl, Nat.lt_succ_self _, fun h => absurd h hno⟩
  writeWord s v sector left word ht h0 := by
    have hrun : slowIo.outw (ataPrimaryBase + ataRegData) v s
        = ((), if word < 255 then .free ((s.state.store sector word v).afterWrite sector left word)
          else .working ((s.state.store sector word v).afterWrite sector left word)) := by
      unfold slowIo
      dsimp only
      rw [ht]
      exact if_pos ⟨rfl, h0⟩
    rw [hrun]
    dsimp only
    split
    · exact ⟨rfl, Nat.zero_lt_succ _, fun _ => rfl⟩
    · rename_i hno
      exact ⟨rfl, Nat.lt_succ_self _, fun h => absurd h hno⟩

def slowDrive : SlowDrive := .free ⟨fun _ => 0, .idle, fun _ _ _ => 0⟩

theorem blockAccesses_array_slow :
    (Prog.each (BlockAccess.exec slowIo 1 2048)
        [.write 3 fun j => UInt16.ofNat j, .read 3 fun _ => 7] slowDrive).1
      = (Prog.each BlockAccess.onArray [.write 3 fun j => UInt16.ofNat j, .read 3 fun _ => 7]
        fun _ _ => 0).1
    ∧ slowPio.Holds (decide ((1 : UInt8) > 1)) (2048 : UInt32).toNat (4 : UInt32).toNat
      (fun _ _ _ => 0)
        (Prog.each (BlockAccess.exec slowIo 1 2048)
          [.write 3 fun j => UInt16.ofNat j, .read 3 fun _ => 7] slowDrive).2
        (Prog.each BlockAccess.onArray [.write 3 fun j => UInt16.ofNat j, .read 3 fun _ => 7]
          fun _ _ => 0).2 := by
  have hdev : (1 : UInt8) ≠ 0 := by decide
  have hfit : (2048 : UInt32).toNat + (4 : UInt32).toNat ≤ 268435456 := by decide
  have hin : (3 : UInt32) < 4 := by decide
  have has : ∀ a ∈ [BlockAccess.write 3 fun j => UInt16.ofNat j, .read 3 fun _ => 7],
      a.index < 4 := by
    intro a ha
    rcases List.mem_cons.mp ha with rfl | ha
    · exact hin
    · obtain rfl := List.mem_singleton.mp ha
      exact hin
  exact blockAccesses_array slowPio hdev hfit _ has
    ⟨⟨rfl, rfl⟩, fun _ _ _ _ => rfl, fun _ _ _ _ => rfl⟩

end IpoOs
