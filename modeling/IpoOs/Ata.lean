import IpoOs.FsTable
import IpoOs.FsMounted

/-!
# The ATA driver

`ata_read_sectors_lba28` and `ata_write_sectors_lba28` over arbitrary port
instructions, and the block access of the file system through them. The
address of a sector goes into four registers, 24 bits into the LBA
registers and the next four into the device register; what is above them
is lost. `recording` keeps the value written last to each register.

The driver is code over instructions that do anything they like to a state;
only `recording` looks at what it writes. `Addresses` is the invariant of
all the code between the choice of the address and the command: the address
registers hold the sector.

`blockSectors` is about the arithmetic of an address: the blocks of a volume
have sectors of their own exactly when the volume ends below sector 2^28.
-/

namespace IpoOs

open Prog (Keeps)

/-! ## Ports

The two functions with their waits, each with the number of tries of the
source, and the block access of the file system, which does not look at the
status it is given. -/

/-- The port instructions, over the state of what is behind the ports. -/
structure PortDev (σ : Type) where
  inb : UInt16 → Prog σ UInt8
  outb : UInt16 → UInt8 → Prog σ Unit
  inw : UInt16 → Prog σ UInt16
  outw : UInt16 → UInt16 → Prog σ Unit

def ataPrimaryBase : UInt16 := 0x1F0
def ataPrimaryCtrl : UInt16 := 0x3F6
def ataRegData : UInt16 := 0
def ataRegSeccount0 : UInt16 := 2
def ataRegLba0 : UInt16 := 3
def ataRegLba1 : UInt16 := 4
def ataRegLba2 : UInt16 := 5
def ataRegHddevsel : UInt16 := 6
def ataRegStatus : UInt16 := 7
def ataRegCommand : UInt16 := 7

/-- A buffer of 16-bit words. -/
abbrev Words := Nat → UInt16

section

variable {σ : Type} (io : PortDev σ)

def ataIoWait : Prog σ Unit := do
  let _ ← io.inb ataPrimaryCtrl
  let _ ← io.inb ataPrimaryCtrl
  let _ ← io.inb ataPrimaryCtrl
  let _ ← io.inb ataPrimaryCtrl
  pure ()

/-- The loop of `ata_wait_bsy_clear`, `n` rounds. -/
def ataWaitBsyClear (base : UInt16) : (n : Nat) → Prog σ Bool
  | 0 => pure false
  | n + 1 => do
      let st ← io.inb (base + ataRegStatus)
      if st &&& 0x80 = 0 then pure true else ataWaitBsyClear base n

/-- The loop of `ata_wait_drq`, `n` rounds. -/
def ataWaitDrq (base : UInt16) : (n : Nat) → Prog σ Bool
  | 0 => do
      let _ ← io.inb (base + ataRegStatus)
      pure false
  | n + 1 => do
      let st ← io.inb (base + ataRegStatus)
      if st &&& 0x01 ≠ 0 then pure false
      else if st &&& 0x08 ≠ 0 then pure true
      else do
        ataIoWait io
        ataWaitDrq base n

/-- The start of both transfers: the device, the count and the address. -/
def ataSelect (deviceCount : UInt8) (base : UInt16) (lba : UInt32) (count : UInt8) :
    Prog σ Unit := do
  let driveBit : UInt8 := if deviceCount > 1 then 0x10 else 0x00
  io.outb (base + ataRegHddevsel) ((0xE0 : UInt8) ||| driveBit ||| ((lba >>> 24) &&& 0x0F).toUInt8)
  ataIoWait io
  io.outb (base + ataRegSeccount0) count
  io.outb (base + ataRegLba0) (lba &&& 0xFF).toUInt8
  io.outb (base + ataRegLba1) ((lba >>> 8) &&& 0xFF).toUInt8
  io.outb (base + ataRegLba2) ((lba >>> 16) &&& 0xFF).toUInt8

/-- Words `i` on of a buffer read, `n` of them. -/
def ataReadWords (base : UInt16) : (n i : Nat) → Words → Prog σ Words
  | 0, _, buf => pure buf
  | n + 1, i, buf => do
      let w ← io.inw (base + ataRegData)
      ataReadWords base n (i + 1) fun j => if j = i then w else buf j

/-- Sectors `s` on read, `n` of them. -/
def ataReadData (base : UInt16) : (n s : Nat) → Words → Prog σ (Bool × Words)
  | 0, _, buf => pure (true, buf)
  | n + 1, s, buf => do
      if ← ataWaitDrq io base 100000 then do
        let buf' ← ataReadWords io base 256 (256 * s) buf
        ataReadData base n (s + 1) buf'
      else pure (false, buf)

def ataReadSectorsLba28 (deviceCount : UInt8) (lba : UInt32) (count : UInt8) (buf : Words) :
    Prog σ (Bool × Words) :=
  if count = 0 then pure (false, buf)
  else if deviceCount = 0 then pure (false, buf)
  else do
    ataSelect io deviceCount ataPrimaryBase lba count
    if ← ataWaitBsyClear io ataPrimaryBase 100000 then do
      io.outb (ataPrimaryBase + ataRegCommand) 0x20
      ataReadData io ataPrimaryBase count.toNat 0 buf
    else pure (false, buf)

/-- The retries of a write, `n` of them. -/
def ataDrqRetry (base : UInt16) : (n : Nat) → Prog σ Bool
  | 0 => pure false
  | n + 1 => do
      if ← ataWaitDrq io base 100000 then pure true
      else do
        ataIoWait io
        ataDrqRetry base n

/-- The wait before the words of a sector, with small retry attempts. -/
def ataWaitWrite (base : UInt16) : Prog σ Bool := do
  if ← ataWaitDrq io base 100000 then pure true else ataDrqRetry io base 5

/-- Words `i` on of a buffer written, `n` of them. -/
def ataWriteWords (base : UInt16) : (n i : Nat) → Words → Prog σ Unit
  | 0, _, _ => pure ()
  | n + 1, i, buf => do
      io.outw (base + ataRegData) (buf i)
      ataWriteWords base n (i + 1) buf

/-- Sectors `s` on written, `n` of them. -/
def ataWriteData (base : UInt16) : (n s : Nat) → Words → Prog σ Bool
  | 0, _, _ => pure true
  | n + 1, s, buf => do
      if ← ataWaitWrite io base then do
        ataWriteWords io base 256 (256 * s) buf
        ataIoWait io
        ataWriteData base n (s + 1) buf
      else pure false

def ataFlush (base : UInt16) : Prog σ Bool := do
  io.outb (base + ataRegCommand) 0xE7
  ataIoWait io
  if ← ataWaitBsyClear io base 100000 then do
    let st ← io.inb (base + ataRegStatus)
    pure (st &&& 0x01 = 0)
  else pure false

def ataWriteSectorsLba28 (deviceCount : UInt8) (lba : UInt32) (count : UInt8) (buf : Words) :
    Prog σ Bool :=
  if count = 0 then pure false
  else if deviceCount = 0 then pure false
  else do
    ataSelect io deviceCount ataPrimaryBase lba count
    if ← ataWaitBsyClear io ataPrimaryBase 100000 then do
      io.outb (ataPrimaryBase + ataRegCommand) 0x30
      if ← ataWriteData io ataPrimaryBase count.toNat 0 buf then ataFlush io ataPrimaryBase
      else pure false
    else pure false

def blockRead (deviceCount : UInt8) (fsStartLba fsBlockIndex : UInt32) (buffer : Words) :
    Prog σ (Bool × Words) :=
  ataReadSectorsLba28 io deviceCount (fsStartLba + fsBlockIndex) 1 buffer

def blockWrite (deviceCount : UInt8) (fsStartLba fsBlockIndex : UInt32) (buffer : Words) :
    Prog σ Bool :=
  ataWriteSectorsLba28 io deviceCount (fsStartLba + fsBlockIndex) 1 buffer

end

/-! ## The registers

Four bytes of the sector number go into four registers, of which the last
takes four bits. The lemmas of this section say what is not written between
the selection and the command. -/

/-- The value written last to each port, with the state behind the ports. -/
abbrev Recorded (σ : Type) := (UInt16 → UInt8) × σ

/-- Port instructions that keep a record of the bytes written. -/
def recording {σ : Type} (io : PortDev σ) : PortDev (Recorded σ) where
  inb p := fun s => ((io.inb p s.2).1, s.1, (io.inb p s.2).2)
  outb p v := fun s => ((), fun q => if q = p then v else s.1 q, (io.outb p v s.2).2)
  inw p := fun s => ((io.inw p s.2).1, s.1, (io.inw p s.2).2)
  outw p v := fun s => ((), s.1, (io.outw p v s.2).2)

/-- The sector that the registers of the primary channel address. -/
def sectorAddress (regs : UInt16 → UInt8) : Nat :=
  (regs (ataPrimaryBase + ataRegLba0)).toNat + 256 * (regs (ataPrimaryBase + ataRegLba1)).toNat
    + 65536 * (regs (ataPrimaryBase + ataRegLba2)).toNat
    + 16777216 * ((regs (ataPrimaryBase + ataRegHddevsel)).toNat % 16)

/-- The device register holds the upper four bits, whichever drive is selected. -/
theorem hddevsel_low (h : UInt8) (driveBit : UInt8) (hd : driveBit = 0x10 ∨ driveBit = 0x00)
    (h16 : h.toNat < 16) : (0xE0 ||| driveBit ||| h).toNat % 16 = h.toNat := by
  have hall : ∀ x < 16, (0xE0 ||| (0x10 : UInt8) ||| UInt8.ofNat x).toNat % 16 = x
      ∧ (0xE0 ||| (0x00 : UInt8) ||| UInt8.ofNat x).toNat % 16 = x := by decide
  have hx : h = UInt8.ofNat h.toNat := UInt8.ofNat_toNat.symm
  rcases hd with rfl | rfl
  · rw [hx]
    exact (hall _ h16).1.trans (by rw [← hx])
  · rw [hx]
    exact (hall _ h16).2.trans (by rw [← hx])

theorem toNat_low_byte (x : UInt32) : ((x &&& 0xFF).toUInt8).toNat = x.toNat % 256 := by
  rw [UInt32.toNat_toUInt8, UInt32.toNat_and]
  have hand : x.toNat &&& (0xFF : UInt32).toNat = x.toNat % 256 :=
    Nat.and_two_pow_sub_one_eq_mod _ 8
  rw [hand, Nat.mod_mod]

section

variable {σ : Type} {io : PortDev σ}

theorem ataSelect_address (deviceCount : UInt8) (lba : UInt32) (count : UInt8) (s : Recorded σ) :
    sectorAddress (ataSelect (recording io) deviceCount ataPrimaryBase lba count s).2.1
      = lba.toNat % 268435456 := by
  have hregs : (ataSelect (recording io) deviceCount ataPrimaryBase lba count s).2.1 = fun q =>
      if q = ataPrimaryBase + ataRegLba2 then ((lba >>> 16) &&& 0xFF).toUInt8
      else if q = ataPrimaryBase + ataRegLba1 then ((lba >>> 8) &&& 0xFF).toUInt8
      else if q = ataPrimaryBase + ataRegLba0 then (lba &&& 0xFF).toUInt8
      else if q = ataPrimaryBase + ataRegSeccount0 then count
      else if q = ataPrimaryBase + ataRegHddevsel then
        ((0xE0 : UInt8) ||| (if deviceCount > 1 then (0x10 : UInt8) else 0x00)
          ||| ((lba >>> 24) &&& 0x0F).toUInt8)
      else s.1 q := rfl
  have h0 : (lba &&& 0xFF).toUInt8.toNat = lba.toNat % 256 := toNat_low_byte lba
  have h1 : ((lba >>> 8) &&& 0xFF).toUInt8.toNat = lba.toNat / 256 % 256 := by
    rw [toNat_low_byte, UInt32.toNat_shiftRight]
    exact congrArg (· % 256) (Nat.shiftRight_eq_div_pow _ 8)
  have h2 : ((lba >>> 16) &&& 0xFF).toUInt8.toNat = lba.toNat / 65536 % 256 := by
    rw [toNat_low_byte, UInt32.toNat_shiftRight]
    exact congrArg (· % 256) (Nat.shiftRight_eq_div_pow _ 16)
  have h3 : ((lba >>> 24) &&& 0x0F).toUInt8.toNat = lba.toNat / 16777216 % 16 := by
    have hand : (lba >>> 24).toNat &&& (0x0F : UInt32).toNat = (lba >>> 24).toNat % 16 :=
      Nat.and_two_pow_sub_one_eq_mod _ 4
    have hshift : (lba >>> 24).toNat = lba.toNat / 16777216 := by
      rw [UInt32.toNat_shiftRight]
      exact Nat.shiftRight_eq_div_pow _ 24
    rw [UInt32.toNat_toUInt8, UInt32.toNat_and, hand, hshift]
    exact Nat.mod_eq_of_lt (by omega)
  have hdrive : (if deviceCount > 1 then (0x10 : UInt8) else 0x00) = 0x10
      ∨ (if deviceCount > 1 then (0x10 : UInt8) else 0x00) = 0x00 := by
    split
    · exact Or.inl rfl
    · exact Or.inr rfl
  have hlow := hddevsel_low ((lba >>> 24) &&& 0x0F).toUInt8 _ hdrive (by omega)
  rw [sectorAddress, hregs]
  dsimp only
  rw [if_neg (by decide), if_neg (by decide), if_pos rfl, if_neg (by decide), if_pos rfl,
    if_pos rfl,
    if_neg (by decide), if_neg (by decide), if_neg (by decide), if_neg (by decide), if_pos rfl,
    hlow, h0, h1, h2, h3]
  omega

/-- The registers address sector `a`. -/
abbrev Addresses (a : Nat) (s : Recorded σ) : Prop := sectorAddress s.1 = a

variable {a : Nat}

theorem keeps_inb (p : UInt16) : Keeps (Addresses a) ((recording io).inb p) anyResult :=
  fun _ hs => ⟨hs, trivial⟩

theorem keeps_inw (p : UInt16) : Keeps (Addresses a) ((recording io).inw p) anyResult :=
  fun _ hs => ⟨hs, trivial⟩

theorem keeps_outw (p v : UInt16) : Keeps (Addresses a) ((recording io).outw p v) anyResult :=
  fun _ hs => ⟨hs, trivial⟩

theorem keeps_command (v : UInt8) : Keeps (Addresses a)
    ((recording io).outb (ataPrimaryBase + ataRegCommand) v) anyResult := by
  intro s hs
  refine ⟨?_, trivial⟩
  have hreg : ∀ p : UInt16, p ≠ ataPrimaryBase + ataRegCommand →
      ((recording io).outb (ataPrimaryBase + ataRegCommand) v s).2.1 p = s.1 p :=
        fun p hp => if_neg hp
  show sectorAddress _ = a
  rw [← (hs : sectorAddress s.1 = a), sectorAddress, hreg _ (by decide), hreg _ (by decide),
    hreg _ (by decide), hreg _ (by decide), sectorAddress]

theorem keeps_ataIoWait : Keeps (Addresses a) (ataIoWait (recording io)) anyResult :=
  (keeps_inb _).bind fun _ _ => (keeps_inb _).bind fun _ _ => (keeps_inb _).bind fun _ _ =>
    (keeps_inb _).bind fun _ _ => .pure trivial

theorem keeps_ataWaitBsyClear (base : UInt16) (n : Nat) :
    Keeps (Addresses a) (ataWaitBsyClear (recording io) base n) anyResult := by
  induction n with
  | zero => exact .pure trivial
  | succ n ih => exact (keeps_inb _).bind fun _ _ => .ite (fun _ => .pure trivial) fun _ => ih

theorem keeps_ataWaitDrq (base : UInt16) (n : Nat) :
    Keeps (Addresses a) (ataWaitDrq (recording io) base n) anyResult := by
  induction n with
  | zero => exact (keeps_inb _).bind fun _ _ => .pure trivial
  | succ n ih =>
      exact (keeps_inb _).bind fun _ _ => .ite (fun _ => .pure trivial) fun _ =>
        .ite (fun _ => .pure trivial) fun _ => keeps_ataIoWait.bind fun _ _ => ih

theorem keeps_ataReadWords (base : UInt16) (n i : Nat) (buf : Words) :
    Keeps (Addresses a) (ataReadWords (recording io) base n i buf) anyResult := by
  induction n generalizing i buf with
  | zero => exact .pure trivial
  | succ n ih => exact (keeps_inw _).bind fun _ _ => ih _ _

theorem keeps_ataReadData (base : UInt16) (n i : Nat) (buf : Words) :
    Keeps (Addresses a) (ataReadData (recording io) base n i buf) anyResult := by
  induction n generalizing i buf with
  | zero => exact .pure trivial
  | succ n ih =>
      exact (keeps_ataWaitDrq _ _).bind fun _ _ => .ite
        (fun _ => (keeps_ataReadWords _ _ _ _).bind fun _ _ => ih _ _) fun _ => .pure trivial

theorem keeps_ataDrqRetry (base : UInt16) (n : Nat) :
    Keeps (Addresses a) (ataDrqRetry (recording io) base n) anyResult := by
  induction n with
  | zero => exact .pure trivial
  | succ n ih =>
      exact (keeps_ataWaitDrq _ _).bind fun _ _ => .ite (fun _ => .pure trivial) fun _ =>
        keeps_ataIoWait.bind fun _ _ => ih

theorem keeps_ataWaitWrite (base : UInt16) :
    Keeps (Addresses a) (ataWaitWrite (recording io) base) anyResult :=
  (keeps_ataWaitDrq base 100000).bind fun _ _ => .ite (fun _ => .pure trivial) fun _ =>
    keeps_ataDrqRetry _ _

theorem keeps_ataWriteWords (base : UInt16) (n i : Nat) (buf : Words) :
    Keeps (Addresses a) (ataWriteWords (recording io) base n i buf) anyResult := by
  induction n generalizing i with
  | zero => exact .pure trivial
  | succ n ih => exact (keeps_outw _ _).bind fun _ _ => ih _

theorem keeps_ataWriteData (base : UInt16) (n i : Nat) (buf : Words) :
    Keeps (Addresses a) (ataWriteData (recording io) base n i buf) anyResult := by
  induction n generalizing i with
  | zero => exact .pure trivial
  | succ n ih =>
      exact (keeps_ataWaitWrite base).bind fun _ _ => .ite
        (fun _ => (keeps_ataWriteWords _ _ _ _).bind fun _ _ =>
          keeps_ataIoWait.bind fun _ _ => ih _) fun _ => .pure trivial

theorem keeps_ataFlush : Keeps (Addresses a) (ataFlush (recording io) ataPrimaryBase) anyResult :=
  (keeps_command _).bind fun _ _ => keeps_ataIoWait.bind fun _ _ =>
    (keeps_ataWaitBsyClear _ _).bind fun _ _ => .ite
      (fun _ => (keeps_inb _).bind fun _ _ => .pure trivial) fun _ => .pure trivial

/-! ## Blocks and sectors

A block number and a start are added in 32 bits, and the driver uses 28 of
them. -/

variable {deviceCount : UInt8} (hd : deviceCount ≠ 0)

include hd

/-- The sector that a block read addresses, whether or not it succeeds. -/
theorem blockRead_address (start index : UInt32) (buf : Words) (s : Recorded σ) :
    sectorAddress (blockRead (recording io) deviceCount start index buf s).2.1
      = (start + index).toNat % 268435456 := by
  have hselect := @ataSelect_address σ io deviceCount (start + index) 1 s
  have hrest : ∀ n, Keeps (Addresses ((start + index).toNat % 268435456)) (do
      if ← ataWaitBsyClear (recording io) ataPrimaryBase n then do
        (recording io).outb (ataPrimaryBase + ataRegCommand) 0x20
        ataReadData (recording io) ataPrimaryBase (1 : UInt8).toNat 0 buf
      else pure (false, buf)) anyResult := fun _ =>
    (keeps_ataWaitBsyClear _ _).bind fun _ _ => .ite
      (fun _ => (keeps_command _).bind fun _ _ => keeps_ataReadData _ _ _ _) fun _ => .pure trivial
  rw [blockRead, ataReadSectorsLba28, if_neg (by decide), if_neg hd]
  generalize 100000 = n
  exact (hrest n _ hselect).1

/-- The sector that a block write addresses, whether or not it succeeds. -/
theorem blockWrite_address (start index : UInt32) (buf : Words) (s : Recorded σ) :
    sectorAddress (blockWrite (recording io) deviceCount start index buf s).2.1
      = (start + index).toNat % 268435456 := by
  have hselect := @ataSelect_address σ io deviceCount (start + index) 1 s
  have hrest : ∀ n, Keeps (Addresses ((start + index).toNat % 268435456)) (do
      if ← ataWaitBsyClear (recording io) ataPrimaryBase n then do
        (recording io).outb (ataPrimaryBase + ataRegCommand) 0x30
        if ← ataWriteData (recording io) ataPrimaryBase (1 : UInt8).toNat 0 buf then
          ataFlush (recording io) ataPrimaryBase
        else pure false
      else pure false) anyResult := fun _ =>
    (keeps_ataWaitBsyClear _ _).bind fun _ _ => .ite
      (fun _ => (keeps_command _).bind fun _ _ => (keeps_ataWriteData _ _ _ _).bind fun _ _ =>
        .ite (fun _ => keeps_ataFlush) fun _ => .pure trivial) fun _ => .pure trivial
  rw [blockWrite, ataWriteSectorsLba28, if_neg (by decide), if_neg hd]
  generalize 100000 = n
  exact (hrest n _ hselect).1

end

/-- The sectors that the accesses to two blocks address, on any drive. -/
def SectorsApart (start size : UInt32) : Prop :=
  ∀ (τ : Type) (io : PortDev τ) (deviceCount : UInt8) (buf : Words) (s : Recorded τ),
    deviceCount ≠ 0 →
    (∀ i : UInt32, i < size →
      sectorAddress (blockRead (recording io) deviceCount start i buf s).2.1
        = start.toNat + i.toNat
      ∧ sectorAddress (blockWrite (recording io) deviceCount start i buf s).2.1
        = start.toNat + i.toNat)
    ∧ ∀ i j : UInt32, i < size → j < size → i ≠ j →
      sectorAddress (blockRead (recording io) deviceCount start i buf s).2.1
        ≠ sectorAddress (blockRead (recording io) deviceCount start j buf s).2.1
      ∧ sectorAddress (blockWrite (recording io) deviceCount start i buf s).2.1
        ≠ sectorAddress (blockWrite (recording io) deviceCount start j buf s).2.1
      ∧ sectorAddress (blockRead (recording io) deviceCount start i buf s).2.1
        ≠ sectorAddress (blockWrite (recording io) deviceCount start j buf s).2.1

theorem sectorsApart_of_le {start size : UInt32} (h : start.toNat + size.toNat ≤ 268435456) :
    SectorsApart start size := by
  intro τ io deviceCount buf s hd
  have haddress : ∀ i : UInt32, i < size →
      (start + i).toNat % 268435456 = start.toNat + i.toNat := by
    intro i hi
    have hlt : i.toNat < size.toNat := hi
    rw [UInt32.toNat_add, Nat.mod_eq_of_lt (by omega), Nat.mod_eq_of_lt (by omega)]
  refine ⟨fun i hi => ?_, fun i j hi hj hij => ?_⟩
  · rw [blockRead_address hd, blockWrite_address hd, haddress i hi]
    exact ⟨rfl, rfl⟩
  · have hne : i.toNat ≠ j.toNat := fun hc => hij (UInt32.toNat_inj.mp hc)
    rw [blockRead_address hd, blockRead_address hd, blockWrite_address hd, blockWrite_address hd,
      haddress i hi, haddress j hj]
    refine ⟨?_, ?_, ?_⟩ <;> omega

def noDrive : PortDev Unit where
  inb _ := pure 0
  outb _ _ := pure ()
  inw _ := pure 0
  outw _ _ := pure ()

/-- The last block of a volume that reaches further is at another sector than its own. -/
theorem le_of_sectorsApart {start size : UInt32} (hpos : 0 < size.toNat)
    (h : SectorsApart start size) : start.toNat + size.toNat ≤ 268435456 := by
  have hlt := size.toNat_lt
  have hlast : (UInt32.ofNat (size.toNat - 1)).toNat = size.toNat - 1 := by
    rw [UInt32.toNat_ofNat', Nat.mod_eq_of_lt (by omega)]
  have hbelow : UInt32.ofNat (size.toNat - 1) < size := by
    show (UInt32.ofNat (size.toNat - 1)).toNat < size.toNat
    omega
  have hd : (1 : UInt8) ≠ 0 := by decide
  obtain ⟨haddress, -⟩ := h Unit noDrive 1 (fun _ => 0) (fun _ => 0, ()) hd
  have hread := (haddress _ hbelow).1
  rw [blockRead_address hd, hlast] at hread
  have hmod := Nat.mod_lt (start + UInt32.ofNat (size.toNat - 1)).toNat (by decide : 268435456 > 0)
  omega

/-- The blocks of an accepted volume are at sectors of their own exactly when the volume ends
within the sectors of 28 bits. -/
theorem blockSectors {σ : Type} {dev : UInt32 → BlockDev σ}
    {diskStartLba totalBlocks totalInodes : UInt32} {k₀ k : Kernel σ}
    (h : ipoFsFormat dev diskStartLba totalBlocks totalInodes k₀ = (true, k)) :
    SectorsApart k.fsStartLba k.sb.fsSizeBlocks
      ↔ diskStartLba.toNat + totalBlocks.toNat ≤ 268435456 := by
  obtain ⟨hsb, h10, -, hstart⟩ := ipoFsFormat_sb h
  have hsize : k.sb.fsSizeBlocks = totalBlocks := by
    rw [hsb]
    rfl
  rw [hsize, hstart]
  exact ⟨le_of_sectorsApart (by omega), sectorsApart_of_le⟩

theorem blockSectors_twelve :
    SectorsApart (formattedKernel 12 6).fsStartLba (formattedKernel 12 6).sb.fsSizeBlocks :=
  (blockSectors formattedKernel_run).mpr (by decide)

/-- A volume of 12 blocks is accepted five sectors before the end of the 28-bit addresses, and its
block 5 is at sector 0. -/
theorem blockSectors_wrap :
    (ipoFsFormat (diskDev Buf.zero) 268435451 12 6 blankKernel).1 = true
    ∧ sectorAddress (blockWrite (recording noDrive) 1 268435451 5 (fun _ => 0) (fun _ => 0, ())).2.1
      = 0
    ∧ ¬ SectorsApart 268435451 12 := by
  have hd : (1 : UInt8) ≠ 0 := by decide
  have h0 : sectorAddress
      (blockWrite (recording noDrive) 1 268435451 5 (fun _ => 0) (fun _ => 0, ())).2.1 = 0 := by
    rw [blockWrite_address hd]
    rfl
  refine ⟨by decide +kernel, h0, fun h => ?_⟩
  have hown := ((h Unit noDrive 1 (fun _ => 0) (fun _ => 0, ()) hd).1 5 (by decide)).2
  rw [h0] at hown
  exact absurd hown (by decide)

end IpoOs
