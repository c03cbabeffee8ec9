/-
The boot loader (boot/main.c): `readsect`, `readseg` and `bootmain`.

The machine is physical memory, the I/O ports and an IDE disk in LBA mode. Of the disk the loader sees a status byte at
each poll, which the disk chooses, and the data of the sector that the registers named when the command was given. The
loops run with fuel, as `waitdisk` polls for as long as the disk wants; the code and the local variables of the loader
are not in the memory of the model.
-/
import Jos.Core.Loop
import Jos.Core.Ram
import Jos.Lib.Strings

namespace Jos.Boot

open Loop (run)

/-! ## Data -/

def SECTSIZE : Word := 512

theorem SECTSIZE_toNat : SECTSIZE.toNat = 512 := rfl

/-- scratch space for the first page of the image -/
def ELFHDR : Word := 0x10000

theorem ELFHDR_toNat : ELFHDR.toNat = 0x10000 := rfl

/-- "\x7FELF" in little endian (inc/elf.h) -/
def ELF_MAGIC : Word := 0x464C457F

/-- the fields of `struct Elf` that the loader reads -/
structure Elf where
  eMagic : Word
  eEntry : Word
  ePhoff : Word
  ePhnum : BitVec 16
deriving DecidableEq, Repr

/-- the structure with the bytes f -/
def Elf.read (f : ℕ → Byte) : Elf := ⟨le32 f 0, le32 f 24, le32 f 28, le16 f 44⟩

theorem Elf.read_congr {f g : ℕ → Byte} (h : ∀ i < 46, f i = g i) : Elf.read f = Elf.read g := by
  rw [Elf.read, le32_congr h (show 0 + 4 ≤ 46 by omega), le32_congr h (show 24 + 4 ≤ 46 by omega),
    le32_congr h (show 28 + 4 ≤ 46 by omega), le16_congr h (show 44 + 2 ≤ 46 by omega), Elf.read]

/-- the fields of `struct Proghdr` that say what is loaded where; the loader does not read p_filesz -/
structure Proghdr where
  pOffset : Word
  pPa : Word
  pFilesz : Word
  pMemsz : Word
deriving DecidableEq, Repr

/-- the structure with the bytes f -/
def Proghdr.read (f : ℕ → Byte) : Proghdr := ⟨le32 f 4, le32 f 12, le32 f 16, le32 f 20⟩

theorem Proghdr.read_congr {f g : ℕ → Byte} (h : ∀ i < 24, f i = g i) : Proghdr.read f = Proghdr.read g := by
  rw [Proghdr.read, le32_congr h (show 4 + 4 ≤ 24 by omega), le32_congr h (show 12 + 4 ≤ 24 by omega),
    le32_congr h (show 16 + 4 ≤ 24 by omega), le32_congr h (show 20 + 4 ≤ 24 by omega), Proghdr.read]

/-- `sizeof(struct Proghdr)` -/
def Proghdr.size : Word := 32

theorem Proghdr.size_toNat : Proghdr.size.toNat = 32 := rfl

/-! ## The machine -/

structure Disk where
  byte : ℕ → Byte
  /-- the status register at the n-th poll -/
  status : ℕ → Byte

structure Machine where
  ram : Ram 32
  /-- what was last written to each port -/
  port : BitVec 16 → BitVec 16
  /-- polls of the status register so far -/
  polls : ℕ
  /-- the sectors asked for, newest first -/
  sectors : List ℕ

/-- the sector that the registers of the disk name: 28 bits, the upper four in the drive register -/
def Machine.lba (m : Machine) : ℕ :=
  ((m.port 0x1F6).setWidth 4 ++ (m.port 0x1F5).setWidth 8 ++ (m.port 0x1F4).setWidth 8 ++
    (m.port 0x1F3).setWidth 8 : BitVec 28).toNat

def Machine.outw (p v : BitVec 16) (m : Machine) : Machine := { m with port := Function.update m.port p v }

/-- a byte to a port; command 0x20 in the command register of the disk asks for the sector that the others name -/
def Machine.outb (p : BitVec 16) (v : Byte) (m : Machine) : Machine :=
  let m := m.outw p (v.zeroExtend 16)
  if p = 0x1F7 ∧ v = 0x20 then { m with sectors := m.lba :: m.sectors } else m

/-- `inb(0x1F7)` -/
def Machine.inStatus (d : Disk) (m : Machine) : Byte × Machine := (d.status m.polls, { m with polls := m.polls + 1 })

/-- `insl(0x1F0, dst, cnt)`: cnt words of the sector last asked for -/
def Machine.insl (d : Disk) (dst : Word) (cnt : ℕ) (m : Machine) : Machine :=
  let data := (List.range (4 * cnt)).map fun i => d.byte (SECTSIZE.toNat * m.sectors.headD 0 + i)
  { m with ram := m.ram.stores dst data }

/-! ## Reading -/

section Run

variable (d : Disk)

/-- one turn of `while ((inb(0x1F7) & 0xC0) != 0x40)` -/
def waitdiskBody (m : Machine) : Option (Machine ⊕ Machine) :=
  let (status, m) := m.inStatus d
  some (if status &&& 0xC0 ≠ 0x40 then .inl m else .inr m)

def waitdisk (n : ℕ) (m : Machine) : Option Machine := run (waitdiskBody d) n m

/-- the six writes that ask for a sector -/
def askSector (offset : Word) (m : Machine) : Machine :=
  let m := m.outb 0x1F2 1
  let m := m.outb 0x1F3 (low offset)
  let m := m.outb 0x1F4 (low (offset >>> 8))
  let m := m.outb 0x1F5 (low (offset >>> 16))
  let m := m.outb 0x1F6 (low ((offset >>> 24) ||| 0xE0))
  m.outb 0x1F7 0x20

def readsect (n : ℕ) (dst offset : Word) (m : Machine) : Option Machine :=
  (waitdisk d n m).bind fun m =>
  (waitdisk d n (askSector offset m)).map (Machine.insl d dst (SECTSIZE.toNat / 4))

/-- the variables of the loop of readseg -/
structure Reading where
  pa : Word
  offset : Word
  machine : Machine

/-- one turn of `while (pa < end_pa)` -/
def readsegBody (endPa : Word) (n : ℕ) (s : Reading) : Option (Reading ⊕ Machine) :=
  if s.pa < endPa then
    (readsect d n s.pa s.offset s.machine).map fun m => .inl (Reading.mk (s.pa + SECTSIZE) (s.offset + 1) m)
  else some (.inr s.machine)

/-- read count bytes at offset of the kernel to physical address pa; might copy more than asked -/
def readseg (n : ℕ) (pa count offset : Word) (m : Machine) : Option Machine :=
  let endPa := pa + count
  let pa := pa &&& ~~~(SECTSIZE - 1)
  let offset := offset / SECTSIZE + 1
  run (readsegBody d endPa n) n ⟨pa, offset, m⟩

/-! ## Booting -/

/-- the end of bootmain -/
inductive Outcome where
  /-- the call of the kernel's entry point, which does not return -/
  | entry (e : Word) (m : Machine)
  /-- the endless loop after `bad:` -/
  | bad (m : Machine)

/-- one turn of `for (; ph < eph; ph++)` -/
def segmentsBody (eph : Word) (n : ℕ) (s : Word × Machine) : Option ((Word × Machine) ⊕ Machine) :=
  if s.1 < eph then
    let ph := Proghdr.read (s.2.ram.view s.1)
    (readseg d n ph.pPa ph.pMemsz ph.pOffset s.2).map fun m => .inl (s.1 + Proghdr.size, m)
  else some (.inr s.2)

/-- the loading loop -/
def loadSegments (n : ℕ) (m : Machine) : Option Machine :=
  let elf := Elf.read (m.ram.view ELFHDR)
  let ph := ELFHDR + elf.ePhoff
  let eph := ph + Proghdr.size * elf.ePhnum.zeroExtend 32
  run (segmentsBody d eph n) n (ph, m)

def bootmain (n : ℕ) (m : Machine) : Option Outcome :=
  (readseg d n ELFHDR (SECTSIZE * 8) 0 m).bind fun m =>
  if (Elf.read (m.ram.view ELFHDR)).eMagic ≠ ELF_MAGIC then
    some (.bad ((m.outw 0x8A00 0x8A00).outw 0x8A00 0x8E00))
  else
    (loadSegments d n m).map fun m => .entry (Elf.read (m.ram.view ELFHDR)).eEntry m

end Run

end Jos.Boot
