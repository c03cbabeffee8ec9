/-
Console output of kern/console.c: `serial_putc`, `lpt_putc`, `cga_putc`, `cons_putc` and `cputchar`.

The state holds the screen memory with a log of its accesses, and a log of all bytes written to I/O ports. Port reads
are an oracle: `dev n port` is the value that the n-th read returns, so a result for every oracle holds whatever the
devices answer. A character is an `int`, of which each driver uses what the source uses.

`cga_putc` prints a tab by five calls of `cons_putc(' ')`, and `cons_putc` calls `cga_putc`.
-/
import Jos.Lib.Memmove

namespace Jos.Console

/-! ## State -/

def KERNBASE : Word := 0xF0000000
def MONO_BASE : ℕ := 0x3B4
def MONO_BUF : Word := 0xB0000
def CGA_BASE : ℕ := 0x3D4
def CGA_BUF : Word := 0xB8000
def CRT_ROWS : ℕ := 25
def CRT_COLS : ℕ := 80
def CRT_SIZE : ℕ := CRT_ROWS * CRT_COLS

def COM1 : ℕ := 0x3F8
def COM_TX : ℕ := 0
def COM_LSR : ℕ := 5
def COM_LSR_TXRDY : Byte := 0x20

/-- `addr_6845` and `crt_buf`: `cga_init` sets them to one of two adapters -/
structure Display where
  addr6845 : ℕ
  crtBuf : Word
  wired : addr6845 = MONO_BASE ∧ crtBuf = KERNBASE + MONO_BUF ∨ addr6845 = CGA_BASE ∧ crtBuf = KERNBASE + CGA_BUF

structure Out where
  disp : Display
  crtPos : BitVec 16
  ram : Ram 32
  /-- the writes to I/O ports, newest first -/
  ports : List (ℕ × Byte)
  /-- the number of reads from I/O ports -/
  reads : ℕ

/-- a CGA adapter with a blank log, the cursor in the first cell -/
def bootOut : Out := ⟨⟨CGA_BASE, KERNBASE + CGA_BUF, Or.inr ⟨rfl, rfl⟩⟩, 0, ⟨fun _ => 0, []⟩, [], 0⟩

/-- `crt_buf[i] = v` -/
def Out.setCell (i : ℕ) (v : BitVec 16) (o : Out) : Out :=
  { o with ram := o.ram.st16 (o.disp.crtBuf + BitVec.ofNat 32 (2 * i)) v }

/-! ## Drivers -/

section Drivers

variable (dev : ℕ → ℕ → Byte)

def inb (port : ℕ) (o : Out) : Byte × Out := (dev o.reads port, { o with reads := o.reads + 1 })

def outb (port : ℕ) (data : Byte) (o : Out) : Out := { o with ports := (port, data) :: o.ports }

def delay (o : Out) : Out := (inb dev 0x84 (inb dev 0x84 (inb dev 0x84 (inb dev 0x84 o).2).2).2).2

/-- `for (i = 0; !(inb(port) & mask) && i < 12800; i++) delay();` with n = 12800 - i -/
def waitReady (port : ℕ) (mask : Byte) : ℕ → Out → Out
  | 0, o => (inb dev port o).2
  | n + 1, o =>
    if (inb dev port o).1 &&& mask ≠ 0 then (inb dev port o).2
    else waitReady port mask n (delay dev (inb dev port o).2)

def serialPutc (c : Word) (o : Out) : Out :=
  outb (COM1 + COM_TX) (low c) (waitReady dev (COM1 + COM_LSR) COM_LSR_TXRDY 12800 o)

def lptPutc (c : Word) (o : Out) : Out :=
  let o := waitReady dev (0x378 + 1) 0x80 12800 o
  let o := outb (0x378 + 0) (low c) o
  let o := outb (0x378 + 2) (0x08 ||| 0x04 ||| 0x01) o
  outb (0x378 + 2) 0x08 o

/-- if no attribute given, then use black on white -/
def withAttr (c : Word) : Word := if c &&& ~~~0xFF = 0 then c ||| 0x0700 else c

/-- `crt_pos -= (crt_pos % CRT_COLS)` -/
def Out.rowStart (o : Out) : Out := { o with crtPos := o.crtPos - o.crtPos % BitVec.ofNat 16 CRT_COLS }

/-- the switch of cga_putc, except for '\t' -/
def cgaWrite (c : Word) (o : Out) : Out :=
  if low c = chr '\x08' then
    if 0 < o.crtPos then
      ({ o with crtPos := o.crtPos - 1 } : Out).setCell (o.crtPos - 1).toNat
        ((c &&& ~~~0xFF ||| (uchar (chr ' '))).truncate 16)
    else o
  else if low c = chr '\n' then ({ o with crtPos := o.crtPos + BitVec.ofNat 16 CRT_COLS } : Out).rowStart
  else if low c = chr '\r' then o.rowStart
  else { o.setCell o.crtPos.toNat (c.truncate 16) with crtPos := o.crtPos + 1 }

/-- `for (; i < CRT_SIZE; i++) crt_buf[i] = 0x0700 | ' '` with n = CRT_SIZE - i -/
def fillBlank : ℕ → ℕ → Out → Out
  | _, 0, o => o
  | i, n + 1, o => fillBlank (i + 1) n (o.setCell i (0x0700 ||| 0x20))

/-- one row up, when the position is past the last row -/
def cgaScroll (o : Out) : Out :=
  if CRT_SIZE ≤ o.crtPos.toNat then
    let o := { o with
      ram := memmove o.disp.crtBuf (o.disp.crtBuf + BitVec.ofNat 32 (2 * CRT_COLS))
        (BitVec.ofNat 32 ((CRT_SIZE - CRT_COLS) * 2)) o.ram }
    let o := fillBlank (CRT_SIZE - CRT_COLS) CRT_COLS o
    { o with crtPos := o.crtPos - BitVec.ofNat 16 CRT_COLS }
  else o

/-- move that little blinky thing -/
def cgaCursor (o : Out) : Out :=
  let o := outb o.disp.addr6845 14 o
  let o := outb (o.disp.addr6845 + 1) ((o.crtPos >>> 8).truncate 8) o
  let o := outb o.disp.addr6845 15 o
  outb (o.disp.addr6845 + 1) (o.crtPos.truncate 8) o

/-- 1 for the character that cga_putc prints by calls of cons_putc -/
def tabs (c : Word) : ℕ := if low (withAttr c) = chr '\t' then 1 else 0

mutual

def cgaPutc (c : Word) (o : Out) : Out :=
  if _h : low (withAttr c) = chr '\t' then
    let o := consPutc (uchar (chr ' ')) o
    let o := consPutc (uchar (chr ' ')) o
    let o := consPutc (uchar (chr ' ')) o
    let o := consPutc (uchar (chr ' ')) o
    let o := consPutc (uchar (chr ' ')) o
    cgaCursor (cgaScroll o)
  else cgaCursor (cgaScroll (cgaWrite (withAttr c) o))
termination_by 2 * tabs c
decreasing_by
  all_goals
    rw [show tabs (uchar (chr ' ')) = 0 by decide, show tabs c = 1 from if_pos _h]
    omega

/-- output a character to the console -/
def consPutc (c : Word) (o : Out) : Out := cgaPutc c (lptPutc dev c (serialPutc dev c o))
termination_by 2 * tabs c + 1
decreasing_by omega

end

def cputchar (c : Word) (o : Out) : Out := consPutc dev c o

/-! ## What the drivers change -/

/-- five calls of cons_putc(' ') -/
def fiveSpaces (o : Out) : Out := (consPutc dev (uchar (chr ' ')))^[5] o

theorem cgaPutc_tab {c : Word} (h : low (withAttr c) = chr '\t') (o : Out) :
    cgaPutc dev c o = cgaCursor (cgaScroll (fiveSpaces dev o)) := by
  rw [cgaPutc, dif_pos h]; rfl

theorem cgaPutc_plain {c : Word} (h : low (withAttr c) ≠ chr '\t') (o : Out) :
    cgaPutc dev c o = cgaCursor (cgaScroll (cgaWrite (withAttr c) o)) := by
  rw [cgaPutc, dif_neg h]

theorem waitReady_eq (port : ℕ) (mask : Byte) (n : ℕ) (o : Out) :
    ∃ k, waitReady dev port mask n o = { o with reads := k } := by
  induction n generalizing o with
  | zero => exact ⟨_, rfl⟩
  | succ n ih =>
    rw [waitReady]
    split_ifs
    · exact ⟨_, rfl⟩
    · obtain ⟨k, hk⟩ := ih (delay dev (inb dev port o).2)
      exact ⟨k, hk⟩

theorem serialPutc_eq (c : Word) (o : Out) :
    ∃ k, serialPutc dev c o = { o with reads := k, ports := (COM1 + COM_TX, low c) :: o.ports } := by
  obtain ⟨k, hk⟩ := waitReady_eq dev (COM1 + COM_LSR) COM_LSR_TXRDY 12800 o
  exact ⟨k, by rw [serialPutc, hk]; rfl⟩

theorem lptPutc_eq (c : Word) (o : Out) :
    ∃ k, lptPutc dev c o =
      { o with reads := k, ports := (0x37A, 0x08) :: (0x37A, 0x0D) :: (0x378, low c) :: o.ports } := by
  obtain ⟨k, hk⟩ := waitReady_eq dev (0x378 + 1) 0x80 12800 o
  exact ⟨k, by rw [lptPutc, hk]; rfl⟩

/-- what cons_putc does to the screen, cga_putc does -/
theorem consPutc_cga (c : Word) (o : Out) :
    ∃ reads ports, consPutc dev c o = cgaPutc dev c { o with reads := reads, ports := ports } := by
  obtain ⟨m, hm⟩ := serialPutc_eq dev c o
  obtain ⟨m', hm'⟩ := lptPutc_eq dev c (serialPutc dev c o)
  exact ⟨m', _, by rw [consPutc, hm', hm]⟩

@[simp] theorem cgaWrite_ports (c : Word) (o : Out) : (cgaWrite c o).ports = o.ports := by
  unfold cgaWrite
  split_ifs <;> rfl

@[simp] theorem fillBlank_ports (i n : ℕ) (o : Out) : (fillBlank i n o).ports = o.ports := by
  induction n generalizing i o with
  | zero => rfl
  | succ n ih => exact ih _ _

@[simp] theorem fillBlank_crtPos (i n : ℕ) (o : Out) : (fillBlank i n o).crtPos = o.crtPos := by
  induction n generalizing i o with
  | zero => rfl
  | succ n ih => exact ih _ _

@[simp] theorem cgaScroll_ports (o : Out) : (cgaScroll o).ports = o.ports := by
  unfold cgaScroll
  split_ifs
  · simp only [fillBlank_ports]
  · rfl

@[simp] theorem withAttr_low (c : Word) : low (withAttr c) = low c := by
  unfold withAttr
  split_ifs
  · simp [low, BitVec.setWidth_or]
  · rfl

end Drivers

end Jos.Console
