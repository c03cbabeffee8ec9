/-
`serial_init` and `cons_init` of kern/console.c, and the serial line behind them.

The UART has two registers at each of its first two ports: while the divisor latch access bit (DLAB) is set, a write to the
transmit register sets the speed instead. `uart` gives the chip by the log of port writes.

- `serialInit_uart`: what serial_init makes of the chip, from any state of it.
- `Serves`: output that sets no register, and transmits given bytes.
- **`serial_line_kept`**: every run of the console from cons_init on.
-/
import Jos.Console.Devices
import Jos.Console.Fanout
import Jos.Console.Init
import Jos.Printfmt.Directive

namespace Jos.Console

open Sink (feed)

/-! ## Model -/

def COM_RX : ℕ := 0
def COM_DLL : ℕ := 0
def COM_DLM : ℕ := 1
def COM_IER : ℕ := 1
def COM_IER_RDI : Byte := 0x01
def COM_IIR : ℕ := 2
def COM_FCR : ℕ := 2
def COM_LCR : ℕ := 3
def COM_LCR_DLAB : Byte := 0x80
def COM_LCR_WLEN8 : Byte := 0x03
def COM_MCR : ℕ := 4

def serialAbsent : String := "Serial port does not exist!\n"

section Init

variable (dev : ℕ → ℕ → Byte)

/-- the writes of serial_init -/
def serialSetup (o : Out) : Out :=
  -- turn off the FIFO
  let o := outb (COM1 + COM_FCR) 0 o
  -- set speed; requires DLAB latch
  let o := outb (COM1 + COM_LCR) COM_LCR_DLAB o
  let o := outb (COM1 + COM_DLL) (BitVec.ofNat 8 (115200 / 9600)) o
  let o := outb (COM1 + COM_DLM) 0 o
  -- 8 data bits, 1 stop bit, parity off; turn off DLAB latch
  let o := outb (COM1 + COM_LCR) (COM_LCR_WLEN8 &&& ~~~COM_LCR_DLAB) o
  -- no modem controls
  let o := outb (COM1 + COM_MCR) 0 o
  -- enable rcv interrupts
  outb (COM1 + COM_IER) COM_IER_RDI o

/-- `serial_init`; its last read takes a byte that has come in before -/
def serialInit (s : State) : State :=
  let o := serialSetup s.out
  -- serial port doesn't exist if COM_LSR returns 0xFF
  let (lsr, o) := inb dev (COM1 + COM_LSR) o
  let (_, o) := inb dev (COM1 + COM_IIR) o
  let (_, o) := inb dev (COM1 + COM_RX) o
  { s with out := o, serialExists := lsr ≠ 0xFF, com := s.com.tail }

/-- `cons_init`, with what the machine answers to the probe of cga_init; kbd_init is empty -/
def consInit (back : BitVec 16) (s : State) : State :=
  let s := { s with out := cgaInit dev back s.out.ram s.out.ports s.out.reads }
  let s := serialInit dev s
  if s.serialExists then s else { s with out := cprintf dev serialAbsent s.out }

end Init

/-! ## The UART -/

structure Uart where
  dll : Byte
  dlm : Byte
  ier : Byte
  fcr : Byte
  lcr : Byte
  mcr : Byte
  /-- the bytes transmitted -/
  sent : List Byte

def Uart.dlab (u : Uart) : Prop := u.lcr &&& COM_LCR_DLAB ≠ 0

instance (u : Uart) : Decidable u.dlab := inferInstanceAs (Decidable (_ ≠ _))

/-- a write to one of the registers -/
def Uart.write (reg : ℕ) (b : Byte) (u : Uart) : Uart :=
  match reg with
  | 0 => if u.dlab then { u with dll := b } else { u with sent := u.sent ++ [b] }
  | 1 => if u.dlab then { u with dlm := b } else { u with ier := b }
  | 2 => { u with fcr := b }
  | 3 => { u with lcr := b }
  | 4 => { u with mcr := b }
  | _ => u

/-- the UART at COM1, by a log of port writes -/
def uart (u : Uart) : List (ℕ × Byte) → Uart
  | [] => u
  | (port, b) :: l => if COM1 ≤ port ∧ port < COM1 + 8 then (uart u l).write (port - COM1) b else uart u l

/-- bits per second, with a clock of 115200 -/
def Uart.baud (u : Uart) : ℕ := 115200 / (256 * u.dlm.toNat + u.dll.toNat)

/-- 9600 bits per second, 8 data bits, 1 stop bit, no parity; no FIFO and no modem control; an interrupt for every byte that
comes in -/
structure Uart.Configured (u : Uart) : Prop where
  dlab : ¬ u.dlab
  baud : u.baud = 9600
  data : 5 + (u.lcr &&& 3).toNat = 8
  stop : u.lcr.getLsbD 2 = false
  parity : u.lcr.getLsbD 3 = false
  fifo : u.fcr = 0
  modem : u.mcr = 0
  received : u.ier = COM_IER_RDI

theorem uart_reg (u : Uart) {r : ℕ} (hr : r < 8) (b : Byte) (l : List (ℕ × Byte)) :
    uart u ((COM1 + r, b) :: l) = (uart u l).write r b := by
  rw [uart, if_pos ⟨Nat.le_add_right COM1 r, Nat.add_lt_add_left hr COM1⟩, Nat.add_sub_cancel_left]

/-- a write to another device -/
theorem uart_other (u : Uart) {port : ℕ} (hport : ¬ (COM1 ≤ port ∧ port < COM1 + 8)) (b : Byte) (l : List (ℕ × Byte)) :
    uart u ((port, b) :: l) = uart u l := if_neg hport

/-- **serial_init**, from any state of the chip. It transmits nothing, although it writes to the transmit register. -/
theorem serialInit_uart (dev : ℕ → ℕ → Byte) (u : Uart) (s : State) :
    (uart u (serialInit dev s).out.ports).Configured ∧
      (uart u (serialInit dev s).out.ports).sent = (uart u s.out.ports).sent := by
  have hset : uart u (serialInit dev s).out.ports = ⟨12, 0, COM_IER_RDI, 0, 3, 0, (uart u s.out.ports).sent⟩ := by
    show uart u ((COM1 + COM_IER, _) :: (COM1 + COM_MCR, _) :: (COM1 + COM_LCR, _) :: (COM1 + COM_DLM, _) ::
      (COM1 + COM_DLL, _) :: (COM1 + COM_LCR, _) :: (COM1 + COM_FCR, _) :: s.out.ports) = _
    rw [uart_reg u (by decide), uart_reg u (by decide), uart_reg u (by decide), uart_reg u (by decide), uart_reg u (by decide),
      uart_reg u (by decide), uart_reg u (by decide)]
    -- DLAB is set by the second write, and cleared by the fifth
    have h1 : COM_LCR_DLAB &&& COM_LCR_DLAB ≠ 0 := by decide
    have h0 : ¬ (COM_LCR_WLEN8 &&& ~~~COM_LCR_DLAB) &&& COM_LCR_DLAB ≠ 0 := by decide
    simp only [COM_IER, COM_MCR, COM_LCR, COM_DLM, COM_DLL, COM_FCR, Uart.write, Uart.dlab, if_pos h1, if_neg h0]
    rfl
  rw [hset]
  have hdlab : ¬ (3 : Byte) &&& COM_LCR_DLAB ≠ 0 := by decide
  have hbaud : 115200 / (256 * (0 : Byte).toNat + (12 : Byte).toNat) = 9600 := by decide
  have hdata : 5 + ((3 : Byte) &&& 3).toNat = 8 := by decide
  have hstop : (3 : Byte).getLsbD 2 = false := by decide
  have hparity : (3 : Byte).getLsbD 3 = false := by decide
  exact ⟨⟨hdlab, hbaud, hdata, hstop, hparity, rfl, rfl, rfl⟩, rfl⟩

/-! ## Output behind it -/

/-- between o and o' the UART has transmitted l, and its registers are as they were -/
def Serves (o o' : Out) (l : List Byte) : Prop :=
  ∀ u, ¬ (uart u o.ports).dlab → uart u o'.ports = { uart u o.ports with sent := (uart u o.ports).sent ++ l }

theorem Serves.none {o o' : Out} (h : ∀ u, uart u o'.ports = uart u o.ports) : Serves o o' [] := by
  intro u _
  rw [h, List.append_nil]

theorem Serves.trans {o₁ o₂ o₃ : Out} {l l' : List Byte} (h : Serves o₁ o₂ l) (h' : Serves o₂ o₃ l') :
    Serves o₁ o₃ (l ++ l') := by
  intro u hu
  have h₁ := h u hu
  have hu' : ¬ (uart u o₂.ports).dlab := by
    rw [h₁]
    exact hu
  rw [h' u hu', h₁, List.append_assoc]

theorem cgaCursor_serves (o : Out) : Serves o (cgaCursor o) [] := by
  refine Serves.none fun u => ?_
  have hports : ¬ (COM1 ≤ o.disp.addr6845 ∧ o.disp.addr6845 < COM1 + 8) ∧
      ¬ (COM1 ≤ o.disp.addr6845 + 1 ∧ o.disp.addr6845 + 1 < COM1 + 8) := by
    rcases o.disp.wired with h | h <;> rw [h.1] <;> decide
  show uart u ((o.disp.addr6845 + 1, _) :: (o.disp.addr6845, _) :: (o.disp.addr6845 + 1, _) :: (o.disp.addr6845, _) ::
    o.ports) = _
  rw [uart_other u hports.2, uart_other u hports.1, uart_other u hports.2, uart_other u hports.1]

section Output

variable (dev : ℕ → ℕ → Byte)

theorem serial_lpt_serves (c : Word) (o : Out) : Serves o (lptPutc dev c (serialPutc dev c o)) [low c] := by
  obtain ⟨k, hk⟩ := serialPutc_eq dev c o
  obtain ⟨k', hk'⟩ := lptPutc_eq dev c (serialPutc dev c o)
  intro u hu
  rw [hk', hk]
  show uart u ((_, _) :: (_, _) :: (_, _) :: (COM1 + COM_TX, low c) :: o.ports) = _
  rw [uart_other u (by decide), uart_other u (by decide), uart_other u (by decide)]
  exact if_neg hu

theorem cgaPutc_plain_serves {c : Word} (h : low c ≠ chr '\t') (o : Out) : Serves o (cgaPutc dev c o) [] := by
  have hwrite : Serves o (cgaScroll (cgaWrite (withAttr c) o)) [] := Serves.none fun u => by
    rw [cgaScroll_ports, cgaWrite_ports]
  rw [cgaPutc_plain dev (by rwa [withAttr_low])]
  exact hwrite.trans (cgaCursor_serves _)

theorem consPutc_plain_serves {c : Word} (h : low c ≠ chr '\t') (o : Out) : Serves o (consPutc dev c o) [low c] := by
  have hall := (serial_lpt_serves dev c o).trans (cgaPutc_plain_serves dev h (lptPutc dev c (serialPutc dev c o)))
  rw [consPutc]
  simpa using hall

theorem spaces_serves (n : ℕ) (o : Out) :
    Serves o ((consPutc dev (uchar (chr ' ')))^[n] o) (List.replicate n (chr ' ')) := by
  induction n generalizing o with
  | zero => exact Serves.none fun _ => rfl
  | succ n ih =>
    have hspace := consPutc_plain_serves dev (c := uchar (chr ' ')) (by decide) o
    rw [low_uchar] at hspace
    exact hspace.trans (ih _)

/-- **One character.** -/
theorem cputchar_serves (c : Word) (o : Out) : Serves o (cputchar dev c o) (sentFor c) := by
  rw [cputchar, sentFor]
  split_ifs with ht
  · have hdevices := serial_lpt_serves dev c o
    rw [ht] at hdevices
    have hcursor : ∀ o', Serves o' (cgaCursor (cgaScroll o')) [] := by
      intro o'
      have hscroll : Serves o' (cgaScroll o') [] := Serves.none fun u => by rw [cgaScroll_ports]
      exact hscroll.trans (cgaCursor_serves _)
    have hspaces := (spaces_serves dev 5 (lptPutc dev c (serialPutc dev c o))).trans (hcursor _)
    rw [List.append_nil] at hspaces
    rw [consPutc, cgaPutc_tab dev (by rwa [withAttr_low])]
    exact hdevices.trans hspaces
  · exact consPutc_plain_serves dev ht o

theorem putText_serves (cs : List Word) (o : Out) : Serves o (putText dev cs o) (cs.flatMap sentFor) := by
  induction cs generalizing o with
  | nil => exact Serves.none fun _ => rfl
  | cons c cs ih => exact (cputchar_serves dev c o).trans (ih _)

/-- cprintf of a text without a directive -/
theorem cprintf_putText {t : String} (ht : ∀ x ∈ bytes t, x ≠ chr '%' ∧ x ≠ 0#8) (o : Out) :
    cprintf dev t o = putText dev ((bytes t).map uchar) o := by
  have hemit : Printfmt.emit (bytes t ++ [0]) [] = _ := (Printfmt.renders_literal (bytes t) ht).emit
  rw [cprintf, Printfmt.vcprintf_eq, hemit]
  rfl

/-! ## The console in use -/

/-- what the kernel does with the console, and what comes in -/
inductive Use where
  | put (c : Word)
  | rx (b : Byte)
  | key (b : Byte)
  | serialIntr
  | kbdIntr
  | getc
deriving DecidableEq, Repr

def Use.exec : Use → State → State
  | put c, s => { s with out := cputchar dev c s.out }
  | rx b, s => { s with com := s.com ++ [b] }
  | key b, s => { s with kbd := s.kbd ++ [b] }
  | serialIntr, s => Console.serialIntr dev s
  | kbdIntr, s => Console.kbdIntr dev s
  | getc, s => (consGetc dev s).2

def useAll (us : List Use) (s : State) : State := us.foldl (fun s u => u.exec dev s) s

/-- what kbd_proc_data prints for a scancode: something for Ctrl-Alt-Del only -/
def scanText (shift : Word) (d : Byte) : List Word :=
  if (kbdScan shift d).2.2 then (bytes "Rebooting!\n").map uchar else []

def kbdText : Word → List Byte → List Word
  | _, [] => []
  | shift, d :: l => scanText shift d ++ kbdText (kbdScan shift d).2.1 l

/-- the characters that a use prints -/
def Use.prints : Use → State → List Word
  | put c, _ => [c]
  | rx _, _ => []
  | key _, _ => []
  | serialIntr, _ => []
  | kbdIntr, s => kbdText s.shift s.kbd
  | getc, s => kbdText s.shift s.kbd

def printed : List Use → State → List Word
  | [], _ => []
  | u :: us, s => u.prints s ++ printed us (u.exec dev s)

theorem consIntr_serial_out (s : State) : (consIntr dev .serial s).out = s.out := by
  have hcall : ∀ s : State, (Proc.call dev .serial s).2.out = s.out := by
    intro s
    simp only [Proc.call, serialProcData]
    split <;> rfl
  fun_induction consIntr dev .serial s with
  | case1 s h => exact hcall s
  | case2 s h h0 ih => rw [ih, hcall]
  | case3 s h h0 ih =>
    rw [ih]
    exact hcall s

theorem serialIntr_same (s : State) : (Console.serialIntr dev s).out = s.out ∧ (Console.serialIntr dev s).kbd = s.kbd ∧
    (Console.serialIntr dev s).shift = s.shift := by
  unfold Console.serialIntr
  split_ifs
  · obtain ⟨-, hkbd, hshift, -⟩ := serial_polled dev s
    exact ⟨consIntr_serial_out dev s, hkbd, hshift⟩
  · exact ⟨rfl, rfl, rfl⟩

/-- kbd_intr reads all scancodes, and prints for each Ctrl-Alt-Del -/
theorem kbdIntr_serves (s : State) :
    Serves s.out (Console.kbdIntr dev s).out ((kbdText s.shift s.kbd).flatMap sentFor) := by
  show Serves s.out (consIntr dev .kbd s).out _
  induction hk : s.kbd generalizing s with
  | nil =>
    have hcall : Proc.call dev .kbd s = (-1, s) := by simp [Proc.call, kbdProcData, hk]
    rw [consIntr, dif_pos (by rw [hcall]), hcall]
    exact Serves.none fun _ => rfl
  | cons d kbd ih =>
    have hone : Serves s.out (Proc.call dev .kbd s).2.out ((scanText s.shift d).flatMap sentFor) := by
      simp only [Proc.call, kbdProcData, hk, scanText]
      split_ifs with hreboot
      · have hreset : ∀ o, Serves o (outb 0x92 0x3 o) [] := fun o => Serves.none fun u => uart_other u (by decide) _ _
        have htext := (putText_serves dev ((bytes "Rebooting!\n").map uchar) s.out).trans (hreset _)
        rw [List.append_nil] at htext
        rw [cprintf_putText dev (by decide +kernel)]
        exact htext
      · exact Serves.none fun _ => rfl
    have hnext : (Proc.call dev .kbd s).2.kbd = kbd ∧ (Proc.call dev .kbd s).2.shift = (kbdScan s.shift d).2.1 ∧
        (Proc.call dev .kbd s).1 = (kbdScan s.shift d).1 := by
      simp only [Proc.call, kbdProcData, hk]
      exact ⟨trivial, trivial, trivial⟩
    have hrange := kbdScan_range s.shift d
    rw [consIntr, dif_neg (by rw [hnext.2.2]; omega), kbdText, List.flatMap_append]
    split_ifs
    · have hrest := ih (Proc.call dev .kbd s).2 hnext.1
      rw [hnext.2.1] at hrest
      exact hone.trans hrest
    · have hrest := ih ((Proc.call dev .kbd s).2.push (Proc.call dev .kbd s).1) hnext.1
      have hshift : ((Proc.call dev .kbd s).2.push (Proc.call dev .kbd s).1).shift = (kbdScan s.shift d).2.1 := hnext.2.1
      rw [hshift] at hrest
      exact hone.trans hrest

/-- **One use of the console.** -/
theorem exec_serves (u : Use) (s : State) : Serves s.out (u.exec dev s).out ((u.prints s).flatMap sentFor) := by
  cases u with
  | put c =>
    have h := cputchar_serves dev c s.out
    simpa [Use.exec, Use.prints] using h
  | rx b => exact Serves.none fun _ => rfl
  | key b => exact Serves.none fun _ => rfl
  | serialIntr =>
    refine Serves.none fun u => ?_
    show uart u (Console.serialIntr dev s).out.ports = _
    rw [(serialIntr_same dev s).1]
  | kbdIntr => exact kbdIntr_serves dev s
  | getc =>
    have hgrab : ∀ s : State, (grab s).2.out = s.out := by
      intro s
      unfold grab
      split <;> rfl
    obtain ⟨hout, hkbd, hshift⟩ := serialIntr_same dev s
    have h := kbdIntr_serves dev (Console.serialIntr dev s)
    rw [hout, hkbd, hshift] at h
    show Serves s.out (grab (Console.kbdIntr dev (Console.serialIntr dev s))).2.out _
    rw [hgrab]
    exact h

theorem useAll_serves (us : List Use) (s : State) : Serves s.out (useAll dev us s).out ((printed dev us s).flatMap sentFor) := by
  induction us generalizing s with
  | nil => exact Serves.none fun _ => rfl
  | cons u us ih =>
    rw [printed, List.flatMap_append]
    exact (exec_serves dev u s).trans (ih (u.exec dev s))

/-- what serial_init reads from the line status register; cga_init has read two bytes before -/
def lineStatus (s : State) : Byte := dev (s.out.reads + 2) (COM1 + COM_LSR)

/-- **The serial line.** Whatever state the UART is in, whatever the devices answer, and whatever is printed, comes in
and is read from cons_init on: the chip stays as serial_init has set it, and it transmits exactly what is printed,
Ctrl-Alt-Del included, with five blanks behind every tab; before that the message if the chip did not answer, and
nothing else. -/
theorem serial_line_kept (back : BitVec 16) (u : Uart) (s : State) (us : List Use) :
    (consInit dev back s).serialExists = decide (lineStatus dev s ≠ 0xFF) ∧
      (uart u (useAll dev us (consInit dev back s)).out.ports).Configured ∧
      (uart u (useAll dev us (consInit dev back s)).out.ports).sent = (uart u s.out.ports).sent ++
        ((if lineStatus dev s ≠ 0xFF then [] else (bytes serialAbsent).map uchar) ++
          printed dev us (consInit dev back s)).flatMap sentFor := by
  set s₁ : State := serialInit dev { s with out := cgaInit dev back s.out.ram s.out.ports s.out.reads } with hs₁
  have hexists : s₁.serialExists = decide (lineStatus dev s ≠ 0xFF) := rfl
  obtain ⟨hset, hnone⟩ := serialInit_uart dev u { s with out := cgaInit dev back s.out.ram s.out.ports s.out.reads }
  rw [← hs₁] at hset hnone
  -- the probe of the display
  have hcga : uart u (cgaInit dev back s.out.ram s.out.ports s.out.reads).ports = uart u s.out.ports := by
    have hports : ¬ (COM1 ≤ (probe back).addr6845 ∧ (probe back).addr6845 < COM1 + 8) := by
      rcases (probe back).wired with h | h <;> rw [h.1] <;> decide
    have hlog : (cgaInit dev back s.out.ram s.out.ports s.out.reads).ports =
        ((probe back).addr6845, 15) :: ((probe back).addr6845, 14) :: s.out.ports := rfl
    rw [hlog, uart_other u hports, uart_other u hports]
  rw [hcga] at hnone
  have hinit : (consInit dev back s).serialExists = s₁.serialExists ∧
      Serves s₁.out (consInit dev back s).out
        ((if lineStatus dev s ≠ 0xFF then [] else (bytes serialAbsent).map uchar).flatMap sentFor) := by
    have hdef : consInit dev back s =
        if s₁.serialExists then s₁ else { s₁ with out := cprintf dev serialAbsent s₁.out } := rfl
    rw [hdef, hexists]
    by_cases hl : lineStatus dev s ≠ 0xFF
    · rw [if_pos (by simpa using hl), if_pos hl]
      exact ⟨rfl, Serves.none fun _ => rfl⟩
    · rw [if_neg (by simpa using hl), if_neg hl, cprintf_putText dev (by decide +kernel)]
      exact ⟨rfl, putText_serves dev _ _⟩
  have hall := hinit.2.trans (useAll_serves dev us (consInit dev back s))
  rw [← List.flatMap_append] at hall
  refine ⟨hinit.1.trans hexists, ?_, ?_⟩
  · rw [hall u hset.dlab]
    exact ⟨hset.dlab, hset.baud, hset.data, hset.stop, hset.parity, hset.fifo, hset.modem, hset.received⟩
  · rw [hall u hset.dlab, hnone]

end Output

end Jos.Console
