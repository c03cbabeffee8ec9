/-
Console input of kern/console.c: `serial_proc_data`, `kbd_proc_data`, `cons_intr`, `cons_getc` and `getchar`.

Each device holds the bytes it has received and not yet handed over: the "data available" bit of its status port is set
while there are any, and a read of its data port takes the first one. `cons_intr` reads a device until it has no more
data. A character is an `int`, 0 where there is none yet and -1 where there is no data.
-/
import Jos.Console.Output
import Jos.Core.Ring
import Jos.Printfmt.Cprintf

namespace Jos.Console

/-! ## Keyboard tables -/

def SHIFT : Word := 0x01
def CTL : Word := 0x02
def ALT : Word := 0x04
def CAPSLOCK : Word := 0x08
def NUMLOCK : Word := 0x10
def SCROLLLOCK : Word := 0x20
def E0ESC : Word := 0x40

def KEY_HOME : Byte := 0xE0
def KEY_END : Byte := 0xE1
def KEY_UP : Byte := 0xE2
def KEY_DN : Byte := 0xE3
def KEY_LF : Byte := 0xE4
def KEY_RT : Byte := 0xE5
def KEY_PGUP : Byte := 0xE6
def KEY_PGDN : Byte := 0xE7
def KEY_INS : Byte := 0xE8
def KEY_DEL : Byte := 0xE9

/-- an array of 256 entries: its first entries, and those that are set by index -/
def table {w : ℕ} (first : List (BitVec w)) (indexed : List (Byte × BitVec w)) (i : Byte) : BitVec w :=
  match indexed.lookup i with
  | some x => x
  | none => first.getD i.toNat 0#w

def shiftcode : Byte → Word :=
  table [] [(0x1D, CTL), (0x2A, SHIFT), (0x36, SHIFT), (0x38, ALT), (0x9D, CTL), (0xB8, ALT)]

def togglecode : Byte → Word := table [] [(0x3A, CAPSLOCK), (0x45, NUMLOCK), (0x46, SCROLLLOCK)]

/-- the entries that all three maps share -/
def keypad : List (Byte × Byte) :=
  [(0xC8, KEY_UP), (0xC9, KEY_PGUP), (0xCB, KEY_LF), (0xCD, KEY_RT), (0xCF, KEY_END), (0xD0, KEY_DN), (0xD1, KEY_PGDN),
    (0xD2, KEY_INS), (0xD3, KEY_DEL)]

/-- the rows 0x38 to 0x57 of the first two maps; NO is 0 -/
def numericRows : List Byte :=
  bytes "\x00 \x00\x00\x00\x00\x00\x00" ++ bytes "\x00\x00\x00\x00\x00\x00\x007" ++ bytes "89-456+1" ++
    bytes "230.\x00\x00\x00\x00"

def normalmap : Byte → Byte :=
  table (bytes "\x00\x1b123456" ++ bytes "7890-=\x08\t" ++ bytes "qwertyui" ++ bytes "op[]\n\x00as" ++ bytes "dfghjkl;" ++
      bytes "\x27\x60\x00\\zxcv" ++ bytes "bnm,./\x00*" ++ numericRows)
    ((0xC7, KEY_HOME) :: (0x9C, chr '\n') :: (0xB5, chr '/') :: keypad)

def shiftmap : Byte → Byte :=
  table (bytes "\x00\x1b!@#$%^" ++ bytes "&*()_+\x08\t" ++ bytes "QWERTYUI" ++ bytes "OP\x7b\x7d\n\x00AS" ++
      bytes "DFGHJKL:" ++ bytes "\x22~\x00|ZXCV" ++ bytes "BNM<>?\x00*" ++ numericRows)
    ((0xC7, KEY_HOME) :: (0x9C, chr '\n') :: (0xB5, chr '/') :: keypad)

/-- `C(x)`, and NO as it is -/
def ctl (b : Byte) : Byte := if b = 0 then 0 else b - chr '@'

def ctlmap : Byte → Byte :=
  table (List.replicate 16 0 ++ (bytes "QWERTYUI").map ctl ++ (bytes "OP\x00\x00").map ctl ++ bytes "\r\x00" ++
      (bytes "AS").map ctl ++ (bytes "DFGHJKL\x00").map ctl ++ (bytes "\x00\x00\x00\\ZXCV").map ctl ++
      (bytes "BNM\x00\x00/\x00\x00").map ctl)
    ((0x97, KEY_HOME) :: (0xB5, ctl (chr '/')) :: keypad)

/-- `charcode[i]` -/
def charcode (i : Word) : Byte → Byte :=
  if i = 0 then normalmap else if i = SHIFT then shiftmap else ctlmap

/-! ## The keyboard decoder -/

/-- the case of a letter under CAPSLOCK -/
def capsLock (c : ℤ) : ℤ :=
  if 97 ≤ c ∧ c ≤ 122 then c + (65 - 97) else if 65 ≤ c ∧ c ≤ 90 then c + (97 - 65) else c

/-- the character of a key under the modifiers -/
def keyChar (shift : Word) (data : Byte) : ℤ :=
  let c : ℤ := (charcode (shift &&& (CTL ||| SHIFT)) data).toNat
  if shift &&& CAPSLOCK ≠ 0 then capsLock c else c

/-- a key pressed: its character, the modifiers after it, and whether the keys are Ctrl-Alt-Del -/
def kbdMake (shift : Word) (data : Byte) : ℤ × Word × Bool :=
  let shift := (shift ||| shiftcode data) ^^^ togglecode data
  (keyChar shift data, shift, ~~~shift &&& (CTL ||| ALT) = 0 ∧ keyChar shift data = KEY_DEL.toNat)

/-- what kbd_proc_data does with a scancode -/
def kbdScan (shift : Word) (data : Byte) : ℤ × Word × Bool :=
  if data = 0xE0 then (0, shift ||| E0ESC, false)
  else if data &&& 0x80 ≠ 0 then
    -- a key released
    let data := if shift &&& E0ESC ≠ 0 then data else data &&& 0x7F
    (0, shift &&& ~~~(shiftcode data ||| E0ESC), false)
  else if shift &&& E0ESC ≠ 0 then kbdMake (shift &&& ~~~E0ESC) (data ||| 0x80)
  else kbdMake shift data

/-! ## The console -/

def CONSBUFSIZE : ℕ := 512

structure State where
  out : Out
  serialExists : Bool
  /-- received by the serial port -/
  com : List Byte
  /-- received by the keyboard controller -/
  kbd : List Byte
  /-- the modifiers of kbd_proc_data -/
  shift : Word
  cons : Ring Byte CONSBUFSIZE

section Input

variable (dev : ℕ → ℕ → Byte)

/-- cprintf of a text -/
def cprintf (text : String) (o : Out) : Out :=
  match Printfmt.vcprintf (cputchar dev) o (bytes text ++ [0]) [] with
  | .ok (_, o) => o
  | .error _ => o

def serialProcData (s : State) : ℤ × State :=
  match s.com with
  | [] => (-1, s)
  | b :: com => (b.toNat, { s with com := com })

def kbdProcData (s : State) : ℤ × State :=
  match s.kbd with
  | [] => (-1, s)
  | data :: kbd =>
    let (c, shift, reboot) := kbdScan s.shift data
    (c, { s with
      kbd := kbd, shift := shift,
      out := if reboot then outb 0x92 0x3 (cprintf dev "Rebooting!\n" s.out) else s.out })

/-- the argument of cons_intr -/
inductive Proc where
  | serial
  | kbd
deriving DecidableEq, Repr

def Proc.call : Proc → State → ℤ × State
  | .serial => serialProcData
  | .kbd => kbdProcData dev

/-- the bytes that a device has not handed over -/
def Proc.pending : Proc → State → List Byte
  | .serial, s => s.com
  | .kbd, s => s.kbd

/-- `cons.buf[cons.wpos++] = c; if (cons.wpos == CONSBUFSIZE) cons.wpos = 0;` -/
def State.push (c : ℤ) (s : State) : State := { s with cons := s.cons.put (BitVec.ofInt 8 c) }

theorem call_pending {proc : Proc} {s : State} (h : (proc.call dev s).1 ≠ -1) :
    (proc.pending (proc.call dev s).2).length < (proc.pending s).length := by
  cases proc with
  | serial =>
    simp only [Proc.call, Proc.pending, serialProcData] at h ⊢
    split
    · rename_i hs
      rw [hs] at h
      exact absurd rfl h
    · rename_i b com hs
      rw [hs, List.length_cons]
      exact Nat.lt_succ_self _
  | kbd =>
    simp only [Proc.call, Proc.pending, kbdProcData] at h ⊢
    split
    · rename_i hs
      rw [hs] at h
      exact absurd rfl h
    · rename_i b kbd hs
      rw [hs, List.length_cons]
      exact Nat.lt_succ_self _

/-- `while ((c = (*proc)()) != -1)`: a zero is skipped -/
def consIntr (proc : Proc) (s : State) : State :=
  if _h : (proc.call dev s).1 = -1 then (proc.call dev s).2
  else if (proc.call dev s).1 = 0 then consIntr proc (proc.call dev s).2
  else consIntr proc ((proc.call dev s).2.push (proc.call dev s).1)
termination_by (proc.pending s).length
decreasing_by
  · exact call_pending dev _h
  · have := call_pending dev _h
    cases proc <;> exact this

def serialIntr (s : State) : State := if s.serialExists then consIntr dev .serial s else s

def kbdIntr (s : State) : State := consIntr dev .kbd s

/-- the end of cons_getc: the next character of the buffer -/
def grab (s : State) : ℤ × State :=
  match s.cons.take with
  | (some c, cons) => (c.toNat, { s with cons := cons })
  | (none, cons) => (0, { s with cons := cons })

/-- return the next input character from the console, or 0 if none waiting -/
def consGetc (s : State) : ℤ × State := grab (kbdIntr dev (serialIntr dev s))

/-- `while ((c = cons_getc()) == 0)`, with the bytes that reach the serial port and the keyboard before each call; none
while it still waits -/
def getchar : List (List Byte × List Byte) → State → Option (ℤ × State)
  | [], _ => none
  | (rx, keys) :: arrivals, s =>
    let r := consGetc dev { s with com := s.com ++ rx, kbd := s.kbd ++ keys }
    if r.1 = 0 then getchar arrivals r.2 else some r

end Input

end Jos.Console
