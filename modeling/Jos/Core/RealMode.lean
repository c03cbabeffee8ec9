/-
An i386 as a boot sector finds it, in real mode, up to the first code in protected mode: segment registers with their hidden
parts, the switch of the mode, and the keyboard controller, which opens the address line 20.

- `Computer.step`: one instruction, or none if it faults.
- `Insn.decode_encode`: what is assembled is decoded, for the size of operands that the code segment has.
- `code_step`: the instruction at a place of a code that lies in memory is executed.
- `Kbc.settles`: the controller gets to an end with what it was sent.
-/
import Jos.Core.Segment
import Jos.Core.Processor

namespace Jos.RealMode

open I386 (Descriptor littleHalf littleWord le32_littleWord le16_littleHalf)

/-! ## The keyboard controller -/

/-- what the controller does with a byte that it has been sent -/
inductive Task where
  /-- the next data byte is for the output port -/
  | expectPort
  | setPort (b : BitVec 8)
  | other
deriving DecidableEq, Repr

/-- the controller works on one byte at a time; a byte that comes too early is lost -/
structure Kbc where
  /-- the byte in its input buffer, as a task, and for how many more instructions it is busy with it -/
  pending : Option (Task × ℕ)
  /-- how long the next bytes take, and what the other bits of its status are -/
  delays : ℕ → ℕ
  noise : ℕ → BitVec 8
  expecting : Bool
  /-- its output port: bit 0 keeps the processor out of reset, bit 1 opens the address line 20 -/
  port : BitVec 8

/-- a task is done -/
def Task.finish : Task → Kbc → Kbc
  | expectPort, k => { k with expecting := true }
  | setPort b, k => { k with port := b }
  | other, k => k

/-- an instruction's time goes by -/
def Kbc.tick (k : Kbc) : Kbc :=
  match k.pending with
  | none => k
  | some (t, 0) => t.finish { k with pending := none }
  | some (t, n + 1) => { k with pending := some (t, n) }

/-- bit 1: the input buffer is full -/
def Kbc.status (k : Kbc) : BitVec 8 := if k.pending.isSome then k.noise 0 ||| 2 else k.noise 0 &&& ~~~2

/-- a byte is written to port 0x64 (a command) or to port 0x60 (data) -/
def Kbc.write (command : Bool) (b : BitVec 8) (k : Kbc) : Kbc :=
  match k.pending with
  | some _ => k
  | none =>
    let t := if command then (if b = 0xD1 then .expectPort else .other) else if k.expecting then .setPort b else .other
    { k with pending := some (t, k.delays 0), delays := fun i => k.delays (i + 1), expecting := false }

def Kbc.a20 (k : Kbc) : Bool := k.port.getLsbD 1

/-! ## The machine -/

inductive Sreg where
  | es
  | cs
  | ss
  | ds
  | fs
  | gs
deriving DecidableEq, Repr

/-- a segment register: the selector, and the descriptor that it stands for -/
structure Segment where
  sel : BitVec 16
  desc : Descriptor
deriving DecidableEq, Repr

structure Computer where
  /-- the offset of the next instruction -/
  eip : BitVec 32
  eax : BitVec 32
  esp : BitVec 32
  zf : Bool
  /-- direction flag, and interrupt flag -/
  df : Bool
  intr : Bool
  seg : Sreg → Segment
  gdtLimit : BitVec 16
  gdtBase : BitVec 32
  cr0 : BitVec 32
  mem : BitVec 32 → BitVec 8
  kbc : Kbc

/-- the instructions, with the size of their operands -/
inductive Insn where
  | cli
  | cld
  /-- `xorw %ax, %ax` -/
  | xorwAx
  /-- `movw %ax, s` -/
  | movwSeg (s : Sreg)
  /-- `inb $p, %al` -/
  | inb (p : BitVec 8)
  /-- `testb $v, %al` -/
  | testb (v : BitVec 8)
  | jnz (rel : BitVec 8)
  /-- `movb $v, %al` -/
  | movbAl (v : BitVec 8)
  /-- `outb %al, $p` -/
  | outb (p : BitVec 8)
  /-- `lgdt a`, with operands of 16 bits -/
  | lgdt (a : BitVec 16)
  /-- `movl %cr0, %eax` -/
  | movlFromCr0
  /-- `orl $v, %eax` -/
  | orl (v : BitVec 8)
  /-- `movl %eax, %cr0` -/
  | movlToCr0
  | ljmp (sel off : BitVec 16)
  /-- `movw $v, %ax` -/
  | movwAx (v : BitVec 16)
  /-- `movl $v, %esp` -/
  | movlEsp (v : BitVec 32)
  | call (rel : BitVec 32)
  | jmp (rel : BitVec 8)
deriving DecidableEq, Repr

/-! ## The machine code -/

/-- the number of a segment register -/
def Sreg.code : Sreg → BitVec 8
  | es => 0
  | cs => 1
  | ss => 2
  | ds => 3
  | fs => 4
  | gs => 5

def Sreg.ofCode (b : BitVec 8) : Option Sreg :=
  if b = 0 then some es else if b = 1 then some cs else if b = 2 then some ss else if b = 3 then some ds
  else if b = 4 then some fs else if b = 5 then some gs else none

/-- the prefix for operands that are not of the size of the code segment's -/
def opsize (same : Bool) : List (BitVec 8) := if same then [] else [0x66]

/-- the bytes that an assembler puts out, for a code segment of 32 bits or of 16 -/
def Insn.encode (big : Bool) : Insn → List (BitVec 8)
  | cli => [0xFA]
  | cld => [0xFC]
  | xorwAx => opsize (!big) ++ [0x31, 0xC0]
  | movwSeg s => [0x8E, 0xC0 + s.code <<< 3]
  | inb p => [0xE4, p]
  | testb v => [0xA8, v]
  | jnz rel => [0x75, rel]
  | movbAl v => [0xB0, v]
  | outb p => [0xE6, p]
  | lgdt a => [0x0F, 0x01, 0x16] ++ littleHalf a
  | movlFromCr0 => [0x0F, 0x20, 0xC0]
  | orl v => opsize big ++ [0x83, 0xC8, v]
  | movlToCr0 => [0x0F, 0x22, 0xC0]
  | ljmp sel off => 0xEA :: (littleHalf off ++ littleHalf sel)
  | movwAx v => opsize (!big) ++ 0xB8 :: littleHalf v
  | movlEsp v => opsize big ++ 0xBC :: littleWord v
  | call rel => 0xE8 :: littleWord rel
  | jmp rel => [0xEB, rel]

/-- instructions whose bytes mean something else in a code segment of the other size -/
def Insn.fits (big : Bool) : Insn → Bool
  | lgdt _ => !big
  | ljmp _ _ => !big
  | call _ => big
  | _ => true

/-- an instruction that has operands of 32 bits, or of 16 -/
def Insn.decodeSized (big : Bool) (f : ℕ → BitVec 8) : Option (Insn × ℕ) :=
  if f 0 = 0x31 ∧ f 1 = 0xC0 ∧ big = false then some (xorwAx, 2)
  else if f 0 = 0x83 ∧ f 1 = 0xC8 ∧ big = true then some (orl (f 2), 3)
  else if f 0 = 0xB8 ∧ big = false then some (movwAx (le16 f 1), 3)
  else if f 0 = 0xBC ∧ big = true then some (movlEsp (le32 f 1), 5)
  else none

/-- the instruction with the bytes f, and its length -/
def Insn.decode (big : Bool) (f : ℕ → BitVec 8) : Option (Insn × ℕ) :=
  if f 0 = 0xFA then some (cli, 1)
  else if f 0 = 0xFC then some (cld, 1)
  else if f 0 = 0x8E then (Sreg.ofCode ((f 1 - 0xC0) >>> 3)).map fun s => (movwSeg s, 2)
  else if f 0 = 0xE4 then some (inb (f 1), 2)
  else if f 0 = 0xA8 then some (testb (f 1), 2)
  else if f 0 = 0x75 then some (jnz (f 1), 2)
  else if f 0 = 0xB0 then some (movbAl (f 1), 2)
  else if f 0 = 0xE6 then some (outb (f 1), 2)
  else if f 0 = 0x0F ∧ f 1 = 0x01 ∧ f 2 = 0x16 ∧ big = false then some (lgdt (le16 f 3), 5)
  else if f 0 = 0x0F ∧ f 1 = 0x20 ∧ f 2 = 0xC0 then some (movlFromCr0, 3)
  else if f 0 = 0x0F ∧ f 1 = 0x22 ∧ f 2 = 0xC0 then some (movlToCr0, 3)
  else if f 0 = 0xEA ∧ big = false then some (ljmp (le16 f 3) (le16 f 1), 5)
  else if f 0 = 0xE8 ∧ big = true then some (call (le32 f 1), 5)
  else if f 0 = 0xEB then some (jmp (f 1), 2)
  else if f 0 = 0x66 then (decodeSized (!big) fun k => f (k + 1)).map fun r => (r.1, r.2 + 1)
  else decodeSized big f

/-- operands of the code segment's size, or of the other one behind a prefix -/
theorem Insn.decode_sized {big : Bool} {same : Bool} {i : Insn} {l : List (BitVec 8)} {f : ℕ → BitVec 8}
    (h : ∀ k (h : k < (opsize same ++ l).length), f k = (opsize same ++ l)[k])
    (hfirst : ∀ b ∈ l.head?, b ∈ [0x31, 0x83, 0xB8, (0xBC : BitVec 8)])
    (hsized : ∀ g : ℕ → BitVec 8, (∀ k (h : k < l.length), g k = l[k]) →
      decodeSized (if same then big else !big) g = some (i, l.length)) (hne : l ≠ []) :
    decode big f = some (i, (opsize same ++ l).length) := by
  cases same with
  | true =>
    have hg := hsized f h
    obtain ⟨b, l, rfl⟩ := List.exists_cons_of_ne_nil hne
    have h0 : f 0 = b := h 0 (Nat.succ_pos _)
    have hb := hfirst b rfl
    simp only [List.mem_cons, List.not_mem_nil, or_false] at hb
    have hdecode : decode big f = decodeSized big f := by
      rcases hb with rfl | rfl | rfl | rfl <;> simp only [decode, h0] <;> rfl
    exact hdecode.trans hg
  | false =>
    have h0 : f 0 = 0x66 := h 0 (Nat.succ_pos _)
    have hg := hsized (fun k => f (k + 1)) fun k hk => h (k + 1) (Nat.succ_lt_succ hk)
    have hdecode : decode big f = (decodeSized (!big) fun k => f (k + 1)).map fun r => (r.1, r.2 + 1) := by
      simp only [decode, h0]
      rfl
    rw [hdecode]
    exact congrArg (Option.map fun r => (r.1, r.2 + 1)) hg

/-- **What is assembled is decoded.** -/
theorem Insn.decode_encode {big : Bool} {i : Insn} (hfits : i.fits big = true) {f : ℕ → BitVec 8}
    (h : ∀ k (h : k < (i.encode big).length), f k = (i.encode big)[k]) :
    decode big f = some (i, (i.encode big).length) := by
  cases i with
  | cli =>
    have h0 : f 0 = 0xFA := h 0 (Nat.succ_pos _)
    simp only [decode, h0]
    rfl
  | cld =>
    have h0 : f 0 = 0xFC := h 0 (Nat.succ_pos _)
    simp only [decode, h0]
    rfl
  | xorwAx =>
    refine decode_sized h (by decide) (fun g hg => ?_) (by decide)
    have h0 : g 0 = 0x31 := hg 0 (by decide)
    have h1 : g 1 = 0xC0 := hg 1 (by decide)
    simp only [decodeSized, h0, h1]
    cases big <;> rfl
  | movwSeg s =>
    have h0 : f 0 = 0x8E := h 0 (show 0 < 2 by decide)
    have h1 : f 1 = 0xC0 + s.code <<< 3 := h 1 (show 1 < 2 by decide)
    simp only [decode, h0, h1]
    cases s <;> rfl
  | inb p =>
    have h0 : f 0 = 0xE4 := h 0 (show 0 < 2 by decide)
    have h1 : f 1 = p := h 1 (show 1 < 2 by decide)
    simp only [decode, h0, h1]
    rfl
  | testb v =>
    have h0 : f 0 = 0xA8 := h 0 (show 0 < 2 by decide)
    have h1 : f 1 = v := h 1 (show 1 < 2 by decide)
    simp only [decode, h0, h1]
    rfl
  | jnz rel =>
    have h0 : f 0 = 0x75 := h 0 (show 0 < 2 by decide)
    have h1 : f 1 = rel := h 1 (show 1 < 2 by decide)
    simp only [decode, h0, h1]
    rfl
  | movbAl v =>
    have h0 : f 0 = 0xB0 := h 0 (show 0 < 2 by decide)
    have h1 : f 1 = v := h 1 (show 1 < 2 by decide)
    simp only [decode, h0, h1]
    rfl
  | outb p =>
    have h0 : f 0 = 0xE6 := h 0 (show 0 < 2 by decide)
    have h1 : f 1 = p := h 1 (show 1 < 2 by decide)
    simp only [decode, h0, h1]
    rfl
  | lgdt a =>
    obtain rfl : big = false := by simpa [fits] using hfits
    have h0 : f 0 = 0x0F := h 0 (show 0 < 5 by decide)
    have h1 : f 1 = 0x01 := h 1 (show 1 < 5 by decide)
    have h2 : f 2 = 0x16 := h 2 (show 2 < 5 by decide)
    have ha : le16 f 3 = a := le16_littleHalf fun k hk => by
      rw [h (3 + k) (show 3 + k < 5 by omega)]
      interval_cases k <;> rfl
    simp only [decode, h0, h1, h2, ha]
    rfl
  | movlFromCr0 =>
    have h0 : f 0 = 0x0F := h 0 (show 0 < 3 by decide)
    have h1 : f 1 = 0x20 := h 1 (show 1 < 3 by decide)
    have h2 : f 2 = 0xC0 := h 2 (show 2 < 3 by decide)
    simp only [decode, h0, h1, h2]
    rfl
  | orl v =>
    refine decode_sized h (by simp) (fun g hg => ?_) (by simp)
    have h0 : g 0 = 0x83 := hg 0 (show 0 < 3 by decide)
    have h1 : g 1 = 0xC8 := hg 1 (show 1 < 3 by decide)
    have h2 : g 2 = v := hg 2 (show 2 < 3 by decide)
    simp only [decodeSized, h0, h1, h2]
    cases big <;> rfl
  | movlToCr0 =>
    have h0 : f 0 = 0x0F := h 0 (show 0 < 3 by decide)
    have h1 : f 1 = 0x22 := h 1 (show 1 < 3 by decide)
    have h2 : f 2 = 0xC0 := h 2 (show 2 < 3 by decide)
    simp only [decode, h0, h1, h2]
    rfl
  | ljmp sel off =>
    obtain rfl : big = false := by simpa [fits] using hfits
    have h0 : f 0 = 0xEA := h 0 (show 0 < 5 by decide)
    have hoff : le16 f 1 = off := le16_littleHalf fun k hk => by
      rw [h (1 + k) (show 1 + k < 5 by omega)]
      interval_cases k <;> rfl
    have hsel : le16 f 3 = sel := le16_littleHalf fun k hk => by
      rw [h (3 + k) (show 3 + k < 5 by omega)]
      interval_cases k <;> rfl
    simp only [decode, h0, hoff, hsel]
    rfl
  | movwAx v =>
    refine decode_sized h (by simp) (fun g hg => ?_) (by simp)
    have h0 : g 0 = 0xB8 := hg 0 (show 0 < 3 by decide)
    have hv : le16 g 1 = v := le16_littleHalf fun k hk => by
      rw [hg (1 + k) (show 1 + k < 3 by omega)]
      interval_cases k <;> rfl
    simp only [decodeSized, h0, hv]
    cases big <;> rfl
  | movlEsp v =>
    refine decode_sized h (by simp) (fun g hg => ?_) (by simp)
    have h0 : g 0 = 0xBC := hg 0 (Nat.succ_pos _)
    have hv : le32 g 1 = v := I386.le32_operand hg
    simp only [decodeSized, h0, hv]
    cases big <;> rfl
  | call rel =>
    obtain rfl : big = true := hfits
    have h0 : f 0 = 0xE8 := h 0 (Nat.succ_pos _)
    have hv : le32 f 1 = rel := I386.le32_operand h
    simp only [decode, h0, hv]
    rfl
  | jmp rel =>
    have h0 : f 0 = 0xEB := h 0 (show 0 < 2 by decide)
    have h1 : f 1 = rel := h 1 (show 1 < 2 by decide)
    simp only [decode, h0, h1]
    rfl

/-! ## Steps -/

/-- protected mode -/
def Computer.pe (m : Computer) : Bool := m.cr0.getLsbD 0

/-- the physical address: with its line 20 closed, bit 20 is dropped -/
def Computer.phys (m : Computer) (la : BitVec 32) : BitVec 32 := if m.kbc.a20 then la else la &&& ~~~0x100000

/-- the linear address of a read or a write -/
def Computer.linear (m : Computer) (s : Sreg) (write : Bool) (off : BitVec 32) : Option (BitVec 32) :=
  let d := (m.seg s).desc
  if (m.pe → d.permits write) ∧ d.inside off then some (d.base + off) else none

/-- n bytes are read from off on -/
def Computer.reads (m : Computer) (s : Sreg) : BitVec 32 → ℕ → Option (List (BitVec 8))
  | _, 0 => some []
  | off, n + 1 => (m.linear s false off).bind fun la => (m.reads s (off + 1) n).map fun l => m.mem (m.phys la) :: l

/-- bytes are stored from off on -/
def Computer.stores (s : Sreg) : BitVec 32 → List (BitVec 8) → Computer → Option Computer
  | _, [], m => some m
  | off, b :: l, m =>
    (m.linear s true off).bind fun la => Computer.stores s (off + 1) l { m with mem := Function.update m.mem (m.phys la) b }

/-- a descriptor can be loaded into a segment register, at privilege level 0 -/
def loadable (s : Sreg) (rpl : BitVec 2) (d : Descriptor) : Bool :=
  d.app && d.present && match s with
    | .cs => d.type.getLsbD 3 && d.dpl == 0 && (d.type.getLsbD 2 || rpl == 0)
    | .ss => !d.type.getLsbD 3 && d.type.getLsbD 1 && d.dpl == 0 && rpl == 0
    | _ => (!d.type.getLsbD 3 || d.type.getLsbD 1) && (d.type.getLsbD 3 && d.type.getLsbD 2 || rpl ≤ d.dpl)

/-- a segment register is loaded; the descriptor in memory is marked as accessed. There is no local table. -/
def Computer.loadSeg (s : Sreg) (sel : BitVec 16) (m : Computer) : Option Computer :=
  if !m.pe then
    some { m with seg := Function.update m.seg s ⟨sel, { (m.seg s).desc with base := sel.setWidth 32 <<< 4 }⟩ }
  else if sel &&& 0xFFFC = 0 then
    if s = .cs ∨ s = .ss then none
    else some { m with seg := Function.update m.seg s ⟨sel, { (m.seg s).desc with present := false }⟩ }
  else if sel.getLsbD 2 = false ∧ (sel &&& 0xFFF8).toNat + 7 ≤ m.gdtLimit.toNat then
    let a := m.gdtBase + (sel &&& 0xFFF8).setWidth 32
    let d := Descriptor.ofBytes fun k => m.mem (m.phys (a + BitVec.ofNat 32 k))
    if loadable s (sel.setWidth 2) d then
      some { m with
        seg := Function.update m.seg s ⟨sel, d⟩
        mem := Function.update m.mem (m.phys (a + 5)) (m.mem (m.phys (a + 5)) ||| 1) }
    else none
  else none

def setAl (eax : BitVec 32) (b : BitVec 8) : BitVec 32 := (eax &&& 0xFFFFFF00) ||| b.setWidth 32

def setAx (eax : BitVec 32) (v : BitVec 16) : BitVec 32 := (eax &&& 0xFFFF0000) ||| v.setWidth 32

/-- the code segment has operands of 32 bits -/
def Computer.big (m : Computer) : Bool := (m.seg .cs).desc.big

/-- an offset in the code, of 32 bits or of 16 -/
def Computer.wrap (m : Computer) (x : BitVec 32) : BitVec 32 := if m.big then x else x &&& 0xFFFF

/-- an instruction, eip being that of the next one already. A stack of 16 bits is left out. -/
def Insn.exec : Insn → Computer → Option Computer
  | cli, m => some { m with intr := false }
  | cld, m => some { m with df := false }
  | xorwAx, m => some { m with eax := setAx m.eax 0, zf := true }
  | movwSeg s, m => if s = .cs then none else m.loadSeg s (m.eax.setWidth 16)
  | inb p, m =>
    -- reading the data of the keyboard is left out: nothing waits for it
    some { m with
      eax := setAl m.eax (if p = 0x64 then m.kbc.status else m.kbc.noise 0)
      kbc := { m.kbc with noise := fun i => m.kbc.noise (i + 1) } }
  | testb v, m => some { m with zf := m.eax.setWidth 8 &&& v == 0 }
  | jnz rel, m => some (if m.zf then m else { m with eip := m.wrap (m.eip + rel.signExtend 32) })
  | movbAl v, m => some { m with eax := setAl m.eax v }
  | outb p, m =>
    some (if p = 0x64 ∨ p = 0x60 then { m with kbc := m.kbc.write (p = 0x64) (m.eax.setWidth 8) } else m)
  | lgdt a, m =>
    (m.reads .ds (a.setWidth 32) 6).map fun l =>
      { m with gdtLimit := le16 (fun k => l.getD k 0) 0, gdtBase := le32 (fun k => l.getD k 0) 2 &&& 0xFFFFFF }
  | movlFromCr0, m => some { m with eax := m.cr0 }
  | orl v, m => some { m with eax := m.eax ||| v.signExtend 32, zf := m.eax ||| v.signExtend 32 == 0 }
  | movlToCr0, m => some { m with cr0 := m.eax }
  | ljmp sel off, m => (m.loadSeg .cs sel).map fun m' => { m' with eip := off.setWidth 32 }
  | movwAx v, m => some { m with eax := setAx m.eax v }
  | movlEsp v, m => some { m with esp := v }
  | call rel, m =>
    if (m.seg .ss).desc.big then
      (m.stores .ss (m.esp - 4) (littleWord m.eip)).map fun m' => { m' with esp := m.esp - 4, eip := m.eip + rel }
    else none
  | jmp rel, m => some { m with eip := m.wrap (m.eip + rel.signExtend 32) }

/-- the i-th byte from eip on -/
def Computer.view (m : Computer) (i : ℕ) : BitVec 8 :=
  m.mem (m.phys ((m.seg .cs).desc.base + (m.eip + BitVec.ofNat 32 i)))

/-- one instruction -/
def Computer.step (m : Computer) : Option Computer :=
  (Insn.decode m.big m.view).bind fun r =>
    if ∀ k < r.2, (m.seg .cs).desc.inside (m.eip + BitVec.ofNat 32 k) = true then
      r.1.exec { m with eip := m.wrap (m.eip + BitVec.ofNat 32 r.2), kbc := m.kbc.tick }
    else none

/-- n instructions -/
def Computer.steps : ℕ → Computer → Option Computer
  | 0, m => some m
  | n + 1, m => m.step.bind (Computer.steps n)

/-- the instruction whose bytes are at eip, and inside of the code segment, is executed -/
theorem step_at {m : Computer} {i : Insn} (hfits : i.fits m.big = true)
    (hview : ∀ k (h : k < (i.encode m.big).length), m.view k = (i.encode m.big)[k])
    (hin : ∀ k < (i.encode m.big).length, (m.seg .cs).desc.inside (m.eip + BitVec.ofNat 32 k) = true) :
    m.step = i.exec { m with eip := m.wrap (m.eip + BitVec.ofNat 32 (i.encode m.big).length), kbc := m.kbc.tick } := by
  rw [Computer.step, Insn.decode_encode hfits hview, Option.bind_some, if_pos hin]

theorem steps_succ {n : ℕ} {m m' : Computer} (h : m.step = some m') : m.steps (n + 1) = m'.steps n := by
  rw [Computer.steps, h, Option.bind_some]

theorem steps_one {m m' : Computer} (h : m.step = some m') : m.steps 1 = some m' := steps_succ h

theorem steps_trans {n n' : ℕ} {m m' m'' : Computer} (h : m.steps n = some m') (h' : m'.steps n' = some m'') :
    m.steps (n + n') = some m'' := by
  induction n generalizing m with
  | zero =>
    cases h
    rwa [Nat.zero_add]
  | succ n ih =>
    obtain ⟨m₁, hstep, hrest⟩ := Option.bind_eq_some_iff.1 h
    rw [Nat.add_right_comm, steps_succ hstep]
    exact ih hrest

/-! ## Code in memory -/

/-- memory holds the bytes, from a on -/
def Holds (mem : BitVec 32 → BitVec 8) (a : BitVec 32) (l : List (BitVec 8)) : Prop :=
  ∀ k (h : k < l.length), mem (a + BitVec.ofNat 32 k) = l[k]

theorem Holds.left {mem : BitVec 32 → BitVec 8} {a : BitVec 32} {l r : List (BitVec 8)} (h : Holds mem a (l ++ r)) :
    Holds mem a l := by
  intro k hk
  rw [h k (by rw [List.length_append]; omega), List.getElem_append_left hk]

theorem Holds.right {mem : BitVec 32 → BitVec 8} {a : BitVec 32} {l r : List (BitVec 8)} (h : Holds mem a (l ++ r)) :
    Holds mem (a + BitVec.ofNat 32 l.length) r := by
  intro k hk
  rw [Ram.off_off, h _ (by rw [List.length_append]; omega), List.getElem_append_right (by omega)]
  simp only [Nat.add_sub_cancel_left]

theorem Holds.congr {mem mem' : BitVec 32 → BitVec 8} {a : BitVec 32} {l : List (BitVec 8)} (h : Holds mem a l)
    (hsame : ∀ k < l.length, mem' (a + BitVec.ofNat 32 k) = mem (a + BitVec.ofNat 32 k)) : Holds mem' a l :=
  fun k hk => (hsame k hk).trans (h k hk)

/-- the bytes of the n-th of a list of pieces -/
theorem Holds.piece {α : Type} {f : α → List (BitVec 8)} {mem : BitVec 32 → BitVec 8} {a : BitVec 32} {l : List α}
    (h : Holds mem a (l.flatMap f)) {n : ℕ} {x : α} (hx : l[n]? = some x) :
    Holds mem (a + BitVec.ofNat 32 ((l.take n).flatMap f).length) (f x) := by
  have hsplit : l.flatMap f = (l.take n).flatMap f ++ (f x ++ (l.drop (n + 1)).flatMap f) := by
    obtain ⟨hn, rfl⟩ := List.getElem?_eq_some_iff.1 hx
    rw [← List.flatMap_cons, ← List.drop_eq_getElem_cons hn, ← List.flatMap_append, List.take_append_drop]
  rw [hsplit] at h
  exact h.right.left

/-! ## The controller in time -/

/-- the controller when it is through with what it has -/
def Kbc.settled (k : Kbc) : Kbc :=
  match k.pending with
  | none => k
  | some (t, _) => t.finish { k with pending := none }

/-- for how many more instructions the controller is busy -/
def Kbc.busy (k : Kbc) : ℕ := (k.pending.map fun r => r.2 + 1).getD 0

theorem Task.finish_pending (t : Task) (k : Kbc) : (t.finish k).pending = k.pending := by
  cases t <;> rfl

theorem Kbc.busy_eq_zero {k : Kbc} : k.busy = 0 ↔ k.pending = none := by
  unfold busy
  cases k.pending <;> simp

theorem Kbc.settled_of_idle {k : Kbc} (h : k.pending = none) : k.settled = k := by
  rw [settled, h]

/-- time brings the controller nearer to its end, and changes nothing else -/
theorem Kbc.tick_spec (k : Kbc) : k.tick.busy = k.busy - 1 ∧ k.tick.settled = k.settled := by
  rcases hp : k.pending with - | ⟨t, - | n⟩
  · have htick : k.tick = k := by rw [tick, hp]
    rw [htick, busy_eq_zero.2 hp]
    exact ⟨rfl, rfl⟩
  · have htick : k.tick = t.finish { k with pending := none } := by rw [tick, hp]
    have hidle : k.tick.pending = none := by rw [htick, Task.finish_pending]
    constructor
    · rw [busy_eq_zero.2 hidle, busy, hp]
      rfl
    · rw [settled_of_idle hidle, htick, settled, hp]
  · have htick : k.tick = { k with pending := some (t, n) } := by rw [tick, hp]
    rw [htick]
    constructor
    · rw [busy, busy, hp]
      rfl
    · rw [settled, settled, hp]

/-- **The controller gets to an end** with what it has been sent, and then rests. -/
theorem Kbc.settles (k : Kbc) {n : ℕ} (hn : k.busy ≤ n) : Kbc.tick^[n] k = k.settled := by
  induction n generalizing k with
  | zero => exact (settled_of_idle (busy_eq_zero.1 (Nat.le_zero.1 hn))).symm
  | succ n ih =>
    obtain ⟨hbusy, hsettled⟩ := k.tick_spec
    rw [Function.iterate_succ_apply, ih _ (by omega), hsettled]

/-- the output port, and what is expected next, when the controller is through with what it has -/
def Kbc.outlook (k : Kbc) : BitVec 8 × Bool := (k.settled.port, k.settled.expecting)

theorem Kbc.outlook_noise (k : Kbc) (f : ℕ → BitVec 8) : outlook { k with noise := f } = k.outlook := by
  unfold outlook settled
  rcases k.pending with - | ⟨t, n⟩
  · rfl
  · cases t <;> rfl

theorem Kbc.outlook_tick (k : Kbc) : k.tick.outlook = k.outlook := by
  rw [outlook, outlook, k.tick_spec.2]

/-- an idle controller takes a byte -/
theorem Kbc.outlook_write {k : Kbc} (h : k.pending = none) (command : Bool) (b : BitVec 8) :
    (k.write command b).outlook = if command then (k.port, b == 0xD1) else (if k.expecting then b else k.port, false) := by
  unfold Kbc.write
  rw [h]
  cases command with
  | true =>
    by_cases hb : b = 0xD1
    · subst hb
      rfl
    · simp only [if_true, if_neg hb, beq_eq_false_iff_ne.2 hb]
      rfl
  | false => cases k.expecting <;> rfl

/-! ## Loading a segment register -/

theorem loadSeg_real {m : Computer} (hpe : m.pe = false) (s : Sreg) (sel : BitVec 16) :
    m.loadSeg s sel =
      some { m with seg := Function.update m.seg s ⟨sel, { (m.seg s).desc with base := sel.setWidth 32 <<< 4 }⟩ } := by
  rw [Computer.loadSeg, hpe]
  rfl

/-- a segment register gets the descriptor that its selector stands for -/
theorem loadSeg_protected {m : Computer} (hpe : m.pe = true) {s : Sreg} {sel : BitVec 16} {a : BitVec 32} {d : Descriptor}
    (hnull : sel &&& 0xFFFC ≠ 0) (hlocal : sel.getLsbD 2 = false) (hlimit : (sel &&& 0xFFF8).toNat + 7 ≤ m.gdtLimit.toNat)
    (ha : m.gdtBase + (sel &&& 0xFFF8).setWidth 32 = a)
    (hd : Descriptor.ofBytes (fun k => m.mem (m.phys (a + BitVec.ofNat 32 k))) = d)
    (hload : loadable s (sel.setWidth 2) d = true) :
    m.loadSeg s sel =
      some { m with
        seg := Function.update m.seg s ⟨sel, d⟩
        mem := Function.update m.mem (m.phys (a + 5)) (m.mem (m.phys (a + 5)) ||| 1) } := by
  subst ha hd
  rw [Computer.loadSeg, hpe, Bool.not_true, if_neg Bool.false_ne_true, if_neg hnull, if_pos ⟨hlocal, hlimit⟩]
  exact if_pos hload

end Jos.RealMode
