/-
An i386 as start-up code uses it: moves between registers, stores of constants, jumps and calls, in protected mode with flat
segments, and with or without paging.

Instructions are fetched from memory, byte by byte, through the paging unit if it is on. How they are coded is a parameter:
a code that can be read back.

- `Processor.step`: one instruction, or none if an access faults.
- `step_sim`: the instruction whose bytes are at the place that eip stands for is executed, whatever the marks in the
  tables.
-/
import Jos.Core.Paging

namespace Jos.I386

open Paging (Mem Tables Sim Holds)

/-! ## The machine -/

inductive Gpr where
  | eax
  | esp
  | ebp
deriving DecidableEq, Repr

inductive Cr where
  | cr0
  | cr3
deriving DecidableEq, Repr

structure Processor where
  /-- the address of the next instruction -/
  eip : BitVec 32
  gpr : Gpr → BitVec 32
  cr : Cr → BitVec 32
  mem : Mem

/-- displacements are relative to the next instruction -/
inductive Insn where
  /-- `movw $v, a` -/
  | movwMem (v : BitVec 16) (a : BitVec 32)
  /-- `movl $v, r` -/
  | movImm (v : BitVec 32) (r : Gpr)
  /-- `movl r, x` -/
  | movToCr (r : Gpr) (x : Cr)
  /-- `movl x, r` -/
  | movFromCr (x : Cr) (r : Gpr)
  /-- `orl $v, r` -/
  | orImm (v : BitVec 32) (r : Gpr)
  /-- `jmp *r` -/
  | jmpReg (r : Gpr)
  | jmp (rel : BitVec 32)
  | call (rel : BitVec 32)
deriving DecidableEq, Repr

/-- a code of the instructions: the bytes of one, and the one that begins with given bytes, with its length -/
structure Coding where
  encode : Insn → List (BitVec 8)
  decode : (ℕ → BitVec 8) → Option (Insn × ℕ)
  decode_encode : ∀ i f, (∀ k (h : k < (encode i).length), f k = (encode i)[k]) →
    decode f = some (i, (encode i).length)

/-- the bytes of a word, low byte first -/
def littleWord (v : BitVec 32) : List (BitVec 8) :=
  [v.setWidth 8, (v >>> 8).setWidth 8, (v >>> 16).setWidth 8, (v >>> 24).setWidth 8]

def littleHalf (v : BitVec 16) : List (BitVec 8) := [v.setWidth 8, (v >>> 8).setWidth 8]

/-! ## The machine code -/

/-- the number of a register in an instruction -/
def Gpr.code : Gpr → BitVec 8
  | eax => 0
  | esp => 4
  | ebp => 5

def Gpr.ofCode (b : BitVec 8) : Option Gpr :=
  if b = 0 then some eax else if b = 4 then some esp else if b = 5 then some ebp else none

def Cr.code : Cr → BitVec 8
  | cr0 => 0
  | cr3 => 3

def Cr.ofCode (b : BitVec 8) : Option Cr := if b = 0 then some cr0 else if b = 3 then some cr3 else none

/-- the bytes that an assembler puts out -/
def Insn.encode : Insn → List (BitVec 8)
  | movwMem v a => [0x66, 0xC7, 0x05] ++ littleWord a ++ littleHalf v
  | movImm v r => (0xB8 + r.code) :: littleWord v
  | movToCr r x => [0x0F, 0x22, 0xC0 + (x.code <<< 3 ||| r.code)]
  | movFromCr x r => [0x0F, 0x20, 0xC0 + (x.code <<< 3 ||| r.code)]
  | orImm v .eax => 0x0D :: littleWord v
  | orImm v r => [0x81, 0xC8 + r.code] ++ littleWord v
  | jmpReg r => [0xFF, 0xE0 + r.code]
  | jmp rel => if (rel.setWidth 8).signExtend 32 = rel then [0xEB, rel.setWidth 8] else 0xE9 :: littleWord rel
  | call rel => 0xE8 :: littleWord rel

/-- the instruction with the bytes f, and its length -/
def Insn.decode (f : ℕ → BitVec 8) : Option (Insn × ℕ) :=
  let reg := Gpr.ofCode (f 2 &&& 7)
  let ctl := Cr.ofCode ((f 2 - 0xC0) >>> 3)
  if f 0 = 0x66 then some (movwMem (le16 f 7) (le32 f 3), 9)
  else if f 0 = 0x0F ∧ f 1 = 0x22 then reg.bind fun r => ctl.map fun x => (movToCr r x, 3)
  else if f 0 = 0x0F then reg.bind fun r => ctl.map fun x => (movFromCr x r, 3)
  else if f 0 = 0x0D then some (orImm (le32 f 1) .eax, 5)
  else if f 0 = 0x81 then (Gpr.ofCode (f 1 - 0xC8)).map fun r => (orImm (le32 f 2) r, 6)
  else if f 0 = 0xFF then (Gpr.ofCode (f 1 - 0xE0)).map fun r => (jmpReg r, 2)
  else if f 0 = 0xEB then some (jmp ((f 1).signExtend 32), 2)
  else if f 0 = 0xE9 then some (jmp (le32 f 1), 5)
  else if f 0 = 0xE8 then some (call (le32 f 1), 5)
  else (Gpr.ofCode (f 0 - 0xB8)).map fun r => (movImm (le32 f 1) r, 5)

theorem le32_littleWord {f : ℕ → BitVec 8} {k : ℕ} {v : BitVec 32}
    (h : ∀ i (hi : i < 4), f (k + i) = (littleWord v).get ⟨i, hi⟩) : le32 f k = v := by
  have h0 : f k = v.setWidth 8 := h 0 (by decide)
  have h1 : f (k + 1) = (v >>> 8).setWidth 8 := h 1 (by decide)
  have h2 : f (k + 2) = (v >>> 16).setWidth 8 := h 2 (by decide)
  have h3 : f (k + 3) = (v >>> 24).setWidth 8 := h 3 (by decide)
  have h24 : v >>> 24 = v >>> 16 >>> 8 := BitVec.shiftRight_add v 16 8
  have h16 : v >>> 16 = v >>> 8 >>> 8 := BitVec.shiftRight_add v 8 8
  -- one byte after the other
  calc le32 f k = (v >>> 16 >>> 8).setWidth 8 ++ (v >>> 16).setWidth 8 ++ (v >>> 8).setWidth 8 ++ v.setWidth 8 := by
        rw [le32, h0, h1, h2, h3, h24]
    _ = (v >>> 8 >>> 8).setWidth 16 ++ (v >>> 8).setWidth 8 ++ v.setWidth 8 := by
        rw [← h16]
        exact congrArg (· ++ (v >>> 8).setWidth 8 ++ v.setWidth 8) (Ram.append_low (v >>> 16) 8)
    _ = (v >>> 8).setWidth 24 ++ v.setWidth 8 := congrArg (· ++ v.setWidth 8) (Ram.append_low (v >>> 8) 16)
    _ = v.setWidth 32 := Ram.append_low v 24
    _ = v := BitVec.setWidth_eq v

theorem le16_littleHalf {f : ℕ → BitVec 8} {k : ℕ} {v : BitVec 16}
    (h : ∀ i (hi : i < 2), f (k + i) = (littleHalf v).get ⟨i, hi⟩) : le16 f k = v := by
  have h0 : f k = v.setWidth 8 := h 0 (by decide)
  have h1 : f (k + 1) = (v >>> 8).setWidth 8 := h 1 (by decide)
  rw [le16, h0, h1]
  exact Ram.append_bytes v

/-- the word behind an opcode of one byte -/
theorem le32_operand {f : ℕ → BitVec 8} {b : BitVec 8} {v : BitVec 32}
    (h : ∀ k (h : k < (b :: littleWord v).length), f k = (b :: littleWord v)[k]) : le32 f 1 = v :=
  le32_littleWord fun k hk => by
    rw [Nat.add_comm]
    exact h (k + 1) (Nat.succ_lt_succ hk)

/-- **What is assembled is decoded.** -/
theorem Insn.decode_encode (i : Insn) (f : ℕ → BitVec 8) (h : ∀ k (h : k < i.encode.length), f k = i.encode[k]) :
    decode f = some (i, i.encode.length) := by
  cases i with
  | movwMem v a =>
    have h0 : f 0 = 0x66 := h 0 (Nat.succ_pos _)
    have ha : le32 f 3 = a := le32_littleWord fun k hk => by
      have hk' : 3 + k < 9 := by omega
      rw [h (3 + k) hk']
      interval_cases k <;> rfl
    have hv : le16 f 7 = v := le16_littleHalf fun k hk => by
      have hk' : 7 + k < 9 := by omega
      rw [h (7 + k) hk']
      interval_cases k <;> rfl
    rw [decode, if_pos h0, ha, hv]
    rfl
  | movImm v r =>
    have h0 : f 0 = 0xB8 + r.code := h 0 (Nat.succ_pos _)
    have hv : le32 f 1 = v := le32_operand h
    cases r <;> simp only [decode, h0, hv] <;> rfl
  | movToCr r x =>
    have h0 : f 0 = 0x0F := h 0 (show 0 < 3 by decide)
    have h1 : f 1 = 0x22 := h 1 (show 1 < 3 by decide)
    have h2 : f 2 = 0xC0 + (x.code <<< 3 ||| r.code) := h 2 (show 2 < 3 by decide)
    cases r <;> cases x <;> simp only [decode, h0, h1, h2] <;> rfl
  | movFromCr x r =>
    have h0 : f 0 = 0x0F := h 0 (show 0 < 3 by decide)
    have h1 : f 1 = 0x20 := h 1 (show 1 < 3 by decide)
    have h2 : f 2 = 0xC0 + (x.code <<< 3 ||| r.code) := h 2 (show 2 < 3 by decide)
    cases r <;> cases x <;> simp only [decode, h0, h1, h2] <;> rfl
  | orImm v r =>
    by_cases hr : r = .eax
    · subst hr
      have h0 : f 0 = 0x0D := h 0 (Nat.succ_pos _)
      have hv : le32 f 1 = v := le32_operand h
      simp only [decode, h0, hv]
      rfl
    · have henc : (orImm v r).encode = [0x81, 0xC8 + r.code] ++ littleWord v := by
        cases r with
        | eax => exact absurd rfl hr
        | esp => rfl
        | ebp => rfl
      simp only [henc] at h ⊢
      have h0 : f 0 = 0x81 := h 0 (Nat.succ_pos _)
      have h1 : f 1 = 0xC8 + r.code := h 1 (Nat.succ_lt_succ (Nat.succ_pos _))
      have hv : le32 f 2 = v := le32_littleWord fun k hk => by
        rw [Nat.add_comm]
        exact h (k + 2) (Nat.succ_lt_succ (Nat.succ_lt_succ hk))
      have hreg : Gpr.ofCode (0xC8 + r.code - 0xC8) = some r := by cases r <;> rfl
      simp only [decode, h0, h1, hv, hreg]
      rfl
  | jmpReg r =>
    have h0 : f 0 = 0xFF := h 0 (show 0 < 2 by decide)
    have h1 : f 1 = 0xE0 + r.code := h 1 (show 1 < 2 by decide)
    cases r <;> simp only [decode, h0, h1] <;> rfl
  | jmp rel =>
    by_cases hs : (rel.setWidth 8).signExtend 32 = rel
    · simp only [encode, if_pos hs] at h ⊢
      have h0 : f 0 = 0xEB := h 0 (show 0 < 2 by decide)
      have h1 : f 1 = rel.setWidth 8 := h 1 (show 1 < 2 by decide)
      simp only [decode, h0, h1, hs]
      rfl
    · simp only [encode, if_neg hs] at h ⊢
      have h0 : f 0 = 0xE9 := h 0 (Nat.succ_pos _)
      have hv : le32 f 1 = rel := le32_operand h
      simp only [decode, h0, hv]
      rfl
  | call rel =>
    have h0 : f 0 = 0xE8 := h 0 (Nat.succ_pos _)
    have hv : le32 f 1 = rel := le32_operand h
    simp only [decode, h0, hv]
    rfl

/-- the i386's own code -/
def i386 : Coding := ⟨Insn.encode, Insn.decode, Insn.decode_encode⟩

/-! ## Steps -/

/-- paging is on -/
def pg (cr : Cr → BitVec 32) : Bool := (cr .cr0).getLsbD 31

/-- the supervisor is held to read-only pages, too -/
def wp (cr : Cr → BitVec 32) : Bool := (cr .cr0).getLsbD 16

/-- the physical address of an access -/
def Processor.translate (write : Bool) (la : BitVec 32) (c : Processor) : Option (BitVec 32 × Mem) :=
  if pg c.cr then Paging.walk (c.cr .cr3) (wp c.cr) write la c.mem else some (la, c.mem)

/-- n accesses, from la on -/
def Processor.reads : BitVec 32 → ℕ → Processor → Option Processor
  | _, 0, c => some c
  | la, n + 1, c => (c.translate false la).bind fun r => Processor.reads (la + 1) n { c with mem := r.2 }

/-- consecutive stores, from la on -/
def Processor.stores : BitVec 32 → List (BitVec 8) → Processor → Option Processor
  | _, [], c => some c
  | la, b :: l, c =>
    (c.translate true la).bind fun r => Processor.stores (la + 1) l { c with mem := Function.update r.2 r.1 b }

/-- an instruction, eip being that of the next one already -/
def Insn.exec : Insn → Processor → Option Processor
  | movwMem v a, c => c.stores a (littleHalf v)
  | movImm v r, c => some { c with gpr := Function.update c.gpr r v }
  | movToCr r x, c => some { c with cr := Function.update c.cr x (c.gpr r) }
  | movFromCr x r, c => some { c with gpr := Function.update c.gpr r (c.cr x) }
  | orImm v r, c => some { c with gpr := Function.update c.gpr r (c.gpr r ||| v) }
  | jmpReg r, c => some { c with eip := c.gpr r }
  | jmp rel, c => some { c with eip := c.eip + rel }
  | call rel, c =>
    let esp := c.gpr .esp - 4
    (c.stores esp (littleWord c.eip)).map fun c' => { c' with gpr := Function.update c.gpr .esp esp, eip := c.eip + rel }

/-- the i-th byte from eip on, as far as it can be read -/
def Processor.view (c : Processor) (i : ℕ) : BitVec 8 :=
  ((c.translate false (c.eip + BitVec.ofNat 32 i)).map fun r => c.mem r.1).getD 0

section Step

variable (C : Coding)

/-- one instruction -/
def Processor.step (c : Processor) : Option Processor :=
  (C.decode c.view).bind fun r => (c.reads c.eip r.2).bind fun c' => r.1.exec { c' with eip := c.eip + BitVec.ofNat 32 r.2 }

/-- n instructions -/
def Processor.steps : ℕ → Processor → Option Processor
  | 0, c => some c
  | n + 1, c => (c.step C).bind (Processor.steps n)

/-! ## Code -/

/-- the length of the code -/
def Coding.size (l : List Insn) : ℕ := (l.flatMap C.encode).length

/-- memory holds the code, from a on -/
def Coding.At (a : BitVec 32) (l : List Insn) (mem : Mem) : Prop :=
  ∀ k (h : k < (l.flatMap C.encode).length), mem (a + BitVec.ofNat 32 k) = (l.flatMap C.encode)[k]

variable {C}

theorem Coding.size_take_add (l : List Insn) {n : ℕ} {i : Insn} (h : l[n]? = some i) :
    C.size (l.take (n + 1)) = C.size (l.take n) + (C.encode i).length := by
  rw [List.take_add_one, h]
  simp [Coding.size]

theorem Coding.size_take_le (l : List Insn) (n : ℕ) : C.size (l.take n) ≤ C.size l := by
  have h : l.flatMap C.encode = (l.take n).flatMap C.encode ++ (l.drop n).flatMap C.encode := by
    rw [← List.flatMap_append, List.take_append_drop]
  rw [Coding.size, Coding.size, h, List.length_append]
  exact Nat.le_add_right _ _

/-- the n-th instruction of the code -/
theorem Coding.At.insn {a : BitVec 32} {l : List Insn} {mem : Mem} (h : C.At a l mem) {n : ℕ} {i : Insn}
    (hi : l[n]? = some i) : ∀ k (hk : k < (C.encode i).length),
      mem (a + BitVec.ofNat 32 (C.size (l.take n)) + BitVec.ofNat 32 k) = (C.encode i)[k] := by
  intro k hk
  have hsplit : l.flatMap C.encode = (l.take n).flatMap C.encode ++ (C.encode i ++ (l.drop (n + 1)).flatMap C.encode) := by
    obtain ⟨hn, rfl⟩ := List.getElem?_eq_some_iff.1 hi
    rw [← List.flatMap_cons, ← List.drop_eq_getElem_cons hn, ← List.flatMap_append, List.take_append_drop]
  have hlt : C.size (l.take n) + k < (l.flatMap C.encode).length := by
    rw [hsplit, List.length_append, List.length_append]
    unfold Coding.size
    omega
  rw [Ram.off_off, h _ hlt]
  simp only [hsplit]
  rw [List.getElem_append_right (by unfold Coding.size; omega)]
  simp only [Coding.size, Nat.add_sub_cancel_left]
  exact List.getElem_append_left hk

/-! ## The machine on plain memory -/

variable {t : Tables} {c : Processor} {plain : Mem}

/-- where an access goes -/
def Processor.place (t : Tables) (c : Processor) (write : Bool) (la : BitVec 32) : Option (BitVec 32) :=
  if pg c.cr then t.translate (wp c.cr) write la else some la

/-- one access -/
theorem translate_sim (h : Sim t c.mem plain) (hcr : pg c.cr = true → c.cr .cr3 = t.cr3) {write : Bool} {la pa : BitVec 32}
    (hp : c.place t write la = some pa) : ∃ mem', c.translate write la = some (pa, mem') ∧ Sim t mem' plain := by
  unfold Processor.place at hp
  unfold Processor.translate
  split_ifs at hp ⊢ with hpg
  · obtain ⟨hnone, -⟩ | ⟨pa', mem', hsome, hwalk, hholds, hsame⟩ := Paging.walk_holds h.holds (wp c.cr) write la
    · rw [hp] at hnone
      cases hnone
    · obtain rfl := Option.some.inj (hp.symm.trans hsome)
      exact ⟨mem', by rw [hcr hpg, hwalk], hholds, fun x hx => (hsame x hx).trans (h.same x hx)⟩
  · cases hp
    exact ⟨c.mem, rfl, h⟩

/-- reads change nothing but marks -/
theorem reads_sim (n : ℕ) (la : BitVec 32) (h : Sim t c.mem plain) (hcr : pg c.cr = true → c.cr .cr3 = t.cr3)
    (hp : ∀ i < n, ∃ pa, c.place t false (la + BitVec.ofNat 32 i) = some pa) :
    ∃ mem', c.reads la n = some { c with mem := mem' } ∧ Sim t mem' plain := by
  induction n generalizing la c with
  | zero => exact ⟨c.mem, rfl, h⟩
  | succ n ih =>
    obtain ⟨pa, hpa⟩ := hp 0 (Nat.succ_pos n)
    rw [Ram.off_zero] at hpa
    obtain ⟨mem₁, htr, hsim⟩ := translate_sim h hcr hpa
    obtain ⟨mem', hreads, hsim'⟩ := @ih { c with mem := mem₁ } (la + 1) hsim hcr fun i hi => by
      rw [Ram.off_succ]
      exact hp (i + 1) (Nat.succ_lt_succ hi)
    exact ⟨mem', by rw [Processor.reads, htr]; exact hreads, hsim'⟩

/-- plain memory after stores from pa on -/
def put (pa : BitVec 32) (l : List (BitVec 8)) (plain : Mem) : Mem := (Ram.stores pa l ⟨plain, []⟩).byte

/-- stores to a place off the tables -/
theorem stores_sim (l : List (BitVec 8)) (la pa : BitVec 32) (h : Sim t c.mem plain)
    (hcr : pg c.cr = true → c.cr .cr3 = t.cr3)
    (hp : ∀ i < l.length, c.place t true (la + BitVec.ofNat 32 i) = some (pa + BitVec.ofNat 32 i) ∧
      pa + BitVec.ofNat 32 i ∉ t.span) :
    ∃ mem', c.stores la l = some { c with mem := mem' } ∧ Sim t mem' (put pa l plain) := by
  suffices hram : ∀ r : Ram 32, Sim t c.mem r.byte → ∃ mem', c.stores la l = some { c with mem := mem' } ∧
      Sim t mem' (r.stores pa l).byte from hram ⟨plain, []⟩ h
  clear h
  induction l generalizing la pa c with
  | nil => exact fun r h => ⟨c.mem, rfl, h⟩
  | cons b l ih =>
    intro r h
    obtain ⟨hpa, hout⟩ := hp 0 (Nat.succ_pos _)
    rw [Ram.off_zero] at hpa hout
    rw [Ram.off_zero] at hpa
    obtain ⟨mem₁, htr, hsim⟩ := translate_sim h hcr hpa
    have hsim₁ : Sim t (Function.update mem₁ pa b) (r.st8 pa b).byte := by
      constructor
      · apply hsim.holds.congr
        intro x hx
        exact Function.update_of_ne (fun he : x = pa => hout (he ▸ hx)) _ _
      · intro x hx
        show Function.update mem₁ pa b x = Function.update r.byte pa b x
        rcases eq_or_ne x pa with rfl | hne
        · rw [Function.update_self, Function.update_self]
        · rw [Function.update_of_ne hne, Function.update_of_ne hne, hsim.same x hx]
    obtain ⟨mem', hstores, hsim'⟩ := @ih { c with mem := Function.update mem₁ pa b } (la + 1) (pa + 1) hcr
      (fun i hi => by
        rw [Ram.off_succ, Ram.off_succ]
        exact hp (i + 1) (Nat.succ_lt_succ hi)) (r.st8 pa b) hsim₁
    exact ⟨mem', by rw [Processor.stores, htr]; exact hstores, hsim'⟩

/-- **One instruction.** If the places of eip and the addresses behind it hold the bytes of an instruction, in one piece and
off the marks, then it is fetched and executed; up to there only marks have changed. -/
theorem step_sim (h : Sim t c.mem plain) (hcr : pg c.cr = true → c.cr .cr3 = t.cr3) {i : Insn} {pa : BitVec 32}
    (hcode : ∀ k (hk : k < (C.encode i).length), plain (pa + BitVec.ofNat 32 k) = (C.encode i)[k])
    (hp : ∀ k < (C.encode i).length, c.place t false (c.eip + BitVec.ofNat 32 k) = some (pa + BitVec.ofNat 32 k) ∧
      pa + BitVec.ofNat 32 k ∉ t.span) :
    ∃ mem', c.step C = i.exec { c with eip := c.eip + BitVec.ofNat 32 (C.encode i).length, mem := mem' } ∧
      Sim t mem' plain := by
  have hview : ∀ k (hk : k < (C.encode i).length), c.view k = (C.encode i)[k] := by
    intro k hk
    obtain ⟨hpa, hout⟩ := hp k hk
    obtain ⟨mem₁, htr, -⟩ := translate_sim h hcr hpa
    rw [Processor.view, htr, ← hcode k hk]
    exact h.same _ fun hm => hout (Paging.marked_subset t hm)
  obtain ⟨mem', hreads, hsim⟩ := reads_sim (C.encode i).length c.eip h hcr fun k hk => ⟨_, (hp k hk).1⟩
  refine ⟨mem', ?_, hsim⟩
  rw [Processor.step, C.decode_encode i _ hview, Option.bind_some]
  show (c.reads c.eip (C.encode i).length).bind _ = _
  rw [hreads, Option.bind_some]

theorem steps_succ {n : ℕ} {c' : Processor} (h : c.step C = some c') : c.steps C (n + 1) = c'.steps C n := by
  rw [Processor.steps, h, Option.bind_some]

end Step

end Jos.I386
