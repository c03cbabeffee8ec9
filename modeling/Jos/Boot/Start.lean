/-
boot/boot.S, from the jump of the BIOS to the call of bootmain.

The code lies at 0x7C00 (boot/Makefrag). It runs in real mode up to the long jump, and in segments of 32 bits from there on.

- `seta20_waits`: a loop that waits for the keyboard controller comes to an end, and the controller has then dealt with
  all that it had.
- **`boot_enters_bootmain`**: from any state that a BIOS leaves, the code gets to bootmain without a fault, with interrupts
  off, every segment flat, and the address line 20 open.
- **`boot_spins`**: where bootmain returns to, the code stays.
-/
import Jos.Core.RealMode
import Jos.Boot.Gdt
import Mathlib.Data.List.GetD

namespace Jos.Boot

open I386 (Descriptor littleHalf littleWord)
open RealMode (Computer Holds Insn Sreg Segment Kbc Task step_at steps_one steps_trans setAl setAx)

/-! ## boot/boot.S -/

def PROT_MODE_CSEG : BitVec 16 := 0x8
def PROT_MODE_DSEG : BitVec 16 := 0x10
def CR0_PE_ON : BitVec 8 := 0x1

/-! The labels, where the assembler puts them (`labels`). -/

def start : Word := 0x7C00
def seta20_1 : Word := 0x7C0A
def seta20_2 : Word := 0x7C14
def protcseg : BitVec 16 := 0x7C32
def spin : Word := 0x7C4A
def gdt : Word := 0x7C4C
def gdtdesc : BitVec 16 := 0x7C64

/-- the instructions, with the mode of the assembler: `.code16` (false) or `.code32` -/
def bootCode (bootmain : Word) : List (Bool × Insn) :=
  [ (false, .cli),
    (false, .cld),
    (false, .xorwAx),
    (false, .movwSeg .ds),
    (false, .movwSeg .es),
    (false, .movwSeg .ss),
    -- seta20.1:
    (false, .inb 0x64),
    (false, .testb 0x2),
    (false, .jnz (BitVec.setWidth 8 (seta20_1 - 0x7C10))),
    (false, .movbAl 0xd1),
    (false, .outb 0x64),
    -- seta20.2:
    (false, .inb 0x64),
    (false, .testb 0x2),
    (false, .jnz (BitVec.setWidth 8 (seta20_2 - 0x7C1A))),
    (false, .movbAl 0xdf),
    (false, .outb 0x60),
    (false, .lgdt gdtdesc),
    (false, .movlFromCr0),
    (false, .orl CR0_PE_ON),
    (false, .movlToCr0),
    (false, .ljmp PROT_MODE_CSEG protcseg),
    -- protcseg:
    (true, .movwAx PROT_MODE_DSEG),
    (true, .movwSeg .ds),
    (true, .movwSeg .es),
    (true, .movwSeg .fs),
    (true, .movwSeg .gs),
    (true, .movwSeg .ss),
    (true, .movlEsp start),
    (true, .call (bootmain - spin)),
    -- spin:
    (true, .jmp (BitVec.setWidth 8 (spin - 0x7C4C))) ]

def codeBytes (l : List (Bool × Insn)) : List Byte := l.flatMap fun i => i.2.encode i.1

/-- the bytes of the section, the code of bootmain apart -/
def bootBytes (bootmain : Word) : List Byte :=
  codeBytes (bootCode bootmain) ++
    -- gdt:
    (asmSegNull ++ asmSeg (STA_X ||| STA_R) 0x0 0xffffffff ++ asmSeg STA_W 0x0 0xffffffff) ++
    -- gdtdesc:
    (littleHalf 0x17 ++ littleWord gdt)

/-- the lengths of the instructions, which do not depend on where bootmain is -/
def lengths : List ℕ := (bootCode 0).map fun i => (i.2.encode i.1).length

/-- the address of the n-th instruction -/
def place (n : ℕ) : Word := start + BitVec.ofNat 32 (lengths.take n).sum

/-- the labels are where the code has them -/
theorem labels : place 6 = seta20_1 ∧ place 9 = 0x7C10 ∧ place 11 = seta20_2 ∧ place 14 = 0x7C1A ∧
    place 21 = protcseg.setWidth 32 ∧ place 29 = spin ∧ place 30 = gdt := by decide

/-! ## One instruction -/

variable {bootmain : Word}

theorem length_take (n : ℕ) : (codeBytes ((bootCode bootmain).take n)).length = (lengths.take n).sum := by
  have h : (bootCode bootmain).map (fun i => (i.2.encode i.1).length) = lengths := by
    have hcall : ∀ rel, (Insn.encode true (.call rel)).length = 5 := fun _ => rfl
    simp only [lengths, bootCode, List.map_cons, List.map_nil, hcall]
  rw [codeBytes, List.length_flatMap, List.map_take, h]

theorem sum_take_le (n : ℕ) : (lengths.take n).sum ≤ 0x4C := by
  have h : lengths.sum = 0x4C := by decide
  rw [← h, ← List.take_append_drop n lengths, List.sum_append, List.take_append_drop]
  exact Nat.le_add_right _ _

theorem place_toNat {n k : ℕ} (hk : (lengths.take n).sum + k ≤ 0x4C) :
    (place n + BitVec.ofNat 32 k).toNat = 0x7C00 + (lengths.take n).sum + k := by
  have hstart : start.toNat = 0x7C00 := rfl
  rw [place, Ram.off_off, Ram.toNat_off (by omega), hstart, Nat.add_assoc]

/-- the machine is about to execute the n-th instruction, and its code segment begins at 0 and has 64K at least -/
structure Ready (bootmain : Word) (n : ℕ) (big : Bool) (m : Computer) : Prop where
  eip : m.eip = place n
  big : m.big = big
  base : (m.seg .cs).desc.base = 0
  inside : ∀ off : Word, off.toNat < 2 ^ 16 → (m.seg .cs).desc.inside off = true
  code : Holds m.mem start (codeBytes (bootCode bootmain))

/-- a mask that x lies below -/
theorem and_low {x : Word} {n : ℕ} (m : Word) (h : x.toNat < 2 ^ n) (hm : ∀ i < n, m.getLsbD i = true) : x &&& m = x := by
  apply BitVec.eq_of_getLsbD_eq
  intro i hi
  rw [BitVec.getLsbD_and]
  rcases Nat.lt_or_ge i n with hn | hn
  · rw [hm i hn, Bool.and_true]
  · rw [BitVec.getLsbD, Nat.testBit_lt_two_pow (lt_of_lt_of_le h (Nat.pow_le_pow_right (by decide) hn)), Bool.false_and]

/-- the address line 20 makes no difference below 1 MB -/
theorem phys_low (m : Computer) {x : Word} (h : x.toNat < 2 ^ 20) : m.phys x = x := by
  unfold Computer.phys
  split
  · rfl
  · exact and_low _ h (by decide)

theorem wrap_low (m : Computer) {x : Word} (h : x.toNat < 2 ^ 16) : m.wrap x = x := by
  unfold Computer.wrap
  split
  · rfl
  · exact and_low _ h (by decide)

theorem Ready.step {n : ℕ} {big : Bool} {m : Computer} {i : Insn} (h : Ready bootmain n big m)
    (hi : (bootCode bootmain)[n]? = some (big, i)) :
    m.step = i.exec { m with eip := place (n + 1), kbc := m.kbc.tick } := by
  have hfits : i.fits m.big = true := by
    have hall : (bootCode bootmain).all (fun x => x.2.fits x.1) = true := rfl
    rw [h.big]
    exact List.all_eq_true.1 hall _ (List.mem_of_getElem? hi)
  have hnext : (lengths.take (n + 1)).sum = (lengths.take n).sum + (i.encode m.big).length := by
    rw [← @length_take bootmain, ← @length_take bootmain, List.take_add_one, hi, h.big]
    simp [codeBytes]
  have hle := sum_take_le (n + 1)
  have hbytes : Holds m.mem (place n) (i.encode big) := by
    have hpiece := Holds.piece h.code hi
    rwa [show ((List.take n (bootCode bootmain)).flatMap fun i => i.2.encode i.1) = codeBytes ((bootCode bootmain).take n)
      from rfl, length_take] at hpiece
  have hplace : m.eip + BitVec.ofNat 32 (i.encode m.big).length = place (n + 1) := by
    rw [h.eip, place, place, hnext, Ram.off_off]
  rw [step_at hfits, hplace, wrap_low]
  · rw [← Ram.off_zero (place (n + 1)), place_toNat (by omega)]
    omega
  · intro k hk
    have hat := place_toNat (n := n) (k := k) (by omega)
    have hzero : (0 : Word) + (place n + BitVec.ofNat 32 k) = place n + BitVec.ofNat 32 k := BitVec.zero_add _
    rw [Computer.view, h.base, h.eip, hzero, phys_low m (by omega)]
    simp only [h.big]
    exact hbytes k _
  · intro k hk
    have hat := place_toNat (n := n) (k := k) (by omega)
    apply h.inside
    rw [h.eip]
    omega

/-- what the loops and the commands for the controller leave alone -/
structure Frame (m m' : Computer) : Prop where
  seg : m'.seg = m.seg
  mem : m'.mem = m.mem
  cr0 : m'.cr0 = m.cr0
  intr : m'.intr = m.intr
  df : m'.df = m.df

theorem Frame.trans {m m' m'' : Computer} (h : Frame m m') (h' : Frame m' m'') : Frame m m'' :=
  ⟨h'.seg.trans h.seg, h'.mem.trans h.mem, h'.cr0.trans h.cr0, h'.intr.trans h.intr, h'.df.trans h.df⟩

theorem Ready.next {n n' : ℕ} {big : Bool} {m m' : Computer} (h : Ready bootmain n big m) (heip : m'.eip = place n')
    (hseg : m'.seg .cs = m.seg .cs) (hmem : m'.mem = m.mem) : Ready bootmain n' big m' := by
  refine ⟨heip, ?_, ?_, ?_, ?_⟩
  · rw [Computer.big, hseg]
    exact h.big
  · rw [hseg]
    exact h.base
  · rw [hseg]
    exact h.inside
  · rw [hmem]
    exact h.code

/-- an instruction that leaves memory and the code segment alone -/
theorem Ready.go {n n' : ℕ} {big : Bool} {m m' : Computer} {i : Insn} (h : Ready bootmain n big m)
    (hi : (bootCode bootmain)[n]? = some (big, i))
    (hexec : i.exec { m with eip := place (n + 1), kbc := m.kbc.tick } = some m') (heip : m'.eip = place n')
    (hseg : m'.seg .cs = m.seg .cs) (hmem : m'.mem = m.mem) : m.step = some m' ∧ Ready bootmain n' big m' :=
  ⟨(h.step hi).trans hexec, h.next heip hseg hmem⟩

/-! ## Waiting for the controller -/

theorem setAl_low (eax : Word) (b : Byte) : (setAl eax b).setWidth 8 = b := by
  unfold setAl
  ext i hi
  rw [BitVec.getElem_setWidth, BitVec.getLsbD_or, BitVec.getLsbD_and, BitVec.getLsbD_setWidth]
  interval_cases i <;> simp

/-- the bit that the loops test is that of the input buffer -/
theorem status_busy (k : Kbc) : (k.status &&& 0x2 == 0) = !k.pending.isSome := by
  have hset : ∀ b : Byte, ((b ||| 2) &&& 0x2 == 0) = false := by decide +kernel
  have hclear : ∀ b : Byte, (b &&& ~~~2 &&& 0x2 == 0) = true := by decide +kernel
  unfold Kbc.status
  cases k.pending with
  | none => exact hclear _
  | some r => exact hset _

/-- one round of a loop -/
theorem wait_round {n : ℕ} {rel : Byte} {m : Computer} (h : Ready bootmain n false m)
    (h0 : (bootCode bootmain)[n]? = some (false, .inb 0x64)) (h1 : (bootCode bootmain)[n + 1]? = some (false, .testb 0x2))
    (h2 : (bootCode bootmain)[n + 2]? = some (false, .jnz rel)) (hrel : place (n + 3) + rel.signExtend 32 = place n) :
    ∃ m', m.steps 3 = some m' ∧ Frame m m' ∧
      m'.kbc = Kbc.tick (Kbc.tick { m.kbc.tick with noise := fun i => m.kbc.tick.noise (i + 1) }) ∧
      Ready bootmain (if m.kbc.tick.pending.isSome then n else n + 3) false m' := by
  obtain ⟨hs0, r1⟩ := h.go h0 rfl rfl rfl rfl
  obtain ⟨hs1, r2⟩ := r1.go h1 rfl rfl rfl rfl
  have hs2 := r2.step h2
  have hzf : ((setAl m.eax m.kbc.tick.status).setWidth 8 &&& 0x2 == 0) = !m.kbc.tick.pending.isSome := by
    rw [setAl_low, status_busy]
  have hplace : m.wrap (place (n + 3) + rel.signExtend 32) = place n := by
    have hle := sum_take_le n
    have hat := place_toNat (n := n) (k := 0) hle
    rw [Ram.off_zero] at hat
    rw [hrel, wrap_low m (by omega)]
  by_cases hb : m.kbc.tick.pending.isSome = true
  · rw [if_pos hb]
    rw [hb] at hzf
    obtain ⟨hs2, r3⟩ := r2.go h2 (congrArg some (if_neg (Bool.eq_false_iff.1 hzf))) hplace rfl rfl
    exact ⟨_, steps_trans (steps_one hs0) (steps_trans (steps_one hs1) (steps_one hs2)), ⟨rfl, rfl, rfl, rfl, rfl⟩, rfl, r3⟩
  · rw [if_neg hb]
    rw [Bool.eq_false_iff.2 hb] at hzf
    obtain ⟨hs2, r3⟩ := r2.go h2 (congrArg some (if_pos hzf)) rfl rfl rfl
    exact ⟨_, steps_trans (steps_one hs0) (steps_trans (steps_one hs1) (steps_one hs2)), ⟨rfl, rfl, rfl, rfl, rfl⟩, rfl, r3⟩

/-- **A loop that waits for the controller** comes to an end, and then the controller has an empty input buffer, having done
what it was told before. -/
theorem seta20_waits {n : ℕ} {rel : Byte} {m : Computer} (h : Ready bootmain n false m)
    (h0 : (bootCode bootmain)[n]? = some (false, .inb 0x64)) (h1 : (bootCode bootmain)[n + 1]? = some (false, .testb 0x2))
    (h2 : (bootCode bootmain)[n + 2]? = some (false, .jnz rel)) (hrel : place (n + 3) + rel.signExtend 32 = place n) :
    ∃ N m', m.steps N = some m' ∧ Frame m m' ∧ Ready bootmain (n + 3) false m' ∧ m'.kbc.pending = none ∧
      m'.kbc.outlook = m.kbc.outlook := by
  induction hb : m.kbc.busy using Nat.strong_induction_on generalizing m with
  | _ b ih =>
    obtain ⟨m₁, hs, hframe, hkbc, r⟩ := wait_round h h0 h1 h2 hrel
    have hout : m₁.kbc.outlook = m.kbc.outlook := by
      rw [hkbc, Kbc.outlook_tick, Kbc.outlook_tick, Kbc.outlook_noise, Kbc.outlook_tick]
    by_cases hp : m.kbc.tick.pending.isSome = true
    · rw [if_pos hp] at r
      have hless : m₁.kbc.busy < b := by
        have hpos : m.kbc.tick.busy ≠ 0 := fun hz => by
          rw [Kbc.busy_eq_zero.1 hz] at hp
          cases hp
        have htick := m.kbc.tick_spec.1
        rw [hkbc, (Kbc.tick_spec _).1, (Kbc.tick_spec _).1]
        show m.kbc.tick.busy - 1 - 1 < b
        omega
      obtain ⟨N, m', hs', hframe', r', hidle, hout'⟩ := ih _ hless r rfl
      exact ⟨3 + N, m', steps_trans hs hs', hframe.trans hframe', r', hidle, hout'.trans hout⟩
    · rw [if_neg hp] at r
      have hnone : m.kbc.tick.pending = none := by simpa using hp
      have hidle : m₁.kbc.pending = none := by
        rw [hkbc, ← Kbc.busy_eq_zero, (Kbc.tick_spec _).1, (Kbc.tick_spec _).1]
        show m.kbc.tick.busy - 1 - 1 = 0
        rw [Kbc.busy_eq_zero.2 hnone]
      exact ⟨3, m₁, hs, hframe, r, hidle, hout⟩

/-! ## The table -/

/-- the descriptors in the table, with the mark that they have been loaded -/
def flat (type : Word) : Descriptor := ⟨0, 0xFFFFF, type.setWidth 4, true, 0, true, true, true⟩

theorem ofBytes_congr {f g : ℕ → Byte} (h : ∀ k < 8, f k = g k) : Descriptor.ofBytes f = Descriptor.ofBytes g := by
  unfold Descriptor.ofBytes
  simp only [h 0 (by decide), h 1 (by decide), h 2 (by decide), h 3 (by decide), h 4 (by decide), h 5 (by decide),
    h 6 (by decide), h 7 (by decide)]

/-- a descriptor of the table, as the processor reads it -/
theorem read_flat {m : Computer} {a type : Word} (htype : type.toNat < 16) (ha : a.toNat + 8 ≤ 2 ^ 20)
    (h : Holds m.mem a (asmSeg type 0x0 0xffffffff)) :
    Descriptor.ofBytes (fun k => m.mem (m.phys (a + BitVec.ofNat 32 k))) = flat type := by
  have hlen : (asmSeg type 0x0 0xffffffff).length = 8 := rfl
  have hbytes : Descriptor.ofBytes (fun k => m.mem (m.phys (a + BitVec.ofNat 32 k))) =
      Descriptor.ofBytes (byteOf (asmSeg type 0x0 0xffffffff)) := by
    apply ofBytes_congr
    intro k hk
    have hat : (a + BitVec.ofNat 32 k).toNat = a.toNat + k := Ram.toNat_off (by omega)
    rw [phys_low m (by omega), h k (by omega), byteOf, List.getD_eq_getElem]
  rw [hbytes, asmSeg_eq_SEG htype, SEG_read]
  rfl

theorem flat_flat {type : Word} (hup : (flat type).expandDown = false) : (flat type).Flat :=
  I386.flat_of_full rfl rfl rfl rfl hup

/-! ## Real mode -/

/-- how a BIOS leaves the machine: in real mode, with %cs=0 and %ip=7c00, and 64K in every segment -/
structure Bios (m : Computer) : Prop where
  real : m.pe = false
  eip : m.eip = start
  cs : (m.seg .cs).desc.base = 0
  small : m.big = false
  inside : ∀ s (off : Word), off.toNat < 2 ^ 16 → (m.seg s).desc.inside off = true

/-- what holds until the switch to protected mode -/
structure Real (m m' : Computer) : Prop where
  intr : m'.intr = false
  df : m'.df = false
  ds : (m'.seg .ds).desc.base = 0
  inside : ∀ off : Word, off.toNat < 2 ^ 16 → (m'.seg .ds).desc.inside off = true
  cr0 : m'.cr0 = m.cr0
  mem : m'.mem = m.mem

theorem Real.frame {m m' m'' : Computer} (h : Real m m') (hf : Frame m' m'') : Real m m'' := by
  refine ⟨hf.intr.trans h.intr, hf.df.trans h.df, ?_, ?_, hf.cr0.trans h.cr0, hf.mem.trans h.mem⟩
  · rw [hf.seg]
    exact h.ds
  · rw [hf.seg]
    exact h.inside

theorem setAx_low (eax : Word) (v : BitVec 16) : (setAx eax v).setWidth 16 = v := by
  unfold setAx
  ext i hi
  rw [BitVec.getElem_setWidth, BitVec.getLsbD_or, BitVec.getLsbD_and, BitVec.getLsbD_setWidth]
  interval_cases i <;> simp

/-- up to the first loop: interrupts are off, and the data segments begin at 0 -/
theorem sets_segments {m : Computer} (hb : Bios m) (hcode : Holds m.mem start (codeBytes (bootCode bootmain))) :
    ∃ m', m.steps 6 = some m' ∧ Ready bootmain 6 false m' ∧ Real m m' := by
  have r0 : Ready bootmain 0 false m := ⟨hb.eip, hb.small, hb.cs, hb.inside .cs, hcode⟩
  obtain ⟨hs0, r1⟩ := r0.go rfl rfl rfl rfl rfl
  obtain ⟨hs1, r2⟩ := r1.go rfl rfl rfl rfl rfl
  obtain ⟨hs2, r3⟩ := r2.go rfl rfl rfl rfl rfl
  obtain ⟨hs3, r4⟩ := r3.go rfl (RealMode.loadSeg_real (by exact hb.real) .ds _) rfl rfl rfl
  obtain ⟨hs4, r5⟩ := r4.go rfl (RealMode.loadSeg_real (by exact hb.real) .es _) rfl rfl rfl
  obtain ⟨hs5, r6⟩ := r5.go rfl (RealMode.loadSeg_real (by exact hb.real) .ss _) rfl rfl rfl
  refine ⟨_, steps_trans (steps_one hs0) (steps_trans (steps_one hs1) (steps_trans (steps_one hs2) (steps_trans (steps_one hs3)
    (steps_trans (steps_one hs4) (steps_one hs5))))), r6, ⟨rfl, rfl, ?_, fun off h => hb.inside .ds off h, rfl, rfl⟩⟩
  show ((setAx m.eax 0).setWidth 16).setWidth 32 <<< 4 = (0 : Word)
  rw [setAx_low]
  rfl

/-- a byte for the controller, which is idle -/
theorem sends {n : ℕ} {b p : Byte} {m : Computer} (h : Ready bootmain n false m) (hidle : m.kbc.pending = none)
    (hp : p = 0x64 ∨ p = 0x60) (h0 : (bootCode bootmain)[n]? = some (false, .movbAl b))
    (h1 : (bootCode bootmain)[n + 1]? = some (false, .outb p)) :
    ∃ m', m.steps 2 = some m' ∧ Frame m m' ∧ Ready bootmain (n + 2) false m' ∧
      m'.kbc.outlook = if p = 0x64 then (m.kbc.port, b == 0xD1) else (if m.kbc.expecting then b else m.kbc.port, false) := by
  have htick : m.kbc.tick = m.kbc := by rw [Kbc.tick, hidle]
  obtain ⟨hs0, r1⟩ := h.go h0 rfl rfl rfl rfl
  obtain ⟨hs1, r2⟩ := r1.go h1 (congrArg some (if_pos hp)) rfl rfl rfl
  refine ⟨_, steps_trans (steps_one hs0) (steps_one hs1), ⟨rfl, rfl, rfl, rfl, rfl⟩, r2, ?_⟩
  show (Kbc.write (decide (p = 0x64)) ((setAl m.eax b).setWidth 8) m.kbc.tick.tick).outlook = _
  rw [htick, htick, setAl_low, Kbc.outlook_write hidle]
  simp only [decide_eq_true_eq]

/-- **The address line 20.** After both loops the controller has been told to open it, with the processor out of reset. -/
theorem opens_a20 {m : Computer} (h : Ready bootmain 6 false m) :
    ∃ N m', m.steps N = some m' ∧ Frame m m' ∧ Ready bootmain 16 false m' ∧ m'.kbc.outlook = (0xDF, false) := by
  obtain ⟨N₁, m₁, hs₁, hf₁, r₁, hidle₁, -⟩ := seta20_waits h rfl rfl rfl (by decide)
  obtain ⟨m₂, hs₂, hf₂, r₂, hout₂⟩ := sends r₁ hidle₁ (p := 0x64) (Or.inl rfl) rfl rfl
  obtain ⟨N₃, m₃, hs₃, hf₃, r₃, hidle₃, hout₃⟩ := seta20_waits r₂ rfl rfl rfl (by decide)
  obtain ⟨m₄, hs₄, hf₄, r₄, hout₄⟩ := sends r₃ hidle₃ (p := 0x60) (Or.inr rfl) rfl rfl
  -- the controller, idle now, expects the data of the command 0xD1
  have hexpect : m₃.kbc.expecting = true := by
    have hsettled := Kbc.settled_of_idle hidle₃
    rw [hout₂] at hout₃
    have h2 := congrArg Prod.snd hout₃
    rw [Kbc.outlook, hsettled] at h2
    exact h2
  refine ⟨_, m₄, steps_trans hs₁ (steps_trans hs₂ (steps_trans hs₃ hs₄)), hf₁.trans (hf₂.trans (hf₃.trans hf₄)), r₄, ?_⟩
  rw [hout₄, hexpect]
  rfl

/-! ## The switch -/

theorem length_code : (codeBytes (bootCode bootmain)).length = 0x4C := by
  have hall : (bootCode bootmain).take 30 = bootCode bootmain := List.take_of_length_le (le_refl 30)
  rw [← hall, length_take]
  decide

/-- what lies behind the code -/
structure Table (mem : Word → Byte) : Prop where
  code : Holds mem (gdt + 8) (asmSeg (STA_X ||| STA_R) 0x0 0xffffffff)
  data : Holds mem (gdt + 16) (asmSeg STA_W 0x0 0xffffffff)
  desc : Holds mem (gdtdesc.setWidth 32) (littleHalf 0x17 ++ littleWord gdt)

theorem table_of_bytes {mem : Word → Byte} (h : Holds mem start (bootBytes bootmain)) :
    Holds mem start (codeBytes (bootCode bootmain)) ∧ Table mem := by
  have htable := h.left.right
  have hdesc := h.right
  rw [length_code] at htable
  rw [List.length_append, length_code] at hdesc
  exact ⟨h.left.left, htable.left.right, htable.right, hdesc⟩

/-- reads in real mode, of a segment at 0 -/
theorem reads_low {m : Computer} (hpe : m.pe = false) {s : Sreg} (hbase : (m.seg s).desc.base = 0)
    (hin : ∀ off : Word, off.toNat < 2 ^ 16 → (m.seg s).desc.inside off = true) (n : ℕ) (off : Word)
    (hoff : off.toNat + n ≤ 2 ^ 16) :
    m.reads s off n = some ((List.range n).map fun k => m.mem (off + BitVec.ofNat 32 k)) := by
  induction n generalizing off with
  | zero => rfl
  | succ n ih =>
    have hla : m.linear s false off = some off := by
      have hzero : (0 : Word) + off = off := BitVec.zero_add off
      unfold Computer.linear
      rw [hpe, if_pos ⟨fun h => absurd h Bool.false_ne_true, hin off (by omega)⟩, hbase, hzero]
    have hnext : (off + 1).toNat = off.toNat + 1 := Ram.toNat_off (i := 1) (by omega)
    rw [Computer.reads, hla, Option.bind_some, ih (off + 1) (by omega), phys_low m (by omega), List.range_succ_eq_map,
      List.map_cons, List.map_map, Option.map_some, Ram.off_zero]
    congr 2
    apply List.map_congr_left
    intro k hk
    exact congrArg m.mem (Ram.off_succ off k)

/-- the table register, as `lgdt` loads it -/
theorem lgdt_loads {m : Computer} (hpe : m.pe = false) (hbase : (m.seg .ds).desc.base = 0)
    (hin : ∀ off : Word, off.toNat < 2 ^ 16 → (m.seg .ds).desc.inside off = true) (ht : Table m.mem) :
    (Insn.lgdt gdtdesc).exec m = some { m with gdtLimit := 0x17, gdtBase := gdt } := by
  have hbytes : (List.range 6).map (fun k => m.mem (gdtdesc.setWidth 32 + BitVec.ofNat 32 k)) =
      littleHalf 0x17 ++ littleWord gdt := by
    apply List.ext_getElem (by rfl)
    intro k hk hk'
    rw [List.getElem_map, List.getElem_range]
    exact ht.desc k hk'
  have hreads : m.reads .ds (gdtdesc.setWidth 32) 6 = some (littleHalf 0x17 ++ littleWord gdt) := by
    rw [reads_low hpe hbase hin 6 _ (by decide), hbytes]
  rw [Insn.exec, hreads]
  rfl

/-- a place of the table is no place of the code -/
theorem code_outside {mem : Word → Byte} {x : Word} (hx : gdt.toNat ≤ x.toNat) (b : Byte)
    (h : Holds mem start (codeBytes (bootCode bootmain))) :
    Holds (Function.update mem x b) start (codeBytes (bootCode bootmain)) := by
  apply h.congr
  intro k hk
  rw [length_code] at hk
  apply Function.update_of_ne
  rintro rfl
  have hgdt : gdt.toNat = 0x7C4C := rfl
  have hat : (start + BitVec.ofNat 32 k).toNat = 0x7C00 + k := Ram.toNat_off (a := start) (show 0x7C00 + k < 2 ^ 32 by omega)
  omega

/-- the machine in protected mode, with its data segments in done loaded -/
structure Flattening (m : Computer) (done : List Sreg) (m' : Computer) : Prop where
  pe : m'.pe = true
  cr0 : m'.cr0 = m.cr0 ||| CR0_PE_ON.signExtend 32
  intr : m'.intr = false
  df : m'.df = false
  limit : m'.gdtLimit = 0x17
  base : m'.gdtBase = gdt
  cs : m'.seg .cs = ⟨PROT_MODE_CSEG, flat (STA_X ||| STA_R)⟩
  /-- the data segment's descriptor gets the mark that it has been loaded -/
  data : ∃ type, (type = STA_W ∨ type = STA_W ||| 1) ∧ Holds m'.mem (gdt + 16) (asmSeg type 0x0 0xffffffff)
  loaded : ∀ s ∈ done, ∃ type, (type = STA_W ∨ type = STA_W ||| 1) ∧ m'.seg s = ⟨PROT_MODE_DSEG, flat type⟩
  mem : ∀ x, x ≠ gdt + 13 → x ≠ gdt + 21 → m'.mem x = m.mem x
  outlook : m'.kbc.outlook = (0xDF, false)

theorem pe_on (x : Word) : (x ||| CR0_PE_ON.signExtend 32).getLsbD 0 = true := by
  rw [BitVec.getLsbD_or]
  exact Bool.or_true _

/-- the long jump loads the code segment -/
theorem ljmp_loads {m : Computer} (hpe : m.pe = true) (hlimit : m.gdtLimit = 0x17) (hbase : m.gdtBase = gdt)
    (ht : Holds m.mem (gdt + 8) (asmSeg (STA_X ||| STA_R) 0x0 0xffffffff)) :
    (Insn.ljmp PROT_MODE_CSEG protcseg).exec m =
      some { m with
        eip := protcseg.setWidth 32
        seg := Function.update m.seg .cs ⟨PROT_MODE_CSEG, flat (STA_X ||| STA_R)⟩
        mem := Function.update m.mem (gdt + 13) (m.mem (gdt + 13) ||| 1) } := by
  have hload := @RealMode.loadSeg_protected m hpe .cs PROT_MODE_CSEG _ _ (by decide) (by decide)
    (by rw [hlimit]; decide) (by rw [hbase]; rfl) (read_flat (by decide) (by decide) ht) (by decide)
  have hphys : m.phys (gdt + 8 + 5) = gdt + 13 := phys_low m (by decide)
  rw [hphys] at hload
  rw [Insn.exec, hload]
  rfl

/-- a move to a segment register loads the data segment -/
theorem movw_loads {m : Computer} {s : Sreg} (hs : s ≠ .cs) (hpe : m.pe = true) (hlimit : m.gdtLimit = 0x17)
    (hbase : m.gdtBase = gdt) (hax : m.eax.setWidth 16 = PROT_MODE_DSEG) {type : Word}
    (htype : type = STA_W ∨ type = STA_W ||| 1) (ht : Holds m.mem (gdt + 16) (asmSeg type 0x0 0xffffffff)) :
    (Insn.movwSeg s).exec m =
      some { m with
        seg := Function.update m.seg s ⟨PROT_MODE_DSEG, flat type⟩
        mem := Function.update m.mem (gdt + 21) (m.mem (gdt + 21) ||| 1) } := by
  have hlow : type.toNat < 16 := by rcases htype with rfl | rfl <;> decide
  have hok : RealMode.loadable s (PROT_MODE_DSEG.setWidth 2) (flat type) = true := by
    rcases htype with rfl | rfl <;> cases s <;> first | exact absurd rfl hs | decide
  have hload := @RealMode.loadSeg_protected m hpe s PROT_MODE_DSEG _ _ (by decide) (by decide)
    (by rw [hlimit]; decide) (by rw [hbase]; rfl) (read_flat hlow (by decide) ht) hok
  have hphys : m.phys (gdt + 16 + 5) = gdt + 21 := phys_low m (by decide)
  rw [hphys] at hload
  rw [Insn.exec, if_neg hs, hax, hload]

/-- the descriptor of the data segments does not overlap the byte of the code segment's that is marked -/
theorem table_ne {type : Word} {k : ℕ} (hk : k < (asmSeg type 0x0 0xffffffff).length) :
    gdt + 16 + BitVec.ofNat 32 k ≠ gdt + 13 := by
  have hlen : (asmSeg type 0x0 0xffffffff).length = 8 := rfl
  intro he
  have hat : (gdt + 16 + BitVec.ofNat 32 k).toNat = 0x7C5C + k := Ram.toNat_off (a := gdt + 16) (show 0x7C5C + k < 2 ^ 32 by omega)
  rw [he] at hat
  have h13 : (gdt + 13).toNat = 0x7C59 := rfl
  omega

/-- from the command that opens the address line 20 to the first instruction of 32 bits -/
theorem switches {m m' : Computer} (h : Ready bootmain 16 false m') (hreal : Real m m') (hpe : m.pe = false)
    (ht : Table m.mem) (hout : m'.kbc.outlook = (0xDF, false)) :
    ∃ m'', m'.steps 5 = some m'' ∧ Ready bootmain 21 true m'' ∧ Flattening m [] m'' := by
  have hpe' : m'.pe = false := by rw [Computer.pe, hreal.cr0]; exact hpe
  have ht' : Table m'.mem := by rw [hreal.mem]; exact ht
  obtain ⟨hs0, r1⟩ := h.go (i := .lgdt gdtdesc) rfl
    (lgdt_loads (by exact hpe') (by exact hreal.ds) (by exact hreal.inside) (by exact ht')) rfl rfl rfl
  obtain ⟨hs1, r2⟩ := r1.go rfl rfl rfl rfl rfl
  obtain ⟨hs2, r3⟩ := r2.go rfl rfl rfl rfl rfl
  obtain ⟨hs3, r4⟩ := r3.go rfl rfl rfl rfl rfl
  have hpe'' : (m'.cr0 ||| CR0_PE_ON.signExtend 32).getLsbD 0 = true := pe_on _
  have hs4 := (r4.step (i := .ljmp PROT_MODE_CSEG protcseg) rfl).trans
    (ljmp_loads (by exact hpe'') (by exact rfl) (by exact rfl) (by exact ht'.code))
  refine ⟨_, steps_trans (steps_one hs0) (steps_trans (steps_one hs1) (steps_trans (steps_one hs2) (steps_trans (steps_one hs3)
    (steps_one hs4)))), ⟨rfl, rfl, rfl, ?_, ?_⟩, ⟨hpe'', ?_, hreal.intr, hreal.df, rfl, rfl, rfl, ?_, ?_, ?_, ?_⟩⟩
  · exact fun off _ => (flat_flat rfl).inside off
  · exact code_outside (by decide) _ h.code
  · exact congrArg (· ||| CR0_PE_ON.signExtend 32) hreal.cr0
  · exact ⟨STA_W, Or.inl rfl, ht'.data.congr fun k hk => Function.update_of_ne (table_ne hk) _ _⟩
  · exact fun s hs => absurd hs List.not_mem_nil
  · exact fun x hx _ => (Function.update_of_ne hx _ _).trans (congrFun hreal.mem x)
  · show (m'.kbc.tick.tick.tick.tick.tick).outlook = _
    rw [Kbc.outlook_tick, Kbc.outlook_tick, Kbc.outlook_tick, Kbc.outlook_tick, Kbc.outlook_tick, hout]

/-! ## Protected mode -/

/-- the descriptor of the data segments, with the mark -/
theorem marked {mem : Word → Byte} {type : Word} (htype : type = STA_W ∨ type = STA_W ||| 1)
    (h : Holds mem (gdt + 16) (asmSeg type 0x0 0xffffffff)) :
    Holds (Function.update mem (gdt + 21) (mem (gdt + 21) ||| 1)) (gdt + 16) (asmSeg (STA_W ||| 1) 0x0 0xffffffff) := by
  have hmark : mem (gdt + 21) ||| 1 = 0x93 := by
    rcases htype with rfl | rfl
    · exact congrArg (· ||| 1) (h 5 (by decide))
    · exact congrArg (· ||| 1) (h 5 (by decide))
  intro k hk
  have hk8 : k < 8 := hk
  by_cases hk5 : k = 5
  · subst hk5
    exact (Function.update_self _ _ _).trans hmark
  · have hne : gdt + 16 + BitVec.ofNat 32 k ≠ gdt + 21 := by
      intro he
      have h16 : (gdt + 16).toNat = 0x7C5C := rfl
      exact hk5 (Ram.off_inj (a := gdt + 16) (i := k) (j := 5) (by omega) (by omega) he)
    rw [Function.update_of_ne hne]
    rcases htype with rfl | rfl
    · rw [h k hk8]
      interval_cases k <;> first | rfl | exact absurd rfl hk5
    · exact h k hk8

/-- a data segment is loaded -/
theorem Flattening.step {m m' : Computer} {done : List Sreg} {s : Sreg} {n : ℕ} (h : Flattening m done m')
    (r : Ready bootmain n true m') (hs : s ≠ .cs) (hax : m'.eax.setWidth 16 = PROT_MODE_DSEG)
    (hi : (bootCode bootmain)[n]? = some (true, .movwSeg s)) :
    ∃ m'', m'.steps 1 = some m'' ∧ Ready bootmain (n + 1) true m'' ∧ Flattening m (s :: done) m'' ∧ m''.eax = m'.eax := by
  obtain ⟨type, htype, hdata⟩ := h.data
  have hstep := (r.step hi).trans
    (movw_loads hs (by exact h.pe) (by exact h.limit) (by exact h.base) (by exact hax) htype (by exact hdata))
  have hcs : Function.update m'.seg s ⟨PROT_MODE_DSEG, flat type⟩ .cs = m'.seg .cs := Function.update_of_ne hs.symm _ _
  refine ⟨_, steps_one hstep, ⟨rfl, ?_, ?_, ?_, ?_⟩,
    ⟨h.pe, h.cr0, h.intr, h.df, h.limit, h.base, hcs.trans h.cs, ⟨STA_W ||| 1, Or.inr rfl, marked htype hdata⟩, ?_, ?_, ?_⟩, rfl⟩
  · exact (congrArg (fun x : Segment => x.desc.big) hcs).trans r.big
  · exact (congrArg (fun x : Segment => x.desc.base) hcs).trans r.base
  · exact fun off hoff => (congrArg (fun x : Segment => x.desc.inside off) hcs).trans (r.inside off hoff)
  · exact code_outside (by decide) _ r.code
  · intro x hx
    by_cases hxs : x = s
    · subst hxs
      exact ⟨type, htype, Function.update_self _ _ _⟩
    · obtain ⟨type', htype', hseg⟩ := h.loaded x ((List.mem_cons.1 hx).resolve_left hxs)
      exact ⟨type', htype', (Function.update_of_ne hxs _ _).trans hseg⟩
  · exact fun x h13 h21 => (Function.update_of_ne h21 _ _).trans (h.mem x h13 h21)
  · exact (Kbc.outlook_tick _).trans h.outlook

theorem Flattening.keep {m m' : Computer} {done : List Sreg} (h : Flattening m done m') (eip eax esp : Word) :
    Flattening m done { m' with eip := eip, eax := eax, esp := esp, kbc := m'.kbc.tick } :=
  ⟨h.pe, h.cr0, h.intr, h.df, h.limit, h.base, h.cs, h.data, h.loaded, h.mem, (Kbc.outlook_tick _).trans h.outlook⟩

/-- the accesses of protected mode, and the place for a return address -/
theorem Flattening.linear {m m' : Computer} {done : List Sreg} (h : Flattening m done m') {s : Sreg}
    (hs : s = .cs ∨ s ∈ done) (off : Word) :
    m'.linear s false off = some off ∧ (s ≠ .cs → m'.linear s true off = some off) := by
  have hzero : (0 : Word) + off = off := BitVec.zero_add off
  rcases hs with rfl | hs
  · refine ⟨?_, fun h => absurd rfl h⟩
    unfold Computer.linear
    rw [h.cs, if_pos ⟨fun _ => by decide, (flat_flat rfl).inside off⟩]
    exact congrArg some hzero
  · obtain ⟨type, htype, hseg⟩ := h.loaded s hs
    have hup : (flat type).expandDown = false := by rcases htype with rfl | rfl <;> rfl
    have hok : ∀ write, (flat type).permits write = true := by rcases htype with rfl | rfl <;> decide
    have hlinear : ∀ write, m'.linear s write off = some off := by
      intro write
      unfold Computer.linear
      rw [hseg, if_pos ⟨fun _ => hok write, (flat_flat hup).inside off⟩]
      exact congrArg some hzero
    exact ⟨hlinear false, fun _ => hlinear true⟩

/-- stores below 1 MB, through a flat segment -/
theorem stores_low {s : Sreg} (l : List Byte) (off : Word) {m : Computer} (hlin : ∀ x, m.linear s true x = some x)
    (hoff : off.toNat + l.length ≤ 2 ^ 20) : m.stores s off l = some { m with mem := I386.put off l m.mem } := by
  suffices hram : ∀ r : Ram 32, { m with mem := r.byte }.stores s off l = some { m with mem := (r.stores off l).byte } from
    hram ⟨m.mem, []⟩
  induction l generalizing off with
  | nil => exact fun r => rfl
  | cons b l ih =>
    intro r
    rw [List.length_cons] at hoff
    have hlin' : { m with mem := r.byte }.linear s true off = some off := hlin off
    have hnext : (off + 1).toNat = off.toNat + 1 := Ram.toNat_off (i := 1) (by omega)
    have hphys : { m with mem := r.byte }.phys off = off := phys_low _ (by omega)
    rw [Computer.stores, hlin', Option.bind_some, hphys]
    exact ih (off + 1) (by omega) (r.st8 off b)

/-- the call, with a flat stack -/
theorem call_pushes {m : Computer} (hbig : (m.seg .ss).desc.big = true) (hlin : ∀ x, m.linear .ss true x = some x)
    (hesp : m.esp = start) (heip : m.eip = spin) :
    (Insn.call (bootmain - spin)).exec m =
      some { m with eip := bootmain, esp := start - 4, mem := I386.put (start - 4) (littleWord spin) m.mem } := by
  have htarget : spin + (bootmain - spin) = bootmain := by
    rw [BitVec.add_comm, BitVec.sub_add_cancel]
  rw [Insn.exec, if_pos hbig, hesp, heip, stores_low (littleWord spin) (start - 4) hlin (by decide), Option.map_some, htarget]

/-- what bootmain finds -/
structure Started (bootmain : Word) (m m' : Computer) : Prop where
  eip : m'.eip = bootmain
  /-- interrupts are off, and string operations go up -/
  intr : m'.intr = false
  df : m'.df = false
  cr0 : m'.cr0 = m.cr0 ||| CR0_PE_ON.signExtend 32
  big : m'.big = true
  /-- every segment is flat -/
  reads : ∀ s off, m'.linear s false off = some off
  writes : ∀ s off, s ≠ .cs → m'.linear s true off = some off
  fetches : (m'.seg .cs).desc.Flat
  /-- the stack grows down from the code -/
  esp : m'.esp = start - 4
  stack : Holds m'.mem (start - 4) (littleWord spin)
  /-- the rest of memory is as it was, but for the marks on two descriptors -/
  mem : ∀ x, x ≠ gdt + 13 → x ≠ gdt + 21 → (∀ k < 4, x ≠ start - 4 + BitVec.ofNat 32 k) → m'.mem x = m.mem x
  /-- and once the controller is through with what it has, the address line 20 is open, with the processor out of reset -/
  a20 : ∀ n ≥ m'.kbc.busy, (Kbc.tick^[n] m'.kbc).port = 0xDF

/-- **Where bootmain returns to, the code stays.** -/
theorem boot_spins {m : Computer} (h : Ready bootmain 29 true m) (n : ℕ) :
    ∃ m', m.steps n = some m' ∧ m'.eip = spin := by
  have hback : place 30 + (BitVec.setWidth 8 (spin - 0x7C4C)).signExtend 32 = place 29 := by decide
  induction n generalizing m with
  | zero => exact ⟨m, rfl, h.eip⟩
  | succ n ih =>
    have hplace : m.wrap (place 30 + (BitVec.setWidth 8 (spin - 0x7C4C)).signExtend 32) = place 29 := by
      rw [hback]
      exact wrap_low m (by decide)
    obtain ⟨hs, r⟩ := h.go rfl rfl hplace rfl rfl
    obtain ⟨m', hs', heip⟩ := ih r
    exact ⟨m', (RealMode.steps_succ hs).trans hs', heip⟩

/-- **The boot sector.** From any state that a BIOS leaves, whatever the keyboard controller is busy with and however
long it takes, the code of boot.S gets to bootmain; and if bootmain returns, the code stays where it returns to. -/
theorem boot_enters_bootmain (bootmain : Word) {m : Computer} (hb : Bios m) (hm : Holds m.mem start (bootBytes bootmain)) :
    ∃ n m', m.steps n = some m' ∧ Started bootmain m m' ∧
      ∀ c : Computer, c.eip = spin → c.seg .cs = m'.seg .cs → Holds c.mem start (codeBytes (bootCode bootmain)) →
        ∀ N, ∃ c', c.steps N = some c' ∧ c'.eip = spin := by
  obtain ⟨hcode, ht⟩ := table_of_bytes hm
  obtain ⟨m₁, hs₁, r₁, hreal⟩ := sets_segments hb hcode
  obtain ⟨N, m₂, hs₂, hf, r₂, hout⟩ := opens_a20 r₁
  obtain ⟨m₃, hs₃, r₃, hflat⟩ := switches r₂ (hreal.frame hf) hb.real ht hout
  -- the five data segments
  obtain ⟨hs₄, r₄⟩ := r₃.go rfl rfl rfl rfl rfl
  obtain ⟨m₅, hs₅, r₅, hflat₅, hax₅⟩ := (hflat.keep _ _ _).step r₄ (s := .ds) (by decide) (setAx_low _ _) rfl
  obtain ⟨m₆, hs₆, r₆, hflat₆, hax₆⟩ := hflat₅.step r₅ (s := .es) (by decide) (by rw [hax₅]; exact setAx_low _ _) rfl
  obtain ⟨m₇, hs₇, r₇, hflat₇, hax₇⟩ := hflat₆.step r₆ (s := .fs) (by decide) (by rw [hax₆, hax₅]; exact setAx_low _ _) rfl
  obtain ⟨m₈, hs₈, r₈, hflat₈, hax₈⟩ :=
    hflat₇.step r₇ (s := .gs) (by decide) (by rw [hax₇, hax₆, hax₅]; exact setAx_low _ _) rfl
  obtain ⟨m₉, hs₉, r₉, hflat₉, -⟩ :=
    hflat₈.step r₈ (s := .ss) (by decide) (by rw [hax₈, hax₇, hax₆, hax₅]; exact setAx_low _ _) rfl
  obtain ⟨hs₁₀, r₁₀⟩ := r₉.go rfl rfl rfl rfl rfl
  have hflat₁₀ := hflat₉.keep (place 28) m₉.eax start
  have hlinear := fun s off hs => hflat₁₀.linear (s := s) hs off
  have hall : ∀ s : Sreg, s = .cs ∨ s ∈ [Sreg.ss, .gs, .fs, .es, .ds] := fun s => by cases s <;> decide
  have hbig : (m₉.seg .ss).desc.big = true := by
    obtain ⟨type, -, hseg⟩ := hflat₉.loaded .ss List.mem_cons_self
    rw [hseg]
    rfl
  have hs₁₁ := (r₁₀.step rfl).trans
    (call_pushes (by exact hbig) (fun x => (hlinear .ss x (hall .ss)).2 (by decide)) rfl labels.2.2.2.2.2.1)
  refine ⟨_, _, steps_trans hs₁ (steps_trans hs₂ (steps_trans hs₃ (steps_trans (steps_one hs₄) (steps_trans hs₅ (steps_trans hs₆
    (steps_trans hs₇ (steps_trans hs₈ (steps_trans hs₉ (steps_trans (steps_one hs₁₀) (steps_one hs₁₁)))))))))),
    ⟨rfl, hflat₉.intr, hflat₉.df, hflat₉.cr0, r₉.big, fun s off => (hlinear s off (hall s)).1,
      fun s off => (hlinear s off (hall s)).2, ?_, rfl, ?_, ?_, ?_⟩, fun c heip hcs hc => boot_spins ⟨heip, ?_, ?_, ?_, hc⟩⟩
  · rw [show (_ : Segment) = _ from hflat₉.cs]
    exact flat_flat rfl
  · exact fun k hk => Ram.stores_inside _ ⟨m₉.mem, []⟩ (by decide) hk
  · exact fun x h13 h21 hx => (Ram.stores_outside (littleWord spin) ⟨m₉.mem, []⟩ hx).trans (hflat₉.mem x h13 h21)
  · intro n hn
    have hout := congrArg Prod.fst ((Kbc.outlook_tick _).trans hflat₁₀.outlook)
    rw [Kbc.settles _ hn]
    exact hout
  · exact (congrArg (fun x : Segment => x.desc.big) hcs).trans r₉.big
  · exact (congrArg (fun x : Segment => x.desc.base) hcs).trans r₉.base
  · exact fun off hoff => (congrArg (fun x : Segment => x.desc.inside off) hcs).trans (r₉.inside off hoff)

/-- a machine with the boot sector in memory, whose controller is still busy -/
def someComputer : Computer where
  eip := start
  eax := 0xAA55
  esp := 0x6F04
  zf := false
  df := true
  intr := true
  seg _ := ⟨0, 0, 0xFFFF, 3, true, 0, true, false, false⟩
  gdtLimit := 0
  gdtBase := 0
  cr0 := 0x10
  mem x := (bootBytes 0x7D0B).getD (x - start).toNat 0
  kbc := ⟨some (.other, 3), fun _ => 5, fun _ => 0x1C, false, 0x01⟩

theorem boot_enters_bootmain_some : ∃ n m', someComputer.steps n = some m' ∧ Started 0x7D0B someComputer m' := by
  have hinside : ∀ off : Word, off.toNat < 2 ^ 16 →
      (⟨0, 0xFFFF, 3, true, 0, true, false, false⟩ : Descriptor).inside off = true := by
    intro off hoff
    show decide (off ≤ 0xFFFF) = true
    rw [decide_eq_true_eq, BitVec.le_def]
    exact Nat.le_of_lt_succ hoff
  have hm : Holds someComputer.mem start (bootBytes 0x7D0B) := by
    intro k hk
    have hlen : (bootBytes 0x7D0B).length = 106 := by decide
    have hat : (start + BitVec.ofNat 32 k - start).toNat = k := by
      rw [BitVec.add_comm, BitVec.add_sub_cancel, BitVec.toNat_ofNat, Nat.mod_eq_of_lt (by omega)]
    show (bootBytes 0x7D0B).getD (start + BitVec.ofNat 32 k - start).toNat 0 = _
    rw [hat, List.getD_eq_getElem]
  obtain ⟨n, m', hs, h, -⟩ := boot_enters_bootmain 0x7D0B (m := someComputer)
    ⟨rfl, rfl, rfl, rfl, fun _ => hinside⟩ hm
  exact ⟨n, m', hs, h⟩

end Jos.Boot
