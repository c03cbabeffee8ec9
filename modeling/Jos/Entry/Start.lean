/-
kern/entry.S, instruction by instruction, from the jump of the boot loader to the call of i386_init.

Between the write to %cr0 and the jump to `relocated` the code runs through the mapping of the low addresses, after it
through that of the kernel's addresses; both lead to the load addresses of the code.

- `low_step`, `high_step`: the next instruction of the listing is fetched and executed, below and above KERNBASE.
- **`entry_starts`**: the code gets to i386_init without a fault, with paging on, an empty stack and a null frame pointer.
- **`entry_spins`**: where i386_init returns to, the code stays.
-/
import Jos.Entry.Window

namespace Jos.Entry

open I386 (Coding Insn Processor Gpr Cr pg wp put step_sim stores_sim steps_succ littleWord littleHalf)
open Paging (Mem Sim)

variable {L : Symbols} {C : Coding}

/-- the length of the first n instructions -/
def before (C : Coding) (L : Symbols) (n : ℕ) : ℕ := C.size ((entryCode L).take n)

/-- the state before the n-th instruction of the code, which is executed from base on -/
def codeAt (C : Coding) (L : Symbols) (base : Word) (n : ℕ) (gpr : Gpr → Word) (cr : Cr → Word) (mem : Mem) : Processor :=
  ⟨base + BitVec.ofNat 32 (before C L n), gpr, cr, mem⟩

theorem codeAt_zero (base : Word) (gpr : Gpr → Word) (cr : Cr → Word) (mem : Mem) :
    codeAt C L base 0 gpr cr mem = ⟨base, gpr, cr, mem⟩ := by
  rw [codeAt, before]
  exact congrArg (Processor.mk · gpr cr mem) (Ram.off_zero base)

/-! ## One instruction -/

section Step

variable (hL : Linked L C) {plain : Mem} {n : ℕ} {i : Insn}

include hL

/-- where the bytes of an instruction are loaded -/
theorem code_toNat (hi : (entryCode L)[n]? = some i) {k : ℕ} (hk : k < (C.encode i).length) :
    (RELOC L.entry + BitVec.ofNat 32 (before C L n) + BitVec.ofNat 32 k).toNat =
        L.entry.toNat - 0xF0000000 + before C L n + k ∧ before C L n + k < C.size (entryCode L) := by
  have hr := RELOC_toNat hL.code
  have h2 := hL.code.2
  have hsize := Coding.size_take_le (C := C) (entryCode L) (n + 1)
  rw [Coding.size_take_add _ hi] at hsize
  unfold before
  rw [Ram.toNat_off, Ram.toNat_off]
  · omega
  · omega
  · rw [Ram.toNat_off] <;> omega

theorem code_off_span (hi : (entryCode L)[n]? = some i) {k : ℕ} (hk : k < (C.encode i).length) :
    RELOC L.entry + BitVec.ofNat 32 (before C L n) + BitVec.ofNat 32 k ∉ (entryTables L).span := by
  apply off_span hL
  obtain ⟨h, hlt⟩ := code_toNat hL hi hk
  have h1 := hL.code_pgdir
  have h2 := hL.code_pgtable
  have h3 := hL.code.1
  have h4 := hL.pgdir.1
  have h5 := hL.pgtable.1
  unfold Apart at h1 h2
  constructor <;> unfold Apart <;> rw [h]
  · rw [RELOC_toNat hL.pgdir]
    omega
  · rw [RELOC_toNat hL.pgtable]
    omega

/-- below KERNBASE: paging is off, or the address stands for itself -/
theorem low_step (n : ℕ) {i : Insn} (gpr : Gpr → Word) {cr : Cr → Word} {mem : Mem} (h : Sim (entryTables L) mem plain)
    (hcr : pg cr = true → cr .cr3 = RELOC L.entryPgdir) (hcode : C.At (RELOC L.entry) (entryCode L) plain)
    (hi : (entryCode L)[n]? = some i) :
    ∃ mem', (codeAt C L (RELOC L.entry) n gpr cr mem).step C = i.exec (codeAt C L (RELOC L.entry) (n + 1) gpr cr mem') ∧
      Sim (entryTables L) mem' plain := by
  have hnext : RELOC L.entry + BitVec.ofNat 32 (before C L (n + 1)) =
      RELOC L.entry + BitVec.ofNat 32 (before C L n) + BitVec.ofNat 32 (C.encode i).length := by
    rw [Ram.off_off, before, Coding.size_take_add _ hi, before]
  unfold codeAt
  rw [hnext]
  refine step_sim (c := ⟨_, gpr, cr, mem⟩) h hcr (hcode.insn hi) fun k hk => ⟨?_, code_off_span hL hi hk⟩
  obtain ⟨hat, hlt⟩ := code_toNat hL hi hk
  have h1 := hL.code.1
  have h2 := hL.code.2
  rw [Processor.place]
  split_ifs
  · rw [entryTables_translate hL.pgtable hL.pgtable_aligned, hat, if_pos (by omega), Bool.and_false]
    rfl
  · rfl

omit hL in
theorem RELOC_add (x y : Word) : RELOC (x + y) = RELOC x + y := by
  rw [RELOC, RELOC, BitVec.sub_eq_add_neg, BitVec.sub_eq_add_neg, BitVec.add_assoc, BitVec.add_comm y, BitVec.add_assoc]

/-- above KERNBASE: the address stands for the load address -/
theorem high_step (n : ℕ) {i : Insn} (gpr : Gpr → Word) {cr : Cr → Word} {mem : Mem} (h : Sim (entryTables L) mem plain) (hpg : pg cr = true)
    (hcr : cr .cr3 = RELOC L.entryPgdir) (hcode : C.At (RELOC L.entry) (entryCode L) plain)
    (hi : (entryCode L)[n]? = some i) :
    ∃ mem', (codeAt C L L.entry n gpr cr mem).step C = i.exec (codeAt C L L.entry (n + 1) gpr cr mem') ∧
      Sim (entryTables L) mem' plain := by
  have hnext : L.entry + BitVec.ofNat 32 (before C L (n + 1)) =
      L.entry + BitVec.ofNat 32 (before C L n) + BitVec.ofNat 32 (C.encode i).length := by
    rw [Ram.off_off, before, Coding.size_take_add _ hi, before]
  unfold codeAt
  rw [hnext]
  refine step_sim (c := ⟨_, gpr, cr, mem⟩) h (fun _ => hcr) (hcode.insn hi) fun k hk => ⟨?_, code_off_span hL hi hk⟩
  obtain ⟨hat, hlt⟩ := code_toNat hL hi hk
  have h1 := hL.code.1
  have h2 := hL.code.2
  have hla : (L.entry + BitVec.ofNat 32 (before C L n) + BitVec.ofNat 32 k).toNat = L.entry.toNat + before C L n + k := by
    rw [Ram.off_off, Ram.toNat_off (by omega)]
    omega
  rw [Processor.place, if_pos hpg, entryTables_translate hL.pgtable hL.pgtable_aligned, hla, if_neg (by omega),
    if_pos (by omega), RELOC_add, RELOC_add]
  rfl

end Step

/-! ## Up to the jump -/

theorem steps_trans {m n : ℕ} {c c' c'' : Processor} (h : c.steps C m = some c') (h' : c'.steps C n = some c'') :
    c.steps C (m + n) = some c'' := by
  induction m generalizing c with
  | zero =>
    cases h
    rwa [Nat.zero_add]
  | succ m ih =>
    rw [Nat.add_right_comm, Processor.steps]
    rw [Processor.steps] at h
    cases hstep : c.step C with
    | none =>
      rw [hstep] at h
      cases h
    | some c₁ =>
      rw [hstep] at h
      exact ih h

/-- bytes outside of what is stored -/
theorem put_outside {pa x : Word} {l : List Byte} (hl : pa.toNat + l.length ≤ 2 ^ 32)
    (hx : x.toNat < pa.toNat ∨ pa.toNat + l.length ≤ x.toNat) (plain : Mem) : put pa l plain x = plain x := by
  apply Ram.stores_outside
  intro i hi he
  rw [he, Ram.toNat_off (by omega)] at hx
  omega

/-- %cr0 with paging on -/
def pagingCr0 (x : Word) : Word := x ||| (CR0_PE ||| CR0_PG ||| CR0_WP)

theorem pagingCr0_bits (x : Word) : (pagingCr0 x).getLsbD 31 = true ∧ (pagingCr0 x).getLsbD 16 = true := by
  have h31 : (CR0_PE ||| CR0_PG ||| CR0_WP).getLsbD 31 = true := by decide
  have h16 : (CR0_PE ||| CR0_PG ||| CR0_WP).getLsbD 16 = true := by decide
  constructor
  · rw [pagingCr0, BitVec.getLsbD_or, h31, Bool.or_true]
  · rw [pagingCr0, BitVec.getLsbD_or, h16, Bool.or_true]

section Run

variable (hL : Linked L C)

include hL

/-- the flag of a warm boot is stored below the kernel -/
theorem warm_boot {plain : Mem} (hcode : C.At (RELOC L.entry) (entryCode L) plain) :
    C.At (RELOC L.entry) (entryCode L) (put 0x472 (littleHalf 0x1234) plain) := by
  intro k hk
  have hr := RELOC_toNat hL.code
  have h1 := hL.code.1
  have h2 := hL.code.2
  have hk' : k < C.size (entryCode L) := hk
  rw [← hcode k hk]
  apply put_outside (by decide)
  rw [Ram.toNat_off (by omega)]
  exact Or.inr (by show 0x472 + 2 ≤ _; omega)

/-- an instruction that only sets registers, below KERNBASE -/
theorem low_set (n : ℕ) {i : Insn} (gpr gpr' : Gpr → Word) (cr cr' : Cr → Word) {mem plain : Mem}
    (h : Sim (entryTables L) mem plain) (hcr : pg cr = true → cr .cr3 = RELOC L.entryPgdir)
    (hcode : C.At (RELOC L.entry) (entryCode L) plain) (hi : (entryCode L)[n]? = some i)
    (hexec : ∀ eip m, i.exec ⟨eip, gpr, cr, m⟩ = some ⟨eip, gpr', cr', m⟩) :
    ∃ mem', (codeAt C L (RELOC L.entry) n gpr cr mem).step C = some (codeAt C L (RELOC L.entry) (n + 1) gpr' cr' mem') ∧
      Sim (entryTables L) mem' plain := by
  obtain ⟨mem', hstep, hsim⟩ := low_step hL n gpr h hcr hcode hi
  exact ⟨mem', hstep.trans (hexec _ _), hsim⟩

omit hL in
theorem set_eax (gpr : Gpr → Word) (a b : Word) :
    Function.update (Function.update gpr .eax a) .eax b = Function.update gpr .eax b := by simp

/-- %cr3 and %cr0 after the code -/
def pagingCr (L : Symbols) (cr : Cr → Word) : Cr → Word :=
  Function.update (Function.update cr .cr3 (RELOC L.entryPgdir)) .cr0 (pagingCr0 (cr .cr0))

/-- **Paging is turned on**: eight instructions, the last of which jumps to the kernel's addresses. -/
theorem paging_on (gpr : Gpr → Word) {cr : Cr → Word} {mem plain : Mem} (h : Sim (entryTables L) mem plain)
    (hpg : pg cr = false) (hcode : C.At (RELOC L.entry) (entryCode L) plain) :
    ∃ mem', Processor.steps C 8 ⟨RELOC L.entry, gpr, cr, mem⟩ =
        some (codeAt C L L.entry 8 (Function.update gpr .eax L.relocated) (pagingCr L cr) mem') ∧
      Sim (entryTables L) mem' (put 0x472 (littleHalf 0x1234) plain) := by
  have hoff : pg cr = true → cr .cr3 = RELOC L.entryPgdir := fun hx => absurd (hpg.symm.trans hx) (by decide)
  -- movw $0x1234, 0x472
  obtain ⟨m₀, hstep, hsim⟩ := low_step hL 0 gpr h hoff hcode rfl
  obtain ⟨m₁, hstore, hsim⟩ := @stores_sim _ (codeAt C L (RELOC L.entry) 1 gpr cr m₀) _ (littleHalf 0x1234) 0x472 0x472 hsim
    hoff fun i hi => by
      have hi : i < 2 := hi
      have hat : (0x472 + BitVec.ofNat 32 i : Word).toNat = 0x472 + i := Ram.toNat_off (by show 0x472 + i < _; omega)
      refine ⟨if_neg (by simp [codeAt, hpg]), off_span hL ?_⟩
      have h1 := hL.pgdir.1
      have h2 := hL.pgtable.1
      constructor <;> refine Or.inl ?_ <;> rw [hat]
      · rw [RELOC_toNat hL.pgdir]
        omega
      · rw [RELOC_toNat hL.pgtable]
        omega
  have hcode := warm_boot hL hcode
  have s₀ := hstep.trans hstore
  rw [codeAt_zero] at s₀
  -- movl $RELOC(entry_pgdir), %eax; movl %eax, %cr3
  set g₁ := Function.update gpr .eax (RELOC L.entryPgdir) with hg₁
  set x₁ := Function.update cr .cr3 (RELOC L.entryPgdir) with hx₁
  obtain ⟨m₂, s₁, hsim⟩ := low_set hL 1 gpr g₁ cr cr hsim hoff hcode rfl fun _ _ => rfl
  obtain ⟨m₃, s₂, hsim⟩ := low_set hL 2 g₁ g₁ cr x₁ hsim hoff hcode rfl fun _ _ => rfl
  have hoff₁ : pg x₁ = true → x₁ .cr3 = RELOC L.entryPgdir := fun _ => rfl
  -- movl %cr0, %eax; orl $(CR0_PE|CR0_PG|CR0_WP), %eax; movl %eax, %cr0
  set g₂ := Function.update g₁ .eax (cr .cr0) with hg₂
  set g₃ := Function.update g₂ .eax (pagingCr0 (cr .cr0)) with hg₃
  have hon : pg (pagingCr L cr) = true → pagingCr L cr .cr3 = RELOC L.entryPgdir := fun _ => rfl
  obtain ⟨m₄, s₃, hsim⟩ := low_set hL 3 g₁ g₂ x₁ x₁ hsim hoff₁ hcode rfl fun _ _ => rfl
  obtain ⟨m₅, s₄, hsim⟩ := low_set hL 4 g₂ g₃ x₁ x₁ hsim hoff₁ hcode rfl fun _ _ => rfl
  obtain ⟨m₆, s₅, hsim⟩ := low_set hL 5 g₃ g₃ x₁ (pagingCr L cr) hsim hoff₁ hcode rfl fun _ _ => rfl
  -- mov $relocated, %eax; jmp *%eax
  set g₄ := Function.update g₃ .eax L.relocated with hg₄
  obtain ⟨m₇, s₆, hsim⟩ := low_set hL 6 g₃ g₄ _ _ hsim hon hcode rfl fun _ _ => rfl
  obtain ⟨m₈, s₇, hsim⟩ := low_step hL 7 g₄ hsim hon hcode rfl
  have hjump : (Insn.jmpReg .eax).exec (codeAt C L (RELOC L.entry) 8 g₄ (pagingCr L cr) m₈) =
      some (codeAt C L L.entry 8 g₄ (pagingCr L cr) m₈) :=
    congrArg (fun e => some (Processor.mk e g₄ (pagingCr L cr) m₈)) hL.assembled.relocated
  have hg : g₄ = Function.update gpr .eax L.relocated := by
    rw [hg₄, hg₃, hg₂, hg₁, set_eax, set_eax, set_eax]
  refine ⟨m₈, ?_, hsim⟩
  rw [← hg]
  exact (steps_succ s₀).trans <| (steps_succ s₁).trans <| (steps_succ s₂).trans <| (steps_succ s₃).trans <|
    (steps_succ s₄).trans <| (steps_succ s₅).trans <| (steps_succ s₆).trans <| steps_succ (s₇.trans hjump)

omit hL in
theorem pagingCr_on (cr : Cr → Word) :
    pg (pagingCr L cr) = true ∧ wp (pagingCr L cr) = true ∧ pagingCr L cr .cr3 = RELOC L.entryPgdir :=
  ⟨(pagingCr0_bits (cr .cr0)).1, (pagingCr0_bits (cr .cr0)).2, rfl⟩

/-! ## Up to the call -/

/-- a byte of the stack's top word -/
theorem stack_place {k : ℕ} (hk : k < 4) :
    (entryTables L).translate true true (L.bootstacktop - 4 + BitVec.ofNat 32 k) =
        some (RELOC (L.bootstacktop - 4) + BitVec.ofNat 32 k) ∧
      RELOC (L.bootstacktop - 4) + BitVec.ofNat 32 k ∉ (entryTables L).span := by
  have h1 := hL.stack.1
  have h2 := hL.stack.2
  have hr := RELOC_toNat hL.stack
  have hla : (L.bootstacktop - 4 + BitVec.ofNat 32 k).toNat = (L.bootstacktop - 4).toNat + k := Ram.toNat_off (by omega)
  have hpa : (RELOC (L.bootstacktop - 4) + BitVec.ofNat 32 k).toNat = (RELOC (L.bootstacktop - 4)).toNat + k :=
    Ram.toNat_off (by omega)
  constructor
  · rw [entryTables_translate hL.pgtable hL.pgtable_aligned, hla, if_neg (by omega), if_pos (by omega), RELOC_add]
  · apply off_span hL
    have h3 := hL.stack_pgdir
    have h4 := hL.stack_pgtable
    have h5 := hL.pgdir.1
    have h6 := hL.pgtable.1
    unfold Apart at h3 h4
    constructor <;> unfold Apart <;> rw [hpa, hr]
    · rw [RELOC_toNat hL.pgdir]
      omega
    · rw [RELOC_toNat hL.pgtable]
      omega

/-- **The stack is set up**: three instructions, the last of which calls i386_init. -/
theorem stack_set (gpr : Gpr → Word) (cr : Cr → Word) {mem plain : Mem} (h : Sim (entryTables L) mem plain)
    (hcode : C.At (RELOC L.entry) (entryCode L) plain) :
    ∃ mem', Processor.steps C 3 (codeAt C L L.entry 8 gpr (pagingCr L cr) mem) = some ⟨L.i386Init,
          Function.update (Function.update gpr .ebp 0) .esp (L.bootstacktop - 4), pagingCr L cr, mem'⟩ ∧
      Sim (entryTables L) mem' (put (RELOC (L.bootstacktop - 4)) (littleWord L.spin) plain) := by
  obtain ⟨hpg, hwp, hcr⟩ := pagingCr_on cr
  -- movl $0x0, %ebp; movl $(bootstacktop), %esp
  set g₁ := Function.update gpr .ebp 0 with hg₁
  set g₂ := Function.update g₁ .esp L.bootstacktop with hg₂
  obtain ⟨m₁, s₁, hsim⟩ := high_step hL 8 gpr h hpg hcr hcode rfl
  obtain ⟨m₂, s₂, hsim⟩ := high_step hL 9 g₁ hsim hpg hcr hcode rfl
  -- call i386_init
  obtain ⟨m₃, s₃, hsim⟩ := high_step hL 10 g₂ hsim hpg hcr hcode rfl
  obtain ⟨m₄, hstore, hsim⟩ := @stores_sim _ (codeAt C L L.entry 11 g₂ (pagingCr L cr) m₃) _ (littleWord L.spin)
    (L.bootstacktop - 4) (RELOC (L.bootstacktop - 4)) hsim (fun _ => hcr) fun k hk => by
      obtain ⟨hplace, hout⟩ := stack_place hL (show k < 4 from hk)
      refine ⟨?_, hout⟩
      rw [Processor.place]
      exact (if_pos hpg).trans (by rw [codeAt, hwp]; exact hplace)
  have hspin : (codeAt C L L.entry 11 g₂ (pagingCr L cr) m₃).eip = L.spin := hL.assembled.spin.symm
  have hcall : (Insn.call (L.i386Init - L.spin)).exec (codeAt C L L.entry 11 g₂ (pagingCr L cr) m₃) =
      some ⟨L.i386Init, Function.update g₁ .esp (L.bootstacktop - 4), pagingCr L cr, m₄⟩ := by
    have hesp : Function.update g₂ .esp (L.bootstacktop - 4) = Function.update g₁ .esp (L.bootstacktop - 4) := by
      rw [hg₂]
      simp
    have heip : L.spin + (L.i386Init - L.spin) = L.i386Init := by
      rw [BitVec.add_comm, BitVec.sub_add_cancel]
    show (Processor.stores (L.bootstacktop - 4) (littleWord (codeAt C L L.entry 11 g₂ (pagingCr L cr) m₃).eip) _).map _ = _
    rw [hspin, hstore, Option.map_some, heip]
    exact congrArg (fun g => some (Processor.mk L.i386Init g (pagingCr L cr) m₄)) hesp
  exact ⟨m₄, (steps_succ s₁).trans <| (steps_succ s₂).trans <| steps_succ (s₃.trans hcall), hsim⟩

end Run

/-! ## The whole of it -/

/-- c' is the state at the start of i386_init: paging is on, %ebp ends a backtrace, the stack holds nothing but the address
of `spin`, and memory is as in c but for this word, the flag of a warm boot and marks in the tables -/
structure Started (L : Symbols) (c c' : Processor) : Prop where
  eip : c'.eip = L.i386Init
  ebp : c'.gpr .ebp = 0
  esp : c'.gpr .esp = L.bootstacktop - 4
  cr0 : c'.cr .cr0 = c.cr .cr0 ||| (CR0_PE ||| CR0_PG ||| CR0_WP)
  cr3 : c'.cr .cr3 = RELOC L.entryPgdir
  tables : Paging.Holds (entryTables L) c'.mem
  warm : c'.mem 0x472 = 0x34 ∧ c'.mem 0x473 = 0x12
  ret : ∀ k (h : k < 4), c'.mem (RELOC (L.bootstacktop - 4) + BitVec.ofNat 32 k) = (littleWord L.spin).get ⟨k, h⟩
  rest : ∀ x, OffTables L x → x ≠ 0x472 → x ≠ 0x473 → Apart x 1 (RELOC (L.bootstacktop - 4)) 4 → c'.mem x = c.mem x

section Whole

variable (hL : Linked L C)

include hL

/-- a low byte is off the tables -/
theorem low_off {x : Word} (hx : x.toNat < 0x100000) : OffTables L x := by
  have h1 := hL.pgdir.1
  have h2 := hL.pgtable.1
  constructor <;> refine Or.inl ?_
  · rw [RELOC_toNat hL.pgdir]
    omega
  · rw [RELOC_toNat hL.pgtable]
    omega

/-- **entry.S.** From the state that the boot loader leaves, with the kernel in memory and paging off: eleven instructions
later the kernel is at the start of i386_init, and none of its accesses has faulted. -/
theorem entry_starts {c : Processor} (hc : Loaded L C c.mem) (hpg : pg c.cr = false) (heip : c.eip = RELOC L.entry) :
    ∃ c', c.steps C 11 = some c' ∧ Started L c c' := by
  have hsim₀ : Sim (entryTables L) c.mem c.mem := ⟨hc.holds hL, fun _ _ => rfl⟩
  obtain ⟨m₁, hrun₁, hsim₁⟩ := paging_on hL c.gpr hsim₀ hpg hc.code
  obtain ⟨m₂, hrun₂, hsim₂⟩ := stack_set hL (Function.update c.gpr .eax L.relocated) c.cr hsim₁ (warm_boot hL hc.code)
  rw [← heip] at hrun₁
  refine ⟨_, steps_trans hrun₁ hrun₂, ?_⟩
  have hs1 := hL.stack.1
  have hs2 := hL.stack.2
  have hr := RELOC_toNat hL.stack
  have hlen : (RELOC (L.bootstacktop - 4)).toNat + (littleWord L.spin).length ≤ 2 ^ 32 := by
    show _ + 4 ≤ _
    omega
  -- what is stored at the top of the stack leaves the flag
  have hflag : ∀ x : Word, x.toNat < 0x100000 → m₂ x = put 0x472 (littleHalf 0x1234) c.mem x := by
    intro x hx
    rw [hsim₂.same x fun hm => off_span hL (low_off hL hx) (Paging.marked_subset _ hm)]
    exact put_outside hlen (Or.inl (by omega)) _
  constructor
  · rfl
  · rfl
  · rfl
  · rfl
  · rfl
  · exact hsim₂.holds
  · have h0 : (0x472 : Word) + BitVec.ofNat 32 0 = 0x472 := by decide
    have h1 : (0x472 : Word) + BitVec.ofNat 32 1 = 0x473 := by decide
    have hfit : (0x472 : Word).toNat + (littleHalf 0x1234).length ≤ 2 ^ 32 := by decide
    have hflag0 := Ram.stores_inside (littleHalf 0x1234) ⟨c.mem, []⟩ hfit (show 0 < 2 by decide)
    have hflag1 := Ram.stores_inside (littleHalf 0x1234) ⟨c.mem, []⟩ hfit (show 1 < 2 by decide)
    rw [h0] at hflag0
    rw [h1] at hflag1
    exact ⟨(hflag 0x472 (by decide)).trans hflag0, (hflag 0x473 (by decide)).trans hflag1⟩
  · intro k hk
    obtain ⟨-, hout⟩ := stack_place hL hk
    show m₂ _ = _
    rw [hsim₂.same _ fun hm => hout (Paging.marked_subset _ hm)]
    exact Ram.stores_inside (littleWord L.spin) _ hlen hk
  · intro x hx h0 h1 hstack
    have hflagged : x.toNat ≠ 0x472 ∧ x.toNat ≠ 0x473 :=
      ⟨fun he => h0 (BitVec.eq_of_toNat_eq he), fun he => h1 (BitVec.eq_of_toNat_eq he)⟩
    show m₂ x = _
    rw [hsim₂.same x fun hm => off_span hL hx (Paging.marked_subset _ hm), put_outside hlen, put_outside (by decide)]
    · show x.toNat < 0x472 ∨ 0x472 + 2 ≤ x.toNat
      omega
    · show x.toNat < _ ∨ _ + 4 ≤ x.toNat
      unfold Apart at hstack
      omega

/-- **Where i386_init returns to**, the code stays for ever, and changes nothing but marks in the tables. -/
theorem entry_spins {c : Processor} {plain : Mem} (h : Sim (entryTables L) c.mem plain) (hcode : C.At (RELOC L.entry) (entryCode L) plain)
    (hpg : pg c.cr = true) (hcr : c.cr .cr3 = RELOC L.entryPgdir) (heip : c.eip = L.spin) (n : ℕ) :
    ∃ mem', c.steps C n = some { c with mem := mem' } ∧ Sim (entryTables L) mem' plain := by
  obtain ⟨eip, gpr, cr, mem⟩ := c
  obtain rfl : eip = L.spin := heip
  have hat : ∀ m, (⟨L.spin, gpr, cr, m⟩ : Processor) = codeAt C L L.entry 11 gpr cr m := fun m =>
    congrArg (Processor.mk · gpr cr m) hL.assembled.spin
  have hback : L.entry + BitVec.ofNat 32 (before C L 12) + (L.spin - L.textEnd) = L.spin := by
    rw [show before C L 12 = C.size (entryCode L) from rfl, ← hL.assembled.textEnd, BitVec.add_comm, BitVec.sub_add_cancel]
  induction n generalizing mem with
  | zero => exact ⟨mem, rfl, h⟩
  | succ n ih =>
    obtain ⟨m₁, hstep, hsim⟩ := high_step hL 11 gpr h hpg hcr hcode rfl
    have hjump : (Insn.jmp (L.spin - L.textEnd)).exec (codeAt C L L.entry 12 gpr cr m₁) = some ⟨L.spin, gpr, cr, m₁⟩ :=
      congrArg (fun e => some (Processor.mk e gpr cr m₁)) hback
    rw [← hat] at hstep
    obtain ⟨mem', hrun, hsim'⟩ := ih m₁ hsim hpg hcr
    exact ⟨mem', (steps_succ (hstep.trans hjump)).trans hrun, hsim'⟩

end Whole

end Jos.Entry
