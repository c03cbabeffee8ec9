/-
The start of the kernel: the page tables of kern/entrypgdir.c and the code of kern/entry.S, with the macros of inc/mmu.h and
inc/memlayout.h that they use.

The addresses of the symbols are the linker's. The loader has put the kernel at its load addresses, which are the link
addresses less KERNBASE (kern/kernel.ld); the code starts there, with paging off.
-/
import Jos.Core.Processor
import Jos.Lib.Strings

namespace Jos.Entry

open I386 (Coding Insn)

/-! ## inc/mmu.h, inc/memlayout.h -/

def PGSIZE : ℕ := 4096
def PTXSHIFT : ℕ := 12
def PDXSHIFT : ℕ := 22

def PGNUM (la : Word) : Word := la >>> PTXSHIFT
def PDX (la : Word) : Word := (la >>> PDXSHIFT) &&& 0x3FF
def PTX (la : Word) : Word := (la >>> PTXSHIFT) &&& 0x3FF
def PGOFF (la : Word) : Word := la &&& 0xFFF
def PGADDR (d t o : Word) : Word := d <<< PDXSHIFT ||| t <<< PTXSHIFT ||| o
def PTE_ADDR (pte : Word) : Word := pte &&& ~~~0xFFF

def PTE_P : Word := 0x001
def PTE_W : Word := 0x002

def CR0_PE : Word := 0x00000001
def CR0_WP : Word := 0x00010000
def CR0_PG : Word := 0x80000000

/-- all physical memory is mapped at this address -/
def KERNBASE : Word := 0xF0000000

/-! ## The linker's symbols -/

structure Symbols where
  entry : Word
  relocated : Word
  spin : Word
  /-- the address after the code of entry.S -/
  textEnd : Word
  entryPgdir : Word
  entryPgtable : Word
  bootstacktop : Word
  i386Init : Word

/-- the load address of a symbol -/
def RELOC (x : Word) : Word := x - KERNBASE

variable (L : Symbols)

/-! ## kern/entrypgdir.c -/

/-- `entry_pgdir[i]` -/
def entryPgdir (i : ℕ) : Word :=
  if i = 0 then (L.entryPgtable - KERNBASE) + PTE_P
  else if i = (KERNBASE >>> PDXSHIFT).toNat then (L.entryPgtable - KERNBASE) + PTE_P + PTE_W
  else 0

/-- `entry_pgtable[i]`: page i -/
def entryPgtable (i : ℕ) : Word := BitVec.ofNat 32 (0x1000 * i) ||| PTE_P ||| PTE_W

/-- the tables, as entry.S gives them to the paging unit -/
def entryTables : Paging.Tables where
  cr3 := RELOC L.entryPgdir
  pde := entryPgdir L
  pte _ := entryPgtable

/-! ## kern/entry.S -/

def entryCode : List Insn :=
  [ .movwMem 0x1234 0x472,
    .movImm (RELOC L.entryPgdir) .eax,
    .movToCr .eax .cr3,
    .movFromCr .cr0 .eax,
    .orImm (CR0_PE ||| CR0_PG ||| CR0_WP) .eax,
    .movToCr .eax .cr0,
    .movImm L.relocated .eax,
    .jmpReg .eax,
    -- relocated:
    .movImm 0 .ebp,
    .movImm L.bootstacktop .esp,
    .call (L.i386Init - L.spin),
    -- spin:
    .jmp (L.spin - L.textEnd) ]

/-- the labels are where the assembler has put them -/
structure Assembled (C : Coding) : Prop where
  relocated : L.relocated = L.entry + BitVec.ofNat 32 (C.size ((entryCode L).take 8))
  spin : L.spin = L.entry + BitVec.ofNat 32 (C.size ((entryCode L).take 11))
  textEnd : L.textEnd = L.entry + BitVec.ofNat 32 (C.size (entryCode L))

/-- n bytes at the link address a have their load addresses in the first 4 MB, above the low memory -/
def InKernel (a : Word) (n : ℕ) : Prop := 0xF0100000 ≤ a.toNat ∧ a.toNat + n ≤ 0xF0400000

/-- no byte is both in the n bytes at a and in the m bytes at b -/
def Apart (a : Word) (n : ℕ) (b : Word) (m : ℕ) : Prop := a.toNat + n ≤ b.toNat ∨ b.toNat + m ≤ a.toNat

instance (a : Word) (n : ℕ) : Decidable (InKernel a n) := inferInstanceAs (Decidable (_ ∧ _))

instance (a : Word) (n : ℕ) (b : Word) (m : ℕ) : Decidable (Apart a n b m) := inferInstanceAs (Decidable (_ ∨ _))

/-- the kernel is linked as kern/kernel.ld and the alignments of the source say, and ends in the 4 MB that are mapped -/
structure Linked (C : Coding) : Prop where
  assembled : Assembled L C
  code : InKernel L.entry (C.size (entryCode L))
  pgdir : InKernel L.entryPgdir PGSIZE
  pgtable : InKernel L.entryPgtable PGSIZE
  stack : InKernel (L.bootstacktop - 4) 4
  pgdir_aligned : L.entryPgdir.toNat % PGSIZE = 0
  pgtable_aligned : L.entryPgtable.toNat % PGSIZE = 0
  code_pgdir : Apart L.entry (C.size (entryCode L)) L.entryPgdir PGSIZE
  code_pgtable : Apart L.entry (C.size (entryCode L)) L.entryPgtable PGSIZE
  stack_pgdir : Apart (L.bootstacktop - 4) 4 L.entryPgdir PGSIZE
  stack_pgtable : Apart (L.bootstacktop - 4) 4 L.entryPgtable PGSIZE

/-- memory holds the code and the tables, at their load addresses -/
structure Loaded (C : Coding) (mem : Paging.Mem) : Prop where
  code : C.At (RELOC L.entry) (entryCode L) mem
  pgdir : ∀ i < 1024, Paging.entry mem (RELOC L.entryPgdir + BitVec.ofNat 32 (4 * i)) = entryPgdir L i
  pgtable : ∀ i < 1024, Paging.entry mem (RELOC L.entryPgtable + BitVec.ofNat 32 (4 * i)) = entryPgtable i

end Jos.Entry
