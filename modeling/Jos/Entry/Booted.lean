/-
From the disk to the kernel's C code: boot/main.c, kern/entry.S, and the memset at the start of i386_init (kern/init.c).

The loader puts the bytes of the kernel's file at their load addresses, entry.S makes them visible at their link addresses,
and i386_init clears the bytes that are not in the file: this completes the loading of the ELF image.

- `KernelFile`: an image that has the code and the tables of entry.S where the linker has put them.
- **`kernel_memory`**: what loads and stores of the kernel do, once its tables are in place.
- **`kernel_boots`**: from any machine with such a disk to i386_init, which sees the bytes of the file at its link
  addresses.
- **`elf_loaded`**: after the memset it sees the segments as the ELF format means them, with zeros behind the bytes of
  the file.
-/
import Jos.Entry.Start
import Jos.Boot.Segments
import Jos.Lib.Builds
import Mathlib.Data.List.GetD

namespace Jos.Entry

open Boot (Disk Machine bootmain Bootable SectorsAgree Intact headers Elf)
open I386 (Coding Insn Processor pg wp littleWord translate_sim)
open Loop (Gives)
open Paging (Holds Op Sim storeOps)

/-- size of a kernel stack -/
def KSTKSIZE : ℕ := 8 * PGSIZE

/-- the file has the byte b for the load address a -/
def Places (image : ℕ → Byte) (a : Word) (b : Byte) : Prop :=
  ∃ s ∈ headers image, ∃ i < s.pFilesz.toNat, s.pPa + BitVec.ofNat 32 i = a ∧ image (s.pOffset.toNat + i) = b

/-- an image that the loader can load, with the code and the tables of the kernel in its segments. That no segment is
loaded over the loader itself, at 0x7C00 and below, is not asked: the loader's code and stack are outside the model. -/
structure KernelFile (L : Symbols) (C : Coding) (image : ℕ → Byte) : Prop where
  bootable : Bootable image
  agree : SectorsAgree image
  filesz : ∀ s ∈ headers image, s.pFilesz.toNat ≤ s.pMemsz.toNat
  entry : (Elf.read image).eEntry = RELOC L.entry
  code : ∀ k (h : k < ((entryCode L).flatMap C.encode).length),
    Places image (RELOC L.entry + BitVec.ofNat 32 k) ((entryCode L).flatMap C.encode)[k]
  pgdir : ∀ i < 1024, ∀ k (h : k < 4),
    Places image (RELOC L.entryPgdir + BitVec.ofNat 32 (4 * i) + BitVec.ofNat 32 k) ((littleWord (entryPgdir L i)).get ⟨k, h⟩)
  pgtable : ∀ i < 1024, ∀ k (h : k < 4),
    Places image (RELOC L.entryPgtable + BitVec.ofNat 32 (4 * i) + BitVec.ofNat 32 k) ((littleWord (entryPgtable i)).get ⟨k, h⟩)

/-- the kernel reads the byte b at the address la -/
def Sees (c : Processor) (la : Word) (b : Byte) : Prop := ∃ pa mem', c.translate false la = some (pa, mem') ∧ mem' pa = b

variable {L : Symbols} {C : Coding}

/-! ## What the loader leaves -/

theorem places_intact {image : ℕ → Byte} {mem : Word → Byte} (h : Intact image mem) {a : Word} {b : Byte}
    (hp : Places image a b) : mem a = b := by
  obtain ⟨s, hs, i, hi, rfl, rfl⟩ := hp
  exact h s hs i hi

theorem KernelFile.loaded {image : ℕ → Byte} (hk : KernelFile L C image) {mem : Word → Byte} (h : Intact image mem) :
    Loaded L C mem where
  code k hlt := places_intact h (hk.code k hlt)
  pgdir i hi := I386.le32_littleWord fun k hk4 => by
    rw [Nat.zero_add]
    exact places_intact h (hk.pgdir i hi k hk4)
  pgtable i hi := I386.le32_littleWord fun k hk4 => by
    rw [Nat.zero_add]
    exact places_intact h (hk.pgtable i hi k hk4)

variable {d : Disk}

/-- the segments of such a file are intact -/
theorem KernelFile.intact (hk : KernelFile L C d.image) (mem : Word → Byte) :
    Intact d.image (d.load (Boot.page :: headers d.image) mem) := by
  intro s hs i hi
  obtain ⟨l₁, l₂, h⟩ := List.append_of_mem hs
  have hm : i < s.pMemsz.toNat := lt_of_lt_of_le hi (hk.filesz s hs)
  exact (Boot.byte_intact_iff hk.bootable h hm mem).2 (hk.agree l₁ s l₂ h i hi hm)

/-! ## A kernel on a disk -/

/-- the byte of the code and the tables at the load address a -/
def kernelByte (L : Symbols) (C : Coding) (a : Word) : Byte :=
  let dir := a.toNat - (RELOC L.entryPgdir).toNat
  let table := a.toNat - (RELOC L.entryPgtable).toNat
  if (RELOC L.entryPgdir).toNat ≤ a.toNat ∧ dir < PGSIZE then (littleWord (entryPgdir L (dir / 4))).getD (dir % 4) 0
  else if (RELOC L.entryPgtable).toNat ≤ a.toNat ∧ table < PGSIZE then (littleWord (entryPgtable (table / 4))).getD (table % 4) 0
  else ((entryCode L).flatMap C.encode).getD (a.toNat - (RELOC L.entry).toNat) 0

section KernelByte

variable (hL : Linked L C)

include hL

theorem kernelByte_code {k : ℕ} (hk : k < ((entryCode L).flatMap C.encode).length) :
    kernelByte L C (RELOC L.entry + BitVec.ofNat 32 k) = ((entryCode L).flatMap C.encode)[k] := by
  have hr := RELOC_toNat hL.code
  have h1 := hL.code.1
  have h2 := hL.code.2
  have hk' : k < C.size (entryCode L) := hk
  have hat : (RELOC L.entry + BitVec.ofNat 32 k).toNat = (RELOC L.entry).toNat + k := Ram.toNat_off (by omega)
  have h3 := hL.code_pgdir
  have h4 := hL.code_pgtable
  have h5 := hL.pgdir.1
  have h6 := hL.pgtable.1
  unfold Apart at h3 h4
  simp only [kernelByte, hat]
  rw [if_neg, if_neg, Nat.add_sub_cancel_left, List.getD_eq_getElem _ _ hk]
  · rw [RELOC_toNat hL.pgtable]
    omega
  · rw [RELOC_toNat hL.pgdir]
    omega

theorem kernelByte_pgdir {i k : ℕ} (hi : i < 1024) (hk : k < 4) :
    kernelByte L C (RELOC L.entryPgdir + BitVec.ofNat 32 (4 * i) + BitVec.ofNat 32 k) =
      (littleWord (entryPgdir L i)).get ⟨k, hk⟩ := by
  have h2 := hL.pgdir.2
  have hr := RELOC_toNat hL.pgdir
  unfold PGSIZE at h2
  have hat : (RELOC L.entryPgdir + BitVec.ofNat 32 (4 * i) + BitVec.ofNat 32 k).toNat = (RELOC L.entryPgdir).toNat + (4 * i + k) := by
    rw [Ram.off_off, Ram.toNat_off (by omega)]
  simp only [kernelByte, hat]
  rw [if_pos ⟨by omega, by unfold PGSIZE; omega⟩, Nat.add_sub_cancel_left, show (4 * i + k) / 4 = i by omega,
    show (4 * i + k) % 4 = k by omega]
  exact List.getD_eq_getElem _ _ hk

theorem kernelByte_pgtable (hapart : Apart L.entryPgdir PGSIZE L.entryPgtable PGSIZE) {i k : ℕ} (hi : i < 1024) (hk : k < 4) :
    kernelByte L C (RELOC L.entryPgtable + BitVec.ofNat 32 (4 * i) + BitVec.ofNat 32 k) =
      (littleWord (entryPgtable i)).get ⟨k, hk⟩ := by
  have h2 := hL.pgtable.2
  have hr := RELOC_toNat hL.pgtable
  have hrd := RELOC_toNat hL.pgdir
  have hd1 := hL.pgdir.1
  have ht1 := hL.pgtable.1
  unfold Apart at hapart
  unfold PGSIZE at h2 hapart
  have hat : (RELOC L.entryPgtable + BitVec.ofNat 32 (4 * i) + BitVec.ofNat 32 k).toNat =
      (RELOC L.entryPgtable).toNat + (4 * i + k) := by
    rw [Ram.off_off, Ram.toNat_off (by omega)]
  simp only [kernelByte, hat]
  rw [if_neg (by unfold PGSIZE; omega), if_pos ⟨by omega, by unfold PGSIZE; omega⟩, Nat.add_sub_cancel_left,
    show (4 * i + k) / 4 = i by omega, show (4 * i + k) % 4 = k by omega]
  exact List.getD_eq_getElem _ _ hk

end KernelByte

/-- the addresses of a kernel -/
def bootSymbols : Symbols where
  entry := 0xf010000c
  relocated := 0xf010002f
  spin := 0xf010003e
  textEnd := 0xf0100040
  entryPgdir := 0xf0110000
  entryPgtable := 0xf0111000
  bootstacktop := 0xf0110000
  i386Init := 0xf010009d

theorem bootSymbols_linked : Linked bootSymbols I386.i386 where
  assembled := ⟨by decide, by decide, by decide⟩
  code := by decide
  pgdir := by decide
  pgtable := by decide
  stack := by decide
  pgdir_aligned := by decide
  pgtable_aligned := by decide
  code_pgdir := by decide
  code_pgtable := by decide
  stack_pgdir := by decide
  stack_pgtable := by decide

/-- an ELF header, and one program header: 0x12000 bytes at 0x1000 of the file for 0x100000, and 0x644 bytes more in
memory -/
def kernelHeader : List Byte :=
  [0x7F, 0x45, 0x4C, 0x46] ++ List.replicate 20 0 ++ [0x0C, 0, 0x10, 0] ++ [52, 0, 0, 0] ++ List.replicate 12 0 ++
    [1, 0] ++ List.replicate 6 0 ++
  [1, 0, 0, 0] ++ [0, 0x10, 0, 0] ++ [0, 0, 0x10, 0xF0] ++ [0, 0, 0x10, 0] ++ [0, 0x20, 1, 0] ++ [0x44, 0x26, 1, 0]

/-- a disk that is always ready, with the code and the tables in the one segment of its kernel -/
def kernelDisk : Disk where
  byte k :=
    if k < 0x1200 then kernelHeader.getD (k - 512) 0 else kernelByte bootSymbols I386.i386 (BitVec.ofNat 32 (k + 0xFEE00))
  status _ := 0x40

theorem kernelDisk_ready : kernelDisk.Ready := fun n => ⟨0, by show (0x40 : Byte) &&& 0xC0 = 0x40; decide⟩

theorem kernelDisk_headers : headers kernelDisk.image = [⟨0x1000, 0x100000, 0x12000, 0x12644⟩] := by decide

theorem kernelDisk_places {a : Word} (h1 : 0x100000 ≤ a.toNat) (h2 : a.toNat < 0x112000) :
    Places kernelDisk.image a (kernelByte bootSymbols I386.i386 a) := by
  refine ⟨⟨0x1000, 0x100000, 0x12000, 0x12644⟩, by rw [kernelDisk_headers]; exact List.mem_singleton_self _,
    a.toNat - 0x100000, ?_, ?_, ?_⟩
  · show _ < 0x12000
    omega
  · have hpa : (0x100000 : Word).toNat = 0x100000 := rfl
    have hat : ((0x100000 : Word) + BitVec.ofNat 32 (a.toNat - 0x100000)).toNat = 0x100000 + (a.toNat - 0x100000) :=
      Ram.toNat_off (by omega)
    apply BitVec.eq_of_toNat_eq
    rw [hat]
    omega
  · have hoff : (0x1000 : Word).toNat = 0x1000 := rfl
    have hbyte : ∀ k, 0x1200 ≤ k → kernelDisk.byte k = kernelByte bootSymbols I386.i386 (BitVec.ofNat 32 (k + 0xFEE00)) :=
      fun k hk => if_neg (by omega)
    have ha : BitVec.ofNat 32 (512 + (0x1000 + (a.toNat - 0x100000)) + 0xFEE00) = a := by
      apply BitVec.eq_of_toNat_eq
      rw [BitVec.toNat_ofNat]
      omega
    rw [Disk.image, hbyte _ (by rw [hoff]; omega), hoff, ha]

theorem kernelDisk_file : KernelFile bootSymbols I386.i386 kernelDisk.image where
  bootable :=
    { magic := by decide
      table := by decide
      increasing := by rw [kernelDisk_headers]; decide
      disjoint := by rw [kernelDisk_headers]; exact List.pairwise_singleton _ _
      congruent := by rw [kernelDisk_headers]; decide
      fits := by rw [kernelDisk_headers]; decide
      clear := by rw [kernelDisk_headers]; decide }
  agree := by
    apply Boot.sectorsAgree_of_layout
    rw [kernelDisk_headers]
    exact List.pairwise_singleton _ _
  filesz := by rw [kernelDisk_headers]; decide
  entry := by decide
  code k hk := by
    rw [← kernelByte_code bootSymbols_linked hk]
    have hsize : k < 52 := hk
    have hat : (RELOC bootSymbols.entry + BitVec.ofNat 32 k).toNat = 0x10000c + k :=
      Ram.toNat_off (by show 0x10000c + k < _; omega)
    exact kernelDisk_places (by omega) (by omega)
  pgdir i hi k hk := by
    rw [← kernelByte_pgdir bootSymbols_linked hi hk]
    have hat : (RELOC bootSymbols.entryPgdir + BitVec.ofNat 32 (4 * i) + BitVec.ofNat 32 k).toNat = 0x110000 + (4 * i + k) := by
      rw [Ram.off_off]
      exact Ram.toNat_off (by show 0x110000 + _ < _; omega)
    exact kernelDisk_places (by omega) (by omega)
  pgtable i hi k hk := by
    rw [← kernelByte_pgtable bootSymbols_linked (by decide) hi hk]
    have hat : (RELOC bootSymbols.entryPgtable + BitVec.ofNat 32 (4 * i) + BitVec.ofNat 32 k).toNat = 0x111000 + (4 * i + k) := by
      rw [Ram.off_off]
      exact Ram.toNat_off (by show 0x111000 + _ < _; omega)
    exact kernelDisk_places (by omega) (by omega)

/-- a processor in protected mode, before paging -/
def bootCpu : Processor := ⟨0, fun _ => 0, fun _ => CR0_PE, fun _ => 0⟩

/-! ## What the kernel sees -/

/-- paging is on, with the tables in place -/
structure Paged (L : Symbols) (c : Processor) : Prop where
  pg : pg c.cr = true
  wp : wp c.cr = true
  cr3 : c.cr .cr3 = RELOC L.entryPgdir
  tables : Holds (entryTables L) c.mem

theorem Started.paged {c c' : Processor} (h : Started L c c') : Paged L c' where
  pg := by
    rw [I386.pg, h.cr0]
    exact (pagingCr0_bits (c.cr .cr0)).1
  wp := by
    rw [I386.wp, h.cr0]
    exact (pagingCr0_bits (c.cr .cr0)).2
  cr3 := h.cr3
  tables := h.tables

section Seen

variable (hL : Linked L C)

include hL

/-- at a link address, off the tables, the kernel sees the byte at the load address -/
theorem Paged.sees {c : Processor} (h : Paged L c) {la : Word} (hk : InKernel la 1) (ho : OffTables L (RELOC la)) :
    Sees c la (c.mem (RELOC la)) := by
  have h1 := hk.1
  have h2 := hk.2
  have hsim : Sim (entryTables L) c.mem c.mem := ⟨h.tables, fun _ _ => rfl⟩
  have hplace : c.place (entryTables L) false la = some (RELOC la) := by
    rw [Processor.place, if_pos h.pg, entryTables_translate hL.pgtable hL.pgtable_aligned, if_neg (by omega),
      if_pos (by omega)]
  obtain ⟨mem', htr, hsim'⟩ := translate_sim hsim (fun _ => h.cr3) hplace
  exact ⟨RELOC la, mem', htr, hsim'.same _ fun hm => off_span hL ho (Paging.marked_subset _ hm)⟩

omit hL in
/-- above the low memory, entry.S changes only the top of the stack and the tables -/
theorem Started.rest_high {c c' : Processor} (h : Started L c c') {la : Word} (hk : InKernel la 1) (ho : OffTables L (RELOC la))
    (hs : Apart (RELOC la) 1 (RELOC (L.bootstacktop - 4)) 4) : c'.mem (RELOC la) = c.mem (RELOC la) := by
  have h1 := hk.1
  have hr := RELOC_toNat hk
  have hlow : ∀ x : Word, x.toNat < 0x100000 → RELOC la ≠ x := by
    rintro x hx he
    rw [he] at hr
    omega
  exact h.rest (RELOC la) ho (hlow 0x472 (by decide)) (hlow 0x473 (by decide)) hs

/-- the loader and entry.S, one after the other -/
theorem boot_starts (hd : d.Ready) (hk : KernelFile L C d.image) (m : Machine) (cpu : Processor) (hpg : pg cpu.cr = false) :
    ∃ m' c', Gives (fun n => bootmain d n m) (.entry (RELOC L.entry) m') ∧
      Processor.steps C 11 { cpu with eip := RELOC L.entry, mem := m'.ram.byte } = some c' ∧
      Started L { cpu with eip := RELOC L.entry, mem := m'.ram.byte } c' ∧ Intact d.image m'.ram.byte := by
  obtain ⟨m', hboot, hbyte⟩ := Boot.bootmain_loads hd hk.bootable m
  have hint : Intact d.image m'.ram.byte := by
    rw [hbyte]
    exact hk.intact m.ram.byte
  rw [hk.entry] at hboot
  obtain ⟨c', hrun, hstart⟩ := entry_starts hL (c := { cpu with eip := RELOC L.entry, mem := m'.ram.byte }) (hk.loaded hint)
    hpg rfl
  exact ⟨m', c', hboot, hrun, hstart, hint⟩

/-- operations that are mapped, and off the tables -/
theorem Paged.run {c : Processor} (h : Paged L c) {l : List Op} (hl : ∀ o ∈ l, Mapped o ∧ OffTables L (placeOf o)) :
    ∃ mem', Paging.run (c.cr .cr3) (I386.wp c.cr) l c.mem = some ((Paging.runPlain placeOf l c.mem).1, mem') ∧
      Paged L { c with mem := mem' } ∧ ∀ x, OffTables L x → mem' x = (Paging.runPlain placeOf l c.mem).2 x := by
  have hsim : Sim (entryTables L) c.mem c.mem := ⟨h.tables, fun _ _ => rfl⟩
  have hplace : ∀ o ∈ l, (entryTables L).translate true o.write o.addr = some (placeOf o) ∧
      placeOf o ∉ (entryTables L).span := by
    intro o ho
    rw [translate_mapped hL, if_pos (hl o ho).1]
    exact ⟨rfl, off_span hL (hl o ho).2⟩
  obtain ⟨mem', hrun, hsim'⟩ := Paging.run_flat hsim l hplace
  rw [h.cr3, h.wp]
  exact ⟨mem', hrun, ⟨h.pg, h.wp, h.cr3, hsim'.holds⟩, fun x hx =>
    hsim'.same x fun hm => off_span hL hx (Paging.marked_subset _ hm)⟩

/-- **Flat memory.** A run of loads and stores off the tables faults exactly if one of them is neither in the kernel's 4
MB nor a load of a low address. Otherwise it moves the bytes that it would move on plain memory, with KERNBASE taken off
its high addresses, and memory is then the same, but for the marks in the tables, which are still in place. -/
theorem kernel_memory {c : Processor} (h : Paged L c) (l : List Op) (hl : ∀ o ∈ l, OffTables L (placeOf o)) :
    ((∃ o ∈ l, ¬ Mapped o) → Paging.run (c.cr .cr3) (wp c.cr) l c.mem = none) ∧
      ((∀ o ∈ l, Mapped o) → ∃ mem', Paging.run (c.cr .cr3) (wp c.cr) l c.mem =
          some ((Paging.runPlain placeOf l c.mem).1, mem') ∧ Paged L { c with mem := mem' } ∧
        ∀ x, OffTables L x → mem' x = (Paging.runPlain placeOf l c.mem).2 x) := by
  have hsim : Sim (entryTables L) c.mem c.mem := ⟨h.tables, fun _ _ => rfl⟩
  rw [h.cr3, h.wp]
  constructor
  · rintro ⟨o, ho, hm⟩
    apply Paging.run_fault hsim
    · intro o' ho' pa hpa
      rw [translate_mapped hL] at hpa
      split_ifs at hpa
      cases hpa
      exact off_span hL (hl o' ho')
    · exact ⟨o, ho, by rw [translate_mapped hL, if_neg hm]⟩
  · intro hm
    have hrun := h.run hL fun o ho => ⟨hm o ho, hl o ho⟩
    rwa [h.cr3, h.wp] at hrun

omit hL in
/-- a byte that is stored at a kernel address, and loaded at its low address, where it cannot be stored -/
theorem kernel_memory_alias : ∃ c', Paged bootSymbols c' ∧
    (∃ mem', Paging.run (c'.cr .cr3) (wp c'.cr) [.st 0xf0120000 7, .ld 0x120000] c'.mem = some ([7, 7], mem')) ∧
    Paging.run (c'.cr .cr3) (wp c'.cr) [.ld 0x120000, .st 0x120000 7] c'.mem = none := by
  obtain ⟨m', c', -, -, hstart, -⟩ := boot_starts bootSymbols_linked kernelDisk_ready kernelDisk_file Boot.emptyMachine bootCpu
    (by decide)
  obtain ⟨-, hflat⟩ := kernel_memory bootSymbols_linked hstart.paged [.st 0xf0120000 7, .ld 0x120000] (by decide)
  obtain ⟨mem', hrun, -⟩ := hflat (by decide)
  refine ⟨c', hstart.paged, ⟨mem', hrun⟩, ?_⟩
  exact (kernel_memory bootSymbols_linked hstart.paged [.ld 0x120000, .st 0x120000 7] (by decide)).1 (by decide)

/-- **From the disk to i386_init.** On any machine with a disk that gets ready, and a kernel on it: the loader ends in a
jump to `entry`, and eleven instructions later, without a fault, i386_init starts on its own stack, and sees every byte
of the file at its link address, but for those of the tables and the top of the stack. -/
theorem kernel_boots (hd : d.Ready) (hk : KernelFile L C d.image) (m : Machine) (cpu : Processor) (hpg : pg cpu.cr = false) :
    ∃ m' c', Gives (fun n => bootmain d n m) (.entry (RELOC L.entry) m') ∧
      Processor.steps C 11 { cpu with eip := RELOC L.entry, mem := m'.ram.byte } = some c' ∧
      Started L { cpu with eip := RELOC L.entry, mem := m'.ram.byte } c' ∧
      ∀ la b, Places d.image (RELOC la) b → InKernel la 1 → OffTables L (RELOC la) →
        Apart (RELOC la) 1 (RELOC (L.bootstacktop - 4)) 4 → Sees c' la b := by
  obtain ⟨m', c', hboot, hrun, hstart, hint⟩ := boot_starts hL hd hk m cpu hpg
  refine ⟨m', c', hboot, hrun, hstart, fun la b hp hla ho hs => ?_⟩
  have hsees := hstart.paged.sees hL hla ho
  rw [hstart.rest_high hla ho hs] at hsees
  rw [← places_intact hint hp]
  exact hsees

omit hL in
/-- the kernel of the disk above, and the first byte of its code -/
theorem kernel_boots_disk : ∃ m' c', Gives (fun n => bootmain kernelDisk n Boot.emptyMachine) (.entry 0x10000c m') ∧
    Processor.steps I386.i386 11 { bootCpu with eip := 0x10000c, mem := m'.ram.byte } = some c' ∧ c'.eip = 0xf010009d ∧
    c'.gpr .esp = 0xf010fffc ∧ Sees c' 0xf010000c 0x66 := by
  obtain ⟨m', c', hboot, hrun, hstart, hsees⟩ := kernel_boots bootSymbols_linked kernelDisk_ready kernelDisk_file
    Boot.emptyMachine bootCpu (by decide)
  refine ⟨m', c', hboot, hrun, hstart.eip, hstart.esp, hsees _ _ ?_ (by decide) (by decide) (by decide)⟩
  have hfirst : kernelByte bootSymbols I386.i386 0x10000c = 0x66 := by decide
  exact hfirst ▸ kernelDisk_places (by decide) (by decide)

/-- the top of the stack is in the stack -/
theorem off_top {x : Word} (h : Apart x 1 (RELOC (L.bootstacktop - BitVec.ofNat 32 KSTKSIZE)) KSTKSIZE) :
    Apart x 1 (RELOC (L.bootstacktop - 4)) 4 := by
  have h1 := hL.stack.1
  have h2 := hL.stack.2
  have hr := RELOC_toNat hL.stack
  have hb : KERNBASE.toNat = 0xF0000000 := rfl
  have h4 : (4 : Word).toNat = 4 := rfl
  have hsize : (BitVec.ofNat 32 KSTKSIZE).toNat = 0x8000 := by decide
  have hlt := L.bootstacktop.isLt
  rw [BitVec.toNat_sub, h4] at h1 h2
  unfold Apart at h ⊢
  rw [RELOC, BitVec.toNat_sub, hb, BitVec.toNat_sub, hsize] at h
  rw [hr, BitVec.toNat_sub, h4]
  have : KSTKSIZE = 0x8000 := rfl
  omega

/-! ## The memset of i386_init -/

/-- from edata to end lie the bytes that the segments have in memory and not in the file, and none of those of the file,
of the tables or of the stack (kern/kernel.ld) -/
structure Bss (L : Symbols) (image : ℕ → Byte) (edata «end» : Word) : Prop where
  le : edata.toNat ≤ «end».toNat
  kernel : InKernel edata («end» - edata).toNat
  pgdir : Apart edata («end» - edata).toNat L.entryPgdir PGSIZE
  pgtable : Apart edata («end» - edata).toNat L.entryPgtable PGSIZE
  stack : Apart edata («end» - edata).toNat (L.bootstacktop - BitVec.ofNat 32 KSTKSIZE) KSTKSIZE
  zeros : ∀ s ∈ headers image, ∀ i, s.pFilesz.toNat ≤ i → i < s.pMemsz.toNat →
    edata.toNat ≤ 0xF0000000 + s.pPa.toNat + i ∧ 0xF0000000 + s.pPa.toNat + i < «end».toNat
  file : ∀ s ∈ headers image, ∀ i < s.pFilesz.toNat,
    0xF0000000 + s.pPa.toNat + i < edata.toNat ∨ «end».toNat ≤ 0xF0000000 + s.pPa.toNat + i

omit hL in
/-- the assembly of `memset(v, 0, n)` stores n zeros, in order -/
theorem memset_ops (v n : Word) (cpu : Cpu) (h : v.toNat + n.toNat ≤ 2 ^ 32) :
    (memsetAsm v 0 n cpu).2.ram.byte =
      (Paging.runPlain Paging.Op.addr (storeOps v (List.replicate n.toNat 0)) cpu.ram.byte).2 := by
  have h0 : ∀ x : Word, x - 0 = x := by simp
  have hplain := Paging.runPlain_storeOps 0 v (List.replicate n.toNat 0) cpu.ram
  simp only [h0] at hplain
  rw [hplain]
  exact (memsetAsm_filled cpu 0 h).unique (filled_stores cpu.ram h 0)

/-- c has the memory of c', but for its stack and the tables -/
def SameButStack (L : Symbols) (c c' : Processor) : Prop :=
  ∀ x, OffTables L x → Apart x 1 (RELOC (L.bootstacktop - BitVec.ofNat 32 KSTKSIZE)) KSTKSIZE → c.mem x = c'.mem x

variable {edata «end» : Word}

/-- the stores of the memset, through the paging unit -/
theorem Paged.memset {image : ℕ → Byte} {c : Processor} (h : Paged L c) (hb : Bss L image edata «end») :
    ∃ r mem', Paging.run (RELOC L.entryPgdir) true (storeOps edata (List.replicate («end» - edata).toNat 0)) c.mem =
        some (r, mem') ∧ Paged L { c with mem := mem' } ∧
      ∀ x, OffTables L x → mem' x = if (RELOC edata).toNat ≤ x.toNat ∧ x.toNat < (RELOC edata).toNat + («end» - edata).toNat
        then 0 else c.mem x := by
  obtain ⟨hk1, hk2⟩ := hb.kernel
  have hat : ∀ i < («end» - edata).toNat, (edata + BitVec.ofNat 32 i).toNat = edata.toNat + i :=
    fun i hi => Ram.toNat_off (by omega)
  have hops : ∀ o ∈ storeOps edata (List.replicate («end» - edata).toNat 0),
      Mapped o ∧ placeOf o = o.addr - KERNBASE ∧ OffTables L (placeOf o) := by
    intro o ho
    obtain ⟨i, hi, haddr, -⟩ := Paging.mem_storeOps ho
    rw [List.length_replicate] at hi
    have hla := hat i hi
    rw [← haddr] at hla
    have hplace : placeOf o = RELOC o.addr := if_neg (by omega)
    refine ⟨Or.inl ⟨by omega, by omega⟩, hplace, ?_⟩
    have hpa : (placeOf o).toNat = o.addr.toNat - 0xF0000000 := by
      rw [hplace]
      exact RELOC_toNat (n := 1) ⟨by omega, by omega⟩
    have h1 := hb.pgdir
    have h2 := hb.pgtable
    have h3 := hL.pgdir.1
    have h4 := hL.pgtable.1
    unfold Apart at h1 h2
    constructor <;> unfold Apart <;> rw [hpa]
    · rw [RELOC_toNat hL.pgdir]
      omega
    · rw [RELOC_toNat hL.pgtable]
      omega
  obtain ⟨mem', hrun, hp, hsame⟩ := h.run hL fun o ho => ⟨(hops o ho).1, (hops o ho).2.2⟩
  rw [h.cr3, h.wp] at hrun
  refine ⟨_, mem', hrun, hp, fun x hx => ?_⟩
  have hr := RELOC_toNat hb.kernel
  have hplain := Paging.runPlain_storeOps KERNBASE edata (List.replicate («end» - edata).toNat 0) ⟨c.mem, []⟩
  rw [hsame x hx, Paging.runPlain_congr fun o ho => (hops o ho).2.1, hplain, ← RELOC,
    Ram.stores_byte _ _ (by rw [List.length_replicate, hr]; omega), List.getElem?_replicate]
  split_ifs <;> first | rfl | omega

/-- **The ELF image is loaded.** When the kernel has booted, and used nothing but its stack, the memset of i386_init goes
through without a fault, and then every segment is at its link address: the bytes of the file, and zeros up to its size in
memory. -/
theorem elf_loaded (hd : d.Ready) (hk : KernelFile L C d.image) (hb : Bss L d.image edata «end») (m : Machine)
    (cpu : Processor) (hpg : pg cpu.cr = false) :
    ∃ m' c', Gives (fun n => bootmain d n m) (.entry (RELOC L.entry) m') ∧
      Processor.steps C 11 { cpu with eip := RELOC L.entry, mem := m'.ram.byte } = some c' ∧
      Started L { cpu with eip := RELOC L.entry, mem := m'.ram.byte } c' ∧
      ∀ c, Paged L c → SameButStack L c c' →
        ∃ r mem', Paging.run (RELOC L.entryPgdir) true (storeOps edata (List.replicate («end» - edata).toNat 0)) c.mem =
            some (r, mem') ∧
          ∀ s ∈ headers d.image, ∀ i < s.pMemsz.toNat, ∀ la, RELOC la = s.pPa + BitVec.ofNat 32 i → InKernel la 1 →
            OffTables L (RELOC la) → Apart (RELOC la) 1 (RELOC (L.bootstacktop - BitVec.ofNat 32 KSTKSIZE)) KSTKSIZE →
            Sees { c with mem := mem' } la (if i < s.pFilesz.toNat then d.image (s.pOffset.toNat + i) else 0) := by
  obtain ⟨m', c', hboot, hrun, hstart, hint⟩ := boot_starts hL hd hk m cpu hpg
  refine ⟨m', c', hboot, hrun, hstart, fun c hp hc => ?_⟩
  obtain ⟨r, mem', hmemset, hp', hmem'⟩ := hp.memset hL hb
  refine ⟨r, mem', hmemset, fun s hs i hi la hla hk1 ho hstack => ?_⟩
  have h1 := hk1.1
  have hr := RELOC_toNat hk1
  have hrd := RELOC_toNat hb.kernel
  have hn : («end» - edata).toNat = «end».toNat - edata.toNat := by
    have := hb.le
    have := «end».isLt
    rw [BitVec.toNat_sub]
    omega
  have hd1 := hb.kernel.1
  have hfits := hk.bootable.fits s hs
  have hat : (RELOC la).toNat = s.pPa.toNat + i := by
    rw [hla]
    exact Ram.toNat_off (by omega)
  have hbyte : mem' (RELOC la) = if i < s.pFilesz.toNat then d.image (s.pOffset.toNat + i) else 0 := by
    rw [hmem' _ ho, hrd, hn]
    by_cases hf : i < s.pFilesz.toNat
    · have hout := hb.file s hs i hf
      have hle := hb.le
      rw [if_pos hf, if_neg (by omega), hc _ ho hstack, hstart.rest_high hk1 ho (off_top hL hstack), hla]
      exact hint s hs i hf
    · have hin := hb.zeros s hs i (by omega) hi
      rw [if_neg hf, if_pos (by omega)]
  rw [← hbyte]
  exact hp'.sees hL hk1 ho

omit hL in
theorem kernelDisk_bss : Bss bootSymbols kernelDisk.image 0xf0112000 0xf0112644 where
  le := by decide
  kernel := by decide
  pgdir := by decide
  pgtable := by decide
  stack := by decide
  zeros := by
    rw [kernelDisk_headers]
    rintro s hs i hf hm
    obtain rfl := List.mem_singleton.1 hs
    have hf : 0x12000 ≤ i := hf
    have hm : i < 0x12644 := hm
    show 0xf0112000 ≤ 0xF0000000 + 0x100000 + i ∧ 0xF0000000 + 0x100000 + i < 0xf0112644
    omega
  file := by
    rw [kernelDisk_headers]
    rintro s hs i hf
    obtain rfl := List.mem_singleton.1 hs
    have hf : i < 0x12000 := hf
    refine Or.inl ?_
    show 0xF0000000 + 0x100000 + i < 0xf0112000
    omega

omit hL in
/-- the first byte that is cleared -/
theorem elf_loaded_disk : ∃ m' c' r mem', Gives (fun n => bootmain kernelDisk n Boot.emptyMachine) (.entry 0x10000c m') ∧
    Processor.steps I386.i386 11 { bootCpu with eip := 0x10000c, mem := m'.ram.byte } = some c' ∧
    Paging.run 0x110000 true (storeOps 0xf0112000 (List.replicate 0x644 0)) c'.mem = some (r, mem') ∧
    Sees { c' with mem := mem' } 0xf0112000 0 := by
  obtain ⟨m', c', hboot, hrun, hstart, hclear⟩ := elf_loaded bootSymbols_linked kernelDisk_ready kernelDisk_file kernelDisk_bss
    Boot.emptyMachine bootCpu (by decide)
  obtain ⟨r, mem', hmemset, hsees⟩ := hclear c' hstart.paged fun _ _ _ => rfl
  refine ⟨m', c', r, mem', hboot, hrun, hmemset, ?_⟩
  exact hsees ⟨0x1000, 0x100000, 0x12000, 0x12644⟩ (by rw [kernelDisk_headers]; exact List.mem_singleton_self _) 0x12000
    (by decide) 0xf0112000 (by decide) (by decide) (by decide) (by decide)

end Seen

end Jos.Entry
