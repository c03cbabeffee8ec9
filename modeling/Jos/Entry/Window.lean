/-
What the page tables of kern/entrypgdir.c map.

- **`address_parts`**: the macros of inc/mmu.h take an address apart as the paging unit does, and put it together again.
- `entryTables_translate`: the tables map KERNBASE to KERNBASE + 4 MB to the first 4 MB of memory, and these to themselves
  for reading only; all other accesses fault.
- `translate_mapped`, `off_span`: which loads and stores the kernel may use, and where they go.
-/
import Jos.Entry.Model

namespace Jos.Entry

open Paging (Op Sim dirIndex tableIndex offset entry frame frame_toNat slot present writable)

/-! ## Parts of an address -/

/-- `x & (2^k - 1)`, for the two masks of the macros -/
theorem mask10_toNat (x : Word) : (x &&& 0x3FF).toNat = x.toNat % 2 ^ 10 := by
  rw [BitVec.toNat_and]
  exact Nat.and_two_pow_sub_one_eq_mod x.toNat 10

theorem mask12_toNat (x : Word) : (x &&& 0xFFF).toNat = x.toNat % 2 ^ 12 := by
  rw [BitVec.toNat_and]
  exact Nat.and_two_pow_sub_one_eq_mod x.toNat 12

theorem PDX_toNat (la : Word) : (PDX la).toNat = dirIndex la := by
  have := la.isLt
  rw [PDX, mask10_toNat, BitVec.toNat_ushiftRight, Nat.shiftRight_eq_div_pow, PDXSHIFT, dirIndex]
  exact Nat.mod_eq_of_lt (by omega)

theorem PTX_toNat (la : Word) : (PTX la).toNat = tableIndex la := by
  rw [PTX, mask10_toNat, BitVec.toNat_ushiftRight, Nat.shiftRight_eq_div_pow, PTXSHIFT, tableIndex]

theorem PGOFF_toNat (la : Word) : (PGOFF la).toNat = offset la := mask12_toNat la

/-- parts that are in range do not overlap -/
theorem PGADDR_toNat {d t o : Word} (hd : d.toNat < 1024) (ht : t.toNat < 1024) (ho : o.toNat < 4096) :
    (PGADDR d t o).toNat = 2 ^ 22 * d.toNat + 2 ^ 12 * t.toNat + o.toNat := by
  have h1 : (d <<< PDXSHIFT).toNat = d.toNat <<< 22 := by
    rw [BitVec.toNat_shiftLeft, PDXSHIFT, Nat.shiftLeft_eq, Nat.mod_eq_of_lt (by omega)]
  have h2 : (t <<< PTXSHIFT).toNat = t.toNat <<< 12 := by
    rw [BitVec.toNat_shiftLeft, PTXSHIFT, Nat.shiftLeft_eq, Nat.mod_eq_of_lt (by omega)]
  have hlow : t.toNat <<< 12 ||| o.toNat = t.toNat <<< 12 + o.toNat := (Nat.shiftLeft_add_eq_or_of_lt ho t.toNat).symm
  have hlow_lt : t.toNat <<< 12 + o.toNat < 2 ^ 22 := by
    rw [Nat.shiftLeft_eq]
    omega
  rw [PGADDR, BitVec.toNat_or, BitVec.toNat_or, h1, h2, Nat.or_assoc, hlow,
    ← Nat.shiftLeft_add_eq_or_of_lt hlow_lt, Nat.shiftLeft_eq, Nat.shiftLeft_eq]
  omega

/-- **The parts of an address.** The macros give the indices and the offset that the paging unit uses, PGADDR is their
inverse, and the page number and the address of a page leave out nothing but the offset. -/
theorem address_parts :
    (∀ la, (PDX la).toNat = dirIndex la ∧ (PTX la).toNat = tableIndex la ∧ (PGOFF la).toNat = offset la) ∧
      (∀ la, PGADDR (PDX la) (PTX la) (PGOFF la) = la) ∧
      (∀ d t o : Word, d.toNat < 1024 → t.toNat < 1024 → o.toNat < 4096 →
        PDX (PGADDR d t o) = d ∧ PTX (PGADDR d t o) = t ∧ PGOFF (PGADDR d t o) = o) ∧
      ∀ la, PGNUM la = PDX la <<< 10 ||| PTX la ∧ PTE_ADDR la = PGADDR (PDX la) (PTX la) 0 := by
  have hparts : ∀ la : Word, la.toNat = 2 ^ 22 * dirIndex la + 2 ^ 12 * tableIndex la + offset la := by
    intro la
    unfold dirIndex tableIndex offset
    omega
  have hrange : ∀ la : Word, (PDX la).toNat < 1024 ∧ (PTX la).toNat < 1024 ∧ (PGOFF la).toNat < 4096 := by
    intro la
    rw [PDX_toNat, PTX_toNat, PGOFF_toNat]
    exact ⟨Paging.dirIndex_lt la, Paging.tableIndex_lt la, Nat.mod_lt _ (by decide)⟩
  refine ⟨fun la => ⟨PDX_toNat la, PTX_toNat la, PGOFF_toNat la⟩, fun la => ?_, fun d t o hd ht ho => ?_, fun la => ⟨?_, ?_⟩⟩
  · obtain ⟨hd, ht, ho⟩ := hrange la
    apply BitVec.eq_of_toNat_eq
    rw [PGADDR_toNat hd ht ho, PDX_toNat, PTX_toNat, PGOFF_toNat, ← hparts]
  · have h := PGADDR_toNat hd ht ho
    refine ⟨?_, ?_, ?_⟩ <;> apply BitVec.eq_of_toNat_eq
    · rw [PDX_toNat, dirIndex, h]
      omega
    · rw [PTX_toNat, tableIndex, h]
      omega
    · rw [PGOFF_toNat, offset, h]
      omega
  · obtain ⟨hd, ht, -⟩ := hrange la
    have hshift : (PDX la <<< 10).toNat = (PDX la).toNat <<< 10 := by
      rw [BitVec.toNat_shiftLeft, Nat.shiftLeft_eq, Nat.mod_eq_of_lt (by omega)]
    apply BitVec.eq_of_toNat_eq
    rw [BitVec.toNat_or, hshift, ← Nat.shiftLeft_add_eq_or_of_lt ht, Nat.shiftLeft_eq, PDX_toNat, PTX_toNat, PGNUM,
      BitVec.toNat_ushiftRight, Nat.shiftRight_eq_div_pow, PTXSHIFT, dirIndex, tableIndex]
    omega
  · obtain ⟨hd, ht, -⟩ := hrange la
    apply BitVec.eq_of_toNat_eq
    rw [PGADDR_toNat hd ht (by decide), PDX_toNat, PTX_toNat, PTE_ADDR]
    exact (frame_toNat la).trans (by unfold dirIndex tableIndex; simp; omega)

/-! ## The entries -/

section Entries

variable {L : Symbols}

/-- a symbol of the kernel, and its load address -/
theorem RELOC_toNat {x : Word} {n : ℕ} (h : InKernel x n) : (RELOC x).toNat = x.toNat - 0xF0000000 := by
  have h1 := h.1
  have h2 : KERNBASE.toNat = 0xF0000000 := rfl
  have := x.isLt
  rw [RELOC, BitVec.toNat_sub, h2]
  omega

theorem entryPgtable_toNat {i : ℕ} (hi : i < 1024) : (entryPgtable i).toNat = 4096 * i + 3 := by
  have hpage : (BitVec.ofNat 32 (0x1000 * i)).toNat = i <<< 12 := by
    rw [BitVec.toNat_ofNat, Nat.shiftLeft_eq, Nat.mod_eq_of_lt (by omega), Nat.mul_comm]
  rw [entryPgtable, BitVec.or_assoc, BitVec.toNat_or, hpage]
  refine (Nat.shiftLeft_add_eq_or_of_lt (show 3 < 2 ^ 12 by decide) i).symm.trans ?_
  rw [Nat.shiftLeft_eq]
  omega

theorem bit_toNat (x : Word) (i : ℕ) : x.getLsbD i = decide (x.toNat / 2 ^ i % 2 = 1) := Nat.testBit_eq_decide_div_mod_eq

theorem entryPgtable_flags {i : ℕ} (hi : i < 1024) :
    present (entryPgtable i) = true ∧ writable (entryPgtable i) = true ∧
      frame (entryPgtable i) = BitVec.ofNat 32 (4096 * i) := by
  have h := entryPgtable_toNat hi
  refine ⟨?_, ?_, ?_⟩
  · rw [present, bit_toNat, h]
    exact decide_eq_true (by omega)
  · rw [writable, bit_toNat, h]
    exact decide_eq_true (by omega)
  · apply BitVec.eq_of_toNat_eq
    rw [frame_toNat, h, BitVec.toNat_ofNat]
    omega

variable (hk : InKernel L.entryPgtable PGSIZE) (ha : L.entryPgtable.toNat % PGSIZE = 0)

include hk ha

/-- the entry for the low addresses: present, and not writable -/
theorem entryPgdir_low : present (entryPgdir L 0) = true ∧ writable (entryPgdir L 0) = false ∧
    frame (entryPgdir L 0) = RELOC L.entryPgtable := by
  have hr := RELOC_toNat hk
  have h2 := hk.2
  unfold PGSIZE at ha h2
  have h : (entryPgdir L 0).toNat = (RELOC L.entryPgtable).toNat + 1 := by
    rw [entryPgdir, if_pos rfl, ← RELOC, BitVec.toNat_add, hr]
    show (_ + 1) % 2 ^ 32 = _
    omega
  refine ⟨?_, ?_, ?_⟩
  · rw [present, bit_toNat, h, hr]
    exact decide_eq_true (by omega)
  · rw [writable, bit_toNat, h, hr]
    exact decide_eq_false (by omega)
  · apply BitVec.eq_of_toNat_eq
    rw [frame_toNat, h, hr]
    omega

/-- the entry for the kernel's addresses: present and writable -/
theorem entryPgdir_high : present (entryPgdir L 960) = true ∧ writable (entryPgdir L 960) = true ∧
    frame (entryPgdir L 960) = RELOC L.entryPgtable := by
  have hr := RELOC_toNat hk
  have h2 := hk.2
  unfold PGSIZE at ha h2
  have h : (entryPgdir L 960).toNat = (RELOC L.entryPgtable).toNat + 3 := by
    rw [entryPgdir, if_neg (by decide), if_pos (by decide), ← RELOC, BitVec.toNat_add, BitVec.toNat_add, hr]
    show ((_ + 1) % 2 ^ 32 + 2) % 2 ^ 32 = _
    omega
  refine ⟨?_, ?_, ?_⟩
  · rw [present, bit_toNat, h, hr]
    exact decide_eq_true (by omega)
  · rw [writable, bit_toNat, h, hr]
    exact decide_eq_true (by omega)
  · apply BitVec.eq_of_toNat_eq
    rw [frame_toNat, h, hr]
    omega

omit hk ha in
/-- there are no others -/
theorem entryPgdir_none {d : ℕ} (h0 : d ≠ 0) (h960 : d ≠ 960) : present (entryPgdir L d) = false := by
  have hd : (KERNBASE >>> PDXSHIFT).toNat = 960 := by decide
  rw [entryPgdir, if_neg h0, hd, if_neg h960]
  decide

/-- both point to the one table -/
theorem entryPgdir_frame {d : ℕ} (hp : present (entryPgdir L d) = true) : frame (entryPgdir L d) = RELOC L.entryPgtable := by
  by_cases h0 : d = 0
  · rw [h0]
    exact (entryPgdir_low hk ha).2.2
  · by_cases h960 : d = 960
    · rw [h960]
      exact (entryPgdir_high hk ha).2.2
    · exact absurd (hp.symm.trans (entryPgdir_none h0 h960)) (by decide)

/-! ## Where an access goes -/

/-- **The mapping.** A low address stands for itself and cannot be written (if WP is set), an address of the kernel's 4 MB
stands for the one KERNBASE below it, and any other access faults. -/
theorem entryTables_translate (wp write : Bool) (la : Word) :
    (entryTables L).translate wp write la =
      if la.toNat < 0x400000 then if wp && write then none else some la
      else if 0xF0000000 ≤ la.toNat ∧ la.toNat < 0xF0400000 then some (RELOC la)
      else none := by
  have hi := Paging.tableIndex_lt la
  obtain ⟨hp, hw, hf⟩ := entryPgtable_flags hi
  have hlow : (frame (entryPgtable (tableIndex la)) + BitVec.ofNat 32 (offset la)).toNat = la.toNat % 2 ^ 22 := by
    rw [hf, BitVec.toNat_add, BitVec.toNat_ofNat, BitVec.toNat_ofNat]
    unfold tableIndex offset
    omega
  show (if Paging.allowed wp write (entryPgdir L (dirIndex la)) (entryPgtable (tableIndex la)) then _ else _) = _
  by_cases h0 : la.toNat < 0x400000
  · have hd : dirIndex la = 0 := Nat.div_eq_of_lt h0
    obtain ⟨hp', hw', -⟩ := entryPgdir_low hk ha
    rw [hd, Paging.allowed, hp, hp', hw', if_pos h0]
    cases hwp : wp && write
    · rw [Bool.and_comm write, hwp]
      refine (if_pos rfl).trans (congrArg some (BitVec.eq_of_toNat_eq ?_))
      exact hlow.trans (Nat.mod_eq_of_lt h0)
    · rw [Bool.and_comm write, hwp]
      rfl
  · rw [if_neg h0]
    by_cases h1 : 0xF0000000 ≤ la.toNat ∧ la.toNat < 0xF0400000
    · have hd : dirIndex la = 960 := by
        unfold dirIndex
        omega
      obtain ⟨hp', hw', -⟩ := entryPgdir_high hk ha
      rw [hd, Paging.allowed, hp, hp', hw, hw', if_pos h1, Bool.and_self, Bool.or_true]
      refine (if_pos rfl).trans (congrArg some (BitVec.eq_of_toNat_eq ?_))
      have h2 : KERNBASE.toNat = 0xF0000000 := rfl
      show (frame (entryPgtable (tableIndex la)) + BitVec.ofNat 32 (offset la)).toNat = _
      rw [hlow, RELOC, BitVec.toNat_sub, h2]
      omega
    · have hnone : present (entryPgdir L (dirIndex la)) = false := by
        apply entryPgdir_none
        · unfold dirIndex
          omega
        · unfold dirIndex
          omega
      rw [Paging.allowed, hnone, if_neg h1]
      rfl

omit ha in
/-- the bytes of the entries are in the two pages of the tables -/
theorem entryTables_span (hd : InKernel L.entryPgdir PGSIZE) (had : L.entryPgdir.toNat % PGSIZE = 0)
    (ha : L.entryPgtable.toNat % PGSIZE = 0) {x : Word} (hx : x ∈ (entryTables L).span) :
    (RELOC L.entryPgdir).toNat ≤ x.toNat ∧ x.toNat < (RELOC L.entryPgdir).toNat + PGSIZE ∨
      (RELOC L.entryPgtable).toNat ≤ x.toNat ∧ x.toNat < (RELOC L.entryPgtable).toNat + PGSIZE := by
  have hrd := RELOC_toNat hd
  have hrt := RELOC_toNat hk
  have hd2 := hd.2
  have hk2 := hk.2
  unfold PGSIZE at hd2 hk2 had ha ⊢
  rcases hx with ⟨i, hi, k, hk4, rfl⟩ | ⟨d, -, hp, i, hi, k, hk4, rfl⟩
  · have hslot : (slot (RELOC L.entryPgdir) i).toNat = _ := Paging.slot_toNat _ hi
    have hbyte := Ram.toNat_off (a := slot (RELOC L.entryPgdir) i) (i := k) (by omega)
    change _ ≤ (slot (RELOC L.entryPgdir) i + _).toNat ∧ (slot (RELOC L.entryPgdir) i + _).toNat < _ ∨ _
    omega
  · have hframe : frame (entryPgdir L d) = RELOC L.entryPgtable := entryPgdir_frame hk ha hp
    have hslot : (slot ((entryTables L).pde d) i).toNat = (RELOC L.entryPgtable).toNat + 4 * i := by
      show (frame (entryPgdir L d) + _).toNat = _
      rw [hframe, Ram.toNat_off (by omega)]
    have hbyte := Ram.toNat_off (a := slot ((entryTables L).pde d) i) (i := k) (by omega)
    omega

end Entries

/-! ## The kernel's window -/

/-- the byte at the physical address a is in neither of the pages of the tables -/
def OffTables (L : Symbols) (a : Word) : Prop :=
  Apart a 1 (RELOC L.entryPgdir) PGSIZE ∧ Apart a 1 (RELOC L.entryPgtable) PGSIZE

instance (L : Symbols) (a : Word) : Decidable (OffTables L a) := inferInstanceAs (Decidable (_ ∧ _))

/-- the operations that the kernel is to use: all those in its 4 MB, and loads of the low addresses -/
def Mapped (o : Op) : Prop :=
  (0xF0000000 ≤ o.addr.toNat ∧ o.addr.toNat < 0xF0400000) ∨ (o.addr.toNat < 0x400000 ∧ o.write = false)

instance (o : Op) : Decidable (Mapped o) := inferInstanceAs (Decidable (_ ∨ _))

/-- the physical address that they go to -/
def placeOf (o : Op) : Word := if o.addr.toNat < 0x400000 then o.addr else RELOC o.addr

section Window

variable {L : Symbols} {C : I386.Coding} (hL : Linked L C)

include hL

/-- what the loader has put into memory holds the tables -/
theorem Loaded.holds {mem : Paging.Mem} (h : Loaded L C mem) : Paging.Holds (entryTables L) mem where
  dir d hd := by
    have hslot : slot (entryTables L).cr3 d = RELOC L.entryPgdir + BitVec.ofNat 32 (4 * d) := by
      have ha := hL.pgdir_aligned
      unfold PGSIZE at ha
      have hframe : frame (RELOC L.entryPgdir) = RELOC L.entryPgdir := by
        apply BitVec.eq_of_toNat_eq
        rw [frame_toNat, RELOC_toNat hL.pgdir]
        omega
      exact congrArg (· + _) hframe
    rw [hslot, h.pgdir d hd]
    exact Paging.UpToMarks.refl _
  table d _ hp i hi := by
    have hslot : slot ((entryTables L).pde d) i = RELOC L.entryPgtable + BitVec.ofNat 32 (4 * i) :=
      congrArg (· + _) (entryPgdir_frame hL.pgtable hL.pgtable_aligned hp)
    rw [hslot, h.pgtable i hi]
    exact Paging.UpToMarks.refl _

/-- an operation is allowed exactly if it is mapped -/
theorem translate_mapped (o : Op) : (entryTables L).translate true o.write o.addr = if Mapped o then some (placeOf o) else none := by
  rw [entryTables_translate hL.pgtable hL.pgtable_aligned, placeOf]
  by_cases h0 : o.addr.toNat < 0x400000
  · have hm : Mapped o ↔ o.write = false := by
      unfold Mapped
      constructor
      · rintro (⟨hlo, -⟩ | ⟨-, hw⟩)
        · omega
        · exact hw
      · exact fun hw => Or.inr ⟨h0, hw⟩
    rw [if_pos h0, if_pos h0, Bool.true_and, if_congr hm rfl rfl]
    cases o.write <;> rfl
  · rw [if_neg h0, if_neg h0]
    refine if_congr ?_ rfl rfl
    constructor
    · exact Or.inl
    · rintro (h | ⟨h, -⟩)
      · exact h
      · exact absurd h h0

/-- an address off the pages of the tables is off their entries -/
theorem off_span {a : Word} (ha : OffTables L a) : a ∉ (entryTables L).span := by
  intro hx
  have hspan := entryTables_span hL.pgtable hL.pgdir hL.pgdir_aligned hL.pgtable_aligned hx
  obtain ⟨h1, h2⟩ := ha
  unfold Apart at h1 h2
  omega

end Window

end Jos.Entry
