/-
Segment descriptors (inc/mmu.h, part 2), as the C code and as boot.S put them in memory, and as the processor reads them.

- `asmSeg_eq_SEG`: the macro of the assembler lays out what the one of C does.
- **`segments_read_back`**: base, privilege level and range of offsets of a segment are those the macros are given.
-/
import Jos.Core.Segment
import Jos.Boot.Model
import Jos.Core.Processor

namespace Jos.Boot

open I386 (Descriptor littleHalf)

/-! ## struct Segdesc -/

structure Segdesc where
  sdLim15_0 : BitVec 16
  sdBase15_0 : BitVec 16
  sdBase23_16 : BitVec 8
  sdType : BitVec 4
  sdS : BitVec 1
  sdDpl : BitVec 2
  sdP : BitVec 1
  sdLim19_16 : BitVec 4
  sdAvl : BitVec 1
  sdRsv1 : BitVec 1
  sdDb : BitVec 1
  sdG : BitVec 1
  sdBase31_24 : BitVec 8
deriving DecidableEq, Repr

/-- the structure in memory: a bit-field begins at the lowest bit that is free -/
def Segdesc.bytes (d : Segdesc) : List Byte :=
  littleHalf d.sdLim15_0 ++ littleHalf d.sdBase15_0 ++
    [d.sdBase23_16, d.sdP ++ d.sdDpl ++ d.sdS ++ d.sdType, d.sdG ++ d.sdDb ++ d.sdRsv1 ++ d.sdAvl ++ d.sdLim19_16,
      d.sdBase31_24]

def SEG (type base lim dpl : Word) : Segdesc :=
  ⟨((lim >>> 12) &&& 0xffff).setWidth 16, (base &&& 0xffff).setWidth 16, ((base >>> 16) &&& 0xff).setWidth 8,
    type.setWidth 4, 1, dpl.setWidth 2, 1, (lim >>> 28).setWidth 4, 0, 0, 1, 1, (base >>> 24).setWidth 8⟩

def SEG16 (type base lim dpl : Word) : Segdesc :=
  ⟨(lim &&& 0xffff).setWidth 16, (base &&& 0xffff).setWidth 16, ((base >>> 16) &&& 0xff).setWidth 8,
    type.setWidth 4, 1, dpl.setWidth 2, 1, (lim >>> 16).setWidth 4, 0, 0, 1, 0, (base >>> 24).setWidth 8⟩

/-- `SEG_NULL` of the assembler -/
def asmSegNull : List Byte := littleHalf 0 ++ littleHalf 0 ++ [0, 0, 0, 0]

/-- `SEG` of the assembler -/
def asmSeg (type base lim : Word) : List Byte :=
  littleHalf (((lim >>> 12) &&& 0xffff).setWidth 16) ++ littleHalf ((base &&& 0xffff).setWidth 16) ++
    [((base >>> 16) &&& 0xff).setWidth 8, (0x90 ||| type).setWidth 8,
      (0xC0 ||| ((lim >>> 28) &&& 0xf)).setWidth 8, ((base >>> 24) &&& 0xff).setWidth 8]

def STA_X : Word := 0x8
def STA_W : Word := 0x2
def STA_R : Word := 0x2

/-! ## Bits -/

/-- the byte k of a list, as the processor reads it -/
def byteOf (l : List Byte) (k : ℕ) : Byte := l.getD k 0

/-- a mask of n bits, before all but n bits are dropped -/
theorem setWidth_mask {w : ℕ} (x : BitVec w) (n : ℕ) :
    (x &&& BitVec.ofNat w (2 ^ n - 1)).setWidth n = x.setWidth n := by
  ext i hi
  simp only [BitVec.getElem_setWidth, BitVec.getLsbD_and, BitVec.getLsbD_ofNat, Nat.testBit_two_pow_sub_one, hi,
    decide_true, Bool.and_true]
  by_cases hw : i < w
  · rw [decide_eq_true hw, Bool.and_true]
  · rw [BitVec.getLsbD_of_ge x i (by omega), Bool.false_and]

/-- the bits from m on, dropped down to n of them, before or after the shift -/
theorem setWidth_shift {w : ℕ} (x : BitVec w) (m n : ℕ) :
    ((x.setWidth (m + n)) >>> m).setWidth n = (x >>> m).setWidth n := by
  ext i hi
  simp only [BitVec.getElem_setWidth, BitVec.getLsbD_ushiftRight, BitVec.getLsbD_setWidth]
  rw [decide_eq_true (by omega), Bool.true_and]

theorem append_split {w : ℕ} (x : BitVec w) (m n : ℕ) : (x >>> m).setWidth n ++ x.setWidth m = x.setWidth (n + m) := by
  ext i hi
  rw [BitVec.getElem_append, BitVec.getElem_setWidth]
  split
  · exact BitVec.getElem_setWidth ..
  · rw [BitVec.getElem_setWidth, BitVec.getLsbD_ushiftRight]
    congr 1
    omega

/-- a base, in the bytes of a descriptor -/
theorem append_base (x : Word) :
    (x >>> 24).setWidth 8 ++ ((x >>> 16) &&& 0xff).setWidth 8 ++
      (((x &&& 0xffff).setWidth 16 : BitVec 16) >>> 8).setWidth 8 ++
        ((x &&& 0xffff).setWidth 16 : BitVec 16).setWidth 8 = x := by
  rw [show ((x >>> 16) &&& 0xff).setWidth 8 = (x >>> 16).setWidth 8 from setWidth_mask _ 8,
    show (x &&& 0xffff).setWidth 16 = x.setWidth 16 from setWidth_mask _ 16,
    show ((x.setWidth 16) >>> 8).setWidth 8 = (x >>> 8).setWidth 8 from setWidth_shift x 8 8,
    BitVec.setWidth_setWidth_of_le _ (by decide)]
  exact I386.le32_littleWord (f := fun k => (I386.littleWord x).getD k 0) (k := 0) fun i hi => by
    interval_cases i <;> rfl

/-- a limit, or the pages of one -/
theorem append_limit (x : Word) :
    (x >>> 16).setWidth 4 ++ ((x &&& 0xffff).setWidth 16 : BitVec 16) = x.setWidth 20 := by
  rw [show (x &&& 0xffff).setWidth 16 = x.setWidth 16 from setWidth_mask _ 16]
  exact append_split x 16 4

/-! ## Segments -/

theorem bit_one : (1 : BitVec 1).getLsbD 0 = true := rfl

theorem bit_zero : (0 : BitVec 1).getLsbD 0 = false := rfl

theorem typeByte_fields (p s : BitVec 1) (dpl : BitVec 2) (type : BitVec 4) :
    (p ++ dpl ++ s ++ type : Byte).setWidth 4 = type ∧ (p ++ dpl ++ s ++ type : Byte).getLsbD 4 = s.getLsbD 0 ∧
      ((p ++ dpl ++ s ++ type : Byte) >>> 5).setWidth 2 = dpl ∧ (p ++ dpl ++ s ++ type : Byte).getLsbD 7 = p.getLsbD 0 := by
  revert p s dpl type
  decide +kernel

theorem limitByte_fields (g db rsv1 avl : BitVec 1) (lim : BitVec 4) :
    (g ++ db ++ rsv1 ++ avl ++ lim : Byte).setWidth 4 = lim ∧
      (g ++ db ++ rsv1 ++ avl ++ lim : Byte).getLsbD 6 = db.getLsbD 0 ∧
        (g ++ db ++ rsv1 ++ avl ++ lim : Byte).getLsbD 7 = g.getLsbD 0 := by
  revert g db rsv1 avl lim
  decide +kernel

/-- each field of the structure is where the processor looks for it -/
theorem Segdesc.read (d : Segdesc) :
    Descriptor.ofBytes (byteOf d.bytes) =
      ⟨d.sdBase31_24 ++ d.sdBase23_16 ++ (d.sdBase15_0 >>> 8).setWidth 8 ++ d.sdBase15_0.setWidth 8,
        d.sdLim19_16 ++ d.sdLim15_0, d.sdType, d.sdS.getLsbD 0, d.sdDpl, d.sdP.getLsbD 0, d.sdDb.getLsbD 0,
        d.sdG.getLsbD 0⟩ := by
  obtain ⟨htype, hs, hdpl, hp⟩ := typeByte_fields d.sdP d.sdS d.sdDpl d.sdType
  obtain ⟨hlim, hdb, hg⟩ := limitByte_fields d.sdG d.sdDb d.sdRsv1 d.sdAvl d.sdLim19_16
  have hlimit : d.sdLim19_16 ++ (d.sdLim15_0 >>> 8).setWidth 8 ++ d.sdLim15_0.setWidth 8 =
      d.sdLim19_16 ++ d.sdLim15_0 := by
    rw [BitVec.append_assoc]
    exact congrArg (d.sdLim19_16 ++ ·) (Ram.append_bytes d.sdLim15_0)
  rw [Descriptor.ofBytes, Descriptor.mk.injEq]
  refine ⟨rfl, ?_, htype, hs, hdpl, hp, hdb, hg⟩
  calc _ = (d.sdG ++ d.sdDb ++ d.sdRsv1 ++ d.sdAvl ++ d.sdLim19_16 : Byte).setWidth 4 ++ (d.sdLim15_0 >>> 8).setWidth 8 ++
        d.sdLim15_0.setWidth 8 := rfl
    _ = _ := by rw [hlim, hlimit]

theorem SEG_read (type base lim dpl : Word) :
    Descriptor.ofBytes (byteOf (SEG type base lim dpl).bytes) =
      ⟨base, (lim >>> 12).setWidth 20, type.setWidth 4, true, dpl.setWidth 2, true, true, true⟩ := by
  have hlimit : (lim >>> 28).setWidth 4 ++ (((lim >>> 12) &&& 0xffff).setWidth 16 : BitVec 16) = (lim >>> 12).setWidth 20 := by
    rw [show lim >>> 28 = lim >>> 12 >>> 16 from BitVec.shiftRight_add lim 12 16]
    exact append_limit _
  rw [Segdesc.read, Descriptor.mk.injEq]
  exact ⟨append_base base, hlimit, rfl, bit_one, rfl, bit_one, bit_one, bit_one⟩

theorem SEG16_read (type base lim dpl : Word) :
    Descriptor.ofBytes (byteOf (SEG16 type base lim dpl).bytes) =
      ⟨base, lim.setWidth 20, type.setWidth 4, true, dpl.setWidth 2, true, true, false⟩ := by
  rw [Segdesc.read, Descriptor.mk.injEq]
  exact ⟨append_base base, append_limit lim, rfl, bit_one, rfl, bit_one, bit_one, bit_zero⟩

/-- the low four bits of a word, as a byte -/
theorem nibble (x : Word) : (x &&& 0xf).setWidth 8 = ((x.setWidth 4).setWidth 8 : Byte) := by
  rw [← setWidth_mask x 4]
  ext i hi
  simp only [BitVec.getElem_setWidth, BitVec.getLsbD_setWidth, BitVec.getLsbD_and]
  interval_cases i <;> simp

/-- the macro of the assembler, for a type of four bits -/
theorem asmSeg_eq_SEG {type : Word} (htype : type.toNat < 16) (base lim : Word) :
    asmSeg type base lim = (SEG type base lim 0).bytes := by
  have htype' : type &&& 0xf = type := by
    apply BitVec.eq_of_toNat_eq
    rw [BitVec.toNat_and]
    exact Nat.and_two_pow_sub_one_of_lt_two_pow (n := 4) htype
  have h5 : (0x90 ||| type).setWidth 8 = ((1 : BitVec 1) ++ (0 : BitVec 2) ++ (1 : BitVec 1) ++ type.setWidth 4 : Byte) := by
    rw [← htype', BitVec.setWidth_or, nibble, show (type &&& 0xf).setWidth 4 = type.setWidth 4 from setWidth_mask _ 4]
    generalize type.setWidth 4 = t
    revert t
    decide
  have h6 : (0xC0 ||| ((lim >>> 28) &&& 0xf)).setWidth 8 =
      ((1 : BitVec 1) ++ (1 : BitVec 1) ++ (0 : BitVec 1) ++ (0 : BitVec 1) ++ (lim >>> 28).setWidth 4 : Byte) := by
    rw [BitVec.setWidth_or, nibble]
    generalize (lim >>> 28).setWidth 4 = t
    revert t
    decide
  have h7 : ((base >>> 24) &&& 0xff).setWidth 8 = (base >>> 24).setWidth 8 := setWidth_mask _ 8
  rw [asmSeg, h5, h6, h7]
  rfl

/-- what a program can tell of a segment: its base, type and privilege level, and the offsets up to lim, in whole units (or
those above it, if the type says that the segment expands down) -/
structure Describes (d : Descriptor) (type base dpl : Word) (unit lim : ℕ) : Prop where
  base : d.base = base
  type : d.type = type.setWidth 4
  dpl : d.dpl = dpl.setWidth 2
  app : d.app = true
  present : d.present = true
  inside : ∀ off, d.inside off = true ↔
    if d.expandDown then lim / unit < off.toNat / unit else off.toNat / unit ≤ lim / unit

/-- **Segments.** The processor finds in a descriptor what SEG or SEG16 was given: all of it but for the limit, of which SEG
keeps the page of 4K and SEG16 the low 20 bits. For types of four bits, the macro of the assembler makes the bytes of SEG
with privilege level 0. -/
theorem segments_read_back (type base lim dpl : Word) :
    Describes (Descriptor.ofBytes (byteOf (SEG type base lim dpl).bytes)) type base dpl (2 ^ 12) lim.toNat ∧
    Describes (Descriptor.ofBytes (byteOf (SEG16 type base lim dpl).bytes)) type base dpl 1 (lim.toNat % 2 ^ 20) ∧
    (type.toNat < 16 → asmSeg type base lim = (SEG type base lim 0).bytes) := by
  refine ⟨?_, ?_, fun htype => asmSeg_eq_SEG htype base lim⟩
  · rw [SEG_read]
    refine ⟨rfl, rfl, rfl, rfl, rfl, fun off => ?_⟩
    have hlim := lim.isLt
    have hpage : ((lim >>> 12).setWidth 20 : BitVec 20).toNat = lim.toNat / 2 ^ 12 := by
      rw [BitVec.toNat_setWidth, BitVec.toNat_ushiftRight, Nat.shiftRight_eq_div_pow]
      omega
    rw [I386.inside_granular rfl rfl, hpage]
  · rw [SEG16_read]
    refine ⟨rfl, rfl, rfl, rfl, rfl, fun off => ?_⟩
    rw [I386.inside_bytes rfl rfl, BitVec.toNat_setWidth, Nat.div_one, Nat.div_one]

end Jos.Boot
