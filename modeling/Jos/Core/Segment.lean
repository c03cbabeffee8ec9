/-
Segments of the i386: descriptors as they lie in memory, and what they allow.

- `Descriptor.ofBytes`: the fields of a descriptor, which its eight bytes hold in pieces.
- `Descriptor.inside`, `Descriptor.permits`: the offsets and the accesses that a segment allows.
- `inside_granular`, `inside_bytes`: the offsets, for limits in pages of 4K and in bytes.
-/
import Jos.Core.Ram

namespace Jos.I386

/-! ## Descriptors -/

structure Descriptor where
  base : BitVec 32
  limit : BitVec 20
  type : BitVec 4
  /-- code or data, not a system segment -/
  app : Bool
  dpl : BitVec 2
  present : Bool
  /-- a segment of 32 bits -/
  big : Bool
  /-- the limit counts pages of 4K -/
  granular : Bool
deriving DecidableEq, Repr

/-- the descriptor in eight bytes -/
def Descriptor.ofBytes (f : ℕ → BitVec 8) : Descriptor where
  base := f 7 ++ f 4 ++ f 3 ++ f 2
  limit := (f 6).setWidth 4 ++ f 1 ++ f 0
  type := (f 5).setWidth 4
  app := (f 5).getLsbD 4
  dpl := (f 5 >>> 5).setWidth 2
  present := (f 5).getLsbD 7
  big := (f 6).getLsbD 6
  granular := (f 6).getLsbD 7

/-- the last offset that the limit stands for -/
def Descriptor.last (d : Descriptor) : BitVec 32 := if d.granular then d.limit ++ (0xFFF : BitVec 12) else d.limit.setWidth 32

def Descriptor.code (d : Descriptor) : Bool := d.app && d.type.getLsbD 3

/-- a data segment whose offsets lie above the limit -/
def Descriptor.expandDown (d : Descriptor) : Bool := d.app && !d.type.getLsbD 3 && d.type.getLsbD 2

/-- the offset is one of the segment's -/
def Descriptor.inside (d : Descriptor) (off : BitVec 32) : Bool :=
  if d.expandDown then d.last < off && (d.big || off ≤ 0xFFFF) else off ≤ d.last

/-- may be read, or written -/
def Descriptor.permits (d : Descriptor) (write : Bool) : Bool :=
  d.present && d.app && if write then !d.type.getLsbD 3 && d.type.getLsbD 1 else !d.type.getLsbD 3 || d.type.getLsbD 1

theorem last_toNat (d : Descriptor) :
    d.last.toNat = if d.granular then d.limit.toNat * 2 ^ 12 + 0xFFF else d.limit.toNat := by
  unfold Descriptor.last
  split
  · rw [BitVec.toNat_append, ← Nat.shiftLeft_add_eq_or_of_lt (BitVec.isLt _), Nat.shiftLeft_eq]
    rfl
  · have := d.limit.isLt
    rw [BitVec.toNat_setWidth, Nat.mod_eq_of_lt (by omega)]

/-- the offsets of a granular segment: its limit is the number of the last page -/
theorem inside_granular {d : Descriptor} (hg : d.granular = true) (hbig : d.big = true) (off : BitVec 32) :
    d.inside off = true ↔
      if d.expandDown then d.limit.toNat < off.toNat / 2 ^ 12 else off.toNat / 2 ^ 12 ≤ d.limit.toNat := by
  have hlast := last_toNat d
  rw [if_pos hg] at hlast
  unfold Descriptor.inside
  split
  · rw [hbig, Bool.true_or, Bool.and_true, decide_eq_true_eq, BitVec.lt_def, hlast]
    omega
  · rw [decide_eq_true_eq, BitVec.le_def, hlast]
    omega

/-- the offsets of a segment with a limit in bytes -/
theorem inside_bytes {d : Descriptor} (hg : d.granular = false) (hbig : d.big = true) (off : BitVec 32) :
    d.inside off = true ↔ if d.expandDown then d.limit.toNat < off.toNat else off.toNat ≤ d.limit.toNat := by
  have hlast := last_toNat d
  rw [hg] at hlast
  unfold Descriptor.inside
  split
  · rw [hbig, Bool.true_or, Bool.and_true, decide_eq_true_eq, BitVec.lt_def, hlast]
    rfl
  · rw [decide_eq_true_eq, BitVec.le_def, hlast]
    rfl

/-- base 0, and every offset -/
structure Descriptor.Flat (d : Descriptor) : Prop where
  base : d.base = 0
  inside : ∀ off, d.inside off = true

/-- all of the pages of 4K -/
theorem flat_of_full {d : Descriptor} (hbase : d.base = 0) (hlimit : d.limit = 0xFFFFF) (hg : d.granular = true)
    (hbig : d.big = true) (hup : d.expandDown = false) : d.Flat := by
  refine ⟨hbase, fun off => ?_⟩
  have hoff := off.isLt
  rw [inside_granular hg hbig, hup, hlimit]
  show off.toNat / 2 ^ 12 ≤ 0xFFFFF
  omega

end Jos.I386
