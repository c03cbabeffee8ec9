/-
The two builds of `memmove` and `memset` in lib/string.c: with inline assembly, and the plain C of the #else branch.

The assembly sees the direction flag, which a `std` leaves set until the next `cld`.

- `memmoveAsm_eq`: around its `rep movs` the assembly is `memmove`, and leaves the flag clear.
- **`memmove_builds_agree`**: both builds of memmove are the overlapping move.
- `memsetPlain_filled`, `memsetPlain_large`: the plain memset counts a size_t down in an int, and a count above 2^31 is
  negative at once.
- **`memset_builds_agree_iff`**: when the builds of memset agree.
-/
import Jos.Lib.Memmove

namespace Jos

open Ram

/-! ## Assembly -/

/-- memory, and the direction flag -/
structure Cpu where
  ram : Ram 32
  df : Bool

namespace Cpu

def cld (m : Cpu) : Cpu := { m with df := false }

def std (m : Cpu) : Cpu := { m with df := true }

/-- `rep movs` of k bytes with count c, from s to d -/
def repMovs (k c : ℕ) (d s : Word) (m : Cpu) : Cpu := { m with ram := Jos.repMovs m.df k c d s m.ram }

/-- `rep stos` of the bytes l with count c -/
def repStos (l : List Byte) : ℕ → Word → Cpu → Cpu
  | 0, _, m => m
  | c + 1, d, m =>
    repStos l c (if m.df then d - BitVec.ofNat 32 l.length else d + BitVec.ofNat 32 l.length)
      { m with ram := m.ram.stores d l }

end Cpu

def memmoveAsm (dst src n : Word) (m : Cpu) : Word × Cpu :=
  let s := src
  let d := dst
  if s < d ∧ d < s + n then
    let s := s + n
    let d := d + n
    let m :=
      if aligned s d n then m.std.repMovs 4 (n / 4).toNat (d - 4) (s - 4) else m.std.repMovs 1 n.toNat (d - 1) (s - 1)
    -- some versions of GCC rely on DF being clear
    (dst, m.cld)
  else (dst, if aligned s d n then m.cld.repMovs 4 (n / 4).toNat d s else m.cld.repMovs 1 n.toNat d s)

/-- the bytes of a word, in memory order -/
def wordBytes (c : Word) : List Byte := [low c, low (c >>> 8), low (c >>> 16), low (c >>> 24)]

/-- `c &= 0xFF; c = (c<<24)|(c<<16)|(c<<8)|c;` -/
def fourTimes (c : Word) : Word :=
  let c := c &&& 0xFF
  c <<< 24 ||| c <<< 16 ||| c <<< 8 ||| c

def memsetAsm (v c n : Word) (m : Cpu) : Word × Cpu :=
  if n = 0 then (v, m)
  else if v.srem 4 = 0 ∧ n % 4 = 0 then (v, m.cld.repStos (wordBytes (fourTimes c)) (n / 4).toNat v)
  else (v, m.cld.repStos [low c] n.toNat v)

/-! ## Plain C -/

/-- `while (n-- > 0) *--d = *--s;` -/
def copyDown : ℕ → Word → Word → Ram 32 → Ram 32
  | 0, _, _, r => r
  | n + 1, d, s, r => copyDown n (d - 1) (s - 1) (movs 1 (d - 1) (s - 1) r)

/-- `while (n-- > 0) *d++ = *s++;` -/
def copyUp : ℕ → Word → Word → Ram 32 → Ram 32
  | 0, _, _, r => r
  | n + 1, d, s, r => copyUp n (d + 1) (s + 1) (movs 1 d s r)

def memmovePlain (dst src n : Word) (r : Ram 32) : Word × Ram 32 :=
  if src < dst ∧ dst < src + n then (dst, copyDown n.toNat (dst + n) (src + n) r) else (dst, copyUp n.toNat dst src r)

/-- an int whose predecessor is not negative is not 0 -/
theorem pred_lt {m : Word} (h : 0 ≤ (m - 1).toInt) : (m - 1).toNat < m.toNat := by
  rw [BitVec.toInt_eq_toNat_cond] at h
  split_ifs at h <;> bv_omega

/-- `while (--m >= 0) *p++ = c;` with an int m -/
def setLoop (c m p : Word) (r : Ram 32) : Ram 32 :=
  if _h : 0 ≤ (m - 1).toInt then setLoop c (m - 1) (p + 1) (r.st8 p (low c)) else r
termination_by m.toNat
decreasing_by exact pred_lt _h

def memsetPlain (v c n : Word) (r : Ram 32) : Word × Ram 32 := (v, setLoop c n v r)

/-! ## Both builds of memcpy -/

def memcpyAsm (dst src n : Word) (m : Cpu) : Word × Cpu := memmoveAsm dst src n m

def memcpyPlain (dst src n : Word) (r : Ram 32) : Word × Ram 32 := memmovePlain dst src n r

/-! ## memmove -/

theorem memmoveAsm_eq (dst src n : Word) (m : Cpu) :
    memmoveAsm dst src n m = (dst, ⟨memmove dst src n m.ram, false⟩) := by
  unfold memmoveAsm memmove
  simp only
  split_ifs <;> rfl

theorem copyUp_eq (n : ℕ) (d s : Word) (r : Ram 32) : copyUp n d s r = repMovs false 1 n d s r := by
  induction n generalizing d s r with
  | zero => rfl
  | succ n ih => exact ih _ _ _

theorem copyDown_eq (n : ℕ) (d s : Word) (r : Ram 32) : copyDown n d s r = repMovs true 1 n (d - 1) (s - 1) r := by
  induction n generalizing d s r with
  | zero => rfl
  | succ n ih => exact ih _ _ _

/-- the plain build is the assembly without its word copies -/
theorem memmovePlain_moved (r : Ram 32) {dst src n : Word} (hd : dst.toNat + n.toNat ≤ 2 ^ 32)
    (hs : src.toNat + n.toNat ≤ 2 ^ 32) : Moved r (memmovePlain dst src n r).2 dst src 0 n.toNat := by
  have hsum : (src + n).toNat = (src.toNat + n.toNat) % 2 ^ 32 := BitVec.toNat_add _ _
  obtain ⟨hup, hdown⟩ := repMovs_whole r (by omega) (Nat.one_mul n.toNat) hd hs
  unfold memmovePlain
  split_ifs with hov
  · rw [copyDown_eq]
    exact hdown (BitVec.le_of_lt hov.1)
  · rw [copyUp_eq]
    refine hup ?_
    rw [BitVec.lt_def, BitVec.lt_def, hsum] at hov
    omega

/-- a move leaves one memory -/
theorem Moved.unique {r r₁ r₂ : Ram 32} {d s : Word} {lo hi : ℕ} (h₁ : Moved r r₁ d s lo hi) (h₂ : Moved r r₂ d s lo hi) :
    r₁.byte = r₂.byte := by
  funext x
  by_cases hx : ∃ i, lo ≤ i ∧ i < hi ∧ x = d + BitVec.ofNat 32 i
  · obtain ⟨i, hlo, hhi, rfl⟩ := hx
    rw [h₁.copied i hlo hhi, h₂.copied i hlo hhi]
  · have hout : ∀ i, lo ≤ i → i < hi → x ≠ d + BitVec.ofNat 32 i := fun i hlo hhi he => hx ⟨i, hlo, hhi, he⟩
    rw [h₁.frame x hout, h₂.frame x hout]

/-- **memmove.** For any overlap and any alignment, the assembly moves the bytes as they were before the call, changes
no other, returns dst, and leaves the direction flag clear; the plain build leaves the same memory and returns the same
pointer. memcpy is memmove. -/
theorem memmove_builds_agree (m : Cpu) {dst src n : Word} (hd : dst.toNat + n.toNat ≤ 2 ^ 32)
    (hs : src.toNat + n.toNat ≤ 2 ^ 32) :
    (∀ i < n.toNat, (memmoveAsm dst src n m).2.ram.byte (dst + BitVec.ofNat 32 i) =
        m.ram.byte (src + BitVec.ofNat 32 i)) ∧
      (∀ x, (∀ i < n.toNat, x ≠ dst + BitVec.ofNat 32 i) → (memmoveAsm dst src n m).2.ram.byte x = m.ram.byte x) ∧
      (memmoveAsm dst src n m).1 = dst ∧ (memmoveAsm dst src n m).2.df = false ∧
      (memmovePlain dst src n m.ram).2.byte = (memmoveAsm dst src n m).2.ram.byte ∧
      (memmovePlain dst src n m.ram).1 = (memmoveAsm dst src n m).1 ∧
      memcpyAsm dst src n m = memmoveAsm dst src n m ∧ memcpyPlain dst src n m.ram = memmovePlain dst src n m.ram := by
  have hm := memmove_moved m.ram hd hs
  rw [memmoveAsm_eq]
  refine ⟨fun i hi => hm.copied i (Nat.zero_le i) hi, fun x hx => hm.frame x fun i _ hi => hx i hi, rfl, rfl, ?_, ?_, ?_,
    rfl⟩
  · exact (memmovePlain_moved m.ram hd hs).unique hm
  · unfold memmovePlain
    split_ifs <;> rfl
  · exact memmoveAsm_eq dst src n m

/-- three bytes moved up by one at a kernel address, with the direction flag set before the call -/
theorem memmove_builds_agree_overlap :
    (memmoveAsm 0xF0000001 0xF0000000 3 ⟨⟨fun a => low a, []⟩, true⟩).2.ram.byte 0xF0000003 = 2 ∧
      (memmoveAsm 0xF0000001 0xF0000000 3 ⟨⟨fun a => low a, []⟩, true⟩).2.df = false := by
  have hd : (0xF0000001 : Word).toNat + (3 : Word).toNat ≤ 2 ^ 32 := by decide
  have hs : (0xF0000000 : Word).toNat + (3 : Word).toNat ≤ 2 ^ 32 := by decide
  obtain ⟨hcopied, -, -, hdf, -⟩ := memmove_builds_agree ⟨⟨fun a => low a, []⟩, true⟩ hd hs
  exact ⟨hcopied 2 (by decide), hdf⟩

/-! ## memset -/

/-- r' is r with n bytes b from v on -/
structure Filled (r r' : Ram 32) (v : Word) (n : ℕ) (b : Byte) : Prop where
  filled : ∀ i < n, r'.byte (v + BitVec.ofNat 32 i) = b
  frame : ∀ x, (∀ i < n, x ≠ v + BitVec.ofNat 32 i) → r'.byte x = r.byte x

theorem filled_stores (r : Ram 32) {v : Word} {n : ℕ} (h : v.toNat + n ≤ 2 ^ 32) (b : Byte) :
    Filled r (r.stores v (List.replicate n b)) v n b where
  filled i hi := by
    have hl : v.toNat + (List.replicate n b).length ≤ 2 ^ 32 := by rwa [List.length_replicate]
    rw [stores_inside _ r hl (by rwa [List.length_replicate]), List.getElem_replicate]
  frame x hx := stores_outside _ r fun i hi => hx i (by rwa [List.length_replicate] at hi)

theorem Filled.unique {r r₁ r₂ : Ram 32} {v : Word} {n : ℕ} {b : Byte} (h₁ : Filled r r₁ v n b)
    (h₂ : Filled r r₂ v n b) : r₁.byte = r₂.byte := by
  funext x
  by_cases hx : ∃ i < n, x = v + BitVec.ofNat 32 i
  · obtain ⟨i, hi, rfl⟩ := hx
    rw [h₁.filled i hi, h₂.filled i hi]
  · have hout : ∀ i < n, x ≠ v + BitVec.ofNat 32 i := fun i hi he => hx ⟨i, hi, he⟩
    rw [h₁.frame x hout, h₂.frame x hout]

/-- upwards, `rep stos` stores its bytes c times -/
theorem repStos_up (l : List Byte) (c : ℕ) (d : Word) (r : Ram 32) :
    (Cpu.repStos l c d ⟨r, false⟩).ram = r.stores d (List.replicate c l).flatten := by
  induction c generalizing d r with
  | zero => rfl
  | succ c ih =>
    rw [Cpu.repStos, if_neg Bool.false_ne_true, ih, List.replicate_succ, List.flatten_cons, stores_append]

/-- the word that `rep stosl` stores has the low byte of c four times -/
theorem wordBytes_fourTimes (c : Word) : wordBytes (fourTimes c) = List.replicate 4 (low c) := by
  have hmask : ∀ x : Word, x &&& 0xFF = uchar (low x) := by
    intro x
    apply BitVec.eq_of_toNat_eq
    have hlt : x.toNat % 2 ^ 8 < 2 ^ 32 := by omega
    have hand : (x &&& 0xFF).toNat = x.toNat % 2 ^ 8 := Nat.and_two_pow_sub_one_eq_mod x.toNat 8
    rw [hand, uchar, low, BitVec.toNat_setWidth, BitVec.toNat_setWidth, Nat.mod_eq_of_lt hlt]
  have hbyte : ∀ b : Byte, wordBytes (fourTimes (uchar b)) = List.replicate 4 b := by decide +kernel
  have hsame : fourTimes c = fourTimes (uchar (low c)) := by
    simp only [fourTimes, hmask, low_uchar]
  rw [hsame, hbyte]

/-- **The assembly.** Every count is filled, in words or in bytes. -/
theorem memsetAsm_filled (m : Cpu) {v n : Word} (c : Word) (h : v.toNat + n.toNat ≤ 2 ^ 32) :
    Filled m.ram (memsetAsm v c n m).2.ram v n.toNat (low c) := by
  have hfill := filled_stores m.ram h (low c)
  unfold memsetAsm
  split_ifs with h0 h4
  · subst h0
    exact hfill
  · have hcount := aligned_count (s := v) (d := v) ⟨h4.1, h4.1, h4.2⟩
    rw [wordBytes_fourTimes, Cpu.cld, repStos_up, List.flatten_replicate_replicate, Nat.mul_comm, hcount]
    exact hfill
  · rw [Cpu.cld, repStos_up, ← List.replicate_one, List.flatten_replicate_replicate, Nat.mul_one]
    exact hfill

/-- the loop of the plain memset, for a count of at most 2^31 -/
theorem setLoop_stores {m : Word} (h : m.toNat ≤ 2 ^ 31) (c p : Word) (r : Ram 32) :
    setLoop c m p r = r.stores p (List.replicate m.toNat (low c)) := by
  induction hn : m.toNat generalizing m p r with
  | zero =>
    obtain rfl : m = 0 := BitVec.eq_of_toNat_eq hn
    rw [setLoop, dif_neg (by decide)]
    rfl
  | succ n ih =>
    have hpred : (m - 1).toNat = n := by bv_omega
    have hpos : 0 ≤ (m - 1).toInt := by
      rw [BitVec.toInt_eq_toNat_of_lt (by omega)]
      exact Int.natCast_nonneg _
    rw [setLoop, dif_pos hpos, ih (by omega) _ _ hpred]
    rfl

/-- a count above 2^31 is a negative int -/
theorem setLoop_negative {m : Word} (h : 2 ^ 31 < m.toNat) (c p : Word) (r : Ram 32) : setLoop c m p r = r := by
  have hneg : ¬ 0 ≤ (m - 1).toInt := by
    have hpred : (m - 1).toNat = m.toNat - 1 := by bv_omega
    rw [BitVec.toInt_eq_toNat_cond, if_neg (by omega)]
    have := (m - 1).isLt
    omega
  rw [setLoop, dif_neg hneg]

theorem memsetPlain_filled (r : Ram 32) {v n : Word} (c : Word) (h : v.toNat + n.toNat ≤ 2 ^ 32) (hn : n.toNat ≤ 2 ^ 31) :
    Filled r (memsetPlain v c n r).2 v n.toNat (low c) := by
  rw [memsetPlain, setLoop_stores hn]
  exact filled_stores r h (low c)

theorem memsetPlain_large (r : Ram 32) {n : Word} (v c : Word) (hn : 2 ^ 31 < n.toNat) : (memsetPlain v c n r).2 = r :=
  setLoop_negative hn c v r

/-- above 2^31 the builds differ, unless the bytes are what they should be already -/
theorem memset_differs (m : Cpu) {v c n : Word} (h : v.toNat + n.toNat ≤ 2 ^ 32) (hn : 2 ^ 31 < n.toNat)
    (hv : m.ram.byte v ≠ low c) : (memsetAsm v c n m).2.ram.byte ≠ (memsetPlain v c n m.ram).2.byte := by
  have hasm := (memsetAsm_filled m c h).filled 0 (by omega)
  rw [memsetPlain_large m.ram v c hn]
  intro he
  rw [he, off_zero] at hasm
  exact hv hasm

/-- **memset.** Both builds leave the same memory, the n bytes from v on filled with the low byte of c, exactly if the
count is at most 2^31, or memory already was so. -/
theorem memset_builds_agree_iff (m : Cpu) (v c n : Word) (h : v.toNat + n.toNat ≤ 2 ^ 32) :
    ((memsetAsm v c n m).2.ram.byte = (memsetPlain v c n m.ram).2.byte ∧
        Filled m.ram (memsetAsm v c n m).2.ram v n.toNat (low c) ∧
        Filled m.ram (memsetPlain v c n m.ram).2 v n.toNat (low c)) ↔
      n.toNat ≤ 2 ^ 31 ∨ ∀ i < n.toNat, m.ram.byte (v + BitVec.ofNat 32 i) = low c := by
  have hasm := memsetAsm_filled m c h
  rcases Nat.lt_or_ge (2 ^ 31) n.toNat with hn | hn
  · rw [memsetPlain_large m.ram v c hn]
    constructor
    · rintro ⟨-, -, hplain⟩
      exact Or.inr hplain.filled
    · rintro (hle | hall)
      · exact absurd hn (Nat.not_lt.2 hle)
      · have hplain : Filled m.ram m.ram v n.toNat (low c) := ⟨hall, fun x _ => rfl⟩
        exact ⟨hasm.unique hplain, hasm, hplain⟩
  · have hplain := memsetPlain_filled m.ram c h hn
    exact iff_of_true ⟨hasm.unique hplain, hasm, hplain⟩ (Or.inl hn)

/-- six bytes from an aligned address on -/
theorem memset_builds_agree_six :
    ((memsetAsm 0x1000 0x141 6 ⟨⟨fun _ => 0, []⟩, false⟩).2.ram.byte =
          (memsetPlain 0x1000 0x141 6 ⟨fun _ => 0, []⟩).2.byte ∧
        Filled ⟨fun _ => 0, []⟩ (memsetAsm 0x1000 0x141 6 ⟨⟨fun _ => 0, []⟩, false⟩).2.ram 0x1000 6 0x41 ∧
        Filled ⟨fun _ => 0, []⟩ (memsetPlain 0x1000 0x141 6 ⟨fun _ => 0, []⟩).2 0x1000 6 0x41) ↔
      6 ≤ 2 ^ 31 ∨ ∀ i < 6, (0 : Byte) = 0x41 :=
  memset_builds_agree_iff ⟨⟨fun _ => 0, []⟩, false⟩ 0x1000 0x141 6 (by decide)

/-- **One byte more than half the address space**, which the plain memset leaves as it was. -/
theorem memset_plain_stops_short :
    (memsetAsm 0x1000 1 0x80000001 ⟨⟨fun _ => 0, []⟩, false⟩).2.ram.byte ≠
      (memsetPlain 0x1000 1 0x80000001 ⟨fun _ => 0, []⟩).2.byte :=
  memset_differs ⟨⟨fun _ => 0, []⟩, false⟩ (by decide) (by decide) (by decide)

end Jos
