/-
Byte-addressed memory with w-bit addresses that logs every access.

The log holds the address of every byte read or written, newest first, so that "nothing outside this range is
touched" is a statement about a run. Address arithmetic wraps; the lemmas about ranges assume that the range does not.
-/
import Mathlib.Tactic

namespace Jos

inductive Access (w : ℕ) where
  | rd (a : BitVec w)
  | wr (a : BitVec w)
deriving DecidableEq, Repr

def Access.addr {w : ℕ} : Access w → BitVec w
  | .rd a => a
  | .wr a => a

structure Ram (w : ℕ) where
  byte : BitVec w → BitVec 8
  log : List (Access w)

namespace Ram

variable {w : ℕ}

/-- store one byte -/
def st8 (a : BitVec w) (b : BitVec 8) (r : Ram w) : Ram w :=
  ⟨Function.update r.byte a b, .wr a :: r.log⟩

/-- consecutive stores from a on -/
def stores (a : BitVec w) : List (BitVec 8) → Ram w → Ram w
  | [], r => r
  | b :: l, r => stores (a + 1) l (r.st8 a b)

/-- the n bytes from a on, without an access -/
def peek (r : Ram w) (a : BitVec w) (n : ℕ) : List (BitVec 8) :=
  (List.range n).map fun i => r.byte (a + BitVec.ofNat w i)

/-- load n bytes from a on -/
def loads (a : BitVec w) (n : ℕ) (r : Ram w) : List (BitVec 8) × Ram w :=
  (r.peek a n, { r with log := ((List.range n).map fun i => Access.rd (a + BitVec.ofNat w i)).reverse ++ r.log })

/-- store a half-word, low byte first -/
def st16 (a : BitVec w) (v : BitVec 16) (r : Ram w) : Ram w := r.stores a [v.truncate 8, (v >>> 8).truncate 8]

/-- the half-word at a -/
def half (r : Ram w) (a : BitVec w) : BitVec 16 := r.byte (a + BitVec.ofNat w 1) ++ r.byte a

/-- the bytes from a on, as a pointer to a structure sees them -/
def view (r : Ram w) (a : BitVec w) (i : ℕ) : BitVec 8 := r.byte (a + BitVec.ofNat w i)

/-! ## Addresses of a range -/

theorem toNat_off {a : BitVec w} {i : ℕ} (h : a.toNat + i < 2 ^ w) : (a + BitVec.ofNat w i).toNat = a.toNat + i := by
  rw [BitVec.toNat_add, BitVec.toNat_ofNat, Nat.add_mod_mod, Nat.mod_eq_of_lt h]

theorem off_succ (a : BitVec w) (i : ℕ) : a + 1 + BitVec.ofNat w i = a + BitVec.ofNat w (i + 1) := by
  rw [BitVec.ofNat_add, BitVec.add_assoc, BitVec.add_comm (1 : BitVec w)]; rfl

theorem off_zero (a : BitVec w) : a + BitVec.ofNat w 0 = a := by simp

theorem off_off (a : BitVec w) (i j : ℕ) :
    a + BitVec.ofNat w i + BitVec.ofNat w j = a + BitVec.ofNat w (i + j) := by
  rw [BitVec.ofNat_add, BitVec.add_assoc]

theorem off_inj {a : BitVec w} {i j : ℕ} (hi : a.toNat + i < 2 ^ w) (hj : a.toNat + j < 2 ^ w)
    (h : a + BitVec.ofNat w i = a + BitVec.ofNat w j) : i = j := by
  have := congrArg BitVec.toNat h
  rw [toNat_off hi, toNat_off hj] at this
  omega

theorem peek_add (r : Ram w) (a : BitVec w) (m n : ℕ) :
    r.peek a (m + n) = r.peek a m ++ r.peek (a + BitVec.ofNat w m) n := by
  simp only [peek, List.range_add, List.map_append, List.map_map]
  congr 1
  apply List.map_congr_left
  intro i hi
  rw [Function.comp_apply, off_off]

theorem peek_succ (r : Ram w) (a : BitVec w) (n : ℕ) : r.peek a (n + 1) = r.byte a :: r.peek (a + 1) n := by
  rw [Nat.add_comm, peek_add]
  simp [peek]

/-! ## Stores -/

@[simp] theorem st8_same (a : BitVec w) (b : BitVec 8) (r : Ram w) : (r.st8 a b).byte a = b :=
  Function.update_self _ _ _

theorem st8_other {a x : BitVec w} (h : x ≠ a) (b : BitVec 8) (r : Ram w) : (r.st8 a b).byte x = r.byte x :=
  Function.update_of_ne h _ _

theorem stores_append (a : BitVec w) (l l' : List (BitVec 8)) (r : Ram w) :
    r.stores a (l ++ l') = (r.stores a l).stores (a + BitVec.ofNat w l.length) l' := by
  induction l generalizing a r with
  | nil => simp [stores]
  | cons b l ih => rw [List.cons_append, stores, stores, ih, off_succ, List.length_cons]

theorem stores_snoc (a : BitVec w) (l : List (BitVec 8)) (b : BitVec 8) (r : Ram w) :
    r.stores a (l ++ [b]) = (r.stores a l).st8 (a + BitVec.ofNat w l.length) b := stores_append a l [b] r

/-- stores change nothing outside their range -/
theorem stores_outside {a x : BitVec w} (l : List (BitVec 8)) (r : Ram w)
    (h : ∀ i < l.length, x ≠ a + BitVec.ofNat w i) : (r.stores a l).byte x = r.byte x := by
  induction l generalizing a r with
  | nil => rfl
  | cons b l ih =>
    have h0 := h 0 (by simp)
    rw [off_zero] at h0
    rw [stores, ih _ fun i hi => ?_, st8_other h0]
    rw [off_succ]
    exact h (i + 1) (by simpa using hi)

/-- stores put their bytes in place -/
theorem stores_inside {a : BitVec w} (l : List (BitVec 8)) (r : Ram w) (hl : a.toNat + l.length ≤ 2 ^ w) {i : ℕ}
    (hi : i < l.length) : (r.stores a l).byte (a + BitVec.ofNat w i) = l[i] := by
  induction l using List.reverseRecOn with
  | nil => cases hi
  | append_singleton l b ih =>
    simp only [List.length_append, List.length_singleton] at hl hi
    rw [stores_snoc]
    rcases (show i = l.length ∨ i < l.length by omega) with rfl | hi'
    · rw [st8_same]; simp
    · rw [st8_other, ih (by omega) hi', List.getElem_append_left hi']
      intro h
      have := off_inj (by omega) (by omega) h
      omega

/-- the byte at x after stores that do not wrap -/
theorem stores_byte {a : BitVec w} (l : List (BitVec 8)) (r : Ram w) (hl : a.toNat + l.length ≤ 2 ^ w) (x : BitVec w) :
    (r.stores a l).byte x = if a.toNat ≤ x.toNat then (l[x.toNat - a.toNat]?).getD (r.byte x) else r.byte x := by
  by_cases hx : a.toNat ≤ x.toNat ∧ x.toNat < a.toNat + l.length
  · have hi : x.toNat - a.toNat < l.length := by omega
    have hxa : x = a + BitVec.ofNat w (x.toNat - a.toNat) := by
      apply BitVec.eq_of_toNat_eq
      rw [toNat_off (by omega)]
      omega
    rw [if_pos hx.1, List.getElem?_eq_getElem hi, Option.getD_some]
    rw [← stores_inside l r hl hi, ← hxa]
  · have hout : (r.stores a l).byte x = r.byte x := by
      apply stores_outside
      intro i hi he
      apply hx
      rw [he, toNat_off (by omega)]
      omega
    rw [hout]
    split
    · rw [List.getElem?_eq_none (by omega), Option.getD_none]
    · rfl

/-- stores log one write for each byte -/
theorem stores_log (a : BitVec w) (l : List (BitVec 8)) (r : Ram w) :
    (r.stores a l).log = ((List.range l.length).map fun i => Access.wr (a + BitVec.ofNat w i)).reverse ++ r.log := by
  induction l using List.reverseRecOn with
  | nil => rfl
  | append_singleton l b ih =>
    rw [stores_snoc, List.length_append, List.length_singleton, List.range_succ, List.map_append, List.reverse_append]
    exact congrArg (Access.wr _ :: ·) ih

/-! ## Accesses -/

/-- every access between r and r' is to an address in P -/
def Touched (P : BitVec w → Prop) (r r' : Ram w) : Prop := ∃ l, r'.log = l ++ r.log ∧ ∀ x ∈ l, P x.addr

theorem Touched.refl (P : BitVec w → Prop) (r : Ram w) : Touched P r r := ⟨[], rfl, fun _ h => by cases h⟩

theorem Touched.trans {P : BitVec w → Prop} {r₁ r₂ r₃ : Ram w} (h₁ : Touched P r₁ r₂) (h₂ : Touched P r₂ r₃) :
    Touched P r₁ r₃ := by
  obtain ⟨l₁, e₁, p₁⟩ := h₁
  obtain ⟨l₂, e₂, p₂⟩ := h₂
  refine ⟨l₂ ++ l₁, by rw [e₂, e₁, List.append_assoc], fun x hx => ?_⟩
  rcases List.mem_append.1 hx with hx | hx
  · exact p₂ x hx
  · exact p₁ x hx

theorem Touched.mono {P Q : BitVec w → Prop} {r r' : Ram w} (h : Touched P r r') (hPQ : ∀ a, P a → Q a) :
    Touched Q r r' := by
  obtain ⟨l, e, p⟩ := h
  exact ⟨l, e, fun x hx => hPQ _ (p x hx)⟩

theorem touched_stores {P : BitVec w → Prop} {a : BitVec w} (l : List (BitVec 8)) (r : Ram w)
    (h : ∀ i < l.length, P (a + BitVec.ofNat w i)) : Touched P r (r.stores a l) := by
  refine ⟨_, stores_log a l r, fun x hx => ?_⟩
  obtain ⟨i, hi, rfl⟩ := List.mem_map.1 (List.mem_reverse.1 hx)
  exact h i (List.mem_range.1 hi)

theorem touched_loads {P : BitVec w → Prop} {a : BitVec w} {n : ℕ} (r : Ram w)
    (h : ∀ i < n, P (a + BitVec.ofNat w i)) : Touched P r (r.loads a n).2 := by
  refine ⟨_, rfl, fun x hx => ?_⟩
  obtain ⟨i, hi, rfl⟩ := List.mem_map.1 (List.mem_reverse.1 hx)
  exact h i (List.mem_range.1 hi)

/-! ## Half-words -/

/-- a word and its low byte -/
theorem append_low (x : BitVec w) (n : ℕ) : (x >>> 8).setWidth n ++ x.setWidth 8 = x.setWidth (n + 8) := by
  apply BitVec.eq_of_getLsbD_eq
  intro i hi
  rw [BitVec.getLsbD_append, BitVec.getLsbD_setWidth, BitVec.getLsbD_setWidth, BitVec.getLsbD_setWidth,
    BitVec.getLsbD_ushiftRight]
  split
  · rename_i h
    simp [h, hi]
  · rename_i h
    rw [show 8 + (i - 8) = i by omega]
    simp [hi, show i - 8 < n by omega]

theorem append_bytes (v : BitVec 16) : (v >>> 8).truncate 8 ++ v.truncate 8 = v :=
  (append_low v 8).trans (BitVec.setWidth_eq v)

theorem half_st16_same {a : BitVec w} (ha : a.toNat + 2 ≤ 2 ^ w) (v : BitVec 16) (r : Ram w) :
    (r.st16 a v).half a = v := by
  have h0 := stores_inside [v.truncate 8, (v >>> 8).truncate 8] r ha (show 0 < 2 by omega)
  have h1 := stores_inside [v.truncate 8, (v >>> 8).truncate 8] r ha (show 1 < 2 by omega)
  rw [off_zero] at h0
  rw [half, st16, h0, h1]
  exact append_bytes v

/-- r and r' agree on the half-word at a -/
theorem half_congr {r r' : Ram w} {a : BitVec w} (h : ∀ i < 2, r'.byte (a + BitVec.ofNat w i) = r.byte (a + BitVec.ofNat w i)) :
    r'.half a = r.half a := by
  have h0 := h 0 (by omega)
  rw [off_zero] at h0
  rw [half, half, h0, h 1 (by omega)]

end Ram

/-! ## Little-endian fields of a structure -/

/-- the 16-bit field at offset k -/
def le16 (f : ℕ → BitVec 8) (k : ℕ) : BitVec 16 := f (k + 1) ++ f k

/-- the 32-bit field at offset k -/
def le32 (f : ℕ → BitVec 8) (k : ℕ) : BitVec 32 := f (k + 3) ++ f (k + 2) ++ f (k + 1) ++ f k

theorem le16_congr {f g : ℕ → BitVec 8} {n k : ℕ} (h : ∀ i < n, f i = g i) (hk : k + 2 ≤ n) : le16 f k = le16 g k := by
  rw [le16, le16, h k (by omega), h (k + 1) (by omega)]

theorem le32_congr {f g : ℕ → BitVec 8} {n k : ℕ} (h : ∀ i < n, f i = g i) (hk : k + 4 ≤ n) : le32 f k = le32 g k := by
  rw [le32, le32, h k (by omega), h (k + 1) (by omega), h (k + 2) (by omega), h (k + 3) (by omega)]

end Jos
