/-
`memmove` of lib/string.c, the version with `rep movs`.

With the direction flag set a `rep movs` goes downwards. `memmove` chooses the direction by whether the end of the
source overlaps the destination, and the width by the alignment.

- `Moved r r' d s lo hi`: the part [lo, hi) of a move from s to d is done, with the bytes that r has at s.
- `movs_step`: one more chunk, on either side of that part.
- **`memmove_moved`**: the whole move, for any overlap and any alignment.
-/
import Jos.Core.Ram
import Jos.Lib.Strings

namespace Jos

open Ram

/-! ## Model -/

/-- `movs` of k bytes: all of them are read before the first is written -/
def movs (k : ℕ) (d s : Word) (r : Ram 32) : Ram 32 := (r.loads s k).2.stores d (r.loads s k).1

/-- `rep movs` of k bytes with count c, and direction flag `std` -/
def repMovs (std : Bool) (k : ℕ) : ℕ → Word → Word → Ram 32 → Ram 32
  | 0, _, _, r => r
  | c + 1, d, s, r =>
    if std then repMovs std k c (d - BitVec.ofNat 32 k) (s - BitVec.ofNat 32 k) (movs k d s r)
    else repMovs std k c (d + BitVec.ofNat 32 k) (s + BitVec.ofNat 32 k) (movs k d s r)

/-- `(int)s%4 == 0 && (int)d%4 == 0 && n%4 == 0` -/
def aligned (s d n : Word) : Prop := s.srem 4 = 0 ∧ d.srem 4 = 0 ∧ n % 4 = 0

instance (s d n : Word) : Decidable (aligned s d n) := inferInstanceAs (Decidable (_ ∧ _ ∧ _))

def memmove (dst src n : Word) (r : Ram 32) : Ram 32 :=
  if src < dst ∧ dst < src + n then
    if aligned (src + n) (dst + n) n then repMovs true 4 (n / 4).toNat (dst + n - 4) (src + n - 4) r
    else repMovs true 1 n.toNat (dst + n - 1) (src + n - 1) r
  else if aligned src dst n then repMovs false 4 (n / 4).toNat dst src r
  else repMovs false 1 n.toNat dst src r

/-! ## A part of a move -/

/-- r' is r after the bytes [lo, hi) from s have been moved to d -/
structure Moved (r r' : Ram 32) (d s : Word) (lo hi : ℕ) : Prop where
  copied : ∀ i, lo ≤ i → i < hi → r'.byte (d + BitVec.ofNat 32 i) = r.byte (s + BitVec.ofNat 32 i)
  frame : ∀ x, (∀ i, lo ≤ i → i < hi → x ≠ d + BitVec.ofNat 32 i) → r'.byte x = r.byte x
  touched : r.Touched (fun x => ∃ i, lo ≤ i ∧ i < hi ∧ (x = d + BitVec.ofNat 32 i ∨ x = s + BitVec.ofNat 32 i)) r'

theorem Moved.none (r : Ram 32) (d s : Word) (i : ℕ) : Moved r r d s i i where
  copied j h1 h2 := by omega
  frame _ _ := rfl
  touched := .refl _ _

/-- the chunk [a, a + k) next to the part [lo, hi), when the part already written does not overlap the chunk's source -/
theorem movs_step {r r' : Ram 32} {d s : Word} {lo hi lo' hi' a k : ℕ} (h : Moved r r' d s lo hi) (hk : 0 < k)
    (hd : d.toNat + hi' ≤ 2 ^ 32) (hpart : lo' = lo ∧ a = hi ∧ hi' = hi + k ∨ lo' = a ∧ a + k = lo ∧ hi' = hi)
    (hle : lo ≤ hi)
    (hsrc : ∀ i j, a ≤ i → i < a + k → lo ≤ j → j < hi → s + BitVec.ofNat 32 i ≠ d + BitVec.ofNat 32 j) :
    Moved r (movs k (d + BitVec.ofNat 32 a) (s + BitVec.ofNat 32 a) r') d s lo' hi' := by
  have hlen : (r'.peek (s + BitVec.ofNat 32 a) k).length = k := by simp [peek]
  have hread : ∀ i (hi : i < (r'.peek (s + BitVec.ofNat 32 a) k).length),
      (r'.peek (s + BitVec.ofNat 32 a) k)[i] = r.byte (s + BitVec.ofNat 32 (a + i)) := by
    intro i hi
    simp only [peek, List.getElem_map, List.getElem_range, off_off]
    exact h.frame _ fun j h1 h2 => hsrc (a + i) j (by omega) (by omega) h1 h2
  have hda : (d + BitVec.ofNat 32 a).toNat + k ≤ 2 ^ 32 := by rw [toNat_off (by omega)]; omega
  -- what the chunk does not write
  have hout : ∀ x, (∀ i, a ≤ i → i < a + k → x ≠ d + BitVec.ofNat 32 i) →
      (movs k (d + BitVec.ofNat 32 a) (s + BitVec.ofNat 32 a) r').byte x = r'.byte x := by
    intro x hx
    refine stores_outside _ _ fun i hi => ?_
    rw [off_off]
    exact hx (a + i) (by omega) (by rw [← hlen]; exact Nat.add_lt_add_left hi a)
  refine ⟨fun i h1 h2 => ?_, fun x hx => ?_, h.touched.mono ?_ |>.trans ?_⟩
  · by_cases hc : a ≤ i ∧ i < a + k
    · obtain ⟨j, rfl⟩ := Nat.exists_eq_add_of_le hc.1
      have hj : j < (r'.peek (s + BitVec.ofNat 32 a) k).length := by rw [hlen]; omega
      rw [← off_off, movs]
      exact (stores_inside _ _ (by rw [← hlen] at hda; exact hda) hj).trans (hread j hj)
    · rw [hout _ fun j h3 h4 he => hc (by rw [off_inj (by omega) (by omega) he]; exact ⟨h3, h4⟩)]
      exact h.copied i (by omega) (by omega)
  · rw [hout x fun i h1 h2 => hx i (by omega) (by omega)]
    exact h.frame x fun i h1 h2 => hx i (by omega) (by omega)
  · rintro x ⟨i, h1, h2, hx⟩
    exact ⟨i, by omega, by omega, hx⟩
  · refine (touched_loads r' fun i hi => ⟨a + i, by omega, by omega, Or.inr (off_off _ _ _)⟩).trans
      (touched_stores _ _ fun i hi => ⟨a + i, by omega, ?_, Or.inl (off_off _ _ _)⟩)
    rw [show (r'.loads (s + BitVec.ofNat 32 a) k).1.length = k from hlen] at hi
    omega

/-- upwards, with the destination below the source or behind its end -/
theorem repMovs_up {r r' : Ram 32} {d s : Word} {k o : ℕ} (c : ℕ) (h : Moved r r' d s 0 o) (hk : 0 < k)
    (hd : d.toNat + (o + k * c) ≤ 2 ^ 32) (hs : s.toNat + (o + k * c) ≤ 2 ^ 32)
    (hds : d.toNat ≤ s.toNat ∨ s.toNat + (o + k * c) ≤ d.toNat) :
    Moved r (repMovs false k c (d + BitVec.ofNat 32 o) (s + BitVec.ofNat 32 o) r') d s 0 (o + k * c) := by
  induction c generalizing o r' with
  | zero => exact h
  | succ c ih =>
    have hm : o + k * (c + 1) = o + k + k * c := by ring
    rw [hm] at hd hs hds ⊢
    rw [repMovs, if_neg Bool.false_ne_true, off_off, off_off]
    refine ih ?_ hd hs hds
    refine movs_step h hk (by omega) (Or.inl ⟨rfl, rfl, rfl⟩) (Nat.zero_le o) fun i j h1 h2 h3 h4 he => ?_
    have := congrArg BitVec.toNat he
    rw [toNat_off (by omega), toNat_off (by omega)] at this
    omega

/-- downwards, with the destination above the source -/
theorem repMovs_down {r r' : Ram 32} {d s : Word} {k n : ℕ} (c : ℕ) (h : Moved r r' d s (k * c) n) (hk : 0 < k)
    (hn : k * c ≤ n) (hd : d.toNat + n ≤ 2 ^ 32) (hs : s.toNat + n ≤ 2 ^ 32) (hds : s.toNat ≤ d.toNat) :
    Moved r (repMovs true k c (d + BitVec.ofNat 32 (k * c) - BitVec.ofNat 32 k)
      (s + BitVec.ofNat 32 (k * c) - BitVec.ofNat 32 k) r') d s 0 n := by
  induction c generalizing r' with
  | zero => exact h
  | succ c ih =>
    have hsub : ∀ x : Word, x + BitVec.ofNat 32 (k * (c + 1)) - BitVec.ofNat 32 k = x + BitVec.ofNat 32 (k * c) := by
      intro x
      rw [Nat.mul_succ, BitVec.ofNat_add, ← BitVec.add_assoc]
      exact BitVec.add_sub_cancel _ _
    rw [Nat.mul_succ] at hn
    rw [hsub, hsub, repMovs, if_pos rfl]
    refine ih ?_ (by omega)
    refine movs_step h hk hd (Or.inr ⟨rfl, rfl, rfl⟩) (by rw [Nat.mul_succ]; omega) fun i j h1 h2 h3 h4 he => ?_
    have := congrArg BitVec.toNat he
    rw [toNat_off (by omega), toNat_off (by omega)] at this
    rw [Nat.mul_succ] at h3
    omega

/-! ## The whole move -/

theorem aligned_count {s d n : Word} (h : aligned s d n) : 4 * (n / 4).toNat = n.toNat := by
  have h4 : n.toNat % 4 = 0 := congrArg BitVec.toNat h.2.2
  have hq : (n / 4).toNat = n.toNat / 4 := BitVec.toNat_udiv
  omega

/-- the two directions of a whole move in c chunks of k bytes -/
theorem repMovs_whole (r : Ram 32) {dst src n : Word} {k c : ℕ} (hk : 0 < k) (hc : k * c = n.toNat)
    (hd : dst.toNat + n.toNat ≤ 2 ^ 32) (hs : src.toNat + n.toNat ≤ 2 ^ 32) :
    (dst.toNat ≤ src.toNat ∨ src.toNat + n.toNat ≤ dst.toNat → Moved r (repMovs false k c dst src r) dst src 0 n.toNat) ∧
    (src.toNat ≤ dst.toNat → Moved r (repMovs true k c (dst + n - BitVec.ofNat 32 k) (src + n - BitVec.ofNat 32 k) r)
      dst src 0 n.toNat) := by
  constructor
  · intro h
    have hup := repMovs_up c (Moved.none r dst src 0) hk (by omega) (by omega) (by omega)
    rw [off_zero, off_zero, Nat.zero_add, hc] at hup
    exact hup
  · intro h
    have h0 : Moved r r dst src (k * c) n.toNat := by rw [hc]; exact .none r dst src _
    have hdown := repMovs_down c h0 hk (by omega) hd hs h
    rw [hc, BitVec.ofNat_toNat, BitVec.setWidth_eq] at hdown
    exact hdown

/-- **memmove.** Every byte arrives as it was before the call, every other byte is unchanged, and nothing outside the
two ranges is accessed. -/
theorem memmove_moved (r : Ram 32) {dst src n : Word} (hd : dst.toNat + n.toNat ≤ 2 ^ 32)
    (hs : src.toNat + n.toNat ≤ 2 ^ 32) : Moved r (memmove dst src n r) dst src 0 n.toNat := by
  have hsum : (src + n).toNat = (src.toNat + n.toNat) % 2 ^ 32 := BitVec.toNat_add _ _
  unfold memmove
  split_ifs with hov h4 h4
  · exact (repMovs_whole r (by omega) (aligned_count h4) hd hs).2 (BitVec.le_of_lt hov.1)
  · exact (repMovs_whole r (by omega) (Nat.one_mul _) hd hs).2 (BitVec.le_of_lt hov.1)
  · refine (repMovs_whole r (by omega) (aligned_count h4) hd hs).1 ?_
    rw [BitVec.lt_def, BitVec.lt_def, hsum] at hov
    omega
  · refine (repMovs_whole r (by omega) (Nat.one_mul _) hd hs).1 ?_
    rw [BitVec.lt_def, BitVec.lt_def, hsum] at hov
    omega

end Jos
