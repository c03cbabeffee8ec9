/-
Positional numerals in a base b: lists of digits, the most significant one first.

`value b ds` reads a list as a number. `numeral b n` writes n without leading zeros, and zero as the digit 0.

- **`numeral_unique`**: the canonical lists are the numerals, each of its own value.
- `value_zeros`: zeros in front keep the value.
- `numeral_length_le`: a number below b^k has at most k digits.
-/
import Mathlib.Data.Nat.Digits.Lemmas
import Mathlib.Tactic

namespace Jos.Numeral

variable {b n k : ℕ} {ds : List ℕ}

/-! ## Reading -/

def value (b : ℕ) (ds : List ℕ) : ℕ := ds.foldl (fun v d => v * b + d) 0

@[simp] theorem value_nil (b : ℕ) : value b [] = 0 := rfl

theorem value_snoc (b : ℕ) (ds : List ℕ) (d : ℕ) : value b (ds ++ [d]) = value b ds * b + d := by
  simp [value]

theorem value_zeros (b k : ℕ) (ds : List ℕ) : value b (List.replicate k 0 ++ ds) = value b ds := by
  induction ds using List.reverseRecOn with
  | nil =>
    induction k with
    | zero => rfl
    | succ k ih =>
      simp only [List.append_nil] at ih ⊢
      rw [List.replicate_succ', value_snoc, ih]
      simp
  | append_singleton ds d ih => rw [← List.append_assoc, value_snoc, value_snoc, ih]

/-! ## Writing -/

def numeral (b n : ℕ) : List ℕ := if n = 0 then [0] else (Nat.digits b n).reverse

theorem numeral_of_lt (h : n < b) : numeral b n = [n] := by
  unfold numeral
  split_ifs with h0
  · rw [h0]
  · rw [Nat.digits_of_lt b n h0 h, List.reverse_singleton]

theorem numeral_of_le (hb : 2 ≤ b) (h : b ≤ n) : numeral b n = numeral b (n / b) ++ [n % b] := by
  have hq : n / b ≠ 0 := by
    have := Nat.div_pos h (by omega)
    omega
  rw [numeral, if_neg (by omega), numeral, if_neg hq, Nat.digits_def' hb (by omega), List.reverse_cons]

/-- the recursion of a numeral on its quotients -/
theorem numeral_induction (hb : 2 ≤ b) {P : ℕ → Prop} (low : ∀ n, n < b → P n) (high : ∀ n, b ≤ n → P (n / b) → P n)
    (n : ℕ) : P n := by
  induction n using Nat.strong_induction_on with
  | _ n ih =>
    rcases lt_or_ge n b with h | h
    · exact low n h
    · exact high n h (ih _ (Nat.div_lt_self (by omega) hb))

theorem value_numeral (hb : 2 ≤ b) (n : ℕ) : value b (numeral b n) = n := by
  induction n using numeral_induction hb with
  | low n h =>
    rw [numeral_of_lt h]
    simp [value]
  | high n h ih =>
    rw [numeral_of_le hb h, value_snoc, ih]
    exact Nat.div_add_mod' n b

theorem numeral_lt (hb : 2 ≤ b) (n : ℕ) : ∀ d ∈ numeral b n, d < b := by
  induction n using numeral_induction hb with
  | low n h =>
    intro d hd
    rw [numeral_of_lt h] at hd
    rwa [List.mem_singleton.1 hd]
  | high n h ih =>
    intro d hd
    rw [numeral_of_le hb h] at hd
    rcases List.mem_append.1 hd with hd | hd
    · exact ih d hd
    · rw [List.mem_singleton.1 hd]
      exact Nat.mod_lt _ (by omega)

theorem numeral_length_pos (b n : ℕ) : 0 < (numeral b n).length := by
  unfold numeral
  split_ifs with h
  · decide
  · rw [List.length_reverse]
    exact List.length_pos_of_ne_nil (Nat.digits_ne_nil_iff_ne_zero.2 h)

theorem numeral_length_le (hb : 2 ≤ b) (hk : 0 < k) (h : n < b ^ k) : (numeral b n).length ≤ k := by
  unfold numeral
  split_ifs
  · exact hk
  · rw [List.length_reverse]
    exact (Nat.digits_length_le_iff hb n).2 h

/-! ## The numerals are the lists without leading zeros -/

structure Canonical (b : ℕ) (ds : List ℕ) : Prop where
  ne_nil : ds ≠ []
  lt : ∀ d ∈ ds, d < b
  head : ds.head? = some 0 → ds = [0]

/-- the first digit of a number that is not zero is not zero -/
theorem numeral_head (hb : 2 ≤ b) (n : ℕ) (h : (numeral b n).head? = some 0) : n = 0 := by
  induction n using numeral_induction hb with
  | low n hn =>
    rw [numeral_of_lt hn] at h
    simpa using h
  | high n hn ih =>
    rw [numeral_of_le hb hn, List.head?_append_of_ne_nil _ (List.ne_nil_of_length_pos (numeral_length_pos _ _))] at h
    have hq := Nat.div_pos hn (by omega)
    have := ih h
    omega

theorem numeral_canonical (hb : 2 ≤ b) (n : ℕ) : Canonical b (numeral b n) where
  ne_nil := List.ne_nil_of_length_pos (numeral_length_pos b n)
  lt := numeral_lt hb n
  head h := by
    rw [numeral_head hb n h]
    rfl

theorem Canonical.eq_numeral (hb : 2 ≤ b) (h : Canonical b ds) : ds = numeral b (value b ds) := by
  induction ds using List.reverseRecOn with
  | nil => exact absurd rfl h.ne_nil
  | append_singleton ds d ih =>
    have hd : d < b := h.lt d (by simp)
    rcases List.eq_nil_or_concat' ds with rfl | ⟨_, _, hds⟩
    · simp [value, numeral_of_lt hd]
    · have hne : ds ≠ [] := by simp [hds]
      have hc : Canonical b ds := by
        refine ⟨hne, fun x hx => h.lt x (List.mem_append_left _ hx), fun h0 => ?_⟩
        have hhead : (ds ++ [d]).head? = some 0 := (List.head?_append_of_ne_nil ds hne).trans h0
        have := congrArg List.length (h.head hhead)
        rw [List.length_append, List.length_singleton, List.length_singleton] at this
        exact absurd (List.length_eq_zero_iff.1 (by omega)) hne
      -- the digits before the last one are not the numeral of zero
      have hpos : 0 < value b ds := by
        by_contra h0
        have hz : ds = [0] := by
          rw [ih hc, show value b ds = 0 by omega]
          rfl
        have := congrArg List.length (h.head (by rw [hz]; rfl))
        rw [hz] at this
        simp at this
      have hq : (value b ds * b + d) / b = value b ds := by
        rw [mul_comm, Nat.mul_add_div (by omega), Nat.div_eq_of_lt hd, Nat.add_zero]
      have hr : (value b ds * b + d) % b = d := by
        rw [mul_comm, Nat.mul_add_mod, Nat.mod_eq_of_lt hd]
      have hle : b ≤ value b ds * b + d := le_add_right (Nat.le_mul_of_pos_left b hpos)
      rw [value_snoc, numeral_of_le hb hle, hq, hr, ← ih hc]

/-- **Uniqueness.** -/
theorem numeral_unique (hb : 2 ≤ b) (n : ℕ) (ds : List ℕ) : Canonical b ds ∧ value b ds = n ↔ ds = numeral b n := by
  constructor
  · rintro ⟨h, rfl⟩
    exact h.eq_numeral hb
  · rintro rfl
    exact ⟨numeral_canonical hb n, value_numeral hb n⟩

end Jos.Numeral
