/-
`strcmp`, `strncmp` and `memcmp` of lib/string.c.

All three compare bytes for equality and return the difference of the first two that are not equal, as unsigned chars.
As everywhere, a pointer is the list of bytes that can be read from it on, and a read behind its end is `none`; so a
result on a shorter list says how far a function has read. The int count of `strlen` is a natural number here: on 32 bits
it wraps around at 2^31, which does no harm, as its callers take it as a size_t or add it to a pointer, and modulo 2^32
it is the length of every string of the address space.

- `strcmp_order`: the sign of strcmp is the lexicographic order of the strings, as unsigned bytes.
- `strncmp_truncated`, `memcmp_strcmp`: the other two, in terms of strcmp.
- **`comparisons_agree`**: all of it, with the bytes that are read.
-/
import Jos.Lib.Strings

namespace Jos

/-! ## Model -/

/-- `strlen(s)` -/
def strlen : List Byte → Option ℕ
  | [] => none
  | b :: s => if b = 0#8 then some 0 else (strlen s).map (· + 1)

/-- `(int) ((unsigned char) *p - (unsigned char) *q)` -/
def difference (b c : Byte) : ℤ := b.toNat - c.toNat

/-- `while (*p && *p == *q) p++, q++;` and the difference there -/
def strcmp : List Byte → List Byte → Option ℤ
  | b :: p, c :: q => if b ≠ 0#8 ∧ b = c then strcmp p q else some (difference b c)
  | _, _ => none

/-- `while (n > 0 && *p && *p == *q) n--, p++, q++;` -/
def strncmp : ℕ → List Byte → List Byte → Option ℤ
  | 0, _, _ => some 0
  | n + 1, b :: p, c :: q => if b ≠ 0#8 ∧ b = c then strncmp n p q else some (difference b c)
  | _ + 1, _, _ => none

/-- `while (n-- > 0)` with s1 and s2 -/
def memcmp : ℕ → List Byte → List Byte → Option ℤ
  | 0, _, _ => some 0
  | n + 1, b :: s1, c :: s2 => if b ≠ c then some (difference b c) else memcmp n s1 s2
  | _ + 1, _, _ => none

/-! ## Specification -/

/-- the string at p, as unsigned chars -/
def uchars (p : List Byte) : List ℕ := (cstr p).map BitVec.toNat

/-- the string at p cut off after n bytes, with a terminator -/
def truncated (n : ℕ) (p : List Byte) : List Byte := cstr (p.take n) ++ [0#8]

/-- byte k differs in p and q, or it is the terminator of p -/
def Stops (p q : List Byte) (k : ℕ) : Prop := p[k]? ≠ q[k]? ∨ p[k]? = some 0#8

/-- f reads m bytes of each of its arguments at most -/
def ReadsWithin (f : List Byte → List Byte → Option ℤ) (p q : List Byte) (m : ℕ) : Prop :=
  ∃ r, f p q = some r ∧ f (p.take m) (q.take m) = some r

/-! ## One byte -/

theorem cstr_nul (p : List Byte) : cstr (0#8 :: p) = [] := by simp [cstr]

theorem cstr_cons {b : Byte} (hb : b ≠ 0#8) (p : List Byte) : cstr (b :: p) = b :: cstr p := by simp [cstr, hb]

theorem uchars_nul (p : List Byte) : uchars (0#8 :: p) = [] := by rw [uchars, cstr_nul, List.map_nil]

theorem uchars_cons {b : Byte} (hb : b ≠ 0#8) (p : List Byte) : uchars (b :: p) = b.toNat :: uchars p := by
  rw [uchars, cstr_cons hb, List.map_cons, uchars]

theorem mem_tail {b : Byte} {p : List Byte} (hb : b ≠ 0#8) (h : 0#8 ∈ b :: p) : 0#8 ∈ p := by
  rcases List.mem_cons.1 h with h | h
  · exact absurd h.symm hb
  · exact h

theorem difference_swap (b c : Byte) : difference c b = -difference b c := by
  unfold difference
  omega

theorem truncated_nul (n : ℕ) (p : List Byte) : truncated (n + 1) (0#8 :: p) = [0#8] := by
  rw [truncated, List.take_succ_cons, cstr_nul, List.nil_append]

theorem truncated_cons {b : Byte} (hb : b ≠ 0#8) (n : ℕ) (p : List Byte) :
    truncated (n + 1) (b :: p) = b :: truncated n p := by
  rw [truncated, List.take_succ_cons, cstr_cons hb, List.cons_append, truncated]

/-- a truncated string begins like the string -/
theorem truncated_head (b : Byte) (n : ℕ) (p : List Byte) : ∃ p', truncated (n + 1) (b :: p) = b :: p' := by
  by_cases hb : b = 0#8
  · exact ⟨[], by rw [hb, truncated_nul]⟩
  · exact ⟨_, truncated_cons hb n p⟩

theorem stops_succ {b : Byte} {p q : List Byte} {k : ℕ} : Stops (b :: p) (b :: q) (k + 1) ↔ Stops p q k := by
  simp [Stops]

/-- where the bytes agree and are not NUL, nothing stops -/
theorem Stops.ne_zero {b : Byte} {p q : List Byte} {k : ℕ} (h : Stops (b :: p) (b :: q) k) (hb : b ≠ 0#8) : k ≠ 0 := by
  rintro rfl
  simp [Stops, hb] at h

/-- where two lists do not both have a next byte -/
theorem nil_of_unmatched {p q : List Byte} (h : ∀ b p' c q', p = b :: p' → q = c :: q' → False) : p = [] ∨ q = [] := by
  cases p with
  | nil => exact Or.inl rfl
  | cons b p =>
    cases q with
    | nil => exact Or.inr rfl
    | cons c q => exact absurd rfl (h b p c q rfl)

/-! ## strcmp -/

theorem strlen_eq {s : List Byte} (h : 0#8 ∈ s) : strlen s = some (cstr s).length := by
  induction s with
  | nil => cases h
  | cons b s ih =>
    by_cases hb : b = 0#8
    · rw [strlen, if_pos hb, hb, cstr_nul, List.length_nil]
    · rw [strlen, if_neg hb, ih (mem_tail hb h), cstr_cons hb]
      rfl

/-- the byte at which strcmp stops decides -/
theorem difference_order {b c : Byte} (h : ¬ (b ≠ 0#8 ∧ b = c)) (p q : List Byte) :
    (difference b c < 0 ↔ uchars (b :: p) < uchars (c :: q)) ∧ (difference b c = 0 ↔ cstr (b :: p) = cstr (c :: q)) ∧
      (0 < difference b c ↔ uchars (c :: q) < uchars (b :: p)) := by
  unfold difference
  by_cases hb : b = 0#8
  · by_cases hc : c = 0#8
    · subst hb hc
      rw [uchars_nul, uchars_nul, cstr_nul, cstr_nul]
      simp
    · have hpos : 0 < c.toNat := by bv_omega
      subst hb
      rw [uchars_nul, cstr_nul, uchars_cons hc, cstr_cons hc]
      simp
      omega
  · by_cases hc : c = 0#8
    · have hpos : 0 < b.toNat := by bv_omega
      subst hc
      rw [uchars_nul, cstr_nul, uchars_cons hb, cstr_cons hb]
      simp
      omega
    · -- two characters that differ
      have hne : b ≠ c := fun h' => h ⟨hb, h'⟩
      have hnat : b.toNat ≠ c.toNat := fun h' => hne (BitVec.eq_of_toNat_eq h')
      rw [uchars_cons hb, uchars_cons hc, cstr_cons hb, cstr_cons hc, List.cons_lt_cons_iff, List.cons_lt_cons_iff]
      refine ⟨?_, ?_, ?_⟩
      · simp [hnat]
      · simp [hne]
        omega
      · simp [hnat.symm]

/-- **The order of strcmp.** -/
theorem strcmp_order {p q : List Byte} (hp : 0#8 ∈ p) (hq : 0#8 ∈ q) :
    ∃ r, strcmp p q = some r ∧ (r < 0 ↔ uchars p < uchars q) ∧ (r = 0 ↔ cstr p = cstr q) ∧
      (0 < r ↔ uchars q < uchars p) := by
  fun_induction strcmp p q with
  | case1 b p c q h ih =>
    obtain ⟨hb, rfl⟩ := h
    obtain ⟨r, hr, hlt, heq, hgt⟩ := ih (mem_tail hb hp) (mem_tail hb hq)
    refine ⟨r, hr, ?_, ?_, ?_⟩
    · rw [hlt, uchars_cons hb, uchars_cons hb, List.cons_lt_cons_iff]
      simp
    · rw [heq, cstr_cons hb, cstr_cons hb]
      simp
    · rw [hgt, uchars_cons hb, uchars_cons hb, List.cons_lt_cons_iff]
      simp
  | case2 b p c q h => exact ⟨_, rfl, difference_order h p q⟩
  | case3 p q h =>
    rcases nil_of_unmatched h with rfl | rfl
    · cases hp
    · cases hq

theorem strcmp_swap (p q : List Byte) : strcmp q p = (strcmp p q).map (- ·) := by
  fun_induction strcmp p q with
  | case1 b p c q h ih =>
    obtain ⟨hb, rfl⟩ := h
    rw [strcmp, if_pos ⟨hb, rfl⟩, ih]
  | case2 b p c q h =>
    have h' : ¬ (c ≠ 0#8 ∧ c = b) := by
      rintro ⟨hc, rfl⟩
      exact h ⟨hc, rfl⟩
    rw [strcmp, if_neg h', difference_swap]
    rfl
  | case3 p q h =>
    rcases nil_of_unmatched h with rfl | rfl
    · cases q <;> rfl
    · cases p <;> rfl

/-- no byte behind the first one that stops it -/
theorem strcmp_reads {p q : List Byte} {k : ℕ} (h : Stops p q k) :
    strcmp (p.take (k + 1)) (q.take (k + 1)) = strcmp p q := by
  induction k generalizing p q with
  | zero =>
    match p, q, h with
    | [], _, _ => rfl
    | b :: p, [], _ => rfl
    | b :: p, c :: q, h =>
      have hstop : ¬ (b ≠ 0#8 ∧ b = c) := by
        rintro ⟨hb, rfl⟩
        exact h.ne_zero hb rfl
      simp only [List.take_succ_cons, strcmp, if_neg hstop]
  | succ k ih =>
    match p, q, h with
    | [], _, _ => rfl
    | b :: p, [], _ => rfl
    | b :: p, c :: q, h =>
      rw [List.take_succ_cons, List.take_succ_cons, strcmp, strcmp]
      split_ifs with hloop
      · obtain ⟨-, rfl⟩ := hloop
        exact ih (stops_succ.1 h)
      · rfl

/-! ## strncmp -/

/-- **strncmp is strcmp of the truncated strings.** Neither has to have a terminator, if it has n bytes. -/
theorem strncmp_truncated {n : ℕ} {p q : List Byte} (hp : 0#8 ∈ p ∨ n ≤ p.length) (hq : 0#8 ∈ q ∨ n ≤ q.length) :
    ∃ r, strncmp n p q = some r ∧ strcmp (truncated n p) (truncated n q) = some r := by
  induction n generalizing p q with
  | zero => exact ⟨0, rfl, rfl⟩
  | succ n ih =>
    match p, q, hp, hq with
    | [], _, hp, _ => simp at hp
    | b :: p, [], _, hq => simp at hq
    | b :: p, c :: q, hp, hq =>
      rw [strncmp]
      split_ifs with h
      · obtain ⟨hb, rfl⟩ := h
        have htail : ∀ {l : List Byte}, 0#8 ∈ b :: l ∨ n + 1 ≤ (b :: l).length → 0#8 ∈ l ∨ n ≤ l.length :=
          fun h => h.imp (mem_tail hb) Nat.le_of_succ_le_succ
        obtain ⟨r, hr, hcmp⟩ := ih (htail hp) (htail hq)
        refine ⟨r, hr, ?_⟩
        rw [truncated_cons hb, truncated_cons hb, strcmp, if_pos ⟨hb, rfl⟩, hcmp]
      · obtain ⟨p', hp'⟩ := truncated_head b n p
        obtain ⟨q', hq'⟩ := truncated_head c n q
        exact ⟨_, rfl, by rw [hp', hq', strcmp, if_neg h]⟩

theorem strncmp_reads (n : ℕ) (p q : List Byte) : strncmp n (p.take n) (q.take n) = strncmp n p q := by
  induction n generalizing p q with
  | zero => rfl
  | succ n ih =>
    match p, q with
    | [], _ => rfl
    | b :: p, [] => rfl
    | b :: p, c :: q => rw [List.take_succ_cons, List.take_succ_cons, strncmp, strncmp, ih]

theorem strncmp_stops {p q : List Byte} {k : ℕ} (h : Stops p q k) (n : ℕ) :
    strncmp n (p.take (k + 1)) (q.take (k + 1)) = strncmp n p q := by
  induction n generalizing p q k with
  | zero => rfl
  | succ n ih =>
    match p, q, h with
    | [], _, _ => rfl
    | b :: p, [], _ => rfl
    | b :: p, c :: q, h =>
      rw [List.take_succ_cons, List.take_succ_cons, strncmp, strncmp]
      split_ifs with hloop
      · obtain ⟨hb, rfl⟩ := hloop
        obtain ⟨j, rfl⟩ := Nat.exists_eq_succ_of_ne_zero (h.ne_zero hb)
        exact ih (stops_succ.1 h)
      · rfl

/-! ## memcmp -/

theorem memcmp_reads (n : ℕ) (p q : List Byte) : memcmp n (p.take n) (q.take n) = memcmp n p q := by
  induction n generalizing p q with
  | zero => rfl
  | succ n ih =>
    match p, q with
    | [], _ => rfl
    | b :: p, [] => rfl
    | b :: p, c :: q => rw [List.take_succ_cons, List.take_succ_cons, memcmp, memcmp, ih]

/-- no byte behind a difference -/
theorem memcmp_differs {p q : List Byte} {k : ℕ} (h : p[k]? ≠ q[k]?) (n : ℕ) :
    memcmp n (p.take (k + 1)) (q.take (k + 1)) = memcmp n p q := by
  induction n generalizing p q k with
  | zero => rfl
  | succ n ih =>
    match p, q, h with
    | [], _, _ => rfl
    | b :: p, [], _ => rfl
    | b :: p, c :: q, h =>
      rw [List.take_succ_cons, List.take_succ_cons, memcmp, memcmp]
      split_ifs with hbc
      · rfl
      · obtain rfl := not_not.1 hbc
        cases k with
        | zero => exact absurd rfl h
        | succ k => exact ih (by simpa using h)

theorem memcmp_ok {n : ℕ} {p q : List Byte} (hp : n ≤ p.length) (hq : n ≤ q.length) : ∃ r, memcmp n p q = some r := by
  induction n generalizing p q with
  | zero => exact ⟨0, rfl⟩
  | succ n ih =>
    match p, q, hp, hq with
    | b :: p, c :: q, hp, hq =>
      rw [memcmp]
      split_ifs
      · exact ⟨_, rfl⟩
      · exact ih (Nat.le_of_succ_le_succ hp) (Nat.le_of_succ_le_succ hq)

/-- up to the terminator of the shorter string, memcmp is strcmp -/
theorem memcmp_strcmp {p q : List Byte} (hp : 0#8 ∈ p) (hq : 0#8 ∈ q) :
    memcmp (min (cstr p).length (cstr q).length + 1) p q = strcmp p q := by
  fun_induction strcmp p q with
  | case1 b p c q h ih =>
    obtain ⟨hb, rfl⟩ := h
    rw [cstr_cons hb, cstr_cons hb, List.length_cons, List.length_cons, Nat.succ_min_succ, memcmp,
      if_neg (not_not.2 rfl)]
    exact ih (mem_tail hb hp) (mem_tail hb hq)
  | case2 b p c q h =>
    rw [memcmp]
    split_ifs with hbc
    · rfl
    · -- both end here
      obtain rfl := not_not.1 hbc
      have hb : b = 0#8 := not_not.1 fun hb => h ⟨hb, rfl⟩
      rw [hb, cstr_nul, List.length_nil, Nat.zero_min, memcmp, difference, sub_self]
  | case3 p q h =>
    rcases nil_of_unmatched h with rfl | rfl
    · cases hp
    · cases hq

/-! ## One order -/

/-- **The comparison functions.** strcmp is the order of the strings as unsigned bytes, antisymmetric and transitive;
memcmp up to the terminator of the shorter string is strcmp; strncmp is strcmp of the truncated strings. No byte is read
behind one that differs, behind a terminator (except by memcmp, which has none), or behind the first n. -/
theorem comparisons_agree :
    (∀ p q, 0#8 ∈ p → 0#8 ∈ q → ∃ r,
      strcmp p q = some r ∧ (r < 0 ↔ uchars p < uchars q) ∧ (r = 0 ↔ cstr p = cstr q) ∧ (0 < r ↔ uchars q < uchars p) ∧
        strcmp q p = some (-r) ∧ (∀ k, Stops p q k → ReadsWithin strcmp p q (k + 1)) ∧
        ∃ m n, strlen p = some m ∧ strlen q = some n ∧ memcmp (min m n + 1) p q = some r) ∧
    (∀ p q s, 0#8 ∈ p → 0#8 ∈ q → 0#8 ∈ s → ∀ r₁ r₂ r₃, strcmp p q = some r₁ → strcmp q s = some r₂ →
      strcmp p s = some r₃ → r₁ ≤ 0 → r₂ ≤ 0 → r₃ ≤ 0) ∧
    (∀ n p q, 0#8 ∈ p ∨ n ≤ p.length → 0#8 ∈ q ∨ n ≤ q.length → ∃ r,
      strncmp n p q = some r ∧ strcmp (truncated n p) (truncated n q) = some r ∧ ReadsWithin (strncmp n) p q n ∧
        ∀ k, Stops p q k → ReadsWithin (strncmp n) p q (k + 1)) ∧
    ∀ n p q, n ≤ p.length → n ≤ q.length → ReadsWithin (memcmp n) p q n ∧
      ∀ k, p[k]? ≠ q[k]? → ReadsWithin (memcmp n) p q (k + 1) := by
  refine ⟨?_, ?_, ?_, ?_⟩
  · intro p q hp hq
    obtain ⟨r, hr, hlt, heq, hgt⟩ := strcmp_order hp hq
    refine ⟨r, hr, hlt, heq, hgt, ?_, ?_, ?_⟩
    · rw [strcmp_swap, hr]
      rfl
    · intro k hk
      exact ⟨r, hr, (strcmp_reads hk).trans hr⟩
    · exact ⟨_, _, strlen_eq hp, strlen_eq hq, (memcmp_strcmp hp hq).trans hr⟩
  · intro p q s hp hq hs r₁ r₂ r₃ h₁ h₂ h₃ hle₁ hle₂
    obtain ⟨r, hr, -, -, hgt₁⟩ := strcmp_order hp hq
    obtain rfl := Option.some.inj (hr.symm.trans h₁)
    obtain ⟨r', hr', -, -, hgt₂⟩ := strcmp_order hq hs
    obtain rfl := Option.some.inj (hr'.symm.trans h₂)
    obtain ⟨r'', hr'', -, -, hgt₃⟩ := strcmp_order hp hs
    obtain rfl := Option.some.inj (hr''.symm.trans h₃)
    rw [← not_lt, hgt₁, not_lt] at hle₁
    rw [← not_lt, hgt₂, not_lt] at hle₂
    rw [← not_lt, hgt₃, not_lt]
    exact hle₁.trans hle₂
  · intro n p q hp hq
    obtain ⟨r, hr, hcmp⟩ := strncmp_truncated hp hq
    refine ⟨r, hr, hcmp, ⟨r, hr, (strncmp_reads n p q).trans hr⟩, fun k hk => ?_⟩
    exact ⟨r, hr, (strncmp_stops hk n).trans hr⟩
  · intro n p q hp hq
    obtain ⟨r, hr⟩ := memcmp_ok hp hq
    refine ⟨⟨r, hr, (memcmp_reads n p q).trans hr⟩, fun k hk => ?_⟩
    exact ⟨r, hr, (memcmp_differs hk n).trans hr⟩

/-- 0x80 comes after 'a', with and without a terminator, and so after 'A' -/
theorem comparisons_agree_high :
    (∃ r, strcmp [0x80#8, 0#8] [0x61#8, 0#8] = some r ∧ (0 < r ↔ uchars [0x61#8, 0#8] < uchars [0x80#8, 0#8])) ∧
    (∀ r, strcmp [0x41#8, 0#8] [0x80#8, 0#8] = some r → r ≤ 0) ∧
    (∃ r, strncmp 1 [0x80#8] [0x61#8] = some r ∧ strcmp (truncated 1 [0x80#8]) (truncated 1 [0x61#8]) = some r) ∧
    ReadsWithin (memcmp 2) [0x80#8, 0#8] [0x61#8, 0#8] 2 := by
  obtain ⟨horder, htrans, htrunc, hmem⟩ := comparisons_agree
  refine ⟨?_, ?_, ?_, ?_⟩
  · obtain ⟨r, hr, -, -, hgt, -⟩ := horder [0x80#8, 0#8] [0x61#8, 0#8] (by decide) (by decide)
    exact ⟨r, hr, hgt⟩
  · intro r hr
    exact htrans [0x41#8, 0#8] [0x61#8, 0#8] [0x80#8, 0#8] (by decide) (by decide) (by decide) (-32) (-31) r rfl rfl hr
      (by decide) (by decide)
  · obtain ⟨r, hr, hcmp, -⟩ := htrunc 1 [0x80#8] [0x61#8] (by decide) (by decide)
    exact ⟨r, hr, hcmp⟩
  · exact (hmem 2 [0x80#8, 0#8] [0x61#8, 0#8] (by decide) (by decide)).1

end Jos
