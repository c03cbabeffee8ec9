/-
`strtol` of lib/string.c.

The string is the list of bytes that can be read from its pointer on; endptr is an offset from that pointer. `long` is a
32-bit word that wraps around.

- **`strtol_eq`**: the value and endptr on any C string.
- `IsSubject`, `Delimits`: what strtol should make of a string.
- **`strtol_delimits_iff`**: when it does. It never gives back what it has consumed.
-/
import Mathlib.Data.List.TakeWhile
import Jos.Core.Numeral
import Jos.Lib.Strings

namespace Jos.Strtol

open Numeral (value)

/-! ## Model -/

def isBlank (b : Byte) : Bool := b = chr ' ' ∨ b = chr '\t'

/-- gobble initial whitespace: how much, and the rest -/
def gobble : List Byte → Option (ℕ × List Byte)
  | [] => none
  | b :: s => if isBlank b then (gobble s).map fun r => (r.1 + 1, r.2) else some (0, b :: s)

/-- plus/minus sign: neg, its length, and the rest -/
def takeSign : List Byte → Option (Bool × ℕ × List Byte)
  | [] => none
  | b :: s =>
    if b = chr '+' then some (false, 1, s)
    else if b = chr '-' then some (true, 1, s)
    else some (false, 0, b :: s)

/-- hex or octal base prefix: the base, the length of the prefix, and the rest. s[1] is read behind a '0' only. -/
def takePrefix (base : ℤ) (s : List Byte) : Option (ℤ × ℕ × List Byte) := do
  if base = 0 ∨ base = 16 then
    let b ← s[0]?
    if b = chr '0' then
      let c ← s[1]?
      if c = chr 'x' then return (16, 2, s.drop 2)
      else if base = 0 then return (8, 1, s.drop 1)
      else return (base, 0, s)
    else if base = 0 then return (10, 0, s)
    else return (base, 0, s)
  else return (base, 0, s)

/-- the digit that *s stands for -/
def dig (b : Byte) : Option ℕ :=
  if chr '0' ≤ b ∧ b ≤ chr '9' then some (b.toNat - 48)
  else if chr 'a' ≤ b ∧ b ≤ chr 'z' then some (b.toNat - 97 + 10)
  else if chr 'A' ≤ b ∧ b ≤ chr 'Z' then some (b.toNat - 65 + 10)
  else none

/-- the loop over the digits: val, and how many there are -/
def digits (base : ℤ) : Word → List Byte → Option (Word × ℕ)
  | _, [] => none
  | val, b :: s =>
    match dig b with
    | none => some (val, 0)
    | some d =>
      if (d : ℤ) ≥ base then some (val, 0)
      else (digits base (val * BitVec.ofInt 32 base + BitVec.ofNat 32 d) s).map fun r => (r.1, r.2 + 1)

/-- `strtol(s, &endptr, base)`: the value, and endptr - s -/
def strtol (s : List Byte) (base : ℤ) : Option (Word × ℕ) := do
  let (n₁, s) ← gobble s
  let (neg, n₂, s) ← takeSign s
  let (base, n₃, s) ← takePrefix base s
  let (val, n₄) ← digits base 0 s
  return (if neg then -val else val, n₁ + n₂ + n₃ + n₄)

/-! ## What it does on a C string -/

/-- b is a digit in the base -/
def valid (base : ℕ) (b : Byte) : Bool := (dig b).any (· < base)

def digitVal (b : Byte) : ℕ := (dig b).getD 0

/-- the number that digits stand for -/
def number (base : ℕ) (ds : List Byte) : ℕ := value base (ds.map digitVal)

/-- the sign in front of a text -/
def signOf (u : List Byte) : List Byte :=
  if u.head? = some (chr '+') then [chr '+'] else if u.head? = some (chr '-') then [chr '-'] else []

/-- the base of a number that has no "0x" -/
def deduced (base : ℕ) (u : List Byte) : ℕ := if base ≠ 0 then base else if u.head? = some (chr '0') then 8 else 10

/-- strtol takes a "0x" for the prefix -/
def Hex (base : ℕ) (u : List Byte) : Prop := (base = 0 ∨ base = 16) ∧ [chr '0', chr 'x'] <+: u

instance (base : ℕ) (u : List Byte) : Decidable (Hex base u) := inferInstanceAs (Decidable (_ ∧ _))

def digitBase (base : ℕ) (u : List Byte) : ℕ := if Hex base u then 16 else deduced base u

def prefixLength (base : ℕ) (u : List Byte) : ℕ :=
  if Hex base u then 2 else if base = 0 ∧ u.head? = some (chr '0') then 1 else 0

/-- the digits behind the prefix -/
def digitsOf (base : ℕ) (u : List Byte) : List Byte :=
  (u.drop (prefixLength base u)).takeWhile (valid (digitBase base u))

/-- the value of a number behind a sign -/
def signed (sg : List Byte) (n : ℕ) : ℤ := if sg = [chr '-'] then -n else n

/-- what is left of l behind blanks and a sign -/
def unsigned (l : List Byte) : List Byte := (l.dropWhile isBlank).drop (signOf (l.dropWhile isBlank)).length

/-- the value that strtol computes -/
def valueOf (base : ℕ) (l : List Byte) : ℤ :=
  signed (signOf (l.dropWhile isBlank)) (number (digitBase base (unsigned l)) (digitsOf base (unsigned l)))

/-- where it stops -/
def endOf (base : ℕ) (l : List Byte) : ℕ :=
  (l.takeWhile isBlank).length + (signOf (l.dropWhile isBlank)).length + prefixLength base (unsigned l) +
    (digitsOf base (unsigned l)).length

theorem isBlank_nul : isBlank 0#8 = false := by decide

theorem dig_nul : dig 0#8 = none := by decide

theorem gobble_eq {l : List Byte} (rest : List Byte) :
    gobble (l ++ 0#8 :: rest) = some ((l.takeWhile isBlank).length, l.dropWhile isBlank ++ 0#8 :: rest) := by
  induction l with
  | nil => simp [gobble, isBlank_nul]
  | cons b l ih =>
    by_cases hb : isBlank b = true
    · rw [List.cons_append, gobble, if_pos hb, ih, List.takeWhile_cons_of_pos hb, List.dropWhile_cons_of_pos hb]
      simp
    · rw [List.cons_append, gobble, if_neg hb, List.takeWhile_cons_of_neg hb, List.dropWhile_cons_of_neg hb]
      simp

theorem takeSign_eq (u rest : List Byte) :
    takeSign (u ++ 0#8 :: rest) =
      some (decide (signOf u = [chr '-']), (signOf u).length, u.drop (signOf u).length ++ 0#8 :: rest) := by
  cases u with
  | nil => rfl
  | cons b u =>
    by_cases h1 : b = chr '+'
    · subst h1
      rfl
    · by_cases h2 : b = chr '-'
      · subst h2
        rfl
      · simp [takeSign, signOf, h1, h2]

theorem digits_eq (base : ℕ) (v : ℕ) (u rest : List Byte) :
    digits base (BitVec.ofNat 32 v) (u ++ 0#8 :: rest) =
      some (BitVec.ofNat 32 (((u.takeWhile (valid base)).map digitVal).foldl (fun v d => v * base + d) v),
        (u.takeWhile (valid base)).length) := by
  induction u generalizing v with
  | nil => simp [digits, dig_nul]
  | cons b u ih =>
    rw [List.cons_append, digits]
    cases hd : dig b with
    | none => simp [valid, hd]
    | some d =>
      by_cases hlt : d < base
      · have hstep : BitVec.ofNat 32 v * BitVec.ofInt 32 base + BitVec.ofNat 32 d = BitVec.ofNat 32 (v * base + d) := by
          rw [BitVec.ofInt_natCast, ← BitVec.ofNat_mul, ← BitVec.ofNat_add]
        have hge : ¬ (d : ℤ) ≥ base := by omega
        simp only [if_neg hge]
        rw [hstep, ih]
        simp [valid, hd, hlt, digitVal]
      · have hge : (d : ℤ) ≥ base := by omega
        simp [hge, valid, hd, hlt]

theorem takePrefix_eq (base : ℕ) (u rest : List Byte) :
    takePrefix base (u ++ 0#8 :: rest) =
      some ((digitBase base u : ℤ), prefixLength base u, u.drop (prefixLength base u) ++ 0#8 :: rest) := by
  have hx : (0#8 : Byte) ≠ chr 'x' := by decide
  have hz : (0#8 : Byte) ≠ chr '0' := by decide
  by_cases hb : base = 0 ∨ base = 16
  · have hb' : (base : ℤ) = 0 ∨ (base : ℤ) = 16 := by omega
    unfold takePrefix
    rw [if_pos hb']
    rcases u with _ | ⟨b, u⟩
    · rcases hb with rfl | rfl <;> simp [hz, digitBase, prefixLength, Hex, deduced]
    · by_cases hb0 : b = chr '0'
      · subst hb0
        rcases u with _ | ⟨c, u⟩
        · rcases hb with rfl | rfl <;> simp [hx, digitBase, prefixLength, Hex, deduced]
        · by_cases hc : c = chr 'x'
          · rcases hb with rfl | rfl <;> simp [hc, digitBase, prefixLength, Hex]
          · have hc' : chr 'x' ≠ c := fun h => hc h.symm
            rcases hb with rfl | rfl <;> simp [hc, hc', digitBase, prefixLength, Hex, deduced]
      · have hb1 : chr '0' ≠ b := fun h => hb0 h.symm
        rcases hb with rfl | rfl <;> simp [hb0, hb1, digitBase, prefixLength, Hex, deduced]
  · have hb' : ¬ ((base : ℤ) = 0 ∨ (base : ℤ) = 16) := by omega
    have hhex : ¬ Hex base u := fun h => hb h.1
    rw [not_or] at hb
    unfold takePrefix
    rw [if_neg hb']
    simp [digitBase, prefixLength, hhex, deduced, hb.1]

/-- **strtol.** Blanks, a sign, a prefix and digits are consumed, whatever follows them. -/
theorem strtol_eq (l rest : List Byte) (base : ℕ) :
    strtol (l ++ 0#8 :: rest) base = some (BitVec.ofInt 32 (valueOf base l), endOf base l) := by
  have hval : ∀ n : ℕ, (if signOf (l.dropWhile isBlank) = [chr '-'] then -BitVec.ofNat 32 n else BitVec.ofNat 32 n) =
      BitVec.ofInt 32 (signed (signOf (l.dropWhile isBlank)) n) := by
    intro n
    unfold signed
    split_ifs
    · rw [BitVec.ofInt_neg, BitVec.ofInt_natCast]
    · rw [BitVec.ofInt_natCast]
  have hdigits := digits_eq (digitBase base (unsigned l)) 0 ((unsigned l).drop (prefixLength base (unsigned l))) rest
  unfold strtol
  rw [gobble_eq]
  simp only [Option.bind_eq_bind, Option.bind_some, takeSign_eq, takePrefix_eq, decide_eq_true_eq]
  change (digits (digitBase base (unsigned l)) (BitVec.ofNat 32 0)
    ((unsigned l).drop (prefixLength base (unsigned l)) ++ 0#8 :: rest)).bind _ = _
  rw [hdigits]
  exact congrArg (fun x => some (x, _)) (hval _)

/-! ## The subject -/

/-- a number in the base, without a sign -/
inductive IsNumber (base : ℕ) : List Byte → ℕ → Prop
  | digits {ds : List Byte} (hne : ds ≠ []) (hv : ∀ c ∈ ds, valid (deduced base ds) c = true) :
      IsNumber base ds (number (deduced base ds) ds)
  | hex {ds : List Byte} (hb : base = 0 ∨ base = 16) (hne : ds ≠ []) (hv : ∀ c ∈ ds, valid 16 c = true) :
      IsNumber base (chr '0' :: chr 'x' :: ds) (number 16 ds)

/-- blanks, a sign or none, and a number; k is its value -/
def IsSubject (base : ℕ) (t : List Byte) (k : ℤ) : Prop :=
  ∃ bl sg num n, t = bl ++ sg ++ num ∧ (∀ c ∈ bl, isBlank c = true) ∧ (sg = [] ∨ sg = [chr '+'] ∨ sg = [chr '-']) ∧
    IsNumber base num n ∧ k = signed sg n

/-- The value and endptr that strtol should return: those of the longest subject in front of l, and 0 and l itself where
there is none. -/
structure Delimits (base : ℕ) (l : List Byte) (v : Word) (n : ℕ) : Prop where
  subject : ∀ t k, t <+: l → IsSubject base t k → (∀ t' k', t' <+: l → IsSubject base t' k' → t'.length ≤ t.length) →
    v = BitVec.ofInt 32 k ∧ n = t.length
  none : (∀ t k, t <+: l → ¬ IsSubject base t k) → v = 0 ∧ n = 0

/-- A digit follows, or nothing has been consumed; and a hex digit follows an "0x" that is taken for the prefix. -/
def Accepted (base : ℕ) (l : List Byte) : Prop :=
  ((unsigned l).head?.any (valid (deduced base (unsigned l))) = true ∨ unsigned l = l) ∧
    (Hex base (unsigned l) → ((unsigned l).drop 2).head?.any (valid 16) = true)

instance (base : ℕ) (l : List Byte) : Decidable (Accepted base l) := inferInstanceAs (Decidable (_ ∧ _))

theorem dig_char : ∀ c : Byte, (dig c).isSome = true → isBlank c = false ∧ c ≠ chr '+' ∧ c ≠ chr '-' := by decide

theorem dig_of_valid {base : ℕ} {c : Byte} (h : valid base c = true) : (dig c).isSome = true := by
  unfold valid at h
  cases hd : dig c with
  | none =>
    rw [hd] at h
    cases h
  | some d => rfl

/-- the longest prefix with a property of its elements -/
theorem prefix_takeWhile {p : Byte → Bool} {t l : List Byte} (h : t <+: l) (ht : ∀ c ∈ t, p c = true) :
    t <+: l.takeWhile p := by
  obtain ⟨r, rfl⟩ := h
  rw [List.takeWhile_append_of_pos ht]
  exact List.prefix_append _ _

theorem takeWhile_ne_nil_iff (p : Byte → Bool) (l : List Byte) : l.takeWhile p ≠ [] ↔ l.head?.any p = true := by
  cases l with
  | nil => simp
  | cons c l => by_cases hc : p c = true <;> simp [hc]

theorem take_takeWhile (p : Byte → Bool) (l : List Byte) : l.take (l.takeWhile p).length = l.takeWhile p :=
  (List.prefix_iff_eq_take.1 (List.takeWhile_prefix p)).symm

theorem deduced_front {base : ℕ} {ds u : List Byte} (hne : ds ≠ []) (h : ds <+: u) : deduced base ds = deduced base u := by
  obtain ⟨r, rfl⟩ := h
  rw [deduced, deduced, List.head?_append_of_ne_nil _ hne]

/-- in front of "0x" there is one digit: the 0 -/
theorem takeWhile_of_hex {base : ℕ} {u : List Byte} (h : Hex base u) :
    u.takeWhile (valid (deduced base u)) = [chr '0'] := by
  obtain ⟨hb, r, rfl⟩ := h
  rcases hb with rfl | rfl <;> rfl

theorem number_zero_cons (base : ℕ) (ds : List Byte) : number base (chr '0' :: ds) = number base ds := by
  exact Numeral.value_zeros base 1 (ds.map digitVal)

theorem IsNumber.head {base : ℕ} {t : List Byte} {n : ℕ} (h : IsNumber base t n) :
    ∃ c t', t = c :: t' ∧ (dig c).isSome = true := by
  cases h with
  | digits hne hv =>
    obtain ⟨c, t', rfl⟩ := List.exists_cons_of_ne_nil hne
    exact ⟨c, t', rfl, dig_of_valid (hv c List.mem_cons_self)⟩
  | hex hb hne hv => exact ⟨_, _, rfl, by decide⟩

theorem IsNumber.unique {base : ℕ} {t : List Byte} {n n' : ℕ} (h : IsNumber base t n) (h' : IsNumber base t n') : n = n' := by
  -- the x of a prefix is no digit of the base that the 0 stands for
  have hno : ∀ ds, (base = 0 ∨ base = 16) →
      ¬ ∀ c ∈ chr '0' :: chr 'x' :: ds, valid (deduced base (chr '0' :: chr 'x' :: ds)) c = true := by
    intro ds hb hv
    have hx := hv (chr 'x') (by simp)
    rcases hb with rfl | rfl
    · exact absurd (show valid 8 (chr 'x') = true from hx) (by decide)
    · exact absurd (show valid 16 (chr 'x') = true from hx) (by decide)
  cases h with
  | digits hne hv =>
    cases h' with
    | digits hne' hv' => rfl
    | hex hb hne' hv' => exact absurd hv (hno _ hb)
  | hex hb hne hv =>
    cases h' with
    | digits hne' hv' => exact absurd hv' (hno _ hb)
    | hex hb' hne' hv' => rfl

theorem signOf_append (u : List Byte) : signOf u ++ u.drop (signOf u).length = u := by
  unfold signOf
  rcases u with _ | ⟨c, u⟩
  · simp
  · simp only [List.head?_cons, Option.some.injEq]
    split_ifs with h1 h2
    · simp [h1]
    · simp [h2]
    · simp

theorem unsigned_append (l : List Byte) :
    l.takeWhile isBlank ++ signOf (l.dropWhile isBlank) ++ unsigned l = l := by
  rw [List.append_assoc, unsigned, signOf_append, List.takeWhile_append_dropWhile]

/-- blanks, a sign and something that starts with a digit: strtol takes them apart the same way -/
theorem take_apart {bl sg u : List Byte} (hbl : ∀ c ∈ bl, isBlank c = true)
    (hsg : sg = [] ∨ sg = [chr '+'] ∨ sg = [chr '-']) (hu : ∃ c u', u = c :: u' ∧ (dig c).isSome = true) :
    (bl ++ sg ++ u).takeWhile isBlank = bl ∧ signOf ((bl ++ sg ++ u).dropWhile isBlank) = sg ∧
      unsigned (bl ++ sg ++ u) = u := by
  obtain ⟨c, u', rfl, hc⟩ := hu
  obtain ⟨hc1, hc2, hc3⟩ := dig_char c hc
  -- the blanks end at the sign, or at the first digit
  have hstop : (sg ++ c :: u').takeWhile isBlank = [] := by
    rcases hsg with rfl | rfl | rfl
    · exact List.takeWhile_cons_of_neg (by simp [hc1])
    · exact List.takeWhile_cons_of_neg (by decide)
    · exact List.takeWhile_cons_of_neg (by decide)
  have htake : (bl ++ sg ++ c :: u').takeWhile isBlank = bl := by
    rw [List.append_assoc, List.takeWhile_append_of_pos hbl, hstop, List.append_nil]
  have hdrop : (bl ++ sg ++ c :: u').dropWhile isBlank = sg ++ c :: u' := by
    have h := List.takeWhile_append_dropWhile (p := isBlank) (l := bl ++ sg ++ c :: u')
    rw [htake] at h
    exact List.append_cancel_left (h.trans (List.append_assoc bl sg (c :: u')))
  have hsign : signOf (sg ++ c :: u') = sg := by
    rcases hsg with rfl | rfl | rfl
    · simp [signOf, hc2, hc3]
    · rfl
    · rfl
  refine ⟨htake, by rw [hdrop, hsign], ?_⟩
  rw [unsigned, hdrop, hsign, List.drop_left]

/-- a subject in front of l starts with the blanks and the sign that strtol consumes -/
theorem subject_iff (base : ℕ) (l t : List Byte) (k : ℤ) :
    t <+: l ∧ IsSubject base t k ↔ ∃ num n, num <+: unsigned l ∧ IsNumber base num n ∧
      t = l.takeWhile isBlank ++ signOf (l.dropWhile isBlank) ++ num ∧ k = signed (signOf (l.dropWhile isBlank)) n := by
  constructor
  · rintro ⟨⟨r, rfl⟩, bl, sg, num, n, rfl, hbl, hsg, hnum, rfl⟩
    obtain ⟨c, num', rfl, hc⟩ := hnum.head
    obtain ⟨htake, hsign, hrest⟩ := take_apart hbl hsg ⟨c, num' ++ r, rfl, hc⟩
    have happ : bl ++ sg ++ c :: num' ++ r = bl ++ sg ++ c :: (num' ++ r) := by simp
    refine ⟨c :: num', n, ?_, hnum, by rw [happ, htake, hsign], by rw [happ, hsign]⟩
    rw [happ, hrest]
    exact List.prefix_append (c :: num') r
  · rintro ⟨num, n, ⟨r, hr⟩, hnum, rfl, rfl⟩
    refine ⟨⟨r, ?_⟩, _, _, num, n, rfl, fun c hc => List.mem_takeWhile_imp hc, ?_, hnum, rfl⟩
    · rw [List.append_assoc, hr, unsigned_append]
    · unfold signOf
      split_ifs <;> simp

section Number

variable {base : ℕ} {u : List Byte}

/-- "0x" without a hex digit behind it -/
def BarePrefix (base : ℕ) (u : List Byte) : Prop := Hex base u ∧ digitsOf base u = []

theorem digitsOf_hex (h : Hex base u) : digitsOf base u = (u.drop 2).takeWhile (valid 16) := by
  rw [digitsOf, prefixLength, if_pos h, digitBase, if_pos h]

theorem consumed_le (base : ℕ) (u : List Byte) : prefixLength base u + (digitsOf base u).length ≤ u.length := by
  have hp : prefixLength base u ≤ u.length := by
    unfold prefixLength
    split_ifs with hx hz
    · exact hx.2.length_le
    · obtain ⟨w, rfl⟩ := List.head?_eq_some_iff.1 hz.2
      simp
    · exact Nat.zero_le _
  have hd := (List.takeWhile_prefix (valid (digitBase base u)) (l := u.drop (prefixLength base u))).length_le
  rw [List.length_drop] at hd
  unfold digitsOf
  omega

/-- no number in front of u is longer than what strtol consumes -/
theorem number_length_le (hbare : ¬ BarePrefix base u) {t : List Byte} {n : ℕ} (ht : t <+: u) (h : IsNumber base t n) :
    t.length ≤ prefixLength base u + (digitsOf base u).length := by
  cases h with
  | digits hne hv =>
    rw [deduced_front hne ht] at hv
    have hle := (prefix_takeWhile ht hv).length_le
    by_cases hx : Hex base u
    · rw [takeWhile_of_hex hx] at hle
      rw [prefixLength, if_pos hx]
      exact hle.trans (by simp; omega)
    · rw [digitsOf, prefixLength, if_neg hx, digitBase, if_neg hx]
      split_ifs with hz
      · obtain ⟨w, rfl⟩ : ∃ w, u = chr '0' :: w := List.head?_eq_some_iff.1 hz.2
        have h0 : valid (deduced base (chr '0' :: w)) (chr '0') = true := by
          rw [hz.1]
          exact show valid 8 (chr '0') = true by decide
        rw [List.takeWhile_cons_of_pos h0] at hle
        rw [List.length_cons] at hle
        simp only [List.drop_one, List.tail_cons]
        omega
      · simpa using hle
  | hex hb hne hv =>
    have hx : Hex base u := ⟨hb, (List.prefix_append [chr '0', chr 'x'] _).trans ht⟩
    obtain ⟨r, rfl⟩ := ht
    have hle := (prefix_takeWhile (List.prefix_append _ r) hv).length_le
    rw [digitsOf_hex hx, prefixLength, if_pos hx]
    simp only [List.length_cons, List.cons_append, List.drop_succ_cons, List.drop_zero]
    omega

/-- what strtol consumes is a number, unless it is a bare prefix or no digit follows -/
theorem number_consumed (hbare : ¬ BarePrefix base u) (hdigit : u.head?.any (valid (deduced base u)) = true) :
    IsNumber base (u.take (prefixLength base u + (digitsOf base u).length)) (number (digitBase base u) (digitsOf base u)) := by
  by_cases hx : Hex base u
  · have hne : digitsOf base u ≠ [] := fun h => hbare ⟨hx, h⟩
    have hds := digitsOf_hex hx
    have hx' := hx
    obtain ⟨hb, w, rfl⟩ := hx
    have hvalid : ∀ c ∈ digitsOf base ([chr '0', chr 'x'] ++ w), valid 16 c = true := by
      intro c hc
      rw [hds] at hc
      exact List.mem_takeWhile_imp hc
    have htake : ([chr '0', chr 'x'] ++ w).take (2 + (digitsOf base ([chr '0', chr 'x'] ++ w)).length) =
        chr '0' :: chr 'x' :: digitsOf base ([chr '0', chr 'x'] ++ w) := by
      rw [hds]
      simp [Nat.add_comm 2, take_takeWhile]
    rw [prefixLength, if_pos hx', digitBase, if_pos hx', htake]
    exact .hex hb hne hvalid
  · have hne := (takeWhile_ne_nil_iff _ u).2 hdigit
    have hpre : u.takeWhile (valid (deduced base u)) <+: u := List.takeWhile_prefix _
    have hded : deduced base _ = deduced base u := deduced_front hne hpre
    have hnum : IsNumber base (u.takeWhile (valid (deduced base u)))
        (number (deduced base u) (u.takeWhile (valid (deduced base u)))) := by
      have h : IsNumber base _ _ := .digits hne (by rw [hded]; exact fun c hc => List.mem_takeWhile_imp hc)
      rwa [hded] at h
    have htake := take_takeWhile (valid (deduced base u)) u
    rw [digitsOf, prefixLength, if_neg hx, digitBase, if_neg hx]
    split_ifs with hz
    · obtain ⟨w, rfl⟩ : ∃ w, u = chr '0' :: w := List.head?_eq_some_iff.1 hz.2
      have h0 : valid (deduced base (chr '0' :: w)) (chr '0') = true := by
        rw [hz.1]
        exact show valid 8 (chr '0') = true by decide
      rw [List.takeWhile_cons_of_pos h0] at hnum htake
      rw [List.length_cons] at htake
      rw [List.drop_one, List.tail_cons, Nat.add_comm, htake]
      rwa [number_zero_cons] at hnum
    · rw [List.drop_zero, Nat.zero_add, htake]
      exact hnum

/-- where no digit follows there is no number -/
theorem no_number (hdigit : ¬ u.head?.any (valid (deduced base u)) = true) {t : List Byte} {n : ℕ} (ht : t <+: u) :
    ¬ IsNumber base t n := by
  intro h
  cases h with
  | digits hne hv =>
    rw [deduced_front hne ht] at hv
    have hle := (prefix_takeWhile ht hv).length_le
    rw [not_not.1 (mt (takeWhile_ne_nil_iff _ u).1 hdigit)] at hle
    exact hne (List.length_eq_zero_iff.1 (by simpa using hle))
  | hex hb hne hv =>
    have hx : Hex base u := ⟨hb, (List.prefix_append [chr '0', chr 'x'] _).trans ht⟩
    apply hdigit
    rw [← takeWhile_ne_nil_iff, takeWhile_of_hex hx]
    simp

theorem consumed_none (hdigit : ¬ u.head?.any (valid (deduced base u)) = true) :
    prefixLength base u = 0 ∧ digitsOf base u = [] := by
  have hx : ¬ Hex base u := by
    intro hx
    apply hdigit
    rw [← takeWhile_ne_nil_iff, takeWhile_of_hex hx]
    simp
  have hz : ¬ (base = 0 ∧ u.head? = some (chr '0')) := by
    rintro ⟨rfl, h⟩
    apply hdigit
    rw [deduced, if_neg (by simp), if_pos h, h]
    decide
  have hp : prefixLength base u = 0 := by rw [prefixLength, if_neg hx, if_neg hz]
  refine ⟨hp, ?_⟩
  rw [digitsOf, hp, List.drop_zero, digitBase, if_neg hx]
  exact not_not.1 (mt (takeWhile_ne_nil_iff _ u).1 hdigit)

/-- behind a bare prefix the only number is the 0 -/
theorem number_bare (h : BarePrefix base u) : [chr '0'] <+: u ∧ IsNumber base [chr '0'] 0 ∧
    ∀ t n, t <+: u → IsNumber base t n → t.length ≤ 1 := by
  obtain ⟨hx, hnil⟩ := h
  refine ⟨(List.prefix_append [chr '0'] [chr 'x']).trans hx.2, ?_, fun t n ht hnum => ?_⟩
  · have hv : ∀ c ∈ [chr '0'], valid (deduced base [chr '0']) c = true := by
      rcases hx.1 with rfl | rfl <;> decide
    have h : IsNumber base [chr '0'] (number (deduced base [chr '0']) [chr '0']) := .digits (by simp) hv
    rwa [number_zero_cons] at h
  · cases hnum with
    | digits hne hv =>
      rw [deduced_front hne ht] at hv
      have hle := (prefix_takeWhile ht hv).length_le
      rwa [takeWhile_of_hex hx] at hle
    | hex hb hne hv =>
      obtain ⟨r, rfl⟩ := ht
      have hle := (prefix_takeWhile (List.prefix_append _ r) hv).length_le
      rw [digitsOf_hex hx] at hnil
      simp only [List.cons_append, List.drop_succ_cons, List.drop_zero] at hnil
      rw [hnil] at hle
      exact absurd (List.length_eq_zero_iff.1 (by simpa using hle)) hne

theorem barePrefix_iff : BarePrefix base u ↔ Hex base u ∧ ¬ (u.drop 2).head?.any (valid 16) = true := by
  unfold BarePrefix
  constructor
  · rintro ⟨hx, h⟩
    rw [digitsOf_hex hx] at h
    exact ⟨hx, fun hd => (takeWhile_ne_nil_iff _ _).2 hd h⟩
  · rintro ⟨hx, h⟩
    rw [digitsOf_hex hx]
    exact ⟨hx, not_not.1 (mt (takeWhile_ne_nil_iff _ _).1 h)⟩

end Number

/-! ## The value and endptr -/

theorem unsigned_eq_iff (l : List Byte) :
    unsigned l = l ↔ (l.takeWhile isBlank).length + (signOf (l.dropWhile isBlank)).length = 0 := by
  have hlen := congrArg List.length (unsigned_append l)
  rw [List.length_append, List.length_append] at hlen
  constructor
  · intro h
    rw [h] at hlen
    omega
  · intro h
    have h1 := List.length_eq_zero_iff.1 (Nat.eq_zero_of_add_eq_zero_right h)
    have h2 := List.length_eq_zero_iff.1 (Nat.eq_zero_of_add_eq_zero_left h)
    have happ := unsigned_append l
    rwa [h1, h2] at happ

section Delimits

variable {l : List Byte} {base : ℕ}

/-- behind a bare prefix endptr is one too far: behind the x -/
theorem not_delimits_bare (h : BarePrefix base (unsigned l)) :
    ¬ Delimits base l (BitVec.ofInt 32 (valueOf base l)) (endOf base l) := by
  intro hd
  obtain ⟨hpre, hzero, hmax⟩ := number_bare h
  obtain ⟨hpt, hsub⟩ := (subject_iff base l _ _).2 ⟨_, 0, hpre, hzero, rfl, rfl⟩
  have hlen := (hd.subject _ _ hpt hsub ?_).2
  · rw [endOf, prefixLength, if_pos h.1] at hlen
    simp only [List.length_append, List.length_singleton] at hlen
    omega
  · intro t' k' ht' hs'
    obtain ⟨num, n, hnp, hnum, rfl, -⟩ := (subject_iff base l t' k').1 ⟨ht', hs'⟩
    have := hmax num n hnp hnum
    simp only [List.length_append, List.length_singleton]
    omega

/-- what is consumed is the longest number, and the subject ends behind it -/
theorem delimits_number (hbare : ¬ BarePrefix base (unsigned l))
    (hdigit : (unsigned l).head?.any (valid (deduced base (unsigned l))) = true) :
    Delimits base l (BitVec.ofInt 32 (valueOf base l)) (endOf base l) := by
  have hnum := number_consumed hbare hdigit
  have hpre := List.take_prefix (prefixLength base (unsigned l) + (digitsOf base (unsigned l)).length) (unsigned l)
  obtain ⟨hpt, hsub⟩ := (subject_iff base l _ _).2 ⟨_, _, hpre, hnum, rfl, rfl⟩
  constructor
  · intro t k ht hs hmax
    obtain ⟨num, n, hnp, hn, rfl, rfl⟩ := (subject_iff base l t k).1 ⟨ht, hs⟩
    have hle := hmax _ _ hpt hsub
    have hge := number_length_le hbare hnp hn
    have hfit := consumed_le base (unsigned l)
    simp only [List.length_append, List.length_take] at hle
    have hlen : num.length = prefixLength base (unsigned l) + (digitsOf base (unsigned l)).length := by omega
    rw [List.prefix_iff_eq_take.1 hnp, hlen] at hn
    unfold valueOf endOf
    rw [hnum.unique hn, List.length_append, List.length_append, hlen]
    exact ⟨rfl, Nat.add_assoc _ _ _⟩
  · intro hno
    exact absurd hsub (hno _ _ hpt)

/-- where there is no number nothing is to be consumed, and the blanks and the sign have been -/
theorem delimits_none_iff (hdigit : ¬ (unsigned l).head?.any (valid (deduced base (unsigned l))) = true) :
    Delimits base l (BitVec.ofInt 32 (valueOf base l)) (endOf base l) ↔ unsigned l = l := by
  obtain ⟨hp, hds⟩ := consumed_none hdigit
  have hnone : ∀ t k, t <+: l → ¬ IsSubject base t k := by
    intro t k ht hs
    obtain ⟨num, n, hnp, hn, -⟩ := (subject_iff base l t k).1 ⟨ht, hs⟩
    exact no_number hdigit hnp hn
  have hzero : signed (signOf (l.dropWhile isBlank)) (number (digitBase base (unsigned l)) []) = 0 := by
    unfold signed
    split_ifs <;> rfl
  unfold valueOf endOf
  rw [hp, hds, hzero, List.length_nil, Nat.add_zero, unsigned_eq_iff]
  constructor
  · intro h
    exact (h.none hnone).2
  · intro h
    exact ⟨fun t k ht hs => absurd hs (hnone t k ht), fun _ => ⟨rfl, h⟩⟩

end Delimits

/-- the string is accepted exactly where the value and the end are those of the subject -/
theorem delimits_iff (l : List Byte) (base : ℕ) :
    Delimits base l (BitVec.ofInt 32 (valueOf base l)) (endOf base l) ↔ Accepted base l := by
  by_cases hbare : BarePrefix base (unsigned l)
  · have hnot : ¬ Accepted base l := fun h => (barePrefix_iff.1 hbare).2 (h.2 hbare.1)
    exact iff_of_false (not_delimits_bare hbare) hnot
  have hx : Hex base (unsigned l) → ((unsigned l).drop 2).head?.any (valid 16) = true := by
    intro hx
    by_contra hno
    exact hbare (barePrefix_iff.2 ⟨hx, hno⟩)
  by_cases hdigit : (unsigned l).head?.any (valid (deduced base (unsigned l))) = true
  · exact iff_of_true (delimits_number hbare hdigit) ⟨Or.inl hdigit, hx⟩
  rw [delimits_none_iff hdigit]
  constructor
  · intro h
    exact ⟨Or.inr h, hx⟩
  · rintro ⟨h | h, -⟩
    · exact absurd h hdigit
    · exact h

/-- **strtol.** It delimits the subject exactly on the strings that are accepted. -/
theorem strtol_delimits_iff (l rest : List Byte) (base : ℕ) : ∃ v n,
    strtol (l ++ 0#8 :: rest) base = some (v, n) ∧ (Delimits base l v n ↔ Accepted base l) :=
  ⟨_, _, strtol_eq l rest base, delimits_iff l base⟩

/-- A sign on its own is consumed, and so is the x of "0xg". -/
theorem strtol_consumes_sign :
    strtol (bytes "-" ++ [0#8]) 10 = some (0, 1) ∧ ¬ Delimits 10 (bytes "-") 0 1 ∧
      strtol (bytes "0xg" ++ [0#8]) 16 = some (0, 2) ∧ ¬ Delimits 16 (bytes "0xg") 0 2 := by
  refine ⟨by decide, ?_, by decide, ?_⟩
  · intro h
    exact absurd ((delimits_iff (bytes "-") 10).1 h) (by decide)
  · intro h
    exact absurd ((delimits_iff (bytes "0xg") 16).1 h) (by decide)

end Jos.Strtol
