/-
Numerals in the format against '*' and an argument.

Both routes end in `process_precision`, except for the numeral 0, which the switch takes for the flag '0'. As a width
that makes no difference to speak of, since a width of 0 pads nothing. As a precision it is lost, and the padding
changes.

- `Directive.starred`: the same directive with '*' in place of its numerals.
- **`star_agrees_iff`**: when the two print the same.
-/
import Jos.Printfmt.Number
import Jos.Printfmt.StringConv

namespace Jos.Printfmt

/-! ## '*' in place of a numeral -/

def Field.starred : Field → Field
  | .lit n => .star (BitVec.ofNat 32 n)
  | .star w => .star w

def Directive.starred (d : Directive) : Directive :=
  { d with width := d.width.map Field.starred, precision := d.precision.map Field.starred }

/-- the field is an int that is not negative -/
def Field.IsSize : Field → Prop
  | .lit n => n < 2147483648
  | .star w => 0 ≤ w.toInt

/-- the fields of d are ints that are not negative -/
structure Directive.Sized (d : Directive) : Prop where
  width : ∀ f ∈ d.width, f.IsSize
  precision : ∀ f ∈ d.precision, f.IsSize

theorem Field.IsSize.nonneg {f : Field} (h : f.IsSize) : 0 ≤ f.val := by
  cases f with
  | lit n =>
    have hn : n < 2147483648 := h
    rw [Field.val, int32_of_lt (by omega) (by omega)]
    omega
  | star w => exact h

theorem Field.starred_ne (f : Field) : f.starred ≠ .lit 0 := by
  cases f <;> simp [Field.starred]

/-- '*' passes the value of the numeral -/
theorem Field.IsSize.scanned_starred {f : Field} (h : f.IsSize) : f.starred.scanned = f.val := by
  cases f with
  | lit n =>
    have hn : n < 2147483648 := h
    rw [Field.scanned_of_ne (Field.starred_ne _), Field.starred, Field.val, Field.val, int32_of_lt (by omega) (by omega),
      BitVec.toInt_eq_toNat_of_lt (by rw [BitVec.toNat_ofNat]; omega), BitVec.toNat_ofNat]
    omega
  | star w => exact Field.scanned_of_ne (Field.starred_ne (.star w))

section Fields

variable {d : Directive}

theorem map_starred_ne (f : Option Field) : f.map Field.starred ≠ some (.lit 0) := by
  cases f with
  | none => simp
  | some f => simpa using f.starred_ne

theorem elim_starred {f : Option Field} (h : ∀ g ∈ f, g.IsSize) :
    (f.map Field.starred).elim (-1) Field.scanned = f.elim (-1) Field.val := by
  cases f with
  | none => rfl
  | some f => exact (h f rfl).scanned_starred

theorem starred_padc (d : Directive) : d.starred.padc = padChar d.flags :=
  if_neg (not_or.2 ⟨map_starred_ne _, map_starred_ne _⟩)

theorem starred_columns (h : d.Sized) :
    d.starred.columns = if d.width = some (.lit 0) ∧ d.precision = none then 0 else d.columns := by
  obtain ⟨flags, width, precision, long, conv⟩ := d
  have hw := elim_starred h.width
  simp only [Directive.columns, Directive.starred, Option.map_eq_none_iff] at hw ⊢
  rw [hw]
  cases width with
  | none => simp
  | some f =>
    have h0 : (Field.lit 0).val = 0 := rfl
    have hval := (h.width f rfl).nonneg
    simp only [Option.elim_some, Option.some.injEq]
    by_cases hf : f = .lit 0
    · subst hf
      cases precision <;> simp [h0, Field.scanned]
    · simp [hf, Field.scanned]

theorem starred_limit (h : d.Sized) : d.starred.limit = if d.precision = some (.lit 0) then 0 else d.limit := by
  have hp := elim_starred h.precision
  unfold Directive.limit Directive.starred
  rw [hp]
  cases d.precision with
  | none => simp
  | some f =>
    have h0 : (Field.lit 0).val = 0 := rfl
    simp only [Option.elim_some, Option.some.injEq, Field.scanned]
    split_ifs with hf
    · rw [hf, h0]
    · rfl

/-- behind the dot the width is that of the field, or 0 -/
theorem columns_of_precision (h : d.Sized) (hp : d.precision ≠ none) : d.columns = d.width.elim 0 Field.val := by
  unfold Directive.columns
  rw [if_neg hp]
  cases hw : d.width with
  | none => rfl
  | some f =>
    have hval := (h.width f hw).nonneg
    simp only [Option.elim_some, Field.scanned]
    split_ifs with hf
    · rw [hf]
      rfl
    · exact max_eq_left hval

theorem columns_nonneg (h : d.Sized) : -1 ≤ d.columns := by
  by_cases hp : d.precision = none
  · unfold Directive.columns
    rw [if_pos hp]
    cases hw : d.width with
    | none => exact le_refl _
    | some f =>
      have hval := (h.width f hw).nonneg
      simp only [Option.elim_some, Field.scanned]
      split_ifs <;> omega
  · rw [columns_of_precision h hp]
    cases hw : d.width with
    | none => decide
    | some f => exact le_trans (by decide) (h.width f hw).nonneg

end Fields

/-! ## Numbers -/

/-- the numeric conversions -/
inductive Numeric where
  | unsigned (r : Radix)
  | d
  | p
deriving DecidableEq, Repr

def Numeric.char : Numeric → Byte
  | .unsigned r => r.char
  | .d => chr 'd'
  | .p => chr 'p'

/-- x as the argument: a pointer has no length -/
def Numeric.arg (lflag x : ℤ) : Numeric → Arg
  | .p => .word (BitVec.ofInt 32 x)
  | _ => longArg lflag x

/-- what comes before the padding -/
def Numeric.lead (lflag x : ℤ) : Numeric → List Word
  | .unsigned _ => []
  | .d => sign (signedVal lflag x)
  | .p => [uchar (chr '0'), uchar (chr 'x')]

def Numeric.digits (lflag x : ℤ) : Numeric → List Word
  | .unsigned r => unsignedText r.base (unsignedVal lflag x)
  | .d => unsignedText base10 (signedVal lflag x).natAbs
  | .p => unsignedText base16 (BitVec.ofInt 32 x).toNat

theorem renders_numeric (c : Numeric) {d : Directive} (hd : d.conv = c.char) (hw : -1 ≤ d.columns) (x : ℤ) :
    Renders d.text (d.args ++ [c.arg d.lflag x]) (c.lead d.lflag x ++ padded d.padc d.columns (c.digits d.lflag x)) := by
  cases c with
  | unsigned r => exact renders_uint r hd hw x
  | d => exact renders_int hd hw x
  | p => exact renders_ptr hd hw _

theorem Numeric.digits_pos (c : Numeric) (lflag x : ℤ) : 0 < (c.digits lflag x).length := by
  cases c <;> exact length_unsignedText_pos _ _

/-- the two print the same text -/
def SameOutput (d : Directive) (a : Arg) : Prop :=
  ∃ t, Renders d.text (d.args ++ [a]) t ∧ Renders d.starred.text (d.starred.args ++ [a]) t

theorem sameOutput_iff {d : Directive} {a : Arg} {t t' : List Word} (h : Renders d.text (d.args ++ [a]) t)
    (h' : Renders d.starred.text (d.starred.args ++ [a]) t') : SameOutput d a ↔ t = t' := by
  constructor
  · rintro ⟨s, hs, hs'⟩
    rw [h.unique hs, h'.unique hs']
  · rintro rfl
    exact ⟨t, h, h'⟩

theorem schar_injective {a b : Byte} (h : schar a = schar b) : a = b := by
  rw [← low_schar a, h, low_schar]

/-- two padding characters make a difference where there is padding -/
theorem padded_eq_iff (a b : Byte) (w : ℤ) (l : List Word) : padded a w l = padded b w l ↔ a = b ∨ w ≤ l.length := by
  unfold padded
  rw [List.append_cancel_right_eq, List.replicate_inj]
  constructor
  · rintro ⟨-, h | h⟩
    · right
      omega
    · exact Or.inl (schar_injective h)
  · rintro (rfl | h)
    · simp
    · simp
      omega

/-- a width of 0 and one of -1 pad a numeral alike -/
theorem padded_starred {d : Directive} (h : d.Sized) (hp : d.precision ≠ some (.lit 0)) {l : List Word} (hl : 0 < l.length) :
    padded d.padc d.columns l = padded d.starred.padc d.starred.columns l := by
  by_cases hw : d.width = some (.lit 0)
  · have hc : d.columns ≤ 0 := by
      unfold Directive.columns
      rw [hw]
      split_ifs <;> decide
    rw [starred_columns h, padded_of_le (by omega)]
    split_ifs
    · rw [padded_of_le (by omega)]
    · rw [padded_of_le (by omega)]
  · have hpadc : d.padc = padChar d.flags := if_neg (not_or.2 ⟨hw, hp⟩)
    rw [starred_columns h, if_neg fun h => hw h.1, starred_padc, hpadc]

theorem numeric_agrees_iff (c : Numeric) {d : Directive} (hd : d.conv = c.char) (h : d.Sized) (x : ℤ) :
    SameOutput d (c.arg d.lflag x) ↔ (d.precision = some (.lit 0) →
      padChar d.flags = chr '0' ∨ d.width.elim 0 Field.val ≤ (c.digits d.lflag x).length) := by
  have hcols : -1 ≤ d.starred.columns := by
    rw [starred_columns h]
    split_ifs
    · decide
    · exact columns_nonneg h
  rw [sameOutput_iff (renders_numeric c hd (columns_nonneg h) x) (renders_numeric c (d := d.starred) hd hcols x)]
  change _ = c.lead d.lflag x ++ padded _ _ (c.digits d.lflag x) ↔ _
  rw [List.append_cancel_left_eq]
  by_cases hp : d.precision = some (.lit 0)
  · have hpadc : d.padc = chr '0' := if_pos (Or.inr hp)
    have hcol : d.starred.columns = d.columns := by
      rw [starred_columns h, if_neg]
      rintro ⟨-, hnone⟩
      rw [hp] at hnone
      cases hnone
    rw [hcol, starred_padc, hpadc, padded_eq_iff, columns_of_precision h (by rw [hp]; simp)]
    simp only [hp, true_implies, eq_comm]
  · exact iff_of_true (padded_starred h hp (c.digits_pos _ _)) fun h0 => absurd h0 hp

/-! ## Strings -/

/-- what pads a string of which nothing is printed -/
def fillChar (flags : List Flag) : Byte := if padChar flags = chr '-' then chr ' ' else padChar flags

theorem padChar_cases (flags : List Flag) :
    padChar flags = chr ' ' ∨ padChar flags = chr '-' ∨ padChar flags = chr '0' := by
  unfold padChar
  cases hf : (flags.filter (· ≠ .sharp)).getLast? with
  | none => exact Or.inl rfl
  | some f =>
    have hmem := List.mem_of_getLast? hf
    cases f with
    | minus => exact Or.inr (Or.inl rfl)
    | zero => exact Or.inr (Or.inr rfl)
    | sharp => simp at hmem

theorem fillChar_cases (flags : List Flag) : fillChar flags = chr ' ' ∨ fillChar flags = chr '0' := by
  unfold fillChar
  rcases padChar_cases flags with h | h | h <;> rw [h] <;> decide

theorem fillChar_zero_iff (flags : List Flag) : fillChar flags = chr '0' ↔ padChar flags = chr '0' := by
  unfold fillChar
  rcases padChar_cases flags with h | h | h <;> rw [h] <;> decide

/-- precision 0 prints the padding only -/
theorem stringText_nothing (flags : List Flag) {w : ℤ} (h0 : 0 ≤ w) (h1 : w < 2147483648) (altflag : Bool) (l : List Byte) :
    stringText (padChar flags) w 0 altflag l = List.replicate w.toNat (schar (fillChar flags)) := by
  have hm : shownCount 0 l.length = 0 := by simp [shownCount]
  have hn : min l.length (sizeT 0) = 0 := by simp [sizeT]
  have hw : int32 w = w := int32_of_lt (by omega) h1
  have hblank : schar (chr ' ') = uchar (chr ' ') := rfl
  unfold stringText fillChar
  simp only [hm, hn, Nat.cast_zero, sub_zero, hw, List.take_zero, List.map_nil, List.nil_append, List.append_nil]
  split_ifs with hleft hc hc
  · exact absurd hc hleft.2
  · have hz : blanks (int32 (min w 0)) = [] := by
      rw [min_eq_right h0]
      rfl
    rw [hz, List.append_nil]
  · rw [blanks, hblank]
  · have hz : w = 0 := by
      by_contra hne
      exact hleft ⟨by omega, hc⟩
    rw [hz]
    rfl

theorem shown_eq_iff : ∀ (altflag : Bool) (b : Byte), (shown altflag b = schar (chr ' ') ↔ b = chr ' ') ∧
    (shown altflag b = schar (chr '0') ↔ b = chr '0') := by
  decide

theorem shown_eq_fillChar (flags : List Flag) (altflag : Bool) (b : Byte) :
    shown altflag b = schar (fillChar flags) ↔ b = fillChar flags := by
  rcases fillChar_cases flags with h | h
  · rw [h]
    exact (shown_eq_iff altflag b).1
  · rw [h]
    exact (shown_eq_iff altflag b).2

theorem map_shown_eq_replicate (flags : List Flag) (altflag : Bool) (l : List Byte) (n : ℕ) :
    l.map (shown altflag) = List.replicate n (schar (fillChar flags)) ↔ l.length = n ∧ ∀ b ∈ l, b = fillChar flags := by
  rw [List.eq_replicate_iff, List.length_map]
  simp [shown_eq_fillChar]

/-- padding does not shorten a text -/
theorem length_le_stringText (c : Byte) (w : ℤ) (altflag : Bool) (l : List Byte) :
    l.length ≤ (stringText c w (-1) altflag l).length := by
  unfold stringText
  simp only [shownCount_all, List.take_length]
  split_ifs
  · simp only [List.length_append, List.length_map]
    omega
  · simp only [List.length_append, List.length_map]
    omega

/-- a text that fits its field, under '0', against padding only -/
theorem stringText_filled_iff (flags : List Flag) {w : ℤ} (h1 : w < 2147483648) (altflag : Bool) {l : List Byte}
    (hle : l.length ≤ w) :
    stringText (chr '0') w (-1) altflag l = List.replicate w.toNat (schar (fillChar flags)) ↔
      (w = l.length ∨ padChar flags = chr '0') ∧ ∀ b ∈ l, b = fillChar flags := by
  rw [stringText_left h1 hle (by decide) altflag, List.append_eq_replicate_iff, List.length_map, map_shown_eq_replicate,
    List.length_replicate, List.replicate_inj]
  have hroom : (w - l.length).toNat = 0 ↔ w = l.length := by omega
  have hzero : schar (chr '0') = schar (fillChar flags) ↔ padChar flags = chr '0' := by
    rw [← fillChar_zero_iff]
    exact ⟨fun h => (schar_injective h).symm, fun h => by rw [h]⟩
  rw [hroom, hzero]
  constructor
  · rintro ⟨-, ⟨-, hpad⟩, -, hall⟩
    exact ⟨hpad, hall⟩
  · rintro ⟨hpad, hall⟩
    exact ⟨by omega, ⟨rfl, hpad⟩, rfl, hall⟩

/-- the whole text under '0', against padding only -/
theorem stringText_everything_iff (flags : List Flag) {w : ℤ} (h0 : 0 ≤ w) (h1 : w < 2147483648) (altflag : Bool)
    (l : List Byte) :
    stringText (chr '0') w (-1) altflag l = List.replicate w.toNat (schar (fillChar flags)) ↔
      l.length ≤ w ∧ (w = l.length ∨ padChar flags = chr '0') ∧ ∀ b ∈ l, b = fillChar flags := by
  constructor
  · intro h
    -- the text is no longer than the field, so that nothing wraps around
    have hle : l.length ≤ w := by
      have hlen := length_le_stringText (chr '0') w altflag l
      rw [h, List.length_replicate] at hlen
      omega
    exact ⟨hle, (stringText_filled_iff flags h1 altflag hle).1 h⟩
  · rintro ⟨hle, h⟩
    exact (stringText_filled_iff flags h1 altflag hle).2 h

/-- without a field nothing pads: a width of -1 against one of 0 -/
theorem stringText_none_iff (c c' : Byte) (altflag : Bool) (l : List Byte) :
    stringText c (-1) (-1) altflag l = stringText c' 0 (-1) altflag l ↔ l.length % 4294967296 < 2147483648 := by
  unfold stringText
  simp only [shownCount_all, List.take_length]
  rw [if_neg (by simp), if_neg (by simp), List.append_cancel_left_eq, blanks, blanks, List.replicate_inj]
  unfold int32
  omega

/-- a width that is not positive makes no use of the padding character -/
theorem stringText_zero (c c' : Byte) (precision : ℤ) (altflag : Bool) (l : List Byte) :
    stringText c 0 precision altflag l = stringText c' 0 precision altflag l := by
  unfold stringText
  rw [if_neg (by simp), if_neg (by simp)]

/-- what has to hold for a text l where the numeral 0 is read as a flag -/
def StringAgrees (flags : List Flag) (width precision : Option Field) (l : List Byte) : Prop :=
  if precision = some (.lit 0) then
    l.length ≤ width.elim 0 Field.val ∧ (width.elim 0 Field.val = l.length ∨ padChar flags = chr '0') ∧
      ∀ b ∈ l, b = fillChar flags
  else width = some (.lit 0) ∧ precision = none → l.length % 4294967296 < 2147483648

theorem string_agrees_iff {d : Directive} (hd : d.conv = chr 's') (h : d.Sized) {p : Option (List Byte)} {l rest : List Byte}
    (hp : orNull p = l ++ 0#8 :: rest) (hl : 0#8 ∉ l) :
    SameOutput d (.str p) ↔ StringAgrees d.flags d.width d.precision l := by
  rw [sameOutput_iff (renders_string hd hp hl) (renders_string (d := d.starred) hd hp hl), starred_padc, starred_columns h,
    starred_limit h]
  change stringText _ _ _ (decide (.sharp ∈ d.flags)) l = stringText _ _ _ (decide (.sharp ∈ d.flags)) l ↔ _
  unfold StringAgrees
  by_cases hprec : d.precision = some (.lit 0)
  · have hpadc : d.padc = chr '0' := if_pos (Or.inr hprec)
    have hlimit : d.limit = -1 := by
      rw [Directive.limit, hprec]
      rfl
    have hne : ¬ (d.width = some (.lit 0) ∧ d.precision = none) := by simp [hprec]
    have hcols := columns_of_precision h (by rw [hprec]; simp)
    have hlt := d.columns_lt
    have hnn : 0 ≤ d.width.elim 0 Field.val := by
      cases hw : d.width with
      | none => exact le_refl 0
      | some f => exact (h.width f hw).nonneg
    rw [if_pos hprec, if_pos hprec, if_neg hne, hpadc, hlimit]
    rw [hcols] at hlt ⊢
    rw [stringText_nothing d.flags hnn hlt]
    exact stringText_everything_iff d.flags hnn hlt _ l
  · rw [if_neg hprec, if_neg hprec]
    by_cases hw : d.width = some (.lit 0)
    · have hpadc : d.padc = chr '0' := if_pos (Or.inl hw)
      by_cases hnone : d.precision = none
      · have hcols : d.columns = -1 := by
          rw [Directive.columns, if_pos hnone, hw]
          rfl
        have hlimit : d.limit = -1 := by
          rw [Directive.limit, hnone]
          rfl
        rw [if_pos ⟨hw, hnone⟩, hcols, hlimit, stringText_none_iff]
        simp [hw, hnone]
      · have hcols : d.columns = 0 := by
          rw [columns_of_precision h hnone, hw]
          rfl
        rw [if_neg fun hc => hnone hc.2, hcols]
        exact iff_of_true (stringText_zero _ _ _ _ _) fun hc => absurd hc.2 hnone
    · have hpadc : d.padc = padChar d.flags := if_neg (not_or.2 ⟨hw, hprec⟩)
      rw [if_neg fun hc => hw hc.1, hpadc]
      exact iff_of_true rfl fun hc => absurd hc.1 hw

/-! ## Both -/

/-- **Numerals and '*'.** They agree but for the numeral 0 as a precision, and, on a text of 2^31 characters, as the
width. -/
theorem star_agrees_iff (d : Directive) (h : d.Sized) :
    (∀ (c : Numeric) (x : ℤ), d.conv = c.char →
      (SameOutput d (c.arg d.lflag x) ↔ (d.precision = some (.lit 0) →
        padChar d.flags = chr '0' ∨ d.width.elim 0 Field.val ≤ (c.digits d.lflag x).length))) ∧
    ∀ (p : Option (List Byte)) (l rest : List Byte), d.conv = chr 's' → orNull p = l ++ 0#8 :: rest → 0#8 ∉ l →
      (SameOutput d (.str p) ↔ StringAgrees d.flags d.width d.precision l) := by
  constructor
  · intro c x hd
    exact numeric_agrees_iff c hd h x
  · intro p l rest hd hp hl
    exact string_agrees_iff hd h hp hl

/-- witness: "abc" as %.2s -/
theorem star_agrees_two : SameOutput (stringDirective [] none (some (.lit 2))) (.str (some (bytes "abc" ++ [0]))) ↔
    StringAgrees [] none (some (.lit 2)) (bytes "abc") :=
  (star_agrees_iff (stringDirective [] none (some (.lit 2)))
    ⟨fun f hf => (by cases hf), fun f hf => (by cases hf; exact Nat.lt_of_sub_pos (by decide))⟩).2 _ (bytes "abc") [] rfl rfl
    (by decide)

/-- "abc" as %.0s, and as %.*s with 0 -/
theorem star_differs_zero :
    emit (bytes "%.0s" ++ [0]) [.str (some (bytes "abc" ++ [0]))] = .ok ((bytes "abc").map uchar, []) ∧
      emit (bytes "%.*s" ++ [0]) [.word 0, .str (some (bytes "abc" ++ [0]))] = .ok ([], []) ∧
      ¬ SameOutput (stringDirective [] none (some (.lit 0))) (.str (some (bytes "abc" ++ [0]))) := by
  have hlit : emit (bytes "%.0s" ++ [0]) [.str (some (bytes "abc" ++ [0]))] = .ok ((bytes "abc").map uchar, []) := by
    decide +kernel
  have hstar : emit (bytes "%.*s" ++ [0]) [.word 0, .str (some (bytes "abc" ++ [0]))] = .ok ([], []) := by
    decide +kernel
  refine ⟨hlit, hstar, ?_⟩
  rintro ⟨t, h, h'⟩
  have h1 := hlit.symm.trans h.emit
  have h2 := hstar.symm.trans h'.emit
  simp only [Except.ok.injEq, Prod.mk.injEq, and_true] at h1 h2
  rw [← h2] at h1
  revert h1
  decide

end Jos.Printfmt
