/-
The numeric conversions.

`printnum` passes the width down its recursion on the quotients and emits the pads at the bottom, in front of the first
digit. The sign of %d comes before all that, so it is not counted.

- **`printnum_feed`**: pads and digits of any number.
- `renders_uint`, `renders_int`, `renders_ptr`: what a numeric directive prints.
- **`numbers_canonical_iff`**, **`signed_width_iff`**: the numerals, and the field width of %d.
-/
import Jos.Printfmt.Directive
import Jos.Printfmt.Text

namespace Jos.Printfmt

open Numeral (numeral value Canonical)
open Sink (feed)

/-! ## The texts -/

def unsignedText (base : Base) (n : ℕ) : List Word := (numeral base.val n).map digit

def sign (v : ℤ) : List Word := if v < 0 then [uchar (chr '-')] else []

def signedText (v : ℤ) : List Word := sign v ++ unsignedText base10 v.natAbs

/-- right-justified in w columns -/
def padded (c : Byte) (w : ℤ) (l : List Word) : List Word := List.replicate (w - l.length).toNat (schar c) ++ l

theorem padded_of_le {w : ℤ} {l : List Word} (h : w ≤ l.length) (c : Byte) : padded c w l = l := by
  rw [padded, show (w - l.length).toNat = 0 by omega]
  rfl

theorem length_padded (c : Byte) (w : ℤ) (l : List Word) : ((padded c w l).length : ℤ) = max w l.length := by
  rw [padded, List.length_append, List.length_replicate]
  omega

theorem unsignedText_of_lt {base : Base} {n : ℕ} (h : n < base.val) : unsignedText base n = [digit n] := by
  rw [unsignedText, Numeral.numeral_of_lt h]
  rfl

theorem unsignedText_of_le {base : Base} {n : ℕ} (h : base.val ≤ n) :
    unsignedText base n = unsignedText base (n / base.val) ++ [digit (n % base.val)] := by
  rw [unsignedText, Numeral.numeral_of_le base.two_le h, List.map_append]
  rfl

theorem length_unsignedText (base : Base) (n : ℕ) : (unsignedText base n).length = (numeral base.val n).length :=
  List.length_map _

theorem length_unsignedText_pos (base : Base) (n : ℕ) : 0 < (unsignedText base n).length := by
  rw [length_unsignedText]
  exact Numeral.numeral_length_pos _ _

/-- no number that `vprintfmt` prints has more than 64 digits -/
theorem length_unsignedText_le (base : Base) {n : ℕ} (h : n < 2 ^ 64) : (unsignedText base n).length ≤ 64 := by
  rw [length_unsignedText]
  apply Numeral.numeral_length_le base.two_le (by decide)
  exact h.trans_le (Nat.pow_le_pow_left base.two_le 64)

/-- the numeral of n as a text -/
def numeralText (base : Base) (n : ℕ) : List Byte := (numeral base.val n).map digitChar

theorem low_unsignedText (base : Base) (n : ℕ) : (unsignedText base n).map low = numeralText base n := by
  rw [unsignedText, numeralText, List.map_map]
  apply List.map_congr_left
  intro d hd
  rw [Function.comp_apply, digit_eq, low_uchar]

/-! ## printnum -/

/-- **printnum.** The width that is passed down does not wrap around before the first digit. -/
theorem printnum_feed {σ : Type} (putch : Word → σ → σ) (base : Base) (c : Byte) (n : ℕ) {w : ℤ}
    (hlo : -2147483648 + (unsignedText base n).length ≤ w) (hhi : w < 2147483648) (s : σ) :
    printnum putch n base w (schar c) s = feed putch s (padded c w (unsignedText base n)) := by
  induction n using Numeral.numeral_induction base.two_le generalizing w with
  | low n h =>
    rw [unsignedText_of_lt h] at hlo ⊢
    have hw : int32 (w - 1) = w - 1 := int32_of_lt (by simp at hlo; omega) (by omega)
    rw [printnum, if_neg (not_le.2 h), Nat.mod_eq_of_lt h, hw, pad_feed, padded]
    simp
  | high n h ih =>
    rw [unsignedText_of_le h] at hlo ⊢
    rw [List.length_append, List.length_singleton] at hlo
    push_cast at hlo
    have hw : int32 (w - 1) = w - 1 := int32_of_lt (by omega) (by omega)
    have hlen : w - 1 - (unsignedText base (n / base.val)).length =
        w - (unsignedText base (n / base.val) ++ [digit (n % base.val)]).length := by
      rw [List.length_append, List.length_singleton]
      push_cast
      ring
    rw [printnum, if_pos h, hw, ih (by omega) (by omega), padded, padded, hlen]
    simp

theorem number_feed {σ : Type} (putch : Word → σ → σ) (num : BitVec 64) (base : Base) {d : Directive}
    (hw : -1 ≤ d.columns) (s : σ) :
    number putch num base d.esc s = feed putch s (padded d.padc d.columns (unsignedText base num.toNat)) := by
  have hlen := length_unsignedText_le base num.isLt
  have hlt := d.columns_lt
  rw [number, d.esc_padc, d.esc_width]
  exact printnum_feed putch base d.padc num.toNat (by omega) hlt s

/-! ## Values -/

/-- the size of an integer with n letters 'l', or with n in lflag -/
def bits (lflag : ℤ) : ℕ := if 2 ≤ lflag then 64 else 32

/-- x as an argument -/
def longArg (lflag x : ℤ) : Arg := if 2 ≤ lflag then .dword (BitVec.ofInt 64 x) else .word (BitVec.ofInt 32 x)

def unsignedVal (lflag x : ℤ) : ℕ := (x % 2 ^ bits lflag).toNat

def signedVal (lflag x : ℤ) : ℤ := x.bmod (2 ^ bits lflag)

theorem getuint_longArg (lflag x : ℤ) (ap : List Arg) :
    ∃ n, getuint (longArg lflag x :: ap) lflag = .ok (n, ap) ∧ n.toNat = unsignedVal lflag x := by
  by_cases h : 2 ≤ lflag
  · refine ⟨BitVec.ofInt 64 x, ?_, ?_⟩
    · simp [getuint, longArg, vaLongLong, h]
    · simp [unsignedVal, bits, h, BitVec.toNat_ofInt]
  · refine ⟨(BitVec.ofInt 32 x).zeroExtend 64, ?_, ?_⟩
    · simp [getuint, longArg, vaInt, map_ok, h]
    · simp [unsignedVal, bits, h, BitVec.toNat_ofInt]
      omega

theorem getint_longArg (lflag x : ℤ) (ap : List Arg) :
    ∃ n, getint (longArg lflag x :: ap) lflag = .ok (n, ap) ∧ n.toInt = signedVal lflag x := by
  by_cases h : 2 ≤ lflag
  · refine ⟨BitVec.ofInt 64 x, ?_, ?_⟩
    · simp [getint, longArg, vaLongLong, h]
    · simp [signedVal, bits, h, BitVec.toInt_ofInt]
  · refine ⟨(BitVec.ofInt 32 x).signExtend 64, ?_, ?_⟩
    · simp [getint, longArg, vaInt, map_ok, h]
    · rw [BitVec.toInt_signExtend_of_le (by decide)]
      simp [signedVal, bits, h, BitVec.toInt_ofInt]

/-- the int that counts the letters 'l' still tells two of them or more from fewer -/
def LongKept (long : ℕ) : Prop := 2 ≤ long → 2 ≤ int32 long

/-- the conversion reads what the letters ask for -/
theorem LongKept.same {long : ℕ} (h : LongKept long) (x : ℤ) : longArg (int32 long) x = longArg long x ∧
    unsignedVal (int32 long) x = unsignedVal long x ∧ signedVal (int32 long) x = signedVal long x := by
  have hiff : 2 ≤ int32 long ↔ 2 ≤ (long : ℤ) := by
    constructor
    · intro h2
      by_contra hlt
      rw [int32_of_lt (by omega) (by omega)] at h2
      exact hlt h2
    · exact fun h2 => h (by exact_mod_cast h2)
  simp only [longArg, unsignedVal, signedVal, bits, hiff, and_self]

/-- once the count has wrapped around, the conversion takes a long long for an int -/
theorem wrong_size {long : ℕ} (h : ¬ LongKept long) (x : ℤ) (ap : List Arg) :
    getuint (longArg long x :: ap) (int32 long) = .error .arg ∧
      getint (longArg long x :: ap) (int32 long) = .error .arg := by
  obtain ⟨h2, hlt⟩ := Classical.not_imp.1 h
  have hlong : 2 ≤ (long : ℤ) := by exact_mod_cast h2
  rw [longArg, if_pos hlong, getuint, if_neg hlt, getint, if_neg hlt]
  exact ⟨rfl, rfl⟩

theorem longArg_word (v : Word) : longArg 0 v.toNat = .word v ∧ longArg 0 v.toInt = .word v := by
  constructor
  · simp [longArg]
  · simp [longArg]

theorem unsignedVal_word (v : Word) : unsignedVal 0 v.toNat = v.toNat := by
  have := v.isLt
  simp only [unsignedVal, bits]
  norm_num
  omega

theorem signedVal_word (v : Word) : signedVal 0 v.toInt = v.toInt := by
  rw [signedVal, bits, if_neg (by decide)]
  exact BitVec.toInt_bmod_cancel v

/-- the magnitude, the most negative value included -/
theorem toNat_neg_of_neg {n : BitVec 64} (h : n.toInt < 0) : (-n).toNat = n.toInt.natAbs := by
  have hlt := n.isLt
  rw [BitVec.toNat_neg]
  rw [BitVec.toInt_eq_toNat_cond] at h ⊢
  split_ifs at h ⊢
  · omega
  · omega

theorem toNat_of_nonneg {n : BitVec 64} (h : ¬ n.toInt < 0) : n.toNat = n.toInt.natAbs := by
  have hlt := n.isLt
  rw [BitVec.toInt_eq_toNat_cond] at h ⊢
  split_ifs at h ⊢
  · omega
  · omega

/-! ## The directives -/

/-- the unsigned conversions -/
inductive Radix where
  | u
  | o
  | x
deriving DecidableEq, Repr

def Radix.char : Radix → Byte
  | .u => chr 'u'
  | .o => chr 'o'
  | .x => chr 'x'

def Radix.base : Radix → Base
  | .u => base10
  | .o => base8
  | .x => base16

theorem convert_radix {σ : Type} (putch : Word → σ → σ) (printfmt : σ → List Byte → List Arg → Except Fault σ) (r : Radix)
    (e : Esc) (ap : List Arg) (s : σ) : convert putch printfmt r.char e ap s = some (convUint putch r.base e ap s) := by
  cases r <;> rfl

theorem renders_uint (r : Radix) {d : Directive} (hd : d.conv = r.char) (hw : -1 ≤ d.columns) (x : ℤ) :
    Renders d.text (d.args ++ [longArg d.lflag x])
      (padded d.padc d.columns (unsignedText r.base (unsignedVal d.lflag x))) := by
  apply renders_directive d (by rw [hd]; cases r <;> rfl)
  intro σ putch printfmt ap s
  obtain ⟨n, hn, hv⟩ := getuint_longArg d.lflag x ap
  rw [hd, convert_radix, convUint, d.esc_lflag, List.singleton_append, hn, ok_bind, ← hv, ← number_feed putch n r.base hw]
  rfl

theorem renders_int {d : Directive} (hd : d.conv = chr 'd') (hw : -1 ≤ d.columns) (x : ℤ) :
    Renders d.text (d.args ++ [longArg d.lflag x])
      (sign (signedVal d.lflag x) ++ padded d.padc d.columns (unsignedText base10 (signedVal d.lflag x).natAbs)) := by
  apply renders_directive d (by rw [hd]; rfl)
  intro σ putch printfmt ap s
  obtain ⟨n, hn, hv⟩ := getint_longArg d.lflag x ap
  have hconv : convert putch printfmt (chr 'd') d.esc ([longArg d.lflag x] ++ ap) s =
      some (convInt putch d.esc ([longArg d.lflag x] ++ ap) s) := rfl
  rw [hd, hconv, convInt, d.esc_lflag, List.singleton_append, hn, ok_bind, ← hv, sign, Sink.feed_append]
  simp only
  split_ifs with hneg
  · rw [← toNat_neg_of_neg hneg, ← number_feed putch (-n) base10 hw]
    rfl
  · rw [← toNat_of_nonneg hneg, ← number_feed putch n base10 hw]
    rfl

theorem renders_ptr {d : Directive} (hd : d.conv = chr 'p') (hw : -1 ≤ d.columns) (p : Word) :
    Renders d.text (d.args ++ [.word p])
      ([uchar (chr '0'), uchar (chr 'x')] ++ padded d.padc d.columns (unsignedText base16 p.toNat)) := by
  apply renders_directive d (by rw [hd]; rfl)
  intro σ putch printfmt ap s
  have hconv : convert putch printfmt (chr 'p') d.esc ([.word p] ++ ap) s =
      some (convPtr putch d.esc ([.word p] ++ ap) s) := rfl
  have hv : (p.zeroExtend 64).toNat = p.toNat := BitVec.toNat_setWidth_of_le (by decide)
  rw [hd, hconv, ← hv, Sink.feed_append, ← number_feed putch _ base16 hw]
  rfl

/-! ## The numerals -/

def Radix.directive (r : Radix) (flags : List Flag) (width : Option Field) (long : ℕ) : Directive :=
  ⟨flags, width, none, long, r.char⟩

def signedDirective (flags : List Flag) (width : Option Field) (long : ℕ) : Directive :=
  ⟨flags, width, none, long, chr 'd'⟩

theorem Field.scanned_of_ne {f : Field} (h : f ≠ .lit 0) : f.scanned = f.val := if_neg h

/-- a width that is absent or 0 does not pad a numeral, whatever the flags -/
theorem padded_width (d : Directive) (hp : d.precision = none) (hw : ∀ f ∈ d.width, 0 ≤ f.val) {l : List Word}
    (hl : 0 < l.length) : -1 ≤ d.columns ∧
      padded d.padc d.columns l = padded (padChar d.flags) (d.width.elim 0 Field.val) l := by
  unfold Directive.columns Directive.padc
  rw [if_pos hp, hp]
  cases hwidth : d.width with
  | none =>
    refine ⟨le_refl _, ?_⟩
    rw [Option.elim_none, Option.elim_none, padded_of_le (by omega), padded_of_le (by omega)]
  | some f =>
    rw [Option.elim_some, Option.elim_some]
    by_cases hf : f = .lit 0
    · subst hf
      have h0 : (Field.lit 0).val = 0 := rfl
      have h1 : (Field.lit 0).scanned = -1 := rfl
      rw [h0, h1, padded_of_le (by omega), padded_of_le (by omega)]
      exact ⟨le_refl _, rfl⟩
    · have hval := hw f hwidth
      rw [Field.scanned_of_ne hf, if_neg (by simp [hf])]
      exact ⟨by omega, rfl⟩

/-- the digit of a character, and 0 for the characters that pad -/
def undigit (c : Word) : ℕ := ((List.range 16).find? fun d => digit d = c).getD 0

theorem undigit_digit : ∀ d < 16, undigit (digit d) = d := by decide

theorem undigit_padChar (flags : List Flag) : undigit (schar (padChar flags)) = 0 := by
  unfold padChar
  cases (flags.filter (· ≠ .sharp)).getLast? with
  | none => decide
  | some f => cases f <;> decide

theorem map_undigit_digit {ds : List ℕ} (h : ∀ d ∈ ds, d < 16) : (ds.map digit).map undigit = ds := by
  rw [List.map_map]
  exact (List.map_congr_left fun d hd => undigit_digit d (h d hd)).trans (List.map_id _)

/-- an unsigned text can be read back -/
theorem value_padded (base : Base) (flags : List Flag) (w : ℤ) (n : ℕ) :
    value base.val ((padded (padChar flags) w (unsignedText base n)).map undigit) = n := by
  have hds : ∀ d ∈ numeral base.val n, d < 16 := by
    intro d hd
    exact (Numeral.numeral_lt base.two_le n d hd).trans_le base.le_16
  rw [padded, List.map_append, List.map_replicate, undigit_padChar, unsignedText, map_undigit_digit hds,
    Numeral.value_zeros, Numeral.value_numeral base.two_le]

/-- the sign of a signed text is its first character -/
theorem signedText_head (v : ℤ) : v < 0 ↔ (signedText v).head? = some (uchar (chr '-')) := by
  unfold signedText sign
  split_ifs with h
  · simp [h]
  · have hno : ∀ d < 16, digit d ≠ uchar (chr '-') := by decide
    simp only [List.nil_append, h, false_iff]
    intro hh
    obtain ⟨d, hd, he⟩ := List.mem_map.1 (List.mem_of_head? hh)
    exact hno d ((Numeral.numeral_lt base10.two_le _ d hd).trans_le base10.le_16) he

theorem signedText_injective {v v' : ℤ} (h : signedText v = signedText v') : v = v' := by
  have hs : v < 0 ↔ v' < 0 := by rw [signedText_head, signedText_head, h]
  have hsign : sign v = sign v' := by simp only [sign, hs]
  have habs : v.natAbs = v'.natAbs := by
    rw [signedText, signedText, hsign] at h
    have ht := value_padded base10 [] 0 v.natAbs
    rw [padded_of_le (by omega), List.append_cancel_left h] at ht
    have ht' := value_padded base10 [] 0 v'.natAbs
    rw [padded_of_le (by omega)] at ht'
    exact ht.symm.trans ht'
  omega

theorem renders_unsigned (r : Radix) (flags : List Flag) (width : Option Field) (hw : ∀ f ∈ width, 0 ≤ f.val) (long : ℕ)
    (x : ℤ) :
    Renders (r.directive flags width long).text ((r.directive flags width long).args ++ [longArg (int32 long) x])
      (padded (padChar flags) (width.elim 0 Field.val) (unsignedText r.base (unsignedVal (int32 long) x))) := by
  have hpos := length_unsignedText_pos r.base (unsignedVal (int32 long) x)
  obtain ⟨hcols, hpad⟩ := padded_width (r.directive flags width long) rfl hw hpos
  have h := renders_uint r (d := r.directive flags width long) rfl hcols x
  rwa [show (r.directive flags width long).lflag = int32 long from rfl, hpad] at h

theorem renders_signed (flags : List Flag) (width : Option Field) (hw : ∀ f ∈ width, 0 ≤ f.val) (long : ℕ) (x : ℤ) :
    Renders (signedDirective flags width long).text ((signedDirective flags width long).args ++ [longArg (int32 long) x])
      (sign (signedVal (int32 long) x) ++
        padded (padChar flags) (width.elim 0 Field.val) (unsignedText base10 (signedVal (int32 long) x).natAbs)) := by
  have hpos := length_unsignedText_pos base10 (signedVal (int32 long) x).natAbs
  obtain ⟨hcols, hpad⟩ := padded_width (signedDirective flags width long) rfl hw hpos
  have h := renders_int (d := signedDirective flags width long) rfl hcols x
  rwa [show (signedDirective flags width long).lflag = int32 long from rfl, hpad] at h

/-- an int without a width -/
theorem renders_dec (x : ℤ) : Renders (bytes "%d") [.word (BitVec.ofInt 32 x)] (signedText (signedVal 0 x)) := by
  have h := renders_signed [] none (by simp) 0 x
  rw [padded_of_le (by simp), int32_zero] at h
  exact h

/-- the value is read at the size that the letters ask for -/
theorem renders_unsigned_long (r : Radix) (flags : List Flag) (width : Option Field) (hw : ∀ f ∈ width, 0 ≤ f.val)
    {long : ℕ} (hk : LongKept long) (x : ℤ) :
    Renders (r.directive flags width long).text ((r.directive flags width long).args ++ [longArg long x])
      (padded (padChar flags) (width.elim 0 Field.val) (unsignedText r.base (unsignedVal long x))) := by
  obtain ⟨harg, hval, -⟩ := hk.same x
  rw [← harg, ← hval]
  exact renders_unsigned r flags width hw long x

theorem renders_signed_long (flags : List Flag) {long : ℕ} (hk : LongKept long) (x : ℤ) :
    Renders (signedDirective flags none long).text [longArg long x] (signedText (signedVal long x)) := by
  obtain ⟨harg, -, hval⟩ := hk.same x
  have h := renders_signed flags none (by simp) long x
  rw [padded_of_le (by simp), harg, hval] at h
  exact h

theorem unsigned_wrong_size (r : Radix) (flags : List Flag) (width : Option Field) {long : ℕ} (h : ¬ LongKept long)
    (x : ℤ) :
    emit ((r.directive flags width long).text ++ [0]) ((r.directive flags width long).args ++ [longArg long x]) =
      .error .arg := by
  refine emit_directive_error (r.directive flags width long) (by cases r <;> rfl) fun σ putch printfmt ap s => ?_
  change convert putch printfmt r.char _ _ s = _
  rw [convert_radix, convUint, Directive.esc_lflag, List.singleton_append]
  change some (getuint _ (int32 long) >>= _) = _
  rw [(wrong_size h x ap).1]
  rfl

theorem signed_wrong_size (flags : List Flag) (width : Option Field) {long : ℕ} (h : ¬ LongKept long) (x : ℤ) :
    emit ((signedDirective flags width long).text ++ [0]) ((signedDirective flags width long).args ++ [longArg long x]) =
      .error .arg := by
  refine emit_directive_error (signedDirective flags width long) rfl fun σ putch printfmt ap s => ?_
  change some (getint _ (signedDirective flags width long).esc.lflag >>= _) = _
  rw [Directive.esc_lflag, List.singleton_append]
  change some (getint _ (int32 long) >>= _) = _
  rw [(wrong_size h x ap).2]
  rfl

theorem renders_unsigned_kept {r : Radix} {flags : List Flag} {width : Option Field} {long : ℕ} {x : ℤ} {t : List Word}
    (h : Renders (r.directive flags width long).text ((r.directive flags width long).args ++ [longArg long x]) t) :
    LongKept long := by
  by_contra hk
  exact not_renders_of_error (unsigned_wrong_size r flags width hk x) h

theorem renders_signed_kept {flags : List Flag} {long : ℕ} {x : ℤ} {t : List Word}
    (h : Renders (signedDirective flags none long).text [longArg long x] t) : LongKept long := by
  by_contra hk
  exact not_renders_of_error (signed_wrong_size flags none hk x) h

/-- **The numerals.** Pads and the digits of the one canonical numeral; for %d without a width, the sign and the digits
of the magnitude: exactly as long as lflag has not wrapped around. Values that differ never print alike. -/
theorem numbers_canonical_iff (r : Radix) (flags : List Flag) (width : Option Field) (long : ℕ) (x : ℤ)
    (hw : ∀ f ∈ width, 0 ≤ f.val) :
    ((∃ ds : List ℕ,
      Renders (r.directive flags width long).text ((r.directive flags width long).args ++ [longArg long x])
        (List.replicate (width.elim 0 Field.val - ds.length).toNat (schar (padChar flags)) ++ ds.map digit) ∧
      ∀ ds', Canonical r.base.val ds' ∧ value r.base.val ds' = unsignedVal long x ↔ ds' = ds) ↔ LongKept long) ∧
    ((∃ ds : List ℕ,
      Renders (signedDirective flags none long).text [longArg long x]
        ((if signedVal long x < 0 then [uchar (chr '-')] else []) ++ ds.map digit) ∧
      ∀ ds', Canonical 10 ds' ∧ value 10 ds' = (signedVal long x).natAbs ↔ ds' = ds) ↔ LongKept long) ∧
    (∀ (flags' : List Flag) (width' : Option Field) (long' : ℕ) (x' : ℤ) (t : List Word), (∀ f ∈ width', 0 ≤ f.val) →
      Renders (r.directive flags width long).text ((r.directive flags width long).args ++ [longArg long x]) t →
      Renders (r.directive flags' width' long').text ((r.directive flags' width' long').args ++ [longArg long' x']) t →
      unsignedVal long x = unsignedVal long' x') ∧
    ∀ (flags' : List Flag) (long' : ℕ) (x' : ℤ) (t : List Word),
      Renders (signedDirective flags none long).text [longArg long x] t →
      Renders (signedDirective flags' none long').text [longArg long' x'] t → signedVal long x = signedVal long' x' := by
  refine ⟨?_, ?_, ?_, ?_⟩
  · constructor
    · rintro ⟨ds, h, -⟩
      exact renders_unsigned_kept h
    · intro hk
      refine ⟨numeral r.base.val (unsignedVal long x), ?_, fun ds' => Numeral.numeral_unique r.base.two_le _ ds'⟩
      have h := renders_unsigned_long r flags width hw hk x
      rwa [padded, length_unsignedText] at h
  · constructor
    · rintro ⟨ds, h, -⟩
      exact renders_signed_kept h
    · intro hk
      exact ⟨numeral 10 (signedVal long x).natAbs, renders_signed_long flags hk x,
        fun ds' => Numeral.numeral_unique (by decide) _ ds'⟩
  · intro flags' width' long' x' t hw' h h'
    have ht := (renders_unsigned_long r flags width hw (renders_unsigned_kept h) x).unique h
    have ht' := (renders_unsigned_long r flags' width' hw' (renders_unsigned_kept h') x').unique h'
    rw [← value_padded r.base flags (width.elim 0 Field.val) (unsignedVal long x), ht, ← ht', value_padded]
  · intro flags' long' x' t h h'
    apply signedText_injective
    rw [(renders_signed_long flags (renders_signed_kept h) x).unique h,
      (renders_signed_long flags' (renders_signed_kept h') x').unique h']

/-- witness: 255 as %08llx -/
theorem numbers_canonical_eight : ∃ ds : List ℕ,
    Renders (bytes "%08llx") [.dword 255]
      (List.replicate (8 - ds.length : ℤ).toNat (schar (chr '0')) ++ ds.map digit) ∧
    ∀ ds', Canonical 16 ds' ∧ value 16 ds' = 255 ↔ ds' = ds :=
  (numbers_canonical_iff .x [.zero] (some (.lit 8)) 2 255 (fun f hf => by cases hf; decide)).1.2 fun _ => by decide

/-- 2^32 under %u with 2^31 letters 'l': lflag is negative, and an unsigned int is read where a long long was passed. The
low half of the argument is enough for a result, 0. -/
theorem numbers_long_wraps :
    int32 (2147483648 : ℕ) = -2147483648 ∧ unsignedVal (2147483648 : ℕ) 4294967296 = 4294967296 ∧
    emit ((Radix.u.directive [] none 2147483648).text ++ [0]) [.dword 4294967296] = .error .arg ∧
    (¬ ∃ t, Renders (Radix.u.directive [] none 2147483648).text [.dword 4294967296] t) ∧
    Renders (Radix.u.directive [] none 2147483648).text [.word 0] [digit 0] := by
  have hk : ¬ LongKept 2147483648 := fun h => absurd (h (by decide)) (by decide)
  have herr : emit ((Radix.u.directive [] none 2147483648).text ++ [0]) [.dword 4294967296] = .error .arg :=
    unsigned_wrong_size .u [] none hk 4294967296
  have hlow := renders_unsigned .u [] none (by simp) 2147483648 0
  rw [padded_of_le (by simp), unsignedText_of_lt (by decide)] at hlow
  exact ⟨rfl, rfl, herr, fun ⟨t, h⟩ => not_renders_of_error herr h, hlow⟩

/-! ## The field width of %d -/

/-- v right-justified in w columns: blanks go before the sign, zeros behind it -/
def justified (c : Byte) (w v : ℤ) : List Word :=
  if c = chr '0' then
    sign v ++ (List.replicate (w - (signedText v).length).toNat (schar c) ++ unsignedText base10 v.natAbs)
  else padded c w (signedText v)

theorem length_signedText (v : ℤ) : (signedText v).length = (sign v).length + (numeral 10 v.natAbs).length := by
  rw [signedText, List.length_append, length_unsignedText]
  rfl

theorem length_justified (c : Byte) (w v : ℤ) : ((justified c w v).length : ℤ) = max w (signedText v).length := by
  have hlen := length_signedText v
  have hdigits : (unsignedText base10 v.natAbs).length = (numeral 10 v.natAbs).length := length_unsignedText _ _
  unfold justified
  split_ifs
  · rw [List.length_append, List.length_append, List.length_replicate, hdigits]
    omega
  · exact length_padded _ _ _

/-- what %d prints is right-justified exactly when the sign does not count, or nothing is padded -/
theorem padded_eq_justified_iff (c : Byte) (w v : ℤ) :
    sign v ++ padded c w (unsignedText base10 v.natAbs) = justified c w v ↔ 0 ≤ v ∨ w ≤ (numeral 10 v.natAbs).length := by
  have hlen := length_signedText v
  have hdigits : (unsignedText base10 v.natAbs).length = (numeral 10 v.natAbs).length := length_unsignedText _ _
  constructor
  · intro h
    by_contra hno
    rw [not_or, not_le, not_le] at hno
    -- the sign makes the output one character too long
    have hs : (sign v).length = 1 := by
      rw [sign, if_pos hno.1]
      rfl
    have hl := length_padded c w (unsignedText base10 v.natAbs)
    have hj := length_justified c w v
    rw [← h, List.length_append] at hj
    omega
  · rintro (h | h)
    · have hs : sign v = [] := if_neg (not_lt.2 h)
      unfold justified
      rw [signedText, hs]
      split_ifs
      · rfl
      · rfl
    · have h0 : (w - (signedText v).length).toNat = 0 := by omega
      rw [padded_of_le (by omega), justified, h0, padded_of_le (by omega)]
      split_ifs
      · rfl
      · rfl

/-- **The width of %d.** -/
theorem signed_width_iff (flags : List Flag) (f : Field) (long : ℕ) (x : ℤ) (hw : 1 ≤ f.val) :
    Renders (signedDirective flags (some f) long).text
        ((signedDirective flags (some f) long).args ++ [longArg (int32 long) x])
        (justified (padChar flags) f.val (signedVal (int32 long) x)) ↔
      0 ≤ signedVal (int32 long) x ∨ f.val ≤ (numeral 10 (signedVal (int32 long) x).natAbs).length := by
  have h := renders_signed flags (some f) (fun g hg => by cases hg; omega) long x
  rw [h.iff_eq]
  exact padded_eq_justified_iff _ _ _

/-- witness: 42 as %5d -/
theorem signed_width_five : Renders (bytes "%5d") [.word 42] (justified (chr ' ') 5 42) ↔
    0 ≤ (42 : ℤ) ∨ 5 ≤ ((numeral 10 42).length : ℤ) :=
  signed_width_iff [] (.lit 5) 0 42 (by decide)

/-- -42 as %5d: the blanks come behind the sign, and there is one too many. -/
theorem signed_width_negative :
    emit (bytes "%5d" ++ [0]) [.word (-42)] = .ok ((bytes "-   42").map uchar, []) ∧
      justified (chr ' ') 5 (-42) = (bytes "  -42").map uchar ∧
      ¬ Renders (bytes "%5d") [.word (-42)] (justified (chr ' ') 5 (-42)) := by
  have hemit : emit (bytes "%5d" ++ [0]) [.word (-42)] = .ok ((bytes "-   42").map uchar, []) := by decide +kernel
  have htext : justified (chr ' ') 5 (-42) = (bytes "  -42").map uchar := by decide +kernel
  refine ⟨hemit, htext, fun h => ?_⟩
  have := hemit.symm.trans h.emit
  rw [htext] at this
  revert this
  decide

end Jos.Printfmt
