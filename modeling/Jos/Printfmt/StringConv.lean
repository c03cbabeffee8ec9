/-
Case 's'.

The width counts the text down twice where it pads on the left: strnlen in front of the padding, and the text loop. As
an int it wraps around below -2^31, and what it then holds is printed as blanks. The text loop reads the next byte
before it tests the precision.

- **`renders_string`**: what %s prints, on any text.
- **`string_rule_iff`**: the rule for width, precision and flags, and when the width wraps.
- **`string_unterminated`**: a precision does not keep %s inside an array without a terminator.
-/
import Jos.Printfmt.Directive
import Jos.Printfmt.Text

namespace Jos.Printfmt

open Sink (feed)

/-! ## What %s prints -/

/-- n blanks -/
def blanks (n : ℤ) : List Word := List.replicate n.toNat (uchar (chr ' '))

def stringText (c : Byte) (width precision : ℤ) (altflag : Bool) (l : List Byte) : List Word :=
  let m := shownCount precision l.length
  let body := (l.take m).map (shown altflag)
  if 0 < width ∧ c ≠ chr '-' then
    let left := int32 (width - min l.length (sizeT precision))
    List.replicate left.toNat (schar c) ++ body ++ blanks (int32 (min left 0 - m))
  else body ++ blanks (int32 (width - m))

theorem int32_min_zero (x : ℤ) : int32 (min (int32 x) 0) = min (int32 x) 0 := by
  unfold int32; omega

theorem convStr_feed {σ : Type} (putch : Word → σ → σ) {e : Esc} (he : int32 e.width = e.width) {p : Option (List Byte)}
    {l rest : List Byte} (hp : orNull p = l ++ 0#8 :: rest) (hl : 0#8 ∉ l) (ap : List Arg) (s : σ) :
    convStr putch e (.str p :: ap) s = .ok (feed putch s (stringText e.padc e.width e.precision e.altflag l), ap) := by
  rw [convStr, vaStr, ok_bind]
  simp only [hp]
  unfold padStr stringText
  split_ifs
  · rw [strnlen_eq hl]
    simp only [ok_bind]
    rw [putStr_feed putch _ hl rest _ (int32_min_zero _)]
    simp only [ok_bind, pad_feed, blanks, Sink.feed_append]
    rfl
  · rw [ok_bind]
    simp only
    rw [putStr_feed putch _ hl rest _ he]
    simp only [ok_bind, pad_feed, blanks, Sink.feed_append]
    rfl

/-- **%s.** -/
theorem renders_string {d : Directive} (hd : d.conv = chr 's') {p : Option (List Byte)} {l rest : List Byte}
    (hp : orNull p = l ++ 0#8 :: rest) (hl : 0#8 ∉ l) :
    Renders d.text (d.args ++ [.str p]) (stringText d.padc d.columns d.limit (.sharp ∈ d.flags) l) := by
  apply renders_directive d (by rw [hd]; rfl)
  intro σ putch printfmt ap s
  have hconv : convert putch printfmt (chr 's') d.esc ([.str p] ++ ap) s =
      some (convStr putch d.esc ([.str p] ++ ap) s) := rfl
  have hw : int32 d.esc.width = d.esc.width := by
    rw [d.esc_width]
    exact int32_of_lt d.columns_ge d.columns_lt
  rw [hd, hconv, List.singleton_append, convStr_feed putch hw hp hl]
  simp

/-! ## The rule -/

/-- the first m characters of l, those outside ' '..'~' replaced under '#', and blanks or zeros up to w columns -/
def stringRule (flags : List Flag) (w precision : ℤ) (l : List Byte) : List Byte :=
  let m := shownCount precision l.length
  let body := (l.take m).map fun b => if .sharp ∈ flags ∧ ¬ (chr ' ' ≤ b ∧ b ≤ chr '~') then chr '?' else b
  if padChar flags = chr '-' then body ++ List.replicate (w - m).toNat (chr ' ')
  else List.replicate (w - m).toNat (padChar flags) ++ body

/-- an int that counts down from 0 is not positive after k steps -/
def FitsInt (k : ℤ) : Prop := k % 4294967296 ≤ 2147483648

instance (k : ℤ) : Decidable (FitsInt k) := inferInstanceAs (Decidable (_ ≤ _))

theorem int32_neg_iff (k : ℤ) : int32 (-k) ≤ 0 ↔ FitsInt k := by
  unfold int32 FitsInt
  omega

/-- The width does not wrap around: of the text, m characters are printed, and strnlen has counted n. -/
def StringFits (c : Byte) (width : ℤ) (n m : ℕ) : Prop :=
  m ≤ width ∨ if 0 < width ∧ c ≠ chr '-' then FitsInt (n - width) ∧ FitsInt (n - width + m) else FitsInt (m - width)

theorem printable_iff : ∀ b : Byte, ((schar b).toInt < 32 ∨ 126 < (schar b).toInt) ↔ ¬ (chr ' ' ≤ b ∧ b ≤ chr '~') := by
  decide

theorem low_shown (altflag : Bool) (b : Byte) :
    low (shown altflag b) = if altflag ∧ ¬ (chr ' ' ≤ b ∧ b ≤ chr '~') then chr '?' else b := by
  unfold shown
  simp only [printable_iff]
  split_ifs
  · exact low_uchar _
  · exact low_schar b

theorem low_blanks (k : ℤ) : (blanks k).map low = List.replicate k.toNat (chr ' ') := by
  rw [blanks, List.map_replicate, low_uchar]

/-- %s with a width of 0 or -1 -/
theorem low_stringText {w : ℤ} (hw : ¬ 0 < w) (precision : ℤ) (l : List Byte) :
    (stringText (chr ' ') w precision false l).map low = l.take (shownCount precision l.length) ++
      List.replicate (int32 (w - shownCount precision l.length)).toNat (chr ' ') := by
  have hbody : ∀ l : List Byte, (l.map (shown false)).map low = l := by
    intro l
    rw [shown_false, List.map_map]
    exact (List.map_congr_left fun c _ => low_schar c).trans (List.map_id _)
  rw [stringText, if_neg fun h => hw h.1]
  simp only [List.map_append, hbody, low_blanks]

/-- strnlen counts the characters that are printed, or at least 2^31 of them -/
theorem min_sizeT {precision : ℤ} (hlo : -2147483648 ≤ precision) (hhi : precision < 2147483648) (n : ℕ) :
    min n (sizeT precision) = shownCount precision n ∨
      2147483648 ≤ min n (sizeT precision) ∧ min n (sizeT precision) < 4294967296 ∧
        min n (sizeT precision) ≤ shownCount precision n := by
  have hs : (sizeT precision : ℤ) = precision % 4294967296 := by
    rw [sizeT, BitVec.toNat_ofInt, Int.toNat_of_nonneg (Int.emod_nonneg _ (by decide))]
    rfl
  unfold shownCount
  split_ifs
  · omega
  · left
    congr 1
    omega

section Pads

variable {width w : ℤ} {n m : ℕ}

/-- padding on the left and what is left of the width behind the text, against the padding of the rule -/
theorem left_pads_iff (h1 : 1 ≤ width) (h2 : width < 2147483648)
    (hn : n = m ∨ 2147483648 ≤ n ∧ n < 4294967296 ∧ n ≤ m) :
    (int32 (width - n)).toNat + (int32 (min (int32 (width - n)) 0 - m)).toNat = (width - m).toNat ↔
      m ≤ width ∨ FitsInt (n - width) ∧ FitsInt (n - width + m) := by
  unfold int32 FitsInt
  omega

theorem left_pads_eq (h1 : 1 ≤ width) (h2 : width < 2147483648)
    (h : (int32 (width - n)).toNat + (int32 (min (int32 (width - n)) 0 - m)).toNat = (width - m).toNat) :
    (int32 (width - n)).toNat = (width - m).toNat ∧ (int32 (min (int32 (width - n)) 0 - m)).toNat = 0 := by
  unfold int32 at h ⊢
  omega

/-- padding behind the text; a width that is absent is -1, or 0 behind the dot -/
theorem right_pads_iff (hw : width = w ∧ 1 ≤ w ∨ w = 0 ∧ -1 ≤ width ∧ width ≤ 0) (hlt : width < 2147483648) :
    (int32 (width - m)).toNat = (w - m).toNat ↔ m ≤ width ∨ FitsInt (m - width) := by
  unfold int32 FitsInt
  omega

end Pads

/-- **The rule and the code.** -/
theorem stringText_rule_iff (flags : List Flag) {width w precision : ℤ} (l : List Byte)
    (hw : width = w ∧ 1 ≤ w ∨ w = 0 ∧ -1 ≤ width ∧ width ≤ 0) (hlt : width < 2147483648)
    (hlo : -2147483648 ≤ precision) (hhi : precision < 2147483648) :
    (stringText (padChar flags) width precision (.sharp ∈ flags) l).map low = stringRule flags w precision l ↔
      StringFits (padChar flags) width (min l.length (sizeT precision)) (shownCount precision l.length) := by
  have hbody : ∀ m, ((l.take m).map (shown (.sharp ∈ flags))).map low =
      (l.take m).map fun b => if .sharp ∈ flags ∧ ¬ (chr ' ' ≤ b ∧ b ≤ chr '~') then chr '?' else b := by
    intro m
    rw [List.map_map]
    apply List.map_congr_left
    intro b hb
    rw [Function.comp_apply, low_shown]
    simp
  have hn := min_sizeT hlo hhi l.length
  have hmle := shownCount_le precision l.length
  unfold stringText stringRule StringFits
  generalize shownCount precision l.length = m at hn hmle ⊢
  generalize min l.length (sizeT precision) = n at hn ⊢
  by_cases hleft : 0 < width ∧ padChar flags ≠ chr '-'
  · obtain rfl : width = w := by omega
    rw [if_pos hleft, if_pos hleft, if_neg hleft.2, ← left_pads_iff hleft.1 hlt hn]
    simp only [List.map_append, hbody, blanks, List.map_replicate, low_schar, low_uchar]
    constructor
    · intro h
      have hl := congrArg List.length h
      simp only [List.length_append, List.length_replicate, List.length_map] at hl
      omega
    · intro h
      obtain ⟨ha, hb⟩ := left_pads_eq hleft.1 hlt h
      rw [ha, hb]
      simp
  · rw [if_neg hleft, if_neg hleft, ← right_pads_iff hw hlt]
    simp only [List.map_append, hbody, blanks, List.map_replicate, low_uchar]
    constructor
    · intro h
      have hl := congrArg List.length h
      split_ifs at hl with hc
      · simp only [List.length_append, List.length_replicate, List.length_map] at hl
        omega
      · simp only [List.length_append, List.length_replicate, List.length_map] at hl
        omega
    · intro h
      rw [h]
      split_ifs with hc
      · rfl
      · have h0 : (w - m).toNat = 0 := by
          have : ¬ 0 < width := fun hpos => hleft ⟨hpos, hc⟩
          omega
        rw [h0]
        simp

/-- a text that fits into the field -/
theorem stringText_left {c : Byte} {w : ℤ} (hw : w < 2147483648) {l : List Byte} (hl : l.length ≤ w) (hc : c ≠ chr '-')
    (altflag : Bool) :
    stringText c w (-1) altflag l = List.replicate (w - l.length).toNat (schar c) ++ l.map (shown altflag) := by
  have hn : min l.length (sizeT (-1)) = l.length := min_eq_left (by rw [show sizeT (-1) = 4294967295 from rfl]; omega)
  unfold stringText
  simp only [shownCount_all, hn, List.take_length]
  split_ifs with hleft
  · obtain ⟨ha, hb⟩ := left_pads_eq hleft.1 hw ((left_pads_iff hleft.1 hw (Or.inl rfl)).2 (Or.inl hl))
    rw [blanks, ha, hb, List.replicate_zero, List.append_nil]
  · have h0 : w = 0 ∧ l.length = 0 := by
      have : ¬ 0 < w := fun h => hleft ⟨h, hc⟩
      omega
    obtain ⟨rfl, h0⟩ := h0
    obtain rfl := List.length_eq_zero_iff.1 h0
    rfl

def stringDirective (flags : List Flag) (width precision : Option Field) : Directive :=
  ⟨flags, width, precision, 0, chr 's'⟩

/-- a terminated string, as %s and with a precision from the arguments -/
theorem renders_str {p : List Byte} (hp : 0#8 ∈ p) :
    Renders (bytes "%s") [.str (some p)] (stringText (chr ' ') (-1) (-1) false (cstr p)) ∧
      ∀ n : Word, Renders (bytes "%.*s") [.word n, .str (some p)] (stringText (chr ' ') 0 n.toInt false (cstr p)) := by
  obtain ⟨rest, hrest, h0⟩ := cstr_split hp
  refine ⟨?_, fun n => ?_⟩
  · exact @renders_string (stringDirective [] none none) rfl (some p) _ rest hrest h0
  · exact @renders_string (stringDirective [] none (some (.star n))) rfl (some p) _ rest hrest h0

/-- the int that the width starts as: -1 without a field, and 0 with a precision only -/
def startWidth (width precision : Option Field) : ℤ := width.elim (if precision = none then -1 else 0) Field.val

theorem stringDirective_fields (flags : List Flag) {width precision : Option Field} (hw : ∀ f ∈ width, 1 ≤ f.val)
    (hp : precision ≠ some (.lit 0)) :
    (stringDirective flags width precision).padc = padChar flags ∧
      (stringDirective flags width precision).columns = startWidth width precision ∧
      (stringDirective flags width precision).limit = precision.elim (-1) Field.val := by
  have hw0 : width ≠ some (.lit 0) := by
    rintro rfl
    exact absurd (hw _ rfl) (by decide)
  refine ⟨if_neg (by simp [stringDirective, hw0, hp]), ?_, ?_⟩
  · unfold Directive.columns startWidth stringDirective
    cases width with
    | none =>
      simp only [Option.elim_none]
      split_ifs <;> rfl
    | some f =>
      have hf : f ≠ .lit 0 := fun h => hw0 (by rw [h])
      have hval := hw f rfl
      simp only [Option.elim_some, Field.scanned, if_neg hf]
      split_ifs
      · rfl
      · exact max_eq_left (by omega)
  · unfold Directive.limit stringDirective
    cases precision with
    | none => rfl
    | some f => exact if_neg fun h => hp (by rw [h])

theorem startWidth_cases {width precision : Option Field} (hw : ∀ f ∈ width, 1 ≤ f.val) :
    startWidth width precision = width.elim 0 Field.val ∧ 1 ≤ width.elim 0 Field.val ∨
      width.elim 0 Field.val = 0 ∧ -1 ≤ startWidth width precision ∧ startWidth width precision ≤ 0 := by
  unfold startWidth
  cases width with
  | none =>
    right
    simp only [Option.elim_none]
    split_ifs <;> decide
  | some f => exact Or.inl ⟨rfl, hw f rfl⟩

theorem elim_val_range (f : Option Field) : -2147483648 ≤ f.elim (-1) Field.val ∧ f.elim (-1) Field.val < 2147483648 := by
  cases f with
  | none => decide
  | some f => exact ⟨f.val_ge, f.val_lt⟩

/-- **%s.** It follows the rule exactly when the width does not wrap around. -/
theorem string_rule_iff (flags : List Flag) {width precision : Option Field} (hw : ∀ f ∈ width, 1 ≤ f.val)
    (hprec : precision ≠ some (.lit 0)) {p : Option (List Byte)} {l rest : List Byte} (hp : orNull p = l ++ 0#8 :: rest)
    (hl : 0#8 ∉ l) :
    ∃ t, Renders (stringDirective flags width precision).text
        ((stringDirective flags width precision).args ++ [.str p]) t ∧
      (t.map low = stringRule flags (width.elim 0 Field.val) (precision.elim (-1) Field.val) l ↔
        StringFits (padChar flags) (startWidth width precision)
          (min l.length (sizeT (precision.elim (-1) Field.val))) (shownCount (precision.elim (-1) Field.val) l.length)) := by
  obtain ⟨hpad, hcols, hlim⟩ := stringDirective_fields flags hw hprec
  obtain ⟨hlo, hhi⟩ := elim_val_range precision
  refine ⟨_, renders_string (d := stringDirective flags width precision) rfl hp hl, ?_⟩
  have hlt := (stringDirective flags width precision).columns_lt
  rw [hcols] at hlt
  rw [hpad, hcols, hlim]
  exact stringText_rule_iff flags l (startWidth_cases hw) hlt hlo hhi

/-- witness: "abc" as %5s -/
theorem string_rule_five : ∃ t, Renders (bytes "%5s") [.str (some (bytes "abc" ++ [0]))] t ∧
    (t.map low = stringRule [] 5 (-1) (bytes "abc") ↔ StringFits (chr ' ') 5 3 3) :=
  @string_rule_iff [] (some (.lit 5)) none (fun f hf => by cases hf; decide) (by decide) _ _ [] rfl (by decide)

/-- a text that is not huge fits -/
theorem stringFits_of_lt (c : Byte) {width : ℤ} (hw : -1 ≤ width) {m : ℕ} (hm : m < 1073741824) :
    StringFits c width m m := by
  unfold StringFits FitsInt
  split_ifs <;> omega

/-- A text of 2^30 + 1 characters as %1s: 2^31 - 1 blanks come behind it. -/
theorem string_width_wraps : ∃ t,
    Renders (bytes "%1s") [.str (some (List.replicate 1073741825 (chr 'a') ++ [0]))] t ∧
      t = (List.replicate 1073741825 (chr 'a')).map schar ++ blanks 2147483647 ∧
      t.map low ≠ stringRule [] 1 (-1) (List.replicate 1073741825 (chr 'a')) := by
  have key : ∀ l : List Byte, l.length = 1073741825 → 0#8 ∉ l → ∃ t, Renders (bytes "%1s") [.str (some (l ++ [0]))] t ∧
      t = l.map schar ++ blanks 2147483647 ∧ t.map low ≠ stringRule [] 1 (-1) l := by
    intro l hlen hl
    have hcount : shownCount (-1) l.length = 1073741825 := (shownCount_all _).trans hlen
    have hmin : min l.length (sizeT (-1)) = 1073741825 := by
      rw [hlen]
      decide
    refine ⟨_, @renders_string (stringDirective [] (some (.lit 1)) none) rfl _ _ [] rfl hl, ?_, ?_⟩
    · have hc : 0 < (1 : ℤ) ∧ chr ' ' ≠ chr '-' := by decide
      show stringText (chr ' ') 1 (-1) false l = _
      unfold stringText
      simp only [if_pos hc, hcount, hmin, shown_false]
      rw [← hlen, List.take_length, hlen]
      rfl
    · intro h
      have hfits : StringFits (chr ' ') 1 (min l.length (sizeT (-1))) (shownCount (-1) l.length) :=
        (stringText_rule_iff [] l (Or.inl ⟨rfl, le_refl 1⟩) (by decide) (by decide) (by decide)).1 h
      rw [hcount, hmin] at hfits
      revert hfits
      unfold StringFits
      decide
  exact key _ (List.length_replicate) fun h => absurd (List.eq_of_mem_replicate h) (by decide)

/-! ## A precision and an array without a terminator -/

/-- the text loop leaves an array of no more than `precision` characters, none of them NUL, at its end -/
theorem putStr_unterminated {σ : Type} (putch : Word → σ → σ) (altflag : Bool) {a : List Byte} (ha : 0#8 ∉ a)
    {precision : ℤ} (h : precision < 0 ∨ a.length ≤ precision) (width : ℤ) (s : σ) :
    putStr putch altflag precision width a s = .error .str := by
  induction a generalizing precision width s with
  | nil => rfl
  | cons b a ih =>
    have hb : b ≠ 0#8 := fun h0 => ha (by rw [h0]; exact List.mem_cons_self)
    have ha' : 0#8 ∉ a := fun h0 => ha (List.mem_cons_of_mem _ h0)
    rw [List.length_cons] at h
    push_cast at h
    rw [putStr, if_neg hb]
    split_ifs with hneg hpos
    · exact ih ha' (Or.inl hneg) _ _
    · exact ih ha' (Or.inr (by omega)) _ _
    · omega

theorem convStr_unterminated {σ : Type} (putch : Word → σ → σ) (e : Esc) {a : List Byte} (ha : 0#8 ∉ a)
    (h : e.precision < 0 ∨ a.length ≤ e.precision) (ap : List Arg) (s : σ) :
    convStr putch e (.str (some a) :: ap) s = .error .str := by
  have hnull : orNull (some a) = a := rfl
  have hput := fun w s => putStr_unterminated putch e.altflag ha h w s
  rw [convStr, vaStr, ok_bind]
  simp only [hnull]
  unfold padStr
  split_ifs
  · cases strnlen a (sizeT e.precision) with
    | none => rfl
    | some n =>
      simp only [ok_bind, hput]
      rfl
  · simp only [ok_bind, hput]
    rfl

/-- **The byte behind the array.** Whatever the width and the flags, %.*s with precision n reads index n of an array of
n bytes without a NUL. -/
theorem string_unterminated (flags : List Flag) (width : Option Field) {a : List Byte} (ha : 0#8 ∉ a) {n : Word}
    (hn : n.toNat = a.length) {σ : Type} (putch : Word → σ → σ) (s : σ) (rest : List Byte) (ap : List Arg) :
    vprintfmt putch s ((stringDirective flags width (some (.star n))).text ++ rest)
      ((stringDirective flags width (some (.star n))).args ++ .str (some a) :: ap) = .error .str := by
  obtain ⟨b', hscan, -⟩ := reswitch_directive (stringDirective flags width (some (.star n))) rfl [] rest
    (.str (some a) :: ap)
  have ht : (stringDirective flags width (some (.star n))).text ++ rest =
      chr '%' :: ((stringDirective flags width (some (.star n))).text.tail ++ rest) := rfl
  have hlimit : (stringDirective flags width (some (.star n))).esc.precision = n.toInt := by
    rw [Directive.esc_precision]
    rfl
  have hlong : n.toInt < 0 ∨ (a.length : ℤ) ≤ n.toInt := by
    rw [BitVec.toInt_eq_toNat_cond]
    split_ifs <;> omega
  have hconv : ∀ pf e, convert putch pf (stringDirective flags width (some (.star n))).conv e (.str (some a) :: ap) s =
      some (convStr putch e (.str (some a) :: ap) s) := fun _ _ => rfl
  rw [vprintfmt_eq, ht, vloop_percent, escape, hscan, ok_bind]
  simp only [hconv]
  rw [convStr_unterminated putch _ ha (by rw [hlimit]; exact hlong)]
  rfl

/-- witness: the array "abc" and precision 3, into the list of characters -/
theorem string_unterminated_three :
    vprintfmt Sink.snoc [] (bytes "%.*s" ++ [0]) [.word 3, .str (some (bytes "abc"))] = .error .str :=
  string_unterminated [] none (a := bytes "abc") (n := 3) (by decide) (by decide) Sink.snoc [] [0] []

/-- The array "monitor" and its length, as in the backtrace: the read behind the array fails. -/
theorem string_reads_behind_array :
    emit (bytes "%.*s" ++ [0]) [.word 7, .str (some (bytes "monitor"))] = .error .str ∧
      emit (bytes "%.*s" ++ [0]) [.word 7, .str (some (bytes "monitor" ++ bytes ":"))] =
        .ok ((bytes "monitor").map uchar, []) := by
  constructor
  · decide +kernel
  · decide +kernel

end Jos.Printfmt
