/-
`strtol` reads back what `snprintf` has printed.

- `strtol_number`: strtol on blanks, a sign and a numeral.
- **`snprintf_strtol`**: for %d, %o, %x and %p, and for %u, %o and %x behind blanks.
-/
import Jos.Lib.Strtol
import Jos.Printfmt.Number
import Jos.Printfmt.Snprintf

namespace Jos.Printfmt

open Numeral (numeral value)
open Strtol (strtol isBlank valid digitVal signed IsNumber)

/-! ## Numerals as strtol sees them -/

theorem dig_digitChar : ∀ d < 16, Strtol.dig (digitChar d) = some d := by decide

theorem digitVal_digitChar {d : ℕ} (h : d < 16) : digitVal (digitChar d) = d := by
  rw [digitVal, dig_digitChar d h, Option.getD_some]

theorem valid_digitChar {b d : ℕ} (hb : b ≤ 16) (h : d < b) : valid b (digitChar d) = true := by
  rw [valid, dig_digitChar d (by omega), Option.any_some]
  exact decide_eq_true h

theorem valid_numeralText (base : Base) (n : ℕ) : ∀ c ∈ numeralText base n, valid base.val c = true := by
  intro c hc
  obtain ⟨d, hd, rfl⟩ := List.mem_map.1 hc
  exact valid_digitChar base.le_16 (Numeral.numeral_lt base.two_le n d hd)

theorem number_numeralText (base : Base) (n : ℕ) : Strtol.number base.val (numeralText base n) = n := by
  have hds : (numeralText base n).map digitVal = numeral base.val n := by
    rw [numeralText, List.map_map]
    refine (List.map_congr_left fun d hd => ?_).trans (List.map_id _)
    exact digitVal_digitChar ((Numeral.numeral_lt base.two_le n d hd).trans_le base.le_16)
  rw [Strtol.number, hds, Numeral.value_numeral base.two_le]

theorem numeralText_ne_nil (base : Base) (n : ℕ) : numeralText base n ≠ [] := by
  intro h
  have := Numeral.numeral_length_pos base.val n
  rw [List.map_eq_nil_iff.1 h] at this
  cases this

theorem numeralText_head (base : Base) (n : ℕ) : ∃ c t, numeralText base n = c :: t ∧ (Strtol.dig c).isSome = true := by
  obtain ⟨c, t, h⟩ := List.exists_cons_of_ne_nil (numeralText_ne_nil base n)
  refine ⟨c, t, h, Strtol.dig_of_valid (valid_numeralText base n c ?_)⟩
  rw [h]
  exact List.mem_cons_self

/-- a numeral has no prefix: x is no digit of any base up to 16 -/
theorem not_hex_numeralText (base : Base) (n : ℕ) : ¬ Strtol.Hex base.val (numeralText base n) := by
  rintro ⟨-, r, h⟩
  have hx := valid_numeralText base n (chr 'x') (by rw [← h]; simp)
  have hle := base.le_16
  simp only [valid] at hx
  rw [show Strtol.dig (chr 'x') = some 33 from by decide, Option.any_some, decide_eq_true_eq] at hx
  omega

/-- **strtol on a numeral**, behind blanks and a sign -/
theorem strtol_number {bl sg : List Byte} (hbl : ∀ c ∈ bl, isBlank c = true)
    (hsg : sg = [] ∨ sg = [chr '+'] ∨ sg = [chr '-']) (base : Base) (n : ℕ) (rest : List Byte) :
    strtol (bl ++ sg ++ numeralText base n ++ 0#8 :: rest) base.val =
      some (BitVec.ofInt 32 (signed sg n), (bl ++ sg ++ numeralText base n).length) := by
  obtain ⟨htake, hsign, hrest⟩ := Strtol.take_apart hbl hsg (numeralText_head base n)
  have hx := not_hex_numeralText base n
  have hne : base.val ≠ 0 := by have := base.two_le; omega
  have hded : Strtol.deduced base.val (numeralText base n) = base.val := if_pos hne
  have hpre : Strtol.prefixLength base.val (numeralText base n) = 0 := by
    rw [Strtol.prefixLength, if_neg hx, if_neg fun h => hne h.1]
  have hbase : Strtol.digitBase base.val (numeralText base n) = base.val := by
    rw [Strtol.digitBase, if_neg hx, hded]
  have hds : Strtol.digitsOf base.val (numeralText base n) = numeralText base n := by
    rw [Strtol.digitsOf, hpre, hbase, List.drop_zero]
    exact List.takeWhile_eq_self_iff.2 (valid_numeralText base n)
  rw [Strtol.strtol_eq, Strtol.valueOf, Strtol.endOf, htake, hsign, hrest, hpre, hbase, hds, number_numeralText]
  simp [Nat.add_assoc]

/-- strtol on a pointer: "0x" and hex digits, with base 0 or 16 -/
theorem strtol_pointer {base : ℕ} (hb : base = 0 ∨ base = 16) (n : ℕ) (rest : List Byte) :
    strtol (chr '0' :: chr 'x' :: numeralText base16 n ++ 0#8 :: rest) base =
      some (BitVec.ofInt 32 n, (chr '0' :: chr 'x' :: numeralText base16 n).length) := by
  obtain ⟨htake, hsign, hrest⟩ := @Strtol.take_apart [] [] (chr '0' :: chr 'x' :: numeralText base16 n) (by simp)
    (Or.inl rfl) ⟨_, _, rfl, by decide⟩
  have hx : Strtol.Hex base (chr '0' :: chr 'x' :: numeralText base16 n) := ⟨hb, List.prefix_append _ _⟩
  have hds : Strtol.digitsOf base (chr '0' :: chr 'x' :: numeralText base16 n) = numeralText base16 n := by
    rw [Strtol.digitsOf_hex hx]
    exact List.takeWhile_eq_self_iff.2 (valid_numeralText base16 n)
  have hpre : Strtol.prefixLength base (chr '0' :: chr 'x' :: numeralText base16 n) = 2 := if_pos hx
  have hbase : Strtol.digitBase base (chr '0' :: chr 'x' :: numeralText base16 n) = base16.val := if_pos hx
  simp only [List.nil_append] at htake hsign hrest
  rw [Strtol.strtol_eq, Strtol.valueOf, Strtol.endOf, htake, hsign, hrest, hpre, hbase, hds, number_numeralText]
  simp [signed, Nat.add_comm 2]

/-! ## snprintf, then strtol -/

/-- printed into any buffer with room for the whole text t and a NUL, t reads back as v, up to that NUL -/
def ReadsBack (fmt : List Byte) (ap : List Arg) (base : ℤ) (v : Word) : Prop :=
  ∃ t : List Word, emit (fmt ++ [0#8]) ap = .ok (t, []) ∧ t.length < 2 ^ 31 ∧
    ∀ (ram : Ram 32) (buf : Word) (n : ℤ), buf ≠ 0 → t.length < n → buf.toNat + n ≤ 2 ^ 32 →
      ∃ ram', snprintf ram buf n (fmt ++ [0#8]) ap = .ok (t.length, ram') ∧
        strtol (ram'.peek buf n.toNat) base = some (v, t.length) ∧ ram'.byte (buf + BitVec.ofNat 32 t.length) = 0

theorem readsBack_of_renders {fmt : List Byte} {ap : List Arg} {t : List Word} (h : Renders fmt ap t)
    (ht : t.length < 2 ^ 31) {base : ℤ} {v : Word}
    (hv : ∀ rest, strtol (t.map low ++ 0#8 :: rest) base = some (v, (t.map low).length)) : ReadsBack fmt ap base v := by
  refine ⟨t, h.emit, ht, fun ram buf n hbuf hlen hfit => ?_⟩
  have hwritten := @written_stores buf (t.map low) (by rw [List.length_map]; omega) ram
  have hall : t.take (n - 1).toNat = t := List.take_of_length_le (by omega)
  have hrun := vsnprintf_eq h.emit ht hbuf (by omega) hfit ram
  rw [hall] at hrun
  obtain ⟨k, hk⟩ : ∃ k, n.toNat = (t.map low).length + (k + 1) := ⟨n.toNat - t.length - 1, by rw [List.length_map]; omega⟩
  refine ⟨_, hrun, ?_, ?_⟩
  · rw [hk, Ram.peek_add, hwritten.peek, Ram.peek_succ, hwritten.nul]
    exact (hv _).trans (by rw [List.length_map])
  · have hnul := hwritten.nul
    rwa [List.length_map] at hnul

/-- a sign and a magnitude, as strtol puts them together -/
theorem signed_sign (v : ℤ) :
    ((sign v).map low = [] ∨ (sign v).map low = [chr '+'] ∨ (sign v).map low = [chr '-']) ∧
      signed ((sign v).map low) v.natAbs = v ∧ (sign v).length ≤ 1 := by
  by_cases h : v < 0
  · have hs : sign v = [uchar (chr '-')] := if_pos h
    have hl : ([uchar (chr '-')].map low : List Byte) = [chr '-'] := rfl
    rw [hs, hl]
    refine ⟨Or.inr (Or.inr rfl), ?_, le_refl _⟩
    rw [signed, if_pos rfl, Int.ofNat_natAbs_of_nonpos h.le, neg_neg]
  · have hs : sign v = [] := if_neg h
    rw [hs]
    refine ⟨Or.inl rfl, ?_, by simp⟩
    rw [signed, if_neg (by decide)]
    exact Int.natAbs_of_nonneg (not_lt.1 h)

/-- every number is short -/
theorem length_padded_lt {c : Byte} {w : ℤ} (hw : w < 2147483648) {base : Base} {n : ℕ} (hn : n < 2 ^ 64) :
    (padded c w (unsignedText base n)).length < 2 ^ 31 := by
  have h1 := length_padded c w (unsignedText base n)
  have h2 := length_unsignedText_le base hn
  omega

/-- %d -/
theorem readsBack_signed (v : Word) : ReadsBack (bytes "%d") [.word v] 10 v := by
  have h := renders_signed [] none (by simp) 0 v.toInt
  rw [int32_zero, signedVal_word, (longArg_word v).2, padded_of_le (by simp)] at h
  have hlt := v.toInt_lt
  have hge := v.le_toInt
  have habs : v.toInt.natAbs < 2 ^ 64 := by omega
  have hlen := length_unsignedText_le base10 habs
  obtain ⟨hsg, hval, hone⟩ := signed_sign v.toInt
  refine readsBack_of_renders h ?_ fun rest => ?_
  · rw [List.length_append]
    exact lt_of_le_of_lt (Nat.add_le_add hone hlen) (by decide)
  · have hrun := @strtol_number [] _ (by simp) hsg base10 v.toInt.natAbs rest
    rw [hval, BitVec.ofInt_toInt] at hrun
    rw [List.map_append, low_unsignedText]
    exact hrun

/-- %u, %o and %x behind blanks -/
theorem readsBack_unsigned (r : Radix) (flags : List Flag) (hpad : padChar flags = chr ' ') (width : Option Field)
    (hw : ∀ f ∈ width, 0 ≤ f.val) (v : Word) :
    ReadsBack (r.directive flags width 0).text ((r.directive flags width 0).args ++ [.word v]) r.base.val v := by
  have h := renders_unsigned r flags width hw 0 v.toNat
  rw [int32_zero, unsignedVal_word, (longArg_word v).1, hpad] at h
  have hn : v.toNat < 2 ^ 64 := v.isLt.trans (by decide)
  have hcols : width.elim 0 Field.val < 2147483648 := by
    cases width with
    | none => decide
    | some f => exact f.val_lt
  refine readsBack_of_renders h (length_padded_lt hcols hn) fun rest => ?_
  have hblank : ∀ k : ℕ, ∀ c ∈ List.replicate k (chr ' '), isBlank c = true := by
    intro k c hc
    rw [List.eq_of_mem_replicate hc]
    rfl
  have hrun := strtol_number (hblank (width.elim 0 Field.val - (unsignedText r.base v.toNat).length).toNat)
    (Or.inl rfl) r.base v.toNat rest
  rw [List.append_nil, signed, if_neg (by decide), BitVec.ofInt_natCast, BitVec.ofNat_toNat, BitVec.setWidth_eq] at hrun
  rw [padded, List.map_append, List.map_replicate, low_schar, low_unsignedText]
  exact hrun

/-- %p -/
theorem readsBack_pointer {base : ℕ} (hb : base = 0 ∨ base = 16) (v : Word) : ReadsBack (bytes "%p") [.word v] base v := by
  have h := renders_ptr (d := ⟨[], none, none, 0, chr 'p'⟩) rfl (le_refl _) v
  have hn : v.toNat < 2 ^ 64 := v.isLt.trans (by decide)
  have hlen := length_unsignedText_le base16 hn
  have hpad : padded (chr ' ') (-1) (unsignedText base16 v.toNat) = unsignedText base16 v.toNat := padded_of_le (by omega) _
  change Renders (bytes "%p") [.word v] ([uchar (chr '0'), uchar (chr 'x')] ++ padded (chr ' ') (-1) _) at h
  rw [hpad] at h
  refine readsBack_of_renders h ?_ fun rest => ?_
  · rw [List.length_append]
    exact lt_of_le_of_lt (Nat.add_le_add_left hlen _) (by decide)
  · have hrun := strtol_pointer hb v.toNat rest
    rw [BitVec.ofInt_natCast, BitVec.ofNat_toNat, BitVec.setWidth_eq] at hrun
    rw [List.map_append, low_unsignedText]
    exact hrun

/-- **Parsing undoes printing.** -/
theorem snprintf_strtol (v : Word) :
    ReadsBack (bytes "%d") [.word v] 10 v ∧ ReadsBack (bytes "%o") [.word v] 8 v ∧
    ReadsBack (bytes "%x") [.word v] 16 v ∧ ReadsBack (bytes "%p") [.word v] 0 v ∧
    ReadsBack (bytes "%p") [.word v] 16 v ∧
    ∀ (r : Radix) (flags : List Flag) (width : Option Field), padChar flags = chr ' ' → (∀ f ∈ width, 0 ≤ f.val) →
      ReadsBack (r.directive flags width 0).text ((r.directive flags width 0).args ++ [.word v]) r.base.val v := by
  refine ⟨readsBack_signed v, readsBack_unsigned .o [] rfl none (by simp) v,
    readsBack_unsigned .x [] rfl none (by simp) v, readsBack_pointer (Or.inl rfl) v,
    readsBack_pointer (Or.inr rfl) v, ?_⟩
  intro r flags width hpad hw
  exact readsBack_unsigned r flags hpad width hw v

/-- witness: the most negative value as %12u, in a buffer of 13 bytes -/
theorem snprintf_strtol_twelve : ∃ ram', snprintf ⟨fun _ => 1, []⟩ 0x1000 13 (bytes "%12u" ++ [0]) [.word 0x80000000] =
    .ok (12, ram') ∧ strtol (ram'.peek 0x1000 13) 10 = some (0x80000000, 12) ∧ ram'.byte 0x100C = 0 := by
  have hemit : emit (bytes "%12u" ++ [0]) [.word 0x80000000] = .ok ((bytes "  2147483648").map uchar, []) := by
    decide +kernel
  obtain ⟨t, ht, -, hread⟩ :=
    (snprintf_strtol 0x80000000).2.2.2.2.2 .u [] (some (.lit 12)) rfl fun f hf => by cases hf; decide
  obtain ⟨rfl, -⟩ := Prod.mk.inj (Except.ok.inj (hemit.symm.trans ht))
  exact hread ⟨fun _ => 1, []⟩ 0x1000 13 (by decide) (by decide) (by decide)

end Jos.Printfmt
