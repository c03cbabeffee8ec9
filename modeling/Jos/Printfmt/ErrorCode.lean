/-
Error codes, %e.

The code is negated if it is negative, and looked up in the table if it is below MAXERROR. Negation leaves one int negative,
the most negative one, and there the table is read in front of its start.

- `emit_error`: what a directive with %e emits is what case 'e' does, whatever its flags are.
- **`error_code_iff`**: both signs print the message or the number, from inside the table, for all codes but that one.
-/
import Jos.Printfmt.Cprintf
import Jos.Printfmt.Number
import Jos.Printfmt.StringConv

namespace Jos.Printfmt

open Sink (snoc)

/-- the message for error n in the table, if it has one -/
def message (n : ℕ) : Option (List Byte) := errorTable[n]?.join

/-- the message, or "error " and the magnitude -/
def errorText (v : ℤ) : List Word :=
  (message v.natAbs).elim ((bytes "error ").map uchar ++ unsignedText base10 v.natAbs) (·.map uchar)

def errorDirective (flags : List Flag) (width precision : Option Field) (long : ℕ) : Directive :=
  ⟨flags, width, precision, long, chr 'e'⟩

/-- the index at which case 'e' reads `error_string`, if it does -/
def consulted (err : Word) : Option ℤ := if absErr err ≥ MAXERROR then none else some (absErr err)

/-! ## Case 'e' -/

theorem errMsg_consulted (err : Word) : errMsg (absErr err) = (consulted err).elim (.ok none) errorString := by
  unfold errMsg consulted
  split_ifs
  · rfl
  · rfl

theorem errMsg_nat (n : ℕ) : errMsg n = .ok (message n) := by
  unfold errMsg
  split_ifs with hn
  · have hnone : errorTable[n]? = none := by
      have hlen : errorTable.length ≤ n := by
        unfold MAXERROR at hn
        show 8 ≤ n
        omega
      exact List.getElem?_eq_none hlen
    rw [message, hnone]
    rfl
  · have hlt : n < errorTable.length := by
      show n < 8
      unfold MAXERROR at hn
      omega
    rw [errorString, if_neg (by omega), Int.toNat_natCast, message, List.getElem?_eq_getElem hlt]
    rfl

theorem absErr_of_ne {err : Word} (h : err.toInt ≠ -2 ^ 31) : absErr err = err.toInt.natAbs := by
  have hlo := err.le_toInt
  have hhi := err.toInt_lt
  unfold absErr
  split_ifs with hneg
  · rw [int32_of_lt (by omega) (by omega)]
    omega
  · omega

/-- the most negative code stays what it is -/
theorem absErr_min {err : Word} (h : err.toInt = -2 ^ 31) : absErr err = -2 ^ 31 := by
  rw [absErr, h]
  decide

theorem Renders.nested {f : List Byte} {a : List Arg} {t : List Word} (h : Renders f a t) (s : List Word) :
    nested s (f ++ [0#8]) a = .ok (s ++ t) := by
  have hrun := h _ snoc (fun s fmt ap => (vprintfmtN snoc 0 s fmt ap).map Prod.fst) [] [0#8] [] s
  rw [List.append_nil, vloop_nul, Sink.feed_free] at hrun
  rw [Printfmt.nested, vprintfmtN, hrun]
  rfl

/-- the magnitude as an int -/
theorem renders_magnitude {n : ℕ} (hn : n < 2 ^ 31) :
    Renders (bytes "error %d") [.word (BitVec.ofInt 32 n)] ((bytes "error ").map uchar ++ unsignedText base10 n) := by
  have h := (renders_literal (bytes "error ") (by decide)).append (renders_dec n)
  have hval : signedVal 0 n = n := by
    rw [signedVal, bits, if_neg (by decide), Int.bmod_def]
    norm_num
    omega
  rw [hval, signedText, sign, if_neg (by omega), Int.natAbs_natCast, List.nil_append] at h
  exact h

/-- the messages are plain text -/
theorem renders_message {n : ℕ} {msg : List Byte} (h : message n = some msg) :
    Renders (bytes "%s") [.str (some (msg ++ [0#8]))] (msg.map uchar) := by
  have hmsg : ∀ m ∈ errorTable, ∀ msg ∈ m, 0#8 ∉ msg ∧ stringText (chr ' ') (-1) (-1) false msg = msg.map uchar := by
    decide
  have hmem : some msg ∈ errorTable := by
    unfold message at h
    exact List.mem_of_getElem? (Option.join_eq_some_iff.1 h)
  obtain ⟨h0, htext⟩ := hmsg _ hmem msg rfl
  have hrun := (renders_str (p := msg ++ [0#8]) (List.mem_append_right msg List.mem_cons_self)).1
  rwa [cstr_append h0, htext] at hrun

/-- **Case 'e'**, unless the code is the most negative one -/
theorem convErr_eq {err : Word} (h : err.toInt ≠ -2 ^ 31) (ap : List Arg) (s : List Word) :
    convErr nested (.word err :: ap) s = .ok (s ++ errorText err.toInt, ap) := by
  have hlo := err.le_toInt
  have hhi := err.toInt_lt
  have hlt : err.toInt.natAbs < 2 ^ 31 := by omega
  rw [convErr, vaInt, ok_bind]
  simp only [absErr_of_ne h, errMsg_nat, ok_bind, errorText]
  cases hmsg : message err.toInt.natAbs with
  | none =>
    simp only [fmtErrorD, (renders_magnitude hlt).nested, ok_bind]
    rfl
  | some msg =>
    simp only [fmtS, (renders_message hmsg).nested, ok_bind]
    rfl

/-- with the most negative code it reads in front of the table -/
theorem convErr_min {err : Word} (h : err.toInt = -2 ^ 31) (ap : List Arg) (s : List Word) :
    convErr nested (.word err :: ap) s = .error (.errorString (-2 ^ 31)) := by
  rw [convErr, vaInt, ok_bind]
  simp only [absErr_min h]
  rfl

/-! ## The directive -/

/-- a directive with %e does what case 'e' does: its flags, width and precision make no difference -/
theorem emit_error (flags : List Flag) (width precision : Option Field) (long : ℕ) (err : Word) :
    emit ((errorDirective flags width precision long).text ++ [0#8])
        ((errorDirective flags width precision long).args ++ [.word err]) = convErr nested [.word err] [] := by
  generalize hd : errorDirective flags width precision long = d
  have hconv : d.conv = chr 'e' := by rw [← hd]; rfl
  obtain ⟨b', hscan, -⟩ := reswitch_directive d (by rw [hconv]; rfl) [] [0#8] [.word err]
  have hcase : convert snoc nested d.conv d.esc [.word err] [] = some (convErr nested [.word err] []) := by
    rw [hconv]
    rfl
  have ht : d.text ++ [0#8] = chr '%' :: (d.text.tail ++ [0#8]) := rfl
  show vloop snoc nested ⟨[], d.text ++ [0#8]⟩ (d.args ++ [.word err]) [] = _
  rw [ht, vloop_percent, escape, hscan, ok_bind]
  simp only [hcase]
  by_cases h : err.toInt = -2 ^ 31
  · rw [convErr_min h]
    rfl
  · rw [convErr_eq h, map_ok, ok_bind]
    exact vloop_nul _ _ _ _ _ _

/-- negation changes the sign, and of the most negative code not even that -/
theorem natAbs_neg (err : Word) : (-err).toInt.natAbs = err.toInt.natAbs := by
  have hlo := err.le_toInt
  have hhi := err.toInt_lt
  rw [BitVec.toInt_neg, Int.bmod_def]
  norm_num at hlo hhi ⊢
  split_ifs <;> omega

/-- **Error codes.** For every code and every directive with %e: the table is read inside its bounds, and the code and its
negation print the same, the message or "error " and the magnitude, if and only if the code is not the most negative int. -/
theorem error_code_iff (flags : List Flag) (width precision : Option Field) (long : ℕ) (err : Word) :
    ((∀ i, consulted err = some i → 0 ≤ i ∧ i < MAXERROR) ∧
        emit ((errorDirective flags width precision long).text ++ [0#8])
          ((errorDirective flags width precision long).args ++ [.word err]) = .ok (errorText err.toInt, []) ∧
        emit ((errorDirective flags width precision long).text ++ [0#8])
          ((errorDirective flags width precision long).args ++ [.word (-err)]) = .ok (errorText err.toInt, [])) ↔
      err.toInt ≠ -2 ^ 31 := by
  rw [emit_error, emit_error]
  constructor
  · rintro ⟨-, h, -⟩ hmin
    rw [convErr_min hmin] at h
    cases h
  · intro h
    have hneg : (-err).toInt ≠ -2 ^ 31 := by
      intro hmin
      have hhi := err.toInt_lt
      have habs := natAbs_neg err
      rw [hmin] at habs
      omega
    have htext : errorText (-err).toInt = errorText err.toInt := by rw [errorText, errorText, natAbs_neg]
    refine ⟨fun i hi => ?_, by rw [convErr_eq h, List.nil_append], by rw [convErr_eq hneg, htext, List.nil_append]⟩
    unfold consulted at hi
    split_ifs at hi with hmax
    cases hi
    rw [absErr_of_ne h] at hmax ⊢
    exact ⟨Int.natCast_nonneg _, not_le.1 hmax⟩

/-- **The most negative code.** The table is read 2^31 entries in front of its start. -/
theorem error_code_min :
    consulted 0x80000000 = some (-2 ^ 31) ∧ emit (bytes "%e" ++ [0]) [.word 0x80000000] = .error (.errorString (-2 ^ 31)) ∧
      ¬ ∃ t, emit (bytes "%e" ++ [0]) [.word 0x80000000] = .ok (t, []) := by
  have h : emit (bytes "%e" ++ [0]) [.word 0x80000000] = .error (.errorString (-2 ^ 31)) := by decide +kernel
  refine ⟨by decide, h, ?_⟩
  rintro ⟨t, ht⟩
  rw [h] at ht
  cases ht

end Jos.Printfmt
