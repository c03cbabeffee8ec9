/-
Plain text, as the format and as the argument of %s.

The literal path hands each byte over as an unsigned char (`emit_text`), the %s path as a char, which is signed
(`emit_fmtS`). The width that %s counts down to know its padding is an int, so it wraps around in a text of 2^31 bytes.
-/
import Jos.Printfmt.Emit

namespace Jos.Printfmt

open Sink (snoc feed)

/-- a format without escapes is emitted byte by byte -/
theorem emit_text (l : List Byte) (hl : ∀ b ∈ l, b ≠ chr '%' ∧ b ≠ 0#8) :
    emit (l ++ [0#8]) [] = .ok (l.map uchar, []) := by
  rw [emit, vprintfmt_eq, vloop_text _ _ l hl, vloop_nul, Sink.feed_free, List.nil_append]

theorem pad_feed {σ : Type} (putch : Word → σ → σ) (c : Word) (n : ℕ) (s : σ) :
    pad putch c n s = feed putch s (List.replicate n c) := by
  induction n generalizing s with
  | zero => rfl
  | succ n ih => exact ih _

/-- how many of n characters the precision lets through -/
def shownCount (precision : ℤ) (n : ℕ) : ℕ := if precision < 0 then n else min n precision.toNat

theorem shownCount_le (precision : ℤ) (n : ℕ) : shownCount precision n ≤ n := by
  unfold shownCount
  split_ifs
  · exact le_refl n
  · exact min_le_left _ _

/-- a precision of -1 is none -/
theorem shownCount_all (n : ℕ) : shownCount (-1) n = n :=
  if_pos (by decide)

/-- a precision that wraps around is 2^32 too small at least -/
theorem shown_wraps {n k m : ℕ} (hm : m = shownCount (int32 k) n) (hkn : k ≤ n) (hlt : m < k) : m + 4294967296 ≤ k := by
  unfold shownCount at hm
  split_ifs at hm with hneg
  · omega
  · have hp : int32 k = m := by omega
    have hwrap : int32 k ≠ k → int32 k + 4294967296 ≤ k := by
      unfold int32
      omega
    omega

/-- **The text loop of %s.** -/
theorem putStr_feed {σ : Type} (putch : Word → σ → σ) (altflag : Bool) {l : List Byte} (hl : 0#8 ∉ l) (rest : List Byte)
    (precision : ℤ) {width : ℤ} (hw : int32 width = width) (s : σ) :
    putStr putch altflag precision width (l ++ 0#8 :: rest) s =
      .ok (int32 (width - shownCount precision l.length),
        feed putch s ((l.take (shownCount precision l.length)).map (shown altflag))) := by
  induction l generalizing precision width s with
  | nil => simp [putStr, hw, shownCount]
  | cons b l ih =>
    have hb : b ≠ 0#8 := fun h => hl (by rw [h]; exact List.mem_cons_self)
    have hstep : int32 (int32 (width - 1)) = int32 (width - 1) := by unfold int32; omega
    have hcount : ∀ k : ℕ, int32 (int32 (width - 1) - k) = int32 (width - (k + 1 : ℕ)) := by
      intro k
      push_cast
      unfold int32
      omega
    rw [List.cons_append, putStr, if_neg hb]
    split_ifs with hneg hpos
    · have hk : shownCount precision (b :: l).length = shownCount precision l.length + 1 := by
        simp [shownCount, hneg]
      rw [ih (fun h => hl (List.mem_cons_of_mem _ h)) precision hstep, hcount, hk]
      rfl
    · have hk : shownCount precision (b :: l).length = shownCount (precision - 1) l.length + 1 := by
        unfold shownCount
        rw [if_neg hneg, if_neg (by omega), List.length_cons]
        omega
      rw [ih (fun h => hl (List.mem_cons_of_mem _ h)) (precision - 1) hstep, hcount, hk]
      rfl
    · have hk : shownCount precision (b :: l).length = 0 := by
        rw [shownCount, if_neg hneg, show precision.toNat = 0 by omega, Nat.min_zero]
      rw [hk, Nat.cast_zero, sub_zero, hw]
      rfl

/-- the characters that %s makes of a text: its bytes as signed chars, and padding once the width has wrapped -/
def strChars (l : List Byte) : List Word :=
  l.map schar ++ List.replicate (int32 (-1 - l.length)).toNat (uchar (chr ' '))

theorem shown_false : shown false = schar := by
  funext b
  simp [shown]

theorem emit_fmtS {l : List Byte} (hl : 0#8 ∉ l) (rest : List Byte) :
    emit fmtS [.str (some (l ++ 0#8 :: rest))] = .ok (strChars l, []) := by
  have hput := putStr_feed snoc false hl rest (-1) (show int32 (-1) = -1 by decide) []
  rw [shownCount_all, List.take_length, shown_false, Sink.feed_free, List.nil_append] at hput
  rw [emit, vprintfmt_eq, vloop_fmtS]
  show (do
    let (width, s) ← putStr snoc false (-1) (-1) (l ++ 0#8 :: rest) []
    return (pad snoc (uchar (chr ' ')) width.toNat s, [])) = _
  rw [hput]
  show Except.ok (pad snoc (uchar (chr ' ')) (int32 (-1 - l.length)).toNat (l.map schar), []) = _
  rw [pad_feed, Sink.feed_free]
  rfl

end Jos.Printfmt
