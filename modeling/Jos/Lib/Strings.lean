/-
The byte strings of lib/string.c that the debugger lookup and the formatter use. A pointer is the list of bytes that
can be read from it on, up to the end of the object it points into; a read past that end is `none`. A C string is such
a list with a NUL in it. Offsets are counted from the pointer passed in.
-/
import Mathlib.Tactic

namespace Jos

abbrev Byte := BitVec 8

/-- a C `int` as a machine word -/
abbrev Word := BitVec 32

/-- the character constant `c` -/
def chr (c : Char) : Byte := BitVec.ofNat 8 c.toNat

/-- the bytes of a string literal, without its terminator -/
def bytes (s : String) : List Byte := s.toList.map chr

/-- `(unsigned char) b` promoted to int -/
def uchar (b : Byte) : Word := b.zeroExtend 32

/-- `char` is signed on this target: b promoted to int -/
def schar (b : Byte) : Word := b.signExtend 32

/-- an int as the byte that is stored or sent -/
def low (ch : Word) : Byte := ch.truncate 8

theorem low_uchar (c : Byte) : low (uchar c) = c := by simp [low, uchar]

theorem low_schar : ∀ c : Byte, low (schar c) = c := by decide

/-- the characters of the C string that starts here: everything before the first NUL -/
def cstr (s : List Byte) : List Byte := s.takeWhile (· ≠ 0#8)

/-- `strfind(s, c)`: the offset of the first c in s, or of the terminator -/
def strfind : List Byte → Byte → Option ℕ
  | [], _ => none
  | b :: s, c => if b = 0#8 ∨ b = c then some 0 else (strfind s c).map (· + 1)

/-- `strnlen(s, size)` -/
def strnlen : List Byte → ℕ → Option ℕ
  | _, 0 => some 0
  | [], _ + 1 => none
  | b :: s, size + 1 => if b = 0#8 then some 0 else (strnlen s size).map (· + 1)

theorem cstr_append {l : List Byte} (hl : 0#8 ∉ l) (rest : List Byte) : cstr (l ++ 0#8 :: rest) = l := by
  have h : ∀ b ∈ l, decide (b ≠ 0#8) = true := fun b hb => decide_eq_true fun he => hl (he ▸ hb)
  rw [cstr, List.takeWhile_append_of_pos h, List.takeWhile_cons_of_neg (by simp), List.append_nil]

/-- a pointer to a C string -/
theorem cstr_split {p : List Byte} (h : 0#8 ∈ p) : ∃ rest, p = cstr p ++ 0#8 :: rest ∧ 0#8 ∉ cstr p := by
  induction p with
  | nil => cases h
  | cons b p ih =>
    by_cases hb : b = 0#8
    · exact ⟨p, by simp [cstr, hb], by simp [cstr, hb]⟩
    · have hp : 0#8 ∈ p := by
        rcases List.mem_cons.1 h with h | h
        · exact absurd h.symm hb
        · exact h
      obtain ⟨rest, h1, h2⟩ := ih hp
      have hc : cstr (b :: p) = b :: cstr p := by simp [cstr, hb]
      refine ⟨rest, ?_, ?_⟩
      · rw [hc, List.cons_append, ← h1]
      · rw [hc, List.mem_cons]
        rintro (h | h)
        · exact hb h.symm
        · exact h2 h

/-! ## strfind stops at the character or at the terminator -/

theorem strfind_eq (s : List Byte) (c : Byte) (h : 0#8 ∈ s) :
    strfind s c = some ((cstr s).takeWhile (· ≠ c)).length := by
  induction s with
  | nil => simp at h
  | cons b s ih =>
    by_cases hb : b = 0#8
    · simp [strfind, cstr, hb]
    · have hs : 0#8 ∈ s := by
        rcases List.mem_cons.1 h with h | h
        · exact absurd h.symm hb
        · exact h
      have hc : cstr (b :: s) = b :: cstr s := by simp [cstr, hb]
      rw [strfind, hc]
      by_cases hbc : b = c
      · simp [hbc]
      · rw [ih hs]; simp [hb, hbc]

/-- strnlen of a C string -/
theorem strnlen_eq {l : List Byte} (hl : 0#8 ∉ l) (rest : List Byte) (n : ℕ) :
    strnlen (l ++ 0#8 :: rest) n = some (min l.length n) := by
  induction l generalizing n with
  | nil => cases n <;> simp [strnlen]
  | cons b l ih =>
    have hb : b ≠ 0#8 := fun h => hl (by rw [h]; exact List.mem_cons_self)
    cases n with
    | zero => rfl
    | succ n =>
      rw [List.cons_append, strnlen, if_neg hb, ih fun h => hl (List.mem_cons_of_mem _ h)]
      simp [Nat.succ_min_succ]

end Jos
