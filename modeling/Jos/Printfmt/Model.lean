/-
The formatter of lib/printfmt.c: `printnum`, `getuint`, `getint` and `vprintfmt`.

The format pointer is a cursor `Fmt` into the bytes of the format, its NUL included, so that `*fmt++`, the look-ahead of
the digit loop and the backward scan `fmt[-1]` of the default case are all reads that can fail. The variable arguments
are a list of typed values. The sink `putch(ch, putdat)` is a function on an arbitrary state. `int` arithmetic wraps at
32 bits. Undefined behaviour is a `Fault`: a read outside the format, a string or the table of error messages, and an
argument that is missing or of the wrong kind.

`vprintfmt` calls itself through `printfmt` for %e, with formats that do not contain %e: `vprintfmtN n` allows n nested
calls, and `vprintfmt_eq` shows that two levels are the whole recursion.
-/
import Jos.Core.Fallible
import Jos.Lib.Strings

namespace Jos.Printfmt

/-! ## Data -/

/-- one variable argument -/
inductive Arg where
  /-- int, long, unsigned, or a `void *` -/
  | word (w : Word)
  /-- (unsigned) long long -/
  | dword (w : BitVec 64)
  /-- `char *`: the readable bytes, or NULL -/
  | str (p : Option (List Byte))
deriving DecidableEq, Repr

inductive Fault where
  | fmt
  | arg
  | str
  | errorString (i : ℤ)
  | nested
deriving DecidableEq, Repr

/-- the value of a 32-bit `int` after wraparound -/
def int32 (x : ℤ) : ℤ := (x + 2147483648) % 4294967296 - 2147483648

theorem int32_lt (x : ℤ) : int32 x < 2147483648 := by
  unfold int32; omega

theorem int32_ge (x : ℤ) : -2147483648 ≤ int32 x := by
  unfold int32; omega

theorem int32_of_lt {x : ℤ} (h0 : -2147483648 ≤ x) (h1 : x < 2147483648) : int32 x = x := by
  unfold int32; omega

theorem int32_zero : int32 (0 : ℕ) = 0 := rfl

theorem int32_succ (x : ℤ) : int32 (int32 x + 1) = int32 (x + 1) := by
  unfold int32; omega

theorem toInt_ofInt (x : ℤ) : (BitVec.ofInt 32 x).toInt = int32 x := by
  rw [BitVec.toInt_ofInt, Int.bmod_def, int32]
  norm_num
  split_ifs <;> omega

/-- the pointer `fmt`: the bytes before it, nearest first, and the bytes from it on -/
structure Fmt where
  behind : List Byte
  ahead : List Byte
deriving DecidableEq, Repr

/-- the locals that every %-escape resets -/
structure Esc where
  padc : Byte
  width : ℤ
  precision : ℤ
  lflag : ℤ
  altflag : Bool
deriving DecidableEq, Repr

def Esc.init : Esc := ⟨chr ' ', -1, -1, 0, false⟩

/-- a base that `printnum` supports -/
structure Base where
  val : ℕ
  two_le : 2 ≤ val
  le_16 : val ≤ 16

def base8 : Base := ⟨8, by decide, by decide⟩
def base10 : Base := ⟨10, by decide, by decide⟩
def base16 : Base := ⟨16, by decide, by decide⟩

/-- "0123456789abcdef"[d] -/
def digit (d : ℕ) : Word := uchar ((bytes "0123456789abcdef").getD d 0)

def MAXERROR : ℤ := 8

/-- `error_string`: the entries 0 and E_NO_SYS (7) are NULL -/
def errorTable : List (Option (List Byte)) :=
  [none, some (bytes "unspecified error"), some (bytes "bad environment"), some (bytes "invalid parameter"),
    some (bytes "out of memory"), some (bytes "out of environments"), some (bytes "segmentation fault"), none]

/-- `error_string[err]` -/
def errorString (err : ℤ) : Except Fault (Option (List Byte)) :=
  if err < 0 then .error (.errorString err)
  else match errorTable[err.toNat]? with
    | some msg => .ok msg
    | none => .error (.errorString err)

/-! ## Arguments -/

def vaInt : List Arg → Except Fault (Word × List Arg)
  | .word w :: ap => .ok (w, ap)
  | _ => .error .arg

def vaStr : List Arg → Except Fault (Option (List Byte) × List Arg)
  | .str p :: ap => .ok (p, ap)
  | _ => .error .arg

def vaLongLong : List Arg → Except Fault (BitVec 64 × List Arg)
  | .dword w :: ap => .ok (w, ap)
  | _ => .error .arg

/-- on this target long and int are both 32 bits -/
def getuint (ap : List Arg) (lflag : ℤ) : Except Fault (BitVec 64 × List Arg) :=
  if lflag ≥ 2 then vaLongLong ap else (vaInt ap).map fun (w, ap) => (w.zeroExtend 64, ap)

def getint (ap : List Arg) (lflag : ℤ) : Except Fault (BitVec 64 × List Arg) :=
  if lflag ≥ 2 then vaLongLong ap else (vaInt ap).map fun (w, ap) => (w.signExtend 64, ap)

/-! ## Output -/

section Output

variable {σ : Type} (putch : Word → σ → σ)

/-- n times `putch(c, putdat)`: the loops `for (; width > 0; width--)` with n = width -/
def pad (c : Word) : ℕ → σ → σ
  | 0, s => s
  | n + 1, s => pad c n (putch c s)

/-- more significant digits first; the pad characters `while (--width > 0)` come before the first digit -/
def printnum (num : ℕ) (base : Base) (width : ℤ) (padc : Word) (s : σ) : σ :=
  if base.val ≤ num then
    putch (digit (num % base.val)) (printnum (num / base.val) base (int32 (width - 1)) padc s)
  else
    putch (digit (num % base.val)) (pad putch padc (int32 (width - 1)).toNat s)
termination_by num
decreasing_by exact Nat.div_lt_self (by have := base.two_le; omega) base.two_le

/-- `altflag && (ch < ' ' || ch > '~')` prints '?' instead of ch -/
def shown (altflag : Bool) (b : Byte) : Word :=
  if altflag ∧ ((schar b).toInt < 32 ∨ 126 < (schar b).toInt) then uchar (chr '?') else schar b

/-- `for (; (ch = *p++) != '\0' && (precision < 0 || --precision >= 0); width--)`: the final width. The next byte is
read before the precision is tested. -/
def putStr (altflag : Bool) : ℤ → ℤ → List Byte → σ → Except Fault (ℤ × σ)
  | _, _, [], _ => .error .str
  | precision, width, b :: p, s =>
    if b = 0#8 then .ok (width, s)
    else if precision < 0 then putStr altflag precision (int32 (width - 1)) p (putch (shown altflag b) s)
    else if 0 ≤ precision - 1 then putStr altflag (precision - 1) (int32 (width - 1)) p (putch (shown altflag b) s)
    else .ok (width, s)

/-- an int passed as `size_t` -/
def sizeT (n : ℤ) : ℕ := (BitVec.ofInt 32 n).toNat

/-- the left padding of case 's': the width left for the text and what follows it -/
def padStr (e : Esc) (p : List Byte) (s : σ) : Except Fault (ℤ × σ) :=
  if 0 < e.width ∧ e.padc ≠ chr '-' then
    match strnlen p (sizeT e.precision) with
    | none => .error .str
    | some n =>
      let width := int32 (e.width - n)
      .ok (min width 0, pad putch (schar e.padc) width.toNat s)
  else .ok (e.width, s)

/-- NULL prints as "(null)" -/
def orNull (p : Option (List Byte)) : List Byte := p.getD (bytes "(null)" ++ [0#8])

/-- case 's' -/
def convStr (e : Esc) (ap : List Arg) (s : σ) : Except Fault (σ × List Arg) := do
  let (p, ap) ← vaStr ap
  let (width, s) ← padStr putch e (orNull p) s
  let (width, s) ← putStr putch e.altflag e.precision width (orNull p) s
  return (pad putch (uchar (chr ' ')) width.toNat s, ap)

/-- label number -/
def number (num : BitVec 64) (base : Base) (e : Esc) (s : σ) : σ :=
  printnum putch num.toNat base e.width (schar e.padc) s

/-- case 'd' -/
def convInt (e : Esc) (ap : List Arg) (s : σ) : Except Fault (σ × List Arg) := do
  let (num, ap) ← getint ap e.lflag
  if num.toInt < 0 then
    return (number putch (-num) base10 e (putch (uchar (chr '-')) s), ap)
  else
    return (number putch num base10 e s, ap)

/-- cases 'u', 'o' and 'x' -/
def convUint (base : Base) (e : Esc) (ap : List Arg) (s : σ) : Except Fault (σ × List Arg) := do
  let (num, ap) ← getuint ap e.lflag
  return (number putch num base e s, ap)

/-- case 'p' -/
def convPtr (e : Esc) (ap : List Arg) (s : σ) : Except Fault (σ × List Arg) := do
  let (w, ap) ← vaInt ap
  return (number putch (w.zeroExtend 64) base16 e (putch (uchar (chr 'x')) (putch (uchar (chr '0')) s)), ap)

variable (printfmt : σ → List Byte → List Arg → Except Fault σ)

/-- the formats of the nested calls -/
def fmtErrorD : List Byte := bytes "error %d" ++ [0#8]

def fmtS : List Byte := bytes "%s" ++ [0#8]

/-- `if (err < 0) err = -err` -/
def absErr (w : Word) : ℤ := if w.toInt < 0 then int32 (-w.toInt) else w.toInt

/-- the message of case 'e'; none where `err >= MAXERROR || (p = error_string[err]) == NULL` -/
def errMsg (err : ℤ) : Except Fault (Option (List Byte)) :=
  if err ≥ MAXERROR then .ok none else errorString err

/-- case 'e' -/
def convErr (ap : List Arg) (s : σ) : Except Fault (σ × List Arg) := do
  let (w, ap) ← vaInt ap
  match ← errMsg (absErr w) with
  | none => return (← printfmt s fmtErrorD [.word (BitVec.ofInt 32 (absErr w))], ap)
  | some msg => return (← printfmt s fmtS [.str (some (msg ++ [0#8]))], ap)

/-- the conversions of the switch; none is the default case -/
def convert (ch : Byte) (e : Esc) (ap : List Arg) (s : σ) : Option (Except Fault (σ × List Arg)) :=
  if ch = chr 'c' then some (do let (w, ap) ← vaInt ap; return (putch w s, ap))
  else if ch = chr 'e' then some (convErr printfmt ap s)
  else if ch = chr 's' then some (convStr putch e ap s)
  else if ch = chr 'd' then some (convInt putch e ap s)
  else if ch = chr 'u' then some (convUint putch base10 e ap s)
  else if ch = chr 'o' then some (convUint putch base8 e ap s)
  else if ch = chr 'p' then some (convPtr putch e ap s)
  else if ch = chr 'x' then some (convUint putch base16 e ap s)
  else if ch = chr '%' then some (.ok (putch (uchar ch) s, ap))
  else none

/-- what holds of every conversion holds of the result of the switch -/
theorem convert_rule {ch : Byte} {e : Esc} {ap : List Arg} {s : σ} {r : Except Fault (σ × List Arg)}
    (h : convert putch printfmt ch e ap s = some r) (P : Except Fault (σ × List Arg) → Prop)
    (hc : P (do let (w, ap) ← vaInt ap; return (putch w s, ap))) (he : P (convErr printfmt ap s))
    (hs : ch = chr 's' → P (convStr putch e ap s)) (hd : P (convInt putch e ap s))
    (hu : ∀ base, P (convUint putch base e ap s)) (hp : P (convPtr putch e ap s))
    (hpercent : P (.ok (putch (uchar ch) s, ap))) : P r := by
  refine case_elim h (fun _ hr => hr ▸ hc) fun h => ?_
  refine case_elim h (fun _ hr => hr ▸ he) fun h => ?_
  refine case_elim h (fun hch hr => hr ▸ hs hch) fun h => ?_
  refine case_elim h (fun _ hr => hr ▸ hd) fun h => ?_
  refine case_elim h (fun _ hr => hr ▸ hu base10) fun h => ?_
  refine case_elim h (fun _ hr => hr ▸ hu base8) fun h => ?_
  refine case_elim h (fun _ hr => hr ▸ hp) fun h => ?_
  refine case_elim h (fun _ hr => hr ▸ hu base16) fun h => ?_
  refine case_elim h (fun _ hr => hr ▸ hpercent) fun h => ?_
  cases h

end Output

/-! ## The scan of an escape -/

def isDigit (ch : Byte) : Prop := chr '0' ≤ ch ∧ ch ≤ chr '9'

instance (ch : Byte) : Decidable (isDigit ch) := inferInstanceAs (Decidable (_ ∧ _))

/-- `for (precision = 0; ; ++fmt)`: ch is the digit just read, `ahead` starts at fmt -/
def digits (precision : ℤ) (ch : Byte) (behind : List Byte) : List Byte → Except Fault (ℤ × Fmt)
  | [] => .error .fmt
  | c :: rest =>
    let precision := int32 (precision * 10 + ch.toNat - 48)
    if isDigit c then digits precision c (c :: behind) rest
    else .ok (precision, ⟨behind, c :: rest⟩)

/-- label process_precision -/
def Esc.processPrecision (e : Esc) (precision : ℤ) : Esc :=
  if e.width < 0 then { e with width := precision, precision := -1 } else { e with precision := precision }

/-- where one pass through the switch leads: back to reswitch, or to a conversion -/
inductive Scan where
  | reswitch (e : Esc) (p : Fmt) (ap : List Arg)
  | conv (ch : Byte) (e : Esc) (p : Fmt) (ap : List Arg)
deriving DecidableEq, Repr

/-- `switch (ch = *fmt++)` as far as the flags, the width, the precision and the length -/
def switchOn (e : Esc) (p : Fmt) (ap : List Arg) : Except Fault Scan :=
  match p.ahead with
  | [] => .error .fmt
  | ch :: rest =>
    let q : Fmt := ⟨ch :: p.behind, rest⟩
    if ch = chr '-' ∨ ch = chr '0' then .ok (.reswitch { e with padc := ch } q ap)
    else if isDigit ch then (digits 0 ch q.behind q.ahead).map fun (n, q) => .reswitch (e.processPrecision n) q ap
    else if ch = chr '*' then (vaInt ap).map fun (w, ap) => .reswitch (e.processPrecision w.toInt) q ap
    else if ch = chr '.' then .ok (.reswitch { e with width := max e.width 0 } q ap)
    else if ch = chr '#' then .ok (.reswitch { e with altflag := true } q ap)
    else if ch = chr 'l' then .ok (.reswitch { e with lflag := int32 (e.lflag + 1) } q ap)
    else .ok (.conv ch e q ap)

/-- `for (fmt--; fmt[-1] != '%'; fmt--)` after its first `fmt--`: the nearest '%' behind the pointer -/
def rewindTo : List Byte → List Byte → Except Fault Fmt
  | [], _ => .error .fmt
  | b :: behind, ahead => if b = chr '%' then .ok ⟨b :: behind, ahead⟩ else rewindTo behind (b :: ahead)

/-- the pointer movement of the default case -/
def rewind (p : Fmt) : Except Fault Fmt :=
  match p.behind with
  | [] => .error .fmt
  | b :: behind => rewindTo behind (b :: p.ahead)

/-! ## What the scan consumes -/

/-- the flag, width, precision and length characters: those after which the switch goes to reswitch -/
def isFlag (ch : Byte) : Bool := ch ∈ bytes "-0123456789*.#l"

theorem isFlag_of_digit {ch : Byte} (h : isDigit ch) : isFlag ch = true := by
  revert h; revert ch; decide

theorem isFlag_iff : ∀ ch : Byte, isFlag ch = true ↔ (ch = chr '-' ∨ ch = chr '0') ∨ isDigit ch ∨ ch = chr '*' ∨
    ch = chr '.' ∨ ch = chr '#' ∨ ch = chr 'l' := by
  decide +kernel

theorem not_isFlag_percent : isFlag (chr '%') = false := by decide

/-- the digit loop consumes digits and stops in front of a character that is none -/
theorem digits_consumes {precision n : ℤ} {ch : Byte} {behind ahead : List Byte} {q : Fmt}
    (h : digits precision ch behind ahead = .ok (n, q)) :
    ∃ d, ahead = d ++ q.ahead ∧ q.behind = d.reverse ++ behind ∧ ∀ x ∈ d, isFlag x = true := by
  induction ahead generalizing precision ch behind with
  | nil => cases h
  | cons c rest ih =>
    rw [digits] at h
    split_ifs at h with hc
    · obtain ⟨d, h1, h2, h3⟩ := ih h
      refine ⟨c :: d, by rw [h1]; rfl, by simp [h2], fun x hx => ?_⟩
      rcases List.mem_cons.1 hx with rfl | hx
      · exact isFlag_of_digit hc
      · exact h3 x hx
    · cases h
      exact ⟨[], rfl, rfl, fun x hx => by cases hx⟩

/-- a character that is no flag is the conversion character -/
theorem switchOn_conv {ch : Byte} (hf : isFlag ch = false) (e : Esc) (b rest : List Byte) (ap : List Arg) :
    switchOn e ⟨b, ch :: rest⟩ ap = .ok (.conv ch e ⟨ch :: b, rest⟩ ap) := by
  have h := mt (isFlag_iff ch).2 (by rw [hf]; exact Bool.false_ne_true)
  push Not at h
  obtain ⟨⟨h1, h2⟩, h3, h4, h5, h6, h7⟩ := h
  simp [switchOn, h1, h2, h3, h4, h5, h6, h7]

/-- **The three kinds of flags**: a character on its own, a numeral, and '*' with its argument. -/
theorem switchOn_flag {x : Byte} (hx : isFlag x = true) (e : Esc) (b : List Byte) :
    (x ≠ chr '*' ∧ ∃ e', ∀ l ap, switchOn e ⟨b, x :: l⟩ ap = .ok (.reswitch e' ⟨x :: b, l⟩ ap)) ∨
      (x ≠ chr '*' ∧ ∀ l ap, switchOn e ⟨b, x :: l⟩ ap =
        (digits 0 x (x :: b) l).map fun r => .reswitch (e.processPrecision r.1) r.2 ap) ∨
      x = chr '*' ∧ ∀ l ap, switchOn e ⟨b, x :: l⟩ ap =
        (vaInt ap).map fun r => .reswitch (e.processPrecision r.1.toInt) ⟨x :: b, l⟩ r.2 := by
  rcases (isFlag_iff x).1 hx with (rfl | rfl) | hdigit | rfl | rfl | rfl | rfl
  · exact Or.inl ⟨by decide, _, fun _ _ => rfl⟩
  · exact Or.inl ⟨by decide, _, fun _ _ => rfl⟩
  · have hstar : x ≠ chr '*' := by
      rintro rfl
      exact absurd hdigit (by decide)
    -- the digit 0 in front is the flag
    by_cases h0 : x = chr '0'
    · subst h0
      exact Or.inl ⟨hstar, _, fun _ _ => rfl⟩
    · have hpad : ¬ (x = chr '-' ∨ x = chr '0') := by
        rintro (rfl | rfl)
        · exact absurd hdigit (by decide)
        · exact h0 rfl
      refine Or.inr (Or.inl ⟨hstar, fun l ap => ?_⟩)
      simp only [switchOn, if_neg hpad, if_pos hdigit]
  · exact Or.inr (Or.inr ⟨rfl, fun _ _ => rfl⟩)
  · exact Or.inl ⟨by decide, _, fun _ _ => rfl⟩
  · exact Or.inl ⟨by decide, _, fun _ _ => rfl⟩
  · exact Or.inl ⟨by decide, _, fun _ _ => rfl⟩

/-- **One pass.** It leads back to reswitch after consuming flags d, or it consumes one character c that is no flag. -/
theorem switchOn_consumes {e : Esc} {p : Fmt} {ap : List Arg} {r : Scan} (h : switchOn e p ap = .ok r) :
    (∃ d e' q ap', r = .reswitch e' q ap' ∧ d ≠ [] ∧ p.ahead = d ++ q.ahead ∧ q.behind = d.reverse ++ p.behind ∧
      ∀ x ∈ d, isFlag x = true) ∨
    ∃ c rest, r = .conv c e ⟨c :: p.behind, rest⟩ ap ∧ p.ahead = c :: rest ∧ isFlag c = false := by
  obtain ⟨b, l⟩ := p
  cases l with
  | nil => cases h
  | cons ch rest =>
    cases hf : isFlag ch with
    | false =>
      rw [switchOn_conv hf] at h
      cases h
      exact Or.inr ⟨ch, rest, rfl, rfl, hf⟩
    | true =>
      have hone : ∀ x ∈ [ch], isFlag x = true := fun x hx => by rw [List.mem_singleton.1 hx, hf]
      left
      rcases switchOn_flag hf e b with ⟨-, e', he⟩ | ⟨-, he⟩ | ⟨-, he⟩
      · rw [he] at h
        cases h
        exact ⟨[ch], e', _, ap, rfl, by simp, rfl, rfl, hone⟩
      · rw [he] at h
        obtain ⟨⟨n, q⟩, hd, h⟩ := map_eq_ok h
        cases h
        obtain ⟨d, hd1, hd2, hd3⟩ := digits_consumes hd
        refine ⟨ch :: d, _, q, ap, rfl, by simp, by rw [hd1]; rfl, by simp [hd2], fun x hx => ?_⟩
        rcases List.mem_cons.1 hx with rfl | hx
        · exact hf
        · exact hd3 x hx
      · rw [he] at h
        obtain ⟨⟨w, ap'⟩, hw, h⟩ := map_eq_ok h
        cases h
        exact ⟨[ch], _, _, ap', rfl, by simp, rfl, rfl, hone⟩

theorem switchOn_length {e e' : Esc} {p q : Fmt} {ap ap' : List Arg}
    (h : switchOn e p ap = .ok (.reswitch e' q ap')) : q.ahead.length < p.ahead.length := by
  rcases switchOn_consumes h with ⟨d, _, _, _, hr, hne, h1, -⟩ | ⟨c, rest, hr, -⟩
  · cases hr
    have := List.length_pos_of_ne_nil hne
    rw [h1, List.length_append]; omega
  · cases hr

/-- the loop of `goto reswitch`: it ends at the conversion character, with the fields, the pointer behind that
character and the arguments left -/
def reswitch (e : Esc) (p : Fmt) (ap : List Arg) : Except Fault (Byte × Esc × Fmt × List Arg) :=
  match _h : switchOn e p ap with
  | .error f => .error f
  | .ok (.reswitch e q ap) => reswitch e q ap
  | .ok (.conv ch e q ap) => .ok (ch, e, q, ap)
termination_by p.ahead.length
decreasing_by exact switchOn_length _h

theorem reswitch_eq (e : Esc) (p : Fmt) (ap : List Arg) :
    reswitch e p ap = switchOn e p ap >>= fun
      | .reswitch e q ap => reswitch e q ap
      | .conv ch e q ap => .ok (ch, e, q, ap) := by
  rw [reswitch]
  split <;> (rename_i h; rw [h]; rfl)

theorem reswitch_conv {ch : Byte} (hf : isFlag ch = false) (e : Esc) (b rest : List Byte) (ap : List Arg) :
    reswitch e ⟨b, ch :: rest⟩ ap = .ok (ch, e, ⟨ch :: b, rest⟩, ap) := by
  rw [reswitch_eq, switchOn_conv hf]; rfl

/-- The scan of an escape consumes flags d and the conversion character c, which is no flag. -/
theorem reswitch_consumes {e e' : Esc} {p q : Fmt} {ap ap' : List Arg} {c : Byte}
    (h : reswitch e p ap = .ok (c, e', q, ap')) :
    ∃ d, p.ahead = d ++ c :: q.ahead ∧ q.behind = c :: (d.reverse ++ p.behind) ∧ (∀ x ∈ d, isFlag x = true) ∧
      isFlag c = false := by
  fun_induction reswitch e p ap with
  | case1 e p ap f hs => cases h
  | case2 e p ap e1 q1 ap1 hs ih =>
    obtain ⟨d, h1, h2, h3, h4⟩ := ih h
    rcases switchOn_consumes hs with ⟨d1, _, _, _, hr, -, g1, g2, g3⟩ | ⟨c, rest, hr, -⟩
    · cases hr
      refine ⟨d1 ++ d, by rw [g1, h1]; simp, by rw [h2, g2]; simp, fun x hx => ?_, h4⟩
      rcases List.mem_append.1 hx with hx | hx
      · exact g3 x hx
      · exact h3 x hx
    · cases hr
  | case3 e p ap ch e1 q1 ap1 hs =>
    cases h
    rcases switchOn_consumes hs with ⟨d1, _, _, _, hr, -⟩ | ⟨c', rest, hr, hp, hf⟩
    · cases hr
    · cases hr
      exact ⟨[], hp, rfl, fun x hx => (List.not_mem_nil hx).elim, hf⟩

/-! ## The default case -/

/-- the backward scan over characters that are no '%' ends right after the '%' before them -/
theorem rewindTo_percent (d b ahead : List Byte) (hd : chr '%' ∉ d) :
    rewindTo (d ++ chr '%' :: b) ahead = .ok ⟨chr '%' :: b, d.reverse ++ ahead⟩ := by
  induction d generalizing ahead with
  | nil => simp [rewindTo]
  | cons x d ih =>
    have hx : x ≠ chr '%' := fun h => hd (by rw [h]; exact List.mem_cons_self)
    rw [List.cons_append, rewindTo, if_neg hx, ih _ (fun h => hd (List.mem_cons_of_mem _ h))]
    simp

/-- **The rewind.** Behind an escape with flags d and conversion character c, the default case moves the
pointer back to right after the escape's own '%'. -/
theorem rewind_percent {d b ahead : List Byte} {c : Byte} (hd : ∀ x ∈ d, isFlag x = true) :
    rewind ⟨c :: (d.reverse ++ chr '%' :: b), ahead⟩ = .ok ⟨chr '%' :: b, d ++ c :: ahead⟩ := by
  have hd' : chr '%' ∉ d.reverse := by
    intro h
    have := hd _ (List.mem_reverse.1 h)
    rw [not_isFlag_percent] at this; cases this
  simp only [rewind]
  rw [rewindTo_percent _ _ _ hd', List.reverse_reverse]

/-! ## vprintfmt -/

section Main

variable {σ : Type} (putch : Word → σ → σ) (printfmt : σ → List Byte → List Arg → Except Fault σ)

/-- an escape, from behind its '%': the sink, the pointer and the arguments after it -/
def escape (p : Fmt) (ap : List Arg) (s : σ) : Except Fault (σ × Fmt × List Arg) := do
  let (ch, e, q, ap) ← reswitch Esc.init p ap
  match convert putch printfmt ch e ap s with
  | some r => r.map fun (s, ap) => (s, q, ap)
  | none => return (putch (uchar (chr '%')) s, ← rewind q, ap)

theorem escape_length {b rest : List Byte} {ap ap' : List Arg} {s s' : σ} {q : Fmt}
    (h : escape putch printfmt ⟨chr '%' :: b, rest⟩ ap s = .ok (s', q, ap')) : q.ahead.length ≤ rest.length := by
  unfold escape at h
  obtain ⟨⟨ch, e, q1, ap1⟩, hr, h⟩ := bind_ok h
  obtain ⟨d, h1, h2, h3, h4⟩ := reswitch_consumes hr
  simp only at h h1 h2
  split at h
  · obtain ⟨⟨s2, ap2⟩, hc, h⟩ := map_eq_ok h
    cases h
    rw [h1, List.length_append, List.length_cons]; omega
  · obtain ⟨q2, hc, h⟩ := bind_ok h
    cases h
    have hq : q1 = ⟨ch :: (d.reverse ++ chr '%' :: b), q1.ahead⟩ := by rw [← h2]
    rw [hq, rewind_percent h3] at hc
    cases hc
    rw [h1]

/-- the loop of vprintfmt: the sink and the arguments that are left when the format ends -/
def vloop (p : Fmt) (ap : List Arg) (s : σ) : Except Fault (σ × List Arg) :=
  match _hp : p.ahead with
  | [] => .error .fmt
  | ch :: rest =>
    if ch = chr '%' then
      match _he : escape putch printfmt ⟨chr '%' :: p.behind, rest⟩ ap s with
      | .error f => .error f
      | .ok (s, q, ap) => vloop q ap s
    else if ch = 0#8 then .ok (s, ap)
    else vloop ⟨ch :: p.behind, rest⟩ ap (putch (uchar ch) s)
termination_by p.ahead.length
decreasing_by
  · have := escape_length putch printfmt _he
    rw [_hp, List.length_cons]; omega
  · rw [_hp, List.length_cons]; omega

/-! the loop, case by case -/

theorem vloop_nil (b : List Byte) (ap : List Arg) (s : σ) : vloop putch printfmt ⟨b, []⟩ ap s = .error .fmt := by
  rw [vloop]

theorem vloop_nul (b rest : List Byte) (ap : List Arg) (s : σ) :
    vloop putch printfmt ⟨b, 0#8 :: rest⟩ ap s = .ok (s, ap) := by
  rw [vloop]
  exact (if_neg (by decide)).trans (if_pos rfl)

theorem vloop_literal {ch : Byte} (hp : ch ≠ chr '%') (h0 : ch ≠ 0#8) (b rest : List Byte) (ap : List Arg) (s : σ) :
    vloop putch printfmt ⟨b, ch :: rest⟩ ap s = vloop putch printfmt ⟨ch :: b, rest⟩ ap (putch (uchar ch) s) := by
  rw [vloop]
  exact (if_neg hp).trans (if_neg h0)

theorem vloop_percent (b rest : List Byte) (ap : List Arg) (s : σ) :
    vloop putch printfmt ⟨b, chr '%' :: rest⟩ ap s =
      escape putch printfmt ⟨chr '%' :: b, rest⟩ ap s >>= fun r => vloop putch printfmt r.2.1 r.2.2 r.1 := by
  rw [vloop]
  refine (if_pos rfl).trans ?_
  simp only
  split
  · rename_i f he
    rw [he]; rfl
  · rename_i s' q ap' he
    rw [he]; rfl

end Main

/-- `vprintfmt(putch, putdat, fmt, ap)` with at most n nested calls for %e: the sink and the arguments left over -/
def vprintfmtN {σ : Type} (putch : Word → σ → σ) : ℕ → σ → List Byte → List Arg → Except Fault (σ × List Arg)
  | 0, _, _, _ => .error .nested
  | n + 1, s, fmt, ap =>
    vloop putch (fun s fmt ap => (vprintfmtN putch n s fmt ap).map Prod.fst) ⟨[], fmt⟩ ap s

/-- `vprintfmt(putch, putdat, fmt, ap)` -/
def vprintfmt {σ : Type} (putch : Word → σ → σ) (s : σ) (fmt : List Byte) (ap : List Arg) :
    Except Fault (σ × List Arg) :=
  vprintfmtN putch 2 s fmt ap

end Jos.Printfmt
