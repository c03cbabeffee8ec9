/-
%-escapes as they are written: flags, width, precision, number of 'l', conversion character.

A width or a precision is a numeral in the format or '*' with an argument. `Directive.esc` is what the scan makes of
such an escape. `Renders fmt args text` says what a piece of a format prints, at any place of any format and into any
sink.

- **`reswitch_directive`**: the scan of a directive ends with the fields `d.esc`.
- **`Renders.emit`**, `Renders.append`, `Renders.unique`: texts of whole formats.
-/
import Jos.Core.Numeral
import Jos.Printfmt.Emit

namespace Jos.Printfmt

open Numeral (numeral value)
open Sink (feed)

/-! ## Directives -/

inductive Flag where
  | minus
  | zero
  | sharp
deriving DecidableEq, Repr

def Flag.char : Flag → Byte
  | .minus => chr '-'
  | .zero => chr '0'
  | .sharp => chr '#'

inductive Field where
  /-- a numeral in the format -/
  | lit (n : ℕ)
  /-- '*', and its argument -/
  | star (w : Word)
deriving DecidableEq, Repr

/-- the character "0123456789abcdef"[d] -/
def digitChar (d : ℕ) : Byte := (bytes "0123456789abcdef").getD d 0

def Field.text : Field → List Byte
  | .lit n => (numeral 10 n).map digitChar
  | .star _ => [chr '*']

def Field.args : Field → List Arg
  | .lit _ => []
  | .star w => [.word w]

/-- the value of a field as an int -/
def Field.val : Field → ℤ
  | .lit n => int32 n
  | .star w => w.toInt

structure Directive where
  flags : List Flag
  width : Option Field
  precision : Option Field
  long : ℕ
  conv : Byte
deriving DecidableEq, Repr

/-- what follows the precision -/
def Directive.suffix (d : Directive) : List Byte := List.replicate d.long (chr 'l') ++ [d.conv]

def Directive.precisionText (d : Directive) : List Byte :=
  d.precision.elim [] fun f => chr '.' :: f.text

def Directive.text (d : Directive) : List Byte :=
  chr '%' :: (d.flags.map Flag.char ++ d.width.elim [] Field.text ++ d.precisionText ++ d.suffix)

/-- the arguments of its '*' -/
def Directive.args (d : Directive) : List Arg := d.width.elim [] Field.args ++ d.precision.elim [] Field.args

/-! ## What the scan makes of them -/

def Esc.flag (e : Esc) : Flag → Esc
  | .minus => { e with padc := chr '-' }
  | .zero => { e with padc := chr '0' }
  | .sharp => { e with altflag := true }

/-- the numeral 0 is read as the flag -/
def Esc.field (e : Esc) : Field → Esc
  | .lit n => if n = 0 then e.flag .zero else e.processPrecision (int32 n)
  | .star w => e.processPrecision w.toInt

def Esc.dot (e : Esc) : Esc := { e with width := max e.width 0 }

/-- n times `lflag++` -/
def Esc.long (e : Esc) (n : ℕ) : Esc := { e with lflag := (fun l => int32 (l + 1))^[n] e.lflag }

def Directive.esc (d : Directive) : Esc :=
  let e := d.flags.foldl Esc.flag Esc.init
  let e := d.width.elim e e.field
  let e := d.precision.elim e e.dot.field
  e.long d.long

/-! ## The fields of a directive -/

/-- the last of the flags '-' and '0', or a blank -/
def padChar (flags : List Flag) : Byte := (flags.filter (· ≠ .sharp)).getLast?.elim (chr ' ') Flag.char

/-- what the scan takes a field to be: -1 is no field -/
def Field.scanned (f : Field) : ℤ := if f = .lit 0 then -1 else f.val

def Directive.padc (d : Directive) : Byte :=
  if d.width = some (.lit 0) ∨ d.precision = some (.lit 0) then chr '0' else padChar d.flags

def Directive.columns (d : Directive) : ℤ :=
  if d.precision = none then d.width.elim (-1) Field.scanned else max (d.width.elim (-1) Field.scanned) 0

def Directive.limit (d : Directive) : ℤ := d.precision.elim (-1) Field.scanned

/-- the number of 'l' as the int that counts them -/
def Directive.lflag (d : Directive) : ℤ := int32 d.long

theorem Field.val_lt (f : Field) : f.val < 2147483648 := by
  cases f with
  | lit n => exact int32_lt n
  | star w => exact w.toInt_lt

theorem Field.scanned_lt (f : Field) : f.scanned < 2147483648 := by
  unfold Field.scanned
  split_ifs
  · decide
  · exact f.val_lt

theorem Directive.columns_lt (d : Directive) : d.columns < 2147483648 := by
  have h : d.width.elim (-1) Field.scanned < 2147483648 := by
    cases d.width with
    | none => decide
    | some f => exact f.scanned_lt
  unfold Directive.columns
  split_ifs
  · exact h
  · exact max_lt h (by decide)

theorem Field.val_ge (f : Field) : -2147483648 ≤ f.val := by
  cases f with
  | lit n => exact int32_ge n
  | star w => exact w.le_toInt

theorem Field.scanned_ge (f : Field) : -2147483648 ≤ f.scanned := by
  unfold Field.scanned
  split_ifs
  · decide
  · exact f.val_ge

theorem Directive.columns_ge (d : Directive) : -2147483648 ≤ d.columns := by
  have h : -2147483648 ≤ d.width.elim (-1) Field.scanned := by
    cases d.width with
    | none => decide
    | some f => exact f.scanned_ge
  unfold Directive.columns
  split_ifs
  · exact h
  · exact le_max_of_le_left h

theorem foldl_flag (flags : List Flag) :
    flags.foldl Esc.flag Esc.init = { Esc.init with padc := padChar flags, altflag := .sharp ∈ flags } := by
  induction flags using List.reverseRecOn with
  | nil => rfl
  | append_singleton l f ih =>
    rw [List.foldl_append, ih]
    cases f <;> simp [Esc.flag, padChar, List.filter_append, Flag.char]

/-- a field in front of which no width has been given -/
theorem Esc.field_width {e : Esc} (hw : e.width = -1) (hp : e.precision = -1) (f : Field) :
    e.field f = { e with padc := if f = .lit 0 then chr '0' else e.padc, width := f.scanned } := by
  obtain ⟨c, w, p, l, a⟩ := e
  cases hw
  cases hp
  cases f with
  | lit n => by_cases hn : n = 0 <;> simp [Esc.field, Esc.flag, Esc.processPrecision, Field.scanned, Field.val, hn]
  | star w => simp [Esc.field, Esc.processPrecision, Field.scanned, Field.val]

/-- a field behind the dot -/
theorem Esc.field_precision {e : Esc} (hp : e.precision = -1) (f : Field) :
    e.dot.field f = ⟨if f = .lit 0 then chr '0' else e.padc, max e.width 0, f.scanned, e.lflag, e.altflag⟩ := by
  obtain ⟨c, w, p, l, a⟩ := e
  cases hp
  have hw : ¬ max w 0 < 0 := not_lt.2 (le_max_right w 0)
  cases f with
  | lit n =>
    by_cases hn : n = 0 <;>
      simp [Esc.field, Esc.flag, Esc.dot, Esc.processPrecision, Field.scanned, Field.val, hn, hw]
  | star w => simp [Esc.field, Esc.dot, Esc.processPrecision, Field.scanned, Field.val, hw]

/-- counting from 0 wraps around as the count does -/
theorem iterate_succ_int32 (n : ℕ) : (fun l => int32 (l + 1))^[n] 0 = int32 n := by
  induction n with
  | zero => rfl
  | succ n ih =>
    rw [Function.iterate_succ_apply', ih, int32_succ, Nat.cast_succ]

/-- **The fields.** -/
theorem Directive.esc_eq (d : Directive) : d.esc = ⟨d.padc, d.columns, d.limit, d.lflag, .sharp ∈ d.flags⟩ := by
  obtain ⟨flags, width, precision, long, conv⟩ := d
  simp only [Directive.esc, Directive.padc, Directive.columns, Directive.limit, Directive.lflag, foldl_flag]
  cases width with
  | none =>
    cases precision with
    | none => simp [Esc.long, iterate_succ_int32, Esc.init]
    | some p =>
      simp only [Option.elim_none, Option.elim_some]
      rw [Esc.field_precision rfl]
      simp [Esc.long, iterate_succ_int32, Esc.init]
  | some w =>
    simp only [Option.elim_some]
    rw [Esc.field_width rfl rfl]
    cases precision with
    | none => simp [Esc.long, iterate_succ_int32, Esc.init]
    | some p =>
      simp only [Option.elim_some]
      rw [Esc.field_precision rfl]
      by_cases hw : w = .lit 0 <;> by_cases hp : p = .lit 0 <;> simp [Esc.long, iterate_succ_int32, Esc.init, hw, hp]

@[simp] theorem Directive.esc_padc (d : Directive) : d.esc.padc = d.padc := by rw [esc_eq]

@[simp] theorem Directive.esc_width (d : Directive) : d.esc.width = d.columns := by rw [esc_eq]

@[simp] theorem Directive.esc_precision (d : Directive) : d.esc.precision = d.limit := by rw [esc_eq]

@[simp] theorem Directive.esc_lflag (d : Directive) : d.esc.lflag = d.lflag := by rw [esc_eq]

@[simp] theorem Directive.esc_altflag (d : Directive) : d.esc.altflag = decide (.sharp ∈ d.flags) := by rw [esc_eq]

/-! ## The scan, item by item -/

theorem digit_eq (d : ℕ) : digit d = uchar (digitChar d) := rfl

theorem digitChar_toNat {d : ℕ} (h : d < 10) : (digitChar d).toNat = 48 + d := by
  interval_cases d <;> rfl

theorem isDigit_digitChar {d : ℕ} (h : d < 10) : isDigit (digitChar d) := by
  interval_cases d <;> decide

theorem digitChar_ne_zero {d : ℕ} (h : d < 10) (h0 : d ≠ 0) : digitChar d ≠ chr '0' ∧ digitChar d ≠ chr '-' := by
  interval_cases d
  · exact absurd rfl h0
  all_goals decide

/-- the text starts with a character that is no digit -/
def Undigited (r : List Byte) : Prop := ∃ c t, r = c :: t ∧ ¬ isDigit c

theorem undigited_conv {c : Byte} (hc : isFlag c = false) (r : List Byte) : Undigited (c :: r) := by
  refine ⟨c, r, rfl, fun h => ?_⟩
  rw [isFlag_of_digit h] at hc
  cases hc

theorem undigited_suffix {d : Directive} (hc : isFlag d.conv = false) (r : List Byte) : Undigited (d.suffix ++ r) := by
  rw [Directive.suffix]
  cases d.long with
  | zero => exact undigited_conv hc r
  | succ n => exact ⟨chr 'l', _, rfl, by decide⟩

theorem undigited_precision {d : Directive} (hc : isFlag d.conv = false) (r : List Byte) :
    Undigited (d.precisionText ++ (d.suffix ++ r)) := by
  rw [Directive.precisionText]
  cases d.precision with
  | none => exact undigited_suffix hc r
  | some f => exact ⟨chr '.', _, rfl, by decide⟩

/-- one step of the digit loop, on a value that has wrapped already -/
theorem int32_digit (x : ℤ) (d : ℕ) : int32 (int32 x * 10 + (48 + d) - 48) = int32 (x * 10 + d) := by
  unfold int32
  omega

/-- the digit loop reads the numeral that ends with the digits ds -/
theorem digits_value {ds : List ℕ} (hds : ∀ x ∈ ds, x < 10) {d : ℕ} (hd : d < 10) (v : ℕ) (b : List Byte) {r : List Byte}
    (hr : Undigited r) :
    digits (int32 v) (digitChar d) b (ds.map digitChar ++ r) =
      .ok (int32 (ds.foldl (fun v d => v * 10 + d) (v * 10 + d) : ℕ), ⟨(ds.map digitChar).reverse ++ b, r⟩) := by
  induction ds generalizing d v b with
  | nil =>
    obtain ⟨c, t, rfl, hc⟩ := hr
    simp [digits, hc, digitChar_toNat hd, int32_digit]
  | cons x ds ih =>
    have hx : x < 10 := hds x List.mem_cons_self
    have hstep : int32 (int32 v * 10 + (48 + d : ℕ) - 48) = int32 (v * 10 + d : ℕ) := by
      push_cast
      exact int32_digit v d
    rw [List.map_cons, List.cons_append, digits, if_pos (isDigit_digitChar hx), digitChar_toNat hd]
    simp only [hstep]
    rw [ih (fun y hy => hds y (List.mem_cons_of_mem _ hy)) hx]
    simp

theorem reswitch_flag (e : Esc) (f : Flag) (b r : List Byte) (ap : List Arg) :
    reswitch e ⟨b, f.char :: r⟩ ap = reswitch (e.flag f) ⟨f.char :: b, r⟩ ap := by
  rw [reswitch_eq]
  cases f <;> rfl

theorem reswitch_flags (e : Esc) (l : List Flag) (b r : List Byte) (ap : List Arg) :
    reswitch e ⟨b, l.map Flag.char ++ r⟩ ap =
      reswitch (l.foldl Esc.flag e) ⟨(l.map Flag.char).reverse ++ b, r⟩ ap := by
  induction l generalizing e b with
  | nil => rfl
  | cons f l ih =>
    rw [List.map_cons, List.cons_append, reswitch_flag, ih]
    simp

/-- a numeral without leading zeros, as width or precision -/
theorem reswitch_numeral (e : Esc) {n : ℕ} (hn : n ≠ 0) (b : List Byte) {r : List Byte} (hr : Undigited r)
    (ap : List Arg) :
    reswitch e ⟨b, (numeral 10 n).map digitChar ++ r⟩ ap =
      reswitch (e.processPrecision (int32 n)) ⟨((numeral 10 n).map digitChar).reverse ++ b, r⟩ ap := by
  have hv : value 10 (numeral 10 n) = n := Numeral.value_numeral (by decide) n
  have hlt := Numeral.numeral_lt (b := 10) (by decide) n
  have hhead := Numeral.numeral_head (b := 10) (by decide) n
  cases hds : numeral 10 n with
  | nil =>
    rw [hds] at hv
    exact absurd hv.symm hn
  | cons d ds =>
    rw [hds] at hv hlt hhead
    have hd : d < 10 := hlt d List.mem_cons_self
    have hd0 : d ≠ 0 := by
      rintro rfl
      exact hn (hhead rfl)
    obtain ⟨hne0, hne1⟩ := digitChar_ne_zero hd hd0
    have hloop := digits_value (fun x hx => hlt x (List.mem_cons_of_mem _ hx)) hd 0 (digitChar d :: b) hr
    have h0 : int32 (0 : ℕ) = 0 := rfl
    have hval : ds.foldl (fun v d => v * 10 + d) (0 * 10 + d) = n := hv
    rw [h0, hval] at hloop
    rw [reswitch_eq, switchOn]
    simp [hne0, hne1, isDigit_digitChar hd, hloop, map_ok, ok_bind]

theorem reswitch_field (e : Esc) (f : Field) (b : List Byte) {r : List Byte} (hr : Undigited r) (ap : List Arg) :
    reswitch e ⟨b, f.text ++ r⟩ (f.args ++ ap) = reswitch (e.field f) ⟨f.text.reverse ++ b, r⟩ ap := by
  cases f with
  | lit n =>
    by_cases hn : n = 0
    · subst hn
      exact reswitch_flag e .zero b r ap
    · rw [Esc.field, if_neg hn]
      exact reswitch_numeral e hn b hr ap
  | star w =>
    rw [reswitch_eq]
    rfl

theorem reswitch_dot (e : Esc) (b r : List Byte) (ap : List Arg) :
    reswitch e ⟨b, chr '.' :: r⟩ ap = reswitch e.dot ⟨chr '.' :: b, r⟩ ap := by
  rw [reswitch_eq]
  rfl

theorem reswitch_long (e : Esc) (n : ℕ) (b r : List Byte) (ap : List Arg) :
    reswitch e ⟨b, List.replicate n (chr 'l') ++ r⟩ ap =
      reswitch (e.long n) ⟨(List.replicate n (chr 'l')).reverse ++ b, r⟩ ap := by
  induction n generalizing e b with
  | zero => rfl
  | succ n ih =>
    have hl : (e.long 1).long n = e.long (n + 1) := rfl
    have hstep : switchOn e ⟨b, chr 'l' :: (List.replicate n (chr 'l') ++ r)⟩ ap =
        .ok (.reswitch (e.long 1) ⟨chr 'l' :: b, List.replicate n (chr 'l') ++ r⟩ ap) := rfl
    rw [List.replicate_succ, List.cons_append, reswitch_eq, hstep, ok_bind]
    simp only
    rw [ih, hl]
    simp

/-- **The scan of a directive.** -/
theorem reswitch_directive (d : Directive) (hc : isFlag d.conv = false) (b r : List Byte) (ap : List Arg) :
    ∃ b', reswitch Esc.init ⟨chr '%' :: b, d.text.tail ++ r⟩ (d.args ++ ap) = .ok (d.conv, d.esc, ⟨b', r⟩, ap) ∧
      b' = d.text.reverse ++ b := by
  refine ⟨_, ?_, rfl⟩
  have hw : ∀ e b ap, reswitch e ⟨b, d.width.elim [] Field.text ++ (d.precisionText ++ (d.suffix ++ r))⟩
      (d.width.elim [] Field.args ++ ap) = reswitch (d.width.elim e e.field)
        ⟨(d.width.elim [] Field.text).reverse ++ b, d.precisionText ++ (d.suffix ++ r)⟩ ap := by
    intro e b ap
    cases d.width with
    | none => rfl
    | some f => exact reswitch_field e f b (undigited_precision hc r) ap
  have hp : ∀ e b ap, reswitch e ⟨b, d.precisionText ++ (d.suffix ++ r)⟩ (d.precision.elim [] Field.args ++ ap) =
      reswitch (d.precision.elim e e.dot.field) ⟨d.precisionText.reverse ++ b, d.suffix ++ r⟩ ap := by
    intro e b ap
    rw [Directive.precisionText]
    cases d.precision with
    | none => rfl
    | some f =>
      simp only [Option.elim_some, List.cons_append]
      rw [reswitch_dot, reswitch_field _ f _ (undigited_suffix hc r)]
      simp
  rw [Directive.text, List.tail_cons, Directive.args]
  simp only [List.append_assoc]
  rw [reswitch_flags, hw, hp, Directive.suffix, List.append_assoc, reswitch_long, List.singleton_append,
    reswitch_conv hc, Directive.esc]
  simp

/-! ## What a piece of a format prints -/

def Renders (fmt : List Byte) (args : List Arg) (text : List Word) : Prop :=
  ∀ (σ : Type) (putch : Word → σ → σ) (printfmt : σ → List Byte → List Arg → Except Fault σ) (b rest : List Byte)
    (ap : List Arg) (s : σ),
    vloop putch printfmt ⟨b, fmt ++ rest⟩ (args ++ ap) s =
      vloop putch printfmt ⟨fmt.reverse ++ b, rest⟩ ap (feed putch s text)

variable {f f' : List Byte} {a a' : List Arg} {t t' : List Word}

theorem Renders.append (h : Renders f a t) (h' : Renders f' a' t') : Renders (f ++ f') (a ++ a') (t ++ t') := by
  intro σ putch printfmt b rest ap s
  rw [List.append_assoc, List.append_assoc, h, h']
  simp

theorem Renders.emit (h : Renders f a t) : emit (f ++ [0#8]) a = .ok (t, []) := by
  have hrun := h _ Sink.snoc (fun s fmt ap => (vprintfmt Sink.snoc s fmt ap).map Prod.fst) [] [0#8] [] []
  rw [List.append_nil, vloop_nul, Sink.feed_free, List.nil_append] at hrun
  rw [Printfmt.emit, vprintfmt_eq]
  exact hrun

theorem Renders.unique (h : Renders f a t) (h' : Renders f a t') : t = t' := by
  have := h.emit.symm.trans h'.emit
  simpa using this

/-- a text in place of one that is printed -/
theorem Renders.iff_eq (h : Renders f a t) : Renders f a t' ↔ t = t' := by
  constructor
  · exact h.unique
  · rintro rfl
    exact h

theorem renders_literal (l : List Byte) (hl : ∀ x ∈ l, x ≠ chr '%' ∧ x ≠ 0#8) : Renders l [] (l.map uchar) := by
  intro σ putch printfmt b rest ap s
  exact vloop_text putch printfmt l hl b rest ap s

/-- a directive prints what its conversion prints -/
theorem renders_directive (d : Directive) (hc : isFlag d.conv = false)
    (h : ∀ (σ : Type) (putch : Word → σ → σ) (printfmt : σ → List Byte → List Arg → Except Fault σ) (ap : List Arg) (s : σ),
      convert putch printfmt d.conv d.esc (a ++ ap) s = some (.ok (feed putch s t, ap))) :
    Renders d.text (d.args ++ a) t := by
  intro σ putch printfmt b rest ap s
  obtain ⟨b', hscan, hb⟩ := reswitch_directive d hc b rest (a ++ ap)
  have ht : d.text ++ rest = chr '%' :: (d.text.tail ++ rest) := rfl
  rw [ht, vloop_percent, escape, List.append_assoc, hscan, ok_bind]
  simp only [h]
  rw [map_ok, ok_bind, hb]

/-- a directive whose conversion fails -/
theorem emit_directive_error (d : Directive) (hc : isFlag d.conv = false) {fault : Fault}
    (h : ∀ (σ : Type) (putch : Word → σ → σ) (printfmt : σ → List Byte → List Arg → Except Fault σ) (ap : List Arg) (s : σ),
      convert putch printfmt d.conv d.esc (a ++ ap) s = some (.error fault)) :
    Printfmt.emit (d.text ++ [0#8]) (d.args ++ a) = .error fault := by
  obtain ⟨b', hscan, -⟩ := reswitch_directive d hc [] [0#8] (a ++ [])
  have ht : d.text ++ [0#8] = chr '%' :: (d.text.tail ++ [0#8]) := rfl
  rw [List.append_nil] at hscan
  have hconv := h _ Sink.snoc (fun s fmt ap => (vprintfmt Sink.snoc s fmt ap).map Prod.fst) [] []
  rw [List.append_nil] at hconv
  rw [Printfmt.emit, vprintfmt_eq, ht, vloop_percent, escape, hscan, ok_bind]
  simp only [hconv]
  rfl

theorem not_renders_of_error {fault : Fault} (h : Printfmt.emit (f ++ [0#8]) a = .error fault) : ¬ Renders f a t := by
  intro ht
  rw [ht.emit] at h
  cases h

end Jos.Printfmt
