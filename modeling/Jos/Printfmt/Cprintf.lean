/-
Console output of kern/printf.c: `putch`, `vcprintf` and `cprintf`.

`*cnt++` increments the pointer, which is a local of `putch`, so the counter of `vcprintf` keeps its initial value.

- `vcprintf_eq`: the console gets every character, and the return value is 0.
- `emit_eq_nil_iff`: the formats that print nothing.
- **`vcprintf_counts_iff`**: the return value is the count of characters, and that of `vsnprintf`, exactly for these.
-/
import Jos.Printfmt.Snprintf

namespace Jos.Printfmt

open Sink (snoc feed)

/-! ## Model -/

/-- the console, and the counter that `cnt` points to -/
structure Cprintf (σ : Type) where
  console : σ
  cnt : ℤ

/-- `cputchar(ch); *cnt++;`: the value of the second statement is not used, and the pointer it steps is a local -/
def putch {σ : Type} (cputchar : Word → σ → σ) (ch : Word) (c : Cprintf σ) : Cprintf σ :=
  { c with console := cputchar ch c.console }

def vcprintf {σ : Type} (cputchar : Word → σ → σ) (console : σ) (fmt : List Byte) (ap : List Arg) :
    Except Fault (ℤ × σ) := do
  let (c, _) ← vprintfmt (putch cputchar) ⟨console, 0⟩ fmt ap
  return (c.cnt, c.console)

/-- a console with the list of all calls of its cputchar -/
def traced {σ : Type} (cputchar : Word → σ → σ) (ch : Word) (s : σ × List Word) : σ × List Word :=
  (cputchar ch s.1, snoc ch s.2)

/-! ## The return value -/

theorem feed_putch {σ : Type} (cputchar : Word → σ → σ) (c : Cprintf σ) (l : List Word) :
    feed (putch cputchar) c l = ⟨feed cputchar c.console l, c.cnt⟩ := by
  induction l generalizing c with
  | nil => rfl
  | cons ch l ih => exact ih _

theorem feed_traced {σ : Type} (cputchar : Word → σ → σ) (s : σ × List Word) (l : List Word) :
    feed (traced cputchar) s l = (feed cputchar s.1 l, s.2 ++ l) := by
  induction l generalizing s with
  | nil => simp
  | cons ch l ih => rw [Sink.feed_cons, ih]; simp [traced, snoc]

/-- **What vcprintf does.** It hands the console every character, and returns 0. -/
theorem vcprintf_eq {σ : Type} (cputchar : Word → σ → σ) (console : σ) (fmt : List Byte) (ap : List Arg) :
    vcprintf cputchar console fmt ap = (emit fmt ap).map fun r => (0, feed cputchar console r.1) := by
  rw [vcprintf, vprintfmt_feed, bind_map]
  cases emit fmt ap with
  | error f => rfl
  | ok r => exact congrArg (fun c : Cprintf σ => Except.ok (c.cnt, c.console)) (feed_putch cputchar _ r.1)

/-! ## Formats that print nothing -/

/-- a %s that prints no character of its text -/
def Esc.Blank (e : Esc) (text : List Byte) : Prop := text.head? = some 0#8 ∨ e.precision = 0

/-- The format is empty or consists of %s directives, none of which has a positive width, and each of which has an
empty text or precision 0. -/
inductive Silent : Fmt → List Arg → Prop
  | nul (b rest : List Byte) (ap : List Arg) : Silent ⟨b, 0#8 :: rest⟩ ap
  | str {b rest : List Byte} {ap ap' : List Arg} {e : Esc} {q : Fmt} {p : Option (List Byte)}
      (scan : reswitch Esc.init ⟨chr '%' :: b, rest⟩ ap = .ok (chr 's', e, q, .str p :: ap'))
      (width : e.width ≤ 0) (blank : e.Blank (orNull p)) (next : Silent q ap') :
      Silent ⟨b, chr '%' :: rest⟩ ap

theorem digits_lt {precision n : ℤ} {ch : Byte} {behind ahead : List Byte} {q : Fmt}
    (h : digits precision ch behind ahead = .ok (n, q)) : n < 2147483648 := by
  induction ahead generalizing precision ch behind with
  | nil => cases h
  | cons c rest ih =>
    rw [digits] at h
    split_ifs at h with hc
    · exact ih h
    · cases h; exact int32_lt _

theorem processPrecision_width {e : Esc} {n : ℤ} (he : e.width < 2147483648) (hn : n < 2147483648) :
    (e.processPrecision n).width < 2147483648 := by
  unfold Esc.processPrecision
  split_ifs
  · exact hn
  · exact he

/-- the width stays an int -/
theorem switchOn_width {e e' : Esc} {p q : Fmt} {ap ap' : List Arg} (he : e.width < 2147483648)
    (h : switchOn e p ap = .ok (.reswitch e' q ap')) : e'.width < 2147483648 := by
  unfold switchOn at h
  split at h
  · cases h
  · simp only at h
    split_ifs at h
    · cases h; exact he
    · obtain ⟨⟨n, q1⟩, hd, h⟩ := map_eq_ok h
      cases h; exact processPrecision_width he (digits_lt hd)
    · obtain ⟨⟨w, ap1⟩, -, h⟩ := map_eq_ok h
      cases h; exact processPrecision_width he w.toInt_lt
    · cases h; exact max_lt he (by decide)
    · cases h; exact he
    · cases h; exact he
    · cases h

theorem reswitch_width {e e' : Esc} {p q : Fmt} {ap ap' : List Arg} {c : Byte} (he : e.width < 2147483648)
    (h : reswitch e p ap = .ok (c, e', q, ap')) : e'.width < 2147483648 := by
  fun_induction reswitch e p ap with
  | case1 e p ap f hs => cases h
  | case2 e p ap e1 q1 ap1 hs ih => exact ih (switchOn_width he hs) h
  | case3 e p ap ch e1 q1 ap1 hs =>
    cases h
    rcases switchOn_consumes hs with ⟨_, _, _, _, hr, -⟩ | ⟨_, _, hr, -⟩
    · cases hr
    · cases hr; exact he

theorem pad_eq_nil {c : Word} {n : ℕ} {s : List Word} (h : pad snoc c n s = []) : n = 0 ∧ s = [] := by
  induction n generalizing s with
  | zero => exact ⟨rfl, h⟩
  | succ n ih => exact absurd (ih h).2 (by simp [snoc])

theorem number_ne_nil (num : BitVec 64) (base : Base) (e : Esc) (s : List Word) : number snoc num base e s ≠ [] := by
  rw [number, printnum]
  split_ifs <;> simp [snoc]

theorem putStr_blank {σ : Type} {putch : Word → σ → σ} {altflag : Bool} {precision width w : ℤ} {p : List Byte}
    {s s' : σ} (hp : p.head? = some 0#8 ∨ precision = 0) (h : putStr putch altflag precision width p s = .ok (w, s')) :
    w = width ∧ s' = s := by
  cases p with
  | nil => cases h
  | cons b p =>
    rw [putStr] at h
    split_ifs at h with h0 h1 h2
    · cases h; exact ⟨rfl, rfl⟩
    · rcases hp with hp | hp
      · exact absurd (by simpa using hp) h0
      · omega
    · rcases hp with hp | hp
      · exact absurd (by simpa using hp) h0
      · omega
    · cases h; exact ⟨rfl, rfl⟩

theorem putStr_eq_nil {altflag : Bool} {precision width w : ℤ} {p : List Byte} {s : List Word}
    (h : putStr snoc altflag precision width p s = .ok (w, [])) :
    s = [] ∧ w = width ∧ (p.head? = some 0#8 ∨ precision = 0) := by
  induction p generalizing precision width s with
  | nil => cases h
  | cons b p ih =>
    rw [putStr] at h
    split_ifs at h with h0 h1 h2
    · cases h; exact ⟨rfl, rfl, Or.inl (by simp [h0])⟩
    · exact absurd (ih h).1 (by simp [snoc])
    · exact absurd (ih h).1 (by simp [snoc])
    · cases h; exact ⟨rfl, rfl, Or.inr (by omega)⟩

theorem strnlen_blank {p : List Byte} {precision : ℤ} {n : ℕ} (hp : p.head? = some 0#8 ∨ precision = 0)
    (h : strnlen p (sizeT precision) = some n) : n = 0 := by
  rcases hp with hp | rfl
  · cases p with
    | nil => cases hp
    | cons b p =>
      obtain rfl : b = 0#8 := by simpa using hp
      cases hn : sizeT precision with
      | zero => rw [hn] at h; simpa [strnlen] using h.symm
      | succ k => rw [hn] at h; simpa [strnlen] using h.symm
  · simpa [sizeT, strnlen] using h.symm

theorem convStr_ok {σ : Type} {putch : Word → σ → σ} {e : Esc} {ap ap' : List Arg} {s s' : σ}
    (h : convStr putch e ap s = .ok (s', ap')) :
    ∃ p w₁ s₁ w₂ s₂, ap = .str p :: ap' ∧ padStr putch e (orNull p) s = .ok (w₁, s₁) ∧
      putStr putch e.altflag e.precision w₁ (orNull p) s₁ = .ok (w₂, s₂) ∧
      s' = pad putch (uchar (chr ' ')) w₂.toNat s₂ := by
  unfold convStr at h
  obtain ⟨⟨p, ap₁⟩, ha, h₁⟩ := bind_ok h
  obtain ⟨⟨w₁, s₁⟩, hpad, h₂⟩ := bind_ok h₁
  obtain ⟨⟨w₂, s₂⟩, hput, hret⟩ := bind_ok h₂
  cases hret
  unfold vaStr at ha
  split at ha
  · cases ha
    exact ⟨p, w₁, s₁, w₂, s₂, rfl, hpad, hput, rfl⟩
  · cases ha

/-- a %s without padding and without text leaves its sink alone -/
theorem convStr_blank {σ : Type} {putch : Word → σ → σ} {e : Esc} {p : Option (List Byte)} {ap ap' : List Arg} {s s' : σ}
    (hw : e.width ≤ 0) (hp : e.Blank (orNull p)) (h : convStr putch e (.str p :: ap) s = .ok (s', ap')) :
    s' = s ∧ ap' = ap := by
  obtain ⟨p', w₁, s₁, w₂, s₂, hap, hpad, hput, rfl⟩ := convStr_ok h
  cases hap
  rw [padStr, if_neg (by omega)] at hpad
  cases hpad
  obtain ⟨rfl, rfl⟩ := putStr_blank hp hput
  rw [show e.width.toNat = 0 by omega]
  exact ⟨rfl, rfl⟩

/-- the only %s that prints nothing -/
theorem convStr_eq_nil {e : Esc} {ap ap' : List Arg} {s : List Word} (he : e.width < 2147483648)
    (h : convStr snoc e ap s = .ok ([], ap')) :
    s = [] ∧ e.width ≤ 0 ∧ ∃ p, ap = .str p :: ap' ∧ e.Blank (orNull p) := by
  obtain ⟨p, w₁, s₁, w₂, s₂, hap, hpad, hput, hs⟩ := convStr_ok h
  obtain ⟨hw, rfl⟩ := pad_eq_nil hs.symm
  obtain ⟨rfl, rfl, hb⟩ := putStr_eq_nil hput
  unfold padStr at hpad
  split_ifs at hpad with hc
  · split at hpad
    · cases hpad
    · rename_i n hn
      obtain rfl := strnlen_blank hb hn
      simp only [Except.ok.injEq, Prod.mk.injEq] at hpad
      obtain ⟨h0, -⟩ := pad_eq_nil hpad.2
      have : int32 (e.width - (0 : ℕ)) = e.width := by rw [Nat.cast_zero, sub_zero, int32_of_lt (by omega) he]
      omega
  · cases hpad
    exact ⟨rfl, by omega, p, hap, hb⟩

/-- the nested formatter of `emit` -/
def nested (s : List Word) (fmt : List Byte) (ap : List Arg) : Except Fault (List Word) :=
  (vprintfmtN snoc 1 s fmt ap).map Prod.fst

theorem convInt_ne_nil {e : Esc} {ap ap' : List Arg} {s s' : List Word} (h : convInt snoc e ap s = .ok (s', ap')) :
    s' ≠ [] := by
  obtain ⟨⟨num, ap₁⟩, -, h⟩ := bind_ok h
  simp only at h
  split_ifs at h
  · cases h; exact number_ne_nil _ _ _ _
  · cases h; exact number_ne_nil _ _ _ _

theorem convUint_ne_nil {base : Base} {e : Esc} {ap ap' : List Arg} {s s' : List Word}
    (h : convUint snoc base e ap s = .ok (s', ap')) : s' ≠ [] := by
  obtain ⟨r, -, h⟩ := bind_ok h
  cases h; exact number_ne_nil _ _ _ _

theorem convPtr_ne_nil {e : Esc} {ap ap' : List Arg} {s s' : List Word} (h : convPtr snoc e ap s = .ok (s', ap')) :
    s' ≠ [] := by
  obtain ⟨r, -, h⟩ := bind_ok h
  cases h; exact number_ne_nil _ _ _ _

/-- no message of the table is empty -/
theorem errMsg_head {err : ℤ} {msg : List Byte} (h : errMsg err = .ok (some msg)) :
    (msg ++ [0#8]).head? ≠ some 0#8 := by
  unfold errMsg errorString at h
  have hall : ∀ m ∈ errorTable, (m.getD [] ++ [0#8]).head? = some 0#8 → m = none := by decide
  split_ifs at h with h1 h2
  · cases h
  · cases ht : errorTable[err.toNat]? with
    | none => rw [ht] at h; cases h
    | some m =>
      rw [ht] at h
      cases h
      intro h0
      cases hall _ (List.mem_of_getElem? ht) h0

theorem convErr_ne_nil {ap ap' : List Arg} {s s' : List Word} (h : convErr nested ap s = .ok (s', ap')) : s' ≠ [] := by
  obtain ⟨⟨w, ap₁⟩, -, h⟩ := bind_ok h
  obtain ⟨msg, hmsg, h⟩ := bind_ok h
  cases msg with
  | none =>
    obtain ⟨s₁, hs, h⟩ := bind_ok h
    cases h
    obtain ⟨⟨_, ap₂⟩, hv, rfl⟩ := map_eq_ok hs
    rw [vprintfmtN, vloop_fmtErrorD] at hv
    exact convInt_ne_nil hv
  | some msg =>
    obtain ⟨s₁, hs, h⟩ := bind_ok h
    cases h
    obtain ⟨⟨_, ap₂⟩, hv, rfl⟩ := map_eq_ok hs
    rw [vprintfmtN, vloop_fmtS] at hv
    rintro rfl
    obtain ⟨-, -, p, hp, hb⟩ := convStr_eq_nil (by decide) hv
    cases hp
    rcases hb with hb | hb
    · exact errMsg_head hmsg hb
    · cases hb

/-- every other conversion prints at least one character -/
theorem convert_eq_nil {ch : Byte} {e : Esc} {ap ap' : List Arg} {s : List Word}
    (h : convert snoc nested ch e ap s = some (.ok ([], ap'))) : ch = chr 's' ∧ convStr snoc e ap s = .ok ([], ap') := by
  refine convert_rule snoc nested h (fun r => r = .ok ([], ap') → ch = chr 's' ∧ convStr snoc e ap s = .ok ([], ap'))
    ?_ ?_ ?_ ?_ ?_ ?_ ?_ rfl
  · intro h
    obtain ⟨r, -, h⟩ := bind_ok h
    simp [snoc, pure, Except.pure] at h
  · intro h
    exact absurd rfl (convErr_ne_nil h)
  · intro hs h
    exact ⟨hs, h⟩
  · intro h
    exact absurd rfl (convInt_ne_nil h)
  · intro base h
    exact absurd rfl (convUint_ne_nil h)
  · intro h
    exact absurd rfl (convPtr_ne_nil h)
  · intro h
    simp [snoc] at h

/-- an escape that prints nothing -/
theorem escape_eq_nil {p q : Fmt} {ap ap' : List Arg} {s : List Word}
    (h : escape snoc nested p ap s = .ok ([], q, ap')) :
    s = [] ∧ ∃ e t, reswitch Esc.init p ap = .ok (chr 's', e, q, .str t :: ap') ∧ e.width ≤ 0 ∧ e.Blank (orNull t) := by
  obtain ⟨⟨ch, e, q₁, ap₁⟩, hr, h⟩ := bind_ok h
  simp only at h
  split at h
  · rename_i r hc
    obtain ⟨⟨s₁, ap₂⟩, rfl, h⟩ := map_eq_ok h
    cases h
    obtain ⟨rfl, hs⟩ := convert_eq_nil hc
    obtain ⟨rfl, hw, t, rfl, hb⟩ := convStr_eq_nil (reswitch_width (by decide) hr) hs
    exact ⟨rfl, e, t, hr, hw, hb⟩
  · obtain ⟨q₂, -, h⟩ := bind_ok h
    simp [snoc, pure, Except.pure] at h

/-- a run that prints nothing has a silent format -/
theorem silent_of_vloop {p : Fmt} {ap rest : List Arg} {s : List Word} (h : vloop snoc nested p ap s = .ok ([], rest)) :
    s = [] ∧ Silent p ap := by
  fun_induction vloop snoc nested p ap s with
  | case1 p ap s hp => cases h
  | case2 p ap s l f hf hp => cases h
  | case3 p ap s l s' q ap' he hp ih =>
    obtain ⟨b, ahead⟩ := p
    cases hp
    obtain ⟨rfl, hq⟩ := ih h
    obtain ⟨rfl, e, t, hr, hw, hb⟩ := escape_eq_nil he
    exact ⟨rfl, .str hr hw hb hq⟩
  | case4 p ap s l hp h0 =>
    obtain ⟨b, ahead⟩ := p
    cases hp
    cases h
    exact ⟨rfl, .nul _ _ _⟩
  | case5 p ap s ch l hp hc h0 ih => exact absurd (ih h).1 (by simp [snoc])

/-- a silent format leaves its sink alone -/
theorem vloop_of_silent {σ : Type} {putch : Word → σ → σ} {printfmt : σ → List Byte → List Arg → Except Fault σ} {p : Fmt}
    {ap rest : List Arg} {s s' : σ} (hp : Silent p ap) (h : vloop putch printfmt p ap s = .ok (s', rest)) : s' = s := by
  induction hp generalizing s with
  | nul b l ap => rw [vloop_nul] at h; cases h; rfl
  | str scan hw hb next ih =>
    rw [vloop_percent] at h
    obtain ⟨⟨s₁, q₁, ap₁⟩, he, hv⟩ := bind_ok h
    rw [escape, scan, ok_bind] at he
    obtain ⟨⟨s₂, ap₂⟩, hc, hr⟩ := map_eq_ok he
    cases hr
    obtain ⟨rfl, rfl⟩ := convStr_blank hw hb hc
    exact ih hv

/-- **The formats that print nothing.** -/
theorem emit_eq_nil_iff {fmt : List Byte} {ap rest : List Arg} {S : List Word} (h : emit fmt ap = .ok (S, rest)) :
    S = [] ↔ Silent ⟨[], fmt⟩ ap := by
  constructor
  · rintro rfl
    exact (silent_of_vloop h).2
  · intro hs
    exact vloop_of_silent hs h

/-! ## The counts -/

/-- **The count.** The return value is the number of calls of cputchar, and agrees with that of `vsnprintf` on any
buffer, exactly when the format is silent. -/
theorem vcprintf_counts_iff {σ : Type} (cputchar : Word → σ → σ) (console : σ) (fmt : List Byte) (ap : List Arg) {rc : ℤ}
    {console' : σ} {calls : List Word}
    (h : vcprintf (traced cputchar) (console, []) fmt ap = .ok (rc, console', calls)) :
    (rc = calls.length ∧ ∀ ram buf (n : ℤ), buf ≠ 0 → 1 ≤ n → buf.toNat + n ≤ 2 ^ 32 →
      ∃ ram', vsnprintf ram buf n fmt ap = .ok (rc, ram')) ↔ Silent ⟨[], fmt⟩ ap := by
  rw [vcprintf_eq] at h
  obtain ⟨⟨S, rest⟩, hS, hrc⟩ := map_eq_ok h
  simp only [feed_traced, List.nil_append, Prod.mk.injEq] at hrc
  obtain ⟨rfl, -, rfl⟩ := hrc
  rw [← emit_eq_nil_iff hS]
  constructor
  · rintro ⟨hl, -⟩
    exact List.length_eq_zero_iff.1 (by omega)
  · rintro rfl
    exact ⟨rfl, fun ram buf n hb hn hf => ⟨_, vsnprintf_eq hS (by decide) hb hn hf ram⟩⟩

/-- witness: an empty %s -/
theorem vcprintf_counts_empty : (0 : ℤ) = ([] : List Word).length ∧ ∀ ram buf (n : ℤ), buf ≠ 0 → 1 ≤ n →
    buf.toNat + n ≤ 2 ^ 32 → ∃ ram', vsnprintf ram buf n (bytes "%s" ++ [0]) [.str (some [0])] = .ok (0, ram') := by
  have h : vcprintf (traced fun _ (s : Unit) => s) ((), []) (bytes "%s" ++ [0]) [.str (some [0])] = .ok (0, (), []) := by
    decide +kernel
  have hs : reswitch Esc.init ⟨[chr '%'], [chr 's', 0#8]⟩ [.str (some [0])] =
      .ok (chr 's', Esc.init, ⟨[chr 's', chr '%'], [0#8]⟩, [.str (some [0])]) := by decide +kernel
  exact (vcprintf_counts_iff _ _ _ _ h).2 (.str hs (by decide) (Or.inl rfl) (.nul _ _ _))

/-- `cprintf("a")` prints one character and returns 0. -/
theorem cprintf_returns_zero : vcprintf (traced fun _ (s : Unit) => s) ((), []) (bytes "a" ++ [0]) [] =
    .ok (0, (), [uchar (chr 'a')]) ∧ (0 : ℤ) ≠ [uchar (chr 'a')].length := by
  constructor
  · decide +kernel
  · decide

end Jos.Printfmt
