/-
The formatter is compositional.

- `convert_local`: a conversion consumes its own arguments only.
- `reswitch_local`, `escape_local`: an escape is determined by its own characters and its own arguments.
- `vloop_shift`: what lies before the pointer does not matter.
- **`emit_append`**: the output of f₁ ++ f₂ is the output of f₁ followed by that of f₂.
-/
import Jos.Printfmt.Emit

namespace Jos.Printfmt

open Sink (snoc feed)

/-! ## Arguments -/

theorem vaInt_local : Local vaInt := by
  intro ap w rest h t
  unfold vaInt at h
  split at h
  · cases h; rfl
  · cases h

theorem vaStr_local : Local vaStr := by
  intro ap p rest h t
  unfold vaStr at h
  split at h
  · cases h; rfl
  · cases h

theorem vaLongLong_local : Local vaLongLong := by
  intro ap w rest h t
  unfold vaLongLong at h
  split at h
  · cases h; rfl
  · cases h

theorem getuint_local (lflag : ℤ) : Local fun ap => getuint ap lflag := by
  unfold getuint
  split_ifs
  · exact vaLongLong_local
  · exact vaInt_local.andThen (fun w => .ok (w.zeroExtend 64)) fun ap => by cases vaInt ap <;> rfl

theorem getint_local (lflag : ℤ) : Local fun ap => getint ap lflag := by
  unfold getint
  split_ifs
  · exact vaLongLong_local
  · exact vaInt_local.andThen (fun w => .ok (w.signExtend 64)) fun ap => by cases vaInt ap <;> rfl

section Conversions

variable {σ : Type} (putch : Word → σ → σ) (printfmt : σ → List Byte → List Arg → Except Fault σ)

theorem convStr_local (e : Esc) (s : σ) : Local fun ap => convStr putch e ap s := by
  refine vaStr_local.andThen (fun p => padStr putch e (orNull p) s >>= fun r =>
    (putStr putch e.altflag e.precision r.1 (orNull p) r.2).map fun r => pad putch (uchar (chr ' ')) r.1.toNat r.2)
    fun ap => ?_
  unfold convStr
  cases vaStr ap with
  | error f => rfl
  | ok r =>
    simp only [ok_bind, map_bind]
    cases padStr putch e (orNull r.1) s with
    | error f => rfl
    | ok w => simp only [ok_bind, map_map]; rfl

theorem convInt_local (e : Esc) (s : σ) : Local fun ap => convInt putch e ap s := by
  refine (getint_local e.lflag).andThen (fun num => .ok (if num.toInt < 0 then
    number putch (-num) base10 e (putch (uchar (chr '-')) s) else number putch num base10 e s)) fun ap => ?_
  unfold convInt
  cases getint ap e.lflag with
  | error f => rfl
  | ok r => simp only [ok_bind]; split_ifs <;> rfl

theorem convUint_local (base : Base) (e : Esc) (s : σ) : Local fun ap => convUint putch base e ap s :=
  (getuint_local e.lflag).andThen (fun num => .ok (number putch num base e s)) fun _ => rfl

theorem convPtr_local (e : Esc) (s : σ) : Local fun ap => convPtr putch e ap s :=
  vaInt_local.andThen (fun w => .ok (number putch (w.zeroExtend 64) base16 e
    (putch (uchar (chr 'x')) (putch (uchar (chr '0')) s)))) fun _ => rfl

theorem convErr_local (s : σ) : Local fun ap => convErr printfmt ap s := by
  apply vaInt_local.andThen fun w => errMsg (absErr w) >>= fun msg =>
    msg.elim (printfmt s fmtErrorD [.word (BitVec.ofInt 32 (absErr w))]) fun msg =>
      printfmt s fmtS [.str (some (msg ++ [0#8]))]
  intro ap
  unfold convErr
  cases vaInt ap with
  | error f => rfl
  | ok r =>
    simp only [ok_bind, map_bind]
    cases errMsg (absErr r.1) with
    | error f => rfl
    | ok msg => cases msg <;> rfl

/-- **A conversion consumes its own arguments only.** -/
theorem convert_local {ch : Byte} {e : Esc} {ap ap' : List Arg} {s s' : σ}
    (h : convert putch printfmt ch e ap s = some (.ok (s', ap'))) (t : List Arg) :
    convert putch printfmt ch e (ap ++ t) s = some (.ok (s', ap' ++ t)) := by
  have hc : Local fun ap => vaInt ap >>= fun r => (.ok (putch r.1 s, r.2) : Except Fault (σ × List Arg)) :=
    vaInt_local.andThen (fun w => .ok (putch w s)) fun _ => rfl
  unfold convert at h ⊢
  revert h
  -- one case after the other, in the order of the switch
  apply case_ok fun h => hc _ _ _ h t
  apply case_ok fun h => convErr_local printfmt s _ _ _ h t
  apply case_ok fun h => convStr_local putch e s _ _ _ h t
  apply case_ok fun h => convInt_local putch e s _ _ _ h t
  apply case_ok fun h => convUint_local putch base10 e s _ _ _ h t
  apply case_ok fun h => convUint_local putch base8 e s _ _ _ h t
  apply case_ok fun h => convPtr_local putch e s _ _ _ h t
  apply case_ok fun h => convUint_local putch base16 e s _ _ _ h t
  apply case_ok
  · intro h; cases h; rfl
  · intro h; cases h

/-- the characters without a conversion do not depend on anything else -/
theorem convert_eq_none_iff {ch : Byte} {e : Esc} {ap : List Arg} {s : σ} :
    convert putch printfmt ch e ap s = none ↔ ch ∉ bytes "cesduopx%" := by
  have hb : bytes "cesduopx%" = [chr 'c', chr 'e', chr 's', chr 'd', chr 'u', chr 'o', chr 'p', chr 'x', chr '%'] := by
    decide
  simp only [convert, case_eq_none, hb, List.mem_cons, List.not_mem_nil, or_false, not_or, and_true]

end Conversions

/-! ## An escape -/

/-- the digit loop in front of c, which is no digit, does not look behind c -/
theorem digits_local {c : Byte} (hc : ¬ isDigit c) (precision : ℤ) (ch : Byte) (b l : List Byte) :
    ∃ n b' l', (∀ r, digits precision ch b (l ++ c :: r) = .ok (n, ⟨b', l' ++ c :: r⟩)) ∧ l'.length ≤ l.length ∧
      ∀ x ∈ l', x ∈ l := by
  induction l generalizing precision ch b with
  | nil => exact ⟨_, b, [], fun r => by rw [List.nil_append, digits, if_neg hc], le_refl _, fun x hx => hx⟩
  | cons x l ih =>
    by_cases hx : isDigit x
    · obtain ⟨n, b', l', h, hl, hm⟩ := ih (int32 (precision * 10 + ch.toNat - 48)) x (x :: b)
      refine ⟨n, b', l', fun r => ?_, hl.trans (Nat.le_succ _), fun y hy => List.mem_cons_of_mem _ (hm y hy)⟩
      rw [List.cons_append, digits, if_pos hx, h]
    · exact ⟨_, b, x :: l, fun r => by rw [List.cons_append, digits, if_neg hx], le_refl _, fun y hy => hy⟩

/-- one pass over a flag x of an escape with conversion character c -/
theorem switchOn_local {x c : Byte} {d b r : List Byte} {e : Esc} {ap : List Arg} {sc : Scan} (hx : isFlag x = true)
    (hc : isFlag c = false) (h : switchOn e ⟨b, x :: (d ++ c :: r)⟩ ap = .ok sc) :
    ∃ e' b' d' ap', sc = .reswitch e' ⟨b', d' ++ c :: r⟩ ap' ∧ d'.length ≤ d.length ∧ (∀ y ∈ d', y ∈ d) ∧
      ∀ r' t, switchOn e ⟨b, x :: (d ++ c :: r')⟩ (ap ++ t) = .ok (.reswitch e' ⟨b', d' ++ c :: r'⟩ (ap' ++ t)) := by
  have hcd : ¬ isDigit c := fun hd => by rw [isFlag_of_digit hd] at hc; cases hc
  rcases switchOn_flag hx e b with ⟨-, e', he⟩ | ⟨-, he⟩ | ⟨-, he⟩
  · rw [he] at h
    cases h
    exact ⟨e', x :: b, d, ap, rfl, le_refl _, fun y hy => hy, fun r' t => he _ _⟩
  · obtain ⟨n, b', d', hd, hl, hm⟩ := digits_local hcd 0 x (x :: b) d
    rw [he, hd, map_ok] at h
    cases h
    refine ⟨_, b', d', ap, rfl, hl, hm, fun r' t => ?_⟩
    rw [he, hd]
    rfl
  · rw [he] at h
    obtain ⟨⟨w, ap'⟩, hw, h⟩ := map_eq_ok h
    cases h
    refine ⟨_, x :: b, d, ap', rfl, le_refl _, fun y hy => hy, fun r' t => ?_⟩
    rw [he, vaInt_local _ _ _ hw t]
    rfl

/-- **The scan.** A scan over flags d up to the conversion character c depends on d, c and its own arguments. -/
theorem reswitch_local {c c' : Byte} {d b r : List Byte} {e e' : Esc} {q : Fmt} {ap ap' : List Arg}
    (hd : ∀ x ∈ d, isFlag x = true) (hc : isFlag c = false)
    (h : reswitch e ⟨b, d ++ c :: r⟩ ap = .ok (c', e', q, ap')) :
    c' = c ∧ q.ahead = r ∧ ∀ r' t, reswitch e ⟨b, d ++ c :: r'⟩ (ap ++ t) = .ok (c, e', ⟨q.behind, r'⟩, ap' ++ t) := by
  induction hn : d.length using Nat.strong_induction_on generalizing d b e ap with
  | _ n ih =>
    cases d with
    | nil =>
      rw [List.nil_append, reswitch_conv hc] at h
      cases h
      exact ⟨rfl, rfl, fun r' t => reswitch_conv hc _ _ _ _⟩
    | cons x d =>
      rw [List.cons_append, reswitch_eq] at h
      obtain ⟨sc, hs, h⟩ := bind_ok h
      obtain ⟨e₁, b₁, d₁, ap₁, rfl, hl, hm, hloc⟩ := switchOn_local (hd x List.mem_cons_self) hc hs
      have hlt : d₁.length < n := by rw [← hn, List.length_cons]; omega
      have hd₁ : ∀ y ∈ d₁, isFlag y = true := fun y hy => hd y (List.mem_cons_of_mem _ (hm y hy))
      obtain ⟨h1, h2, h3⟩ := ih _ hlt hd₁ h rfl
      refine ⟨h1, h2, fun r' t => ?_⟩
      rw [List.cons_append, reswitch_eq, hloc, ok_bind]
      exact h3 r' t

section Escape

variable {σ : Type} (putch : Word → σ → σ) (printfmt : σ → List Byte → List Arg → Except Fault σ)

/-- **An escape** depends on its own characters and its own arguments. It leaves the pointer behind itself, or, in the
default case, behind its '%'. -/
theorem escape_local {c : Byte} {d b r : List Byte} {q : Fmt} {ap ap' : List Arg} {s s' : σ}
    (hd : ∀ x ∈ d, isFlag x = true) (hc : isFlag c = false)
    (h : escape putch printfmt ⟨chr '%' :: b, d ++ c :: r⟩ ap s = .ok (s', q, ap')) :
    ∃ l, q.ahead = l ++ r ∧ (l = [] ∨ l = d ++ [c] ∧ c ≠ chr '%') ∧ ∀ r' t,
      escape putch printfmt ⟨chr '%' :: b, d ++ c :: r'⟩ (ap ++ t) s = .ok (s', ⟨q.behind, l ++ r'⟩, ap' ++ t) := by
  obtain ⟨⟨c', e, q₁, ap₁⟩, hr, hk⟩ := bind_ok h
  obtain ⟨rfl, hq, hloc⟩ := reswitch_local hd hc hr
  simp only at hk
  cases hcv : convert putch printfmt c' e ap₁ s with
  | some res =>
    rw [hcv] at hk
    obtain ⟨⟨s₂, ap₂⟩, rfl, hk⟩ := map_eq_ok hk
    cases hk
    refine ⟨[], hq, Or.inl rfl, fun r' t => ?_⟩
    rw [escape, hloc, ok_bind]
    simp only [convert_local putch printfmt hcv t]
    rfl
  | none =>
    rw [hcv] at hk
    obtain ⟨q₂, hw, hk⟩ := bind_ok hk
    cases hk
    have hn := (convert_eq_none_iff putch printfmt).1 hcv
    obtain ⟨d', h1, h2, h3, -⟩ := reswitch_consumes hr
    -- the flags are those of the escape
    obtain rfl : d' = d := by
      rw [hq] at h1
      exact (List.append_cancel_right h1).symm
    have hq₁ : q₁ = ⟨c' :: (d'.reverse ++ chr '%' :: b), r⟩ := by rw [← h2, ← hq]
    rw [hq₁, rewind_percent hd] at hw
    cases hw
    refine ⟨d' ++ [c'], by simp, Or.inr ⟨rfl, fun hp => hn (by rw [hp]; decide)⟩, fun r' t => ?_⟩
    rw [escape, hloc, ok_bind]
    simp only [(convert_eq_none_iff putch printfmt).2 hn, h2]
    rw [rewind_percent hd]
    simp [ok_bind, pure, Except.pure]

/-! ## What lies before the pointer -/

/-- the same pointer into a format that starts with c reversed -/
def Fmt.shift (c : List Byte) (p : Fmt) : Fmt := ⟨p.behind ++ c, p.ahead⟩

def Scan.shift (c : List Byte) : Scan → Scan
  | .reswitch e p ap => .reswitch e (p.shift c) ap
  | .conv ch e p ap => .conv ch e (p.shift c) ap

theorem digits_shift (c : List Byte) (precision : ℤ) (ch : Byte) (b l : List Byte) :
    digits precision ch (b ++ c) l = (digits precision ch b l).map fun r => (r.1, r.2.shift c) := by
  induction l generalizing precision ch b with
  | nil => rfl
  | cons x l ih =>
    simp only [digits]
    split_ifs
    · exact ih _ _ (x :: b)
    · rfl

theorem switchOn_shift (c : List Byte) (e : Esc) (p : Fmt) (ap : List Arg) :
    switchOn e (p.shift c) ap = (switchOn e p ap).map (Scan.shift c) := by
  obtain ⟨b, l⟩ := p
  cases l with
  | nil => rfl
  | cons x l =>
    simp only [switchOn, Fmt.shift]
    split_ifs
    · rfl
    · rw [← List.cons_append, digits_shift, map_map, map_map]; rfl
    · rw [map_map]; rfl
    · rfl
    · rfl
    · rfl
    · rfl

theorem reswitch_shift (c : List Byte) (e : Esc) (p : Fmt) (ap : List Arg) :
    reswitch e (p.shift c) ap = (reswitch e p ap).map fun r => (r.1, r.2.1, r.2.2.1.shift c, r.2.2.2) := by
  fun_induction reswitch e p ap with
  | case1 e p ap f hs => rw [reswitch_eq, switchOn_shift, hs]; rfl
  | case2 e p ap e₁ q₁ ap₁ hs ih => rw [reswitch_eq, switchOn_shift, hs]; exact ih
  | case3 e p ap ch e₁ q₁ ap₁ hs => rw [reswitch_eq, switchOn_shift, hs]; rfl

theorem escape_shift (c b l : List Byte) (ap : List Arg) (s : σ) :
    escape putch printfmt ⟨chr '%' :: (b ++ c), l⟩ ap s =
      (escape putch printfmt ⟨chr '%' :: b, l⟩ ap s).map fun r => (r.1, r.2.1.shift c, r.2.2) := by
  have hr := reswitch_shift c Esc.init ⟨chr '%' :: b, l⟩ ap
  simp only [Fmt.shift, List.cons_append] at hr
  rw [escape, escape, hr]
  cases hs : reswitch Esc.init ⟨chr '%' :: b, l⟩ ap with
  | error f => rfl
  | ok r =>
    obtain ⟨ch, e, q, ap₁⟩ := r
    simp only [map_ok, ok_bind]
    cases convert putch printfmt ch e ap₁ s with
    | some res => simp only; rw [map_map]; rfl
    | none =>
      obtain ⟨d, -, h2, h3, -⟩ := reswitch_consumes hs
      have hq : q = ⟨ch :: (d.reverse ++ chr '%' :: b), q.ahead⟩ := by rw [← h2]
      rw [hq]
      simp only [List.cons_append, List.append_assoc, rewind_percent h3]
      rfl

/-- **What lies before the pointer does not matter.** -/
theorem vloop_shift (c : List Byte) (p : Fmt) (ap : List Arg) (s : σ) :
    vloop putch printfmt (p.shift c) ap s = vloop putch printfmt p ap s := by
  fun_induction vloop putch printfmt p ap s with
  | case1 p ap s hp =>
    obtain ⟨b, l⟩ := p
    cases hp
    exact vloop_nil _ _ _ _ _
  | case2 p ap s l f hf hp =>
    obtain ⟨b, _⟩ := p
    cases hp
    rw [Fmt.shift, vloop_percent, escape_shift, hf]; rfl
  | case3 p ap s l s' q ap' he hp ih =>
    obtain ⟨b, _⟩ := p
    cases hp
    rw [Fmt.shift, vloop_percent, escape_shift, he]
    exact ih
  | case4 p ap s l hp h0 =>
    obtain ⟨b, _⟩ := p
    cases hp
    exact vloop_nul _ _ _ _ _ _
  | case5 p ap s ch l hp hc h0 ih =>
    obtain ⟨b, _⟩ := p
    cases hp
    rw [Fmt.shift, vloop_literal _ _ hc h0]
    exact ih

theorem vloop_behind (b l : List Byte) (ap : List Arg) (s : σ) :
    vloop putch printfmt ⟨b, l⟩ ap s = vloop putch printfmt ⟨[], l⟩ ap s :=
  vloop_shift putch printfmt b ⟨[], l⟩ ap s

end Escape

/-! ## Composition -/

/-- whether the text ends inside an escape, when it starts inside one or not -/
def endsInside : Bool → List Byte → Bool
  | inside, [] => inside
  | false, ch :: l => endsInside (ch == chr '%') l
  | true, ch :: l => endsInside (isFlag ch) l

/-- the first escape of a text that does not end inside it: its flags and its conversion character -/
theorem endsInside_split {l : List Byte} (h : endsInside true l = false) :
    ∃ d c l', l = d ++ c :: l' ∧ (∀ x ∈ d, isFlag x = true) ∧ isFlag c = false ∧ endsInside false l' = false := by
  induction l with
  | nil => cases h
  | cons x l ih =>
    rw [endsInside] at h
    cases hx : isFlag x with
    | false =>
      rw [hx] at h
      exact ⟨[], x, l, rfl, fun y hy => (List.not_mem_nil hy).elim, hx, h⟩
    | true =>
      rw [hx] at h
      obtain ⟨d, c, l', rfl, hd, hc, he⟩ := ih h
      refine ⟨x :: d, c, l', rfl, fun y hy => ?_, hc, he⟩
      rcases List.mem_cons.1 hy with rfl | hy
      · exact hx
      · exact hd y hy

theorem endsInside_text (l l' : List Byte) (hl : chr '%' ∉ l) : endsInside false (l ++ l') = endsInside false l' := by
  induction l with
  | nil => rfl
  | cons x l ih =>
    have hx : (x == chr '%') = false := by
      rw [beq_eq_false_iff_ne]
      rintro rfl
      exact hl List.mem_cons_self
    rw [List.cons_append, endsInside, hx, ih fun h => hl (List.mem_cons_of_mem _ h)]

/-- a run over f₁ that uses up a₁ is the first part of a run over f₁ ++ f₂ -/
theorem vloop_append {σ : Type} (putch : Word → σ → σ) (printfmt : σ → List Byte → List Arg → Except Fault σ)
    {f₁ b : List Byte} {a₁ : List Arg} {s s' : σ} (h0 : 0#8 ∉ f₁) (hf : endsInside false f₁ = false)
    (h : vloop putch printfmt ⟨b, f₁ ++ [0#8]⟩ a₁ s = .ok (s', [])) (f₂ : List Byte) (a₂ : List Arg) :
    vloop putch printfmt ⟨b, f₁ ++ f₂⟩ (a₁ ++ a₂) s = vloop putch printfmt ⟨[], f₂⟩ a₂ s' := by
  induction hn : f₁.length using Nat.strong_induction_on generalizing f₁ b a₁ s with
  | _ n ih =>
    cases f₁ with
    | nil =>
      rw [List.nil_append, vloop_nul] at h
      cases h
      exact vloop_behind _ _ _ _ _ _
    | cons ch l =>
      rw [List.mem_cons, not_or] at h0
      rw [List.length_cons] at hn
      rw [List.cons_append] at h ⊢
      rw [endsInside] at hf
      by_cases hp : ch = chr '%'
      · subst hp
        obtain ⟨d, c, l', rfl, hd, hc, he⟩ := endsInside_split hf
        rw [vloop_percent, List.append_assoc, List.cons_append] at h
        obtain ⟨⟨s₁, q, ap₁⟩, hs, h⟩ := bind_ok h
        obtain ⟨f, hq, hl, hloc⟩ := escape_local putch printfmt hd hc hs
        rw [vloop_percent, List.append_assoc, List.cons_append, hloc (l' ++ f₂) a₂, ok_bind, ← List.append_assoc]
        -- what is left of the format: nothing of the escape, or its text
        simp only [List.mem_append, List.mem_cons, not_or] at h0
        simp only [List.length_append, List.length_cons] at hn
        have hrun : vloop putch printfmt ⟨q.behind, (f ++ l') ++ [0#8]⟩ ap₁ s₁ = .ok (s', []) := by
          rw [List.append_assoc, ← hq]; exact h
        have hleft : (f ++ l').length < n ∧ 0#8 ∉ f ++ l' ∧ endsInside false (f ++ l') = false := by
          rcases hl with rfl | ⟨rfl, hcp⟩
          · exact ⟨by rw [List.nil_append]; omega, h0.2.2.2, he⟩
          · have hpc : chr '%' ∉ d ++ [c] := by
              rw [List.mem_append, List.mem_singleton, not_or]
              refine ⟨fun hm => ?_, fun hm => hcp hm.symm⟩
              have := hd _ hm
              rw [not_isFlag_percent] at this; cases this
            refine ⟨by simp only [List.length_append, List.length_singleton]; omega, ?_, ?_⟩
            · simp only [List.mem_append, List.mem_singleton, not_or]
              exact ⟨⟨h0.2.1, h0.2.2.1⟩, h0.2.2.2⟩
            · rw [endsInside_text _ _ hpc, he]
        exact ih _ hleft.1 hleft.2.1 hleft.2.2 hrun rfl
      · have hz : ch ≠ 0#8 := fun hz => h0.1 hz.symm
        rw [vloop_literal _ _ hp hz] at h ⊢
        rw [beq_eq_false_iff_ne.2 hp] at hf
        exact ih _ (by omega) h0.2 hf h rfl

/-- **Composition.** Let f₁ be a text that ends outside an escape, and a₁ the arguments it uses up. Then the output of
f₁ ++ f₂ with a₁ ++ a₂ is the output of f₁ with a₁ followed by that of f₂ with a₂, and it fails only where f₂ does. -/
theorem emit_append (f₁ f₂ : List Byte) (a₁ a₂ : List Arg) {S₁ : List Word} (h0 : 0#8 ∉ f₁)
    (hf : endsInside false f₁ = false) (h₁ : emit (f₁ ++ [0#8]) a₁ = .ok (S₁, [])) :
    emit (f₁ ++ f₂) (a₁ ++ a₂) = (emit f₂ a₂).map fun r => (S₁ ++ r.1, r.2) := by
  have happ := vprintfmtN_map (Sink.Map.append S₁) 2 [] f₂ a₂
  rw [List.append_nil] at happ
  exact (vloop_append snoc _ h0 hf h₁ f₂ a₂).trans happ.symm

/-- witness: "%5q %*d" uses up a width and a number -/
theorem emit_append_width : emit (bytes "%5q %*d" ++ (bytes "%d" ++ [0#8])) ([.word 3, .word 7] ++ [.word 42]) =
    (emit (bytes "%d" ++ [0#8]) [.word 42]).map fun r => ((bytes "%5q   7").map uchar ++ r.1, r.2) :=
  emit_append _ _ _ _ (by decide) (by decide) (by decide +kernel)

end Jos.Printfmt
