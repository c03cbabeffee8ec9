/-
What the formatter emits does not depend on the sink.

- `vloop_map`: a map between two sinks carries one run of the formatter over to the other.
- `vprintfmt_eq`: `vprintfmt` is its own nested formatter, so two levels of nesting are the whole recursion.
- **`vprintfmt_feed`**: every run hands the characters of `emit fmt ap` to its sink, in order.
-/
import Jos.Core.Sink
import Jos.Printfmt.Model

namespace Jos.Printfmt

open Sink (Map snoc feed)

/-! ## One run carried over to another sink -/

section SinkMap

variable {σ τ : Type} {putch₁ : Word → τ → τ} {putch₂ : Word → σ → σ} {h : τ → σ}

theorem pad_map (hh : Map putch₁ putch₂ h) (c : Word) (n : ℕ) (t : τ) :
    h (pad putch₁ c n t) = pad putch₂ c n (h t) := by
  induction n generalizing t with
  | zero => rfl
  | succ n ih => rw [pad, pad, ih, hh]

theorem printnum_map (hh : Map putch₁ putch₂ h) (num : ℕ) (base : Base) (width : ℤ) (padc : Word) (t : τ) :
    h (printnum putch₁ num base width padc t) = printnum putch₂ num base width padc (h t) := by
  fun_induction printnum putch₂ num base width padc (h t) with
  | case1 num width hb ih => rw [printnum, if_pos hb, hh, ih]
  | case2 num width hb => rw [printnum, if_neg hb, hh, pad_map hh]

theorem number_map (hh : Map putch₁ putch₂ h) (num : BitVec 64) (base : Base) (e : Esc) (t : τ) :
    h (number putch₁ num base e t) = number putch₂ num base e (h t) :=
  printnum_map hh _ _ _ _ _

theorem putStr_map (hh : Map putch₁ putch₂ h) (altflag : Bool) (precision width : ℤ) (p : List Byte) (t : τ) :
    (putStr putch₁ altflag precision width p t).map (Prod.map id h) = putStr putch₂ altflag precision width p (h t) := by
  induction p generalizing precision width t with
  | nil => rfl
  | cons b p ih =>
    simp only [putStr]
    split_ifs
    · rfl
    · rw [ih, hh]
    · rw [ih, hh]
    · rfl

theorem padStr_map (hh : Map putch₁ putch₂ h) (e : Esc) (p : List Byte) (t : τ) :
    (padStr putch₁ e p t).map (Prod.map id h) = padStr putch₂ e p (h t) := by
  unfold padStr
  split_ifs
  · cases strnlen p (sizeT e.precision) with
    | none => rfl
    | some n => simp only [map_ok, Prod.map, id, pad_map hh]
  · rfl

theorem convStr_map (hh : Map putch₁ putch₂ h) (e : Esc) (ap : List Arg) (t : τ) :
    (convStr putch₁ e ap t).map (Prod.map h id) = convStr putch₂ e ap (h t) := by
  unfold convStr
  cases vaStr ap with
  | error f => rfl
  | ok r =>
    simp only [ok_bind]
    rw [← padStr_map hh]
    cases padStr putch₁ e (orNull r.1) t with
    | error f => rfl
    | ok ws =>
      simp only [ok_bind, map_ok, Prod.map, id]
      rw [← putStr_map hh]
      cases putStr putch₁ e.altflag e.precision ws.1 (orNull r.1) ws.2 with
      | error f => rfl
      | ok ws' => exact congrArg (fun s => Except.ok (s, r.2)) (pad_map hh _ _ _)

theorem convInt_map (hh : Map putch₁ putch₂ h) (e : Esc) (ap : List Arg) (t : τ) :
    (convInt putch₁ e ap t).map (Prod.map h id) = convInt putch₂ e ap (h t) := by
  unfold convInt
  cases getint ap e.lflag with
  | error f => rfl
  | ok r =>
    simp only [ok_bind]
    split_ifs
    · rw [← hh, ← number_map hh]; rfl
    · rw [← number_map hh]; rfl

theorem convUint_map (hh : Map putch₁ putch₂ h) (base : Base) (e : Esc) (ap : List Arg) (t : τ) :
    (convUint putch₁ base e ap t).map (Prod.map h id) = convUint putch₂ base e ap (h t) := by
  unfold convUint
  cases getuint ap e.lflag with
  | error f => rfl
  | ok r => simp only [ok_bind]; rw [← number_map hh]; rfl

theorem convPtr_map (hh : Map putch₁ putch₂ h) (e : Esc) (ap : List Arg) (t : τ) :
    (convPtr putch₁ e ap t).map (Prod.map h id) = convPtr putch₂ e ap (h t) := by
  unfold convPtr
  cases vaInt ap with
  | error f => rfl
  | ok r => simp only [ok_bind]; rw [← hh, ← hh, ← number_map hh]; rfl

/-- the nested formatters agree on the formats that case 'e' gives them -/
structure NestedMap (h : τ → σ) (printfmt₁ : τ → List Byte → List Arg → Except Fault τ)
    (printfmt₂ : σ → List Byte → List Arg → Except Fault σ) : Prop where
  error : ∀ t w, (printfmt₁ t fmtErrorD [.word w]).map h = printfmt₂ (h t) fmtErrorD [.word w]
  str : ∀ t p, (printfmt₁ t fmtS [.str p]).map h = printfmt₂ (h t) fmtS [.str p]

variable {printfmt₁ : τ → List Byte → List Arg → Except Fault τ}
  {printfmt₂ : σ → List Byte → List Arg → Except Fault σ}

theorem convErr_map (hn : NestedMap h printfmt₁ printfmt₂) (ap : List Arg) (t : τ) :
    (convErr printfmt₁ ap t).map (Prod.map h id) = convErr printfmt₂ ap (h t) := by
  unfold convErr
  cases vaInt ap with
  | error f => rfl
  | ok r =>
    simp only [ok_bind]
    cases errMsg (absErr r.1) with
    | error f => rfl
    | ok msg =>
      cases msg with
      | none => simp only [ok_bind]; rw [← hn.error, bind_map, map_bind]; rfl
      | some msg => simp only [ok_bind]; rw [← hn.str, bind_map, map_bind]; rfl

theorem convert_map (hh : Map putch₁ putch₂ h) (hn : NestedMap h printfmt₁ printfmt₂) (ch : Byte) (e : Esc)
    (ap : List Arg) (t : τ) :
    (convert putch₁ printfmt₁ ch e ap t).map (fun r => r.map (Prod.map h id)) =
      convert putch₂ printfmt₂ ch e ap (h t) := by
  have hchar : (vaInt ap >>= fun r => (.ok (putch₁ r.1 t, r.2) : Except Fault (τ × List Arg))).map (Prod.map h id) =
      vaInt ap >>= fun r => .ok (putch₂ r.1 (h t), r.2) := by
    cases vaInt ap with
    | error f => rfl
    | ok r => rw [ok_bind, ok_bind, ← hh]; rfl
  unfold convert
  -- one case after the other, in the order of the switch
  apply case_map hchar
  apply case_map (convErr_map hn ap t)
  apply case_map (convStr_map hh e ap t)
  apply case_map (convInt_map hh e ap t)
  apply case_map (convUint_map hh base10 e ap t)
  apply case_map (convUint_map hh base8 e ap t)
  apply case_map (convPtr_map hh e ap t)
  apply case_map (convUint_map hh base16 e ap t)
  apply case_map
  · rw [← hh]; rfl
  · rfl

theorem escape_map (hh : Map putch₁ putch₂ h) (hn : NestedMap h printfmt₁ printfmt₂) (p : Fmt) (ap : List Arg) (t : τ) :
    (escape putch₁ printfmt₁ p ap t).map (Prod.map h id) = escape putch₂ printfmt₂ p ap (h t) := by
  unfold escape
  rw [map_bind]
  congr 1
  funext ⟨ch, e, q, ap⟩
  simp only
  rw [← convert_map hh hn]
  cases convert putch₁ printfmt₁ ch e ap t with
  | none =>
    simp only [Option.map_none]
    rw [map_bind, ← hh]; rfl
  | some r =>
    simp only [Option.map_some]
    rw [map_map, map_map]; rfl

/-- **One run, carried over.** -/
theorem vloop_map (hh : Map putch₁ putch₂ h) (hn : NestedMap h printfmt₁ printfmt₂) (p : Fmt) (ap : List Arg) (t : τ) :
    (vloop putch₁ printfmt₁ p ap t).map (Prod.map h id) = vloop putch₂ printfmt₂ p ap (h t) := by
  fun_induction vloop putch₁ printfmt₁ p ap t with
  | case1 p ap t hp =>
    obtain ⟨b, ahead⟩ := p
    cases hp
    rw [vloop_nil]; rfl
  | case2 p ap t rest f hf hp =>
    obtain ⟨b, ahead⟩ := p
    cases hp
    rw [vloop_percent, ← escape_map hh hn, hf]; rfl
  | case3 p ap t rest t' q ap' he hp ih =>
    obtain ⟨b, ahead⟩ := p
    cases hp
    rw [vloop_percent, ← escape_map hh hn, he]
    exact ih
  | case4 p ap t rest hp h0 =>
    obtain ⟨b, ahead⟩ := p
    cases hp
    rw [vloop_nul]; rfl
  | case5 p ap t ch rest hp hc h0 ih =>
    obtain ⟨b, ahead⟩ := p
    cases hp
    rw [vloop_literal _ _ hc h0, ← hh]
    exact ih

end SinkMap

/-! ## The nested calls -/

section Nested

variable {σ : Type} (putch : Word → σ → σ) (printfmt : σ → List Byte → List Arg → Except Fault σ)

theorem vloop_text (l : List Byte) (hl : ∀ b ∈ l, b ≠ chr '%' ∧ b ≠ 0#8) (b rest : List Byte) (ap : List Arg) (s : σ) :
    vloop putch printfmt ⟨b, l ++ rest⟩ ap s =
      vloop putch printfmt ⟨l.reverse ++ b, rest⟩ ap (feed putch s (l.map uchar)) := by
  induction l generalizing b s with
  | nil => rfl
  | cons c l ih =>
    have hc := hl c List.mem_cons_self
    rw [List.cons_append, vloop_literal _ _ hc.1 hc.2, ih fun x hx => hl x (List.mem_cons_of_mem _ hx)]
    simp

/-- a format that ends with the plain conversion c -/
theorem vloop_conv {c : Byte} {r : List Arg → σ → Except Fault (σ × List Arg)} (hf : isFlag c = false)
    (hr : ∀ ap s, convert putch printfmt c Esc.init ap s = some (r ap s)) (b : List Byte) (ap : List Arg) (s : σ) :
    vloop putch printfmt ⟨b, [chr '%', c, 0#8]⟩ ap s = r ap s := by
  rw [vloop_percent, escape, reswitch_conv hf, ok_bind]
  simp only [hr]
  rw [bind_map]
  cases r ap s with
  | error f => rfl
  | ok t => exact vloop_nul _ _ _ _ _ _

/-- `printfmt(putch, putdat, "error %d", err)` -/
theorem vloop_fmtErrorD (ap : List Arg) (s : σ) :
    vloop putch printfmt ⟨[], fmtErrorD⟩ ap s =
      convInt putch Esc.init ap (feed putch s ((bytes "error ").map uchar)) := by
  have h : fmtErrorD = bytes "error " ++ [chr '%', chr 'd', 0#8] := by decide
  rw [h, vloop_text _ _ _ (by decide), vloop_conv _ _ (by decide) (fun _ _ => rfl)]

/-- `printfmt(putch, putdat, "%s", p)` -/
theorem vloop_fmtS (ap : List Arg) (s : σ) :
    vloop putch printfmt ⟨[], fmtS⟩ ap s = convStr putch Esc.init ap s := by
  have h : fmtS = [chr '%', chr 's', 0#8] := by decide
  rw [h, vloop_conv _ _ (by decide) (fun _ _ => rfl)]

/-- with one nested call allowed, case 'e' finds all it needs -/
theorem vprintfmtN_nested (n : ℕ) : NestedMap id (fun s fmt ap => (vprintfmtN putch (n + 1) s fmt ap).map Prod.fst)
    fun s fmt ap => (vprintfmtN putch 1 s fmt ap).map Prod.fst where
  error t w := by simp only [vprintfmtN, vloop_fmtErrorD, map_map]; rfl
  str t p := by simp only [vprintfmtN, vloop_fmtS, map_map]; rfl

theorem vprintfmtN_eq (n : ℕ) (s : σ) (fmt : List Byte) (ap : List Arg) :
    vprintfmtN putch (n + 2) s fmt ap = vprintfmt putch s fmt ap := by
  have h := vloop_map (Map.refl putch) (vprintfmtN_nested putch n) ⟨[], fmt⟩ ap s
  rw [Prod.map_id, map_id] at h
  exact h

/-- **The whole recursion.** `vprintfmt` is its own nested formatter. -/
theorem vprintfmt_eq (s : σ) (fmt : List Byte) (ap : List Arg) :
    vprintfmt putch s fmt ap =
      vloop putch (fun s fmt ap => (vprintfmt putch s fmt ap).map Prod.fst) ⟨[], fmt⟩ ap s :=
  (vprintfmtN_eq putch 1 s fmt ap).symm

end Nested

/-! ## The characters emitted -/

/-- the characters that fmt and ap produce, and the arguments left over -/
def emit (fmt : List Byte) (ap : List Arg) : Except Fault (List Word × List Arg) := vprintfmt snoc [] fmt ap

theorem vprintfmtN_map {σ τ : Type} {putch₁ : Word → τ → τ} {putch₂ : Word → σ → σ} {h : τ → σ}
    (hh : Map putch₁ putch₂ h) (n : ℕ) (t : τ) (fmt : List Byte) (ap : List Arg) :
    (vprintfmtN putch₁ n t fmt ap).map (Prod.map h id) = vprintfmtN putch₂ n (h t) fmt ap := by
  induction n generalizing t fmt ap with
  | zero => rfl
  | succ n ih =>
    rw [vprintfmtN, vprintfmtN]
    refine vloop_map hh ⟨fun t w => ?_, fun t p => ?_⟩ _ _ _
    · rw [← ih, map_map, map_map]; rfl
    · rw [← ih, map_map, map_map]; rfl

/-- **Every run feeds its sink.** -/
theorem vprintfmt_feed {σ : Type} (putch : Word → σ → σ) (s : σ) (fmt : List Byte) (ap : List Arg) :
    vprintfmt putch s fmt ap = (emit fmt ap).map (Prod.map (feed putch s) id) :=
  (vprintfmtN_map (Map.feed putch s) 2 [] fmt ap).symm

end Jos.Printfmt
