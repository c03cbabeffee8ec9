/-
The scan of a format, malformed ones included.

The main loop is a sequence of turns: a character that is no '%' is printed, a '%' is interpreted. The default case moves
the pointer backwards, but never to its own '%' or before it, so every turn makes progress.

- `Turn`, `Turns`: the turns of the main loop, labelled with the index of the '%' that is interpreted.
- `turns_index`: the pointer moves forward, through the same format.
- `turns_finish`: the main loop comes to the terminator, or to an argument that is not there.
- **`scan_well_behaved`**
-/
import Jos.Printfmt.Compose
import Jos.Printfmt.Text

namespace Jos.Printfmt

open Sink (feed)

/-! ## Failures -/

/-- a failure that is neither a read outside the format nor a lack of nested calls -/
def Outside {α : Type} (x : Except Fault α) : Prop := ∀ f, x = .error f → f ≠ .fmt ∧ f ≠ .nested

section Outside

variable {α β : Type}

theorem outside_ok (a : α) : Outside (.ok a : Except Fault α) := by
  intro f h
  cases h

theorem outside_error {f : Fault} (h : f ≠ .fmt ∧ f ≠ .nested) : Outside (.error f : Except Fault α) := by
  intro g hg
  cases hg
  exact h

theorem Outside.bind {x : Except Fault α} {f : α → Except Fault β} (hx : Outside x) (hf : ∀ a, Outside (f a)) :
    Outside (x >>= f) := by
  cases x with
  | error e => exact fun g hg => hx g (by cases hg; rfl)
  | ok a => exact hf a

theorem Outside.map {x : Except Fault α} (hx : Outside x) (f : α → β) : Outside (x.map f) := by
  cases x with
  | error e => exact fun g hg => hx g (by cases hg; rfl)
  | ok a => exact outside_ok (f a)

theorem outside_vaInt (ap : List Arg) : Outside (vaInt ap) := by
  unfold vaInt
  split
  · exact outside_ok _
  · exact outside_error (by decide)

theorem outside_vaStr (ap : List Arg) : Outside (vaStr ap) := by
  unfold vaStr
  split
  · exact outside_ok _
  · exact outside_error (by decide)

theorem outside_vaLongLong (ap : List Arg) : Outside (vaLongLong ap) := by
  unfold vaLongLong
  split
  · exact outside_ok _
  · exact outside_error (by decide)

theorem outside_getuint (ap : List Arg) (lflag : ℤ) : Outside (getuint ap lflag) := by
  unfold getuint
  split_ifs
  · exact outside_vaLongLong ap
  · exact (outside_vaInt ap).map _

theorem outside_getint (ap : List Arg) (lflag : ℤ) : Outside (getint ap lflag) := by
  unfold getint
  split_ifs
  · exact outside_vaLongLong ap
  · exact (outside_vaInt ap).map _

variable {σ : Type} (putch : Word → σ → σ)

theorem outside_putStr (altflag : Bool) (precision width : ℤ) (p : List Byte) (s : σ) :
    Outside (putStr putch altflag precision width p s) := by
  induction p generalizing precision width s with
  | nil => exact outside_error (by decide)
  | cons b p ih =>
    rw [putStr]
    split_ifs
    · exact outside_ok _
    · exact ih _ _ _
    · exact ih _ _ _
    · exact outside_ok _

theorem outside_padStr (e : Esc) (p : List Byte) (s : σ) : Outside (padStr putch e p s) := by
  unfold padStr
  split_ifs
  · split
    · exact outside_error (by decide)
    · exact outside_ok _
  · exact outside_ok _

theorem outside_convStr (e : Esc) (ap : List Arg) (s : σ) : Outside (convStr putch e ap s) := by
  refine (outside_vaStr ap).bind fun r => ?_
  refine (outside_padStr putch e _ s).bind fun w => ?_
  exact (outside_putStr putch _ _ _ _ _).bind fun _ => outside_ok _

theorem outside_convInt (e : Esc) (ap : List Arg) (s : σ) : Outside (convInt putch e ap s) := by
  refine (outside_getint ap e.lflag).bind fun r => ?_
  simp only
  split_ifs
  · exact outside_ok _
  · exact outside_ok _

theorem outside_errMsg (err : ℤ) : Outside (errMsg err) := by
  unfold errMsg errorString
  split_ifs
  · exact outside_ok _
  · exact outside_error ⟨by simp, by simp⟩
  · split
    · exact outside_ok _
    · exact outside_error ⟨by simp, by simp⟩

/-- the nested formatter: `vprintfmt` itself -/
def self (s : σ) (fmt : List Byte) (ap : List Arg) : Except Fault σ := (vprintfmt putch s fmt ap).map Prod.fst

theorem outside_convErr (ap : List Arg) (s : σ) : Outside (convErr (self putch) ap s) := by
  refine (outside_vaInt ap).bind fun r => ?_
  refine (outside_errMsg _).bind fun msg => ?_
  cases msg with
  | none =>
    refine Outside.bind ?_ fun _ => outside_ok _
    unfold self
    rw [vprintfmt_eq, vloop_fmtErrorD]
    exact (outside_convInt putch _ _ _).map _
  | some msg =>
    refine Outside.bind ?_ fun _ => outside_ok _
    unfold self
    rw [vprintfmt_eq, vloop_fmtS]
    exact (outside_convStr putch _ _ _).map _

theorem outside_convert {ch : Byte} {e : Esc} {ap : List Arg} {s : σ} {r : Except Fault (σ × List Arg)}
    (h : convert putch (self putch) ch e ap s = some r) : Outside r := by
  refine convert_rule putch (self putch) h Outside ?_ ?_ ?_ ?_ ?_ ?_ ?_
  · exact (outside_vaInt ap).bind fun _ => outside_ok _
  · exact outside_convErr putch ap s
  · intro _
    exact outside_convStr putch e ap s
  · exact outside_convInt putch e ap s
  · intro base
    exact (outside_getuint ap e.lflag).bind fun _ => outside_ok _
  · exact (outside_vaInt ap).bind fun _ => outside_ok _
  · exact outside_ok _

end Outside

/-! ## The scan of an escape -/

/-- the digit loop stops at the terminator at the latest -/
theorem outside_digits (precision : ℤ) (ch : Byte) (b : List Byte) {l : List Byte} (hl : 0#8 ∈ l) :
    Outside (digits precision ch b l) := by
  induction l generalizing precision ch b with
  | nil => cases hl
  | cons c l ih =>
    rw [digits]
    split_ifs with hc
    · have hne : (0#8 : Byte) ≠ c := by
        rintro rfl
        exact absurd hc (by decide)
      exact ih _ _ _ ((List.mem_cons.1 hl).resolve_left hne)
    · exact outside_ok _

theorem outside_switchOn (e : Esc) {p : Fmt} (ap : List Arg) (hp : 0#8 ∈ p.ahead) : Outside (switchOn e p ap) := by
  obtain ⟨b, l⟩ := p
  cases l with
  | nil => cases hp
  | cons ch rest =>
    simp only [switchOn]
    split_ifs with h1 h2
    · exact outside_ok _
    · have hne : (0#8 : Byte) ≠ ch := by
        rintro rfl
        exact absurd h2 (by decide)
      exact (outside_digits _ _ _ ((List.mem_cons.1 hp).resolve_left hne)).map _
    · exact (outside_vaInt ap).map _
    all_goals exact outside_ok _

theorem outside_reswitch (e : Esc) {p : Fmt} (ap : List Arg) (hp : 0#8 ∈ p.ahead) : Outside (reswitch e p ap) := by
  fun_induction reswitch e p ap with
  | case1 e p ap f hs =>
    have := outside_switchOn e ap hp
    rw [hs] at this
    exact outside_error (this f rfl)
  | case2 e p ap e1 q1 ap1 hs ih =>
    apply ih
    rcases switchOn_consumes hs with ⟨d, _, _, _, hr, -, h1, -, h3⟩ | ⟨_, _, hr, -⟩
    · cases hr
      rw [h1] at hp
      refine (List.mem_append.1 hp).resolve_left fun h0 => ?_
      exact absurd (h3 _ h0) (by decide)
    · cases hr
  | case3 e p ap ch e1 q1 ap1 hs => exact outside_ok _

section Main

variable {σ : Type} {putch : Word → σ → σ}

theorem outside_escape {b rest : List Byte} (ap : List Arg) (s : σ) (h0 : 0#8 ∈ rest) :
    Outside (escape putch (self putch) ⟨chr '%' :: b, rest⟩ ap s) := by
  unfold escape
  cases hr : reswitch Esc.init ⟨chr '%' :: b, rest⟩ ap with
  | error f =>
    have := outside_reswitch Esc.init (p := ⟨chr '%' :: b, rest⟩) ap h0
    rw [hr] at this
    exact outside_error (this f rfl)
  | ok r =>
    obtain ⟨ch, e, q, ap1⟩ := r
    rw [ok_bind]
    simp only
    split
    · rename_i res hres
      exact (outside_convert putch hres).map _
    · obtain ⟨d, -, h2, h3, -⟩ := reswitch_consumes hr
      have hq : q = ⟨ch :: (d.reverse ++ chr '%' :: b), q.ahead⟩ := by rw [← h2]
      rw [hq, rewind_percent h3]
      exact outside_ok _

/-! ## The turns of the main loop -/

/-- where the main loop stands: the pointer, the arguments left, the sink -/
structure Head (σ : Type) where
  p : Fmt
  ap : List Arg
  s : σ

/-- the index of the pointer -/
def Head.index (h : Head σ) : ℕ := h.p.behind.length

/-- the format that the pointer points into -/
def Head.fmt (h : Head σ) : List Byte := h.p.behind.reverse ++ h.p.ahead

variable (putch) in
/-- one turn of the main loop, and the index of the '%' that it interprets -/
inductive Turn : Head σ → Option ℕ → Head σ → Prop
  | text {b rest : List Byte} {ch : Byte} {ap : List Arg} {s : σ} (hp : ch ≠ chr '%') (h0 : ch ≠ 0#8) :
      Turn ⟨⟨b, ch :: rest⟩, ap, s⟩ none ⟨⟨ch :: b, rest⟩, ap, putch (uchar ch) s⟩
  | escape {b rest : List Byte} {ap ap' : List Arg} {s s' : σ} {q : Fmt}
      (h : escape putch (self putch) ⟨chr '%' :: b, rest⟩ ap s = .ok (s', q, ap')) :
      Turn ⟨⟨b, chr '%' :: rest⟩, ap, s⟩ (some b.length) ⟨q, ap', s'⟩

variable (putch) in
inductive Turns : Head σ → List (Option ℕ) → Head σ → Prop
  | refl (h : Head σ) : Turns h [] h
  | step {h h' h'' : Head σ} {i : Option ℕ} {tr : List (Option ℕ)} (first : Turn putch h i h') (rest : Turns h' tr h'') :
      Turns h (i :: tr) h''

theorem Turns.trans {h h' h'' : Head σ} {tr tr' : List (Option ℕ)} (h1 : Turns putch h tr h')
    (h2 : Turns putch h' tr' h'') : Turns putch h (tr ++ tr') h'' := by
  induction h1 with
  | refl h => exact h2
  | step first rest ih => exact .step first (ih h2)

/-- the run of `vprintfmt` from a head -/
def Head.run (putch : Word → σ → σ) (h : Head σ) : Except Fault (σ × List Arg) := vloop putch (self putch) h.p h.ap h.s

theorem Turn.run {h h' : Head σ} {i : Option ℕ} (ht : Turn putch h i h') : h.run putch = h'.run putch := by
  cases ht with
  | text hp h0 => exact vloop_literal putch _ hp h0 _ _ _ _
  | escape he =>
    unfold Head.run
    rw [vloop_percent, he, ok_bind]

theorem Turns.run {h h' : Head σ} {tr : List (Option ℕ)} (ht : Turns putch h tr h') : h.run putch = h'.run putch := by
  induction ht with
  | refl h => rfl
  | step first rest ih => exact first.run.trans ih

/-- an escape leaves the pointer behind its '%', in the same format, and in front of the terminator -/
theorem escape_pointer {b rest : List Byte} {ap ap' : List Arg} {s s' : σ} {q : Fmt} (h0 : 0#8 ∈ rest)
    (h : escape putch (self putch) ⟨chr '%' :: b, rest⟩ ap s = .ok (s', q, ap')) :
    q.behind.reverse ++ q.ahead = b.reverse ++ chr '%' :: rest ∧ b.length < q.behind.length ∧ 0#8 ∈ q.ahead := by
  obtain ⟨⟨ch, e, q1, ap1⟩, hr, hk⟩ := bind_ok h
  obtain ⟨d, h1, h2, h3, -⟩ := reswitch_consumes hr
  simp only at hk h1 h2
  split at hk
  · rename_i res hres
    obtain ⟨⟨s2, ap2⟩, -, hk⟩ := map_eq_ok hk
    cases hk
    refine ⟨by rw [h1, h2]; simp, by rw [h2]; simp; omega, ?_⟩
    -- the terminator is neither a flag nor a conversion
    rw [h1] at h0
    rcases List.mem_append.1 h0 with h0 | h0
    · exact absurd (h3 _ h0) (by decide)
    · refine (List.mem_cons.1 h0).resolve_left ?_
      rintro rfl
      have hnone : convert putch (self putch) 0#8 e ap1 s = none := (convert_eq_none_iff putch (self putch)).2 (by decide)
      rw [hnone] at hres
      cases hres
  · obtain ⟨q2, hw, hk⟩ := bind_ok hk
    cases hk
    have hq : q1 = ⟨ch :: (d.reverse ++ chr '%' :: b), q1.ahead⟩ := by rw [← h2]
    rw [hq, rewind_percent h3] at hw
    cases hw
    rw [h1] at h0 ⊢
    exact ⟨by simp, by simp, h0⟩

/-- **One turn** stays in the format, in front of its terminator, and moves the pointer forward. -/
theorem turn_index {h h' : Head σ} {i : Option ℕ} (ht : Turn putch h i h') (h0 : 0#8 ∈ h.p.ahead) :
    h'.fmt = h.fmt ∧ 0#8 ∈ h'.p.ahead ∧ h.index < h'.index ∧ ∀ j ∈ i, j = h.index := by
  cases ht with
  | text hp hne =>
    refine ⟨by simp [Head.fmt], ?_, by simp [Head.index], fun j hj => by cases hj⟩
    exact (List.mem_cons.1 h0).resolve_left fun h => hne h.symm
  | escape he =>
    have hrest := (List.mem_cons.1 h0).resolve_left (by decide)
    obtain ⟨h1, h2, h3⟩ := escape_pointer hrest he
    exact ⟨h1, h3, h2, fun j hj => by cases hj; rfl⟩

/-- **A run of turns.** The indices of the '%' that it interprets increase. -/
theorem turns_index {h h' : Head σ} {tr : List (Option ℕ)} (ht : Turns putch h tr h') (h0 : 0#8 ∈ h.p.ahead) :
    h'.fmt = h.fmt ∧ 0#8 ∈ h'.p.ahead ∧ h.index + tr.length ≤ h'.index ∧ (tr.filterMap id).Pairwise (· < ·) ∧
      ∀ j ∈ tr.filterMap id, h.index ≤ j := by
  induction ht with
  | refl h => exact ⟨rfl, h0, le_refl _, List.Pairwise.nil, fun j hj => by cases hj⟩
  | @step h h1 h2 i tr first rest ih =>
    obtain ⟨hf, hz, hlt, hi⟩ := turn_index first h0
    obtain ⟨hf', hz', hle, hpw, hlow⟩ := ih hz
    refine ⟨hf'.trans hf, hz', by rw [List.length_cons]; omega, ?_, ?_⟩
    · cases i with
      | none => exact hpw
      | some j =>
        have hj := hi j rfl
        exact List.pairwise_cons.2 ⟨fun k hk => by have := hlow k hk; omega, hpw⟩
    · intro k hk
      cases i with
      | none =>
        have := hlow k hk
        omega
      | some j =>
        have hj := hi j rfl
        rcases List.mem_cons.1 hk with rfl | hk
        · exact hj.ge
        · have := hlow k hk
          omega

/-- where the main loop ends: at the terminator, or at an escape that fails -/
inductive Final (putch : Word → σ → σ) (h : Head σ) : Except Fault (σ × List Arg) → Prop
  | nul (rest : List Byte) (hp : h.p.ahead = 0#8 :: rest) : Final putch h (.ok (h.s, h.ap))
  | fault (rest : List Byte) (f : Fault) (hp : h.p.ahead = chr '%' :: rest)
      (he : escape putch (self putch) ⟨chr '%' :: h.p.behind, rest⟩ h.ap h.s = .error f) (hf : f ≠ .fmt ∧ f ≠ .nested) :
      Final putch h (.error f)

theorem Final.run {h : Head σ} {r : Except Fault (σ × List Arg)} (hf : Final putch h r) : h.run putch = r := by
  obtain ⟨⟨b, l⟩, ap, s⟩ := h
  cases hf with
  | nul rest hp =>
    cases hp
    exact vloop_nul _ _ _ _ _ _
  | fault rest f hp he hf =>
    cases hp
    unfold Head.run
    rw [vloop_percent, he]
    rfl

/-- **Progress.** The main loop comes to an end from every head in front of the terminator. -/
theorem turns_finish (h : Head σ) (h0 : 0#8 ∈ h.p.ahead) : ∃ tr h' r, Turns putch h tr h' ∧ Final putch h' r := by
  induction hn : h.p.ahead.length using Nat.strong_induction_on generalizing h with
  | _ n ih =>
    obtain ⟨⟨b, l⟩, ap, s⟩ := h
    -- a turn leaves less of the format
    have hstep : ∀ {h' i}, Turn putch ⟨⟨b, l⟩, ap, s⟩ i h' →
        ∃ tr h'' r, Turns putch ⟨⟨b, l⟩, ap, s⟩ tr h'' ∧ Final putch h'' r := by
      intro h' i ht
      obtain ⟨hf, hz, hlt, -⟩ := turn_index ht h0
      have hlen := congrArg List.length hf
      simp only [Head.fmt, Head.index, List.length_append, List.length_reverse] at hlen hlt
      obtain ⟨tr, h'', r, hrun, hfin⟩ := ih h'.p.ahead.length (by rw [← hn]; simp only; omega) h' hz rfl
      exact ⟨i :: tr, h'', r, .step ht hrun, hfin⟩
    cases l with
    | nil => cases h0
    | cons ch rest =>
      by_cases hp : ch = chr '%'
      · subst hp
        cases he : escape putch (self putch) ⟨chr '%' :: b, rest⟩ ap s with
        | error f =>
          have hrest := (List.mem_cons.1 h0).resolve_left (by decide)
          exact ⟨[], _, _, .refl _, .fault rest f rfl he (outside_escape ap s hrest f he)⟩
        | ok r => exact hstep (.escape he)
      · by_cases hz : ch = 0#8
        · subst hz
          exact ⟨[], _, _, .refl _, .nul rest rfl⟩
        · exact hstep (.text hp hz)

/-! ## Escapes that are not recognized -/

/-- the digit loop, on the digits d₁ in front of something that is no digit -/
theorem digits_split {c : Byte} (hc : ¬ isDigit c) (precision : ℤ) (ch : Byte) (b l r : List Byte) :
    ∃ n d₁ d₂, l = d₁ ++ d₂ ∧ (∀ x ∈ d₁, isDigit x) ∧
      digits precision ch b (l ++ c :: r) = .ok (n, ⟨d₁.reverse ++ b, d₂ ++ c :: r⟩) := by
  induction l generalizing precision ch b with
  | nil =>
    refine ⟨int32 (precision * 10 + ch.toNat - 48), [], [], rfl, fun x hx => (List.not_mem_nil hx).elim, ?_⟩
    rw [List.nil_append, digits, if_neg hc]
    rfl
  | cons x l ih =>
    by_cases hx : isDigit x
    · obtain ⟨n, d₁, d₂, rfl, hd, h⟩ := ih (int32 (precision * 10 + ch.toNat - 48)) x (x :: b)
      refine ⟨n, x :: d₁, d₂, rfl, fun y hy => ?_, ?_⟩
      · rcases List.mem_cons.1 hy with rfl | hy
        · exact hx
        · exact hd y hy
      · rw [List.cons_append, digits, if_pos hx, h]
        simp
    · refine ⟨int32 (precision * 10 + ch.toNat - 48), [], x :: l, rfl, fun y hy => (List.not_mem_nil hy).elim, ?_⟩
      rw [List.cons_append, digits, if_neg hx]
      rfl

theorem count_star_digits {d : List Byte} (h : ∀ x ∈ d, isDigit x) : d.count (chr '*') = 0 := by
  apply List.count_eq_zero_of_not_mem
  intro hm
  exact absurd (h _ hm) (by decide)

/-- the scan of any flags, with an int for each '*' among them -/
theorem reswitch_words {c : Byte} (hc : isFlag c = false) {d : List Byte} (hd : ∀ x ∈ d, isFlag x = true) (e : Esc)
    (b r : List Byte) {ws : List Word} (hws : ws.length = d.count (chr '*')) (ap : List Arg) :
    ∃ e', reswitch e ⟨b, d ++ c :: r⟩ (ws.map Arg.word ++ ap) = .ok (c, e', ⟨c :: (d.reverse ++ b), r⟩, ap) := by
  have hcd : ¬ isDigit c := fun h => by rw [isFlag_of_digit h] at hc; cases hc
  induction hn : d.length using Nat.strong_induction_on generalizing d e b ws with
  | _ n ih =>
    cases d with
    | nil =>
      obtain rfl := List.length_eq_zero_iff.1 hws
      exact ⟨e, reswitch_conv hc e b r ap⟩
    | cons x d =>
      have hd' : ∀ y ∈ d, isFlag y = true := fun y hy => hd y (List.mem_cons_of_mem _ hy)
      have hlt : d.length < n := by rw [← hn, List.length_cons]; omega
      rw [List.cons_append]
      rcases switchOn_flag (hd x List.mem_cons_self) e b with ⟨hx, e1, h1⟩ | ⟨hx, h1⟩ | ⟨rfl, h1⟩
      · rw [List.count_cons_of_ne hx] at hws
        obtain ⟨e', he'⟩ := ih d.length hlt hd' e1 (x :: b) hws rfl
        refine ⟨e', ?_⟩
        rw [reswitch_eq, h1, ok_bind]
        simpa using he'
      · obtain ⟨m, d₁, d₂, rfl, hdig, hloop⟩ := digits_split hcd 0 x (x :: b) d r
        rw [List.count_cons_of_ne hx, List.count_append, count_star_digits hdig, Nat.zero_add] at hws
        rw [List.length_append] at hlt
        obtain ⟨e', he'⟩ := ih d₂.length (by omega) (fun y hy => hd' y (List.mem_append_right _ hy))
          (e.processPrecision m) (d₁.reverse ++ x :: b) hws rfl
        refine ⟨e', ?_⟩
        rw [reswitch_eq, h1, hloop, map_ok, ok_bind]
        simpa using he'
      · cases ws with
        | nil => simp at hws
        | cons w ws =>
          rw [List.count_cons_self, List.length_cons] at hws
          have hws' : ws.length = d.count (chr '*') := by omega
          obtain ⟨e', he'⟩ := ih d.length hlt hd' (e.processPrecision w.toInt) (chr '*' :: b) hws' rfl
          refine ⟨e', ?_⟩
          rw [List.map_cons, List.cons_append, reswitch_eq, h1, vaInt, map_ok, ok_bind]
          simpa using he'

/-- the default case goes back to right behind the '%' -/
theorem escape_unrecognized {c : Byte} (hc : isFlag c = false) (hn : c ∉ bytes "cesduopx%") {d : List Byte}
    (hd : ∀ x ∈ d, isFlag x = true) (b r : List Byte) {ws : List Word} (hws : ws.length = d.count (chr '*'))
    (ap : List Arg) (s : σ) :
    escape putch (self putch) ⟨chr '%' :: b, d ++ c :: r⟩ (ws.map Arg.word ++ ap) s =
      .ok (putch (uchar (chr '%')) s, ⟨chr '%' :: b, d ++ c :: r⟩, ap) := by
  obtain ⟨e, he⟩ := reswitch_words hc hd Esc.init (chr '%' :: b) r hws ap
  have hnone : convert putch (self putch) c e ap s = none := (convert_eq_none_iff putch (self putch)).2 hn
  rw [escape, he, ok_bind]
  simp only [hnone]
  rw [rewind_percent hd]
  rfl

theorem turns_text {l : List Byte} (hl : ∀ x ∈ l, x ≠ chr '%' ∧ x ≠ 0#8) (b r : List Byte) (ap : List Arg) (s : σ) :
    Turns putch ⟨⟨b, l ++ r⟩, ap, s⟩ (List.replicate l.length none)
      ⟨⟨l.reverse ++ b, r⟩, ap, feed putch s (l.map uchar)⟩ := by
  induction l generalizing b s with
  | nil => exact .refl _
  | cons x l ih =>
    obtain ⟨hp, h0⟩ := hl x List.mem_cons_self
    have hrest := ih (fun y hy => hl y (List.mem_cons_of_mem _ hy)) (x :: b) (putch (uchar x) s)
    rw [List.reverse_cons, List.append_assoc]
    exact .step (.text hp h0) hrest

/-- the text of an escape: the terminator is not part of it -/
def escapeText (d : List Byte) (c : Byte) : List Byte := chr '%' :: (d ++ if c = 0#8 then [] else [c])

/-- **An escape that is not recognized** is printed, and the main loop goes on behind it. -/
theorem turns_unrecognized {c : Byte} (hc : isFlag c = false) (hn : c ∉ bytes "cesduopx%") {d : List Byte}
    (hd : ∀ x ∈ d, isFlag x = true) (b r : List Byte) {ws : List Word} (hws : ws.length = d.count (chr '*'))
    (ap : List Arg) (s : σ) :
    ∃ tr q, Turns putch ⟨⟨b, chr '%' :: (d ++ c :: r)⟩, ws.map Arg.word ++ ap, s⟩ (some b.length :: tr)
        ⟨q, ap, feed putch s ((escapeText d c).map uchar)⟩ ∧
      q.behind = (escapeText d c).reverse ++ b ∧ ∀ i ∈ tr, i = none := by
  have hesc := @escape_unrecognized _ putch _ hc hn _ hd b r _ hws ap s
  have hall : ∀ x ∈ d ++ (if c = 0#8 then [] else [c]), x ≠ chr '%' ∧ x ≠ 0#8 := by
    intro x hx
    rcases List.mem_append.1 hx with hx | hx
    · constructor <;> (rintro rfl; exact absurd (hd _ hx) (by decide))
    · split_ifs at hx with h0
      · cases hx
      · rw [List.mem_singleton.1 hx]
        refine ⟨?_, h0⟩
        rintro rfl
        exact hn (by decide)
  -- the main loop goes on with the terminator, or behind the conversion character
  obtain ⟨rest, hrest⟩ : ∃ rest, d ++ c :: r = d ++ (if c = 0#8 then [] else [c]) ++ rest := by
    split_ifs
    · exact ⟨c :: r, by simp⟩
    · exact ⟨r, by simp⟩
  have hrun := @turns_text _ putch _ hall (chr '%' :: b) rest ap (putch (uchar (chr '%')) s)
  rw [← hrest] at hrun
  exact ⟨_, _, .step (.escape hesc) hrun, by simp [escapeText], fun i hi => List.eq_of_mem_replicate hi⟩

/-- **The scan of any format** l, which ends with a NUL. It reads nothing before the first byte and nothing behind the
NUL. The main loop ends, after no more turns than l has bytes. It interprets each '%' once at most. It prints an escape
that it does not recognize as it stands. -/
theorem scan_well_behaved (l : List Byte) (putch : Word → σ → σ) (ap : List Arg) (s : σ) :
    Outside (vprintfmt putch s (l ++ [0#8]) ap) ∧
    (∃ tr h r, Turns putch ⟨⟨[], l ++ [0#8]⟩, ap, s⟩ tr h ∧ tr.length ≤ l.length ∧ Final putch h r ∧
      vprintfmt putch s (l ++ [0#8]) ap = r) ∧
    (∀ tr h, Turns putch ⟨⟨[], l ++ [0#8]⟩, ap, s⟩ tr h →
      h.fmt = l ++ [0#8] ∧ h.index ≤ l.length ∧ tr.length ≤ l.length ∧ (tr.filterMap id).Pairwise (· < ·)) ∧
    ∀ (tr : List (Option ℕ)) (b d r : List Byte) (c : Byte) (ws : List Word) (ap' : List Arg) (s' : σ),
      Turns putch ⟨⟨[], l ++ [0#8]⟩, ap, s⟩ tr ⟨⟨b, chr '%' :: (d ++ c :: r)⟩, ws.map Arg.word ++ ap', s'⟩ →
      (∀ x ∈ d, isFlag x = true) → isFlag c = false → c ∉ bytes "cesduopx%" → ws.length = d.count (chr '*') →
      ∃ tr' q, Turns putch ⟨⟨b, chr '%' :: (d ++ c :: r)⟩, ws.map Arg.word ++ ap', s'⟩ (some b.length :: tr')
          ⟨q, ap', feed putch s' ((escapeText d c).map uchar)⟩ ∧
        q.behind = (escapeText d c).reverse ++ b ∧ ∀ i ∈ tr', i = none := by
  have h0 : 0#8 ∈ (⟨⟨[], l ++ [0#8]⟩, ap, s⟩ : Head σ).p.ahead := by simp
  have hstart : vprintfmt putch s (l ++ [0#8]) ap = (⟨⟨[], l ++ [0#8]⟩, ap, s⟩ : Head σ).run putch :=
    vprintfmt_eq putch s _ ap
  obtain ⟨tr, h, r, hrun, hfin⟩ := @turns_finish _ putch ⟨⟨[], l ++ [0#8]⟩, ap, s⟩ h0
  have hr : vprintfmt putch s (l ++ [0#8]) ap = r := hstart.trans (hrun.run.trans hfin.run)
  have hbound : ∀ tr h, Turns putch ⟨⟨[], l ++ [0#8]⟩, ap, s⟩ tr h →
      h.fmt = l ++ [0#8] ∧ h.index ≤ l.length ∧ tr.length ≤ l.length ∧ (tr.filterMap id).Pairwise (· < ·) := by
    intro tr h hrun
    obtain ⟨hf, hz, hle, hpw, -⟩ := turns_index hrun h0
    have hlen := congrArg List.length hf
    have hpos := List.length_pos_of_mem hz
    simp only [Head.fmt, Head.index, List.length_append, List.length_reverse, List.length_nil, List.length_singleton] at *
    exact ⟨hf, by omega, by omega, hpw⟩
  refine ⟨?_, ⟨tr, h, r, hrun, (hbound tr h hrun).2.2.1, hfin, hr⟩, hbound, ?_⟩
  · intro f hf
    rw [hr] at hf
    cases hfin with
    | nul rest hp => cases hf
    | fault rest g hp he hg =>
      cases hf
      exact hg
  · intro tr b d r c ws ap' s' _ hd hc hn hws
    exact turns_unrecognized hc hn hd b r hws ap' s'

end Main

/-- witness: the format "%5" -/
theorem scan_well_behaved_cut : ∃ tr q, Turns Sink.snoc ⟨⟨[], bytes "%5" ++ [0#8]⟩, [], []⟩ (some 0 :: tr)
    ⟨q, [], (bytes "%5").map uchar⟩ ∧ q.behind = (bytes "%5").reverse ∧ ∀ i ∈ tr, i = none :=
  (scan_well_behaved (bytes "%5") Sink.snoc [] []).2.2.2 [] [] (bytes "5") [] 0#8 [] [] [] (.refl _) (by decide)
    (by decide) (by decide) (by decide)

end Jos.Printfmt
