/-
`readline` with its calls of getchar.

In `Readline.Model` the results of getchar are a list. Here getchar is a function on the state that cputchar writes to, and
`none` says that it is still waiting when its schedule ends. The loop runs with fuel, as getchar may return for ever.

- `readlineFrom_list`: on a list of characters this is the `readline` of the model.
- **`readlineFrom_waits`, `readlineFrom_ends`**: where reading and writing do not get in each other's way, the line and the
  echo are those of the editor, however getchar comes by the characters.
-/
import Jos.Core.Dialogue
import Jos.Readline.Edit

namespace Jos.Readline

open Dialogue (Reads Separate)
open Loop (Gives Runs run)
open Sink (feed)

/-! ## Model -/

/-- how far readline gets: in the line, or to a return of buf or of NULL -/
inductive Ended (S : Type) where
  | waiting (l : Line S)
  | line (l : Line S)
  | null (l : Line S)

section Run

variable {S : Type} (getchar : S → Option (ℤ × S)) (cputchar : Word → S → S)

/-- the body of `while (1)` -/
def body (echoing : Prop) [Decidable echoing] (l : Line S) : Option (Line S ⊕ Except Fault (Ended S)) :=
  match getchar l.console with
  | none => some (.inr (.ok (.waiting l)))
  | some (c, s) =>
    match step cputchar echoing c { l with console := s } with
    | .error f => some (.inr (.error f))
    | .ok (.again l) => some (.inl l)
    | .ok (.line l) => some (.inr (.ok (.line l)))
    | .ok (.null l) => some (.inr (.ok (.null l)))

/-- `readline(prompt)` with fuel n, and the contents of buf from before -/
def readlineFrom (n : ℕ) (prompt : Option (List Byte)) (buf : ℤ → Byte) (s : S) : Option (Except Fault (Ended S)) :=
  match prompted cputchar prompt s with
  | .error f => some (.error f)
  | .ok s => run (body getchar cputchar (iscons 0 ≠ 0)) n ⟨s, buf, 0⟩

end Run

/-! ## A list of characters -/

section Lists

variable {σ : Type} (cputchar : Word → σ → σ)

/-- getchar, from a list in front of the console -/
def nextOf (s : List ℤ × σ) : Option (ℤ × List ℤ × σ) :=
  match s.1 with
  | [] => none
  | c :: cs => some (c, cs, s.2)

def putBehind (c : Word) (s : List ℤ × σ) : List ℤ × σ := (s.1, cputchar c s.2)

theorem feed_putBehind (t : List Word) (s : List ℤ × σ) :
    feed (putBehind cputchar) s t = (s.1, feed cputchar s.2 t) := by
  induction t generalizing s with
  | nil => rfl
  | cons c t ih => exact ih _

/-- a list has its characters for getchar, and getchar and cputchar keep to their own components -/
theorem separate_list : Separate nextOf (putBehind cputchar) fun _ => True where
  get_inv _ _ _ _ _ := trivial
  put_inv _ _ _ := trivial
  get_put s c _ := by
    obtain ⟨cs, s⟩ := s
    cases cs <;> rfl

theorem reads_list (cs : List ℤ) (rest : List ℤ) (s : σ) : Reads nextOf cs (cs ++ rest, s) (rest, s) := by
  induction cs with
  | nil => exact .nil _
  | cons c cs ih => exact .cons rfl ih

/-- the line, with the characters in front of its console -/
def Line.behind (input : List ℤ) (l : Line σ) : Line (List ℤ × σ) := ⟨(input, l.console), l.buf, l.i⟩

/-- the outcome on a list, told by what is left in front of the console -/
def Outcome.ended : Outcome σ → Ended (List ℤ × σ)
  | .waiting l => .waiting (l.behind [])
  | .line l rest => .line (l.behind rest)
  | .null l rest => .null (l.behind rest)

def Next.behind (input : List ℤ) : Next σ → Next (List ℤ × σ)
  | .again l => .again (l.behind input)
  | .line l => .line (l.behind input)
  | .null l => .null (l.behind input)

theorem store_behind (input : List ℤ) (c : ℤ) (l : Line σ) :
    (l.behind input).store c = (l.store c).map (Line.behind input) := by
  unfold Line.store Line.behind
  split_ifs <;> rfl

theorem vcprintf_behind (input : List ℤ) (s : σ) (fmt : List Byte) (ap : List Printfmt.Arg) :
    Printfmt.vcprintf (putBehind cputchar) (input, s) fmt ap =
      (Printfmt.vcprintf cputchar s fmt ap).map fun r => (r.1, input, r.2) := by
  rw [Printfmt.vcprintf_eq, Printfmt.vcprintf_eq, map_map]
  simp only [feed_putBehind]
  rfl

theorem echo_behind (input : List ℤ) {echoing : Prop} [Decidable echoing] (c : ℤ) (l : Line σ) :
    echo (putBehind cputchar) echoing c (l.behind input) = (echo cputchar echoing c l).behind input := by
  unfold echo
  split_ifs <;> rfl

theorem step_behind (input : List ℤ) {echoing : Prop} [Decidable echoing] (c : ℤ) (l : Line σ) :
    step (putBehind cputchar) echoing c (l.behind input) = (step cputchar echoing c l).map (Next.behind input) := by
  unfold step
  have hi : (l.behind input).i = l.i := rfl
  have hc : (l.behind input).console = (input, l.console) := rfl
  simp only [echo_behind, store_behind, vcprintf_behind, hi, hc]
  split_ifs
  · cases Printfmt.vcprintf cputchar l.console (bytes "read error: %e\n" ++ [0#8]) [.word (BitVec.ofInt 32 c)] <;> rfl
  · rfl
  · cases (echo cputchar echoing c l).store c <;> rfl
  · cases (echo cputchar echoing (chr '\n').toNat l).store 0 <;> rfl
  · rfl

/-- **The loop on a list** is that of the model. -/
theorem run_list {echoing : Prop} [Decidable echoing] (input : List ℤ) (l : Line σ) {n : ℕ} (hn : input.length < n) :
    run (body nextOf (putBehind cputchar) echoing) n (l.behind input) =
      some ((loop cputchar echoing input l).map Outcome.ended) := by
  induction input generalizing l n with
  | nil =>
    obtain ⟨m, rfl⟩ : ∃ m, n = m + 1 := ⟨n - 1, by omega⟩
    rfl
  | cons c input ih =>
    obtain ⟨m, rfl⟩ : ∃ m, n = m + 1 := ⟨n - 1, by omega⟩
    rw [List.length_cons] at hn
    have hnext : nextOf (l.behind (c :: input)).console = some (c, input, l.console) := rfl
    have hline : ({ l.behind (c :: input) with console := (input, l.console) } : Line _) = l.behind input := rfl
    rw [run, body, hnext]
    simp only [hline, step_behind]
    rw [loop]
    cases hs : step cputchar echoing c l with
    | error f => rfl
    | ok r =>
      cases r with
      | again l' => exact ih l' (by omega)
      | line l' => rfl
      | null l' => rfl

/-- **readline on a list** is that of the model. -/
theorem readlineFrom_list {prompt : Option (List Byte)} (hp : Prompt prompt) (buf : ℤ → Byte) (input : List ℤ) (s : σ)
    {n : ℕ} (hn : input.length < n) :
    readlineFrom nextOf (putBehind cputchar) n prompt buf (input, s) =
      some ((readline cputchar prompt buf input s).map Outcome.ended) := by
  rw [readlineFrom, readline, prompted_eq _ hp, prompted_eq _ hp, feed_putBehind, ok_bind]
  exact run_list cputchar input ⟨feed cputchar s (promptChars prompt), buf, 0⟩ hn

end Lists

/-! ## Any source -/

section Sources

variable {S : Type} {getchar : S → Option (ℤ × S)} {cputchar : Word → S → S} {I : S → Prop}

/-- what readline has sent for a text behind its prompt -/
def echoed (prompt : Option (List Byte)) (cs : List Byte) : List Word :=
  promptChars prompt ++ (asCoded.sent cs []).map uchar

variable {echoing : Prop} [Decidable echoing]

/-- one character that has been read, and does not end the line -/
theorem body_again (he : echoing) {t : List Byte} {l : Line S} (h : Holds t l) {c : Byte} (hn : c ≠ chr '\n') (hr : c ≠ chr '\r') {s : S}
    (hget : getchar l.console = some ((c.toNat : ℤ), s)) :
    ∃ l', body getchar cputchar echoing l = some (.inl l') ∧ Holds (asCoded.next c t) l' ∧
      l'.console = send cputchar (asCoded.sends c t) s := by
  have hs : Holds t { l with console := s } := ⟨h.i_eq, h.fits, h.chars⟩
  obtain ⟨l', hstep, hl', hcon⟩ := step_edits cputchar he hs hn hr
  exact ⟨l', by rw [body, hget]; simp only [hstep], hl', hcon⟩

/-- **Every text**, from any source: the loop comes to a state that holds it, with the echo sent. -/
theorem run_reads (hS : Separate getchar cputchar I) (he : echoing) {cs : List Byte}
    (hcs : ∀ c ∈ cs, c ≠ chr '\n' ∧ c ≠ chr '\r') {t : List Byte} {l : Line S} (h : Holds t l) {s s' : S} {w : List Word} (hI : I s) (hl : l.console = feed cputchar s w)
    (hr : Reads getchar (typed cs) s s') :
    ∃ l', Holds (asCoded.text cs t) l' ∧ l'.console = feed cputchar s' (w ++ (asCoded.sent cs t).map uchar) ∧
      ∀ b N, (∀ n, N ≤ n → run (body getchar cputchar echoing) n l' = some b) →
        ∀ n, N + cs.length ≤ n → run (body getchar cputchar echoing) n l = some b := by
  induction cs generalizing t l s w with
  | nil =>
    cases hr
    refine ⟨l, h, ?_, fun b N hN n hn => hN n hn⟩
    rw [hl]
    simp [Editor.sent]
  | cons c cs ih =>
    cases hr with
    | cons hget hr =>
      have hc := hcs c List.mem_cons_self
      have hread := hS.get_feed_some hI hget w
      rw [← hl] at hread
      obtain ⟨l₁, hbody, h₁, hcon⟩ := body_again he h hc.1 hc.2 hread
      rw [send, ← Sink.feed_append] at hcon
      obtain ⟨l', h', hcon', hrun⟩ := ih (fun x hx => hcs x (List.mem_cons_of_mem _ hx)) h₁ (hS.get_inv _ _ _ hI hget) hcon hr
      refine ⟨l', h', ?_, fun b N hN n hn => ?_⟩
      · rw [hcon', Editor.sent, List.map_append, List.append_assoc]
      · rw [List.length_cons] at hn
        obtain ⟨m, rfl⟩ : ∃ m, n = m + 1 := ⟨n - 1, by omega⟩
        rw [Loop.run_again hbody]
        exact hrun b N hN m (by omega)

end Sources

section Readline

variable {S : Type} {getchar : S → Option (ℤ × S)} {cputchar : Word → S → S} {I : S → Prop}
  (hS : Separate getchar cputchar I) {prompt : Option (List Byte)} (hp : Prompt prompt) (buf : ℤ → Byte) {cs : List Byte}
  (hcs : ∀ c ∈ cs, c ≠ chr '\n' ∧ c ≠ chr '\r') {s s' : S} (hI : I s)

include hS hp hcs hI

/-- **Waiting for more.** -/
theorem readlineFrom_waits (w : List Word) (hr : Reads getchar (typed cs) s s') (hend : getchar s' = none) :
    ∃ l, Holds (asCoded.text cs []) l ∧ l.console = feed cputchar s' (w ++ echoed prompt cs) ∧
      Gives (fun n => readlineFrom getchar cputchar n prompt buf (feed cputchar s w)) (.ok (.waiting l)) := by
  have hstart : feed cputchar (feed cputchar s w) (promptChars prompt) = feed cputchar s (w ++ promptChars prompt) :=
    (Sink.feed_append _ _ _ _).symm
  obtain ⟨l, hl, hcon, hrun⟩ := run_reads hS (show iscons 0 ≠ 0 by decide) hcs (holds_nil _ buf) hI hstart hr
  rw [List.append_assoc] at hcon
  refine ⟨l, hl, hcon, cs.length + 1, fun n hn => ?_⟩
  show readlineFrom getchar cputchar n prompt buf (feed cputchar s w) = _
  simp only [readlineFrom, prompted_eq cputchar hp]
  refine hrun _ 1 (fun m hm => ?_) n (by omega)
  obtain ⟨m, rfl⟩ : ∃ k, m = k + 1 := ⟨m - 1, by omega⟩
  apply Loop.run_done
  have hnone := hS.get_feed_none (hr.inv hS hI) hend (w ++ (promptChars prompt ++ (asCoded.sent cs []).map uchar))
  rw [body, hcon, hnone]

/-- **A line.** -/
theorem readlineFrom_ends (w : List Word) {e : Byte} (he : e = chr '\n' ∨ e = chr '\r')
    (hr : Reads getchar (typed (cs ++ [e])) s s') :
    ∃ l, Contains l.buf (asCoded.text cs []) ∧ (asCoded.text cs []).length ≤ 1023 ∧
      l.console = feed cputchar s' (w ++ echoed prompt cs ++ [uchar (chr '\n')]) ∧
      Gives (fun n => readlineFrom getchar cputchar n prompt buf (feed cputchar s w)) (.ok (.line l)) := by
  have hstart : feed cputchar (feed cputchar s w) (promptChars prompt) = feed cputchar s (w ++ promptChars prompt) :=
    (Sink.feed_append _ _ _ _).symm
  rw [show typed (cs ++ [e]) = typed cs ++ [(e.toNat : ℤ)] by simp [typed]] at hr
  obtain ⟨s₁, hr₁, hr₂⟩ := hr.split
  obtain ⟨l, hl, hcon, hrun⟩ := run_reads hS (show iscons 0 ≠ 0 by decide) hcs (holds_nil _ buf) hI hstart hr₁
  rw [List.append_assoc] at hcon
  cases hr₂ with
  | cons hget hr₂ =>
    cases hr₂
    have hread := hS.get_feed_some (hr₁.inv hS hI) hget (w ++ (promptChars prompt ++ (asCoded.sent cs []).map uchar))
    rw [← hcon] at hread
    have hl' : Holds (asCoded.text cs [])
        { l with console := feed cputchar s' (w ++ (promptChars prompt ++ (asCoded.sent cs []).map uchar)) } :=
      ⟨hl.i_eq, hl.fits, hl.chars⟩
    refine ⟨⟨cputchar (uchar (chr '\n')) (feed cputchar s' (w ++ (promptChars prompt ++ (asCoded.sent cs []).map uchar))),
      Function.update l.buf l.i 0#8, l.i⟩, hl'.contains, hl.fits, ?_, cs.length + 1, fun n hn => ?_⟩
    · exact (Sink.feed_append cputchar s' (w ++ (promptChars prompt ++ (asCoded.sent cs []).map uchar))
        [uchar (chr '\n')]).symm
    · show readlineFrom getchar cputchar n prompt buf (feed cputchar s w) = _
      simp only [readlineFrom, prompted_eq cputchar hp]
      refine hrun _ 1 (fun m hm => ?_) n (by omega)
      obtain ⟨m, rfl⟩ : ∃ k, m = k + 1 := ⟨m - 1, by omega⟩
      apply Loop.run_done
      rw [body, hread]
      simp only [step_ends cputchar (show iscons 0 ≠ 0 by decide) hl' he]

end Readline

end Jos.Readline
