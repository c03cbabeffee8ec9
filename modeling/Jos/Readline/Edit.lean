/-
Is `readline` a line editor?

`lineEditor` is the editor that the code is meant to be: '\b' and DEL erase the last character if there is one, other
characters from ' ' on extend the text up to 1023, the rest is ignored. The test for an erasing key includes `i > 0`, so on
an empty line such a key goes on to the next test; '\b' fails that one too, but DEL is not below ' ' and is appended.

- **`readline_edits_iff`**: the code is the editor for a text exactly when no DEL is typed on an empty line.
- `readline_del`: a DEL on an empty line.
-/
import Jos.Readline.Model

namespace Jos.Readline

open Printfmt (traced)
open Sink (feed)

/-! ## The editor -/

def lineEditor : Editor where
  next c t := if isErase c then t.dropLast else if chr ' ' ≤ c ∧ t.length < 1023 then t ++ [c] else t
  sends c t :=
    if isErase c then if t = [] then [] else [chr '\x08'] else if chr ' ' ≤ c ∧ t.length < 1023 then [c] else []

/-- buf holds t, NUL-terminated -/
def Contains (buf : ℤ → Byte) (t : List Byte) : Prop := (∀ j (h : j < t.length), buf j = t[j]) ∧ buf t.length = 0#8

/-- every DEL is typed while the editor holds some text -/
def DelOnText (cs : List Byte) : Prop := ∀ p s, cs = p ++ chr '\x7f' :: s → lineEditor.text p [] ≠ []

/-! ## The code beside it -/

theorem eraser_low {c : Byte} (h : isErase c) (hd : c ≠ chr '\x7f') : ¬ chr ' ' ≤ c := by
  rcases h with rfl | rfl
  · decide
  · exact absurd rfl hd

/-- a character that is no DEL on an empty line -/
theorem next_eq {c : Byte} {t : List Byte} (h : c = chr '\x7f' → t ≠ []) :
    asCoded.next c t = lineEditor.next c t ∧ asCoded.sends c t = lineEditor.sends c t := by
  unfold asCoded lineEditor
  by_cases he : isErase c
  · by_cases ht : t = []
    · have hlow := eraser_low he fun hc => h hc ht
      simp [he, ht, hlow]
    · simp [he, ht]
  · simp [he]

theorem text_eq {cs t : List Byte} (h : ∀ p s, cs = p ++ chr '\x7f' :: s → lineEditor.text p t ≠ []) :
    asCoded.text cs t = lineEditor.text cs t ∧ asCoded.sent cs t = lineEditor.sent cs t := by
  induction cs generalizing t with
  | nil => exact ⟨rfl, rfl⟩
  | cons c cs ih =>
    obtain ⟨hnext, hsends⟩ := next_eq (c := c) (t := t) fun hc => h [] cs (by rw [hc]; rfl)
    obtain ⟨htext, hsent⟩ := ih (t := lineEditor.next c t) fun p s hp => h (c :: p) s (by rw [hp]; rfl)
    constructor
    · show asCoded.text cs (asCoded.next c t) = _
      rw [hnext, htext]
      rfl
    · rw [Editor.sent, Editor.sent, hnext, hsends, hsent]

/-- the editor never sends a DEL -/
theorem lineEditor_sends_del (c : Byte) (t : List Byte) : chr '\x7f' ∉ lineEditor.sends c t := by
  unfold lineEditor
  simp only
  split_ifs with h1 h2 h3
  · exact List.not_mem_nil
  · decide
  · intro hc
    exact h1 (Or.inr (List.mem_singleton.1 hc).symm)
  · exact List.not_mem_nil

theorem lineEditor_sent_del (cs t : List Byte) : chr '\x7f' ∉ lineEditor.sent cs t := by
  induction cs generalizing t with
  | nil => exact List.not_mem_nil
  | cons c cs ih =>
    rw [Editor.sent, List.mem_append, not_or]
    exact ⟨lineEditor_sends_del c t, ih _⟩

/-- the code sends one for the first DEL on an empty line -/
theorem asCoded_sent_del {p s t : List Byte} (h : lineEditor.text p t = []) :
    chr '\x7f' ∈ asCoded.sent (p ++ chr '\x7f' :: s) t := by
  induction p generalizing t with
  | nil =>
    obtain rfl : t = [] := h
    exact List.mem_append_left _ (by decide)
  | cons c p ih =>
    rw [List.cons_append, Editor.sent]
    by_cases hc : c = chr '\x7f' ∧ t = []
    · obtain ⟨rfl, rfl⟩ := hc
      exact List.mem_append_left _ (by decide)
    · obtain ⟨hnext, -⟩ := next_eq (c := c) (t := t) fun h1 h2 => hc ⟨h1, h2⟩
      apply List.mem_append_right
      apply ih
      rw [hnext]
      exact h

/-! ## readline -/

/-- the end of a text -/
theorem Holds.contains {σ : Type} {t : List Byte} {l : Line σ} (h : Holds t l) :
    Contains (Function.update l.buf l.i 0#8) t := by
  have hi := h.i_eq
  constructor
  · intro j hj
    have hne : (j : ℤ) ≠ l.i := by omega
    rw [Function.update_of_ne hne, h.chars j hj]
  · rw [hi, Function.update_self]

theorem holds_nil {σ : Type} (console : σ) (buf : ℤ → Byte) : Holds [] (⟨console, buf, 0⟩ : Line σ) where
  i_eq := rfl
  fits := Nat.zero_le _
  chars j hj := absurd hj (Nat.not_lt_zero j)

/-- readline while the line is being typed -/
theorem readline_typing {σ : Type} (cputchar : Word → σ → σ) {prompt : Option (List Byte)} (hp : Prompt prompt)
    (buf : ℤ → Byte) (cs : List Byte) (hcs : ∀ c ∈ cs, c ≠ chr '\n' ∧ c ≠ chr '\r') (rest : List ℤ) (console : σ) :
    ∃ l, readline cputchar prompt buf (typed cs ++ rest) console = loop cputchar (iscons 0 ≠ 0) rest l ∧
      Holds (asCoded.text cs []) l ∧
      l.console = send cputchar (asCoded.sent cs []) (feed cputchar console (promptChars prompt)) := by
  rw [readline, prompted_eq cputchar hp, ok_bind]
  exact loop_edits cputchar (by decide) (holds_nil _ buf) cs hcs rest

theorem readline_ends {σ : Type} (cputchar : Word → σ → σ) {prompt : Option (List Byte)} (hp : Prompt prompt)
    (buf : ℤ → Byte) (cs : List Byte) (hcs : ∀ c ∈ cs, c ≠ chr '\n' ∧ c ≠ chr '\r') {e : Byte}
    (he : e = chr '\n' ∨ e = chr '\r') (rest : List ℤ) (console : σ) :
    ∃ l, readline cputchar prompt buf (typed (cs ++ [e]) ++ rest) console = .ok (.line l rest) ∧
      Contains l.buf (asCoded.text cs []) ∧
      l.console = feed cputchar console (promptChars prompt ++ (asCoded.sent cs [] ++ [chr '\n']).map uchar) := by
  obtain ⟨l, hrun, hl, hcon⟩ := readline_typing cputchar hp buf cs hcs ((e.toNat : ℤ) :: rest) console
  have hinput : typed (cs ++ [e]) ++ rest = typed cs ++ (e.toNat : ℤ) :: rest := by simp [typed]
  rw [hinput, hrun, loop, step_ends cputchar (by decide) hl he]
  refine ⟨_, rfl, hl.contains, ?_⟩
  simp only [hcon, send, List.map_append, Sink.feed_append]
  rfl

/-- **The line editor.** For every console, prompt and text, ended by '\n' or '\r': readline returns its buffer, having sent
some characters behind the prompt, and its index has been in [0, 1023] all the time. The buffer holds the editor's text and
the characters are the editor's, with a final '\n', if and only if every DEL was typed on some text. -/
theorem readline_edits_iff {σ : Type} (cputchar : Word → σ → σ) (console : σ) (prompt : Option (List Byte))
    (hp : Prompt prompt) (buf : ℤ → Byte) (cs : List Byte) (hcs : ∀ c ∈ cs, c ≠ chr '\n' ∧ c ≠ chr '\r') (e : Byte)
    (he : e = chr '\n' ∨ e = chr '\r') (rest : List ℤ) :
    (∀ n ≤ cs.length, ∃ l, readline (traced cputchar) prompt buf (typed (cs.take n)) (console, []) = .ok (.waiting l) ∧
        0 ≤ l.i ∧ l.i ≤ 1023) ∧
      ∃ l sent, readline (traced cputchar) prompt buf (typed (cs ++ [e]) ++ rest) (console, []) = .ok (.line l rest) ∧
        l.console.2 = promptChars prompt ++ sent.map uchar ∧ l.console.1 = feed cputchar console l.console.2 ∧
        (Contains l.buf (lineEditor.text cs []) ∧ sent = lineEditor.sent cs [] ++ [chr '\n'] ↔ DelOnText cs) := by
  constructor
  · intro n hn
    obtain ⟨l, hrun, hl, -⟩ := readline_typing (traced cputchar) hp buf (cs.take n)
      (fun c hc => hcs c (List.mem_of_mem_take hc)) [] (console, [])
    rw [List.append_nil] at hrun
    have hi := hl.i_eq
    have hf := hl.fits
    exact ⟨l, hrun, by omega, by omega⟩
  · obtain ⟨l, hrun, hbuf, hcon⟩ := readline_ends (traced cputchar) hp buf cs hcs he rest (console, [])
    rw [Printfmt.feed_traced, List.nil_append] at hcon
    refine ⟨l, asCoded.sent cs [] ++ [chr '\n'], hrun, by rw [hcon], by rw [hcon], ?_, ?_⟩
    · rintro ⟨-, hsent⟩ p s rfl hempty
      rw [List.append_cancel_right_eq] at hsent
      have hdel := asCoded_sent_del (s := s) hempty
      rw [hsent] at hdel
      exact lineEditor_sent_del _ _ hdel
    · intro h
      obtain ⟨htext, hsent⟩ := text_eq h
      exact ⟨htext ▸ hbuf, by rw [hsent]⟩

/-- a prompt, and a typing error corrected by DEL -/
theorem readline_edits_corrected :
    (∀ n ≤ (bytes "hx\x7felp").length, ∃ l, readline (traced fun _ (s : Unit) => s) (some (bytes "K> " ++ [0#8])) (fun _ => 0)
        (typed ((bytes "hx\x7felp").take n)) ((), []) = .ok (.waiting l) ∧ 0 ≤ l.i ∧ l.i ≤ 1023) ∧
      ∃ l sent, readline (traced fun _ (s : Unit) => s) (some (bytes "K> " ++ [0#8])) (fun _ => 0)
          (typed (bytes "hx\x7felp" ++ [chr '\r']) ++ []) ((), []) = .ok (.line l []) ∧
        l.console.2 = promptChars (some (bytes "K> " ++ [0#8])) ++ sent.map uchar ∧
        l.console.1 = feed (fun _ (s : Unit) => s) () l.console.2 ∧
        (Contains l.buf (lineEditor.text (bytes "hx\x7felp") []) ∧
          sent = lineEditor.sent (bytes "hx\x7felp") [] ++ [chr '\n'] ↔ DelOnText (bytes "hx\x7felp")) :=
  readline_edits_iff (fun _ s => s) () (some (bytes "K> " ++ [0#8])) (by rintro p ⟨⟩; decide) (fun _ => 0) (bytes "hx\x7felp")
    (by decide) (chr '\r') (Or.inr rfl) []

/-- **DEL on an empty line** is stored and echoed. -/
theorem readline_del :
    ∃ l, readline Sink.snoc none (fun _ => 0) (typed [chr '\x7f', chr '\n']) [] = .ok (.line l []) ∧ l.buf 0 = chr '\x7f' ∧
      l.console = [uchar (chr '\x7f'), uchar (chr '\n')] ∧ lineEditor.text [chr '\x7f'] [] = [] ∧
      lineEditor.sent [chr '\x7f'] [] = [] ∧ ¬ Contains l.buf [] :=
  ⟨_, rfl, rfl, rfl, rfl, rfl, fun h => absurd h.2 (by decide)⟩

end Jos.Readline
