/-
The monitor of kern/monitor.c: it reads lines and runs them.

`buf` of lib/readline.c is both the line that `readline` returns and the array that `runcmd` takes apart, so each line is
typed over what the last command has left there. The commands that a line finds are a parameter: a backtrace prints the
stack as it is then.

- `shell`: what a session answers to each character, told without the buffer.
- `runcmd_answers`: one line.
- **`monitor_is_shell`**: whole sessions, of any number of lines.
-/
import Jos.Monitor.Runcmd
import Jos.Readline.Source

namespace Jos.Monitor

open Dialogue (Reads Separate Transducer)
open Loop (Gives Runs run)
open Readline (Line Contains Holds asCoded readlineFrom)
open Sink (feed)
open Words (words)

/-! ## Model -/

/-- `buf` of readline, as the array that runcmd gets -/
def lineBuffer (buf : ℤ → Byte) : List Byte := (List.range 1024).map fun i : ℕ => buf i

/-- `buf` with the contents of the array -/
def writeBack (l : List Byte) (buf : ℤ → Byte) (i : ℤ) : Byte := if 0 ≤ i then l.getD i.toNat (buf i) else buf i

inductive SessionFault where
  | readline (f : Readline.Fault)
  | command (f : CmdFault)
  | printf (f : Fault)
deriving DecidableEq, Repr

/-- the console, `buf`, and the lines run so far -/
structure Session (S : Type) where
  console : S
  buf : ℤ → Byte
  lines : ℕ

/-- how far the monitor gets: in a line, or to its return -/
inductive Left (S : Type) where
  | waiting (l : Line S)
  | returned (s : Session S)

def welcome : String := "Welcome to the JOS kernel monitor!\n"

def typeHelp : String := "Type 'help' for a list of commands.\n"

def promptText : String := "K> "

section Monitor

variable {τ S : Type} (getchar : S → Option (ℤ × S)) (cputchar : Word → S → S) (commands : ℕ → List (Command τ S)) (tf : τ)

/-- the body of `while (1)` -/
def monitorBody (n : ℕ) (s : Session S) : Option (Session S ⊕ Except SessionFault (Left S)) :=
  match readlineFrom getchar cputchar n (some (bytes promptText ++ [0#8])) s.buf s.console with
  | none => none
  | some (.error f) => some (.inr (.error (.readline f)))
  | some (.ok (.waiting l)) => some (.inr (.ok (.waiting l)))
  | some (.ok (.null l)) => some (.inl { s with console := l.console, buf := l.buf })
  | some (.ok (.line l)) =>
    match runcmd cputchar (commands s.lines) n tf ⟨lineBuffer l.buf, l.console⟩ with
    | none => none
    | some (.error f) => some (.inr (.error (.command f)))
    | some (.ok (rc, w)) =>
      let s := ⟨w.console, writeBack w.buf l.buf, s.lines + 1⟩
      some (if rc < 0 then .inr (.ok (.returned s)) else .inl s)

/-- `monitor(tf)` with fuel n -/
def monitor (n : ℕ) (s : Session S) : Option (Except SessionFault (Left S)) :=
  match cprintf cputchar welcome [] s.console with
  | .error f => some (.error (.printf f))
  | .ok console =>
    match cprintf cputchar typeHelp [] console with
    | .error f => some (.error (.printf f))
    | .ok console => run (monitorBody getchar cputchar commands tf n) n { s with console := console }

end Monitor

/-! ## The shell -/

/-- a command that prints a text, and returns 0 -/
def Prints {τ S : Type} (cputchar : Word → S → S) (c : Command τ S) (e : List Byte × List Word) : Prop :=
  c.name = e.1 ∧ ∀ argc argv tf w, c.func argc argv tf w = some (.ok (0, { w with console := feed cputchar w.console e.2 }))

/-- what a name is answered, by the names of the commands and their texts -/
def called (table : List (List Byte × List Word)) (name : List Byte) : List Word :=
  match table.find? fun e => e.1 = name with
  | some e => e.2
  | none => unknownText name

/-- what a line is answered -/
def answer (table : List (List Byte × List Word)) (l : List Byte) : List Word :=
  if 15 < (words white l).length then tooManyText
  else match (words white l).head? with
    | none => []
    | some name => called table name

def isLineEnd (c : Byte) : Prop := c = chr '\n' ∨ c = chr '\r'

instance (c : Byte) : Decidable (isLineEnd c) := inferInstanceAs (Decidable (_ ∨ _))

/-- the lines answered so far, and the text of the one being typed -/
structure Typing where
  lines : ℕ
  text : List Byte
deriving DecidableEq, Repr

/-- a session: characters are echoed as the line editor does, and a line end brings the answer and a new prompt -/
def shell (tables : ℕ → List (List Byte × List Word)) : Transducer Byte Word Typing where
  next c t := if isLineEnd c then ⟨t.lines + 1, []⟩ else ⟨t.lines, asCoded.next c t.text⟩
  sends c t :=
    if isLineEnd c then uchar (chr '\n') :: (answer (tables t.lines) t.text ++ text promptText)
    else (asCoded.sends c t.text).map uchar

/-! A machine whose states are given by the text of the line that is being typed, and which edits it as readline does -/

section Lines

variable {υ : Type} {M : Transducer Byte Word υ} {holding : List Byte → υ}
  (hM : ∀ c t, ¬ isLineEnd c → M.next c (holding t) = holding (asCoded.next c t) ∧
    M.sends c (holding t) = (asCoded.sends c t).map uchar)

include hM

theorem typing_edits {cs : List Byte} (hcs : ∀ c ∈ cs, ¬ isLineEnd c) (t : List Byte) :
    M.state cs (holding t) = holding (asCoded.text cs t) ∧ M.out cs (holding t) = (asCoded.sent cs t).map uchar := by
  induction cs generalizing t with
  | nil => exact ⟨rfl, rfl⟩
  | cons c cs ih =>
    obtain ⟨hnext, hsends⟩ := hM c t (hcs c List.mem_cons_self)
    obtain ⟨h1, h2⟩ := ih (fun x hx => hcs x (List.mem_cons_of_mem _ hx)) (asCoded.next c t)
    constructor
    · show M.state cs (M.next c (holding t)) = _
      rw [hnext, h1]
      rfl
    · rw [Transducer.out, hnext, hsends, h2, Readline.Editor.sent, List.map_append]

/-- a whole line, and what comes behind it -/
theorem line_edits {cs : List Byte} (hcs : ∀ c ∈ cs, ¬ isLineEnd c) {e : Byte} {s : υ} {w : List Word}
    (hnext : M.next e (holding (asCoded.text cs [])) = s) (hsends : M.sends e (holding (asCoded.text cs [])) = w)
    (rest : List Byte) :
    M.state (cs ++ e :: rest) (holding []) = M.state rest s ∧
      M.out (cs ++ e :: rest) (holding []) = (asCoded.sent cs []).map uchar ++ (w ++ M.out rest s) := by
  obtain ⟨h1, h2⟩ := typing_edits hM hcs []
  constructor
  · rw [Transducer.state_append, h1]
    show M.state rest (M.next e (holding (asCoded.text cs []))) = _
    rw [hnext]
  · rw [Transducer.out_append, h1, h2, Transducer.out, hnext, hsends]

end Lines

variable (tables : ℕ → List (List Byte × List Word))

theorem shell_edits (k : ℕ) (c : Byte) (t : List Byte) (hc : ¬ isLineEnd c) :
    (shell tables).next c ⟨k, t⟩ = ⟨k, asCoded.next c t⟩ ∧ (shell tables).sends c ⟨k, t⟩ = (asCoded.sends c t).map uchar :=
  ⟨if_neg hc, if_neg hc⟩

/-- a line that has not ended -/
theorem shell_typing {cs : List Byte} (hcs : ∀ c ∈ cs, ¬ isLineEnd c) (t : Typing) :
    (shell tables).state cs t = ⟨t.lines, asCoded.text cs t.text⟩ ∧
      (shell tables).out cs t = (asCoded.sent cs t.text).map uchar :=
  typing_edits (shell_edits tables t.lines) hcs t.text

/-- a whole line, and what comes behind it -/
theorem shell_line {cs : List Byte} (hcs : ∀ c ∈ cs, ¬ isLineEnd c) {e : Byte} (he : isLineEnd e) (rest : List Byte)
    (k : ℕ) :
    (shell tables).state (cs ++ e :: rest) ⟨k, []⟩ = (shell tables).state rest ⟨k + 1, []⟩ ∧
      (shell tables).out (cs ++ e :: rest) ⟨k, []⟩ = (asCoded.sent cs []).map uchar ++
        (uchar (chr '\n') :: (answer (tables k) (asCoded.text cs []) ++ text promptText) ++
          (shell tables).out rest ⟨k + 1, []⟩) :=
  line_edits (shell_edits tables k) hcs (if_pos he) (if_pos he) rest

theorem line_split (cs : List Byte) :
    (∀ c ∈ cs, ¬ isLineEnd c) ∨ ∃ p e q, cs = p ++ e :: q ∧ (∀ c ∈ p, ¬ isLineEnd c) ∧ isLineEnd e := by
  induction cs with
  | nil => exact Or.inl fun c hc => absurd hc List.not_mem_nil
  | cons c cs ih =>
    by_cases hc : isLineEnd c
    · exact Or.inr ⟨[], c, cs, rfl, fun x hx => absurd hx List.not_mem_nil, hc⟩
    · rcases ih with h | ⟨p, e, q, rfl, hp, he⟩
      · exact Or.inl (List.forall_mem_cons.2 ⟨hc, h⟩)
      · exact Or.inr ⟨c :: p, e, q, rfl, List.forall_mem_cons.2 ⟨hc, hp⟩, he⟩

/-! ## A line -/

/-- what is typed into a line is no control character -/
theorem text_printable {cs t : List Byte} (ht : ∀ b ∈ t, chr ' ' ≤ b) : ∀ b ∈ asCoded.text cs t, chr ' ' ≤ b := by
  induction cs generalizing t with
  | nil => exact ht
  | cons c cs ih =>
    apply ih (t := asCoded.next c t)
    rcases Readline.asCoded_cases c t with ⟨-, h, -⟩ | ⟨-, ⟨hc, -⟩, h, -⟩ | ⟨-, -, h, -⟩
    · rw [h]
      exact fun b hb => ht b (List.mem_of_mem_dropLast hb)
    · rw [h]
      intro b hb
      rcases List.mem_append.1 hb with hb | hb
      · exact ht b hb
      · rw [List.mem_singleton.1 hb]
        exact hc
    · rw [h]
      exact ht

theorem text_nul (cs : List Byte) : 0#8 ∉ asCoded.text cs [] := by
  intro h
  have := text_printable (t := []) (by simp) _ h
  exact absurd this (by decide)

/-- the array starts with the line -/
theorem lineBuffer_eq {buf : ℤ → Byte} {t : List Byte} (h : Contains buf t) (ht : t.length ≤ 1023) :
    ∃ rest, lineBuffer buf = t ++ 0#8 :: rest := by
  refine ⟨(lineBuffer buf).drop (t.length + 1), ?_⟩
  have hlen : (lineBuffer buf).length = 1024 := by rw [lineBuffer, List.length_map, List.length_range]
  have hget : ∀ i (hi : i < (lineBuffer buf).length), (lineBuffer buf)[i] = buf i := by
    intro i hi
    simp only [lineBuffer, List.getElem_map, List.getElem_range]
  generalize lineBuffer buf = b at hlen hget
  apply List.ext_getElem
  · simp only [List.length_append, List.length_cons, List.length_drop]
    omega
  · intro i h1 h2
    rw [hget]
    rcases lt_trichotomy i t.length with hi | rfl | hi
    · rw [List.getElem_append_left hi, h.1 i hi]
    · rw [List.getElem_append_right (le_refl _)]
      simp [h.2]
    · rw [List.getElem_append_right (le_of_lt hi), List.getElem_cons]
      split_ifs with h0
      · omega
      · rw [List.getElem_drop, hget]
        congr 1
        omega

section Sessions

variable {τ S : Type} (cputchar : Word → S → S)

/-- the monitor's welcome, and its loop -/
theorem monitor_enters (getchar : S → Option (ℤ × S)) (commands : ℕ → List (Command τ S)) (tf : τ) (n : ℕ) (s : Session S) :
    monitor getchar cputchar commands tf n s = run (monitorBody getchar cputchar commands tf n) n
      { s with console := feed cputchar s.console (text welcome ++ text typeHelp) } := by
  have hwelcome : ∀ s, cprintf cputchar welcome [] s = .ok (feed cputchar s (text welcome)) :=
    fun s => cprintf_eq cputchar (renders_text welcome (by decide +kernel)) s
  have hhelp : ∀ s, cprintf cputchar typeHelp [] s = .ok (feed cputchar s (text typeHelp)) :=
    fun s => cprintf_eq cputchar (renders_text typeHelp (by decide +kernel)) s
  rw [Sink.feed_append]
  simp only [monitor, hwelcome, hhelp]

/-- the command of a name, by its text -/
theorem dispatch_prints {commands : List (Command τ S)} {table : List (List Byte × List Word)}
    (h : List.Forall₂ (Prints cputchar) commands table) (name : List Byte) (argc : ℕ) (argv : ℕ → Entry) (tf : τ)
    (w : World S) :
    dispatch cputchar commands name argc argv tf w =
      some (.ok (0, { w with console := feed cputchar w.console (called table name) })) := by
  induction h with
  | nil => rfl
  | @cons c e cs es hc _ ih =>
    obtain ⟨hname, hprint⟩ := hc
    unfold dispatch called at ih ⊢
    rw [List.find?_cons, List.find?_cons, hname]
    by_cases he : e.1 = name
    · simp only [he, decide_true, hprint]
    · simp only [he, decide_false]
      exact ih

/-- **One line.** Nothing of the array behind the line matters, and the answer is that of the table. -/
theorem runcmd_answers {commands : List (Command τ S)} {table : List (List Byte × List Word)}
    (h : List.Forall₂ (Prints cputchar) commands table) {l : List Byte} (h0 : 0#8 ∉ l) (rest : List Byte) (tf : τ) :
    ∃ buf, ∀ console n, l.length < n → runcmd cputchar commands n tf ⟨l ++ 0#8 :: rest, console⟩ =
      some (.ok (0, ⟨buf, feed cputchar console (answer table l)⟩)) := by
  obtain ⟨l', argv, -, -, hrun⟩ := runcmd_splits (τ := τ) cputchar h0 rest
  refine ⟨l' ++ 0#8 :: rest, fun console n hn => ?_⟩
  obtain ⟨hnone, hmany, hsome⟩ := hrun commands tf console n hn
  unfold answer
  split_ifs with hgt
  · exact hmany hgt
  · cases hw : (words white l).head? with
    | none => exact hnone (List.head?_eq_none_iff.1 hw)
    | some name =>
      rw [hsome name hw (Nat.not_lt.1 hgt), dispatch_prints cputchar h]

variable {getchar : S → Option (ℤ × S)} {I : S → Prop} (hS : Separate getchar cputchar I) (commands : ℕ → List (Command τ S))
  (h : ∀ k, List.Forall₂ (Prints cputchar) (commands k) (tables k)) (tf : τ)

theorem prompt_ok : Readline.Prompt (some (bytes promptText ++ [0#8])) := by
  rintro p ⟨⟩
  decide

theorem promptChars_eq : Readline.promptChars (some (bytes promptText ++ [0#8])) = text promptText := by
  decide

include hS

/-- waiting in a line -/
theorem monitorBody_waits {cs : List Byte} (hcs : ∀ c ∈ cs, ¬ isLineEnd c) {s s' : S} (hI : I s) (w : List Word)
    (buf : ℤ → Byte) (k : ℕ) (hr : Reads getchar (Readline.typed cs) s s') (hend : getchar s' = none) :
    ∃ l, Holds (asCoded.text cs []) l ∧
      l.console = feed cputchar s' (w ++ (text promptText ++ (asCoded.sent cs []).map uchar)) ∧
      Gives (fun n => monitorBody getchar cputchar commands tf n ⟨feed cputchar s w, buf, k⟩) (.inr (.ok (.waiting l))) := by
  obtain ⟨l, hl, hcon, N, hN⟩ := Readline.readlineFrom_waits hS prompt_ok buf
    (fun c hc => not_or.1 (hcs c hc)) hI w hr hend
  rw [Readline.echoed, promptChars_eq] at hcon
  refine ⟨l, hl, hcon, N, fun n hn => ?_⟩
  show monitorBody _ _ _ _ n _ = _
  simp only [monitorBody, hN n hn]

include h

/-- a line is read and run -/
theorem monitorBody_line {cs : List Byte} (hcs : ∀ c ∈ cs, ¬ isLineEnd c) {e : Byte} (he : isLineEnd e) {s s' : S}
    (hI : I s) (w : List Word) (buf : ℤ → Byte) (k : ℕ) (hr : Reads getchar (Readline.typed (cs ++ [e])) s s') :
    ∃ buf', Gives (fun n => monitorBody getchar cputchar commands tf n ⟨feed cputchar s w, buf, k⟩)
      (.inl ⟨feed cputchar s' (w ++ (text promptText ++ (asCoded.sent cs []).map uchar) ++ [uchar (chr '\n')] ++
        answer (tables k) (asCoded.text cs [])), buf', k + 1⟩) := by
  obtain ⟨l, hbuf, hlen, hcon, N, hN⟩ := Readline.readlineFrom_ends hS prompt_ok buf
    (fun c hc => not_or.1 (hcs c hc)) hI w he hr
  rw [Readline.echoed, promptChars_eq] at hcon
  obtain ⟨rest, hrest⟩ := lineBuffer_eq hbuf hlen
  obtain ⟨buf', hrun⟩ := runcmd_answers cputchar (h k) (text_nul cs) rest tf
  refine ⟨writeBack buf' l.buf, max N 1024, fun n hn => ?_⟩
  show monitorBody _ _ _ _ n _ = _
  simp only [monitorBody, hN n (by omega), hrest, hrun l.console n (by omega)]
  rw [hcon, ← Sink.feed_append]
  rfl

/-- **The loop**, from the prompt of any line on. -/
theorem monitorLoop_is_shell (cs : List Byte) {s s' : S} (hI : I s) (w : List Word) (buf : ℤ → Byte) (k : ℕ)
    (hr : Reads getchar (Readline.typed cs) s s') (hend : getchar s' = none) :
    ∃ l, Holds ((shell tables).state cs ⟨k, []⟩).text l ∧
      l.console = feed cputchar s' (w ++ (text promptText ++ (shell tables).out cs ⟨k, []⟩)) ∧
      Runs (monitorBody getchar cputchar commands tf) ⟨feed cputchar s w, buf, k⟩ (.ok (.waiting l)) := by
  induction hm : cs.length using Nat.strong_induction_on generalizing cs s w buf k with
  | _ m ih =>
    rcases line_split cs with hcs | ⟨p, e, q, rfl, hp, he⟩
    · obtain ⟨l, hl, hcon, hrun⟩ := monitorBody_waits cputchar hS commands tf hcs hI w buf k hr hend
      obtain ⟨hstate, hout⟩ := shell_typing tables hcs ⟨k, []⟩
      exact ⟨l, by rw [hstate]; exact hl, by rw [hout]; exact hcon, .done hrun⟩
    · have hsplit : Readline.typed (p ++ e :: q) = Readline.typed (p ++ [e]) ++ Readline.typed q := by
        simp [Readline.typed]
      rw [hsplit] at hr
      obtain ⟨s₁, hr₁, hr₂⟩ := hr.split
      obtain ⟨buf', hline⟩ := monitorBody_line tables cputchar hS commands h tf hp he hI w buf k hr₁
      have hlen : q.length < m := by
        rw [← hm, List.length_append, List.length_cons]
        omega
      obtain ⟨l, hl, hcon, hrun⟩ := ih q.length hlen q (hr₁.inv hS hI) _ buf' (k + 1) hr₂ rfl
      obtain ⟨hstate, hout⟩ := shell_line tables hp he q k
      refine ⟨l, by rw [hstate]; exact hl, ?_, .again hline hrun⟩
      rw [hcon, hout]
      simp only [List.append_assoc, List.cons_append, List.nil_append]

/-- **The monitor is the shell.** For every source of characters that does not get in the way of the console, and every
number of lines: the monitor has sent its welcome, the prompt and what the shell answers, is waiting in a line with the
text of the shell, and has not returned. -/
theorem monitor_is_shell (cs : List Byte) {s s' : S} (hI : I s) (buf : ℤ → Byte)
    (hr : Reads getchar (Readline.typed cs) s s') (hend : getchar s' = none) :
    ∃ l, Holds ((shell tables).state cs ⟨0, []⟩).text l ∧
      l.console = feed cputchar s' (text welcome ++ text typeHelp ++ (text promptText ++ (shell tables).out cs ⟨0, []⟩)) ∧
      Gives (fun n => monitor getchar cputchar commands tf n ⟨s, buf, 0⟩) (.ok (.waiting l)) := by
  obtain ⟨l, hl, hcon, hrun⟩ := monitorLoop_is_shell tables cputchar hS commands h tf cs hI (text welcome ++ text typeHelp) buf
    0 hr hend
  refine ⟨l, hl, hcon, ?_⟩
  obtain ⟨N, hN⟩ := hrun.gives
  refine ⟨N, fun n hn => ?_⟩
  show monitor _ _ _ _ n _ = _
  rw [monitor_enters, ← hN n hn]

end Sessions

end Jos.Monitor
