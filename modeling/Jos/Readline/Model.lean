/-
Reading a line: `readline` of lib/readline.c.

The console is any state with a `cputchar`, and the results of `getchar` are a list. A run over a list that does not
complete a line ends waiting for more. `buf` is static, so it is what earlier calls left in it, and a store outside its
BUFLEN bytes is a `Fault`.

- `step`, `loop`, `readline`: the function.
- `Editor`: what editing means for the text of the line and for the echo; `asCoded` is the editing that the code does.
- `step_edits`, `loop_edits`: the code keeps the text of `asCoded` in `buf[0 .. i)` and sends its echo.
-/
import Jos.Printfmt.Cprintf
import Jos.Printfmt.Text

namespace Jos.Readline

open Printfmt (vcprintf fmtS)
open Sink (feed)

/-! ## Model -/

def BUFLEN : ℤ := 1024

inductive Fault where
  /-- a store to `buf[i]` outside the buffer -/
  | buf (i : ℤ)
  | printf (f : Printfmt.Fault)
deriving DecidableEq, Repr

/-- the console, `buf` and `i` -/
structure Line (σ : Type) where
  console : σ
  buf : ℤ → Byte
  i : ℤ

/-- `buf[i] = c` -/
def Line.store {σ : Type} (c : ℤ) (l : Line σ) : Except Fault (Line σ) :=
  if 0 ≤ l.i ∧ l.i < BUFLEN then .ok { l with buf := Function.update l.buf l.i (BitVec.ofInt 8 c) }
  else .error (.buf l.i)

/-- used by readline -/
def iscons (_fdnum : ℤ) : ℤ := 1

/-- what the body of the loop does next -/
inductive Next (σ : Type) where
  | again (l : Line σ)
  /-- return buf -/
  | line (l : Line σ)
  /-- return NULL -/
  | null (l : Line σ)

/-- how far readline gets with the characters there are; a return leaves the rest of them -/
inductive Outcome (σ : Type) where
  | waiting (l : Line σ)
  | line (l : Line σ) (rest : List ℤ)
  | null (l : Line σ) (rest : List ℤ)

section Run

variable {σ : Type} (cputchar : Word → σ → σ)

/-- `if (echoing) cputchar(c)` -/
def echo (echoing : Prop) [Decidable echoing] (c : ℤ) (l : Line σ) : Line σ :=
  if echoing then { l with console := cputchar (BitVec.ofInt 32 c) l.console } else l

/-- the body of `while (1)`, after `c = getchar()` -/
def step (echoing : Prop) [Decidable echoing] (c : ℤ) (l : Line σ) : Except Fault (Next σ) :=
  if c < 0 then do
    let (_, console) ← (vcprintf cputchar l.console (bytes "read error: %e\n" ++ [0#8])
      [.word (BitVec.ofInt 32 c)]).mapError .printf
    return .null { l with console := console }
  else if (c = (chr '\x08').toNat ∨ c = (chr '\x7f').toNat) ∧ 0 < l.i then
    let l := echo cputchar echoing (chr '\x08').toNat l
    return .again { l with i := l.i - 1 }
  else if (chr ' ').toNat ≤ c ∧ l.i < BUFLEN - 1 then do
    let l ← (echo cputchar echoing c l).store c
    return .again { l with i := l.i + 1 }
  else if c = (chr '\n').toNat ∨ c = (chr '\r').toNat then do
    let l ← (echo cputchar echoing (chr '\n').toNat l).store 0
    return .line l
  else return .again l

def loop (echoing : Prop) [Decidable echoing] : List ℤ → Line σ → Except Fault (Outcome σ)
  | [], l => .ok (.waiting l)
  | c :: cs, l =>
    match step cputchar echoing c l with
    | .error f => .error f
    | .ok (.again l) => loop echoing cs l
    | .ok (.line l) => .ok (.line l cs)
    | .ok (.null l) => .ok (.null l cs)

/-- `if (prompt != NULL) cprintf("%s", prompt)` -/
def prompted (prompt : Option (List Byte)) (console : σ) : Except Fault σ :=
  match prompt with
  | none => .ok console
  | some _ => ((vcprintf cputchar console fmtS [.str prompt]).map Prod.snd).mapError .printf

/-- `readline(prompt)`, with the contents of buf from before -/
def readline (prompt : Option (List Byte)) (buf : ℤ → Byte) (input : List ℤ) (console : σ) : Except Fault (Outcome σ) := do
  let console ← prompted cputchar prompt console
  loop cputchar (iscons 0 ≠ 0) input ⟨console, buf, 0⟩

end Run

/-- characters as getchar returns them -/
def typed (cs : List Byte) : List ℤ := cs.map fun c => (c.toNat : ℤ)

/-! ## Editing a line -/

/-- what a character does to the text of the line, and what is sent to the console for it -/
structure Editor where
  next : Byte → List Byte → List Byte
  sends : Byte → List Byte → List Byte

namespace Editor

/-- the text after all characters, starting from t -/
def text (E : Editor) (cs : List Byte) (t : List Byte) : List Byte := cs.foldl (fun t c => E.next c t) t

def sent (E : Editor) : List Byte → List Byte → List Byte
  | [], _ => []
  | c :: cs, t => E.sends c t ++ E.sent cs (E.next c t)

end Editor

/-- '\b' or DEL -/
def isErase (c : Byte) : Prop := c = chr '\x08' ∨ c = chr '\x7f'

instance (c : Byte) : Decidable (isErase c) := inferInstanceAs (Decidable (_ ∨ _))

/-- the editing that the code does -/
def asCoded : Editor where
  next c t :=
    if isErase c ∧ t ≠ [] then t.dropLast else if chr ' ' ≤ c ∧ t.length < 1023 then t ++ [c] else t
  sends c t :=
    if isErase c ∧ t ≠ [] then [chr '\x08'] else if chr ' ' ≤ c ∧ t.length < 1023 then [c] else []

/-- **The three things a character does**: erase, extend the text, or nothing. -/
theorem asCoded_cases (c : Byte) (t : List Byte) :
    ((isErase c ∧ t ≠ []) ∧ asCoded.next c t = t.dropLast ∧ asCoded.sends c t = [chr '\x08']) ∨
      (¬ (isErase c ∧ t ≠ []) ∧ (chr ' ' ≤ c ∧ t.length < 1023) ∧ asCoded.next c t = t ++ [c] ∧ asCoded.sends c t = [c]) ∨
      (¬ (isErase c ∧ t ≠ []) ∧ ¬ (chr ' ' ≤ c ∧ t.length < 1023) ∧ asCoded.next c t = t ∧ asCoded.sends c t = []) := by
  simp only [asCoded]
  split_ifs with h1 h2
  · exact Or.inl ⟨h1, rfl, rfl⟩
  · exact Or.inr (Or.inl ⟨h1, h2, rfl, rfl⟩)
  · exact Or.inr (Or.inr ⟨h1, h2, rfl, rfl⟩)

/-- the text of the line is t -/
structure Holds {σ : Type} (t : List Byte) (l : Line σ) : Prop where
  i_eq : l.i = t.length
  fits : t.length ≤ 1023
  chars : ∀ j (h : j < t.length), l.buf j = t[j]

section Edits

variable {σ : Type} (cputchar : Word → σ → σ)

/-- the console after bytes sent as ints 0 .. 255 -/
def send (cs : List Byte) (console : σ) : σ := feed cputchar console (cs.map uchar)

theorem send_append (cs cs' : List Byte) (console : σ) :
    send cputchar (cs ++ cs') console = send cputchar cs' (send cputchar cs console) := by
  rw [send, List.map_append, Sink.feed_append]
  rfl

theorem ofInt_toNat (c : Byte) : BitVec.ofInt 32 (c.toNat : ℤ) = uchar c ∧ BitVec.ofInt 8 (c.toNat : ℤ) = c := by
  revert c
  decide

/-- a character stored at the end of the text -/
theorem Holds.store {t : List Byte} {l : Line σ} (h : Holds t l) (c : ℤ) :
    l.store c = .ok { l with buf := Function.update l.buf l.i (BitVec.ofInt 8 c) } := by
  have hi := h.i_eq
  have hf := h.fits
  rw [Line.store, if_pos]
  unfold BUFLEN
  omega

theorem Holds.push {t : List Byte} {l : Line σ} (h : Holds t l) (ht : t.length < 1023) (c : Byte) (console : σ) :
    Holds (t ++ [c]) { console := console, buf := Function.update l.buf l.i c, i := l.i + 1 } where
  i_eq := by simp [h.i_eq]
  fits := by simp; omega
  chars j hj := by
    have hi := h.i_eq
    have hj' := hj
    rw [List.length_append, List.length_singleton] at hj'
    show Function.update l.buf l.i c j = _
    by_cases hjt : j < t.length
    · have hne : (j : ℤ) ≠ l.i := by omega
      rw [Function.update_of_ne hne, h.chars j hjt, List.getElem_append_left hjt]
    · obtain rfl : j = t.length := by omega
      rw [hi, Function.update_self]
      simp

theorem Holds.drop {t : List Byte} {l : Line σ} (h : Holds t l) (ht : t ≠ []) (console : σ) :
    Holds t.dropLast { l with console := console, i := l.i - 1 } where
  i_eq := by
    have := List.length_pos_of_ne_nil ht
    have hi := h.i_eq
    simp only [List.length_dropLast]
    omega
  fits := by
    have := h.fits
    rw [List.length_dropLast]
    omega
  chars j hj := by
    rw [List.length_dropLast] at hj
    rw [List.getElem_dropLast]
    exact h.chars j (by omega)

variable {echoing : Prop} [Decidable echoing]

/-- **One character** other than a line end. -/
theorem step_edits (he : echoing) {t : List Byte} {l : Line σ} (h : Holds t l) {c : Byte} (hn : c ≠ chr '\n')
    (hr : c ≠ chr '\r') :
    ∃ l', step cputchar echoing c.toNat l = .ok (.again l') ∧ Holds (asCoded.next c t) l' ∧
      l'.console = send cputchar (asCoded.sends c t) l.console := by
  have hi := h.i_eq
  have hf := h.fits
  have heq : ∀ d : Byte, (c.toNat : ℤ) = d.toNat ↔ c = d := fun d => by rw [Nat.cast_inj, BitVec.toNat_inj]
  have hpos : 0 < l.i ↔ t ≠ [] := by
    rw [hi, Nat.cast_pos, List.length_pos_iff]
  have hle : ((chr ' ').toNat : ℤ) ≤ c.toNat ∧ l.i < BUFLEN - 1 ↔ chr ' ' ≤ c ∧ t.length < 1023 := by
    rw [hi, Nat.cast_le, BitVec.le_def]
    unfold BUFLEN
    omega
  have herase : (c = chr '\x08' ∨ c = chr '\x7f') ↔ isErase c := Iff.rfl
  simp only [step, heq, herase, hpos, hle, echo, if_pos he, if_neg (show ¬ (c.toNat : ℤ) < 0 by omega), (ofInt_toNat _).1]
  rcases asCoded_cases c t with ⟨h1, ht, hc⟩ | ⟨h1, h2, ht, hc⟩ | ⟨h1, h2, ht, hc⟩
  · rw [if_pos h1, ht, hc]
    exact ⟨_, rfl, h.drop h1.2 _, rfl⟩
  · have hs : Holds t { l with console := cputchar (uchar c) l.console } := ⟨hi, hf, h.chars⟩
    rw [if_neg h1, if_pos h2, ht, hc, hs.store, ok_bind, (ofInt_toNat c).2]
    exact ⟨_, rfl, h.push h2.2 c _, rfl⟩
  · rw [if_neg h1, if_neg h2, if_neg (not_or.2 ⟨hn, hr⟩), ht, hc]
    exact ⟨l, rfl, h, rfl⟩

/-- the character that ends the line -/
theorem step_ends (he : echoing) {t : List Byte} {l : Line σ} (h : Holds t l) {c : Byte}
    (hc : c = chr '\n' ∨ c = chr '\r') :
    step cputchar echoing c.toNat l = .ok (.line
      { console := cputchar (uchar (chr '\n')) l.console, buf := Function.update l.buf l.i 0#8, i := l.i }) := by
  have hs : Holds t { l with console := cputchar (uchar (chr '\n')) l.console } := ⟨h.i_eq, h.fits, h.chars⟩
  have heq : ∀ d : Byte, (c.toNat : ℤ) = d.toNat ↔ c = d := fun d => by rw [Nat.cast_inj, BitVec.toNat_inj]
  have herase : ¬ (c = chr '\x08' ∨ c = chr '\x7f') := by rcases hc with rfl | rfl <;> decide
  have hctl : ¬ ((chr ' ').toNat : ℤ) ≤ c.toNat := by rcases hc with rfl | rfl <;> decide
  simp only [step, heq, echo, if_pos he, if_neg (show ¬ (c.toNat : ℤ) < 0 by omega), (ofInt_toNat _).1]
  rw [if_neg fun h => herase h.1, if_neg fun h => hctl h.1, if_pos hc, hs.store]
  rfl

/-- **Every text.** -/
theorem loop_edits (he : echoing) {t : List Byte} {l : Line σ} (h : Holds t l) (cs : List Byte)
    (hcs : ∀ c ∈ cs, c ≠ chr '\n' ∧ c ≠ chr '\r') (rest : List ℤ) :
    ∃ l', loop cputchar echoing (typed cs ++ rest) l = loop cputchar echoing rest l' ∧ Holds (asCoded.text cs t) l' ∧
      l'.console = send cputchar (asCoded.sent cs t) l.console := by
  induction cs generalizing t l with
  | nil => exact ⟨l, rfl, h, rfl⟩
  | cons c cs ih =>
    have hc := hcs c List.mem_cons_self
    obtain ⟨l₁, hstep, h₁, hcon⟩ := step_edits cputchar he h hc.1 hc.2
    obtain ⟨l₂, hloop, h₂, hcon₂⟩ := ih h₁ fun x hx => hcs x (List.mem_cons_of_mem _ hx)
    refine ⟨l₂, ?_, h₂, ?_⟩
    · rw [← hloop]
      show loop cputchar echoing ((c.toNat : ℤ) :: (typed cs ++ rest)) l = _
      rw [loop, hstep]
    · rw [hcon₂, hcon, ← send_append]
      rfl

end Edits

/-! ## The prompt -/

/-- the characters of a prompt -/
def promptChars : Option (List Byte) → List Word
  | none => []
  | some p => Printfmt.strChars (cstr p)

/-- a prompt is NULL, or a terminated string -/
def Prompt (prompt : Option (List Byte)) : Prop := ∀ p, prompt = some p → 0#8 ∈ p

theorem prompted_eq {σ : Type} (cputchar : Word → σ → σ) {prompt : Option (List Byte)} (h : Prompt prompt) (console : σ) :
    prompted cputchar prompt console = .ok (feed cputchar console (promptChars prompt)) := by
  cases prompt with
  | none => rfl
  | some p =>
    obtain ⟨rest, hp, h0⟩ := cstr_split (h p rfl)
    have hemit : Printfmt.emit fmtS [.str (some p)] = .ok (promptChars (some p), []) := by
      conv_lhs => rw [hp]
      exact Printfmt.emit_fmtS h0 rest
    rw [prompted, Printfmt.vcprintf_eq, hemit]
    rfl

end Jos.Readline
