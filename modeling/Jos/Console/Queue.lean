/-
The console input queue, over every schedule of interrupts, polls and reads.

A schedule says when bytes reach the devices and when `serial_intr`, `kbd_intr` and `cons_getc` are called. The trace of
a run keeps what the device routines delivered and what `cons_getc` returned, apart from the buffer between them.

- `Fifo`, `Fifo.run`: the invariant of a run in which at most 511 characters are unread.
- `Decoded`, `Passed`, `decoded_run`, `passed_run`: a poll takes all that a device has, so that the characters of each
  device are a function of the bytes that reached it before its last poll.
- **`console_fifo`**: the queue of such a run is exact.
- `pushes_path`: the deliveries of a call, one by one, lead to the queue it leaves.
- **`overrun_iff`**: a delivery keeps the queue if and only if fewer than 511 characters are unread.
-/
import Jos.Console.Devices
import Mathlib.Data.List.DropRight

namespace Jos.Console

section Queue

variable (dev : ℕ → ℕ → Byte)

/-! ## Schedules -/

inductive Event where
  /-- a byte reaches the serial port -/
  | rx (b : Byte)
  /-- a scancode reaches the keyboard controller -/
  | key (b : Byte)
  | serialIntr
  | kbdIntr
  | getc
deriving DecidableEq, Repr

/-- a state with what the run has delivered to the buffer and returned from cons_getc -/
structure Trace where
  state : State
  delivered : List (Proc × ℤ)
  returned : List ℤ

/-- at boot -/
def Trace.init (out : Out) (serialExists : Bool) : Trace :=
  ⟨⟨out, serialExists, [], [], 0, ⟨fun _ => 0, 0, 0⟩⟩, [], []⟩

/-- serial_intr or kbd_intr -/
def intr : Proc → State → State
  | .serial => serialIntr dev
  | .kbd => kbdIntr dev

/-- the characters that it delivers -/
def produced : Proc → State → List ℤ
  | .serial, s => if s.serialExists then chars dev .serial s else []
  | .kbd, s => chars dev .kbd s

def Trace.poll (proc : Proc) (t : Trace) : Trace :=
  ⟨intr dev proc t.state, t.delivered ++ (produced dev proc t.state).map (proc, ·), t.returned⟩

/-- the polls of an event, or the arrival that it is -/
def Event.polls : Event → Trace → Trace
  | .rx b, t => { t with state := { t.state with com := t.state.com ++ [b] } }
  | .key b, t => { t with state := { t.state with kbd := t.state.kbd ++ [b] } }
  | .serialIntr, t => t.poll dev .serial
  | .kbdIntr, t => t.poll dev .kbd
  | .getc, t => (t.poll dev .serial).poll dev .kbd

def Trace.step (e : Event) (t : Trace) : Trace :=
  if e = .getc then
    { e.polls dev t with
      state := (consGetc dev t.state).2, returned := t.returned ++ [(consGetc dev t.state).1] }
  else e.polls dev t

def run (es : List Event) (t : Trace) : Trace := es.foldl (fun t e => t.step dev e) t

/-- the delivered characters that cons_getc has not returned -/
def Trace.unread (t : Trace) : ℕ := t.delivered.length - (t.returned.filter (· ≠ 0)).length

/-- at no time are more than 511 characters unread; within an event that is after its polls -/
def Calm : List Event → Trace → Prop
  | [], _ => True
  | e :: es, t => (e.polls dev t).unread ≤ 511 ∧ Calm es (t.step dev e)

instance decidableCalm : ∀ es t, Decidable (Calm dev es t)
  | [], _ => isTrue trivial
  | e :: es, t => haveI := decidableCalm es (t.step dev e); inferInstanceAs (Decidable (_ ∧ _))

/-! ## The queue -/

/-- the queue is exact: what was returned, followed by what is in the ring, is what was delivered -/
structure Fifo (t : Trace) : Prop where
  valid : t.state.cons.Valid
  order : t.returned.filter (· ≠ 0) ++ t.state.cons.contents.map (fun b => (b.toNat : ℤ)) = t.delivered.map Prod.snd
  char : ∀ c ∈ t.delivered, 1 ≤ c.2 ∧ c.2 ≤ 255

theorem Fifo.init (out : Out) (serialExists : Bool) : Fifo (.init out serialExists) where
  valid := ⟨show 0 < 512 by omega, show 0 < 512 by omega⟩
  order := rfl
  char _ h := by cases h

theorem Fifo.unread {t : Trace} (h : Fifo t) : t.unread = t.state.cons.count := by
  have hl := congrArg List.length h.order
  simp only [List.length_append, List.length_map, Ring.length_contents] at hl
  unfold Trace.unread
  omega

theorem intr_cons (proc : Proc) (s : State) :
    (intr dev proc s).cons = s.cons.putAll ((produced dev proc s).map (BitVec.ofInt 8)) := by
  cases proc with
  | serial =>
    simp only [intr, serialIntr, produced]
    split_ifs
    · exact consIntr_cons dev .serial s
    · rfl
  | kbd => exact consIntr_cons dev .kbd s

theorem produced_range {proc : Proc} {s : State} {c : ℤ} (h : c ∈ produced dev proc s) : 1 ≤ c ∧ c ≤ 255 := by
  cases proc with
  | serial =>
    simp only [produced] at h
    split_ifs at h
    · exact chars_range dev h
    · cases h
  | kbd => exact chars_range dev h

/-- the byte stored for a character is that character -/
theorem toNat_ofInt {c : ℤ} (h : 1 ≤ c ∧ c ≤ 255) : ((BitVec.ofInt 8 c).toNat : ℤ) = c := by
  rw [BitVec.toNat_ofInt]
  omega

/-- **A poll** in which at most 511 characters become unread. -/
theorem Fifo.poll {t : Trace} (h : Fifo t) {proc : Proc} (hu : (t.poll dev proc).unread ≤ 511) :
    Fifo (t.poll dev proc) := by
  have hroom : t.state.cons.count + ((produced dev proc t.state).map (BitVec.ofInt 8)).length < CONSBUFSIZE := by
    have hl := congrArg List.length h.order
    simp only [List.length_append, List.length_map, Ring.length_contents] at hl
    simp only [Trace.unread, Trace.poll, List.length_append, List.length_map] at hu
    rw [List.length_map]
    show _ < 512
    omega
  have hback : ((produced dev proc t.state).map (BitVec.ofInt 8)).map (fun b => (b.toNat : ℤ)) =
      produced dev proc t.state := by
    rw [List.map_map]
    refine (List.map_congr_left fun c hc => ?_).trans (List.map_id _)
    exact toNat_ofInt (produced_range dev hc)
  refine ⟨?_, ?_, fun c hc => ?_⟩
  · rw [Trace.poll, intr_cons]
    exact h.valid.putAll _
  · simp only [Trace.poll, intr_cons]
    rw [Ring.contents_putAll h.valid _ hroom, List.map_append, hback, ← List.append_assoc, h.order, List.map_append,
      List.map_map]
    exact congrArg _ (List.map_id _).symm
  · rcases List.mem_append.1 hc with hc | hc
    · exact h.char c hc
    · obtain ⟨x, hx, rfl⟩ := List.mem_map.1 hc
      exact produced_range dev hx

/-- the end of cons_getc: 0 if nothing is unread -/
theorem Fifo.grabbed {t : Trace} (h : Fifo t) :
    Fifo ⟨(grab t.state).2, t.delivered, t.returned ++ [(grab t.state).1]⟩ ∧
      ((grab t.state).1 = 0 ↔ t.unread = 0) := by
  have hu := h.unread
  cases hc : t.state.cons.contents with
  | nil =>
    have h0 : t.state.cons.count = 0 := by rw [← Ring.length_contents, hc]; rfl
    have hg : grab t.state = (0, t.state) := by
      rw [grab, Ring.take_nil h.valid hc]
    rw [hg]
    refine ⟨⟨h.valid, ?_, h.char⟩, by simp; omega⟩
    simp only [List.filter_append]
    rw [List.filter_cons_of_neg (by simp), List.filter_nil, List.append_nil]
    exact h.order
  | cons x l =>
    have h0 : t.state.cons.count = l.length + 1 := by rw [← Ring.length_contents, hc]; rfl
    obtain ⟨h1, h2⟩ := Ring.take_cons h.valid hc
    have hg : grab t.state = ((x.toNat : ℤ), { t.state with cons := t.state.cons.take.2 }) := by
      unfold grab
      cases ht : t.state.cons.take with
      | mk c r => rw [ht] at h1; simp only at h1; rw [h1]
    have hx : (x.toNat : ℤ) ≠ 0 := by
      have hm : (x.toNat : ℤ) ∈ t.delivered.map Prod.snd := by
        rw [← h.order, hc]; simp
      obtain ⟨c, hc', he⟩ := List.mem_map.1 hm
      have := h.char c hc'
      omega
    rw [hg]
    refine ⟨⟨h.valid.take, ?_, h.char⟩, by simp only; omega⟩
    have ho := h.order
    rw [hc] at ho
    simp only [List.filter_append]
    rw [List.filter_cons_of_pos (by simpa using hx), List.filter_nil, h2, ← ho, List.append_assoc]
    rfl

theorem unread_poll (proc : Proc) (t : Trace) : t.unread ≤ (t.poll dev proc).unread := by
  simp only [Trace.unread, Trace.poll, List.length_append]
  omega

theorem Fifo.polls {t : Trace} (h : Fifo t) {e : Event} (hu : (e.polls dev t).unread ≤ 511) : Fifo (e.polls dev t) := by
  cases e with
  | rx b => exact ⟨h.valid, h.order, h.char⟩
  | key b => exact ⟨h.valid, h.order, h.char⟩
  | serialIntr => exact h.poll dev hu
  | kbdIntr => exact h.poll dev hu
  | getc => exact (h.poll dev ((unread_poll dev .kbd _).trans hu)).poll dev hu

/-- **One event.** -/
theorem Fifo.step {t : Trace} (h : Fifo t) {e : Event} (hu : (e.polls dev t).unread ≤ 511) : Fifo (t.step dev e) := by
  have hp := h.polls dev hu
  unfold Trace.step
  split_ifs with he
  · subst he
    exact hp.grabbed.1
  · exact hp

/-- **Every run** in which at most 511 characters are unread. -/
theorem Fifo.run {t : Trace} (h : Fifo t) {es : List Event} (hc : Calm dev es t) : Fifo (run dev es t) := by
  induction es generalizing t with
  | nil => exact h
  | cons e es ih => exact ih (h.step dev hc.1) hc.2

/-! ## The streams -/

/-- the characters that came from a device -/
def Trace.from (proc : Proc) (t : Trace) : List ℤ := (t.delivered.filter (·.1 = proc)).map Prod.snd

theorem from_poll_same (proc : Proc) (t : Trace) :
    (t.poll dev proc).from proc = t.from proc ++ produced dev proc t.state := by
  simp [Trace.from, Trace.poll, List.filter_append, List.filter_map, Function.comp_def]

theorem from_poll_other {proc proc' : Proc} (h : proc ≠ proc') (t : Trace) :
    (t.poll dev proc).from proc' = t.from proc' := by
  simp [Trace.from, Trace.poll, List.filter_append, List.filter_map, Function.comp_def, h]

/-- the bytes that an event brings to the serial port -/
def Event.bytes : Event → List Byte
  | .rx b => [b]
  | _ => []

/-- the scancodes that it brings to the keyboard -/
def Event.keys : Event → List Byte
  | .key b => [b]
  | _ => []

/-- the event calls the routine of a device until it has no more data -/
def Event.reads (proc : Proc) : Event → Bool
  | .serialIntr => proc = .serial
  | .kbdIntr => proc = .kbd
  | .getc => true
  | _ => false

/-- a schedule up to the last poll of a device -/
def beforePoll (proc : Proc) (es : List Event) : List Event := es.rdropWhile fun e => !e.reads proc

/-- and what comes after it -/
def sincePoll (proc : Proc) (es : List Event) : List Event := es.rtakeWhile fun e => !e.reads proc

theorem beforePoll_append (proc : Proc) (es : List Event) : beforePoll proc es ++ sincePoll proc es = es := by
  rw [beforePoll, sincePoll, List.rdropWhile, List.rtakeWhile, ← List.reverse_append, List.takeWhile_append_dropWhile,
    List.reverse_reverse]

theorem beforePoll_concat (proc : Proc) (es : List Event) (e : Event) :
    beforePoll proc (es ++ [e]) = if e.reads proc then es ++ [e] else beforePoll proc es := by
  rw [beforePoll, List.rdropWhile_concat]
  cases e.reads proc <;> rfl

theorem sincePoll_concat (proc : Proc) (es : List Event) (e : Event) :
    sincePoll proc (es ++ [e]) = if e.reads proc then [] else sincePoll proc es ++ [e] := by
  rw [sincePoll, List.rtakeWhile_concat]
  cases e.reads proc <;> rfl

/-- the scancodes `scanned` have been read and the scancodes `left` have not: the keyboard characters are those that
`scanned` decodes to, as one stream -/
def Decoded (scanned left : List Byte) (t : Trace) : Prop :=
  t.state.kbd = left ∧ t.state.shift = (decode 0 scanned).2 ∧ t.from .kbd = (decode 0 scanned).1.filter (· ≠ 0)

/-- the bytes `taken` have been read and the bytes `left` have not: the serial characters are `taken` without its zeros -/
def Passed (taken left : List Byte) (t : Trace) : Prop :=
  t.state.com = left ∧ t.from .serial = (taken.map fun b => (b.toNat : ℤ)).filter (· ≠ 0)

section Poll

variable {scanned taken left : List Byte} {t : Trace}

theorem Decoded.poll_serial (h : Decoded scanned left t) : Decoded scanned left (t.poll dev .serial) := by
  obtain ⟨h1, h2, h3⟩ := h
  have hs : (intr dev .serial t.state).kbd = t.state.kbd ∧ (intr dev .serial t.state).shift = t.state.shift := by
    simp only [intr, serialIntr]
    split_ifs
    · obtain ⟨-, hk, hsh, -⟩ := serial_polled dev t.state
      exact ⟨hk, hsh⟩
    · exact ⟨rfl, rfl⟩
  refine ⟨?_, ?_, ?_⟩
  · rw [Trace.poll, hs.1]; exact h1
  · rw [Trace.poll, hs.2]; exact h2
  · rw [from_poll_other dev (by decide)]; exact h3

/-- the keyboard is polled until nothing is left -/
theorem Decoded.poll_kbd (h : Decoded scanned left t) : Decoded (scanned ++ left) [] (t.poll dev .kbd) := by
  obtain ⟨rfl, h2, h3⟩ := h
  obtain ⟨hk, -, hsh, -⟩ := kbd_polled dev t.state
  refine ⟨?_, ?_, ?_⟩
  · rw [Trace.poll, intr, kbdIntr, hk]
  · rw [Trace.poll, intr, kbdIntr, hsh, decode_append, ← h2]
  · rw [from_poll_same, h3, decode_append, ← h2, List.filter_append, produced, chars, values_kbd]

theorem Passed.poll_kbd (h : Passed taken left t) : Passed taken left (t.poll dev .kbd) := by
  refine ⟨?_, ?_⟩
  · rw [Trace.poll, intr, kbdIntr, (kbd_polled dev t.state).2.1]; exact h.1
  · rw [from_poll_other dev (by decide)]; exact h.2

/-- and so is the serial port -/
theorem Passed.poll_serial (hex : t.state.serialExists = true) (h : Passed taken left t) :
    Passed (taken ++ left) [] (t.poll dev .serial) := by
  obtain ⟨rfl, h2⟩ := h
  refine ⟨?_, ?_⟩
  · rw [Trace.poll, intr, serialIntr, if_pos hex, (serial_polled dev t.state).1]
  · rw [from_poll_same, h2, produced, if_pos hex, chars, values_serial, List.map_append, List.filter_append]

/-- a serial port that is not there is not polled -/
theorem Passed.poll_absent (hex : t.state.serialExists = false) (h : Passed taken left t) :
    Passed taken left (t.poll dev .serial) := by
  refine ⟨?_, ?_⟩
  · rw [Trace.poll, intr, serialIntr, hex]; exact h.1
  · rw [from_poll_same, h.2, produced, hex]; simp

theorem serialExists_poll (proc : Proc) (t : Trace) : (t.poll dev proc).state.serialExists = t.state.serialExists := by
  cases proc with
  | serial =>
    simp only [Trace.poll, intr, serialIntr]
    split_ifs
    · exact (serial_polled dev t.state).2.2.2
    · rfl
  | kbd => exact (kbd_polled dev t.state).2.2.2

theorem grab_frame (s : State) : (grab s).2 = { s with cons := s.cons.take.2 } := by
  unfold grab
  split <;> (rename_i h; rw [h])

/-- cons_getc after its polls: only the ring and what has been returned change -/
theorem step_getc_state (t : Trace) : (t.step dev .getc).state = { ((t.poll dev .serial).poll dev .kbd).state with
    cons := ((t.poll dev .serial).poll dev .kbd).state.cons.take.2 } := grab_frame _

theorem serialExists_step (e : Event) (t : Trace) : (t.step dev e).state.serialExists = t.state.serialExists := by
  cases e with
  | rx b => rfl
  | key b => rfl
  | serialIntr => exact serialExists_poll dev .serial t
  | kbdIntr => exact serialExists_poll dev .kbd t
  | getc =>
    rw [step_getc_state]
    exact (serialExists_poll dev .kbd _).trans (serialExists_poll dev .serial t)

/-- **One event**, for the keyboard -/
theorem Decoded.step (h : Decoded scanned left t) (e : Event) :
    Decoded (if e.reads .kbd then scanned ++ left else scanned) (if e.reads .kbd then [] else left ++ e.keys)
      (t.step dev e) := by
  cases e with
  | rx b =>
    show Decoded scanned (left ++ []) _
    rw [List.append_nil]
    exact h
  | key b => exact ⟨congrArg (· ++ [b]) h.1, h.2⟩
  | serialIntr =>
    show Decoded scanned (left ++ []) _
    rw [List.append_nil]
    exact h.poll_serial dev
  | kbdIntr => exact h.poll_kbd dev
  | getc =>
    obtain ⟨h1, h2, h3⟩ := (h.poll_serial dev).poll_kbd dev
    refine ⟨?_, ?_, h3⟩
    · rw [step_getc_state]; exact h1
    · rw [step_getc_state]; exact h2

/-- **One event**, for the serial port -/
theorem Passed.step (hex : t.state.serialExists = true) (h : Passed taken left t) (e : Event) :
    Passed (if e.reads .serial then taken ++ left else taken) (if e.reads .serial then [] else left ++ e.bytes)
      (t.step dev e) := by
  cases e with
  | rx b => exact ⟨congrArg (· ++ [b]) h.1, h.2⟩
  | key b =>
    show Passed taken (left ++ []) _
    rw [List.append_nil]
    exact h
  | serialIntr => exact h.poll_serial dev hex
  | kbdIntr =>
    show Passed taken (left ++ []) _
    rw [List.append_nil]
    exact h.poll_kbd dev
  | getc =>
    obtain ⟨h1, h2⟩ := (h.poll_serial dev hex).poll_kbd dev
    refine ⟨?_, h2⟩
    rw [step_getc_state]
    exact h1

theorem Passed.step_absent (hex : t.state.serialExists = false) (h : Passed taken left t) (e : Event) :
    Passed taken (left ++ e.bytes) (t.step dev e) := by
  cases e with
  | rx b => exact ⟨congrArg (· ++ [b]) h.1, h.2⟩
  | key b =>
    show Passed taken (left ++ []) _
    rw [List.append_nil]
    exact h
  | serialIntr =>
    show Passed taken (left ++ []) _
    rw [List.append_nil]
    exact h.poll_absent dev hex
  | kbdIntr =>
    show Passed taken (left ++ []) _
    rw [List.append_nil]
    exact h.poll_kbd dev
  | getc =>
    obtain ⟨h1, h2⟩ := (h.poll_absent dev hex).poll_kbd dev
    show Passed taken (left ++ []) _
    rw [List.append_nil]
    refine ⟨?_, h2⟩
    rw [step_getc_state]
    exact h1

end Poll

theorem run_concat (es : List Event) (e : Event) (t : Trace) : run dev (es ++ [e]) t = (run dev es t).step dev e :=
  List.foldl_append

theorem serialExists_run (es : List Event) (t : Trace) : (run dev es t).state.serialExists = t.state.serialExists := by
  induction es using List.reverseRecOn with
  | nil => rfl
  | append_singleton es e ih => rw [run_concat, serialExists_step, ih]

/-- what has reached a device before and since its last poll is all that has reached it -/
theorem flatMap_polls (proc : Proc) (es : List Event) (f : Event → List Byte) :
    (beforePoll proc es).flatMap f ++ (sincePoll proc es).flatMap f = es.flatMap f := by
  rw [← List.flatMap_append, beforePoll_append]

/-- **Every run**, for the keyboard -/
theorem decoded_run (out : Out) (serialExists : Bool) (es : List Event) :
    Decoded ((beforePoll .kbd es).flatMap Event.keys) ((sincePoll .kbd es).flatMap Event.keys)
      (run dev es (.init out serialExists)) := by
  induction es using List.reverseRecOn with
  | nil => exact ⟨rfl, rfl, rfl⟩
  | append_singleton es e ih =>
    have h := ih.step dev e
    rw [run_concat, beforePoll_concat, sincePoll_concat]
    rw [flatMap_polls] at h
    cases hr : e.reads .kbd with
    | true =>
      have hkeys : e.keys = [] := by cases e <;> first | rfl | cases hr
      rw [hr] at h
      simpa [hkeys] using h
    | false =>
      rw [hr] at h
      simpa using h

/-- **Every run**, for the serial port -/
theorem passed_run (out : Out) (es : List Event) :
    Passed ((beforePoll .serial es).flatMap Event.bytes) ((sincePoll .serial es).flatMap Event.bytes)
      (run dev es (.init out true)) := by
  induction es using List.reverseRecOn with
  | nil => exact ⟨rfl, rfl⟩
  | append_singleton es e ih =>
    have h := ih.step dev (serialExists_run dev es _) e
    rw [run_concat, beforePoll_concat, sincePoll_concat]
    rw [flatMap_polls] at h
    cases hr : e.reads .serial with
    | true =>
      have hbytes : e.bytes = [] := by cases e <;> first | rfl | cases hr
      rw [hr] at h
      simpa [hbytes] using h
    | false =>
      rw [hr] at h
      simpa using h

theorem absent_run (out : Out) (es : List Event) : Passed [] (es.flatMap Event.bytes) (run dev es (.init out false)) := by
  induction es using List.reverseRecOn with
  | nil => exact ⟨rfl, rfl⟩
  | append_singleton es e ih =>
    rw [run_concat, List.flatMap_append, List.flatMap_singleton]
    exact ih.step_absent dev (serialExists_run dev es _) e

/-- **A poll empties its device.** -/
theorem emptied_step (out : Out) (serialExists : Bool) (es : List Event) (e : Event) :
    (e.reads .kbd = true → ((run dev es (.init out serialExists)).step dev e).state.kbd = []) ∧
      (serialExists = true → e.reads .serial = true →
        ((run dev es (.init out serialExists)).step dev e).state.com = []) := by
  refine ⟨fun hr => ?_, ?_⟩
  · have h := (decoded_run dev out serialExists (es ++ [e])).1
    rwa [run_concat, sincePoll_concat, if_pos hr] at h
  · rintro rfl hr
    have h := (passed_run dev out (es ++ [e])).1
    rwa [run_concat, sincePoll_concat, if_pos hr] at h

/-! ## The exact queue -/

theorem grab_range (s : State) : 0 ≤ (grab s).1 ∧ (grab s).1 ≤ 255 := by
  unfold grab
  split
  · rename_i c _ _
    have := c.isLt
    simp only
    omega
  · exact ⟨le_refl _, by simp⟩

/-- getchar returns a byte other than 0 -/
theorem getchar_range {arrivals : List (List Byte × List Byte)} {s s' : State} {c : ℤ}
    (h : getchar dev arrivals s = some (c, s')) : 1 ≤ c ∧ c ≤ 255 := by
  induction arrivals generalizing s with
  | nil => cases h
  | cons a arrivals ih =>
    simp only [getchar] at h
    split_ifs at h with h0
    · exact ih h
    · have hr := grab_range (kbdIntr dev (serialIntr dev { s with com := s.com ++ a.1, kbd := s.kbd ++ a.2 }))
      rw [consGetc] at h h0
      simp only [Option.some.injEq] at h
      rw [h] at hr h0
      simp only at hr h0
      omega

/-- the schedule of a getchar that waits: before each call of cons_getc, bytes reach the devices -/
def waiting (arrivals : List (List Byte × List Byte)) : List Event :=
  arrivals.flatMap fun a => (a.1.map .rx ++ a.2.map .key) ++ [.getc]

theorem waiting_cons (a : List Byte × List Byte) (arrivals : List (List Byte × List Byte)) :
    waiting (a :: arrivals) = (a.1.map .rx ++ a.2.map .key) ++ .getc :: waiting arrivals := by
  rw [waiting, List.flatMap_cons, List.append_assoc]
  rfl

theorem run_append (es es' : List Event) (t : Trace) : run dev (es ++ es') t = run dev es' (run dev es t) :=
  List.foldl_append

theorem calm_append {es es' : List Event} {t : Trace} :
    Calm dev (es ++ es') t ↔ Calm dev es t ∧ Calm dev es' (run dev es t) := by
  induction es generalizing t with
  | nil => exact ⟨fun h => ⟨trivial, h⟩, And.right⟩
  | cons e es ih =>
    rw [List.cons_append, Calm, Calm, ih, and_assoc]
    rfl

theorem run_arrive (rx keys : List Byte) (t : Trace) :
    run dev (rx.map .rx ++ keys.map .key) t =
      { t with state := { t.state with com := t.state.com ++ rx, kbd := t.state.kbd ++ keys } } := by
  have hrx : ∀ (rx : List Byte) t, run dev (rx.map .rx) t =
      { t with state := { t.state with com := t.state.com ++ rx } } := by
    intro rx
    induction rx with
    | nil => intro t; simp [run]
    | cons b rx ih => intro t; exact (ih _).trans (by simp [Trace.step, Event.polls])
  have hkey : ∀ (keys : List Byte) t, run dev (keys.map .key) t =
      { t with state := { t.state with kbd := t.state.kbd ++ keys } } := by
    intro keys
    induction keys with
    | nil => intro t; simp [run]
    | cons b keys ih => intro t; exact (ih _).trans (by simp [Trace.step, Event.polls])
  rw [run_append, hrx, hkey]

/-- a cons_getc that returns 0 leaves nothing unread -/
theorem Fifo.getc_zero {t : Trace} (h : Fifo t) (hu : (Event.getc.polls dev t).unread ≤ 511)
    (h0 : (consGetc dev t.state).1 = 0) : (t.step dev .getc).unread = 0 := by
  have hpolls := (h.polls dev hu).grabbed.2.1 h0
  have hret : (t.step dev .getc).returned.filter (· ≠ 0) = (Event.getc.polls dev t).returned.filter (· ≠ 0) := by
    show (t.returned ++ [(consGetc dev t.state).1]).filter _ = t.returned.filter _
    rw [h0, List.filter_append]
    simp
  rw [← hpolls, Trace.unread, Trace.unread, hret]
  rfl

/-- **The wait.** A getchar that has not returned after some calls of cons_getc leaves nothing unread. -/
theorem getchar_waits {t : Trace} (h : Fifo t) (a : List Byte × List Byte) (arrivals : List (List Byte × List Byte))
    (hc : Calm dev (waiting (a :: arrivals)) t) (hn : getchar dev (a :: arrivals) t.state = none) :
    (run dev (waiting (a :: arrivals)) t).unread = 0 := by
  induction arrivals generalizing t a with
  | nil =>
    rw [waiting_cons] at hc ⊢
    obtain ⟨hc₁, hu, -⟩ := (calm_append dev).1 hc
    rw [run_append]
    apply (h.run dev hc₁).getc_zero dev hu
    rw [run_arrive]
    rw [getchar] at hn
    split_ifs at hn with h0
    exact h0
  | cons b arrivals ih =>
    rw [waiting_cons] at hc ⊢
    obtain ⟨hc₁, hu, hrest⟩ := (calm_append dev).1 hc
    rw [run_append]
    apply ih ((h.run dev hc₁).step dev hu) b hrest
    rw [getchar] at hn
    split_ifs at hn with h0
    show getchar dev (b :: arrivals) (consGetc dev (run dev _ t).state).2 = none
    rw [run_arrive]
    exact hn

/-- **The input queue.** After any schedule in which at most 511 characters are unread, the indices are in range, and the
characters returned, followed by those in the ring, are those delivered, in order. A further cons_getc returns 0 exactly
if nothing is unread after its polls, and getchar returns 1 to 255, and waits only while nothing is unread. The keyboard
characters are decoded, as one stream, from the scancodes that came before the last poll of the keyboard, and the serial
characters are the bytes other than 0 that came before the last poll of the serial port, if there is one. A poll leaves
nothing at its device. -/
theorem console_fifo (out : Out) (serialExists : Bool) (es : List Event) (hc : Calm dev es (.init out serialExists)) :
    (run dev es (.init out serialExists)).state.cons.rpos < CONSBUFSIZE ∧
    (run dev es (.init out serialExists)).state.cons.wpos < CONSBUFSIZE ∧
    (run dev es (.init out serialExists)).returned.filter (· ≠ 0) ++
        (run dev es (.init out serialExists)).state.cons.contents.map (fun b => (b.toNat : ℤ)) =
      (run dev es (.init out serialExists)).delivered.map Prod.snd ∧
    ((Event.getc.polls dev (run dev es (.init out serialExists))).unread ≤ 511 →
      ((consGetc dev (run dev es (.init out serialExists)).state).1 = 0 ↔
        (Event.getc.polls dev (run dev es (.init out serialExists))).unread = 0)) ∧
    (∀ arrivals c s, getchar dev arrivals (run dev es (.init out serialExists)).state = some (c, s) → 1 ≤ c ∧ c ≤ 255) ∧
    (∀ a arrivals, Calm dev (waiting (a :: arrivals)) (run dev es (.init out serialExists)) →
      getchar dev (a :: arrivals) (run dev es (.init out serialExists)).state = none →
      (run dev (waiting (a :: arrivals)) (run dev es (.init out serialExists))).unread = 0) ∧
    Decoded ((beforePoll .kbd es).flatMap Event.keys) ((sincePoll .kbd es).flatMap Event.keys)
      (run dev es (.init out serialExists)) ∧
    (if serialExists then
      Passed ((beforePoll .serial es).flatMap Event.bytes) ((sincePoll .serial es).flatMap Event.bytes)
        (run dev es (.init out serialExists))
    else Passed [] (es.flatMap Event.bytes) (run dev es (.init out serialExists))) ∧
    ∀ e : Event, (e.reads .kbd = true → ((run dev es (.init out serialExists)).step dev e).state.kbd = []) ∧
      (serialExists = true → e.reads .serial = true →
        ((run dev es (.init out serialExists)).step dev e).state.com = []) := by
  have hf := (Fifo.init out serialExists).run dev hc
  have hserial : if serialExists then
      Passed ((beforePoll .serial es).flatMap Event.bytes) ((sincePoll .serial es).flatMap Event.bytes)
        (run dev es (.init out serialExists))
      else Passed [] (es.flatMap Event.bytes) (run dev es (.init out serialExists)) := by
    cases serialExists with
    | true => exact passed_run dev out es
    | false => exact absent_run dev out es
  exact ⟨hf.valid.rpos, hf.valid.wpos, hf.order, fun hu => (hf.polls dev hu).grabbed.2,
    fun _ _ _ hg => getchar_range dev hg, fun a arrivals hw hn => getchar_waits dev hf a arrivals hw hn,
    decoded_run dev out serialExists es, hserial, emptied_step dev out serialExists es⟩

/-- witness: a serial 0xFF, an E0 prefix at the end of one interrupt, its key in the next, and two reads -/
def mixedSchedule : List Event := [.rx 0xFF, .serialIntr, .key 0xE0, .kbdIntr, .key 0x48, .getc, .getc]

theorem console_fifo_mixed :
    let t := run (fun _ _ => 0xFF) mixedSchedule (.init bootOut true)
    t.state.cons.rpos < CONSBUFSIZE ∧ t.state.cons.wpos < CONSBUFSIZE ∧
    t.returned.filter (· ≠ 0) ++ t.state.cons.contents.map (fun b => (b.toNat : ℤ)) = t.delivered.map Prod.snd ∧
    ((Event.getc.polls (fun _ _ => 0xFF) t).unread ≤ 511 →
      ((consGetc (fun _ _ => 0xFF) t.state).1 = 0 ↔ (Event.getc.polls (fun _ _ => 0xFF) t).unread = 0)) ∧
    (∀ arrivals c s, getchar (fun _ _ => 0xFF) arrivals t.state = some (c, s) → 1 ≤ c ∧ c ≤ 255) ∧
    (∀ a arrivals, Calm (fun _ _ => 0xFF) (waiting (a :: arrivals)) t →
      getchar (fun _ _ => 0xFF) (a :: arrivals) t.state = none →
      (run (fun _ _ => 0xFF) (waiting (a :: arrivals)) t).unread = 0) ∧
    Decoded [0xE0, 0x48] [] t ∧ Passed [0xFF] [] t ∧
    ∀ e : Event, (e.reads .kbd = true → (t.step (fun _ _ => 0xFF) e).state.kbd = []) ∧
      (true = true → e.reads .serial = true → (t.step (fun _ _ => 0xFF) e).state.com = []) :=
  console_fifo (fun _ _ => 0xFF) bootOut true mixedSchedule (by decide +kernel)

/-! ## Overruns -/

/-- the queue lengths before and after a character -/
structure Delivery where
  before : ℕ
  after : ℕ
deriving DecidableEq, Repr

/-- the characters that a call of cons_intr stores, one by one -/
def pushes (proc : Proc) (s : State) : List Delivery :=
  if _h : (proc.call dev s).1 = -1 then []
  else if (proc.call dev s).1 = 0 then pushes proc (proc.call dev s).2
  else
    ⟨(proc.call dev s).2.cons.count, ((proc.call dev s).2.push (proc.call dev s).1).cons.count⟩ ::
      pushes proc ((proc.call dev s).2.push (proc.call dev s).1)
termination_by (proc.pending s).length
decreasing_by
  · exact call_pending dev _h
  · have := call_pending dev _h
    cases proc <;> exact this

/-- the deliveries of serial_intr or kbd_intr -/
def intrPushes : Proc → State → List Delivery
  | .serial, s => if s.serialExists then pushes dev .serial s else []
  | .kbd, s => pushes dev .kbd s

/-- the deliveries of an event -/
def Event.deliveries : Event → State → List Delivery
  | .serialIntr, s => intrPushes dev .serial s
  | .kbdIntr, s => intrPushes dev .kbd s
  | .getc, s => intrPushes dev .serial s ++ intrPushes dev .kbd (intr dev .serial s)
  | _, _ => []

/-- all deliveries of cons_intr in a run -/
def deliveries : List Event → Trace → List Delivery
  | [], _ => []
  | e :: es, t => e.deliveries dev t.state ++ deliveries es (t.step dev e)

/-- the queue length goes from a to b through the deliveries of l -/
def Path (a : ℕ) : List Delivery → ℕ → Prop
  | [], b => a = b
  | d :: l, b => d.before = a ∧ Path d.after l b

/-- the deliveries of a call are what the call does to the queue -/
theorem pushes_path (proc : Proc) (s : State) :
    Path s.cons.count (pushes dev proc s) (consIntr dev proc s).cons.count := by
  fun_induction pushes dev proc s with
  | case1 s hend =>
    rw [consIntr, dif_pos hend, call_cons]
    rfl
  | case2 s hend h0 ih =>
    rw [consIntr, dif_neg hend, if_pos h0]
    rwa [call_cons] at ih
  | case3 s hend h0 ih =>
    rw [consIntr, dif_neg hend, if_neg h0]
    exact ⟨by rw [call_cons], ih⟩

theorem intrPushes_path (proc : Proc) (s : State) :
    Path s.cons.count (intrPushes dev proc s) (intr dev proc s).cons.count := by
  cases proc with
  | serial =>
    simp only [intrPushes, intr, serialIntr]
    split_ifs
    · exact pushes_path dev .serial s
    · rfl
  | kbd => exact pushes_path dev .kbd s

/-- a character more, or an empty ring -/
def Delivery.Laps (d : Delivery) : Prop := d.before < 512 ∧ d.after = if d.before + 1 = 512 then 0 else d.before + 1

theorem pushes_laps {proc : Proc} {s : State} (h : s.cons.Valid) : ∀ d ∈ pushes dev proc s, d.Laps := by
  fun_induction pushes dev proc s with
  | case1 s hend => exact fun d hd => by cases hd
  | case2 s hend h0 ih => exact ih (by rwa [call_cons])
  | case3 s hend h0 ih =>
    have hv : (proc.call dev s).2.cons.Valid := by rwa [call_cons]
    intro d hd
    rcases List.mem_cons.1 hd with rfl | hd
    · exact ⟨Ring.count_lt hv, Ring.count_put hv _⟩
    · exact ih (hv.put _) d hd

theorem intrPushes_laps {s : State} (h : s.cons.Valid) (proc : Proc) : ∀ d ∈ intrPushes dev proc s, d.Laps := by
  cases proc with
  | serial =>
    simp only [intrPushes]
    split_ifs
    · exact pushes_laps dev h
    · exact fun d hd => by cases hd
  | kbd => exact pushes_laps dev h

theorem valid_intr {s : State} (h : s.cons.Valid) (proc : Proc) : (intr dev proc s).cons.Valid := by
  rw [intr_cons]
  exact h.putAll _

theorem valid_step {t : Trace} (h : t.state.cons.Valid) (e : Event) : (t.step dev e).state.cons.Valid := by
  cases e with
  | rx b => exact h
  | key b => exact h
  | serialIntr => exact valid_intr dev h .serial
  | kbdIntr => exact valid_intr dev h .kbd
  | getc =>
    rw [step_getc_state]
    exact (valid_intr dev (valid_intr dev h .serial) .kbd).take

theorem event_laps {s : State} (h : s.cons.Valid) (e : Event) : ∀ d ∈ e.deliveries dev s, d.Laps := by
  cases e with
  | rx b => exact fun d hd => by cases hd
  | key b => exact fun d hd => by cases hd
  | serialIntr => exact intrPushes_laps dev h .serial
  | kbdIntr => exact intrPushes_laps dev h .kbd
  | getc =>
    intro d hd
    rcases List.mem_append.1 hd with hd | hd
    · exact intrPushes_laps dev h .serial d hd
    · exact intrPushes_laps dev (valid_intr dev h .serial) .kbd d hd

/-- **Every run.** -/
theorem deliveries_laps {t : Trace} (h : t.state.cons.Valid) (es : List Event) : ∀ d ∈ deliveries dev es t, d.Laps := by
  induction es generalizing t with
  | nil => exact fun d hd => by cases hd
  | cons e es ih =>
    intro d hd
    rcases List.mem_append.1 hd with hd | hd
    · exact event_laps dev h e d hd
    · exact ih (valid_step dev h e) d hd

/-- **The overrun.** In any run from boot, a character delivered while k are unread leaves at least min(k, 511) unread if
and only if k < 511. So the queue never shrinks in a run exactly if no delivery finds 511 characters unread. -/
theorem overrun_iff (out : Out) (serialExists : Bool) (es : List Event) :
    (∀ d ∈ deliveries dev es (.init out serialExists), (min d.before 511 ≤ d.after ↔ d.before < 511)) ∧
      ((∀ d ∈ deliveries dev es (.init out serialExists), min d.before 511 ≤ d.after) ↔
        ∀ d ∈ deliveries dev es (.init out serialExists), d.before < 511) := by
  have one : ∀ d ∈ deliveries dev es (.init out serialExists), (min d.before 511 ≤ d.after ↔ d.before < 511) := by
    intro d hd
    obtain ⟨hlt, hafter⟩ := deliveries_laps dev (Fifo.init out serialExists).valid es d hd
    rw [hafter]
    split_ifs <;> omega
  exact ⟨one, forall₂_congr one⟩

/-- witness: one character -/
theorem overrun_iff_one : min 0 511 ≤ 1 ↔ 0 < 511 :=
  (overrun_iff (fun _ _ => 0xFF) bootOut true [.rx 0x61, .serialIntr]).1 ⟨0, 1⟩ (by decide +kernel)

/-- 511 characters in one interrupt, and one more in the next -/
def lapSchedule : List Event := List.replicate 511 (.rx 0x61) ++ [.serialIntr, .rx 0x62, .serialIntr]

/-- After `lapSchedule` the queue is empty: the last delivery finds 511 characters and leaves none. -/
theorem overrun_empties_queue :
    (⟨511, 0⟩ : Delivery) ∈ deliveries (fun _ _ => 0xFF) lapSchedule (.init bootOut true) ∧
      (consGetc (fun _ _ => 0xFF) (run (fun _ _ => 0xFF) lapSchedule (.init bootOut true)).state).1 = 0 ∧
      ¬ min 511 511 ≤ 0 := by
  decide +kernel

end Queue

end Jos.Console
