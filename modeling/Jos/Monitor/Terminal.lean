/-
The monitor on the console: characters come from the serial port and the keyboard, and its answers go to the devices.

A schedule says which bytes have reached the devices before each call of cons_getc. Reading and writing share the state of
the console, but not its parts, as long as the keyboard does not ask for a reboot: then kbd_proc_data prints, and the
machine is reset.

- `separate_devices`: the two halves of the console.
- `reads_schedule`: what getchar returns along a schedule.
- **`session_transcript`**, **`console_session`**, **`serial_session`**: what the monitor sends, told by the characters it
  has read alone, on any sink, on the console, and on a serial terminal.
-/
import Jos.Console.Fanout
import Jos.Console.Queue
import Jos.Console.Serial
import Jos.Monitor.Answers

namespace Jos.Monitor

open Console
open Dialogue (Reads Separate)
open Kdebug (DebugInfo)
open Loop (Gives)
open Readline (Line Holds typed)
open Sink (feed)

/-! ## The keyboard -/

/-- no scancode is that of Ctrl-Alt-Del, the modifiers being at first as given -/
def NoReboot : Word → List Byte → Prop
  | _, [] => True
  | shift, d :: l => (kbdScan shift d).2.2 = false ∧ NoReboot (kbdScan shift d).2.1 l

instance decidableNoReboot : ∀ shift l, Decidable (NoReboot shift l)
  | _, [] => isTrue trivial
  | shift, d :: l => haveI := decidableNoReboot (kbdScan shift d).2.1 l; inferInstanceAs (Decidable (_ ∧ _))

theorem noReboot_append (shift : Word) (l l' : List Byte) :
    NoReboot shift (l ++ l') ↔ NoReboot shift l ∧ NoReboot (decode shift l).2 l' := by
  induction l generalizing shift with
  | nil => exact ⟨fun h => ⟨trivial, h⟩, And.right⟩
  | cons d l ih => simp only [List.cons_append, NoReboot, ih, and_assoc, decode]

/-! ## A poll -/

section Devices

variable (dev : ℕ → ℕ → Byte)

theorem consIntr_kbd_out {s : State} (h : NoReboot s.shift s.kbd) : (consIntr dev .kbd s).out = s.out := by
  induction hk : s.kbd generalizing s with
  | nil =>
    rw [consIntr, dif_pos (by simp [Proc.call, kbdProcData, hk])]
    simp only [Proc.call, kbdProcData, hk]
  | cons d kbd ih =>
    rw [hk] at h
    have hcall : Proc.call dev .kbd s =
        ((kbdScan s.shift d).1, { s with kbd := kbd, shift := (kbdScan s.shift d).2.1 }) := by
      simp only [Proc.call, kbdProcData, hk, h.1]
      rfl
    have hrange := kbdScan_range s.shift d
    rw [consIntr, dif_neg (by rw [hcall]; simp only; omega), hcall]
    simp only
    split_ifs
    · exact ih (s := { s with kbd := kbd, shift := (kbdScan s.shift d).2.1 }) h.2 rfl
    · exact ih (s := State.push _ { s with kbd := kbd, shift := (kbdScan s.shift d).2.1 }) h.2 rfl

/-- the state that both polls leave, and what cons_getc takes from it -/
def polled (s : State) : State where
  out := s.out
  serialExists := s.serialExists
  com := if s.serialExists then [] else s.com
  kbd := []
  shift := (decode s.shift s.kbd).2
  cons := (s.cons.putAll ((if s.serialExists then (s.com.map fun b => (b.toNat : ℤ)).filter (· ≠ 0) else []).map
    (BitVec.ofInt 8))).putAll (((decode s.shift s.kbd).1.filter (· ≠ 0)).map (BitVec.ofInt 8))

/-- **A poll**, in one piece: it reads the devices, and prints nothing. -/
theorem polls_eq {s : State} (h : NoReboot s.shift s.kbd) : kbdIntr dev (serialIntr dev s) = polled s := by
  have hserial : serialIntr dev s = { s with
      com := if s.serialExists then [] else s.com,
      cons := s.cons.putAll ((if s.serialExists then (s.com.map fun b => (b.toNat : ℤ)).filter (· ≠ 0) else []).map
        (BitVec.ofInt 8)) } := by
    unfold serialIntr
    split_ifs with hex
    · obtain ⟨hcom, hkbd, hshift, hexists⟩ := serial_polled dev s
      have hout := consIntr_serial_out dev s
      have hcons := consIntr_cons dev .serial s
      rw [chars, values_serial] at hcons
      generalize consIntr dev .serial s = s' at *
      cases s'
      simp_all
    · rfl
  rw [hserial, kbdIntr]
  generalize hs : ({ s with
      com := if s.serialExists then [] else s.com,
      cons := s.cons.putAll ((if s.serialExists then (s.com.map fun b => (b.toNat : ℤ)).filter (· ≠ 0) else []).map
        (BitVec.ofInt 8)) } : State) = s₁
  have h₁ : NoReboot s₁.shift s₁.kbd := by
    rw [← hs]
    exact h
  obtain ⟨hkbd, hcom, hshift, hexists⟩ := kbd_polled dev s₁
  have hout := consIntr_kbd_out dev h₁
  have hcons := consIntr_cons dev .kbd s₁
  rw [chars, values_kbd] at hcons
  rw [polled]
  generalize consIntr dev .kbd s₁ = s' at *
  cases s'
  simp only at hkbd hcom hshift hexists hout hcons
  subst hs hkbd hcom hshift hexists hout hcons
  rfl

/-! ## The source and the sink -/

/-- a schedule, and the console -/
abbrev Machine : Type := List (List Byte × List Byte) × State

/-- bytes reach the devices -/
def arrive (a : List Byte × List Byte) (s : State) : State := { s with com := s.com ++ a.1, kbd := s.kbd ++ a.2 }

/-- `getchar()`, as in `Console.getchar`, with the rest of the schedule -/
def getcharOn : List (List Byte × List Byte) → State → Option (ℤ × Machine)
  | [], _ => none
  | a :: arrivals, s =>
    let r := consGetc dev (arrive a s)
    if r.1 = 0 then getcharOn arrivals r.2 else some (r.1, arrivals, r.2)

def Machine.getchar (m : Machine) : Option (ℤ × Machine) := getcharOn dev m.1 m.2

def Machine.cputchar (c : Word) (m : Machine) : Machine := (m.1, { m.2 with out := Console.cputchar dev c m.2.out })

theorem getcharOn_eq (arrivals : List (List Byte × List Byte)) (s : State) :
    (getcharOn dev arrivals s).map (fun r => (r.1, r.2.2)) = Console.getchar dev arrivals s := by
  induction arrivals generalizing s with
  | nil => rfl
  | cons a arrivals ih =>
    show (if (consGetc dev (arrive a s)).1 = 0 then getcharOn dev arrivals (consGetc dev (arrive a s)).2 else _).map _ =
      if (consGetc dev (arrive a s)).1 = 0 then Console.getchar dev arrivals (consGetc dev (arrive a s)).2 else _
    by_cases h0 : (consGetc dev (arrive a s)).1 = 0
    · rw [if_pos h0, if_pos h0, ih]
    · rw [if_neg h0, if_neg h0]
      rfl

theorem feed_cputchar (t : List Word) (m : Machine) :
    feed (Machine.cputchar dev) m t = (m.1, { m.2 with out := putText dev t m.2.out }) := by
  induction t generalizing m with
  | nil => rfl
  | cons c t ih => exact ih _

/-- the keyboard will not ask for a reboot -/
def Quiet (m : Machine) : Prop := NoReboot m.2.shift (m.2.kbd ++ m.1.flatMap Prod.snd)

theorem consGetc_eq {s : State} (h : NoReboot s.shift s.kbd) : consGetc dev s = grab (polled s) := by
  rw [consGetc, polls_eq dev h]

/-- a poll prints nothing, and takes all scancodes -/
theorem polled_same {a : List Byte × List Byte} {s : State} (h : NoReboot (arrive a s).shift (arrive a s).kbd) :
    (consGetc dev (arrive a s)).2.out = s.out ∧
      (consGetc dev (arrive a s)).2.shift = (decode s.shift (s.kbd ++ a.2)).2 ∧
      (consGetc dev (arrive a s)).2.kbd = [] := by
  rw [consGetc_eq dev h, grab_frame]
  exact ⟨rfl, rfl, rfl⟩

theorem grab_out (s : State) (o : Out) : grab { s with out := o } = ((grab s).1, { (grab s).2 with out := o }) := by
  unfold grab
  cases h : s.cons.take with
  | mk c r => cases c <;> rfl

theorem Quiet.arrive {a : List Byte × List Byte} {arrivals : List (List Byte × List Byte)} {s : State}
    (h : Quiet (a :: arrivals, s)) : NoReboot (arrive a s).shift (arrive a s).kbd ∧
      Quiet (arrivals, (consGetc dev (Monitor.arrive a s)).2) := by
  have h' : NoReboot s.shift ((s.kbd ++ a.2) ++ arrivals.flatMap Prod.snd) := by
    rw [List.append_assoc]
    exact h
  rw [noReboot_append] at h'
  refine ⟨h'.1, ?_⟩
  rw [consGetc_eq dev (s := Monitor.arrive a s) h'.1, grab_frame]
  exact h'.2

/-- what is printed does not change what is read -/
theorem consGetc_out {s : State} (h : NoReboot s.shift s.kbd) (o : Out) :
    consGetc dev { s with out := o } = ((consGetc dev s).1, { (consGetc dev s).2 with out := o }) := by
  rw [consGetc_eq dev (s := { s with out := o }) h, consGetc_eq dev h, ← grab_out]
  rfl

/-- **The console** reads and writes in different parts of its state. -/
theorem separate_devices : Separate (Machine.getchar dev) (Machine.cputchar dev) Quiet where
  get_inv := by
    rintro ⟨arrivals, s⟩ c m hq hget
    change getcharOn dev arrivals s = some (c, m) at hget
    induction arrivals generalizing s with
    | nil => cases hget
    | cons a arrivals ih =>
      have hnext := (hq.arrive dev).2
      rw [getcharOn] at hget
      split_ifs at hget
      · exact ih _ hnext hget
      · cases hget
        exact hnext
  put_inv _ _ h := h
  get_put := by
    rintro ⟨arrivals, s⟩ c hq
    show getcharOn dev arrivals { s with out := Console.cputchar dev c s.out } = (getcharOn dev arrivals s).map _
    induction arrivals generalizing s with
    | nil => rfl
    | cons a arrivals ih =>
      obtain ⟨hnow, hnext⟩ := hq.arrive dev
      have hout : consGetc dev (arrive a { s with out := Console.cputchar dev c s.out }) = _ :=
        consGetc_out dev hnow (Console.cputchar dev c s.out)
      have hsame := (polled_same dev hnow).1
      rw [getcharOn, getcharOn, hout]
      simp only
      split_ifs
      · rw [← hsame]
        exact ih _ hnext
      · rw [← hsame]
        rfl

/-! ## Along a schedule -/

/-- the results of cons_getc that getchar returns -/
def received : List (List Byte × List Byte) → State → List ℤ
  | [], _ => []
  | a :: arrivals, s => [(consGetc dev (arrive a s)).1].filter (· ≠ 0) ++ received arrivals (consGetc dev (arrive a s)).2

/-- **A schedule** is read up to a state in which getchar is still waiting, and nothing has been printed. -/
theorem reads_schedule (arrivals : List (List Byte × List Byte)) {s : State} (h : Quiet (arrivals, s)) :
    ∃ m, Reads (Machine.getchar dev) (received dev arrivals s) (arrivals, s) m ∧ Machine.getchar dev m = none ∧
      m.2.out = s.out := by
  induction arrivals generalizing s with
  | nil => exact ⟨([], s), .nil _, rfl, rfl⟩
  | cons a arrivals ih =>
    obtain ⟨hnow, hnext⟩ := h.arrive dev
    obtain ⟨m, hr, hend, hout⟩ := ih hnext
    have hsame := (polled_same dev hnow).1
    rw [hsame] at hout
    rw [received]
    by_cases h0 : (consGetc dev (arrive a s)).1 = 0
    · -- getchar goes on to the next poll
      have hskip : Machine.getchar dev (a :: arrivals, s) = Machine.getchar dev (arrivals, (consGetc dev (arrive a s)).2) :=
        if_pos h0
      rw [List.filter_cons_of_neg (by simpa using h0), List.filter_nil, List.nil_append]
      generalize received dev arrivals (consGetc dev (arrive a s)).2 = l at hr ⊢
      cases hr with
      | nil => exact ⟨(a :: arrivals, s), .nil _, hskip.trans hend, rfl⟩
      | cons hget hr => exact ⟨m, .cons (hskip.trans hget) hr, hend, hout⟩
    · have hget : Machine.getchar dev (a :: arrivals, s) =
          some ((consGetc dev (arrive a s)).1, arrivals, (consGetc dev (arrive a s)).2) := if_neg h0
      rw [List.filter_cons_of_pos (by simpa using h0), List.filter_nil]
      exact ⟨m, .cons hget hr, hend, hout⟩

theorem received_returned (arrivals : List (List Byte × List Byte)) (t : Trace) :
    (run dev (waiting arrivals) t).returned.filter (· ≠ 0) =
      t.returned.filter (· ≠ 0) ++ received dev arrivals t.state := by
  induction arrivals generalizing t with
  | nil => simp [waiting, run, received]
  | cons a arrivals ih =>
    rw [waiting_cons, run_append, run_arrive]
    show (run dev (waiting arrivals) (Trace.step dev .getc _)).returned.filter (· ≠ 0) = _
    rw [ih, received]
    show (t.returned ++ [(consGetc dev (arrive a t.state)).1]).filter (· ≠ 0) ++ _ = _
    rw [List.filter_append, List.append_assoc]
    rfl

theorem received_range (arrivals : List (List Byte × List Byte)) (s : State) :
    ∀ c ∈ received dev arrivals s, 1 ≤ c ∧ c ≤ 255 := by
  induction arrivals generalizing s with
  | nil => exact fun c hc => absurd hc List.not_mem_nil
  | cons a arrivals ih =>
    intro c hc
    rw [received] at hc
    rcases List.mem_append.1 hc with hc | hc
    · obtain ⟨hc, h0⟩ := List.mem_filter.1 hc
      obtain rfl := List.mem_singleton.1 hc
      have hr : 0 ≤ (consGetc dev (arrive a s)).1 ∧ (consGetc dev (arrive a s)).1 ≤ 255 := grab_range _
      have hne : (consGetc dev (arrive a s)).1 ≠ 0 := by simpa using h0
      omega
    · exact ih _ c hc

/-- the characters as bytes -/
def receivedBytes (arrivals : List (List Byte × List Byte)) (s : State) : List Byte :=
  (received dev arrivals s).map (BitVec.ofInt 8)

theorem typed_receivedBytes (arrivals : List (List Byte × List Byte)) (s : State) :
    typed (receivedBytes dev arrivals s) = received dev arrivals s := by
  rw [typed, receivedBytes, List.map_map]
  refine (List.map_congr_left fun c hc => ?_).trans (List.map_id _)
  exact toNat_ofInt (received_range dev arrivals s c hc)

/-! ## A serial line -/

/-- bytes at the serial port only -/
def serialOnly (rxs : List (List Byte)) : List (List Byte × List Byte) := rxs.map fun rx => (rx, [])

theorem quiet_serialOnly (rxs : List (List Byte)) (out : Out) (ex : Bool) :
    Quiet (serialOnly rxs, (Trace.init out ex).state) := by
  have hkeys : (serialOnly rxs).flatMap Prod.snd = [] := by simp [serialOnly]
  rw [Quiet, hkeys]
  trivial

theorem waiting_append (a a' : List (List Byte × List Byte)) : waiting (a ++ a') = waiting a ++ waiting a' :=
  List.flatMap_append

theorem waiting_serialOnly (rxs : List (List Byte)) :
    (waiting (serialOnly rxs)).flatMap Event.keys = [] ∧ (waiting (serialOnly rxs)).flatMap Event.bytes = rxs.flatten := by
  have hkeys : ∀ rx : List Byte, (rx.map Event.rx).flatMap Event.keys = [] := by
    intro rx
    simp [List.flatMap_map, Event.keys]
  have hbytes : ∀ rx : List Byte, (rx.map Event.rx).flatMap Event.bytes = rx := by
    intro rx
    induction rx with
    | nil => rfl
    | cons b rx ih => simpa [Event.bytes] using ih
  induction rxs with
  | nil => exact ⟨rfl, rfl⟩
  | cons rx rxs ih =>
    have hstep : waiting (serialOnly (rx :: rxs)) = (rx.map Event.rx ++ [.getc]) ++ waiting (serialOnly rxs) := by
      simp [waiting, serialOnly]
    rw [hstep, List.flatMap_append, List.flatMap_append, List.flatMap_append, List.flatMap_append, hkeys, hbytes, ih.1, ih.2,
      List.flatten_cons]
    simp [Event.keys, Event.bytes]

/-- after a poll no byte is left at the devices -/
theorem run_polled {t : Trace} (h : t.state.com = [] ∧ t.state.kbd = [] ∧ t.state.serialExists = true)
    (rxs : List (List Byte)) :
    (run dev (waiting (serialOnly rxs)) t).state.com = [] ∧ (run dev (waiting (serialOnly rxs)) t).state.kbd = [] := by
  induction rxs generalizing t with
  | nil => exact ⟨h.1, h.2.1⟩
  | cons rx rxs ih =>
    obtain ⟨hcom, hkbd, hex⟩ := h
    have hnow : NoReboot (arrive (rx, []) t.state).shift (arrive (rx, []) t.state).kbd := by
      show NoReboot _ (t.state.kbd ++ [])
      rw [hkbd]
      trivial
    have hpoll := consGetc_eq dev hnow
    rw [serialOnly, List.map_cons, waiting_cons, run_append, run_arrive]
    apply ih
    show (consGetc dev (arrive (rx, []) t.state)).2.com = [] ∧ (consGetc dev (arrive (rx, []) t.state)).2.kbd = [] ∧
      (consGetc dev (arrive (rx, []) t.state)).2.serialExists = true
    rw [hpoll, grab_frame]
    exact ⟨if_pos hex, rfl, hex⟩

/-- **Idle polls** take what is in the ring. -/
theorem received_idle {s : State} (hcom : s.com = []) (hkbd : s.kbd = []) (hv : s.cons.Valid)
    (h0 : ∀ b ∈ s.cons.contents, b ≠ 0) (j : ℕ) :
    received dev (serialOnly (List.replicate j [])) s = (s.cons.contents.take j).map fun b => (b.toNat : ℤ) := by
  induction j generalizing s with
  | zero => rfl
  | succ j ih =>
    have hidle : polled (arrive ([], []) s) = s := by
      obtain ⟨o, ex, com, kbd, shift, cons⟩ := s
      simp only at hcom hkbd
      subst hcom hkbd
      simp [polled, arrive, decode, Ring.putAll]
    have hnow : NoReboot (arrive ([], []) s).shift (arrive ([], []) s).kbd := by
      show NoReboot _ (s.kbd ++ [])
      rw [hkbd]
      trivial
    have hpoll : consGetc dev (arrive ([], []) s) = grab s := by rw [consGetc_eq dev hnow, hidle]
    rw [List.replicate_succ, serialOnly, List.map_cons, received, hpoll]
    cases hc : s.cons.contents with
    | nil =>
      have hg : grab s = (0, s) := by rw [grab, Ring.take_nil hv hc]
      rw [hg]
      have hrest := ih hcom hkbd hv h0
      rw [hc] at hrest
      simpa [serialOnly] using hrest
    | cons b l =>
      obtain ⟨h1, h2⟩ := Ring.take_cons hv hc
      have hb : b ≠ 0 := h0 b (by rw [hc]; exact List.mem_cons_self)
      have hg1 : (grab s).1 = b.toNat := by
        unfold grab
        cases ht : s.cons.take with
        | mk c r =>
          rw [ht] at h1
          simp only at h1
          rw [h1]
      have hne : ((b.toNat : ℤ) ≠ 0) := by
        intro hz
        exact hb (BitVec.eq_of_toNat_eq (by simpa using hz))
      rw [hg1, grab_frame, List.filter_cons_of_pos (by simpa using hne), List.filter_nil, List.take_succ_cons, List.map_cons]
      have hrest := ih (s := { s with cons := s.cons.take.2 }) hcom hkbd hv.take (by
        intro x hx
        rw [h2] at hx
        exact h0 x (by rw [hc]; exact List.mem_cons_of_mem _ hx))
      rw [h2] at hrest
      exact congrArg ((b.toNat : ℤ) :: ·) hrest

theorem received_append (a a' : List (List Byte × List Byte)) (t : Trace) :
    received dev (a ++ a') t.state = received dev a t.state ++ received dev a' (run dev (waiting a) t).state := by
  have hall := received_returned dev (a ++ a') t
  have hthen := received_returned dev a' (run dev (waiting a) t)
  rw [waiting_append, run_append, hthen, received_returned, List.append_assoc, List.append_cancel_left_eq] at hall
  exact hall.symm

/-- without keyboard characters, all that was delivered came from the serial port -/
theorem delivered_serial {t : Trace} (h : t.from .kbd = []) : t.delivered.map Prod.snd = t.from .serial := by
  have hall : t.delivered.filter (·.1 = .serial) = t.delivered := by
    rw [List.filter_eq_self]
    rintro ⟨proc, c⟩ hc
    cases proc with
    | serial => rfl
    | kbd =>
      have hmem : c ∈ t.from .kbd :=
        List.mem_map.2 ⟨(.kbd, c), List.mem_filter.2 ⟨hc, by simp⟩, rfl⟩
      rw [h] at hmem
      exact absurd hmem List.not_mem_nil
  rw [Trace.from, hall]

/-- **Everything is read.** On a serial line on which at most 511 characters are unread at any time, 511 idle polls later
getchar has returned all bytes other than 0, in order. -/
theorem received_all (out : Out) (rxs : List (List Byte))
    (hc : Calm dev (waiting (serialOnly rxs)) (Trace.init out true)) :
    receivedBytes dev (serialOnly (rxs ++ List.replicate 511 [])) (Trace.init out true).state =
      rxs.flatten.filter (· ≠ 0) := by
  set t := run dev (waiting (serialOnly rxs)) (Trace.init out true) with ht
  have hf : Fifo t := (Fifo.init out true).run dev hc
  obtain ⟨hkeys, hbytes⟩ := waiting_serialOnly rxs
  obtain ⟨hcom, hkbd⟩ := run_polled dev (t := Trace.init out true) ⟨rfl, rfl, rfl⟩ rxs
  obtain ⟨-, -, hkbdchars⟩ := decoded_run dev out true (waiting (serialOnly rxs))
  obtain ⟨hleft, hserial⟩ := passed_run dev out (waiting (serialOnly rxs))
  rw [← ht] at hcom hkbd hkbdchars hleft hserial
  rw [← flatMap_polls .kbd] at hkeys
  rw [(List.append_eq_nil_iff.1 hkeys).1] at hkbdchars
  rw [← flatMap_polls .serial, ← hleft, hcom, List.append_nil] at hbytes
  rw [hbytes] at hserial
  -- what is still in the ring is taken by the idle polls
  have horder := hf.order
  rw [delivered_serial hkbdchars, hserial] at horder
  have hnonzero : ∀ b ∈ t.state.cons.contents, b ≠ 0 := by
    intro b hb hb0
    have hmem : (b.toNat : ℤ) ∈ (rxs.flatten.map fun b => (b.toNat : ℤ)).filter (· ≠ 0) := by
      rw [← horder]
      exact List.mem_append_right _ (List.mem_map_of_mem hb)
    rw [hb0] at hmem
    exact absurd (List.mem_filter.1 hmem).2 (by decide)
  have hidle := received_idle dev hcom hkbd hf.valid hnonzero 511
  have hcount : t.state.cons.contents.length ≤ 511 := by
    have hlt : t.state.cons.count < 512 := Ring.count_lt hf.valid
    rw [Ring.length_contents]
    omega
  rw [List.take_of_length_le hcount] at hidle
  have hfirst := received_returned dev (serialOnly rxs) (Trace.init out true)
  rw [← ht] at hfirst
  have hreceived : received dev (serialOnly (rxs ++ List.replicate 511 [])) (Trace.init out true).state =
      (rxs.flatten.map fun b => (b.toNat : ℤ)).filter (· ≠ 0) := by
    rw [serialOnly, List.map_append, ← serialOnly, ← serialOnly, received_append, ← ht, hidle, ← horder, hfirst]
    rfl
  rw [receivedBytes, hreceived, List.filter_map, List.map_map]
  have hzero : ∀ b : Byte, (decide ((b.toNat : ℤ) ≠ 0)) = decide (b ≠ 0) := by decide
  have hback : ∀ b : Byte, BitVec.ofInt 8 (b.toNat : ℤ) = b := by decide
  simp only [Function.comp_def, hzero, hback, List.map_id']

end Devices

/-! ## Sessions -/

/-- the kernel of the witnesses, and its stack -/
def linkMap : Linker := ⟨0x10000c, 0xf010000c, 0xf01019e9, 0xf0112300, 0xf0112944⟩

theorem oneFrame : Stack frameMemory 0xf0109e58 1 := by
  constructor <;> decide

section Sessions

variable (k : Linker) (mem : ℕ → Word → Byte) (T : DebugInfo) (ebp : Word) (d : ℕ → ℕ)

/-- what the monitor has sent when it has read cs -/
def sessionText (cs : List Byte) : List Word :=
  text welcome ++ text typeHelp ++ (text promptText ++ (shell fun i => kernelTable k (mem i) T ebp (d i)).out cs ⟨0, []⟩)

/-- the text of the line that it is in then -/
def sessionLine (cs : List Byte) : List Byte := ((shell fun i => kernelTable k (mem i) T ebp (d i)).state cs ⟨0, []⟩).text

variable {k mem T ebp d} {n : ℕ} (hT : T.HasHeader) (hstack : ∀ i, Stack (mem i) ebp (d i)) (hn : ∀ i, d i < n)

include hT hstack hn

/-- **Sessions.** On any sink, for all characters and any number of lines: the monitor sends its welcome, and for every
line the prompt, the echo and the answer to the text that the editor has made of it; it is waiting in the line that has not
ended, and it never returns. -/
theorem session_transcript {τ σ : Type} (cputchar : Word → σ → σ) (tf : τ) (console : σ) (buf : ℤ → Byte) (cs : List Byte) :
    ∃ l, Holds (sessionLine k mem T ebp d cs) l ∧ l.console = ([], feed cputchar console (sessionText k mem T ebp d cs)) ∧
      Gives (fun m => monitor Readline.nextOf (Readline.putBehind cputchar)
        (fun i => commands (Readline.putBehind cputchar) k (mem i) T n ebp) tf m ⟨(typed cs, console), buf, 0⟩)
        (.ok (.waiting l)) := by
  have hr : Reads Readline.nextOf (typed cs) (typed cs, console) ([], console) := by
    have h := Readline.reads_list (typed cs) [] console
    rwa [List.append_nil] at h
  obtain ⟨l, hl, hcon, hrun⟩ := monitor_is_shell (fun i => kernelTable k (mem i) T ebp (d i)) (Readline.putBehind cputchar)
    (Readline.separate_list cputchar) (fun i => commands (Readline.putBehind cputchar) k (mem i) T n ebp)
    (fun i => commands_print _ k hT (hstack i) (hn i)) tf cs trivial buf hr rfl
  exact ⟨l, hl, by rw [hcon, Readline.feed_putBehind]; rfl, hrun⟩

/-- **Sessions on the console.** For whatever the devices answer, and every schedule of serial bytes and scancodes without
Ctrl-Alt-Del: what the monitor has put on the console is a function of the characters that cons_getc has returned. -/
theorem console_session {τ : Type} (dev : ℕ → ℕ → Byte) (tf : τ) (s : State) (buf : ℤ → Byte)
    (arrivals : List (List Byte × List Byte)) (hq : Quiet (arrivals, s)) :
    ∃ l, Holds (sessionLine k mem T ebp d (receivedBytes dev arrivals s)) l ∧
      l.console.2.out = putText dev (sessionText k mem T ebp d (receivedBytes dev arrivals s)) s.out ∧
      Gives (fun m => monitor (Machine.getchar dev) (Machine.cputchar dev)
        (fun i => commands (Machine.cputchar dev) k (mem i) T n ebp) tf m ⟨(arrivals, s), buf, 0⟩) (.ok (.waiting l)) := by
  obtain ⟨m, hr, hend, hout⟩ := reads_schedule dev arrivals hq
  rw [← typed_receivedBytes] at hr
  obtain ⟨l, hl, hcon, hrun⟩ := monitor_is_shell (fun i => kernelTable k (mem i) T ebp (d i)) (Machine.cputchar dev)
    (separate_devices dev) (fun i => commands (Machine.cputchar dev) k (mem i) T n ebp)
    (fun i => commands_print _ k hT (hstack i) (hn i)) tf _ hq buf hr hend
  refine ⟨l, hl, ?_, hrun⟩
  rw [hcon, feed_cputchar]
  simp only [hout]
  rfl

/-- **A serial terminal.** From boot, for whatever the devices answer and however the bytes come in, as long as no more than
511 of them are unread at any time: 511 idle polls later the line has sent back exactly the session of all bytes other than
0 that were typed, with five blanks behind every tab. -/
theorem serial_session {τ : Type} (dev : ℕ → ℕ → Byte) (tf : τ) (out : Out) (buf : ℤ → Byte) (rxs : List (List Byte))
    (hc : Calm dev (waiting (serialOnly rxs)) (Trace.init out true)) :
    ∃ l, serialSent l.console.2.out.ports =
        serialSent out.ports ++ (sessionText k mem T ebp d (rxs.flatten.filter (· ≠ 0))).flatMap sentFor ∧
      Gives (fun m => monitor (Machine.getchar dev) (Machine.cputchar dev)
        (fun i => commands (Machine.cputchar dev) k (mem i) T n ebp) tf m
        ⟨(serialOnly (rxs ++ List.replicate 511 []), (Trace.init out true).state), buf, 0⟩) (.ok (.waiting l)) := by
  obtain ⟨l, -, hout, hrun⟩ := console_session hT hstack hn dev tf (Trace.init out true).state buf _
    (quiet_serialOnly (rxs ++ List.replicate 511 []) out true)
  rw [received_all dev out rxs hc] at hout
  refine ⟨l, ?_, hrun⟩
  rw [hout]
  exact (cputchar_sent dev _ _).serial

end Sessions

/-- a correction by backspace, and a line of a known and one of an unknown command -/
theorem session_transcript_help :
    ∃ l, Holds (bytes "h") l ∧ l.console = ([], text welcome ++ text typeHelp ++ (text "K> hek\x08lp\n" ++ helpText ++
        text "K> x y\nUnknown command 'x'\nK> h")) ∧
      Gives (fun m => monitor Readline.nextOf (Readline.putBehind Sink.snoc)
        (fun _ => commands (Readline.putBehind Sink.snoc) linkMap frameMemory Kdebug.monitorTable 2 0xf0109e58) () m
        ⟨(typed (bytes "hek\x08lp\rx y\nh"), []), fun _ => 0, 0⟩) (.ok (.waiting l)) := by
  have h := @session_transcript linkMap (fun _ => frameMemory) Kdebug.monitorTable 0xf0109e58 (fun _ => 1) 2
    Kdebug.monitorTable_lined.header (fun _ => oneFrame) (fun _ => by decide) _ _ Sink.snoc () [] (fun _ => 0)
    (bytes "hek\x08lp\rx y\nh")
  have hline : sessionLine linkMap (fun _ => frameMemory) Kdebug.monitorTable 0xf0109e58 (fun _ => 1) (bytes "hek\x08lp\rx y\nh") =
      bytes "h" := by decide +kernel
  have htext : feed Sink.snoc [] (sessionText linkMap (fun _ => frameMemory) Kdebug.monitorTable 0xf0109e58 (fun _ => 1)
      (bytes "hek\x08lp\rx y\nh")) =
      text welcome ++ text typeHelp ++ (text "K> hek\x08lp\n" ++ helpText ++
        text "K> x y\nUnknown command 'x'\nK> h") := by decide +kernel
  rw [hline, htext] at h
  exact h

/-- a letter at the serial port, the Enter key, and two polls -/
theorem console_session_enter :
    ∃ l, Holds [] l ∧ l.console.2.out = putText (fun _ _ => 0xFF) (sessionText linkMap (fun _ => frameMemory)
        Kdebug.monitorTable 0xf0109e58 (fun _ => 1) (bytes "x\n")) bootOut ∧
      Gives (fun m => monitor (Machine.getchar fun _ _ => 0xFF) (Machine.cputchar fun _ _ => 0xFF)
        (fun _ => commands (Machine.cputchar fun _ _ => 0xFF) linkMap frameMemory Kdebug.monitorTable 2 0xf0109e58) () m
        ⟨([(bytes "x", [0x1C]), ([], [])], (Trace.init bootOut true).state), fun _ => 0, 0⟩) (.ok (.waiting l)) := by
  have h := @console_session linkMap (fun _ => frameMemory) Kdebug.monitorTable 0xf0109e58 (fun _ => 1) 2
    Kdebug.monitorTable_lined.header (fun _ => oneFrame) (fun _ => by decide) _ (fun _ _ => 0xFF) ()
    (Trace.init bootOut true).state (fun _ => 0) [(bytes "x", [0x1C]), ([], [])] (by unfold Quiet; decide +kernel)
  have hcs : receivedBytes (fun _ _ => 0xFF) [(bytes "x", [0x1C]), ([], [])] (Trace.init bootOut true).state = bytes "x\n" := by
    decide +kernel
  have hline : sessionLine linkMap (fun _ => frameMemory) Kdebug.monitorTable 0xf0109e58 (fun _ => 1) (bytes "x\n") = [] := by
    decide +kernel
  rw [hcs, hline] at h
  exact h

/-- two bytes in one poll, and the end of the line in the next -/
theorem serial_session_line :
    ∃ l, serialSent l.console.2.out.ports = serialSent bootOut.ports ++ (sessionText linkMap (fun _ => frameMemory)
        Kdebug.monitorTable 0xf0109e58 (fun _ => 1) (bytes "hi\r")).flatMap sentFor ∧
      Gives (fun m => monitor (Machine.getchar fun _ _ => 0xFF) (Machine.cputchar fun _ _ => 0xFF)
        (fun _ => commands (Machine.cputchar fun _ _ => 0xFF) linkMap frameMemory Kdebug.monitorTable 2 0xf0109e58) () m
        ⟨(serialOnly ([bytes "hi", bytes "\r"] ++ List.replicate 511 []), (Trace.init bootOut true).state), fun _ => 0, 0⟩)
        (.ok (.waiting l)) := by
  have hall : [bytes "hi", bytes "\r"].flatten.filter (· ≠ 0) = bytes "hi\r" := by decide +kernel
  have h := @serial_session linkMap (fun _ => frameMemory) Kdebug.monitorTable 0xf0109e58 (fun _ => 1) 2
    Kdebug.monitorTable_lined.header (fun _ => oneFrame) (fun _ => by decide) _ (fun _ _ => 0xFF) ()
    bootOut (fun _ => 0) [bytes "hi", bytes "\r"] (by decide +kernel)
  rw [hall] at h
  exact h

end Jos.Monitor
