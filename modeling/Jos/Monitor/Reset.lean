/-
Ctrl-Alt-Del: a write to port 0x92 in the middle of a poll, behind which the machine is reset.

The scancodes behind the one that asks for it are never read, and getchar does not return. So the monitor is left in the
line that it was reading, and what is on the console then is what it had printed, and the message of kbd_proc_data.

- `noReboot_iff`: which keys those are.
- `putText_resets`: printing does not touch the port.
- **`reset_exactly`**: a session of any schedule, with the reset that ends it.
-/
import Jos.Console.Modifiers
import Jos.Monitor.Terminal

namespace Jos.Monitor

open Console
open Dialogue (Reads Separate)
open Kdebug (DebugInfo)
open Loop (Gives)
open Readline (Line Holds typed)
open Sink (feed)

/-! ## The keys -/

/-- no other key has the code of Del while Ctrl is down -/
theorem ctlmap_del (data : Byte) : ctlmap data = KEY_DEL ↔ data = 0xD3 := by
  revert data
  decide +kernel

theorem capsLock_del (b : Byte) : capsLock b.toNat = KEY_DEL.toNat ↔ b = KEY_DEL := by
  revert b
  decide +kernel

theorem keyChar_del {shift : Word} (hctl : shift &&& CTL ≠ 0) (data : Byte) :
    keyChar shift data = KEY_DEL.toNat ↔ data = 0xD3 := by
  rw [keyChar, charcode_test, if_pos hctl, ← ctlmap_del]
  split_ifs
  · exact capsLock_del _
  · rw [Nat.cast_inj]
    exact BitVec.toNat_inj

/-- the modifiers of Ctrl-Alt-Del: Ctrl and Alt are down, and a prefix has come -/
def Armed (shift : Word) : Prop := shift &&& CTL ≠ 0 ∧ shift &&& ALT ≠ 0 ∧ shift &&& E0ESC ≠ 0

instance (shift : Word) : Decidable (Armed shift) := inferInstanceAs (Decidable (_ ∧ _))

theorem and_both (shift : Word) : ~~~shift &&& (CTL ||| ALT) = 0 ↔ shift &&& CTL ≠ 0 ∧ shift &&& ALT ≠ 0 := by
  have hctl : ∀ x : Word, x &&& CTL = if x.getLsbD 1 then CTL else 0 := fun x => BitVec.and_twoPow x 1
  have halt : ∀ x : Word, x &&& ALT = if x.getLsbD 2 then ALT else 0 := fun x => BitVec.and_twoPow x 2
  rw [BitVec.and_or_distrib_left, hctl, halt, hctl, halt, BitVec.getLsbD_not, BitVec.getLsbD_not]
  cases shift.getLsbD 1 <;> cases shift.getLsbD 2 <;> decide

/-- **The scancode of Ctrl-Alt-Del** -/
theorem reboots_iff (shift : Word) (d : Byte) : (kbdScan shift d).2.2 = true ↔ d = 0x53 ∧ Armed shift := by
  -- neither Del nor its prefix is a modifier
  have hmake : ∀ s : Word, (kbdMake s 0xD3).2.2 = true ↔ s &&& CTL ≠ 0 ∧ s &&& ALT ≠ 0 := by
    intro s
    have hsame : (s ||| shiftcode 0xD3) ^^^ togglecode 0xD3 = s := by
      rw [show shiftcode 0xD3 = 0#32 by decide +kernel, show togglecode 0xD3 = 0#32 by decide +kernel, BitVec.or_zero,
        BitVec.xor_zero]
    simp only [kbdMake, hsame, decide_eq_true_eq]
    rw [and_both]
    exact ⟨And.left, fun h => ⟨h, (keyChar_del h.1 _).2 rfl⟩⟩
  have hother : ∀ (s : Word) (data : Byte), (kbdMake s data).2.2 = true → data = 0xD3 := by
    intro s data h
    simp only [kbdMake, decide_eq_true_eq] at h
    exact (keyChar_del ((and_both _).1 h.1).1 _).1 h.2
  unfold kbdScan Armed
  by_cases h0 : d = 0xE0
  · rw [if_pos h0, h0]
    exact iff_of_false Bool.false_ne_true fun h => absurd h.1 (by decide)
  rw [if_neg h0]
  by_cases hbreak : d &&& 0x80 ≠ 0
  · rw [if_pos hbreak]
    refine iff_of_false Bool.false_ne_true ?_
    rintro ⟨rfl, -⟩
    exact absurd hbreak (by decide)
  rw [if_neg hbreak]
  by_cases hesc : shift &&& E0ESC ≠ 0
  · rw [if_pos hesc]
    have hcode : d ||| 0x80 = 0xD3 ↔ d = 0x53 := by
      revert hbreak
      revert d
      decide +kernel
    have hclear : ∀ m : Word, ~~~E0ESC &&& m = m → (shift &&& ~~~E0ESC) &&& m = shift &&& m := by
      intro m hm
      rw [BitVec.and_assoc, hm]
    have hd := hmake (shift &&& ~~~E0ESC)
    rw [hclear CTL (by decide), hclear ALT (by decide)] at hd
    constructor
    · intro h
      have hcase := hother _ _ h
      rw [hcase] at h
      exact ⟨hcode.1 hcase, (hd.1 h).1, (hd.1 h).2, hesc⟩
    · rintro ⟨rfl, hctl, halt, -⟩
      exact hd.2 ⟨hctl, halt⟩
  · rw [if_neg hesc]
    refine iff_of_false (fun h => ?_) fun h => hesc h.2.2.2
    have hcase := hother _ _ h
    rw [hcase] at hbreak
    exact absurd hbreak (by decide)

/-- among the scancodes is that of Del, while Ctrl and Alt are down -/
def CtrlAltDel (shift : Word) (l : List Byte) : Prop := ∃ p q, l = p ++ 0x53 :: q ∧ Armed (decode shift p).2

theorem noReboot_iff (shift : Word) (l : List Byte) : NoReboot shift l ↔ ¬ CtrlAltDel shift l := by
  induction l generalizing shift with
  | nil =>
    refine iff_of_true trivial ?_
    rintro ⟨p, q, h, -⟩
    exact absurd h (by simp)
  | cons d l ih =>
    rw [NoReboot, ih, ← Bool.not_eq_true, reboots_iff]
    constructor
    · rintro ⟨hnow, hlater⟩ ⟨p, q, h, harmed⟩
      cases p with
      | nil =>
        cases h
        exact hnow ⟨rfl, harmed⟩
      | cons x p =>
        cases h
        exact hlater ⟨p, q, rfl, harmed⟩
    · intro h
      refine ⟨?_, ?_⟩
      · rintro ⟨rfl, harmed⟩
        exact h ⟨[], l, rfl, harmed⟩
      · rintro ⟨p, q, rfl, harmed⟩
        exact h ⟨d :: p, q, rfl, harmed⟩

instance (shift : Word) (l : List Byte) : Decidable (CtrlAltDel shift l) :=
  decidable_of_iff (¬ NoReboot shift l) (by rw [noReboot_iff, not_not])

/-! ## The port -/

/-- the writes to port 0x92, newest first -/
def resets (o : Out) : List Byte := (o.ports.filter (·.1 = 0x92)).map Prod.snd

section Port

variable (dev : ℕ → ℕ → Byte)

theorem cgaCursor_resets (o : Out) : resets (cgaCursor o) = resets o := by
  have hports : o.disp.addr6845 ≠ 0x92 ∧ o.disp.addr6845 + 1 ≠ 0x92 := by
    rcases o.disp.wired with h | h <;> rw [h.1] <;> decide
  simp [resets, cgaCursor, outb, hports]

theorem serial_lpt_resets (c : Word) (o : Out) : resets (lptPutc dev c (serialPutc dev c o)) = resets o := by
  obtain ⟨k, hk⟩ := serialPutc_eq dev c o
  obtain ⟨k', hk'⟩ := lptPutc_eq dev c (serialPutc dev c o)
  rw [hk', hk]
  rfl

theorem consPutc_plain_resets {c : Word} (h : low c ≠ chr '\t') (o : Out) : resets (consPutc dev c o) = resets o := by
  rw [consPutc, cgaPutc_plain dev (by rwa [withAttr_low]), cgaCursor_resets]
  show ((cgaScroll _).ports.filter _).map _ = _
  rw [cgaScroll_ports, cgaWrite_ports]
  exact serial_lpt_resets dev c o

theorem cputchar_resets (c : Word) (o : Out) : resets (cputchar dev c o) = resets o := by
  by_cases ht : low c = chr '\t'
  · have hspace : ∀ o, resets (consPutc dev (uchar (chr ' ')) o) = resets o :=
      consPutc_plain_resets dev (by decide)
    show resets (consPutc dev c o) = _
    rw [consPutc, cgaPutc_tab dev (by rwa [withAttr_low]), cgaCursor_resets]
    show ((cgaScroll _).ports.filter _).map _ = _
    rw [cgaScroll_ports]
    show resets ((consPutc dev (uchar (chr ' ')))^[5] _) = _
    simp only [Function.iterate_succ, Function.comp_apply, Function.iterate_zero, id, hspace]
    exact serial_lpt_resets dev c o
  · exact consPutc_plain_resets dev ht o

theorem putText_resets (cs : List Word) (o : Out) : resets (putText dev cs o) = resets o := by
  induction cs generalizing o with
  | nil => rfl
  | cons c cs ih => exact (ih _).trans (cputchar_resets dev c o)

end Port

/-! ## Polls that do not come back -/

section Polls

variable (dev : ℕ → ℕ → Byte)

/-- the calls of kbd_proc_data with these scancodes: the console when the machine is reset in one of them -/
def resetIn : List Byte → State → Option Out
  | [], _ => none
  | d :: l, s =>
    let s' := (kbdProcData dev { s with kbd := d :: l }).2
    if (kbdScan s.shift d).2.2 then some s'.out else resetIn l s'

/-- `cons_getc()`, if the machine is not reset in it -/
def getcUntil (s : State) : Option (ℤ × State) :=
  match resetIn dev s.kbd s with
  | none => some (consGetc dev s)
  | some _ => none

/-- `getchar()`, if it returns -/
def getcharUntil : List (List Byte × List Byte) → State → Option (ℤ × Machine)
  | [], _ => none
  | a :: arrivals, s =>
    match getcUntil dev (arrive a s) with
    | none => none
    | some (c, s) => if c = 0 then getcharUntil arrivals s else some (c, arrivals, s)

def Machine.getcharUntil (m : Machine) : Option (ℤ × Machine) := Monitor.getcharUntil dev m.1 m.2

/-- the console when the machine is reset in a call of getchar -/
def resetAt : List (List Byte × List Byte) → State → Option Out
  | [], _ => none
  | a :: arrivals, s =>
    match getcUntil dev (arrive a s) with
    | none => resetIn dev (arrive a s).kbd (arrive a s)
    | some (c, s) => if c = 0 then resetAt arrivals s else none

def Machine.resetAt (m : Machine) : Option Out := Monitor.resetAt dev m.1 m.2

/-- the arrivals before the poll of the reset -/
def quietPart : Word → List Byte → List (List Byte × List Byte) → List (List Byte × List Byte)
  | _, _, [] => []
  | shift, kbd, a :: arrivals =>
    if NoReboot shift (kbd ++ a.2) then a :: quietPart (decode shift (kbd ++ a.2)).2 [] arrivals else []

/-- what the reset leaves on the console -/
def rebooting (o : Out) : Out := outb 0x92 0x3 (putText dev (text "Rebooting!\n") o)

theorem resetIn_eq (l : List Byte) (s : State) :
    resetIn dev l s = if NoReboot s.shift l then none else some (rebooting dev s.out) := by
  induction l generalizing s with
  | nil => exact (if_pos trivial).symm
  | cons d l ih =>
    rw [resetIn]
    by_cases hd : (kbdScan s.shift d).2.2 = true
    · have hno : ¬ NoReboot s.shift (d :: l) := fun h => Bool.false_ne_true (h.1.symm.trans hd)
      rw [if_pos hd, if_neg hno]
      simp only [kbdProcData, hd, if_true]
      rw [cprintf_putText dev (by decide +kernel)]
      rfl
    · have hnot : (kbdScan s.shift d).2.2 = false := Bool.eq_false_iff.2 hd
      have hiff : NoReboot s.shift (d :: l) ↔ NoReboot (kbdScan s.shift d).2.1 l := and_iff_right hnot
      rw [if_neg hd, ih]
      simp only [kbdProcData, hnot, hiff, Bool.false_eq_true, if_false]

theorem getcUntil_quiet {s : State} (h : NoReboot s.shift s.kbd) : getcUntil dev s = some (consGetc dev s) := by
  rw [getcUntil, resetIn_eq, if_pos h]

theorem getcUntil_reset {s : State} (h : ¬ NoReboot s.shift s.kbd) : getcUntil dev s = none := by
  rw [getcUntil, resetIn_eq, if_neg h]

/-- **The console**, for all keys -/
theorem separate_until : Separate (Machine.getcharUntil dev) (Machine.cputchar dev) fun _ => True where
  get_inv _ _ _ _ _ := trivial
  put_inv _ _ _ := trivial
  get_put := by
    rintro ⟨arrivals, s⟩ c -
    show getcharUntil dev arrivals { s with out := Console.cputchar dev c s.out } = (getcharUntil dev arrivals s).map _
    induction arrivals generalizing s with
    | nil => rfl
    | cons a arrivals ih =>
      rw [getcharUntil, getcharUntil]
      by_cases hq : NoReboot (arrive a s).shift (arrive a s).kbd
      · have hout : consGetc dev (arrive a { s with out := Console.cputchar dev c s.out }) = _ :=
          consGetc_out dev hq (Console.cputchar dev c s.out)
        have hsame := (polled_same dev hq).1
        have hq' : NoReboot (arrive a { s with out := Console.cputchar dev c s.out }).shift
            (arrive a { s with out := Console.cputchar dev c s.out }).kbd := hq
        rw [getcUntil_quiet dev hq, getcUntil_quiet dev hq', hout]
        simp only
        split_ifs
        · rw [← hsame]
          exact ih _
        · rw [← hsame]
          rfl
      · have hq' : ¬ NoReboot (arrive a { s with out := Console.cputchar dev c s.out }).shift
            (arrive a { s with out := Console.cputchar dev c s.out }).kbd := hq
        rw [getcUntil_reset dev hq, getcUntil_reset dev hq']
        rfl

/-- no poll of the schedule resets the machine -/
def Machine.Safe (m : Machine) : Prop := m.1 = [] ∨ Quiet m

instance (m : Machine) : Decidable m.Safe := inferInstanceAs (Decidable (_ ∨ NoReboot _ _))

theorem safe_polled {a : List Byte × List Byte} {arrivals : List (List Byte × List Byte)} {s : State}
    (h : NoReboot s.shift (s.kbd ++ a.2)) :
    Machine.Safe (a :: arrivals, s) ↔ Machine.Safe (arrivals, (consGetc dev (arrive a s)).2) := by
  obtain ⟨-, hshift, hkbd⟩ := polled_same dev (a := a) (s := s) h
  have hquiet : Quiet (a :: arrivals, s) ↔ Quiet (arrivals, (consGetc dev (arrive a s)).2) := by
    unfold Quiet
    rw [List.flatMap_cons, ← List.append_assoc, noReboot_append, hshift, hkbd]
    exact and_iff_right h
  -- the poll has left no scancodes
  have hempty : arrivals = [] → Quiet (arrivals, (consGetc dev (arrive a s)).2) := by
    rintro rfl
    rw [Quiet, hkbd]
    trivial
  unfold Machine.Safe
  rw [hquiet, or_iff_right (List.cons_ne_nil a arrivals), or_iff_right_of_imp hempty]

/-- **A schedule** is read up to the reset, or to its end, and nothing has been printed before. -/
theorem reads_until (arrivals : List (List Byte × List Byte)) (s : State) :
    ∃ m, Reads (Machine.getcharUntil dev) (received dev (quietPart s.shift s.kbd arrivals) s) (arrivals, s) m ∧
      Machine.getcharUntil dev m = none ∧ m.2.out = s.out ∧
      (m.Safe ↔ Machine.Safe (arrivals, s)) := by
  induction arrivals generalizing s with
  | nil => exact ⟨([], s), .nil _, rfl, rfl, Iff.rfl⟩
  | cons a arrivals ih =>
    by_cases hq : NoReboot s.shift (s.kbd ++ a.2)
    · -- the poll returns
      have hnow : NoReboot (arrive a s).shift (arrive a s).kbd := hq
      have hpoll := getcUntil_quiet dev hnow
      have hsame := polled_same dev hnow
      obtain ⟨m, hr, hend, hout, hsafe⟩ := ih (consGetc dev (arrive a s)).2
      rw [hsame.1] at hout
      rw [hsame.2.1, hsame.2.2] at hr
      rw [← safe_polled dev hq] at hsafe
      rw [quietPart, if_pos hq, received]
      by_cases h0 : (consGetc dev (arrive a s)).1 = 0
      · -- getchar goes on to the next poll
        have hskip : Machine.getcharUntil dev (a :: arrivals, s) =
            Machine.getcharUntil dev (arrivals, (consGetc dev (arrive a s)).2) := by
          show getcharUntil dev (a :: arrivals) s = _
          rw [getcharUntil, hpoll]
          exact if_pos h0
        rw [List.filter_cons_of_neg (by simpa using h0), List.filter_nil, List.nil_append]
        generalize received dev _ (consGetc dev (arrive a s)).2 = l at hr ⊢
        cases hr with
        | nil => exact ⟨(a :: arrivals, s), .nil _, hskip.trans hend, rfl, Iff.rfl⟩
        | cons hget hr => exact ⟨m, .cons (hskip.trans hget) hr, hend, hout, hsafe⟩
      · have hget : Machine.getcharUntil dev (a :: arrivals, s) =
            some ((consGetc dev (arrive a s)).1, arrivals, (consGetc dev (arrive a s)).2) := by
          show getcharUntil dev (a :: arrivals) s = _
          rw [getcharUntil, hpoll]
          exact if_neg h0
        rw [List.filter_cons_of_pos (by simpa using h0), List.filter_nil]
        exact ⟨m, .cons hget hr, hend, hout, hsafe⟩
    · -- the machine is reset
      have hnow : ¬ NoReboot (arrive a s).shift (arrive a s).kbd := hq
      have hpoll := getcUntil_reset dev hnow
      rw [quietPart, if_neg hq, received]
      refine ⟨(a :: arrivals, s), .nil _, ?_, rfl, Iff.rfl⟩
      show getcharUntil dev (a :: arrivals) s = none
      rw [getcharUntil, hpoll]

/-- **A call that does not return** is waiting, or resets the machine. -/
theorem resetAt_blocked {arrivals : List (List Byte × List Byte)} {s : State} (h : getcharUntil dev arrivals s = none) :
    resetAt dev arrivals s = if Machine.Safe (arrivals, s) then none else some (rebooting dev s.out) := by
  induction arrivals generalizing s with
  | nil => exact (if_pos (Or.inl rfl)).symm
  | cons a arrivals ih =>
    rw [getcharUntil] at h
    rw [resetAt]
    by_cases hq : NoReboot s.shift (s.kbd ++ a.2)
    · have hnow : NoReboot (arrive a s).shift (arrive a s).kbd := hq
      rw [getcUntil_quiet dev hnow] at h ⊢
      simp only at h ⊢
      split_ifs at h with h0
      rw [if_pos h0, ih h, (polled_same dev hnow).1]
      simp only [safe_polled dev hq]
    · have hnow : ¬ NoReboot (arrive a s).shift (arrive a s).kbd := hq
      have hnot : ¬ Machine.Safe (a :: arrivals, s) := by
        rintro (hnil | hquiet)
        · cases hnil
        · rw [Quiet, List.flatMap_cons, ← List.append_assoc, noReboot_append] at hquiet
          exact hq hquiet.1
      rw [getcUntil_reset dev hnow, if_neg hnot]
      show resetIn dev _ (arrive a s) = _
      rw [resetIn_eq, if_neg hnow]
      rfl

end Polls

/-! ## Sessions -/

section Sessions

variable {k : Linker} {mem : ℕ → Word → Byte} {T : DebugInfo} {ebp : Word} {d : ℕ → ℕ} {n : ℕ}

/-- **Ctrl-Alt-Del.** For whatever the devices answer, and every schedule of serial bytes and scancodes: the monitor has
shown the session of the characters that came before, and is in the line that they leave, without a write to the reset
port. The call of getchar that it is in resets the machine exactly if a Del key goes down behind a prefix while Ctrl and
Alt are down, and a poll sees it; then the message stands behind the session. -/
theorem reset_exactly (hT : T.HasHeader) (hstack : ∀ i, Stack (mem i) ebp (d i)) (hn : ∀ i, d i < n) {τ : Type}
    (dev : ℕ → ℕ → Byte) (tf : τ) (s : State) (buf : ℤ → Byte) (arrivals : List (List Byte × List Byte)) :
    ∃ l, Holds (sessionLine k mem T ebp d (receivedBytes dev (quietPart s.shift s.kbd arrivals) s)) l ∧
      l.console.2.out =
        putText dev (sessionText k mem T ebp d (receivedBytes dev (quietPart s.shift s.kbd arrivals) s)) s.out ∧
      resets l.console.2.out = resets s.out ∧
      Gives (fun m => monitor (Machine.getcharUntil dev) (Machine.cputchar dev)
        (fun i => commands (Machine.cputchar dev) k (mem i) T n ebp) tf m ⟨(arrivals, s), buf, 0⟩) (.ok (.waiting l)) ∧
      l.console.resetAt dev = if arrivals = [] ∨ ¬ CtrlAltDel s.shift (s.kbd ++ arrivals.flatMap Prod.snd) then none
        else some (rebooting dev l.console.2.out) := by
  obtain ⟨m, hr, hend, hout, hsafe⟩ := reads_until dev arrivals s
  rw [← typed_receivedBytes] at hr
  obtain ⟨l, hl, hcon, hrun⟩ := monitor_is_shell (fun i => kernelTable k (mem i) T ebp (d i)) (Machine.cputchar dev)
    (separate_until dev) (fun i => commands (Machine.cputchar dev) k (mem i) T n ebp)
    (fun i => commands_print _ k hT (hstack i) (hn i)) tf _ trivial buf hr hend
  have hblocked := (separate_until dev).get_feed_none trivial hend (text welcome ++ text typeHelp ++ (text promptText ++
    (shell fun i => kernelTable k (mem i) T ebp (d i)).out (receivedBytes dev (quietPart s.shift s.kbd arrivals) s)
      ⟨0, []⟩))
  rw [← hcon] at hblocked
  have hreset : l.console.resetAt dev = _ := resetAt_blocked dev hblocked
  rw [feed_cputchar] at hcon
  have hsame : l.console.Safe ↔ arrivals = [] ∨ ¬ CtrlAltDel s.shift (s.kbd ++ arrivals.flatMap Prod.snd) := by
    rw [hcon, ← noReboot_iff]
    exact hsafe
  have hshown : l.console.2.out =
      putText dev (sessionText k mem T ebp d (receivedBytes dev (quietPart s.shift s.kbd arrivals) s)) s.out := by
    rw [hcon]
    exact congrArg (putText dev _) hout
  refine ⟨l, hl, hshown, ?_, hrun, ?_⟩
  · rw [hshown, putText_resets]
  · rw [hreset]
    exact if_congr hsame rfl rfl

end Sessions

/-- a line at the serial port while Ctrl and Alt go down, and Del behind its prefix two polls later -/
theorem reset_exactly_line :
    ∃ l, Holds [] l ∧ l.console.2.out = putText (fun _ _ => 0xFF) (sessionText linkMap (fun _ => frameMemory)
        Kdebug.monitorTable 0xf0109e58 (fun _ => 1) (bytes "x\n")) bootOut ∧
      Gives (fun m => monitor (Machine.getcharUntil fun _ _ => 0xFF) (Machine.cputchar fun _ _ => 0xFF)
        (fun _ => commands (Machine.cputchar fun _ _ => 0xFF) linkMap frameMemory Kdebug.monitorTable 2 0xf0109e58) () m
        ⟨([(bytes "x\n", [0x1D, 0x38]), ([], []), ([], [0xE0, 0x53])], (Trace.init bootOut true).state), fun _ => 0, 0⟩)
        (.ok (.waiting l)) ∧
      l.console.resetAt (fun _ _ => 0xFF) = some (rebooting (fun _ _ => 0xFF) l.console.2.out) := by
  obtain ⟨l, hl, hout, -, hrun, hreset⟩ := @reset_exactly linkMap (fun _ => frameMemory) Kdebug.monitorTable 0xf0109e58
    (fun _ => 1) 2 Kdebug.monitorTable_lined.header (fun _ => oneFrame) (fun _ => by decide) _ (fun _ _ => 0xFF) ()
    (Trace.init bootOut true).state (fun _ => 0) [(bytes "x\n", [0x1D, 0x38]), ([], []), ([], [0xE0, 0x53])]
  have hcs : receivedBytes (fun _ _ => 0xFF)
      (quietPart (Trace.init bootOut true).state.shift (Trace.init bootOut true).state.kbd [(bytes "x\n", [0x1D, 0x38]), ([], []), ([], [0xE0, 0x53])]) (Trace.init bootOut true).state = bytes "x\n" := by
    decide +kernel
  have hline : sessionLine linkMap (fun _ => frameMemory) Kdebug.monitorTable 0xf0109e58 (fun _ => 1) (bytes "x\n") =
      [] := by decide +kernel
  rw [hcs, hline] at hl
  rw [hcs] at hout
  refine ⟨l, hl, hout, hrun, hreset.trans (if_neg ?_)⟩
  decide +kernel

end Jos.Monitor
