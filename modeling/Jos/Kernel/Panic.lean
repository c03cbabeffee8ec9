/-
Panics: `_panic` of kern/init.c, and the one call of `panic`, in debuginfo_eip.

`_panic` does not return. It enters a monitor, in which a command may panic again, and so on: what has been called before
stays on the stack, and is never returned to. So the kernel is always in the loop around `monitor(NULL)` that was entered
last, and that of i386_init and that of `_panic` are the same loop. The stack that a line finds is a parameter.

- `monBacktrace_forget`: the backtrace of kern/monitor.c, where a panic is a fault.
- `survivor`: what such a kernel answers to each character.
- **`panics_survived`**: whatever the stacks, the kernel goes on, and tells once that it has panicked.
-/
import Jos.Monitor.Terminal

namespace Jos.Kernel

open Dialogue (Reads Separate Transducer getBeside putBeside feed_putBeside)
open Kdebug (DebugInfo debuginfoEip ULIM)
open Loop (Gives Runs)
open Monitor
open Printfmt (Arg Renders renders_str renders_dec signedText signedVal stringText)
open Readline (asCoded Holds Line typed)
open Sink (feed)

/-! ## Model -/

/-- the arguments of a call of `panic`, with the file and the line that the macro adds -/
structure Report where
  file : String
  line : ℤ
  fmt : String
  ap : List Arg

/-- a function that may panic: it returns, or `_panic` is called and finds the console so -/
inductive Exit (σ : Type) where
  | returns (s : σ)
  | panics (p : Report) (s : σ)

section Model

variable {σ : Type} (cputchar : Word → σ → σ)

/-- the three calls that print the message -/
def Report.print (p : Report) (s : σ) : Except Fault σ := do
  let s ← cprintf cputchar "kernel panic at %s:%d: "
    [.str (some (bytes p.file ++ [0#8])), .word (BitVec.ofInt 32 p.line)] s
  let s ← cprintf cputchar p.fmt p.ap s
  cprintf cputchar "\n" [] s

/-- `_panic(file, line, fmt, ...)`, as far as `dead`, from and with `panicstr` -/
def panic (p : Report) (panicstr : Option String) (s : σ) : Except Fault (Option String × σ) :=
  match panicstr with
  | some fmt => .ok (some fmt, s)
  | none => do
    let s ← p.print cputchar s
    .ok (some p.fmt, s)

variable (mem : Word → Byte) (T : DebugInfo)

/-- a frame, up to the call of debuginfo_eip -/
def frameHead (ebp : Word) (s : σ) : Except Fault σ := do
  let s ← cprintf cputchar "ebp %08x " [.word ebp] s
  let s ← cprintf cputchar "eip %08x " [.word (load mem (ebp + 4))] s
  let s ← cprintf cputchar "args " [] s
  let s ← (List.range 5).foldlM
    (fun s i => cprintf cputchar "%08x " [.word (load mem (ebp + 8 + 4 * BitVec.ofNat 32 i))] s) s
  cprintf cputchar "\n" [] s

/-- `frame` of the backtrace, with the panic of debuginfo_eip -/
def frameExit (ebp : Word) (s : σ) : Except Fault (Exit σ) := do
  let s ← frameHead cputchar mem ebp s
  match debuginfoEip T (load mem (ebp + 4)) with
  | .error (.panic fmt) => .ok (.panics ⟨"kern/kdebug.c", 132, fmt, []⟩ s)
  | .error f => .error (.debuginfo f)
  | .ok (rc, info) => do
    let s ← if rc = 0 then cprintf cputchar "%s:%d: %.*s+%d\n" (symbolArgs T info) s else pure s
    let s ← cprintf cputchar "\n" [] s
    .ok (.returns s)

def backtraceExitStep (st : Word × σ) : Option ((Word × σ) ⊕ Except Fault (Exit σ)) :=
  if st.1 = 0 then some (.inr (.ok (.returns st.2)))
  else match frameExit cputchar mem T st.1 st.2 with
    | .error f => some (.inr (.error f))
    | .ok (.panics p s) => some (.inr (.ok (.panics p s)))
    | .ok (.returns s) => some (.inl (load mem st.1, s))

/-- `mon_backtrace`, with fuel n -/
def backtraceExit (n : ℕ) (ebp : Word) (s : σ) : Option (Except Fault (Exit σ)) :=
  match cprintf cputchar "Stack backtrace\n" [] s with
  | .error f => some (.error f)
  | .ok s => Loop.run (backtraceExitStep cputchar mem T) n (ebp, s)

/-- for the monitor, a command that panics is one that does not go on: it leaves the call of `_panic` beside the console -/
def Exit.leaves : Exit σ → ℤ × (σ × Option Report)
  | .returns s => (0, s, none)
  | .panics p s => (-1, s, some p)

theorem help_nul : 0#8 ∉ bytes "help" := by decide

theorem kerninfo_nul : 0#8 ∉ bytes "kerninfo" := by decide

theorem backtrace_nul : 0#8 ∉ bytes "backtrace" := by decide

/-- `commands`, where the backtrace may panic -/
def commandsExit {τ : Type} (k : Linker) (n : ℕ) (ebp : Word) : List (Command τ (σ × Option Report)) :=
  [⟨bytes "help", help_nul, bytes "Display this list of commands", fun _ _ _ w =>
      some (monHelp (putBeside cputchar) helpTexts w)⟩,
    ⟨bytes "kerninfo", kerninfo_nul, bytes "Display information about the kernel", fun _ _ _ w =>
      some (monKerninfo (putBeside cputchar) k w)⟩,
    ⟨bytes "backtrace", backtrace_nul, bytes "Backtracing the stack", fun _ _ _ w =>
      (backtraceExit cputchar mem T n ebp w.console.1).map fun r =>
        (r.map fun e => (e.leaves.1, { w with console := e.leaves.2 })).mapError .monitor⟩]

end Model

/-- the console, `buf`, the lines run so far, and `panicstr` -/
structure Running (S : Type) where
  console : S
  buf : ℤ → Byte
  lines : ℕ
  panicstr : Option String

section Loop

variable {τ S : Type} (getchar : S → Option (ℤ × S)) (cputchar : Word → S → S)
  (commands : ℕ → List (Command τ (S × Option Report))) (tf : τ)

/-- `while (1) monitor(NULL);` of i386_init, and of each `_panic` that a monitor has been left with -/
def monitorAgain (n : ℕ) (s : Running S) : Option (Running S ⊕ Except SessionFault (Left (S × Option Report))) :=
  match monitor (getBeside getchar) (putBeside cputchar) commands tf n ⟨(s.console, none), s.buf, s.lines⟩ with
  | none => none
  | some (.error f) => some (.inr (.error f))
  | some (.ok (.waiting l)) => some (.inr (.ok (.waiting l)))
  | some (.ok (.returned ⟨(console, none), buf, lines⟩)) => some (.inl ⟨console, buf, lines, s.panicstr⟩)
  | some (.ok (.returned ⟨(console, some p), buf, lines⟩)) =>
    match panic cputchar p s.panicstr console with
    | .error f => some (.inr (.error (.printf f)))
    | .ok (panicstr, console) => some (.inl ⟨console, buf, lines, panicstr⟩)

end Loop

/-! ## The backtrace -/

/-- a panic as a fault -/
def Exit.forget {σ : Type} : Exit σ → Except Fault σ
  | .returns s => .ok s
  | .panics p _ => .error (.debuginfo (.panic p.fmt))

section Backtrace

variable {σ : Type} (cputchar : Word → σ → σ) (mem : Word → Byte) {T : DebugInfo}

theorem frame_forget (ebp : Word) (s : σ) :
    frame cputchar mem T ebp s = frameExit cputchar mem T ebp s >>= Exit.forget := by
  simp only [frame, frameExit, frameHead, bind_assoc]
  refine congrArg _ (funext fun s => congrArg _ (funext fun s => congrArg _ (funext fun s => congrArg _ (funext fun s =>
    congrArg _ (funext fun s => ?_)))))
  cases debuginfoEip T (load mem (ebp + 4)) with
  | error f => cases f <;> rfl
  | ok r =>
    obtain ⟨rc, info⟩ := r
    have hlast : ∀ s, cprintf cputchar "\n" [] s =
        (cprintf cputchar "\n" [] s >>= fun s => .ok (Exit.returns s)) >>= Exit.forget := by
      intro s
      cases cprintf cputchar "\n" [] s <;> rfl
    show (if rc = 0 then _ else _) = (if rc = 0 then _ else _) >>= Exit.forget
    split_ifs
    · rw [bind_assoc]
      exact congrArg _ (funext hlast)
    · exact hlast s

/-- **The backtrace** of the model without panics is this one, with the panic forgotten. -/
theorem monBacktrace_forget (n : ℕ) (ebp : Word) (s : σ) :
    monBacktrace cputchar mem T n ebp s =
      (backtraceExit cputchar mem T n ebp s).map fun r => (r >>= Exit.forget).map fun s => (0, s) := by
  rw [monBacktrace, backtraceExit]
  cases cprintf cputchar "Stack backtrace\n" [] s with
  | error f => rfl
  | ok s =>
    have hstep : ∀ st, backtraceStep cputchar mem T st =
        (backtraceExitStep cputchar mem T st).map (Sum.map id (· >>= Exit.forget)) := by
      intro st
      rw [backtraceStep, backtraceExitStep, frame_forget]
      split_ifs
      · rfl
      · cases frameExit cputchar mem T st.1 st.2 with
        | error f => rfl
        | ok e => cases e <;> rfl
    show (Loop.run _ n (ebp, s)).map _ = (Loop.run _ n (ebp, s)).map _
    rw [Loop.run_map _ hstep, Option.map_map]
    rfl

theorem exit_of_forget {x : Except Fault (Exit σ)} {s : σ} (h : x >>= Exit.forget = .ok s) : x = .ok (.returns s) := by
  obtain ⟨e, rfl, he⟩ := bind_ok h
  cases e with
  | returns s' =>
    cases he
    rfl
  | panics p s' => cases he

/-- a chain of d frames that return into the kernel; then it ends, or a frame with a user address follows -/
structure Walk (mem : Word → Byte) (ebp : Word) (d : ℕ) : Prop where
  frames : ∀ j < d, savedEbp mem ebp j ≠ 0 ∧ ULIM ≤ retAddr mem (savedEbp mem ebp j)
  last : savedEbp mem ebp d = 0 ∨ retAddr mem (savedEbp mem ebp d) < ULIM

theorem frameHead_eq (ebp : Word) (s : σ) :
    frameHead cputchar mem ebp s = .ok (feed cputchar s (frameLine mem ebp ++ text "\n")) := by
  have hebp : ∀ s, cprintf cputchar "ebp %08x " [.word ebp] s = _ :=
    cprintf_eq cputchar (renders_named "ebp " (by decide) ebp)
  have heip : ∀ s, cprintf cputchar "eip %08x " [.word (load mem (ebp + 4))] s = _ :=
    cprintf_eq cputchar (renders_named "eip " (by decide) (load mem (ebp + 4)))
  have hline : frameLine mem ebp = text "ebp " ++ (hex8 ebp ++ text " ") ++
      (text "eip " ++ (hex8 (load mem (ebp + 4)) ++ text " ")) ++ text "args " ++
      (List.range 5).flatMap fun i => hex8 (arg mem ebp i) ++ text " " := by
    have h1 : text " eip " = text " " ++ text "eip " := rfl
    have h2 : text " args " = text " " ++ text "args " := rfl
    rw [frameLine, h1, h2, retAddr]
    simp only [List.append_assoc]
  rw [frameHead, hebp, ok_bind, heip, ok_bind, cprintf_eq cputchar (renders_text "args " (by decide +kernel)), ok_bind,
    args_eq, ok_bind, cprintf_eq cputchar (renders_text "\n" (by decide +kernel)), hline]
  simp only [Sink.feed_append]

theorem frameExit_kernel (hT : T.HasHeader) {ebp : Word} (h : ULIM ≤ retAddr mem ebp) (s : σ) :
    frameExit cputchar mem T ebp s = .ok (.returns (feed cputchar s
      (frameText mem T ebp (looked T (retAddr mem ebp)).1 (looked T (retAddr mem ebp)).2))) := by
  refine exit_of_forget ((frame_forget cputchar mem ebp s).symm.trans (frame_eq cputchar mem ?_ s))
  rcases Kdebug.debuginfoEip_cases hT h with ⟨-, hok⟩ | ⟨info, _, _, _, _, _, _, _, _, hok, -⟩
  · rw [looked, hok]
  · rw [looked, hok]

/-- the call in debuginfo_eip -/
def userAddress : Report := ⟨"kern/kdebug.c", 132, "User address", []⟩

theorem frameExit_user {ebp : Word} (h : retAddr mem ebp < ULIM) (s : σ) :
    frameExit cputchar mem T ebp s = .ok (.panics userAddress (feed cputchar s (frameLine mem ebp ++ text "\n"))) := by
  have hlookup : debuginfoEip T (load mem (ebp + 4)) = .error (.panic "User address") := if_pos h
  rw [frameExit, frameHead_eq, ok_bind, hlookup]
  rfl

/-- what a backtrace of the walk prints, and whether it panics then -/
def walkText (mem : Word → Byte) (T : DebugInfo) (ebp : Word) (d : ℕ) : List Word :=
  backtraceText mem T ebp d ++ if savedEbp mem ebp d = 0 then [] else frameLine mem (savedEbp mem ebp d) ++ text "\n"

def walkExit (mem : Word → Byte) (ebp : Word) (d : ℕ) (s : σ) : Exit σ :=
  if savedEbp mem ebp d = 0 then .returns s else .panics userAddress s

/-- **A backtrace** over a chain of any length, which may end in a panic -/
theorem backtraceExit_eq (hT : T.HasHeader) {ebp : Word} {d : ℕ} (h : Walk mem ebp d) {n : ℕ} (hn : d < n) (s : σ) :
    backtraceExit cputchar mem T n ebp s = some (.ok (walkExit mem ebp d (feed cputchar s (walkText mem T ebp d)))) := by
  -- the console after j frames
  set out : ℕ → σ := fun j => feed cputchar s (backtraceText mem T ebp j) with hout
  have hstep : ∀ j < d, backtraceExitStep cputchar mem T (savedEbp mem ebp j, out j) =
      some (.inl (savedEbp mem ebp (j + 1), out (j + 1))) := by
    intro j hj
    obtain ⟨hne, hret⟩ := h.frames j hj
    have hnext : out (j + 1) = feed cputchar (out j) (frameText mem T (savedEbp mem ebp j)
        (looked T (retAddr mem (savedEbp mem ebp j))).1 (looked T (retAddr mem (savedEbp mem ebp j))).2) := by
      simp [hout, backtraceText, List.range_succ]
    rw [backtraceExitStep, if_neg hne, frameExit_kernel cputchar mem hT hret, savedEbp_succ, hnext]
  have hdone : backtraceExitStep cputchar mem T (savedEbp mem ebp d, out d) =
      some (.inr (.ok (walkExit mem ebp d (feed cputchar s (walkText mem T ebp d))))) := by
    rw [walkExit, walkText, Sink.feed_append]
    by_cases h0 : savedEbp mem ebp d = 0
    · rw [if_pos h0, if_pos h0]
      exact if_pos h0
    · rw [if_neg h0, if_neg h0, backtraceExitStep, if_neg h0, frameExit_user cputchar mem (h.last.resolve_left h0)]
  have hstart : feed cputchar s (text "Stack backtrace\n") = out 0 := by
    rw [hout]
    simp [backtraceText]
  rw [backtraceExit, cprintf_eq cputchar (renders_text "Stack backtrace\n" (by decide +kernel)), hstart]
  exact Loop.run_steps hstep hdone hn

end Backtrace

/-! ## Replies -/

/-- the message of `_panic` -/
def Report.Says (p : Report) (t : List Word) : Prop :=
  ∃ m, Renders (bytes p.fmt) p.ap m ∧ 0#8 ∉ bytes p.file ∧
    t = text "kernel panic at " ++ stringText (chr ' ') (-1) (-1) false (bytes p.file) ++ text ":" ++
      signedText (signedVal 0 p.line) ++ text ": " ++ m ++ text "\n"

section Reports

variable {S : Type} (cputchar : Word → S → S)

theorem print_says {p : Report} {t : List Word} (h : p.Says t) (s : S) :
    p.print cputchar s = .ok (feed cputchar s t) := by
  obtain ⟨m, hm, hfile, rfl⟩ := h
  have hname := (renders_str (p := bytes p.file ++ [0#8]) (by simp)).1
  rw [cstr_append hfile] at hname
  have hplace := (((renders_text "kernel panic at " (by decide +kernel)).append hname).append
    (renders_text ":" (by decide +kernel))).append (renders_dec p.line)
  have hplace := hplace.append (renders_text ": " (by decide +kernel))
  have hfmt : bytes "kernel panic at %s:%d: " =
      bytes "kernel panic at " ++ bytes "%s" ++ bytes ":" ++ bytes "%d" ++ bytes ": " := by decide +kernel
  rw [← hfmt] at hplace
  have hfirst : cprintf cputchar "kernel panic at %s:%d: "
      [.str (some (bytes p.file ++ [0#8])), .word (BitVec.ofInt 32 p.line)] s = _ := cprintf_eq cputchar hplace s
  rw [Report.print, hfirst, ok_bind, cprintf_eq cputchar hm, ok_bind,
    cprintf_eq cputchar (renders_text "\n" (by decide +kernel))]
  simp only [Sink.feed_append]

theorem panic_says {p : Report} {t : List Word} (h : p.Says t) (panicstr : Option String) (s : S) :
    ∃ fmt, panic cputchar p panicstr s = .ok (some fmt, feed cputchar s (if panicstr.isSome then [] else t)) := by
  cases panicstr with
  | some fmt => exact ⟨fmt, rfl⟩
  | none =>
    refine ⟨p.fmt, ?_⟩
    rw [panic, print_says cputchar h, ok_bind]
    rfl

end Reports

/-- the name of a command, its text, and its message if it panics -/
structure Reply where
  name : List Byte
  text : List Word
  report : Option (List Word)

/-- what the monitor gets back -/
def status (q : Option Report) : ℤ := if q.isSome then -1 else 0

/-- the command prints the text; then it returns 0, or has panicked -/
def Acts {τ S : Type} (cputchar : Word → S → S) (c : Command τ (S × Option Report)) (e : Reply) : Prop :=
  c.name = e.name ∧ ∃ q, Option.Rel Report.Says q e.report ∧ ∀ argc argv tf buf console,
    c.func argc argv tf ⟨buf, (console, none)⟩ = some (.ok (status q, ⟨buf, (feed cputchar console e.text, q)⟩))

def named (table : List Reply) (name : List Byte) : Reply :=
  (table.find? fun e => e.name = name).getD ⟨name, unknownText name, none⟩

/-- what a line is answered, and the message if it panics -/
def reply (table : List Reply) (l : List Byte) : List Word × Option (List Word) :=
  if 15 < (Words.words white l).length then (tooManyText, none)
  else match (Words.words white l).head? with
    | none => ([], none)
    | some name => ((named table name).text, (named table name).report)

section Replies

variable {τ S : Type} (cputchar : Word → S → S)

theorem dispatch_acts {commands : List (Command τ (S × Option Report))} {table : List Reply}
    (h : List.Forall₂ (Acts cputchar) commands table) (name : List Byte) :
    ∃ q, Option.Rel Report.Says q (named table name).report ∧ ∀ argc argv tf buf console,
      dispatch (putBeside cputchar) commands name argc argv tf ⟨buf, (console, none)⟩ =
        some (.ok (status q, ⟨buf, (feed cputchar console (named table name).text, q)⟩)) := by
  induction h with
  | nil =>
    refine ⟨none, .none, fun argc argv tf buf console => ?_⟩
    show some (Except.ok (0, (⟨buf, feed (putBeside cputchar) (console, none) (unknownText name)⟩ : World _))) = _
    rw [feed_putBeside]
    rfl
  | @cons c e cs es hc _ ih =>
    obtain ⟨hname, q, hq, hact⟩ := hc
    unfold dispatch named at ih ⊢
    rw [List.find?_cons]
    by_cases he : e.name = name
    · refine ⟨q, ?_, fun argc argv tf buf console => ?_⟩
      · simp only [he, decide_true]
        exact hq
      · rw [List.find?_cons, hname]
        simp only [he, decide_true, hact]
        rfl
    · obtain ⟨q, hq, hrest⟩ := ih
      refine ⟨q, ?_, fun argc argv tf buf console => ?_⟩
      · simp only [he, decide_false]
        exact hq
      · rw [List.find?_cons, hname]
        simp only [he, decide_false]
        exact hrest argc argv tf buf console

theorem runcmd_acts {commands : List (Command τ (S × Option Report))} {table : List Reply}
    (h : List.Forall₂ (Acts cputchar) commands table) {l : List Byte} (h0 : 0#8 ∉ l) (rest : List Byte) (tf : τ) :
    ∃ buf q, Option.Rel Report.Says q (reply table l).2 ∧ ∀ console n, l.length < n →
      runcmd (putBeside cputchar) commands n tf ⟨l ++ 0#8 :: rest, (console, none)⟩ =
        some (.ok (status q, ⟨buf, (feed cputchar console (reply table l).1, q)⟩)) := by
  obtain ⟨l', argv, -, -, hrun⟩ := runcmd_splits (τ := τ) (putBeside cputchar) h0 rest
  unfold reply
  split_ifs with hgt
  · refine ⟨l' ++ 0#8 :: rest, none, .none, fun console n hn => ?_⟩
    rw [(hrun commands tf (console, none) n hn).2.1 hgt, feed_putBeside]
    rfl
  · cases hw : (Words.words white l).head? with
    | none =>
      refine ⟨l' ++ 0#8 :: rest, none, .none, fun console n hn => ?_⟩
      exact (hrun commands tf (console, none) n hn).1 (List.head?_eq_none_iff.1 hw)
    | some name =>
      obtain ⟨q, hq, hact⟩ := dispatch_acts (τ := τ) cputchar h name
      refine ⟨l' ++ 0#8 :: rest, q, hq, fun console n hn => ?_⟩
      rw [(hrun commands tf (console, none) n hn).2.2 name hw (Nat.not_lt.1 hgt), hact]

end Replies

/-! ## The machine -/

/-- the lines answered so far, the text of the one being typed, and whether the kernel has panicked -/
structure Watch where
  lines : ℕ
  text : List Byte
  panicked : Bool
deriving DecidableEq, Repr

/-- the answer to a line: a kernel that panics enters a monitor, and the first time says so before -/
def aftermath (panicked : Bool) (r : List Word × Option (List Word)) : List Word :=
  r.1 ++ r.2.elim [] fun t => (if panicked then [] else t) ++ (text welcome ++ text typeHelp)

def survivor (tables : ℕ → List Reply) : Transducer Byte Word Watch where
  next c t :=
    if isLineEnd c then ⟨t.lines + 1, [], t.panicked || (reply (tables t.lines) t.text).2.isSome⟩
    else ⟨t.lines, asCoded.next c t.text, t.panicked⟩
  sends c t :=
    if isLineEnd c then
      uchar (chr '\n') :: (aftermath t.panicked (reply (tables t.lines) t.text) ++ text promptText)
    else (asCoded.sends c t.text).map uchar

section Machine

variable (tables : ℕ → List Reply)

theorem survivor_edits (k : ℕ) (panicked : Bool) (c : Byte) (t : List Byte) (hc : ¬ isLineEnd c) :
    (survivor tables).next c ⟨k, t, panicked⟩ = ⟨k, asCoded.next c t, panicked⟩ ∧
      (survivor tables).sends c ⟨k, t, panicked⟩ = (asCoded.sends c t).map uchar :=
  ⟨if_neg hc, if_neg hc⟩

/-- a line that has not ended -/
theorem survivor_typing {cs : List Byte} (hcs : ∀ c ∈ cs, ¬ isLineEnd c) (t : Watch) :
    (survivor tables).state cs t = ⟨t.lines, asCoded.text cs t.text, t.panicked⟩ ∧
      (survivor tables).out cs t = (asCoded.sent cs t.text).map uchar :=
  @typing_edits Watch (survivor tables) (fun x => ⟨t.lines, x, t.panicked⟩) (survivor_edits tables t.lines t.panicked) cs hcs
    t.text

/-- a whole line, and what comes behind it -/
theorem survivor_line {cs : List Byte} (hcs : ∀ c ∈ cs, ¬ isLineEnd c) {e : Byte} (he : isLineEnd e) (rest : List Byte)
    (k : ℕ) (panicked : Bool) :
    let r := reply (tables k) (asCoded.text cs [])
    (survivor tables).state (cs ++ e :: rest) ⟨k, [], panicked⟩ =
        (survivor tables).state rest ⟨k + 1, [], panicked || r.2.isSome⟩ ∧
      (survivor tables).out (cs ++ e :: rest) ⟨k, [], panicked⟩ = (asCoded.sent cs []).map uchar ++
        (uchar (chr '\n') :: (aftermath panicked r ++ text promptText) ++
          (survivor tables).out rest ⟨k + 1, [], panicked || r.2.isSome⟩) :=
  @line_edits Watch (survivor tables) (fun x => ⟨k, x, panicked⟩) (survivor_edits tables k panicked) cs hcs e _ _ (if_pos he)
    (if_pos he) rest

end Machine

/-! ## The loops -/

section Loops

variable {τ S : Type} (tables : ℕ → List Reply) {getchar : S → Option (ℤ × S)} (cputchar : Word → S → S) {I : S → Prop}
  (hS : Separate getchar cputchar I) (commands : ℕ → List (Command τ (S × Option Report)))
  (h : ∀ k, List.Forall₂ (Acts cputchar) (commands k) (tables k)) (tf : τ)

/-- from here on the kernel comes to wait in l: in the monitor it is in, or after it has panicked there -/
def Leads (getchar : S → Option (ℤ × S)) (s : Session (S × Option Report)) (panicstr : Option String)
    (l : Line (S × Option Report)) : Prop :=
  Runs (monitorBody (getBeside getchar) (putBeside cputchar) commands tf) s (.ok (.waiting l)) ∨
  ∃ console p buf lines panicstr' console',
    Runs (monitorBody (getBeside getchar) (putBeside cputchar) commands tf) s
      (.ok (.returned ⟨(console, some p), buf, lines⟩)) ∧
    panic cputchar p panicstr console = .ok (panicstr', console') ∧
    Runs (monitorAgain getchar cputchar commands tf) ⟨console', buf, lines, panicstr'⟩ (.ok (.waiting l))

/-- a monitor that is entered -/
theorem again_of_leads {console : S} {buf : ℤ → Byte} {lines : ℕ} {panicstr : Option String}
    {l : Line (S × Option Report)}
    (hl : Leads cputchar commands tf getchar ⟨(feed cputchar console (text welcome ++ text typeHelp), none), buf, lines⟩
      panicstr l) :
    Runs (monitorAgain getchar cputchar commands tf) ⟨console, buf, lines, panicstr⟩ (.ok (.waiting l)) := by
  have henter : ∀ n, monitor (getBeside getchar) (putBeside cputchar) commands tf n ⟨(console, none), buf, lines⟩ =
      Loop.run (monitorBody (getBeside getchar) (putBeside cputchar) commands tf n) n
        ⟨(feed cputchar console (text welcome ++ text typeHelp), none), buf, lines⟩ := by
    intro n
    rw [monitor_enters, feed_putBeside]
  rcases hl with hwait | ⟨console', p, buf', lines', panicstr', console'', hleft, hpanic, hrest⟩
  · obtain ⟨N, hN⟩ := hwait.gives
    refine .done ⟨N, fun n hn => ?_⟩
    show monitorAgain _ _ _ _ n _ = _
    simp only [monitorAgain, henter, hN n hn]
  · obtain ⟨N, hN⟩ := hleft.gives
    refine .again ⟨N, fun n hn => ?_⟩ hrest
    show monitorAgain _ _ _ _ n _ = _
    simp only [monitorAgain, henter, hN n hn, hpanic]

include hS h

/-- a line is read and run -/
theorem monitorBody_acts {cs : List Byte} (hcs : ∀ c ∈ cs, ¬ isLineEnd c) {e : Byte} (he : isLineEnd e) {s s' : S}
    (hI : I s) (w : List Word) (buf : ℤ → Byte) (k : ℕ) (hr : Reads getchar (typed (cs ++ [e])) s s') :
    ∃ buf' q, Option.Rel Report.Says q (reply (tables k) (asCoded.text cs [])).2 ∧
      Gives (fun n =>
          monitorBody (getBeside getchar) (putBeside cputchar) commands tf n ⟨(feed cputchar s w, none), buf, k⟩)
        (if status q < 0 then .inr (.ok (.returned ⟨(feed cputchar s' (w ++ (text promptText ++
            (asCoded.sent cs []).map uchar) ++ [uchar (chr '\n')] ++ (reply (tables k) (asCoded.text cs [])).1), q), buf',
              k + 1⟩))
        else .inl ⟨(feed cputchar s' (w ++ (text promptText ++ (asCoded.sent cs []).map uchar) ++ [uchar (chr '\n')] ++
            (reply (tables k) (asCoded.text cs [])).1), q), buf', k + 1⟩) := by
  obtain ⟨l, hbuf, hlen, hcon, N, hN⟩ := Readline.readlineFrom_ends hS.beside prompt_ok buf
    (fun c hc => not_or.1 (hcs c hc)) (s := (s, (none : Option Report))) hI w he (hr.beside none)
  rw [Readline.echoed, promptChars_eq, feed_putBeside] at hcon
  rw [feed_putBeside] at hN
  obtain ⟨rest, hrest⟩ := lineBuffer_eq hbuf hlen
  obtain ⟨buf', q, hq, hrun⟩ := runcmd_acts cputchar (h k) (text_nul cs) rest tf
  refine ⟨writeBack buf' l.buf, q, hq, max N 1024, fun n hn => ?_⟩
  show monitorBody _ _ _ _ n _ = _
  simp only [monitorBody, hN n (by omega), hrest, hcon, hrun _ n (by omega), ← Sink.feed_append]

/-- **The loops**, from the prompt of any line on -/
theorem loops_lead (cs : List Byte) {s s' : S} (hI : I s) (w : List Word) (buf : ℤ → Byte) (k : ℕ)
    (panicstr : Option String) (hr : Reads getchar (typed cs) s s') (hend : getchar s' = none) :
    ∃ l, Holds ((survivor tables).state cs ⟨k, [], panicstr.isSome⟩).text l ∧
      l.console = (feed cputchar s' (w ++ (text promptText ++ (survivor tables).out cs ⟨k, [], panicstr.isSome⟩)), none) ∧
      Leads cputchar commands tf getchar ⟨(feed cputchar s w, none), buf, k⟩ panicstr l := by
  induction hm : cs.length using Nat.strong_induction_on generalizing cs s w buf k panicstr with
  | _ m ih =>
    rcases line_split cs with hcs | ⟨p, e, q, rfl, hp, he⟩
    · have hnone : getBeside getchar (s', (none : Option Report)) = none := by
        rw [getBeside, hend]
        rfl
      obtain ⟨l, hl, hcon, hrun⟩ := monitorBody_waits (putBeside cputchar) hS.beside commands tf hcs
        (s := (s, (none : Option Report))) hI w buf k (hr.beside none) hnone
      rw [feed_putBeside] at hcon hrun
      obtain ⟨hstate, hout⟩ := survivor_typing tables hcs ⟨k, [], panicstr.isSome⟩
      exact ⟨l, by rw [hstate]; exact hl, by rw [hout]; exact hcon, Or.inl (.done hrun)⟩
    · have hsplit : typed (p ++ e :: q) = typed (p ++ [e]) ++ typed q := by simp [typed]
      rw [hsplit] at hr
      obtain ⟨s₁, hr₁, hr₂⟩ := hr.split
      have hI₁ := hr₁.inv hS hI
      obtain ⟨buf', rep, hrep, hline⟩ := monitorBody_acts tables cputchar hS commands h tf hp he hI w buf k hr₁
      have hlen : q.length < m := by
        rw [← hm, List.length_append, List.length_cons]
        omega
      obtain ⟨hstate, hout⟩ := survivor_line tables hp he q k panicstr.isSome
      generalize reply (tables k) (asCoded.text p []) = r at hrep hline hstate hout
      obtain ⟨answer, message⟩ := r
      cases hrep with
      | none =>
        -- the command returns
        rw [if_neg (by decide)] at hline
        obtain ⟨l, hl, hcon, hlead⟩ := ih q.length hlen q hI₁ (w ++ (text promptText ++ (asCoded.sent p []).map uchar) ++
          [uchar (chr '\n')] ++ answer) buf' (k + 1) panicstr hr₂ rfl
        simp only [Option.isSome_none, Bool.or_false] at hstate hout
        refine ⟨l, by rw [hstate]; exact hl, ?_, ?_⟩
        · rw [hcon, hout, aftermath]
          simp only [Option.elim_none, List.append_assoc, List.cons_append, List.nil_append, List.append_nil]
        · rcases hlead with hwait | ⟨console, r, buf'', lines, panicstr', console', hleft, hpanic, hrest⟩
          · exact Or.inl (.again hline hwait)
          · exact Or.inr ⟨console, r, buf'', lines, panicstr', console', .again hline hleft, hpanic, hrest⟩
      | @some r t hsays =>
        -- the command panics, and a monitor is entered
        have hleft : status (some r) < 0 := by
          show (-1 : ℤ) < 0
          decide
        rw [if_pos hleft] at hline
        obtain ⟨fmt, hpanic⟩ := panic_says cputchar hsays panicstr (feed cputchar s₁
          (w ++ (text promptText ++ (asCoded.sent p []).map uchar) ++ [uchar (chr '\n')] ++ answer))
        rw [← Sink.feed_append] at hpanic
        obtain ⟨l, hl, hcon, hlead⟩ := ih q.length hlen q hI₁ (w ++ (text promptText ++ (asCoded.sent p []).map uchar) ++
          [uchar (chr '\n')] ++ answer ++ (if panicstr.isSome then [] else t) ++ (text welcome ++ text typeHelp)) buf'
          (k + 1) (some fmt) hr₂ rfl
        simp only [Option.isSome_some, Bool.or_true] at hstate hout hl hcon
        refine ⟨l, by rw [hstate]; exact hl, ?_, Or.inr ⟨_, r, buf', k + 1, some fmt, _, .done hline, hpanic, ?_⟩⟩
        · rw [hcon, hout, aftermath]
          simp only [Option.elim_some, List.append_assoc, List.cons_append, List.nil_append]
        · apply again_of_leads
          rw [← Sink.feed_append]
          exact hlead

/-- **A kernel that panics** goes on in another monitor. -/
theorem monitorAgain_survives (cs : List Byte) {s s' : S} (hI : I s) (buf : ℤ → Byte)
    (hr : Reads getchar (typed cs) s s') (hend : getchar s' = none) :
    ∃ l, Holds ((survivor tables).state cs ⟨0, [], false⟩).text l ∧
      l.console.1 = feed cputchar s' (text welcome ++ text typeHelp ++
        (text promptText ++ (survivor tables).out cs ⟨0, [], false⟩)) ∧
      Gives (fun n => Loop.run (monitorAgain getchar cputchar commands tf n) n ⟨s, buf, 0, none⟩) (.ok (.waiting l)) := by
  obtain ⟨l, hl, hcon, hlead⟩ := loops_lead tables cputchar hS commands h tf cs hI (text welcome ++ text typeHelp) buf 0
    none hr hend
  exact ⟨l, hl, congrArg Prod.fst hcon, (again_of_leads cputchar commands tf hlead).gives⟩

end Loops

/-! ## The kernel -/

def userAddressText : List Word := text "kernel panic at kern/kdebug.c:132: User address\n"

theorem userAddress_says : userAddress.Says userAddressText :=
  ⟨text "User address", renders_text "User address" (by decide +kernel), by decide +kernel, by decide +kernel⟩

/-- the commands and what they print, with the stack as the command finds it -/
def replies (k : Linker) (mem : Word → Byte) (T : DebugInfo) (ebp : Word) (d : ℕ) : List Reply :=
  [⟨bytes "help", helpText, none⟩, ⟨bytes "kerninfo", kerninfoText k, none⟩,
    ⟨bytes "backtrace", walkText mem T ebp d, if savedEbp mem ebp d = 0 then none else some userAddressText⟩]

theorem commandsExit_act {τ S : Type} (cputchar : Word → S → S) (k : Linker) {mem : Word → Byte} {T : DebugInfo}
    (hT : T.HasHeader) {ebp : Word} {d n : ℕ} (h : Walk mem ebp d) (hn : d < n) :
    List.Forall₂ (Acts cputchar) (commandsExit cputchar mem T k n ebp : List (Command τ (S × Option Report)))
      (replies k mem T ebp d) := by
  rw [commandsExit, replies, List.forall₂_cons, List.forall₂_cons, List.forall₂_cons]
  refine ⟨⟨rfl, none, .none, fun _ _ _ buf console => ?_⟩, ⟨rfl, none, .none, fun _ _ _ buf console => ?_⟩,
    ⟨rfl, if savedEbp mem ebp d = 0 then none else some userAddress, ?_, fun _ _ _ buf console => ?_⟩, .nil⟩
  · show some (monHelp _ _ _) = _
    rw [monHelp_eq, feed_putBeside]
    rfl
  · show some (monKerninfo _ _ _) = _
    rw [monKerninfo_eq, feed_putBeside]
    rfl
  · show Option.Rel Report.Says _ (if savedEbp mem ebp d = 0 then none else some userAddressText)
    split_ifs
    · exact .none
    · exact .some userAddress_says
  · simp only [backtraceExit_eq cputchar mem hT h hn, walkExit]
    split_ifs <;> rfl

/-- **Panics.** Whatever stack a line finds, as long as the chain of frames ends, be it in a frame with a user address: for
whatever the devices answer, and every schedule without Ctrl-Alt-Del, the kernel shows the answers of its commands. Where
a backtrace meets the user address, it has printed the frames up to there, and a monitor is entered with its welcome,
behind the message if it is the first panic; and the kernel is waiting in a line. -/
theorem panics_survived {τ : Type} (k : Linker) {T : DebugInfo} (hT : T.HasHeader) (mem : ℕ → Word → Byte) (ebp : ℕ → Word)
    (d : ℕ → ℕ) (hwalk : ∀ i, Walk (mem i) (ebp i) (d i)) {n : ℕ} (hn : ∀ i, d i < n) (dev : ℕ → ℕ → Byte) (tf : τ)
    (s : Console.State) (buf : ℤ → Byte) (arrivals : List (List Byte × List Byte)) (hq : Quiet (arrivals, s)) :
    ∃ l, Holds ((survivor fun i => replies k (mem i) T (ebp i) (d i)).state (receivedBytes dev arrivals s)
        ⟨0, [], false⟩).text l ∧
      l.console.1.2.out = Console.putText dev (text welcome ++ text typeHelp ++ (text promptText ++
        (survivor fun i => replies k (mem i) T (ebp i) (d i)).out (receivedBytes dev arrivals s) ⟨0, [], false⟩)) s.out ∧
      Gives (fun m => Loop.run (monitorAgain (Machine.getchar dev) (Machine.cputchar dev)
        (fun i => commandsExit (Machine.cputchar dev) (mem i) T k n (ebp i)) tf m) m ⟨(arrivals, s), buf, 0, none⟩)
        (.ok (.waiting l)) := by
  obtain ⟨m, hr, hend, hout⟩ := reads_schedule dev arrivals hq
  rw [← typed_receivedBytes] at hr
  obtain ⟨l, hl, hcon, hrun⟩ := monitorAgain_survives (fun i => replies k (mem i) T (ebp i) (d i)) (Machine.cputchar dev)
    (separate_devices dev) (fun i => commandsExit (Machine.cputchar dev) (mem i) T k n (ebp i))
    (fun i => commandsExit_act (Machine.cputchar dev) k hT (hwalk i) (hn i)) tf _ hq buf hr hend
  refine ⟨l, hl, ?_, hrun⟩
  rw [hcon, feed_cputchar]
  exact congrArg (Console.putText dev _) hout

/-- a frame at f0109e58 that returns to 00100a62 -/
def userFrame (a : Word) : Byte :=
  ([0, 0, 0, 0, 0x62, 0x0a, 0x10, 0, 1] : List Byte).getD (a - 0xf0109e58).toNat 0

def userFrameText : String :=
  "Stack backtrace\nebp f0109e58 eip 00100a62 args 00000001 00000000 00000000 00000000 00000000 \n"

/-- two backtraces, of which the first one tells that the kernel has panicked -/
theorem panics_survived_twice : ∃ l, Holds [] l ∧
    l.console.1.2.out = Console.putText (fun _ _ => 0xFF) (text welcome ++ text typeHelp ++ (text "K> backtrace\n" ++
      (text userFrameText ++ text "kernel panic at kern/kdebug.c:132: User address\n" ++ text welcome ++ text typeHelp) ++
      (text "K> backtrace\n" ++ text userFrameText ++ text welcome ++ text typeHelp) ++ text "K> ")) Console.bootOut ∧
    Gives (fun m => Loop.run (monitorAgain (Machine.getchar fun _ _ => 0xFF) (Machine.cputchar fun _ _ => 0xFF)
      (fun _ => commandsExit (Machine.cputchar fun _ _ => 0xFF) userFrame Kdebug.monitorTable linkMap 1 0xf0109e58) () m) m
      ⟨(serialOnly (bytes "backtrace\n" :: bytes "backtrace\n" :: List.replicate 18 []),
        (Console.Trace.init Console.bootOut true).state), fun _ => 0, 0, none⟩) (.ok (.waiting l)) := by
  obtain ⟨l, hl, hout, hrun⟩ := panics_survived linkMap (T := Kdebug.monitorTable) Kdebug.monitorTable_lined.header
    (fun _ => userFrame) (fun _ => 0xf0109e58) (fun _ => 0)
    (fun _ => ⟨fun j hj => absurd hj (Nat.not_lt_zero j), Or.inr (by decide)⟩)
    (n := 1) (fun _ => Nat.one_pos) (fun _ _ => 0xFF) () (Console.Trace.init Console.bootOut true).state (fun _ => 0)
    (serialOnly (bytes "backtrace\n" :: bytes "backtrace\n" :: List.replicate 18 []))
    (quiet_serialOnly _ Console.bootOut true)
  have hcs : receivedBytes (fun _ _ => 0xFF)
      (serialOnly (bytes "backtrace\n" :: bytes "backtrace\n" :: List.replicate 18 [])) (Console.Trace.init Console.bootOut true).state = bytes "backtrace\nbacktrace\n" := by decide +kernel
  rw [hcs] at hl hout
  have hline : ((survivor fun _ => replies linkMap userFrame Kdebug.monitorTable 0xf0109e58 0).state
      (bytes "backtrace\nbacktrace\n") ⟨0, [], false⟩).text = [] := by decide +kernel
  have htext : (survivor fun _ => replies linkMap userFrame Kdebug.monitorTable 0xf0109e58 0).out
      (bytes "backtrace\nbacktrace\n") ⟨0, [], false⟩ = text "backtrace\n" ++
        (text userFrameText ++ text "kernel panic at kern/kdebug.c:132: User address\n" ++ text welcome ++ text typeHelp) ++
        (text "K> backtrace\n" ++ text userFrameText ++ text welcome ++ text typeHelp) ++ text "K> " := by decide +kernel
  rw [hline] at hl
  rw [htext] at hout
  exact ⟨l, hl, hout, hrun⟩

end Jos.Kernel
