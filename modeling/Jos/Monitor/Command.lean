/-
The command interpreter of kern/monitor.c: `runcmd`, and the table of commands.

The command buffer is an array that is read and written, and a pointer into it is the bytes before it and those from it on;
a read behind the end of the array is a fault, as is an index of argv that is not below MAXARGS. The handlers are
parameters of `runcmd`: they get argc, argv and the Trapframe, with the buffer and the console as they are then.
-/
import Jos.Console.Output
import Jos.Lib.Compare
import Jos.Monitor.Model

namespace Jos.Monitor

open Console (KERNBASE)
open Kdebug (DebugInfo)

def MAXARGS : ℕ := 16

def WHITESPACE : String := "\t\r\n "

/-- an element of argv: nothing has been stored in it, or a null pointer, or `&buf[p]` -/
inductive Entry where
  | unset
  | null
  | ptr (p : ℕ)
deriving DecidableEq, Repr

inductive CmdFault where
  /-- a read behind the end of an array -/
  | read
  /-- an index of argv that is not below MAXARGS -/
  | index
  /-- argv[0] is not a pointer -/
  | pointer
  /-- in a command, or in a cprintf -/
  | monitor (f : Fault)
deriving DecidableEq, Repr

/-! ## Parsing -/

/-- `strchr(s, c)`: the offset of the first c, or NULL -/
def strchr : List Byte → Byte → Option (Option ℕ)
  | [], _ => none
  | b :: s, c => if b = 0#8 then some none else if b = c then some (some 0) else (strchr s c).map (Option.map (· + 1))

/-- `strchr(WHITESPACE, c) != 0` -/
def inWhitespace (c : Byte) : Except CmdFault Bool :=
  match strchr (bytes WHITESPACE ++ [0#8]) c with
  | none => .error .read
  | some r => .ok r.isSome

/-- `while (*buf && strchr(WHITESPACE, *buf)) *buf++ = 0;` -/
def gobble : List Byte → List Byte → Except CmdFault (List Byte × List Byte)
  | _, [] => .error .read
  | before, b :: after => do
    let white ← inWhitespace b
    if b ≠ 0#8 ∧ white then gobble (before ++ [0#8]) after else .ok (before, b :: after)

/-- `while (*buf && !strchr(WHITESPACE, *buf)) buf++;` -/
def scanArg : List Byte → List Byte → Except CmdFault (List Byte × List Byte)
  | _, [] => .error .read
  | before, b :: after => do
    let white ← inWhitespace b
    if b ≠ 0#8 ∧ ¬ white then scanArg (before ++ [b]) after else .ok (before, b :: after)

/-- the variables of the loop: buf, argc and argv -/
structure Parse where
  before : List Byte
  after : List Byte
  argc : ℕ
  argv : ℕ → Entry

/-- the array -/
def Parse.buffer (s : Parse) : List Byte := s.before ++ s.after

/-- `argv[i] = e` -/
def store (argv : ℕ → Entry) (i : ℕ) (e : Entry) : Except CmdFault (ℕ → Entry) :=
  if i < MAXARGS then .ok (Function.update argv i e) else .error .index

inductive Parsed where
  /-- the loop was left at the terminator -/
  | finished (s : Parse)
  /-- the return because of too many arguments -/
  | tooMany (s : Parse)

/-- one iteration of the outer loop -/
def parseArg (s : Parse) : Except CmdFault (Parse ⊕ Parsed) := do
  let (before, after) ← gobble s.before s.after
  let s := { s with before := before, after := after }
  match s.after with
  | [] => .error .read
  | b :: _ =>
    if b = 0#8 then .ok (.inr (.finished s))
    else if s.argc = MAXARGS - 1 then .ok (.inr (.tooMany s))
    else do
      let argv ← store s.argv s.argc (.ptr s.before.length)
      let (before, after) ← scanArg s.before s.after
      .ok (.inl { before := before, after := after, argc := s.argc + 1, argv := argv })

def parseBody (s : Parse) : Option (Parse ⊕ Except CmdFault Parsed) :=
  match parseArg s with
  | .error f => some (.inr (.error f))
  | .ok (.inl s) => some (.inl s)
  | .ok (.inr r) => some (.inr (.ok r))

/-! ## Commands -/

/-- what a command finds and leaves -/
structure World (σ : Type) where
  buf : List Byte
  console : σ

/-- the name is a C string; without fuel a command may not return -/
structure Command (τ σ : Type) where
  name : List Byte
  nul : 0#8 ∉ name
  desc : List Byte
  func : ℕ → (ℕ → Entry) → τ → World σ → Option (Except CmdFault (ℤ × World σ))

section Runcmd

variable {τ σ : Type} (cputchar : Word → σ → σ)

/-- cprintf, in a command -/
def World.cprintf (fmt : String) (ap : List Printfmt.Arg) (w : World σ) : Except CmdFault (World σ) :=
  match Monitor.cprintf cputchar fmt ap w.console with
  | .error f => .error (.monitor f)
  | .ok console => .ok { w with console := console }

/-- the string at argv[0] -/
def arg0 (argv : ℕ → Entry) (w : World σ) : Except CmdFault (List Byte) :=
  match argv 0 with
  | .ptr p => .ok (w.buf.drop p)
  | _ => .error .pointer

/-- `for (i = 0; i < NCOMMANDS; i++)`, and the message behind it -/
def invoke (argc : ℕ) (argv : ℕ → Entry) (tf : τ) (w : World σ) :
    List (Command τ σ) → Option (Except CmdFault (ℤ × World σ))
  | [] => some do
    let name ← arg0 argv w
    let w ← w.cprintf cputchar "Unknown command '%s'\n" [.str (some name)]
    .ok (0, w)
  | c :: commands =>
    match arg0 argv w with
    | .error f => some (.error f)
    | .ok name =>
      match strcmp name (c.name ++ [0#8]) with
      | none => some (.error .read)
      | some r => if r = 0 then c.func argc argv tf w else invoke argc argv tf w commands

/-- `runcmd(buf, tf)` with fuel n for the outer loop -/
def runcmd (commands : List (Command τ σ)) (n : ℕ) (tf : τ) (w : World σ) : Option (Except CmdFault (ℤ × World σ)) := do
  -- `argc = 0; argv[argc] = 0;`
  match ← Loop.run parseBody n ⟨[], w.buf, 0, Function.update (fun _ => .unset) 0 .null⟩ with
  | .error f => some (.error f)
  | .ok (.tooMany s) => some do
    let w ← World.cprintf cputchar "Too many arguments (max %d)\n" [.word (BitVec.ofNat 32 MAXARGS)] ⟨s.buffer, w.console⟩
    .ok (0, w)
  | .ok (.finished s) =>
    match store s.argv s.argc .null with
    | .error f => some (.error f)
    | .ok argv =>
      let w := ⟨s.buffer, w.console⟩
      if s.argc = 0 then some (.ok (0, w)) else invoke cputchar s.argc argv tf w commands

/-! ## The table -/

/-- `mon_help` -/
def monHelp (entries : List (List Byte × List Byte)) (w : World σ) : Except CmdFault (ℤ × World σ) := do
  let w ← entries.foldlM (fun w e =>
    w.cprintf cputchar "%s - %s\n" [.str (some (e.1 ++ [0#8])), .str (some (e.2 ++ [0#8]))]) w
  .ok (0, w)

/-- the addresses that the linker defines -/
structure Linker where
  start : Word
  entry : Word
  etext : Word
  edata : Word
  «end» : Word

/-- `ROUNDUP(a, n)`, as an int -/
def roundupInt (a : Word) (n : Word) : ℤ := (a + n - 1 - (a + n - 1) % n).toInt

/-- `mon_kerninfo` -/
def monKerninfo (k : Linker) (w : World σ) : Except CmdFault (ℤ × World σ) := do
  let w ← w.cprintf cputchar "Special kernel symbols:\n" []
  let w ← w.cprintf cputchar "  _start                  %08x (phys)\n" [.word k.start]
  let w ← w.cprintf cputchar "  entry  %08x (virt)  %08x (phys)\n" [.word k.entry, .word (k.entry - KERNBASE)]
  let w ← w.cprintf cputchar "  etext  %08x (virt)  %08x (phys)\n" [.word k.etext, .word (k.etext - KERNBASE)]
  let w ← w.cprintf cputchar "  edata  %08x (virt)  %08x (phys)\n" [.word k.edata, .word (k.edata - KERNBASE)]
  let w ← w.cprintf cputchar "  end    %08x (virt)  %08x (phys)\n" [.word k.end, .word (k.end - KERNBASE)]
  let w ← w.cprintf cputchar "Kernel executable memory footprint: %dKB\n"
    [.word (BitVec.ofInt 32 ((roundupInt (k.end - k.entry) 1024).tdiv 1024))]
  .ok (0, w)

/-- names and descriptions -/
def helpTexts : List (List Byte × List Byte) :=
  [(bytes "help", bytes "Display this list of commands"), (bytes "kerninfo", bytes "Display information about the kernel"),
    (bytes "backtrace", bytes "Backtracing the stack")]

/-- `commands`; the backtrace runs with fuel n -/
def commands (k : Linker) (mem : Word → Byte) (T : DebugInfo) (n : ℕ) (ebp : Word) : List (Command τ σ) :=
  [⟨bytes "help", by decide, bytes "Display this list of commands", fun _ _ _ w => some (monHelp cputchar helpTexts w)⟩,
    ⟨bytes "kerninfo", by decide, bytes "Display information about the kernel", fun _ _ _ w =>
      some (monKerninfo cputchar k w)⟩,
    ⟨bytes "backtrace", by decide, bytes "Backtracing the stack", fun _ _ _ w =>
      (monBacktrace cputchar mem T n ebp w.console).map fun r =>
        (r.map fun r => (r.1, { w with console := r.2 })).mapError .monitor⟩]

/-- what mon_help prints is the table -/
theorem helpTexts_eq (k : Linker) (mem : Word → Byte) (T : DebugInfo) (n : ℕ) (ebp : Word) :
    (commands cputchar k mem T n ebp : List (Command τ σ)).map (fun c => (c.name, c.desc)) = helpTexts := rfl

end Runcmd

end Jos.Monitor
