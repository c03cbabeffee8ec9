/-
The backtrace of kern/monitor.c.

Memory is a function from addresses to bytes, and addresses wrap. It does not change while the loop runs: `cprintf` and
`debuginfo_eip` push their frames below that of `mon_backtrace`, and the loop reads at %ebp and above. The starting %ebp is
a parameter, as are the console and the debug tables. The loop follows whatever chain memory holds, so it runs with fuel.
-/
import Jos.Core.Loop
import Jos.Core.Ram
import Jos.Kdebug.Model
import Jos.Printfmt.Cprintf

namespace Jos.Monitor

open Kdebug (DebugInfo Eipdebuginfo debuginfoEip)
open Printfmt (Arg vcprintf)

inductive Fault where
  | printf (f : Printfmt.Fault)
  | debuginfo (f : Kdebug.Fault)
deriving DecidableEq, Repr

/-- `*(unsigned int *) a` -/
def load (mem : Word → Byte) (a : Word) : Word := le32 (fun i => mem (a + BitVec.ofNat 32 i)) 0

section Backtrace

variable {σ : Type} (cputchar : Word → σ → σ)

/-- `cprintf(fmt, ...)`, whose return value is not used -/
def cprintf (fmt : String) (ap : List Arg) (s : σ) : Except Fault σ :=
  ((vcprintf cputchar s (bytes fmt ++ [0#8]) ap).map Prod.snd).mapError .printf

/-- the arguments of the symbol line; the last one should be the offset in the function, and is the line again -/
def symbolArgs (T : DebugInfo) (info : Eipdebuginfo) : List Arg :=
  [.str (some (T.at info.eipFile)), .word (BitVec.ofInt 32 info.eipLine), .word (BitVec.ofInt 32 info.eipFnNamelen),
    .str (some (T.at info.eipFnName)), .word (BitVec.ofInt 32 info.eipLine)]

variable (mem : Word → Byte) (T : DebugInfo)

/-- the body of `while (ebp != 0)`, as far as it prints -/
def frame (ebp : Word) (s : σ) : Except Fault σ := do
  let s ← cprintf cputchar "ebp %08x " [.word ebp] s
  let s ← cprintf cputchar "eip %08x " [.word (load mem (ebp + 4))] s
  let eip := load mem (ebp + 4)
  let s ← cprintf cputchar "args " [] s
  let s ← (List.range 5).foldlM
    (fun s i => cprintf cputchar "%08x " [.word (load mem (ebp + 8 + 4 * BitVec.ofNat 32 i))] s) s
  let s ← cprintf cputchar "\n" [] s
  let (rc, info) ← (debuginfoEip T eip).mapError .debuginfo
  let s ← if rc = 0 then cprintf cputchar "%s:%d: %.*s+%d\n" (symbolArgs T info) s else pure s
  cprintf cputchar "\n" [] s

/-- one iteration, from ebp and the console -/
def backtraceStep (st : Word × σ) : Option ((Word × σ) ⊕ Except Fault σ) :=
  if st.1 = 0 then some (.inr (.ok st.2))
  else match frame cputchar mem T st.1 st.2 with
    | .error f => some (.inr (.error f))
    | .ok s => some (.inl (load mem st.1, s))

/-- `mon_backtrace` with fuel n, from the %ebp that `read_ebp()` returns -/
def monBacktrace (n : ℕ) (ebp : Word) (s : σ) : Option (Except Fault (ℤ × σ)) :=
  match cprintf cputchar "Stack backtrace\n" [] s with
  | .error f => some (.error f)
  | .ok s => (Loop.run (backtraceStep cputchar mem T) n (ebp, s)).map fun r => r.map fun s => (0, s)

end Backtrace

end Jos.Monitor
