/-
Which calls a backtrace shows.

The kernel is compiled with frame pointers (-fno-omit-frame-pointer), and entry.S clears %ebp before it calls i386_init, so
that backtraces are terminated. Virtual memory above KERNBASE is physical memory, as the tables of the kernel map it, and
is taken to stay so: stores to the tables, to the code, or above the 4 MB that are mapped are not excluded, and change the
byte they are for and nothing else.

- `onEntry`: the stack on which i386_init is entered.
- `monBacktrace_calls`: the backtrace, by the records of the active calls.
- **`backtrace_lists_calls`**: over all runs from entry.S on.
-/
import Jos.Core.Frames
import Jos.Entry.Booted
import Jos.Monitor.Answers

namespace Jos.Kernel

open Entry (Symbols RELOC InKernel Linked Started)
open Frames
open I386 (Coding Processor)
open Kdebug (DebugInfo ULIM)
open Monitor
open Sink (feed)

/-! ## The backtrace by its calls -/

/-- "ebp E eip I args A0 A1 A2 A3 A4 ", the arguments as far as the call has them, and then what is above them -/
def callLine (mem : Word → Byte) (r : Record) : List Word :=
  text "ebp " ++ hex8 r.base ++ text " eip " ++ hex8 r.ret ++ text " args " ++
    (List.range 5).flatMap fun i => hex8 (r.args[i]?.getD (arg mem r.base i)) ++ text " "

def callText (mem : Word → Byte) (T : DebugInfo) (r : Record) : List Word :=
  callLine mem r ++ text "\n" ++ (if (looked T r.ret).1 = 0 then symbolText T (looked T r.ret).2 else []) ++ text "\n"

/-- a backtrace of these calls -/
def callsText (mem : Word → Byte) (T : DebugInfo) (l : List Record) : List Word :=
  text "Stack backtrace\n" ++ l.flatMap (callText mem T)

theorem frameText_record {mem : Word → Byte} {r : Record} {ebp : Word} (h : r.In ebp mem) (T : DebugInfo) :
    frameText mem T r.base (looked T (retAddr mem r.base)).1 (looked T (retAddr mem r.base)).2 = callText mem T r := by
  have hret : retAddr mem r.base = r.ret := h.ret
  have hargs : ∀ i, arg mem r.base i = r.args[i]?.getD (arg mem r.base i) := by
    intro i
    by_cases hi : i < r.args.length
    · rw [List.getElem?_eq_getElem hi]
      exact h.args i hi
    · rw [List.getElem?_eq_none (Nat.not_lt.1 hi)]
      rfl
  rw [frameText, frameLine, callText, callLine, hret]
  simp only [← hargs]

/-- the frames of a chain are those of its records -/
theorem backtraceText_calls {mem : Word → Byte} {lim : ℕ} {l : List Record} (h : Chain mem lim l) (T : DebugInfo) :
    backtraceText mem T (saved l) l.length = callsText mem T l := by
  have hsaved : ∀ j (hj : j < l.length), savedEbp mem (saved l) j = l[j].base := by
    intro j hj
    have hwalk : savedEbp mem (saved l) j = saved (l.drop j) := h.walk (le_of_lt hj)
    rw [hwalk, List.drop_eq_getElem_cons hj]
    rfl
  rw [backtraceText, callsText]
  congr 1
  have hrange : l.flatMap (callText mem T) =
      (List.range l.length).flatMap fun j => (l[j]?.map (callText mem T)).getD [] := by
    rw [List.flatMap_def, List.flatMap_def]
    congr 1
    refine List.ext_getElem (by simp) fun j h1 h2 => ?_
    have hj : j < l.length := by simpa using h1
    simp [hj]
  rw [hrange, List.flatMap_def, List.flatMap_def]
  congr 1
  refine List.map_congr_left fun j hj => ?_
  have hj' : j < l.length := List.mem_range.1 hj
  obtain ⟨-, ebp, hin⟩ := h.mem (List.getElem_mem hj')
  rw [hsaved j hj', List.getElem?_eq_getElem hj']
  exact frameText_record hin T

/-- a chain of calls that return into the kernel -/
theorem chain_stack {mem : Word → Byte} {lim : ℕ} {l : List Record} (h : Chain mem lim l) (hret : ∀ r ∈ l, ULIM ≤ r.ret) :
    Stack mem (saved l) l.length := by
  have hwalk : ∀ j ≤ l.length, savedEbp mem (saved l) j = saved (l.drop j) := fun j hj => h.walk hj
  have hat : ∀ j (hj : j < l.length), savedEbp mem (saved l) j = l[j].base := by
    intro j hj
    rw [hwalk j (le_of_lt hj), List.drop_eq_getElem_cons hj]
    rfl
  refine ⟨fun j hj h0 => ?_, ?_, fun j hj => ?_⟩
  · have hpos := (h.mem (List.getElem_mem hj)).1
    rw [← hat j hj, h0] at hpos
    exact absurd hpos (by decide)
  · rw [hwalk l.length (le_refl _), List.drop_length]
    rfl
  · obtain ⟨-, ebp, hin⟩ := h.mem (List.getElem_mem hj)
    have hat' : retAddr mem l[j].base = l[j].ret := hin.ret
    rw [hat j hj, hat']
    exact hret _ (List.getElem_mem hj)

/-- **The backtrace of a chain of calls.** -/
theorem monBacktrace_calls {σ : Type} (cputchar : Word → σ → σ) {T : DebugInfo} (hT : T.HasHeader) {mem : Word → Byte} {lim : ℕ}
    {l : List Record} (h : Chain mem lim l) (hret : ∀ r ∈ l, ULIM ≤ r.ret) {n : ℕ} (hn : l.length < n) (s : σ) :
    monBacktrace cputchar mem T n (saved l) s = some (.ok (0, feed cputchar s (callsText mem T l))) := by
  rw [monBacktrace_prints cputchar hT (chain_stack h hret) hn s, backtraceText_calls h T]

/-! ## From entry.S on -/

/-- the stack as the kernel sees it -/
def onEntry (c : Processor) : Thread := ⟨fun va => c.mem (RELOC va), c.gpr .esp, c.gpr .ebp⟩

/-- the call of i386_init: it returns to the loop behind it -/
def initRecord (L : Symbols) : Record := ⟨L.bootstacktop - 8, L.spin, []⟩

theorem top_bounds {C : Coding} {L : Symbols} (hL : Linked L C) :
    0xF0100004 ≤ L.bootstacktop.toNat ∧ L.bootstacktop.toNat ≤ 0xF0400000 ∧
      (L.bootstacktop - 4).toNat = L.bootstacktop.toNat - 4 := by
  have hs1 := hL.stack.1
  have hs2 := hL.stack.2
  have h4 : (4 : Word).toNat = 4 := rfl
  have hlt := L.bootstacktop.isLt
  rw [BitVec.toNat_sub, h4] at hs1 hs2 ⊢
  omega

theorem init_active {C : Coding} {L : Symbols} (hL : Linked L C) {c c' : Processor} (h : Started L c c') :
    Active L.bootstacktop.toNat (onEntry c').enter [initRecord L] := by
  obtain ⟨hs1, hs2, htop⟩ := top_bounds hL
  have hlt := L.bootstacktop.isLt
  have hesp : (onEntry c').esp = L.bootstacktop - 4 := h.esp
  have hspin : word (onEntry c').mem (L.bootstacktop - 4) = L.spin := by
    apply I386.le32_littleWord
    intro i hi
    rw [Nat.zero_add]
    show c'.mem (RELOC (L.bootstacktop - 4 + BitVec.ofNat 32 i)) = _
    have hoff : RELOC (L.bootstacktop - 4 + BitVec.ofNat 32 i) = RELOC (L.bootstacktop - 4) + BitVec.ofNat 32 i := Entry.RELOC_add _ _
    rw [hoff]
    exact h.ret i hi
  have hrecord : initRecord L = ⟨(onEntry c').esp - 4, L.spin, []⟩ := by
    have h44 : L.bootstacktop - 4 - 4 = L.bootstacktop - 8 := by bv_omega
    rw [hesp, h44, initRecord]
  rw [hrecord]
  refine enter_active (le_of_lt hlt) (l := []) h.ebp trivial ?_ ?_ ?_ fun i hi => absurd hi (Nat.not_lt_zero i)
  · rw [hesp, htop]
    omega
  · rw [hesp, htop]
    show _ ≤ L.bootstacktop.toNat
    simp only [List.length_nil]
    omega
  · rw [hesp]
    exact hspin

/-- **Backtraces are terminated.** From entry.S on, whatever the kernel calls and returns from, whatever it stores off the
records of its calls, and however it is compiled: a backtrace prints the calls that have not returned, the latest first and
i386_init last, each with its return address and its arguments, and then ends. -/
theorem backtrace_lists_calls {C : Coding} {L : Symbols} (hL : Linked L C) {c c' : Processor} (h : Started L c c')
    {T : DebugInfo} (hT : T.HasHeader) {lo : ℕ} (hlo : 0 < lo) {ops : List Op} {s : Thread} {l : List Record}
    (hsafe : SafeRun lo L.bootstacktop.toNat ops ((onEntry c').enter, [initRecord L]))
    (hrun : Frames.run ops ((onEntry c').enter, [initRecord L]) = (s, l)) (hret : ∀ r ∈ l, ULIM ≤ r.ret) :
    (∀ r ∈ l.head?, s.returnsTo = r.ret) ∧
      ∀ (σ : Type) (cputchar : Word → σ → σ) (console : σ) (n : ℕ), l.length < n →
        monBacktrace cputchar s.mem T n s.ebp console = some (.ok (0, feed cputchar console (callsText s.mem T l))) := by
  have hlim : L.bootstacktop.toNat ≤ 2 ^ 32 := le_of_lt L.bootstacktop.isLt
  have hact := run_active hlo hlim (p := ((onEntry c').enter, [initRecord L])) (init_active hL h) hsafe
  rw [hrun] at hact
  refine ⟨fun r hr => ?_, fun σ cputchar console n hn => ?_⟩
  · cases l with
    | nil => cases hr
    | cons x l =>
      cases hr
      exact hact.returns
  · rw [hact.ebp]
    exact monBacktrace_calls cputchar hT hact.chain hret hn console

/-- a call that has returned, and two that have not, with a store between their records -/
def someOps : List Op :=
  [.reserve 12, .call 0xf01000f4 [5], .leave 1, .call 0xf0100109 [0], .reserve 24, .write 0xf010ffd0 7,
    .call 0xf0100998 [1, 0xf010ffb8, 0]]

/-- the kernel of the disk -/
theorem backtrace_lists_calls_disk : ∃ m' c' s,
    Loop.Gives (fun n => Boot.bootmain Entry.kernelDisk n Boot.emptyMachine) (.entry 0x10000c m') ∧
      Processor.steps I386.i386 11 { Entry.bootCpu with eip := 0x10000c, mem := m'.ram.byte } = some c' ∧
      s = execAll someOps (onEntry c').enter ∧ s.returnsTo = 0xf0100998 ∧
      monBacktrace Sink.snoc s.mem Kdebug.monitorTable 4 s.ebp [] = some (.ok (0, feed Sink.snoc [] (callsText s.mem
        Kdebug.monitorTable [⟨0xf010ffb4, 0xf0100998, [1, 0xf010ffb8, 0]⟩, ⟨0xf010ffe0, 0xf0100109, [0]⟩,
          ⟨0xf010fff8, 0xf010003e, []⟩]))) := by
  obtain ⟨m', c', hboot, hsteps, hstart, -⟩ := Entry.boot_starts Entry.bootSymbols_linked Entry.kernelDisk_ready
    Entry.kernelDisk_file Boot.emptyMachine Entry.bootCpu (by decide)
  obtain ⟨mem, hthread⟩ : ∃ mem, (onEntry c').enter = ⟨mem, 0xf010fff8, 0xf010fff8⟩ := by
    have hesp : (onEntry c').esp = 0xf010fffc := hstart.esp
    exact ⟨_, congrArg (fun a => Thread.mk _ (a - 4) (a - 4)) hesp⟩
  have hsafe : SafeRun 1 0xf0110000 someOps ((onEntry c').enter, [initRecord Entry.bootSymbols]) := by
    rw [hthread]
    refine ⟨?_, ?_, rfl, ?_, ?_, ?_, ?_, trivial⟩
    · show 1 + 12 ≤ (0xf010fff8 : Word).toNat
      decide
    · show 1 + 12 ≤ ((0xf010fff8 : Word) - BitVec.ofNat 32 12).toNat
      decide
    · show 1 + 12 ≤ ((0xf010fff8 : Word) - BitVec.ofNat 32 12 - 4 - 4 - 4 + BitVec.ofNat 32 12).toNat
      decide
    · show 1 + 24 ≤ ((0xf010fff8 : Word) - BitVec.ofNat 32 12 - 4 - 4 - 4 + BitVec.ofNat 32 12 - 4 - 4 - 4).toNat
      decide
    · show ∀ r ∈ [(⟨(0xf010fff8 : Word) - BitVec.ofNat 32 12 - 4 - 4 - 4 + BitVec.ofNat 32 12 - BitVec.ofNat 32 12, 0xf0100109,
          [0]⟩ : Record), initRecord Entry.bootSymbols],
        (0xf010ffd0 : Word).toNat < r.base.toNat ∨ r.stop ≤ (0xf010ffd0 : Word).toNat
      decide
    · show 1 + 20 ≤ ((0xf010fff8 : Word) - BitVec.ofNat 32 12 - 4 - 4 - 4 + BitVec.ofNat 32 12 - 4 - 4 - 4 -
        BitVec.ofNat 32 24).toNat
      decide
  have hrun : Frames.run someOps ((onEntry c').enter, [initRecord Entry.bootSymbols]) =
      (execAll someOps (onEntry c').enter, [⟨0xf010ffb4, 0xf0100998, [1, 0xf010ffb8, 0]⟩, ⟨0xf010ffe0, 0xf0100109, [0]⟩,
        ⟨0xf010fff8, 0xf010003e, []⟩]) := by
    refine Prod.ext (run_fst _ _) ?_
    rw [hthread]
    show [(⟨(0xf010fff8 : Word) - BitVec.ofNat 32 12 - 4 - 4 - 4 + BitVec.ofNat 32 12 - 4 - 4 - 4 - BitVec.ofNat 32 24 -
          BitVec.ofNat 32 20, 0xf0100998, [1, 0xf010ffb8, 0]⟩ : Record),
        ⟨(0xf010fff8 : Word) - BitVec.ofNat 32 12 - 4 - 4 - 4 + BitVec.ofNat 32 12 - BitVec.ofNat 32 12, 0xf0100109, [0]⟩,
        initRecord Entry.bootSymbols] =
      [⟨0xf010ffb4, 0xf0100998, [1, 0xf010ffb8, 0]⟩, ⟨0xf010ffe0, 0xf0100109, [0]⟩, ⟨0xf010fff8, 0xf010003e, []⟩]
    decide
  obtain ⟨hreturns, hback⟩ := backtrace_lists_calls Entry.bootSymbols_linked hstart Kdebug.monitorTable_lined.header
    (by decide) hsafe hrun (by decide)
  exact ⟨m', c', _, hboot, hsteps, rfl, hreturns _ rfl, hback _ Sink.snoc [] 4 (by decide)⟩

end Jos.Kernel
