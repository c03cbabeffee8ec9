/-
`i386_init` of kern/init.c, and what the kernel prints from entry.S to the prompt and beyond.

The memset clears the static data: of the console, and of readline. What the monitor calls on a line, down to mon_backtrace, is
a parameter, as all that the compiler chooses.

- `i386Init`: the function, up to where the monitor waits for a character.
- `down_active`: nested calls.
- `init_transcript`: the run from the start of i386_init on.
- **`kernel_transcript`**: the whole run.
-/
import Jos.Console.Navigation
import Jos.Console.Serial
import Jos.Kernel.Init
import Jos.Monitor.Terminal

namespace Jos.Kernel

open Console (State cgaInit consInit inb lineStatus outb putText serialAbsent serialInit)
open Entry (KSTKSIZE KernelFile Linked RELOC Started Symbols)
open Frames
open I386 (Coding Processor)
open Kdebug (DebugInfo ULIM)
open Loop (Gives Runs)
open Monitor
open Printfmt (Renders)
open Readline (Holds)
open Sink (feed)

/-! ## Model -/

/-- nested calls, from the outermost one on -/
def Compiled.down (K : Compiled) : List Call → Thread → Thread
  | [], s => s
  | c :: l, s => K.down l ((K.called s).into c)

/-- the memory after `memset(edata, 0, end - edata)` -/
def zeroBss (k : Linker) (s : Thread) : Thread :=
  { s with mem := (memsetAsm k.edata 0 (k.end - k.edata) ⟨⟨s.mem, []⟩, false⟩).2.ram.byte }

/-- the console after it -/
def zeroed (s : State) : State := { s with serialExists := false, shift := 0, cons := ⟨fun _ => 0, 0, 0⟩ }

section Init

variable (dev : ℕ → ℕ → Byte) (K : Compiled) (T : DebugInfo) (k : Linker)

/-- one call of `monitor(NULL)`, on the stack of i386_init -/
def monitorCall (lines : ℕ → List Call) (depth : ℕ) (s : Thread) (n : ℕ) (session : Session Machine) :
    Option (Session Machine ⊕ Except SessionFault (Left Machine)) :=
  let table := fun i => commands (Machine.cputchar dev) k (K.down (lines i) s).mem T depth (K.down (lines i) s).ebp
  match monitor (Machine.getchar dev) (Machine.cputchar dev) table () n session with
  | none => none
  | some (.error f) => some (.inr (.error f))
  | some (.ok (.waiting l)) => some (.inr (.ok (.waiting l)))
  | some (.ok (.returned session)) => some (.inl session)

/-- `i386_init()`, as entry.S has called it; depth is the fuel of backtraces and of test_backtrace, n that of the monitor -/
def i386Init (back : BitVec 16) (lines : ℕ → List Call) (depth n : ℕ) (s : Kern Machine) :
    Option (Except SessionFault (Left Machine)) :=
  let thread := zeroBss k ((Op.reserve K.initLocals).exec s.thread.enter)
  let console := (s.console.1, consInit dev back (zeroed s.console.2))
  match Kern.cprintf (Machine.cputchar dev) K "6828 decimal is %o octal!\n" [.word 6828] ⟨console, K.called thread⟩ with
  | .error f => some (.error (.printf f))
  | .ok s =>
    match s.within ⟨K.initCall, [5], K.testLocals⟩ (testBacktrace (Machine.cputchar dev) K T depth depth 5) with
    | none => none
    | some (.error f) => some (.error (.printf f))
    | some (.ok s) => Loop.run (monitorCall dev K T k lines depth s.thread n) n ⟨s.console, fun _ => 0, 0⟩

end Init

/-! ## The stack -/

theorem down_active (K : Compiled) (cs : List Call) {lo lim : ℕ} (hlo : 0 < lo) (hlim : lim ≤ 2 ^ 32) {s : Thread}
    {l : List Record} (h : Active lim s l) (hroom : lo + stackSize cs ≤ s.esp.toNat) :
    Active lim (K.down cs s) (records cs s.esp ++ l) := by
  induction cs generalizing s l with
  | nil => exact h
  | cons c cs ih =>
    have hsize : lo + (c.size + stackSize cs) ≤ s.esp.toNat := hroom
    have hone : c.size ≤ (K.called s).esp.toNat := by
      show _ ≤ s.esp.toNat
      omega
    have hact := into_active c hlo hlim ((called_kept K s).active hlim h) (by
      show lo + c.size ≤ s.esp.toNat
      omega)
    have hesp := into_esp c hone
    have hesp' := (into_spec c hone).1
    have hrest := ih hact (by
      rw [hesp']
      show _ ≤ s.esp.toNat - c.size
      omega)
    rw [hesp] at hrest
    rw [records, List.append_assoc]
    exact hrest

/-- the memset is off the stack -/
theorem zeroBss_agree {k : Linker} (hle : k.edata.toNat ≤ k.end.toNat) {s : Thread} {a b : ℕ}
    (h : k.end.toNat ≤ a ∨ b ≤ k.edata.toNat) : Agree s.mem (zeroBss k s).mem a b := by
  intro x h1 h2
  have hsize : (k.end - k.edata).toNat = k.end.toNat - k.edata.toNat :=
    BitVec.toNat_sub_of_le (by rw [BitVec.le_def]; exact hle)
  have hfit : k.edata.toNat + (k.end - k.edata).toNat ≤ 2 ^ 32 := by
    have := k.end.isLt
    omega
  refine (memsetAsm_filled ⟨⟨s.mem, []⟩, false⟩ 0 hfit).frame x fun i hi he => ?_
  rw [he, Ram.toNat_off (by omega)] at h1 h2
  omega

/-! ## The transcript -/

/-- the commands and what they print, with the calls that are active -/
def callsTable (k : Linker) (mem : Word → Byte) (T : DebugInfo) (l : List Record) : List (List Byte × List Word) :=
  [(bytes "help", helpText), (bytes "kerninfo", kerninfoText k), (bytes "backtrace", callsText mem T l)]

theorem renders_banner : Renders (bytes "6828 decimal is %o octal!\n") [.word 6828] (text "6828 decimal is 15254 octal!\n") := by
  have hnum : Renders (bytes "%o") [.word 6828] (text "15254") := by
    have h := Printfmt.renders_unsigned .o [] none (fun f hf => by cases hf) 0 6828
    have hdigits : Printfmt.padded (Printfmt.padChar []) 0 (Printfmt.unsignedText Printfmt.base8 (Printfmt.unsignedVal 0 6828)) =
        text "15254" := by decide +kernel
    exact hdigits ▸ h
  exact ((renders_text "6828 decimal is " (by decide +kernel)).append hnum).append (renders_text " octal!\n" (by decide +kernel))

/-- the address of the call of test_backtrace(5), and the calls below it -/
def bootCalls (K : Compiled) : List Call := ⟨K.initCall, [5], K.testLocals⟩ :: testCalls K 5 5

/-- the kernel is linked so that the memset is off the stack, and its functions fit in the stack -/
structure Fits (L : Symbols) (K : Compiled) (k : Linker) (lines : ℕ → List Call) : Prop where
  le : k.edata.toNat ≤ k.end.toNat
  bss : k.end.toNat ≤ L.bootstacktop.toNat - KSTKSIZE ∨ L.bootstacktop.toNat ≤ k.edata.toNat
  boot : 8 + K.initLocals + stackSize (bootCalls K) ≤ KSTKSIZE
  line : ∀ i, 8 + K.initLocals + stackSize (lines i) ≤ KSTKSIZE

/-- calls return into the kernel -/
structure Returns (L : Symbols) (K : Compiled) (lines : ℕ → List Call) : Prop where
  spin : ULIM ≤ L.spin
  init : ULIM ≤ K.initCall
  test : ULIM ≤ K.testCall
  backtrace : ULIM ≤ K.backtraceCall
  line : ∀ i, ∀ c ∈ lines i, ULIM ≤ c.ret

section Run

variable {C : Coding} {L : Symbols} {K : Compiled} {k : Linker} {lines : ℕ → List Call}

/-- the stack on which i386_init does its work -/
theorem init_stack (hL : Linked L C) {c c' : Processor} (h : Started L c c') (hfit : Fits L K k lines) :
    Active L.bootstacktop.toNat (K.called (zeroBss k ((Op.reserve K.initLocals).exec (onEntry c').enter))) [initRecord L] ∧
      (K.called (zeroBss k ((Op.reserve K.initLocals).exec (onEntry c').enter))).esp.toNat =
        L.bootstacktop.toNat - 8 - K.initLocals := by
  have hlim : L.bootstacktop.toNat ≤ 2 ^ 32 := le_of_lt L.bootstacktop.isLt
  obtain ⟨hs1, hs2, -⟩ := top_bounds hL
  have h8 : (8 : Word).toNat = 8 := rfl
  have hboot := hfit.boot
  have hK : KSTKSIZE = 0x8000 := rfl
  have hact := init_active hL h
  have hbase : (onEntry c').enter.esp.toNat = L.bootstacktop.toNat - 8 := by
    have hesp : (onEntry c').enter.esp = L.bootstacktop - 8 := by
      have hin : (onEntry c').esp = L.bootstacktop - 4 := h.esp
      show (onEntry c').esp - 4 = _
      rw [hin]
      bv_omega
    rw [hesp, BitVec.toNat_sub_of_le (by rw [BitVec.le_def, h8]; omega)]
    rfl
  have hn : (BitVec.ofNat 32 K.initLocals).toNat = K.initLocals := by
    rw [BitVec.toNat_ofNat, Nat.mod_eq_of_lt (by omega)]
  have hroom : (Op.reserve K.initLocals).Safe 1 L.bootstacktop.toNat (onEntry c').enter [initRecord L] := by
    show 1 + K.initLocals ≤ (onEntry c').enter.esp.toNat
    omega
  have hreserve := step_active (by decide) hlim hact hroom
  have hesp : ((onEntry c').enter.esp - BitVec.ofNat 32 K.initLocals).toNat = L.bootstacktop.toNat - 8 - K.initLocals := by
    rw [BitVec.toNat_sub_of_le (by rw [BitVec.le_def]; omega), hn, hbase]
  have hzero : Active L.bootstacktop.toNat (zeroBss k ((Op.reserve K.initLocals).exec (onEntry c').enter)) [initRecord L] := by
    refine ⟨hreserve.ebp, hreserve.esp, hreserve.chain.above hlim (a := L.bootstacktop.toNat - KSTKSIZE) ?_
      (zeroBss_agree hfit.le hfit.bss)⟩
    have hsaved := hact.ebp
    have hfirst : first L.bootstacktop.toNat [initRecord L] = (onEntry c').enter.esp.toNat := by
      show (saved [initRecord L]).toNat = _
      rw [← hsaved]
      rfl
    show L.bootstacktop.toNat - KSTKSIZE ≤ first L.bootstacktop.toNat [initRecord L]
    rw [hfirst, hbase]
    omega
  exact ⟨(called_kept K _).active hlim hzero, hesp⟩

variable {T : DebugInfo} {depth : ℕ}

/-- the table of the commands, on a line -/
theorem line_prints (hT : T.HasHeader) (hL : Linked L C) (hfit : Fits L K k lines) (hret : Returns L K lines)
    (hdepth : ∀ i, (lines i).length + 1 < depth) {s : Thread} (hact : Active L.bootstacktop.toNat s [initRecord L])
    (hesp : s.esp.toNat = L.bootstacktop.toNat - 8 - K.initLocals) (dev : ℕ → ℕ → Byte) (i : ℕ) :
    List.Forall₂ (Prints (Machine.cputchar dev))
      (commands (Machine.cputchar dev) k (K.down (lines i) s).mem T depth (K.down (lines i) s).ebp : List (Command Unit Machine))
      (callsTable k (K.down (lines i) s).mem T (records (lines i) s.esp ++ [initRecord L])) := by
  have hlim : L.bootstacktop.toNat ≤ 2 ^ 32 := le_of_lt L.bootstacktop.isLt
  obtain ⟨hs1, hs2, -⟩ := top_bounds hL
  have hline := hfit.line i
  have hK : KSTKSIZE = 0x8000 := rfl
  have hlo : 0 < L.bootstacktop.toNat - KSTKSIZE := by omega
  have hdown := down_active K (lines i) hlo hlim hact (by omega)
  have hrets : ∀ r ∈ records (lines i) s.esp ++ [initRecord L], ULIM ≤ r.ret := by
    intro r hr
    rcases List.mem_append.1 hr with hr | hr
    · exact records_ret (hret.line i) s.esp r hr
    · rw [List.mem_singleton.1 hr]
      exact hret.spin
  have hlen : (records (lines i) s.esp ++ [initRecord L]).length = (lines i).length + 1 := by
    rw [List.length_append, records_length, List.length_singleton]
  have htable := @commands_print Machine (Machine.cputchar dev) Unit k _ T hT _ _ depth (chain_stack hdown.chain hrets)
    (hlen ▸ hdepth i)
  rw [kernelTable, backtraceText_calls hdown.chain] at htable
  rw [hdown.ebp]
  exact htable

theorem consInit_same (dev : ℕ → ℕ → Byte) (back : BitVec 16) (s : State) :
    (consInit dev back s).kbd = s.kbd ∧ (consInit dev back s).shift = s.shift := by
  simp only [consInit]
  split_ifs <;> exact ⟨rfl, rfl⟩

/-- what has been printed does not change what is read -/
theorem receivedBytes_out (dev : ℕ → ℕ → Byte) {arrivals : List (List Byte × List Byte)} {s : State} (h : Quiet (arrivals, s))
    (o : Console.Out) : receivedBytes dev arrivals { s with out := o } = receivedBytes dev arrivals s := by
  suffices hall : received dev arrivals { s with out := o } = received dev arrivals s by
    rw [receivedBytes, receivedBytes, hall]
  induction arrivals generalizing s with
  | nil => rfl
  | cons a arrivals ih =>
    obtain ⟨hnow, hnext⟩ := h.arrive dev
    have hget : Console.consGetc dev (arrive a { s with out := o }) = _ := consGetc_out dev hnow o
    rw [received, received, hget]
    simp only
    rw [ih hnext]

theorem putText_append (dev : ℕ → ℕ → Byte) (cs cs' : List Word) (o : Console.Out) :
    putText dev (cs ++ cs') o = putText dev cs' (putText dev cs o) := List.foldl_append

/-- the parts of i386_init, one after the other -/
theorem i386Init_eq (dev : ℕ → ℕ → Byte) (K : Compiled) (T : DebugInfo) (k : Linker) (back : BitVec 16) (lines : ℕ → List Call)
    (depth n : ℕ) {s s₁ : Kern Machine}
    (h : Kern.within ⟨K.initCall, [5], K.testLocals⟩ (testBacktrace (Machine.cputchar dev) K T depth depth 5)
      ⟨feed (Machine.cputchar dev) (s.console.1, consInit dev back (zeroed s.console.2)) (text "6828 decimal is 15254 octal!\n"),
        K.called (K.called (zeroBss k ((Op.reserve K.initLocals).exec s.thread.enter)))⟩ = some (.ok s₁)) :
    i386Init dev K T k back lines depth n s =
      Loop.run (monitorCall dev K T k lines depth s₁.thread n) n ⟨s₁.console, fun _ => 0, 0⟩ := by
  simp only [i386Init, kern_cprintf (Machine.cputchar dev) K renders_banner, h]

/-- the kernel, from the state that entry.S leaves -/
theorem init_transcript (hL : Linked L C) {c c' : Processor} (h : Started L c c') (hT : T.HasHeader)
    (hfit : Fits L K k lines) (hret : Returns L K lines) (hdepth : 8 < depth ∧ ∀ i, (lines i).length + 1 < depth)
    (dev : ℕ → ℕ → Byte) (back : BitVec 16) (s : State) (arrivals : List (List Byte × List Byte))
    (hq : NoReboot 0 (s.kbd ++ arrivals.flatMap Prod.snd)) :
    ∃ (t : Thread) (mem : Word → Byte) (l : Readline.Line Machine),
      Active L.bootstacktop.toNat t [initRecord L] ∧
      Chain mem L.bootstacktop.toNat (records (bootCalls K) t.esp ++ [initRecord L]) ∧
      l.console.2.out = putText dev
        (text "6828 decimal is 15254 octal!\n" ++
          nested (callsText mem T (records (bootCalls K) t.esp ++ [initRecord L])) 5 5 ++
          (text welcome ++ text typeHelp ++ (text promptText ++
            (shell fun i => callsTable k (K.down (lines i) t).mem T (records (lines i) t.esp ++ [initRecord L])).out
              (receivedBytes dev arrivals (consInit dev back (zeroed s))) ⟨0, []⟩)))
        (consInit dev back (zeroed s)).out ∧
      Gives (fun n => i386Init dev K T k back lines depth n ⟨(arrivals, s), onEntry c'⟩) (.ok (.waiting l)) := by
  have hlim : L.bootstacktop.toNat ≤ 2 ^ 32 := le_of_lt L.bootstacktop.isLt
  obtain ⟨hs1, hs2, -⟩ := top_bounds hL
  have hboot := hfit.boot
  have hK : KSTKSIZE = 0x8000 := rfl
  have hlo : 0 < L.bootstacktop.toNat - KSTKSIZE := by omega
  obtain ⟨hact, hesp⟩ := init_stack hL h hfit
  set t₀ := K.called (zeroBss k ((Op.reserve K.initLocals).exec (onEntry c').enter)) with ht₀
  set s₀ := consInit dev back (zeroed s) with hs₀
  have hkept := called_kept K t₀
  -- test_backtrace(5)
  set call : Call := ⟨K.initCall, [5], K.testLocals⟩ with hcall
  have hroom : L.bootstacktop.toNat - KSTKSIZE + (call.size + stackSize (testCalls K 5 5)) ≤ t₀.esp.toNat := by
    have hsize : stackSize (bootCalls K) = call.size + stackSize (testCalls K 5 5) := rfl
    omega
  have hone : call.size ≤ (K.called t₀).esp.toNat := by
    show _ ≤ t₀.esp.toNat
    omega
  have hinto := into_active call hlo hlim (hkept.active hlim hact) (by
    show _ + call.size ≤ t₀.esp.toNat
    omega)
  have hinto' := (into_spec call hone).1
  obtain ⟨s₁, mem, hrun, hk, hchain, hcon⟩ := testBacktrace_run (Machine.cputchar dev) hT hlo hlim (K := K) ⟨hret.test, hret.backtrace⟩
    (n := depth) 5 (m := depth) (by omega) (x := 5) (by decide)
    (s := ⟨feed (Machine.cputchar dev) (arrivals, s₀) (text "6828 decimal is 15254 octal!\n"),
      (K.called t₀).into call⟩) hinto
    (List.forall_mem_cons.2 ⟨hret.init, List.forall_mem_cons.2 ⟨hret.spin, by simp⟩⟩) (by
      show 2 + (5 + 1) < depth
      omega) (by
      show _ ≤ ((K.called t₀).into call).esp.toNat
      rw [hinto']
      show _ ≤ t₀.esp.toNat - call.size
      omega)
  set t := s₁.thread.leave 1 with ht
  have hkt : Kept t₀ t := hkept.trans (Kept.leave call hone hk)
  have hactt : Active L.bootstacktop.toNat t [initRecord L] := hkt.active hlim hact
  have hespt : t.esp.toNat = L.bootstacktop.toNat - 8 - K.initLocals := by rw [hkt.esp, hesp]
  have hcalls : records (testCalls K 5 5) ((K.called t₀).into call).esp ++
      (call.record (K.called t₀).esp :: [initRecord L]) =
        records (bootCalls K) t.esp ++ [initRecord L] := by
    rw [into_esp call hone, hkt.esp, bootCalls, records, List.append_assoc]
    rfl
  rw [hcalls] at hchain hcon
  generalize hboots : nested (callsText mem T (records (bootCalls K) t.esp ++ [initRecord L])) 5 5 = tested
  have hconsole : s₁.console = (arrivals, { s₀ with
      out := putText dev (text "6828 decimal is 15254 octal!\n" ++ tested) s₀.out }) := by
    rw [hcon, ← Sink.feed_append, feed_cputchar, ← hboots]
    rfl
  -- the monitor
  have hq₀ : Quiet (arrivals, s₀) := by
    obtain ⟨hkbd, hshift⟩ := consInit_same dev back (zeroed s)
    rw [Quiet, hs₀, hkbd, hshift]
    exact hq
  have hq₁ : Quiet (arrivals, { s₀ with out := putText dev (text "6828 decimal is 15254 octal!\n" ++ tested) s₀.out }) := hq₀
  obtain ⟨m, hr, hend, hout⟩ := reads_schedule dev arrivals hq₁
  rw [← typed_receivedBytes, receivedBytes_out dev hq₀] at hr
  obtain ⟨l, -, hlcon, hmon⟩ := monitor_is_shell
    (fun i => callsTable k (K.down (lines i) t).mem T (records (lines i) t.esp ++ [initRecord L])) (Machine.cputchar dev)
    (separate_devices dev)
    (fun i => commands (Machine.cputchar dev) k (K.down (lines i) t).mem T depth (K.down (lines i) t).ebp)
    (line_prints hT hL hfit hret hdepth.2 hactt hespt dev) () _ hq₁ (fun _ => 0) hr hend
  refine ⟨t, mem, l, hactt, hchain, ?_, ?_⟩
  · rw [hlcon, feed_cputchar, putText_append dev (text "6828 decimal is 15254 octal!\n" ++ _), hboots]
    exact congrArg (putText dev _) hout
  · have hloop : Runs (monitorCall dev K T k lines depth t) ⟨s₁.console, fun _ => 0, 0⟩ (.ok (.waiting l)) := by
      obtain ⟨N, hN⟩ := hmon
      refine .done ⟨N, fun n hn => ?_⟩
      have hwait := hN n hn
      rw [← hconsole] at hwait
      show monitorCall dev K T k lines depth t n _ = _
      simp only [monitorCall, hwait]
    obtain ⟨N, hN⟩ := hloop.gives
    refine ⟨N, fun n hn => ?_⟩
    have hwithin : Kern.within call (testBacktrace (Machine.cputchar dev) K T depth depth 5)
        ⟨feed (Machine.cputchar dev) (arrivals, s₀) (text "6828 decimal is 15254 octal!\n"), K.called t₀⟩ =
          some (.ok ⟨s₁.console, t⟩) := by
      rw [Kern.within, hrun]
      rfl
    have hstart := i386Init_eq dev K T k back lines depth n (s := ⟨(arrivals, s), onEntry c'⟩) hwithin
    rw [← hN n hn]
    exact hstart

/-- **From the disk to the prompt, and beyond.** On any machine with a disk that gets ready, and a kernel on it, however
it is compiled: the boot loader ends in a jump to `entry`, and eleven instructions later i386_init starts. Whatever the
devices answer, and for every schedule of serial bytes and scancodes without Ctrl-Alt-Del, there are then on the
console, behind what cons_init prints, the banner, test_backtrace(5) with a backtrace of exactly its calls, the welcome
of the monitor, and the answers to the characters that cons_getc has returned, where a backtrace shows the calls of its
line; and the kernel is waiting in a line. -/
theorem kernel_transcript (lines : ℕ → List Call) (depth : ℕ) (hL : Linked L C) {d : Boot.Disk} (hd : d.Ready)
    (hk : KernelFile L C d.image) (machine : Boot.Machine) (cpu : Processor) (hpg : I386.pg cpu.cr = false) (hT : T.HasHeader)
    (hfit : Fits L K k lines) (hret : Returns L K lines) (hdepth : 8 < depth ∧ ∀ i, (lines i).length + 1 < depth)
    (dev : ℕ → ℕ → Byte) (back : BitVec 16) (s : State) (arrivals : List (List Byte × List Byte))
    (hq : NoReboot 0 (s.kbd ++ arrivals.flatMap Prod.snd)) :
    ∃ (m' : Boot.Machine) (c' : Processor) (t : Thread) (mem : Word → Byte) (l : Readline.Line Machine),
      Gives (fun n => Boot.bootmain d n machine) (.entry (RELOC L.entry) m') ∧
      Processor.steps C 11 { cpu with eip := RELOC L.entry, mem := m'.ram.byte } = some c' ∧ c'.eip = L.i386Init ∧
      Active L.bootstacktop.toNat t [initRecord L] ∧
      Chain mem L.bootstacktop.toNat (records (bootCalls K) t.esp ++ [initRecord L]) ∧
      l.console.2.out = putText dev
        (text "6828 decimal is 15254 octal!\n" ++
          nested (callsText mem T (records (bootCalls K) t.esp ++ [initRecord L])) 5 5 ++
          (text welcome ++ text typeHelp ++ (text promptText ++
            (shell fun i => callsTable k (K.down (lines i) t).mem T (records (lines i) t.esp ++ [initRecord L])).out
              (receivedBytes dev arrivals (consInit dev back (zeroed s))) ⟨0, []⟩)))
        (consInit dev back (zeroed s)).out ∧
      Gives (fun n => i386Init dev K T k back lines depth n ⟨(arrivals, s), onEntry c'⟩) (.ok (.waiting l)) := by
  obtain ⟨m', c', hboot, hsteps, hstart, -⟩ := Entry.boot_starts hL hd hk machine cpu hpg
  obtain ⟨t, mem, l, hact, hchain, hout, hrun⟩ := init_transcript hL hstart hT hfit hret hdepth dev back s arrivals hq
  exact ⟨m', c', t, mem, l, hboot, hsteps, hstart.eip, hact, hchain, hout, hrun⟩

end Run

/-- the link map of the kernel on the disk of the boot loader's witness -/
def bootMap : Linker := ⟨0x10000c, 0xf010000c, 0xf01019e9, 0xf0112000, 0xf0112644⟩

/-- monitor and runcmd, with a line of one word -/
def oneWord : List Call := [⟨0xf0100109, [0], 24⟩, ⟨0xf0100a62, [0xf0112340, 0], 96⟩, ⟨0xf0100998, [1, 0xf010ff20, 0], 60⟩]

/-- a letter at the serial port and the Enter key, on devices that are ready -/
theorem kernel_transcript_enter : ∃ (m' : Boot.Machine) (c' : Processor) (t : Thread) (mem : Word → Byte)
    (l : Readline.Line Machine),
      Gives (fun n => Boot.bootmain Entry.kernelDisk n Boot.emptyMachine) (.entry 0x10000c m') ∧
      Processor.steps I386.i386 11 { Entry.bootCpu with eip := 0x10000c, mem := m'.ram.byte } = some c' ∧
      l.console.2.out = putText (fun _ _ => 0xE0)
        (text "6828 decimal is 15254 octal!\n" ++
          nested (callsText mem Kdebug.monitorTable (records (bootCalls someCompiled) t.esp ++ [initRecord Entry.bootSymbols])) 5 5 ++
          (text welcome ++ text typeHelp ++ (text promptText ++
            (shell fun _ => callsTable bootMap (someCompiled.down oneWord t).mem Kdebug.monitorTable
              (records oneWord t.esp ++ [initRecord Entry.bootSymbols])).out (bytes "x\n") ⟨0, []⟩)))
        (consInit (fun _ _ => 0xE0) 0xA55A (zeroed Console.bootState)).out ∧
      Gives (fun n => i386Init (fun _ _ => 0xE0) someCompiled Kdebug.monitorTable bootMap 0xA55A (fun _ => oneWord) 9 n
        ⟨([(bytes "x", [0x1C]), ([], [])], Console.bootState), onEntry c'⟩) (.ok (.waiting l)) := by
  obtain ⟨m', c', t, mem, l, hboot, hsteps, -, -, -, hout, hrun⟩ := kernel_transcript (L := Entry.bootSymbols)
    (C := I386.i386) (K := someCompiled) (k := bootMap) (T := Kdebug.monitorTable) (fun _ => oneWord) 9
    Entry.bootSymbols_linked Entry.kernelDisk_ready Entry.kernelDisk_file Boot.emptyMachine Entry.bootCpu (by decide)
    Kdebug.monitorTable_lined.header ⟨by decide, by decide, by decide, fun _ => by decide⟩
    ⟨by decide, by decide, by decide, by decide, fun _ => by decide⟩ ⟨by decide, fun _ => by decide⟩ (fun _ _ => 0xE0) 0xA55A
    Console.bootState [(bytes "x", [0x1C]), ([], [])] (by decide +kernel)
  have hcs : receivedBytes (fun _ _ => 0xE0) [(bytes "x", [0x1C]), ([], [])]
      (consInit (fun _ _ => 0xE0) 0xA55A (zeroed Console.bootState)) = bytes "x\n" := by decide +kernel
  rw [hcs] at hout
  exact ⟨m', c', t, mem, l, hboot, hsteps, hout, hrun⟩

end Jos.Kernel
