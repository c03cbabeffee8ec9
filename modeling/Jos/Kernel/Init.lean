/-
`test_backtrace` of kern/init.c, on its stack.

What the compiler chooses is a parameter: the bytes that a function reserves, and the addresses that calls return to. A call
that has returned leaves anything below the stack pointer. The argument is an int; as long as it is positive the function
calls itself, and at its deepest point it calls mon_backtrace.

- `testBacktrace`: the function, with its calls on the stack.
- `testBacktrace_run`: by induction on the depth.
- **`testBacktrace_prints`**: for every argument, and from every stack with room for the calls.
-/
import Jos.Kernel.Calls

namespace Jos.Kernel

open Frames
open Kdebug (DebugInfo ULIM)
open Monitor (Fault monBacktrace cprintf cprintf_eq renders_text text)
open Printfmt (Arg Renders renders_dec signedText signedVal)
open Sink (feed)

/-! ## Model -/

/-- what the compiler has chosen -/
structure Compiled where
  /-- the bytes that the functions reserve -/
  initLocals : ℕ
  testLocals : ℕ
  backtraceLocals : ℕ
  /-- the return addresses of the calls: of test_backtrace in i386_init and in itself, and of mon_backtrace in it -/
  initCall : Word
  testCall : Word
  backtraceCall : Word
  /-- what calls leave below the stack pointer -/
  scratch : Thread → Word → Byte

/-- the console, and the stack -/
structure Kern (σ : Type) where
  console : σ
  thread : Thread

variable {σ : Type} (cputchar : Word → σ → σ) (K : Compiled) (T : DebugInfo)

/-- the stack after a call that has returned -/
def Compiled.called (s : Thread) : Thread :=
  { s with mem := fun a => if a.toNat < s.esp.toNat then K.scratch s a else s.mem a }

/-- `cprintf(fmt, ...)` -/
def Kern.cprintf (fmt : String) (ap : List Arg) (s : Kern σ) : Except Fault (Kern σ) :=
  (Monitor.cprintf cputchar fmt ap s.console).map fun console => ⟨console, K.called s.thread⟩

/-- a call of a function with this body, and its return -/
def Kern.within (c : Call) (body : Kern σ → Option (Except Fault (Kern σ))) (s : Kern σ) :
    Option (Except Fault (Kern σ)) :=
  (body { s with thread := s.thread.into c }).map fun r =>
    r.map fun s' => { s' with thread := s'.thread.leave c.args.length }

/-- the body of `mon_backtrace`, with n steps of fuel -/
def Kern.backtrace (n : ℕ) (s : Kern σ) : Option (Except Fault (Kern σ)) :=
  (monBacktrace cputchar s.thread.mem T n s.thread.ebp s.console).map fun r =>
    r.map fun r => ⟨r.2, K.called s.thread⟩

/-- `test_backtrace(x)`; the first two arguments are fuel, for mon_backtrace and for the recursion -/
def testBacktrace (n : ℕ) : ℕ → Word → Kern σ → Option (Except Fault (Kern σ))
  | 0, _, _ => none
  | m + 1, x, s =>
    match s.cprintf cputchar K "entering test_backtrace %d\n" [.word x] with
    | .error f => some (.error f)
    | .ok s =>
      match
        if 0 < x.toInt then s.within ⟨K.testCall, [x - 1], K.testLocals⟩ (testBacktrace n m (x - 1))
        else s.within ⟨K.backtraceCall, [0, 0, 0], K.backtraceLocals⟩ (Kern.backtrace cputchar K T n) with
      | none => none
      | some (.error f) => some (.error f)
      | some (.ok s) => some (s.cprintf cputchar K "leaving test_backtrace %d\n" [.word x])

/-! ## What it prints -/

def enterText (z : ℤ) : List Word := text "entering test_backtrace " ++ signedText z ++ text "\n"

def leaveText (z : ℤ) : List Word := text "leaving test_backtrace " ++ signedText z ++ text "\n"

/-- k calls deep, around t -/
def nested (t : List Word) : ℕ → ℤ → List Word
  | 0, z => enterText z ++ t ++ leaveText z
  | k + 1, z => enterText z ++ nested t k (z - 1) ++ leaveText z

/-- the calls down to that of mon_backtrace, k of them of test_backtrace -/
def testCalls : ℕ → Word → List Call
  | 0, _ => [⟨K.backtraceCall, [0, 0, 0], K.backtraceLocals⟩]
  | k + 1, x => ⟨K.testCall, [x - 1], K.testLocals⟩ :: testCalls k (x - 1)

theorem called_kept (s : Thread) : Kept s (K.called s) := ⟨rfl, rfl, fun _ h _ => if_neg (Nat.not_lt.2 h)⟩

theorem word_dec (x : Word) : BitVec.ofInt 32 x.toInt = x ∧ signedVal 0 x.toInt = x.toInt := by
  have h1 := BitVec.le_toInt x
  have h2 := BitVec.toInt_lt (x := x)
  refine ⟨BitVec.ofInt_toInt, ?_⟩
  rw [signedVal, show Printfmt.bits 0 = 32 from rfl]
  exact Int.bmod_eq_of_le (by simpa using h1) (by simpa using h2)

/-- a line with a number -/
theorem renders_line (l : String) (hl : ∀ x ∈ bytes l, x ≠ chr '%' ∧ x ≠ 0#8) (x : Word) :
    Renders (bytes l ++ bytes "%d" ++ bytes "\n") [.word x] (text l ++ signedText x.toInt ++ text "\n") := by
  have hdec := renders_dec x.toInt
  rw [(word_dec x).1, (word_dec x).2] at hdec
  exact ((renders_text l hl).append hdec).append (renders_text "\n" (by decide +kernel))

theorem renders_enter (x : Word) : Renders (bytes "entering test_backtrace %d\n") [.word x] (enterText x.toInt) :=
  renders_line "entering test_backtrace " (by decide +kernel) x

theorem renders_leave (x : Word) : Renders (bytes "leaving test_backtrace %d\n") [.word x] (leaveText x.toInt) :=
  renders_line "leaving test_backtrace " (by decide +kernel) x

theorem kern_cprintf {fmt : String} {ap : List Arg} {t : List Word} (h : Renders (bytes fmt) ap t) (s : Kern σ) :
    s.cprintf cputchar K fmt ap = .ok ⟨feed cputchar s.console t, K.called s.thread⟩ := by
  rw [Kern.cprintf, cprintf_eq cputchar h]
  rfl

variable {T K}

/-- the two lines, around the call -/
theorem testBacktrace_step {n m : ℕ} {x : Word} {s : Kern σ} (s₁ : Kern σ)
    (h : (if 0 < x.toInt then
        Kern.within ⟨K.testCall, [x - 1], K.testLocals⟩ (testBacktrace cputchar K T n m (x - 1))
      else Kern.within ⟨K.backtraceCall, [0, 0, 0], K.backtraceLocals⟩ (Kern.backtrace cputchar K T n))
        ⟨feed cputchar s.console (enterText x.toInt), K.called s.thread⟩ = some (.ok s₁)) :
    testBacktrace cputchar K T n (m + 1) x s =
      some (.ok ⟨feed cputchar s₁.console (leaveText x.toInt), K.called s₁.thread⟩) := by
  rw [testBacktrace, kern_cprintf cputchar K (renders_enter x)]
  have hleave := congrArg some (kern_cprintf cputchar K (renders_leave x) s₁)
  split_ifs at h with hx
  · simp only [if_pos hx, h]
    exact hleave
  · simp only [if_neg hx, h]
    exact hleave

/-- mon_backtrace, from the call on -/
theorem within_backtrace (hT : T.HasHeader) {lo lim : ℕ} (hlo : 0 < lo) (hlim : lim ≤ 2 ^ 32) {n : ℕ} (c : Call)
    (hret : ULIM ≤ c.ret) {s : Kern σ} {l : List Record} (h : Active lim s.thread l) (hl : ∀ r ∈ l, ULIM ≤ r.ret)
    (hn : l.length + 1 < n) (hroom : lo + c.size ≤ s.thread.esp.toNat) :
    ∃ s' mem, s.within c (Kern.backtrace cputchar K T n) = some (.ok s') ∧ Kept s.thread s'.thread ∧
      Chain mem lim (records [c] s.thread.esp ++ l) ∧
      s'.console = feed cputchar s.console (callsText mem T (records [c] s.thread.esp ++ l)) := by
  have hact : Active lim (s.thread.into c) (records [c] s.thread.esp ++ l) :=
    into_active c hlo hlim h hroom
  have hret' : ∀ r ∈ records [c] s.thread.esp ++ l, ULIM ≤ r.ret := List.forall_mem_cons.2 ⟨hret, hl⟩
  have hlen : (records [c] s.thread.esp ++ l).length < n := hn
  generalize records [c] s.thread.esp ++ l = calls at hact hret' hlen ⊢
  have hback := monBacktrace_calls cputchar hT hact.chain hret' hlen s.console
  rw [← hact.ebp] at hback
  refine ⟨⟨feed cputchar s.console (callsText (s.thread.into c).mem T calls),
    (K.called (s.thread.into c)).leave c.args.length⟩, (s.thread.into c).mem, ?_,
    ?_, hact.chain, rfl⟩
  · simp only [Kern.within, Kern.backtrace, hback]
    rfl
  · have hsize : c.size ≤ s.thread.esp.toNat := by omega
    exact Kept.leave c hsize (called_kept K _)

/-- test_backtrace, k calls deep -/
theorem testBacktrace_run (hT : T.HasHeader) {lo lim : ℕ} (hlo : 0 < lo) (hlim : lim ≤ 2 ^ 32)
    (hret : ULIM ≤ K.testCall ∧ ULIM ≤ K.backtraceCall) {n : ℕ} (k : ℕ) {m : ℕ} (hm : k < m) {x : Word}
    (hx : x.toInt.toNat = k) {s : Kern σ} {l : List Record} (h : Active lim s.thread l) (hl : ∀ r ∈ l, ULIM ≤ r.ret)
    (hn : l.length + (k + 1) < n) (hroom : lo + stackSize (testCalls K k x) ≤ s.thread.esp.toNat) :
    ∃ s' mem, testBacktrace cputchar K T n m x s = some (.ok s') ∧ Kept s.thread s'.thread ∧
      Chain mem lim (records (testCalls K k x) s.thread.esp ++ l) ∧
      s'.console = feed cputchar s.console
        (nested (callsText mem T (records (testCalls K k x) s.thread.esp ++ l)) k x.toInt) := by
  induction k generalizing m x s l with
  | zero =>
    obtain ⟨m, rfl⟩ : ∃ j, m = j + 1 := ⟨m - 1, by omega⟩
    have hkept := called_kept K s.thread
    obtain ⟨s₁, mem, hrun, hk₁, hchain, hcon⟩ := within_backtrace cputchar hT hlo hlim (n := n)
      ⟨K.backtraceCall, [0, 0, 0], K.backtraceLocals⟩ hret.2
      (s := ⟨feed cputchar s.console (enterText x.toInt), K.called s.thread⟩) (hkept.active hlim h) hl (by omega) hroom
    refine ⟨⟨feed cputchar s₁.console (leaveText x.toInt), K.called s₁.thread⟩, mem, ?_,
      hkept.trans (hk₁.trans (called_kept K s₁.thread)), hchain, ?_⟩
    · have h0 : ¬ 0 < x.toInt := by omega
      refine testBacktrace_step cputchar s₁ ?_
      rw [if_neg h0]
      exact hrun
    · show feed cputchar s₁.console _ = _
      rw [hcon, nested]
      simp only [Sink.feed_append]
      rfl
  | succ k ih =>
    obtain ⟨m, rfl⟩ : ∃ j, m = j + 1 := ⟨m - 1, by omega⟩
    have hpos : 0 < x.toInt := by omega
    have hlt := BitVec.toInt_lt (x := x)
    have hpred : (x - 1).toInt = x.toInt - 1 := by
      rw [BitVec.toInt_sub]
      exact Int.bmod_eq_of_le (by show _ ≤ x.toInt - 1; omega) (by show x.toInt - 1 < _; omega)
    have hkept := called_kept K s.thread
    set c : Call := ⟨K.testCall, [x - 1], K.testLocals⟩ with hc
    have hsize : lo + (c.size + stackSize (testCalls K k (x - 1))) ≤ s.thread.esp.toNat := hroom
    have hone : c.size ≤ (K.called s.thread).esp.toNat := by
      show _ ≤ s.thread.esp.toNat
      omega
    have hact := into_active c hlo hlim (hkept.active hlim h) (by
      show lo + c.size ≤ s.thread.esp.toNat
      omega)
    have hesp := into_esp c hone
    have hesp' := (into_spec c hone).1
    obtain ⟨s₁, mem, hrun, hk₁, hchain, hcon⟩ := ih (m := m) (by omega) (x := x - 1) (by omega)
      (s := ⟨feed cputchar s.console (enterText x.toInt), (K.called s.thread).into c⟩) hact
      (List.forall_mem_cons.2 ⟨hret.1, hl⟩) (by rw [List.length_cons]; omega) (by
        show lo + _ ≤ _
        rw [hesp']
        show _ ≤ s.thread.esp.toNat - c.size
        omega)
    have hrecords : records (testCalls K k (x - 1)) ((K.called s.thread).into c).esp ++
        (c.record s.thread.esp :: l) =
          records (testCalls K (k + 1) x) s.thread.esp ++ l := by
      rw [hesp, testCalls, records, List.append_assoc]
      rfl
    have hchain' : Chain mem lim (records (testCalls K (k + 1) x) s.thread.esp ++ l) := hrecords ▸ hchain
    have hcon' : s₁.console = feed cputchar (feed cputchar s.console (enterText x.toInt))
        (nested (callsText mem T (records (testCalls K (k + 1) x) s.thread.esp ++ l)) k (x - 1).toInt) := by
      rw [← hrecords]
      exact hcon
    have hk₂ : Kept s.thread (s₁.thread.leave 1) := hkept.trans (Kept.leave c hone hk₁)
    refine ⟨⟨feed cputchar s₁.console (leaveText x.toInt), K.called (s₁.thread.leave 1)⟩, mem, ?_,
      hk₂.trans (called_kept K _), hchain', ?_⟩
    · refine testBacktrace_step cputchar ⟨s₁.console, s₁.thread.leave 1⟩ ?_
      rw [if_pos hpos, Kern.within, hrun]
      rfl
    · show feed cputchar s₁.console _ = _
      rw [hcon', nested, hpred]
      simp only [Sink.feed_append]

theorem stackSize_testCalls (k : ℕ) (x : Word) :
    stackSize (testCalls K k x) = k * (12 + K.testLocals) + (20 + K.backtraceLocals) := by
  induction k generalizing x with
  | zero =>
    show 20 + K.backtraceLocals + 0 = _
    omega
  | succ k ih =>
    have hsum : stackSize (testCalls K (k + 1) x) = 12 + K.testLocals + stackSize (testCalls K k (x - 1)) := rfl
    rw [hsum, ih, Nat.succ_mul]
    omega

/-- **test_backtrace.** For every argument x, however the functions are compiled and whatever calls leave behind: it
says that it enters x, x - 1 and so on down to 0 (x alone if x is not positive), prints a backtrace of the calls of
mon_backtrace and of itself that are active then and of those that were before, says in the opposite order that it
leaves, and returns with the stack of its caller as it was. -/
theorem testBacktrace_prints (hT : T.HasHeader) (lo lim : ℕ) (hlo : 0 < lo) (hlim : lim ≤ 2 ^ 32)
    (hret : ULIM ≤ K.testCall ∧ ULIM ≤ K.backtraceCall) (x : Word) {s : Kern σ} {l : List Record} (h : Active lim s.thread l)
    (hl : ∀ r ∈ l, ULIM ≤ r.ret) {m n : ℕ} (hm : x.toInt < m) (hm' : 0 < m) (hn : l.length + (x.toInt.toNat + 1) < n)
    (hroom : lo + (x.toInt.toNat * (12 + K.testLocals) + (20 + K.backtraceLocals)) ≤ s.thread.esp.toNat) :
    ∃ s' mem, testBacktrace cputchar K T n m x s = some (.ok s') ∧ Kept s.thread s'.thread ∧ Active lim s'.thread l ∧
      Chain mem lim (records (testCalls K x.toInt.toNat x) s.thread.esp ++ l) ∧
      s'.console = feed cputchar s.console
        (nested (callsText mem T (records (testCalls K x.toInt.toNat x) s.thread.esp ++ l)) x.toInt.toNat x.toInt) := by
  rw [← stackSize_testCalls x.toInt.toNat x] at hroom
  obtain ⟨s', mem, hrun, hkept, hchain, hcon⟩ := testBacktrace_run cputchar hT hlo hlim hret x.toInt.toNat (m := m) (by omega) rfl
    h hl hn hroom
  exact ⟨s', mem, hrun, hkept, hkept.active hlim h, hchain, hcon⟩

/-- functions with the frames of a compiled kernel -/
def someCompiled : Compiled := ⟨12, 20, 60, 0xf01000f4, 0xf0100068, 0xf0100087, fun _ _ => 0xCC⟩

/-- two calls deep, on an empty stack -/
theorem testBacktrace_prints_two : ∃ s' mem,
    testBacktrace Sink.snoc someCompiled Kdebug.monitorTable 4 3 2 ⟨[], ⟨fun _ => 0, 0x1000, 0⟩⟩ = some (.ok s') ∧
      s'.thread.esp = 0x1000 ∧ s'.thread.ebp = 0 ∧
      Chain mem 0x1000 [⟨0xfac, 0xf0100087, [0, 0, 0]⟩, ⟨0xfd4, 0xf0100068, [0]⟩, ⟨0xff4, 0xf0100068, [1]⟩] ∧
      s'.console = feed Sink.snoc [] (nested (callsText mem Kdebug.monitorTable
        [⟨0xfac, 0xf0100087, [0, 0, 0]⟩, ⟨0xfd4, 0xf0100068, [0]⟩, ⟨0xff4, 0xf0100068, [1]⟩]) 2 2) := by
  obtain ⟨s', mem, hrun, hkept, -, hchain, hcon⟩ := testBacktrace_prints Sink.snoc (K := someCompiled)
    Kdebug.monitorTable_lined.header 1 0x1000 (by decide) (by decide) (by decide) 2
    (s := ⟨[], ⟨fun _ => 0, 0x1000, 0⟩⟩) (l := []) ⟨rfl, by decide, trivial⟩ (by simp) (m := 3) (n := 4) (by decide) (by decide)
    (by decide) (by decide)
  exact ⟨s', mem, hrun, hkept.esp, hkept.ebp, hchain, hcon⟩

end Jos.Kernel
