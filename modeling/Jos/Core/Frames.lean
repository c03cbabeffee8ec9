/-
Stacks with frame pointers: a function saves the frame pointer of its caller below its return address, and points to it.

The stack grows downwards. What a call leaves on it (the saved frame pointer, the return address, the arguments) is its
record; the records of the calls that have not returned are a linked list in memory, with 0 at its end.

- `Active`: memory and the two pointers, against the list of the records.
- `step_active`: calls, returns, and stores that keep off the records.
- **`run_active`**: whole runs.
- `Chain.walk`: from the frame pointer on, memory leads from record to record.
- `Kept`: what a function that has returned leaves as it was.
-/
import Jos.Core.Processor

namespace Jos.Frames

open I386 (littleWord put)

abbrev Mem : Type := BitVec 32 → BitVec 8

/-- the word at a -/
def word (mem : Mem) (a : BitVec 32) : BitVec 32 := le32 (fun i => mem (a + BitVec.ofNat 32 i)) 0

/-- memory, the stack pointer and the frame pointer -/
structure Thread where
  mem : Mem
  esp : BitVec 32
  ebp : BitVec 32

namespace Thread

def push (v : BitVec 32) (s : Thread) : Thread :=
  { s with mem := put (s.esp - 4) (littleWord v) s.mem, esp := s.esp - 4 }

/-- the arguments of a call, the last one first -/
def pushArgs : List (BitVec 32) → Thread → Thread
  | [], s => s
  | v :: l, s => (pushArgs l s).push v

/-- the arguments and the return address -/
def call (ret : BitVec 32) (args : List (BitVec 32)) (s : Thread) : Thread := (s.pushArgs args).push ret

/-- `push %ebp; mov %esp, %ebp` -/
def enter (s : Thread) : Thread := { s.push s.ebp with ebp := s.esp - 4 }

/-- `leave; ret`, and n arguments are popped -/
def leave (n : ℕ) (s : Thread) : Thread :=
  { s with esp := s.ebp + BitVec.ofNat 32 (8 + 4 * n), ebp := word s.mem s.ebp }

/-- where `leave; ret` goes -/
def returnsTo (s : Thread) : BitVec 32 := word s.mem (s.ebp + 4)

end Thread

/-! ## Operations -/

inductive Op where
  | call (ret : BitVec 32) (args : List (BitVec 32))
  | leave (n : ℕ)
  | reserve (n : ℕ)
  | release (n : ℕ)
  | write (a : BitVec 32) (b : BitVec 8)

/-- an active call -/
structure Record where
  base : BitVec 32
  ret : BitVec 32
  args : List (BitVec 32)
deriving DecidableEq, Repr

/-- the end of a record -/
def Record.stop (r : Record) : ℕ := r.base.toNat + (8 + 4 * r.args.length)

/-- the frame pointer while the calls of l are active -/
def saved : List Record → BitVec 32
  | [] => 0
  | r :: _ => r.base

/-- the stack above lim is not in use -/
def first (lim : ℕ) : List Record → ℕ
  | [] => lim
  | r :: _ => r.base.toNat

def Op.exec : Op → Thread → Thread
  | call ret args, s => (s.call ret args).enter
  | leave n, s => s.leave n
  | reserve n, s => { s with esp := s.esp - BitVec.ofNat 32 n }
  | release n, s => { s with esp := s.esp + BitVec.ofNat 32 n }
  | write a b, s => { s with mem := Function.update s.mem a b }

/-- the active calls after an operation -/
def Op.calls (s : Thread) : Op → List Record → List Record
  | call ret args, l => ⟨s.esp - BitVec.ofNat 32 (8 + 4 * args.length), ret, args⟩ :: l
  | leave _, l => l.tail
  | reserve _, l => l
  | release _, l => l
  | write _ _, l => l

/-- the operations of a program that keeps to its stack: above lo, and off the records -/
def Op.Safe (lo lim : ℕ) (s : Thread) (l : List Record) : Op → Prop
  | call _ args => lo + (8 + 4 * args.length) ≤ s.esp.toNat
  | leave n => l.head?.map (fun r => r.args.length) = some n
  | reserve n => lo + n ≤ s.esp.toNat
  | release n => s.esp.toNat + n ≤ first lim l
  | write a _ => ∀ r ∈ l, a.toNat < r.base.toNat ∨ r.stop ≤ a.toNat

instance decidableSafe (lo lim : ℕ) (s : Thread) (l : List Record) : ∀ o : Op, Decidable (o.Safe lo lim s l)
  | .call _ _ => inferInstanceAs (Decidable (_ ≤ _))
  | .leave _ => inferInstanceAs (Decidable (_ = _))
  | .reserve _ => inferInstanceAs (Decidable (_ ≤ _))
  | .release _ => inferInstanceAs (Decidable (_ ≤ _))
  | .write _ _ => inferInstanceAs (Decidable (∀ r ∈ l, _ ∨ _))

def execAll (ops : List Op) (s : Thread) : Thread := ops.foldl (fun s o => o.exec s) s

/-- operations, with the calls that are active -/
def run : List Op → Thread × List Record → Thread × List Record
  | [], p => p
  | o :: ops, p => run ops (o.exec p.1, o.calls p.1 p.2)

theorem run_fst (ops : List Op) (p : Thread × List Record) : (run ops p).1 = execAll ops p.1 := by
  induction ops generalizing p with
  | nil => rfl
  | cons o ops ih => exact ih _

/-- every operation is safe. Memory is flat and has nothing but the stack in it: that the program's own code, or the
tables that map its memory, are not stored to is left to the program. -/
def SafeRun (lo lim : ℕ) : List Op → Thread × List Record → Prop
  | [], _ => True
  | o :: ops, p => o.Safe lo lim p.1 p.2 ∧ SafeRun lo lim ops (o.exec p.1, o.calls p.1 p.2)

instance decidableSafeRun (lo lim : ℕ) : ∀ ops p, Decidable (SafeRun lo lim ops p)
  | [], _ => isTrue trivial
  | o :: ops, p =>
    haveI := decidableSafeRun lo lim ops (o.exec p.1, o.calls p.1 p.2)
    inferInstanceAs (Decidable (_ ∧ _))

/-! ## Records in memory -/

/-- memory holds the record, with the saved frame pointer -/
structure Record.In (r : Record) (ebp : BitVec 32) (mem : Mem) : Prop where
  saved : word mem r.base = ebp
  ret : word mem (r.base + 4) = r.ret
  args : ∀ i (h : i < r.args.length), word mem (r.base + 8 + 4 * BitVec.ofNat 32 i) = r.args.get ⟨i, h⟩

/-- the records of l, the first one lowest -/
def Chain (mem : Mem) (lim : ℕ) : List Record → Prop
  | [] => True
  | r :: l => 0 < r.base.toNat ∧ r.stop ≤ first lim l ∧ r.In (saved l) mem ∧ Chain mem lim l

/-- the calls of l are active -/
structure Active (lim : ℕ) (s : Thread) (l : List Record) : Prop where
  ebp : s.ebp = saved l
  esp : s.esp.toNat ≤ first lim l
  chain : Chain s.mem lim l

/-- mem and mem' are the same from a up to b -/
def Agree (mem mem' : Mem) (a b : ℕ) : Prop := ∀ x : BitVec 32, a ≤ x.toNat → x.toNat < b → mem' x = mem x

theorem Agree.mono {mem mem' : Mem} {a b c d : ℕ} (h : Agree mem mem' a b) (hac : a ≤ c) (hdb : d ≤ b) :
    Agree mem mem' c d := fun x h1 h2 => h x (le_trans hac h1) (lt_of_lt_of_le h2 hdb)

theorem Agree.trans {m₁ m₂ m₃ : Mem} {a b : ℕ} (h : Agree m₁ m₂ a b) (h' : Agree m₂ m₃ a b) : Agree m₁ m₃ a b :=
  fun x h1 h2 => (h' x h1 h2).trans (h x h1 h2)

theorem word_congr {mem mem' : Mem} {a : BitVec 32} {lo hi : ℕ} (h : Agree mem mem' lo hi) (hlo : lo ≤ a.toNat)
    (hhi : a.toNat + 4 ≤ hi) (hw : a.toNat + 4 ≤ 2 ^ 32) : word mem' a = word mem a := by
  apply le32_congr (n := 4) _ (by decide)
  intro i hi'
  have hx := Ram.toNat_off (a := a) (i := i) (by omega)
  exact h _ (by omega) (by omega)

/-- the address of an argument -/
theorem arg_off (a : BitVec 32) (i : ℕ) : a + 8 + 4 * BitVec.ofNat 32 i = a + BitVec.ofNat 32 (8 + 4 * i) := by
  have h4 : (4 : BitVec 32) * BitVec.ofNat 32 i = BitVec.ofNat 32 (4 * i) := (BitVec.ofNat_mul 4 i).symm
  rw [h4, ← Ram.off_off]
  rfl

/-- a record depends on its own bytes only -/
theorem Record.In.congr {r : Record} {ebp : BitVec 32} {mem mem' : Mem} (h : r.In ebp mem) (hr : r.stop ≤ 2 ^ 32)
    (hm : Agree mem mem' r.base.toNat r.stop) : r.In ebp mem' := by
  unfold Record.stop at hr hm
  refine ⟨?_, ?_, fun i hi => ?_⟩
  · rw [word_congr hm (le_refl _) (by omega) (by omega), h.saved]
  · have h4 : (r.base + 4).toNat = r.base.toNat + 4 := Ram.toNat_off (a := r.base) (i := 4) (by omega)
    rw [word_congr hm (by omega) (by omega) (by omega), h.ret]
  · have hx : (r.base + 8 + 4 * BitVec.ofNat 32 i).toNat = r.base.toNat + (8 + 4 * i) := by
      rw [arg_off, Ram.toNat_off (by omega)]
    rw [word_congr hm (by omega) (by omega) (by omega), h.args i hi]

/-- where the records of a chain are -/
theorem Chain.bounds {mem : Mem} {lim : ℕ} {l : List Record} (h : Chain mem lim l) :
    first lim l ≤ lim ∧ ∀ r ∈ l, first lim l ≤ r.base.toNat ∧ r.stop ≤ lim := by
  induction l with
  | nil => exact ⟨le_refl lim, fun r hr => absurd hr List.not_mem_nil⟩
  | cons r l ih =>
    obtain ⟨-, hstop, -, hl⟩ := h
    obtain ⟨hfirst, hall⟩ := ih hl
    have hbase : r.base.toNat ≤ r.stop := Nat.le_add_right _ _
    refine ⟨by show r.base.toNat ≤ lim; omega, fun x hx => ?_⟩
    rcases List.mem_cons.1 hx with rfl | hx
    · exact ⟨le_refl _, le_trans hstop hfirst⟩
    · obtain ⟨h1, h2⟩ := hall x hx
      exact ⟨by show r.base.toNat ≤ _; omega, h2⟩

theorem Chain.congr {mem mem' : Mem} {lim : ℕ} (hlim : lim ≤ 2 ^ 32) {l : List Record} (h : Chain mem lim l)
    (hm : ∀ r ∈ l, Agree mem mem' r.base.toNat r.stop) : Chain mem' lim l := by
  induction l with
  | nil => trivial
  | cons r l ih =>
    have hstop := (h.bounds.2 r List.mem_cons_self).2
    obtain ⟨hpos, hnext, hin, hl⟩ := h
    exact ⟨hpos, hnext, hin.congr (le_trans hstop hlim) (hm r List.mem_cons_self),
      ih hl fun x hx => hm x (List.mem_cons_of_mem r hx)⟩

/-- what happens below the records does not matter -/
theorem Chain.above {mem mem' : Mem} {lim a : ℕ} (hlim : lim ≤ 2 ^ 32) {l : List Record} (h : Chain mem lim l)
    (ha : a ≤ first lim l) (hm : Agree mem mem' a lim) : Chain mem' lim l :=
  h.congr hlim fun r hr => by
    obtain ⟨h1, h2⟩ := h.bounds.2 r hr
    exact hm.mono (le_trans ha h1) h2

/-! ## Pushing -/

section Push

variable {s : Thread}

theorem push_esp (v : BitVec 32) (h : 4 ≤ s.esp.toNat) : (s.push v).esp.toNat = s.esp.toNat - 4 := by
  show (s.esp - 4).toNat = _
  rw [BitVec.toNat_sub_of_le (by rw [BitVec.le_def]; exact h)]
  rfl

theorem push_word (v : BitVec 32) (h : 4 ≤ s.esp.toNat) : word (s.push v).mem (s.push v).esp = v := by
  apply I386.le32_littleWord
  intro i hi
  have hesp : (s.esp - 4).toNat = s.esp.toNat - 4 := push_esp v h
  have hfit : (s.esp - 4).toNat + (littleWord v).length ≤ 2 ^ 32 := by
    have := s.esp.isLt
    show _ + 4 ≤ _
    omega
  rw [Nat.zero_add]
  exact Ram.stores_inside (littleWord v) ⟨s.mem, []⟩ hfit hi

theorem push_above (v : BitVec 32) (h : 4 ≤ s.esp.toNat) (b : ℕ) : Agree s.mem (s.push v).mem s.esp.toNat b := by
  intro x hx _
  have hesp : (s.esp - 4).toNat = s.esp.toNat - 4 := push_esp v h
  have := s.esp.isLt
  refine Ram.stores_outside (littleWord v) ⟨s.mem, []⟩ fun i hi he => ?_
  rw [show (littleWord v).length = 4 from rfl] at hi
  rw [he, Ram.toNat_off (by omega)] at hx
  omega

/-- the arguments of a call, from the stack pointer on -/
theorem pushArgs_spec (args : List (BitVec 32)) (h : 4 * args.length ≤ s.esp.toNat) :
    (s.pushArgs args).esp.toNat = s.esp.toNat - 4 * args.length ∧ (s.pushArgs args).ebp = s.ebp ∧
      (∀ b, Agree s.mem (s.pushArgs args).mem s.esp.toNat b) ∧
      ∀ i (hi : i < args.length), word (s.pushArgs args).mem ((s.pushArgs args).esp + BitVec.ofNat 32 (4 * i)) =
        args.get ⟨i, hi⟩ := by
  induction args with
  | nil => exact ⟨rfl, rfl, fun _ _ _ _ => rfl, fun i hi => absurd hi (Nat.not_lt_zero i)⟩
  | cons v l ih =>
    rw [List.length_cons] at h
    obtain ⟨hesp, hebp, hmem, hargs⟩ := ih (by omega)
    have h4 : 4 ≤ (s.pushArgs l).esp.toNat := by omega
    have hpush := push_esp v h4
    have hlt := s.esp.isLt
    refine ⟨?_, hebp, fun b => ?_, fun i hi => ?_⟩
    · show ((s.pushArgs l).push v).esp.toNat = _
      rw [hpush, hesp, List.length_cons]
      omega
    · exact (hmem b).trans ((push_above v h4 b).mono (by omega) (le_refl b))
    · show word ((s.pushArgs l).push v).mem _ = _
      cases i with
      | zero =>
        rw [Nat.mul_zero, Ram.off_zero]
        exact push_word v h4
      | succ i =>
        have hi' : i < l.length := Nat.lt_of_succ_lt_succ hi
        have hat : ((s.pushArgs l).push v).esp + BitVec.ofNat 32 (4 * (i + 1)) =
            (s.pushArgs l).esp + BitVec.ofNat 32 (4 * i) := by
          show (s.pushArgs l).esp - 4 + _ = _
          rw [Nat.mul_succ, Nat.add_comm, BitVec.ofNat_add, ← BitVec.add_assoc]
          exact congrArg (· + _) (BitVec.sub_add_cancel _ _)
        have hto := Ram.toNat_off (a := (s.pushArgs l).esp) (i := 4 * i) (by omega)
        show word ((s.pushArgs l).push v).mem (((s.pushArgs l).push v).esp + _) = _
        rw [hat, word_congr (push_above v h4 (2 ^ 32)) (by omega) (by omega) (by omega)]
        exact hargs i hi'

end Push

/-! ## One operation -/

section Step

variable {lo lim : ℕ} (hlo : 0 < lo) (hlim : lim ≤ 2 ^ 32) {s : Thread} {l : List Record}
include hlim

/-- a function entered behind its return address and its arguments -/
theorem enter_active {ret : BitVec 32} {args : List (BitVec 32)} (h : s.ebp = saved l) (hchain : Chain s.mem lim l)
    (hesp : 4 < s.esp.toNat) (hfit : s.esp.toNat + (4 + 4 * args.length) ≤ first lim l)
    (hret : word s.mem s.esp = ret)
    (hargs : ∀ i (hi : i < args.length), word s.mem (s.esp + BitVec.ofNat 32 (4 + 4 * i)) = args.get ⟨i, hi⟩) :
    Active lim s.enter (⟨s.esp - 4, ret, args⟩ :: l) := by
  have hbase : (s.esp - 4).toNat = s.esp.toNat - 4 := push_esp s.ebp (by omega)
  have hfirst := hchain.bounds.1
  have hmem := push_above s.ebp (s := s) (by omega) (2 ^ 32)
  have hstep : ∀ k, s.esp - 4 + BitVec.ofNat 32 (k + 4) = s.esp + BitVec.ofNat 32 k := by
    intro k
    rw [Nat.add_comm, BitVec.ofNat_add, ← BitVec.add_assoc]
    exact congrArg (· + _) (BitVec.sub_add_cancel _ _)
  refine ⟨rfl, le_refl _, ⟨by show 0 < (s.esp - 4).toNat; omega, ?_, ⟨?_, ?_, fun i hi => ?_⟩, ?_⟩⟩
  · show (s.esp - 4).toNat + (8 + 4 * args.length) ≤ _
    omega
  · exact (push_word s.ebp (by omega)).trans h
  · show word (s.push s.ebp).mem (s.esp - 4 + BitVec.ofNat 32 (0 + 4)) = ret
    rw [hstep, Ram.off_zero, word_congr hmem (le_refl _) (by omega) (by omega), hret]
  · have hi' : i < args.length := hi
    have hto := Ram.toNat_off (a := s.esp) (i := 4 + 4 * i) (by omega)
    show word (s.push s.ebp).mem (s.esp - 4 + 8 + 4 * BitVec.ofNat 32 i) = _
    rw [arg_off, show 8 + 4 * i = 4 + 4 * i + 4 by omega, hstep, word_congr hmem (by omega) (by omega) (by omega)]
    exact hargs i hi
  · exact hchain.above hlim (a := s.esp.toNat) (by omega) (hmem.mono (le_refl _) hlim)

include hlo

/-- **One operation.** -/
theorem step_active (h : Active lim s l) {o : Op} (ho : o.Safe lo lim s l) : Active lim (o.exec s) (o.calls s l) := by
  have hesp := h.esp
  have hfirst := h.chain.bounds.1
  cases o with
  | call ret args =>
    have hroom : lo + (8 + 4 * args.length) ≤ s.esp.toNat := ho
    obtain ⟨hargsp, hargbp, hargmem, hargs⟩ := pushArgs_spec (s := s) args (by omega)
    have h4 : 4 ≤ (s.pushArgs args).esp.toNat := by omega
    have hcallsp : (s.call ret args).esp.toNat = s.esp.toNat - 4 * args.length - 4 := by
      rw [← hargsp]
      exact push_esp ret h4
    have habove := push_above ret h4 (2 ^ 32)
    have hlt := s.esp.isLt
    have hbase : s.esp - BitVec.ofNat 32 (8 + 4 * args.length) = (s.call ret args).esp - 4 := by
      apply BitVec.eq_of_toNat_eq
      have hn : (BitVec.ofNat 32 (8 + 4 * args.length)).toNat = 8 + 4 * args.length := by
        rw [BitVec.toNat_ofNat, Nat.mod_eq_of_lt (by omega)]
      rw [BitVec.toNat_sub_of_le (by rw [BitVec.le_def]; omega), hn,
        BitVec.toNat_sub_of_le (by rw [BitVec.le_def, hcallsp]; show 4 ≤ _; omega), hcallsp]
      show _ = _ - 4
      omega
    show Active lim (s.call ret args).enter (⟨_, ret, args⟩ :: l)
    rw [hbase]
    refine enter_active hlim (hargbp.trans h.ebp) ?_ (by omega) (by omega) (push_word ret h4) fun i hi => ?_
    · refine h.chain.above hlim (a := s.esp.toNat) hesp ?_
      exact (hargmem lim).trans (habove.mono (by omega) hlim)
    · have hstep : (s.call ret args).esp + BitVec.ofNat 32 (4 + 4 * i) = (s.pushArgs args).esp + BitVec.ofNat 32 (4 * i) := by
        show (s.pushArgs args).esp - 4 + _ = _
        rw [BitVec.ofNat_add, ← BitVec.add_assoc]
        exact congrArg (· + _) (BitVec.sub_add_cancel _ _)
      have hto := Ram.toNat_off (a := (s.pushArgs args).esp) (i := 4 * i) (by omega)
      rw [hstep]
      show word ((s.pushArgs args).push ret).mem _ = _
      rw [word_congr habove (by omega) (by omega) (by omega)]
      exact hargs i hi
  | leave n =>
    cases l with
    | nil => cases ho
    | cons r l =>
      have hn : r.args.length = n := Option.some.inj ho
      obtain ⟨hpos, hstop, hin, hl⟩ := h.chain
      have hbp : s.ebp = r.base := h.ebp
      have hrest := hl.bounds.1
      unfold Record.stop at hstop
      refine ⟨?_, ?_, hl⟩
      · show word s.mem s.ebp = _
        rw [hbp, hin.saved]
        rfl
      · show (s.ebp + BitVec.ofNat 32 (8 + 4 * n)).toNat ≤ first lim l
        have hwrap : r.base.toNat + (8 + 4 * n) < 2 ^ 32 ∨ r.base.toNat + (8 + 4 * n) = 2 ^ 32 := by omega
        rw [hbp, BitVec.toNat_add, BitVec.toNat_ofNat]
        omega
  | reserve n =>
    have hroom : lo + n ≤ s.esp.toNat := ho
    refine ⟨h.ebp, ?_, h.chain⟩
    show (s.esp - BitVec.ofNat 32 n).toNat ≤ first lim l
    have hn : (BitVec.ofNat 32 n).toNat = n := by
      rw [BitVec.toNat_ofNat, Nat.mod_eq_of_lt (by have := s.esp.isLt; omega)]
    rw [BitVec.toNat_sub_of_le (by rw [BitVec.le_def]; omega), hn]
    omega
  | release n =>
    have hroom : s.esp.toNat + n ≤ first lim l := ho
    refine ⟨h.ebp, ?_, h.chain⟩
    show (s.esp + BitVec.ofNat 32 n).toNat ≤ first lim l
    rw [BitVec.toNat_add, BitVec.toNat_ofNat]
    have := Nat.mod_le (s.esp.toNat + n % 2 ^ 32) (2 ^ 32)
    have := Nat.mod_le n (2 ^ 32)
    omega
  | write a b =>
    refine ⟨h.ebp, hesp, h.chain.congr hlim fun r hr x h1 h2 => ?_⟩
    have hoff : a.toNat < r.base.toNat ∨ r.stop ≤ a.toNat := ho r hr
    refine Function.update_of_ne ?_ _ _
    rintro rfl
    omega

/-- **Runs.** -/
theorem run_active {p : Thread × List Record} (h : Active lim p.1 p.2) {ops : List Op} (ho : SafeRun lo lim ops p) :
    Active lim (run ops p).1 (run ops p).2 := by
  induction ops generalizing p with
  | nil => exact h
  | cons o ops ih => exact ih (step_active hlo hlim h ho.1) ho.2

end Step

/-! ## Whole calls -/

/-- both pointers are the same, and memory from the stack pointer on -/
structure Kept (s s' : Thread) : Prop where
  esp : s'.esp = s.esp
  ebp : s'.ebp = s.ebp
  mem : Agree s.mem s'.mem s.esp.toNat (2 ^ 32)

theorem Kept.refl (s : Thread) : Kept s s := ⟨rfl, rfl, fun _ _ _ => rfl⟩

theorem Kept.trans {s s' s'' : Thread} (h : Kept s s') (h' : Kept s' s'') : Kept s s'' :=
  ⟨h'.esp.trans h.esp, h'.ebp.trans h.ebp, h.mem.trans (h.esp ▸ h'.mem)⟩

theorem Kept.active {lim : ℕ} (hlim : lim ≤ 2 ^ 32) {s s' : Thread} {l : List Record} (h : Kept s s') (ha : Active lim s l) :
    Active lim s' l :=
  ⟨h.ebp.trans ha.ebp, h.esp ▸ ha.esp, ha.chain.above hlim ha.esp (h.mem.mono (le_refl _) hlim)⟩

/-- a call, and the bytes that the called function reserves -/
structure Call where
  ret : BitVec 32
  args : List (BitVec 32)
  locals : ℕ

/-- what it takes on the stack -/
def Call.size (c : Call) : ℕ := 8 + 4 * c.args.length + c.locals

/-- its record, if it is made at esp -/
def Call.record (c : Call) (esp : BitVec 32) : Record := ⟨esp - BitVec.ofNat 32 (8 + 4 * c.args.length), c.ret, c.args⟩

/-- a function that has just been called -/
def Thread.into (c : Call) (s : Thread) : Thread := (Op.reserve c.locals).exec ((Op.call c.ret c.args).exec s)

section Call

variable {s : Thread} (c : Call)

/-- where a called function is on the stack -/
theorem into_spec (h : c.size ≤ s.esp.toNat) :
    (s.into c).esp.toNat = s.esp.toNat - c.size ∧ (s.into c).ebp.toNat = s.esp.toNat - (8 + 4 * c.args.length) ∧
      word (s.into c).mem (s.into c).ebp = s.ebp ∧ Agree s.mem (s.into c).mem s.esp.toNat (2 ^ 32) := by
  unfold Call.size at h ⊢
  obtain ⟨hargsp, hargbp, hargmem, -⟩ := pushArgs_spec (s := s) c.args (by omega)
  have h4 : 4 ≤ (s.pushArgs c.args).esp.toNat := by omega
  have hcallsp : (s.call c.ret c.args).esp.toNat = s.esp.toNat - 4 * c.args.length - 4 := by
    rw [← hargsp]
    exact push_esp c.ret h4
  have h8 : 4 ≤ (s.call c.ret c.args).esp.toNat := by omega
  have hbp : ((s.call c.ret c.args).esp - 4).toNat = s.esp.toNat - (8 + 4 * c.args.length) := by
    have hpush : ((s.call c.ret c.args).esp - 4).toNat = (s.call c.ret c.args).esp.toNat - 4 :=
      push_esp (s.call c.ret c.args).ebp h8
    omega
  have hn : (BitVec.ofNat 32 c.locals).toNat = c.locals := by
    rw [BitVec.toNat_ofNat, Nat.mod_eq_of_lt (by have := s.esp.isLt; omega)]
  refine ⟨?_, hbp, ?_, ?_⟩
  · show ((s.call c.ret c.args).esp - 4 - BitVec.ofNat 32 c.locals).toNat = _
    rw [BitVec.toNat_sub_of_le (by rw [BitVec.le_def]; omega), hn]
    omega
  · exact (push_word (s.call c.ret c.args).ebp h8).trans hargbp
  · have habove := push_above c.ret h4 (2 ^ 32)
    have hsaved := push_above (s.call c.ret c.args).ebp h8 (2 ^ 32)
    exact ((hargmem _).trans (habove.mono (by omega) (le_refl _))).trans (hsaved.mono (by omega) (le_refl _))

theorem into_esp (h : c.size ≤ s.esp.toNat) :
    (s.into c).esp = s.esp - BitVec.ofNat 32 (8 + 4 * c.args.length) - BitVec.ofNat 32 c.locals := by
  have hsp := (into_spec c h).1
  unfold Call.size at h hsp
  have hlt := s.esp.isLt
  have hsize : (BitVec.ofNat 32 (8 + 4 * c.args.length)).toNat = 8 + 4 * c.args.length := by
    rw [BitVec.toNat_ofNat, Nat.mod_eq_of_lt (by omega)]
  have hn : (BitVec.ofNat 32 c.locals).toNat = c.locals := by
    rw [BitVec.toNat_ofNat, Nat.mod_eq_of_lt (by omega)]
  apply BitVec.eq_of_toNat_eq
  rw [hsp, BitVec.toNat_sub, BitVec.toNat_sub, hsize, hn]
  omega

/-- **A call and its return** leave the caller's part of the stack as it was. -/
theorem Kept.leave (h : c.size ≤ s.esp.toNat) {s' : Thread} (hk : Kept (s.into c) s') : Kept s (s'.leave c.args.length) := by
  obtain ⟨hsp, hbp, hword, hmem⟩ := into_spec c h
  unfold Call.size at h hsp
  have hlt := s.esp.isLt
  have hrest : Agree s.mem s'.mem s.esp.toNat (2 ^ 32) := hmem.trans (hk.mem.mono (by omega) (le_refl _))
  refine ⟨?_, ?_, hrest⟩
  · apply BitVec.eq_of_toNat_eq
    show (s'.ebp + BitVec.ofNat 32 (8 + 4 * c.args.length)).toNat = _
    rw [hk.ebp, Ram.toNat_off (by omega), hbp]
    omega
  · show word s'.mem s'.ebp = s.ebp
    rw [hk.ebp, word_congr hk.mem (by omega) (by omega) (by omega), hword]

/-- a called function is active -/
theorem into_active {lo lim : ℕ} (hlo : 0 < lo) (hlim : lim ≤ 2 ^ 32) {l : List Record} (h : Active lim s l)
    (hroom : lo + c.size ≤ s.esp.toNat) : Active lim (s.into c) (c.record s.esp :: l) := by
  have hbp := (into_spec (s := s) c (by omega)).2.1
  unfold Call.size at hroom
  have hcall : (Op.call c.ret c.args).Safe lo lim s l := by
    show lo + (8 + 4 * c.args.length) ≤ s.esp.toNat
    omega
  refine step_active hlo hlim (step_active hlo hlim h hcall) (o := .reserve c.locals) ?_
  show lo + c.locals ≤ (s.into c).ebp.toNat
  omega

end Call

/-! ## Nested calls -/

def stackSize (l : List Call) : ℕ := (l.map Call.size).sum

/-- the records of nested calls, the outermost of which is made at esp, the innermost one first -/
def records : List Call → BitVec 32 → List Record
  | [], _ => []
  | c :: l, esp =>
    records l (esp - BitVec.ofNat 32 (8 + 4 * c.args.length) - BitVec.ofNat 32 c.locals) ++ [c.record esp]

theorem records_length (l : List Call) (esp : BitVec 32) : (records l esp).length = l.length := by
  induction l generalizing esp with
  | nil => rfl
  | cons c l ih => rw [records, List.length_append, ih, List.length_singleton, List.length_cons]

theorem records_ret {P : BitVec 32 → Prop} {l : List Call} (h : ∀ c ∈ l, P c.ret) (esp : BitVec 32) :
    ∀ r ∈ records l esp, P r.ret := by
  induction l generalizing esp with
  | nil => exact fun r hr => absurd hr List.not_mem_nil
  | cons c l ih =>
    intro r hr
    rcases List.mem_append.1 hr with hr | hr
    · exact ih (fun x hx => h x (List.mem_cons_of_mem c hx)) _ r hr
    · rw [List.mem_singleton.1 hr]
      exact h c List.mem_cons_self

/-! ## Reading the chain -/

/-- from the frame pointer on, memory leads through the records to 0 -/
theorem Chain.walk {mem : Mem} {lim : ℕ} {l : List Record} (h : Chain mem lim l) {j : ℕ} (hj : j ≤ l.length) :
    (word mem)^[j] (saved l) = saved (l.drop j) := by
  induction l generalizing j with
  | nil =>
    rw [List.length_nil, Nat.le_zero] at hj
    rw [hj]
    rfl
  | cons r l ih =>
    cases j with
    | zero => rfl
    | succ j =>
      have hsaved : word mem (saved (r :: l)) = saved l := h.2.2.1.saved
      rw [Function.iterate_succ_apply, hsaved, List.drop_succ_cons]
      exact ih h.2.2.2 (Nat.le_of_succ_le_succ hj)

theorem Chain.mem {mem : Mem} {lim : ℕ} {l : List Record} (h : Chain mem lim l) {r : Record} (hr : r ∈ l) :
    0 < r.base.toNat ∧ ∃ ebp, r.In ebp mem := by
  induction l with
  | nil => cases hr
  | cons x l ih =>
    obtain ⟨hpos, -, hin, hl⟩ := h
    rcases List.mem_cons.1 hr with rfl | hr
    · exact ⟨hpos, _, hin⟩
    · exact ih hl hr

/-- a call returns to where it came from -/
theorem Active.returns {lim : ℕ} {s : Thread} {r : Record} {l : List Record} (h : Active lim s (r :: l)) :
    s.returnsTo = r.ret := by
  have hbp : s.ebp = r.base := h.ebp
  rw [Thread.returnsTo, hbp, h.chain.2.2.1.ret]

end Jos.Frames
