/-
What the backtrace prints.

- `frame_eq`: one frame: its line, the symbol line if `debuginfo_eip` returned 0, and an empty line.
- **`backtrace_lists_frames`**: over the whole chain of saved frame pointers, of any length.
-/
import Jos.Kdebug.NoLine
import Jos.Monitor.Model
import Jos.Printfmt.Number
import Jos.Printfmt.StringConv

namespace Jos.Monitor

open Kdebug (DebugInfo CharPtr Eipdebuginfo debuginfoEip ULIM monitorTable)
open Numeral (numeral value)
open Printfmt
open Sink (feed)

/-! ## Words and strings -/

def text (l : String) : List Word := (bytes l).map uchar

def hexDigits (w : Word) : List ℕ := List.replicate (8 - (numeral 16 w.toNat).length) 0 ++ numeral 16 w.toNat

def hex8 (w : Word) : List Word := (hexDigits w).map digit

/-- eight digits, which read back to the word -/
theorem hexDigits_spec (w : Word) :
    (hexDigits w).length = 8 ∧ (∀ d ∈ hexDigits w, d < 16) ∧ value 16 (hexDigits w) = w.toNat := by
  have hlen : (numeral 16 w.toNat).length ≤ 8 := Numeral.numeral_length_le (by decide) (by decide) w.isLt
  refine ⟨?_, ?_, ?_⟩
  · rw [hexDigits, List.length_append, List.length_replicate]
    omega
  · intro d hd
    rcases List.mem_append.1 hd with hd | hd
    · rw [List.eq_of_mem_replicate hd]
      decide
    · exact Numeral.numeral_lt (by decide) _ d hd
  · rw [hexDigits, Numeral.value_zeros, Numeral.value_numeral (by decide)]

theorem renders_hex (w : Word) : Renders (bytes "%08x") [.word w] (hex8 w) := by
  have h := renders_unsigned .x [.zero] (some (.lit 8)) (fun f hf => by cases hf; decide) 0 w.toNat
  have hz : schar (padChar [.zero]) = digit 0 := by decide
  have hlen : ((Field.lit 8).val - (numeral 16 w.toNat).length).toNat = 8 - (numeral 16 w.toNat).length := by
    rw [show (Field.lit 8).val = 8 from rfl]
    omega
  rw [Printfmt.int32_zero, unsignedVal_word, (longArg_word w).1, Option.elim_some, padded, length_unsignedText, hz] at h
  rw [hex8, hexDigits, List.map_append, List.map_replicate, ← hlen]
  exact h

/-! ## What one call of cprintf prints -/

theorem cprintf_eq {σ : Type} (cputchar : Word → σ → σ) {fmt : String} {ap : List Arg} {t : List Word}
    (h : Renders (bytes fmt) ap t) (s : σ) : cprintf cputchar fmt ap s = .ok (feed cputchar s t) := by
  rw [cprintf, vcprintf_eq, h.emit]
  rfl

theorem renders_text (l : String) (hl : ∀ x ∈ bytes l, x ≠ chr '%' ∧ x ≠ 0#8) : Renders (bytes l) [] (text l) :=
  renders_literal (bytes l) hl

theorem renders_arg (w : Word) : Renders (bytes "%08x ") [.word w] (hex8 w ++ text " ") :=
  (renders_hex w).append (renders_text " " (by decide +kernel))

/-- a word behind its name -/
theorem renders_named (l : String) (hl : ∀ x ∈ bytes l, x ≠ chr '%' ∧ x ≠ 0#8) (w : Word) :
    Renders (bytes l ++ bytes "%08x ") [.word w] (text l ++ (hex8 w ++ text " ")) :=
  (renders_text l hl).append (renders_arg w)

/-- the symbol line: the line number comes twice -/
def symbolText (T : DebugInfo) (info : Eipdebuginfo) : List Word :=
  stringText (chr ' ') (-1) (-1) false (cstr (T.at info.eipFile)) ++ text ":" ++
    signedText (signedVal 0 info.eipLine) ++ text ": " ++
    stringText (chr ' ') 0 (BitVec.ofInt 32 info.eipFnNamelen).toInt false (cstr (T.at info.eipFnName)) ++ text "+" ++
    signedText (signedVal 0 info.eipLine) ++ text "\n"

theorem renders_symbol {T : DebugInfo} {info : Eipdebuginfo} (h : T.Found info) :
    Renders (bytes "%s:%d: %.*s+%d\n") (symbolArgs T info) (symbolText T info) := by
  have hfile := (renders_str h.file.mem_at).1
  have hname := (renders_str h.name.mem_at).2 (BitVec.ofInt 32 info.eipFnNamelen)
  have hline := renders_dec info.eipLine
  have h := hfile.append (renders_text ":" (by decide +kernel))
  have h := (h.append hline).append (renders_text ": " (by decide +kernel))
  have h := (h.append hname).append (renders_text "+" (by decide +kernel))
  exact (h.append hline).append (renders_text "\n" (by decide +kernel))

/-! ## A frame -/

/-- the saved %ebp of the j-th caller -/
def savedEbp (mem : Word → Byte) (ebp : Word) (j : ℕ) : Word := (load mem)^[j] ebp

def retAddr (mem : Word → Byte) (ebp : Word) : Word := load mem (ebp + 4)

def arg (mem : Word → Byte) (ebp : Word) (i : ℕ) : Word := load mem (ebp + 8 + 4 * BitVec.ofNat 32 i)

/-- "ebp E eip I args A0 A1 A2 A3 A4 " -/
def frameLine (mem : Word → Byte) (ebp : Word) : List Word :=
  text "ebp " ++ hex8 ebp ++ text " eip " ++ hex8 (retAddr mem ebp) ++ text " args " ++
    (List.range 5).flatMap fun i => hex8 (arg mem ebp i) ++ text " "

def frameText (mem : Word → Byte) (T : DebugInfo) (ebp : Word) (rc : ℤ) (info : Eipdebuginfo) : List Word :=
  frameLine mem ebp ++ text "\n" ++ (if rc = 0 then symbolText T info else []) ++ text "\n"

section Frame

variable {σ : Type} (cputchar : Word → σ → σ) (mem : Word → Byte)

theorem args_eq (ebp : Word) (l : List ℕ) (s : σ) :
    l.foldlM (fun s i => cprintf cputchar "%08x " [.word (load mem (ebp + 8 + 4 * BitVec.ofNat 32 i))] s) s =
      .ok (feed cputchar s (l.flatMap fun i => hex8 (arg mem ebp i) ++ text " ")) := by
  induction l generalizing s with
  | nil => rfl
  | cons i l ih =>
    rw [List.foldlM_cons, cprintf_eq cputchar (renders_arg _), ok_bind, ih, List.flatMap_cons]
    simp only [Sink.feed_append, arg]

/-- **A frame.** -/
theorem frame_eq {T : DebugInfo} {ebp : Word} {rc : ℤ} {info : Eipdebuginfo}
    (h : debuginfoEip T (retAddr mem ebp) = .ok (rc, info)) (s : σ) :
    frame cputchar mem T ebp s = .ok (feed cputchar s (frameText mem T ebp rc info)) := by
  have hlookup : (debuginfoEip T (load mem (ebp + 4))).mapError Fault.debuginfo = .ok (rc, info) := by
    rw [retAddr] at h
    rw [h]
    rfl
  have hebp : ∀ s, cprintf cputchar "ebp %08x " [.word ebp] s = _ :=
    cprintf_eq cputchar (renders_named "ebp " (by decide) ebp)
  have heip : ∀ s, cprintf cputchar "eip %08x " [.word (load mem (ebp + 4))] s = _ :=
    cprintf_eq cputchar (renders_named "eip " (by decide) (load mem (ebp + 4)))
  have hnl := fun s => cprintf_eq cputchar (renders_text "\n" (by decide +kernel)) s
  rw [frame, hebp, ok_bind, heip, ok_bind, cprintf_eq cputchar (renders_text "args " (by decide +kernel)), ok_bind, args_eq, ok_bind,
    hnl, ok_bind, hlookup, ok_bind]
  have hline : frameLine mem ebp = text "ebp " ++ (hex8 ebp ++ text " ") ++
      (text "eip " ++ (hex8 (load mem (ebp + 4)) ++ text " ")) ++ text "args " ++
      (List.range 5).flatMap fun i => hex8 (arg mem ebp i) ++ text " " := by
    have h1 : text " eip " = text " " ++ text "eip " := rfl
    have h2 : text " args " = text " " ++ text "args " := rfl
    rw [frameLine, h1, h2, retAddr]
    simp only [List.append_assoc]
  rw [frameText, hline]
  simp only
  split_ifs with hrc
  · subst hrc
    rw [cprintf_eq cputchar (renders_symbol (Kdebug.debuginfoEip_found h)), ok_bind, hnl]
    simp only [Sink.feed_append]
  · rw [pure_bind, hnl]
    simp only [Sink.feed_append, Sink.feed_nil]

/-! ## The chain of frames -/

theorem savedEbp_succ (ebp : Word) (j : ℕ) : savedEbp mem ebp (j + 1) = load mem (savedEbp mem ebp j) :=
  Function.iterate_succ_apply' _ _ _

/-- **The run over a chain of k frames.** -/
theorem monBacktrace_eq {T : DebugInfo} {ebp : Word} {k : ℕ} (hne : ∀ j < k, savedEbp mem ebp j ≠ 0)
    (hend : savedEbp mem ebp k = 0) {rc : ℕ → ℤ} {info : ℕ → Eipdebuginfo}
    (hlook : ∀ j < k, debuginfoEip T (retAddr mem (savedEbp mem ebp j)) = .ok (rc j, info j)) {n : ℕ} (hn : k < n)
    (s : σ) :
    monBacktrace cputchar mem T n ebp s = some (.ok (0, feed cputchar s (text "Stack backtrace\n" ++
      (List.range k).flatMap fun j => frameText mem T (savedEbp mem ebp j) (rc j) (info j)))) := by
  -- the console after j frames
  set out : ℕ → σ := fun j => feed cputchar (feed cputchar s (text "Stack backtrace\n"))
    ((List.range j).flatMap fun j => frameText mem T (savedEbp mem ebp j) (rc j) (info j)) with hout
  have hstep : ∀ j < k, backtraceStep cputchar mem T (savedEbp mem ebp j, out j) =
      some (.inl (savedEbp mem ebp (j + 1), out (j + 1))) := by
    intro j hj
    have hnext : out (j + 1) = feed cputchar (out j) (frameText mem T (savedEbp mem ebp j) (rc j) (info j)) := by
      simp [hout, List.range_succ]
    rw [backtraceStep, if_neg (hne j hj), frame_eq cputchar mem (hlook j hj), savedEbp_succ, hnext]
  have hdone : backtraceStep cputchar mem T (savedEbp mem ebp k, out k) = some (.inr (.ok (out k))) := if_pos hend
  have hrun := Loop.run_steps hstep hdone hn
  rw [monBacktrace, cprintf_eq cputchar (renders_text "Stack backtrace\n" (by decide +kernel))]
  simp only
  have h0 : (savedEbp mem ebp 0, out 0) = (ebp, feed cputchar s (text "Stack backtrace\n")) := rfl
  rw [← h0, hrun, Sink.feed_append]
  rfl

end Frame

/-- **The backtrace lists exactly the saved frames.** Memory is arbitrary, and so is the length k of the chain. On a table
with the linker's header every lookup returns; on any table, if the lookups return, each frame is printed on a line of its
own, in order, with a symbol line behind it where its lookup returned 0. Words are printed as eight digits, and read
back. -/
theorem backtrace_lists_frames (mem : Word → Byte) (T : DebugInfo) (ebp : Word) (k : ℕ)
    (hne : ∀ j < k, savedEbp mem ebp j ≠ 0) (hend : savedEbp mem ebp k = 0)
    (hret : ∀ j < k, ULIM ≤ retAddr mem (savedEbp mem ebp j)) :
    (T.HasHeader → ∀ j < k, ∃ rc info, debuginfoEip T (retAddr mem (savedEbp mem ebp j)) = .ok (rc, info)) ∧
    (∀ (rc : ℕ → ℤ) (info : ℕ → Eipdebuginfo),
      (∀ j < k, debuginfoEip T (retAddr mem (savedEbp mem ebp j)) = .ok (rc j, info j)) →
      ∀ (σ : Type) (cputchar : Word → σ → σ) (s : σ) (n : ℕ), k < n →
        monBacktrace cputchar mem T n ebp s = some (.ok (0, feed cputchar s (text "Stack backtrace\n" ++
          (List.range k).flatMap fun j => frameLine mem (savedEbp mem ebp j) ++ text "\n" ++
            (if rc j = 0 then symbolText T (info j) else []) ++ text "\n")))) ∧
    ∀ w, (hexDigits w).length = 8 ∧ (∀ d ∈ hexDigits w, d < 16) ∧ value 16 (hexDigits w) = w.toNat := by
  refine ⟨fun hh j hj => ?_, fun rc info hlook σ cputchar s n hn => ?_, hexDigits_spec⟩
  · rcases Kdebug.debuginfoEip_cases hh (hret j hj) with ⟨-, h⟩ | ⟨info, _, _, _, _, _, _, _, _, h, -⟩
    · exact ⟨_, _, h⟩
    · exact ⟨_, _, h⟩
  · exact monBacktrace_eq cputchar mem hne hend hlook hn s

/-- one frame at f0109e58, with the return address f0100a62 and the arguments 1, 0, 0, 0 and 0 -/
def frameMemory (a : Word) : Byte :=
  ([0, 0, 0, 0, 0x62, 0x0a, 0x10, 0xf0, 1] : List Byte).getD (a - 0xf0109e58).toNat 0

/-- two frames: f0109e38 saves f0109e58 and returns into monitor, with the arguments 2, 1, 0, 0 and 0; f0109e58 saves 0
and returns to f0100005, below the first file -/
def twoFrames (a : Word) : Byte :=
  ([0x58, 0x9e, 0x10, 0xf0, 0x62, 0x0a, 0x10, 0xf0, 2, 0, 0, 0, 1] ++ List.replicate 23 0 ++ [5, 0, 0x10, 0xf0, 7] :
    List Byte).getD (a - 0xf0109e38).toNat 0

/-- witness: that memory, with the function monitor in the table; the first frame has a symbol line, the second has none -/
theorem backtrace_lists_two_frames :
    monBacktrace Sink.snoc twoFrames monitorTable 3 0xf0109e38 [] = some (.ok (0, feed Sink.snoc []
      (text "Stack backtrace\n" ++
        (frameLine twoFrames 0xf0109e38 ++ text "\n" ++
          symbolText monitorTable ⟨.stabstr 1, 96, .stabstr 16, 7, 0xf01009f8, 0⟩ ++ text "\n") ++
        (frameLine twoFrames 0xf0109e58 ++ text "\n" ++ text "\n")))) := by
  have h := (backtrace_lists_frames twoFrames monitorTable 0xf0109e38 2 (by decide +kernel) (by decide +kernel)
    (by decide +kernel)).2.1 (fun j => if j = 0 then 0 else -1)
    (fun j => if j = 0 then ⟨.stabstr 1, 96, .stabstr 16, 7, 0xf01009f8, 0⟩ else Eipdebuginfo.init 0xf0100005)
    (by decide +kernel) _ Sink.snoc [] 3 (by decide)
  have h0 : savedEbp twoFrames 0xf0109e38 0 = 0xf0109e38 := rfl
  have h1 : savedEbp twoFrames 0xf0109e38 1 = 0xf0109e58 := by decide +kernel
  rw [h]
  simp only [List.range_succ, List.range_zero, List.flatMap_append, List.flatMap_cons, List.flatMap_nil, List.nil_append,
    List.append_nil, List.append_assoc, h0, h1, one_ne_zero, if_true, if_false, show ¬ (-1 : ℤ) = 0 by decide]

end Jos.Monitor
