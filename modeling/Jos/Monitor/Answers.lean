/-
What the three commands of the monitor print.

- `monHelp_eq`, `monKerninfo_eq`, `monBacktrace_prints`: the text of each command.
- **`commands_print`**: the table of kern/monitor.c, against the texts.
- **`footprint_iff`**: the footprint is the size in kilobytes, rounded up, up to almost 2 GB.
-/
import Jos.Monitor.Session

namespace Jos.Monitor

open Console (KERNBASE)
open Kdebug (DebugInfo Eipdebuginfo debuginfoEip ULIM)
open Printfmt (Renders renders_dec renders_str signedText signedVal stringText)
open Sink (feed)

/-! ## help -/

/-- a line of the list -/
def helpLine (e : List Byte × List Byte) : List Word :=
  stringText (chr ' ') (-1) (-1) false e.1 ++ text " - " ++ stringText (chr ' ') (-1) (-1) false e.2 ++ text "\n"

/-- a line for each command -/
def helpText : List Word := helpTexts.flatMap helpLine

theorem renders_help {e : List Byte × List Byte} (h1 : 0#8 ∉ e.1) (h2 : 0#8 ∉ e.2) :
    Renders (bytes "%s - %s\n") [.str (some (e.1 ++ [0#8])), .str (some (e.2 ++ [0#8]))] (helpLine e) := by
  have hname := (renders_str (p := e.1 ++ [0#8]) (by simp)).1
  have hdesc := (renders_str (p := e.2 ++ [0#8]) (by simp)).1
  rw [cstr_append h1] at hname
  rw [cstr_append h2] at hdesc
  have h := (hname.append (renders_text " - " (by decide +kernel))).append hdesc
  exact h.append (renders_text "\n" (by decide +kernel))

section Commands

variable {S : Type} (cputchar : Word → S → S)

theorem help_fold {l : List (List Byte × List Byte)} (hl : ∀ e ∈ l, 0#8 ∉ e.1 ∧ 0#8 ∉ e.2) (w : World S) :
    l.foldlM (fun w e =>
      World.cprintf cputchar "%s - %s\n" [.str (some (e.1 ++ [0#8])), .str (some (e.2 ++ [0#8]))] w) w =
        .ok { w with console := feed cputchar w.console (l.flatMap helpLine) } := by
  induction l generalizing w with
  | nil => rfl
  | cons e l ih =>
    obtain ⟨h1, h2⟩ := hl e List.mem_cons_self
    rw [List.foldlM_cons, World.cprintf_eq cputchar (renders_help h1 h2), ok_bind,
      ih fun x hx => hl x (List.mem_cons_of_mem _ hx), List.flatMap_cons, Sink.feed_append]

theorem monHelp_eq (w : World S) :
    monHelp cputchar helpTexts w = .ok (0, { w with console := feed cputchar w.console helpText }) := by
  rw [monHelp, help_fold cputchar (by decide +kernel), ok_bind]
  rfl

/-! ## kerninfo -/

/-- an address and its physical address -/
def symbolLine (name : String) (a : Word) : List Word :=
  text name ++ hex8 a ++ text " (virt)  " ++ hex8 (a - KERNBASE) ++ text " (phys)\n"

/-- the number of kilobytes -/
def footprint (k : Linker) : ℤ := (roundupInt (k.end - k.entry) 1024).tdiv 1024

def kerninfoText (k : Linker) : List Word :=
  text "Special kernel symbols:\n" ++ (text "  _start                  " ++ hex8 k.start ++ text " (phys)\n") ++
    symbolLine "  entry  " k.entry ++ symbolLine "  etext  " k.etext ++ symbolLine "  edata  " k.edata ++
    symbolLine "  end    " k.end ++
    (text "Kernel executable memory footprint: " ++ signedText (signedVal 0 (footprint k)) ++ text "KB\n")

theorem renders_symbolLine (name : String) (hname : ∀ x ∈ bytes name, x ≠ chr '%' ∧ x ≠ 0#8) (a : Word) :
    Renders (bytes name ++ bytes "%08x" ++ bytes " (virt)  " ++ bytes "%08x" ++ bytes " (phys)\n")
      [.word a, .word (a - KERNBASE)] (symbolLine name a) := by
  have h := ((renders_text name hname).append (renders_hex a)).append (renders_text " (virt)  " (by decide +kernel))
  exact (h.append (renders_hex (a - KERNBASE))).append (renders_text " (phys)\n" (by decide +kernel))

theorem renders_start (a : Word) : Renders (bytes "  _start                  %08x (phys)\n") [.word a]
    (text "  _start                  " ++ hex8 a ++ text " (phys)\n") :=
  ((renders_text "  _start                  " (by decide +kernel)).append (renders_hex a)).append
    (renders_text " (phys)\n" (by decide +kernel))

theorem renders_footprint (x : ℤ) : Renders (bytes "Kernel executable memory footprint: %dKB\n") [.word (BitVec.ofInt 32 x)]
    (text "Kernel executable memory footprint: " ++ signedText (signedVal 0 x) ++ text "KB\n") :=
  ((renders_text "Kernel executable memory footprint: " (by decide +kernel)).append (renders_dec x)).append
    (renders_text "KB\n" (by decide +kernel))

theorem monKerninfo_eq (k : Linker) (w : World S) :
    monKerninfo cputchar k w = .ok (0, { w with console := feed cputchar w.console (kerninfoText k) }) := by
  have hline : ∀ (fmt name : String) (a : Word) (w : World S),
      bytes fmt = bytes name ++ bytes "%08x" ++ bytes " (virt)  " ++ bytes "%08x" ++ bytes " (phys)\n" →
      (∀ x ∈ bytes name, x ≠ chr '%' ∧ x ≠ 0#8) →
      w.cprintf cputchar fmt [.word a, .word (a - KERNBASE)] =
        .ok { w with console := feed cputchar w.console (symbolLine name a) } := by
    intro fmt name a w hfmt hname
    have h := renders_symbolLine name hname a
    rw [← hfmt] at h
    exact World.cprintf_eq cputchar h w
  rw [monKerninfo, World.cprintf_eq cputchar (renders_text _ (by decide +kernel)), ok_bind,
    World.cprintf_eq cputchar (renders_start _), ok_bind,
    hline _ "  entry  " k.entry _ (by decide +kernel) (by decide +kernel), ok_bind,
    hline _ "  etext  " k.etext _ (by decide +kernel) (by decide +kernel), ok_bind,
    hline _ "  edata  " k.edata _ (by decide +kernel) (by decide +kernel), ok_bind,
    hline _ "  end    " k.end _ (by decide +kernel) (by decide +kernel), ok_bind,
    World.cprintf_eq cputchar (renders_footprint _), ok_bind, kerninfoText, footprint]
  simp only [Sink.feed_append]

/-! ## backtrace -/

/-- the result of debuginfo_eip, -1 where it does not return one -/
def looked (T : DebugInfo) (eip : Word) : ℤ × Eipdebuginfo :=
  match debuginfoEip T eip with
  | .ok r => r
  | .error _ => (-1, Eipdebuginfo.init eip)

/-- the d frames from ebp on -/
def backtraceText (mem : Word → Byte) (T : DebugInfo) (ebp : Word) (d : ℕ) : List Word :=
  text "Stack backtrace\n" ++ (List.range d).flatMap fun j =>
    frameText mem T (savedEbp mem ebp j) (looked T (retAddr mem (savedEbp mem ebp j))).1
      (looked T (retAddr mem (savedEbp mem ebp j))).2

/-- a chain of d frames that return into the kernel -/
structure Stack (mem : Word → Byte) (ebp : Word) (d : ℕ) : Prop where
  frames : ∀ j < d, savedEbp mem ebp j ≠ 0
  ends : savedEbp mem ebp d = 0
  returns : ∀ j < d, ULIM ≤ retAddr mem (savedEbp mem ebp j)

theorem monBacktrace_prints {T : DebugInfo} (hT : T.HasHeader) {mem : Word → Byte} {ebp : Word} {d : ℕ}
    (h : Stack mem ebp d) {n : ℕ} (hn : d < n) (s : S) :
    monBacktrace cputchar mem T n ebp s = some (.ok (0, feed cputchar s (backtraceText mem T ebp d))) := by
  refine monBacktrace_eq cputchar mem h.frames h.ends (fun j hj => ?_) hn s
  rcases Kdebug.debuginfoEip_cases hT (h.returns j hj) with ⟨-, hok⟩ | ⟨info, _, _, _, _, _, _, _, _, hok, -⟩
  · rw [looked, hok]
  · rw [looked, hok]

/-! ## The table -/

/-- the commands and what they print, with the stack as the command finds it -/
def kernelTable (k : Linker) (mem : Word → Byte) (T : DebugInfo) (ebp : Word) (d : ℕ) : List (List Byte × List Word) :=
  [(bytes "help", helpText), (bytes "kerninfo", kerninfoText k), (bytes "backtrace", backtraceText mem T ebp d)]

/-- **The table.** Each command prints its text, and returns 0. -/
theorem commands_print {τ : Type} (k : Linker) {mem : Word → Byte} {T : DebugInfo} (hT : T.HasHeader) {ebp : Word} {d n : ℕ}
    (h : Stack mem ebp d) (hn : d < n) :
    List.Forall₂ (Prints cputchar) (commands cputchar k mem T n ebp : List (Command τ S)) (kernelTable k mem T ebp d) := by
  rw [commands, kernelTable, List.forall₂_cons, List.forall₂_cons, List.forall₂_cons]
  refine ⟨⟨rfl, fun _ _ _ w => ?_⟩, ⟨rfl, fun _ _ _ w => ?_⟩, ⟨rfl, fun _ _ _ w => ?_⟩, .nil⟩
  · exact congrArg some (monHelp_eq cputchar w)
  · exact congrArg some (monKerninfo_eq cputchar k w)
  · simp only [monBacktrace_prints cputchar hT h hn]
    rfl

end Commands

/-! ## The footprint -/

/-- `ROUNDUP(a, 1024)` as an int: it becomes negative behind 2 GB, and 0 where the sum wraps around -/
theorem roundupInt_eq (a : Word) : roundupInt a 1024 =
    if a.toNat ≤ 2 ^ 31 - 1024 then 1024 * (((a.toNat + 1023) / 1024 : ℕ) : ℤ)
    else if a.toNat + 1023 < 2 ^ 32 then 1024 * ((((a.toNat + 1023) / 1024 : ℕ) : ℤ) - 2 ^ 22)
    else (0 : ℤ) := by
  have ha := a.isLt
  have hsum : (a + 1024 - 1).toNat = (a.toNat + 1023) % 2 ^ 32 := by bv_omega
  have hval : (a + 1024 - 1 - (a + 1024 - 1) % 1024).toNat = 1024 * ((a.toNat + 1023) % 2 ^ 32 / 1024) := by
    have hle : (a + 1024 - 1) % 1024 ≤ a + 1024 - 1 := by
      rw [BitVec.le_def, BitVec.toNat_umod]
      exact Nat.mod_le _ _
    rw [BitVec.toNat_sub_of_le hle, BitVec.toNat_umod, hsum]
    show _ - _ % 1024 = _
    omega
  rw [roundupInt, BitVec.toInt_eq_toNat_cond, hval]
  split_ifs <;> omega

/-- **kerninfo.** For every link map it prints the addresses, each with its physical address, and returns 0. The footprint is
the size of the kernel in kilobytes, rounded up, if and only if the size is up to 2 GB less a kilobyte. -/
theorem footprint_iff (k : Linker) :
    (∀ (S : Type) (cputchar : Word → S → S) (w : World S),
      monKerninfo cputchar k w = .ok (0, { w with console := feed cputchar w.console (kerninfoText k) })) ∧
    (signedVal 0 (footprint k) = (((k.end - k.entry).toNat + 1023) / 1024 : ℕ) ↔
      (k.end - k.entry).toNat ≤ 2 ^ 31 - 1024) := by
  refine ⟨fun S cputchar w => monKerninfo_eq cputchar k w, ?_⟩
  have hsize := (k.end - k.entry).isLt
  have hsmall : ∀ x : ℤ, -2 ^ 31 ≤ x → x < 2 ^ 31 → signedVal 0 x = x := by
    intro x h1 h2
    rw [signedVal, show Printfmt.bits 0 = 32 from rfl]
    exact Int.bmod_eq_of_le (by simpa using h1) (by simpa using h2)
  rw [footprint, roundupInt_eq]
  split_ifs with h1 h2
  · rw [Int.mul_tdiv_cancel_left _ (by decide), hsmall _ (by omega) (by omega)]
    exact iff_of_true rfl h1
  · rw [Int.mul_tdiv_cancel_left _ (by decide), hsmall _ (by omega) (by omega)]
    exact iff_of_false (by omega) h1
  · rw [Int.zero_tdiv, hsmall _ (by omega) (by omega)]
    exact iff_of_false (by omega) h1

end Jos.Monitor
