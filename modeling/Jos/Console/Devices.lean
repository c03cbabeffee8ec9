/-
What the input devices deliver.

`values proc s` are the results of the device routine up to the -1 that ends cons_intr, and `chars proc s` the characters
among them. The buffer plays no part in them.

- `consIntr_cons`: one call of cons_intr puts the characters of its device into the ring.
- `values_serial`: the serial port delivers its bytes.
- `values_kbd`, `decode`: the keyboard delivers what it decodes from its scancodes.
-/
import Jos.Console.Input

namespace Jos.Console

section Devices

variable (dev : ℕ → ℕ → Byte)

/-! ## What a device delivers -/

/-- what the calls of a device routine return before the -1 -/
def values (proc : Proc) (s : State) : List ℤ :=
  if _h : (proc.call dev s).1 = -1 then [] else (proc.call dev s).1 :: values proc (proc.call dev s).2
termination_by (proc.pending s).length
decreasing_by exact call_pending dev _h

theorem values_end {proc : Proc} {s : State} (h : (proc.call dev s).1 = -1) : values dev proc s = [] := by
  rw [values, dif_pos h]

theorem values_next {proc : Proc} {s : State} (h : (proc.call dev s).1 ≠ -1) :
    values dev proc s = (proc.call dev s).1 :: values dev proc (proc.call dev s).2 := by
  rw [values, dif_neg h]

/-- the characters among them -/
def chars (proc : Proc) (s : State) : List ℤ := (values dev proc s).filter (· ≠ 0)

theorem call_cons (proc : Proc) (s : State) : (proc.call dev s).2.cons = s.cons := by
  cases proc with
  | serial => simp only [Proc.call, serialProcData]; split <;> rfl
  | kbd => simp only [Proc.call, kbdProcData]; split <;> rfl

/-- the device routines do not look at the buffer -/
theorem values_push (proc : Proc) (s : State) (c : ℤ) : values dev proc (s.push c) = values dev proc s := by
  induction hn : (proc.pending s).length using Nat.strong_induction_on generalizing s with
  | _ n ih =>
    have h1 : (proc.call dev (s.push c)).1 = (proc.call dev s).1 := by
      cases proc with
      | serial => simp only [Proc.call, serialProcData, State.push]; split <;> rfl
      | kbd => simp only [Proc.call, kbdProcData, State.push]; split <;> rfl
    have h2 : (proc.call dev (s.push c)).2 = (proc.call dev s).2.push c := by
      cases proc with
      | serial => simp only [Proc.call, serialProcData, State.push]; split <;> rfl
      | kbd => simp only [Proc.call, kbdProcData, State.push]; split <;> rfl
    by_cases h : (proc.call dev s).1 = -1
    · rw [values_end dev h, values_end dev (h1.trans h)]
    · rw [values_next dev h, values_next dev (by rwa [h1]), h1, h2, ih _ (hn ▸ call_pending dev h) _ rfl]

/-- **One call of cons_intr.** -/
theorem consIntr_cons (proc : Proc) (s : State) :
    (consIntr dev proc s).cons = s.cons.putAll ((chars dev proc s).map (BitVec.ofInt 8)) := by
  fun_induction consIntr dev proc s with
  | case1 s h => rw [call_cons, chars, values_end dev h]; rfl
  | case2 s h h0 ih => rw [ih, call_cons, chars, chars, values_next dev h, List.filter_cons_of_neg (by simp [h0])]
  | case3 s h h0 ih =>
    rw [ih, chars, chars, values_push, values_next dev h, List.filter_cons_of_pos (by simp [h0]), State.push, call_cons]
    rfl

/-! ## The two devices -/

/-- serial_proc_data hands over every byte as it is, 0xFF included -/
theorem values_serial (s : State) : values dev .serial s = s.com.map fun b => (b.toNat : ℤ) := by
  induction hc : s.com generalizing s with
  | nil => rw [values_end dev (by simp [Proc.call, serialProcData, hc])]; rfl
  | cons b com ih =>
    have hcall : Proc.call dev .serial s = ((b.toNat : ℤ), { s with com := com }) := by
      simp [Proc.call, serialProcData, hc]
    rw [values_next dev (by rw [hcall]; simp only; omega), hcall, ih _ rfl]
    rfl

/-- everything but the device's own bytes, the buffer, the modifiers and the output -/
theorem serialProcData_frame (s : State) : (serialProcData s).2.kbd = s.kbd ∧ (serialProcData s).2.shift = s.shift ∧
    (serialProcData s).2.serialExists = s.serialExists := by
  unfold serialProcData
  split <;> exact ⟨rfl, rfl, rfl⟩

theorem serial_polled (s : State) : (consIntr dev .serial s).com = [] ∧ (consIntr dev .serial s).kbd = s.kbd ∧
    (consIntr dev .serial s).shift = s.shift ∧ (consIntr dev .serial s).serialExists = s.serialExists := by
  fun_induction consIntr dev .serial s with
  | case1 s h =>
    refine ⟨?_, serialProcData_frame s⟩
    simp only [Proc.call, serialProcData] at h ⊢
    split
    · assumption
    · rename_i b com hs
      rw [hs] at h
      simp only at h
      omega
  | case2 s h h0 ih =>
    obtain ⟨h1, h2, h3⟩ := serialProcData_frame s
    exact ⟨ih.1, ih.2.1.trans h1, ih.2.2.1.trans h2, ih.2.2.2.trans h3⟩
  | case3 s h h0 ih =>
    obtain ⟨h1, h2, h3⟩ := serialProcData_frame s
    exact ⟨ih.1, ih.2.1.trans h1, ih.2.2.1.trans h2, ih.2.2.2.trans h3⟩

/-- the results of kbd_proc_data on a stream of scancodes, and the modifiers after it -/
def decode (shift : Word) : List Byte → List ℤ × Word
  | [] => ([], shift)
  | d :: l => ((kbdScan shift d).1 :: (decode (kbdScan shift d).2.1 l).1, (decode (kbdScan shift d).2.1 l).2)

theorem decode_append (shift : Word) (l l' : List Byte) :
    decode shift (l ++ l') = ((decode shift l).1 ++ (decode (decode shift l).2 l').1, (decode (decode shift l).2 l').2) := by
  induction l generalizing shift with
  | nil => rfl
  | cons d l ih => simp only [List.cons_append, decode, ih]

theorem kbdScan_range (shift : Word) (d : Byte) : 0 ≤ (kbdScan shift d).1 ∧ (kbdScan shift d).1 ≤ 255 := by
  have hkey : ∀ shift d, 0 ≤ keyChar shift d ∧ keyChar shift d ≤ 255 := by
    intro shift d
    have := (charcode (shift &&& (CTL ||| SHIFT)) d).isLt
    unfold keyChar capsLock
    simp only
    split_ifs <;> omega
  unfold kbdScan
  simp only
  split_ifs
  · exact ⟨le_refl _, by simp⟩
  · exact ⟨le_refl _, by simp⟩
  · exact ⟨le_refl _, by simp⟩
  · exact hkey _ _
  · exact hkey _ _

theorem decode_range (l : List Byte) (shift : Word) : ∀ c ∈ (decode shift l).1, 0 ≤ c ∧ c ≤ 255 := by
  induction l generalizing shift with
  | nil => intro c hc; cases hc
  | cons d l ih =>
    intro c hc
    rcases List.mem_cons.1 hc with rfl | hc
    · exact kbdScan_range shift d
    · exact ih _ c hc

theorem call_kbd {s : State} {d : Byte} {kbd : List Byte} (h : s.kbd = d :: kbd) :
    ∃ out, Proc.call dev .kbd s =
      ((kbdScan s.shift d).1, { s with kbd := kbd, shift := (kbdScan s.shift d).2.1, out := out }) := by
  simp only [Proc.call, kbdProcData, h]
  exact ⟨_, rfl⟩

/-- **The keyboard.** The characters are decoded from the pending scancodes, with the modifiers left by those before. -/
theorem values_kbd (s : State) : values dev .kbd s = (decode s.shift s.kbd).1 := by
  induction hk : s.kbd generalizing s with
  | nil => rw [values_end dev (by simp [Proc.call, kbdProcData, hk])]; rfl
  | cons d kbd ih =>
    obtain ⟨out, hcall⟩ := call_kbd dev hk
    have := kbdScan_range s.shift d
    rw [values_next dev (by rw [hcall]; simp only; omega), hcall, ih _ rfl]
    rfl

theorem kbd_polled (s : State) : (consIntr dev .kbd s).kbd = [] ∧ (consIntr dev .kbd s).com = s.com ∧
    (consIntr dev .kbd s).shift = (decode s.shift s.kbd).2 ∧ (consIntr dev .kbd s).serialExists = s.serialExists := by
  have hend : ∀ {s : State}, s.kbd = [] → Proc.call dev .kbd s = (-1, s) := by
    intro s hs
    simp [Proc.call, kbdProcData, hs]
  fun_induction consIntr dev .kbd s with
  | case1 s h =>
    cases hk : s.kbd with
    | nil => rw [hend hk]; exact ⟨hk, rfl, rfl, rfl⟩
    | cons d kbd =>
      obtain ⟨out, hcall⟩ := call_kbd dev hk
      have := kbdScan_range s.shift d
      rw [hcall] at h
      simp only at h
      omega
  | case2 s h h0 ih =>
    cases hk : s.kbd with
    | nil => rw [hend hk] at h; exact absurd rfl h
    | cons d kbd =>
      obtain ⟨out, hcall⟩ := call_kbd dev hk
      rw [hcall] at ih ⊢
      exact ih
  | case3 s h h0 ih =>
    cases hk : s.kbd with
    | nil => rw [hend hk] at h; exact absurd rfl h
    | cons d kbd =>
      obtain ⟨out, hcall⟩ := call_kbd dev hk
      rw [hcall] at ih ⊢
      exact ih

theorem chars_range {proc : Proc} {s : State} {c : ℤ} (h : c ∈ chars dev proc s) : 1 ≤ c ∧ c ≤ 255 := by
  obtain ⟨hv, h0⟩ := List.mem_filter.1 h
  have hne : c ≠ 0 := by simpa using h0
  have hr : 0 ≤ c ∧ c ≤ 255 := by
    cases proc with
    | serial =>
      rw [values_serial] at hv
      obtain ⟨b, -, rfl⟩ := List.mem_map.1 hv
      have := b.isLt
      omega
    | kbd =>
      rw [values_kbd] at hv
      exact decode_range s.kbd s.shift c hv
  omega

end Devices

end Jos.Console
