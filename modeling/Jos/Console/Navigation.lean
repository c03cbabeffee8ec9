/-
The navigation keys of the keyboard decoder: the ten keys behind the prefix 0xE0 that return a KEY_ code.

They are in each of the three maps, so what was pressed before them makes no difference, with one exception: `ctlmap` has
KEY_HOME at 0x97, where the other maps and its own nine other keys have it at 0xC7.

- `ctl_last`: CTL after any stream of scancodes, by the last code of a Ctrl key in it.
- `decode_press`: what a navigation key returns after a stream.
- **`navigation_iff`**: when a key returns the same code after two streams.
-/
import Jos.Console.Modifiers

namespace Jos.Console

/-! ## Keys -/

inductive Navigation where
  | home
  | up
  | pgup
  | lf
  | rt
  | end_
  | dn
  | pgdn
  | ins
  | del
deriving DecidableEq, Repr

namespace Navigation

/-- the scancode behind the prefix -/
def code : Navigation → Byte
  | home => 0x47
  | up => 0x48
  | pgup => 0x49
  | lf => 0x4B
  | rt => 0x4D
  | end_ => 0x4F
  | dn => 0x50
  | pgdn => 0x51
  | ins => 0x52
  | del => 0x53

def key : Navigation → Byte
  | home => KEY_HOME
  | up => KEY_UP
  | pgup => KEY_PGUP
  | lf => KEY_LF
  | rt => KEY_RT
  | end_ => KEY_END
  | dn => KEY_DN
  | pgdn => KEY_PGDN
  | ins => KEY_INS
  | del => KEY_DEL

/-- the key, which is behind the prefix -/
def toKey (k : Navigation) : Key := ⟨true, k.code.truncate 7⟩

end Navigation

/-- the codes that kbdreg.h defines -/
def keyCodes : List Byte :=
  [KEY_HOME, KEY_END, KEY_UP, KEY_DN, KEY_LF, KEY_RT, KEY_PGUP, KEY_PGDN, KEY_INS, KEY_DEL]

/-- a console with nothing received -/
def bootState : State := ⟨bootOut, true, [], [], 0, ⟨fun _ => 0, 0, 0⟩⟩

/-- the last result of kbd_proc_data, when key k is pressed after the scancodes `history` -/
def pressed (dev : ℕ → ℕ → Byte) (s : State) (history : List Byte) (k : Navigation) : Option ℤ :=
  (values dev .kbd { s with shift := 0, kbd := history ++ [0xE0, k.code] }).getLast?

/-- the last code of a Ctrl key, left or right, is a make -/
def ctrlDown (history : List Byte) : Prop := (history.filter fun d => d = 0x1D ∨ d = 0x9D).getLast? = some 0x1D

instance (history : List Byte) : Decidable (ctrlDown history) := inferInstanceAs (Decidable (_ = _))

/-! ## CTL -/

/-- every byte but the prefix is the last one of a code -/
theorem byte_code (d : Byte) : (⟨⟨false, d.truncate 7⟩, d.msb⟩ : Scancode).byte = d ∧
    (d ≠ 0xE0 → (⟨⟨false, d.truncate 7⟩, d.msb⟩ : Scancode).endsE0 = false) ∧
    (d = 0x1D ↔ d.truncate 7 = (0x1D : BitVec 7) ∧ d.msb = false) ∧
    (d = 0x9D ↔ d.truncate 7 = (0x1D : BitVec 7) ∧ d.msb = true) := by
  revert d
  decide +kernel

theorem ctl_test (x : Word) : x &&& CTL ≠ 0 ↔ x.getLsbD 1 = true := Modifier.test .ctl x

/-- what one scancode does to CTL: the two Ctrl keys have the same code, so a prefix makes no difference -/
theorem kbdScan_ctl (shift : Word) (d : Byte) :
    (kbdScan shift d).2.1.getLsbD 1 = if d = 0x1D then true else if d = 0x9D then false else shift.getLsbD 1 := by
  by_cases h0 : d = 0xE0
  · subst h0
    rw [kbdScan_E0, BitVec.getLsbD_or, show E0ESC.getLsbD 1 = false by decide, Bool.or_false, if_neg (by decide),
      if_neg (by decide)]
  obtain ⟨hbyte, hends, hmake, hbreak⟩ := byte_code d
  have hctl : ∀ ext, ((⟨ext, d.truncate 7⟩ : Key) = Modifier.ctl.fst ∨ (⟨ext, d.truncate 7⟩ : Key) = Modifier.ctl.snd) ↔
      d.truncate 7 = (0x1D : BitVec 7) := by
    intro ext
    cases ext <;> simp [Modifier.fst, Modifier.snd]
  have hscan := congrArg Prod.snd (decode_byte shift (hends h0) rfl)
  rw [hbyte] at hscan
  calc (kbdScan shift d).2.1.getLsbD 1
      = (Key.after ⟨decide (shift &&& E0ESC ≠ 0), d.truncate 7⟩ d.msb shift).getLsbD 1 := congrArg (BitVec.getLsbD · 1) hscan
    _ = _ := after_test .ctl _ _ _
  simp only [hctl, hmake, hbreak, Modifier.index]
  by_cases hd : d.truncate 7 = (0x1D : BitVec 7)
  · rw [if_pos hd]
    cases d.msb <;> simp [hd]
  · rw [if_neg hd, if_neg fun h => hd h.1, if_neg fun h => hd h.1]

/-- **CTL after a stream** of any bytes. -/
theorem ctl_last (history : List Byte) : (decode 0 history).2 &&& CTL ≠ 0 ↔ ctrlDown history := by
  rw [ctl_test]
  induction history using List.reverseRecOn with
  | nil => decide
  | append_singleton l d ih =>
    have hstep : (decode 0 (l ++ [d])).2 = (kbdScan (decode 0 l).2 d).2.1 := by
      rw [decode_append]
      rfl
    rw [hstep, kbdScan_ctl, ctrlDown, List.filter_append, List.getLast?_append]
    by_cases h1 : d = 0x1D
    · simp [h1]
    by_cases h2 : d = 0x9D
    · simp [h2]
    rw [if_neg h1, if_neg h2, ih, ctrlDown, List.filter_cons_of_neg (by rw [decide_eq_true_eq]; exact not_or.2 ⟨h1, h2⟩),
      List.filter_nil, List.getLast?_nil, Option.none_or]

/-! ## A navigation key -/

/-- the ten keys in the three maps: their codes are no letters -/
theorem maps_agree (k : Navigation) :
    normalmap k.toKey.slot = k.key ∧ shiftmap k.toKey.slot = k.key ∧
      ctlmap k.toKey.slot = (if k = .home then 0 else k.key) ∧ capsLock k.key.toNat = k.key.toNat := by
  cases k <;> decide

/-- they are no modifiers, and their makes have the prefix before them -/
theorem navigation_make (k : Navigation) : (⟨k.toKey, false⟩ : Scancode).bytes = [0xE0, k.code] ∧
    ¬ (k.toKey = Modifier.ctl.fst ∨ k.toKey = Modifier.ctl.snd) := by
  cases k <;> decide

/-- the code of the key, unless it is Home under Ctrl, which has none -/
def Navigation.result (k : Navigation) (ctl : Prop) [Decidable ctl] : ℤ := if ctl ∧ k = .home then 0 else k.key.toNat

theorem keyChar_navigation (shift : Word) (k : Navigation) : keyChar shift k.toKey.slot = k.result (shift &&& CTL ≠ 0) := by
  obtain ⟨hn, hs, hc, hcaps⟩ := maps_agree k
  have hmap : (charcode (shift &&& (CTL ||| SHIFT)) k.toKey.slot).toNat =
      if shift &&& CTL ≠ 0 ∧ k = .home then 0 else k.key.toNat := by
    rw [charcode_test]
    by_cases hctl : shift &&& CTL ≠ 0
    · rw [if_pos hctl, hc]
      by_cases hk : k = .home
      · rw [if_pos hk, if_pos ⟨hctl, hk⟩]
        rfl
      · rw [if_neg hk, if_neg (not_and_of_not_right _ hk)]
    · rw [if_neg hctl, if_neg (not_and_of_not_left _ hctl)]
      by_cases hshift : shift &&& SHIFT ≠ 0
      · rw [if_pos hshift, hs]
      · rw [if_neg hshift, hn]
  unfold keyChar Navigation.result
  simp only [hmap]
  by_cases hhome : shift &&& CTL ≠ 0 ∧ k = .home
  · simp only [if_pos hhome]
    split_ifs <;> rfl
  · simp only [if_neg hhome]
    split_ifs
    · exact hcaps
    · rfl

/-- **A navigation key after a stream.** -/
theorem decode_press (history : List Byte) (k : Navigation) :
    (decode 0 (history ++ [0xE0, k.code])).1.getLast? = some (k.result (ctrlDown history)) := by
  obtain ⟨hbytes, hmod⟩ := navigation_make k
  have hkey : k.toKey = k.toKey.read (decide ((decode 0 history).2 &&& E0ESC ≠ 0)) := rfl
  have hctl : k.toKey.after false (decode 0 history).2 &&& CTL ≠ 0 ↔ ctrlDown history := by
    rw [← ctl_last, ctl_test, ctl_test]
    exact Bool.eq_iff_iff.1 ((after_test .ctl k.toKey false _).trans (if_neg hmod))
  rw [decode_append, ← hbytes, decode_code _ rfl hkey, List.getLast?_append]
  simp only [Bool.false_eq_true, if_false, keyChar_navigation, Navigation.result, hctl]
  rfl

theorem pressed_eq (dev : ℕ → ℕ → Byte) (s : State) (history : List Byte) (k : Navigation) :
    pressed dev s history k = some (k.result (ctrlDown history)) := by
  rw [pressed, values_kbd]
  exact decode_press history k

/-- **The same key after two streams.** It returns the same code, one of kbdreg.h and not 0, whatever the streams are and
whatever keys they leave down: unless the key is Home, and Ctrl is down after one of them. Streams that go on behind
Ctrl-Alt-Del are included: it resets the machine, so for these this is about the C function only. -/
theorem navigation_iff (dev : ℕ → ℕ → Byte) (s s' : State) (history history' : List Byte) (k : Navigation) :
    (∃ c ∈ keyCodes, c ≠ 0 ∧ pressed dev s history k = some (c.toNat : ℤ) ∧
        pressed dev s' history' k = some (c.toNat : ℤ)) ↔
      (k = .home → ¬ ctrlDown history ∧ ¬ ctrlDown history') := by
  have hkey : k.key ∈ keyCodes ∧ k.key ≠ 0 := by cases k <;> decide
  rw [pressed_eq, pressed_eq]
  constructor
  · rintro ⟨c, -, hc, h, h'⟩ hk
    -- Home under Ctrl returns 0
    have hzero : ∀ {history : List Byte}, some (k.result (ctrlDown history)) = some (c.toNat : ℤ) → ¬ ctrlDown history := by
      intro history he hctl
      rw [Navigation.result, if_pos ⟨hctl, hk⟩, Option.some_inj] at he
      exact hc (BitVec.eq_of_toNat_eq (Int.ofNat_inj.1 he).symm)
    exact ⟨hzero h, hzero h'⟩
  · intro h
    refine ⟨k.key, hkey.1, hkey.2, ?_, ?_⟩
    · rw [Navigation.result, if_neg fun hh => (h hh.2).1 hh.1]
    · rw [Navigation.result, if_neg fun hh => (h hh.2).2 hh.1]

/-- **Home under Ctrl.** It returns 0, and KEY_HOME before Ctrl is pressed. -/
theorem navigation_home_ctrl :
    pressed (fun _ _ => 0xFF) bootState [] .home = some (KEY_HOME.toNat : ℤ) ∧
      pressed (fun _ _ => 0xFF) bootState [0x1D] .home = some 0 ∧
      ¬ ∃ c ∈ keyCodes, c ≠ 0 ∧ pressed (fun _ _ => 0xFF) bootState [] .home = some (c.toNat : ℤ) ∧
        pressed (fun _ _ => 0xFF) bootState [0x1D] .home = some (c.toNat : ℤ) := by
  simp only [pressed_eq]
  decide

end Jos.Console
