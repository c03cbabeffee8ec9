/-
Do the modifier bits of the keyboard decoder follow the keys?

A stream of scancodes is read as complete codes: a key pressed or released, the extended keys behind the prefix 0xE0.
`held` is the keys that are down, and SHIFT, CTL and ALT each stand for two of them.

- `decode_code`: what one code does to the modifiers, and the results of kbd_proc_data for it.
- `follows_iff`: the exact condition under which one code keeps the bits with the keys.
- **`modifiers_follow_iff`**: the bits and the characters follow the keys exactly when every code of the stream meets it.
  `modifiers_overlap`: what happens when a modifier key is released while the other one of its pair is down.

The break code of key 0x60 ends with the prefix itself, and the decoder then takes the next code for an extended key. No
keyboard has this key, but streams with it are covered.
-/
import Jos.Console.Devices

namespace Jos.Console

/-! ## Keys -/

/-- a key: its 7-bit code, behind the prefix or not -/
structure Key where
  ext : Bool
  code : BitVec 7
deriving DecidableEq, Repr

/-- a complete code -/
structure Scancode where
  key : Key
  release : Bool
deriving DecidableEq, Repr

/-- the index of a key in the tables -/
def Key.slot (k : Key) : Byte := k.code.zeroExtend 8 ||| if k.ext then 0x80 else 0

/-- the last byte of a code -/
def Scancode.byte (c : Scancode) : Byte := c.key.code.zeroExtend 8 ||| if c.release then 0x80 else 0

def Scancode.bytes (c : Scancode) : List Byte := (if c.key.ext then [0xE0] else []) ++ [c.byte]

/-- the last byte of the code is the prefix: the break code of key 0x60 -/
def Scancode.endsE0 (c : Scancode) : Bool := c.release && c.key.code == 0x60

/-- the prefix is the last byte of the stream -/
def pending (codes : List Scancode) : Bool := codes.getLast?.any Scancode.endsE0

/-- the key as it is decoded, behind a prefix that is pending or not -/
def Key.read (k : Key) (pending : Bool) : Key := ⟨k.ext || pending, k.code⟩

/-- the modifiers that a stream leaves -/
def modifiers (codes : List Scancode) : Word := (decode 0 (codes.flatMap Scancode.bytes)).2

/-- the keys that are down after a stream: from a key's make to its break -/
def held (codes : List Scancode) : Key → Bool :=
  codes.foldl (fun down c => Function.update down c.key (!c.release)) fun _ => false

inductive Modifier where
  | shift
  | ctl
  | alt
deriving DecidableEq, Repr

namespace Modifier

def bit : Modifier → Word
  | shift => SHIFT
  | ctl => CTL
  | alt => ALT

def index : Modifier → ℕ
  | shift => 0
  | ctl => 1
  | alt => 2

/-- the two keys of a modifier -/
def fst : Modifier → Key
  | shift => ⟨false, 0x2A⟩
  | ctl => ⟨false, 0x1D⟩
  | alt => ⟨false, 0x38⟩

def snd : Modifier → Key
  | shift => ⟨false, 0x36⟩
  | ctl => ⟨true, 0x1D⟩
  | alt => ⟨true, 0x38⟩

theorem fst_ne_snd (m : Modifier) : m.fst ≠ m.snd := by cases m <;> decide

/-- k and k' are the two keys -/
def Pair (m : Modifier) (k k' : Key) : Prop := k = m.fst ∧ k' = m.snd ∨ k = m.snd ∧ k' = m.fst

end Modifier

/-- each modifier is set iff one of its keys is down -/
def Follows (shift : Word) (down : Key → Bool) : Prop := ∀ m : Modifier, shift &&& m.bit ≠ 0 ↔ down m.fst ∨ down m.snd

/-- the map of the modifiers held -/
def mapOf (down : Key → Bool) : Byte → Byte :=
  if down Modifier.ctl.fst ∨ down Modifier.ctl.snd then ctlmap
  else if down Modifier.shift.fst ∨ down Modifier.shift.snd then shiftmap
  else normalmap

/-- the results for a code that is decoded as key k and leaves the modifiers `shift` and the keys `down`: a make returns
k's character in the map of the modifiers held, everything else 0 -/
def Scancode.results (c : Scancode) (k : Key) (shift : Word) (down : Key → Bool) : List ℤ :=
  (if c.key.ext then [0] else []) ++ [
    if c.release then 0
    else if shift &&& CAPSLOCK ≠ 0 then capsLock (mapOf down k.slot).toNat else (mapOf down k.slot).toNat]

/-! ## Bits -/

theorem and_bit (m : Modifier) (x : Word) : x &&& m.bit = if x.getLsbD m.index then m.bit else 0 := by
  have hbit : m.bit = BitVec.twoPow 32 m.index := by cases m <;> rfl
  rw [hbit]
  exact BitVec.and_twoPow x m.index

theorem Modifier.test (m : Modifier) (x : Word) : x &&& m.bit ≠ 0 ↔ x.getLsbD m.index = true := by
  have hne : m.bit ≠ 0 := by cases m <;> decide
  rw [and_bit]
  split_ifs with h
  · exact iff_of_true hne h
  · exact iff_of_false (not_not.2 rfl) h

theorem forall_key {P : Key → Prop} (h : ∀ ext code, P ⟨ext, code⟩) (k : Key) : P k := h k.ext k.code

/-- the keys in the tables -/
theorem shiftcode_test (m : Modifier) (k : Key) : (shiftcode k.slot).getLsbD m.index = true ↔ k = m.fst ∨ k = m.snd := by
  revert k
  apply forall_key
  cases m <;> decide +kernel

theorem togglecode_test (m : Modifier) (k : Key) : (togglecode k.slot).getLsbD m.index = false := by
  revert k
  apply forall_key
  cases m <;> decide +kernel

theorem esc_test (x : Word) : x &&& E0ESC ≠ 0 ↔ x.getLsbD 6 = true := by
  have hne : E0ESC ≠ 0 := by decide
  rw [show x &&& E0ESC = if x.getLsbD 6 then E0ESC else 0 from BitVec.and_twoPow x 6]
  split_ifs with h
  · exact iff_of_true hne h
  · exact iff_of_false (not_not.2 rfl) h

/-- the flag of the prefix is in none of the tables -/
theorem tables_esc (k : Key) : (shiftcode k.slot).getLsbD 6 = false ∧ (togglecode k.slot).getLsbD 6 = false := by
  revert k
  apply forall_key
  decide +kernel

/-- behind a pending prefix the keys of Ctrl and Alt stay theirs, as both have the same code, and those of Shift are none -/
theorem read_pair (m : Modifier) (k : Key) (pending : Bool) :
    (k.read pending = m.fst ∨ k.read pending = m.snd) ↔ (k = m.fst ∨ k = m.snd) ∧ ¬ (pending = true ∧ m = .shift) := by
  revert k
  apply forall_key
  cases m <;> cases pending <;> decide +kernel

/-! ## One code -/

/-- the modifiers after key k is released or pressed -/
def Key.after (k : Key) (release : Bool) (shift : Word) : Word :=
  if release then shift &&& ~~~(shiftcode k.slot ||| E0ESC)
  else ((shift &&& ~~~E0ESC) ||| shiftcode k.slot) ^^^ togglecode k.slot

theorem esc_on (shift : Word) : (shift ||| E0ESC) &&& E0ESC ≠ 0 := by
  rw [esc_test, BitVec.getLsbD_or, show E0ESC.getLsbD 6 = true by decide, Bool.or_true]

theorem esc_off {shift : Word} (h : ¬ shift &&& E0ESC ≠ 0) : shift &&& ~~~E0ESC = shift := by
  apply BitVec.eq_of_getLsbD_eq
  intro i hi
  have hb : (shift.getLsbD i && E0ESC.getLsbD i) = false := by
    rw [← BitVec.getLsbD_and, not_not.1 h]
    exact BitVec.getLsbD_zero
  simp only [BitVec.getLsbD_and, BitVec.getLsbD_not, hi, decide_true, Bool.true_and]
  revert hb
  cases shift.getLsbD i <;> cases E0ESC.getLsbD i <;> decide

/-- a code takes the prefix off -/
theorem after_esc_on (k : Key) (release : Bool) (shift : Word) :
    k.after release (shift ||| E0ESC) = k.after release shift := by
  apply BitVec.eq_of_getLsbD_eq
  intro i hi
  unfold Key.after
  cases release <;> simp only [BitVec.getLsbD_and, BitVec.getLsbD_or, BitVec.getLsbD_xor, BitVec.getLsbD_not, if_true,
    Bool.false_eq_true, if_false] <;>
    cases shift.getLsbD i <;> cases E0ESC.getLsbD i <;> simp

theorem after_esc (k : Key) (release : Bool) (shift : Word) : ¬ k.after release shift &&& E0ESC ≠ 0 := by
  obtain ⟨h1, h2⟩ := tables_esc k
  have hE : E0ESC.getLsbD 6 = true := by decide
  rw [esc_test, Key.after]
  split_ifs
  · rw [BitVec.getLsbD_and, BitVec.getLsbD_not, BitVec.getLsbD_or, hE]
    simp
  · rw [BitVec.getLsbD_xor, BitVec.getLsbD_or, BitVec.getLsbD_and, BitVec.getLsbD_not, h1, h2, hE]
    simp

/-- a make sets its modifier, and a break clears it -/
theorem after_test (m : Modifier) (k : Key) (release : Bool) (shift : Word) :
    (k.after release shift).getLsbD m.index = if k = m.fst ∨ k = m.snd then !release else shift.getLsbD m.index := by
  have hi : m.index < 32 := by cases m <;> decide
  have hesc : E0ESC.getLsbD m.index = false := by cases m <;> decide
  have ht := togglecode_test m k
  have hs : (shiftcode k.slot).getLsbD m.index = decide (k = m.fst ∨ k = m.snd) := by
    rw [Bool.eq_iff_iff, shiftcode_test, decide_eq_true_eq]
  unfold Key.after
  cases release with
  | false =>
    rw [if_neg Bool.false_ne_true, BitVec.getLsbD_xor, BitVec.getLsbD_or, BitVec.getLsbD_and, BitVec.getLsbD_not, hs, ht,
      hesc, decide_eq_true hi, Bool.xor_false]
    split_ifs with hk <;> simp [hk]
  | true =>
    rw [if_pos rfl, BitVec.getLsbD_and, BitVec.getLsbD_not, BitVec.getLsbD_or, hs, hesc, decide_eq_true hi, Bool.or_false,
      Bool.true_and]
    split_ifs with hk <;> simp [hk]

/-- the byte of a make code, and that of a break code -/
theorem make_byte (code : BitVec 7) : code.zeroExtend 8 ||| 0 ≠ (0xE0 : Byte) ∧ (code.zeroExtend 8 ||| 0) &&& (0x80 : Byte) = 0 ∧
    (code.zeroExtend 8 ||| 0) ||| (0x80 : Byte) = code.zeroExtend 8 ||| 0x80 := by
  revert code
  decide

theorem break_byte (code : BitVec 7) : (code ≠ 0x60 → code.zeroExtend 8 ||| (0x80 : Byte) ≠ 0xE0) ∧
    (code.zeroExtend 8 ||| 0x80) &&& (0x80 : Byte) ≠ 0 ∧
    (code.zeroExtend 8 ||| 0x80) &&& (0x7F : Byte) = code.zeroExtend 8 ||| 0 := by
  revert code
  decide

theorem kbdScan_E0 (shift : Word) : kbdScan shift 0xE0 = (0, shift ||| E0ESC, false) := by rw [kbdScan, if_pos rfl]

/-- the last byte of a code, with a prefix before it or not -/
theorem decode_byte (shift : Word) {c : Scancode} (hc : c.endsE0 = false) {k : Key}
    (hk : k = ⟨decide (shift &&& E0ESC ≠ 0), c.key.code⟩) :
    decode shift [c.byte] = ([if c.release then 0 else keyChar (k.after c.release shift) k.slot], k.after c.release shift) := by
  obtain ⟨⟨ext, code⟩, release⟩ := c
  subst hk
  cases release with
  | false =>
    obtain ⟨h1, h2, h3⟩ := make_byte code
    show decode shift [code.zeroExtend 8 ||| 0] = _
    rw [decode, kbdScan, if_neg h1, if_neg (not_not.2 h2)]
    by_cases he : shift &&& E0ESC ≠ 0
    · rw [if_pos he, h3, decide_eq_true he]
      rfl
    · rw [if_neg he, decide_eq_false he, Key.after, if_neg Bool.false_ne_true, esc_off he]
      rfl
  | true =>
    obtain ⟨h1, h2, h3⟩ := break_byte code
    have hcode : code ≠ 0x60 := by simpa [Scancode.endsE0] using hc
    show decode shift [code.zeroExtend 8 ||| 0x80] = _
    rw [decode, kbdScan, if_neg (h1 hcode), if_pos h2]
    by_cases he : shift &&& E0ESC ≠ 0
    · rw [if_pos he, decide_eq_true he]
      rfl
    · rw [if_neg he, decide_eq_false he, h3]
      rfl

/-- **What one code does**: it updates the modifiers for the key that it is decoded as, and a make returns the key's
character. -/
theorem decode_code (shift : Word) {c : Scancode} (hc : c.endsE0 = false) {k : Key}
    (hk : k = c.key.read (decide (shift &&& E0ESC ≠ 0))) :
    decode shift c.bytes = ((if c.key.ext then [0] else []) ++ [if c.release then 0 else keyChar (k.after c.release shift) k.slot],
      k.after c.release shift) := by
  rw [Scancode.bytes]
  cases hext : c.key.ext with
  | false =>
    rw [Key.read, hext, Bool.false_or] at hk
    exact decode_byte shift hc hk
  | true =>
    rw [Key.read, hext, Bool.true_or] at hk
    have h := decode_byte (shift ||| E0ESC) hc (hk.trans (by rw [decide_eq_true (esc_on shift)]))
    rw [after_esc_on] at h
    show decode shift (0xE0 :: [c.byte]) = _
    rw [decode, kbdScan_E0, h]
    rfl

/-- a code that ends with the prefix leaves the modifiers alone -/
theorem decode_endsE0 (shift : Word) {c : Scancode} (hc : c.endsE0 = true) :
    decode shift c.bytes = ((if c.key.ext then [0] else []) ++ [0], shift ||| E0ESC) := by
  obtain ⟨⟨ext, code⟩, release⟩ := c
  rw [Scancode.endsE0, Bool.and_eq_true, beq_iff_eq] at hc
  obtain ⟨rfl, rfl⟩ := hc
  have hbyte : Scancode.byte ⟨⟨ext, 0x60⟩, true⟩ = 0xE0 := show (0x60 : BitVec 7).zeroExtend 8 ||| 0x80 = 0xE0 by decide
  rw [Scancode.bytes, hbyte]
  cases ext with
  | false =>
    show decode shift [0xE0] = _
    rw [decode, kbdScan_E0]
    rfl
  | true =>
    show decode shift [0xE0, 0xE0] = _
    rw [decode, kbdScan_E0, decode, kbdScan_E0, BitVec.or_assoc, BitVec.or_self]
    rfl

/-- the map of the bits: Ctrl goes before Shift -/
theorem charcode_test (shift : Word) : charcode (shift &&& (CTL ||| SHIFT)) =
    if shift &&& CTL ≠ 0 then ctlmap else if shift &&& SHIFT ≠ 0 then shiftmap else normalmap := by
  have hand : shift &&& (CTL ||| SHIFT) = (shift &&& CTL) ||| (shift &&& SHIFT) := BitVec.and_or_distrib_left
  rw [hand, show shift &&& CTL = _ from and_bit .ctl shift, show shift &&& SHIFT = _ from and_bit .shift shift]
  cases shift.getLsbD (Modifier.index .ctl) <;> cases shift.getLsbD (Modifier.index .shift) <;> rfl

theorem charcode_follows {shift : Word} {down : Key → Bool} (h : Follows shift down) :
    charcode (shift &&& (CTL ||| SHIFT)) = mapOf down := by
  rw [charcode_test, mapOf]
  exact if_congr (h .ctl) rfl (if_congr (h .shift) rfl rfl)

/-! ## A stream of codes -/

theorem held_snoc (p : List Scancode) (c : Scancode) : held (p ++ [c]) = Function.update (held p) c.key (!c.release) := by
  rw [held, List.foldl_append]
  rfl

theorem modifiers_snoc (p : List Scancode) (c : Scancode) : modifiers (p ++ [c]) = (decode (modifiers p) c.bytes).2 := by
  rw [modifiers, List.flatMap_append, decode_append, List.flatMap_cons, List.flatMap_nil, List.append_nil]
  rfl

/-- these are the modifiers of the decoder when the keyboard has been polled -/
theorem kbdIntr_modifiers (dev : ℕ → ℕ → Byte) {s : State} {codes : List Scancode} (h0 : s.shift = 0)
    (hk : s.kbd = codes.flatMap Scancode.bytes) : (kbdIntr dev s).shift = modifiers codes := by
  rw [modifiers, ← h0, ← hk]
  exact (kbd_polled dev s).2.2.1

/-- the decoder's flag is the pending prefix -/
theorem modifiers_pending (codes : List Scancode) : decide (modifiers codes &&& E0ESC ≠ 0) = pending codes := by
  rcases List.eq_nil_or_concat codes with rfl | ⟨p, c, rfl⟩
  · decide
  · rw [List.concat_eq_append, modifiers_snoc, pending, List.getLast?_append, List.getLast?_singleton, Option.some_or,
      Option.any_some]
    cases hc : c.endsE0 with
    | false => rw [decode_code _ hc rfl, decide_eq_false (after_esc _ _ _)]
    | true => rw [decode_endsE0 _ hc, decide_eq_true (esc_on _)]

/-- a code sets or clears the modifier of its key, unless it is one of Shift's behind a pending prefix -/
theorem modifiers_test (m : Modifier) (p : List Scancode) (c : Scancode) :
    (modifiers (p ++ [c])).getLsbD m.index =
      if (c.key = m.fst ∨ c.key = m.snd) ∧ ¬ (pending p = true ∧ m = .shift) then !c.release
      else (modifiers p).getLsbD m.index := by
  rw [modifiers_snoc]
  cases hc : c.endsE0 with
  | false =>
    rw [decode_code _ hc rfl, after_test, modifiers_pending]
    exact if_congr (read_pair m c.key (pending p)) rfl rfl
  | true =>
    have hcode : c.key.code = 0x60 := by simpa [Scancode.endsE0] using (Bool.and_eq_true _ _).mp hc |>.2
    have hkey : ¬ (c.key = m.fst ∨ c.key = m.snd) := by
      intro h
      have hpair : m.fst.code ≠ 0x60 ∧ m.snd.code ≠ 0x60 := by cases m <;> decide
      rcases h with h | h
      · exact hpair.1 (h ▸ hcode)
      · exact hpair.2 (h ▸ hcode)
    have hesc : E0ESC.getLsbD m.index = false := by cases m <;> decide
    rw [decode_endsE0 _ hc]
    show (modifiers p ||| E0ESC).getLsbD m.index = _
    rw [if_neg fun h => hkey h.1, BitVec.getLsbD_or, hesc, Bool.or_false]

/-- The code keeps the modifiers with the keys, if they are so before it: a modifier key is released while the other one
of its pair is up. A Shift key's code that is decoded as an extended key does nothing; so when it is a make, a Shift key
is down already, and when it is a break, it is not of the only one. -/
def Keeps (pending : Bool) (down : Key → Bool) (c : Scancode) : Prop :=
  ∀ m : Modifier, ∀ k', m.Pair c.key k' →
    if pending ∧ m = .shift then if c.release then down c.key → down k' else down c.key ∨ down k'
    else c.release → down k' = false

/-- after every code of the stream the bits follow the keys, and its results are those of the map of the modifiers held -/
def ModifiersFollow (codes : List Scancode) : Prop :=
  ∀ p c s, codes = p ++ c :: s → Follows (modifiers (p ++ [c])) (held (p ++ [c])) ∧
    (decode (modifiers p) c.bytes).1 = c.results (c.key.read (pending p)) (modifiers (p ++ [c])) (held (p ++ [c]))

/-- every code of the stream keeps the modifiers with the keys -/
def KeysKept (codes : List Scancode) : Prop := ∀ p c s, codes = p ++ c :: s → Keeps (pending p) (held p) c

/-- one modifier and one code of a key of its pair -/
theorem bit_follows_iff {m : Modifier} {p : List Scancode} {c : Scancode} {k' : Key} (hk : m.Pair c.key k')
    (h : (modifiers p).getLsbD m.index = true ↔ held p c.key ∨ held p k') :
    ((modifiers (p ++ [c])).getLsbD m.index = true ↔ held (p ++ [c]) c.key ∨ held (p ++ [c]) k') ↔
      if pending p ∧ m = .shift then if c.release then held p c.key → held p k' else held p c.key ∨ held p k'
      else c.release → held p k' = false := by
  have hne : k' ≠ c.key := by
    rcases hk with ⟨h1, h2⟩ | ⟨h1, h2⟩
    · rw [h1, h2]; exact m.fst_ne_snd.symm
    · rw [h1, h2]; exact m.fst_ne_snd
  have hmem : c.key = m.fst ∨ c.key = m.snd := hk.imp And.left And.left
  rw [held_snoc, Function.update_self, Function.update_of_ne hne, modifiers_test]
  by_cases hl : pending p = true ∧ m = .shift
  · -- the code is lost
    rw [if_neg fun hr => hr.2 hl, if_pos hl, h]
    cases c.release <;> simp
  · rw [if_pos ⟨hmem, hl⟩, if_neg hl]
    cases c.release <;> simp

/-- **One code.** From modifiers that follow the keys, it leaves modifiers that do exactly if it keeps them. -/
theorem follows_iff {p : List Scancode} {c : Scancode} (h : Follows (modifiers p) (held p)) :
    Follows (modifiers (p ++ [c])) (held (p ++ [c])) ↔ Keeps (pending p) (held p) c := by
  -- what has to be shown for m, when c is a code of its key k and k' is the other one
  have hpair : ∀ m : Modifier, ∀ k', m.Pair c.key k' →
      ((modifiers (p ++ [c]) &&& m.bit ≠ 0 ↔ held (p ++ [c]) m.fst ∨ held (p ++ [c]) m.snd) ↔
        if pending p ∧ m = .shift then if c.release then held p c.key → held p k' else held p c.key ∨ held p k'
        else c.release → held p k' = false) := by
    intro m k' hk
    have hm := h m
    rw [Modifier.test] at hm
    rw [Modifier.test, ← bit_follows_iff hk]
    · rcases hk with ⟨h1, h2⟩ | ⟨h1, h2⟩
      · rw [h1, h2]
      · rw [h1, h2, or_comm (a := held (p ++ [c]) m.fst = true)]
    · rcases hk with ⟨h1, h2⟩ | ⟨h1, h2⟩
      · rw [h1, h2, hm]
      · rw [h1, h2, hm, or_comm]
  constructor
  · intro hf m k' hk
    exact (hpair m k' hk).1 (hf m)
  · intro hkeep m
    by_cases h1 : c.key = m.fst
    · exact (hpair m m.snd (Or.inl ⟨h1, rfl⟩)).2 (hkeep m m.snd (Or.inl ⟨h1, rfl⟩))
    by_cases h2 : c.key = m.snd
    · exact (hpair m m.fst (Or.inr ⟨h2, rfl⟩)).2 (hkeep m m.fst (Or.inr ⟨h2, rfl⟩))
    · -- a code of another key
      have hm := h m
      rw [Modifier.test] at hm
      rw [Modifier.test, modifiers_test, if_neg fun hr => hr.1.elim h1 h2, held_snoc,
        Function.update_of_ne (Ne.symm h1), Function.update_of_ne (Ne.symm h2)]
      exact hm

/-- the characters of a code, when the bits follow the keys after it -/
theorem results_follow {p : List Scancode} {c : Scancode} (h : Follows (modifiers (p ++ [c])) (held (p ++ [c]))) :
    (decode (modifiers p) c.bytes).1 = c.results (c.key.read (pending p)) (modifiers (p ++ [c])) (held (p ++ [c])) := by
  cases hc : c.endsE0 with
  | false =>
    rw [modifiers_snoc, decode_code _ hc rfl] at h ⊢
    rw [modifiers_pending] at h ⊢
    simp only [Scancode.results, keyChar, charcode_follows h]
  | true =>
    obtain ⟨hr, -⟩ := (Bool.and_eq_true _ _).mp hc
    rw [decode_endsE0 _ hc, Scancode.results, if_pos hr]

/-- on a keyboard without key 0x60: every modifier key is released while the other one of its pair is up -/
theorem keysKept_iff {codes : List Scancode} (hk : ∀ c ∈ codes, c.endsE0 = false) :
    KeysKept codes ↔ ∀ p c s, codes = p ++ c :: s → ∀ m : Modifier, ∀ k', m.Pair c.key k' →
      c.release → held p k' = false := by
  apply forall₄_congr
  intro p c s hs
  have hp : pending p = false := by
    rcases List.eq_nil_or_concat p with rfl | ⟨p', c', rfl⟩
    · rfl
    · have hc' : c'.endsE0 = false := hk c' (by rw [hs]; simp)
      simp [pending, hc']
  simp only [Keeps, hp, Bool.false_eq_true, false_and, if_false]

/-- **The modifiers follow the keys.** For every stream of complete codes, after every code: SHIFT, CTL and ALT are set
exactly for the keys that are down and every character is from the map of the modifiers held, if and only if every code
keeps the modifiers with the keys. Behind Ctrl-Alt-Del, which resets the machine, this is about the C function only. -/
theorem modifiers_follow_iff (codes : List Scancode) : ModifiersFollow codes ↔ KeysKept codes := by
  constructor
  · intro h p c s hs
    apply (follows_iff ?_).1 (h p c s hs).1
    -- the modifiers follow the keys before c, too
    rcases List.eq_nil_or_concat p with rfl | ⟨p', c', rfl⟩
    · intro m
      cases m <;> decide
    · rw [List.concat_eq_append] at hs ⊢
      exact (h p' c' (c :: s) (by rw [hs]; simp)).1
  · intro h p c s hs
    suffices hf : ∀ q t, codes = q ++ t → Follows (modifiers q) (held q) by
      have hfc := hf (p ++ [c]) s (by rw [hs]; simp)
      exact ⟨hfc, results_follow hfc⟩
    intro q
    induction q using List.reverseRecOn with
    | nil =>
      intro _ _ m
      cases m <;> decide
    | append_singleton q c ih =>
      intro t ht
      have ht' : codes = q ++ c :: t := by rw [ht]; simp
      exact (follows_iff (ih (c :: t) ht')).2 (h q c t ht')

/-- **Both Shift keys.** The right one is released, the left one is still down, and SHIFT is clear. -/
theorem modifiers_overlap :
    (decode 0 [0x2A, 0x36, 0xB6]).2 &&& SHIFT = 0 ∧
      modifiers [⟨⟨false, 0x2A⟩, false⟩, ⟨⟨false, 0x36⟩, false⟩, ⟨⟨false, 0x36⟩, true⟩] = (decode 0 [0x2A, 0x36, 0xB6]).2 ∧
      held [⟨⟨false, 0x2A⟩, false⟩, ⟨⟨false, 0x36⟩, false⟩, ⟨⟨false, 0x36⟩, true⟩] ⟨false, 0x2A⟩ = true ∧
      ¬ ModifiersFollow [⟨⟨false, 0x2A⟩, false⟩, ⟨⟨false, 0x36⟩, false⟩, ⟨⟨false, 0x36⟩, true⟩] := by
  refine ⟨by decide, by decide, by decide, fun h => ?_⟩
  have hf := (h [⟨⟨false, 0x2A⟩, false⟩, ⟨⟨false, 0x36⟩, false⟩] ⟨⟨false, 0x36⟩, true⟩ [] rfl).1 .shift
  exact hf.2 (Or.inl (by decide)) (by decide)

end Jos.Console
