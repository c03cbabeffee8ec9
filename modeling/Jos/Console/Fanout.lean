/-
What the serial line and the parallel port receive.

The serial line gets the bytes written to its transmit register. The parallel port gets the byte in its data register at
each write to its control register that sets the strobe bit.

- `cputchar_sent`: a tab goes out as a tab and five spaces, every other character once.
- **`cputchar_devices_iff`**: both devices get exactly the characters given to `cputchar` if none of them is a tab.
-/
import Jos.Console.Output

namespace Jos.Console

/-! ## The devices -/

/-- the bytes written to the transmit register, by a log of port writes -/
def serialSent : List (ℕ × Byte) → List Byte
  | [] => []
  | (port, b) :: l => if port = COM1 + COM_TX then serialSent l ++ [b] else serialSent l

/-- the data register of the parallel port -/
def lptData : List (ℕ × Byte) → Byte
  | [] => 0
  | (port, b) :: l => if port = 0x378 then b else lptData l

/-- the bytes strobed to the parallel port -/
def lptSent : List (ℕ × Byte) → List Byte
  | [] => []
  | (port, b) :: l => if port = 0x37A ∧ b &&& 0x01 ≠ 0 then lptSent l ++ [lptData l] else lptSent l

/-- between o and o' both devices received l -/
structure Sent (o o' : Out) (l : List Byte) : Prop where
  serial : serialSent o'.ports = serialSent o.ports ++ l
  lpt : lptSent o'.ports = lptSent o.ports ++ l

theorem Sent.none {o o' : Out} (h : o'.ports = o.ports) : Sent o o' [] := by
  constructor <;> rw [h, List.append_nil]

theorem Sent.trans {o₁ o₂ o₃ : Out} {l l' : List Byte} (h : Sent o₁ o₂ l) (h' : Sent o₂ o₃ l') :
    Sent o₁ o₃ (l ++ l') := by
  constructor
  · rw [h'.serial, h.serial, List.append_assoc]
  · rw [h'.lpt, h.lpt, List.append_assoc]

/-- the ports of the 6845 are none of the other devices' -/
theorem Display.ports_ne (d : Display) :
    ∀ p ∈ [COM1 + COM_TX, 0x378, 0x37A], d.addr6845 ≠ p ∧ d.addr6845 + 1 ≠ p := by
  rcases d.wired with h | h <;> rw [h.1] <;> decide

theorem cgaCursor_sent (o : Out) : Sent o (cgaCursor o) [] := by
  have h := o.disp.ports_ne
  have h1 := h (COM1 + COM_TX) (by decide)
  have h2 := h 0x37A (by decide)
  constructor <;> simp [cgaCursor, outb, serialSent, lptSent, h1, h2]

/-! ## One character -/

/-- what the devices get for a character -/
def sentFor (c : Word) : List Byte :=
  if low c = chr '\t' then chr '\t' :: List.replicate 5 (chr ' ') else [low c]

section Fanout

variable (dev : ℕ → ℕ → Byte)

/-- the first two drivers of cons_putc -/
theorem serial_lpt_sent (c : Word) (o : Out) : Sent o (lptPutc dev c (serialPutc dev c o)) [low c] := by
  obtain ⟨k, hk⟩ := serialPutc_eq dev c o
  obtain ⟨k', hk'⟩ := lptPutc_eq dev c (serialPutc dev c o)
  rw [hk', hk]
  constructor <;> simp [serialSent, lptSent, lptData, COM1, COM_TX]

theorem cgaPutc_plain_sent {c : Word} (h : low c ≠ chr '\t') (o : Out) : Sent o (cgaPutc dev c o) [] := by
  rw [cgaPutc_plain dev (by rwa [withAttr_low])]
  exact (Sent.none (by simp)).trans (cgaCursor_sent _)

theorem fiveSpaces_sent (o : Out) : Sent o (fiveSpaces dev o) (List.replicate 5 (chr ' ')) := by
  have one : ∀ o, Sent o (consPutc dev (uchar (chr ' ')) o) [chr ' '] := by
    intro o
    rw [consPutc]
    exact (serial_lpt_sent dev _ o).trans (cgaPutc_plain_sent dev (by decide) _)
  exact (one _).trans ((one _).trans ((one _).trans ((one _).trans (one _))))

/-- **One character.** -/
theorem consPutc_sent (c : Word) (o : Out) : Sent o (consPutc dev c o) (sentFor c) := by
  have h := serial_lpt_sent dev c o
  rw [consPutc, sentFor]
  split_ifs with ht
  · rw [ht] at h
    rw [cgaPutc_tab dev (by rwa [withAttr_low])]
    have hcur : ∀ o', Sent o' (cgaCursor (cgaScroll o')) [] := fun o' =>
      (Sent.none (cgaScroll_ports o')).trans (cgaCursor_sent _)
    exact h.trans ((fiveSpaces_sent dev _).trans (hcur _))
  · exact h.trans (cgaPutc_plain_sent dev ht _)

/-! ## All characters -/

/-- cputchar for each character of a text -/
def putText (cs : List Word) (o : Out) : Out := cs.foldl (fun o c => cputchar dev c o) o

theorem cputchar_sent (cs : List Word) (o : Out) : Sent o (putText dev cs o) (cs.flatMap sentFor) := by
  induction cs generalizing o with
  | nil => exact Sent.none rfl
  | cons c cs ih => exact (consPutc_sent dev c o).trans (ih _)

theorem flatMap_sentFor_length (cs : List Word) :
    (cs.flatMap sentFor).length = cs.length + 5 * (cs.countP fun c => low c = chr '\t') := by
  induction cs with
  | nil => rfl
  | cons c cs ih =>
    rw [List.flatMap_cons, List.length_append, ih, List.countP_cons, sentFor]
    split_ifs <;> simp_all <;> omega

theorem flatMap_sentFor_eq_iff (cs : List Word) : cs.flatMap sentFor = cs.map low ↔ ∀ c ∈ cs, low c ≠ chr '\t' := by
  constructor
  · intro h
    have hl := congrArg List.length h
    rw [flatMap_sentFor_length, List.length_map] at hl
    have h0 : (cs.countP fun c => low c = chr '\t') = 0 := by omega
    intro c hc
    simpa using List.countP_eq_zero.1 h0 c hc
  · intro h
    induction cs with
    | nil => rfl
    | cons c cs ih =>
      rw [List.flatMap_cons, List.map_cons, sentFor, if_neg (h c List.mem_cons_self),
        ih fun x hx => h x (List.mem_cons_of_mem _ hx)]
      rfl

/-- **The devices.** Whatever the devices answer, the serial line and the parallel port receive exactly the low bytes of
the characters given to `cputchar`, each once and in order, if and only if none of these is a tab. -/
theorem cputchar_devices_iff (cs : List Word) (o : Out) :
    serialSent (putText dev cs o).ports = serialSent o.ports ++ cs.map low ∧
      lptSent (putText dev cs o).ports = lptSent o.ports ++ cs.map low ↔ ∀ c ∈ cs, low c ≠ chr '\t' := by
  have h := cputchar_sent dev cs o
  rw [h.serial, h.lpt, List.append_cancel_left_eq, List.append_cancel_left_eq, and_self, flatMap_sentFor_eq_iff]

end Fanout

/-- `cputchar('\t')` sends six bytes to devices that are always ready. -/
theorem cputchar_tab_sends_spaces :
    serialSent (cputchar (fun _ _ => 0xFF) (uchar (chr '\t')) bootOut).ports =
        chr '\t' :: List.replicate 5 (chr ' ') ∧
      lptSent (cputchar (fun _ _ => 0xFF) (uchar (chr '\t')) bootOut).ports =
        chr '\t' :: List.replicate 5 (chr ' ') ∧
      chr '\t' :: List.replicate 5 (chr ' ') ≠ [low (uchar (chr '\t'))] := by
  decide +kernel

end Jos.Console
