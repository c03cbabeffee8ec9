/-
The line being edited, on the screen.

`Visible t o`: the cells in front of the cursor show the text t. An appended character is written at the cursor and moves it
on by one, or back by a row when the screen scrolls; an erased one takes it back by one. The text has at most 1023
characters, so that it fits in front of the cursor after a scroll.

- `visible_push`, `visible_drop`: the two steps.
- **`readline_on_screen`**: screen and buffer agree all the time.
-/
import Jos.Console.Screen
import Jos.Console.Paper
import Jos.Readline.Edit

namespace Jos.Readline

open Console

/-- the cell of a character in black on white -/
def glyph (c : Byte) : BitVec 16 := 0x0700 ||| c.zeroExtend 16

/-- the position is on the screen, and the cells in front of it show t -/
structure Visible (t : List Byte) (o : Out) : Prop where
  pos : o.crtPos.toNat < CRT_SIZE
  le_pos : t.length ≤ o.crtPos.toNat
  cells : ∀ j (h : j < t.length), o.cell (o.crtPos.toNat - t.length + j) = glyph t[j]

/-- the logs of the ports do not matter -/
theorem Visible.congr {t : List Byte} {o o' : Out} (h : Visible t o) (hd : o'.disp = o.disp) (hr : o'.ram = o.ram)
    (hp : o'.crtPos = o.crtPos) : Visible t o' where
  pos := by rw [hp]; exact h.pos
  le_pos := by rw [hp]; exact h.le_pos
  cells j hj := by
    rw [Out.cell, hd, hr, hp]
    exact h.cells j hj

theorem Visible.cursor {t : List Byte} {o : Out} (h : Visible t o) : Visible t (cgaCursor o) := h.congr rfl rfl rfl

/-! ## One character -/

/-- a scroll takes text and position up by a row -/
theorem visible_scroll {t : List Byte} {o : Out} (ht : t.length ≤ 1023) (hpos : o.crtPos.toNat ≤ CRT_SIZE)
    (hle : t.length ≤ o.crtPos.toNat) (hc : ∀ j (h : j < t.length), o.cell (o.crtPos.toNat - t.length + j) = glyph t[j]) :
    Visible t (cgaScroll o) := by
  rcases lt_or_ge o.crtPos.toNat CRT_SIZE with hp | hp
  · rw [cgaScroll_eq, if_neg (by omega)]
    exact ⟨hp, hle, hc⟩
  · have hnew : (cgaScroll o).crtPos.toNat = 1920 := by
      rw [cgaScroll_pos hp, CRT_COLS_eq]
      rw [CRT_SIZE_eq] at hp hpos
      omega
    refine ⟨by rw [hnew]; decide, by omega, fun j hj => ?_⟩
    have hj' : (cgaScroll o).crtPos.toNat - t.length + j < CRT_SIZE - CRT_COLS := by
      rw [hnew, CRT_SIZE_eq, CRT_COLS_eq]
      omega
    rw [cell_cgaScroll hp (by omega), if_pos hj', ← hc j hj, hnew]
    congr 1
    rw [CRT_SIZE_eq] at hp hpos
    rw [CRT_COLS_eq]
    omega

/-- a character from ' ' on is written at the cursor -/
theorem cgaWrite_printable {c : Byte} (h : chr ' ' ≤ c) (o : Out) :
    cgaWrite (withAttr (uchar c)) o = { o.setCell o.crtPos.toNat (glyph c) with crtPos := o.crtPos + 1 } := by
  have hne : c ≠ chr '\x08' ∧ c ≠ chr '\n' ∧ c ≠ chr '\r' := by
    refine ⟨?_, ?_, ?_⟩ <;> rintro rfl <;> revert h <;> decide
  rw [cgaWrite, withAttr_low, low_uchar, if_neg hne.1, if_neg hne.2.1, if_neg hne.2.2, withAttr_cell]
  rfl

section Steps

variable (dev : ℕ → ℕ → Byte)

/-- **A character appended.** -/
theorem visible_push {t : List Byte} {o : Out} (h : Visible t o) (ht : t.length < 1023) {c : Byte} (hc : chr ' ' ≤ c) :
    Visible (t ++ [c]) (consPutc dev (uchar c) o) := by
  have htab : low (withAttr (uchar c)) ≠ chr '\t' := by
    rw [withAttr_low, low_uchar]
    rintro rfl
    revert hc
    decide
  obtain ⟨reads, ports, hcga⟩ := consPutc_cga dev (uchar c) o
  rw [hcga, cgaPutc_plain dev htab, cgaWrite_printable hc]
  -- the logs do not matter
  generalize ho : ({ o with reads := reads, ports := ports } : Out) = o₁
  have h₁ : Visible t o₁ := by rw [← ho]; exact h.congr rfl rfl rfl
  have hp := h₁.pos
  have hle := h₁.le_pos
  have hnext : (o₁.crtPos + 1).toNat = o₁.crtPos.toNat + 1 := by
    rw [CRT_SIZE_eq] at hp
    bv_omega
  have hlen : (t ++ [c]).length = t.length + 1 := by simp
  have hscroll : Visible (t ++ [c]) (cgaScroll { o₁.setCell o₁.crtPos.toNat (glyph c) with crtPos := o₁.crtPos + 1 }) := by
    apply visible_scroll
    · omega
    · show (o₁.crtPos + 1).toNat ≤ _
      omega
    · show _ ≤ (o₁.crtPos + 1).toNat
      omega
    · intro j hj
      show (o₁.setCell o₁.crtPos.toNat (glyph c)).cell ((o₁.crtPos + 1).toNat - (t ++ [c]).length + j) = _
      rw [cell_setCell hp (by omega)]
      by_cases hjt : j < t.length
      · have hne : (o₁.crtPos + 1).toNat - (t ++ [c]).length + j ≠ o₁.crtPos.toNat := by omega
        have hat : (o₁.crtPos + 1).toNat - (t ++ [c]).length + j = o₁.crtPos.toNat - t.length + j := by omega
        rw [if_neg hne, hat, h₁.cells j hjt, List.getElem_append_left hjt]
      · obtain rfl : j = t.length := by omega
        rw [if_pos (by omega)]
        simp
  exact hscroll.cursor

/-- **A character erased.** -/
theorem visible_drop {t : List Byte} {o : Out} (h : Visible t o) (ht : t ≠ []) :
    Visible t.dropLast (consPutc dev (uchar (chr '\x08')) o) := by
  obtain ⟨reads, ports, hcga⟩ := consPutc_cga dev (uchar (chr '\x08')) o
  rw [hcga, cgaPutc_plain dev (by decide)]
  generalize ho : ({ o with reads := reads, ports := ports } : Out) = o₁
  have h₁ : Visible t o₁ := by rw [← ho]; exact h.congr rfl rfl rfl
  have hp := h₁.pos
  have hle := h₁.le_pos
  have hlen := List.length_pos_of_ne_nil ht
  have hlt : 0 < o₁.crtPos := by rw [BitVec.lt_def]; exact lt_of_lt_of_le hlen hle
  have hprev : (o₁.crtPos - 1).toNat = o₁.crtPos.toNat - 1 := by bv_omega
  have hwrite : cgaWrite (withAttr (uchar (chr '\x08'))) o₁ =
      ({ o₁ with crtPos := o₁.crtPos - 1 } : Out).setCell (o₁.crtPos - 1).toNat blank := by
    rw [cgaWrite, if_pos (by decide), if_pos hlt]
    rfl
  rw [hwrite]
  have hscroll : Visible t.dropLast (cgaScroll (({ o₁ with crtPos := o₁.crtPos - 1 } : Out).setCell (o₁.crtPos - 1).toNat blank)) := by
    have hp' : (({ o₁ with crtPos := o₁.crtPos - 1 } : Out).setCell (o₁.crtPos - 1).toNat blank).crtPos.toNat < CRT_SIZE := by
      show (o₁.crtPos - 1).toNat < _
      omega
    rw [cgaScroll_eq, if_neg (by omega)]
    refine ⟨hp', ?_, fun j hj => ?_⟩
    · show _ ≤ (o₁.crtPos - 1).toNat
      rw [List.length_dropLast]
      omega
    · rw [List.length_dropLast] at hj
      show (({ o₁ with crtPos := o₁.crtPos - 1 } : Out).setCell (o₁.crtPos - 1).toNat blank).cell
        ((o₁.crtPos - 1).toNat - t.dropLast.length + j) = _
      rw [List.length_dropLast]
      have hne : (o₁.crtPos - 1).toNat - (t.length - 1) + j ≠ (o₁.crtPos - 1).toNat := by omega
      have hat : (o₁.crtPos - 1).toNat - (t.length - 1) + j = o₁.crtPos.toNat - t.length + j := by omega
      rw [cell_setCell (by omega) (by omega), if_neg hne, cell_with_crtPos, hat, h₁.cells j (by omega), List.getElem_dropLast]
  exact hscroll.cursor

/-! ## The whole line -/

theorem visible_next {t : List Byte} {o : Out} (h : Visible t o) (c : Byte) :
    Visible (asCoded.next c t) (send (cputchar dev) (asCoded.sends c t) o) := by
  rcases asCoded_cases c t with ⟨h1, ht, hs⟩ | ⟨-, h2, ht, hs⟩ | ⟨-, -, ht, hs⟩
  · rw [ht, hs]
    exact visible_drop dev h h1.2
  · rw [ht, hs]
    exact visible_push dev h h2.2 h2.1
  · rw [ht, hs]
    exact h

/-- **Every text.** -/
theorem visible_text (cs : List Byte) {t : List Byte} {o : Out} (h : Visible t o) :
    Visible (asCoded.text cs t) (send (cputchar dev) (asCoded.sent cs t) o) := by
  induction cs generalizing t o with
  | nil => exact h
  | cons c cs ih =>
    rw [Editor.sent, send_append]
    exact ih (visible_next dev h c)

/-- **The line on the screen.** For every prompt that leaves the position on the screen, and every text without line ends:
readline has the edited text in the buffer and its length in i, the position is at least i, and the i cells in front of it
show the buffer in black on white. -/
theorem readline_on_screen (o : Out) (prompt : Option (List Byte)) (hp : Prompt prompt)
    (hpos : (Sink.feed (cputchar dev) o (promptChars prompt)).crtPos.toNat < CRT_SIZE) (buf : ℤ → Byte) (cs : List Byte)
    (hcs : ∀ c ∈ cs, c ≠ chr '\n' ∧ c ≠ chr '\r') :
    ∃ l, readline (cputchar dev) prompt buf (typed cs) o = .ok (.waiting l) ∧ Holds (asCoded.text cs []) l ∧
      l.i ≤ l.console.crtPos.toNat ∧
      ∀ j : ℕ, j < l.i → l.console.cell (l.console.crtPos.toNat - l.i.toNat + j) = 0x0700 ||| (l.buf j).zeroExtend 16 := by
  obtain ⟨l, hrun, hl, hcon⟩ := readline_typing (cputchar dev) hp buf cs hcs [] o
  rw [List.append_nil] at hrun
  have hv : Visible [] (Sink.feed (cputchar dev) o (promptChars prompt)) :=
    ⟨hpos, Nat.zero_le _, fun j hj => absurd hj (Nat.not_lt_zero j)⟩
  have hvis := visible_text dev cs hv
  rw [← hcon] at hvis
  have hi := hl.i_eq
  have hle := hvis.le_pos
  refine ⟨l, hrun, hl, by omega, fun j hj => ?_⟩
  have hjt : j < (asCoded.text cs []).length := by omega
  have hcell := hvis.cells j hjt
  rw [← hl.chars j hjt] at hcell
  rw [show l.i.toNat = (asCoded.text cs []).length by omega]
  exact hcell

end Steps

/-- from the boot screen, a text with a correction -/
theorem readline_on_screen_boot :
    ∃ l, readline (cputchar fun _ _ => 0xFF) none (fun _ => 0) (typed (bytes "hx\x08elp")) bootOut = .ok (.waiting l) ∧
      Holds (bytes "help") l ∧ l.i ≤ l.console.crtPos.toNat ∧
      ∀ j : ℕ, j < l.i → l.console.cell (l.console.crtPos.toNat - l.i.toNat + j) = 0x0700 ||| (l.buf j).zeroExtend 16 :=
  readline_on_screen (fun _ _ => 0xFF) bootOut none (by rintro p ⟨⟩) (by decide) (fun _ => 0) (bytes "hx\x08elp") (by decide)

end Jos.Readline
