/-
`cga_init` of kern/console.c, and every run of `cga_putc` after it.

`cga_init` takes the position from two bytes of the hardware as they are. A position on the screen stays there. One behind
its end is left to the first character, and only some of them bring it back.

- `cgaInit`: the probe of the adapter, and the position from the registers 14 and 15.
- `cgaPutc_kept`: one character, from a position on the screen.
- `cgaPutc_recovers_iff`: one character, from a position behind its end.
- **`cga_init_safe_iff`**: every run.
-/
import Jos.Console.Screen

namespace Jos.Console

/-! ## cga_init -/

/-- the adapter that the probe finds, by what is read back from the first cell of a CGA -/
def probe (back : BitVec 16) : Display where
  addr6845 := if back ≠ 0xA55A then MONO_BASE else CGA_BASE
  crtBuf := if back ≠ 0xA55A then KERNBASE + MONO_BUF else KERNBASE + CGA_BUF
  wired := by split_ifs <;> simp

section Init

variable (dev : ℕ → ℕ → Byte)

/-- `cga_init`. `back` is what the machine answers to the read of `*cp` behind the store of 0xA55A: the same where there
is a CGA, whose memory keeps the store, and anything else where there is none. -/
def cgaInit (back : BitVec 16) (r : Ram 32) (ports : List (ℕ × Byte)) (reads : ℕ) : Out :=
  let cp := KERNBASE + CGA_BUF
  let was := r.half cp
  let r := (r.loads cp 2).2.st16 cp 0xA55A
  let r := (r.loads cp 2).2
  let r := if back ≠ 0xA55A then r else r.st16 cp was
  let o : Out := ⟨probe back, 0, r, ports, reads⟩
  -- extract cursor location
  let o := outb o.disp.addr6845 14 o
  let (hi, o) := inb dev (o.disp.addr6845 + 1) o
  let o := outb o.disp.addr6845 15 o
  let (lo, o) := inb dev (o.disp.addr6845 + 1) o
  { o with crtPos := hi.zeroExtend 16 <<< 8 ||| lo.zeroExtend 16 }

/-- the two bytes that cga_init reads, as a position -/
def cursorRead (back : BitVec 16) (reads : ℕ) : BitVec 16 :=
  dev reads ((probe back).addr6845 + 1) ++ dev (reads + 1) ((probe back).addr6845 + 1)

theorem cgaInit_pos (back : BitVec 16) (r : Ram 32) (ports : List (ℕ × Byte)) (reads : ℕ) :
    (cgaInit dev back r ports reads).crtPos = cursorRead dev back reads := by
  have hbytes : ∀ hi lo : Byte, hi.zeroExtend 16 <<< 8 ||| lo.zeroExtend 16 = hi ++ lo := by
    intro hi lo
    rw [← BitVec.append_eq, BitVec.append, BitVec.shiftLeftZeroExtend_eq, BitVec.setWidth'_eq]
  exact hbytes _ _

end Init

/-! ## Safety -/

/-- every byte written between o and o' belongs to a cell with an index below CRT_SIZE -/
def WritesCells (o o' : Out) : Prop :=
  ∃ l, o'.ram.log = l ++ o.ram.log ∧ ∀ a, Access.wr a ∈ l → o.disp.InScreen a

/-- what has to hold of a call of cga_putc that leads from o to o' -/
def SafeCall (o o' : Out) : Prop := WritesCells o o' ∧ o'.crtPos.toNat < CRT_SIZE

theorem OnScreen.writes {o o' : Out} (h : OnScreen o o') : WritesCells o o' := by
  obtain ⟨l, hl, hin⟩ := h.touched
  exact ⟨l, hl, fun a ha => hin _ ha⟩

section Runs

variable (dev : ℕ → ℕ → Byte)

/-- every call for a character of the sequence is safe -/
def SafeRun : List Word → Out → Prop
  | [], _ => True
  | c :: cs, o => SafeCall o (cgaPutc dev c o) ∧ SafeRun cs (cgaPutc dev c o)

/-! ## From a position on the screen -/

/-- a call that stays on the screen -/
structure Kept (o o' : Out) : Prop where
  onScreen : OnScreen o o'
  pos : o'.crtPos.toNat < CRT_SIZE

/-- a write moves the position on by a row at most -/
theorem cgaWrite_pos (c : Word) {o : Out} (h : o.crtPos.toNat < CRT_SIZE) :
    (cgaWrite c o).crtPos.toNat < CRT_SIZE + CRT_COLS := by
  rw [CRT_SIZE_eq] at h
  rw [CRT_SIZE_eq, CRT_COLS_eq]
  unfold cgaWrite
  split_ifs with hbs hpos hnl hcr
  · show (o.crtPos - 1).toNat < _
    bv_omega
  · omega
  · rw [newline_pos (by rw [CRT_COLS_eq]; omega), CRT_COLS_eq]
    omega
  · rw [rowStart_pos, CRT_COLS_eq]
    omega
  · show (o.crtPos + 1).toNat < _
    bv_omega

theorem cgaScroll_kept {o : Out} (h : o.crtPos.toNat < CRT_SIZE + CRT_COLS) : Kept o (cgaScroll o) := by
  refine ⟨cgaScroll_onScreen o, ?_⟩
  rcases Nat.lt_or_ge o.crtPos.toNat CRT_SIZE with hp | hp
  · rw [cgaScroll_eq, if_neg (by omega)]
    exact hp
  · rw [CRT_SIZE_eq, CRT_COLS_eq] at h
    rw [cgaScroll_pos hp, CRT_SIZE_eq, CRT_COLS_eq]
    omega

/-- the end of cga_putc -/
theorem scroll_cursor_kept {o o' : Out} (h : OnScreen o o') (hp : o'.crtPos.toNat < CRT_SIZE + CRT_COLS) :
    Kept o (cgaCursor (cgaScroll o')) := by
  have hs := cgaScroll_kept hp
  exact ⟨(h.trans hs.onScreen).trans (.of_eq rfl rfl), hs.pos⟩

theorem cgaPutc_plain_kept {c : Word} (ht : low (withAttr c) ≠ chr '\t') {o : Out} (h : o.crtPos.toNat < CRT_SIZE) :
    Kept o (cgaPutc dev c o) := by
  rw [cgaPutc_plain dev ht]
  exact scroll_cursor_kept (cgaWrite_onScreen _ h) (cgaWrite_pos _ h)

theorem consPutc_space_kept {o : Out} (h : o.crtPos.toNat < CRT_SIZE) : Kept o (consPutc dev (uchar (chr ' ')) o) := by
  obtain ⟨reads, ports, hcga⟩ := consPutc_cga dev (uchar (chr ' ')) o
  have hk := cgaPutc_plain_kept dev (c := uchar (chr ' ')) (by decide) (o := { o with reads := reads, ports := ports }) h
  rw [hcga]
  exact ⟨⟨hk.onScreen.disp, hk.onScreen.touched⟩, hk.pos⟩

theorem spaces_kept (n : ℕ) {o : Out} (h : o.crtPos.toNat < CRT_SIZE) :
    Kept o ((consPutc dev (uchar (chr ' ')))^[n] o) := by
  induction n generalizing o with
  | zero => exact ⟨.of_eq rfl rfl, h⟩
  | succ n ih =>
    have hs := consPutc_space_kept dev h
    have hn := ih hs.pos
    exact ⟨hs.onScreen.trans hn.onScreen, hn.pos⟩

/-- **One character** with the position on the screen. -/
theorem cgaPutc_kept (c : Word) {o : Out} (h : o.crtPos.toNat < CRT_SIZE) : Kept o (cgaPutc dev c o) := by
  by_cases ht : low (withAttr c) = chr '\t'
  · have hs := spaces_kept dev 5 h
    rw [cgaPutc_tab dev ht]
    exact scroll_cursor_kept hs.onScreen (Nat.lt_add_right _ hs.pos)
  · exact cgaPutc_plain_kept dev ht h

theorem safeRun_of_pos (cs : List Word) {o : Out} (h : o.crtPos.toNat < CRT_SIZE) : SafeRun dev cs o := by
  induction cs generalizing o with
  | nil => trivial
  | cons c cs ih =>
    have hk := cgaPutc_kept dev c h
    exact ⟨⟨hk.onScreen.writes, hk.pos⟩, ih hk.pos⟩

/-! ## From a position behind the end -/

/-- the log of o' goes on from that of o -/
abbrev Grows (o o' : Out) : Prop := o.ram.Touched (fun _ => True) o'.ram

theorem OnScreen.grows {o o' : Out} (h : OnScreen o o') : Grows o o' := h.touched.mono fun _ _ => trivial

theorem cgaWrite_grows (c : Word) (o : Out) : Grows o (cgaWrite c o) := by
  unfold cgaWrite
  split_ifs
  · exact Ram.touched_stores _ _ fun _ _ => trivial
  · exact .refl _ _
  · exact .refl _ _
  · exact .refl _ _
  · exact Ram.touched_stores _ _ fun _ _ => trivial

theorem scroll_cursor_grows (o : Out) : Grows o (cgaCursor (cgaScroll o)) := (cgaScroll_onScreen o).grows

/-- a space is written to the screen memory first of all -/
theorem consPutc_space_written (o : Out) : ∃ reads ports,
    Grows (cgaWrite (withAttr (uchar (chr ' '))) { o with reads := reads, ports := ports })
      (consPutc dev (uchar (chr ' ')) o) := by
  obtain ⟨reads, ports, hcga⟩ := consPutc_cga dev (uchar (chr ' ')) o
  refine ⟨reads, ports, ?_⟩
  rw [hcga, cgaPutc_plain dev (by decide)]
  exact scroll_cursor_grows _

theorem consPutc_space_grows (o : Out) : Grows o (consPutc dev (uchar (chr ' ')) o) := by
  obtain ⟨reads, ports, h⟩ := consPutc_space_written dev o
  exact (cgaWrite_grows _ { o with reads := reads, ports := ports }).trans h

theorem spaces_grow (n : ℕ) (o : Out) : Grows o ((consPutc dev (uchar (chr ' ')))^[n] o) := by
  induction n generalizing o with
  | zero => exact .refl _ _
  | succ n ih => exact (consPutc_space_grows dev o).trans (ih _)

/-- a store behind the end is no store to a cell, whatever comes after it -/
theorem setCell_escapes {o o' : Out} {i : ℕ} (hi : CRT_SIZE ≤ i) (hlt : i < 2 ^ 16) {v : BitVec 16}
    (h : Grows (o.setCell i v) o') : ¬ WritesCells o o' := by
  rintro ⟨l, hl, hin⟩
  obtain ⟨l', hl', -⟩ := h
  have hroom : o.disp.crtBuf.toNat + 2 * 2 ^ 16 ≤ 2 ^ 32 := by
    rcases o.disp.wired with hw | hw <;> rw [hw.2] <;> decide
  have hlog := Ram.stores_log (o.disp.crtBuf + BitVec.ofNat 32 (2 * i)) [v.truncate 8, (v >>> 8).truncate 8] o.ram
  rw [hl, Out.setCell, Ram.st16, hlog, ← List.append_assoc] at hl'
  have hmem : Access.wr (o.disp.crtBuf + BitVec.ofNat 32 (2 * i)) ∈ l := by
    rw [List.append_cancel_right hl']
    refine List.mem_append_right _ (List.mem_reverse.2 (List.mem_map.2 ⟨0, by simp, ?_⟩))
    rw [Ram.off_zero]
  obtain ⟨j, hj, he⟩ := hin _ hmem
  have hji := Ram.off_inj (by omega) (by omega) he
  omega

/-- the characters that bring a position behind the end back to the screen -/
def Recovers (pos : BitVec 16) (c : Word) : Prop :=
  low c = chr '\x08' ∧ pos.toNat = CRT_SIZE ∨ low c = chr '\r' ∧ pos.toNat < CRT_SIZE + CRT_COLS ∨
    low c = chr '\n' ∧ 2 ^ 16 ≤ pos.toNat + CRT_COLS

/-- a character that is written at the position -/
theorem printed_escapes {c : Word} {o o' : Out} (hpos : CRT_SIZE ≤ o.crtPos.toNat) (hb : low c ≠ chr '\x08')
    (hn : low c ≠ chr '\n') (hr : low c ≠ chr '\r') (h : Grows (cgaWrite c o) o') : ¬ WritesCells o o' := by
  rw [cgaWrite, if_neg hb, if_neg hn, if_neg hr] at h
  exact setCell_escapes hpos o.crtPos.isLt h

/-- the row start of a position behind the end is on the screen after one scroll only if it is row 25 -/
theorem rowStart_recovers {o : Out} (hpos : CRT_SIZE ≤ o.crtPos.toNat) :
    SafeCall o (cgaCursor (cgaScroll o.rowStart)) ↔ o.crtPos.toNat < CRT_SIZE + CRT_COLS := by
  have hrow := rowStart_pos o
  have hge : CRT_SIZE ≤ o.rowStart.crtPos.toNat := by
    rw [CRT_SIZE_eq] at hpos ⊢
    rw [hrow, CRT_COLS_eq]
    omega
  have hscroll := cgaScroll_pos hge
  have hon : OnScreen o (cgaCursor (cgaScroll o.rowStart)) := by
    have hs := cgaScroll_onScreen o.rowStart
    exact ⟨hs.disp, hs.touched⟩
  have hcursor : (cgaCursor (cgaScroll o.rowStart)).crtPos = (cgaScroll o.rowStart).crtPos := rfl
  rw [SafeCall, hcursor, hscroll, hrow, and_iff_right hon.writes]
  rw [CRT_SIZE_eq] at hpos ⊢
  rw [CRT_COLS_eq]
  omega

/-- '\n' from a position behind the end is safe only if the position wraps to the first row -/
theorem newline_recovers {o : Out} (hpos : CRT_SIZE ≤ o.crtPos.toNat) :
    SafeCall o (cgaCursor (cgaScroll ({ o with crtPos := o.crtPos + BitVec.ofNat 16 CRT_COLS } : Out).rowStart)) ↔
      2 ^ 16 ≤ o.crtPos.toNat + CRT_COLS := by
  rcases Nat.lt_or_ge (o.crtPos.toNat + CRT_COLS) (2 ^ 16) with hlt | hge
  · refine iff_of_false ?_ (Nat.not_le.2 hlt)
    have hadd : (o.crtPos + BitVec.ofNat 16 CRT_COLS).toNat = o.crtPos.toNat + CRT_COLS := Ram.toNat_off hlt
    have h := rowStart_recovers (o := { o with crtPos := o.crtPos + BitVec.ofNat 16 CRT_COLS })
      (by simp only [hadd]; omega)
    simp only [hadd] at h
    intro hsafe
    have := h.1 hsafe
    omega
  · refine iff_of_true ?_ hge
    have hadd : (o.crtPos + BitVec.ofNat 16 CRT_COLS).toNat = o.crtPos.toNat + CRT_COLS - 2 ^ 16 := by
      rw [CRT_COLS_eq] at hge ⊢
      bv_omega
    have hzero : ({ o with crtPos := o.crtPos + BitVec.ofNat 16 CRT_COLS } : Out).rowStart.crtPos.toNat = 0 := by
      have := o.crtPos.isLt
      rw [rowStart_pos]
      simp only [hadd]
      rw [CRT_COLS_eq]
      omega
    have hstart : OnScreen o ({ o with crtPos := o.crtPos + BitVec.ofNat 16 CRT_COLS } : Out).rowStart := .of_eq rfl rfl
    have hk := scroll_cursor_kept hstart (hzero.trans_lt (show 0 < CRT_SIZE + CRT_COLS by decide))
    exact ⟨hk.onScreen.writes, hk.pos⟩

/-- '\b' steps back before it writes -/
theorem backspace_recovers {c : Word} (hb : low c = chr '\x08') {o : Out} (hpos : CRT_SIZE ≤ o.crtPos.toNat) :
    SafeCall o (cgaCursor (cgaScroll (cgaWrite c o))) ↔ o.crtPos.toNat = CRT_SIZE := by
  have h0 : 0 < o.crtPos := BitVec.lt_def.2 (by rw [CRT_SIZE_eq] at hpos; exact (Nat.succ_pos 1999).trans_le hpos)
  have hpre : (o.crtPos - 1).toNat = o.crtPos.toNat - 1 := by bv_omega
  rw [cgaWrite, if_pos hb, if_pos h0]
  constructor
  · rintro ⟨hw, -⟩
    by_contra hne
    have hs := cgaScroll_onScreen (({ o with crtPos := o.crtPos - 1 } : Out).setCell (o.crtPos - 1).toNat
      ((c &&& ~~~0xFF ||| (uchar (chr ' '))).truncate 16))
    refine setCell_escapes (o := { o with crtPos := o.crtPos - 1 }) (by omega) (o.crtPos - 1).isLt hs.grows ?_
    exact hw
  · intro he
    have hlt : (o.crtPos - 1).toNat < CRT_SIZE := by
      rw [hpre, he, CRT_SIZE_eq]
      decide
    have hs := setCell_onScreen hlt ((c &&& ~~~0xFF ||| (uchar (chr ' '))).truncate 16) { o with crtPos := o.crtPos - 1 }
    have hk := scroll_cursor_kept (o := o) ⟨hs.disp, hs.touched⟩ (Nat.lt_add_right _ hlt)
    exact ⟨hk.onScreen.writes, hk.pos⟩

/-- '\t': the first of the five spaces is written behind the end -/
theorem tab_escapes {c : Word} (ht : low (withAttr c) = chr '\t') {o : Out} (hpos : CRT_SIZE ≤ o.crtPos.toNat) :
    ¬ WritesCells o (cgaPutc dev c o) := by
  obtain ⟨reads, ports, hfirst⟩ := consPutc_space_written dev o
  have hspaces : Grows (consPutc dev (uchar (chr ' ')) o) (fiveSpaces dev o) := spaces_grow dev 4 _
  have hend : Grows (fiveSpaces dev o) (cgaPutc dev c o) := by
    rw [cgaPutc_tab dev ht]
    exact scroll_cursor_grows _
  exact printed_escapes (o := { o with reads := reads, ports := ports }) hpos (by decide) (by decide) (by decide)
    ((hfirst.trans hspaces).trans hend)

/-- **One character** with the position behind the end. -/
theorem cgaPutc_recovers_iff (c : Word) {o : Out} (hpos : CRT_SIZE ≤ o.crtPos.toNat) :
    SafeCall o (cgaPutc dev c o) ↔ Recovers o.crtPos c := by
  have hlow := withAttr_low c
  by_cases ht : low (withAttr c) = chr '\t'
  · refine iff_of_false (fun h => tab_escapes dev ht hpos h.1) ?_
    rw [hlow] at ht
    rw [Recovers, ht]
    simp [show chr '\t' ≠ chr '\x08' by decide, show chr '\t' ≠ chr '\r' by decide, show chr '\t' ≠ chr '\n' by decide]
  rw [cgaPutc_plain dev ht, Recovers]
  rw [hlow] at ht
  by_cases hb : low c = chr '\x08'
  · rw [backspace_recovers (hlow.trans hb) hpos, hb]
    simp [show chr '\x08' ≠ chr '\r' by decide, show chr '\x08' ≠ chr '\n' by decide]
  by_cases hn : low c = chr '\n'
  · rw [cgaWrite, hlow, if_neg hb, if_pos hn, newline_recovers hpos, hn]
    simp [show chr '\n' ≠ chr '\x08' by decide, show chr '\n' ≠ chr '\r' by decide]
  by_cases hr : low c = chr '\r'
  · rw [cgaWrite, hlow, if_neg hb, if_neg hn, if_pos hr, rowStart_recovers hpos, hr]
    simp [show chr '\r' ≠ chr '\x08' by decide, show chr '\r' ≠ chr '\n' by decide]
  · refine iff_of_false ?_ (by simp [hb, hn, hr])
    rintro ⟨hw, -⟩
    exact printed_escapes hpos (by rwa [hlow]) (by rwa [hlow]) (by rwa [hlow]) (scroll_cursor_grows _) hw

/-! ## Every run -/

/-- **The screen after cga_init.** For all bytes of the two registers and every sequence of characters, no write of
cga_putc leaves the screen and the position is on it after each call, exactly if the position that was read is on the
screen, or the first character brings it back. -/
theorem cga_init_safe_iff (back : BitVec 16) (r : Ram 32) (ports : List (ℕ × Byte)) (reads : ℕ) (cs : List Word) :
    SafeRun dev cs (cgaInit dev back r ports reads) ↔
      (cursorRead dev back reads).toNat < CRT_SIZE ∨ ∀ c ∈ cs.head?, Recovers (cursorRead dev back reads) c := by
  rw [← cgaInit_pos dev back r ports reads]
  rcases Nat.lt_or_ge (cgaInit dev back r ports reads).crtPos.toNat CRT_SIZE with hpos | hpos
  · exact iff_of_true (safeRun_of_pos dev cs hpos) (Or.inl hpos)
  · rw [or_iff_right (Nat.not_lt.2 hpos)]
    cases cs with
    | nil => simp [SafeRun]
    | cons c cs =>
      rw [SafeRun, cgaPutc_recovers_iff dev c hpos]
      constructor
      · rintro ⟨hc, -⟩ c' hc'
        cases hc'
        exact hc
      · intro h
        have hc : Recovers (cgaInit dev back r ports reads).crtPos c := h c rfl
        exact ⟨hc, safeRun_of_pos dev cs ((cgaPutc_recovers_iff dev c hpos).2 hc).2⟩

end Runs

/-- **A cursor that the hardware reports as all ones.** The first character is written far behind the screen. -/
theorem cga_init_unsafe :
    ¬ SafeRun (fun _ _ => 0xFF) [uchar (chr 'a')] (cgaInit (fun _ _ => 0xFF) 0xA55A bootOut.ram [] 0) := by
  intro h
  have hpos : (cgaInit (fun _ _ => 0xFF) 0xA55A bootOut.ram [] 0).crtPos = 0xFFFF := by
    rw [cgaInit_pos]
    decide
  have hc := (cgaPutc_recovers_iff (fun _ _ => 0xFF) (uchar (chr 'a')) (by rw [hpos]; decide)).1 h.1
  rw [hpos] at hc
  exact absurd hc (by unfold Recovers; decide)

end Jos.Console
