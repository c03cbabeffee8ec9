/-
The screen memory, cell by cell.

`Out.cell o j` is `crt_buf[j]`. Each part of `cga_putc` is described by the cells it leaves, and accesses nothing but the
CRT_SIZE cells as long as the position is below CRT_SIZE.
-/
import Jos.Console.Output

namespace Jos.Console

/-! ## Cells -/

/-- `crt_buf[j]` -/
def Out.cell (o : Out) (j : ℕ) : BitVec 16 := o.ram.half (o.disp.crtBuf + BitVec.ofNat 32 (2 * j))

/-- the addresses of the cells -/
def Display.InScreen (d : Display) (a : Word) : Prop := ∃ i < 2 * CRT_SIZE, a = d.crtBuf + BitVec.ofNat 32 i

/-- between o and o' only the cells are accessed, on the same display -/
structure OnScreen (o o' : Out) : Prop where
  disp : o'.disp = o.disp
  touched : o.ram.Touched o.disp.InScreen o'.ram

theorem OnScreen.of_eq {o o' : Out} (hd : o'.disp = o.disp) (hr : o'.ram = o.ram) : OnScreen o o' :=
  ⟨hd, hr ▸ .refl _ _⟩

theorem OnScreen.trans {o₁ o₂ o₃ : Out} (h : OnScreen o₁ o₂) (h' : OnScreen o₂ o₃) : OnScreen o₁ o₃ := by
  refine ⟨h'.disp.trans h.disp, h.touched.trans ?_⟩
  rw [← h.disp]
  exact h'.touched

theorem CRT_SIZE_eq : CRT_SIZE = 2000 := rfl

theorem CRT_COLS_eq : CRT_COLS = 80 := rfl

theorem Display.fits (d : Display) : d.crtBuf.toNat + 2 * CRT_SIZE ≤ 2 ^ 32 := by
  rcases d.wired with h | h <;> rw [h.2] <;> decide

/-- distinct bytes of the screen have distinct addresses -/
theorem Display.addr_inj (d : Display) {i j : ℕ} (hi : i < 2 * CRT_SIZE) (hj : j < 2 * CRT_SIZE)
    (h : d.crtBuf + BitVec.ofNat 32 i = d.crtBuf + BitVec.ofNat 32 j) : i = j :=
  Ram.off_inj (by have := d.fits; omega) (by have := d.fits; omega) h

/-- the cells do not depend on the position -/
theorem cell_with_crtPos (o : Out) (pos : BitVec 16) (j : ℕ) : ({ o with crtPos := pos } : Out).cell j = o.cell j := rfl

theorem onScreen_with_crtPos {o o' : Out} (h : OnScreen o o') (pos : BitVec 16) : OnScreen o { o' with crtPos := pos } :=
  ⟨h.disp, h.touched⟩

theorem cell_setCell {i j : ℕ} (hi : i < CRT_SIZE) (hj : j < CRT_SIZE) (v : BitVec 16) (o : Out) :
    (o.setCell i v).cell j = if j = i then v else o.cell j := by
  have hfit := o.disp.fits
  split_ifs with h
  · rw [h]
    exact Ram.half_st16_same (by rw [Ram.toNat_off (by omega)]; omega) _ _
  · refine Ram.half_congr fun t ht => Ram.stores_outside _ _ fun u hu he => ?_
    simp only [List.length_cons, List.length_nil] at hu
    rw [Ram.off_off, Ram.off_off] at he
    have := o.disp.addr_inj (by omega) (by omega) he
    omega

theorem setCell_onScreen {i : ℕ} (hi : i < CRT_SIZE) (v : BitVec 16) (o : Out) : OnScreen o (o.setCell i v) := by
  refine ⟨rfl, Ram.touched_stores _ _ fun t ht => ⟨2 * i + t, ?_, Ram.off_off _ _ _⟩⟩
  simp only [List.length_cons, List.length_nil] at ht
  omega

theorem cell_fillBlank {i n j : ℕ} (hn : i + n ≤ CRT_SIZE) (hj : j < CRT_SIZE) (o : Out) :
    (fillBlank i n o).cell j = if i ≤ j ∧ j < i + n then 0x0720 else o.cell j := by
  induction n generalizing i o with
  | zero => rw [if_neg (by omega)]; rfl
  | succ n ih =>
    rw [fillBlank, ih (by omega), cell_setCell (by omega) hj]
    split_ifs <;> first | rfl | omega

theorem fillBlank_onScreen {i n : ℕ} (hn : i + n ≤ CRT_SIZE) (o : Out) : OnScreen o (fillBlank i n o) := by
  induction n generalizing i o with
  | zero => exact .of_eq rfl rfl
  | succ n ih => exact (setCell_onScreen (by omega) _ o).trans (ih (by omega) _)

/-! ## Scrolling -/

/-- the memory after the memmove of a scroll -/
def Out.moveUp (o : Out) : Out :=
  { o with
    ram := memmove o.disp.crtBuf (o.disp.crtBuf + BitVec.ofNat 32 (2 * CRT_COLS))
      (BitVec.ofNat 32 ((CRT_SIZE - CRT_COLS) * 2)) o.ram }

theorem moveUp_moved (o : Out) : Moved o.ram o.moveUp.ram o.disp.crtBuf
    (o.disp.crtBuf + BitVec.ofNat 32 (2 * CRT_COLS)) 0 (2 * (CRT_SIZE - CRT_COLS)) := by
  have hfit := o.disp.fits
  rw [CRT_SIZE_eq] at hfit
  have hs : (o.disp.crtBuf + BitVec.ofNat 32 (2 * CRT_COLS)).toNat = o.disp.crtBuf.toNat + 160 :=
    Ram.toNat_off (by rw [CRT_COLS_eq]; omega)
  have hn : (BitVec.ofNat 32 ((CRT_SIZE - CRT_COLS) * 2)).toNat = 3840 := by decide
  exact memmove_moved o.ram (by rw [hn]; omega) (by rw [hn, hs]; omega)

theorem cell_moveUp {j : ℕ} (hj : j < CRT_SIZE - CRT_COLS) (o : Out) : o.moveUp.cell j = o.cell (j + CRT_COLS) := by
  have byte : ∀ t < 2, o.moveUp.ram.byte (o.disp.crtBuf + BitVec.ofNat 32 (2 * j + t)) =
      o.ram.byte (o.disp.crtBuf + BitVec.ofNat 32 (2 * (j + CRT_COLS) + t)) := by
    intro t ht
    rw [(moveUp_moved o).copied _ (Nat.zero_le _) (by omega), Ram.off_off]
    congr 3
    omega
  have h0 := byte 0 (by omega)
  have h1 := byte 1 (by omega)
  rw [Nat.add_zero, Nat.add_zero] at h0
  rw [← Ram.off_off, ← Ram.off_off] at h1
  rw [Out.cell, Out.cell, Ram.half, Ram.half, ← h0, ← h1]
  rfl

theorem moveUp_onScreen (o : Out) : OnScreen o o.moveUp := by
  refine ⟨rfl, (moveUp_moved o).touched.mono ?_⟩
  rw [CRT_SIZE_eq, CRT_COLS_eq]
  rintro x ⟨i, -, hi, rfl | rfl⟩
  · exact ⟨i, by rw [CRT_SIZE_eq]; omega, rfl⟩
  · exact ⟨160 + i, by rw [CRT_SIZE_eq]; omega, Ram.off_off _ _ _⟩

theorem cgaScroll_eq (o : Out) : cgaScroll o =
    if CRT_SIZE ≤ o.crtPos.toNat then
      { fillBlank (CRT_SIZE - CRT_COLS) CRT_COLS o.moveUp with crtPos := o.crtPos - BitVec.ofNat 16 CRT_COLS }
    else o := by
  unfold cgaScroll
  split_ifs
  · simp only [fillBlank_crtPos]; rfl
  · rfl

/-- a scroll takes the position back by a row -/
theorem cgaScroll_pos {o : Out} (h : CRT_SIZE ≤ o.crtPos.toNat) :
    (cgaScroll o).crtPos.toNat = o.crtPos.toNat - CRT_COLS := by
  rw [cgaScroll_eq, if_pos h, CRT_COLS_eq]
  rw [CRT_SIZE_eq] at h
  show (o.crtPos - 80#16).toNat = _
  bv_omega

/-- a scroll moves every cell up by a row and blanks the last row -/
theorem cell_cgaScroll {o : Out} (h : CRT_SIZE ≤ o.crtPos.toNat) {j : ℕ} (hj : j < CRT_SIZE) :
    (cgaScroll o).cell j = if j < CRT_SIZE - CRT_COLS then o.cell (j + CRT_COLS) else 0x0720 := by
  have hsum : CRT_SIZE - CRT_COLS + CRT_COLS ≤ CRT_SIZE := by decide
  rw [cgaScroll_eq, if_pos h]
  rw [cell_with_crtPos, cell_fillBlank hsum hj]
  split_ifs
  · omega
  · rfl
  · exact cell_moveUp (by omega) o
  · omega

theorem cgaScroll_onScreen (o : Out) : OnScreen o (cgaScroll o) := by
  rw [cgaScroll_eq]
  split_ifs
  · have hsum : CRT_SIZE - CRT_COLS + CRT_COLS ≤ CRT_SIZE := by decide
    exact onScreen_with_crtPos ((moveUp_onScreen o).trans (fillBlank_onScreen hsum o.moveUp)) _
  · exact .of_eq rfl rfl

/-! ## Writing -/

theorem rowStart_pos (o : Out) : o.rowStart.crtPos.toNat = o.crtPos.toNat / CRT_COLS * CRT_COLS := by
  have hm : (o.crtPos % BitVec.ofNat 16 CRT_COLS).toNat = o.crtPos.toNat % 80 := BitVec.toNat_umod
  rw [Out.rowStart, BitVec.toNat_sub_of_le (by rw [BitVec.le_def, hm]; omega), hm, CRT_COLS_eq]
  omega

/-- '\n': the start of the next row -/
theorem newline_pos {o : Out} (h : o.crtPos.toNat + CRT_COLS < 2 ^ 16) :
    ({ o with crtPos := o.crtPos + BitVec.ofNat 16 CRT_COLS } : Out).rowStart.crtPos.toNat =
      (o.crtPos.toNat / CRT_COLS + 1) * CRT_COLS := by
  have hadd : (o.crtPos + BitVec.ofNat 16 CRT_COLS).toNat = o.crtPos.toNat + 80 := Ram.toNat_off h
  rw [rowStart_pos, hadd, CRT_COLS_eq]
  omega

theorem cgaWrite_onScreen (c : Word) {o : Out} (h : o.crtPos.toNat < CRT_SIZE) : OnScreen o (cgaWrite c o) := by
  unfold cgaWrite
  split_ifs with h1 h2
  · have hp : (o.crtPos - 1).toNat < CRT_SIZE := by rw [CRT_SIZE_eq] at h ⊢; bv_omega
    have hs := setCell_onScreen hp ((c &&& ~~~0xFF ||| (uchar (chr ' '))).truncate 16) { o with crtPos := o.crtPos - 1 }
    exact ⟨hs.disp, hs.touched⟩
  · exact .of_eq rfl rfl
  · exact .of_eq rfl rfl
  · exact .of_eq rfl rfl
  · exact onScreen_with_crtPos (setCell_onScreen h _ o) _

end Jos.Console
