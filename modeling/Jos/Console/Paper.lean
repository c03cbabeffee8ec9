/-
The screen is a window on an unbounded terminal.

`Paper` is an infinite array of cells, 80 to a row, with a cursor that edits it by the plain rules. `Shows k o p` says
that the screen is the window of 25 rows that starts at row k.

- `cgaWrite_near`, `cgaScroll_shows`: the write takes the window at most one row past its end, the scroll moves it on.
- `cgaPutc_step`: one character, tabs included.
- **`cga_shows_paper`**: every run.
-/
import Jos.Console.Screen

namespace Jos.Console

/-! ## The terminal -/

structure Paper where
  cell : ℕ → BitVec 16
  cursor : ℕ

def blank : BitVec 16 := 0x0720

namespace Paper

/-- a character in black on white at the cursor -/
def print (c : Byte) (p : Paper) : Paper :=
  ⟨Function.update p.cell p.cursor (0x0700 ||| c.zeroExtend 16), p.cursor + 1⟩

def put (c : Byte) (p : Paper) : Paper :=
  if c = chr '\x08' then ⟨Function.update p.cell (p.cursor - 1) blank, p.cursor - 1⟩
  else if c = chr '\n' then { p with cursor := (p.cursor / CRT_COLS + 1) * CRT_COLS }
  else if c = chr '\r' then { p with cursor := p.cursor / CRT_COLS * CRT_COLS }
  else if c = chr '\t' then (print (chr ' '))^[5] p
  else print c p

def write (cs : List Byte) (p : Paper) : Paper := cs.foldl (fun p c => p.put c) p

end Paper

/-- the terminal at a given moment: the screen, and blank cells beyond it -/
def Out.paper (o : Out) : Paper := ⟨fun i => if i < CRT_SIZE then o.cell i else blank, o.crtPos.toNat⟩

/-! ## The window -/

/-- the cells are the paper from row k on, and the position below `lim` is the cursor -/
structure Near (lim k : ℕ) (o : Out) (p : Paper) : Prop where
  pos : o.crtPos.toNat < lim
  cells : ∀ j < CRT_SIZE, o.cell j = p.cell (CRT_COLS * k + j)
  cursor : CRT_COLS * k + o.crtPos.toNat = p.cursor
  fresh : ∀ i, CRT_COLS * k + CRT_SIZE ≤ i → p.cell i = blank

/-- the screen shows the paper from row k on -/
abbrev Shows (k : ℕ) (o : Out) (p : Paper) : Prop := Near CRT_SIZE k o p

theorem shows_paper {o : Out} (h : o.crtPos.toNat < CRT_SIZE) : Shows 0 o o.paper where
  pos := h
  cells j hj := by rw [Nat.mul_zero, Nat.zero_add, Out.paper]; exact (if_pos hj).symm
  cursor := by rw [Nat.mul_zero, Nat.zero_add]; rfl
  fresh i hi := if_neg (by omega)

/-- only the screen memory and the position matter -/
theorem Near.congr {lim k : ℕ} {o o' : Out} {p : Paper} (h : Near lim k o p) (hd : o'.disp = o.disp)
    (hr : o'.ram = o.ram) (hp : o'.crtPos = o.crtPos) : Near lim k o' p where
  pos := by rw [hp]; exact h.pos
  cells j hj := by rw [Out.cell, hd, hr]; exact h.cells j hj
  cursor := by rw [hp]; exact h.cursor
  fresh := h.fresh

/-- a store at the cursor of both -/
theorem Near.store {lim k i : ℕ} {o : Out} {p : Paper} (h : Near lim k o p) (hi : i < CRT_SIZE) (v : BitVec 16)
    {pos : BitVec 16} {lim' : ℕ} (hpos : pos.toNat < lim') :
    Near lim' k { o.setCell i v with crtPos := pos }
      ⟨Function.update p.cell (CRT_COLS * k + i) v, CRT_COLS * k + pos.toNat⟩ where
  pos := hpos
  cells j hj := by
    rw [cell_with_crtPos, cell_setCell hi hj]
    split_ifs with hji
    · rw [hji]; exact (Function.update_self (CRT_COLS * k + i) v p.cell).symm
    · rw [h.cells j hj]
      have hne : CRT_COLS * k + j ≠ CRT_COLS * k + i := by omega
      exact (Function.update_of_ne hne v p.cell).symm
  cursor := rfl
  fresh j hj := by
    have hne : j ≠ CRT_COLS * k + i := by omega
    exact (Function.update_of_ne hne v p.cell).trans (h.fresh j hj)

/-- the cell of a character without attribute -/
theorem withAttr_cell (c : Byte) : (withAttr (uchar c)).truncate 16 = 0x0700 ||| c.zeroExtend 16 := by
  revert c; decide

/-- **The write.** The position may pass the end of the screen by at most a row. -/
theorem cgaWrite_near {k : ℕ} {o : Out} {p : Paper} (h : Shows k o p) {c : Byte} (ht : c ≠ chr '\t')
    (hb : c = chr '\x08' → 0 < o.crtPos) :
    Near (CRT_SIZE + CRT_COLS) k (cgaWrite (withAttr (uchar c)) o) (p.put c) := by
  have hpos := h.pos
  have hcur := h.cursor
  unfold cgaWrite Paper.put
  rw [withAttr_low, low_uchar]
  split_ifs with h1 h2 h3 h4
  · -- '\b' steps back and blanks the cell
    have hpre : (o.crtPos - 1).toNat = o.crtPos.toNat - 1 := by bv_omega
    have h0 : 0 < o.crtPos.toNat := h2
    have hc : p.cursor - 1 = CRT_COLS * k + (o.crtPos - 1).toNat := by omega
    rw [h1, show ((withAttr (uchar (chr '\x08')) &&& ~~~0xFF ||| (uchar (chr ' '))).truncate 16) = blank by decide, hc]
    have hlt : (o.crtPos - 1).toNat < CRT_SIZE := by omega
    exact h.store hlt blank (Nat.lt_add_right _ hlt)
  · exact absurd (hb h1) h2
  · -- '\n'
    rw [CRT_SIZE_eq] at hpos
    have hrow := newline_pos (o := o) (by rw [CRT_COLS_eq]; omega)
    refine ⟨?_, h.cells, ?_, h.fresh⟩
    · rw [hrow, CRT_SIZE_eq, CRT_COLS_eq]; omega
    · show _ = (p.cursor / CRT_COLS + 1) * CRT_COLS
      rw [hrow, ← hcur, CRT_COLS_eq]; omega
  · -- '\r'
    have hrow := rowStart_pos o
    refine ⟨?_, h.cells, ?_, h.fresh⟩
    · rw [hrow, CRT_COLS_eq]; omega
    · show _ = p.cursor / CRT_COLS * CRT_COLS
      rw [hrow, ← hcur, CRT_COLS_eq]; omega
  · rw [CRT_SIZE_eq] at hpos
    have hnext : (o.crtPos + 1).toNat = o.crtPos.toNat + 1 := by bv_omega
    rw [withAttr_cell, Paper.print, ← hcur, Nat.add_assoc, ← hnext]
    exact h.store h.pos _ (by rw [hnext, CRT_SIZE_eq, CRT_COLS_eq]; omega)

/-- **The scroll.** -/
theorem cgaScroll_shows {k : ℕ} {o : Out} {p : Paper} (h : Near (CRT_SIZE + CRT_COLS) k o p) :
    ∃ k', k ≤ k' ∧ Shows k' (cgaScroll o) p := by
  rcases lt_or_ge o.crtPos.toNat CRT_SIZE with hp | hp
  · exact ⟨k, le_refl k, by rw [cgaScroll_eq, if_neg (by omega)]; exact ⟨hp, h.cells, h.cursor, h.fresh⟩⟩
  · have hpos := h.pos
    have hcur := h.cursor
    have hsub := cgaScroll_pos hp
    refine ⟨k + 1, Nat.le_succ k, ?_, fun j hj => ?_, ?_, fun i hi => h.fresh i ?_⟩
    · rw [CRT_SIZE_eq] at *; rw [hsub, CRT_COLS_eq] at *; omega
    · rw [cell_cgaScroll hp hj]
      split_ifs with hlt
      · rw [h.cells _ (by omega)]
        congr 1
        rw [Nat.mul_succ]; omega
      · exact (h.fresh _ (by rw [Nat.mul_succ]; omega)).symm
    · rw [hsub, Nat.mul_succ]; rw [CRT_SIZE_eq] at hp; rw [CRT_COLS_eq] at *; omega
    · rw [Nat.mul_succ] at hi; omega

/-! ## The cursor registers -/

/-- the index register of a 6845 at addr, by a log of port writes -/
def crtcIndex (addr : ℕ) : List (ℕ × Byte) → Byte
  | [] => 0
  | (port, b) :: l => if port = addr then b else crtcIndex addr l

/-- the last value written to register r -/
def crtcReg (addr : ℕ) (r : Byte) : List (ℕ × Byte) → Option Byte
  | [] => none
  | (port, b) :: l => if port = addr + 1 ∧ crtcIndex addr l = r then some b else crtcReg addr r l

/-- registers 14 and 15 hold the two bytes of the position -/
def Out.CursorSet (o : Out) : Prop :=
  crtcReg o.disp.addr6845 14 o.ports = some ((o.crtPos >>> 8).truncate 8) ∧
    crtcReg o.disp.addr6845 15 o.ports = some (o.crtPos.truncate 8)

theorem cgaCursor_set (o : Out) : (cgaCursor o).CursorSet := by
  constructor <;> simp [cgaCursor, outb, crtcReg, crtcIndex]

section Run

variable (dev : ℕ → ℕ → Byte)

theorem cgaPutc_cursorSet (c : Word) (o : Out) : (cgaPutc dev c o).CursorSet := by
  by_cases h : low (withAttr c) = chr '\t'
  · rw [cgaPutc_tab dev h]; exact cgaCursor_set _
  · rw [cgaPutc_plain dev h]; exact cgaCursor_set _

/-! ## One character -/

/-- a step from o to o' after which the screen shows p', further down the paper -/
structure Step (k : ℕ) (o o' : Out) (p' : Paper) : Prop where
  shows : ∃ k', k ≤ k' ∧ Shows k' o' p'
  onScreen : OnScreen o o'

/-! the cursor registers are no part of the screen -/

theorem Shows.cgaCursor {k : ℕ} {o : Out} {p : Paper} (h : Shows k o p) : Shows k (cgaCursor o) p := h.congr rfl rfl rfl

theorem cgaCursor_onScreen (o : Out) : OnScreen o (cgaCursor o) := .of_eq rfl rfl

/-- the end of cga_putc, after a write that stays on the screen -/
theorem cgaScroll_step {k : ℕ} {o o' : Out} {p : Paper} (h : Near (CRT_SIZE + CRT_COLS) k o' p) (ho : OnScreen o o') :
    Step k o (cgaCursor (cgaScroll o')) p := by
  obtain ⟨k', hk, hs⟩ := cgaScroll_shows h
  exact ⟨⟨k', hk, hs.cgaCursor⟩, (ho.trans (cgaScroll_onScreen o')).trans (cgaCursor_onScreen _)⟩

theorem cgaPutc_plain_step {k : ℕ} {o : Out} {p : Paper} (h : Shows k o p) {c : Byte} (ht : c ≠ chr '\t')
    (hb : c = chr '\x08' → 0 < o.crtPos) : Step k o (cgaPutc dev (uchar c) o) (p.put c) := by
  rw [cgaPutc_plain dev (by rwa [withAttr_low, low_uchar])]
  exact cgaScroll_step (cgaWrite_near h ht hb) (cgaWrite_onScreen _ h.pos)

/-- the other drivers of cons_putc leave the screen alone -/
theorem consPutc_space_step {k : ℕ} {o : Out} {p : Paper} (h : Shows k o p) :
    Step k o (consPutc dev (uchar (chr ' ')) o) (p.print (chr ' ')) := by
  obtain ⟨reads, ports, hcga⟩ := consPutc_cga dev (uchar (chr ' ')) o
  have ho : Shows k { o with reads := reads, ports := ports } p := h.congr rfl rfl rfl
  have hs := cgaPutc_plain_step dev ho (show chr ' ' ≠ chr '\t' by decide) (fun hc => absurd hc (by decide))
  rw [hcga]
  exact ⟨hs.shows, ⟨hs.onScreen.disp, hs.onScreen.touched⟩⟩

theorem spaces_step (n : ℕ) {k : ℕ} {o : Out} {p : Paper} (h : Shows k o p) :
    Step k o ((consPutc dev (uchar (chr ' ')))^[n] o) ((Paper.print (chr ' '))^[n] p) := by
  induction n generalizing k o p with
  | zero => exact ⟨⟨k, le_refl k, h⟩, .of_eq rfl rfl⟩
  | succ n ih =>
    have hs := consPutc_space_step dev h
    obtain ⟨k₁, hk₁, hs₁⟩ := hs.shows
    have hn := ih hs₁
    obtain ⟨k₂, hk₂, hs₂⟩ := hn.shows
    exact ⟨⟨k₂, hk₁.trans hk₂, hs₂⟩, hs.onScreen.trans hn.onScreen⟩

/-- **One character.** -/
theorem cgaPutc_step {k : ℕ} {o : Out} {p : Paper} (h : Shows k o p) {c : Byte}
    (hb : c = chr '\x08' → 0 < o.crtPos) : Step k o (cgaPutc dev (uchar c) o) (p.put c) := by
  by_cases ht : c = chr '\t'
  · subst ht
    have hs := spaces_step dev 5 h
    obtain ⟨k₁, hk₁, hs₁⟩ := hs.shows
    rw [cgaPutc_tab dev (by decide)]
    have hn : Near (CRT_SIZE + CRT_COLS) k₁ _ _ := ⟨Nat.lt_add_right _ hs₁.pos, hs₁.cells, hs₁.cursor, hs₁.fresh⟩
    have hend := cgaScroll_step hn hs.onScreen
    obtain ⟨k₂, hk₂, hs₂⟩ := hend.shows
    exact ⟨⟨k₂, hk₁.trans hk₂, hs₂⟩, hend.onScreen⟩
  · exact cgaPutc_plain_step dev h ht hb

/-! ## Every run -/

/-- cga_putc for each character of a text -/
def cgaRun (cs : List Byte) (o : Out) : Out := cs.foldl (fun o c => cgaPutc dev (uchar c) o) o

/-- every backspace of the text is issued while the position is not 0 -/
def Backspaces : List Byte → Out → Prop
  | [], _ => True
  | c :: cs, o => (c = chr '\x08' → 0 < o.crtPos) ∧ Backspaces cs (cgaPutc dev (uchar c) o)

theorem cgaRun_shows {k₀ : ℕ} {o : Out} {p : Paper} (h : Shows k₀ o p) (cs : List Byte) (hb : Backspaces dev cs o) :
    ∃ k : ℕ → ℕ, k 0 = k₀ ∧ ∀ n ≤ cs.length,
      Shows (k n) (cgaRun dev (cs.take n) o) (p.write (cs.take n)) ∧ OnScreen o (cgaRun dev (cs.take n) o) ∧
        (n < cs.length → k n ≤ k (n + 1)) ∧ (0 < n → (cgaRun dev (cs.take n) o).CursorSet) := by
  induction cs generalizing k₀ o p with
  | nil =>
    refine ⟨fun _ => k₀, rfl, fun n hn => ?_⟩
    obtain rfl : n = 0 := by simpa using hn
    exact ⟨h, .of_eq rfl rfl, fun hlt => absurd hlt (by simp), fun h0 => absurd h0 (lt_irrefl 0)⟩
  | cons c cs ih =>
    have hs := cgaPutc_step dev h hb.1
    obtain ⟨k₁, hk₁, hs₁⟩ := hs.shows
    obtain ⟨k, hk0, hk⟩ := ih hs₁ hb.2
    refine ⟨fun n => n.casesOn k₀ k, rfl, fun n hn => ?_⟩
    cases n with
    | zero =>
      refine ⟨h, .of_eq rfl rfl, fun _ => ?_, fun h0 => absurd h0 (lt_irrefl 0)⟩
      show k₀ ≤ k 0
      rw [hk0]; exact hk₁
    | succ n =>
      obtain ⟨hsh, hon, hmono, hcur⟩ := hk n (by simpa using hn)
      refine ⟨hsh, hs.onScreen.trans hon, fun hlt => hmono (by simpa using hlt), fun _ => ?_⟩
      cases n with
      | zero => exact cgaPutc_cursorSet dev _ o
      | succ n => exact hcur (Nat.succ_pos n)

/-- **The terminal.** From any screen with the position on it, after each character of a text whose backspaces are
issued at a position other than 0, the screen shows the rows of the paper from some row on, which never goes back. The
position is on the screen, only cells of the screen have been accessed, and the cursor registers hold the position. -/
theorem cga_shows_paper (o : Out) (h : o.crtPos.toNat < CRT_SIZE) (cs : List Byte) (hb : Backspaces dev cs o) :
    ∃ k : ℕ → ℕ, k 0 = 0 ∧ ∀ n ≤ cs.length,
      Shows (k n) (cgaRun dev (cs.take n) o) (o.paper.write (cs.take n)) ∧ OnScreen o (cgaRun dev (cs.take n) o) ∧
        (n < cs.length → k n ≤ k (n + 1)) ∧ (0 < n → (cgaRun dev (cs.take n) o).CursorSet) :=
  cgaRun_shows dev (shows_paper h) cs hb

/-- witness: a backspace after a character -/
theorem cga_shows_paper_backspace : ∃ k : ℕ → ℕ, k 0 = 0 ∧ ∀ n ≤ 2,
    Shows (k n) (cgaRun (fun _ _ => 0xFF) ([chr 'a', chr '\x08'].take n) bootOut)
        (bootOut.paper.write ([chr 'a', chr '\x08'].take n)) ∧
      OnScreen bootOut (cgaRun (fun _ _ => 0xFF) ([chr 'a', chr '\x08'].take n) bootOut) ∧ (n < 2 → k n ≤ k (n + 1)) ∧
      (0 < n → (cgaRun (fun _ _ => 0xFF) ([chr 'a', chr '\x08'].take n) bootOut).CursorSet) :=
  cga_shows_paper _ bootOut (by decide) [chr 'a', chr '\x08']
    ⟨fun h => absurd h (by decide), fun _ => by decide +kernel, trivial⟩

end Run

end Jos.Console
