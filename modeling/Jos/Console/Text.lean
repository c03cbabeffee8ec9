/-
Text as the format of `cprintf`, and as the argument of "%s".

The literal path calls `cputchar` with the bytes of the text as unsigned chars, the %s path with signed ones, so a byte from
0x80 on arrives at `cga_putc` with its upper bits set, which count as an attribute.

`Grid` is a screen with cells of any kind. What a text does to a screen does not depend on the cells, so both paths are
images of one run on cells that say where they come from (`Grid.map`, `put_map`).

- `text_displays`: either path, as the image of that run.
- **`cprintf_text_iff`**: the two paths leave the same screen exactly when no byte from 0x80 on is left on it. Position and
  serial output are the same in any case, short of a text of 2^31 bytes. `cprintf_text_attribute`: such a byte.
-/
import Jos.Console.Screen
import Jos.Console.Fanout
import Jos.Console.Paper
import Jos.Printfmt.Cprintf
import Jos.Printfmt.Text

namespace Jos.Console

open Sink (feed)

/-! ## Screens of any cells -/

structure Grid (α : Type) where
  cell : ℕ → α
  pos : BitVec 16

namespace Grid

section Ops

variable {α β : Type} (blank : α) (print : Byte → α)

/-- the character itself, tabs apart -/
def write (b : Byte) (g : Grid α) : Grid α :=
  if b = chr '\x08' then
    if 0 < g.pos then ⟨Function.update g.cell (g.pos - 1).toNat blank, g.pos - 1⟩ else g
  else if b = chr '\n' then
    ⟨g.cell, g.pos + BitVec.ofNat 16 CRT_COLS - (g.pos + BitVec.ofNat 16 CRT_COLS) % BitVec.ofNat 16 CRT_COLS⟩
  else if b = chr '\r' then ⟨g.cell, g.pos - g.pos % BitVec.ofNat 16 CRT_COLS⟩
  else ⟨Function.update g.cell g.pos.toNat (print b), g.pos + 1⟩

def scroll (g : Grid α) : Grid α :=
  if CRT_SIZE ≤ g.pos.toNat then
    ⟨fun j => if j < CRT_SIZE - CRT_COLS then g.cell (j + CRT_COLS) else blank, g.pos - BitVec.ofNat 16 CRT_COLS⟩
  else g

def put (b : Byte) (g : Grid α) : Grid α :=
  if b = chr '\t' then scroll blank ((fun g => scroll blank (write blank print (chr ' ') g))^[5] g)
  else scroll blank (write blank print b g)

def text (s : List Byte) (g : Grid α) : Grid α := feed (put blank print) g s

def map (f : α → β) (g : Grid α) : Grid β := ⟨f ∘ g.cell, g.pos⟩

variable (f : α → β)

theorem map_mk (cell : ℕ → α) (pos : BitVec 16) : (⟨cell, pos⟩ : Grid α).map f = ⟨f ∘ cell, pos⟩ := rfl

theorem write_map (b : Byte) (g : Grid α) : (write blank print b g).map f = write (f blank) (f ∘ print) b (g.map f) := by
  unfold write
  by_cases h1 : b = chr '\x08'
  · rw [if_pos h1, if_pos h1]
    by_cases hp : 0 < g.pos
    · have hp' : 0 < (g.map f).pos := hp
      rw [if_pos hp, if_pos hp', map_mk, Function.comp_update]
      rfl
    · have hp' : ¬ 0 < (g.map f).pos := hp
      rw [if_neg hp, if_neg hp']
  rw [if_neg h1, if_neg h1]
  by_cases h2 : b = chr '\n'
  · rw [if_pos h2, if_pos h2]
    rfl
  rw [if_neg h2, if_neg h2]
  by_cases h3 : b = chr '\r'
  · rw [if_pos h3, if_pos h3]
    rfl
  · rw [if_neg h3, if_neg h3, map_mk, Function.comp_update]
    rfl

theorem scroll_map (g : Grid α) : (scroll blank g).map f = scroll (f blank) (g.map f) := by
  unfold scroll
  by_cases h : CRT_SIZE ≤ g.pos.toNat
  · have h' : CRT_SIZE ≤ (g.map f).pos.toNat := h
    rw [if_pos h, if_pos h', map_mk]
    congr 1
    funext j
    exact apply_ite f (j < CRT_SIZE - CRT_COLS) (g.cell (j + CRT_COLS)) blank
  · have h' : ¬ CRT_SIZE ≤ (g.map f).pos.toNat := h
    rw [if_neg h, if_neg h']

theorem put_map (b : Byte) (g : Grid α) : (put blank print b g).map f = put (f blank) (f ∘ print) b (g.map f) := by
  have one : ∀ b (g : Grid α), (scroll blank (write blank print b g)).map f =
      scroll (f blank) (write (f blank) (f ∘ print) b (g.map f)) := by
    intro b g
    rw [scroll_map, write_map]
  unfold put
  split_ifs
  · rw [scroll_map]
    have hspace : Function.Semiconj (map f) (fun g => scroll blank (write blank print (chr ' ') g))
        (fun g => scroll (f blank) (write (f blank) (f ∘ print) (chr ' ') g)) := one (chr ' ')
    exact congrArg (scroll (f blank)) (hspace.iterate_right 5 g)
  · exact one b g

/-- **A text does not look at the cells.** -/
theorem text_map (s : List Byte) (g : Grid α) : (text blank print s g).map f = text (f blank) (f ∘ print) s (g.map f) := by
  induction s generalizing g with
  | nil => rfl
  | cons b s ih => exact (ih (put blank print b g)).trans (congrArg (text _ _ s) (put_map blank print f b g))

end Ops

end Grid

/-! ## The screen -/

/-- the cells and the position are those of g -/
structure Displays (g : Grid (BitVec 16)) (o : Out) : Prop where
  pos : o.crtPos = g.pos
  cells : ∀ j < CRT_SIZE, o.cell j = g.cell j

theorem Displays.congr {g : Grid (BitVec 16)} {o o' : Out} (h : Displays g o) (hd : o'.disp = o.disp)
    (hr : o'.ram = o.ram) (hp : o'.crtPos = o.crtPos) : Displays g o' where
  pos := hp.trans h.pos
  cells j hj := by
    rw [Out.cell, hd, hr]
    exact h.cells j hj

theorem Displays.cursor {g : Grid (BitVec 16)} {o : Out} (h : Displays g o) : Displays g (cgaCursor o) := h.congr rfl rfl rfl

/-- a store at any position, on the screen or behind it -/
theorem cell_setCell_any {i j : ℕ} (hi : i < 65536) (hj : j < CRT_SIZE) (v : BitVec 16) (o : Out) :
    (o.setCell i v).cell j = if j = i then v else o.cell j := by
  rcases lt_or_ge i CRT_SIZE with his | his
  · exact cell_setCell his hj v o
  rw [if_neg (by omega)]
  have hbuf : o.disp.crtBuf.toNat + 2 * 65536 ≤ 2 ^ 32 := by
    rcases o.disp.wired with h | h <;> rw [h.2] <;> decide
  rw [CRT_SIZE_eq] at hj his
  refine Ram.half_congr fun t ht => Ram.stores_outside _ _ fun u hu he => ?_
  simp only [List.length_cons, List.length_nil] at hu
  change o.disp.crtBuf + _ + _ = _ at he
  rw [Ram.off_off, Ram.off_off] at he
  have := Ram.off_inj (by omega) (by omega) he
  omega

theorem Displays.store {g : Grid (BitVec 16)} {o : Out} (h : Displays g o) (i : BitVec 16) (v : BitVec 16) (pos : BitVec 16) :
    Displays ⟨Function.update g.cell i.toNat v, pos⟩ { o.setCell i.toNat v with crtPos := pos } where
  pos := rfl
  cells j hj := by
    rw [cell_with_crtPos, cell_setCell_any i.isLt hj, h.cells j hj]
    exact (Function.update_apply g.cell i.toNat v j).symm

/-- how a char is passed to cputchar: as itself below 0x80 -/
structure Passes (ext : Byte → Word) : Prop where
  low : ∀ b, low (ext b) = b
  ascii : ∀ b, b < 0x80 → ext b = uchar b

theorem passes_uchar : Passes uchar where
  low := low_uchar
  ascii _ _ := rfl

theorem passes_schar : Passes schar where
  low := by decide
  ascii := by decide

/-- the cell that a char leaves -/
def looks (ext : Byte → Word) (b : Byte) : BitVec 16 := (withAttr (ext b)).truncate 16

section Put

variable (dev : ℕ → ℕ → Byte) {ext : Byte → Word}

theorem displays_write (he : Passes ext) {g : Grid (BitVec 16)} {o : Out} (h : Displays g o) (b : Byte) :
    Displays (g.write blank (looks ext) b) (cgaWrite (withAttr (ext b)) o) := by
  have hpos := h.pos
  unfold cgaWrite Grid.write
  rw [withAttr_low, he.low]
  by_cases h1 : b = chr '\x08'
  · have hcell : (withAttr (ext b) &&& ~~~0xFF ||| uchar (chr ' ')).truncate 16 = blank := by
      rw [h1, he.ascii _ (by decide)]
      decide
    rw [if_pos h1, if_pos h1, hpos, hcell]
    split_ifs
    · exact h.store (g.pos - 1) blank (g.pos - 1)
    · exact h
  by_cases h2 : b = chr '\n'
  · rw [if_neg h1, if_neg h1, if_pos h2, if_pos h2]
    refine ⟨?_, h.cells⟩
    show o.crtPos + _ - (o.crtPos + _) % _ = _
    rw [hpos]
  by_cases h3 : b = chr '\r'
  · rw [if_neg h1, if_neg h1, if_neg h2, if_neg h2, if_pos h3, if_pos h3]
    refine ⟨?_, h.cells⟩
    show o.crtPos - o.crtPos % _ = _
    rw [hpos]
  · rw [if_neg h1, if_neg h1, if_neg h2, if_neg h2, if_neg h3, if_neg h3, hpos]
    exact h.store g.pos _ _

theorem displays_scroll {g : Grid (BitVec 16)} {o : Out} (h : Displays g o) : Displays (g.scroll blank) (cgaScroll o) := by
  have hpos := h.pos
  unfold Grid.scroll
  by_cases hs : CRT_SIZE ≤ o.crtPos.toNat
  · rw [if_pos (hpos ▸ hs)]
    refine ⟨?_, fun j hj => ?_⟩
    · rw [cgaScroll_eq, if_pos hs, ← hpos]
    · rw [cell_cgaScroll hs hj]
      show _ = if j < CRT_SIZE - CRT_COLS then g.cell (j + CRT_COLS) else blank
      split_ifs with hj'
      · exact h.cells _ (by omega)
      · rfl
  · rw [if_neg (hpos ▸ hs), cgaScroll_eq, if_neg hs]
    exact h

theorem displays_plain (he : Passes ext) {g : Grid (BitVec 16)} {o : Out} (h : Displays g o) {b : Byte} (hb : b ≠ chr '\t') :
    Displays ((g.write blank (looks ext) b).scroll blank) (consPutc dev (ext b) o) := by
  obtain ⟨reads, ports, hcga⟩ := consPutc_cga dev (ext b) o
  have ho : Displays g { o with reads := reads, ports := ports } := h.congr rfl rfl rfl
  rw [hcga, cgaPutc_plain dev (by rwa [withAttr_low, he.low])]
  exact (displays_scroll (displays_write he ho b)).cursor

/-- **One character.** -/
theorem displays_put (he : Passes ext) {g : Grid (BitVec 16)} {o : Out} (h : Displays g o) (b : Byte) :
    Displays (g.put blank (looks ext) b) (consPutc dev (ext b) o) := by
  unfold Grid.put
  by_cases hb : b = chr '\t'
  · rw [if_pos hb]
    obtain ⟨reads, ports, hcga⟩ := consPutc_cga dev (ext b) o
    have hspaces : ∀ n (g : Grid (BitVec 16)) (o : Out), Displays g o →
        Displays ((fun g => (g.write blank (looks ext) (chr ' ')).scroll blank)^[n] g)
          ((consPutc dev (uchar (chr ' ')))^[n] o) := by
      intro n
      induction n with
      | zero => exact fun g o ho => ho
      | succ n ih =>
        intro g o ho
        apply ih
        rw [← he.ascii (chr ' ') (by decide)]
        exact displays_plain dev he ho (by decide)
    have ho : Displays g { o with reads := reads, ports := ports } := h.congr rfl rfl rfl
    rw [hcga, cgaPutc_tab dev (by rw [withAttr_low, he.low, hb])]
    exact (displays_scroll (hspaces 5 _ _ ho)).cursor
  · rw [if_neg hb]
    exact displays_plain dev he h hb

theorem displays_text (he : Passes ext) (s : List Byte) {g : Grid (BitVec 16)} {o : Out} (h : Displays g o) :
    Displays (g.text blank (looks ext) s) (feed (cputchar dev) o (s.map ext)) := by
  induction s generalizing g o with
  | nil => exact h
  | cons b s ih => exact ih (displays_put dev he h b)

/-! ## Both paths -/

/-- where the content of a cell comes from -/
inductive Glyph where
  /-- cell j of the screen before the text -/
  | old (j : ℕ)
  | blank
  /-- a byte of the text -/
  | char (b : Byte)
deriving DecidableEq, Repr

def Glyph.look (ext : Byte → Word) (o : Out) : Glyph → BitVec 16
  | old j => o.cell j
  | blank => Console.blank
  | char b => looks ext b

/-- what a text leaves in each cell of the screen -/
def leaves (pos : BitVec 16) (s : List Byte) : Grid Glyph := Grid.text .blank .char s ⟨.old, pos⟩

theorem text_displays (he : Passes ext) (s : List Byte) (o : Out) :
    Displays ((leaves o.crtPos s).map (Glyph.look ext o)) (feed (cputchar dev) o (s.map ext)) := by
  have ho : Displays ⟨fun j => o.cell j, o.crtPos⟩ o := ⟨rfl, fun j _ => rfl⟩
  have h := displays_text dev he s ho
  rw [leaves, Grid.text_map]
  exact h

theorem looks_eq_iff (b : Byte) : looks uchar b = looks schar b ↔ b < 0x80 := by
  revert b
  decide

/-- no byte from 0x80 on is left on the screen: each was erased, overwritten or scrolled off -/
def HighBytesGone (pos : BitVec 16) (s : List Byte) : Prop :=
  ∀ j < CRT_SIZE, ∀ b, (leaves pos s).cell j = .char b → b < 0x80

theorem cells_eq_iff (s : List Byte) (o : Out) :
    (∀ j < CRT_SIZE, (feed (cputchar dev) o (s.map uchar)).cell j = (feed (cputchar dev) o (s.map schar)).cell j) ↔
      HighBytesGone o.crtPos s := by
  have h1 := text_displays dev passes_uchar s o
  have h2 := text_displays dev passes_schar s o
  constructor
  · intro h j hj b hb
    have heq := h j hj
    rw [h1.cells j hj, h2.cells j hj] at heq
    apply (looks_eq_iff b).1
    change Glyph.look uchar o ((leaves o.crtPos s).cell j) = Glyph.look schar o ((leaves o.crtPos s).cell j) at heq
    rw [hb] at heq
    exact heq
  · intro h j hj
    rw [h1.cells j hj, h2.cells j hj]
    show Glyph.look uchar o ((leaves o.crtPos s).cell j) = Glyph.look schar o ((leaves o.crtPos s).cell j)
    cases hg : (leaves o.crtPos s).cell j with
    | old i => rfl
    | blank => rfl
    | char b => exact (looks_eq_iff b).2 (h j hj b hg)

/-- the serial line gets the same bytes -/
theorem flatMap_sentFor_congr (s : List Byte) : (s.map uchar).flatMap sentFor = (s.map schar).flatMap sentFor := by
  induction s with
  | nil => rfl
  | cons b s ih =>
    rw [List.map_cons, List.map_cons, List.flatMap_cons, List.flatMap_cons, ih, sentFor, sentFor, passes_uchar.low,
      passes_schar.low]

/-- **Format and argument.** For every text without NUL and '%', on every console: cprintf of the text and cprintf("%s") of
it leave the same cells, the same position and the same serial output if and only if no byte from 0x80 on is left on the
screen and the width of the %s has not wrapped around, which takes a text of 2^31 bytes. -/
theorem cprintf_text_iff (o : Out) (s : List Byte) (hs : ∀ b ∈ s, b ≠ chr '%' ∧ b ≠ 0#8) (rest : List Byte) :
    ∃ o₁ o₂, Printfmt.vcprintf (cputchar dev) o (s ++ [0#8]) [] = .ok (0, o₁) ∧
      Printfmt.vcprintf (cputchar dev) o Printfmt.fmtS [.str (some (s ++ 0#8 :: rest))] = .ok (0, o₂) ∧
      ((∀ j < CRT_SIZE, o₁.cell j = o₂.cell j) ∧ o₁.crtPos = o₂.crtPos ∧ serialSent o₁.ports = serialSent o₂.ports ↔
        HighBytesGone o.crtPos s ∧ Printfmt.int32 (-1 - s.length) ≤ 0) := by
  have h0 : 0#8 ∉ s := fun h => (hs _ h).2 rfl
  refine ⟨_, _, by rw [Printfmt.vcprintf_eq, Printfmt.emit_text s hs]; rfl,
    by rw [Printfmt.vcprintf_eq, Printfmt.emit_fmtS h0 rest]; rfl, ?_⟩
  have hserial : ∀ cs : List Word, serialSent (feed (cputchar dev) o cs).ports = serialSent o.ports ++ cs.flatMap sentFor :=
    fun cs => (cputchar_sent dev cs o).serial
  rw [hserial, hserial, List.append_cancel_left_eq, flatMap_sentFor_congr, Printfmt.strChars, List.flatMap_append]
  have hpos : (feed (cputchar dev) o (s.map uchar)).crtPos = (feed (cputchar dev) o (s.map schar)).crtPos :=
    (text_displays dev passes_uchar s o).pos.trans (text_displays dev passes_schar s o).pos.symm
  by_cases hw : Printfmt.int32 (-1 - s.length) ≤ 0
  · rw [show (Printfmt.int32 (-1 - s.length)).toNat = 0 by omega, List.replicate_zero, List.append_nil, cells_eq_iff]
    simp [hpos, hw]
  · -- the padding is sent too
    refine iff_of_false ?_ fun h => hw h.2
    rintro ⟨-, -, hsent⟩
    have hlen := congrArg List.length hsent
    obtain ⟨n, hn⟩ : ∃ n, (Printfmt.int32 (-1 - s.length)).toNat = n + 1 :=
      ⟨(Printfmt.int32 (-1 - s.length)).toNat - 1, by omega⟩
    rw [hn, List.replicate_succ, List.flatMap_cons, List.length_append, List.length_append, sentFor, if_neg (by decide)] at hlen
    simp only [List.length_cons, List.length_nil] at hlen
    omega

end Put

/-- a text of the monitor -/
theorem cprintf_text_hello :
    ∃ o₁ o₂, Printfmt.vcprintf (cputchar fun _ _ => 0xFF) bootOut (bytes "K> " ++ [0#8]) [] = .ok (0, o₁) ∧
      Printfmt.vcprintf (cputchar fun _ _ => 0xFF) bootOut Printfmt.fmtS [.str (some (bytes "K> " ++ 0#8 :: []))] = .ok (0, o₂) ∧
      ((∀ j < CRT_SIZE, o₁.cell j = o₂.cell j) ∧ o₁.crtPos = o₂.crtPos ∧ serialSent o₁.ports = serialSent o₂.ports ↔
        HighBytesGone bootOut.crtPos (bytes "K> ") ∧ Printfmt.int32 (-1 - (bytes "K> ").length) ≤ 0) :=
  cprintf_text_iff (fun _ _ => 0xFF) bootOut (bytes "K> ") (by decide) []

/-- **An attribute of its own.** The byte 0xE9 is black on white as the format, and has the attribute 0xFF as the argument. -/
theorem cprintf_text_attribute :
    ∃ o₁ o₂, Printfmt.vcprintf (cputchar fun _ _ => 0xFF) bootOut [0xE9, 0] [] = .ok (0, o₁) ∧
      Printfmt.vcprintf (cputchar fun _ _ => 0xFF) bootOut Printfmt.fmtS [.str (some [0xE9, 0])] = .ok (0, o₂) ∧
      o₁.cell 0 = 0x07E9 ∧ o₂.cell 0 = 0xFFE9 := by
  have h1 := text_displays (fun _ _ => 0xFF) passes_uchar [0xE9] bootOut
  have h2 := text_displays (fun _ _ => 0xFF) passes_schar [0xE9] bootOut
  have hlit := Printfmt.emit_text [0xE9] (by decide)
  have harg := Printfmt.emit_fmtS (show (0#8 : Byte) ∉ [0xE9] by decide) []
  refine ⟨_, _, by rw [Printfmt.vcprintf_eq]; exact congrArg _ hlit, by rw [Printfmt.vcprintf_eq]; exact congrArg _ harg,
    (h1.cells 0 (by decide)).trans (by decide +kernel), ?_⟩
  have hpad : Printfmt.strChars [0xE9] = [0xE9].map schar := by decide
  simp only [hpad]
  exact (h2.cells 0 (by decide)).trans (by decide +kernel)

end Jos.Console
