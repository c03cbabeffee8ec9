/-
The symbol line of the backtrace.

The comment in the source shows its form, "kern/monitor.c:143: monitor+106": file, line, name and offset in the function.
The code passes the line number again where the offset belongs.

- `symbolText_location_iff`: the bytes of the line, against those of the location.
- **`symbol_lines_iff`**: the line names the location exactly when the line number equals the offset, and the names are
  not so long that the width of %s wraps around; so do runs in which every frame is such a frame.
-/
import Jos.Monitor.Backtrace

namespace Jos.Monitor

open Kdebug (DebugInfo Eipdebuginfo debuginfoEip monitorTable)
open Numeral (numeral)
open Printfmt
open Sink (feed)

/-! ## What the line should say -/

def decimal (v : ℤ) : List Byte := (if v < 0 then [chr '-'] else []) ++ numeralText base10 v.natAbs

/-- the offset of the return address in its function -/
def offset (eip : Word) (info : Eipdebuginfo) : ℤ := eip.toNat - info.eipFnAddr.toNat

/-- "FILE:LINE: NAME+OFF", where NAME is the `eip_fn_namelen` bytes at `eip_fn_name` -/
def location (T : DebugInfo) (eip : Word) (info : Eipdebuginfo) : List Byte :=
  cstr (T.at info.eipFile) ++ bytes ":" ++ decimal info.eipLine ++ bytes ": " ++
    (T.at info.eipFnName).take info.eipFnNamelen.toNat ++ bytes "+" ++ decimal (offset eip info) ++ bytes "\n"

/-- %s and %.*s print the two names without a blank behind them, and the precision does not wrap around -/
structure NamesFit (T : DebugInfo) (info : Eipdebuginfo) : Prop where
  file : FitsInt ((cstr (T.at info.eipFile)).length + 1)
  name : FitsInt info.eipFnNamelen
  shown : shownCount (BitVec.ofInt 32 info.eipFnNamelen).toInt (cstr (T.at info.eipFnName)).length = info.eipFnNamelen

/-! ## Decimals -/

theorem low_text (l : String) : (text l).map low = bytes l := by
  rw [text, List.map_map]
  exact (List.map_congr_left fun c _ => low_uchar c).trans (List.map_id _)

theorem low_signedText (v : ℤ) : (signedText v).map low = decimal v := by
  rw [signedText, sign, decimal, List.map_append, low_unsignedText]
  split_ifs
  · rfl
  · rfl

theorem signedText_eq (v : ℤ) : signedText v = (decimal v).map uchar := by
  have hnum : unsignedText base10 v.natAbs = (numeralText base10 v.natAbs).map uchar := by
    rw [unsignedText, numeralText, List.map_map]
    exact List.map_congr_left fun d _ => digit_eq d
  rw [signedText, sign, decimal, List.map_append, hnum]
  split_ifs
  · rfl
  · rfl

theorem decimal_injective {v v' : ℤ} (h : decimal v = decimal v') : v = v' := by
  apply signedText_injective
  rw [signedText_eq, signedText_eq, h]

theorem length_decimal_le {v : ℤ} (h : v.natAbs < 2 ^ 64) : (decimal v).length ≤ 65 := by
  have hlen := length_unsignedText_le base10 h
  rw [decimal, List.length_append, ← low_unsignedText, List.length_map]
  split_ifs
  · rw [List.length_singleton]
    omega
  · rw [List.length_nil]
    omega

/-! ## The names, byte by byte -/

/-- two texts that go on alike behind the blanks of one of them -/
theorem blanks_cons {n : ℕ} {c : Byte} (hc : c ≠ chr ' ') {r r' : List Byte}
    (h : List.replicate n (chr ' ') ++ c :: r = c :: r') : n = 0 ∧ r = r' := by
  cases n with
  | zero => exact ⟨rfl, (List.cons.inj h).2⟩
  | succ n => exact absurd (List.cons.inj h).1.symm hc

/-- what stops the name is a colon -/
theorem drop_name {l : List Byte} (h : (l.takeWhile (· ≠ chr ':')).length < l.length) :
    ∃ t, l.drop (l.takeWhile (· ≠ chr ':')).length = chr ':' :: t := by
  have hsplit : l.takeWhile (· ≠ chr ':') ++ l.dropWhile (· ≠ chr ':') = l := List.takeWhile_append_dropWhile
  have hdrop : l.drop (l.takeWhile (· ≠ chr ':')).length = l.dropWhile (· ≠ chr ':') :=
    (congrArg (List.drop _) hsplit.symm).trans List.drop_left
  have hhead := List.head?_dropWhile_not (· ≠ chr ':') l
  rw [hdrop]
  cases hd : l.dropWhile (· ≠ chr ':') with
  | nil =>
    rw [hd, List.append_nil] at hsplit
    rw [hsplit] at h
    exact absurd h (lt_irrefl _)
  | cons c t =>
    rw [hd] at hhead
    have hc : c = chr ':' := by simpa using hhead
    exact ⟨t, by rw [hc]⟩

/-- **The name.** In front of '+' and a short text, %.*s prints the k characters before the colon only if it shows just
these, without blanks behind them. -/
theorem name_exact {l r r' : List Byte} {k m b : ℕ} (hk : k = (l.takeWhile (· ≠ chr ':')).length)
    (hm : m = shownCount (BitVec.ofInt 32 k).toInt l.length) (hb : b < 2147483648) (hr : r.length < 1000)
    (h : l.take m ++ (List.replicate b (chr ' ') ++ chr '+' :: r) = l.take k ++ chr '+' :: r') :
    m = k ∧ b = 0 ∧ r = r' := by
  have hkl : k ≤ l.length := by
    rw [hk]
    exact (List.takeWhile_prefix _).length_le
  have hml : m ≤ l.length := by
    rw [hm]
    exact shownCount_le _ _
  rcases lt_trichotomy m k with hlt | rfl | hgt
  · -- the precision has wrapped around, and the texts differ in length
    exfalso
    have hlen := congrArg List.length h
    simp only [List.length_append, List.length_take, List.length_replicate, List.length_cons] at hlen
    rw [toInt_ofInt] at hm
    have hwraps := shown_wraps hm hkl hlt
    clear hm
    omega
  · have h := List.append_cancel_left h
    exact ⟨rfl, blanks_cons (by decide) h⟩
  · -- it shows the colon
    exfalso
    obtain ⟨t, ht⟩ := drop_name (l := l) (by omega)
    obtain ⟨j, rfl⟩ : ∃ j, m = k + (j + 1) := ⟨m - k - 1, by omega⟩
    rw [List.take_add, hk, ht, List.take_succ_cons, List.append_assoc] at h
    exact absurd (List.cons.inj (List.append_cancel_left h)).1 (by decide)

/-! ## The line -/

/-- what the line prints, byte by byte -/
theorem low_symbolText {T : DebugInfo} {info : Eipdebuginfo} (h : T.Found info) {n m : ℕ}
    (hn : n = (cstr (T.at info.eipFile)).length)
    (hm : m = shownCount (BitVec.ofInt 32 info.eipFnNamelen).toInt (cstr (T.at info.eipFnName)).length) :
    (symbolText T info).map low = cstr (T.at info.eipFile) ++
      (List.replicate (int32 (-(n + 1))).toNat (chr ' ') ++ chr ':' :: (decimal info.eipLine ++ (bytes ": " ++
        ((cstr (T.at info.eipFnName)).take m ++ (List.replicate (int32 (-m)).toNat (chr ' ') ++
          chr '+' :: (decimal info.eipLine ++ bytes "\n")))))) := by
  obtain ⟨v, hv⟩ := h.line
  have hline : signedVal 0 info.eipLine = info.eipLine := by rw [hv, signedVal_word]
  have hcolon : bytes ":" = [chr ':'] := rfl
  have hplus : bytes "+" = [chr '+'] := rfl
  have hfile : (-1 : ℤ) - n = -(n + 1) := by ring
  rw [symbolText, hline]
  simp only [List.map_append, low_text, low_signedText]
  rw [low_stringText (by decide), low_stringText (by decide), ← hn, ← hm, shownCount_all, hn, List.take_length, ← hn, hfile, zero_sub,
    hcolon, hplus]
  simp only [List.append_assoc, List.cons_append, List.nil_append]

theorem location_eq {T : DebugInfo} {info : Eipdebuginfo} (h : T.Found info) (eip : Word) {k : ℕ}
    (hk : k = ((cstr (T.at info.eipFnName)).takeWhile (· ≠ chr ':')).length) :
    location T eip info = cstr (T.at info.eipFile) ++ chr ':' :: (decimal info.eipLine ++ (bytes ": " ++
      ((cstr (T.at info.eipFnName)).take k ++ chr '+' :: (decimal (offset eip info) ++ bytes "\n")))) := by
  obtain ⟨rest, hrest, -⟩ := cstr_split h.name.mem_at
  have hkl : k ≤ (cstr (T.at info.eipFnName)).length := by
    rw [hk]
    exact (List.takeWhile_prefix _).length_le
  have hname : (T.at info.eipFnName).take info.eipFnNamelen.toNat = (cstr (T.at info.eipFnName)).take k := by
    rw [h.namelen, ← hk, Int.toNat_natCast]
    conv_lhs => rw [hrest]
    exact List.take_append_of_le_length hkl
  have hcolon : bytes ":" = [chr ':'] := rfl
  have hplus : bytes "+" = [chr '+'] := rfl
  rw [location, hname, hcolon, hplus]
  simp only [List.append_assoc, List.cons_append, List.nil_append]

theorem symbolText_location_iff {T : DebugInfo} {info : Eipdebuginfo} (h : T.Found info) (eip : Word) :
    (symbolText T info).map low = location T eip info ↔ info.eipLine = offset eip info ∧ NamesFit T info := by
  obtain ⟨k, hk⟩ : ∃ k, k = ((cstr (T.at info.eipFnName)).takeWhile (· ≠ chr ':')).length := ⟨_, rfl⟩
  obtain ⟨m, hm⟩ : ∃ m, m = shownCount (BitVec.ofInt 32 info.eipFnNamelen).toInt (cstr (T.at info.eipFnName)).length :=
    ⟨_, rfl⟩
  have hlen : info.eipFnNamelen = k := by rw [h.namelen, hk]
  rw [low_symbolText h rfl hm, location_eq h eip hk]
  constructor
  · intro heq
    obtain ⟨hblank, heq⟩ := blanks_cons (by decide) (List.append_cancel_left heq)
    have heq := List.append_cancel_left (List.append_cancel_left heq)
    have hshort : (decimal info.eipLine ++ bytes "\n").length < 1000 := by
      obtain ⟨v, hv⟩ := h.line
      have hlt := v.toInt_lt
      have hge := v.le_toInt
      have hle := @length_decimal_le info.eipLine (by omega)
      rw [List.length_append, show (bytes "\n").length = 1 from rfl]
      omega
    have hb := int32_lt (-m)
    obtain ⟨hmk, hb0, hoff⟩ := name_exact hk (by rw [hm, hlen]) (by omega) hshort heq
    refine ⟨decimal_injective (List.append_cancel_right hoff), ?_, ?_, ?_⟩
    · exact (int32_neg_iff _).1 (by omega)
    · rw [hlen, ← hmk]
      exact (int32_neg_iff _).1 (by omega)
    · rw [← hm, hmk, hlen]
  · rintro ⟨hoff, hfit⟩
    have hmk : m = k := by
      have := hfit.shown
      rw [← hm, hlen] at this
      exact_mod_cast this
    have hname := hfit.name
    rw [hlen, ← int32_neg_iff] at hname
    have hfile := (int32_neg_iff _).2 hfit.file
    rw [Int.toNat_of_nonpos hfile, hmk, Int.toNat_of_nonpos hname, hoff]
    rfl

theorem cstr_at_length {T : DebugInfo} {p : Kdebug.CharPtr} (h : T.Points p) (hlt : T.stabstr.length < 2147483648) :
    (cstr (T.at p)).length < 2147483647 := by
  cases p with
  | unknown =>
    have hu : (cstr (T.at .unknown)).length = 9 := rfl
    omega
  | stabstr off =>
    have hle : (cstr (T.stabstr.drop off)).length ≤ (T.stabstr.drop off).length := (List.takeWhile_prefix _).length_le
    have hne : (cstr (T.stabstr.drop off)).length ≠ (T.stabstr.drop off).length := by
      obtain ⟨rest, hrest, -⟩ := cstr_split h.2
      intro heq
      rw [hrest, List.length_append, List.length_cons, ← hrest] at heq
      omega
    rw [List.length_drop] at hle hne
    rw [DebugInfo.at]
    omega

/-- names fit in every string table of less than 2^31 bytes -/
theorem namesFit_of_lt {T : DebugInfo} {info : Eipdebuginfo} (h : T.Found info) (hlt : T.stabstr.length < 2147483648) :
    NamesFit T info := by
  have hfile := cstr_at_length h.file hlt
  have hname := cstr_at_length h.name hlt
  have hle : ((cstr (T.at info.eipFnName)).takeWhile (· ≠ chr ':')).length ≤ (cstr (T.at info.eipFnName)).length :=
    (List.takeWhile_prefix _).length_le
  have hlen := h.namelen
  refine ⟨?_, ?_, ?_⟩
  · unfold FitsInt
    omega
  · unfold FitsInt
    omega
  · rw [toInt_ofInt, int32_of_lt (by omega) (by omega), shownCount, if_neg (by omega)]
    omega

/-- runs in which every frame whose lookup returns 0 has the line number where its offset is -/
theorem backtrace_locations {mem : Word → Byte} {T : DebugInfo} {ebp : Word} {k : ℕ}
    (hne : ∀ j < k, savedEbp mem ebp j ≠ 0) (hend : savedEbp mem ebp k = 0) {rc : ℕ → ℤ} {info : ℕ → Eipdebuginfo}
    (hlook : ∀ j < k, debuginfoEip T (retAddr mem (savedEbp mem ebp j)) = .ok (rc j, info j))
    (hloc : ∀ j < k, rc j = 0 →
      (info j).eipLine = offset (retAddr mem (savedEbp mem ebp j)) (info j) ∧ NamesFit T (info j)) :
    ∃ t : ℕ → List Word,
      (∀ (σ : Type) (cputchar : Word → σ → σ) (s : σ) (n : ℕ), k < n → monBacktrace cputchar mem T n ebp s =
        some (.ok (0, feed cputchar s (text "Stack backtrace\n" ++
          (List.range k).flatMap fun j => frameLine mem (savedEbp mem ebp j) ++ text "\n" ++ t j ++ text "\n")))) ∧
      ∀ j < k, (t j).map low =
        if rc j = 0 then location T (retAddr mem (savedEbp mem ebp j)) (info j) else [] := by
  refine ⟨fun j => if rc j = 0 then symbolText T (info j) else [], fun σ cputchar s n hn => ?_, fun j hj => ?_⟩
  · exact monBacktrace_eq cputchar mem hne hend hlook hn s
  · simp only
    split_ifs with hrc
    · have hfound := Kdebug.debuginfoEip_found ((hlook j hj).trans (by rw [hrc]))
      exact (symbolText_location_iff hfound _).2 (hloc j hj hrc)
    · rfl

/-- **The symbol line.** For every table, every return address whose lookup returns 0, and any frame with this address in
any memory: the line is FILE:LINE: NAME+OFF exactly when the stored line number equals the offset in the function, and
the names fit; they always do in a string table of less than 2^31 bytes. Where all frames of a chain are like that, the
whole backtrace names the locations. -/
theorem symbol_lines_iff (T : DebugInfo) :
    (∀ (eip : Word) (info : Eipdebuginfo), debuginfoEip T eip = .ok (0, info) →
      ∃ t : List Word,
        (∀ (σ : Type) (cputchar : Word → σ → σ) (mem : Word → Byte) (ebp : Word) (s : σ), retAddr mem ebp = eip →
          frame cputchar mem T ebp s = .ok (feed cputchar s (frameLine mem ebp ++ text "\n" ++ t ++ text "\n"))) ∧
        (t.map low = location T eip info ↔ info.eipLine = offset eip info ∧ NamesFit T info) ∧
        (T.stabstr.length < 2147483648 → NamesFit T info)) ∧
    ∀ (mem : Word → Byte) (ebp : Word) (k : ℕ), (∀ j < k, savedEbp mem ebp j ≠ 0) → savedEbp mem ebp k = 0 →
      ∀ (rc : ℕ → ℤ) (info : ℕ → Eipdebuginfo),
      (∀ j < k, debuginfoEip T (retAddr mem (savedEbp mem ebp j)) = .ok (rc j, info j)) →
      (∀ j < k, rc j = 0 →
        (info j).eipLine = offset (retAddr mem (savedEbp mem ebp j)) (info j) ∧ NamesFit T (info j)) →
      ∃ t : ℕ → List Word,
        (∀ (σ : Type) (cputchar : Word → σ → σ) (s : σ) (n : ℕ), k < n → monBacktrace cputchar mem T n ebp s =
          some (.ok (0, feed cputchar s (text "Stack backtrace\n" ++
            (List.range k).flatMap fun j => frameLine mem (savedEbp mem ebp j) ++ text "\n" ++ t j ++ text "\n")))) ∧
        ∀ j < k, (t j).map low =
          if rc j = 0 then location T (retAddr mem (savedEbp mem ebp j)) (info j) else [] := by
  refine ⟨fun eip info h => ?_, fun mem ebp k hne hend rc info => backtrace_locations hne hend⟩
  have hfound := Kdebug.debuginfoEip_found h
  refine ⟨symbolText T info, ?_, symbolText_location_iff hfound eip, namesFit_of_lt hfound⟩
  intro σ cputchar mem ebp s hret
  rw [frame_eq cputchar mem (by rw [hret, h]), frameText, if_pos rfl]

/-- witness: line 143 of the small table starts 96 bytes into the function, and so does this return address -/
theorem symbol_lines_start : ∃ t : List Word,
    (∀ (σ : Type) (cputchar : Word → σ → σ) (mem : Word → Byte) (ebp : Word) (s : σ), retAddr mem ebp = 0xf0100a58 →
      frame cputchar mem monitorTable ebp s =
        .ok (feed cputchar s (frameLine mem ebp ++ text "\n" ++ t ++ text "\n"))) ∧
    (t.map low = location monitorTable 0xf0100a58 ⟨.stabstr 1, 96, .stabstr 16, 7, 0xf01009f8, 0⟩ ↔
      (96 : ℤ) = offset 0xf0100a58 ⟨.stabstr 1, 96, .stabstr 16, 7, 0xf01009f8, 0⟩ ∧
        NamesFit monitorTable ⟨.stabstr 1, 96, .stabstr 16, 7, 0xf01009f8, 0⟩) ∧
    (monitorTable.stabstr.length < 2147483648 →
      NamesFit monitorTable ⟨.stabstr 1, 96, .stabstr 16, 7, 0xf01009f8, 0⟩) :=
  (symbol_lines_iff monitorTable).1 0xf0100a58 ⟨.stabstr 1, 96, .stabstr 16, 7, 0xf01009f8, 0⟩ (by decide +kernel)

/-- The return address that the comment in the source shows, monitor+106: the line says monitor+96. -/
theorem symbol_line_repeats :
    debuginfoEip monitorTable 0xf0100a62 = .ok (0, ⟨.stabstr 1, 96, .stabstr 16, 7, 0xf01009f8, 0⟩) ∧
      monBacktrace Sink.snoc frameMemory monitorTable 2 0xf0109e58 [] = some (.ok (0, text "Stack backtrace\n" ++
        text "ebp f0109e58 eip f0100a62 args 00000001 00000000 00000000 00000000 00000000 \n" ++
        text "kern/monitor.c:96: monitor+96\n" ++ text "\n")) ∧
      location monitorTable 0xf0100a62 ⟨.stabstr 1, 96, .stabstr 16, 7, 0xf01009f8, 0⟩ =
        bytes "kern/monitor.c:96: monitor+106\n" :=
  ⟨by decide +kernel, by decide +kernel, by decide +kernel⟩

end Jos.Monitor
