/-
The buffer sink of lib/printfmt.c: `sprintputch` and `vsnprintf`.

A buffer of n bytes at buf lies in the address space, so buf + n ≤ 2^32. The format and the strings among the
arguments are not part of the buffer.

- `feed_sprintputch`: what the sink has done after any list of characters.
- **`vsnprintf_eq`**: the return value and the memory, for every buffer.
- **`vsnprintf_truncates`**: exact truncation, on every buffer and between two of them.
-/
import Jos.Core.Ram
import Jos.Printfmt.Emit

namespace Jos.Printfmt

open Sink (feed)

/-! ## Model -/

def E_INVAL : ℤ := 3

structure Sprintbuf where
  buf : Word
  ebuf : Word
  cnt : ℤ
  ram : Ram 32

def sprintputch (ch : Word) (b : Sprintbuf) : Sprintbuf :=
  if b.buf < b.ebuf then ⟨b.buf + 1, b.ebuf, int32 (b.cnt + 1), b.ram.st8 b.buf (low ch)⟩
  else { b with cnt := int32 (b.cnt + 1) }

def vsnprintf (ram : Ram 32) (buf : Word) (n : ℤ) (fmt : List Byte) (ap : List Arg) : Except Fault (ℤ × Ram 32) :=
  if buf = 0 ∨ n < 1 then .ok (-E_INVAL, ram)
  else do
    let (b, _) ← vprintfmt sprintputch ⟨buf, buf + BitVec.ofInt 32 n - 1, 0, ram⟩ fmt ap
    return (b.cnt, b.ram.st8 b.buf 0)

def snprintf (ram : Ram 32) (buf : Word) (n : ℤ) (fmt : List Byte) (ap : List Arg) : Except Fault (ℤ × Ram 32) :=
  vsnprintf ram buf n fmt ap

/-! ## The sink -/

/-- the sink of a buffer with room for k characters, after the characters l: it has counted them all, and stored the
first k -/
def Sprintbuf.after (buf : Word) (k : ℕ) (ram : Ram 32) (l : List Word) : Sprintbuf :=
  ⟨buf + BitVec.ofNat 32 (min l.length k), buf + BitVec.ofNat 32 k, int32 l.length,
    ram.stores buf ((l.take k).map low)⟩

theorem sprintputch_after {buf : Word} {k : ℕ} (hk : buf.toNat + k < 2 ^ 32) (ram : Ram 32) (l : List Word) (c : Word) :
    sprintputch c (.after buf k ram l) = .after buf k ram (l ++ [c]) := by
  have hlen : (l ++ [c]).length = l.length + 1 := by simp
  have hcnt : int32 (int32 l.length + 1) = int32 ((l ++ [c]).length : ℕ) := by
    rw [int32_succ, hlen, Nat.cast_succ]
  have hlt : buf + BitVec.ofNat 32 (min l.length k) < buf + BitVec.ofNat 32 k ↔ l.length < k := by
    rw [BitVec.lt_def, Ram.toNat_off (by omega), Ram.toNat_off hk]; omega
  unfold sprintputch Sprintbuf.after
  simp only [hcnt]
  rcases lt_or_ge l.length k with h | h
  · have hs := Ram.stores_snoc buf (l.map low) (low c) ram
    rw [List.length_map] at hs
    rw [if_pos (hlt.2 h), List.take_of_length_le (by omega), List.take_of_length_le (by omega), List.map_append,
      List.map_singleton, hs, hlen, Nat.min_eq_left (by omega), Nat.min_eq_left (by omega), BitVec.ofNat_add,
      BitVec.add_assoc]
    rfl
  · rw [if_neg (by rw [hlt]; omega), hlen, Nat.min_eq_right h, Nat.min_eq_right (by omega),
      List.take_append_of_le_length h]

/-- **The sink after l.** -/
theorem feed_sprintputch {buf : Word} {k : ℕ} (hk : buf.toNat + k < 2 ^ 32) (ram : Ram 32) (l : List Word) :
    feed sprintputch ⟨buf, buf + BitVec.ofNat 32 k, 0, ram⟩ l = .after buf k ram l := by
  refine Sink.feed_induction sprintputch (fun l b => b = .after buf k ram l) ?_ (fun l c b hb => ?_) l
  · simp [Sprintbuf.after, Ram.stores, int32_of_lt]
  · rw [hb, sprintputch_after hk]

/-! ## vsnprintf -/

/-- **The result.** The whole count, the characters that fit with one byte to spare, and a NUL behind them. -/
theorem vsnprintf_eq {fmt : List Byte} {ap rest : List Arg} {S : List Word} (hS : emit fmt ap = .ok (S, rest))
    (hlen : S.length < 2 ^ 31) {buf : Word} (hbuf : buf ≠ 0) {n : ℤ} (hn : 1 ≤ n) (hfit : buf.toNat + n ≤ 2 ^ 32)
    (ram : Ram 32) :
    vsnprintf ram buf n fmt ap =
      .ok (S.length, ram.stores buf ((S.take (n - 1).toNat).map low ++ [0])) := by
  obtain ⟨k, rfl⟩ : ∃ k : ℕ, n = k + 1 := ⟨(n - 1).toNat, by omega⟩
  have hk : buf.toNat + k < 2 ^ 32 := by omega
  have he : buf + BitVec.ofInt 32 (k + 1) - 1 = buf + BitVec.ofNat 32 k := by
    rw [BitVec.ofInt_add, BitVec.ofInt_natCast, ← BitVec.add_assoc]
    exact BitVec.add_sub_cancel _ _
  have hm : min S.length k = ((S.take k).map low).length := by rw [List.length_map, List.length_take, min_comm]
  rw [vsnprintf, if_neg (by rintro (h | h); exacts [hbuf h, by omega]), he, vprintfmt_feed, hS]
  simp only [map_ok, Prod.map, ok_bind, feed_sprintputch hk, Sprintbuf.after, id]
  rw [int32_of_lt (by omega) (by omega), show ((k : ℤ) + 1 - 1).toNat = k by omega, Ram.stores_snoc, hm]
  rfl

theorem vsnprintf_invalid {buf : Word} {n : ℤ} (h : buf = 0 ∨ n < 1) (ram : Ram 32) (fmt : List Byte) (ap : List Arg) :
    vsnprintf ram buf n fmt ap = .ok (-E_INVAL, ram) := if_pos h

/-! ## Truncation -/

/-- what a call has done to the memory: the text and a NUL behind it are at buf, every other byte is as it was, and
the only accesses are one write to each of these bytes -/
structure Written (ram ram' : Ram 32) (buf : Word) (text : List Byte) : Prop where
  chars : ∀ i (h : i < text.length), ram'.byte (buf + BitVec.ofNat 32 i) = text[i]
  nul : ram'.byte (buf + BitVec.ofNat 32 text.length) = 0
  frame : ∀ a, (∀ i ≤ text.length, a ≠ buf + BitVec.ofNat 32 i) → ram'.byte a = ram.byte a
  log : ram'.log = ((List.range (text.length + 1)).map fun i => Access.wr (buf + BitVec.ofNat 32 i)).reverse ++ ram.log

theorem written_stores {buf : Word} {text : List Byte} (h : buf.toNat + text.length < 2 ^ 32) (ram : Ram 32) :
    Written ram (ram.stores buf (text ++ [0])) buf text := by
  have hlen : (text ++ [(0 : Byte)]).length = text.length + 1 := by simp
  refine ⟨fun i hi => ?_, ?_, fun a ha => ?_, ?_⟩
  · rw [Ram.stores_inside _ _ (by omega) (by omega), List.getElem_append_left hi]
  · rw [Ram.stores_inside _ _ (by omega) (by omega)]; simp
  · exact Ram.stores_outside _ _ fun i hi => ha i (by omega)
  · rw [Ram.stores_log, hlen]

theorem Written.peek {ram ram' : Ram 32} {buf : Word} {text : List Byte} (h : Written ram ram' buf text) :
    ram'.peek buf text.length = text := by
  refine List.ext_getElem (by simp [Ram.peek]) fun i h1 h2 => ?_
  simp only [Ram.peek, List.getElem_map, List.getElem_range]
  exact h.chars i h2

/-- the characters of S that a buffer of n bytes can hold, as bytes -/
def fitting (S : List Word) (n : ℤ) : List Byte := (S.take (n - 1).toNat).map low

theorem fitting_length (S : List Word) (n : ℤ) : (fitting S n).length = min S.length (n - 1).toNat := by
  simp [fitting, min_comm]

theorem fitting_prefix (S : List Word) {n₁ n₂ : ℤ} (h : n₁ ≤ n₂) : fitting S n₁ <+: fitting S n₂ :=
  (List.take_prefix_take_left (by omega)).map low

/-- **Exact truncation.** A call with a NULL or empty buffer writes nothing. Any other call whose output is S returns
|S|, and writes the first min(|S|, n - 1) characters with a NUL behind them and nothing else. The texts of two buffers
of different size are prefixes of one another. -/
theorem vsnprintf_truncates (fmt : List Byte) (ap : List Arg) :
    (∀ ram buf n, buf = 0 ∨ n < 1 → vsnprintf ram buf n fmt ap = .ok (-E_INVAL, ram)) ∧
    ∀ S rest, emit fmt ap = .ok (S, rest) → S.length < 2 ^ 31 →
      (∀ ram buf (n : ℤ), buf ≠ 0 → 1 ≤ n → buf.toNat + n ≤ 2 ^ 32 →
        ∃ ram', vsnprintf ram buf n fmt ap = .ok (S.length, ram') ∧ Written ram ram' buf (fitting S n) ∧
          (fitting S n).length = min S.length (n - 1).toNat ∧ (fitting S n).length < n) ∧
      ∀ ram₁ ram₂ buf₁ buf₂ (n₁ n₂ : ℤ), buf₁ ≠ 0 → buf₂ ≠ 0 → 1 ≤ n₁ → n₁ ≤ n₂ → buf₁.toNat + n₁ ≤ 2 ^ 32 →
        buf₂.toNat + n₂ ≤ 2 ^ 32 →
        ∃ rc ram₁' ram₂', vsnprintf ram₁ buf₁ n₁ fmt ap = .ok (rc, ram₁') ∧
          vsnprintf ram₂ buf₂ n₂ fmt ap = .ok (rc, ram₂') ∧
          ram₁'.peek buf₁ (min S.length (n₁ - 1).toNat) <+: ram₂'.peek buf₂ (min S.length (n₂ - 1).toNat) := by
  refine ⟨fun ram buf n h => vsnprintf_invalid h ram fmt ap, fun S rest hS hlen => ?_⟩
  have one : ∀ ram buf (n : ℤ), buf ≠ 0 → 1 ≤ n → buf.toNat + n ≤ 2 ^ 32 →
      ∃ ram', vsnprintf ram buf n fmt ap = .ok (S.length, ram') ∧ Written ram ram' buf (fitting S n) ∧
        (fitting S n).length = min S.length (n - 1).toNat ∧ (fitting S n).length < n := by
    intro ram buf n hbuf hn hfit
    have hl := fitting_length S n
    have hw : buf.toNat + (fitting S n).length < 2 ^ 32 := by omega
    exact ⟨_, vsnprintf_eq hS hlen hbuf hn hfit ram, written_stores hw ram, hl, by omega⟩
  refine ⟨one, fun ram₁ ram₂ buf₁ buf₂ n₁ n₂ h₁ h₂ hn hle hf₁ hf₂ => ?_⟩
  obtain ⟨ram₁', e₁, w₁, l₁, -⟩ := one ram₁ buf₁ n₁ h₁ hn hf₁
  obtain ⟨ram₂', e₂, w₂, l₂, -⟩ := one ram₂ buf₂ n₂ h₂ (by omega) hf₂
  refine ⟨S.length, ram₁', ram₂', e₁, e₂, ?_⟩
  rw [← l₁, ← l₂, w₁.peek, w₂.peek]
  exact fitting_prefix S hle

/-- witness: 1234 in a buffer of three bytes -/
theorem vsnprintf_truncates_twelve : ∃ ram', vsnprintf ⟨fun _ => 1, []⟩ 0x1000 3 (bytes "%d" ++ [0]) [.word 1234] =
    .ok (4, ram') ∧ ram'.byte 0x1000 = chr '1' ∧ ram'.byte 0x1001 = chr '2' ∧ ram'.byte 0x1002 = 0 := by
  have hS : emit (bytes "%d" ++ [0]) [.word 1234] = .ok ((bytes "1234").map uchar, []) := by decide +kernel
  obtain ⟨ram', h, hw, -⟩ :=
    ((vsnprintf_truncates _ _).2 _ _ hS (by decide)).1 ⟨fun _ => 1, []⟩ 0x1000 3 (by decide) (by decide) (by decide)
  exact ⟨ram', h, hw.chars 0 (by decide), hw.chars 1 (by decide), hw.nul⟩

end Jos.Printfmt
