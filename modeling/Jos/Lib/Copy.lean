/-
`strcpy`, `strcat`, `strncpy` and `strlcpy` of lib/string.c, in a memory where source and destination may overlap.

All four copy upwards, byte by byte. So they move a string down, or to a place behind its end. Into itself they run
after a terminator that they have just overwritten: strcpy and strcat forever, strncpy and strlcpy up to size bytes,
which are then the bytes from src to dst over and over.

- `Wrote r r' d f n`: r' is r with n bytes written at d.
- `strcpy_spec`, `strcat_spec`: when they return, and what they have written then; otherwise they never do.
- `strncpy_spec`, `strlcpy_spec`: they always return, and touch no more than size bytes of the destination.
- `strncpy_repeats`, `strlcpy_repeats`: what they write into the string itself.
- **`copies`**: all of it, for any two strings in memory.
-/
import Jos.Core.Loop
import Jos.Core.Ram
import Jos.Lib.Memmove

namespace Jos

open Ram

/-! ## Model -/

/-- `while ((*dst++ = *src++) != '\0')` -/
def strcpyBody : Word × Word × Ram 32 → Option ((Word × Word × Ram 32) ⊕ Ram 32)
  | (dst, src, r) =>
    let b := r.byte src
    let r := movs 1 dst src r
    some (if b ≠ 0 then .inl (dst + 1, src + 1, r) else .inr r)

/-- `strcpy(dst, src)`, with fuel for the loop -/
def strcpy (fuel : ℕ) (dst src : Word) (r : Ram 32) : Option (Word × Ram 32) :=
  (Loop.run strcpyBody fuel (dst, src, r)).map fun r => (dst, r)

/-- `for (n = 0; *s != '\0'; s++) n++` -/
def strlenBody : Word × Word × Ram 32 → Option ((Word × Word × Ram 32) ⊕ (Word × Ram 32))
  | (n, s, r) =>
    let b := r.byte s
    let r := (r.loads s 1).2
    some (if b ≠ 0 then .inl (n + 1, s + 1, r) else .inr (n, r))

/-- `strcat(dst, src)` -/
def strcat (fuel : ℕ) (dst src : Word) (r : Ram 32) : Option (Word × Ram 32) :=
  (Loop.run strlenBody fuel (0, dst, r)).bind fun (len, r) => (strcpy fuel (dst + len) src r).map fun (_, r) => (dst, r)

/-- `for (i = 0; i < size; i++)` of strncpy, with n rounds to go -/
def strncpyLoop : ℕ → Word → Word → Ram 32 → Ram 32
  | 0, _, _, r => r
  | n + 1, dst, src, r =>
    let r := movs 1 dst src r
    -- `if (*src != '\0') src++`
    let b := r.byte src
    strncpyLoop n (dst + 1) (if b ≠ 0 then src + 1 else src) (r.loads src 1).2

def strncpy (dst src size : Word) (r : Ram 32) : Word × Ram 32 := (dst, strncpyLoop size.toNat dst src r)

/-- `while (--size > 0 && *src != '\0') *dst++ = *src++`, with size decremented already -/
def strlcpyLoop : ℕ → Word → Word → Ram 32 → Word × Ram 32
  | 0, dst, _, r => (dst, r)
  | n + 1, dst, src, r =>
    let b := r.byte src
    let r := (r.loads src 1).2
    if b ≠ 0 then strlcpyLoop n (dst + 1) (src + 1) (movs 1 dst src r) else (dst, r)

def strlcpy (dst src size : Word) (r : Ram 32) : Word × Ram 32 :=
  if 0 < size then
    let (d, r) := strlcpyLoop (size.toNat - 1) dst src r
    (d - dst, r.st8 d 0)
  else (0, r)

/-! ## Strings and writes -/

/-- a string of L bytes at a -/
structure StrAt (r : Ram 32) (a : Word) (L : ℕ) : Prop where
  char : ∀ i < L, r.byte (a + BitVec.ofNat 32 i) ≠ 0
  nul : r.byte (a + BitVec.ofNat 32 L) = 0
  fits : a.toNat + L < 2 ^ 32

/-- r' is r with the bytes f 0, f 1, ... f (n - 1) at d -/
structure Wrote (r r' : Ram 32) (d : Word) (f : ℕ → Byte) (n : ℕ) : Prop where
  bytes : ∀ i < n, r'.byte (d + BitVec.ofNat 32 i) = f i
  frame : ∀ x, (∀ i < n, x ≠ d + BitVec.ofNat 32 i) → r'.byte x = r.byte x

/-- a copy from s up to d does not run into what it has still to read of m bytes -/
def Clear (d s : Word) (m : ℕ) : Prop := d.toNat ≤ s.toNat ∨ s.toNat + m ≤ d.toNat

/-- the bytes of the string, as far as n, and zeros behind them -/
def zeroPadded (r : Ram 32) (src : Word) (n i : ℕ) : Byte := if i < n then r.byte (src + BitVec.ofNat 32 i) else 0

/-- what a copy from src to a place k bytes further up reads: the k bytes between, over and over -/
def repeated (r : Ram 32) (src : Word) (k i : ℕ) : Byte := r.byte (src + BitVec.ofNat 32 (i % k))

theorem Wrote.none (r : Ram 32) (d : Word) (f : ℕ → Byte) : Wrote r r d f 0 :=
  ⟨fun _ h => absurd h (Nat.not_lt_zero _), fun _ _ => rfl⟩

/-- the next byte -/
theorem Wrote.snoc {r r' r'' : Ram 32} {d : Word} {f : ℕ → Byte} {n : ℕ} (h : Wrote r r' d f n)
    (hd : d.toNat + n < 2 ^ 32) (hnext : r''.byte = Function.update r'.byte (d + BitVec.ofNat 32 n) (f n)) :
    Wrote r r'' d f (n + 1) := by
  constructor
  · intro i hi
    rw [hnext]
    rcases Nat.lt_succ_iff_lt_or_eq.1 hi with hlt | rfl
    · rw [Function.update_of_ne, h.bytes i hlt]
      intro he
      have := off_inj (by omega) hd he
      omega
    · exact Function.update_self _ _ _
  · intro x hx
    rw [hnext, Function.update_of_ne (hx n (Nat.lt_succ_self n))]
    exact h.frame x fun i hi => hx i (Nat.lt_succ_of_lt hi)

/-- a byte of the source is read before it is overwritten -/
theorem Wrote.read {r r' : Ram 32} {d s : Word} {f : ℕ → Byte} {n m k : ℕ} (h : Wrote r r' d f n)
    (hds : Clear d s m) (hk : k < m) (hn : n ≤ k) (hd : d.toNat + n ≤ 2 ^ 32)
    (hs : s.toNat + k < 2 ^ 32) : r'.byte (s + BitVec.ofNat 32 k) = r.byte (s + BitVec.ofNat 32 k) := by
  apply h.frame
  intro i hi he
  have := congrArg BitVec.toNat he
  rw [toNat_off hs, toNat_off (by omega)] at this
  unfold Clear at hds
  omega

theorem movs_one (d s : Word) (r : Ram 32) : (movs 1 d s r).byte = Function.update r.byte d (r.byte s) := by
  show Function.update r.byte d (r.byte (s + BitVec.ofNat 32 0)) = _
  rw [off_zero]

/-- the addresses of the n bytes at d, and of the m bytes at s -/
def Either (d : Word) (n : ℕ) (s : Word) (m : ℕ) (x : Word) : Prop :=
  (∃ i < n, x = d + BitVec.ofNat 32 i) ∨ ∃ i < m, x = s + BitVec.ofNat 32 i

theorem touched_one {P : Word → Prop} {r : Ram 32} {s : Word} (h : P s) : r.Touched P (r.loads s 1).2 := by
  apply touched_loads
  intro i hi
  obtain rfl : i = 0 := by omega
  rwa [off_zero]

theorem touched_st8 {P : Word → Prop} {r r' : Ram 32} {a : Word} (ht : r.Touched P r') (ha : P a) (b : Byte) :
    r.Touched P (r'.st8 a b) := by
  refine ht.trans (touched_stores [b] r' fun i hi => ?_)
  obtain rfl : i = 0 := Nat.lt_one_iff.1 hi
  rwa [off_zero]

theorem touched_movs {P : Word → Prop} {r : Ram 32} {d s : Word} (hd : P d) (hs : P s) : r.Touched P (movs 1 d s r) :=
  touched_st8 (touched_one hs) hd _

/-! ## strcpy -/

/-- what strcpy from s to d has done after k bytes -/
structure Copying (r : Ram 32) (d s : Word) (L k : ℕ) (r' : Ram 32) : Prop where
  wrote : Wrote r r' d (fun i => r.byte (s + BitVec.ofNat 32 i)) k
  touched : r.Touched (Either d (L + 1) s (L + 1)) r'

theorem Copying.next {r r' : Ram 32} {d s : Word} {L k : ℕ} (h : Copying r d s L k r') (hk : k ≤ L)
    (hd : d.toNat + L < 2 ^ 32) (hs : s.toNat + L < 2 ^ 32) (hds : Clear d s (L + 1)) :
    r'.byte (s + BitVec.ofNat 32 k) = r.byte (s + BitVec.ofNat 32 k) ∧
      Copying r d s L (k + 1) (movs 1 (d + BitVec.ofNat 32 k) (s + BitVec.ofNat 32 k) r') := by
  have hread := h.wrote.read hds (Nat.lt_succ_of_le hk) (le_refl k) (by omega) (by omega)
  refine ⟨hread, h.wrote.snoc (by omega) ?_, h.touched.trans (touched_movs ?_ ?_)⟩
  · rw [movs_one, hread]
  · exact Or.inl ⟨k, by omega, rfl⟩
  · exact Or.inr ⟨k, by omega, rfl⟩

/-- the loop from the k-th byte on, with j bytes to go before the terminator -/
theorem strcpy_loop {r r' : Ram 32} {dst src : Word} {L : ℕ} (h : StrAt r src L) (hd : dst.toNat + L < 2 ^ 32)
    (hds : Clear dst src (L + 1)) {k : ℕ} (j : ℕ) (hj : k + j = L)
    (hc : Copying r dst src L k r') :
    ∃ r'', Loop.run strcpyBody (j + 1) (dst + BitVec.ofNat 32 k, src + BitVec.ofNat 32 k, r') = some r'' ∧
      Copying r dst src L (L + 1) r'' := by
  induction j generalizing k r' with
  | zero =>
    obtain rfl : k = L := hj
    obtain ⟨hread, hnext⟩ := hc.next (le_refl k) hd h.fits hds
    have hb : ¬ r'.byte (src + BitVec.ofNat 32 k) ≠ 0 := by rw [hread, h.nul]; exact not_not.2 rfl
    exact ⟨_, Loop.run_done (congrArg some (if_neg hb)) 0, hnext⟩
  | succ j ih =>
    obtain ⟨hread, hnext⟩ := hc.next (by omega) hd h.fits hds
    have hb : r'.byte (src + BitVec.ofNat 32 k) ≠ 0 := by rw [hread]; exact h.char k (by omega)
    rw [Loop.run_again (congrArg some (if_pos hb))]
    have hgo := ih (by omega) hnext
    rwa [← off_off, ← off_off] at hgo

/-- **strcpy** down, or to a place behind the string -/
theorem strcpy_returns {r : Ram 32} {dst src : Word} {L : ℕ} (h : StrAt r src L) (hd : dst.toNat + L < 2 ^ 32)
    (hds : Clear dst src (L + 1)) :
    ∃ r', (∀ n > L, strcpy n dst src r = some (dst, r')) ∧ Copying r dst src L (L + 1) r' := by
  obtain ⟨r', hrun, hc⟩ := strcpy_loop h hd hds L (Nat.zero_add L) ⟨.none _ _ _, .refl _ _⟩
  rw [off_zero, off_zero] at hrun
  refine ⟨r', fun n hn => ?_, hc⟩
  rw [strcpy, Loop.run_mono hrun hn]
  rfl

/-- **strcpy into the string itself never ends**: the bytes between source and destination are never zero. -/
theorem strcpy_never {r : Ram 32} {dst src : Word} {L : ℕ} (h : StrAt r src L) (hds : ¬ Clear dst src (L + 1)) (n : ℕ) :
    strcpy n dst src r = none := by
  obtain ⟨hlt, hle⟩ : src.toNat < dst.toNat ∧ dst.toNat < src.toNat + (L + 1) := by
    unfold Clear at hds
    omega
  obtain ⟨k, hk⟩ : ∃ k, dst.toNat = src.toNat + (k + 1) := ⟨dst.toNat - src.toNat - 1, by omega⟩
  have hdst : dst = src + BitVec.ofNat 32 (k + 1) := by
    apply BitVec.eq_of_toNat_eq
    rw [toNat_off (by omega), hk]
  have hwindow : ∀ i < k + 1, r.byte (src + BitVec.ofNat 32 i) ≠ 0 := fun i hi => h.char i (by omega)
  have hnever : Loop.run strcpyBody n (dst, src, r) = none := by
    rw [hdst]
    clear h hds hlt hle hk hdst
    induction n generalizing src r with
    | zero => rfl
    | succ n ih =>
      have hb : r.byte src ≠ 0 := by
        rw [← off_zero src]
        exact hwindow 0 (Nat.succ_pos k)
      rw [Loop.run_again (congrArg some (if_pos hb)), BitVec.add_assoc, BitVec.add_comm (BitVec.ofNat 32 (k + 1)),
        ← BitVec.add_assoc]
      apply ih
      intro i hi
      rw [movs_one, off_succ]
      by_cases he : src + BitVec.ofNat 32 (i + 1) = src + BitVec.ofNat 32 (k + 1)
      · rw [he, Function.update_self]
        exact hb
      · have hne : i ≠ k := fun h => he (by rw [h])
        rw [Function.update_of_ne he]
        exact hwindow (i + 1) (by omega)
  rw [strcpy, hnever]
  rfl

/-! ## strcat -/

theorem strlen_loop {r r' : Ram 32} {a : Word} {M : ℕ} (h : StrAt r a M) {k : ℕ} (j : ℕ) (hj : k + j = M)
    (hsame : r'.byte = r.byte) :
    ∃ r'', Loop.run strlenBody (j + 1) (BitVec.ofNat 32 k, a + BitVec.ofNat 32 k, r') = some (BitVec.ofNat 32 M, r'') ∧
      r''.byte = r.byte ∧ r'.Touched (fun x => ∃ i < M + 1, x = a + BitVec.ofNat 32 i) r'' := by
  induction j generalizing k r' with
  | zero =>
    obtain rfl : k = M := hj
    have hb : ¬ r'.byte (a + BitVec.ofNat 32 k) ≠ 0 := by rw [hsame, h.nul]; exact not_not.2 rfl
    have hone : r'.Touched (fun x => ∃ i < k + 1, x = a + BitVec.ofNat 32 i) (r'.loads (a + BitVec.ofNat 32 k) 1).2 :=
      touched_one ⟨k, by omega, rfl⟩
    exact ⟨(r'.loads (a + BitVec.ofNat 32 k) 1).2, Loop.run_done (congrArg some (if_neg hb)) 0, hsame, hone⟩
  | succ j ih =>
    have hb : r'.byte (a + BitVec.ofNat 32 k) ≠ 0 := by rw [hsame]; exact h.char k (by omega)
    rw [Loop.run_again (congrArg some (if_pos hb))]
    have hread : (r'.loads (a + BitVec.ofNat 32 k) 1).2.byte = r.byte := hsame
    obtain ⟨r'', hrun, hbyte, ht⟩ := @ih (r'.loads (a + BitVec.ofNat 32 k) 1).2 (k + 1) (by omega) hread
    have hone : r'.Touched (fun x => ∃ i < M + 1, x = a + BitVec.ofNat 32 i) (r'.loads (a + BitVec.ofNat 32 k) 1).2 :=
      touched_one ⟨k, by omega, rfl⟩
    refine ⟨r'', ?_, hbyte, hone.trans ht⟩
    rw [← off_off, BitVec.ofNat_add] at hrun
    exact hrun

/-- strlen, and the terminator of dst -/
theorem strlen_run {r : Ram 32} {a : Word} {M : ℕ} (h : StrAt r a M) :
    ∃ r₁, (∀ n > M, Loop.run strlenBody n (0, a, r) = some (BitVec.ofNat 32 M, r₁)) ∧ r₁.byte = r.byte ∧
      r.Touched (fun x => ∃ i < M + 1, x = a + BitVec.ofNat 32 i) r₁ := by
  obtain ⟨r₁, hrun, hbyte, ht⟩ := @strlen_loop r r a M h 0 M (Nat.zero_add M) rfl
  rw [off_zero] at hrun
  exact ⟨r₁, fun n hn => Loop.run_mono hrun hn, hbyte, ht⟩

theorem StrAt.congr {r r' : Ram 32} {a : Word} {L : ℕ} (h : StrAt r a L) (hsame : r'.byte = r.byte) : StrAt r' a L := by
  refine ⟨?_, ?_, h.fits⟩
  · rw [hsame]
    exact h.char
  · rw [hsame]
    exact h.nul

/-- **strcat**, if the terminator of dst is not in the string at src -/
theorem strcat_returns {r : Ram 32} {dst src : Word} {M L : ℕ} (hdst : StrAt r dst M) (h : StrAt r src L)
    (hfits : dst.toNat + M + L < 2 ^ 32) (hds : Clear (dst + BitVec.ofNat 32 M) src (L + 1)) :
    ∃ r', (∀ n > max M L, strcat n dst src r = some (dst, r')) ∧ StrAt r' dst (M + L) ∧
      Wrote r r' (dst + BitVec.ofNat 32 M) (fun i => r.byte (src + BitVec.ofNat 32 i)) (L + 1) ∧
      r.Touched (Either dst (M + L + 1) src (L + 1)) r' := by
  obtain ⟨r₁, hlen, hbyte, ht⟩ := strlen_run hdst
  have hend : (dst + BitVec.ofNat 32 M).toNat = dst.toNat + M := toNat_off hdst.fits
  obtain ⟨r', hcpy, hc⟩ := strcpy_returns (h.congr hbyte) (by rw [hend]; exact hfits) hds
  have hwrote := hc.wrote
  rw [hbyte] at hwrote
  have hwrote' : Wrote r r' (dst + BitVec.ofNat 32 M) (fun i => r.byte (src + BitVec.ofNat 32 i)) (L + 1) :=
    ⟨hwrote.bytes, fun x hx => (hwrote.frame x hx).trans (congrFun hbyte x)⟩
  refine ⟨r', fun n hn => ?_, ⟨?_, ?_, by omega⟩, hwrote', ?_⟩
  · rw [strcat, hlen n (by omega)]
    show (strcpy n (dst + BitVec.ofNat 32 M) src r₁).map _ = _
    rw [hcpy n (by omega)]
    rfl
  · intro i hi
    rcases Nat.lt_or_ge i M with hlt | hge
    · rw [hwrote'.frame _ fun j hj he => ?_]
      · exact hdst.char i hlt
      · rw [off_off] at he
        have := off_inj (by omega) (by omega) he
        omega
    · obtain ⟨j, rfl⟩ := Nat.exists_eq_add_of_le hge
      rw [← off_off, hwrote'.bytes j (by omega)]
      exact h.char j (by omega)
  · rw [← off_off, hwrote'.bytes L (Nat.lt_succ_self L)]
    exact h.nul
  · refine (ht.mono ?_).trans (hc.touched.mono ?_)
    · rintro x ⟨i, hi, rfl⟩
      exact Or.inl ⟨i, by omega, rfl⟩
    · rintro x (⟨i, hi, rfl⟩ | hx)
      · exact Or.inl ⟨M + i, by omega, off_off _ _ _⟩
      · exact Or.inr hx

theorem strcat_never {r : Ram 32} {dst src : Word} {M L : ℕ} (hdst : StrAt r dst M) (h : StrAt r src L)
    (hds : ¬ Clear (dst + BitVec.ofNat 32 M) src (L + 1)) (n : ℕ) : strcat n dst src r = none := by
  obtain ⟨r₁, hlen, hbyte, -⟩ := strlen_run hdst
  have hnever := strcpy_never (h.congr hbyte) hds n
  rw [strcat]
  cases hrun : Loop.run strlenBody n (0, dst, r) with
  | none => rfl
  | some b =>
    have hb : b = (BitVec.ofNat 32 M, r₁) := by
      have hmore := Loop.run_mono hrun (Nat.le_max_left n (M + 1))
      rw [hlen _ (by omega)] at hmore
      exact (Option.some.inj hmore).symm
    subst hb
    show (strcpy n (dst + BitVec.ofNat 32 M) src r₁).map _ = none
    rw [hnever]
    rfl

/-! ## strncpy -/

/-- after k rounds src points to byte k, or to the terminator -/
theorem strncpy_loop {r r' : Ram 32} {dst src : Word} {L size : ℕ} (h : StrAt r src L) (hd : dst.toNat + size ≤ 2 ^ 32)
    (hds : Clear dst src (min (L + 1) size)) {k : ℕ} (j : ℕ) (hj : k + j = size)
    (hw : Wrote r r' dst (zeroPadded r src L) k) (ht : r.Touched (Either dst size src (min (L + 1) size)) r') :
    Wrote r (strncpyLoop j (dst + BitVec.ofNat 32 k) (src + BitVec.ofNat 32 (min k L)) r') dst (zeroPadded r src L) size ∧
      r.Touched (Either dst size src (min (L + 1) size))
        (strncpyLoop j (dst + BitVec.ofNat 32 k) (src + BitVec.ofNat 32 (min k L)) r') := by
  induction j generalizing k r' with
  | zero =>
    obtain rfl : k = size := hj
    exact ⟨hw, ht⟩
  | succ j ih =>
    have hfits := h.fits
    -- the byte at src is that of the string, or a zero
    have hread : r'.byte (src + BitVec.ofNat 32 (min k L)) = zeroPadded r src L k := by
      rcases Nat.lt_or_ge k L with hlt | hge
      · rw [Nat.min_eq_left hlt.le, zeroPadded, if_pos hlt]
        exact hw.read hds (by omega) (le_refl k) (by omega) (by omega)
      · rw [Nat.min_eq_right hge, zeroPadded, if_neg (by omega)]
        by_cases hin : ∃ i < k, src + BitVec.ofNat 32 L = dst + BitVec.ofNat 32 i
        · obtain ⟨i, hi, he⟩ := hin
          have hnat := congrArg BitVec.toNat he
          rw [toNat_off hfits, toNat_off (by omega)] at hnat
          unfold Clear at hds
          rw [he, hw.bytes i hi, zeroPadded, if_neg (by omega)]
        · rw [hw.frame _ fun i hi he => hin ⟨i, hi, he⟩]
          exact h.nul
    have hmovs : (movs 1 (dst + BitVec.ofNat 32 k) (src + BitVec.ofNat 32 (min k L)) r').byte =
        Function.update r'.byte (dst + BitVec.ofNat 32 k) (zeroPadded r src L k) := by
      rw [movs_one, hread]
    -- it is read again behind the store, which may have been to the same place
    have hagain : (movs 1 (dst + BitVec.ofNat 32 k) (src + BitVec.ofNat 32 (min k L)) r').byte
        (src + BitVec.ofNat 32 (min k L)) = zeroPadded r src L k := by
      rw [hmovs]
      by_cases he : src + BitVec.ofNat 32 (min k L) = dst + BitVec.ofNat 32 k
      · rw [he, Function.update_self]
      · rw [Function.update_of_ne he, hread]
    have hnext : (if zeroPadded r src L k ≠ 0 then src + BitVec.ofNat 32 (min k L) + 1 else src + BitVec.ofNat 32 (min k L)) =
        src + BitVec.ofNat 32 (min (k + 1) L) := by
      rcases Nat.lt_or_ge k L with hlt | hge
      · have hb : zeroPadded r src L k ≠ 0 := by rw [zeroPadded, if_pos hlt]; exact h.char k hlt
        rw [if_pos hb, Nat.min_eq_left hlt.le, Nat.min_eq_left hlt]
        exact off_off src k 1
      · have hb : zeroPadded r src L k = 0 := by rw [zeroPadded, if_neg (by omega)]
        rw [if_neg (not_not.2 hb), Nat.min_eq_right hge, Nat.min_eq_right (by omega)]
    have hdst : Either dst size src (min (L + 1) size) (dst + BitVec.ofNat 32 k) := Or.inl ⟨k, by omega, rfl⟩
    have hsrc : Either dst size src (min (L + 1) size) (src + BitVec.ofNat 32 (min k L)) := Or.inr ⟨min k L, by omega, rfl⟩
    have hw' : Wrote r ((movs 1 (dst + BitVec.ofNat 32 k) (src + BitVec.ofNat 32 (min k L)) r').loads
        (src + BitVec.ofNat 32 (min k L)) 1).2 dst (zeroPadded r src L) (k + 1) := hw.snoc (by omega) hmovs
    have hgo := ih (k := k + 1) (by omega) hw' ((ht.trans (touched_movs hdst hsrc)).trans (touched_one hsrc))
    rw [← off_off] at hgo
    rw [strncpyLoop, hagain, hnext]
    exact hgo

/-- **strncpy** down, or to a place behind what it reads: the string, cut off or filled up to size bytes. -/
theorem strncpy_spec {r : Ram 32} {dst src size : Word} {L : ℕ} (h : StrAt r src L)
    (hd : dst.toNat + size.toNat ≤ 2 ^ 32) (hds : Clear dst src (min (L + 1) size.toNat)) :
    ∃ r', strncpy dst src size r = (dst, r') ∧ Wrote r r' dst (zeroPadded r src L) size.toNat ∧
      r.Touched (Either dst size.toNat src (min (L + 1) size.toNat)) r' := by
  have hloop := strncpy_loop h hd hds size.toNat (Nat.zero_add _) (.none r dst _) (.refl _ _)
  rw [Nat.zero_min, off_zero, off_zero] at hloop
  exact ⟨_, rfl, hloop⟩

/-! ## strlcpy -/

/-- after k rounds, with j more to go at most -/
theorem strlcpy_loop {r r' : Ram 32} {dst src : Word} {L size : ℕ} (h : StrAt r src L) (hd : dst.toNat + size < 2 ^ 32)
    (hds : Clear dst src (min (L + 1) size)) {k : ℕ} (j : ℕ) (hj : k + j = size) (hk : k ≤ L)
    (hw : Wrote r r' dst (fun i => r.byte (src + BitVec.ofNat 32 i)) k)
    (ht : r.Touched (Either dst (size + 1) src (min (L + 1) size)) r') :
    ∃ r'', strlcpyLoop j (dst + BitVec.ofNat 32 k) (src + BitVec.ofNat 32 k) r' =
        (dst + BitVec.ofNat 32 (min L size), r'') ∧
      Wrote r r'' dst (fun i => r.byte (src + BitVec.ofNat 32 i)) (min L size) ∧
      r.Touched (Either dst (size + 1) src (min (L + 1) size)) r'' := by
  have hfits := h.fits
  induction j generalizing k r' with
  | zero =>
    obtain rfl : k = size := hj
    rw [Nat.min_eq_right hk]
    rw [Nat.min_eq_right (by omega)] at ht
    exact ⟨r', rfl, hw, by rwa [Nat.min_eq_right (by omega)]⟩
  | succ j ih =>
    have hread : r'.byte (src + BitVec.ofNat 32 k) = r.byte (src + BitVec.ofNat 32 k) :=
      hw.read hds (by omega) (le_refl k) (by omega) (by omega)
    have hsrc : Either dst (size + 1) src (min (L + 1) size) (src + BitVec.ofNat 32 k) := Or.inr ⟨k, by omega, rfl⟩
    have hdst : Either dst (size + 1) src (min (L + 1) size) (dst + BitVec.ofNat 32 k) := Or.inl ⟨k, by omega, rfl⟩
    rw [strlcpyLoop, hread]
    rcases Nat.lt_or_ge k L with hlt | hge
    · rw [if_pos (h.char k hlt)]
      have hw' : Wrote r (movs 1 (dst + BitVec.ofNat 32 k) (src + BitVec.ofNat 32 k)
          (r'.loads (src + BitVec.ofNat 32 k) 1).2) dst (fun i => r.byte (src + BitVec.ofNat 32 i)) (k + 1) := by
        apply hw.snoc (by omega)
        rw [movs_one]
        exact congrArg (Function.update r'.byte _) hread
      have hgo := ih (k := k + 1) (by omega) hlt hw' ((ht.trans (touched_one hsrc)).trans (touched_movs hdst hsrc))
      rwa [← off_off, ← off_off] at hgo
    · obtain rfl : k = L := by omega
      rw [if_neg (not_not.2 h.nul), Nat.min_eq_left (by omega)]
      exact ⟨_, rfl, ⟨hw.bytes, hw.frame⟩, ht.trans (touched_one hsrc)⟩

/-- a terminator behind n characters -/
theorem Wrote.terminate {r r' : Ram 32} {d : Word} {f : ℕ → Byte} {n : ℕ} (h : Wrote r r' d f n)
    (hfit : d.toNat + n < 2 ^ 32) (hf : ∀ i < n, f i ≠ 0) :
    Wrote r (r'.st8 (d + BitVec.ofNat 32 n) 0) d (fun i => if i < n then f i else 0) (n + 1) ∧
      StrAt (r'.st8 (d + BitVec.ofNat 32 n) 0) d n := by
  have hsame : Wrote r r' d (fun i => if i < n then f i else 0) n :=
    ⟨fun i hi => (h.bytes i hi).trans (if_pos hi).symm, h.frame⟩
  have hw : Wrote r (r'.st8 (d + BitVec.ofNat 32 n) 0) d (fun i => if i < n then f i else 0) (n + 1) := by
    apply hsame.snoc hfit
    rw [if_neg (lt_irrefl n)]
    rfl
  refine ⟨hw, fun i hi => ?_, ?_, hfit⟩
  · rw [hw.bytes i (by omega), if_pos hi]
    exact hf i hi
  · rw [hw.bytes n (Nat.lt_succ_self n), if_neg (lt_irrefl n)]

/-- **strlcpy** down, or to a place behind what it reads: the string, cut off to leave room for a terminator. -/
theorem strlcpy_spec {r : Ram 32} {dst src size : Word} {L : ℕ} (h : StrAt r src L) (hpos : 0 < size)
    (hd : dst.toNat + size.toNat ≤ 2 ^ 32)
    (hds : Clear dst src (min (L + 1) (size.toNat - 1))) :
    ∃ r', strlcpy dst src size r = (BitVec.ofNat 32 (min L (size.toNat - 1)), r') ∧
      StrAt r' dst (min L (size.toNat - 1)) ∧
      Wrote r r' dst (zeroPadded r src (min L (size.toNat - 1))) (min L (size.toNat - 1) + 1) ∧
      r.Touched (Either dst size.toNat src (min (L + 1) (size.toNat - 1))) r' := by
  have hsize : 0 < size.toNat := hpos
  have hfits := h.fits
  obtain ⟨r₁, hloop, hw, ht⟩ := strlcpy_loop h (by omega) hds (size.toNat - 1) (Nat.zero_add _) (Nat.zero_le L)
    (.none r dst _) (.refl _ _)
  rw [off_zero, off_zero] at hloop
  generalize hn : min L (size.toNat - 1) = n at hloop hw ⊢
  have hle : n ≤ L := by omega
  obtain ⟨hw', hstr⟩ := hw.terminate (by omega) fun i hi => h.char i (by omega)
  refine ⟨_, ?_, hstr, hw', ?_⟩
  · rw [strlcpy, if_pos hpos, hloop]
    show (dst + BitVec.ofNat 32 n - dst, _) = _
    rw [BitVec.add_comm, BitVec.add_sub_cancel]
  · rw [show size.toNat - 1 + 1 = size.toNat by omega] at ht
    exact touched_st8 ht (Or.inl ⟨n, by omega, rfl⟩) 0

/-! ## Into the string itself -/

section Overlap

variable {r : Ram 32} {src : Word} {L k : ℕ}

theorem repeated_ne_zero (h : StrAt r src L) (hk : 0 < k) (hkL : k ≤ L) (i : ℕ) : repeated r src k i ≠ 0 :=
  h.char _ (lt_of_lt_of_le (Nat.mod_lt i hk) hkL)

/-- the next byte of the source is one of the k bytes, or has been written by the copy -/
theorem Wrote.read_repeated {r' : Ram 32} {n : ℕ} (h : Wrote r r' (src + BitVec.ofNat 32 k) (repeated r src k) n)
    (hk : 0 < k) (hfit : src.toNat + k + n < 2 ^ 32) : r'.byte (src + BitVec.ofNat 32 n) = repeated r src k n := by
  rcases Nat.lt_or_ge n k with hlt | hge
  · rw [repeated, Nat.mod_eq_of_lt hlt]
    apply h.frame
    intro i hi he
    rw [off_off] at he
    have := off_inj (by omega) (by omega) he
    omega
  · obtain ⟨i, rfl⟩ := Nat.exists_eq_add_of_le hge
    rw [← off_off, h.bytes i (by omega), repeated, repeated, Nat.add_mod_left]

theorem off_ne {n : ℕ} (hk : 0 < k) (hfit : src.toNat + k + n < 2 ^ 32) :
    src + BitVec.ofNat 32 n ≠ src + BitVec.ofNat 32 k + BitVec.ofNat 32 n := by
  intro he
  rw [off_off] at he
  have := off_inj (by omega) (by omega) he
  omega

theorem strncpy_repeats_loop (h : StrAt r src L) (hk : 0 < k) (hkL : k ≤ L) {size : ℕ}
    (hfit : src.toNat + k + size ≤ 2 ^ 32) {r' : Ram 32} {n : ℕ} (j : ℕ) (hj : n + j = size)
    (hw : Wrote r r' (src + BitVec.ofNat 32 k) (repeated r src k) n)
    (ht : r.Touched (Either (src + BitVec.ofNat 32 k) size src size) r') :
    Wrote r (strncpyLoop j (src + BitVec.ofNat 32 k + BitVec.ofNat 32 n) (src + BitVec.ofNat 32 n) r')
        (src + BitVec.ofNat 32 k) (repeated r src k) size ∧
      r.Touched (Either (src + BitVec.ofNat 32 k) size src size)
        (strncpyLoop j (src + BitVec.ofNat 32 k + BitVec.ofNat 32 n) (src + BitVec.ofNat 32 n) r') := by
  induction j generalizing n r' with
  | zero =>
    obtain rfl : n = size := hj
    exact ⟨hw, ht⟩
  | succ j ih =>
    have hkfit : (src + BitVec.ofNat 32 k).toNat = src.toNat + k := toNat_off (by omega)
    have hread := hw.read_repeated hk (by omega)
    have hmovs : (movs 1 (src + BitVec.ofNat 32 k + BitVec.ofNat 32 n) (src + BitVec.ofNat 32 n) r').byte =
        Function.update r'.byte (src + BitVec.ofNat 32 k + BitVec.ofNat 32 n) (repeated r src k n) := by
      rw [movs_one, hread]
    -- the store has not changed the byte that is read again
    have hagain : (movs 1 (src + BitVec.ofNat 32 k + BitVec.ofNat 32 n) (src + BitVec.ofNat 32 n) r').byte
        (src + BitVec.ofNat 32 n) = repeated r src k n := by
      rw [hmovs, Function.update_of_ne (off_ne hk (by omega)), hread]
    have hdst : Either (src + BitVec.ofNat 32 k) size src size (src + BitVec.ofNat 32 k + BitVec.ofNat 32 n) :=
      Or.inl ⟨n, by omega, rfl⟩
    have hsrc : Either (src + BitVec.ofNat 32 k) size src size (src + BitVec.ofNat 32 n) := Or.inr ⟨n, by omega, rfl⟩
    have hw' : Wrote r ((movs 1 (src + BitVec.ofNat 32 k + BitVec.ofNat 32 n) (src + BitVec.ofNat 32 n) r').loads
        (src + BitVec.ofNat 32 n) 1).2 (src + BitVec.ofNat 32 k) (repeated r src k) (n + 1) := hw.snoc (by omega) hmovs
    have hgo := ih (n := n + 1) (by omega) hw' ((ht.trans (touched_movs hdst hsrc)).trans (touched_one hsrc))
    rw [← off_off, ← off_off src n 1] at hgo
    rw [strncpyLoop, hagain, if_pos (repeated_ne_zero h hk hkL n)]
    exact hgo

theorem strlcpy_repeats_loop (h : StrAt r src L) (hk : 0 < k) (hkL : k ≤ L) {m : ℕ}
    (hfit : src.toNat + k + m < 2 ^ 32) {r' : Ram 32} {n : ℕ} (j : ℕ) (hj : n + j = m)
    (hw : Wrote r r' (src + BitVec.ofNat 32 k) (repeated r src k) n)
    (ht : r.Touched (Either (src + BitVec.ofNat 32 k) (m + 1) src m) r') :
    ∃ r'', strlcpyLoop j (src + BitVec.ofNat 32 k + BitVec.ofNat 32 n) (src + BitVec.ofNat 32 n) r' =
        (src + BitVec.ofNat 32 k + BitVec.ofNat 32 m, r'') ∧
      Wrote r r'' (src + BitVec.ofNat 32 k) (repeated r src k) m ∧
      r.Touched (Either (src + BitVec.ofNat 32 k) (m + 1) src m) r'' := by
  induction j generalizing n r' with
  | zero =>
    obtain rfl : n = m := hj
    exact ⟨r', rfl, hw, ht⟩
  | succ j ih =>
    have hkfit : (src + BitVec.ofNat 32 k).toNat = src.toNat + k := toNat_off (by omega)
    have hread := hw.read_repeated hk (by omega)
    have hsrc : Either (src + BitVec.ofNat 32 k) (m + 1) src m (src + BitVec.ofNat 32 n) := Or.inr ⟨n, by omega, rfl⟩
    have hdst : Either (src + BitVec.ofNat 32 k) (m + 1) src m (src + BitVec.ofNat 32 k + BitVec.ofNat 32 n) :=
      Or.inl ⟨n, by omega, rfl⟩
    have hw' : Wrote r (movs 1 (src + BitVec.ofNat 32 k + BitVec.ofNat 32 n) (src + BitVec.ofNat 32 n)
        (r'.loads (src + BitVec.ofNat 32 n) 1).2) (src + BitVec.ofNat 32 k) (repeated r src k) (n + 1) := by
      apply hw.snoc (by omega)
      rw [movs_one]
      exact congrArg (Function.update r'.byte _) hread
    have hgo := ih (n := n + 1) (by omega) hw' ((ht.trans (touched_one hsrc)).trans (touched_movs hdst hsrc))
    rw [← off_off, ← off_off src n 1] at hgo
    rw [strlcpyLoop, hread, if_pos (repeated_ne_zero h hk hkL n)]
    exact hgo

/-- a destination in the string, of which m bytes are read -/
theorem overlap {dst : Word} {m : ℕ} (hds : ¬ Clear dst src (min (L + 1) m)) :
    ∃ k, dst.toNat - src.toNat = k ∧ dst.toNat = src.toNat + k ∧ dst = src + BitVec.ofNat 32 k ∧ 0 < k ∧ k ≤ L := by
  have hlt := dst.isLt
  unfold Clear at hds
  refine ⟨dst.toNat - src.toNat, rfl, by omega, ?_, by omega, by omega⟩
  apply BitVec.eq_of_toNat_eq
  rw [toNat_off (by omega)]
  omega

/-- **strncpy into the string itself** -/
theorem strncpy_repeats (h : StrAt r src L) {dst size : Word} (hd : dst.toNat + size.toNat ≤ 2 ^ 32)
    (hds : ¬ Clear dst src (min (L + 1) size.toNat)) :
    ∃ r', strncpy dst src size r = (dst, r') ∧ Wrote r r' dst (repeated r src (dst.toNat - src.toNat)) size.toNat ∧
      r.Touched (Either dst size.toNat src size.toNat) r' := by
  obtain ⟨k, hk, hnat, rfl, hpos, hle⟩ := overlap hds
  have hloop := strncpy_repeats_loop h hpos hle (by omega) size.toNat (Nat.zero_add _) (.none r _ _) (.refl _ _)
  rw [off_zero, off_zero] at hloop
  rw [hk]
  exact ⟨_, rfl, hloop⟩

/-- **strlcpy into the string itself** -/
theorem strlcpy_repeats (h : StrAt r src L) {dst size : Word} (hpos : 0 < size) (hd : dst.toNat + size.toNat ≤ 2 ^ 32)
    (hds : ¬ Clear dst src (min (L + 1) (size.toNat - 1))) :
    ∃ r', strlcpy dst src size r = (BitVec.ofNat 32 (size.toNat - 1), r') ∧ StrAt r' dst (size.toNat - 1) ∧
      Wrote r r' dst (fun i => if i < size.toNat - 1 then repeated r src (dst.toNat - src.toNat) i else 0) size.toNat ∧
      r.Touched (Either dst size.toNat src (size.toNat - 1)) r' := by
  have hsize : 0 < size.toNat := hpos
  obtain ⟨k, hk, hnat, rfl, hkpos, hle⟩ := overlap hds
  rw [hk]
  generalize hm : size.toNat - 1 = m
  rw [show size.toNat = m + 1 by omega] at hd ⊢
  obtain ⟨r₁, hloop, hw, ht⟩ := strlcpy_repeats_loop h hkpos hle (m := m) (by omega) m (Nat.zero_add _) (.none r _ _)
    (.refl _ _)
  rw [off_zero, off_zero] at hloop
  obtain ⟨hw', hstr⟩ := hw.terminate (by omega) fun i _ => repeated_ne_zero h hkpos hle i
  refine ⟨_, ?_, hstr, hw', touched_st8 ht (Or.inl ⟨m, by omega, rfl⟩) 0⟩
  rw [strlcpy, if_pos hpos, hm, hloop]
  show (src + BitVec.ofNat 32 k + BitVec.ofNat 32 m - (src + BitVec.ofNat 32 k), _) = _
  rw [BitVec.add_comm, BitVec.add_sub_cancel]

end Overlap

/-! ## All four -/

theorem StrAt.zeroPadded_eq {r : Ram 32} {src : Word} {L : ℕ} (h : StrAt r src L) {i : ℕ} (hi : i ≤ L) :
    zeroPadded r src L i = r.byte (src + BitVec.ofNat 32 i) := by
  unfold zeroPadded
  split_ifs with hlt
  · rfl
  · obtain rfl : i = L := by omega
    exact h.nul.symm

theorem Wrote.congr {r r' : Ram 32} {d : Word} {f g : ℕ → Byte} {n : ℕ} (h : Wrote r r' d f n) (hfg : ∀ i < n, f i = g i) :
    Wrote r r' d g n :=
  ⟨fun i hi => (h.bytes i hi).trans (hfg i hi), h.frame⟩

/-- **The copying functions**, for a string of L bytes at src. strcpy writes its L + 1 bytes, and so does strcat behind
the string at dst, if the copy does not run into the string; if it does, they never return. strncpy writes size bytes,
filled up with zeros. strlcpy leaves a string of size - 1 bytes at most, whose length it returns. Where these two run into
what they have still to read, they repeat the bytes from src to dst, up to size bytes, or size - 1 and a terminator.
Nothing else is written, and nothing else of the source is read than what can be copied. -/
theorem copies {r : Ram 32} {src : Word} {L : ℕ} (h : StrAt r src L) (dst : Word) :
    (dst.toNat + L < 2 ^ 32 →
      (Clear dst src (L + 1) → ∃ r', (∀ n > L, strcpy n dst src r = some (dst, r')) ∧
        Wrote r r' dst (zeroPadded r src L) (L + 1) ∧ r.Touched (Either dst (L + 1) src (L + 1)) r') ∧
      (¬ Clear dst src (L + 1) → ∀ n, strcpy n dst src r = none)) ∧
    (∀ M, StrAt r dst M → dst.toNat + M + L < 2 ^ 32 →
      (Clear (dst + BitVec.ofNat 32 M) src (L + 1) → ∃ r', (∀ n > max M L, strcat n dst src r = some (dst, r')) ∧
        StrAt r' dst (M + L) ∧ Wrote r r' (dst + BitVec.ofNat 32 M) (zeroPadded r src L) (L + 1) ∧
          r.Touched (Either dst (M + L + 1) src (L + 1)) r') ∧
      (¬ Clear (dst + BitVec.ofNat 32 M) src (L + 1) → ∀ n, strcat n dst src r = none)) ∧
    (∀ size : Word, dst.toNat + size.toNat ≤ 2 ^ 32 →
      (Clear dst src (min (L + 1) size.toNat) →
        ∃ r', strncpy dst src size r = (dst, r') ∧ Wrote r r' dst (zeroPadded r src L) size.toNat ∧
          r.Touched (Either dst size.toNat src (min (L + 1) size.toNat)) r') ∧
      (¬ Clear dst src (min (L + 1) size.toNat) →
        ∃ r', strncpy dst src size r = (dst, r') ∧ Wrote r r' dst (repeated r src (dst.toNat - src.toNat)) size.toNat ∧
          r.Touched (Either dst size.toNat src size.toNat) r')) ∧
    (∀ size : Word, dst.toNat + size.toNat ≤ 2 ^ 32 →
      if size = 0 then strlcpy dst src size r = (0, r) else
        (Clear dst src (min (L + 1) (size.toNat - 1)) →
          let n := min L (size.toNat - 1)
          ∃ r', strlcpy dst src size r = (BitVec.ofNat 32 n, r') ∧ StrAt r' dst n ∧
            Wrote r r' dst (zeroPadded r src n) (n + 1) ∧
              r.Touched (Either dst size.toNat src (min (L + 1) (size.toNat - 1))) r') ∧
        (¬ Clear dst src (min (L + 1) (size.toNat - 1)) →
          ∃ r', strlcpy dst src size r = (BitVec.ofNat 32 (size.toNat - 1), r') ∧ StrAt r' dst (size.toNat - 1) ∧
            Wrote r r' dst (fun i => if i < size.toNat - 1 then repeated r src (dst.toNat - src.toNat) i else 0)
              size.toNat ∧
              r.Touched (Either dst size.toNat src (size.toNat - 1)) r')) := by
  refine ⟨fun hd => ⟨fun hds => ?_, strcpy_never h⟩, fun M hM hd => ⟨fun hds => ?_, strcat_never hM h⟩,
    fun size hd => ⟨fun hds => strncpy_spec h hd hds, fun hds => strncpy_repeats h hd hds⟩, fun size hd => ?_⟩
  · obtain ⟨r', hrun, hc⟩ := strcpy_returns h hd hds
    exact ⟨r', hrun, hc.wrote.congr fun i hi => (h.zeroPadded_eq (Nat.le_of_lt_succ hi)).symm, hc.touched⟩
  · obtain ⟨r', hrun, hstr, hw, ht⟩ := strcat_returns hM h hd hds
    exact ⟨r', hrun, hstr, hw.congr fun i hi => (h.zeroPadded_eq (Nat.le_of_lt_succ hi)).symm, ht⟩
  · split_ifs with hzero
    · rw [strlcpy, hzero]
      rfl
    · have hpos : 0 < size := (BitVec.pos_iff_ne_zero size).2 hzero
      exact ⟨fun hds => strlcpy_spec h hpos hd hds, fun hds => strlcpy_repeats h hpos hd hds⟩

/-- "hi" at 0x1000 -/
def hiRam : Ram 32 := ⟨fun x => if x = 0x1000 then chr 'h' else if x = 0x1001 then chr 'i' else 0, []⟩

/-- one byte down, and one byte up; four bytes of strncpy one byte up are hhhh -/
theorem copies_hi : (∃ r', ∀ n > 2, strcpy n 0xFFF 0x1000 hiRam = some (0xFFF, r')) ∧
    (∀ n, strcpy n 0x1001 0x1000 hiRam = none) ∧
    ∃ r', strncpy 0x1001 0x1000 4 hiRam = (0x1001, r') ∧ ∀ i < 4, r'.byte (0x1001 + BitVec.ofNat 32 i) = chr 'h' := by
  have h : StrAt hiRam 0x1000 2 := ⟨by decide, by decide, by decide⟩
  obtain ⟨r', hrun, -⟩ := ((copies h 0xFFF).1 (by decide)).1 (Or.inl (by decide))
  obtain ⟨r₄, hrun₄, hw, -⟩ := ((copies h 0x1001).2.2.1 4 (by decide)).2 (by unfold Clear; decide)
  refine ⟨⟨r', hrun⟩, ((copies h 0x1001).1 (by decide)).2 (by unfold Clear; decide), r₄, hrun₄, fun i hi => ?_⟩
  rw [hw.bytes i hi, repeated, show (0x1001 : Word).toNat - (0x1000 : Word).toNat = 1 by decide, Nat.mod_one]
  rfl

end Jos
