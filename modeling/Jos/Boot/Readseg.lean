/-
`readseg` of boot/main.c: which bytes of memory it writes, and with which bytes of the disk.

Memory and disk are both rounded down to a sector and then advance in step. A sector written is a sector that holds a
byte below `pa + count`, so a start or an end inside a sector copies more than was asked for.

- `Disk.Ready`: what the loader relies on, a disk that is ready again after some number of polls.
- `readsect_reads`: one sector.
- `Reads`: the loop's invariant; `Reads.step` is one turn, `readseg_some` the whole call, if it returns.
- `readseg_ends`, `readseg_never`: whether it does.
-/
import Jos.Boot.Model

namespace Jos.Boot

open Loop (Gives gives_run)

/-- the disk is ready at some later poll, always -/
def Disk.Ready (d : Disk) : Prop := ∀ n, ∃ k, d.status (n + k) &&& 0xC0 = 0x40

variable {d : Disk}

/-! ## One sector -/

/-- waiting ends, and changes nothing but the number of polls -/
theorem waitdisk_ready (hd : d.Ready) (m : Machine) :
    ∃ k, Gives (fun n => waitdisk d n m) { m with polls := m.polls + k } := by
  obtain ⟨k, hk⟩ := hd m.polls
  obtain ⟨m', hm', j, rfl⟩ : ∃ m', Gives (fun n => waitdisk d n m) m' ∧ ∃ j, m' = { m with polls := m.polls + j } := by
    apply gives_run (fun s => ∃ j ≤ k, s = { m with polls := m.polls + j }) (fun s => m.polls + k - s.polls)
    · rintro s ⟨j, hj, rfl⟩
      by_cases hs : d.status (m.polls + j) &&& 0xC0 = 0x40
      · refine .inr ⟨{ m with polls := m.polls + (j + 1) }, ⟨0, fun n _ => ?_⟩, j + 1, rfl⟩
        simp only [waitdiskBody, Machine.inStatus, hs, ne_eq, not_true_eq_false, if_false]
        rfl
      · have hjk : j ≠ k := by
          rintro rfl
          exact hs hk
        refine .inl ⟨{ m with polls := m.polls + (j + 1) }, ⟨0, fun n _ => ?_⟩, ⟨j + 1, by omega, rfl⟩, ?_⟩
        · simp only [waitdiskBody, Machine.inStatus, ne_eq, hs, not_false_eq_true, if_true]
          rfl
        · show m.polls + k - (m.polls + (j + 1)) < m.polls + k - (m.polls + j)
          omega
    · exact ⟨0, by omega, rfl⟩
  exact ⟨j, hm'⟩

theorem outb_register {p : BitVec 16} (hp : p ≠ 0x1F7) (v : Byte) (m : Machine) :
    m.outb p v = m.outw p (v.zeroExtend 16) := if_neg fun h => hp h.1

/-- a byte written to a register comes back from it -/
theorem register_byte (v : Byte) : (v.zeroExtend 16).setWidth 8 = v := by simp

/-- the drive register takes four bits of the sector number -/
theorem drive_bits (x : Word) : ((low (x ||| 0xE0)).zeroExtend 16).setWidth 4 = x.setWidth 4 := by
  have hE0 : (0xE0 : Word).setWidth 4 = 0#4 := by decide
  have hlow : ((low (x ||| 0xE0)).zeroExtend 16).setWidth 4 = (x ||| 0xE0).setWidth 4 := by simp [low]
  rw [hlow, BitVec.setWidth_or, hE0, BitVec.or_zero]

/-- the four registers hold the low 28 bits of the sector number -/
theorem register_bits (offset : Word) :
    (((low ((offset >>> 24) ||| 0xE0)).zeroExtend 16).setWidth 4 ++ low (offset >>> 16) ++ low (offset >>> 8) ++
      low offset : BitVec 28) = offset.setWidth 28 := by
  have h16 : offset >>> 16 >>> 8 = offset >>> 24 := (BitVec.shiftRight_add offset 16 8).symm
  have h8 : offset >>> 8 >>> 8 = offset >>> 16 := (BitVec.shiftRight_add offset 8 8).symm
  -- one register after the other
  calc _ = (offset >>> 16 >>> 8).setWidth 4 ++ low (offset >>> 16) ++ low (offset >>> 8) ++ low offset := by
        rw [drive_bits, h16]
    _ = (offset >>> 8 >>> 8).setWidth 12 ++ low (offset >>> 8) ++ low offset := by
        rw [h8]
        exact congrArg (· ++ low (offset >>> 8) ++ low offset) (Ram.append_low (offset >>> 16) 4)
    _ = (offset >>> 8).setWidth 20 ++ low offset := congrArg (· ++ low offset) (Ram.append_low (offset >>> 8) 12)
    _ = offset.setWidth 28 := Ram.append_low offset 20

/-- the command asks for the sector the caller means, if 28 bits can name it -/
theorem askSector_asks (offset : Word) (m : Machine) :
    ∃ port, askSector offset m = { m with port := port, sectors := offset.toNat % 2 ^ 28 :: m.sectors } := by
  have hlba : offset.toNat % 2 ^ 28 = (offset.setWidth 28).toNat := (BitVec.toNat_setWidth 28 offset).symm
  rw [hlba, ← register_bits, ← register_byte (low offset), ← register_byte (low (offset >>> 8)),
    ← register_byte (low (offset >>> 16))]
  rw [askSector]
  simp only [outb_register (p := 0x1F2) (by decide), outb_register (p := 0x1F3) (by decide),
    outb_register (p := 0x1F4) (by decide), outb_register (p := 0x1F5) (by decide), outb_register (p := 0x1F6) (by decide)]
  rw [Machine.outb, if_pos ⟨rfl, rfl⟩]
  exact ⟨_, rfl⟩

@[simp] theorem insl_sectors (dst : Word) (cnt : ℕ) (m : Machine) : (m.insl d dst cnt).sectors = m.sectors := rfl

theorem insl_byte {dst : Word} {cnt : ℕ} (h : dst.toNat + 4 * cnt ≤ 2 ^ 32) (m : Machine) (x : Word) :
    (m.insl d dst cnt).ram.byte x = if dst.toNat ≤ x.toNat ∧ x.toNat < dst.toNat + 4 * cnt then
      d.byte (512 * m.sectors.headD 0 + (x.toNat - dst.toNat)) else m.ram.byte x := by
  rw [Machine.insl]
  show (m.ram.stores dst _).byte x = _
  rw [Ram.stores_byte _ _ (by simpa using h), List.getElem?_map]
  by_cases hx : dst.toNat ≤ x.toNat
  · by_cases hlt : x.toNat < dst.toNat + 4 * cnt
    · rw [if_pos hx, if_pos ⟨hx, hlt⟩, List.getElem?_range (by omega)]
      rfl
    · rw [if_pos hx, if_neg (by omega), List.getElem?_eq_none (by simp; omega)]
      rfl
  · rw [if_neg hx, if_neg (by omega)]

/-- waiting changes nothing but the number of polls -/
theorem waitdisk_polls {n : ℕ} {m m' : Machine} (h : waitdisk d n m = some m') : ∃ k, m' = { m with polls := k } := by
  refine Loop.run_partial (fun s => ∃ k, s = { m with polls := k }) (fun s => ∃ k, s = { m with polls := k }) ?_ ?_
    ⟨m.polls, rfl⟩ h
  · rintro s s' ⟨k, rfl⟩ hb
    have hb := Option.some.inj hb
    simp only at hb
    split_ifs at hb
    cases hb
    exact ⟨k + 1, rfl⟩
  · rintro s b ⟨k, rfl⟩ hb
    have hb := Option.some.inj hb
    simp only at hb
    split_ifs at hb
    cases hb
    exact ⟨k + 1, rfl⟩

/-- **One sector.** 512 bytes of memory from dst on get the bytes of the sector. -/
theorem readsect_reads {n : ℕ} {dst offset : Word} {m m' : Machine} (h : readsect d n dst offset m = some m')
    (hdst : dst.toNat + 512 ≤ 2 ^ 32) (hoff : offset.toNat < 2 ^ 28) :
    m'.sectors = offset.toNat :: m.sectors ∧
      ∀ x, m'.ram.byte x = if dst.toNat ≤ x.toNat ∧ x.toNat < dst.toNat + 512 then
        d.byte (512 * offset.toNat + (x.toNat - dst.toNat)) else m.ram.byte x := by
  obtain ⟨m₁, h₁, h⟩ := Option.bind_eq_some_iff.1 h
  obtain ⟨m₂, h₂, rfl⟩ := Option.map_eq_some_iff.1 h
  obtain ⟨j, rfl⟩ := waitdisk_polls h₁
  obtain ⟨k, rfl⟩ := waitdisk_polls h₂
  obtain ⟨port, hport⟩ := askSector_asks offset { m with polls := j }
  rw [Nat.mod_eq_of_lt hoff] at hport
  have hwords : SECTSIZE.toNat / 4 = 128 := by decide
  refine ⟨?_, fun x => ?_⟩
  · rw [insl_sectors, hport]
  · rw [hwords, insl_byte (by omega), hport]
    rfl

/-- a disk that gets ready returns a sector, whichever is asked for -/
theorem readsect_ready (hd : d.Ready) (dst offset : Word) (m : Machine) :
    ∃ m', Gives (fun n => readsect d n dst offset m) m' := by
  obtain ⟨j, hj⟩ := waitdisk_ready hd m
  obtain ⟨k, hk⟩ := waitdisk_ready hd (askSector offset { m with polls := m.polls + j })
  exact ⟨_, hj.bind (hk.map (Machine.insl d dst (SECTSIZE.toNat / 4)))⟩

/-! ## A segment -/

/-- the sector of memory that holds x is read: it is not before pa's, and begins before pa + count -/
def Covered (pa count x : Word) : Prop :=
  pa.toNat / 512 ≤ x.toNat / 512 ∧ 512 * (x.toNat / 512) < pa.toNat + count.toNat

instance (pa count x : Word) : Decidable (Covered pa count x) := inferInstanceAs (Decidable (_ ∧ _))

/-- the byte of the disk that goes to x -/
def source (pa offset x : Word) : ℕ := 512 * (offset.toNat / 512 + 1) + (x.toNat - 512 * (pa.toNat / 512))

theorem roundDown_toNat (pa : Word) : (pa &&& ~~~(SECTSIZE - 1)).toNat = 512 * (pa.toNat / 512) := by
  have h : pa &&& ~~~(SECTSIZE - 1) = pa >>> 9 <<< 9 := by
    apply BitVec.eq_of_getLsbD_eq
    intro i hi
    have hmask : ∀ i < 32, (~~~(SECTSIZE - 1)).getLsbD i = decide (9 ≤ i) := by decide
    rw [BitVec.getLsbD_and, hmask i hi, BitVec.getLsbD_shiftLeft, BitVec.getLsbD_ushiftRight]
    rcases Nat.lt_or_ge i 9 with h9 | h9
    · simp [show ¬ 9 ≤ i by omega, h9]
    · simp [h9, hi, show ¬ i < 9 by omega, show 9 + (i - 9) = i by omega]
  have := pa.isLt
  rw [h, BitVec.toNat_shiftLeft, BitVec.toNat_ushiftRight, Nat.shiftRight_eq_div_pow, Nat.shiftLeft_eq,
    Nat.mod_eq_of_lt (by omega)]
  omega

theorem endPa_toNat {pa count : Word} (h : pa.toNat + count.toNat ≤ 2 ^ 32 - 512) :
    (pa + count).toNat = pa.toNat + count.toNat := by
  rw [BitVec.toNat_add, Nat.mod_eq_of_lt (by omega)]

theorem firstSector_toNat (offset : Word) : (offset / SECTSIZE + 1).toNat = offset.toNat / 512 + 1 := by
  have := offset.isLt
  rw [BitVec.toNat_add, BitVec.toNat_udiv]
  show (offset.toNat / 512 + 1) % 2 ^ 32 = _
  omega

/-- after j sectors: the variables of the loop, the bytes written and the sectors asked for -/
structure Reads (d : Disk) (m : Machine) (pa count offset : Word) (j : ℕ) (s : Reading) : Prop where
  paAt : s.pa.toNat = 512 * (pa.toNat / 512) + 512 * j
  offsetAt : s.offset.toNat = offset.toNat / 512 + 1 + j
  below : ∀ i < j, 512 * (pa.toNat / 512) + 512 * i < pa.toNat + count.toNat
  byte : ∀ x : Word, s.machine.ram.byte x =
    if pa.toNat / 512 ≤ x.toNat / 512 ∧ x.toNat / 512 < pa.toNat / 512 + j then d.byte (source pa offset x)
    else m.ram.byte x
  sectors : s.machine.sectors = ((List.range j).map fun i => offset.toNat / 512 + 1 + i).reverse ++ m.sectors

/-- a turn that goes on, and one that ends the loop -/
theorem readsegBody_cases {endPa : Word} {n : ℕ} {s : Reading} {r : Reading ⊕ Machine}
    (h : readsegBody d endPa n s = some r) :
    (s.pa < endPa ∧ ∃ m', readsect d n s.pa s.offset s.machine = some m' ∧ r = .inl ⟨s.pa + SECTSIZE, s.offset + 1, m'⟩) ∨
      ¬ s.pa < endPa ∧ r = .inr s.machine := by
  unfold readsegBody at h
  split_ifs at h with hlt
  · obtain ⟨m', hm', hr⟩ := Option.map_eq_some_iff.1 h
    exact Or.inl ⟨hlt, m', hm', hr.symm⟩
  · exact Or.inr ⟨hlt, (Option.some.inj h).symm⟩

/-- one turn reads the next sector -/
theorem Reads.step {m : Machine} {pa count offset : Word} {j n : ℕ} {s s' : Reading}
    (h : Reads d m pa count offset j s) (hend : pa.toNat + count.toNat ≤ 2 ^ 32 - 512)
    (hb : readsegBody d (pa + count) n s = some (.inl s')) : Reads d m pa count offset (j + 1) s' := by
  have hadd := endPa_toNat hend
  have hpa := h.paAt
  have hoffset := h.offsetAt
  have := offset.isLt
  obtain ⟨hlt, m', hm', hs'⟩ | ⟨-, hs'⟩ := readsegBody_cases hb
  swap
  · cases hs'
  obtain rfl := Sum.inl.inj hs'
  have hbelow : s.pa.toNat < pa.toNat + count.toNat := hadd ▸ hlt
  obtain ⟨hsectors, hbyte⟩ := readsect_reads hm' (show s.pa.toNat + 512 ≤ 2 ^ 32 by omega)
    (show s.offset.toNat < 2 ^ 28 by omega)
  constructor
  · have hnext : (s.pa + SECTSIZE).toNat = s.pa.toNat + 512 := by
      rw [BitVec.toNat_add, SECTSIZE_toNat, Nat.mod_eq_of_lt (by omega)]
    exact hnext.trans (by omega)
  · have hnext : (s.offset + 1).toNat = s.offset.toNat + 1 := by
      have h1 : (1 : Word).toNat = 1 := rfl
      rw [BitVec.toNat_add, h1, Nat.mod_eq_of_lt (by omega)]
    exact hnext.trans (by omega)
  · intro i hi
    rcases Nat.lt_succ_iff_lt_or_eq.1 hi with hi | rfl
    · exact h.below i hi
    · omega
  · intro x
    show m'.ram.byte x = _
    rw [hbyte, h.byte]
    -- the sector that holds x is the one read now, an earlier one, or none of them
    by_cases hx : s.pa.toNat ≤ x.toNat ∧ x.toNat < s.pa.toNat + 512
    · rw [if_pos hx, if_pos (by omega), source]
      congr 1
      omega
    · rw [if_neg hx]
      refine if_congr ?_ rfl rfl
      omega
  · show m'.sectors = _
    rw [hsectors, h.sectors, h.offsetAt, List.range_succ, List.map_append, List.reverse_append]
    rfl

/-- **What readseg has read** when it returns: j sectors, up to the end of the segment. -/
theorem readseg_some {n : ℕ} {pa count offset : Word} {m m' : Machine} (hend : pa.toNat + count.toNat ≤ 2 ^ 32 - 512)
    (h : readseg d n pa count offset m = some m') :
    ∃ j pa' offset', Reads d m pa count offset j ⟨pa', offset', m'⟩ ∧
      pa.toNat + count.toNat ≤ 512 * (pa.toNat / 512) + 512 * j := by
  have hadd := endPa_toNat hend
  refine Loop.run_partial (fun s => ∃ j, Reads d m pa count offset j s)
    (fun m' => ∃ j pa' offset', Reads d m pa count offset j ⟨pa', offset', m'⟩ ∧
      pa.toNat + count.toNat ≤ 512 * (pa.toNat / 512) + 512 * j) ?_ ?_ ?_ h
  · rintro s s' ⟨j, hs⟩ hb
    exact ⟨j + 1, hs.step hend hb⟩
  · rintro s b ⟨j, hs⟩ hb
    obtain ⟨-, m', -, hs'⟩ | ⟨hlt, hs'⟩ := readsegBody_cases hb
    · cases hs'
    · obtain rfl := Sum.inr.inj hs'
      have hstop : pa.toNat + count.toNat ≤ s.pa.toNat := hadd ▸ Nat.le_of_not_lt hlt
      rw [hs.paAt] at hstop
      exact ⟨j, s.pa, s.offset, hs, hstop⟩
  · refine ⟨0, roundDown_toNat pa, firstSector_toNat offset, by omega, fun x => ?_, rfl⟩
    rw [if_neg (by omega)]

/-- the bytes that are read, by the sector that holds them -/
theorem Reads.covered {m : Machine} {pa count offset : Word} {j : ℕ} {s : Reading} (h : Reads d m pa count offset j s)
    (hstop : pa.toNat + count.toNat ≤ 512 * (pa.toNat / 512) + 512 * j) (x : Word) : s.machine.ram.byte x =
      if Covered pa count x then d.byte (source pa offset x) else m.ram.byte x := by
  rw [h.byte]
  refine if_congr ?_ rfl rfl
  rw [Covered]
  constructor
  · rintro ⟨hlo, hhi⟩
    have := h.below (x.toNat / 512 - pa.toNat / 512) (by omega)
    omega
  · omega

/-! ## The end of the loop -/

/-- **The loop ends** if end_pa is not in the last sector of the address space. -/
theorem readseg_ends (hd : d.Ready) {pa count : Word} (hend : (pa + count).toNat ≤ 2 ^ 32 - 512) (offset : Word)
    (m : Machine) : ∃ m', Gives (fun n => readseg d n pa count offset m) m' := by
  suffices h : ∃ m', Gives (fun n => readseg d n pa count offset m) m' ∧ True by
    obtain ⟨m', hm', -⟩ := h
    exact ⟨m', hm'⟩
  apply gives_run (fun _ => True) (fun s => (pa + count).toNat - s.pa.toNat)
  · rintro s -
    by_cases hlt : s.pa < pa + count
    · obtain ⟨m', hm'⟩ := readsect_ready hd s.pa s.offset s.machine
      refine .inl ⟨⟨s.pa + SECTSIZE, s.offset + 1, m'⟩, ?_, trivial, ?_⟩
      · simp only [readsegBody, if_pos hlt]
        exact hm'.map fun m => Sum.inl (Reading.mk (s.pa + SECTSIZE) (s.offset + 1) m)
      · have hlt' : s.pa.toNat < (pa + count).toNat := hlt
        have hnext : (s.pa + SECTSIZE).toNat = s.pa.toNat + 512 := by
          rw [BitVec.toNat_add, SECTSIZE_toNat, Nat.mod_eq_of_lt (by omega)]
        simp only [hnext]
        omega
    · exact .inr ⟨s.machine, ⟨0, fun n _ => if_neg hlt⟩, trivial⟩
  · trivial

/-- **The loop never ends** if end_pa is in the last sector: pa wraps to 0 before it gets there, on any disk. -/
theorem readseg_never {pa count : Word} (hend : 2 ^ 32 - 512 < (pa + count).toNat) (offset : Word) (m : Machine) (n : ℕ) :
    readseg d n pa count offset m = none := by
  -- a multiple of 512 is below end_pa
  have hlt : ∀ {p : Word}, p.toNat % 512 = 0 → p < pa + count := by
    intro p hp
    have := p.isLt
    exact BitVec.lt_def.2 (by omega)
  apply Loop.run_never fun s : Reading => s.pa.toNat % 512 = 0
  · intro s s' hs hb
    obtain ⟨-, m', -, hs'⟩ | ⟨hge, -⟩ := readsegBody_cases hb
    swap
    · exact absurd (hlt hs) hge
    obtain rfl := Sum.inl.inj hs'
    rw [BitVec.toNat_add, SECTSIZE_toNat]
    omega
  · intro s b hs hb
    obtain ⟨-, m', -, hs'⟩ | ⟨hge, -⟩ := readsegBody_cases hb
    · cases hs'
    · exact absurd (hlt hs) hge
  · show (pa &&& ~~~(SECTSIZE - 1)).toNat % 512 = 0
    rw [roundDown_toNat]
    omega

/-- **readseg.** It ends, and the bytes of memory in the sectors it covers are the bytes of the image. -/
theorem readseg_reads (hd : d.Ready) {pa count offset : Word} (hend : pa.toNat + count.toNat ≤ 2 ^ 32 - 512)
    (m : Machine) :
    ∃ m', Gives (fun n => readseg d n pa count offset m) m' ∧ ∀ x, m'.ram.byte x =
      if Covered pa count x then d.byte (source pa offset x) else m.ram.byte x := by
  obtain ⟨m', hm'⟩ := readseg_ends hd (show (pa + count).toNat ≤ 2 ^ 32 - 512 by rwa [endPa_toNat hend]) offset m
  obtain ⟨n, hn⟩ := hm'.exists
  obtain ⟨j, pa', offset', hr, hstop⟩ := readseg_some hend hn
  exact ⟨m', hm', hr.covered hstop⟩

end Jos.Boot
