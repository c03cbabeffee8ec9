/-
`readseg` of boot/main.c as a function of its three arguments: what it copies, which sectors it asks for, and whether it
returns.

- **`readseg_copies`**: a segment that is placed in its sectors as in the image is copied, rounded out to whole sectors.
- **`readseg_ends_iff`**: the loop ends unless pa + count, modulo 2^32, lies in the last sector of the address space.
- `loadSegments_hangs`: bootmain takes the arguments from a program header as they are, and hangs with the loop.
-/
import Jos.Boot.Segments

namespace Jos.Boot

open Loop (Gives)

/-! ## What is copied -/

/-- the next multiple of 512 -/
def roundUp (x : ℕ) : ℕ := (x + 511) / 512 * 512

/-- how many sectors hold a byte of the segment -/
def sectorCount (pa count : Word) : ℕ := (roundUp (pa.toNat + count.toNat) - 512 * (pa.toNat / 512)) / 512

/-- the arguments of readsect, one call after the other -/
def sectorNumbers (pa count offset : Word) : List Word :=
  (List.range (sectorCount pa count)).map fun i => offset / SECTSIZE + 1 + BitVec.ofNat 32 i

/-- a is in one of the sectors -/
def InSectors (pa count a : Word) : Prop :=
  512 * (pa.toNat / 512) ≤ a.toNat ∧ a.toNat < roundUp (pa.toNat + count.toNat)

/-- every byte of the sectors is the byte of the image at its distance from pa, no other byte has changed, and the
sectors were named to the disk by registers that can hold them -/
structure Copied (d : Disk) (m m' : Machine) (pa count offset : Word) : Prop where
  inside : ∀ a, InSectors pa count a →
    ∃ k : ℕ, (k : ℤ) = offset.toNat + ((a.toNat : ℤ) - pa.toNat) ∧ m'.ram.byte a = d.image k
  outside : ∀ a, ¬ InSectors pa count a → m'.ram.byte a = m.ram.byte a
  asked : m'.sectors = ((sectorNumbers pa count offset).map BitVec.toNat).reverse ++ m.sectors
  below : ∀ s ∈ sectorNumbers pa count offset, s.toNat < 2 ^ 28
  reproduced : ∀ s ∈ sectorNumbers pa count offset, ∀ m₁, (askSector s m₁).sectors = s.toNat :: m₁.sectors

variable {d : Disk}

theorem covered_iff (pa count a : Word) : Covered pa count a ↔ InSectors pa count a := by
  unfold Covered InSectors roundUp
  omega

/-- the sector numbers stay far below 2^28 -/
theorem sectorNumbers_toNat {pa count offset s : Word} (hs : s ∈ sectorNumbers pa count offset) : s.toNat < 2 ^ 28 := by
  obtain ⟨i, hi, rfl⟩ := List.mem_map.1 hs
  have hi := List.mem_range.1 hi
  have hfirst := firstSector_toNat offset
  have := offset.isLt
  unfold sectorCount roundUp at hi
  rw [Ram.toNat_off (by omega), hfirst]
  omega

theorem sectorNumbers_map (pa count offset : Word) :
    (sectorNumbers pa count offset).map BitVec.toNat =
      (List.range (sectorCount pa count)).map fun i => offset.toNat / 512 + 1 + i := by
  rw [sectorNumbers, List.map_map]
  apply List.map_congr_left
  intro i hi
  have hi := List.mem_range.1 hi
  have hfirst := firstSector_toNat offset
  have := offset.isLt
  unfold sectorCount roundUp at hi
  rw [Function.comp_apply, Ram.toNat_off (by omega), hfirst]

/-- the registers reproduce a number of 28 bits -/
theorem askSector_reproduces {s : Word} (hs : s.toNat < 2 ^ 28) (m : Machine) :
    (askSector s m).sectors = s.toNat :: m.sectors := by
  obtain ⟨port, hport⟩ := askSector_asks s m
  rw [hport, Nat.mod_eq_of_lt hs]

/-- **readseg.** For a segment that lies in its sectors of memory as in the sectors of the image, and ends before the last
sector of the address space: when the call returns, the sectors are copied; and with a disk that gets ready it returns.
The loader's own code and stack are not in this memory. -/
theorem readseg_copies (d : Disk) {pa count offset : Word} (halign : pa.toNat % 512 = offset.toNat % 512)
    (hend : pa.toNat + count.toNat ≤ 2 ^ 32 - 512) (m : Machine) :
    (∀ n m', readseg d n pa count offset m = some m' → Copied d m m' pa count offset) ∧
      (d.Ready → ∃ m', Gives (fun n => readseg d n pa count offset m) m') := by
  constructor
  · intro n m' h
    obtain ⟨j, pa', offset', hr, hstop⟩ := readseg_some hend h
    have hbyte := hr.covered hstop
    have hj : j = sectorCount pa count := by
      have hlast := hr.below (j - 1)
      unfold sectorCount roundUp
      omega
    refine ⟨fun a ha => ?_, fun a ha => ?_, ?_, fun s hs => sectorNumbers_toNat hs,
      fun s hs m₁ => askSector_reproduces (sectorNumbers_toNat hs) m₁⟩
    · have hlo : 512 * (pa.toNat / 512) ≤ a.toNat := ha.1
      refine ⟨offset.toNat + a.toNat - pa.toNat, by omega, ?_⟩
      rw [hbyte a, if_pos ((covered_iff pa count a).2 ha), Disk.image, source]
      congr 1
      omega
    · rw [hbyte a, if_neg fun hc => ha ((covered_iff pa count a).1 hc)]
    · rw [sectorNumbers_map pa count offset, ← hj]
      exact hr.sectors
  · intro hd
    exact readseg_ends hd (by rwa [endPa_toNat hend]) offset m

/-- a segment that starts inside a sector and ends inside the next one -/
theorem readseg_copies_unaligned :
    ∃ m', Gives (fun n => readseg twoDisk n 0x100100 0x200 0x1100 emptyMachine) m' ∧
      Copied twoDisk emptyMachine m' 0x100100 0x200 0x1100 := by
  have halign : (0x100100 : Word).toNat % 512 = (0x1100 : Word).toNat % 512 := by decide
  have hend : (0x100100 : Word).toNat + (0x200 : Word).toNat ≤ 2 ^ 32 - 512 := by decide
  obtain ⟨hcopied, hends⟩ := readseg_copies twoDisk halign hend emptyMachine
  obtain ⟨m', hm'⟩ := hends twoDisk_ready
  obtain ⟨n, hn⟩ := hm'.exists
  exact ⟨m', hm', hcopied n m' hn⟩

/-! ## Whether it returns -/

/-- **The loop of readseg ends** exactly if pa + count, as it is computed, is not in the last sector. -/
theorem readseg_ends_iff (hd : d.Ready) (pa count offset : Word) (m : Machine) :
    (∃ m', Gives (fun n => readseg d n pa count offset m) m') ↔ (pa + count).toNat ≤ 2 ^ 32 - 512 := by
  constructor
  · rintro ⟨m', hm'⟩
    obtain ⟨n, hn⟩ := hm'.exists
    by_contra hend
    rw [readseg_never (by omega) offset m n] at hn
    cases hn
  · intro hend
    exact readseg_ends hd hend offset m

theorem readseg_ends_two : (∃ m', Gives (fun n => readseg twoDisk n 0x100000 0x100 0x1000 emptyMachine) m') ↔
    ((0x100000 : Word) + 0x100).toNat ≤ 2 ^ 32 - 512 :=
  readseg_ends_iff twoDisk_ready 0x100000 0x100 0x1000 emptyMachine

/-- **One byte in the last sector.** pa wraps to 0, and the loop goes over all of memory again and again. -/
theorem readseg_hangs :
    twoDisk.Ready ∧ ¬ ∃ m', Gives (fun n => readseg twoDisk n 0xFFFFFE00 1 0 emptyMachine) m' := by
  refine ⟨twoDisk_ready, ?_⟩
  rintro ⟨m', hm'⟩
  obtain ⟨n, hn⟩ := hm'.exists
  rw [readseg_never (by decide)] at hn
  cases hn

/-- the loading loop does not get past such a header, with any disk -/
theorem loadSegments_hangs {m : Machine} {ph : Word} (hph : ph = ELFHDR + (Elf.read (m.ram.view ELFHDR)).ePhoff)
    (heph : ph < ph + Proghdr.size * (Elf.read (m.ram.view ELFHDR)).ePhnum.zeroExtend 32)
    (hend : 2 ^ 32 - 512 < ((Proghdr.read (m.ram.view ph)).pPa + (Proghdr.read (m.ram.view ph)).pMemsz).toNat) (n : ℕ) :
    loadSegments d n m = none := by
  cases n with
  | zero => rfl
  | succ n =>
    simp only [loadSegments, ← hph, Loop.run, segmentsBody, if_pos heph, readseg_never hend, Option.map_none]

end Jos.Boot
