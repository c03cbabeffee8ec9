/-
What `bootmain` leaves in memory (boot/main.c): the image's first page, and over it the segments, each rounded out to
whole sectors and the later ones over the earlier ones.

- `Bootable`: the images that the loader is for.
- `bootmain_loads`: it ends at the entry point, and memory is the overlay of what was loaded.
- `later_covers`: a later segment writes over a loaded byte of an earlier one exactly when it starts in the same sector.
- `bootmain_intact_iff`: so the segments are intact exactly when the file agrees with itself there.
-/
import Jos.Boot.Readseg
import Jos.Core.Overlay

namespace Jos.Boot

open Loop (Gives gives_run)
open Overlay (overlay lastOver)

/-! ## Images -/

/-- the image is on the disk from its second sector on -/
def Disk.image (d : Disk) (k : ℕ) : Byte := d.byte (512 + k)

/-- the i-th program header -/
def header (image : ℕ → Byte) (i : ℕ) : Proghdr :=
  Proghdr.read fun k => image ((Elf.read image).ePhoff.toNat + 32 * i + k)

def headers (image : ℕ → Byte) : List Proghdr := (List.range (Elf.read image).ePhnum.toNat).map (header image)

/-- the addresses of the segment in memory -/
def Proghdr.range (s : Proghdr) : Set ℕ := Set.Ico s.pPa.toNat (s.pPa.toNat + s.pMemsz.toNat)

/-- the right magic, headers in the first page, segments in increasing order, apart from each other and from the header
page, placed in their sectors as in the file, and clear of the end of the address space -/
structure Bootable (image : ℕ → Byte) : Prop where
  magic : (Elf.read image).eMagic = ELF_MAGIC
  table : (Elf.read image).ePhoff.toNat + 32 * (Elf.read image).ePhnum.toNat ≤ 4096
  increasing : (headers image).Pairwise fun a b => a.pPa.toNat ≤ b.pPa.toNat
  disjoint : (headers image).Pairwise fun a b => ∀ x ∈ a.range, x ∉ b.range
  congruent : ∀ s ∈ headers image, s.pPa.toNat % 512 = s.pOffset.toNat % 512
  fits : ∀ s ∈ headers image, s.pPa.toNat + s.pMemsz.toNat ≤ 2 ^ 32 - 512
  clear : ∀ s ∈ headers image, s.pPa.toNat + s.pMemsz.toNat ≤ 0x10000 ∨ 0x11000 ≤ s.pPa.toNat

/-! ## The loads -/

/-- x is in a sector of memory that the segment is loaded to -/
def Proghdr.covers (s : Proghdr) (x : Word) : Prop := Covered s.pPa s.pMemsz x

instance (s : Proghdr) (x : Word) : Decidable (s.covers x) := inferInstanceAs (Decidable (Covered _ _ _))

/-- the byte of the disk that the segment puts at x -/
def Disk.loaded (d : Disk) (s : Proghdr) (x : Word) : Byte := d.byte (source s.pPa s.pOffset x)

/-- the byte of the image that belongs at x if x is in the segment -/
def Proghdr.placed (image : ℕ → Byte) (s : Proghdr) (x : Word) : Byte :=
  image (s.pOffset.toNat + x.toNat - s.pPa.toNat)

/-- the first page of the image in its scratch space -/
def page : Proghdr := ⟨0, ELFHDR, 0x1000, 0x1000⟩

/-- memory after the loads of l -/
def Disk.load (d : Disk) (l : List Proghdr) (mem : Word → Byte) : Word → Byte := overlay Proghdr.covers d.loaded l mem

variable {d : Disk}

theorem loaded_placed {s : Proghdr} {x : Word} (hs : s.pPa.toNat % 512 = s.pOffset.toNat % 512) (hx : s.covers x) :
    d.loaded s x = s.placed d.image x := by
  have hle : s.pPa.toNat / 512 ≤ x.toNat / 512 := hx.1
  rw [Disk.loaded, Proghdr.placed, Disk.image, source]
  congr 1
  omega

theorem load_one (s : Proghdr) (mem : Word → Byte) (x : Word) :
    d.load [s] mem x = if s.covers x then d.loaded s x else mem x := rfl

/-- loading a segment that does not come near the end of the address space -/
theorem readseg_loads (hd : d.Ready) {s : Proghdr} (hs : s.pPa.toNat + s.pMemsz.toNat ≤ 2 ^ 32 - 512) (m : Machine) :
    ∃ m', Gives (fun n => readseg d n s.pPa s.pMemsz s.pOffset m) m' ∧ m'.ram.byte = d.load [s] m.ram.byte := by
  obtain ⟨m', hm', hbyte⟩ := readseg_reads hd hs m
  exact ⟨m', hm', funext hbyte⟩

/-- a segment that is clear of the header page is not loaded to any of its sectors -/
theorem clear_covers {s : Proghdr} (hs : s.pPa.toNat + s.pMemsz.toNat ≤ 0x10000 ∨ 0x11000 ≤ s.pPa.toNat) {x : Word}
    (hx : s.covers x) : x.toNat < 0x10000 ∨ 0x11000 ≤ x.toNat := by
  obtain ⟨hlo, hhi⟩ := hx
  omega

/-! ## The loading loop -/

theorem page_toNat {i : ℕ} (hi : i < 4096) : (ELFHDR + BitVec.ofNat 32 i).toNat = 0x10000 + i := by
  rw [Ram.toNat_off (by rw [ELFHDR_toNat]; omega), ELFHDR_toNat]

/-- the header page in memory is the first page of the image -/
def HasPage (d : Disk) (mem : Word → Byte) : Prop := ∀ i < 4096, mem (ELFHDR + BitVec.ofNat 32 i) = d.image i

theorem HasPage.load {mem : Word → Byte} (h : HasPage d mem) {l : List Proghdr}
    (hl : ∀ s ∈ l, s.pPa.toNat + s.pMemsz.toNat ≤ 0x10000 ∨ 0x11000 ≤ s.pPa.toNat) : HasPage d (d.load l mem) := by
  intro i hi
  have hx := page_toNat hi
  rw [← h i hi]
  apply Overlay.overlay_frame
  intro s hs hc
  have := clear_covers (hl s hs) hc
  omega

theorem HasPage.elf {m : Machine} (h : HasPage d m.ram.byte) : Elf.read (m.ram.view ELFHDR) = Elf.read d.image :=
  Elf.read_congr fun i hi => h i (by omega)

/-- the header at p is the k-th one of the image -/
theorem HasPage.header {m : Machine} (h : HasPage d m.ram.byte) {p : Word} {k : ℕ}
    (hp : p.toNat = 0x10000 + ((Elf.read d.image).ePhoff.toNat + 32 * k))
    (hk : (Elf.read d.image).ePhoff.toNat + 32 * (k + 1) ≤ 4096) :
    Proghdr.read (m.ram.view p) = header d.image k := by
  apply Proghdr.read_congr
  intro i hi
  have hpi : p + BitVec.ofNat 32 i =
      ELFHDR + BitVec.ofNat 32 ((Elf.read d.image).ePhoff.toNat + 32 * k + i) := by
    apply BitVec.eq_of_toNat_eq
    rw [Ram.toNat_off (by omega), page_toNat (by omega), hp]
    omega
  rw [Ram.view, hpi]
  exact h _ (by omega)

theorem headers_take (image : ℕ → Byte) {k : ℕ} (hk : k < (Elf.read image).ePhnum.toNat) :
    (headers image).take (k + 1) = (headers image).take k ++ [header image k] := by
  rw [List.take_add_one, headers, List.getElem?_map, List.getElem?_range hk]
  rfl

/-- after k turns: ph is at the k-th header, and memory holds the loads of those before it -/
structure Loading (d : Disk) (m : Machine) (k : ℕ) (s : Word × Machine) : Prop where
  ph : s.1.toNat = 0x10000 + ((Elf.read d.image).ePhoff.toNat + 32 * k)
  count : k ≤ (Elf.read d.image).ePhnum.toNat
  mem : s.2.ram.byte = d.load ((headers d.image).take k) m.ram.byte

/-- one turn loads the next segment -/
theorem Loading.next {m : Machine} {k : ℕ} {s : Word × Machine} (h : Loading d m k s) (hd : d.Ready)
    (hb : Bootable d.image) (hm : HasPage d m.ram.byte) (hk : k < (Elf.read d.image).ePhnum.toNat) {eph : Word}
    (heph : s.1 < eph) :
    ∃ s', Gives (fun n => segmentsBody d eph n s) (.inl s') ∧ Loading d m (k + 1) s' := by
  have htable := hb.table
  have hph := h.ph
  have hmem : header d.image k ∈ headers d.image := List.mem_map_of_mem (List.mem_range.2 hk)
  have hpage : HasPage d s.2.ram.byte := by
    rw [h.mem]
    exact hm.load fun t ht => hb.clear t (List.mem_of_mem_take ht)
  have hread : Proghdr.read (s.2.ram.view s.1) = header d.image k := hpage.header hph (by omega)
  obtain ⟨m', hm', hbyte⟩ := readseg_loads hd (hb.fits _ hmem) s.2
  refine ⟨(s.1 + Proghdr.size, m'), ?_, ?_, by omega, ?_⟩
  · simp only [segmentsBody, if_pos heph, hread]
    exact hm'.map fun m => Sum.inl (s.1 + Proghdr.size, m)
  · have hnext : (s.1 + Proghdr.size).toNat = s.1.toNat + 32 := by
      rw [BitVec.toNat_add, Proghdr.size_toNat, Nat.mod_eq_of_lt (by omega)]
    exact hnext.trans (by omega)
  · rw [headers_take _ hk, Disk.load, Overlay.overlay_append]
    rw [h.mem] at hbyte
    exact hbyte

/-- the loop loads the segments in turn -/
theorem loadSegments_loads (hd : d.Ready) (hb : Bootable d.image) {m : Machine} (hm : HasPage d m.ram.byte) :
    ∃ m', Gives (fun n => loadSegments d n m) m' ∧ m'.ram.byte = d.load (headers d.image) m.ram.byte := by
  have htable := hb.table
  simp only [loadSegments, hm.elf]
  have hph : (ELFHDR + (Elf.read d.image).ePhoff).toNat = 0x10000 + (Elf.read d.image).ePhoff.toNat := by
    rw [BitVec.toNat_add, ELFHDR_toNat]
    omega
  generalize heph : ELFHDR + (Elf.read d.image).ePhoff + Proghdr.size * (Elf.read d.image).ePhnum.zeroExtend 32 = eph
  have heph' : eph.toNat = 0x10000 + ((Elf.read d.image).ePhoff.toNat + 32 * (Elf.read d.image).ePhnum.toNat) := by
    rw [← heph, BitVec.toNat_add, hph, BitVec.toNat_mul, Proghdr.size_toNat, BitVec.toNat_setWidth]
    omega
  apply gives_run (fun s => ∃ k, Loading d m k s) (fun s => eph.toNat - s.1.toNat)
  · rintro s ⟨k, hs⟩
    have hk := hs.ph
    have hcount := hs.count
    by_cases hlt : s.1 < eph
    · have hlt' : s.1.toNat < eph.toNat := hlt
      obtain ⟨s', hs', hnext⟩ := hs.next hd hb hm (by omega) hlt
      refine .inl ⟨s', hs', ⟨k + 1, hnext⟩, ?_⟩
      rw [hnext.ph]
      omega
    · refine .inr ⟨s.2, ⟨0, fun n _ => if_neg hlt⟩, ?_⟩
      have hge : eph.toNat ≤ s.1.toNat := Nat.le_of_not_lt hlt
      rw [hs.mem, List.take_of_length_le]
      rw [headers, List.length_map, List.length_range]
      omega
  · exact ⟨0, by simpa using hph, Nat.zero_le _, rfl⟩

/-- **What the loader leaves.** It ends at the kernel's entry point, and memory is the first page of the image in its
scratch space and the segments over it, the later ones over the earlier ones. -/
theorem bootmain_loads (hd : d.Ready) (hb : Bootable d.image) (m : Machine) :
    ∃ m', Gives (fun n => bootmain d n m) (.entry (Elf.read d.image).eEntry m') ∧
      m'.ram.byte = d.load (page :: headers d.image) m.ram.byte := by
  obtain ⟨m₁, h₁, hbyte₁⟩ := readseg_loads hd (show page.pPa.toNat + page.pMemsz.toNat ≤ 2 ^ 32 - 512 by decide) m
  have hpa : page.pPa.toNat = 0x10000 := rfl
  have hsize : page.pMemsz.toNat = 0x1000 := rfl
  have hoff : page.pOffset.toNat = 0 := rfl
  have hpage : HasPage d m₁.ram.byte := by
    intro i hi
    have hx := page_toNat hi
    have hcov : page.covers (ELFHDR + BitVec.ofNat 32 i) := by
      rw [Proghdr.covers, Covered, hx, hpa, hsize]
      omega
    rw [hbyte₁, load_one, if_pos hcov, loaded_placed (by decide) hcov, Proghdr.placed, hx, hoff, hpa, Nat.zero_add,
      Nat.add_sub_cancel_left]
  obtain ⟨m₂, h₂, hbyte₂⟩ := loadSegments_loads hd hb hpage
  have hpage₂ : HasPage d m₂.ram.byte := by
    rw [hbyte₂]
    exact hpage.load hb.clear
  refine ⟨m₂, ?_, ?_⟩
  · simp only [bootmain, show SECTSIZE * 8 = page.pMemsz by decide]
    apply h₁.bind
    simp only [hpage.elf, hb.magic, ne_eq, not_true_eq_false, if_false]
    rw [← hpage₂.elf]
    exact h₂.map fun m => Outcome.entry (Elf.read (m.ram.view ELFHDR)).eEntry m
  · rw [hbyte₂, hbyte₁]
    rfl

/-! ## Intact segments -/

/-- every segment has its bytes of the file at its place in memory -/
def Intact (image : ℕ → Byte) (mem : Word → Byte) : Prop :=
  ∀ s ∈ headers image, ∀ i < s.pFilesz.toNat, mem (s.pPa + BitVec.ofNat 32 i) = image (s.pOffset.toNat + i)

/-- the segment starts in the n-th sector of memory, and is loaded to it -/
def Proghdr.startsIn (s : Proghdr) (n : ℕ) : Prop := s.pPa.toNat / 512 = n ∧ 0 < s.pPa.toNat % 512 + s.pMemsz.toNat

instance (s : Proghdr) (n : ℕ) : Decidable (s.startsIn n) := inferInstanceAs (Decidable (_ ∧ _))

/-- If segments after s start in the sector of memory that holds the i-th byte of s, then the file has this byte also
where the last of them, counted back from its start, would have it. -/
def SectorsAgree (image : ℕ → Byte) : Prop :=
  ∀ l₁ s l₂, headers image = l₁ ++ s :: l₂ → ∀ i < s.pFilesz.toNat, i < s.pMemsz.toNat →
    ∀ t ∈ (l₂.filter (·.startsIn ((s.pPa.toNat + i) / 512))).getLast?,
      image (t.pOffset.toNat + (s.pPa.toNat + i) - t.pPa.toNat) = image (s.pOffset.toNat + i)

/-- the same for the bytes of the file beyond p_memsz, which no loader is to load: what is at their place is what the
last segment that is loaded to it has there, or else what was there -/
def RestAgrees (image : ℕ → Byte) (mem : Word → Byte) : Prop :=
  ∀ s ∈ headers image, ∀ i < s.pFilesz.toNat, s.pMemsz.toNat ≤ i →
    ((lastOver Proghdr.covers (page :: headers image) (s.pPa + BitVec.ofNat 32 i)).map
      (·.placed image (s.pPa + BitVec.ofNat 32 i))).getD (mem (s.pPa + BitVec.ofNat 32 i)) =
      image (s.pOffset.toNat + i)

theorem load_eq {l : List Proghdr} (hl : ∀ s ∈ l, s.pPa.toNat % 512 = s.pOffset.toNat % 512) (mem : Word → Byte)
    (x : Word) :
    d.load l mem x = ((lastOver Proghdr.covers l x).map (·.placed d.image x)).getD (mem x) := by
  rw [Disk.load, Overlay.overlay_eq]
  congr 1
  apply Option.map_congr
  intro t ht
  obtain ⟨hmem, hcov⟩ := Overlay.lastOver_mem _ ht
  exact loaded_placed (hl t hmem) hcov

/-- **Who writes over whom.** A segment t after s, in increasing order and apart from it, is loaded to the place of a
byte of s exactly when it starts in its sector. -/
theorem later_covers {s t : Proghdr} (hle : s.pPa.toNat ≤ t.pPa.toNat) (hdis : ∀ y ∈ s.range, y ∉ t.range) {x : Word}
    (hx : x.toNat < s.pPa.toNat + s.pMemsz.toNat) :
    t.covers x ↔ t.startsIn (x.toNat / 512) := by
  -- t's first byte is not a byte of s, so it is after x
  have hpast : 0 < t.pMemsz.toNat → x.toNat < t.pPa.toNat := by
    intro h0
    have ht : t.pPa.toNat ∈ t.range := ⟨le_refl _, by omega⟩
    by_contra hlt
    exact hdis _ ⟨hle, by omega⟩ ht
  rw [Proghdr.covers, Covered, Proghdr.startsIn]
  constructor
  · rintro ⟨hsec, hend⟩
    rcases Nat.eq_zero_or_pos t.pMemsz.toNat with h0 | h0
    · omega
    · have := hpast h0
      omega
  · rintro ⟨hsec, h0⟩
    omega

section Intact

variable {l₁ l₂ : List Proghdr} {s : Proghdr} {i : ℕ}

theorem Bootable.after {image : ℕ → Byte} (hb : Bootable image) (h : headers image = l₁ ++ s :: l₂) :
    ∀ t ∈ l₂, s.pPa.toNat ≤ t.pPa.toNat ∧ ∀ x ∈ s.range, x ∉ t.range := by
  intro t ht
  have h1 := hb.increasing
  have h2 := hb.disjoint
  rw [h] at h1 h2
  exact ⟨(List.pairwise_cons.1 (List.pairwise_append.1 h1).2.1).1 t ht,
    (List.pairwise_cons.1 (List.pairwise_append.1 h2).2.1).1 t ht⟩

/-- the i-th byte of a segment -/
theorem Bootable.byte_toNat {image : ℕ → Byte} (hb : Bootable image) (h : headers image = l₁ ++ s :: l₂)
    (hi : i < s.pMemsz.toNat) : (s.pPa + BitVec.ofNat 32 i).toNat = s.pPa.toNat + i := by
  have hfits := hb.fits s (by rw [h]; simp)
  exact Ram.toNat_off (by omega)

theorem Bootable.page_congruent {image : ℕ → Byte} (hb : Bootable image) :
    ∀ t ∈ page :: headers image, t.pPa.toNat % 512 = t.pOffset.toNat % 512 := by
  intro t ht
  rcases List.mem_cons.1 ht with rfl | ht
  · decide
  · exact hb.congruent t ht

/-- the last segment that is loaded to the place of a byte of s: a later one that starts in its sector, or s -/
theorem lastOver_segment {image : ℕ → Byte} (hb : Bootable image) (h : headers image = l₁ ++ s :: l₂)
    (hi : i < s.pMemsz.toNat) :
    lastOver Proghdr.covers (page :: headers image) (s.pPa + BitVec.ofNat 32 i) =
      (l₂.filter (·.startsIn ((s.pPa.toNat + i) / 512))).getLast?.or (some s) := by
  have hx := hb.byte_toNat h hi
  have hcov : s.covers (s.pPa + BitVec.ofNat 32 i) := by
    rw [Proghdr.covers, Covered, hx]
    omega
  rw [h, ← List.cons_append, Overlay.lastOver_after _ _ _ hcov, lastOver]
  congr 2
  apply List.filter_congr
  intro t ht
  obtain ⟨hle, hdis⟩ := hb.after h t ht
  rw [decide_eq_decide, later_covers hle hdis (by omega), hx]

/-- a byte of a segment is intact exactly when the last segment that starts in its sector agrees on it -/
theorem byte_intact_iff (hb : Bootable d.image) (h : headers d.image = l₁ ++ s :: l₂) (hi : i < s.pMemsz.toNat)
    (mem : Word → Byte) :
    d.load (page :: headers d.image) mem (s.pPa + BitVec.ofNat 32 i) = d.image (s.pOffset.toNat + i) ↔
      ∀ t ∈ (l₂.filter (·.startsIn ((s.pPa.toNat + i) / 512))).getLast?,
        d.image (t.pOffset.toNat + (s.pPa.toNat + i) - t.pPa.toNat) = d.image (s.pOffset.toNat + i) := by
  have hx := hb.byte_toNat h hi
  rw [load_eq hb.page_congruent, lastOver_segment hb h hi]
  cases (l₂.filter (·.startsIn ((s.pPa.toNat + i) / 512))).getLast? with
  | none =>
    have hown : s.placed d.image (s.pPa + BitVec.ofNat 32 i) = d.image (s.pOffset.toNat + i) := by
      rw [Proghdr.placed, hx]
      congr 1
      omega
    simp [hown]
  | some t => simp [Proghdr.placed, hx]

end Intact

/-- a file whose segments are placed in it as in memory agrees with itself -/
theorem sectorsAgree_of_layout {image : ℕ → Byte}
    (h : (headers image).Pairwise fun s t => t.pOffset.toNat + s.pPa.toNat = s.pOffset.toNat + t.pPa.toNat) :
    SectorsAgree image := by
  intro l₁ s l₂ hsplit i _ _ t ht
  rw [hsplit] at h
  have hmem : t ∈ l₂ := (List.mem_filter.1 (List.mem_of_getLast? ht)).1
  have := (List.pairwise_cons.1 (List.pairwise_append.1 h).2.1).1 t hmem
  congr 1
  omega

/-- no segment of a well-formed file has more bytes in the file than in memory -/
theorem restAgrees_of_filesz {image : ℕ → Byte} (h : ∀ s ∈ headers image, s.pFilesz.toNat ≤ s.pMemsz.toNat)
    (mem : Word → Byte) : RestAgrees image mem := by
  intro s hs i hf hi
  have := h s hs
  omega

/-! ## Two segments in one sector -/

/-- two segments of 256 bytes, next to each other in memory and 512 bytes apart in the file -/
def twoHeaders : List Byte :=
  [0x7F, 0x45, 0x4C, 0x46] ++ List.replicate 20 0 ++ [0x0C, 0, 0x10, 0] ++ [52, 0, 0, 0] ++ List.replicate 12 0 ++
    [2, 0] ++ List.replicate 6 0 ++
  [1, 0, 0, 0] ++ [0, 0x10, 0, 0] ++ List.replicate 4 0 ++ [0, 0, 0x10, 0] ++ [0, 1, 0, 0] ++ [0, 1, 0, 0] ++
    List.replicate 8 0 ++
  [1, 0, 0, 0] ++ [0, 0x13, 0, 0] ++ List.replicate 4 0 ++ [0, 1, 0x10, 0] ++ [0, 1, 0, 0] ++ [0, 1, 0, 0] ++
    List.replicate 8 0

/-- a disk that is always ready; the first segment's first byte is 1, and all others are 0 -/
def twoDisk : Disk where
  byte k := if k = 512 + 0x1000 then 1 else twoHeaders.getD (k - 512) 0
  status _ := 0x40

theorem twoDisk_headers : headers twoDisk.image = [⟨0x1000, 0x100000, 0x100, 0x100⟩, ⟨0x1300, 0x100100, 0x100, 0x100⟩] := by
  decide

theorem twoDisk_ready : twoDisk.Ready := by
  intro n
  have hstatus : twoDisk.status (n + 0) = 0x40 := rfl
  exact ⟨0, by rw [hstatus]; decide⟩

theorem twoDisk_bootable : Bootable twoDisk.image where
  magic := by decide
  table := by decide
  increasing := by rw [twoDisk_headers]; decide
  disjoint := by
    rw [twoDisk_headers, List.pairwise_pair]
    intro x hx hy
    have hlt : x < 0x100000 + 0x100 := hx.2
    have hle : 0x100100 ≤ x := hy.1
    omega
  congruent := by rw [twoDisk_headers]; decide
  fits := by rw [twoDisk_headers]; decide
  clear := by rw [twoDisk_headers]; decide

def emptyMachine : Machine := ⟨⟨fun _ => 0, []⟩, fun _ => 0, 0, []⟩

/-! ## When the segments are intact -/

/-- **When the segments are intact.** The loader ends at the entry point, and every segment has its bytes of the file
exactly when the file agrees with itself about the sectors of memory that segments share. The loader's own code and stack,
at 0x7C00 and below, are outside the model: a segment that is loaded over them is loaded like any other. -/
theorem bootmain_intact_iff (hd : d.Ready) (hb : Bootable d.image) (m : Machine) :
    ∃ m', Gives (fun n => bootmain d n m) (.entry (Elf.read d.image).eEntry m') ∧
      (Intact d.image m'.ram.byte ↔ SectorsAgree d.image ∧ RestAgrees d.image m.ram.byte) := by
  obtain ⟨m', hm', hbyte⟩ := bootmain_loads hd hb m
  refine ⟨m', hm', ?_⟩
  rw [hbyte]
  constructor
  · intro hint
    constructor
    · intro l₁ s l₂ h i hf hi
      have hs : s ∈ headers d.image := by rw [h]; simp
      exact (byte_intact_iff hb h hi _).1 (hint s hs i hf)
    · intro s hs i hf _
      rw [← load_eq hb.page_congruent]
      exact hint s hs i hf
  · rintro ⟨hsec, hrest⟩ s hs i hf
    rcases Nat.lt_or_ge i s.pMemsz.toNat with hi | hi
    · obtain ⟨l₁, l₂, h⟩ := List.append_of_mem hs
      exact (byte_intact_iff hb h hi _).2 (hsec l₁ s l₂ h i hf hi)
    · rw [load_eq hb.page_congruent]
      exact hrest s hs i hf hi

theorem bootmain_intact_two :
    ∃ m', Gives (fun n => bootmain twoDisk n emptyMachine) (.entry (Elf.read twoDisk.image).eEntry m') ∧
      (Intact twoDisk.image m'.ram.byte ↔ SectorsAgree twoDisk.image ∧ RestAgrees twoDisk.image emptyMachine.ram.byte) :=
  bootmain_intact_iff twoDisk_ready twoDisk_bootable emptyMachine

/-- **Loading in increasing order does matter.** The second segment is loaded from file sector 9 to the sector of memory
in which the first one lies, and the first byte of the first segment is lost. -/
theorem bootmain_clobbers :
    twoDisk.Ready ∧ Bootable twoDisk.image ∧
      ∃ m', Gives (fun n => bootmain twoDisk n emptyMachine) (.entry 0x10000C m') ∧
        m'.ram.byte 0x100000 = 0 ∧ twoDisk.image 0x1000 = 1 ∧ ¬ Intact twoDisk.image m'.ram.byte := by
  obtain ⟨m', hm', hbyte⟩ := bootmain_loads twoDisk_ready twoDisk_bootable emptyMachine
  have hentry : (Elf.read twoDisk.image).eEntry = 0x10000C := by decide
  have hlost : m'.ram.byte 0x100000 = 0 := by
    rw [hbyte, twoDisk_headers]
    decide
  refine ⟨twoDisk_ready, twoDisk_bootable, m', hentry ▸ hm', hlost, by decide, fun hint => ?_⟩
  have hfirst := hint ⟨0x1000, 0x100000, 0x100, 0x100⟩ (by rw [twoDisk_headers]; exact List.mem_cons_self) 0 (by decide)
  rw [Ram.off_zero, hlost] at hfirst
  revert hfirst
  decide

end Jos.Boot
