/-
The paging unit of the i386: two levels of tables, for accesses of the supervisor.

An access looks up the directory entry and the table entry of its address. It faults if one of them is not present, or if it
is a write that one of them forbids while WP is set. Otherwise both entries are marked as accessed, and the table entry as
dirty if it is a write: the tables change under the accesses, but not what they say.

- `Holds`: memory holds given entries, up to these two marks.
- `walk_holds`: then an access goes where the entries say, and memory still holds them.
- `run_flat`: so a run of loads and stores that keeps off the tables is a run on plain memory, at the translated addresses.
-/
import Jos.Core.Ram

namespace Jos.Paging

/-- physical memory -/
abbrev Mem : Type := BitVec 32 → BitVec 8

/-! ## Linear addresses -/

/-- index in the page directory -/
def dirIndex (la : BitVec 32) : ℕ := la.toNat / 2 ^ 22

/-- index in the page table -/
def tableIndex (la : BitVec 32) : ℕ := la.toNat / 2 ^ 12 % 2 ^ 10

/-- offset in the page -/
def offset (la : BitVec 32) : ℕ := la.toNat % 2 ^ 12

theorem dirIndex_lt (la : BitVec 32) : dirIndex la < 1024 := by
  have := la.isLt
  unfold dirIndex
  omega

theorem tableIndex_lt (la : BitVec 32) : tableIndex la < 1024 := Nat.mod_lt _ (by decide)

/-! ## Entries -/

/-- the entry at a -/
def entry (mem : Mem) (a : BitVec 32) : BitVec 32 := le32 (fun i => mem (a + BitVec.ofNat 32 i)) 0

/-- the address in an entry, or in CR3 -/
def frame (e : BitVec 32) : BitVec 32 := e &&& ~~~0xFFF

/-- the address of the i-th entry of the table that e points to -/
def slot (e : BitVec 32) (i : ℕ) : BitVec 32 := frame e + BitVec.ofNat 32 (4 * i)

def present (e : BitVec 32) : Bool := e.getLsbD 0

def writable (e : BitVec 32) : Bool := e.getLsbD 1

/-- the accessed bit and the dirty bit, in the low byte of an entry -/
def accessed : BitVec 8 := 0x20

def dirty : BitVec 8 := 0x40

/-- set bits in the low byte of the entry at a -/
def mark (a : BitVec 32) (m : BitVec 8) (mem : Mem) : Mem := Function.update mem a (mem a ||| m)

/-- x and y are the same but for the marks -/
def UpToMarks (x y : BitVec 32) : Prop := ∀ i < 32, i ≠ 5 → i ≠ 6 → x.getLsbD i = y.getLsbD i

/-! ## Translation -/

/-- the directory entry and the table entry allow the access -/
def allowed (wp write : Bool) (pde pte : BitVec 32) : Bool :=
  present pde && present pte && (!(write && wp) || (writable pde && writable pte))

/-- the physical address of an access, and memory with its entries marked -/
def walk (cr3 : BitVec 32) (wp write : Bool) (la : BitVec 32) (mem : Mem) : Option (BitVec 32 × Mem) :=
  let pdeAt := slot cr3 (dirIndex la)
  let pde := entry mem pdeAt
  let pteAt := slot pde (tableIndex la)
  let pte := entry mem pteAt
  if allowed wp write pde pte then
    some (frame pte + BitVec.ofNat 32 (offset la),
      mark pteAt (if write then accessed ||| dirty else accessed) (mark pdeAt accessed mem))
  else none

/-! ## What the tables say -/

/-- tables as they were set up: the address of the directory, its entries, and those of the table for each of them -/
structure Tables where
  cr3 : BitVec 32
  pde : ℕ → BitVec 32
  pte : ℕ → ℕ → BitVec 32

/-- where an access goes -/
def Tables.translate (t : Tables) (wp write : Bool) (la : BitVec 32) : Option (BitVec 32) :=
  let pde := t.pde (dirIndex la)
  let pte := t.pte (dirIndex la) (tableIndex la)
  if allowed wp write pde pte then some (frame pte + BitVec.ofNat 32 (offset la)) else none

/-- memory holds the tables, up to the marks -/
structure Holds (t : Tables) (mem : Mem) : Prop where
  dir : ∀ d < 1024, UpToMarks (entry mem (slot t.cr3 d)) (t.pde d)
  table : ∀ d < 1024, present (t.pde d) = true → ∀ i < 1024, UpToMarks (entry mem (slot (t.pde d) i)) (t.pte d i)

/-- the low bytes of the entries, where the marks are -/
def Tables.marked (t : Tables) : Set (BitVec 32) :=
  {x | (∃ d < 1024, x = slot t.cr3 d) ∨ ∃ d < 1024, present (t.pde d) = true ∧ ∃ i < 1024, x = slot (t.pde d) i}

/-! ## Marks -/

theorem UpToMarks.refl (x : BitVec 32) : UpToMarks x x := fun _ _ _ _ => rfl

theorem UpToMarks.trans {x y z : BitVec 32} (h : UpToMarks x y) (h' : UpToMarks y z) : UpToMarks x z :=
  fun i hi h5 h6 => (h i hi h5 h6).trans (h' i hi h5 h6)

theorem UpToMarks.frame {x y : BitVec 32} (h : UpToMarks x y) : frame x = frame y := by
  apply BitVec.eq_of_getLsbD_eq
  intro i hi
  have hmask : ∀ i < 32, (~~~(0xFFF : BitVec 32)).getLsbD i = decide (12 ≤ i) := by decide
  rw [Paging.frame, Paging.frame, BitVec.getLsbD_and, BitVec.getLsbD_and, hmask i hi]
  rcases Nat.lt_or_ge i 12 with h12 | h12
  · simp [show ¬ 12 ≤ i by omega]
  · rw [h i hi (by omega) (by omega)]

theorem UpToMarks.slot {x y : BitVec 32} (h : UpToMarks x y) (i : ℕ) : slot x i = slot y i := by
  rw [Paging.slot, Paging.slot, h.frame]

theorem UpToMarks.allowed {x y u v : BitVec 32} (h : UpToMarks x y) (h' : UpToMarks u v) (wp write : Bool) :
    allowed wp write x u = allowed wp write y v := by
  have hp : present x = present y := h 0 (by decide) (by decide) (by decide)
  have hw : writable x = writable y := h 1 (by decide) (by decide) (by decide)
  have hp' : present u = present v := h' 0 (by decide) (by decide) (by decide)
  have hw' : writable u = writable v := h' 1 (by decide) (by decide) (by decide)
  rw [Paging.allowed, Paging.allowed, hp, hw, hp', hw']

theorem frame_toNat (e : BitVec 32) : (frame e).toNat = e.toNat / 2 ^ 12 * 2 ^ 12 := by
  have h : frame e = e >>> 12 <<< 12 := by
    apply BitVec.eq_of_getLsbD_eq
    intro i hi
    have hmask : ∀ i < 32, (~~~(0xFFF : BitVec 32)).getLsbD i = decide (12 ≤ i) := by decide
    rw [frame, BitVec.getLsbD_and, hmask i hi, BitVec.getLsbD_shiftLeft, BitVec.getLsbD_ushiftRight]
    rcases Nat.lt_or_ge i 12 with h12 | h12
    · simp [show ¬ 12 ≤ i by omega, h12]
    · simp [h12, hi, show ¬ i < 12 by omega, show 12 + (i - 12) = i by omega]
  have := e.isLt
  rw [h, BitVec.toNat_shiftLeft, BitVec.toNat_ushiftRight, Nat.shiftRight_eq_div_pow, Nat.shiftLeft_eq,
    Nat.mod_eq_of_lt (by omega)]

theorem slot_toNat (e : BitVec 32) {i : ℕ} (hi : i < 1024) : (slot e i).toNat = e.toNat / 2 ^ 12 * 2 ^ 12 + 4 * i := by
  have := e.isLt
  have hf := frame_toNat e
  rw [slot, Ram.toNat_off (by omega), hf]

theorem entry_congr {mem mem' : Mem} {a : BitVec 32}
    (h : ∀ i < 4, mem' (a + BitVec.ofNat 32 i) = mem (a + BitVec.ofNat 32 i)) : entry mem' a = entry mem a :=
  le32_congr h (show 0 + 4 ≤ 4 by omega)

/-- **A mark** is in the low byte of one entry, and changes no other. -/
theorem mark_upTo {a b : BitVec 32} (ha : a.toNat % 4 = 0) (hb : b.toNat % 4 = 0) {m : BitVec 8}
    (hm : ∀ i < 8, i ≠ 5 → i ≠ 6 → m.getLsbD i = false) (mem : Mem) :
    UpToMarks (entry (mark a m mem) b) (entry mem b) := by
  -- a is none of the three upper bytes of the entry at b
  have hother : ∀ i < 4, i ≠ 0 → mark a m mem (b + BitVec.ofNat 32 i) = mem (b + BitVec.ofNat 32 i) := by
    intro i hi h0
    apply Function.update_of_ne
    intro he
    have := congrArg BitVec.toNat he
    rw [Ram.toNat_off (by omega)] at this
    omega
  intro i hi h5 h6
  simp only [entry, le32, Nat.zero_add, hother 1 (by decide) (by decide), hother 2 (by decide) (by decide),
    hother 3 (by decide) (by decide)]
  generalize mem (b + BitVec.ofNat 32 3) ++ mem (b + BitVec.ofNat 32 2) ++ mem (b + BitVec.ofNat 32 1) = upper
  rw [BitVec.getLsbD_append, BitVec.getLsbD_append]
  by_cases h8 : i < 8
  · rw [if_pos h8, if_pos h8, Ram.off_zero, mark]
    rcases eq_or_ne b a with rfl | hne
    · rw [Function.update_self, BitVec.getLsbD_or, hm i h8 h5 h6, Bool.or_false]
    · rw [Function.update_of_ne hne]
  · rw [if_neg h8, if_neg h8]

theorem accessed_bits : ∀ i < 8, i ≠ 5 → i ≠ 6 → accessed.getLsbD i = false := by decide

theorem dirty_bits : ∀ i < 8, i ≠ 5 → i ≠ 6 → (accessed ||| dirty).getLsbD i = false := by decide

theorem slot_aligned (e : BitVec 32) {i : ℕ} (hi : i < 1024) : (slot e i).toNat % 4 = 0 := by
  rw [slot_toNat e hi]
  omega

theorem Holds.mark {t : Tables} {mem : Mem} (h : Holds t mem) {a : BitVec 32} (ha : a.toNat % 4 = 0) {m : BitVec 8}
    (hm : ∀ i < 8, i ≠ 5 → i ≠ 6 → m.getLsbD i = false) : Holds t (mark a m mem) where
  dir d hd := (mark_upTo ha (slot_aligned _ hd) hm mem).trans (h.dir d hd)
  table d hd hp i hi := (mark_upTo ha (slot_aligned _ hi) hm mem).trans (h.table d hd hp i hi)

/-! ## Accesses -/

/-- **An access** goes where the tables say, or faults as they say; it changes at most two low bytes of entries, and the
tables are held as before. -/
theorem walk_holds {t : Tables} {mem : Mem} (h : Holds t mem) (wp write : Bool) (la : BitVec 32) :
    (t.translate wp write la = none ∧ walk t.cr3 wp write la mem = none) ∨
      ∃ pa mem', t.translate wp write la = some pa ∧ walk t.cr3 wp write la mem = some (pa, mem') ∧ Holds t mem' ∧
        ∀ x ∉ t.marked, mem' x = mem x := by
  have hd := dirIndex_lt la
  have hi := tableIndex_lt la
  have hpde := h.dir _ hd
  by_cases hp : present (t.pde (dirIndex la)) = true
  · have hpte := h.table _ hd hp _ hi
    have hslot := hpde.slot (tableIndex la)
    rw [← hslot] at hpte
    have hallowed := hpde.allowed hpte wp write
    by_cases hok : allowed wp write (t.pde (dirIndex la)) (t.pte (dirIndex la) (tableIndex la)) = true
    · have hbits : ∀ i < 8, i ≠ 5 → i ≠ 6 → (if write then accessed ||| dirty else accessed).getLsbD i = false := by
        cases write
        · exact accessed_bits
        · exact dirty_bits
      refine .inr ⟨frame (t.pte (dirIndex la) (tableIndex la)) + BitVec.ofNat 32 (offset la),
        mark (slot (entry mem (slot t.cr3 (dirIndex la))) (tableIndex la)) (if write then accessed ||| dirty else accessed)
          (mark (slot t.cr3 (dirIndex la)) accessed mem), if_pos hok, ?_,
        (h.mark (slot_aligned t.cr3 hd) accessed_bits).mark (slot_aligned _ hi) hbits, ?_⟩
      · rw [← hpte.frame]
        exact if_pos (hallowed.trans hok)
      · intro x hx
        have hx₁ : x ≠ slot t.cr3 (dirIndex la) := fun he => hx (Or.inl ⟨_, hd, he⟩)
        have hx₂ : x ≠ slot (entry mem (slot t.cr3 (dirIndex la))) (tableIndex la) := by
          rw [hslot]
          exact fun he => hx (Or.inr ⟨_, hd, hp, _, hi, he⟩)
        exact (Function.update_of_ne hx₂ _ _).trans (Function.update_of_ne hx₁ _ _)
    · exact .inl ⟨if_neg hok, if_neg (by rwa [hallowed])⟩
  · have hp' : present (entry mem (slot t.cr3 (dirIndex la))) ≠ true := by
      rw [present, hpde 0 (by decide) (by decide) (by decide)]
      exact hp
    exact .inl ⟨if_neg (by simp [allowed, hp]), if_neg (by simp [allowed, hp'])⟩

/-! ## Loads and stores -/

/-- a load of a byte, or a store -/
inductive Op where
  | ld (la : BitVec 32)
  | st (la : BitVec 32) (b : BitVec 8)
deriving DecidableEq, Repr

def Op.addr : Op → BitVec 32
  | ld la => la
  | st la _ => la

def Op.write : Op → Bool
  | ld _ => false
  | st _ _ => true

/-- the operation on plain memory, at pa: the byte that was moved, and memory after it -/
def Op.at (o : Op) (pa : BitVec 32) (mem : Mem) : BitVec 8 × Mem :=
  match o with
  | ld _ => (mem pa, mem)
  | st _ b => (b, Function.update mem pa b)

/-- the operation through the paging unit -/
def Op.step (cr3 : BitVec 32) (wp : Bool) (o : Op) (mem : Mem) : Option (BitVec 8 × Mem) :=
  (walk cr3 wp o.write o.addr mem).map fun r => o.at r.1 r.2

/-- one after the other; none if one of them faults -/
def run (cr3 : BitVec 32) (wp : Bool) : List Op → Mem → Option (List (BitVec 8) × Mem)
  | [], mem => some ([], mem)
  | o :: l, mem => (o.step cr3 wp mem).bind fun r => (run cr3 wp l r.2).map fun q => (r.1 :: q.1, q.2)

/-- the same on plain memory, each at the address that `place` gives -/
def runPlain (place : Op → BitVec 32) : List Op → Mem → List (BitVec 8) × Mem
  | [], mem => ([], mem)
  | o :: l, mem =>
    let r := o.at (place o) mem
    let q := runPlain place l r.2
    (r.1 :: q.1, q.2)

/-- only the places of the operations matter -/
theorem runPlain_congr {place place' : Op → BitVec 32} {l : List Op} (h : ∀ o ∈ l, place o = place' o) (mem : Mem) :
    runPlain place l mem = runPlain place' l mem := by
  induction l generalizing mem with
  | nil => rfl
  | cons o l ih =>
    rw [runPlain, runPlain, h o List.mem_cons_self, ih fun o' ho' => h o' (List.mem_cons_of_mem o ho')]

/-- the stores of l, from la on -/
def storeOps : BitVec 32 → List (BitVec 8) → List Op
  | _, [] => []
  | la, b :: l => .st la b :: storeOps (la + 1) l

theorem mem_storeOps {la : BitVec 32} {l : List (BitVec 8)} {o : Op} (h : o ∈ storeOps la l) :
    ∃ i < l.length, o.addr = la + BitVec.ofNat 32 i ∧ o.write = true := by
  induction l generalizing la with
  | nil => cases h
  | cons b l ih =>
    rcases List.mem_cons.1 h with rfl | h
    · exact ⟨0, Nat.succ_pos _, (Ram.off_zero la).symm, rfl⟩
    · obtain ⟨i, hi, ho, hw⟩ := ih h
      exact ⟨i + 1, Nat.succ_lt_succ hi, by rw [ho, Ram.off_succ], hw⟩

/-- they store what they say, a fixed distance away -/
theorem runPlain_storeOps (d la : BitVec 32) (l : List (BitVec 8)) (r : Ram 32) :
    (runPlain (fun o => o.addr - d) (storeOps la l) r.byte).2 = (r.stores (la - d) l).byte := by
  induction l generalizing la r with
  | nil => rfl
  | cons b l ih =>
    have hnext : la + 1 - d = la - d + 1 := by
      rw [BitVec.sub_eq_add_neg, BitVec.sub_eq_add_neg, BitVec.add_assoc, BitVec.add_comm 1, ← BitVec.add_assoc]
    have hrest := ih (la + 1) (r.st8 (la - d) b)
    rw [hnext] at hrest
    exact hrest

/-- the bytes of the entries -/
def Tables.span (t : Tables) : Set (BitVec 32) :=
  {x | (∃ d < 1024, ∃ k < 4, x = slot t.cr3 d + BitVec.ofNat 32 k) ∨
    ∃ d < 1024, present (t.pde d) = true ∧ ∃ i < 1024, ∃ k < 4, x = slot (t.pde d) i + BitVec.ofNat 32 k}

theorem marked_subset (t : Tables) : t.marked ⊆ t.span := by
  rintro x (⟨d, hd, rfl⟩ | ⟨d, hd, hp, i, hi, rfl⟩)
  · exact Or.inl ⟨d, hd, 0, by decide, (Ram.off_zero _).symm⟩
  · exact Or.inr ⟨d, hd, hp, i, hi, 0, by decide, (Ram.off_zero _).symm⟩

/-- memory that agrees on the entries holds the same tables -/
theorem Holds.congr {t : Tables} {mem mem' : Mem} (h : Holds t mem) (hmem : ∀ x ∈ t.span, mem' x = mem x) :
    Holds t mem' where
  dir d hd := by
    rw [entry_congr fun k hk => hmem _ (Or.inl ⟨d, hd, k, hk, rfl⟩)]
    exact h.dir d hd
  table d hd hp i hi := by
    rw [entry_congr fun k hk => hmem _ (Or.inr ⟨d, hd, hp, i, hi, k, hk, rfl⟩)]
    exact h.table d hd hp i hi

/-- memory with tables, and plain memory without them -/
structure Sim (t : Tables) (mem plain : Mem) : Prop where
  holds : Holds t mem
  same : ∀ x ∉ t.marked, mem x = plain x

/-- one operation -/
theorem Sim.step {t : Tables} {wp : Bool} {mem plain : Mem} (h : Sim t mem plain) {o : Op} {pa : BitVec 32}
    (ho : t.translate wp o.write o.addr = some pa) (hpa : pa ∉ t.span) :
    ∃ mem', o.step t.cr3 wp mem = some ((o.at pa plain).1, mem') ∧ Sim t mem' (o.at pa plain).2 := by
  have hpa' : pa ∉ t.marked := fun hm => hpa (marked_subset t hm)
  obtain ⟨hnone, -⟩ | ⟨pa', mem', hsome, hwalk, hholds, hsame⟩ := walk_holds h.holds wp o.write o.addr
  · rw [ho] at hnone
    cases hnone
  · obtain rfl := Option.some.inj (ho.symm.trans hsome)
    refine ⟨(o.at pa mem').2, ?_, ?_⟩
    · rw [Op.step, hwalk]
      cases o with
      | ld la => exact congrArg (fun b => some (b, mem')) ((hsame pa hpa').trans (h.same pa hpa'))
      | st la b => rfl
    · cases o with
      | ld la => exact ⟨hholds, fun x hx => (hsame x hx).trans (h.same x hx)⟩
      | st la b =>
        constructor
        · apply hholds.congr
          intro x hx
          exact Function.update_of_ne (fun he : x = pa => hpa (he ▸ hx)) _ _
        · intro x hx
          show Function.update mem' pa b x = Function.update plain pa b x
          rcases eq_or_ne x pa with rfl | hne
          · rw [Function.update_self, Function.update_self]
          · rw [Function.update_of_ne hne, Function.update_of_ne hne, hsame x hx, h.same x hx]

/-- **Flat memory.** A run of operations that are all allowed, and keep off the tables, moves the bytes that the same
operations move on plain memory, at the translated addresses; memory is the same after it but for the marks. -/
theorem run_flat {t : Tables} {wp : Bool} {mem plain : Mem} (h : Sim t mem plain) {place : Op → BitVec 32} (l : List Op)
    (hl : ∀ o ∈ l, t.translate wp o.write o.addr = some (place o) ∧ place o ∉ t.span) :
    ∃ mem', run t.cr3 wp l mem = some ((runPlain place l plain).1, mem') ∧ Sim t mem' (runPlain place l plain).2 := by
  induction l generalizing mem plain with
  | nil => exact ⟨mem, rfl, h⟩
  | cons o l ih =>
    obtain ⟨ho, hout⟩ := hl o List.mem_cons_self
    obtain ⟨mem₁, hstep, hsim⟩ := h.step ho hout
    obtain ⟨mem', hrun, hsim'⟩ := ih hsim fun o' ho' => hl o' (List.mem_cons_of_mem o ho')
    refine ⟨mem', ?_, hsim'⟩
    rw [run, hstep, Option.bind_some]
    simp only [hrun, Option.map_some]
    rfl

/-- an operation that the tables forbid -/
theorem Sim.fault {t : Tables} {wp : Bool} {mem plain : Mem} (h : Sim t mem plain) {o : Op}
    (ho : t.translate wp o.write o.addr = none) : o.step t.cr3 wp mem = none := by
  obtain ⟨-, hwalk⟩ | ⟨pa, mem', hsome, -⟩ := walk_holds h.holds wp o.write o.addr
  · rw [Op.step, hwalk, Option.map_none]
  · rw [ho] at hsome
    cases hsome

/-- a run with an operation that the tables forbid, after others that keep off the tables -/
theorem run_fault {t : Tables} {wp : Bool} {mem plain : Mem} (h : Sim t mem plain) {l : List Op}
    (hl : ∀ o ∈ l, ∀ pa, t.translate wp o.write o.addr = some pa → pa ∉ t.span)
    (hf : ∃ o ∈ l, t.translate wp o.write o.addr = none) : run t.cr3 wp l mem = none := by
  induction l generalizing mem plain with
  | nil =>
    obtain ⟨o, ho, -⟩ := hf
    cases ho
  | cons o l ih =>
    rw [run]
    cases ho : t.translate wp o.write o.addr with
    | none => rw [h.fault ho, Option.bind_none]
    | some pa =>
      obtain ⟨mem', hstep, hsim⟩ := h.step ho (hl o List.mem_cons_self pa ho)
      have hrest : ∃ o ∈ l, t.translate wp o.write o.addr = none := by
        obtain ⟨o', ho', hnone⟩ := hf
        rcases List.mem_cons.1 ho' with rfl | ho'
        · rw [ho] at hnone
          cases hnone
        · exact ⟨o', ho', hnone⟩
      rw [hstep, Option.bind_some]
      simp only [ih hsim (fun o' ho' => hl o' (List.mem_cons_of_mem o ho')) hrest, Option.map_none]

end Jos.Paging
