/-
A ring of n cells with a read and a write index, in which equal indices mean empty.

`contents` is the queue that a ring stands for. While fewer than n - 1 symbols are queued, `put` appends to it. With
n - 1 queued, `put` makes the indices equal, so the queue is empty again.
-/
import Mathlib.Tactic

namespace Jos

structure Ring (α : Type) (n : ℕ) where
  cell : ℕ → α
  rpos : ℕ
  wpos : ℕ

namespace Ring

variable {α : Type} {n : ℕ}

/-- `if (++i == n) i = 0` -/
def next (n i : ℕ) : ℕ := if i + 1 = n then 0 else i + 1

def put (x : α) (r : Ring α n) : Ring α n :=
  { r with cell := Function.update r.cell r.wpos x, wpos := next n r.wpos }

/-- the next symbol, if any, and the ring without it -/
def take (r : Ring α n) : Option α × Ring α n :=
  if r.rpos ≠ r.wpos then (some (r.cell r.rpos), { r with rpos := next n r.rpos }) else (none, r)

/-- both indices are those of cells -/
structure Valid (r : Ring α n) : Prop where
  rpos : r.rpos < n
  wpos : r.wpos < n

def count (r : Ring α n) : ℕ := if r.rpos ≤ r.wpos then r.wpos - r.rpos else r.wpos + n - r.rpos

/-- the index of the i-th queued symbol -/
def index (r : Ring α n) (i : ℕ) : ℕ := if r.rpos + i < n then r.rpos + i else r.rpos + i - n

/-- the queued symbols, the next one to be read first -/
def contents (r : Ring α n) : List α := (List.range r.count).map fun i => r.cell (r.index i)

/-! ## One operation -/

theorem next_lt {i : ℕ} (h : i < n) : next n i < n := by
  unfold next
  split_ifs <;> omega

theorem Valid.put {r : Ring α n} (h : r.Valid) (x : α) : (r.put x).Valid := ⟨h.rpos, next_lt h.wpos⟩

theorem Valid.take {r : Ring α n} (h : r.Valid) : r.take.2.Valid := by
  unfold Ring.take
  split_ifs
  · exact ⟨next_lt h.rpos, h.wpos⟩
  · exact h

theorem count_lt {r : Ring α n} (h : r.Valid) : r.count < n := by
  have := h.rpos
  have := h.wpos
  unfold count
  split_ifs <;> omega

@[simp] theorem length_contents (r : Ring α n) : r.contents.length = r.count := by simp [contents]

theorem count_put {r : Ring α n} (h : r.Valid) (x : α) :
    (r.put x).count = if r.count + 1 = n then 0 else r.count + 1 := by
  have := h.rpos
  have := h.wpos
  unfold count Ring.put next
  split_ifs <;> simp only at * <;> omega

/-- **put**, with room to spare, appends. -/
theorem contents_put {r : Ring α n} (h : r.Valid) (hroom : r.count + 1 < n) (x : α) :
    (r.put x).contents = r.contents ++ [x] := by
  have hr := h.rpos
  have hw := h.wpos
  have hc : (r.put x).count = r.count + 1 := by rw [count_put h, if_neg (by omega)]
  have hlast : r.index r.count = r.wpos := by
    unfold index count
    split_ifs <;> omega
  -- the cell written is none of the queued ones
  have hne : ∀ i < r.count, r.index i ≠ r.wpos := by
    intro i hi
    unfold count at hi
    unfold index
    split_ifs at hi ⊢ <;> omega
  rw [contents, hc, List.range_succ, List.map_append, List.map_singleton]
  congr 1
  · refine List.map_congr_left fun i hi => ?_
    exact Function.update_of_ne (hne i (List.mem_range.1 hi)) x r.cell
  · have : (r.put x).cell ((r.put x).index r.count) = x := by
      show Function.update r.cell r.wpos x (r.index r.count) = x
      rw [hlast, Function.update_self]
    rw [this]

theorem count_eq_zero {r : Ring α n} (h : r.Valid) : r.count = 0 ↔ r.rpos = r.wpos := by
  have := h.rpos
  have := h.wpos
  unfold count
  split_ifs <;> omega

/-- take on an empty queue -/
theorem take_nil {r : Ring α n} (h : r.Valid) (hc : r.contents = []) : r.take = (none, r) := by
  have h0 : r.count = 0 := by rw [← length_contents, hc]; rfl
  rw [Ring.take, if_neg (not_not.2 ((count_eq_zero h).1 h0))]

/-- **take** removes the first queued symbol. -/
theorem take_cons {r : Ring α n} (h : r.Valid) {x : α} {l : List α} (hc : r.contents = x :: l) :
    r.take.1 = some x ∧ r.take.2.contents = l := by
  have hr := h.rpos
  have hw := h.wpos
  have hlen : r.count = l.length + 1 := by rw [← length_contents, hc]; rfl
  have hne : r.rpos ≠ r.wpos := fun he => by rw [(count_eq_zero h).2 he] at hlen; omega
  have hcount : r.take.2.count = l.length := by
    rw [Ring.take, if_pos hne]
    unfold count at hlen ⊢
    unfold next
    simp only
    split_ifs at hlen ⊢ <;> omega
  have hget : ∀ i (hi : i < r.contents.length), r.contents[i] = r.cell (r.index i) := by
    intro i hi
    simp [contents]
  constructor
  · have h0 := hget 0 (by rw [hc]; simp)
    simp only [hc, List.getElem_cons_zero] at h0
    rw [Ring.take, if_pos hne, h0, index, if_pos (by omega), Nat.add_zero]
  · refine List.ext_getElem (by rw [length_contents, hcount]) fun i h1 h2 => ?_
    have hs := hget (i + 1) (by rw [hc]; simpa using h2)
    simp only [hc, List.getElem_cons_succ] at hs
    rw [hs]
    simp only [contents, List.getElem_map, List.getElem_range]
    rw [Ring.take, if_pos hne]
    have hlt := count_lt h
    unfold index next
    simp only
    congr 1
    split_ifs <;> omega

/-! ## Many puts -/

def putAll (l : List α) (r : Ring α n) : Ring α n := l.foldl (fun r x => r.put x) r

theorem Valid.putAll {r : Ring α n} (h : r.Valid) (l : List α) : (r.putAll l).Valid := by
  induction l generalizing r with
  | nil => exact h
  | cons x l ih => exact ih (h.put x)

theorem contents_putAll {r : Ring α n} (h : r.Valid) (l : List α) (hroom : r.count + l.length < n) :
    (r.putAll l).contents = r.contents ++ l := by
  induction l generalizing r with
  | nil => simp [Ring.putAll]
  | cons x l ih =>
    rw [List.length_cons] at hroom
    have hc := contents_put h (by omega) x
    have hcount : (r.put x).count = r.count + 1 := by rw [← length_contents, hc]; simp
    have := ih (h.put x) (by omega)
    rw [hc, List.append_assoc] at this
    exact this

end Ring

end Jos
