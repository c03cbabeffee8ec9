/-
Functions that are built up by writes to parts of their domain, each over what the earlier ones left.

A write i gives `value i x` at the points it covers. After a list of writes a point has the value of the last write that
covers it (`overlay_eq`).
-/
import Mathlib.Tactic

namespace Jos.Overlay

variable {ι α β : Type} (covers : ι → α → Prop) [∀ i x, Decidable (covers i x)] (value : ι → α → β)

/-- f after the writes of l, the first one first -/
def overlay (l : List ι) (f : α → β) : α → β := l.foldl (fun f i x => if covers i x then value i x else f x) f

/-- the last write of l that covers x -/
def lastOver (l : List ι) (x : α) : Option ι := (l.filter (covers · x)).getLast?

theorem overlay_append (l l' : List ι) (f : α → β) :
    overlay covers value (l ++ l') f = overlay covers value l' (overlay covers value l f) := List.foldl_append

theorem overlay_snoc (l : List ι) (i : ι) (f : α → β) (x : α) :
    overlay covers value (l ++ [i]) f x = if covers i x then value i x else overlay covers value l f x := by
  rw [overlay_append]; rfl

/-- **The last write wins.** -/
theorem overlay_eq (l : List ι) (f : α → β) (x : α) :
    overlay covers value l f x = ((lastOver covers l x).map (value · x)).getD (f x) := by
  induction l using List.reverseRecOn with
  | nil => rfl
  | append_singleton l i ih =>
    rw [overlay_snoc, lastOver, List.filter_append]
    by_cases h : covers i x
    · simp [h]
    · rw [if_neg h, List.filter_cons_of_neg (by simpa using h), List.filter_nil, List.append_nil, ih]
      rfl

/-- a write that covers x is the last one, but for those after it -/
theorem lastOver_after (l₁ : List ι) {i : ι} (l₂ : List ι) {x : α} (h : covers i x) :
    lastOver covers (l₁ ++ i :: l₂) x = (lastOver covers l₂ x).or (some i) := by
  rw [lastOver, List.filter_append, List.filter_cons_of_pos (by simpa using h), List.getLast?_append,
    List.getLast?_cons, lastOver]
  cases (l₂.filter (covers · x)).getLast? <;> rfl

theorem lastOver_mem {l : List ι} {i : ι} {x : α} (h : i ∈ lastOver covers l x) : i ∈ l ∧ covers i x := by
  have := List.mem_of_getLast? h
  rw [List.mem_filter, decide_eq_true_eq] at this
  exact this

/-- points that no write covers keep their value -/
theorem overlay_frame {l : List ι} (f : α → β) {x : α} (h : ∀ i ∈ l, ¬ covers i x) : overlay covers value l f x = f x := by
  rw [overlay_eq, lastOver, List.filter_eq_nil_iff.2 (by simpa using h)]
  rfl

end Jos.Overlay
