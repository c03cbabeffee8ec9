/-
Sinks: a state that takes symbols one at a time, `put : α → σ → σ`.

A map between two sinks that commutes with `put` carries everything a producer does on the one over to the other. The
list of symbols is the free sink: `feed put s` is the map from it into any other.
-/
import Mathlib.Tactic

namespace Jos.Sink

variable {α ρ σ τ : Type}

/-- h commutes with the two sinks -/
def Map (put₁ : α → τ → τ) (put₂ : α → σ → σ) (h : τ → σ) : Prop := ∀ c t, h (put₁ c t) = put₂ c (h t)

/-- the free sink: symbols in order of arrival -/
def snoc (c : α) (t : List α) : List α := t ++ [c]

/-- all symbols of a list, in order -/
def feed (put : α → σ → σ) (s : σ) (l : List α) : σ := l.foldl (fun s c => put c s) s

theorem Map.refl (put : α → σ → σ) : Map put put id := fun _ _ => rfl

theorem Map.append (l : List α) : Map snoc snoc (l ++ ·) := fun c t => (List.append_assoc l t [c]).symm

@[simp] theorem feed_nil (put : α → σ → σ) (s : σ) : feed put s [] = s := rfl

@[simp] theorem feed_cons (put : α → σ → σ) (s : σ) (c : α) (l : List α) :
    feed put s (c :: l) = feed put (put c s) l := rfl

@[simp] theorem feed_append (put : α → σ → σ) (s : σ) (l l' : List α) :
    feed put s (l ++ l') = feed put (feed put s l) l' := List.foldl_append

theorem feed_snoc (put : α → σ → σ) (s : σ) (c : α) (l : List α) : feed put s (snoc c l) = put c (feed put s l) := by
  simp [snoc]

theorem feed_free (s l : List α) : feed snoc s l = s ++ l := by
  induction l generalizing s with
  | nil => exact (List.append_nil s).symm
  | cons c l ih =>
    rw [feed_cons, ih, snoc, List.append_assoc]
    rfl

/-- `feed` is the map out of the free sink. -/
theorem Map.feed (put : α → σ → σ) (s : σ) : Map snoc put (feed put s) := feed_snoc put s

/-- an invariant of `put` holds after any list -/
theorem feed_induction (put : α → σ → σ) (P : List α → σ → Prop) {s : σ} (h0 : P [] s)
    (hs : ∀ l c s', P l s' → P (l ++ [c]) (put c s')) (l : List α) : P l (feed put s l) := by
  induction l using List.reverseRecOn with
  | nil => exact h0
  | append_singleton l c ih =>
    rw [feed_append]
    exact hs l c _ ih

end Jos.Sink
