/-
Computations that can fail, `Except ε α`, taken apart and put together.

`Local f` says of a computation that consumes the front of a list that, once it succeeds, what lies behind the part it
consumed does not matter to it.
-/
import Mathlib.Tactic

namespace Jos

variable {ε α β γ : Type}

theorem ok_bind (a : α) (f : α → Except ε β) : (Except.ok a >>= f) = f a := rfl

theorem map_ok (f : α → β) (a : α) : (Except.ok a : Except ε α).map f = .ok (f a) := rfl

theorem bind_ok {x : Except ε α} {f : α → Except ε β} {b : β} (h : x >>= f = .ok b) :
    ∃ a, x = .ok a ∧ f a = .ok b := by
  cases x with
  | error e => cases h
  | ok a => exact ⟨a, rfl, h⟩

theorem map_eq_ok {x : Except ε α} {f : α → β} {b : β} (h : x.map f = .ok b) : ∃ a, x = .ok a ∧ f a = b := by
  cases x with
  | error e => cases h
  | ok a => cases h; exact ⟨a, rfl, rfl⟩

theorem map_id (x : Except ε α) : x.map id = x := by
  cases x <;> rfl

theorem map_map (x : Except ε α) (f : α → β) (g : β → γ) : (x.map f).map g = x.map (g ∘ f) := by
  cases x <;> rfl

theorem bind_map (x : Except ε α) (f : α → β) (g : β → Except ε γ) : (x.map f >>= g) = x >>= (g ∘ f) := by
  cases x <;> rfl

theorem map_bind (x : Except ε α) (f : α → Except ε β) (g : β → γ) :
    (x >>= f).map g = x >>= fun a => (f a).map g := by
  cases x <;> rfl

/-! ## Switches -/

/-- a switch of which each case is a computation, mapped case by case -/
theorem case_map {c : Prop} [Decidable c] {f : α → β} {x : Except ε α} {x' : Except ε β} {y : Option (Except ε α)}
    {y' : Option (Except ε β)} (hx : x.map f = x') (hy : y.map (fun r => r.map f) = y') :
    (if c then some x else y).map (fun r => r.map f) = if c then some x' else y' := by
  split_ifs
  · exact congrArg some hx
  · exact hy

/-- a switch that succeeds, where each case that succeeds does so in the other switch -/
theorem case_ok {c : Prop} [Decidable c] {a : α} {b : β} {x : Except ε α} {x' : Except ε β} {y : Option (Except ε α)}
    {y' : Option (Except ε β)} (hx : x = .ok a → x' = .ok b) (hy : y = some (.ok a) → y' = some (.ok b)) :
    (if c then some x else y) = some (.ok a) → (if c then some x' else y') = some (.ok b) := by
  intro h
  split_ifs at h ⊢
  · exact congrArg some (hx (Option.some.inj h))
  · exact hy h

/-- a switch that gives r gives it by its first case, or by those behind it -/
theorem case_elim {c P : Prop} [Decidable c] {x r : α} {y : Option α} (h : (if c then some x else y) = some r)
    (hx : c → x = r → P) (hy : y = some r → P) : P := by
  split_ifs at h with hc
  · exact hx hc (Option.some.inj h)
  · exact hy h

theorem case_eq_none {c : Prop} [Decidable c] {x : α} {y : Option α} :
    (if c then some x else y) = none ↔ ¬ c ∧ y = none := by
  by_cases hc : c
  · simp [hc]
  · simp [hc]

/-! ## Consumers of a list -/

/-- a success of f on l is its success on any extension of l, with the extension left over -/
def Local (f : List α → Except ε (β × List α)) : Prop :=
  ∀ l b rest, f l = .ok (b, rest) → ∀ t, f (l ++ t) = .ok (b, rest ++ t)

/-- a consumer, and then a computation that consumes nothing -/
theorem Local.andThen {f : List α → Except ε (β × List α)} {F : List α → Except ε (γ × List α)} (hf : Local f)
    (x : β → Except ε γ) (hF : ∀ l, F l = f l >>= fun r => (x r.1).map fun c => (c, r.2)) : Local F := by
  intro l c rest h t
  rw [hF] at h
  obtain ⟨⟨b, rest'⟩, hb, h⟩ := bind_ok h
  obtain ⟨c', hc, h⟩ := map_eq_ok h
  cases h
  rw [hF, hf l _ _ hb t, ok_bind, hc]
  rfl

end Jos
