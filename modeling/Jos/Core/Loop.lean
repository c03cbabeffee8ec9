/-
While loops, run with fuel.

One iteration either goes on in a new state or ends the loop with a result; `none` says that the fuel was used up, by
the loop or by one inside its body. A measure that falls in every iteration bounds the fuel that is needed (`run_rule`).
Of a loop that may not end, `run_partial` says what holds if it does, and `run_never` that it does not.

Where loops are nested, or wait for something outside the program, no bound on the fuel can be written down; `Gives` says
that some amount is enough, and the rule for it is `gives_run`.
-/
import Mathlib.Tactic

namespace Jos.Loop

variable {σ α β : Type}

def run (body : σ → Option (σ ⊕ β)) : ℕ → σ → Option β
  | 0, _ => none
  | n + 1, s =>
    match body s with
    | none => none
    | some (.inl s') => run body n s'
    | some (.inr b) => some b

theorem run_again {body : σ → Option (σ ⊕ β)} {s s' : σ} (h : body s = some (.inl s')) (n : ℕ) :
    run body (n + 1) s = run body n s' := by
  rw [run, h]

theorem run_done {body : σ → Option (σ ⊕ β)} {s : σ} {b : β} (h : body s = some (.inr b)) (n : ℕ) :
    run body (n + 1) s = some b := by
  rw [run, h]

/-- more fuel makes no difference -/
theorem run_mono {body : σ → Option (σ ⊕ β)} {s : σ} {b : β} {n m : ℕ} (h : run body n s = some b) (hnm : n ≤ m) :
    run body m s = some b := by
  induction n generalizing s m with
  | zero => cases h
  | succ n ih =>
    obtain ⟨m, rfl⟩ : ∃ k, m = k + 1 := ⟨m - 1, by omega⟩
    rw [run] at h ⊢
    split at h
    · cases h
    · exact ih h (Nat.le_of_succ_le_succ hnm)
    · exact h

/-- **Loop rule.** If every iteration from a state in P goes on in P with a smaller measure, or ends in Q, then enough
fuel gives a result in Q. -/
theorem run_rule {body : σ → Option (σ ⊕ β)} (P : σ → Prop) (μ : σ → ℕ) (Q : β → Prop)
    (h : ∀ s, P s → (∃ s', body s = some (.inl s') ∧ P s' ∧ μ s' < μ s) ∨ ∃ b, body s = some (.inr b) ∧ Q b)
    {n : ℕ} {s : σ} (hs : P s) (hn : μ s < n) : ∃ b, run body n s = some b ∧ Q b := by
  induction n generalizing s with
  | zero => omega
  | succ n ih =>
    rcases h s hs with ⟨s', hb, hs', hlt⟩ | ⟨b, hb, hQ⟩
    · rw [run_again hb]
      exact ih hs' (by omega)
    · exact ⟨b, run_done hb n, hQ⟩

/-- a loop that ends after k iterations, through the states t 0, t 1, ..., t k -/
theorem run_steps {body : σ → Option (σ ⊕ β)} {t : ℕ → σ} {b : β} {k n : ℕ}
    (hs : ∀ j < k, body (t j) = some (.inl (t (j + 1)))) (hb : body (t k) = some (.inr b)) (hn : k < n) :
    run body n (t 0) = some b := by
  induction k generalizing t n with
  | zero =>
    cases n with
    | zero => cases hn
    | succ n => exact run_done hb n
  | succ k ih =>
    cases n with
    | zero => cases hn
    | succ n =>
      rw [run_again (hs 0 (Nat.succ_pos k))]
      exact ih (fun j hj => hs (j + 1) (Nat.succ_lt_succ hj)) hb (Nat.lt_of_succ_lt_succ hn)

/-- **Partial correctness.** What every iteration preserves holds where the loop ends, if it does. -/
theorem run_partial {body : σ → Option (σ ⊕ β)} (P : σ → Prop) (Q : β → Prop)
    (hnext : ∀ s s', P s → body s = some (.inl s') → P s') (hend : ∀ s b, P s → body s = some (.inr b) → Q b) {n : ℕ}
    {s : σ} {b : β} (hs : P s) (h : run body n s = some b) : Q b := by
  induction n generalizing s with
  | zero => cases h
  | succ n ih =>
    rw [run] at h
    split at h
    · cases h
    · rename_i s' hb
      exact ih (hnext s s' hs hb) h
    · rename_i b' hb
      cases h
      exact hend s b hs hb

/-- an iteration that can only go on, and goes on in P -/
theorem run_never {body : σ → Option (σ ⊕ β)} (P : σ → Prop) (hnext : ∀ s s', P s → body s = some (.inl s') → P s')
    (hend : ∀ s b, P s → body s ≠ some (.inr b)) {s : σ} (hs : P s) (n : ℕ) : run body n s = none := by
  rw [Option.eq_none_iff_forall_ne_some]
  intro b h
  exact run_partial P (fun _ => False) hnext hend hs h

/-- two bodies that end differently -/
theorem run_map {γ : Type} {body : σ → Option (σ ⊕ β)} {body' : σ → Option (σ ⊕ γ)} (g : β → γ)
    (h : ∀ s, body' s = (body s).map (Sum.map id g)) (n : ℕ) (s : σ) : run body' n s = (run body n s).map g := by
  induction n generalizing s with
  | zero => rfl
  | succ n ih =>
    rw [run, run, h]
    cases body s with
    | none => rfl
    | some r =>
      cases r with
      | inl s' => exact ih s'
      | inr b => rfl

/-! ## Enough fuel -/

/-- enough fuel gives b -/
def Gives (f : ℕ → Option β) (b : β) : Prop := ∃ N, ∀ n, N ≤ n → f n = some b

theorem Gives.exists {f : ℕ → Option β} {b : β} (h : Gives f b) : ∃ n, f n = some b := by
  obtain ⟨N, hN⟩ := h
  exact ⟨N, hN N (le_refl N)⟩

theorem Gives.bind {f : ℕ → Option α} {g : ℕ → α → Option β} {a : α} {b : β} (hf : Gives f a)
    (hg : Gives (fun n => g n a) b) : Gives (fun n => (f n).bind (g n)) b := by
  obtain ⟨N, hN⟩ := hf
  obtain ⟨M, hM⟩ := hg
  refine ⟨max N M, fun n hn => ?_⟩
  show (f n).bind (g n) = some b
  rw [hN n (le_trans (le_max_left N M) hn)]
  exact hM n (le_trans (le_max_right N M) hn)

theorem Gives.map {f : ℕ → Option α} {a : α} (hf : Gives f a) (g : α → β) : Gives (fun n => (f n).map g) (g a) := by
  obtain ⟨N, hN⟩ := hf
  exact ⟨N, fun n hn => by simp only [hN n hn, Option.map_some]⟩

/-- enough fuel for a loop whose body may need fuel of its own, also when some has been spent before -/
def Runs (body : ℕ → σ → Option (σ ⊕ β)) (s : σ) (b : β) : Prop := ∀ k, Gives (fun n => run (body n) (n - k) s) b

theorem Runs.gives {body : ℕ → σ → Option (σ ⊕ β)} {s : σ} {b : β} (h : Runs body s b) :
    Gives (fun n => run (body n) n s) b := h 0

theorem Runs.done {body : ℕ → σ → Option (σ ⊕ β)} {s : σ} {b : β} (h : Gives (fun n => body n s) (.inr b)) :
    Runs body s b := by
  intro k
  obtain ⟨N, hN⟩ := h
  refine ⟨max N (k + 1), fun n hn => ?_⟩
  obtain ⟨j, hj⟩ : ∃ j, n - k = j + 1 := ⟨n - (k + 1), by omega⟩
  show run (body n) (n - k) s = some b
  rw [hj, run_done (hN n (by omega))]

theorem Runs.again {body : ℕ → σ → Option (σ ⊕ β)} {s s' : σ} {b : β} (h : Gives (fun n => body n s) (.inl s'))
    (h' : Runs body s' b) : Runs body s b := by
  intro k
  obtain ⟨N, hN⟩ := h
  obtain ⟨M, hM⟩ := h' (k + 1)
  refine ⟨max (max N M) (k + 1), fun n hn => ?_⟩
  obtain ⟨j, hj⟩ : ∃ j, n - k = j + 1 := ⟨n - (k + 1), by omega⟩
  have hrest : run (body n) (n - (k + 1)) s' = some b := hM n (by omega)
  rw [show n - (k + 1) = j by omega] at hrest
  show run (body n) (n - k) s = some b
  rw [hj, run_again (hN n (by omega)), hrest]

/-- **Loop rule with enough fuel.** The body may need fuel of its own: in every state of P enough of it gives a next
state in P with a smaller measure, or a result in Q. -/
theorem gives_run {body : ℕ → σ → Option (σ ⊕ β)} (P : σ → Prop) (μ : σ → ℕ) (Q : β → Prop)
    (h : ∀ s, P s → (∃ s', Gives (fun n => body n s) (.inl s') ∧ P s' ∧ μ s' < μ s) ∨
      ∃ b, Gives (fun n => body n s) (.inr b) ∧ Q b) {s : σ} (hs : P s) :
    ∃ b, Gives (fun n => run (body n) n s) b ∧ Q b := by
  suffices hruns : ∃ b, Runs body s b ∧ Q b by
    obtain ⟨b, hb, hQ⟩ := hruns
    exact ⟨b, hb.gives, hQ⟩
  generalize hm : μ s = m
  induction m using Nat.strong_induction_on generalizing s with
  | _ m ih =>
    rcases h s hs with ⟨s', hnext, hs', hlt⟩ | ⟨b, hend, hQ⟩
    · obtain ⟨b, hb, hQ⟩ := ih (μ s') (hm ▸ hlt) hs' rfl
      exact ⟨b, Runs.again hnext hb, hQ⟩
    · exact ⟨b, Runs.done hend, hQ⟩

end Jos.Loop
