/-
Searching a sparse key sequence: an array in which only some entries carry a key of the searched kind, the keys that
are there being in order. A search keeps an interval [l, r] of undecided entries. Everything left of l is known to be
below the searched key (`Below`), everything right of r above it (`Above`). The lemmas here say how one probe moves the
two ends; `LastBelow` is what the search is for: the entry whose region contains the key.
-/
import Mathlib.Tactic

namespace Jos.Bracket

variable {κ : Type} [LinearOrder κ]

/-- every key at an index of [lo, hi) is below a -/
def Below (key : ℤ → Option κ) (a : κ) (lo hi : ℤ) : Prop := ∀ i v, lo ≤ i → i < hi → key i = some v → v < a

/-- every key at an index of (lo, hi] is above a -/
def Above (key : ℤ → Option κ) (a : κ) (lo hi : ℤ) : Prop := ∀ i v, lo < i → i ≤ hi → key i = some v → a < v

/-- the keys of [lo, hi] are nondecreasing in index; the entries without a key do not matter -/
def Ordered (key : ℤ → Option κ) (lo hi : ℤ) : Prop :=
  ∀ i j v w, lo ≤ i → i ≤ j → j ≤ hi → key i = some v → key j = some w → v ≤ w

/-- the keys of [lo, hi] are nondecreasing inside every stretch that holds no separator -/
def OrderedBetween (sep : ℤ → Prop) (key : ℤ → Option κ) (lo hi : ℤ) : Prop :=
  ∀ i j v w, lo ≤ i → i ≤ j → j ≤ hi → (∀ k, i < k → k ≤ j → ¬ sep k) → key i = some v → key j = some w → v ≤ w

/-- no entry of [lo, hi] carries a key -/
def Free (key : ℤ → Option κ) (lo hi : ℤ) : Prop := ∀ i, lo ≤ i → i ≤ hi → key i = none

/-- no key of [lo, hi] equals a -/
def Avoids (key : ℤ → Option κ) (a : κ) (lo hi : ℤ) : Prop := ∀ i, lo ≤ i → i ≤ hi → key i ≠ some a

/-- i is the last entry of [lo, hi] whose key is below a -/
structure LastBelow (key : ℤ → Option κ) (a : κ) (lo hi i : ℤ) : Prop where
  lo_le : lo ≤ i
  le_hi : i ≤ hi
  below : ∃ v, key i = some v ∧ v < a
  last : ∀ j v, i < j → j ≤ hi → key j = some v → ¬ v < a

/-- [i, r] is the stretch from entry i to just before the next entry with a key, or to hi if there is none -/
structure Segment (key : ℤ → Option κ) (hi i r : ℤ) : Prop where
  le : i ≤ r
  le_hi : r ≤ hi
  free : Free key (i + 1) r
  next : r = hi ∨ ∃ v, key (r + 1) = some v

/-- r ends the region that starts before it: it is the last index of [lo, hi] before the first key above a -/
structure RegionEnd (key : ℤ → Option κ) (a : κ) (hi r : ℤ) : Prop where
  le_hi : r ≤ hi
  above : Above key a r hi
  next : r = hi ∨ ∃ v, key (r + 1) = some v ∧ a < v

/-- the entries of [lo, hi] whose key satisfies p -/
def Where (key : ℤ → Option κ) (lo hi : ℤ) (p : κ → Prop) : Set ℤ := {i | lo ≤ i ∧ i ≤ hi ∧ ∃ v, key i = some v ∧ p v}

/-- r is one less than the first index in S, or hi if S is empty -/
def JustBefore (S : Set ℤ) (hi r : ℤ) : Prop := IsLeast S (r + 1) ∨ S = ∅ ∧ r = hi

/-! ## The ends -/

theorem below_self (key : ℤ → Option κ) (a : κ) (lo : ℤ) : Below key a lo lo := by
  intro i v h1 h2; omega

theorem above_self (key : ℤ → Option κ) (a : κ) (hi : ℤ) : Above key a hi hi := by
  intro i v h1 h2; omega

theorem OrderedBetween.ordered {sep : ℤ → Prop} {key : ℤ → Option κ} {lo hi i r : ℤ}
    (h : OrderedBetween sep key lo hi) (hlo : lo ≤ i) (hr : r ≤ hi) (hs : ∀ k, i < k → k ≤ r → ¬ sep k) :
    Ordered key i r := by
  intro j k v w h1 h2 h3 hv hw
  exact h j k v w (by omega) h2 (by omega) (fun m hm1 hm2 => hs m (by omega) (by omega)) hv hw

/-! ## Deciding on concrete sequences -/

section Decide

variable {key : ℤ → Option κ} {a : κ} {lo hi i r : ℤ}

instance {sep : ℤ → Prop} [DecidablePred sep] : Decidable (OrderedBetween sep key lo hi) :=
  decidable_of_iff (∀ i, lo ≤ i → i ≤ hi → ∀ j, i ≤ j → j ≤ hi → (∀ k, i < k → k ≤ j → ¬ sep k) →
      ∀ v ∈ key i, ∀ w ∈ key j, v ≤ w)
    ⟨fun h i j v w h1 h2 h3 hs hv hw => h i h1 (by omega) j h2 h3 hs v hv w hw,
      fun h i h1 _ j h2 h3 hs v hv w hw => h i j v w h1 h2 h3 hs hv hw⟩

instance : Decidable (Ordered key lo hi) :=
  decidable_of_iff (OrderedBetween (fun _ => False) key lo hi)
    ⟨fun h i j v w h1 h2 h3 => h i j v w h1 h2 h3 (fun _ _ _ h => h), fun h i j v w h1 h2 h3 _ => h i j v w h1 h2 h3⟩

instance : Decidable (Free key lo hi) := inferInstanceAs (Decidable (∀ i, lo ≤ i → i ≤ hi → key i = none))

instance : Decidable (Avoids key a lo hi) := inferInstanceAs (Decidable (∀ i, lo ≤ i → i ≤ hi → key i ≠ some a))

instance : Decidable (LastBelow key a lo hi i) :=
  decidable_of_iff (lo ≤ i ∧ i ≤ hi ∧ (∃ v ∈ key i, v < a) ∧ ∀ j, i < j → j ≤ hi → ∀ v ∈ key j, ¬ v < a)
    ⟨fun ⟨h1, h2, h3, h4⟩ => ⟨h1, h2, h3, fun j v hj1 hj2 => h4 j hj1 hj2 v⟩,
      fun h => ⟨h.lo_le, h.le_hi, h.below, fun j hj1 hj2 v => h.last j v hj1 hj2⟩⟩

instance : Decidable (Segment key hi i r) :=
  decidable_of_iff (i ≤ r ∧ r ≤ hi ∧ Free key (i + 1) r ∧ (r = hi ∨ (key (r + 1)).isSome)) <| by
    rw [Option.isSome_iff_exists]
    exact ⟨fun ⟨h1, h2, h3, h4⟩ => ⟨h1, h2, h3, h4⟩, fun h => ⟨h.le, h.le_hi, h.free, h.next⟩⟩

end Decide

omit [LinearOrder κ] in
/-- a stretch has one end -/
theorem Segment.unique {key : ℤ → Option κ} {hi i r r' : ℤ} (h : Segment key hi i r) (h' : Segment key hi i r') :
    r = r' := by
  have key_free : ∀ {a b}, Segment key hi i a → Segment key hi i b → a < b → False := by
    intro a b ha hb hab
    rcases ha.next with he | ⟨v, hv⟩
    · have := hb.le_hi; omega
    · rw [hb.free (a + 1) (by have := ha.le; omega) (by omega)] at hv; cases hv
  rcases lt_trichotomy r r' with hlt | heq | hgt
  · exact (key_free h h' hlt).elim
  · exact heq
  · exact (key_free h' h hgt).elim

/-! ## One probe -/

/-- a probe that finds no key in [l, m] moves the left end past m -/
theorem Below.skip {key : ℤ → Option κ} {a : κ} {lo l m : ℤ} (h : Below key a lo l) (hf : Free key l m) :
    Below key a lo (m + 1) := by
  intro i v h1 h2 hv
  by_cases hi : i < l
  · exact h i v h1 hi hv
  · rw [hf i (by omega) (by omega)] at hv; cases hv

/-- a probe that finds a key below a at p, and none between p and m, moves the left end past m -/
theorem below_of_probe {key : ℤ → Option κ} {a v : κ} {lo hi p m : ℤ} (ho : Ordered key lo hi) (hpm : p ≤ m)
    (hm : m ≤ hi) (hp : key p = some v) (hv : v < a) (hf : Free key (p + 1) m) : Below key a lo (m + 1) := by
  intro i w h1 h2 hw
  by_cases hi : i ≤ p
  · exact lt_of_le_of_lt (ho i p w v h1 hi (by omega) hw hp) hv
  · rw [hf i (by omega) (by omega)] at hw; cases hw

/-- a probe that finds a key above a at p moves the right end before p -/
theorem above_of_probe {key : ℤ → Option κ} {a v : κ} {lo hi p : ℤ} (ho : Ordered key lo hi) (hlo : lo ≤ p)
    (hp : key p = some v) (hv : a < v) : Above key a (p - 1) hi := by
  intro i w h1 h2 hw
  exact lt_of_lt_of_le hv (ho p i v w hlo (by omega) h2 hp hw)

/-! ## The last entry below -/

/-- the last entry below a lies left of every point that has only keys above a to its right -/
theorem LastBelow.le_of_above {key : ℤ → Option κ} {a : κ} {lo hi i r : ℤ} (h : LastBelow key a lo hi i)
    (hr : Above key a r hi) : i ≤ r := by
  obtain ⟨v, hv, hva⟩ := h.below
  by_contra hc
  exact absurd hva (lt_asymm (hr i v (by omega) h.le_hi hv))

/-- between the last entry below a and the end of its region there is no key -/
theorem LastBelow.free {key : ℤ → Option κ} {a : κ} {lo hi i r : ℤ} (h : LastBelow key a lo hi i) (hr : r ≤ hi)
    (hb : Below key a lo (r + 1)) : Free key (i + 1) r := by
  intro j h1 h2
  cases hk : key j with
  | none => rfl
  | some v => exact absurd (hb j v (by have := h.lo_le; omega) (by omega) hk) (h.last j v (by omega) (by omega) hk)

theorem lastBelow_of_isGreatest {key : ℤ → Option κ} {a : κ} {lo hi i : ℤ} (h : IsGreatest (Where key lo hi (· < a)) i) :
    LastBelow key a lo hi i where
  lo_le := h.1.1
  le_hi := h.1.2.1
  below := h.1.2.2
  last j v hj hjh hv hva := by
    have := h.2 ⟨by have := h.1.1; omega, hjh, v, hv, hva⟩
    omega

omit [LinearOrder κ] in
/-- a nonempty selection of entries has a last one -/
theorem exists_isGreatest {key : ℤ → Option κ} {lo hi : ℤ} {p : κ → Prop} (h : (Where key lo hi p).Nonempty) :
    ∃ i, IsGreatest (Where key lo hi p) i := by
  obtain ⟨i, hi, hmax⟩ := Int.exists_greatest_of_bdd (P := (· ∈ Where key lo hi p)) ⟨hi, fun _ hz => hz.2.1⟩ h
  exact ⟨i, hi, fun z hz => hmax z hz⟩

/-- the end of a region whose keys are not above a is just before the first key above a -/
theorem RegionEnd.justBefore {key : ℤ → Option κ} {a : κ} {lo hi r : ℤ} (h : RegionEnd key a hi r) (hlo : lo ≤ r + 1)
    (hle : ∀ i v, lo ≤ i → i ≤ r → key i = some v → v ≤ a) : JustBefore (Where key lo hi (a < ·)) hi r := by
  have hS : ∀ i ∈ Where key lo hi (a < ·), r + 1 ≤ i := by
    rintro i ⟨h1, -, v, hv, hav⟩
    by_contra hc
    exact absurd hav (not_lt.2 (hle i v h1 (by omega) hv))
  by_cases hr : r = hi
  · refine Or.inr ⟨Set.eq_empty_iff_forall_notMem.2 fun i hi' => ?_, hr⟩
    have := hS i hi'
    have := hi'.2.1
    omega
  · have := h.le_hi
    rcases h.next with hr' | ⟨v, hv, hav⟩
    · exact absurd hr' hr
    · exact Or.inl ⟨⟨hlo, by omega, v, hv, hav⟩, hS⟩

/-- of two neighbours whose keys differ, the first is the last entry of its key, and just before the keys above -/
theorem Ordered.adjacent {key : ℤ → Option κ} {a b : κ} {lo hi m : ℤ} (h : Ordered key lo hi) (hlo : lo ≤ m - 1)
    (hhi : m ≤ hi) (ha : key (m - 1) = some a) (hb : key m = some b) (hab : a < b) :
    IsGreatest (Where key lo hi (· = a)) (m - 1) ∧ JustBefore (Where key lo hi (a < ·)) hi (m - 1) := by
  refine ⟨⟨⟨hlo, by omega, a, ha, rfl⟩, ?_⟩, Or.inl ⟨⟨by omega, by omega, b, by rwa [sub_add_cancel], hab⟩, ?_⟩⟩
  · rintro j ⟨-, hj, _, hk, rfl⟩
    by_contra hc
    exact absurd hab (not_lt.2 (h m j b _ (by omega) (by omega) hj hb hk))
  · rintro j ⟨hj, -, v, hk, hv⟩
    by_contra hc
    exact absurd hv (not_lt.2 (h j (m - 1) v a hj (by omega) (by omega) hk ha))

end Jos.Bracket
