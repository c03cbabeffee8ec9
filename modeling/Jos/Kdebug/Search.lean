/-
What `stab_binsearch` computes. `keyOf` reads the table as a sparse key sequence (`Jos.Bracket`): the entries of the
searched type carry their value, the others nothing.

- `searchLoop_rule`: the loop ends, and what every iteration preserves holds at its end.
- `stabBinsearch_bounds`: on any table, sorted or not, the search inside [L, R] reads only entries of [L, R], and says
  where its two results can lie.
- `stabBinsearch_between`: on a sorted region, for an address equal to no entry but above one, the search returns the
  last entry below the address and the last index before the first entry above it.
-/
import Jos.Core.Bracket
import Jos.Kdebug.Model

namespace Jos.Kdebug

open Jos.Bracket

/-- the value of entry i if it has the type -/
def keyOf (stabs : List Stab) (type i : ℤ) : Option ℕ :=
  match stabAt stabs i with
  | .error _ => none
  | .ok s => if s.hasType type then some s.nValue.toNat else none

/-! ## Reading the table -/

theorem stabAt_ok (stabs : List Stab) (i : ℤ) (h0 : 0 ≤ i) (hN : i < stabs.length) : ∃ s, stabAt stabs i = .ok s := by
  have hlt : i.toNat < stabs.length := by omega
  refine ⟨stabs[i.toNat], ?_⟩
  simp [stabAt, not_lt.2 h0, hlt]

theorem keyOf_some {stabs : List Stab} {type i : ℤ} {v : ℕ} (h : keyOf stabs type i = some v) :
    ∃ s, stabAt stabs i = .ok s ∧ s.hasType type ∧ s.nValue.toNat = v := by
  unfold keyOf at h
  split at h
  · cases h
  · rename_i s hs
    split_ifs at h with ht
    exact ⟨s, hs, ht, by simpa using h⟩

theorem keyOf_of_stab {stabs : List Stab} {type i : ℤ} {s : Stab} (h : stabAt stabs i = .ok s)
    (ht : s.hasType type) : keyOf stabs type i = some s.nValue.toNat := by
  simp [keyOf, h, ht]

theorem keyOf_none_of_stab {stabs : List Stab} {type i : ℤ} {s : Stab} (h : stabAt stabs i = .ok s)
    (ht : ¬ s.hasType type) : keyOf stabs type i = none := by
  simp [keyOf, h, ht]

/-! ## The backward scan -/

theorem scanDown_ok (stabs : List Stab) (type l m : ℤ) (h0 : 0 ≤ l) (hN : m < stabs.length) :
    ∃ p, scanDown stabs type l m = .ok p := by
  fun_induction scanDown stabs type l m with
  | case1 m hl e he =>
    obtain ⟨s, hs⟩ := stabAt_ok stabs m (by omega) hN
    rw [hs] at he; cases he
  | case2 m hl s hs ht => exact ⟨m, rfl⟩
  | case3 m hl s hs ht ih => exact ih (by omega)
  | case4 m hl => exact ⟨m, rfl⟩

/-- the scan stops at an entry of the type unless it ran below l, and it passed over no such entry -/
theorem scanDown_spec {stabs : List Stab} {type l m p : ℤ} (h : scanDown stabs type l m = .ok p) :
    (l ≤ p → ∃ s, stabAt stabs p = .ok s ∧ s.hasType type) ∧ Free (keyOf stabs type) (p + 1) m := by
  fun_induction scanDown stabs type l m with
  | case1 m hl e he => cases h
  | case2 m hl s hs ht =>
    cases h
    exact ⟨fun _ => ⟨s, hs, ht⟩, fun i h1 h2 => by omega⟩
  | case3 m hl s hs ht ih =>
    obtain ⟨h1, h2⟩ := ih h
    refine ⟨h1, fun i hi1 hi2 => ?_⟩
    by_cases him : i = m
    · rw [him]; exact keyOf_none_of_stab hs ht
    · exact h2 i hi1 (by omega)
  | case4 m hl =>
    cases h
    exact ⟨fun hlp => absurd hlp hl, fun i h1 h2 => by omega⟩

theorem exactNext_iff {stabs : List Stab} {type : ℤ} {s : Search} : exactNext stabs type s = true ↔
    ∃ m e, scanDown stabs type s.l s.mid = .ok m ∧ s.l ≤ m ∧ stabAt stabs m = .ok e ∧ e.nValue = s.addr := by
  unfold exactNext
  constructor
  · intro h
    split at h
    · cases h
    · rename_i m hm
      rw [Bool.and_eq_true, decide_eq_true_eq] at h
      obtain ⟨hlm, h⟩ := h
      split at h
      · cases h
      · rename_i e he
        exact ⟨m, e, hm, hlm, he, by simpa using h⟩
  · rintro ⟨m, e, hm, hlm, he, hv⟩
    simp [hm, hlm, he, hv]

/-! ## The loop -/

/-- **Loop rule.** If the iterations succeed under P and preserve it, the loop ends in a state that satisfies P. -/
theorem searchLoop_rule {stabs : List Stab} {type : ℤ} (P : Search → Prop)
    (hok : ∀ s, P s → s.l ≤ s.r → ∃ s', searchStep stabs type s = .ok s')
    (hstep : ∀ s s', P s → s.l ≤ s.r → searchStep stabs type s = .ok s' → P s') (s : Search) (h : P s) :
    ∃ t, searchLoop stabs type s = .ok t ∧ P t ∧ t.r < t.l := by
  fun_induction searchLoop stabs type s with
  | case1 s hlr e he =>
    obtain ⟨s', hs'⟩ := hok s h hlr
    rw [hs'] at he; cases he
  | case2 s hlr s' hs' ih => exact ih (hstep s s' h hlr hs')
  | case3 s hlr => exact ⟨s, rfl, h, not_le.1 hlr⟩

/-- where the bounds and the two results are while the region [L, R] is searched -/
structure InRegion (stabs : List Stab) (type L R : ℤ) (s : Search) : Prop where
  l_ge : L ≤ s.l
  l_le : s.l ≤ s.r + 1
  r_le : s.r ≤ R
  left_ge : L ≤ s.regionLeft
  left_le : s.regionLeft ≤ R
  right_eq : s.regionRight = s.r
  /-- the right end falls below L only by an entry of the type at L -/
  r_ge : keyOf stabs type L = none → L ≤ s.r
  left_any : s.anyMatches = false → s.regionLeft = L

theorem searchStep_ok {stabs : List Stab} {type L R : ℤ} (h0 : 0 ≤ L) (hN : R < stabs.length) (s : Search)
    (h : InRegion stabs type L R s) (hlr : s.l ≤ s.r) : ∃ s', searchStep stabs type s = .ok s' := by
  have hl := h.l_ge
  have hr := h.r_le
  have hmid := mid_mem s hlr
  obtain ⟨m, hm⟩ := scanDown_ok stabs type s.l s.mid (by omega) (by omega)
  have hmem := scanDown_mem hm (by omega)
  unfold searchStep
  rw [hm, ok_bind]
  split_ifs with hlt
  · exact ⟨_, rfl⟩
  · obtain ⟨e, he⟩ := stabAt_ok stabs m (by omega) (by omega)
    rw [he, ok_bind]
    split_ifs <;> exact ⟨_, rfl⟩

theorem inRegion_step {stabs : List Stab} {type L R : ℤ} (s s' : Search) (h : InRegion stabs type L R s)
    (hlr : s.l ≤ s.r) (hs : searchStep stabs type s = .ok s') : InRegion stabs type L R s' := by
  have hmid := mid_mem s hlr
  have hl := h.l_ge
  have hr := h.r_le
  obtain ⟨m, hm, h1, h2, hcase⟩ := searchStep_cases hs hlr
  rcases hcase with ⟨hlt, rfl⟩ | ⟨e, hlm, he, ⟨hv, rfl⟩ | ⟨hv, rfl⟩ | ⟨hv, rfl⟩⟩
  · exact { h with l_ge := by simp only; omega, l_le := by simp only; omega }
  · exact { h with
      l_ge := by simp only; omega, l_le := by simp only; omega
      left_ge := by simp only; omega, left_le := by simp only; omega, left_any := fun ha => by cases ha }
  · refine { h with l_le := by simp only; omega, r_le := by simp only; omega, right_eq := rfl, r_ge := ?_,
                      left_any := fun ha => by cases ha }
    intro hk
    -- the probed entry has the type, so it is not L
    obtain ⟨e', he', ht⟩ := (scanDown_spec hm).1 hlm
    have hne : m ≠ L := by
      intro hmL
      rw [hmL] at he'
      rw [keyOf_of_stab he' ht] at hk; cases hk
    simp only; omega
  · exact { h with
      l_ge := by simp only; omega, l_le := by simp only; omega
      left_ge := by simp only; omega, left_le := by simp only; omega, left_any := fun ha => by cases ha }

theorem inRegion_init (stabs : List Stab) (type : ℤ) (addr : Word) {L R : ℤ} (hLR : L ≤ R) :
    InRegion stabs type L R ⟨L, R, L, R, false, addr⟩ :=
  ⟨le_rfl, by simp only; omega, le_rfl, le_rfl, hLR, rfl, fun _ => hLR, fun _ => rfl⟩

/-- The scan behind the loop ends at an entry of the type, or at region_left at the latest, and passes over no entry of
the type. Where the right end has fallen below region_left it returns the right end. -/
theorem InRegion.lastScan {stabs : List Stab} {type L R : ℤ} {t : Search} (h : InRegion stabs type L R t) (h0 : 0 ≤ L)
    (hN : R < stabs.length) :
    ∃ p, scanDown stabs type (t.regionLeft + 1) t.r = .ok p ∧ p ≤ t.r ∧ (t.regionLeft ≤ p ∨ p = t.r) ∧
      (t.regionLeft < p → ∃ v, keyOf stabs type p = some v) ∧ Free (keyOf stabs type) (p + 1) t.r := by
  have hg := h.left_ge
  have hr := h.r_le
  obtain ⟨p, hp⟩ := scanDown_ok stabs type (t.regionLeft + 1) t.r (by omega) (by omega)
  obtain ⟨htype, hfree⟩ := scanDown_spec hp
  have hkey : t.regionLeft < p → ∃ v, keyOf stabs type p = some v := by
    intro hlt
    obtain ⟨e, he, ht⟩ := htype (by omega)
    exact ⟨_, keyOf_of_stab he ht⟩
  by_cases hc : t.regionLeft ≤ t.r
  · have hmem := scanDown_mem hp (by omega)
    exact ⟨p, hp, hmem.2, Or.inl (by omega), hkey, hfree⟩
  · have hpr : p = t.r := by
      rw [scanDown, if_neg (by omega)] at hp
      cases hp
      rfl
    exact ⟨p, hp, hpr.le, Or.inr hpr, hkey, hfree⟩

/-- **Bounds of the search on any table.** Inside a region [L, R] of the table the search ends without reading
outside it. A miss is (L, L - 1); otherwise left ≤ right. left is at least L - 1, and at least L when the entry at L
does not have the searched type. -/
theorem stabBinsearch_bounds (stabs : List Stab) (type : ℤ) (addr : Word) {L R : ℤ} (h0 : 0 ≤ L) (hLR : L ≤ R)
    (hN : R < stabs.length) :
    ∃ left right, stabBinsearch stabs L R type addr = .ok (left, right) ∧ L - 1 ≤ left ∧ left ≤ R ∧ right ≤ R ∧
      (left ≤ right ∨ (left = L ∧ right = L - 1)) ∧ (keyOf stabs type L = none → L ≤ left) := by
  obtain ⟨t, ht, hreg, hend⟩ := searchLoop_rule (InRegion stabs type L R) (searchStep_ok h0 hN) inRegion_step _
    (inRegion_init stabs type addr hLR)
  have hl := hreg.l_ge
  have hle := hreg.l_le
  have hr := hreg.r_le
  have hg := hreg.left_ge
  have hgR := hreg.left_le
  unfold stabBinsearch
  rw [ht, ok_bind]
  split_ifs with hany
  · obtain ⟨p, hp, hpr, hleft, -, -⟩ := hreg.lastScan h0 hN
    refine ⟨p, t.r, by rw [hreg.right_eq, hp]; rfl, by omega, by omega, hr, Or.inl hpr, fun hk => ?_⟩
    have := hreg.r_ge hk
    omega
  · have hleft := hreg.left_any (by simpa using hany)
    exact ⟨t.regionLeft, t.regionLeft - 1, rfl, by omega, by omega, by omega, Or.inr ⟨hleft, by omega⟩,
      fun _ => by omega⟩

/-! ## In-between lookup on a sorted region -/

/-- the search for an address that no entry of the region has: the undecided interval is (l, r), the entries left of
it are below the address and those right of it above -/
structure Between (stabs : List Stab) (type L R : ℤ) (addr : Word) (s : Search) : Prop
    extends InRegion stabs type L R s where
  addr_eq : s.addr = addr
  below : Below (keyOf stabs type) addr.toNat L s.l
  region_end : RegionEnd (keyOf stabs type) addr.toNat R s.r
  left_below : s.regionLeft = L ∨ ∃ v, keyOf stabs type s.regionLeft = some v ∧ v < addr.toNat
  no_match : s.anyMatches = false → s.r = R ∧ Free (keyOf stabs type) L (s.l - 1)

theorem between_init (stabs : List Stab) (type : ℤ) (addr : Word) {L R : ℤ} (hLR : L ≤ R) :
    Between stabs type L R addr ⟨L, R, L, R, false, addr⟩ where
  toInRegion := inRegion_init stabs type addr hLR
  addr_eq := rfl
  below := below_self _ _ _
  region_end := ⟨le_rfl, above_self _ _ _, Or.inl rfl⟩
  left_below := Or.inl rfl
  no_match _ := ⟨rfl, fun i h1 h2 => by simp only at h2; omega⟩

/-- an iteration whose probe is not exact -/
theorem between_move {stabs : List Stab} {type L R : ℤ} {addr : Word} (ho : Ordered (keyOf stabs type) L R)
    {s s' : Search} (h : Between stabs type L R addr s) (hlr : s.l ≤ s.r) (hx : exactNext stabs type s = false)
    (hs : searchStep stabs type s = .ok s') : Between stabs type L R addr s' := by
  have hreg := inRegion_step s s' h.toInRegion hlr hs
  have hmid := mid_mem s hlr
  have hl := h.l_ge
  have hr := h.r_le
  obtain ⟨m, hm, h1, h2, hcase⟩ := searchStep_cases hs hlr
  obtain ⟨htype, hfree⟩ := scanDown_spec hm
  rcases hcase with ⟨hlt, rfl⟩ | ⟨e, hlm, he, hcase⟩
  · -- no entry of the type in [l, mid]
    have hskip : Free (keyOf stabs type) s.l s.mid := fun i hi1 hi2 => hfree i (by omega) hi2
    refine { h with toInRegion := hreg, below := h.below.skip hskip, no_match := ?_ }
    intro hany
    obtain ⟨hrR, hf⟩ := h.no_match hany
    refine ⟨hrR, fun i hi1 hi2 => ?_⟩
    by_cases hil : i < s.l
    · exact hf i hi1 (by omega)
    · exact hskip i (by omega) (by simp only at hi2; omega)
  · obtain ⟨e', he', ht⟩ := htype hlm
    rw [he] at he'
    cases he'
    have hkey := keyOf_of_stab he ht
    rcases hcase with ⟨hv, rfl⟩ | ⟨hv, rfl⟩ | ⟨hv, rfl⟩
    · have hlt : e.nValue.toNat < addr.toNat := by rw [← h.addr_eq]; exact hv
      refine { h with
        toInRegion := hreg, below := below_of_probe ho h2 (by omega) hkey hlt hfree
        left_below := Or.inr ⟨_, hkey, hlt⟩, no_match := fun hany => by cases hany }
    · have hgt : addr.toNat < e.nValue.toNat := by rw [← h.addr_eq]; exact hv
      refine { h with toInRegion := hreg, region_end := ⟨?_, ?_, ?_⟩, no_match := fun hany => by cases hany }
      · simp only; omega
      · exact above_of_probe ho (by omega) hkey hgt
      · exact Or.inr ⟨_, by simpa using hkey, hgt⟩
    · -- the probe is not exact
      rw [exactNext_iff.2 ⟨m, e, hm, hlm, he, hv⟩] at hx; cases hx

theorem between_step {stabs : List Stab} {type L R : ℤ} {addr : Word} (ho : Ordered (keyOf stabs type) L R)
    (ha : Avoids (keyOf stabs type) addr.toNat L R) (s s' : Search) (h : Between stabs type L R addr s)
    (hlr : s.l ≤ s.r) (hs : searchStep stabs type s = .ok s') : Between stabs type L R addr s' := by
  have hl := h.l_ge
  have hr := h.r_le
  have hmid := mid_mem s hlr
  apply between_move ho h hlr _ hs
  by_contra hx
  obtain ⟨m, e, hm, hlm, he, hv⟩ := exactNext_iff.1 (by simpa using hx)
  obtain ⟨e', he', ht⟩ := (scanDown_spec hm).1 hlm
  rw [he] at he'
  cases he'
  have hmem := scanDown_mem hm (by omega)
  exact ha m (by omega) (by omega) (by rw [keyOf_of_stab he ht, hv, h.addr_eq])

/-- **In-between lookup.** On a sorted region, for an address that no entry of the type has but whose last entry below
it is g, the search returns g and the end of g's region. -/
theorem stabBinsearch_between {stabs : List Stab} {L R type g : ℤ} {addr : Word} (h0 : 0 ≤ L) (hN : R < stabs.length)
    (ho : Ordered (keyOf stabs type) L R) (ha : Avoids (keyOf stabs type) addr.toNat L R)
    (hg : LastBelow (keyOf stabs type) addr.toNat L R g) :
    ∃ right, stabBinsearch stabs L R type addr = .ok (g, right) ∧ Segment (keyOf stabs type) R g right ∧
      RegionEnd (keyOf stabs type) addr.toNat R right := by
  have hgL := hg.lo_le
  have hgR := hg.le_hi
  obtain ⟨v, hgv, hlt⟩ := hg.below
  have hinit := between_init stabs type addr (hgL.trans hgR)
  obtain ⟨t, ht, hb, hend⟩ := searchLoop_rule (Between stabs type L R addr)
    (fun s h => searchStep_ok h0 hN s h.toInRegion) (between_step ho ha) _ hinit
  have hle := hb.l_le
  have hr := hb.r_le
  have hleft := hb.left_ge
  have hgr : g ≤ t.r := hg.le_of_above hb.region_end.above
  have hfree : Free (keyOf stabs type) (g + 1) t.r := by
    apply hg.free hr
    rw [show t.r + 1 = t.l by omega]; exact hb.below
  have hany : t.anyMatches = true := by
    by_contra hc
    obtain ⟨-, hf⟩ := hb.no_match (by simpa using hc)
    rw [hf g hgL (by omega)] at hgv; cases hgv
  have hlg : t.regionLeft ≤ g := by
    rcases hb.left_below with h | ⟨w, hw, hwa⟩
    · omega
    · by_contra hc
      exact hg.last _ w (by omega) hb.left_le hw hwa
  unfold stabBinsearch
  rw [ht, ok_bind, if_pos hany, hb.right_eq]
  obtain ⟨p, hp, hpr, hleftp, hkey, hpf⟩ := hb.lastScan h0 hN
  have hpg : p = g := by
    rcases lt_trichotomy p g with hlt' | heq | hgt
    · -- the scan would have passed over g
      rw [hpf g (by omega) hgr] at hgv; cases hgv
    · exact heq
    · obtain ⟨w, hw⟩ := hkey (by omega)
      rw [hfree p (by omega) hpr] at hw; cases hw
  refine ⟨t.r, by rw [hp, hpg]; rfl, ⟨hgr, hr, hfree, ?_⟩, hb.region_end⟩
  rcases hb.region_end.next with h | ⟨v, hv, -⟩
  · exact Or.inl h
  · exact Or.inr ⟨v, hv⟩

end Jos.Kdebug
