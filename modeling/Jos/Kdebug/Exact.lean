/-
Searches that meet their key.

On an exact match `stab_binsearch` adds 1 to the searched address and goes on, so from then on the entries with the next
address count as matches too, and an address of 0xffffffff becomes 0.

- `toExact`: plain bisection for an address, as far as the first entry that has it.
- `Past`, `past_move`, `past_hit`: the invariant behind an exact match, and its two kinds of step.
- `past_quiet`: with no entry of the next address left, the search ends at the last entry of its address.
- `past_result`: in any case it does not go back, and it ends at an entry of the type unless the address wraps around.
- `wrapped_result`: where the wrapped search ends.
-/
import Jos.Kdebug.Search

namespace Jos.Kdebug

open Jos.Bracket

/-! ## Up to the next exact match -/

/-- the iterations of the search up to its next exact match: bisection for an address that stays the same -/
def toExact (stabs : List Stab) (type : ℤ) (s : Search) : Search :=
  if _hx : s.l ≤ s.r ∧ exactNext stabs type s = false then
    match _h : searchStep stabs type s with
    | .error _ => s
    | .ok s' => toExact stabs type s'
  else s
termination_by searchMeasure stabs type s
decreasing_by exact searchStep_measure _h _hx.1

/-- the entry that the next iteration probes -/
def probe (stabs : List Stab) (type : ℤ) (s : Search) : ℤ :=
  match scanDown stabs type s.l s.mid with
  | .ok m => m
  | .error _ => s.l - 1

/-- the state behind an exact match -/
def hit (stabs : List Stab) (type : ℤ) (s : Search) : Search :=
  { s with anyMatches := true, regionLeft := probe stabs type s, l := probe stabs type s, addr := s.addr + 1 }

/-- one iteration after the other -/
def Reaches (stabs : List Stab) (type : ℤ) : Search → Search → Prop :=
  Relation.ReflTransGen fun s s' => s.l ≤ s.r ∧ searchStep stabs type s = .ok s'

/-- what an exact match is: the last entry of the type in [l, mid], with the searched address -/
theorem step_exact {stabs : List Stab} {type : ℤ} {s : Search} (hlr : s.l ≤ s.r) (hx : exactNext stabs type s = true) :
    searchStep stabs type s = .ok (hit stabs type s) ∧ keyOf stabs type (probe stabs type s) = some s.addr.toNat ∧
      s.l ≤ probe stabs type s ∧ probe stabs type s ≤ s.mid := by
  obtain ⟨m, e, hm, hlm, he, hv⟩ := exactNext_iff.1 hx
  obtain ⟨e', he', ht⟩ := (scanDown_spec hm).1 hlm
  rw [he] at he'
  cases he'
  have hmid := mid_mem s hlr
  have hmem := scanDown_mem hm (by omega)
  have hp : probe stabs type s = m := by simp only [probe, hm]
  rw [hp, keyOf_of_stab he ht, hv]
  refine ⟨?_, rfl, hlm, hmem.2⟩
  have hlt : ¬ e.nValue < s.addr := by rw [hv]; exact BitVec.lt_irrefl _
  have hgt : ¬ s.addr < e.nValue := by rw [hv]; exact BitVec.lt_irrefl _
  rw [searchStep, hm, ok_bind, if_neg (by omega), he, ok_bind, if_neg hlt, if_neg hgt, hit, hp]
  rfl

theorem step_shrinks {stabs : List Stab} {type : ℤ} {s s' : Search} (hlr : s.l ≤ s.r)
    (hs : searchStep stabs type s = .ok s') : s.l ≤ s'.l ∧ s'.r ≤ s.r := by
  have hmid := mid_mem s hlr
  obtain ⟨m, -, h1, h2, hcase⟩ := searchStep_cases hs hlr
  rcases hcase with ⟨hlt, rfl⟩ | ⟨e, hlm, he, ⟨hv, rfl⟩ | ⟨hv, rfl⟩ | ⟨hv, rfl⟩⟩
  · exact ⟨by simp only; omega, le_refl _⟩
  · exact ⟨by simp only; omega, le_refl _⟩
  · exact ⟨le_refl _, by simp only; omega⟩
  · exact ⟨hlm, le_refl _⟩

theorem searchLoop_next {stabs : List Stab} {type : ℤ} {s s' : Search} (hlr : s.l ≤ s.r)
    (hs : searchStep stabs type s = .ok s') : searchLoop stabs type s = searchLoop stabs type s' := by
  rw [searchLoop, dif_pos hlr]
  split
  · rename_i e he
    rw [hs] at he; cases he
  · rename_i t ht
    rw [hs] at ht; cases ht; rfl

theorem searchLoop_end {stabs : List Stab} {type : ℤ} {s : Search} (hlr : s.r < s.l) :
    searchLoop stabs type s = .ok s := by
  rw [searchLoop, dif_neg (by omega)]

/-- **Rule for the bisection.** What the inexact iterations preserve holds at the next exact match, or at the end if
there is none. -/
theorem toExact_rule {stabs : List Stab} {type : ℤ} (P : Search → Prop)
    (hok : ∀ s, P s → s.l ≤ s.r → ∃ s', searchStep stabs type s = .ok s')
    (hstep : ∀ s s', P s → s.l ≤ s.r → exactNext stabs type s = false → searchStep stabs type s = .ok s' → P s')
    (s : Search) (h : P s) :
    P (toExact stabs type s) ∧ Reaches stabs type s (toExact stabs type s) ∧
      ((toExact stabs type s).l ≤ (toExact stabs type s).r ∧ exactNext stabs type (toExact stabs type s) = true ∨
        (toExact stabs type s).r < (toExact stabs type s).l) := by
  fun_induction toExact stabs type s with
  | case1 s hx e he =>
    obtain ⟨s', hs'⟩ := hok s h hx.1
    rw [hs'] at he; cases he
  | case2 s hx s' hs' ih =>
    obtain ⟨h1, h2, h3⟩ := ih (hstep s s' h hx.1 hx.2 hs')
    exact ⟨h1, .head ⟨hx.1, hs'⟩ h2, h3⟩
  | case3 s hx =>
    refine ⟨h, .refl, ?_⟩
    by_cases hlr : s.l ≤ s.r
    · exact Or.inl ⟨hlr, by simpa [hlr] using hx⟩
    · exact Or.inr (by omega)

theorem Reaches.searchLoop {stabs : List Stab} {type : ℤ} {s t : Search} (h : Reaches stabs type s t) :
    searchLoop stabs type s = searchLoop stabs type t := by
  induction h with
  | refl => rfl
  | tail _ hs ih => exact ih.trans (searchLoop_next hs.1 hs.2)

/-- the states of a search stay in its region -/
theorem reaches_inRegion {stabs : List Stab} {type L R : ℤ} {s t : Search} (h : InRegion stabs type L R s)
    (hr : Reaches stabs type s t) : InRegion stabs type L R t := by
  induction hr with
  | refl => exact h
  | tail _ hstep ih => exact inRegion_step _ _ ih hstep.1 hstep.2

/-! ## Behind an exact match -/

/-- behind an exact match for a, whose successors have been matched up to one below the searched address -/
structure Past (stabs : List Stab) (type L R : ℤ) (a : Word) (s : Search) : Prop extends InRegion stabs type L R s where
  above_a : a.toNat < s.addr.toNat
  below : Below (keyOf stabs type) s.addr.toNat L s.l
  region_end : RegionEnd (keyOf stabs type) a.toNat R s.r
  left : keyOf stabs type s.regionLeft = some (s.addr.toNat - 1)
  left_l : s.regionLeft ≤ s.l
  left_r : s.regionLeft ≤ s.r
  any : s.anyMatches = true

section Sorted

variable {stabs : List Stab} {type L R : ℤ} {a : Word}

/-- an inexact iteration keeps the entries of the searched address in the interval -/
theorem past_move (ho : Ordered (keyOf stabs type) L R) {s s' : Search} (h : Past stabs type L R a s) (hlr : s.l ≤ s.r)
    (hx : exactNext stabs type s = false) (hs : searchStep stabs type s = .ok s') :
    Past stabs type L R a s' ∧ s'.addr = s.addr ∧ s.regionLeft ≤ s'.regionLeft ∧
      ∀ i, L ≤ i → i ≤ s.r → keyOf stabs type i = some s.addr.toNat → i ≤ s'.r := by
  have hreg := inRegion_step s s' h.toInRegion hlr hs
  have hmid := mid_mem s hlr
  have hl := h.l_ge
  have hr := h.r_le
  have hg := h.left_ge
  have hgl := h.left_l
  have hgr := h.left_r
  obtain ⟨m, hm, h1, h2, hcase⟩ := searchStep_cases hs hlr
  obtain ⟨htype, hfree⟩ := scanDown_spec hm
  rcases hcase with ⟨hlt, rfl⟩ | ⟨e, hlm, he, hcase⟩
  · have hskip : Free (keyOf stabs type) s.l s.mid := fun i hi1 hi2 => hfree i (by omega) hi2
    exact ⟨{ h with toInRegion := hreg, below := h.below.skip hskip, left_l := by simp only; omega }, rfl, le_refl _,
      fun i _ hi _ => hi⟩
  · obtain ⟨e', he', ht⟩ := htype hlm
    rw [he] at he'
    cases he'
    have hkey := keyOf_of_stab he ht
    -- the entry is not before the last match
    have hge : s.addr.toNat - 1 ≤ e.nValue.toNat := ho _ _ _ _ hg (by omega) (by omega) h.left hkey
    rcases hcase with ⟨hv, rfl⟩ | ⟨hv, rfl⟩ | ⟨hv, rfl⟩
    · have hlt : e.nValue.toNat < s.addr.toNat := hv
      have heq : e.nValue.toNat = s.addr.toNat - 1 := by omega
      refine ⟨{ h with
        toInRegion := hreg, below := below_of_probe ho h2 (by omega) hkey hlt hfree, left := by rw [← heq]; exact hkey
        left_l := by simp only; omega, left_r := by simp only; omega, any := rfl }, rfl, by simp only; omega,
        fun i _ hi _ => hi⟩
    · have hgt : s.addr.toNat < e.nValue.toNat := hv
      have hne : m ≠ s.regionLeft := by
        rintro rfl
        rw [h.left] at hkey
        have := Option.some.inj hkey
        omega
      have habove := above_of_probe ho (show L ≤ m by omega) hkey (h.above_a.trans hgt)
      refine ⟨{ h with
        toInRegion := hreg, region_end := ⟨by simp only; omega, habove, Or.inr ⟨_, by simpa using hkey, h.above_a.trans hgt⟩⟩
        left_r := by simp only; omega, any := rfl }, rfl, le_refl _, fun i hLi hi hk => ?_⟩
      by_contra hc
      simp only at hc
      have := ho m i _ _ (by omega) (by omega) (by omega) hkey hk
      omega
    · rw [exactNext_iff.2 ⟨m, e, hm, hlm, he, hv⟩] at hx; cases hx

theorem toNat_succ {w : Word} (h : w ≠ 0xffffffff) : (w + 1).toNat = w.toNat + 1 := by bv_omega

/-- an exact iteration, from any state in which the entries left of the interval are below the address -/
theorem past_hit (ho : Ordered (keyOf stabs type) L R) {s : Search} (h : InRegion stabs type L R s)
    (he : RegionEnd (keyOf stabs type) a.toNat R s.r) (ha : a.toNat ≤ s.addr.toNat) (hlr : s.l ≤ s.r)
    (hx : exactNext stabs type s = true) (hm : s.addr ≠ 0xffffffff) : Past stabs type L R a (hit stabs type s) := by
  obtain ⟨hs, hkey, hp1, hp2⟩ := step_exact hlr hx
  have hmid := mid_mem s hlr
  have hl := h.l_ge
  have hr := h.r_le
  have hsucc := toNat_succ hm
  refine { toInRegion := inRegion_step s _ h hlr hs, above_a := ?_, below := ?_, region_end := he, left := ?_,
           left_l := le_refl _, left_r := ?_, any := rfl }
  · show a.toNat < (s.addr + 1).toNat
    omega
  · intro i v h1 h2 hv
    have := ho i _ v _ h1 (le_of_lt h2) (show probe stabs type s ≤ R by omega) hv hkey
    show v < (s.addr + 1).toNat
    omega
  · show keyOf stabs type (probe stabs type s) = some ((s.addr + 1).toNat - 1)
    rw [hkey, hsucc, Nat.add_sub_cancel]
  · show probe stabs type s ≤ s.r
    omega

/-! ## The result -/

/-- what the search does behind its loop -/
def finish (stabs : List Stab) (type : ℤ) (s : Search) : Except Fault (ℤ × ℤ) := do
  if s.anyMatches then
    let l ← scanDown stabs type (s.regionLeft + 1) s.regionRight
    return (l, s.regionRight)
  else
    return (s.regionLeft, s.regionLeft - 1)

/-- the two results of the search from the state s on -/
def resultFrom (stabs : List Stab) (type : ℤ) (s : Search) : Except Fault (ℤ × ℤ) :=
  searchLoop stabs type s >>= finish stabs type

theorem stabBinsearch_eq (stabs : List Stab) (L R type : ℤ) (addr : Word) :
    stabBinsearch stabs L R type addr = resultFrom stabs type ⟨L, R, L, R, false, addr⟩ := rfl

theorem Reaches.result {s t : Search} (h : Reaches stabs type s t) : resultFrom stabs type s = resultFrom stabs type t := by
  rw [resultFrom, resultFrom, h.searchLoop]

/-- at the end the search returns the last entry up to the right end, which has the address before the searched one -/
theorem past_end (h0 : 0 ≤ L) (hN : R < stabs.length) (ho : Ordered (keyOf stabs type) L R) {t : Search}
    (h : Past stabs type L R a t) (hend : t.r < t.l) :
    ∃ p, finish stabs type t = .ok (p, t.r) ∧ t.regionLeft ≤ p ∧ p ≤ t.r ∧
      keyOf stabs type p = some (t.addr.toNat - 1) ∧ Free (keyOf stabs type) (p + 1) t.r := by
  have hg := h.left_ge
  have hgr := h.left_r
  have hr := h.r_le
  have hl := h.l_le
  obtain ⟨p, hp, hpr, hleft, hscan, hfree⟩ := h.lastScan h0 hN
  refine ⟨p, by rw [finish, if_pos h.any, h.right_eq, hp]; rfl, by omega, hpr, ?_, hfree⟩
  by_cases hpg : p = t.regionLeft
  · rw [hpg]; exact h.left
  · obtain ⟨v, hkey⟩ := hscan (by omega)
    -- it lies between the last match and the searched address
    have hge := ho _ _ _ _ hg (by omega) (by omega) h.left hkey
    have hlt := h.below p _ (by omega) (by omega) hkey
    rw [hkey]
    congr 1
    omega

/-- behind an exact match m for 0xffffffff -/
structure Wrapped (stabs : List Stab) (type L R m : ℤ) (s : Search) : Prop extends InRegion stabs type L R s where
  l_eq : s.l = m
  left_eq : s.regionLeft = m
  addr_eq : s.addr = 0
  any : s.anyMatches = true

theorem wrapped_step (ho : Ordered (keyOf stabs type) L R) {m : ℤ} (hkey : keyOf stabs type m = some 0xffffffff)
    (s s' : Search) (h : Wrapped stabs type L R m s) (hlr : s.l ≤ s.r) (hs : searchStep stabs type s = .ok s') :
    Wrapped stabs type L R m s' := by
  have hreg := inRegion_step s s' h.toInRegion hlr hs
  have hl := h.l_ge
  have hr := h.r_le
  have hlm := h.l_eq
  have hmid := mid_mem s hlr
  obtain ⟨p, hp, h1, h2, hcase⟩ := searchStep_cases hs hlr
  obtain ⟨htype, hfree⟩ := scanDown_spec hp
  rcases hcase with ⟨hlt, rfl⟩ | ⟨e, hlp, he, hcase⟩
  · -- the scan cannot pass over m
    rw [hfree m (by omega) (by omega)] at hkey; cases hkey
  · obtain ⟨e', he', ht⟩ := htype hlp
    rw [he] at he'
    cases he'
    have hge := ho m p _ _ (by omega) (by omega) (by omega) hkey (keyOf_of_stab he ht)
    have hzero : s.addr.toNat = 0 := by rw [h.addr_eq]; rfl
    rcases hcase with ⟨hv, rfl⟩ | ⟨hv, rfl⟩ | ⟨hv, rfl⟩
    · have : e.nValue.toNat < s.addr.toNat := hv
      omega
    · exact { h with toInRegion := hreg, any := rfl }
    · rw [hv] at hge
      omega

/-- **The wrap.** With the address 0 behind a match m, all entries from m on are above it, and both results are m - 1. -/
theorem wrapped_result (h0 : 0 ≤ L) (hN : R < stabs.length) (ho : Ordered (keyOf stabs type) L R) {s : Search}
    (h : InRegion stabs type L R s) (hlr : s.l ≤ s.r) (hx : exactNext stabs type s = true) (hm : s.addr = 0xffffffff) :
    resultFrom stabs type s = .ok (probe stabs type s - 1, probe stabs type s - 1) := by
  obtain ⟨hs, hkey, hp1, hp2⟩ := step_exact hlr hx
  rw [hm] at hkey
  have hl := h.l_ge
  have hinit : Wrapped stabs type L R (probe stabs type s) (hit stabs type s) :=
    { toInRegion := inRegion_step s _ h hlr hs, l_eq := rfl, left_eq := rfl, addr_eq := by rw [hit, hm]; rfl, any := rfl }
  obtain ⟨t, ht, hw, hend⟩ := searchLoop_rule (Wrapped stabs type L R (probe stabs type s))
    (fun t ht => searchStep_ok h0 hN t ht.toInRegion) (wrapped_step ho hkey) _ hinit
  have hle := hw.l_le
  have hl' := hw.l_eq
  have hr : t.r = probe stabs type s - 1 := by omega
  rw [resultFrom, searchLoop_next hlr hs, ht, ok_bind, finish, if_pos hw.any, hw.right_eq, hr, hw.left_eq, scanDown,
    if_neg (by omega)]
  rfl

/-- **Behind an exact match** the result does not go back, and it is an entry of the type unless the address wraps. -/
theorem past_result (h0 : 0 ≤ L) (hN : R < stabs.length) (ho : Ordered (keyOf stabs type) L R) {s : Search}
    (h : Past stabs type L R a s) :
    ∃ left right, resultFrom stabs type s = .ok (left, right) ∧ s.regionLeft ≤ left ∧ left ≤ right ∧
      (keyOf stabs type left ≠ none ∨ ∃ t, Reaches stabs type s t ∧ t.l ≤ t.r ∧ exactNext stabs type t = true ∧
        t.addr = 0xffffffff) := by
  induction hn : searchMeasure stabs type s using Nat.strong_induction_on generalizing s with
  | _ n ih =>
    by_cases hlr : s.l ≤ s.r
    · -- one iteration, and the rest from the state behind it
      have rest : ∀ {s'}, searchStep stabs type s = .ok s' → Past stabs type L R a s' → s.regionLeft ≤ s'.regionLeft →
          ∃ left right, resultFrom stabs type s = .ok (left, right) ∧ s.regionLeft ≤ left ∧ left ≤ right ∧
            (keyOf stabs type left ≠ none ∨ ∃ t, Reaches stabs type s t ∧ t.l ≤ t.r ∧ exactNext stabs type t = true ∧
              t.addr = 0xffffffff) := by
        intro s' hs hp hle
        have hreach : Reaches stabs type s s' := .single ⟨hlr, hs⟩
        obtain ⟨left, right, hok, h1, h2, h3⟩ := ih _ (hn ▸ searchStep_measure hs hlr) hp rfl
        refine ⟨left, right, hreach.result.trans hok, hle.trans h1, h2, h3.imp id ?_⟩
        rintro ⟨t, ht, hx⟩
        exact ⟨t, hreach.trans ht, hx⟩
      cases hx : exactNext stabs type s with
      | false =>
        obtain ⟨s', hs⟩ := searchStep_ok h0 hN s h.toInRegion hlr
        obtain ⟨hp, -, hle, -⟩ := past_move ho h hlr hx hs
        exact rest hs hp hle
      | true =>
        obtain ⟨hs, hkey, hp1, hp2⟩ := step_exact hlr hx
        have hgl := h.left_l
        by_cases hm : s.addr = 0xffffffff
        · -- the wrap: the match lies behind the last one
          have hne : s.regionLeft ≠ probe stabs type s := by
            intro heq
            have hleft := h.left
            rw [heq, hkey] at hleft
            have := Option.some.inj hleft
            have := h.above_a
            omega
          exact ⟨_, _, wrapped_result h0 hN ho h.toInRegion hlr hx hm, by omega, le_refl _,
            Or.inr ⟨s, .refl, hlr, hx, hm⟩⟩
        · have hp := past_hit ho h.toInRegion h.region_end (le_of_lt h.above_a) hlr hx hm
          exact rest hs hp (hgl.trans hp1)
    · obtain ⟨p, hp, h1, h2, hkey, -⟩ := past_end h0 hN ho h (by omega)
      refine ⟨p, s.r, ?_, h1, h2, Or.inl ?_⟩
      · rw [resultFrom, searchLoop_end (by omega), ok_bind, hp]
      · rw [hkey]; exact Option.some_ne_none _

/-- behind an exact match for a, with no entry of the searched address b in the interval -/
structure Quiet (stabs : List Stab) (type L R : ℤ) (a b : Word) (s : Search) : Prop extends Past stabs type L R a s where
  addr_eq : s.addr = b
  quiet : ∀ i, s.l ≤ i → i ≤ s.r → keyOf stabs type i ≠ some b.toNat

/-- **With no successor left**: the search ends at the last entry of the matched address, before the first one above. -/
theorem past_quiet (h0 : 0 ≤ L) (hN : R < stabs.length) (ho : Ordered (keyOf stabs type) L R) {s : Search}
    (h : Past stabs type L R a s) (ha : s.addr.toNat = a.toNat + 1)
    (hq : ∀ i, s.l ≤ i → i ≤ s.r → keyOf stabs type i ≠ some s.addr.toNat) :
    ∃ left right, resultFrom stabs type s = .ok (left, right) ∧ keyOf stabs type left = some a.toNat ∧
      L ≤ left ∧ left ≤ right ∧ Free (keyOf stabs type) (left + 1) right ∧ RegionEnd (keyOf stabs type) a.toNat R right := by
  have hstep : ∀ t t', Quiet stabs type L R a s.addr t → t.l ≤ t.r → searchStep stabs type t = .ok t' →
      Quiet stabs type L R a s.addr t' := by
    intro t t' ht htlr hts
    cases hx : exactNext stabs type t with
    | false =>
      obtain ⟨hp, haddr, -, -⟩ := past_move ho ht.toPast htlr hx hts
      obtain ⟨hl, hr⟩ := step_shrinks htlr hts
      exact ⟨hp, haddr.trans ht.addr_eq, fun i h1 h2 => ht.quiet i (hl.trans h1) (h2.trans hr)⟩
    | true =>
      obtain ⟨-, hkey, hp1, hp2⟩ := step_exact htlr hx
      have hmid := mid_mem t htlr
      rw [ht.addr_eq] at hkey
      exact absurd hkey (ht.quiet _ hp1 (hp2.trans hmid.2))
  obtain ⟨t, ht, hquiet, hend⟩ := searchLoop_rule (Quiet stabs type L R a s.addr)
    (fun t ht => searchStep_ok h0 hN t ht.toInRegion) hstep s ⟨h, rfl, hq⟩
  obtain ⟨p, hp, h1, h2, hkey, hfree⟩ := past_end h0 hN ho hquiet.toPast hend
  have hg := hquiet.left_ge
  refine ⟨p, t.r, by rw [resultFrom, ht, ok_bind, hp], ?_, by omega, h2, hfree, hquiet.region_end⟩
  rw [hkey, hquiet.addr_eq, ha, Nat.add_sub_cancel]

end Sorted

end Jos.Kdebug
