/-
Both loops of `stab_binsearch` end.

Here the loops run with fuel, so a search that does not end has no result. `stab_binsearch_ends`: inside the table, which
need not be sorted, 2 * (number of entries) + 2 iterations of every loop are enough, the result is the one of
`stabBinsearch`, and the indices stay inside the region.

The measure is `searchMeasure`: twice the number of undecided entries, plus 1 if the next probe is an exact match. An
exact match may leave the interval as it is, but the address has moved on from the entry that the same probe meets again.
-/
import Jos.Core.Loop
import Jos.Kdebug.Exact

namespace Jos.Kdebug

/-! ## The loops with fuel -/

/-- one iteration of `while (m >= l && stabs[m].n_type != type) m--` -/
def scanBody (stabs : List Stab) (type l m : ℤ) : Option (ℤ ⊕ Except Fault ℤ) :=
  if l ≤ m then
    match stabAt stabs m with
    | .error e => some (.inr (.error e))
    | .ok s => if s.hasType type then some (.inr (.ok m)) else some (.inl (m - 1))
  else some (.inr (.ok m))

def scanDownN (n : ℕ) (stabs : List Stab) (type l m : ℤ) : Option (Except Fault ℤ) :=
  Loop.run (scanBody stabs type l) n m

/-- the rest of the body of `while (l <= r)`, behind the scan that ended at m -/
def afterScan (stabs : List Stab) (s : Search) (m : ℤ) : Except Fault Search := do
  if m < s.l then
    return { s with l := s.mid + 1 }
  let e ← stabAt stabs m
  if e.nValue < s.addr then
    return { s with anyMatches := true, regionLeft := m, l := s.mid + 1 }
  else if s.addr < e.nValue then
    return { s with anyMatches := true, regionRight := m - 1, r := m - 1 }
  else
    return { s with anyMatches := true, regionLeft := m, l := m, addr := s.addr + 1 }

/-- one iteration of `while (l <= r)`, with fuel n for its scan -/
def searchBody (n : ℕ) (stabs : List Stab) (type : ℤ) (s : Search) : Option (Search ⊕ Except Fault Search) :=
  if s.l ≤ s.r then
    match scanDownN n stabs type s.l s.mid with
    | none => none
    | some m =>
      match m >>= afterScan stabs s with
      | .error e => some (.inr (.error e))
      | .ok s' => some (.inl s')
  else some (.inr (.ok s))

def searchLoopN (n : ℕ) (stabs : List Stab) (type : ℤ) (s : Search) : Option (Except Fault Search) :=
  Loop.run (searchBody n stabs type) n s

/-- `stab_binsearch` with fuel n for each of its loops -/
def stabBinsearchN (n : ℕ) (stabs : List Stab) (left right type : ℤ) (addr : Word) : Option (Except Fault (ℤ × ℤ)) :=
  match searchLoopN n stabs type ⟨left, right, left, right, false, addr⟩ with
  | none => none
  | some (.error e) => some (.error e)
  | some (.ok s) =>
    if s.anyMatches then
      match scanDownN n stabs type (s.regionLeft + 1) s.regionRight with
      | none => none
      | some (.error e) => some (.error e)
      | some (.ok l) => some (.ok (l, s.regionRight))
    else
      some (.ok (s.regionLeft, s.regionLeft - 1))

/-! ## Enough fuel -/

/-- the scan needs one unit for each entry, and one to stop -/
theorem scanDownN_eq {n : ℕ} {stabs : List Stab} {type l m : ℤ} (hn : (m - l + 1).toNat < n) :
    scanDownN n stabs type l m = some (scanDown stabs type l m) := by
  have hstep : ∀ p, scanDown stabs type l p = scanDown stabs type l m →
      (∃ p', scanBody stabs type l p = some (.inl p') ∧ scanDown stabs type l p' = scanDown stabs type l m ∧
        (p' - l + 1).toNat < (p - l + 1).toNat) ∨
        ∃ b, scanBody stabs type l p = some (.inr b) ∧ b = scanDown stabs type l m := by
    intro p hp
    rw [← hp, scanDown, scanBody]
    by_cases hlp : l ≤ p
    · rw [if_pos hlp, if_pos hlp]
      cases hs : stabAt stabs p with
      | error e => exact Or.inr ⟨_, rfl, rfl⟩
      | ok s =>
        simp only
        by_cases ht : s.hasType type
        · rw [if_pos ht, if_pos ht]
          exact Or.inr ⟨_, rfl, rfl⟩
        · rw [if_neg ht, if_neg ht]
          exact Or.inl ⟨p - 1, rfl, rfl, by omega⟩
    · rw [if_neg hlp, if_neg hlp]
      exact Or.inr ⟨_, rfl, rfl⟩
  obtain ⟨b, hb, rfl⟩ := Loop.run_rule _ (fun p => (p - l + 1).toNat) (· = scanDown stabs type l m) hstep rfl hn
  exact hb

theorem searchStep_scan (stabs : List Stab) (type : ℤ) (s : Search) :
    searchStep stabs type s = scanDown stabs type s.l s.mid >>= afterScan stabs s := rfl

/-- the interval is never longer than the measure -/
theorem le_searchMeasure (stabs : List Stab) (type : ℤ) (s : Search) :
    (s.r - s.l + 1).toNat ≤ searchMeasure stabs type s := by
  unfold searchMeasure
  omega

/-- **Every iteration lowers the measure**, so the measure is enough fuel for the loop and for the scans inside it. -/
theorem searchLoopN_eq {n : ℕ} {stabs : List Stab} {type : ℤ} {s : Search} (hn : searchMeasure stabs type s < n) :
    searchLoopN n stabs type s = some (searchLoop stabs type s) := by
  have hstep : ∀ t, searchLoop stabs type t = searchLoop stabs type s ∧ searchMeasure stabs type t < n →
      (∃ t', searchBody n stabs type t = some (.inl t') ∧
        (searchLoop stabs type t' = searchLoop stabs type s ∧ searchMeasure stabs type t' < n) ∧
        searchMeasure stabs type t' < searchMeasure stabs type t) ∨
        ∃ b, searchBody n stabs type t = some (.inr b) ∧ b = searchLoop stabs type s := by
    rintro t ⟨ht, htn⟩
    rw [← ht, searchBody]
    by_cases hlr : t.l ≤ t.r
    · have hmid := mid_mem t hlr
      have hle := le_searchMeasure stabs type t
      rw [if_pos hlr, scanDownN_eq (show (t.mid - t.l + 1).toNat < n by omega)]
      simp only [← searchStep_scan]
      cases hs : searchStep stabs type t with
      | error e =>
        refine Or.inr ⟨_, rfl, ?_⟩
        rw [searchLoop, dif_pos hlr]
        split
        · rename_i e' he'
          rw [hs] at he'; cases he'; rfl
        · rename_i s' hs'
          rw [hs] at hs'; cases hs'
      | ok t' =>
        have hlt := searchStep_measure hs hlr
        exact Or.inl ⟨t', rfl, ⟨(searchLoop_next hlr hs).symm, by omega⟩, hlt⟩
    · rw [if_neg hlr, searchLoop_end (by omega)]
      exact Or.inr ⟨_, rfl, rfl⟩
  obtain ⟨b, hb, rfl⟩ := Loop.run_rule _ (searchMeasure stabs type) (· = searchLoop stabs type s) hstep ⟨rfl, hn⟩ hn
  exact hb

theorem probe_mem (stabs : List Stab) (type : ℤ) {s : Search} (hlr : s.l ≤ s.r) :
    s.l - 1 ≤ probe stabs type s ∧ probe stabs type s ≤ s.mid := by
  have hmid := mid_mem s hlr
  unfold probe
  split
  · rename_i m hm
    exact scanDown_mem hm (by omega)
  · omega

/-- the fuelled search follows the loop and the last scan -/
theorem stabBinsearchN_eq {n : ℕ} {stabs : List Stab} {type L R : ℤ} {addr : Word} (h0 : 0 ≤ L) (hLR : L ≤ R)
    (hN : R < stabs.length) (hn : 2 * (R - L + 1).toNat + 1 < n) :
    stabBinsearchN n stabs L R type addr = some (stabBinsearch stabs L R type addr) := by
  have hinit := inRegion_init stabs type addr hLR
  have hm : searchMeasure stabs type ⟨L, R, L, R, false, addr⟩ < n := by
    unfold searchMeasure
    simp only
    split <;> omega
  obtain ⟨t, ht, hreg, hend⟩ := searchLoop_rule (InRegion stabs type L R) (searchStep_ok h0 hN) inRegion_step _ hinit
  have hg := hreg.left_ge
  have hr := hreg.r_le
  have hright := hreg.right_eq
  rw [stabBinsearchN, searchLoopN_eq hm, stabBinsearch, ht, ok_bind]
  simp only
  by_cases hany : t.anyMatches = true
  · rw [if_pos hany, if_pos hany, scanDownN_eq (by omega)]
    cases scanDown stabs type (t.regionLeft + 1) t.regionRight with
    | error e => rfl
    | ok l => rfl
  · rw [if_neg hany, if_neg hany]
    rfl

/-- **Termination on every table.** For every region inside the table, every type and every address: with fuel for
2 * (R - L + 1) + 2 iterations of each loop the search returns, without a read outside the table. In every state it goes
through, the interval, its middle and the probe stay in the region, so that the indices and the sum l + r are ints. -/
theorem stab_binsearch_ends (stabs : List Stab) (L R type : ℤ) (addr : Word) (h0 : 0 ≤ L) (hN : R < stabs.length) :
    (∃ left right, stabBinsearch stabs L R type addr = .ok (left, right) ∧
      ∀ n, 2 * (R - L + 1).toNat + 1 < n → stabBinsearchN n stabs L R type addr = some (.ok (left, right))) ∧
    ∀ t, Reaches stabs type ⟨L, R, L, R, false, addr⟩ t → t.l ≤ t.r →
      L ≤ t.l ∧ t.r ≤ R ∧ t.l ≤ t.mid ∧ t.mid ≤ t.r ∧ t.l - 1 ≤ probe stabs type t ∧ probe stabs type t ≤ t.mid ∧
        (12 * (stabs.length : ℤ) ≤ 2 ^ 32 → t.l + t.r < 2 ^ 31) := by
  by_cases hLR : L ≤ R
  · constructor
    · obtain ⟨left, right, hok, -⟩ := stabBinsearch_bounds stabs type addr h0 hLR hN
      refine ⟨left, right, hok, fun n hn => ?_⟩
      rw [stabBinsearchN_eq h0 hLR hN hn, hok]
    · intro t ht hlr
      have hreg := reaches_inRegion (inRegion_init stabs type addr hLR) ht
      have hl := hreg.l_ge
      have hr := hreg.r_le
      have hmid := mid_mem t hlr
      have hp := probe_mem stabs type hlr
      exact ⟨hl, hr, hmid.1, hmid.2, hp.1, hp.2, fun hsize => by omega⟩
  · -- an empty region: no iteration at all
    have hend : searchLoop stabs type ⟨L, R, L, R, false, addr⟩ = .ok ⟨L, R, L, R, false, addr⟩ :=
      searchLoop_end (not_le.1 hLR)
    have hz : (R - L + 1).toNat = 0 := by omega
    constructor
    · refine ⟨L, L - 1, by rw [stabBinsearch, hend, ok_bind, if_neg (by simp)]; rfl, fun n hn => ?_⟩
      have hm : searchMeasure stabs type ⟨L, R, L, R, false, addr⟩ < n := by
        unfold searchMeasure
        simp only
        split <;> omega
      rw [stabBinsearchN, searchLoopN_eq hm, hend]
      rfl
    · intro t ht hlr
      rcases Relation.ReflTransGen.cases_head ht with rfl | ⟨s, hs, -⟩
      · exact absurd hlr hLR
      · exact absurd hs.1 hLR

/-- an exact match at the left end: the interval stays, the address 0xffffffff becomes 0 -/
theorem stab_binsearch_ends_wrap :
    (∃ left right, stabBinsearch [⟨0, 0x24, 0, 0, 0xffffffff⟩] 0 0 N_FUN 0xffffffff = .ok (left, right) ∧
      ∀ n, 2 * ((0 : ℤ) - 0 + 1).toNat + 1 < n →
        stabBinsearchN n [⟨0, 0x24, 0, 0, 0xffffffff⟩] 0 0 N_FUN 0xffffffff = some (.ok (left, right))) ∧
    ∀ t, Reaches [⟨0, 0x24, 0, 0, 0xffffffff⟩] N_FUN ⟨0, 0, 0, 0, false, 0xffffffff⟩ t → t.l ≤ t.r →
      0 ≤ t.l ∧ t.r ≤ 0 ∧ t.l ≤ t.mid ∧ t.mid ≤ t.r ∧ t.l - 1 ≤ probe [⟨0, 0x24, 0, 0, 0xffffffff⟩] N_FUN t ∧
        probe [⟨0, 0x24, 0, 0, 0xffffffff⟩] N_FUN t ≤ t.mid ∧
        (12 * (([⟨0, 0x24, 0, 0, 0xffffffff⟩] : List Stab).length : ℤ) ≤ 2 ^ 32 → t.l + t.r < 2 ^ 31) :=
  stab_binsearch_ends [⟨0, 0x24, 0, 0, 0xffffffff⟩] 0 0 N_FUN 0xffffffff (by decide) (by decide)

end Jos.Kdebug
