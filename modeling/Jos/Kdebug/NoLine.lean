/-
Lookups that have no line to report.

The comment at the line search says "If not found, return -1"; the code goes on instead, and returns 0 for every address
whose file it finds. `debuginfo_eip_no_line_iff`: the lookup keeps to the comment, for a table and an address, exactly
when the range of the line search holds an N_SLINE stab at or below the address (or there is no such range).
-/
import Jos.Kdebug.Contract
import Jos.Kdebug.Lookup

namespace Jos.Kdebug

open Jos.Bracket

/-! ## The line search -/

/-- the line search for addr comes to match 0xffffffff right behind an entry of another type, and turns back to that -/
def TurnsAway (stabs : List Stab) (type L R : ℤ) (addr : Word) : Prop :=
  ∃ t, Reaches stabs type ⟨L, R, L, R, false, addr⟩ t ∧ t.l ≤ t.r ∧ exactNext stabs type t = true ∧
    t.addr = 0xffffffff ∧ keyOf stabs type (probe stabs type t - 1) = none

theorem TurnsAway.result {stabs : List Stab} {type L R : ℤ} {addr : Word} (h0 : 0 ≤ L) (hLR : L ≤ R)
    (hN : R < stabs.length) (ho : Ordered (keyOf stabs type) L R) (h : TurnsAway stabs type L R addr) :
    ∃ p, stabBinsearch stabs L R type addr = .ok (p, p) ∧ keyOf stabs type p = none := by
  obtain ⟨t, ht, hlr, hx, hm, hnone⟩ := h
  refine ⟨_, ?_, hnone⟩
  rw [stabBinsearch_eq, ht.result]
  exact wrapped_result h0 hN ho (reaches_inRegion (inRegion_init stabs type addr hLR) ht) hlr hx hm

/-- a search among entries at or below the address ends at one, if it does not match 0xffffffff on its way -/
theorem typed_or_wraps {stabs : List Stab} {type L R : ℤ} {addr : Word} (h0 : 0 ≤ L) (hN : R < stabs.length)
    (ho : Ordered (keyOf stabs type) L R) (hb : (Where (keyOf stabs type) L R (· ≤ addr.toNat)).Nonempty) :
    ∃ left right, stabBinsearch stabs L R type addr = .ok (left, right) ∧ left ≤ right ∧
      (keyOf stabs type left ≠ none ∨ ∃ t, Reaches stabs type ⟨L, R, L, R, false, addr⟩ t ∧ t.l ≤ t.r ∧
        exactNext stabs type t = true ∧ t.addr = 0xffffffff) := by
  by_cases ha : Avoids (keyOf stabs type) addr.toNat L R
  · obtain ⟨g, hg⟩ := exists_isGreatest (nonempty_below hb ha)
    obtain ⟨right, hok, hseg, -⟩ := stabBinsearch_between h0 hN ho ha (lastBelow_of_isGreatest hg)
    obtain ⟨-, -, w, hw, -⟩ := hg.1
    exact ⟨g, right, hok, hseg.le, Or.inl (by rw [hw]; exact Option.some_ne_none w)⟩
  obtain ⟨i, hLi, hiR, hi⟩ : ∃ i, L ≤ i ∧ i ≤ R ∧ keyOf stabs type i = some addr.toNat := by
    by_contra hno
    exact ha fun i h1 h2 h => hno ⟨i, h1, h2, h⟩
  obtain ⟨hfirst, hreach, hlr, hx⟩ := firstHit_spec h0 hN ho hLi hiR hi
  by_cases hm : addr = 0xffffffff
  · obtain ⟨hok, -, -, -⟩ := wrap_result h0 hN ho hLi hiR hi hm
    exact ⟨_, _, hok, le_refl _, Or.inr ⟨_, hreach, hlr, hx, hfirst.addr_eq.trans hm⟩⟩
  · obtain ⟨hp, -, hres⟩ := firstHit_past h0 hN ho hLi hiR hi hm
    obtain ⟨left, right, hok, -, hle, htyped⟩ := past_result h0 hN ho hp
    refine ⟨left, right, hres.trans hok, hle, htyped.imp id ?_⟩
    rintro ⟨t, ht, h⟩
    exact ⟨t, (hreach.tail ⟨hlr, (step_exact hlr hx).1⟩).trans ht, h⟩

/-- a search among entries at or below the address ends at one, unless it turns away from them -/
theorem typed_iff {stabs : List Stab} {type L R : ℤ} {addr : Word} (h0 : 0 ≤ L) (hN : R < stabs.length)
    (ho : Ordered (keyOf stabs type) L R) (hb : (Where (keyOf stabs type) L R (· ≤ addr.toNat)).Nonempty) :
    ∃ left right, stabBinsearch stabs L R type addr = .ok (left, right) ∧ left ≤ right ∧
      (keyOf stabs type left ≠ none ↔ ¬ TurnsAway stabs type L R addr) := by
  have hLR : L ≤ R := by
    obtain ⟨j, hLj, hjR, -⟩ := hb
    exact hLj.trans hjR
  obtain ⟨left, right, hok, hle, htyped⟩ := typed_or_wraps h0 hN ho hb
  refine ⟨left, right, hok, hle, ?_, ?_⟩
  · intro hk ha
    obtain ⟨p, hp, hnone⟩ := ha.result h0 hLR hN ho
    rw [hok] at hp
    cases hp
    exact hk hnone
  · intro hna hnone
    rcases htyped with hk | ⟨t, ht, hlr, hx, hm⟩
    · exact hk hnone
    · have hres := wrapped_result h0 hN ho (reaches_inRegion (inRegion_init stabs type addr hLR) ht) hlr hx hm
      rw [← ht.result, ← stabBinsearch_eq, hok] at hres
      cases hres
      exact hna ⟨t, ht, hlr, hx, hm, hnone⟩

/-- without an entry of the next address it does not -/
theorem NoNext.not_turnsAway {stabs : List Stab} {type L R : ℤ} {addr : Word} (hn : NoNext stabs type L R addr)
    (h0 : 0 ≤ L) (hN : R < stabs.length) (ho : Ordered (keyOf stabs type) L R)
    (hb : (Where (keyOf stabs type) L R (· ≤ addr.toNat)).Nonempty) : ¬ TurnsAway stabs type L R addr := by
  obtain ⟨left, right, hok, -, htyped⟩ := typed_iff h0 hN ho hb
  obtain ⟨left', right', hok', -, v, hv, -⟩ := stab_binsearch_found h0 hN ho hb hn
  rw [hok] at hok'
  cases hok'
  apply htyped.1
  rw [hv]
  exact Option.some_ne_none v

/-! ## The lookup -/

/-- the lookup for addr comes to the line search, with the query q -/
structure DebugInfo.Selects (T : DebugInfo) (addr : Word) (lfile rfile lfun rfun : ℤ) (q : LineQuery) : Prop where
  valid : T.stabstrValid
  file_search : stabBinsearch T.stabs 0 T.last N_SO addr = .ok (lfile, rfile)
  file_found : lfile ≠ 0
  fun_search : stabBinsearch T.stabs lfile rfile N_FUN addr = .ok (lfun, rfun)
  query : funStab T (Eipdebuginfo.init addr) addr lfile rfile lfun rfun = .ok q

theorem DebugInfo.Selects.unique {T : DebugInfo} {addr : Word} {lfile rfile lfun rfun lfile' rfile' lfun' rfun' : ℤ}
    {q q' : LineQuery} (h : T.Selects addr lfile rfile lfun rfun q) (h' : T.Selects addr lfile' rfile' lfun' rfun' q') :
    lfun = lfun' ∧ rfun = rfun' ∧ q = q' := by
  have h1 := h'.file_search
  rw [h.file_search] at h1
  cases h1
  have h2 := h'.fun_search
  rw [h.fun_search] at h2
  cases h2
  have h3 := h'.query
  rw [h.query] at h3
  cases h3
  exact ⟨rfl, rfl, rfl⟩

/-- the range of the query lies in the table and in one function of one file -/
structure DebugInfo.Narrow (T : DebugInfo) (q : LineQuery) : Prop where
  lo : 0 ≤ q.lline
  le : q.lline ≤ q.rline
  hi : q.rline < T.stabs.length
  starts : ∀ k, q.lline < k → k ≤ q.rline → ¬ T.StartsRange k

theorem DebugInfo.Narrow.ordered {T : DebugInfo} {q : LineQuery} (hT : T.Lined) (h : T.Narrow q) :
    Ordered (keyOf T.stabs N_SLINE) q.lline q.rline := by
  have hi := h.hi
  exact hT.sline_sorted.ordered h.lo (by unfold DebugInfo.last; omega) h.starts

/-- the function search hands over a range inside one function, on any table -/
theorem funStab_narrow {T : DebugInfo} {addr : Word} {lfile rfile lfun rfun : ℤ} {q : LineQuery} (h1 : 1 ≤ lfile)
    (hle : lfile ≤ rfile) (hN : rfile < T.stabs.length) (hso : Free (keyOf T.stabs N_SO) (lfile + 1) rfile)
    (hfun : stabBinsearch T.stabs lfile rfile N_FUN addr = .ok (lfun, rfun))
    (hq : funStab T (Eipdebuginfo.init addr) addr lfile rfile lfun rfun = .ok q) : T.Narrow q := by
  obtain ⟨left, right, hok, hr, hcase⟩ := stabBinsearch_stretch T.stabs N_FUN addr (by omega) hle hN
  rw [hfun] at hok
  cases hok
  rcases hcase with ⟨hlr, hL, hlow, hf⟩ | ⟨hL, hR, hf⟩
  · obtain ⟨s, hs⟩ := stabAt_ok T.stabs lfun (by omega) (by omega)
    rw [funStab_found _ addr lfile rfile hlr hs] at hq
    cases hq
    refine ⟨by simp only; omega, hlr, by simp only; omega, fun k hk1 hk2 => ?_⟩
    simp only at hk1 hk2
    rintro (hk | hk)
    · exact hk (hso k (by omega) (by omega))
    · exact hk (hf k (by omega) hk2)
  · rw [funStab_miss _ _ _ _ _ (by omega)] at hq
    cases hq
    refine ⟨by simp only; omega, hle, hN, fun k hk1 hk2 => ?_⟩
    simp only at hk1 hk2
    rintro (hk | hk)
    · exact hk (hso k (by omega) hk2)
    · exact hk (hf k (by omega) hk2)

/-- **The lookup has two outcomes**: it fails before it looks for a line, or it returns 0. -/
theorem debuginfoEip_cases {T : DebugInfo} {addr : Word} (hh : T.HasHeader) (hu : ULIM ≤ addr) :
    ((∀ lfile rfile lfun rfun q, ¬ T.Selects addr lfile rfile lfun rfun q) ∧
        debuginfoEip T addr = .ok (-1, Eipdebuginfo.init addr)) ∨
      ∃ info lfile rfile lfun rfun lline rline k q, debuginfoEip T addr = .ok (0, info) ∧
        T.Selects addr lfile rfile lfun rfun q ∧ T.Narrow q ∧
        Report T addr lfile rfile lfun rfun lline rline k q info := by
  have hlast := header_last hh
  have hN : T.last < T.stabs.length := by unfold DebugInfo.last; omega
  unfold debuginfoEip
  rw [if_neg (by bv_omega)]
  by_cases hv : T.stabstrValid
  swap
  · exact Or.inl ⟨fun _ _ _ _ _ h => hv h.valid, by rw [if_pos hv]; rfl⟩
  obtain ⟨lfile, rfile, hfile, hr, hcase⟩ := stabBinsearch_stretch T.stabs N_SO addr (le_refl 0) hlast hN
  rw [if_neg (not_not.2 hv), show (T.stabs.length : ℤ) - 1 = T.last from rfl, hfile, ok_bind]
  by_cases hz : lfile = 0
  · refine Or.inl ⟨?_, by simp only [if_pos hz]; rfl⟩
    intro lfile' _ _ _ _ h
    have hs := h.file_search
    rw [hfile] at hs
    cases hs
    exact h.file_found hz
  obtain ⟨hle, hso, h1⟩ : lfile ≤ rfile ∧ Free (keyOf T.stabs N_SO) (lfile + 1) rfile ∧ 1 ≤ lfile := by
    rcases hcase with ⟨hle, -, -, hf⟩ | ⟨h0, -, -⟩
    · -- the header keeps the search from leaving the table at the left
      obtain ⟨left, right, hok, -, -, -, -, hge⟩ := stabBinsearch_bounds T.stabs N_SO addr (le_refl 0) hlast hN
      rw [hfile] at hok
      cases hok
      have := hge (header_key hh (by decide))
      exact ⟨hle, hf, by omega⟩
    · exact absurd h0 hz
  obtain ⟨info, lfun, rfun, lline, rline, k, q, hok, hrep⟩ := debuginfoFile_ok addr hh hv h1 hle (by omega)
  refine Or.inr ⟨info, lfile, rfile, lfun, rfun, lline, rline, k, q, ?_, ⟨hv, hfile, hz, hrep.fun_search, hrep.query⟩,
    funStab_narrow h1 hle (by omega) hso hrep.fun_search hrep.query, hrep⟩
  simp only [if_neg hz]
  exact hok

/-- with no N_SLINE stab at or below the address in the range of the line search, the return value is negative -/
def DebugInfo.FailsWithoutLine (T : DebugInfo) (addr : Word) (rc : ℤ) : Prop :=
  ∀ lfile rfile lfun rfun q, T.Selects addr lfile rfile lfun rfun q →
    Where (keyOf T.stabs N_SLINE) q.lline q.rline (· ≤ q.addr.toNat) = ∅ → rc < 0

/-- with a return value of 0, `eip_line` is the value of the entry that the line search returned, an N_SLINE stab -/
def DebugInfo.LineFromStab (T : DebugInfo) (addr : Word) (rc : ℤ) (info : Eipdebuginfo) : Prop :=
  rc = 0 → ∃ lfile rfile lfun rfun q lline rline s, T.Selects addr lfile rfile lfun rfun q ∧
    stabBinsearch T.stabs q.lline q.rline N_SLINE q.addr = .ok (lline, rline) ∧ lline ≤ rline ∧
    stabAt T.stabs lline = .ok s ∧ s.hasType N_SLINE ∧ info.eipLine = s.nValue.toInt

/-- the line search, if the lookup comes to it, has an N_SLINE stab at or below its address, and does not turn away -/
def DebugInfo.HasLine (T : DebugInfo) (addr : Word) : Prop :=
  ∀ lfile rfile lfun rfun q, T.Selects addr lfile rfile lfun rfun q →
    (Where (keyOf T.stabs N_SLINE) q.lline q.rline (· ≤ q.addr.toNat)).Nonempty ∧
      ¬ TurnsAway T.stabs N_SLINE q.lline q.rline q.addr

/-- there is a line, whatever way the search goes, if a stab is at or below the address and none at the next one -/
theorem hasLine_of_noNext {T : DebugInfo} (hT : T.Lined) {addr : Word} (hu : ULIM ≤ addr)
    (h : ∀ lfile rfile lfun rfun q, T.Selects addr lfile rfile lfun rfun q →
      (Where (keyOf T.stabs N_SLINE) q.lline q.rline (· ≤ q.addr.toNat)).Nonempty ∧
        NoNext T.stabs N_SLINE q.lline q.rline q.addr) : T.HasLine addr := by
  intro lfile rfile lfun rfun q hsel
  obtain ⟨hb, hn⟩ := h lfile rfile lfun rfun q hsel
  rcases debuginfoEip_cases hT.header hu with ⟨hno, -⟩ | ⟨_, _, _, _, _, _, _, _, q', -, hsel', hnar, -⟩
  · exact absurd hsel (hno _ _ _ _ _)
  · obtain ⟨-, -, rfl⟩ := hsel.unique hsel'
    exact ⟨hb, hn.not_turnsAway hnar.lo hnar.hi (hnar.ordered hT) hb⟩

/-- **No line, no failure.** On a sorted table, for every kernel address: the lookup fails where it has no line, and
otherwise reports one from an N_SLINE stab, if and only if there is a line in the range it searches. -/
theorem debuginfo_eip_no_line_iff (T : DebugInfo) (hT : T.Lined) (addr : Word) (hu : ULIM ≤ addr) :
    ∃ rc info, debuginfoEip T addr = .ok (rc, info) ∧
      (T.FailsWithoutLine addr rc ∧ T.LineFromStab addr rc info ↔ T.HasLine addr) := by
  rcases debuginfoEip_cases hT.header hu with
    ⟨hno, hok⟩ | ⟨info, lfile, rfile, lfun, rfun, lline, rline, k, q, hok, hsel, hnar, hrep⟩
  · refine ⟨-1, Eipdebuginfo.init addr, hok, fun _ _ _ _ _ _ h => absurd h (hno _ _ _ _ _), fun _ => ⟨?_, ?_⟩⟩
    · intro _ _ _ _ _ h
      exact absurd h (hno _ _ _ _ _)
    · intro h
      exact absurd h (by decide)
  refine ⟨0, info, hok, ?_⟩
  have hlo := hnar.lo
  have hhi := hnar.hi
  have hord := hnar.ordered hT
  have hline := hrep.line_search
  constructor
  · rintro ⟨hfail, hfrom⟩ lfile' rfile' lfun' rfun' q' hsel'
    obtain ⟨-, -, rfl⟩ := hsel.unique hsel'
    have hne : (Where (keyOf T.stabs N_SLINE) q.lline q.rline (· ≤ q.addr.toNat)).Nonempty := by
      apply Set.nonempty_iff_ne_empty.2
      intro hempty
      exact absurd (hfail _ _ _ _ _ hsel hempty) (lt_irrefl 0)
    refine ⟨hne, ?_⟩
    obtain ⟨left, right, hres, -, htyped⟩ := typed_iff hlo hhi hord hne
    apply htyped.1
    obtain ⟨_, _, _, _, q'', lline', rline', s, hsel'', hline', -, hs, ht, -⟩ := hfrom rfl
    obtain ⟨-, -, rfl⟩ := hsel.unique hsel''
    rw [hres] at hline'
    cases hline'
    rw [keyOf_of_stab hs ht]
    exact Option.some_ne_none _
  · intro hcond
    obtain ⟨hne, haway⟩ := hcond _ _ _ _ _ hsel
    obtain ⟨left, right, hres, hle, htyped⟩ := typed_iff hlo hhi hord hne
    rw [hline] at hres
    cases hres
    obtain ⟨v, hv⟩ := Option.ne_none_iff_exists'.1 (htyped.2 haway)
    obtain ⟨s, hs, ht, -⟩ := keyOf_some hv
    constructor
    · intro lfile' rfile' lfun' rfun' q' hsel' hempty
      obtain ⟨-, -, rfl⟩ := hsel.unique hsel'
      exact absurd hempty (Set.nonempty_iff_ne_empty.1 hne)
    · intro _
      exact ⟨_, _, _, _, q, lline, rline, s, hsel, hline, hle, hs, ht, hrep.line s hle hs⟩

theorem monitorTable_no_line_iff : ∃ rc info, debuginfoEip monitorTable 0xf0100a62 = .ok (rc, info) ∧
    (monitorTable.FailsWithoutLine 0xf0100a62 rc ∧ monitorTable.LineFromStab 0xf0100a62 rc info ↔
      monitorTable.HasLine 0xf0100a62) :=
  debuginfo_eip_no_line_iff monitorTable monitorTable_lined 0xf0100a62 (by decide)

/-- **A function's stab as the line.** For monitor+16 the only N_SLINE stab of monitor, at monitor+96, is too far on. The
lookup returns 0, and as the line it reports the address of monitor. -/
theorem debuginfo_eip_without_line :
    monitorTable.Lined ∧
      monitorTable.Selects 0xf0100a08 1 3 2 3
        ⟨⟨.unknown, 0, .stabstr 16, 9, 0xf01009f8, 0⟩, 16, 2, 3⟩ ∧
      Where (keyOf monitorTable.stabs N_SLINE) 2 3 (· ≤ (16 : Word).toNat) = ∅ ∧
      debuginfoEip monitorTable 0xf0100a08 = .ok (0, ⟨.stabstr 1, (0xf01009f8 : Word).toInt, .stabstr 16, 7, 0xf01009f8, 0⟩) := by
  refine ⟨monitorTable_lined, ⟨by decide +kernel, by decide +kernel, by decide, by decide +kernel, by decide +kernel⟩, ?_,
    by decide +kernel⟩
  have hall : ∀ i : ℤ, 2 ≤ i → i ≤ 3 → ∀ v ∈ keyOf monitorTable.stabs N_SLINE i, ¬ v ≤ (16 : Word).toNat := by
    decide +kernel
  apply Set.eq_empty_iff_forall_notMem.2
  rintro i ⟨h1, h2, v, hv, hle⟩
  exact hall i h1 h2 v hv hle

end Jos.Kdebug
