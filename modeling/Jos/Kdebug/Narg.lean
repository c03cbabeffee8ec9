/-
The number of arguments, `eip_fn_narg`.

The range that the function search returns includes its right end. The loop that counts the parameter stabs treats the end
as excluded, so it never looks at the last entry of the range.

- `countPsym_run`: what the loop counts, for any end.
- **`narg_iff`**: the count is that of all the parameter stabs, unless they go on up to the end of the range.
-/
import Jos.Kdebug.NoLine

namespace Jos.Kdebug

/-- entry i is a parameter stab -/
def IsParam (stabs : List Stab) (i : ℤ) : Prop := ∃ s, stabAt stabs i = .ok s ∧ s.hasType N_PSYM

/-- n is the length of the maximal run of parameter stabs from l on, among the entries up to r -/
structure ParamRun (stabs : List Stab) (l r n : ℤ) : Prop where
  nonneg : 0 ≤ n
  inside : l + n ≤ r + 1
  params : ∀ i, l ≤ i → i < l + n → IsParam stabs i
  maximal : l + n ≤ r → ¬ IsParam stabs (l + n)

/-! ## The loop -/

/-- **The loop** counts a maximal run among the entries before rfun. -/
theorem countPsym_run {stabs : List Stab} {rfun lline narg n : ℤ} (hle : lline ≤ rfun)
    (h : countPsym stabs rfun lline narg = .ok n) : ParamRun stabs lline (rfun - 1) (n - narg) := by
  fun_induction countPsym stabs rfun lline narg with
  | case1 l narg hl e he => cases h
  | case2 l narg hl s hs ht ih =>
    obtain ⟨hnonneg, hinside, hparams, hmax⟩ := ih (by omega) h
    have hnext : l + 1 + (n - (narg + 1)) = l + (n - narg) := by omega
    rw [hnext] at hinside hparams hmax
    refine ⟨by omega, hinside, fun i h1 h2 => ?_, hmax⟩
    rcases eq_or_lt_of_le h1 with rfl | hlt
    · exact ⟨s, hs, ht⟩
    · exact hparams i hlt h2
  | case3 l narg hl s hs ht =>
    cases h
    refine ⟨by omega, by omega, fun i h1 h2 => by omega, fun _ => ?_⟩
    rw [sub_self, add_zero]
    rintro ⟨s', hs', ht'⟩
    rw [hs] at hs'
    cases hs'
    exact ht ht'
  | case4 l narg hl =>
    cases h
    exact ⟨by omega, by omega, fun i h1 h2 => by omega, fun h => by omega⟩

/-- one more entry makes no difference to the run, unless it goes on there -/
theorem ParamRun.extend_iff {stabs : List Stab} {l r n : ℤ} (h : ParamRun stabs l (r - 1) n) :
    ParamRun stabs l r n ↔ ∃ i, l ≤ i ∧ i ≤ r ∧ ¬ IsParam stabs i := by
  have hinside := h.inside
  have hnonneg := h.nonneg
  constructor
  · intro hrun
    exact ⟨l + n, by omega, by omega, hrun.maximal (by omega)⟩
  · rintro ⟨i, hli, hir, hi⟩
    have hge : l + n ≤ i := by
      by_contra hlt
      exact hi (h.params i hli (by omega))
    refine ⟨hnonneg, by omega, h.params, fun hle => ?_⟩
    rcases eq_or_lt_of_le hle with hend | hlt
    · rwa [show l + n = i by omega]
    · exact h.maximal (by omega)

/-! ## The lookup -/

theorem fnNarg_run {T : DebugInfo} {info info' : Eipdebuginfo} {lfun rfun : ℤ} (h0 : info.eipFnNarg = 0)
    (h : fnNarg T info lfun rfun = .ok info') :
    (lfun < rfun → ParamRun T.stabs (lfun + 1) (rfun - 1) info'.eipFnNarg) ∧ (¬ lfun < rfun → info'.eipFnNarg = 0) := by
  unfold fnNarg at h
  split_ifs at h with hlt
  · obtain ⟨n, hn, h⟩ := bind_ok h
    cases h
    refine ⟨fun _ => ?_, fun hno => absurd hlt hno⟩
    have hrun := countPsym_run (by omega) hn
    rwa [h0, sub_zero] at hrun
  · cases h
    exact ⟨fun hlt' => absurd hlt' hlt, fun _ => h0⟩

/-- what comes before the loop leaves the count alone -/
theorem funStab_narg {T : DebugInfo} {addr : Word} {lfile rfile lfun rfun : ℤ} {q : LineQuery}
    (h : funStab T (Eipdebuginfo.init addr) addr lfile rfile lfun rfun = .ok q) : q.info.eipFnNarg = 0 := by
  unfold funStab at h
  split_ifs at h
  · obtain ⟨s, -, h⟩ := bind_ok h
    cases h
    rfl
  · cases h
    rfl

theorem fnNamelen_narg {T : DebugInfo} {info info' : Eipdebuginfo} (h : fnNamelen T info = .ok info') :
    info'.eipFnNarg = info.eipFnNarg := by
  unfold fnNamelen at h
  split at h
  · cases h
    rfl
  · cases h

theorem lineStab_narg {T : DebugInfo} {info info' : Eipdebuginfo} {lline rline : ℤ}
    (h : lineStab T info lline rline = .ok info') : info'.eipFnNarg = info.eipFnNarg := by
  unfold lineStab at h
  split_ifs at h
  · obtain ⟨s, -, h⟩ := bind_ok h
    cases h
    rfl
  · cases h
    rfl

theorem fileStab_narg {T : DebugInfo} {info info' : Eipdebuginfo} {lfile k : ℤ} (h : fileStab T info lfile k = .ok info') :
    info'.eipFnNarg = info.eipFnNarg := by
  unfold fileStab at h
  split_ifs at h
  · obtain ⟨s, -, h⟩ := bind_ok h
    cases h
    rfl
  · cases h
    rfl

/-- **The lookup**, wherever it ends: it fails before the line search, with a count of 0, or comes to the loop. -/
theorem debuginfoEip_narg {T : DebugInfo} {addr : Word} {rc : ℤ} {info : Eipdebuginfo}
    (h : debuginfoEip T addr = .ok (rc, info)) :
    ((∀ lfile rfile lfun rfun q, ¬ T.Selects addr lfile rfile lfun rfun q) ∧ info.eipFnNarg = 0) ∨
      ∃ lfile rfile lfun rfun q, T.Selects addr lfile rfile lfun rfun q ∧
        (lfun < rfun → ParamRun T.stabs (lfun + 1) (rfun - 1) info.eipFnNarg) ∧
        (¬ lfun < rfun → info.eipFnNarg = 0) := by
  unfold debuginfoEip at h
  split_ifs at h with hu hv
  · obtain ⟨⟨lfile, rfile⟩, hfile, h⟩ := bind_ok h
    simp only at h
    split_ifs at h with hz
    · cases h
      refine Or.inl ⟨fun lfile' _ _ _ _ hsel => ?_, rfl⟩
      have hs := hsel.file_search
      rw [show T.last = T.stabs.length - 1 from rfl, hfile] at hs
      cases hs
      exact hsel.file_found hz
    · obtain ⟨⟨lfun, rfun⟩, hfun, h⟩ := bind_ok h
      obtain ⟨q, hq, h⟩ := bind_ok h
      obtain ⟨i1, h1, h⟩ := bind_ok h
      obtain ⟨⟨lline, rline⟩, -, h⟩ := bind_ok h
      obtain ⟨i2, h2, h⟩ := bind_ok h
      obtain ⟨k, -, h⟩ := bind_ok h
      obtain ⟨i3, h3, h⟩ := bind_ok h
      obtain ⟨i4, h4, h⟩ := bind_ok h
      cases h
      have hzero : i3.eipFnNarg = 0 := by
        rw [fileStab_narg h3, lineStab_narg h2, fnNamelen_narg h1, funStab_narg hq]
      exact Or.inr ⟨lfile, rfile, lfun, rfun, q, ⟨hv, hfile, hz, hfun, hq⟩, fnNarg_run hzero h4⟩
  · cases h
    exact Or.inl ⟨fun _ _ _ _ _ hsel => hv hsel.valid, rfl⟩

/-- where the function search finds a stab, the count is that of its parameters; where it finds none, it is 0 -/
def DebugInfo.CountsParams (T : DebugInfo) (addr : Word) (info : Eipdebuginfo) : Prop :=
  (∀ lfile rfile lfun rfun q, T.Selects addr lfile rfile lfun rfun q → lfun ≤ rfun →
    ParamRun T.stabs (lfun + 1) rfun info.eipFnNarg) ∧
  ((∀ lfile rfile lfun rfun q, T.Selects addr lfile rfile lfun rfun q → rfun < lfun) → info.eipFnNarg = 0)

/-- the range that the function search finds does not consist of the function and parameters only -/
def DebugInfo.ParamsEnd (T : DebugInfo) (addr : Word) : Prop :=
  ∀ lfile rfile lfun rfun q, T.Selects addr lfile rfile lfun rfun q → lfun < rfun →
    ∃ i, lfun + 1 ≤ i ∧ i ≤ rfun ∧ ¬ IsParam T.stabs i

/-- **The number of arguments.** For every table and address of a lookup: it is the length of the maximal run of
parameter stabs behind the function, and 0 without a function, if and only if the parameters do not fill the range. -/
theorem narg_iff {T : DebugInfo} {addr : Word} {rc : ℤ} {info : Eipdebuginfo} (h : debuginfoEip T addr = .ok (rc, info)) :
    T.CountsParams addr info ↔ T.ParamsEnd addr := by
  rcases debuginfoEip_narg h with ⟨hno, h0⟩ | ⟨lfile, rfile, lfun, rfun, q, hsel, hrun, h0⟩
  · refine iff_of_true ⟨?_, fun _ => h0⟩ ?_
    · intro _ _ _ _ _ h
      exact absurd h (hno _ _ _ _ _)
    · intro _ _ _ _ _ h
      exact absurd h (hno _ _ _ _ _)
  constructor
  · rintro ⟨hcount, -⟩ lfile' rfile' lfun' rfun' q' hsel' hlt
    obtain ⟨rfl, rfl, -⟩ := hsel.unique hsel'
    exact ((hrun hlt).extend_iff).1 (hcount _ _ _ _ _ hsel (le_of_lt hlt))
  · intro hend
    refine ⟨fun lfile' rfile' lfun' rfun' q' hsel' hle => ?_, fun hmiss => h0 (not_lt_of_gt (hmiss _ _ _ _ _ hsel))⟩
    obtain ⟨rfl, rfl, -⟩ := hsel.unique hsel'
    rcases eq_or_lt_of_le hle with heq | hlt
    · rw [h0 (by omega)]
      exact ⟨le_refl 0, by omega, fun i h1 h2 => by omega, fun h => by omega⟩
    · exact ((hrun hlt).extend_iff).2 (hend _ _ _ _ _ hsel hlt)

theorem monitorTable_narg : monitorTable.CountsParams 0xf0100a62 ⟨.stabstr 1, 96, .stabstr 16, 7, 0xf01009f8, 0⟩ ↔
    monitorTable.ParamsEnd 0xf0100a62 :=
  narg_iff (show debuginfoEip monitorTable 0xf0100a62 = .ok (0, _) by decide +kernel)

/-- monitor with a parameter, the last stab of the table -/
def paramTable : DebugInfo where
  stabs := [⟨1, 0, 0, 3, 32⟩, ⟨1, 0x64, 0, 0, 0xf0100900⟩, ⟨16, 0x24, 0, 0, 0xf01009f8⟩, ⟨27, 0xa0, 0, 0, 8⟩]
  stabstr := [0#8] ++ bytes "kern/monitor.c" ++ [0#8] ++ bytes "monitor:F1" ++ [0#8] ++ bytes "tf:p" ++ [0#8]

/-- **The last parameter.** It is in the range of monitor, and is not counted. -/
theorem narg_stops_short :
    paramTable.Sorted ∧
      debuginfoEip paramTable 0xf0100a62 = .ok (0, ⟨.stabstr 1, 0, .stabstr 16, 7, 0xf01009f8, 0⟩) ∧
      ParamRun paramTable.stabs 3 3 1 ∧
      ¬ paramTable.CountsParams 0xf0100a62 ⟨.stabstr 1, 0, .stabstr 16, 7, 0xf01009f8, 0⟩ := by
  have hsel : paramTable.Selects 0xf0100a62 1 3 2 3 ⟨⟨.unknown, 0, .stabstr 16, 9, 0xf01009f8, 0⟩, 106, 2, 3⟩ :=
    ⟨by decide +kernel, by decide +kernel, by decide, by decide +kernel, by decide +kernel⟩
  have hparam : IsParam paramTable.stabs 3 := ⟨⟨27, 0xa0, 0, 0, 8⟩, by decide +kernel, by decide⟩
  refine ⟨⟨by decide +kernel, by decide +kernel, by decide +kernel, by decide +kernel⟩, by decide +kernel, ?_, fun h => ?_⟩
  · refine ⟨by decide, by decide, fun i h1 h2 => ?_, fun h => absurd h (by decide)⟩
    rwa [show i = 3 by omega]
  · exact (h.1 _ _ _ _ _ hsel (by decide)).maximal (by decide) hparam

end Jos.Kdebug
