/-
What `debuginfo_eip` finds.

- `debuginfo_eip_in_bounds`: on any table with the linker's header in front, any string table and any kernel address,
  the lookup reads only inside the tables, and the two strings it leaves in `*info` are terminated inside them.
- `debuginfo_eip_symbols`: on a table sorted as ld and gcc -gstabs leave it, the file and the function are those of the
  address.
- `debuginfo_eip_line`: on such a table the stored line is the `n_value` of the right N_SLINE stab; it is the source
  line exactly when that field happens to equal `n_desc`. Witness that it need not: `debuginfo_eip_offset_as_line`.
-/
import Jos.Kdebug.Search

namespace Jos.Kdebug

open Jos.Bracket

/-- index of the last stab -/
def DebugInfo.last (T : DebugInfo) : ℤ := T.stabs.length - 1

/-- entry 0 is the linker's header, whose type is 0 -/
def DebugInfo.HasHeader (T : DebugInfo) : Prop := (T.stabs.head?.map Stab.nType) = some 0

instance (T : DebugInfo) : Decidable T.HasHeader := inferInstanceAs (Decidable (_ = _))

/-- the string of a stab -/
def DebugInfo.string (T : DebugInfo) (s : Stab) : List Byte := cstr (T.stabstr.drop s.nStrx.toNat)

/-- p points to a terminated string: the constant, or one inside the string table -/
def DebugInfo.Points (T : DebugInfo) : CharPtr → Prop
  | .unknown => True
  | .stabstr off => off < T.stabstr.length ∧ 0#8 ∈ T.stabstr.drop off

/-! ## The phases -/

theorem header_key {T : DebugInfo} {type : ℤ} (h : T.HasHeader) (ht : type ≠ 0) : keyOf T.stabs type 0 = none := by
  unfold DebugInfo.HasHeader at h
  cases hs : T.stabs with
  | nil => rw [hs] at h; cases h
  | cons s rest =>
    rw [hs] at h
    have hs0 : s.nType = 0 := by simpa using h
    have : ¬ s.hasType type := by simp [Stab.hasType, hs0, ht.symm]
    exact keyOf_none_of_stab (s := s) rfl this

theorem header_last {T : DebugInfo} (h : T.HasHeader) : 0 ≤ T.last := by
  unfold DebugInfo.HasHeader at h
  unfold DebugInfo.last
  cases hs : T.stabs with
  | nil => rw [hs] at h; cases h
  | cons s rest => simp

theorem valid_mem_drop {T : DebugInfo} (h : T.stabstrValid) {off : ℕ} (hoff : off < T.stabstr.length) :
    0#8 ∈ T.stabstr.drop off := by
  unfold DebugInfo.stabstrValid at h
  have hl : (T.stabstr.drop off).getLast? = some 0#8 := by
    rw [List.getLast?_drop, if_neg (by omega)]; exact h
  exact List.mem_of_getLast? hl

theorem strOr_points {T : DebugInfo} (h : T.stabstrValid) (s : Stab) {p : CharPtr} (hp : T.Points p) :
    T.Points (T.strOr s p) := by
  unfold DebugInfo.strOr
  split_ifs with hlt
  · exact ⟨hlt, valid_mem_drop h hlt⟩
  · exact hp

theorem DebugInfo.Points.mem_at {T : DebugInfo} {p : CharPtr} (h : T.Points p) : 0#8 ∈ T.at p := by
  cases p with
  | unknown => simp [DebugInfo.at]
  | stabstr off => exact h.2

theorem fnNamelen_eq {T : DebugInfo} {info : Eipdebuginfo} (h : T.Points info.eipFnName) :
    fnNamelen T info =
      .ok { info with eipFnNamelen := ((cstr (T.at info.eipFnName)).takeWhile (· ≠ chr ':')).length } := by
  simp only [fnNamelen, strfind_eq _ _ h.mem_at]

theorem scanFile_ok (stabs : List Stab) (lfile lline : ℤ) (h0 : 0 ≤ lfile) (hN : lline < stabs.length) :
    ∃ k, scanFile stabs lfile lline = .ok k := by
  fun_induction scanFile stabs lfile lline with
  | case1 m hl e he =>
    obtain ⟨s, hs⟩ := stabAt_ok stabs m (by omega) hN
    rw [hs] at he; cases he
  | case2 m hl s hs ht => exact ⟨m, rfl⟩
  | case3 m hl s hs ht ih => exact ih (by omega)
  | case4 m hl => exact ⟨m, rfl⟩

theorem scanFile_le {stabs : List Stab} {lfile lline k : ℤ} (h : scanFile stabs lfile lline = .ok k) : k ≤ lline := by
  fun_induction scanFile stabs lfile lline with
  | case1 m hl e he => cases h
  | case2 m hl s hs ht => cases h; exact le_rfl
  | case3 m hl s hs ht ih => have := ih h; omega
  | case4 m hl => cases h; exact le_rfl

/-- the backward scan does not run past an entry that names a file -/
theorem scanFile_ge {stabs : List Stab} {lfile lline k i : ℤ} {s : Stab} (h : scanFile stabs lfile lline = .ok k)
    (hi : lfile ≤ i) (hil : i ≤ lline) (hs : stabAt stabs i = .ok s) (hf : s.namesFile) : i ≤ k := by
  fun_induction scanFile stabs lfile lline with
  | case1 m hl e he => cases h
  | case2 m hl s' hs' ht => cases h; exact hil
  | case3 m hl s' hs' ht ih =>
    by_cases him : i = m
    · rw [him, hs'] at hs; cases hs; exact absurd hf ht
    · exact ih h (by omega)
  | case4 m hl => omega

/-- where the backward scan stops inside the file, it stops at an entry that names a file -/
theorem scanFile_stop {stabs : List Stab} {lfile lline k : ℤ} (h : scanFile stabs lfile lline = .ok k)
    (hk : lfile ≤ k) : ∃ s, stabAt stabs k = .ok s ∧ s.namesFile := by
  fun_induction scanFile stabs lfile lline with
  | case1 m hl e he => cases h
  | case2 m hl s hs ht => cases h; exact ⟨s, hs, ht⟩
  | case3 m hl s hs ht ih => exact ih h
  | case4 m hl => cases h; exact absurd hk hl

theorem countPsym_ok (stabs : List Stab) (rfun lline narg : ℤ) (h0 : 0 ≤ lline) (hN : rfun ≤ stabs.length) :
    ∃ n, countPsym stabs rfun lline narg = .ok n := by
  fun_induction countPsym stabs rfun lline narg with
  | case1 l narg hl e he =>
    obtain ⟨s, hs⟩ := stabAt_ok stabs l h0 (by omega)
    rw [hs] at he; cases he
  | case2 l narg hl s hs ht ih => exact ih (by omega)
  | case3 l narg hl s hs ht => exact ⟨narg, rfl⟩
  | case4 l narg hl => exact ⟨narg, rfl⟩

theorem funStab_found {T : DebugInfo} (info : Eipdebuginfo) (addr : Word) (lfile rfile : ℤ) {lfun rfun : ℤ} {s : Stab}
    (h : lfun ≤ rfun) (hs : stabAt T.stabs lfun = .ok s) :
    funStab T info addr lfile rfile lfun rfun =
      .ok ⟨{ info with eipFnName := T.strOr s info.eipFnName, eipFnAddr := s.nValue }, addr - s.nValue, lfun, rfun⟩ := by
  simp only [funStab, if_pos h, hs, ok_bind]; rfl

theorem funStab_miss (T : DebugInfo) (info : Eipdebuginfo) (addr : Word) (lfile rfile : ℤ) {lfun rfun : ℤ}
    (h : ¬ lfun ≤ rfun) :
    funStab T info addr lfile rfile lfun rfun = .ok ⟨{ info with eipFnAddr := addr }, addr, lfile, rfile⟩ := by
  simp only [funStab, if_neg h]; rfl

theorem lineStab_found {T : DebugInfo} (info : Eipdebuginfo) {lline rline : ℤ} {s : Stab} (h : lline ≤ rline)
    (hs : stabAt T.stabs lline = .ok s) :
    lineStab T info lline rline = .ok { info with eipLine := s.nValue.toInt } := by
  simp only [lineStab, if_pos h, hs, ok_bind]; rfl

theorem lineStab_miss (T : DebugInfo) (info : Eipdebuginfo) {lline rline : ℤ} (h : ¬ lline ≤ rline) :
    lineStab T info lline rline = .ok info := by
  simp only [lineStab, if_neg h]; rfl

theorem fileStab_found {T : DebugInfo} (info : Eipdebuginfo) {lfile k : ℤ} {s : Stab} (h : lfile ≤ k)
    (hs : stabAt T.stabs k = .ok s) :
    fileStab T info lfile k = .ok { info with eipFile := T.strOr s info.eipFile } := by
  simp only [fileStab, if_pos h, hs, ok_bind]; rfl

theorem fileStab_miss (T : DebugInfo) (info : Eipdebuginfo) {lfile k : ℤ} (h : ¬ lfile ≤ k) :
    fileStab T info lfile k = .ok info := by
  simp only [fileStab, if_neg h]; rfl

/-- the guard of the count changes nothing: past it the loop would not start -/
theorem fnNarg_eq {T : DebugInfo} {info : Eipdebuginfo} {lfun rfun n : ℤ} (h0 : info.eipFnNarg = 0)
    (hn : countPsym T.stabs rfun (lfun + 1) 0 = .ok n) : fnNarg T info lfun rfun = .ok { info with eipFnNarg := n } := by
  unfold fnNarg
  split_ifs with h
  · rw [h0, hn]; rfl
  · have hz : n = 0 := by
      rw [countPsym, if_neg (by omega)] at hn
      exact (Except.ok.inj hn).symm
    rw [hz, ← h0]; rfl

/-- the phases put together -/
theorem debuginfoFile_eq {T : DebugInfo} {addr : Word} {lfile rfile lfun rfun lline rline k : ℤ} {q : LineQuery}
    {i1 i2 i3 i4 : Eipdebuginfo} (hfun : stabBinsearch T.stabs lfile rfile N_FUN addr = .ok (lfun, rfun))
    (hq : funStab T (Eipdebuginfo.init addr) addr lfile rfile lfun rfun = .ok q) (h1 : fnNamelen T q.info = .ok i1)
    (hline : stabBinsearch T.stabs q.lline q.rline N_SLINE q.addr = .ok (lline, rline))
    (h2 : lineStab T i1 lline rline = .ok i2) (hk : scanFile T.stabs lfile lline = .ok k)
    (h3 : fileStab T i2 lfile k = .ok i3) (h4 : fnNarg T i3 lfun rfun = .ok i4) :
    debuginfoFile T addr lfile rfile = .ok (0, i4) := by
  simp only [debuginfoFile, hfun, ok_bind, hq, h1, hline, h2, hk, h3, h4]; rfl

/-! ## Staying inside the tables -/

/-- the fields that the phases after the function search leave alone -/
structure SameFn (i j : Eipdebuginfo) : Prop where
  addr : j.eipFnAddr = i.eipFnAddr
  name : j.eipFnName = i.eipFnName
  namelen : j.eipFnNamelen = i.eipFnNamelen

theorem SameFn.refl (i : Eipdebuginfo) : SameFn i i := ⟨rfl, rfl, rfl⟩

theorem SameFn.trans {i j k : Eipdebuginfo} (h1 : SameFn i j) (h2 : SameFn j k) : SameFn i k :=
  ⟨h2.addr.trans h1.addr, h2.name.trans h1.name, h2.namelen.trans h1.namelen⟩

/-- the function phase hands the line search a nonempty range of the table -/
theorem funStab_ok {T : DebugInfo} (addr : Word) {lfile rfile lfun rfun : ℤ} (hv : T.stabstrValid) (h1 : 0 ≤ lfile)
    (hle : lfile ≤ rfile) (hN : rfile < T.stabs.length) (h0 : 0 ≤ lfun) (hr : rfun ≤ rfile) :
    ∃ q, funStab T (Eipdebuginfo.init addr) addr lfile rfile lfun rfun = .ok q ∧ T.Points q.info.eipFnName ∧
      q.info.eipFile = .unknown ∧ q.info.eipFnNarg = 0 ∧ 0 ≤ q.lline ∧ q.lline ≤ q.rline ∧
      q.rline < T.stabs.length := by
  by_cases h : lfun ≤ rfun
  · obtain ⟨s, hs⟩ := stabAt_ok T.stabs lfun h0 (by omega)
    refine ⟨_, funStab_found _ addr lfile rfile h hs, ?_, rfl, rfl, h0, h, by simp only; omega⟩
    exact strOr_points hv s trivial
  · exact ⟨_, funStab_miss T _ addr lfile rfile h, trivial, rfl, rfl, h1, hle, hN⟩

theorem lineStab_ok (T : DebugInfo) (info : Eipdebuginfo) {lline : ℤ} (rline : ℤ) (h0 : 0 ≤ lline)
    (hN : lline < T.stabs.length) :
    ∃ info', lineStab T info lline rline = .ok info' ∧ SameFn info info' ∧ info'.eipFile = info.eipFile ∧
      info'.eipFnNarg = info.eipFnNarg ∧
      ∀ s, lline ≤ rline → stabAt T.stabs lline = .ok s → info'.eipLine = s.nValue.toInt := by
  obtain ⟨s, hs⟩ := stabAt_ok T.stabs _ h0 hN
  by_cases h : lline ≤ rline
  · refine ⟨_, lineStab_found info h hs, ⟨rfl, rfl, rfl⟩, rfl, rfl, fun t _ ht => ?_⟩
    rw [hs] at ht; cases ht; rfl
  · exact ⟨info, lineStab_miss T info h, SameFn.refl info, rfl, rfl, fun t hle => absurd hle h⟩

theorem fileStab_ok (T : DebugInfo) (info : Eipdebuginfo) (lfile k : ℤ) (hv : T.stabstrValid) (h0 : 0 ≤ lfile)
    (hN : k < T.stabs.length) (hp : T.Points info.eipFile) :
    ∃ info', fileStab T info lfile k = .ok info' ∧ SameFn info info' ∧ info'.eipLine = info.eipLine ∧
      info'.eipFnNarg = info.eipFnNarg ∧ T.Points info'.eipFile ∧
      ∀ s, lfile ≤ k → stabAt T.stabs k = .ok s → info'.eipFile = T.strOr s info.eipFile := by
  by_cases h : lfile ≤ k
  · obtain ⟨s, hs⟩ := stabAt_ok T.stabs k (by omega) hN
    refine ⟨_, fileStab_found info h hs, ⟨rfl, rfl, rfl⟩, rfl, rfl, strOr_points hv s hp, fun t _ ht => ?_⟩
    rw [hs] at ht; cases ht; rfl
  · exact ⟨info, fileStab_miss T info h, SameFn.refl info, rfl, rfl, hp, fun t hle => absurd hle h⟩

/-- **What the lookup reports** once the file search gave [lfile, rfile]: the results of its two further searches and
of the backward scan (which ends at k), and how `*info` follows from them. -/
structure Report (T : DebugInfo) (addr : Word) (lfile rfile lfun rfun lline rline k : ℤ) (q : LineQuery)
    (info : Eipdebuginfo) : Prop where
  fun_search : stabBinsearch T.stabs lfile rfile N_FUN addr = .ok (lfun, rfun)
  query : funStab T (Eipdebuginfo.init addr) addr lfile rfile lfun rfun = .ok q
  line_search : stabBinsearch T.stabs q.lline q.rline N_SLINE q.addr = .ok (lline, rline)
  scan : scanFile T.stabs lfile lline = .ok k
  fn_addr : info.eipFnAddr = q.info.eipFnAddr
  fn_name : info.eipFnName = q.info.eipFnName
  namelen : info.eipFnNamelen = ((cstr (T.at q.info.eipFnName)).takeWhile (· ≠ chr ':')).length
  line : ∀ s, lline ≤ rline → stabAt T.stabs lline = .ok s → info.eipLine = s.nValue.toInt
  file : ∀ s, lfile ≤ k → stabAt T.stabs k = .ok s → info.eipFile = T.strOr s .unknown
  narg : countPsym T.stabs rfun (lfun + 1) 0 = .ok info.eipFnNarg
  name_points : T.Points info.eipFnName
  file_points : T.Points info.eipFile

/-- the phases after the file search stay inside the tables and return 0 -/
theorem debuginfoFile_ok {T : DebugInfo} (addr : Word) {lfile rfile : ℤ} (hh : T.HasHeader) (hv : T.stabstrValid)
    (h1 : 1 ≤ lfile) (hle : lfile ≤ rfile) (hN : rfile < T.stabs.length) :
    ∃ info lfun rfun lline rline k q, debuginfoFile T addr lfile rfile = .ok (0, info) ∧
      Report T addr lfile rfile lfun rfun lline rline k q info := by
  obtain ⟨lfun, rfun, hfun, hf1, hf2, hf3, -, -⟩ :=
    stabBinsearch_bounds T.stabs N_FUN addr (by omega) hle hN
  obtain ⟨q, hq, hqn, hqf, hqg, hq0, hqle, hqN⟩ := funStab_ok addr hv (by omega) hle hN (show 0 ≤ lfun by omega) hf3
  obtain ⟨lline, rline, hline, hl1, hl2, -, -, hl5⟩ :=
    stabBinsearch_bounds T.stabs N_SLINE q.addr hq0 hqle hqN
  -- the line search can only leave its range at the left, and not below the header
  have hline0 : 0 ≤ lline := by
    rcases eq_or_lt_of_le hq0 with h | h
    · rw [← h] at hl5; exact hl5 (header_key hh (by decide))
    · omega
  have hnl := fnNamelen_eq hqn
  generalize hi1 : ({ q.info with
    eipFnNamelen := ((cstr (T.at q.info.eipFnName)).takeWhile (· ≠ chr ':')).length } : Eipdebuginfo) = i1 at hnl
  obtain ⟨i2, hi2, hs2, hf2', hg2, hline2⟩ := lineStab_ok T i1 rline hline0 (by omega)
  obtain ⟨k, hk⟩ := scanFile_ok T.stabs lfile lline (by omega) (by omega)
  have hkl := scanFile_le hk
  have hf1' : i2.eipFile = .unknown := by rw [hf2', ← hi1]; exact hqf
  obtain ⟨i3, hi3, hs3, hl3, hg3, hp3, hfile3⟩ :=
    fileStab_ok T i2 lfile k hv (by omega) (by omega) (by rw [hf1']; trivial)
  have hg0 : i3.eipFnNarg = 0 := by rw [hg3, hg2, ← hi1]; exact hqg
  obtain ⟨n, hn⟩ := countPsym_ok T.stabs rfun (lfun + 1) 0 (by omega) (by omega)
  have h4 := fnNarg_eq hg0 hn
  have hsame := hs2.trans hs3
  have hname : i3.eipFnName = q.info.eipFnName := by rw [hsame.name, ← hi1]
  refine ⟨_, lfun, rfun, lline, rline, k, q, debuginfoFile_eq hfun hq hnl hline hi2 hk hi3 h4, hfun, hq, hline, hk,
    ?_, hname, ?_, ?_, ?_, hn, ?_, hp3⟩
  · simp only [hsame.addr, ← hi1]
  · simp only [hsame.namelen, ← hi1]
  · intro s hlr hs
    simp only [hl3]; exact hline2 s hlr hs
  · intro s hlk hs
    simp only [hfile3 s hlk hs, hf1']
  · simp only [hname]; exact hqn

/-- **The lookup never leaves the debug tables.** For every table with the linker's header in front, whatever its other
entries, every string table and every kernel address: the lookup ends without a read outside the stab table or the
string table, and the function and file names it leaves are the constant or a string that is terminated inside the
string table. -/
theorem debuginfo_eip_in_bounds (T : DebugInfo) (hh : T.HasHeader) (addr : Word) (hu : ULIM ≤ addr) :
    ∃ rc info, debuginfoEip T addr = .ok (rc, info) ∧ T.Points info.eipFnName ∧ T.Points info.eipFile := by
  have hlast := header_last hh
  unfold DebugInfo.last at hlast
  unfold debuginfoEip
  rw [if_neg (by bv_omega)]
  by_cases hv : T.stabstrValid
  · obtain ⟨lfile, rfile, hfile, h1, h2, h3, h4, h5⟩ :=
      stabBinsearch_bounds T.stabs N_SO addr le_rfl hlast (by omega)
    have h0 := h5 (header_key hh (by decide))
    rw [if_neg (not_not.2 hv), hfile, ok_bind]
    by_cases hz : lfile = 0
    · refine ⟨-1, Eipdebuginfo.init addr, ?_, trivial, trivial⟩
      simp only [if_pos hz]; rfl
    · simp only [if_neg hz]
      obtain ⟨info, lfun, rfun, lline, rline, k, q, hok, hrep⟩ :=
        debuginfoFile_ok addr hh hv (show 1 ≤ lfile by omega) (show lfile ≤ rfile by omega) (by omega)
      exact ⟨0, info, hok, hrep.name_points, hrep.file_points⟩
  · refine ⟨-1, Eipdebuginfo.init addr, ?_, trivial, trivial⟩
    rw [if_pos hv]; rfl

/-- files, functions and lines in no order, one string offset outside the table -/
def unsortedTable : DebugInfo where
  stabs := [⟨1, 0, 0, 11, 12⟩, ⟨0, 0x44, 0, 7, 0xf0⟩, ⟨1, 0x64, 0, 0, 0xf0100200⟩, ⟨5, 0x24, 0, 0, 0xf0100240⟩,
    ⟨0, 0x44, 0, 12, 0x30⟩, ⟨0, 0x44, 0, 11, 0x8⟩, ⟨99, 0xa0, 0, 0, 8⟩, ⟨1, 0x64, 0, 0, 0xf0100000⟩,
    ⟨5, 0x24, 0, 0, 0xf0100100⟩, ⟨0, 0x44, 0, 3, 0x24⟩, ⟨0, 0x44, 0, 4, 0x10⟩]
  stabstr := bytes "\x00a.c\x00f:F1\x00"

/-- the largest address there: all three searches find an entry, and both strings are read -/
theorem debuginfo_eip_in_bounds_unsorted :
    debuginfoEip unsortedTable 0xffffffff = .ok (0, ⟨.stabstr 1, 16, .stabstr 5, 1, 0xf0100100, 0⟩) ∧
      unsortedTable.Points (.stabstr 5) ∧ unsortedTable.Points (.stabstr 1) := by
  have hrun : debuginfoEip unsortedTable 0xffffffff = .ok (0, ⟨.stabstr 1, 16, .stabstr 5, 1, 0xf0100100, 0⟩) := by
    decide +kernel
  obtain ⟨rc, info, h, hname, hfile⟩ := debuginfo_eip_in_bounds unsortedTable (by decide) 0xffffffff (by decide)
  rw [hrun] at h
  cases h
  exact ⟨hrun, hname, hfile⟩

/-! ## What a lookup that returns 0 has found, on any table -/

structure DebugInfo.Found (T : DebugInfo) (info : Eipdebuginfo) : Prop where
  file : T.Points info.eipFile
  name : T.Points info.eipFnName
  namelen : info.eipFnNamelen = ((cstr (T.at info.eipFnName)).takeWhile (· ≠ chr ':')).length
  line : ∃ v : Word, info.eipLine = v.toInt

theorem funStab_found_name {T : DebugInfo} {addr : Word} {lfile rfile lfun rfun : ℤ} {q : LineQuery}
    (hv : T.stabstrValid) (h : funStab T (Eipdebuginfo.init addr) addr lfile rfile lfun rfun = .ok q) :
    T.Points q.info.eipFnName ∧ q.info.eipFile = .unknown ∧ q.info.eipLine = 0 := by
  unfold funStab at h
  split_ifs at h
  · obtain ⟨s, -, h⟩ := bind_ok h
    cases h
    exact ⟨strOr_points hv s trivial, rfl, rfl⟩
  · cases h
    exact ⟨trivial, rfl, rfl⟩

theorem lineStab_found_line {T : DebugInfo} {info info' : Eipdebuginfo} {lline rline : ℤ}
    (h : lineStab T info lline rline = .ok info') (hl : ∃ v : Word, info.eipLine = v.toInt) :
    (∃ v : Word, info'.eipLine = v.toInt) ∧ SameFn info info' ∧ info'.eipFile = info.eipFile := by
  unfold lineStab at h
  split_ifs at h
  · obtain ⟨s, -, h⟩ := bind_ok h
    cases h
    exact ⟨⟨s.nValue, rfl⟩, ⟨rfl, rfl, rfl⟩, rfl⟩
  · cases h
    exact ⟨hl, SameFn.refl info, rfl⟩

theorem fileStab_found_file {T : DebugInfo} {info info' : Eipdebuginfo} {lfile k : ℤ} (hv : T.stabstrValid)
    (h : fileStab T info lfile k = .ok info') (hp : T.Points info.eipFile) :
    T.Points info'.eipFile ∧ SameFn info info' ∧ info'.eipLine = info.eipLine := by
  unfold fileStab at h
  split_ifs at h
  · obtain ⟨s, -, h⟩ := bind_ok h
    cases h
    exact ⟨strOr_points hv s hp, ⟨rfl, rfl, rfl⟩, rfl⟩
  · cases h
    exact ⟨hp, SameFn.refl info, rfl⟩

/-- the count of the parameters is the last field, and changes no other -/
theorem DebugInfo.Found.narg {T : DebugInfo} {info info' : Eipdebuginfo} {lfun rfun : ℤ} (hf : T.Found info)
    (h : fnNarg T info lfun rfun = .ok info') : T.Found info' := by
  unfold fnNarg at h
  split_ifs at h
  · obtain ⟨n, -, h⟩ := bind_ok h
    cases h
    exact ⟨hf.file, hf.name, hf.namelen, hf.line⟩
  · cases h
    exact hf

theorem debuginfoFile_found {T : DebugInfo} {addr : Word} {lfile rfile rc : ℤ} {info : Eipdebuginfo}
    (hv : T.stabstrValid) (h : debuginfoFile T addr lfile rfile = .ok (rc, info)) : T.Found info := by
  obtain ⟨⟨lfun, rfun⟩, -, h⟩ := bind_ok h
  obtain ⟨q, hq, h⟩ := bind_ok h
  obtain ⟨i1, h1, h⟩ := bind_ok h
  obtain ⟨⟨lline, rline⟩, -, h⟩ := bind_ok h
  obtain ⟨i2, h2, h⟩ := bind_ok h
  obtain ⟨k, -, h⟩ := bind_ok h
  obtain ⟨i3, h3, h⟩ := bind_ok h
  obtain ⟨i4, h4, h⟩ := bind_ok h
  cases h
  obtain ⟨hname, hfile, hline⟩ := funStab_found_name hv hq
  rw [fnNamelen_eq hname] at h1
  cases h1
  obtain ⟨hline2, hsame2, hfile2⟩ := lineStab_found_line h2 ⟨0, hline⟩
  obtain ⟨hfile3, hsame3, hline3⟩ := fileStab_found_file hv h3 (by rw [hfile2]; simp only [hfile]; trivial)
  have hsame := hsame2.trans hsame3
  refine DebugInfo.Found.narg ⟨hfile3, ?_, ?_, ?_⟩ h4
  · rw [hsame.name]
    exact hname
  · rw [hsame.namelen, hsame.name]
  · rw [hline3]
    exact hline2

theorem debuginfoEip_found {T : DebugInfo} {addr : Word} {info : Eipdebuginfo} (h : debuginfoEip T addr = .ok (0, info)) :
    T.Found info := by
  unfold debuginfoEip at h
  split_ifs at h with hu hv
  · obtain ⟨⟨lfile, rfile⟩, -, h⟩ := bind_ok h
    simp only at h
    split_ifs at h
    · cases h
    · exact debuginfoFile_found hv h
  · cases h

/-! ## Tables as ld and gcc -gstabs leave them -/

/-- entry i is an N_SO stab -/
def DebugInfo.StartsFile (T : DebugInfo) (i : ℤ) : Prop := keyOf T.stabs N_SO i ≠ none

instance (T : DebugInfo) : DecidablePred T.StartsFile := fun i => inferInstanceAs (Decidable (keyOf T.stabs N_SO i ≠ none))

/-- entry i is an N_SO or an N_FUN stab -/
def DebugInfo.StartsRange (T : DebugInfo) (i : ℤ) : Prop := T.StartsFile i ∨ keyOf T.stabs N_FUN i ≠ none

instance (T : DebugInfo) : DecidablePred T.StartsRange :=
  fun i => inferInstanceAs (Decidable (T.StartsFile i ∨ keyOf T.stabs N_FUN i ≠ none))

/-- the header in front, the N_SO stabs in order, the N_FUN stabs in order inside each file, a valid string table -/
structure DebugInfo.Sorted (T : DebugInfo) : Prop where
  header : T.HasHeader
  so_sorted : Ordered (keyOf T.stabs N_SO) 0 T.last
  fun_sorted : OrderedBetween T.StartsFile (keyOf T.stabs N_FUN) 0 T.last
  valid : T.stabstrValid

/-- addr is the value of no N_SO and no N_FUN stab -/
def DebugInfo.AvoidsStarts (T : DebugInfo) (addr : Word) : Prop :=
  Avoids (keyOf T.stabs N_SO) addr.toNat 0 T.last ∧ Avoids (keyOf T.stabs N_FUN) addr.toNat 0 T.last

/-- Where addr belongs: lfile is the last N_SO stab below it and [lfile, rfile] that file's stabs; lfun is the last
N_FUN stab below it among these and [lfun, rfun] that function's stabs. -/
structure DebugInfo.Locates (T : DebugInfo) (addr : Word) (lfile rfile lfun rfun : ℤ) : Prop where
  file : LastBelow (keyOf T.stabs N_SO) addr.toNat 0 T.last lfile
  file_range : Segment (keyOf T.stabs N_SO) T.last lfile rfile
  func : LastBelow (keyOf T.stabs N_FUN) addr.toNat lfile rfile lfun
  func_range : Segment (keyOf T.stabs N_FUN) rfile lfun rfun

/-- the first two searches find the file and the function that addr belongs to -/
theorem search_locates {T : DebugInfo} {addr : Word} {lfile rfile lfun rfun : ℤ} (hT : T.Sorted)
    (ha : T.AvoidsStarts addr) (hl : T.Locates addr lfile rfile lfun rfun) :
    stabBinsearch T.stabs 0 T.last N_SO addr = .ok (lfile, rfile) ∧
      stabBinsearch T.stabs lfile rfile N_FUN addr = .ok (lfun, rfun) := by
  have hN : T.last < T.stabs.length := by unfold DebugInfo.last; omega
  obtain ⟨r, hr, hseg, -⟩ := stabBinsearch_between le_rfl hN hT.so_sorted ha.1 hl.file
  rw [hseg.unique hl.file_range] at hr
  refine ⟨hr, ?_⟩
  have h0 := hl.file.lo_le
  have hlast := hl.file_range.le_hi
  have hord : Ordered (keyOf T.stabs N_FUN) lfile rfile := by
    apply hT.fun_sorted.ordered h0 hlast
    intro k h1 h2 hk
    exact hk (hl.file_range.free k (by omega) h2)
  have hav : Avoids (keyOf T.stabs N_FUN) addr.toNat lfile rfile := fun i h1 h2 => ha.2 i (by omega) (by omega)
  obtain ⟨r', hr', hseg', -⟩ := stabBinsearch_between h0 (by omega) hord hav hl.func
  rw [hseg'.unique hl.func_range] at hr'
  exact hr'

/-- the line search starts at the function's own stab, so it does not leave the function's range -/
theorem lineSearch_mem {T : DebugInfo} {addr key : Word} {lfile rfile lfun rfun lline rline : ℤ}
    (hl : T.Locates addr lfile rfile lfun rfun)
    (h : stabBinsearch T.stabs lfun rfun N_SLINE key = .ok (lline, rline)) : lfun ≤ lline ∧ lline ≤ rfun := by
  have h0 := hl.file.lo_le
  have h1 := hl.func.lo_le
  have h2 := hl.func_range.le_hi
  have h3 := hl.file_range.le_hi
  unfold DebugInfo.last at h3
  obtain ⟨l, r, hline, -, hle, -, -, hge⟩ :=
    stabBinsearch_bounds T.stabs N_SLINE key (by omega) hl.func_range.le (by omega)
  rw [hline] at h
  cases h
  refine ⟨hge ?_, hle⟩
  obtain ⟨v, hv, -⟩ := hl.func.below
  obtain ⟨s, hs, ht, -⟩ := keyOf_some hv
  apply keyOf_none_of_stab hs
  unfold Stab.hasType at ht ⊢
  rw [ht]; decide

/-- so the lookup succeeds with that file and that function, and looks the line up relative to the function's start -/
theorem debuginfoEip_located {T : DebugInfo} {addr : Word} {lfile rfile lfun rfun : ℤ} {f : Stab} (hT : T.Sorted)
    (hu : ULIM ≤ addr) (ha : T.AvoidsStarts addr) (hl : T.Locates addr lfile rfile lfun rfun)
    (hf : stabAt T.stabs lfun = .ok f) :
    1 ≤ lfile ∧ ∃ info lline rline k q, debuginfoEip T addr = .ok (0, info) ∧
      Report T addr lfile rfile lfun rfun lline rline k q info ∧
      q = ⟨{ Eipdebuginfo.init addr with eipFnName := T.strOr f .unknown, eipFnAddr := f.nValue }, addr - f.nValue,
        lfun, rfun⟩ := by
  obtain ⟨hfile, hfun⟩ := search_locates hT ha hl
  have hle := hl.file_range.le
  have hN := hl.file_range.le_hi
  unfold DebugInfo.last at hN
  have h1 : 1 ≤ lfile := by
    have h0 := hl.file.lo_le
    obtain ⟨v, hv, -⟩ := hl.file.below
    rcases eq_or_lt_of_le h0 with h | h
    · rw [← h, header_key hT.header (by decide)] at hv; cases hv
    · omega
  obtain ⟨info, lfun', rfun', lline, rline, k, q, hok, hrep⟩ :=
    debuginfoFile_ok addr hT.header hT.valid h1 hle (by omega)
  have heq := hrep.fun_search
  rw [hfun] at heq
  cases heq
  have hq := hrep.query
  rw [funStab_found _ addr lfile rfile hl.func_range.le hf] at hq
  cases hq
  refine ⟨h1, info, lline, rline, k, _, ?_, hrep, rfl⟩
  unfold debuginfoEip
  rw [if_neg (by bv_omega), if_neg (not_not.2 hT.valid), show (T.stabs.length : ℤ) - 1 = T.last from rfl, hfile, ok_bind]
  simp only [if_neg (show ¬ lfile = 0 by omega)]
  exact hok

/-! ## File and function -/

/-- what the attribution of an address adds: no N_SO stab has value 0, and every name lies in the string table -/
structure DebugInfo.Named (T : DebugInfo) : Prop extends T.Sorted where
  so_nonzero : ∀ s ∈ T.stabs, s.hasType N_SO → s.nValue ≠ 0
  strx : ∀ s ∈ T.stabs, s.nStrx.toNat < T.stabstr.length

/-- k is the nearest N_SOL or N_SO stab at or before i, and s is its entry -/
structure DebugInfo.NearestFile (T : DebugInfo) (i k : ℤ) (s : Stab) : Prop where
  le : k ≤ i
  entry : stabAt T.stabs k = .ok s
  type : s.hasType N_SOL ∨ s.hasType N_SO
  nearest : ∀ j t, k < j → j ≤ i → stabAt T.stabs j = .ok t → ¬ (t.hasType N_SOL ∨ t.hasType N_SO)

theorem stabAt_mem {stabs : List Stab} {i : ℤ} {s : Stab} (h : stabAt stabs i = .ok s) : s ∈ stabs := by
  unfold stabAt at h
  split_ifs at h
  split at h
  · rename_i s' hs'
    cases h
    exact List.mem_of_getElem? hs'
  · cases h

theorem strOr_of_lt {T : DebugInfo} {s : Stab} (h : s.nStrx.toNat < T.stabstr.length) (p : CharPtr) :
    T.strOr s p = .stabstr s.nStrx.toNat := by
  simp [DebugInfo.strOr, h]

/-- with no N_SO stab of value 0, the backward scan from a line position inside the file ends at the nearest stab that
names a file -/
theorem scanFile_nearest {T : DebugInfo} {lfile lline k : ℤ} {s0 : Stab} (hz : ∀ s ∈ T.stabs, s.hasType N_SO → s.nValue ≠ 0)
    (hs0 : stabAt T.stabs lfile = .ok s0) (ht0 : s0.hasType N_SO) (hle : lfile ≤ lline)
    (hk : scanFile T.stabs lfile lline = .ok k) : lfile ≤ k ∧ ∃ s, T.NearestFile lline k s := by
  have hname : ∀ s ∈ T.stabs, s.hasType N_SOL ∨ s.hasType N_SO → s.namesFile := fun s hs h =>
    h.imp id (fun ht => ⟨ht, hz s hs ht⟩)
  have hge : lfile ≤ k := scanFile_ge hk le_rfl hle hs0 (hname s0 (stabAt_mem hs0) (Or.inr ht0))
  obtain ⟨s, hs, hf⟩ := scanFile_stop hk hge
  refine ⟨hge, s, scanFile_le hk, hs, hf.imp id And.left, ?_⟩
  intro j t hkj hjl ht htype
  have := scanFile_ge hk (by omega) hjl ht (hname t (stabAt_mem ht) htype)
  omega

/-- **File and function attribution.** On a sorted table, for a kernel address that is the value of no N_SO and no
N_FUN stab and lies in the range of a file and a function, the lookup succeeds: `eip_fn_addr` is the value of the last
N_FUN stab below the address in its file, the name is that stab's string up to the first ':', and `eip_file` is the
string of the nearest N_SOL or N_SO stab at or before the selected line position, not before the file's N_SO. -/
theorem debuginfo_eip_symbols (T : DebugInfo) (hT : T.Named) (addr : Word) (hu : ULIM ≤ addr)
    (ha : T.AvoidsStarts addr) (lfile rfile lfun rfun : ℤ) (hl : T.Locates addr lfile rfile lfun rfun) (f : Stab)
    (hf : stabAt T.stabs lfun = .ok f) :
    ∃ info lline rline k s, debuginfoEip T addr = .ok (0, info) ∧
      info.eipFnAddr = f.nValue ∧ info.eipFnName = .stabstr f.nStrx.toNat ∧
      (T.at info.eipFnName).take info.eipFnNamelen.toNat = (T.string f).takeWhile (· ≠ chr ':') ∧
      info.eipFnNamelen = ((T.string f).takeWhile (· ≠ chr ':')).length ∧
      stabBinsearch T.stabs lfun rfun N_SLINE (addr - f.nValue) = .ok (lline, rline) ∧ lfun ≤ lline ∧ lline ≤ rfun ∧
      T.NearestFile lline k s ∧ lfile ≤ k ∧ info.eipFile = .stabstr s.nStrx.toNat := by
  obtain ⟨h1, info, lline, rline, k, q, hok, hrep, hq⟩ := debuginfoEip_located hT.toSorted hu ha hl hf
  obtain ⟨hge, hle⟩ := lineSearch_mem hl (hq ▸ hrep.line_search)
  have hlf := hl.func.lo_le
  have hfx := hT.strx f (stabAt_mem hf)
  obtain ⟨v, hv, -⟩ := hl.file.below
  obtain ⟨s0, hs0, ht0, -⟩ := keyOf_some hv
  obtain ⟨hlk, s, hnear⟩ := scanFile_nearest hT.so_nonzero hs0 ht0 (by omega) hrep.scan
  have hsx := hT.strx s (stabAt_mem hnear.entry)
  have hname : info.eipFnName = .stabstr f.nStrx.toNat := by
    rw [hrep.fn_name, hq]; exact strOr_of_lt hfx .unknown
  have hlen : info.eipFnNamelen = ((T.string f).takeWhile (· ≠ chr ':')).length := by
    rw [hrep.namelen, ← hrep.fn_name, hname]; rfl
  refine ⟨info, lline, rline, k, s, hok, by rw [hrep.fn_addr, hq], hname, ?_, hlen, by rw [← hrep.line_search, hq], hge,
    hle, hnear, hlk, by rw [hrep.file s hlk hnear.entry, strOr_of_lt hsx]⟩
  -- the name is a prefix of what can be read from the pointer
  have hpre : (T.string f).takeWhile (· ≠ chr ':') <+: T.at info.eipFnName := by
    rw [hname]; exact (List.takeWhile_prefix _).trans (List.takeWhile_prefix _)
  rw [hlen, Int.toNat_natCast]
  exact (List.prefix_iff_eq_take.1 hpre).symm

/-- A small table: file kern/monitor.c at f0100900, function monitor at f01009f8, whose line 143 starts 96 bytes into
it. The return address f0100a62 is monitor+106. -/
def monitorTable : DebugInfo where
  stabs := [⟨1, 0, 0, 3, 27⟩, ⟨1, 0x64, 0, 0, 0xf0100900⟩, ⟨16, 0x24, 0, 0, 0xf01009f8⟩, ⟨0, 0x44, 0, 143, 96⟩]
  stabstr := [0#8] ++ bytes "kern/monitor.c" ++ [0#8] ++ bytes "monitor:F1" ++ [0#8]

theorem monitorTable_sorted : monitorTable.Sorted :=
  ⟨by decide +kernel, by decide +kernel, by decide +kernel, by decide +kernel⟩

theorem monitorTable_locates : monitorTable.Locates 0xf0100a62 1 3 2 3 :=
  ⟨by decide +kernel, by decide +kernel, by decide +kernel, by decide +kernel⟩

theorem monitorTable_symbols : ∃ info lline rline k s, debuginfoEip monitorTable 0xf0100a62 = .ok (0, info) ∧
    info.eipFnAddr = 0xf01009f8 ∧ info.eipFnName = .stabstr 16 ∧
    (monitorTable.at info.eipFnName).take info.eipFnNamelen.toNat =
      (monitorTable.string ⟨16, 0x24, 0, 0, 0xf01009f8⟩).takeWhile (· ≠ chr ':') ∧
    info.eipFnNamelen = ((monitorTable.string ⟨16, 0x24, 0, 0, 0xf01009f8⟩).takeWhile (· ≠ chr ':')).length ∧
    stabBinsearch monitorTable.stabs 2 3 N_SLINE (0xf0100a62 - 0xf01009f8) = .ok (lline, rline) ∧ 2 ≤ lline ∧
    lline ≤ 3 ∧ monitorTable.NearestFile lline k s ∧ 1 ≤ k ∧ info.eipFile = .stabstr s.nStrx.toNat :=
  debuginfo_eip_symbols monitorTable ⟨monitorTable_sorted, by decide +kernel, by decide +kernel⟩ 0xf0100a62 (by decide)
    ⟨by decide +kernel, by decide +kernel⟩ 1 3 2 3 monitorTable_locates ⟨16, 0x24, 0, 0, 0xf01009f8⟩ rfl

/-! ## Line numbers -/

/-- the N_SLINE stabs of each function are in order of their offsets -/
structure DebugInfo.Lined (T : DebugInfo) : Prop extends T.Sorted where
  sline_sorted : OrderedBetween T.StartsRange (keyOf T.stabs N_SLINE) 0 T.last

theorem toInt_eq_desc (v : Word) (d : BitVec 16) : v.toInt = (d.toNat : ℤ) ↔ v.toNat = d.toNat := by
  have := d.isLt
  have := v.isLt
  rw [BitVec.toInt_eq_toNat_cond]
  split_ifs <;> omega

/-- **The stored line.** On a sorted table, for an address inside a function that has an N_SLINE stab at a smaller
offset (no key of a search being equal to an entry), the lookup succeeds and `eip_line` is the `n_value` of the last
such stab: its offset from the function's start. So it is the source line, `n_desc`, exactly when the two agree. -/
theorem debuginfo_eip_line (T : DebugInfo) (hT : T.Lined) (addr : Word) (hu : ULIM ≤ addr) (ha : T.AvoidsStarts addr)
    (lfile rfile lfun rfun : ℤ) (hl : T.Locates addr lfile rfile lfun rfun) (f : Stab)
    (hf : stabAt T.stabs lfun = .ok f) (hav : Avoids (keyOf T.stabs N_SLINE) (addr - f.nValue).toNat lfun rfun) (i : ℤ)
    (hi : LastBelow (keyOf T.stabs N_SLINE) (addr - f.nValue).toNat lfun rfun i) (s : Stab)
    (hs : stabAt T.stabs i = .ok s) :
    ∃ info, debuginfoEip T addr = .ok (0, info) ∧ info.eipLine = s.nValue.toInt ∧
      (info.eipLine = s.nDesc.toNat ↔ s.nValue.toNat = s.nDesc.toNat) := by
  obtain ⟨h1, info, lline, rline, k, q, hok, hrep, hq⟩ := debuginfoEip_located hT.toSorted hu ha hl hf
  have hfun := hl.func.lo_le
  have hrf := hl.func_range.le_hi
  have hN := hl.file_range.le_hi
  have hord : Ordered (keyOf T.stabs N_SLINE) lfun rfun := by
    apply hT.sline_sorted.ordered (by omega) (by omega)
    intro j hj1 hj2 hsep
    rcases hsep with h | h
    · exact h (hl.file_range.free j (by omega) (by omega))
    · exact h (hl.func_range.free j (by omega) hj2)
  unfold DebugInfo.last at hN
  obtain ⟨r, hr, hseg, -⟩ := stabBinsearch_between (show 0 ≤ lfun by omega) (show rfun < T.stabs.length by omega) hord hav hi
  have hline := hrep.line_search
  rw [hq] at hline
  simp only at hline
  rw [hr] at hline
  cases hline
  have hval := hrep.line s hseg.le hs
  exact ⟨info, hok, hval, by rw [hval]; exact toInt_eq_desc s.nValue s.nDesc⟩

theorem monitorTable_lined : monitorTable.Lined := ⟨monitorTable_sorted, by decide +kernel⟩

theorem monitorTable_line : ∃ info, debuginfoEip monitorTable 0xf0100a62 = .ok (0, info) ∧
    info.eipLine = (96 : Word).toInt ∧ (info.eipLine = (143 : BitVec 16).toNat ↔ (96 : Word).toNat = (143 : BitVec 16).toNat) :=
  debuginfo_eip_line monitorTable monitorTable_lined 0xf0100a62 (by decide) ⟨by decide +kernel, by decide +kernel⟩ 1 3 2 3
    monitorTable_locates ⟨16, 0x24, 0, 0, 0xf01009f8⟩ rfl (by decide +kernel) 3 (by decide +kernel) ⟨0, 0x44, 0, 143, 96⟩ rfl

/-- **The offset is reported as the line.** On `monitorTable`, whose N_SLINE stab for monitor+106 says line 143, the
lookup stores 96. -/
theorem debuginfo_eip_offset_as_line :
    monitorTable.Lined ∧ monitorTable.AvoidsStarts 0xf0100a62 ∧ monitorTable.Locates 0xf0100a62 1 3 2 3 ∧
      stabAt monitorTable.stabs 2 = .ok ⟨16, 0x24, 0, 0, 0xf01009f8⟩ ∧
      Avoids (keyOf monitorTable.stabs N_SLINE) (0xf0100a62 - 0xf01009f8 : Word).toNat 2 3 ∧
      LastBelow (keyOf monitorTable.stabs N_SLINE) (0xf0100a62 - 0xf01009f8 : Word).toNat 2 3 3 ∧
      stabAt monitorTable.stabs 3 = .ok ⟨0, 0x44, 0, 143, 96⟩ ∧
      debuginfoEip monitorTable 0xf0100a62 = .ok (0, ⟨.stabstr 1, 96, .stabstr 16, 7, 0xf01009f8, 0⟩) ∧
      (96 : ℤ) ≠ (143 : BitVec 16).toNat :=
  ⟨monitorTable_lined, ⟨by decide +kernel, by decide +kernel⟩, monitorTable_locates, rfl, by decide +kernel,
    by decide +kernel, rfl, by decide +kernel, by decide⟩

end Jos.Kdebug
