/-
Kernel debugger lookup (kern/kdebug.c): the stab table, `stab_binsearch` and `debuginfo_eip`.

The tables are the two linker sections: the list of stabs and the bytes of the string table. A read outside either of
them is a `Fault`, and so is the panic on a user address, so a result `.ok` says that the lookup stayed inside the
tables. Indices are mathematical integers: a table of N stabs occupies 12 N bytes of a 32-bit address space, so l + r
stays far below 2^31. Addresses are 32-bit words and `addr++` wraps.

- `scanDown`: both backward scans of `stab_binsearch` (for the probed entry, and for the region's left end).
- `searchStep`, `searchLoop`, `stabBinsearch`: the binary search.
- `scanFile`, `countPsym`, `debuginfoEip`: the lookup.
-/
import Jos.Core.Fallible
import Jos.Lib.Strings

namespace Jos.Kdebug

/-! ## Data -/

/-- `struct Stab` of inc/stab.h -/
structure Stab where
  nStrx : Word
  nType : BitVec 8
  nOther : BitVec 8
  nDesc : BitVec 16
  nValue : Word
deriving DecidableEq, Repr

def N_FUN : ℤ := 0x24
def N_SLINE : ℤ := 0x44
def N_SO : ℤ := 0x64
def N_SOL : ℤ := 0x84
def N_PSYM : ℤ := 0xa0

/-- first address the kernel's tables are used for (inc/memlayout.h) -/
def ULIM : Word := 0xef800000

/-- the sections between `__STAB_BEGIN__` and `__STAB_END__`, and between `__STABSTR_BEGIN__` and `__STABSTR_END__` -/
structure DebugInfo where
  stabs : List Stab
  stabstr : List Byte
deriving DecidableEq, Repr

/-- the `const char *` values that `struct Eipdebuginfo` can hold -/
inductive CharPtr where
  /-- the constant "<unknown>" -/
  | unknown
  /-- `stabstr + off` -/
  | stabstr (off : ℕ)
deriving DecidableEq, Repr

structure Eipdebuginfo where
  eipFile : CharPtr
  eipLine : ℤ
  eipFnName : CharPtr
  eipFnNamelen : ℤ
  eipFnAddr : Word
  eipFnNarg : ℤ
deriving DecidableEq, Repr

inductive Fault where
  /-- a read of `stabs[i]` outside the table -/
  | stab (i : ℤ)
  /-- a read past the end of the string that starts at p -/
  | str (p : CharPtr)
  | panic (msg : String)
deriving DecidableEq, Repr

/-- the bytes that can be read from p on -/
def DebugInfo.at (T : DebugInfo) : CharPtr → List Byte
  | .unknown => bytes "<unknown>" ++ [0#8]
  | .stabstr off => T.stabstr.drop off

/-- `stabs[i]` -/
def stabAt (stabs : List Stab) (i : ℤ) : Except Fault Stab :=
  if i < 0 then .error (.stab i)
  else match stabs[i.toNat]? with
    | some s => .ok s
    | none => .error (.stab i)

/-- the entry has the searched type (`n_type` is promoted to int) -/
def Stab.hasType (s : Stab) (type : ℤ) : Prop := (s.nType.toNat : ℤ) = type

instance (s : Stab) (type : ℤ) : Decidable (s.hasType type) := inferInstanceAs (Decidable (_ = _))

/-! ## stab_binsearch -/

/-- `while (m >= l && stabs[m].n_type != type) m--;` returns the final m -/
def scanDown (stabs : List Stab) (type l m : ℤ) : Except Fault ℤ :=
  if l ≤ m then
    match stabAt stabs m with
    | .error e => .error e
    | .ok s => if s.hasType type then .ok m else scanDown stabs type l (m - 1)
  else .ok m
termination_by (m - l + 1).toNat

/-- the locals and the two in/out parameters of `stab_binsearch` -/
structure Search where
  l : ℤ
  r : ℤ
  regionLeft : ℤ
  regionRight : ℤ
  anyMatches : Bool
  addr : Word
deriving DecidableEq, Repr

/-- true_m -/
def Search.mid (s : Search) : ℤ := (s.l + s.r).tdiv 2

/-- the body of `while (l <= r)` -/
def searchStep (stabs : List Stab) (type : ℤ) (s : Search) : Except Fault Search := do
  let m ← scanDown stabs type s.l s.mid
  if m < s.l then
    return { s with l := s.mid + 1 }
  let e ← stabAt stabs m
  if e.nValue < s.addr then
    return { s with anyMatches := true, regionLeft := m, l := s.mid + 1 }
  else if s.addr < e.nValue then
    return { s with anyMatches := true, regionRight := m - 1, r := m - 1 }
  else
    -- exact match: go on for the right end of the region with the next address
    return { s with anyMatches := true, regionLeft := m, l := m, addr := s.addr + 1 }

/-- the next probe of s hits an entry whose value is exactly the searched address -/
def exactNext (stabs : List Stab) (type : ℤ) (s : Search) : Bool :=
  match scanDown stabs type s.l s.mid with
  | .error _ => false
  | .ok m => decide (s.l ≤ m) && match stabAt stabs m with
    | .error _ => false
    | .ok e => decide (e.nValue = s.addr)

/-- An exact match at m = l leaves the interval alone, but the probe after it cannot be exact again: the address has
moved on. Every other iteration shrinks the interval. -/
def searchMeasure (stabs : List Stab) (type : ℤ) (s : Search) : ℕ :=
  2 * (s.r - s.l + 1).toNat + if exactNext stabs type s then 1 else 0

theorem mid_mem (s : Search) (h : s.l ≤ s.r) : s.l ≤ s.mid ∧ s.mid ≤ s.r := by
  unfold Search.mid
  rcases le_or_gt 0 (s.l + s.r) with h0 | h0
  · rw [Int.tdiv_eq_ediv_of_nonneg h0]; omega
  · rw [show s.l + s.r = -(-(s.l + s.r)) by ring, Int.neg_tdiv, Int.tdiv_eq_ediv_of_nonneg (by omega)]; omega

/-- the probe stays between l - 1 and its starting point -/
theorem scanDown_mem {stabs : List Stab} {type l m p : ℤ} (h : scanDown stabs type l m = .ok p) (hm : l - 1 ≤ m) :
    l - 1 ≤ p ∧ p ≤ m := by
  fun_induction scanDown stabs type l m with
  | case1 m hl e he => cases h
  | case2 m hl s hs ht => cases h; omega
  | case3 m hl s hs ht ih => have := ih h (by omega); omega
  | case4 m hl => cases h; omega

/-- **What one iteration does.** It probes the last entry m of the type in [l, mid]: none there (skip), its value
below the address (less), above it (greater) or equal to it (exact). -/
theorem searchStep_cases {stabs : List Stab} {type : ℤ} {s s' : Search} (h : searchStep stabs type s = .ok s')
    (hlr : s.l ≤ s.r) :
    ∃ m, scanDown stabs type s.l s.mid = .ok m ∧ s.l - 1 ≤ m ∧ m ≤ s.mid ∧
      ((m < s.l ∧ s' = { s with l := s.mid + 1 }) ∨
        ∃ e, s.l ≤ m ∧ stabAt stabs m = .ok e ∧
          ((e.nValue < s.addr ∧ s' = { s with anyMatches := true, regionLeft := m, l := s.mid + 1 }) ∨
            (s.addr < e.nValue ∧ s' = { s with anyMatches := true, regionRight := m - 1, r := m - 1 }) ∨
            (e.nValue = s.addr ∧
              s' = { s with anyMatches := true, regionLeft := m, l := m, addr := s.addr + 1 }))) := by
  obtain ⟨m, hm, h⟩ := bind_ok h
  have hmem := scanDown_mem hm (by have := mid_mem s hlr; omega)
  refine ⟨m, hm, hmem.1, hmem.2, ?_⟩
  split_ifs at h with hlt
  · cases h; exact Or.inl ⟨hlt, rfl⟩
  · obtain ⟨e, he, h⟩ := bind_ok h
    refine Or.inr ⟨e, by omega, he, ?_⟩
    split_ifs at h with h1 h2
    · cases h; exact Or.inl ⟨h1, rfl⟩
    · cases h; exact Or.inr (Or.inl ⟨h2, rfl⟩)
    · cases h; exact Or.inr (Or.inr ⟨by bv_omega, rfl⟩)

theorem searchStep_measure {stabs : List Stab} {type : ℤ} {s s' : Search} (h : searchStep stabs type s = .ok s')
    (hlr : s.l ≤ s.r) : searchMeasure stabs type s' < searchMeasure stabs type s := by
  have hmid := mid_mem s hlr
  obtain ⟨m, hm, h1, h2, hcase⟩ := searchStep_cases h hlr
  unfold searchMeasure
  rcases hcase with ⟨hlt, rfl⟩ | ⟨e, hl, he, ⟨hv, rfl⟩ | ⟨hv, rfl⟩ | ⟨hv, rfl⟩⟩
  · simp only; split <;> split <;> omega
  · simp only; split <;> split <;> omega
  · simp only; split <;> split <;> omega
  · have hex : exactNext stabs type s = true := by simp [exactNext, hm, he, hl, hv]
    rw [if_pos hex]
    rcases eq_or_lt_of_le hl with heq | hlt
    · -- same interval, so the same probe; its value is now one short of the address
      have hne : exactNext stabs type { s with anyMatches := true, regionLeft := m, l := m, addr := s.addr + 1 }
          = false := by
        rw [← heq]
        have hm' : scanDown stabs type s.l
            ({ s with anyMatches := true, regionLeft := s.l, l := s.l, addr := s.addr + 1 } : Search).mid = .ok m := hm
        have hva : ¬ s.addr = s.addr + 1 := by bv_omega
        simp only [exactNext, hm', he, hv, hva, decide_false, Bool.and_false]
      rw [hne]; simp only [Bool.false_eq_true, if_false]; omega
    · simp only; split <;> omega

/-- `while (l <= r)` -/
def searchLoop (stabs : List Stab) (type : ℤ) (s : Search) : Except Fault Search :=
  if _hlr : s.l ≤ s.r then
    match _h : searchStep stabs type s with
    | .error e => .error e
    | .ok s' => searchLoop stabs type s'
  else .ok s
termination_by searchMeasure stabs type s
decreasing_by exact searchStep_measure _h _hlr

/-- `stab_binsearch(stabs, &left, &right, type, addr)`: the final left and right -/
def stabBinsearch (stabs : List Stab) (left right type : ℤ) (addr : Word) : Except Fault (ℤ × ℤ) := do
  let s ← searchLoop stabs type ⟨left, right, left, right, false, addr⟩
  if s.anyMatches then
    -- `for (l = *region_right; l > *region_left && stabs[l].n_type != type; l--)`
    let l ← scanDown stabs type (s.regionLeft + 1) s.regionRight
    return (l, s.regionRight)
  else
    return (s.regionLeft, s.regionLeft - 1)

/-! ## debuginfo_eip -/

/-- `stabstr_end <= stabstr || stabstr_end[-1] != 0` fails -/
def DebugInfo.stabstrValid (T : DebugInfo) : Prop := T.stabstr.getLast? = some 0#8

instance (T : DebugInfo) : Decidable T.stabstrValid := inferInstanceAs (Decidable (_ = _))

/-- `if (s.n_strx < stabstr_end - stabstr) p = stabstr + s.n_strx` -/
def DebugInfo.strOr (T : DebugInfo) (s : Stab) (p : CharPtr) : CharPtr :=
  if s.nStrx.toNat < T.stabstr.length then .stabstr s.nStrx.toNat else p

/-- `*info` as initialised at entry -/
def Eipdebuginfo.init (addr : Word) : Eipdebuginfo := ⟨.unknown, 0, .unknown, 9, addr, 0⟩

/-- what the function search leaves for the line search: `*info`, the address to look up and the range -/
structure LineQuery where
  info : Eipdebuginfo
  addr : Word
  lline : ℤ
  rline : ℤ
deriving DecidableEq, Repr

/-- `if (lfun <= rfun) ... else ...` after the function search -/
def funStab (T : DebugInfo) (info : Eipdebuginfo) (addr : Word) (lfile rfile lfun rfun : ℤ) :
    Except Fault LineQuery := do
  if lfun ≤ rfun then
    let s ← stabAt T.stabs lfun
    return ⟨{ info with eipFnName := T.strOr s info.eipFnName, eipFnAddr := s.nValue }, addr - s.nValue, lfun, rfun⟩
  else
    return ⟨{ info with eipFnAddr := addr }, addr, lfile, rfile⟩

/-- `info->eip_fn_namelen = strfind(info->eip_fn_name, ':') - info->eip_fn_name` -/
def fnNamelen (T : DebugInfo) (info : Eipdebuginfo) : Except Fault Eipdebuginfo :=
  match strfind (T.at info.eipFnName) (chr ':') with
  | some k => .ok { info with eipFnNamelen := k }
  | none => .error (.str info.eipFnName)

/-- `info->eip_line` after the line search: the uintptr_t `n_value` converted to int -/
def lineStab (T : DebugInfo) (info : Eipdebuginfo) (lline rline : ℤ) : Except Fault Eipdebuginfo := do
  if lline ≤ rline then
    let s ← stabAt T.stabs lline
    return { info with eipLine := s.nValue.toInt }
  else
    return info

/-- a stab that names a source file: N_SOL, or N_SO with a value -/
def Stab.namesFile (s : Stab) : Prop := s.hasType N_SOL ∨ (s.hasType N_SO ∧ s.nValue ≠ 0)

instance (s : Stab) : Decidable s.namesFile := inferInstanceAs (Decidable (_ ∨ _))

/-- the backward scan for the file name, from lline down to lfile; returns the final lline -/
def scanFile (stabs : List Stab) (lfile lline : ℤ) : Except Fault ℤ :=
  if lfile ≤ lline then
    match stabAt stabs lline with
    | .error e => .error e
    | .ok s => if s.namesFile then .ok lline else scanFile stabs lfile (lline - 1)
  else .ok lline
termination_by (lline - lfile + 1).toNat

/-- `if (lline >= lfile && stabs[lline].n_strx < ...) info->eip_file = ...` -/
def fileStab (T : DebugInfo) (info : Eipdebuginfo) (lfile lline : ℤ) : Except Fault Eipdebuginfo := do
  if lfile ≤ lline then
    let s ← stabAt T.stabs lline
    return { info with eipFile := T.strOr s info.eipFile }
  else
    return info

/-- the loop over the parameter stabs: `lline < rfun && stabs[lline].n_type == N_PSYM` -/
def countPsym (stabs : List Stab) (rfun lline narg : ℤ) : Except Fault ℤ :=
  if lline < rfun then
    match stabAt stabs lline with
    | .error e => .error e
    | .ok s => if s.hasType N_PSYM then countPsym stabs rfun (lline + 1) (narg + 1) else .ok narg
  else .ok narg
termination_by (rfun - lline).toNat

/-- `eip_fn_narg`: the count starts at lfun + 1 -/
def fnNarg (T : DebugInfo) (info : Eipdebuginfo) (lfun rfun : ℤ) : Except Fault Eipdebuginfo := do
  if lfun < rfun then
    let n ← countPsym T.stabs rfun (lfun + 1) info.eipFnNarg
    return { info with eipFnNarg := n }
  else
    return info

/-- the part of `debuginfo_eip` after the file search succeeded with [lfile, rfile] -/
def debuginfoFile (T : DebugInfo) (addr : Word) (lfile rfile : ℤ) : Except Fault (ℤ × Eipdebuginfo) := do
  let (lfun, rfun) ← stabBinsearch T.stabs lfile rfile N_FUN addr
  let q ← funStab T (Eipdebuginfo.init addr) addr lfile rfile lfun rfun
  let info ← fnNamelen T q.info
  let (lline, rline) ← stabBinsearch T.stabs q.lline q.rline N_SLINE q.addr
  let info ← lineStab T info lline rline
  let lline ← scanFile T.stabs lfile lline
  let info ← fileStab T info lfile lline
  let info ← fnNarg T info lfun rfun
  return (0, info)

/-- `debuginfo_eip(addr, info)`: the return value and the final `*info` -/
def debuginfoEip (T : DebugInfo) (addr : Word) : Except Fault (ℤ × Eipdebuginfo) := do
  if addr < ULIM then
    throw (.panic "User address")
  else if ¬ T.stabstrValid then
    return (-1, Eipdebuginfo.init addr)
  else
    let (lfile, rfile) ← stabBinsearch T.stabs 0 (T.stabs.length - 1) N_SO addr
    if lfile = 0 then
      return (-1, Eipdebuginfo.init addr)
    else
      debuginfoFile T addr lfile rfile

end Jos.Kdebug
