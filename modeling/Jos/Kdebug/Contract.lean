/-
The contract of `stab_binsearch`: it brackets the address between the last entry that contains it and the next one, or
says that there is none.

- `stab_binsearch_between`: an address between two entries is bracketed.
- `stab_binsearch_exact_iff`: an address that is an entry's own is bracketed unless the search goes on to match its
  successors too. Witness that it can: `stab_binsearch_successor`.
- `stab_binsearch_exact`: so it is bracketed on any table in which no entry has the next address.
- `stab_binsearch_miss_iff`: a miss is reported for a region without entries of the type; where all of them are above
  the address it is not. Witness: `stab_binsearch_false_hit`.
-/
import Jos.Kdebug.Exact

namespace Jos.Kdebug

open Jos.Bracket

/-! ## An address between two entries -/

/-- **In between.** On a sorted region, for an address that no entry has but that exceeds one, the search returns the
last entry below the address, and the index before the first entry above it. -/
theorem stab_binsearch_between (stabs : List Stab) (L R type : ℤ) (addr : Word) (h0 : 0 ≤ L)
    (hN : R < stabs.length) (ho : Ordered (keyOf stabs type) L R) (ha : Avoids (keyOf stabs type) addr.toNat L R)
    (hb : (Where (keyOf stabs type) L R (· < addr.toNat)).Nonempty) :
    ∃ left right, stabBinsearch stabs L R type addr = .ok (left, right) ∧
      IsGreatest (Where (keyOf stabs type) L R (· < addr.toNat)) left ∧
      JustBefore (Where (keyOf stabs type) L R (addr.toNat < ·)) R right := by
  obtain ⟨g, hg⟩ := exists_isGreatest hb
  obtain ⟨right, hok, hseg, hend⟩ := stabBinsearch_between h0 hN ho ha (lastBelow_of_isGreatest hg)
  have hle := hseg.le
  obtain ⟨hgL, hgR, v, hv, hva⟩ := hg.1
  refine ⟨g, right, hok, hg, hend.justBefore (by omega) ?_⟩
  intro i w h1 h2 hw
  by_cases hig : i ≤ g
  · exact (ho i g w v h1 hig hgR hw hv).trans (le_of_lt hva)
  · rw [hseg.free i (by omega) h2] at hw; cases hw

/-- the functions of the witnesses -/
def twoFunctions : List Stab := [⟨1, 0x24, 0, 0, 0xf0100040⟩, ⟨9, 0x24, 0, 0, 0xf0100176⟩]

theorem stab_binsearch_between_functions :
    ∃ left right, stabBinsearch twoFunctions 0 1 N_FUN 0xf0100100 = .ok (left, right) ∧
      IsGreatest (Where (keyOf twoFunctions N_FUN) 0 1 (· < (0xf0100100 : Word).toNat)) left ∧
      JustBefore (Where (keyOf twoFunctions N_FUN) 0 1 ((0xf0100100 : Word).toNat < ·)) 1 right :=
  stab_binsearch_between twoFunctions 0 1 N_FUN 0xf0100100 (by decide) (by decide) (by decide +kernel)
    (by decide +kernel) ⟨0, by decide, by decide, (0xf0100040 : Word).toNat, by decide +kernel, by decide⟩

/-! ## An address that entries have -/

/-- the state in which the search first meets an entry of the address -/
def firstHit (stabs : List Stab) (type L R : ℤ) (addr : Word) : Search :=
  toExact stabs type ⟨L, R, L, R, false, addr⟩

/-- the state in which it then first meets an entry of the next address -/
def secondHit (stabs : List Stab) (type L R : ℤ) (addr : Word) : Search :=
  toExact stabs type (hit stabs type (firstHit stabs type L R addr))

/-- bisection for the address meets it while no entry of the next address is left in the interval -/
def OneHit (stabs : List Stab) (type L R : ℤ) (addr : Word) : Prop :=
  addr ≠ 0xffffffff ∧ ∀ i, (firstHit stabs type L R addr).l ≤ i → i ≤ (firstHit stabs type L R addr).r →
    keyOf stabs type i ≠ some (addr.toNat + 1)

/-- the address is not the largest, and no entry of the region has the next one -/
def NoNext (stabs : List Stab) (type L R : ℤ) (addr : Word) : Prop :=
  addr ≠ 0xffffffff ∧ ∀ i, L ≤ i → i ≤ R → keyOf stabs type i ≠ some (addr.toNat + 1)

section Present

variable {stabs : List Stab} {type L R : ℤ} {addr : Word}

theorem firstHit_spec (h0 : 0 ≤ L) (hN : R < stabs.length) (ho : Ordered (keyOf stabs type) L R) {i : ℤ} (hLi : L ≤ i)
    (hiR : i ≤ R) (hi : keyOf stabs type i = some addr.toNat) :
    Between stabs type L R addr (firstHit stabs type L R addr) ∧
      Reaches stabs type ⟨L, R, L, R, false, addr⟩ (firstHit stabs type L R addr) ∧
      (firstHit stabs type L R addr).l ≤ (firstHit stabs type L R addr).r ∧
      exactNext stabs type (firstHit stabs type L R addr) = true := by
  obtain ⟨hb, hreach, hcase⟩ := toExact_rule (Between stabs type L R addr)
    (fun s h => searchStep_ok h0 hN s h.toInRegion) (fun s s' h hlr hx hs => between_move ho h hlr hx hs) _
    (between_init stabs type addr (hLi.trans hiR))
  refine ⟨hb, hreach, ?_⟩
  rcases hcase with h | h
  · exact h
  · -- entry i would be decided
    rcases lt_or_ge i (firstHit stabs type L R addr).l with hil | hil
    · exact absurd (hb.below i _ hLi hil hi) (lt_irrefl _)
    · exact absurd (hb.region_end.above i _ (lt_of_lt_of_le h hil) hiR hi) (lt_irrefl _)

/-- without an entry of the next address there is one match, whatever way the bisection goes -/
theorem NoNext.oneHit (h : NoNext stabs type L R addr) (h0 : 0 ≤ L) (hN : R < stabs.length)
    (ho : Ordered (keyOf stabs type) L R) {i : ℤ} (hLi : L ≤ i) (hiR : i ≤ R)
    (hi : keyOf stabs type i = some addr.toNat) : OneHit stabs type L R addr := by
  obtain ⟨hb, -, -, -⟩ := firstHit_spec h0 hN ho hLi hiR hi
  exact ⟨h.1, fun j h1 h2 => h.2 j (hb.l_ge.trans h1) (h2.trans hb.r_le)⟩

/-- behind the first match, the search goes on for the next address -/
theorem firstHit_past (h0 : 0 ≤ L) (hN : R < stabs.length) (ho : Ordered (keyOf stabs type) L R) {i : ℤ} (hLi : L ≤ i)
    (hiR : i ≤ R) (hi : keyOf stabs type i = some addr.toNat) (hm : addr ≠ 0xffffffff) :
    Past stabs type L R addr (hit stabs type (firstHit stabs type L R addr)) ∧
      (hit stabs type (firstHit stabs type L R addr)).addr.toNat = addr.toNat + 1 ∧
      stabBinsearch stabs L R type addr = resultFrom stabs type (hit stabs type (firstHit stabs type L R addr)) := by
  obtain ⟨hb, hreach, hlr, hx⟩ := firstHit_spec h0 hN ho hLi hiR hi
  obtain ⟨hs, -, -, -⟩ := step_exact hlr hx
  have haddr := hb.addr_eq
  refine ⟨past_hit ho hb.toInRegion hb.region_end (le_of_eq (by rw [haddr])) hlr hx (by rw [haddr]; exact hm), ?_, ?_⟩
  · rw [hit, haddr]
    exact toNat_succ hm
  · have hnext : Reaches stabs type ⟨L, R, L, R, false, addr⟩ (hit stabs type (firstHit stabs type L R addr)) :=
      hreach.tail ⟨hlr, hs⟩
    rw [stabBinsearch_eq, hnext.result]

/-- **One match**: the result is right. -/
theorem one_hit_result (h0 : 0 ≤ L) (hN : R < stabs.length) (ho : Ordered (keyOf stabs type) L R) {i : ℤ} (hLi : L ≤ i)
    (hiR : i ≤ R) (hi : keyOf stabs type i = some addr.toNat) (hone : OneHit stabs type L R addr) :
    ∃ left right, stabBinsearch stabs L R type addr = .ok (left, right) ∧ left ≤ right ∧
      IsGreatest (Where (keyOf stabs type) L R (· = addr.toNat)) left ∧
      JustBefore (Where (keyOf stabs type) L R (addr.toNat < ·)) R right := by
  obtain ⟨hm, hquiet⟩ := hone
  obtain ⟨hb, -, hlr, hx⟩ := firstHit_spec h0 hN ho hLi hiR hi
  obtain ⟨-, -, hp1, -⟩ := step_exact hlr hx
  obtain ⟨hp, haddr, hres⟩ := firstHit_past h0 hN ho hLi hiR hi hm
  obtain ⟨left, right, hok, hkey, hleft, hle, hfree, hend⟩ := past_quiet h0 hN ho hp haddr
    (fun j h1 h2 => by rw [haddr]; exact hquiet j (hp1.trans h1) h2)
  have hrR := hend.le_hi
  refine ⟨left, right, hres.trans hok, hle, ⟨⟨hleft, by omega, _, hkey, rfl⟩, ?_⟩, hend.justBefore (by omega) ?_⟩
  · rintro j ⟨-, hjR, v, hv, rfl⟩
    by_contra hc
    by_cases hjr : j ≤ right
    · rw [hfree j (by omega) hjr] at hv; cases hv
    · exact absurd (hend.above j _ (by omega) hjR hv) (lt_irrefl _)
  · intro j v h1 h2 hv
    by_cases hjl : j ≤ left
    · exact ho j left v _ h1 hjl (by omega) hv hkey
    · rw [hfree j (by omega) h2] at hv; cases hv

/-- **The largest address** wraps around at its first match. -/
theorem wrap_result (h0 : 0 ≤ L) (hN : R < stabs.length) (ho : Ordered (keyOf stabs type) L R) {i : ℤ} (hLi : L ≤ i)
    (hiR : i ≤ R) (hi : keyOf stabs type i = some addr.toNat) (hm : addr = 0xffffffff) :
    stabBinsearch stabs L R type addr =
        .ok (probe stabs type (firstHit stabs type L R addr) - 1, probe stabs type (firstHit stabs type L R addr) - 1) ∧
      keyOf stabs type (probe stabs type (firstHit stabs type L R addr)) = some addr.toNat ∧
      L ≤ probe stabs type (firstHit stabs type L R addr) ∧ probe stabs type (firstHit stabs type L R addr) ≤ R := by
  obtain ⟨hb, hreach, hlr, hx⟩ := firstHit_spec h0 hN ho hLi hiR hi
  obtain ⟨-, hkey, hp1, hp2⟩ := step_exact hlr hx
  have haddr := hb.addr_eq
  have hl := hb.l_ge
  have hr := hb.r_le
  have hmid := mid_mem _ hlr
  refine ⟨?_, by rw [hkey, haddr], by omega, by omega⟩
  rw [stabBinsearch_eq, hreach.result]
  exact wrapped_result h0 hN ho hb.toInRegion hlr hx (haddr.trans hm)

/-- behind a match, on the way to the entry j of the searched address b -/
structure Chasing (stabs : List Stab) (type L R : ℤ) (a b : Word) (j : ℤ) (s : Search) : Prop
    extends Past stabs type L R a s where
  addr_eq : s.addr = b
  entry_le : j ≤ s.r

theorem chasing_move (ho : Ordered (keyOf stabs type) L R) {b : Word} {j : ℤ} (hLj : L ≤ j)
    (hj : keyOf stabs type j = some b.toNat) {s s' : Search} (h : Chasing stabs type L R addr b j s) (hlr : s.l ≤ s.r)
    (hx : exactNext stabs type s = false) (hs : searchStep stabs type s = .ok s') :
    Chasing stabs type L R addr b j s' := by
  obtain ⟨hp, haddr, -, hkeep⟩ := past_move ho h.toPast hlr hx hs
  refine ⟨hp, haddr.trans h.addr_eq, hkeep j hLj h.entry_le ?_⟩
  rw [h.addr_eq]
  exact hj

/-- a search that is not confined to one match meets an entry of the next address -/
theorem secondHit_spec (h0 : 0 ≤ L) (hN : R < stabs.length) (ho : Ordered (keyOf stabs type) L R) {i : ℤ} (hLi : L ≤ i)
    (hiR : i ≤ R) (hi : keyOf stabs type i = some addr.toNat) (hm : addr ≠ 0xffffffff)
    (hone : ¬ OneHit stabs type L R addr) :
    Past stabs type L R addr (secondHit stabs type L R addr) ∧
      (secondHit stabs type L R addr).addr = addr + 1 ∧
      (secondHit stabs type L R addr).l ≤ (secondHit stabs type L R addr).r ∧
      exactNext stabs type (secondHit stabs type L R addr) = true ∧
      stabBinsearch stabs L R type addr = resultFrom stabs type (secondHit stabs type L R addr) := by
  obtain ⟨hp, haddr, hres⟩ := firstHit_past h0 hN ho hLi hiR hi hm
  obtain ⟨hb, -, hlr, hx⟩ := firstHit_spec h0 hN ho hLi hiR hi
  obtain ⟨-, hkey, hp1, hp2⟩ := step_exact hlr hx
  have hr := hb.r_le
  have hl := hb.l_ge
  have hmid := mid_mem _ hlr
  rw [hb.addr_eq] at hkey
  -- the entry of the next address that is left in the interval
  obtain ⟨j, hj1, hj2, hj⟩ : ∃ j, (firstHit stabs type L R addr).l ≤ j ∧ j ≤ (firstHit stabs type L R addr).r ∧
      keyOf stabs type j = some (addr.toNat + 1) := by
    by_contra hno
    exact hone ⟨hm, fun j h1 h2 h => hno ⟨j, h1, h2, h⟩⟩
  have hjp : probe stabs type (firstHit stabs type L R addr) ≤ j := by
    by_contra hc
    have := ho j _ _ _ (by omega) (le_of_lt (not_le.1 hc)) (by omega) hj hkey
    omega
  rw [← toNat_succ hm] at hj
  obtain ⟨hq, hreach, hcase⟩ := toExact_rule (Chasing stabs type L R addr (addr + 1) j)
    (fun s h => searchStep_ok h0 hN s h.toInRegion) (fun s s' h hlr hx hs => chasing_move ho (by omega) hj h hlr hx hs) _
    ⟨hp, by rw [hit, hb.addr_eq], hj2⟩
  refine ⟨hq.toPast, hq.addr_eq, ?_⟩
  rcases hcase with h | h
  · exact ⟨h.1, h.2, hres.trans hreach.result⟩
  · have hjr := hq.entry_le
    have hlt := hq.below j _ (by omega) (by omega) hj
    rw [hq.addr_eq] at hlt
    exact absurd hlt (lt_irrefl _)

/-- **A second match.** The search goes on past the entries of the address, or turns back in front of a match of
0xffffffff. -/
theorem second_hit_result (h0 : 0 ≤ L) (hN : R < stabs.length) (ho : Ordered (keyOf stabs type) L R) {i : ℤ}
    (hLi : L ≤ i) (hiR : i ≤ R) (hi : keyOf stabs type i = some addr.toNat) (hm : addr ≠ 0xffffffff)
    (hone : ¬ OneHit stabs type L R addr) :
    ∃ m, m = probe stabs type (secondHit stabs type L R addr) ∧ keyOf stabs type m = some (addr.toNat + 1) ∧ m ≤ R ∧
      (∃ g, L ≤ g ∧ g < m ∧ keyOf stabs type g = some addr.toNat) ∧
      (addr = 0xfffffffe → stabBinsearch stabs L R type addr = .ok (m - 1, m - 1)) ∧
      (addr ≠ 0xfffffffe →
        ∃ left right, stabBinsearch stabs L R type addr = .ok (left, right) ∧ left ≤ right ∧ m ≤ left) := by
  obtain ⟨hp, haddr, hlr, hx, hres⟩ := secondHit_spec h0 hN ho hLi hiR hi hm hone
  obtain ⟨-, hkey, hp1, hp2⟩ := step_exact hlr hx
  have hmid := mid_mem _ hlr
  have hr := hp.r_le
  have hgL := hp.left_ge
  have hgl := hp.left_l
  have hleft := hp.left
  rw [haddr, toNat_succ hm] at hkey hleft
  rw [Nat.add_sub_cancel] at hleft
  refine ⟨_, rfl, hkey, by omega, ⟨_, hgL, ?_, hleft⟩, fun htop => ?_, fun htop => ?_⟩
  · -- the two matches have different addresses
    apply lt_of_le_of_ne (hgl.trans hp1)
    intro heq
    rw [heq, hkey] at hleft
    have := Option.some.inj hleft
    omega
  · rw [hres]
    exact wrapped_result h0 hN ho hp.toInRegion hlr hx (by rw [haddr, htop]; rfl)
  · have hp' := past_hit ho hp.toInRegion hp.region_end (le_of_lt hp.above_a) hlr hx (by rw [haddr]; bv_omega)
    obtain ⟨left, right, hok, h1, h2, -⟩ := past_result h0 hN ho hp'
    have hnext : Reaches stabs type (secondHit stabs type L R addr) (hit stabs type (secondHit stabs type L R addr)) :=
      .single ⟨hlr, (step_exact hlr hx).1⟩
    exact ⟨left, right, (hres.trans hnext.result).trans hok, h2, h1⟩

end Present

/-- at the top of the address space the search can turn back to the right entry: in front of its match of 0xffffffff -/
def TurnsBack (stabs : List Stab) (type L R : ℤ) (addr : Word) : Prop :=
  addr = 0xfffffffe ∧ keyOf stabs type (probe stabs type (secondHit stabs type L R addr) - 1) = some addr.toNat

/-- **Exact matches.** On a sorted region, for an address that an entry has, the search returns the last such entry and
the index before the first entry above it, if and only if bisection meets the address while no entry of the next address
is left in the interval (or it turns back to the right entry at the top of the address space). -/
theorem stab_binsearch_exact_iff (stabs : List Stab) (L R type : ℤ) (addr : Word) (h0 : 0 ≤ L) (hN : R < stabs.length)
    (ho : Ordered (keyOf stabs type) L R) (hex : (Where (keyOf stabs type) L R (· = addr.toNat)).Nonempty) :
    ∃ left right, stabBinsearch stabs L R type addr = .ok (left, right) ∧
      (IsGreatest (Where (keyOf stabs type) L R (· = addr.toNat)) left ∧
          JustBefore (Where (keyOf stabs type) L R (addr.toNat < ·)) R right ↔
        OneHit stabs type L R addr ∨ TurnsBack stabs type L R addr) := by
  obtain ⟨i, hLi, hiR, _, hi, rfl⟩ := hex
  by_cases hone : OneHit stabs type L R addr
  · obtain ⟨left, right, hok, -, hg, hj⟩ := one_hit_result h0 hN ho hLi hiR hi hone
    exact ⟨left, right, hok, fun _ => Or.inl hone, fun _ => ⟨hg, hj⟩⟩
  by_cases hm : addr = 0xffffffff
  · obtain ⟨hok, hkey, hL, hR⟩ := wrap_result h0 hN ho hLi hiR hi hm
    refine ⟨_, _, hok, fun h => ?_, fun h => ?_⟩
    · have := h.1.2 ⟨hL, hR, _, hkey, rfl⟩
      omega
    · rcases h with h | ⟨htop, -⟩
      · exact absurd h hone
      · rw [hm] at htop; exact absurd htop (by decide)
  obtain ⟨m, hmp, hkey, hmR, ⟨g, hLg, hgm, -⟩, hturn, hgo⟩ := second_hit_result h0 hN ho hLi hiR hi hm hone
  have hnot : ∀ j, m ≤ j → j ≤ R → keyOf stabs type j ≠ some addr.toNat := by
    intro j h1 h2 hj
    have := ho m j _ _ (by omega) h1 h2 hkey hj
    omega
  by_cases htop : addr = 0xfffffffe
  · refine ⟨_, _, hturn htop, fun h => ?_, fun h => ?_⟩
    · obtain ⟨⟨-, -, v, hv, rfl⟩, -⟩ := h.1
      exact Or.inr ⟨htop, by rw [← hmp]; exact hv⟩
    · rcases h with h | ⟨-, hv⟩
      · exact absurd h hone
      rw [← hmp] at hv
      exact ho.adjacent (by omega) hmR hv hkey (Nat.lt_succ_self _)
  · obtain ⟨left, right, hok, -, hml⟩ := hgo htop
    refine ⟨left, right, hok, fun h => ?_, fun h => ?_⟩
    · obtain ⟨⟨-, hlR, _, hv, rfl⟩, -⟩ := h.1
      exact absurd hv (hnot left hml hlR)
    · rcases h with h | h
      · exact absurd h hone
      · exact absurd h.1 htop

theorem stab_binsearch_exact_function :
    ∃ left right, stabBinsearch twoFunctions 0 1 N_FUN 0xf0100040 = .ok (left, right) ∧
      (IsGreatest (Where (keyOf twoFunctions N_FUN) 0 1 (· = (0xf0100040 : Word).toNat)) left ∧
          JustBefore (Where (keyOf twoFunctions N_FUN) 0 1 ((0xf0100040 : Word).toNat < ·)) 1 right ↔
        OneHit twoFunctions N_FUN 0 1 0xf0100040 ∨ TurnsBack twoFunctions N_FUN 0 1 0xf0100040) :=
  stab_binsearch_exact_iff twoFunctions 0 1 N_FUN 0xf0100040 (by decide) (by decide) (by decide +kernel)
    ⟨0, by decide, by decide, _, by decide +kernel, rfl⟩

/-- **Exact matches**, where no entry has the next address -/
theorem stab_binsearch_exact {stabs : List Stab} {type L R : ℤ} {addr : Word} (h0 : 0 ≤ L) (hN : R < stabs.length)
    (ho : Ordered (keyOf stabs type) L R) (hex : (Where (keyOf stabs type) L R (· = addr.toNat)).Nonempty)
    (hn : NoNext stabs type L R addr) :
    ∃ left right, stabBinsearch stabs L R type addr = .ok (left, right) ∧
      IsGreatest (Where (keyOf stabs type) L R (· = addr.toNat)) left ∧
      JustBefore (Where (keyOf stabs type) L R (addr.toNat < ·)) R right := by
  obtain ⟨i, hLi, hiR, _, hi, rfl⟩ := hex
  obtain ⟨left, right, hok, -, hg, hj⟩ := one_hit_result h0 hN ho hLi hiR hi (hn.oneHit h0 hN ho hLi hiR hi)
  exact ⟨left, right, hok, hg, hj⟩

/-- **A successor is matched.** Of two lines that start at the offsets 0 and 1, the search for 0 returns the second. -/
theorem stab_binsearch_successor :
    Ordered (keyOf [⟨0, 0x44, 0, 7, 0⟩, ⟨0, 0x44, 0, 8, 1⟩] N_SLINE) 0 1 ∧
      stabBinsearch [⟨0, 0x44, 0, 7, 0⟩, ⟨0, 0x44, 0, 8, 1⟩] 0 1 N_SLINE 0 = .ok (1, 1) ∧
      (0 : ℤ) ∈ Where (keyOf [⟨0, 0x44, 0, 7, 0⟩, ⟨0, 0x44, 0, 8, 1⟩] N_SLINE) 0 1 (· = (0 : Word).toNat) ∧
      (1 : ℤ) ∉ Where (keyOf [⟨0, 0x44, 0, 7, 0⟩, ⟨0, 0x44, 0, 8, 1⟩] N_SLINE) 0 1 (· = (0 : Word).toNat) := by
  refine ⟨by decide +kernel, by decide +kernel, ⟨by decide, by decide, 0, by decide +kernel, rfl⟩, ?_⟩
  rintro ⟨-, -, v, hv, rfl⟩
  revert hv
  decide +kernel

/-! ## Misses -/

/-- on any table: a miss says that the region has no entry of the type, and a result that there is none behind its left end -/
theorem stabBinsearch_stretch (stabs : List Stab) (type : ℤ) {L R : ℤ} (addr : Word) (h0 : 0 ≤ L) (hLR : L ≤ R)
    (hN : R < stabs.length) : ∃ left right, stabBinsearch stabs L R type addr = .ok (left, right) ∧ right ≤ R ∧
      (left ≤ right ∧ L - 1 ≤ left ∧ (left < L → right = left) ∧ Free (keyOf stabs type) (left + 1) right ∨
        left = L ∧ right = L - 1 ∧ Free (keyOf stabs type) L R) := by
  have hstep : ∀ s s', (InRegion stabs type L R s ∧ (s.anyMatches = false → s.r = R ∧ Free (keyOf stabs type) L (s.l - 1))) →
      s.l ≤ s.r → searchStep stabs type s = .ok s' →
      InRegion stabs type L R s' ∧ (s'.anyMatches = false → s'.r = R ∧ Free (keyOf stabs type) L (s'.l - 1)) := by
    rintro s s' ⟨h, hany⟩ hlr hs
    refine ⟨inRegion_step s s' h hlr hs, ?_⟩
    obtain ⟨m, hm, h1, h2, ⟨hlt, rfl⟩ | ⟨e, hlm, he, ⟨hv, rfl⟩ | ⟨hv, rfl⟩ | ⟨hv, rfl⟩⟩⟩ := searchStep_cases hs hlr
    · intro ha
      obtain ⟨hr, hf⟩ := hany ha
      refine ⟨hr, fun i hi1 hi2 => ?_⟩
      by_cases hil : i < s.l
      · exact hf i hi1 (by omega)
      · exact (scanDown_spec hm).2 i (by omega) (by simp only at hi2; omega)
    · intro ha; cases ha
    · intro ha; cases ha
    · intro ha; cases ha
  obtain ⟨t, ht, ⟨h, hany⟩, hend⟩ := searchLoop_rule _ (fun s h => searchStep_ok h0 hN s h.1) hstep
    ⟨L, R, L, R, false, addr⟩ ⟨inRegion_init stabs type addr hLR, fun _ => ⟨rfl, fun i h1 h2 => by simp only at h2; omega⟩⟩
  have hg := h.left_ge
  have hr := h.r_le
  have hle := h.l_le
  have hl := h.l_ge
  rw [stabBinsearch_eq, resultFrom, ht, ok_bind]
  by_cases ha : t.anyMatches = true
  · obtain ⟨p, hp, hpr, hleft, -, hf⟩ := h.lastScan h0 hN
    exact ⟨p, t.r, by rw [finish, if_pos ha, h.right_eq, hp]; rfl, hr, Or.inl ⟨hpr, by omega, by omega, hf⟩⟩
  · have ha' : t.anyMatches = false := by simpa using ha
    obtain ⟨hrR, hf⟩ := hany ha'
    have hleft := h.left_any ha'
    refine ⟨t.regionLeft, t.regionLeft - 1, by rw [finish, if_neg ha]; rfl, by omega, Or.inr ⟨hleft, by omega, ?_⟩⟩
    exact fun i h1 h2 => hf i h1 (by omega)

/-- a region without an entry of the type -/
theorem stabBinsearch_free {stabs : List Stab} {type L R : ℤ} (addr : Word) (h0 : 0 ≤ L) (hN : R < stabs.length)
    (hf : Free (keyOf stabs type) L R) : stabBinsearch stabs L R type addr = .ok (L, L - 1) := by
  rw [stabBinsearch_eq, resultFrom]
  by_cases hLR : L ≤ R
  · have hstep : ∀ s s', InRegion stabs type L R s ∧ s.anyMatches = false → s.l ≤ s.r → searchStep stabs type s = .ok s' →
        InRegion stabs type L R s' ∧ s'.anyMatches = false := by
      rintro s s' ⟨h, hany⟩ hlr hs
      refine ⟨inRegion_step s s' h hlr hs, ?_⟩
      have hl := h.l_ge
      have hr := h.r_le
      have hmid := mid_mem s hlr
      obtain ⟨m, hm, h1, h2, ⟨-, rfl⟩ | ⟨e, hlm, he, -⟩⟩ := searchStep_cases hs hlr
      · exact hany
      · obtain ⟨e', he', ht⟩ := (scanDown_spec hm).1 hlm
        have := hf m (by omega) (by omega)
        rw [keyOf_of_stab he' ht] at this; cases this
    obtain ⟨t, ht, ⟨h, hany⟩, -⟩ := searchLoop_rule (fun s => InRegion stabs type L R s ∧ s.anyMatches = false)
      (fun s h => searchStep_ok h0 hN s h.1) hstep ⟨L, R, L, R, false, addr⟩
      ⟨inRegion_init stabs type addr hLR, rfl⟩
    rw [ht, ok_bind, finish, if_neg (by rw [hany]; exact Bool.false_ne_true), h.left_any hany]
    rfl
  · rw [searchLoop_end (by simp only; omega), ok_bind, finish, if_neg Bool.false_ne_true]
    rfl

theorem keyOf_lt {stabs : List Stab} {type i : ℤ} {v : ℕ} (h : keyOf stabs type i = some v) : v < 4294967296 := by
  obtain ⟨s, -, -, rfl⟩ := keyOf_some h
  exact s.nValue.isLt

/-- the search for an address that entries have ends at an entry of the type at or below it -/
def EndsBelow (stabs : List Stab) (type L R : ℤ) (addr : Word) : Prop :=
  OneHit stabs type L R addr ∨ TurnsBack stabs type L R addr ∨
    addr = 0xffffffff ∧ keyOf stabs type (probe stabs type (firstHit stabs type L R addr) - 1) ≠ none

/-- the converse part, for an address that entry i has -/
theorem ends_below_iff {stabs : List Stab} {type L R : ℤ} {addr : Word} (h0 : 0 ≤ L) (hN : R < stabs.length)
    (ho : Ordered (keyOf stabs type) L R) {i : ℤ} (hLi : L ≤ i) (hiR : i ≤ R)
    (hi : keyOf stabs type i = some addr.toNat) :
    ∃ left right, stabBinsearch stabs L R type addr = .ok (left, right) ∧ left ≤ right ∧
      ((∃ v, keyOf stabs type left = some v ∧ v ≤ addr.toNat) ↔ EndsBelow stabs type L R addr) := by
  by_cases hone : OneHit stabs type L R addr
  · obtain ⟨left, right, hok, hle, hg, -⟩ := one_hit_result h0 hN ho hLi hiR hi hone
    obtain ⟨-, -, v, hv, rfl⟩ := hg.1
    exact ⟨left, right, hok, hle, fun _ => Or.inl hone, fun _ => ⟨_, hv, le_refl _⟩⟩
  by_cases hm : addr = 0xffffffff
  · obtain ⟨hok, -, -, -⟩ := wrap_result h0 hN ho hLi hiR hi hm
    refine ⟨_, _, hok, le_refl _, ?_, ?_⟩
    · rintro ⟨v, hv, -⟩
      exact Or.inr (Or.inr ⟨hm, by rw [hv]; exact Option.some_ne_none v⟩)
    · rintro (h | h | ⟨-, h⟩)
      · exact absurd h hone
      · exact absurd (hm.symm.trans h.1) (by decide)
      · obtain ⟨v, hv⟩ := Option.ne_none_iff_exists'.1 h
        have := keyOf_lt hv
        exact ⟨v, hv, by rw [hm]; exact Nat.le_of_lt_succ this⟩
  obtain ⟨m, hmp, hkey, hmR, ⟨g, hLg, hgm, hg⟩, hturn, hgo⟩ := second_hit_result h0 hN ho hLi hiR hi hm hone
  by_cases htop : addr = 0xfffffffe
  · refine ⟨_, _, hturn htop, le_refl _, ?_, ?_⟩
    · rintro ⟨v, hv, hva⟩
      have := ho g (m - 1) _ v hLg (by omega) (by omega) hg hv
      obtain rfl : v = addr.toNat := by omega
      exact Or.inr (Or.inl ⟨htop, by rw [← hmp]; exact hv⟩)
    · rintro (h | ⟨-, h⟩ | ⟨h, -⟩)
      · exact absurd h hone
      · exact ⟨_, by rw [hmp]; exact h, le_refl _⟩
      · exact absurd h hm
  · obtain ⟨left, right, hok, hle, hml⟩ := hgo htop
    obtain ⟨left', right', hok', -, hlR, -⟩ := stabBinsearch_bounds stabs type addr h0 (hLi.trans hiR) hN
    obtain ⟨rfl, rfl⟩ : left' = left ∧ right' = right := by
      rw [hok] at hok'
      cases hok'
      exact ⟨rfl, rfl⟩
    refine ⟨left', right', hok, hle, ?_, ?_⟩
    · rintro ⟨v, hv, hva⟩
      have := ho m left' _ v (by omega) hml hlR hkey hv
      omega
    · rintro (h | h | h)
      · exact absurd h hone
      · exact absurd h.1 htop
      · exact absurd h.1 hm

theorem NoNext.endsBelow {stabs : List Stab} {type L R : ℤ} {addr : Word} (h : NoNext stabs type L R addr) (h0 : 0 ≤ L)
    (hN : R < stabs.length) (ho : Ordered (keyOf stabs type) L R) {i : ℤ} (hLi : L ≤ i) (hiR : i ≤ R)
    (hi : keyOf stabs type i = some addr.toNat) : EndsBelow stabs type L R addr :=
  Or.inl (h.oneHit h0 hN ho hLi hiR hi)

/-- entries at or below an address that none has are below it -/
theorem nonempty_below {key : ℤ → Option ℕ} {a : ℕ} {L R : ℤ} (h : (Where key L R (· ≤ a)).Nonempty)
    (ha : Avoids key a L R) : (Where key L R (· < a)).Nonempty := by
  obtain ⟨i, h1, h2, v, hv, hle⟩ := h
  refine ⟨i, h1, h2, v, hv, lt_of_le_of_ne hle ?_⟩
  rintro rfl
  exact ha i h1 h2 hv

/-- **Hits**, where no entry has the next address -/
theorem stab_binsearch_found {stabs : List Stab} {type L R : ℤ} {addr : Word} (h0 : 0 ≤ L) (hN : R < stabs.length)
    (ho : Ordered (keyOf stabs type) L R) (hb : (Where (keyOf stabs type) L R (· ≤ addr.toNat)).Nonempty)
    (hn : NoNext stabs type L R addr) :
    ∃ left right, stabBinsearch stabs L R type addr = .ok (left, right) ∧ left ≤ right ∧
      ∃ v, keyOf stabs type left = some v ∧ v ≤ addr.toNat := by
  by_cases ha : Avoids (keyOf stabs type) addr.toNat L R
  · obtain ⟨g, hg⟩ := exists_isGreatest (nonempty_below hb ha)
    obtain ⟨right, hok, hseg, -⟩ := stabBinsearch_between h0 hN ho ha (lastBelow_of_isGreatest hg)
    obtain ⟨-, -, v, hv, hlt⟩ := hg.1
    exact ⟨g, right, hok, hseg.le, v, hv, le_of_lt hlt⟩
  · obtain ⟨i, hLi, hiR, hi⟩ : ∃ i, L ≤ i ∧ i ≤ R ∧ keyOf stabs type i = some addr.toNat := by
      by_contra hno
      exact ha fun i h1 h2 h => hno ⟨i, h1, h2, h⟩
    obtain ⟨left, right, hok, hle, hiff⟩ := ends_below_iff h0 hN ho hLi hiR hi
    exact ⟨left, right, hok, hle, hiff.2 (hn.endsBelow h0 hN ho hLi hiR hi)⟩

/-- **Misses.** On a sorted region, the search reports a miss where no entry of the type is at or below the address, and
an entry of the type at or below it otherwise, if and only if the region has no entry of the type at all, or has one at
or below the address (and, where an entry has the address itself, the search does not go on past it). -/
theorem stab_binsearch_miss_iff (stabs : List Stab) (L R type : ℤ) (addr : Word) (h0 : 0 ≤ L) (hN : R < stabs.length)
    (ho : Ordered (keyOf stabs type) L R) :
    ∃ left right, stabBinsearch stabs L R type addr = .ok (left, right) ∧
      ((Where (keyOf stabs type) L R (· ≤ addr.toNat) = ∅ → right < left) ∧
          (left ≤ right → ∃ v, keyOf stabs type left = some v ∧ v ≤ addr.toNat) ↔
        Free (keyOf stabs type) L R ∨ (Where (keyOf stabs type) L R (· ≤ addr.toNat)).Nonempty ∧
          (Avoids (keyOf stabs type) addr.toNat L R ∨ EndsBelow stabs type L R addr)) := by
  by_cases hf : Free (keyOf stabs type) L R
  · refine ⟨L, L - 1, stabBinsearch_free addr h0 hN hf, fun _ => Or.inl hf, fun _ => ⟨fun _ => by omega, fun h => ?_⟩⟩
    omega
  have hLR : L ≤ R := by
    by_contra hc
    exact hf fun i h1 h2 => by omega
  by_cases hb : (Where (keyOf stabs type) L R (· ≤ addr.toNat)).Nonempty
  swap
  · -- all entries are above the address, and the search has matched one
    have hempty := Set.not_nonempty_iff_eq_empty.1 hb
    obtain ⟨left, right, hok, -, ⟨hle, -⟩ | ⟨-, -, hfree⟩⟩ := stabBinsearch_stretch stabs type addr h0 hLR hN
    swap
    · exact absurd hfree hf
    refine ⟨left, right, hok, fun h => ?_, fun h => ?_⟩
    · have := h.1 hempty
      omega
    · rcases h with h | h
      · exact absurd h hf
      · exact absurd h.1 hb
  have hne : Where (keyOf stabs type) L R (· ≤ addr.toNat) ≠ ∅ := Set.nonempty_iff_ne_empty.1 hb
  by_cases ha : Avoids (keyOf stabs type) addr.toNat L R
  · obtain ⟨g, hg⟩ := exists_isGreatest (nonempty_below hb ha)
    obtain ⟨right, hok, -, -⟩ := stabBinsearch_between h0 hN ho ha (lastBelow_of_isGreatest hg)
    obtain ⟨-, -, v, hv, hlt⟩ := hg.1
    exact ⟨g, right, hok, fun _ => Or.inr ⟨hb, Or.inl ha⟩,
      fun _ => ⟨fun h => absurd h hne, fun _ => ⟨v, hv, le_of_lt hlt⟩⟩⟩
  obtain ⟨i, hLi, hiR, hi⟩ : ∃ i, L ≤ i ∧ i ≤ R ∧ keyOf stabs type i = some addr.toNat := by
    by_contra hno
    exact ha fun i h1 h2 h => hno ⟨i, h1, h2, h⟩
  -- what is left to show: the converse part for an address that an entry has
  suffices h : ∃ left right, stabBinsearch stabs L R type addr = .ok (left, right) ∧ left ≤ right ∧
      ((∃ v, keyOf stabs type left = some v ∧ v ≤ addr.toNat) ↔ EndsBelow stabs type L R addr) by
    obtain ⟨left, right, hok, hle, hiff⟩ := h
    refine ⟨left, right, hok, fun h => Or.inr ⟨hb, Or.inr (hiff.1 (h.2 hle))⟩, fun h => ⟨fun h => absurd h hne, fun _ => ?_⟩⟩
    rcases h with h | ⟨-, h | h⟩
    · exact absurd h hf
    · exact absurd h ha
    · exact hiff.2 h
  exact ends_below_iff h0 hN ho hLi hiR hi

theorem stab_binsearch_miss_functions :
    ∃ left right, stabBinsearch twoFunctions 0 1 N_FUN 0xf0100100 = .ok (left, right) ∧
      ((Where (keyOf twoFunctions N_FUN) 0 1 (· ≤ (0xf0100100 : Word).toNat) = ∅ → right < left) ∧
          (left ≤ right → ∃ v, keyOf twoFunctions N_FUN left = some v ∧ v ≤ (0xf0100100 : Word).toNat) ↔
        Free (keyOf twoFunctions N_FUN) 0 1 ∨ (Where (keyOf twoFunctions N_FUN) 0 1 (· ≤ (0xf0100100 : Word).toNat)).Nonempty ∧
          (Avoids (keyOf twoFunctions N_FUN) (0xf0100100 : Word).toNat 0 1 ∨
            EndsBelow twoFunctions N_FUN 0 1 0xf0100100)) :=
  stab_binsearch_miss_iff twoFunctions 0 1 N_FUN 0xf0100100 (by decide) (by decide) (by decide +kernel)

/-- a file, and its first function 64 bytes behind the file's start -/
def lateFunction : List Stab := [⟨1, 0x64, 0, 0, 0xf0100000⟩, ⟨9, 0x24, 0, 0, 0xf0100040⟩]

/-- **A false hit.** For an address in front of the first function, the search for a function returns the file's stab. -/
theorem stab_binsearch_false_hit :
    Ordered (keyOf lateFunction N_FUN) 0 1 ∧
      Where (keyOf lateFunction N_FUN) 0 1 (· ≤ (0xf0100010 : Word).toNat) = ∅ ∧
      stabBinsearch lateFunction 0 1 N_FUN 0xf0100010 = .ok (0, 0) ∧ keyOf lateFunction N_FUN 0 = none ∧ ¬ (0 : ℤ) < 0 := by
  refine ⟨by decide +kernel, ?_, by decide +kernel, by decide +kernel, lt_irrefl 0⟩
  have hall : ∀ i : ℤ, 0 ≤ i → i ≤ 1 → ∀ v ∈ keyOf lateFunction N_FUN i, ¬ v ≤ (0xf0100010 : Word).toNat := by
    decide +kernel
  apply Set.eq_empty_iff_forall_notMem.2
  rintro i ⟨h1, h2, v, hv, hle⟩
  exact hall i h1 h2 v hv hle

end Jos.Kdebug
