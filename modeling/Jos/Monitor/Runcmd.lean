/-
What `runcmd` does with a command line: it splits it into words, in place.

The loop overwrites the separators that it has passed, so what lies behind it is the line with NULs for separators, and a
word is terminated only when the loop goes on behind it. `Progress` is the invariant: the line up to here, and the words
in it.

- `parseBody_step`: one iteration passes separators and a word, or ends the loop.
- `parse_run`: the whole loop.
- `invoke_eq`: the first command of that name, or the message.
- **`runcmd_splits`**: every line.
-/
import Jos.Core.Words
import Jos.Monitor.Backtrace
import Jos.Monitor.Command

namespace Jos.Monitor

open Printfmt (Renders renders_dec renders_str signedText signedVal stringText)
open Sink (feed)
open Words

/-! ## Separators -/

/-- tab, CR, LF or blank -/
def white (b : Byte) : Bool := decide (b = chr '\t' ∨ b = chr '\r' ∨ b = chr '\n' ∨ b = chr ' ')

/-- a separator becomes a NUL -/
def blank (b : Byte) : Byte := if white b then 0#8 else b

theorem inWhitespace_eq (b : Byte) : inWhitespace b = .ok (white b) := by
  revert b
  decide

theorem blank_map_of_word {w : List Byte} (hw : ∀ b ∈ w, white b = false) : w.map blank = w := by
  refine (List.map_congr_left fun b hb => ?_).trans (List.map_id w)
  rw [blank, if_neg (by rw [hw b hb]; exact Bool.false_ne_true)]
  rfl

theorem gobble_eq (before : List Byte) {g r : List Byte} (hg : ∀ b ∈ g, white b = true)
    (hr : ∀ b ∈ r.head?, white b = false) (h0 : 0#8 ∉ g) (rest : List Byte) :
    gobble before (g ++ (r ++ 0#8 :: rest)) = .ok (before ++ g.map blank, r ++ 0#8 :: rest) := by
  induction g generalizing before with
  | nil =>
    cases r with
    | nil => simp [gobble, inWhitespace_eq, ok_bind]
    | cons b r => simp [gobble, inWhitespace_eq, ok_bind, hr b rfl]
  | cons b g ih =>
    have hb : b ≠ 0#8 := fun h => h0 (by rw [h]; exact List.mem_cons_self)
    have hw : white b = true := hg b List.mem_cons_self
    rw [List.cons_append, gobble, inWhitespace_eq, ok_bind, if_pos ⟨hb, hw⟩,
      ih (before ++ [0#8]) (fun c hc => hg c (List.mem_cons_of_mem b hc)) fun h => h0 (List.mem_cons_of_mem b h),
      List.map_cons, blank, if_pos hw]
    simp

theorem scanArg_eq (before : List Byte) {w r : List Byte} (hw : ∀ b ∈ w, white b = false)
    (hr : ∀ b ∈ r.head?, white b = true) (h0 : 0#8 ∉ w) (rest : List Byte) :
    scanArg before (w ++ (r ++ 0#8 :: rest)) = .ok (before ++ w, r ++ 0#8 :: rest) := by
  induction w generalizing before with
  | nil =>
    cases r with
    | nil => simp [scanArg, inWhitespace_eq, ok_bind]
    | cons b r => simp [scanArg, inWhitespace_eq, ok_bind, hr b rfl]
  | cons b w ih =>
    have hb : b ≠ 0#8 := fun h => h0 (by rw [h]; exact List.mem_cons_self)
    have hn : ¬ white b = true := by rw [hw b List.mem_cons_self]; exact Bool.false_ne_true
    rw [List.cons_append, scanArg, inWhitespace_eq, ok_bind, if_pos ⟨hb, hn⟩,
      ih (before ++ [b]) (fun c hc => hw c (List.mem_cons_of_mem b hc)) fun h => h0 (List.mem_cons_of_mem b h)]
    simp

/-! ## The loop -/

/-- `argv` has the words of the line up to here -/
def Args (pre : List Byte) (argv : ℕ → Entry) : Prop :=
  ∀ i w, (words white pre)[i]? = some w → ∃ p, argv i = .ptr p ∧ WordAt white pre p w

/-- `pre` of the line is behind buf, and `suf` before it -/
structure Progress (pre suf rest : List Byte) (s : Parse) : Prop where
  before : s.before = pre.map blank
  after : s.after = suf ++ 0#8 :: rest
  parts : Parts white pre suf
  argc : s.argc = (words white pre).length
  argc_le : s.argc ≤ 15
  args : Args pre s.argv

/-- how the loop ends on line l -/
def Splits (l rest : List Byte) : Parsed → Prop
  | .finished s => s.buffer = l.map blank ++ 0#8 :: rest ∧ s.argc = (words white l).length ∧ s.argc ≤ 15 ∧ Args l s.argv
  | .tooMany s => 15 < (words white l).length ∧ ∃ pre suf, l = pre ++ suf ∧ s.buffer = pre.map blank ++ (suf ++ 0#8 :: rest)

theorem store_eq {argv : ℕ → Entry} {i : ℕ} (hi : i ≤ 15) (e : Entry) : store argv i e = .ok (Function.update argv i e) :=
  if_pos (show i < 16 by omega)

/-- the argument that is stored last is the last word -/
theorem Args.snoc {pre suf g w : List Byte} {argv : ℕ → Entry} (h : Args pre argv) (hg : ∀ b ∈ g, white b = true)
    (hw : ∀ b ∈ w, white b = false) (hne : w ≠ []) (hparts : Parts white pre (g ++ w ++ suf)) :
    words white (pre ++ (g ++ w)) = words white pre ++ [w] ∧
      Args (pre ++ (g ++ w)) (Function.update argv (words white pre).length (.ptr (pre ++ g).length)) := by
  have hparts' : Parts white pre (g ++ w) := by
    refine hparts.imp id fun hs b hb => hs b ?_
    rw [List.head?_append, Option.mem_def.1 hb]
    rfl
  have hwords : words white (pre ++ (g ++ w)) = words white pre ++ [w] := by
    rw [words_append hparts', words_one hg hw hne]
  refine ⟨hwords, fun i v hi => ?_⟩
  rw [hwords] at hi
  by_cases hlast : i = (words white pre).length
  · subst hlast
    rw [List.getElem?_concat_length] at hi
    cases hi
    refine ⟨(pre ++ g).length, Function.update_self _ _ _, ?_⟩
    rw [← List.append_assoc]
    exact WordAt.last _ hw hne
  · rw [List.getElem?_append] at hi
    split_ifs at hi with hlt
    · obtain ⟨p, hp, hat⟩ := h i v hi
      exact ⟨p, by rw [Function.update_of_ne hlast, hp], hat.append hparts'⟩
    · rw [List.getElem?_singleton, if_neg (by omega)] at hi
      cases hi

section Body

variable {s : Parse} {before after : List Byte}

theorem parseBody_finished (h : gobble s.before s.after = .ok (before, 0#8 :: after)) :
    parseBody s = some (.inr (.ok (.finished { s with before := before, after := 0#8 :: after }))) := by
  simp only [parseBody, parseArg, h, ok_bind, if_true]

theorem parseBody_tooMany {b : Byte} (h : gobble s.before s.after = .ok (before, b :: after)) (hb : b ≠ 0#8)
    (hc : s.argc = 15) :
    parseBody s = some (.inr (.ok (.tooMany { s with before := before, after := b :: after }))) := by
  have hmax : s.argc = MAXARGS - 1 := hc
  simp only [parseBody, parseArg, h, ok_bind, if_neg hb, if_pos hmax]

theorem parseBody_next {b : Byte} {before' after' : List Byte} (h : gobble s.before s.after = .ok (before, b :: after))
    (hb : b ≠ 0#8) (hc : s.argc < 15) (hscan : scanArg before (b :: after) = .ok (before', after')) :
    parseBody s = some (.inl ⟨before', after', s.argc + 1, Function.update s.argv s.argc (.ptr before.length)⟩) := by
  have hmax : s.argc ≠ MAXARGS - 1 := ne_of_lt hc
  simp only [parseBody, parseArg, h, ok_bind, if_neg hb, if_neg hmax, store_eq (le_of_lt hc), hscan]

end Body

/-- **One iteration.** It passes separators and a word, or ends the loop. -/
theorem parseBody_step {pre suf rest : List Byte} {s : Parse} (h : Progress pre suf rest s) (h0 : 0#8 ∉ suf) :
    (∃ s' x y, parseBody s = some (.inl s') ∧ suf = x ++ y ∧ x ≠ [] ∧ Progress (pre ++ x) y rest s') ∨
      ∃ r, parseBody s = some (.inr (.ok r)) ∧ Splits (pre ++ suf) rest r := by
  obtain ⟨g, r, rfl, hg, hr⟩ := exists_run white suf
  have hg0 : 0#8 ∉ g := fun hm => h0 (List.mem_append_left r hm)
  have hr0 : 0#8 ∉ r := fun hm => h0 (List.mem_append_right g hm)
  have hgobble : gobble s.before s.after = .ok ((pre ++ g).map blank, r ++ 0#8 :: rest) := by
    rw [h.after, List.append_assoc, gobble_eq _ hg hr hg0, h.before, List.map_append]
  cases r with
  | nil =>
    -- the terminator
    rw [List.append_nil]
    have hparts := h.parts
    rw [List.append_nil] at hparts
    have hwords : words white (pre ++ g) = words white pre := by
      rw [words_append hparts, ← List.append_nil g, words_seps hg, words_nil, List.append_nil]
    refine Or.inr ⟨_, parseBody_finished hgobble, rfl, by rw [hwords, ← h.argc], h.argc_le, fun i w hi => ?_⟩
    rw [hwords] at hi
    obtain ⟨p, hp, hat⟩ := h.args i w hi
    exact ⟨p, hp, hat.append hparts⟩
  | cons b t =>
    have hb : b ≠ 0#8 := fun he => hr0 (by rw [he]; exact List.mem_cons_self)
    rcases Nat.lt_or_ge s.argc 15 with hlt | hge
    · -- the next word
      obtain ⟨w, y, hwy, hne, hw, hy⟩ := exists_word (hr b rfl) t
      have hw0 : 0#8 ∉ w := fun hm => hr0 (by rw [hwy]; exact List.mem_append_left y hm)
      have hscan := scanArg_eq ((pre ++ g).map blank) hw hy hw0 rest
      rw [← List.append_assoc, ← hwy] at hscan
      have hparts : Parts white pre (g ++ w ++ y) := by rw [List.append_assoc, ← hwy]; exact h.parts
      obtain ⟨hwords, hargs⟩ := h.args.snoc hg hw hne hparts
      refine Or.inl ⟨_, g ++ w, y, parseBody_next hgobble hb hlt hscan, by rw [hwy, List.append_assoc], ?_, ?_⟩
      · exact fun hnil => hne (List.append_eq_nil_iff.1 hnil).2
      · refine ⟨?_, rfl, Or.inr hy, ?_, hlt, ?_⟩
        · simp only [List.map_append, List.append_assoc, blank_map_of_word hw]
        · rw [hwords, List.length_append, h.argc, List.length_singleton]
        · rw [h.argc, List.length_map]
          exact hargs
    · have hmax : s.argc = 15 := le_antisymm h.argc_le hge
      refine Or.inr ⟨_, parseBody_tooMany hgobble hb hmax, ?_, pre ++ g, b :: t, by simp, rfl⟩
      have hpos := words_pos (hr b rfl) t
      rw [words_append h.parts, words_seps hg, List.length_append, ← h.argc]
      omega

/-- **The loop**, on a whole line. -/
theorem parse_run {l : List Byte} (h0 : 0#8 ∉ l) (rest : List Byte) (argv : ℕ → Entry) :
    ∃ r, Splits l rest r ∧ ∀ n, l.length < n → Loop.run parseBody n ⟨[], l ++ 0#8 :: rest, 0, argv⟩ = some (.ok r) := by
  have hstart : Progress [] l rest ⟨[], l ++ 0#8 :: rest, 0, argv⟩ :=
    ⟨rfl, rfl, Or.inl rfl, rfl, Nat.zero_le 15, fun i w hi => by cases hi⟩
  have hfuel : (l ++ 0#8 :: rest).length - (rest.length + 1) < l.length + 1 := by
    rw [List.length_append, List.length_cons, Nat.add_sub_cancel]
    exact Nat.lt_succ_self _
  -- what is left of the line gets shorter
  have hstep : ∀ s, (∃ pre suf, l = pre ++ suf ∧ Progress pre suf rest s) →
      (∃ s', parseBody s = some (.inl s') ∧ (∃ pre suf, l = pre ++ suf ∧ Progress pre suf rest s') ∧
        s'.after.length - (rest.length + 1) < s.after.length - (rest.length + 1)) ∨
        ∃ b, parseBody s = some (.inr b) ∧ ∃ r, b = .ok r ∧ Splits l rest r := by
    rintro s ⟨pre, suf, rfl, h⟩
    rcases parseBody_step h (fun hm => h0 (List.mem_append_right pre hm)) with ⟨s', x, y, hs', rfl, hx, h'⟩ | ⟨r, hr, hl⟩
    · refine Or.inl ⟨s', hs', ⟨pre ++ x, y, (List.append_assoc _ _ _).symm, h'⟩, ?_⟩
      have hpos := List.length_pos_of_ne_nil hx
      simp only [h.after, h'.after, List.length_append, List.length_cons]
      omega
    · exact Or.inr ⟨_, hr, r, rfl, hl⟩
  obtain ⟨b, hb, r, rfl, hr⟩ := Loop.run_rule (fun s => ∃ pre suf, l = pre ++ suf ∧ Progress pre suf rest s)
    (fun s => s.after.length - (rest.length + 1)) (fun b => ∃ r, b = Except.ok r ∧ Splits l rest r) hstep
    ⟨[], l, rfl, hstart⟩ hfuel
  exact ⟨r, hr, fun n hn => Loop.run_mono hb hn⟩

/-! ## The commands -/

/-- argv[i] is a pointer to a string in the buffer -/
def PointsTo (argv : ℕ → Entry) (buf : List Byte) (i : ℕ) (w : List Byte) : Prop :=
  ∃ p, argv i = .ptr p ∧ 0#8 ∈ buf.drop p ∧ cstr (buf.drop p) = w

def tooManyText : List Word := text "Too many arguments (max 16)\n"

def unknownText (name : List Byte) : List Word :=
  text "Unknown command '" ++ stringText (chr ' ') (-1) (-1) false name ++ text "'\n"

theorem renders_tooMany :
    Renders (bytes "Too many arguments (max %d)\n") [.word (BitVec.ofNat 32 MAXARGS)] tooManyText := by
  have h := (renders_text "Too many arguments (max " (by decide +kernel)).append (renders_dec 16)
  have h := h.append (renders_text ")\n" (by decide +kernel))
  have hnum : signedText (signedVal 0 16) = text "16" := by
    decide
  rw [hnum] at h
  exact h

theorem renders_unknown {p : List Byte} (hp : 0#8 ∈ p) :
    Renders (bytes "Unknown command '%s'\n") [.str (some p)] (unknownText (cstr p)) := by
  have h := (renders_text "Unknown command '" (by decide +kernel)).append (renders_str hp).1
  exact h.append (renders_text "'\n" (by decide +kernel))

section Commands

variable {τ σ : Type} (cputchar : Word → σ → σ)

theorem World.cprintf_eq {fmt : String} {ap : List Printfmt.Arg} {t : List Word} (h : Renders (bytes fmt) ap t)
    (w : World σ) : w.cprintf cputchar fmt ap = .ok { w with console := feed cputchar w.console t } := by
  rw [World.cprintf, Monitor.cprintf_eq cputchar h]

/-- what a line does whose first word is `name` -/
def dispatch (commands : List (Command τ σ)) (name : List Byte) (argc : ℕ) (argv : ℕ → Entry) (tf : τ) (w : World σ) :
    Option (Except CmdFault (ℤ × World σ)) :=
  match commands.find? fun c => c.name = name with
  | some c => c.func argc argv tf w
  | none => some (.ok (0, { w with console := feed cputchar w.console (unknownText name) }))

/-- **The first command of that name**, or the message. -/
theorem invoke_eq {argc : ℕ} {argv : ℕ → Entry} (tf : τ) {w : World σ} {name : List Byte} (h : PointsTo argv w.buf 0 name)
    (commands : List (Command τ σ)) :
    invoke cputchar argc argv tf w commands = dispatch cputchar commands name argc argv tf w := by
  obtain ⟨p, hp, hnul, rfl⟩ := h
  have harg : arg0 argv w = .ok (w.buf.drop p) := by rw [arg0, hp]
  induction commands with
  | nil =>
    simp only [invoke, harg, ok_bind, World.cprintf_eq cputchar (renders_unknown hnul), dispatch, List.find?_nil]
  | cons c commands ih =>
    have hname : cstr (c.name ++ [0#8]) = c.name := cstr_append c.nul []
    obtain ⟨r, hr, -, heq, -⟩ := strcmp_order hnul (List.mem_append_right c.name List.mem_cons_self)
    rw [hname] at heq
    simp only [invoke, harg, hr]
    split_ifs with hzero
    · have hc : decide (c.name = cstr (w.buf.drop p)) = true := decide_eq_true (heq.1 hzero).symm
      simp only [dispatch, List.find?_cons, hc]
    · have hc : decide (c.name = cstr (w.buf.drop p)) = false := decide_eq_false fun h => hzero (heq.2 h.symm)
      simp only [ih, dispatch, List.find?_cons, hc]

/-! ## A command line -/

theorem PointsTo.of_wordAt {l rest w : List Byte} {argv : ℕ → Entry} {i p : ℕ} (h0 : 0#8 ∉ l) (hp : argv i = .ptr p)
    (h : WordAt white l p w) : PointsTo argv (l.map blank ++ 0#8 :: rest) i w := by
  obtain ⟨x, y, rfl, rfl, hy⟩ := h.split
  have hw0 : 0#8 ∉ w := fun hm => h0 (by simp [hm])
  -- the byte behind the word is a separator, or the terminator
  obtain ⟨t, ht⟩ : ∃ t, y.map blank ++ 0#8 :: rest = 0#8 :: t := by
    cases y with
    | nil => exact ⟨rest, rfl⟩
    | cons b y => exact ⟨y.map blank ++ 0#8 :: rest, by rw [List.map_cons, blank, if_pos (hy b rfl)]; rfl⟩
  have hdrop : ((x ++ (w ++ y)).map blank ++ 0#8 :: rest).drop x.length = w ++ 0#8 :: t := by
    rw [List.map_append, List.map_append, blank_map_of_word h.no_sep, List.append_assoc, List.append_assoc, ht]
    exact List.drop_left' (List.length_map _)
  refine ⟨x.length, hp, ?_, ?_⟩
  · rw [hdrop]
    exact List.mem_append_right w List.mem_cons_self
  · rw [hdrop, cstr_append hw0]

/-- separators that have become NULs, and everything else unchanged -/
def Blanked : List Byte → List Byte → Prop := List.Forall₂ fun b b' => b' = b ∨ white b = true ∧ b' = 0#8

theorem Blanked.map (l : List Byte) : Blanked l (l.map blank) := by
  rw [Blanked, List.forall₂_map_right_iff, List.forall₂_same]
  intro b _
  rw [blank]
  split_ifs with hw
  · exact Or.inr ⟨hw, rfl⟩
  · exact Or.inl rfl

theorem Blanked.append {x x' y y' : List Byte} (h : Blanked x x') (h' : Blanked y y') : Blanked (x ++ y) (x' ++ y') :=
  List.rel_append h h'

theorem Blanked.refl (l : List Byte) : Blanked l l := List.forall₂_same.2 fun _ _ => Or.inl rfl

/-- the null pointer behind the words leaves them alone -/
theorem Args.pointsTo {l : List Byte} {argv : ℕ → Entry} (h : Args l argv) (h0 : 0#8 ∉ l) (rest : List Byte) (i : ℕ)
    (w : List Byte) (hi : (words white l)[i]? = some w) :
    PointsTo (Function.update argv (words white l).length .null) (l.map blank ++ 0#8 :: rest) i w := by
  obtain ⟨p, hp, hat⟩ := h i w hi
  have hlt : i < (words white l).length := (List.getElem?_eq_some_iff.1 hi).1
  refine PointsTo.of_wordAt h0 ?_ hat
  rw [Function.update_of_ne (ne_of_lt hlt), hp]

section Runs

variable {commands : List (Command τ σ)} {n : ℕ} {w : World σ} {s : Parse}

/-- the lookup behind the loop -/
theorem runcmd_finished
    (h : Loop.run parseBody n ⟨[], w.buf, 0, Function.update (fun _ => .unset) 0 .null⟩ = some (.ok (.finished s)))
    (hle : s.argc ≤ 15) (tf : τ) :
    runcmd cputchar commands n tf w = if s.argc = 0 then some (.ok (0, ⟨s.buffer, w.console⟩))
      else invoke cputchar s.argc (Function.update s.argv s.argc .null) tf ⟨s.buffer, w.console⟩ commands := by
  rw [runcmd, h]
  simp only [Option.bind_eq_bind, Option.bind_some, store_eq hle]

theorem runcmd_tooMany
    (h : Loop.run parseBody n ⟨[], w.buf, 0, Function.update (fun _ => .unset) 0 .null⟩ = some (.ok (.tooMany s)))
    (tf : τ) :
    runcmd cputchar commands n tf w = some (.ok (0, ⟨s.buffer, feed cputchar w.console tooManyText⟩)) := by
  rw [runcmd, h]
  simp only [Option.bind_eq_bind, Option.bind_some, World.cprintf_eq cputchar renders_tooMany, ok_bind]

end Runs

/-- **runcmd.** For every command line: without words, or with more than 15, nothing is called and 0 is returned; else the
first command of the name is called, with the words, and a null pointer behind them. Nothing behind the terminator is read,
as there may be nothing (`rest`), and all that changes in the buffer are separators. -/
theorem runcmd_splits {l : List Byte} (h0 : 0#8 ∉ l) (rest : List Byte) :
    ∃ l' argv, Blanked l l' ∧
      ((words white l).length ≤ 15 → argv (words white l).length = .null ∧
        ∀ i w, (words white l)[i]? = some w → PointsTo argv (l' ++ 0#8 :: rest) i w) ∧
      ∀ (commands : List (Command τ σ)) (tf : τ) (console : σ) (n : ℕ), l.length < n →
        (words white l = [] → runcmd cputchar commands n tf ⟨l ++ 0#8 :: rest, console⟩ =
          some (.ok (0, ⟨l' ++ 0#8 :: rest, console⟩))) ∧
        (15 < (words white l).length → runcmd cputchar commands n tf ⟨l ++ 0#8 :: rest, console⟩ =
          some (.ok (0, ⟨l' ++ 0#8 :: rest, feed cputchar console tooManyText⟩))) ∧
        ∀ name, (words white l).head? = some name → (words white l).length ≤ 15 →
          runcmd cputchar commands n tf ⟨l ++ 0#8 :: rest, console⟩ =
            dispatch cputchar commands name (words white l).length argv tf ⟨l' ++ 0#8 :: rest, console⟩ := by
  obtain ⟨r, hr, hrun⟩ := parse_run h0 rest (Function.update (fun _ => .unset) 0 .null)
  cases r with
  | finished s =>
    obtain ⟨hbuf, hargc, hle, hargs⟩ := hr
    have hpoints := hargs.pointsTo h0 rest
    refine ⟨l.map blank, Function.update s.argv (words white l).length .null, Blanked.map l,
      fun _ => ⟨Function.update_self _ _ _, hpoints⟩, fun commands tf console n hn => ?_⟩
    rw [runcmd_finished cputchar (hrun n hn) hle, hbuf, hargc]
    refine ⟨fun hnil => ?_, fun hgt => ?_, fun name hname _ => ?_⟩
    · rw [if_pos (by rw [hnil]; rfl)]
    · omega
    · have hfirst : (words white l)[0]? = some name := by rw [← List.head?_eq_getElem?, hname]
      have hpos : 0 < (words white l).length := (List.getElem?_eq_some_iff.1 hfirst).1
      rw [if_neg (Nat.pos_iff_ne_zero.1 hpos), invoke_eq cputchar tf (hpoints 0 name hfirst)]
  | tooMany s =>
    obtain ⟨hgt, pre, suf, rfl, hbuf⟩ := hr
    rw [← List.append_assoc] at hbuf
    refine ⟨pre.map blank ++ suf, s.argv, (Blanked.map pre).append (Blanked.refl suf),
      fun hle => absurd hgt (Nat.not_lt.2 hle), fun commands tf console n hn => ?_⟩
    rw [runcmd_tooMany cputchar (hrun n hn), hbuf]
    refine ⟨fun hnil => ?_, fun _ => rfl, fun name _ hle => absurd hgt (Nat.not_lt.2 hle)⟩
    rw [hnil] at hgt
    cases hgt

/-- the table of the source, and a line with two words -/
theorem runcmd_splits_help :
    ∃ l' argv, Blanked (bytes " help me\n") l' ∧ argv 2 = .null ∧ PointsTo argv (l' ++ [0#8]) 0 (bytes "help") ∧
      PointsTo argv (l' ++ [0#8]) 1 (bytes "me") ∧
      ∀ k mem T m ebp, runcmd Sink.snoc (commands Sink.snoc k mem T m ebp) 10 () ⟨bytes " help me\n" ++ [0#8], []⟩ =
        some (monHelp Sink.snoc helpTexts ⟨l' ++ [0#8], []⟩) := by
  have hwords : words white (bytes " help me\n") = [bytes "help", bytes "me"] := by decide
  obtain ⟨l', argv, hl, hargs, hrun⟩ := @runcmd_splits Unit (List Word) Sink.snoc (bytes " help me\n") (by decide) []
  rw [hwords] at hargs hrun
  obtain ⟨hnull, hpoints⟩ := hargs (by decide)
  refine ⟨l', argv, hl, hnull, hpoints 0 _ rfl, hpoints 1 _ rfl, fun k mem T m ebp => ?_⟩
  rw [(hrun (commands Sink.snoc k mem T m ebp) () [] 10 (by decide)).2.2 (bytes "help") rfl (by decide), dispatch, commands,
    List.find?_cons_of_pos (by decide)]

end Commands

end Jos.Monitor
