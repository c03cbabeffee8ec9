/-
The words of a list: its maximal runs without a separator.

- `words_append`: the words of two lists joined where no word goes on.
- `WordAt`: a word, and where it begins.
-/
import Mathlib.Data.List.TakeWhile
import Mathlib.Tactic

namespace Jos.Words

variable {α : Type} (sep : α → Bool)

/-- the maximal runs without a separator, in order -/
def words (l : List α) : List (List α) := (l.splitOnP sep).filter fun w => !w.isEmpty

/-- no word of l goes on in r -/
def Parts (l r : List α) : Prop := l = [] ∨ ∀ a ∈ r.head?, sep a = true

/-- w begins at p in l, and goes on up to a separator or to the end -/
structure WordAt (l : List α) (p : ℕ) (w : List α) : Prop where
  ne_nil : w ≠ []
  no_sep : ∀ a ∈ w, sep a = false
  split : ∃ x y, l = x ++ (w ++ y) ∧ x.length = p ∧ ∀ a ∈ y.head?, sep a = true

variable {sep}

theorem words_nil : words sep [] = [] := rfl

theorem words_sep {a : α} (ha : sep a = true) (l : List α) : words sep (a :: l) = words sep l := by
  rw [words, List.splitOnP_cons_eq_if_modifyHead, if_pos ha, List.filter_cons_of_neg (by simp), words]

theorem words_append {l r : List α} (h : Parts sep l r) : words sep (l ++ r) = words sep l ++ words sep r := by
  rcases h with rfl | h
  · rfl
  cases r with
  | nil => rw [List.append_nil, words_nil, List.append_nil]
  | cons a r =>
    have ha : sep a = true := h a rfl
    rw [words_sep ha, words, List.splitOnP_append_cons _ _ ha, List.filter_append, words, words]

theorem words_seps {g : List α} (hg : ∀ a ∈ g, sep a = true) (r : List α) : words sep (g ++ r) = words sep r := by
  induction g with
  | nil => rfl
  | cons a g ih =>
    rw [List.cons_append, words_sep (hg a List.mem_cons_self), ih fun b hb => hg b (List.mem_cons_of_mem a hb)]

/-- separators, and one word behind them -/
theorem words_one {g w : List α} (hg : ∀ a ∈ g, sep a = true) (hw : ∀ a ∈ w, sep a = false) (hne : w ≠ []) :
    words sep (g ++ w) = [w] := by
  rw [words_seps hg, words, List.splitOnP_eq_singleton hw, List.filter_cons_of_pos (by simpa using hne), List.filter_nil]

/-- the run of elements with p that a list begins with -/
theorem exists_run (p : α → Bool) (l : List α) :
    ∃ g r, l = g ++ r ∧ (∀ a ∈ g, p a = true) ∧ ∀ a ∈ r.head?, p a = false := by
  refine ⟨l.takeWhile p, l.dropWhile p, List.takeWhile_append_dropWhile.symm, fun a ha => List.mem_takeWhile_imp ha,
    fun a ha => ?_⟩
  have hhead := List.head?_dropWhile_not p l
  rw [Option.mem_def.1 ha] at hhead
  simpa using hhead

/-- a list that begins with a word -/
theorem exists_word {a : α} (ha : sep a = false) (l : List α) :
    ∃ w r, a :: l = w ++ r ∧ w ≠ [] ∧ (∀ b ∈ w, sep b = false) ∧ ∀ b ∈ r.head?, sep b = true := by
  obtain ⟨w, r, hl, hw, hr⟩ := exists_run (fun b => !sep b) (a :: l)
  refine ⟨w, r, hl, ?_, fun b hb => by simpa using hw b hb, fun b hb => by simpa using hr b hb⟩
  rintro rfl
  have hne := hr a (by rw [← List.nil_append r, ← hl]; rfl)
  rw [ha] at hne
  cases hne

theorem words_pos {a : α} (ha : sep a = false) (l : List α) : 0 < (words sep (a :: l)).length := by
  obtain ⟨w, r, hl, hne, hw, hr⟩ := exists_word ha l
  rw [hl, words_append (Or.inr hr), ← List.nil_append w, words_one (fun _ h => absurd h List.not_mem_nil) hw hne]
  simp

theorem WordAt.append {l r w : List α} {p : ℕ} (h : WordAt sep l p w) (hparts : Parts sep l r) :
    WordAt sep (l ++ r) p w := by
  refine ⟨h.ne_nil, h.no_sep, ?_⟩
  obtain ⟨x, y, rfl, hp, hy⟩ := h.split
  refine ⟨x, y ++ r, by simp, hp, ?_⟩
  rcases hparts with hnil | hr
  · exact absurd (List.append_eq_nil_iff.1 (List.append_eq_nil_iff.1 hnil).2).1 h.ne_nil
  · cases y with
    | nil => exact hr
    | cons b y => exact hy

/-- the last word -/
theorem WordAt.last {w : List α} (l : List α) (hw : ∀ a ∈ w, sep a = false) (hne : w ≠ []) :
    WordAt sep (l ++ w) l.length w :=
  ⟨hne, hw, l, [], by simp, rfl, by simp⟩

end Jos.Words
