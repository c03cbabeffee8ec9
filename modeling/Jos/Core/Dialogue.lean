/-
Dialogues: a state from which symbols are read, `get : S → Option (α × S)`, and which takes symbols, `put : β → S → S`.

Where the two do not get in each other's way (`Separate`), a program that reads and answers leaves the state in which
everything has been read, fed with everything that was answered. What it answers is then that of a machine over the
symbols alone, a `Transducer`, whatever the state does to come by them.
-/
import Jos.Core.Loop
import Jos.Core.Sink

namespace Jos.Dialogue

open Loop (Runs Gives)
open Sink (feed)

variable {S α β τ ε : Type}

/-! ## Machines over symbols -/

/-- a machine that answers each symbol -/
structure Transducer (α β τ : Type) where
  next : α → τ → τ
  sends : α → τ → List β

namespace Transducer

def state (T : Transducer α β τ) (l : List α) (t : τ) : τ := l.foldl (fun t a => T.next a t) t

def out (T : Transducer α β τ) : List α → τ → List β
  | [], _ => []
  | a :: l, t => T.sends a t ++ T.out l (T.next a t)

theorem state_append (T : Transducer α β τ) (l l' : List α) (t : τ) : T.state (l ++ l') t = T.state l' (T.state l t) :=
  List.foldl_append

theorem out_append (T : Transducer α β τ) (l l' : List α) (t : τ) :
    T.out (l ++ l') t = T.out l t ++ T.out l' (T.state l t) := by
  induction l generalizing t with
  | nil => rfl
  | cons a l ih =>
    rw [List.cons_append, out, out, ih, List.append_assoc]
    rfl

end Transducer

/-! ## Reading and writing -/

/-- the symbols l are read one by one, from s to s' -/
inductive Reads (get : S → Option (α × S)) : List α → S → S → Prop where
  | nil (s : S) : Reads get [] s s
  | cons {a : α} {l : List α} {s s₁ s' : S} (h : get s = some (a, s₁)) (hr : Reads get l s₁ s') : Reads get (a :: l) s s'

/-- on the states of I, what is put does not change what is read, nor the other way round -/
structure Separate (get : S → Option (α × S)) (put : β → S → S) (I : S → Prop) : Prop where
  get_inv : ∀ s a s', I s → get s = some (a, s') → I s'
  put_inv : ∀ s b, I s → I (put b s)
  get_put : ∀ s b, I s → get (put b s) = (get s).map fun r => (r.1, put b r.2)

variable {get : S → Option (α × S)} {put : β → S → S} {I : S → Prop}

theorem Reads.split {l l' : List α} {s s' : S} (h : Reads get (l ++ l') s s') :
    ∃ s₁, Reads get l s s₁ ∧ Reads get l' s₁ s' := by
  induction l generalizing s with
  | nil => exact ⟨s, .nil s, h⟩
  | cons a l ih =>
    cases h with
    | cons hget hr =>
      obtain ⟨s₁, h₁, h₂⟩ := ih hr
      exact ⟨s₁, .cons hget h₁, h₂⟩

theorem Reads.inv {l : List α} {s s' : S} (hS : Separate get put I) (hI : I s) (h : Reads get l s s') : I s' := by
  induction h with
  | nil => exact hI
  | cons hget _ ih => exact ih (hS.get_inv _ _ _ hI hget)

namespace Separate

variable (hS : Separate get put I)

include hS

theorem get_feed {s : S} (hI : I s) (t : List β) :
    get (feed put s t) = (get s).map fun r => (r.1, feed put r.2 t) := by
  induction t generalizing s with
  | nil =>
    rw [Sink.feed_nil]
    cases get s with
    | none => rfl
    | some r => rfl
  | cons b t ih =>
    rw [Sink.feed_cons, ih (hS.put_inv s b hI), hS.get_put s b hI, Option.map_map]
    rfl

theorem get_feed_some {s s' : S} {a : α} (hI : I s) (h : get s = some (a, s')) (t : List β) :
    get (feed put s t) = some (a, feed put s' t) := by
  rw [hS.get_feed hI, h]
  rfl

theorem get_feed_none {s : S} (hI : I s) (h : get s = none) (t : List β) : get (feed put s t) = none := by
  rw [hS.get_feed hI, h]
  rfl

end Separate

/-! ## Beside a component that neither uses -/

variable {P : Type}

def getBeside (get : S → Option (α × S)) (s : S × P) : Option (α × (S × P)) :=
  (get s.1).map fun r => (r.1, r.2, s.2)

def putBeside (put : β → S → S) (b : β) (s : S × P) : S × P := (put b s.1, s.2)

theorem feed_putBeside (put : β → S → S) (s : S) (p : P) (t : List β) :
    feed (putBeside put) (s, p) t = (feed put s t, p) := by
  induction t generalizing s with
  | nil => rfl
  | cons b t ih => exact ih (put b s)

theorem Reads.beside {l : List α} {s s' : S} (h : Reads get l s s') (p : P) :
    Reads (getBeside get) l (s, p) (s', p) := by
  induction h with
  | nil s => exact .nil (s, p)
  | cons hget _ ih =>
    refine .cons ?_ ih
    rw [getBeside, hget]
    rfl

theorem Separate.beside (hS : Separate get put I) :
    Separate (getBeside get) (putBeside put) (fun s : S × P => I s.1) where
  get_inv := by
    intro s a s' hI hget
    obtain ⟨r, hr, hs⟩ := Option.map_eq_some_iff.1 hget
    cases hs
    exact hS.get_inv s.1 r.1 r.2 hI hr
  put_inv s b hI := hS.put_inv s.1 b hI
  get_put := by
    intro s b hI
    show (get (put b s.1)).map _ = ((get s.1).map _).map _
    rw [hS.get_put s.1 b hI, Option.map_map, Option.map_map]
    rfl

end Jos.Dialogue
