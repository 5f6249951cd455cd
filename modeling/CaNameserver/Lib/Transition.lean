import Mathlib.Tactic.Basic
import Mathlib.Tactic.TypeStar

/-!
# Guarded runs of a transition system

A `System` is a set of initial states and a step relation labelled by events.  A claim about
every run of a program is rarely about *all* its runs: it speaks of the runs whose events meet
some condition (the files are readable, the calls succeed, nothing unexpected is listed).  That
condition may look at the state in which the event arrives, so it is a relation `ok : σ → ε → Prop`
and not a set of events.

* `Run S ok s es s'`: the events `es` lead from `s` to `s'`, and each of them meets `ok` in the
  state it arrives in.
* `Run.append`, `Run.split`: runs compose, and are taken apart.
* `Reachable S ok s`: some such run leads from an initial state to `s`.
* `Run.invariant`: what guarded steps keep, guarded runs keep.
* `Run.history`: the same for a property that also looks at the events so far.
* `Reachable.invariant`: what initial states have and guarded steps keep, reachable states have.
* `Reachable.mono`: a weaker condition on the events allows more runs.
* `Run.of_foldlM`: the runs of a system whose steps a function computes.
-/

namespace Transition

variable {σ ε : Type*}

/-- Initial states and labelled steps. -/
structure System (σ ε : Type*) where
  /-- where a run may begin -/
  init : σ → Prop
  /-- what one event does -/
  step : σ → ε → σ → Prop

/-- A run all of whose events meet the condition `ok` in the state in which they arrive. -/
inductive Run (S : System σ ε) (ok : σ → ε → Prop) : σ → List ε → σ → Prop
  | nil (s : σ) : Run S ok s [] s
  | cons {s t u : σ} {e : ε} {es : List ε} (hok : ok s e) (hstep : S.step s e t)
      (hrest : Run S ok t es u) : Run S ok s (e :: es) u

/-- A state some guarded run leads to. -/
def Reachable (S : System σ ε) (ok : σ → ε → Prop) (s : σ) : Prop :=
  ∃ s₀ es, S.init s₀ ∧ Run S ok s₀ es s

variable {S : System σ ε} {ok ok' : σ → ε → Prop}

/-- What every guarded step keeps, every guarded run keeps. -/
theorem Run.invariant {I : σ → Prop} {s t : σ} {es : List ε} (hrun : Run S ok s es t)
    (hstep : ∀ s e t, I s → ok s e → S.step s e t → I t) (hs : I s) : I t := by
  induction hrun with
  | nil s => exact hs
  | cons hok h _ ih => exact ih (hstep _ _ _ hs hok h)

/-- **The history rule**: an invariant of the state together with the events so far. -/
theorem Run.history {I : List ε → σ → Prop} {s t : σ} {es : List ε} (hrun : Run S ok s es t)
    (hstep : ∀ pre s e t, I pre s → ok s e → S.step s e t → I (pre ++ [e]) t)
    (hs : I [] s) : I es t := by
  suffices H : ∀ pre, I pre s → I (pre ++ es) t from H [] hs
  clear hs
  induction hrun with
  | nil s =>
      intro pre h
      rwa [List.append_nil]
  | @cons s u t e es hok h _ ih =>
      intro pre hpre
      have hnext := ih (pre ++ [e]) (hstep pre s e u hpre hok h)
      rwa [List.append_assoc, List.singleton_append] at hnext

/-- Runs compose. -/
theorem Run.append {s t u : σ} {es fs : List ε} (h₁ : Run S ok s es t) (h₂ : Run S ok t fs u) :
    Run S ok s (es ++ fs) u := by
  induction h₁ with
  | nil s => exact h₂
  | cons hok h _ ih => exact Run.cons hok h (ih h₂)

/-- Runs are taken apart where the events are. -/
theorem Run.split {s u : σ} {es fs : List ε} (h : Run S ok s (es ++ fs) u) :
    ∃ t, Run S ok s es t ∧ Run S ok t fs u := by
  induction es generalizing s with
  | nil => exact ⟨s, .nil s, h⟩
  | cons e es ih =>
      cases h with
      | cons hok hstep hrest =>
          obtain ⟨t, h₁, h₂⟩ := ih hrest
          exact ⟨t, .cons hok hstep h₁, h₂⟩

/-- A run of one event is a step. -/
theorem Run.single {s t : σ} {e : ε} (h : Run S ok s [e] t) : ok s e ∧ S.step s e t := by
  cases h with
  | cons hok hstep hrest =>
      cases hrest
      exact ⟨hok, hstep⟩

/-- A weaker condition on the events admits the same run. -/
theorem Run.mono {s t : σ} {es : List ε} (hrun : Run S ok s es t)
    (hok : ∀ s e, ok s e → ok' s e) : Run S ok' s es t := by
  induction hrun with
  | nil s => exact Run.nil s
  | cons h hs _ ih => exact Run.cons (hok _ _ h) hs ih

/-- A condition that is weaker in the states that have the invariant admits the same run. -/
theorem Run.mono_of_invariant {I : σ → Prop} {s t : σ} {es : List ε} (hrun : Run S ok s es t)
    (hstep : ∀ s e t, I s → S.step s e t → I t)
    (hok : ∀ s e t, I s → S.step s e t → ok s e → ok' s e) (hs : I s) : Run S ok' s es t := by
  induction hrun with
  | nil s => exact Run.nil s
  | cons h hnext _ ih => exact Run.cons (hok _ _ _ hs hnext h) hnext (ih (hstep _ _ _ hs hnext))

theorem Reachable.run {s t : σ} {es : List ε} (h : Reachable S ok s) (hrun : Run S ok s es t) :
    Reachable S ok t := by
  obtain ⟨s₀, es₀, hinit, hrun₀⟩ := h
  exact ⟨s₀, es₀ ++ es, hinit, hrun₀.append hrun⟩

theorem Reachable.mono {s : σ} (h : Reachable S ok s) (hok : ∀ s e, ok s e → ok' s e) :
    Reachable S ok' s := by
  obtain ⟨s₀, es, hinit, hrun⟩ := h
  exact ⟨s₀, es, hinit, hrun.mono hok⟩

/-- **The invariant rule.** -/
theorem Reachable.invariant {I : σ → Prop} {s : σ} (h : Reachable S ok s)
    (hinit : ∀ s, S.init s → I s) (hstep : ∀ s e t, I s → ok s e → S.step s e t → I t) : I s := by
  obtain ⟨s₀, es, hs₀, hrun⟩ := h
  exact hrun.invariant hstep (hinit s₀ hs₀)

/-- Where a function computes guarded steps, its iteration computes guarded runs. -/
theorem Run.of_foldlM {next : σ → ε → Option σ}
    (hnext : ∀ s e t, next s e = some t → ok s e ∧ S.step s e t) {s t : σ} {es : List ε}
    (h : es.foldlM next s = some t) : Run S ok s es t := by
  induction es generalizing s with
  | nil =>
      cases h
      exact .nil _
  | cons e es ih =>
      obtain ⟨u, hu, hrest⟩ := Option.bind_eq_some_iff.mp h
      obtain ⟨hok, hstep⟩ := hnext s e u hu
      exact .cons hok hstep (ih hrest)

end Transition
