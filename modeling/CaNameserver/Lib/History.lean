import CaNameserver.Lib.Transition

/-!
# Systems that remember

What a program has read or counted so far is often not in its state any more, and still what a
claim about it speaks of.  `System.remember` adds it: the state gets a second component, which the
events update and which nothing depends on.

* `Run.remember`, `Reachable.remember`: every run of the system is one of the system that
  remembers.
* `Run.forget`, `Reachable.forget`: and the other way round.
* `Reachable.remembered_of`, `Reachable.remembered`: the invariant rule for a property of the
  state and of what is remembered.
* `Run.since`: a run has a last mark, for a property of the state at the mark, of the events since
  then and of the state they lead to.
-/

namespace Transition

variable {σ ε η : Type*}

/-- A system with a history: `init` is what is remembered at first, `next` what an event adds. -/
def System.remember (S : System σ ε) (init : σ → η) (next : σ → ε → η → η) : System (σ × η) ε where
  init x := S.init x.1 ∧ x.2 = init x.1
  step x e y := S.step x.1 e y.1 ∧ y.2 = next x.1 e x.2

variable {S : System σ ε} {ok : σ → ε → Prop} {init : σ → η} {next : σ → ε → η → η}

/-- Whatever is remembered, the runs are the same. -/
theorem Run.remember {s t : σ} {es : List ε} (h : Run S ok s es t) (g : η) :
    ∃ g', Run (S.remember init next) (fun x e => ok x.1 e) (s, g) es (t, g') := by
  induction h generalizing g with
  | nil s => exact ⟨g, .nil _⟩
  | @cons s t u e es hok hstep _ ih =>
      obtain ⟨g', hrun⟩ := ih (next s e g)
      exact ⟨g', .cons (t := (t, next s e g)) hok ⟨hstep, rfl⟩ hrun⟩

/-- A run that remembers is a run, under any condition that does not. -/
theorem Run.forget {okη : σ × η → ε → Prop} {x y : σ × η} {es : List ε}
    (h : Run (S.remember init next) okη x es y) (hok : ∀ x e, okη x e → ok x.1 e) :
    Run S ok x.1 es y.1 := by
  induction h with
  | nil x => exact .nil _
  | cons hoke hstep _ ih => exact .cons (hok _ _ hoke) hstep.1 ih

/-- A reachable state is reachable with a history. -/
theorem Reachable.remember {s : σ} (h : Reachable S ok s) :
    ∃ g, Reachable (S.remember init next) (fun x e => ok x.1 e) (s, g) := by
  obtain ⟨s₀, es, hinit, hrun⟩ := h
  obtain ⟨g, hrun'⟩ : ∃ g, Run (S.remember init next) (fun x e => ok x.1 e) (s₀, init s₀) es (s, g) :=
    hrun.remember (init s₀)
  exact ⟨g, (s₀, init s₀), es, ⟨hinit, rfl⟩, hrun'⟩

theorem Reachable.forget {okη : σ × η → ε → Prop} {x : σ × η}
    (h : Reachable (S.remember init next) okη x) (hok : ∀ x e, okη x e → ok x.1 e) :
    Reachable S ok x.1 := by
  obtain ⟨x₀, es, hinit, hrun⟩ := h
  exact ⟨x₀.1, es, hinit.1, hrun.forget hok⟩

/-- **The invariant rule with a history**, for a condition on the events that may look at what is
remembered.  `J` is an invariant of the system that is known already. -/
theorem Reachable.remembered_of (ok : σ → ε → Prop) {okη : σ × η → ε → Prop} {I : σ → η → Prop}
    {J : σ → Prop} {s : σ} {g : η} (h : Reachable (S.remember init next) okη (s, g))
    (hok : ∀ x e, okη x e → ok x.1 e)
    (hJ : ∀ s, Reachable S ok s → J s) (hinit : ∀ s, S.init s → J s → I s (init s))
    (hstep : ∀ s e t g, J s → I s g → okη (s, g) e → S.step s e t → I t (next s e g)) : I s g := by
  have hall : Reachable S ok s ∧ I s g := by
    refine Reachable.invariant (I := fun x => Reachable S ok x.1 ∧ I x.1 x.2) h ?_ ?_
    · rintro ⟨s, g⟩ ⟨hs, hg⟩
      change g = init s at hg
      subst hg
      have hreach : Reachable S ok s := ⟨s, [], hs, .nil s⟩
      exact ⟨hreach, hinit s hs (hJ s hreach)⟩
    · rintro ⟨s, g⟩ e ⟨t, g'⟩ ⟨hreach, hI⟩ hoke ⟨hs, hg⟩
      change g' = next s e g at hg
      subst hg
      exact ⟨hreach.run (.cons (hok _ e hoke) hs (.nil t)), hstep s e t g (hJ s hreach) hI hoke hs⟩
  exact hall.2

/-- The same for a condition on the state alone. -/
theorem Reachable.remembered (ok : σ → ε → Prop) {I : σ → η → Prop} {J : σ → Prop} {s : σ} {g : η}
    (h : Reachable (S.remember init next) (fun x e => ok x.1 e) (s, g))
    (hJ : ∀ s, Reachable S ok s → J s) (hinit : ∀ s, S.init s → J s → I s (init s))
    (hstep : ∀ s e t g, J s → I s g → ok s e → S.step s e t → I t (next s e g)) : I s g :=
  Reachable.remembered_of ok h (fun _ _ hok => hok) hJ hinit hstep

/-- **The last mark.**  Each step carries on what has held since the mark, or is a mark itself. -/
theorem Run.since {P : σ → List ε → σ → Prop} {s t : σ} {es : List ε} (hrun : Run S ok s es t)
    (hstep : ∀ m since x e y, P m since x → ok x e → S.step x e y → P m (since ++ [e]) y ∨ P y [] y)
    (hs : P s [] s) :
    ∃ pre since m, es = pre ++ since ∧ Run S ok s pre m ∧ Run S ok m since t ∧ P m since t := by
  refine hrun.history (I := fun es t => ∃ pre since m, es = pre ++ since ∧ Run S ok s pre m ∧
    Run S ok m since t ∧ P m since t) ?_ ⟨[], [], s, rfl, .nil s, .nil s, hs⟩
  rintro _ x e y ⟨pre, since, m, rfl, hpre, hsince, hP⟩ hok hxy
  have hlast : Run S ok m (since ++ [e]) y := hsince.append (.cons hok hxy (.nil y))
  rcases hstep m since x e y hP hok hxy with h | h
  · exact ⟨pre, since ++ [e], m, List.append_assoc _ _ _, hpre, hlast, h⟩
  · refine ⟨pre ++ since ++ [e], [], y, (List.append_nil _).symm, ?_, .nil y, h⟩
    rw [List.append_assoc]
    exact hpre.append hlast

end Transition
