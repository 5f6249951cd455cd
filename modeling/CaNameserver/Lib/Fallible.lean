import Mathlib.Tactic.Basic
import Mathlib.Tactic.TypeStar

/-!
# Computations that may go wrong

A program in a language with undefined behaviour is modelled by functions into `Except ε`: `ok`
is a defined outcome, `error` an execution that has none.  This file has the rules with which
such functions are taken apart.

* `bind_eq_ok_iff`, `bind_eq_error_iff`: the inversion rules of sequencing.
* `deref`: following a pointer that may dangle.
* `foldlM_prefix_induct`, `foldlM_induct`: a loop over a list keeps what its body keeps.
* `foldlM_ne_error`: a loop whose body cannot go wrong in a certain way does not.
* `Defined`: a computation that does not go wrong at all, with its rules for sequences and loops;
  `defined_foldlM_iff` says exactly when a loop is.
* `Simulates`: two computations go wrong together, or end in related states; with the same rules.
-/

namespace Fallible

universe u

variable {ε α β : Type u}

/-- A sequence is defined exactly when its first part is and its second part is from there. -/
theorem bind_eq_ok_iff {x : Except ε α} {f : α → Except ε β} {b : β} :
    (x >>= f) = .ok b ↔ ∃ a, x = .ok a ∧ f a = .ok b := by
  cases x with
  | error e =>
      constructor
      · intro h
        cases h
      · rintro ⟨_, h, _⟩
        cases h
  | ok a =>
      constructor
      · intro h
        exact ⟨a, rfl, h⟩
      · rintro ⟨_, h, h'⟩
        cases h
        exact h'

/-- A sequence goes wrong when its first part does, or its second part does after it. -/
theorem bind_eq_error_iff {x : Except ε α} {f : α → Except ε β} {e : ε} :
    (x >>= f) = .error e ↔ x = .error e ∨ ∃ a, x = .ok a ∧ f a = .error e := by
  cases x with
  | error e' =>
      constructor
      · intro h
        cases h
        exact Or.inl rfl
      · rintro (h | ⟨_, h, _⟩)
        · cases h
          rfl
        · cases h
  | ok a =>
      constructor
      · intro h
        exact Or.inr ⟨a, rfl, h⟩
      · rintro (h | ⟨_, h, h'⟩)
        · cases h
        · cases h
          exact h'

theorem ok_bind (a : α) (f : α → Except ε β) : (.ok a >>= f) = f a := rfl

theorem pure_eq_ok_iff {a b : α} : (pure a : Except ε α) = .ok b ↔ b = a := by
  constructor
  · intro h
    cases h
    rfl
  · rintro rfl
    rfl

theorem toOption_eq_some_iff {x : Except ε α} {a : α} : x.toOption = some a ↔ x = .ok a := by
  cases x with
  | error e =>
      constructor
      · intro h
        cases h
      · intro h
        cases h
  | ok b => exact ⟨fun h => congrArg Except.ok (Option.some.inj h), fun h => by cases h; rfl⟩

/-- Follow a pointer: `none` stands for storage that is not there. -/
def deref (o : Option α) (e : ε) : Except ε α :=
  match o with
  | some a => .ok a
  | none => .error e

@[simp] theorem deref_some (a : α) (e : ε) : deref (some a) e = .ok a := rfl

theorem deref_eq_ok_iff {o : Option α} {e : ε} {a : α} : deref o e = .ok a ↔ o = some a := by
  cases o <;> simp [deref]

theorem deref_eq_error_iff {o : Option α} {e e' : ε} :
    deref o e = .error e' ↔ o = none ∧ e = e' := by
  cases o <;> simp [deref]

/-- **The loop rule**, with the part of the list already done. -/
theorem foldlM_prefix_induct {P : List α → β → Prop} {f : β → α → Except ε β} {l : List α}
    {b b' : β} (h : l.foldlM f b = .ok b') (hb : P [] b)
    (hf : ∀ pre a post b b', l = pre ++ a :: post → P pre b → f b a = .ok b' →
      P (pre ++ [a]) b') : P l b' := by
  suffices H : ∀ post pre b, l = pre ++ post → P pre b → post.foldlM f b = .ok b' → P l b' from
    H l [] b rfl hb h
  intro post
  induction post with
  | nil =>
      intro pre b hl hP hb'
      cases hb'
      rwa [hl, List.append_nil]
  | cons a post ih =>
      intro pre b hl hP hb'
      rw [List.foldlM_cons, bind_eq_ok_iff] at hb'
      obtain ⟨b₁, hb₁, hrest⟩ := hb'
      exact ih (pre ++ [a]) b₁ (by rw [hl, List.append_assoc, List.singleton_append])
        (hf pre a post b b₁ hl hP hb₁) hrest

/-- Where nothing is listed twice, an element is not in the part of the list already done. -/
theorem not_mem_done {l pre post : List α} {a : α} (hnd : l.Nodup) (hl : l = pre ++ a :: post) :
    a ∉ pre := by
  rw [hl, List.nodup_append] at hnd
  exact fun ha => hnd.2.2 a ha a (List.mem_cons_self ..) rfl

/-- The places of a list with one element more are those it had, and the new one. -/
theorem exists_split_concat_iff {R : List α → α → Prop} {l : List α} {x : α} :
    (∃ pre a post, l ++ [x] = pre ++ a :: post ∧ R pre a) ↔
      (∃ pre a post, l = pre ++ a :: post ∧ R pre a) ∨ R l x := by
  constructor
  · rintro ⟨pre, a, post, hl, hR⟩
    rcases List.eq_nil_or_concat post with rfl | ⟨post', y, rfl⟩
    · obtain ⟨rfl, hx⟩ := List.append_inj' hl rfl
      cases hx
      exact Or.inr hR
    · rw [List.concat_eq_append, ← List.cons_append, ← List.append_assoc] at hl
      exact Or.inl ⟨pre, a, post', (List.append_inj' hl rfl).1, hR⟩
  · rintro (⟨pre, a, post, rfl, hR⟩ | hR)
    · exact ⟨pre, a, post ++ [x], by rw [List.append_assoc, List.cons_append], hR⟩
    · exact ⟨l, x, [], rfl, hR⟩

/-- What the body of a loop keeps, the loop keeps. -/
theorem foldlM_induct {P : β → Prop} {f : β → α → Except ε β} {l : List α} {b b' : β}
    (h : l.foldlM f b = .ok b') (hb : P b)
    (hf : ∀ a ∈ l, ∀ b b', P b → f b a = .ok b' → P b') : P b' := by
  refine foldlM_prefix_induct (P := fun _ b => P b) h hb fun pre a post b b' hl hP hb' => ?_
  exact hf a (by rw [hl]; exact List.mem_append_right _ (List.mem_cons_self ..)) b b' hP hb'

/-- A loop goes wrong in a way `e` only if its body does, at a state the loop keeps. -/
theorem foldlM_ne_error {P : List α → β → Prop} {f : β → α → Except ε β} {l : List α} {b : β}
    {e : ε} (hb : P [] b)
    (hf : ∀ pre a post b b', l = pre ++ a :: post → P pre b → f b a = .ok b' → P (pre ++ [a]) b')
    (he : ∀ pre a post b, l = pre ++ a :: post → P pre b → f b a ≠ .error e) :
    l.foldlM f b ≠ .error e := by
  suffices H : ∀ post pre b, l = pre ++ post → P pre b → post.foldlM f b ≠ .error e from
    H l [] b rfl hb
  intro post
  induction post with
  | nil => exact fun _ _ _ _ h => nomatch h
  | cons a post ih =>
      intro pre b hl hP
      rw [List.foldlM_cons, Ne, bind_eq_error_iff]
      rintro (h | ⟨b₁, hb₁, hrest⟩)
      · exact he pre a post b hl hP h
      · exact ih (pre ++ [a]) b₁ (by rw [hl, List.append_assoc, List.singleton_append])
          (hf pre a post b b₁ hl hP hb₁) hrest

/-! ## Computations that do not go wrong -/

/-- The computation has a defined outcome. -/
def Defined (x : Except ε α) : Prop := ∃ a, x = .ok a

theorem Defined.ok (a : α) : Defined (.ok a : Except ε α) := ⟨a, rfl⟩

/-- A sequence is defined if its first part is and its second part is from there. -/
theorem Defined.bind {x : Except ε α} {f : α → Except ε β} (hx : Defined x)
    (hf : ∀ a, x = .ok a → Defined (f a)) : Defined (x >>= f) := by
  obtain ⟨a, ha⟩ := hx
  obtain ⟨b, hb⟩ := hf a ha
  exact ⟨b, bind_eq_ok_iff.mpr ⟨a, ha, hb⟩⟩

/-- A sequence is defined exactly when its second part is from where its first part ends. -/
theorem defined_bind_iff {x : Except ε α} {f : α → Except ε β} :
    Defined (x >>= f) ↔ ∃ a, x = .ok a ∧ Defined (f a) := by
  constructor
  · rintro ⟨b, hb⟩
    obtain ⟨a, ha, hfa⟩ := bind_eq_ok_iff.mp hb
    exact ⟨a, ha, b, hfa⟩
  · rintro ⟨a, rfl, hfa⟩
    exact hfa

theorem defined_bind_ok_iff {x : Except ε α} {f : α → β} :
    Defined (x >>= fun a => .ok (f a)) ↔ Defined x := by
  rw [defined_bind_iff]
  exact exists_congr fun a => and_iff_left (.ok (f a))

/-- A loop is defined if its body is, at the states the loop keeps. -/
theorem Defined.foldlM {P : List α → β → Prop} {f : β → α → Except ε β} {l : List α} {b : β}
    (hb : P [] b)
    (hf : ∀ pre a post b b', l = pre ++ a :: post → P pre b → f b a = .ok b' → P (pre ++ [a]) b')
    (hd : ∀ pre a post b, l = pre ++ a :: post → P pre b → Defined (f b a)) :
    Defined (l.foldlM f b) := by
  suffices H : ∀ post pre b, l = pre ++ post → P pre b → Defined (post.foldlM f b) from
    H l [] b rfl hb
  intro post
  induction post with
  | nil => exact fun _ b _ _ => ⟨b, rfl⟩
  | cons a post ih =>
      intro pre b hl hP
      rw [List.foldlM_cons]
      refine (hd pre a post b hl hP).bind fun b₁ hb₁ => ?_
      exact ih (pre ++ [a]) b₁ (by rw [hl, List.append_assoc, List.singleton_append])
        (hf pre a post b b₁ hl hP hb₁)

/-- **When a loop is defined**: where `P` is what it keeps and `Q` says when its body is defined
there, it is if `Q` holds at every place of the list. -/
theorem defined_foldlM_iff {P : List α → β → Prop} {Q : List α → α → Prop}
    {f : β → α → Except ε β} {l : List α} {b : β} (hb : P [] b)
    (hf : ∀ pre a post b b', l = pre ++ a :: post → P pre b → f b a = .ok b' → P (pre ++ [a]) b')
    (hQ : ∀ pre a post b, l = pre ++ a :: post → P pre b → (Defined (f b a) ↔ Q pre a)) :
    Defined (l.foldlM f b) ↔ ∀ pre a post, l = pre ++ a :: post → Q pre a := by
  constructor
  · rintro ⟨b', hb'⟩ pre a post hl
    rw [hl, List.foldlM_append, bind_eq_ok_iff] at hb'
    obtain ⟨b₁, hpre, hrest⟩ := hb'
    rw [List.foldlM_cons, bind_eq_ok_iff] at hrest
    obtain ⟨b₂, hb₂, -⟩ := hrest
    have hP : P pre b₁ := by
      refine foldlM_prefix_induct hpre hb fun pre' a' post' c c' hl' hP hc => ?_
      refine hf pre' a' (post' ++ a :: post) c c' ?_ hP hc
      rw [hl, hl', List.append_assoc, List.cons_append]
    exact (hQ pre a post b₁ hl hP).mp ⟨b₂, hb₂⟩
  · intro hall
    exact .foldlM hb hf fun pre a post b hl hP => (hQ pre a post b hl hP).mpr (hall pre a post hl)

/-- The same, where neither depends on the place. -/
theorem defined_foldlM_iff_forall {P : β → Prop} {Q : α → Prop} {f : β → α → Except ε β}
    {l : List α} {b : β} (hb : P b) (hf : ∀ a ∈ l, ∀ b b', P b → f b a = .ok b' → P b')
    (hQ : ∀ a ∈ l, ∀ b, P b → (Defined (f b a) ↔ Q a)) :
    Defined (l.foldlM f b) ↔ ∀ a ∈ l, Q a := by
  have hmem : ∀ {pre a post}, l = pre ++ a :: post → a ∈ l := by
    rintro pre a post rfl
    exact List.mem_append_right _ (List.mem_cons_self ..)
  rw [defined_foldlM_iff (P := fun _ => P) (Q := fun _ => Q) hb
    (fun pre a post b b' hl => hf a (hmem hl) b b') fun pre a post b hl => hQ a (hmem hl) b]
  constructor
  · intro hall a ha
    obtain ⟨pre, post, hl⟩ := List.append_of_mem ha
    exact hall pre a post hl
  · exact fun hall pre a post hl => hall a (hmem hl)

/-! ## Two computations -/

/-- One computation does what the other one does, its states and errors being seen through `R` and
`f`. -/
inductive Simulates {ε' : Type u} (R : α → β → Prop) (f : ε → ε') :
    Except ε' α → Except ε β → Prop
  | ok {a : α} {b : β} (h : R a b) : Simulates R f (.ok a) (.ok b)
  | error (e : ε) : Simulates R f (.error (f e)) (.error e)

section Simulates

variable {α' β' ε' γ : Type u} {R : α → β → Prop} {S : α' → β' → Prop} {f : ε → ε'}

theorem Simulates.bind {x : Except ε' α} {y : Except ε β} {g : α → Except ε' α'}
    {h : β → Except ε β'} (hxy : Simulates R f x y)
    (hgh : ∀ a b, R a b → Simulates S f (g a) (h b)) : Simulates S f (x >>= g) (y >>= h) := by
  cases hxy with
  | ok hR => exact hgh _ _ hR
  | error e => exact .error e

/-- A loop simulates another one over the same list if its body does. -/
theorem Simulates.foldlM {F : α → γ → Except ε' α} {G : β → γ → Except ε β} {l : List γ} {a : α}
    {b : β} (hab : R a b)
    (hFG : ∀ x ∈ l, ∀ a b, R a b → Simulates R f (F a x) (G b x)) :
    Simulates R f (l.foldlM F a) (l.foldlM G b) := by
  induction l generalizing a b with
  | nil => exact .ok hab
  | cons x l ih =>
      rw [List.foldlM_cons, List.foldlM_cons]
      refine (hFG x (List.mem_cons_self ..) a b hab).bind fun a' b' hab' => ?_
      exact ih hab' fun y hy => hFG y (List.mem_cons_of_mem x hy)

end Simulates

end Fallible
