import Mathlib.Data.List.Perm.Basic
import Mathlib.Tactic.Basic
import Mathlib.Tactic.TypeStar

/-!
# Rule bases with an order of evaluation

An access file is read as a sequence of rules: some names are denied, some are denied to single
hosts, some are allowed, and an `order` rule says whether the denying rules come before the
allowing ones.  What such a file allows depends on which rules are in it and on its last `order`
rule only.

* `Allows`: a rule base allows something, which `m` says which patterns match, to a host.
* `Allows.congr`: the decision depends on the members and on `denyWins`;
  `allows_append_denyFrom`: rules for other hosts do not matter.
* `forall_allows_iff`: when two rule bases with the same rules decide alike.
* `Rearranged`: moving the lines of a file about and repeating some of them.
* `Rearranged.allows_iff`: such a rearrangement changes no decision, if the lines that are held in
  place are those with `order` rules.
-/

namespace AccessRules

/-- A rule, over hosts and patterns. -/
inductive Rule (η π : Type*) where
  | deny (p : π)
  | denyFrom (h : η) (p : π)
  | allow (p : π)
  | order (denyWins : Bool)
  deriving DecidableEq, Repr

variable {η π α : Type*}

namespace Rule

/-- The pattern of a rule that denies to everyone. -/
def deny? : Rule η π → Option π
  | deny p => some p
  | _ => none

/-- The pattern of a rule that denies to one host. -/
def denyFrom? [DecidableEq η] (h : η) : Rule η π → Option π
  | denyFrom h' p => if h' = h then some p else none
  | _ => none

/-- The pattern of a rule that allows. -/
def allow? : Rule η π → Option π
  | allow p => some p
  | _ => none

/-- The setting of an `order` rule. -/
def order? : Rule η π → Option Bool
  | order o => some o
  | _ => none

/-- The rule denies to some host. -/
def isDenyFrom : Rule η π → Bool
  | denyFrom _ _ => true
  | _ => false

@[simp] theorem deny?_eq_some_iff {r : Rule η π} {p : π} : r.deny? = some p ↔ r = deny p := by
  cases r <;> simp [deny?]

@[simp] theorem allow?_eq_some_iff {r : Rule η π} {p : π} : r.allow? = some p ↔ r = allow p := by
  cases r <;> simp [allow?]

@[simp] theorem denyFrom?_eq_some_iff [DecidableEq η] {h : η} {r : Rule η π} {p : π} :
    r.denyFrom? h = some p ↔ r = denyFrom h p := by
  cases r <;> simp [denyFrom?]

theorem deny?_of_isDenyFrom {r : Rule η π} (h : r.isDenyFrom = true) : r.deny? = none := by
  cases r with
  | denyFrom h p => rfl
  | _ => cases h

theorem allow?_of_isDenyFrom {r : Rule η π} (h : r.isDenyFrom = true) : r.allow? = none := by
  cases r with
  | denyFrom h p => rfl
  | _ => cases h

theorem order?_of_isDenyFrom {r : Rule η π} (h : r.isDenyFrom = true) : r.order? = none := by
  cases r with
  | denyFrom h p => rfl
  | _ => cases h

end Rule

open Rule

/-- Whether denying comes before allowing: what the last `order` rule sets, and so it is if there
is none. -/
def denyWins (rules : List (Rule η π)) : Bool := ((rules.filterMap order?).getLast?).getD true

/-- The rules allow what `m` says which patterns match, on behalf of `host` if one is known. -/
structure Allows (rules : List (Rule η π)) (m : π → Prop) (host : Option η) : Prop where
  /-- no rule for the host denies it -/
  notFrom : ∀ h p, host = some h → denyFrom h p ∈ rules → ¬ m p
  /-- no rule for everyone denies it, where those come first -/
  notDenied : denyWins rules = true → ∀ p, deny p ∈ rules → ¬ m p
  /-- some rule allows it -/
  allowed : ∃ p, allow p ∈ rules ∧ m p

variable {rules rules' : List (Rule η π)} {m : π → Prop} {host : Option η}

/-- The rules that are looked at for a host: those for everyone, and its own. -/
def Concerns (host : Option η) : Rule η π → Prop
  | denyFrom h _ => host = some h
  | order _ => False
  | _ => True

theorem order?_of_concerns {r : Rule η π} (h : Concerns host r) : r.order? = none := by
  cases r with
  | order o => exact h.elim
  | _ => rfl

/-- **Which rules there are for a host and which order is in force** is all that a decision
depends on. -/
theorem Allows.congr (h : Allows rules m host) (hw : denyWins rules' = denyWins rules)
    (hmem : ∀ r : Rule η π, Concerns host r → (r ∈ rules' ↔ r ∈ rules)) :
    Allows rules' m host where
  notFrom x p hx hp := h.notFrom x p hx ((hmem (denyFrom x p) hx).mp hp)
  notDenied hdw p hp := h.notDenied (hw.symm.trans hdw) p ((hmem (deny p) trivial).mp hp)
  allowed := by
    obtain ⟨p, hp, hm⟩ := h.allowed
    exact ⟨p, (hmem (allow p) trivial).mpr hp, hm⟩

theorem allows_congr (hw : denyWins rules' = denyWins rules)
    (hmem : ∀ r : Rule η π, Concerns host r → (r ∈ rules' ↔ r ∈ rules)) :
    Allows rules' m host ↔ Allows rules m host :=
  ⟨fun h => h.congr hw.symm fun r hr => (hmem r hr).symm, fun h => h.congr hw hmem⟩

/-- Rules for other hosts may be left out. -/
theorem allows_append_denyFrom {pre post mid : List (Rule η π)}
    (hmid : ∀ r ∈ mid, ∃ h p, r = denyFrom h p ∧ host ≠ some h) :
    Allows (pre ++ mid ++ post) m host ↔ Allows (pre ++ post) m host := by
  apply allows_congr
  · have hnone : mid.filterMap order? = [] := by
      refine List.filterMap_eq_nil_iff.mpr fun r hr => ?_
      obtain ⟨h, p, rfl, -⟩ := hmid r hr
      rfl
    simp [denyWins, hnone]
  · intro r hr
    have hout : r ∉ mid := by
      intro hmem
      obtain ⟨h, p, rfl, hne⟩ := hmid r hmem
      exact hne hr
    simp [hout]

/-- Some rule for everyone denies what another one allows. -/
def Conflict (rules : List (Rule η π)) (m : π → Prop) : Prop :=
  (∃ p, deny p ∈ rules ∧ m p) ∧ ∃ p, allow p ∈ rules ∧ m p

theorem Allows.congr_of_not_conflict (h : Allows rules m host)
    (hmem : ∀ r : Rule η π, r.order? = none → (r ∈ rules' ↔ r ∈ rules))
    (hno : ¬ Conflict rules m) : Allows rules' m host where
  notFrom x p hx hp := h.notFrom x p hx ((hmem _ rfl).mp hp)
  notDenied _ p hp hm := hno ⟨⟨p, (hmem _ rfl).mp hp, hm⟩, h.allowed⟩
  allowed := by
    obtain ⟨p, hp, hm⟩ := h.allowed
    exact ⟨p, (hmem _ rfl).mpr hp, hm⟩

theorem not_allows_of_conflict (hw : denyWins rules = true) (h : Conflict rules m) :
    ¬ Allows rules m host := by
  obtain ⟨⟨p, hp, hm⟩, -⟩ := h
  exact fun ha => ha.notDenied hw p hp hm

/-- Where allowing comes first, what is allowed is allowed to a host without rules of its own. -/
theorem allows_none_of_conflict (hw : denyWins rules = false) (h : Conflict rules m) :
    Allows rules m none where
  notFrom _ _ hx := nomatch hx
  notDenied hdw := by
    rw [hw] at hdw
    cases hdw
  allowed := h.2

/-- **Two rule bases with the same rules** decide alike exactly if the same order is in force or
no rule for everyone denies what another one allows. -/
theorem forall_allows_iff (hmem : ∀ r : Rule η π, r.order? = none → (r ∈ rules' ↔ r ∈ rules)) :
    (∀ host, Allows rules' m host ↔ Allows rules m host) ↔
      denyWins rules' = denyWins rules ∨ ¬ Conflict rules m := by
  have hconflict : Conflict rules' m ↔ Conflict rules m := by
    simp only [Conflict, hmem _ (show Rule.order? (deny _) = none from rfl),
      hmem _ (show Rule.order? (allow _) = none from rfl)]
  constructor
  · intro h
    by_contra hcon
    rw [not_or, not_not] at hcon
    obtain ⟨hne, hc⟩ := hcon
    cases hw : denyWins rules with
    | true =>
        have hw' : denyWins rules' = false := by simpa [hw] using hne
        exact not_allows_of_conflict hw hc
          ((h none).mp (allows_none_of_conflict hw' (hconflict.mpr hc)))
    | false =>
        have hw' : denyWins rules' = true := by simpa [hw] using hne
        exact not_allows_of_conflict hw' (hconflict.mpr hc)
          ((h none).mpr (allows_none_of_conflict hw hc))
  · rintro (hw | hno) host
    · exact allows_congr hw fun r hr => hmem r (order?_of_concerns hr)
    · exact ⟨fun h => h.congr_of_not_conflict (fun r hr => (hmem r hr).symm)
        (hconflict.not.mpr hno), fun h => h.congr_of_not_conflict hmem hno⟩

/-- Rules of one kind each, the same as often, are the same rules. -/
theorem mem_iff_of_perm [DecidableEq η]
    (hdeny : (rules.filterMap deny?).Perm (rules'.filterMap deny?))
    (hallow : (rules.filterMap allow?).Perm (rules'.filterMap allow?))
    (hfrom : ∀ h, (rules.filterMap (denyFrom? h)).Perm (rules'.filterMap (denyFrom? h)))
    (r : Rule η π) (hr : r.order? = none) : r ∈ rules' ↔ r ∈ rules := by
  cases r with
  | deny p => simpa using (hdeny.mem_iff (a := p)).symm
  | denyFrom h p => simpa using ((hfrom h).mem_iff (a := p)).symm
  | allow p => simpa using (hallow.mem_iff (a := p)).symm
  | order o => cases hr

/-- What each line has, and what it is short of, adds up over a file. -/
theorem perm_flatMap_filterMap {β : Type*} {l : List α} {f g : α → List (Rule η π)}
    {k : Rule η π → Option β} {u v : α → Option β}
    (h : ∀ a ∈ l, ((f a).filterMap k ++ (u a).toList).Perm ((g a).filterMap k ++ (v a).toList)) :
    ((l.flatMap f).filterMap k ++ l.filterMap u).Perm
      ((l.flatMap g).filterMap k ++ l.filterMap v) := by
  have hsum : ∀ (f : α → List (Rule η π)) (u : α → Option β),
      ((l.flatMap f).filterMap k ++ l.filterMap u).Perm
        (l.flatMap fun a => (f a).filterMap k ++ (u a).toList) := by
    intro f u
    rw [List.filterMap_flatMap, List.filterMap_eq_flatMap_toList (l := l)]
    exact List.flatMap_append_perm ..
  exact ((hsum f u).trans (List.Perm.flatMap_left l h)).trans (hsum g v).symm

/-! ## Rearrangements -/

/-- The lines of a file are moved about, those that are `fixed` keeping their relative order, and
lines that are not `fixed` are repeated. -/
inductive Rearranged (fixed : α → Bool) : List α → List α → Prop
  | perm {l l' : List α} (h : l.Perm l') (hf : l.filter fixed = l'.filter fixed) :
      Rearranged fixed l l'
  | duplicate {l : List α} {a : α} (h : a ∈ l) (ha : fixed a = false) : Rearranged fixed l (a :: l)
  | trans {l₁ l₂ l₃ : List α} (h : Rearranged fixed l₁ l₂) (h' : Rearranged fixed l₂ l₃) :
      Rearranged fixed l₁ l₃

variable {fixed : α → Bool} {l l' : List α}

theorem Rearranged.mem_iff (h : Rearranged fixed l l') (a : α) : a ∈ l' ↔ a ∈ l := by
  induction h with
  | perm h _ => exact h.mem_iff.symm
  | duplicate h _ =>
      rw [List.mem_cons]
      constructor
      · rintro (rfl | ha)
        · exact h
        · exact ha
      · exact Or.inr
  | trans _ _ ih ih' => exact ih'.trans ih

theorem Rearranged.filter_eq (h : Rearranged fixed l l') : l'.filter fixed = l.filter fixed := by
  induction h with
  | perm _ hf => exact hf.symm
  | duplicate _ ha => rw [List.filter_cons, if_neg (by simp [ha])]
  | trans _ _ ih ih' => exact ih'.trans ih

/-- Lines without an `order` rule do not matter for the order. -/
theorem filterMap_order_flatMap {f : α → List (Rule η π)}
    (hf : ∀ a ∈ l, fixed a = false → ∀ r ∈ f a, r.order? = none) :
    (l.flatMap f).filterMap order? = ((l.filter fixed).flatMap f).filterMap order? := by
  induction l with
  | nil => rfl
  | cons a l ih =>
      have ih' := ih fun b hb => hf b (List.mem_cons_of_mem a hb)
      rw [List.flatMap_cons, List.filterMap_append, ih', List.filter_cons]
      split_ifs with ha
      · rw [List.flatMap_cons, List.filterMap_append]
      · have hnone : (f a).filterMap order? = [] :=
          List.filterMap_eq_nil_iff.mpr (hf a (List.mem_cons_self ..) (by simpa using ha))
        rw [hnone, List.nil_append]

/-- **A rearrangement changes no decision.** -/
theorem Rearranged.allows_iff {f : α → List (Rule η π)} (h : Rearranged fixed l l')
    (hf : ∀ a ∈ l, fixed a = false → ∀ r ∈ f a, r.order? = none) :
    Allows (l'.flatMap f) m host ↔ Allows (l.flatMap f) m host := by
  have hf' : ∀ a ∈ l', fixed a = false → ∀ r ∈ f a, r.order? = none := by
    intro a ha
    exact hf a ((h.mem_iff a).mp ha)
  apply allows_congr
  · rw [denyWins, denyWins, filterMap_order_flatMap hf', filterMap_order_flatMap hf, h.filter_eq]
  · intro r _
    simp only [List.mem_flatMap, h.mem_iff]

end AccessRules
