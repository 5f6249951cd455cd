import CaNameserver.Lib.Fallible
import Mathlib.Logic.Function.Basic

/-!
# Deleting objects one after the other

A heap is a partial map from addresses to live objects.  `deleteAll` deletes the objects of a list
of addresses; an address at which nothing is alive is an error.

* `deleteAll_eq_ok`: it succeeds on distinct live addresses, and leaves the other objects.
* `deleteAll_all`: if these are all the live ones, nothing is left.
-/

namespace Fallible

universe u

variable {ε κ α : Type u} [DecidableEq κ]

/-- Delete the objects of a list of addresses. -/
def deleteAll (err : ε) (heap : κ → Option α) (l : List κ) : Except ε (κ → Option α) :=
  l.foldlM (fun heap k => do
    let _ ← deref (heap k) err
    return Function.update heap k none) heap

theorem deleteAll_cons (err : ε) {heap : κ → Option α} {k : κ} {a : α} (hk : heap k = some a)
    (l : List κ) :
    deleteAll err heap (k :: l) = deleteAll err (Function.update heap k none) l := by
  rw [deleteAll, List.foldlM_cons, hk]
  rfl

/-- Distinct live objects can be deleted. -/
theorem deleteAll_eq_ok (err : ε) {heap : κ → Option α} {l : List κ} (hnd : l.Nodup)
    (hlive : ∀ k ∈ l, heap k ≠ none) :
    deleteAll err heap l = .ok fun k => if k ∈ l then none else heap k := by
  induction l generalizing heap with
  | nil =>
      refine congrArg Except.ok (funext fun k => ?_)
      rw [if_neg List.not_mem_nil]
  | cons k l ih =>
      obtain ⟨hkl, hnd⟩ := List.nodup_cons.mp hnd
      obtain ⟨a, ha⟩ := Option.ne_none_iff_exists'.mp (hlive k (List.mem_cons_self ..))
      have hlive' : ∀ x ∈ l, Function.update heap k none x ≠ none := by
        intro x hx
        have hxk : x ≠ k := fun hxk => hkl (hxk ▸ hx)
        rw [Function.update_of_ne hxk]
        exact hlive x (List.mem_cons_of_mem _ hx)
      rw [deleteAll_cons err ha, ih hnd hlive']
      refine congrArg Except.ok (funext fun x => ?_)
      by_cases hx : x = k
      · simp [hx]
      · simp [hx]

/-- If all live objects are deleted, nothing is left. -/
theorem deleteAll_all (err : ε) {heap : κ → Option α} {l : List κ} (hnd : l.Nodup)
    (hlive : ∀ k, k ∈ l ↔ heap k ≠ none) : deleteAll err heap l = .ok fun _ => none := by
  rw [deleteAll_eq_ok err hnd fun k hk => (hlive k).mp hk]
  refine congrArg Except.ok (funext fun k => ?_)
  by_cases hk : k ∈ l
  · rw [if_pos hk]
  · rw [if_neg hk]
    exact not_not.mp fun hne => hk ((hlive k).mpr hne)

end Fallible
