import CaNameserver.Lib.Fallible
import Mathlib.Data.List.Perm.Basic
import Mathlib.Logic.Function.Basic

/-!
# Objects that are allocated and deleted

An `Arena` holds the live objects of a type under their addresses, which are not given out again.
The containers of a program own objects: an object that is on no list is lost, one that is on two
lists is deleted twice.  `Arena.Owned h l` says that neither is the case: `l` lists every live
object, and lists it once.

* `Owned.alloc`, `Owned.delete`, `Owned.write`, `Owned.perm`: what the operations do to ownership.
* `Arena.deleteAll`, `Owned.deleteAll`: the objects of a list are deleted one after the other by a
  destructor that may look at other storage; if they are owned this goes well, and the others
  stay.
* `Arena.values`: the objects of a list.
-/

namespace Fallible

universe u

/-- Live objects, and the next address. -/
structure Arena (α : Type u) where
  objs : ℕ → Option α
  next : ℕ

namespace Arena

variable {ε α : Type u}

def empty : Arena α := ⟨fun _ => none, 0⟩

/-- A new object, at the address `next`. -/
def alloc (h : Arena α) (a : α) : Arena α := ⟨Function.update h.objs h.next (some a), h.next + 1⟩

/-- Overwrite an object. -/
def write (h : Arena α) (k : ℕ) (a : α) : Arena α :=
  { h with objs := Function.update h.objs k (some a) }

def delete (h : Arena α) (k : ℕ) : Arena α := { h with objs := Function.update h.objs k none }

/-- Run the destructor of a live object, and delete it. -/
def deleteOne (err : ε) (dtor : α → Except ε PUnit) (h : Arena α) (k : ℕ) : Except ε (Arena α) := do
  let a ← deref (h.objs k) err
  dtor a
  return h.delete k

/-- Delete the objects of a list, the first one first. -/
def deleteAll (err : ε) (dtor : α → Except ε PUnit) (h : Arena α) (l : List ℕ) :
    Except ε (Arena α) := l.foldlM (deleteOne err dtor) h

/-- The objects of a list of addresses. -/
def values (h : Arena α) (l : List ℕ) : List α := l.filterMap h.objs

variable {h h' : Arena α} {a : α} {k : ℕ} {l l' : List ℕ}

@[simp] theorem alloc_self (h : Arena α) (a : α) : (h.alloc a).objs h.next = some a :=
  Function.update_self ..

theorem alloc_of_ne (hk : k ≠ h.next) : (h.alloc a).objs k = h.objs k := Function.update_of_ne hk ..

@[simp] theorem write_self (h : Arena α) (k : ℕ) (a : α) : (h.write k a).objs k = some a :=
  Function.update_self ..

theorem write_of_ne {x : ℕ} (hx : x ≠ k) : (h.write k a).objs x = h.objs x :=
  Function.update_of_ne hx ..

@[simp] theorem delete_self (h : Arena α) (k : ℕ) : (h.delete k).objs k = none :=
  Function.update_self ..

theorem delete_of_ne {x : ℕ} (hx : x ≠ k) : (h.delete k).objs x = h.objs x :=
  Function.update_of_ne hx ..

/-- Every live object is on the list, once. -/
structure Owned (h : Arena α) (l : List ℕ) : Prop where
  nodup : l.Nodup
  live : ∀ k, k ∈ l ↔ h.objs k ≠ none
  lt : ∀ k ∈ l, k < h.next

theorem Owned.empty : Owned (empty : Arena α) [] where
  nodup := List.nodup_nil
  live _ := ⟨fun hk => absurd hk List.not_mem_nil, fun hk => absurd rfl hk⟩
  lt _ hk := absurd hk List.not_mem_nil

theorem Owned.perm (ho : Owned h l) (hp : l.Perm l') : Owned h l' where
  nodup := hp.nodup_iff.mp ho.nodup
  live k := hp.mem_iff.symm.trans (ho.live k)
  lt k hk := ho.lt k (hp.mem_iff.mpr hk)

theorem Owned.next_not_mem (ho : Owned h l) : h.next ∉ l := 
  fun hmem => Nat.lt_irrefl _ (ho.lt _ hmem)

/-- What is allocated goes to the list. -/
theorem Owned.alloc (ho : Owned h l) (a : α) : Owned (h.alloc a) (h.next :: l) where
  nodup := List.nodup_cons.mpr ⟨ho.next_not_mem, ho.nodup⟩
  live k := by
    by_cases hk : k = h.next
    · subst hk
      simp
    · rw [alloc_of_ne hk, ← ho.live k, List.mem_cons]
      exact or_iff_right hk
  lt k hk := by
    rcases List.mem_cons.mp hk with rfl | hk
    · exact Nat.lt_succ_self _
    · exact Nat.lt_succ_of_lt (ho.lt k hk)

theorem Owned.delete (ho : Owned h (k :: l)) : Owned (h.delete k) l where
  nodup := ho.nodup.of_cons
  live x := by
    have hkl := (List.nodup_cons.mp ho.nodup).1
    by_cases hx : x = k
    · subst hx
      simp [hkl]
    · rw [delete_of_ne hx, ← ho.live x, List.mem_cons]
      exact (or_iff_right hx).symm
  lt x hx := ho.lt x (List.mem_cons_of_mem _ hx)

theorem Owned.write (ho : Owned h l) (hk : k ∈ l) (a : α) : Owned (h.write k a) l where
  nodup := ho.nodup
  live x := by
    by_cases hx : x = k
    · subst hx
      simp [hk]
    · rw [write_of_ne hx]
      exact ho.live x
  lt := ho.lt

/-- Nothing is left. -/
theorem Owned.eq_none (ho : Owned h []) (k : ℕ) : h.objs k = none :=
  not_not.mp fun hne => absurd ((ho.live k).mpr hne) List.not_mem_nil

theorem Owned.exists_of_mem (ho : Owned h l) (hk : k ∈ l) : ∃ a, h.objs k = some a :=
  Option.ne_none_iff_exists'.mp ((ho.live k).mp hk)

/-- **Owned objects are deleted**, and the others stay as they are. -/
theorem Owned.deleteAll (ho : Owned h (l ++ l')) (err : ε) (dtor : α → Except ε PUnit)
    (hdtor : ∀ k ∈ l, ∀ a, h.objs k = some a → dtor a = .ok ⟨⟩) :
    ∃ h', h.deleteAll err dtor l = .ok h' ∧ Owned h' l' ∧ h'.next = h.next ∧
      ∀ k a, h'.objs k = some a → h.objs k = some a := by
  induction l generalizing h with
  | nil => exact ⟨h, rfl, ho, rfl, fun _ _ hk => hk⟩
  | cons k l ih =>
      obtain ⟨a, ha⟩ := ho.exists_of_mem (List.mem_cons_self ..)
      have hmono : ∀ x b, (h.delete k).objs x = some b → h.objs x = some b := by
        intro x b hx
        by_cases hxk : x = k
        · rw [hxk, delete_self] at hx
          cases hx
        · rwa [delete_of_ne hxk] at hx
      obtain ⟨h', hh', hown, hnext, hback⟩ := ih (h := h.delete k) ho.delete
        fun x hx b hb => hdtor x (List.mem_cons_of_mem _ hx) b (hmono x b hb)
      refine ⟨h', ?_, hown, hnext, fun x b hx => hmono x b (hback x b hx)⟩
      rw [Arena.deleteAll, List.foldlM_cons, deleteOne, ha, deref_some]
      show (dtor a >>= fun _ => pure (h.delete k)) >>= _ = _
      rw [hdtor k (List.mem_cons_self ..) a ha]
      exact hh'

/-! ## Values -/

theorem values_congr (hl : ∀ k ∈ l, h'.objs k = h.objs k) : h'.values l = h.values l :=
  List.filterMap_congr hl

theorem values_alloc (hl : h.next ∉ l) : (h.alloc a).values l = h.values l :=
  values_congr fun _ hk => alloc_of_ne fun heq => hl (heq ▸ hk)

theorem values_alloc_cons (hl : h.next ∉ l) :
    (h.alloc a).values (h.next :: l) = a :: h.values l := by
  rw [values, List.filterMap_cons, alloc_self]
  exact congrArg _ (values_alloc hl)

end Arena

end Fallible
