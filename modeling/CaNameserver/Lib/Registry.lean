import Mathlib.Data.List.Basic
import Mathlib.Logic.Function.Basic

/-!
# Registries: names, their owners, and owners that come and go

Parties own names.  A party that comes back after having been down exchanges its names for those
of a list.  A name that is free, or whose owner is down, goes to the party that claims it, but for
one name of the party's own, its mark, which it neither gives up nor takes from anybody.

## Operations

A `State` has the owner of each name, and the status and the address of each party.  An operation
(`Op`) is a party that is there, at an address and with a list that it loads if it was down; a
party that goes down; a name that is found with a party; or a name that is not to be found any
more.  They are made of small steps, a claim, a release, a new status, a new address, of which
only claims depend on who is down.  `lookup` is what a registry is for: the address of the owner
of a name, if the owner is up.

## Coming back

`owner_connect` has in closed form where a name is after a party has come back (`settle`).  A name
on its list goes to it if it is free or its owner is down, or if it had it before; a name that it
had and that is not on the list is free.  The order of the list and what it repeats play no part.

So two parties may come back in either order, as long as their lists have no name in common and do
not name each other's marks (`Return.Apart`, `back_comm`): for each name only one of the two
matters.  By induction on the permutation the same holds of any number of them
(`foldl_back_perm`).

## Invariants

* `State.Holds.apply`: names that are on one list only stay with their parties, under operations
  that respect the lists.
* `State.Recorded.apply`: a party owns only its mark, what it loaded last, and what has been found
  with it since.
-/

namespace Registry

variable {N P A : Type*}

/-- Whether a party is there. -/
inductive Status where
  /-- not seen yet -/
  | new
  | up
  | down
  deriving DecidableEq, Repr

/-- The owners of the names, and the parties. -/
@[ext]
structure State (N P A : Type*) where
  owner : N → Option P
  status : P → Status
  addr : P → A

/-- What happens to a registry. -/
inductive Op (N P A : Type*) where
  /-- the party `p` is there; if it was down, it loads the list `l` -/
  | connect (p : P) (mark : N) (l : List N) (a : A)
  /-- the party `p` is down -/
  | lose (p : P)
  /-- the name `n` is found with the party `p`, which is there -/
  | learn (p : P) (mark n : N) (a : A)
  /-- the name `n` is not to be found any more -/
  | forget (n : N)

namespace State

/-- The address of the owner of a name, if the owner is there. -/
def lookup (r : State N P A) (n : N) : Option A :=
  (r.owner n).bind fun p => if r.status p = .up then some (r.addr p) else none

/-! ## Claims -/

variable [DecidableEq N]

/-- The name may be claimed by a party whose mark is `mark`. -/
def vacant (r : State N P A) (mark n : N) : Bool :=
  (r.owner n).all fun o => decide (r.status o = .down) && decide (n ≠ mark)

/-- The party `p` claims a name. -/
def claim (p : P) (mark : N) (r : State N P A) (n : N) : State N P A :=
  if r.vacant mark n then { r with owner := Function.update r.owner n (some p) } else r

variable {r : State N P A} {p q : P} {mark n m : N} {l : List N} {a : A}

@[simp] theorem claim_status (p : P) (mark : N) (r : State N P A) (n : N) :
    (claim p mark r n).status = r.status := by
  unfold claim
  split_ifs <;> rfl

@[simp] theorem claim_addr (p : P) (mark : N) (r : State N P A) (n : N) :
    (claim p mark r n).addr = r.addr := by
  unfold claim
  split_ifs <;> rfl

theorem claim_owner (p : P) (mark : N) (r : State N P A) (n m : N) :
    (claim p mark r n).owner m = if m = n ∧ r.vacant mark n then some p else r.owner m := by
  unfold claim
  by_cases hv : r.vacant mark n = true
  · simp [hv, Function.update_apply]
  · simp [hv]

theorem vacant_of_owner_eq_none (h : r.owner n = none) : r.vacant mark n = true := by
  rw [vacant, h]
  rfl

/-- A claim changes nothing for other names. -/
theorem vacant_claim_of_ne (hm : m ≠ n) : (claim p mark r n).vacant mark m = r.vacant mark m := by
  unfold vacant
  rw [claim_owner, if_neg fun h => hm h.1, claim_status]

@[simp] theorem foldl_claim_status (p : P) (mark : N) (l : List N) (r : State N P A) :
    (l.foldl (claim p mark) r).status = r.status := by
  induction l generalizing r with
  | nil => rfl
  | cons n l ih => rw [List.foldl_cons, ih, claim_status]

@[simp] theorem foldl_claim_addr (p : P) (mark : N) (l : List N) (r : State N P A) :
    (l.foldl (claim p mark) r).addr = r.addr := by
  induction l generalizing r with
  | nil => rfl
  | cons n l ih => rw [List.foldl_cons, ih, claim_addr]

/-- The claims of a list: every name of it that was vacant goes to the party. -/
theorem foldl_claim_owner (p : P) (mark : N) (l : List N) (r : State N P A) (n : N) :
    (l.foldl (claim p mark) r).owner n =
      if n ∈ l ∧ r.vacant mark n then some p else r.owner n := by
  induction l generalizing r with
  | nil => simp
  | cons m l ih =>
      rw [List.foldl_cons, ih, claim_owner]
      by_cases hnm : n = m
      · subst hnm
        by_cases hv : r.vacant mark n = true
        · simp [hv]
        · have hsame : claim p mark r n = r := by
            unfold claim
            rw [if_neg hv]
          simp [hv, hsame]
      · rw [vacant_claim_of_ne hnm]
        simp [hnm]

/-! ## Operations -/

variable [DecidableEq P]

/-- The party `p` gives up its names, its mark apart. -/
def release (r : State N P A) (p : P) (mark : N) : State N P A :=
  { r with owner := fun n => if r.owner n = some p ∧ n ≠ mark then none else r.owner n }

/-- The party `p` exchanges its names for those of a list. -/
def load (r : State N P A) (p : P) (mark : N) (l : List N) : State N P A :=
  l.foldl (claim p mark) (r.release p mark)

/-- The party `p` has the status `st`. -/
def setStatus (r : State N P A) (p : P) (st : Status) : State N P A :=
  { r with status := Function.update r.status p st }

/-- The party `p` is at the address `a`. -/
def setAddr (r : State N P A) (p : P) (a : A) : State N P A :=
  { r with addr := Function.update r.addr p a }

/-- The party `p` is there. -/
def connect (r : State N P A) (p : P) (mark : N) (l : List N) (a : A) : State N P A :=
  match r.status p with
  | .down => ((r.load p mark l).setAddr p a).setStatus p .up
  | _ => (r.setAddr p a).setStatus p .up

/-- The name `n` is found with the party `p`. -/
def learn (r : State N P A) (p : P) (mark n : N) (a : A) : State N P A :=
  match r.status p with
  | .up => r.claim p mark n
  | _ => ((r.claim p mark n).setAddr p a).setStatus p .up

/-- The name `n` is free. -/
def forget (r : State N P A) (n : N) : State N P A :=
  { r with owner := Function.update r.owner n none }

/-- One operation. -/
def apply (r : State N P A) : Op N P A → State N P A
  | .connect p mark l a => r.connect p mark l a
  | .lose p => r.setStatus p .down
  | .learn p mark n a => r.learn p mark n a
  | .forget n => r.forget n

/-- One operation after the other. -/
def run (r : State N P A) (ops : List (Op N P A)) : State N P A := ops.foldl apply r

/-! ## Coming back -/

@[simp] theorem load_status (r : State N P A) (p : P) (mark : N) (l : List N) :
    (r.load p mark l).status = r.status := foldl_claim_status ..

@[simp] theorem load_addr (r : State N P A) (p : P) (mark : N) (l : List N) :
    (r.load p mark l).addr = r.addr := foldl_claim_addr ..

theorem connect_of_down (h : r.status p = .down) :
    r.connect p mark l a = ((r.load p mark l).setAddr p a).setStatus p .up := by
  rw [connect, h]

theorem connect_of_not_down (h : r.status p ≠ .down) :
    r.connect p mark l a = (r.setAddr p a).setStatus p .up := by
  unfold connect
  split
  · exact absurd ‹_› h
  · rfl

/-- The owner of the name `n` after the party `p` has come back, from its owner `o` before. -/
def settle (st : P → Status) (p : P) (mark : N) (l : List N) (n : N) (o : Option P) : Option P :=
  if st p = .down then
    if o = some p then if n = mark ∨ n ∈ l then some p else none
    else if n ∈ l ∧ o.all fun x => decide (st x = .down) && decide (n ≠ mark) then some p else o
  else o

theorem connect_status (r : State N P A) (p : P) (mark : N) (l : List N) (a : A) :
    (r.connect p mark l a).status = Function.update r.status p .up := by
  unfold connect
  split
  · simp [setStatus, setAddr]
  · rfl

theorem connect_addr (r : State N P A) (p : P) (mark : N) (l : List N) (a : A) :
    (r.connect p mark l a).addr = Function.update r.addr p a := by
  unfold connect
  split
  · simp [setStatus, setAddr]
  · rfl

theorem owner_load (r : State N P A) (p : P) (mark : N) (l : List N) (n : N) :
    (r.load p mark l).owner n = if r.owner n = some p then if n = mark ∨ n ∈ l then some p else none
      else if n ∈ l ∧ r.vacant mark n then some p else r.owner n := by
  rw [load, foldl_claim_owner]
  by_cases ho : r.owner n = some p
  · rw [if_pos ho]
    by_cases hn : n = mark
    · subst hn
      have hkept : (r.release p n).owner n = some p := by simp [release, ho]
      simp [hkept]
    · have hfree : (r.release p mark).owner n = none := by simp [release, ho, hn]
      simp [hn, hfree, vacant_of_owner_eq_none hfree]
  · have hsame : (r.release p mark).owner n = r.owner n := by simp [release, ho]
    have hvac : (r.release p mark).vacant mark n = r.vacant mark n := by
      unfold vacant
      rw [hsame]
      rfl
    rw [if_neg ho, hsame, hvac]

/-- Addresses play no part. -/
theorem owner_load_congr {r' : State N P A} (ho : r.owner = r'.owner) (hs : r.status = r'.status) :
    (r.load p mark l).owner = (r'.load p mark l).owner := by
  funext n
  rw [owner_load, owner_load, vacant, vacant, ho, hs]

/-- **Where a name is after a party has come back.** -/
theorem owner_connect (r : State N P A) (p : P) (mark : N) (l : List N) (a : A) (n : N) :
    (r.connect p mark l a).owner n = settle r.status p mark l n (r.owner n) := by
  unfold connect settle
  split
  · rw [if_pos ‹_›]
    exact owner_load r p mark l n
  · rw [if_neg ‹_›]
    rfl

/-! ## Learning -/

theorem learn_owner (r : State N P A) (p : P) (mark n : N) (a : A) :
    (r.learn p mark n a).owner = (claim p mark r n).owner := by
  unfold learn
  split <;> rfl

theorem learn_status (r : State N P A) (p : P) (mark n : N) (a : A) :
    (r.learn p mark n a).status = Function.update r.status p .up := by
  unfold learn
  split
  · rw [claim_status, ← ‹r.status p = .up›, Function.update_eq_self]
  · simp [setStatus, setAddr]

theorem learn_addr (r : State N P A) (p : P) (mark n : N) (a : A) :
    (r.learn p mark n a).addr = if r.status p = .up then r.addr else Function.update r.addr p a := by
  unfold learn
  split
  · rw [claim_addr, if_pos ‹_›]
  · rw [if_neg ‹_›]
    simp [setStatus, setAddr]

/-! ## The order in which parties come back -/

section Settle

variable {st : P → Status} {o : Option P}

theorem settle_of_not_down (h : st p ≠ .down) : settle st p mark l n o = o := if_neg h

/-- A name that is neither the party's nor on its list stays where it is. -/
theorem settle_of_not_mem (hn : n ∉ l) (ho : o ≠ some p) : settle st p mark l n o = o := by
  unfold settle
  split_ifs <;> simp_all

/-- A party keeps its mark. -/
theorem settle_mark : settle st p mark l mark (some p) = some p := by
  simp [settle]

/-- A name goes to the party, or becomes free, or stays where it is. -/
theorem settle_cases : settle st p mark l n o = some p ∨ settle st p mark l n o = none ∨
    settle st p mark l n o = o := by
  unfold settle
  split_ifs <;> simp

/-- Whether another party is new or up plays no part. -/
theorem settle_update (hq : p ≠ q) (h : st q = .down → o ≠ some q) :
    settle (Function.update st q .up) p mark l n o = settle st p mark l n o := by
  unfold settle
  rw [Function.update_of_ne hq]
  cases o with
  | none => rfl
  | some x =>
      by_cases hx : x = q
      · subst hx
        have hup : st x ≠ .down := fun hd => h hd rfl
        simp [hup]
      · simp [Function.update_of_ne hx]

/-- One name, not on the list of `q`, when `p` and `q` come back. -/
theorem settle_comm {mp mq : N} {k : List N} (hpq : p ≠ q) (hnk : n ∉ k) (hmq : mq ∉ l)
    (hp : n = mp → o = some p) :
    settle (Function.update st p .up) q mq k n (settle st p mp l n o) =
      settle (Function.update st q .up) p mp l n (settle st q mq k n o) := by
  have hstq : Function.update st p Status.up q = st q := Function.update_of_ne hpq.symm _ _
  by_cases hq : st q = .down
  · by_cases ho : o = some q
    · subst ho
      have hnp : n ≠ mp := fun h => hpq (Option.some.inj (hp h)).symm
      by_cases hn : n = mq
      · -- the mark of `q` stays with `q`
        subst hn
        have hne : some q ≠ some p := fun h => hpq (Option.some.inj h).symm
        rw [settle_of_not_mem hmq hne, settle_mark, settle_mark, settle_of_not_mem hmq hne]
      · -- another name of `q`: `p` finds it free, or takes it from `q`
        have hgone : ∀ st' : P → Status, st' q = .down → settle st' q mq k n (some q) = none := by
          intro st' hst'
          simp [settle, hst', hn, hnk]
        rw [hgone st hq]
        by_cases htake : st p = .down ∧ n ∈ l
        · have hl : settle st p mp l n (some q) = some p := by
            simp [settle, htake, hq, hnp, hpq.symm]
          have hr : settle (Function.update st q .up) p mp l n none = some p := by
            simp [settle, Function.update_of_ne hpq, htake]
          rw [hl, hr]
          exact settle_of_not_mem hnk fun h => hpq (Option.some.inj h)
        · have hl : settle st p mp l n (some q) = some q := by
            unfold settle
            split_ifs <;> simp_all
          have hr : settle (Function.update st q .up) p mp l n none = none := by
            unfold settle
            split_ifs <;> simp_all
          rw [hl, hr, hgone _ (hstq.trans hq)]
    · -- not a name of `q`, and it does not become one
      rw [settle_of_not_mem hnk ho, settle_update hpq fun _ => ho]
      refine settle_of_not_mem hnk fun h => ?_
      rcases (settle_cases : settle st p mp l n o = some p ∨ _) with hc | hc | hc
      · exact hpq (Option.some.inj (hc.symm.trans h))
      · rw [hc] at h
        cases h
      · exact ho (hc.symm.trans h)
  · rw [settle_of_not_down (hstq ▸ hq), settle_of_not_down hq, settle_update hpq fun h => absurd h hq]

end Settle

end State

/-- A party that comes back, with its mark, its list and its address. -/
structure Return (N P A : Type*) where
  party : P
  mark : N
  list : List N
  addr : A
  deriving DecidableEq

/-- Two parties whose lists have no name in common, and do not name each other's marks. -/
structure Return.Apart (x y : Return N P A) : Prop where
  party : x.party ≠ y.party
  list : ∀ n ∈ x.list, n ∉ y.list
  left : x.mark ∉ y.list
  right : y.mark ∉ x.list

theorem Return.Apart.symm {x y : Return N P A} (h : x.Apart y) : y.Apart x :=
  ⟨h.party.symm, fun n hn hx => h.list n hx hn, h.right, h.left⟩

namespace State

variable [DecidableEq N] [DecidableEq P] {r : State N P A}

/-- A party comes back. -/
def back (r : State N P A) (x : Return N P A) : State N P A :=
  r.connect x.party x.mark x.list x.addr

/-- The parties have their marks. -/
def Marked (r : State N P A) (xs : List (Return N P A)) : Prop :=
  ∀ x ∈ xs, r.owner x.mark = some x.party

theorem Marked.back {x : Return N P A} {xs : List (Return N P A)} (h : r.Marked xs)
    (hx : ∀ y ∈ xs, x.Apart y) : (r.back x).Marked xs := by
  intro y hy
  rw [State.back, owner_connect, h y hy]
  exact settle_of_not_mem (hx y hy).right fun heq => (hx y hy).party (Option.some.inj heq).symm

/-- **Two parties that are apart may come back in either order.** -/
theorem back_comm {x y : Return N P A} (h : x.Apart y) (hx : r.owner x.mark = some x.party)
    (hy : r.owner y.mark = some y.party) : (r.back x).back y = (r.back y).back x := by
  refine State.ext (funext fun n => ?_) ?_ ?_
  · simp only [State.back, owner_connect, connect_status]
    by_cases hn : n ∈ y.list
    · have hnx : n ∉ x.list := fun hnx => h.list n hnx hn
      exact (settle_comm h.party.symm hnx h.left fun heq => heq ▸ hy).symm
    · exact settle_comm h.party hn h.right fun heq => heq ▸ hx
  · simp only [State.back, connect_status]
    exact Function.update_comm h.party _ _ _
  · simp only [State.back, connect_addr]
    exact Function.update_comm h.party _ _ _

/-- **Parties that are apart may come back in any order.** -/
theorem foldl_back_perm {xs ys : List (Return N P A)} (hperm : xs.Perm ys)
    (hapart : xs.Pairwise Return.Apart) (hmark : r.Marked xs) :
    xs.foldl back r = ys.foldl back r := by
  induction hperm generalizing r with
  | nil => rfl
  | cons x _ ih =>
      obtain ⟨hx, hrest⟩ := List.pairwise_cons.mp hapart
      have hmark' : r.Marked _ := fun y hy => hmark y (List.mem_cons_of_mem _ hy)
      exact ih hrest (hmark'.back hx)
  | swap x y l =>
      have hyx : y.Apart x := (List.pairwise_cons.mp hapart).1 x (List.mem_cons_self ..)
      rw [List.foldl_cons, List.foldl_cons, List.foldl_cons, List.foldl_cons,
        back_comm hyx (hmark y (by simp)) (hmark x (by simp))]
  | trans h₁ _ ih₁ ih₂ =>
      have hsymm : ∀ {x y : Return N P A}, x.Apart y → y.Apart x := Return.Apart.symm
      rw [ih₁ hapart hmark]
      exact ih₂ ((h₁.pairwise_iff hsymm).mp hapart) fun x hx => hmark x (h₁.mem_iff.mpr hx)

/-! ## Names that are on one list only -/

/-- The names are with their parties. -/
def Holds (r : State N P A) (names : P → N → Prop) : Prop :=
  ∀ p n, names p n → r.owner n = some p

/-- The operation reads the names of the party that loads a list, and no others. -/
def Respects (r : State N P A) (names : P → N → Prop) : Op N P A → Prop
  | .connect p mark l _ => r.status p = .down → (∀ n, names p n → n = mark ∨ n ∈ l) ∧
      ∀ q n, q ≠ p → names q n → n ∉ l
  | .lose _ => True
  | .learn _ _ n _ => ∀ q, ¬names q n
  | .forget n => ∀ q, ¬names q n

/-- **Names that are on one list only stay where they are.** -/
theorem Holds.apply {names : P → N → Prop} (h : r.Holds names) {op : Op N P A}
    (hop : r.Respects names op) : (r.apply op).Holds names := by
  intro q n hn
  have ho := h q n hn
  cases op with
  | connect p mark l a =>
      show (r.connect p mark l a).owner n = some q
      rw [owner_connect, ho]
      by_cases hp : r.status p = .down
      · obtain ⟨hself, hother⟩ := hop hp
        by_cases hqp : q = p
        · subst hqp
          rw [settle, if_pos hp, if_pos rfl, if_pos (hself n hn)]
        · exact settle_of_not_mem (hother q n hqp hn) fun heq => hqp (Option.some.inj heq)
      · exact settle_of_not_down hp
  | lose p => exact ho
  | learn p mark m a =>
      have hnm : n ≠ m := by
        rintro rfl
        exact hop q hn
      show (r.learn p mark m a).owner n = some q
      rw [learn_owner, claim_owner, if_neg fun h => hnm h.1, ho]
  | forget m =>
      have hnm : n ≠ m := by
        rintro rfl
        exact hop q hn
      exact (Function.update_of_ne hnm none r.owner).trans ho

/-! ## Where the names come from -/

/-- What is on record for every party: its mark and the list it loaded last, and what has been
found with it since, until it was not to be found any more. -/
def record (r : State N P A) (g : P → List N) : Op N P A → P → List N
  | .connect p mark l _ => if r.status p = .down then Function.update g p (mark :: l) else g
  | .lose _ => g
  | .learn p _ n _ => Function.update g p (n :: g p)
  | .forget n => fun p => (g p).filter (· ≠ n)

/-- A party owns only what is on record for it, the parties that are `lost` apart. -/
def Recorded (r : State N P A) (g : P → List N) (lost : P → Prop) : Prop :=
  ∀ n p, r.owner n = some p → n ∈ g p ∨ lost p

/-- **A party owns only what is on record for it.** -/
theorem Recorded.apply {g : P → List N} {lost : P → Prop} (h : r.Recorded g lost)
    (op : Op N P A) : (r.apply op).Recorded (r.record g op) lost := by
  intro n q ho
  cases op with
  | connect p mark l a =>
      change (r.connect p mark l a).owner n = some q at ho
      rw [owner_connect] at ho
      by_cases hp : r.status p = .down
      · rw [settle, if_pos hp] at ho
        rw [record, if_pos hp]
        split_ifs at ho with hself hl hl
        · cases ho
          rw [Function.update_self, List.mem_cons]
          exact Or.inl hl
        · cases ho
          rw [Function.update_self, List.mem_cons]
          exact Or.inl (Or.inr hl.1)
        · have hqp : q ≠ p := by
            rintro rfl
            exact hself ho
          rw [Function.update_of_ne hqp]
          exact h n q ho
      · rw [settle_of_not_down hp] at ho
        rw [record, if_neg hp]
        exact h n q ho
  | lose p => exact h n q ho
  | learn p mark m a =>
      change (r.learn p mark m a).owner n = some q at ho
      rw [learn_owner, claim_owner] at ho
      rw [record]
      split_ifs at ho with hm
      · cases ho
        rw [Function.update_self, hm.1]
        exact Or.inl (List.mem_cons_self ..)
      · by_cases hqp : q = p
        · subst hqp
          rw [Function.update_self]
          exact (h n q ho).imp_left (List.mem_cons_of_mem m)
        · rw [Function.update_of_ne hqp]
          exact h n q ho
  | forget m =>
      change Function.update r.owner m none n = some q at ho
      by_cases hnm : n = m
      · rw [hnm, Function.update_self] at ho
        cases ho
      · rw [Function.update_of_ne hnm] at ho
        refine (h n q ho).imp_left fun hmem => ?_
        rw [record, List.mem_filter]
        exact ⟨hmem, decide_eq_true hnm⟩

end State

end Registry
