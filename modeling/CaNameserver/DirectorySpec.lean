import CaNameserver.Directory

/-!
# What the directory functions do

The functions of `Directory` are written as the source has them: they look entries up, fail where
a pointer leads nowhere, and change one field after the other.  This module has one description
for each of them, from which the invariants of the server are derived.

## Insertion

`installPVName_installed`: a defined insertion has one of the four outcomes of `Installed`.  The
name was free and has been entered; it is the IOC's own heartbeat, and nothing has changed; it
belonged to an IOC that is down, has been taken from it, and has been entered anew; or its owner
is not down, and it has been refused.  `enter` and `takePV` are the two changes that occur in
them, with one equation for each table.

## Removal

`removeAllPvs_removed`: a defined `remove_all_pvs` deletes exactly the entries of the list but the
heartbeat, and takes their names out of the table (`Removed`).  Its loop pops the list and works
on the tables at the same time; `Removing` is its invariant, by the part of the list that has been
dealt with, and one turn of the loop is `removeNamed`, with the name that is read.  Which entry is
the heartbeat is decided by names, so that the proof needs the storage to be well formed: no two
entries of a list have one name.

## Loading

A list is read by a loop over insertions.  `addAllPvs_induct` is its rule: what the insertion of
every listed name keeps, reading the list keeps.  Where it matters which names have been read
already, `addAllPvs_prefix_induct` says so.

## The storage

`WF` is what holds of the storage at every moment, whatever the order of events.

* A table entry is a live `pvE` stored under its own name.
* A *live* `pvE` on a list is owned by the list's IOC and is the very entry the table has under
  its name; no list has an entry twice.
* The table of the IOCs has each under its name, and new objects have new addresses.

Whether the entries of a list are live is another matter, and not part of `WF`: the server does
delete entries that are on a list.
-/

namespace CaNameserver

open CStr Fallible

namespace Dir

@[simp] theorem getPIoc_eq_ok_iff {d : Dir} {i : IocId} {p : PIoc} :
    d.getPIoc i = .ok p ↔ d.pIocs i = some p := deref_eq_ok_iff

@[simp] theorem getPvE_eq_ok_iff {d : Dir} {e : PvEId} {pv : PvE} :
    d.getPvE e = .ok pv ↔ d.pvEs e = some pv := deref_eq_ok_iff

theorem getPIoc_ne_error {d : Dir} {i : IocId} {f : Fault} (hf : f ≠ .pIocDeleted) :
    d.getPIoc i ≠ .error f := by
  rw [getPIoc, Ne, deref_eq_error_iff]
  exact fun h => hf h.2.symm

/-! ## Updates -/

/-- A new entry in the table and at the head of its IOC's list. -/
def enter (d : Dir) (n : Name) (i : IocId) (p : PIoc) : Dir :=
  (d.tblAdd n i).setPIoc i { p with pvEList := d.nextPvE :: p.pvEList }

section Updates

variable (d : Dir) (n m : Name) (i j : IocId) (p : PIoc) (e : PvEId)

@[simp] theorem setPIoc_pvEs : (d.setPIoc i p).pvEs = d.pvEs := rfl
@[simp] theorem setPIoc_stringResTbl : (d.setPIoc i p).stringResTbl = d.stringResTbl := rfl

theorem setPIoc_pIocs : (d.setPIoc i p).pIocs j = if j = i then some p else d.pIocs j := by
  simp [setPIoc, Function.update_apply]

@[simp] theorem setPIoc_pIocs_self : (d.setPIoc i p).pIocs i = some p := by
  rw [setPIoc_pIocs, if_pos rfl]

theorem tblRemove_stringResTbl :
    (d.tblRemove n).stringResTbl m = if m = n then none else d.stringResTbl m :=
  Function.update_apply ..

theorem deletePvE_pvEs (x : PvEId) : (d.deletePvE e).pvEs x = if x = e then none else d.pvEs x :=
  Function.update_apply ..

@[simp] theorem enter_iocResTbl : (d.enter n i p).iocResTbl = d.iocResTbl := rfl
@[simp] theorem enter_nextPvE : (d.enter n i p).nextPvE = d.nextPvE + 1 := rfl
@[simp] theorem enter_nextPIoc : (d.enter n i p).nextPIoc = d.nextPIoc := rfl

theorem enter_pvEs :
    (d.enter n i p).pvEs e = if e = d.nextPvE then some ⟨n, some i⟩ else d.pvEs e := by
  simp [enter, tblAdd, Function.update_apply]

theorem enter_stringResTbl :
    (d.enter n i p).stringResTbl m = if m = n then some d.nextPvE else d.stringResTbl m := by
  simp [enter, tblAdd, Function.update_apply]

theorem enter_pIocs : (d.enter n i p).pIocs j =
    if j = i then some { p with pvEList := d.nextPvE :: p.pvEList } else d.pIocs j := by
  rw [enter, setPIoc_pIocs]
  rfl

@[simp] theorem takePV_iocResTbl : (d.takePV n e i p).iocResTbl = d.iocResTbl := by
  unfold takePV
  split_ifs <;> rfl

@[simp] theorem takePV_nextPvE : (d.takePV n e i p).nextPvE = d.nextPvE := by
  unfold takePV
  split_ifs <;> rfl

@[simp] theorem takePV_nextPIoc : (d.takePV n e i p).nextPIoc = d.nextPIoc := by
  unfold takePV
  split_ifs <;> rfl

theorem takePV_stringResTbl :
    (d.takePV n e i p).stringResTbl m = if m = n then none else d.stringResTbl m := by
  unfold takePV
  split_ifs <;> simp_all [tblRemove, setPIoc, deletePvE]

theorem takePV_pvEs (e' : PvEId) : (d.takePV n e i p).pvEs e' =
    if e' = e ∧ e ∈ p.pvEList then none else d.pvEs e' := by
  unfold takePV
  split_ifs <;> simp_all [tblRemove, setPIoc, deletePvE]

theorem takePV_pIocs (hp : d.pIocs i = some p) : (d.takePV n e i p).pIocs j =
    if j = i then some { p with pvEList := p.pvEList.erase e } else d.pIocs j := by
  unfold takePV
  by_cases hmem : e ∈ p.pvEList
  · rw [if_pos hmem]
    simp [tblRemove, setPIoc, deletePvE, Function.update_apply]
  · rw [if_neg hmem, List.erase_of_not_mem hmem]
    by_cases hj : j = i
    · rw [if_pos hj, hj]
      exact hp
    · rw [if_neg hj]
      rfl

end Updates

theorem setStatus_eq_ok_iff {d d' : Dir} {i : IocId} {st : ℕ} :
    d.setStatus i st = .ok d' ↔
      ∃ p, d.pIocs i = some p ∧ d' = d.setPIoc i { p with status := st } := by
  simp only [setStatus, bind_eq_ok_iff, getPIoc_eq_ok_iff, pure_eq_ok_iff]

theorem popPvE_eq_ok_iff {d d' : Dir} {i : IocId} :
    d.popPvE i = .ok d' ↔
      ∃ p, d.pIocs i = some p ∧ d' = d.setPIoc i { p with pvEList := p.pvEList.tail } := by
  simp only [popPvE, bind_eq_ok_iff, getPIoc_eq_ok_iff, pure_eq_ok_iff]

theorem setAddr_eq_ok_iff {d d' : Dir} {i : IocId} {host : Name} {r : Resolver} :
    d.setAddr i host r = .ok d' ↔ ∃ p, d.pIocs i = some p ∧
      d' = d.setPIoc i { p with addr := resolveAddr r (host.take (hostNameSz - 1)) p.addr } := by
  simp only [setAddr, bind_eq_ok_iff, getPIoc_eq_ok_iff, pure_eq_ok_iff]

theorem tblAdd_add {d d' : Dir} {n : Name} {i : IocId} :
    (d.tblAdd n i).add i d.nextPvE = .ok d' ↔
      ∃ p, d.pIocs i = some p ∧ d' = d.enter n i p := by
  simp only [add, bind_eq_ok_iff, getPIoc_eq_ok_iff, pure_eq_ok_iff]
  rfl

/-! ## Insertion -/

/-- The outcomes of `installPVName`. -/
inductive Installed (d : Dir) (n : Name) (i : IocId) : Dir → ℤ → Prop
  | entered {p : PIoc} (hp : d.pIocs i = some p) (hn : d.stringResTbl n = none) :
      Installed d n i (d.enter n i p) 0
  | ownHeartbeat {p : PIoc} {e : PvEId} (hp : d.pIocs i = some p)
      (hn : d.stringResTbl n = some e) (hname : n = p.heartbeatName) : Installed d n i d 1
  | moved {p q p' : PIoc} {e : PvEId} {pv : PvE} {o : IocId} (hp : d.pIocs i = some p)
      (hn : d.stringResTbl n = some e) (hname : n ≠ p.heartbeatName)
      (he : d.pvEs e = some pv) (ho : pv.pI = some o) (hq : d.pIocs o = some q)
      (hdown : q.status = 2) (hp' : (d.takePV n e o q).pIocs i = some p') :
      Installed d n i ((d.takePV n e o q).enter n i p') 0
  | refused {p : PIoc} {e : PvEId} {pv : PvE} (hp : d.pIocs i = some p)
      (hn : d.stringResTbl n = some e) (hname : n ≠ p.heartbeatName)
      (he : d.pvEs e = some pv)
      (hup : ∀ o q, pv.pI = some o → d.pIocs o = some q → q.status ≠ 2) : Installed d n i d (-1)

theorem installPVName_installed {d d' : Dir} {n : Name} {i : IocId} {r : ℤ}
    (h : d.installPVName n i = .ok (d', r)) : Installed d n i d' r := by
  rw [installPVName, bind_eq_ok_iff] at h
  obtain ⟨p, hp, h⟩ := h
  rw [getPIoc_eq_ok_iff] at hp
  cases hn : d.stringResTbl n with
  | none =>
      simp only [hn, bind_eq_ok_iff, tblAdd_add] at h
      obtain ⟨_, ⟨p₁, hp₁, rfl⟩, h⟩ := h
      cases h
      exact .entered hp₁ hn
  | some e =>
      simp only [hn, bind_eq_ok_iff, PIoc.getIocname, strncpy_eq_ok_iff, writeBuf_eq_ok_iff] at h
      obtain ⟨_, ⟨_, rfl⟩, _, ⟨_, rfl⟩, h⟩ := h
      split_ifs at h with hname
      · cases h
        exact .ownHeartbeat hp hn hname.symm
      · obtain ⟨pv, he, h⟩ := bind_eq_ok_iff.mp h
        rw [getPvE_eq_ok_iff] at he
        have hname' : n ≠ p.heartbeatName := fun h => hname h.symm
        cases ho : pv.pI with
        | none =>
            simp only [ho] at h
            cases h
            exact .refused hp hn hname' he fun o q ho' => by rw [ho] at ho'; cases ho'
        | some o =>
            simp only [ho, bind_eq_ok_iff, getPIoc_eq_ok_iff] at h
            obtain ⟨q, hq, h⟩ := h
            split_ifs at h with hdown
            · rw [bind_eq_ok_iff] at h
              obtain ⟨d₁, h₁, h⟩ := h
              cases h
              have hnext : (d.takePV n e o q).nextPvE = d.nextPvE := takePV_nextPvE ..
              rw [tblAdd_add] at h₁
              obtain ⟨p', hp', rfl⟩ := h₁
              exact .moved hp hn hname' he ho hq hdown hp'
            · cases h
              refine .refused hp hn hname' he fun o' q' ho' hq' => ?_
              rw [ho] at ho'
              cases ho'
              rw [hq] at hq'
              cases hq'
              exact hdown

/-- Whatever the outcome, the name is in the table afterwards. -/
theorem Installed.mem {d d' : Dir} {n : Name} {i : IocId} {r : ℤ} (h : Installed d n i d' r) :
    d'.stringResTbl n ≠ none := by
  cases h with
  | entered => simp [enter_stringResTbl]
  | ownHeartbeat _ hn => simp [hn]
  | moved => simp [enter_stringResTbl]
  | refused _ hn => simp [hn]

/-- No insertion takes a name out of the table. -/
theorem Installed.mono {d d' : Dir} {n m : Name} {i : IocId} {r : ℤ} (h : Installed d n i d' r)
    (hm : d.stringResTbl m ≠ none) : d'.stringResTbl m ≠ none := by
  by_cases hmn : m = n
  · rw [hmn]
    exact h.mem
  · cases h with
    | entered => simpa [enter_stringResTbl, hmn] using hm
    | ownHeartbeat => exact hm
    | moved => simpa [enter_stringResTbl, takePV_stringResTbl, hmn] using hm
    | refused => exact hm

/-! ## The storage invariant -/

/-- What holds of the storage at every moment. -/
structure WF (d : Dir) : Prop where
  /-- a table entry is a live `pvE`, stored under its name -/
  table : ∀ n e, d.stringResTbl n = some e → ∃ pv, d.pvEs e = some pv ∧ pv.resourceName = n
  /-- a live `pvE` on a list is owned by the list's IOC, and is the entry under its name -/
  listed : ∀ i p e pv, d.pIocs i = some p → e ∈ p.pvEList → d.pvEs e = some pv →
    pv.pI = some i ∧ d.stringResTbl pv.resourceName = some e
  nodup : ∀ i p, d.pIocs i = some p → p.pvEList.Nodup
  pvEs_lt : ∀ e pv, d.pvEs e = some pv → e < d.nextPvE
  /-- every `pvE` has an owner, which may have been deleted since -/
  owner_lt : ∀ e pv, d.pvEs e = some pv → ∃ i, pv.pI = some i ∧ i < d.nextPIoc
  listed_lt : ∀ i p e, d.pIocs i = some p → e ∈ p.pvEList → e < d.nextPvE
  /-- the live `pIoc`s are those of the table, each under its name -/
  iocTable : ∀ n i, d.iocResTbl n = some i ↔ ∃ p, d.pIocs i = some p ∧ p.iocname = n
  pIocs_lt : ∀ i p, d.pIocs i = some p → i < d.nextPIoc

theorem WF.empty : WF Dir.empty where
  table := fun _ _ h => nomatch h
  listed := fun _ _ _ _ h => nomatch h
  nodup := fun _ _ h => nomatch h
  pvEs_lt := fun _ _ h => nomatch h
  owner_lt := fun _ _ h => nomatch h
  listed_lt := fun _ _ _ h => nomatch h
  iocTable := by simp [Dir.empty]
  pIocs_lt := fun _ _ h => nomatch h

/-- Two live `pIoc`s of one name are the same. -/
theorem WF.iocname_inj {d : Dir} (h : WF d) {i j : IocId} {p q : PIoc} (hp : d.pIocs i = some p)
    (hq : d.pIocs j = some q) (hname : p.iocname = q.iocname) : i = j := by
  have hi := (h.iocTable p.iocname i).mpr ⟨p, hp, rfl⟩
  have hj := (h.iocTable p.iocname j).mpr ⟨q, hq, hname.symm⟩
  rw [hi] at hj
  exact Option.some.inj hj

/-- A table entry on a list is owned by the list's IOC. -/
theorem WF.owner_of_mem {d : Dir} (h : WF d) {i : IocId} {p : PIoc} {n : Name} {e : PvEId}
    {pv : PvE} (hp : d.pIocs i = some p) (hmem : e ∈ p.pvEList) (hn : d.stringResTbl n = some e)
    (he : d.pvEs e = some pv) : pv.pI = some i ∧ pv.resourceName = n := by
  obtain ⟨pv', he', hname⟩ := h.table n e hn
  rw [he] at he'
  cases he'
  exact ⟨(h.listed i p e pv hp hmem he).1, hname⟩

/-- Taking away entries, list nodes and objects keeps the storage well formed, as long as what
stays in the table stays alive and what stays alive on a list stays in the table. -/
theorem WF.shrink {d d' : Dir} (h : WF d)
    (htab : ∀ n e, d'.stringResTbl n = some e →
      d.stringResTbl n = some e ∧ d'.pvEs e = d.pvEs e)
    (hpv : ∀ e pv, d'.pvEs e = some pv → d.pvEs e = some pv)
    (hioc : ∀ j q, d'.pIocs j = some q →
      ∃ p, d.pIocs j = some p ∧ q.iocname = p.iocname ∧ q.pvEList.Sublist p.pvEList)
    (hioc' : ∀ j p, d.pIocs j = some p → d'.pIocs j ≠ none)
    (hkeep : ∀ j q e pv, d'.pIocs j = some q → e ∈ q.pvEList → d'.pvEs e = some pv →
      d'.stringResTbl pv.resourceName = d.stringResTbl pv.resourceName)
    (hpvE : d'.nextPvE = d.nextPvE) (hpIoc : d'.nextPIoc = d.nextPIoc)
    (htbl : d'.iocResTbl = d.iocResTbl) : WF d' where
  table := by
    intro n e hn
    obtain ⟨hn', he⟩ := htab n e hn
    rw [he]
    exact h.table n e hn'
  listed := by
    intro j q e pv hq hmem he
    obtain ⟨p, hp, -, hsub⟩ := hioc j q hq
    obtain ⟨hown, hn⟩ := h.listed j p e pv hp (hsub.subset hmem) (hpv e pv he)
    exact ⟨hown, by rw [hkeep j q e pv hq hmem he, hn]⟩
  nodup := by
    intro j q hq
    obtain ⟨p, hp, -, hsub⟩ := hioc j q hq
    exact (h.nodup j p hp).sublist hsub
  pvEs_lt := by
    intro e pv he
    rw [hpvE]
    exact h.pvEs_lt e pv (hpv e pv he)
  owner_lt := by
    intro e pv he
    rw [hpIoc]
    exact h.owner_lt e pv (hpv e pv he)
  listed_lt := by
    intro j q e hq hmem
    obtain ⟨p, hp, -, hsub⟩ := hioc j q hq
    rw [hpvE]
    exact h.listed_lt j p e hp (hsub.subset hmem)
  iocTable := by
    intro n j
    rw [htbl, h.iocTable]
    constructor
    · rintro ⟨p, hp, hname⟩
      obtain ⟨q, hq⟩ := Option.ne_none_iff_exists'.mp (hioc' j p hp)
      obtain ⟨p', hp', hqp, -⟩ := hioc j q hq
      rw [hp] at hp'
      cases hp'
      exact ⟨q, hq, hqp.trans hname⟩
    · rintro ⟨q, hq, hname⟩
      obtain ⟨p, hp, hqp, -⟩ := hioc j q hq
      exact ⟨p, hp, hqp.symm.trans hname⟩
  pIocs_lt := by
    intro j q hq
    obtain ⟨p, hp, -, -⟩ := hioc j q hq
    rw [hpIoc]
    exact h.pIocs_lt j p hp

/-- Rewriting a `pIoc` with a shorter list and the same name keeps the storage well formed. -/
theorem WF.setPIoc {d : Dir} (h : WF d) {i : IocId} {p q : PIoc} (hp : d.pIocs i = some p)
    (hname : q.iocname = p.iocname) (hsub : q.pvEList.Sublist p.pvEList) :
    WF (d.setPIoc i q) := by
  refine h.shrink (fun n e hn => ⟨hn, rfl⟩) (fun e pv he => he) ?_ ?_ (fun _ _ _ _ _ _ _ => rfl)
    rfl rfl rfl
  · intro j r hr
    rw [setPIoc_pIocs] at hr
    split_ifs at hr with hj
    · cases hr
      exact ⟨p, hj ▸ hp, hname, hsub⟩
    · exact ⟨r, hr, rfl, List.Sublist.refl _⟩
  · intro j r hr
    rw [setPIoc_pIocs]
    split_ifs
    · simp
    · simp [hr]

/-- Entering a free name keeps the storage well formed. -/
theorem WF.enter {d : Dir} (h : WF d) {n : Name} {i : IocId} {p : PIoc} (hp : d.pIocs i = some p)
    (hn : d.stringResTbl n = none) : WF (d.enter n i p) where
  table := by
    intro m e hm
    rw [enter_stringResTbl] at hm
    rw [enter_pvEs]
    split_ifs at hm with hmn
    · cases hm
      exact ⟨_, if_pos rfl, hmn.symm⟩
    · obtain ⟨pv, he, hname⟩ := h.table m e hm
      exact ⟨pv, by rw [if_neg (h.pvEs_lt e pv he).ne, he], hname⟩
  listed := by
    intro j r e pv hr hmem he
    rw [enter_pIocs] at hr
    rw [enter_pvEs] at he
    split_ifs at he with hnew
    · cases he
      subst hnew
      split_ifs at hr with hj
      · subst hj
        exact ⟨rfl, by rw [enter_stringResTbl, if_pos rfl]⟩
      · exact absurd (h.listed_lt j r _ hr hmem) (lt_irrefl _)
    · have hold : ∃ r', d.pIocs j = some r' ∧ e ∈ r'.pvEList := by
        split_ifs at hr with hj
        · cases hr
          subst hj
          exact ⟨p, hp, (List.mem_cons.mp hmem).resolve_left hnew⟩
        · exact ⟨r, hr, hmem⟩
      obtain ⟨r', hr', hmem'⟩ := hold
      obtain ⟨hown, htab⟩ := h.listed j r' e pv hr' hmem' he
      refine ⟨hown, ?_⟩
      rw [enter_stringResTbl, if_neg, htab]
      rintro hname
      rw [hname, hn] at htab
      cases htab
  nodup := by
    intro j r hr
    rw [enter_pIocs] at hr
    split_ifs at hr with hj
    · cases hr
      refine List.nodup_cons.mpr ⟨fun hmem => ?_, h.nodup i p hp⟩
      exact absurd (h.listed_lt i p _ hp hmem) (lt_irrefl _)
    · exact h.nodup j r hr
  pvEs_lt := by
    intro e pv he
    rw [enter_pvEs] at he
    rw [enter_nextPvE]
    split_ifs at he with hnew
    · exact hnew ▸ Nat.lt_succ_self _
    · exact Nat.lt_succ_of_lt (h.pvEs_lt e pv he)
  owner_lt := by
    intro e pv he
    rw [enter_pvEs] at he
    rw [enter_nextPIoc]
    split_ifs at he with hnew
    · cases he
      exact ⟨i, rfl, h.pIocs_lt i p hp⟩
    · exact h.owner_lt e pv he
  listed_lt := by
    intro j r e hr hmem
    rw [enter_pIocs] at hr
    rw [enter_nextPvE]
    split_ifs at hr with hj
    · cases hr
      rcases List.mem_cons.mp hmem with rfl | hmem
      · exact Nat.lt_succ_self _
      · exact Nat.lt_succ_of_lt (h.listed_lt i p e hp hmem)
    · exact Nat.lt_succ_of_lt (h.listed_lt j r e hr hmem)
  iocTable := by
    intro m j
    rw [enter_iocResTbl, h.iocTable, enter_pIocs]
    by_cases hj : j = i
    · subst hj
      simp [hp]
    · rw [if_neg hj]
  pIocs_lt := by
    intro j r hr
    rw [enter_pIocs] at hr
    rw [enter_nextPIoc]
    split_ifs at hr with hj
    · subst hj
      exact h.pIocs_lt j p hp
    · exact h.pIocs_lt j r hr

/-- Taking a PV from its owner keeps the storage well formed. -/
theorem WF.takePV {d : Dir} (h : WF d) {n : Name} {e : PvEId} {pv : PvE} {o : IocId} {q : PIoc}
    (hn : d.stringResTbl n = some e) (he : d.pvEs e = some pv) (ho : pv.pI = some o)
    (hq : d.pIocs o = some q) : WF (d.takePV n e o q) := by
  refine h.shrink ?_ ?_ ?_ ?_ ?_ (takePV_nextPvE ..) (takePV_nextPIoc ..) (takePV_iocResTbl ..)
  · intro m x hm
    rw [takePV_stringResTbl] at hm
    split_ifs at hm with hmn
    refine ⟨hm, ?_⟩
    rw [takePV_pvEs, if_neg]
    rintro ⟨rfl, -⟩
    obtain ⟨_, he₁, hm₁⟩ := h.table m x hm
    obtain ⟨_, he₂, hn₂⟩ := h.table n x hn
    rw [he₁] at he₂
    cases he₂
    exact hmn (hm₁.symm.trans hn₂)
  · intro x pv' hx
    rw [takePV_pvEs] at hx
    split_ifs at hx
    exact hx
  · intro j r hr
    rw [takePV_pIocs _ _ _ _ _ _ hq] at hr
    split_ifs at hr with hj
    · cases hr
      exact ⟨q, hj ▸ hq, rfl, List.erase_sublist⟩
    · exact ⟨r, hr, rfl, List.Sublist.refl _⟩
  · intro j r hr
    rw [takePV_pIocs _ _ _ _ _ _ hq]
    split_ifs
    · simp
    · simp [hr]
  · intro j r x pv' hr hmem hx
    rw [takePV_stringResTbl, if_neg]
    rintro hname
    rw [takePV_pvEs] at hx
    split_ifs at hx with hgone
    have hold : ∃ r', d.pIocs j = some r' ∧ x ∈ r'.pvEList ∧ (j = o → x ≠ e) := by
      rw [takePV_pIocs _ _ _ _ _ _ hq] at hr
      split_ifs at hr with hj
      · cases hr
        have hx' := (h.nodup o q hq).mem_erase_iff.mp hmem
        exact ⟨q, hj ▸ hq, hx'.2, fun _ => hx'.1⟩
      · exact ⟨r, hr, hmem, fun hj' => absurd hj' hj⟩
    obtain ⟨r', hr', hmem', hne⟩ := hold
    obtain ⟨hown, htab⟩ := h.listed j r' x pv' hr' hmem' hx
    rw [hname, hn] at htab
    cases htab
    rw [he] at hx
    cases hx
    rw [ho] at hown
    cases hown
    exact hne rfl rfl

/-- **Insertion keeps the storage well formed**, whatever its outcome. -/
theorem WF.installed {d d' : Dir} {n : Name} {i : IocId} {r : ℤ} (h : WF d)
    (hi : Installed d n i d' r) : WF d' := by
  cases hi with
  | entered hp hn => exact h.enter hp hn
  | ownHeartbeat => exact h
  | moved hp hn _ he ho hq _ hp' =>
      refine (h.takePV hn he ho hq).enter hp' ?_
      rw [takePV_stringResTbl, if_pos rfl]
  | refused => exact h

/-! ## Removal -/

/-- The entry that `remove_all_pvs` puts back: the heartbeat of an IOC that has a signal list. -/
def keeps (d : Dir) (p : PIoc) (e : PvEId) : Bool :=
  match d.pvEs e with
  | some pv => !p.pathToList.isEmpty && decide (pv.resourceName = p.heartbeatName)
  | none => false

theorem keeps_eq_true_iff {d : Dir} {p : PIoc} {e : PvEId} :
    d.keeps p e = true ↔
      ∃ pv, d.pvEs e = some pv ∧ p.pathToList ≠ [] ∧ pv.resourceName = p.heartbeatName := by
  unfold keeps
  cases d.pvEs e <;> simp

/-- The entries that `remove_all_pvs` deletes. -/
def gone (d : Dir) (p : PIoc) (l : List PvEId) (e : PvEId) : Bool := decide (e ∈ l) && !d.keeps p e

/-- What `remove_all_pvs` leaves. -/
structure Removed (d : Dir) (i : IocId) (p : PIoc) (d' : Dir) : Prop where
  pvEs : ∀ e, d'.pvEs e = if d.gone p p.pvEList e then none else d.pvEs e
  stringResTbl : ∀ n, d'.stringResTbl n = (d.stringResTbl n).filter (!d.gone p p.pvEList ·)
  pIocs : ∀ j, d'.pIocs j =
    if j = i then some { p with pvEList := p.pvEList.filter (d.keeps p) } else d.pIocs j
  iocResTbl : d'.iocResTbl = d.iocResTbl
  nextPvE : d'.nextPvE = d.nextPvE
  nextPIoc : d'.nextPIoc = d.nextPIoc

theorem Removed.pIocs_self {d d' : Dir} {i : IocId} {p : PIoc} (h : Removed d i p d') :
    d'.pIocs i = some { p with pvEList := p.pvEList.filter (d.keeps p) } := by
  rw [h.pIocs, if_pos rfl]

/-- The loop of `remove_all_pvs` after the part `l` of the list. -/
structure Removing (d : Dir) (i : IocId) (p : PIoc) (l : List PvEId) (d' : Dir)
    (hb : Option PvEId) : Prop where
  pvEs : ∀ e, d'.pvEs e = if d.gone p l e then none else d.pvEs e
  stringResTbl : ∀ n, d'.stringResTbl n = (d.stringResTbl n).filter (!d.gone p l ·)
  pIocs : ∀ j, d'.pIocs j = if j = i then some { p with pvEList := [] } else d.pIocs j
  iocResTbl : d'.iocResTbl = d.iocResTbl
  nextPvE : d'.nextPvE = d.nextPvE
  nextPIoc : d'.nextPIoc = d.nextPIoc
  hb : hb.toList = l.filter (d.keeps p)

theorem gone_append_of_keeps {d : Dir} {p : PIoc} {l : List PvEId} {e : PvEId}
    (he : d.keeps p e = true) (x : PvEId) : d.gone p (l ++ [e]) x = d.gone p l x := by
  by_cases hx : x = e
  · simp [gone, hx, he]
  · simp [gone, hx]

theorem gone_append_of_ne {d : Dir} {p : PIoc} {l : List PvEId} {e x : PvEId} (hx : x ≠ e) :
    d.gone p (l ++ [e]) x = d.gone p l x := by
  simp [gone, hx]

theorem Removing.start (d : Dir) (i : IocId) (p : PIoc) :
    Removing d i p [] (d.setPIoc i { p with pvEList := [] }) none := by
  refine ⟨fun e => by simp [gone], fun n => ?_, fun j => setPIoc_pIocs .., rfl, rfl, rfl, rfl⟩
  cases hn : d.stringResTbl n <;> simp [gone, hn, Option.filter_some]

/-- What the loop of `remove_all_pvs` does with an element of the list, by the name it is read
under. -/
def removeNamed (removeAll : Bool) (checkStr pvNameStr : Name) (acc : Dir × Option PvEId)
    (pve : PvEId) : Dir × Option PvEId :=
  if removeAll ∨ checkStr ≠ pvNameStr then
    ((if acc.1.stringResTbl pvNameStr = some pve then acc.1.tblRemove pvNameStr
      else acc.1).deletePvE pve, acc.2)
  else (acc.1, some pve)

theorem removeBody_eq_ok_iff {removeAll : Bool} {checkStr : Name} {acc acc' : Dir × Option PvEId}
    {pve : PvEId} : removeBody removeAll checkStr acc pve = .ok acc' ↔
      ∃ pv, acc.1.pvEs pve = some pv ∧ pv.resourceName.length < pvNameSz - 1 ∧
        acc' = removeNamed removeAll checkStr pv.resourceName acc pve := by
  simp only [removeBody, bind_eq_ok_iff, getPvE_eq_ok_iff, PvE.getName, strncpy_eq_ok_iff,
    removeNamed]
  constructor
  · rintro ⟨pv, hpv, _, ⟨hlen, rfl⟩, h⟩
    refine ⟨pv, hpv, hlen, ?_⟩
    split_ifs at h ⊢ <;> cases h <;> rfl
  · rintro ⟨pv, hpv, hlen, rfl⟩
    refine ⟨pv, hpv, _, ⟨hlen, rfl⟩, ?_⟩
    split_ifs <;> rfl

/-- An element of the list is as it was before the loop when its turn comes. -/
theorem Removing.pvEs_of_mem {d d₁ : Dir} {i : IocId} {p : PIoc} {pre post : List PvEId} {e : PvEId}
    {hb₁ : Option PvEId} (hwf : WF d) (hp : d.pIocs i = some p) (hl : p.pvEList = pre ++ e :: post)
    (h : Removing d i p pre d₁ hb₁) : d₁.pvEs e = d.pvEs e := by
  have hpre : e ∉ pre := not_mem_done (hwf.nodup i p hp) hl
  rw [h.pvEs, if_neg (by simp [gone, hpre])]

/-- One element of the list is dealt with. -/
theorem Removing.step {d d₁ : Dir} {i : IocId} {p : PIoc} {pre post : List PvEId} {e : PvEId}
    {hb₁ : Option PvEId} {removeAll : Bool} {checkStr : Name} {pv : PvE} (hwf : WF d)
    (hp : d.pIocs i = some p) (hl : p.pvEList = pre ++ e :: post)
    (hall : removeAll = p.pathToList.isEmpty)
    (hcheck : removeAll = false → checkStr = p.heartbeatName)
    (h : Removing d i p pre d₁ hb₁) (he₁ : d₁.pvEs e = some pv) :
    Removing d i p (pre ++ [e]) (removeNamed removeAll checkStr pv.resourceName (d₁, hb₁) e).1
      (removeNamed removeAll checkStr pv.resourceName (d₁, hb₁) e).2 := by
  have hmem : e ∈ p.pvEList := by simp [hl]
  have hpre : e ∉ pre := not_mem_done (hwf.nodup i p hp) hl
  have he : d.pvEs e = some pv := by
    rw [h.pvEs] at he₁
    split_ifs at he₁
    exact he₁
  obtain ⟨-, htab⟩ := hwf.listed i p e pv hp hmem he
  have hkeeps : d.keeps p e = (!removeAll && decide (pv.resourceName = p.heartbeatName)) := by
    simp [keeps, he, hall]
  have hne : ∀ n x, d.stringResTbl n = some x → n ≠ pv.resourceName → x ≠ e := by
    rintro n x hn hname rfl
    obtain ⟨pv', he', hname'⟩ := hwf.table n x hn
    rw [he] at he'
    cases he'
    exact hname hname'.symm
  rw [removeNamed]
  split_ifs with hc htab₁
  · -- a PV of the list: out of the table and deleted
    have hk : d.keeps p e = false := by
      rw [hkeeps]
      rcases hc with hc | hc
      · simp [hc]
      · cases hr : removeAll with
        | true => rfl
        | false => simpa [hcheck hr, eq_comm] using hc
    refine ⟨fun x => ?_, fun n => ?_, h.pIocs, h.iocResTbl, h.nextPvE, h.nextPIoc, ?_⟩
    · by_cases hx : x = e
      · simp [deletePvE, gone, hx, hk]
      · rw [gone_append_of_ne hx, ← h.pvEs x]
        simp [deletePvE, tblRemove, hx]
    · show Function.update d₁.stringResTbl pv.resourceName none n = _
      by_cases hn : n = pv.resourceName
      · rw [hn, htab, Function.update_self, Option.filter_some]
        simp [gone, hk]
      · rw [Function.update_of_ne hn, h.stringResTbl]
        cases hx : d.stringResTbl n with
        | none => rfl
        | some x => simp only [Option.filter_some, gone_append_of_ne (hne n x hx hn)]
    · rw [h.hb]
      simp [hk]
  · -- the table always has the entry of the list
    refine absurd ?_ htab₁
    rw [h.stringResTbl, htab]
    simp [gone, hpre]
  · -- the heartbeat, set aside
    obtain ⟨hr, hname⟩ := not_or.mp hc
    rw [not_not] at hname
    have hr' : removeAll = false := by simpa using hr
    have hk : d.keeps p e = true := by
      rw [hkeeps, hr', ← hcheck hr']
      simp [hname]
    refine ⟨fun x => ?_, fun n => ?_, h.pIocs, h.iocResTbl, h.nextPvE, h.nextPIoc, ?_⟩
    · rw [gone_append_of_keeps hk, h.pvEs]
    · simp only [gone_append_of_keeps hk, h.stringResTbl]
    · -- there is only one heartbeat: its name is in the table once
      have hfilter : pre.filter (d.keeps p) = [] := by
        refine List.filter_eq_nil_iff.mpr fun x hx hkx => ?_
        have hxmem : x ∈ p.pvEList := by simp [hl, hx]
        obtain ⟨pv', hx', -, hxname⟩ := keeps_eq_true_iff.mp hkx
        obtain ⟨-, hxtab⟩ := hwf.listed i p x pv' hp hxmem hx'
        rw [hxname, ← hcheck hr', hname, htab] at hxtab
        cases hxtab
        exact hpre hx
      simp [hfilter, hk]

/-- One turn of the loop. -/
theorem Removing.body {d : Dir} {i : IocId} {p : PIoc} {pre post : List PvEId} {e : PvEId}
    {acc acc' : Dir × Option PvEId} {removeAll : Bool} {checkStr : Name} (hwf : WF d)
    (hp : d.pIocs i = some p) (hl : p.pvEList = pre ++ e :: post)
    (hall : removeAll = p.pathToList.isEmpty)
    (hcheck : removeAll = false → checkStr = p.heartbeatName)
    (h : Removing d i p pre acc.1 acc.2)
    (hbody : removeBody removeAll checkStr acc e = .ok acc') :
    Removing d i p (pre ++ [e]) acc'.1 acc'.2 := by
  obtain ⟨pv, hpv, -, rfl⟩ := removeBody_eq_ok_iff.mp hbody
  exact h.step hwf hp hl hall hcheck hpv

/-- The end of `remove_all_pvs`: the heartbeat is put back. -/
def putBack (d : Dir) (i : IocId) : Option PvEId → Except Fault Dir
  | none => .ok d
  | some pve => d.add i pve

theorem Removing.removed {d d₁ d' : Dir} {i : IocId} {p : PIoc} {hb : Option PvEId}
    (hdone : Removing d i p p.pvEList d₁ hb) (h : d₁.putBack i hb = .ok d') : Removed d i p d' := by
  cases hb with
  | none =>
      cases h
      refine ⟨hdone.pvEs, hdone.stringResTbl, fun j => ?_, hdone.iocResTbl, hdone.nextPvE,
        hdone.nextPIoc⟩
      rw [hdone.pIocs, ← hdone.hb]
      rfl
  | some pve =>
      simp only [putBack, add, bind_eq_ok_iff, getPIoc_eq_ok_iff, pure_eq_ok_iff, hdone.pIocs,
        if_pos] at h
      obtain ⟨_, hq, rfl⟩ := h
      cases hq
      refine ⟨hdone.pvEs, hdone.stringResTbl, fun j => ?_, hdone.iocResTbl, hdone.nextPvE,
        hdone.nextPIoc⟩
      rw [setPIoc_pIocs, hdone.pIocs, ← hdone.hb]
      split_ifs <;> rfl

theorem checkStrOf_eq_ok_iff {removeAll : Bool} {iocName checkStr : Name} :
    checkStrOf removeAll iocName = .ok checkStr ↔
      if removeAll then checkStr = []
      else (iocName ++ heartbeat).length < pvNameSz ∧ checkStr = iocName ++ heartbeat := by
  cases removeAll with
  | true => simp [checkStrOf, eq_comm]
  | false => simp [checkStrOf, writeBuf_eq_ok_iff]

/-- For an IOC with a signal list `checkStr` is the name of its heartbeat. -/
theorem eq_heartbeatName_of_checkStrOf {p : PIoc} {checkStr : Name}
    (h : checkStrOf p.pathToList.isEmpty p.iocname = .ok checkStr) :
    p.pathToList.isEmpty = false → checkStr = p.heartbeatName := by
  intro hpath
  rw [hpath, checkStrOf_eq_ok_iff] at h
  exact h.2

/-- **What `remove_all_pvs` does**, when it has a defined outcome. -/
theorem removeAllPvs_removed {d d' : Dir} {i : IocId} (hwf : WF d)
    (h : d.removeAllPvs i = .ok d') : ∃ p, d.pIocs i = some p ∧ Removed d i p d' := by
  simp only [removeAllPvs, bind_eq_ok_iff, getPIoc_eq_ok_iff, PIoc.getIocname,
    PIoc.getPathToList, strncpy_eq_ok_iff] at h
  obtain ⟨p, hp, _, ⟨-, rfl⟩, _, ⟨-, rfl⟩, checkStr, hcheck, ⟨d₁, hb⟩, hloop, h⟩ := h
  refine ⟨p, hp, ?_⟩
  have hcheck' := eq_heartbeatName_of_checkStrOf hcheck
  have hdone : Removing d i p p.pvEList d₁ hb := by
    refine foldlM_prefix_induct (P := fun l acc => Removing d i p l acc.1 acc.2) hloop
      (Removing.start d i p) ?_
    intro pre e post acc acc' hl hacc hbody
    exact hacc.body hwf hp hl rfl hcheck' hbody
  have hback : d₁.putBack i hb = .ok d' := by
    cases hb with
    | none => exact h
    | some pve => exact h
  exact hdone.removed hback

/-- **Removal keeps the storage well formed.** -/
theorem WF.removed {d d' : Dir} {i : IocId} {p : PIoc} (h : WF d) (hp : d.pIocs i = some p)
    (hr : Removed d i p d') : WF d' := by
  refine h.shrink ?_ ?_ ?_ ?_ ?_ hr.nextPvE hr.nextPIoc hr.iocResTbl
  · intro n e hn
    rw [hr.stringResTbl, Option.filter_eq_some_iff] at hn
    refine ⟨hn.1, ?_⟩
    rw [hr.pvEs, if_neg (by simpa using hn.2)]
  · intro e pv he
    rw [hr.pvEs] at he
    split_ifs at he
    exact he
  · intro j q hq
    rw [hr.pIocs] at hq
    split_ifs at hq with hj
    · cases hq
      exact ⟨p, hj ▸ hp, rfl, List.filter_sublist⟩
    · exact ⟨q, hq, rfl, List.Sublist.refl _⟩
  · intro j q hq
    rw [hr.pIocs]
    split_ifs
    · simp
    · simp [hq]
  · intro j q e pv hq hmem he
    rw [hr.pvEs] at he
    split_ifs at he with hgone
    rw [hr.pIocs] at hq
    have hold : ∃ q', d.pIocs j = some q' ∧ e ∈ q'.pvEList := by
      split_ifs at hq with hj
      · cases hq
        exact ⟨p, hj ▸ hp, (List.mem_filter.mp hmem).1⟩
      · exact ⟨q, hq, hmem⟩
    obtain ⟨q', hq', hmem'⟩ := hold
    obtain ⟨-, htab⟩ := h.listed j q' e pv hq' hmem' he
    rw [hr.stringResTbl, htab, Option.filter_some, if_pos (by simpa using hgone)]

theorem WF.removeAllPvs {d d' : Dir} {i : IocId} (h : WF d) (hr : d.removeAllPvs i = .ok d') :
    WF d' := by
  obtain ⟨p, hp, hrem⟩ := removeAllPvs_removed h hr
  exact h.removed hp hrem

/-! ## Loading a list -/

theorem addAllPvs_pIoc {fs : FileSystem} {d d' : Dir} {i : IocId} {r : ℤ}
    (h : d.addAllPvs fs i = .ok (d', r)) : ∃ p, d.pIocs i = some p := by
  rw [addAllPvs, bind_eq_ok_iff] at h
  obtain ⟨p, hp, -⟩ := h
  exact ⟨p, getPIoc_eq_ok_iff.mp hp⟩

/-- The loop over a signal list, by the part of it that has been read. -/
theorem addAllPvs_prefix_induct {P : List Name → Dir → Prop} {fs : FileSystem} {d d' : Dir}
    {i : IocId} {r : ℤ} {p : PIoc} (h : d.addAllPvs fs i = .ok (d', r))
    (hp : d.pIocs i = some p) (hd : P [] d)
    (hstep : ∀ pre n post d₁ d₂ r, signals fs p.pathToList = pre ++ n :: post →
      P pre d₁ → Installed d₁ n i d₂ r → P (pre ++ [n]) d₂) :
    P (signals fs p.pathToList) d' := by
  simp only [addAllPvs, bind_eq_ok_iff, getPIoc_eq_ok_iff, PIoc.getPathToList,
    strncpy_eq_ok_iff] at h
  obtain ⟨q, hq, _, ⟨-, rfl⟩, h⟩ := h
  rw [hp] at hq
  cases hq
  unfold signals at hstep ⊢
  cases hf : fopen fs p.pathToList with
  | none =>
      simp only [hf] at h
      cases h
      exact hd
  | some pf =>
      simp only [hf] at hstep
      simp only [hf, parseDirectoryFP, bind_eq_ok_iff] at h
      obtain ⟨⟨d₁, hearts⟩, hloop, h⟩ := h
      cases h
      refine foldlM_prefix_induct (P := fun pre (acc : Dir × ℕ) => P (pre.map cstr) acc.1)
        hloop hd fun pre token post acc acc' hl hP hbody => ?_
      simp only [parseBody, bind_eq_ok_iff] at hbody
      obtain ⟨_, -, ⟨d₂, failed⟩, hinst, hbody⟩ := hbody
      cases hbody
      rw [List.map_append, List.map_singleton]
      refine hstep (pre.map cstr) (cstr token) (post.map cstr) _ _ _ ?_ hP
        (installPVName_installed hinst)
      rw [hl, List.map_append, List.map_cons]

/-- What the insertion of every listed name keeps, loading the list keeps. -/
theorem addAllPvs_induct {P : Dir → Prop} {fs : FileSystem} {d d' : Dir} {i : IocId} {r : ℤ}
    (h : d.addAllPvs fs i = .ok (d', r)) (hd : P d)
    (hstep : ∀ p, d.pIocs i = some p → ∀ n ∈ signals fs p.pathToList, ∀ d₁ d₂ r,
      P d₁ → Installed d₁ n i d₂ r → P d₂) : P d' := by
  obtain ⟨p, hp⟩ := addAllPvs_pIoc h
  refine addAllPvs_prefix_induct (P := fun _ => P) h hp hd fun pre n post d₁ d₂ r hl hP hi => ?_
  refine hstep p hp n ?_ d₁ d₂ r hP hi
  rw [hl]
  exact List.mem_append_right _ (List.mem_cons_self ..)

/-- Every listed name is in the table once the list is loaded. -/
theorem addAllPvs_mem {fs : FileSystem} {d d' : Dir} {i : IocId} {r : ℤ} {p : PIoc}
    (h : d.addAllPvs fs i = .ok (d', r)) (hp : d.pIocs i = some p) {n : Name}
    (hn : n ∈ signals fs p.pathToList) : d'.stringResTbl n ≠ none := by
  refine addAllPvs_prefix_induct (P := fun l d => ∀ m ∈ l, d.stringResTbl m ≠ none) h hp
    (fun m hm => nomatch hm) (fun pre m post d₁ d₂ r _ hP hi => ?_) n hn
  intro m' hm'
  rcases List.mem_append.mp hm' with hm' | hm'
  · exact hi.mono (hP m' hm')
  · rw [List.mem_singleton.mp hm']
    exact hi.mem

theorem addAllPvs_mono {fs : FileSystem} {d d' : Dir} {i : IocId} {r : ℤ}
    (h : d.addAllPvs fs i = .ok (d', r)) {n : Name} (hn : d.stringResTbl n ≠ none) :
    d'.stringResTbl n ≠ none :=
  addAllPvs_induct (P := fun d => d.stringResTbl n ≠ none) h hn
    fun _ _ _ _ _ _ _ hP hi => hi.mono hP

theorem WF.addAllPvs {fs : FileSystem} {d d' : Dir} {i : IocId} {r : ℤ} (h : WF d)
    (ha : d.addAllPvs fs i = .ok (d', r)) : WF d' :=
  addAllPvs_induct ha h fun _ _ _ _ _ _ _ hwf hi => hwf.installed hi

theorem WF.installIocName {d : Dir} (h : WF d) (name path : Name) :
    WF (d.installIocName name path).1 := by
  unfold Dir.installIocName
  cases hname : d.iocResTbl name with
  | some i => exact h
  | none =>
      have hfresh : d.pIocs d.nextPIoc = none := by
        cases hp : d.pIocs d.nextPIoc with
        | none => rfl
        | some p => exact absurd (h.pIocs_lt _ p hp) (lt_irrefl _)
      have hcase : ∀ j q, Function.update d.pIocs d.nextPIoc
          (some ⟨name, path, 0, SockAddr.zero, []⟩) j = some q →
          q.pvEList = [] ∨ d.pIocs j = some q := by
        intro j q hq
        by_cases hj : j = d.nextPIoc
        · rw [hj, Function.update_self] at hq
          cases hq
          exact Or.inl rfl
        · rw [Function.update_of_ne hj] at hq
          exact Or.inr hq
      refine ⟨h.table, ?_, ?_, h.pvEs_lt, fun e pv he => ?_, ?_, ?_, ?_⟩
      · intro j q e pv hq hmem he
        rcases hcase j q hq with hnil | hold
        · rw [hnil] at hmem
          cases hmem
        · exact h.listed j q e pv hold hmem he
      · intro j q hq
        rcases hcase j q hq with hnil | hold
        · rw [hnil]
          exact List.nodup_nil
        · exact h.nodup j q hold
      · obtain ⟨i, hi, hlt⟩ := h.owner_lt e pv he
        exact ⟨i, hi, Nat.lt_succ_of_lt hlt⟩
      · intro j q e hq hmem
        rcases hcase j q hq with hnil | hold
        · rw [hnil] at hmem
          cases hmem
        · exact h.listed_lt j q e hold hmem
      · intro n j
        show Function.update d.iocResTbl name (some d.nextPIoc) n = some j ↔
          ∃ p, Function.update d.pIocs d.nextPIoc _ j = some p ∧ p.iocname = n
        by_cases hj : j = d.nextPIoc
        · subst hj
          rw [Function.update_self]
          by_cases hn : n = name
          · simp [hn]
          · rw [Function.update_of_ne hn, h.iocTable]
            simp [hfresh, Ne.symm hn]
        · rw [Function.update_of_ne hj]
          by_cases hn : n = name
          · subst hn
            rw [Function.update_self, ← h.iocTable, hname]
            simp [Ne.symm hj]
          · rw [Function.update_of_ne hn, h.iocTable]
      · intro j q hq
        show j < d.nextPIoc + 1
        by_cases hj : j = d.nextPIoc
        · exact hj ▸ Nat.lt_succ_self _
        · have hold : d.pIocs j = some q := by
            simpa [Function.update_of_ne hj] using hq
          exact Nat.lt_succ_of_lt (h.pIocs_lt j q hold)

end Dir

end CaNameserver
