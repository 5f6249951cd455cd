import CaNameserver.Runs

/-!
# PVs on the lists of their IOCs

A reload takes out of the table what is on the IOC's list and puts in what the file names.  So
where a PV goes when IOCs reboot depends on whether its entry is on the list of its owner
(`Listed`), and not on the owner alone: a learned PV has an owner, too, and no list.

## What others do

An insertion by another IOC leaves a listed PV where it is, unless its owner is down and the
insertion is of this very name (`Listed.installed`).  From this follows what the reload of another
IOC does, loop and all (`Listed.addAllPvs`, `Listed.reloaded`), and the connection of another PV
(`Listed.learned`).

## What its own IOC does

* `Reloaded.listed`: after its reload an IOC has the PVs its file names that were on its list, or
  that nobody who is up has.
* `Reloaded.absent`: a PV of its list that the file no longer names is gone.
* `Reloaded.stays_absent`: a PV that is not in the table is not brought in by a file that does not
  name it.

## Startup

Startup puts every PV on the list of its owner (`startup_listed`).  In between there may be
entries of an IOC that has been rejected; `AllListed` is the invariant of the loop, and excepts
them.
-/

namespace CaNameserver

open CStr Fallible Transition

namespace Dir

/-- The table's entry of a PV is on the list of the IOC at `i`. -/
def Listed (d : Dir) (n : Name) (i : IocId) : Prop :=
  ∃ e p, d.stringResTbl n = some e ∧ d.pIocs i = some p ∧ e ∈ p.pvEList

/-- The IOC that owns a PV, if any, is down. -/
def OwnerDown (d : Dir) (n : Name) : Prop :=
  ∀ o, d.owner n = some o → ∃ q, d.pIocs o = some q ∧ q.status = 2

variable {d d' : Dir} {n m : Name} {i j : IocId}

theorem Listed.owner (h : d.Listed n i) (hwf : WF d) : d.owner n = some i := by
  obtain ⟨e, p, he, hp, hmem⟩ := h
  exact hwf.owner_of_listed hp hmem he

/-- The entry stays in the table and on the list. -/
theorem Listed.frame (h : d.Listed n i)
    (htab : ∀ e, d.stringResTbl n = some e → d'.stringResTbl n = some e)
    (hlist : ∀ e p, d.stringResTbl n = some e → d.pIocs i = some p → e ∈ p.pvEList →
      ∃ q, d'.pIocs i = some q ∧ e ∈ q.pvEList) : d'.Listed n i := by
  obtain ⟨e, p, he, hp, hmem⟩ := h
  obtain ⟨q, hq, hmem'⟩ := hlist e p he hp hmem
  exact ⟨e, q, htab e he, hq, hmem'⟩

theorem Listed.setPIoc (h : d.Listed n i) {p q : PIoc} (hp : d.pIocs j = some p)
    (hq : j = i → q.pvEList = p.pvEList) : (d.setPIoc j q).Listed n i := by
  refine h.frame (fun e he => he) fun e r _ hr hmem => ?_
  rw [setPIoc_pIocs]
  by_cases hij : i = j
  · subst hij
    rw [hp] at hr
    cases hr
    exact ⟨q, if_pos rfl, (hq rfl).symm ▸ hmem⟩
  · exact ⟨r, by rw [if_neg hij, hr], hmem⟩

theorem Listed.installIocName (h : d.Listed n i) (hwf : WF d) (name path : Name) :
    (d.installIocName name path).1.Listed n i := by
  cases hfree : d.iocResTbl name with
  | some k =>
      rw [Dir.installIocName, hfree]
      exact h
  | none =>
      refine h.frame (fun e he => ?_) fun e p _ hp hmem => ⟨p, ?_, hmem⟩
      · rw [Dir.installIocName, hfree]
        exact he
      · rw [installIocName_pIocs hfree, if_neg (hwf.pIocs_lt i p hp).ne, hp]

/-! ## Insertion and removal -/

theorem listed_enter (d : Dir) (n : Name) (i : IocId) (p : PIoc) : (d.enter n i p).Listed n i :=
  ⟨d.nextPvE, { p with pvEList := d.nextPvE :: p.pvEList }, by rw [enter_stringResTbl, if_pos rfl],
    by rw [enter_pIocs, if_pos rfl], List.mem_cons_self ..⟩

theorem Listed.enter (h : d.Listed n i) (hn : n ≠ m) {p : PIoc} (hp : d.pIocs j = some p) :
    (d.enter m j p).Listed n i := by
  refine h.frame (fun e he => ?_) fun e r _ hr hmem => ?_
  · rw [enter_stringResTbl, if_neg hn, he]
  · rw [enter_pIocs]
    by_cases hij : i = j
    · subst hij
      rw [hp] at hr
      cases hr
      exact ⟨_, if_pos rfl, List.mem_cons_of_mem _ hmem⟩
    · exact ⟨r, by rw [if_neg hij, hr], hmem⟩

theorem Listed.takePV (h : d.Listed n i) (hwf : WF d) (hn : n ≠ m) {e : PvEId} {o : IocId}
    {q : PIoc} (hm : d.stringResTbl m = some e) (hq : d.pIocs o = some q) :
    (d.takePV m e o q).Listed n i := by
  refine h.frame (fun x hx => ?_) fun x r hx hr hmem => ?_
  · rw [takePV_stringResTbl, if_neg hn, hx]
  · have hxe : x ≠ e := by
      rintro rfl
      exact hn (hwf.table_inj hx hm)
    rw [takePV_pIocs _ _ _ _ _ _ hq]
    by_cases hio : i = o
    · subst hio
      rw [hq] at hr
      cases hr
      exact ⟨_, if_pos rfl, (List.mem_erase_of_ne hxe).mpr hmem⟩
    · exact ⟨r, by rw [if_neg hio, hr], hmem⟩

/-- A listed PV stays where it is, or is listed anew, unless its owner is down and another IOC
inserts it. -/
theorem Listed.installed (h : d.Listed n i) (hwf : WF d) {r : ℤ} (hi : Installed d m j d' r)
    (hm : m = n → j = i ∨ ∃ q, d.pIocs i = some q ∧ q.status ≠ 2) : d'.Listed n i := by
  cases hi with
  | entered hp hfree =>
      refine h.enter ?_ hp
      rintro rfl
      obtain ⟨e, _, he, -⟩ := h
      rw [hfree] at he
      cases he
  | ownHeartbeat => exact h
  | @moved p q p' e pv o hp he hname hpv ho hq hdown hp' =>
      by_cases hmn : m = n
      · subst hmn
        rcases hm rfl with rfl | ⟨q', hq', hup⟩
        · exact listed_enter _ _ _ _
        · have hown := h.owner hwf
          rw [owner_of_entry he hpv, ho] at hown
          cases hown
          rw [hq] at hq'
          cases hq'
          exact absurd hdown hup
      · exact (h.takePV hwf (Ne.symm hmn) he hq).enter (Ne.symm hmn) hp'
  | refused => exact h

/-- An inserted PV is listed, if it was free or its owner down. -/
theorem Installed.listed {p : PIoc} {r : ℤ} (hi : Installed d n i d' r) (hwf : WF d)
    (hp : d.pIocs i = some p) (hname : n ≠ p.heartbeatName) (hdown : d.OwnerDown n) :
    d'.Listed n i := by
  cases hi with
  | entered => exact listed_enter _ _ _ _
  | ownHeartbeat hp' _ hname' =>
      rw [hp] at hp'
      cases hp'
      exact absurd hname' hname
  | moved => exact listed_enter _ _ _ _
  | refused _ he _ hpv hup =>
      obtain ⟨o, ho, -⟩ := hwf.owner_lt _ _ hpv
      obtain ⟨q, hq, hst⟩ := hdown o (by rw [owner_of_entry he hpv, ho])
      exact absurd hst (hup o q ho hq)

theorem Listed.removed (h : d.Listed n i) (hwf : WF d) {p : PIoc} (hp : d.pIocs j = some p)
    (hr : Removed d j p d') (hj : j ≠ i) : d'.Listed n i := by
  have hown : d.owner n ≠ some j := by
    rw [h.owner hwf]
    exact fun heq => hj (Option.some.inj heq).symm
  refine h.frame (fun e he => ?_) fun e q _ hq hmem => ⟨q, ?_, hmem⟩
  · rw [(hr.owner_of_ne hwf hp hown).1, he]
  · rw [hr.pIocs, if_neg hj.symm, hq]

/-- Removal takes a listed PV out of the table, unless it is the IOC's heartbeat. -/
theorem Listed.absent (h : d.Listed n i) (hwf : WF d) {p : PIoc} (hp : d.pIocs i = some p)
    (hr : Removed d i p d') (hname : n ≠ p.heartbeatName) : d'.stringResTbl n = none := by
  obtain ⟨e, p', he, hp', hmem⟩ := h
  rw [hp] at hp'
  cases hp'
  have hkeep : d.keeps p e = false := by
    rw [Bool.eq_false_iff, Ne, keeps_eq_true_iff]
    rintro ⟨pv, hpv, -, hpvname⟩
    obtain ⟨pv', hpv', hn⟩ := hwf.table n e he
    rw [hpv] at hpv'
    cases hpv'
    exact hname (hn.symm.trans hpvname)
  rw [hr.stringResTbl, he, Option.filter_some]
  simp [gone, hmem, hkeep]

/-! ## Loading a list -/

theorem Listed.addAllPvs (h : d.Listed n i) (hwf : WF d) {fs : FileSystem} {p : PIoc} {r : ℤ}
    (ha : d.addAllPvs fs j = .ok (d', r)) (hp : d.pIocs j = some p)
    (hm : n ∈ signals fs p.pathToList → j = i ∨ ∃ q, d.pIocs i = some q ∧ q.status ≠ 2) :
    d'.Listed n i := by
  have hall : WF d' ∧ d'.Listed n i ∧ d'.header = d.header := by
    refine addAllPvs_induct (P := fun d' => WF d' ∧ d'.Listed n i ∧ d'.header = d.header) ha
      ⟨hwf, h, rfl⟩ ?_
    rintro p' hp' m hmem d₁ d₂ r' ⟨hwf₁, h₁, hhead⟩ hi
    rw [hp] at hp'
    cases hp'
    refine ⟨hwf₁.installed hi, h₁.installed hwf₁ hi fun hmn => ?_, hi.header.trans hhead⟩
    refine (hm (hmn ▸ hmem)).imp_right ?_
    rintro ⟨q, hq, hup⟩
    have hq' := header_of_pIocs hq
    rw [← hhead] at hq'
    obtain ⟨q₁, hq₁, hqq⟩ := header_eq_some_iff.mp hq'
    have hst : q₁.status = q.status := (PIoc.eq_of_header hqq).2.2.1
    exact ⟨q₁, hq₁, hst ▸ hup⟩
  exact hall.2.1

/-- A name that is read is listed, if it was free or its owner down. -/
theorem addAllPvs_listed (hwf : WF d) {fs : FileSystem} {p : PIoc} {r : ℤ}
    (ha : d.addAllPvs fs i = .ok (d', r)) (hp : d.pIocs i = some p)
    (hn : n ∈ signals fs p.pathToList) (hname : n ≠ p.heartbeatName) (hdown : d.OwnerDown n) :
    d'.Listed n i := by
  have hall : WF d' ∧ d'.header = d.header ∧ (d'.Listed n i ∨
      n ∉ signals fs p.pathToList ∧ d'.owner n = d.owner n) := by
    refine addAllPvs_prefix_induct (P := fun pre d' => WF d' ∧ d'.header = d.header ∧
      (d'.Listed n i ∨ n ∉ pre ∧ d'.owner n = d.owner n)) ha hp
      ⟨hwf, rfl, Or.inr ⟨List.not_mem_nil, rfl⟩⟩ ?_
    rintro pre m post d₁ d₂ r' - ⟨hwf₁, hhead, h₁⟩ hi
    refine ⟨hwf₁.installed hi, hi.header.trans hhead, ?_⟩
    rcases h₁ with h₁ | ⟨hpre, hown⟩
    · exact Or.inl (h₁.installed hwf₁ hi fun _ => Or.inl rfl)
    · by_cases hmn : n = m
      · subst hmn
        have hp' := header_of_pIocs hp
        rw [← hhead] at hp'
        obtain ⟨p₁, hp₁, hpp⟩ := header_eq_some_iff.mp hp'
        have hiocname : p₁.iocname = p.iocname := (PIoc.eq_of_header hpp).1
        refine Or.inl (hi.listed hwf₁ hp₁ ?_ fun o ho => ?_)
        · rw [PIoc.heartbeatName, hiocname]
          exact hname
        · obtain ⟨q, hq, hst⟩ := hdown o (hown ▸ ho)
          have hq' := header_of_pIocs hq
          rw [← hhead] at hq'
          obtain ⟨q₁, hq₁, hqq⟩ := header_eq_some_iff.mp hq'
          exact ⟨q₁, hq₁, (PIoc.eq_of_header hqq).2.2.1.trans hst⟩
      · refine Or.inr ⟨?_, (hi.owner_of_ne hwf₁ hmn).trans hown⟩
        rw [List.mem_append, List.mem_singleton]
        exact fun h => h.elim hpre hmn
  exact hall.2.2.resolve_right fun h => h.1 hn

/-- A name that is not read keeps its owner. -/
theorem addAllPvs_owner_of_not_mem (hwf : WF d) {fs : FileSystem} {p : PIoc} {r : ℤ}
    (ha : d.addAllPvs fs i = .ok (d', r)) (hp : d.pIocs i = some p)
    (hn : n ∉ signals fs p.pathToList) : d'.owner n = d.owner n := by
  have hall : WF d' ∧ d'.owner n = d.owner n := by
    refine addAllPvs_induct (P := fun d' => WF d' ∧ d'.owner n = d.owner n) ha ⟨hwf, rfl⟩ ?_
    rintro p' hp' m hmem d₁ d₂ r' ⟨hwf₁, hown⟩ hi
    rw [hp] at hp'
    cases hp'
    refine ⟨hwf₁.installed hi, (hi.owner_of_ne hwf₁ ?_).trans hown⟩
    rintro rfl
    exact hn hmem
  exact hall.2

/-! ## Reloads -/

/-- The connection of another IOC's heartbeat leaves a listed PV where it is. -/
theorem Listed.reloaded (h : d.Listed n i) (hwf : WF d) {cn : Connection} {p : PIoc}
    (hr : Reloaded d j cn d') (hp : d.pIocs j = some p) (hj : j ≠ i)
    (hsig : p.status = 2 → n ∈ signals cn.fs p.pathToList →
      ∃ q, d.pIocs i = some q ∧ q.status ≠ 2) : d'.Listed n i := by
  by_cases hst : p.status = 2
  · obtain ⟨d₁, d₂, q, r, hwfA, hrem, hwf₁, hadd, hq, rfl⟩ := hr.of_down hwf hp hst
    have hA := h.setPIoc (q := { p with addr := cn.addr p.addr }) hp fun _ => rfl
    have h₁ := hA.removed hwfA (setPIoc_pIocs_self ..) hrem hj
    have h₂ := h₁.addAllPvs hwf₁ hadd hrem.pIocs_self fun hmem => by
      obtain ⟨q', hq', hup⟩ := hsig hst hmem
      exact Or.inr ⟨q', by rw [hrem.pIocs, if_neg hj.symm, setPIoc_pIocs, if_neg hj.symm, hq'],
        hup⟩
    exact h₂.setPIoc hq fun hji => absurd hji hj
  · obtain ⟨q, -, -, rfl⟩ := hr.of_not_down hp hst
    exact h.setPIoc hp fun hji => absurd hji hj

/-- After its reload an IOC has the PVs its file names that were on its list, or that nobody who is
up has. -/
theorem Reloaded.listed (hwf : WF d) {cn : Connection} {p : PIoc} (hr : Reloaded d i cn d')
    (hp : d.pIocs i = some p) (hname : n ≠ p.heartbeatName) (hst : p.status = 2)
    (hn : n ∈ signals cn.fs p.pathToList) (hd : d.Listed n i ∨ d.owner n ≠ some i ∧ d.OwnerDown n) :
    d'.Listed n i := by
  obtain ⟨d₁, d₂, q, r, hwfA, hrem, hwf₁, hadd, hq, rfl⟩ := hr.of_down hwf hp hst
  have hdown : d₁.OwnerDown n := by
    rcases hd with hl | ⟨hne, hdown⟩
    · have hA := hl.setPIoc (q := { p with addr := cn.addr p.addr }) hp fun _ => rfl
      have hnone := hA.absent hwfA (setPIoc_pIocs_self ..) hrem hname
      intro o ho
      rw [hwf₁.owner_eq_none_iff.mpr hnone] at ho
      cases ho
    · intro o ho
      rw [(hrem.owner_of_ne hwfA (setPIoc_pIocs_self ..) hne).2, owner_setPIoc] at ho
      obtain ⟨q', hq', hst'⟩ := hdown o ho
      have hoi : o ≠ i := by
        rintro rfl
        exact hne ho
      exact ⟨q', by rw [hrem.pIocs, if_neg hoi, setPIoc_pIocs, if_neg hoi, hq'], hst'⟩
  have hlisted := addAllPvs_listed hwf₁ hadd hrem.pIocs_self hn hname hdown
  exact hlisted.setPIoc hq fun _ => rfl

/-- The connection of its own IOC leaves a PV on the list, if a reload finds it in the file. -/
theorem Listed.reloaded_self (h : d.Listed n i) (hwf : WF d) {cn : Connection} {p : PIoc}
    (hr : Reloaded d i cn d') (hp : d.pIocs i = some p) (hname : n ≠ p.heartbeatName)
    (hn : p.status = 2 → n ∈ signals cn.fs p.pathToList) : d'.Listed n i := by
  by_cases hst : p.status = 2
  · exact hr.listed hwf hp hname hst (hn hst) (Or.inl h)
  · obtain ⟨q, -, hlist, rfl⟩ := hr.of_not_down hp hst
    exact h.setPIoc hp fun _ => hlist

/-- After the reload of an IOC a PV of its list that its file no longer names is gone. -/
theorem Reloaded.absent (hwf : WF d) {cn : Connection} {p : PIoc} (hr : Reloaded d i cn d')
    (hp : d.pIocs i = some p) (hname : n ≠ p.heartbeatName) (hst : p.status = 2)
    (hn : n ∉ signals cn.fs p.pathToList) (hl : d.Listed n i) : d'.owner n = none := by
  obtain ⟨d₁, d₂, q, r, hwfA, hrem, hwf₁, hadd, -, rfl⟩ := hr.of_down hwf hp hst
  have hA := hl.setPIoc (q := { p with addr := cn.addr p.addr }) hp fun _ => rfl
  have hnone := hA.absent hwfA (setPIoc_pIocs_self ..) hrem hname
  rw [owner_setPIoc, addAllPvs_owner_of_not_mem hwf₁ hadd hrem.pIocs_self hn]
  exact hwf₁.owner_eq_none_iff.mpr hnone

/-- A PV that is not in the table is not brought in by a file that does not name it. -/
theorem Reloaded.stays_absent (hwf : WF d) {cn : Connection} {p : PIoc} (hr : Reloaded d i cn d')
    (hp : d.pIocs i = some p) (hn : p.status = 2 → n ∉ signals cn.fs p.pathToList)
    (hnone : d.owner n = none) : d'.owner n = none := by
  by_cases hst : p.status = 2
  · obtain ⟨d₁, d₂, q, r, -, hrem, hwf₁, hadd, -, rfl⟩ := hr.of_down hwf hp hst
    rw [owner_setPIoc, addAllPvs_owner_of_not_mem hwf₁ hadd hrem.pIocs_self (hn hst)]
    rcases hrem.owner_mono (n := n) with hsame | hgone
    · rw [hsame, owner_setPIoc, hnone]
    · exact hgone
  · obtain ⟨q, -, -, rfl⟩ := hr.of_not_down hp hst
    exact hnone

/-! ## Learned PVs -/

/-- The connection of another PV at another IOC leaves a listed PV where it is. -/
theorem Listed.learned (h : d.Listed n i) (hwf : WF d) {cn : Connection} {p : PIoc}
    (hl : Learned d cn m j p d') (hm : m ≠ n) (hj : j ≠ i) : d'.Listed n i := by
  cases hl with
  | mk hi hp hinst hq =>
      have hwf₁ := (hwf.findOrInstallIoc cn.iocname).setPIoc (q := p.met cn) hp (by simp) (by simp)
      have h₀ : (d.findOrInstallIoc cn.iocname).1.Listed n i := by
        unfold Dir.findOrInstallIoc
        split
        · exact h
        · exact h.installIocName hwf _ _
      have h₁ := h₀.setPIoc (q := p.met cn) hp fun _ => by simp
      exact (h₁.installed hwf₁ hinst fun hmn => absurd hmn hm).setPIoc hq fun hji => absurd hji hj

theorem Listed.forget (h : d.Listed n i) (e : PvEId) (hn : n ≠ m) :
    ((d.tblRemove m).deletePvE e).Listed n i := by
  refine h.frame (fun x hx => ?_) fun x p _ hp hmem => ⟨p, hp, hmem⟩
  simpa [deletePvE, tblRemove, hn] using hx

/-! ## Startup -/

/-- Every PV is on the list of its owner, as long as that is there. -/
def AllListed (d : Dir) : Prop :=
  ∀ n i p, d.owner n = some i → d.pIocs i = some p → d.Listed n i

theorem AllListed.installed (h : d.AllListed) (hwf : WF d) {r : ℤ} (hi : Installed d m j d' r) :
    d'.AllListed := by
  intro n i p ho hp
  by_cases hself : m = n ∧ d' ≠ d
  · obtain ⟨rfl, hne⟩ := hself
    rcases hi.owner_self hwf with ho' | hsame
    · rw [ho] at ho'
      cases ho'
      cases hi with
      | entered => exact listed_enter _ _ _ _
      | ownHeartbeat => exact absurd rfl hne
      | moved => exact listed_enter _ _ _ _
      | refused => exact absurd rfl hne
    · exact absurd hsame hne
  · by_cases hsame : d' = d
    · rw [hsame] at ho hp ⊢
      exact h n i p ho hp
    · have hmn : m ≠ n := fun heq => hself ⟨heq, hsame⟩
      have hhead : d.header i = some p.header := by
        rw [← hi.header]
        exact header_of_pIocs hp
      obtain ⟨q, hq, -⟩ := header_eq_some_iff.mp hhead
      rw [hi.owner_of_ne hwf (Ne.symm hmn)] at ho
      exact (h n i q ho hq).installed hwf hi fun heq => absurd heq hmn

theorem AllListed.addAllPvs (h : d.AllListed) (hwf : WF d) {fs : FileSystem} {r : ℤ}
    (ha : d.addAllPvs fs i = .ok (d', r)) : d'.AllListed := by
  have hall : WF d' ∧ d'.AllListed := by
    refine addAllPvs_induct (P := fun d' => WF d' ∧ d'.AllListed) ha ⟨hwf, h⟩ ?_
    rintro p hp m hmem d₁ d₂ r' ⟨hwf₁, h₁⟩ hi
    exact ⟨hwf₁.installed hi, h₁.installed hwf₁ hi⟩
  exact hall.2

theorem AllListed.installIocName (h : d.AllListed) (hwf : WF d) (name path : Name) :
    (d.installIocName name path).1.AllListed := by
  intro n i p ho hp
  rw [owner_installIocName] at ho
  cases hfree : d.iocResTbl name with
  | some k =>
      rw [Dir.installIocName, hfree] at hp ⊢
      exact h n i p ho hp
  | none =>
      rw [installIocName_pIocs hfree, if_neg (hwf.owner_lt_nextPIoc ho).ne] at hp
      exact (h n i p ho hp).installIocName hwf name path

/-- The IOC of a rejected list takes its PVs with it. -/
theorem AllListed.rejected (h : d.AllListed) (hwf : WF d) {p : PIoc} (hp : d.pIocs i = some p)
    (hr : Removed d i p d') (name : Name) : (d'.drop i name).AllListed := by
  intro n j q ho hq
  have hji : j ≠ i := by
    rintro rfl
    simp [Dir.drop] at hq
  have hq' : d.pIocs j = some q := by
    have hq' : d'.pIocs j = some q := by simpa [Dir.drop, hji] using hq
    rw [hr.pIocs, if_neg hji] at hq'
    exact hq'
  have ho' : d.owner n = some j := by
    change d'.owner n = some j at ho
    rcases hr.owner_mono (n := n) with hsame | hgone
    · rw [← hsame]
      exact ho
    · rw [hgone] at ho
      cases ho
  have hl := (h n j q ho' hq').removed hwf hp hr hji.symm
  exact hl.frame (fun e he => he) fun e x _ hx hmem =>
    ⟨x, by simpa [Dir.drop, hji] using hx, hmem⟩

theorem AllListed.entry (h : d.AllListed) (hwf : WF d) {fs : FileSystem} {name path : Name}
    (he : Entry fs name path d d') : d'.AllListed := by
  have hwf₁ := hwf.installIocName name path
  have h₁ := h.installIocName hwf name path
  cases he with
  | skipped => exact h
  | loaded _ hinst hadd => exact (h₁.installed hwf₁ hinst).addAllPvs (hwf₁.installed hinst) hadd
  | rejected _ hinst hadd hp hrem hq =>
      have hwf₂ := hwf₁.installed hinst
      exact ((h₁.installed hwf₁ hinst).addAllPvs hwf₂ hadd).rejected (hwf₂.addAllPvs hadd) hp hrem _

end Dir

/-- Startup puts every PV on the list of its owner. -/
theorem startup_listed {rx : Regex} {cfg : Config} {s : Server} (h : startup rx cfg = .ok s) :
    s.dir.AllListed :=
  (startup_dir_induct (D := Dir.AllListed) h (fun _ _ _ ho => (by cases ho))
    fun _ _ _ _ hwf hd he => hd.entry hwf he).2

end CaNameserver
