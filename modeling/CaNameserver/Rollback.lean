import CaNameserver.LoaderRuns

/-!
# A rejected IOC

At startup an IOC whose signal list cannot be opened, or does not have its heartbeat, is rejected:
`cleanup` takes its PVs out of the table and deletes it.  But `cleanup` uses `remove_all_pvs`,
which was written for IOCs that come back and leaves the heartbeat in the table.  The heartbeat
was entered before the list was read, so it outlives the IOC it points to.

## What comes and what goes

The directory `d` before the pathname is followed through the three steps of `directoryBody_new`:
`d₁` has the new IOC and its heartbeat, `d₂` what has been entered from the list, `d₃` is what
`remove_all_pvs` leaves.  From `Grown` it is known what `d₂` has more than `d`: names that were
free, each with an entry on the list of the new IOC.  `remove_all_pvs` walks that list, so it
meets them all.

* `rejected_names`: a name that was in the table keeps its entry.  Nobody is down, so it was not
  taken by the new IOC, and the entries on the list of the new IOC are others.
* `rejected_absent`: a name that was not is gone again, but for the heartbeat of an IOC with a
  path.
* `rejected_heartbeat`: and that one stays, and points to the IOC that is deleted.
* `rolledBack_iff`: so the rejection leaves no trace exactly when the heartbeat was in the table
  before --- it was not entered then --- or the path is empty, for which `remove_all_pvs` removes
  everything.

## Whether it comes to its end

The rejection is all or nothing only if it comes to its end.  `rejected_rolledBack_iff` has the
conditions for that as well, those of `LoaderRuns`: among them that no name on the list belongs to
an IOC that has been rejected before, for then the pointer left behind is followed.
-/

namespace CaNameserver

open CStr Fallible Transition

namespace Dir

variable {d d' : Dir} {n m : Name} {i j : IocId} {p q : PIoc} {r : ℤ} {fs : FileSystem}

/-! ## The rejection -/

/-- The directory is as it was: the tables, the entries of the PVs and the IOCs with their lists.
No PV points to the IOC that has come and gone. -/
structure RolledBack (d d' : Dir) : Prop where
  names : d'.stringResTbl = d.stringResTbl
  entries : ∀ n e, d.stringResTbl n = some e → d'.pvEs e = d.pvEs e
  iocs : d'.iocResTbl = d.iocResTbl
  lists : d'.pIocs = d.pIocs
  dangling : ∀ n, d'.owner n ≠ some d.nextPIoc

/-- An empty path leaves no exception: the PVs on the list are all removed. -/
theorem Listed.absent_of_path (h : d.Listed n i) (hp : d.pIocs i = some p)
    (hpath : p.pathToList = []) (hr : Removed d i p d') : d'.stringResTbl n = none := by
  obtain ⟨e, p', he, hp', hmem⟩ := h
  rw [hp] at hp'
  cases hp'
  have hkeep : d.keeps p e = false := by
    rw [Bool.eq_false_iff, Ne, keeps_eq_true_iff]
    rintro ⟨_, _, hne, -⟩
    exact hne hpath
  rw [hr.stringResTbl, he, Option.filter_some]
  simp [gone, hmem, hkeep]

/-- The heartbeat of an IOC with a signal list is not removed. -/
theorem Removed.heartbeat_stays (hr : Removed d i p d') (hwf : WF d) (hpath : p.pathToList ≠ []) :
    SameEntry d d.stringResTbl d' p.heartbeatName := by
  have hkeep : ∀ e, d.stringResTbl p.heartbeatName = some e → d.gone p p.pvEList e = false := by
    intro e he
    obtain ⟨pv, hpv, hname⟩ := hwf.table _ e he
    have hkeep : d.keeps p e = true := keeps_eq_true_iff.mpr ⟨pv, hpv, hpath, hname⟩
    simp [gone, hkeep]
  refine ⟨?_, fun e he => ?_⟩
  · rw [hr.stringResTbl]
    cases he : d.stringResTbl p.heartbeatName with
    | none => rfl
    | some e => simp [Option.filter_some, hkeep e he]
  · rw [hr.pvEs, hkeep e he]
    rfl

/-- What is entered for an IOC is on its list, so that removal finds it. -/
theorem Grown.absent {d₂ : Dir} (h : Grown d i d₂) (hp : d₂.pIocs i = some p)
    (hr : Removed d₂ i p d') (hfree : d.stringResTbl m = none)
    (hexcept : m ≠ p.heartbeatName ∨ p.pathToList = []) : d'.stringResTbl m = none := by
  rcases h.new m hfree with hnone | ho
  · rw [hr.stringResTbl, hnone]
    rfl
  · have hl := h.listed m i p ho hp
    rcases hexcept with hne | hpath
    · exact hl.absent h.wf hp hr hne
    · exact hl.absent_of_path hp hpath hr

section Rejection

variable {name path : Name} {d₁ d₂ d₃ : Dir} {count : ℤ}

/-- What was in the table is there as it was. -/
theorem Loading.rejected_names (h : Loading d) (hfree : d.iocResTbl name = none)
    (hinst : Installed (d.installIocName name path).1 (name ++ heartbeat) d.nextPIoc d₁ r)
    (hadd : d₁.addAllPvs fs d.nextPIoc = .ok (d₂, count)) (hp : d₂.pIocs d.nextPIoc = some p)
    (hrem : Removed d₂ d.nextPIoc p d₃) (hm : d.stringResTbl m ≠ none) :
    SameEntry d d.stringResTbl d₃ m := by
  have hgrown := (h.grown hfree hinst).addAllPvs (h.installIocName hfree).noneDown hadd
  have htab₀ : (d.installIocName name path).1.stringResTbl = d.stringResTbl := by
    rw [Dir.installIocName, hfree]
  have hpvEs₀ : (d.installIocName name path).1.pvEs = d.pvEs := by
    rw [Dir.installIocName, hfree]
  have hsame : SameEntry d d.stringResTbl d₂ m := by
    have hsame₀ := hgrown.names m (htab₀.symm ▸ hm)
    rw [htab₀] at hsame₀
    exact ⟨hsame₀.1, fun e he => hpvEs₀ ▸ hsame₀.2 e he⟩
  refine hsame.trans (hrem.sameEntry_of_ne hgrown.wf hp fun ho => ?_)
  rw [hsame.owner] at ho
  exact absurd (h.wf.owner_lt_nextPIoc ho) (lt_irrefl _)

/-- What was not is not, the heartbeat of an IOC with a list excepted. -/
theorem Loading.rejected_absent (h : Loading d) (hfree : d.iocResTbl name = none)
    (hinst : Installed (d.installIocName name path).1 (name ++ heartbeat) d.nextPIoc d₁ r)
    (hadd : d₁.addAllPvs fs d.nextPIoc = .ok (d₂, count)) (hp : d₂.pIocs d.nextPIoc = some p)
    (hrem : Removed d₂ d.nextPIoc p d₃) (hm : d.stringResTbl m = none)
    (hexcept : m ≠ name ++ heartbeat ∨ path = []) : d₃.stringResTbl m = none := by
  have hgrown := (h.grown hfree hinst).addAllPvs (h.installIocName hfree).noneDown hadd
  have htab₀ : (d.installIocName name path).1.stringResTbl = d.stringResTbl := by
    rw [Dir.installIocName, hfree]
  obtain ⟨p', hp', hname, hpath⟩ := hgrown.pIocs_self hfree
  cases hp.symm.trans hp'
  refine hgrown.absent hp hrem (htab₀.symm ▸ hm) ?_
  rw [PIoc.heartbeatName, hname, hpath]
  exact hexcept

/-- The heartbeat, where it was not in the table and there is a path, is left behind: it still
points to the IOC that is deleted. -/
theorem Loading.rejected_heartbeat (h : Loading d) (hfree : d.iocResTbl name = none)
    (hinst : Installed (d.installIocName name path).1 (name ++ heartbeat) d.nextPIoc d₁ r)
    (hadd : d₁.addAllPvs fs d.nextPIoc = .ok (d₂, count)) (hp : d₂.pIocs d.nextPIoc = some p)
    (hrem : Removed d₂ d.nextPIoc p d₃) (hm : d.stringResTbl (name ++ heartbeat) = none)
    (hpath : path ≠ []) : d₃.owner (name ++ heartbeat) = some d.nextPIoc := by
  have hgrown := (h.grown hfree hinst).addAllPvs (h.installIocName hfree).noneDown hadd
  have htab₀ : (d.installIocName name path).1.stringResTbl = d.stringResTbl := by
    rw [Dir.installIocName, hfree]
  obtain ⟨p', hp', hname, hpath'⟩ := hgrown.pIocs_self hfree
  cases hp.symm.trans hp'
  have hown : d₂.owner (name ++ heartbeat) = some d.nextPIoc :=
    (hgrown.new _ (htab₀.symm ▸ hm)).resolve_left (addAllPvs_mono hadd hinst.mem)
  have hstays := (hrem.heartbeat_stays hgrown.wf (hpath' ▸ hpath)).owner
  rw [PIoc.heartbeatName, hname] at hstays
  exact hstays.trans hown

/-- A rejection that leaves every name its entry leaves everything as it was. -/
theorem Loading.rolledBack (h : Loading d) (hfree : d.iocResTbl name = none)
    (hinst : Installed (d.installIocName name path).1 (name ++ heartbeat) d.nextPIoc d₁ r)
    (hadd : d₁.addAllPvs fs d.nextPIoc = .ok (d₂, count)) (hp : d₂.pIocs d.nextPIoc = some p)
    (hrem : Removed d₂ d.nextPIoc p d₃) (hq : d₃.pIocs d.nextPIoc = some q)
    (hsame : ∀ m, SameEntry d d.stringResTbl d₃ m) :
    RolledBack d (d₃.drop d.nextPIoc q.iocname) := by
  have hgrown := (h.grown hfree hinst).addAllPvs (h.installIocName hfree).noneDown hadd
  have hqname : q.iocname = name := by
    obtain ⟨p', hp', hname, -⟩ := hgrown.pIocs_self hfree
    cases hp.symm.trans hp'
    rw [hrem.pIocs_self] at hq
    cases hq
    exact hname
  refine ⟨funext fun m => (hsame m).1, fun m e he => (hsame m).2 e he, ?_, funext fun j => ?_,
    fun m ho => ?_⟩
  · show Function.update d₃.iocResTbl q.iocname none = d.iocResTbl
    rw [hrem.iocResTbl, hgrown.iocs, hqname, Dir.installIocName, hfree, Function.update_idem,
      ← hfree, Function.update_eq_self]
  · show Function.update d₃.pIocs d.nextPIoc none j = d.pIocs j
    by_cases hj : j = d.nextPIoc
    · rw [hj, Function.update_self]
      cases hx : d.pIocs d.nextPIoc with
      | none => rfl
      | some s => exact absurd (h.wf.pIocs_lt _ s hx) (lt_irrefl _)
    · rw [Function.update_of_ne hj, hrem.pIocs, if_neg hj, hgrown.others j hj,
        installIocName_pIocs hfree, if_neg hj]
  · rw [show (d₃.drop d.nextPIoc q.iocname).owner m = d₃.owner m from rfl, (hsame m).owner] at ho
    exact absurd (h.wf.owner_lt_nextPIoc ho) (lt_irrefl _)

/-- **What a rejection leaves.** -/
theorem Loading.rolledBack_iff (h : Loading d) (hfree : d.iocResTbl name = none)
    (hinst : Installed (d.installIocName name path).1 (name ++ heartbeat) d.nextPIoc d₁ r)
    (hadd : d₁.addAllPvs fs d.nextPIoc = .ok (d₂, count)) (hp : d₂.pIocs d.nextPIoc = some p)
    (hrem : Removed d₂ d.nextPIoc p d₃) (hq : d₃.pIocs d.nextPIoc = some q) :
    RolledBack d (d₃.drop d.nextPIoc q.iocname) ↔
      d.stringResTbl (name ++ heartbeat) ≠ none ∨ path = [] := by
  constructor
  · intro hback
    by_contra hcond
    obtain ⟨hthere, hne⟩ := not_or.mp hcond
    rw [not_not] at hthere
    have hleft := h.rejected_heartbeat hfree hinst hadd hp hrem hthere hne
    exact hback.dangling (name ++ heartbeat) hleft
  · intro hcond
    refine h.rolledBack hfree hinst hadd hp hrem hq fun m => ?_
    by_cases hm : d.stringResTbl m = none
    · have hexcept : m ≠ name ++ heartbeat ∨ path = [] := by
        refine hcond.imp_left fun hthere heq => hthere ?_
        rw [← heq, hm]
      refine ⟨(h.rejected_absent hfree hinst hadd hp hrem hm hexcept).trans hm.symm, fun e he => ?_⟩
      rw [hm] at he
      cases he
    · exact h.rejected_names hfree hinst hadd hp hrem hm

end Rejection

end Dir

/-- Between two words of the directory file every PV is on the list of its IOC, the entries of the
lists are live, and nobody is down. -/
theorem directoryLoop_loading {filenameIsIocname : Bool} {fs : FileSystem} {tokens : List Name}
    {d : Dir} {requested : ℕ}
    (h : tokens.foldlM (directoryBody filenameIsIocname fs) (Dir.empty, 0) = .ok (d, requested)) :
    d.Loading := by
  refine (directoryLoop_induct (P := Dir.Loading) h .empty ?_).2
  exact fun path _ d d' _ hloading hentry => hloading.entry hentry

/-- **A rejection is all or nothing** exactly when the heartbeat was in the table before, or the
path is empty; and it goes through exactly when the strings fit and no listed PV belongs to an IOC
that has been deleted.  A file that cannot be opened has no `signals`. -/
theorem rejected_rolledBack_iff {filenameIsIocname : Bool} {fs : FileSystem} {tokens : List Name}
    {token : Name} {d : Dir} {requested : ℕ}
    (hrun : tokens.foldlM (directoryBody filenameIsIocname fs) (Dir.empty, 0) = .ok (d, requested))
    (hpath : isPath (cstr token) = true)
    (hnew : d.iocResTbl (iocNameOf filenameIsIocname (cstr token)) = none)
    (hhb : iocNameOf filenameIsIocname (cstr token) ++ heartbeat ∉ signals fs (cstr token)) :
    (∃ d' requested', directoryBody filenameIsIocname fs (d, requested) token =
      .ok (d', requested') ∧ d.RolledBack d') ↔
      (d.stringResTbl (iocNameOf filenameIsIocname (cstr token) ++ heartbeat) ≠ none ∨
        cstr token = []) ∧
      token.length < 200 ∧
      d.ListReads fs (iocNameOf filenameIsIocname (cstr token)) (cstr token) ∧
      d.RemovalReads fs (iocNameOf filenameIsIocname (cstr token)) (cstr token) := by
  have h := directoryLoop_loading hrun
  have hback : ∀ d' requested', directoryBody filenameIsIocname fs (d, requested) token =
      .ok (d', requested') → (d.RolledBack d' ↔
        d.stringResTbl (iocNameOf filenameIsIocname (cstr token) ++ heartbeat) ≠ none ∨
          cstr token = []) := by
    intro d' requested' hbody
    obtain ⟨d₁, r, d₂, count, hinst, hadd, hcases⟩ := Dir.directoryBody_new h.wf hpath hnew hbody
    have hcount : count = -1 := by
      obtain ⟨p, hp, hname, hlist⟩ := (h.grown hnew hinst).pIocs_self hnew
      refine Dir.addAllPvs_rejected hadd hp ?_
      rw [PIoc.heartbeatName, hname, hlist]
      exact hhb
    rcases hcases with ⟨hne, -⟩ | ⟨-, p, d₃, q, hp, hrem, hq, hd⟩
    · exact absurd hcount hne
    · obtain rfl : d' = d₃.drop d.nextPIoc q.iocname := congrArg Prod.fst hd
      exact h.rolledBack_iff hnew hinst hadd hp hrem hq
  have hdefined := h.directoryBody_defined_iff fs requested hpath hnew
  rw [imp_iff_right hhb] at hdefined
  rw [← hdefined]
  constructor
  · rintro ⟨d', requested', hbody, hrolled⟩
    exact ⟨(hback d' requested' hbody).mp hrolled, ⟨(d', requested'), hbody⟩⟩
  · rintro ⟨hcond, ⟨d', requested'⟩, hbody⟩
    exact ⟨d', requested', hbody, (hback d' requested' hbody).mpr hcond⟩

/-- Two IOCs, the first of which lists the heartbeat of the second, whose list has no heartbeat. -/
def twoLists : FileSystem := fun path =>
  if path = ['A', '/', 's'] then some "A:heartbeat B:heartbeat".toList else some "x".toList

/-- The second IOC is rejected, and leaves no trace: its heartbeat is a PV of the first. -/
theorem rejected_rolledBack_iff_second : ∃ d d' requested',
    directoryBody false twoLists (Dir.empty, 0) ['A', '/', 's'] = .ok (d, 1) ∧
    directoryBody false twoLists (d, 1) ['B', '/', 's'] = .ok (d', requested') ∧
    d.RolledBack d' := by
  obtain ⟨d, hd⟩ : ∃ d, directoryBody false twoLists (Dir.empty, 0) ['A', '/', 's'] = .ok (d, 1) :=
    ⟨_, rfl⟩
  have hrun : [['A', '/', 's']].foldlM (directoryBody false twoLists) (Dir.empty, 0) =
      .ok (d, 1) := by
    rw [List.foldlM_cons, hd]
    rfl
  have htab : d.stringResTbl (['B'] ++ heartbeat) ≠ none := by
    cases hd
    decide
  have hnew : d.iocResTbl ['B'] = none := by
    cases hd
    rfl
  have hfree : d.owner ['x'] = none := by
    cases hd
    rfl
  have hsignals : signals twoLists ['B', '/', 's'] = [['x']] := by decide
  have hhb : ['B'] ++ heartbeat ∉ signals twoLists ['B', '/', 's'] := by decide
  have hreads : d.ListReads twoLists ['B'] ['B', '/', 's'] := by
    refine ⟨by decide, by decide, by decide, fun n hn _ o ho => ?_⟩
    rw [hsignals, List.mem_singleton] at hn
    rw [hn, hfree] at ho
    cases ho
  have hremoval : d.RemovalReads twoLists ['B'] ['B', '/', 's'] := by
    intro n hn _
    rw [hsignals, List.mem_singleton] at hn
    rcases hn with rfl | rfl
    · decide
    · decide
  have hiff : (∃ d' requested', directoryBody false twoLists (d, 1) ['B', '/', 's'] =
      .ok (d', requested') ∧ d.RolledBack d') ↔ _ :=
    rejected_rolledBack_iff hrun (by rfl) (by exact hnew) (by exact hhb)
  obtain ⟨d', requested', hbody, hback⟩ :=
    hiff.mpr ⟨Or.inl htab, by decide, hreads, hremoval⟩
  exact ⟨d, d', requested', hd, hbody, hback⟩

/-- One IOC whose list has no heartbeat: the heartbeat stays in the table, and points to the IOC
that has been deleted. -/
theorem rejected_not_rolledBack : ¬ ∀ (filenameIsIocname : Bool) (fs : FileSystem)
    (tokens : List Name) (token : Name) (d d' : Dir) (requested requested' : ℕ),
    tokens.foldlM (directoryBody filenameIsIocname fs) (Dir.empty, 0) = .ok (d, requested) →
    isPath (cstr token) = true →
    d.iocResTbl (iocNameOf filenameIsIocname (cstr token)) = none →
    iocNameOf filenameIsIocname (cstr token) ++ heartbeat ∉ signals fs (cstr token) →
    directoryBody filenameIsIocname fs (d, requested) token = .ok (d', requested') →
    d.RolledBack d' := by
  intro hall
  have hback := hall false (fun _ => some ['x']) [] ['A', '/', 's'] Dir.empty _ 0 0 rfl rfl rfl
    (by decide) rfl
  exact hback.dangling (['A'] ++ heartbeat) rfl

end CaNameserver
