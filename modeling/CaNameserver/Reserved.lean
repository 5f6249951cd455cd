import CaNameserver.Runs

/-!
# The entries of the heartbeats

Startup enters the heartbeat of an IOC before it reads the IOC's list, so that the name is in the
PV table from then on: no client request for it is ever broadcast.  The entry belongs to that IOC
as long as no other IOC's list names it.

`HeldBy n a` says that the table's entry of the PV `n` is on no list but that of the IOC called
`a`, and `Reserved a` that the heartbeat of `a` is in the table and held by `a`.  The two are kept
apart because the first is kept by more: lists and table may lose entries (`HeldBy.shrink`), and
an insertion by another IOC keeps it if it is of another name (`HeldBy.installed`).  A reload
takes the names of its own list out of the table, and puts its own heartbeat back; so it takes the
heartbeat of another IOC only if that is on its list (`Reserved.reloaded`).

IOCs are named and not numbered here, because what a list says is a name.

* `Config.OwnHeartbeats`: no list names the heartbeat of an IOC of another name.
* `startup_reserved`: at such a site startup reserves the heartbeats of all IOCs it keeps,
  whatever becomes of the others.
-/

namespace CaNameserver

open CStr Fallible Transition

namespace Dir

/-- The table's entry of a PV is on no list but that of the IOC called `a`. -/
def HeldBy (d : Dir) (n a : Name) : Prop :=
  ∀ e j q, d.stringResTbl n = some e → d.pIocs j = some q → e ∈ q.pvEList → q.iocname = a

/-- The heartbeat of the IOC called `a` is in the table, and on no other list. -/
def Reserved (d : Dir) (a : Name) : Prop :=
  d.stringResTbl (a ++ CaNameserver.heartbeat) ≠ none ∧
    d.HeldBy (a ++ CaNameserver.heartbeat) a

variable {d d' : Dir} {n a : Name}

/-- Lists and table may lose entries. -/
theorem HeldBy.shrink (h : d.HeldBy n a)
    (htab : ∀ e, d'.stringResTbl n = some e → d.stringResTbl n = some e)
    (hlist : ∀ j q, d'.pIocs j = some q → ∃ p, d.pIocs j = some p ∧ q.iocname = p.iocname ∧
      q.pvEList ⊆ p.pvEList) : d'.HeldBy n a := by
  intro e j q he hq hmem
  obtain ⟨p, hp, hname, hsub⟩ := hlist j q hq
  rw [hname]
  exact h e j p (htab e he) hp (hsub hmem)

theorem HeldBy.setPIoc (h : d.HeldBy n a) {i : IocId} {p q : PIoc} (hp : d.pIocs i = some p)
    (hname : q.iocname = p.iocname) (hsub : q.pvEList ⊆ p.pvEList) :
    (d.setPIoc i q).HeldBy n a := by
  refine h.shrink (fun e he => he) fun j r hr => ?_
  rw [setPIoc_pIocs] at hr
  split_ifs at hr with hj
  · cases hr
    exact ⟨p, hj ▸ hp, hname, hsub⟩
  · exact ⟨r, hr, rfl, List.Subset.refl _⟩

theorem HeldBy.installIocName (h : d.HeldBy n a) (name path : Name) :
    (d.installIocName name path).1.HeldBy n a := by
  cases hfree : d.iocResTbl name with
  | some i =>
      rw [Dir.installIocName, hfree]
      exact h
  | none =>
      intro e j q he hq hmem
      rw [installIocName_pIocs hfree] at hq
      have he' : d.stringResTbl n = some e := by
        rw [Dir.installIocName, hfree] at he
        exact he
      split_ifs at hq
      · cases hq
        cases hmem
      · exact h e j q he' hq hmem

theorem HeldBy.enter (h : d.HeldBy n a) (hwf : WF d) {m : Name} {i : IocId} {p : PIoc}
    (hp : d.pIocs i = some p) (hm : m = n → p.iocname = a) : (d.enter m i p).HeldBy n a := by
  intro e j q he hq hmem
  rw [enter_stringResTbl] at he
  rw [enter_pIocs] at hq
  split_ifs at he with hnm
  · -- the new entry is on the list of `i` only
    cases he
    split_ifs at hq with hj
    · cases hq
      exact hm hnm.symm
    · exact absurd (hwf.listed_lt j q _ hq hmem) (lt_irrefl _)
  · split_ifs at hq with hj
    · cases hq
      rcases List.mem_cons.mp hmem with rfl | hmem
      · obtain ⟨pv, hpv, -⟩ := hwf.table n _ he
        exact absurd (hwf.pvEs_lt _ pv hpv) (lt_irrefl _)
      · exact h e i p he hp hmem
    · exact h e j q he hq hmem

theorem HeldBy.takePV (h : d.HeldBy n a) {m : Name} {e : PvEId} {o : IocId} {q : PIoc}
    (hq : d.pIocs o = some q) : (d.takePV m e o q).HeldBy n a := by
  refine h.shrink (fun x hx => ?_) fun j r hr => ?_
  · rw [takePV_stringResTbl] at hx
    split_ifs at hx
    exact hx
  · rw [takePV_pIocs _ _ _ _ _ _ hq] at hr
    split_ifs at hr with hj
    · cases hr
      exact ⟨q, hj ▸ hq, rfl, List.erase_subset⟩
    · exact ⟨r, hr, rfl, List.Subset.refl _⟩

/-- An insertion by another IOC must be of another name. -/
theorem HeldBy.installed (h : d.HeldBy n a) (hwf : WF d) {m : Name} {i : IocId} {p : PIoc} {r : ℤ}
    (hi : Installed d m i d' r) (hp : d.pIocs i = some p) (hm : m = n → p.iocname = a) :
    d'.HeldBy n a := by
  cases hi with
  | entered hp' =>
      rw [hp] at hp'
      cases hp'
      exact h.enter hwf hp hm
  | ownHeartbeat => exact h
  | @moved p' q p'' e pv o hp' hn _ he ho hq _ hp'' =>
      refine (h.takePV hq).enter (hwf.takePV hn he ho hq) hp'' fun hmn => ?_
      rw [takePV_pIocs _ _ _ _ _ _ hq] at hp''
      split_ifs at hp'' with hio
      · cases hp''
        rw [hio, hq] at hp
        cases hp
        exact hm hmn
      · rw [hp] at hp''
        cases hp''
        exact hm hmn
  | refused => exact h

theorem HeldBy.removed (h : d.HeldBy n a) {i : IocId} {p : PIoc} (hp : d.pIocs i = some p)
    (hr : Removed d i p d') : d'.HeldBy n a := by
  refine h.shrink (fun e he => ?_) fun j q hq => ?_
  · rw [hr.stringResTbl, Option.filter_eq_some_iff] at he
    exact he.1
  · rw [hr.pIocs] at hq
    split_ifs at hq with hj
    · cases hq
      exact ⟨p, hj ▸ hp, rfl, List.filter_sublist.subset⟩
    · exact ⟨q, hq, rfl, List.Subset.refl _⟩

theorem HeldBy.addAllPvs (h : d.HeldBy n a) (hwf : WF d) {fs : FileSystem} {i : IocId} {p : PIoc}
    {r : ℤ} (ha : d.addAllPvs fs i = .ok (d', r)) (hp : d.pIocs i = some p)
    (hsig : n ∈ signals fs p.pathToList → p.iocname = a) : d'.HeldBy n a := by
  have hall : WF d' ∧ d'.HeldBy n a ∧ d'.header = d.header := by
    refine addAllPvs_induct (P := fun d' => WF d' ∧ d'.HeldBy n a ∧ d'.header = d.header) ha
      ⟨hwf, h, rfl⟩ ?_
    rintro p' hp' m hm d₁ d₂ r' ⟨hwf₁, h₁, hhead⟩ hi
    rw [hp] at hp'
    cases hp'
    refine ⟨hwf₁.installed hi, ?_, hi.header.trans hhead⟩
    have hhead' : d₁.header i = some p.header := by rw [hhead, header_of_pIocs hp]
    obtain ⟨q, hq, hqp⟩ := header_eq_some_iff.mp hhead'
    have hname : q.iocname = p.iocname := (PIoc.eq_of_header hqp).1
    exact h₁.installed hwf₁ hi hq fun hmn => hname.trans (hsig (hmn ▸ hm))
  exact hall.2.1

theorem HeldBy.reloaded (h : d.HeldBy n a) (hwf : WF d) {i : IocId} {p : PIoc} {cn : Connection}
    (hr : Reloaded d i cn d') (hp : d.pIocs i = some p)
    (hsig : p.status = 2 → n ∈ signals cn.fs p.pathToList → p.iocname = a) : d'.HeldBy n a := by
  by_cases hst : p.status = 2
  · obtain ⟨d₁, d₂, q, r, -, hrem, hwf₁, hadd, hq, rfl⟩ := hr.of_down hwf hp hst
    have hA := h.setPIoc (q := { p with addr := cn.addr p.addr }) hp rfl (List.Subset.refl _)
    have h₁ := hA.removed (setPIoc_pIocs_self ..) hrem
    have h₂ := h₁.addAllPvs hwf₁ hadd hrem.pIocs_self (hsig hst)
    exact h₂.setPIoc hq rfl (List.Subset.refl _)
  · obtain ⟨q, hname, hlist, rfl⟩ := hr.of_not_down hp hst
    exact h.setPIoc hp hname (hlist ▸ List.Subset.refl _)

theorem HeldBy.learned (h : d.HeldBy n a) (hwf : WF d) {m : Name} {i : IocId} {p : PIoc}
    {cn : Connection} (hl : Learned d cn m i p d') (hm : m ≠ n) : d'.HeldBy n a := by
  cases hl with
  | mk hi hp hinst hq =>
      have hwf₁ := (hwf.findOrInstallIoc cn.iocname).setPIoc (q := p.met cn) hp (by simp) (by simp)
      have h₀ : (d.findOrInstallIoc cn.iocname).1.HeldBy n a := by
        unfold findOrInstallIoc
        split
        · exact h
        · exact h.installIocName _ _
      have h₁ := h₀.setPIoc (q := p.met cn) hp (by simp) (by simp)
      have h₂ := h₁.installed hwf₁ hinst (setPIoc_pIocs_self ..) fun hmn => absurd hmn hm
      exact h₂.setPIoc hq rfl (List.tail_sublist _).subset

theorem HeldBy.forget (h : d.HeldBy n a) (m : Name) (e : PvEId) :
    ((d.tblRemove m).deletePvE e).HeldBy n a := by
  refine h.shrink (fun x hx => ?_) fun j q hq => ⟨q, hq, rfl, List.Subset.refl _⟩
  by_cases hnm : n = m
  · simp [deletePvE, tblRemove, hnm] at hx
  · simpa [deletePvE, tblRemove, hnm] using hx

theorem HeldBy.drop (h : d.HeldBy n a) (i : IocId) (name : Name) : (d.drop i name).HeldBy n a := by
  refine h.shrink (fun e he => he) fun j q hq => ⟨q, ?_, rfl, List.Subset.refl _⟩
  by_cases hj : j = i
  · subst hj
    simp [Dir.drop] at hq
  · simpa [Dir.drop, hj] using hq

theorem Reserved.reloaded (h : d.Reserved a) (hwf : WF d) {i : IocId} {p : PIoc} {cn : Connection}
    (hr : Reloaded d i cn d') (hp : d.pIocs i = some p) (hpath : p.pathToList ≠ [])
    (hsig : p.status = 2 → a ++ CaNameserver.heartbeat ∈ signals cn.fs p.pathToList →
      p.iocname = a) : d'.Reserved a := by
  refine ⟨hr.mem_of_kept hp hpath h.1 (fun _ e he hmem hne => ?_) hwf,
    h.2.reloaded hwf hr hp hsig⟩
  refine absurd ?_ hne
  rw [PIoc.heartbeatName, h.2 e i p he hp hmem]

theorem Reserved.learned (h : d.Reserved a) (hwf : WF d) {m : Name} {i : IocId} {p : PIoc}
    {cn : Connection} (hl : Learned d cn m i p d') (hm : m ≠ a ++ CaNameserver.heartbeat) :
    d'.Reserved a :=
  ⟨hl.mono h.1, h.2.learned hwf hl hm⟩

theorem Reserved.forget (h : d.Reserved a) {m : Name} (e : PvEId)
    (hm : m ≠ a ++ CaNameserver.heartbeat) : ((d.tblRemove m).deletePvE e).Reserved a :=
  ⟨by simpa [deletePvE, tblRemove, hm.symm] using h.1, h.2.forget m e⟩

end Dir

/-- No list names the heartbeat of an IOC of another name. -/
def Config.OwnHeartbeats (cfg : Config) : Prop :=
  ∀ path ∈ cfg.paths, ∀ path' ∈ cfg.paths,
    cfg.iocName path' ++ heartbeat ∈ signals cfg.fs path → cfg.iocName path' = cfg.iocName path

/-- What the directory file makes of the heartbeats: every IOC comes from a pathname, its heartbeat
has an entry, and no list holds the entry of another IOC's heartbeat. -/
structure Dir.Preloaded (cfg : Config) (d : Dir) : Prop where
  named : ∀ i p, d.header i = some p → ∃ path ∈ cfg.paths, p.iocname = cfg.iocName path
  entered : ∀ i p, d.header i = some p → d.stringResTbl p.heartbeatName ≠ none
  held : ∀ path ∈ cfg.paths, d.HeldBy (cfg.iocName path ++ heartbeat) (cfg.iocName path)

section Preload

variable {cfg : Config} {path : Name} {d d₁ d₂ d₃ : Dir} {r count : ℤ}

/-- The new IOC with its heartbeat and its list. -/
theorem Dir.Preloaded.loaded (h : d.Preloaded cfg) (hwf : d.WF) (hcfg : cfg.OwnHeartbeats)
    (hpath : path ∈ cfg.paths) (hfree : d.iocResTbl (cfg.iocName path) = none)
    (hinst : Dir.Installed (d.installIocName (cfg.iocName path) path).1
      (cfg.iocName path ++ heartbeat) d.nextPIoc d₁ r)
    (hadd : d₁.addAllPvs cfg.fs d.nextPIoc = .ok (d₂, count)) : d₂.Preloaded cfg := by
  refine ⟨fun j q hq => ?_, fun j q hq => ?_, fun path' hpath' => ?_⟩
  · rw [Dir.loaded_header hfree hinst hadd] at hq
    split_ifs at hq
    · cases hq
      exact ⟨path, hpath, rfl⟩
    · exact h.named j q hq
  · rw [Dir.loaded_header hfree hinst hadd] at hq
    split_ifs at hq
    · cases hq
      exact Dir.addAllPvs_mono hadd hinst.mem
    · refine Dir.addAllPvs_mono hadd (hinst.mono ?_)
      rw [Dir.installIocName, hfree]
      exact h.entered j q hq
  · have hwf₀ := hwf.installIocName (cfg.iocName path) path
    have hnew : (d.installIocName (cfg.iocName path) path).1.pIocs d.nextPIoc =
        some ⟨cfg.iocName path, path, 0, SockAddr.zero, []⟩ := by
      rw [Dir.installIocName_pIocs hfree, if_pos rfl]
    have h₁ := ((h.held path' hpath').installIocName (cfg.iocName path) path).installed hwf₀
      hinst hnew fun heq => List.append_cancel_right heq
    have hh₁ : d₁.header d.nextPIoc =
        some ⟨cfg.iocName path, path, 0, SockAddr.zero, []⟩ := by
      rw [hinst.header, Dir.header_of_pIocs hnew]
      rfl
    obtain ⟨q, hq, hqq⟩ := Dir.header_eq_some_iff.mp hh₁
    have hname : q.iocname = cfg.iocName path := congrArg PIoc.iocname hqq
    have hpathq : q.pathToList = path := congrArg PIoc.pathToList hqq
    refine h₁.addAllPvs (hwf₀.installed hinst) hadd hq fun hsig => ?_
    rw [hpathq] at hsig
    exact hname.trans (hcfg path hpath path' hpath' hsig).symm

/-- An IOC is taken out again: the other heartbeats are not on its list. -/
theorem Dir.Preloaded.rejected (h : d₂.Preloaded cfg) (hwf : d₂.WF) {i : IocId} {p : PIoc}
    (hp : d₂.pIocs i = some p) (hrem : Dir.Removed d₂ i p d₃) (name : Name) :
    (d₃.drop i name).Preloaded cfg := by
  have hold : ∀ j x, (d₃.drop i name).header j = some x → j ≠ i ∧ d₂.header j = some x := by
    intro j x hx
    rw [Dir.header_drop] at hx
    split_ifs at hx with hj
    obtain ⟨x₃, hx₃, rfl⟩ := Dir.header_eq_some_iff.mp hx
    rw [hrem.pIocs, if_neg hj] at hx₃
    exact ⟨hj, Dir.header_of_pIocs hx₃⟩
  refine ⟨fun j x hx => h.named j x (hold j x hx).2, fun j x hx => ?_, fun path' hpath' =>
    ((h.held path' hpath').removed hp hrem).drop _ _⟩
  obtain ⟨hj, hx⟩ := hold j x hx
  obtain ⟨path', hpath', hname⟩ := h.named j x hx
  obtain ⟨e, he⟩ := Option.ne_none_iff_exists'.mp (h.entered j x hx)
  have hnot : e ∉ p.pvEList := by
    intro hep
    have howner := h.held path' hpath' e _ p (hname ▸ he) hp hep
    obtain ⟨x₂, hx₂, rfl⟩ := Dir.header_eq_some_iff.mp hx
    exact hj (hwf.iocname_inj hx₂ hp (hname.trans howner.symm))
  show d₃.stringResTbl x.heartbeatName ≠ none
  rw [hrem.stringResTbl, he, Option.filter_some]
  simp [Dir.gone, hnot]

theorem Dir.Preloaded.entry (h : d.Preloaded cfg) (hwf : d.WF) (hcfg : cfg.OwnHeartbeats)
    (hpath : path ∈ cfg.paths) (hentry : d.Entry cfg.fs (cfg.iocName path) path d₁) :
    d₁.Preloaded cfg := by
  cases hentry with
  | skipped => exact h
  | loaded hfree hinst hadd _ => exact h.loaded hwf hcfg hpath hfree hinst hadd
  | rejected hfree hinst hadd hp hrem _ =>
      have hwf₂ := ((hwf.installIocName _ path).installed hinst).addAllPvs hadd
      exact (h.loaded hwf hcfg hpath hfree hinst hadd).rejected hwf₂ hp hrem _

end Preload

/-- Startup reserves the heartbeats of the IOCs it keeps. -/
theorem startup_reserved {rx : Regex} {cfg : Config} {s : Server} (h : startup rx cfg = .ok s)
    (hcfg : cfg.OwnHeartbeats) {i : IocId} {p : PIoc} (hp : s.dir.pIocs i = some p) :
    s.dir.Reserved p.iocname := by
  have hpre : s.dir.Preloaded cfg := (startup_dir_induct (D := Dir.Preloaded cfg) h
    ⟨fun _ _ h => (by cases h), fun _ _ h => (by cases h), fun _ _ _ _ _ h => (by cases h)⟩
    fun _ hpath _ _ hwf hd hentry => hd.entry hwf hcfg hpath hentry).2
  have hhead := Dir.header_of_pIocs hp
  obtain ⟨path, hpath, hname⟩ := hpre.named i p.header hhead
  have hname' : p.iocname = cfg.iocName path := hname
  exact ⟨hpre.entered i p.header hhead, hname' ▸ hpre.held path hpath⟩

end CaNameserver
