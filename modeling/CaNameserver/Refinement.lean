import CaNameserver.Lib.Registry
import CaNameserver.Migration

/-!
# The directory is a registry of names

What the server knows about the PVs is a registry in the sense of `Registry`: the names are the PV
names, the parties are the IOCs, the mark of an IOC is its heartbeat.  `Dir.view` forgets the hash
tables, the lists, the objects and their addresses, and keeps who is there, at which address, and
who owns which name.

## Operations

* Insertion is a claim (`Dir.Installed.view`): a free name goes to the party that claims it, and
  so does one whose owner is down; any other stays.
* Removal gives up the names of the party, its mark apart (`Dir.Removed.owner_view`).
* Reading a list claims its names one after the other (`Dir.addAllPvs_view`).

A removal goes over the list of an IOC, a registry gives up all its names.  They agree because the
PVs of an IOC that has a signal list are on its list (`LoadedListed`), which takes that no server
whose PVs are learned goes by the name of such an IOC (`noNamesake`): the entry of a learned PV is
taken off the list right after it has been made.

## Events

`Server.op` is the operation that an event stands for: a heartbeat that connects is its party
coming back with a list, or the first time with an address only; one that disconnects is the party
going down; a learned connection is a name that is found with a party; its end is a name that is
lost.  Requests, purges and reports are no operations.  `Handled.view` is the simulation step: an
event does to the registry what its operation does.

## Answers

The answer of a registry to a search is an address, or that there is none; the server's own PVs
come first (`reply`).  An event has been proved to be its operation, so a run is the run of its
operations (`Shown.view_run`), and the answer after the run is the registry's.

* `pvExistTest_reply`: the server answers as its registry does.
-/

namespace CaNameserver

open CStr Fallible Transition

/-- The directory without its objects. -/
abbrev NameRegistry := Registry.State Name IocId SockAddr

/-- An operation on the directory without its objects. -/
abbrev NameOp := Registry.Op Name IocId SockAddr

/-- Whether an IOC is there. -/
def PIoc.presence (p : PIoc) : Registry.Status :=
  if p.status = 0 then .new else if p.status = 2 then .down else .up

theorem PIoc.presence_eq_of_header {p q : PIoc} (h : p.header = q.header) :
    p.presence = q.presence := by
  unfold PIoc.presence
  rw [(PIoc.eq_of_header h).2.2.1]

theorem PIoc.presence_eq_down_iff {p : PIoc} : p.presence = .down ↔ p.status = 2 := by
  unfold PIoc.presence
  split_ifs <;> simp_all

theorem PIoc.presence_eq_up_iff {p : PIoc} :
    p.presence = .up ↔ p.status ≠ 0 ∧ p.status ≠ 2 := by
  unfold PIoc.presence
  split_ifs <;> simp_all

namespace Dir

/-- The directory as a registry of names. -/
def view (d : Dir) : NameRegistry where
  owner := d.owner
  status i := (d.pIocs i).elim .new PIoc.presence
  addr i := (d.pIocs i).elim SockAddr.zero PIoc.addr

variable {d d' : Dir} {n : Name} {i j : IocId} {p q : PIoc}

theorem view_status_of (hp : d.pIocs i = some p) : d.view.status i = p.presence := by
  simp [view, hp]

theorem view_addr_of (hp : d.pIocs i = some p) : d.view.addr i = p.addr := by
  simp [view, hp]

theorem view_status_eq_down_iff : d.view.status i = .down ↔
    ∃ p, d.pIocs i = some p ∧ p.status = 2 := by
  cases hp : d.pIocs i with
  | none => simp [view, hp]
  | some p => simp [view_status_of hp, PIoc.presence_eq_down_iff]

/-- Headers say who is there, and where. -/
theorem view_status_of_header (h : d'.header = d.header) : d'.view.status = d.view.status := by
  funext j
  have hj := congrFun h j
  cases hp : d.pIocs j with
  | none =>
      rw [header_eq_none_iff.mpr hp, header_eq_none_iff] at hj
      simp [view, hp, hj]
  | some p =>
      rw [header_of_pIocs hp] at hj
      obtain ⟨q, hq, hqp⟩ := header_eq_some_iff.mp hj
      rw [view_status_of hp, view_status_of hq, PIoc.presence_eq_of_header hqp]

theorem view_addr_of_header (h : d'.header = d.header) : d'.view.addr = d.view.addr := by
  funext j
  have hj := congrFun h j
  cases hp : d.pIocs j with
  | none =>
      rw [header_eq_none_iff.mpr hp, header_eq_none_iff] at hj
      simp [view, hp, hj]
  | some p =>
      rw [header_of_pIocs hp] at hj
      obtain ⟨q, hq, hqp⟩ := header_eq_some_iff.mp hj
      rw [view_addr_of hp, view_addr_of hq, (PIoc.eq_of_header hqp).2.2.2]

theorem view_setPIoc (d : Dir) (i : IocId) (p : PIoc) : (d.setPIoc i p).view =
    (d.view.setAddr i p.addr).setStatus i p.presence := by
  refine Registry.State.ext rfl (funext fun j => ?_) (funext fun j => ?_)
  · by_cases hj : j = i
    · subst hj
      simp [view, Registry.State.setStatus]
    · simp [view, Registry.State.setStatus, Registry.State.setAddr, setPIoc_pIocs, hj]
  · by_cases hj : j = i
    · subst hj
      simp [view, Registry.State.setStatus, Registry.State.setAddr]
    · simp [view, Registry.State.setStatus, Registry.State.setAddr, setPIoc_pIocs, hj]

/-! ## Insertion -/

/-- A name may be claimed if it is free, or if its owner is down and it is not the heartbeat of the
IOC that claims it. -/
theorem vacant_of_none (mark : Name) (hn : d.owner n = none) : d.view.vacant mark n = true :=
  Registry.State.vacant_of_owner_eq_none hn

theorem vacant_of_some {mark : Name} {o : IocId} (hn : d.owner n = some o) :
    d.view.vacant mark n = true ↔ (∃ q, d.pIocs o = some q ∧ q.status = 2) ∧ n ≠ mark := by
  rw [← view_status_eq_down_iff]
  simp [Registry.State.vacant, show d.view.owner n = some o from hn]

/-- **Insertion is a claim.** -/
theorem Installed.view {r : ℤ} (hi : Installed d n i d' r) (hwf : WF d) (hp : d.pIocs i = some p) :
    d'.view = Registry.State.claim i p.heartbeatName d.view n := by
  refine Registry.State.ext (funext fun m => ?_) ?_ ?_
  · rw [Registry.State.claim_owner]
    show d'.owner m = if m = n ∧ d.view.vacant p.heartbeatName n then some i else d.owner m
    by_cases hm : m = n
    · subst hm
      cases hi with
      | entered _ hn =>
          have hfree := vacant_of_none p.heartbeatName (hwf.owner_eq_none_iff.mpr hn)
          rw [hwf.owner_enter, if_pos rfl, if_pos ⟨rfl, hfree⟩]
      | ownHeartbeat hp' hn hname =>
          rw [hp] at hp'
          cases hp'
          obtain ⟨o, ho⟩ : ∃ o, d.owner m = some o := by
            refine Option.ne_none_iff_exists'.mp fun hnone => ?_
            rw [hwf.owner_eq_none_iff.mp hnone] at hn
            cases hn
          rw [if_neg]
          exact fun h => ((vacant_of_some ho).mp h.2).2 hname
      | moved hp' hn hname he ho hq hdown _ =>
          rw [hp] at hp'
          cases hp'
          have hvac := (vacant_of_some ((owner_of_entry hn he).trans ho)).mpr
            ⟨⟨_, hq, hdown⟩, hname⟩
          rw [(hwf.takePV hn he ho hq).owner_enter, if_pos rfl, if_pos ⟨rfl, hvac⟩]
      | refused hp' hn hname he hup =>
          rw [if_neg]
          rintro ⟨-, hvac⟩
          obtain ⟨o, ho, -⟩ := hwf.owner_lt _ _ he
          obtain ⟨⟨q, hq, hdown⟩, -⟩ := (vacant_of_some ((owner_of_entry hn he).trans ho)).mp hvac
          exact hup o q ho hq hdown
    · rw [hi.owner_of_ne hwf hm, if_neg fun h => hm h.1]
  · rw [Registry.State.claim_status, view_status_of_header hi.header]
  · rw [Registry.State.claim_addr, view_addr_of_header hi.header]

/-- **Reading a list claims its names.** -/
theorem addAllPvs_view (hwf : WF d) {fs : FileSystem} {r : ℤ}
    (ha : d.addAllPvs fs i = .ok (d', r)) (hp : d.pIocs i = some p) :
    d'.view = (signals fs p.pathToList).foldl
      (Registry.State.claim i p.heartbeatName) d.view := by
  have hall : WF d' ∧ d'.header = d.header ∧ d'.view = (signals fs p.pathToList).foldl
      (Registry.State.claim i p.heartbeatName) d.view := by
    refine addAllPvs_prefix_induct (P := fun pre d' => WF d' ∧ d'.header = d.header ∧
      d'.view = pre.foldl (Registry.State.claim i p.heartbeatName) d.view) ha hp
      ⟨hwf, rfl, rfl⟩ ?_
    rintro pre m post d₁ d₂ r' - ⟨hwf₁, hhead, hview⟩ hi
    obtain ⟨p₁, hp₁, hpp⟩ := header_eq_some_iff.mp
      ((congrFun hhead i).trans (header_of_pIocs hp))
    have hname : p₁.heartbeatName = p.heartbeatName := by
      rw [PIoc.heartbeatName, PIoc.heartbeatName, (PIoc.eq_of_header hpp).1]
    refine ⟨hwf₁.installed hi, hi.header.trans hhead, ?_⟩
    rw [hi.view hwf₁ hp₁, hname, hview, List.foldl_append, List.foldl_cons, List.foldl_nil]
  exact hall.2.2

/-! ## Removal -/

/-- The PVs of an IOC that has a signal list are on its list. -/
def LoadedListed (d : Dir) : Prop :=
  ∀ n i p, d.owner n = some i → d.pIocs i = some p → p.pathToList ≠ [] → d.Listed n i

/-- **Removal gives up the names of the IOC**, its heartbeat apart. -/
theorem Removed.owner_view (hr : Removed d i p d') (hwf : WF d) (hp : d.pIocs i = some p)
    (hpath : p.pathToList ≠ []) (hl : d.LoadedListed) (n : Name) :
    d'.owner n = if d.owner n = some i ∧ n ≠ p.heartbeatName then none else d.owner n := by
  by_cases ho : d.owner n = some i
  · obtain ⟨e, p', he, hp', hmem⟩ := hl n i p ho hp hpath
    rw [hp] at hp'
    cases hp'
    by_cases hname : n = p.heartbeatName
    · rw [if_neg fun h => h.2 hname]
      obtain ⟨pv, hpv, hpvname⟩ := hwf.table n e he
      have hkeep : d.keeps p e = true :=
        keeps_eq_true_iff.mpr ⟨pv, hpv, hpath, hpvname.trans hname⟩
      have hnot : d.gone p p.pvEList e = false := by simp [gone, hkeep]
      simp [Dir.owner, hr.stringResTbl, he, Option.filter_some, hnot, hr.pvEs]
    · have hnone : d'.stringResTbl n = none := (hl n i p ho hp hpath).absent hwf hp hr hname
      rw [if_pos ⟨ho, hname⟩, Dir.owner, hnone]
      rfl
  · rw [if_neg fun h => ho h.1, (hr.owner_of_ne hwf hp ho).2]

theorem Removed.view (hr : Removed d i p d') (hwf : WF d) (hp : d.pIocs i = some p)
    (hpath : p.pathToList ≠ []) (hl : d.LoadedListed) :
    d'.view = d.view.release i p.heartbeatName := by
  refine Registry.State.ext (funext fun n => ?_) (view_status_of_header (hr.header hp))
    (view_addr_of_header (hr.header hp))
  exact hr.owner_view hwf hp hpath hl n

/-- The heartbeat of an IOC that has a signal list stays on the list. -/
theorem Listed.kept (h : d.Listed n i) (hr : Removed d i p d') (hwf : WF d)
    (hp : d.pIocs i = some p) (hpath : p.pathToList ≠ []) (hname : n = p.heartbeatName) :
    d'.Listed n i := by
  obtain ⟨e, p', he, hp', hmem⟩ := h
  rw [hp] at hp'
  cases hp'
  obtain ⟨pv, hpv, hpvname⟩ := hwf.table n e he
  have hkeep : d.keeps p e = true :=
    keeps_eq_true_iff.mpr ⟨pv, hpv, hpath, hpvname.trans hname⟩
  refine ⟨e, _, ?_, hr.pIocs_self, List.mem_filter.mpr ⟨hmem, hkeep⟩⟩
  rw [hr.stringResTbl, he, Option.filter_some]
  simp [gone, hkeep]

/-! ## The PVs of loaded IOCs are on their lists -/

theorem LoadedListed.setPIoc (h : d.LoadedListed) (hp : d.pIocs i = some p)
    (hlist : q.pvEList = p.pvEList) (hpath : q.pathToList = p.pathToList) :
    (d.setPIoc i q).LoadedListed := by
  intro n j r ho hr hne
  refine Listed.setPIoc ?_ hp fun _ => hlist
  rw [setPIoc_pIocs] at hr
  split_ifs at hr with hji
  · cases hr
    exact h n j p ho (hji ▸ hp) (hpath ▸ hne)
  · exact h n j r ho hr hne

/-- What the list of an IOC without a path is plays no part. -/
theorem LoadedListed.setPIoc_learned (h : d.LoadedListed) (hpath : q.pathToList = []) :
    (d.setPIoc i q).LoadedListed := by
  intro n j r ho hr hne
  rw [setPIoc_pIocs] at hr
  split_ifs at hr with hji
  · cases hr
    exact absurd hpath hne
  · obtain ⟨e, p, he, hp, hmem⟩ := h n j r ho hr hne
    exact ⟨e, p, he, by rw [setPIoc_pIocs, if_neg hji, hp], hmem⟩

theorem LoadedListed.installed (h : d.LoadedListed) (hwf : WF d) {m : Name} {r : ℤ}
    (hi : Installed d m j d' r) : d'.LoadedListed := by
  intro n i p ho hp hpath
  by_cases hmn : m = n
  · subst hmn
    rcases hi.owner_self hwf with hself | rfl
    · rw [ho] at hself
      cases hself
      cases hi with
      | entered => exact listed_enter _ _ _ _
      | ownHeartbeat => exact h m _ p ho hp hpath
      | moved => exact listed_enter _ _ _ _
      | refused => exact h m _ p ho hp hpath
    · exact h m i p ho hp hpath
  · obtain ⟨q, hq, hqp⟩ := header_eq_some_iff.mp
      ((congrFun hi.header i).symm.trans (header_of_pIocs hp))
    rw [hi.owner_of_ne hwf (Ne.symm hmn)] at ho
    have hqpath : q.pathToList ≠ [] := (PIoc.eq_of_header hqp).2.1 ▸ hpath
    exact (h n i q ho hq hqpath).installed hwf hi fun heq => absurd heq hmn

theorem LoadedListed.addAllPvs (h : d.LoadedListed) (hwf : WF d) {fs : FileSystem} {r : ℤ}
    (ha : d.addAllPvs fs i = .ok (d', r)) : d'.LoadedListed := by
  have hall : WF d' ∧ d'.LoadedListed := by
    refine addAllPvs_induct (P := fun d' => WF d' ∧ d'.LoadedListed) ha ⟨hwf, h⟩ ?_
    rintro p hp m hmem d₁ d₂ r' ⟨hwf₁, h₁⟩ hi
    exact ⟨hwf₁.installed hi, h₁.installed hwf₁ hi⟩
  exact hall.2

theorem LoadedListed.removed (h : d.LoadedListed) (hwf : WF d) (hp : d.pIocs i = some p)
    (hpath : p.pathToList ≠ []) (hr : Removed d i p d') : d'.LoadedListed := by
  intro n j q ho hq hne
  by_cases hji : j = i
  · subst hji
    rw [hr.owner_view hwf hp hpath h] at ho
    split_ifs at ho with hgone
    have hname : n = p.heartbeatName := by
      by_contra hname
      exact hgone ⟨ho, hname⟩
    exact (h n j p ho hp hpath).kept hr hwf hp hpath hname
  · rw [hr.owner_view hwf hp hpath h] at ho
    split_ifs at ho
    have hq' : d.pIocs j = some q := by rw [← hq, hr.pIocs, if_neg hji]
    exact (h n j q ho hq' hne).removed hwf hp hr (Ne.symm hji)

theorem LoadedListed.reloaded (h : d.LoadedListed) (hwf : WF d) (hp : d.pIocs i = some p)
    (hpath : p.pathToList ≠ []) {cn : Connection} (hr : Reloaded d i cn d') :
    d'.LoadedListed := by
  cases hr with
  | first hp' => exact h.setPIoc hp' rfl rfl
  | still hp' => exact h.setPIoc hp' rfl rfl
  | @again p' q d₁ d₂ r hp' hst hrem hadd hq =>
      rw [hp] at hp'
      cases hp'
      have hA : (d.setPIoc i { p with addr := cn.addr p.addr }).LoadedListed :=
        h.setPIoc hp rfl rfl
      have hwfA := hwf.setPIoc (q := { p with addr := cn.addr p.addr }) hp rfl
        (List.Sublist.refl _)
      have h₁ := hA.removed hwfA (setPIoc_pIocs_self ..) hpath hrem
      have hwf₁ := hwfA.removed (setPIoc_pIocs_self ..) hrem
      exact (h₁.addAllPvs hwf₁ hadd).setPIoc hq rfl rfl

theorem LoadedListed.findOrInstallIoc (h : d.LoadedListed) (hwf : WF d) (name : Name) :
    (d.findOrInstallIoc name).1.LoadedListed := by
  rcases hwf.findOrInstallIoc_cases name with ⟨_, _, hf, -⟩ | ⟨hfree, -, hf, hnew⟩
  · rw [hf]
    exact h
  · rw [hf]
    intro m j q ho hq hne
    rw [owner_installIocName] at ho
    rw [hnew] at hq
    split_ifs at hq
    · cases hq
      exact absurd rfl hne
    · exact (h m j q ho hq hne).installIocName hwf _ _

theorem LoadedListed.learned (h : d.LoadedListed) (hwf : WF d) {cn : Connection}
    (hl : Learned d cn n i p d') (hpath : p.pathToList = []) : d'.LoadedListed := by
  have h₀ := h.findOrInstallIoc hwf cn.iocname
  have hwf₀ := hwf.findOrInstallIoc cn.iocname
  cases hl with
  | mk hi hp hinst hq =>
      have hwf₁ := hwf₀.setPIoc (q := p.met cn) hp (by simp) (by simp)
      have h₁ := h₀.setPIoc (q := p.met cn) hp (by simp) (by simp)
      refine (h₁.installed hwf₁ hinst).setPIoc_learned ?_
      have hhead := header_of_header hq ((congrFun hinst.header i).trans
        (header_of_pIocs (setPIoc_pIocs_self ..)))
      rw [(PIoc.eq_of_header hhead).2.1, PIoc.met_pathToList, hpath]

theorem LoadedListed.forget (h : d.LoadedListed) (hwf : WF d) {m : Name} {e : PvEId}
    (hm : d.stringResTbl m = some e) : ((d.tblRemove m).deletePvE e).LoadedListed := by
  intro n i p ho hp hne
  rw [hwf.owner_forget hm] at ho
  split_ifs at ho with hnm
  exact (h n i p ho hp hne).forget e hnm

/-! ## Connections -/

/-- The address of an IOC is set, its status stays. -/
theorem view_setAddr (hp : d.pIocs i = some p) (a : SockAddr) :
    (d.setPIoc i { p with addr := a }).view = d.view.setAddr i a := by
  rw [view_setPIoc, Registry.State.setStatus,
    show PIoc.presence { p with addr := a } = d.view.status i from (view_status_of hp).symm]
  exact Registry.State.ext rfl (Function.update_eq_self ..) rfl

/-- **A heartbeat's connection**: its IOC comes back. -/
theorem Reloaded.view {cn : Connection} (hr : Reloaded d i cn d') (hwf : WF d)
    (hp : d.pIocs i = some p) (hpath : p.pathToList ≠ []) (hl : d.LoadedListed) :
    d'.view = d.view.connect i p.heartbeatName (signals cn.fs p.pathToList)
      (cn.addr p.addr) := by
  have hstatus := view_status_of hp
  cases hr with
  | first hp' hst =>
      rw [hp] at hp'
      cases hp'
      have hnew : d.view.status i ≠ .down := by
        rw [hstatus, Ne, PIoc.presence_eq_down_iff]
        omega
      rw [view_setPIoc, Registry.State.connect_of_not_down hnew]
      rfl
  | still hp' h0 h2 =>
      rw [hp] at hp'
      cases hp'
      have hup : d.view.status i ≠ .down := by
        rw [hstatus, Ne, PIoc.presence_eq_down_iff]
        exact h2
      rw [view_setPIoc, Registry.State.connect_of_not_down hup, PIoc.presence, if_neg h0, if_neg h2]
  | @again p' q d₁ d₂ r hp' hst hrem hadd hq =>
      rw [hp] at hp'
      cases hp'
      have hA := view_setAddr hp (cn.addr p.addr)
      have hlA : (d.setPIoc i { p with addr := cn.addr p.addr }).LoadedListed :=
        hl.setPIoc hp rfl rfl
      have hwfA := hwf.setPIoc (q := { p with addr := cn.addr p.addr }) hp rfl
        (List.Sublist.refl _)
      have hwf₁ := hwfA.removed (setPIoc_pIocs_self ..) hrem
      have h₁ := hrem.view hwfA (setPIoc_pIocs_self ..) hpath hlA
      have h₂ := addAllPvs_view hwf₁ hadd hrem.pIocs_self
      have hqaddr : q.addr = cn.addr p.addr := by
        have hhead := (addAllPvs_header hadd).trans (hrem.header (setPIoc_pIocs_self ..))
        have hqq := header_of_header hq ((congrFun hhead i).trans
          (header_of_pIocs (setPIoc_pIocs_self ..)))
        exact (PIoc.eq_of_header hqq).2.2.2
      have hload : d₂.view = (d.view.setAddr i (cn.addr p.addr)).load i p.heartbeatName
          (signals cn.fs p.pathToList) := by
        rw [h₂, h₁, hA]
        rfl
      have hdown : d.view.status i = .down := hstatus.trans (PIoc.presence_eq_down_iff.mpr hst)
      rw [view_setPIoc, hload, Registry.State.connect_of_down hdown]
      refine Registry.State.ext (Registry.State.owner_load_congr rfl rfl) ?_ ?_
      · show Function.update _ i _ = Function.update _ i _
        simp [Registry.State.setAddr, PIoc.presence]
      · show Function.update _ i _ = Function.update _ i _
        simp [Registry.State.setAddr, hqaddr]

/-- An IOC that is entered changes nothing: it is not there yet. -/
theorem findOrInstallIoc_view (hwf : WF d) (name : Name) :
    (d.findOrInstallIoc name).1.view = d.view := by
  rcases hwf.findOrInstallIoc_cases name with ⟨_, _, hf, -⟩ | ⟨-, hnone, hf, hnew⟩
  · rw [hf]
  · rw [hf]
    refine Registry.State.ext (owner_installIocName ..) (funext fun j => ?_) (funext fun j => ?_)
    · by_cases hj : j = d.nextPIoc
      · simp [view, hnew, hj, hnone, PIoc.presence]
      · simp [view, hnew, hj]
    · by_cases hj : j = d.nextPIoc
      · simp [view, hnew, hj, hnone]
      · simp [view, hnew, hj]

/-- **A learned PV's connection**: the PV is found with the IOC. -/
theorem Learned.view {cn : Connection} (hl : Learned d cn n i p d') (hwf : WF d) :
    d'.view = d.view.learn i p.heartbeatName n (cn.addr p.addr) := by
  have hwf₀ := hwf.findOrInstallIoc cn.iocname
  have h₀ := findOrInstallIoc_view hwf cn.iocname
  cases hl with
  | @mk d₂ q r hi hp hinst hq =>
      have hstatus : d.view.status i = p.presence := by rw [← h₀, view_status_of hp]
      have haddr : d.view.addr i = p.addr := by rw [← h₀, view_addr_of hp]
      have hwf₁ := hwf₀.setPIoc (q := p.met cn) hp (by simp) (by simp)
      have h₁ : ((d.findOrInstallIoc cn.iocname).1.setPIoc i (p.met cn)).view =
          d.view.setAddr i (p.met cn).addr := by
        rw [view_setPIoc, h₀, Registry.State.setStatus, PIoc.presence, PIoc.met_status,
          ← PIoc.presence, ← hstatus]
        exact Registry.State.ext rfl (Function.update_eq_self ..) rfl
      have h₂ := hinst.view hwf₁ (setPIoc_pIocs_self ..)
      have hqq := header_of_header hq ((congrFun hinst.header i).trans
        (header_of_pIocs (setPIoc_pIocs_self ..)))
      have hqaddr : q.addr = (p.met cn).addr := (PIoc.eq_of_header hqq).2.2.2
      have hname : (p.met cn).heartbeatName = p.heartbeatName := by
        rw [PIoc.heartbeatName, PIoc.heartbeatName, PIoc.met_iocname]
      rw [view_setPIoc, h₂, h₁, hname]
      refine Registry.State.ext (funext fun m => ?_) ?_ ?_
      · rw [Registry.State.learn_owner]
        show (Registry.State.claim i p.heartbeatName _ n).owner m = _
        rw [Registry.State.claim_owner, Registry.State.claim_owner]
        rfl
      · rw [Registry.State.learn_status]
        show Function.update (Registry.State.claim i p.heartbeatName _ n).status i _ = _
        rw [Registry.State.claim_status]
        rfl
      · rw [Registry.State.learn_addr]
        show Function.update (Registry.State.claim i p.heartbeatName _ n).addr i q.addr = _
        rw [Registry.State.claim_addr, hqaddr]
        show Function.update (Function.update d.view.addr i _) i _ = _
        rw [Function.update_idem, hstatus]
        by_cases hnew : p.status = 2 ∨ p.status = 0
        · rw [if_neg fun h => (PIoc.presence_eq_up_iff.mp h).elim fun h0 h2 => hnew.elim h2 h0,
            PIoc.met, if_pos hnew]
        · rw [if_pos (PIoc.presence_eq_up_iff.mpr ⟨fun h0 => hnew (Or.inr h0),
            fun h2 => hnew (Or.inl h2)⟩), PIoc.met, if_neg hnew, ← haddr, Function.update_eq_self]

/-- A learned PV's channel is closed: the PV is free. -/
theorem WF.view_forget (hwf : WF d) {e : PvEId} (hn : d.stringResTbl n = some e) :
    ((d.tblRemove n).deletePvE e).view = d.view.forget n := by
  refine Registry.State.ext (funext fun m => ?_) rfl rfl
  show ((d.tblRemove n).deletePvE e).owner m = Function.update d.owner n none m
  rw [hwf.owner_forget hn, Function.update_apply]

end Dir

/-! ## Events -/

/-- The operation of an event, if it has any. -/
def Server.op (s : Server) : Event → Option NameOp
  | .up c cn => (s.ca.chans c).bind fun ch =>
      match ch.callback with
      | .WDprocessChangeConnectionEvent => ch.puser.bind fun i => (s.dir.pIocs i).map fun p =>
          .connect i p.heartbeatName (signals cn.fs p.pathToList) (cn.addr p.addr)
      | .processChangeConnectionEvent =>
          let (d, i) := s.dir.findOrInstallIoc cn.iocname
          (d.pIocs i).map fun p =>
            .learn i p.heartbeatName (cutAt '.' ch.name) (cn.addr p.addr)
  | .down c _ => (s.ca.chans c).bind fun ch =>
      match ch.callback with
      | .WDprocessChangeConnectionEvent => ch.puser.map .lose
      | .processChangeConnectionEvent => some (.forget ch.name)
  | _ => none

/-- The operation of an event, applied. -/
def Server.viewAfter (s : Server) (e : Event) : NameRegistry :=
  (s.op e).elim s.dir.view s.dir.view.apply

section Events

variable {rx : Regex} {start : Config → Prop} {ok : Server → Event → Prop} {s s' : Server}
  {e : Event}

/-- The IOC of a learned connection has no signal list. -/
theorem learned_path (hwf : s.dir.WF) {c : Chid} {cn : Connection} {ch : Channel} {j : IocId}
    {p : PIoc} {d' : Dir} {n : Name} (hns : noNamesake s (.up c cn) = true)
    (hch : s.ca.chans c = some ch) (hl : ch.IsLearned) (hd : s.dir.Learned cn n j p d') :
    p.pathToList = [] := by
  rcases hd.site_cases hwf with ⟨-, hp, -⟩ | ⟨-, -, -, hp⟩
  · by_contra hne
    have hsite := Dir.site_of_pIocs hp
    exact learned_other hwf (notNamed_of_noNamesake hns hsite hne) hch hl hd hsite rfl
  · rw [hp]

/-- The PVs of loaded IOCs stay on their lists. -/
theorem Handled.loadedListed (h : Handled rx s e s') (hwf : s.dir.WF)
    (ht : Tied s.dir s.nameList s.ca) (hns : noNamesake s e = true) (hl : s.dir.LoadedListed) :
    s'.dir.LoadedListed := by
  cases h with
  | heartbeatUp hch _ hcb hpuser hd =>
      obtain ⟨p, hp⟩ := hd.pIocs
      exact hl.reloaded hwf hp (ht.puser_path hch hcb hpuser hp).1 hd
  | heartbeatDown _ _ _ _ hp => exact hl.setPIoc hp rfl rfl
  | learnedUp hch _ hcb _ hd => exact hl.learned hwf hd (learned_path hwf hns hch hcb hd)
  | learnedDown _ _ _ he => exact hl.forget hwf he
  | learnedDownFree => exact hl
  | request ha => cases ha <;> exact hl
  | purge _ hframe => exact hframe.dir ▸ hl
  | report => exact hl

/-- **The simulation step**: an event does to the registry what its operation does. -/
theorem Handled.view (h : Handled rx s e s') (hwf : s.dir.WF) (ht : Tied s.dir s.nameList s.ca)
    (hl : s.dir.LoadedListed) : s'.dir.view = s.viewAfter e := by
  cases h with
  | heartbeatUp hch _ hcb hpuser hd =>
      obtain ⟨p, hp⟩ := hd.pIocs
      have hpath := (ht.puser_path hch hcb hpuser hp).1
      simp only [Server.viewAfter, Server.op, hch, Option.bind_some, hcb, hpuser, hp,
        Option.map_some, Option.elim_some]
      exact hd.view hwf hp hpath hl
  | heartbeatDown hch _ hcb hpuser hp =>
      simp only [Server.viewAfter, Server.op, hch, Option.bind_some, hcb, hpuser, Option.map_some,
        Option.elim_some]
      rw [Dir.view_setPIoc]
      refine Registry.State.ext rfl rfl ?_
      show Function.update s.dir.view.addr _ _ = s.dir.view.addr
      rw [← Dir.view_addr_of hp, Function.update_eq_self]
  | learnedUp hch _ hcb _ hd =>
      obtain ⟨hi, hp⟩ := hd.found
      simp only [Server.viewAfter, Server.op, hch, Option.bind_some, hcb, hi, hp, Option.map_some,
        Option.elim_some]
      exact hd.view hwf
  | learnedDown hch _ hcb he =>
      simp only [Server.viewAfter, Server.op, hch, Option.bind_some, hcb, Option.elim_some]
      exact hwf.view_forget he
  | learnedDownFree hch _ hcb he =>
      simp only [Server.viewAfter, Server.op, hch, Option.bind_some, hcb, Option.elim_some]
      refine Registry.State.ext (funext fun m => ?_) rfl rfl
      show s.dir.owner m = Function.update s.dir.owner _ none m
      rw [← hwf.owner_eq_none_iff.mpr he, Function.update_eq_self]
  | request ha => cases ha <;> rfl
  | purge _ hframe =>
      show _ = s.dir.view
      rw [hframe.dir]
  | report => rfl

/-- A status is 0, 1 or 2. -/
theorem Handled.status_le (h : Handled rx s e s') (hwf : s.dir.WF)
    (hle : ∀ i p, s.dir.header i = some p → p.status ≤ 2) {i : IocId} {p : PIoc}
    (hp : s'.dir.header i = some p) : p.status ≤ 2 := by
  cases h with
  | @heartbeatUp c cn ch j d' _ _ _ _ hd =>
      obtain ⟨q, hq⟩ := hd.pIocs
      have hqle : q.status ≤ 2 := hle j q.header (Dir.header_of_pIocs hq)
      change d'.header i = some p at hp
      rw [hd.header hq] at hp
      split_ifs at hp
      · cases hp
        show (if q.status = 0 ∨ q.status = 2 then 1 else q.status) ≤ 2
        split_ifs <;> omega
      · exact hle i p hp
  | heartbeatDown =>
      change (Dir.setPIoc _ _ _).header i = some p at hp
      rw [Dir.header_setPIoc] at hp
      split_ifs at hp
      · cases hp
        exact le_rfl
      · exact hle i p hp
  | @learnedUp c cn ch ch' j q d' _ _ _ _ hd =>
      change d'.header i = some p at hp
      rw [hd.header hwf] at hp
      split_ifs at hp
      · cases hp
        exact Nat.le_succ 1
      · exact hle i p hp
  | learnedDown => exact hle i p hp
  | learnedDownFree => exact hle i p hp
  | request ha => cases ha <;> exact hle i p hp
  | purge _ hframe => exact hle i p (hframe.dir ▸ hp)
  | report => exact hle i p hp

/-- The names of the server's own PVs are fixed. -/
theorem Handled.nsResTbl (h : Handled rx s e s') : s'.nsResTbl = s.nsResTbl := by
  cases h with
  | request ha => cases ha <;> rfl
  | purge _ hframe => exact hframe.nsResTbl
  | _ => rfl

/-! ## Runs -/

/-- What ties the server to its registry. -/
structure Shown (s : Server) : Prop where
  wf : s.dir.WF
  tied : Tied s.dir s.nameList s.ca
  listed : s.dir.LoadedListed
  status_le : ∀ i p, s.dir.header i = some p → p.status ≤ 2

theorem Shown.handled (h : Shown s) (hh : Handled rx s e s') (hns : noNamesake s e = true) :
    Shown s' where
  wf := hh.wf h.wf
  tied := hh.tied h.wf h.tied
  listed := hh.loadedListed h.wf h.tied hns h.listed
  status_le := fun _ _ hp => hh.status_le h.wf h.status_le hp

theorem startup_shown {cfg : Config} (h : startup rx cfg = .ok s)
    (hvisits : Visits s.dir cfg.order) : Shown s where
  wf := startup_wf h
  tied := startup_tied h hvisits
  listed := fun n i p ho hp _ => startup_listed h n i p ho hp
  status_le := fun _ _ hp => (startup_header h hp).2.2.2 ▸ Nat.zero_le 2

/-- The runs in which no learned server goes by the name of a loaded IOC. -/
theorem reachable_shown (h : Reachable (nameServer rx start) ok s)
    (hok : ∀ s e, ok s e → noNamesake s e = true) : Shown s := by
  refine h.invariant (I := Shown) ?_ ?_
  · rintro s ⟨cfg, -, hs, hvisits⟩
    exact startup_shown hs hvisits
  · rintro s e s' hs hoke ⟨hen, hs'⟩
    exact hs.handled (handle_handled hs.wf hen hs') (hok s e hoke)

/-- The operations of a sequence of events. -/
def Server.ops (rx : Regex) (s : Server) : List Event → List NameOp
  | [] => []
  | e :: es =>
      match handle rx s e with
      | .ok s' => (s.op e).toList ++ s'.ops rx es
      | .error _ => (s.op e).toList

theorem Server.ops_cons (es : List Event) (h : handle rx s e = .ok s') :
    s.ops rx (e :: es) = (s.op e).toList ++ s'.ops rx es := by
  rw [Server.ops, h]

/-- **A run of the server is the run of its operations.** -/
theorem Shown.view_run (hs : Shown s) {es : List Event} (hrun : Run (nameServer rx start) ok s es s')
    (hok : ∀ s e, ok s e → noNamesake s e = true) :
    Shown s' ∧ s'.nsResTbl = s.nsResTbl ∧ s'.dir.view = s.dir.view.run (s.ops rx es) := by
  induction hrun with
  | nil s => exact ⟨hs, rfl, rfl⟩
  | @cons s t u e es hoke hstep _ ih =>
      obtain ⟨hen, ht⟩ := hstep
      have hh := handle_handled hs.wf hen ht
      obtain ⟨hu, hns, hview⟩ := ih (hs.handled hh (hok s e hoke))
      refine ⟨hu, hns.trans hh.nsResTbl, ?_⟩
      rw [hview, hh.view hs.wf hs.tied hs.listed, Server.viewAfter, Server.ops_cons es ht]
      cases s.op e with
      | none => rfl
      | some o => rfl

/-- The answer that a registry gives to a search; `nsResTbl` are the server's own PVs. -/
def reply (r : NameRegistry) (nsResTbl : List Name) (pPVName : Name) : Server.PvExistReturn :=
  if Server.recordName pPVName = [] then .doesNotExistHere
  else
    (r.owner (Server.recordName pPVName)).elim
      (if nsResTbl.contains pPVName then .existsHere else .doesNotExistHere)
      fun _ => (r.lookup (Server.recordName pPVName)).elim .doesNotExistHere .existsAt

/-- The answer to a request is the one its registry gives. -/
theorem Shown.answered (hs : Shown s) {client pPVName : Name} {search : CaStatus} {now : ℕ}
    {ret : Server.PvExistReturn} (ha : Server.Answered rx s client pPVName search now s' ret) :
    ret = reply s.dir.view s.nsResTbl pPVName := by
  have hfree : s.dir.stringResTbl (Server.recordName pPVName) = none →
      s.dir.view.owner (Server.recordName pPVName) = none := hs.wf.owner_eq_none_iff.mpr
  have hother : pPVName ∉ s.nsResTbl → ¬s.nsResTbl.contains pPVName = true :=
    fun hns h => hns (List.contains_iff_mem.mp h)
  unfold reply
  cases ha with
  | noName hn => rw [if_pos hn]
  | @iocError e pv hn he hpv ho =>
      obtain ⟨i, hi, -⟩ := hs.wf.owner_lt e pv hpv
      rw [ho] at hi
      cases hi
  | @hit i p hn he ho hp hst =>
      have hup : s.dir.view.status i = .up := by
        rw [Dir.view_status_of hp, PIoc.presence_eq_up_iff]
        omega
      rw [if_neg hn, Registry.State.lookup,
        show s.dir.view.owner (Server.recordName pPVName) = some i from ho, Option.elim_some,
        Option.bind_some, if_pos hup, Dir.view_addr_of hp, Option.elim_some]
  | @iocDown i p hn he ho hp hst =>
      have hle : p.status ≤ 2 := hs.status_le i p.header (Dir.header_of_pIocs hp)
      have hdown : s.dir.view.status i ≠ .up := by
        rw [Dir.view_status_of hp, Ne, PIoc.presence_eq_up_iff]
        omega
      rw [if_neg hn, Registry.State.lookup,
        show s.dir.view.owner (Server.recordName pPVName) = some i from ho, Option.elim_some,
        Option.bind_some, if_neg hdown, Option.elim_none]
  | nameserverPV hn he hns =>
      rw [if_neg hn, hfree he, Option.elim_none, if_pos (List.contains_iff_mem.mpr hns)]
  | pending hn he hns => rw [if_neg hn, hfree he, Option.elim_none, if_neg (hother hns)]
  | denied hn he hns => rw [if_neg hn, hfree he, Option.elim_none, if_neg (hother hns)]
  | searchFailed hn he hns => rw [if_neg hn, hfree he, Option.elim_none, if_neg (hother hns)]
  | searched hn he hns => rw [if_neg hn, hfree he, Option.elim_none, if_neg (hother hns)]

end Events

/-- **The server answers as its registry does.**  After any run in which no learned server goes by
the name of a loaded IOC, whatever the order of the events, a search is answered as the registry
answers it after the operations of the run. -/
theorem pvExistTest_reply (rx : Regex) (start : Config → Prop) {s₀ s s' : Server}
    {es : List Event} (hinit : (nameServer rx start).init s₀)
    (hrun : Run (nameServer rx start) (fun s e => noNamesake s e = true) s₀ es s)
    {client pPVName : Name} {search : CaStatus} {now : ℕ} {ret : Server.PvExistReturn}
    (h : s.pvExistTest rx client pPVName search now = .ok (s', ret)) :
    ret = reply (s₀.dir.view.run (s₀.ops rx es)) s₀.nsResTbl pPVName := by
  obtain ⟨cfg, -, hs₀, hvisits⟩ := hinit
  obtain ⟨hs, hns, hview⟩ := (startup_shown hs₀ hvisits).view_run hrun fun _ _ h => h
  rw [← hview, ← hns]
  exact hs.answered (Server.pvExistTest_answered h)

/-- A request is answered with `ret`. -/
def answers (rx : Regex) (s : Server) (n : Name) (ret : Server.PvExistReturn) : Bool :=
  (s.pvExistTest rx [] n .normal 0).toOption.any fun r => decide (r.2 = ret)

theorem exists_of_answers {rx : Regex} {s : Server} {n : Name} {ret : Server.PvExistReturn}
    (h : answers rx s n ret = true) : ∃ s', s.pvExistTest rx [] n .normal 0 = .ok (s', ret) := by
  obtain ⟨⟨s', r⟩, hr, hdec⟩ := (Option.any_eq_true _ _).mp h
  obtain rfl : r = ret := of_decide_eq_true hdec
  exact ⟨s', toOption_eq_some_iff.mp hr⟩

/-- The IOC is rebooted with another list. -/
def anotherList : List Event :=
  [.up 0 (connectionTo "a:1" 1 ""), .down 0 2, .up 0 (connectionTo "a:3" 3 "A:heartbeat y")]

set_option maxRecDepth 10000 in
theorem pvExistTest_reply_anotherList : ∃ s₀ s, (nameServer literal fun _ => True).init s₀ ∧
    Run (nameServer literal fun _ => True) (fun s e => noNamesake s e = true) s₀ anotherList s ∧
    .existsAt ⟨afInet, 3, InAddr.zero⟩ =
      reply (s₀.dir.view.run (s₀.ops literal anotherList)) s₀.nsResTbl ['y'] := by
  have hrun : (run literal noNamesake oneIoc anotherList).any (fun s =>
      answers literal s ['y'] (.existsAt ⟨afInet, 3, InAddr.zero⟩)) = true := by decide
  obtain ⟨s, hs, hans⟩ := (Option.any_eq_true _ _).mp hrun
  obtain ⟨s₀, hinit, hrun⟩ := run_of_eq_some hs
  obtain ⟨s', hret⟩ := exists_of_answers hans
  exact ⟨s₀, s, hinit, hrun, pvExistTest_reply literal _ hinit hrun hret⟩

end CaNameserver
