import CaNameserver.Lib.Heap
import CaNameserver.Refinement

/-!
# Shutting down

`~directoryServer` closes the channels, empties the three hash tables and deletes what was in
them, deletes the nodes of the pending list and the access rules.  It reaches an object only
through the tables and the list, so two things may be wrong with it: an object that is reached
twice, and one that is not reached at all.

## Nothing is deleted twice

The tables hold each object under one name (`Dir.WF`), and every entry of the PV table is visited
once, in whatever order (`VisitsPvEs`).  So the deletions are defined after any run at all
(`destroy_defined`).

## Nothing is lost

`Dir.Tidy` says that every entry that is alive is in the PV table, under its name.  An insertion
that takes a PV from an IOC that is down deletes the old entry only if it finds it on the list of
that IOC; otherwise the entry is out of the table and out of reach.  It does find it, since such
an IOC has a signal list, and has its PVs on its list (`Dir.LoadedListed`), as long as no learned
server goes by its name.  Removals delete what they take out of the table (`Tidy.removed`), and so
does the loss of a learned PV (`Tidy.forget`).

* `destroy_clean`: after any run in which no learned server goes by the name of a loaded IOC the
  destructor leaves nothing (`Server.Cleared`).
-/

namespace CaNameserver

open CStr Fallible Transition

/-! ## The destructor -/

/-- `directoryServer::~directoryServer`, and `~pvServer` for the names of its own PVs.  `iocs` and
`pvEs` are the entries of the IOC table and of the PV table in the order in which `removeAll` puts
them on its list.  The destructor of a `pIoc` takes the nodes of its list off, and looks at no
`pvE`. -/
def Server.destroy (s : Server) (iocs : List IocId) (pvEs : List PvEId) : Except Fault Server := do
  let pIocs ← deleteAll .pIocDeleted s.dir.pIocs iocs
  let pvEs ← deleteAll .pvEDeleted s.dir.pvEs pvEs
  return { s with
    dir := { s.dir with
      pIocs := pIocs
      pvEs := pvEs
      iocResTbl := fun _ => none
      stringResTbl := fun _ => none }
    nameList := []
    neverResTbl := fun _ => none
    nsResTbl := []
    pgateAs := none
    ca := { s.ca with chans := fun _ => none } }

/-- `order` visits every entry of the PV table once. -/
def VisitsPvEs (d : Dir) (order : List PvEId) : Prop :=
  order.Nodup ∧ ∀ e, e ∈ order ↔ ∃ n, d.stringResTbl n = some e

/-- Nothing is left of the server's storage. -/
structure Server.Cleared (s : Server) : Prop where
  pIocs : ∀ i, s.dir.pIocs i = none
  pvEs : ∀ e, s.dir.pvEs e = none
  nameList : s.nameList = []
  neverResTbl : ∀ n, s.neverResTbl n = none
  pgateAs : s.pgateAs = none
  chans : ∀ c, s.ca.chans c = none

/-! ## What has not been lost -/

namespace Dir

/-- Every entry is in the table under its name, and an IOC that is down has a signal list. -/
structure Tidy (d : Dir) : Prop where
  tabled : ∀ e pv, d.pvEs e = some pv → d.stringResTbl pv.resourceName = some e
  down : ∀ i p, d.header i = some p → p.status = 2 → p.pathToList ≠ []

namespace Tidy

variable {d d' : Dir} {n m : Name} {i j : IocId} {p : PIoc} {r : ℤ}

theorem empty : Tidy Dir.empty := ⟨fun _ _ h => (by cases h), fun _ _ h => (by cases h)⟩

/-- The headers change, the PVs do not. -/
theorem headers (h : Tidy d) (hpvEs : d'.pvEs = d.pvEs) (htbl : d'.stringResTbl = d.stringResTbl)
    (hdown : ∀ i p, d'.header i = some p → p.status = 2 → p.pathToList ≠ []) : Tidy d' :=
  ⟨fun e pv hpv => by rw [htbl]; exact h.tabled e pv (hpvEs ▸ hpv), hdown⟩

theorem setPIoc (h : Tidy d) {q : PIoc} (hdown : q.status = 2 → q.pathToList ≠ []) :
    Tidy (d.setPIoc i q) := by
  refine h.headers rfl rfl fun j p hp => ?_
  rw [header_setPIoc] at hp
  split_ifs at hp
  · cases hp
    exact hdown
  · exact h.down j p hp

theorem installIocName (h : Tidy d) (name path : Name) : Tidy (d.installIocName name path).1 := by
  cases hfree : d.iocResTbl name with
  | some _ =>
      rw [Dir.installIocName, hfree]
      exact h
  | none =>
      refine h.headers (by rw [Dir.installIocName, hfree]) (by rw [Dir.installIocName, hfree]) ?_
      intro j p hp hdown
      rw [header, installIocName_pIocs hfree] at hp
      split_ifs at hp
      · cases hp
        cases hdown
      · exact h.down j p hp hdown

/-- A new entry, under a name that is free. -/
theorem enter (h : Tidy d) (hp : d.pIocs i = some p) (hn : d.stringResTbl n = none) :
    Tidy (d.enter n i p) := by
  refine ⟨fun e pv hpv => ?_, fun j q hq => ?_⟩
  · rw [enter_pvEs] at hpv
    rw [enter_stringResTbl]
    split_ifs at hpv with he
    · cases hpv
      rw [if_pos rfl, he]
    · have hin := h.tabled e pv hpv
      rw [if_neg, hin]
      intro hname
      rw [hname, hn] at hin
      cases hin
  · rw [(Installed.entered hp hn).header] at hq
    exact h.down j q hq

/-- A PV that is on the list of its IOC is taken off, and deleted. -/
theorem takePV (h : Tidy d) {e : PvEId} {o : IocId} {q : PIoc} (hn : d.stringResTbl n = some e)
    (hq : d.pIocs o = some q) (hmem : e ∈ q.pvEList) : Tidy (d.takePV n e o q) := by
  refine ⟨fun x pv hpv => ?_, fun j p hp => ?_⟩
  · rw [takePV_pvEs] at hpv
    split_ifs at hpv with hx
    have hin := h.tabled x pv hpv
    rw [takePV_stringResTbl, if_neg, hin]
    intro hname
    rw [hname, hn] at hin
    exact hx ⟨(Option.some.inj hin).symm, hmem⟩
  · rw [header_of_relist hq fun j => takePV_pIocs d n o j q e hq] at hp
    exact h.down j p hp

/-- The insertion of a PV.  One that is moved was on the list of the IOC it is moved from. -/
theorem installed (h : Tidy d) (hl : d.LoadedListed) (hi : Installed d n i d' r) :
    Tidy d' := by
  cases hi with
  | entered hp hn => exact h.enter hp hn
  | ownHeartbeat => exact h
  | @moved p q p' e pv o hp hn hname he ho hq hdown hp' =>
      have howner : d.owner n = some o := (owner_of_entry hn he).trans ho
      obtain ⟨x, q', hx, hq', hmem⟩ :=
        hl n o q howner hq (h.down o q.header (header_of_pIocs hq) hdown)
      rw [hn] at hx
      cases hx
      rw [hq] at hq'
      cases hq'
      refine (h.takePV hn hq hmem).enter hp' ?_
      rw [takePV_stringResTbl, if_pos rfl]
  | refused => exact h

theorem addAllPvs (h : Tidy d) (hwf : WF d) (hl : d.LoadedListed) {fs : FileSystem}
    (ha : d.addAllPvs fs i = .ok (d', r)) : Tidy d' := by
  have hall : WF d' ∧ d'.LoadedListed ∧ Tidy d' := by
    refine addAllPvs_induct (P := fun d' => WF d' ∧ d'.LoadedListed ∧ Tidy d') ha ⟨hwf, hl, h⟩ ?_
    rintro p hp m hm d₁ d₂ r' ⟨hwf₁, hl₁, h₁⟩ hi
    exact ⟨hwf₁.installed hi, hl₁.installed hwf₁ hi, h₁.installed hl₁ hi⟩
  exact hall.2.2

/-- The entries that are removed from the table are deleted. -/
theorem removed (h : Tidy d) (hp : d.pIocs i = some p) (hr : Removed d i p d') : Tidy d' := by
  refine ⟨fun e pv hpv => ?_, fun j q hq => ?_⟩
  · rw [hr.pvEs] at hpv
    split_ifs at hpv with hgone
    rw [hr.stringResTbl, h.tabled e pv hpv, Option.filter_some, if_pos]
    simpa using hgone
  · rw [hr.header hp] at hq
    exact h.down j q hq

theorem drop (h : Tidy d) (i : IocId) (name : Name) : Tidy (d.drop i name) := by
  refine h.headers rfl rfl fun j q hq => ?_
  rw [header_drop] at hq
  split_ifs at hq
  exact h.down j q hq

theorem reloaded (h : Tidy d) (hwf : WF d) (hl : d.LoadedListed) {cn : Connection}
    (hp : d.pIocs i = some p) (hpath : p.pathToList ≠ []) (hr : Reloaded d i cn d') : Tidy d' := by
  cases hr with
  | first hp' => exact h.setPIoc fun hst => by cases hst
  | still hp' _ h2 => exact h.setPIoc fun hst => absurd hst h2
  | @again p' q d₁ d₂ r hp' hst hrem hadd hq =>
      rw [hp] at hp'
      cases hp'
      have hwf₀ := hwf.setPIoc (q := { p with addr := cn.addr p.addr }) hp rfl
        (List.Sublist.refl _)
      have h₀ : Tidy (d.setPIoc i { p with addr := cn.addr p.addr }) := h.setPIoc fun _ => hpath
      have hl₀ : LoadedListed (d.setPIoc i { p with addr := cn.addr p.addr }) :=
        hl.setPIoc hp rfl rfl
      have hwf₁ := hwf₀.removed (setPIoc_pIocs_self ..) hrem
      have h₂ := (h₀.removed (setPIoc_pIocs_self ..) hrem).addAllPvs hwf₁
        (hl₀.removed hwf₀ (setPIoc_pIocs_self ..) hpath hrem) hadd
      exact h₂.setPIoc fun hst => by cases hst

theorem learned (h : Tidy d) (hwf : WF d) (hl : d.LoadedListed) {cn : Connection}
    (hlrn : Learned d cn n i p d') : Tidy d' := by
  cases hlrn with
  | @mk d₂ q r hi hp hinst hq =>
      have h₀ : Tidy (d.findOrInstallIoc cn.iocname).1 := by
        unfold Dir.findOrInstallIoc
        split
        · exact h
        · exact h.installIocName cn.iocname []
      have h₁ : Tidy ((d.findOrInstallIoc cn.iocname).1.setPIoc i (p.met cn)) :=
        h₀.setPIoc fun hst => by
          rw [PIoc.met_pathToList]
          exact h₀.down i p.header (header_of_pIocs hp) (PIoc.met_status p cn ▸ hst)
      have hl₁ : LoadedListed ((d.findOrInstallIoc cn.iocname).1.setPIoc i (p.met cn)) :=
        (hl.findOrInstallIoc hwf _).setPIoc hp (by simp) (by simp)
      exact (h₁.installed hl₁ hinst).setPIoc fun hst => by cases hst

/-- A PV is forgotten, and deleted. -/
theorem forget (h : Tidy d) {e : PvEId} (hn : d.stringResTbl n = some e) :
    Tidy ((d.tblRemove n).deletePvE e) := by
  refine ⟨fun x pv hpv => ?_, h.down⟩
  rw [deletePvE_pvEs] at hpv
  split_ifs at hpv with hx
  have hin := h.tabled x pv hpv
  show (d.tblRemove n).stringResTbl pv.resourceName = some x
  rw [tblRemove_stringResTbl, if_neg, hin]
  intro hname
  rw [hname, hn] at hin
  exact hx (Option.some.inj hin).symm

end Tidy

end Dir

section Runs

variable {rx : Regex} {cfg : Config} {s s' : Server} {e : Event}

theorem Dir.Tidy.handled (h : s.dir.Tidy) (hs : Shown s) (hh : Handled rx s e s') : s'.dir.Tidy := by
  cases hh with
  | heartbeatUp hch _ hcb hpuser hd =>
      obtain ⟨p, hp⟩ := hd.pIocs
      exact h.reloaded hs.wf hs.listed hp (hs.tied.puser_path hch hcb hpuser hp).1 hd
  | heartbeatDown hch _ hcb hpuser hp =>
      exact h.setPIoc fun _ => (hs.tied.puser_path hch hcb hpuser hp).1
  | learnedUp _ _ _ _ hd => exact h.learned hs.wf hs.listed hd
  | learnedDown _ _ _ he => exact h.forget he
  | learnedDownFree => exact h
  | request ha => cases ha <;> exact h
  | purge _ hframe => exact hframe.dir ▸ h
  | report => exact h

theorem Dir.Tidy.entry {fs : FileSystem} {name path : Name} {d d' : Dir} (h : d.Tidy) (hwf : d.WF)
    (hlisted : d.AllListed) (hentry : d.Entry fs name path d') : d'.Tidy := by
  have hloaded : ∀ {d : Dir}, d.AllListed → d.LoadedListed := fun h n i p ho hp _ => h n i p ho hp
  have hwf₁ := hwf.installIocName name path
  have hlisted₁ := hlisted.installIocName hwf name path
  have h₁ := h.installIocName name path
  cases hentry with
  | skipped => exact h
  | loaded hfree hinst hadd _ =>
      exact (h₁.installed (hloaded hlisted₁) hinst).addAllPvs (hwf₁.installed hinst)
        (hloaded (hlisted₁.installed hwf₁ hinst)) hadd
  | rejected hfree hinst hadd hp hrem _ =>
      have h₂ := (h₁.installed (hloaded hlisted₁) hinst).addAllPvs (hwf₁.installed hinst)
        (hloaded (hlisted₁.installed hwf₁ hinst)) hadd
      exact (h₂.removed hp hrem).drop _ _

theorem startup_tidy (h : startup rx cfg = .ok s) : s.dir.Tidy := by
  have hall := (startup_dir_induct (D := fun d => d.AllListed ∧ d.Tidy) h
    ⟨fun _ _ _ ho => (by cases ho), .empty⟩
    fun path _ d d' hwf hd hentry => ⟨hd.1.entry hwf hentry, hd.2.entry hwf hd.1 hentry⟩).2
  exact hall.2

theorem reachable_tidy {start : Config → Prop}
    (h : Reachable (nameServer rx start) (fun s e => noNamesake s e = true) s) : s.dir.Tidy := by
  have hall : Shown s ∧ s.dir.Tidy := by
    refine h.invariant (I := fun s => Shown s ∧ s.dir.Tidy) ?_ ?_
    · rintro s ⟨cfg, -, hs, hvisits⟩
      exact ⟨startup_shown hs hvisits, startup_tidy hs⟩
    · rintro s e s' ⟨hs, ht⟩ hok ⟨hen, hs'⟩
      have hh := handle_handled hs.wf hen hs'
      exact ⟨hs.handled hh hok, ht.handled hs hh⟩
  exact hall.2

end Runs

/-! ## The shutdown -/

section Destroy

variable {rx : Regex} {start : Config → Prop} {s : Server} {iocs : List IocId} {pvEs : List PvEId}

/-- The IOC table has all IOCs. -/
theorem Dir.WF.visits_iff {d : Dir} (h : d.WF) (hv : Visits d iocs) (i : IocId) :
    i ∈ iocs ↔ d.pIocs i ≠ none := by
  rw [hv.2, Ne, ← Option.not_isSome_iff_eq_none, not_not, Option.isSome_iff_exists]
  constructor
  · rintro ⟨n, hn⟩
    obtain ⟨p, hp, -⟩ := (h.iocTable n i).mp hn
    exact ⟨p, hp⟩
  · rintro ⟨p, hp⟩
    exact ⟨p.iocname, (h.iocTable p.iocname i).mpr ⟨p, hp, rfl⟩⟩

theorem Dir.WF.live_of_visitsPvEs {d : Dir} (h : d.WF) (hv : VisitsPvEs d pvEs) {e : PvEId}
    (he : e ∈ pvEs) : d.pvEs e ≠ none := by
  obtain ⟨n, hn⟩ := (hv.2 e).mp he
  obtain ⟨pv, hpv, -⟩ := h.table n e hn
  rw [hpv]
  exact Option.some_ne_none pv

/-- **Nothing is deleted twice**, whatever has happened. -/
theorem destroy_defined (h : Reachable (nameServer rx start) (fun _ _ => True) s)
    (hiocs : Visits s.dir iocs) (hpvEs : VisitsPvEs s.dir pvEs) : Defined (s.destroy iocs pvEs) := by
  have hwf := reachable_wf h
  unfold Server.destroy
  rw [deleteAll_all _ hiocs.1 (hwf.visits_iff hiocs),
    deleteAll_eq_ok _ hpvEs.1 fun e he => hwf.live_of_visitsPvEs hpvEs he]
  exact Defined.ok _

/-- **Nothing is left.**  After any run in which no learned server goes by the name of a loaded
IOC, the destructor comes to its end, in whatever order the tables give their entries, and every
object of the server is deleted. -/
theorem destroy_clean (h : Reachable (nameServer rx start) (fun s e => noNamesake s e = true) s)
    (hiocs : Visits s.dir iocs) (hpvEs : VisitsPvEs s.dir pvEs) :
    ∃ t, s.destroy iocs pvEs = .ok t ∧ t.Cleared := by
  have hwf := reachable_wf h
  have htidy := reachable_tidy h
  have hall : ∀ e, e ∈ pvEs ↔ s.dir.pvEs e ≠ none := by
    refine fun e => ⟨hwf.live_of_visitsPvEs hpvEs, fun he => ?_⟩
    obtain ⟨pv, hpv⟩ := Option.ne_none_iff_exists'.mp he
    exact (hpvEs.2 e).mpr ⟨_, htidy.tabled e pv hpv⟩
  unfold Server.destroy
  rw [deleteAll_all _ hiocs.1 (hwf.visits_iff hiocs), deleteAll_all _ hpvEs.1 hall]
  exact ⟨_, rfl, fun _ => rfl, fun _ => rfl, rfl, fun _ => rfl, rfl, fun _ => rfl⟩

end Destroy

/-- `VisitsPvEs`, decided, for a table that has every entry. -/
def visitsPvEs (d : Dir) (order : List PvEId) : Bool :=
  decide order.Nodup && order.all (fun e => decide (e < d.nextPvE)) &&
    (List.range d.nextPvE).all fun e => order.contains e == (d.pvEs e).isSome

theorem Dir.WF.visitsPvEs_of_tidy {d : Dir} (h : d.WF) (ht : d.Tidy) {order : List PvEId}
    (hv : visitsPvEs d order = true) : VisitsPvEs d order := by
  simp only [visitsPvEs, Bool.and_eq_true, decide_eq_true_eq, List.all_eq_true, List.mem_range,
    beq_iff_eq] at hv
  obtain ⟨⟨hnd, hlt⟩, hall⟩ := hv
  refine ⟨hnd, fun e => ⟨fun he => ?_, ?_⟩⟩
  · have hsome : (d.pvEs e).isSome = true := by
      rw [← hall e (hlt e he)]
      simpa using he
    obtain ⟨pv, hpv⟩ := Option.isSome_iff_exists.mp hsome
    exact ⟨_, ht.tabled e pv hpv⟩
  · rintro ⟨n, hn⟩
    obtain ⟨pv, hpv, -⟩ := h.table n e hn
    have hmem := hall e (h.pvEs_lt e pv hpv)
    rw [hpv] at hmem
    simpa using hmem

end CaNameserver
