import CaNameserver.DirectoryView
import CaNameserver.System

/-!
# What the handlers do

The handlers of `Server` are written as the source has them, in steps that look things up and
fail.  This module gives one description for each, with the new state written out, and proves once
that a defined run of the handler is one of the cases of its description.  Every invariant of the
server is then proved by cases, and no handler is unfolded again.

## The directory

* `Reloaded d i cn d'`: the heartbeat of the IOC at `i` has connected.  The address is set, and
  the status becomes 1; if the IOC was down its PVs are removed and its list is read before that.
  Its header, the owners and the names in the table afterwards are read off (`Reloaded.header`,
  `Reloaded.owner_cases`, `Reloaded.mem_of_kept`).
* `Learned d cn n i p d'`: a PV has been found at a server.  The IOC of the server's `host:port`
  string is `i`, which was there or is new (`WF.findOrInstallIoc_cases`, `Learned.site_cases`).
  It gets the address unless it is up (`PIoc.met`), the PV is entered, and the entry is taken off
  the IOC's list again.

## Channels and the pending list

The channels form a store of their own, with one equation for each operation.  `Answered` lists
the ways in which `pvExistTest` ends.  Each says what was found in the table, and what became of
the counters, the pending list and the channels; the state is the old one but for these.

The purge is a loop.  `PurgeStep` is what one of its turns can do to the list and the channels: it
changes nothing, a node goes, with its channel or without, or a heartbeat's channel is given up,
for a new one unless the search for it fails.  Whatever each of these keeps, the pass keeps
(`processPendingList_induct`), and outside of the list, the channels and the `never` table the
pass leaves the server alone (`SameButPending`).

## Events

`Handled` puts the descriptions together, one constructor for each event and outcome, and
`handle_handled` is the link to the handlers: an event that may come and has a defined outcome is
`Handled`.  It needs that the storage is well formed (`WF`), because the descriptions identify
entries by their names.
-/

namespace CaNameserver

open CStr Fallible

/-! ## Connections -/

/-- The `host:port` string that `ca_get_host_name` writes to a buffer of `HOST_NAME_SZ`. -/
def Connection.iocname (cn : Connection) : Name := cn.host.take (hostNameSz - 1)

/-- The address that `set_addr` makes of a connection. -/
def Connection.addr (cn : Connection) (old : SockAddr) : SockAddr :=
  Dir.resolveAddr cn.aToIPAddr cn.iocname old

/-- An IOC, apart from its list, after its heartbeat has connected. -/
def PIoc.reconnected (p : PIoc) (cn : Connection) : PIoc :=
  { p with
    addr := cn.addr p.addr
    status := if p.status = 0 ∨ p.status = 2 then 1 else p.status }

/-- An IOC when a learned PV has connected to it: one that is not up gets the address. -/
def PIoc.met (p : PIoc) (cn : Connection) : PIoc :=
  if p.status = 2 ∨ p.status = 0 then { p with addr := cn.addr p.addr } else p

@[simp] theorem PIoc.met_iocname (p : PIoc) (cn : Connection) : (p.met cn).iocname = p.iocname := by
  unfold PIoc.met
  split_ifs <;> rfl

@[simp] theorem PIoc.met_pathToList (p : PIoc) (cn : Connection) :
    (p.met cn).pathToList = p.pathToList := by
  unfold PIoc.met
  split_ifs <;> rfl

@[simp] theorem PIoc.met_pvEList (p : PIoc) (cn : Connection) : (p.met cn).pvEList = p.pvEList := by
  unfold PIoc.met
  split_ifs <;> rfl

@[simp] theorem PIoc.met_status (p : PIoc) (cn : Connection) : (p.met cn).status = p.status := by
  unfold PIoc.met
  split_ifs <;> rfl

namespace Dir

@[simp] theorem setPIoc_setPIoc (d : Dir) (i : IocId) (p q : PIoc) :
    (d.setPIoc i p).setPIoc i q = d.setPIoc i q := by
  simp [setPIoc]

theorem setPIoc_self {d : Dir} {i : IocId} {p : PIoc} (hp : d.pIocs i = some p) :
    d.setPIoc i p = d := by
  unfold setPIoc
  rw [← hp, Function.update_eq_self]

/-! ## A heartbeat's connection -/

/-- The effect of a heartbeat's connection on the directory. -/
inductive Reloaded (d : Dir) (i : IocId) (cn : Connection) : Dir → Prop
  | first {p : PIoc} (hp : d.pIocs i = some p) (hst : p.status = 0) :
      Reloaded d i cn (d.setPIoc i { p with addr := cn.addr p.addr, status := 1 })
  | again {p q : PIoc} {d₁ d₂ : Dir} {r : ℤ} (hp : d.pIocs i = some p) (hst : p.status = 2)
      (hrem : Removed (d.setPIoc i { p with addr := cn.addr p.addr }) i
        { p with addr := cn.addr p.addr } d₁)
      (hadd : d₁.addAllPvs cn.fs i = .ok (d₂, r)) (hq : d₂.pIocs i = some q) :
      Reloaded d i cn (d₂.setPIoc i { q with status := 1 })
  | still {p : PIoc} (hp : d.pIocs i = some p) (h0 : p.status ≠ 0) (h2 : p.status ≠ 2) :
      Reloaded d i cn (d.setPIoc i { p with addr := cn.addr p.addr })

theorem wdReload_reloaded {d d' : Dir} {i : IocId} {cn : Connection} (hwf : WF d)
    (h : Server.wdReload d i cn = .ok d') : Reloaded d i cn d' := by
  simp only [Server.wdReload, bind_eq_ok_iff, setAddr_eq_ok_iff, getPIoc_eq_ok_iff] at h
  obtain ⟨_, ⟨p, hp, rfl⟩, p', hp', h⟩ := h
  rw [setPIoc_pIocs_self] at hp'
  cases hp'
  split_ifs at h with h0 h2
  · obtain ⟨q, hq, rfl⟩ := setStatus_eq_ok_iff.mp h
    rw [setPIoc_pIocs_self] at hq
    cases hq
    rw [setPIoc_setPIoc]
    exact .first hp h0
  · simp only [bind_eq_ok_iff, setStatus_eq_ok_iff] at h
    obtain ⟨d₁, hrem, ⟨d₂, r⟩, hadd, q, hq, rfl⟩ := h
    have hwf' := hwf.setPIoc (q := { p with addr := cn.addr p.addr }) hp rfl (List.Sublist.refl _)
    obtain ⟨p', hp', hrem'⟩ := removeAllPvs_removed hwf' hrem
    rw [setPIoc_pIocs_self] at hp'
    cases hp'
    exact .again hp h2 hrem' hadd hq
  · cases h
    exact .still hp h0 h2

theorem Reloaded.pIocs {d d' : Dir} {i : IocId} {cn : Connection} (h : Reloaded d i cn d') :
    ∃ p, d.pIocs i = some p := by
  cases h with
  | first hp => exact ⟨_, hp⟩
  | again hp => exact ⟨_, hp⟩
  | still hp => exact ⟨_, hp⟩

/-- A heartbeat's connection changes one header. -/
theorem Reloaded.header {d d' : Dir} {i : IocId} {cn : Connection} {p : PIoc}
    (h : Reloaded d i cn d') (hp : d.pIocs i = some p) (j : IocId) :
    d'.header j = if j = i then some (p.reconnected cn).header else d.header j := by
  cases h with
  | first hp' hst =>
      rw [hp] at hp'
      cases hp'
      rw [header_setPIoc, PIoc.reconnected, if_pos (Or.inl hst)]
  | @again p' q d₁ d₂ r hp' hst hrem hadd hq =>
      rw [hp] at hp'
      cases hp'
      have hhead := (addAllPvs_header hadd).trans (hrem.header (setPIoc_pIocs_self ..))
      have hself : q.header = { p with addr := cn.addr p.addr }.header := by
        refine header_of_header hq ?_
        rw [hhead, header_setPIoc, if_pos rfl]
      rw [header_setPIoc, hhead, header_setPIoc]
      split_ifs with hj
      · rw [PIoc.reconnected, if_pos (Or.inr hst)]
        exact congrArg (fun h : PIoc => some { h with status := 1 }) hself
      · rfl
  | still hp' h0 h2 =>
      rw [hp] at hp'
      cases hp'
      have hst : ¬(p.status = 0 ∨ p.status = 2) := fun h => h.elim h0 h2
      rw [header_setPIoc, PIoc.reconnected, if_neg hst]

theorem Reloaded.site {d d' : Dir} {i : IocId} {cn : Connection} (h : Reloaded d i cn d') :
    d'.site = d.site := by
  obtain ⟨p, hp⟩ := h.pIocs
  funext j
  rw [site_eq_header, h.header hp]
  split_ifs with hj
  · rw [hj, site_of_pIocs hp]
    rfl
  · rw [site_eq_header]

theorem WF.reloaded {d d' : Dir} {i : IocId} {cn : Connection} (hwf : WF d)
    (h : Reloaded d i cn d') : WF d' := by
  cases h with
  | first hp hst => exact hwf.setPIoc hp rfl (List.Sublist.refl _)
  | @again p q d₁ d₂ r hp hst hrem hadd hq =>
      have hwf₁ := hwf.setPIoc (q := { p with addr := cn.addr p.addr }) hp rfl
        (List.Sublist.refl _)
      have hwf₂ := (hwf₁.removed (setPIoc_pIocs_self ..) hrem).addAllPvs hadd
      exact hwf₂.setPIoc hq rfl (List.Sublist.refl _)
  | still hp h0 h2 => exact hwf.setPIoc hp rfl (List.Sublist.refl _)

/-- The connection of an IOC that is down is a reload in three parts. -/
theorem Reloaded.of_down {d d' : Dir} {i : IocId} {cn : Connection} {p : PIoc}
    (h : Reloaded d i cn d') (hwf : WF d) (hp : d.pIocs i = some p) (hst : p.status = 2) :
    ∃ d₁ d₂ q r, WF (d.setPIoc i { p with addr := cn.addr p.addr }) ∧
      Removed (d.setPIoc i { p with addr := cn.addr p.addr }) i
        { p with addr := cn.addr p.addr } d₁ ∧ WF d₁ ∧
      d₁.addAllPvs cn.fs i = .ok (d₂, r) ∧ d₂.pIocs i = some q ∧
      d' = d₂.setPIoc i { q with status := 1 } := by
  cases h with
  | first hp' hst' =>
      rw [hp] at hp'
      cases hp'
      omega
  | still hp' _ hst' =>
      rw [hp] at hp'
      cases hp'
      exact absurd hst hst'
  | @again p' q d₁ d₂ r hp' _ hrem hadd hq =>
      rw [hp] at hp'
      cases hp'
      have hwf₁ := hwf.setPIoc (q := { p with addr := cn.addr p.addr }) hp rfl
        (List.Sublist.refl _)
      exact ⟨d₁, d₂, q, r, hwf₁, hrem, hwf₁.removed (setPIoc_pIocs_self ..) hrem, hadd, hq, rfl⟩

/-- The connection of another IOC leaves the lists as they are. -/
theorem Reloaded.of_not_down {d d' : Dir} {i : IocId} {cn : Connection} {p : PIoc}
    (h : Reloaded d i cn d') (hp : d.pIocs i = some p) (hst : p.status ≠ 2) :
    ∃ q, q.iocname = p.iocname ∧ q.pvEList = p.pvEList ∧ d' = d.setPIoc i q := by
  cases h with
  | first hp' =>
      rw [hp] at hp'
      cases hp'
      exact ⟨{ p with addr := cn.addr p.addr, status := 1 }, rfl, rfl, rfl⟩
  | still hp' =>
      rw [hp] at hp'
      cases hp'
      exact ⟨{ p with addr := cn.addr p.addr }, rfl, rfl, rfl⟩
  | again hp' hst' =>
      rw [hp] at hp'
      cases hp'
      exact absurd hst' hst

/-- A name that is in the table and off the list of a reloaded IOC, or on its new list, is in the
table after the reload. -/
theorem Reloaded.mem_of_kept {d d' : Dir} {i : IocId} {p : PIoc} {cn : Connection} {n : Name}
    (h : d.Reloaded i cn d') (hp : d.pIocs i = some p) (hpath : p.pathToList ≠ [])
    (hn : d.stringResTbl n ≠ none)
    (hkept : p.status = 2 → ∀ e, d.stringResTbl n = some e → e ∈ p.pvEList →
      n ≠ p.heartbeatName → n ∈ signals cn.fs p.pathToList) (hwf : d.WF) :
    d'.stringResTbl n ≠ none := by
  cases h with
  | first => exact hn
  | still => exact hn
  | @again p' q d₁ d₂ r hp' hst hrem hadd hq =>
      rw [hp] at hp'
      cases hp'
      obtain ⟨e, he⟩ := Option.ne_none_iff_exists'.mp hn
      rw [setPIoc_stringResTbl]
      by_cases hgone : e ∈ p.pvEList ∧ n ≠ p.heartbeatName
      · exact addAllPvs_mem hadd hrem.pIocs_self (hkept hst e he hgone.1 hgone.2)
      · refine addAllPvs_mono hadd ?_
        rw [hrem.stringResTbl, setPIoc_stringResTbl, he, Option.filter_some]
        obtain ⟨pv, hpv, hname⟩ := hwf.table n e he
        by_cases hmem : e ∈ p.pvEList
        · have hhb : n = p.heartbeatName := by
            by_contra hne
            exact hgone ⟨hmem, hne⟩
          have hkeep : (d.setPIoc i { p with addr := cn.addr p.addr }).keeps
              { p with addr := cn.addr p.addr } e = true :=
            keeps_eq_true_iff.mpr ⟨pv, hpv, hpath, hname.trans hhb⟩
          simp [gone, hkeep]
        · simp [gone, hmem]

/-- A reload enters PVs under its IOC, and takes PVs out. -/
theorem Reloaded.owner_cases {d d' : Dir} {i j : IocId} {cn : Connection} {n : Name}
    (h : Reloaded d i cn d') (hwf : WF d) (ho : d'.owner n = some j) :
    j = i ∨ d.owner n = some j := by
  cases h with
  | first => exact Or.inr ho
  | still => exact Or.inr ho
  | @again p q d₁ d₂ r hp hst hrem hadd hq =>
      rw [owner_setPIoc] at ho
      have hwf₁ := (hwf.setPIoc (q := { p with addr := cn.addr p.addr }) hp rfl
        (List.Sublist.refl _)).removed (setPIoc_pIocs_self ..) hrem
      rcases addAllPvs_owner hwf₁ hadd n with hn | hn
      · rw [hn] at ho
        exact Or.inl (Option.some.inj ho).symm
      · rw [hn] at ho
        rcases hrem.owner_mono (n := n) with hsame | hgone
        · rw [hsame, owner_setPIoc] at ho
          exact Or.inr ho
        · rw [hgone] at ho
          cases ho

/-! ## A learned PV's connection -/

/-- The IOC a learned PV's connection is entered under: one that is there, or a new one. -/
theorem WF.findOrInstallIoc_cases {d : Dir} (h : WF d) (name : Name) :
    (∃ i p, d.findOrInstallIoc name = (d, i) ∧ d.iocResTbl name = some i ∧
      d.pIocs i = some p ∧ p.iocname = name) ∨
    (d.iocResTbl name = none ∧ d.pIocs d.nextPIoc = none ∧
      d.findOrInstallIoc name = ((d.installIocName name []).1, d.nextPIoc) ∧
      ∀ j, (d.installIocName name []).1.pIocs j =
        if j = d.nextPIoc then some ⟨name, [], 0, SockAddr.zero, []⟩ else d.pIocs j) := by
  unfold findOrInstallIoc
  cases hn : d.iocResTbl name with
  | some i =>
      obtain ⟨p, hp, hname⟩ := (h.iocTable name i).mp hn
      exact Or.inl ⟨i, p, rfl, rfl, hp, hname⟩
  | none =>
      refine Or.inr ⟨rfl, ?_, rfl, fun j => ?_⟩
      · cases hp : d.pIocs d.nextPIoc with
        | none => rfl
        | some p => exact absurd (h.pIocs_lt _ p hp) (lt_irrefl _)
      · rw [Dir.installIocName, hn]
        exact Function.update_apply ..

theorem WF.findOrInstallIoc {d : Dir} (h : WF d) (name : Name) :
    WF (d.findOrInstallIoc name).1 := by
  unfold Dir.findOrInstallIoc
  split
  · exact h
  · exact h.installIocName name []

/-- The effect of a learned PV's connection on the directory.  `i` is the IOC it is entered under,
`p` that IOC as it was found, or as it was created. -/
inductive Learned (d : Dir) (cn : Connection) (n : Name) (i : IocId) (p : PIoc) : Dir → Prop
  | mk {d₂ : Dir} {q : PIoc} {r : ℤ} (hi : (d.findOrInstallIoc cn.iocname).2 = i)
      (hp : (d.findOrInstallIoc cn.iocname).1.pIocs i = some p)
      (hinst : Installed ((d.findOrInstallIoc cn.iocname).1.setPIoc i (p.met cn)) n i d₂ r)
      (hq : d₂.pIocs i = some q) :
      Learned d cn n i p (d₂.setPIoc i { q with pvEList := q.pvEList.tail, status := 1 })

theorem WF.learned {d d' : Dir} {cn : Connection} {n : Name} {i : IocId} {p : PIoc} (hwf : WF d)
    (h : Learned d cn n i p d') : WF d' := by
  cases h with
  | mk hi hp hinst hq =>
      have hwf₁ := (hwf.findOrInstallIoc cn.iocname).setPIoc (q := p.met cn) hp (by simp) (by simp)
      exact (hwf₁.installed hinst).setPIoc hq rfl (List.tail_sublist _)

/-- A learned PV's connection changes one header, or adds one. -/
theorem Learned.header {d d' : Dir} {cn : Connection} {n : Name} {i : IocId} {p : PIoc}
    (h : Learned d cn n i p d') (hwf : WF d) (j : IocId) : d'.header j =
      if j = i then some { (p.met cn).header with status := 1 } else d.header j := by
  cases h with
  | @mk d₂ q r hi hp hinst hq =>
      have hhead := hinst.header
      have hself : q.header = (p.met cn).header := by
        refine header_of_header hq ?_
        rw [hhead, header_setPIoc, if_pos rfl]
      rw [header_setPIoc, hhead, header_setPIoc]
      split_ifs with hj
      · exact congrArg (fun h : PIoc => some { h with status := 1 }) hself
      · rcases hwf.findOrInstallIoc_cases cn.iocname with ⟨_, _, hf, -⟩ | ⟨-, -, hf, hnew⟩
        · rw [hf]
        · rw [hf] at hi ⊢
          rw [Dir.header, Dir.header, hnew, if_neg]
          rintro rfl
          exact hj hi

/-- The IOC of a learned connection was there before, or has no path. -/
theorem Learned.site_cases {d d' : Dir} {cn : Connection} {n : Name} {i : IocId} {p : PIoc}
    (h : Learned d cn n i p d') (hwf : WF d) :
    (d.iocResTbl cn.iocname = some i ∧ d.pIocs i = some p ∧ p.iocname = cn.iocname) ∨
    (d.iocResTbl cn.iocname = none ∧ d.pIocs i = none ∧ i = d.nextPIoc ∧
      p = ⟨cn.iocname, [], 0, SockAddr.zero, []⟩) := by
  cases h with
  | mk hi hp hinst hq =>
      rcases hwf.findOrInstallIoc_cases cn.iocname with ⟨j, r, hf, htab, hr, hname⟩ |
        ⟨hfree, hnone, hf, hnew⟩
      · rw [hf] at hi hp
        cases hi
        exact Or.inl ⟨htab, hp, by rw [hr] at hp; cases hp; exact hname⟩
      · rw [hf] at hi hp
        cases hi
        rw [hnew, if_pos rfl] at hp
        cases hp
        exact Or.inr ⟨hfree, hnone, rfl, rfl⟩

/-- The IOCs that are there keep their names and paths. -/
theorem Learned.site {d d' : Dir} {cn : Connection} {n : Name} {i : IocId} {p : PIoc}
    (h : Learned d cn n i p d') (hwf : WF d) {j : IocId} {x : Name × Name}
    (hx : d.site j = some x) : d'.site j = some x := by
  rw [site_eq_header, h.header hwf]
  split_ifs with hj
  · rcases h.site_cases hwf with ⟨-, hp, -⟩ | ⟨-, hnone, -⟩
    · rw [hj, site_of_pIocs hp] at hx
      rw [← hx]
      simp [PIoc.header]
    · rw [hj, Dir.site, hnone] at hx
      cases hx
  · rw [← site_eq_header]
    exact hx

/-- No IOC with a path is added. -/
theorem Learned.site_loaded {d d' : Dir} {cn : Connection} {n : Name} {i : IocId} {p : PIoc}
    (h : Learned d cn n i p d') (hwf : WF d) {j : IocId} {name path : Name}
    (hx : d'.site j = some (name, path)) (hpath : path ≠ []) : d.site j = some (name, path) := by
  rw [site_eq_header, h.header hwf] at hx
  split_ifs at hx with hj
  · rcases h.site_cases hwf with ⟨-, hp, -⟩ | ⟨-, -, -, hp⟩
    · rw [hj, site_of_pIocs hp, ← hx]
      simp [PIoc.header]
    · rw [hp] at hx
      simp only [PIoc.header, PIoc.met, Option.map_some, Option.some.injEq, Prod.mk.injEq] at hx
      exact absurd hx.2.symm (by simpa using hpath)
  · rw [site_eq_header]
    exact hx

/-- The IOC of a learned connection, as it is found or created. -/
theorem Learned.found {d d' : Dir} {cn : Connection} {n : Name} {i : IocId} {p : PIoc}
    (h : Learned d cn n i p d') : (d.findOrInstallIoc cn.iocname).2 = i ∧
      (d.findOrInstallIoc cn.iocname).1.pIocs i = some p := by
  cases h with
  | mk hi hp => exact ⟨hi, hp⟩

/-- A learned PV's connection does not change the owners of other PVs. -/
theorem Learned.owner_of_ne {d d' : Dir} {cn : Connection} {n m : Name} {i : IocId} {p : PIoc}
    (h : Learned d cn n i p d') (hwf : WF d) (hm : m ≠ n) : d'.owner m = d.owner m := by
  cases h with
  | mk hi hp hinst hq =>
      have hwf₁ := (hwf.findOrInstallIoc cn.iocname).setPIoc (q := p.met cn) hp (by simp) (by simp)
      rw [owner_setPIoc, hinst.owner_of_ne hwf₁ hm, owner_setPIoc]
      unfold findOrInstallIoc
      split
      · rfl
      · rw [owner_installIocName]

/-- The PV itself is entered under the IOC, or stays where it is. -/
theorem Learned.owner_self {d d' : Dir} {cn : Connection} {n : Name} {i : IocId} {p : PIoc}
    (h : Learned d cn n i p d') (hwf : WF d) : d'.owner n = some i ∨ d'.owner n = d.owner n := by
  cases h with
  | mk hi hp hinst hq =>
      have hwf₁ := (hwf.findOrInstallIoc cn.iocname).setPIoc (q := p.met cn) hp (by simp) (by simp)
      rw [owner_setPIoc]
      rcases hinst.owner_self hwf₁ with ho | rfl
      · exact Or.inl ho
      · refine Or.inr ?_
        rw [owner_setPIoc]
        unfold findOrInstallIoc
        split
        · rfl
        · rw [owner_installIocName]

/-- Afterwards the name is in the table. -/
theorem Learned.mem {d d' : Dir} {cn : Connection} {n : Name} {i : IocId} {p : PIoc}
    (h : Learned d cn n i p d') : d'.stringResTbl n ≠ none := by
  cases h with
  | mk hi hp hinst hq => exact hinst.mem

theorem findOrInstallIoc_stringResTbl (d : Dir) (name : Name) :
    (d.findOrInstallIoc name).1.stringResTbl = d.stringResTbl := by
  unfold findOrInstallIoc installIocName
  split
  · rfl
  · split <;> rfl

theorem Learned.mono {d d' : Dir} {cn : Connection} {n m : Name} {i : IocId} {p : PIoc}
    (h : Learned d cn n i p d') (hm : d.stringResTbl m ≠ none) : d'.stringResTbl m ≠ none := by
  cases h with
  | mk hi hp hinst hq =>
      refine hinst.mono ?_
      rw [setPIoc_stringResTbl, findOrInstallIoc_stringResTbl]
      exact hm

end Dir

/-! ## Channels -/

namespace Ca

/-- A channel is given up for a new one. -/
def renew (ca : Ca) (c : Chid) (ch : Channel) : Ca :=
  ⟨Function.update (Function.update ca.chans c none) ca.nextChid (some ch), ca.nextChid + 1⟩

section Chans

variable (ca : Ca) (c x : Chid) (ch : Channel) (n : Name) (cb : Callback)

theorem setChan_chans : (ca.setChan c ch).chans x = if x = c then some ch else ca.chans x := by
  simp [setChan, Function.update_apply]

theorem clear_chans : (ca.clear c).chans x = if x = c then none else ca.chans x := by
  simp [clear, Function.update_apply]

theorem search_chans : (ca.search n cb).chans x =
    if x = ca.nextChid then some ⟨n, cb, none, none⟩ else ca.chans x := by
  simp [search, Function.update_apply]

theorem renew_chans : (ca.renew c ch).chans x =
    if x = ca.nextChid then some ch else if x = c then none else ca.chans x := by
  simp [renew, Function.update_apply]

@[simp] theorem setChan_nextChid : (ca.setChan c ch).nextChid = ca.nextChid := rfl
@[simp] theorem clear_nextChid : (ca.clear c).nextChid = ca.nextChid := rfl
@[simp] theorem search_nextChid : (ca.search n cb).nextChid = ca.nextChid + 1 := rfl
@[simp] theorem renew_nextChid : (ca.renew c ch).nextChid = ca.nextChid + 1 := rfl

theorem setChan_setChan (ch' : Channel) : (ca.setChan c ch).setChan c ch' = ca.setChan c ch' := by
  simp [setChan]

theorem setChan_clear : (ca.setChan c ch).clear c = ca.clear c := by
  simp [setChan, clear]

theorem clear_search_setChan :
    ((ca.clear c).search n cb).setChan ca.nextChid ch = ca.renew c ch := by
  simp [setChan, clear, search, renew]

theorem search_setChan :
    (ca.search n cb).setChan ca.nextChid ch =
      ⟨Function.update ca.chans ca.nextChid (some ch), ca.nextChid + 1⟩ := by
  simp [setChan, search]

end Chans

theorem getChan_eq_ok_iff {ca : Ca} {c : Chid} {ch : Channel} :
    ca.getChan c = .ok ch ↔ ca.chans c = some ch := deref_eq_ok_iff

/-- Channels are numbered below the next one. -/
def Fresh (ca : Ca) : Prop := ∀ c ch, ca.chans c = some ch → c < ca.nextChid

end Ca

/-! ## Requests -/

namespace Server

/-- The exits of `pvExistTest`. -/
inductive Answered (rx : Regex) (s : Server) (client pPVName : Name) (search : CaStatus)
    (now : ℕ) : Server → PvExistReturn → Prop
  | noName (hn : recordName pPVName = []) :
      Answered rx s client pPVName search now
        { s with stats.request := s.stats.request + 1 } .doesNotExistHere
  | iocError {e : PvEId} {pv : PvE} (hn : recordName pPVName ≠ [])
      (he : s.dir.stringResTbl (recordName pPVName) = some e) (hpv : s.dir.pvEs e = some pv)
      (ho : pv.pI = none) :
      Answered rx s client pPVName search now
        { s with
          stats.request := s.stats.request + 1
          stats.iocError := s.stats.iocError + 1 } .doesNotExistHere
  | hit {i : IocId} {p : PIoc} (hn : recordName pPVName ≠ [])
      (he : s.dir.stringResTbl (recordName pPVName) ≠ none)
      (ho : s.dir.owner (recordName pPVName) = some i) (hp : s.dir.pIocs i = some p)
      (hst : p.status = 1) :
      Answered rx s client pPVName search now
        { s with
          stats.request := s.stats.request + 1
          stats.hit := s.stats.hit + 1 } (.existsAt p.addr)
  | iocDown {i : IocId} {p : PIoc} (hn : recordName pPVName ≠ [])
      (he : s.dir.stringResTbl (recordName pPVName) ≠ none)
      (ho : s.dir.owner (recordName pPVName) = some i) (hp : s.dir.pIocs i = some p)
      (hst : p.status ≠ 1) :
      Answered rx s client pPVName search now
        { s with
          stats.request := s.stats.request + 1
          stats.iocDown := s.stats.iocDown + 1 } .doesNotExistHere
  | nameserverPV (hn : recordName pPVName ≠ [])
      (he : s.dir.stringResTbl (recordName pPVName) = none) (hns : pPVName ∈ s.nsResTbl) :
      Answered rx s client pPVName search now
        { s with
          stats.request := s.stats.request + 1
          stats.hit := s.stats.hit + 1 } .existsHere
  | pending (hn : recordName pPVName ≠ [])
      (he : s.dir.stringResTbl (recordName pPVName) = none) (hns : pPVName ∉ s.nsResTbl)
      (hpend : ∃ nn ∈ s.nameList, nn.name = recordName pPVName) :
      Answered rx s client pPVName search now
        { s with
          stats.request := s.stats.request + 1
          stats.pending := s.stats.pending + 1 } .doesNotExistHere
  | denied (hn : recordName pPVName ≠ [])
      (he : s.dir.stringResTbl (recordName pPVName) = none) (hns : pPVName ∉ s.nsResTbl)
      (hpend : ∀ nn ∈ s.nameList, nn.name ≠ recordName pPVName)
      (hden : s.searchDenied rx client (recordName pPVName) = true) :
      Answered rx s client pPVName search now
        { s with
          stats.request := s.stats.request + 1
          stats.broadcastDenied := s.stats.broadcastDenied + 1 } .doesNotExistHere
  | searchFailed (hn : recordName pPVName ≠ [])
      (he : s.dir.stringResTbl (recordName pPVName) = none) (hns : pPVName ∉ s.nsResTbl)
      (hpend : ∀ nn ∈ s.nameList, nn.name ≠ recordName pPVName)
      (hden : s.searchDenied rx client (recordName pPVName) = false) (hs : search = .failed) :
      Answered rx s client pPVName search now
        { s with stats.request := s.stats.request + 1 } .doesNotExistHere
  | searched (hn : recordName pPVName ≠ [])
      (he : s.dir.stringResTbl (recordName pPVName) = none) (hns : pPVName ∉ s.nsResTbl)
      (hpend : ∀ nn ∈ s.nameList, nn.name ≠ recordName pPVName)
      (hden : s.searchDenied rx client (recordName pPVName) = false) (hs : search = .normal) :
      Answered rx s client pPVName search now
        { s with
          ca := s.ca.search (recordName pPVName) .processChangeConnectionEvent
          nameList := ⟨recordName pPVName, now, s.ca.nextChid, false⟩ :: s.nameList
          stats.request := s.stats.request + 1
          stats.broadcast := s.stats.broadcast + 1 } .doesNotExistHere

theorem pvExistTest_answered {rx : Regex} {s s' : Server} {client pPVName : Name}
    {search : CaStatus} {now : ℕ} {ret : PvExistReturn}
    (h : s.pvExistTest rx client pPVName search now = .ok (s', ret)) :
    Answered rx s client pPVName search now s' ret := by
  simp only [pvExistTest, bind_eq_ok_iff, strncpy_eq_ok_iff] at h
  obtain ⟨buf, ⟨-, hbuf⟩, h⟩ := h
  rw [hbuf] at h
  by_cases hn : recordName pPVName = []
  · rw [if_pos hn] at h
    cases h
    exact .noName hn
  · rw [if_neg hn] at h
    cases he : s.dir.stringResTbl (recordName pPVName) with
    | some e =>
        simp only [he, bind_eq_ok_iff, Dir.getPvE_eq_ok_iff] at h
        obtain ⟨pv, hpv, h⟩ := h
        cases ho : pv.pI with
        | none =>
            simp only [ho] at h
            cases h
            exact .iocError hn he hpv ho
        | some i =>
            simp only [ho, bind_eq_ok_iff, Dir.getPIoc_eq_ok_iff] at h
            obtain ⟨p, hp, h⟩ := h
            have hmem : s.dir.stringResTbl (recordName pPVName) ≠ none := by simp [he]
            have howner : s.dir.owner (recordName pPVName) = some i := by
              rw [Dir.owner_of_entry he hpv, ho]
            split_ifs at h with hst
            · cases h
              exact .hit hn hmem howner hp hst
            · cases h
              exact .iocDown hn hmem howner hp hst
    | none =>
        simp only [he] at h
        split_ifs at h with hns hpend hden
        · cases h
          exact .nameserverPV hn he hns
        · cases h
          exact .pending hn he hns (by simpa using hpend)
        · cases h
          exact .denied hn he hns (by simpa using hpend) hden
        · have hden' : s.searchDenied rx client (recordName pPVName) = false :=
            Bool.eq_false_iff.mpr hden
          cases search with
          | failed =>
              cases h
              exact .searchFailed hn he hns (by simpa using hpend) hden' rfl
          | normal =>
              cases h
              exact .searched hn he hns (by simpa using hpend) hden' rfl

/-! ## The purge -/

/-- What one turn of the purge loop can do to the pending list and to the channels. -/
inductive PurgeStep (a : CaAnswers) (ca : Ca) : List Namenode → List Namenode → Ca → Prop
  | same (l : List Namenode) : PurgeStep a ca l l ca
  /-- the new search of a heartbeat failed, after its channel had been cleared -/
  | lost {pre post : List Namenode} {pNN : Namenode} {ch : Channel}
      (hch : ca.chans pNN.chd = some ch) (hreb : pNN.rebroadcast = true)
      (hs : a.search = .failed) :
      PurgeStep a ca (pre ++ pNN :: post) (pre ++ pNN :: post) (ca.clear pNN.chd)
  | renewed {pre post : List Namenode} {pNN : Namenode} {ch : Channel}
      (hch : ca.chans pNN.chd = some ch) (hreb : pNN.rebroadcast = true) :
      PurgeStep a ca (pre ++ pNN :: post)
        (pre ++ { pNN with chd := ca.nextChid, otime := a.time } :: post)
        (ca.renew pNN.chd ⟨pNN.name, .WDprocessChangeConnectionEvent, ch.puser, none⟩)
  | expired {pre post : List Namenode} {pNN : Namenode} {ch : Channel}
      (hch : ca.chans pNN.chd = some ch) (hreb : pNN.rebroadcast = false) :
      PurgeStep a ca (pre ++ pNN :: post) (pre ++ post) (ca.clear pNN.chd)
  /-- the node goes, its channel stays open -/
  | forgotten {pre post : List Namenode} {pNN : Namenode} {ch : Channel}
      (hch : ca.chans pNN.chd = some ch) (hreb : pNN.rebroadcast = false)
      (hfail : a.caState = 3 ∨ a.clear = .failed) :
      PurgeStep a ca (pre ++ pNN :: post) (pre ++ post) ca

/-- All nodes of the list during the pass. -/
def Purge.nodes (pg : Purge) : List Namenode := pg.kept.reverse ++ pg.rest

theorem purgeTurn_step {now tooLong : ℕ} {a : CaAnswers} {pg pg' : Purge} {pNN : Namenode}
    {rest : List Namenode} (hrest : pg.rest = pNN :: rest)
    (h : purgeTurn now tooLong a pg pNN rest = .ok pg') :
    PurgeStep a pg.ca pg.nodes pg'.nodes pg'.ca := by
  have hnodes : pg.nodes = pg.kept.reverse ++ pNN :: rest := by rw [Purge.nodes, hrest]
  rw [purgeTurn] at h
  split_ifs at h with hold hreb
  · simp only [rebroadcast, bind_eq_ok_iff, Ca.getChan_eq_ok_iff] at h
    obtain ⟨ch, hch, h⟩ := h
    split_ifs at h with hstate
    · cases h
      exact .same _
    · cases hclear : a.clear with
      | failed =>
          simp only [hclear] at h
          cases h
          exact .same _
      | normal =>
          cases hs : a.search with
          | failed =>
              simp only [hclear, hs] at h
              cases h
              show PurgeStep a pg.ca pg.nodes pg.nodes _
              rw [hnodes]
              exact .lost hch hreb hs
          | normal =>
              simp only [hclear, hs, Ca.clear_nextChid, Ca.clear_search_setChan] at h
              cases h
              rw [hnodes]
              exact .renewed hch hreb
  · simp only [expire, bind_eq_ok_iff, Ca.getChan_eq_ok_iff] at h
    obtain ⟨ch, hch, h⟩ := h
    have hreb' : pNN.rebroadcast = false := Bool.eq_false_iff.mpr hreb
    cases h
    show PurgeStep a pg.ca pg.nodes (pg.kept.reverse ++ rest) _
    rw [hnodes]
    split_ifs with hstate
    · exact .forgotten hch hreb' (Or.inl hstate)
    · cases hclear : a.clear with
      | failed => exact .forgotten hch hreb' (Or.inr hclear)
      | normal => exact .expired hch hreb'
  · cases h
    rw [hnodes]
    simp only [Purge.nodes, List.reverse_cons, List.append_assoc, List.singleton_append]
    exact .same _

theorem purgeLoop_induct {P : List Namenode → Ca → Prop} {now tooLong : ℕ}
    {answers : List CaAnswers} {pg pg' : Purge}
    (h : purgeLoop now tooLong answers pg = .ok pg') (hpg : P pg.nodes pg.ca)
    (hstep : ∀ a ∈ answers, ∀ ca l l' ca', P l ca → PurgeStep a ca l l' ca' → P l' ca') :
    P pg'.nodes pg'.ca ∧ pg'.rest = [] := by
  induction answers generalizing pg with
  | nil =>
      rw [purgeLoop] at h
      split_ifs at h with hrest
      cases h
      exact ⟨hpg, hrest⟩
  | cons a answers ih =>
      rw [purgeLoop] at h
      cases hrest : pg.rest with
      | nil =>
          simp only [hrest] at h
          cases h
          exact ⟨hpg, hrest⟩
      | cons pNN rest =>
          simp only [hrest, bind_eq_ok_iff] at h
          obtain ⟨pg₁, hturn, h⟩ := h
          have hP := hstep a (List.mem_cons_self ..) _ _ _ _ hpg (purgeTurn_step hrest hturn)
          exact ih h hP fun b hb => hstep b (List.mem_cons_of_mem a hb)

/-- **The rule of the purge**: what its turns keep of the list and the channels, it keeps.  Nothing
else of the server changes but the `never` table. -/
theorem processPendingList_induct {P : List Namenode → Ca → Prop} {s s' : Server}
    {now tooLong : ℕ} {answers : List CaAnswers}
    (h : s.processPendingList now tooLong answers = .ok s') (hs : P s.nameList s.ca)
    (hstep : ∀ a ∈ answers, ∀ ca l l' ca', P l ca → PurgeStep a ca l l' ca' → P l' ca') :
    P s'.nameList s'.ca := by
  rw [processPendingList, bind_eq_ok_iff] at h
  obtain ⟨pg, hloop, h⟩ := h
  cases h
  obtain ⟨hP, hrest⟩ := purgeLoop_induct hloop hs hstep
  rw [Purge.nodes, hrest, List.append_nil] at hP
  exact hP

/-- The channels that the purge opens are not connected. -/
theorem processPendingList_old {s s' : Server} {now tooLong : ℕ} {answers : List CaAnswers}
    (h : s.processPendingList now tooLong answers = .ok s') {c : Chid} {ch : Channel}
    (hch : s'.ca.chans c = some ch) (hserver : ch.server ≠ none) : s.ca.chans c = some ch := by
  refine processPendingList_induct (P := fun _ ca => ∀ c ch, ca.chans c = some ch →
    ch.server ≠ none → s.ca.chans c = some ch) h (fun _ _ hx _ => hx) ?_ c ch hch hserver
  intro a _ ca l l' ca' hP hs c ch hch hne
  cases hs with
  | renewed =>
      rw [Ca.renew_chans] at hch
      split_ifs at hch
      · cases hch
        exact absurd rfl hne
      · exact hP c ch hch hne
  | lost =>
      rw [Ca.clear_chans] at hch
      split_ifs at hch
      exact hP c ch hch hne
  | expired =>
      rw [Ca.clear_chans] at hch
      split_ifs at hch
      exact hP c ch hch hne
  | same => exact hP c ch hch hne
  | forgotten => exact hP c ch hch hne

/-- What the purge leaves alone. -/
structure SameButPending (s s' : Server) : Prop where
  dir : s'.dir = s.dir
  nsResTbl : s'.nsResTbl = s.nsResTbl
  pgateAs : s'.pgateAs = s.pgateAs
  stats : s'.stats = s.stats
  connectedIocs : s'.connectedIocs = s.connectedIocs
  requestedIocs : s'.requestedIocs = s.requestedIocs

theorem processPendingList_frame {s s' : Server} {now tooLong : ℕ} {answers : List CaAnswers}
    (h : s.processPendingList now tooLong answers = .ok s') : SameButPending s s' := by
  rw [processPendingList, bind_eq_ok_iff] at h
  obtain ⟨pg, -, h⟩ := h
  cases h
  exact ⟨rfl, rfl, rfl, rfl, rfl, rfl⟩

end Server

/-! ## Events -/

open Server in
/-- The events, with the state each of them leaves. -/
inductive Handled (rx : Regex) (s : Server) : Event → Server → Prop
  | heartbeatUp {c : Chid} {cn : Connection} {ch : Channel} {i : IocId} {d' : Dir}
      (hch : s.ca.chans c = some ch) (hserver : ch.server = none)
      (hcb : ch.callback = .WDprocessChangeConnectionEvent) (hpuser : ch.puser = some i)
      (hd : s.dir.Reloaded i cn d') :
      Handled rx s (.up c cn)
        { s with
          dir := d'
          nameList := removePending ch.name s.nameList
          connectedIocs := s.connectedIocs + 1
          ca := s.ca.setChan c { ch with server := some cn.server } }
  | heartbeatDown {c : Chid} {now : ℕ} {ch : Channel} {i : IocId} {p : PIoc}
      (hch : s.ca.chans c = some ch) (hserver : ch.server ≠ none)
      (hcb : ch.callback = .WDprocessChangeConnectionEvent) (hpuser : ch.puser = some i)
      (hp : s.dir.pIocs i = some p) :
      Handled rx s (.down c now)
        { s with
          dir := s.dir.setPIoc i { p with status := 2 }
          nameList := ⟨ch.name, now, c, true⟩ :: s.nameList
          connectedIocs := s.connectedIocs - 1
          ca := s.ca.setChan c { ch with server := none } }
  | learnedUp {c : Chid} {cn : Connection} {ch ch' : Channel} {i : IocId} {p : PIoc} {d' : Dir}
      (hch : s.ca.chans c = some ch) (hserver : ch.server = none)
      (hcb : ch.callback = .processChangeConnectionEvent)
      (hch' : ch'.name = ch.name ∧ ch'.callback = ch.callback ∧ ch'.server = some cn.server)
      (hd : s.dir.Learned cn (cutAt '.' ch.name) i p d') :
      Handled rx s (.up c cn)
        { s with
          dir := d'
          nameList := removePending (cutAt '.' ch.name) s.nameList
          ca := s.ca.setChan c ch' }
  | learnedDown {c : Chid} {now : ℕ} {ch : Channel} {e : PvEId}
      (hch : s.ca.chans c = some ch) (hserver : ch.server ≠ none)
      (hcb : ch.callback = .processChangeConnectionEvent)
      (he : s.dir.stringResTbl ch.name = some e) :
      Handled rx s (.down c now)
        { s with
          dir := (s.dir.tblRemove ch.name).deletePvE e
          ca := s.ca.clear c }
  | learnedDownFree {c : Chid} {now : ℕ} {ch : Channel}
      (hch : s.ca.chans c = some ch) (hserver : ch.server ≠ none)
      (hcb : ch.callback = .processChangeConnectionEvent)
      (he : s.dir.stringResTbl ch.name = none) :
      Handled rx s (.down c now) { s with ca := s.ca.clear c }
  | request {client pPVName : Name} {search : CaStatus} {now : ℕ} {s' : Server}
      {ret : PvExistReturn} (h : Answered rx s client pPVName search now s' ret) :
      Handled rx s (.request client pPVName search now) s'
  | purge {now tooLong : ℕ} {answers : List CaAnswers} {s' : Server}
      (h : s.processPendingList now tooLong answers = .ok s') (hframe : SameButPending s s') :
      Handled rx s (.purge now tooLong answers) s'
  | report : Handled rx s (.report true) { s with stats := NsStats.zero }

theorem enabled_up {s : Server} {c : Chid} {cn : Connection} (h : enabled s (.up c cn) = true) :
    ∃ ch, s.ca.chans c = some ch ∧ ch.server = none := by
  cases hch : s.ca.chans c with
  | none => simp [enabled, hch] at h
  | some ch => exact ⟨ch, rfl, by simpa [enabled, hch] using h⟩

theorem enabled_down {s : Server} {c : Chid} {now : ℕ} (h : enabled s (.down c now) = true) :
    ∃ ch, s.ca.chans c = some ch ∧ ch.server ≠ none := by
  cases hch : s.ca.chans c with
  | none => simp [enabled, hch] at h
  | some ch =>
      refine ⟨ch, rfl, fun hnone => ?_⟩
      simp [enabled, hch, hnone] at h

theorem setConnection_of_chan {s : Server} {c : Chid} {ch : Channel} (hch : s.ca.chans c = some ch)
    (server : Option SockAddr) :
    setConnection s c server = { s with ca := s.ca.setChan c { ch with server := server } } := by
  simp only [setConnection, hch]

theorem wdConnUp_handled {rx : Regex} {s s' : Server} {c : Chid} {cn : Connection} {ch : Channel}
    (hwf : s.dir.WF) (hch : s.ca.chans c = some ch) (hserver : ch.server = none)
    (hcb : ch.callback = .WDprocessChangeConnectionEvent)
    (h : Server.wdConnUp { s with ca := s.ca.setChan c { ch with server := some cn.server } } c cn =
      .ok s') : Handled rx s (.up c cn) s' := by
  simp only [Server.wdConnUp, bind_eq_ok_iff, Ca.getChan_eq_ok_iff, Ca.setChan_chans, if_pos,
    strncpy_eq_ok_iff, deref_eq_ok_iff] at h
  obtain ⟨_, hself, i, hpuser, _, ⟨-, rfl⟩, d', hd, h⟩ := h
  cases hself
  have hup : Handled rx s (.up c cn) _ :=
    .heartbeatUp hch hserver hcb hpuser (Dir.wdReload_reloaded hwf hd)
  cases h
  exact hup

theorem wdConnDown_handled {rx : Regex} {s s' : Server} {c : Chid} {now : ℕ} {ch : Channel}
    (hch : s.ca.chans c = some ch) (hserver : ch.server ≠ none)
    (hcb : ch.callback = .WDprocessChangeConnectionEvent)
    (h : Server.wdConnDown { s with ca := s.ca.setChan c { ch with server := none } } c now =
      .ok s') : Handled rx s (.down c now) s' := by
  simp only [Server.wdConnDown, bind_eq_ok_iff, Ca.getChan_eq_ok_iff, Ca.setChan_chans, if_pos,
    strncpy_eq_ok_iff, deref_eq_ok_iff, Dir.setStatus_eq_ok_iff] at h
  obtain ⟨_, hself, i, hpuser, _, ⟨-, rfl⟩, _, ⟨p, hp, rfl⟩, h⟩ := h
  cases hself
  have hdown : Handled rx s (.down c now) _ := .heartbeatDown hch hserver hcb hpuser hp
  cases h
  exact hdown

theorem connDown_handled {rx : Regex} {s s' : Server} {c : Chid} {now : ℕ} {ch : Channel}
    (hch : s.ca.chans c = some ch) (hserver : ch.server ≠ none)
    (hcb : ch.callback = .processChangeConnectionEvent)
    (h : Server.connDown { s with ca := s.ca.setChan c { ch with server := none } } c = .ok s') :
    Handled rx s (.down c now) s' := by
  simp only [Server.connDown, bind_eq_ok_iff, Ca.getChan_eq_ok_iff, Ca.setChan_chans, if_pos,
    strncpy_eq_ok_iff, Ca.setChan_clear] at h
  obtain ⟨_, hself, _, ⟨-, rfl⟩, h⟩ := h
  cases hself
  cases he : s.dir.stringResTbl ch.name with
  | none =>
      simp only [he] at h
      cases h
      exact .learnedDownFree hch hserver hcb he
  | some e =>
      simp only [he, bind_eq_ok_iff] at h
      obtain ⟨_, -, h⟩ := h
      cases h
      exact .learnedDown hch hserver hcb he

theorem setNewAddr_met {d d' : Dir} {i : IocId} {p : PIoc} {cn : Connection}
    (hp : d.pIocs i = some p)
    (h : Server.setNewAddr (decide (p.status = 2 ∨ p.status = 0)) d i cn = .ok d') :
    d' = d.setPIoc i (p.met cn) := by
  unfold Server.setNewAddr at h
  unfold PIoc.met
  by_cases hnew : p.status = 2 ∨ p.status = 0
  · rw [if_pos (decide_eq_true hnew), Dir.setAddr_eq_ok_iff] at h
    obtain ⟨p', hp', rfl⟩ := h
    rw [hp] at hp'
    cases hp'
    rw [if_pos hnew]
    rfl
  · rw [if_neg (by simpa using hnew)] at h
    cases h
    rw [if_neg hnew, Dir.setPIoc_self hp]

theorem connUp_handled {rx : Regex} {s s' : Server} {c : Chid} {cn : Connection} {ch : Channel}
    (hch : s.ca.chans c = some ch) (hserver : ch.server = none)
    (hcb : ch.callback = .processChangeConnectionEvent)
    (h : Server.connUp { s with ca := s.ca.setChan c { ch with server := some cn.server } } c cn =
      .ok s') : Handled rx s (.up c cn) s' := by
  simp only [Server.connUp, bind_eq_ok_iff, Ca.getChan_eq_ok_iff, Ca.setChan_chans, if_pos,
    strncpy_eq_ok_iff, Dir.getPIoc_eq_ok_iff, Dir.popPvE_eq_ok_iff, Dir.setStatus_eq_ok_iff] at h
  obtain ⟨_, hself, p, hp, d₁, hd₁, _, ⟨-, rfl⟩, ⟨d₂, r⟩, hinst, _, ⟨q, hq, rfl⟩, _, ⟨q', hq', rfl⟩,
    h⟩ := h
  cases hself
  rw [Dir.setPIoc_pIocs_self] at hq'
  cases hq'
  rw [Dir.setPIoc_setPIoc] at h
  rw [setNewAddr_met hp hd₁] at hinst
  have hlearned : s.dir.Learned cn (cutAt '.' ch.name) _ p _ :=
    .mk rfl hp (Dir.installPVName_installed hinst) hq
  cases h
  by_cases hnew : p.status = 2 ∨ p.status = 0
  · simp only [hnew, decide_true, if_true, Ca.setChan_setChan]
    exact .learnedUp hch hserver hcb ⟨rfl, rfl, rfl⟩ hlearned
  · simp only [hnew, decide_false, Bool.false_eq_true, if_false]
    exact .learnedUp hch hserver hcb ⟨rfl, rfl, rfl⟩ hlearned

/-- **What one event does**, when it has a defined outcome. -/
theorem handle_handled {rx : Regex} {s s' : Server} {e : Event} (hwf : s.dir.WF)
    (hen : enabled s e = true) (h : handle rx s e = .ok s') : Handled rx s e s' := by
  cases e with
  | up c cn =>
      obtain ⟨ch, hch, hserver⟩ := enabled_up hen
      simp only [handle, setConnection_of_chan hch, callbackOf, bind_eq_ok_iff,
        Ca.getChan_eq_ok_iff, Ca.setChan_chans, if_pos, pure_eq_ok_iff] at h
      obtain ⟨cb, ⟨_, hself, hcb⟩, h⟩ := h
      cases hself
      cases cb with
      | WDprocessChangeConnectionEvent => exact wdConnUp_handled hwf hch hserver hcb.symm h
      | processChangeConnectionEvent => exact connUp_handled hch hserver hcb.symm h
  | down c now =>
      obtain ⟨ch, hch, hserver⟩ := enabled_down hen
      simp only [handle, setConnection_of_chan hch, callbackOf, bind_eq_ok_iff,
        Ca.getChan_eq_ok_iff, Ca.setChan_chans, if_pos, pure_eq_ok_iff] at h
      obtain ⟨cb, ⟨_, hself, hcb⟩, h⟩ := h
      cases hself
      cases cb with
      | WDprocessChangeConnectionEvent => exact wdConnDown_handled hch hserver hcb.symm h
      | processChangeConnectionEvent => exact connDown_handled hch hserver hcb.symm h
  | request client pPVName search now =>
      simp only [handle, bind_eq_ok_iff, pure_eq_ok_iff] at h
      obtain ⟨⟨_, ret⟩, hans, rfl⟩ := h
      exact .request (Server.pvExistTest_answered hans)
  | purge now tooLong answers => exact .purge h (Server.processPendingList_frame h)
  | report neverLog =>
      obtain ⟨rfl, rfl⟩ := Server.showReport_eq_ok_iff.mp h
      exact .report

end CaNameserver
