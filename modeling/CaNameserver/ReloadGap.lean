import CaNameserver.Accounting
import CaNameserver.Integrity
import CaNameserver.ReloadSteps

/-!
# Requests in the middle of a reload

A PV that the IOC has, and that is on its new list as well, is out of the table from the moment
the drain takes it out until its name has been read.  A request that comes in this gap finds
nothing and asks the network, unless the name is pending or the client may not search for it.
Outside the gap the request is answered as if the reload took no time: the IOC is down until the
callback has set the status, and has its new address from then on.

## The stages of a reload

The callback of `ReloadSteps` has one step for each access to a table or a list.  Between two
steps an entry may be in the hands of the drain: taken off its list, and still in the table or not
any more.  `Dir.Loose` is such an entry.  The IOC's own heartbeat is in this position until the
end, when it is put back.

`Progress` is what holds between two steps, for the PVs `N` that the IOC had at first and that are
on its new list.

* `Pc.header` has the IOC at each point apart from its list: its address is set first, its status
  last.
* `Pc.Stage` has the names.  Before the drain gets to it a PV is the IOC's; the entry in the hands
  of the drain is loose; after that the name is free, until it has been read; from then on it is
  the IOC's again.
* A name that has been taken out and not yet read is what makes a gap.

Every step of the callback keeps `Progress`, by one lemma for each point of the program (`getPvE`,
`removeId`, `deletePvE`, `openList`, `installPVName`), and a request keeps it because it changes
no table.

## What a request sees

A request for such a name finds it in the table, and is answered from the IOC (`found`); or it
finds nothing, and is answered without a search if the name is pending or refused (`settled`).
`Covered` says that one of these is the case, and `Unnoticed` that the request is answered as if
the reload were atomic; `covered_iff` is the equivalence for one request.

* `reload_unnoticed_iff`: a run shows nothing of the reload to its requests if and only if none of
  them comes in a gap.
* `reload_unnoticed_outside`, `reload_noticed_in_gap`: runs of both kinds.
-/

namespace CaNameserver

open CStr Fallible Transition

namespace Dir

variable {d : Dir} {i : IocId} {e x : PvEId} {n m : Name} {p q : PIoc}

/-! ## Entries in the hands of the drain -/

/-- A live entry of the IOC at `i` that is in the table, but on no list. -/
structure Loose (d : Dir) (i : IocId) (e : PvEId) : Prop where
  entry : ∃ pv, d.pvEs e = some pv ∧ pv.pI = some i ∧ d.stringResTbl pv.resourceName = some e
  unlisted : ∀ j q, d.pIocs j = some q → e ∉ q.pvEList

theorem Loose.setPIoc (h : Loose d i e) (hq : e ∉ q.pvEList) (j : IocId) :
    Loose (d.setPIoc j q) i e := by
  refine ⟨h.entry, fun k r hr => ?_⟩
  rw [setPIoc_pIocs] at hr
  split_ifs at hr
  · cases hr
    exact hq
  · exact h.unlisted k r hr

/-- The head of a list is loose once it is taken off, if it is live. -/
theorem WF.loose_head (h : WF d) {l : List PvEId} (hp : d.pIocs i = some p)
    (hl : p.pvEList = e :: l) (hlive : d.pvEs e ≠ none) :
    Loose (d.setPIoc i { p with pvEList := l }) i e := by
  have hmem : e ∈ p.pvEList := by simp [hl]
  obtain ⟨pv, hpv⟩ := Option.ne_none_iff_exists'.mp hlive
  obtain ⟨howner, htab⟩ := h.listed i p e pv hp hmem hpv
  refine ⟨⟨pv, hpv, howner, htab⟩, fun j q hq hmem' => ?_⟩
  rw [setPIoc_pIocs] at hq
  split_ifs at hq with hj
  · cases hq
    have hnd := h.nodup i p hp
    rw [hl, List.nodup_cons] at hnd
    exact hnd.1 hmem'
  · exact hj (h.list_unique hq hp hmem' hmem hlive)

/-- A loose entry may be put back on its list. -/
theorem WF.add_loose (h : WF d) (he : Loose d i e) (hp : d.pIocs i = some p) :
    WF (d.setPIoc i { p with pvEList := e :: p.pvEList }) := by
  obtain ⟨pv, hpv, howner, htab⟩ := he.entry
  have hlist : ∀ j q x, (d.setPIoc i { p with pvEList := e :: p.pvEList }).pIocs j = some q →
      x ∈ q.pvEList → x = e ∧ j = i ∨ ∃ r, d.pIocs j = some r ∧ x ∈ r.pvEList := by
    intro j q x hq hx
    rw [setPIoc_pIocs] at hq
    split_ifs at hq with hj
    · cases hq
      rcases List.mem_cons.mp hx with rfl | hx'
      · exact Or.inl ⟨rfl, hj⟩
      · exact Or.inr ⟨p, hj ▸ hp, hx'⟩
    · exact Or.inr ⟨q, hq, hx⟩
  have hshrunk := h.setPIoc (q := { p with pvEList := [] }) hp rfl (List.nil_sublist _)
  refine ⟨h.table, fun j q x pv' hq hx hpv' => ?_, fun j q hq => ?_, h.pvEs_lt, h.owner_lt,
    fun j q x hq hx => ?_, fun n j => ?_, fun j q hq => ?_⟩
  · rcases hlist j q x hq hx with ⟨rfl, rfl⟩ | ⟨r, hr, hxr⟩
    · have hsame : d.pvEs x = some pv' := hpv'
      rw [hpv] at hsame
      cases hsame
      exact ⟨howner, htab⟩
    · exact h.listed j r x pv' hr hxr hpv'
  · rw [setPIoc_pIocs] at hq
    split_ifs at hq with hj
    · cases hq
      exact List.nodup_cons.mpr ⟨he.unlisted i p hp, h.nodup i p hp⟩
    · exact h.nodup j q hq
  · rcases hlist j q x hq hx with ⟨rfl, -⟩ | ⟨r, hr, hxr⟩
    · exact h.pvEs_lt x pv hpv
    · exact h.listed_lt j r x hr hxr
  · refine (hshrunk.iocTable n j).trans ?_
    rw [setPIoc_pIocs, setPIoc_pIocs]
    split_ifs <;> simp
  · rw [setPIoc_pIocs] at hq
    split_ifs at hq with hj
    · exact hj ▸ h.pIocs_lt i p hp
    · exact h.pIocs_lt j q hq

/-! ## The drain takes a name out of the table, and deletes the entry -/

theorem WF.tblRemove (h : WF d) (hn : d.stringResTbl n = some e)
    (hno : ∀ j q, d.pIocs j = some q → e ∉ q.pvEList) : WF (d.tblRemove n) := by
  refine h.shrink (fun m x hm => ?_) (fun x pv hx => hx)
    (fun j q hq => ⟨q, hq, rfl, List.Sublist.refl _⟩) (fun j q hq => ?_)
    (fun j q x pv hq hx hpv => ?_) rfl rfl rfl
  · rw [tblRemove_stringResTbl] at hm
    split_ifs at hm
    exact ⟨hm, rfl⟩
  · exact Option.ne_none_iff_exists'.mpr ⟨q, hq⟩
  · rw [tblRemove_stringResTbl, if_neg]
    rintro rfl
    have htab := (h.listed j q x pv hq hx hpv).2
    rw [hn] at htab
    cases htab
    exact hno j q hq hx

theorem WF.deletePvE (h : WF d) (hno : ∀ n, d.stringResTbl n ≠ some e) : WF (d.deletePvE e) := by
  refine h.shrink (fun m x hm => ⟨hm, ?_⟩) (fun x pv hx => ?_)
    (fun j q hq => ⟨q, hq, rfl, List.Sublist.refl _⟩) (fun j q hq => ?_)
    (fun _ _ _ _ _ _ _ => rfl) rfl rfl rfl
  · rw [deletePvE_pvEs, if_neg]
    rintro rfl
    exact hno m hm
  · rw [deletePvE_pvEs] at hx
    split_ifs at hx
    exact hx
  · exact Option.ne_none_iff_exists'.mpr ⟨q, hq⟩

/-- An entry is loose still when another name is taken out, and when another entry is deleted. -/
theorem Loose.tblRemove (h : Loose d i e) (hn : d.stringResTbl n ≠ some e) :
    Loose (d.tblRemove n) i e := by
  obtain ⟨pv, hpv, howner, htab⟩ := h.entry
  refine ⟨⟨pv, hpv, howner, ?_⟩, h.unlisted⟩
  rw [tblRemove_stringResTbl, if_neg]
  · exact htab
  · rintro rfl
    exact hn htab

theorem Loose.deletePvE (h : Loose d i e) (hx : e ≠ x) : Loose (d.deletePvE x) i e := by
  obtain ⟨pv, hpv, howner, htab⟩ := h.entry
  refine ⟨⟨pv, ?_, howner, htab⟩, h.unlisted⟩
  rw [deletePvE_pvEs, if_neg hx]
  exact hpv

/-- A name that is free or the IOC's own is the IOC's once it has been read. -/
theorem Installed.owner_of_own {d' : Dir} {r : ℤ} (h : Installed d n i d' r) (hwf : WF d)
    (hn : d.owner n = some i ∨ d.owner n = none) : d'.owner n = some i := by
  rcases hn with hown | hfree
  · rcases h.owner_self hwf with hself | rfl
    · exact hself
    · exact hown
  · exact h.owner_of_free hwf hfree

end Dir

/-! ## What holds between two steps -/

theorem PIoc.header_setAddr {p q : PIoc} {cn : Connection} (h : q.header = p.header) :
    PIoc.header { q with addr := cn.addr q.addr } =
      PIoc.header { p with addr := cn.addr p.addr } := by
  obtain ⟨_, _, _, _, _⟩ := p
  obtain ⟨_, _, _, _, _⟩ := q
  cases h
  rfl

theorem PIoc.header_setStatus {p q : PIoc} (h : q.header = p.header) (st : ℕ) :
    PIoc.header { q with status := st } = PIoc.header { p with status := st } := by
  obtain ⟨_, _, _, _, _⟩ := p
  obtain ⟨_, _, _, _, _⟩ := q
  cases h
  rfl

/-- The PVs that the IOC has and will have: it owns them, and they are on the new list. -/
def Reloading.Stays (a₀ : Reloading) (p : PIoc) (n : Name) : Prop :=
  a₀.server.dir.owner n = some a₀.pI ∧ n ∈ signals a₀.cn.fs p.pathToList

/-- The IOC at this point, apart from its list: its address is set first, its status last. -/
def Pc.header (cn : Connection) (p : PIoc) : Pc → PIoc
  | .removePending => p.header
  | .setAddr => p.header
  | .done => { p with addr := cn.addr p.addr, status := 1 }.header
  | _ => { p with addr := cn.addr p.addr }.header

/-- What has been done with the PVs `N` of the IOC at `i`, and what is in the drain's hands. -/
def Pc.Stage (N : Name → Prop) (d : Dir) (i : IocId) : Pc → Prop
  | .getPvE v => ∀ hb, v.pvEHeartbeat = some hb → d.Loose i hb
  | .removeId pve v => (d.pvEs pve ≠ none → d.Loose i pve) ∧
      ∀ hb, v.pvEHeartbeat = some hb → d.Loose i hb ∧ hb ≠ pve
  | .deletePvE pve v => (∀ n, d.stringResTbl n ≠ some pve) ∧
      ∀ hb, v.pvEHeartbeat = some hb → d.Loose i hb ∧ hb ≠ pve
  | .addHeartbeat pve => d.Loose i pve
  | .installPVName tokens => ∀ n, N n → n ∈ tokens.map cstr ∨ d.owner n = some i
  | .setStatus => ∀ n, N n → d.owner n = some i
  | .done => ∀ n, N n → d.owner n = some i
  | _ => True

/-- What holds at every point of a reload that began with `a₀`, of the IOC `p`. -/
structure Progress (a₀ : Reloading) (p : PIoc) (a : Reloading) : Prop where
  pI : a.pI = a₀.pI
  cn : a.cn = a₀.cn
  wf : a.server.dir.WF
  header : a.server.dir.header a₀.pI = some (a.pc.header a₀.cn p)
  /-- no other IOC gets these PVs meanwhile -/
  own : ∀ n, a₀.Stays p n → a.server.dir.owner n = some a₀.pI ∨ a.server.dir.owner n = none
  stage : a.pc.Stage (a₀.Stays p) a.server.dir a₀.pI

namespace Progress

variable {a₀ a a' : Reloading} {p : PIoc}

theorem start (hwf : a₀.server.dir.WF) (hpc : a₀.pc = .removePending)
    (hp : a₀.server.dir.pIocs a₀.pI = some p) : Progress a₀ p a₀ := by
  refine ⟨rfl, rfl, hwf, ?_, fun n hn => Or.inl hn.1, ?_⟩
  · rw [hpc]
    exact Dir.header_of_pIocs hp
  · rw [hpc]
    trivial

/-- A step that only looks at the directory. -/
theorem stay (h : Progress a₀ p a) {pc : Pc} (hhead : pc.header a₀.cn p = a.pc.header a₀.cn p)
    (hstage : pc.Stage (a₀.Stays p) a.server.dir a₀.pI) :
    Progress a₀ p (a.goto a.server.dir pc) :=
  ⟨h.pI, h.cn, h.wf, h.header.trans (congrArg some hhead.symm), h.own, hstage⟩

/-- A step that changes the list of the IOC. -/
theorem relist (h : Progress a₀ p a) {q : PIoc} {l : List PvEId} {pc : Pc}
    (hq : a.server.dir.pIocs a₀.pI = some q)
    (hwf : (a.server.dir.setPIoc a₀.pI { q with pvEList := l }).WF)
    (hhead : pc.header a₀.cn p = a.pc.header a₀.cn p)
    (hstage : pc.Stage (a₀.Stays p) (a.server.dir.setPIoc a₀.pI { q with pvEList := l }) a₀.pI) :
    Progress a₀ p (a.goto (a.server.dir.setPIoc a₀.pI { q with pvEList := l }) pc) := by
  refine ⟨h.pI, h.cn, hwf, ?_, h.own, hstage⟩
  have hsame := Dir.header_of_relist (l := l) hq fun j => Dir.setPIoc_pIocs ..
  exact (congrFun hsame a₀.pI).trans (h.header.trans (congrArg some hhead.symm))

/-- A step that changes the header of the IOC. -/
theorem rewrite (h : Progress a₀ p a) {q q' : PIoc} {pc : Pc}
    (hq : a.server.dir.pIocs a₀.pI = some q) (hname : q'.iocname = q.iocname)
    (hlist : q'.pvEList = q.pvEList) (hhead : q'.header = pc.header a₀.cn p)
    (hstage : pc.Stage (a₀.Stays p) (a.server.dir.setPIoc a₀.pI q') a₀.pI) :
    Progress a₀ p (a.goto (a.server.dir.setPIoc a₀.pI q') pc) := by
  have hsub : q'.pvEList.Sublist q.pvEList := hlist ▸ List.Sublist.refl _
  refine ⟨h.pI, h.cn, h.wf.setPIoc hq hname hsub, ?_, h.own, hstage⟩
  show Dir.header (a.server.dir.setPIoc a₀.pI q') a₀.pI = _
  rw [Dir.header_setPIoc, if_pos rfl]
  exact congrArg some hhead

theorem header_eq (h : Progress a₀ p a) {q : PIoc} (hq : a.server.dir.pIocs a₀.pI = some q) :
    q.header = a.pc.header a₀.cn p := Dir.header_of_header hq h.header

/-- An entry comes off the list. -/
theorem getPvE (h : Progress a₀ p a) {v : Drain} (hpc : a.pc = .getPvE v)
    (hstep : a.callback = .ok a') : Progress a₀ p a' := by
  have hstage := h.stage
  unfold Reloading.callback at hstep
  simp only [hpc, h.pI, bind_eq_ok_iff, Dir.getPIoc_eq_ok_iff] at hstep
  obtain ⟨q, hq, hstep⟩ := hstep
  rw [hpc] at hstage
  cases hl : q.pvEList with
  | nil =>
      rw [hl] at hstep
      cases hstep
      cases hhb : v.pvEHeartbeat with
      | none => exact h.stay (hpc ▸ rfl) trivial
      | some hb => exact h.stay (hpc ▸ rfl) (hstage hb hhb)
  | cons pve l =>
      rw [hl] at hstep
      cases hstep
      have hwf := h.wf.setPIoc (q := { q with pvEList := l }) hq rfl
        (hl ▸ List.sublist_cons_self pve l)
      refine h.relist hq hwf (hpc ▸ rfl)
        ⟨fun hlive => h.wf.loose_head hq hl hlive, fun hb hhb => ?_⟩
      have hout := (hstage hb hhb).unlisted a₀.pI q hq
      rw [hl, List.mem_cons, not_or] at hout
      exact ⟨(hstage hb hhb).setPIoc hout.2 a₀.pI, hout.1⟩

/-- A name goes out of the table. -/
theorem removeId (h : Progress a₀ p a) {pve : PvEId} {v : Drain} (hpc : a.pc = .removeId pve v)
    (hstep : a.callback = .ok a') : Progress a₀ p a' := by
  have hstage := h.stage
  unfold Reloading.callback at hstep
  simp only [hpc, bind_eq_ok_iff, Dir.getPvE_eq_ok_iff, PvE.getName, strncpy_eq_ok_iff]
    at hstep
  obtain ⟨e, he, name, ⟨-, hname⟩, hstep⟩ := hstep
  rw [hpc] at hstage
  obtain ⟨hloose, hhb⟩ := hstage
  have hpve := hloose (by simp [he])
  split_ifs at hstep with hcond htab
  · -- the table has this entry
    cases hstep
    have hno : ∀ n, (a.server.dir.tblRemove name).stringResTbl n ≠ some pve := by
      intro n hn
      rw [Dir.tblRemove_stringResTbl] at hn
      split_ifs at hn with hne
      exact hne (h.wf.table_inj hn htab)
    refine ⟨h.pI, h.cn, h.wf.tblRemove htab hpve.unlisted, ?_, fun n hn => ?_, hno,
      fun hb heq => ?_⟩
    · exact h.header.trans (by rw [hpc]; rfl)
    · show (a.server.dir.tblRemove name).owner n = _ ∨ (a.server.dir.tblRemove name).owner n = _
      rw [Dir.owner_tblRemove]
      split_ifs
      · exact Or.inr rfl
      · exact h.own n hn
    · obtain ⟨hl, hne⟩ := hhb hb heq
      refine ⟨hl.tblRemove fun hn => hne ?_, hne⟩
      rw [htab] at hn
      exact (Option.some.inj hn).symm
  · -- another entry has the name
    cases hstep
    have hno : ∀ n, a.server.dir.stringResTbl n ≠ some pve := by
      intro n hn
      obtain ⟨pv, hpv, rfl⟩ := h.wf.table n pve hn
      rw [he] at hpv
      cases hpv
      exact htab (hname ▸ hn)
    exact h.stay (hpc ▸ rfl) ⟨hno, hhb⟩
  · -- the heartbeat stays in the table
    cases hstep
    refine h.stay (hpc ▸ rfl) fun hb heq => ?_
    cases heq
    exact hpve

/-- An entry is deleted. -/
theorem deletePvE (h : Progress a₀ p a) {pve : PvEId} {v : Drain} (hpc : a.pc = .deletePvE pve v)
    (hstep : a.callback = .ok a') : Progress a₀ p a' := by
  have hstage := h.stage
  unfold Reloading.callback at hstep
  simp only [hpc] at hstep
  cases hstep
  rw [hpc] at hstage
  obtain ⟨hno, hhb⟩ := hstage
  refine ⟨h.pI, h.cn, h.wf.deletePvE hno, h.header.trans (by rw [hpc]; rfl), fun n hn => ?_,
    fun hb heq => (hhb hb heq).1.deletePvE (hhb hb heq).2⟩
  have howner := h.own n hn
  rwa [← Dir.owner_deletePvE hno n] at howner

/-- The list is opened. -/
theorem openList (h : Progress a₀ p a) (hpc : a.pc = .openList)
    (hstep : a.callback = .ok a') : Progress a₀ p a' := by
  unfold Reloading.callback at hstep
  simp only [hpc, h.pI, h.cn, bind_eq_ok_iff, Dir.getPIoc_eq_ok_iff, PIoc.getPathToList,
    strncpy_eq_ok_iff] at hstep
  obtain ⟨q, hq, path, ⟨-, rfl⟩, hstep⟩ := hstep
  cases hstep
  have hqp := h.header_eq hq
  rw [hpc] at hqp
  have hpath : q.pathToList = p.pathToList := (PIoc.eq_of_header hqp).2.1
  rw [hpath]
  cases hopen : fopen a₀.cn.fs p.pathToList with
  | none =>
      refine h.stay (hpc ▸ rfl) fun n hn => ?_
      have hmem := hn.2
      rw [signals, hopen] at hmem
      cases hmem
  | some pf =>
      refine h.stay (hpc ▸ rfl) fun n hn => Or.inl ?_
      have hmem := hn.2
      rw [signals, hopen] at hmem
      exact hmem

/-- A name is read. -/
theorem installPVName (h : Progress a₀ p a) {tokens : List Name}
    (hpc : a.pc = .installPVName tokens) (hstep : a.callback = .ok a') : Progress a₀ p a' := by
  have hstage := h.stage
  unfold Reloading.callback at hstep
  rw [hpc] at hstage
  cases tokens with
  | nil =>
      simp only [hpc] at hstep
      cases hstep
      exact h.stay (hpc ▸ rfl) fun n hn => (hstage n hn).resolve_left List.not_mem_nil
  | cons token tokens =>
      simp only [hpc, h.pI, bind_eq_ok_iff] at hstep
      obtain ⟨_, -, ⟨d, r⟩, hinst, hstep⟩ := hstep
      cases hstep
      have hi := Dir.installPVName_installed hinst
      have hread : ∀ n, a₀.Stays p n → n = cstr token → d.owner n = some a₀.pI := by
        rintro n hn rfl
        exact hi.owner_of_own h.wf (h.own _ hn)
      refine ⟨h.pI, h.cn, h.wf.installed hi, ?_, fun n hn => ?_, fun n hn => ?_⟩
      · show d.header a₀.pI = _
        rw [hi.header, h.header, hpc]
        rfl
      · by_cases hne : n = cstr token
        · exact Or.inl (hread n hn hne)
        · have howner := h.own n hn
          rwa [← hi.owner_of_ne h.wf hne] at howner
      · by_cases hne : n = cstr token
        · exact Or.inr (hread n hn hne)
        · have hrest := hstage n hn
          rw [← hi.owner_of_ne h.wf hne, List.map_cons, List.mem_cons] at hrest
          exact hrest.imp_left fun hmem => hmem.resolve_left hne

/-- **A step of the callback.** -/
theorem callback (h : Progress a₀ p a) (hdown : p.status = 2) (hstep : a.callback = .ok a') :
    Progress a₀ p a' := by
  cases hpc : a.pc with
  | removePending =>
      unfold Reloading.callback at hstep
      simp only [hpc] at hstep
      cases hstep
      refine ⟨h.pI, h.cn, h.wf, ?_, h.own, trivial⟩
      rw [h.header, hpc]
      rfl
  | setAddr =>
      unfold Reloading.callback at hstep
      simp only [hpc, h.pI, h.cn, bind_eq_ok_iff, Dir.setAddr_eq_ok_iff] at hstep
      obtain ⟨_, ⟨q, hq, rfl⟩, hstep⟩ := hstep
      cases hstep
      have hqp := h.header_eq hq
      rw [hpc] at hqp
      exact h.rewrite hq rfl rfl (PIoc.header_setAddr hqp) trivial
  | getStatus =>
      unfold Reloading.callback at hstep
      simp only [hpc, h.pI, bind_eq_ok_iff, Dir.getPIoc_eq_ok_iff] at hstep
      obtain ⟨q, hq, hstep⟩ := hstep
      cases hstep
      have hqp := h.header_eq hq
      rw [hpc] at hqp
      have hst : q.status = 2 := (PIoc.eq_of_header hqp).2.2.1.trans hdown
      rw [hst, if_neg (by decide), if_pos rfl]
      exact h.stay (hpc ▸ rfl) trivial
  | removeAllPvs =>
      unfold Reloading.callback at hstep
      simp only [hpc, bind_eq_ok_iff] at hstep
      obtain ⟨q, hq, iocName, -, path, -, checkStr, -, hstep⟩ := hstep
      cases hstep
      refine h.stay (hpc ▸ rfl) fun hb heq => ?_
      cases heq
  | getPvE => exact h.getPvE hpc hstep
  | removeId => exact h.removeId hpc hstep
  | deletePvE => exact h.deletePvE hpc hstep
  | addHeartbeat pve =>
      unfold Reloading.callback at hstep
      simp only [hpc, h.pI, Dir.add, bind_eq_ok_iff, Dir.getPIoc_eq_ok_iff] at hstep
      obtain ⟨_, ⟨q, hq, hd⟩, hstep⟩ := hstep
      cases hd
      cases hstep
      have hstage := h.stage
      rw [hpc] at hstage
      exact h.relist hq (h.wf.add_loose hstage hq) (hpc ▸ rfl) trivial
  | openList => exact h.openList hpc hstep
  | installPVName => exact h.installPVName hpc hstep
  | setStatus =>
      unfold Reloading.callback at hstep
      simp only [hpc, h.pI, bind_eq_ok_iff, Dir.setStatus_eq_ok_iff] at hstep
      obtain ⟨_, ⟨q, hq, rfl⟩, hstep⟩ := hstep
      cases hstep
      have hqp := h.header_eq hq
      have hstage := h.stage
      rw [hpc] at hqp hstage
      exact h.rewrite hq rfl rfl (PIoc.header_setStatus hqp 1) hstage
  | done =>
      unfold Reloading.callback at hstep
      simp only [hpc] at hstep
      cases hstep
      exact h

/-- A step of either thread. -/
theorem next {rx : Regex} {m : Move} (h : Progress a₀ p a) (hdown : p.status = 2)
    (hstep : a.next rx m = .ok a') : Progress a₀ p a' := by
  cases m with
  | callback => exact h.callback hdown hstep
  | request client pPVName search now =>
      obtain ⟨s, ret, -, hdir, rfl⟩ := Reloading.next_request hstep
      refine ⟨h.pI, h.cn, ?_, ?_, ?_, ?_⟩
      · exact hdir ▸ h.wf
      · exact hdir ▸ h.header
      · exact hdir ▸ h.own
      · exact hdir ▸ h.stage

end Progress

/-! ## Requests -/

/-- The answer of the library makes a difference to a request exactly if the request searches. -/
theorem Server.pvExistTest_unasked_iff (rx : Regex) (s : Server) (client : Name) {pPVName : Name}
    (now : ℕ) (hlen : pPVName.length < pvNameSz - 1) :
    s.pvExistTest rx client pPVName .normal now = s.pvExistTest rx client pPVName .failed now ↔
      s.searches rx client pPVName = false := by
  have hbuf : strncpy pvNameSz pPVName = .ok pPVName := if_pos hlen
  rw [pvExistTest, pvExistTest, hbuf]
  dsimp only [bind, Except.bind]
  by_cases hn : recordName pPVName = []
  · simp [searches, hn]
  rw [if_neg hn, if_neg hn]
  cases he : s.dir.stringResTbl (recordName pPVName) with
  | some e => simp [searches, he]
  | none =>
      dsimp only
      by_cases hns : pPVName ∈ s.nsResTbl
      · simp [searches, hns]
      rw [if_neg hns, if_neg hns]
      split_ifs with hpend hden
      · rw [List.any_eq_true] at hpend
        obtain ⟨nn, hnn, hname⟩ := hpend
        have hno : s.searches rx client pPVName = false := by
          refine Bool.eq_false_iff.mpr fun h => ?_
          exact (searches_eq_true_iff.mp h).2.2.2.1 nn hnn (of_decide_eq_true hname)
        simp [hno]
      · have hden' : s.searchDenied rx client (recordName pPVName) = true := hden
        have hno : s.searches rx client pPVName = false := by
          simp [searches, hden']
        simp [hno]
      · have hden' : s.searchDenied rx client (recordName pPVName) = false :=
          Bool.eq_false_iff.mpr hden
        have hyes : s.searches rx client pPVName = true :=
          searches_eq_true_iff.mpr ⟨hn, he, hns, by simpa using hpend, hden'⟩
        refine iff_of_false (fun h => ?_) (by simp [hyes])
        have hstats := congrArg (fun r => r.map fun x => x.1.stats.broadcast) h
        simp [Except.map, pure, Except.pure] at hstats

/-- The request finds the name in the table; or else, without asking the network, among the
pending ones or refused to the client. -/
def Server.Settles (rx : Regex) (s : Server) (client pPVName : Name) : Prop :=
  s.dir.stringResTbl (recordName pPVName) ≠ none ∨
    pPVName ∉ s.nsResTbl ∧ ((∃ nn ∈ s.nameList, nn.name = recordName pPVName) ∨
      s.searchDenied rx client (recordName pPVName) = true)

theorem Server.Settles.searches_eq_false {rx : Regex} {s : Server} {client pPVName : Name}
    (h : s.Settles rx client pPVName) : s.searches rx client pPVName = false := by
  refine Bool.eq_false_iff.mpr fun hsearch => ?_
  obtain ⟨-, he, -, hpend, hden⟩ := searches_eq_true_iff.mp hsearch
  rcases h with he' | ⟨-, ⟨nn, hnn, hname⟩ | hden'⟩
  · exact he' he
  · exact hpend nn hnn hname
  · rw [hden] at hden'
    cases hden'

theorem Server.settles_of_searches_eq_false {rx : Regex} {s : Server} {client pPVName : Name}
    (h : s.searches rx client pPVName = false) (hn : recordName pPVName ≠ [])
    (hns : s.dir.stringResTbl (recordName pPVName) = none → pPVName ∉ s.nsResTbl) :
    s.Settles rx client pPVName := by
  refine or_iff_not_imp_left.mpr fun he => ?_
  rw [not_not] at he
  refine ⟨hns he, ?_⟩
  by_contra hneither
  rw [not_or, not_exists] at hneither
  refine Bool.eq_false_iff.mp h (searches_eq_true_iff.mpr ⟨hn, he, hns he, fun nn hnn hname => ?_,
    Bool.eq_false_iff.mpr hneither.2⟩)
  exact hneither.1 nn ⟨hnn, hname⟩

/-- A request for a PV that the IOC has and will have does not come in a gap.  The empty name is
never looked up: the answer is right as long as the IOC is down. -/
def Covered (rx : Regex) (a₀ : Reloading) (p : PIoc) (a : Reloading) : Move → Prop
  | .callback => True
  | .request client pPVName _ _ => a₀.Stays p (Server.recordName pPVName) →
      (Server.recordName pPVName = [] ∧ a.pc ≠ .done) ∨
        (Server.recordName pPVName ≠ [] ∧ a.server.Settles rx client pPVName)

/-- A request for a PV that the IOC has and will have is answered as if the reload took no time: it
does not ask the network, whatever the library would say, and adds no pending node; the PV does not
exist here until the status is set, and is at the new address from then on. -/
def Unnoticed (rx : Regex) (a₀ : Reloading) (p : PIoc) (a : Reloading) : Move → Prop
  | .callback => True
  | .request client pPVName search now => a₀.Stays p (Server.recordName pPVName) →
      ∀ s ret, a.server.pvExistTest rx client pPVName search now = .ok (s, ret) →
        a.server.pvExistTest rx client pPVName .normal now =
          a.server.pvExistTest rx client pPVName .failed now ∧
        s.ca = a.server.ca ∧ s.nameList = a.server.nameList ∧
        (a.pc ≠ .done → ret = .doesNotExistHere) ∧
        (a.pc = .done → ret = .existsAt (a₀.cn.addr p.addr))

namespace Progress

variable {rx : Regex} {a₀ a a' : Reloading} {p : PIoc}

/-- The status is set last. -/
theorem status_iff (h : Progress a₀ p a) (hdown : p.status = 2) {q : PIoc}
    (hq : a.server.dir.pIocs a₀.pI = some q) : q.status = 1 ↔ a.pc = .done := by
  have hst := congrArg PIoc.status (h.header_eq hq)
  change q.status = _ at hst
  rw [hst]
  cases a.pc with
  | done => exact iff_of_true rfl rfl
  | _ => exact iff_of_false (by simp [Pc.header, PIoc.header, hdown]) (by simp)

/-- The address is the new one then. -/
theorem addr_eq (h : Progress a₀ p a) (hpc : a.pc = .done) {q : PIoc}
    (hq : a.server.dir.pIocs a₀.pI = some q) : q.addr = a₀.cn.addr p.addr := by
  have haddr := congrArg PIoc.addr (h.header_eq hq)
  rw [hpc] at haddr
  exact haddr

/-- In the end the name is in the table. -/
theorem pc_ne_done (h : Progress a₀ p a) {n : Name} (hn : a₀.Stays p n)
    (hfree : a.server.dir.stringResTbl n = none) : a.pc ≠ .done := by
  intro hpc
  have hstage := h.stage
  rw [hpc] at hstage
  have hown := hstage n hn
  rw [h.wf.owner_eq_none_iff.mpr hfree] at hown
  cases hown

/-- A name that is in the table is answered from the table. -/
theorem found (h : Progress a₀ p a) (hdown : p.status = 2) {client pPVName : Name}
    {search : CaStatus} {now : ℕ} {s : Server} {ret : Server.PvExistReturn}
    (hn : a₀.Stays p (Server.recordName pPVName)) (hne : Server.recordName pPVName ≠ [])
    (he : a.server.dir.stringResTbl (Server.recordName pPVName) ≠ none)
    (hs : a.server.pvExistTest rx client pPVName search now = .ok (s, ret)) :
    s.ca = a.server.ca ∧ s.nameList = a.server.nameList ∧
      (a.pc ≠ .done → ret = .doesNotExistHere) ∧
      (a.pc = .done → ret = .existsAt (a₀.cn.addr p.addr)) := by
  have howner : a.server.dir.owner (Server.recordName pPVName) = some a₀.pI := by
    rcases h.own _ hn with hown | hfree
    · exact hown
    · exact absurd (h.wf.owner_eq_none_iff.mp hfree) he
  cases Server.pvExistTest_answered hs with
  | noName hnil => exact absurd hnil hne
  | iocError _ he' hpv ho =>
      rw [Dir.owner_of_entry he' hpv, ho] at howner
      cases howner
  | hit _ _ ho hq hst =>
      rw [howner] at ho
      cases ho
      have hpc := (h.status_iff hdown hq).mp hst
      exact ⟨rfl, rfl, fun hne => absurd hpc hne,
        fun _ => congrArg Server.PvExistReturn.existsAt (h.addr_eq hpc hq)⟩
  | iocDown _ _ ho hq hst =>
      rw [howner] at ho
      cases ho
      exact ⟨rfl, rfl, fun _ => rfl, fun hpc => absurd ((h.status_iff hdown hq).mpr hpc) hst⟩
  | nameserverPV _ hfree => exact absurd hfree he
  | pending _ hfree => exact absurd hfree he
  | denied _ hfree => exact absurd hfree he
  | searchFailed _ hfree => exact absurd hfree he
  | searched _ hfree => exact absurd hfree he

/-- So is a name that settles in the gap. -/
theorem settled (h : Progress a₀ p a) (hdown : p.status = 2) {client pPVName : Name}
    {search : CaStatus} {now : ℕ} {s : Server} {ret : Server.PvExistReturn}
    (hn : a₀.Stays p (Server.recordName pPVName)) (hne : Server.recordName pPVName ≠ [])
    (hset : a.server.Settles rx client pPVName)
    (hs : a.server.pvExistTest rx client pPVName search now = .ok (s, ret)) :
    s.ca = a.server.ca ∧ s.nameList = a.server.nameList ∧
      (a.pc ≠ .done → ret = .doesNotExistHere) ∧
      (a.pc = .done → ret = .existsAt (a₀.cn.addr p.addr)) := by
  by_cases he : a.server.dir.stringResTbl (Server.recordName pPVName) = none
  · obtain ⟨hns, hrest⟩ := hset.resolve_left (not_not.mpr he)
    have hpc := h.pc_ne_done hn he
    cases Server.pvExistTest_answered hs with
    | noName hnil => exact absurd hnil hne
    | iocError _ he' => simp [he] at he'
    | hit _ he' => exact absurd he he'
    | iocDown _ he' => exact absurd he he'
    | nameserverPV _ _ hns' => exact absurd hns' hns
    | pending => exact ⟨rfl, rfl, fun _ => rfl, fun hdone => absurd hdone hpc⟩
    | denied => exact ⟨rfl, rfl, fun _ => rfl, fun hdone => absurd hdone hpc⟩
    | searchFailed _ _ _ hpend hden =>
        rcases hrest with ⟨nn, hnn, hname⟩ | hden'
        · exact absurd hname (hpend nn hnn)
        · simp [hden'] at hden
    | searched _ _ _ hpend hden =>
        rcases hrest with ⟨nn, hnn, hname⟩ | hden'
        · exact absurd hname (hpend nn hnn)
        · simp [hden'] at hden
  · exact h.found hdown hn hne he hs

/-- **One request.** -/
theorem covered_iff (h : Progress a₀ p a) (hdown : p.status = 2) {m : Move}
    (hstep : a.next rx m = .ok a') : Covered rx a₀ p a m ↔ Unnoticed rx a₀ p a m := by
  cases m with
  | callback => exact Iff.rfl
  | request client pPVName search now =>
      obtain ⟨s, ret, hs, -, -⟩ := Reloading.next_request hstep
      have hlen : pPVName.length < pvNameSz - 1 := by
        have hdef := hs
        simp only [Server.pvExistTest, bind_eq_ok_iff, strncpy_eq_ok_iff] at hdef
        obtain ⟨_, ⟨hlen, -⟩, -⟩ := hdef
        exact hlen
      have hasks := Server.pvExistTest_unasked_iff rx a.server client now hlen
      refine imp_congr_right fun hn => ?_
      constructor
      · rintro (⟨hnil, hpc⟩ | ⟨hne, hset⟩) s' ret' hs'
        · have hno : a.server.searches rx client pPVName = false := by
            simp [Server.searches, hnil]
          cases Server.pvExistTest_answered hs' with
          | noName => exact ⟨hasks.mpr hno, rfl, rfl, fun _ => rfl, fun hdone => absurd hdone hpc⟩
          | _ => exact absurd hnil ‹_›
        · exact ⟨hasks.mpr hset.searches_eq_false, h.settled hdown hn hne hset hs'⟩
      · intro hun
        obtain ⟨hun₁, -, -, hbefore, hafter⟩ := hun s ret hs
        by_cases hnil : Server.recordName pPVName = []
        · refine Or.inl ⟨hnil, fun hdone => ?_⟩
          cases Server.pvExistTest_answered hs with
          | noName => cases hafter hdone
          | _ => exact absurd hnil ‹_›
        · refine Or.inr ⟨hnil, ?_⟩
          refine Server.settles_of_searches_eq_false (hasks.mp hun₁) hnil fun he hns => ?_
          cases Server.pvExistTest_answered hs with
          | nameserverPV => cases hbefore (h.pc_ne_done hn he)
          | noName hn' => exact absurd hn' hnil
          | iocError _ he' => simp [he] at he'
          | hit _ he' => exact absurd he he'
          | iocDown _ he' => exact absurd he he'
          | pending _ _ hns' => exact absurd hns hns'
          | denied _ _ hns' => exact absurd hns hns'
          | searchFailed _ _ hns' => exact absurd hns hns'
          | searched _ _ hns' => exact absurd hns hns'

end Progress

/-- **What a request sees of a reload.**  In the runs of a reload, no request for a PV that the IOC
has and will have sees anything of it if and only if none comes in a gap. -/
theorem reload_unnoticed_iff (rx : Regex) {a₀ a : Reloading} {p : PIoc} {ms : List Move}
    (hinit : (reloading rx).init a₀) (hp : a₀.server.dir.pIocs a₀.pI = some p) :
    Run (reloading rx) (Covered rx a₀ p) a₀ ms a ↔
      Run (reloading rx) (Unnoticed rx a₀ p) a₀ ms a := by
  obtain ⟨hwf, hpc, q, hq, hdown⟩ := hinit
  rw [hp] at hq
  cases hq
  have hstart : Progress a₀ p a₀ := .start hwf hpc hp
  constructor
  · intro hrun
    exact hrun.mono_of_invariant (I := Progress a₀ p) (fun _ _ _ h hstep => h.next hdown hstep)
      (fun _ _ _ h hstep => (h.covered_iff hdown hstep).mp) hstart
  · intro hrun
    exact hrun.mono_of_invariant (I := Progress a₀ p) (fun _ _ _ h hstep => h.next hdown hstep)
      (fun _ _ _ h hstep => (h.covered_iff hdown hstep).mpr) hstart

/-! ## Concrete interleavings -/

namespace Reloading

/-- The moves `ms`, one after the other, as long as they meet `ok`. -/
def moves (rx : Regex) (ok : Reloading → Move → Bool) (a : Reloading) : List Move → Option Reloading
  | [] => some a
  | m :: ms =>
      if ok a m then
        match a.next rx m with
        | .ok a' => a'.moves rx ok ms
        | .error _ => none
      else none

theorem run_of_moves {rx : Regex} {okb : Reloading → Move → Bool} {ok : Reloading → Move → Prop}
    {a a' : Reloading} {ms : List Move} (hok : ∀ a m, okb a m = true → ok a m)
    (h : a.moves rx okb ms = some a') : Run (reloading rx) ok a ms a' := by
  induction ms generalizing a with
  | nil =>
      cases h
      exact Run.nil _
  | cons m ms ih =>
      rw [moves] at h
      split_ifs at h with hm
      split at h
      · rename_i a₁ ha₁
        exact Run.cons (hok a m hm) ha₁ (ih h)
      · cases h

theorem moves_of_run {rx : Regex} {okb : Reloading → Move → Bool} {ok : Reloading → Move → Prop}
    {a a' : Reloading} {ms : List Move} (hok : ∀ a m, ok a m → okb a m = true)
    (h : Run (reloading rx) ok a ms a') : a.moves rx okb ms = some a' := by
  induction h with
  | nil a => rfl
  | cons hm hstep _ ih =>
      rw [moves, if_pos (hok _ _ hm), hstep]
      exact ih

end Reloading

/-- A test for requests that find their name in the table. -/
def foundB (a : Reloading) : Move → Bool
  | .callback => true
  | .request _ pPVName _ _ => decide (Server.recordName pPVName ≠ []) &&
      (a.server.dir.stringResTbl (Server.recordName pPVName)).isSome

theorem covered_of_foundB {rx : Regex} {a₀ a : Reloading} {p : PIoc} {m : Move}
    (h : foundB a m = true) : Covered rx a₀ p a m := by
  cases m with
  | callback => trivial
  | request client pPVName search now =>
      rw [foundB, Bool.and_eq_true, decide_eq_true_eq, Option.isSome_iff_ne_none] at h
      exact fun _ => Or.inr ⟨h.1, Or.inl h.2⟩

/-- A test for requests for `x` that leave the pending list as it is. -/
def pendingKeptB (rx : Regex) (a : Reloading) : Move → Bool
  | .callback => true
  | .request client pPVName search now => decide (Server.recordName pPVName ≠ ['x']) ||
      (a.server.pvExistTest rx client pPVName search now).toOption.all fun r =>
        decide (r.1.nameList = a.server.nameList)

theorem pendingKeptB_of_unnoticed {rx : Regex} (a₀ : Reloading) {a : Reloading} {p : PIoc}
    {m : Move} (hx : a₀.Stays p ['x']) (h : Unnoticed rx a₀ p a m) :
    pendingKeptB rx a m = true := by
  cases m with
  | callback => rfl
  | request client pPVName search now =>
      rw [pendingKeptB, Bool.or_eq_true, decide_eq_true_eq]
      by_cases hname : Server.recordName pPVName = ['x']
      · refine Or.inr ?_
        cases hs : a.server.pvExistTest rx client pPVName search now with
        | ok r => exact decide_eq_true (h (hname ▸ hx) r.1 r.2 hs).2.2.1
        | error => rfl
      · exact Or.inl hname

/-- The IOC of the small site comes back, with the list it had. -/
def comesBack (s : Server) : Reloading :=
  ⟨s, 0, ['A'] ++ heartbeat, connectionTo "a:2" 2 "A:heartbeat x", .removePending⟩

/-- It was up, and went down. -/
def wentDown : List Event := [.up 0 (connectionTo "a:1" 1 "A:heartbeat x"), .down 0 1]

def requestX : Move := .request [] ['x'] .normal 2

set_option maxRecDepth 10000 in
/-- Requests just before the drain takes the name out, and after the end. -/
theorem reload_unnoticed_outside : ∃ a₀ a p, (reloading literal).init a₀ ∧ a₀.Stays p ['x'] ∧
    (a.server.dir.pIocs 0).any (fun q => decide (q.status = 1)) = true ∧
    Run (reloading literal) (Unnoticed literal a₀ p) a₀
      (List.replicate 5 .callback ++ requestX :: List.replicate 11 .callback ++ [requestX]) a := by
  have hrun : (run literal (fun _ _ => true) oneIoc wentDown).any (fun s =>
      (s.dir.pIocs 0).any fun p => decide (p.status = 2) && decide (s.dir.owner ['x'] = some 0) &&
        decide (['x'] ∈ signals (comesBack s).cn.fs p.pathToList) &&
        ((comesBack s).moves literal foundB (List.replicate 5 .callback ++ requestX ::
          List.replicate 11 .callback ++ [requestX])).any fun a =>
            (a.server.dir.pIocs 0).any fun q => decide (q.status = 1)) = true := by decide +kernel
  obtain ⟨s, hs, hrun⟩ := (Option.any_eq_true _ _).mp hrun
  obtain ⟨p, hp, hrun⟩ := (Option.any_eq_true _ _).mp hrun
  simp only [Bool.and_eq_true, decide_eq_true_eq] at hrun
  obtain ⟨⟨⟨hdown, howner⟩, hlist⟩, hrun⟩ := hrun
  obtain ⟨a, ha, hup⟩ := (Option.any_eq_true _ _).mp hrun
  have hinit : (reloading literal).init (comesBack s) :=
    reloading_of_reachable (reachable_of_eq_some hs) hp hdown _ _
  exact ⟨comesBack s, a, p, hinit, ⟨howner, hlist⟩, hup, (reload_unnoticed_iff literal hinit hp).mp
    (Reloading.run_of_moves (fun _ _ => covered_of_foundB) ha)⟩

set_option maxRecDepth 10000 in
/-- A request in the gap: the drain has taken the name out, and it has not been read yet. -/
theorem reload_noticed_in_gap : ¬ ∀ (rx : Regex) (a₀ a : Reloading) (p : PIoc) (ms : List Move),
    (reloading rx).init a₀ → a₀.server.dir.pIocs a₀.pI = some p →
    Run (reloading rx) (fun _ _ => True) a₀ ms a →
    Run (reloading rx) (Unnoticed rx a₀ p) a₀ ms a := by
  intro h
  have hrun : (run literal (fun _ _ => true) oneIoc wentDown).any (fun s =>
      (s.dir.pIocs 0).any fun p => decide (p.status = 2) && decide (s.dir.owner ['x'] = some 0) &&
        decide (['x'] ∈ signals (comesBack s).cn.fs p.pathToList) &&
        ((comesBack s).moves literal (fun _ _ => true)
          (List.replicate 6 .callback ++ [requestX])).isSome &&
        ((comesBack s).moves literal (pendingKeptB literal)
          (List.replicate 6 .callback ++ [requestX])).isNone) = true := by decide
  obtain ⟨s, hs, hrun⟩ := (Option.any_eq_true _ _).mp hrun
  obtain ⟨p, hp, hrun⟩ := (Option.any_eq_true _ _).mp hrun
  simp only [Bool.and_eq_true, decide_eq_true_eq] at hrun
  obtain ⟨⟨⟨⟨hdown, howner⟩, hlist⟩, hsome⟩, hnone⟩ := hrun
  obtain ⟨a, ha⟩ := Option.isSome_iff_exists.mp hsome
  have hinit : (reloading literal).init (comesBack s) :=
    reloading_of_reachable (reachable_of_eq_some hs) hp hdown _ _
  have hun := h literal (comesBack s) a p _ hinit hp
    (Reloading.run_of_moves (fun _ _ _ => trivial) ha)
  have hkept := Reloading.moves_of_run
    (fun _ _ => pendingKeptB_of_unnoticed (comesBack s) ⟨howner, hlist⟩) hun
  rw [hkept] at hnone
  cases hnone

end CaNameserver
