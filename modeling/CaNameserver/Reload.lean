import CaNameserver.Agreement

/-!
# A reconnect loads exactly the new list

When the heartbeat of an IOC that was down comes back, the IOC's PVs are dropped and its signal
list is read again.  `kept` is the table in between, `T` below: without the PVs of the IOC, but
with its heartbeat.  What the reload makes of a name depends on `T` and on the list as a set, not
on the order of the names, on repetitions, or on how PVs are taken from other IOCs' lists:

* a listed name that is free in `T`, or belongs to an IOC that is down, goes to the IOC;
* a listed name of an IOC that is not down, and a name that is not listed, stays as in `T`.

## The two halves

The directory before the reload agrees with its lists (`Agrees`), so the removal, which goes over
the list, takes exactly the PVs of the IOC out of the table (`Agrees.sameEntry_removed`).  The
loop over the new list is described by the names read so far: a name that has been read belongs to
the IOC or to one that is not down, and one that has not is as in `T` (`addAllPvs_sameEntry`).
`Exact` is the whole, with the lists of the other IOCs: each loses what has been taken from it and
nothing else.

## Definedness

A reload can go wrong on strings only, where the lists agree with the table.  `Fits` is the
condition on the IOC: its name, its path, the name of its heartbeat and the names on its list fit
the buffers they are read into.  `WF.removeAllPvs_defined_iff` says exactly when a removal has an
outcome.

* `Agrees.exact`: what a reload does.
* `reconnect_exact`: a reconnect has an outcome, and it is this.
-/

namespace CaNameserver

open CStr Fallible Transition

namespace Dir

variable {d d' : Dir} {n m : Name} {i j : IocId} {p q : PIoc} {e : PvEId} {r : ℤ}

/-! ## The reload is defined -/

/-- What `remove_all_pvs` and `add_all_pvs` read of an IOC fits the buffers it is read from. -/
structure Fits (d : Dir) (p : PIoc) : Prop where
  heartbeat : p.heartbeatName.length < pvNameSz
  path : p.pathToList.length < pathNameSz - 1
  names : ∀ e ∈ p.pvEList, ∀ pv, d.pvEs e = some pv → pv.resourceName.length < pvNameSz - 1

theorem Fits.getPathToList (h : Fits d p) : p.getPathToList = .ok p.pathToList :=
  strncpy_eq_ok_iff.mpr ⟨h.path, rfl⟩

theorem checkStrOf_defined (hfit : p.heartbeatName.length < pvNameSz) (removeAll : Bool) :
    Defined (checkStrOf removeAll p.iocname) := by
  unfold checkStrOf
  split_ifs
  · exact .ok []
  · exact ⟨_, writeBuf_eq_ok_iff.mpr ⟨hfit, rfl⟩⟩

/-- **When a removal is defined**: where the entries of the list are live, their names have to fit
the buffer they are copied to. -/
theorem WF.removeAllPvs_defined_iff (hwf : WF d) (hp : d.pIocs i = some p)
    (hheart : p.heartbeatName.length < pvNameSz) (hpath : p.pathToList.length < pathNameSz - 1)
    (hlive : ∀ e ∈ p.pvEList, d.pvEs e ≠ none) :
    Defined (d.removeAllPvs i) ↔
      ∀ e ∈ p.pvEList, ∀ pv, d.pvEs e = some pv → pv.resourceName.length < pvNameSz - 1 := by
  have hget : p.getPathToList = .ok p.pathToList := strncpy_eq_ok_iff.mpr ⟨hpath, rfl⟩
  obtain ⟨checkStr, hcheck⟩ := checkStrOf_defined hheart p.pathToList.isEmpty
  have hcheck' := eq_heartbeatName_of_checkStrOf hcheck
  rw [Dir.removeAllPvs, getPIoc_eq_ok_iff.mpr hp, ok_bind]
  simp only [getIocname_of_heartbeat hheart, hget, ok_bind, hcheck]
  have hstep : ∀ pre e post (acc acc' : Dir × Option PvEId), p.pvEList = pre ++ e :: post →
      Removing d i p pre acc.1 acc.2 →
      removeBody p.pathToList.isEmpty checkStr acc e = .ok acc' →
      Removing d i p (pre ++ [e]) acc'.1 acc'.2 :=
    fun pre e post acc acc' hl hacc hbody => hacc.body hwf hp hl rfl hcheck' hbody
  have hbody : ∀ pre e post (acc : Dir × Option PvEId), p.pvEList = pre ++ e :: post →
      Removing d i p pre acc.1 acc.2 →
      (Defined (removeBody p.pathToList.isEmpty checkStr acc e) ↔
        ∀ pv, d.pvEs e = some pv → pv.resourceName.length < pvNameSz - 1) := by
    intro pre e post acc hl hacc
    -- the element is live: nothing before it on the list is the same
    obtain ⟨pv, hpv⟩ := Option.ne_none_iff_exists'.mp (hlive e (by simp [hl]))
    have hacc' : acc.1.pvEs e = some pv := (hacc.pvEs_of_mem hwf hp hl).trans hpv
    constructor
    · rintro ⟨acc', hbody⟩ pv' hpv'
      obtain ⟨pv'', hpv'', hlen, -⟩ := removeBody_eq_ok_iff.mp hbody
      cases hpv.symm.trans hpv'
      cases hacc'.symm.trans hpv''
      exact hlen
    · intro hlen
      exact ⟨_, removeBody_eq_ok_iff.mpr ⟨pv, hacc', hlen pv hpv, rfl⟩⟩
  have hloop := defined_foldlM_iff (P := fun l (acc : Dir × Option PvEId) =>
    Removing d i p l acc.1 acc.2) (b := (d.setPIoc i { p with pvEList := [] }, none))
    (Removing.start d i p) hstep hbody
  constructor
  · intro hd e he
    obtain ⟨acc, hacc, -⟩ := defined_bind_iff.mp hd
    obtain ⟨pre, post, hl⟩ := List.append_of_mem he
    exact hloop.mp ⟨acc, hacc⟩ pre e post hl
  · intro hnames
    refine Defined.bind (hloop.mpr fun pre e post hl => hnames e (by simp [hl])) fun acc hacc => ?_
    have hdone := foldlM_prefix_induct (P := fun l acc => Removing d i p l acc.1 acc.2) hacc
      (Removing.start d i p) hstep
    cases hhb : acc.2 with
    | none => exact .ok acc.1
    | some pve =>
        refine (getPIoc_defined (p := { p with pvEList := [] }) ?_).bind fun q _ => ⟨_, rfl⟩
        rw [hdone.pIocs, if_pos rfl]

theorem Fits.removeAllPvs_defined (h : Fits d p) (hwf : WF d) (hp : d.pIocs i = some p)
    (hlive : ∀ e ∈ p.pvEList, d.pvEs e ≠ none) : Defined (d.removeAllPvs i) :=
  (hwf.removeAllPvs_defined_iff hp h.heartbeat h.path hlive).mpr h.names

/-- Reading a list is defined where its names fit the buffer. -/
theorem Agrees.addAllPvs_defined (h : Agrees d) (hp : d.pIocs i = some p) (hfit : Fits d p)
    {fs : FileSystem}
    (htok : ∀ pf, fopen fs p.pathToList = some pf → ∀ token ∈ words pf, token.length < pvNameSz) :
    Defined (d.addAllPvs fs i) := by
  rw [Dir.addAllPvs]
  refine (getPIoc_defined hp).bind fun p' hp' => ?_
  rw [getPIoc_eq_ok_iff, hp] at hp'
  cases hp'
  simp only [hfit.getPathToList]
  refine (Defined.ok p.pathToList).bind fun path hpath => ?_
  cases hpath
  cases hopen : fopen fs p.pathToList with
  | none => exact .ok (d, -1)
  | some pf =>
      simp only [parseDirectoryFP]
      refine Defined.bind (Defined.foldlM
        (P := fun _ (acc : Dir × ℕ) => Agrees acc.1 ∧ acc.1.header = d.header) ⟨h, rfl⟩
        ?_ ?_) fun acc _ => ⟨_, rfl⟩
      · rintro pre token post acc acc' - ⟨hacc, hhead⟩ hbody
        simp only [parseBody, bind_eq_ok_iff] at hbody
        obtain ⟨_, -, ⟨d₁, r⟩, hinst, hbody⟩ := hbody
        cases hbody
        have hi := installPVName_installed hinst
        exact ⟨hacc.installed hi, hi.header.trans hhead⟩
      · rintro pre token post acc hl ⟨hacc, hhead⟩
        have hmem : token ∈ words pf := by simp [hl]
        have hp' := header_of_pIocs hp
        rw [← hhead] at hp'
        obtain ⟨q, hq, hqp⟩ := header_eq_some_iff.mp hp'
        have hname : q.heartbeatName = p.heartbeatName := by
          rw [PIoc.heartbeatName, PIoc.heartbeatName, (PIoc.eq_of_header hqp).1]
        rw [parseBody]
        have hlen := htok pf hopen token hmem
        refine Defined.bind ⟨_, writeBuf_eq_ok_iff.mpr ⟨hlen, rfl⟩⟩ fun _ _ => ?_
        exact (hacc.installPVName_defined hq (hname ▸ hfit.heartbeat) _).bind fun _ _ => ⟨_, rfl⟩

/-! ## The table in between -/

/-- The table without the PVs of the IOC at `i`, but with its heartbeat. -/
def kept (d : Dir) (i : IocId) (heartbeatName n : Name) : Option PvEId :=
  if d.owner n = some i ∧ n ≠ heartbeatName then none else d.stringResTbl n

/-- `remove_all_pvs` leaves this table. -/
theorem Agrees.sameEntry_removed (h : Agrees d) (hp : d.pIocs i = some p)
    (hpath : p.pathToList ≠ []) (hr : Removed d i p d') (n : Name) :
    SameEntry d (d.kept i p.heartbeatName) d' n := by
  have hlive : ∀ e, d'.stringResTbl n = some e → d'.pvEs e = d.pvEs e := by
    intro e he
    rw [hr.stringResTbl, Option.filter_eq_some_iff] at he
    rw [hr.pvEs, if_neg (by simpa using he.2)]
  have htab : d'.stringResTbl n = d.kept i p.heartbeatName n := by
    unfold kept
    split_ifs with hcond
    · exact (h.listed hcond.1 hp hpath).absent h.wf hp hr hcond.2
    · by_cases ho : d.owner n = some i
      · -- the heartbeat of the IOC is kept
        have hname : n = p.heartbeatName := by
          by_contra hne
          exact hcond ⟨ho, hne⟩
        obtain ⟨e, he, hpv⟩ := h.wf.owner_eq_some_iff.mp ho
        have hkeep : d.keeps p e = true := keeps_eq_true_iff.mpr ⟨_, hpv, hpath, hname⟩
        rw [hr.stringResTbl, he, Option.filter_some]
        simp [gone, hkeep]
      · exact (hr.owner_of_ne h.wf hp ho).1
  exact ⟨htab, fun e he => hlive e (htab.trans he)⟩

/-! ## The reload as a whole -/

/-- Learned IOCs have empty lists. -/
def LearnedEmpty (d : Dir) : Prop :=
  ∀ j q, d.pIocs j = some q → q.pathToList = [] → q.pvEList = []

/-- No name is on a list twice, or on two lists. -/
def NamesOnce (d : Dir) : Prop :=
  (∀ j q, d.pIocs j = some q → q.pvEList.Nodup) ∧
  ∀ j k q s e f x y, d.pIocs j = some q → d.pIocs k = some s → e ∈ q.pvEList → f ∈ s.pvEList →
    d.pvEs e = some x → d.pvEs f = some y → x.resourceName = y.resourceName → j = k ∧ e = f

theorem WF.namesOnce (h : WF d) : NamesOnce d := by
  refine ⟨h.nodup, fun j k q s e f x y hq hs he hf hx hy hname => ?_⟩
  obtain ⟨hxj, hxe⟩ := h.listed j q e x hq he hx
  obtain ⟨hyk, hyf⟩ := h.listed k s f y hs hf hy
  rw [hname, hyf] at hxe
  cases hxe
  rw [hx] at hy
  cases hy
  rw [hxj] at hyk
  exact ⟨Option.some.inj hyk, rfl⟩

theorem LearnedEmpty.installed (h : LearnedEmpty d) (hi : Installed d n i d' r)
    (hpath : ∀ p, d.pIocs i = some p → p.pathToList ≠ []) : LearnedEmpty d' := by
  have henter : ∀ {d p}, LearnedEmpty d → p.pathToList ≠ [] → LearnedEmpty (d.enter n i p) := by
    intro d p h hne j q hq hnil
    rw [enter_pIocs] at hq
    split_ifs at hq
    · cases hq
      exact absurd hnil hne
    · exact h j q hq hnil
  cases hi with
  | entered hp => exact henter h (hpath _ hp)
  | ownHeartbeat => exact h
  | @moved p q s e pv o hp _ _ _ _ hq _ hs =>
      refine henter (fun j t ht hnil => ?_) ?_
      · rw [takePV_pIocs _ _ _ _ _ _ hq] at ht
        split_ifs at ht with hj
        · cases ht
          have hqnil := h o q hq hnil
          simp [hqnil]
        · exact h j t ht hnil
      · rw [takePV_pIocs _ _ _ _ _ _ hq] at hs
        split_ifs at hs with hj
        · cases hs
          exact hpath q (hj ▸ hq)
        · exact hpath s hs
  | refused => exact h

/-- Only lists of IOCs with a signal list change in a reload. -/
theorem LearnedEmpty.setPIoc (h : LearnedEmpty d) (hpath : p.pathToList ≠ []) (i : IocId) :
    LearnedEmpty (d.setPIoc i p) := by
  intro j s hs hnil
  rw [setPIoc_pIocs] at hs
  split_ifs at hs
  · cases hs
    exact absurd hnil hpath
  · exact h j s hs hnil

theorem LearnedEmpty.removed (h : LearnedEmpty d) (hr : Removed d i p d')
    (hpath : p.pathToList ≠ []) : LearnedEmpty d' := by
  intro j s hs hnil
  rw [hr.pIocs] at hs
  split_ifs at hs
  · cases hs
    exact absurd hnil hpath
  · exact h j s hs hnil

theorem LearnedEmpty.addAllPvs {fs : FileSystem} (h : LearnedEmpty d)
    (ha : d.addAllPvs fs i = .ok (d', r)) (hp : d.pIocs i = some p) (hpath : p.pathToList ≠ []) :
    LearnedEmpty d' := by
  have hall : LearnedEmpty d' ∧ d'.header = d.header := by
    refine addAllPvs_induct (P := fun d' => LearnedEmpty d' ∧ d'.header = d.header) ha ⟨h, rfl⟩ ?_
    rintro p' hp' n hn d₁ d₂ r' ⟨h₁, hhead⟩ hi
    refine ⟨h₁.installed hi fun s hs => ?_, hi.header.trans hhead⟩
    have hsp := header_of_header hs ((congrFun hhead i).trans (header_of_pIocs hp))
    rw [(PIoc.eq_of_header hsp).2.1]
    exact hpath
  exact hall.1

/-- The directory `d'` is `d` with the list `l` loaded for the IOC `p` at `i`. -/
structure Exact (d : Dir) (i : IocId) (p : PIoc) (l : List Name) (d' : Dir) : Prop where
  up : ∃ q, d'.pIocs i = some q ∧ q.status = 1
  /-- what is listed, and free or of an IOC that is down -/
  taken : ∀ n ∈ l, n ≠ p.heartbeatName → d.kept i p.heartbeatName n = none ∨
    (∃ o q, d.ownerIn (d.kept i p.heartbeatName) n = some o ∧ d.pIocs o = some q ∧ q.status = 2) →
    d'.owner n = some i
  /-- what is listed, but of an IOC that is not down -/
  refused : ∀ n ∈ l, (∃ o q, d.ownerIn (d.kept i p.heartbeatName) n = some o ∧
    d.pIocs o = some q ∧ q.status ≠ 2) → SameEntry d (d.kept i p.heartbeatName) d' n
  heartbeat : d.kept i p.heartbeatName p.heartbeatName ≠ none →
    SameEntry d (d.kept i p.heartbeatName) d' p.heartbeatName
  unlisted : ∀ n, n ∉ l → SameEntry d (d.kept i p.heartbeatName) d' n
  agrees : Agrees d'
  learned : LearnedEmpty d'
  once : NamesOnce d'

/-- **What a reload does.** -/
theorem Agrees.exact (h : Agrees d) (hempty : LearnedEmpty d) {cn : Connection}
    (hp : d.pIocs i = some p) (hpath : p.pathToList ≠ []) (hst : p.status = 2)
    (hr : Reloaded d i cn d') : Exact d i p (signals cn.fs p.pathToList) d' := by
  obtain ⟨d₁, d₂, q, r, -, hrem, -, hadd, hq, rfl⟩ := hr.of_down h.wf hp hst
  have hA : Agrees (d.setPIoc i { p with addr := cn.addr p.addr }) :=
    h.setPIoc hp rfl rfl rfl fun hnil => absurd hnil hpath
  have hpA := setPIoc_pIocs_self d i { p with addr := cn.addr p.addr }
  have h₁ := hA.removed hpA hpath hrem
  have hp₁ := hrem.pIocs_self
  have h₂ := h₁.addAllPvs hadd
  have hqpath : q.pathToList = p.pathToList := by
    have hhead := (addAllPvs_header hadd).trans (hrem.header hpA)
    have hqp := header_of_header hq ((congrFun hhead i).trans (header_of_pIocs hpA))
    exact (PIoc.eq_of_header hqp).2.1
  have hfinal : Agrees (d₂.setPIoc i { q with status := 1 }) :=
    h₂.setPIoc hq rfl rfl rfl fun _ => rfl
  -- the table after the removal is `kept`, and the other IOCs are as before
  have hbetween : ∀ n, SameEntry d (d.kept i p.heartbeatName) d₁ n :=
    fun n => hA.sameEntry_removed hpA hpath hrem n
  have hstatus : ∀ o s, d.pIocs o = some s →
      ∃ s₁, d₁.pIocs o = some s₁ ∧ s₁.status = s.status := by
    intro o s hs
    rw [hrem.pIocs, setPIoc_pIocs]
    by_cases ho : o = i
    · subst ho
      rw [hp] at hs
      cases hs
      simp
    · rw [if_neg ho, if_neg ho]
      exact ⟨s, hs, rfl⟩
  have hsame : ∀ n, (n ∈ signals cn.fs p.pathToList →
      d₁.stringResTbl n ≠ none ∧ (n = p.heartbeatName ∨
        ∀ o s, d₁.owner n = some o → d₁.pIocs o = some s → s.status ≠ 2)) →
      SameEntry d (d.kept i p.heartbeatName) (d₂.setPIoc i { q with status := 1 }) n := by
    intro n hn
    have hloaded := (hbetween n).trans (addAllPvs_sameEntry h₁.wf hadd hp₁ hn)
    exact hloaded
  refine ⟨⟨_, setPIoc_pIocs_self .., rfl⟩, fun n hn hname hdown => ?_, fun n hn hup => ?_,
    fun hthere => hsame _ fun _ => ⟨?_, Or.inl rfl⟩,
    fun n hn => hsame n fun hmem => absurd hmem hn, hfinal, ?_, hfinal.wf.namesOnce⟩
  · have hlisted : d₁.OwnerDown n → d₂.owner n = some i := fun hdown =>
      (addAllPvs_listed h₁.wf hadd hp₁ hn hname hdown).owner h₂.wf
    refine hlisted fun o ho => ?_
    rw [(hbetween n).owner] at ho
    rcases hdown with hfree | ⟨o', s, ho', hs, hdown⟩
    · rw [ownerIn, hfree] at ho
      cases ho
    · rw [ho] at ho'
      cases ho'
      obtain ⟨s₁, hs₁, heq⟩ := hstatus o s hs
      exact ⟨s₁, hs₁, heq.trans hdown⟩
  · obtain ⟨o, s, ho, hs, hup⟩ := hup
    obtain ⟨s₁, hs₁, heq⟩ := hstatus o s hs
    have ho₁ : d₁.owner n = some o := (hbetween n).owner.trans ho
    refine hsame n fun _ => ⟨fun hfree => ?_, Or.inr fun o' s' ho' hs' => ?_⟩
    · rw [h₁.wf.owner_eq_none_iff.mpr hfree] at ho₁
      cases ho₁
    · rw [ho₁] at ho'
      cases ho'
      rw [hs₁] at hs'
      cases hs'
      exact heq.symm ▸ hup
  · rw [(hbetween _).1]
    exact hthere
  · have hempty₁ := (hempty.setPIoc (p := { p with addr := cn.addr p.addr }) hpath i).removed
      hrem hpath
    have hempty₂ := hempty₁.addAllPvs hadd hp₁ hpath
    exact hempty₂.setPIoc (p := { q with status := 1 }) (hqpath ▸ hpath) i

/-- The reload is defined where the strings of the IOC and the names of the new list fit. -/
theorem Agrees.wdReload_defined (h : Agrees d) {cn : Connection} (hp : d.pIocs i = some p)
    (hpath : p.pathToList ≠ []) (hfit : Fits d p)
    (htok : ∀ pf, fopen cn.fs p.pathToList = some pf → ∀ token ∈ words pf,
      token.length < pvNameSz) : Defined (Server.wdReload d i cn) := by
  rw [Server.wdReload]
  refine Defined.bind ⟨_, setAddr_eq_ok_iff.mpr ⟨p, hp, rfl⟩⟩ fun dA hdA => ?_
  obtain ⟨p', hp', rfl⟩ := setAddr_eq_ok_iff.mp hdA
  rw [hp] at hp'
  cases hp'
  have hpA := setPIoc_pIocs_self d i { p with addr := cn.addr p.addr }
  have hA : Agrees (d.setPIoc i { p with addr := cn.addr p.addr }) :=
    h.setPIoc hp rfl rfl rfl fun hnil => absurd hnil hpath
  refine (getPIoc_defined hpA).bind fun p' hp' => ?_
  split_ifs
  · exact ⟨_, setStatus_eq_ok_iff.mpr ⟨_, hpA, rfl⟩⟩
  · have hfitA : Fits (d.setPIoc i { p with addr := cn.addr p.addr })
        { p with addr := cn.addr p.addr } := ⟨hfit.heartbeat, hfit.path, hfit.names⟩
    have hlive : ∀ e ∈ p.pvEList, d.pvEs e ≠ none := fun e he =>
      h.wf.live_of_owns ((h.lists i p hp hpath e).mp he)
    refine (hfitA.removeAllPvs_defined hA.wf hpA hlive).bind fun d₁ hd₁ => ?_
    obtain ⟨p₁, hp₁, hrem⟩ := removeAllPvs_removed hA.wf hd₁
    rw [hpA] at hp₁
    cases hp₁
    have hp₁ := hrem.pIocs_self
    have h₁ := hA.removed hpA hpath hrem
    have hfit₁ : Fits d₁ { p with
        addr := cn.addr p.addr
        pvEList := p.pvEList.filter (Dir.keeps (d.setPIoc i { p with addr := cn.addr p.addr })
          { p with addr := cn.addr p.addr }) } := by
      refine ⟨hfit.heartbeat, hfit.path, fun e he pv hpv => ?_⟩
      rw [hrem.pvEs] at hpv
      split_ifs at hpv
      exact hfit.names e (List.mem_filter.mp he).1 pv hpv
    refine (h₁.addAllPvs_defined hp₁ hfit₁ htok).bind fun acc hacc => ?_
    obtain ⟨q, hq, -⟩ := header_eq_some_iff.mp
      ((congrFun (addAllPvs_header hacc) i).trans (header_of_pIocs hp₁))
    exact ⟨_, setStatus_eq_ok_iff.mpr ⟨q, hq, rfl⟩⟩
  · exact .ok _

end Dir

/-- **A reconnect loads exactly the new list.** -/
theorem reconnect_exact {s : Server} {c : Chid} {ch : Channel} {i : IocId} {p : PIoc}
    {cn : Connection} {pf : List Char} (h : s.dir.Agrees) (hempty : s.dir.LearnedEmpty)
    (hch : s.ca.chans c = some ch) (hpuser : ch.puser = some i) (hp : s.dir.pIocs i = some p)
    (hpath : p.pathToList ≠ []) (hst : p.status = 2) (hopen : fopen cn.fs p.pathToList = some pf)
    (htok : ∀ token ∈ words pf, token.length < 79) :
    (s.dir.Fits p → ch.name.length < 79 → ∃ s', s.wdConnUp c cn = .ok s') ∧
    ∀ s', s.wdConnUp c cn = .ok s' → s.dir.Exact i p ((words pf).map cstr) s'.dir := by
  constructor
  · intro hfit hname
    have htok' : ∀ pf', fopen cn.fs p.pathToList = some pf' → ∀ token ∈ words pf',
        token.length < pvNameSz := by
      intro pf' hpf' token htoken
      rw [hopen] at hpf'
      cases hpf'
      exact Nat.lt_succ_of_lt (htok token htoken)
    rw [Server.wdConnUp]
    refine Defined.bind ⟨ch, Ca.getChan_eq_ok_iff.mpr hch⟩ fun ch' hch' => ?_
    rw [Ca.getChan_eq_ok_iff, hch] at hch'
    cases hch'
    refine Defined.bind ⟨i, deref_eq_ok_iff.mpr hpuser⟩ fun i' hi' => ?_
    rw [deref_eq_ok_iff, hpuser] at hi'
    cases hi'
    refine Defined.bind ⟨_, strncpy_eq_ok_iff.mpr ⟨hname, rfl⟩⟩ fun pvname _ => ?_
    exact (h.wdReload_defined hp hpath hfit htok').bind fun _ _ => ⟨_, rfl⟩
  · intro s' hrun
    simp only [Server.wdConnUp, bind_eq_ok_iff] at hrun
    obtain ⟨ch', hch', i', hi', _, -, d', hreload, hs'⟩ := hrun
    rw [Ca.getChan_eq_ok_iff, hch] at hch'
    cases hch'
    rw [deref_eq_ok_iff, hpuser] at hi'
    cases hi'
    cases hs'
    have hsignals : signals cn.fs p.pathToList = (words pf).map cstr := by
      rw [signals, hopen]
    rw [← hsignals]
    exact h.exact hempty hp hpath hst (Dir.wdReload_reloaded h.wf hreload)

/-- The IOC of `handover` that is down, with the channel of its heartbeat. -/
def returning : Server where
  dir := handover
  nameList := [⟨['i'] ++ heartbeat, 0, 0, true⟩]
  neverResTbl := fun _ => none
  nsResTbl := []
  pgateAs := none
  stats := NsStats.zero
  connectedIocs := 0
  requestedIocs := 2
  ca := Ca.empty.setChan 0 ⟨['i'] ++ heartbeat, .WDprocessChangeConnectionEvent, some 0, none⟩

theorem handover_learnedEmpty : handover.LearnedEmpty := by
  have hcases : ∀ j q, handover.pIocs j = some q → q.pathToList = ['s'] ∨ q.pathToList = ['t'] := by
    intro j q hq
    rw [handover, Dir.setPIoc_pIocs] at hq
    split_ifs at hq
    · cases hq
      exact Or.inl rfl
    · rw [Dir.enter_pIocs] at hq
      split_ifs at hq
      rw [Dir.installIocName_pIocs rfl] at hq
      split_ifs at hq
      · cases hq
        exact Or.inr rfl
      · rw [Dir.installIocName_pIocs rfl] at hq
        split_ifs at hq
        · cases hq
          exact Or.inl rfl
        · cases hq
  intro j q hq hnil
  rcases hcases j q hq with h | h
  · rw [h] at hnil
    cases hnil
  · rw [h] at hnil
    cases hnil

/-- It comes back with another list. -/
theorem reconnect_exact_returning : ∃ p s', handover.pIocs 0 = some p ∧
    returning.wdConnUp 0 (connectionTo "h:1" 1 "y y z") = .ok s' ∧
    handover.Exact 0 p [['y'], ['y'], ['z']] s'.dir := by
  have hopen : fopen (connectionTo "h:1" 1 "y y z").fs ['s'] = some "y y z".toList := rfl
  obtain ⟨hdef, hexact⟩ := reconnect_exact (s := returning) (c := 0) (i := 0) handover_agrees
    handover_learnedEmpty rfl rfl rfl nofun rfl hopen (by decide)
  obtain ⟨s', hs'⟩ := hdef ⟨by decide, by decide, by decide⟩ (by decide)
  exact ⟨_, s', rfl, hs', hexact s' hs'⟩

end CaNameserver
