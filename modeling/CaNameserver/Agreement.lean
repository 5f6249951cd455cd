import CaNameserver.Integrity
import CaNameserver.Listed

/-!
# The PV table and the lists agree

An IOC that was loaded from a signal list knows its PVs twice: the table's entries point to it,
and it has them on a list of its own.  `Agrees` says that the two are the same set.  A learned IOC
has no use for a list, and is up as long as it has PVs.

## What the table owns

`Owns` is the table's side of the agreement: the entries that point to an IOC.  What insertion and
removal do to it is one equivalence each (`owns_enter`, `WF.owns_takePV`, `Removed.owns`).  With
these the agreement is kept by the small updates, a change of status, a new IOC, a new entry, an
entry taken from its owner, and so by insertion, by reading a list and by removal
(`Agrees.installed`, `Agrees.addAllPvs`, `Agrees.removed`).

## One insertion

An insertion looks up the name's entry, the entry's IOC and the IOC's list.  In a well-formed
directory the entry is there, and what is needed beyond that is the IOC (`OwnerThere`):
`WF.installPVName_defined_iff` is an equivalence, because the one way to lose an IOC while its
entries stay is the rejection of its list.

`TakenOver` has everything that has changed after a successful insertion: the name has a new
entry, at the head of the list of its new IOC; if it had an owner, that was down, and has lost the
old entry from its list; all else is as before.

* `installPVName_all_or_nothing`: an insertion either leaves everything as it was, or the IOC has
  taken the PV over, and the return code says which.
-/

namespace CaNameserver

open CStr Fallible

namespace Dir

/-- The entry at `e` is in the table, and points to the IOC at `i`. -/
def Owns (d : Dir) (i : IocId) (e : PvEId) : Prop :=
  ∃ n, d.stringResTbl n = some e ∧ d.owner n = some i

/-- The PV table and the lists agree. -/
structure Agrees (d : Dir) : Prop where
  wf : WF d
  /-- what is on the list of an IOC are the table's entries that point to it -/
  lists : ∀ i p, d.pIocs i = some p → p.pathToList ≠ [] → ∀ e, e ∈ p.pvEList ↔ d.Owns i e
  /-- the IOC of every PV is there -/
  owned : ∀ n i, d.owner n = some i → d.pIocs i ≠ none
  /-- a learned IOC is up -/
  learned : ∀ i p, d.pIocs i = some p → p.pathToList = [] → p.status = 1

variable {d d' : Dir} {n m : Name} {i j : IocId} {p q : PIoc} {e x : PvEId} {r : ℤ}

/-- An entry points to one IOC. -/
theorem WF.owns_inj (h : WF d) (hi : d.Owns i e) (hj : d.Owns j e) : i = j := by
  obtain ⟨n, hn, hni⟩ := hi
  obtain ⟨m, hm, hmj⟩ := hj
  rw [h.table_inj hn hm, hmj] at hni
  exact (Option.some.inj hni).symm

/-- An entry of the table is live. -/
theorem WF.live_of_owns (h : WF d) (hi : d.Owns i e) : d.pvEs e ≠ none := by
  obtain ⟨n, hn, -⟩ := hi
  obtain ⟨pv, he, -⟩ := h.table n e hn
  rw [he]
  exact Option.some_ne_none pv

/-- The PV of an IOC that has a signal list is on its list. -/
theorem Agrees.listed (h : Agrees d) (hn : d.owner n = some i) (hp : d.pIocs i = some p)
    (hpath : p.pathToList ≠ []) : d.Listed n i := by
  obtain ⟨e, he, -⟩ := h.wf.owner_eq_some_iff.mp hn
  exact ⟨e, p, he, hp, (h.lists i p hp hpath e).mpr ⟨n, he, hn⟩⟩

/-! ## What the table owns after an update -/

theorem owns_enter (h : WF d) (hn : d.stringResTbl n = none) :
    (d.enter n i p).Owns j e ↔ e = d.nextPvE ∧ j = i ∨ d.Owns j e := by
  constructor
  · rintro ⟨m, hm, ho⟩
    rw [enter_stringResTbl] at hm
    rw [h.owner_enter] at ho
    split_ifs at hm ho
    · exact Or.inl ⟨(Option.some.inj hm).symm, (Option.some.inj ho).symm⟩
    · exact Or.inr ⟨m, hm, ho⟩
  · rintro (⟨rfl, rfl⟩ | ⟨m, hm, ho⟩)
    · refine ⟨n, ?_, ?_⟩
      · rw [enter_stringResTbl, if_pos rfl]
      · rw [h.owner_enter, if_pos rfl]
    · have hmn : m ≠ n := by
        rintro rfl
        rw [hn] at hm
        cases hm
      refine ⟨m, ?_, ?_⟩
      · rw [enter_stringResTbl, if_neg hmn, hm]
      · rw [h.owner_enter, if_neg hmn, ho]

theorem WF.owns_takePV (h : WF d) (hn : d.stringResTbl n = some x) :
    (d.takePV n x i q).Owns j e ↔ e ≠ x ∧ d.Owns j e := by
  constructor
  · rintro ⟨m, hm, ho⟩
    rw [takePV_stringResTbl] at hm
    rw [h.owner_takePV hn] at ho
    split_ifs at hm ho with hmn
    refine ⟨?_, m, hm, ho⟩
    rintro rfl
    exact hmn (h.table_inj hm hn)
  · rintro ⟨hex, m, hm, ho⟩
    have hmn : m ≠ n := by
      rintro rfl
      rw [hn] at hm
      exact hex (Option.some.inj hm).symm
    refine ⟨m, ?_, ?_⟩
    · rw [takePV_stringResTbl, if_neg hmn, hm]
    · rw [h.owner_takePV hn, if_neg hmn, ho]

theorem Removed.owns (hr : Removed d i p d') :
    d'.Owns j e ↔ d.gone p p.pvEList e = false ∧ d.Owns j e := by
  have howner : ∀ m, d.stringResTbl m = some e → d.gone p p.pvEList e = false →
      d'.owner m = d.owner m := by
    intro m hm hgone
    unfold owner
    simp [hr.stringResTbl, hm, Option.filter_some, hgone, hr.pvEs]
  constructor
  · rintro ⟨m, hm, ho⟩
    rw [hr.stringResTbl, Option.filter_eq_some_iff] at hm
    have hgone : d.gone p p.pvEList e = false := by simpa using hm.2
    exact ⟨hgone, m, hm.1, (howner m hm.1 hgone).symm.trans ho⟩
  · rintro ⟨hgone, m, hm, ho⟩
    refine ⟨m, ?_, (howner m hm hgone).trans ho⟩
    rw [hr.stringResTbl, hm, Option.filter_some, hgone]
    rfl

/-! ## Updates keep the agreement -/

/-- A change of address or status keeps the agreement. -/
theorem Agrees.setPIoc (h : Agrees d) (hp : d.pIocs i = some p) (hname : q.iocname = p.iocname)
    (hpath : q.pathToList = p.pathToList) (hlist : q.pvEList = p.pvEList)
    (hst : p.pathToList = [] → q.status = 1) : Agrees (d.setPIoc i q) where
  wf := h.wf.setPIoc hp hname (hlist ▸ List.Sublist.refl _)
  lists := by
    intro j s hs hne e
    rw [setPIoc_pIocs] at hs
    split_ifs at hs with hj
    · cases hs
      rw [hlist, h.lists i p hp (hpath ▸ hne) e, hj]
      rfl
    · exact h.lists j s hs hne e
  owned := by
    intro m j ho
    rw [setPIoc_pIocs]
    split_ifs
    · exact Option.some_ne_none q
    · exact h.owned m j ho
  learned := by
    intro j s hs hnil
    rw [setPIoc_pIocs] at hs
    split_ifs at hs with hj
    · cases hs
      exact hst (hpath ▸ hnil)
    · exact h.learned j s hs hnil

theorem Agrees.empty : Agrees Dir.empty where
  wf := WF.empty
  lists := nofun
  owned := nofun
  learned := nofun

/-- A new IOC with a signal list has no PV yet. -/
theorem Agrees.installIocName (h : Agrees d) (name : Name) {path : Name} (hpath : path ≠ []) :
    Agrees (d.installIocName name path).1 := by
  cases hfree : d.iocResTbl name with
  | some k =>
      rw [Dir.installIocName, hfree]
      exact h
  | none =>
      have howns : ∀ j e, (d.installIocName name path).1.Owns j e ↔ d.Owns j e := by
        intro j e
        rw [Owns, Owns, owner_installIocName, Dir.installIocName, hfree]
      have hne : ∀ m j, d.owner m = some j → j ≠ d.nextPIoc := fun m j ho =>
        (h.wf.owner_lt_nextPIoc ho).ne
      refine ⟨h.wf.installIocName name path, fun j s hs hspath e => ?_, fun m j ho => ?_,
        fun j s hs hnil => ?_⟩
      · rw [installIocName_pIocs hfree] at hs
        rw [howns]
        split_ifs at hs with hj
        · cases hs
          constructor
          · intro hmem
            cases hmem
          · rintro ⟨m, -, ho⟩
            exact absurd hj (hne m j ho)
        · exact h.lists j s hs hspath e
      · rw [owner_installIocName] at ho
        rw [installIocName_pIocs hfree, if_neg (hne m j ho)]
        exact h.owned m j ho
      · rw [installIocName_pIocs hfree] at hs
        split_ifs at hs
        · cases hs
          exact absurd hnil hpath
        · exact h.learned j s hs hnil

/-- Entering a free name keeps the agreement. -/
theorem Agrees.enter (h : Agrees d) (hp : d.pIocs i = some p) (hn : d.stringResTbl n = none) :
    Agrees (d.enter n i p) where
  wf := h.wf.enter hp hn
  lists := by
    intro j s hs hne e
    rw [enter_pIocs] at hs
    rw [owns_enter h.wf hn]
    split_ifs at hs with hj
    · cases hs
      subst hj
      rw [List.mem_cons, h.lists j p hp hne e]
      simp
    · rw [h.lists j s hs hne e]
      simp [hj]
  owned := by
    intro m j ho
    rw [h.wf.owner_enter] at ho
    rw [enter_pIocs]
    split_ifs with hj
    · simp
    · split_ifs at ho
      · exact absurd (Option.some.inj ho).symm hj
      · exact h.owned m j ho
  learned := by
    intro j s hs hnil
    rw [enter_pIocs] at hs
    split_ifs at hs with hj
    · cases hs
      exact h.learned i p hp hnil
    · exact h.learned j s hs hnil

/-- Taking a PV from its owner keeps the agreement: the list loses the entry with the table. -/
theorem Agrees.takePV (h : Agrees d) {pv : PvE} (hn : d.stringResTbl n = some x)
    (hx : d.pvEs x = some pv) (ho : pv.pI = some i) (hq : d.pIocs i = some q) :
    Agrees (d.takePV n x i q) where
  wf := h.wf.takePV hn hx ho hq
  lists := by
    intro j s hs hne e
    have hown : d.Owns i x := ⟨n, hn, (owner_of_entry hn hx).trans ho⟩
    rw [takePV_pIocs _ _ _ _ _ _ hq] at hs
    rw [h.wf.owns_takePV hn]
    split_ifs at hs with hj
    · cases hs
      subst hj
      rw [(h.wf.nodup j q hq).mem_erase_iff, h.lists j q hq hne e]
    · rw [h.lists j s hs hne e]
      refine ⟨fun he => ⟨?_, he⟩, fun he => he.2⟩
      rintro rfl
      exact hj (h.wf.owns_inj he hown)
  owned := by
    intro m j hm
    rw [h.wf.owner_takePV hn] at hm
    rw [takePV_pIocs _ _ _ _ _ _ hq]
    split_ifs at hm
    split_ifs
    · simp
    · exact h.owned m j hm
  learned := by
    intro j s hs hnil
    rw [takePV_pIocs _ _ _ _ _ _ hq] at hs
    split_ifs at hs with hj
    · cases hs
      exact h.learned i q hq hnil
    · exact h.learned j s hs hnil

/-- **Insertion keeps the agreement**, whatever its outcome. -/
theorem Agrees.installed (h : Agrees d) (hi : Installed d n i d' r) : Agrees d' := by
  cases hi with
  | entered hp hn => exact h.enter hp hn
  | ownHeartbeat => exact h
  | moved hp hn _ he ho hq _ hp' =>
      refine (h.takePV hn he ho hq).enter hp' ?_
      rw [takePV_stringResTbl, if_pos rfl]
  | refused => exact h

theorem Agrees.addAllPvs (h : Agrees d) {fs : FileSystem} (ha : d.addAllPvs fs i = .ok (d', r)) :
    Agrees d' :=
  addAllPvs_induct ha h fun _ _ _ _ _ _ _ hd hi => hd.installed hi

/-- Removal keeps the agreement. -/
theorem Agrees.removed (h : Agrees d) (hp : d.pIocs i = some p) (hpath : p.pathToList ≠ [])
    (hr : Removed d i p d') : Agrees d' where
  wf := h.wf.removed hp hr
  lists := by
    intro j s hs hne e
    rw [hr.pIocs] at hs
    rw [hr.owns]
    split_ifs at hs with hj
    · cases hs
      subst hj
      rw [List.mem_filter, ← h.lists j p hp hpath e]
      simp only [gone, Bool.and_eq_false_iff, decide_eq_false_iff_not, Bool.not_eq_false']
      tauto
    · rw [h.lists j s hs hne e]
      refine ⟨fun he => ⟨?_, he⟩, fun he => he.2⟩
      have hmem : e ∉ p.pvEList := fun hmem =>
        hj (h.wf.owns_inj he ((h.lists i p hp hpath e).mp hmem))
      simp [gone, hmem]
  owned := by
    intro m j hm
    rw [hr.pIocs]
    split_ifs
    · simp
    · rcases hr.owner_mono (n := m) with hsame | hnone
      · exact h.owned m j (hsame ▸ hm)
      · rw [hnone] at hm
        cases hm
  learned := by
    intro j s hs hnil
    rw [hr.pIocs] at hs
    split_ifs at hs with hj
    · cases hs
      exact absurd hnil hpath
    · exact h.learned j s hs hnil

/-! ## One insertion -/

theorem getPIoc_defined (hp : d.pIocs i = some p) : Defined (d.getPIoc i) :=
  ⟨p, getPIoc_eq_ok_iff.mpr hp⟩

theorem tblAdd_add_defined (hp : d.pIocs i = some p) : Defined ((d.tblAdd n i).add i d.nextPvE) :=
  ⟨d.enter n i p, tblAdd_add.mpr ⟨p, hp, rfl⟩⟩

/-- The IOC that has the PV, if one has, has not been deleted. -/
def OwnerThere (d : Dir) (n : Name) : Prop := ∀ o, d.owner n = some o → d.pIocs o ≠ none

/-- The string that an IOC is asked for its name into is the name. -/
theorem getIocname_of_heartbeat (hfit : p.heartbeatName.length < pvNameSz) :
    p.getIocname = .ok p.iocname := by
  rw [PIoc.heartbeatName, List.length_append] at hfit
  exact strncpy_eq_ok_iff.mpr
    ⟨Nat.lt_of_lt_of_le (Nat.lt_sub_of_add_lt hfit) (by decide), rfl⟩

/-- An insertion over an entry goes through if the IOC of the entry is there. -/
theorem takePV_tblAdd_defined (hp : d.pIocs i = some p) {e : PvEId} {o : IocId} {q : PIoc}
    (hq : d.pIocs o = some q) :
    Defined (((d.takePV n e o q).tblAdd n i).add i (d.takePV n e o q).nextPvE) := by
  obtain ⟨s, hs⟩ : ∃ s, (d.takePV n e o q).pIocs i = some s := by
    rw [takePV_pIocs _ _ _ _ _ _ hq]
    split_ifs
    · exact ⟨_, rfl⟩
    · exact ⟨p, hp⟩
  exact tblAdd_add_defined hs

/-- **When an insertion is defined**: the entry it looks at is live, so what it needs is the IOC of
that entry; and for the own heartbeat not even this. -/
theorem WF.installPVName_defined_iff (h : WF d) (hp : d.pIocs i = some p)
    (hfit : p.heartbeatName.length < pvNameSz) (n : Name) :
    Defined (d.installPVName n i) ↔ (n ≠ p.heartbeatName → d.OwnerThere n) := by
  rw [installPVName, getPIoc_eq_ok_iff.mpr hp, ok_bind]
  cases hn : d.stringResTbl n with
  | none =>
      refine iff_of_true ((tblAdd_add_defined hp).bind fun d' _ => .ok (d', 0)) fun _ o ho => ?_
      rw [h.owner_eq_none_iff.mpr hn] at ho
      cases ho
  | some e =>
      obtain ⟨pv, he, -⟩ := h.table n e hn
      obtain ⟨o, ho, -⟩ := h.owner_lt e pv he
      have howner : d.owner n = some o := (owner_of_entry hn he).trans ho
      have hcheck : writeBuf pvNameSz (p.iocname ++ heartbeat) = .ok p.heartbeatName :=
        writeBuf_eq_ok_iff.mpr ⟨hfit, rfl⟩
      simp only [getIocname_of_heartbeat hfit, ok_bind, hcheck]
      split_ifs with heq
      · exact iff_of_true (.ok (d, 1)) fun hne => absurd heq.symm hne
      · rw [getPvE_eq_ok_iff.mpr he, ok_bind]
        simp only [ho]
        cases hq : d.pIocs o with
        | none =>
            refine iff_of_false ?_ fun hthere => hthere (Ne.symm heq) o howner hq
            rintro ⟨x, hx⟩
            obtain ⟨q, hget, -⟩ := bind_eq_ok_iff.mp hx
            rw [getPIoc_eq_ok_iff, hq] at hget
            cases hget
        | some q =>
            refine iff_of_true ?_ fun _ o' ho' => ?_
            · rw [getPIoc_eq_ok_iff.mpr hq, ok_bind]
              split_ifs
              · exact (takePV_tblAdd_defined hp hq).bind fun d' _ => .ok (d', 0)
              · exact .ok (d, -1)
            · rw [howner] at ho'
              cases ho'
              rw [hq]
              exact Option.some_ne_none q

theorem Agrees.installPVName_defined (h : Agrees d) (hp : d.pIocs i = some p)
    (hfit : p.heartbeatName.length < pvNameSz) (n : Name) : Defined (d.installPVName n i) :=
  (h.wf.installPVName_defined_iff hp hfit n).mpr fun _ o => h.owned n o

/-- A list without the entry of a PV. -/
def off (d : Dir) (n : Name) (l : List PvEId) : List PvEId :=
  match d.stringResTbl n with
  | none => l
  | some e => l.erase e

/-- The PV `n` has a new entry, at `e`, of the IOC at `i`, and nothing else has changed but that an
IOC which was down may have lost the old one. -/
structure TakenOver (d : Dir) (n : Name) (i : IocId) (e : PvEId) (d' : Dir) : Prop where
  fresh : d.pvEs e = none
  entry : d'.stringResTbl n = some e
  owned : d'.pvEs e = some ⟨n, some i⟩
  /-- at the head of the list, which has lost the old entry if it had it -/
  again : d.owner n = some i → ∃ p, d.pIocs i = some p ∧ p.status = 2 ∧
    (∃ x ∈ p.pvEList, d.stringResTbl n = some x) ∧
    d'.pIocs i = some { p with pvEList := e :: d.off n p.pvEList }
  /-- at the head of the list, as it was before -/
  head : d.owner n ≠ some i → ∃ p, d.pIocs i = some p ∧
    d'.pIocs i = some { p with pvEList := e :: p.pvEList }
  /-- the IOC that had the PV was down, and its list has lost the entry -/
  loser : ∀ o, d.owner n = some o → o ≠ i → ∃ q, d.pIocs o = some q ∧ q.status = 2 ∧
    (∃ x ∈ q.pvEList, d.stringResTbl n = some x) ∧
    d'.pIocs o = some { q with pvEList := d.off n q.pvEList }
  others : ∀ j, j ≠ i → d.owner n ≠ some j → d'.pIocs j = d.pIocs j
  names : ∀ m, m ≠ n → SameEntry d d.stringResTbl d' m
  iocs : d'.iocResTbl = d.iocResTbl

/-- A free name is taken over from nobody. -/
theorem Agrees.takenOver_enter (h : Agrees d) (hp : d.pIocs i = some p)
    (hn : d.stringResTbl n = none) : TakenOver d n i d.nextPvE (d.enter n i p) := by
  have hfree : ∀ o, d.owner n ≠ some o := by
    intro o ho
    rw [h.wf.owner_eq_none_iff.mpr hn] at ho
    cases ho
  refine ⟨?_, ?_, ?_, fun ho => absurd ho (hfree i), fun _ => ⟨p, hp, ?_⟩,
    fun o ho => absurd ho (hfree o), fun j hj _ => ?_,
    fun m hm => (Installed.entered hp hn).sameEntry_of_ne h.wf hm, rfl⟩
  · cases he : d.pvEs d.nextPvE with
    | none => rfl
    | some pv => exact absurd (h.wf.pvEs_lt _ pv he) (lt_irrefl _)
  · rw [enter_stringResTbl, if_pos rfl]
  · rw [enter_pvEs, if_pos rfl]
  · rw [enter_pIocs, if_pos rfl]
  · rw [enter_pIocs, if_neg hj]

/-- A PV is taken over from the IOC that is down. -/
theorem Agrees.takenOver_moved (h : Agrees d) {pv : PvE} {s : PIoc} (hs : d.pIocs i = some s)
    (hname : n ≠ s.heartbeatName) (hn : d.stringResTbl n = some x) (hx : d.pvEs x = some pv)
    (ho : pv.pI = some j) (hq : d.pIocs j = some q) (hdown : q.status = 2)
    (hp : (d.takePV n x j q).pIocs i = some p) :
    TakenOver d n i d.nextPvE ((d.takePV n x j q).enter n i p) := by
  have hown : d.owner n = some j := (owner_of_entry hn hx).trans ho
  have hmem : x ∈ q.pvEList := by
    refine (h.lists j q hq ?_ x).mpr ⟨n, hn, hown⟩
    intro hnil
    rw [h.learned j q hq hnil] at hdown
    cases hdown
  have htaken := h.takePV hn hx ho hq
  have hnext : (d.takePV n x j q).nextPvE = d.nextPvE := takePV_nextPvE ..
  have hnew : TakenOver (d.takePV n x j q) n i d.nextPvE ((d.takePV n x j q).enter n i p) := by
    rw [← hnext]
    refine htaken.takenOver_enter hp ?_
    rw [takePV_stringResTbl, if_pos rfl]
  have hfree : (d.takePV n x j q).owner n ≠ some i := by
    rw [h.wf.owner_takePV hn, if_pos rfl]
    intro ho
    cases ho
  have hoff : ∀ l, d.off n l = l.erase x := by
    intro l
    rw [off, hn]
  obtain ⟨p', hp', henter⟩ := hnew.head hfree
  rw [hp] at hp'
  cases hp'
  refine ⟨?_, hnew.entry, hnew.owned, fun hoi => ?_, fun hoi => ?_, fun o hoo hoi => ?_,
    fun k hk hko => ?_, fun m hm =>
      (Installed.moved hs hn hname hx ho hq hdown hp).sameEntry_of_ne h.wf hm, ?_⟩
  · cases he : d.pvEs d.nextPvE with
    | none => rfl
    | some pv => exact absurd (h.wf.pvEs_lt _ pv he) (lt_irrefl _)
  · rw [hown] at hoi
    cases hoi
    rw [takePV_pIocs _ _ _ _ _ _ hq, if_pos rfl] at hp
    cases hp
    exact ⟨q, hq, hdown, ⟨x, hmem, hn⟩, by rw [henter, hoff]⟩
  · have hij : i ≠ j := by
      rintro rfl
      exact hoi hown
    rw [takePV_pIocs _ _ _ _ _ _ hq, if_neg hij] at hp
    exact ⟨p, hp, henter⟩
  · rw [hown] at hoo
    cases hoo
    refine ⟨q, hq, hdown, ⟨x, hmem, hn⟩, ?_⟩
    rw [enter_pIocs, if_neg hoi, takePV_pIocs _ _ _ _ _ _ hq, if_pos rfl, hoff]
  · have hkj : k ≠ j := by
      rintro rfl
      exact hko hown
    rw [enter_pIocs, if_neg hk, takePV_pIocs _ _ _ _ _ _ hq, if_neg hkj]
  · rw [enter_iocResTbl, takePV_iocResTbl]

end Dir

/-- **Insertion is all or nothing.**  For an IOC whose heartbeat's name fits its buffer it is
defined and keeps the agreement; it returns 1 for the IOC's own heartbeat and -1 for a PV whose
owner is not down, and changes nothing then; otherwise it returns 0 and the IOC has taken the PV
over. -/
theorem installPVName_all_or_nothing {d : Dir} {i : IocId} {p : PIoc} (h : d.Agrees)
    (hp : d.pIocs i = some p) (hfit : p.heartbeatName.length < pvNameSz) (n : Name) :
    ∃ d' r, d.installPVName n i = .ok (d', r) ∧ d'.Agrees ∧ (r = 0 ∨ r = 1 ∨ r = -1) ∧
      (r = 0 → ∃ e, d.TakenOver n i e d') ∧ (r = 1 ∨ r = -1 → d' = d) ∧
      (r = 1 ↔ d.stringResTbl n ≠ none ∧ n = p.heartbeatName) ∧
      (r = -1 ↔ d.stringResTbl n ≠ none ∧ n ≠ p.heartbeatName ∧
        ∀ o q, d.owner n = some o → d.pIocs o = some q → q.status ≠ 2) := by
  obtain ⟨⟨d', r⟩, hrun⟩ := h.installPVName_defined hp hfit n
  have hi := Dir.installPVName_installed hrun
  refine ⟨d', r, hrun, h.installed hi, ?_⟩
  cases hi with
  | entered hp' hn => simpa [hn] using ⟨_, h.takenOver_enter hp' hn⟩
  | ownHeartbeat hp' hn hname =>
      rw [hp] at hp'
      cases hp'
      subst hname
      simp [hn]
  | @moved p' q s e pv o hp' hn hname he ho hq hdown hs =>
      rw [hp] at hp'
      cases hp'
      have hown : d.owner n = some o := (Dir.owner_of_entry hn he).trans ho
      simpa [hn, hname, hown, hq, hdown] using ⟨_, h.takenOver_moved hp hname hn he ho hq hdown hs⟩
  | @refused p' e pv hp' hn hname he hup =>
      rw [hp] at hp'
      cases hp'
      have hall : ∀ o q, d.owner n = some o → d.pIocs o = some q → q.status ≠ 2 := by
        intro o q hown hq
        rw [Dir.owner_of_entry hn he] at hown
        exact hup o q hown hq
      simpa [hn, hname] using hall

/-- Two IOCs with signal lists, of which the first has a PV and is down. -/
def handover : Dir :=
  let d := ((Dir.empty.installIocName ['i'] ['s']).1.installIocName ['j'] ['t']).1
  (d.enter ['x'] 0 ⟨['i'], ['s'], 0, SockAddr.zero, []⟩).setPIoc 0
    ⟨['i'], ['s'], 2, SockAddr.zero, [0]⟩

theorem handover_agrees : handover.Agrees := by
  have hs : (['s'] : Name) ≠ [] := nofun
  have ht : (['t'] : Name) ≠ [] := nofun
  have h := (Dir.Agrees.empty.installIocName ['i'] hs).installIocName ['j'] ht
  exact (h.enter (n := ['x']) (i := 0) rfl rfl).setPIoc (i := 0) rfl rfl rfl rfl nofun

/-- The second IOC takes the PV over. -/
theorem installPVName_all_or_nothing_handover : ∃ d' e,
    handover.installPVName ['x'] 1 = .ok (d', 0) ∧ d'.Agrees ∧ handover.TakenOver ['x'] 1 e d' := by
  obtain ⟨d', r, hrun, hagree, hr, hzero, -, hone, hneg⟩ :=
    installPVName_all_or_nothing handover_agrees (i := 1) rfl (by decide) ['x']
  have hr1 : r ≠ 1 := fun h => absurd (hone.mp h).2 (by decide)
  have hr2 : r ≠ -1 := fun h => (hneg.mp h).2.2 0 _ rfl rfl rfl
  obtain rfl : r = 0 := by
    rcases hr with h | h | h
    · exact h
    · exact absurd h hr1
    · exact absurd h hr2
  obtain ⟨e, he⟩ := hzero rfl
  exact ⟨d', e, hrun, hagree, he⟩

end CaNameserver
