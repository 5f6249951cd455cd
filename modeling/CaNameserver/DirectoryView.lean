import CaNameserver.DirectorySpec

/-!
# Headers and owners

Most properties of the server look at the directory from one of two sides, and either is blind to
most of what the functions do.

## Headers

`header d i` is the IOC at `i` without its list, that is its name, path, status and address, and
`site d i` its name and path alone.  Insertions and removals never change a header
(`Installed.header`, `Removed.header`), and so neither does reading a list (`addAllPvs_header`):
an IOC changes when it is entered, when it connects or disconnects, and when it is deleted.

## Owners

`owner d n` is the IOC that the entry of the PV `n` points to, if the name has an entry.  An
insertion changes the owner of the inserted name only (`Installed.owner_of_ne`), and gives it to
the IOC or leaves it (`Installed.owner_self`); a removal changes the owners of the IOC's own PVs
only (`Removed.owner_of_ne`), and never gives one to anybody (`Removed.owner_mono`).  In a
well-formed directory two names have different entries, so that an entry can be deleted with its
name (`WF.owner_forget`).

## Entries

`SameEntry` compares the entries themselves, with those of another directory and a table that has
some of its names.  Reading a list leaves those entries alone that it cannot take: those that are
the IOC's own heartbeat, or of an IOC that is not down (`addAllPvs_sameEntry`).  With this the
loop over a list can be followed without its order.
-/

namespace CaNameserver

open CStr Fallible

/-- A `pIoc` without its list. -/
def PIoc.header (p : PIoc) : PIoc := { p with pvEList := [] }

theorem PIoc.eq_of_header {p q : PIoc} (h : p.header = q.header) : p.iocname = q.iocname ∧
    p.pathToList = q.pathToList ∧ p.status = q.status ∧ p.addr = q.addr := by
  obtain ⟨_, _, _, _, _⟩ := p
  obtain ⟨_, _, _, _, _⟩ := q
  cases h
  exact ⟨rfl, rfl, rfl, rfl⟩

namespace Dir

/-- The IOC at an address, without its list. -/
def header (d : Dir) (i : IocId) : Option PIoc := (d.pIocs i).map PIoc.header

/-- The name and the path of the IOC at an address. -/
def site (d : Dir) (i : IocId) : Option (Name × Name) :=
  (d.pIocs i).map fun p => (p.iocname, p.pathToList)

/-- The IOC that the entry of a PV points to. -/
def owner (d : Dir) (n : Name) : Option IocId := ((d.stringResTbl n).bind d.pvEs).bind PvE.pI

theorem header_of_pIocs {d : Dir} {i : IocId} {p : PIoc} (hp : d.pIocs i = some p) :
    d.header i = some p.header := by
  rw [header, hp]
  rfl

theorem header_of_header {d : Dir} {i : IocId} {p h : PIoc} (hp : d.pIocs i = some p)
    (hh : d.header i = some h) : p.header = h := by
  rw [header_of_pIocs hp] at hh
  exact Option.some.inj hh

theorem header_eq_some_iff {d : Dir} {i : IocId} {h : PIoc} :
    d.header i = some h ↔ ∃ p, d.pIocs i = some p ∧ p.header = h := by
  rw [header, Option.map_eq_some_iff]

theorem header_eq_none_iff {d : Dir} {i : IocId} : d.header i = none ↔ d.pIocs i = none := by
  rw [header, Option.map_eq_none_iff]

theorem site_of_pIocs {d : Dir} {i : IocId} {p : PIoc} (hp : d.pIocs i = some p) :
    d.site i = some (p.iocname, p.pathToList) := by
  rw [site, hp]
  rfl

theorem site_eq_some_iff {d : Dir} {i : IocId} {name path : Name} :
    d.site i = some (name, path) ↔
      ∃ p, d.pIocs i = some p ∧ p.iocname = name ∧ p.pathToList = path := by
  simp [site]

theorem site_eq_header (d : Dir) (i : IocId) :
    d.site i = (d.header i).map fun p => (p.iocname, p.pathToList) := by
  unfold site header
  rw [Option.map_map]
  rfl

/-! ## Headers -/

theorem header_setPIoc (d : Dir) (i j : IocId) (p : PIoc) :
    (d.setPIoc i p).header j = if j = i then some p.header else d.header j := by
  unfold header
  rw [setPIoc_pIocs]
  split_ifs <;> rfl

/-- Rewriting the list of a `pIoc` leaves all headers as they are. -/
theorem header_of_relist {d d' : Dir} {i : IocId} {p : PIoc} {l : List PvEId}
    (hp : d.pIocs i = some p)
    (h : ∀ j, d'.pIocs j = if j = i then some { p with pvEList := l } else d.pIocs j) :
    d'.header = d.header := by
  funext j
  rw [header, header, h]
  split_ifs with hj
  · rw [hj, hp]
    rfl
  · rfl

theorem Installed.header {d d' : Dir} {n : Name} {i : IocId} {r : ℤ}
    (h : Installed d n i d' r) : d'.header = d.header := by
  cases h with
  | entered hp hn => exact header_of_relist hp (enter_pIocs d n i · _)
  | ownHeartbeat => rfl
  | moved hp hn hname he ho hq hdown hp' =>
      rw [header_of_relist hp' (enter_pIocs _ n i · _)]
      exact header_of_relist hq (takePV_pIocs d n _ · _ _ hq)
  | refused => rfl

theorem Removed.header {d d' : Dir} {i : IocId} {p : PIoc} (h : Removed d i p d')
    (hp : d.pIocs i = some p) : d'.header = d.header :=
  header_of_relist hp h.pIocs

theorem addAllPvs_header {fs : FileSystem} {d d' : Dir} {i : IocId} {r : ℤ}
    (h : d.addAllPvs fs i = .ok (d', r)) : d'.header = d.header :=
  addAllPvs_induct (P := fun d' => d'.header = d.header) h rfl
    fun _ _ _ _ _ _ _ hP hi => hi.header.trans hP

theorem Installed.iocResTbl {d d' : Dir} {n : Name} {i : IocId} {r : ℤ}
    (h : Installed d n i d' r) : d'.iocResTbl = d.iocResTbl := by
  cases h with
  | entered => rfl
  | ownHeartbeat => rfl
  | moved => rw [enter_iocResTbl, takePV_iocResTbl]
  | refused => rfl

theorem Installed.nextPIoc {d d' : Dir} {n : Name} {i : IocId} {r : ℤ}
    (h : Installed d n i d' r) : d'.nextPIoc = d.nextPIoc := by
  cases h with
  | entered => rfl
  | ownHeartbeat => rfl
  | moved => rw [enter_nextPIoc, takePV_nextPIoc]
  | refused => rfl

theorem addAllPvs_nextPIoc {fs : FileSystem} {d d' : Dir} {i : IocId} {r : ℤ}
    (h : d.addAllPvs fs i = .ok (d', r)) : d'.nextPIoc = d.nextPIoc :=
  addAllPvs_induct (P := fun d' => d'.nextPIoc = d.nextPIoc) h rfl
    fun _ _ _ _ _ _ _ hP hi => hi.nextPIoc.trans hP

/-! ## Owners -/

@[simp] theorem owner_setPIoc (d : Dir) (i : IocId) (p : PIoc) :
    (d.setPIoc i p).owner = d.owner := rfl

@[simp] theorem owner_installIocName (d : Dir) (name path : Name) :
    (d.installIocName name path).1.owner = d.owner := by
  unfold installIocName
  split <;> rfl

theorem WF.owner_eq_none_iff {d : Dir} (h : WF d) {n : Name} :
    d.owner n = none ↔ d.stringResTbl n = none := by
  unfold owner
  cases hn : d.stringResTbl n with
  | none => simp
  | some e =>
      obtain ⟨pv, he, -⟩ := h.table n e hn
      obtain ⟨i, hi, -⟩ := h.owner_lt e pv he
      simp [he, hi]

theorem owner_of_entry {d : Dir} {n : Name} {e : PvEId} {pv : PvE}
    (hn : d.stringResTbl n = some e) (he : d.pvEs e = some pv) : d.owner n = pv.pI := by
  simp [owner, hn, he]

theorem WF.owner_eq_some_iff {d : Dir} (h : WF d) {n : Name} {i : IocId} :
    d.owner n = some i ↔ ∃ e, d.stringResTbl n = some e ∧ d.pvEs e = some ⟨n, some i⟩ := by
  constructor
  · intro ho
    cases hn : d.stringResTbl n with
    | none =>
        rw [h.owner_eq_none_iff.mpr hn] at ho
        cases ho
    | some e =>
        obtain ⟨pv, he, hname⟩ := h.table n e hn
        rw [owner_of_entry hn he] at ho
        refine ⟨e, rfl, ?_⟩
        rw [he, ← ho, ← hname]
  · rintro ⟨e, hn, he⟩
    exact owner_of_entry hn he

theorem WF.owner_lt_nextPIoc {d : Dir} (h : WF d) {n : Name} {i : IocId}
    (ho : d.owner n = some i) : i < d.nextPIoc := by
  obtain ⟨e, -, he⟩ := h.owner_eq_some_iff.mp ho
  obtain ⟨j, hj, hlt⟩ := h.owner_lt e _ he
  cases hj
  exact hlt

/-- The entry of a PV on a list is owned by the list's IOC. -/
theorem WF.owner_of_listed {d : Dir} (h : WF d) {i : IocId} {p : PIoc} {n : Name} {e : PvEId}
    (hp : d.pIocs i = some p) (hmem : e ∈ p.pvEList) (hn : d.stringResTbl n = some e) :
    d.owner n = some i := by
  obtain ⟨pv, he, -⟩ := h.table n e hn
  rw [owner_of_entry hn he]
  exact (h.owner_of_mem hp hmem hn he).1

theorem WF.owner_enter {d : Dir} (h : WF d) (n m : Name) (i : IocId) (p : PIoc) :
    (d.enter n i p).owner m = if m = n then some i else d.owner m := by
  unfold owner
  rw [enter_stringResTbl]
  split_ifs with hm
  · simp [enter_pvEs]
  · cases hx : d.stringResTbl m with
    | none => rfl
    | some e =>
        obtain ⟨pv, he, -⟩ := h.table m e hx
        simp [enter_pvEs, (h.pvEs_lt e pv he).ne]

/-- Two names have different entries. -/
theorem WF.table_inj {d : Dir} (h : WF d) {n m : Name} {e : PvEId}
    (hn : d.stringResTbl n = some e) (hm : d.stringResTbl m = some e) : n = m := by
  obtain ⟨pv, he, hname⟩ := h.table n e hn
  obtain ⟨pv', he', hname'⟩ := h.table m e hm
  rw [he] at he'
  cases he'
  exact hname.symm.trans hname'

theorem WF.owner_takePV {d : Dir} (h : WF d) {n : Name} {e : PvEId} (hn : d.stringResTbl n = some e)
    (m : Name) (o : IocId) (q : PIoc) :
    (d.takePV n e o q).owner m = if m = n then none else d.owner m := by
  unfold owner
  rw [takePV_stringResTbl]
  split_ifs with hm
  · rfl
  · cases hx : d.stringResTbl m with
    | none => rfl
    | some x =>
        have hne : x ≠ e := by
          rintro rfl
          exact hm (h.table_inj hx hn)
        simp [takePV_pvEs, hne]

theorem Installed.owner_of_ne {d d' : Dir} {n m : Name} {i : IocId} {r : ℤ}
    (h : Installed d n i d' r) (hwf : WF d) (hm : m ≠ n) : d'.owner m = d.owner m := by
  cases h with
  | entered => rw [hwf.owner_enter, if_neg hm]
  | ownHeartbeat => rfl
  | moved hp hn _ he ho hq =>
      rw [(hwf.takePV hn he ho hq).owner_enter, if_neg hm, hwf.owner_takePV hn, if_neg hm]
  | refused => rfl

theorem Installed.owner_self {d d' : Dir} {n : Name} {i : IocId} {r : ℤ}
    (h : Installed d n i d' r) (hwf : WF d) : d'.owner n = some i ∨ d' = d := by
  cases h with
  | entered => exact Or.inl (by rw [hwf.owner_enter, if_pos rfl])
  | ownHeartbeat => exact Or.inr rfl
  | moved hp hn _ he ho hq =>
      exact Or.inl (by rw [(hwf.takePV hn he ho hq).owner_enter, if_pos rfl])
  | refused => exact Or.inr rfl

/-- A free name gets the IOC as its owner. -/
theorem Installed.owner_of_free {d d' : Dir} {n : Name} {i : IocId} {r : ℤ}
    (h : Installed d n i d' r) (hwf : WF d) (hn : d.owner n = none) : d'.owner n = some i := by
  rcases h.owner_self hwf with ho | rfl
  · exact ho
  · exact absurd (hwf.owner_eq_none_iff.mp hn) h.mem

/-- Removal leaves the PVs of other IOCs alone. -/
theorem Removed.owner_of_ne {d d' : Dir} {i : IocId} {p : PIoc} (h : Removed d i p d') (hwf : WF d)
    (hp : d.pIocs i = some p) {n : Name} (hn : d.owner n ≠ some i) :
    d'.stringResTbl n = d.stringResTbl n ∧ d'.owner n = d.owner n := by
  have htab : d'.stringResTbl n = d.stringResTbl n := by
    rw [h.stringResTbl]
    cases he : d.stringResTbl n with
    | none => rfl
    | some e =>
        refine Option.filter_eq_some_iff.mpr ⟨rfl, ?_⟩
        have hnot : e ∉ p.pvEList := fun hmem => hn (hwf.owner_of_listed hp hmem he)
        simp [gone, hnot]
  refine ⟨htab, ?_⟩
  unfold owner
  rw [htab]
  cases he : d.stringResTbl n with
  | none => rfl
  | some e =>
      have hnot : e ∉ p.pvEList := fun hmem => hn (hwf.owner_of_listed hp hmem he)
      simp [h.pvEs, gone, hnot]

/-- An entry that removal leaves is the one there was. -/
theorem Removed.owner_mono {d d' : Dir} {i : IocId} {p : PIoc} (h : Removed d i p d') {n : Name} :
    d'.owner n = d.owner n ∨ d'.owner n = none := by
  unfold owner
  rw [h.stringResTbl]
  cases he : d.stringResTbl n with
  | none => exact Or.inl rfl
  | some e =>
      cases hgone : d.gone p p.pvEList e with
      | true => exact Or.inr (by simp [Option.filter_some, hgone])
      | false => exact Or.inl (by simp [Option.filter_some, h.pvEs, hgone])

/-- Reading a list enters names under its IOC. -/
theorem addAllPvs_owner {fs : FileSystem} {d d' : Dir} {i : IocId} {r : ℤ} (hwf : WF d)
    (h : d.addAllPvs fs i = .ok (d', r)) (n : Name) :
    d'.owner n = some i ∨ d'.owner n = d.owner n := by
  have hall : WF d' ∧ (d'.owner n = some i ∨ d'.owner n = d.owner n) := by
    refine addAllPvs_induct (P := fun d' => WF d' ∧ (d'.owner n = some i ∨
      d'.owner n = d.owner n)) h ⟨hwf, Or.inr rfl⟩ ?_
    rintro p hp m hm d₁ d₂ r' ⟨hwf₁, ho⟩ hi
    refine ⟨hwf₁.installed hi, ?_⟩
    by_cases hnm : n = m
    · rcases hi.owner_self hwf₁ with hself | rfl
      · exact Or.inl (hnm ▸ hself)
      · exact ho
    · rw [hi.owner_of_ne hwf₁ hnm]
      exact ho
  exact hall.2

theorem owner_tblRemove (d : Dir) (n m : Name) :
    (d.tblRemove n).owner m = if m = n then none else d.owner m := by
  unfold owner
  rw [tblRemove_stringResTbl]
  split_ifs <;> rfl

theorem owner_deletePvE {d : Dir} {e : PvEId} (hno : ∀ n, d.stringResTbl n ≠ some e) (m : Name) :
    (d.deletePvE e).owner m = d.owner m := by
  unfold owner
  cases hm : d.stringResTbl m with
  | none => simp [deletePvE, hm]
  | some x =>
      have hx : x ≠ e := by
        rintro rfl
        exact hno m hm
      simp [deletePvE, hm, hx]

/-- An entry is deleted with its name. -/
theorem WF.owner_forget {d : Dir} (h : WF d) {n : Name} {e : PvEId}
    (hn : d.stringResTbl n = some e) (m : Name) :
    ((d.tblRemove n).deletePvE e).owner m = if m = n then none else d.owner m := by
  rw [owner_deletePvE, owner_tblRemove]
  intro x hx
  rw [tblRemove_stringResTbl] at hx
  split_ifs at hx with hne
  exact hne (h.table_inj hx hn)

/-! ## Entries -/

/-- The entry that a name has in `tbl`, if any, is its entry in `d'`, and is the one of `d`. -/
def SameEntry (d : Dir) (tbl : Name → Option PvEId) (d' : Dir) (n : Name) : Prop :=
  d'.stringResTbl n = tbl n ∧ ∀ e, tbl n = some e → d'.pvEs e = d.pvEs e

/-- The owner that a name has in `tbl`. -/
def ownerIn (d : Dir) (tbl : Name → Option PvEId) (n : Name) : Option IocId :=
  ((tbl n).bind d.pvEs).bind PvE.pI

theorem SameEntry.refl (d : Dir) (n : Name) : SameEntry d d.stringResTbl d n :=
  ⟨rfl, fun _ _ => rfl⟩

theorem SameEntry.trans {d d₁ d' : Dir} {tbl : Name → Option PvEId} {n : Name}
    (h : SameEntry d tbl d₁ n) (h' : SameEntry d₁ d₁.stringResTbl d' n) : SameEntry d tbl d' n := by
  refine ⟨h'.1.trans h.1, fun e he => ?_⟩
  rw [h'.2 e (h.1.trans he), h.2 e he]

theorem SameEntry.owner {d d' : Dir} {tbl : Name → Option PvEId} {n : Name}
    (h : SameEntry d tbl d' n) : d'.owner n = d.ownerIn tbl n := by
  unfold Dir.owner ownerIn
  rw [h.1]
  cases he : tbl n with
  | none => rfl
  | some e => simp [h.2 e he]

/-- Insertion leaves the entries of other names alone. -/
theorem Installed.sameEntry_of_ne {d d' : Dir} {n m : Name} {i : IocId} {r : ℤ}
    (h : Installed d n i d' r) (hwf : WF d) (hm : m ≠ n) : SameEntry d d.stringResTbl d' m := by
  cases h with
  | entered =>
      refine ⟨by rw [enter_stringResTbl, if_neg hm], fun x hx => ?_⟩
      obtain ⟨pv, he, -⟩ := hwf.table m x hx
      rw [enter_pvEs, if_neg (hwf.pvEs_lt x pv he).ne]
  | ownHeartbeat => exact .refl d m
  | @moved p q p' e pv o hp hn hname he ho hq hdown hp' =>
      refine ⟨by rw [enter_stringResTbl, if_neg hm, takePV_stringResTbl, if_neg hm], fun x hx => ?_⟩
      obtain ⟨pv', hx', -⟩ := hwf.table m x hx
      have hxe : x ≠ e := by
        rintro rfl
        exact hm (hwf.table_inj hx hn)
      rw [enter_pvEs, takePV_nextPvE, if_neg (hwf.pvEs_lt x pv' hx').ne, takePV_pvEs,
        if_neg fun hx'' => hxe hx''.1]
  | refused => exact .refl d m

/-- Removal leaves the entries of other IOCs alone. -/
theorem Removed.sameEntry_of_ne {d d' : Dir} {i : IocId} {p : PIoc} {n : Name}
    (h : Removed d i p d') (hwf : WF d) (hp : d.pIocs i = some p) (hn : d.owner n ≠ some i) :
    SameEntry d d.stringResTbl d' n := by
  refine ⟨(h.owner_of_ne hwf hp hn).1, fun e he => ?_⟩
  have hnot : e ∉ p.pvEList := fun hmem => hn (hwf.owner_of_listed hp hmem he)
  simp [h.pvEs, gone, hnot]

/-- An entry that is there, of an IOC that is not down, stays as it is when the name is inserted
again; so does the IOC's own heartbeat. -/
theorem Installed.eq_of_kept {d d' : Dir} {n : Name} {i : IocId} {r : ℤ}
    (h : Installed d n i d' r) (hthere : d.stringResTbl n ≠ none)
    (hup : (∀ p, d.pIocs i = some p → n = p.heartbeatName) ∨
      ∀ o q, d.owner n = some o → d.pIocs o = some q → q.status ≠ 2) : d' = d := by
  cases h with
  | entered _ hn => exact absurd hn hthere
  | ownHeartbeat => rfl
  | moved hp hn hname he ho hq hdown =>
      rcases hup with hhb | hup
      · exact absurd (hhb _ hp) hname
      · exact absurd hdown (hup _ _ ((owner_of_entry hn he).trans ho) hq)
  | refused => rfl

/-- Reading a list leaves alone what is in the table and is the IOC's own heartbeat, or a PV of an
IOC that is not down, or not listed. -/
theorem addAllPvs_sameEntry {fs : FileSystem} {d d' : Dir} {m : Name} {i : IocId} {p : PIoc} {r : ℤ}
    (hwf : WF d) (ha : d.addAllPvs fs i = .ok (d', r)) (hp : d.pIocs i = some p)
    (hm : m ∈ signals fs p.pathToList → d.stringResTbl m ≠ none ∧ (m = p.heartbeatName ∨
      ∀ o q, d.owner m = some o → d.pIocs o = some q → q.status ≠ 2)) :
    SameEntry d d.stringResTbl d' m := by
  have hall : WF d' ∧ d'.header = d.header ∧ SameEntry d d.stringResTbl d' m := by
    refine addAllPvs_induct (P := fun d' => WF d' ∧ d'.header = d.header ∧
      SameEntry d d.stringResTbl d' m) ha ⟨hwf, rfl, .refl d m⟩ ?_
    rintro p' hp' n hn d₁ d₂ r' ⟨hwf₁, hhead, hsame⟩ hi
    rw [hp] at hp'
    cases hp'
    refine ⟨hwf₁.installed hi, hi.header.trans hhead, hsame.trans ?_⟩
    by_cases hmn : m = n
    · -- the name itself is read: the insertion does nothing
      subst hmn
      obtain ⟨hthere, hkeep⟩ := hm hn
      have hsame₁ : d₂ = d₁ := by
        refine hi.eq_of_kept (hsame.1 ▸ hthere) (hkeep.imp (fun hname q hq => ?_)
          fun hup o q ho hq => ?_)
        · have hqp := header_of_header hq ((congrFun hhead i).trans (header_of_pIocs hp))
          rw [hname, PIoc.heartbeatName, PIoc.heartbeatName, (PIoc.eq_of_header hqp).1]
        · obtain ⟨q₀, hq₀, hqq⟩ := header_eq_some_iff.mp
            ((congrFun hhead o).symm.trans (header_of_pIocs hq))
          rw [← (PIoc.eq_of_header hqq).2.2.1]
          exact hup o q₀ (hsame.owner.symm.trans ho) hq₀
      rw [hsame₁]
      exact .refl d₁ m
    · exact hi.sameEntry_of_ne hwf₁ hmn
  exact hall.2.2

end Dir

end CaNameserver
