import CaNameserver.Reload

/-!
# Reading a list at startup

For every pathname of the directory file `parseDirectoryFile` enters a new IOC with its heartbeat,
reads the list and, if the heartbeat was not in it, removes what has been entered.  This module
says when that goes through at all, and what has been entered when it does.

## What can go wrong

The strings are copied to buffers whose sizes nobody compares.

* The word is read into `input[200]`, the name of the heartbeat written to `tStr[80]`, a word of
  the list read into `pvNameStr[80]`: each must fit.
* The path is copied by `get_pathToList`, and on rejection the name of every entry by `get_name`,
  and neither copy is terminated when it fills its buffer: a path has to have fewer than 119
  characters, a PV that is removed again fewer than 79.

And a pointer is followed: for a listed name that is in the table already `installPVName` looks at
the status of the IOC that has it, unless the name is the new IOC's own heartbeat.  That IOC may
have been deleted; see `Rollback`.

## What is entered

Nobody is down at startup.  So no PV is taken from another IOC, and what is new in the tables is
what was free and is on the list, or the heartbeat.

* `Loading`: what holds of the directory between two words.
* `Grown`: the directory while the list is read.  What was there stays as it was.
* `Grown.listed_iff`: what the new IOC has at the end.
* `addAllPvs_defined_iff`: when a list can be read, in terms of the directory before.
* `addAllPvs_accepted_iff`: it is accepted exactly if it has the heartbeat.
* `directoryBody_defined_iff`: when a new pathname goes through.
-/

namespace CaNameserver

open CStr Fallible

/-- The words of a signal list, as they are read into `pvNameStr`. -/
def listWords (fs : FileSystem) (path : Name) : List Name := (fopen fs path).elim [] words

theorem signals_eq_map_listWords (fs : FileSystem) (path : Name) :
    signals fs path = (listWords fs path).map cstr := by
  unfold signals listWords
  cases fopen fs path <;> rfl

namespace Dir

variable {d d' : Dir} {n m : Name} {i j : IocId} {p q : PIoc} {r : ℤ} {fs : FileSystem}

/-! ## While nobody is down -/

/-- No IOC is down. -/
def NoneDown (d : Dir) : Prop := ∀ o q, d.pIocs o = some q → q.status ≠ 2

theorem NoneDown.header (h : NoneDown d) (hhead : d'.header = d.header) : NoneDown d' := by
  intro o q hq
  obtain ⟨q₀, hq₀, hqq⟩ := header_eq_some_iff.mp
    ((congrFun hhead o).symm.trans (header_of_pIocs hq))
  rw [← (PIoc.eq_of_header hqq).2.2.1]
  exact h o q₀ hq₀

/-- While nobody is down, an insertion changes only the IOC it is for. -/
theorem Installed.pIocs_of_noneDown (hi : Installed d n i d' r) (h : NoneDown d) (hj : j ≠ i) :
    d'.pIocs j = d.pIocs j := by
  cases hi with
  | entered => rw [enter_pIocs, if_neg hj]
  | ownHeartbeat => rfl
  | moved _ _ _ _ _ hq hdown => exact absurd hdown (h _ _ hq)
  | refused => rfl

/-- The directory `d'`, after PVs of the IOC at `i` have been entered into `d`. -/
structure Grown (d : Dir) (i : IocId) (d' : Dir) : Prop where
  wf : WF d'
  listed : d'.AllListed
  header : d'.header = d.header
  iocs : d'.iocResTbl = d.iocResTbl
  others : ∀ j, j ≠ i → d'.pIocs j = d.pIocs j
  names : ∀ m, d.stringResTbl m ≠ none → SameEntry d d.stringResTbl d' m
  new : ∀ m, d.stringResTbl m = none → d'.stringResTbl m = none ∨ d'.owner m = some i

theorem Grown.refl (hwf : WF d) (hlisted : d.AllListed) (i : IocId) : Grown d i d :=
  ⟨hwf, hlisted, rfl, rfl, fun _ _ => rfl, fun m _ => .refl d m, fun _ hm => Or.inl hm⟩

theorem Grown.installed {d₁ : Dir} (h : Grown d i d₁) (hnone : NoneDown d)
    (hi : Installed d₁ n i d' r) : Grown d i d' := by
  have hnone₁ := hnone.header h.header
  refine ⟨h.wf.installed hi, h.listed.installed h.wf hi, hi.header.trans h.header,
    hi.iocResTbl.trans h.iocs, fun j hj => (hi.pIocs_of_noneDown hnone₁ hj).trans (h.others j hj),
    fun m hm => ?_, fun m hm => ?_⟩
  · refine (h.names m hm).trans ?_
    by_cases hmn : m = n
    · subst hmn
      have hthere : d₁.stringResTbl m ≠ none := (h.names m hm).1.symm ▸ hm
      rw [hi.eq_of_kept hthere (Or.inr fun o q _ hq => hnone₁ o q hq)]
      exact .refl d₁ m
    · exact hi.sameEntry_of_ne h.wf hmn
  · by_cases hmn : m = n
    · subst hmn
      rcases hi.owner_self h.wf with ho | rfl
      · exact Or.inr ho
      · exact h.new m hm
    · have hsame := hi.sameEntry_of_ne h.wf hmn
      rw [hi.owner_of_ne h.wf hmn, hsame.1]
      exact h.new m hm

theorem Grown.addAllPvs {d₁ : Dir} (h : Grown d i d₁) (hnone : NoneDown d)
    (ha : d₁.addAllPvs fs i = .ok (d', r)) : Grown d i d' :=
  addAllPvs_induct ha h fun _ _ _ _ _ _ _ hd hi => hd.installed hnone hi

theorem Grown.ownerThere_iff (h : Grown d i d') (hwf : WF d) (hi : d.pIocs i ≠ none) (n : Name) :
    d'.OwnerThere n ↔ d.OwnerThere n := by
  have hthere : ∀ o, d'.pIocs o ≠ none ↔ d.pIocs o ≠ none := fun o => by
    rw [Ne, ← header_eq_none_iff, h.header, header_eq_none_iff]
  by_cases hn : d.stringResTbl n = none
  · refine iff_of_true (fun o ho => ?_) fun o ho => ?_
    · rcases h.new n hn with hfree | hown
      · rw [h.wf.owner_eq_none_iff.mpr hfree] at ho
        cases ho
      · rw [hown] at ho
        cases ho
        exact (hthere i).mpr hi
    · rw [hwf.owner_eq_none_iff.mpr hn] at ho
      cases ho
  · unfold OwnerThere
    rw [(h.names n hn).owner]
    exact forall₂_congr fun o _ => hthere o

/-! ## The directory between two words -/

/-- The directory between two words of the directory file. -/
structure Loading (d : Dir) : Prop where
  wf : WF d
  listed : d.AllListed
  live : d.Live
  noneDown : d.NoneDown

theorem Loading.empty : Loading Dir.empty := ⟨.empty, nofun, nofun, nofun⟩

theorem Loading.entry (h : Loading d) {name path : Name} (hentry : Entry fs name path d d') :
    Loading d' := by
  refine ⟨h.wf.entry hentry, h.listed.entry h.wf hentry, h.live.entry h.wf hentry,
    fun o q hq => ?_⟩
  refine hentry.headers h.wf (Q := fun p => p.status ≠ 2) (fun i p hp => ?_)
    (fun _ _ => Nat.zero_ne_add_one 1) o q.header (header_of_pIocs hq)
  obtain ⟨p₀, hp₀, rfl⟩ := header_eq_some_iff.mp hp
  exact h.noneDown i p₀ hp₀

/-! ## When a list can be read -/

/-- One word of the list. -/
theorem parseBody_defined_iff {d₁ : Dir} {hearts : ℕ} (h : Grown d i d₁) (hwf : WF d)
    (hp : d.pIocs i = some p) (hheart : p.heartbeatName.length < pvNameSz) (token : Name) :
    Defined (parseBody i (d₁, hearts) token) ↔
      token.length < pvNameSz ∧ (cstr token ≠ p.heartbeatName → d.OwnerThere (cstr token)) := by
  obtain ⟨p₁, hp₁, hpp⟩ :=
    header_eq_some_iff.mp ((congrFun h.header i).trans (header_of_pIocs hp))
  have hname : p₁.heartbeatName = p.heartbeatName := by
    rw [PIoc.heartbeatName, PIoc.heartbeatName, (PIoc.eq_of_header hpp).1]
  have hi : d.pIocs i ≠ none := by
    rw [hp]
    exact Option.some_ne_none p
  rw [parseBody, defined_bind_iff]
  simp only [writeBuf_eq_ok_iff, and_assoc, exists_and_left, exists_eq_left]
  refine and_congr_right fun _ => ?_
  rw [← h.ownerThere_iff hwf hi, ← hname]
  exact defined_bind_ok_iff.trans (h.wf.installPVName_defined_iff hp₁ (hname ▸ hheart) _)

/-- **When a list can be read**, in terms of the directory before. -/
theorem addAllPvs_defined_iff (hwf : WF d) (hlisted : d.AllListed) (hnone : NoneDown d)
    (hp : d.pIocs i = some p) (hheart : p.heartbeatName.length < pvNameSz) :
    Defined (d.addAllPvs fs i) ↔ p.pathToList.length < pathNameSz - 1 ∧
      ∀ w ∈ listWords fs p.pathToList,
        w.length < pvNameSz ∧ (cstr w ≠ p.heartbeatName → d.OwnerThere (cstr w)) := by
  rw [Dir.addAllPvs, getPIoc_eq_ok_iff.mpr hp, ok_bind, PIoc.getPathToList, defined_bind_iff]
  simp only [strncpy_eq_ok_iff, and_assoc, exists_and_left, exists_eq_left]
  refine and_congr_right fun _ => ?_
  unfold listWords
  cases hopen : fopen fs p.pathToList with
  | none => exact iff_of_true (.ok (d, -1)) (by simp)
  | some pf =>
      refine defined_bind_ok_iff.trans ?_
      refine defined_foldlM_iff_forall (P := fun acc : Dir × ℕ => Grown d i acc.1)
        (.refl hwf hlisted i) (fun token _ acc acc' hacc hbody => ?_) fun token _ acc hacc =>
          parseBody_defined_iff hacc hwf hp hheart token
      simp only [parseBody, bind_eq_ok_iff] at hbody
      obtain ⟨_, -, ⟨d₁, r⟩, hinst, hbody⟩ := hbody
      cases hbody
      exact hacc.installed hnone (installPVName_installed hinst)

/-! ## Acceptance -/

/-- A list without the heartbeat is reported. -/
theorem addAllPvs_rejected (ha : d.addAllPvs fs i = .ok (d', r)) (hp : d.pIocs i = some p)
    (hhb : p.heartbeatName ∉ signals fs p.pathToList) : r = -1 := by
  simp only [addAllPvs, bind_eq_ok_iff, getPIoc_eq_ok_iff, PIoc.getPathToList,
    strncpy_eq_ok_iff] at ha
  obtain ⟨q, hq, _, ⟨-, rfl⟩, ha⟩ := ha
  rw [hp] at hq
  cases hq
  unfold signals at hhb
  cases hopen : fopen fs p.pathToList with
  | none =>
      simp only [hopen] at ha
      cases ha
      rfl
  | some pf =>
      simp only [hopen, List.mem_map, not_exists, not_and] at hhb
      simp only [hopen, parseDirectoryFP, bind_eq_ok_iff] at ha
      obtain ⟨⟨d₁, hearts⟩, hloop, ha⟩ := ha
      have hhearts : hearts = 0 ∧ d₁.header = d.header := by
        refine foldlM_induct (P := fun acc : Dir × ℕ => acc.2 = 0 ∧ acc.1.header = d.header) hloop
          ⟨rfl, rfl⟩ ?_
        rintro token htoken acc acc' ⟨hzero, hhead⟩ hbody
        simp only [parseBody, bind_eq_ok_iff] at hbody
        obtain ⟨_, -, ⟨d₂, failed⟩, hinst, hbody⟩ := hbody
        cases hbody
        have hi := installPVName_installed hinst
        refine ⟨?_, hi.header.trans hhead⟩
        have hfailed : failed ≠ 1 := by
          rintro rfl
          cases hi with
          | ownHeartbeat hs _ hname =>
              have hsp := header_of_header hs ((congrFun hhead i).trans (header_of_pIocs hp))
              refine hhb token htoken ?_
              rw [hname, PIoc.heartbeatName, PIoc.heartbeatName, (PIoc.eq_of_header hsp).1]
        show (if failed = 1 then acc.2 + 1 else acc.2) = 0
        rw [if_neg hfailed, hzero]
      rw [hhearts.1] at ha
      cases ha
      rfl

/-- A word of the list of an IOC whose heartbeat is in the table: it stays there, and is counted
whenever it is met. -/
theorem parseBody_heartbeat {i : IocId} {p : PIoc} {acc acc' : Dir × ℕ} {token : Name}
    (h : parseBody i acc token = .ok acc') (hhead : acc.1.header i = some p.header)
    (hthere : acc.1.stringResTbl p.heartbeatName ≠ none) :
    acc'.1.header = acc.1.header ∧ acc'.1.stringResTbl p.heartbeatName ≠ none ∧
      (acc.2 ≠ 0 ∨ p.heartbeatName = cstr token → acc'.2 ≠ 0) := by
  simp only [parseBody, bind_eq_ok_iff] at h
  obtain ⟨_, -, ⟨d₁, failed⟩, hinst, h⟩ := h
  cases h
  have hi := installPVName_installed hinst
  refine ⟨hi.header, hi.mono hthere, fun hmet => ?_⟩
  show (if failed = 1 then acc.2 + 1 else acc.2) ≠ 0
  split_ifs with hfailed
  · exact Nat.succ_ne_zero _
  refine hmet.resolve_right fun htoken => hfailed ?_
  have hname : ∀ q, acc.1.pIocs i = some q → cstr token = q.heartbeatName := by
    intro q hq
    have hqp := header_of_header hq hhead
    rw [← htoken, PIoc.heartbeatName, PIoc.heartbeatName, (PIoc.eq_of_header hqp).1]
  cases hi with
  | entered _ hn => exact absurd (htoken ▸ hn) hthere
  | ownHeartbeat => rfl
  | moved hq _ hne => exact absurd (hname _ hq) hne
  | refused hq _ hne => exact absurd (hname _ hq) hne

/-- A list with the heartbeat is accepted. -/
theorem addAllPvs_accepted {d d' : Dir} {i : IocId} {p : PIoc} {r : ℤ}
    (ha : d.addAllPvs fs i = .ok (d', r)) (hp : d.pIocs i = some p)
    (hthere : d.stringResTbl p.heartbeatName ≠ none)
    (hhb : p.heartbeatName ∈ signals fs p.pathToList) : r ≠ -1 := by
  simp only [addAllPvs, bind_eq_ok_iff, getPIoc_eq_ok_iff, PIoc.getPathToList,
    strncpy_eq_ok_iff] at ha
  obtain ⟨q, hq, _, ⟨-, rfl⟩, ha⟩ := ha
  rw [hp] at hq
  cases hq
  unfold signals at hhb
  cases hopen : fopen fs p.pathToList with
  | none =>
      rw [hopen] at hhb
      cases hhb
  | some pf =>
      simp only [hopen] at hhb
      simp only [hopen, parseDirectoryFP, bind_eq_ok_iff] at ha
      obtain ⟨⟨d₁, hearts⟩, hloop, ha⟩ := ha
      have hhearts : d₁.header = d.header ∧ d₁.stringResTbl p.heartbeatName ≠ none ∧
          (p.heartbeatName ∈ (words pf).map cstr → hearts ≠ 0) := by
        refine foldlM_prefix_induct (P := fun pre (acc : Dir × ℕ) => acc.1.header = d.header ∧
          acc.1.stringResTbl p.heartbeatName ≠ none ∧
            (p.heartbeatName ∈ pre.map cstr → acc.2 ≠ 0)) hloop
          ⟨rfl, hthere, fun h => absurd h List.not_mem_nil⟩ ?_
        rintro pre token post acc acc' - ⟨hhead, hin, hcount⟩ hbody
        obtain ⟨hhead', hin', hcount'⟩ :=
          parseBody_heartbeat hbody ((congrFun hhead i).trans (header_of_pIocs hp)) hin
        refine ⟨hhead'.trans hhead, hin', fun hmem => hcount' ?_⟩
        rw [List.map_append, List.mem_append, List.map_singleton, List.mem_singleton] at hmem
        exact hmem.imp_left hcount
      have hzero : hearts ≠ 0 := hhearts.2.2 hhb
      simp only [if_neg hzero] at ha
      cases ha
      exact fun h => absurd h (by omega)

/-- **A list is accepted** exactly if it has the heartbeat. -/
theorem addAllPvs_accepted_iff {d d' : Dir} {i : IocId} {p : PIoc} {r : ℤ}
    (ha : d.addAllPvs fs i = .ok (d', r)) (hp : d.pIocs i = some p)
    (hthere : d.stringResTbl p.heartbeatName ≠ none) :
    r ≠ -1 ↔ p.heartbeatName ∈ signals fs p.pathToList := by
  constructor
  · intro hne
    by_contra hhb
    exact hne (addAllPvs_rejected ha hp hhb)
  · exact addAllPvs_accepted ha hp hthere

/-! ## When a new pathname goes through -/

/-- The list at `path` can be read for a new IOC `name`: the strings fit, up to the decision whether
the list is accepted, and no listed PV belongs to an IOC that has been deleted. -/
structure ListReads (fs : FileSystem) (d : Dir) (name path : Name) : Prop where
  tStr : (name ++ heartbeat).length < pvNameSz
  pathStr : path.length < pathNameSz - 1
  pvNameStr : ∀ w ∈ listWords fs path, w.length < pvNameSz
  owners : ∀ n ∈ signals fs path, n ≠ name ++ heartbeat → d.OwnerThere n

/-- The names that the list adds to the table can be read back by `remove_all_pvs`. -/
def RemovalReads (fs : FileSystem) (d : Dir) (name path : Name) : Prop :=
  ∀ n, n = name ++ heartbeat ∨ n ∈ signals fs path → d.stringResTbl n = none →
    n.length < pvNameSz - 1

theorem Loading.installIocName (h : Loading d) {name path : Name}
    (hfree : d.iocResTbl name = none) : Loading (d.installIocName name path).1 := by
  refine ⟨h.wf.installIocName name path, h.listed.installIocName h.wf name path,
    h.live.installIocName name path, fun o s hs => ?_⟩
  rw [installIocName_pIocs hfree] at hs
  split_ifs at hs
  · cases hs
    exact Nat.zero_ne_add_one 1
  · exact h.noneDown o s hs

theorem WF.ownerThere_installIocName (hwf : WF d) {name path : Name}
    (hfree : d.iocResTbl name = none) (n : Name) :
    (d.installIocName name path).1.OwnerThere n ↔ d.OwnerThere n := by
  unfold OwnerThere
  refine forall_congr' fun o => ?_
  rw [owner_installIocName]
  refine forall_congr' fun ho => ?_
  rw [installIocName_pIocs hfree, if_neg (hwf.owner_lt_nextPIoc ho).ne]

section New

variable {name path : Name} {d₁ d₂ : Dir} {count : ℤ}

/-- The directory with the new IOC and its heartbeat, before its list is read. -/
theorem Loading.grown (h : Loading d) (hfree : d.iocResTbl name = none)
    (hinst : Installed (d.installIocName name path).1 (name ++ heartbeat) d.nextPIoc d₁ r) :
    Grown (d.installIocName name path).1 d.nextPIoc d₁ :=
  have h₀ := h.installIocName hfree
  (Grown.refl h₀.wf h₀.listed d.nextPIoc).installed h₀.noneDown hinst

theorem Grown.pIocs_self (hgrown : Grown (d.installIocName name path).1 d.nextPIoc d₁)
    (hfree : d.iocResTbl name = none) :
    ∃ p, d₁.pIocs d.nextPIoc = some p ∧ p.iocname = name ∧ p.pathToList = path := by
  have hhead : d₁.header d.nextPIoc = some ⟨name, path, 0, SockAddr.zero, []⟩ := by
    rw [hgrown.header, Dir.header, installIocName_pIocs hfree, if_pos rfl]
    rfl
  obtain ⟨p, hp, hpp⟩ := header_eq_some_iff.mp hhead
  exact ⟨p, hp, congrArg PIoc.iocname hpp, congrArg PIoc.pathToList hpp⟩

/-- **What the new IOC has at the end**: what was free and is on the list, or the heartbeat. -/
theorem Loading.listed_iff (h : Loading d) (hfree : d.iocResTbl name = none)
    (hinst : Installed (d.installIocName name path).1 (name ++ heartbeat) d.nextPIoc d₁ r)
    (hadd : d₁.addAllPvs fs d.nextPIoc = .ok (d₂, count)) :
    d₂.Listed n d.nextPIoc ↔
      d.stringResTbl n = none ∧ (n = name ++ heartbeat ∨ n ∈ signals fs path) := by
  have hgrown₁ := h.grown hfree hinst
  have hgrown := hgrown₁.addAllPvs (h.installIocName hfree).noneDown hadd
  obtain ⟨p₁, hp₁, -, hpath₁⟩ := hgrown₁.pIocs_self hfree
  obtain ⟨p, hp, -⟩ := hgrown.pIocs_self hfree
  have htab₀ : (d.installIocName name path).1.stringResTbl = d.stringResTbl := by
    rw [Dir.installIocName, hfree]
  constructor
  · intro hl
    have hown := hl.owner hgrown.wf
    have hn : d.stringResTbl n = none := by
      by_contra hthere
      rw [(hgrown.names n (htab₀ ▸ hthere)).owner] at hown
      have hold : d.owner n = some d.nextPIoc :=
        (owner_installIocName d name path ▸ hown : d.owner n = _)
      exact absurd (h.wf.owner_lt_nextPIoc hold) (lt_irrefl _)
    refine ⟨hn, ?_⟩
    by_contra hnot
    obtain ⟨hne, hmem⟩ := not_or.mp hnot
    rw [addAllPvs_owner_of_not_mem hgrown₁.wf hadd hp₁ (hpath₁ ▸ hmem),
      hinst.owner_of_ne (h.installIocName hfree).wf hne, owner_installIocName,
      h.wf.owner_eq_none_iff.mpr hn] at hown
    cases hown
  · rintro ⟨hn, hmem⟩
    have hthere : d₂.stringResTbl n ≠ none := by
      rcases hmem with rfl | hmem
      · exact addAllPvs_mono hadd hinst.mem
      · exact addAllPvs_mem hadd hp₁ (hpath₁ ▸ hmem)
    have hown := (hgrown.new n (htab₀ ▸ hn)).resolve_left hthere
    exact hgrown.listed n _ p hown hp

/-- When the new IOC can be taken out again. -/
theorem cleanup_defined_iff (hwf : WF d) (hlive : d.Live) (hp : d.pIocs i = some p)
    (hheart : p.heartbeatName.length < pvNameSz) (hpath : p.pathToList.length < pathNameSz - 1) :
    Defined (cleanup d i) ↔ ∀ n, d.Listed n i → n.length < pvNameSz - 1 := by
  have hdelete : Defined (cleanup d i) ↔ Defined (d.removeAllPvs i) := by
    rw [cleanup, defined_bind_iff]
    refine exists_congr fun d₃ => and_iff_left_of_imp fun hrem => ?_
    obtain ⟨p', hp', hrem'⟩ := removeAllPvs_removed hwf hrem
    exact ⟨_, deletePIoc_eq_ok_iff.mpr ⟨_, hrem'.pIocs_self, rfl⟩⟩
  rw [hdelete, hwf.removeAllPvs_defined_iff hp hheart hpath fun e he => hlive i p e hp he]
  constructor
  · rintro hnames n ⟨e, p', he, hp', hmem⟩
    cases hp.symm.trans hp'
    obtain ⟨pv, hpv, hname⟩ := hwf.table n e he
    exact hname ▸ hnames e hmem pv hpv
  · intro hnames e hmem pv hpv
    obtain ⟨-, htab⟩ := hwf.listed i p e pv hp hmem hpv
    exact hnames _ ⟨e, p, htab, hp, hmem⟩

end New

/-- The list is read, once the IOC has been entered with its heartbeat. -/
theorem Loading.listReads_iff (h : Loading d) {name path : Name} {d₁ : Dir}
    (hfree : d.iocResTbl name = none) (hheart : (name ++ heartbeat).length < pvNameSz)
    (hinst : Installed (d.installIocName name path).1 (name ++ heartbeat) d.nextPIoc d₁ r) :
    Defined (d₁.addAllPvs fs d.nextPIoc) ↔ ListReads fs d name path := by
  have hgrown := h.grown hfree hinst
  obtain ⟨p₁, hp₁, hname₁, hpath₁⟩ := hgrown.pIocs_self hfree
  have hheart₁ : p₁.heartbeatName = name ++ heartbeat := by
    rw [PIoc.heartbeatName, hname₁]
  have hthere : (d.installIocName name path).1.pIocs d.nextPIoc ≠ none := by
    rw [installIocName_pIocs hfree, if_pos rfl]
    exact Option.some_ne_none _
  have howner : ∀ n, d₁.OwnerThere n ↔ d.OwnerThere n := fun n =>
    (hgrown.ownerThere_iff (h.installIocName hfree).wf hthere n).trans
      (h.wf.ownerThere_installIocName hfree n)
  have hnone₁ := (h.installIocName hfree).noneDown.header hgrown.header
  rw [addAllPvs_defined_iff hgrown.wf hgrown.listed hnone₁ hp₁ (hheart₁ ▸ hheart), hheart₁, hpath₁]
  simp only [howner]
  constructor
  · rintro ⟨hlen, hwords⟩
    refine ⟨hheart, hlen, fun w hw => (hwords w hw).1, fun n hn => ?_⟩
    rw [signals_eq_map_listWords] at hn
    obtain ⟨w, hw, rfl⟩ := List.mem_map.mp hn
    exact (hwords w hw).2
  · intro hreads
    refine ⟨hreads.pathStr, fun w hw => ⟨hreads.pvNameStr w hw, hreads.owners _ ?_⟩⟩
    rw [signals_eq_map_listWords]
    exact List.mem_map_of_mem hw

/-- **When a new pathname goes through.** -/
theorem Loading.directoryBody_defined_iff (h : Loading d) (fs : FileSystem) (requested : ℕ)
    {filenameIsIocname : Bool} {token : Name} (hpath : isPath (cstr token) = true)
    (hfree : d.iocResTbl (iocNameOf filenameIsIocname (cstr token)) = none) :
    Defined (directoryBody filenameIsIocname fs (d, requested) token) ↔ token.length < 200 ∧
      ListReads fs d (iocNameOf filenameIsIocname (cstr token)) (cstr token) ∧
      (iocNameOf filenameIsIocname (cstr token) ++ heartbeat ∉ signals fs (cstr token) →
        RemovalReads fs d (iocNameOf filenameIsIocname (cstr token)) (cstr token)) := by
  rw [directoryBody, defined_bind_iff]
  simp only [writeBuf_eq_ok_iff, and_assoc, exists_and_left, exists_eq_left]
  refine and_congr_right fun _ => ?_
  rw [if_pos ⟨hpath, hfree⟩]
  generalize iocNameOf filenameIsIocname (cstr token) = name at hfree ⊢
  generalize cstr token = path at hpath ⊢
  have h₀ : Loading (d.installIocName name path).1 := h.installIocName hfree
  have hp₀ : (d.installIocName name path).1.pIocs d.nextPIoc =
      some ⟨name, path, 0, SockAddr.zero, []⟩ := by
    rw [installIocName_pIocs hfree, if_pos rfl]
  rw [getPIoc_eq_ok_iff.mpr hp₀, ok_bind]
  by_cases hheart : (name ++ heartbeat).length < pvNameSz
  · have hfit : (⟨name, path, 0, SockAddr.zero, []⟩ : PIoc).heartbeatName.length < pvNameSz := hheart
    have htStr : writeBuf pvNameSz (name ++ heartbeat) = .ok (name ++ heartbeat) :=
      writeBuf_eq_ok_iff.mpr ⟨hheart, rfl⟩
    obtain ⟨⟨d₁, r⟩, hrun⟩ := (h₀.wf.installPVName_defined_iff hp₀ hfit (name ++ heartbeat)).mpr
      fun hne => absurd rfl hne
    have hinst := installPVName_installed hrun
    simp only [getIocname_of_heartbeat hfit, ok_bind, htStr, hrun]
    rw [← h.listReads_iff hfree hheart hinst, defined_bind_iff]
    -- the end, from the directory with the whole list
    have hend : ∀ x, d₁.addAllPvs fs d.nextPIoc = .ok x → path.length < pathNameSz - 1 →
        (Defined (if x.2 = -1 then cleanup x.1 d.nextPIoc >>= fun d => pure (d, requested)
          else pure (x.1, requested + 1)) ↔
            (name ++ heartbeat ∉ signals fs path → RemovalReads fs d name path)) := by
      rintro ⟨d₂, count⟩ hadd hlen
      have hgrown := (h.grown hfree hinst).addAllPvs h₀.noneDown hadd
      obtain ⟨p₁, hp₁, hname₁, hpath₁⟩ := (h.grown hfree hinst).pIocs_self hfree
      obtain ⟨p₂, hp₂, hname₂, hpath₂⟩ := hgrown.pIocs_self hfree
      have hheart₁ : p₁.heartbeatName = name ++ heartbeat := by
        rw [PIoc.heartbeatName, hname₁]
      have hheart₂ : p₂.heartbeatName = name ++ heartbeat := by
        rw [PIoc.heartbeatName, hname₂]
      have hlive₂ := (h₀.live.installed h₀.wf hinst).addAllPvs (h₀.wf.installed hinst) hadd
      have haccepted := addAllPvs_accepted_iff hadd hp₁ (hheart₁ ▸ hinst.mem)
      rw [hheart₁, hpath₁] at haccepted
      by_cases hcount : count = -1
      · have hnot : name ++ heartbeat ∉ signals fs path := fun hmem => haccepted.mpr hmem hcount
        rw [if_pos hcount, imp_iff_right hnot]
        refine defined_bind_ok_iff.trans ?_
        rw [cleanup_defined_iff hgrown.wf hlive₂ hp₂ (hheart₂ ▸ hheart) (hpath₂ ▸ hlen)]
        refine forall_congr' fun n => ?_
        rw [h.listed_iff hfree hinst hadd, and_comm, and_imp]
      · rw [if_neg hcount]
        exact iff_of_true (.ok _) fun hnot => absurd (haccepted.mp hcount) hnot
    constructor
    · rintro ⟨x, hx, hdef⟩
      have hreads := (h.listReads_iff hfree hheart hinst).mp ⟨x, hx⟩
      exact ⟨⟨x, hx⟩, (hend x hx hreads.pathStr).mp hdef⟩
    · rintro ⟨⟨x, hx⟩, hremoval⟩
      have hreads := (h.listReads_iff hfree hheart hinst).mp ⟨x, hx⟩
      exact ⟨x, hx, (hend x hx hreads.pathStr).mpr hremoval⟩
  · refine iff_of_false ?_ fun hreads => hheart hreads.1.tStr
    rintro ⟨x, hx⟩
    simp only [bind_eq_ok_iff, PIoc.getIocname, strncpy_eq_ok_iff, writeBuf_eq_ok_iff] at hx
    obtain ⟨_, ⟨-, rfl⟩, _, ⟨htStr, -⟩, -⟩ := hx
    exact hheart htStr

end Dir

end CaNameserver
