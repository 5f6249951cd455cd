import CaNameserver.ServerSpec

/-!
# What startup does

At startup the words of the directory file are read one by one, each pathname is opened, and at
the end the heartbeats are searched.  Of a pathname there are three outcomes (`Entry`): an IOC of
that name is there already, and it is passed over; its list is accepted, and there is one IOC
more; its list is rejected, and `cleanup` has taken the IOC out again, though not all that came
with it.

## The rules

What every pathname keeps of the directory, `parseDirectoryFile` keeps (`directoryLoop_induct`).
The searches for the heartbeats leave the directory as it is, and `Server.connect` is the state
after one of them.  `startup_induct` puts the two loops together: `D` is kept by every pathname,
and `P` by every search.  Most of what startup leaves is about the directory alone
(`startup_dir_induct`).

* `startup_header`: whatever the lists contain, the IOCs come from the directory file, have a
  path, and have not been connected.
* `Entry.headers`: what holds of every IOC before a pathname, and of the IOC it adds, holds after.
-/

namespace CaNameserver

open CStr Fallible Transition

namespace Dir

/-- An IOC is taken out of the table and deleted. -/
def drop (d : Dir) (i : IocId) (name : Name) : Dir :=
  { d with
    pIocs := Function.update d.pIocs i none
    iocResTbl := Function.update d.iocResTbl name none }

theorem deletePIoc_eq_ok_iff {d d' : Dir} {i : IocId} :
    d.deletePIoc i = .ok d' ↔ ∃ p, d.pIocs i = some p ∧ d' = d.drop i p.iocname := by
  simp only [deletePIoc, bind_eq_ok_iff, getPIoc_eq_ok_iff, pure_eq_ok_iff]
  rfl

/-- Deleting an IOC keeps the storage well formed; its entries stay in the table. -/
theorem WF.drop {d : Dir} (h : WF d) {i : IocId} {p : PIoc} (hp : d.pIocs i = some p) :
    WF (d.drop i p.iocname) := by
  have hold : ∀ j q, (d.drop i p.iocname).pIocs j = some q → j ≠ i ∧ d.pIocs j = some q := by
    intro j q hq
    by_cases hj : j = i
    · subst hj
      simp [Dir.drop] at hq
    · exact ⟨hj, by simpa [Dir.drop, hj] using hq⟩
  refine ⟨h.table, fun j q e pv hq => h.listed j q e pv (hold j q hq).2,
    fun j q hq => h.nodup j q (hold j q hq).2, h.pvEs_lt, h.owner_lt,
    fun j q e hq => h.listed_lt j q e (hold j q hq).2, fun n j => ?_,
    fun j q hq => h.pIocs_lt j q (hold j q hq).2⟩
  show Function.update d.iocResTbl p.iocname none n = some j ↔
    ∃ q, (d.drop i p.iocname).pIocs j = some q ∧ q.iocname = n
  by_cases hn : n = p.iocname
  · rw [hn, Function.update_self]
    constructor
    · intro hnone
      cases hnone
    rintro ⟨q, hq, hname⟩
    obtain ⟨hj, hq⟩ := hold j q hq
    exact absurd (h.iocname_inj hq hp hname) hj
  · rw [Function.update_of_ne hn, h.iocTable]
    constructor
    · rintro ⟨q, hq, hname⟩
      have hj : j ≠ i := by
        rintro rfl
        rw [hp] at hq
        cases hq
        exact hn hname.symm
      exact ⟨q, by simpa [Dir.drop, hj] using hq, hname⟩
    · rintro ⟨q, hq, hname⟩
      exact ⟨q, (hold j q hq).2, hname⟩

/-- The outcomes of one pathname of the directory file, for an IOC of the given name. -/
inductive Entry (fs : FileSystem) (name path : Name) (d : Dir) : Dir → Prop
  | skipped : Entry fs name path d d
  | loaded {d₁ d₂ : Dir} {r count : ℤ} (hfree : d.iocResTbl name = none)
      (hinst : Installed (d.installIocName name path).1 (name ++ heartbeat) d.nextPIoc d₁ r)
      (hadd : d₁.addAllPvs fs d.nextPIoc = .ok (d₂, count)) (hcount : count ≠ -1) :
      Entry fs name path d d₂
  | rejected {d₁ d₂ d₃ : Dir} {r count : ℤ} {p q : PIoc} (hfree : d.iocResTbl name = none)
      (hinst : Installed (d.installIocName name path).1 (name ++ heartbeat) d.nextPIoc d₁ r)
      (hadd : d₁.addAllPvs fs d.nextPIoc = .ok (d₂, count))
      (hp : d₂.pIocs d.nextPIoc = some p) (hrem : Removed d₂ d.nextPIoc p d₃)
      (hq : d₃.pIocs d.nextPIoc = some q) :
      Entry fs name path d (d₃.drop d.nextPIoc q.iocname)

/-- A new IOC, without any PV yet. -/
theorem installIocName_pIocs {d : Dir} {name path : Name} (hfree : d.iocResTbl name = none)
    (j : IocId) : (d.installIocName name path).1.pIocs j =
      if j = d.nextPIoc then some ⟨name, path, 0, SockAddr.zero, []⟩ else d.pIocs j := by
  rw [installIocName, hfree]
  exact Function.update_apply ..

theorem WF.entry {fs : FileSystem} {name path : Name} {d d' : Dir} (hwf : WF d)
    (h : Entry fs name path d d') : WF d' := by
  have hwf₁ := hwf.installIocName name path
  cases h with
  | skipped => exact hwf
  | loaded hfree hinst hadd => exact (hwf₁.installed hinst).addAllPvs hadd
  | rejected hfree hinst hadd hp hrem hq =>
      exact (((hwf₁.installed hinst).addAllPvs hadd).removed hp hrem).drop hq

theorem header_drop (d : Dir) (i j : IocId) (name : Name) :
    (d.drop i name).header j = if j = i then none else d.header j := by
  unfold header drop
  by_cases hj : j = i <;> simp [hj]

/-- A list that cannot be opened, as that of the empty path, is reported. -/
theorem addAllPvs_path {fs : FileSystem} {d d' : Dir} {i : IocId} {p : PIoc} {count : ℤ}
    (h : d.addAllPvs fs i = .ok (d', count)) (hcount : count ≠ -1) (hp : d.pIocs i = some p) :
    p.pathToList ≠ [] := by
  simp only [addAllPvs, bind_eq_ok_iff, getPIoc_eq_ok_iff, PIoc.getPathToList,
    strncpy_eq_ok_iff] at h
  obtain ⟨q, hq, path, ⟨-, hpath⟩, h⟩ := h
  rw [hp] at hq
  cases hq
  intro hnil
  rw [hpath, hnil] at h
  cases h
  exact hcount rfl

section Headers

variable {fs : FileSystem} {name path : Name} {d d₁ d₂ d₃ : Dir} {r count : ℤ}

/-- The list has been read: there is one IOC more. -/
theorem loaded_header (hfree : d.iocResTbl name = none)
    (hinst : Installed (d.installIocName name path).1 (name ++ heartbeat) d.nextPIoc d₁ r)
    (hadd : d₁.addAllPvs fs d.nextPIoc = .ok (d₂, count)) (j : IocId) : d₂.header j =
      if j = d.nextPIoc then some ⟨name, path, 0, SockAddr.zero, []⟩ else d.header j := by
  rw [addAllPvs_header hadd, hinst.header]
  unfold header
  rw [installIocName_pIocs hfree]
  split_ifs <;> rfl

/-- The list has been rejected: the IOCs are those there were. -/
theorem rejected_header {p : PIoc} (hwf : WF d) (hfree : d.iocResTbl name = none)
    (hinst : Installed (d.installIocName name path).1 (name ++ heartbeat) d.nextPIoc d₁ r)
    (hadd : d₁.addAllPvs fs d.nextPIoc = .ok (d₂, count)) (hp : d₂.pIocs d.nextPIoc = some p)
    (hrem : Removed d₂ d.nextPIoc p d₃) (n : Name) :
    (d₃.drop d.nextPIoc n).header = d.header := by
  funext j
  rw [header_drop, hrem.header hp, loaded_header hfree hinst hadd]
  split_ifs with hj
  · refine (header_eq_none_iff.mpr ?_).symm
    cases hx : d.pIocs j with
    | none => rfl
    | some x =>
        rw [hj] at hx
        exact absurd (hwf.pIocs_lt _ x hx) (lt_irrefl _)
  · rfl

/-- A pathname adds one IOC, not yet connected, or none. -/
theorem Entry.header_cases {d' : Dir} (hwf : WF d) (h : Entry fs name path d d') :
    d'.header = d.header ∨
    (path ≠ [] ∧ d.iocResTbl name = none ∧ ∀ j, d'.header j =
      if j = d.nextPIoc then some ⟨name, path, 0, SockAddr.zero, []⟩ else d.header j) := by
  cases h with
  | skipped => exact Or.inl rfl
  | @loaded d₁ d₂ r count hfree hinst hadd hcount =>
      refine Or.inr ⟨?_, hfree, loaded_header hfree hinst hadd⟩
      have hh := loaded_header hfree hinst hadd d.nextPIoc
      rw [if_pos rfl, addAllPvs_header hadd] at hh
      obtain ⟨p, hp, hpath⟩ := header_eq_some_iff.mp hh
      have hne := addAllPvs_path hadd hcount hp
      have hsame : p.header.pathToList = path := by rw [hpath]
      exact hsame ▸ hne
  | rejected hfree hinst hadd hp hrem _ =>
      exact Or.inl (rejected_header hwf hfree hinst hadd hp hrem _)

/-- What holds of every IOC before a pathname, and of the IOC it adds, holds of every IOC after. -/
theorem Entry.headers {d' : Dir} (hwf : WF d) (h : Entry fs name path d d') {Q : PIoc → Prop}
    (hold : ∀ i p, d.header i = some p → Q p)
    (hadded : path ≠ [] → d.iocResTbl name = none → Q ⟨name, path, 0, SockAddr.zero, []⟩) :
    ∀ i p, d'.header i = some p → Q p := by
  intro i p hp
  rcases h.header_cases hwf with hsame | ⟨hne, hfree, hnew⟩
  · rw [hsame] at hp
    exact hold i p hp
  · rw [hnew] at hp
    split_ifs at hp
    · cases hp
      exact hadded hne hfree
    · exact hold i p hp

end Headers

/-- A pathname of an IOC that is not in the table: the IOC is entered with its heartbeat, its list
is read, and if that was in vain the IOC is taken out again. -/
theorem directoryBody_new {filenameIsIocname : Bool} {fs : FileSystem} {token : Name}
    {acc acc' : Dir × ℕ} (hwf : WF acc.1) (hpath : isPath (cstr token) = true)
    (hfree : acc.1.iocResTbl (iocNameOf filenameIsIocname (cstr token)) = none)
    (h : directoryBody filenameIsIocname fs acc token = .ok acc') :
    ∃ d₁ r d₂ count,
      Installed (acc.1.installIocName (iocNameOf filenameIsIocname (cstr token)) (cstr token)).1
        (iocNameOf filenameIsIocname (cstr token) ++ heartbeat) acc.1.nextPIoc d₁ r ∧
      d₁.addAllPvs fs acc.1.nextPIoc = .ok (d₂, count) ∧
      (count ≠ -1 ∧ acc' = (d₂, acc.2 + 1) ∨ count = -1 ∧ ∃ p d₃ q,
        d₂.pIocs acc.1.nextPIoc = some p ∧ Removed d₂ acc.1.nextPIoc p d₃ ∧
        d₃.pIocs acc.1.nextPIoc = some q ∧
        acc' = (d₃.drop acc.1.nextPIoc q.iocname, acc.2)) := by
  simp only [directoryBody, bind_eq_ok_iff] at h
  obtain ⟨_, -, h⟩ := h
  rw [if_pos ⟨hpath, hfree⟩] at h
  simp only [bind_eq_ok_iff, getPIoc_eq_ok_iff, installIocName_pIocs hfree, if_pos,
    PIoc.getIocname, strncpy_eq_ok_iff, writeBuf_eq_ok_iff] at h
  obtain ⟨_, hnew, _, ⟨-, rfl⟩, _, ⟨-, rfl⟩, ⟨d₁, r⟩, hinst, ⟨d₂, count⟩, hadd, h⟩ := h
  cases hnew
  have hinst' := installPVName_installed hinst
  have hwf₂ := ((hwf.installIocName _ _).installed hinst').addAllPvs hadd
  refine ⟨d₁, r, d₂, count, hinst', hadd, ?_⟩
  by_cases hcount : count = -1
  · rw [if_pos hcount] at h
    simp only [cleanup, bind_eq_ok_iff, deletePIoc_eq_ok_iff] at h
    obtain ⟨_, ⟨d₃, hrem, q, hq, rfl⟩, h⟩ := h
    cases h
    obtain ⟨p, hp, hrem'⟩ := removeAllPvs_removed hwf₂ hrem
    exact Or.inr ⟨hcount, p, d₃, q, hp, hrem', hq, rfl⟩
  · rw [if_neg hcount] at h
    cases h
    exact Or.inl ⟨hcount, rfl⟩

theorem directoryBody_entry {filenameIsIocname : Bool} {fs : FileSystem} {token : Name}
    {acc acc' : Dir × ℕ} (hwf : WF acc.1)
    (h : directoryBody filenameIsIocname fs acc token = .ok acc') :
    (isPath (cstr token) = true ∧
      Entry fs (iocNameOf filenameIsIocname (cstr token)) (cstr token) acc.1 acc'.1) ∨
    acc' = acc := by
  by_cases hcond : isPath (cstr token) = true ∧
      acc.1.iocResTbl (iocNameOf filenameIsIocname (cstr token)) = none
  · obtain ⟨hpath, hfree⟩ := hcond
    refine Or.inl ⟨hpath, ?_⟩
    obtain ⟨d₁, r, d₂, count, hinst, hadd, ⟨hcount, hd⟩ | ⟨-, p, d₃, q, hp, hrem, hq, hd⟩⟩ :=
      directoryBody_new hwf hpath hfree h
    · rw [hd]
      exact .loaded hfree hinst hadd hcount
    · rw [hd]
      exact .rejected hfree hinst hadd hp hrem hq
  · simp only [directoryBody, bind_eq_ok_iff] at h
    obtain ⟨_, -, h⟩ := h
    rw [if_neg hcond] at h
    cases h
    exact Or.inr rfl

end Dir

/-- The pathnames of the directory file. -/
def Config.paths (cfg : Config) : List Name :=
  match cfg.directory with
  | none => []
  | some pf => ((words pf).map cstr).filter isPath

/-- The IOC name of a pathname. -/
def Config.iocName (cfg : Config) (path : Name) : Name := iocNameOf cfg.filenameIsIocname path

/-- What every pathname keeps, the loop of `parseDirectoryFile` keeps as far as it has come. -/
theorem directoryLoop_induct {P : Dir → Prop} {filenameIsIocname : Bool} {fs : FileSystem}
    {tokens : List Name} {d : Dir} {requested : ℕ}
    (h : tokens.foldlM (directoryBody filenameIsIocname fs) (Dir.empty, 0) = .ok (d, requested))
    (h0 : P Dir.empty)
    (hstep : ∀ path ∈ (tokens.map cstr).filter isPath, ∀ d d', d.WF → P d →
      d.Entry fs (iocNameOf filenameIsIocname path) path d' → P d') : d.WF ∧ P d := by
  refine foldlM_induct (P := fun acc : Dir × ℕ => acc.1.WF ∧ P acc.1) h ⟨Dir.WF.empty, h0⟩ ?_
  rintro token htoken acc acc' ⟨hwf, hP⟩ hbody
  rcases Dir.directoryBody_entry hwf hbody with ⟨hpath, hentry⟩ | rfl
  · refine ⟨hwf.entry hentry, hstep (cstr token) ?_ _ _ hwf hP hentry⟩
    exact List.mem_filter.mpr ⟨List.mem_map_of_mem htoken, hpath⟩
  · exact ⟨hwf, hP⟩

theorem parseDirectoryFile_induct {P : Dir → Prop} {filenameIsIocname : Bool} {fs : FileSystem}
    {pf : List Char} {d : Dir} {requested : ℕ}
    (h : parseDirectoryFile filenameIsIocname fs pf = .ok (d, requested)) (h0 : P Dir.empty)
    (hstep : ∀ path ∈ ((words pf).map cstr).filter isPath, ∀ d d', d.WF → P d →
      d.Entry fs (iocNameOf filenameIsIocname path) path d' → P d') : d.WF ∧ P d :=
  directoryLoop_induct h h0 hstep

/-! ## The searches for the heartbeats -/

/-- The state after the search for the heartbeat of the IOC `p` at `i`. -/
def Server.connect (s : Server) (i : IocId) (p : PIoc) (now : ℕ) : Server :=
  { s with
    ca := ⟨Function.update s.ca.chans s.ca.nextChid
        (some ⟨p.heartbeatName, .WDprocessChangeConnectionEvent, some i, none⟩),
      s.ca.nextChid + 1⟩
    nameList := ⟨p.heartbeatName, now, s.ca.nextChid, true⟩ :: s.nameList }

theorem Server.connect_chans (s : Server) (i : IocId) (p : PIoc) (now : ℕ) (c : Chid) :
    (s.connect i p now).ca.chans c = if c = s.ca.nextChid then
      some ⟨p.heartbeatName, .WDprocessChangeConnectionEvent, some i, none⟩
      else s.ca.chans c :=
  Function.update_apply ..

theorem connectIocHeartbeat_eq_ok {now : ℕ} {search : CaStatus} {s s' : Server} {i : IocId}
    (h : connectIocHeartbeat now search s i = .ok s') :
    search = .normal ∧ ∃ p, s.dir.pIocs i = some p ∧ s' = s.connect i p now := by
  simp only [connectIocHeartbeat, bind_eq_ok_iff, Dir.getPIoc_eq_ok_iff, PIoc.getIocname,
    strncpy_eq_ok_iff, writeBuf_eq_ok_iff] at h
  obtain ⟨p, hp, _, ⟨-, rfl⟩, _, ⟨-, rfl⟩, h⟩ := h
  cases search with
  | failed => cases h
  | normal =>
      simp only [Ca.search_setChan] at h
      cases h
      exact ⟨rfl, p, hp, rfl⟩

theorem readDirectory_induct {P : Dir → Prop} {cfg : Config} {d : Dir} {requested : ℕ}
    (h : cfg.readDirectory = .ok (d, requested)) (h0 : P Dir.empty)
    (hstep : ∀ path ∈ cfg.paths, ∀ d d', d.WF → P d →
      d.Entry cfg.fs (cfg.iocName path) path d' → P d') : d.WF ∧ P d := by
  unfold Config.readDirectory at h
  unfold Config.paths at hstep
  cases hcfg : cfg.directory with
  | none =>
      simp only [hcfg] at h
      cases h
      exact ⟨Dir.WF.empty, h0⟩
  | some pf =>
      simp only [hcfg] at h hstep
      exact parseDirectoryFile_induct h h0 hstep

/-- **The rule of startup**: `D` is kept by every pathname, and `P` by every search. -/
theorem startup_induct {D : Dir → Prop} {P : List IocId → Server → Prop} {rx : Regex}
    {cfg : Config} {s : Server} (h : startup rx cfg = .ok s) (h0 : D Dir.empty)
    (hdir : ∀ path ∈ cfg.paths, ∀ d d', d.WF → D d →
      d.Entry cfg.fs (cfg.iocName path) path d' → D d')
    (hinit : ∀ pgateAs d requested, d.WF → D d → P [] (cfg.initial pgateAs d requested))
    (hconn : ∀ pre i post s p, cfg.order = pre ++ i :: post → P pre s → s.dir.pIocs i = some p →
      P (pre ++ [i]) (s.connect i p (cfg.clock i))) : P cfg.order s := by
  simp only [startup, bind_eq_ok_iff] at h
  obtain ⟨pgateAs, -, ⟨d, requested⟩, hd, h⟩ := h
  obtain ⟨hwf, hPD⟩ := readDirectory_induct hd h0 hdir
  refine foldlM_prefix_induct (P := P) h (hinit pgateAs d requested hwf hPD) ?_
  intro pre i post s s' hl hP hbody
  obtain ⟨-, p, hp, rfl⟩ := connectIocHeartbeat_eq_ok hbody
  exact hconn pre i post s p hl hP hp

/-- The rule for the directory alone, which the searches leave as it is. -/
theorem startup_dir_induct {D : Dir → Prop} {rx : Regex} {cfg : Config} {s : Server}
    (h : startup rx cfg = .ok s) (h0 : D Dir.empty)
    (hdir : ∀ path ∈ cfg.paths, ∀ d d', d.WF → D d →
      d.Entry cfg.fs (cfg.iocName path) path d' → D d') : s.dir.WF ∧ D s.dir :=
  startup_induct (P := fun _ s => s.dir.WF ∧ D s.dir) h h0 hdir
    (fun _ _ _ hwf hd => ⟨hwf, hd⟩) fun _ _ _ _ _ _ hs _ => hs

/-- What startup makes of the directory, whatever the lists contain: the IOCs come from the
directory file, have a path, and are not connected yet. -/
theorem startup_header {rx : Regex} {cfg : Config} {s : Server} (h : startup rx cfg = .ok s)
    {i : IocId} {p : PIoc} (hp : s.dir.header i = some p) :
    p.pathToList ≠ [] ∧ p.pathToList ∈ cfg.paths ∧ p.iocname = cfg.iocName p.pathToList ∧
      p.status = 0 := by
  have hheads := (startup_dir_induct (D := fun d => ∀ i p, d.header i = some p →
    p.pathToList ≠ [] ∧ p.pathToList ∈ cfg.paths ∧ p.iocname = cfg.iocName p.pathToList ∧
      p.status = 0) h (fun _ _ h => nomatch h) fun path hpath d d' hwf hd hentry =>
        hentry.headers hwf hd fun hne _ => ⟨hne, hpath, rfl, rfl⟩).2
  exact hheads i p hp

end CaNameserver
