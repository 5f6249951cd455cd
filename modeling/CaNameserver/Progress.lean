import CaNameserver.DirectoryFile
import CaNameserver.LoaderBuffers
import CaNameserver.PvlistBuffers
import CaNameserver.Sound

/-!
# Nothing goes wrong

Every function of the model may fail: a pointer that leads nowhere, a string that does not fit, a
channel that has been closed, a loop that makes no progress.  This module says when none of them
does.  It is the other half of the invariants, which speak of the outcomes that there are.

## The site

`Config.Fits` is the condition on the files: the lines of the pvlist file and the words of the
directory file and of the lists fit their buffers, every list names the heartbeat of its own IOC
and of no other, and startup's searches succeed.  A list that did not name its heartbeat would be
rejected, and leave an entry of a deleted IOC behind.

## The events

`Tame` is the condition on the events, and has three parts.  The conditions of the coupling and of
the integrity (`uncrossed`, `unlistedAtDown`) keep the tables, the lists and the channels
together.  What comes from outside has to fit the buffers (`fits`).  And a purge gets enough
answers from a library that succeeds (`purgeEnds`), while a report can open `never.log`, which
`show` does not check.

## The argument

`Sound` is an invariant of the tame runs.  In a sound state each handler has an outcome, and there
is one lemma for each: it goes through the handler's steps and finds for each of them the field of
`Sound` that makes it succeed.  `Sound.handle_defined` puts them together.  Startup is a loop of
insertions over directories that are `Ready` for the next pathname, and a loop of searches.

* `nothing_goes_wrong`: startup comes to the main loop, and every tame event that can occur has an
  outcome in every state that tame events lead to.
-/

namespace CaNameserver

open CStr Fallible Transition

/-! ## Handlers -/

section Handlers

variable {rx : Regex} {s : Server} {c : Chid} {ch : Channel} {i : IocId} {p : PIoc}

/-- A heartbeat's connection: the list is only read if the IOC is down. -/
theorem Sound.wdReload_defined (h : Sound s) {cn : Connection} (hp : s.dir.pIocs i = some p)
    (hpath : p.pathToList ≠ []) (hlist : p.status = 2 → BriefList cn.fs p.pathToList) :
    Defined (Server.wdReload s.dir i cn) := by
  by_cases hst : p.status = 2
  · refine h.agrees.wdReload_defined hp hpath (h.fits_pIoc hp) fun pf hopen token htoken => ?_
    exact lt_of_lt_of_le (hlist hst pf hopen token htoken) (Nat.sub_le _ 1)
  · have hpA := Dir.setPIoc_pIocs_self s.dir i { p with addr := cn.addr p.addr }
    rw [Server.wdReload]
    refine Defined.bind ⟨_, Dir.setAddr_eq_ok_iff.mpr ⟨p, hp, rfl⟩⟩ fun d hd => ?_
    obtain ⟨p', hp', rfl⟩ := Dir.setAddr_eq_ok_iff.mp hd
    rw [hp] at hp'
    cases hp'
    refine (Dir.getPIoc_defined hpA).bind fun q hq => ?_
    cases (Dir.getPIoc_eq_ok_iff.mp hq).symm.trans hpA
    split_ifs
    · exact ⟨_, Dir.setStatus_eq_ok_iff.mpr ⟨_, hpA, rfl⟩⟩
    · exact .ok _

theorem Sound.wdConnUp_defined (h : Sound s) {cn : Connection} (hch : s.ca.chans c = some ch)
    (hhb : ch.IsHeartbeat) (hfits : fits s (.up c cn)) :
    Defined (Server.wdConnUp { s with ca := s.ca.setChan c { ch with server := some cn.server } }
      c cn) := by
  obtain ⟨i, name, path, hpuser, hsite, hpath, hname⟩ := h.shown.tied.owned c ch hch hhb
  obtain ⟨p, hp, rfl, rfl⟩ := Dir.site_eq_some_iff.mp hsite
  have hlen : ch.name.length < pvNameSz - 1 :=
    hname ▸ (h.iocs i _ (Dir.header_of_pIocs hp)).heartbeat
  rw [Server.wdConnUp]
  refine Defined.bind ⟨_, Ca.getChan_eq_ok_iff.mpr (by rw [Ca.setChan_chans, if_pos rfl])⟩
    fun chx hchx => ?_
  rw [Ca.getChan_eq_ok_iff, Ca.setChan_chans, if_pos rfl] at hchx
  cases hchx
  refine Defined.bind ⟨i, deref_eq_ok_iff.mpr hpuser⟩ fun j hj => ?_
  cases (deref_eq_ok_iff.mp hj).symm.trans hpuser
  refine Defined.bind ⟨_, strncpy_eq_ok_iff.mpr ⟨hlen, rfl⟩⟩ fun pvname _ => ?_
  have hreload := h.wdReload_defined hp hpath fun hst => (hfits ch hch).1 hhb i p hpuser hp hst
  exact hreload.bind fun d _ => ⟨_, rfl⟩

theorem Sound.wdConnDown_defined (h : Sound s) (hch : s.ca.chans c = some ch)
    (hhb : ch.IsHeartbeat) (now : ℕ) :
    Defined (Server.wdConnDown { s with ca := s.ca.setChan c { ch with server := none } } c now) := by
  obtain ⟨i, name, path, hpuser, hsite, -, hname⟩ := h.shown.tied.owned c ch hch hhb
  obtain ⟨p, hp, rfl, rfl⟩ := Dir.site_eq_some_iff.mp hsite
  have hlen : ch.name.length < pvNameSz - 1 :=
    hname ▸ (h.iocs i _ (Dir.header_of_pIocs hp)).heartbeat
  rw [Server.wdConnDown]
  refine Defined.bind ⟨_, Ca.getChan_eq_ok_iff.mpr (by rw [Ca.setChan_chans, if_pos rfl])⟩
    fun chx hchx => ?_
  rw [Ca.getChan_eq_ok_iff, Ca.setChan_chans, if_pos rfl] at hchx
  cases hchx
  refine Defined.bind ⟨i, deref_eq_ok_iff.mpr hpuser⟩ fun j hj => ?_
  cases (deref_eq_ok_iff.mp hj).symm.trans hpuser
  refine Defined.bind ⟨_, strncpy_eq_ok_iff.mpr ⟨hlen, rfl⟩⟩ fun pvname _ => ?_
  exact Defined.bind ⟨_, Dir.setStatus_eq_ok_iff.mpr ⟨p, hp, rfl⟩⟩ fun d _ => ⟨_, rfl⟩

/-- The IOC of a learned connection, as it is found or created, is one that PVs can be entered
under. -/
theorem Sound.found (h : Sound s) {cn : Connection}
    (hlen : (cn.iocname ++ heartbeat).length < pvNameSz - 1) :
    ∃ d i p, s.dir.findOrInstallIoc cn.iocname = (d, i) ∧ d.WF ∧ d.pIocs i = some p ∧
      p.heartbeatName.length < pvNameSz ∧ ∀ n j, d.owner n = some j → d.pIocs j ≠ none := by
  have hwf := h.shown.wf.findOrInstallIoc cn.iocname
  have hle : (cn.iocname ++ heartbeat).length < pvNameSz := lt_of_lt_of_le hlen (Nat.sub_le _ 1)
  rcases h.shown.wf.findOrInstallIoc_cases cn.iocname with ⟨i, p, hf, -, hp, hname⟩ |
    ⟨hfree, -, hf, hnew⟩
  · rw [hf] at hwf
    exact ⟨s.dir, i, p, hf, hwf, hp, by rwa [PIoc.heartbeatName, hname], h.agrees.owned⟩
  · rw [hf] at hwf
    refine ⟨_, _, _, hf, hwf, (hnew _).trans (if_pos rfl), hle, fun n i ho => ?_⟩
    rw [Dir.owner_installIocName] at ho
    rw [hnew]
    split_ifs
    · exact Option.some_ne_none _
    · exact h.agrees.owned n i ho

theorem setNewAddr_defined {d : Dir} (hp : d.pIocs i = some p) (cn : Connection) :
    Defined (Server.setNewAddr (decide (p.status = 2 ∨ p.status = 0)) d i cn) := by
  unfold Server.setNewAddr
  split_ifs
  · exact ⟨_, Dir.setAddr_eq_ok_iff.mpr ⟨p, hp, rfl⟩⟩
  · exact .ok d

theorem Sound.connUp_defined (h : Sound s) {cn : Connection} (hch : s.ca.chans c = some ch)
    (hl : ch.IsLearned) (hfits : fits s (.up c cn)) :
    Defined (Server.connUp { s with ca := s.ca.setChan c { ch with server := some cn.server } }
      c cn) := by
  obtain ⟨d, i, p, hf, hwf, hp, hheart, howned⟩ := h.found ((hfits ch hch).2 hl)
  have hf' : s.dir.findOrInstallIoc (cn.host.take (hostNameSz - 1)) = (d, i) := hf
  rw [Server.connUp]
  refine Defined.bind ⟨_, Ca.getChan_eq_ok_iff.mpr (by rw [Ca.setChan_chans, if_pos rfl])⟩
    fun chx hchx => ?_
  rw [Ca.getChan_eq_ok_iff, Ca.setChan_chans, if_pos rfl] at hchx
  cases hchx
  simp only [hf']
  refine (Dir.getPIoc_defined hp).bind fun q hq => ?_
  cases (Dir.getPIoc_eq_ok_iff.mp hq).symm.trans hp
  refine (setNewAddr_defined hp cn).bind fun d₁ hd₁ => ?_
  obtain rfl := setNewAddr_met hp hd₁
  refine Defined.bind ⟨_, strncpy_eq_ok_iff.mpr ⟨h.channels c ch hch hl, rfl⟩⟩ fun buf _ => ?_
  have hp₁ := Dir.setPIoc_pIocs_self d i (p.met cn)
  have hwf₁ := hwf.setPIoc (q := p.met cn) hp (by simp) (by simp)
  have hheart₁ : (p.met cn).heartbeatName.length < pvNameSz := by
    rw [PIoc.heartbeatName, PIoc.met_iocname]
    exact hheart
  have howned₁ : ∀ n j, (d.setPIoc i (p.met cn)).owner n = some j →
      (d.setPIoc i (p.met cn)).pIocs j ≠ none := by
    intro n j ho
    rw [Dir.setPIoc_pIocs]
    split_ifs
    · exact Option.some_ne_none _
    · exact howned n j ho
  refine ((hwf₁.installPVName_defined_iff hp₁ hheart₁ _).mpr fun _ o => howned₁ _ o).bind fun acc hacc => ?_
  have hinst := Dir.installPVName_installed hacc
  obtain ⟨q, hq, -⟩ := Dir.header_eq_some_iff.mp
    ((congrFun hinst.header i).trans (Dir.header_of_pIocs hp₁))
  refine Defined.bind ⟨_, Dir.popPvE_eq_ok_iff.mpr ⟨q, hq, rfl⟩⟩ fun d₂ hd₂ => ?_
  obtain ⟨q', hq', rfl⟩ := Dir.popPvE_eq_ok_iff.mp hd₂
  exact Defined.bind ⟨_, Dir.setStatus_eq_ok_iff.mpr
    ⟨_, Dir.setPIoc_pIocs_self .., rfl⟩⟩ fun d₃ _ => ⟨_, rfl⟩

theorem Sound.connDown_defined (h : Sound s) (hch : s.ca.chans c = some ch) (hl : ch.IsLearned) :
    Defined (Server.connDown { s with ca := s.ca.setChan c { ch with server := none } } c) := by
  rw [Server.connDown]
  refine Defined.bind ⟨_, Ca.getChan_eq_ok_iff.mpr (by rw [Ca.setChan_chans, if_pos rfl])⟩
    fun chx hchx => ?_
  rw [Ca.getChan_eq_ok_iff, Ca.setChan_chans, if_pos rfl] at hchx
  cases hchx
  refine Defined.bind ⟨_, strncpy_eq_ok_iff.mpr ⟨h.channels c ch hch hl, rfl⟩⟩ fun n _ => ?_
  cases hn : s.dir.stringResTbl n with
  | none => exact ⟨_, rfl⟩
  | some e =>
      obtain ⟨pv, hpv, -⟩ := h.shown.wf.table n e hn
      exact Defined.bind ⟨pv, Dir.getPvE_eq_ok_iff.mpr hpv⟩ fun _ _ => ⟨_, rfl⟩

theorem Sound.pvExistTest_defined (h : Sound s) (client : Name) {pPVName : Name}
    (hlen : pPVName.length < pvNameSz - 1) (search : CaStatus) (now : ℕ) :
    Defined (s.pvExistTest rx client pPVName search now) := by
  rw [Server.pvExistTest]
  refine Defined.bind ⟨_, strncpy_eq_ok_iff.mpr ⟨hlen, rfl⟩⟩ fun buf _ => ?_
  by_cases hnil : Server.recordName buf = []
  · simp only [if_pos hnil]
    exact ⟨_, rfl⟩
  simp only [if_neg hnil]
  cases hn : s.dir.stringResTbl (Server.recordName buf) with
  | none =>
      dsimp only
      split_ifs
      · exact ⟨_, rfl⟩
      · exact ⟨_, rfl⟩
      · exact ⟨_, rfl⟩
      · cases search with
        | failed => exact ⟨_, rfl⟩
        | normal => exact ⟨_, rfl⟩
  | some e =>
      obtain ⟨pv, hpv, -⟩ := h.shown.wf.table _ e hn
      obtain ⟨o, ho, -⟩ := h.shown.wf.owner_lt e pv hpv
      obtain ⟨q, hq⟩ := Option.ne_none_iff_exists'.mp
        (h.agrees.owned _ o ((Dir.owner_of_entry hn hpv).trans ho))
      refine Defined.bind ⟨pv, Dir.getPvE_eq_ok_iff.mpr hpv⟩ fun pv' hpv' => ?_
      cases (Dir.getPvE_eq_ok_iff.mp hpv').symm.trans hpv
      simp only [ho]
      refine (Dir.getPIoc_defined hq).bind fun q' _ => ?_
      split_ifs
      · exact ⟨_, rfl⟩
      · exact ⟨_, rfl⟩

theorem Sound.processPendingList_defined (h : Sound s) {now tooLong : ℕ}
    {answers : List Server.CaAnswers} (hends : purgeEnds s (.purge now tooLong answers)) :
    Defined (s.processPendingList now tooLong answers) := by
  obtain ⟨env, k, rfl, hclock, hgood, hk⟩ := hends
  let pg : Server.Purge := ⟨[], s.nameList, s.ca, s.neverResTbl⟩
  have hrest : pg.rest = s.nameList := rfl
  obtain ⟨l', ca', hswept, hpasses⟩ := Server.exists_swept hrest h.own hclock hgood
  exact Defined.bind ⟨_, (hpasses k hk).1⟩ fun _ _ => ⟨_, rfl⟩

/-- The callback of an open channel, whatever the library has noted about its connection. -/
theorem callbackOf_setConnection (hch : s.ca.chans c = some ch) (server : Option SockAddr) :
    callbackOf (setConnection s c server) c = .ok ch.callback := by
  rw [setConnection_of_chan hch, callbackOf, Ca.getChan, Ca.setChan_chans, if_pos rfl]
  rfl

/-- **Every tame event has an outcome in a sound state.** -/
theorem Sound.handle_defined (h : Sound s) {e : Event} (hen : enabled s e = true)
    (htame : Tame s e) : Defined (handle rx s e) := by
  cases e with
  | up c cn =>
      obtain ⟨ch, hch, -⟩ := enabled_up hen
      have hcb := callbackOf_setConnection hch (some cn.server)
      rw [setConnection_of_chan hch] at hcb
      rw [handle, setConnection_of_chan hch]
      refine Defined.bind ⟨_, hcb⟩ fun cb hcb' => ?_
      have hcase : ch.callback = cb := Except.ok.inj (hcb.symm.trans hcb')
      cases cb with
      | WDprocessChangeConnectionEvent => exact h.wdConnUp_defined hch hcase htame.fits
      | processChangeConnectionEvent => exact h.connUp_defined hch hcase htame.fits
  | down c now =>
      obtain ⟨ch, hch, -⟩ := enabled_down hen
      have hcb := callbackOf_setConnection hch none
      rw [setConnection_of_chan hch] at hcb
      rw [handle, setConnection_of_chan hch]
      refine Defined.bind ⟨_, hcb⟩ fun cb hcb' => ?_
      have hcase : ch.callback = cb := Except.ok.inj (hcb.symm.trans hcb')
      cases cb with
      | WDprocessChangeConnectionEvent => exact h.wdConnDown_defined hch hcase now
      | processChangeConnectionEvent => exact h.connDown_defined hch hcase
  | request client pPVName search now =>
      exact (h.pvExistTest_defined client htame.fits search now).bind fun _ _ => ⟨_, rfl⟩
  | purge => exact h.processPendingList_defined htame.purgeEnds
  | report => exact ⟨_, Server.showReport_eq_ok_iff.mpr ⟨htame.fits, rfl⟩⟩

end Handlers

/-! ## Startup -/

/-- The pathname of a signal list that loads: the strings fit, and the list names the heartbeat of
its IOC. -/
structure Loadable (fs : FileSystem) (name path : Name) : Prop where
  path_lt : path.length < pathNameSz - 1
  heartbeat_lt : (name ++ heartbeat).length < pvNameSz - 1
  list : BriefList fs path
  listed : name ++ heartbeat ∈ signals fs path

/-- The files fit the buffers, each signal list names the heartbeat of its own IOC and of no other,
and the searches of startup succeed. -/
structure Config.Fits (cfg : Config) : Prop where
  ownHeartbeats : cfg.OwnHeartbeats
  pvlist : ∀ lfile, cfg.pvlist = some lfile →
    ∀ line ∈ fgetsLines gateMaxPvlistLineLength lfile, GateAs.Short cfg.aToIPAddr line
  directory : ∀ pf, cfg.directory = some pf → ∀ token ∈ words pf, token.length < 200
  loadable : ∀ path ∈ cfg.paths, Loadable cfg.fs (cfg.iocName path) path
  search : cfg.search = .normal
  order : ∀ d requested, cfg.readDirectory = .ok (d, requested) → Visits d cfg.order

theorem Loadable.ne_nil {fs : FileSystem} {name path : Name} (h : Loadable fs name path) :
    path ≠ [] := by
  rintro rfl
  exact absurd h.listed List.not_mem_nil

/-- A directory that startup may go on with. -/
structure Dir.Ready (d : Dir) : Prop where
  agrees : d.Agrees
  iocs : ∀ i p, d.header i = some p → p.Brief
  pvs : d.BriefPVs

namespace Dir

variable {filenameIsIocname : Bool} {fs : FileSystem} {name path : Name} {d d₁ d₂ : Dir} {r : ℤ}

theorem Ready.empty : Dir.empty.Ready where
  agrees := .empty
  iocs := fun _ _ h => nomatch h
  pvs := fun _ _ h => nomatch h

/-- The new IOC with its heartbeat, before its list is read. -/
theorem Ready.install (h : d.Ready) (hl : Loadable fs name path) (hfree : d.iocResTbl name = none) :
    ∃ d₁ r, (d.installIocName name path).1.installPVName (name ++ heartbeat) d.nextPIoc =
      .ok (d₁, r) ∧ d₁.Ready ∧ d₁.stringResTbl (name ++ heartbeat) ≠ none ∧
      d₁.header d.nextPIoc = some ⟨name, path, 0, SockAddr.zero, []⟩ := by
  have hp : (d.installIocName name path).1.pIocs d.nextPIoc =
      some ⟨name, path, 0, SockAddr.zero, []⟩ := by
    rw [installIocName_pIocs hfree, if_pos rfl]
  have hagree := h.agrees.installIocName name hl.ne_nil
  obtain ⟨⟨d₁, r⟩, hrun⟩ := hagree.installPVName_defined hp
    (lt_of_lt_of_le hl.heartbeat_lt (Nat.sub_le _ 1)) (name ++ heartbeat)
  have hinst := installPVName_installed hrun
  have hhead : d₁.header d.nextPIoc = some ⟨name, path, 0, SockAddr.zero, []⟩ := by
    rw [hinst.header, header_of_pIocs hp]
    rfl
  have hpvs : (d.installIocName name path).1.BriefPVs := by
    intro e pv he
    rw [installIocName, hfree] at he
    exact h.pvs e pv he
  refine ⟨d₁, r, hrun, ⟨hagree.installed hinst, fun j q hq => ?_, hpvs.installed hinst hl.heartbeat_lt⟩,
    hinst.mem, hhead⟩
  rw [hinst.header, header, installIocName_pIocs hfree] at hq
  split_ifs at hq
  · cases hq
    exact ⟨hl.heartbeat_lt, hl.path_lt⟩
  · exact h.iocs j q hq

/-- The list is read to its end, and accepted. -/
theorem Ready.load {i : IocId} (h : d.Ready) (hl : Loadable fs name path)
    (hthere : d.stringResTbl (name ++ heartbeat) ≠ none)
    (hhead : d.header i = some ⟨name, path, 0, SockAddr.zero, []⟩) :
    ∃ d' count, d.addAllPvs fs i = .ok (d', count) ∧ count ≠ -1 ∧ d'.Ready := by
  obtain ⟨p, hp, hpp⟩ := header_eq_some_iff.mp hhead
  have hname : p.heartbeatName = name ++ heartbeat := by
    rw [PIoc.heartbeatName, show p.iocname = name from congrArg PIoc.iocname hpp]
  have hpath : p.pathToList = path := congrArg PIoc.pathToList hpp
  have hbrief := h.iocs i _ (header_of_pIocs hp)
  have hfit : Fits d p := ⟨lt_of_lt_of_le hbrief.heartbeat (Nat.sub_le _ 1), hbrief.path,
    fun e _ pv hpv => h.pvs e pv hpv⟩
  have htok : ∀ pf, fopen fs p.pathToList = some pf → ∀ token ∈ words pf, token.length < pvNameSz :=
    fun pf hopen token htoken =>
      lt_of_lt_of_le (hl.list pf (hpath ▸ hopen) token htoken) (Nat.sub_le _ 1)
  obtain ⟨⟨d', count⟩, hadd⟩ := h.agrees.addAllPvs_defined hp hfit htok
  refine ⟨d', count, hadd, ?_, h.agrees.addAllPvs hadd, fun j q hq => ?_, ?_⟩
  · exact addAllPvs_accepted hadd hp (hname ▸ hthere) (hname ▸ hpath ▸ hl.listed)
  · rw [addAllPvs_header hadd] at hq
    exact h.iocs j q hq
  · exact h.pvs.addAllPvs hadd hp (hpath ▸ hl.list)

end Dir

section Startup

variable {cfg : Config} {rx : Regex}

/-- One word of the directory file. -/
theorem directoryBody_ready {filenameIsIocname : Bool} {fs : FileSystem} {acc : Dir × ℕ}
    {token : Name} (h : acc.1.Ready) (hlen : token.length < 200)
    (hl : isPath (cstr token) = true →
      Loadable fs (iocNameOf filenameIsIocname (cstr token)) (cstr token)) :
    ∃ acc', directoryBody filenameIsIocname fs acc token = .ok acc' ∧ acc'.1.Ready := by
  by_cases hcond : isPath (cstr token) = true ∧
      acc.1.iocResTbl (iocNameOf filenameIsIocname (cstr token)) = none
  · obtain ⟨hpath, hfree⟩ := hcond
    have hload := hl hpath
    obtain ⟨d₁, r, hinst, hready₁, hthere, hhead⟩ := h.install hload hfree
    obtain ⟨d₂, count, hadd, hcount, hready₂⟩ := hready₁.load hload hthere hhead
    have hp : (acc.1.installIocName (iocNameOf filenameIsIocname (cstr token))
        (cstr token)).1.pIocs acc.1.nextPIoc =
          some ⟨iocNameOf filenameIsIocname (cstr token), cstr token, 0, SockAddr.zero, []⟩ := by
      rw [Dir.installIocName_pIocs hfree, if_pos rfl]
    have hheart : (iocNameOf filenameIsIocname (cstr token) ++ heartbeat).length < pvNameSz :=
      lt_of_lt_of_le hload.heartbeat_lt (Nat.sub_le _ 1)
    have hname : (iocNameOf filenameIsIocname (cstr token)).length < hostNameSz - 1 := by
      rw [List.length_append] at hheart
      exact Nat.lt_of_lt_of_le (Nat.lt_sub_of_add_lt hheart) (by decide)
    refine ⟨(d₂, acc.2 + 1), ?_, hready₂⟩
    simp only [directoryBody, bind_eq_ok_iff, writeBuf_eq_ok_iff]
    refine ⟨token, ⟨hlen, rfl⟩, ?_⟩
    rw [if_pos ⟨hpath, hfree⟩]
    simp only [bind_eq_ok_iff, Dir.getPIoc_eq_ok_iff, PIoc.getIocname, strncpy_eq_ok_iff,
      writeBuf_eq_ok_iff]
    refine ⟨_, hp, _, ⟨hname, rfl⟩, _, ⟨hheart, rfl⟩, _, hinst, _, hadd, ?_⟩
    rw [if_neg hcount]
    rfl
  · exact ⟨acc, (Dir.directoryBody_passed hcond).mpr ⟨hlen, rfl⟩, h⟩

/-- **The directory file is read to its end.** -/
theorem Config.Fits.readDirectory_defined (h : cfg.Fits) :
    ∃ d requested, cfg.readDirectory = .ok (d, requested) ∧ d.Ready := by
  have hload := h.loadable
  unfold Config.readDirectory
  unfold Config.paths at hload
  cases hdir : cfg.directory with
  | none => exact ⟨Dir.empty, 0, rfl, .empty⟩
  | some pf =>
      simp only [hdir] at hload ⊢
      have hbody : ∀ token ∈ words pf, ∀ acc : Dir × ℕ, acc.1.Ready → ∃ acc',
          directoryBody cfg.filenameIsIocname cfg.fs acc token = .ok acc' ∧ acc'.1.Ready := by
        refine fun token htoken acc hacc =>
          directoryBody_ready hacc (h.directory pf hdir token htoken) fun hp => ?_
        exact hload _ (List.mem_filter.mpr ⟨List.mem_map_of_mem htoken, hp⟩)
      have hkeeps : ∀ pre token post (acc acc' : Dir × ℕ), words pf = pre ++ token :: post →
          acc.1.Ready → directoryBody cfg.filenameIsIocname cfg.fs acc token = .ok acc' →
            acc'.1.Ready := by
        intro pre token post acc acc' hl hacc hrun
        obtain ⟨acc'', hrun', hready⟩ := hbody token (by simp [hl]) acc hacc
        cases hrun.symm.trans hrun'
        exact hready
      obtain ⟨⟨d, requested⟩, hrun⟩ := Defined.foldlM (P := fun _ (acc : Dir × ℕ) => acc.1.Ready)
        (b := (Dir.empty, 0)) Dir.Ready.empty hkeeps fun pre token post acc hl hacc => by
          obtain ⟨acc', hrun, -⟩ := hbody token (by simp [hl]) acc hacc
          exact ⟨acc', hrun⟩
      refine ⟨d, requested, hrun, ?_⟩
      exact foldlM_prefix_induct (P := fun _ (acc : Dir × ℕ) => acc.1.Ready) hrun .empty hkeeps

/-- The searches for the heartbeats. -/
theorem connectLoop_defined (clock : IocId → ℕ) {order : List IocId} {s : Server}
    (hthere : ∀ i ∈ order, ∃ p, s.dir.pIocs i = some p ∧ p.heartbeatName.length < pvNameSz) :
    Defined (order.foldlM (fun s i => connectIocHeartbeat (clock i) .normal s i) s) := by
  refine Defined.foldlM (P := fun _ x => x.dir = s.dir) rfl ?_ ?_
  · intro pre i post x x' _ hx hbody
    obtain ⟨-, p, -, rfl⟩ := connectIocHeartbeat_eq_ok hbody
    exact hx
  · intro pre i post x hl hx
    obtain ⟨p, hp, hheart⟩ := hthere i (by simp [hl])
    have hname : p.iocname.length < hostNameSz - 1 := by
      rw [PIoc.heartbeatName, List.length_append] at hheart
      exact Nat.lt_of_lt_of_le (Nat.lt_sub_of_add_lt hheart) (by decide)
    rw [connectIocHeartbeat]
    refine (Dir.getPIoc_defined (hx ▸ hp)).bind fun q hq => ?_
    rw [hx] at hq
    cases (Dir.getPIoc_eq_ok_iff.mp hq).symm.trans hp
    refine Defined.bind ⟨_, strncpy_eq_ok_iff.mpr ⟨hname, rfl⟩⟩ fun name hname' => ?_
    obtain ⟨-, rfl⟩ := strncpy_eq_ok_iff.mp hname'
    exact Defined.bind ⟨_, writeBuf_eq_ok_iff.mpr ⟨hheart, rfl⟩⟩ fun _ _ => ⟨_, rfl⟩

/-- **Startup comes to the main loop.** -/
theorem Config.Fits.startup_defined (h : cfg.Fits) (rx : Regex) :
    ∃ s, startup rx cfg = .ok s ∧ Visits s.dir cfg.order ∧ s.dir.Ready := by
  obtain ⟨d, requested, hread, hready⟩ := h.readDirectory_defined
  have hvisits := h.order d requested hread
  have haccess : Defined (cfg.readAccess rx) := by
    unfold Config.readAccess
    cases hpvlist : cfg.pvlist with
    | none => exact .ok none
    | some lfile =>
        have hread : ∃ g, GateAs.readPvList rx cfg.aToIPAddr cfg.lev lfile = .ok g :=
          GateAs.readPvList_ok_iff.mpr fun line hline =>
            GateAs.firstPass_ok_iff.mpr (h.pvlist lfile hpvlist line hline)
        obtain ⟨g, hg⟩ := hread
        dsimp only
        rw [hg]
        exact .ok (some g)
  obtain ⟨pgateAs, hgate⟩ := haccess
  have hthere : ∀ i ∈ cfg.order, ∃ p, d.pIocs i = some p ∧ p.heartbeatName.length < pvNameSz := by
    intro i hi
    obtain ⟨n, hn⟩ := (hvisits.2 i).mp hi
    obtain ⟨p, hp, -⟩ := (hready.agrees.wf.iocTable n i).mp hn
    exact ⟨p, hp, lt_of_lt_of_le (hready.iocs i _ (Dir.header_of_pIocs hp)).heartbeat (Nat.sub_le _ 1)⟩
  obtain ⟨s, hs⟩ := connectLoop_defined cfg.clock (s := cfg.initial pgateAs d requested) hthere
  have hdir : s.dir = d := connectLoop_dir hs
  refine ⟨s, ?_, hdir ▸ hvisits, hdir ▸ hready⟩
  simp only [startup, bind_eq_ok_iff]
  exact ⟨pgateAs, hgate, (d, requested), hread, h.search ▸ hs⟩

/-- Startup leaves a sound state. -/
theorem Config.Fits.startup_sound (h : cfg.Fits) {s : Server} (hs : startup rx cfg = .ok s)
    (hvisits : Visits s.dir cfg.order) : Sound s := by
  obtain ⟨s', hs', -, hready⟩ := h.startup_defined rx
  cases hs.symm.trans hs'
  refine ⟨startup_shown hs hvisits, startup_coupled hs h.ownHeartbeats hvisits, startup_live hs,
    fun n i ho => ?_, fun i p hp hnil => ?_, hready.iocs, hready.pvs, fun c ch hch hl => ?_⟩
  · exact fun hnone => hready.agrees.owned n i ho (Dir.header_eq_none_iff.mp hnone)
  · obtain ⟨q, hq, rfl⟩ := Dir.header_eq_some_iff.mp hp
    exact hready.agrees.learned i q hq hnil
  · exact absurd (startup_chans hs hch).1 (Channel.not_isHeartbeat hl)

end Startup

/-! ## Runs -/

/-- **Nothing goes wrong.**  Startup comes to the main loop, and in every state that tame events
lead to, every tame event that can occur has an outcome. -/
theorem nothing_goes_wrong (rx : Regex) {cfg : Config} (hcfg : cfg.Fits) :
    (∃ s, (nameServer rx (· = cfg)).init s) ∧
    ∀ s, Reachable (nameServer rx (· = cfg)) Tame s → ∀ e, enabled s e = true → Tame s e →
      ∃ s', (nameServer rx (· = cfg)).step s e s' := by
  constructor
  · obtain ⟨s, hs, hvisits, -⟩ := hcfg.startup_defined rx
    exact ⟨s, cfg, rfl, hs, hvisits⟩
  · intro s hreach e hen htame
    have hsound : Sound s := by
      refine hreach.invariant (I := Sound) ?_ ?_
      · rintro s ⟨_, rfl, hs, hvisits⟩
        exact hcfg.startup_sound hs hvisits
      · rintro s e s' hs htame ⟨hen, hs'⟩
        exact hs.handled (handle_handled hs.shown.wf hen hs') htame
    have hrun : Defined (handle rx s e) := hsound.handle_defined hen htame
    obtain ⟨s', hs'⟩ := hrun
    exact ⟨s', hen, hs'⟩

/-- `fits`, executable, for events other than the purge. -/
def fitsB (s : Server) : Event → Bool
  | .up c cn => (s.ca.chans c).all fun ch =>
      (ch.puser.bind s.dir.pIocs).all (fun p => (fopen cn.fs p.pathToList).all fun pf =>
        (words pf).all fun token => decide (token.length < pvNameSz - 1)) &&
      decide ((cn.iocname ++ heartbeat).length < pvNameSz - 1)
  | .request _ pPVName _ _ => decide (pPVName.length < pvNameSz - 1)
  | .purge .. => false
  | .report neverLog => neverLog
  | _ => true

/-- `Tame`, executable, for events other than the purge. -/
def tameB (s : Server) (e : Event) : Bool := uncrossedB s e && unlistedAtDownB s e && fitsB s e

theorem tame_of_eq_true {s : Server} {e : Event} (hwf : s.dir.WF) (h : tameB s e = true) :
    Tame s e := by
  rw [tameB, Bool.and_eq_true, Bool.and_eq_true] at h
  obtain ⟨⟨huncrossed, hunlisted⟩, hfits⟩ := h
  refine ⟨uncrossed_of_eq_true hwf huncrossed, unlistedAtDown_of_eq_true hwf hunlisted, ?_, ?_⟩
  · cases e with
    | up c cn =>
        intro ch hch
        simp only [fitsB, hch, Option.all_some, Bool.and_eq_true, decide_eq_true_eq] at hfits
        refine ⟨fun _ i p hpuser hp _ pf hopen token htoken => ?_, fun _ => hfits.2⟩
        have hall := hfits.1
        rw [hpuser, Option.bind_some, hp, Option.all_some, hopen, Option.all_some,
          List.all_eq_true] at hall
        exact of_decide_eq_true (hall token htoken)
    | request client pPVName search now =>
        have hlen : pPVName.length < pvNameSz - 1 := of_decide_eq_true hfits
        exact hlen
    | down => trivial
    | purge => trivial
    | report => exact hfits
  · cases e with
    | purge => cases hfits
    | up => trivial
    | down => trivial
    | request => trivial
    | report => trivial

theorem oneIoc_fits : oneIoc.Fits := by
  have honly : ∀ x ∈ oneIoc.paths, x = "A/sig".toList := by decide
  refine ⟨fun path hpath path' hpath' _ => ?_, nofun, ?_, fun path hpath => ?_, rfl, ?_⟩
  · rw [honly path hpath, honly path' hpath']
  · rintro _ ⟨⟩
    decide
  · rw [honly path hpath]
    refine ⟨by decide, by decide, ?_, by decide⟩
    rintro _ ⟨⟩
    decide
  · intro d requested hread
    have hvisits : (oneIoc.readDirectory.toOption).any (fun r => visits r.1 [0]) = true := by decide
    have hwf : d.WF := (readDirectory_induct (P := fun _ => True) hread trivial
      fun _ _ _ _ _ _ _ => trivial).1
    rw [toOption_eq_some_iff.mpr hread] at hvisits
    exact hwf.visits_of_visits hvisits

/-- A PV has been learned and lost, and is asked for again. -/
theorem nothing_goes_wrong_learned : ∃ s s', run literal tameB oneIoc learnedAndLost = some s ∧
    handle literal s (.request [] "z.VAL".toList .normal 9) = .ok s' := by
  have hrun : (run literal tameB oneIoc learnedAndLost).isSome = true := by decide
  obtain ⟨s, hs⟩ := Option.isSome_iff_exists.mp hrun
  have hreach : Reachable (nameServer literal (· = oneIoc)) Tame s :=
    reachable_of_run (fun _ _ hwf => tame_of_eq_true hwf) rfl hs
  obtain ⟨s', -, hs'⟩ := (nothing_goes_wrong literal oneIoc_fits).2 s hreach
    (.request [] "z.VAL".toList .normal 9) rfl
    ⟨trivial, trivial, show "z.VAL".toList.length < pvNameSz - 1 by decide, trivial⟩
  exact ⟨s, s', hs, hs'⟩

end CaNameserver
