import CaNameserver.Runs

/-!
# A reload, step by step

The callback of a heartbeat that comes back runs preemptively: the server thread may answer a
request between any two of its operations on the tables and lists.  Here the callback takes its
steps one at a time, with requests in between.

## The steps

`Reloading` is the callback between two steps: the server, the program counter, and the variables
of `remove_all_pvs` (`Drain`), of which the entry just taken off the list is one.  Each access to
a table or a list is a step (`Pc`): the node goes off the pending list, the address is set, the
status looked at, an entry popped, its name removed from the table, the entry deleted, the
heartbeat put back, the file opened, a name read, the status set.  A request is one step, for it
is the callback that is interrupted here and not the server thread.

## The rest of the callback

`Reloading.finish` is what is left of the callback from a given point on, without interruption.
It is made from the end backwards: `finishList` reads the rest of the list, `finishOpen` opens it,
`finishAdd` puts the heartbeat back first, and `finishLoop` takes the rest of the PVs out before
that.  A step leaves the rest of the callback to be done (`finish_callback`), and a request
changes no table (`next_request`).  So the directory that the rest leads to is the same all along.

* `reloading_ends`: whatever requests come in between, the directory in the end is the one of the
  uninterrupted handler.
* `reloading_of_reachable`: the connections of heartbeats in the server's runs are among these.
-/

namespace CaNameserver

open CStr Fallible Transition

/-! ## The steps of the callback -/

/-- The variables of `remove_all_pvs`. -/
structure Drain where
  removeAll : Bool
  checkStr : Name
  pvEHeartbeat : Option PvEId

/-- Where the callback stands. -/
inductive Pc where
  | removePending
  | setAddr
  | getStatus
  | removeAllPvs
  | getPvE (v : Drain)
  | removeId (pve : PvEId) (v : Drain)
  | deletePvE (pve : PvEId) (v : Drain)
  | addHeartbeat (pve : PvEId)
  | openList
  | installPVName (tokens : List Name)
  | setStatus
  | done

/-- `WDprocessChangeConnectionEvent` for a connection of the IOC at `pI`, between two steps. -/
structure Reloading where
  server : Server
  pI : IocId
  pvname : Name
  cn : Connection
  pc : Pc

namespace Reloading

/-- Go on with another directory. -/
def goto (a : Reloading) (d : Dir) (pc : Pc) : Reloading :=
  { a with server := { a.server with dir := d }, pc := pc }

/-- The next step of the callback. -/
def callback (a : Reloading) : Except Fault Reloading :=
  let d := a.server.dir
  match a.pc with
  | .removePending => .ok { a with
      server := { a.server with
        connectedIocs := a.server.connectedIocs + 1
        nameList := removePending a.pvname a.server.nameList }
      pc := .setAddr }
  | .setAddr => do
      let d ← d.setAddr a.pI a.cn.host a.cn.aToIPAddr
      return a.goto d .getStatus
  | .getStatus => do
      let p ← d.getPIoc a.pI
      return a.goto d (if p.status = 0 then .setStatus else if p.status = 2 then .removeAllPvs
        else .done)
  | .removeAllPvs => do
      let p ← d.getPIoc a.pI
      let iocName ← p.getIocname
      let pathToList ← p.getPathToList
      let checkStr ← Dir.checkStrOf pathToList.isEmpty iocName
      return a.goto d (.getPvE ⟨pathToList.isEmpty, checkStr, none⟩)
  | .getPvE v => do
      let p ← d.getPIoc a.pI
      match p.pvEList with
      | [] => return a.goto d (v.pvEHeartbeat.elim .openList .addHeartbeat)
      | pve :: rest => return a.goto (d.setPIoc a.pI { p with pvEList := rest }) (.removeId pve v)
  | .removeId pve v => do
      let e ← d.getPvE pve
      let pvNameStr ← e.getName
      if v.removeAll ∨ v.checkStr ≠ pvNameStr then
        let d := if d.stringResTbl pvNameStr = some pve then d.tblRemove pvNameStr else d
        return a.goto d (.deletePvE pve v)
      else return a.goto d (.getPvE { v with pvEHeartbeat := some pve })
  | .deletePvE pve v => .ok (a.goto (d.deletePvE pve) (.getPvE v))
  | .addHeartbeat pve => do
      let d ← d.add a.pI pve
      return a.goto d .openList
  | .openList => do
      let p ← d.getPIoc a.pI
      let pathToList ← p.getPathToList
      return a.goto d (((fopen a.cn.fs pathToList).map words).elim .setStatus .installPVName)
  | .installPVName [] => .ok (a.goto d .setStatus)
  | .installPVName (token :: tokens) => do
      let _ ← writeBuf pvNameSz token
      let (d, _) ← d.installPVName (cstr token) a.pI
      return a.goto d (.installPVName tokens)
  | .setStatus => do
      let d ← d.setStatus a.pI 1
      return a.goto d .done
  | .done => .ok a

end Reloading

/-- A move of one of the two threads. -/
inductive Move where
  | callback
  | request (client pPVName : Name) (search : CaStatus) (now : ℕ)

/-- The next move. -/
def Reloading.next (rx : Regex) (a : Reloading) : Move → Except Fault Reloading
  | .callback => a.callback
  | .request client pPVName search now => do
      let (s, _) ← a.server.pvExistTest rx client pPVName search now
      return { a with server := s }

/-- All interleavings of the callback, for an IOC that was down, with requests. -/
def reloading (rx : Regex) : System Reloading Move where
  init a := a.server.dir.WF ∧ a.pc = .removePending ∧
    ∃ p, a.server.dir.pIocs a.pI = some p ∧ p.status = 2
  step a m a' := a.next rx m = .ok a'

/-! ## The uninterrupted callback -/

namespace Reloading

/-- The end of `add_all_pvs`, after the list has been opened, and of the callback. -/
def finishList (pI : IocId) (d : Dir) (tokens : List Name) : Except Fault Dir := do
  let (d, _) ← tokens.foldlM (Dir.parseBody pI) (d, 0)
  d.setStatus pI 1

/-- `add_all_pvs` and the end of the callback. -/
def finishOpen (pI : IocId) (fs : FileSystem) (d : Dir) : Except Fault Dir := do
  let (d, _) ← d.addAllPvs fs pI
  d.setStatus pI 1

/-- The end of `remove_all_pvs`, and of the callback. -/
def finishAdd (pI : IocId) (fs : FileSystem) (d : Dir) (pvEHeartbeat : Option PvEId) :
    Except Fault Dir := do
  let d ← pvEHeartbeat.elim (.ok d) (d.add pI)
  finishOpen pI fs d

/-- The loop of `remove_all_pvs` over the entries `l`, and the end of the callback. -/
def finishLoop (pI : IocId) (fs : FileSystem) (d : Dir) (l : List PvEId) (v : Drain) :
    Except Fault Dir := do
  let p ← d.getPIoc pI
  let (d, hb) ← l.foldlM (Dir.removeBody v.removeAll v.checkStr)
    (d.setPIoc pI { p with pvEList := [] }, v.pvEHeartbeat)
  finishAdd pI fs d hb

/-- The directory the rest of the callback leads to, without interruption. -/
def finish (a : Reloading) : Except Fault Dir :=
  let d := a.server.dir
  match a.pc with
  | .removePending => Server.wdReload d a.pI a.cn
  | .setAddr => Server.wdReload d a.pI a.cn
  | .getStatus => do
      let p ← d.getPIoc a.pI
      if p.status = 0 then d.setStatus a.pI 1
      else if p.status = 2 then do
        let d ← d.removeAllPvs a.pI
        finishOpen a.pI a.cn.fs d
      else return d
  | .removeAllPvs => do
      let d ← d.removeAllPvs a.pI
      finishOpen a.pI a.cn.fs d
  | .getPvE v => do
      let p ← d.getPIoc a.pI
      finishLoop a.pI a.cn.fs d p.pvEList v
  | .removeId pve v => do
      let p ← d.getPIoc a.pI
      finishLoop a.pI a.cn.fs d (pve :: p.pvEList) v
  | .deletePvE pve v => do
      let p ← d.getPIoc a.pI
      finishLoop a.pI a.cn.fs (d.deletePvE pve) p.pvEList v
  | .addHeartbeat pve => finishAdd a.pI a.cn.fs d (some pve)
  | .openList => finishOpen a.pI a.cn.fs d
  | .installPVName tokens => finishList a.pI d tokens
  | .setStatus => d.setStatus a.pI 1
  | .done => .ok d

theorem finishOpen_eq {pI : IocId} {fs : FileSystem} {d : Dir} {p : PIoc} {path : Name}
    (hp : d.pIocs pI = some p) (hpath : p.getPathToList = .ok path) :
    finishOpen pI fs d =
      ((fopen fs path).map words).elim (d.setStatus pI 1) (finishList pI d) := by
  rw [finishOpen, Dir.addAllPvs, Dir.getPIoc, hp, deref_some]
  dsimp only [bind, Except.bind]
  rw [hpath]
  dsimp only
  cases fopen fs path with
  | none => rfl
  | some pf =>
      dsimp only [Option.map_some, Option.elim_some, finishList, Dir.parseDirectoryFP, bind,
        Except.bind]
      cases (words pf).foldlM (Dir.parseBody pI) (d, 0) with
      | error f => rfl
      | ok acc => rfl

/-- `have_a_heart` plays no part in the directory. -/
theorem finishList_cons {pI : IocId} {d d' : Dir} {token : Name} {tokens : List Name} {b : Name}
    {r : ℤ} (hb : writeBuf pvNameSz token = .ok b)
    (h : d.installPVName (cstr token) pI = .ok (d', r)) :
    finishList pI d (token :: tokens) = finishList pI d' tokens := by
  have hcount : ∀ (tokens : List Name) (d : Dir) (k k' : ℕ),
      ((tokens.foldlM (Dir.parseBody pI) (d, k)).map Prod.fst) =
        (tokens.foldlM (Dir.parseBody pI) (d, k')).map Prod.fst := by
    intro tokens
    induction tokens with
    | nil => exact fun _ _ _ => rfl
    | cons token tokens ih =>
        intro d k k'
        rw [List.foldlM_cons, List.foldlM_cons, Dir.parseBody, Dir.parseBody]
        dsimp only [bind, Except.bind]
        cases writeBuf pvNameSz token with
        | error f => rfl
        | ok b =>
            cases d.installPVName (cstr token) pI with
            | error f => rfl
            | ok acc => exact ih _ _ _
  have hlist : ∀ (tokens : List Name) (d : Dir) (k : ℕ), finishList pI d tokens =
      (tokens.foldlM (Dir.parseBody pI) (d, k)).map Prod.fst >>= fun d => d.setStatus pI 1 := by
    intro tokens d k
    rw [hcount tokens d k 0, finishList]
    cases tokens.foldlM (Dir.parseBody pI) (d, 0) with
    | error f => rfl
    | ok acc => rfl
  rw [hlist _ _ 0, List.foldlM_cons, Dir.parseBody, hb, h]
  exact (hlist tokens d' _).symm

/-- The loop does not look at the list of the IOC. -/
theorem finishLoop_setPIoc {pI : IocId} {fs : FileSystem} {d : Dir} {p : PIoc}
    (hp : d.pIocs pI = some p) (l l' : List PvEId) (v : Drain) :
    finishLoop pI fs (d.setPIoc pI { p with pvEList := l' }) l v = finishLoop pI fs d l v := by
  rw [finishLoop, finishLoop, Dir.getPIoc, Dir.getPIoc, Dir.setPIoc_pIocs_self, hp, deref_some,
    deref_some]
  dsimp only [bind, Except.bind]
  rw [Dir.setPIoc_setPIoc]

theorem finishLoop_nil {pI : IocId} {fs : FileSystem} {d : Dir} {p : PIoc}
    (hp : d.pIocs pI = some p) (hl : p.pvEList = []) (v : Drain) :
    finishLoop pI fs d [] v = finishAdd pI fs d v.pvEHeartbeat := by
  have hself : d.setPIoc pI { p with pvEList := [] } = d := by
    rw [← hl]
    exact Dir.setPIoc_self hp
  rw [finishLoop, Dir.getPIoc, hp, deref_some]
  dsimp only [bind, Except.bind]
  rw [hself]
  rfl

/-- Nor does its body. -/
theorem removeBody_setPIoc {d : Dir} {name : Name} {pve : PvEId} {e : PvE}
    (he : d.getPvE pve = .ok e) (hname : e.getName = .ok name) (v : Drain) (i : IocId) (p : PIoc) :
    Dir.removeBody v.removeAll v.checkStr (d.setPIoc i p, v.pvEHeartbeat) pve =
      if v.removeAll = true ∨ v.checkStr ≠ name then
        .ok (((if d.stringResTbl name = some pve then d.tblRemove name else d).deletePvE
          pve).setPIoc i p, v.pvEHeartbeat)
      else .ok (d.setPIoc i p, some pve) := by
  have he' : (d.setPIoc i p).getPvE pve = .ok e := he
  rw [Dir.removeBody, he']
  dsimp only [bind, Except.bind]
  rw [hname]
  dsimp only
  split_ifs with hcond htab htab'
  · rfl
  · exact absurd htab htab'
  · exact absurd ‹_› htab
  · rfl
  · rfl

/-- One turn of the loop. -/
theorem finishLoop_cons {pI : IocId} {fs : FileSystem} {d : Dir} (d' : Dir) {pve : PvEId}
    (v v' : Drain) (hioc : d'.getPIoc pI = d.getPIoc pI)
    (hv : v'.removeAll = v.removeAll ∧ v'.checkStr = v.checkStr)
    (h : ∀ p, Dir.removeBody v.removeAll v.checkStr (d.setPIoc pI p, v.pvEHeartbeat) pve =
      .ok (d'.setPIoc pI p, v'.pvEHeartbeat)) :
    (d'.getPIoc pI >>= fun p => finishLoop pI fs d' p.pvEList v') =
      d.getPIoc pI >>= fun p => finishLoop pI fs d (pve :: p.pvEList) v := by
  rw [hioc]
  cases hp : d.getPIoc pI with
  | error f => rfl
  | ok p =>
      dsimp only [bind, Except.bind]
      rw [finishLoop, finishLoop, hioc, hp]
      dsimp only [bind, Except.bind]
      rw [List.foldlM_cons, h, hv.1, hv.2]
      rfl

section Steps

variable {s : Server} {pI : IocId} {pvname : Name} {cn : Connection} {a : Reloading}

/-- The loop begins. -/
theorem finish_removeAllPvs
    (h : callback ⟨s, pI, pvname, cn, .removeAllPvs⟩ = .ok a) :
    a.finish = finish ⟨s, pI, pvname, cn, .removeAllPvs⟩ := by
  unfold callback at h
  simp only [bind_eq_ok_iff] at h
  obtain ⟨p, hp, iocName, hioc, path, hpath, checkStr, hcheck, h⟩ := h
  cases h
  dsimp only [finish, goto]
  rw [Dir.removeAllPvs, hp]
  dsimp only [bind, Except.bind]
  rw [hioc, hpath]
  dsimp only
  rw [hcheck]
  dsimp only
  rw [finishLoop, hp]
  dsimp only [bind, Except.bind]
  cases p.pvEList.foldlM (Dir.removeBody path.isEmpty checkStr)
    (s.dir.setPIoc pI { p with pvEList := [] }, none) with
  | error f => rfl
  | ok acc =>
      obtain ⟨d, hb⟩ := acc
      cases hb with
      | none => rfl
      | some pve => rfl

/-- An entry comes off the list, or the loop is over. -/
theorem finish_getPvE {v : Drain}
    (h : callback ⟨s, pI, pvname, cn, .getPvE v⟩ = .ok a) :
    a.finish = finish ⟨s, pI, pvname, cn, .getPvE v⟩ := by
  unfold callback at h
  rw [bind_eq_ok_iff] at h
  obtain ⟨p, hp, h⟩ := h
  dsimp only [finish]
  rw [hp]
  dsimp only [bind, Except.bind]
  cases hl : p.pvEList with
  | nil =>
      rw [hl] at h
      cases h
      rw [finishLoop_nil (Dir.getPIoc_eq_ok_iff.mp hp) hl]
      cases v.pvEHeartbeat with
      | none => rfl
      | some pve => rfl
  | cons pve rest =>
      rw [hl] at h
      cases h
      have hp' := Dir.getPIoc_eq_ok_iff.mp hp
      rw [← finishLoop_setPIoc hp' _ rest]
      dsimp only [finish, goto]
      rw [Dir.getPIoc, Dir.setPIoc_pIocs_self]
      rfl

/-- One turn of the loop. -/
theorem finish_removeId {pve : PvEId} {v : Drain}
    (h : callback ⟨s, pI, pvname, cn, .removeId pve v⟩ = .ok a) :
    a.finish = finish ⟨s, pI, pvname, cn, .removeId pve v⟩ := by
  unfold callback at h
  simp only [bind_eq_ok_iff] at h
  obtain ⟨e, he, name, hname, h⟩ := h
  have hbody := removeBody_setPIoc he hname v pI
  split_ifs at h hbody with hcond htab
  · cases h
    exact finishLoop_cons ((s.dir.tblRemove name).deletePvE pve) v v rfl ⟨rfl, rfl⟩ hbody
  · cases h
    exact finishLoop_cons (s.dir.deletePvE pve) v v rfl ⟨rfl, rfl⟩ hbody
  · cases h
    exact finishLoop_cons s.dir v { v with pvEHeartbeat := some pve } rfl ⟨rfl, rfl⟩ hbody

end Steps

/-- **A step leaves the rest of the callback to be done.** -/
theorem finish_callback {a a' : Reloading} (h : a.callback = .ok a') : a'.finish = a.finish := by
  obtain ⟨s, pI, pvname, cn, pc⟩ := a
  unfold callback at h
  dsimp only at h
  cases pc with
  | removePending =>
      cases h
      rfl
  | setAddr =>
      rw [bind_eq_ok_iff] at h
      obtain ⟨d, hd, h⟩ := h
      cases h
      dsimp only [finish, goto, Server.wdReload]
      rw [hd]
      rfl
  | getStatus =>
      rw [bind_eq_ok_iff] at h
      obtain ⟨p, hp, h⟩ := h
      cases h
      dsimp only [finish, goto]
      rw [hp]
      dsimp only [bind, Except.bind]
      split_ifs
      · rfl
      · rfl
      · rfl
  | removeAllPvs => exact finish_removeAllPvs h
  | getPvE => exact finish_getPvE h
  | removeId => exact finish_removeId h
  | deletePvE pve v =>
      cases h
      rfl
  | addHeartbeat pve =>
      rw [bind_eq_ok_iff] at h
      obtain ⟨d, hd, h⟩ := h
      cases h
      dsimp only [finish, goto, finishAdd]
      rw [Option.elim_some, hd]
      rfl
  | openList =>
      simp only [bind_eq_ok_iff] at h
      obtain ⟨p, hp, path, hpath, h⟩ := h
      cases h
      dsimp only [finish, goto]
      rw [finishOpen_eq (Dir.getPIoc_eq_ok_iff.mp hp) hpath]
      cases fopen cn.fs path with
      | none => rfl
      | some pf => rfl
  | installPVName tokens =>
      cases tokens with
      | nil =>
          cases h
          rfl
      | cons token tokens =>
          simp only [bind_eq_ok_iff] at h
          obtain ⟨b, hb, ⟨d, r⟩, hinst, h⟩ := h
          cases h
          exact (finishList_cons hb hinst).symm
  | setStatus =>
      rw [bind_eq_ok_iff] at h
      obtain ⟨d, hd, h⟩ := h
      cases h
      exact hd.symm
  | done =>
      cases h
      rfl

/-- A request does not change the directory. -/
theorem next_request {rx : Regex} {a a' : Reloading} {client pPVName : Name} {search : CaStatus}
    {now : ℕ} (h : a.next rx (.request client pPVName search now) = .ok a') : ∃ s ret,
      a.server.pvExistTest rx client pPVName search now = .ok (s, ret) ∧
      s.dir = a.server.dir ∧ a' = { a with server := s } := by
  rw [next, bind_eq_ok_iff] at h
  obtain ⟨⟨s, ret⟩, hs, h⟩ := h
  cases h
  refine ⟨s, ret, hs, ?_, rfl⟩
  cases Server.pvExistTest_answered hs <;> rfl

theorem finish_next {rx : Regex} {a a' : Reloading} {m : Move} (h : a.next rx m = .ok a') :
    a'.finish = a.finish := by
  cases m with
  | callback => exact finish_callback h
  | request client pPVName search now =>
      obtain ⟨s, ret, -, hdir, rfl⟩ := next_request h
      unfold finish
      dsimp only
      rw [hdir]

end Reloading

/-- **Requests do not disturb a reload**: the directory in the end is the one of the handler that
runs without interruption. -/
theorem reloading_ends {rx : Regex} {ok : Reloading → Move → Prop} {a a' : Reloading}
    {ms : List Move} (h : Run (reloading rx) ok a ms a') (hstart : a.pc = .removePending)
    (hend : a'.pc = .done) : Server.wdReload a.server.dir a.pI a.cn = .ok a'.server.dir := by
  have hfin : a'.finish = a.finish :=
    h.invariant (I := fun b => b.finish = a.finish)
      (fun _ _ _ hb _ hstep => (Reloading.finish_next hstep).trans hb) rfl
  rw [Reloading.finish, Reloading.finish, hstart, hend] at hfin
  exact hfin.symm

/-- The connections of heartbeats in the server's runs are among these. -/
theorem reloading_of_reachable {rx : Regex} {start : Config → Prop} {ok : Server → Event → Prop}
    {s : Server} {i : IocId} {p : PIoc} (h : Reachable (nameServer rx start) ok s)
    (hp : s.dir.pIocs i = some p) (hdown : p.status = 2) (pvname : Name) (cn : Connection) :
    (reloading rx).init ⟨s, i, pvname, cn, .removePending⟩ :=
  ⟨reachable_wf h, rfl, p, hp, hdown⟩

end CaNameserver
