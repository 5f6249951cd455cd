import CaNameserver.Directory
import CaNameserver.GateAs

/-!
# The server's state and its handlers

`Server` is the `directoryServer` with the globals of `main.cc` and the channel access client
library's table of open channels.  A handler runs to its end before the next event: the client
request `pvExistTest`, the connection callbacks `WDprocessChangeConnectionEvent` (heartbeats) and
`processChangeConnectionEvent` (learned PVs, with `monitorAll = 1`), the purge
`processPendingList` of the main loop, and the report `show`.

What the library answers (whether a search or a clear succeeds, the state of a channel, the time)
comes with the event that makes the handler ask.  A channel that has been cleared is no longer
there, and its use is a `Fault`.  The pass of the purge is a loop that need not end: it takes one
answer for each of its turns, and a pass for which the answers do not suffice has no outcome.

The counters are `double`s in the source, exact below 2⁵³, and natural numbers here.  Of the
report only what outlives it is there: the counters are set to zero, and `never.log` is opened
without a check.
-/

namespace CaNameserver

open CStr Fallible

/-! ## Channel access -/

/-- The connection callback a channel was created with. -/
inductive Callback where
  | WDprocessChangeConnectionEvent
  | processChangeConnectionEvent
  deriving DecidableEq, Repr

/-- An open channel. -/
structure Channel where
  name : Name
  callback : Callback
  puser : Option IocId
  /-- the server the channel is connected to, if it is connected -/
  server : Option SockAddr
  deriving DecidableEq, Repr

/-- The channels that have been created and not yet cleared. -/
structure Ca where
  chans : Chid → Option Channel
  nextChid : Chid

/-- `ECA_NORMAL` or an error code. -/
inductive CaStatus where
  | normal
  | failed
  deriving DecidableEq, Repr

namespace Ca

/-- No channel has been created. -/
def empty : Ca := ⟨fun _ => none, 0⟩

/-- Write the fields of a channel. -/
def setChan (ca : Ca) (c : Chid) (ch : Channel) : Ca :=
  { ca with chans := Function.update ca.chans c (some ch) }

/-- `ca_search_and_connect(name, &chid, callback, 0)`, when it succeeds. -/
def search (ca : Ca) (name : Name) (callback : Callback) : Ca :=
  ⟨Function.update ca.chans ca.nextChid (some ⟨name, callback, none, none⟩), ca.nextChid + 1⟩

/-- `ca_clear_channel(chid)`, when it succeeds. -/
def clear (ca : Ca) (c : Chid) : Ca := { ca with chans := Function.update ca.chans c none }

/-- Use an open channel. -/
def getChan (ca : Ca) (c : Chid) : Except Fault Channel := deref (ca.chans c) .chidCleared

end Ca

/-! ## The state -/

/-- The name server. -/
structure Server where
  dir : Dir
  /-- searches waiting for their connection -/
  nameList : List Namenode
  neverResTbl : Name → Option ℕ
  /-- the names of the server's own PVs -/
  nsResTbl : List Name
  pgateAs : Option GateAs
  stats : NsStats
  connectedIocs : ℤ
  requestedIocs : ℕ
  ca : Ca

/-- What comes with a connection: the `host:port` string of the server, its address, the resolver
and the files as they are at that moment. -/
structure Connection where
  host : Name
  server : SockAddr
  aToIPAddr : Resolver
  fs : FileSystem

/-- Unlink and delete the first node of a name; the walk keeps a trailing pointer. -/
def removePending (name : Name) (nameList : List Namenode) : List Namenode :=
  nameList.eraseP (·.name = name)

namespace Server

/-! ## Heartbeats -/

/-- `WDprocessChangeConnectionEvent` with `CA_OP_CONN_DOWN`. -/
def wdConnDown (s : Server) (c : Chid) (now : ℕ) : Except Fault Server := do
  let ch ← s.ca.getChan c
  let pI ← deref ch.puser .nullPIoc
  let pvname ← strncpy pvNameSz ch.name
  let d ← s.dir.setStatus pI 2
  return { s with
    dir := d
    connectedIocs := s.connectedIocs - 1
    nameList := ⟨pvname, now, c, true⟩ :: s.nameList }

/-- The effect of a heartbeat's connection on the directory: the address is set, and an IOC that
was down gets its list reloaded. -/
def wdReload (d : Dir) (pI : IocId) (cn : Connection) : Except Fault Dir := do
  let d ← d.setAddr pI cn.host cn.aToIPAddr
  let p ← d.getPIoc pI
  if p.status = 0 then d.setStatus pI 1
  else if p.status = 2 then do
    let d ← d.removeAllPvs pI
    let (d, _) ← d.addAllPvs cn.fs pI
    d.setStatus pI 1
  else return d

/-- `WDprocessChangeConnectionEvent` otherwise. -/
def wdConnUp (s : Server) (c : Chid) (cn : Connection) : Except Fault Server := do
  let ch ← s.ca.getChan c
  let pI ← deref ch.puser .nullPIoc
  let pvname ← strncpy pvNameSz ch.name
  let d ← wdReload s.dir pI cn
  return { s with
    dir := d
    connectedIocs := s.connectedIocs + 1
    nameList := removePending pvname s.nameList }

/-! ## Learned PVs -/

/-- `processChangeConnectionEvent` with `CA_OP_CONN_DOWN`. -/
def connDown (s : Server) (c : Chid) : Except Fault Server := do
  let ch ← s.ca.getChan c
  let pvNameStr ← strncpy pvNameSz ch.name
  let ca := s.ca.clear c
  match s.dir.stringResTbl pvNameStr with
  | none => return { s with ca := ca }
  | some pve =>
      let _ ← s.dir.getPvE pve
      return { s with dir := (s.dir.tblRemove pvNameStr).deletePvE pve, ca := ca }

/-- A server that is not up is told its address. -/
def setNewAddr (newServer : Bool) (d : Dir) (pI : IocId) (cn : Connection) : Except Fault Dir :=
  if newServer then d.setAddr pI cn.host cn.aToIPAddr else .ok d

/-- `processChangeConnectionEvent` otherwise. -/
def connUp (s : Server) (c : Chid) (cn : Connection) : Except Fault Server := do
  let ch ← s.ca.getChan c
  let iocname := cn.host.take (hostNameSz - 1)
  let (d, pI) := s.dir.findOrInstallIoc iocname
  let p ← d.getPIoc pI
  let newServer := decide (p.status = 2 ∨ p.status = 0)
  let d ← setNewAddr newServer d pI cn
  let ca := if newServer then s.ca.setChan c { ch with puser := some pI } else s.ca
  let buf ← strncpy pvNameSz ch.name
  let pvNameStr := cutAt '.' buf
  let (d, _) ← d.installPVName pvNameStr pI
  -- the head of the list goes, whether or not the PV was put there
  let d ← d.popPvE pI
  let d ← d.setStatus pI 1
  return { s with dir := d, ca := ca, nameList := removePending pvNameStr s.nameList }

/-! ## Requests -/

/-- `pvExistReturn`. -/
inductive PvExistReturn where
  | doesNotExistHere
  | existsHere
  | existsAt (addr : SockAddr)
  deriving DecidableEq, Repr

/-- The host a client's rules are looked up under: the name of its address, cut at `HN_DELIM` and
at `HN_DELIM2`. -/
def clientKey (ipAddrToA : Name) : Name := cutAt ':' (cutAt '.' ipAddrToA)

/-- The access rules refuse a search for `shortPV` on behalf of a client. -/
def searchDenied (rx : Regex) (s : Server) (client shortPV : Name) : Bool :=
  match s.pgateAs with
  | none => false
  | some g =>
      if g.denyFromListUsed then (g.findEntry rx shortPV (some (clientKey client))).isNone
      else (g.findEntry rx shortPV none).isNone

/-- The record name of a request: the name without its field. -/
def recordName (pPVName : Name) : Name := cutAt '.' pPVName

/-- `directoryServer::pvExistTest`.  `client` is what `ipAddrToA` makes of the client's address,
`search` what `ca_search_and_connect` returns. -/
def pvExistTest (rx : Regex) (s : Server) (client pPVName : Name) (search : CaStatus) (now : ℕ) :
    Except Fault (Server × PvExistReturn) := do
  let s := { s with stats.request := s.stats.request + 1 }
  let buf ← strncpy pvNameSz pPVName
  let shortPV := recordName buf
  if shortPV = [] then return (s, .doesNotExistHere)
  else
    match s.dir.stringResTbl shortPV with
    | some pve =>
        let e ← s.dir.getPvE pve
        match e.pI with
        | none => return ({ s with stats.iocError := s.stats.iocError + 1 }, .doesNotExistHere)
        | some pI =>
            let p ← s.dir.getPIoc pI
            if p.status = 1 then
              return ({ s with stats.hit := s.stats.hit + 1 }, .existsAt p.addr)
            else return ({ s with stats.iocDown := s.stats.iocDown + 1 }, .doesNotExistHere)
    | none =>
        if pPVName ∈ s.nsResTbl then
          return ({ s with stats.hit := s.stats.hit + 1 }, .existsHere)
        else if s.nameList.any (·.name = shortPV) then
          return ({ s with stats.pending := s.stats.pending + 1 }, .doesNotExistHere)
        else if s.searchDenied rx client shortPV then
          return ({ s with stats.broadcastDenied := s.stats.broadcastDenied + 1 },
            .doesNotExistHere)
        else
          match search with
          | .failed => return (s, .doesNotExistHere)
          | .normal =>
              return ({ s with
                ca := s.ca.search shortPV .processChangeConnectionEvent
                nameList := ⟨shortPV, now, s.ca.nextChid, false⟩ :: s.nameList
                stats.broadcast := s.stats.broadcast + 1 }, .doesNotExistHere)

/-! ## The purge -/

/-- What the library answers in one turn of the purge loop: the state of the channel (3 is
`cs_closed`), the return codes, and the time `set_otime` reads. -/
structure CaAnswers where
  caState : ℕ
  clear : CaStatus
  search : CaStatus
  time : ℕ

/-- What the purge loop changes. -/
structure Purge where
  /-- nodes the iterator has passed, the last one (`pprevNN`) first -/
  kept : List Namenode
  /-- nodes from the iterator on -/
  rest : List Namenode
  ca : Ca
  neverResTbl : Name → Option ℕ

/-- The new count of a name in the `never` table. -/
def neverCount (neverResTbl : Name → Option ℕ) (name : Name) : Name → Option ℕ :=
  Function.update neverResTbl name (some (((neverResTbl name).getD 0) + 1))

/-- The rebroadcast of an expired heartbeat.  The node stays where it is, and the loop looks at it
again. -/
def rebroadcast (a : CaAnswers) (pg : Purge) (pNN : Namenode) (rest : List Namenode) :
    Except Fault Purge := do
  let ch ← pg.ca.getChan pNN.chd
  if a.caState = 3 then return pg
  else
    match a.clear with
    | .failed => return pg
    | .normal =>
        let ca := pg.ca.clear pNN.chd
        match a.search with
        | .failed => return { pg with ca := ca }
        | .normal =>
            let tchid := ca.nextChid
            let ca := ca.search pNN.name .WDprocessChangeConnectionEvent
            return { pg with
              ca := ca.setChan tchid
                ⟨pNN.name, .WDprocessChangeConnectionEvent, ch.puser, none⟩
              rest := { pNN with chd := tchid, otime := a.time } :: rest }

/-- The removal of an expired search. -/
def expire (a : CaAnswers) (pg : Purge) (pNN : Namenode) (rest : List Namenode) :
    Except Fault Purge := do
  let _ ← pg.ca.getChan pNN.chd
  let ca := if a.caState = 3 then pg.ca else
    match a.clear with
    | .failed => pg.ca
    | .normal => pg.ca.clear pNN.chd
  return { pg with rest := rest, ca := ca, neverResTbl := neverCount pg.neverResTbl pNN.name }

/-- One turn of the loop at a node. -/
def purgeTurn (now tooLong : ℕ) (a : CaAnswers) (pg : Purge) (pNN : Namenode)
    (rest : List Namenode) : Except Fault Purge :=
  if pNN.otime + tooLong < now then
    if pNN.rebroadcast then rebroadcast a pg pNN rest else expire a pg pNN rest
  else .ok { pg with kept := pNN :: pg.kept, rest := rest }

/-- The loop of `processPendingList`, one turn for each element of `answers`; a pass that is not
over then has not come back. -/
def purgeLoop (now tooLong : ℕ) : List CaAnswers → Purge → Except Fault Purge
  | [], pg => if pg.rest = [] then .ok pg else .error .noReturn
  | a :: answers, pg =>
      match pg.rest with
      | [] => .ok pg
      | pNN :: rest => do
          let pg ← purgeTurn now tooLong a pg pNN rest
          purgeLoop now tooLong answers pg

/-- `processPendingList`. -/
def processPendingList (s : Server) (now tooLong : ℕ) (answers : List CaAnswers) :
    Except Fault Server := do
  let pg ← purgeLoop now tooLong answers ⟨[], s.nameList, s.ca, s.neverResTbl⟩
  return { s with nameList := pg.kept.reverse, ca := pg.ca, neverResTbl := pg.neverResTbl }

/-- `directoryServer::show`, of which only the reset of the counters outlives the report.
`never.log` is opened without a look at the result, and `fclose` follows it. -/
def showReport (s : Server) (neverLog : Bool) : Except Fault Server :=
  if neverLog then .ok { s with stats := NsStats.zero } else .error .nullFile

theorem showReport_eq_ok_iff {s s' : Server} {neverLog : Bool} :
    s.showReport neverLog = .ok s' ↔ neverLog = true ∧ s' = { s with stats := NsStats.zero } := by
  unfold showReport
  split_ifs with h <;> simp [h, eq_comm]

end Server

end CaNameserver
