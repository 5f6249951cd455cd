import CaNameserver.Lib.Transition
import CaNameserver.Server

/-!
# Startup, events and runs

`main` reads the pvlist and the directory file, searches the heartbeats and enters its loop; from
then on it is driven by events.  `Event` lists them, `handle` dispatches them to the handlers of
`Server`, and `nameServer` is the transition system of all runs, every handler run to its end
before the next event.

`Config` is all that startup depends on: the command line, the files, the resolver, the clock at
each search and what the library answers.  The heartbeats are searched in the order of the IOC
table, which is any order that visits every IOC once (`Visits`).

The channel access library calls back for open channels only, and alternately: an unconnected
channel comes up, a connected one goes down.  This is `enabled`; nothing else is assumed about the
order of events.
-/

namespace CaNameserver

open CStr Fallible Transition

/-! ## IOC names -/

/-- What follows the last `c`. -/
def afterLast (c : Char) (l : Name) : Name := (l.reverse.takeWhile (· ≠ c)).reverse

/-- What precedes the last `c`. -/
def beforeLast (c : Char) (l : Name) : Name := (l.reverse.dropWhile (· ≠ c)).tail.reverse

/-- `basename_st`. -/
def basenameSt (filename : Name) : Name :=
  if '/' ∈ filename then afterLast '/' filename
  else if '\\' ∈ filename then afterLast '\\' filename
  else filename

/-- `dirname_st`: both separators are looked for before either is overwritten. -/
def dirnameSt (filename : Name) : Name :=
  let cut := if '/' ∈ filename then beforeLast '/' filename else filename
  if '\\' ∈ filename then cut.take (beforeLast '\\' filename).length else cut

/-- `iocname`. -/
def iocname (isFilename : Bool) (pPath : Name) : Name :=
  if isFilename then basenameSt pPath else basenameSt (dirnameSt pPath)

/-! ## Startup -/

/-- The pathname `parseDirectoryFile` reads is no comment. -/
def isPath (input : Name) : Bool := decide (input.head? ≠ some '#')

/-- The IOC name of a pathname, cut to its buffer. -/
def iocNameOf (filenameIsIocname : Bool) (input : Name) : Name :=
  (iocname filenameIsIocname input).take (hostNameSz - 1)

/-- `cleanup`, for an IOC whose list was rejected.  Its walk over `nameList` does nothing: no
search has been made yet. -/
def cleanup (d : Dir) (pI : IocId) : Except Fault Dir := do
  let d ← d.removeAllPvs pI
  d.deletePIoc pI

/-- The body of the loop in `parseDirectoryFile`; the second component is `requested_iocs`. -/
def directoryBody (filenameIsIocname : Bool) (fs : FileSystem) (acc : Dir × ℕ) (token : Name) :
    Except Fault (Dir × ℕ) := do
  let _ ← writeBuf 200 token
  let input := cstr token
  let iocName := iocNameOf filenameIsIocname input
  if isPath input ∧ acc.1.iocResTbl iocName = none then do
    let pI := acc.1.nextPIoc
    let d := (acc.1.installIocName iocName input).1
    let p ← d.getPIoc pI
    let name ← p.getIocname
    let tStr ← writeBuf pvNameSz (name ++ heartbeat)
    let (d, _) ← d.installPVName tStr pI
    let (d, newcount) ← d.addAllPvs fs pI
    if newcount = -1 then do
      let d ← cleanup d pI
      return (d, acc.2)
    else return (d, acc.2 + 1)
  else return acc

/-- `parseDirectoryFile`. -/
def parseDirectoryFile (filenameIsIocname : Bool) (fs : FileSystem) (pf : List Char) :
    Except Fault (Dir × ℕ) :=
  (words pf).foldlM (directoryBody filenameIsIocname fs) (Dir.empty, 0)

/-- `connectIocHeartbeat`. -/
def connectIocHeartbeat (now : ℕ) (search : CaStatus) (s : Server) (pI : IocId) :
    Except Fault Server := do
  let p ← s.dir.getPIoc pI
  let name ← p.getIocname
  let tStr ← writeBuf pvNameSz (name ++ heartbeat)
  match search with
  | .failed => .error .chidUnset
  | .normal =>
      let chd := s.ca.nextChid
      let ca := s.ca.search tStr .WDprocessChangeConnectionEvent
      return { s with
        ca := ca.setChan chd ⟨tStr, .WDprocessChangeConnectionEvent, some pI, none⟩
        nameList := ⟨tStr, now, chd, true⟩ :: s.nameList }

/-- The base names of `pvServer::pvList`. -/
def pvListNames : List Name :=
  ["heartbeat", "request", "broadcast", "broadcast_denied", "pending", "ioc_error", "hit",
    "ioc_down"].map String.toList

/-- The command line, the files at startup and what the library answers. -/
structure Config where
  filenameIsIocname : Bool
  pvPrefix : Name
  /-- the pvlist file of the `-p` option, an unreadable one being an empty one -/
  pvlist : Option (List Char)
  aToIPAddr : Resolver
  /-- the uninitialised `lev` of `readPvList` -/
  lev : ℤ
  /-- the directory file, if it can be opened -/
  directory : Option (List Char)
  fs : FileSystem
  /-- the order in which `resTableIter` visits `iocResTbl` -/
  order : List IocId
  search : CaStatus
  /-- the time when the searches begin, and the time from there to the one for each IOC -/
  now : ℕ
  lapse : IocId → ℕ

/-- The time that `set_otime` reads for the heartbeat of an IOC. -/
def Config.clock (cfg : Config) (i : IocId) : ℕ := cfg.now + cfg.lapse i

/-- The rules of the `-p` option. -/
def Config.readAccess (rx : Regex) (cfg : Config) : Except Fault (Option GateAs) :=
  match cfg.pvlist with
  | none => .ok none
  | some lfile => (GateAs.readPvList rx cfg.aToIPAddr cfg.lev lfile).map some

/-- The IOCs of the directory file. -/
def Config.readDirectory (cfg : Config) : Except Fault (Dir × ℕ) :=
  match cfg.directory with
  | none => .ok (Dir.empty, 0)
  | some pf => parseDirectoryFile cfg.filenameIsIocname cfg.fs pf

/-- The server before its first search. -/
def Config.initial (cfg : Config) (pgateAs : Option GateAs) (dir : Dir) (requested : ℕ) : Server :=
  { dir := dir
    nameList := []
    neverResTbl := fun _ => none
    nsResTbl := pvListNames.map fun n => cfg.pvPrefix.take 100 ++ n.take 20
    pgateAs := pgateAs
    stats := NsStats.zero
    connectedIocs := 0
    requestedIocs := requested
    ca := Ca.empty }

/-- `main`, up to its loop. -/
def startup (rx : Regex) (cfg : Config) : Except Fault Server := do
  let pgateAs ← cfg.readAccess rx
  let (dir, requested) ← cfg.readDirectory
  cfg.order.foldlM (fun s i => connectIocHeartbeat (cfg.clock i) cfg.search s i)
    (cfg.initial pgateAs dir requested)

/-- `order` visits every entry of the IOC table once. -/
def Visits (d : Dir) (order : List IocId) : Prop :=
  order.Nodup ∧ ∀ i, i ∈ order ↔ ∃ n, d.iocResTbl n = some i

/-! ## Events -/

/-- What drives the server. -/
inductive Event where
  | up (c : Chid) (cn : Connection)
  | down (c : Chid) (now : ℕ)
  | request (client pPVName : Name) (search : CaStatus) (now : ℕ)
  | purge (now tooLong : ℕ) (answers : List Server.CaAnswers)
  /-- whether `never.log` can be opened -/
  | report (neverLog : Bool)

/-- A callback comes for an open channel, and changes its connection. -/
def enabled (s : Server) : Event → Bool
  | .up c _ => match s.ca.chans c with
      | some ch => ch.server.isNone
      | none => false
  | .down c _ => match s.ca.chans c with
      | some ch => ch.server.isSome
      | none => false
  | _ => true

/-- The library notes the new state of a channel before it calls back. -/
def setConnection (s : Server) (c : Chid) (server : Option SockAddr) : Server :=
  match s.ca.chans c with
  | some ch => { s with ca := s.ca.setChan c { ch with server := server } }
  | none => s

/-- The callback a channel was created with. -/
def callbackOf (s : Server) (c : Chid) : Except Fault Callback := do
  let ch ← s.ca.getChan c
  return ch.callback

/-- One event, handled to its end. -/
def handle (rx : Regex) (s : Server) : Event → Except Fault Server
  | .up c cn => do
      let s := setConnection s c (some cn.server)
      match ← callbackOf s c with
      | .WDprocessChangeConnectionEvent => s.wdConnUp c cn
      | .processChangeConnectionEvent => s.connUp c cn
  | .down c now => do
      let s := setConnection s c none
      match ← callbackOf s c with
      | .WDprocessChangeConnectionEvent => s.wdConnDown c now
      | .processChangeConnectionEvent => s.connDown c
  | .request client pPVName search now => do
      let (s, _) ← s.pvExistTest rx client pPVName search now
      return s
  | .purge now tooLong answers => s.processPendingList now tooLong answers
  | .report neverLog => s.showReport neverLog

/-- The name server with its runs, started on the configurations `start` allows. -/
def nameServer (rx : Regex) (start : Config → Prop) : System Server Event where
  init s := ∃ cfg, start cfg ∧ startup rx cfg = .ok s ∧ Visits s.dir cfg.order
  step s e s' := enabled s e = true ∧ handle rx s e = .ok s'

/-! ## Running -/

/-- `order` is a visit of the IOC table: a bounded search, for addresses in use are below the next
one. -/
def visits (d : Dir) (order : List IocId) : Bool :=
  decide order.Nodup && order.all (fun i => decide (i < d.nextPIoc)) &&
    (List.range d.nextPIoc).all fun i => decide (i ∈ order) == (d.pIocs i).isSome

/-- A sequence of events, handled one after the other.  It ends at an event that cannot occur or
does not meet `ok`. -/
def runEvents (rx : Regex) (ok : Server → Event → Bool) (s : Server) :
    List Event → Option Server
  | [] => some s
  | e :: es =>
      if enabled s e && ok s e then
        match handle rx s e with
        | .ok s' => runEvents rx ok s' es
        | .error _ => none
      else none

/-- A run of the program. -/
def run (rx : Regex) (ok : Server → Event → Bool) (cfg : Config) (es : List Event) :
    Option Server :=
  match startup rx cfg with
  | .ok s => if visits s.dir cfg.order then runEvents rx ok s es else none
  | .error _ => none

end CaNameserver
