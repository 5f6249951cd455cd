import CaNameserver.Basic
import Mathlib.Logic.Function.Basic

/-!
# The directory: the PV table, the IOC table and the PV lists

`directoryServer` keeps its knowledge in three places that share their objects: `stringResTbl`
maps a PV name to its `pvE`, `iocResTbl` an IOC name to its `pIoc`, and each `pIoc` has a list of
`pvE`s of its own.  `Dir` is this storage, with the live objects by address; a deleted object is
one that is no longer there, and an access to it is a `Fault`.  Addresses are not reused.

The functions below are those of `directoryServer.cc` (`installIocName`, `installPVName`,
`pIoc::add`, `pIoc::get_pvE`, `pIoc::set_addr`) and `main.cc` (`remove_all_pvs`, `add_all_pvs`,
`parseDirectoryFP`).  Log messages and counts that are only printed are left out.
-/

namespace CaNameserver

open CStr Fallible

/-- The hash tables of PVs and IOCs, the objects they hold and the addresses not yet given out. -/
structure Dir where
  pvEs : PvEId → Option PvE
  nextPvE : PvEId
  pIocs : IocId → Option PIoc
  nextPIoc : IocId
  stringResTbl : Name → Option PvEId
  iocResTbl : Name → Option IocId

/-- The signal lists at the moment a handler reads them; `none` is a file that cannot be opened. -/
abbrev FileSystem := Name → Option (List Char)

/-- `reserve_fd_fopen(path, "r")`: no file has the empty name. -/
def fopen (fs : FileSystem) (path : Name) : Option (List Char) :=
  if path = [] then none else fs path

/-- The names that reading a signal list yields, in order. -/
def signals (fs : FileSystem) (path : Name) : List Name :=
  match fopen fs path with
  | none => []
  | some pf => (words pf).map cstr

namespace Dir

/-- The tables as the constructor leaves them. -/
def empty : Dir := ⟨fun _ => none, 0, fun _ => none, 0, fun _ => none, fun _ => none⟩

/-- Follow a `pvE` pointer. -/
def getPvE (d : Dir) (e : PvEId) : Except Fault PvE := deref (d.pvEs e) .pvEDeleted

/-- Follow a `pIoc` pointer. -/
def getPIoc (d : Dir) (i : IocId) : Except Fault PIoc := deref (d.pIocs i) .pIocDeleted

/-- Write the fields of a `pIoc`. -/
def setPIoc (d : Dir) (i : IocId) (p : PIoc) : Dir :=
  { d with pIocs := Function.update d.pIocs i (some p) }

/-- `stringResTbl.remove(id)`. -/
def tblRemove (d : Dir) (n : Name) : Dir :=
  { d with stringResTbl := Function.update d.stringResTbl n none }

/-- `delete pve`. -/
def deletePvE (d : Dir) (e : PvEId) : Dir := { d with pvEs := Function.update d.pvEs e none }

/-- A new `pvE`, entered in the table under its name. -/
def tblAdd (d : Dir) (n : Name) (i : IocId) : Dir :=
  { d with
    pvEs := Function.update d.pvEs d.nextPvE (some ⟨n, some i⟩)
    nextPvE := d.nextPvE + 1
    stringResTbl := Function.update d.stringResTbl n (some d.nextPvE) }

/-- `pIoc::set_status`. -/
def setStatus (d : Dir) (i : IocId) (status : ℕ) : Except Fault Dir := do
  let p ← d.getPIoc i
  return d.setPIoc i { p with status := status }

/-- `pIoc::add`: a new node at the head of the list. -/
def add (d : Dir) (i : IocId) (pve : PvEId) : Except Fault Dir := do
  let p ← d.getPIoc i
  return d.setPIoc i { p with pvEList := pve :: p.pvEList }

/-- `pI->get_pvE()` where the result is thrown away: the head of the list is taken off. -/
def popPvE (d : Dir) (i : IocId) : Except Fault Dir := do
  let p ← d.getPIoc i
  return d.setPIoc i { p with pvEList := p.pvEList.tail }

/-- The port and the address that `set_addr` makes of the string `ca_get_host_name` wrote. -/
def resolveAddr (aToIPAddr : Resolver) (hostNameStr : Name) (old : SockAddr) : SockAddr :=
  let portNumber := if ':' ∈ hostNameStr then atoi (hostNameStr.dropWhile (· ≠ ':')).tail else 0
  let sinPort := if ':' ∈ hostNameStr then (portNumber % 65536).toNat else 0
  match aToIPAddr (cutAt ':' hostNameStr) portNumber with
  | some a => a
  | none => { old with sinFamily := afInet, sinPort := sinPort }

/-- `pIoc::set_addr`; a host name that cannot be resolved is only logged. -/
def setAddr (d : Dir) (i : IocId) (host : Name) (aToIPAddr : Resolver) : Except Fault Dir := do
  let p ← d.getPIoc i
  return d.setPIoc i
    { p with addr := resolveAddr aToIPAddr (host.take (hostNameSz - 1)) p.addr }

/-- `directoryServer::installIocName`; a null path is the empty one. -/
def installIocName (d : Dir) (name path : Name) : Dir × Option IocId :=
  match d.iocResTbl name with
  | some _ => (d, none)
  | none =>
      ({ d with
          pIocs := Function.update d.pIocs d.nextPIoc (some ⟨name, path, 0, SockAddr.zero, []⟩)
          nextPIoc := d.nextPIoc + 1
          iocResTbl := Function.update d.iocResTbl name (some d.nextPIoc) },
        some d.nextPIoc)

/-- `iocResTbl.lookup(id)` and, where it finds nothing, `installIocName(name, 0)`, which then does
not fail. -/
def findOrInstallIoc (d : Dir) (name : Name) : Dir × IocId :=
  match d.iocResTbl name with
  | some pI => (d, pI)
  | none => ((d.installIocName name []).1, d.nextPIoc)

/-- Take a PV from an IOC that is down: out of the table, and if it is on the IOC's list, off the
list and deleted.  The walk with a trailing pointer unlinks the first node that holds `pve`. -/
def takePV (d : Dir) (n : Name) (pve : PvEId) (owner : IocId) (p : PIoc) : Dir :=
  let d := d.tblRemove n
  if pve ∈ p.pvEList then
    (d.setPIoc owner { p with pvEList := p.pvEList.erase pve }).deletePvE pve
  else d

/-- `directoryServer::installPVName`: 0 entered, 1 the IOC's own heartbeat, -1 refused. -/
def installPVName (d : Dir) (pName : Name) (pI : IocId) : Except Fault (Dir × ℤ) := do
  let p ← d.getPIoc pI
  match d.stringResTbl pName with
  | none =>
      let d ← (d.tblAdd pName pI).add pI d.nextPvE
      return (d, 0)
  | some pve2 =>
      let iocName ← p.getIocname
      let checkStr ← writeBuf pvNameSz (iocName ++ heartbeat)
      if checkStr = pName then return (d, 1)
      else
        let e2 ← d.getPvE pve2
        match e2.pI with
        | none => return (d, -1)
        | some owner =>
            let o ← d.getPIoc owner
            if o.status = 2 then
              -- the second `stringResTbl.add` finds the name free
              let d := d.takePV pName pve2 owner o
              let d ← (d.tblAdd pName pI).add pI d.nextPvE
              return (d, 0)
            else return (d, -1)

/-- The body of the loop in `remove_all_pvs`, for an element just taken off the list.  `hb` is
`pvEHeartbeat`. -/
def removeBody (removeAll : Bool) (checkStr : Name) (acc : Dir × Option PvEId) (pve : PvEId) :
    Except Fault (Dir × Option PvEId) := do
  let e ← acc.1.getPvE pve
  let pvNameStr ← e.getName
  if removeAll ∨ checkStr ≠ pvNameStr then
    -- out of the table only if the table has this very entry
    let d := if acc.1.stringResTbl pvNameStr = some pve then acc.1.tblRemove pvNameStr else acc.1
    return (d.deletePvE pve, acc.2)
  else return (acc.1, some pve)

/-- `checkStr` of `remove_all_pvs`, set only for an IOC that has a signal list. -/
def checkStrOf (removeAll : Bool) (iocName : Name) : Except Fault Name :=
  if removeAll then .ok [] else writeBuf pvNameSz (iocName ++ heartbeat)

/-- `remove_all_pvs`.  The list is emptied at once: nothing in the loop looks at it. -/
def removeAllPvs (d : Dir) (pI : IocId) : Except Fault Dir := do
  let p ← d.getPIoc pI
  let iocName ← p.getIocname
  let pathToList ← p.getPathToList
  let removeAll := pathToList.isEmpty
  let checkStr ← checkStrOf removeAll iocName
  let (d, hb) ← p.pvEList.foldlM (removeBody removeAll checkStr)
    (d.setPIoc pI { p with pvEList := [] }, none)
  match hb with
  | none => return d
  | some pve => d.add pI pve

/-- The body of the loop in `parseDirectoryFP`: `%127s` reads into a buffer of `PV_NAME_SZ`.
The second component is `have_a_heart`. -/
def parseBody (pI : IocId) (acc : Dir × ℕ) (token : Name) : Except Fault (Dir × ℕ) := do
  let _ ← writeBuf pvNameSz token
  let (d, failed) ← acc.1.installPVName (cstr token) pI
  return (d, if failed = 1 then acc.2 + 1 else acc.2)

/-- `parseDirectoryFP`: the number of names read, or -1 if the heartbeat was not among them. -/
def parseDirectoryFP (d : Dir) (pf : List Char) (pI : IocId) : Except Fault (Dir × ℤ) := do
  let (d, haveAHeart) ← (words pf).foldlM (parseBody pI) (d, 0)
  return (d, if haveAHeart = 0 then -1 else (words pf).length)

/-- `add_all_pvs`. -/
def addAllPvs (fs : FileSystem) (d : Dir) (pI : IocId) : Except Fault (Dir × ℤ) := do
  let p ← d.getPIoc pI
  let pathToList ← p.getPathToList
  match fopen fs pathToList with
  | none => return (d, -1)
  | some pf => d.parseDirectoryFP pf pI

/-- `iocResTbl.remove(*pI)` and `delete pI`; the destructor empties the list. -/
def deletePIoc (d : Dir) (i : IocId) : Except Fault Dir := do
  let p ← d.getPIoc i
  return { d with
    pIocs := Function.update d.pIocs i none
    iocResTbl := Function.update d.iocResTbl p.iocname none }

end Dir

end CaNameserver
