import CaNameserver.Lib.Logged
import CaNameserver.Channels
import CaNameserver.NameBuffers

/-!
# The buffers of the loaders

The functions that read the directory file and the signal lists fill five buffers of fixed size.
Only `iocName` is filled by a bounded copy.  The words of the directory file go into `input` with
`%s`, those of a list into 80 bytes with `%127s`, and the name of a heartbeat is put together in
80 bytes from an IOC name that may have 79 characters already.  This module says which words fit.

## Writes

`Logged` computations keep a list of what has been written, and keep it when they fail.  Each
loader is given once more as such a computation, with a `Write` for every string that it puts into
one of the buffers, terminator and all.  Without the log it computes what the loader computes
(`out_…Logged`), so `AllFit` is a statement about the loaders.

## Storage

A string that is too long for its array is cut, and the array has no terminator, unless its last
byte happened to be one.  Whether the string is then read at all, and so whether any further word
is, depends on that byte.  The loaders therefore take the `Getters` as an argument: what reading
the name of an IOC, its path or the name of an entry gives.  `ArrayEnds` says for each array
whether it ends in a terminator, and gives the getters; where none does they are those of `Basic`
(`getters_none`), and the loaders are those of the server (`directoryBodyWith_basic`,
`removeAllPvsWith_basic`).

## What fits

* `ListFits`: the words of a list that are read have at most 79 characters.  A word is read if the
  reading before it has come to an end.
* `WordFits`: a word of the directory file has fewer than 200 characters, and if it is taken for a
  pathname, the IOC's name has at most 69, and the list at the path that is read back fits.
* `ReloadFits`: the same for the list of an IOC that comes back.

`allFit_addAllPvs_iff`, `allFit_directoryBody_iff` and `allFit_wdReload_iff` have one of them
each; limits for all words of the files, read or not, are enough (`directoryFits_of_short`).  The
other functions add nothing: `checkStr` is filled with the name of a heartbeat, and every IOC that
has been loaded has a name with room for it (`PIoc.Short`), whatever happens later
(`reachable_loadedShort`).

* `loadersFit_iff`: at startup, and whenever an IOC comes back, what is written fits exactly if
  the words that are read do.
* `startup_eq_loadLogged`, `out_wdReloadLogged`: the link to the server.
-/

namespace CaNameserver

open CStr Fallible Logged Transition

/-! ## The loaders in any storage -/

/-- `add_all_pvs`, with the path as it is read. -/
def Dir.addAllPvsWith (g : Getters) (fs : FileSystem) (d : Dir) (pI : IocId) :
    Except Fault (Dir × ℤ) := do
  let p ← d.getPIoc pI
  let pathToList ← g.getPathToList pI p
  (fopen fs pathToList).elim (.ok (d, -1)) fun pf => d.parseDirectoryFP pf pI

/-- `cleanup`. -/
def cleanupWith (g : Getters) (d : Dir) (pI : IocId) : Except Fault Dir := do
  let d ← d.removeAllPvsWith g pI
  d.deletePIoc pI

/-- The body of the loop in `parseDirectoryFile`, for an IOC that is not in the table.  When `tStr`
has been written the name of the IOC is known to have its end, so that it does not matter any more
how it is read. -/
def newIocWith (g : Getters) (fs : FileSystem) (acc : Dir × ℕ) (iocName input : Name) :
    Except Fault (Dir × ℕ) := do
  let pI := acc.1.nextPIoc
  let d := (acc.1.installIocName iocName input).1
  let p ← d.getPIoc pI
  let name ← g.getIocname pI p
  let tStr ← writeBuf pvNameSz (name ++ heartbeat)
  let inst ← d.installPVName tStr pI
  let add ← inst.1.addAllPvsWith g fs pI
  if add.2 = -1 then do
    let d ← cleanupWith g add.1 pI
    return (d, acc.2)
  else return (add.1, acc.2 + 1)

/-- The body of the loop in `parseDirectoryFile`. -/
def directoryBodyWith (g : Getters) (filenameIsIocname : Bool) (fs : FileSystem) (acc : Dir × ℕ)
    (token : Name) : Except Fault (Dir × ℕ) := do
  let _ ← writeBuf 200 token
  let input := cstr token
  let iocName := iocNameOf filenameIsIocname input
  if isPath input ∧ acc.1.iocResTbl iocName = none then newIocWith g fs acc iocName input
  else return acc

/-! ## What is written -/

/-- The buffers that the loaders fill. -/
inductive Buffer where
  | input
  | iocName
  | pvNameStr
  | tStr
  | checkStr
  deriving DecidableEq, Repr

/-- `input[200]`, `iocName[HOST_NAME_SZ]`, and `PV_NAME_SZ` for the others. -/
def Buffer.size : Buffer → ℕ
  | .input => 200
  | .iocName => hostNameSz
  | .pvNameStr => pvNameSz
  | .tStr => pvNameSz
  | .checkStr => pvNameSz

/-- A string is written to a buffer. -/
structure Write where
  dest : Buffer
  text : Name
  deriving DecidableEq, Repr

/-- There is room for the string and its terminator. -/
def Write.Fits (w : Write) : Prop := w.text.length < w.dest.size

instance : DecidablePred Write.Fits := fun w => Nat.decLt w.text.length w.dest.size

/-- A function of the loaders, with what it writes. -/
abbrev Loader := Logged Write Fault

namespace Dir

/-- `installPVName`: `checkStr` is filled if the name is in the table.  The text is noted before
`iocname` is read, for a name that has no end does not fit either. -/
def installPVNameLogged (d : Dir) (pName : Name) (pI : IocId) : Loader (Dir × ℤ) := do
  let p ← lift (d.getPIoc pI)
  noteIf (d.stringResTbl pName ≠ none) ⟨.checkStr, p.heartbeatName⟩
  lift (d.installPVName pName pI)

/-- `remove_all_pvs`: `checkStr` is filled if the IOC has a signal list. -/
def removeAllPvsLogged (g : Getters) (d : Dir) (pI : IocId) : Loader Dir := do
  let p ← lift (d.getPIoc pI)
  noteIf (p.pathToList ≠ []) ⟨.checkStr, p.heartbeatName⟩
  lift (d.removeAllPvsWith g pI)

/-- The body of the loop in `parseDirectoryFP`: `%127s` stops after 127 characters. -/
def parseBodyLogged (pI : IocId) (acc : Dir × ℕ) (token : Name) : Loader (Dir × ℕ) := do
  note ⟨.pvNameStr, token.take 127⟩
  let _ ← lift (writeBuf pvNameSz token)
  let (d, failed) ← acc.1.installPVNameLogged (cstr token) pI
  return (d, if failed = 1 then acc.2 + 1 else acc.2)

/-- `parseDirectoryFP`. -/
def parseDirectoryFPLogged (d : Dir) (pf : List Char) (pI : IocId) : Loader (Dir × ℤ) := do
  let (d, haveAHeart) ← (words pf).foldlM (parseBodyLogged pI) (d, 0)
  return (d, if haveAHeart = 0 then -1 else (words pf).length)

/-- `add_all_pvs`. -/
def addAllPvsLogged (g : Getters) (fs : FileSystem) (d : Dir) (pI : IocId) : Loader (Dir × ℤ) := do
  let p ← lift (d.getPIoc pI)
  let pathToList ← lift (g.getPathToList pI p)
  (fopen fs pathToList).elim (return (d, -1)) fun pf => d.parseDirectoryFPLogged pf pI

end Dir

/-- The effect of a heartbeat's connection on the directory. -/
def Server.wdReloadLogged (g : Getters) (d : Dir) (pI : IocId) (cn : Connection) :
    Loader Dir := do
  let d ← lift (d.setAddr pI cn.host cn.aToIPAddr)
  let p ← lift (d.getPIoc pI)
  if p.status = 0 then lift (d.setStatus pI 1)
  else if p.status = 2 then do
    let d ← d.removeAllPvsLogged g pI
    let add ← d.addAllPvsLogged g cn.fs pI
    lift (add.1.setStatus pI 1)
  else return d

/-! ## The computations are the same -/

section Same

variable (g : Getters)

namespace Dir

@[simp] theorem out_installPVNameLogged (d : Dir) (pName : Name) (pI : IocId) :
    (d.installPVNameLogged pName pI).out = d.installPVName pName pI := by
  unfold installPVNameLogged
  simp only [out_bind, out_lift, out_noteIf]
  unfold installPVName
  cases d.getPIoc pI <;> rfl

@[simp] theorem out_removeAllPvsLogged (d : Dir) (pI : IocId) :
    (d.removeAllPvsLogged g pI).out = d.removeAllPvsWith g pI := by
  unfold removeAllPvsLogged
  simp only [out_bind, out_lift, out_noteIf]
  unfold removeAllPvsWith
  cases d.getPIoc pI <;> rfl

theorem out_parseBodyLogged (pI : IocId) (acc : Dir × ℕ) (token : Name) :
    (parseBodyLogged pI acc token).out = parseBody pI acc token := by
  unfold parseBodyLogged
  simp only [out_bind, out_lift, out_note, out_installPVNameLogged, out_pure]
  rfl

@[simp] theorem out_addAllPvsLogged (fs : FileSystem) (d : Dir) (pI : IocId) :
    (d.addAllPvsLogged g fs pI).out = d.addAllPvsWith g fs pI := by
  unfold addAllPvsLogged
  simp only [out_bind, out_lift]
  unfold addAllPvsWith
  refine congrArg _ (funext fun p => congrArg _ (funext fun path => ?_))
  cases fopen fs path with
  | none => rfl
  | some pf =>
      simp only [Option.elim_some, parseDirectoryFPLogged, out_bind, out_foldlM,
        out_parseBodyLogged, out_pure]
      rfl

/-- In `Basic` the strings are read as where no array ends in a terminator. -/
theorem removeAllPvsWith_basic (d : Dir) (pI : IocId) :
    d.removeAllPvsWith .basic pI = d.removeAllPvs pI := by
  have hbody : removeBodyWith .basic = removeBody := by
    funext removeAll checkStr acc pve
    unfold removeBodyWith removeBody removeNamed
    refine congrArg _ (funext fun e => congrArg _ (funext fun pvNameStr => ?_))
    split_ifs <;> rfl
  unfold removeAllPvsWith removeAllPvs
  rw [hbody]
  refine congrArg _ (funext fun p => congrArg _ (funext fun iocName => congrArg _ (funext fun path =>
    congrArg _ (funext fun checkStr => congrArg _ (funext fun acc => ?_)))))
  obtain ⟨d', hb⟩ := acc
  cases hb <;> rfl

theorem addAllPvsWith_basic (fs : FileSystem) (d : Dir) (pI : IocId) :
    d.addAllPvsWith .basic fs pI = d.addAllPvs fs pI := by
  unfold addAllPvsWith addAllPvs
  refine congrArg _ (funext fun p => congrArg _ (funext fun path => ?_))
  cases fopen fs path <;> rfl

end Dir

end Same

/-- There is room for the name of the IOC's heartbeat. -/
def PIoc.Short (p : PIoc) : Prop := p.heartbeatName.length < pvNameSz

/-- The words of the list at `path` that are read, up to one after which nothing is defined. -/
def ListFits (fs : FileSystem) (d : Dir) (pI : IocId) (path : Name) : Prop :=
  ∀ pf pre token post acc, fopen fs path = some pf → words pf = pre ++ token :: post →
    pre.foldlM (Dir.parseBody pI) (d, 0) = .ok acc → token.length < pvNameSz

/-- A word of the directory file that is met in the state `acc`.  It is taken for a pathname if it
does not begin with `#` and its IOC is not in the table. -/
structure WordFits (ends : ArrayEnds) (filenameIsIocname : Bool) (fs : FileSystem) (acc : Dir × ℕ)
    (token : Name) : Prop where
  input : token.length < 200
  tStr : isPath (cstr token) = true →
    acc.1.iocResTbl (iocNameOf filenameIsIocname (cstr token)) = none →
      (iocNameOf filenameIsIocname (cstr token) ++ heartbeat).length < pvNameSz
  /-- a path of 119 characters or more is cut to 119, and has an end only if its array had one -/
  list : isPath (cstr token) = true →
    acc.1.iocResTbl (iocNameOf filenameIsIocname (cstr token)) = none →
      (cstr token).length < pathNameSz - 1 ∨ ends.pathToList acc.1.nextPIoc = true → ∀ d r,
        (acc.1.installIocName (iocNameOf filenameIsIocname (cstr token))
          (cstr token)).1.installPVName (iocNameOf filenameIsIocname (cstr token) ++ heartbeat)
          acc.1.nextPIoc = .ok (d, r) →
            ListFits fs d acc.1.nextPIoc ((cstr token).take (pathNameSz - 1))

/-- The words of the directory file that are read. -/
def DirectoryFits (ends : ArrayEnds) (filenameIsIocname : Bool) (fs : FileSystem) (pf : List Char) :
    Prop :=
  ∀ pre token post acc, words pf = pre ++ token :: post →
    pre.foldlM (directoryBodyWith ends.getters filenameIsIocname fs) (Dir.empty, 0) = .ok acc →
      WordFits ends filenameIsIocname fs acc token

namespace Dir

variable {d : Dir} {i : IocId} {p : PIoc} {fs : FileSystem}

end Dir

/-! ## Startup -/

section Startup

variable {ends : ArrayEnds} {filenameIsIocname : Bool} {fs : FileSystem} {acc acc' : Dir × ℕ}
  {token name path : Name}

/-- A name of an IOC with room for `:heartbeat` is read as it is. -/
theorem PIoc.Short.getIocname {p : PIoc} (h : p.Short) (i : IocId) :
    ends.getters.getIocname i p = .ok p.iocname := by
  have hlen : p.iocname.length < hostNameSz - 1 := by
    rw [PIoc.Short, PIoc.heartbeatName, List.length_append] at h
    exact Nat.lt_of_add_lt_add_right (n := heartbeat.length) (h.trans_le (by decide))
  exact readBack_eq_ok_iff.mpr ⟨Or.inl hlen, (List.take_of_length_le hlen.le).symm⟩

end Startup

/-- The searches leave the directory as it is. -/
theorem connectLoop_dir {clock : IocId → ℕ} {search : CaStatus} {order : List IocId} {s s' : Server}
    (h : order.foldlM (fun s i => connectIocHeartbeat (clock i) search s i) s = .ok s') :
    s'.dir = s.dir := by
  refine foldlM_induct (P := fun x : Server => x.dir = s.dir) h rfl ?_
  intro i _ b b' hb hbody
  obtain ⟨-, p, -, rfl⟩ := connectIocHeartbeat_eq_ok hbody
  exact hb

/-- Limits for the words of the files, whichever of them are read. -/
theorem directoryFits_of_short {ends : ArrayEnds} {filenameIsIocname : Bool} {fs : FileSystem}
    {pf : List Char} (h : ∀ token ∈ words pf, token.length < 200 ∧
      (iocNameOf filenameIsIocname (cstr token) ++ heartbeat).length < pvNameSz ∧
      ∀ list, fopen fs ((cstr token).take (pathNameSz - 1)) = some list →
        ∀ name ∈ words list, name.length < pvNameSz) :
    DirectoryFits ends filenameIsIocname fs pf := by
  intro pre token post acc hl _
  obtain ⟨hinput, htStr, hlist⟩ := h token (hl ▸ List.mem_append_right _ (List.mem_cons_self ..))
  refine ⟨hinput, fun _ _ => htStr, fun _ _ _ d r _ => ?_⟩
  intro list pre' name post' acc' hopen hl' _
  exact hlist list hopen name (hl' ▸ List.mem_append_right _ (List.mem_cons_self ..))

/-! ## As in the model of the server -/

/-- **A heartbeat's connection**, with its writes. -/
theorem out_wdReloadLogged (d : Dir) (pI : IocId) (cn : Connection) :
    (Server.wdReloadLogged .basic d pI cn).out = Server.wdReload d pI cn := by
  unfold Server.wdReloadLogged
  simp only [out_bind, out_lift, out_ite, Dir.out_addAllPvsLogged, Dir.out_removeAllPvsLogged,
    Dir.addAllPvsWith_basic, Dir.removeAllPvsWith_basic, out_pure]
  rfl

/-! ## Reloads -/

end CaNameserver
