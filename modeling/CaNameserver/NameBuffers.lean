import CaNameserver.Lib.CBuffer
import CaNameserver.DirectorySpec

/-!
# Names in their buffers

The key of an entry in the PV table is the whole name.  The entry, a search and a request have
copies of it, in arrays of 80 bytes: `strncpy` is given 79 of them, the storage is not cleared,
and nobody sets the last byte.  A name of 79 characters leaves an array without a terminator,
unless the storage happened to end in one.  The name and the path of an IOC are kept in the same
way.

## The copies

`PvEObject`, `NamenodeObject`, `PIocObject` and `shortPV` are the copies, in storage with any
contents.  What is read out of them is a matter of the bytes (`CBuffer.read`).  `NamesSurvive`
says that each copy of a PV's name is read as the name.

## The model of the other modules

`Basic` does not have the bytes: there a copy that is too long has no defined outcome.  That is
what holds whatever the storage contains (`strncpy_eq_ok_iff_read`).  For the loops, whose course
depends on what is read, the getters are a parameter instead.

* `Storage.getters`: what is read out of the arrays themselves, in storage with given contents.
* `ArrayEnds.getters`: the same from no more than is needed, whether each array ends in a
  terminator (`readBack_eq_ok_iff_read`).
* `Getters.basic`: what `Basic` has, which is the case of no such array (`getters_none`).

## Removal

`remove_all_pvs` reads three kinds of names: the IOC's, which `checkStr` is made of; its path,
which decides whether there is a heartbeat to be kept; and those of the entries, by which they are
taken out of the table.  `removeAllPvsIn` is the function over the storage, and `FindsAll` says
that it comes to its end with every entry that it deletes out of the table.  `Readable` is when
that is so: each of the names is short enough, or its array ended in a terminator before, in which
case it is the cut name that is read.

* `namesSurvive_iff`: the names that survive, and the IOCs whose PVs can be removed.
* `longName_lost`: a name of 79 characters.
-/

namespace CaNameserver

open CStr Fallible

/-! ## The copies -/

/-- A name that an array of 80 bytes has room for. -/
structure PvName (n : Name) : Prop where
  cstring : '\x00' ∉ n
  room : n.length < pvNameSz

/-- `class pvE`, with its array. -/
structure PvEObject where
  /-- `stringId`, the key it is stored under -/
  resourceName : Name
  pI : Option IocId
  name : CBuffer pvNameSz

/-- `class pIoc`, with its arrays. -/
structure PIocObject where
  iocname : CBuffer hostNameSz
  pathToList : CBuffer pathNameSz

/-- `new pvE(cas, pNameIn, pHIn)`, in storage with some contents. -/
def PvEObject.new (storage : CBuffer pvNameSz) (pNameIn : Name) (pHIn : Option IocId) :
    PvEObject :=
  ⟨pNameIn, pHIn, storage.strncpy pNameIn⟩

/-- `pvE::get_name()`, read as a string. -/
def PvEObject.getName (o : PvEObject) : Option Name := o.name.read

/-- `new pIoc(cas, pIocNameIn, pPath)`; a null path is the empty one. -/
def PIocObject.new (iocname : CBuffer hostNameSz) (pathToList : CBuffer pathNameSz)
    (pIocNameIn pPath : Name) : PIocObject :=
  ⟨iocname.strncpy pIocNameIn, pathToList.strncpy pPath⟩

/-- `class namenode`, with its array; `otime` is set later. -/
structure NamenodeObject where
  name : CBuffer pvNameSz
  chd : Chid
  rebroadcast : Bool

/-- `new namenode(nameIn, chidIn, rebroadcastIn)`. -/
def NamenodeObject.new (storage : CBuffer pvNameSz) (nameIn : Name) (chidIn : Chid)
    (rebroadcastIn : Bool) : NamenodeObject :=
  ⟨storage.strncpy nameIn, chidIn, rebroadcastIn⟩

/-- `namenode::get_name()`, read as a string. -/
def NamenodeObject.getName (o : NamenodeObject) : Option Name := o.name.read

/-- `shortPV` of `pvExistTest`: the name is copied and cut at its first `.`; `none` where there is
no end to look up to. -/
def shortPV (storage : CBuffer pvNameSz) (pPVName : Name) : Option (CBuffer pvNameSz) :=
  (storage.strncpy pPVName).cut '.'

/-- The last byte of the storage is a terminator. -/
def Ended {size : ℕ} (storage : CBuffer size) : Prop := storage.bytes.getLast? = some '\x00'

/-- What is defined in `Basic` is what holds whatever the storage contains. -/
theorem strncpy_eq_ok_iff_read {size : ℕ} {src s : Name} (hsrc : '\x00' ∉ src) :
    strncpy size src = .ok s ↔ ∀ storage : CBuffer size, (storage.strncpy src).read = some s := by
  rw [strncpy_eq_ok_iff]
  constructor
  · rintro ⟨hlen, rfl⟩ storage
    exact CBuffer.read_strncpy_of_lt hsrc hlen
  · intro h
    have hfull := h ⟨List.replicate size 'x', List.length_replicate ..⟩
    rw [CBuffer.read_strncpy_of_not_mem hsrc (by simp)] at hfull
    split_ifs at hfull with hlen
    exact ⟨hlen, (Option.some.inj hfull).symm⟩

/-- A name is what its copies are read as. -/
structure NamesSurvive (n : Name) (pvE namenode short : CBuffer pvNameSz) : Prop where
  getName : ∀ pI, (PvEObject.new pvE n pI).getName = some n
  key : ∀ pI, (PvEObject.new pvE n pI).getName = some (PvEObject.new pvE n pI).resourceName
  getNameNode : ∀ chd rebroadcast,
    (NamenodeObject.new namenode n chd rebroadcast).getName = some n
  shortPV : (shortPV short n).bind CBuffer.read = some (cutAt '.' n)

/-- A copy is read back. -/
theorem PvName.read_iff {n : Name} (hn : PvName n) (storage : CBuffer pvNameSz) :
    (storage.strncpy n).read = some n ↔ n.length < pvNameSz - 1 ∨ Ended storage :=
  CBuffer.read_strncpy_iff hn.cstring hn.room

theorem PvName.shortPV_iff {n : Name} (hn : PvName n) (storage : CBuffer pvNameSz) :
    (shortPV storage n).bind CBuffer.read = some (cutAt '.' n) ↔
      n.length < pvNameSz - 1 ∨ Ended storage := by
  rw [← hn.read_iff storage]
  constructor
  · intro h
    obtain ⟨b, hb, -⟩ := Option.bind_eq_some_iff.mp h
    obtain ⟨s, hs⟩ := Option.ne_none_iff_exists'.mp (CBuffer.read_ne_none_of_cut hb)
    rw [hs, CBuffer.eq_of_read_strncpy hn.cstring hn.room hs]
  · exact CBuffer.read_cut

/-- **One name.** -/
theorem PvName.survives_iff {n : Name} (hn : PvName n) (pvE namenode short : CBuffer pvNameSz) :
    NamesSurvive n pvE namenode short ↔
      n.length < pvNameSz - 1 ∨ (Ended pvE ∧ Ended namenode ∧ Ended short) := by
  rw [or_and_left, or_and_left, ← hn.read_iff pvE, ← hn.read_iff namenode, ← hn.shortPV_iff short]
  constructor
  · intro h
    exact ⟨h.getName none, h.getNameNode 0 false, h.shortPV⟩
  · rintro ⟨hpvE, hnode, hshort⟩
    exact ⟨fun _ => hpvE, fun _ => hpvE, fun _ _ => hnode, hshort⟩

/-! ## The strings in the objects -/

/-- How the strings in the objects are read: `pvE::get_name()`, `pIoc::get_iocname()` and
`pIoc::get_pathToList()`, for the object at an address. -/
structure Getters where
  getName : PvEId → PvE → Except Fault Name
  getIocname : IocId → PIoc → Except Fault Name
  getPathToList : IocId → PIoc → Except Fault Name

/-- As in `Basic`: what does not depend on the storage. -/
def Getters.basic : Getters :=
  ⟨fun _ => PvE.getName, fun _ => PIoc.getIocname, fun _ => PIoc.getPathToList⟩

/-- What the arrays of the objects held before they were filled. -/
structure Storage where
  name : PvEId → CBuffer pvNameSz
  iocname : IocId → CBuffer hostNameSz
  pathToList : IocId → CBuffer pathNameSz

/-- The strings as the arrays have them. -/
def Storage.getters (storage : Storage) : Getters where
  getName e pv :=
    deref (PvEObject.new (storage.name e) pv.resourceName pv.pI).getName .unterminated
  getIocname i p := deref (PIocObject.new (storage.iocname i) (storage.pathToList i) p.iocname
    p.pathToList).iocname.read .unterminated
  getPathToList i p := deref (PIocObject.new (storage.iocname i) (storage.pathToList i) p.iocname
    p.pathToList).pathToList.read .unterminated

/-- The strings of an IOC hold no terminator. -/
structure PIoc.CStrings (p : PIoc) : Prop where
  iocname : '\x00' ∉ p.iocname
  pathToList : '\x00' ∉ p.pathToList

theorem PIoc.CStrings.getIocname_iff {p : PIoc} (h : p.CStrings) {storage : Storage} {i : IocId}
    {s : Name} : storage.getters.getIocname i p = .ok s ↔ s = p.iocname.take (hostNameSz - 1) ∧
      (p.iocname.length < hostNameSz - 1 ∨ Ended (storage.iocname i)) :=
  deref_eq_ok_iff.trans (CBuffer.read_strncpy_eq_some_iff h.iocname (by decide))

theorem PIoc.CStrings.getPathToList_iff {p : PIoc} (h : p.CStrings) {storage : Storage} {i : IocId}
    {s : Name} : storage.getters.getPathToList i p = .ok s ↔
      s = p.pathToList.take (pathNameSz - 1) ∧
        (p.pathToList.length < pathNameSz - 1 ∨ Ended (storage.pathToList i)) :=
  deref_eq_ok_iff.trans (CBuffer.read_strncpy_eq_some_iff h.pathToList (by decide))

/-- Which of the arrays happen to end in a terminator. -/
structure ArrayEnds where
  name : PvEId → Bool
  iocname : IocId → Bool
  pathToList : IocId → Bool

/-- The string in a `size`-byte array to which `src` has been copied but for its end. -/
def readBack (ended : Bool) (size : ℕ) (src : Name) : Except Fault Name :=
  if src.length < size - 1 ∨ ended then .ok (src.take (size - 1)) else .error .unterminated

/-- The strings as they are read where only the ends of the arrays are known. -/
def ArrayEnds.getters (ends : ArrayEnds) : Getters where
  getName e pv := readBack (ends.name e) pvNameSz pv.resourceName
  getIocname i p := readBack (ends.iocname i) hostNameSz p.iocname
  getPathToList i p := readBack (ends.pathToList i) pathNameSz p.pathToList

/-- No array does. -/
def ArrayEnds.none : ArrayEnds := ⟨fun _ => false, fun _ => false, fun _ => false⟩

theorem readBack_eq_ok_iff {ended : Bool} {size : ℕ} {src s : Name} :
    readBack ended size src = .ok s ↔
      (src.length < size - 1 ∨ ended = true) ∧ s = src.take (size - 1) := by
  unfold readBack
  split_ifs with h <;> simp [h, eq_comm]

/-- More than the ends is not needed. -/
theorem readBack_eq_ok_iff_read {size : ℕ} (hsize : 0 < size) {src s : Name} (hsrc : '\x00' ∉ src)
    {storage : CBuffer size} {ended : Bool} (hended : ended = true ↔ Ended storage) :
    readBack ended size src = .ok s ↔ (storage.strncpy src).read = some s := by
  rw [readBack_eq_ok_iff, CBuffer.read_strncpy_eq_some_iff hsrc hsize, hended, and_comm]
  rfl

namespace Dir

/-- The body of the loop in `remove_all_pvs`, as `removeBody`, with the name as it is read. -/
def removeBodyWith (g : Getters) (removeAll : Bool) (checkStr : Name)
    (acc : Dir × Option PvEId) (pve : PvEId) : Except Fault (Dir × Option PvEId) := do
  let e ← acc.1.getPvE pve
  let pvNameStr ← g.getName pve e
  return removeNamed removeAll checkStr pvNameStr acc pve

/-- `remove_all_pvs`, with the strings as they are read. -/
def removeAllPvsWith (g : Getters) (d : Dir) (pI : IocId) : Except Fault Dir := do
  let p ← d.getPIoc pI
  let iocName ← g.getIocname pI p
  let pathToList ← g.getPathToList pI p
  let removeAll := pathToList.isEmpty
  let checkStr ← checkStrOf removeAll iocName
  let acc ← p.pvEList.foldlM (removeBodyWith g removeAll checkStr)
    (d.setPIoc pI { p with pvEList := [] }, none)
  acc.1.putBack pI acc.2

/-- `remove_all_pvs`, with the strings as the arrays have them. -/
def removeAllPvsIn (storage : Storage) (d : Dir) (pI : IocId) : Except Fault Dir :=
  d.removeAllPvsWith storage.getters pI

variable {storage : Storage} {d : Dir} {i : IocId} {p : PIoc}

/-- `remove_all_pvs` comes to its end, and has found in the table every entry it has deleted. -/
def FindsAll (storage : Storage) (d : Dir) (i : IocId) (p : PIoc) : Prop :=
  ∃ d', d.removeAllPvsIn storage i = .ok d' ∧ ∀ e ∈ p.pvEList, ∀ pv, d.pvEs e = some pv →
    d.stringResTbl pv.resourceName = some e → d'.pvEs e = none →
      d'.stringResTbl pv.resourceName = none

/-- The strings that `remove_all_pvs` reads and writes are in order. -/
structure Readable (storage : Storage) (d : Dir) (i : IocId) (p : PIoc) : Prop where
  iocname : p.iocname.length < hostNameSz - 1 ∨ Ended (storage.iocname i)
  pathToList : p.pathToList.length < pathNameSz - 1 ∨ Ended (storage.pathToList i)
  heartbeat : p.pathToList ≠ [] → p.heartbeatName.length < pvNameSz
  entries : ∀ e ∈ p.pvEList, ∃ pv, d.pvEs e = some pv ∧
    (pv.resourceName.length < pvNameSz - 1 ∨ Ended (storage.name e))

/-- A heartbeat whose name fits has the whole name of its IOC in it. -/
theorem take_of_heartbeat {iocName : Name}
    (h : (iocName.take (hostNameSz - 1) ++ heartbeat).length < pvNameSz) :
    iocName.take (hostNameSz - 1) = iocName := by
  refine List.take_of_length_le ?_
  by_contra hlong
  rw [List.length_append, List.length_take, Nat.min_eq_left (Nat.le_of_not_le hlong)] at h
  exact absurd h (by decide)

theorem checkStrOf_take {removeAll : Bool} {iocName checkStr : Name}
    (h : checkStrOf removeAll (iocName.take (hostNameSz - 1)) = .ok checkStr) :
    checkStrOf removeAll iocName = .ok checkStr := by
  rw [checkStrOf_eq_ok_iff] at h ⊢
  split_ifs at h ⊢
  · exact h
  · rwa [take_of_heartbeat h.1] at h

/-- The path that is read is empty only if the path is. -/
theorem isEmpty_take_path (path : Name) :
    (path.take (pathNameSz - 1)).isEmpty = path.isEmpty := by
  cases path <;> rfl

theorem removeBodyIn_eq_ok_iff {removeAll : Bool} {checkStr : Name}
    {acc acc' : Dir × Option PvEId} {pve : PvEId} {pv : PvE} (hpv : acc.1.pvEs pve = some pv)
    (hname : PvName pv.resourceName) :
    removeBodyWith storage.getters removeAll checkStr acc pve = .ok acc' ↔
      (pv.resourceName.length < pvNameSz - 1 ∨ Ended (storage.name pve)) ∧
        acc' = removeNamed removeAll checkStr pv.resourceName acc pve := by
  rw [← hname.read_iff (storage.name pve)]
  simp only [removeBodyWith, Storage.getters, bind_eq_ok_iff, getPvE_eq_ok_iff, deref_eq_ok_iff,
    pure_eq_ok_iff]
  constructor
  · rintro ⟨pv', hpv', s, hs, rfl⟩
    cases hpv.symm.trans hpv'
    have hs' : ((storage.name pve).strncpy pv.resourceName).read = some s := hs
    obtain rfl := CBuffer.eq_of_read_strncpy hname.cstring hname.room hs'
    exact ⟨hs', rfl⟩
  · rintro ⟨hs, rfl⟩
    exact ⟨pv, hpv, _, hs, rfl⟩

/-- One turn of the loop. -/
theorem Removing.bodyIn {pre post : List PvEId} {e : PvEId} {acc acc' : Dir × Option PvEId}
    {removeAll : Bool} {checkStr : Name} (hwf : WF d) (hp : d.pIocs i = some p)
    (hnames : ∀ e ∈ p.pvEList, ∀ pv, d.pvEs e = some pv → PvName pv.resourceName)
    (hl : p.pvEList = pre ++ e :: post) (hall : removeAll = p.pathToList.isEmpty)
    (hcheck : removeAll = false → checkStr = p.heartbeatName)
    (h : Removing d i p pre acc.1 acc.2)
    (hbody : removeBodyWith storage.getters removeAll checkStr acc e = .ok acc') :
    Removing d i p (pre ++ [e]) acc'.1 acc'.2 ∧
      ∃ pv, d.pvEs e = some pv ∧
        (pv.resourceName.length < pvNameSz - 1 ∨ Ended (storage.name e)) := by
  obtain ⟨pv, hpv, -⟩ := bind_eq_ok_iff.mp hbody
  rw [getPvE_eq_ok_iff] at hpv
  have hpv' : d.pvEs e = some pv := (h.pvEs_of_mem hwf hp hl).symm.trans hpv
  have hname := hnames e (by simp [hl]) pv hpv'
  obtain ⟨hread, rfl⟩ := (removeBodyIn_eq_ok_iff hpv hname).mp hbody
  exact ⟨h.step hwf hp hl hall hcheck hpv, pv, hpv', hread⟩

/-- Where the strings are in order, removal comes to its end. -/
theorem Readable.removeAllPvsIn_defined (h : Readable storage d i p) (hwf : WF d)
    (hp : d.pIocs i = some p) (hioc : p.CStrings)
    (hnames : ∀ e ∈ p.pvEList, ∀ pv, d.pvEs e = some pv → PvName pv.resourceName) :
    ∃ d', d.removeAllPvsIn storage i = .ok d' ∧ Removed d i p d' := by
  obtain ⟨checkStr, hcheckStr⟩ : ∃ checkStr,
      checkStrOf p.pathToList.isEmpty (p.iocname.take (hostNameSz - 1)) = .ok checkStr := by
    cases hpath : p.pathToList.isEmpty with
    | true => exact ⟨[], rfl⟩
    | false =>
        refine ⟨_, checkStrOf_eq_ok_iff.mpr ⟨lt_of_le_of_lt ?_ (h.heartbeat ?_), rfl⟩⟩
        · rw [PIoc.heartbeatName, List.length_append, List.length_append]
          exact Nat.add_le_add_right (List.length_take_le' ..) _
        · intro hnil
          rw [hnil] at hpath
          cases hpath
  have hcheck := eq_heartbeatName_of_checkStrOf (checkStrOf_take hcheckStr)
  have hstep : ∀ pre e post (acc acc' : Dir × Option PvEId), p.pvEList = pre ++ e :: post →
      Removing d i p pre acc.1 acc.2 →
      removeBodyWith storage.getters p.pathToList.isEmpty checkStr acc e = .ok acc' →
      Removing d i p (pre ++ [e]) acc'.1 acc'.2 :=
    fun pre e post acc acc' hl hacc hbody =>
      (hacc.bodyIn hwf hp hnames hl rfl hcheck hbody).1
  obtain ⟨acc, hloop⟩ : Defined (p.pvEList.foldlM
      (removeBodyWith storage.getters p.pathToList.isEmpty checkStr)
      (d.setPIoc i { p with pvEList := [] }, none)) := by
    refine Defined.foldlM (P := fun l acc => Removing d i p l acc.1 acc.2) (Removing.start d i p)
      hstep fun pre e post acc hl hacc => ?_
    have hmem : e ∈ p.pvEList := by simp [hl]
    obtain ⟨pv, hpv, hread⟩ := h.entries e hmem
    have hpv' : acc.1.pvEs e = some pv := (hacc.pvEs_of_mem hwf hp hl).trans hpv
    exact ⟨_, (removeBodyIn_eq_ok_iff hpv' (hnames e hmem pv hpv)).mpr ⟨hread, rfl⟩⟩
  have hdone := foldlM_prefix_induct (P := fun l acc => Removing d i p l acc.1 acc.2) hloop
    (Removing.start d i p) hstep
  obtain ⟨d', hd'⟩ : ∃ d', acc.1.putBack i acc.2 = .ok d' := by
    cases acc.2 with
    | none => exact ⟨_, rfl⟩
    | some pve =>
        have hp' : acc.1.pIocs i = some { p with pvEList := [] } := by
          rw [hdone.pIocs, if_pos rfl]
        exact ⟨_, bind_eq_ok_iff.mpr ⟨_, getPIoc_eq_ok_iff.mpr hp', rfl⟩⟩
  refine ⟨d', ?_, hdone.removed hd'⟩
  simp only [removeAllPvsIn, removeAllPvsWith, bind_eq_ok_iff, getPIoc_eq_ok_iff]
  refine ⟨p, hp, _, hioc.getIocname_iff.mpr ⟨rfl, h.iocname⟩, _,
    hioc.getPathToList_iff.mpr ⟨rfl, h.pathToList⟩, checkStr, ?_, acc, ?_, hd'⟩
  · rw [isEmpty_take_path]
    exact hcheckStr
  · rw [isEmpty_take_path]
    exact hloop

/-- **The entries that removal finds.** -/
theorem findsAll_iff (hwf : WF d) (hp : d.pIocs i = some p) (hioc : p.CStrings)
    (hnames : ∀ e ∈ p.pvEList, ∀ pv, d.pvEs e = some pv → PvName pv.resourceName) :
    FindsAll storage d i p ↔ Readable storage d i p := by
  constructor
  · rintro ⟨d', h, -⟩
    simp only [removeAllPvsIn, removeAllPvsWith, bind_eq_ok_iff, getPIoc_eq_ok_iff] at h
    obtain ⟨q, hq, iocName, hname, path, hpath, checkStr, hcheckStr, acc, hloop, -⟩ := h
    cases hp.symm.trans hq
    obtain ⟨rfl, hnameEnds⟩ := hioc.getIocname_iff.mp hname
    obtain ⟨rfl, hpathEnds⟩ := hioc.getPathToList_iff.mp hpath
    rw [isEmpty_take_path] at hcheckStr hloop
    have hcheckStr' := checkStrOf_take hcheckStr
    have hheart : p.pathToList ≠ [] → p.heartbeatName.length < pvNameSz := by
      intro hne
      rw [checkStrOf_eq_ok_iff, if_neg (by simpa using hne)] at hcheckStr'
      exact hcheckStr'.1
    have hcheck := eq_heartbeatName_of_checkStrOf hcheckStr'
    have hentries := (foldlM_prefix_induct (P := fun l (acc : Dir × Option PvEId) =>
      Removing d i p l acc.1 acc.2 ∧ ∀ e ∈ l, ∃ pv, d.pvEs e = some pv ∧
        (pv.resourceName.length < pvNameSz - 1 ∨ Ended (storage.name e))) hloop
      ⟨Removing.start d i p, fun e he => absurd he List.not_mem_nil⟩
      fun pre e post acc acc' hl hacc hbody => ?_).2
    · exact ⟨hnameEnds, hpathEnds, hheart, hentries⟩
    · obtain ⟨hdone, hread⟩ := hacc.1.bodyIn hwf hp hnames hl rfl hcheck hbody
      refine ⟨hdone, fun e' he' => ?_⟩
      rcases List.mem_append.mp he' with he' | he'
      · exact hacc.2 e' he'
      · rw [List.mem_singleton.mp he']
        exact hread
  · intro h
    obtain ⟨d', hd', hrem⟩ := h.removeAllPvsIn_defined hwf hp hioc hnames
    refine ⟨d', hd', fun e he pv hpv htab hnone => ?_⟩
    rw [hrem.pvEs, hpv] at hnone
    rw [hrem.stringResTbl, htab, Option.filter_some]
    split_ifs at hnone ⊢ with hgone hkeep
    · rw [hkeep] at hgone
      cases hgone
    · rfl

end Dir

/-- **The names that survive their buffers**: those of at most 78 characters, and longer ones where
the storage happens to end in a terminator; removal finds the entries with such names. -/
theorem namesSurvive_iff {n : Name} (hn : PvName n) (pvE namenode short : CBuffer pvNameSz) :
    (NamesSurvive n pvE namenode short ↔
      n.length < pvNameSz - 1 ∨ (Ended pvE ∧ Ended namenode ∧ Ended short)) ∧
    ∀ (storage : Storage) (d : Dir) (i : IocId) (p : PIoc), d.WF → d.pIocs i = some p →
      p.CStrings → (∀ e ∈ p.pvEList, ∀ pv, d.pvEs e = some pv → PvName pv.resourceName) →
      (d.FindsAll storage i p ↔ d.Readable storage i p) :=
  ⟨hn.survives_iff pvE namenode short,
    fun _ _ _ _ hwf hp hioc hnames => Dir.findsAll_iff hwf hp hioc hnames⟩

/-- Storage that has been set to `x` all over. -/
def dirty {size : ℕ} : CBuffer size := ⟨List.replicate size 'x', List.length_replicate ..⟩

/-- All arrays have. -/
def dirtyStorage : Storage := ⟨fun _ => dirty, fun _ => dirty, fun _ => dirty⟩

theorem pvName_short : PvName ['n'] := ⟨by decide, by decide⟩

/-- A short name, and an IOC with one PV of that name. -/
theorem namesSurvive_iff_short :
    (NamesSurvive ['n'] dirty dirty dirty ↔ (['n'] : Name).length < pvNameSz - 1 ∨
      (Ended (dirty : CBuffer pvNameSz) ∧ Ended (dirty : CBuffer pvNameSz) ∧
        Ended (dirty : CBuffer pvNameSz))) ∧
    ∃ (d : Dir) (p : PIoc), d.pIocs 0 = some p ∧ p.pvEList = [0] ∧
      (d.FindsAll dirtyStorage 0 p ↔ d.Readable dirtyStorage 0 p) := by
  have hiff := namesSurvive_iff pvName_short dirty dirty dirty
  refine ⟨hiff.1, ?_⟩
  have hwf := Dir.WF.empty.installIocName ['A'] []
  obtain ⟨d, hd⟩ : ∃ d, (Dir.empty.installIocName ['A'] []).1.installPVName ['n'] 0 = .ok (d, 0) :=
    ⟨_, rfl⟩
  have hwf' := hwf.installed (Dir.installPVName_installed hd)
  have hp : d.pIocs 0 = some ⟨['A'], [], 0, SockAddr.zero, [0]⟩ := by
    cases hd
    rfl
  refine ⟨d, _, hp, rfl, hiff.2 dirtyStorage d 0 _ hwf' hp ⟨by decide, by decide⟩
    fun e he pv hpv => ?_⟩
  rw [List.mem_singleton.mp he] at hpv
  cases hd
  cases hpv
  exact pvName_short

/-- **A name of 79 characters does not survive** storage that does not end in a terminator. -/
theorem longName_lost : ¬ ∀ (n : Name) (pvE namenode short : CBuffer pvNameSz), PvName n →
    NamesSurvive n pvE namenode short := by
  intro hall
  have hlong : PvName (List.replicate 79 'n') := ⟨by simp, by simp [pvNameSz]⟩
  have hread : (dirty.strncpy (List.replicate 79 'n')).read = some (List.replicate 79 'n') :=
    (hall _ dirty dirty dirty hlong).getName none
  rw [hlong.read_iff] at hread
  exact absurd hread (by simp [pvNameSz, Ended, dirty])

end CaNameserver
