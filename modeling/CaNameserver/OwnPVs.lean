import Mathlib.Data.Rat.Init
import Mathlib.Logic.Function.Basic
import CaNameserver.Lib.Rounding
import CaNameserver.Refinement

/-!
# The server's own PVs

A `directoryServer` is a `pvServer`, which exports the counts of `nsStats` as PVs of its own.
Clients find them by a search, attach to them, watch them and write to them.  A timer scans each
PV, ten times more slowly while nobody watches it.

## One PV

An entry of `pvServer::pvList` (`PvInfo`) has a name and the `nsPV` that it has created, if it
has.  `PvCall` is what a PV can be called for: its timer expires, interest is registered or
deleted, a client reads or writes, the library destroys it.  Each call is an operation on the
entry.  A PV that the constructor of the server has created is marked as such, and `destroy`
leaves it alone; so the value that is read next is never that of a PV that is gone.

## All of them

`PvServer.construct` creates the PVs of the list and installs their names, which are those of the
list with the prefix in front.  A name that is too long is cut (`ownName`), but the names of the
list differ early enough (`ownName_nodup`), so that each has its own place in the table.
`PvServer.Installed` is what holds from then on, and no call changes it (`Installed.serve`).

## With the server

`OwnServer` is the server together with its PVs and the clock, and `ownServer` its transition
system.  An event is one of the name server, or a call, at a time that does not come before the
last one.  A request is answered with *exists here* exactly for the names that the constructor has
installed (`OwnServer.Sane`), and these do not change.

* `answered_here_attaches`: who has been told that a PV is here can attach to it at any later
  time, and gets a PV that has a value; nobody can attach to anything else.

Times are in nanoseconds.
-/

namespace CaNameserver

open Rounding Transition

/-- A `double`. -/
inductive Double where
  | finite (v : ℚ)
  | infinite (negative : Bool)
  | nan
  deriving DecidableEq, Repr

/-- A `gdd` that a client writes; the value is that of a scalar, as a `double`. -/
structure Gdd where
  isScalar : Bool
  value : Double

/-- `class nsPV`. -/
structure NsPV where
  pValue : Option Double
  /-- when the timer expires, if it has been started -/
  timer : Option ℕ
  interest : Bool
  preCreate : Bool
  deriving DecidableEq, Repr

/-- `class pvInfo`.  The limits and the type are the same for all of `pvList`. -/
structure PvInfo where
  scanPeriod : ℕ
  pName : Name
  pPV : Option NsPV
  deriving DecidableEq, Repr

/-- `pvServer::pvList`. -/
def pvList : List PvInfo :=
  let second := 1000000000
  [⟨1 * second, "heartbeat".toList, none⟩, ⟨5 * second, "request".toList, none⟩,
    ⟨5 * second, "broadcast".toList, none⟩, ⟨5 * second, "broadcast_denied".toList, none⟩,
    ⟨5 * second, "pending".toList, none⟩, ⟨5 * second, "ioc_error".toList, none⟩,
    ⟨5 * second, "hit".toList, none⟩, ⟨5 * second, "ioc_down".toList, none⟩]

/-! ## One PV -/

/-- What `nsScalarPV::scan` shows under a name. -/
def NsStats.shown (stats : NsStats) (pName : Name) : Option ℕ :=
  if pName = "heartbeat".toList then some 1
  else if pName = "request".toList then some stats.request
  else if pName = "broadcast".toList then some stats.broadcast
  else if pName = "broadcast_denied".toList then some stats.broadcastDenied
  else if pName = "pending".toList then some stats.pending
  else if pName = "ioc_error".toList then some stats.iocError
  else if pName = "hit".toList then some stats.hit
  else if pName = "ioc_down".toList then some stats.iocDown
  else none

/-- `nsScalarPV::updateValue`, and `nsPV::update` around it: `none` for `S_casApp_outOfBounds`. -/
def NsPV.update (pv : NsPV) (valueIn : Gdd) : Option NsPV :=
  if valueIn.isScalar then some { pv with pValue := some valueIn.value } else none

/-- `newValue` of `scan`: it is a `float`, with a significand of 24 bits. -/
def newValue (count : ℕ) : Double := .finite (toNearest 24 count)

namespace PvInfo

/-- `nsPV::getScanPeriod`. -/
def getScanPeriod (info : PvInfo) (pv : NsPV) : ℕ :=
  if pv.interest then info.scanPeriod else 10 * info.scanPeriod

/-- `timer.start` and a restart from `expire`. -/
def startTimer (info : PvInfo) (now : ℕ) (pv : NsPV) : NsPV :=
  { pv with timer := some (now + info.getScanPeriod pv) }

/-- `nsScalarPV::scan`.  A PV of any other name would keep its value; `pvList` has none. -/
def scan (info : PvInfo) (stats : NsStats) (pv : NsPV) : NsPV :=
  ((stats.shown info.pName).bind fun count => pv.update ⟨true, newValue count⟩).getD pv

/-- `nsPV::nsPV`. -/
def newPV (info : PvInfo) (now : ℕ) (preCreateFlag : Bool) : NsPV :=
  let pv : NsPV := ⟨none, none, false, preCreateFlag⟩
  if 0 < info.scanPeriod then info.startTimer now pv else pv

/-- `pvInfo::createPV`. -/
def createPV (stats : NsStats) (now : ℕ) (preCreateFlag : Bool) (info : PvInfo) : PvInfo :=
  if info.pPV.isSome then info
  else { info with pPV := some (info.scan stats (info.newPV now preCreateFlag)) }

/-- `nsPV::expire`. -/
def expire (info : PvInfo) (stats : NsStats) (now : ℕ) (pv : NsPV) : NsPV :=
  let pv := info.scan stats pv
  if 0 < info.getScanPeriod pv then info.startTimer now pv else { pv with timer := none }

/-- `nsPV::interestRegister`: the timer is started anew if that is earlier. -/
def interestRegister (info : PvInfo) (now : ℕ) (pv : NsPV) : NsPV :=
  let pv := { pv with interest := true }
  if 0 < info.getScanPeriod pv ∧ pv.timer.any (now + info.getScanPeriod pv < ·) then
    info.startTimer now pv
  else pv

end PvInfo

/-- What the library and the timer queue call a PV for. -/
inductive PvCall where
  | expire
  | interestRegister
  | interestDelete
  | write (valueIn : Gdd)
  | destroy

/-- The timer calls when its time has come. -/
def PvCall.enabled (now : ℕ) (pv : NsPV) : PvCall → Bool
  | expire => pv.timer.any (· ≤ now)
  | _ => true

/-- What a call leaves of the PV.  `destroy` leaves those that the constructor of the server has
created. -/
def PvCall.onPV (stats : NsStats) (now : ℕ) (info : PvInfo) (pv : NsPV) : PvCall → Option NsPV
  | expire => some (info.expire stats now pv)
  | interestRegister => some (info.interestRegister now pv)
  | interestDelete => some { pv with interest := false }
  | write valueIn => some ((pv.update valueIn).getD pv)
  | destroy => if pv.preCreate then some pv else none

/-- One call; `nsPV::~nsPV` unlinks the PV. -/
def PvInfo.serve (stats : NsStats) (now : ℕ) (c : PvCall) (info : PvInfo) : PvInfo :=
  { info with pPV := info.pPV.bind fun pv => c.onPV stats now info pv }

/-! ## All of them -/

/-- `class pvServer`: a `pvEntry` is the place of its `pvInfo` in the list. -/
structure PvServer where
  pvList : List PvInfo
  nsResTbl : Name → Option ℕ

/-- The name under which a PV is installed: `%.100s%.20s`. -/
def ownName (pvPrefix pName : Name) : Name := pvPrefix.take 100 ++ pName.take 20

namespace PvServer

/-- `pvServer::installName`: the table refuses a name it has. -/
def installName (s : PvServer) (info : ℕ) (pName : Name) : PvServer :=
  if (s.nsResTbl pName).isSome then s
  else { s with nsResTbl := Function.update s.nsResTbl pName (some info) }

/-- The body of the loop in the constructor. -/
def constructBody (now : ℕ) (pvPrefix : Name) (s : PvServer) (info : PvInfo) : PvServer :=
  { s with pvList := s.pvList ++ [info.createPV NsStats.zero now true] }.installName
    s.pvList.length (ownName pvPrefix info.pName)

/-- `pvServer::pvServer`. -/
def construct (now : ℕ) (pvPrefix : Name) : PvServer :=
  CaNameserver.pvList.foldl (constructBody now pvPrefix) ⟨[], fun _ => none⟩

/-- `pvServer::pvAttach`: the PV, or `none` for `S_casApp_pvNotFound`. -/
def pvAttach (s : PvServer) (stats : NsStats) (now : ℕ) (pName : Name) : PvServer × Option ℕ :=
  (s.nsResTbl pName).elim (s, none) fun k =>
    ({ s with pvList := s.pvList.modify k (PvInfo.createPV stats now false) }, some k)

end PvServer

/-- A `directoryServer` as the `pvServer` it is, and the time of the last event. -/
structure OwnServer where
  server : Server
  pvs : PvServer
  clock : ℕ

/-- What drives the server, its PVs included. -/
inductive OwnEvent where
  | server (e : Event)
  | attach (pName : Name)
  | call (k : ℕ) (c : PvCall)

namespace OwnServer

/-- Calls are made for PVs that exist. -/
def enabled (s : OwnServer) (now : ℕ) : OwnEvent → Bool
  | .server e => CaNameserver.enabled s.server e
  | .attach _ => true
  | .call k c => s.pvs.pvList[k]?.any fun info => info.pPV.any fun pv => c.enabled now pv

/-- One event. -/
def next (rx : Regex) (s : OwnServer) (now : ℕ) : OwnEvent → Except Fault OwnServer
  | .server e => do
      let server ← handle rx s.server e
      return { s with server := server, clock := now }
  | .attach pName =>
      .ok { s with pvs := (s.pvs.pvAttach s.server.stats now pName).1, clock := now }
  | .call k c =>
      .ok { s with
        pvs := { s.pvs with
          pvList := s.pvs.pvList.modify k (PvInfo.serve s.server.stats now c) }
        clock := now }

end OwnServer

/-- The runs of the name server with its own PVs.  Each event has its time, and the clock does not
go back. -/
def ownServer (rx : Regex) (start : Config → Prop) : System OwnServer (ℕ × OwnEvent) where
  init s := ∃ cfg, start cfg ∧ startup rx cfg = .ok s.server ∧ Visits s.server.dir cfg.order ∧
    s.pvs = PvServer.construct s.clock cfg.pvPrefix
  step s e s' := s.clock ≤ e.1 ∧ s.enabled e.1 e.2 = true ∧ s.next rx e.1 e.2 = .ok s'

/-! ## What the constructor leaves -/

section Created

variable {stats : NsStats} {info : PvInfo} {pv : NsPV} {now : ℕ}

/-- What no call changes of an entry of `pvList`. -/
def PvInfo.fixed (info : PvInfo) : ℕ × Name := (info.scanPeriod, info.pName)

@[simp] theorem PvInfo.fixed_serve (c : PvCall) : (info.serve stats now c).fixed = info.fixed := rfl

@[simp] theorem PvInfo.fixed_createPV (b : Bool) :
    (info.createPV stats now b).fixed = info.fixed := by
  rw [createPV]
  split <;> rfl

/-- Every name of `pvList` shows something. -/
theorem NsStats.exists_shown (stats : NsStats) {n : Name} (h : n ∈ pvListNames) :
    ∃ count, stats.shown n = some count := by
  rw [← Option.isSome_iff_exists]
  simp only [pvListNames, List.map_cons, List.map_nil, List.mem_cons, List.not_mem_nil,
    or_false] at h
  rcases h with rfl | rfl | rfl | rfl | rfl | rfl | rfl | rfl <;> rfl

theorem PvInfo.scan_eq {count : ℕ} (h : stats.shown info.pName = some count) :
    info.scan stats pv = { pv with pValue := some (newValue count) } := by
  rw [scan, h]
  rfl

theorem PvInfo.getScanPeriod_pos (hp : 0 < info.scanPeriod) : 0 < info.getScanPeriod pv := by
  rw [getScanPeriod]
  split <;> omega

theorem PvInfo.expire_eq {count : ℕ} (hp : 0 < info.scanPeriod)
    (h : stats.shown info.pName = some count) : info.expire stats now pv =
      { pv with pValue := some (newValue count), timer := some (now + info.getScanPeriod pv) } := by
  rw [expire, scan_eq h]
  exact if_pos (getScanPeriod_pos hp)

/-- A watched PV is scanned after one period at the latest. -/
theorem PvInfo.interestRegister_eq {t : ℕ} (hp : 0 < info.scanPeriod) (ht : pv.timer = some t) :
    info.interestRegister now pv =
      { pv with interest := true, timer := some (min t (now + info.scanPeriod)) } := by
  have hperiod : ∀ timer, info.getScanPeriod { pv with timer := timer, interest := true } =
      info.scanPeriod := fun _ => if_pos rfl
  simp only [interestRegister, startTimer, hperiod, ht, Option.any_some, decide_eq_true_eq]
  split_ifs with h
  · rw [min_eq_right h.2.le]
  · rw [min_eq_left (not_lt.mp fun hlt => h ⟨hp, hlt⟩)]

theorem PvInfo.interestRegister_kept (info : PvInfo) (now : ℕ) (pv : NsPV) :
    (info.interestRegister now pv).preCreate = pv.preCreate ∧
      (info.interestRegister now pv).pValue = pv.pValue := by
  rw [interestRegister]
  split_ifs <;> exact ⟨rfl, rfl⟩

/-- An entry whose PV the constructor has created. -/
structure PvInfo.Created (info : PvInfo) (pv : NsPV) : Prop where
  pPV : info.pPV = some pv
  preCreate : pv.preCreate = true
  pValue : pv.pValue.isSome = true

theorem PvInfo.Created.createPV (h : info.Created pv) (b : Bool) :
    info.createPV stats now b = info := by
  rw [PvInfo.createPV, h.pPV]
  exact if_pos rfl

/-- No call takes the PV or its value away. -/
theorem PvInfo.Created.serve (h : info.Created pv) (hn : info.pName ∈ pvListNames) (c : PvCall) :
    ∃ pv', (info.serve stats now c).Created pv' := by
  obtain ⟨count, hcount⟩ := stats.exists_shown hn
  have hpv : ∀ pv', c.onPV stats now info pv = some pv' → (info.serve stats now c).pPV = some pv' := by
    intro pv' hpv'
    rw [PvInfo.serve, h.pPV]
    exact hpv'
  cases c with
  | expire =>
      have hscan : info.scan stats pv = { pv with pValue := some (newValue count) } :=
        PvInfo.scan_eq hcount
      refine ⟨_, hpv _ rfl, ?_, ?_⟩
      · rw [PvInfo.expire, hscan]
        split_ifs <;> exact h.preCreate
      · rw [PvInfo.expire, hscan]
        split_ifs <;> rfl
  | interestRegister =>
      obtain ⟨hpre, hvalue⟩ := PvInfo.interestRegister_kept info now pv
      exact ⟨_, hpv _ rfl, hpre.trans h.preCreate, hvalue ▸ h.pValue⟩
  | interestDelete => exact ⟨_, hpv _ rfl, h.preCreate, h.pValue⟩
  | write valueIn =>
      refine ⟨_, hpv _ rfl, ?_, ?_⟩
      · rw [NsPV.update]
        split_ifs <;> exact h.preCreate
      · rw [NsPV.update]
        split_ifs
        · rfl
        · exact h.pValue
  | destroy => exact ⟨pv, hpv pv (if_pos h.preCreate), h.preCreate, h.pValue⟩

/-- The constructor of a PV starts its timer, and the first scan gives it its value. -/
theorem PvInfo.createPV_eq {count : ℕ} {b : Bool} (hnone : info.pPV = none)
    (hp : 0 < info.scanPeriod) (h : stats.shown info.pName = some count) :
    info.createPV stats now b = { info with
      pPV := some ⟨some (newValue count), some (now + 10 * info.scanPeriod), false, b⟩ } := by
  have hnot : ¬info.pPV.isSome = true := by
    rw [hnone]
    exact Bool.false_ne_true
  rw [PvInfo.createPV, if_neg hnot, scan_eq h, newPV]
  simp only [if_pos hp, startTimer, getScanPeriod, Bool.false_eq_true, if_false]

end Created

/-! ## What is installed -/

section Installed

variable {now : ℕ} {pvPrefix : Name}

theorem pvList_pName : pvList.map PvInfo.pName = pvListNames := rfl

/-- What is read off the entries of `pvList`. -/
theorem pvList_static {info : PvInfo} (h : info ∈ pvList) :
    info.pPV = none ∧ 0 < info.scanPeriod ∧ info.pName ∈ pvListNames := by
  refine ⟨?_, ?_, pvList_pName ▸ List.mem_map_of_mem h⟩
  · revert info
    decide
  · revert info
    decide

/-- Two PVs of the list are not installed under one name. -/
theorem ownName_nodup (pvPrefix : Name) : (pvListNames.map (ownName pvPrefix)).Nodup := by
  have hcut : (pvListNames.map (List.take 20)).Nodup := by decide
  have hmap : pvListNames.map (ownName pvPrefix) =
      (pvListNames.map (List.take 20)).map (pvPrefix.take 100 ++ ·) := by
    rw [List.map_map]
    rfl
  rw [hmap]
  exact hcut.map (List.append_right_injective _)

namespace PvServer

variable {s : PvServer}

/-- Each entry of the list so far is installed. -/
def Named (pvPrefix : Name) (s : PvServer) : Prop :=
  ∀ n k, s.nsResTbl n = some k ↔ (s.pvList.map fun i => ownName pvPrefix i.pName)[k]? = some n

theorem constructBody_pvList (info : PvInfo) : (s.constructBody now pvPrefix info).pvList =
    s.pvList ++ [info.createPV NsStats.zero now true] := by
  rw [constructBody, installName]
  split <;> rfl

theorem createPV_pName {stats : NsStats} {b : Bool} (info : PvInfo) :
    (info.createPV stats now b).pName = info.pName :=
  congrArg Prod.snd (PvInfo.fixed_createPV b)

theorem Named.constructBody (h : s.Named pvPrefix) {info : PvInfo}
    (hnew : ownName pvPrefix info.pName ∉ s.pvList.map fun i => ownName pvPrefix i.pName) :
    (s.constructBody now pvPrefix info).Named pvPrefix := by
  have hfree : s.nsResTbl (ownName pvPrefix info.pName) = none := by
    rw [Option.eq_none_iff_forall_ne_some]
    intro k hk
    exact hnew (List.mem_of_getElem? ((h _ k).mp hk))
  intro n k
  rw [constructBody_pvList, List.map_append, List.map_singleton, createPV_pName]
  have htbl : (s.constructBody now pvPrefix info).nsResTbl =
      Function.update s.nsResTbl (ownName pvPrefix info.pName) (some s.pvList.length) := by
    rw [PvServer.constructBody, installName]
    have hnot : ¬(s.nsResTbl (ownName pvPrefix info.pName)).isSome = true := by
      rw [hfree]
      exact Bool.false_ne_true
    rw [if_neg hnot]
  rw [htbl, List.getElem?_append, List.length_map]
  by_cases hn : n = ownName pvPrefix info.pName
  · subst hn
    rw [Function.update_self, Option.some_inj]
    split_ifs with hk
    · constructor
      · rintro rfl
        exact absurd hk (lt_irrefl _)
      · intro hmem
        exact absurd (List.mem_of_getElem? hmem) hnew
    · constructor
      · rintro rfl
        rw [Nat.sub_self]
        rfl
      · intro hlast
        have hzero := (List.getElem?_eq_some_iff.mp hlast).1
        rw [List.length_singleton] at hzero
        omega
  · rw [Function.update_of_ne hn, h n k]
    split_ifs with hk
    · rfl
    · rw [List.getElem?_eq_none (by rw [List.length_map]; exact not_lt.mp hk)]
      refine iff_of_false (fun h => nomatch h) ?_
      intro hlast
      exact hn (List.mem_singleton.mp (List.mem_of_getElem? hlast))

/-- **The constructor.**  The list is complete. -/
theorem foldl_constructBody (l : List PvInfo) (h : s.Named pvPrefix)
    (hnodup : ((s.pvList ++ l).map fun i => ownName pvPrefix i.pName).Nodup) :
    (l.foldl (constructBody now pvPrefix) s).pvList =
        s.pvList ++ l.map (PvInfo.createPV NsStats.zero now true) ∧
      (l.foldl (constructBody now pvPrefix) s).Named pvPrefix := by
  induction l generalizing s with
  | nil => exact ⟨(List.append_nil _).symm, h⟩
  | cons info l ih =>
      have hnew : ownName pvPrefix info.pName ∉ s.pvList.map fun i => ownName pvPrefix i.pName := by
        rw [List.map_append, List.map_cons] at hnodup
        intro hmem
        exact (List.nodup_append.mp hnodup).2.2 _ hmem _ List.mem_cons_self rfl
      have hrest : (((s.constructBody now pvPrefix info).pvList ++ l).map
          fun i => ownName pvPrefix i.pName).Nodup := by
        rw [constructBody_pvList]
        simpa only [List.map_append, List.map_cons, List.map_nil, List.append_assoc,
          List.singleton_append, createPV_pName] using hnodup
      obtain ⟨hlist, hnamed⟩ := ih (h.constructBody hnew) hrest
      refine ⟨?_, hnamed⟩
      rw [List.foldl_cons, hlist, constructBody_pvList, List.append_assoc]
      rfl

theorem construct_pvList (now : ℕ) (pvPrefix : Name) : (construct now pvPrefix).pvList =
      CaNameserver.pvList.map (PvInfo.createPV NsStats.zero now true) ∧
    (construct now pvPrefix).Named pvPrefix := by
  have hempty : (⟨[], fun _ => none⟩ : PvServer).Named pvPrefix := by
    intro n k
    rw [List.map_nil, List.getElem?_nil]
    exact iff_of_false nofun nofun
  refine foldl_constructBody _ hempty ?_
  have hnames := ownName_nodup pvPrefix
  rwa [← pvList_pName, List.map_map] at hnames

/-- What holds of the server's own PVs from the constructor on. -/
structure Installed (pvPrefix : Name) (s : PvServer) : Prop where
  named : s.Named pvPrefix
  fixed : s.pvList.map PvInfo.fixed = CaNameserver.pvList.map PvInfo.fixed
  created : ∀ info ∈ s.pvList, ∃ pv, info.Created pv

theorem construct_installed (now : ℕ) (pvPrefix : Name) :
    (construct now pvPrefix).Installed pvPrefix := by
  obtain ⟨hlist, hnamed⟩ := construct_pvList now pvPrefix
  refine ⟨hnamed, ?_, ?_⟩
  · rw [hlist, List.map_map]
    exact List.map_congr_left fun info _ => PvInfo.fixed_createPV true
  · intro info hinfo
    rw [hlist, List.mem_map] at hinfo
    obtain ⟨info, hmem, rfl⟩ := hinfo
    obtain ⟨hnone, hp, hn⟩ := pvList_static hmem
    obtain ⟨count, hcount⟩ := NsStats.zero.exists_shown hn
    rw [PvInfo.createPV_eq hnone hp hcount]
    exact ⟨_, rfl, rfl, rfl⟩

theorem Installed.pNames (h : s.Installed pvPrefix) : s.pvList.map PvInfo.pName = pvListNames := by
  have hnames := congrArg (List.map Prod.snd) h.fixed
  rw [List.map_map, List.map_map] at hnames
  exact hnames

theorem Installed.pName_mem (h : s.Installed pvPrefix) {info : PvInfo} (hinfo : info ∈ s.pvList) :
    info.pName ∈ pvListNames :=
  h.pNames ▸ List.mem_map_of_mem hinfo

/-- To attach to a PV changes nothing: it is there. -/
theorem Installed.pvAttach (h : s.Installed pvPrefix) (stats : NsStats) (now : ℕ) (pName : Name) :
    s.pvAttach stats now pName = (s, s.nsResTbl pName) := by
  rw [PvServer.pvAttach]
  cases s.nsResTbl pName with
  | none => rfl
  | some k =>
      have hsame : s.pvList.modify k (PvInfo.createPV stats now false) = s.pvList := by
        refine List.ext_getElem? fun j => ?_
        rw [List.getElem?_modify]
        cases hj : s.pvList[j]? with
        | none => rfl
        | some info =>
            obtain ⟨pv, hpv⟩ := h.created info (List.mem_of_getElem? hj)
            rw [Option.map_eq_map, Option.map_some, hpv.createPV, ite_self]
      simp only [Option.elim_some, hsame]

/-- **No call takes a PV away.** -/
theorem Installed.serve (h : s.Installed pvPrefix) (stats : NsStats) (now k : ℕ) (c : PvCall) :
    ({ s with pvList := s.pvList.modify k (PvInfo.serve stats now c) } : PvServer).Installed
      pvPrefix := by
  have hkept : ∀ {β : Type} (f : PvInfo → β), (∀ info, f (info.serve stats now c) = f info) →
      (s.pvList.modify k (PvInfo.serve stats now c)).map f = s.pvList.map f := by
    intro β f hf
    refine List.ext_getElem? fun j => ?_
    rw [List.getElem?_map, List.getElem?_map, List.getElem?_modify]
    cases s.pvList[j]? with
    | none => rfl
    | some info =>
        rw [Option.map_eq_map, Option.map_some, Option.map_some, Option.map_some]
        split_ifs
        · rw [hf]
        · rfl
  refine ⟨fun n j => ?_, (hkept _ fun info => info.fixed_serve c).trans h.fixed, ?_⟩
  · rw [hkept _ fun info => rfl]
    exact h.named n j
  · intro info hinfo
    obtain ⟨j, hj⟩ := List.mem_iff_getElem?.mp hinfo
    rw [List.getElem?_modify, Option.map_eq_map, Option.map_eq_some_iff] at hj
    obtain ⟨old, hold, rfl⟩ := hj
    have hmem := List.mem_of_getElem? hold
    obtain ⟨pv, hpv⟩ := h.created old hmem
    split_ifs
    · exact hpv.serve (h.pName_mem hmem) c
    · exact ⟨pv, hpv⟩

/-- Who attaches gets a PV that has a value. -/
theorem Installed.attached (h : s.Installed pvPrefix) {pName : Name} {k : ℕ}
    (hk : s.nsResTbl pName = some k) : ∃ info pv, s.pvList[k]? = some info ∧
      pName = ownName pvPrefix info.pName ∧ info.Created pv := by
  have hname := (h.named pName k).mp hk
  rw [List.getElem?_map, Option.map_eq_some_iff] at hname
  obtain ⟨info, hinfo, rfl⟩ := hname
  obtain ⟨pv, hpv⟩ := h.created info (List.mem_of_getElem? hinfo)
  exact ⟨info, pv, hinfo, rfl, hpv⟩

theorem Installed.nsResTbl_isSome_iff (h : s.Installed pvPrefix) {pName : Name} :
    (∃ k, s.nsResTbl pName = some k) ↔ pName ∈ pvListNames.map (ownName pvPrefix) := by
  rw [← h.pNames, List.map_map, List.mem_iff_getElem?]
  exact exists_congr fun k => h.named pName k

end PvServer

end Installed

/-! ## Runs -/

section Runs

variable {rx : Regex} {cfg : Config} {ok : OwnServer → ℕ × OwnEvent → Prop} {s t : OwnServer}

/-- The server and its PVs have the same names. -/
structure OwnServer.Sane (cfg : Config) (s : OwnServer) : Prop where
  wf : s.server.dir.WF
  nsResTbl : s.server.nsResTbl = pvListNames.map (ownName cfg.pvPrefix)
  installed : s.pvs.Installed cfg.pvPrefix

theorem startup_own (h : startup rx cfg = .ok s.server)
    (hpvs : s.pvs = PvServer.construct s.clock cfg.pvPrefix) :
    s.Sane cfg ∧ s.server.stats = NsStats.zero := by
  have hboth : s.server.nsResTbl = pvListNames.map (ownName cfg.pvPrefix) ∧
      s.server.stats = NsStats.zero :=
    startup_induct (D := fun _ => True) (P := fun _ s => s.nsResTbl =
      pvListNames.map (ownName cfg.pvPrefix) ∧ s.stats = NsStats.zero) h trivial
      (fun _ _ _ _ _ _ _ => trivial) (fun _ _ _ _ _ => ⟨rfl, rfl⟩) fun _ _ _ _ _ _ h _ => h
  refine ⟨⟨startup_wf h, hboth.1, ?_⟩, hboth.2⟩
  rw [hpvs]
  exact PvServer.construct_installed _ _

theorem OwnServer.Sane.step (h : s.Sane cfg) {e : ℕ × OwnEvent} {start : Config → Prop}
    (hst : (ownServer rx start).step s e t) : t.Sane cfg := by
  obtain ⟨now, e⟩ := e
  obtain ⟨-, hen, hnext⟩ := hst
  cases e with
  | server e =>
      obtain ⟨server, hserver, ht⟩ := Fallible.bind_eq_ok_iff.mp hnext
      cases ht
      have hh := handle_handled h.wf hen hserver
      exact ⟨hh.wf h.wf, hh.nsResTbl.trans h.nsResTbl, h.installed⟩
  | attach pName =>
      cases hnext
      refine ⟨h.wf, h.nsResTbl, ?_⟩
      rw [h.installed.pvAttach]
      exact h.installed
  | call k c =>
      cases hnext
      exact ⟨h.wf, h.nsResTbl, h.installed.serve _ _ _ _⟩

theorem reachable_sane (h : Reachable (ownServer rx (· = cfg)) ok s) : s.Sane cfg := by
  refine h.invariant (I := OwnServer.Sane cfg) ?_ ?_
  · rintro s ⟨_, rfl, hs, -, hpvs⟩
    exact (startup_own hs hpvs).1
  · exact fun _ _ _ hs _ hst => hs.step hst

/-- **Who has been told that a PV is here can attach to it**, whatever has happened since, and
gets a PV that has a value.  To every other name no client can attach. -/
theorem answered_here_attaches (rx : Regex) (cfg : Config) (ok : OwnServer → ℕ × OwnEvent → Prop)
    {s t : OwnServer} {es : List (ℕ × OwnEvent)} (hs : Reachable (ownServer rx (· = cfg)) ok s)
    (hrun : Run (ownServer rx (· = cfg)) ok s es t) (pName : Name) (later : ℕ) :
    (∀ client search now s',
      s.server.pvExistTest rx client pName search now = .ok (s', .existsHere) →
      ∃ k info pv value, t.pvs.pvAttach t.server.stats later pName = (t.pvs, some k) ∧
        t.pvs.pvList[k]? = some info ∧ pName = ownName cfg.pvPrefix info.pName ∧
        info.pPV = some pv ∧ pv.pValue = some value) ∧
    (pName ∉ s.server.nsResTbl → t.pvs.pvAttach t.server.stats later pName = (t.pvs, none)) := by
  have hsane := reachable_sane hs
  have hinst := (reachable_sane (hs.run hrun)).installed
  have hmem : (∃ k, t.pvs.nsResTbl pName = some k) ↔ pName ∈ s.server.nsResTbl := by
    rw [hinst.nsResTbl_isSome_iff, hsane.nsResTbl]
  rw [hinst.pvAttach]
  constructor
  · intro client search now s' hans
    have hns : pName ∈ s.server.nsResTbl := by
      cases Server.pvExistTest_answered hans with
      | nameserverPV _ _ hns => exact hns
    obtain ⟨k, hk⟩ := hmem.mpr hns
    obtain ⟨info, pv, hinfo, hname, hpv⟩ := hinst.attached hk
    obtain ⟨value, hvalue⟩ := Option.isSome_iff_exists.mp hpv.pValue
    rw [hk]
    exact ⟨k, info, pv, value, rfl, hinfo, hname, hpv.pPV, hvalue⟩
  · intro hns
    have hnone : t.pvs.nsResTbl pName = none := by
      rw [Option.eq_none_iff_forall_ne_some]
      exact fun k hk => hns (hmem.mp ⟨k, hk⟩)
    rw [hnone]

end Runs

/-! ## A run -/

/-- One event, if it can happen. -/
def OwnServer.nextIf (rx : Regex) (ok : OwnServer → ℕ × OwnEvent → Bool) (s : OwnServer)
    (e : ℕ × OwnEvent) : Option OwnServer :=
  if decide (s.clock ≤ e.1) && s.enabled e.1 e.2 && ok s e then (s.next rx e.1 e.2).toOption else none

theorem OwnServer.step_of_nextIf {rx : Regex} {start : Config → Prop}
    {ok : OwnServer → ℕ × OwnEvent → Bool} {s t : OwnServer} {e : ℕ × OwnEvent}
    (h : s.nextIf rx ok e = some t) : ok s e = true ∧ (ownServer rx start).step s e t := by
  obtain ⟨hcond, ht⟩ := Option.ite_none_right_eq_some.mp h
  rw [Bool.and_eq_true, Bool.and_eq_true, decide_eq_true_eq] at hcond
  exact ⟨hcond.2, hcond.1.1, hcond.1.2, Fallible.toOption_eq_some_iff.mp ht⟩

/-- A server that calls its PVs `ns:...`, started at time 0. -/
def namedIoc : Config := { oneIoc with pvPrefix := "ns:".toList }

/-- Somebody writes to a count, and the library destroys the PV when he is gone. -/
def writtenTo : List (ℕ × OwnEvent) :=
  [(1000, .attach "ns:hit".toList), (2000, .call 6 .interestRegister),
    (3000, .call 6 (.write ⟨true, .nan⟩)), (4000, .call 6 .interestDelete),
    (5000, .call 6 .destroy)]

set_option maxRecDepth 10000 in
theorem answered_here_attaches_writtenTo : ∃ s t s',
    Run (ownServer literal (· = namedIoc)) (fun _ _ => true) s writtenTo t ∧
    s.server.pvExistTest literal [] "ns:hit".toList .normal 0 = .ok (s', .existsHere) ∧
    ∃ k info pv value, t.pvs.pvAttach t.server.stats 6000 "ns:hit".toList = (t.pvs, some k) ∧
      t.pvs.pvList[k]? = some info ∧ "ns:hit".toList = ownName "ns:".toList info.pName ∧
      info.pPV = some pv ∧ pv.pValue = some value := by
  have hrun : (startup literal namedIoc).toOption.any (fun s => visits s.dir namedIoc.order &&
      ((s.pvExistTest literal [] "ns:hit".toList .normal 0).toOption.any fun r =>
        r.2 == .existsHere) &&
      (writtenTo.foldlM (OwnServer.nextIf literal fun _ _ => true)
        ⟨s, .construct 0 "ns:".toList, 0⟩).isSome) = true := by
    decide
  obtain ⟨s, hs, h⟩ := (Option.any_eq_true _ _).mp hrun
  rw [Bool.and_eq_true, Bool.and_eq_true] at h
  obtain ⟨⟨hvisits, hsearch⟩, hsome⟩ := h
  obtain ⟨t, ht⟩ := Option.isSome_iff_exists.mp hsome
  obtain ⟨⟨s', ret⟩, hans, hret⟩ := (Option.any_eq_true _ _).mp hsearch
  obtain rfl : ret = .existsHere := eq_of_beq hret
  have hans' := Fallible.toOption_eq_some_iff.mp hans
  have hstart := Fallible.toOption_eq_some_iff.mp hs
  have hinit : (ownServer literal (· = namedIoc)).init ⟨s, .construct 0 "ns:".toList, 0⟩ :=
    ⟨namedIoc, rfl, hstart, (startup_wf hstart).visits_of_visits hvisits, rfl⟩
  have hwritten : Run (ownServer literal (· = namedIoc)) (fun _ _ => true)
      ⟨s, .construct 0 "ns:".toList, 0⟩ writtenTo t :=
    .of_foldlM (fun _ _ _ => OwnServer.step_of_nextIf) ht
  exact ⟨_, t, s', hwritten, hans',
    (answered_here_attaches literal namedIoc _ ⟨_, [], hinit, .nil _⟩ hwritten _ _).1 _ _ _ _ hans'⟩

end CaNameserver
