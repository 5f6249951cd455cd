import CaNameserver.DenyFrom
import CaNameserver.Lib.Arena
import Mathlib.Data.List.Nodup

/-!
# The storage of the access rules

`gateAs` in `GateAs` is what its rules say.  Here it is the objects that hold them.  Each line of
the file is kept in a `gateAsLine`, and the patterns of the entries and the names of the hosts are
pointers into it.  Each entry is on the list of a host, on the deny list or on the allow list, and
is deleted at once if its pattern does not compile.  The hosts are on a list of their own, by
which `~gateAs` finds their entries again.  So there are three ways to go wrong that the rules do
not show: an object deleted twice, an object forgotten, and a text deleted before what points into
it.

## Reading and deleting

`GateStore.readPvList` follows the parser line by line, with an allocation for each object, and
`GateStore.destroy` is the destructor: for each host its entries, its empty list header being left
behind, then the two global lists, the hosts, and the lines at last.  A use of an object that is
not there is an error of its own (`GateFault`).

## The invariant

`Kept s A` says that every object is on exactly one list, with `A` as the list of the hosts that
have rules (`Slot`).

* The lines, the entries and the hosts that are alive are those on the lists, each of them once.
* The lists of the hosts are those of the table, and the table has no other host.
* The text of every entry and of every host is alive.

Entering a rule keeps it, whether the entry goes to a global list (`Kept.enterDeny`,
`Kept.enterAllow`), to a new host (`Kept.newHost`) or to one that has rules already
(`Kept.oldHost`); an entry that is rejected is deleted again before anyone has seen it
(`Kept.rejected`).

## The two directions

`Stores` relates the reader of the objects to the reader of the rules; one pass over the commands
(`Reads.secondPass`) gives the simulation of a line and then of the file (`readPvList_simulates`),
errors included.  The destructor takes the lists apart in the order in which it finds them;
`HostsCleared` is what its loop over the hosts has done so far, and `Destroyed` what is left at
the end.

* `gateAs_stored`: reading a file stores exactly its rules, and deletes every entry it rejects;
  `~gateAs` then deletes every object once, the texts last, and leaves only the headers of the
  hosts' lists behind.
* `reachable_gateAs_stored`: so it is with the rules in force, from startup to the end.
-/

namespace CaNameserver

open CStr Fallible

/-- Executions with no defined outcome, of the parser or of the storage. -/
inductive GateFault where
  | parse (f : Fault)
  /-- a deleted object is read or deleted again, or a null pointer is followed -/
  | dangling
  deriving DecidableEq, Repr

/-- `class gateAs` as objects.  An entry and a host come with the line their text is in. -/
structure GateStore where
  evalOrder : EvalOrder
  denyFromListUsed : Bool
  entries : Arena (ℕ × GateAsEntry)
  /-- the `gateAsList`s that the table points to -/
  lists : Arena (List ℕ)
  hosts : Arena (ℕ × Name)
  lines : Arena Name
  denyFromTable : Name → Option ℕ
  hostList : List ℕ
  denyList : List ℕ
  allowList : List ℕ
  lineList : List ℕ

namespace GateStore

open GateAs

/-- A new `gateAs`. -/
def empty : GateStore where
  evalOrder := .allowFirst
  denyFromListUsed := false
  entries := .empty
  lists := .empty
  hosts := .empty
  lines := .empty
  denyFromTable := fun _ => none
  hostList := []
  denyList := []
  allowList := []
  lineList := []

/-! ## Reading -/

/-- `pe = new gateAsEntry`, `pe->init`, and `delete pe` if that fails. -/
def enter (line : ℕ) (e : GateAsEntry)
    (init : ℕ → GateStore → Except GateFault (Option GateStore)) (s : GateStore) :
    Except GateFault GateStore := do
  let pe := s.entries.next
  let s := { s with entries := s.entries.alloc (line, e) }
  let r ← init pe s
  return r.getD { s with entries := s.entries.delete pe }

/-- `gateAsEntry::init` for a global list; `added` is the state after `n.add(*this)`. -/
def init (rx : Regex) (pattern : Name) (added : GateStore) : Except GateFault (Option GateStore) :=
  .ok (if rx.compiles pattern then some added else none)

/-- `gateAsEntry::init` for the list of a host, which is created with the first entry. -/
def initHost (rx : Regex) (line : ℕ) (pattern hname : Name) (pe : ℕ) (s : GateStore) :
    Except GateFault (Option GateStore) :=
  if rx.compiles pattern then
    (s.denyFromTable hname).elim
      (.ok (some { s with
        lists := s.lists.alloc [pe]
        denyFromTable := Function.update s.denyFromTable hname (some s.lists.next)
        hosts := s.hosts.alloc (line, hname)
        hostList := s.hosts.next :: s.hostList }))
      fun l => do
        let pes ← deref (s.lists.objs l) .dangling
        return some { s with lists := s.lists.write l (pe :: pes) }
  else .ok none

/-- A `DENY` without hosts. -/
def enterDeny (rx : Regex) (line : ℕ) (pattern : Name) (s : GateStore) :
    Except GateFault GateStore :=
  s.enter line (.ofPattern pattern) fun pe s => init rx pattern { s with denyList := pe :: s.denyList }

/-- A `DENY` for one host. -/
def enterHost (rx : Regex) (line : ℕ) (pattern : Name) (s : GateStore) (hname : Name) :
    Except GateFault GateStore :=
  s.enter line (.ofPattern pattern) fun pe s => do
    let r ← initHost rx line pattern hname pe s
    return r.map fun s => { s with denyFromListUsed := true }

/-- An entry of the allow list. -/
def enterAllow (rx : Regex) (line : ℕ) (e : GateAsEntry) (s : GateStore) :
    Except GateFault GateStore :=
  s.enter line e fun pe s => init rx e.pattern { s with allowList := pe :: s.allowList }

/-- What survives from one line to the next. -/
structure Reader where
  store : GateStore
  lev : ℤ

/-- The group and the level of a rule. -/
def groupLevel (lev : ℤ) (r : Name) : Name × ℤ :=
  (strtok blanks r).elim (defaultGroup, 1) fun asg =>
    (strtok blanks asg.2).elim (asg.1, lev) fun asl => (asg.1, (scanInt asl.1).getD 1)

/-- The commands other than `DENY` and `ORDER`. -/
def readAllow (rx : Regex) (line : ℕ) (st : Reader) (pattern cmd : Name) (rname : Option Name)
    (r : Name) : Except GateFault Reader :=
  let gl := groupLevel st.lev r
  if isAllow cmd then do
    let s ← st.store.enterAllow rx line ⟨pattern, rname, some gl.1, gl.2⟩
    return ⟨s, gl.2⟩
  else .ok { st with lev := gl.2 }

/-- The second pass over the text of a `gateAsLine`. -/
def secondPass (rx : Regex) (line : ℕ) (text : Name) (st : Reader) : Except GateFault Reader :=
  (patternCmd text).elim (.ok st) fun x =>
    let pattern := x.1
    let cmd := x.2.1
    let r := x.2.2
    if isDeny cmd then
      let hosts := tokens hostDelim (afterFrom r)
      if hosts = [] then do
        let s ← st.store.enterDeny rx line pattern
        return { st with store := s }
      else do
        let s ← hosts.foldlM (enterHost rx line pattern) st.store
        return { st with store := s }
    else if isOrder cmd then
      .ok { st with store.evalOrder :=
        (orderArg r).elim st.store.evalOrder EvalOrder.ofDenyWins }
    else if isAlias cmd then
      (strtok blanks r).elim (.ok st) fun rname =>
        readAllow rx line st pattern cmd (some rname.1) rname.2
    else readAllow rx line st pattern cmd none r

/-- One turn of the loop of `readPvList`: a line that is not skipped is kept. -/
def readLine (rx : Regex) (aToIPAddr : Resolver) (st : Reader) (line : Name) :
    Except GateFault Reader := do
  let o ← (firstPass aToIPAddr line).mapError .parse
  o.elim (.ok st) fun text =>
    secondPass rx st.store.lines.next text { st with
      store.lines := st.store.lines.alloc text
      store.lineList := st.store.lines.next :: st.store.lineList }

/-- `gateAs::readPvList`. -/
def readPvList (rx : Regex) (aToIPAddr : Resolver) (lev : ℤ) (lfile : List Char) :
    Except GateFault GateStore := do
  let st ← (fgetsLines gateMaxPvlistLineLength lfile).foldlM (readLine rx aToIPAddr)
    ⟨GateStore.empty, lev⟩
  return st.store

/-! ## Deleting -/

/-- The text of an object is there. -/
def text (s : GateStore) (line : ℕ) : Except GateFault PUnit := do
  let _ ← deref (s.lines.objs line) .dangling
  return ⟨⟩

/-- `clearAsList`; `removeMember` may print the pattern of an entry. -/
def clearAsList (s : GateStore) (l : List ℕ) : Except GateFault GateStore := do
  let entries ← s.entries.deleteAll .dangling (fun x => s.text x.1) l
  return { s with entries := entries }

/-- One turn of the loop of `~gateAs` over the hosts.  `l` keeps its value if the table does not
have the host. -/
def destroyHost (acc : GateStore × Option ℕ) (h : ℕ) : Except GateFault (GateStore × Option ℕ) := do
  let s := acc.1
  let x ← deref (s.hosts.objs h) .dangling
  s.text x.1
  let l := (s.denyFromTable x.2).elim acc.2 some
  let s := { s with denyFromTable := Function.update s.denyFromTable x.2 none }
  let pl ← deref l .dangling
  let pes ← deref (s.lists.objs pl) .dangling
  let s ← s.clearAsList pes
  return ({ s with lists := s.lists.write pl [] }, l)

/-- `gateAs::~gateAs`. -/
def destroy (s : GateStore) : Except GateFault GateStore := do
  let acc ← s.hostList.foldlM destroyHost (s, none)
  let s := acc.1
  let hosts ← s.hosts.deleteAll .dangling (fun _ => .ok ⟨⟩) s.hostList
  let s ← s.clearAsList s.denyList
  let s ← s.clearAsList s.allowList
  let lines ← s.lines.deleteAll .dangling (fun _ => .ok ⟨⟩) s.lineList
  return { s with
    hosts := hosts
    lines := lines
    hostList := []
    denyList := []
    allowList := []
    lineList := [] }

/-! ## What is stored -/

/-- The entries of a list. -/
def rules (s : GateStore) (l : List ℕ) : List GateAsEntry := (s.entries.values l).map Prod.snd

/-- The rules that are stored. -/
def gate (s : GateStore) : GateAs where
  evalOrder := s.evalOrder
  denyFromListUsed := s.denyFromListUsed
  denyFromTable n := (s.denyFromTable n).map fun l => s.rules ((s.lists.objs l).getD [])
  denyList := s.rules s.denyList
  allowList := s.rules s.allowList

/-- A host with rules, as its objects hold it. -/
structure Slot where
  host : ℕ
  line : ℕ
  name : Name
  list : ℕ
  entries : List ℕ

/-- Every object is on the list it belongs to, once; the lists of the hosts are those of the table;
and the texts of the entries and hosts are there. -/
structure Kept (s : GateStore) (A : List Slot) : Prop where
  hostList : s.hostList = A.map Slot.host
  hosts : s.hosts.Owned (A.map Slot.host)
  lists : s.lists.Owned (A.map Slot.list)
  lines : s.lines.Owned s.lineList
  entries : s.entries.Owned (A.flatMap Slot.entries ++ (s.denyList ++ s.allowList))
  slot : ∀ a ∈ A, s.hosts.objs a.host = some (a.line, a.name) ∧
    s.denyFromTable a.name = some a.list ∧ s.lists.objs a.list = some a.entries
  table : ∀ n, s.denyFromTable n ≠ none → ∃ a ∈ A, a.name = n
  entryText : ∀ k x, s.entries.objs k = some x → s.lines.objs x.1 ≠ none
  hostText : ∀ k x, s.hosts.objs k = some x → s.lines.objs x.1 ≠ none

theorem Kept.empty : Kept empty [] where
  hostList := rfl
  hosts := .empty
  lists := .empty
  lines := .empty
  entries := .empty
  slot _ h := nomatch h
  table _ h := absurd rfl h
  entryText _ _ h := nomatch h
  hostText _ _ h := nomatch h

variable {rx : Regex} {s s' : GateStore} {A : List Slot} {line : ℕ} {pattern hname : Name}

/-- The computation stores the rules of `g`, and keeps no further line. -/
def Stores (s : GateStore) (x : Except GateFault GateStore) (g : GateAs) : Prop :=
  ∃ s' A', x = .ok s' ∧ s'.Kept A' ∧ s'.gate = g ∧ s'.lines = s.lines

/-- A new entry that is on no list yet. -/
theorem Kept.next_not_mem (h : Kept s A) {l : List ℕ}
    (hl : l ⊆ A.flatMap Slot.entries ++ (s.denyList ++ s.allowList)) : s.entries.next ∉ l :=
  fun hmem => h.entries.next_not_mem (hl hmem)

theorem Kept.allocText (h : Kept s A) (hline : s.lines.objs line ≠ none) (e : GateAsEntry) {k : ℕ}
    {x : ℕ × GateAsEntry} (hx : (s.entries.alloc (line, e)).objs k = some x) :
    s.lines.objs x.1 ≠ none := by
  by_cases hk : k = s.entries.next
  · rw [hk, Arena.alloc_self] at hx
    cases hx
    exact hline
  · rw [Arena.alloc_of_ne hk] at hx
    exact h.entryText k x hx

/-- An entry that is rejected is deleted again. -/
theorem Kept.rejected (h : Kept s A) (line : ℕ) (e : GateAsEntry) :
    Kept { s with entries := (s.entries.alloc (line, e)).delete s.entries.next } A ∧
      GateStore.gate { s with entries := (s.entries.alloc (line, e)).delete s.entries.next } =
        s.gate := by
  have hsame : ∀ k, ((s.entries.alloc (line, e)).delete s.entries.next).objs k = s.entries.objs k := by
    intro k
    by_cases hk : k = s.entries.next
    · rw [hk, Arena.delete_self]
      exact (not_not.mp fun hne => h.entries.next_not_mem ((h.entries.live _).mpr hne)).symm
    · rw [Arena.delete_of_ne hk, Arena.alloc_of_ne hk]
  refine ⟨{ h with
    entries := (h.entries.alloc (line, e)).delete
    entryText := fun k x hx => h.entryText k x ((hsame k).symm.trans hx) }, ?_⟩
  have hrules : ∀ l, GateStore.rules
      { s with entries := (s.entries.alloc (line, e)).delete s.entries.next } l = s.rules l :=
    fun l => congrArg _ (Arena.values_congr fun k _ => hsame k)
  simp only [GateStore.gate, hrules]

/-! ## Entering -/

/-- A new entry changes no list that is kept. -/
theorem Kept.rules_alloc (h : Kept s A) (x : ℕ × GateAsEntry) {l : List ℕ}
    (hl : l ⊆ A.flatMap Slot.entries ++ (s.denyList ++ s.allowList)) :
    ((s.entries.alloc x).values l).map Prod.snd = s.rules l :=
  congrArg _ (Arena.values_alloc (h.next_not_mem hl))

theorem Kept.rules_alloc_cons (h : Kept s A) (e : GateAsEntry) {l : List ℕ}
    (hl : l ⊆ A.flatMap Slot.entries ++ (s.denyList ++ s.allowList)) :
    ((s.entries.alloc (line, e)).values (s.entries.next :: l)).map Prod.snd = e :: s.rules l := by
  rw [Arena.values_alloc_cons (h.next_not_mem hl)]
  rfl

theorem Kept.denyList_subset (_ : Kept s A) :
    s.denyList ⊆ A.flatMap Slot.entries ++ (s.denyList ++ s.allowList) :=
  fun _ hx => List.mem_append_right _ (List.mem_append_left _ hx)

theorem Kept.allowList_subset (_ : Kept s A) :
    s.allowList ⊆ A.flatMap Slot.entries ++ (s.denyList ++ s.allowList) :=
  fun _ hx => List.mem_append_right _ (List.mem_append_right _ hx)

theorem Kept.slot_subset (_ : Kept s A) {a : Slot} (ha : a ∈ A) :
    a.entries ⊆ A.flatMap Slot.entries ++ (s.denyList ++ s.allowList) :=
  fun _ hx => List.mem_append_left _ (List.mem_flatMap.mpr ⟨a, ha, hx⟩)

/-- The slot of a host in the table. -/
theorem Kept.exists_slot (h : Kept s A) {l : ℕ} (hl : s.denyFromTable hname = some l) :
    ∃ a ∈ A, a.name = hname ∧ a.list = l ∧ s.lists.objs l = some a.entries := by
  obtain ⟨a, ha, hname⟩ := h.table hname (by rw [hl]; exact Option.some_ne_none l)
  obtain ⟨-, htable, hlist⟩ := h.slot a ha
  rw [hname, hl] at htable
  cases htable
  exact ⟨a, ha, hname, rfl, hlist⟩

/-- The table of the rules, after an entry that is not for a host. -/
theorem Kept.table_alloc (h : Kept s A) (x : ℕ × GateAsEntry) :
    (fun n => (s.denyFromTable n).map fun l =>
      ((s.entries.alloc x).values ((s.lists.objs l).getD [])).map Prod.snd) =
      s.gate.denyFromTable := by
  funext n
  cases hn : s.denyFromTable n with
  | none => simp only [gate, hn, Option.map_none]
  | some l =>
      obtain ⟨a, ha, -, -, hlist⟩ := h.exists_slot hn
      simp only [gate, hn, Option.map_some, hlist, Option.getD_some]
      rw [h.rules_alloc x (h.slot_subset ha)]

theorem Kept.enterDeny (h : Kept s A) (rx : Regex) (hline : s.lines.objs line ≠ none) (pattern : Name) :
    s.Stores (s.enterDeny rx line pattern)
      { s.gate with
        denyList := GateAs.init rx (.ofPattern pattern) s.gate.denyList } := by
  by_cases hp : rx.compiles pattern = true
  · refine ⟨{ s with
      entries := s.entries.alloc (line, .ofPattern pattern)
      denyList := s.entries.next :: s.denyList }, A, ?_, ?_, ?_, rfl⟩
    · simp only [GateStore.enterDeny, enter, init, if_pos hp]
      rfl
    · exact { h with
        entries := (h.entries.alloc _).perm List.perm_middle.symm
        entryText := fun k x hx => h.allocText hline _ hx }
    · rw [GateAs.init, if_pos (show rx.compiles (GateAsEntry.ofPattern pattern).pattern = true from hp)]
      unfold GateStore.gate GateStore.rules
      simp only [h.rules_alloc_cons _ h.denyList_subset, h.rules_alloc _ h.allowList_subset]
      congr 1
      exact h.table_alloc _
  · obtain ⟨hkept, hgate⟩ := h.rejected line (.ofPattern pattern)
    refine ⟨_, A, ?_, hkept, ?_, rfl⟩
    · simp only [GateStore.enterDeny, enter, init, if_neg hp]
      rfl
    · rw [hgate, GateAs.init,
        if_neg (show ¬ rx.compiles (GateAsEntry.ofPattern pattern).pattern = true from hp)]

theorem Kept.enterAllow (h : Kept s A) (hline : s.lines.objs line ≠ none) (e : GateAsEntry) :
    s.Stores (s.enterAllow rx line e)
      { s.gate with allowList := GateAs.init rx e s.gate.allowList } := by
  by_cases hp : rx.compiles e.pattern = true
  · refine ⟨{ s with
      entries := s.entries.alloc (line, e)
      allowList := s.entries.next :: s.allowList }, A, ?_, ?_, ?_, rfl⟩
    · simp only [GateStore.enterAllow, enter, init, if_pos hp]
      rfl
    · have hperm : (s.entries.next :: (A.flatMap Slot.entries ++ (s.denyList ++ s.allowList))).Perm
          (A.flatMap Slot.entries ++ (s.denyList ++ s.entries.next :: s.allowList)) := by
        rw [← List.append_assoc, ← List.append_assoc]
        exact List.perm_middle.symm
      exact { h with
        entries := (h.entries.alloc _).perm hperm
        entryText := fun k x hx => h.allocText hline _ hx }
    · rw [GateAs.init, if_pos hp]
      unfold GateStore.gate GateStore.rules
      simp only [h.rules_alloc_cons _ h.allowList_subset, h.rules_alloc _ h.denyList_subset]
      congr 1
      exact h.table_alloc _
  · obtain ⟨hkept, hgate⟩ := h.rejected line e
    refine ⟨_, A, ?_, hkept, ?_, rfl⟩
    · simp only [GateStore.enterAllow, enter, init, if_neg hp]
      rfl
    · rw [hgate, GateAs.init, if_neg hp]

/-- The first rule of a host: its list is created. -/
theorem Kept.newHost (h : Kept s A) (hline : s.lines.objs line ≠ none)
    (hp : rx.compiles pattern = true) (hnew : s.denyFromTable hname = none) :
    s.Stores (s.enterHost rx line pattern hname) (s.gate.initHost rx pattern hname) := by
  have hne : ∀ a ∈ A, a.host ≠ s.hosts.next ∧ a.list ≠ s.lists.next ∧ a.name ≠ hname := by
    refine fun a ha => ⟨fun heq => ?_, fun heq => ?_, fun heq => ?_⟩
    · exact h.hosts.next_not_mem (heq ▸ List.mem_map_of_mem ha)
    · exact h.lists.next_not_mem (heq ▸ List.mem_map_of_mem ha)
    · have htable := (h.slot a ha).2.1
      rw [heq, hnew] at htable
      cases htable
  refine ⟨{ s with
    entries := s.entries.alloc (line, .ofPattern pattern)
    lists := s.lists.alloc [s.entries.next]
    denyFromTable := Function.update s.denyFromTable hname (some s.lists.next)
    hosts := s.hosts.alloc (line, hname)
    hostList := s.hosts.next :: s.hostList
    denyFromListUsed := true },
    ⟨s.hosts.next, line, hname, s.lists.next, [s.entries.next]⟩ :: A, ?_, ?_, ?_, rfl⟩
  · simp only [GateStore.enterHost, enter, initHost, if_pos hp, hnew, Option.elim_none]
    rfl
  · refine ⟨congrArg _ h.hostList, h.hosts.alloc _, h.lists.alloc _, h.lines, h.entries.alloc _,
      fun a ha => ?_, fun n hn => ?_, fun k x hx => h.allocText hline _ hx, fun k x hx => ?_⟩
    · rcases List.mem_cons.mp ha with rfl | ha
      · exact ⟨Arena.alloc_self .., Function.update_self .., Arena.alloc_self ..⟩
      · obtain ⟨hhost, hlist, hname⟩ := hne a ha
        obtain ⟨hobj, htable, hpes⟩ := h.slot a ha
        refine ⟨(Arena.alloc_of_ne hhost).trans hobj, ?_, (Arena.alloc_of_ne hlist).trans hpes⟩
        exact (Function.update_of_ne hname ..).trans htable
    · change Function.update s.denyFromTable hname (some s.lists.next) n ≠ none at hn
      by_cases heq : n = hname
      · exact ⟨_, List.mem_cons_self .., heq.symm⟩
      · rw [Function.update_of_ne heq] at hn
        obtain ⟨a, ha, haname⟩ := h.table n hn
        exact ⟨a, List.mem_cons_of_mem _ ha, haname⟩
    · by_cases hk : k = s.hosts.next
      · rw [hk, Arena.alloc_self] at hx
        cases hx
        exact hline
      · rw [Arena.alloc_of_ne hk] at hx
        exact h.hostText k x hx
  · rw [GateAs.initHost, if_pos hp]
    have htable : (fun n => (Function.update s.denyFromTable hname (some s.lists.next) n).map fun l =>
        ((s.entries.alloc (line, GateAsEntry.ofPattern pattern)).values
          (((s.lists.alloc [s.entries.next]).objs l).getD [])).map Prod.snd) =
        Function.update s.gate.denyFromTable hname
          (some (GateAsEntry.ofPattern pattern :: (s.gate.denyFromTable hname).getD [])) := by
      funext n
      by_cases hn : n = hname
      · subst hn
        rw [Function.update_self, Function.update_self, Option.map_some, Arena.alloc_self]
        simp only [Option.getD_some, h.rules_alloc_cons _ (List.nil_subset _), gate, hnew,
          Option.map_none, Option.getD_none]
        rfl
      · rw [Function.update_of_ne hn, Function.update_of_ne hn]
        cases hl : s.denyFromTable n with
        | none => simp only [gate, hl, Option.map_none]
        | some l =>
            obtain ⟨a, ha, -, rfl, hlist⟩ := h.exists_slot hl
            simp only [gate, hl, Option.map_some, Arena.alloc_of_ne (hne a ha).2.1, hlist,
              Option.getD_some, h.rules_alloc _ (h.slot_subset ha)]
    unfold GateStore.gate GateStore.rules at *
    simp only [h.rules_alloc _ h.denyList_subset, h.rules_alloc _ h.allowList_subset]
    congr 1

/-- A further rule of a host: the entry goes to its list. -/
theorem Kept.oldHost (h : Kept s A) (hline : s.lines.objs line ≠ none)
    (hp : rx.compiles pattern = true) {l : ℕ} (hl : s.denyFromTable hname = some l) :
    s.Stores (s.enterHost rx line pattern hname) (s.gate.initHost rx pattern hname) := by
  obtain ⟨a, ha, haname, rfl, hlist⟩ := h.exists_slot hl
  obtain ⟨pre, post, rfl⟩ := List.append_of_mem ha
  have hne : ∀ b ∈ pre ++ post, b.list ≠ a.list := by
    intro b hb heq
    have hnd := h.lists.nodup
    rw [List.map_append, List.map_cons, List.perm_middle.nodup_iff, List.nodup_cons,
      ← List.map_append] at hnd
    exact hnd.1 (heq ▸ List.mem_map_of_mem hb)
  have hmem : ∀ {b a' : Slot}, b ∈ pre ++ a' :: post ↔ b = a' ∨ b ∈ pre ++ post :=
    List.perm_middle.mem_iff.trans List.mem_cons
  refine ⟨{ s with
    entries := s.entries.alloc (line, .ofPattern pattern)
    lists := s.lists.write a.list (s.entries.next :: a.entries)
    denyFromListUsed := true },
    pre ++ { a with entries := s.entries.next :: a.entries } :: post, ?_, ?_, ?_, rfl⟩
  · simp only [GateStore.enterHost, enter, initHost, if_pos hp, hl, Option.elim_some, hlist,
      deref_some]
    rfl
  · have hmap : ∀ {β : Type} (f : Slot → β), f { a with entries := s.entries.next :: a.entries } = f a →
        (pre ++ { a with entries := s.entries.next :: a.entries } :: post).map f =
          (pre ++ a :: post).map f := by
      intro β f hf
      rw [List.map_append, List.map_append, List.map_cons, List.map_cons, hf]
    have hhosts := hmap Slot.host rfl
    have hlists := hmap Slot.list rfl
    refine ⟨?_, ?_, ?_, h.lines, ?_, fun b hb => ?_, fun n hn => ?_,
      fun k x hx => h.allocText hline _ hx, h.hostText⟩
    · rw [hhosts]
      exact h.hostList
    · rw [hhosts]
      exact h.hosts
    · rw [hlists]
      exact h.lists.write (List.mem_map_of_mem ha) _
    · refine (h.entries.alloc _).perm ?_
      simp only [List.flatMap_append, List.flatMap_cons, List.cons_append, List.append_assoc]
      exact List.perm_middle.symm
    · rcases hmem.mp hb with rfl | hb
      · obtain ⟨hobj, htable, -⟩ := h.slot a ha
        exact ⟨hobj, htable, Arena.write_self ..⟩
      · obtain ⟨hobj, htable, hpes⟩ := h.slot b (hmem.mpr (Or.inr hb))
        exact ⟨hobj, htable, (Arena.write_of_ne (hne b hb)).trans hpes⟩
    · obtain ⟨b, hb, hbname⟩ := h.table n hn
      rcases hmem.mp hb with rfl | hb
      · exact ⟨_, hmem.mpr (Or.inl rfl), hbname⟩
      · exact ⟨b, hmem.mpr (Or.inr hb), hbname⟩
  · rw [GateAs.initHost, if_pos hp]
    have htable : (fun n => (s.denyFromTable n).map fun l =>
        ((s.entries.alloc (line, GateAsEntry.ofPattern pattern)).values
          (((s.lists.write a.list (s.entries.next :: a.entries)).objs l).getD [])).map Prod.snd) =
        Function.update s.gate.denyFromTable hname
          (some (GateAsEntry.ofPattern pattern :: (s.gate.denyFromTable hname).getD [])) := by
      funext n
      by_cases hn : n = hname
      · subst hn
        rw [Function.update_self, hl, Option.map_some, Arena.write_self]
        simp only [Option.getD_some, h.rules_alloc_cons _ (h.slot_subset ha), gate, hl,
          Option.map_some, hlist]
      · rw [Function.update_of_ne hn]
        cases hnl : s.denyFromTable n with
        | none => simp only [gate, hnl, Option.map_none]
        | some l =>
            obtain ⟨b, hb, hbname, rfl, hpes⟩ := h.exists_slot hnl
            have hother : b ∈ pre ++ post := by
              refine (hmem.mp hb).resolve_left fun heq => hn ?_
              rw [← hbname, heq, haname]
            simp only [gate, hnl, Option.map_some, Arena.write_of_ne (hne b hother), hpes,
              Option.getD_some, h.rules_alloc _ (h.slot_subset hb)]
    unfold GateStore.gate GateStore.rules at *
    simp only [h.rules_alloc _ h.denyList_subset, h.rules_alloc _ h.allowList_subset]
    congr 1

theorem Kept.enterHost (h : Kept s A) (hline : s.lines.objs line ≠ none) (pattern hname : Name) :
    s.Stores (s.enterHost rx line pattern hname) (s.gate.initHost rx pattern hname) := by
  by_cases hp : rx.compiles pattern = true
  · cases hl : s.denyFromTable hname with
    | none => exact h.newHost hline hp hl
    | some l => exact h.oldHost hline hp hl
  · obtain ⟨hkept, hgate⟩ := h.rejected line (.ofPattern pattern)
    refine ⟨_, A, ?_, hkept, ?_, rfl⟩
    · simp only [GateStore.enterHost, enter, initHost, if_neg hp]
      rfl
    · rw [hgate, GateAs.initHost, if_neg hp]

theorem Kept.enterHosts (h : Kept s A) (rx : Regex) (pattern : Name) (hosts : List Name)
    (hline : s.lines.objs line ≠ none) :
    s.Stores (hosts.foldlM (GateStore.enterHost rx line pattern) s)
      (hosts.foldl (GateAs.initHost rx pattern) s.gate) := by
  induction hosts generalizing s A with
  | nil => exact ⟨s, A, rfl, h, rfl, rfl⟩
  | cons hname hosts ih =>
      obtain ⟨s₁, A₁, hs₁, h₁, hgate₁, hlines₁⟩ : s.Stores (s.enterHost rx line pattern hname) _ :=
        h.enterHost hline pattern hname
      obtain ⟨s₂, A₂, hs₂, h₂, hgate₂, hlines₂⟩ := ih h₁ (hlines₁ ▸ hline)
      refine ⟨s₂, A₂, ?_, h₂, ?_, hlines₂.trans hlines₁⟩
      · rw [List.foldlM_cons, hs₁]
        exact hs₂
      · rw [List.foldl_cons, ← hgate₁]
        exact hgate₂

/-! ## Reading a file -/

/-- The storage holds what the reader of the rules holds. -/
structure Reads (st : Reader) (st₀ : GateAs.Reader) : Prop where
  kept : ∃ A, st.store.Kept A
  gate : st.store.gate = st₀.gate
  lev : st.lev = st₀.lev

variable {st : Reader} {st₀ : GateAs.Reader}

theorem readAllow_groupLevel (pattern cmd : Name) (rname : Option Name) (r : Name) :
    GateAs.readAllow rx st₀ pattern cmd rname r =
      if isAllow cmd then
        ⟨{ st₀.gate with
          allowList := GateAs.init rx
            ⟨pattern, rname, some (groupLevel st₀.lev r).1, (groupLevel st₀.lev r).2⟩
            st₀.gate.allowList }, (groupLevel st₀.lev r).2⟩
      else ⟨st₀.gate, (groupLevel st₀.lev r).2⟩ := by
  rw [GateAs.readAllow, groupLevel]
  cases strtok blanks r with
  | none => rfl
  | some asg =>
      rw [Option.elim_some]
      cases hasl : strtok blanks asg.2 with
      | none => simp only [hasl, Option.elim_none]
      | some asl => simp only [hasl, Option.elim_some]

theorem Reads.readAllow (h : Reads st st₀) (hline : st.store.lines.objs line ≠ none)
    (pattern cmd : Name) (rname : Option Name) (r : Name) :
    ∃ st', GateStore.readAllow rx line st pattern cmd rname r = .ok st' ∧
      Reads st' (GateAs.readAllow rx st₀ pattern cmd rname r) := by
  obtain ⟨A, hkept⟩ := h.kept
  rw [readAllow_groupLevel, ← h.gate, ← h.lev, GateStore.readAllow]
  by_cases hcmd : isAllow cmd = true
  · obtain ⟨s', A', hs', hkept', hgate, -⟩ : st.store.Stores (st.store.enterAllow rx line _) _ :=
      hkept.enterAllow hline
        ⟨pattern, rname, some (groupLevel st.lev r).1, (groupLevel st.lev r).2⟩
    refine ⟨⟨s', (groupLevel st.lev r).2⟩, ?_, ⟨⟨A', hkept'⟩, ?_, ?_⟩⟩
    · rw [if_pos hcmd, hs']
      rfl
    · rw [if_pos hcmd]
      exact hgate
    · rw [if_pos hcmd]
  · refine ⟨{ st with lev := (groupLevel st.lev r).2 }, if_neg hcmd, ⟨⟨A, hkept⟩, ?_, ?_⟩⟩
    · rw [if_neg hcmd]
    · rw [if_neg hcmd]

/-- **The second pass** stores the rules of the line. -/
theorem Reads.secondPass (h : Reads st st₀) (rx : Regex) (hline : st.store.lines.objs line ≠ none)
    (text : Name) : ∃ st', GateStore.secondPass rx line text st = .ok st' ∧
      Reads st' (GateAs.secondPass rx st₀ text) := by
  obtain ⟨A, hkept⟩ := h.kept
  rw [GateStore.secondPass, GateAs.secondPass]
  cases patternCmd text with
  | none => exact ⟨st, rfl, h⟩
  | some x =>
      obtain ⟨pattern, cmd, r⟩ := x
      rw [Option.elim_some]
      dsimp only
      by_cases hdeny : isDeny cmd = true
      · rw [if_pos hdeny, if_pos hdeny]
        cases tokens hostDelim (afterFrom r) with
        | nil =>
            obtain ⟨s', A', hs', hkept', hgate, -⟩ := hkept.enterDeny rx hline pattern
            refine ⟨{ st with store := s' }, ?_, ⟨⟨A', hkept'⟩, ?_, h.lev⟩⟩
            · rw [if_pos rfl, hs']
              rfl
            · rw [hgate, h.gate]
        | cons hname hosts =>
            obtain ⟨s', A', hs', hkept', hgate, -⟩ :=
              hkept.enterHosts rx pattern (hname :: hosts) hline
            refine ⟨{ st with store := s' }, ?_, ⟨⟨A', hkept'⟩, ?_, h.lev⟩⟩
            · rw [if_neg (List.cons_ne_nil _ _), hs']
              rfl
            · rw [hgate, h.gate]
      · rw [if_neg hdeny, if_neg hdeny]
        by_cases horder : isOrder cmd = true
        · rw [if_pos horder, if_pos horder, readOrder_eq]
          refine ⟨_, rfl, ⟨⟨A, { hkept with }⟩, ?_, h.lev⟩⟩
          rw [← h.gate]
          cases orderArg r with
          | none => rfl
          | some o => rfl
        · rw [if_neg horder, if_neg horder]
          by_cases halias : isAlias cmd = true
          · rw [if_pos halias, if_pos halias]
            cases strtok blanks r with
            | none => exact ⟨st, rfl, h⟩
            | some rname => exact h.readAllow hline pattern cmd (some rname.1) rname.2
          · rw [if_neg halias, if_neg halias]
            exact h.readAllow hline pattern cmd none r

/-- A line that is kept. -/
theorem Reads.newLine (h : Reads st st₀) (text : Name) :
    Reads { st with
      store.lines := st.store.lines.alloc text
      store.lineList := st.store.lines.next :: st.store.lineList } st₀ := by
  obtain ⟨A, hkept⟩ := h.kept
  have hold : ∀ k, st.store.lines.objs k ≠ none → (st.store.lines.alloc text).objs k ≠ none := by
    intro k hk
    rw [Arena.alloc_of_ne]
    · exact hk
    · rintro rfl
      exact hkept.lines.next_not_mem ((hkept.lines.live _).mpr hk)
  exact ⟨⟨A, { hkept with
    lines := hkept.lines.alloc text
    entryText := fun k x hx => hold _ (hkept.entryText k x hx)
    hostText := fun k x hx => hold _ (hkept.hostText k x hx) }⟩, h.gate, h.lev⟩

theorem Reads.readLine {aToIPAddr : Resolver} (h : Reads st st₀) (line : Name) :
    Simulates Reads .parse (GateStore.readLine rx aToIPAddr st line)
      (GateAs.readLine rx aToIPAddr st₀ line) := by
  rw [GateStore.readLine, GateAs.readLine]
  cases firstPass aToIPAddr line with
  | error f => exact .error f
  | ok o =>
      cases o with
      | none => exact .ok h
      | some text =>
          obtain ⟨st', hst', hreads⟩ := (h.newLine text).secondPass rx
            (show (st.store.lines.alloc text).objs st.store.lines.next ≠ none by simp) text
          show Simulates Reads .parse (GateStore.secondPass rx st.store.lines.next text _) _
          rw [hst']
          exact .ok hreads

/-- **Reading a file stores its rules.** -/
theorem readPvList_simulates (rx : Regex) (aToIPAddr : Resolver) (lev : ℤ) (lfile : List Char) :
    Simulates (fun s g => (∃ A, s.Kept A) ∧ s.gate = g) .parse
      (GateStore.readPvList rx aToIPAddr lev lfile) (GateAs.readPvList rx aToIPAddr lev lfile) := by
  refine Simulates.bind (Simulates.foldlM (R := Reads) ⟨⟨[], .empty⟩, rfl, rfl⟩ ?_) ?_
  · exact fun line _ st st₀ hreads => hreads.readLine line
  · exact fun st st₀ hreads => .ok ⟨hreads.kept, hreads.gate⟩

/-! ## Deleting the rules -/

theorem text_eq_ok (hline : s.lines.objs line ≠ none) : s.text line = .ok ⟨⟩ := by
  obtain ⟨t, ht⟩ := Option.ne_none_iff_exists'.mp hline
  rw [text, ht]
  rfl

theorem clearAsList_eq_ok {l l' : List ℕ} (ho : s.entries.Owned (l ++ l'))
    (htext : ∀ k x, s.entries.objs k = some x → s.lines.objs x.1 ≠ none) :
    ∃ h', s.clearAsList l = .ok { s with entries := h' } ∧ h'.Owned l' ∧
      ∀ k x, h'.objs k = some x → s.entries.objs k = some x := by
  obtain ⟨h', hh', hown, -, hback⟩ := ho.deleteAll .dangling
    (fun x => s.text x.1) fun k _ x hx => text_eq_ok (htext k x hx)
  exact ⟨h', by rw [clearAsList, hh']; rfl, hown, hback⟩

/-- The entries of the hosts are deleted, their lists emptied, and the table is cleared of them. -/
structure HostsCleared (s : GateStore) (A : List Slot) (s' : GateStore) : Prop where
  hosts : s'.hosts = s.hosts
  lines : s'.lines = s.lines
  hostList : s'.hostList = s.hostList
  denyList : s'.denyList = s.denyList
  allowList : s'.allowList = s.allowList
  lineList : s'.lineList = s.lineList
  lists : ∀ k, s'.lists.objs k = if k ∈ A.map Slot.list then some [] else s.lists.objs k
  table : ∀ n, s'.denyFromTable n = if n ∈ A.map Slot.name then none else s.denyFromTable n
  back : ∀ k x, s'.entries.objs k = some x → s.entries.objs k = some x

theorem HostsCleared.trans {A B : List Slot} {s s₁ s₂ : GateStore} (h₁ : s.HostsCleared A s₁)
    (h₂ : s₁.HostsCleared B s₂) : s.HostsCleared (A ++ B) s₂ where
  hosts := h₂.hosts.trans h₁.hosts
  lines := h₂.lines.trans h₁.lines
  hostList := h₂.hostList.trans h₁.hostList
  denyList := h₂.denyList.trans h₁.denyList
  allowList := h₂.allowList.trans h₁.allowList
  lineList := h₂.lineList.trans h₁.lineList
  lists k := by
    simp only [h₂.lists, h₁.lists, List.map_append, List.mem_append, ite_or]
    split_ifs <;> rfl
  table n := by
    simp only [h₂.table, h₁.table, List.map_append, List.mem_append, ite_or]
    split_ifs <;> rfl
  back k x hx := h₁.back k x (h₂.back k x hx)

/-- The turn of the loop for one host. -/
theorem destroyHost_eq_ok {a : Slot} {l : List ℕ} (acc : Option ℕ)
    (ho : s.entries.Owned (a.entries ++ l))
    (hentry : ∀ k x, s.entries.objs k = some x → s.lines.objs x.1 ≠ none)
    (hhost : ∀ k x, s.hosts.objs k = some x → s.lines.objs x.1 ≠ none)
    (hslot : s.hosts.objs a.host = some (a.line, a.name) ∧
      s.denyFromTable a.name = some a.list ∧ s.lists.objs a.list = some a.entries) :
    ∃ s', destroyHost (s, acc) a.host = .ok (s', some a.list) ∧ s'.entries.Owned l ∧
      s.HostsCleared [a] s' := by
  obtain ⟨hobj, htable, hpes⟩ := hslot
  obtain ⟨h', hh', hown, hback⟩ := clearAsList_eq_ok
    (s := { s with denyFromTable := Function.update s.denyFromTable a.name none }) ho hentry
  refine ⟨{ s with
    denyFromTable := Function.update s.denyFromTable a.name none
    entries := h'
    lists := s.lists.write a.list [] }, ?_, hown,
      ⟨rfl, rfl, rfl, rfl, rfl, rfl, fun k => ?_, fun n => ?_, hback⟩⟩
  · refine bind_eq_ok_iff.mpr ⟨_, deref_eq_ok_iff.mpr hobj, ?_⟩
    refine bind_eq_ok_iff.mpr ⟨_, text_eq_ok (hhost _ _ hobj), ?_⟩
    rw [htable, Option.elim_some]
    refine bind_eq_ok_iff.mpr ⟨_, deref_some .., ?_⟩
    refine bind_eq_ok_iff.mpr ⟨_, deref_eq_ok_iff.mpr hpes, ?_⟩
    exact bind_eq_ok_iff.mpr ⟨_, hh', rfl⟩
  · show Function.update s.lists.objs a.list (some []) k = _
    rw [Function.update_apply]
    simp only [List.map_cons, List.map_nil, List.mem_singleton]
  · show Function.update s.denyFromTable a.name none n = _
    rw [Function.update_apply]
    simp only [List.map_cons, List.map_nil, List.mem_singleton]

/-- The loop over the hosts. -/
theorem destroyHosts_eq_ok {l : List ℕ} (acc : Option ℕ)
    (ho : s.entries.Owned (A.flatMap Slot.entries ++ l))
    (hentry : ∀ k x, s.entries.objs k = some x → s.lines.objs x.1 ≠ none)
    (hhost : ∀ k x, s.hosts.objs k = some x → s.lines.objs x.1 ≠ none)
    (hnames : (A.map Slot.name).Nodup) (hlists : (A.map Slot.list).Nodup)
    (hslot : ∀ a ∈ A, s.hosts.objs a.host = some (a.line, a.name) ∧
      s.denyFromTable a.name = some a.list ∧ s.lists.objs a.list = some a.entries) :
    ∃ s' acc', (A.map Slot.host).foldlM destroyHost (s, acc) = .ok (s', acc') ∧
      s'.entries.Owned l ∧ s.HostsCleared A s' := by
  induction A generalizing s acc with
  | nil =>
      exact ⟨s, acc, rfl, ho, ⟨rfl, rfl, rfl, rfl, rfl, rfl, fun _ => rfl, fun _ => rfl,
        fun _ _ hx => hx⟩⟩
  | cons a A ih =>
      rw [List.flatMap_cons, List.append_assoc] at ho
      rw [List.map_cons, List.nodup_cons] at hnames hlists
      obtain ⟨s₁, hs₁, hown₁, h₁⟩ := destroyHost_eq_ok acc ho hentry hhost
        (hslot a (List.mem_cons_self ..))
      have hslot₁ : ∀ b ∈ A, s₁.hosts.objs b.host = some (b.line, b.name) ∧
          s₁.denyFromTable b.name = some b.list ∧ s₁.lists.objs b.list = some b.entries := by
        intro b hb
        obtain ⟨hobj, htable, hpes⟩ := hslot b (List.mem_cons_of_mem a hb)
        have hname : b.name ∉ [a].map Slot.name := fun hmem =>
          hnames.1 (List.mem_singleton.mp hmem ▸ List.mem_map_of_mem hb)
        have hlist : b.list ∉ [a].map Slot.list := fun hmem =>
          hlists.1 (List.mem_singleton.mp hmem ▸ List.mem_map_of_mem hb)
        rw [h₁.hosts, h₁.table, if_neg hname, h₁.lists, if_neg hlist]
        exact ⟨hobj, htable, hpes⟩
      obtain ⟨s₂, acc₂, hs₂, hown₂, h₂⟩ := ih (some a.list) hown₁
        (fun k x hx => h₁.lines ▸ hentry k x (h₁.back k x hx))
        (fun k x hx => h₁.lines ▸ hhost k x (h₁.hosts ▸ hx)) hnames.2 hlists.2 hslot₁
      refine ⟨s₂, acc₂, ?_, hown₂, h₁.trans h₂⟩
      rw [List.map_cons, List.foldlM_cons, hs₁]
      exact hs₂

/-- What is left: the headers of the hosts' lists, one for each host with rules, and empty. -/
structure Destroyed (s s' : GateStore) : Prop where
  entries : ∀ k, s'.entries.objs k = none
  hosts : ∀ k, s'.hosts.objs k = none
  lines : ∀ k, s'.lines.objs k = none
  table : ∀ n, s'.denyFromTable n = none
  lists : ∀ k l, s'.lists.objs k = some l ↔ l = [] ∧ ∃ n, s.denyFromTable n = some k

/-- **The destructor** deletes what is kept. -/
theorem Kept.destroy (h : Kept s A) : ∃ s', s.destroy = .ok s' ∧ s.Destroyed s' := by
  have hnames : (A.map Slot.name).Nodup := by
    have hlists : (A.map Slot.name).map (fun n => (s.denyFromTable n).getD 0) = A.map Slot.list := by
      rw [List.map_map]
      refine List.map_congr_left fun a ha => ?_
      rw [Function.comp_apply, (h.slot a ha).2.1, Option.getD_some]
    exact List.Nodup.of_map _ (hlists ▸ h.lists.nodup)
  obtain ⟨s₁, acc, hs₁, hown₁, h₁⟩ := destroyHosts_eq_ok none h.entries h.entryText h.hostText
    hnames h.lists.nodup h.slot
  have hhostsOwned := h.hosts
  rw [← h₁.hosts, ← h.hostList, ← h₁.hostList, ← List.append_nil s₁.hostList] at hhostsOwned
  obtain ⟨hosts, hhosts, hnoHosts, -, -⟩ := hhostsOwned.deleteAll GateFault.dangling
    (fun _ => .ok ⟨⟩) fun _ _ _ _ => rfl
  have htext : ∀ k x, s₁.entries.objs k = some x → s₁.lines.objs x.1 ≠ none :=
    fun k x hx => h₁.lines ▸ h.entryText k x (h₁.back k x hx)
  rw [← h₁.denyList, ← h₁.allowList] at hown₁
  obtain ⟨h₂, hs₂, hown₂, hback₂⟩ := clearAsList_eq_ok hown₁ htext
  rw [← List.append_nil s₁.allowList] at hown₂
  obtain ⟨h₃, hs₃, hnoEntries, -⟩ := clearAsList_eq_ok (s := { s₁ with entries := h₂ }) hown₂
    fun k x hx => htext k x (hback₂ k x hx)
  have hlinesOwned := h.lines
  rw [← h₁.lines, ← h₁.lineList, ← List.append_nil s₁.lineList] at hlinesOwned
  obtain ⟨lines, hlines, hnoLines, -, -⟩ := hlinesOwned.deleteAll GateFault.dangling
    (fun _ => .ok ⟨⟩) fun _ _ _ _ => rfl
  refine ⟨{ s₁ with
    entries := h₃
    hosts := hosts
    lines := lines
    hostList := []
    denyList := []
    allowList := []
    lineList := [] }, ?_, ⟨hnoEntries.eq_none, hnoHosts.eq_none, hnoLines.eq_none, fun n => ?_,
      fun k l => ?_⟩⟩
  · refine bind_eq_ok_iff.mpr ⟨(s₁, acc), by rw [h.hostList, hs₁], ?_⟩
    refine bind_eq_ok_iff.mpr ⟨hosts, hhosts, ?_⟩
    refine bind_eq_ok_iff.mpr ⟨_, hs₂, ?_⟩
    refine bind_eq_ok_iff.mpr ⟨_, hs₃, ?_⟩
    exact bind_eq_ok_iff.mpr ⟨lines, hlines, rfl⟩
  · show s₁.denyFromTable n = none
    rw [h₁.table]
    split_ifs with hn
    · rfl
    · by_contra hne
      obtain ⟨a, ha, rfl⟩ := h.table n hne
      exact hn (List.mem_map_of_mem ha)
  · show s₁.lists.objs k = some l ↔ _
    have hleft : (∃ n, s.denyFromTable n = some k) ↔ k ∈ A.map Slot.list := by
      constructor
      · rintro ⟨n, hn⟩
        obtain ⟨a, ha, -, rfl, -⟩ := h.exists_slot hn
        exact List.mem_map_of_mem ha
      · intro hk
        obtain ⟨a, ha, rfl⟩ := List.mem_map.mp hk
        exact ⟨a.name, (h.slot a ha).2.1⟩
    rw [h₁.lists, hleft]
    split_ifs with hk
    · simp [hk, eq_comm]
    · have hnone : s.lists.objs k = none :=
        not_not.mp fun hne => hk ((h.lists.live k).mpr hne)
      simp [hk, hnone]

theorem readPvList_stored {rx : Regex} {aToIPAddr : Resolver} {lev : ℤ} {lfile : List Char}
    {g : GateAs} (hg : GateAs.readPvList rx aToIPAddr lev lfile = .ok g) :
    ∃ s, GateStore.readPvList rx aToIPAddr lev lfile = .ok s ∧ s.gate = g ∧
      ∃ s', s.destroy = .ok s' ∧ s.Destroyed s' := by
  have hsim := readPvList_simulates rx aToIPAddr lev lfile
  rw [hg] at hsim
  cases hs : GateStore.readPvList rx aToIPAddr lev lfile with
  | error f' =>
      rw [hs] at hsim
      cases hsim
  | ok s =>
      rw [hs] at hsim
      cases hsim with
      | ok hR =>
          obtain ⟨⟨A, hkept⟩, rfl⟩ := hR
          exact ⟨s, rfl, rfl, hkept.destroy⟩

/-- **The access rules as objects.**  A file that is read goes wrong in the storage exactly where
it does in the parser.  Otherwise the objects hold its rules and no others; the destructor then
deletes every entry, host and line exactly once, no text before what points into it, and leaves
one empty list header for each host that had rules. -/
theorem gateAs_stored (rx : Regex) (aToIPAddr : Resolver) (lev : ℤ) (lfile : List Char) :
    (∀ f, GateAs.readPvList rx aToIPAddr lev lfile = .error f →
      GateStore.readPvList rx aToIPAddr lev lfile = .error (.parse f)) ∧
    ∀ g, GateAs.readPvList rx aToIPAddr lev lfile = .ok g →
      ∃ s, GateStore.readPvList rx aToIPAddr lev lfile = .ok s ∧ s.gate = g ∧
        ∃ s', s.destroy = .ok s' ∧ s.Destroyed s' := by
  refine ⟨fun f hf => ?_, fun g hg => readPvList_stored hg⟩
  have hsim := readPvList_simulates rx aToIPAddr lev lfile
  rw [hf] at hsim
  cases hs : GateStore.readPvList rx aToIPAddr lev lfile with
  | ok s =>
      rw [hs] at hsim
      cases hsim
  | error f' =>
      rw [hs] at hsim
      cases hsim
      rfl

/-- A library that rejects an open bracket. -/
def noBracket : Regex := ⟨fun pattern => decide (pattern ≠ ['[']), fun _ _ => none⟩

/-- Two hosts with different addresses. -/
def twoAddresses : Resolver :=
  fun name _ => some ⟨afInet, 0, if name = ['h'] then InAddr.loopback else InAddr.zero⟩

/-- Rules for two hosts, two of them for the first one, a pattern that is rejected, and a rule for
everyone. -/
def twoHosts : List Char := "z DENY FROM h k\nx DENY h\n[ ALLOW\ny ALLOW\n".toList

set_option maxRecDepth 10000 in
theorem gateAs_stored_twoHosts : ∃ g, ∃ s s' : GateStore,
    GateAs.readPvList noBracket twoAddresses 1 twoHosts = .ok g ∧
      (g.denyFromTable InAddr.loopback.dotted).map List.length = some 2 ∧
      g.allowList.map (·.pattern) = [['y']] ∧ s.gate = g ∧ s.destroy = .ok s' ∧ s.Destroyed s' := by
  have hread : (GateAs.readPvList noBracket twoAddresses 1 twoHosts).toOption.any (fun g =>
      decide ((g.denyFromTable InAddr.loopback.dotted).map List.length = some 2) &&
      decide (g.allowList.map (·.pattern) = [['y']])) = true := by decide
  obtain ⟨g, hg, hfacts⟩ := (Option.any_eq_true _ _).mp hread
  rw [Bool.and_eq_true, decide_eq_true_eq, decide_eq_true_eq] at hfacts
  have hok := toOption_eq_some_iff.mp hg
  obtain ⟨s, -, hgate, s', hdestroy, hdone⟩ :=
    (gateAs_stored noBracket twoAddresses 1 twoHosts).2 g hok
  exact ⟨g, s, s', hok, hfacts.1, hfacts.2, hgate, hdestroy, hdone⟩

end GateStore

/-- The rules in force are held by objects, from startup to the end. -/
theorem reachable_gateAs_stored {rx : Regex} {cfg : Config} {ok : Server → Event → Prop}
    {s : Server} {g : GateAs} (h : Transition.Reachable (nameServer rx (· = cfg)) ok s)
    (hg : s.pgateAs = some g) : ∃ lfile st st', cfg.pvlist = some lfile ∧
      GateStore.readPvList rx cfg.aToIPAddr cfg.lev lfile = .ok st ∧ st.gate = g ∧
      st.destroy = .ok st' ∧ st.Destroyed st' := by
  have hread := reachable_pgateAs h
  rw [Config.readAccess] at hread
  cases hfile : cfg.pvlist with
  | none =>
      simp only [hfile] at hread
      rw [hg] at hread
      cases hread
  | some lfile =>
      simp only [hfile] at hread
      cases hgate : GateAs.readPvList rx cfg.aToIPAddr cfg.lev lfile with
      | error f =>
          simp only [hgate] at hread
          cases hread
      | ok g' =>
          simp only [hgate, hg] at hread
          obtain rfl : g' = g := Option.some.inj (Except.ok.inj hread)
          obtain ⟨st, hst, hstg, st', hdestroy, hdone⟩ := GateStore.readPvList_stored hgate
          exact ⟨lfile, st, st', rfl, hst, hstg, hdestroy, hdone⟩

end CaNameserver
