import CaNameserver.Runs
import CaNameserver.TwoPasses

/-!
# `DENY FROM`, from the file to the request

The hosts of a `DENY FROM` line are stored under their dotted addresses.  A request looks its
client up under what `ipAddrToA` returns cut at the first `.`, which has no dot left in it, and so
finds none of them: such a line refuses nothing.

## The two keys

What the line stores is made by the first pass: the dotted addresses of those hosts that resolve
(`lineRules_denyFrom`).  An address in decimal has dots.  What the request looks up is cut at the
first dot, whether `ipAddrToA` has found a name for the client or gives its address
(`dot_not_mem_clientKey`).  So no rule of the line is ever looked at.

## What refuses instead

The rules in force are those of the file, for good (`reachable_pgateAs`), and a search is refused
as they say, under the key of the client (`searchDenied_iff`).  A request gets as far as the rules
if the name is not in the table, not pending and not one of the server's own (`ReachesRules`);
then it is refused by them and by nothing else (`refused_iff`).

* `denyFrom_refuses_iff`: a request that a `DENY FROM` line is meant for is refused exactly if the
  other lines refuse it.
* `denyFrom_not_enforced`: the client that the file denies the name gets its search.
-/

namespace CaNameserver

open CStr Fallible Transition AccessRules GateAs Server

variable {rx : Regex} {start : Config → Prop} {ok : Server → Event → Prop}

/-! ## The rules in force -/

/-- No event changes the rules. -/
theorem Handled.pgateAs {s s' : Server} {e : Event} (h : Handled rx s e s') :
    s'.pgateAs = s.pgateAs := by
  cases h with
  | request h => cases h <;> rfl
  | purge _ hframe => exact hframe.pgateAs
  | _ => rfl

theorem startup_pgateAs {cfg : Config} {s : Server} (h : startup rx cfg = .ok s) :
    cfg.readAccess rx = .ok s.pgateAs := by
  simp only [startup, bind_eq_ok_iff] at h
  obtain ⟨pgateAs, hread, ⟨d, requested⟩, -, h⟩ := h
  have hsame : s.pgateAs = pgateAs := by
    refine foldlM_induct (P := fun s => s.pgateAs = pgateAs) h rfl fun i _ s s' hs hstep => ?_
    obtain ⟨-, p, -, rfl⟩ := connectIocHeartbeat_eq_ok hstep
    exact hs
  rw [hsame, hread]

/-- **The rules in force** in a reachable state are those that were read at startup. -/
theorem reachable_pgateAs {cfg : Config} {s : Server}
    (h : Reachable (nameServer rx (· = cfg)) ok s) : cfg.readAccess rx = .ok s.pgateAs := by
  refine (reachable_induct (I := fun s => cfg.readAccess rx = .ok s.pgateAs) h ?_ ?_).2
  · rintro _ s rfl hs -
    exact startup_pgateAs hs
  · intro s e s' _ hs _ hstep
    rw [hstep.pgateAs]
    exact hs

/-! ## The line -/

/-- `pattern DENY FROM ... hname ...`. -/
def DenyFromLine (line pattern hname : Name) : Prop :=
  ∃ cmd r word r', patternCmd (cutAt '#' (cstr line)) = some (pattern, cmd, r) ∧
    isDeny cmd = true ∧ strtok hostDelim r = some (word, r') ∧
    strcasecmp word ['F', 'R', 'O', 'M'] = true ∧ hname ∈ tokens hostDelim r'

/-- The rules of a `DENY FROM` line with a host that resolves: its hosts are denied, by the
dotted addresses of those that resolve. -/
theorem lineRules_denyFrom {aToIPAddr : Resolver} {line pattern hname : Name} {a : SockAddr}
    {o : Option Name} (h : DenyFromLine line pattern hname) (hp : rx.compiles pattern = true)
    (ha : aToIPAddr hname 0 = some a) (ho : firstPass aToIPAddr line = .ok o) :
    ∃ hosts : List Name, lineRules rx aToIPAddr line = hosts.map (Rule.denyFrom · pattern) ∧
      a.sinAddr.dotted ∈ hosts ∧ ∀ x ∈ hosts, '.' ∈ x := by
  obtain ⟨cmd, r, word, r', hcmd, hdeny, hword, hfrom, hname'⟩ := h
  have hafter : afterFrom r = r' := by
    rw [afterFrom, hword]
    exact if_pos hfrom
  have hhosts : isDeny cmd = true ∧ skip hostDelim (afterFrom r) ≠ [] := by
    refine ⟨hdeny, ?_⟩
    rw [Ne, skip_eq_nil_iff, hafter]
    exact List.ne_nil_of_mem hname'
  have haddr : a.sinAddr.dotted ∈ (tokens hostDelim r').filterMap (hostAddress aToIPAddr) :=
    List.mem_filterMap.mpr ⟨hname, hname', by rw [hostAddress, ha]; rfl⟩
  have hrules : lineRules rx aToIPAddr line =
      ((tokens hostDelim r').filterMap (hostAddress aToIPAddr)).map (Rule.denyFrom · pattern) := by
    rw [lineRules_deny hcmd hhosts ho, if_pos hp, hafter]
    obtain ⟨x, hosts, hx⟩ := List.exists_cons_of_ne_nil (List.ne_nil_of_mem haddr)
    rw [hx]
    rfl
  refine ⟨_, hrules, haddr, fun x hx => ?_⟩
  obtain ⟨hname₂, -, hx⟩ := List.mem_filterMap.mp hx
  obtain ⟨a₂, -, rfl⟩ := Option.map_eq_some_iff.mp hx
  exact a₂.sinAddr.dot_mem_dotted

/-! ## The request -/

/-- The key of a client has no dot. -/
theorem dot_not_mem_clientKey (client : Name) : '.' ∉ clientKey client :=
  fun h => not_mem_cutAt '.' _ (mem_of_mem_cutAt h)

/-- The access rules decide a search as they say, under the key of the client if the deny-from
list is in use. -/
theorem searchDenied_iff {s : Server} {g : GateAs} {rules : List AccessRule} {client pv : Name}
    (hg : s.pgateAs = some g) (hrules : Holds g rules) (hused : g.denyFromListUsed = true) :
    s.searchDenied rx client pv = true ↔
      ¬ Allows rules (Matches rx pv) (some (clientKey client)) := by
  rw [searchDenied, hg, ← hrules.findEntry_isSome_iff]
  simp [hused]

/-- What `ipAddrToA` makes of an address: a host name or the dotted address, and the port. -/
def IsClient (a : InAddr) (client : Name) : Prop :=
  ∃ hostname port, client = hostname ++ ':' :: decimal port ∧ (hostname = a.dotted ∨ ':' ∉ hostname)

/-- A request from the address `a` that comes to the access rules, for a name `pattern` matches. -/
structure ReachesRules (rx : Regex) (s : Server) (a : InAddr) (pattern client pPVName : Name) :
    Prop where
  client : IsClient a client
  compiles : rx.compiles pattern = true
  fullMatch : Matches rx (recordName pPVName) pattern
  unknown : s.dir.stringResTbl (recordName pPVName) = none
  notNs : pPVName ∉ s.nsResTbl
  notPending : ∀ nn ∈ s.nameList, nn.name ≠ recordName pPVName

/-- No search is made, nothing becomes pending, and the refusal is counted. -/
structure Refused (s s' : Server) : Prop where
  ca : s'.ca = s.ca
  nameList : s'.nameList = s.nameList
  counted : s'.stats.broadcastDenied = s.stats.broadcastDenied + 1

/-- A request that comes to the access rules is refused by them and by nothing else. -/
theorem refused_iff {s s' : Server} {a : InAddr} {pattern client pPVName : Name}
    {search : CaStatus} {now : ℕ} {ret : PvExistReturn}
    (hreq : ReachesRules rx s a pattern client pPVName)
    (h : s.pvExistTest rx client pPVName search now = .ok (s', ret)) :
    Refused s s' ↔
      recordName pPVName ≠ [] ∧ s.searchDenied rx client (recordName pPVName) = true := by
  cases pvExistTest_answered h with
  | noName hn =>
      constructor
      · intro hr
        exact absurd hr.counted (Nat.ne_of_lt (Nat.lt_succ_self _))
      · rintro ⟨hne, -⟩
        exact absurd hn hne
  | iocError _ he =>
      rw [hreq.unknown] at he
      cases he
  | hit _ he => exact absurd hreq.unknown he
  | iocDown _ he => exact absurd hreq.unknown he
  | nameserverPV _ _ hns => exact absurd hns hreq.notNs
  | pending _ _ _ hpend =>
      obtain ⟨nn, hnn, hname⟩ := hpend
      exact absurd hname (hreq.notPending nn hnn)
  | denied hn _ _ _ hden => exact ⟨fun _ => ⟨hn, hden⟩, fun _ => ⟨rfl, rfl, rfl⟩⟩
  | searchFailed _ _ _ _ hden =>
      constructor
      · intro hr
        exact absurd hr.counted (Nat.ne_of_lt (Nat.lt_succ_self _))
      · rintro ⟨-, hden'⟩
        rw [hden] at hden'
        cases hden'
  | searched _ _ _ _ hden =>
      constructor
      · intro hr
        exact absurd hr.counted (Nat.ne_of_lt (Nat.lt_succ_self _))
      · rintro ⟨-, hden'⟩
        rw [hden] at hden'
        cases hden'

/-- **A `DENY FROM` line refuses nothing**: the request it is meant for is refused exactly if the
other lines refuse it.  The name must also have a record part, for a request without one is
answered before the rules are asked. -/
theorem denyFrom_refuses_iff (rx : Regex) (cfg : Config) (lfile : List Char) (pre post : List Name)
    (line pattern hname : Name) (a : SockAddr) (hfile : cfg.pvlist = some lfile)
    (hlines : fgetsLines gateMaxPvlistLineLength lfile = pre ++ line :: post)
    (hline : DenyFromLine line pattern hname) (ha : cfg.aToIPAddr hname 0 = some a)
    (s : Server) (hs : Reachable (nameServer rx (· = cfg)) (fun _ _ => True) s)
    (client pPVName : Name) (hreq : ReachesRules rx s a.sinAddr pattern client pPVName)
    (search : CaStatus) (now : ℕ) (s' : Server) (ret : PvExistReturn)
    (h : s.pvExistTest rx client pPVName search now = .ok (s', ret)) :
    Refused s s' ↔ recordName pPVName ≠ [] ∧
      ¬ Allows ((pre ++ post).flatMap (lineRules rx cfg.aToIPAddr)) (Matches rx (recordName pPVName))
        (some (clientKey client)) := by
  have hread := reachable_pgateAs hs
  rw [Config.readAccess, hfile] at hread
  cases hg : readPvList rx cfg.aToIPAddr cfg.lev lfile with
  | error f =>
      simp only [hg] at hread
      cases hread
  | ok g =>
      simp only [hg] at hread
      replace hread : s.pgateAs = some g := (Except.ok.inj hread).symm
      have hrules := readPvList_holds hg
      obtain ⟨o, ho⟩ := readPvList_ok_iff.mp ⟨g, hg⟩ line (by rw [hlines]; simp)
      obtain ⟨hosts, hmid, hmem, hdot⟩ := lineRules_denyFrom hline hreq.compiles ha ho
      rw [hlines, List.flatMap_append, List.flatMap_cons, ← List.append_assoc] at hrules
      have hused : g.denyFromListUsed = true := by
        rw [hrules.used, List.any_append, List.any_append, hmid, Bool.or_eq_true, Bool.or_eq_true]
        exact Or.inl (Or.inr (List.any_eq_true.mpr ⟨_, List.mem_map_of_mem hmem, rfl⟩))
      rw [refused_iff hreq h, searchDenied_iff hread hrules hused, List.flatMap_append,
        allows_append_denyFrom]
      intro r hr
      rw [hmid] at hr
      obtain ⟨x, hx, rfl⟩ := List.mem_map.mp hr
      refine ⟨x, pattern, rfl, fun heq => ?_⟩
      rw [Option.some.injEq] at heq
      exact dot_not_mem_clientKey client (heq ▸ hdot x hx)

/-! ## Two files -/

/-- A site where every name resolves, with a pvlist file. -/
def pvlistSite (pvlist : String) : Config :=
  { oneIoc with
    pvlist := some pvlist.toList
    aToIPAddr := fun _ _ => some ⟨afInet, 0, InAddr.loopback⟩ }

/-- The client at the address that is denied. -/
def deniedClient : Name := InAddr.loopback.dotted ++ ':' :: decimal 5

/-- A request for the denied name comes to the access rules. -/
def comesToRules (s : Server) : Bool :=
  (s.dir.stringResTbl ['z']).isNone && !s.nsResTbl.contains ['z'] &&
    s.nameList.all fun nn => !(nn.name == ['z'])

theorem reachesRules_of_eq_true {s : Server} (h : comesToRules s = true) :
    ReachesRules literal s InAddr.loopback ['z'] deniedClient ['z'] := by
  rw [comesToRules, Bool.and_eq_true, Bool.and_eq_true] at h
  obtain ⟨⟨hunknown, hns⟩, hpend⟩ := h
  have hname : recordName ['z'] = ['z'] := rfl
  refine ⟨⟨_, 5, rfl, Or.inl rfl⟩, rfl, rfl, Option.isNone_iff_eq_none.mp hunknown, ?_, ?_⟩
  · simpa using hns
  · simpa [hname] using hpend

theorem denyFromLine_z : DenyFromLine "z DENY FROM h\n".toList ['z'] ['h'] :=
  ⟨"DENY".toList, "FROM h\n".toList, "FROM".toList, "h\n".toList, by decide, by decide, by decide,
    by decide, by decide⟩

set_option maxRecDepth 10000 in
/-- A name that no line allows is refused. -/
theorem denyFrom_refuses_unlisted : ∃ s s' ret,
    Reachable (nameServer literal (· = pvlistSite "y ALLOW\nz DENY FROM h\n")) (fun _ _ => True) s ∧
      s.pvExistTest literal deniedClient ['z'] .normal 1 = .ok (s', ret) ∧ Refused s s' := by
  have hrun : (run literal (fun _ _ => true) (pvlistSite "y ALLOW\nz DENY FROM h\n") []).any (fun s =>
      comesToRules s && (s.pvExistTest literal deniedClient ['z'] .normal 1).isOk) = true := by
    decide
  obtain ⟨s, hs, hfacts⟩ := (Option.any_eq_true _ _).mp hrun
  rw [Bool.and_eq_true] at hfacts
  obtain ⟨hcomes, hans⟩ := hfacts
  have hreach : Reachable (nameServer literal (· = pvlistSite "y ALLOW\nz DENY FROM h\n"))
      (fun _ _ => True) s := reachable_of_run (fun _ _ _ _ => trivial) rfl hs
  cases h : s.pvExistTest literal deniedClient ['z'] .normal 1 with
  | error f =>
      rw [h] at hans
      cases hans
  | ok x =>
      obtain ⟨s', ret⟩ := x
      refine ⟨s, s', ret, hreach, h, ?_⟩
      refine (denyFrom_refuses_iff literal _ _ ["y ALLOW\n".toList] [] "z DENY FROM h\n".toList
        ['z'] ['h'] ⟨afInet, 0, InAddr.loopback⟩ rfl (by decide) denyFromLine_z rfl s hreach
        deniedClient ['z'] (reachesRules_of_eq_true hcomes) .normal 1 s' ret h).mpr
        ⟨by decide, fun ha => ?_⟩
      obtain ⟨p, hp, hm⟩ := ha.allowed
      have hrules : (["y ALLOW\n".toList] ++ []).flatMap (lineRules literal
          (pvlistSite "y ALLOW\nz DENY FROM h\n").aToIPAddr) = [Rule.allow ['y']] := by decide
      rw [hrules, List.mem_singleton] at hp
      cases hp
      cases hm

set_option maxRecDepth 10000 in
/-- A search is made for the client that the file denies the name. -/
theorem denyFrom_not_enforced : ¬ ∀ (rx : Regex) (cfg : Config) (lfile : List Char)
    (pre post : List Name) (line pattern hname : Name) (a : SockAddr), cfg.pvlist = some lfile →
    fgetsLines gateMaxPvlistLineLength lfile = pre ++ line :: post →
    DenyFromLine line pattern hname → cfg.aToIPAddr hname 0 = some a →
    ∀ s, Reachable (nameServer rx (· = cfg)) (fun _ _ => True) s → ∀ client pPVName,
      ReachesRules rx s a.sinAddr pattern client pPVName → ∀ search now s' ret,
      s.pvExistTest rx client pPVName search now = .ok (s', ret) → Refused s s' := by
  intro hall
  have hrun : (run literal (fun _ _ => true) (pvlistSite "z ALLOW\nz DENY FROM h\n") []).any (fun s =>
      comesToRules s && match s.pvExistTest literal deniedClient ['z'] .normal 1 with
        | .ok (s', _) => decide (s'.stats.broadcastDenied = 0 ∧ s.stats.broadcastDenied = 0)
        | .error _ => false) = true := by
    decide
  obtain ⟨s, hs, hfacts⟩ := (Option.any_eq_true _ _).mp hrun
  rw [Bool.and_eq_true] at hfacts
  obtain ⟨hcomes, hans⟩ := hfacts
  split at hans
  · rename_i s' ret h
    have hrefused := hall literal _ _ ["z ALLOW\n".toList] [] _ ['z'] ['h']
      ⟨afInet, 0, InAddr.loopback⟩ rfl (by decide) denyFromLine_z rfl s
      (reachable_of_run (fun _ _ _ _ => trivial) rfl hs) deniedClient ['z']
      (reachesRules_of_eq_true hcomes) .normal 1 s' ret h
    obtain ⟨hafter, hbefore⟩ := of_decide_eq_true hans
    have hcounted := hrefused.counted
    omega
  · cases hans

end CaNameserver
