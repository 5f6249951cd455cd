import CaNameserver.Channels

/-!
# Searches and callbacks

The channel access context is created with preemptive callbacks, and nothing keeps a callback from
running while the server thread is in the middle of a search.  A search is made in several steps:
the channel is created, told its IOC, and put on the pending list.  Here the thread takes these
steps one at a time, and the callback of the new channel may come between any two of them.

## The searches

There are three of them: that of a heartbeat at startup (`connectIocHeartbeatSteps`), that for a
client (`pvExistTestSteps`), and the repetition of a heartbeat's in the purge
(`processPendingListSteps`).  Each is a list of steps over one small instruction set (`Step`).
Taken at one go they are the searches of the atomic model (`connectIocHeartbeat_finish`,
`pvExistTest_finish`, `rebroadcast_finish`).

## When they commute

The heartbeat's callback needs the channel's IOC, and both callbacks take the channel's node off
the pending list; so they come too early while a step that sets these up is still to be taken.
`deliveredLast` is the condition that the callback waits for the last step, and that no other node
has the channel's name.  `Commutes` says what is wanted: the callback finds what it needs whenever
it may come, and once both parties have finished and the channel has come up, its node is gone and
the purge leaves the channel alone.

As long as the callback has not come the session is as if it were alone (`Session.Alone`): the
search with its rest is the search at one go.  At the end it is quiet (`Session.Quiet`), and the
callback then settles it (`Session.Settled`).  `reachable_session` says that there is nothing
else.

* `search_commutes`: all is well if the callback comes after the last step.
* `search_does_not_commute`: in general it is not: the node of a connected channel stays on the
  list, and the purge clears the channel.
-/

namespace CaNameserver

open CStr Fallible Transition

/-! ## The steps of a search -/

/-- What the server thread does at one go.  `k` is the place of a node on the list. -/
inductive Step where
  | caSearchAndConnect (name : Name) (callback : Callback)
  | caSetPuser (pI : Option IocId)
  | addNN (name : Name) (now : ℕ) (rebroadcast : Bool)
  | caClearChannel (c : Chid)
  | setChid (k : ℕ)
  | setOtime (k : ℕ) (time : ℕ)

/-- One step; `chd` is the thread's variable for the new channel. -/
def Step.run (st : Step) (s : Server) (chd : Option Chid) : Except Fault (Server × Option Chid) :=
  match st with
  | .caSearchAndConnect name callback =>
      .ok ({ s with ca := s.ca.search name callback }, some s.ca.nextChid)
  | .caSetPuser pI => do
      let c ← deref chd .chidUnset
      let ch ← s.ca.getChan c
      return ({ s with ca := s.ca.setChan c { ch with puser := pI } }, chd)
  | .addNN name now rebroadcast => do
      let c ← deref chd .chidUnset
      return ({ s with nameList := ⟨name, now, c, rebroadcast⟩ :: s.nameList }, chd)
  | .caClearChannel c => do
      let _ ← s.ca.getChan c
      return ({ s with ca := s.ca.clear c }, chd)
  | .setChid k => do
      let c ← deref chd .chidUnset
      return ({ s with nameList := s.nameList.modify k fun nn => { nn with chd := c } }, chd)
  | .setOtime k time =>
      .ok ({ s with nameList := s.nameList.modify k fun nn => { nn with otime := time } }, chd)

/-- The search of `connectIocHeartbeat`. -/
def connectIocHeartbeatSteps (i : IocId) (p : PIoc) (now : ℕ) : List Step :=
  [.caSearchAndConnect p.heartbeatName .WDprocessChangeConnectionEvent, .caSetPuser (some i),
    .addNN p.heartbeatName now true]

/-- The search of `pvExistTest`. -/
def pvExistTestSteps (shortPV : Name) (now : ℕ) : List Step :=
  [.caSearchAndConnect shortPV .processChangeConnectionEvent, .addNN shortPV now false]

/-- The rebroadcast of `processPendingList` for the node at the place `k`. -/
def processPendingListSteps (k : ℕ) (pNN : Namenode) (pI : Option IocId) (time : ℕ) : List Step :=
  [.caClearChannel pNN.chd, .caSearchAndConnect pNN.name .WDprocessChangeConnectionEvent,
    .setChid k, .setOtime k time, .caSetPuser pI]

/-! ## Thread and callback -/

/-- The server thread in the middle of a search. -/
structure Session where
  server : Server
  chd : Option Chid
  rest : List Step

/-- The two parties. -/
inductive Act where
  | thread
  | up (cn : Connection)

/-- One move of a party: the thread takes its next step, or the new channel comes up and its
callback runs. -/
def Session.next (rx : Regex) (a : Session) : Act → Option Session
  | .thread =>
      match a.rest with
      | [] => none
      | st :: rest =>
          match st.run a.server a.chd with
          | .ok (s, chd) => some ⟨s, chd, rest⟩
          | .error _ => none
  | .up cn =>
      match a.chd with
      | none => none
      | some c =>
          if enabled a.server (.up c cn) then
            match handle rx a.server (.up c cn) with
            | .ok s => some { a with server := s }
            | .error _ => none
          else none

/-- The beginnings of the three searches.  No heartbeat is searched for twice at startup, the
record name of a request has no field, and the node of a rebroadcast is a heartbeat's. -/
inductive Starts (s : Server) : Session → Prop
  | connectIocHeartbeat {i : IocId} {p : PIoc} (now : ℕ) (hp : s.dir.pIocs i = some p)
      (hpath : p.pathToList ≠ []) (hnew : ∀ c ch, s.ca.chans c = some ch → ch.puser ≠ some i) :
      Starts s ⟨s, none, connectIocHeartbeatSteps i p now⟩
  | pvExistTest {shortPV : Name} (now : ℕ) (hn : '.' ∉ shortPV) :
      Starts s ⟨s, none, pvExistTestSteps shortPV now⟩
  | processPendingList {pre post : List Namenode} {pNN : Namenode} {ch : Channel} (time : ℕ)
      (hl : s.nameList = pre ++ pNN :: post) (hch : s.ca.chans pNN.chd = some ch)
      (hreb : pNN.rebroadcast = true) :
      Starts s ⟨s, none, processPendingListSteps pre.length pNN ch.puser time⟩

/-- All interleavings of a search with the callback of its channel. -/
def interleaving (rx : Regex) : System Session Act where
  init a := ∃ s, s.dir.WF ∧ Tied s.dir s.nameList s.ca ∧ Starts s a
  step a m a' := a.next rx m = some a'

/-- What is left of the search, without interruption. -/
def Session.finish (a : Session) : Except Fault (Server × Option Chid) :=
  a.rest.foldlM (fun acc st => st.run acc.1 acc.2) (a.server, a.chd)

theorem Session.finish_thread {rx : Regex} {a a' : Session} (h : a.next rx .thread = some a') :
    a'.finish = a.finish := by
  unfold next at h
  cases hrest : a.rest with
  | nil =>
      simp only [hrest] at h
      cases h
  | cons st rest =>
      simp only [hrest] at h
      cases hrun : st.run a.server a.chd with
      | error =>
          simp only [hrun] at h
          cases h
      | ok r =>
          simp only [hrun] at h
          cases h
          rw [finish, finish, hrest, List.foldlM_cons, hrun]
          rfl

theorem Session.next_up {rx : Regex} {a a' : Session} {cn : Connection}
    (h : a.next rx (.up cn) = some a') : ∃ c s, a.chd = some c ∧
      enabled a.server (.up c cn) = true ∧ handle rx a.server (.up c cn) = .ok s ∧
      a' = { a with server := s } := by
  unfold next at h
  cases hchd : a.chd with
  | none =>
      simp only [hchd] at h
      cases h
  | some c =>
      simp only [hchd] at h
      split_ifs at h with hen
      split at h
      · rename_i s hs
        cases h
        exact ⟨c, s, rfl, hen, hs, rfl⟩
      · cases h

/-! ## Searches without interruption -/

theorem finish_connectIocHeartbeat (s : Server) (i : IocId) (p : PIoc) (now : ℕ) :
    Session.finish ⟨s, none, connectIocHeartbeatSteps i p now⟩ =
      .ok (s.connect i p now, some s.ca.nextChid) := by
  have hnew : (s.ca.search p.heartbeatName .WDprocessChangeConnectionEvent).getChan s.ca.nextChid =
      .ok ⟨p.heartbeatName, .WDprocessChangeConnectionEvent, none, none⟩ :=
    Ca.getChan_eq_ok_iff.mpr (by rw [Ca.search_chans, if_pos rfl])
  simp only [Session.finish, connectIocHeartbeatSteps, List.foldlM_cons, List.foldlM_nil, Step.run,
    bind, Except.bind, pure, Except.pure, deref_some, hnew, Ca.search_setChan]
  rfl

theorem finish_pvExistTest (s : Server) (shortPV : Name) (now : ℕ) :
    Session.finish ⟨s, none, pvExistTestSteps shortPV now⟩ =
      .ok ({ s with
        ca := s.ca.search shortPV .processChangeConnectionEvent
        nameList := ⟨shortPV, now, s.ca.nextChid, false⟩ :: s.nameList }, some s.ca.nextChid) :=
  rfl

theorem modify_length_append (pre post : List Namenode) (nn : Namenode) (f : Namenode → Namenode) :
    (pre ++ nn :: post).modify pre.length f = pre ++ f nn :: post := by
  induction pre with
  | nil => rfl
  | cons x pre ih => exact congrArg (x :: ·) ih

theorem finish_processPendingList {s : Server} {pre post : List Namenode} {pNN : Namenode}
    {ch : Channel} (time : ℕ) (hl : s.nameList = pre ++ pNN :: post)
    (hch : s.ca.chans pNN.chd = some ch) :
    Session.finish ⟨s, none, processPendingListSteps pre.length pNN ch.puser time⟩ =
      .ok ({ s with
        ca := s.ca.renew pNN.chd ⟨pNN.name, .WDprocessChangeConnectionEvent, ch.puser, none⟩
        nameList := pre ++ { pNN with chd := s.ca.nextChid, otime := time } :: post },
        some s.ca.nextChid) := by
  have hget : s.ca.getChan pNN.chd = .ok ch := Ca.getChan_eq_ok_iff.mpr hch
  have hnew : ((s.ca.clear pNN.chd).search pNN.name .WDprocessChangeConnectionEvent).getChan
      s.ca.nextChid = .ok ⟨pNN.name, .WDprocessChangeConnectionEvent, none, none⟩ :=
    Ca.getChan_eq_ok_iff.mpr ((Ca.search_chans ..).trans (if_pos rfl))
  simp only [Session.finish, processPendingListSteps, List.foldlM_cons, List.foldlM_nil, Step.run,
    bind, Except.bind, pure, Except.pure, deref_some, hget, hnew, Ca.clear_nextChid, hl,
    modify_length_append, Ca.clear_search_setChan]

/-- The handlers of the atomic model are these searches, taken at one go. -/
theorem connectIocHeartbeat_finish {now : ℕ} {search : CaStatus} {s s' : Server} {i : IocId}
    (h : connectIocHeartbeat now search s i = .ok s') : ∃ p, s.dir.pIocs i = some p ∧
      Session.finish ⟨s, none, connectIocHeartbeatSteps i p now⟩ =
        .ok (s', some s.ca.nextChid) := by
  obtain ⟨-, p, hp, rfl⟩ := connectIocHeartbeat_eq_ok h
  exact ⟨p, hp, finish_connectIocHeartbeat s i p now⟩

theorem pvExistTest_finish {rx : Regex} {s s' : Server} {client pPVName : Name} {now : ℕ}
    {search : CaStatus} {ret : Server.PvExistReturn}
    (h : s.pvExistTest rx client pPVName search now = .ok (s', ret))
    (hb : s'.stats.broadcast = s.stats.broadcast + 1) : ∃ t,
      Session.finish ⟨s, none, pvExistTestSteps (Server.recordName pPVName) now⟩ =
        .ok (t, some s.ca.nextChid) ∧ s' = { t with stats := s'.stats } := by
  cases Server.pvExistTest_answered h with
  | searched => exact ⟨_, finish_pvExistTest .., rfl⟩
  | _ => exact absurd hb (Nat.succ_ne_self _).symm

theorem rebroadcast_finish {s : Server} {a : Server.CaAnswers} {pg pg' : Server.Purge}
    {pNN : Namenode} {rest : List Namenode} (hstate : a.caState ≠ 3) (hclear : a.clear = .normal)
    (hsearch : a.search = .normal) (hca : s.ca = pg.ca)
    (hl : s.nameList = pg.kept.reverse ++ pNN :: rest)
    (h : Server.rebroadcast a pg pNN rest = .ok pg') : ∃ ch, s.ca.chans pNN.chd = some ch ∧
      Session.finish ⟨s, none, processPendingListSteps pg.kept.reverse.length pNN ch.puser a.time⟩ =
        .ok ({ s with ca := pg'.ca, nameList := pg'.nodes }, some s.ca.nextChid) := by
  simp only [Server.rebroadcast, bind_eq_ok_iff, Ca.getChan_eq_ok_iff, if_neg hstate, hclear,
    hsearch, Ca.clear_nextChid, Ca.clear_search_setChan] at h
  obtain ⟨ch, hch, h⟩ := h
  cases h
  rw [← hca] at hch
  refine ⟨ch, hch, ?_⟩
  rw [finish_processPendingList a.time hl hch, hca]
  rfl

/-- A search leaves an open channel that is not connected yet, and keeps channels and nodes
tied. -/
theorem Starts.finish {s t : Server} {a : Session} {c : Option Chid} (h : Starts s a)
    (ht : Tied s.dir s.nameList s.ca) (hfin : a.finish = .ok (t, c)) :
    t.dir = s.dir ∧ Tied t.dir t.nameList t.ca ∧
      ∃ x ch, c = some x ∧ t.ca.chans x = some ch ∧ ch.server = none := by
  cases h with
  | @connectIocHeartbeat i p now hp hpath hnew =>
      rw [finish_connectIocHeartbeat] at hfin
      cases hfin
      refine ⟨rfl, ?_, s.ca.nextChid, ⟨p.heartbeatName, .WDprocessChangeConnectionEvent, some i,
        none⟩, rfl, ?_, rfl⟩
      · exact ht.connect hp hpath hnew now
      · rw [Server.connect_chans, if_pos rfl]
  | pvExistTest now hn =>
      rw [finish_pvExistTest] at hfin
      cases hfin
      exact ⟨rfl, ht.search hn now, s.ca.nextChid, _, rfl,
        by rw [Ca.search_chans, if_pos rfl], rfl⟩
  | @processPendingList pre post pNN ch time hl hch hreb =>
      rw [finish_processPendingList time hl hch] at hfin
      cases hfin
      rw [hl] at ht
      exact ⟨rfl, ht.renew hch hreb, s.ca.nextChid, _, rfl, by rw [Ca.renew_chans, if_pos rfl], rfl⟩

/-- The searches of the server's runs are among these. -/
theorem interleaving_of_reachable {rx : Regex} {start : Config → Prop}
    {ok : Server → Event → Prop} {s : Server} {a : Session}
    (h : Reachable (nameServer rx start) ok s) (ha : Starts s a) : (interleaving rx).init a := by
  obtain ⟨hwf, ht, -⟩ := reachable_tied_induct (I := fun _ => True) h (fun _ _ _ _ _ => trivial)
    fun _ _ _ _ _ _ _ _ => trivial
  exact ⟨s, hwf, ht, ha⟩

/-! ## The property -/

/-- The callback comes after the thread's last step, when the list has no other node of the
channel's name. -/
def deliveredLast (a : Session) : Act → Prop
  | .thread => True
  | .up _ => a.rest = [] ∧ ∀ c ch, a.chd = some c → a.server.ca.chans c = some ch →
      a.server.nameList.countP (·.name = ch.name) ≤ 1

/-- Search and callback commute: the callback of a heartbeat, whenever it may come, finds the IOC;
and once both parties have finished, the name of a connected channel is not on the list, and no
purge clears the channel. -/
structure Commutes (ok : Session → Act → Prop) (a : Session) : Prop where
  finds : ∀ c cn ch, a.chd = some c → a.server.ca.chans c = some ch → ch.server = none →
    ok a (.up cn) → ch.IsHeartbeat →
    ∃ i p, ch.puser = some i ∧ a.server.dir.pIocs i = some p ∧ ch.name = p.heartbeatName
  settled : a.rest = [] → ∀ c ch, a.chd = some c → a.server.ca.chans c = some ch →
    ch.server ≠ none → ∀ nn ∈ a.server.nameList, nn.name ≠ ch.name
  spared : a.rest = [] → ∀ c ch, a.chd = some c → a.server.ca.chans c = some ch →
    ch.server ≠ none → ∀ now tooLong answers s',
      a.server.processPendingList now tooLong answers = .ok s' → s'.ca.chans c = some ch

/-- A finished search whose channel has not come up. -/
structure Session.Quiet (a : Session) : Prop where
  wf : a.server.dir.WF
  tied : Tied a.server.dir a.server.nameList a.server.ca
  waiting : ∃ c ch, a.chd = some c ∧ a.server.ca.chans c = some ch ∧ ch.server = none

/-- A finished search whose channel has come up and whose node is gone. -/
structure Session.Settled (a : Session) : Prop where
  fresh : a.server.ca.Fresh
  connected : ∃ c ch, a.chd = some c ∧ a.server.ca.chans c = some ch ∧ ch.server ≠ none ∧
    ∀ nn ∈ a.server.nameList, nn.name ≠ ch.name ∧ nn.chd ≠ c

/-- The callback of a channel whose name is on the list once. -/
theorem Session.Quiet.up {rx : Regex} {a a' : Session} {cn : Connection} (h : a.Quiet)
    (hok : deliveredLast a (.up cn)) (hnext : a.next rx (.up cn) = some a') : a'.Settled := by
  obtain ⟨c, s, hchd, hen, hs, rfl⟩ := Session.next_up hnext
  obtain ⟨c', ch, hchd', hch, -⟩ := h.waiting
  rw [hchd] at hchd'
  cases hchd'
  have hcount := hok.2 c ch hchd hch
  -- the node that goes is the channel's, and the others are not
  have hgone : ∀ nn ∈ removePending ch.name a.server.nameList, nn.name ≠ ch.name ∧ nn.chd ≠ c := by
    intro nn hnn
    have hname := ne_of_mem_removePending_of_countP hcount hnn
    refine ⟨hname, ?_⟩
    rintro rfl
    have hmem := (removePending_sublist _ _).subset hnn
    exact hname (h.tied.node nn hmem ch hch).1.symm
  have hfresh : ∀ ch', (a.server.ca.setChan c ch').Fresh := by
    intro ch' x chx hx
    rw [Ca.setChan_chans] at hx
    split_ifs at hx with hxc
    · exact hxc ▸ h.tied.fresh c ch hch
    · exact h.tied.fresh x chx hx
  cases handle_handled h.wf hen hs with
  | heartbeatUp hch' _ _ _ _ =>
      rw [hch] at hch'
      cases hch'
      exact ⟨hfresh _, c, { ch with server := some cn.server }, hchd,
        by rw [Ca.setChan_chans, if_pos rfl], Option.some_ne_none _, hgone⟩
  | @learnedUp _ _ _ ch' _ _ _ hch' _ hcb hnew _ =>
      rw [hch] at hch'
      cases hch'
      rw [cutAt_eq_self (h.tied.learned c ch hch hcb)]
      refine ⟨hfresh _, c, ch', hchd, by rw [Ca.setChan_chans, if_pos rfl], ?_, ?_⟩
      · rw [hnew.2.2]
        exact Option.some_ne_none _
      · rw [hnew.1]
        exact hgone

/-- Nothing has come between the steps of a search. -/
def Session.Alone (a : Session) : Prop :=
  ∃ s a₀, s.dir.WF ∧ Tied s.dir s.nameList s.ca ∧ Starts s a₀ ∧ a.finish = a₀.finish

theorem Session.Alone.quiet {a : Session} (h : a.Alone) (hrest : a.rest = []) : a.Quiet := by
  obtain ⟨s, a₀, hwf, ht, hstart, hfin⟩ := h
  have hdone : a₀.finish = .ok (a.server, a.chd) := by
    rw [← hfin, Session.finish, hrest]
    rfl
  obtain ⟨hdir, ht', hwait⟩ := hstart.finish ht hdone
  exact ⟨hdir ▸ hwf, ht', hwait⟩

/-- Once both parties have finished, there is no move left. -/
theorem Session.Settled.next_eq_none {a : Session} (h : a.Settled) (hrest : a.rest = [])
    (rx : Regex) (m : Act) : a.next rx m = none := by
  refine Option.eq_none_iff_forall_not_mem.mpr fun a' hnext => ?_
  replace hnext : a.next rx m = some a' := hnext
  cases m with
  | thread =>
      simp only [Session.next, hrest] at hnext
      cases hnext
  | up cn =>
      obtain ⟨c, s, hchd, hen, -, -⟩ := Session.next_up hnext
      obtain ⟨c', ch, hchd', hch, hne, -⟩ := h.connected
      rw [hchd] at hchd'
      cases hchd'
      obtain ⟨ch', hch', hnone⟩ := enabled_up hen
      rw [hch] at hch'
      cases hch'
      exact hne hnone

/-- In a run in which the callback waits, either the search is still to be finished as if it were
alone, or everything is settled. -/
theorem reachable_session {rx : Regex} {a : Session}
    (h : Reachable (interleaving rx) deliveredLast a) :
    a.Alone ∨ (a.rest = [] ∧ a.Settled) := by
  refine h.invariant (I := fun a => a.Alone ∨ (a.rest = [] ∧ a.Settled)) ?_ ?_
  · rintro a ⟨s, hwf, ht, hstart⟩
    exact Or.inl ⟨s, a, hwf, ht, hstart, rfl⟩
  · rintro a m a' (halone | ⟨hrest, hset⟩) hok hnext
    · cases m with
      | thread =>
          obtain ⟨s, a₀, hwf, ht, hstart, hfin⟩ := halone
          exact Or.inl ⟨s, a₀, hwf, ht, hstart, (Session.finish_thread hnext).trans hfin⟩
      | up cn =>
          obtain ⟨_, _, -, -, -, rfl⟩ := Session.next_up hnext
          exact Or.inr ⟨hok.1, (halone.quiet hok.1).up hok hnext⟩
    · change a.next rx m = some a' at hnext
      rw [hset.next_eq_none hrest] at hnext
      cases hnext

/-- **Search and callback commute** where the callback waits for the search. -/
theorem search_commutes (rx : Regex) (a : Session)
    (h : Reachable (interleaving rx) deliveredLast a) : Commutes deliveredLast a := by
  rcases reachable_session h with halone | ⟨hrest, hset⟩
  · refine ⟨fun c cn ch hchd hch _ hok hhb => ?_, fun hrest c ch hchd hch hne => ?_,
      fun hrest c ch hchd hch hne => ?_⟩
    · obtain ⟨i, name, path, hi, hsite, -, hname⟩ := (halone.quiet hok.1).tied.owned c ch hch hhb
      obtain ⟨p, hp, rfl, -⟩ := Dir.site_eq_some_iff.mp hsite
      exact ⟨i, p, hi, hp, hname⟩
    all_goals
      obtain ⟨c', ch', hchd', hch', hnone⟩ := (halone.quiet hrest).waiting
      rw [hchd] at hchd'
      cases hchd'
      rw [hch] at hch'
      cases hch'
      exact absurd hnone hne
  · obtain ⟨c', ch', hchd', hch', hne', hnode⟩ := hset.connected
    have hsame : ∀ c ch, a.chd = some c → a.server.ca.chans c = some ch → c = c' ∧ ch = ch' := by
      intro c ch hchd hch
      rw [hchd] at hchd'
      cases hchd'
      rw [hch] at hch'
      exact ⟨rfl, Option.some.inj hch'⟩
    refine ⟨fun c cn ch hchd hch hnone => ?_, fun _ c ch hchd hch _ nn hnn => ?_,
      fun _ c ch hchd hch _ now tooLong answers s' hpurge => ?_⟩
    · obtain ⟨-, rfl⟩ := hsame c ch hchd hch
      exact absurd hnone hne'
    · obtain ⟨-, rfl⟩ := hsame c ch hchd hch
      exact (hnode nn hnn).1
    · obtain ⟨rfl, -⟩ := hsame c ch hchd hch
      exact Server.processPendingList_spares hpurge hset.fresh hch
        fun nn hnn _ => (hnode nn hnn).2

/-! ## Concrete interleavings -/

/-- The moves `ms`, one after the other, as long as they meet `ok`. -/
def Session.moves (rx : Regex) (ok : Session → Act → Bool) (a : Session) :
    List Act → Option Session
  | [] => some a
  | m :: ms => if ok a m then (a.next rx m).bind fun a' => a'.moves rx ok ms else none

theorem run_of_moves {rx : Regex} {okb : Session → Act → Bool} {ok : Session → Act → Prop}
    {a a' : Session} {ms : List Act} (hok : ∀ a m, okb a m = true → ok a m)
    (h : a.moves rx okb ms = some a') : Run (interleaving rx) ok a ms a' := by
  induction ms generalizing a with
  | nil =>
      cases h
      exact Run.nil _
  | cons m ms ih =>
      rw [Session.moves] at h
      split_ifs at h with hm
      obtain ⟨a₁, ha₁, hrest⟩ := Option.bind_eq_some_iff.mp h
      exact Run.cons (hok a m hm) ha₁ (ih hrest)

/-- A test for `deliveredLast`. -/
def deliveredLastB (a : Session) : Act → Bool
  | .thread => true
  | .up _ => a.rest.isEmpty && (a.chd.bind a.server.ca.chans).all fun ch =>
      decide (a.server.nameList.countP (·.name = ch.name) ≤ 1)

theorem deliveredLast_of_eq_true {a : Session} {m : Act} (h : deliveredLastB a m = true) :
    deliveredLast a m := by
  cases m with
  | thread => trivial
  | up cn =>
      rw [deliveredLastB, Bool.and_eq_true, List.isEmpty_iff] at h
      refine ⟨h.1, fun c ch hchd hch => ?_⟩
      have hcount := h.2
      rw [hchd, Option.bind_some, hch, Option.all_some] at hcount
      exact of_decide_eq_true hcount

/-- A client's search, with the callback where the list puts it. -/
def searchZ (s : Server) : Session := ⟨s, none, pvExistTestSteps ['z'] 1⟩

set_option maxRecDepth 10000 in
theorem search_commutes_request : ∃ a, Reachable (interleaving literal) deliveredLast a ∧
    a.rest = [] ∧ (a.chd.bind a.server.ca.chans).any (·.server.isSome) = true ∧
    Commutes deliveredLast a := by
  have hrun : (run literal (fun _ _ => true) oneIoc []).any (fun s =>
      ((searchZ s).moves literal deliveredLastB [.thread, .thread,
        .up (connectionTo "b:2" 2 "")]).any fun a => a.rest.isEmpty &&
        (a.chd.bind a.server.ca.chans).any (·.server.isSome)) = true := by decide
  obtain ⟨s, hs, hrun⟩ := (Option.any_eq_true _ _).mp hrun
  obtain ⟨a, ha, hup⟩ := (Option.any_eq_true _ _).mp hrun
  rw [Bool.and_eq_true, List.isEmpty_iff] at hup
  have hreach : Reachable (interleaving literal) deliveredLast a :=
    ⟨searchZ s, _, interleaving_of_reachable (reachable_of_eq_some hs)
      (.pvExistTest 1 (by decide)),
      run_of_moves (fun _ _ => deliveredLast_of_eq_true) ha⟩
  exact ⟨a, hreach, hup.1, hup.2, search_commutes literal a hreach⟩

set_option maxRecDepth 10000 in
/-- The callback comes before the node is on the list: the node of a connected channel stays
there. -/
theorem search_does_not_commute : ¬ ∀ (rx : Regex) (a : Session),
    Reachable (interleaving rx) (fun _ _ => True) a → Commutes (fun _ _ => True) a := by
  intro h
  have hrun : (run literal (fun _ _ => true) oneIoc []).any (fun s =>
      ((searchZ s).moves literal (fun _ _ => true) [.thread, .up (connectionTo "b:2" 2 ""),
        .thread]).any fun a => a.rest.isEmpty && a.chd.any fun c => (a.server.ca.chans c).any
          fun ch => ch.server.isSome && a.server.nameList.any fun nn =>
            decide (nn.name = ch.name)) = true := by decide
  obtain ⟨s, hs, hrun⟩ := (Option.any_eq_true _ _).mp hrun
  obtain ⟨a, ha, hbad⟩ := (Option.any_eq_true _ _).mp hrun
  rw [Bool.and_eq_true, List.isEmpty_iff] at hbad
  obtain ⟨hrest, hbad⟩ := hbad
  obtain ⟨c, hchd, hbad⟩ := (Option.any_eq_true _ _).mp hbad
  obtain ⟨ch, hch, hbad⟩ := (Option.any_eq_true _ _).mp hbad
  rw [Bool.and_eq_true, List.any_eq_true, Option.isSome_iff_ne_none] at hbad
  obtain ⟨hup, nn, hnn, hname⟩ := hbad
  have hreach : Reachable (interleaving literal) (fun _ _ => True) a :=
    ⟨searchZ s, _, interleaving_of_reachable (reachable_of_eq_some hs)
      (.pvExistTest 1 (by decide)),
      run_of_moves (fun _ _ _ => trivial) ha⟩
  exact (h literal a hreach).settled hrest c ch hchd hch hup nn hnn (of_decide_eq_true hname)

end CaNameserver
