import CaNameserver.Channels

/-!
# One search for each learned name

`pvExistTest` searches for a name that is neither in the PV table nor on the pending list.  So
there is one open channel for a name as long as every open learned channel is accounted for: by a
node of the pending list until it connects, by an entry of the table from then on.

## Losing track

Two events can lose track of a channel.

* A reload deletes the table's entry of a name that was learned after the old list had brought it
  in, if the new list does not have the name.
* A heartbeat's connection unlinks the first node of its name, which is a learned channel's if the
  heartbeat's name has been searched for.

In both cases the channel stays open, and the next request for the name opens another one.
`learnedKept` says of a heartbeat's connection that neither happens, in terms of the state before
it: the node of its name that comes first is not a learned channel's, and every name that the
removal will free and that has a connected learned channel is on the new list.

## The invariant

`OneSearch` has the uniqueness of learned channels by name, and the two ways of being accounted
for.  A search that is made finds no open channel of the name, for it would be pending or in the
table (`OneSearch.search`); a connection takes the node away and enters the name (`learnedUp`);
the end of a connection closes the channel with the entry (`learnedDown`); the purge closes what
it gives up (`purgeStep`).  It needs that the library's calls succeed: a channel that cannot be
cleared is left open without its node.

* `one_search`: in the runs that meet the condition there is at most one open channel for each
  learned name.
* `one_search_fails`: a run with two.
-/

namespace CaNameserver

open CStr Fallible Transition

/-- The library's calls succeed: channels are cleared and searched for, and an open channel is
never reported to be closed. -/
def callsSucceed : Event → Prop
  | .request _ _ search _ => search = .normal
  | .purge _ _ answers =>
      ∀ a ∈ answers, a.caState ≠ 3 ∧ a.clear = .normal ∧ a.search = .normal
  | _ => True

/-- The connection of a heartbeat loses track of no learned channel: it takes no pending one's node
off the list, and a reload names again what has been learned of the old list. -/
def learnedKept (s : Server) : Event → Prop
  | .up c cn => ∀ ch i p, s.ca.chans c = some ch → ch.IsHeartbeat → ch.puser = some i →
      s.dir.pIocs i = some p →
      (∀ nn x, s.nameList.find? (·.name = ch.name) = some nn → s.ca.chans nn.chd = some x →
        x.IsLearned → x.server ≠ none) ∧
      (p.status = 2 → ∀ x chx e, s.ca.chans x = some chx → chx.IsLearned → chx.server ≠ none →
        s.dir.stringResTbl chx.name = some e → e ∈ p.pvEList → chx.name ≠ p.heartbeatName →
        chx.name ∈ signals cn.fs p.pathToList)
  | _ => True

/-- Every open learned channel is accounted for. -/
structure OneSearch (d : Dir) (l : List Namenode) (ca : Ca) : Prop where
  unique : ∀ c c' ch ch', ca.chans c = some ch → ca.chans c' = some ch' → ch.IsLearned →
    ch'.IsLearned → ch.name = ch'.name → c = c'
  pending : ∀ c ch, ca.chans c = some ch → ch.IsLearned → ch.server = none →
    ∃ nn ∈ l, nn.chd = c
  connected : ∀ c ch, ca.chans c = some ch → ch.IsLearned → ch.server ≠ none →
    d.stringResTbl ch.name ≠ none

namespace OneSearch

variable {d d' : Dir} {l l' : List Namenode} {ca ca' : Ca}

/-- No new learned channel, and those there are accounted for as they were. -/
theorem shrink (h : OneSearch d l ca)
    (hold : ∀ c ch, ca'.chans c = some ch → ch.IsLearned → ca.chans c = some ch)
    (hnode : ∀ nn ∈ l, ∀ ch, ca'.chans nn.chd = some ch → ch.IsLearned → ch.server = none →
      nn ∈ l')
    (htab : ∀ c ch, ca'.chans c = some ch → ch.IsLearned → ch.server ≠ none →
      d.stringResTbl ch.name ≠ none → d'.stringResTbl ch.name ≠ none) : OneSearch d' l' ca' where
  unique := by
    intro c c' ch ch' hch hch' hl hl'
    exact h.unique c c' ch ch' (hold c ch hch hl) (hold c' ch' hch' hl') hl hl'
  pending := by
    intro c ch hch hl hserver
    obtain ⟨nn, hnn, rfl⟩ := h.pending c ch (hold c ch hch hl) hl hserver
    exact ⟨nn, hnode nn hnn ch hch hl hserver, rfl⟩
  connected := by
    intro c ch hch hl hserver
    exact htab c ch hch hl hserver (h.connected c ch (hold c ch hch hl) hl hserver)

/-- Writing to a heartbeat's channel does not touch the learned ones. -/
theorem of_setChan_heartbeat {c x : Chid} {ch' chx : Channel} (hhb : ch'.IsHeartbeat)
    (hx : (ca.setChan c ch').chans x = some chx) (hl : chx.IsLearned) :
    ca.chans x = some chx := by
  rw [Ca.setChan_chans] at hx
  split_ifs at hx
  · cases hx
    exact absurd hhb (Channel.not_isHeartbeat hl)
  · exact hx

theorem purgeStep {a : Server.CaAnswers} (h : OneSearch d l ca) (ht : Tied d l ca)
    (hok : a.caState ≠ 3 ∧ a.clear = .normal) (hs : Server.PurgeStep a ca l l' ca') :
    OneSearch d l' ca' := by
  cases hs with
  | same => exact h
  | lost hch hreb hs =>
      refine h.shrink (fun c ch hc _ => ?_) (fun nn hnn _ _ _ _ => hnn) fun _ _ _ _ _ h => h
      rw [Ca.clear_chans] at hc
      split_ifs at hc
      exact hc
  | @renewed pre post pNN ch hch hreb =>
      have hhb := (ht.node pNN (by simp) ch hch).2.mpr hreb
      have hold : ∀ c chx, (ca.renew pNN.chd ⟨pNN.name, .WDprocessChangeConnectionEvent,
          ch.puser, none⟩).chans c = some chx → chx.IsLearned →
          c ≠ pNN.chd ∧ ca.chans c = some chx := by
        intro c chx hc hl
        rw [Ca.renew_chans] at hc
        split_ifs at hc with hnew hcc
        · cases hc
          exact absurd rfl (Channel.not_isHeartbeat hl)
        · exact ⟨hcc, hc⟩
      refine h.shrink (fun c chx hc hl => (hold c chx hc hl).2) ?_ fun _ _ _ _ _ h => h
      intro nn hnn chx hc hl _
      -- the node in which the chid is replaced is the heartbeat's
      have hne : nn ≠ pNN := by
        rintro rfl
        exact (hold _ chx hc hl).1 rfl
      exact mem_middle_iff.mpr (Or.inr ((mem_middle_iff.mp hnn).resolve_left hne))
  | @expired pre post pNN ch hch hreb =>
      have hold : ∀ c chx, (ca.clear pNN.chd).chans c = some chx →
          c ≠ pNN.chd ∧ ca.chans c = some chx := by
        intro c chx hc
        rw [Ca.clear_chans] at hc
        split_ifs at hc with hcc
        exact ⟨hcc, hc⟩
      refine h.shrink (fun c chx hc _ => (hold c chx hc).2) ?_ fun _ _ _ _ _ h => h
      intro nn hnn chx hc _ _
      have hne : nn ≠ pNN := by
        rintro rfl
        exact (hold _ chx hc).1 rfl
      exact (mem_middle_iff.mp hnn).resolve_left hne
  | forgotten _ _ hfail =>
      rcases hfail with hfail | hfail
      · exact absurd hfail hok.1
      · rw [hok.2] at hfail
        cases hfail

variable {s : Server} {c : Chid} {ch : Channel} {i : IocId}

theorem heartbeatUp {cn : Connection} {d' : Dir} (h : OneSearch s.dir s.nameList s.ca)
    (hwf : s.dir.WF) (ht : Tied s.dir s.nameList s.ca) (hkept : learnedKept s (.up c cn))
    (hch : s.ca.chans c = some ch) (hcb : ch.IsHeartbeat) (hpuser : ch.puser = some i)
    (hd : s.dir.Reloaded i cn d') :
    OneSearch d' (removePending ch.name s.nameList)
      (s.ca.setChan c { ch with server := some cn.server }) := by
  have hhb : Channel.IsHeartbeat { ch with server := some cn.server } := hcb
  obtain ⟨p, hp⟩ := hd.pIocs
  obtain ⟨hnode, hlist⟩ := hkept ch i p hch hcb hpuser hp
  obtain ⟨j, name, path, hj, hsite, hpath, -⟩ := ht.owned c ch hch hcb
  rw [hpuser] at hj
  cases hj
  obtain ⟨q, hq, -, hpathq⟩ := Dir.site_eq_some_iff.mp hsite
  rw [hp] at hq
  cases hq
  refine h.shrink (fun x chx hx hl => OneSearch.of_setChan_heartbeat hhb hx hl) ?_ ?_
  · intro nn hnn chx hx hl hnone
    have hx' := OneSearch.of_setChan_heartbeat hhb hx hl
    exact mem_removePending_of_find? hnn fun hfirst => hnode nn chx hfirst hx' hl hnone
  · intro x chx hx hl hconn hn
    have hx' := OneSearch.of_setChan_heartbeat hhb hx hl
    exact hd.mem_of_kept hp (hpathq ▸ hpath) hn
      (fun hst e he => hlist hst x chx e hx' hl hconn he) hwf

theorem learnedUp {cn : Connection} {ch' : Channel} {p : PIoc} {d' : Dir}
    (h : OneSearch s.dir s.nameList s.ca) (ht : Tied s.dir s.nameList s.ca)
    (hch : s.ca.chans c = some ch) (hcb : ch.IsLearned)
    (hch' : ch'.name = ch.name ∧ ch'.callback = ch.callback ∧ ch'.server = some cn.server)
    (hd : s.dir.Learned cn ch.name i p d') :
    OneSearch d' (removePending ch.name s.nameList) (s.ca.setChan c ch') := by
  have hold : ∀ x chx, (s.ca.setChan c ch').chans x = some chx → chx.IsLearned →
      (x = c ∧ chx = ch') ∨ (x ≠ c ∧ s.ca.chans x = some chx) := by
    intro x chx hx hl
    rw [Ca.setChan_chans] at hx
    split_ifs at hx with hxc
    · cases hx
      exact Or.inl ⟨hxc, rfl⟩
    · exact Or.inr ⟨hxc, hx⟩
  -- every channel has the name it had
  have hnamed : ∀ x chx, (s.ca.setChan c ch').chans x = some chx → chx.IsLearned →
      ∃ chx₀, s.ca.chans x = some chx₀ ∧ chx₀.IsLearned ∧ chx₀.name = chx.name := by
    intro x chx hx hl
    rcases hold x chx hx hl with ⟨rfl, rfl⟩ | ⟨-, hx'⟩
    · exact ⟨ch, hch, hcb, hch'.1.symm⟩
    · exact ⟨chx, hx', hl, rfl⟩
  refine ⟨?_, ?_, ?_⟩
  · intro x y chx chy hx hy hlx hly heq
    obtain ⟨chx₀, hx₀, hlx₀, hnx⟩ := hnamed x chx hx hlx
    obtain ⟨chy₀, hy₀, hly₀, hny⟩ := hnamed y chy hy hly
    exact h.unique x y chx₀ chy₀ hx₀ hy₀ hlx₀ hly₀ (by rw [hnx, hny, heq])
  · intro x chx hx hl hnone
    rcases hold x chx hx hl with ⟨-, rfl⟩ | ⟨hxc, hx'⟩
    · rw [hch'.2.2] at hnone
      cases hnone
    · obtain ⟨nn, hnn, hchd⟩ := h.pending x chx hx' hl hnone
      refine ⟨nn, mem_removePending_of_ne hnn fun hname => hxc ?_, hchd⟩
      -- the node that goes is not that of another channel: it would have the same name
      have hnn' := (ht.node nn hnn chx (hchd ▸ hx')).1
      exact h.unique x c chx ch hx' hch hl hcb (hnn'.trans hname)
  · intro x chx hx hl hconn
    rcases hold x chx hx hl with ⟨-, rfl⟩ | ⟨-, hx'⟩
    · rw [hch'.1]
      exact hd.mem
    · exact hd.mono (h.connected x chx hx' hl hconn)

theorem learnedDown {e : PvEId} (h : OneSearch s.dir s.nameList s.ca)
    (hch : s.ca.chans c = some ch) (hcb : ch.IsLearned) :
    OneSearch ((s.dir.tblRemove ch.name).deletePvE e) s.nameList (s.ca.clear c) := by
  have hold : ∀ x chx, (s.ca.clear c).chans x = some chx → x ≠ c ∧ s.ca.chans x = some chx := by
    intro x chx hx
    rw [Ca.clear_chans] at hx
    split_ifs at hx with hxc
    exact ⟨hxc, hx⟩
  refine h.shrink (fun x chx hx _ => (hold x chx hx).2) (fun nn hnn _ _ _ _ => hnn) ?_
  intro x chx hx hl _ hn
  obtain ⟨hxc, hx'⟩ := hold x chx hx
  have hne : chx.name ≠ ch.name := fun heq => hxc (h.unique x c chx ch hx' hch hl hcb heq)
  simpa [Dir.deletePvE, Dir.tblRemove, hne] using hn

/-- A search that is made finds no open channel of the name. -/
theorem search {n : Name} (h : OneSearch d l ca) (ht : Tied d l ca) (he : d.stringResTbl n = none)
    (hpend : ∀ nn ∈ l, nn.name ≠ n) (now : ℕ) :
    OneSearch d (⟨n, now, ca.nextChid, false⟩ :: l)
      (ca.search n .processChangeConnectionEvent) := by
  have hnone : ∀ x chx, ca.chans x = some chx → chx.IsLearned → chx.name ≠ n := by
    intro x chx hx hl hname
    by_cases hserver : chx.server = none
    · obtain ⟨nn, hnn, hchd⟩ := h.pending x chx hx hl hserver
      have hnn' := (ht.node nn hnn chx (hchd ▸ hx)).1
      exact hpend nn hnn (hnn'.symm.trans hname)
    · exact h.connected x chx hx hl hserver (hname ▸ he)
  have hold : ∀ x chx, (ca.search n .processChangeConnectionEvent).chans x = some chx →
      (x = ca.nextChid ∧ chx.name = n ∧ chx.server = none) ∨ ca.chans x = some chx := by
    intro x chx hx
    rw [Ca.search_chans] at hx
    split_ifs at hx with hxc
    · cases hx
      exact Or.inl ⟨hxc, rfl, rfl⟩
    · exact Or.inr hx
  refine ⟨?_, ?_, ?_⟩
  · intro x y chx chy hx hy hlx hly heq
    rcases hold x chx hx with ⟨rfl, hnx, -⟩ | hx'
    · rcases hold y chy hy with ⟨rfl, -, -⟩ | hy'
      · rfl
      · exact absurd (heq.symm.trans hnx) (hnone y chy hy' hly)
    · rcases hold y chy hy with ⟨rfl, hny, -⟩ | hy'
      · exact absurd (heq.trans hny) (hnone x chx hx' hlx)
      · exact h.unique x y chx chy hx' hy' hlx hly heq
  · intro x chx hx hl hserver
    rcases hold x chx hx with ⟨rfl, -, -⟩ | hx'
    · exact ⟨_, List.mem_cons_self .., rfl⟩
    · obtain ⟨nn, hnn, hchd⟩ := h.pending x chx hx' hl hserver
      exact ⟨nn, List.mem_cons_of_mem _ hnn, hchd⟩
  · intro x chx hx hl hserver
    rcases hold x chx hx with ⟨-, -, hnone'⟩ | hx'
    · exact absurd hnone' hserver
    · exact h.connected x chx hx' hl hserver

end OneSearch

theorem Handled.oneSearch {rx : Regex} {s s' : Server} {e : Event} (hh : Handled rx s e s')
    (hwf : s.dir.WF) (ht : Tied s.dir s.nameList s.ca) (h : OneSearch s.dir s.nameList s.ca)
    (hcalls : callsSucceed e) (hkept : learnedKept s e) :
    OneSearch s'.dir s'.nameList s'.ca := by
  cases hh with
  | heartbeatUp hch _ hcb hpuser hd => exact h.heartbeatUp hwf ht hkept hch hcb hpuser hd
  | @heartbeatDown c now ch i p hch _ hcb =>
      have hhb : Channel.IsHeartbeat { ch with server := none } := hcb
      exact h.shrink (fun x chx hx hl => OneSearch.of_setChan_heartbeat hhb hx hl)
        (fun nn hnn _ _ _ _ => List.mem_cons_of_mem _ hnn) fun _ _ _ _ _ hn => hn
  | @learnedUp c cn ch _ _ _ _ hch _ hcb hch' hd =>
      have hname : cutAt '.' ch.name = ch.name := cutAt_eq_self (ht.learned c ch hch hcb)
      rw [hname] at hd ⊢
      exact h.learnedUp ht hch hcb hch' hd
  | learnedDown hch _ hcb => exact h.learnedDown hch hcb
  | learnedDownFree =>
      refine h.shrink (fun x chx hx _ => ?_) (fun nn hnn _ _ _ _ => hnn) fun _ _ _ _ _ hn => hn
      rw [Ca.clear_chans] at hx
      split_ifs at hx
      exact hx
  | @request _ _ _ now _ _ ha =>
      cases ha with
      | searched _ he _ hpend => exact h.search ht he hpend now
      | _ => exact h
  | purge hpurge hframe =>
      rw [hframe.dir]
      refine (Server.processPendingList_induct
        (P := fun l ca => Tied s.dir l ca ∧ OneSearch s.dir l ca) hpurge ⟨ht, h⟩ ?_).2
      intro a ha ca l l' ca' hP hs
      obtain ⟨hstate, hclear, -⟩ := hcalls a ha
      exact ⟨hP.1.purgeStep hs, hP.2.purgeStep hP.1 ⟨hstate, hclear⟩ hs⟩
  | report => exact h

theorem startup_oneSearch {rx : Regex} {cfg : Config} {s : Server} (h : startup rx cfg = .ok s) :
    OneSearch s.dir s.nameList s.ca := by
  have hnone : ∀ c ch, s.ca.chans c = some ch → ¬ch.IsLearned := fun c ch hch hl =>
    Channel.not_isHeartbeat hl (startup_chans h hch).1
  exact ⟨fun c _ ch _ hch _ hl => absurd hl (hnone c ch hch),
    fun c ch hch hl => absurd hl (hnone c ch hch), fun c ch hch hl => absurd hl (hnone c ch hch)⟩

/-- **One search for each learned name.**  In every run in which the library's calls succeed and
the connections of heartbeats lose track of no learned channel, two open channels that
`pvExistTest` has created for one name are the same. -/
theorem one_search (rx : Regex) (start : Config → Prop) (s : Server)
    (h : Reachable (nameServer rx start) (fun s e => callsSucceed e ∧ learnedKept s e) s)
    (c c' : Chid) (ch ch' : Channel) (hch : s.ca.chans c = some ch)
    (hch' : s.ca.chans c' = some ch') (hl : ch.IsLearned) (hl' : ch'.IsLearned)
    (hname : ch.name = ch'.name) : c = c' := by
  have hall := reachable_tied_induct (I := fun s => OneSearch s.dir s.nameList s.ca) h
    (fun _ _ _ hs _ => startup_oneSearch hs)
    fun _ _ _ hwf ht hI hok hh => hh.oneSearch hwf ht hI hok.1 hok.2
  exact hall.2.2.unique c c' ch ch' hch hch' hl hl' hname

instance (e : Event) : Decidable (callsSucceed e) :=
  match e with
  | .request _ _ search _ => inferInstanceAs (Decidable (search = .normal))
  | .purge _ _ answers => inferInstanceAs (Decidable
      (∀ a ∈ answers, a.caState ≠ 3 ∧ a.clear = .normal ∧ a.search = .normal))
  | .up _ _ => isTrue trivial
  | .down _ _ => isTrue trivial
  | .report _ => isTrue trivial

/-- A sufficient test for `learnedKept`: the heartbeat's own node is the first of its name, and a
new list names whatever the old one did. -/
def learnedKeptB (s : Server) : Event → Bool
  | .up c cn =>
      match s.ca.chans c with
      | none => true
      | some ch => (s.nameList.find? (·.name = ch.name)).all (fun nn => decide (nn.chd = c)) &&
          (ch.puser.bind s.dir.pIocs).all fun p => decide (p.status ≠ 2) ||
            p.pvEList.all fun e => (s.dir.pvEs e).all fun pv =>
              decide (pv.resourceName = p.heartbeatName) ||
                (signals cn.fs p.pathToList).contains pv.resourceName
  | _ => true

theorem learnedKept_of_eq_true {s : Server} {e : Event} (hwf : s.dir.WF)
    (h : learnedKeptB s e = true) : learnedKept s e := by
  cases e with
  | up c cn =>
      intro ch i p hch hhb hpuser hp
      simp only [learnedKeptB, hch, hpuser, Option.bind_some, hp, Option.all_some,
        Bool.and_eq_true, Bool.or_eq_true, decide_eq_true_eq, List.all_eq_true] at h
      obtain ⟨hfirst, hlist⟩ := h
      refine ⟨fun nn x hnn hx hl => ?_, fun hst y chy n _ _ _ hn hmem hne => ?_⟩
      · rw [hnn, Option.all_some, decide_eq_true_eq] at hfirst
        rw [hfirst, hch] at hx
        cases hx
        exact absurd hhb (Channel.not_isHeartbeat hl)
      · obtain ⟨pv, hpv, hname⟩ := hwf.table _ n hn
        have hall := (hlist.resolve_left fun h => h hst) n hmem
        rw [hpv, Option.all_some, hname, Bool.or_eq_true, decide_eq_true_eq] at hall
        simpa using hall.resolve_left hne
  | down => trivial
  | request => trivial
  | purge => trivial
  | report => trivial

/-- A PV is learned, and requested again after its site's IOC has been rebooted. -/
def learnedAcrossReload : List Event :=
  [.up 0 (connectionTo "a:1" 1 ""), .request [] "z".toList .normal 1,
    .up 1 (connectionTo "b:2" 2 ""), .down 0 2, .up 0 (connectionTo "a:1" 1 "A:heartbeat x"),
    .request [] "z".toList .normal 3]

set_option maxRecDepth 10000 in
theorem one_search_acrossReload : ∃ s,
    run literal (fun s e => decide (callsSucceed e) && learnedKeptB s e) oneIoc
      learnedAcrossReload = some s ∧
    ∀ c ch, s.ca.chans c = some ch → ch.IsLearned → ch.name = ['z'] → c = 1 := by
  have hrun : (run literal (fun s e => decide (callsSucceed e) && learnedKeptB s e) oneIoc
      learnedAcrossReload).any (fun s => (s.ca.chans 1).any fun ch =>
        decide (ch.callback = .processChangeConnectionEvent) && decide (ch.name = ['z'])) =
      true := by decide
  obtain ⟨s, hs, hz⟩ := (Option.any_eq_true _ _).mp hrun
  obtain ⟨ch₁, hch₁, hz⟩ := (Option.any_eq_true _ _).mp hz
  rw [Bool.and_eq_true, decide_eq_true_eq, decide_eq_true_eq] at hz
  have hreach : Reachable (nameServer literal fun _ => True)
      (fun s e => callsSucceed e ∧ learnedKept s e) s := by
    refine reachable_of_run (fun s e hwf hok => ?_) trivial hs
    rw [Bool.and_eq_true, decide_eq_true_eq] at hok
    exact ⟨hok.1, learnedKept_of_eq_true hwf hok.2⟩
  exact ⟨s, hs, fun c ch hch hl hname =>
    one_search literal _ s hreach c 1 ch ch₁ hch hch₁ hl hz.1 (hname.trans hz.2.symm)⟩

/-- A PV is requested while its IOC is down, brought in by the IOC's new list, found at a gateway
afterwards, and dropped by the next list: its channel stays open, and the next request searches
again. -/
def listedLearnedDropped : List Event :=
  [.up 0 (connectionTo "a:1" 1 ""), .request [] "z".toList .normal 1, .down 0 2,
    .up 0 (connectionTo "a:1" 1 "A:heartbeat z"), .up 1 (connectionTo "b:2" 2 ""), .down 0 3,
    .up 0 (connectionTo "a:1" 1 "A:heartbeat"), .request [] "z".toList .normal 4]

set_option maxRecDepth 10000 in
theorem one_search_fails : ¬ ∀ (rx : Regex) (start : Config → Prop) (s : Server),
    Reachable (nameServer rx start) (fun _ e => callsSucceed e) s →
    ∀ c c' ch ch', s.ca.chans c = some ch → s.ca.chans c' = some ch' → ch.IsLearned →
      ch'.IsLearned → ch.name = ch'.name → c = c' := by
  intro h
  have hrun : (run literal (fun _ e => decide (callsSucceed e)) oneIoc listedLearnedDropped).any
      (fun s => (s.ca.chans 1).any fun ch => (s.ca.chans 2).any fun ch' =>
        decide (ch.callback = .processChangeConnectionEvent) &&
        decide (ch'.callback = .processChangeConnectionEvent) && decide (ch.name = ch'.name)) =
      true := by decide
  obtain ⟨s, hs, hbad⟩ := (Option.any_eq_true _ _).mp hrun
  obtain ⟨ch, hch, hbad⟩ := (Option.any_eq_true _ _).mp hbad
  obtain ⟨ch', hch', hbad⟩ := (Option.any_eq_true _ _).mp hbad
  simp only [Bool.and_eq_true, decide_eq_true_eq] at hbad
  have hreach : Reachable (nameServer literal fun _ => True) (fun _ e => callsSucceed e) s :=
    reachable_of_run (fun _ _ _ hok => of_decide_eq_true hok) trivial hs
  have heq := h _ _ s hreach 1 2 ch ch' hch hch' hbad.1.1 hbad.1.2 hbad.2
  exact absurd heq (by decide)

end CaNameserver
