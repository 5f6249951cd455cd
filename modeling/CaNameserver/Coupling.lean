import CaNameserver.Channels
import CaNameserver.Reserved
import Mathlib.Data.Finset.Card
import Mathlib.Data.Finset.Range

/-!
# Heartbeats and the state of their IOCs

The state of an IOC that has a signal list is kept in five places: the heartbeat's channel, its
`puser`, the IOC's status, the node on the pending list, and the count of connected IOCs.  Six
functions write to them, none of them to all five, and none compares what it finds.  This module
says how the five agree, in every state that a run leads to.

## The agreement

`Coupled` has the parts of the agreement, each a predicate of its own so that an event can keep
one and touch another.

* `Pending`: the nodes of the pending list have different names, each waits for an open channel
  that is not connected, and every heartbeat that is not connected has a node.
* `Linked`: every IOC that has a path has a heartbeat channel, which is connected exactly while
  the status is 1.
* The count is that of the IOCs with status 1 (`Dir.upIocs`).
* The name of a heartbeat is in the PV table, with no IOC but its own (`Reserved`), and no learned
  channel has it.

That a heartbeat has only one channel, and that the channel has the heartbeat's name, is `Tied`,
which holds in every run; the others need conditions.

## Why conditions are needed

The callbacks find the node of a channel by its name, and take the first.  So the names on the
list must be unique.  They are, because a heartbeat's name is always in the PV table and is
therefore never searched for on behalf of a client; and it stays in the table as long as no list
but its own names it.  `uncrossed` asks for this, that no learned server goes by the name of an
IOC that has a list, and that the purge's searches succeed: a node whose search has failed has no
channel.  Startup has to meet the same conditions (`Config.OwnHeartbeats`).

## The argument

There is one lemma for each kind of event, in the order of `Handled`: `heartbeatUp`,
`heartbeatDown`, `learnedUp`, `learnedDown`, `request` and `purge`.  A heartbeat that connects
loses its node and its status becomes 1, and `upIocs` grows by it (`upIocs_up`); when it
disconnects it is the other way round.  A learned connection may change the status of an IOC, but
of one without a path only.  A request opens a channel for a name that is not in the table, so for
none of the heartbeats (`Coupled.request`).  The purge turns over the list node by node, and each
part has a lemma for one turn (`Pending.purgeStep`, `Linked.purgeStep`).  At startup the IOCs are
searched one after the other, and `Searched` is the invariant of that loop.

* `heartbeat_coupling`: what this says about one IOC and its channel, in every run.
* `heartbeat_coupling_rebooted`: the run of a reboot.
-/

namespace CaNameserver

open CStr Fallible Transition

/-! ## The pending list -/

/-- The nodes have different names and wait for open channels; every heartbeat that is not
connected has a node. -/
structure Pending (l : List Namenode) (ca : Ca) : Prop where
  names : (l.map (·.name)).Nodup
  waiting : ∀ nn ∈ l, ∃ ch, ca.chans nn.chd = some ch ∧ ch.server = none
  node : ∀ c ch, ca.chans c = some ch → ch.IsHeartbeat → ch.server = none → ∃ nn ∈ l, nn.chd = c

namespace Pending

variable {d : Dir} {l l' : List Namenode} {ca ca' : Ca}

theorem name_inj (h : Pending l ca) {nn nn' : Namenode} (hnn : nn ∈ l) (hnn' : nn' ∈ l)
    (hname : nn.name = nn'.name) : nn = nn' :=
  List.inj_on_of_nodup_map h.names hnn hnn' hname

/-- A channel has one node. -/
theorem chd_inj (h : Pending l ca) (ht : Tied d l ca) {nn nn' : Namenode} (hnn : nn ∈ l)
    (hnn' : nn' ∈ l) (hchd : nn.chd = nn'.chd) : nn = nn' := by
  obtain ⟨ch, hch, -⟩ := h.waiting nn hnn
  have hname := (ht.node nn hnn ch hch).1
  have hname' := (ht.node nn' hnn' ch (hchd ▸ hch)).1
  exact h.name_inj hnn hnn' (hname.symm.trans hname')

/-- A channel comes up, and the node of its name goes. -/
theorem up (h : Pending l ca) (ht : Tied d l ca) {c : Chid} {ch ch' : Channel}
    (hch : ca.chans c = some ch) (hserver : ch'.server ≠ none)
    (hother : ∀ x chx, ca.chans x = some chx → chx.IsHeartbeat → x ≠ c → chx.name ≠ ch.name) :
    Pending (removePending ch.name l) (ca.setChan c ch') where
  names := h.names.sublist ((removePending_sublist _ _).map _)
  waiting := by
    intro nn hnn
    have hl := (removePending_sublist _ _).subset hnn
    obtain ⟨chx, hchx, hnone⟩ := h.waiting nn hl
    have hne : nn.chd ≠ c := by
      rintro hc
      have hname := (ht.node nn hl ch (hc ▸ hch)).1
      exact ne_of_mem_removePending h.names hnn hname.symm
    exact ⟨chx, by rw [Ca.setChan_chans, if_neg hne, hchx], hnone⟩
  node := by
    intro x chx hx hhb hnone
    rw [Ca.setChan_chans] at hx
    split_ifs at hx with hxc
    · cases hx
      exact absurd hnone hserver
    · obtain ⟨nn, hnn, hchd⟩ := h.node x chx hx hhb hnone
      have hname := (ht.node nn hnn chx (hchd ▸ hx)).1
      exact ⟨nn, mem_removePending_of_ne hnn (hname ▸ hother x chx hx hhb hxc), hchd⟩

/-- A channel goes down, and gets a node. -/
theorem down (h : Pending l ca) (ht : Tied d l ca) {c : Chid} {ch : Channel}
    (hch : ca.chans c = some ch) (hserver : ch.server ≠ none) (now : ℕ)
    (hother : ∀ x chx, ca.chans x = some chx → x ≠ c → chx.name ≠ ch.name) :
    Pending (⟨ch.name, now, c, true⟩ :: l) (ca.setChan c { ch with server := none }) where
  names := by
    refine List.nodup_cons.mpr ⟨fun hmem => ?_, h.names⟩
    obtain ⟨nn, hnn, hname⟩ := List.mem_map.mp hmem
    obtain ⟨chx, hx, hnone⟩ := h.waiting nn hnn
    have hname' := (ht.node nn hnn chx hx).1
    by_cases hc : nn.chd = c
    · rw [hc, hch] at hx
      cases hx
      exact hserver hnone
    · exact hother nn.chd chx hx hc (hname'.trans hname)
  waiting := by
    intro nn hnn
    rcases List.mem_cons.mp hnn with rfl | hnn
    · exact ⟨{ ch with server := none }, by rw [Ca.setChan_chans, if_pos rfl], rfl⟩
    · obtain ⟨chx, hx, hnone⟩ := h.waiting nn hnn
      have hne : nn.chd ≠ c := by
        intro hc
        rw [hc, hch] at hx
        cases hx
        exact hserver hnone
      exact ⟨chx, by rw [Ca.setChan_chans, if_neg hne, hx], hnone⟩
  node := by
    intro x chx hx hhb hnone
    rw [Ca.setChan_chans] at hx
    split_ifs at hx with hxc
    · exact ⟨_, List.mem_cons_self .., hxc.symm⟩
    · obtain ⟨nn, hnn, hchd⟩ := h.node x chx hx hhb hnone
      exact ⟨nn, List.mem_cons_of_mem _ hnn, hchd⟩

/-- A connected channel is closed. -/
theorem clear (h : Pending l ca) {c : Chid} {ch : Channel} (hch : ca.chans c = some ch)
    (hserver : ch.server ≠ none) : Pending l (ca.clear c) where
  names := h.names
  waiting := by
    intro nn hnn
    obtain ⟨chx, hx, hnone⟩ := h.waiting nn hnn
    have hne : nn.chd ≠ c := by
      intro hc
      rw [hc, hch] at hx
      cases hx
      exact hserver hnone
    exact ⟨chx, by rw [Ca.clear_chans, if_neg hne, hx], hnone⟩
  node := by
    intro x chx hx
    rw [Ca.clear_chans] at hx
    split_ifs at hx
    exact h.node x chx hx

/-- A search for a name that is not pending. -/
theorem search (h : Pending l ca) (ht : Tied d l ca) {n : Name} (hn : ∀ nn ∈ l, nn.name ≠ n)
    (now : ℕ) : Pending (⟨n, now, ca.nextChid, false⟩ :: l)
      (ca.search n .processChangeConnectionEvent) where
  names := by
    refine List.nodup_cons.mpr ⟨fun hmem => ?_, h.names⟩
    obtain ⟨nn, hnn, hname⟩ := List.mem_map.mp hmem
    exact hn nn hnn hname
  waiting := by
    intro nn hnn
    rcases List.mem_cons.mp hnn with rfl | hnn
    · exact ⟨_, by rw [Ca.search_chans, if_pos rfl], rfl⟩
    · obtain ⟨chx, hx, hnone⟩ := h.waiting nn hnn
      exact ⟨chx, by rw [Ca.search_chans, if_neg (ht.node_lt nn hnn).ne, hx], hnone⟩
  node := by
    intro x chx hx hhb hnone
    rw [Ca.search_chans] at hx
    split_ifs at hx
    · cases hx
      exact absurd hhb (Channel.not_isHeartbeat rfl)
    · obtain ⟨nn, hnn, hchd⟩ := h.node x chx hx hhb hnone
      exact ⟨nn, List.mem_cons_of_mem _ hnn, hchd⟩

/-- The other nodes do not wait for the channel of a node. -/
theorem chd_ne (h : Pending l ca) (ht : Tied d l ca) {pre post : List Namenode} {pNN nn : Namenode}
    (hl : l = pre ++ pNN :: post) (hnn : nn ∈ pre ++ post) : nn.chd ≠ pNN.chd := by
  intro hchd
  have hmem : nn ∈ l := by
    rw [hl]
    rcases List.mem_append.mp hnn with hnn | hnn
    · exact List.mem_append_left _ hnn
    · exact List.mem_append_right _ (List.mem_cons_of_mem _ hnn)
  have heq := h.chd_inj ht hmem (by rw [hl]; simp) hchd
  have hnd := List.Nodup.of_map _ h.names
  rw [hl, List.nodup_middle, List.nodup_cons] at hnd
  exact hnd.1 (heq ▸ hnn)

theorem purgeStep {a : Server.CaAnswers} (h : Pending l ca) (ht : Tied d l ca)
    (hok : a.search = .normal) (hs : Server.PurgeStep a ca l l' ca') : Pending l' ca' := by
  cases hs with
  | same => exact h
  | lost _ _ hfail =>
      rw [hok] at hfail
      cases hfail
  | @renewed pre post pNN ch hch hreb =>
      refine ⟨by simpa using h.names, fun nn hnn => ?_, fun x chx hx hhb hnone => ?_⟩
      · rcases mem_middle_iff.mp hnn with rfl | hnn'
        · exact ⟨_, by rw [Ca.renew_chans, if_pos rfl], rfl⟩
        · have hmem : nn ∈ pre ++ pNN :: post := mem_middle_iff.mpr (Or.inr hnn')
          obtain ⟨chx, hx, hnone⟩ := h.waiting nn hmem
          refine ⟨chx, ?_, hnone⟩
          rw [Ca.renew_chans, if_neg (ht.node_lt nn hmem).ne, if_neg (h.chd_ne ht rfl hnn'), hx]
      · rw [Ca.renew_chans] at hx
        split_ifs at hx with hnew hxc
        · exact ⟨{ pNN with chd := ca.nextChid, otime := a.time }, by simp, hnew.symm⟩
        · obtain ⟨nn, hnn, hchd⟩ := h.node x chx hx hhb hnone
          have hne : nn ≠ pNN := by
            rintro rfl
            exact hxc hchd.symm
          have hkept := (mem_middle_iff.mp hnn).resolve_left hne
          exact ⟨nn, mem_middle_iff.mpr (Or.inr hkept), hchd⟩
  | @expired pre post pNN ch hch hreb =>
      refine ⟨?_, fun nn hnn => ?_, fun x chx hx hhb hnone => ?_⟩
      · refine h.names.sublist (List.Sublist.map _ ?_)
        exact (List.Sublist.refl _).append (List.sublist_cons_self _ _)
      · obtain ⟨chx, hx, hnone⟩ := h.waiting nn (mem_middle_iff.mpr (Or.inr hnn))
        exact ⟨chx, by rw [Ca.clear_chans, if_neg (h.chd_ne ht rfl hnn), hx], hnone⟩
      · rw [Ca.clear_chans] at hx
        split_ifs at hx with hxc
        obtain ⟨nn, hnn, hchd⟩ := h.node x chx hx hhb hnone
        have hne : nn ≠ pNN := by
          rintro rfl
          exact hxc hchd.symm
        exact ⟨nn, (mem_middle_iff.mp hnn).resolve_left hne, hchd⟩
  | @forgotten pre post pNN ch hch hreb _ =>
      refine ⟨?_, fun nn hnn => ?_, fun x chx hx hhb hnone => ?_⟩
      · refine h.names.sublist (List.Sublist.map _ ?_)
        exact (List.Sublist.refl _).append (List.sublist_cons_self _ _)
      · exact h.waiting nn (mem_middle_iff.mpr (Or.inr hnn))
      · obtain ⟨nn, hnn, hchd⟩ := h.node x chx hx hhb hnone
        -- the node that goes is not marked, so its channel is not a heartbeat's
        have hne : nn ≠ pNN := by
          rintro rfl
          have hreb' := (ht.node nn hnn chx (hchd ▸ hx)).2.mp hhb
          rw [hreb] at hreb'
          cases hreb'
        exact ⟨nn, (mem_middle_iff.mp hnn).resolve_left hne, hchd⟩

end Pending

/-! ## Channels and statuses -/

/-- Every IOC that has a path has a heartbeat channel, which is connected exactly while the IOC's
status is 1. -/
structure Linked (d : Dir) (ca : Ca) : Prop where
  channel : ∀ i p, d.header i = some p → p.pathToList ≠ [] →
    ∃ c ch, ca.chans c = some ch ∧ ch.IsHeartbeat ∧ ch.puser = some i
  status : ∀ c ch i p, ca.chans c = some ch → ch.IsHeartbeat → ch.puser = some i →
    d.header i = some p → (ch.server ≠ none ↔ p.status = 1)

namespace Linked

variable {d d' : Dir} {l l' : List Namenode} {ca ca' : Ca}

/-- The channel of an IOC changes together with its status; the headers of the other IOCs that have
a path stay as they are. -/
theorem change (h : Linked d ca) (ht : Tied d l ca) {c : Chid} {ch ch' : Channel} {i : IocId}
    {p' : PIoc} (hch : ca.chans c = some ch) (hhb : ch.IsHeartbeat) (hpuser : ch.puser = some i)
    (hcb' : ch'.callback = ch.callback) (hpuser' : ch'.puser = ch.puser)
    (hhead : ∀ j, d'.header j = if j = i then some p' else d.header j)
    (hst : ch'.server ≠ none ↔ p'.status = 1) : Linked d' (ca.setChan c ch') where
  channel := by
    intro j q hq hpath
    by_cases hj : j = i
    · exact ⟨c, ch', by rw [Ca.setChan_chans, if_pos rfl],
        (Channel.isHeartbeat_of_callback hcb').mpr hhb, by rw [hpuser', hpuser, hj]⟩
    · rw [hhead, if_neg hj] at hq
      obtain ⟨x, chx, hx, hhbx, hpx⟩ := h.channel j q hq hpath
      have hxc : x ≠ c := by
        rintro rfl
        rw [hch] at hx
        cases hx
        rw [hpuser] at hpx
        exact hj (Option.some.inj hpx).symm
      exact ⟨x, chx, by rw [Ca.setChan_chans, if_neg hxc, hx], hhbx, hpx⟩
  status := by
    intro x chx j q hx hhbx hpx hq
    rw [Ca.setChan_chans] at hx
    split_ifs at hx with hxc
    · cases hx
      rw [hpuser', hpuser] at hpx
      cases hpx
      rw [hhead, if_pos rfl] at hq
      cases hq
      exact hst
    · have hj : j ≠ i := by
        rintro rfl
        exact hxc (ht.puser_inj x c chx ch hx hch hhbx hhb (hpx.trans hpuser.symm))
      rw [hhead, if_neg hj] at hq
      exact h.status x chx j q hx hhbx hpx hq

/-- The heartbeats' channels are as they were, and the headers of the IOCs that have a path. -/
theorem keep (h : Linked d ca) (ht : Tied d l ca)
    (hchans : ∀ c ch, ch.IsHeartbeat → (ca'.chans c = some ch ↔ ca.chans c = some ch))
    (hhead : ∀ i p, p.pathToList ≠ [] → (d'.header i = some p ↔ d.header i = some p))
    (hsite : ∀ i x, d.site i = some x → d'.site i = some x) : Linked d' ca' where
  channel := by
    intro i p hp hpath
    obtain ⟨c, ch, hch, hhb, hpuser⟩ := h.channel i p ((hhead i p hpath).mp hp) hpath
    exact ⟨c, ch, (hchans c ch hhb).mpr hch, hhb, hpuser⟩
  status := by
    intro c ch i p hch hhb hpuser hp
    have hch₀ := (hchans c ch hhb).mp hch
    obtain ⟨j, name, path, hj, hsite₀, hpath, -⟩ := ht.owned c ch hch₀ hhb
    rw [hpuser] at hj
    cases hj
    have hpath' : p.pathToList ≠ [] := by
      have hs := hsite i _ hsite₀
      rw [Dir.site_eq_header, hp] at hs
      cases hs
      exact hpath
    exact h.status c ch i p hch₀ hhb hpuser ((hhead i p hpath').mp hp)

theorem purgeStep {a : Server.CaAnswers} (h : Linked d ca) (hpend : Pending l ca)
    (ht : Tied d l ca) (hok : a.search = .normal) (hs : Server.PurgeStep a ca l l' ca') :
    Linked d ca' := by
  cases hs with
  | same => exact h
  | lost _ _ hfail =>
      rw [hok] at hfail
      cases hfail
  | @renewed pre post pNN ch hch hreb =>
      have hhb := (ht.node pNN (by simp) ch hch).2.mpr hreb
      obtain ⟨ch', hch', hnone⟩ := hpend.waiting pNN (by simp)
      rw [hch] at hch'
      cases hch'
      refine ⟨fun i p hp hpath => ?_, fun x chx i p hx hhbx hpx hp => ?_⟩
      · obtain ⟨x, chx, hx, hhbx, hpx⟩ := h.channel i p hp hpath
        by_cases hxc : x = pNN.chd
        · rw [hxc, hch] at hx
          cases hx
          exact ⟨ca.nextChid, ⟨pNN.name, .WDprocessChangeConnectionEvent, ch.puser, none⟩,
            by rw [Ca.renew_chans, if_pos rfl], rfl, hpx⟩
        · have hnew : x ≠ ca.nextChid := (ht.fresh x chx hx).ne
          exact ⟨x, chx, by rw [Ca.renew_chans, if_neg hnew, if_neg hxc, hx], hhbx, hpx⟩
      · rw [Ca.renew_chans] at hx
        split_ifs at hx
        · cases hx
          have hst := h.status pNN.chd ch i p hch hhb hpx hp
          rw [hnone] at hst
          exact hst
        · exact h.status x chx i p hx hhbx hpx hp
  | @expired pre post pNN ch hch hreb =>
      have hl : ∀ x chx, ca.chans x = some chx → chx.IsHeartbeat → x ≠ pNN.chd := by
        rintro x chx hx hhbx rfl
        have hreb' := (ht.node pNN (by simp) chx hx).2.mp hhbx
        rw [hreb] at hreb'
        cases hreb'
      refine h.keep ht (fun c chx hhbx => ?_) (fun _ _ _ => Iff.rfl) fun _ _ h => h
      rw [Ca.clear_chans]
      constructor
      · intro hx
        split_ifs at hx
        exact hx
      · intro hx
        rw [if_neg (hl c chx hx hhbx), hx]
  | forgotten => exact h

end Linked

/-! ## The invariant -/

/-- The IOCs loaded from a list whose status is 1. -/
def Dir.upIocs (d : Dir) : Finset ℕ :=
  (Finset.range d.nextPIoc).filter fun i =>
    (d.header i).any (fun p => !p.pathToList.isEmpty && decide (p.status = 1)) = true

theorem Dir.WF.mem_upIocs {d : Dir} (h : d.WF) {i : ℕ} :
    i ∈ d.upIocs ↔ ∃ p, d.header i = some p ∧ p.pathToList ≠ [] ∧ p.status = 1 := by
  rw [Dir.upIocs, Finset.mem_filter, Finset.mem_range, Option.any_eq_true]
  constructor
  · rintro ⟨-, p, hp, hcond⟩
    exact ⟨p, hp, by simpa using hcond⟩
  · rintro ⟨p, hp, hcond⟩
    obtain ⟨q, hq, -⟩ := Dir.header_eq_some_iff.mp hp
    exact ⟨h.pIocs_lt i q hq, p, hp, by simpa using hcond⟩

/-- The five pieces of state agree. -/
structure Coupled (s : Server) : Prop where
  status_le : ∀ i p, s.dir.header i = some p → p.status ≤ 2
  /-- the heartbeats are in the PV table -/
  reserved : ∀ i name path, s.dir.site i = some (name, path) → path ≠ [] → s.dir.Reserved name
  /-- no learned channel has a heartbeat's name -/
  unlearned : ∀ i name path, s.dir.site i = some (name, path) → path ≠ [] →
    ∀ c ch, s.ca.chans c = some ch → ch.IsLearned → ch.name ≠ name ++ heartbeat
  pending : Pending s.nameList s.ca
  linked : Linked s.dir s.ca
  count : s.connectedIocs = s.dir.upIocs.card

/-- No signal list that is read names another loaded IOC's heartbeat, no learned server goes by the
name of a loaded IOC, and the searches of the purge succeed. -/
def uncrossed (s : Server) : Event → Prop
  | .up c cn => ∀ ch, s.ca.chans c = some ch → ∀ j q, s.dir.pIocs j = some q →
      q.pathToList ≠ [] →
      (ch.IsHeartbeat → ∀ i p, ch.puser = some i → s.dir.pIocs i = some p → p.status = 2 →
        q.heartbeatName ∈ signals cn.fs p.pathToList → q.iocname = p.iocname) ∧
      (ch.IsLearned → q.iocname ≠ cn.iocname)
  | .purge _ _ answers => ∀ a ∈ answers, a.clear = .normal ∧ a.search = .normal
  | _ => True

/-- Two heartbeat channels of one name are the same. -/
theorem Tied.heartbeat_inj {d : Dir} {l : List Namenode} {ca : Ca} (ht : Tied d l ca) (hwf : d.WF)
    {c c' : Chid} {ch ch' : Channel} (hch : ca.chans c = some ch) (hch' : ca.chans c' = some ch')
    (hhb : ch.IsHeartbeat) (hhb' : ch'.IsHeartbeat) (hname : ch.name = ch'.name) : c = c' := by
  obtain ⟨i, name, path, hi, hsite, -, hn⟩ := ht.owned c ch hch hhb
  obtain ⟨j, name', path', hj, hsite', -, hn'⟩ := ht.owned c' ch' hch' hhb'
  rw [hn, hn'] at hname
  have hnames := List.append_cancel_right hname
  obtain ⟨p, hp, hpn, -⟩ := Dir.site_eq_some_iff.mp hsite
  obtain ⟨q, hq, hqn, -⟩ := Dir.site_eq_some_iff.mp hsite'
  have hij := hwf.iocname_inj hp hq (hpn.trans (hnames.trans hqn.symm))
  exact ht.puser_inj c c' ch ch' hch hch' hhb hhb' (by rw [hi, hj, hij])

/-- A channel with a heartbeat's name is the heartbeat's. -/
theorem Coupled.name_inj {s : Server} (h : Coupled s) (hwf : s.dir.WF)
    (ht : Tied s.dir s.nameList s.ca) {c c' : Chid} {ch ch' : Channel}
    (hch : s.ca.chans c = some ch) (hch' : s.ca.chans c' = some ch') (hhb : ch.IsHeartbeat)
    (hname : ch'.name = ch.name) : c' = c := by
  by_cases hhb' : ch'.IsHeartbeat
  · exact ht.heartbeat_inj hwf hch' hch hhb' hhb hname
  · obtain ⟨i, name, path, -, hsite, hpath, hn⟩ := ht.owned c ch hch hhb
    exact absurd (hname.trans hn)
      (h.unlearned i name path hsite hpath c' ch' hch' (Channel.isLearned_of_not hhb'))

/-! ## Counting -/

section Count

variable {d d' : Dir} {i : IocId} {p' : PIoc}

theorem upIocs_up (hwf : d.WF) (hwf' : d'.WF)
    (hhead : ∀ j, d'.header j = if j = i then some p' else d.header j)
    (hpath : p'.pathToList ≠ []) (hst : p'.status = 1) (hi : i ∉ d.upIocs) :
    (d'.upIocs.card : ℤ) = d.upIocs.card + 1 := by
  have hset : d'.upIocs = insert i d.upIocs := by
    ext j
    rw [Finset.mem_insert, hwf'.mem_upIocs, hwf.mem_upIocs, hhead]
    by_cases hj : j = i
    · rw [if_pos hj]
      exact iff_of_true ⟨p', rfl, hpath, hst⟩ (Or.inl hj)
    · rw [if_neg hj]
      exact (or_iff_right hj).symm
  rw [hset, Finset.card_insert_of_notMem hi]
  omega

theorem upIocs_down (hwf : d.WF) (hwf' : d'.WF)
    (hhead : ∀ j, d'.header j = if j = i then some p' else d.header j)
    (hst : p'.status ≠ 1) (hi : i ∈ d.upIocs) : (d'.upIocs.card : ℤ) = d.upIocs.card - 1 := by
  have hset : d'.upIocs = d.upIocs.erase i := by
    ext j
    rw [Finset.mem_erase, hwf'.mem_upIocs, hwf.mem_upIocs, hhead]
    by_cases hj : j = i
    · rw [if_pos hj]
      refine iff_of_false ?_ fun h => h.1 hj
      rintro ⟨q, hq, -, hqst⟩
      cases hq
      exact hst hqst
    · rw [if_neg hj]
      exact ⟨fun h => ⟨hj, h⟩, fun h => h.2⟩
  have hpos := Finset.card_pos.mpr ⟨i, hi⟩
  rw [hset, Finset.card_erase_of_mem hi]
  omega

theorem upIocs_same (hwf : d.WF) (hwf' : d'.WF)
    (hhead : ∀ i p, p.pathToList ≠ [] → (d'.header i = some p ↔ d.header i = some p)) :
    d'.upIocs = d.upIocs := by
  ext j
  rw [hwf'.mem_upIocs, hwf.mem_upIocs]
  constructor
  · rintro ⟨p, hp, hpath, hst⟩
    exact ⟨p, (hhead j p hpath).mp hp, hpath, hst⟩
  · rintro ⟨p, hp, hpath, hst⟩
    exact ⟨p, (hhead j p hpath).mpr hp, hpath, hst⟩

end Count

/-! ## Events -/

section Events

variable {s : Server}

theorem Coupled.heartbeatUp (h : Coupled s) (hwf : s.dir.WF) (ht : Tied s.dir s.nameList s.ca)
    {c : Chid} {cn : Connection} {ch : Channel} {i : IocId} {d' : Dir}
    (hok : uncrossed s (.up c cn)) (hch : s.ca.chans c = some ch) (hserver : ch.server = none)
    (hhb : ch.IsHeartbeat) (hpuser : ch.puser = some i) (hd : s.dir.Reloaded i cn d') :
    Coupled { s with
      dir := d'
      nameList := removePending ch.name s.nameList
      connectedIocs := s.connectedIocs + 1
      ca := s.ca.setChan c { ch with server := some cn.server } } := by
  obtain ⟨p, hp⟩ := hd.pIocs
  obtain ⟨hpath, -⟩ := ht.puser_path hch hhb hpuser hp
  have hhead := hd.header hp
  have hle := h.status_le i p.header (Dir.header_of_pIocs hp)
  have hdown : p.status ≠ 1 := by
    have hiff := h.linked.status c ch i p.header hch hhb hpuser (Dir.header_of_pIocs hp)
    rw [hserver] at hiff
    exact fun hst => hiff.mpr hst rfl
  have hup : (p.reconnected cn).header.status = 1 := by
    have hcase : p.status = 0 ∨ p.status = 2 := by
      have hle' : p.status ≤ 2 := hle
      omega
    show (if p.status = 0 ∨ p.status = 2 then 1 else p.status) = 1
    rw [if_pos hcase]
  refine ⟨?_, ?_, ?_, ?_, ?_, ?_⟩
  · intro j q hq
    rw [hhead] at hq
    split_ifs at hq
    · cases hq
      omega
    · exact h.status_le j q hq
  · intro j name path hsite hne
    have hsite' : s.dir.site j = some (name, path) := by
      rw [← hd.site]
      exact hsite
    obtain ⟨q, hq, hqn, hqp⟩ := Dir.site_eq_some_iff.mp hsite'
    refine (h.reserved j name path hsite' hne).reloaded hwf hd hp hpath fun hst hsig => ?_
    rw [← hqn] at hsig ⊢
    exact ((hok ch hch j q hq (hqp ▸ hne)).1 hhb i p hpuser hp hst hsig).symm
  · intro j name path hsite hne x chx hx hl
    have hsite' : s.dir.site j = some (name, path) := by
      rw [← hd.site]
      exact hsite
    change (s.ca.setChan c _).chans x = some chx at hx
    rw [Ca.setChan_chans] at hx
    split_ifs at hx
    · cases hx
      exact absurd hhb (Channel.not_isHeartbeat hl)
    · exact h.unlearned j name path hsite' hne x chx hx hl
  · refine h.pending.up ht hch (Option.some_ne_none _) fun x chx hx hhbx hxc hname => hxc ?_
    exact ht.heartbeat_inj hwf hx hch hhbx hhb hname
  · exact h.linked.change ht hch hhb hpuser rfl rfl hhead
      (iff_of_true (Option.some_ne_none _) hup)
  · show s.connectedIocs + 1 = (d'.upIocs.card : ℤ)
    rw [upIocs_up hwf (hwf.reloaded hd) hhead hpath hup, h.count]
    rw [hwf.mem_upIocs, Dir.header_of_pIocs hp]
    rintro ⟨q, hq, -, hst⟩
    cases hq
    exact hdown hst

theorem Coupled.heartbeatDown (h : Coupled s) (hwf : s.dir.WF) (ht : Tied s.dir s.nameList s.ca)
    {c : Chid} {now : ℕ} {ch : Channel} {i : IocId} {p : PIoc} (hch : s.ca.chans c = some ch)
    (hserver : ch.server ≠ none) (hhb : ch.IsHeartbeat) (hpuser : ch.puser = some i)
    (hp : s.dir.pIocs i = some p) :
    Coupled { s with
      dir := s.dir.setPIoc i { p with status := 2 }
      nameList := ⟨ch.name, now, c, true⟩ :: s.nameList
      connectedIocs := s.connectedIocs - 1
      ca := s.ca.setChan c { ch with server := none } } := by
  obtain ⟨hpath, -⟩ := ht.puser_path hch hhb hpuser hp
  have hhead := fun j => s.dir.header_setPIoc i j { p with status := 2 }
  have hsites : ∀ j, (s.dir.setPIoc i { p with status := 2 }).site j = s.dir.site j := by
    intro j
    rw [Dir.site_eq_header, Dir.header_setPIoc]
    split_ifs with hj
    · rw [hj, Dir.site_of_pIocs hp]
      rfl
    · rw [Dir.site_eq_header]
  refine ⟨?_, ?_, ?_, ?_, ?_, ?_⟩
  · intro j q hq
    rw [hhead] at hq
    split_ifs at hq
    · cases hq
      exact le_rfl
    · exact h.status_le j q hq
  · intro j name path hsite hne
    change (s.dir.setPIoc i _).site j = _ at hsite
    rw [hsites] at hsite
    obtain ⟨hmem, hheld⟩ := h.reserved j name path hsite hne
    exact ⟨hmem, hheld.setPIoc hp rfl (List.Subset.refl _)⟩
  · intro j name path hsite hne x chx hx hl
    change (s.dir.setPIoc i _).site j = _ at hsite
    rw [hsites] at hsite
    change (s.ca.setChan c _).chans x = some chx at hx
    rw [Ca.setChan_chans] at hx
    split_ifs at hx
    · cases hx
      exact absurd hhb (Channel.not_isHeartbeat hl)
    · exact h.unlearned j name path hsite hne x chx hx hl
  · exact h.pending.down ht hch hserver now fun x chx hx hxc hname =>
      hxc (h.name_inj hwf ht hch hx hhb hname)
  · refine h.linked.change ht hch hhb hpuser rfl rfl hhead (iff_of_false (by simp) ?_)
    show (2 : ℕ) ≠ 1
    omega
  · show s.connectedIocs - 1 = ((s.dir.setPIoc i { p with status := 2 }).upIocs.card : ℤ)
    have hwf' := hwf.setPIoc (q := { p with status := 2 }) hp rfl (List.Sublist.refl _)
    have hne : ({ p with status := 2 } : PIoc).header.status ≠ 1 := by
      show (2 : ℕ) ≠ 1
      omega
    rw [upIocs_down hwf hwf' hhead hne, h.count]
    have hst := (h.linked.status c ch i p.header hch hhb hpuser (Dir.header_of_pIocs hp)).mp hserver
    exact hwf.mem_upIocs.mpr ⟨p.header, Dir.header_of_pIocs hp, hpath, hst⟩

theorem Coupled.learnedUp (h : Coupled s) (hwf : s.dir.WF) (ht : Tied s.dir s.nameList s.ca)
    {c : Chid} {cn : Connection} {ch ch' : Channel} {i : IocId} {p : PIoc} {d' : Dir}
    (hok : uncrossed s (.up c cn)) (hch : s.ca.chans c = some ch)
    (hl : ch.IsLearned) (hch' : ch'.name = ch.name ∧ ch'.callback = ch.callback ∧
      ch'.server = some cn.server) (hd : s.dir.Learned cn (cutAt '.' ch.name) i p d') :
    Coupled { s with
      dir := d'
      nameList := removePending (cutAt '.' ch.name) s.nameList
      ca := s.ca.setChan c ch' } := by
  rw [cutAt_eq_self (ht.learned c ch hch hl)] at hd ⊢
  have hl' : ch'.IsLearned := hch'.2.1.trans hl
  -- the IOC has no path: it is a learned one, or a new one
  have hnopath : p.pathToList = [] := by
    rcases hd.site_cases hwf with ⟨-, hp, hname⟩ | ⟨-, -, -, hp⟩
    · by_contra hne
      exact (hok ch hch i p hp hne).2 hl hname
    · rw [hp]
  have hhead : ∀ j q, q.pathToList ≠ [] → (d'.header j = some q ↔ s.dir.header j = some q) := by
    intro j q hne
    rw [hd.header hwf]
    split_ifs with hj
    · refine iff_of_false ?_ fun hq => ?_
      · intro hq
        rw [← Option.some.inj hq] at hne
        exact hne (by simpa [PIoc.header] using hnopath)
      · rcases hd.site_cases hwf with ⟨-, hp, -⟩ | ⟨-, hnone, -⟩
        · rw [hj, Dir.header_of_pIocs hp] at hq
          rw [← Option.some.inj hq] at hne
          exact hne (by simpa [PIoc.header] using hnopath)
        · rw [hj, Dir.header_eq_none_iff.mpr hnone] at hq
          cases hq
    · rfl
  have hold : ∀ x chx, (s.ca.setChan c ch').chans x = some chx →
      (x = c ∧ chx = ch') ∨ s.ca.chans x = some chx := by
    intro x chx hx
    rw [Ca.setChan_chans] at hx
    split_ifs at hx with hxc
    · cases hx
      exact Or.inl ⟨hxc, rfl⟩
    · exact Or.inr hx
  refine ⟨?_, ?_, ?_, ?_, ?_, ?_⟩
  · intro j q hq
    change d'.header j = some q at hq
    rw [hd.header hwf] at hq
    split_ifs at hq
    · cases hq
      show (1 : ℕ) ≤ 2
      omega
    · exact h.status_le j q hq
  · intro j name path hsite hne
    have hsite' := hd.site_loaded hwf hsite hne
    exact (h.reserved j name path hsite' hne).learned hwf hd
      (h.unlearned j name path hsite' hne c ch hch hl)
  · intro j name path hsite hne x chx hx hlx
    have hsite' := hd.site_loaded hwf hsite hne
    rcases hold x chx hx with ⟨-, rfl⟩ | hx'
    · rw [hch'.1]
      exact h.unlearned j name path hsite' hne c ch hch hl
    · exact h.unlearned j name path hsite' hne x chx hx' hlx
  · refine h.pending.up ht hch (by rw [hch'.2.2]; exact Option.some_ne_none _)
      fun x chx hx hhbx hxc hname => hxc ?_
    exact (h.name_inj hwf ht hx hch hhbx hname.symm).symm
  · refine h.linked.keep ht (fun x chx hhbx => ?_) hhead fun j x hx => hd.site hwf hx
    rw [Ca.setChan_chans]
    split_ifs with hxc
    · refine iff_of_false ?_ fun hx => ?_
      · intro hx
        rw [← Option.some.inj hx] at hhbx
        exact Channel.not_isHeartbeat hl' hhbx
      · rw [hxc, hch] at hx
        rw [← Option.some.inj hx] at hhbx
        exact Channel.not_isHeartbeat hl hhbx
    · rfl
  · show s.connectedIocs = (d'.upIocs.card : ℤ)
    rw [upIocs_same hwf (hwf.learned hd) hhead, h.count]

theorem Coupled.learnedDown (h : Coupled s) (ht : Tied s.dir s.nameList s.ca) {c : Chid}
    {ch : Channel} (e : PvEId) (hch : s.ca.chans c = some ch) (hserver : ch.server ≠ none)
    (hl : ch.IsLearned) :
    Coupled { s with
      dir := (s.dir.tblRemove ch.name).deletePvE e
      ca := s.ca.clear c } := by
  refine ⟨h.status_le, ?_, ?_, h.pending.clear hch hserver, ?_, h.count⟩
  · intro j name path hsite hne
    exact (h.reserved j name path hsite hne).forget e
      (h.unlearned j name path hsite hne c ch hch hl)
  · intro j name path hsite hne x chx hx hlx
    change (s.ca.clear c).chans x = some chx at hx
    rw [Ca.clear_chans] at hx
    split_ifs at hx
    exact h.unlearned j name path hsite hne x chx hx hlx
  · exact h.linked.keep ht (Ca.clear_of_learned hch hl) (fun _ _ _ => Iff.rfl) fun _ _ h => h

theorem Coupled.learnedDownFree (h : Coupled s) (ht : Tied s.dir s.nameList s.ca) {c : Chid}
    {ch : Channel} (hch : s.ca.chans c = some ch) (hserver : ch.server ≠ none)
    (hl : ch.IsLearned) : Coupled { s with ca := s.ca.clear c } := by
  refine ⟨h.status_le, h.reserved, ?_, h.pending.clear hch hserver, ?_, h.count⟩
  · intro j name path hsite hne x chx hx hlx
    change (s.ca.clear c).chans x = some chx at hx
    rw [Ca.clear_chans] at hx
    split_ifs at hx
    exact h.unlearned j name path hsite hne x chx hx hlx
  · exact h.linked.keep ht (Ca.clear_of_learned hch hl) (fun _ _ _ => Iff.rfl) fun _ _ h => h

/-- A name that is searched for is not in the table, so it is no heartbeat's. -/
theorem Coupled.request (h : Coupled s) (ht : Tied s.dir s.nameList s.ca) {rx : Regex}
    {client pPVName : Name} {search : CaStatus} {now : ℕ} {s' : Server}
    {ret : Server.PvExistReturn}
    (ha : Server.Answered rx s client pPVName search now s' ret) : Coupled s' := by
  cases ha with
  | searched hn he hns hpend hden hs =>
      have hold : ∀ x chx, (s.ca.search (Server.recordName pPVName)
          .processChangeConnectionEvent).chans x = some chx →
          chx = ⟨Server.recordName pPVName, .processChangeConnectionEvent, none, none⟩ ∨
          s.ca.chans x = some chx := by
        intro x chx hx
        rw [Ca.search_chans] at hx
        split_ifs at hx
        · cases hx
          exact Or.inl rfl
        · exact Or.inr hx
      refine ⟨h.status_le, h.reserved, ?_, h.pending.search ht hpend now, ?_, h.count⟩
      · intro j name path hsite hne x chx hx hl
        rcases hold x chx hx with rfl | hx'
        · intro hname
          refine (h.reserved j name path hsite hne).1 ?_
          rw [← hname]
          exact he
        · exact h.unlearned j name path hsite hne x chx hx' hl
      · refine h.linked.keep ht (fun x chx hhbx => ?_) (fun _ _ _ => Iff.rfl) fun _ _ h => h
        constructor
        · intro hx
          rcases hold x chx hx with rfl | hx'
          · exact absurd hhbx (Channel.not_isHeartbeat rfl)
          · exact hx'
        · intro hx
          show (s.ca.search _ _).chans x = some chx
          rw [Ca.search_chans, if_neg (ht.fresh x chx hx).ne, hx]
  | _ => exact ⟨h.status_le, h.reserved, h.unlearned, h.pending, h.linked, h.count⟩

theorem Coupled.purge (h : Coupled s) (ht : Tied s.dir s.nameList s.ca) {s' : Server}
    {now tooLong : ℕ} {answers : List Server.CaAnswers}
    (hok : uncrossed s (.purge now tooLong answers))
    (hp : s.processPendingList now tooLong answers = .ok s')
    (hframe : Server.SameButPending s s') : Coupled s' := by
  have hpass : Tied s.dir s'.nameList s'.ca ∧ Pending s'.nameList s'.ca ∧ Linked s.dir s'.ca ∧
      ∀ i name path, s.dir.site i = some (name, path) → path ≠ [] → ∀ c ch,
        s'.ca.chans c = some ch → ch.IsLearned → ch.name ≠ name ++ heartbeat := by
    refine Server.processPendingList_induct (P := fun l ca => Tied s.dir l ca ∧ Pending l ca ∧
      Linked s.dir ca ∧ ∀ i name path, s.dir.site i = some (name, path) → path ≠ [] →
        ∀ c ch, ca.chans c = some ch → ch.IsLearned → ch.name ≠ name ++ heartbeat) hp
      ⟨ht, h.pending, h.linked, h.unlearned⟩ ?_
    rintro a ha ca l l' ca' ⟨htl, hpl, hll, hul⟩ hs
    obtain ⟨-, hsearch⟩ := hok a ha
    refine ⟨htl.purgeStep hs, hpl.purgeStep htl hsearch hs, hll.purgeStep hpl htl hsearch hs, ?_⟩
    intro i name path hsite hne c ch hch hl
    exact hul i name path hsite hne c ch (hs.learned_old hch hl) hl
  refine ⟨?_, ?_, ?_, hpass.2.1, ?_, ?_⟩
  · rw [hframe.dir]
    exact h.status_le
  · rw [hframe.dir]
    exact h.reserved
  · rw [hframe.dir]
    exact hpass.2.2.2
  · rw [hframe.dir]
    exact hpass.2.2.1
  · rw [hframe.dir, hframe.connectedIocs]
    exact h.count

theorem Coupled.handled (h : Coupled s) (hwf : s.dir.WF) (ht : Tied s.dir s.nameList s.ca)
    {rx : Regex} {s' : Server} {e : Event} (hok : uncrossed s e) (hh : Handled rx s e s') :
    Coupled s' := by
  cases hh with
  | heartbeatUp hch hserver hcb hpuser hd =>
      exact h.heartbeatUp hwf ht hok hch hserver hcb hpuser hd
  | heartbeatDown hch hserver hcb hpuser hp =>
      exact h.heartbeatDown hwf ht hch hserver hcb hpuser hp
  | learnedUp hch _ hcb hch' hd => exact h.learnedUp hwf ht hok hch hcb hch' hd
  | learnedDown hch hserver hcb _ => exact h.learnedDown ht _ hch hserver hcb
  | learnedDownFree hch hserver hcb _ => exact h.learnedDownFree ht hch hserver hcb
  | request ha => exact h.request ht ha
  | purge hp hframe => exact h.purge ht hok hp hframe
  | report => exact ⟨h.status_le, h.reserved, h.unlearned, h.pending, h.linked, h.count⟩

end Events

/-! ## Startup -/

/-- The searches of startup. -/
structure Searched (pre : List IocId) (s : Server) : Prop where
  wf : s.dir.WF
  fresh : s.ca.Fresh
  pending : Pending s.nameList s.ca
  node : ∀ nn ∈ s.nameList, ∃ i ∈ pre, ∃ p, s.dir.pIocs i = some p ∧ nn.name = p.heartbeatName
  channel : ∀ i ∈ pre, ∃ c ch, s.ca.chans c = some ch ∧ ch.IsHeartbeat ∧ ch.puser = some i

theorem Searched.connect {pre : List IocId} {s : Server} (h : Searched pre s) {i : IocId}
    {p : PIoc} (hi : i ∉ pre) (hp : s.dir.pIocs i = some p) (now : ℕ) :
    Searched (pre ++ [i]) (s.connect i p now) := by
  have hold : ∀ c ch, s.ca.chans c = some ch → (s.connect i p now).ca.chans c = some ch := by
    intro c ch hch
    rw [Server.connect_chans, if_neg (h.fresh c ch hch).ne, hch]
  refine ⟨h.wf, ?_, ⟨?_, ?_, ?_⟩, ?_, ?_⟩
  · intro c ch hch
    rw [Server.connect_chans] at hch
    show c < s.ca.nextChid + 1
    split_ifs at hch with hc
    · rw [hc]
      exact Nat.lt_succ_self _
    · exact Nat.lt_succ_of_lt (h.fresh c ch hch)
  · show ((p.heartbeatName :: s.nameList.map (·.name)) : List Name).Nodup
    refine List.nodup_cons.mpr ⟨fun hmem => ?_, h.pending.names⟩
    obtain ⟨nn, hnn, hname⟩ := List.mem_map.mp hmem
    obtain ⟨j, hj, q, hq, hname'⟩ := h.node nn hnn
    have hnames : q.iocname = p.iocname := List.append_cancel_right (hname'.symm.trans hname)
    exact hi (h.wf.iocname_inj hq hp hnames ▸ hj)
  · intro nn hnn
    rcases List.mem_cons.mp hnn with rfl | hnn
    · exact ⟨_, by rw [Server.connect_chans, if_pos rfl], rfl⟩
    · obtain ⟨ch, hch, hnone⟩ := h.pending.waiting nn hnn
      exact ⟨ch, hold _ ch hch, hnone⟩
  · intro c ch hch hhb hnone
    rw [Server.connect_chans] at hch
    split_ifs at hch with hc
    · exact ⟨_, List.mem_cons_self .., hc.symm⟩
    · obtain ⟨nn, hnn, hchd⟩ := h.pending.node c ch hch hhb hnone
      exact ⟨nn, List.mem_cons_of_mem _ hnn, hchd⟩
  · intro nn hnn
    rcases List.mem_cons.mp hnn with rfl | hnn
    · exact ⟨i, by simp, p, hp, rfl⟩
    · obtain ⟨j, hj, hq⟩ := h.node nn hnn
      exact ⟨j, List.mem_append_left _ hj, hq⟩
  · intro j hj
    rcases List.mem_append.mp hj with hj | hj
    · obtain ⟨c, ch, hch, hrest⟩ := h.channel j hj
      exact ⟨c, ch, hold c ch hch, hrest⟩
    · rw [List.mem_singleton.mp hj]
      exact ⟨s.ca.nextChid, ⟨p.heartbeatName, .WDprocessChangeConnectionEvent, some i, none⟩,
        by rw [Server.connect_chans, if_pos rfl], rfl, rfl⟩

theorem startup_searched {rx : Regex} {cfg : Config} {s : Server} (h : startup rx cfg = .ok s)
    (hvisits : Visits s.dir cfg.order) : Searched cfg.order s := by
  refine startup_induct (D := fun _ => True) (P := Searched) h trivial
    (fun _ _ _ _ _ _ _ => trivial) ?_ ?_
  · intro pgateAs d requested hwf _
    exact ⟨hwf, fun _ _ h => (by cases h), ⟨List.nodup_nil, fun _ h => (by cases h),
      fun _ _ h => (by cases h)⟩, fun _ h => (by cases h), fun _ h => (by cases h)⟩
  · intro pre i post s p horder hP hp
    exact hP.connect (not_mem_done hvisits.1 horder) hp (cfg.clock i)

/-- The server starts with no connection counted. -/
theorem startup_connectedIocs {rx : Regex} {cfg : Config} {s : Server}
    (h : startup rx cfg = .ok s) : s.connectedIocs = 0 :=
  startup_induct (D := fun _ => True) (P := fun _ s => s.connectedIocs = 0) h trivial
    (fun _ _ _ _ _ _ _ => trivial) (fun _ _ _ _ _ => rfl) fun _ _ _ _ _ _ hs _ => hs

theorem startup_coupled {rx : Regex} {cfg : Config} {s : Server} (h : startup rx cfg = .ok s)
    (hcfg : cfg.OwnHeartbeats) (hvisits : Visits s.dir cfg.order) : Coupled s := by
  have hsearched := startup_searched h hvisits
  have hwf := hsearched.wf
  have hzero : ∀ i p, s.dir.header i = some p → p.status = 0 :=
    fun i p hp => (startup_header h hp).2.2.2
  refine ⟨?_, ?_, ?_, hsearched.pending, ⟨?_, ?_⟩, ?_⟩
  · intro i p hp
    rw [hzero i p hp]
    omega
  · intro i name path hsite _
    obtain ⟨p, hp, hname, -⟩ := Dir.site_eq_some_iff.mp hsite
    exact hname ▸ startup_reserved h hcfg hp
  · intro _ _ _ _ _ c ch hch hl
    exact absurd (startup_chans h hch).1 (Channel.not_isHeartbeat hl)
  · intro i p hp _
    obtain ⟨q, hq, -⟩ := Dir.header_eq_some_iff.mp hp
    exact hsearched.channel i ((hvisits.2 i).mpr ⟨q.iocname, (hwf.iocTable _ i).mpr ⟨q, hq, rfl⟩⟩)
  · intro c ch i p hch _ _ hp
    have hst := hzero i p hp
    exact iff_of_false (fun hne => hne (startup_chans h hch).2) (by omega)
  · have hempty : s.dir.upIocs = ∅ := by
      refine Finset.eq_empty_of_forall_notMem fun i hi => ?_
      obtain ⟨p, hp, -, hst⟩ := hwf.mem_upIocs.mp hi
      have hst' := hzero i p hp
      omega
    rw [startup_connectedIocs h, hempty]
    rfl

/-! ## Runs -/

theorem reachable_coupled {rx : Regex} {s : Server}
    (h : Reachable (nameServer rx Config.OwnHeartbeats) uncrossed s) :
    s.dir.WF ∧ Tied s.dir s.nameList s.ca ∧ Coupled s :=
  reachable_tied_induct h (fun _ _ hcfg hs hvisits => startup_coupled hs hcfg hvisits)
    fun _ _ _ hwf ht hI hok hh => hI.handled hwf ht hok hh

/-- What the channel, the status and the node of one IOC say about each other. -/
structure HeartbeatOf (s : Server) (i : IocId) (p : PIoc) (c : Chid) (ch : Channel) : Prop where
  chan : s.ca.chans c = some ch
  isHeartbeat : ch.IsHeartbeat
  puser : ch.puser = some i
  /-- it is the IOC's only heartbeat channel -/
  only : ∀ x chx, s.ca.chans x = some chx → chx.IsHeartbeat → chx.puser = some i → x = c
  status : ch.server ≠ none ↔ p.status = 1
  noNode : ch.server ≠ none ↔ ∀ nn ∈ s.nameList, nn.name ≠ p.heartbeatName
  /-- a node of the name is the only one, and waits for this channel -/
  node : ∀ nn ∈ s.nameList, nn.name = p.heartbeatName →
    nn.rebroadcast = true ∧ nn.chd = c ∧ s.nameList.countP (·.name = p.heartbeatName) = 1

theorem Coupled.heartbeatOf {s : Server} (h : Coupled s) (hwf : s.dir.WF)
    (ht : Tied s.dir s.nameList s.ca) {i : IocId} {p : PIoc} (hp : s.dir.pIocs i = some p)
    (hpath : p.pathToList ≠ []) : ∃ c ch, HeartbeatOf s i p c ch := by
  have hhead := Dir.header_of_pIocs hp
  obtain ⟨c, ch, hch, hhb, hpuser⟩ := h.linked.channel i p.header hhead hpath
  have hname := (ht.puser_path hch hhb hpuser hp).2
  -- a node of the heartbeat's name waits for this channel
  have hnode : ∀ nn ∈ s.nameList, nn.name = p.heartbeatName → nn.chd = c ∧ ch.server = none := by
    intro nn hnn hnn'
    obtain ⟨chx, hx, hnone⟩ := h.pending.waiting nn hnn
    have hchd := h.name_inj hwf ht hch hx hhb
      ((ht.node nn hnn chx hx).1.trans (hnn'.trans hname.symm))
    rw [hchd, hch] at hx
    cases hx
    exact ⟨hchd, hnone⟩
  refine ⟨c, ch, hch, hhb, hpuser, ?_, h.linked.status c ch i p.header hch hhb hpuser hhead, ?_, ?_⟩
  · intro x chx hx hhbx hpx
    exact ht.puser_inj x c chx ch hx hch hhbx hhb (hpx.trans hpuser.symm)
  · constructor
    · intro hup nn hnn hnn'
      exact hup (hnode nn hnn hnn').2
    · intro hall hnone
      obtain ⟨nn, hnn, hchd⟩ := h.pending.node c ch hch hhb hnone
      exact hall nn hnn ((ht.node nn hnn ch (hchd ▸ hch)).1.symm.trans hname)
  · intro nn hnn hnn'
    obtain ⟨hchd, -⟩ := hnode nn hnn hnn'
    refine ⟨(ht.node nn hnn ch (hchd ▸ hch)).2.mp hhb, hchd, ?_⟩
    have hcount := List.count_eq_one_of_mem h.pending.names (List.mem_map_of_mem hnn)
    rw [hnn', List.count, List.countP_map] at hcount
    rw [← hcount]
    exact List.countP_congr fun x _ => by simp

/-- **The heartbeat invariant.**  An IOC loaded from a list has one heartbeat channel, connected
exactly while its status is 1 and exactly while its name is not pending, and `connectedIocs` counts
the IOCs that are up; a PV of such an IOC is found only while the heartbeat is connected. -/
theorem heartbeat_coupling (rx : Regex) (s : Server)
    (h : Reachable (nameServer rx Config.OwnHeartbeats) uncrossed s) :
    (∀ i p, s.dir.pIocs i = some p → p.pathToList ≠ [] → ∃ c ch, HeartbeatOf s i p c ch) ∧
    s.connectedIocs = s.dir.upIocs.card ∧ 0 ≤ s.connectedIocs ∧
    ∀ client pPVName search now s' addr i p,
      s.pvExistTest rx client pPVName search now = .ok (s', .existsAt addr) →
      s.dir.owner (Server.recordName pPVName) = some i → s.dir.pIocs i = some p →
      p.pathToList ≠ [] →
      ∃ c ch, HeartbeatOf s i p c ch ∧ ch.server ≠ none := by
  obtain ⟨hwf, ht, hI⟩ := reachable_coupled h
  refine ⟨fun i p hp hpath => hI.heartbeatOf hwf ht hp hpath, hI.count, ?_, ?_⟩
  · rw [hI.count]
    omega
  · intro client pPVName search now s' addr i p hans ho hp hpath
    obtain ⟨c, ch, hc⟩ := hI.heartbeatOf hwf ht hp hpath
    refine ⟨c, ch, hc, hc.status.mpr ?_⟩
    cases Server.pvExistTest_answered hans with
    | hit _ _ ho' hp' hst =>
        rw [ho] at ho'
        cases ho'
        rw [hp] at hp'
        cases hp'
        exact hst

/-- `uncrossed`, evaluated. -/
def uncrossedB (s : Server) : Event → Bool
  | .up c cn => (s.ca.chans c).all fun ch => (List.range s.dir.nextPIoc).all fun j =>
      (s.dir.pIocs j).all fun q => q.pathToList.isEmpty ||
        match ch.callback with
        | .WDprocessChangeConnectionEvent => (ch.puser.bind s.dir.pIocs).all fun p =>
            decide (p.status ≠ 2) || decide (q.iocname = p.iocname) ||
              !(signals cn.fs p.pathToList).contains q.heartbeatName
        | .processChangeConnectionEvent => decide (q.iocname ≠ cn.iocname)
  | .purge _ _ answers => answers.all fun a =>
      decide (a.clear = .normal) && decide (a.search = .normal)
  | _ => true

theorem uncrossed_of_eq_true {s : Server} {e : Event} (hwf : s.dir.WF)
    (h : uncrossedB s e = true) : uncrossed s e := by
  cases e with
  | up c cn =>
      intro ch hch j q hq hpath
      rw [uncrossedB, hch, Option.all_some, List.all_eq_true] at h
      have hj := h j (List.mem_range.mpr (hwf.pIocs_lt j q hq))
      rw [hq, Option.all_some, Bool.or_eq_true] at hj
      have hj' := hj.resolve_left (by simpa using hpath)
      constructor
      · intro hhb i p hpuser hp hst hsig
        rw [show ch.callback = _ from hhb] at hj'
        simp only [hpuser, Option.bind_some, hp, Option.all_some, Bool.or_eq_true,
          decide_eq_true_eq, Bool.not_eq_true', List.contains_eq_mem, decide_eq_false_iff_not] at hj'
        rcases hj' with (hne | hname) | hnot
        · exact absurd hst hne
        · exact hname
        · exact absurd hsig hnot
      · intro hl
        rw [show ch.callback = _ from hl] at hj'
        exact of_decide_eq_true hj'
  | purge now tooLong answers =>
      intro a ha
      rw [uncrossedB, List.all_eq_true] at h
      have hans := h a ha
      rw [Bool.and_eq_true, decide_eq_true_eq, decide_eq_true_eq] at hans
      exact hans
  | down => trivial
  | request => trivial
  | report => trivial

/-- The IOC goes down, its heartbeat is searched for anew, and it comes back. -/
def rebooted : List Event :=
  [.up 0 (connectionTo "a:1" 1 ""), .down 0 2,
    .purge 9 5 [⟨1, .normal, .normal, 9⟩, ⟨1, .normal, .normal, 9⟩],
    .up 1 (connectionTo "a:1" 1 "A:heartbeat x")]

set_option maxRecDepth 10000 in
theorem heartbeat_coupling_rebooted : ∃ s p, run literal uncrossedB oneIoc rebooted = some s ∧
    s.dir.pIocs 0 = some p ∧ p.status = 1 ∧ ∃ c ch, HeartbeatOf s 0 p c ch := by
  have hrun : (run literal uncrossedB oneIoc rebooted).any (fun s => (s.dir.pIocs 0).any fun p =>
      decide (p.status = 1) && decide (p.pathToList ≠ [])) = true := by decide
  obtain ⟨s, hs, hp⟩ := (Option.any_eq_true _ _).mp hrun
  obtain ⟨p, hp, hst⟩ := (Option.any_eq_true _ _).mp hp
  rw [Bool.and_eq_true, decide_eq_true_eq, decide_eq_true_eq] at hst
  have hreach : Reachable (nameServer literal Config.OwnHeartbeats) uncrossed s := by
    refine reachable_of_run (fun _ _ hwf hok => uncrossed_of_eq_true hwf hok) ?_ hs
    intro path hpath path' hpath' _
    have honly : ∀ x ∈ oneIoc.paths, x = "A/sig".toList := by decide
    rw [honly path hpath, honly path' hpath']
  exact ⟨s, p, hs, hp, hst.1, (heartbeat_coupling literal s hreach).1 0 p hp hst.2⟩

end CaNameserver
