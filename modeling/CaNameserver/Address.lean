import CaNameserver.Channels
import CaNameserver.NewEntries
import CaNameserver.Lib.History

/-!
# The addresses that are served

`pvExistTest` answers with the address of the IOC that a PV's entry points to.  Nothing in the
server says which connection that address belongs to: it is written by `set_addr` from a host's
name, when the heartbeat of an IOC connects or when a PV is found at a server that is not up, and
it is read for every PV whose entry points there.  This file says whose address it ought to be and
when it is.

## What is remembered

Whether a PV has been learned, and over which channel, is not in the state: an entry of a list and
one of a learned connection are alike.  Nor is it in the state whether an address has come out of
the resolver or was left over when the resolver failed.  `Sources` keeps both along a run.

* `channel` has, for every entry that a learned connection has made, the channel of that
  connection.  Entries that startup and reloads have made have none.  That an event's own entries
  are the ones from `nextPvE` on is `Dir.Turnover`.
* `endpoint` has, for every IOC, the IP and the port that the resolver has produced for it last.

## What is right

`ServedFrom` is the claim for one answer: the PV's entry points to an IOC; the IP and the port that
are served are those of the server that the channel is connected to, which is the PV's own channel
if it has been learned and the heartbeat's otherwise; and the resolver has produced them for this
IOC.  A learned PV may well be entered under an IOC that has a list, if its server goes by the name
of that IOC: then too it is its own channel that counts.

## When it is right

`addressKnown` is the condition on the events.

* When a heartbeat connects, `locates` asks that the resolver produces its server's address, or
  fails and had produced the very same before; `keepsLearned` asks that the PVs learned at this IOC
  are connected to the same server, unless the list that is read now takes them over.
* When a learned PV connects, `knows` asks that its IOC, if it enters the PV, has or gets the
  address of the PV's server, and that a loaded IOC is not marked up by a namesake.
* When the purge passes, no expired node has a channel that has connected.

`Located` is the invariant that comes out of these, with one lemma for each event that matters
(`heartbeatUp`, `heartbeatDown`, `learnedUp`, `clear`); `served_address` reads the answer off it.
The first way to go wrong is also the shortest: a server whose name is not resolved
(`served_address_unresolved`).
-/

namespace CaNameserver

open CStr Fallible Transition

/-- The IP and the port of an address. -/
def SockAddr.endpoint (a : SockAddr) : InAddr × ℕ := (a.sinAddr, a.sinPort)

/-! ## Resolution -/

namespace Connection

variable {cn : Connection} {old : Option (InAddr × ℕ)} {a : SockAddr}

/-- The port that `set_addr` reads off a server's name. -/
def portNumber (cn : Connection) : ℤ :=
  if ':' ∈ cn.iocname then atoi (cn.iocname.dropWhile (· ≠ ':')).tail else 0

/-- What the resolver makes of a server's name. -/
def resolved (cn : Connection) : Option SockAddr :=
  cn.aToIPAddr (cutAt ':' cn.iocname) cn.portNumber

theorem addr_of_resolved {b : SockAddr} (h : cn.resolved = some b) : cn.addr a = b := by
  unfold resolved portNumber at h
  simp only [addr, Dir.resolveAddr, h]

/-- Without an answer only the family and the port are written. -/
theorem addr_of_unresolved (h : cn.resolved = none) :
    (cn.addr a).endpoint = (a.sinAddr, (cn.portNumber % 65536).toNat) := by
  have hport : (if ':' ∈ cn.iocname then (cn.portNumber % 65536).toNat else 0) =
      (cn.portNumber % 65536).toNat := by
    split_ifs with hcolon
    · rfl
    · simp [portNumber, hcolon]
  rw [← hport]
  unfold resolved portNumber at h
  simp only [addr, Dir.resolveAddr, h, SockAddr.endpoint]
  split_ifs with hcolon <;> simp [portNumber, hcolon]

/-- What the resolver has produced last, when it had produced `old` before. -/
def produces (cn : Connection) (old : Option (InAddr × ℕ)) : Option (InAddr × ℕ) :=
  (cn.resolved.map SockAddr.endpoint).or old

/-- The address an IOC gets is that of its server: the resolver produces it, or fails and had
produced it before. -/
def locates (cn : Connection) (old : Option (InAddr × ℕ)) : Bool :=
  match cn.resolved with
  | some a => decide (a.endpoint = cn.server.endpoint)
  | none => decide (old = some cn.server.endpoint ∧
      (cn.portNumber % 65536).toNat = cn.server.sinPort)

theorem produces_of_locates (h : cn.locates old = true) :
    cn.produces old = some cn.server.endpoint := by
  unfold locates at h
  unfold produces
  split at h
  · rename_i b hb
    rw [hb, Option.map_some, Option.some_or, of_decide_eq_true h]
  · rename_i hnone
    rw [hnone, Option.map_none, Option.none_or, (of_decide_eq_true h).1]

theorem addr_of_locates (h : cn.locates old = true) (hold : ∀ e, old = some e → a.endpoint = e) :
    (cn.addr a).endpoint = cn.server.endpoint := by
  unfold locates at h
  split at h
  · rename_i b hb
    rw [addr_of_resolved hb]
    exact of_decide_eq_true h
  · rename_i hnone
    obtain ⟨hsome, hport⟩ := of_decide_eq_true h
    have hip : a.sinAddr = cn.server.sinAddr := congrArg Prod.fst (hold _ hsome)
    rw [addr_of_unresolved hnone, hip, hport]
    rfl

/-- What is produced first is what is written. -/
theorem addr_of_produces {e : InAddr × ℕ} (h : cn.produces none = some e) :
    (cn.addr a).endpoint = e := by
  rw [produces, Option.or_none, Option.map_eq_some_iff] at h
  obtain ⟨b, hb, rfl⟩ := h
  rw [addr_of_resolved hb]

end Connection

/-! ## What is remembered -/

/-- The channels that the entries of learned PVs come from, and what the resolver has produced last
for each IOC. -/
structure Sources where
  channel : PvEId → Option Chid
  endpoint : IocId → Option (InAddr × ℕ)

/-- Nothing has been learned or resolved. -/
def Sources.empty : Sources := ⟨fun _ => none, fun _ => none⟩

/-- The learned channel whose connection makes the entries of an event. -/
def Server.finder (s : Server) : Event → Option Chid
  | .up c _ => (s.ca.chans c).bind fun ch =>
      if ch.callback = .processChangeConnectionEvent then some c else none
  | _ => none

/-- The IOC whose address a connection sets: that of a heartbeat, or that of a learned PV unless it
is up. -/
def Server.told (s : Server) (c : Chid) (cn : Connection) : Option IocId :=
  (s.ca.chans c).bind fun ch =>
    if ch.callback = .WDprocessChangeConnectionEvent then ch.puser
    else
      let site := s.dir.findOrInstallIoc cn.iocname
      if (site.1.pIocs site.2).any fun p => decide (p.status = 2 ∨ p.status = 0) then some site.2
      else none

/-- What an event adds: its new entries, and what the resolver has produced. -/
def Sources.next (s : Server) (e : Event) (g : Sources) : Sources where
  channel x := if x < s.dir.nextPvE then g.channel x else s.finder e
  endpoint i := match e with
    | .up c cn => if s.told c cn = some i then cn.produces (g.endpoint i) else g.endpoint i
    | _ => g.endpoint i

/-- The name server, with the sources of its entries and addresses. -/
def sourcedServer (rx : Regex) (start : Config → Prop) : System (Server × Sources) Event :=
  (nameServer rx start).remember (fun _ => Sources.empty) Sources.next

/-! ## The condition on the events -/

/-- The list that an IOC reads when its heartbeat connects takes the PV over. -/
def Dir.relists (d : Dir) (i : IocId) (cn : Connection) (n : Name) : Bool :=
  (d.pIocs i).any fun p =>
    decide (p.status = 2 ∧ n ≠ p.heartbeatName) &&
      (signals cn.fs p.pathToList).any fun m => decide (m = n)

/-- The PVs that have been learned at an IOC are connected to the server that its heartbeat connects
to, or become its list's. -/
def Server.keepsLearned (s : Server) (g : Sources) (i : IocId) (cn : Connection) : Bool :=
  (List.range s.dir.nextPvE).all fun x => (g.channel x).all fun c => (s.ca.chans c).all fun ch =>
    !decide (s.dir.stringResTbl ch.name = some x ∧ s.dir.owner ch.name = some i) ||
      s.dir.relists i cn ch.name ||
      ch.server.any fun a => decide (a.endpoint = cn.server.endpoint)

/-- The IOC that a learned PV is entered under has, or gets, the address of its server.  One that
has a list is up. -/
def Dir.knows (d : Dir) (g : Sources) (cn : Connection) (n : Name) : Bool :=
  ((d.findOrInstallIoc cn.iocname).1.pIocs (d.findOrInstallIoc cn.iocname).2).all fun p =>
    if p.status = 1 then !d.enters n p ||
      decide (g.endpoint (d.findOrInstallIoc cn.iocname).2 = some cn.server.endpoint)
    else decide (p.pathToList = []) && (!d.enters n p || cn.locates none)

/-- The address of every server is known when it connects, and the purge finds no expired node
whose channel has connected. -/
def addressKnown (s : Server) (g : Sources) : Event → Bool
  | .up c cn => (s.ca.chans c).all fun ch =>
      match ch.callback with
      | .WDprocessChangeConnectionEvent =>
          ch.puser.all fun i => cn.locates (g.endpoint i) && s.keepsLearned g i cn
      | .processChangeConnectionEvent => s.dir.knows g cn ch.name
  | .purge now tooLong _ => s.nameList.all fun nn =>
      decide (now ≤ nn.otime + tooLong) ||
        (s.ca.chans nn.chd).all fun ch => decide (ch.server = none)
  | _ => true

theorem Server.server_of_keepsLearned {s : Server} {g : Sources} {i : IocId} {cn : Connection}
    (h : s.keepsLearned g i cn = true) (hwf : s.dir.WF) {x : PvEId} {c : Chid} {ch : Channel}
    (hx : s.dir.stringResTbl ch.name = some x) (ho : s.dir.owner ch.name = some i)
    (hc : g.channel x = some c) (hch : s.ca.chans c = some ch)
    (hnot : s.dir.relists i cn ch.name = false) :
    ∃ a, ch.server = some a ∧ a.endpoint = cn.server.endpoint := by
  obtain ⟨pv, hpv, -⟩ := hwf.table _ x hx
  rw [keepsLearned, List.all_eq_true] at h
  have hsource := h x (List.mem_range.mpr (hwf.pvEs_lt x pv hpv))
  rw [hc, Option.all_some, hch, Option.all_some, hnot, Bool.or_false, decide_eq_true ⟨hx, ho⟩,
    Bool.not_true, Bool.false_or, Option.any_eq_true] at hsource
  obtain ⟨a, ha, hend⟩ := hsource
  exact ⟨a, ha, of_decide_eq_true hend⟩

/-- An IOC that was there is up, and keeps its address; a new one gets that of the server, if it
can be resolved. -/
theorem Dir.Learned.met_cases {d d' : Dir} {cn : Connection} {n : Name} {i : IocId} {p : PIoc}
    (h : d.Learned cn n i p d') (hwf : d.WF) (hup : d.pIocs i = some p → p.status = 1) :
    (d.header i = some { p.header with status := 1 } ∧ p.status = 1 ∧ p.met cn = p) ∨
      (i = d.nextPIoc ∧ p.pathToList = [] ∧ p.status = 0 ∧ (p.met cn).addr = cn.addr p.addr ∧
        d.header i = none) := by
  rcases h.site_cases hwf with ⟨-, hpi, -⟩ | ⟨-, hnone, hnext, hfresh⟩
  · have hst := hup hpi
    refine Or.inl ⟨?_, hst, ?_⟩
    · rw [Dir.header_of_pIocs hpi, ← hst]
      rfl
    · rw [PIoc.met, if_neg (by omega)]
  · refine Or.inr ⟨hnext, ?_⟩
    rw [hfresh]
    exact ⟨rfl, rfl, by rw [PIoc.met, if_pos (Or.inr rfl)], Dir.header_eq_none_iff.mpr hnone⟩

/-! ## What an event remembers -/

section Remembered

variable {s : Server} {g : Sources} {e : Event} {c : Chid} {cn : Connection} {ch : Channel}
  {i j : IocId} {n : Name} {x : PvEId} {p : PIoc} {d' : Dir}

/-- The entries that are there keep their channels. -/
theorem Sources.next_channel (hwf : s.dir.WF) (hx : s.dir.stringResTbl n = some x) :
    (Sources.next s e g).channel x = g.channel x := by
  obtain ⟨pv, hpv, -⟩ := hwf.table n x hx
  exact if_pos (hwf.pvEs_lt x pv hpv)

/-- An entry after the event is an old one, with its owner and its channel, or has been made for the
IOC of the event. -/
theorem Dir.Turnover.source (h : s.dir.Turnover i d') (hwf : s.dir.WF)
    (hx : d'.stringResTbl n = some x) :
    (s.dir.stringResTbl n = some x ∧ d'.owner n = s.dir.owner n ∧
      (Sources.next s e g).channel x = g.channel x) ∨
    (s.dir.nextPvE ≤ x ∧ d'.owner n = some i ∧ (Sources.next s e g).channel x = s.finder e) := by
  rcases h.entry n x hx with ⟨hx₀, hpv⟩ | ⟨hnew, howner⟩
  · exact Or.inl ⟨hx₀, Dir.Turnover.owner_eq hx₀ hx hpv, Sources.next_channel hwf hx₀⟩
  · exact Or.inr ⟨hnew, howner, if_neg (Nat.not_lt.mpr hnew)⟩

/-- A heartbeat makes the entries of its list. -/
theorem Server.finder_heartbeat (hch : s.ca.chans c = some ch) (hhb : ch.IsHeartbeat) :
    s.finder (.up c cn) = none := by
  rw [finder, hch, Option.bind_some, show ch.callback = _ from hhb, if_neg (by decide)]

theorem Server.finder_learned (hch : s.ca.chans c = some ch) (hl : ch.IsLearned) :
    s.finder (.up c cn) = some c := by
  rw [finder, hch, Option.bind_some, if_pos (show ch.callback = _ from hl)]

theorem Server.told_learned (hch : s.ca.chans c = some ch) (hl : ch.IsLearned)
    (hi : (s.dir.findOrInstallIoc cn.iocname).2 = i)
    (hp : (s.dir.findOrInstallIoc cn.iocname).1.pIocs i = some p) :
    s.told c cn = if p.status = 2 ∨ p.status = 0 then some i else none := by
  rw [told, hch, Option.bind_some, show ch.callback = _ from hl, if_neg (by decide)]
  simp only [hi, hp, Option.any_some, decide_eq_true_eq]

/-- A learned PV's connection tells no other IOC anything. -/
theorem Sources.next_endpoint_of_ne (hch : s.ca.chans c = some ch) (hl : ch.IsLearned)
    (hi : (s.dir.findOrInstallIoc cn.iocname).2 = i)
    (hp : (s.dir.findOrInstallIoc cn.iocname).1.pIocs i = some p) (hj : j ≠ i) :
    (Sources.next s (.up c cn) g).endpoint j = g.endpoint j := by
  refine if_neg ?_
  rw [Server.told_learned hch hl hi hp]
  split_ifs
  · exact fun heq => hj (Option.some.inj heq).symm
  · exact nofun

/-- A heartbeat whose server can be located: its IOC is given the address of the server. -/
theorem Sources.next_endpoint_heartbeat (hch : s.ca.chans c = some ch) (hhb : ch.IsHeartbeat)
    (hpuser : ch.puser = some i) (hloc : cn.locates (g.endpoint i) = true) :
    (Sources.next s (.up c cn) g).endpoint j =
      if j = i then some cn.server.endpoint else g.endpoint j := by
  have htold : s.told c cn = some i := by
    rw [Server.told, hch, Option.bind_some, if_pos (show ch.callback = _ from hhb), hpuser]
  show (if s.told c cn = some j then cn.produces (g.endpoint j) else g.endpoint j) = _
  rw [htold]
  by_cases hj : j = i
  · subst hj
    rw [if_pos rfl, if_pos rfl, Connection.produces_of_locates hloc]
  · rw [if_neg (fun heq => hj (Option.some.inj heq).symm), if_neg hj]

/-- A PV of the IOC that keeps its entry has not been taken over by the list. -/
theorem Dir.Reloaded.relists_eq_false {d : Dir} (hd : d.Reloaded i cn d') (hwf : d.WF)
    (hx : d.stringResTbl n = some x) (ho : d.owner n = some i) (hx' : d'.stringResTbl n = some x) :
    d.relists i cn n = false := by
  obtain ⟨p, hp⟩ := hd.pIocs
  obtain ⟨pv, hpv, -⟩ := hwf.table n x hx
  by_contra htrue
  rw [Bool.not_eq_false, relists, hp, Option.any_some, Bool.and_eq_true, decide_eq_true_eq,
    List.any_eq_true] at htrue
  obtain ⟨⟨hdown, hne⟩, m, hm, hmn⟩ := htrue
  obtain rfl : m = n := of_decide_eq_true hmn
  exact absurd (hd.new_of_mem hwf hp hdown hne hm ho hx') (Nat.not_le.mpr (hwf.pvEs_lt x pv hpv))

end Remembered

/-! ## The invariant -/

/-- A channel connected to an address. -/
def Ca.ConnectedTo (ca : Ca) (c : Chid) (ch : Channel) (e : InAddr × ℕ) : Prop :=
  ca.chans c = some ch ∧ ∃ a, ch.server = some a ∧ a.endpoint = e

theorem Ca.ConnectedTo.setChan_of_ne {ca : Ca} {x c : Chid} {chx ch' : Channel} {e : InAddr × ℕ}
    (h : ca.ConnectedTo x chx e) (hxc : x ≠ c) : (ca.setChan c ch').ConnectedTo x chx e :=
  ⟨by rw [Ca.setChan_chans, if_neg hxc, h.1], h.2⟩

theorem Ca.ConnectedTo.setChan {ca : Ca} {x c : Chid} {chx ch ch' : Channel} {e : InAddr × ℕ}
    (h : ca.ConnectedTo x chx e) (hch : ca.chans c = some ch) (hserver : ch.server = none) :
    (ca.setChan c ch').ConnectedTo x chx e := by
  refine h.setChan_of_ne ?_
  obtain ⟨hx, a, ha, -⟩ := h
  rintro rfl
  rw [hch] at hx
  cases hx
  rw [hserver] at ha
  cases ha

/-- Where the addresses of the IOCs come from. -/
structure Located (s : Server) (g : Sources) : Prop where
  up : ∀ c ch i p, s.ca.chans c = some ch → ch.IsHeartbeat → ch.server ≠ none →
    ch.puser = some i → s.dir.header i = some p → p.status ≠ 0
  /-- what the resolver has produced for an IOC is its address -/
  resolved : ∀ i e, g.endpoint i = some e → ∃ p, s.dir.header i = some p ∧ p.addr.endpoint = e
  /-- a loaded IOC that is up has the address its heartbeat is connected to -/
  loaded : ∀ i p, s.dir.header i = some p → p.pathToList ≠ [] → p.status = 1 →
    ∃ c ch, s.ca.ConnectedTo c ch p.addr.endpoint ∧ ch.IsHeartbeat ∧ ch.puser = some i
  produced : ∀ i p, s.dir.header i = some p → p.pathToList ≠ [] → p.status ≠ 0 →
    g.endpoint i = some p.addr.endpoint
  /-- a learned IOC is up -/
  learned : ∀ i p, s.dir.header i = some p → p.pathToList = [] → p.status = 1
  /-- only lists make entries that come from no channel -/
  listed : ∀ n x i p, s.dir.stringResTbl n = some x → g.channel x = none →
    s.dir.owner n = some i → s.dir.header i = some p → p.pathToList ≠ []
  /-- a PV that has been learned is connected to the address of its IOC -/
  own : ∀ n x c i p, s.dir.stringResTbl n = some x → g.channel x = some c →
    s.dir.owner n = some i → s.dir.header i = some p → g.endpoint i = some p.addr.endpoint ∧
    ∃ ch, s.ca.ConnectedTo c ch p.addr.endpoint ∧ ch.IsLearned ∧ ch.name = n

namespace Located

variable {s s' : Server} {g g' : Sources}

/-- Addresses stay, and connected channels that count stay open. -/
theorem keep (h : Located s g) (hhead : s'.dir.header = s.dir.header)
    (hentry : ∀ n x, s'.dir.stringResTbl n = some x →
      s.dir.stringResTbl n = some x ∧ s'.dir.owner n = s.dir.owner n ∧
        g'.channel x = g.channel x)
    (hend : g'.endpoint = g.endpoint)
    (hchan : ∀ c ch, s.ca.chans c = some ch → ch.server ≠ none →
      ch.IsHeartbeat ∨ s'.dir.stringResTbl ch.name ≠ none → s'.ca.chans c = some ch)
    (hold : ∀ c ch, s'.ca.chans c = some ch → ch.server ≠ none → s.ca.chans c = some ch) :
    Located s' g' where
  up := fun c ch i p hch hhb hne hpuser hp =>
    h.up c ch i p (hold c ch hch hne) hhb hne hpuser (hhead ▸ hp)
  resolved := by
    rw [hend, hhead]
    exact h.resolved
  loaded := by
    intro i p hp hpath hst
    obtain ⟨c, ch, ⟨hch, a, ha, hend⟩, hhb, hpuser⟩ := h.loaded i p (hhead ▸ hp) hpath hst
    have hne : ch.server ≠ none := by simp [ha]
    exact ⟨c, ch, ⟨hchan c ch hch hne (Or.inl hhb), a, ha, hend⟩, hhb, hpuser⟩
  produced := by
    rw [hend, hhead]
    exact h.produced
  learned := by
    rw [hhead]
    exact h.learned
  listed := by
    intro n x i p hx hnone ho hp
    obtain ⟨hx₀, ho₀, hsame⟩ := hentry n x hx
    exact h.listed n x i p hx₀ (hsame ▸ hnone) (ho₀ ▸ ho) (hhead ▸ hp)
  own := by
    intro n x c i p hx hc ho hp
    obtain ⟨hx₀, ho₀, hsame⟩ := hentry n x hx
    obtain ⟨hres, ch, ⟨hch, a, ha, hat⟩, hl, hname⟩ :=
      h.own n x c i p hx₀ (hsame ▸ hc) (ho₀ ▸ ho) (hhead ▸ hp)
    have hne : ch.server ≠ none := by simp [ha]
    have hmem : s'.dir.stringResTbl ch.name ≠ none := by simp [hname, hx]
    exact ⟨by rw [hend, hres], ch, ⟨hchan c ch hch hne (Or.inr hmem), a, ha, hat⟩, hl, hname⟩

/-- Nothing happens to the directory. -/
theorem keep_dir (h : Located s g) {e : Event} (hwf : s.dir.WF) (hdir : s'.dir = s.dir)
    (he : ∀ c cn, e ≠ .up c cn)
    (hchan : ∀ c ch, s.ca.chans c = some ch → ch.server ≠ none → s'.ca.chans c = some ch)
    (hold : ∀ c ch, s'.ca.chans c = some ch → ch.server ≠ none → s.ca.chans c = some ch) :
    Located s' (Sources.next s e g) := by
  refine h.keep (by rw [hdir]) (fun n x hx => ?_) ?_ (fun c ch hch hne _ => hchan c ch hch hne) hold
  · rw [hdir] at hx ⊢
    exact ⟨hx, rfl, Sources.next_channel hwf hx⟩
  · funext i
    cases e with
    | up c cn => exact absurd rfl (he c cn)
    | _ => rfl

/-- A heartbeat connects, and its IOC gets the address it is connected to. -/
theorem heartbeatUp (h : Located s g) (hwf : s.dir.WF) (ht : Tied s.dir s.nameList s.ca)
    {c : Chid} {cn : Connection} {ch : Channel} {i : IocId} {d' : Dir} {l : List Namenode} {k : ℤ}
    (hok : addressKnown s g (.up c cn) = true) (hch : s.ca.chans c = some ch)
    (hserver : ch.server = none) (hhb : ch.IsHeartbeat) (hpuser : ch.puser = some i)
    (hd : s.dir.Reloaded i cn d') :
    Located { s with
      dir := d'
      nameList := l
      connectedIocs := k
      ca := s.ca.setChan c { ch with server := some cn.server } }
      (Sources.next s (.up c cn) g) := by
  obtain ⟨p, hp⟩ := hd.pIocs
  obtain ⟨hpath, -⟩ := ht.puser_path hch hhb hpuser hp
  have hhead := hd.header hp
  have hp' := Dir.header_of_pIocs hp
  obtain ⟨hloc, hkeep⟩ : cn.locates (g.endpoint i) = true ∧ s.keepsLearned g i cn = true := by
    rw [addressKnown, hch, Option.all_some, show ch.callback = _ from hhb, hpuser] at hok
    simpa using hok
  have hres : ∀ j, (Sources.next s (.up c cn) g).endpoint j =
      if j = i then some cn.server.endpoint else g.endpoint j :=
    fun _ => Sources.next_endpoint_heartbeat hch hhb hpuser hloc
  have haddr : (p.reconnected cn).addr.endpoint = cn.server.endpoint := by
    refine Connection.addr_of_locates hloc fun e he => ?_
    obtain ⟨q, hq, hend⟩ := h.resolved i e he
    rw [hp'] at hq
    cases hq
    exact hend
  have hold : ∀ j q, j ≠ i → d'.header j = some q → s.dir.header j = some q := by
    intro j q hj hq
    rw [hhead, if_neg hj] at hq
    exact hq
  have hself : ∀ q, d'.header i = some q → q = (p.reconnected cn).header := by
    intro q hq
    rw [hhead, if_pos rfl] at hq
    exact (Option.some.inj hq).symm
  have hentry := fun {n : Name} {x : PvEId} (hx : d'.stringResTbl n = some x) =>
    (hd.turnover hwf).source (g := g) (e := .up c cn) hwf hx
  have hfinder : s.finder (.up c cn) = none := Server.finder_heartbeat hch hhb
  refine ⟨?up, ?resolved, ?loaded, ?produced, ?learned, ?listed, ?own⟩
  case up =>
    intro x chx j q hx hhbx hne hpx hq
    by_cases hj : j = i
    · rw [hself q (hj ▸ hq)]
      show (if p.status = 0 ∨ p.status = 2 then 1 else p.status) ≠ 0
      split_ifs <;> omega
    · change (s.ca.setChan c _).chans x = some chx at hx
      rw [Ca.setChan_chans] at hx
      split_ifs at hx
      · cases hx
        exact absurd (Option.some.inj (hpx.symm.trans hpuser)) hj
      · exact h.up x chx j q hx hhbx hne hpx (hold j q hj hq)
  case resolved =>
    intro j e he
    rw [hres] at he
    split_ifs at he with hj
    · cases he
      exact ⟨(p.reconnected cn).header, by rw [hj]; exact (hhead i).trans (if_pos rfl), haddr⟩
    · obtain ⟨q, hq, hend⟩ := h.resolved j e he
      exact ⟨q, ((hhead j).trans (if_neg hj)).trans hq, hend⟩
  case loaded =>
    intro j q hq hqpath hst
    by_cases hj : j = i
    · rw [hself q (hj ▸ hq)]
      exact ⟨c, { ch with server := some cn.server }, ⟨by rw [Ca.setChan_chans, if_pos rfl],
        cn.server, rfl, haddr.symm⟩, hhb, hpuser.trans (congrArg some hj.symm)⟩
    · obtain ⟨x, chx, hx, hhbx, hpx⟩ := h.loaded j q (hold j q hj hq) hqpath hst
      exact ⟨x, chx, hx.setChan hch hserver, hhbx, hpx⟩
  case produced =>
    intro j q hq hqpath hst
    rw [hres]
    split_ifs with hj
    · rw [hself q (hj ▸ hq)]
      exact congrArg some haddr.symm
    · exact h.produced j q (hold j q hj hq) hqpath hst
  case learned =>
    intro j q hq hqpath
    refine h.learned j q (hold j q ?_ hq) hqpath
    rintro rfl
    rw [hself q hq] at hqpath
    exact hpath hqpath
  case listed =>
    intro n x j q hx hnone ho hq
    by_cases hj : j = i
    · rw [hself q (hj ▸ hq)]
      exact hpath
    · rcases hentry hx with ⟨hx₀, howner, hsame⟩ | ⟨-, howner, -⟩
      · exact h.listed n x j q hx₀ (hsame ▸ hnone) (howner ▸ ho) (hold j q hj hq)
      · exact absurd (Option.some.inj (ho.symm.trans howner)) hj
  case own =>
    intro n x c' j q hx hc' ho hq
    rcases hentry hx with ⟨hx₀, howner, hsame⟩ | ⟨-, -, hsame⟩
    · have ho₀ : s.dir.owner n = some j := howner ▸ ho
      have hc₀ : g.channel x = some c' := hsame ▸ hc'
      by_cases hj : j = i
      · -- a PV learned at this IOC, which stays the channel's
        subst hj
        obtain ⟨-, ch', ⟨hch', -⟩, hl, rfl⟩ := h.own n x c' j p.header hx₀ hc₀ ho₀ hp'
        have hnot : s.dir.relists j cn ch'.name = false := hd.relists_eq_false hwf hx₀ ho₀ hx
        obtain ⟨a, ha, hend⟩ :=
          Server.server_of_keepsLearned hkeep hwf hx₀ ho₀ hc₀ hch' hnot
        have haddr' : q.addr.endpoint = cn.server.endpoint := by
          rw [hself q hq]
          exact haddr
        refine ⟨by rw [hres, if_pos rfl, haddr'], ch', ?_, hl, rfl⟩
        have hconn : s.ca.ConnectedTo c' ch' q.addr.endpoint :=
          ⟨hch', a, ha, hend.trans haddr'.symm⟩
        exact hconn.setChan hch hserver
      · obtain ⟨hprod, ch', hconn, hl, hname⟩ :=
          h.own n x c' j q hx₀ hc₀ ho₀ (hold j q hj hq)
        exact ⟨by rw [hres, if_neg hj, hprod], ch', hconn.setChan hch hserver, hl, hname⟩
    · rw [hsame, hfinder] at hc'
      cases hc'

/-- A heartbeat disconnects, and its IOC is down. -/
theorem heartbeatDown (h : Located s g) (hwf : s.dir.WF) (ht : Tied s.dir s.nameList s.ca)
    {c : Chid} {now : ℕ} {ch : Channel} {i : IocId} {p : PIoc} {l : List Namenode} {k : ℤ}
    (hch : s.ca.chans c = some ch) (hserver : ch.server ≠ none) (hhb : ch.IsHeartbeat)
    (hpuser : ch.puser = some i) (hp : s.dir.pIocs i = some p) :
    Located { s with
      dir := s.dir.setPIoc i { p with status := 2 }
      nameList := l
      connectedIocs := k
      ca := s.ca.setChan c { ch with server := none } }
      (Sources.next s (.down c now) g) := by
  obtain ⟨hpath, -⟩ := ht.puser_path hch hhb hpuser hp
  have hp' := Dir.header_of_pIocs hp
  have hhead := fun j => s.dir.header_setPIoc i j { p with status := 2 }
  have hchannel : ∀ n x, s.dir.stringResTbl n = some x →
      (Sources.next s (.down c now) g).channel x = g.channel x :=
    fun _ _ hx => Sources.next_channel hwf hx
  have hself : ∀ q, (s.dir.setPIoc i { p with status := 2 }).header i = some q →
      q = { p with status := 2 }.header := by
    intro q hq
    rw [hhead, if_pos rfl] at hq
    exact (Option.some.inj hq).symm
  -- the IOC keeps its address, and so do the others
  have hold : ∀ j q, (s.dir.setPIoc i { p with status := 2 }).header j = some q →
      ∃ q₀, s.dir.header j = some q₀ ∧ q.addr = q₀.addr ∧ q.pathToList = q₀.pathToList ∧
        (j ≠ i → q = q₀) := by
    intro j q hq
    by_cases hj : j = i
    · rw [hj] at hq ⊢
      rw [hself q hq]
      exact ⟨p.header, hp', rfl, rfl, fun hne => absurd rfl hne⟩
    · rw [hhead, if_neg hj] at hq
      exact ⟨q, hq, rfl, rfl, fun _ => rfl⟩
  refine ⟨?up, ?resolved, ?loaded, ?produced, ?learned, ?listed, ?own⟩
  case up =>
    intro x chx j q hx hhbx hne hpx hq
    by_cases hj : j = i
    · rw [hself q (hj ▸ hq)]
      show (2 : ℕ) ≠ 0
      omega
    · change (s.ca.setChan c _).chans x = some chx at hx
      rw [Ca.setChan_chans] at hx
      split_ifs at hx
      · cases hx
        exact absurd rfl hne
      · obtain ⟨q₀, hq₀, -, -, heq⟩ := hold j q hq
        exact heq hj ▸ h.up x chx j q₀ hx hhbx hne hpx hq₀
  case resolved =>
    intro j e he
    obtain ⟨q, hq, hend⟩ := h.resolved j e he
    by_cases hj : j = i
    · rw [hj, hp'] at hq
      cases hq
      exact ⟨{ p with status := 2 }.header, by rw [hj]; exact (hhead i).trans (if_pos rfl), hend⟩
    · exact ⟨q, ((hhead j).trans (if_neg hj)).trans hq, hend⟩
  case loaded =>
    intro j q hq hqpath hst
    have hj : j ≠ i := by
      rintro rfl
      rw [hself q hq] at hst
      cases hst
    obtain ⟨q₀, hq₀, -, -, heq⟩ := hold j q hq
    obtain rfl := heq hj
    obtain ⟨x, chx, hx, hhbx, hpx⟩ := h.loaded j q hq₀ hqpath hst
    refine ⟨x, chx, hx.setChan_of_ne ?_, hhbx, hpx⟩
    rintro rfl
    cases hch.symm.trans hx.1
    rw [hpuser] at hpx
    exact hj (Option.some.inj hpx).symm
  case produced =>
    intro j q hq hqpath hst
    obtain ⟨q₀, hq₀, haddr, hqpath₀, heq⟩ := hold j q hq
    rw [haddr]
    refine h.produced j q₀ hq₀ (hqpath₀ ▸ hqpath) ?_
    by_cases hj : j = i
    · -- an IOC that goes down has been up
      subst hj
      exact h.up c ch j q₀ hch hhb hserver hpuser hq₀
    · exact heq hj ▸ hst
  case learned =>
    intro j q hq hqpath
    obtain ⟨q₀, hq₀, -, hqpath₀, heq⟩ := hold j q hq
    by_cases hj : j = i
    · subst hj
      rw [hp'] at hq₀
      cases hq₀
      exact absurd (hqpath₀.symm.trans hqpath) hpath
    · exact heq hj ▸ h.learned j q₀ hq₀ (hqpath₀ ▸ hqpath)
  case listed =>
    intro n x j q hx hnone ho hq
    obtain ⟨q₀, hq₀, -, hqpath₀, -⟩ := hold j q hq
    rw [hqpath₀]
    exact h.listed n x j q₀ hx (hchannel n x hx ▸ hnone) ho hq₀
  case own =>
    intro n x c' j q hx hc' ho hq
    obtain ⟨q₀, hq₀, haddr, -, -⟩ := hold j q hq
    obtain ⟨hprod, ch', hconn, hl, hname⟩ :=
      h.own n x c' j q₀ hx (hchannel n x hx ▸ hc') ho hq₀
    rw [haddr]
    refine ⟨hprod, ch', hconn.setChan_of_ne ?_, hl, hname⟩
    rintro rfl
    cases hch.symm.trans hconn.1
    exact Channel.not_isHeartbeat hl hhb

/-- After a learned PV has connected, an IOC is one that was there, as it was, or the new one, whose
address has just been written. -/
theorem header_learned (h : Located s g) (hwf : s.dir.WF) {c : Chid} {cn : Connection} {ch : Channel}
    {n : Name} {i j : IocId} {p q : PIoc} {d' : Dir} (hch : s.ca.chans c = some ch)
    (hl : ch.IsLearned) (hd : s.dir.Learned cn n i p d')
    (hup : s.dir.pIocs i = some p → p.status = 1) (hq : d'.header j = some q) :
    (s.dir.header j = some q ∧ (Sources.next s (.up c cn) g).endpoint j = g.endpoint j ∧
      (j = i → p.status = 1)) ∨
    (j = i ∧ j = s.dir.nextPIoc ∧ p.status ≠ 1 ∧ q.pathToList = [] ∧ q.status = 1 ∧
      q.addr = cn.addr p.addr ∧
      (Sources.next s (.up c cn) g).endpoint j = cn.produces none) := by
  obtain ⟨hi, hp⟩ := hd.found
  rw [hd.header hwf] at hq
  by_cases hj : j = i
  · subst hj
    have hend : (Sources.next s (.up c cn) g).endpoint j =
        if s.told c cn = some j then cn.produces (g.endpoint j) else g.endpoint j := rfl
    rw [Server.told_learned hch hl hi hp] at hend
    rw [if_pos rfl] at hq
    cases hq
    rcases hd.met_cases hwf hup with ⟨hold, hst, hmet⟩ | ⟨hnext, hpath, hst, haddr, hnone⟩
    · rw [if_neg (show ¬(p.status = 2 ∨ p.status = 0) by omega), if_neg (by simp)] at hend
      rw [hmet]
      exact Or.inl ⟨hold, hend, fun _ => hst⟩
    · have hnone' : g.endpoint j = none := by
        cases he : g.endpoint j with
        | none => rfl
        | some e =>
            obtain ⟨q, hq, -⟩ := h.resolved j e he
            rw [hnone] at hq
            cases hq
      rw [if_pos (Or.inr hst), if_pos rfl, hnone'] at hend
      exact Or.inr ⟨rfl, hnext, by omega, by simpa [PIoc.header] using hpath, rfl, haddr, hend⟩
  · rw [if_neg hj] at hq
    exact Or.inl ⟨hq, Sources.next_endpoint_of_ne hch hl hi hp hj, fun heq => absurd heq hj⟩

/-- A learned PV connects: its IOC keeps the address it had, or gets one. -/
theorem learnedUp (h : Located s g) (hwf : s.dir.WF) (ht : Tied s.dir s.nameList s.ca)
    {c : Chid} {cn : Connection} {ch ch' : Channel} {i : IocId} {p : PIoc} {d' : Dir}
    {l : List Namenode} (hok : addressKnown s g (.up c cn) = true) (hch : s.ca.chans c = some ch)
    (hserver : ch.server = none) (hl : ch.IsLearned) (hch' : ch'.name = ch.name ∧
      ch'.callback = ch.callback ∧ ch'.server = some cn.server)
    (hd : s.dir.Learned cn (cutAt '.' ch.name) i p d') :
    Located { s with
      dir := d'
      nameList := l
      ca := s.ca.setChan c ch' }
      (Sources.next s (.up c cn) g) := by
  rw [cutAt_eq_self (ht.learned c ch hch hl)] at hd
  obtain ⟨hi, hp⟩ := hd.found
  have hknow : (if p.status = 1 then !s.dir.enters ch.name p ||
      decide (g.endpoint i = some cn.server.endpoint)
    else decide (p.pathToList = []) && (!s.dir.enters ch.name p || cn.locates none)) = true := by
    rw [addressKnown, hch, Option.all_some, show ch.callback = _ from hl] at hok
    change s.dir.knows g cn ch.name = true at hok
    rwa [Dir.knows, hi, hp, Option.all_some] at hok
  have hhead := hd.header hwf
  have hup : s.dir.pIocs i = some p → p.status = 1 := by
    intro hpi
    by_contra hst
    rw [if_neg hst, Bool.and_eq_true, decide_eq_true_eq] at hknow
    exact hst (h.learned i p.header (Dir.header_of_pIocs hpi) hknow.1)
  have hentry : ∀ n x, d'.stringResTbl n = some x →
      (s.dir.stringResTbl n = some x ∧ d'.owner n = s.dir.owner n ∧
        (Sources.next s (.up c cn) g).channel x = g.channel x) ∨
      (n = ch.name ∧ d'.owner n = some i ∧ s.dir.enters ch.name p = true ∧
        (Sources.next s (.up c cn) g).channel x = some c) := by
    intro n x hx
    refine ((hd.turnover hwf).source hwf hx).imp id ?_
    rintro ⟨hnew, howner, hsame⟩
    obtain rfl := hd.eq_of_new hwf hx hnew
    exact ⟨rfl, howner, hd.enters_of_new hwf hx hnew, hsame.trans (Server.finder_learned hch hl)⟩
  have hself : (s.ca.setChan c ch').chans c = some ch' := by rw [Ca.setChan_chans, if_pos rfl]
  have hheader := fun {j : IocId} {q : PIoc} (hq : d'.header j = some q) =>
    h.header_learned hwf hch hl hd hup hq
  refine ⟨?up, ?resolved, ?loaded, ?produced, ?learned, ?listed, ?own⟩
  case up =>
    intro x chx j q hx hhbx hne hpx hq
    rcases hheader hq with ⟨hq₀, -⟩ | ⟨-, -, -, -, hst, -⟩
    · change (s.ca.setChan c ch').chans x = some chx at hx
      rw [Ca.setChan_chans] at hx
      split_ifs at hx
      · cases hx
        exact absurd hhbx (Channel.not_isHeartbeat (hch'.2.1.trans hl))
      · exact h.up x chx j q hx hhbx hne hpx hq₀
    · omega
  case resolved =>
    intro j e he
    have hsome : ∃ q, d'.header j = some q := by
      by_cases hj : j = i
      · exact ⟨_, by rw [hhead, if_pos hj]⟩
      · have hend := Sources.next_endpoint_of_ne (g := g) hch hl hi hp hj
        obtain ⟨q, hq, -⟩ := h.resolved j e (hend ▸ he)
        exact ⟨q, by rw [hhead, if_neg hj, hq]⟩
    obtain ⟨q, hq⟩ := hsome
    refine ⟨q, hq, ?_⟩
    rcases hheader hq with ⟨hq₀, hend, -⟩ | ⟨-, -, -, -, -, haddr, hend⟩
    · obtain ⟨q', hq', hat⟩ := h.resolved j e (hend ▸ he)
      rw [hq₀] at hq'
      cases hq'
      exact hat
    · rw [haddr]
      exact Connection.addr_of_produces (hend ▸ he)
  case loaded =>
    intro j q hq hqpath hst
    rcases hheader hq with ⟨hq₀, -⟩ | ⟨-, -, -, hpath, -⟩
    · obtain ⟨x, chx, hx, hhbx, hpx⟩ := h.loaded j q hq₀ hqpath hst
      exact ⟨x, chx, hx.setChan hch hserver, hhbx, hpx⟩
    · exact absurd hpath hqpath
  case produced =>
    intro j q hq hqpath hst
    rcases hheader hq with ⟨hq₀, hend, -⟩ | ⟨-, -, -, hpath, -⟩
    · rw [hend]
      exact h.produced j q hq₀ hqpath hst
    · exact absurd hpath hqpath
  case learned =>
    intro j q hq hqpath
    rcases hheader hq with ⟨hq₀, -⟩ | ⟨-, -, -, -, hst, -⟩
    · exact h.learned j q hq₀ hqpath
    · exact hst
  case listed =>
    intro n x j q hx hnone ho hq
    rcases hentry n x hx with ⟨hx₀, howner, hsame⟩ | ⟨-, -, -, hsome⟩
    · have ho₀ := howner ▸ ho
      rcases hheader hq with ⟨hq₀, -⟩ | ⟨-, hnext, -⟩
      · exact h.listed n x j q hx₀ (hsame ▸ hnone) ho₀ hq₀
      · exact absurd hnext (hwf.owner_lt_nextPIoc ho₀).ne
    · rw [hsome] at hnone
      cases hnone
  case own =>
    intro n x c' j q hx hc' ho hq
    rcases hentry n x hx with ⟨hx₀, howner, hsame⟩ | ⟨hn, howner, henters, hsome⟩
    · have ho₀ := howner ▸ ho
      rcases hheader hq with ⟨hq₀, hend, -⟩ | ⟨-, hnext, -⟩
      · obtain ⟨hprod, chx, hchx, hlx, hname⟩ := h.own n x c' j q hx₀ (hsame ▸ hc') ho₀ hq₀
        exact ⟨hend ▸ hprod, chx, hchx.setChan hch hserver, hlx, hname⟩
      · exact absurd hnext (hwf.owner_lt_nextPIoc ho₀).ne
    · -- the PV is entered now, and its channel has just connected
      obtain rfl : j = i := Option.some.inj (ho.symm.trans howner)
      obtain rfl : c' = c := Option.some.inj (hc'.symm.trans hsome)
      rw [henters, Bool.not_true, Bool.false_or, Bool.false_or] at hknow
      obtain ⟨hend, haddr⟩ : (Sources.next s (.up c' cn) g).endpoint j =
          some cn.server.endpoint ∧ q.addr.endpoint = cn.server.endpoint := by
        rcases hheader hq with ⟨hq₀, hend, hst⟩ | ⟨-, -, hst, -, -, haddr, hend⟩
        · rw [if_pos (hst rfl), decide_eq_true_eq] at hknow
          obtain ⟨q', hq', hat⟩ := h.resolved j _ hknow
          rw [hq₀] at hq'
          cases hq'
          exact ⟨hend.trans hknow, hat⟩
        · rw [if_neg hst, Bool.and_eq_true] at hknow
          have hprod := Connection.produces_of_locates hknow.2
          exact ⟨hend.trans hprod, by rw [haddr]; exact Connection.addr_of_produces hprod⟩
      rw [hend, haddr]
      exact ⟨rfl, ch', ⟨hself, cn.server, hch'.2.2, rfl⟩, hch'.2.1.trans hl, hch'.1.trans hn.symm⟩

/-- A learned PV disconnects, and its channel is cleared. -/
theorem clear (h : Located s g) (hwf : s.dir.WF) {c : Chid} {now : ℕ} {ch : Channel} {d' : Dir}
    (hch : s.ca.chans c = some ch) (hl : ch.IsLearned)
    (hhead : d'.header = s.dir.header) {i : IocId} (hturnover : s.dir.Turnover i d')
    (hnext : ∀ n x, d'.stringResTbl n = some x → x < s.dir.nextPvE)
    (hgone : d'.stringResTbl ch.name = none) :
    Located { s with dir := d', ca := s.ca.clear c } (Sources.next s (.down c now) g) := by
  refine h.keep hhead (fun n x hx => ?_) rfl (fun x chx hx _ hcount => ?_) fun x chx hx _ => ?_
  · exact (hturnover.source hwf hx).resolve_right fun hnew =>
      absurd (hnext n x hx) (Nat.not_lt.mpr hnew.1)
  · show (s.ca.clear c).chans x = some chx
    rw [Ca.clear_chans]
    split_ifs with hxc
    · rw [hxc, hch] at hx
      cases hx
      rcases hcount with hhb | hmem
      · exact absurd hhb (Channel.not_isHeartbeat hl)
      · exact absurd hgone hmem
    · exact hx
  · change (s.ca.clear c).chans x = some chx at hx
    rw [Ca.clear_chans] at hx
    split_ifs at hx
    exact hx

/-- Whatever happens, the addresses that are served come from where they should. -/
theorem handled (h : Located s g) (hwf : s.dir.WF) (ht : Tied s.dir s.nameList s.ca)
    {rx : Regex} {e : Event} (hok : addressKnown s g e = true) (hh : Handled rx s e s') :
    Located s' (Sources.next s e g) := by
  cases hh with
  | heartbeatUp hch hserver hcb hpuser hd =>
      exact h.heartbeatUp hwf ht hok hch hserver hcb hpuser hd
  | heartbeatDown hch hserver hcb hpuser hp =>
      exact h.heartbeatDown hwf ht hch hserver hcb hpuser hp
  | learnedUp hch hserver hcb hch' hd => exact h.learnedUp hwf ht hok hch hserver hcb hch' hd
  | @learnedDown c now ch e hch _ hcb he =>
      have htab : ∀ n x, ((s.dir.tblRemove ch.name).deletePvE e).stringResTbl n = some x →
          n ≠ ch.name ∧ s.dir.stringResTbl n = some x := by
        intro n x hx
        change (s.dir.tblRemove ch.name).stringResTbl n = some x at hx
        rw [Dir.tblRemove_stringResTbl] at hx
        split_ifs at hx with hn
        exact ⟨hn, hx⟩
      refine h.clear hwf hch hcb rfl (.forget hwf he 0) (fun n x hx => ?_) ?_
      · obtain ⟨pv, hpv, -⟩ := hwf.table n x (htab n x hx).2
        exact hwf.pvEs_lt x pv hpv
      · show (s.dir.tblRemove ch.name).stringResTbl ch.name = none
        rw [Dir.tblRemove_stringResTbl, if_pos rfl]
  | learnedDownFree hch _ hcb he =>
      refine h.clear hwf hch hcb rfl (.refl s.dir 0) (fun n x hx => ?_) he
      obtain ⟨pv, hpv, -⟩ := hwf.table n x hx
      exact hwf.pvEs_lt x pv hpv
  | request ha =>
      cases ha with
      | searched =>
          refine h.keep_dir hwf rfl nofun (fun x chx hx _ => ?_) fun x chx hx hne => ?_
          · show (s.ca.search _ _).chans x = some chx
            rw [Ca.search_chans, if_neg (ht.fresh x chx hx).ne, hx]
          · change (s.ca.search _ _).chans x = some chx at hx
            rw [Ca.search_chans] at hx
            split_ifs at hx
            · cases hx
              exact absurd rfl hne
            · exact hx
      | _ => exact h.keep_dir hwf rfl nofun (fun _ _ hx _ => hx) fun _ _ hx _ => hx
  | @purge now tooLong answers _ hp hframe =>
      refine h.keep_dir hwf hframe.dir nofun (fun x chx hx hne => ?_)
        fun x chx hx hne => Server.processPendingList_old hp hx hne
      refine Server.processPendingList_connected hp ht.fresh (fun nn hnn hold ch hch => ?_) hx hne
      rw [addressKnown, List.all_eq_true] at hok
      have hnode := hok nn hnn
      rw [Bool.or_eq_true, decide_eq_true_eq, hch, Option.all_some, decide_eq_true_eq] at hnode
      exact hnode.resolve_left (by omega)
  | report => exact h.keep_dir hwf rfl nofun (fun _ _ hx _ => hx) fun _ _ hx _ => hx

end Located

/-! ## Runs -/

/-- At startup nothing is connected. -/
theorem startup_located {rx : Regex} {cfg : Config} {s : Server} (h : startup rx cfg = .ok s) :
    Located s .empty where
  up := fun _ _ _ _ hch _ hne => absurd (startup_chans h hch).2 hne
  resolved := fun _ _ he => nomatch he
  loaded := by
    intro i p hp _ hst
    have hzero := (startup_header h hp).2.2.2
    omega
  produced := fun _ _ hp _ hst => absurd (startup_header h hp).2.2.2 hst
  learned := fun _ _ hp hpath => absurd hpath (startup_header h hp).1
  listed := fun _ _ _ _ _ _ _ hp => (startup_header h hp).1
  own := fun _ _ _ _ _ _ hc => nomatch hc

section Runs

variable {rx : Regex} {start : Config → Prop}

theorem reachable_located {s : Server} {g : Sources}
    (h : Reachable (sourcedServer rx start) (fun x e => addressKnown x.1 x.2 e = true) (s, g)) :
    s.dir.WF ∧ Located s g := by
  have htied : ∀ s, Reachable (nameServer rx start) (fun _ _ => True) s →
      s.dir.WF ∧ Tied s.dir s.nameList s.ca := by
    intro s hs
    obtain ⟨hwf, ht, -⟩ := reachable_tied_induct (I := fun _ => True) hs
      (fun _ _ _ _ _ => trivial) fun _ _ _ _ _ _ _ _ => trivial
    exact ⟨hwf, ht⟩
  refine ⟨?_, ?_⟩
  · have hs : Reachable (nameServer rx start) (fun _ _ => True) s :=
      Reachable.forget h fun _ _ _ => trivial
    exact (htied s hs).1
  · refine Reachable.remembered_of (fun _ _ => True) h (fun _ _ _ => trivial) htied ?_ ?_
    · rintro s ⟨cfg, -, hs, -⟩ -
      exact startup_located hs
    · rintro s e t g ⟨hwf, ht⟩ hI hok ⟨hen, hstep⟩
      exact hI.handled hwf ht hok (handle_handled hwf hen hstep)

/-- The PV `n` is served at `addr`, the address `a` of the server that the channel `c` is connected
to.  That is the PV's own channel, if the PV has been learned, and otherwise the heartbeat's of the
IOC that owns it; and the resolver has produced the address for that IOC. -/
structure ServedFrom (s : Server) (g : Sources) (n : Name) (addr : SockAddr) (x : PvEId) (i : IocId)
    (p : PIoc) (c : Chid) (ch : Channel) (a : SockAddr) : Prop where
  entry : s.dir.stringResTbl n = some x
  owner : s.dir.owner n = some i
  ioc : s.dir.pIocs i = some p
  served : p.addr = addr
  chan : s.ca.chans c = some ch
  server : ch.server = some a
  endpoint : addr.endpoint = a.endpoint
  heartbeat : g.channel x = none → ch.IsHeartbeat ∧ ch.puser = some i
  learned : ∀ own, g.channel x = some own → c = own ∧ ch.IsLearned ∧ ch.name = n
  produced : g.endpoint i = some addr.endpoint

/-- **The address that is served is right**, in every run in which the servers' addresses are known
when they connect. -/
theorem served_address (rx : Regex) (start : Config → Prop) (s : Server) (g : Sources)
    (h : Reachable (sourcedServer rx start) (fun x e => addressKnown x.1 x.2 e = true) (s, g))
    (client pPVName : Name) (search : CaStatus) (now : ℕ) (s' : Server) (addr : SockAddr)
    (hans : s.pvExistTest rx client pPVName search now = .ok (s', .existsAt addr)) :
    ∃ x i p c ch a, ServedFrom s g (Server.recordName pPVName) addr x i p c ch a := by
  obtain ⟨hwf, hI⟩ := reachable_located h
  cases Server.pvExistTest_answered hans with
  | @hit i p _ _ ho hp hst =>
      have hhead := Dir.header_of_pIocs hp
      obtain ⟨x, hx, -⟩ := hwf.owner_eq_some_iff.mp ho
      cases hc : g.channel x with
      | none =>
          have hpath := hI.listed _ x i p.header hx hc ho hhead
          obtain ⟨c, ch, ⟨hch, a, ha, hend⟩, hhb, hpuser⟩ := hI.loaded i p.header hhead hpath hst
          have hne : p.header.status ≠ 0 := by
            show p.status ≠ 0
            omega
          exact ⟨x, i, p, c, ch, a, hx, ho, hp, rfl, hch, ha, hend.symm, fun _ => ⟨hhb, hpuser⟩,
            fun own hown => (nomatch hc.symm.trans hown), hI.produced i p.header hhead hpath hne⟩
      | some own =>
          obtain ⟨hprod, ch, ⟨hch, a, ha, hend⟩, hl, hname⟩ :=
            hI.own _ x own i p.header hx hc ho hhead
          exact ⟨x, i, p, own, ch, a, hx, ho, hp, rfl, hch, ha, hend.symm,
            fun hnone => (nomatch hc.symm.trans hnone),
            fun own' hown => ⟨Option.some.inj (hc.symm.trans hown), hl, hname⟩, hprod⟩

end Runs

/-! ## Executable runs -/

/-- One event of the server that remembers, if it can occur and meets the condition. -/
def sourcedNext (rx : Regex) (ok : Server → Sources → Event → Bool) (x : Server × Sources)
    (e : Event) : Option (Server × Sources) :=
  if enabled x.1 e && ok x.1 x.2 e then
    (handle rx x.1 e).toOption.map fun s => (s, Sources.next x.1 e x.2)
  else none

/-- A run of the server that remembers. -/
def sourcedRun (rx : Regex) (ok : Server → Sources → Event → Bool) (cfg : Config)
    (es : List Event) : Option (Server × Sources) :=
  (run rx (fun _ _ => true) cfg []).bind fun s => es.foldlM (sourcedNext rx ok) (s, Sources.empty)

theorem reachable_of_sourcedRun {rx : Regex} {ok : Server → Sources → Event → Bool} {cfg : Config}
    {es : List Event} {x : Server × Sources} (h : sourcedRun rx ok cfg es = some x) :
    Reachable (sourcedServer rx fun _ => True) (fun x e => ok x.1 x.2 e = true) x := by
  obtain ⟨s, hs, hes⟩ := Option.bind_eq_some_iff.mp h
  obtain ⟨s₀, hinit, hrun⟩ := run_of_eq_some hs
  cases hrun
  refine ⟨(s, Sources.empty), es, ⟨hinit, rfl⟩, .of_foldlM (fun x e y hy => ?_) hes⟩
  rw [sourcedNext] at hy
  split_ifs at hy with hcond
  rw [Bool.and_eq_true] at hcond
  obtain ⟨t, ht, rfl⟩ := Option.map_eq_some_iff.mp hy
  exact ⟨hcond.2, ⟨hcond.1, toOption_eq_some_iff.mp ht⟩, rfl⟩

/-- A PV is learned from a second server. -/
def twoServers : List Event :=
  [.up 0 (connectionTo "a:1" 1 ""), .request [] "z".toList .normal 1,
    .up 1 (connectionTo "b:2" 2 "")]

set_option maxRecDepth 10000 in
theorem served_address_twoServers : ∃ s g x i p c ch a,
    Reachable (sourcedServer literal fun _ => True) (fun x e => addressKnown x.1 x.2 e = true)
      (s, g) ∧
    g.channel x = some c ∧ ServedFrom s g ['z'] ⟨afInet, 2, InAddr.zero⟩ x i p c ch a := by
  have hrun : (sourcedRun literal addressKnown oneIoc twoServers).any (fun x =>
      (x.1.pvExistTest literal [] ['z'] .normal 2).toOption.any (fun r =>
        decide (r.2 = .existsAt ⟨afInet, 2, InAddr.zero⟩)) &&
      (x.1.dir.stringResTbl ['z']).any fun e => decide (x.2.channel e = some 1)) = true := by
    decide
  obtain ⟨⟨s, g⟩, hs, hboth⟩ := (Option.any_eq_true _ _).mp hrun
  rw [Bool.and_eq_true] at hboth
  obtain ⟨⟨s', ret⟩, hret, hans⟩ := (Option.any_eq_true _ _).mp hboth.1
  obtain ⟨e, he, hlearned⟩ := (Option.any_eq_true _ _).mp hboth.2
  have hret := toOption_eq_some_iff.mp hret
  obtain rfl := of_decide_eq_true hans
  have hreach := reachable_of_sourcedRun hs
  obtain ⟨x, i, p, c, ch, a, hserved⟩ := served_address literal _ s g hreach [] ['z'] .normal 2 s' _
    hret
  obtain rfl : x = e := Option.some.inj (hserved.entry.symm.trans he)
  have hchannel : g.channel x = some 1 := of_decide_eq_true hlearned
  obtain rfl := (hserved.learned 1 hchannel).1
  exact ⟨s, g, x, i, p, 1, ch, a, hreach, hchannel, hserved⟩

/-- The heartbeat of an IOC connects to a server whose name does not resolve. -/
def unresolved : List Event :=
  [.up 0 ⟨"a:1".toList, ⟨afInet, 1, InAddr.loopback⟩, fun _ _ => none, fun _ => none⟩]

set_option maxRecDepth 10000 in
/-- Its PVs are served at `0.0.0.0`. -/
theorem served_address_unresolved : ¬ ∀ (rx : Regex) (start : Config → Prop) (s : Server)
    (g : Sources), Reachable (sourcedServer rx start) (fun _ _ => True) (s, g) →
    ∀ client pPVName search now s' addr,
      s.pvExistTest rx client pPVName search now = .ok (s', .existsAt addr) →
      ∃ x i p c ch a, ServedFrom s g (Server.recordName pPVName) addr x i p c ch a := by
  intro h
  have hrun : (sourcedRun literal (fun _ _ _ => true) oneIoc unresolved).any (fun x =>
      (x.1.pvExistTest literal [] ['x'] .normal 2).toOption.any (fun r =>
        decide (r.2 = .existsAt ⟨afInet, 1, InAddr.zero⟩)) &&
      decide (x.1.dir.owner ['x'] = some 0) && decide (x.2.endpoint 0 = none)) = true := by decide
  obtain ⟨⟨s, g⟩, hs, hall⟩ := (Option.any_eq_true _ _).mp hrun
  rw [Bool.and_eq_true, Bool.and_eq_true, decide_eq_true_eq, decide_eq_true_eq] at hall
  obtain ⟨⟨hans, howner⟩, hnone⟩ := hall
  obtain ⟨⟨s', ret⟩, hret, hans⟩ := (Option.any_eq_true _ _).mp hans
  have hret := toOption_eq_some_iff.mp hret
  obtain rfl := of_decide_eq_true hans
  obtain ⟨x, i, p, c, ch, a, hserved⟩ := h literal _ s g
    ((reachable_of_sourcedRun hs).mono fun _ _ _ => trivial) [] ['x'] .normal 2 s' _ hret
  obtain rfl : i = 0 := Option.some.inj (hserved.owner.symm.trans howner)
  have hproduced := hserved.produced
  rw [hnone] at hproduced
  cases hproduced

end CaNameserver
