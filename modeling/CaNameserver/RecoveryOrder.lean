import CaNameserver.Refinement
import Mathlib.Data.List.Pairwise

/-!
# IOCs that come back after an outage

After a power cut, or when the network between the server and the IOCs has been down, the
heartbeats of many IOCs connect one after the other, in no particular order.  Each connection of
an IOC that is down reloads its list.  If the lists have no PV in common, and none names the
heartbeat of another IOC, the order plays no part.

## One connection

What a connection does to the directory is that a party comes back to the registry
(`Handled.returned`).  Beyond that it marks the channel as connected, takes the heartbeat's node
off the pending list and counts the IOC (`Returned`).  Each of these commutes with the same for
another IOC: channels are updated in different places (`Ca.connected_comm`), and nodes with
different names are taken off the list in either order (`removePending_comm`).

## A run of connections

`Recovered` says what a run of connections does, all of it in terms of the state before the first
one: the parties that have come back, one after the other, the channels that are connected, the
names that have left the list.  That the later connections still mean what they meant before the
first is the point (`Returned.returning`): no connection changes the name, the path or the channel
of another IOC.

The registry does not depend on the order by `foldl_back_perm`, the rest by permutation of the
updates.  All that may differ is which objects the entries of the PV table are, and the order of
the IOCs' lists.

* `recovery_any_order`: two orders lead to the same registry, the same pending list, the same
  channels and the same counts.
-/

namespace CaNameserver

open CStr Fallible Transition

/-- The IOC that comes back with an event. -/
abbrev IocReturn := Registry.Return Name IocId SockAddr

/-- The IOC whose heartbeat an event connects. -/
def Server.returning (s : Server) : Event → Option IocReturn
  | .up c cn => (s.ca.chans c).bind fun ch =>
      match ch.callback with
      | .WDprocessChangeConnectionEvent => ch.puser.bind fun i => (s.dir.header i).map fun p =>
          ⟨i, p.heartbeatName, signals cn.fs p.pathToList, cn.addr p.addr⟩
      | .processChangeConnectionEvent => none
  | _ => none

/-- The library notes that the channel of an event is connected. -/
def Ca.connected (ca : Ca) : Event → Ca
  | .up c cn => { ca with
      chans := Function.update ca.chans c
        ((ca.chans c).map fun ch => { ch with server := some cn.server }) }
  | _ => ca

theorem Server.returning_eq_some {s : Server} {e : Event} {x : IocReturn}
    (h : s.returning e = some x) : ∃ c cn ch p, e = .up c cn ∧ s.ca.chans c = some ch ∧
      ch.IsHeartbeat ∧ ch.puser = some x.party ∧ s.dir.header x.party = some p ∧
      x = ⟨x.party, p.heartbeatName, signals cn.fs p.pathToList, cn.addr p.addr⟩ := by
  cases e with
  | up c cn =>
      rw [Server.returning, Option.bind_eq_some_iff] at h
      obtain ⟨ch, hch, h⟩ := h
      cases hcb : ch.callback with
      | processChangeConnectionEvent =>
          simp only [hcb] at h
          cases h
      | WDprocessChangeConnectionEvent =>
          simp only [hcb, Option.bind_eq_some_iff, Option.map_eq_some_iff] at h
          obtain ⟨i, hi, p, hp, rfl⟩ := h
          exact ⟨c, cn, ch, p, rfl, hch, hcb, hi, hp, rfl⟩
  | down => cases h
  | request => cases h
  | purge => cases h
  | report => cases h

theorem Server.returning_up {s : Server} {c : Chid} {cn : Connection} {ch : Channel} {i : IocId}
    {p : PIoc} (hch : s.ca.chans c = some ch) (hhb : ch.IsHeartbeat) (hpuser : ch.puser = some i)
    (hp : s.dir.header i = some p) : s.returning (.up c cn) =
      some ⟨i, p.heartbeatName, signals cn.fs p.pathToList, cn.addr p.addr⟩ := by
  rw [Server.returning, hch, Option.bind_some, show ch.callback = _ from hhb, hpuser]
  show (s.dir.header i).map _ = _
  rw [hp, Option.map_some]

section Returns

variable {rx : Regex} {s s' : Server} {e : Event} {x : IocReturn}

/-- What the connection of a heartbeat does. -/
structure Returned (s : Server) (e : Event) (x : IocReturn) (s' : Server) : Prop where
  view : s'.dir.view = s.dir.view.back x
  header : ∀ j, j ≠ x.party → s'.dir.header j = s.dir.header j
  header_self : ∃ p, s'.dir.header x.party = some p
  nameList : s'.nameList = removePending x.mark s.nameList
  connectedIocs : s'.connectedIocs = s.connectedIocs + 1
  ca : s'.ca = s.ca.connected e
  rest : s' = { s with
    dir := s'.dir, nameList := s'.nameList, connectedIocs := s'.connectedIocs, ca := s'.ca }

theorem Handled.returned (h : Handled rx s e s') (hs : Shown s) (hx : s.returning e = some x) :
    Returned s e x s' := by
  obtain ⟨c, cn, ch, p, rfl, hch, hhb, hpuser, hp, hxeq⟩ := Server.returning_eq_some hx
  cases h with
  | heartbeatUp hch' _ _ hpuser' hd =>
      rw [hch] at hch'
      cases hch'
      rw [hpuser] at hpuser'
      cases hpuser'
      obtain ⟨q, hq, rfl⟩ := Dir.header_eq_some_iff.mp hp
      obtain ⟨hpath, hname⟩ := hs.tied.puser_path hch hhb hpuser hq
      have hmark : x.mark = ch.name := by
        rw [hxeq, hname]
        rfl
      refine ⟨?_, fun j hj => ?_, ⟨_, (hd.header hq _).trans (if_pos rfl)⟩, ?_, rfl, ?_, rfl⟩
      · have hview := hd.view hs.wf hq hpath hs.listed
        rw [Registry.State.back, hxeq]
        exact hview
      · rw [hd.header hq, if_neg hj]
      · rw [hmark]
      · simp only [Ca.connected, hch, Option.map_some]
        rfl
  | learnedUp hch' _ hcb =>
      rw [hch] at hch'
      cases hch'
      exact absurd hhb (Channel.not_isHeartbeat hcb)

/-- No learned server is involved in the connection of a heartbeat. -/
theorem Server.noNamesake_of_returning (hx : s.returning e = some x) : noNamesake s e = true := by
  obtain ⟨c, cn, ch, p, rfl, hch, hhb, -⟩ := Server.returning_eq_some hx
  rw [noNamesake, hch, Option.all_some, decide_eq_true (show ch.callback = _ from hhb),
    Bool.true_or]

theorem Ca.connected_chans {ca : Ca} {c : Chid} {ch : Channel} (hch : ca.chans c = some ch)
    (cn : Connection) (c' : Chid) : (ca.connected (.up c cn)).chans c' =
      if c' = c then some { ch with server := some cn.server } else ca.chans c' := by
  rw [Ca.connected, hch]
  exact Function.update_apply ..

variable {c c' : Chid} {cn cn' : Connection} {y : IocReturn}

/-- The connections of the others still are connections of heartbeats. -/
theorem Returned.isSome (h : Returned s (.up c cn) x s') (hx : s.returning (.up c cn) = some x)
    {f : Event} (hy : s.returning f = some y) : ∃ z, s'.returning f = some z := by
  obtain ⟨_, _, ch, p, heq, hch, hhb, hpuser, hp, -⟩ := Server.returning_eq_some hx
  cases heq
  obtain ⟨c', cn', ch', p', rfl, hch', hhb', hpuser', hp', -⟩ := Server.returning_eq_some hy
  have hchans := Ca.connected_chans hch cn c'
  rw [← h.ca] at hchans
  have hheader : ∃ q, s'.dir.header y.party = some q := by
    by_cases hparty : y.party = x.party
    · rw [hparty]
      exact h.header_self
    · exact ⟨p', by rw [h.header _ hparty, hp']⟩
  obtain ⟨q, hq⟩ := hheader
  by_cases hcc : c' = c
  · subst hcc
    rw [hch] at hch'
    cases hch'
    rw [if_pos rfl] at hchans
    exact ⟨_, Server.returning_up hchans hhb hpuser' hq⟩
  · rw [if_neg hcc, hch'] at hchans
    exact ⟨_, Server.returning_up hchans hhb' hpuser' hq⟩

/-- The other IOCs bring with them what they brought before. -/
theorem Returned.returning (h : Returned s (.up c cn) x s') (hs : Shown s)
    (hx : s.returning (.up c cn) = some x) (hy : s.returning (.up c' cn') = some y) (hcc : c' ≠ c) :
    y.party ≠ x.party ∧ s'.returning (.up c' cn') = some y := by
  obtain ⟨_, _, ch, p, heq, hch, hhb, hpuser, -, -⟩ := Server.returning_eq_some hx
  cases heq
  obtain ⟨_, _, ch', p', heq, hch', hhb', hpuser', hp', hyeq⟩ := Server.returning_eq_some hy
  cases heq
  have hparty : y.party ≠ x.party := by
    intro hsame
    exact hcc (hs.tied.puser_inj c' c ch' ch hch' hch hhb' hhb (by rw [hpuser', hpuser, hsame]))
  have hchans := Ca.connected_chans hch cn c'
  rw [← h.ca, if_neg hcc, hch'] at hchans
  refine ⟨hparty, ?_⟩
  rw [Server.returning_up hchans hhb' hpuser' ((h.header _ hparty).trans hp')]
  exact congrArg some hyeq.symm

end Returns

/-! ## Runs -/

section Runs

variable {rx : Regex} {start : Config → Prop} {ok : Server → Event → Prop} {s t : Server}
  {es : List Event} {xs : List IocReturn}

/-- In a run of heartbeats' connections every channel is closed before it connects. -/
theorem unconnected_of_run (hrun : Run (nameServer rx start) ok s es t) (hs : Shown s)
    (hret : ∀ e ∈ es, ∃ x, s.returning e = some x) {c : Chid} {cn : Connection}
    (hc : .up c cn ∈ es) : ∃ ch, s.ca.chans c = some ch ∧ ch.server = none := by
  induction hrun with
  | nil => cases hc
  | @cons s u t e es hok hstep _ ih =>
      obtain ⟨x, hx⟩ := hret e (List.mem_cons_self ..)
      obtain ⟨c₁, cn₁, ch₁, p, rfl, hch₁, hhb, -⟩ := Server.returning_eq_some hx
      rcases List.mem_cons.mp hc with heq | hc
      · cases heq
        exact enabled_up hstep.1
      · have hh := handle_handled hs.wf hstep.1 hstep.2
        have hr := hh.returned hs hx
        obtain ⟨ch, hch, hserver⟩ := ih (hs.handled hh (Server.noNamesake_of_returning hx))
          (fun f hf => by
            obtain ⟨y, hy⟩ := hret f (List.mem_cons_of_mem _ hf)
            exact hr.isSome hx hy) hc
        rw [hr.ca, Ca.connected_chans hch₁] at hch
        split_ifs at hch
        · cases hch
          cases hserver
        · exact ⟨ch, hch, hserver⟩

/-- What a run of heartbeats' connections does, in terms of the state before it. -/
structure Recovered (s : Server) (es : List Event) (xs : List IocReturn) (t : Server) : Prop where
  view : t.dir.view = xs.foldl Registry.State.back s.dir.view
  nameList : t.nameList = xs.foldl (fun l x => removePending x.mark l) s.nameList
  connectedIocs : t.connectedIocs = s.connectedIocs + xs.length
  ca : t.ca = es.foldl Ca.connected s.ca
  rest : t = { s with
    dir := t.dir, nameList := t.nameList, connectedIocs := t.connectedIocs, ca := t.ca }
  /-- every IOC comes back once -/
  nodup : (xs.map (·.party)).Nodup
  /-- on a channel of its own -/
  apart : es.Pairwise fun e f => ∀ c cn c' cn', e = .up c cn → f = .up c' cn' → c ≠ c'

theorem Recovered.cons {s u t : Server} {e : Event} {x : IocReturn} (h : Recovered u es xs t)
    (hr : Returned s e x u) (hx : ∀ y ∈ xs, y.party ≠ x.party)
    (he : ∀ f ∈ es, ∀ c cn c' cn', e = .up c cn → f = .up c' cn' → c ≠ c') :
    Recovered s (e :: es) (x :: xs) t where
  view := by rw [h.view, hr.view, List.foldl_cons]
  nameList := by rw [h.nameList, hr.nameList, List.foldl_cons]
  connectedIocs := by
    rw [h.connectedIocs, hr.connectedIocs, List.length_cons]
    omega
  ca := by rw [h.ca, hr.ca, List.foldl_cons]
  rest := by
    rw [h.rest, hr.rest]
  nodup := by
    rw [List.map_cons, List.nodup_cons]
    refine ⟨fun hmem => ?_, h.nodup⟩
    obtain ⟨y, hy, hparty⟩ := List.mem_map.mp hmem
    exact hx y hy hparty
  apart := List.pairwise_cons.mpr ⟨he, h.apart⟩

theorem recovered_of_run (hrun : Run (nameServer rx start) ok s es t) (hs : Shown s)
    (hret : es.map s.returning = xs.map some) : Shown t ∧ Recovered s es xs t := by
  induction hrun generalizing xs with
  | nil s =>
      cases xs with
      | nil => exact ⟨hs, rfl, rfl, by simp, rfl, rfl, List.nodup_nil, List.Pairwise.nil⟩
      | cons => cases hret
  | @cons s u t e es hok hstep hrest ih =>
      cases xs with
      | nil => cases hret
      | cons x xs =>
          rw [List.map_cons, List.map_cons, List.cons.injEq] at hret
          obtain ⟨hx, hret⟩ := hret
          have hsome : ∀ f ∈ es, ∃ y, s.returning f = some y := by
            intro f hf
            have hmem : s.returning f ∈ xs.map some := hret ▸ List.mem_map_of_mem hf
            obtain ⟨y, -, hy⟩ := List.mem_map.mp hmem
            exact ⟨y, hy.symm⟩
          have hh := handle_handled hs.wf hstep.1 hstep.2
          have hr := hh.returned hs hx
          have hu := hs.handled hh (Server.noNamesake_of_returning hx)
          obtain ⟨c, cn, ch, p, rfl, hch, -⟩ := Server.returning_eq_some hx
          -- the channel is connected now, and those of the others are not
          have hne : ∀ f ∈ es, ∀ c' cn', f = .up c' cn' → c' ≠ c := by
            rintro f hf c' cn' rfl rfl
            obtain ⟨ch', hch', hserver⟩ := unconnected_of_run hrest hu
              (fun f hf => by
                obtain ⟨y, hy⟩ := hsome f hf
                exact hr.isSome hx hy) hf
            rw [hr.ca, Ca.connected_chans hch, if_pos rfl] at hch'
            cases hch'
            cases hserver
          have hkept : ∀ f ∈ es, ∀ y, s.returning f = some y →
              y.party ≠ x.party ∧ u.returning f = some y := by
            intro f hf y hy
            obtain ⟨c', cn', -, -, rfl, -⟩ := Server.returning_eq_some hy
            exact hr.returning hs hx hy (hne _ hf c' cn' rfl)
          have hret' : es.map u.returning = xs.map some := by
            rw [← hret]
            refine List.map_congr_left fun f hf => ?_
            obtain ⟨y, hy⟩ := hsome f hf
            rw [hy, (hkept f hf y hy).2]
          obtain ⟨ht, hrec⟩ := ih hu hret'
          refine ⟨ht, hrec.cons hr (fun y hy => ?_) ?_⟩
          · have hmem : some y ∈ es.map s.returning := hret ▸ List.mem_map_of_mem hy
            obtain ⟨f, hf, hfy⟩ := List.mem_map.mp hmem
            exact (hkept f hf y hfy).1
          · rintro f hf c₁ cn₁ c' cn' heq hfeq
            cases heq
            exact (hne f hf c' cn' hfeq).symm

theorem map_returning (hret : ∀ e ∈ es, ∃ x, s.returning e = some x) :
    es.map s.returning = (es.filterMap s.returning).map some := by
  induction es with
  | nil => rfl
  | cons e es ih =>
      obtain ⟨x, hx⟩ := hret e (List.mem_cons_self ..)
      rw [List.map_cons, List.filterMap_cons_some hx, List.map_cons, hx,
        ih fun f hf => hret f (List.mem_cons_of_mem _ hf)]

/-- Two channels may connect in either order. -/
theorem Ca.connected_comm {ca : Ca} {e f : Event}
    (h : ∀ c cn c' cn', e = .up c cn → f = .up c' cn' → c ≠ c') :
    (ca.connected e).connected f = (ca.connected f).connected e := by
  cases e with
  | up c cn =>
      cases f with
      | up c' cn' =>
          have hcc : c ≠ c' := h c cn c' cn' rfl rfl
          simp only [Ca.connected, Function.update_of_ne hcc, Function.update_of_ne hcc.symm]
          rw [Function.update_comm hcc]
      | _ => rfl
  | _ => rfl

/-- Two names may be taken off the pending list in either order. -/
theorem removePending_comm (n m : Name) (l : List Namenode) :
    removePending m (removePending n l) = removePending n (removePending m l) := by
  by_cases h : n = m
  · rw [h]
  · refine List.eraseP_comm fun nn _ => ?_
    rw [← not_and_or]
    rintro ⟨hm, hn⟩
    exact h ((of_decide_eq_true hm).symm.trans (of_decide_eq_true hn))

end Runs

/-- **IOCs may come back in any order.**  If the heartbeats of some IOCs connect one after the
other, and the lists of those IOCs have no PV in common and do not name each other's heartbeats,
then every order of the connections leads to the same registry, and to servers that do not differ
but in the objects of the directory. -/
theorem recovery_any_order (rx : Regex) (start : Config → Prop) {s t t' : Server}
    {es es' : List Event}
    (h : Reachable (nameServer rx start) (fun s e => noNamesake s e = true) s)
    (hret : ∀ e ∈ es, ∃ x, s.returning e = some x)
    (hapart : ∀ e ∈ es, ∀ f ∈ es, ∀ x y, s.returning e = some x → s.returning f = some y →
      x.party ≠ y.party → x.Apart y)
    (hmark : ∀ e ∈ es, ∀ x, s.returning e = some x → s.dir.owner x.mark = some x.party)
    (hperm : es.Perm es') (hrun : Run (nameServer rx start) (fun _ _ => True) s es t)
    (hrun' : Run (nameServer rx start) (fun _ _ => True) s es' t') :
    t.dir.view = t'.dir.view ∧ t' = { t with dir := t'.dir } := by
  have hs := reachable_shown h fun _ _ hok => hok
  obtain ⟨-, hrec⟩ := recovered_of_run hrun hs (map_returning hret)
  obtain ⟨-, hrec'⟩ := recovered_of_run hrun' hs
    (map_returning fun e he => hret e (hperm.mem_iff.mpr he))
  have hxs : (es.filterMap s.returning).Perm (es'.filterMap s.returning) :=
    hperm.filterMap s.returning
  have hpair : (es.filterMap s.returning).Pairwise Registry.Return.Apart := by
    refine (List.pairwise_map.mp hrec.nodup).imp_of_mem fun {x y} hx hy hne => ?_
    obtain ⟨e, he, hex⟩ := List.mem_filterMap.mp hx
    obtain ⟨f, hf, hfy⟩ := List.mem_filterMap.mp hy
    exact hapart e he f hf x y hex hfy hne
  have hmarked : Registry.State.Marked s.dir.view (es.filterMap s.returning) := by
    intro x hx
    obtain ⟨e, he, hex⟩ := List.mem_filterMap.mp hx
    exact hmark e he x hex
  have hview : t.dir.view = t'.dir.view := by
    rw [hrec.view, hrec'.view]
    exact Registry.State.foldl_back_perm hxs hpair hmarked
  have hnames : t.nameList = t'.nameList := by
    rw [hrec.nameList, hrec'.nameList]
    exact hxs.foldl_eq' (fun x _ y _ l => removePending_comm x.mark y.mark l) _
  have hcount : t.connectedIocs = t'.connectedIocs := by
    rw [hrec.connectedIocs, hrec'.connectedIocs, hxs.length_eq]
  have hca : t.ca = t'.ca := by
    rw [hrec.ca, hrec'.ca]
    have hsymm : Std.Symm fun e f : Event =>
        ∀ c cn c' cn', e = .up c cn → f = .up c' cn' → c ≠ c' :=
      ⟨fun e f h c cn c' cn' hf he => (h c' cn' c cn he hf).symm⟩
    refine hperm.foldl_eq' (fun e he f hf ca => ?_) _
    by_cases hef : e = f
    · rw [hef]
    · exact Ca.connected_comm (hrec.apart.forall he hf hef)
  refine ⟨hview, ?_⟩
  rw [hrec'.rest, hrec.rest, hnames, hcount, hca]

/-- Both IOCs of the site have come up, and gone down. -/
def outage : List Event := bothUp ++ [.down 0 2, .down 1 2]

/-- The first IOC comes back. -/
def backA : Event := .up 0 (connectionTo "a:1" 1 "b:2:heartbeat x")

/-- The second IOC comes back, with a PV more. -/
def backB : Event := .up 1 (connectionTo "c:3" 3 "B:heartbeat z")

set_option maxRecDepth 10000 in
theorem recovery_any_order_outage : ∃ s t t',
    Reachable (nameServer literal fun _ => True) (fun s e => noNamesake s e = true) s ∧
    Run (nameServer literal fun _ => True) (fun _ _ => True) s [backA, backB] t ∧
    Run (nameServer literal fun _ => True) (fun _ _ => True) s [backB, backA] t' ∧
    t.dir.view = t'.dir.view ∧ t' = { t with dir := t'.dir } := by
  have hrun : (run literal noNamesake twoIocs outage).any (fun s =>
      decide (s.returning backA = some ⟨0, "b:2:heartbeat".toList,
        ["b:2:heartbeat".toList, ['x']], ⟨afInet, 1, InAddr.zero⟩⟩) &&
      decide (s.returning backB = some ⟨1, "B:heartbeat".toList,
        ["B:heartbeat".toList, ['z']], ⟨afInet, 3, InAddr.zero⟩⟩) &&
      decide (s.dir.owner "b:2:heartbeat".toList = some 0) &&
      decide (s.dir.owner "B:heartbeat".toList = some 1) &&
      (runEvents literal (fun _ _ => true) s [backA, backB]).isSome &&
      (runEvents literal (fun _ _ => true) s [backB, backA]).isSome) = true := by decide
  obtain ⟨s, hs, h⟩ := (Option.any_eq_true _ _).mp hrun
  simp only [Bool.and_eq_true, decide_eq_true_eq, Option.isSome_iff_exists] at h
  obtain ⟨⟨⟨⟨⟨hA, hB⟩, hmA⟩, hmB⟩, t, ht⟩, t', ht'⟩ := h
  have hreach := reachable_of_eq_some hs
  have hwf := reachable_wf hreach
  have hrunAB : Run (nameServer literal fun _ => True) (fun _ _ => True) s [backA, backB] t :=
    run_of_runEvents (fun _ _ _ _ => trivial) hwf ht
  have hrunBA : Run (nameServer literal fun _ => True) (fun _ _ => True) s [backB, backA] t' :=
    run_of_runEvents (fun _ _ _ _ => trivial) hwf ht'
  refine ⟨s, t, t', hreach, hrunAB, hrunBA, ?_⟩
  refine recovery_any_order literal _ hreach ?_ ?_ ?_ (List.Perm.swap _ _ _) hrunAB hrunBA
  · simp [hA, hB]
  · have hapart : Registry.Return.Apart (N := Name) (P := IocId) (A := SockAddr)
        ⟨0, "b:2:heartbeat".toList, ["b:2:heartbeat".toList, ['x']], ⟨afInet, 1, InAddr.zero⟩⟩
        ⟨1, "B:heartbeat".toList, ["B:heartbeat".toList, ['z']], ⟨afInet, 3, InAddr.zero⟩⟩ :=
      ⟨by decide, by decide, by decide, by decide⟩
    intro e he f hf x y hx hy hne
    simp only [List.mem_cons, List.not_mem_nil, or_false] at he hf
    rcases he with rfl | rfl <;> rcases hf with rfl | rfl
    · exact absurd (by rw [hA] at hx hy; rw [Option.some.inj (hx.symm.trans hy)]) hne
    · rw [hA] at hx
      rw [hB] at hy
      cases hx
      cases hy
      exact hapart
    · rw [hB] at hx
      rw [hA] at hy
      cases hx
      cases hy
      exact hapart.symm
    · exact absurd (by rw [hB] at hx hy; rw [Option.some.inj (hx.symm.trans hy)]) hne
  · intro e he x hx
    simp only [List.mem_cons, List.not_mem_nil, or_false] at he
    rcases he with rfl | rfl
    · rw [hA] at hx
      cases hx
      exact hmA
    · rw [hB] at hx
      cases hx
      exact hmB

end CaNameserver
