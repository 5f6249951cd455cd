import CaNameserver.Runs

/-!
# Channels and the pending list

A channel has a name and a callback, and the channel of a heartbeat has the IOC as its `puser`.  A
node of the pending list has a name and a channel.  Nothing keeps them together but the way in
which they are made: a search makes both, the callbacks find the node by the channel's name, and
the purge finds the channel by its node.  Nodes may outlive their channels, and two nodes may have
one name.

## What is tied together

Whatever happens, in every run and without any condition on the events (`Tied`):

* a heartbeat channel belongs to an IOC that has a signal list, and carries the name of its
  heartbeat; no two heartbeat channels belong to one IOC;
* a learned channel's name has no field;
* a node whose channel is still open has the channel's name, and is marked for rebroadcast exactly
  if the channel is a heartbeat's;
* the channels are numbered below the next one.

So a heartbeat callback never meets the channel of a client's search, and the purge never drops
the search of a heartbeat.

## How it is kept

The tie is kept by the changes that occur in the handlers: a channel is connected or disconnected
(`setChan`), closed (`clear`), opened by a search with its node (`search`), or given up for a new
one (`renew`); a node is added (`cons`) or goes (`subset`).  The IOCs may change as long as their
names and paths stay (`sites`), which no event ever changes (`Handled.site`).  `Handled.tied` puts
them together.

What the purge leaves alone is needed later: a channel that no expired node has is open after the
pass (`processPendingList_spares`), and a connected channel stays connected
(`processPendingList_connected`).

* `reachable_tied_induct`: the rule for the invariants that follow, which may use that the storage
  is well formed and that channels and nodes are tied.
-/

namespace CaNameserver

open CStr Fallible Transition

/-- The channel of a heartbeat. -/
def Channel.IsHeartbeat (ch : Channel) : Prop := ch.callback = .WDprocessChangeConnectionEvent

/-- The channel of a learned PV. -/
def Channel.IsLearned (ch : Channel) : Prop := ch.callback = .processChangeConnectionEvent

theorem Channel.not_isHeartbeat {ch : Channel} (h : ch.IsLearned) : ¬ch.IsHeartbeat := by
  unfold IsLearned at h
  unfold IsHeartbeat
  rw [h]
  decide

theorem Channel.isLearned_of_not {ch : Channel} (h : ¬ch.IsHeartbeat) : ch.IsLearned := by
  unfold IsHeartbeat at h
  unfold IsLearned
  cases hcb : ch.callback with
  | WDprocessChangeConnectionEvent => exact absurd hcb h
  | processChangeConnectionEvent => rfl

theorem Channel.isHeartbeat_of_callback {ch ch' : Channel} (h : ch'.callback = ch.callback) :
    ch'.IsHeartbeat ↔ ch.IsHeartbeat := by
  unfold IsHeartbeat
  rw [h]

/-! ## The pending list -/

/-- `removePending` unlinks the first node of the name, or nothing. -/
theorem removePending_cases (n : Name) (l : List Namenode) :
    (removePending n l = l ∧ ∀ nn ∈ l, nn.name ≠ n) ∨
    ∃ pre nn post, l = pre ++ nn :: post ∧ nn.name = n ∧ (∀ x ∈ pre, x.name ≠ n) ∧
      removePending n l = pre ++ post := by
  by_cases h : ∃ nn ∈ l, nn.name = n
  · obtain ⟨nn, hnn, hname⟩ := h
    obtain ⟨a, pre, post, hpre, ha, hl, herase⟩ :=
      List.exists_of_eraseP (p := fun x : Namenode => decide (x.name = n)) hnn
        (decide_eq_true hname)
    exact Or.inr ⟨pre, a, post, hl, of_decide_eq_true ha,
      fun x hx => by simpa using hpre x hx, herase⟩
  · have hall : ∀ nn ∈ l, nn.name ≠ n := fun nn hnn hname => h ⟨nn, hnn, hname⟩
    refine Or.inl ⟨?_, hall⟩
    exact List.eraseP_of_forall_not fun nn hnn => by simpa using hall nn hnn

theorem mem_middle_iff {pre post : List Namenode} {x nn : Namenode} :
    nn ∈ pre ++ x :: post ↔ nn = x ∨ nn ∈ pre ++ post :=
  List.perm_middle.mem_iff.trans List.mem_cons

/-- Only the first node of the name goes. -/
theorem mem_removePending_of_find? {n : Name} {l : List Namenode} {nn : Namenode} (hnn : nn ∈ l)
    (hfirst : l.find? (·.name = n) ≠ some nn) : nn ∈ removePending n l := by
  rcases removePending_cases n l with ⟨hsame, -⟩ | ⟨pre, x, post, hl, hname, hpre, hrem⟩
  · rw [hsame]
    exact hnn
  · rw [hl, mem_middle_iff] at hnn
    rw [hrem]
    refine hnn.resolve_left ?_
    rintro rfl
    refine hfirst ?_
    rw [hl, List.find?_append, List.find?_eq_none.mpr fun x hx => by simpa using hpre x hx]
    simp [hname]

theorem mem_removePending_of_ne {n : Name} {l : List Namenode} {nn : Namenode} (hnn : nn ∈ l)
    (hne : nn.name ≠ n) : nn ∈ removePending n l := by
  refine mem_removePending_of_find? hnn fun hfirst => hne ?_
  simpa using List.find?_some hfirst

/-- Where no two nodes have one name, the removal leaves none of the name. -/
theorem ne_of_mem_removePending {n : Name} {l : List Namenode}
    (hnd : (l.map (·.name)).Nodup) {nn : Namenode} (hnn : nn ∈ removePending n l) :
    nn.name ≠ n := by
  rcases removePending_cases n l with ⟨hsame, hall⟩ | ⟨pre, x, post, hl, hname, hpre, hrem⟩
  · rw [hsame] at hnn
    exact hall nn hnn
  · rw [hrem, List.mem_append] at hnn
    rcases hnn with hnn | hnn
    · exact hpre nn hnn
    · rw [hl, List.map_append, List.map_cons, List.nodup_append, List.nodup_cons] at hnd
      intro hnname
      refine hnd.2.1.1 ?_
      rw [hname, ← hnname]
      exact List.mem_map_of_mem hnn

/-- The removal of the only node of a name leaves none. -/
theorem ne_of_mem_removePending_of_countP {n : Name} {l : List Namenode}
    (hcount : l.countP (·.name = n) ≤ 1) {nn : Namenode} (hnn : nn ∈ removePending n l) :
    nn.name ≠ n := by
  rcases removePending_cases n l with ⟨hsame, hall⟩ | ⟨pre, x, post, hl, hname, hpre, hrem⟩
  · rw [hsame] at hnn
    exact hall nn hnn
  · intro hnname
    rw [hrem, List.mem_append] at hnn
    rcases hnn with hnn | hnn
    · exact hpre nn hnn hnname
    · rw [hl, List.countP_append, List.countP_cons_of_pos (by simpa using hname)] at hcount
      have hpos : 0 < post.countP (·.name = n) :=
        List.countP_pos_iff.mpr ⟨nn, hnn, decide_eq_true hnname⟩
      omega

theorem removePending_sublist (n : Name) (l : List Namenode) : (removePending n l).Sublist l :=
  List.eraseP_sublist

/-- Closing a learned channel leaves those of heartbeats open. -/
theorem Ca.clear_of_learned {ca : Ca} {c : Chid} {ch : Channel} (hch : ca.chans c = some ch)
    (hl : ch.IsLearned) (x : Chid) (chx : Channel) (hhb : chx.IsHeartbeat) :
    (ca.clear c).chans x = some chx ↔ ca.chans x = some chx := by
  rw [Ca.clear_chans]
  split_ifs with hxc
  · refine iff_of_false (fun h => nomatch h) fun hx => ?_
    rw [hxc, hch] at hx
    rw [← Option.some.inj hx] at hhb
    exact Channel.not_isHeartbeat hl hhb
  · rfl

/-- The purge opens no learned channel. -/
theorem Server.PurgeStep.learned_old {a : Server.CaAnswers} {ca ca' : Ca} {l l' : List Namenode}
    (h : Server.PurgeStep a ca l l' ca') {c : Chid} {ch : Channel} (hch : ca'.chans c = some ch)
    (hl : ch.IsLearned) : ca.chans c = some ch := by
  cases h with
  | same => exact hch
  | lost =>
      rw [Ca.clear_chans] at hch
      split_ifs at hch
      exact hch
  | renewed =>
      rw [Ca.renew_chans] at hch
      split_ifs at hch
      · cases hch
        exact absurd rfl (Channel.not_isHeartbeat hl)
      · exact hch
  | expired =>
      rw [Ca.clear_chans] at hch
      split_ifs at hch
      exact hch
  | forgotten => exact hch

/-! ## The purge and the channels it leaves open -/

/-- During the pass the channel is open, and no expired node that is still to come has it. -/
structure Server.Purge.Spares (pg : Server.Purge) (now tooLong : ℕ) (c : Chid) (ch : Channel) :
    Prop where
  lt : c < pg.ca.nextChid
  chan : pg.ca.chans c = some ch
  rest : ∀ nn ∈ pg.rest, nn.otime + tooLong < now → nn.chd ≠ c

namespace Server

theorem Purge.Spares.turn {now tooLong : ℕ} {a : CaAnswers} {pg pg' : Purge} {pNN : Namenode}
    {rest : List Namenode} {c : Chid} {ch : Channel} (h : pg.Spares now tooLong c ch)
    (hrest : pg.rest = pNN :: rest) (hturn : purgeTurn now tooLong a pg pNN rest = .ok pg') :
    pg'.Spares now tooLong c ch := by
  have hnodes := h.rest
  rw [hrest] at hnodes
  have htail : ∀ nn ∈ rest, nn.otime + tooLong < now → nn.chd ≠ c :=
    fun nn hnn => hnodes nn (List.mem_cons_of_mem _ hnn)
  rw [purgeTurn] at hturn
  split_ifs at hturn with hold hreb
  · -- the expired node of another channel
    have hne := hnodes pNN (List.mem_cons_self ..) hold
    have hclear : (pg.ca.clear pNN.chd).chans c = some ch := by
      rw [Ca.clear_chans, if_neg hne.symm, h.chan]
    simp only [rebroadcast, bind_eq_ok_iff, Ca.getChan_eq_ok_iff] at hturn
    obtain ⟨chx, -, hturn⟩ := hturn
    split_ifs at hturn
    · cases hturn
      exact h
    · cases hcl : a.clear with
      | failed =>
          simp only [hcl] at hturn
          cases hturn
          exact h
      | normal =>
          cases hs : a.search with
          | failed =>
              simp only [hcl, hs] at hturn
              cases hturn
              exact ⟨h.lt, hclear, h.rest⟩
          | normal =>
              simp only [hcl, hs, Ca.clear_nextChid, Ca.clear_search_setChan] at hturn
              cases hturn
              refine ⟨Nat.lt_succ_of_lt h.lt, ?_, ?_⟩
              · show (pg.ca.renew pNN.chd _).chans c = some ch
                rw [Ca.renew_chans, if_neg h.lt.ne, if_neg hne.symm, h.chan]
              · intro nn hnn hold'
                rcases List.mem_cons.mp hnn with rfl | hnn
                · exact h.lt.ne'
                · exact htail nn hnn hold'
  · have hne := hnodes pNN (List.mem_cons_self ..) hold
    simp only [expire, bind_eq_ok_iff, Ca.getChan_eq_ok_iff] at hturn
    obtain ⟨chx, -, hturn⟩ := hturn
    cases hturn
    have hclear : (pg.ca.clear pNN.chd).chans c = some ch := by
      rw [Ca.clear_chans, if_neg hne.symm, h.chan]
    split_ifs
    · exact ⟨h.lt, h.chan, htail⟩
    · cases a.clear with
      | failed => exact ⟨h.lt, h.chan, htail⟩
      | normal => exact ⟨h.lt, hclear, htail⟩
  · cases hturn
    exact ⟨h.lt, h.chan, htail⟩

theorem Purge.Spares.loop {now tooLong : ℕ} {answers : List CaAnswers} {pg pg' : Purge} {c : Chid}
    {ch : Channel} (h : pg.Spares now tooLong c ch)
    (hloop : purgeLoop now tooLong answers pg = .ok pg') : pg'.Spares now tooLong c ch := by
  induction answers generalizing pg with
  | nil =>
      rw [purgeLoop] at hloop
      split_ifs at hloop
      cases hloop
      exact h
  | cons a answers ih =>
      rw [purgeLoop] at hloop
      cases hrest : pg.rest with
      | nil =>
          simp only [hrest] at hloop
          cases hloop
          exact h
      | cons pNN rest =>
          simp only [hrest, bind_eq_ok_iff] at hloop
          obtain ⟨pg₁, hturn, hloop⟩ := hloop
          exact ih (h.turn hrest hturn) hloop

/-- The purge leaves alone a channel that no node has. -/
theorem processPendingList_spares {s s' : Server} {now tooLong : ℕ} {answers : List CaAnswers}
    (h : s.processPendingList now tooLong answers = .ok s') (hfresh : s.ca.Fresh) {c : Chid}
    {ch : Channel} (hch : s.ca.chans c = some ch)
    (hnode : ∀ nn ∈ s.nameList, nn.otime + tooLong < now → nn.chd ≠ c) :
    s'.ca.chans c = some ch := by
  rw [processPendingList, bind_eq_ok_iff] at h
  obtain ⟨pg, hloop, h⟩ := h
  cases h
  have hstart : Purge.Spares ⟨[], s.nameList, s.ca, s.neverResTbl⟩ now tooLong c ch :=
    ⟨hfresh c ch hch, hch, hnode⟩
  exact (hstart.loop hloop).chan

/-- The purge leaves a connected channel alone, unless it has an expired node. -/
theorem processPendingList_connected {s s' : Server} {now tooLong : ℕ} {answers : List CaAnswers}
    (h : s.processPendingList now tooLong answers = .ok s') (hfresh : s.ca.Fresh)
    (hnode : ∀ nn ∈ s.nameList, nn.otime + tooLong < now → ∀ ch, s.ca.chans nn.chd = some ch →
      ch.server = none) {c : Chid} {ch : Channel} (hch : s.ca.chans c = some ch)
    (hserver : ch.server ≠ none) : s'.ca.chans c = some ch :=
  processPendingList_spares h hfresh hch fun nn hnn hold hchd =>
    hserver (hnode nn hnn hold ch (hchd ▸ hch))

end Server

/-! ## The invariant -/

/-- What is tied together in every state. -/
structure Tied (d : Dir) (l : List Namenode) (ca : Ca) : Prop where
  fresh : ca.Fresh
  node_lt : ∀ nn ∈ l, nn.chd < ca.nextChid
  owned : ∀ c ch, ca.chans c = some ch → ch.IsHeartbeat →
    ∃ i name path, ch.puser = some i ∧ d.site i = some (name, path) ∧ path ≠ [] ∧
      ch.name = name ++ heartbeat
  puser_inj : ∀ c c' ch ch', ca.chans c = some ch → ca.chans c' = some ch' → ch.IsHeartbeat →
    ch'.IsHeartbeat → ch.puser = ch'.puser → c = c'
  learned : ∀ c ch, ca.chans c = some ch → ch.IsLearned → '.' ∉ ch.name
  node : ∀ nn ∈ l, ∀ ch, ca.chans nn.chd = some ch →
    ch.name = nn.name ∧ (ch.IsHeartbeat ↔ nn.rebroadcast = true)

namespace Tied

variable {d d' : Dir} {l l' : List Namenode} {ca : Ca}

/-- The IOCs that the channels belong to keep their names and paths. -/
theorem sites (h : Tied d l ca) (hsite : ∀ i x, d.site i = some x → d'.site i = some x) :
    Tied d' l ca where
  fresh := h.fresh
  node_lt := h.node_lt
  owned := by
    intro c ch hch hhb
    obtain ⟨i, name, path, hi, hs, hrest⟩ := h.owned c ch hch hhb
    exact ⟨i, name, path, hi, hsite i _ hs, hrest⟩
  puser_inj := h.puser_inj
  learned := h.learned
  node := h.node

theorem subset (h : Tied d l ca) (hsub : l' ⊆ l) : Tied d l' ca where
  fresh := h.fresh
  node_lt := fun nn hnn => h.node_lt nn (hsub hnn)
  owned := h.owned
  puser_inj := h.puser_inj
  learned := h.learned
  node := fun nn hnn => h.node nn (hsub hnn)

/-- Channels may change in what they are connected to, and be closed. -/
theorem channels {ca' : Ca} (h : Tied d l ca) (hnext : ca'.nextChid = ca.nextChid)
    (hold : ∀ c ch', ca'.chans c = some ch' → ∃ ch, ca.chans c = some ch ∧ ch'.name = ch.name ∧
      ch'.callback = ch.callback ∧ (ch.IsHeartbeat → ch'.puser = ch.puser)) : Tied d l ca' where
  fresh := by
    intro c ch' hch'
    obtain ⟨ch, hch, -⟩ := hold c ch' hch'
    rw [hnext]
    exact h.fresh c ch hch
  node_lt := by
    rw [hnext]
    exact h.node_lt
  owned := by
    intro c ch' hch' hhb
    obtain ⟨ch, hch, hname, hcb, hpuser⟩ := hold c ch' hch'
    have hhb₀ := (Channel.isHeartbeat_of_callback hcb).mp hhb
    rw [hname, hpuser hhb₀]
    exact h.owned c ch hch hhb₀
  puser_inj := by
    intro c₁ c₂ ch₁' ch₂' hch₁' hch₂' hhb₁ hhb₂ heq
    obtain ⟨ch₁, hch₁, -, hcb₁, hpuser₁⟩ := hold c₁ ch₁' hch₁'
    obtain ⟨ch₂, hch₂, -, hcb₂, hpuser₂⟩ := hold c₂ ch₂' hch₂'
    have hhb₁' := (Channel.isHeartbeat_of_callback hcb₁).mp hhb₁
    have hhb₂' := (Channel.isHeartbeat_of_callback hcb₂).mp hhb₂
    rw [hpuser₁ hhb₁', hpuser₂ hhb₂'] at heq
    exact h.puser_inj c₁ c₂ ch₁ ch₂ hch₁ hch₂ hhb₁' hhb₂' heq
  learned := by
    intro c ch' hch' hl
    obtain ⟨ch, hch, hname, hcb, -⟩ := hold c ch' hch'
    rw [hname]
    exact h.learned c ch hch (hcb.symm.trans hl)
  node := by
    intro nn hnn ch' hch'
    obtain ⟨ch, hch, hname, hcb, -⟩ := hold nn.chd ch' hch'
    rw [hname, Channel.isHeartbeat_of_callback hcb]
    exact h.node nn hnn ch hch

theorem setChan (h : Tied d l ca) {c : Chid} {ch ch' : Channel} (hch : ca.chans c = some ch)
    (hname : ch'.name = ch.name) (hcb : ch'.callback = ch.callback)
    (hpuser : ch.IsHeartbeat → ch'.puser = ch.puser) : Tied d l (ca.setChan c ch') := by
  refine h.channels rfl fun x chx hx => ?_
  rw [Ca.setChan_chans] at hx
  split_ifs at hx with hxc
  · cases hx
    exact ⟨ch, hxc ▸ hch, hname, hcb, hpuser⟩
  · exact ⟨chx, hx, rfl, rfl, fun _ => rfl⟩

theorem clear (h : Tied d l ca) (c : Chid) : Tied d l (ca.clear c) := by
  refine h.channels rfl fun x chx hx => ?_
  rw [Ca.clear_chans] at hx
  split_ifs at hx
  exact ⟨chx, hx, rfl, rfl, fun _ => rfl⟩

/-- A node is added for an open heartbeat channel. -/
theorem cons (h : Tied d l ca) {c : Chid} {ch : Channel} (hch : ca.chans c = some ch)
    (hhb : ch.IsHeartbeat) (now : ℕ) : Tied d (⟨ch.name, now, c, true⟩ :: l) ca where
  fresh := h.fresh
  node_lt := by
    intro nn hnn
    rcases List.mem_cons.mp hnn with rfl | hnn
    · exact h.fresh c ch hch
    · exact h.node_lt nn hnn
  owned := h.owned
  puser_inj := h.puser_inj
  learned := h.learned
  node := by
    intro nn hnn ch' hch'
    rcases List.mem_cons.mp hnn with rfl | hnn
    · rw [hch] at hch'
      cases hch'
      exact ⟨rfl, iff_of_true hhb rfl⟩
    · exact h.node nn hnn ch' hch'

/-- A new channel with its node, the node of the given channel being replaced or a new one. -/
theorem add {ca' : Ca} (h : Tied d l ca) (nn₀ : Namenode) (ch₀ : Channel)
    (hnext : ca'.nextChid = ca.nextChid + 1) (hnew : ca'.chans ca.nextChid = some ch₀)
    (hold : ∀ c ch, c ≠ ca.nextChid → ca'.chans c = some ch → ca.chans c = some ch)
    (hnode : ∀ nn ∈ l', nn = nn₀ ∨ nn ∈ l) (hchd : nn₀.chd = ca.nextChid)
    (hname : ch₀.name = nn₀.name) (hreb : ch₀.IsHeartbeat ↔ nn₀.rebroadcast = true)
    (hhb : ch₀.IsHeartbeat → (∃ i name path, ch₀.puser = some i ∧
      d.site i = some (name, path) ∧ path ≠ [] ∧ ch₀.name = name ++ heartbeat) ∧
      ∀ c ch, c ≠ ca.nextChid → ca'.chans c = some ch → ch.IsHeartbeat → ch.puser ≠ ch₀.puser)
    (hlearned : ch₀.IsLearned → '.' ∉ ch₀.name) : Tied d l' ca' where
  fresh := by
    intro c ch hch
    rw [hnext]
    by_cases hc : c = ca.nextChid
    · exact hc ▸ Nat.lt_succ_self _
    · exact Nat.lt_succ_of_lt (h.fresh c ch (hold c ch hc hch))
  node_lt := by
    intro nn hnn
    rw [hnext]
    rcases hnode nn hnn with rfl | hnn
    · exact hchd ▸ Nat.lt_succ_self _
    · exact Nat.lt_succ_of_lt (h.node_lt nn hnn)
  owned := by
    intro c ch hch hhb'
    by_cases hc : c = ca.nextChid
    · rw [hc, hnew] at hch
      cases hch
      exact (hhb hhb').1
    · exact h.owned c ch (hold c ch hc hch) hhb'
  puser_inj := by
    intro c₁ c₂ ch₁ ch₂ hch₁ hch₂ hhb₁ hhb₂ heq
    by_cases hc₁ : c₁ = ca.nextChid
    · rw [hc₁, hnew] at hch₁
      cases hch₁
      by_cases hc₂ : c₂ = ca.nextChid
      · rw [hc₁, hc₂]
      · exact absurd heq.symm ((hhb hhb₁).2 c₂ ch₂ hc₂ hch₂ hhb₂)
    · by_cases hc₂ : c₂ = ca.nextChid
      · rw [hc₂, hnew] at hch₂
        cases hch₂
        exact absurd heq ((hhb hhb₂).2 c₁ ch₁ hc₁ hch₁ hhb₁)
      · exact h.puser_inj c₁ c₂ ch₁ ch₂ (hold c₁ ch₁ hc₁ hch₁) (hold c₂ ch₂ hc₂ hch₂) hhb₁ hhb₂ heq
  learned := by
    intro c ch hch hl
    by_cases hc : c = ca.nextChid
    · rw [hc, hnew] at hch
      cases hch
      exact hlearned hl
    · exact h.learned c ch (hold c ch hc hch) hl
  node := by
    intro nn hnn ch hch
    rcases hnode nn hnn with rfl | hnn
    · rw [hchd, hnew] at hch
      cases hch
      exact ⟨hname, hreb⟩
    · have hne : nn.chd ≠ ca.nextChid := (h.node_lt nn hnn).ne
      exact h.node nn hnn ch (hold nn.chd ch hne hch)

/-- A search for a PV that has no field. -/
theorem search (h : Tied d l ca) {n : Name} (hn : '.' ∉ n) (now : ℕ) :
    Tied d (⟨n, now, ca.nextChid, false⟩ :: l) (ca.search n .processChangeConnectionEvent) := by
  have hl : Channel.IsLearned ⟨n, .processChangeConnectionEvent, none, none⟩ := rfl
  refine h.add ⟨n, now, ca.nextChid, false⟩ ⟨n, .processChangeConnectionEvent, none, none⟩
    (Ca.search_nextChid ..) (by rw [Ca.search_chans, if_pos rfl]) ?_
    (fun nn hnn => List.mem_cons.mp hnn) rfl rfl ?_ ?_ fun _ => hn
  · intro c ch hc hch
    rwa [Ca.search_chans, if_neg hc] at hch
  · exact iff_of_false (Channel.not_isHeartbeat hl) Bool.false_ne_true
  · exact fun hhb => absurd hhb (Channel.not_isHeartbeat hl)

/-- The rebroadcast of a heartbeat. -/
theorem renew {pre post : List Namenode} {pNN : Namenode} {ch : Channel} {otime : ℕ}
    (h : Tied d (pre ++ pNN :: post) ca) (hch : ca.chans pNN.chd = some ch)
    (hreb : pNN.rebroadcast = true) :
    Tied d (pre ++ { pNN with chd := ca.nextChid, otime := otime } :: post)
      (ca.renew pNN.chd ⟨pNN.name, .WDprocessChangeConnectionEvent, ch.puser, none⟩) := by
  obtain ⟨hname, hiff⟩ := h.node pNN (by simp) ch hch
  have hhb := hiff.mpr hreb
  have hchans : ∀ c ch', c ≠ ca.nextChid →
      (ca.renew pNN.chd ⟨pNN.name, .WDprocessChangeConnectionEvent, ch.puser, none⟩).chans c =
        some ch' → c ≠ pNN.chd ∧ ca.chans c = some ch' := by
    intro c ch' hc hch'
    rw [Ca.renew_chans, if_neg hc] at hch'
    split_ifs at hch' with hcc
    exact ⟨hcc, hch'⟩
  refine h.add { pNN with chd := ca.nextChid, otime := otime }
    ⟨pNN.name, .WDprocessChangeConnectionEvent, ch.puser, none⟩ (Ca.renew_nextChid ..)
    (by rw [Ca.renew_chans, if_pos rfl])
    (fun c ch' hc hch' => (hchans c ch' hc hch').2) ?_ rfl rfl
    (iff_of_true rfl hreb) (fun _ => ⟨?_, ?_⟩) fun hl => absurd rfl (Channel.not_isHeartbeat hl)
  · intro nn hnn
    rcases List.mem_append.mp hnn with hnn | hnn
    · exact Or.inr (List.mem_append_left _ hnn)
    · rcases List.mem_cons.mp hnn with rfl | hnn
      · exact Or.inl rfl
      · exact Or.inr (List.mem_append_right _ (List.mem_cons_of_mem _ hnn))
  · obtain ⟨i, name, path, hi, hs, hpath, hn⟩ := h.owned _ ch hch hhb
    exact ⟨i, name, path, hi, hs, hpath, hname.symm.trans hn⟩
  · intro c ch' hc hch' hhb' heq
    obtain ⟨hcc, hch''⟩ := hchans c ch' hc hch'
    exact hcc (h.puser_inj c pNN.chd ch' ch hch'' hch hhb' hhb heq)

theorem purgeStep {a : Server.CaAnswers} {ca' : Ca} (h : Tied d l ca)
    (hs : Server.PurgeStep a ca l l' ca') : Tied d l' ca' := by
  cases hs with
  | same => exact h
  | lost => exact h.clear _
  | renewed hch hreb => exact h.renew hch hreb
  | expired => exact (h.subset (by simp)).clear _
  | forgotten => exact h.subset (by simp)

/-- The search for the heartbeat of an IOC that has no channel yet. -/
theorem connect {s : Server} (h : Tied s.dir s.nameList s.ca) {i : IocId} {p : PIoc}
    (hp : s.dir.pIocs i = some p) (hpath : p.pathToList ≠ [])
    (hnew : ∀ c ch, s.ca.chans c = some ch → ch.puser ≠ some i) (now : ℕ) :
    Tied s.dir (s.connect i p now).nameList (s.connect i p now).ca := by
  have hold : ∀ c ch, c ≠ s.ca.nextChid → (s.connect i p now).ca.chans c = some ch →
      s.ca.chans c = some ch := by
    intro c ch hc hch
    rwa [Server.connect_chans, if_neg hc] at hch
  refine h.add ⟨p.heartbeatName, now, s.ca.nextChid, true⟩
    ⟨p.heartbeatName, .WDprocessChangeConnectionEvent, some i, none⟩ rfl
    (by rw [Server.connect_chans, if_pos rfl]) hold (fun nn hnn => List.mem_cons.mp hnn) rfl rfl
    (iff_of_true rfl rfl) (fun _ => ⟨?_, ?_⟩) fun hl => absurd rfl (Channel.not_isHeartbeat hl)
  · exact ⟨i, p.iocname, p.pathToList, rfl, Dir.site_of_pIocs hp, hpath, rfl⟩
  · exact fun c ch hc hch _ heq => hnew c ch (hold c ch hc hch) heq

/-- The IOC of a heartbeat channel has a path, and the channel its heartbeat's name. -/
theorem puser_path (h : Tied d l ca) {c : Chid} {ch : Channel} {i : IocId} {p : PIoc}
    (hch : ca.chans c = some ch) (hhb : ch.IsHeartbeat) (hpuser : ch.puser = some i)
    (hp : d.pIocs i = some p) : p.pathToList ≠ [] ∧ ch.name = p.heartbeatName := by
  obtain ⟨j, name, path, hj, hsite, hpath, hname⟩ := h.owned c ch hch hhb
  rw [hpuser] at hj
  cases hj
  rw [Dir.site_of_pIocs hp] at hsite
  cases hsite
  exact ⟨hpath, hname⟩

end Tied

/-! ## Events -/

section Events

variable {rx : Regex} {s s' : Server} {e : Event}

/-- The record name of a request has no field. -/
theorem not_mem_recordName (pPVName : Name) : '.' ∉ Server.recordName pPVName :=
  not_mem_cutAt _ _

/-- The IOCs that are there keep their names and paths. -/
theorem Handled.site (h : Handled rx s e s') (hwf : s.dir.WF) {i : IocId} {x : Name × Name}
    (hx : s.dir.site i = some x) : s'.dir.site i = some x := by
  cases h with
  | heartbeatUp _ _ _ _ hd => exact hd.site ▸ hx
  | @heartbeatDown _ _ _ j p _ _ _ _ hp =>
      rw [Dir.site_eq_header]
      show ((s.dir.setPIoc j { p with status := 2 }).header i).map _ = some x
      rw [Dir.header_setPIoc]
      split_ifs with hij
      · rw [hij, Dir.site_of_pIocs hp] at hx
        exact hx
      · rw [← Dir.site_eq_header]
        exact hx
  | learnedUp _ _ _ _ hd => exact hd.site hwf hx
  | learnedDown => exact hx
  | learnedDownFree => exact hx
  | request ha => cases ha <;> exact hx
  | purge _ hframe =>
      rw [hframe.dir]
      exact hx
  | report => exact hx

/-- No event adds an IOC that has a path. -/
theorem Handled.site_loaded (h : Handled rx s e s') (hwf : s.dir.WF) {i : IocId}
    {name path : Name} (hx : s'.dir.site i = some (name, path)) (hpath : path ≠ []) :
    s.dir.site i = some (name, path) := by
  cases h with
  | heartbeatUp _ _ _ _ hd =>
      rw [← hd.site]
      exact hx
  | @heartbeatDown _ _ _ j p _ _ _ _ hp =>
      rw [Dir.site_eq_header] at hx
      change ((s.dir.setPIoc j { p with status := 2 }).header i).map _ = _ at hx
      rw [Dir.header_setPIoc] at hx
      split_ifs at hx with hij
      · rw [hij, Dir.site_of_pIocs hp]
        exact hx
      · rw [Dir.site_eq_header]
        exact hx
  | learnedUp _ _ _ _ hd => exact hd.site_loaded hwf hx hpath
  | learnedDown => exact hx
  | learnedDownFree => exact hx
  | request ha => cases ha <;> exact hx
  | purge _ hframe =>
      rw [hframe.dir] at hx
      exact hx
  | report => exact hx

/-- Every event keeps channels and nodes tied. -/
theorem Handled.tied (h : Handled rx s e s') (hwf : s.dir.WF)
    (ht : Tied s.dir s.nameList s.ca) : Tied s'.dir s'.nameList s'.ca := by
  have hsites := ht.sites fun i x => h.site hwf (i := i)
  cases h with
  | heartbeatUp hch _ _ _ _ =>
      exact (hsites.subset (removePending_sublist _ _).subset).setChan hch rfl rfl fun _ => rfl
  | @heartbeatDown c now ch i p hch _ hcb _ _ =>
      have hcons := hsites.cons hch hcb now
      exact hcons.setChan hch rfl rfl fun _ => rfl
  | learnedUp hch _ hcb hch' _ =>
      refine (hsites.subset (removePending_sublist _ _).subset).setChan hch hch'.1 hch'.2.1 ?_
      exact fun hhb => absurd hhb (Channel.not_isHeartbeat hcb)
  | learnedDown => exact hsites.clear _
  | learnedDownFree => exact hsites.clear _
  | @request _ pPVName _ now _ _ ha =>
      cases ha with
      | searched => exact ht.search (not_mem_recordName pPVName) now
      | _ => exact ht
  | purge hpurge hframe =>
      rw [hframe.dir]
      exact Server.processPendingList_induct (P := Tied s.dir) hpurge ht
        fun a _ ca l l' ca' htl hs => htl.purgeStep hs
  | report => exact ht

end Events

/-! ## Runs -/

/-- Startup has opened one channel for each of the IOCs `pre`. -/
structure Opened (pre : List IocId) (s : Server) : Prop where
  path : ∀ i p, s.dir.header i = some p → p.pathToList ≠ []
  tied : Tied s.dir s.nameList s.ca
  visited : ∀ c ch, s.ca.chans c = some ch → ∃ i ∈ pre, ch.puser = some i

theorem Opened.connect {pre : List IocId} {s : Server} (h : Opened pre s) {i : IocId} {p : PIoc}
    (hi : i ∉ pre) (hp : s.dir.pIocs i = some p) (now : ℕ) :
    Opened (pre ++ [i]) (s.connect i p now) := by
  refine ⟨h.path, ?_, fun c ch hch => ?_⟩
  · refine h.tied.connect hp (h.path i p.header (Dir.header_of_pIocs hp))
      (fun c ch hch heq => ?_) now
    obtain ⟨j, hj, hpuser⟩ := h.visited c ch hch
    rw [hpuser] at heq
    cases heq
    exact hi hj
  · rw [Server.connect_chans] at hch
    split_ifs at hch
    · cases hch
      exact ⟨i, by simp, rfl⟩
    · obtain ⟨j, hj, hpuser⟩ := h.visited c ch hch
      exact ⟨j, List.mem_append_left _ hj, hpuser⟩

/-- Startup ties channels and nodes. -/
theorem startup_tied {rx : Regex} {cfg : Config} {s : Server} (h : startup rx cfg = .ok s)
    (hvisits : Visits s.dir cfg.order) : Tied s.dir s.nameList s.ca := by
  have hopened : Opened cfg.order s := by
    refine startup_induct (D := fun d => ∀ i p, d.header i = some p → p.pathToList ≠ [])
      (P := Opened) h (fun _ _ h => nomatch h) ?_ ?_ ?_
    · exact fun path _ d d' hwf hd hentry => hentry.headers hwf hd fun hne _ => hne
    · intro pgateAs d requested hwf hd
      exact ⟨hd, ⟨fun _ _ h => (by cases h), fun _ h => (by cases h), fun _ _ h => (by cases h),
        fun _ _ _ _ h => (by cases h), fun _ _ h => (by cases h), fun _ h => (by cases h)⟩,
        fun _ _ h => (by cases h)⟩
    · intro pre i post s p horder hopened hp
      exact hopened.connect (not_mem_done hvisits.1 horder) hp (cfg.clock i)
  exact hopened.tied

/-- The channels that startup opens are heartbeats', and not connected. -/
theorem startup_chans {rx : Regex} {cfg : Config} {s : Server} (h : startup rx cfg = .ok s)
    {c : Chid} {ch : Channel} (hch : s.ca.chans c = some ch) :
    ch.IsHeartbeat ∧ ch.server = none := by
  refine startup_induct (D := fun _ => True) (P := fun _ s => ∀ c ch, s.ca.chans c = some ch →
    ch.IsHeartbeat ∧ ch.server = none) h trivial (fun _ _ _ _ _ _ _ => trivial)
    (fun _ _ _ _ _ _ _ h => nomatch h) ?_ c ch hch
  intro pre i post s p _ hs _ c ch hch
  rw [Server.connect_chans] at hch
  split_ifs at hch
  · cases hch
    exact ⟨rfl, rfl⟩
  · exact hs c ch hch

section Runs

variable {rx : Regex} {start : Config → Prop} {ok : Server → Event → Prop}

/-- **The invariant rule**, for invariants that use that the storage is well formed and that
channels and nodes are tied. -/
theorem reachable_tied_induct {I : Server → Prop} {s : Server}
    (h : Reachable (nameServer rx start) ok s)
    (hinit : ∀ cfg s, start cfg → startup rx cfg = .ok s → Visits s.dir cfg.order → I s)
    (hstep : ∀ s e s', s.dir.WF → Tied s.dir s.nameList s.ca → I s → ok s e →
      Handled rx s e s' → I s') : s.dir.WF ∧ Tied s.dir s.nameList s.ca ∧ I s := by
  refine reachable_induct (I := fun s => Tied s.dir s.nameList s.ca ∧ I s) h ?_ ?_
  · intro cfg s hstart hs hvisits
    exact ⟨startup_tied hs hvisits, hinit cfg s hstart hs hvisits⟩
  · rintro s e s' hwf ⟨ht, hI⟩ hok hh
    exact ⟨hh.tied hwf ht, hstep s e s' hwf ht hI hok hh⟩

end Runs

end CaNameserver
