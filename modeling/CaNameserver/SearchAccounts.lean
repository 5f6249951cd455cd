import CaNameserver.Accounting
import CaNameserver.Lib.History

/-!
# Every search is accounted for

A node of the pending list stands for a search: one for a client, the search for a heartbeat at
startup, or that for a heartbeat that has disconnected.  A node leaves the list when a channel of
its name connects, or when it expires in a purge, which counts its name in the `never` table.  So
the searches that have been begun for a name are those that are pending, those that were found,
and those in the `never` table; none is lost or counted twice, whatever the order of the events,
and whether or not the calls of the purge succeed.

## The history

The searches begun and found are not in the state, and are added as a history (`Searches`,
`Server.tally`).  A search is begun by a request that opens a channel and by startup; it is
renewed by the disconnection of a heartbeat; it is found by a connection, if there is a node of
the channel's name.  The purge's repetition of a heartbeat's search is the same search.

## The balance

`Server.Balanced` is the sum for every name.  A connection takes one node of the name off, if
there is one (`pendingCount_removePending`), and that is what is counted as found.  A turn of the
purge moves a search from the list to the `never` table, or changes neither (`Purge.total_turn`).
A request starts a search and enters its node, or does neither (`Server.Answered.search_cases`).

* `searches_accounted`: the sum, in every reachable state.
-/

namespace CaNameserver

open CStr Fallible Transition

/-- The searches for a name. -/
structure Searches where
  /-- for a client, or for a heartbeat at startup -/
  begun : ℕ
  /-- for a heartbeat that has disconnected -/
  renewed : ℕ
  /-- ended by a connection -/
  found : ℕ
  deriving DecidableEq, Repr

/-- The nodes of a name. -/
def pendingCount (n : Name) (nameList : List Namenode) : ℕ := nameList.countP (·.name = n)

/-- The name under which a channel's connection looks for its node. -/
def Channel.pendingName (ch : Channel) : Name :=
  match ch.callback with
  | .WDprocessChangeConnectionEvent => ch.name
  | .processChangeConnectionEvent => cutAt '.' ch.name

/-- What startup searches for. -/
def Config.begun (cfg : Config) (s : Server) (n : Name) : Searches :=
  ⟨cfg.order.countP fun i => (s.dir.pIocs i).any fun p => p.heartbeatName = n, 0, 0⟩

/-- What an event adds to the searches. -/
def Server.tally (rx : Regex) (s : Server) (e : Event) (g : Name → Searches) (n : Name) : Searches :=
  match e with
  | .up c _ => (s.ca.chans c).elim (g n) fun ch =>
      if ch.pendingName = n ∧ pendingCount n s.nameList ≠ 0 then
        { g n with found := (g n).found + 1 }
      else g n
  | .down c _ => (s.ca.chans c).elim (g n) fun ch =>
      if ch.callback = .WDprocessChangeConnectionEvent ∧ ch.name = n then
        { g n with renewed := (g n).renewed + 1 }
      else g n
  | .request client pPVName search _ =>
      if s.searches rx client pPVName = true ∧ search = .normal ∧ Server.recordName pPVName = n then
        { g n with begun := (g n).begun + 1 }
      else g n
  | _ => g n

/-- The name server, with a count of its searches. -/
def tallyingServer (rx : Regex) (cfg : Config) : System (Server × (Name → Searches)) Event :=
  (nameServer rx (· = cfg)).remember cfg.begun (Server.tally rx)

/-! ## The pending list -/

section Pending

variable {n m : Name} {l : List Namenode}

theorem pendingCount_cons (nn : Namenode) (l : List Namenode) :
    pendingCount n (nn :: l) = pendingCount n l + if nn.name = n then 1 else 0 := by
  simp [pendingCount, List.countP_cons]

/-- A connection takes one node of the name off, if there is one. -/
theorem pendingCount_removePending :
    pendingCount n (removePending m l) + (if m = n ∧ pendingCount n l ≠ 0 then 1 else 0) =
      pendingCount n l := by
  induction l with
  | nil => simp [pendingCount, removePending]
  | cons nn l ih =>
      by_cases hnn : nn.name = m
      · have hhead : removePending m (nn :: l) = l := by simp [removePending, hnn]
        rw [hhead, pendingCount_cons, hnn]
        by_cases hmn : m = n <;> simp [hmn]
      · have htail : removePending m (nn :: l) = nn :: removePending m l := by
          simp [removePending, hnn]
        rw [htail, pendingCount_cons, pendingCount_cons]
        by_cases hn : nn.name = n
        · have hmn : m ≠ n := fun hmn => hnn (hn.trans hmn.symm)
          simp only [hmn, false_and, if_false, Nat.add_zero] at ih ⊢
          rw [ih]
        · simp only [if_neg hn, Nat.add_zero]
          exact ih

end Pending

/-! ## The purge -/

namespace Server

section Purge

variable {n : Name} {now tooLong : ℕ} {a : CaAnswers} {pg pg' : Purge} {pNN : Namenode}
  {rest : List Namenode}

/-- The searches for a name during a pass of the purge, pending or given up. -/
def Purge.total (n : Name) (pg : Purge) : ℕ :=
  pendingCount n pg.nodes + (pg.neverResTbl n).getD 0

theorem neverCount_getD (neverResTbl : Name → Option ℕ) (m : Name) :
    (neverCount neverResTbl m n).getD 0 =
      (neverResTbl n).getD 0 + if m = n then 1 else 0 := by
  by_cases hmn : n = m
  · rw [hmn, neverCount, Function.update_self, if_pos rfl]
    rfl
  · rw [neverCount, Function.update_of_ne hmn, if_neg (Ne.symm hmn)]
    rfl

/-- **A turn of the purge loses no search.** -/
theorem Purge.total_turn (hrest : pg.rest = pNN :: rest)
    (h : purgeTurn now tooLong a pg pNN rest = .ok pg') : pg'.total n = pg.total n := by
  have hnodes : ∀ (kept rest : List Namenode), pendingCount n (kept.reverse ++ rest) =
      pendingCount n kept + pendingCount n rest := by
    intro kept rest
    rw [pendingCount, List.countP_append, List.countP_reverse]
    rfl
  unfold Purge.total Purge.nodes
  rw [purgeTurn] at h
  split_ifs at h with hold hreb
  · -- the node of a heartbeat stays, with a new channel at most
    simp only [rebroadcast, bind_eq_ok_iff, Ca.getChan_eq_ok_iff] at h
    obtain ⟨ch, -, h⟩ := h
    split_ifs at h with hstate
    · cases h
      rfl
    · cases hclear : a.clear with
      | failed =>
          simp only [hclear] at h
          cases h
          rfl
      | normal =>
          cases hs : a.search with
          | failed =>
              simp only [hclear, hs] at h
              cases h
              rfl
          | normal =>
              simp only [hclear, hs] at h
              cases h
              rw [hnodes, hnodes, hrest, pendingCount_cons, pendingCount_cons]
  · -- the node of an expired search goes into the `never` table
    simp only [expire, bind_eq_ok_iff] at h
    obtain ⟨_, -, h⟩ := h
    cases h
    show pendingCount n (pg.kept.reverse ++ rest) + (neverCount pg.neverResTbl pNN.name n).getD 0 = _
    rw [hnodes, hnodes, hrest, pendingCount_cons, neverCount_getD]
    omega
  · cases h
    show pendingCount n ((pNN :: pg.kept).reverse ++ rest) + (pg.neverResTbl n).getD 0 = _
    rw [hnodes, hnodes, hrest, pendingCount_cons, pendingCount_cons]
    omega

/-- **The rule of the loop**: what a turn at a node keeps, a pass keeps. -/
theorem purgeLoop_rule {P : Purge → Prop} {answers : List CaAnswers}
    (h : purgeLoop now tooLong answers pg = .ok pg') (hpg : P pg)
    (hturn : ∀ a pNN rest (pg pg' : Purge), pg.rest = pNN :: rest →
      purgeTurn now tooLong a pg pNN rest = .ok pg' → P pg → P pg') : P pg' ∧ pg'.rest = [] := by
  induction answers generalizing pg with
  | nil =>
      rw [purgeLoop] at h
      split_ifs at h with hrest
      cases h
      exact ⟨hpg, hrest⟩
  | cons a answers ih =>
      rw [purgeLoop] at h
      cases hrest : pg.rest with
      | nil =>
          simp only [hrest] at h
          cases h
          exact ⟨hpg, hrest⟩
      | cons pNN rest =>
          simp only [hrest, bind_eq_ok_iff] at h
          obtain ⟨pg₁, hstep, h⟩ := h
          exact ih h (hturn a pNN rest pg pg₁ hrest hstep hpg)

theorem Purge.total_loop {answers : List CaAnswers}
    (h : purgeLoop now tooLong answers pg = .ok pg') :
    pendingCount n pg'.kept.reverse + (pg'.neverResTbl n).getD 0 = pg.total n := by
  obtain ⟨htotal, hrest⟩ := purgeLoop_rule (P := fun x => x.total n = pg.total n) h rfl
    fun _ _ _ _ _ hx hstep hP => (Purge.total_turn hx hstep).trans hP
  rw [← htotal, Purge.total, Purge.nodes, hrest, List.append_nil]

end Purge

end Server

/-! ## Requests -/

/-- A request starts a search, and enters its node, or does neither. -/
theorem Server.Answered.search_cases {rx : Regex} {s s' : Server} {client pPVName : Name}
    {search : CaStatus} {now : ℕ} {ret : PvExistReturn}
    (h : Answered rx s client pPVName search now s' ret) :
    (s.searches rx client pPVName = true ∧ search = .normal ∧
      ∃ chd, s'.nameList = ⟨recordName pPVName, now, chd, false⟩ :: s.nameList) ∨
    (¬(s.searches rx client pPVName = true ∧ search = .normal) ∧ s'.nameList = s.nameList) := by
  cases h with
  | searched hn he hns hpend hden hs =>
      exact Or.inl ⟨searches_eq_true_iff.mpr ⟨hn, he, hns, hpend, hden⟩, hs, _, rfl⟩
  | searchFailed _ _ _ _ _ hs =>
      refine Or.inr ⟨fun h => ?_, rfl⟩
      rw [hs] at h
      cases h.2
  | noName hn => exact Or.inr ⟨fun h => (searches_eq_true_iff.mp h.1).1 hn, rfl⟩
  | iocError _ he =>
      refine Or.inr ⟨fun h => ?_, rfl⟩
      rw [(searches_eq_true_iff.mp h.1).2.1] at he
      cases he
  | hit _ he => exact Or.inr ⟨fun h => he (searches_eq_true_iff.mp h.1).2.1, rfl⟩
  | iocDown _ he => exact Or.inr ⟨fun h => he (searches_eq_true_iff.mp h.1).2.1, rfl⟩
  | nameserverPV _ _ hns => exact Or.inr ⟨fun h => (searches_eq_true_iff.mp h.1).2.2.1 hns, rfl⟩
  | pending _ _ _ hpend =>
      obtain ⟨nn, hnn, hname⟩ := hpend
      exact Or.inr ⟨fun h => (searches_eq_true_iff.mp h.1).2.2.2.1 nn hnn hname, rfl⟩
  | denied _ _ _ _ hden =>
      refine Or.inr ⟨fun h => ?_, rfl⟩
      rw [(searches_eq_true_iff.mp h.1).2.2.2.2] at hden
      cases hden

/-! ## The invariant -/

/-- Begun and renewed searches are pending, found, or given up. -/
def Server.Balanced (s : Server) (g : Name → Searches) : Prop :=
  ∀ n, (g n).begun + (g n).renewed =
    pendingCount n s.nameList + (g n).found + (s.neverResTbl n).getD 0

section Events

variable {rx : Regex} {cfg : Config} {s s' : Server} {e : Event} {g : Name → Searches}

/-- The connection of a channel, of either kind. -/
theorem Server.Balanced.up (h : s.Balanced g) {c : Chid} {cn : Connection} {ch : Channel}
    (hch : s.ca.chans c = some ch) (hlist : s'.nameList = removePending ch.pendingName s.nameList)
    (hnever : s'.neverResTbl = s.neverResTbl) : s'.Balanced (s.tally rx (.up c cn) g) := by
  intro n
  have hn := h n
  have hcount := pendingCount_removePending (n := n) (m := ch.pendingName) (l := s.nameList)
  rw [hlist, hnever, Server.tally, hch, Option.elim_some]
  split_ifs at hcount ⊢ with hcond
  · dsimp only
    omega
  · omega

theorem Handled.balanced (h : Handled rx s e s') (hg : s.Balanced g) :
    s'.Balanced (s.tally rx e g) := by
  cases h with
  | @heartbeatUp c cn ch i d' hch _ hcb _ _ =>
      exact hg.up hch (by rw [Channel.pendingName, hcb]) rfl
  | @learnedUp c cn ch ch' i p d' hch _ hcb _ _ =>
      exact hg.up hch (by rw [Channel.pendingName, hcb]) rfl
  | @heartbeatDown c now ch i p hch _ hcb _ _ =>
      intro n
      have hn := hg n
      rw [Server.tally, hch, Option.elim_some]
      show _ = pendingCount n (⟨ch.name, now, c, true⟩ :: s.nameList) + _ + _
      rw [pendingCount_cons]
      split_ifs with hcond hname hname
      · dsimp only
        omega
      · exact absurd hcond.2 hname
      · exact absurd ⟨hcb, hname⟩ hcond
      · omega
  | @learnedDown c now ch e hch _ hcb _ =>
      intro n
      rw [Server.tally, hch, Option.elim_some, if_neg fun h => by rw [hcb] at h; cases h.1]
      exact hg n
  | @learnedDownFree c now ch hch _ hcb _ =>
      intro n
      rw [Server.tally, hch, Option.elim_some, if_neg fun h => by rw [hcb] at h; cases h.1]
      exact hg n
  | @request client pPVName search now _ ret ha =>
      intro n
      have hn := hg n
      rw [Server.tally, ha.frame.neverResTbl]
      rcases ha.search_cases with ⟨hsearches, hnormal, chd, hlist⟩ | ⟨hnot, hlist⟩
      · rw [hlist, pendingCount_cons]
        simp only [hsearches, hnormal, true_and]
        split_ifs
        · dsimp only
          omega
        · omega
      · rw [hlist, if_neg fun h => hnot ⟨h.1, h.2.1⟩]
        exact hn
  | @purge now tooLong answers s' hpurge hframe =>
      intro n
      rw [Server.processPendingList, bind_eq_ok_iff] at hpurge
      obtain ⟨pg, hloop, hend⟩ := hpurge
      cases hend
      have htotal := Server.Purge.total_loop (n := n) hloop
      have hn := hg n
      change pendingCount n pg.kept.reverse + (pg.neverResTbl n).getD 0 =
        pendingCount n s.nameList + (s.neverResTbl n).getD 0 at htotal
      show (g n).begun + (g n).renewed = pendingCount n pg.kept.reverse + (g n).found +
        (pg.neverResTbl n).getD 0
      omega
  | report => exact hg

/-- The searches of startup. -/
theorem startup_balanced (h : startup rx cfg = .ok s) : s.Balanced (cfg.begun s) := by
  intro n
  have hall : (∀ m, s.neverResTbl m = none) ∧ pendingCount n s.nameList =
      cfg.order.countP fun i => (s.dir.pIocs i).any fun p => p.heartbeatName = n := by
    refine startup_induct (D := fun _ => True) (P := fun pre s => (∀ m, s.neverResTbl m = none) ∧
      pendingCount n s.nameList =
        pre.countP fun i => (s.dir.pIocs i).any fun p => p.heartbeatName = n) h trivial
      (fun _ _ _ _ _ _ _ => trivial) (fun _ _ _ _ _ => ⟨fun _ => rfl, rfl⟩) ?_
    rintro pre i post s p - ⟨hnever, hcount⟩ hp
    refine ⟨hnever, ?_⟩
    show pendingCount n (⟨p.heartbeatName, cfg.clock i, s.ca.nextChid, true⟩ :: s.nameList) =
      (pre ++ [i]).countP fun i => (s.dir.pIocs i).any fun p => p.heartbeatName = n
    rw [pendingCount_cons, hcount, List.countP_append]
    simp [List.countP_cons, hp]
  show (cfg.begun s n).begun + 0 = pendingCount n s.nameList + 0 + (s.neverResTbl n).getD 0
  rw [hall.1, hall.2]
  rfl

/-- **Every search is accounted for.**  In every reachable state, the searches that have been begun
for a name, for clients or for a heartbeat, are those whose node is pending, those that a connection
has ended, and those that the `never` table counts. -/
theorem searches_accounted (rx : Regex) (cfg : Config) {s : Server} {g : Name → Searches}
    (h : Reachable (tallyingServer rx cfg) (fun _ _ => True) (s, g)) (n : Name) :
    (g n).begun + (g n).renewed =
      s.nameList.countP (·.name = n) + (g n).found + (s.neverResTbl n).getD 0 := by
  refine Reachable.remembered (fun _ _ => True) (I := Server.Balanced)
    (J := fun s => s.dir.WF) h (fun s hs => reachable_wf hs) ?_ ?_ n
  · rintro s ⟨cfg', rfl, hs, -⟩ -
    exact startup_balanced hs
  · rintro s e t g hwf hg - ⟨hen, ht⟩
    exact (handle_handled hwf hen ht).balanced hg

end Events

/-- A search that is found, one that expires, one that is pending. -/
def threeSearches : List Event :=
  [.request [] "y".toList .normal 1, .up 1 (connectionTo "c:3" 3 ""),
    .request [] "z".toList .normal 2,
    .purge 303 300 (List.replicate 3 ⟨2, .normal, .normal, 304⟩),
    .request [] "z".toList .normal 305]

set_option maxRecDepth 10000 in
theorem searches_accounted_threeSearches : ∃ s g,
    Reachable (tallyingServer literal oneIoc) (fun _ _ => True) (s, g) ∧
      (g ['z']).begun + (g ['z']).renewed = 1 + (g ['z']).found + 1 := by
  have hrun : (run literal (fun _ _ => true) oneIoc threeSearches).any (fun s =>
      decide (s.nameList.countP (·.name = ['z']) = 1) &&
      decide (s.neverResTbl ['z'] = some 1)) = true := by decide
  obtain ⟨s, hs, h⟩ := (Option.any_eq_true _ _).mp hrun
  rw [Bool.and_eq_true, decide_eq_true_eq, decide_eq_true_eq] at h
  have hreach : Reachable (nameServer literal (· = oneIoc)) (fun _ _ => True) s :=
    reachable_of_run (fun _ _ _ _ => trivial) rfl hs
  obtain ⟨g, hg⟩ : ∃ g, Reachable (tallyingServer literal oneIoc) _ (s, g) := hreach.remember
  have hsum := searches_accounted literal oneIoc hg ['z']
  rw [h.1, h.2] at hsum
  exact ⟨s, g, hg, hsum⟩

end CaNameserver
