import CaNameserver.DenyFrom
import CaNameserver.Provenance
import CaNameserver.SearchAccounts

/-!
# What is searched for, and for whom

The access rules of the pvlist file guard the searches, not the answers.  So what the server has
of the network comes from two places: the lists of the IOCs of the directory file, and searches
that a client asked for and that the rules allowed (`names_warranted`).  A name that is on no list
and that the rules do not allow is neither searched for nor pending, is not counted as never
found, and is never answered, whatever the clients ask and in whatever order connections come.

## Which rules

The rules meant here are those for everyone (`Config.Permits`): the allowing ones, the denying
ones, and the order.  A `DENY FROM` rule can only take something away, and whether it does depends
on the key it is looked up under, which is not the name in the file; nothing is said about it
here.

## Two places

`Config.Read` and `Config.Asked` are conditions on the events of a run, and grow with it.  What
one event can add is said once for each kind of data: a channel (`Handled.learned_chan`), a node
or a count (`Handled.searchNames`), an entry of the PV table (`Handled.entered`).  Only a request
that the rules let pass opens a channel that is not a heartbeat's; what is pending has a channel,
what is given up was pending, and what enters the table from the network was found over such a
channel.  `Warranted` collects this, and `Warranted.handled` keeps it.
-/

namespace CaNameserver

open CStr Fallible Transition AccessRules GateAs Server

variable {rx : Regex} {cfg : Config} {s s' : Server} {e : Event}

/-! ## The rules -/

/-- What is allowed to a host is allowed by the rules for everyone. -/
theorem allows_everyone {g : GateAs} {rules : List AccessRule} (hg : s.pgateAs = some g)
    (hrules : Holds g rules) {client n : Name} (h : s.searchDenied rx client n = false) :
    Allows rules (Matches rx n) none := by
  cases hused : g.denyFromListUsed with
  | true =>
      have hallows : Allows rules (Matches rx n) (some (clientKey client)) := by
        by_contra hnot
        rw [(searchDenied_iff hg hrules hused).mpr hnot] at h
        cases h
      exact ⟨nofun, hallows.notDenied, hallows.allowed⟩
  | false =>
      rw [searchDenied, hg] at h
      have hsome : (g.findEntry rx n none).isSome = true := by simpa [hused] using h
      exact (hrules.findEntry_isSome_iff _).mp hsome

/-- The rules of the pvlist file that are for everyone, if there is a file, allow the name. -/
def Config.Permits (rx : Regex) (cfg : Config) (n : Name) : Prop :=
  ∀ lfile, cfg.pvlist = some lfile →
    Allows ((fgetsLines gateMaxPvlistLineLength lfile).flatMap (lineRules rx cfg.aToIPAddr))
      (Matches rx n) none

/-- **The rules of the file decide** what is searched for. -/
theorem permits_of_not_searchDenied (hread : cfg.readAccess rx = .ok s.pgateAs) {client n : Name}
    (h : s.searchDenied rx client n = false) : cfg.Permits rx n := by
  intro lfile hfile
  rw [Config.readAccess] at hread
  simp only [hfile] at hread
  cases hg : readPvList rx cfg.aToIPAddr cfg.lev lfile with
  | error f =>
      simp only [hg] at hread
      cases hread
  | ok g =>
      simp only [hg] at hread
      replace hread : s.pgateAs = some g := (Except.ok.inj hread).symm
      exact allows_everyone hread (readPvList_holds hg) h

/-! ## The two places -/

/-- The name belongs to an IOC of the directory file: it is its heartbeat, or on its list, as it was
at startup or when a connection came. -/
def Config.Read (cfg : Config) (es : List Event) (n : Name) : Prop :=
  ∃ path ∈ cfg.paths, n = cfg.iocName path ++ heartbeat ∨ n ∈ signals cfg.fs path ∨
    ∃ c cn, Event.up c cn ∈ es ∧ n ∈ signals cn.fs path

/-- A client has asked for the name, and the rules allow it. -/
def Config.Asked (rx : Regex) (cfg : Config) (es : List Event) (n : Name) : Prop :=
  (∃ client pPVName search now, Event.request client pPVName search now ∈ es ∧
    recordName pPVName = n) ∧ cfg.Permits rx n

theorem Config.Read.mono {es es' : List Event} {n : Name} (h : cfg.Read es n) (hes : es ⊆ es') :
    cfg.Read es' n := by
  obtain ⟨path, hpath, hn | hn | ⟨c, cn, hup, hn⟩⟩ := h
  · exact ⟨path, hpath, Or.inl hn⟩
  · exact ⟨path, hpath, Or.inr (Or.inl hn)⟩
  · exact ⟨path, hpath, Or.inr (Or.inr ⟨c, cn, hes hup, hn⟩)⟩

theorem Config.Asked.mono {es es' : List Event} {n : Name} (h : cfg.Asked rx es n)
    (hes : es ⊆ es') : cfg.Asked rx es' n := by
  obtain ⟨⟨client, pPVName, search, now, hreq, hname⟩, hrules⟩ := h
  exact ⟨⟨client, pPVName, search, now, hes hreq, hname⟩, hrules⟩

/-! ## One event -/

/-- An event is a request that the rules let search for `n`. -/
def Event.SearchesFor (rx : Regex) (s : Server) (e : Event) (n : Name) : Prop :=
  ∃ client pPVName search now, e = .request client pPVName search now ∧
    recordName pPVName = n ∧ s.searchDenied rx client n = false

/-- A learned channel was there before the event, or the event has searched for it. -/
theorem Handled.learned_chan (h : Handled rx s e s') {c : Chid} {ch : Channel}
    (hch : s'.ca.chans c = some ch) (hl : ch.IsLearned) :
    (∃ ch₀, s.ca.chans c = some ch₀ ∧ ch₀.IsLearned ∧ ch₀.name = ch.name) ∨
      e.SearchesFor rx s ch.name := by
  have hset : ∀ x ch₀ ch', (s.ca.setChan x ch').chans c = some ch →
      s.ca.chans x = some ch₀ → ch'.name = ch₀.name → ch'.callback = ch₀.callback →
      ∃ ch₀, s.ca.chans c = some ch₀ ∧ ch₀.IsLearned ∧ ch₀.name = ch.name := by
    intro x ch₀ ch' hch hch₀ hname hcb
    rw [Ca.setChan_chans] at hch
    split_ifs at hch with hc
    · cases hch
      exact ⟨ch₀, hc ▸ hch₀, hcb.symm.trans hl, hname.symm⟩
    · exact ⟨ch, hch, hl, rfl⟩
  have hclear : ∀ x, (s.ca.clear x).chans c = some ch →
      ∃ ch₀, s.ca.chans c = some ch₀ ∧ ch₀.IsLearned ∧ ch₀.name = ch.name := by
    intro x hch
    rw [Ca.clear_chans] at hch
    split_ifs at hch
    exact ⟨ch, hch, hl, rfl⟩
  cases h with
  | heartbeatUp hch₀ => exact Or.inl (hset _ _ _ hch hch₀ rfl rfl)
  | heartbeatDown hch₀ => exact Or.inl (hset _ _ _ hch hch₀ rfl rfl)
  | learnedUp hch₀ _ _ hch' => exact Or.inl (hset _ _ _ hch hch₀ hch'.1 hch'.2.1)
  | learnedDown => exact Or.inl (hclear _ hch)
  | learnedDownFree => exact Or.inl (hclear _ hch)
  | @request client pPVName search now _ _ ha =>
      cases ha with
      | searched _ _ _ _ hden =>
          rw [Ca.search_chans] at hch
          split_ifs at hch
          · cases hch
            exact Or.inr ⟨client, pPVName, search, now, rfl, rfl, hden⟩
          · exact Or.inl ⟨ch, hch, hl, rfl⟩
      | _ => exact Or.inl ⟨ch, hch, hl, rfl⟩
  | purge hpurge =>
      refine Or.inl ⟨ch, ?_, hl, rfl⟩
      refine processPendingList_induct (P := fun _ ca => ∀ c ch, ca.chans c = some ch →
        ch.IsLearned → s.ca.chans c = some ch) hpurge (fun _ _ hx _ => hx) ?_ c ch hch hl
      exact fun a _ ca l l' ca' hP hstep c ch hx hl => hP c ch (hstep.learned_old hx hl) hl
  | report => exact Or.inl ⟨ch, hch, hl, rfl⟩

/-- What enters a name: a list that is read as an IOC comes back, or a search that has found it. -/
theorem Handled.entered (h : Handled rx s e s') (hwf : s.dir.WF)
    (ht : Tied s.dir s.nameList s.ca) {n : Name} (hn : s'.dir.stringResTbl n ≠ none) :
    s.dir.stringResTbl n ≠ none ∨
    (∃ c cn i p, e = .up c cn ∧ s.dir.pIocs i = some p ∧ p.pathToList ≠ [] ∧
      n ∈ signals cn.fs p.pathToList) ∨
    ∃ c ch, s.ca.chans c = some ch ∧ ch.IsLearned ∧ ch.name = n := by
  cases h with
  | @heartbeatUp c cn ch i d' hch _ hcb hpuser hd =>
      obtain ⟨p, hp⟩ := hd.pIocs
      by_contra hnot
      rw [not_or, not_or, not_not] at hnot
      obtain ⟨hnone, hlist, -⟩ := hnot
      have hpath := (ht.puser_path hch hcb hpuser hp).1
      have hout : d'.owner n = none := by
        refine hd.stays_absent hwf hp (fun _ hmem => ?_) (hwf.owner_eq_none_iff.mpr hnone)
        exact hlist ⟨c, cn, i, p, rfl, hp, hpath, hmem⟩
      exact hn ((hwf.reloaded hd).owner_eq_none_iff.mp hout)
  | heartbeatDown => exact Or.inl hn
  | @learnedUp c cn ch ch' i p d' hch _ hcb _ hd =>
      rw [cutAt_eq_self (ht.learned c ch hch hcb)] at hd
      by_cases hname : n = ch.name
      · exact Or.inr (Or.inr ⟨c, ch, hch, hcb, hname.symm⟩)
      · left
        rw [Ne, ← hwf.owner_eq_none_iff, ← hd.owner_of_ne hwf hname,
          (hwf.learned hd).owner_eq_none_iff]
        exact hn
  | @learnedDown c now ch e₀ _ _ _ _ =>
      left
      change (s.dir.tblRemove ch.name).stringResTbl n ≠ none at hn
      rw [Dir.tblRemove_stringResTbl] at hn
      split_ifs at hn
      · exact absurd rfl hn
      · exact hn
  | learnedDownFree => exact Or.inl hn
  | request ha => cases ha <;> exact Or.inl hn
  | purge _ hframe => exact Or.inl (hframe.dir ▸ hn)
  | report => exact Or.inl hn

/-! ## The nodes and the `never` table -/

/-- The pending searches, the heartbeats' apart, and the names that were given up are names `P`. -/
structure SearchNames (P : Name → Prop) (l : List Namenode) (neverResTbl : Name → Option ℕ) :
    Prop where
  pending : ∀ nn ∈ l, nn.rebroadcast = false → P nn.name
  never : ∀ n, neverResTbl n ≠ none → P n

theorem SearchNames.mono {P Q : Name → Prop} {l : List Namenode} {neverResTbl : Name → Option ℕ}
    (h : SearchNames P l neverResTbl) (hPQ : ∀ n, P n → Q n) : SearchNames Q l neverResTbl :=
  ⟨fun nn hnn hreb => hPQ _ (h.pending nn hnn hreb), fun n hn => hPQ _ (h.never n hn)⟩

theorem SearchNames.subset {P : Name → Prop} {l l' : List Namenode} {neverResTbl : Name → Option ℕ}
    (h : SearchNames P l neverResTbl) (hsub : l' ⊆ l) : SearchNames P l' neverResTbl :=
  ⟨fun nn hnn => h.pending nn (hsub hnn), h.never⟩

/-- A node more, of a heartbeat or with a name `P`. -/
theorem SearchNames.cons {P : Name → Prop} {l : List Namenode} {neverResTbl : Name → Option ℕ}
    (h : SearchNames P l neverResTbl) {nn : Namenode} (hnn : nn.rebroadcast = false → P nn.name) :
    SearchNames P (nn :: l) neverResTbl := by
  refine ⟨fun x hx hreb => ?_, h.never⟩
  rcases List.mem_cons.mp hx with rfl | hx
  · exact hnn hreb
  · exact h.pending x hx hreb

/-- A search that is pending after a turn of the purge was so before. -/
theorem Server.PurgeStep.pending {a : CaAnswers} {ca ca' : Ca} {l l' : List Namenode}
    (h : PurgeStep a ca l l' ca') {nn : Namenode} (hnn : nn ∈ l') (hreb : nn.rebroadcast = false) :
    nn ∈ l := by
  have hless : ∀ (pre post : List Namenode) (pNN : Namenode), nn ∈ pre ++ post →
      nn ∈ pre ++ pNN :: post := by
    intro pre post pNN hmem
    exact ((List.sublist_cons_self pNN post).append_left pre).subset hmem
  cases h with
  | same => exact hnn
  | lost => exact hnn
  | @renewed pre post pNN ch _ hrebNN =>
      rcases List.mem_append.mp hnn with hnn | hnn
      · exact List.mem_append_left _ hnn
      · rcases List.mem_cons.mp hnn with rfl | hnn
        · rw [show pNN.rebroadcast = false from hreb] at hrebNN
          cases hrebNN
        · exact List.mem_append_right _ (List.mem_cons_of_mem _ hnn)
  | expired => exact hless _ _ _ hnn
  | forgotten => exact hless _ _ _ hnn

/-- A turn of the purge counts a search that it gives up, and nothing else. -/
theorem purgeTurn_never {now tooLong : ℕ} {a : CaAnswers} {pg pg' : Purge} {pNN : Namenode}
    {rest : List Namenode} (h : purgeTurn now tooLong a pg pNN rest = .ok pg') :
    pg'.neverResTbl = pg.neverResTbl ∨
      pNN.rebroadcast = false ∧ pg'.neverResTbl = neverCount pg.neverResTbl pNN.name := by
  rw [purgeTurn] at h
  split_ifs at h with hold hreb
  · left
    simp only [rebroadcast, bind_eq_ok_iff] at h
    obtain ⟨ch, -, h⟩ := h
    split_ifs at h with hstate
    · cases h
      rfl
    · cases hclear : a.clear with
      | failed =>
          simp only [hclear] at h
          cases h
          rfl
      | normal =>
          cases hs : a.search with
          | failed =>
              simp only [hclear, hs] at h
              cases h
              rfl
          | normal =>
              simp only [hclear, hs] at h
              cases h
              rfl
  · simp only [expire, bind_eq_ok_iff] at h
    obtain ⟨_, -, h⟩ := h
    cases h
    exact Or.inr ⟨Bool.eq_false_iff.mpr hreb, rfl⟩
  · cases h
    exact Or.inl rfl

/-- A turn of the purge gives up a pending name at most. -/
theorem SearchNames.turn {P : Name → Prop} {now tooLong : ℕ} {a : CaAnswers} {pg pg' : Purge}
    {pNN : Namenode} {rest : List Namenode} (h : SearchNames P pg.nodes pg.neverResTbl)
    (hrest : pg.rest = pNN :: rest) (hturn : purgeTurn now tooLong a pg pNN rest = .ok pg') :
    SearchNames P pg'.nodes pg'.neverResTbl := by
  refine ⟨fun nn hnn hreb => ?_, fun n hn => ?_⟩
  · exact h.pending nn ((purgeTurn_step hrest hturn).pending hnn hreb) hreb
  · rcases purgeTurn_never hturn with hsame | ⟨hreb, hcount⟩
    · exact h.never n (hsame ▸ hn)
    · rw [hcount, neverCount] at hn
      by_cases hname : n = pNN.name
      · have hmem : pNN ∈ pg.nodes := by simp [Purge.nodes, hrest]
        exact hname ▸ h.pending pNN hmem hreb
      · rw [Function.update_of_ne hname] at hn
        exact h.never n hn

/-- What an event gives up or leaves pending was pending, or the event has searched for it. -/
theorem Handled.searchNames {P : Name → Prop} (h : Handled rx s e s')
    (hs : SearchNames P s.nameList s.neverResTbl) (hnew : ∀ n, e.SearchesFor rx s n → P n) :
    SearchNames P s'.nameList s'.neverResTbl := by
  cases h with
  | heartbeatUp => exact hs.subset (removePending_sublist _ _).subset
  | heartbeatDown => exact hs.cons fun hreb => nomatch hreb
  | learnedUp => exact hs.subset (removePending_sublist _ _).subset
  | learnedDown => exact hs
  | learnedDownFree => exact hs
  | @request client pPVName search now _ _ ha =>
      cases ha with
      | searched _ _ _ _ hden =>
          exact hs.cons fun _ => hnew _ ⟨client, pPVName, search, now, rfl, rfl, hden⟩
      | _ => exact hs
  | @purge now tooLong answers s' hpurge =>
      rw [processPendingList, bind_eq_ok_iff] at hpurge
      obtain ⟨pg, hloop, hend⟩ := hpurge
      cases hend
      obtain ⟨hpg, hrest⟩ := purgeLoop_rule (P := fun pg => SearchNames P pg.nodes pg.neverResTbl)
        hloop hs fun _ _ _ _ _ hx hturn hP => hP.turn hx hturn
      rw [Purge.nodes, hrest, List.append_nil] at hpg
      exact hpg
  | report => exact hs

/-! ## Runs -/

/-- What the server has of the network is from one of the two places. -/
structure Warranted (rx : Regex) (cfg : Config) (es : List Event) (s : Server) : Prop where
  rules : cfg.readAccess rx = .ok s.pgateAs
  named : ∀ i name path, s.dir.site i = some (name, path) → path ≠ [] →
    path ∈ cfg.paths ∧ name = cfg.iocName path
  /-- a channel is open for the heartbeat of an IOC of the directory file, or for a client -/
  channel : ∀ c ch, s.ca.chans c = some ch →
    (ch.IsHeartbeat ∧ ∃ path ∈ cfg.paths, ch.name = cfg.iocName path ++ heartbeat) ∨
      cfg.Asked rx es ch.name
  searches : SearchNames (cfg.Asked rx es) s.nameList s.neverResTbl
  table : ∀ n, s.dir.stringResTbl n ≠ none → cfg.Read es n ∨ cfg.Asked rx es n

/-- The heartbeat channels belong to the IOCs of the directory file. -/
theorem heartbeat_channel (ht : Tied s.dir s.nameList s.ca)
    (hnamed : ∀ i name path, s.dir.site i = some (name, path) → path ≠ [] →
      path ∈ cfg.paths ∧ name = cfg.iocName path) {c : Chid} {ch : Channel}
    (hch : s.ca.chans c = some ch) (hhb : ch.IsHeartbeat) :
    ∃ path ∈ cfg.paths, ch.name = cfg.iocName path ++ heartbeat := by
  obtain ⟨i, name, path, -, hsite, hpath, hname⟩ := ht.owned c ch hch hhb
  obtain ⟨hmem, rfl⟩ := hnamed i name path hsite hpath
  exact ⟨path, hmem, hname⟩

theorem startup_warranted (h : startup rx cfg = .ok s) (hvisits : Visits s.dir cfg.order) :
    Warranted rx cfg [] s := by
  have hnamed : ∀ i name path, s.dir.site i = some (name, path) → path ≠ [] →
      path ∈ cfg.paths ∧ name = cfg.iocName path := by
    intro i name path hsite _
    obtain ⟨p, hp, rfl, rfl⟩ := Dir.site_eq_some_iff.mp hsite
    obtain ⟨-, hmem, hname, -⟩ := startup_header h (Dir.header_of_pIocs hp)
    exact ⟨hmem, hname⟩
  refine ⟨startup_pgateAs h, hnamed, fun c ch hch => ?_, ?_, fun n hn => Or.inl ?_⟩
  · have hhb := (startup_chans h hch).1
    exact Or.inl ⟨hhb, heartbeat_channel (startup_tied h hvisits) hnamed hch hhb⟩
  · refine startup_induct (D := fun _ => True)
      (P := fun _ s => SearchNames (cfg.Asked rx []) s.nameList s.neverResTbl) h trivial
      (fun _ _ _ _ _ _ _ => trivial) (fun _ _ _ _ _ => ⟨fun _ h => (by cases h), fun _ h => ?_⟩) ?_
    · exact absurd rfl h
    · exact fun pre i post s p _ hs _ => hs.cons fun hreb => nomatch hreb
  · obtain ⟨i, ho⟩ := Option.ne_none_iff_exists'.mp ((startup_wf h).owner_eq_none_iff.not.mpr hn)
    have howned := startup_owned h
    rcases howned.owned n i ho with ⟨p, hp, hnp⟩ | ⟨-, path, hpath, hname⟩
    · obtain ⟨hmem, hname⟩ := howned.named i p hp
      refine ⟨p.pathToList, hmem, hnp.imp (fun hhb => ?_) Or.inl⟩
      rw [hhb, PIoc.heartbeatName, hname]
    · exact ⟨path, hpath, Or.inl hname⟩

/-- **Every event** adds what is read or asked for only. -/
theorem Warranted.handled {es : List Event} (h : Warranted rx cfg es s) (hwf : s.dir.WF)
    (ht : Tied s.dir s.nameList s.ca) (hh : Handled rx s e s') :
    Warranted rx cfg (es ++ [e]) s' := by
  have hmono : es ⊆ es ++ [e] := List.subset_append_left _ _
  have hnew : ∀ n, e.SearchesFor rx s n → cfg.Asked rx (es ++ [e]) n := by
    rintro n ⟨client, pPVName, search, now, rfl, hname, hden⟩
    exact ⟨⟨client, pPVName, search, now, by simp, hname⟩, permits_of_not_searchDenied h.rules hden⟩
  have hold : ∀ c ch, s.ca.chans c = some ch → ch.IsLearned → cfg.Asked rx es ch.name := by
    intro c ch hch hl
    exact (h.channel c ch hch).resolve_left fun hhb => Channel.not_isHeartbeat hl hhb.1
  have hnamed : ∀ i name path, s'.dir.site i = some (name, path) → path ≠ [] →
      path ∈ cfg.paths ∧ name = cfg.iocName path :=
    fun i name path hsite hpath => h.named i name path (hh.site_loaded hwf hsite hpath) hpath
  refine ⟨?_, hnamed, fun c ch hch => ?_, ?_, fun n hn => ?_⟩
  · rw [hh.pgateAs]
    exact h.rules
  · by_cases hhb : ch.IsHeartbeat
    · exact Or.inl ⟨hhb, heartbeat_channel (hh.tied hwf ht) hnamed hch hhb⟩
    · right
      rcases hh.learned_chan hch (Channel.isLearned_of_not hhb) with ⟨ch₀, hch₀, hl, hname⟩ | hs
      · exact hname ▸ (hold c ch₀ hch₀ hl).mono hmono
      · exact hnew _ hs
  · exact hh.searchNames (h.searches.mono fun n hn => hn.mono hmono) hnew
  · rcases hh.entered hwf ht hn with hn | ⟨c, cn, i, p, rfl, hp, hpath, hmem⟩ | ⟨c, ch, hch, hl, rfl⟩
    · exact (h.table n hn).imp (fun hr => hr.mono hmono) fun ha => ha.mono hmono
    · obtain ⟨hpaths, -⟩ := h.named i _ _ (Dir.site_of_pIocs hp) hpath
      exact Or.inl ⟨p.pathToList, hpaths, Or.inr (Or.inr ⟨c, cn, by simp, hmem⟩)⟩
    · exact Or.inr ((hold c ch hch hl).mono hmono)

/-- **Whatever the server has of the network was listed, or asked for and allowed.**  After every
run, a channel is open only for the heartbeat of an IOC of the directory file or for a name that a
client asked for and that the rules for everyone allow; only such names are pending or counted as
never found; and a client is sent to an IOC only for such a name or one of the lists that were
read. -/
theorem names_warranted (rx : Regex) (cfg : Config) {s₀ s : Server} {es : List Event}
    (hinit : (nameServer rx (· = cfg)).init s₀)
    (h : Run (nameServer rx (· = cfg)) (fun _ _ => True) s₀ es s) :
    Warranted rx cfg es s ∧
      ∀ client pPVName search now s' a,
        s.pvExistTest rx client pPVName search now = .ok (s', .existsAt a) →
          cfg.Read es (recordName pPVName) ∨ cfg.Asked rx es (recordName pPVName) := by
  obtain ⟨_, rfl, hs₀, hvisits⟩ := hinit
  have hall := (run_history (I := fun es s => Tied s.dir s.nameList s.ca ∧ Warranted rx _ es s) h
    (startup_wf hs₀) ⟨startup_tied hs₀ hvisits, startup_warranted hs₀ hvisits⟩ ?_).2
  · refine ⟨hall.2, fun client pPVName search now s' a hret => ?_⟩
    cases pvExistTest_answered hret with
    | hit _ hmem => exact hall.2.table _ hmem
  · rintro pre s e s' hwf ⟨ht, hw⟩ - hh
    exact ⟨hh.tied hwf ht, hw.handled hwf ht hh⟩

/-- A site with rules. -/
def allowsY : Config := pvlistSite "y ALLOW\n"

/-- A client asks for a name it is allowed, which is found, and for one it is not. -/
def askedAndRefused : List Event :=
  [.request [] "y.VAL".toList .normal 1, .up 1 (connectionTo "c:3" 3 ""),
    .request [] "z".toList .normal 2]

theorem not_read_y : ¬ allowsY.Read askedAndRefused ['y'] := by
  rintro ⟨path, hpath, hread⟩
  have hpaths : allowsY.paths = ["A/sig".toList] := by decide
  rw [hpaths, List.mem_singleton] at hpath
  subst hpath
  rcases hread with hhb | hlist | ⟨c, cn, hup, hlist⟩
  · revert hhb
    decide
  · revert hlist
    decide
  · simp only [askedAndRefused, List.mem_cons, List.not_mem_nil, reduceCtorEq, false_or, or_false,
      Event.up.injEq] at hup
    obtain ⟨-, rfl⟩ := hup
    revert hlist
    decide

set_option maxRecDepth 10000 in
/-- The name that is found is answered: it is on no list, and has been asked for. -/
theorem names_warranted_askedAndRefused : ∃ s₀ s s', (nameServer literal (· = allowsY)).init s₀ ∧
    Run (nameServer literal (· = allowsY)) (fun _ _ => True) s₀ askedAndRefused s ∧
    s.pvExistTest literal [] ['y'] .normal 0 = .ok (s', .existsAt ⟨afInet, 3, InAddr.zero⟩) ∧
    allowsY.Asked literal askedAndRefused ['y'] := by
  have hrun : (run literal (fun _ _ => true) allowsY askedAndRefused).any (fun s =>
      answers literal s ['y'] (.existsAt ⟨afInet, 3, InAddr.zero⟩)) = true := by decide
  obtain ⟨s, hs, hans⟩ := (Option.any_eq_true _ _).mp hrun
  obtain ⟨s₀, hinit, hrun⟩ : ∃ s₀, (nameServer literal (· = allowsY)).init s₀ ∧
      Run (nameServer literal (· = allowsY)) (fun _ _ => True) s₀ askedAndRefused s :=
    run_of_run (fun _ _ _ _ => trivial) rfl hs
  obtain ⟨s', hret⟩ := exists_of_answers hans
  have hwarrant := (names_warranted literal allowsY hinit hrun).2 _ _ _ _ _ _ hret
  exact ⟨s₀, s, s', hinit, hrun, hret, hwarrant.resolve_left not_read_y⟩

end CaNameserver
