import CaNameserver.Coupling
import CaNameserver.Provenance

/-!
# A site whose lists do not change

At a site where no PV is on the lists of two IOCs and no list names the heartbeat of another IOC
(`Config.Separate`), and as long as the files say what they said at startup, the server does what
it is for: whatever the order in which IOCs come and go, a listed PV belongs to its IOC, a client
that asks for it gets the IOC's address exactly if the IOC's heartbeat is connected, and the PV is
never searched for.

## Where the PVs are

That the PVs stay where they are is a fact about the registry: its parties have disjoint sets of
names, and every operation respects them (`Registry.State.Holds`, `Registry.State.Respects`).  A
reload gives up the names of a party and claims them again.  In between nobody else can claim
them, for it is one operation.  What is left to show is that the operation of each event respects
the sets (`Fixed.respects`), which is the condition on the files, and that startup lays the PVs
out in this way (`Laid`).  While startup is at it, a pathname may be rejected; then the entries of
its list are gone again, its heartbeat apart.

## Who is up

That the channels say who is up is `Coupled`.  Its condition is met at such a site
(`Fixed.uncrossed`), and so is that of the registry, as long as learned servers do not go by the
names of loaded IOCs.  `Fixed` has the two together, and that no learned channel is open for a
listed PV (`Fixed.unsearched_step`).

* `fixed_site_served`: what a client gets.
-/

namespace CaNameserver

open CStr Fallible Transition

/-- No PV is on the lists of two IOCs, and no list names the heartbeat of another IOC. -/
def Config.Separate (cfg : Config) : Prop :=
  ∀ path ∈ cfg.paths, ∀ path' ∈ cfg.paths, cfg.iocName path ≠ cfg.iocName path' →
    ∀ n ∈ signals cfg.fs path, n ∉ signals cfg.fs path' ∧ n ≠ cfg.iocName path' ++ heartbeat

theorem Config.Separate.ownHeartbeats {cfg : Config} (h : cfg.Separate) : cfg.OwnHeartbeats := by
  intro path hpath path' hpath' hmem
  by_contra hne
  exact (h path hpath path' hpath' (Ne.symm hne) _ hmem).2 rfl

/-! ## Startup -/

/-- What startup makes of a site whose lists are separate. -/
structure Laid (cfg : Config) (d : Dir) : Prop extends Owned cfg d where
  holds : ∀ i p n, d.header i = some p → n ∈ signals cfg.fs p.pathToList →
    n ≠ p.heartbeatName → d.owner n = some i

section Startup

variable {cfg : Config} {path : Name} {d d₁ d₂ d₃ : Dir} {r count : ℤ}

/-- An IOC that is there goes by another name than one that is about to be entered. -/
theorem Owned.name_ne (h : Owned cfg d) (hwf : d.WF) (hfree : d.iocResTbl (cfg.iocName path) = none)
    {i : IocId} {p : PIoc} (hp : d.header i = some p) :
    cfg.iocName p.pathToList ≠ cfg.iocName path := by
  intro heq
  obtain ⟨q, hq, rfl⟩ := Dir.header_eq_some_iff.mp hp
  have htab := (hwf.iocTable q.iocname i).mpr ⟨q, hq, rfl⟩
  have hname : q.iocname = cfg.iocName path := (h.named i _ hp).2.trans heq
  rw [hname, hfree] at htab
  cases htab

/-- No PV of the list of an IOC that is about to be entered has an owner, its heartbeat apart. -/
theorem Owned.owner_new (h : Owned cfg d) (hwf : d.WF) (hcfg : cfg.Separate)
    (hpath : path ∈ cfg.paths) (hfree : d.iocResTbl (cfg.iocName path) = none) {n : Name}
    (hn : n ∈ signals cfg.fs path) (hhb : n ≠ cfg.iocName path ++ heartbeat) :
    d.owner n = none := by
  have hforeign : ∀ path' ∈ cfg.paths, n ≠ cfg.iocName path' ++ heartbeat := by
    intro path' hpath' hname
    by_cases heq : cfg.iocName path = cfg.iocName path'
    · exact hhb (heq ▸ hname)
    · exact (hcfg path hpath path' hpath' heq n hn).2 hname
  cases ho : d.owner n with
  | none => rfl
  | some i =>
      rcases h.owned n i ho with ⟨p, hp, hname | hmem⟩ | ⟨-, path', hpath', hname⟩
      · obtain ⟨hmem, hiocname⟩ := h.named i p hp
        exact absurd (hname.trans (congrArg (· ++ heartbeat) hiocname)) (hforeign _ hmem)
      · exact absurd hn
          (hcfg _ (h.named i p hp).1 path hpath (h.name_ne hwf hfree hp) n hmem).1
      · exact absurd hname (hforeign path' hpath')

/-- The new IOC with its heartbeat and its list. -/
theorem Laid.loaded (h : Laid cfg d) (hwf : d.WF) (hcfg : cfg.Separate) (hpath : path ∈ cfg.paths)
    (hfree : d.iocResTbl (cfg.iocName path) = none)
    (hinst : Dir.Installed (d.installIocName (cfg.iocName path) path).1
      (cfg.iocName path ++ heartbeat) d.nextPIoc d₁ r)
    (hadd : d₁.addAllPvs cfg.fs d.nextPIoc = .ok (d₂, count)) : Laid cfg d₂ := by
  have hwf₁ := (hwf.installIocName (cfg.iocName path) path).installed hinst
  obtain ⟨q, hq, hqpath, hqhb⟩ := loaded_pIoc hfree hinst
  refine ⟨h.toOwned.loaded hwf hpath hfree hinst hadd, fun i p n hp hn hhb => ?_⟩
  rw [Dir.loaded_header hfree hinst hadd] at hp
  split_ifs at hp with hi
  · -- the new IOC takes what it reads
    cases hp
    subst hi
    have hnone : d₁.owner n = none := by
      rw [installed_heartbeat_owner hwf hinst hhb]
      exact h.owner_new hwf hcfg hpath hfree hn hhb
    have hlisted := Dir.addAllPvs_listed hwf₁ hadd hq (hqpath ▸ hn) (hqhb ▸ hhb)
      fun o ho => by rw [hnone] at ho; cases ho
    exact hlisted.owner (hwf₁.addAllPvs hadd)
  · -- what the others have is not on the list
    have hne := h.name_ne hwf hfree hp
    obtain ⟨hnot, hnhb⟩ := hcfg _ (h.named i p hp).1 path hpath hne n hn
    rw [Dir.addAllPvs_owner_of_not_mem hwf₁ hadd hq (hqpath ▸ hnot),
      installed_heartbeat_owner hwf hinst hnhb]
    exact h.holds i p n hp hn hhb

/-- The IOC of a rejected list is taken out again. -/
theorem Laid.rejected (h : Laid cfg d₂) (hwf : d₂.WF) (hlisted : d₂.AllListed) {i : IocId}
    {p : PIoc} (hp : d₂.pIocs i = some p) (hrem : Dir.Removed d₂ i p d₃) (name : Name) :
    Laid cfg (d₃.drop i name) := by
  refine ⟨h.toOwned.rejected hwf hlisted hp hrem name, fun j q n hq hn hhb => ?_⟩
  rw [Dir.header_drop, hrem.header hp] at hq
  split_ifs at hq with hji
  have ho := h.holds j q n hq hn hhb
  show d₃.owner n = some j
  rw [(hrem.owner_of_ne hwf hp (by rw [ho]; simpa using hji)).2, ho]

theorem Laid.entry (h : Laid cfg d) (hwf : d.WF) (hlisted : d.AllListed) (hcfg : cfg.Separate)
    (hpath : path ∈ cfg.paths) (hentry : d.Entry cfg.fs (cfg.iocName path) path d₁) :
    Laid cfg d₁ := by
  cases hentry with
  | skipped => exact h
  | loaded hfree hinst hadd _ => exact h.loaded hwf hcfg hpath hfree hinst hadd
  | rejected hfree hinst hadd hp hrem _ =>
      have hwf₁ := hwf.installIocName (cfg.iocName path) path
      have hlisted₁ := (hlisted.installIocName hwf _ _).installed hwf₁ hinst
      exact (h.loaded hwf hcfg hpath hfree hinst hadd).rejected
        ((hwf₁.installed hinst).addAllPvs hadd) (hlisted₁.addAllPvs (hwf₁.installed hinst) hadd)
        hp hrem _

theorem startup_laid {rx : Regex} {s : Server} (h : startup rx cfg = .ok s)
    (hcfg : cfg.Separate) : Laid cfg s.dir := by
  have hempty : Laid cfg Dir.empty := by
    refine ⟨⟨fun _ _ h => ?_, fun _ _ ho => ?_⟩, fun _ _ _ h => ?_⟩
    · cases h
    · cases ho
    · cases h
  have hall := (startup_dir_induct (D := fun d => d.AllListed ∧ Laid cfg d) h
    ⟨fun _ _ _ ho => (by cases ho), hempty⟩
    fun path hpath d d' hwf hd hentry => ⟨hd.1.entry hwf hentry,
      hd.2.entry hwf hd.1 hcfg hpath hentry⟩).2
  exact hall.2

end Startup

/-! ## Runs -/

/-- A list that is read has the PVs that it had at startup. -/
def listsUnchanged (fs : FileSystem) (s : Server) (e : Event) : Bool :=
  (s.reload e).all fun r => (s.dir.header r.1).all fun p =>
    r.2.all (fun n => (signals fs p.pathToList).contains n) &&
      (signals fs p.pathToList).all fun n => r.2.contains n

/-- The clears and searches of the purge succeed. -/
def searchesSucceed : Event → Bool
  | .purge _ _ answers => answers.all fun a =>
      decide (a.clear = .normal) && decide (a.search = .normal)
  | _ => true

/-- The events at a site whose lists do not change. -/
def fixedSite (fs : FileSystem) (s : Server) (e : Event) : Bool :=
  listsUnchanged fs s e && noNamesake s e && searchesSucceed e

/-- The PVs of the list of an IOC, its heartbeat apart. -/
def Dir.names (d : Dir) (fs : FileSystem) (i : IocId) (n : Name) : Prop :=
  ∃ p, d.header i = some p ∧ p.pathToList ≠ [] ∧ n ∈ signals fs p.pathToList ∧
    n ≠ p.heartbeatName

/-- The invariant of such a site. -/
structure Fixed (cfg : Config) (s : Server) : Prop where
  shown : Shown s
  coupled : Coupled s
  named : ∀ i name path, s.dir.site i = some (name, path) → path ≠ [] →
    path ∈ cfg.paths ∧ name = cfg.iocName path
  holds : s.dir.view.Holds (s.dir.names cfg.fs)
  /-- no PV of a list is searched for -/
  unsearched : ∀ c ch i, s.ca.chans c = some ch → ch.IsLearned → ¬s.dir.names cfg.fs i ch.name

section Fixed

variable {rx : Regex} {cfg : Config} {s s' : Server} {e : Event}

theorem listsUnchanged_iff {fs : FileSystem} {i : IocId} {l : List Name} {p : PIoc}
    (h : listsUnchanged fs s e = true) (hr : s.reload e = some (i, l))
    (hp : s.dir.header i = some p) (n : Name) : n ∈ l ↔ n ∈ signals fs p.pathToList := by
  rw [listsUnchanged, hr, Option.all_some, hp, Option.all_some, Bool.and_eq_true,
    List.all_eq_true, List.all_eq_true] at h
  exact ⟨fun hn => List.contains_iff_mem.mp (h.1 n hn),
    fun hn => List.contains_iff_mem.mp (h.2 n hn)⟩

theorem Dir.names_iff_site {d : Dir} {fs : FileSystem} {i : IocId} {n : Name} :
    d.names fs i n ↔ ∃ name path, d.site i = some (name, path) ∧ path ≠ [] ∧
      n ∈ signals fs path ∧ n ≠ name ++ heartbeat := by
  constructor
  · rintro ⟨p, hp, hpath, hn, hhb⟩
    refine ⟨p.iocname, p.pathToList, ?_, hpath, hn, hhb⟩
    rw [Dir.site_eq_header, hp]
    rfl
  · rintro ⟨name, path, hsite, hpath, hn, hhb⟩
    obtain ⟨p, hp, rfl, rfl⟩ := Dir.site_eq_some_iff.mp hsite
    exact ⟨p.header, Dir.header_of_pIocs hp, hpath, hn, hhb⟩

/-- The lists of the IOCs are those there were. -/
theorem Handled.names (h : Handled rx s e s') (hwf : s.dir.WF) (fs : FileSystem) :
    s'.dir.names fs = s.dir.names fs := by
  funext i n
  rw [eq_iff_iff, Dir.names_iff_site, Dir.names_iff_site]
  constructor
  · rintro ⟨name, path, hsite, hpath, hrest⟩
    exact ⟨name, path, h.site_loaded hwf hsite hpath, hpath, hrest⟩
  · rintro ⟨name, path, hsite, hpath, hrest⟩
    exact ⟨name, path, h.site hwf hsite, hpath, hrest⟩

theorem Fixed.named_header (h : Fixed cfg s) {i : IocId} {p : PIoc} (hp : s.dir.header i = some p)
    (hpath : p.pathToList ≠ []) :
    p.pathToList ∈ cfg.paths ∧ p.iocname = cfg.iocName p.pathToList := by
  refine h.named i p.iocname p.pathToList ?_ hpath
  rw [Dir.site_eq_header, hp]
  rfl

/-- Two IOCs have different names. -/
theorem Fixed.iocName_ne (h : Fixed cfg s) {i j : IocId} {p q : PIoc}
    (hp : s.dir.header i = some p) (hq : s.dir.header j = some q) (hpath : p.pathToList ≠ [])
    (hqpath : q.pathToList ≠ []) (hij : i ≠ j) :
    cfg.iocName p.pathToList ≠ cfg.iocName q.pathToList := by
  rw [← (h.named_header hp hpath).2, ← (h.named_header hq hqpath).2]
  obtain ⟨p₀, hp₀, rfl⟩ := Dir.header_eq_some_iff.mp hp
  obtain ⟨q₀, hq₀, rfl⟩ := Dir.header_eq_some_iff.mp hq
  exact fun hname => hij (h.shown.wf.iocname_inj hp₀ hq₀ hname)

/-- At such a site no list names the heartbeat of another IOC. -/
theorem Fixed.uncrossed (h : Fixed cfg s) (hcfg : cfg.Separate)
    (hok : fixedSite cfg.fs s e = true) : uncrossed s e := by
  rw [fixedSite, Bool.and_eq_true, Bool.and_eq_true] at hok
  obtain ⟨⟨hlists, hns⟩, hsearch⟩ := hok
  cases e with
  | up c cn =>
      intro ch hch j q hq hqpath
      refine ⟨fun hhb i p hpuser hp hst hmem => ?_, fun hl heq => ?_⟩
      · by_contra hne
        have hreload : s.reload (.up c cn) = _ := Server.reload_up hch hhb hpuser hp
        rw [if_pos hst] at hreload
        have hppath := (h.shown.tied.puser_path hch hhb hpuser hp).1
        have hmem' := (listsUnchanged_iff hlists hreload (Dir.header_of_pIocs hp) _).mp hmem
        have hnp := h.named_header (Dir.header_of_pIocs hp) hppath
        have hnq := h.named_header (Dir.header_of_pIocs hq) hqpath
        have hnames : cfg.iocName p.pathToList ≠ cfg.iocName q.pathToList := by
          intro hsame
          exact hne (hnq.2.trans (hsame.symm.trans hnp.2.symm))
        refine (hcfg _ hnp.1 _ hnq.1 hnames _ hmem').2 ?_
        exact congrArg (· ++ heartbeat) hnq.2
      · have hcb : ¬ch.callback = .WDprocessChangeConnectionEvent := Channel.not_isHeartbeat hl
        have htab := (h.shown.wf.iocTable _ j).mpr ⟨q, hq, heq⟩
        rw [noNamesake, hch, Option.all_some, decide_eq_false hcb, Bool.false_or, htab,
          Option.bind_some, hq, Option.all_some] at hns
        exact hqpath (by simpa using hns)
  | purge now tooLong answers =>
      intro a ha
      rw [searchesSucceed, List.all_eq_true] at hsearch
      simpa using hsearch a ha
  | down => trivial
  | request => trivial
  | report => trivial

/-- The operation of an event takes no listed PV from its IOC. -/
theorem Fixed.respects (h : Fixed cfg s) (hcfg : cfg.Separate)
    (hok : fixedSite cfg.fs s e = true) {op : NameOp} (hop : s.op e = some op) :
    s.dir.view.Respects (s.dir.names cfg.fs) op := by
  rw [fixedSite, Bool.and_eq_true, Bool.and_eq_true] at hok
  obtain ⟨⟨hlists, -⟩, -⟩ := hok
  cases e with
  | up c cn =>
      rw [Server.op, Option.bind_eq_some_iff] at hop
      obtain ⟨ch, hch, hop⟩ := hop
      cases hcb : ch.callback with
      | WDprocessChangeConnectionEvent =>
          simp only [hcb, Option.bind_eq_some_iff, Option.map_eq_some_iff] at hop
          obtain ⟨i, hpuser, p, hp, rfl⟩ := hop
          intro hdown
          obtain ⟨p', hp', hst⟩ := Dir.view_status_eq_down_iff.mp hdown
          rw [hp] at hp'
          cases hp'
          have hreload : s.reload (.up c cn) = _ := Server.reload_up hch hcb hpuser hp
          rw [if_pos hst] at hreload
          have hhead := Dir.header_of_pIocs hp
          have hiff := listsUnchanged_iff hlists hreload hhead
          have hppath := (h.shown.tied.puser_path hch hcb hpuser hp).1
          refine ⟨?_, ?_⟩
          · rintro n ⟨q, hq, -, hn, -⟩
            rw [hhead] at hq
            cases hq
            exact Or.inr ((hiff n).mpr hn)
          · rintro j n hji ⟨q, hq, hqpath, hn, -⟩ hmem
            have hne := h.iocName_ne hq hhead hqpath hppath hji
            exact (hcfg _ (h.named_header hq hqpath).1 _ (h.named_header hhead hppath).1 hne n
              hn).1 ((hiff n).mp hmem)
      | processChangeConnectionEvent =>
          simp only [hcb, Option.map_eq_some_iff] at hop
          obtain ⟨p, -, rfl⟩ := hop
          intro j
          show ¬s.dir.names cfg.fs j (cutAt '.' ch.name)
          rw [cutAt_eq_self (h.shown.tied.learned c ch hch hcb)]
          exact h.unsearched c ch j hch hcb
  | down c now =>
      rw [Server.op, Option.bind_eq_some_iff] at hop
      obtain ⟨ch, hch, hop⟩ := hop
      cases hcb : ch.callback with
      | WDprocessChangeConnectionEvent =>
          simp only [hcb, Option.map_eq_some_iff] at hop
          obtain ⟨i, -, rfl⟩ := hop
          trivial
      | processChangeConnectionEvent =>
          simp only [hcb, Option.some.injEq] at hop
          cases hop
          exact fun j => h.unsearched c ch j hch hcb
  | request => cases hop
  | purge => cases hop
  | report => cases hop

/-- A listed PV is in the table. -/
theorem Fixed.mem (h : Fixed cfg s) {i : IocId} {n : Name} (hn : s.dir.names cfg.fs i n) :
    s.dir.stringResTbl n ≠ none := by
  have ho : s.dir.owner n = some i := h.holds i n hn
  intro hnone
  rw [h.shown.wf.owner_eq_none_iff.mpr hnone] at ho
  cases ho

/-- No event opens a learned channel for a listed PV. -/
theorem Fixed.unsearched_step (h : Fixed cfg s) (hh : Handled rx s e s') {c : Chid} {ch : Channel}
    {i : IocId} (hch : s'.ca.chans c = some ch) (hl : ch.IsLearned) :
    ¬s.dir.names cfg.fs i ch.name := by
  have hset : ∀ x ch₀ ch', (s.ca.setChan x ch').chans c = some ch →
      s.ca.chans x = some ch₀ → ch'.name = ch₀.name → ch'.callback = ch₀.callback →
      ¬s.dir.names cfg.fs i ch.name := by
    intro x ch₀ ch' hch hch₀ hname hcb
    rw [Ca.setChan_chans] at hch
    split_ifs at hch
    · cases hch
      rw [hname]
      exact h.unsearched x ch₀ i hch₀ (hcb.symm.trans hl)
    · exact h.unsearched c ch i hch hl
  have hclear : ∀ x, (s.ca.clear x).chans c = some ch → ¬s.dir.names cfg.fs i ch.name := by
    intro x hch
    rw [Ca.clear_chans] at hch
    split_ifs at hch
    exact h.unsearched c ch i hch hl
  cases hh with
  | heartbeatUp hch₀ => exact hset _ _ _ hch hch₀ rfl rfl
  | heartbeatDown hch₀ => exact hset _ _ _ hch hch₀ rfl rfl
  | learnedUp hch₀ _ _ hch' => exact hset _ _ _ hch hch₀ hch'.1 hch'.2.1
  | learnedDown => exact hclear _ hch
  | learnedDownFree => exact hclear _ hch
  | request ha =>
      cases ha with
      | searched _ hfree =>
          change (s.ca.search _ _).chans c = some ch at hch
          rw [Ca.search_chans] at hch
          split_ifs at hch
          · cases hch
            exact fun hn => h.mem hn hfree
          · exact h.unsearched c ch i hch hl
      | _ => exact h.unsearched c ch i hch hl
  | purge hp =>
      have hold : ∀ c ch, s'.ca.chans c = some ch → ch.IsLearned → s.ca.chans c = some ch := by
        refine Server.processPendingList_induct (P := fun _ ca => ∀ c ch, ca.chans c = some ch →
          ch.IsLearned → s.ca.chans c = some ch) hp (fun _ _ hx _ => hx) ?_
        exact fun a _ ca l l' ca' hP hstep c ch hx hl => hP c ch (hstep.learned_old hx hl) hl
      exact h.unsearched c ch i (hold c ch hch hl) hl
  | report => exact h.unsearched c ch i hch hl

theorem Fixed.handled (h : Fixed cfg s) (hcfg : cfg.Separate) (hok : fixedSite cfg.fs s e = true)
    (hh : Handled rx s e s') : Fixed cfg s' := by
  have hns : noNamesake s e = true := by
    rw [fixedSite, Bool.and_eq_true, Bool.and_eq_true] at hok
    exact hok.1.2
  have hwf := h.shown.wf
  refine ⟨h.shown.handled hh hns, h.coupled.handled hwf h.shown.tied (h.uncrossed hcfg hok) hh,
    fun i name path hsite hpath => h.named i name path (hh.site_loaded hwf hsite hpath) hpath,
    ?_, fun c ch i hch hl => ?_⟩
  · rw [hh.names hwf, hh.view hwf h.shown.tied h.shown.listed, Server.viewAfter]
    cases hop : s.op e with
    | none => exact h.holds
    | some op => exact h.holds.apply (h.respects hcfg hok hop)
  · rw [hh.names hwf]
    exact h.unsearched_step hh hch hl

theorem startup_fixed (h : startup rx cfg = .ok s) (hcfg : cfg.Separate)
    (hvisits : Visits s.dir cfg.order) : Fixed cfg s := by
  have hlaid := startup_laid h hcfg
  refine ⟨startup_shown h hvisits, startup_coupled h hcfg.ownHeartbeats hvisits, ?_, ?_, ?_⟩
  · intro i name path hsite _
    obtain ⟨p, hp, rfl, rfl⟩ := Dir.site_eq_some_iff.mp hsite
    exact hlaid.named i p.header (Dir.header_of_pIocs hp)
  · rintro i n ⟨p, hp, -, hn, hhb⟩
    exact hlaid.holds i p n hp hn hhb
  · exact fun c ch i hch hl => absurd (startup_chans h hch).1 (Channel.not_isHeartbeat hl)

theorem reachable_fixed (hcfg : cfg.Separate)
    (h : Reachable (nameServer rx (· = cfg)) (fun s e => fixedSite cfg.fs s e = true) s) :
    Fixed cfg s := by
  refine h.invariant (I := Fixed cfg) ?_ ?_
  · rintro s ⟨cfg', rfl, hs, hvisits⟩
    exact startup_fixed hs hcfg hvisits
  · rintro s e s' hs hok ⟨hen, hs'⟩
    exact hs.handled hcfg hok (handle_handled hs.shown.wf hen hs')

end Fixed

/-- **The service of a fixed site.**  If no PV is on two lists and no list names another IOC's
heartbeat, then in every state that a run leads to in which the lists stay as they are, a PV of the
list of a loaded IOC belongs to this IOC, a client gets the IOC's address exactly if the IOC's
heartbeat is connected, and the request does not search for the PV. -/
theorem fixed_site_served (rx : Regex) (cfg : Config) (hcfg : cfg.Separate) {s : Server}
    (h : Reachable (nameServer rx (· = cfg)) (fun s e => fixedSite cfg.fs s e = true) s)
    {i : IocId} {p : PIoc} (hp : s.dir.pIocs i = some p) (hpath : p.pathToList ≠ []) {n : Name}
    (hn : n ∈ signals cfg.fs p.pathToList) (hhb : n ≠ p.heartbeatName) :
    s.dir.owner n = some i ∧ ∃ c ch, HeartbeatOf s i p c ch ∧
      ∀ client pPVName search now s' ret, Server.recordName pPVName = n → n ≠ [] →
        s.pvExistTest rx client pPVName search now = .ok (s', ret) →
        ret = (if ch.server ≠ none then .existsAt p.addr else .doesNotExistHere) ∧
          s'.ca = s.ca ∧ s'.nameList = s.nameList := by
  have hs := reachable_fixed hcfg h
  have hnames : s.dir.names cfg.fs i n := ⟨p.header, Dir.header_of_pIocs hp, hpath, hn, hhb⟩
  have ho : s.dir.owner n = some i := hs.holds i n hnames
  obtain ⟨c, ch, hc⟩ := hs.coupled.heartbeatOf hs.shown.wf hs.shown.tied hp hpath
  refine ⟨ho, c, ch, hc, ?_⟩
  rintro client pPVName search now s' ret rfl hne hret
  have hmem := hs.mem hnames
  have hstatus := hc.status
  cases Server.pvExistTest_answered hret with
  | noName hnil => exact absurd hnil hne
  | @iocError e pv _ he hpv hnone =>
      obtain ⟨j, hj, -⟩ := hs.shown.wf.owner_lt e pv hpv
      rw [hnone] at hj
      cases hj
  | hit _ _ ho' hp' hst =>
      rw [ho] at ho'
      cases ho'
      rw [hp] at hp'
      cases hp'
      exact ⟨by rw [if_pos (hstatus.mpr hst)], rfl, rfl⟩
  | iocDown _ _ ho' hp' hst =>
      rw [ho] at ho'
      cases ho'
      rw [hp] at hp'
      cases hp'
      exact ⟨by rw [if_neg fun hup => hst (hstatus.mp hup)], rfl, rfl⟩
  | nameserverPV _ he => exact absurd he hmem
  | pending _ he => exact absurd he hmem
  | denied _ he => exact absurd he hmem
  | searchFailed _ he => exact absurd he hmem
  | searched _ he => exact absurd he hmem

/-- The first IOC is rebooted, with the list it had. -/
def sameList : List Event :=
  bothUp ++ [.down 0 2, .up 0 (connectionTo "a:5" 5 "b:2:heartbeat x")]

set_option maxRecDepth 10000 in
theorem fixed_site_served_sameList : ∃ s p,
    Reachable (nameServer literal (· = twoIocs)) (fun s e => fixedSite twoIocs.fs s e = true) s ∧
    s.dir.pIocs 0 = some p ∧ s.dir.owner ['x'] = some 0 ∧ ∃ c ch, HeartbeatOf s 0 p c ch := by
  have hcfg : twoIocs.Separate := by
    unfold Config.Separate
    decide
  have hrun : (run literal (fixedSite twoIocs.fs) twoIocs sameList).any (fun s =>
      (s.dir.pIocs 0).any fun p => decide (p.pathToList = "b:2/sig".toList) &&
        decide (p.iocname = "b:2".toList)) = true := by decide
  obtain ⟨s, hs, hthen⟩ := (Option.any_eq_true _ _).mp hrun
  obtain ⟨p, hp, hthen⟩ := (Option.any_eq_true _ _).mp hthen
  rw [Bool.and_eq_true, decide_eq_true_eq, decide_eq_true_eq] at hthen
  obtain ⟨hpath, hname⟩ := hthen
  have hreach : Reachable (nameServer literal (· = twoIocs))
      (fun s e => fixedSite twoIocs.fs s e = true) s :=
    reachable_of_run (fun _ _ _ hok => hok) rfl hs
  obtain ⟨ho, c, ch, hc, -⟩ := fixed_site_served literal twoIocs hcfg hreach hp
    (by rw [hpath]; decide) (n := ['x']) (by rw [hpath]; decide)
    (by rw [PIoc.heartbeatName, hname]; decide)
  exact ⟨s, p, hreach, hp, ho, c, ch, hc⟩

end CaNameserver
