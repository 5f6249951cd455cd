import CaNameserver.Lib.History
import CaNameserver.Refinement

/-!
# Where the answers come from

The server sends a client to an IOC only for a PV that it has reason to look for there: the IOC's
heartbeat, a PV of the list that was read when the IOC came back the last time (or at startup), or
a PV that has been found on the IOC by a search since, and whose channel has not been lost.  In
particular no answer comes from a list that has been replaced.

## The record

Neither the lists nor the searches are in the state of the server.  They are added as a history
(`Transition.System.remember`), which `Registry.State.record` keeps: a list replaces what was on
record for its IOC, a PV that is found is added, and one that is lost goes.  That a party of the
registry owns only what is on record for it is a fact about registries
(`Registry.State.Recorded.apply`), and an event of the server is an operation of its registry.

## Startup

Startup is no operation.  `Owned` is its invariant: every PV belongs to an IOC that has it on the
list that has been read for it, or is a heartbeat.  An IOC that startup has taken out again may
still be the owner of a heartbeat (`Dir.Lost`); its address is not given out again, so that nobody
is ever sent there.

* `answers_on_record`: every answer is on record.
-/

namespace CaNameserver

open CStr Fallible Transition

/-! ## Startup -/

/-- Whose PVs the PVs of the table are at startup. -/
structure Owned (cfg : Config) (d : Dir) : Prop where
  named : ∀ i p, d.header i = some p → p.pathToList ∈ cfg.paths ∧
    p.iocname = cfg.iocName p.pathToList
  /-- a PV is on the list of its owner, or its heartbeat; or its owner is gone -/
  owned : ∀ n i, d.owner n = some i →
    (∃ p, d.header i = some p ∧ (n = p.heartbeatName ∨ n ∈ signals cfg.fs p.pathToList)) ∨
      d.header i = none ∧ ∃ path ∈ cfg.paths, n = cfg.iocName path ++ heartbeat

section Startup

variable {cfg : Config} {path : Name} {d d₁ d₂ d₃ : Dir} {r count : ℤ}

theorem installed_heartbeat_owner {name path n : Name} {i : IocId} (hwf : d.WF)
    (hinst : Dir.Installed (d.installIocName name path).1 (name ++ heartbeat) i d₁ r)
    (hn : n ≠ name ++ heartbeat) : d₁.owner n = d.owner n := by
  rw [hinst.owner_of_ne (hwf.installIocName name path) hn, Dir.owner_installIocName]

/-- The IOC of a list that has been read, with its heartbeat. -/
theorem loaded_pIoc {name path : Name} (hfree : d.iocResTbl name = none)
    (hinst : Dir.Installed (d.installIocName name path).1 (name ++ heartbeat) d.nextPIoc d₁ r) :
    ∃ q, d₁.pIocs d.nextPIoc = some q ∧ q.pathToList = path ∧
      q.heartbeatName = name ++ heartbeat := by
  have hhead : d₁.header d.nextPIoc = some ⟨name, path, 0, SockAddr.zero, []⟩ := by
    rw [hinst.header, Dir.header, Dir.installIocName_pIocs hfree, if_pos rfl]
    rfl
  obtain ⟨q, hq, hqq⟩ := Dir.header_eq_some_iff.mp hhead
  obtain ⟨hname, hpath, -⟩ := PIoc.eq_of_header (q := ⟨name, path, 0, SockAddr.zero, []⟩) hqq
  exact ⟨q, hq, hpath, by rw [PIoc.heartbeatName, hname]⟩

/-- What reading a list enters: its PVs and the heartbeat, under the new IOC. -/
theorem loaded_owner_cases {name path n : Name} {fs : FileSystem} {i : IocId} (hwf : d.WF)
    (hfree : d.iocResTbl name = none)
    (hinst : Dir.Installed (d.installIocName name path).1 (name ++ heartbeat) d.nextPIoc d₁ r)
    (hadd : d₁.addAllPvs fs d.nextPIoc = .ok (d₂, count)) (ho : d₂.owner n = some i) :
    (i = d.nextPIoc ∧ (n = name ++ heartbeat ∨ n ∈ signals fs path)) ∨ d.owner n = some i := by
  have hwf₁ := (hwf.installIocName name path).installed hinst
  obtain ⟨q, hq, hqpath, -⟩ := loaded_pIoc hfree hinst
  have hfirst : d₁.owner n = some i →
      (i = d.nextPIoc ∧ (n = name ++ heartbeat ∨ n ∈ signals fs path)) ∨ d.owner n = some i := by
    intro ho₁
    by_cases hn : n = name ++ heartbeat
    · subst hn
      rcases hinst.owner_self (hwf.installIocName name path) with hself | rfl
      · rw [ho₁] at hself
        exact Or.inl ⟨Option.some.inj hself, Or.inl rfl⟩
      · rw [Dir.owner_installIocName] at ho₁
        exact Or.inr ho₁
    · rw [installed_heartbeat_owner hwf hinst hn] at ho₁
      exact Or.inr ho₁
  by_cases hmem : n ∈ signals fs path
  · rcases Dir.addAllPvs_owner hwf₁ hadd n with hself | hsame
    · rw [ho] at hself
      exact Or.inl ⟨Option.some.inj hself, Or.inr hmem⟩
    · exact hfirst (hsame ▸ ho)
  · rw [Dir.addAllPvs_owner_of_not_mem hwf₁ hadd hq (hqpath ▸ hmem)] at ho
    exact hfirst ho

/-- The new IOC with its heartbeat and its list. -/
theorem Owned.loaded (h : Owned cfg d) (hwf : d.WF) (hpath : path ∈ cfg.paths)
    (hfree : d.iocResTbl (cfg.iocName path) = none)
    (hinst : Dir.Installed (d.installIocName (cfg.iocName path) path).1
      (cfg.iocName path ++ heartbeat) d.nextPIoc d₁ r)
    (hadd : d₁.addAllPvs cfg.fs d.nextPIoc = .ok (d₂, count)) : Owned cfg d₂ := by
  have hhead := Dir.loaded_header hfree hinst hadd
  refine ⟨fun i p hp => ?_, fun n i ho => ?_⟩
  · rw [hhead] at hp
    split_ifs at hp
    · cases hp
      exact ⟨hpath, rfl⟩
    · exact h.named i p hp
  · rcases loaded_owner_cases hwf hfree hinst hadd ho with ⟨rfl, hn⟩ | hold
    · exact Or.inl ⟨⟨cfg.iocName path, path, 0, SockAddr.zero, []⟩, by rw [hhead, if_pos rfl], hn⟩
    · rw [hhead, if_neg (hwf.owner_lt_nextPIoc hold).ne]
      exact h.owned n i hold

/-- The IOC of a rejected list is taken out again. -/
theorem Owned.rejected (h : Owned cfg d₂) (hwf : d₂.WF) (hlisted : d₂.AllListed) {i : IocId}
    {p : PIoc} (hp : d₂.pIocs i = some p) (hrem : Dir.Removed d₂ i p d₃) (name : Name) :
    Owned cfg (d₃.drop i name) := by
  refine ⟨fun j q hq => ?_, fun n j ho => ?_⟩
  · rw [Dir.header_drop, hrem.header hp] at hq
    split_ifs at hq
    exact h.named j q hq
  · change d₃.owner n = some j at ho
    have ho₂ : d₂.owner n = some j := by
      rcases hrem.owner_mono (n := n) with hsame | hgone
      · rw [← hsame, ho]
      · rw [hgone] at ho
        cases ho
    rw [Dir.header_drop, hrem.header hp]
    split_ifs with hji
    · -- of its own PVs only the heartbeat is left
      subst hji
      by_cases hname : n = p.heartbeatName
      · have hnamed := h.named j p.header (Dir.header_of_pIocs hp)
        refine Or.inr ⟨rfl, p.pathToList, hnamed.1, hname.trans ?_⟩
        exact congrArg (· ++ heartbeat) hnamed.2
      · have hnone := (hlisted n j p ho₂ hp).absent hwf hp hrem hname
        rw [Dir.owner, hnone] at ho
        cases ho
    · exact h.owned n j ho₂

theorem Owned.entry (h : Owned cfg d) (hwf : d.WF) (hlisted : d.AllListed)
    (hpath : path ∈ cfg.paths) (hentry : d.Entry cfg.fs (cfg.iocName path) path d₁) :
    Owned cfg d₁ := by
  cases hentry with
  | skipped => exact h
  | loaded hfree hinst hadd _ => exact h.loaded hwf hpath hfree hinst hadd
  | rejected hfree hinst hadd hp hrem _ =>
      have hwf₁ := hwf.installIocName (cfg.iocName path) path
      have hlisted₁ := (hlisted.installIocName hwf _ _).installed hwf₁ hinst
      exact (h.loaded hwf hpath hfree hinst hadd).rejected
        ((hwf₁.installed hinst).addAllPvs hadd) (hlisted₁.addAllPvs (hwf₁.installed hinst) hadd)
        hp hrem _

theorem startup_owned {rx : Regex} {s : Server} (h : startup rx cfg = .ok s) :
    Owned cfg s.dir := by
  have hall := (startup_dir_induct (D := fun d => d.AllListed ∧ Owned cfg d) h
    ⟨fun _ _ _ ho => (by cases ho), ⟨fun _ _ h => (by cases h), fun _ _ ho => (by cases ho)⟩⟩
    fun path hpath d d' hwf hd hentry =>
      ⟨hd.1.entry hwf hentry, hd.2.entry hwf hd.1 hpath hentry⟩).2
  exact hall.2

end Startup

/-! ## IOCs that are gone -/

/-- The address has been given to an IOC that is gone. -/
def Dir.Lost (d : Dir) (i : IocId) : Prop := d.header i = none ∧ i < d.nextPIoc

section Lost

variable {rx : Regex} {s s' : Server} {e : Event}

theorem Dir.Reloaded.nextPIoc {d d' : Dir} {i : IocId} {cn : Connection}
    (h : d.Reloaded i cn d') : d'.nextPIoc = d.nextPIoc := by
  cases h with
  | first => rfl
  | still => rfl
  | again hp hst hrem hadd hq =>
      show Dir.nextPIoc _ = d.nextPIoc
      exact (Dir.addAllPvs_nextPIoc hadd).trans hrem.nextPIoc

theorem Dir.Learned.nextPIoc_le {d d' : Dir} {cn : Connection} {n : Name} {i : IocId} {p : PIoc}
    (h : d.Learned cn n i p d') : d.nextPIoc ≤ d'.nextPIoc := by
  cases h with
  | mk hi hp hinst hq =>
      refine le_of_le_of_eq ?_ hinst.nextPIoc.symm
      show d.nextPIoc ≤ (d.findOrInstallIoc cn.iocname).1.nextPIoc
      unfold Dir.findOrInstallIoc Dir.installIocName
      split
      · exact le_rfl
      · split
        · exact le_rfl
        · exact Nat.le_succ _

/-- Addresses are not given out again. -/
theorem Handled.lost (h : Handled rx s e s') (hwf : s.dir.WF) {i : IocId} (hi : s.dir.Lost i) :
    s'.dir.Lost i := by
  obtain ⟨hnone, hlt⟩ := hi
  cases h with
  | @heartbeatUp c cn ch j d' _ _ _ _ hd =>
      obtain ⟨p, hp⟩ := hd.pIocs
      refine ⟨?_, lt_of_lt_of_eq hlt hd.nextPIoc.symm⟩
      show d'.header i = none
      rw [hd.header hp]
      split_ifs with hij
      · rw [hij, Dir.header_of_pIocs hp] at hnone
        cases hnone
      · exact hnone
  | @heartbeatDown c now ch j p _ _ _ _ hp =>
      refine ⟨?_, hlt⟩
      show (s.dir.setPIoc j _).header i = none
      rw [Dir.header_setPIoc]
      split_ifs with hij
      · rw [hij, Dir.header_of_pIocs hp] at hnone
        cases hnone
      · exact hnone
  | @learnedUp c cn ch ch' j p d' _ _ _ _ hd =>
      refine ⟨?_, lt_of_lt_of_le hlt hd.nextPIoc_le⟩
      show d'.header i = none
      rw [hd.header hwf]
      split_ifs with hij
      · rcases hd.site_cases hwf with ⟨-, hp, -⟩ | ⟨-, -, hj, -⟩
        · rw [hij, Dir.header_of_pIocs hp] at hnone
          cases hnone
        · rw [hij, hj] at hlt
          exact absurd hlt (lt_irrefl _)
      · exact hnone
  | learnedDown => exact ⟨hnone, hlt⟩
  | learnedDownFree => exact ⟨hnone, hlt⟩
  | request ha => cases ha <;> exact ⟨hnone, hlt⟩
  | purge _ hframe =>
      rw [hframe.dir]
      exact ⟨hnone, hlt⟩
  | report => exact ⟨hnone, hlt⟩

end Lost

/-! ## Runs -/

/-- What is on record at startup: the heartbeats and the lists. -/
def Config.records (cfg : Config) (s : Server) (i : IocId) : List Name :=
  (s.dir.header i).elim [] fun p => p.heartbeatName :: signals cfg.fs p.pathToList

/-- What an event adds to the record. -/
def Server.record (s : Server) (e : Event) (g : IocId → List Name) : IocId → List Name :=
  (s.op e).elim g (s.dir.view.record g)

/-- The name server, with a record of the lists it has read and of the PVs it has found. -/
def recordingServer (rx : Regex) (cfg : Config) : System (Server × (IocId → List Name)) Event :=
  (nameServer rx (· = cfg)).remember cfg.records Server.record

/-- An IOC owns only what is on record for it. -/
theorem reachable_recorded {rx : Regex} {cfg : Config} {s : Server} {g : IocId → List Name}
    (h : Reachable (recordingServer rx cfg) (fun x e => noNamesake x.1 e = true) (s, g)) :
    s.dir.view.Recorded g s.dir.Lost := by
  refine Reachable.remembered (fun s e => noNamesake s e = true)
    (I := fun s g => s.dir.view.Recorded g s.dir.Lost) (J := Shown) h
    (fun s hs => reachable_shown hs fun _ _ hok => hok) ?_ ?_
  · rintro s ⟨cfg', rfl, hs, -⟩ hshown n i ho
    rcases (startup_owned hs).owned n i ho with ⟨p, hp, hn⟩ | ⟨hnone, -⟩
    · left
      rw [Config.records, hp, Option.elim_some, List.mem_cons]
      exact hn
    · exact Or.inr ⟨hnone, hshown.wf.owner_lt_nextPIoc ho⟩
  · rintro s e t g hs hI - ⟨hen, ht⟩
    have hh := handle_handled hs.wf hen ht
    have hview := hh.view hs.wf hs.tied hs.listed
    rw [Server.viewAfter] at hview
    have hnew : t.dir.view.Recorded (s.record e g) s.dir.Lost := by
      rw [hview, Server.record]
      cases s.op e with
      | none => exact hI
      | some op => exact hI.apply op
    exact fun n i ho => (hnew n i ho).imp_right fun hi => hh.lost hs.wf hi

/-- **Every answer is on record.**  In every run in which no learned server goes by the name of a
loaded IOC, a client is sent to an IOC only for its heartbeat, for a PV of the list that was read
last for it, or for a PV that has been found there since and whose channel has not been lost. -/
theorem answers_on_record (rx : Regex) (cfg : Config) {s s' : Server} {g : IocId → List Name}
    (h : Reachable (recordingServer rx cfg) (fun x e => noNamesake x.1 e = true) (s, g))
    {client pPVName : Name} {search : CaStatus} {now : ℕ} {a : SockAddr}
    (hret : s.pvExistTest rx client pPVName search now = .ok (s', .existsAt a)) :
    ∃ i p, s.dir.pIocs i = some p ∧ p.status = 1 ∧ p.addr = a ∧
      Server.recordName pPVName ∈ g i := by
  have hrec := reachable_recorded h
  cases Server.pvExistTest_answered hret with
  | @hit i p _ _ ho hp hst =>
      refine ⟨i, p, hp, hst, rfl, ?_⟩
      rcases hrec _ _ ho with hmem | ⟨hnone, -⟩
      · exact hmem
      · rw [Dir.header_of_pIocs hp] at hnone
        cases hnone

set_option maxRecDepth 10000 in
/-- After the reboot with another list, the new PV is on record. -/
theorem answers_on_record_anotherList : ∃ s g i p,
    Reachable (recordingServer literal oneIoc) (fun x e => noNamesake x.1 e = true) (s, g) ∧
      s.dir.pIocs i = some p ∧ p.status = 1 ∧ p.addr = ⟨afInet, 3, InAddr.zero⟩ ∧
      Server.recordName "y.VAL".toList ∈ g i := by
  have hrun : (run literal noNamesake oneIoc anotherList).any (fun s =>
      answers literal s "y.VAL".toList (.existsAt ⟨afInet, 3, InAddr.zero⟩)) = true := by decide
  obtain ⟨s, hs, hans⟩ := (Option.any_eq_true _ _).mp hrun
  have hreach : Reachable (nameServer literal (· = oneIoc)) (fun s e => noNamesake s e = true) s :=
    reachable_of_run (fun _ _ _ hok => hok) rfl hs
  obtain ⟨g, hg⟩ : ∃ g, Reachable (recordingServer literal oneIoc) _ (s, g) := hreach.remember
  obtain ⟨s', hret⟩ := exists_of_answers hans
  obtain ⟨i, p, hp, hst, ha, hmem⟩ := answers_on_record literal oneIoc hg hret
  exact ⟨s, g, i, p, hg, hp, hst, ha, hmem⟩

end CaNameserver
