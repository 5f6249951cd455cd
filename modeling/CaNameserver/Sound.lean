import CaNameserver.Coupling
import CaNameserver.PurgePass
import CaNameserver.Refinement
import CaNameserver.Reload

/-!
# States in which the handlers are defined

A handler follows the pointers it finds in the tables and copies the names it finds to its
buffers.  `Sound` collects what keeps it from going wrong there.

* The tables, the pending list and the channels are tied and coupled (`Shown`, `Coupled`), so that
  a callback finds the channel's IOC and its node.
* The entries on the lists are live, so that a removal can read their names.
* The IOC of every PV is there (`Hosted`), so that a request and an insertion can look at its
  status.
* A learned IOC is up, so that a PV is never taken from it.
* The names of IOCs, their paths, the names of their PVs and those of the learned channels fit the
  buffers they are copied to (`PIoc.Brief`, `BriefPVs`).

Each of these is kept by the events for a reason of its own, and there is a lemma for each that
takes what one event does (`Handled`) and the part of `Tame` that is needed.  Names enter from
outside in three ways only: by a list, by a request, and as the name of a server.

* `Tame`: the events that keep a state sound.
* `Sound.handled`: they do.
* `Sound.agrees`: in a sound state the PV table and the lists agree, so that all that is known of
  such directories may be used.
-/

namespace CaNameserver

open CStr Fallible Transition

/-- The words of a signal list, if it can be opened, fit the buffers of PV names. -/
def BriefList (fs : FileSystem) (path : Name) : Prop :=
  ∀ pf, fopen fs path = some pf → ∀ token ∈ words pf, token.length < pvNameSz - 1

theorem BriefList.length_lt {fs : FileSystem} {path n : Name} (h : BriefList fs path)
    (hn : n ∈ signals fs path) : n.length < pvNameSz - 1 := by
  unfold signals at hn
  cases hopen : fopen fs path with
  | none =>
      rw [hopen] at hn
      cases hn
  | some pf =>
      simp only [hopen] at hn
      obtain ⟨token, htoken, rfl⟩ := List.mem_map.mp hn
      exact lt_of_le_of_lt (List.takeWhile_sublist _).length_le (h pf hopen token htoken)

/-! ## The directory -/

/-- The names of an IOC fit the buffers they are copied to. -/
structure PIoc.Brief (p : PIoc) : Prop where
  heartbeat : p.heartbeatName.length < pvNameSz - 1
  path : p.pathToList.length < pathNameSz - 1

theorem PIoc.Brief.of_header {p q : PIoc} (h : p.Brief) (hname : q.iocname = p.iocname)
    (hpath : q.pathToList = p.pathToList) : q.Brief where
  heartbeat := by
    rw [PIoc.heartbeatName, hname]
    exact h.heartbeat
  path := hpath ▸ h.path

namespace Dir

/-- The names of PVs fit the buffers they are copied to. -/
def BriefPVs (d : Dir) : Prop :=
  ∀ e pv, d.pvEs e = some pv → pv.resourceName.length < pvNameSz - 1

/-- The IOC of every PV is there. -/
def Hosted (d : Dir) : Prop := ∀ n i, d.owner n = some i → d.header i ≠ none

variable {d d' : Dir} {n : Name} {i : IocId} {p q : PIoc} {r : ℤ}

theorem BriefPVs.installed (h : d.BriefPVs) (hi : Installed d n i d' r)
    (hn : n.length < pvNameSz - 1) : d'.BriefPVs := by
  have henter : ∀ {d₁ : Dir} {p : PIoc}, d₁.BriefPVs → (d₁.enter n i p).BriefPVs := by
    intro d₁ p h₁ e pv he
    rw [enter_pvEs] at he
    split_ifs at he
    · cases he
      exact hn
    · exact h₁ e pv he
  cases hi with
  | entered => exact henter h
  | ownHeartbeat => exact h
  | moved =>
      refine henter fun e pv he => ?_
      rw [takePV_pvEs] at he
      split_ifs at he
      exact h e pv he
  | refused => exact h

theorem BriefPVs.addAllPvs (h : d.BriefPVs) {fs : FileSystem} (ha : d.addAllPvs fs i = .ok (d', r))
    (hp : d.pIocs i = some p) (hlist : BriefList fs p.pathToList) : d'.BriefPVs := by
  refine addAllPvs_induct ha h fun p' hp' n hn d₁ d₂ r h₁ hi => h₁.installed hi ?_
  rw [hp] at hp'
  cases hp'
  exact hlist.length_lt hn

theorem BriefPVs.removed (h : d.BriefPVs) (hr : Removed d i p d') : d'.BriefPVs := by
  intro e pv he
  rw [hr.pvEs] at he
  split_ifs at he
  exact h e pv he

theorem BriefPVs.reloaded (h : d.BriefPVs) {cn : Connection} (hr : Reloaded d i cn d')
    (hlist : ∀ p, d.pIocs i = some p → p.status = 2 → BriefList cn.fs p.pathToList) :
    d'.BriefPVs := by
  cases hr with
  | first => exact h
  | still => exact h
  | @again p q d₁ d₂ r hp hst hrem hadd hq =>
      have h₁ : d₁.BriefPVs := BriefPVs.removed (d := d.setPIoc i _) h hrem
      have h₂ : d₂.BriefPVs := h₁.addAllPvs hadd hrem.pIocs_self (hlist p hp hst)
      exact h₂

theorem BriefPVs.learned (h : d.BriefPVs) {cn : Connection} (hl : Learned d cn n i p d')
    (hn : n.length < pvNameSz - 1) : d'.BriefPVs := by
  cases hl with
  | @mk d₂ q r hi hp hinst hq =>
      have hpvEs : (d.findOrInstallIoc cn.iocname).1.pvEs = d.pvEs := by
        unfold Dir.findOrInstallIoc Dir.installIocName
        split
        · rfl
        · split <;> rfl
      have h₁ : ((d.findOrInstallIoc cn.iocname).1.setPIoc i (p.met cn)).BriefPVs := by
        intro e pv he
        rw [setPIoc_pvEs, hpvEs] at he
        exact h e pv he
      have h₂ : d₂.BriefPVs := h₁.installed hinst hn
      exact h₂

theorem BriefPVs.forget (h : d.BriefPVs) (n : Name) (e : PvEId) :
    ((d.tblRemove n).deletePvE e).BriefPVs := by
  intro x pv hx
  by_cases hxe : x = e
  · simp [deletePvE, hxe] at hx
  · exact h x pv (by simpa [deletePvE, tblRemove, hxe] using hx)

end Dir

/-! ## The invariant -/

/-- The state has nothing in it that a handler could go wrong on. -/
structure Sound (s : Server) : Prop where
  shown : Shown s
  coupled : Coupled s
  live : s.dir.Live
  hosted : s.dir.Hosted
  learned : ∀ i p, s.dir.header i = some p → p.pathToList = [] → p.status = 1
  iocs : ∀ i p, s.dir.header i = some p → p.Brief
  pvs : s.dir.BriefPVs
  channels : ∀ c ch, s.ca.chans c = some ch → ch.IsLearned → ch.name.length < pvNameSz - 1

/-- What an event brings from outside fits the buffers. -/
def fits (s : Server) : Event → Prop
  | .up c cn => ∀ ch, s.ca.chans c = some ch →
      (ch.IsHeartbeat → ∀ i p, ch.puser = some i → s.dir.pIocs i = some p → p.status = 2 →
        BriefList cn.fs p.pathToList) ∧
      (ch.IsLearned → (cn.iocname ++ heartbeat).length < pvNameSz - 1)
  | .request _ pPVName _ _ => pPVName.length < pvNameSz - 1
  | .report neverLog => neverLog = true
  | _ => True

/-- The purge gets enough turns from a library that always succeeds and a clock that never runs
backwards. -/
def purgeEnds (s : Server) : Event → Prop
  | .purge now _ answers => ∃ env k, answers = Server.first env k ∧ Server.Clock now env ∧
      (∀ n, (env n).Renews) ∧ 2 * s.nameList.length ≤ k
  | _ => True

/-- The conditions of the coupling and of the integrity, and those on what comes from outside. -/
structure Tame (s : Server) (e : Event) : Prop where
  uncrossed : uncrossed s e
  unlistedAtDown : unlistedAtDown s e
  fits : fits s e
  purgeEnds : purgeEnds s e

section Events

variable {rx : Regex} {s s' : Server} {e : Event}

/-- A learned server that goes by no loaded IOC's name is no namesake. -/
theorem noNamesake_of_uncrossed (hwf : s.dir.WF) (h : uncrossed s e) : noNamesake s e = true := by
  cases e with
  | up c cn =>
      rw [noNamesake, Option.all_eq_true]
      intro ch hch
      by_cases hcb : ch.callback = .WDprocessChangeConnectionEvent
      · rw [decide_eq_true hcb, Bool.true_or]
      rw [decide_eq_false hcb, Bool.false_or, Option.all_eq_true]
      intro p hp
      obtain ⟨i, hi, hp⟩ := Option.bind_eq_some_iff.mp hp
      obtain ⟨q, hq, hname⟩ := (hwf.iocTable _ i).mp hi
      rw [hp] at hq
      cases hq
      rw [List.isEmpty_iff]
      by_contra hpath
      exact (h ch hch i p hp hpath).2 (Channel.isLearned_of_not hcb) hname
  | down => rfl
  | request => rfl
  | purge => rfl
  | report => rfl

/-- The IOC of every PV stays there. -/
theorem Handled.hosted (h : Handled rx s e s') (hwf : s.dir.WF) (hh : s.dir.Hosted) :
    s'.dir.Hosted := by
  cases h with
  | @heartbeatUp c cn ch i d' _ _ _ _ hd =>
      obtain ⟨p, hp⟩ := hd.pIocs
      intro n j ho
      show d'.header j ≠ none
      rw [hd.header hp]
      split_ifs with hj
      · exact Option.some_ne_none _
      · exact hh n j ((hd.owner_cases hwf ho).resolve_left hj)
  | heartbeatDown =>
      intro n j ho
      show (Dir.setPIoc _ _ _).header j ≠ none
      rw [Dir.header_setPIoc]
      split_ifs
      · exact Option.some_ne_none _
      · exact hh n j ho
  | @learnedUp c cn ch ch' i p d' _ _ _ _ hd =>
      intro n j ho
      show d'.header j ≠ none
      rw [hd.header hwf]
      split_ifs with hj
      · exact Option.some_ne_none _
      by_cases hn : n = cutAt '.' ch.name
      · subst hn
        rcases hd.owner_self hwf with hself | hsame
        · exact absurd (Option.some.inj (ho.symm.trans hself)) hj
        · exact hh _ j (hsame.symm.trans ho)
      · exact hh n j ((hd.owner_of_ne hwf hn).symm.trans ho)
  | learnedDown _ _ _ he =>
      intro n j ho
      change Dir.owner _ n = some j at ho
      rw [hwf.owner_forget he] at ho
      split_ifs at ho
      exact hh n j ho
  | learnedDownFree => exact hh
  | request ha => cases ha <;> exact hh
  | purge _ hframe => exact hframe.dir.symm ▸ hh
  | report => exact hh

/-- What holds of every IOC's name and path, and of those of a learned IOC, stays so. -/
theorem Handled.brief (h : Handled rx s e s') (hwf : s.dir.WF) (hf : fits s e)
    (hb : ∀ i p, s.dir.header i = some p → p.Brief) : ∀ i p, s'.dir.header i = some p → p.Brief := by
  intro j q hq
  cases h with
  | @heartbeatUp c cn ch i d' _ _ _ _ hd =>
      obtain ⟨p, hp⟩ := hd.pIocs
      change d'.header j = some q at hq
      rw [hd.header hp] at hq
      split_ifs at hq
      · cases hq
        exact (hb i _ (Dir.header_of_pIocs hp)).of_header rfl rfl
      · exact hb j q hq
  | @heartbeatDown c now ch i p _ _ _ _ hp =>
      change (Dir.setPIoc _ _ _).header j = some q at hq
      rw [Dir.header_setPIoc] at hq
      split_ifs at hq
      · cases hq
        exact (hb i _ (Dir.header_of_pIocs hp)).of_header rfl rfl
      · exact hb j q hq
  | @learnedUp c cn ch ch' i p d' hch _ hcb _ hd =>
      change d'.header j = some q at hq
      rw [hd.header hwf] at hq
      split_ifs at hq
      · cases hq
        have hp : p.Brief := by
          rcases hd.site_cases hwf with ⟨-, hp, -⟩ | ⟨-, -, -, rfl⟩
          · exact (hb i _ (Dir.header_of_pIocs hp)).of_header rfl rfl
          · exact ⟨(hf ch hch).2 hcb, show 0 < pathNameSz - 1 by decide⟩
        exact hp.of_header (by simp [PIoc.header]) (by simp [PIoc.header])
      · exact hb j q hq
  | learnedDown => exact hb j q hq
  | learnedDownFree => exact hb j q hq
  | request ha => cases ha <;> exact hb j q hq
  | purge _ hframe => exact hb j q (hframe.dir ▸ hq)
  | report => exact hb j q hq

/-- A learned IOC stays up. -/
theorem Handled.learned_up (h : Handled rx s e s') (hs : Shown s)
    (hl : ∀ i p, s.dir.header i = some p → p.pathToList = [] → p.status = 1) :
    ∀ i p, s'.dir.header i = some p → p.pathToList = [] → p.status = 1 := by
  intro j q hq hnil
  cases h with
  | @heartbeatUp c cn ch i d' hch _ hcb hpuser hd =>
      obtain ⟨p, hp⟩ := hd.pIocs
      change d'.header j = some q at hq
      rw [hd.header hp] at hq
      split_ifs at hq
      · cases hq
        exact absurd hnil (hs.tied.puser_path hch hcb hpuser hp).1
      · exact hl j q hq hnil
  | @heartbeatDown c now ch i p hch _ hcb hpuser hp =>
      change (Dir.setPIoc _ _ _).header j = some q at hq
      rw [Dir.header_setPIoc] at hq
      split_ifs at hq
      · cases hq
        exact absurd hnil (hs.tied.puser_path hch hcb hpuser hp).1
      · exact hl j q hq hnil
  | @learnedUp c cn ch ch' i p d' _ _ _ _ hd =>
      change d'.header j = some q at hq
      rw [hd.header hs.wf] at hq
      split_ifs at hq
      · cases hq
        rfl
      · exact hl j q hq hnil
  | learnedDown => exact hl j q hq hnil
  | learnedDownFree => exact hl j q hq hnil
  | request ha => cases ha <;> exact hl j q hq hnil
  | purge _ hframe => exact hl j q (hframe.dir ▸ hq) hnil
  | report => exact hl j q hq hnil

/-- The PVs of the directory and the names of the learned channels go on fitting. -/
theorem Handled.briefPVs (h : Handled rx s e s') (hf : fits s e) (hpvs : s.dir.BriefPVs)
    (hchans : ∀ c ch, s.ca.chans c = some ch → ch.IsLearned → ch.name.length < pvNameSz - 1) :
    s'.dir.BriefPVs := by
  cases h with
  | heartbeatUp hch _ hcb hpuser hd =>
      exact hpvs.reloaded hd fun p hp hst => (hf _ hch).1 hcb _ p hpuser hp hst
  | heartbeatDown => exact hpvs
  | @learnedUp c cn ch _ _ _ _ hch _ hcb _ hd =>
      refine hpvs.learned hd (lt_of_le_of_lt ?_ (hchans c ch hch hcb))
      exact (List.takeWhile_sublist _).length_le
  | learnedDown => exact hpvs.forget _ _
  | learnedDownFree => exact hpvs
  | request ha => cases ha <;> exact hpvs
  | purge _ hframe => exact hframe.dir.symm ▸ hpvs
  | report => exact hpvs

theorem Handled.briefChannels (h : Handled rx s e s') (hf : fits s e)
    (hchans : ∀ c ch, s.ca.chans c = some ch → ch.IsLearned → ch.name.length < pvNameSz - 1) :
    ∀ c ch, s'.ca.chans c = some ch → ch.IsLearned → ch.name.length < pvNameSz - 1 := by
  intro x chx hx hl
  cases h with
  | @heartbeatUp c cn ch i d' hch _ hcb _ _ =>
      change (Ca.setChan _ _ _).chans x = some chx at hx
      rw [Ca.setChan_chans] at hx
      split_ifs at hx
      · cases hx
        exact absurd hcb (Channel.not_isHeartbeat hl)
      · exact hchans x chx hx hl
  | @heartbeatDown c now ch i p hch _ hcb _ _ =>
      change (Ca.setChan _ _ _).chans x = some chx at hx
      rw [Ca.setChan_chans] at hx
      split_ifs at hx
      · cases hx
        exact absurd hcb (Channel.not_isHeartbeat hl)
      · exact hchans x chx hx hl
  | @learnedUp c cn ch ch' i p d' hch _ hcb hch' _ =>
      change (Ca.setChan _ _ _).chans x = some chx at hx
      rw [Ca.setChan_chans] at hx
      split_ifs at hx
      · cases hx
        rw [hch'.1]
        exact hchans c ch hch hcb
      · exact hchans x chx hx hl
  | learnedDown =>
      change (Ca.clear _ _).chans x = some chx at hx
      rw [Ca.clear_chans] at hx
      split_ifs at hx
      exact hchans x chx hx hl
  | learnedDownFree =>
      change (Ca.clear _ _).chans x = some chx at hx
      rw [Ca.clear_chans] at hx
      split_ifs at hx
      exact hchans x chx hx hl
  | request ha =>
      cases ha with
      | searched =>
          change (Ca.search _ _ _).chans x = some chx at hx
          rw [Ca.search_chans] at hx
          split_ifs at hx
          · cases hx
            exact lt_of_le_of_lt (List.takeWhile_sublist _).length_le hf
          · exact hchans x chx hx hl
      | _ => exact hchans x chx hx hl
  | purge hp _ =>
      have hold : ∀ c ch, s'.ca.chans c = some ch → ch.IsLearned → s.ca.chans c = some ch := by
        refine Server.processPendingList_induct (P := fun _ ca => ∀ c ch, ca.chans c = some ch →
          ch.IsLearned → s.ca.chans c = some ch) hp (fun _ _ h _ => h) ?_
        exact fun a _ ca l l' ca' hP hstep c ch h hl => hP c ch (hstep.learned_old h hl) hl
      exact hchans x chx (hold x chx hx hl) hl
  | report => exact hchans x chx hx hl

/-- **Tame events keep a state sound.** -/
theorem Sound.handled (h : Sound s) (hh : Handled rx s e s') (htame : Tame s e) : Sound s' where
  shown := h.shown.handled hh (noNamesake_of_uncrossed h.shown.wf htame.uncrossed)
  coupled := h.coupled.handled h.shown.wf h.shown.tied htame.uncrossed hh
  live := h.live.handled h.shown.wf htame.unlistedAtDown hh
  hosted := hh.hosted h.shown.wf h.hosted
  learned := hh.learned_up h.shown h.learned
  iocs := hh.brief h.shown.wf htame.fits h.iocs
  pvs := hh.briefPVs htame.fits h.pvs h.channels
  channels := hh.briefChannels htame.fits h.channels

/-! ## What a sound state has -/

/-- The PV table and the lists agree. -/
theorem Sound.agrees (h : Sound s) : s.dir.Agrees where
  wf := h.shown.wf
  lists := by
    intro i p hp hpath e
    constructor
    · intro he
      obtain ⟨pv, hpv⟩ := Option.ne_none_iff_exists'.mp (h.live i p e hp he)
      obtain ⟨howner, htab⟩ := h.shown.wf.listed i p e pv hp he hpv
      exact ⟨pv.resourceName, htab, (Dir.owner_of_entry htab hpv).trans howner⟩
    · rintro ⟨n, hn, ho⟩
      obtain ⟨e', p', he', hp', hmem⟩ := h.shown.listed n i p ho hp hpath
      rw [hn] at he'
      cases he'
      rw [hp] at hp'
      cases hp'
      exact hmem
  owned := fun n i ho hnone => h.hosted n i ho (Dir.header_eq_none_iff.mpr hnone)
  learned := fun i p hp hnil => h.learned i p.header (Dir.header_of_pIocs hp) hnil

/-- What is read of an IOC fits. -/
theorem Sound.fits_pIoc (h : Sound s) {i : IocId} {p : PIoc} (hp : s.dir.pIocs i = some p) :
    s.dir.Fits p where
  heartbeat := lt_of_lt_of_le (h.iocs i _ (Dir.header_of_pIocs hp)).heartbeat (Nat.sub_le _ 1)
  path := (h.iocs i _ (Dir.header_of_pIocs hp)).path
  names := fun e _ pv hpv => h.pvs e pv hpv

/-- The pending nodes have open channels of their own. -/
theorem Sound.own (h : Sound s) : Server.Own s.nameList s.ca where
  opened := by
    intro nn hnn
    obtain ⟨ch, hch, -⟩ := h.coupled.pending.waiting nn hnn
    exact ⟨ch, hch⟩
  nodup := by
    have hnd : s.nameList.Nodup := h.coupled.pending.names.of_map _
    exact List.Nodup.map_on
      (fun nn hnn nn' hnn' hchd => h.coupled.pending.chd_inj h.shown.tied hnn hnn' hchd) hnd
  fresh := h.shown.tied.fresh

end Events

end CaNameserver
