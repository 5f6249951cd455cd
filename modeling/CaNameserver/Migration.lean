import CaNameserver.Channels
import CaNameserver.Listed
import Mathlib.Data.List.Nodup

/-!
# A PV that moves from one IOC to another

A PV is taken out of the file of the IOC `a`, which is then rebooted, and into the file of the IOC
`b`, which is rebooted too.  The server learns of it from its heartbeats only, in whatever order the
two come back and however often; from the reboot of `b` on that reads the new file, the PV is `b`'s.

## Where the PV can be

No PV is learned under the name, and no file but those of `a` and `b` names it.  So the table's
entry is on the list of `a`, or on that of `b`, or there is none (`Dir.Held`).  What an event does
about this depends on the file that it reads (`Server.reload`), and there are four lemmas for it.

* `Handled.taken`: a file that names the PV brings it on the list of its IOC, if it was there
  already, or free, or with an IOC that is down.
* `Handled.dropped`: a file that does not name it takes it off the list of its IOC.
* `Handled.listed`: it stays on the list of an IOC whose file is not read, unless that IOC is down
  and the file of another names the PV.
* `Handled.absent`: it does not come back as long as no file names it.

## The three parts of the run

Until `a` disconnects nothing is known about the two files: `b` may have taken the PV once already,
and may have lost it again, and so may `a`.  Only `Held` is kept (`Moving.before_step`).  From then
on the file of `a` does not name the PV, so either the PV is still on the list of `a` and `a` is
down, or it is not there (`Leaving`); the reboot of `a` ends the first case, and nothing begins it
again.  The file of `b` may be anything still.  When `b` comes back and its file names the PV, it
finds it on its own list, or free, or with `a`, which is down: so it gets it (`Moving.reboot_step`).
After that the file of `b` names the PV and no other does, and it stays (`Moving.after_step`).

The one way in which this fails is not in the files.  A learned server is kept in the table of IOCs
under its `host:port` string, and if that is the name of `a` or of `b`, finding a PV there marks
that IOC up and takes an entry off its list.  `notNamed` excludes it, for these two IOCs; without it
`pv_migration_namesake` is a migration after which `a` still has the PV.
-/

namespace CaNameserver

open CStr Fallible Transition

/-! ## Conditions on the events -/

/-- The IOC that an event reloads, with the names of its file. -/
def Server.reload (s : Server) : Event → Option (IocId × List Name)
  | .up c cn => (s.ca.chans c).bind fun ch =>
      match ch.callback with
      | .WDprocessChangeConnectionEvent => ch.puser.bind fun i => (s.dir.pIocs i).bind fun p =>
          if p.status = 2 then some (i, signals cn.fs p.pathToList) else none
      | .processChangeConnectionEvent => none
  | _ => none

/-- The PV is not learned by the event. -/
def notLearned (x : Name) (s : Server) : Event → Bool
  | .up c _ => (s.ca.chans c).all fun ch =>
      decide (ch.callback = .WDprocessChangeConnectionEvent) || decide (ch.name ≠ x)
  | _ => true

/-- No learned server goes by the name of a loaded IOC. -/
def noNamesake (s : Server) : Event → Bool
  | .up c cn => (s.ca.chans c).all fun ch =>
      decide (ch.callback = .WDprocessChangeConnectionEvent) ||
        ((s.dir.iocResTbl cn.iocname).bind s.dir.pIocs).all fun p => p.pathToList.isEmpty
  | _ => true

/-- The IOC is down. -/
def Dir.isDown (d : Dir) (i : IocId) : Bool := (d.pIocs i).any fun p => decide (p.status = 2)

/-- The event is no connection to a learned server that goes by the name of the IOC. -/
def notNamed (i : IocId) (s : Server) : Event → Bool
  | .up c cn => (s.ca.chans c).all fun ch =>
      decide (ch.callback = .WDprocessChangeConnectionEvent) ||
        decide (s.dir.iocResTbl cn.iocname ≠ some i)
  | _ => true

/-- The PV is not learned, and no learned server goes by the name of `a` or of `b`. -/
def apart (x : Name) (a b : IocId) (s : Server) (e : Event) : Bool :=
  notLearned x s e && (notNamed a s e && notNamed b s e)

/-- A file that is read and names the PV is that of `a` or of `b`. -/
def before (x : Name) (a b : IocId) (s : Server) (e : Event) : Bool :=
  (s.reload e).all fun r => decide (r.1 = a) || decide (r.1 = b) || !r.2.contains x

/-- A file that is read and names the PV is that of `b`. -/
def between (x : Name) (b : IocId) (s : Server) (e : Event) : Bool :=
  (s.reload e).all fun r => decide (r.1 = b) || !r.2.contains x

/-- Files that are read name the PV if and only if they are those of `b`. -/
def after (x : Name) (b : IocId) (s : Server) (e : Event) : Bool :=
  (s.reload e).all fun r => r.2.contains x == decide (r.1 = b)

/-- The heartbeat of the IOC disconnects. -/
def Disconnects (s : Server) (e : Event) (i : IocId) : Prop :=
  ∃ c now ch, e = .down c now ∧ s.ca.chans c = some ch ∧ ch.IsHeartbeat ∧ ch.puser = some i

theorem Server.reload_up {s : Server} {c : Chid} {cn : Connection} {ch : Channel} {i : IocId}
    {p : PIoc} (hch : s.ca.chans c = some ch) (hhb : ch.IsHeartbeat) (hpuser : ch.puser = some i)
    (hp : s.dir.pIocs i = some p) : s.reload (.up c cn) =
      if p.status = 2 then some (i, signals cn.fs p.pathToList) else none := by
  rw [Server.reload, hch, Option.bind_some, show ch.callback = _ from hhb, hpuser]
  show (s.dir.pIocs i).bind _ = _
  rw [hp, Option.bind_some]

theorem Server.reload_eq_some {s : Server} {e : Event} {i : IocId} {l : List Name}
    (h : s.reload e = some (i, l)) : ∃ c cn ch p, e = .up c cn ∧ s.ca.chans c = some ch ∧
      ch.IsHeartbeat ∧ ch.puser = some i ∧ s.dir.pIocs i = some p ∧ p.status = 2 ∧
      l = signals cn.fs p.pathToList := by
  cases e with
  | up c cn =>
      rw [Server.reload, Option.bind_eq_some_iff] at h
      obtain ⟨ch, hch, h⟩ := h
      cases hcb : ch.callback with
      | processChangeConnectionEvent =>
          simp only [hcb] at h
          cases h
      | WDprocessChangeConnectionEvent =>
          simp only [hcb, Option.bind_eq_some_iff] at h
          obtain ⟨j, hj, p, hp, h⟩ := h
          split_ifs at h with hst
          cases h
          exact ⟨c, cn, ch, p, rfl, hch, hcb, hj, hp, hst, rfl⟩
  | down => cases h
  | request => cases h
  | purge => cases h
  | report => cases h

/-- A reload learns no PV. -/
theorem Server.notLearned_of_reload {s : Server} {e : Event} {i : IocId} {l : List Name} {x : Name}
    (h : s.reload e = some (i, l)) : notLearned x s e = true := by
  obtain ⟨c, cn, ch, p, rfl, hch, hhb, -⟩ := Server.reload_eq_some h
  rw [notLearned, hch, Option.all_some, Bool.or_eq_true]
  exact Or.inl (decide_eq_true hhb)

/-! ## Events -/

/-- No learned channel of the name is connected. -/
def Ca.Unlearned (ca : Ca) (x : Name) : Prop :=
  ∀ c ch, ca.chans c = some ch → ch.IsLearned → ch.server ≠ none → ch.name ≠ x

section Events

variable {rx : Regex} {s s' : Server} {e : Event} {x : Name} {i : IocId} {name path : Name}

theorem Handled.unlearned (h : Handled rx s e s') (hnl : notLearned x s e = true)
    (hunl : s.ca.Unlearned x) : s'.ca.Unlearned x := by
  have hset : ∀ c ch ch', s.ca.chans c = some ch → ch'.name = ch.name →
      ch'.callback = ch.callback → (ch'.IsLearned → ch'.server ≠ none → ch'.name ≠ x) →
      (s.ca.setChan c ch').Unlearned x := by
    intro c ch ch' _ _ _ hnew y chy hy hl hne
    rw [Ca.setChan_chans] at hy
    split_ifs at hy
    · cases hy
      exact hnew hl hne
    · exact hunl y chy hy hl hne
  cases h with
  | heartbeatUp hch _ hcb =>
      exact hset _ _ _ hch rfl rfl fun hl => absurd hcb (Channel.not_isHeartbeat hl)
  | heartbeatDown hch _ hcb =>
      exact hset _ _ _ hch rfl rfl fun hl => absurd hcb (Channel.not_isHeartbeat hl)
  | learnedUp hch _ hcb hch' =>
      refine hset _ _ _ hch hch'.1 hch'.2.1 fun _ _ => ?_
      rw [notLearned, hch, Option.all_some, hcb] at hnl
      rw [hch'.1]
      simpa using hnl
  | learnedDown =>
      intro y chy hy
      change (s.ca.clear _).chans y = some chy at hy
      rw [Ca.clear_chans] at hy
      split_ifs at hy
      exact hunl y chy hy
  | learnedDownFree =>
      intro y chy hy
      change (s.ca.clear _).chans y = some chy at hy
      rw [Ca.clear_chans] at hy
      split_ifs at hy
      exact hunl y chy hy
  | request ha =>
      cases ha with
      | searched =>
          intro y chy hy hl hne
          change (s.ca.search _ _).chans y = some chy at hy
          rw [Ca.search_chans] at hy
          split_ifs at hy
          · cases hy
            exact absurd rfl hne
          · exact hunl y chy hy hl hne
      | _ => exact hunl
  | purge hp => exact fun y chy hy hl hne => hunl y chy (Server.processPendingList_old hp hy hne) hl hne
  | report => exact hunl

theorem learned_ne (ht : Tied s.dir s.nameList s.ca) {c : Chid} {cn : Connection} {ch : Channel}
    (hnl : notLearned x s (.up c cn) = true) (hch : s.ca.chans c = some ch) (hl : ch.IsLearned) :
    cutAt '.' ch.name ≠ x := by
  have hcb : ¬ ch.callback = .WDprocessChangeConnectionEvent := Channel.not_isHeartbeat hl
  rw [cutAt_eq_self (ht.learned c ch hch hl)]
  rw [notLearned, hch, Option.all_some, decide_eq_false hcb, Bool.false_or] at hnl
  exact of_decide_eq_true hnl

/-- Where no server has the name of a loaded IOC, none has that of this one. -/
theorem notNamed_of_noNamesake (hns : noNamesake s e = true)
    (hsite : s.dir.site i = some (name, path)) (hpath : path ≠ []) : notNamed i s e = true := by
  cases e with
  | up c cn =>
      rw [noNamesake, Option.all_eq_true] at hns
      rw [notNamed, Option.all_eq_true]
      intro ch hch
      rw [Bool.or_eq_true, decide_eq_true_eq, decide_eq_true_eq]
      refine or_iff_not_imp_left.mpr fun hcb htab => hpath ?_
      obtain ⟨q, hq, -, rfl⟩ := Dir.site_eq_some_iff.mp hsite
      have hall := hns ch hch
      rw [decide_eq_false hcb, Bool.false_or, htab, Option.bind_some, hq, Option.all_some] at hall
      simpa using hall
  | _ => rfl

/-- A learned PV is not entered under an IOC whose name no server has. -/
theorem learned_other (hwf : s.dir.WF) {c : Chid} {cn : Connection} {ch : Channel} {j : IocId}
    {p : PIoc} {d' : Dir} {n : Name} (hns : notNamed i s (.up c cn) = true)
    (hch : s.ca.chans c = some ch) (hl : ch.IsLearned) (hd : s.dir.Learned cn n j p d')
    (hsite : s.dir.site i = some (name, path)) : j ≠ i := by
  have hcb : ¬ ch.callback = .WDprocessChangeConnectionEvent := Channel.not_isHeartbeat hl
  rintro rfl
  obtain ⟨q, hq, -⟩ := Dir.site_eq_some_iff.mp hsite
  rcases hd.site_cases hwf with ⟨htab, -⟩ | ⟨-, hnone, -⟩
  · rw [notNamed, hch, Option.all_some, decide_eq_false hcb, Bool.false_or,
      decide_eq_true_eq] at hns
    exact hns htab
  · rw [hnone] at hq
    cases hq

/-- **One event, and a PV on the list of an IOC**: it stays there, if the IOC's own file names it
when it is read, and no other file that is read does while the IOC is down. -/
theorem Handled.listed (h : Handled rx s e s') (hwf : s.dir.WF) (ht : Tied s.dir s.nameList s.ca)
    (hunl : s.ca.Unlearned x) (hnl : notLearned x s e = true) (hns : notNamed i s e = true)
    (hsite : s.dir.site i = some (name, path)) (hx : x ≠ name ++ heartbeat)
    (hself : ∀ l, s.reload e = some (i, l) → x ∈ l)
    (hother : ∀ j l, s.reload e = some (j, l) → j ≠ i → x ∈ l → s.dir.isDown i = false)
    (hl : s.dir.Listed x i) : s'.dir.Listed x i := by
  obtain ⟨q, hq, hqname, -⟩ := Dir.site_eq_some_iff.mp hsite
  cases h with
  | @heartbeatUp c cn ch j d' hch hserver hcb hpuser hd =>
      obtain ⟨p, hp⟩ := hd.pIocs
      have hreload : s.reload (.up c cn) = _ := Server.reload_up hch hcb hpuser hp
      by_cases hji : j = i
      · subst hji
        rw [hq] at hp
        cases hp
        refine hl.reloaded_self hwf hd hq (by rw [PIoc.heartbeatName, hqname]; exact hx) ?_
        intro hst
        rw [if_pos hst] at hreload
        exact hself _ hreload
      · refine hl.reloaded hwf hd hp hji fun hst hmem => ⟨q, hq, ?_⟩
        rw [if_pos hst] at hreload
        have hup := hother j _ hreload hji hmem
        rw [Dir.isDown, hq, Option.any_some] at hup
        exact of_decide_eq_false hup
  | heartbeatDown _ _ _ _ hp => exact hl.setPIoc hp fun _ => rfl
  | learnedUp hch _ hcb _ hd =>
      exact hl.learned hwf hd (learned_ne ht hnl hch hcb)
        (learned_other hwf hns hch hcb hd hsite)
  | learnedDown hch hserver hcb => exact hl.forget _ (hunl _ _ hch hcb hserver).symm
  | learnedDownFree => exact hl
  | request ha => cases ha <;> exact hl
  | purge _ hframe => exact hframe.dir ▸ hl
  | report => exact hl

/-- One event, and a PV that is not in the table: it does not come back, if no file that is read
names it. -/
theorem Handled.absent (h : Handled rx s e s') (hwf : s.dir.WF) (ht : Tied s.dir s.nameList s.ca)
    (hnl : notLearned x s e = true) (hread : ∀ j l, s.reload e = some (j, l) → x ∉ l)
    (hnone : s.dir.owner x = none) : s'.dir.owner x = none := by
  cases h with
  | @heartbeatUp c cn ch j d' hch hserver hcb hpuser hd =>
      obtain ⟨p, hp⟩ := hd.pIocs
      refine hd.stays_absent hwf hp (fun hst => hread j _ ?_) hnone
      rw [Server.reload_up hch hcb hpuser hp, if_pos hst]
  | heartbeatDown => exact hnone
  | learnedUp hch _ hcb _ hd =>
      exact (hd.owner_of_ne hwf (learned_ne ht hnl hch hcb).symm).trans hnone
  | @learnedDown c now ch e hch hserver hcb he =>
      show ((s.dir.tblRemove ch.name).deletePvE e).owner x = none
      rw [hwf.owner_forget he]
      split_ifs
      · rfl
      · exact hnone
  | learnedDownFree => exact hnone
  | request ha => cases ha <;> exact hnone
  | purge _ hframe => exact hframe.dir ▸ hnone
  | report => exact hnone

/-- An IOC that is down stays down until it is reloaded. -/
theorem Handled.isDown (h : Handled rx s e s') (hwf : s.dir.WF) (hns : notNamed i s e = true)
    (hsite : s.dir.site i = some (name, path))
    (hreload : ∀ l, s.reload e ≠ some (i, l)) (hdown : s.dir.isDown i = true) :
    s'.dir.isDown i = true := by
  have hstatus : ∀ d : Dir, d.isDown i = (d.header i).any fun p => decide (p.status = 2) := by
    intro d
    unfold Dir.isDown Dir.header
    cases d.pIocs i <;> rfl
  obtain ⟨q, hq, -⟩ := Dir.site_eq_some_iff.mp hsite
  have hqst : q.status = 2 := by
    rw [Dir.isDown, hq, Option.any_some] at hdown
    exact of_decide_eq_true hdown
  cases h with
  | @heartbeatUp c cn ch j d' hch hserver hcb hpuser hd =>
      obtain ⟨p, hp⟩ := hd.pIocs
      have hji : i ≠ j := by
        rintro rfl
        rw [hq] at hp
        cases hp
        refine hreload (signals cn.fs q.pathToList) ?_
        rw [Server.reload_up hch hcb hpuser hq, if_pos hqst]
      show d'.isDown i = true
      rw [hstatus, hd.header hp, if_neg hji, ← hstatus]
      exact hdown
  | @heartbeatDown c now ch j p hch _ _ _ hp =>
      show (s.dir.setPIoc j { p with status := 2 }).isDown i = true
      rw [hstatus, Dir.header_setPIoc]
      split_ifs
      · rfl
      · rw [← hstatus]
        exact hdown
  | @learnedUp c cn ch ch' j p d' hch _ hcb _ hd =>
      have hji : i ≠ j := (learned_other hwf hns hch hcb hd hsite).symm
      show d'.isDown i = true
      rw [hstatus, hd.header hwf, if_neg hji, ← hstatus]
      exact hdown
  | learnedDown => exact hdown
  | learnedDownFree => exact hdown
  | request ha => cases ha <;> exact hdown
  | purge _ hframe => exact hframe.dir ▸ hdown
  | report => exact hdown

/-- A reload is the connection of a heartbeat. -/
theorem Handled.reloaded (h : Handled rx s e s') {l : List Name} (hr : s.reload e = some (i, l)) :
    ∃ cn p, s.dir.pIocs i = some p ∧ p.status = 2 ∧ l = signals cn.fs p.pathToList ∧
      s.dir.Reloaded i cn s'.dir := by
  obtain ⟨c, cn, ch, p, rfl, hch, hhb, hpuser, hp, hst, hl⟩ := Server.reload_eq_some hr
  cases h with
  | heartbeatUp hch' _ _ hpuser' hd =>
      rw [hch] at hch'
      cases hch'
      rw [hpuser] at hpuser'
      cases hpuser'
      exact ⟨cn, p, hp, hst, hl, hd⟩
  | learnedUp hch' _ hcb' =>
      rw [hch] at hch'
      cases hch'
      exact absurd hhb (Channel.not_isHeartbeat hcb')

/-- A file that names the PV brings it on the list, if it was there, or free, or with an IOC that
is down. -/
theorem Handled.taken (h : Handled rx s e s') (hwf : s.dir.WF)
    (hsite : s.dir.site i = some (name, path)) (hx : x ≠ name ++ heartbeat) {l : List Name}
    (hr : s.reload e = some (i, l)) (hmem : x ∈ l)
    (hfree : s.dir.Listed x i ∨ s.dir.owner x ≠ some i ∧ s.dir.OwnerDown x) :
    s'.dir.Listed x i := by
  obtain ⟨cn, p, hp, hst, rfl, hd⟩ := h.reloaded hr
  have hname : x ≠ p.heartbeatName := by
    rw [Dir.site_of_pIocs hp] at hsite
    cases hsite
    exact hx
  exact hd.listed hwf hp hname hst hmem hfree

/-- A file that does not name the PV takes it off the list. -/
theorem Handled.dropped (h : Handled rx s e s') (hwf : s.dir.WF)
    (hsite : s.dir.site i = some (name, path)) (hx : x ≠ name ++ heartbeat) {l : List Name}
    (hr : s.reload e = some (i, l)) (hmem : x ∉ l) (hl : s.dir.Listed x i) :
    s'.dir.owner x = none := by
  obtain ⟨cn, p, hp, hst, rfl, hd⟩ := h.reloaded hr
  have hname : x ≠ p.heartbeatName := by
    rw [Dir.site_of_pIocs hp] at hsite
    cases hsite
    exact hx
  exact hd.absent hwf hp hname hst hmem hl

/-- Nobody has the PV, or an IOC that is down. -/
theorem ownerDown_of_isDown (hwf : s.dir.WF) (hl : s.dir.Listed x i)
    (hdown : s.dir.isDown i = true) : s.dir.OwnerDown x := by
  intro o ho
  rw [hl.owner hwf] at ho
  cases ho
  obtain ⟨q, hq, hst⟩ := (Option.any_eq_true _ _).mp hdown
  exact ⟨q, hq, of_decide_eq_true hst⟩

theorem ownerDown_of_none (hnone : s.dir.owner x = none) : s.dir.OwnerDown x :=
  fun _ ho => nomatch hnone.symm.trans ho

end Events

/-! ## The three parts of the run -/

/-- The IOC is a loaded one, and the PV is not its heartbeat. -/
def Lists (d : Dir) (x : Name) (i : IocId) : Prop :=
  ∃ name path, d.site i = some (name, path) ∧ path ≠ [] ∧ x ≠ name ++ heartbeat

/-- What every part of the run keeps. -/
structure Moving (x : Name) (a b : IocId) (s : Server) : Prop where
  tied : Tied s.dir s.nameList s.ca
  unlearned : s.ca.Unlearned x
  source : Lists s.dir x a
  target : Lists s.dir x b

/-- The PV is on the list of `a`, or on that of `b`, or there is none. -/
def Dir.Held (d : Dir) (x : Name) (a b : IocId) : Prop :=
  (∃ i, (i = a ∨ i = b) ∧ d.Listed x i) ∨ d.owner x = none

/-- The second part: the PV is still on the list of `a`, which is down, or it is on that of `b`, or
there is none. -/
def Leaving (x : Name) (a b : IocId) (s : Server) : Prop :=
  (s.dir.Listed x a ∧ s.dir.isDown a = true) ∨ s.dir.Listed x b ∨ s.dir.owner x = none

section Parts

variable {rx : Regex} {start : Config → Prop} {s s' t : Server} {e : Event} {es : List Event}
  {x : Name} {a b : IocId}

theorem apart_eq_true (h : apart x a b s e = true) :
    notLearned x s e = true ∧ ∀ i, i = a ∨ i = b → notNamed i s e = true := by
  rw [apart, Bool.and_eq_true, Bool.and_eq_true] at h
  refine ⟨h.1, ?_⟩
  rintro i (rfl | rfl)
  · exact h.2.1
  · exact h.2.2

theorem Moving.lists (h : Moving x a b s) {i : IocId} (hi : i = a ∨ i = b) : Lists s.dir x i := by
  rcases hi with rfl | rfl
  · exact h.source
  · exact h.target

theorem Moving.handled (h : Moving x a b s) (hwf : s.dir.WF) (hnl : notLearned x s e = true)
    (hh : Handled rx s e s') : Moving x a b s' := by
  have hsite : ∀ i, Lists s.dir x i → Lists s'.dir x i := by
    rintro i ⟨name, path, hs, hrest⟩
    exact ⟨name, path, hh.site hwf hs, hrest⟩
  exact ⟨hh.tied hwf h.tied, hh.unlearned hnl h.unlearned, hsite a h.source, hsite b h.target⟩

/-- What each event of a part keeps, the part keeps. -/
theorem Moving.run {I : Server → Prop} {ok : Server → Event → Bool}
    (hrun : Run (nameServer rx start) (fun s e => (apart x a b s e && ok s e) = true) s es t)
    (h : Moving x a b s) (hwf : s.dir.WF) (hI : I s)
    (hstep : ∀ s e s', s.dir.WF → Moving x a b s → I s → apart x a b s e = true →
      ok s e = true → Handled rx s e s' → I s') : t.dir.WF ∧ Moving x a b t ∧ I t := by
  refine run_history (I := fun _ s => Moving x a b s ∧ I s) hrun hwf ⟨h, hI⟩ ?_
  rintro pre s e s' hwf ⟨hm, hI⟩ hoke hh
  rw [Bool.and_eq_true] at hoke
  exact ⟨hm.handled hwf (apart_eq_true hoke.1).1 hh, hstep s e s' hwf hm hI hoke.1 hoke.2 hh⟩

/-- A file that names the PV is read for one of the two IOCs, and that IOC gets or keeps the PV,
unless the other has it and is up. -/
theorem Moving.taken (h : Moving x a b s) (hwf : s.dir.WF) {j : IocId} (hj : j = a ∨ j = b)
    {l : List Name} (hr : s.reload e = some (j, l)) (hmem : x ∈ l) (hh : Handled rx s e s')
    (hfree : s.dir.Listed x j ∨ s.dir.owner x ≠ some j ∧ s.dir.OwnerDown x) :
    s'.dir.Listed x j := by
  obtain ⟨name, path, hsite, -, hx⟩ := h.lists hj
  exact hh.taken hwf hsite hx hr hmem hfree

/-- Where no file is read that names the PV, it stays on a list or is gone. -/
theorem Moving.unread (h : Moving x a b s) (hwf : s.dir.WF) {i : IocId} (hi : i = a ∨ i = b)
    (hok : apart x a b s e = true) (hread : ∀ j l, s.reload e = some (j, l) → x ∉ l)
    (hh : Handled rx s e s') (hl : s.dir.Listed x i) :
    (s'.dir.Listed x i ∧ (s.dir.isDown i = true → s'.dir.isDown i = true)) ∨
      s'.dir.owner x = none := by
  obtain ⟨hnl, hns⟩ := apart_eq_true hok
  obtain ⟨name, path, hsite, -, hx⟩ := h.lists hi
  by_cases hr : ∃ l, s.reload e = some (i, l)
  · obtain ⟨l, hr⟩ := hr
    exact Or.inr (hh.dropped hwf hsite hx hr (hread i l hr) hl)
  · have hr' : ∀ l, s.reload e ≠ some (i, l) := fun l hl => hr ⟨l, hl⟩
    refine Or.inl ⟨?_, hh.isDown hwf (hns i hi) hsite hr'⟩
    exact hh.listed hwf h.tied h.unlearned hnl (hns i hi) hsite hx (fun l hl => absurd hl (hr' l))
      (fun j l hr _ hmem => absurd hmem (hread j l hr)) hl

/-- In the first part the PV stays with the two IOCs. -/
theorem Moving.before_step (h : Moving x a b s) (hwf : s.dir.WF) (hd : s.dir.Held x a b)
    (hok : apart x a b s e = true) (hread : before x a b s e = true)
    (hh : Handled rx s e s') : s'.dir.Held x a b := by
  obtain ⟨hnl, hns⟩ := apart_eq_true hok
  by_cases hr : ∃ j l, s.reload e = some (j, l) ∧ x ∈ l
  · obtain ⟨j, l, hr, hmem⟩ := hr
    have hj : j = a ∨ j = b := by
      rw [before, hr, Option.all_some] at hread
      have hcase : (j = a ∨ j = b) ∨ x ∉ l := by simpa using hread
      exact hcase.resolve_right fun hnot => hnot hmem
    rcases hd with ⟨i, hi, hl⟩ | hnone
    · by_cases hji : j = i
      · exact Or.inl ⟨j, hj, h.taken hwf hj hr hmem hh (Or.inl (hji ▸ hl))⟩
      · cases hdown : s.dir.isDown i with
        | true =>
            have hown : s.dir.owner x ≠ some j := by
              rw [hl.owner hwf]
              exact fun heq => hji (Option.some.inj heq).symm
            exact Or.inl ⟨j, hj, h.taken hwf hj hr hmem hh
              (Or.inr ⟨hown, ownerDown_of_isDown hwf hl hdown⟩)⟩
        | false =>
            -- the insertion is refused, for the IOC that has the PV is not down
            obtain ⟨name, path, hsite, -, hx⟩ := h.lists hi
            refine Or.inl ⟨i, hi, hh.listed hwf h.tied h.unlearned hnl (hns i hi) hsite hx
              (fun l' hr' => ?_) (fun _ _ _ _ _ => hdown) hl⟩
            rw [hr] at hr'
            cases hr'
            exact absurd rfl hji
    · refine Or.inl ⟨j, hj, h.taken hwf hj hr hmem hh (Or.inr ⟨?_, ownerDown_of_none hnone⟩)⟩
      rw [hnone]
      exact nofun
  · have hread' : ∀ j l, s.reload e = some (j, l) → x ∉ l := fun j l hr' hmem =>
      hr ⟨j, l, hr', hmem⟩
    rcases hd with ⟨i, hi, hl⟩ | hnone
    · exact (h.unread hwf hi hok hread' hh hl).imp_left fun hl' => ⟨i, hi, hl'.1⟩
    · exact Or.inr (hh.absent hwf h.tied hnl hread' hnone)

/-- The disconnection of `a` begins the second part. -/
theorem Moving.disconnect_step (h : Moving x a b s) (hwf : s.dir.WF) (hd : s.dir.Held x a b)
    (hA : Disconnects s e a) (hstep : (nameServer rx start).step s e s') :
    Moving x a b s' ∧ Leaving x a b s' := by
  obtain ⟨c, now, ch, rfl, hch, hhb, hpuser⟩ := hA
  have hh := handle_handled hwf hstep.1 hstep.2
  refine ⟨h.handled hwf rfl hh, ?_⟩
  cases hh with
  | heartbeatDown hch' _ _ hpuser' hp =>
      rw [hch] at hch'
      cases hch'
      rw [hpuser] at hpuser'
      cases hpuser'
      rcases hd with ⟨i, rfl | rfl, hl⟩ | hnone
      · refine Or.inl ⟨hl.setPIoc hp fun _ => rfl, ?_⟩
        show (Dir.setPIoc ..).isDown i = true
        rw [Dir.isDown, Dir.setPIoc_pIocs_self]
        rfl
      · exact Or.inr (Or.inl (hl.setPIoc hp fun _ => rfl))
      · exact Or.inr (Or.inr hnone)
  | learnedDown hch' _ hcb' =>
      rw [hch] at hch'
      cases hch'
      exact absurd hhb (Channel.not_isHeartbeat hcb')
  | learnedDownFree hch' _ hcb' =>
      rw [hch] at hch'
      cases hch'
      exact absurd hhb (Channel.not_isHeartbeat hcb')

/-- A file of `b` that names the PV brings it to `b`: it is there, or free, or `a` is down. -/
theorem Moving.reboot_step (h : Moving x a b s) (hwf : s.dir.WF) (hab : a ≠ b)
    (hd : Leaving x a b s) {l : List Name} (hr : s.reload e = some (b, l)) (hmem : x ∈ l)
    (hh : Handled rx s e s') : s'.dir.Listed x b := by
  refine h.taken hwf (Or.inr rfl) hr hmem hh ?_
  rcases hd with ⟨hl, hdown⟩ | hl | hnone
  · refine Or.inr ⟨?_, ownerDown_of_isDown hwf hl hdown⟩
    rw [hl.owner hwf]
    exact fun heq => hab (Option.some.inj heq)
  · exact Or.inl hl
  · refine Or.inr ⟨?_, ownerDown_of_none hnone⟩
    rw [hnone]
    exact nofun

/-- In the second part it leaves `a`. -/
theorem Moving.between_step (h : Moving x a b s) (hwf : s.dir.WF) (hab : a ≠ b)
    (hd : Leaving x a b s) (hok : apart x a b s e = true) (hread : between x b s e = true)
    (hh : Handled rx s e s') : Leaving x a b s' := by
  by_cases hr : ∃ j l, s.reload e = some (j, l) ∧ x ∈ l
  · obtain ⟨j, l, hr, hmem⟩ := hr
    obtain rfl : j = b := by
      rw [between, hr, Option.all_some] at hread
      have hcase : j = b ∨ x ∉ l := by simpa using hread
      exact hcase.resolve_right fun hnot => hnot hmem
    exact Or.inr (Or.inl (h.reboot_step hwf hab hd hr hmem hh))
  · have hread' : ∀ j l, s.reload e = some (j, l) → x ∉ l := fun j l hr' hmem =>
      hr ⟨j, l, hr', hmem⟩
    rcases hd with ⟨hl, hdown⟩ | hl | hnone
    · rcases h.unread hwf (Or.inl rfl) hok hread' hh hl with ⟨hl', hdown'⟩ | hnone
      · exact Or.inl ⟨hl', hdown' hdown⟩
      · exact Or.inr (Or.inr hnone)
    · exact Or.inr ((h.unread hwf (Or.inr rfl) hok hread' hh hl).imp_left And.left)
    · exact Or.inr (Or.inr (hh.absent hwf h.tied (apart_eq_true hok).1 hread' hnone))

/-- In the third part it stays on the list of `b`. -/
theorem Moving.after_step (h : Moving x a b s) (hwf : s.dir.WF) (hl : s.dir.Listed x b)
    (hok : apart x a b s e = true) (hread : after x b s e = true)
    (hh : Handled rx s e s') : s'.dir.Listed x b := by
  obtain ⟨hnl, hns⟩ := apart_eq_true hok
  obtain ⟨name, path, hsite, -, hx⟩ := h.target
  refine hh.listed hwf h.tied h.unlearned hnl (hns b (Or.inr rfl)) hsite hx (fun l hr => ?_)
    (fun j l hr hj hmem => ?_) hl
  · rw [after, hr, Option.all_some] at hread
    simpa using hread
  · rw [after, hr, Option.all_some] at hread
    have hiff : x ∈ l ↔ j = b := by simpa using hread
    exact absurd (hiff.mp hmem) hj

end Parts

/-! ## Migration -/

/-- An entry of the PV. -/
def Dir.named (d : Dir) (x : Name) (e : PvEId) : Bool :=
  (d.pvEs e).any fun pv => decide (pv.resourceName = x)

/-- The PV has moved to the IOC: the IOC owns it and has it on its list once, no other IOC has it on
its list, and clients are told the IOC's address while it is up. -/
structure MovedTo (rx : Regex) (s : Server) (x : Name) (b : IocId) : Prop where
  owner : s.dir.owner x = some b
  once : ∃ p, s.dir.pIocs b = some p ∧ p.pvEList.countP (s.dir.named x) = 1
  only : ∀ i p e, s.dir.pIocs i = some p → e ∈ p.pvEList → s.dir.named x e = true → i = b
  served : ∀ p client pPVName search now, s.dir.pIocs b = some p → p.status = 1 →
    Server.recordName pPVName = x → x ≠ [] → pPVName.length < pvNameSz - 1 →
    ∃ s', s.pvExistTest rx client pPVName search now = .ok (s', .existsAt p.addr)

/-- The only entry of a PV on any list is the table's. -/
theorem Dir.WF.eq_of_named {d : Dir} (h : d.WF) {i : IocId} {p : PIoc} {e e' : PvEId} {x : Name}
    (hp : d.pIocs i = some p) (hmem : e' ∈ p.pvEList) (hnamed : d.named x e' = true)
    (he : d.stringResTbl x = some e) : e' = e := by
  rw [Dir.named, Option.any_eq_true] at hnamed
  obtain ⟨pv, hpv, hname⟩ := hnamed
  have htab := (h.listed i p e' pv hp hmem hpv).2
  rw [of_decide_eq_true hname, he] at htab
  exact (Option.some.inj htab).symm

theorem Dir.Listed.movedTo {s : Server} {x : Name} {b : IocId} (h : s.dir.Listed x b)
    (hwf : s.dir.WF) (rx : Regex) : MovedTo rx s x b := by
  have hown := h.owner hwf
  obtain ⟨e, p, he, hp, hmem⟩ := h
  obtain ⟨pv, hpv, hname⟩ := hwf.table x e he
  refine ⟨hown, ⟨p, hp, ?_⟩, fun i q e' hq hmem' hnamed => ?_, ?_⟩
  · have hcount := List.count_eq_one_of_mem (hwf.nodup b p hp) hmem
    rw [← hcount, List.count]
    refine List.countP_congr fun e' hmem' => ?_
    constructor
    · intro hnamed
      rw [beq_iff_eq]
      exact hwf.eq_of_named hp hmem' hnamed he
    · intro heq
      rw [beq_iff_eq] at heq
      rw [heq, Dir.named, hpv, Option.any_some]
      exact decide_eq_true hname
  · rw [hwf.eq_of_named hq hmem' hnamed he] at hmem'
    rw [hwf.owner_of_listed hq hmem' he] at hown
    exact Option.some.inj hown
  · intro q client pPVName search now hq hst hrec hx hlen
    have hpI : pv.pI = some b := by
      rw [← Dir.owner_of_entry he hpv]
      exact hown
    have hbuf : strncpy pvNameSz pPVName = .ok pPVName := strncpy_eq_ok_iff.mpr ⟨hlen, rfl⟩
    refine ⟨{ s with
      stats.request := s.stats.request + 1
      stats.hit := s.stats.hit + 1 }, ?_⟩
    simp only [Server.pvExistTest, hbuf, bind, Except.bind, hrec, if_neg hx, he, Dir.getPvE, hpv,
      deref_some, hpI, Dir.getPIoc, hq, hst, if_pos]
    rfl

/-- **Migration.**  `x` belongs to `a` at first, and no file names it but those of `a` and `b`.
From a disconnection of `a` on its file does not name `x`, and `b` comes back after that with a
file that does, and keeps it.  From then on `x` is `b`'s, whatever else happens. -/
theorem pv_migration (rx : Regex) (start : Config → Prop) (x : Name) (a b : IocId) (hab : a ≠ b)
    (s₀ s₁ s₁' s₂ s₂' s : Server) (es₁ es₂ es₃ : List Event) (eA eB : Event) (l : List Name)
    (hinit : (nameServer rx start).init s₀) (hown : s₀.dir.owner x = some a)
    (ha : ∃ p, s₀.dir.pIocs a = some p ∧ x ≠ p.heartbeatName)
    (hb : ∃ p, s₀.dir.pIocs b = some p ∧ x ≠ p.heartbeatName)
    (h₁ : Run (nameServer rx start) (fun s e => (apart x a b s e && before x a b s e) = true)
      s₀ es₁ s₁)
    (hA : Disconnects s₁ eA a) (hstepA : (nameServer rx start).step s₁ eA s₁')
    (h₂ : Run (nameServer rx start) (fun s e => (apart x a b s e && between x b s e) = true)
      s₁' es₂ s₂)
    (hB : s₂.reload eB = some (b, l)) (hl : x ∈ l) (hstepB : (nameServer rx start).step s₂ eB s₂')
    (h₃ : Run (nameServer rx start) (fun s e => (apart x a b s e && after x b s e) = true)
      s₂' es₃ s) : MovedTo rx s x b := by
  obtain ⟨cfg, -, hs₀, hvisits⟩ := hinit
  have hwf₀ := startup_wf hs₀
  have hlists : ∀ i, (∃ p, s₀.dir.pIocs i = some p ∧ x ≠ p.heartbeatName) → Lists s₀.dir x i := by
    rintro i ⟨p, hp, hx⟩
    have hpath := (startup_header hs₀ (Dir.header_of_pIocs hp)).1
    exact ⟨p.iocname, p.pathToList, Dir.site_of_pIocs hp, hpath, hx⟩
  have hm₀ : Moving x a b s₀ := ⟨startup_tied hs₀ hvisits,
    fun c ch hch hl => absurd (startup_chans hs₀ hch).1 (Channel.not_isHeartbeat hl), hlists a ha,
    hlists b hb⟩
  obtain ⟨pa, hpa, -⟩ := ha
  have hheld : s₀.dir.Held x a b := Or.inl ⟨a, Or.inl rfl, startup_listed hs₀ x a pa hown hpa⟩
  -- the first part, and the disconnection of `a`
  obtain ⟨hwf₁, hm₁, hheld₁⟩ := hm₀.run (I := fun s => s.dir.Held x a b) h₁ hwf₀ hheld
    fun s e s' hwf hm hd hok hread hh => hm.before_step hwf hd hok hread hh
  obtain ⟨hm₁', hleave⟩ := hm₁.disconnect_step hwf₁ hheld₁ hA hstepA
  have hwf₁' := (handle_handled hwf₁ hstepA.1 hstepA.2).wf hwf₁
  -- the second part, and the reboot of `b`
  obtain ⟨hwf₂, hm₂, hleave₂⟩ := hm₁'.run (I := Leaving x a b) h₂ hwf₁' hleave
    fun s e s' hwf hm hd hok hread hh => hm.between_step hwf hab hd hok hread hh
  have hB' := handle_handled hwf₂ hstepB.1 hstepB.2
  have hl₂' := hm₂.reboot_step hwf₂ hab hleave₂ hB hl hB'
  have hm₂' := hm₂.handled hwf₂ (Server.notLearned_of_reload hB) hB'
  -- the third part
  obtain ⟨hwf, -, hl₃⟩ := hm₂'.run (I := fun s => s.dir.Listed x b) h₃ (hB'.wf hwf₂) hl₂'
    fun s e s' hwf hm hl hok hread hh => hm.after_step hwf hl hok hread hh
  exact hl₃.movedTo hwf rx

/-! ## Two IOCs -/

/-- A site with two IOCs, one of which is called like a server. -/
def twoIocs : Config :=
  { oneIoc with
    directory := some "b:2/sig B/sig".toList
    fs := fun path => some (if path = "b:2/sig".toList then "b:2:heartbeat x".toList
      else "B:heartbeat".toList)
    order := [0, 1] }

/-- Both IOCs come up, and a client asks for an unknown PV. -/
def bothUp : List Event :=
  [.up 0 (connectionTo "a:1" 1 ""), .up 1 (connectionTo "c:3" 3 ""),
    .request [] "y".toList .normal 1]

/-- The file of the second IOC has got the PV. -/
def rebootB : Event := .up 1 (connectionTo "c:3" 3 "B:heartbeat x")

/-- Startup, with the facts that a migration of `x` begins with. -/
theorem twoIocs_init {es : List Event} {ok : Server → Event → Bool} {s₁ : Server}
    (h : run literal ok twoIocs es = some s₁) :
    ∃ s₀, (nameServer literal fun _ => True).init s₀ ∧ s₀.dir.owner ['x'] = some 0 ∧
      (∃ p, s₀.dir.pIocs 0 = some p ∧ ['x'] ≠ p.heartbeatName) ∧
      (∃ p, s₀.dir.pIocs 1 = some p ∧ ['x'] ≠ p.heartbeatName) ∧
      Run (nameServer literal fun _ => True) (fun s e => ok s e = true) s₀ es s₁ := by
  unfold run at h
  split at h
  · rename_i s₀ hs₀
    split_ifs at h with hv
    have hwf := startup_wf hs₀
    have hfacts : (startup literal twoIocs).toOption.any (fun s => decide (s.dir.owner ['x'] =
        some 0) && (s.dir.pIocs 0).any (fun p => decide (['x'] ≠ p.heartbeatName)) &&
        (s.dir.pIocs 1).any fun p => decide (['x'] ≠ p.heartbeatName)) = true := by
      set_option maxRecDepth 10000 in decide
    rw [hs₀] at hfacts
    simp only [Except.toOption, Option.any_some, Bool.and_eq_true, decide_eq_true_eq,
      Option.any_eq_true] at hfacts
    obtain ⟨⟨hown, ha⟩, hb⟩ := hfacts
    exact ⟨s₀, ⟨twoIocs, trivial, hs₀, hwf.visits_of_visits hv⟩, hown, ha, hb,
      run_of_runEvents (fun _ _ _ hok => hok) hwf h⟩
  · cases h

theorem step_of_handle {s s' : Server} {e : Event} (hen : enabled s e = true)
    (h : (handle literal s e).toOption = some s') :
    (nameServer literal fun _ => True).step s e s' := by
  refine ⟨hen, ?_⟩
  cases hs : handle literal s e with
  | error => simp [hs, Except.toOption] at h
  | ok t =>
      rw [hs] at h
      exact congrArg Except.ok (Option.some.inj h)

/-- The heartbeat's channel of an IOC goes down. -/
def disconnectsB (s : Server) (c : Chid) (i : IocId) : Bool :=
  (s.ca.chans c).any fun ch =>
    decide (ch.callback = .WDprocessChangeConnectionEvent) && decide (ch.puser = some i)

theorem disconnects_of_eq_true {s : Server} {c : Chid} {i : IocId} {now : ℕ}
    (h : disconnectsB s c i = true) : Disconnects s (.down c now) i := by
  obtain ⟨ch, hch, hfacts⟩ := (Option.any_eq_true _ _).mp h
  rw [Bool.and_eq_true, decide_eq_true_eq, decide_eq_true_eq] at hfacts
  exact ⟨c, now, ch, rfl, hch, hfacts.1, hfacts.2⟩

/-- A migration of `x` at this site: after the events `es₁`, in which it stays where it is, the
first IOC goes down, and after the events `es` the second is rebooted. -/
theorem twoIocs_reboots {okA okB : Server → Event → Bool} {es₁ es : List Event}
    {holds : Server → Bool}
    (h : (run literal okA twoIocs es₁).any (fun s₁ => decide (s₁.dir.owner ['x'] = some 0) &&
      disconnectsB s₁ 0 0 && enabled s₁ (.down 0 2) && (handle literal s₁ (.down 0 2)).toOption.any fun s₁' =>
      (runEvents literal okB s₁' es).any fun s₂ =>
      decide (s₂.reload rebootB = some (1, ["B:heartbeat".toList, ['x']])) &&
      enabled s₂ rebootB && (handle literal s₂ rebootB).toOption.any holds) = true) :
    ∃ s₀ s₁ s₁' s₂ s₂', (nameServer literal fun _ => True).init s₀ ∧
      s₀.dir.owner ['x'] = some 0 ∧ (∃ p, s₀.dir.pIocs 0 = some p ∧ ['x'] ≠ p.heartbeatName) ∧
      (∃ p, s₀.dir.pIocs 1 = some p ∧ ['x'] ≠ p.heartbeatName) ∧
      Run (nameServer literal fun _ => True) (fun s e => okA s e = true) s₀ es₁ s₁ ∧
      Disconnects s₁ (.down 0 2) 0 ∧
      (nameServer literal fun _ => True).step s₁ (.down 0 2) s₁' ∧
      Run (nameServer literal fun _ => True) (fun s e => okB s e = true) s₁' es s₂ ∧
      s₂.reload rebootB = some (1, ["B:heartbeat".toList, ['x']]) ∧
      (nameServer literal fun _ => True).step s₂ rebootB s₂' ∧ s₂'.dir.WF ∧ holds s₂' = true := by
  obtain ⟨s₁, h₁, h⟩ := (Option.any_eq_true _ _).mp h
  rw [Bool.and_eq_true, Bool.and_eq_true, Bool.and_eq_true] at h
  obtain ⟨⟨⟨-, hA⟩, henA⟩, h⟩ := h
  obtain ⟨s₁', hA', h⟩ := (Option.any_eq_true _ _).mp h
  obtain ⟨s₂, h₂, h⟩ := (Option.any_eq_true _ _).mp h
  rw [Bool.and_eq_true, Bool.and_eq_true, decide_eq_true_eq] at h
  obtain ⟨⟨hB, henB⟩, h⟩ := h
  obtain ⟨s₂', hB', hthen⟩ := (Option.any_eq_true _ _).mp h
  obtain ⟨s₀, hinit, hown, ha, hb, hrun₁⟩ := twoIocs_init h₁
  have hstepA := step_of_handle henA hA'
  have hstepB := step_of_handle henB hB'
  obtain ⟨_, -, hs₀, -⟩ := id hinit
  have hwf₁ := run_wf hrun₁ (startup_wf hs₀)
  have hwf₁' := (handle_handled hwf₁ hstepA.1 hstepA.2).wf hwf₁
  have hrun₂ : Run (nameServer literal fun _ => True) (fun s e => okB s e = true) s₁' es s₂ :=
    run_of_runEvents (fun _ _ _ hok => hok) hwf₁' h₂
  have hwf₂ := run_wf hrun₂ hwf₁'
  exact ⟨s₀, s₁, s₁', s₂, s₂', hinit, hown, ha, hb, hrun₁, disconnects_of_eq_true hA, hstepA, hrun₂,
    hB, hstepB, (handle_handled hwf₂ hstepB.1 hstepB.2).wf hwf₂, hthen⟩

set_option maxRecDepth 10000 in
/-- The second IOC has been rebooted with a file that names the PV already, and been refused it; the
first IOC goes down, then the second is rebooted again, and then the first. -/
theorem pv_migration_reboots : ∃ s, MovedTo literal s ['x'] 1 := by
  have hrun : (run literal (fun s e => apart ['x'] 0 1 s e && before ['x'] 0 1 s e) twoIocs
      (bothUp ++ [.down 1 1, rebootB])).any (fun s₁ => decide (s₁.dir.owner ['x'] = some 0) &&
      disconnectsB s₁ 0 0 &&
      enabled s₁ (.down 0 2) && (handle literal s₁ (.down 0 2)).toOption.any fun s₁' =>
      (runEvents literal (fun s e => apart ['x'] 0 1 s e && between ['x'] 1 s e) s₁'
        [.down 1 3]).any fun s₂ =>
      decide (s₂.reload rebootB = some (1, ["B:heartbeat".toList, ['x']])) &&
      enabled s₂ rebootB && (handle literal s₂ rebootB).toOption.any fun s₂' =>
      (runEvents literal (fun s e => apart ['x'] 0 1 s e && after ['x'] 1 s e) s₂'
        [.up 0 (connectionTo "a:1" 1 "b:2:heartbeat")]).isSome) = true := by
    decide
  obtain ⟨s₀, s₁, s₁', s₂, s₂', hinit, hown, ha, hb, hrun₁, hA, hstepA, hrun₂, hB, hstepB, hwf₂',
    hrun⟩ := twoIocs_reboots hrun
  obtain ⟨s, h₃⟩ := Option.isSome_iff_exists.mp hrun
  have hrun₃ : Run (nameServer literal fun _ => True) _ _ _ _ :=
    run_of_runEvents (fun _ _ _ hok => hok) hwf₂' h₃
  exact ⟨s, pv_migration literal _ ['x'] 0 1 (by decide) s₀ s₁ s₁' s₂ s₂' s _ _ _ _ _ _ hinit
    hown ha hb hrun₁ hA hstepA hrun₂ hB (by decide) hstepB hrun₃⟩

set_option maxRecDepth 10000 in
/-- A learned server that goes by the name of the first IOC marks it up while it is down, and the
second IOC does not get the PV. -/
theorem pv_migration_namesake : ¬ ∀ (rx : Regex) (start : Config → Prop) (x : Name) (a b : IocId),
    a ≠ b → ∀ (s₀ s₁ s₁' s₂ s₂' s : Server) (es₁ es₂ es₃ : List Event) (eA eB : Event)
      (l : List Name), (nameServer rx start).init s₀ → s₀.dir.owner x = some a →
    (∃ p, s₀.dir.pIocs a = some p ∧ x ≠ p.heartbeatName) →
    (∃ p, s₀.dir.pIocs b = some p ∧ x ≠ p.heartbeatName) →
    Run (nameServer rx start) (fun s e => (notLearned x s e && before x a b s e) = true) s₀ es₁ s₁ →
    Disconnects s₁ eA a → (nameServer rx start).step s₁ eA s₁' →
    Run (nameServer rx start) (fun s e => (notLearned x s e && between x b s e) = true) s₁' es₂ s₂ →
    s₂.reload eB = some (b, l) → x ∈ l → (nameServer rx start).step s₂ eB s₂' →
    Run (nameServer rx start) (fun s e => (notLearned x s e && after x b s e) = true) s₂' es₃ s →
    MovedTo rx s x b := by
  intro h
  have hrun : (run literal (fun s e => notLearned ['x'] s e && before ['x'] 0 1 s e) twoIocs
      bothUp).any (fun s₁ => decide (s₁.dir.owner ['x'] = some 0) && disconnectsB s₁ 0 0 &&
      enabled s₁ (.down 0 2) &&
      (handle literal s₁ (.down 0 2)).toOption.any fun s₁' =>
      (runEvents literal (fun s e => notLearned ['x'] s e && between ['x'] 1 s e) s₁'
        [.up 2 (connectionTo "b:2" 2 ""), .down 1 3]).any fun s₂ =>
      decide (s₂.reload rebootB = some (1, ["B:heartbeat".toList, ['x']])) &&
      enabled s₂ rebootB && (handle literal s₂ rebootB).toOption.any fun s₂' =>
      decide (s₂'.dir.owner ['x'] = some 0)) = true := by
    decide
  obtain ⟨s₀, s₁, s₁', s₂, s₂', hinit, hown, ha, hb, hrun₁, hA, hstepA, hrun₂, hB, hstepB, -,
    hbad⟩ := twoIocs_reboots hrun
  have hmoved := h literal _ ['x'] 0 1 (by decide) s₀ s₁ s₁' s₂ s₂' s₂' bothUp _ [] _ _ _ hinit
    hown ha hb hrun₁ hA hstepA hrun₂ hB (by decide) hstepB (Run.nil _)
  rw [decide_eq_true_eq, hmoved.owner] at hbad
  exact absurd hbad (by decide)

end CaNameserver
