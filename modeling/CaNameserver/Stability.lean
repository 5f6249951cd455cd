import CaNameserver.Address
import CaNameserver.Migration

/-!
# Answers that stay

Once a client has been sent to an IOC for a PV, every later request for the PV is answered with
the same address, however the PV's field is spelled and whatever else happens: other IOCs may go
down and come back with lists that name the PV, PVs may be learned from any host, the purge may
pass.  Only two things change the answer: the heartbeat of the IOC connects or disconnects, or the
channel over which the PV was learned goes down.

`leaves` is the condition on the events that it is neither of the two, and `Serves` what such
events keep: the PV belongs to the IOC, which is up at the address.  Another IOC that reads its
list cannot take the PV, whose IOC is not down (`Serves.reloaded`).  A PV that is learned, maybe
this one, maybe from the IOC itself, is refused or entered elsewhere, and an IOC that is up keeps
its address (`Serves.learned`).  Requests, purges and reports do not touch the directory.

There is no condition on the names of the hosts or on the lists.

* `answer_stays`: an answer stays.
-/

namespace CaNameserver

open CStr Fallible Transition

/-- The event is not about the IOC's heartbeat, nor about the loss of the PV's channel. -/
def leaves (n : Name) (i : IocId) (s : Server) : Event → Prop
  | .up c _ => ∀ ch, s.ca.chans c = some ch → ch.IsHeartbeat → ch.puser ≠ some i
  | .down c _ => ∀ ch, s.ca.chans c = some ch →
      (ch.IsHeartbeat → ch.puser ≠ some i) ∧ (ch.IsLearned → ch.name ≠ n)
  | _ => True

/-- The PV belongs to the IOC, which is up at the address. -/
structure Serves (n : Name) (i : IocId) (a : SockAddr) (d : Dir) : Prop where
  owner : d.owner n = some i
  up : ∃ p, d.header i = some p ∧ p.status = 1 ∧ p.addr = a

namespace Serves

variable {n m : Name} {i j : IocId} {a : SockAddr} {d d' : Dir}

theorem status (h : Serves n i a d) {o : IocId} {q : PIoc} (ho : d.owner n = some o)
    (hq : d.pIocs o = some q) : q.status = 1 := by
  rw [h.owner] at ho
  cases ho
  obtain ⟨p, hp, hst, -⟩ := h.up
  rw [Dir.header_of_pIocs hq] at hp
  cases hp
  exact hst

/-- What leaves the PV and the header of its IOC alone. -/
theorem keep (h : Serves n i a d) (ho : d'.owner n = d.owner n) (hhead : d'.header i = d.header i) :
    Serves n i a d' := by
  obtain ⟨p, hp, hup⟩ := h.up
  exact ⟨ho.trans h.owner, p, hhead.trans hp, hup⟩

/-- Another IOC reads its list again.  It cannot take the PV, whose IOC is not down. -/
theorem reloaded (h : Serves n i a d) (hwf : d.WF) {cn : Connection} (hr : d.Reloaded j cn d')
    (hij : i ≠ j) : Serves n i a d' := by
  obtain ⟨p, hp⟩ := hr.pIocs
  have hhead : d'.header i = d.header i := by rw [hr.header hp, if_neg hij]
  by_cases hst : p.status = 2
  · obtain ⟨d₁, d₂, q, r, hwf₀, hrem, hwf₁, hadd, -, rfl⟩ := hr.of_down hwf hp hst
    have hother : (d.setPIoc j { p with addr := cn.addr p.addr }).owner n ≠ some j := by
      rw [Dir.owner_setPIoc, h.owner]
      simpa using hij
    have h₁ : Serves n i a d₁ := by
      refine h.keep ?_ ?_
      · rw [(hrem.owner_of_ne hwf₀ (Dir.setPIoc_pIocs_self ..) hother).2, Dir.owner_setPIoc]
      · rw [hrem.header (Dir.setPIoc_pIocs_self ..), Dir.header_setPIoc, if_neg hij]
    have hthere : d₁.stringResTbl n ≠ none := by
      rw [Ne, ← hwf₁.owner_eq_none_iff, h₁.owner]
      exact Option.some_ne_none i
    have hsame := Dir.addAllPvs_sameEntry (m := n) hwf₁ hadd hrem.pIocs_self fun _ =>
      ⟨hthere, Or.inr fun o q ho hq => by have := h₁.status ho hq; omega⟩
    refine h.keep ?_ hhead
    rw [Dir.owner_setPIoc, h.owner, ← h₁.owner]
    exact hsame.owner
  · obtain ⟨q, -, -, rfl⟩ := hr.of_not_down hp hst
    exact h.keep (by rw [Dir.owner_setPIoc]) hhead

/-- A PV is learned, maybe this one, maybe from the IOC itself. -/
theorem learned (h : Serves n i a d) (hwf : d.WF) {cn : Connection} {p : PIoc}
    (hl : d.Learned cn m j p d') : Serves n i a d' := by
  have ho : d'.owner n = d.owner n := by
    by_cases hnm : n = m
    · subst hnm
      rcases hl.owner_cases hwf with hsame | ⟨-, henters⟩
      · exact hsame
      · rw [Dir.enters, h.owner, Bool.and_eq_true, Option.any_eq_true] at henters
        obtain ⟨-, q, hq, hdown⟩ := henters
        have hup := h.status h.owner hq
        have hdown := of_decide_eq_true hdown
        omega
    · exact hl.owner_of_ne hwf hnm
  refine h.keep ho ?_
  rw [hl.header hwf]
  split_ifs with hij
  · subst hij
    rcases hl.met_cases hwf (h.status h.owner) with ⟨hold, -, hmet⟩ | ⟨hnext, -⟩
    · rw [hmet, hold]
    · exact absurd hnext (hwf.owner_lt_nextPIoc h.owner).ne
  · rfl

end Serves

section Runs

variable {rx : Regex} {n : Name} {i : IocId} {a : SockAddr} {s s' : Server} {e : Event}

theorem Handled.serves (h : Handled rx s e s') (hwf : s.dir.WF) (hs : Serves n i a s.dir)
    (hok : leaves n i s e) : Serves n i a s'.dir := by
  cases h with
  | @heartbeatUp c cn ch j d' hch _ hcb hpuser hd =>
      refine hs.reloaded hwf hd fun hij => ?_
      exact hok ch hch hcb (hij ▸ hpuser)
  | @heartbeatDown c now ch j p hch _ hcb hpuser hp =>
      have hij : i ≠ j := fun hij => (hok ch hch).1 hcb (hij ▸ hpuser)
      exact hs.keep (by rw [Dir.owner_setPIoc]) (by rw [Dir.header_setPIoc, if_neg hij])
  | learnedUp _ _ _ _ hd => exact hs.learned hwf hd
  | @learnedDown c now ch pve hch _ hcb he =>
      have hne : n ≠ ch.name := fun hne => (hok ch hch).2 hcb hne.symm
      exact hs.keep (by rw [hwf.owner_forget he, if_neg hne]) rfl
  | learnedDownFree => exact hs
  | request ha => cases ha <;> exact hs
  | purge _ hframe => exact hframe.dir ▸ hs
  | report => exact hs

/-- A request for a PV that is served. -/
theorem Serves.answered {client pPVName : Name} {search : CaStatus} {now : ℕ}
    {ret : Server.PvExistReturn} (hs : Serves (Server.recordName pPVName) i a s.dir)
    (hwf : s.dir.WF) (hname : Server.recordName pPVName ≠ [])
    (h : Server.Answered rx s client pPVName search now s' ret) :
    ret = .existsAt a ∧ s' = { s with
      stats.request := s.stats.request + 1
      stats.hit := s.stats.hit + 1 } := by
  obtain ⟨p₀, hp₀, hst₀, ha⟩ := hs.up
  have hthere : s.dir.stringResTbl (Server.recordName pPVName) ≠ none := by
    rw [Ne, ← hwf.owner_eq_none_iff, hs.owner]
    exact Option.some_ne_none i
  cases h with
  | noName hnil => exact absurd hnil hname
  | iocError _ he hpv hnone =>
      have ho := Dir.owner_of_entry he hpv
      rw [hs.owner, hnone] at ho
      cases ho
  | hit _ _ ho hp _ =>
      rw [hs.owner] at ho
      cases ho
      rw [Dir.header_of_pIocs hp] at hp₀
      cases hp₀
      exact ⟨congrArg _ ha, rfl⟩
  | iocDown _ _ ho hp hst => exact absurd (hs.status ho hp) hst
  | nameserverPV _ he => exact absurd he hthere
  | pending _ he => exact absurd he hthere
  | denied _ he => exact absurd he hthere
  | searchFailed _ he => exact absurd he hthere
  | searched _ he => exact absurd he hthere

/-- **An answer stays.**  In every run from a reachable state in which the heartbeat of the IOC
neither connects nor disconnects, and no channel of the PV goes down, the address that a client got
for the PV is what every client gets for it, with any field; the request changes two counters. -/
theorem answer_stays (rx : Regex) (start : Config → Prop) {s s' t t' : Server} {es : List Event}
    (h : Reachable (nameServer rx start) (fun _ _ => True) s) {client client' pPVName pPVName' : Name}
    {search search' : CaStatus} {now now' : ℕ} {a : SockAddr} {ret : Server.PvExistReturn}
    (hfirst : s.pvExistTest rx client pPVName search now = .ok (s', .existsAt a))
    (ho : s.dir.owner (Server.recordName pPVName) = some i)
    (hrun : Run (nameServer rx start) (leaves (Server.recordName pPVName) i) s' es t)
    (hsecond : t.pvExistTest rx client' pPVName' search' now' = .ok (t', ret))
    (hname : Server.recordName pPVName' = Server.recordName pPVName) :
    ret = .existsAt a ∧ t' = { t with
      stats.request := t.stats.request + 1
      stats.hit := t.stats.hit + 1 } := by
  have hwf := reachable_wf h
  obtain ⟨hne, hwf', hserves⟩ : Server.recordName pPVName ≠ [] ∧ s'.dir.WF ∧
      Serves (Server.recordName pPVName) i a s'.dir := by
    cases Server.pvExistTest_answered hfirst with
    | hit hne _ ho' hp hst =>
        rw [ho] at ho'
        cases ho'
        exact ⟨hne, hwf, ho, _, Dir.header_of_pIocs hp, hst, rfl⟩
  obtain ⟨hwft, hend⟩ : t.dir.WF ∧ Serves (Server.recordName pPVName) i a t.dir := by
    refine hrun.invariant (I := fun s => s.dir.WF ∧ Serves (Server.recordName pPVName) i a s.dir)
      ?_ ⟨hwf', hserves⟩
    rintro s e t ⟨hwf, hs⟩ hok ⟨hen, ht⟩
    have hh := handle_handled hwf hen ht
    exact ⟨hh.wf hwf, hh.serves hwf hs hok⟩
  rw [← hname] at hend hne
  exact hend.answered hwft hne (Server.pvExistTest_answered hsecond)

end Runs

/-- `leaves`, decided. -/
def leavesB (n : Name) (i : IocId) (s : Server) : Event → Bool
  | .up c _ => (s.ca.chans c).all fun ch =>
      decide (ch.callback = .WDprocessChangeConnectionEvent → ch.puser ≠ some i)
  | .down c _ => (s.ca.chans c).all fun ch =>
      decide ((ch.callback = .WDprocessChangeConnectionEvent → ch.puser ≠ some i) ∧
        (ch.callback = .processChangeConnectionEvent → ch.name ≠ n))
  | _ => true

theorem leaves_of_eq_true {n : Name} {i : IocId} {s : Server} {e : Event}
    (h : leavesB n i s e = true) : leaves n i s e := by
  cases e with
  | up c cn =>
      intro ch hch
      rw [leavesB, hch, Option.all_some, decide_eq_true_eq] at h
      exact h
  | down c now =>
      intro ch hch
      rw [leavesB, hch, Option.all_some, decide_eq_true_eq] at h
      exact h
  | _ => trivial

set_option maxRecDepth 10000 in
/-- The second IOC comes back with a list that names the PV of the first. -/
theorem answer_stays_rebootB : ∃ t t', Server.pvExistTest literal t [] "x.VAL".toList .normal 7 =
      .ok (t', .existsAt ⟨afInet, 1, InAddr.zero⟩) ∧
    t.dir.owner ['x'] = some 0 ∧ t.stats.hit = 1 ∧ t'.stats.hit = 2 := by
  have hrun : (run literal (fun _ _ => true) twoIocs bothUp).any (fun s =>
      (s.pvExistTest literal [] ['x'] .normal 5).toOption.any fun r =>
      decide (r.2 = .existsAt ⟨afInet, 1, InAddr.zero⟩) && decide (s.dir.owner ['x'] = some 0) &&
      (runEvents literal (leavesB ['x'] 0) r.1 [.down 1 6, rebootB]).any fun t =>
      decide (t.dir.owner ['x'] = some 0) && decide (t.stats.hit = 1) &&
      (t.pvExistTest literal [] "x.VAL".toList .normal 7).toOption.isSome) = true := by decide
  obtain ⟨s, hs, h⟩ := (Option.any_eq_true _ _).mp hrun
  obtain ⟨⟨s', ret⟩, hfirst, h⟩ := (Option.any_eq_true _ _).mp h
  rw [Bool.and_eq_true, Bool.and_eq_true, decide_eq_true_eq, decide_eq_true_eq] at h
  obtain ⟨⟨rfl, ho⟩, h⟩ := h
  obtain ⟨t, hruns, h⟩ := (Option.any_eq_true _ _).mp h
  rw [Bool.and_eq_true, Bool.and_eq_true, decide_eq_true_eq, decide_eq_true_eq] at h
  obtain ⟨⟨hot, hhit⟩, hsome⟩ := h
  obtain ⟨⟨t', ret'⟩, hsecond⟩ := Option.isSome_iff_exists.mp hsome
  have hreach : Reachable (nameServer literal fun _ => True) (fun _ _ => True) s :=
    (reachable_of_eq_some hs).mono fun _ _ _ => trivial
  have hfirst := toOption_eq_some_iff.mp hfirst
  have hsecond := toOption_eq_some_iff.mp hsecond
  have hwf' : s'.dir.WF :=
    (Handled.request (Server.pvExistTest_answered hfirst)).wf (reachable_wf hreach)
  obtain ⟨rfl, rfl⟩ := answer_stays literal _ hreach hfirst ho
    (run_of_runEvents (fun _ _ _ => leaves_of_eq_true) hwf' hruns) hsecond rfl
  exact ⟨t, _, hsecond, hot, hhit, congrArg (· + 1) hhit⟩

end CaNameserver
