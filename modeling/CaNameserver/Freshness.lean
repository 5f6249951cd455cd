import CaNameserver.OwnPVs
import CaNameserver.Lib.History

/-!
# What the server's own PVs show

The counts are copied into the PVs by their timers only.  Between two scans a PV shows what it was
given by the last one, or what a client has written to it since.  So what is shown is old, or not
a count at all, and this module says how old, and when.

## Between two scans

`NsPV.Since` describes a PV by its last scan: when it was, the count at that time, what has been
written to it since, and when somebody last began to watch it.  Its value is the last write, or
the count, rounded to a `float`.  Its timer has been started for ten periods after the scan, or
for one period after the scan or after the interest was registered if it is watched;
`interestRegister` starts it anew only if that is earlier.  Each call carries the description on
or is a scan, which begins it anew (`NsPV.Since.call`).

## In a run

`OwnServer.onTime` is the condition on the events: none comes later than `D` after a timer should
have expired.  `lastWrite` and `lastWatch` read the history off the events since the scan, and
`OwnServer.ShownSince` ties them to the description; the constructor scans every PV, so there is
always a last scan.

* `own_values_fresh`: a value is that of the last scan or the last write, the count is rounded
  with a relative error of at most `2⁻²⁴`, and no scan is older than ten periods and `D`, or one
  period and `D` while the PV is watched.
-/

namespace CaNameserver

open Rounding Transition

/-- The timer queue is served within `D`. -/
def OwnServer.onTime (D : ℕ) (s : OwnServer) (e : ℕ × OwnEvent) : Bool :=
  s.pvs.pvList.all fun info => info.pPV.all fun pv => pv.timer.all fun t => e.1 ≤ t + D

/-! ## What has happened to a PV -/

/-- What an event writes to the `k`-th PV. -/
def OwnEvent.written (k : ℕ) : OwnEvent → Option Double
  | .call j (.write valueIn) => if j = k ∧ valueIn.isScalar then some valueIn.value else none
  | _ => none

/-- An event that registers interest in the `k`-th PV. -/
def OwnEvent.watches (k : ℕ) : OwnEvent → Bool
  | .call j .interestRegister => j = k
  | _ => false

/-- The last value written to the `k`-th PV. -/
def lastWrite (k : ℕ) (es : List (ℕ × OwnEvent)) : Option Double :=
  es.foldl (fun last e => (e.2.written k).or last) none

/-- When interest in the `k`-th PV was last registered. -/
def lastWatch (k : ℕ) (es : List (ℕ × OwnEvent)) : ℕ :=
  es.foldl (fun last e => if e.2.watches k then e.1 else last) 0

theorem lastWrite_append (k : ℕ) (es : List (ℕ × OwnEvent)) (e : ℕ × OwnEvent) :
    lastWrite k (es ++ [e]) = (e.2.written k).or (lastWrite k es) := by
  rw [lastWrite, List.foldl_append]
  rfl

theorem lastWatch_append (k : ℕ) (es : List (ℕ × OwnEvent)) (e : ℕ × OwnEvent) :
    lastWatch k (es ++ [e]) = if e.2.watches k then e.1 else lastWatch k es := by
  rw [lastWatch, List.foldl_append]
  rfl

/-! ## Between two scans -/

/-- A PV since a scan at time `scanned` that showed `count`: `written` and `watched` are the last
write and the last registration, and the time is `clock` now. -/
structure NsPV.Since (period D scanned count : ℕ) (written : Option Double) (watched clock : ℕ)
    (pv : NsPV) : Prop where
  preCreate : pv.preCreate = true
  pValue : pv.pValue = some (written.getD (newValue count))
  timer : ∃ t, pv.timer = some t ∧ clock ≤ t + D ∧ t ≤ scanned + 10 * period ∧
    (pv.interest = true → t ≤ max scanned watched + period)

section Since

variable {info : PvInfo} {pv : NsPV} {D scanned count watched clock now : ℕ}
  {written : Option Double} {stats : NsStats}

theorem NsPV.Since.le (h : pv.Since info.scanPeriod D scanned count written watched clock) :
    clock ≤ scanned + 10 * info.scanPeriod + D ∧
      (pv.interest = true → clock ≤ max scanned watched + info.scanPeriod + D) := by
  obtain ⟨t, -, hclock, hslow, hfast⟩ := h.timer
  refine ⟨by omega, fun hi => ?_⟩
  have := hfast hi
  omega

/-- What `onTime` says of this PV. -/
theorem OwnServer.onTime_timer {s : OwnServer} {e : ℕ × OwnEvent} {t : ℕ}
    (h : s.onTime D e = true) (hinfo : info ∈ s.pvs.pvList) (hpv : info.pPV = some pv)
    (ht : pv.timer = some t) : e.1 ≤ t + D := by
  have hinfo' := List.all_eq_true.mp h info hinfo
  rw [hpv, Option.all_some, ht, Option.all_some, decide_eq_true_eq] at hinfo'
  exact hinfo'

/-- Time goes by. -/
theorem NsPV.Since.later (h : pv.Since info.scanPeriod D scanned count written watched clock)
    (hnow : ∀ t, pv.timer = some t → now ≤ t + D) :
    pv.Since info.scanPeriod D scanned count written watched now := by
  obtain ⟨t, ht, -, hslow, hfast⟩ := h.timer
  exact ⟨h.preCreate, h.pValue, t, ht, hnow t ht, hslow, hfast⟩

/-- A scan begins anew. -/
theorem NsPV.Since.scan (h : pv.preCreate = true) (hp : 0 < info.scanPeriod)
    (hcount : stats.shown info.pName = some count) :
    (info.expire stats now pv).Since info.scanPeriod D now count none 0 now := by
  rw [PvInfo.expire_eq hp hcount]
  refine ⟨h, rfl, _, rfl, ?_, ?_, ?_⟩
  · exact le_add_right (Nat.le_add_right _ _)
  · rw [PvInfo.getScanPeriod]
    split_ifs <;> omega
  · intro hi
    rw [PvInfo.getScanPeriod, if_pos hi]
    exact Nat.add_le_add_right (le_max_left _ _) _

/-- **One call**, which carries on or is a scan. -/
theorem NsPV.Since.call (h : pv.Since info.scanPeriod D scanned count written watched now)
    (hp : 0 < info.scanPeriod) {count' : ℕ} (hcount : stats.shown info.pName = some count')
    (k : ℕ) (c : PvCall) : ∃ pv', c.onPV stats now info pv = some pv' ∧
      (pv'.Since info.scanPeriod D scanned count (((OwnEvent.call k c).written k).or written)
          (if (OwnEvent.call k c).watches k then now else watched) now ∨
        pv'.Since info.scanPeriod D now count' none 0 now) := by
  obtain ⟨t, ht, hnow, hslow, hfast⟩ := h.timer
  cases c with
  | expire => exact ⟨_, rfl, Or.inr (.scan h.preCreate hp hcount)⟩
  | interestRegister =>
      refine ⟨_, rfl, Or.inl ?_⟩
      rw [PvInfo.interestRegister_eq hp ht]
      refine ⟨h.preCreate, h.pValue, _, rfl, ?_, ?_, ?_⟩
      · omega
      · omega
      · intro _
        have hwatches : (OwnEvent.call k .interestRegister).watches k = true := decide_eq_true rfl
        rw [if_pos hwatches]
        omega
  | interestDelete =>
      refine ⟨_, rfl, Or.inl ⟨h.preCreate, h.pValue, t, ht, hnow, hslow, ?_⟩⟩
      intro hi
      cases hi
  | write valueIn =>
      refine ⟨_, rfl, Or.inl ?_⟩
      simp only [OwnEvent.written, OwnEvent.watches, NsPV.update, true_and, Bool.false_eq_true, if_false]
      split_ifs
      · exact ⟨h.preCreate, rfl, t, ht, hnow, hslow, hfast⟩
      · exact ⟨h.preCreate, h.pValue, t, ht, hnow, hslow, hfast⟩
  | destroy => exact ⟨pv, if_pos h.preCreate, Or.inl ⟨h.preCreate, h.pValue, t, ht, hnow, hslow, hfast⟩⟩

end Since

/-! ## Runs -/

section Runs

variable {rx : Regex} {start : Config → Prop} {D k : ℕ} {m s t : OwnServer}
  {since : List (ℕ × OwnEvent)}

/-- The `k`-th PV was last scanned in state `m`, and `since` has happened until `s`. -/
def OwnServer.ShownSince (D k : ℕ) (m : OwnServer) (since : List (ℕ × OwnEvent)) (s : OwnServer) :
    Prop :=
  ∃ info pv count, s.pvs.pvList[k]? = some info ∧ 0 < info.scanPeriod ∧ info.pName ∈ pvListNames ∧
    info.pPV = some pv ∧ m.server.stats.shown info.pName = some count ∧
    pv.Since info.scanPeriod D m.clock count (lastWrite k since) (lastWatch k since) s.clock

/-- The constructor scans every PV. -/
theorem OwnServer.ShownSince.init (hs : (ownServer rx start).init s) {info : PvInfo}
    (hk : pvList[k]? = some info) : ShownSince D k s [] s := by
  obtain ⟨cfg, -, hstart, -, hpvs⟩ := hs
  obtain ⟨hnone, hp, hn⟩ := pvList_static (List.mem_of_getElem? hk)
  obtain ⟨count, hcount⟩ := NsStats.zero.exists_shown hn
  have hcreated : s.pvs.pvList[k]? = some { info with
      pPV := some ⟨some (newValue count), some (s.clock + 10 * info.scanPeriod), false, true⟩ } := by
    rw [hpvs, (PvServer.construct_pvList _ _).1, List.getElem?_map, hk, Option.map_some,
      PvInfo.createPV_eq hnone hp hcount]
  refine ⟨_, _, count, hcreated, hp, hn, rfl, ?_, rfl, rfl, _, rfl, ?_, le_rfl, nofun⟩
  · rw [(startup_own hstart hpvs).2]
    exact hcount
  · exact le_add_right (Nat.le_add_right _ _)

/-- **The step lemma.** -/
theorem OwnServer.ShownSince.step (h : ShownSince D k m since s) {e : ℕ × OwnEvent}
    (hok : s.onTime D e = true) (hst : (ownServer rx start).step s e t) :
    ShownSince D k m (since ++ [e]) t ∨ ShownSince D k t [] t := by
  obtain ⟨info, pv, count, hk, hp, hn, hpv, hcount, hsince⟩ := h
  obtain ⟨now, e⟩ := e
  obtain ⟨-, -, hnext⟩ := hst
  have hnow := hsince.later fun _ => onTime_timer hok (List.mem_of_getElem? hk) hpv
  rw [ShownSince, lastWrite_append, lastWatch_append]
  -- whatever leaves this PV alone carries on
  have hsame : ∀ u : OwnServer, u.pvs.pvList[k]? = some info → u.clock = now →
      e.written k = none → e.watches k = false →
      ∃ info pv count, u.pvs.pvList[k]? = some info ∧ 0 < info.scanPeriod ∧
        info.pName ∈ pvListNames ∧ info.pPV = some pv ∧ m.server.stats.shown info.pName = some count ∧
        pv.Since info.scanPeriod D m.clock count ((e.written k).or (lastWrite k since))
          (if e.watches k then now else lastWatch k since) u.clock := by
    intro u hu hclock hwritten hwatches
    refine ⟨info, pv, count, hu, hp, hn, hpv, hcount, ?_⟩
    rw [hclock, hwritten, hwatches, Option.none_or, if_neg Bool.false_ne_true]
    exact hnow
  cases e with
  | server e =>
      obtain ⟨server, -, ht⟩ := Fallible.bind_eq_ok_iff.mp hnext
      cases ht
      exact Or.inl (hsame _ hk rfl rfl rfl)
  | attach pName =>
      cases hnext
      refine Or.inl (hsame _ ?_ rfl rfl rfl)
      rw [PvServer.pvAttach]
      cases s.pvs.nsResTbl pName with
      | none => exact hk
      | some j =>
          have hcreate : info.createPV s.server.stats now false = info := by
            rw [PvInfo.createPV, hpv]
            exact if_pos rfl
          dsimp only [Option.elim_some]
          rw [List.getElem?_modify, hk, Option.map_eq_map, Option.map_some, hcreate, ite_self]
  | call j c =>
      cases hnext
      by_cases hj : j = k
      · subst hj
        obtain ⟨count', hcount'⟩ := s.server.stats.exists_shown hn
        obtain ⟨pv', hpv', hor⟩ := hnow.call hp hcount' j c
        have hserve : (info.serve s.server.stats now c).pPV = some pv' := by
          rw [PvInfo.serve, hpv]
          exact hpv'
        have hj : (s.pvs.pvList.modify j (PvInfo.serve s.server.stats now c))[j]? =
            some (info.serve s.server.stats now c) := by
          rw [List.getElem?_modify_eq, hk]
          rfl
        refine hor.imp (fun h => ?_) fun h => ?_
        · exact ⟨_, pv', count, hj, hp, hn, hserve, hcount, h⟩
        · exact ⟨_, pv', count', hj, hp, hn, hserve, hcount', h⟩
      · refine Or.inl (hsame _ ?_ rfl ?_ ?_)
        · rw [List.getElem?_modify_ne _ _ hj, hk]
        · cases c with
          | write valueIn => exact if_neg fun h => hj h.1
          | _ => rfl
        · cases c with
          | interestRegister => exact decide_eq_false hj
          | _ => rfl

/-- **What is shown, and how old it is.**  If the timer queue is served within `D`, each of the
server's own PVs has a value, and there is a last scan: since then nothing else has set the value
than a client's write.  The scan has shown the count as it was then, with an error of `2 ^ -24` at
most.  It is not older than ten scan periods and `D`; while the PV is watched, one scan period and
`D`, from the scan or from the time somebody began to watch. -/
theorem own_values_fresh (rx : Regex) (start : Config → Prop) (D : ℕ) {s₀ s : OwnServer}
    {es : List (ℕ × OwnEvent)} (hinit : (ownServer rx start).init s₀)
    (hrun : Run (ownServer rx start) (fun s e => s.onTime D e = true) s₀ es s) {k : ℕ}
    (hk : k < pvList.length) : ∃ info pv count pre since m,
      s.pvs.pvList[k]? = some info ∧ info.pPV = some pv ∧ es = pre ++ since ∧
      Run (ownServer rx start) (fun s e => s.onTime D e = true) s₀ pre m ∧
      Run (ownServer rx start) (fun s e => s.onTime D e = true) m since s ∧
      m.server.stats.shown info.pName = some count ∧
      pv.pValue = some ((lastWrite k since).getD (.finite (toNearest 24 count))) ∧
      2 ^ 24 * |(toNearest 24 count : ℤ) - count| ≤ count ∧
      s.clock ≤ m.clock + 10 * info.scanPeriod + D ∧
      (pv.interest = true → s.clock ≤ max m.clock (lastWatch k since) + info.scanPeriod + D) := by
  have hfirst : OwnServer.ShownSince D k s₀ [] s₀ :=
    OwnServer.ShownSince.init hinit (List.getElem?_eq_getElem hk)
  obtain ⟨pre, since, m, hes, hpre, hsince, hshown⟩ :=
    hrun.since (P := OwnServer.ShownSince D k) (fun _ _ _ _ _ h hok hst => h.step hok hst) hfirst
  obtain ⟨info, pv, count, hinfo, -, -, hpv, hcount, h⟩ := hshown
  obtain ⟨hslow, hfast⟩ := h.le
  exact ⟨info, pv, count, pre, since, m, hinfo, hpv, hes, hpre, hsince, hcount, h.pValue,
    toNearest_error (by decide) count, hslow, hfast⟩

end Runs

/-- A client watches the requests, and writes to them after a scan. -/
def watchedRequests : List (ℕ × OwnEvent) :=
  [(1000, .server (.request [] "y".toList .normal 1)), (2000, .attach "ns:request".toList),
    (3000, .call 1 .interestRegister), (5000100000, .call 1 .expire),
    (6000000000, .call 1 (.write ⟨false, .nan⟩)), (7000000000, .server (.report true))]

set_option maxRecDepth 10000 in
theorem own_values_fresh_watchedRequests : ∃ s₀ s,
    Run (ownServer literal (· = namedIoc)) (fun s e => s.onTime 100000 e = true) s₀
      watchedRequests s ∧
    s.server.stats.request = 0 ∧
    (s.pvs.pvList[1]?.bind PvInfo.pPV) =
      some ⟨some (.finite 1), some (5000100000 + 5000000000), true, true⟩ ∧
    ∃ info pv count pre since m,
      s.pvs.pvList[1]? = some info ∧ info.pPV = some pv ∧ watchedRequests = pre ++ since ∧
      Run (ownServer literal (· = namedIoc)) (fun s e => s.onTime 100000 e = true) s₀ pre m ∧
      Run (ownServer literal (· = namedIoc)) (fun s e => s.onTime 100000 e = true) m since s ∧
      m.server.stats.shown info.pName = some count ∧
      pv.pValue = some ((lastWrite 1 since).getD (.finite (toNearest 24 count))) ∧
      2 ^ 24 * |(toNearest 24 count : ℤ) - count| ≤ count ∧
      s.clock ≤ m.clock + 10 * info.scanPeriod + 100000 ∧
      (pv.interest = true → s.clock ≤ max m.clock (lastWatch 1 since) + info.scanPeriod + 100000) := by
  have hrun : (startup literal namedIoc).toOption.any (fun s => visits s.dir namedIoc.order &&
      (watchedRequests.foldlM (OwnServer.nextIf literal (OwnServer.onTime 100000))
        ⟨s, .construct 0 "ns:".toList, 0⟩).any fun t => decide (t.server.stats.request = 0 ∧
          (t.pvs.pvList[1]?.bind PvInfo.pPV) =
            some ⟨some (.finite 1), some (5000100000 + 5000000000), true, true⟩)) = true := by
    decide
  obtain ⟨s, hs, h⟩ := (Option.any_eq_true _ _).mp hrun
  obtain ⟨hvisits, h⟩ := Bool.and_eq_true_iff.mp h
  obtain ⟨t, ht, hend⟩ := (Option.any_eq_true _ _).mp h
  obtain ⟨hrequest, hvalue⟩ := of_decide_eq_true hend
  have hstart := Fallible.toOption_eq_some_iff.mp hs
  have hinit : (ownServer literal (· = namedIoc)).init ⟨s, .construct 0 "ns:".toList, 0⟩ :=
    ⟨namedIoc, rfl, hstart, (startup_wf hstart).visits_of_visits hvisits, rfl⟩
  have hwatched : Run (ownServer literal (· = namedIoc)) (fun s e => s.onTime 100000 e = true)
      ⟨s, .construct 0 "ns:".toList, 0⟩ watchedRequests t :=
    .of_foldlM (fun _ _ _ => OwnServer.step_of_nextIf) ht
  exact ⟨_, t, hwatched, hrequest, hvalue,
    own_values_fresh literal (· = namedIoc) 100000 hinit hwatched (by decide)⟩

end CaNameserver
