import CaNameserver.Runs

/-!
# Counting requests

`pvExistTest` counts a request on entry and, on each of its exits but two, counts the outcome: the
exits that count nothing are the empty record name and the failed search.  So `request` is the sum
of the outcomes and of the uncounted requests since the last report, which sets all counters to
zero.

That sum is not a property of a state, for nothing in it has the number of uncounted requests.
`uncountedSince` reads it off the events of a run, each in the state in which it arrives; a report
sets it back.  One request adds one to both sides, exit by exit (`Answered.accounting`); no other
event touches the counters.

A request may change little else: the pending list and the channels if it searches, and nothing in
the directory (`Server.RequestFrame`).

* `request_accounting`: the law, and the frame, for every run.
* `accounting_ownPV`: the server's own PVs are looked up under the name as it was requested, field
  and all, so that a field of one of them is searched for.
-/

namespace CaNameserver

open CStr Fallible Transition

/-- The requests whose outcome has been counted. -/
def NsStats.counted (st : NsStats) : ℕ :=
  st.hit + st.pending + st.iocError + st.iocDown + st.broadcast + st.broadcastDenied

namespace Server

/-- The request makes `pvExistTest` call `ca_search_and_connect`. -/
def searches (rx : Regex) (s : Server) (client pPVName : Name) : Bool :=
  decide (recordName pPVName ≠ []) && (s.dir.stringResTbl (recordName pPVName)).isNone &&
    !s.nsResTbl.contains pPVName && s.nameList.all (fun nn => nn.name ≠ recordName pPVName) &&
    !s.searchDenied rx client (recordName pPVName)

/-- The request has an empty record name, or its `ca_search_and_connect` fails. -/
def uncounted (rx : Regex) (s : Server) (client pPVName : Name) (search : CaStatus) : Bool :=
  decide (recordName pPVName = []) ||
    (s.searches rx client pPVName && decide (search = .failed))

/-- What a request may change. -/
structure RequestFrame (rx : Regex) (s : Server) (client pPVName : Name) (now : ℕ) (s' : Server) :
    Prop where
  stringResTbl : s'.dir.stringResTbl = s.dir.stringResTbl
  iocResTbl : s'.dir.iocResTbl = s.dir.iocResTbl
  pIocs : s'.dir.pIocs = s.dir.pIocs
  neverResTbl : s'.neverResTbl = s.neverResTbl
  nameList : (s'.stats.broadcast = s.stats.broadcast ∧ s'.nameList = s.nameList) ∨
    (s'.stats.broadcast = s.stats.broadcast + 1 ∧
      (∃ chd, s'.nameList = ⟨recordName pPVName, now, chd, false⟩ :: s.nameList) ∧
      s.dir.stringResTbl (recordName pPVName) = none ∧ pPVName ∉ s.nsResTbl ∧
      (∀ nn ∈ s.nameList, nn.name ≠ recordName pPVName) ∧
      s.searchDenied rx client (recordName pPVName) = false)

variable {rx : Regex} {s s' : Server} {client pPVName : Name} {search : CaStatus} {now : ℕ}
  {ret : PvExistReturn}

theorem searches_eq_true_iff : s.searches rx client pPVName = true ↔
    recordName pPVName ≠ [] ∧ s.dir.stringResTbl (recordName pPVName) = none ∧
      pPVName ∉ s.nsResTbl ∧ (∀ nn ∈ s.nameList, nn.name ≠ recordName pPVName) ∧
      s.searchDenied rx client (recordName pPVName) = false := by
  simp [searches, and_assoc]

theorem Answered.frame (h : Answered rx s client pPVName search now s' ret) :
    RequestFrame rx s client pPVName now s' := by
  cases h with
  | searched hn he hns hpend hden hs =>
      exact ⟨rfl, rfl, rfl, rfl, Or.inr ⟨rfl, ⟨_, rfl⟩, he, hns, hpend, hden⟩⟩
  | noName => exact ⟨rfl, rfl, rfl, rfl, Or.inl ⟨rfl, rfl⟩⟩
  | iocError => exact ⟨rfl, rfl, rfl, rfl, Or.inl ⟨rfl, rfl⟩⟩
  | hit => exact ⟨rfl, rfl, rfl, rfl, Or.inl ⟨rfl, rfl⟩⟩
  | iocDown => exact ⟨rfl, rfl, rfl, rfl, Or.inl ⟨rfl, rfl⟩⟩
  | nameserverPV => exact ⟨rfl, rfl, rfl, rfl, Or.inl ⟨rfl, rfl⟩⟩
  | pending => exact ⟨rfl, rfl, rfl, rfl, Or.inl ⟨rfl, rfl⟩⟩
  | denied => exact ⟨rfl, rfl, rfl, rfl, Or.inl ⟨rfl, rfl⟩⟩
  | searchFailed => exact ⟨rfl, rfl, rfl, rfl, Or.inl ⟨rfl, rfl⟩⟩

/-- One request counts once on entry, and once more on its way out unless it is `uncounted`. -/
theorem Answered.accounting (h : Answered rx s client pPVName search now s' ret) :
    s'.stats.request = s.stats.request + 1 ∧
      s'.stats.counted = s.stats.counted +
        if s.uncounted rx client pPVName search then 0 else 1 := by
  have hsearches : recordName pPVName ≠ [] → ¬s.searches rx client pPVName = true →
      s.uncounted rx client pPVName search = false := by
    intro hn hs
    rw [uncounted, Bool.eq_false_iff.mpr hs, decide_eq_false hn]
    rfl
  cases h with
  | noName hn => exact ⟨rfl, by simp [uncounted, hn, NsStats.counted]⟩
  | iocError hn he =>
      refine ⟨rfl, ?_⟩
      rw [hsearches hn fun h => by simp [(searches_eq_true_iff.mp h).2.1] at he]
      simp only [NsStats.counted, Bool.false_eq_true, if_false]
      omega
  | hit hn he =>
      refine ⟨rfl, ?_⟩
      rw [hsearches hn fun h => he (searches_eq_true_iff.mp h).2.1]
      simp only [NsStats.counted, Bool.false_eq_true, if_false]
      omega
  | iocDown hn he =>
      refine ⟨rfl, ?_⟩
      rw [hsearches hn fun h => he (searches_eq_true_iff.mp h).2.1]
      simp only [NsStats.counted, Bool.false_eq_true, if_false]
      omega
  | nameserverPV hn he hns =>
      refine ⟨rfl, ?_⟩
      rw [hsearches hn fun h => (searches_eq_true_iff.mp h).2.2.1 hns]
      simp only [NsStats.counted, Bool.false_eq_true, if_false]
      omega
  | pending hn he hns hpend =>
      refine ⟨rfl, ?_⟩
      obtain ⟨nn, hnn, hname⟩ := hpend
      rw [hsearches hn fun h => (searches_eq_true_iff.mp h).2.2.2.1 nn hnn hname]
      simp only [NsStats.counted, Bool.false_eq_true, if_false]
      omega
  | denied hn he hns hpend hden =>
      refine ⟨rfl, ?_⟩
      rw [hsearches hn fun h => by simp [(searches_eq_true_iff.mp h).2.2.2.2] at hden]
      rfl
  | searchFailed hn he hns hpend hden hs =>
      refine ⟨rfl, ?_⟩
      have hsearch : s.searches rx client pPVName = true :=
        searches_eq_true_iff.mpr ⟨hn, he, hns, hpend, hden⟩
      rw [uncounted, hsearch, hs]
      simp [NsStats.counted]
  | searched hn he hns hpend hden hs =>
      refine ⟨rfl, ?_⟩
      have hun : s.uncounted rx client pPVName search = false := by
        simp [uncounted, hn, hs]
      rw [hun]
      simp only [NsStats.counted, Bool.false_eq_true, if_false]
      omega

end Server

/-- The uncounted requests since the last report, after one more event. -/
def nextUncounted (rx : Regex) (s : Server) (k : ℕ) : Event → ℕ
  | .report _ => 0
  | .request client pPVName search _ =>
      if s.uncounted rx client pPVName search then k + 1 else k
  | _ => k

/-- The uncounted requests since the last report, at the end of a run that starts with `k`. -/
def uncountedSince (rx : Regex) (s : Server) (k : ℕ) : List Event → ℕ
  | [] => k
  | e :: es =>
      match handle rx s e with
      | .ok s' => uncountedSince rx s' (nextUncounted rx s k e) es
      | .error _ => k

theorem Handled.accounting {rx : Regex} {s s' : Server} {e : Event} {k : ℕ}
    (h : Handled rx s e s') (hs : s.stats.request = s.stats.counted + k) :
    s'.stats.request = s'.stats.counted + nextUncounted rx s k e := by
  cases h with
  | @request client pPVName search now _ ret ha =>
      obtain ⟨hreq, hcount⟩ := ha.accounting
      rw [hreq, hcount, hs, nextUncounted]
      split_ifs <;> omega
  | purge _ hframe =>
      rw [hframe.stats]
      exact hs
  | report => rfl
  | heartbeatUp => exact hs
  | heartbeatDown => exact hs
  | learnedUp => exact hs
  | learnedDown => exact hs
  | learnedDownFree => exact hs

theorem run_accounting {rx : Regex} {start : Config → Prop} {ok : Server → Event → Prop}
    {s t : Server} {es : List Event} {k : ℕ} (h : Run (nameServer rx start) ok s es t)
    (hwf : s.dir.WF) (hs : s.stats.request = s.stats.counted + k) :
    t.stats.request = t.stats.counted + uncountedSince rx s k es := by
  induction h generalizing k with
  | nil => exact hs
  | cons hok hstep _ ih =>
      have hh := handle_handled hwf hstep.1 hstep.2
      have hnext := ih (hh.wf hwf) (hh.accounting hs)
      rw [uncountedSince, hstep.2]
      exact hnext

/-- **Accounting of requests.**  In every run, `request` is the sum of the outcomes and of the
uncounted requests since the last report; and every request changes nothing but the counters, the
channels, and the pending list by the node of its own search. -/
theorem request_accounting (rx : Regex) (start : Config → Prop) (s₀ s : Server) (es : List Event)
    (hinit : (nameServer rx start).init s₀)
    (hrun : Run (nameServer rx start) (fun _ _ => True) s₀ es s) :
    s.stats.request = s.stats.hit + s.stats.pending + s.stats.iocError + s.stats.iocDown +
        s.stats.broadcast + s.stats.broadcastDenied + uncountedSince rx s₀ 0 es ∧
      ∀ client pPVName search now s' ret,
        s.pvExistTest rx client pPVName search now = .ok (s', ret) →
        s.RequestFrame rx client pPVName now s' := by
  obtain ⟨cfg, -, hs₀, -⟩ := hinit
  have hstats : s₀.stats = NsStats.zero :=
    startup_induct (D := fun _ => True) (P := fun _ s => s.stats = NsStats.zero) hs₀ trivial
      (fun _ _ _ _ _ _ _ => trivial) (fun _ _ _ _ _ => rfl) fun _ _ _ _ _ _ h _ => h
  refine ⟨run_accounting hrun (startup_wf hs₀) (by rw [hstats]; rfl), ?_⟩
  intro client pPVName search now s' ret hans
  exact (Server.pvExistTest_answered hans).frame

/-- A request that hits, one that is broadcast, and one whose search fails. -/
def threeRequests : List Event :=
  [.up 0 (connectionTo "a:1" 1 ""), .request [] "x.VAL".toList .normal 1,
    .request [] "y".toList .normal 2, .request [] "z".toList .failed 3]

set_option maxRecDepth 10000 in
theorem accounting_threeRequests : ∃ s₀ s,
    run literal (fun _ _ => true) oneIoc threeRequests = some s ∧
    s.stats.request = s.stats.hit + s.stats.pending + s.stats.iocError + s.stats.iocDown +
      s.stats.broadcast + s.stats.broadcastDenied + uncountedSince literal s₀ 0 threeRequests := by
  have hrun : (run literal (fun _ _ => true) oneIoc threeRequests).isSome = true := by decide
  obtain ⟨s, hs⟩ := Option.isSome_iff_exists.mp hrun
  have hrun' : ∃ s₀, (nameServer literal fun _ => True).init s₀ ∧
      Run (nameServer literal fun _ => True) (fun _ _ => True) s₀ threeRequests s :=
    run_of_run (fun _ _ _ _ => trivial) trivial hs
  obtain ⟨s₀, hinit, hrun'⟩ := hrun'
  exact ⟨s₀, s, hs, (request_accounting literal _ s₀ s threeRequests hinit hrun').1⟩

set_option maxRecDepth 10000 in
/-- The server's own PVs are looked up under the name as requested, field and all: asked for
`heartbeat.VAL`, it broadcasts a search for its own `heartbeat`. -/
theorem accounting_ownPV : ¬ ∀ (rx : Regex) (start : Config → Prop) (s : Server)
    (client pPVName : Name) (search : CaStatus) (now : ℕ) (s' : Server)
    (ret : Server.PvExistReturn), Reachable (nameServer rx start) (fun _ _ => True) s →
    s.pvExistTest rx client pPVName search now = .ok (s', ret) →
    s'.stats.broadcast = s.stats.broadcast + 1 → Server.recordName pPVName ∉ s.nsResTbl := by
  intro h
  have hrun : (run literal (fun _ _ => true) oneIoc []).any (fun s =>
      match s.pvExistTest literal [] "heartbeat.VAL".toList .normal 0 with
      | .ok (s', _) => decide (s'.stats.broadcast = s.stats.broadcast + 1) &&
          decide (Server.recordName "heartbeat.VAL".toList ∈ s.nsResTbl)
      | .error _ => false) = true := by decide
  obtain ⟨s, hs, hbad⟩ := (Option.any_eq_true _ _).mp hrun
  have hreach : Reachable (nameServer literal fun _ => True) (fun _ _ => True) s :=
    reachable_of_run (fun _ _ _ _ => trivial) trivial hs
  cases hans : s.pvExistTest literal [] "heartbeat.VAL".toList .normal 0 with
  | error f =>
      rw [hans] at hbad
      cases hbad
  | ok r =>
      obtain ⟨s', ret⟩ := r
      rw [hans] at hbad
      rw [Bool.and_eq_true, decide_eq_true_eq, decide_eq_true_eq] at hbad
      exact h _ _ s _ _ _ _ s' ret hreach hans hbad.1 hbad.2

end CaNameserver
