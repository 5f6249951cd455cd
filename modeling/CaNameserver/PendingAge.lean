import CaNameserver.MainLoop
import CaNameserver.SearchAccounts

/-!
# How long a search is pending

The main loop compares the clock with `begin` after every wait, and a purge expires or renews what
has been pending for more than 300 seconds.  A turn of the loop takes as long as it takes: the
wait may last, and so may a purge.  And startup takes its time, too, with a search for each
heartbeat.

## The clock

`Watch` is a history of what has been read off the clock: the latest reading, the reading of the
last turn, and the readings that made a purge due.  `paced` is the condition on the events: the
clock does not go back, and a turn comes at most `D` after the one before it.  `Config.searched`
is the last reading of startup, which reads the clock anew for every heartbeat.

## The invariant

`Main.OnTime` has two kinds of fields.  Some order the readings.  The others bound the age of a
node:

* at the time of the last purge no node had been pending for longer than 300 seconds and `D`,
  since what a purge leaves has not expired (`Server.processPendingList_young`);
* at the last turn a purge was not due, or everything on the list is younger than that turn.

A call enters nodes with the time that it reads, and changes no other (`Handled.nodes`).  A turn
either makes no purge, and then 30 seconds have not passed since the last one, or makes one, and
the list is young again.  Together no node is older than 300 seconds and `D` by the time of the
last purge, 30 seconds until the next is due, and another `D` until that comes.

* `pending_age`: if the clock does not go back and neither the searches of startup nor any turn
  take longer than `D`, no search has been pending for more than 330 seconds and `2 D`; and the
  purges are more than 30 seconds apart.
-/

namespace CaNameserver

open CStr Fallible Transition

/-! ## The clock -/

/-- What has been read off the clock. -/
structure Watch where
  /-- the latest reading -/
  last : ℕ
  /-- the reading of the last turn, or that before the searches of startup -/
  turned : ℕ
  /-- the readings that made a purge due, the latest first -/
  purges : List ℕ
  deriving DecidableEq, Repr

/-- The time a handler reads. -/
def readTime : Event → Option ℕ
  | .down _ now => some now
  | .request _ _ _ now => some now
  | _ => none

/-- What an event adds.  The times at which a purge renews its searches do not matter. -/
def Watch.next (hz : ℕ) (m : Main) (e : MainEvent) (w : Watch) : Watch :=
  match e with
  | .call e => { w with last := (readTime e).getD w.last }
  | .signal _ _ => w
  | .turn now begin _ _ _ _ =>
      if m.begin + purgeTime * hz < now then ⟨begin, now, now :: w.purges⟩
      else ⟨now, now, w.purges⟩

/-- The last reading of startup. -/
def Config.searched (cfg : Config) : ℕ := (cfg.order.map cfg.clock).foldr max cfg.now

theorem Config.now_le_searched (cfg : Config) : cfg.now ≤ cfg.searched := by
  unfold searched
  induction cfg.order with
  | nil => exact Nat.le_refl _
  | cons i order ih => exact ih.trans (Nat.le_max_right _ _)

/-- The main loop and its clock. -/
def watchedLoop (rx : Regex) (hz : ℕ) (cfg : Config) : System (Main × Watch) MainEvent :=
  (mainLoop rx hz cfg).remember (fun _ => ⟨cfg.searched, cfg.now, []⟩) (Watch.next hz)

/-- The clock does not go back, and no turn takes longer than `D`. -/
def paced (hz D : ℕ) (x : Main × Watch) : MainEvent → Bool
  | .call e => (readTime e).all fun t => decide (x.2.last ≤ t ∧ t ≤ x.2.turned + D)
  | .signal _ _ => true
  | .turn now begin _ _ _ _ =>
      decide (x.2.last ≤ now ∧ now ≤ x.2.turned + D) &&
        (!decide (x.1.begin + purgeTime * hz < now) || decide (now ≤ begin ∧ begin ≤ now + D))

/-! ## The purge -/

namespace Server

section Purge

variable {now tooLong : ℕ} {a : CaAnswers} {pg pg' : Purge} {pNN : Namenode} {rest : List Namenode}

/-- The nodes that the iterator has passed have not expired. -/
def Purge.Young (now tooLong : ℕ) (pg : Purge) : Prop := ∀ nn ∈ pg.kept, now ≤ nn.otime + tooLong

theorem Purge.Young.turn (h : pg.Young now tooLong)
    (hturn : purgeTurn now tooLong a pg pNN rest = .ok pg') : pg'.Young now tooLong := by
  rw [purgeTurn] at hturn
  split_ifs at hturn with hold hreb
  · -- a heartbeat is not passed: the loop looks at it again
    simp only [rebroadcast, bind_eq_ok_iff] at hturn
    obtain ⟨ch, -, hturn⟩ := hturn
    split_ifs at hturn
    · cases hturn
      exact h
    · cases hclear : a.clear with
      | failed =>
          simp only [hclear] at hturn
          cases hturn
          exact h
      | normal =>
          cases hs : a.search with
          | failed =>
              simp only [hclear, hs] at hturn
              cases hturn
              exact h
          | normal =>
              simp only [hclear, hs] at hturn
              cases hturn
              exact h
  · simp only [expire, bind_eq_ok_iff] at hturn
    obtain ⟨ch, -, hturn⟩ := hturn
    cases hturn
    exact h
  · cases hturn
    intro nn hnn
    rcases List.mem_cons.mp hnn with rfl | hnn
    · exact Nat.le_of_not_lt hold
    · exact h nn hnn

theorem Purge.Young.loop {answers : List CaAnswers} (h : pg.Young now tooLong)
    (hloop : purgeLoop now tooLong answers pg = .ok pg') : pg'.Young now tooLong :=
  (purgeLoop_rule (P := fun pg => pg.Young now tooLong) hloop h
    fun _ _ _ _ _ _ hturn hP => hP.turn hturn).1

/-- **What a purge leaves has not expired.** -/
theorem processPendingList_young {s s' : Server} {answers : List CaAnswers}
    (h : s.processPendingList now tooLong answers = .ok s') :
    ∀ nn ∈ s'.nameList, now ≤ nn.otime + tooLong := by
  rw [processPendingList, bind_eq_ok_iff] at h
  obtain ⟨pg, hloop, hend⟩ := h
  cases hend
  have hyoung : pg.Young now tooLong := by
    refine Purge.Young.loop ?_ hloop
    intro nn hnn
    cases hnn
  intro nn hnn
  exact hyoung nn (List.mem_reverse.mp hnn)

end Purge

end Server

/-! ## Calls -/

/-- A call enters nodes with the time that it reads, and changes no other. -/
theorem Handled.nodes {rx : Regex} {s s' : Server} {e : Event} (h : Handled rx s e s')
    (hcalled : Main.called e = true) {nn : Namenode} (hnn : nn ∈ s'.nameList) :
    nn ∈ s.nameList ∨ readTime e = some nn.otime := by
  cases h with
  | heartbeatUp => exact Or.inl (List.mem_of_mem_eraseP hnn)
  | learnedUp => exact Or.inl (List.mem_of_mem_eraseP hnn)
  | heartbeatDown =>
      rcases List.mem_cons.mp hnn with rfl | hnn
      · exact Or.inr rfl
      · exact Or.inl hnn
  | learnedDown => exact Or.inl hnn
  | learnedDownFree => exact Or.inl hnn
  | @request client pPVName search now _ ret ha =>
      rcases ha.frame.nameList with ⟨-, hsame⟩ | ⟨-, ⟨chd, hnew⟩, -⟩
      · exact Or.inl (hsame ▸ hnn)
      · rw [hnew] at hnn
        rcases List.mem_cons.mp hnn with rfl | hnn
        · exact Or.inr rfl
        · exact Or.inl hnn
  | purge => cases hcalled
  | report => cases hcalled

/-! ## The invariant -/

/-- What the clock says of the pending list and of the last purge. -/
structure Main.OnTime (hz D : ℕ) (m : Main) (w : Watch) : Prop where
  turned_le : w.turned ≤ w.last
  last_le : w.last ≤ w.turned + D
  begin_le : m.begin ≤ w.last
  /-- a purge is not due, or nothing is older than the loop -/
  turned : w.turned ≤ m.begin + purgeTime * hz ∨ ∀ nn ∈ m.server.nameList, w.turned ≤ nn.otime
  age : ∀ nn ∈ m.server.nameList, m.begin ≤ nn.otime + tooLong * hz + D
  purges_le : ∀ t ∈ w.purges, t ≤ m.begin
  spaced : w.purges.Pairwise fun later earlier => earlier + purgeTime * hz < later

section OnTime

variable {rx : Regex} {hz D : ℕ} {cfg : Config} {m m' : Main} {w : Watch} {e : MainEvent}

theorem Main.OnTime.pending (h : m.OnTime hz D w) :
    ∀ nn ∈ m.server.nameList, w.last ≤ nn.otime + (purgeTime + tooLong) * hz + 2 * D := by
  intro nn hnn
  have hage := h.age nn hnn
  have hlast := h.last_le
  rw [Nat.add_mul]
  rcases h.turned with hturned | hturned
  · omega
  · have hold := hturned nn hnn
    omega

/-- A call, at a time that the clock can show. -/
theorem Main.OnTime.call (h : m.OnTime hz D w) {e : Event} {s : Server}
    (hnodes : ∀ nn ∈ s.nameList, nn ∈ m.server.nameList ∨ readTime e = some nn.otime)
    (hpaced : paced hz D (m, w) (.call e) = true) :
    OnTime hz D { m with server := s } (w.next hz m (.call e)) := by
  have hread : ∀ t, readTime e = some t → w.last ≤ t ∧ t ≤ w.turned + D := by
    intro t ht
    rw [paced, ht] at hpaced
    exact of_decide_eq_true hpaced
  have hle : w.last ≤ (readTime e).getD w.last ∧ (readTime e).getD w.last ≤ w.turned + D := by
    cases ht : readTime e with
    | none => exact ⟨Nat.le_refl _, h.last_le⟩
    | some t => exact hread t ht
  refine
    { turned_le := h.turned_le.trans hle.1
      last_le := hle.2
      begin_le := h.begin_le.trans hle.1
      turned := ?_
      age := ?_
      purges_le := h.purges_le
      spaced := h.spaced }
  · refine h.turned.imp_right fun hold nn hnn => ?_
    rcases hnodes nn hnn with hnn | ht
    · exact hold nn hnn
    · exact h.turned_le.trans (hread _ ht).1
  · intro nn hnn
    rcases hnodes nn hnn with hnn | ht
    · exact h.age nn hnn
    · have hbegin := h.begin_le.trans (hread _ ht).1
      show m.begin ≤ nn.otime + tooLong * hz + D
      omega

/-- A turn, up to its end. -/
theorem Main.OnTime.turn (h : m.OnTime hz D w) {now begin : ℕ} {answers : List Server.CaAnswers}
    {neverLog : Bool} {iocs : List IocId} {pvEs : List PvEId}
    (hturned : Turned hz m now begin answers m')
    (hpaced : paced hz D (m, w) (.turn now begin answers neverLog iocs pvEs) = true) :
    m'.OnTime hz D (w.next hz m (.turn now begin answers neverLog iocs pvEs)) := by
  rw [paced, Bool.and_eq_true, decide_eq_true_eq, Bool.or_eq_true, decide_eq_true_eq,
    Bool.not_eq_true', decide_eq_false_iff_not] at hpaced
  obtain ⟨⟨hlast, hlong⟩, hbegin⟩ := hpaced
  have hold := h.begin_le
  cases hturned with
  | @purged server hdue hpurge =>
      obtain ⟨hle, hge⟩ := hbegin.resolve_left (not_not_intro hdue)
      have hyoung := Server.processPendingList_young hpurge
      rw [Watch.next, if_pos hdue]
      exact
        { turned_le := hle
          last_le := hge
          begin_le := Nat.le_refl _
          turned := Or.inl (Nat.le_add_right_of_le hle)
          age := fun nn hnn => hge.trans (Nat.add_le_add_right (hyoung nn hnn) D)
          purges_le := by
            intro t ht
            rcases List.mem_cons.mp ht with rfl | ht
            · exact hle
            · exact (h.purges_le t ht).trans (hold.trans (hlast.trans hle))
          spaced := by
            refine List.pairwise_cons.mpr ⟨fun t ht => ?_, h.spaced⟩
            have ht' := h.purges_le t ht
            omega }
  | early hdue =>
      rw [Watch.next, if_neg (Nat.not_lt.mpr hdue)]
      exact
        { turned_le := Nat.le_refl _
          last_le := Nat.le_add_right now D
          begin_le := hold.trans hlast
          turned := Or.inl hdue
          age := h.age
          purges_le := h.purges_le
          spaced := h.spaced }

/-- After the end nothing is pending. -/
theorem Main.OnTime.ended (h : m.OnTime hz D w) {s : Server} {iocs : List IocId}
    {pvEs : List PvEId} (hs : m.server.reported.destroy iocs pvEs = .ok s) :
    OnTime hz D { m with server := s, returned := true } w := by
  have hnil : s.nameList = [] := by
    simp only [Server.destroy, bind_eq_ok_iff] at hs
    obtain ⟨_, -, _, -, hs⟩ := hs
    cases hs
    rfl
  have hempty : ∀ P : Namenode → Prop, ∀ nn ∈ s.nameList, P nn := by
    intro P nn hnn
    rw [hnil] at hnn
    cases hnn
  exact ⟨h.turned_le, h.last_le, h.begin_le, Or.inr (hempty _), hempty _, h.purges_le, h.spaced⟩

/-- **What an event does to the clock's invariant.** -/
theorem Main.OnTime.next (h : m.OnTime hz D w) (hwf : m.returned = false → m.server.dir.WF)
    (hpaced : paced hz D (m, w) e = true) (hen : m.Enabled e) (hnext : m.next rx hz e = .ok m') :
    m'.OnTime hz D (w.next hz m e) := by
  cases e with
  | call e =>
      obtain ⟨hret, hcalled, henabled⟩ := hen
      obtain ⟨s, hs, hend⟩ := bind_eq_ok_iff.mp hnext
      cases hend
      have hh := handle_handled (hwf hret) henabled hs
      exact h.call (fun nn hnn => hh.nodes hcalled hnn) hpaced
  | signal sig neverLog =>
      cases sig with
      | usr1 =>
          obtain ⟨s, hs, hend⟩ := bind_eq_ok_iff.mp hnext
          obtain ⟨-, rfl⟩ := Server.showReport_eq_ok_iff.mp hs
          cases hend
          exact ⟨h.turned_le, h.last_le, h.begin_le, h.turned, h.age, h.purges_le, h.spaced⟩
      | _ =>
          cases hnext
          exact ⟨h.turned_le, h.last_le, h.begin_le, h.turned, h.age, h.purges_le, h.spaced⟩
  | turn now begin answers neverLog iocs pvEs =>
      obtain ⟨m₁, hturned, ⟨-, rfl⟩ | ⟨-, -, s, hs, rfl⟩⟩ := Main.next_turn hnext
      · exact h.turn hturned hpaced
      · exact (h.turn hturned hpaced).ended hs

/-- What is pending after startup has been so since startup. -/
theorem startup_otime {s : Server} (h : startup rx cfg = .ok s) :
    ∀ nn ∈ s.nameList, cfg.now ≤ nn.otime := by
  refine startup_induct (D := fun _ => True) (P := fun _ s => ∀ nn ∈ s.nameList, cfg.now ≤ nn.otime) h
    trivial (fun _ _ _ _ _ _ _ => trivial) (fun _ _ _ _ _ nn hnn => by cases hnn) ?_
  intro pre i post s p _ hs _ nn hnn
  rcases List.mem_cons.mp hnn with rfl | hnn
  · exact Nat.le_add_right _ _
  · exact hs nn hnn

/-- **How long a search is pending.**  If the clock does not go back, and neither the searches of
startup nor any turn take longer than `D`, no search has been pending for more than 330 seconds
and `2 D`, whatever has happened, and any two purges began more than 30 seconds apart. -/
theorem pending_age (rx : Regex) (hz D : ℕ) (cfg : Config) (hstart : cfg.searched ≤ cfg.now + D)
    {m : Main} {w : Watch}
    (h : Reachable (watchedLoop rx hz cfg) (fun x e => paced hz D x e = true) (m, w)) :
    (∀ nn ∈ m.server.nameList, w.last ≤ nn.otime + (purgeTime + tooLong) * hz + 2 * D) ∧
      w.purges.Pairwise fun later earlier => earlier + purgeTime * hz < later := by
  have hall : m.OnTime hz D w := by
    refine Reachable.remembered_of (fun _ _ => True) (I := Main.OnTime hz D)
      (J := fun m => m.returned = false → m.server.dir.WF) h (fun _ _ _ => trivial) ?_ ?_ ?_
    · intro m hm hret
      exact reachable_wf (Main.reachable_server (fun _ _ => True) hm hret
        fun _ _ _ _ _ => trivial)
    · rintro m ⟨hs, -, hbegin, -⟩ -
      have hotime := startup_otime hs
      exact
        { turned_le := cfg.now_le_searched
          last_le := hstart
          begin_le := hbegin.trans cfg.now_le_searched
          turned := Or.inr hotime
          age := fun nn hnn => by
            rw [Nat.add_assoc]
            exact Nat.le_add_right_of_le (hbegin.trans (hotime nn hnn))
          purges_le := fun t ht => by cases ht
          spaced := List.Pairwise.nil }
    · rintro m e m' w hwf hI hpaced ⟨hen, hnext⟩
      exact hI.next hwf hpaced hen hnext
  exact ⟨hall.pending, hall.spaced⟩

end OnTime

/-! ## A run -/

/-- An event that can happen before a signal has told the loop to end. -/
def Main.enabledNow (m : Main) : MainEvent → Bool
  | .call e => !m.returned && called e && enabled m.server e
  | .signal _ _ => !m.returned
  | .turn _ _ _ _ _ _ => !m.returned && !m.outtaHere

theorem Main.Enabled.of_enabledNow {m : Main} {e : MainEvent} (h : m.enabledNow e = true) :
    m.Enabled e := by
  cases e with
  | call e =>
      simp only [enabledNow, Bool.and_eq_true, Bool.not_eq_true'] at h
      exact ⟨h.1.1, h.1.2, h.2⟩
  | signal sig neverLog =>
      rw [enabledNow, Bool.not_eq_true'] at h
      exact h
  | turn now begin answers neverLog iocs pvEs =>
      simp only [enabledNow, Bool.and_eq_true, Bool.not_eq_true'] at h
      refine ⟨h.1, fun htold => ?_⟩
      rw [htold] at h
      cases h.2

/-- One event, if it can happen. -/
def watchedNext (rx : Regex) (hz D : ℕ) (x : Main × Watch) (e : MainEvent) : Option (Main × Watch) :=
  if x.1.enabledNow e && paced hz D x e then
    (x.1.next rx hz e).toOption.map fun m => (m, x.2.next hz x.1 e)
  else none

theorem step_of_watchedNext {rx : Regex} {hz D : ℕ} {cfg : Config} {x y : Main × Watch}
    {e : MainEvent} (h : watchedNext rx hz D x e = some y) :
    paced hz D x e = true ∧ (watchedLoop rx hz cfg).step x e y := by
  obtain ⟨hcond, hy⟩ := Option.ite_none_right_eq_some.mp h
  rw [Bool.and_eq_true] at hcond
  obtain ⟨m, hm, rfl⟩ := Option.map_eq_some_iff.mp hy
  exact ⟨hcond.2, ⟨.of_enabledNow hcond.1, toOption_eq_some_iff.mp hm⟩, rfl⟩

/-- Two purges, and a search that is younger than both of them. -/
def twoTurns : List MainEvent :=
  [.call (.up 0 (connectionTo "a:1" 1 "")), .call (.up 1 (connectionTo "c:3" 3 "")),
    .turn 31 32 [] true [] [], .call (.request [] "y".toList .normal 40),
    .turn 63 64 [⟨0, .normal, .normal, 64⟩] true [] []]

theorem pending_age_twoTurns : ∃ m w, Reachable (watchedLoop literal 1 twoIocs)
      (fun x e => paced 1 40 x e = true) (m, w) ∧
    (m.server.nameList.map Namenode.otime, w) = ([40], ⟨64, 63, [63, 31]⟩) ∧
    (∀ nn ∈ m.server.nameList, w.last ≤ nn.otime + (purgeTime + tooLong) * 1 + 2 * 40) ∧
    w.purges.Pairwise fun later earlier => earlier + purgeTime * 1 < later := by
  have hrun : (startup literal twoIocs).toOption.any (fun s => visits s.dir twoIocs.order &&
      (twoTurns.foldlM (watchedNext literal 1 40)
        (⟨s, 0, false, false, false⟩, ⟨twoIocs.searched, twoIocs.now, []⟩)).any fun x =>
          decide ((x.1.server.nameList.map Namenode.otime, x.2) = ([40], ⟨64, 63, [63, 31]⟩))) =
      true := by
    set_option maxRecDepth 10000 in decide
  obtain ⟨s, hs, h⟩ := (Option.any_eq_true _ _).mp hrun
  obtain ⟨hvisits, h⟩ := Bool.and_eq_true_iff.mp h
  obtain ⟨⟨m, w⟩, hmw, hend⟩ := (Option.any_eq_true _ _).mp h
  have hstart := toOption_eq_some_iff.mp hs
  have hinit : (watchedLoop literal 1 twoIocs).init
      (⟨s, 0, false, false, false⟩, ⟨twoIocs.searched, twoIocs.now, []⟩) :=
    ⟨⟨hstart, (startup_wf hstart).visits_of_visits hvisits, Nat.zero_le _, rfl, rfl, rfl⟩, rfl⟩
  have hreach : Reachable (watchedLoop literal 1 twoIocs) (fun x e => paced 1 40 x e = true) (m, w) :=
    ⟨_, _, hinit, .of_foldlM (fun _ _ _ => step_of_watchedNext) hmw⟩
  exact ⟨m, w, hreach, of_decide_eq_true hend, pending_age literal 1 40 twoIocs (by decide) hreach⟩

end CaNameserver
