import CaNameserver.Lib.History
import CaNameserver.Shutdown

/-!
# The main loop

`main` waits for requests and for the callbacks of the channel access library, looks at the clock
after every wait, and purges the pending list if the last purge began more than 30 seconds ago.
Signals set flags; `outta_here` ends the loop after the turn that is under way, and then `main`
reports, deletes the server and returns.

## The loop

`Main` has the server, the time of the last purge, the flags, and whether `main` has returned.
Its events are the calls of the server, signals, and turns.  A turn comes with all that it depends
on: the clock before and after, the answers of the library in the purge, whether `never.log` can
be opened, and the order in which the hash tables hand out their entries.  A signal that comes
while the server is at work is handled when the call is over.

A report opens `never.log`, writes to it and closes it, and does not look at the result of the
open; so where the file cannot be opened the report is an access to a null pointer
(`Fault.nullFile`), in the handler of a signal as well as at the end.

## The server in the loop

Until `main` returns, the runs of the loop are runs of `nameServer` (`Main.reachable_server`), so
that what is proved of those runs holds here.  Conversely, what requests and callbacks lead the
server to, they lead it to here (`Main.reachable_of_server`).  A turn is a purge that is due, or
nothing (`Main.Turned`), and then the end if it has been told.

* `main_returns`: `main` returns only when a signal has told it to, and leaves nothing behind; and
  when it has been told it does return, unless a purge does not come back or the last report
  fails.

Times are in ticks, `hz` to the second.
-/

namespace CaNameserver

open CStr Fallible Transition

/-! ## The loop -/

/-- `purgeTime`, in seconds. -/
def purgeTime : ℕ := 30

/-- `tooLong`, in seconds. -/
def tooLong : ℕ := 300

/-- The variables of `main` and the flags that the signal handler sets. -/
structure Main where
  server : Server
  begin : ℕ
  outtaHere : Bool
  startNewLog : Bool
  returned : Bool

/-- The signals that `directoryServer` handles. -/
inductive Signal where
  | usr1
  | usr2
  | term
  | int
  deriving DecidableEq, Repr

/-- What happens to `main`. -/
inductive MainEvent where
  /-- `fileDescriptorManager.process` or `ca_pend_event` calls the server -/
  | call (e : Event)
  /-- for the report of `SIGUSR1`, whether `never.log` can be opened -/
  | signal (sig : Signal) (neverLog : Bool)
  /-- the rest of the turn: the time as it is read, and as it is read again for `begin`; what the
  library answers to the purge; and if this is the end, whether `never.log` can be opened, and the
  orders of the hash tables -/
  | turn (now begin : ℕ) (answers : List Server.CaAnswers) (neverLog : Bool) (iocs : List IocId)
      (pvEs : List PvEId)

namespace Main

/-- `sigusr1`, the handler of all four signals. -/
def sigusr1 (m : Main) (neverLog : Bool) : Signal → Except Fault Main
  | .usr2 => return { m with startNewLog := true }
  | .term => return { m with outtaHere := true }
  | .int => return { m with outtaHere := true }
  | .usr1 => do
      let server ← m.server.showReport neverLog
      return { m with server := server }

/-- The purge, if it is time for it. -/
def purgeIfDue (hz : ℕ) (m : Main) (now begin : ℕ) (answers : List Server.CaAnswers) :
    Except Fault Main :=
  if m.begin + purgeTime * hz < now then do
    let server ← m.server.processPendingList now (tooLong * hz) answers
    return { m with server := server, begin := begin }
  else return m

/-- `pCAS->show(2u)`, `delete pCAS` and `return`, once the loop has ended. -/
def exitIfTold (m : Main) (neverLog : Bool) (iocs : List IocId) (pvEs : List PvEId) :
    Except Fault Main :=
  if m.outtaHere then do
    let server ← m.server.showReport neverLog
    let server ← server.destroy iocs pvEs
    return { m with server := server, returned := true }
  else return m

/-- The server is called only for requests and callbacks. -/
def called : Event → Bool
  | .up _ _ => true
  | .down _ _ => true
  | .request _ _ _ _ => true
  | .purge _ _ _ => false
  | .report _ => false

/-- One event. -/
def next (rx : Regex) (hz : ℕ) (m : Main) : MainEvent → Except Fault Main
  | .call e => do
      let server ← handle rx m.server e
      return { m with server := server }
  | .signal sig neverLog => m.sigusr1 neverLog sig
  | .turn now begin answers neverLog iocs pvEs => do
      -- the log file that `start_new_log` asks for is begun here
      let m ← purgeIfDue hz { m with startNewLog := false } now begin answers
      m.exitIfTold neverLog iocs pvEs

/-- The events that can happen: none after `main` has returned.  At the end, the hash tables have an
order. -/
def Enabled (m : Main) : MainEvent → Prop
  | .call e => m.returned = false ∧ called e = true ∧ enabled m.server e = true
  | .signal _ _ => m.returned = false
  | .turn _ _ _ _ iocs pvEs =>
      m.returned = false ∧
        (m.outtaHere = true → Visits m.server.dir iocs ∧ VisitsPvEs m.server.dir pvEs)

end Main

/-- The main loop, from the end of startup on. -/
def mainLoop (rx : Regex) (hz : ℕ) (cfg : Config) : System Main MainEvent where
  init m := startup rx cfg = .ok m.server ∧ Visits m.server.dir cfg.order ∧ m.begin ≤ cfg.now ∧
    m.outtaHere = false ∧ m.startNewLog = false ∧ m.returned = false
  step m e m' := m.Enabled e ∧ m.next rx hz e = .ok m'

/-! ## The loop runs the server -/

/-- The event of the server that an event of the loop is. -/
def Main.event (hz : ℕ) (m : Main) : MainEvent → Option Event
  | .call e => some e
  | .signal .usr1 neverLog => some (.report neverLog)
  | .signal _ _ => none
  | .turn now _ answers _ _ _ =>
      if m.begin + purgeTime * hz < now then some (.purge now (tooLong * hz) answers) else none

section Loop

variable {rx : Regex} {hz : ℕ} {cfg : Config} {m m' : Main} {e : MainEvent}

/-- What a turn does, before the loop may end. -/
inductive Main.Turned (hz : ℕ) (m : Main) (now begin : ℕ) (answers : List Server.CaAnswers) :
    Main → Prop
  | purged {server : Server} (hdue : m.begin + purgeTime * hz < now)
      (h : m.server.processPendingList now (tooLong * hz) answers = .ok server) :
      Turned hz m now begin answers
        { m with server := server, begin := begin, startNewLog := false }
  | early (hdue : now ≤ m.begin + purgeTime * hz) :
      Turned hz m now begin answers { m with startNewLog := false }

theorem Main.purgeIfDue_turned {now begin : ℕ} {answers : List Server.CaAnswers}
    (h : purgeIfDue hz { m with startNewLog := false } now begin answers = .ok m') :
    Turned hz m now begin answers m' := by
  unfold purgeIfDue at h
  split_ifs at h with hdue
  · obtain ⟨server, hserver, hend⟩ := bind_eq_ok_iff.mp h
    cases hend
    exact .purged hdue hserver
  · cases h
    exact .early (Nat.le_of_not_lt hdue)

/-- What a report leaves. -/
def Server.reported (s : Server) : Server := { s with stats := NsStats.zero }

/-- A turn, to its end. -/
theorem Main.next_turn {now begin : ℕ} {answers : List Server.CaAnswers} {neverLog : Bool}
    {iocs : List IocId} {pvEs : List PvEId}
    (h : m.next rx hz (.turn now begin answers neverLog iocs pvEs) = .ok m') :
    ∃ m₁, Turned hz m now begin answers m₁ ∧
      (m.outtaHere = false ∧ m' = m₁ ∨ m.outtaHere = true ∧ neverLog = true ∧ ∃ server,
        m₁.server.reported.destroy iocs pvEs = .ok server ∧
        m' = { m₁ with server := server, returned := true }) := by
  rw [next, bind_eq_ok_iff] at h
  obtain ⟨m₁, hpurge, hexit⟩ := h
  have hturned := purgeIfDue_turned hpurge
  have hflag : m₁.outtaHere = m.outtaHere := by cases hturned <;> rfl
  refine ⟨m₁, hturned, ?_⟩
  unfold exitIfTold at hexit
  split_ifs at hexit with htold
  · obtain ⟨shown, hshown, hexit⟩ := bind_eq_ok_iff.mp hexit
    obtain ⟨hlog, rfl⟩ := Server.showReport_eq_ok_iff.mp hshown
    obtain ⟨server, hserver, hend⟩ := bind_eq_ok_iff.mp hexit
    cases hend
    exact Or.inr ⟨hflag ▸ htold, hlog, server, hserver, rfl⟩
  · cases hexit
    exact Or.inl ⟨hflag ▸ Bool.eq_false_iff.mpr htold, rfl⟩

/-- What a turn does to the server is what the purge does, or nothing. -/
theorem Main.Turned.server {now begin : ℕ} {answers : List Server.CaAnswers}
    (h : Turned hz m now begin answers m') (rx : Regex) (neverLog : Bool) (iocs : List IocId)
    (pvEs : List PvEId) :
    m'.server = m.server ∧ m.event hz (.turn now begin answers neverLog iocs pvEs) = none ∨
      handle rx m.server (.purge now (tooLong * hz) answers) = .ok m'.server ∧
        m.event hz (.turn now begin answers neverLog iocs pvEs) =
          some (.purge now (tooLong * hz) answers) := by
  cases h with
  | purged hdue h => exact Or.inr ⟨h, if_pos hdue⟩
  | early hdue => exact Or.inl ⟨rfl, if_neg (Nat.not_lt.mpr hdue)⟩

theorem Main.sigusr1_returned {sig : Signal} {neverLog : Bool}
    (h : m.sigusr1 neverLog sig = .ok m') : m'.returned = m.returned := by
  cases sig with
  | usr1 =>
      obtain ⟨server, -, hend⟩ := bind_eq_ok_iff.mp h
      cases hend
      rfl
  | _ =>
      cases h
      rfl

/-- **The loop runs the server.**  Until it returns, the server of `main` is in a state that a run
of the name server leads to. -/
theorem Main.reachable_server {ok : Main → MainEvent → Prop} (okS : Server → Event → Prop)
    (h : Reachable (mainLoop rx hz cfg) ok m) (hret : m.returned = false)
    (hok : ∀ m e f, ok m e → m.event hz e = some f → okS m.server f) :
    Reachable (nameServer rx (· = cfg)) okS m.server := by
  have hall : m.returned = false → Reachable (nameServer rx (· = cfg)) okS m.server := by
    refine h.invariant (I := fun m => m.returned = false →
      Reachable (nameServer rx (· = cfg)) okS m.server) ?_ ?_
    · rintro m ⟨hs, hvisits, -⟩ -
      exact ⟨m.server, [], ⟨cfg, rfl, hs, hvisits⟩, .nil _⟩
    · rintro m e m' hm hoke ⟨hen, hnext⟩ hret'
      have hstep : ∀ f s, m.event hz e = some f → m.returned = false → enabled m.server f = true →
          handle rx m.server f = .ok s → Reachable (nameServer rx (· = cfg)) okS s := by
        intro f s hf hret henf hs
        exact (hm hret).run (.cons (hok m e f hoke hf) ⟨henf, hs⟩ (.nil _))
      cases e with
      | call f =>
          obtain ⟨hret, -, henf⟩ := hen
          obtain ⟨s, hs, hend⟩ := bind_eq_ok_iff.mp hnext
          cases hend
          exact hstep f s rfl hret henf hs
      | signal sig neverLog =>
          cases sig with
          | usr1 =>
              obtain ⟨server, hserver, hend⟩ := bind_eq_ok_iff.mp hnext
              cases hend
              exact hstep (.report neverLog) _ rfl hen rfl hserver
          | usr2 =>
              cases hnext
              exact hm hen
          | term =>
              cases hnext
              exact hm hen
          | int =>
              cases hnext
              exact hm hen
      | turn now begin answers neverLog iocs pvEs =>
          obtain ⟨m₁, hturned, ⟨-, rfl⟩ | ⟨-, -, server, -, rfl⟩⟩ := next_turn hnext
          · rcases hturned.server rx neverLog iocs pvEs with
              ⟨hsame, -⟩ | ⟨hpurge, hevent⟩
            · rw [hsame]
              exact hm hen.1
            · exact hstep _ _ hevent hen.1 rfl hpurge
          · cases hret'
  exact hall hret

/-- **Requests and callbacks are calls.** -/
theorem Main.reachable_of_server (hz : ℕ) (ok : Main → MainEvent → Prop)
    {okS : Server → Event → Prop} {s : Server} (h : Reachable (nameServer rx (· = cfg)) okS s)
    (hcalled : ∀ s e, okS s e → called e = true)
    (hok : ∀ m e, okS m.server e → ok m (.call e)) :
    ∃ m, Reachable (mainLoop rx hz cfg) ok m ∧ m.server = s ∧ m.begin = cfg.now ∧
      m.outtaHere = false ∧ m.returned = false := by
  refine h.invariant (I := fun s => ∃ m, Reachable (mainLoop rx hz cfg) ok m ∧ m.server = s ∧
    m.begin = cfg.now ∧ m.outtaHere = false ∧ m.returned = false) ?_ ?_
  · rintro s ⟨cfg', rfl, hs, hvisits⟩
    have hinit : (mainLoop rx hz cfg').init ⟨s, cfg'.now, false, false, false⟩ :=
      ⟨hs, hvisits, Nat.le_refl _, rfl, rfl, rfl⟩
    exact ⟨_, ⟨_, [], hinit, .nil _⟩, rfl, rfl, rfl, rfl⟩
  · rintro s e t ⟨m, hm, rfl, hbegin, htold, hret⟩ hoke ⟨hen, hs⟩
    have hnext : m.next rx hz (.call e) = .ok { m with server := t } := by
      rw [next, hs]
      rfl
    have hstep : (mainLoop rx hz cfg).step m (.call e) { m with server := t } :=
      ⟨⟨hret, hcalled _ e hoke, hen⟩, hnext⟩
    exact ⟨_, hm.run (.cons (hok m e hoke) hstep (.nil _)), rfl, hbegin, htold, hret⟩

/-! ## The end -/

/-- No learned server goes by the name of a loaded IOC. -/
def Main.noNamesake (m : Main) : MainEvent → Bool
  | .call e => CaNameserver.noNamesake m.server e
  | _ => true

theorem Main.noNamesake_event (h : m.noNamesake e = true) {f : Event} (hf : m.event hz e = some f) :
    CaNameserver.noNamesake m.server f = true := by
  cases e with
  | call e =>
      cases hf
      exact h
  | signal sig neverLog =>
      cases sig with
      | usr1 =>
          cases hf
          rfl
      | usr2 => cases hf
      | term => cases hf
      | int => cases hf
  | turn now begin answers neverLog iocs pvEs =>
      change (if m.begin + purgeTime * hz < now then some (Event.purge now (tooLong * hz) answers)
        else none) = some f at hf
      split_ifs at hf
      cases hf
      rfl

/-- The destructor at the end of a turn. -/
theorem Main.Turned.destroy {now begin : ℕ} {answers : List Server.CaAnswers} {m₁ : Main}
    {iocs : List IocId} {pvEs : List PvEId} (h : Turned hz m now begin answers m₁)
    (hreach : Reachable (nameServer rx (· = cfg))
      (fun s e => CaNameserver.noNamesake s e = true) m.server)
    (hiocs : Visits m.server.dir iocs) (hpvEs : VisitsPvEs m.server.dir pvEs) :
    ∃ t, m₁.server.reported.destroy iocs pvEs = .ok t ∧ t.Cleared := by
  have hdir : m₁.server.dir = m.server.dir := by
    cases h with
    | purged _ h => exact (Server.processPendingList_frame h).dir
    | early => rfl
  have hreach₁ : Reachable (nameServer rx (· = cfg))
      (fun s e => CaNameserver.noNamesake s e = true) m₁.server := by
    rcases h.server rx true iocs pvEs with ⟨hsame, -⟩ | ⟨hpurge, -⟩
    · rw [hsame]
      exact hreach
    · exact hreach.run (.cons rfl ⟨rfl, hpurge⟩ (.nil _))
  have hreach₂ : Reachable (nameServer rx (· = cfg))
      (fun s e => CaNameserver.noNamesake s e = true) m₁.server.reported :=
    hreach₁.run (.cons (e := .report true) rfl ⟨rfl, rfl⟩ (.nil _))
  refine destroy_clean hreach₂ ?_ ?_
  · show Visits m₁.server.dir iocs
    rw [hdir]
    exact hiocs
  · show VisitsPvEs m₁.server.dir pvEs
    rw [hdir]
    exact hpvEs

/-- **The end of `main`.**  In every run in which no learned server goes by the name of a loaded
IOC, `main` has returned only if a signal has told it to, and has then deleted everything; and
when it has been told to, and a purge that is due comes back, it returns at the end of the turn if
it can open `never.log`, and otherwise follows the null pointer that `show` does not look at. -/
theorem main_returns (rx : Regex) (hz : ℕ) (cfg : Config) {m : Main}
    (h : Reachable (mainLoop rx hz cfg) (fun m e => m.noNamesake e = true) m) :
    (m.returned = true → m.outtaHere = true ∧ m.server.Cleared) ∧
      (m.outtaHere = true → ∀ now begin answers neverLog iocs pvEs,
        m.Enabled (.turn now begin answers neverLog iocs pvEs) →
        (m.begin + purgeTime * hz < now →
          ∃ s, m.server.processPendingList now (tooLong * hz) answers = .ok s) →
        (neverLog = true → ∃ m', m.next rx hz (.turn now begin answers neverLog iocs pvEs) = .ok m' ∧
          m'.returned = true) ∧
        (neverLog = false →
          m.next rx hz (.turn now begin answers neverLog iocs pvEs) = .error .nullFile)) := by
  have hserver : ∀ m, Reachable (mainLoop rx hz cfg) (fun m e => m.noNamesake e = true) m →
      m.returned = false → Reachable (nameServer rx (· = cfg))
        (fun s e => CaNameserver.noNamesake s e = true) m.server :=
    fun m hm hret => Main.reachable_server _ hm hret fun _ _ _ hns hf => Main.noNamesake_event hns hf
  refine ⟨?_, ?_⟩
  · have hall : Reachable (mainLoop rx hz cfg) (fun m e => m.noNamesake e = true) m ∧
        (m.returned = true → m.outtaHere = true ∧ m.server.Cleared) := by
      refine h.invariant (I := fun m => Reachable (mainLoop rx hz cfg)
        (fun m e => m.noNamesake e = true) m ∧
          (m.returned = true → m.outtaHere = true ∧ m.server.Cleared)) ?_ ?_
      · intro m hinit
        refine ⟨⟨m, [], hinit, .nil m⟩, fun hret => ?_⟩
        obtain ⟨-, -, -, -, -, hfalse⟩ := hinit
        rw [hfalse] at hret
        cases hret
      · rintro m e m' ⟨hm, -⟩ hok ⟨hen, hnext⟩
        refine ⟨hm.run (.cons hok ⟨hen, hnext⟩ (.nil m')), fun hret => ?_⟩
        cases e with
        | call f =>
            obtain ⟨s, -, hend⟩ := bind_eq_ok_iff.mp hnext
            cases hend
            rw [hen.1] at hret
            cases hret
        | signal sig neverLog =>
            have hsame : m'.returned = m.returned := Main.sigusr1_returned hnext
            rw [hsame, hen] at hret
            cases hret
        | turn now begin answers neverLog iocs pvEs =>
            obtain ⟨hfalse, hvisits⟩ := hen
            obtain ⟨m₁, hturned, ⟨-, rfl⟩ | ⟨htold, -, server, hdestroy, rfl⟩⟩ := Main.next_turn hnext
            · have hsame : m'.returned = m.returned := by cases hturned <;> rfl
              rw [hsame, hfalse] at hret
              cases hret
            · obtain ⟨hiocs, hpvEs⟩ := hvisits htold
              obtain ⟨t, ht, hclear⟩ := hturned.destroy (hserver m hm hfalse) hiocs hpvEs
              rw [hdestroy] at ht
              cases ht
              have hflag : m₁.outtaHere = m.outtaHere := by cases hturned <;> rfl
              exact ⟨hflag.trans htold, hclear⟩
    exact hall.2
  · rintro htold now begin answers neverLog iocs pvEs ⟨hret, hvisits⟩ hpurge
    obtain ⟨hiocs, hpvEs⟩ := hvisits htold
    obtain ⟨m₁, hm₁⟩ : ∃ m₁,
        Main.purgeIfDue hz { m with startNewLog := false } now begin answers = .ok m₁ := by
      unfold Main.purgeIfDue
      split_ifs with hdue
      · obtain ⟨s, hs⟩ := hpurge hdue
        exact ⟨_, bind_eq_ok_iff.mpr ⟨s, hs, rfl⟩⟩
      · exact ⟨_, rfl⟩
    have hturned := Main.purgeIfDue_turned hm₁
    have hflag : m₁.outtaHere = m.outtaHere := by cases hturned <;> rfl
    constructor
    · rintro rfl
      obtain ⟨t, ht, -⟩ := hturned.destroy (hserver m h hret) hiocs hpvEs
      refine ⟨{ m₁ with server := t, returned := true }, bind_eq_ok_iff.mpr ⟨m₁, hm₁, ?_⟩, rfl⟩
      unfold Main.exitIfTold
      rw [if_pos (hflag.trans htold)]
      exact bind_eq_ok_iff.mpr ⟨_, Server.showReport_eq_ok_iff.mpr ⟨rfl, rfl⟩,
        bind_eq_ok_iff.mpr ⟨t, ht, rfl⟩⟩
    · rintro rfl
      refine bind_eq_error_iff.mpr (Or.inr ⟨m₁, hm₁, ?_⟩)
      unfold Main.exitIfTold
      rw [if_pos (hflag.trans htold)]
      rfl

end Loop

/-- SIGTERM, with a PV of the other IOC still on its way from an IOC that is down. -/
theorem main_returns_rebootB : ∃ m m', Reachable (mainLoop literal 1 twoIocs)
      (fun m e => m.noNamesake e = true) m ∧ m.outtaHere = true ∧
    m.next literal 1 (.turn 3 3 [] true [1, 0] [2, 0, 3]) = .ok m' ∧ m'.returned = true ∧
    m'.server.Cleared := by
  let okS : Server → Event → Bool := fun s e => Main.called e && noNamesake s e
  have hrun : (run literal okS twoIocs (bothUp ++ [.down 0 2, .down 1 2, rebootB])).any
      (fun s => visits s.dir [1, 0] && visitsPvEs s.dir [2, 0, 3]) = true := by
    set_option maxRecDepth 10000 in decide
  obtain ⟨s, hs, h⟩ := (Option.any_eq_true _ _).mp hrun
  rw [Bool.and_eq_true] at h
  have hreachS : Reachable (nameServer literal (· = twoIocs)) (fun s e => okS s e = true) s :=
    reachable_of_run (fun _ _ _ hok => hok) rfl hs
  have hsplit : ∀ s e, okS s e = true → Main.called e = true ∧ noNamesake s e = true :=
    fun s e hok => Bool.and_eq_true_iff.mp hok
  obtain ⟨m, hm, rfl, hbegin, -, hret⟩ := Main.reachable_of_server 1
    (fun m e => m.noNamesake e = true) hreachS (fun s e hok => (hsplit s e hok).1)
    fun m e hok => (hsplit m.server e hok).2
  have htold : Reachable (mainLoop literal 1 twoIocs) (fun m e => m.noNamesake e = true)
      { m with outtaHere := true } :=
    hm.run (.cons rfl (show (mainLoop literal 1 twoIocs).step m (.signal .term true) _ from ⟨hret, rfl⟩)
      (.nil _))
  have hwf := reachable_wf hreachS
  have htidy := reachable_tidy (hreachS.mono fun s e hok => (hsplit s e hok).2)
  have hen : Main.Enabled { m with outtaHere := true } (.turn 3 3 [] true [1, 0] [2, 0, 3]) :=
    ⟨hret, fun _ => ⟨hwf.visits_of_visits h.1, hwf.visitsPvEs_of_tidy htidy h.2⟩⟩
  obtain ⟨m', hnext, hret'⟩ := ((main_returns literal 1 twoIocs htold).2 rfl 3 3 [] true [1, 0]
    [2, 0, 3] hen fun hdue => absurd hdue (by rw [hbegin]; decide)).1 rfl
  have hm' := htold.run (.cons (t := m') rfl ⟨hen, hnext⟩ (.nil _))
  exact ⟨_, m', htold, rfl, hnext, hret', ((main_returns literal 1 twoIocs hm').1 hret').2⟩

end CaNameserver
