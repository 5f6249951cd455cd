import Mathlib.Logic.Function.Basic
import Mathlib.Order.Lattice
import Mathlib.Tactic.SplitIfs
import CaNameserver.Lib.History

/-!
# The restarter

In server mode `start_daemon` leaves a process behind that starts the name server, waits for its
death and starts it again.  It waits in `pause`, which any signal with a handler ends, and the
handler of `SIGCHLD` may as well run before `pause` is called.  `daemon` is the transition system
of the restarter, its children and the signals between them; a signal is pending until its handler
runs.

## What is one step

Whatever another process or a handler can tell apart is a step of its own.

* In the restarter: the clock is read; `fork` returns; its result is stored in `child_pid`; the
  handler `kill_the_kid` is installed; `pause` is called.  A handler may run between any two of
  them.  `kill_the_kid` sends a signal to `child_pid`, whatever it is by then, and exits in the
  next step.
* In a server: `fork` returns, with the handlers and the `child_pid` of the restarter; 0 is stored
  in `child_pid`; the constructor of `directoryServer` installs `sigusr1`; `main` sets
  `outta_here` to 0 before it reads the directory file.  What is inherited counts until it is
  replaced: a `SIGTERM` that is taken before the constructor runs ends the server, in
  `kill_the_kid` if the restarter had installed it, and one that is taken before `outta_here` is
  cleared is forgotten.
* `SIGTERM` is blocked while its own handler runs, and to send it to process 0 is to send it to
  the whole group, the restarter included.

## What holds

The invariant (`Daemon.Supervised`) rests on one fact: as long as no server is stopped by job
control, `SIGCHLD` means that the server is dead, so that while one is alive nothing is pending
and the restarter has not gone on to start another.  Each event keeps the invariant by one lemma:
the restarter moves on (`move`), signals are sent or taken (`relabel`, `update`), a server dies
(`dead`), the restarter hears of it (`sigChld`), a server is started (`fork`), the restarter is
told to end (`kidKilled`).

* `daemon_supervised`: there is one server at a time, two servers are started 60 seconds apart,
  and unless the restarter is gone a server is alive, or about to be started, or the death of the
  last one was handled before `pause`.  In that case none is ever started again.
* `stop_starts_second`, `term_before_store`, `term_before_clear`: what is outside of it, namely
  what job control does, and what becomes of a `SIGTERM` that comes too early.

Process ids are not used again.
-/

namespace CaNameserver

open Transition

/-- `MIN_RESTART_INTERVAL`, in seconds. -/
def minRestartInterval : ℕ := 60

/-- Where the restarter is in the loop of `start_daemon`. -/
inductive RestarterPc where
  | time
  | fork
  /-- `fork` has returned, and `child_pid` is what it was before -/
  | store (pid : ℕ)
  | signal
  | pause
  | paused
  /-- in `kill_the_kid`, which has sent its signal -/
  | exiting
  | gone
  deriving DecidableEq, Repr

/-- Where a server is in `main`. -/
inductive ServerPc where
  /-- `fork` has returned, and `child_pid` is that of the restarter -/
  | forked
  | child
  /-- `sigusr1` is installed -/
  | handles
  /-- `outta_here` has been set to 0 -/
  | serves
  /-- in `kill_the_kid`, which has sent its signal -/
  | exiting
  deriving DecidableEq, Repr

inductive ProcStatus where
  | running
  | stopped
  /-- dead, and not waited for yet -/
  | zombie
  deriving DecidableEq, Repr

/-- A server process. -/
structure Proc where
  status : ProcStatus
  pc : ServerPc
  /-- `kill_the_kid` was installed at the fork -/
  killer : Bool
  /-- `none` is 0 -/
  childPid : Option ℕ
  /-- `SIGTERM` is pending -/
  term : Bool
  outtaHere : Bool
  deriving DecidableEq, Repr

/-- The restarter, with its children by their process ids. -/
structure Daemon where
  pc : RestarterPc
  tPrev : ℕ
  /-- `kill_the_kid` is installed -/
  killer : Bool
  /-- `none` is 0 -/
  childPid : Option ℕ
  sigchld : Bool
  term : Bool
  procs : ℕ → Option Proc
  nextPid : ℕ

namespace Daemon

/-- As `start_daemon` enters its loop. -/
def initial : Daemon := ⟨.time, 0, false, none, false, false, fun _ => none, 0⟩

/-- A server that runs, or would if it were continued. -/
def alive (s : Daemon) (p : ℕ) : Bool :=
  (s.procs p).any fun pr => decide (pr.status ≠ .zombie)

def setProc (s : Daemon) (p : ℕ) (pr : Proc) : Daemon :=
  { s with procs := Function.update s.procs p (some pr) }

/-- `kill(pid, SIGTERM)`, where 0 is the group, with the restarter. -/
def kill (s : Daemon) (pid : Option ℕ) : Daemon :=
  { s with
    term := s.term || pid.isNone
    procs := fun q => (s.procs q).map fun pr =>
      if pid = none ∨ pid = some q then { pr with term := true } else pr }

/-- A server is dead: `SIGCHLD` for the restarter. -/
def dead (s : Daemon) (p : ℕ) (pr : Proc) : Daemon :=
  { s.setProc p { pr with status := .zombie } with sigchld := true }

/-- The loop in `sig_chld`: whoever is dead is waited for. -/
def waitAll (s : Daemon) : Daemon :=
  { s with procs := fun p => (s.procs p).filter fun pr => decide (pr.status ≠ .zombie) }

end Daemon

/-- What happens in the restarter, in a server, or between them. -/
inductive DaemonEvent where
  /-- the restarter reads the time -/
  | time (tNow : ℕ)
  /-- it forks, if it can -/
  | fork (succeeds : Bool)
  /-- it stores the process id -/
  | store
  /-- it installs `kill_the_kid` -/
  | signal
  /-- it calls `pause` -/
  | pause
  /-- `sig_chld` runs in the restarter -/
  | sigChld
  /-- `SIGTERM` is taken by the restarter -/
  | term
  /-- `kill_the_kid` exits -/
  | exit
  /-- the restarter dies of a signal that has no handler -/
  | killed
  /-- `SIGTERM` from outside, to the restarter or to a server -/
  | sendTerm (target : Option ℕ)
  /-- a server stores 0 -/
  | storeServer (p : ℕ)
  /-- it installs its handlers -/
  | ready (p : ℕ)
  /-- it sets `outta_here` to 0 -/
  | clear (p : ℕ)
  /-- `SIGTERM` is taken by a server -/
  | termServer (p : ℕ)
  /-- a server ends -/
  | die (p : ℕ)
  /-- a server is stopped by job control, or continued -/
  | stop (p : ℕ)
  | cont (p : ℕ)

namespace Daemon

/-- A server goes on from one place to another. -/
def advance (s : Daemon) (p : ℕ) (pc : ServerPc) (f : Proc → Proc) : Option Daemon :=
  (s.procs p).bind fun pr =>
    if pr.status = .running ∧ pr.pc = pc then some (s.setProc p (f pr)) else none

/-- `SIGTERM` in a server: the action is inherited until `sigusr1` is installed. -/
def takeTerm (s : Daemon) (p : ℕ) (pr : Proc) : Daemon :=
  match pr.pc with
  | .handles | .serves => s.setProc p { pr with outtaHere := true }
  | _ =>
      if pr.killer then (s.setProc p { pr with pc := .exiting }).kill pr.childPid
      else s.dead p pr

/-- One event; `none` if it cannot happen now. -/
def next (s : Daemon) : DaemonEvent → Option Daemon
  | .time tNow =>
      if s.pc = .time then
        if tNow < s.tPrev + minRestartInterval then some { s with pc := .gone }
        else some { s with pc := .fork, tPrev := tNow }
      else none
  | .fork succeeds =>
      if s.pc = .fork then
        if succeeds then
          some { s.setProc s.nextPid ⟨.running, .forked, s.killer, s.childPid, false, false⟩ with
            pc := .store s.nextPid
            nextPid := s.nextPid + 1 }
        else some { s with pc := .gone }
      else none
  | .store =>
      match s.pc with
      | .store pid => some { s with pc := .signal, childPid := some pid }
      | _ => none
  | .signal => if s.pc = .signal then some { s with pc := .pause, killer := true } else none
  | .pause => if s.pc = .pause then some { s with pc := .paused } else none
  | .sigChld =>
      if s.pc ≠ .gone ∧ s.sigchld then
        some { s.waitAll with
          sigchld := false
          -- the handler ends a `pause`
          pc := if s.pc = .paused then .time else s.pc }
      else none
  | .term =>
      if s.pc ≠ .exiting ∧ s.pc ≠ .gone ∧ s.term then
        if s.killer then some ({ s with pc := .exiting, term := false }.kill s.childPid)
        else some { s with pc := .gone, term := false }
      else none
  | .exit => if s.pc = .exiting then some { s with pc := .gone } else none
  | .killed => if s.pc ≠ .gone then some { s with pc := .gone } else none
  | .sendTerm none => some { s with term := true }
  | .sendTerm (some p) => some (s.kill (some p))
  | .storeServer p => s.advance p .forked fun pr => { pr with pc := .child, childPid := none }
  | .ready p => s.advance p .child fun pr => { pr with pc := .handles }
  | .clear p => s.advance p .handles fun pr => { pr with pc := .serves, outtaHere := false }
  | .termServer p =>
      (s.procs p).bind fun pr =>
        if pr.status = .running ∧ pr.pc ≠ .exiting ∧ pr.term then
          some (s.takeTerm p { pr with term := false })
        else none
  | .die p =>
      (s.procs p).bind fun pr => if pr.status ≠ .zombie then some (s.dead p pr) else none
  | .stop p =>
      (s.procs p).bind fun pr =>
        if pr.status = .running then
          some { s.setProc p { pr with status := .stopped } with sigchld := true }
        else none
  | .cont p =>
      (s.procs p).bind fun pr =>
        if pr.status = .stopped then
          some { s.setProc p { pr with status := .running } with sigchld := true }
        else none

end Daemon

/-- The runs of the restarter and its servers. -/
def daemon : System Daemon DaemonEvent where
  init s := s = .initial
  step s e t := s.next e = some t

/-! ## What the restarter has done -/

/-- Between the fork and the moment when its result is stored. -/
def RestarterPc.stores : RestarterPc → Bool
  | .store _ => true
  | _ => false

/-- Between the moment when the process id is stored and the end of `pause`. -/
def RestarterPc.knows : RestarterPc → Bool
  | .signal | .pause | .paused => true
  | _ => false

/-- Between the fork and the end of `pause`. -/
def RestarterPc.waits (pc : RestarterPc) : Bool := pc.stores || pc.knows

/-- It is ending, or has ended. -/
def RestarterPc.over : RestarterPc → Bool
  | .exiting | .gone => true
  | _ => false

/-- The times at which servers were started, the last one first; whether `sig_chld` has run
between a fork and the `pause` after it; whether `kill_the_kid` has run in the restarter, with the
process id of the last server; the servers that have cleared an `outta_here` which `SIGTERM` had
set. -/
structure Watchman where
  forks : List ℕ
  missed : Bool
  told : Bool
  lost : ℕ → Bool

/-- What an event adds to it. -/
def Watchman.next (s : Daemon) (e : DaemonEvent) (w : Watchman) : Watchman :=
  match e with
  | .fork true => { w with forks := s.tPrev :: w.forks }
  | .sigChld =>
      { w with missed := w.missed || s.pc.stores || decide (s.pc = .signal ∨ s.pc = .pause) }
  | .term => { w with told := w.told || (s.killer && !s.pc.stores) }
  | .clear p =>
      { w with lost := Function.update w.lost p (w.lost p || (s.procs p).any Proc.outtaHere) }
  | _ => w

/-- The daemon, watched. -/
def watchedDaemon : System (Daemon × Watchman) DaemonEvent :=
  daemon.remember (fun _ => ⟨[], false, false, fun _ => false⟩) Watchman.next

/-- Nobody stops a server by job control. -/
def noStop : DaemonEvent → Bool
  | .stop _ => false
  | _ => true

/-- `SIGTERM` is pending, or it has told the main loop to end, or the server is about to exit. -/
def Proc.Ends (pr : Proc) : Prop := pr.term = true ∨ pr.outtaHere = true ∨ pr.pc = .exiting

/-! ## The invariant -/

structure Daemon.Supervised (s : Daemon) (w : Watchman) : Prop where
  fresh : ∀ p, s.nextPid ≤ p → s.procs p = none
  unstopped : ∀ p pr, s.procs p = some pr → pr.status ≠ .stopped
  /-- whoever is alive is the last one, and the restarter waits for it -/
  newest : ∀ p, s.alive p = true → s.nextPid = p + 1
  stores : ∀ q, s.pc = .store q → s.nextPid = q + 1
  knows : s.pc.knows = true → ∀ p, s.alive p = true → s.childPid = some p
  waiting : ∀ p, s.alive p = true → s.sigchld = false ∧ w.missed = false ∧ s.pc ≠ .time ∧ s.pc ≠ .fork
  /-- it waits for somebody, or for a signal, or in vain -/
  waits : s.pc.waits = true →
    (∃ p, s.alive p = true) ∨ s.sigchld = true ∨ w.missed = true
  awake : s.sigchld = true → s.pc ≠ .time ∧ s.pc ≠ .fork
  missed : w.missed = true → s.sigchld = false ∧ s.pc ≠ .time ∧ s.pc ≠ .fork
  spaced : w.forks.Pairwise fun later earlier => earlier + minRestartInterval ≤ later
  last : ∀ t ∈ w.forks, t ≤ s.tPrev
  due : s.pc = .fork → ∀ t ∈ w.forks, t + minRestartInterval ≤ s.tPrev
  told : w.told = true → s.pc.over = true ∧ ∀ p pr, s.procs p = some pr → pr.status ≠ .zombie →
    pr.Ends ∨ w.lost p = true

/-! ## One event -/

section Events

variable {s t : Daemon} {w : Watchman} {p : ℕ} {pr : Proc}

theorem Daemon.alive_of_eq (h : s.procs p = some pr) (hpr : pr.status ≠ .zombie) :
    s.alive p = true := by
  rw [alive, h, Option.any_some]
  exact decide_eq_true hpr

theorem Daemon.exists_of_alive (h : s.alive p = true) :
    ∃ pr, s.procs p = some pr ∧ pr.status ≠ .zombie := by
  obtain ⟨pr, hpr, hstatus⟩ := (Option.any_eq_true _ _).mp h
  exact ⟨pr, hpr, of_decide_eq_true hstatus⟩

/-- Who is alive depends on the states of the processes only. -/
theorem Daemon.alive_congr (h : (t.procs p).map Proc.status = (s.procs p).map Proc.status) :
    t.alive p = s.alive p := by
  have hmap : ∀ u : Daemon, u.alive p = ((u.procs p).map Proc.status).any fun st => decide (st ≠ .zombie) := by
    intro u
    rw [alive]
    cases u.procs p <;> rfl
  rw [hmap, hmap, h]

theorem Daemon.advance_eq_some {pc : ServerPc} {f : Proc → Proc} (h : s.advance p pc f = some t) :
    ∃ pr, s.procs p = some pr ∧ pr.status = .running ∧ pr.pc = pc ∧ t = s.setProc p (f pr) := by
  obtain ⟨pr, hpr, h⟩ := Option.bind_eq_some_iff.mp h
  obtain ⟨⟨hrun, hpc⟩, h⟩ := Option.ite_none_right_eq_some.mp h
  exact ⟨pr, hpr, hrun, hpc, (Option.some.inj h).symm⟩

/-- To send a signal changes no state of a process. -/
theorem Daemon.kill_status (s : Daemon) (pid : Option ℕ) (q : ℕ) :
    ((s.kill pid).procs q).map Proc.status = (s.procs q).map Proc.status := by
  rw [kill, Option.map_map]
  refine congrFun (congrArg Option.map (funext fun pr => ?_)) _
  dsimp only [Function.comp_apply]
  split_ifs <;> rfl

/-- A process that a signal has been sent to is as it was, or has it pending. -/
theorem Daemon.kill_procs {pid : Option ℕ} {q : ℕ} {prq : Proc}
    (hq : (s.kill pid).procs q = some prq) : ∃ old, s.procs q = some old ∧
      old.status = prq.status ∧ ((pid = none ∨ pid = some q) ∧ prq.term = true ∨ prq = old) := by
  obtain ⟨old, hold, rfl⟩ := Option.map_eq_some_iff.mp hq
  refine ⟨old, hold, ?_⟩
  split_ifs with hpid
  · exact ⟨rfl, Or.inl ⟨hpid, rfl⟩⟩
  · exact ⟨rfl, Or.inr rfl⟩

theorem RestarterPc.not_over_of_knows {pc : RestarterPc} (h : pc.knows = true) :
    ¬pc.over = true := by
  cases pc with
  | time => cases h
  | fork => cases h
  | store => cases h
  | signal => decide
  | pause => decide
  | paused => decide
  | exiting => cases h
  | gone => cases h

/-- A server that goes on, but does not clear the flag. -/
theorem Proc.Ends.goes_on (h : pr.Ends) (hpc : pr.pc ≠ .exiting) {pr' : Proc}
    (hterm : pr'.term = pr.term := by rfl) (hout : pr'.outtaHere = pr.outtaHere := by rfl) :
    pr'.Ends := by
  rcases h with h | h | h
  · exact Or.inl (hterm.trans h)
  · exact Or.inr (Or.inl (hout.trans h))
  · exact absurd h hpc

namespace Daemon.Supervised

/-- While a server is alive nothing is pending and nothing missed. -/
theorem not_alive_of_sigchld (h : s.Supervised w) (hs : s.sigchld = true) (p : ℕ) :
    ¬s.alive p = true := by
  intro hp
  rw [(h.waiting p hp).1] at hs
  cases hs

/-- What has been told has ended the restarter. -/
theorem not_told (h : s.Supervised w) (hpc : ¬s.pc.over = true) : ¬w.told = true :=
  fun ht => hpc (h.told ht).1

/-- The restarter moves on; there is no news from the servers. -/
theorem move (h : s.Supervised w) {pc : RestarterPc} {tPrev : ℕ} {killer : Bool}
    {childPid : Option ℕ}
    (hstores : ∀ q, pc = .store q → s.nextPid = q + 1)
    (hknows : pc.knows = true → ∀ p, s.alive p = true → childPid = some p)
    (hwaits : pc.waits = true → s.pc.waits = true)
    (hback : pc = .time ∨ pc = .fork → s.pc = .time ∨ s.pc = .fork) (hle : s.tPrev ≤ tPrev)
    (hdue : pc = .fork → ∀ t ∈ w.forks, t + minRestartInterval ≤ tPrev)
    (htold : w.told = true → pc.over = true) :
    ({ s with pc := pc, tPrev := tPrev, killer := killer, childPid := childPid } : Daemon).Supervised
      w := by
  have hpc : s.pc ≠ .time ∧ s.pc ≠ .fork → pc ≠ .time ∧ pc ≠ .fork := by
    rintro ⟨htime, hfork⟩
    exact ⟨fun hp => (hback (Or.inl hp)).elim htime hfork, fun hp => (hback (Or.inr hp)).elim htime hfork⟩
  exact
    { fresh := h.fresh
      unstopped := h.unstopped
      newest := h.newest
      stores := hstores
      knows := hknows
      waiting := fun p hp => ⟨(h.waiting p hp).1, (h.waiting p hp).2.1, hpc (h.waiting p hp).2.2⟩
      waits := fun hw => h.waits (hwaits hw)
      awake := fun hs => hpc (h.awake hs)
      missed := fun hm => ⟨(h.missed hm).1, hpc (h.missed hm).2⟩
      spaced := h.spaced
      last := fun t ht => (h.last t ht).trans hle
      due := hdue
      told := fun ht => ⟨htold ht, (h.told ht).2⟩ }

/-- From the store of the process id on to the end of `pause`, it goes on to wait. -/
theorem waitsOn (h : s.Supervised w) {pc : RestarterPc} (killer : Bool) (hknew : s.pc.knows = true)
    (hknows : pc.knows = true) : ({ s with pc := pc, killer := killer } : Daemon).Supervised w := by
  have hnot : ∀ {q : RestarterPc}, q.knows = false → pc ≠ q := by
    rintro q hq rfl
    rw [hknows] at hq
    cases hq
  exact h.move (fun q hq => absurd hq (hnot rfl)) (fun _ => h.knows hknew)
    (fun _ => by rw [RestarterPc.waits, hknew, Bool.or_true])
    (fun hb => hb.elim (fun hb => absurd hb (hnot rfl)) fun hb => absurd hb (hnot rfl)) le_rfl
    (fun hd => absurd hd (hnot rfl)) fun ht =>
      absurd ht (h.not_told (RestarterPc.not_over_of_knows hknew))

/-- It ends. -/
theorem ended (h : s.Supervised w) {pc : RestarterPc} (hpc : pc.over = true) :
    ({ s with pc := pc } : Daemon).Supervised w := by
  have hnot : ∀ {q : RestarterPc}, q.over = false → pc ≠ q := by
    rintro q hq rfl
    rw [hpc] at hq
    cases hq
  have hworks : pc.waits = false := by
    cases pc <;> first | rfl | cases hpc
  refine h.move (fun q hq => absurd hq (hnot rfl)) (fun hk => ?_) (fun hw => ?_) (fun hb => ?_) le_rfl
    (fun hd => absurd hd (hnot rfl)) fun _ => hpc
  · rw [RestarterPc.waits, hk, Bool.or_true] at hworks
    cases hworks
  · rw [hworks] at hw
    cases hw
  · exact hb.elim (fun hb => absurd hb (hnot rfl)) fun hb => absurd hb (hnot rfl)

/-- Signals are sent and taken; nobody dies of them. -/
theorem relabel (h : s.Supervised w) (procs : ℕ → Option Proc) (term : Bool) (lost : ℕ → Bool)
    (hst : ∀ p, (procs p).map Proc.status = (s.procs p).map Proc.status)
    (htold : w.told = true → ∀ p pr, procs p = some pr → pr.status ≠ .zombie →
      pr.Ends ∨ lost p = true) :
    ({ s with procs := procs, term := term } : Daemon).Supervised { w with lost := lost } := by
  have halive : ∀ p, ({ s with procs := procs, term := term } : Daemon).alive p = s.alive p :=
    fun p => alive_congr (hst p)
  refine
    { fresh := ?_
      unstopped := ?_
      newest := fun p hp => h.newest p (halive p ▸ hp)
      stores := h.stores
      knows := fun hk p hp => h.knows hk p (halive p ▸ hp)
      waiting := fun p hp => h.waiting p (halive p ▸ hp)
      waits := ?_
      awake := h.awake
      missed := h.missed
      spaced := h.spaced
      last := h.last
      due := h.due
      told := fun ht => ⟨(h.told ht).1, htold ht⟩ }
  · intro p hp
    have hnone := hst p
    rw [h.fresh p hp, Option.map_none, Option.map_eq_none_iff] at hnone
    exact hnone
  · intro p pr hpr
    have hstatus := hst p
    rw [show procs p = some pr from hpr, Option.map_some, eq_comm, Option.map_eq_some_iff] at hstatus
    obtain ⟨old, hold, hsame⟩ := hstatus
    exact hsame ▸ h.unstopped p old hold
  · intro hw
    obtain ⟨p, hp⟩ | hrest := h.waits hw
    · exact Or.inl ⟨p, (halive p).trans hp⟩
    · exact Or.inr hrest

/-- A server does something of its own. -/
theorem update (h : s.Supervised w) {pr' : Proc} (lost : ℕ → Bool) (hp : s.procs p = some pr)
    (hstatus : pr'.status = pr.status) (hlost : ∀ q, q ≠ p → lost q = w.lost q)
    (htold : pr.Ends ∨ w.lost p = true → pr'.Ends ∨ lost p = true) :
    (s.setProc p pr').Supervised { w with lost := lost } := by
  refine h.relabel _ s.term lost (fun q => ?_) fun ht q prq hq hne => ?_
  · by_cases hqp : q = p
    · subst hqp
      rw [Function.update_self, hp, Option.map_some, Option.map_some, hstatus]
    · rw [Function.update_of_ne hqp]
  · by_cases hqp : q = p
    · subst hqp
      rw [Function.update_self, Option.some_inj] at hq
      subst hq
      exact htold ((h.told ht).2 q pr hp (hstatus ▸ hne))
    · rw [Function.update_of_ne hqp] at hq
      rw [hlost q hqp]
      exact (h.told ht).2 q prq hq hne

/-- **A signal is sent.**  Who was told stays so. -/
theorem kill (h : s.Supervised w) (pid : Option ℕ) : (s.kill pid).Supervised w := by
  refine h.relabel _ _ w.lost (fun q => kill_status s pid q) fun ht q prq hq hne => ?_
  obtain ⟨old, hold, hstatus, ⟨-, hterm⟩ | rfl⟩ := kill_procs hq
  · exact Or.inl (Or.inl hterm)
  · exact (h.told ht).2 q _ hold hne

/-- **A server dies.**  It was the only one. -/
theorem dead (h : s.Supervised w) (hp : s.procs p = some pr) (hstatus : pr.status ≠ .zombie) (pr' : Proc) :
    (s.dead p pr').Supervised w := by
  have hlive := alive_of_eq hp hstatus
  obtain ⟨-, hmissed, hpc⟩ := h.waiting p hlive
  have hother : ∀ q, q ≠ p → (s.dead p pr').procs q = s.procs q := fun q hq => Function.update_of_ne hq _ _
  have hself : (s.dead p pr').procs p = some { pr' with status := .zombie } := Function.update_self _ _ _
  -- whoever else is alive would have to be the last one too
  have hnone : ∀ q, ¬(s.dead p pr').alive q = true := by
    intro q hq
    obtain ⟨prq, hprq, hne⟩ := exists_of_alive hq
    by_cases hqp : q = p
    · subst hqp
      rw [hself] at hprq
      cases hprq
      exact hne rfl
    · rw [hother q hqp] at hprq
      have hnew := h.newest q (alive_of_eq hprq hne)
      rw [h.newest p hlive] at hnew
      omega
  refine
    { fresh := ?_
      unstopped := ?_
      newest := fun q hq => absurd hq (hnone q)
      stores := h.stores
      knows := fun _ q hq => absurd hq (hnone q)
      waiting := fun q hq => absurd hq (hnone q)
      waits := fun _ => Or.inr (Or.inl rfl)
      awake := fun _ => hpc
      missed := ?_
      spaced := h.spaced
      last := h.last
      due := h.due
      told := ?_ }
  · intro q hq
    have hqp : q ≠ p := by
      rintro rfl
      rw [h.fresh q hq] at hp
      cases hp
    rw [hother q hqp]
    exact h.fresh q hq
  · intro q prq hprq
    by_cases hqp : q = p
    · subst hqp
      rw [hself] at hprq
      cases hprq
      exact fun h => nomatch h
    · exact h.unstopped q prq (hother q hqp ▸ hprq)
  · intro hm
    rw [hmissed] at hm
    cases hm
  · intro ht
    refine ⟨(h.told ht).1, fun q prq hprq hne => ?_⟩
    exact absurd (alive_of_eq hprq hne) (hnone q)

/-- **The restarter hears of a death.** -/
theorem sigChld (h : s.Supervised w) (hs : s.sigchld = true) :
    ({ s.waitAll with
      sigchld := false
      pc := if s.pc = .paused then .time else s.pc } : Daemon).Supervised
      { w with missed := w.missed || s.pc.stores || decide (s.pc = .signal ∨ s.pc = .pause) } := by
  obtain ⟨htime, hfork⟩ := h.awake hs
  have hmissed : w.missed = false := by
    rw [← Bool.not_eq_true]
    intro hm
    rw [(h.missed hm).1] at hs
    cases hs
  have hnone : ∀ p pr, s.waitAll.procs p = some pr → False := by
    intro p pr hpr
    obtain ⟨hpr, hne⟩ := Option.filter_eq_some_iff.mp hpr
    exact h.not_alive_of_sigchld hs p (alive_of_eq hpr (of_decide_eq_true hne))
  have hdead : ∀ {u : Daemon} p, u.procs = s.waitAll.procs → ¬u.alive p = true := by
    intro u p hu hp
    obtain ⟨pr, hpr, -⟩ := exists_of_alive hp
    exact hnone p pr (hu ▸ hpr)
  refine
    { fresh := fun p hp => ?_
      unstopped := fun p pr hpr => (hnone p pr hpr).elim
      newest := fun p hp => absurd hp (hdead p rfl)
      stores := fun q hq => ?_
      knows := fun _ p hp => absurd hp (hdead p rfl)
      waiting := fun p hp => absurd hp (hdead p rfl)
      waits := fun hw => Or.inr (Or.inr ?_)
      awake := fun h => nomatch h
      missed := fun hm => ?_
      spaced := h.spaced
      last := h.last
      due := fun hd => ?_
      told := fun ht => ⟨?_, fun p pr hpr => (hnone p pr hpr).elim⟩ }
  · have hp' := h.fresh p hp
    dsimp only [waitAll]
    rw [hp']
    rfl
  · dsimp only at hq ⊢
    split_ifs at hq
    exact h.stores q hq
  · dsimp only at hw ⊢
    rw [hmissed, Bool.false_or]
    cases hpc : s.pc <;> simp_all [RestarterPc.waits, RestarterPc.stores, RestarterPc.knows]
  · dsimp only at hm ⊢
    rw [hmissed, Bool.false_or] at hm
    have hpaused : s.pc ≠ .paused := by
      intro hp
      rw [hp] at hm
      cases hm
    rw [if_neg hpaused]
    exact ⟨rfl, htime, hfork⟩
  · dsimp only at hd
    split_ifs at hd
    exact absurd hd hfork
  · have hover := (h.told ht).1
    have hpaused : s.pc ≠ .paused := by
      intro hp
      rw [hp] at hover
      cases hover
    dsimp only
    rw [if_neg hpaused]
    exact hover

/-- **A server is started.** -/
theorem fork (h : s.Supervised w) (hpc : s.pc = .fork) (pr : Proc) (hpr : pr.status = .running) :
    ({ s.setProc s.nextPid pr with
      pc := .store s.nextPid
      nextPid := s.nextPid + 1 } : Daemon).Supervised { w with forks := s.tPrev :: w.forks } := by
  have hnone : ∀ p, ¬s.alive p = true := fun p hp => (h.waiting p hp).2.2.2 hpc
  have hself : (s.setProc s.nextPid pr).procs s.nextPid = some pr := Function.update_self _ _ _
  have hother : ∀ q, q ≠ s.nextPid → (s.setProc s.nextPid pr).procs q = s.procs q :=
    fun q hq => Function.update_of_ne hq _ _
  have hsigchld : s.sigchld = false := by
    rw [← Bool.not_eq_true]
    exact fun hs => (h.awake hs).2 hpc
  have hmissed : w.missed = false := by
    rw [← Bool.not_eq_true]
    exact fun hm => (h.missed hm).2.2 hpc
  have hstore : RestarterPc.store s.nextPid ≠ .time ∧ RestarterPc.store s.nextPid ≠ .fork :=
    ⟨(nomatch ·), (nomatch ·)⟩
  have hrun : pr.status ≠ .zombie := hpr ▸ fun h => nomatch h
  refine
    { fresh := fun p hp => ?_
      unstopped := fun p pr' hpr' => ?_
      newest := fun p hp => ?_
      stores := fun q hq => by cases hq; rfl
      knows := fun h => nomatch h
      waiting := fun p _ => ⟨hsigchld, hmissed, hstore⟩
      waits := fun _ => Or.inl ⟨s.nextPid, alive_of_eq hself hrun⟩
      awake := fun _ => hstore
      missed := fun hm => absurd (hmissed ▸ hm) Bool.false_ne_true
      spaced := List.pairwise_cons.mpr ⟨h.due hpc, h.spaced⟩
      last := List.forall_mem_cons.mpr ⟨le_rfl, h.last⟩
      due := fun h => nomatch h
      told := fun ht => absurd ht (h.not_told (by rw [hpc]; exact Bool.false_ne_true)) }
  · dsimp only at hp ⊢
    rw [hother p (Nat.ne_of_gt (Nat.lt_of_succ_le hp))]
    exact h.fresh p (Nat.le_of_succ_le hp)
  · dsimp only at hpr'
    by_cases hp : p = s.nextPid
    · rw [hp, hself] at hpr'
      cases hpr'
      rw [hpr]
      exact fun h => nomatch h
    · exact h.unstopped p pr' (hother p hp ▸ hpr')
  · obtain ⟨pr', hpr', hne⟩ := exists_of_alive hp
    by_cases hpn : p = s.nextPid
    · rw [hpn]
    · exact absurd (alive_of_eq (hother p hpn ▸ hpr') hne) (hnone p)

/-- **`kill_the_kid`.**  The server that is alive, if any, is the one it is sent to, unless its
process id has not been stored. -/
theorem kidKilled (h : s.Supervised w) (hover : ¬s.pc.over = true) :
    (({ s with pc := .exiting, term := false } : Daemon).kill s.childPid).Supervised
      { w with told := w.told || !s.pc.stores } := by
  have hnot := h.not_told hover
  have hexiting : ({ s with pc := .exiting, term := false } : Daemon).Supervised w :=
    (h.ended rfl).relabel s.procs false w.lost (fun _ => rfl) fun ht => absurd ht hnot
  have hkill := hexiting.kill s.childPid
  refine { hkill with told := fun ht => ⟨rfl, fun p pr hpr hne => Or.inl (Or.inl ?_)⟩ }
  obtain ⟨old, hold, hstatus, hcase⟩ := kill_procs hpr
  have hlive : s.alive p = true := alive_of_eq hold (hstatus ▸ hne)
  have hstores : s.pc.stores = false := by
    rw [Bool.not_eq_true] at hnot
    rw [hnot, Bool.false_or, Bool.not_eq_true'] at ht
    exact ht
  have hknows : s.pc.knows = true := by
    obtain ⟨-, -, htime, hfork⟩ := h.waiting p hlive
    cases hpc : s.pc <;> simp_all [RestarterPc.knows, RestarterPc.stores, RestarterPc.over]
  have hchild := h.knows hknows p hlive
  rcases hcase with ⟨-, hterm⟩ | rfl
  · exact hterm
  · obtain ⟨old, hold, rfl⟩ := Option.map_eq_some_iff.mp hpr
    rw [if_pos (Or.inr hchild)]

/-- **`SIGTERM` in a server.** -/
theorem takeTerm (h : s.Supervised w) (hp : s.procs p = some pr) (hrun : pr.status = .running) :
    (s.takeTerm p { pr with term := false }).Supervised w := by
  have hlive : pr.status ≠ .zombie := hrun ▸ fun h => nomatch h
  have hown : (s.setProc p { pr with term := false, outtaHere := true }).Supervised w :=
    h.update w.lost hp rfl (fun _ _ => rfl) fun _ => Or.inl (Or.inr (Or.inl rfl))
  have hinherited : (if pr.killer then
      (s.setProc p { pr with pc := .exiting, term := false }).kill pr.childPid
      else s.dead p { pr with term := false }).Supervised w := by
    split_ifs with hkiller
    · have hexiting : (s.setProc p { pr with pc := .exiting, term := false }).Supervised w :=
        h.update w.lost hp rfl (fun _ _ => rfl) fun _ => Or.inl (Or.inr (Or.inr rfl))
      exact hexiting.kill _
    · exact h.dead hp hlive _
  obtain ⟨status, pc, killer, childPid, term, outtaHere⟩ := pr
  cases pc with
  | handles | serves => exact hown
  | forked | child | exiting => exact hinherited

/-- **One event.** -/
theorem next (h : s.Supervised w) {e : DaemonEvent} (he : noStop e = true)
    (hst : s.next e = some t) : t.Supervised (w.next s e) := by
  have hwork : ∀ {pc : RestarterPc}, s.pc = pc → pc.over = false → ¬w.told = true := fun hpc hover =>
    h.not_told (by rw [hpc, hover]; exact Bool.false_ne_true)
  cases e with
  | time tNow =>
      rw [Daemon.next] at hst
      split_ifs at hst with hpc hearly
      · cases hst
        exact h.ended rfl
      · cases hst
        have hle : s.tPrev + minRestartInterval ≤ tNow := not_lt.mp hearly
        refine h.move (fun _ h => nomatch h) (fun h => nomatch h) (fun h => nomatch h)
          (fun _ => Or.inl hpc) (le_trans (Nat.le_add_right _ _) hle) (fun _ t ht => ?_)
          fun ht => absurd ht (hwork hpc rfl)
        exact le_trans (Nat.add_le_add_right (h.last t ht) _) hle
  | fork succeeds =>
      obtain ⟨hpc, hst⟩ := Option.ite_none_right_eq_some.mp hst
      cases succeeds with
      | true =>
          cases hst
          exact h.fork hpc _ rfl
      | false =>
          cases hst
          exact h.ended rfl
  | store =>
      rw [Daemon.next] at hst
      split at hst
      · rename_i pid hpc
        cases hst
        refine h.move (fun _ h => nomatch h) (fun _ p hp => ?_) (fun _ => hpc ▸ rfl)
          (fun h => by rcases h with h | h <;> cases h) le_rfl (fun h => nomatch h)
          fun ht => absurd ht (hwork hpc rfl)
        have hnew := h.newest p hp
        rw [h.stores pid hpc] at hnew
        rw [Nat.succ.inj hnew]
      · cases hst
  | signal =>
      rw [Daemon.next] at hst
      split_ifs at hst with hpc
      cases hst
      exact h.waitsOn _ (hpc ▸ rfl) rfl
  | pause =>
      rw [Daemon.next] at hst
      split_ifs at hst with hpc
      cases hst
      exact h.waitsOn _ (hpc ▸ rfl) rfl
  | sigChld =>
      obtain ⟨hcond, hst⟩ := Option.ite_none_right_eq_some.mp hst
      cases hst
      exact h.sigChld hcond.2
  | term =>
      rw [Daemon.next] at hst
      split_ifs at hst with hcond hkiller
      · cases hst
        have hw : w.next s .term = { w with told := w.told || !s.pc.stores } := by
          rw [Watchman.next, hkiller, Bool.true_and]
        rw [hw]
        refine h.kidKilled ?_
        cases hpc : s.pc <;> simp_all [RestarterPc.over]
      · cases hst
        rw [Bool.not_eq_true] at hkiller
        have hw : w.next s .term = w := by rw [Watchman.next, hkiller, Bool.false_and, Bool.or_false]
        rw [hw]
        exact (h.ended rfl).relabel s.procs false w.lost (fun _ => rfl) fun ht => (h.told ht).2
  | exit =>
      rw [Daemon.next] at hst
      split_ifs at hst with hpc
      cases hst
      exact h.ended rfl
  | killed =>
      rw [Daemon.next] at hst
      split_ifs at hst with hpc
      cases hst
      exact h.ended rfl
  | sendTerm target =>
      cases target with
      | none =>
          cases hst
          exact h.relabel s.procs true w.lost (fun _ => rfl) fun ht => (h.told ht).2
      | some p =>
          cases hst
          exact h.kill _
  | storeServer p =>
      obtain ⟨pr, hpr, hrun, hpc, rfl⟩ := advance_eq_some hst
      refine h.update w.lost hpr rfl (fun _ _ => rfl) (Or.imp_left fun hends => ?_)
      exact hends.goes_on (by rw [hpc]; decide)
  | ready p =>
      obtain ⟨pr, hpr, hrun, hpc, rfl⟩ := advance_eq_some hst
      refine h.update w.lost hpr rfl (fun _ _ => rfl) (Or.imp_left fun hends => ?_)
      exact hends.goes_on (by rw [hpc]; decide)
  | clear p =>
      obtain ⟨pr, hpr, hrun, hpc, rfl⟩ := advance_eq_some hst
      refine h.update _ hpr rfl (fun q hq => Function.update_of_ne hq _ _) fun hends => ?_
      rw [Function.update_self, hpr, Option.any_some, Bool.or_eq_true]
      rcases hends with (hterm | hout | hexit) | hlost
      · exact Or.inl (Or.inl hterm)
      · exact Or.inr (Or.inr hout)
      · exact nomatch hpc.symm.trans hexit
      · exact Or.inr (Or.inl hlost)
  | termServer p =>
      obtain ⟨pr, hpr, hst⟩ := Option.bind_eq_some_iff.mp hst
      split_ifs at hst with hcond
      cases hst
      exact h.takeTerm hpr hcond.1
  | die p =>
      obtain ⟨pr, hpr, hst⟩ := Option.bind_eq_some_iff.mp hst
      split_ifs at hst with hlive
      cases hst
      exact h.dead hpr hlive _
  | stop p => cases he
  | cont p =>
      obtain ⟨pr, hpr, hst⟩ := Option.bind_eq_some_iff.mp hst
      split_ifs at hst with hstopped
      exact absurd hstopped (h.unstopped p pr hpr)

end Daemon.Supervised

end Events

/-! ## Runs -/

section Runs

variable {s t : Daemon} {w w' : Watchman} {es : List DaemonEvent}

theorem initial_supervised : Daemon.initial.Supervised ⟨[], false, false, fun _ => false⟩ :=
  { fresh := fun _ _ => rfl
    unstopped := fun _ _ h => nomatch h
    newest := fun _ h => nomatch h
    stores := fun _ h => nomatch h
    knows := fun h => nomatch h
    waiting := fun _ h => nomatch h
    waits := fun h => nomatch h
    awake := fun h => nomatch h
    missed := fun h => nomatch h
    spaced := .nil
    last := fun _ h => nomatch h
    due := fun h => nomatch h
    told := fun h => nomatch h }

theorem reachable_supervised
    (h : Reachable watchedDaemon (fun _ e => noStop e = true) (s, w)) : s.Supervised w := by
  refine Reachable.remembered (fun _ e => noStop e = true) (I := Daemon.Supervised)
    (J := fun _ => True) h (fun _ _ => trivial) ?_ ?_
  · rintro s rfl -
    exact initial_supervised
  · exact fun s e t w _ hI he hst => hI.next he hst

/-- What has been missed stays missed. -/
theorem Watchman.missed_next (s : Daemon) (e : DaemonEvent) (w : Watchman) (h : w.missed = true) :
    (w.next s e).missed = true := by
  rw [Watchman.next.eq_def]
  split
  · exact h
  · exact Bool.or_eq_true_iff.mpr (Or.inl (Bool.or_eq_true_iff.mpr (Or.inl h)))
  · exact h
  · exact h
  · exact h

theorem missed_of_run (hrun : Run watchedDaemon (fun _ e => noStop e = true) (s, w) es (t, w'))
    (h : w.missed = true) : w'.missed = true := by
  refine hrun.invariant (I := fun x => x.2.missed = true) ?_ h
  rintro ⟨s, w⟩ e ⟨t, w'⟩ hm - ⟨-, hw⟩
  change w' = w.next s e at hw
  rw [hw]
  exact w.missed_next s e hm

/-- **The restarter and its servers.**  As long as nobody stops a server by job control, at any
time and in whatever order signals arrive: one server is alive at most, and two are started 60
seconds apart at least.  Unless the restarter is ending a server is alive, or the restarter is
about to hear of its death or to start the next one, or it has heard of the death before it called
`pause`.  Then it sleeps, and no server is ever alive again.  If it was ended by `kill_the_kid`,
not between a fork and the store to `child_pid`, whoever is alive is about to end, or has cleared
the `outta_here` that told it to. -/
theorem daemon_supervised (h : Reachable watchedDaemon (fun _ e => noStop e = true) (s, w)) :
    (∀ p q, s.alive p = true → s.alive q = true → p = q) ∧
    (w.forks.Pairwise fun later earlier => earlier + minRestartInterval ≤ later) ∧
    (s.pc.over = false → (∃ p, s.alive p = true) ∨ s.sigchld = true ∨ s.pc = .time ∨ s.pc = .fork ∨
      w.missed = true) ∧
    (w.missed = true → ∀ es t w',
      Run watchedDaemon (fun _ e => noStop e = true) (s, w) es (t, w') → ∀ p, t.alive p = false) ∧
    (w.told = true → s.pc.over = true ∧ ∀ p pr, s.procs p = some pr → pr.status ≠ .zombie →
      pr.Ends ∨ w.lost p = true) := by
  have hs := reachable_supervised h
  refine ⟨?_, hs.spaced, ?_, ?_, hs.told⟩
  · intro p q hp hq
    exact Nat.succ.inj ((hs.newest p hp).symm.trans (hs.newest q hq))
  · intro hover
    have hwaits : s.pc.waits = true → (∃ p, s.alive p = true) ∨ s.sigchld = true ∨
        s.pc = .time ∨ s.pc = .fork ∨ w.missed = true := fun hw =>
      (hs.waits hw).imp_right (Or.imp_right fun hm => Or.inr (Or.inr hm))
    cases hpc : s.pc with
    | time => exact Or.inr (Or.inr (Or.inl rfl))
    | fork => exact Or.inr (Or.inr (Or.inr (Or.inl rfl)))
    | exiting | gone =>
        rw [hpc] at hover
        cases hover
    | store | signal | pause | paused => exact hpc ▸ hwaits (by rw [hpc]; rfl)
  · intro hm es t w' hrun p
    have ht := reachable_supervised (h.run hrun)
    rw [← Bool.not_eq_true]
    intro hp
    have hmissed := (ht.waiting p hp).2.1
    rw [missed_of_run hrun hm] at hmissed
    cases hmissed

/-- **Job control.**  A server that is stopped while the restarter sleeps is not dead, but `SIGCHLD`
ends the `pause` all the same: sixty seconds after its start a second one is started beside it. -/
theorem stop_starts_second (hpause : s.pc = .paused) {p : ℕ} {pr : Proc} (hp : s.procs p = some pr)
    (hrun : pr.status = .running) (hnew : s.procs s.nextPid = none) {tNow : ℕ}
    (htime : s.tPrev + minRestartInterval ≤ tNow) : ∃ t,
      [.stop p, .sigChld, .time tNow, .fork true].foldlM Daemon.next s = some t ∧
        t.alive p = true ∧ t.alive s.nextPid = true ∧ p ≠ s.nextPid := by
  have hne : p ≠ s.nextPid := by
    rintro rfl
    rw [hnew] at hp
    cases hp
  have hearly : ¬tNow < s.tPrev + minRestartInterval := not_lt.mpr htime
  simp [Daemon.next, Daemon.setProc, Daemon.waitAll, Daemon.alive, hp, hrun, hpause, hearly, hne]

/-- **Too early for the restarter.**  Before the store, `kill_the_kid` sends its signal to the
server before; the new one is as it was, and nobody will start another. -/
theorem term_before_store {q old : ℕ} (hpc : s.pc = .store q) (hkiller : s.killer = true)
    (hterm : s.term = true) (hchild : s.childPid = some old) (hne : old ≠ q) : ∃ t,
      [.term, .exit].foldlM Daemon.next s = some t ∧ t.pc = .gone ∧ t.procs q = s.procs q := by
  simp [Daemon.next, Daemon.kill, hpc, hkiller, hterm, hchild, hne]

/-- **Too early for a server.**  What `sigusr1` has set before `main` comes to its loop, `main`
clears. -/
theorem term_before_clear {p : ℕ} {pr : Proc} (hp : s.procs p = some pr) (hrun : pr.status = .running)
    (hpc : pr.pc = .handles) (hterm : pr.term = true) : ∃ t,
      [.termServer p, .clear p].foldlM Daemon.next s = some t ∧
        t.procs p = some { pr with pc := .serves, term := false, outtaHere := false } := by
  simp [Daemon.next, Daemon.takeTerm, Daemon.advance, Daemon.setProc, hp, hrun, hpc, hterm]

end Runs

/-! ## A run -/

/-- One event, if it can happen. -/
def Daemon.watchedNext (x : Daemon × Watchman) (e : DaemonEvent) : Option (Daemon × Watchman) :=
  if noStop e then (x.1.next e).map fun t => (t, x.2.next x.1 e) else none

theorem Daemon.step_of_watchedNext {x y : Daemon × Watchman} {e : DaemonEvent}
    (h : watchedNext x e = some y) : noStop e = true ∧ watchedDaemon.step x e y := by
  obtain ⟨hcond, hy⟩ := Option.ite_none_right_eq_some.mp h
  obtain ⟨t, ht, rfl⟩ := Option.map_eq_some_iff.mp hy
  exact ⟨hcond, ht, rfl⟩

/-- The first server lives for a day; the second one dies before `pause` is called. -/
def missedDeath : List DaemonEvent :=
  [.time 1000, .fork true, .store, .storeServer 0, .signal, .pause, .ready 0, .clear 0, .sendTerm (some 0),
    .termServer 0, .die 0, .sigChld, .time 87400, .fork true, .die 1, .store, .sigChld, .signal, .pause]

theorem daemon_supervised_missedDeath : ∃ s w,
    Reachable watchedDaemon (fun _ e => noStop e = true) (s, w) ∧
    (s.pc, s.sigchld, w.forks, w.missed) = (.paused, false, [87400, 1000], true) ∧
    ((∀ p q, s.alive p = true → s.alive q = true → p = q) ∧
    (w.forks.Pairwise fun later earlier => earlier + minRestartInterval ≤ later) ∧
    (s.pc.over = false → (∃ p, s.alive p = true) ∨ s.sigchld = true ∨ s.pc = .time ∨ s.pc = .fork ∨
      w.missed = true) ∧
    (w.missed = true → ∀ es t w',
      Run watchedDaemon (fun _ e => noStop e = true) (s, w) es (t, w') → ∀ p, t.alive p = false) ∧
    (w.told = true → s.pc.over = true ∧ ∀ p pr, s.procs p = some pr → pr.status ≠ .zombie →
      pr.Ends ∨ w.lost p = true)) := by
  have hrun : (missedDeath.foldlM Daemon.watchedNext
      (.initial, ⟨[], false, false, fun _ => false⟩)).any (fun x =>
      decide ((x.1.pc, x.1.sigchld, x.2.forks, x.2.missed) =
        (.paused, false, [87400, 1000], true))) = true := by decide
  obtain ⟨⟨s, w⟩, hsw, hend⟩ := (Option.any_eq_true _ _).mp hrun
  have hinit : watchedDaemon.init (.initial, ⟨[], false, false, fun _ => false⟩) := ⟨rfl, rfl⟩
  have hreach : Reachable watchedDaemon (fun _ e => noStop e = true) (s, w) :=
    ⟨_, _, hinit, .of_foldlM (fun _ _ _ => Daemon.step_of_watchedNext) hsw⟩
  exact ⟨s, w, hreach, of_decide_eq_true hend, daemon_supervised hreach⟩

end CaNameserver
