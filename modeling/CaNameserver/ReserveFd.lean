import CaNameserver.Lib.Transition
import Mathlib.Data.List.Chain

/-!
# The reserved file descriptor

`reserve_fd.cc` keeps a dummy stream open, so that a descriptor is left for the next file.
`reserve_fd_fopen` gives the dummy up; `reserve_fd_fclose` opens it again, without looking whether
it is open already.  Where the uses of two files overlap --- a report of the signal handler while
a signal list is read --- the second close opens a second dummy and forgets the first.

## The streams

`Fds` has the open streams by the order in which they were opened, and `reserveFp`.  A `Call`
comes with the outcome of each `fopen` that it makes, so that a run has any of them fail.  `Tight`
says that at most one dummy is open and that `reserveFp` refers to it.

## One call

To open a file never loses the dummy: it is closed first, and opened again only if the file could
not be opened.  To close a file does, if there is a dummy and another can be opened
(`exec_tight_iff`).  Whether there is a dummy after a call does not depend on what was before it
(`exec_reserveFp`).  So a sequence is judged by neighbouring calls: `Spaced` says that no close
comes right after a call that has left a dummy open.

* `alwaysTight_iff`: every point of a run is tight exactly if the calls are spaced.
* `overlap_leaks`: two uses that overlap.
* `tight_uses`: uses that do not overlap are spaced.
-/

namespace CaNameserver

open Transition

namespace ReserveFd

/-- An open stream, by the order in which the streams were opened. -/
abbrev Stream := ℕ

/-- The open streams. -/
structure Fds where
  /-- the streams that `reserve_fd_fopen` has returned and nobody has closed -/
  held : List Stream
  /-- the streams on `nameserver.reserve` -/
  reserves : List Stream
  reserveFp : Option Stream
  next : Stream
  deriving DecidableEq, Repr

namespace Fds

/-- `FILE *reserveFp = NULL`, and nothing open. -/
def initial : Fds := ⟨[], [], none, 0⟩

/-- `reserveFp = ::fopen(NS_RESERVE_FILE, "w")`; whether it succeeds is `ok`. -/
def openReserve (s : Fds) (ok : Bool) : Fds :=
  if ok then
    { s with reserves := s.next :: s.reserves, reserveFp := some s.next, next := s.next + 1 }
  else { s with reserveFp := none }

/-- `if(reserveFp) ::fclose(reserveFp); reserveFp = NULL;` -/
def closeReserve (s : Fds) : Fds :=
  match s.reserveFp with
  | some fp => { s with reserves := s.reserves.erase fp, reserveFp := none }
  | none => s

/-- `reserve_fd_fopen`: `file` says whether the file can be opened, `reserve` whether the dummy
can be got back where it cannot. -/
def reserveFdFopen (s : Fds) (file reserve : Bool) : Fds × Option Stream :=
  let s := s.closeReserve
  if file then ({ s with held := s.next :: s.held, next := s.next + 1 }, some s.next)
  else (s.openReserve reserve, none)

/-- `reserve_fd_fclose`. -/
def reserveFdFclose (s : Fds) (stream : Stream) (reserve : Bool) : Fds :=
  let s := { s with held := s.held.erase stream }
  s.openReserve reserve

/-- The number of open descriptors. -/
def descriptors (s : Fds) : ℕ := s.held.length + s.reserves.length

/-- At most one dummy stream is open, and `reserveFp` refers to it. -/
def Tight (s : Fds) : Prop := s.reserves = s.reserveFp.toList

instance (s : Fds) : Decidable s.Tight := inferInstanceAs (Decidable (_ = _))

/-- The descriptors are those of the callers and at most one more. -/
theorem Tight.descriptors_le {s : Fds} (h : s.Tight) : s.descriptors ≤ s.held.length + 1 := by
  rw [descriptors, h]
  cases s.reserveFp with
  | none => simp
  | some fp => simp

theorem Tight.closeReserve {s : Fds} (h : s.Tight) :
    s.closeReserve.reserves = [] ∧ s.closeReserve.reserveFp = none := by
  rw [Tight] at h
  rw [Fds.closeReserve]
  cases hfp : s.reserveFp with
  | none =>
      rw [hfp] at h
      exact ⟨h, hfp⟩
  | some fp =>
      rw [hfp] at h
      dsimp only
      rw [h]
      simp

theorem openReserve_tight_iff {s : Fds} (ok : Bool) (h : s.Tight) :
    (s.openReserve ok).Tight ↔ s.reserveFp = none := by
  rw [Tight] at h
  cases ok with
  | true =>
      rw [openReserve, if_pos rfl]
      show s.next :: s.reserves = [s.next] ↔ _
      rw [h]
      simp
  | false =>
      rw [openReserve, if_neg (by decide)]
      show s.reserves = [] ↔ _
      rw [h]
      simp

end Fds

/-! ## Calls -/

/-- A call, with the outcomes of the `fopen` calls it makes. -/
inductive Call where
  | fopen (file reserve : Bool)
  | fclose (stream : Stream) (reserve : Bool)
  deriving DecidableEq, Repr

namespace Call

/-- What a call does. -/
def exec (s : Fds) : Call → Fds
  | fopen file reserve => (s.reserveFdFopen file reserve).1
  | fclose stream reserve => s.reserveFdFclose stream reserve

/-- A stream is closed once: it is open. -/
def Allowed (s : Fds) : Call → Prop
  | fopen _ _ => True
  | fclose stream _ => stream ∈ s.held

instance (s : Fds) : (c : Call) → Decidable (c.Allowed s)
  | fopen _ _ => inferInstanceAs (Decidable True)
  | fclose stream _ => inferInstanceAs (Decidable (stream ∈ s.held))

/-- The call ends with the dummy open. -/
def reserves : Call → Bool
  | fopen file reserve => !file && reserve
  | fclose _ reserve => reserve

/-- The call closes a stream. -/
def closes : Call → Bool
  | fopen _ _ => false
  | fclose _ _ => true

/-- Whether there is a dummy after a call does not depend on what was before it. -/
theorem exec_reserveFp (s : Fds) (c : Call) : (c.exec s).reserveFp = none ↔ c.reserves = false := by
  cases c with
  | fopen file reserve =>
      cases file with
      | true =>
          have hnone : s.closeReserve.reserveFp = none := by
            rw [Fds.closeReserve]
            cases hfp : s.reserveFp with
            | none => exact hfp
            | some fp => rfl
          exact iff_of_true hnone rfl
      | false => cases reserve <;> simp [exec, Fds.reserveFdFopen, Fds.openReserve, reserves]
  | fclose stream reserve =>
      cases reserve <;> simp [exec, Fds.reserveFdFclose, Fds.openReserve, reserves]

/-- **What a call keeps.**  Opening a file never loses the dummy; closing one does where there is
a dummy already. -/
theorem exec_tight_iff {s : Fds} (h : s.Tight) (c : Call) :
    (c.exec s).Tight ↔ (c.closes = true → s.reserveFp = none) := by
  cases c with
  | fopen file reserve =>
      obtain ⟨hnil, hnone⟩ := h.closeReserve
      have htight : s.closeReserve.Tight := by
        rw [Fds.Tight, hnil, hnone]
        rfl
      refine iff_of_true ?_ (by simp [closes])
      cases file with
      | true => exact htight
      | false => exact (Fds.openReserve_tight_iff reserve htight).mpr hnone
  | fclose stream reserve =>
      have htight : Fds.Tight { s with held := s.held.erase stream } := h
      have hiff := Fds.openReserve_tight_iff reserve htight
      exact ⟨fun h' _ => hiff.mp h', fun h' => hiff.mpr (h' rfl)⟩

end Call

/-- The streams, driven by calls. -/
def reserveFds : System Fds Call where
  init s := s = Fds.initial
  step s c s' := c.Allowed s ∧ s' = c.exec s

/-- Any sequence of calls. -/
abbrev Calls (calls : List Call) (s : Fds) : Prop :=
  Run reserveFds (fun _ _ => True) Fds.initial calls s

/-- No close comes right after a call that has left a dummy open. -/
def Spaced (calls : List Call) : Prop :=
  calls.IsChain fun c c' => c'.closes = true → c.reserves = false

instance (calls : List Call) : Decidable (Spaced calls) :=
  inferInstanceAs (Decidable (calls.IsChain _))

/-- At every point of the sequence at most one dummy is open, which `reserveFp` refers to, so that
the descriptors are those of the callers and at most one more. -/
def AlwaysTight (calls : List Call) : Prop :=
  ∀ pre post s, calls = pre ++ post → Calls pre s → s.Tight ∧ s.descriptors ≤ s.held.length + 1

/-- There is a dummy exactly if the last call has left one. -/
theorem reserveFp_eq_none_iff {calls : List Call} {s : Fds} (h : Calls calls s) :
    s.reserveFp = none ↔ ∀ c ∈ calls.getLast?, c.reserves = false := by
  refine h.history
    (I := fun calls s => s.reserveFp = none ↔ ∀ c ∈ calls.getLast?, c.reserves = false) ?_
    (by simp [Fds.initial])
  rintro pre s c s' - - ⟨-, rfl⟩
  rw [c.exec_reserveFp, List.getLast?_concat]
  simp

/-- Spaced calls keep the streams tight. -/
theorem Spaced.tight {calls : List Call} (hspaced : Spaced calls) {s : Fds} (h : Calls calls s) :
    s.Tight := by
  refine (h.history (I := fun calls s => Calls calls s ∧ (Spaced calls → s.Tight)) ?_
    ⟨.nil _, fun _ => rfl⟩).2 hspaced
  rintro pre s c s' ⟨hrun, htight⟩ - hstep
  refine ⟨hrun.append (.cons trivial hstep (.nil _)), fun hchain => ?_⟩
  obtain ⟨-, rfl⟩ := hstep
  obtain ⟨hpre, -, hlast⟩ := List.isChain_append.mp hchain
  refine (c.exec_tight_iff (htight hpre)).mpr fun hcloses => ?_
  rw [reserveFp_eq_none_iff hrun]
  exact fun c₀ hc₀ => hlast c₀ hc₀ c rfl hcloses

/-- **When no descriptor leaks.** -/
theorem alwaysTight_iff {calls : List Call} {s : Fds} (h : Calls calls s) :
    AlwaysTight calls ↔ Spaced calls := by
  constructor
  · intro hall
    induction calls using List.reverseRecOn generalizing s with
    | nil => exact List.isChain_nil
    | append_singleton pre c ih =>
        obtain ⟨t, hpre, hc⟩ := h.split
        have hspaced := ih hpre fun pre' post s' heq => hall pre' (post ++ [c]) s' (by simp [heq])
        refine List.isChain_append.mpr ⟨hspaced, List.isChain_singleton c, ?_⟩
        intro c₀ hc₀ c' hc' hcloses
        cases hc'
        -- the step from a tight point to a tight point
        have ht := (hall pre [c] t rfl hpre).1
        have hs := (hall (pre ++ [c]) [] s (by simp) h).1
        obtain ⟨-, -, rfl⟩ := hc.single
        exact (reserveFp_eq_none_iff hpre).mp ((c.exec_tight_iff ht).mp hs hcloses) c₀ hc₀
  · intro hspaced pre post t hpre ht
    have hspaced' : Spaced pre := List.IsChain.left_of_append (hpre ▸ hspaced)
    have htight := hspaced'.tight ht
    exact ⟨htight, htight.descriptors_le⟩

/-- A list is opened, read and closed. -/
theorem alwaysTight_oneFile : AlwaysTight [.fopen true true, .fclose 0 true] := by
  have hrun : Calls [.fopen true true, .fclose 0 true]
      ([.fopen true true, .fclose 0 true].foldl Call.exec Fds.initial) :=
    .cons trivial ⟨by decide, rfl⟩ (.cons trivial ⟨by decide, rfl⟩ (.nil _))
  exact (alwaysTight_iff hrun).mpr (by decide)

/-- A report writes `never.log` while a list is open: the dummy of the one close is forgotten by
the other. -/
theorem overlap_leaks : ¬ ∀ calls s, Calls calls s → AlwaysTight calls := by
  intro hall
  have hrun : Calls [.fopen true true, .fopen true true, .fclose 1 true, .fclose 0 true]
      ([.fopen true true, .fopen true true, .fclose 1 true, .fclose 0 true].foldl Call.exec
        Fds.initial) :=
    .cons trivial ⟨by decide, rfl⟩ (.cons trivial ⟨by decide, rfl⟩
      (.cons trivial ⟨by decide, rfl⟩ (.cons trivial ⟨by decide, rfl⟩ (.nil _))))
  exact absurd (hall _ _ hrun _ [] _ (List.append_nil _).symm hrun).1 (by decide)

/-! ## Callers -/

/-- How the callers use a file: it is opened and, if that succeeds, closed at the end. -/
inductive Use where
  | opened (stream : Stream) (reserve reserve' : Bool)
  | failed (reserve : Bool)

/-- The calls of a use. -/
def Use.calls : Use → List Call
  | opened stream reserve reserve' => [.fopen true reserve, .fclose stream reserve']
  | failed reserve => [.fopen false reserve]

/-- **Uses that do not overlap leak nothing.** -/
theorem spaced_uses (uses : List Use) : Spaced (uses.flatMap Use.calls) := by
  induction uses with
  | nil => exact List.isChain_nil
  | cons u uses ih =>
      rw [List.flatMap_cons]
      refine List.isChain_append.mpr ⟨?_, ih, ?_⟩
      · cases u with
        | opened stream reserve reserve' => simp [Use.calls, Call.reserves]
        | failed reserve => exact List.isChain_singleton _
      · intro c _ c' hc' hcloses
        cases uses with
        | nil => cases hc'
        | cons u' uses =>
            cases u' <;> cases hc' <;> cases hcloses

/-- At the end of such a sequence of uses there is no leak, whatever could be opened. -/
theorem tight_uses {uses : List Use} {s : Fds} (h : Calls (uses.flatMap Use.calls) s) : s.Tight :=
  (spaced_uses uses).tight h

end ReserveFd

end CaNameserver
