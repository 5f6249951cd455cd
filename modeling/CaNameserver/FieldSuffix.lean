import CaNameserver.Runs
import CaNameserver.Channels

/-!
# Requests for a field

A client asks for a record or for one of its fields, and the answer is about the record: every
lookup of `pvExistTest` but one goes by the name that is left when the field is cut off.  The
server's own PVs have no fields and are looked up by the name as it was requested.

* `pvExistTest_congr`: what a request depends on.
* `pvExistTest_field_iff`: when a field makes no difference.
* `run_dropField`: a run in which it makes none is the run of the requests without their fields.
-/

namespace CaNameserver

open CStr Fallible Transition

namespace Server

theorem recordName_append {n : Name} (hdot : '.' ∉ n) (f : Name) :
    recordName (n ++ '.' :: f) = n := by
  rw [recordName, cutAt_append_of_not_mem hdot]
  simp [cutAt]

theorem recordName_self {n : Name} (hdot : '.' ∉ n) : recordName n = n := cutAt_eq_self hdot

/-- Two names have the same chance to be found, in the PV table by their record or among the
server's own PVs as they stand. -/
def OwnAlike (s : Server) (p q : Name) : Prop :=
  s.dir.stringResTbl (recordName q) ≠ none ∨ (p ∈ s.nsResTbl ↔ q ∈ s.nsResTbl)

/-- **A request depends on the record, and on whether the name is one of the server's own.** -/
theorem pvExistTest_congr {rx : Regex} {s : Server} {client p q : Name} {search : CaStatus}
    {now : ℕ} (hp : p.length < pvNameSz - 1) (hq : q.length < pvNameSz - 1)
    (hrecord : recordName p = recordName q) (hown : s.OwnAlike p q) :
    s.pvExistTest rx client p search now = s.pvExistTest rx client q search now := by
  have hbuf : strncpy pvNameSz p = .ok p := if_pos hp
  have hbuf' : strncpy pvNameSz q = .ok q := if_pos hq
  rw [pvExistTest, pvExistTest, hbuf, hbuf']
  dsimp only [bind, Except.bind]
  rw [hrecord]
  by_cases hnil : recordName q = []
  · rw [if_pos hnil, if_pos hnil]
  rw [if_neg hnil, if_neg hnil]
  cases htable : s.dir.stringResTbl (recordName q) with
  | some pve => rfl
  | none =>
      have hmem : p ∈ s.nsResTbl ↔ q ∈ s.nsResTbl := hown.resolve_left (absurd htable)
      simp only [hmem]

/-- A request that is not about an entry of the PV table is for one of the server's own PVs exactly
if its name is. -/
theorem pvExistTest_existsHere_iff (rx : Regex) {s : Server} (client : Name) {p : Name}
    (search : CaStatus) (now : ℕ) (hp : p.length < pvNameSz - 1) (hnil : recordName p ≠ [])
    (htable : s.dir.stringResTbl (recordName p) = none) :
    (∃ s', s.pvExistTest rx client p search now = .ok (s', .existsHere)) ↔ p ∈ s.nsResTbl := by
  have hbuf : strncpy pvNameSz p = .ok p := if_pos hp
  constructor
  · rintro ⟨s', h⟩
    cases pvExistTest_answered h with
    | nameserverPV _ _ hns => exact hns
  · intro hns
    rw [pvExistTest, hbuf]
    dsimp only [bind, Except.bind]
    rw [if_neg hnil, htable]
    dsimp only
    rw [if_pos hns]
    exact ⟨_, rfl⟩

end Server

open Server

/-- **When a field makes no difference.**  A request for a field of `n` is answered as one for `n`,
with the same effects, exactly if the PV table has `n`, or the two names are both names of the
server's own PVs or both not. -/
theorem pvExistTest_field_iff (rx : Regex) (s : Server) (client n f : Name) (search : CaStatus)
    (now : ℕ) (hn : n ≠ []) (hdot : '.' ∉ n) (hlen : (n ++ '.' :: f).length < pvNameSz - 1) :
    s.pvExistTest rx client (n ++ '.' :: f) search now = s.pvExistTest rx client n search now ↔
      s.dir.stringResTbl n ≠ none ∨ (n ++ '.' :: f ∈ s.nsResTbl ↔ n ∈ s.nsResTbl) := by
  have hlen' : n.length < pvNameSz - 1 :=
    lt_of_le_of_lt (List.prefix_append n ('.' :: f)).length_le hlen
  have hfield : recordName (n ++ '.' :: f) = n := recordName_append hdot f
  have hself : recordName n = n := recordName_self hdot
  constructor
  · intro h
    refine or_iff_not_imp_left.mpr fun htable => ?_
    rw [ne_eq, not_not] at htable
    rw [← pvExistTest_existsHere_iff rx client search now hlen (hfield.symm ▸ hn)
        (by rw [hfield, htable]), h,
      pvExistTest_existsHere_iff rx client search now hlen' (hself.symm ▸ hn)
        (by rw [hself, htable])]
  · intro h
    refine pvExistTest_congr hlen hlen' (hfield.trans hself.symm) ?_
    rw [OwnAlike, hself]
    exact h

/-- A request for a field of a name that is not one of the server's own. -/
theorem pvExistTest_field_unknown :
    let s := oneIoc.initial none Dir.empty 0
    s.pvExistTest literal [] "x.VAL".toList .normal 0 =
      s.pvExistTest literal [] "x".toList .normal 0 := by
  intro s
  exact (pvExistTest_field_iff literal s [] "x".toList "VAL".toList .normal 0 (by decide)
    (by decide) (by decide)).mpr (Or.inr (by decide))

set_option maxRecDepth 10000 in
/-- The server's own `heartbeat` is here; asked for `heartbeat.VAL`, the server searches. -/
theorem pvExistTest_field_own : ∃ s : Server,
    Reachable (nameServer literal fun _ => True) (fun _ _ => True) s ∧
      s.pvExistTest literal [] "heartbeat.VAL".toList .normal 0 ≠
        s.pvExistTest literal [] "heartbeat".toList .normal 0 := by
  have hrun : (run literal (fun _ _ => true) oneIoc []).any (fun s =>
      decide (s.dir.stringResTbl "heartbeat".toList = none) &&
        (decide ("heartbeat.VAL".toList ∉ s.nsResTbl) &&
          decide ("heartbeat".toList ∈ s.nsResTbl))) = true := by decide
  obtain ⟨s, hs, hown⟩ := (Option.any_eq_true _ _).mp hrun
  rw [Bool.and_eq_true, Bool.and_eq_true, decide_eq_true_eq, decide_eq_true_eq,
    decide_eq_true_eq] at hown
  refine ⟨s, reachable_of_run (fun _ _ _ _ => trivial) trivial hs, fun heq => ?_⟩
  have hhere : (∃ s', s.pvExistTest literal [] "heartbeat".toList .normal 0 =
      .ok (s', .existsHere)) ↔ _ :=
    pvExistTest_existsHere_iff literal [] .normal 0 (by decide) (by decide) hown.1
  have hfield : (∃ s', s.pvExistTest literal [] "heartbeat.VAL".toList .normal 0 =
      .ok (s', .existsHere)) ↔ _ :=
    pvExistTest_existsHere_iff literal [] .normal 0 (by decide) (by decide) hown.1
  exact hown.2.1 (hfield.mp (heq ▸ hhere.mpr hown.2.2))

/-! ## Runs -/

/-- The event without the field of the name it asks for. -/
def dropField : Event → Event
  | .request client pPVName search now => .request client (recordName pPVName) search now
  | e => e

/-- A request whose field makes no difference in the state it arrives in. -/
def FieldAlike (s : Server) (e : Event) : Prop :=
  ∀ client pPVName search now, e = .request client pPVName search now →
    s.OwnAlike pPVName (recordName pPVName)

/-- Such a request is handled as the one for the record. -/
theorem handle_dropField {rx : Regex} {s t : Server} {e : Event} (h : FieldAlike s e)
    (hstep : handle rx s e = .ok t) : handle rx s (dropField e) = .ok t := by
  cases e with
  | request client pPVName search now =>
      have hlen : pPVName.length < pvNameSz - 1 := by
        rw [handle, bind_eq_ok_iff] at hstep
        obtain ⟨r, hans, -⟩ := hstep
        rw [pvExistTest, bind_eq_ok_iff] at hans
        obtain ⟨buf, hbuf, -⟩ := hans
        exact (strncpy_eq_ok_iff.mp hbuf).1
      have hlen' : (recordName pPVName).length < pvNameSz - 1 :=
        lt_of_le_of_lt (List.takeWhile_sublist _).length_le hlen
      have hrecord : recordName pPVName = recordName (recordName pPVName) :=
        (recordName_self (not_mem_recordName pPVName)).symm
      rw [handle, pvExistTest_congr hlen hlen' hrecord (h client pPVName search now rfl)] at hstep
      exact hstep
  | up c cn => exact hstep
  | down c now => exact hstep
  | purge now tooLong answers => exact hstep
  | report => exact hstep

/-- **Fields can be left off throughout a run.** -/
theorem run_dropField {rx : Regex} {start : Config → Prop} {s t : Server} {es : List Event}
    (h : Run (nameServer rx start) FieldAlike s es t) :
    Run (nameServer rx start) (fun _ _ => True) s (es.map dropField) t := by
  induction h with
  | nil s => exact .nil s
  | @cons s _ _ e _ hok hstep _ ih =>
      refine .cons trivial ⟨?_, handle_dropField hok hstep.2⟩ ih
      cases e with
      | request client pPVName search now => rfl
      | up c cn => exact hstep.1
      | down c now => exact hstep.1
      | purge now tooLong answers => rfl
      | report => rfl

end CaNameserver
