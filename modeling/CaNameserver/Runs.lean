import CaNameserver.StartupSpec

/-!
# The storage is well formed in every run

`WF` does not depend on what the events are or in which order they come: startup establishes it
and every handler keeps it.  Every other invariant needs it, since the description of an event
(`Handled`) identifies entries by their names.

`reachable_induct` is the invariant rule of the server: for an invariant that startup establishes
and every `Handled` event keeps, in a state that is well formed and under whatever condition the
runs are under.  `run_history` is the same from any state on, for a property that also looks at
the events so far.

Concrete runs are evaluated (`runEvents`, `run`) with a decidable condition on the events, and
`reachable_of_run` turns such a run into a reachable state.  They are taken at a small site with
one IOC, whose list names its heartbeat and one PV.
-/

namespace CaNameserver

open CStr Fallible Transition

variable {rx : Regex} {start : Config → Prop} {ok : Server → Event → Prop}

/-- Taking a PV out of the table and deleting it keeps the storage well formed. -/
theorem Dir.WF.forget {d : Dir} (h : d.WF) {n : Name} {e : PvEId}
    (hn : d.stringResTbl n = some e) : ((d.tblRemove n).deletePvE e).WF := by
  have hsub : ∀ x pv, ((d.tblRemove n).deletePvE e).pvEs x = some pv →
      x ≠ e ∧ d.pvEs x = some pv := by
    intro x pv hx
    by_cases hxe : x = e
    · simp [Dir.deletePvE, hxe] at hx
    · exact ⟨hxe, by simpa [Dir.deletePvE, Dir.tblRemove, hxe] using hx⟩
  refine h.shrink ?_ (fun x pv hx => (hsub x pv hx).2)
    (fun j q hq => ⟨q, hq, rfl, List.Sublist.refl _⟩) (fun j p hp hnone => ?_) ?_
    rfl rfl rfl
  · intro m x hm
    by_cases hmn : m = n
    · simp [Dir.deletePvE, Dir.tblRemove, hmn] at hm
    · have hm' : d.stringResTbl m = some x := by
        simpa [Dir.deletePvE, Dir.tblRemove, hmn] using hm
      have hxe : x ≠ e := by
        rintro rfl
        exact hmn (h.table_inj hm' hn)
      exact ⟨hm', by simp [Dir.deletePvE, Dir.tblRemove, hxe]⟩
  · have hp' : ((d.tblRemove n).deletePvE e).pIocs j = some p := hp
    rw [hnone] at hp'
    cases hp'
  · intro j q x pv hq hmem hx
    obtain ⟨hxe, hx'⟩ := hsub x pv hx
    have htab := (h.listed j q x pv hq hmem hx').2
    have hname : pv.resourceName ≠ n := by
      rintro rfl
      rw [hn] at htab
      exact hxe (Option.some.inj htab).symm
    simp [Dir.deletePvE, Dir.tblRemove, hname]

/-- Every event keeps the storage well formed. -/
theorem Handled.wf {s s' : Server} {e : Event} (h : Handled rx s e s') (hwf : s.dir.WF) :
    s'.dir.WF := by
  cases h with
  | heartbeatUp _ _ _ _ hd => exact hwf.reloaded hd
  | heartbeatDown _ _ _ _ hp => exact hwf.setPIoc hp rfl (List.Sublist.refl _)
  | learnedUp _ _ _ _ hd => exact hwf.learned hd
  | learnedDown _ _ _ he => exact hwf.forget he
  | learnedDownFree => exact hwf
  | request h => cases h <;> exact hwf
  | purge _ hframe =>
      rw [hframe.dir]
      exact hwf
  | report => exact hwf

theorem startup_wf {cfg : Config} {s : Server} (h : startup rx cfg = .ok s) : s.dir.WF :=
  (startup_dir_induct (D := fun _ => True) h trivial fun _ _ _ _ _ _ _ => trivial).1

/-- **The invariant rule of the server.** -/
theorem reachable_induct {I : Server → Prop} {s : Server}
    (h : Reachable (nameServer rx start) ok s)
    (hinit : ∀ cfg s, start cfg → startup rx cfg = .ok s → Visits s.dir cfg.order → I s)
    (hstep : ∀ s e s', s.dir.WF → I s → ok s e → Handled rx s e s' → I s') : s.dir.WF ∧ I s := by
  refine h.invariant (I := fun s => s.dir.WF ∧ I s) ?_ ?_
  · rintro s ⟨cfg, hstart, hs, hvisits⟩
    exact ⟨startup_wf hs, hinit cfg s hstart hs hvisits⟩
  · rintro s e s' ⟨hwf, hI⟩ hok ⟨hen, hs'⟩
    have hh := handle_handled hwf hen hs'
    exact ⟨hh.wf hwf, hstep s e s' hwf hI hok hh⟩

theorem reachable_wf {s : Server} (h : Reachable (nameServer rx start) ok s) : s.dir.WF :=
  (reachable_induct (I := fun _ => True) h (fun _ _ _ _ _ => trivial)
    fun _ _ _ _ _ _ _ => trivial).1

/-- The same from any state on, for a property that also looks at the events so far. -/
theorem run_history {I : List Event → Server → Prop} {s t : Server} {es : List Event}
    (h : Run (nameServer rx start) ok s es t) (hwf : s.dir.WF) (hs : I [] s)
    (hstep : ∀ pre s e s', s.dir.WF → I pre s → ok s e → Handled rx s e s' →
      I (pre ++ [e]) s') : t.dir.WF ∧ I es t := by
  refine h.history (I := fun es s => s.dir.WF ∧ I es s) ?_ ⟨hwf, hs⟩
  rintro pre s e s' ⟨hwf, hI⟩ hok ⟨hen, hs'⟩
  have hh := handle_handled hwf hen hs'
  exact ⟨hh.wf hwf, hstep pre s e s' hwf hI hok hh⟩

theorem run_wf {s t : Server} {es : List Event} (h : Run (nameServer rx start) ok s es t)
    (hwf : s.dir.WF) : t.dir.WF :=
  (run_history (I := fun _ _ => True) h hwf trivial fun _ _ _ _ _ _ _ _ => trivial).1

/-! ## Executable runs -/

theorem Dir.WF.visits_of_visits {d : Dir} (h : d.WF) {order : List IocId}
    (hv : visits d order = true) : Visits d order := by
  simp only [visits, Bool.and_eq_true, decide_eq_true_eq, List.all_eq_true, List.mem_range,
    beq_iff_eq] at hv
  obtain ⟨⟨hnd, hlt⟩, hall⟩ := hv
  have hsome : ∀ i, (∃ n, d.iocResTbl n = some i) ↔ (d.pIocs i).isSome = true := by
    intro i
    rw [Option.isSome_iff_exists]
    constructor
    · rintro ⟨n, hn⟩
      obtain ⟨p, hp, -⟩ := (h.iocTable n i).mp hn
      exact ⟨p, hp⟩
    · rintro ⟨p, hp⟩
      exact ⟨p.iocname, (h.iocTable _ i).mpr ⟨p, hp, rfl⟩⟩
  refine ⟨hnd, fun i => ?_⟩
  rw [hsome]
  constructor
  · intro hi
    rw [← hall i (hlt i hi)]
    exact decide_eq_true hi
  · intro hi
    obtain ⟨p, hp⟩ := Option.isSome_iff_exists.mp hi
    rw [← hall i (h.pIocs_lt i p hp)] at hi
    exact of_decide_eq_true hi

theorem run_of_runEvents {okb : Server → Event → Bool} {s s' : Server} {es : List Event}
    (hok : ∀ s e, s.dir.WF → okb s e = true → ok s e) (hwf : s.dir.WF)
    (h : runEvents rx okb s es = some s') : Run (nameServer rx start) ok s es s' := by
  induction es generalizing s with
  | nil =>
      cases h
      exact Run.nil _
  | cons e es ih =>
      rw [runEvents] at h
      split_ifs at h with hcond
      rw [Bool.and_eq_true] at hcond
      obtain ⟨hen, hokb⟩ := hcond
      split at h
      · rename_i s₁ hs₁
        exact Run.cons (hok s e hwf hokb) ⟨hen, hs₁⟩
          (ih ((handle_handled hwf hen hs₁).wf hwf) h)
      · cases h

/-- An executable run is a run from an initial state. -/
theorem run_of_run {okb : Server → Event → Bool} {cfg : Config} {s : Server} {es : List Event}
    (hok : ∀ s e, s.dir.WF → okb s e = true → ok s e) (hstart : start cfg)
    (h : run rx okb cfg es = some s) :
    ∃ s₀, (nameServer rx start).init s₀ ∧ Run (nameServer rx start) ok s₀ es s := by
  unfold run at h
  split at h
  · rename_i s₀ hs₀
    split_ifs at h with hv
    have hwf := startup_wf hs₀
    exact ⟨s₀, ⟨cfg, hstart, hs₀, hwf.visits_of_visits hv⟩, run_of_runEvents hok hwf h⟩
  · cases h

/-- The last state of an executable run is reachable. -/
theorem reachable_of_run {okb : Server → Event → Bool} {cfg : Config} {s : Server}
    {es : List Event} (hok : ∀ s e, s.dir.WF → okb s e = true → ok s e) (hstart : start cfg)
    (h : run rx okb cfg es = some s) : Reachable (nameServer rx start) ok s := by
  obtain ⟨s₀, hinit, hrun⟩ := run_of_run hok hstart h
  exact ⟨s₀, es, hinit, hrun⟩

/-- An executable run, from an unrestricted start. -/
theorem run_of_eq_some {okb : Server → Event → Bool} {cfg : Config} {s : Server}
    {es : List Event} (h : run rx okb cfg es = some s) :
    ∃ s₀, (nameServer rx fun _ => True).init s₀ ∧
      Run (nameServer rx fun _ => True) (fun s e => okb s e = true) s₀ es s :=
  run_of_run (fun _ _ _ hok => hok) trivial h

theorem reachable_of_eq_some {okb : Server → Event → Bool} {cfg : Config} {s : Server}
    {es : List Event} (h : run rx okb cfg es = some s) :
    Reachable (nameServer rx fun _ => True) (fun s e => okb s e = true) s :=
  reachable_of_run (fun _ _ _ hok => hok) trivial h

/-! ## A small site

Concrete runs are taken at a site with one IOC, whose list names its heartbeat and one PV. -/

/-- Patterns that match themselves only. -/
def literal : Regex :=
  ⟨fun _ => true, fun pattern name => if pattern = name then some name.length else none⟩

/-- The site. -/
def oneIoc : Config where
  filenameIsIocname := false
  pvPrefix := []
  pvlist := none
  aToIPAddr := fun _ _ => none
  lev := 1
  directory := some "A/sig".toList
  fs := fun _ => some "A:heartbeat x".toList
  order := [0]
  search := .normal
  now := 0
  lapse := fun _ => 0

/-- A connection to a server whose name resolves, at a moment when every list reads `list`. -/
def connectionTo (host : String) (port : ℕ) (list : String) : Connection :=
  ⟨host.toList, ⟨afInet, port, InAddr.zero⟩,
    fun _ portNumber => some ⟨afInet, portNumber.toNat, InAddr.zero⟩, fun _ => some list.toList⟩

end CaNameserver
