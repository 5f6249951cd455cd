import CaNameserver.Listed

/-!
# Old entries and new ones

The table of PVs forgets by what an entry was made: an entry of a list and one of a learned
connection look the same, and which of the two a PV has decides whose server it should be served
at.  What tells them apart is when they were made.

## Addresses tell the age

Addresses of entries are given out in order and not reused.  So after an event an entry below the
`nextPvE` of the state before it is an old one, and an entry from there on is one that the event
has made.  `Turnover` says what an event may do to the table: old entries stay as they are or go,
and the new ones belong to one IOC, the one whose list is read or whose server has been found.

* `Turnover.refl`, `Turnover.trans`: events are made of several insertions and removals, and what
  is new to one of them is new to the whole.
* `Installed.turnover`, `Removed.turnover`, `addAllPvs_turnover`: the parts.
* `Reloaded.turnover`, `Learned.turnover`: a heartbeat's connection and a learned PV's.

## Which entries are new

A learned connection makes one entry at most, that of its own PV, and only where the name is free
or its owner is down (`enters`).  A reload makes a new entry for every PV that its file names and
whose owner is down, the IOC itself included, with the exception of its own heartbeat
(`Reloaded.new_of_mem`): so a PV that had been learned at this very IOC is the list's from then
on.
-/

namespace CaNameserver

open CStr Fallible

namespace Dir

variable {d d' d'' : Dir} {n m : Name} {i j : IocId}

/-- Entries stay as they are or go, and new ones belong to the IOC `i`. -/
structure Turnover (d : Dir) (i : IocId) (d' : Dir) : Prop where
  nextPvE : d.nextPvE ≤ d'.nextPvE
  entry : ∀ m x, d'.stringResTbl m = some x →
    (d.stringResTbl m = some x ∧ d'.pvEs x = d.pvEs x) ∨
      (d.nextPvE ≤ x ∧ d'.owner m = some i)

namespace Turnover

theorem refl (d : Dir) (i : IocId) : Turnover d i d :=
  ⟨le_rfl, fun _ _ hx => Or.inl ⟨hx, rfl⟩⟩

theorem setPIoc (d : Dir) (j : IocId) (p : PIoc) (i : IocId) : Turnover d i (d.setPIoc j p) :=
  ⟨le_rfl, fun _ _ hx => Or.inl ⟨hx, rfl⟩⟩

/-- An old entry has the owner it had. -/
theorem owner_eq {x : PvEId} (hx : d.stringResTbl m = some x) (hx' : d'.stringResTbl m = some x)
    (hpv : d'.pvEs x = d.pvEs x) : d'.owner m = d.owner m := by
  simp only [Dir.owner, hx, hx', Option.bind_some, hpv]

theorem trans (h : Turnover d i d') (h' : Turnover d' i d'') : Turnover d i d'' := by
  refine ⟨h.nextPvE.trans h'.nextPvE, fun m x hx => ?_⟩
  rcases h'.entry m x hx with ⟨hx', hpv'⟩ | ⟨hnew, howner⟩
  · rcases h.entry m x hx' with ⟨hx₀, hpv⟩ | ⟨hnew, howner⟩
    · exact Or.inl ⟨hx₀, hpv'.trans hpv⟩
    · exact Or.inr ⟨hnew, (owner_eq hx' hx hpv').trans howner⟩
  · exact Or.inr ⟨h.nextPvE.trans hnew, howner⟩

/-- Nothing is made, and what stays in the table stays as it is. -/
theorem of_subset (hnext : d'.nextPvE = d.nextPvE)
    (h : ∀ m x, d'.stringResTbl m = some x → d.stringResTbl m = some x ∧ d'.pvEs x = d.pvEs x)
    (i : IocId) : Turnover d i d' :=
  ⟨hnext.ge, fun m x hx => Or.inl (h m x hx)⟩

theorem enter (hwf : WF d) (n : Name) (i : IocId) (p : PIoc) : Turnover d i (d.enter n i p) := by
  refine ⟨Nat.le_succ _, fun m x hx => ?_⟩
  rw [enter_stringResTbl] at hx
  split_ifs at hx with hm
  · cases hx
    exact Or.inr ⟨le_rfl, by rw [hwf.owner_enter, if_pos hm]⟩
  · obtain ⟨pv, hpv, -⟩ := hwf.table m x hx
    exact Or.inl ⟨hx, by rw [enter_pvEs, if_neg (hwf.pvEs_lt x pv hpv).ne]⟩

theorem takePV (hwf : WF d) {e : PvEId} (he : d.stringResTbl n = some e) (o : IocId) (q : PIoc)
    (i : IocId) : Turnover d i (d.takePV n e o q) := by
  refine of_subset (takePV_nextPvE ..) (fun m x hx => ?_) i
  rw [takePV_stringResTbl] at hx
  split_ifs at hx with hm
  refine ⟨hx, ?_⟩
  rw [takePV_pvEs, if_neg]
  rintro ⟨rfl, -⟩
  exact hm (hwf.table_inj hx he)

theorem forget (hwf : WF d) {e : PvEId} (he : d.stringResTbl n = some e) (i : IocId) :
    Turnover d i ((d.tblRemove n).deletePvE e) := by
  have hnext : ((d.tblRemove n).deletePvE e).nextPvE = d.nextPvE := rfl
  refine of_subset hnext (fun m x hx => ?_) i
  change (d.tblRemove n).stringResTbl m = some x at hx
  rw [tblRemove_stringResTbl] at hx
  split_ifs at hx with hm
  refine ⟨hx, ?_⟩
  rw [deletePvE_pvEs, if_neg]
  · rfl
  · rintro rfl
    exact hm (hwf.table_inj hx he)

end Turnover

/-! ## The parts of an event -/

theorem Installed.turnover {r : ℤ} (h : Installed d n i d' r) (hwf : WF d) : Turnover d i d' := by
  cases h with
  | entered => exact .enter hwf n i _
  | ownHeartbeat => exact .refl d i
  | moved _ he _ hpv ho hq =>
      exact (Turnover.takePV hwf he _ _ i).trans (.enter (hwf.takePV he hpv ho hq) n i _)
  | refused => exact .refl d i

theorem Removed.turnover {p : PIoc} (h : Removed d j p d') (i : IocId) : Turnover d i d' := by
  refine .of_subset h.nextPvE (fun m x hx => ?_) i
  rw [h.stringResTbl, Option.filter_eq_some_iff] at hx
  refine ⟨hx.1, ?_⟩
  rw [h.pvEs, if_neg]
  simpa using hx.2

theorem addAllPvs_turnover {fs : FileSystem} {r : ℤ} (hwf : WF d)
    (h : d.addAllPvs fs i = .ok (d', r)) : Turnover d i d' := by
  have hall : WF d' ∧ Turnover d i d' := by
    refine addAllPvs_induct (P := fun d' => WF d' ∧ Turnover d i d') h ⟨hwf, .refl d i⟩ ?_
    rintro p - m - d₁ d₂ r' ⟨hwf₁, h₁⟩ hi
    exact ⟨hwf₁.installed hi, h₁.trans (hi.turnover hwf₁)⟩
  exact hall.2

/-- A name that is read gets a new entry, if it was free or its owner down. -/
theorem addAllPvs_new (hwf : WF d) {fs : FileSystem} {p : PIoc} {r : ℤ}
    (ha : d.addAllPvs fs i = .ok (d', r)) (hp : d.pIocs i = some p)
    (hn : n ∈ signals fs p.pathToList) (hname : n ≠ p.heartbeatName) (hdown : d.OwnerDown n)
    {x : PvEId} (hx : d'.stringResTbl n = some x) : d.nextPvE ≤ x := by
  have hall : WF d' ∧ d'.header = d.header ∧ d.nextPvE ≤ d'.nextPvE ∧
      ((∀ y, d'.stringResTbl n = some y → d.nextPvE ≤ y) ∨
        n ∉ signals fs p.pathToList ∧ d'.owner n = d.owner n) := by
    refine addAllPvs_prefix_induct (P := fun pre d' => WF d' ∧ d'.header = d.header ∧
      d.nextPvE ≤ d'.nextPvE ∧ ((∀ y, d'.stringResTbl n = some y → d.nextPvE ≤ y) ∨
        n ∉ pre ∧ d'.owner n = d.owner n)) ha hp
      ⟨hwf, rfl, le_rfl, Or.inr ⟨List.not_mem_nil, rfl⟩⟩ ?_
    rintro pre m post d₁ d₂ r' - ⟨hwf₁, hhead, hnext, h₁⟩ hi
    have hg := hi.turnover hwf₁
    refine ⟨hwf₁.installed hi, hi.header.trans hhead, hnext.trans hg.nextPvE, ?_⟩
    rcases h₁ with h₁ | ⟨hpre, hown⟩
    · refine Or.inl fun y hy => ?_
      rcases hg.entry n y hy with ⟨hy₁, -⟩ | ⟨hnew, -⟩
      · exact h₁ y hy₁
      · exact hnext.trans hnew
    · by_cases hmn : n = m
      · subst hmn
        have hp' := header_of_pIocs hp
        rw [← hhead] at hp'
        obtain ⟨p₁, hp₁, hpp⟩ := header_eq_some_iff.mp hp'
        have hiocname : p₁.iocname = p.iocname := (PIoc.eq_of_header hpp).1
        have hname₁ : n ≠ p₁.heartbeatName := by
          rw [PIoc.heartbeatName, hiocname]
          exact hname
        refine Or.inl fun y hy => ?_
        cases hi with
        | entered =>
            rw [enter_stringResTbl, if_pos rfl] at hy
            cases hy
            exact hnext
        | ownHeartbeat hp₁' _ hname' =>
            rw [hp₁] at hp₁'
            cases hp₁'
            exact absurd hname' hname₁
        | moved =>
            rw [enter_stringResTbl, if_pos rfl, takePV_nextPvE] at hy
            cases hy
            exact hnext
        | refused _ he _ hpv hup =>
            -- the owner is still down, so the insertion is not refused
            obtain ⟨o, ho, -⟩ := hwf₁.owner_lt _ _ hpv
            have hown₁ := hown ▸ (owner_of_entry he hpv).trans ho
            obtain ⟨q, hq, hst⟩ := hdown o hown₁
            have hq' := header_of_pIocs hq
            rw [← hhead] at hq'
            obtain ⟨q₁, hq₁, hqq⟩ := header_eq_some_iff.mp hq'
            exact absurd ((PIoc.eq_of_header hqq).2.2.1.trans hst) (hup o q₁ ho hq₁)
      · refine Or.inr ⟨?_, (hi.owner_of_ne hwf₁ hmn).trans hown⟩
        rw [List.mem_append, List.mem_singleton]
        exact fun h => h.elim hpre hmn
  exact hall.2.2.2.resolve_right (fun h => h.1 hn) x hx

/-! ## Events -/

theorem Reloaded.turnover {cn : Connection} (h : Reloaded d i cn d') (hwf : WF d) :
    Turnover d i d' := by
  cases h with
  | first => exact .setPIoc d i _ i
  | still => exact .setPIoc d i _ i
  | @again p q d₁ d₂ r hp hst hrem hadd hq =>
      have hwf₀ := hwf.setPIoc (q := { p with addr := cn.addr p.addr }) hp rfl
        (List.Sublist.refl _)
      have hwf₁ := hwf₀.removed (setPIoc_pIocs_self ..) hrem
      have hremoved : Turnover d i d₁ := (Turnover.setPIoc d i _ i).trans (hrem.turnover i)
      exact (hremoved.trans (addAllPvs_turnover hwf₁ hadd)).trans (.setPIoc d₂ i _ i)

/-- A PV of an IOC that is down, and that its file names, is the list's after the reload. -/
theorem Reloaded.new_of_mem {cn : Connection} {p : PIoc} (h : Reloaded d i cn d') (hwf : WF d)
    (hp : d.pIocs i = some p) (hst : p.status = 2) (hname : n ≠ p.heartbeatName)
    (hn : n ∈ signals cn.fs p.pathToList) (ho : d.owner n = some i) {x : PvEId}
    (hx : d'.stringResTbl n = some x) : d.nextPvE ≤ x := by
  obtain ⟨d₁, d₂, q, r, hwf₀, hrem, hwf₁, hadd, -, rfl⟩ := h.of_down hwf hp hst
  have hdown : d₁.OwnerDown n := by
    intro o ho₁
    rcases hrem.owner_mono (n := n) with hsame | hgone
    · rw [hsame, owner_setPIoc, ho] at ho₁
      cases ho₁
      exact ⟨_, hrem.pIocs_self, hst⟩
    · rw [hgone] at ho₁
      cases ho₁
  have hnew := addAllPvs_new hwf₁ hadd hrem.pIocs_self hn hname hdown hx
  rwa [hrem.nextPvE] at hnew

theorem turnover_findOrInstallIoc (d : Dir) (name : Name) (i : IocId) :
    Turnover d i (d.findOrInstallIoc name).1 := by
  unfold findOrInstallIoc installIocName
  split
  · exact .refl d i
  · split
    · exact .refl d i
    · exact ⟨le_rfl, fun _ _ hx => Or.inl ⟨hx, rfl⟩⟩

theorem Learned.turnover {cn : Connection} {p : PIoc} (h : Learned d cn n i p d') (hwf : WF d) :
    Turnover d i d' := by
  cases h with
  | @mk d₂ q r hi hp hinst hq =>
      have hwf₁ := (hwf.findOrInstallIoc cn.iocname).setPIoc (q := p.met cn) hp (by simp) (by simp)
      have hsite : Turnover d i ((d.findOrInstallIoc cn.iocname).1.setPIoc i (p.met cn)) :=
        (turnover_findOrInstallIoc d cn.iocname i).trans (.setPIoc _ i _ i)
      exact (hsite.trans (hinst.turnover hwf₁)).trans (.setPIoc d₂ i _ i)

/-- An insertion of another name leaves the table's entry as it is. -/
theorem Installed.stringResTbl_of_ne {r : ℤ} (h : Installed d n i d' r) (hm : m ≠ n) :
    d'.stringResTbl m = d.stringResTbl m := by
  cases h with
  | entered => rw [enter_stringResTbl, if_neg hm]
  | ownHeartbeat => rfl
  | moved => rw [enter_stringResTbl, if_neg hm, takePV_stringResTbl, if_neg hm]
  | refused => rfl

/-- A learned connection makes no entry but that of its PV. -/
theorem Learned.eq_of_new {cn : Connection} {p : PIoc} (h : Learned d cn n i p d') (hwf : WF d)
    {x : PvEId} (hx : d'.stringResTbl m = some x) (hnew : d.nextPvE ≤ x) : m = n := by
  cases h with
  | @mk d₂ q r hi hp hinst hq =>
      by_contra hm
      rw [setPIoc_stringResTbl, hinst.stringResTbl_of_ne hm, setPIoc_stringResTbl,
        findOrInstallIoc_stringResTbl] at hx
      obtain ⟨pv, hpv, -⟩ := hwf.table m x hx
      exact absurd (hwf.pvEs_lt x pv hpv) (Nat.not_lt.mpr hnew)

/-- An insertion under the IOC `p` takes the name: it is free, or its owner is down. -/
def enters (d : Dir) (n : Name) (p : PIoc) : Bool :=
  match d.owner n with
  | none => true
  | some o => decide (n ≠ p.heartbeatName) && (d.pIocs o).any fun q => decide (q.status = 2)

/-- The entry of a learned PV is made if its connection takes the name, and stays otherwise. -/
theorem Learned.entry_cases {cn : Connection} {p : PIoc} (h : d.Learned cn n i p d')
    (hwf : d.WF) : (d'.stringResTbl = d.stringResTbl ∧ d'.owner = d.owner) ∨
      d'.owner n = some i ∧ d.enters n p = true := by
  have howner : (d.findOrInstallIoc cn.iocname).1.owner = d.owner := by
    unfold Dir.findOrInstallIoc
    split
    · rfl
    · rw [Dir.owner_installIocName]
  have hsite := h.site_cases hwf
  cases h with
  | @mk d₂ q r hi hp hinst hq =>
      have hwf₁ := (hwf.findOrInstallIoc cn.iocname).setPIoc (q := p.met cn) hp (by simp) (by simp)
      rw [Dir.owner_setPIoc, Dir.setPIoc_stringResTbl]
      cases hinst with
      | entered _ hfree =>
          rw [hwf₁.owner_enter, if_pos rfl]
          refine Or.inr ⟨rfl, ?_⟩
          have hnone := hwf₁.owner_eq_none_iff.mpr hfree
          rw [Dir.owner_setPIoc, howner] at hnone
          rw [Dir.enters, hnone]
      | ownHeartbeat =>
          exact Or.inl ⟨findOrInstallIoc_stringResTbl d _, howner⟩
      | @moved p₀ qo p' e pv o hp₀ he hname hpv ho hqo hdown hp' =>
          rw [(hwf₁.takePV he hpv ho hqo).owner_enter, if_pos rfl]
          refine Or.inr ⟨rfl, ?_⟩
          have hown := Dir.owner_of_entry he hpv
          rw [Dir.owner_setPIoc, howner, ho] at hown
          rw [Dir.setPIoc_pIocs_self] at hp₀
          cases hp₀
          have hname' : n ≠ p.heartbeatName := by
            simpa [PIoc.heartbeatName] using hname
          -- the owner was there before, with the same status
          have hq₀ : ∃ q₀, d.pIocs o = some q₀ ∧ q₀.status = 2 := by
            rw [Dir.setPIoc_pIocs] at hqo
            split_ifs at hqo with hoi
            · cases hqo
              rw [PIoc.met_status] at hdown
              rcases hsite with ⟨-, hp', -⟩ | ⟨-, -, -, hfresh⟩
              · exact ⟨p, hoi ▸ hp', hdown⟩
              · rw [hfresh] at hdown
                cases hdown
            · rcases hwf.findOrInstallIoc_cases cn.iocname with ⟨_, _, hf, -⟩ | ⟨-, -, hf, hnew⟩
              · rw [hf] at hqo
                exact ⟨qo, hqo, hdown⟩
              · rw [hf] at hqo hi
                rw [hnew, if_neg (fun h => hoi (h.trans hi))] at hqo
                exact ⟨qo, hqo, hdown⟩
          obtain ⟨q₀, hq₀, hst⟩ := hq₀
          simp [Dir.enters, hown, hname', hq₀, hst]
      | refused =>
          exact Or.inl ⟨findOrInstallIoc_stringResTbl d _, howner⟩

/-- A learned PV's connection enters the name, or leaves its owner as it is. -/
theorem Learned.owner_cases {cn : Connection} {p : PIoc} (h : d.Learned cn n i p d')
    (hwf : d.WF) : d'.owner n = d.owner n ∨ d'.owner n = some i ∧ d.enters n p = true :=
  (h.entry_cases hwf).imp_left fun hsame => congrFun hsame.2 n

/-- A new entry has taken its name. -/
theorem Learned.enters_of_new {cn : Connection} {p : PIoc} (h : Learned d cn n i p d')
    (hwf : WF d) {x : PvEId} (hx : d'.stringResTbl n = some x) (hnew : d.nextPvE ≤ x) :
    d.enters n p = true := by
  rcases h.entry_cases hwf with ⟨htab, -⟩ | ⟨-, henters⟩
  · rw [htab] at hx
    obtain ⟨pv, hpv, -⟩ := hwf.table n x hx
    exact absurd (hwf.pvEs_lt x pv hpv) (Nat.not_lt.mpr hnew)
  · exact henters

end Dir

end CaNameserver
