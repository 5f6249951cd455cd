import CaNameserver.Runs
import Mathlib.Data.List.Nodup

/-!
# Referential integrity of the directory

The PV lists and the PV table share their entries.  `WF` already says that a *live* entry of a
list is owned by the list's IOC and is the entry the table has under its name.  What is left is
`Live`: the entries on the lists are live.  Together they are the integrity of the directory
(`Dir.WF.integrity_iff_live`).

## One handler

Every handler keeps `Live` but one.  When a learned PV disconnects, `processChangeConnectionEvent`
deletes the table's entry under its name, whether or not this entry came with the learned
connection: if a signal list has brought the name in meanwhile, the entry is also on that list,
and stays there after it has been deleted.  `unlistedAtDown` says of an event that this is not the
case, in terms of the state it finds.  The condition is exact: an event that does not meet it
leaves a deleted entry on a list (`not_live_of_listed`).

## Why it matters

`remove_all_pvs` reads the name of every entry of a list, and `installPVName` walks the list of an
IOC that is down.  Where the lists are live neither of them touches a deleted entry
(`Live.removeAllPvs_ne_deleted`, `WF.installPVName_ne_deleted`), and nor does any event
(`handle_ne_deleted`): an execution may still be undefined for other reasons, as a name that does
not fit its buffer, but not for this one.

* `Live.handled`: under the condition every event keeps `Live`.
* `referential_integrity`: the integrity of the directory in the runs that meet the condition, and
  the absence of accesses to deleted entries in them.
* `referential_integrity_fails`: a run that does not.
-/

namespace CaNameserver

open CStr Fallible Transition

namespace Dir

/-- The entries on the lists are live. -/
def Live (d : Dir) : Prop := ∀ i p e, d.pIocs i = some p → e ∈ p.pvEList → d.pvEs e ≠ none

/-- A live entry is on one list only. -/
theorem WF.list_unique {d : Dir} (h : WF d) {i j : IocId} {p q : PIoc} {e : PvEId}
    (hp : d.pIocs i = some p) (hq : d.pIocs j = some q) (hep : e ∈ p.pvEList)
    (heq : e ∈ q.pvEList) (he : d.pvEs e ≠ none) : i = j := by
  obtain ⟨pv, hpv⟩ := Option.ne_none_iff_exists'.mp he
  have hi := (h.listed i p e pv hp hep hpv).1
  have hj := (h.listed j q e pv hq heq hpv).1
  rw [hi] at hj
  exact Option.some.inj hj

theorem Live.setPIoc {d : Dir} (h : Live d) {i : IocId} {p q : PIoc} (hp : d.pIocs i = some p)
    (hsub : q.pvEList ⊆ p.pvEList) : Live (d.setPIoc i q) := by
  intro j r e hr hmem
  rw [setPIoc_pIocs] at hr
  split_ifs at hr with hj
  · cases hr
    exact h i p e hp (hsub hmem)
  · exact h j r e hr hmem

theorem Live.installIocName {d : Dir} (h : Live d) (name path : Name) :
    Live (d.installIocName name path).1 := by
  cases hfree : d.iocResTbl name with
  | some i =>
      rw [Dir.installIocName, hfree]
      exact h
  | none =>
      intro j r e hr hmem
      have hpvEs : (d.installIocName name path).1.pvEs = d.pvEs := by
        rw [Dir.installIocName, hfree]
      rw [installIocName_pIocs hfree] at hr
      rw [hpvEs]
      split_ifs at hr
      · cases hr
        cases hmem
      · exact h j r e hr hmem

theorem Live.enter {d : Dir} (h : Live d) {n : Name} {i : IocId} {p : PIoc}
    (hp : d.pIocs i = some p) : Live (d.enter n i p) := by
  intro j r e hr hmem
  rw [enter_pvEs]
  split_ifs with hnew
  · simp
  · rw [enter_pIocs] at hr
    split_ifs at hr with hj
    · cases hr
      exact h i p e hp ((List.mem_cons.mp hmem).resolve_left hnew)
    · exact h j r e hr hmem

theorem Live.takePV {d : Dir} (h : Live d) (hwf : WF d) {n : Name} {e : PvEId} {o : IocId}
    {q : PIoc} (hq : d.pIocs o = some q) : Live (d.takePV n e o q) := by
  intro j r x hr hmem
  rw [takePV_pIocs _ _ _ _ _ _ hq] at hr
  rw [takePV_pvEs]
  split_ifs at hr with hj
  · -- the owner's list, without the entry
    cases hr
    obtain ⟨hxe, hx⟩ := (hwf.nodup o q hq).mem_erase_iff.mp hmem
    rw [if_neg fun hgone => hxe hgone.1]
    exact h o q x hq hx
  · -- another list does not have it
    have hlive := h j r x hr hmem
    rw [if_neg]
    · exact hlive
    · rintro ⟨rfl, hx⟩
      exact hj (hwf.list_unique hr hq hmem hx hlive)

theorem Live.installed {d d' : Dir} {n : Name} {i : IocId} {r : ℤ} (h : Live d) (hwf : WF d)
    (hi : Installed d n i d' r) : Live d' := by
  cases hi with
  | entered hp hn => exact h.enter hp
  | ownHeartbeat => exact h
  | moved hp hn _ he ho hq _ hp' => exact (h.takePV hwf hq).enter hp'
  | refused => exact h

theorem Live.removed {d d' : Dir} {i : IocId} {p : PIoc} (h : Live d) (hwf : WF d)
    (hp : d.pIocs i = some p) (hr : Removed d i p d') : Live d' := by
  intro j q e hq hmem
  rw [hr.pIocs] at hq
  rw [hr.pvEs]
  split_ifs at hq with hj
  · cases hq
    obtain ⟨hmem', hkeeps⟩ := List.mem_filter.mp hmem
    rw [if_neg (by simp [gone, hkeeps])]
    exact h i p e hp hmem'
  · have hlive := h j q e hq hmem
    have hnot : e ∉ p.pvEList := fun hep => hj (hwf.list_unique hq hp hmem hep hlive)
    rw [if_neg (by simp [gone, hnot])]
    exact hlive

theorem Live.addAllPvs {fs : FileSystem} {d d' : Dir} {i : IocId} {r : ℤ} (h : Live d)
    (hwf : WF d) (ha : d.addAllPvs fs i = .ok (d', r)) : Live d' :=
  (addAllPvs_induct (P := fun d => WF d ∧ Live d) ha ⟨hwf, h⟩ fun _ _ _ _ _ _ _ hP hi =>
    ⟨hP.1.installed hi, hP.2.installed hP.1 hi⟩).2

theorem Live.reloaded {d d' : Dir} {i : IocId} {cn : Connection} (h : Live d) (hwf : WF d)
    (hr : Reloaded d i cn d') : Live d' := by
  cases hr with
  | first hp hst => exact h.setPIoc hp (List.Subset.refl _)
  | @again p q d₁ d₂ r hp hst hrem hadd hq =>
      have hwf₁ := hwf.setPIoc (q := { p with addr := cn.addr p.addr }) hp rfl
        (List.Sublist.refl _)
      have h₁ := h.setPIoc (q := { p with addr := cn.addr p.addr }) hp (List.Subset.refl _)
      have h₂ := h₁.removed hwf₁ (setPIoc_pIocs_self ..) hrem
      have h₃ := h₂.addAllPvs (hwf₁.removed (setPIoc_pIocs_self ..) hrem) hadd
      exact h₃.setPIoc hq (List.Subset.refl _)
  | still hp h0 h2 => exact h.setPIoc hp (List.Subset.refl _)

theorem Live.learned {d d' : Dir} {cn : Connection} {n : Name} {i : IocId} {p : PIoc}
    (h : Live d) (hwf : WF d) (hl : Learned d cn n i p d') : Live d' := by
  cases hl with
  | @mk d₂ q r hi hp hinst hq =>
      have hwf₁ := (hwf.findOrInstallIoc cn.iocname).setPIoc (q := p.met cn) hp (by simp) (by simp)
      have h₀ : Live (d.findOrInstallIoc cn.iocname).1 := by
        unfold findOrInstallIoc
        split
        · exact h
        · exact h.installIocName _ _
      have h₁ := h₀.setPIoc (q := p.met cn) hp (by simp)
      exact (h₁.installed hwf₁ hinst).setPIoc hq (List.tail_sublist _).subset

theorem Live.drop {d : Dir} (h : Live d) (i : IocId) (name : Name) : Live (d.drop i name) := by
  intro j q e hq hmem
  by_cases hj : j = i
  · subst hj
    simp [Dir.drop] at hq
  · exact h j q e (by simpa [Dir.drop, hj] using hq) hmem

theorem Live.entry {fs : FileSystem} {name path : Name} {d d' : Dir} (h : Live d) (hwf : WF d)
    (he : Entry fs name path d d') : Live d' := by
  have hwf₁ := hwf.installIocName name path
  have h₁ := h.installIocName name path
  cases he with
  | skipped => exact h
  | loaded hfree hinst hadd =>
      exact (h₁.installed hwf₁ hinst).addAllPvs (hwf₁.installed hinst) hadd
  | rejected hfree hinst hadd hp hrem hq =>
      have h₂ := (h₁.installed hwf₁ hinst).addAllPvs (hwf₁.installed hinst) hadd
      exact (h₂.removed ((hwf₁.installed hinst).addAllPvs hadd) hp hrem).drop _ _

/-- A deleted entry leaves the lists as they were: it must not be on one of them. -/
theorem Live.forget {d : Dir} (h : Live d) {n : Name} {e : PvEId}
    (hnot : ∀ i p, d.pIocs i = some p → e ∉ p.pvEList) :
    Live ((d.tblRemove n).deletePvE e) := by
  intro j q x hq hmem
  have hx : x ≠ e := by
    rintro rfl
    exact hnot j q hq hmem
  simpa [deletePvE, tblRemove, hx] using h j q x hq hmem

/-! ## No deleted entry is used -/

theorem getPvE_ne_error {d : Dir} {e : PvEId} {f : Fault} (he : d.pvEs e ≠ none) :
    d.getPvE e ≠ .error f := by
  rw [getPvE, Ne, deref_eq_error_iff]
  exact fun h => he h.1

theorem add_ne_error {d : Dir} {i : IocId} {e : PvEId} {f : Fault} (hf : f ≠ .pIocDeleted) :
    d.add i e ≠ .error f := by
  rw [add, Ne, bind_eq_error_iff]
  rintro (h | ⟨_, -, h⟩)
  · exact getPIoc_ne_error hf h
  · cases h

theorem setStatus_ne_error {d : Dir} {i : IocId} {st : ℕ} {f : Fault} (hf : f ≠ .pIocDeleted) :
    d.setStatus i st ≠ .error f := by
  rw [setStatus, Ne, bind_eq_error_iff]
  rintro (h | ⟨_, -, h⟩)
  · exact getPIoc_ne_error hf h
  · cases h

/-- Insertion reads one entry, the table's. -/
theorem WF.installPVName_ne_deleted {d : Dir} (h : WF d) (n : Name) (i : IocId) :
    d.installPVName n i ≠ .error .pvEDeleted := by
  rw [installPVName, Ne, bind_eq_error_iff]
  rintro (hf | ⟨p, -, hf⟩)
  · exact getPIoc_ne_error (by decide) hf
  cases hn : d.stringResTbl n with
  | none =>
      simp only [hn, bind_eq_error_iff] at hf
      rcases hf with hf | ⟨_, -, hf⟩
      · exact add_ne_error (by decide) hf
      · cases hf
  | some e =>
      obtain ⟨pv, he, -⟩ := h.table n e hn
      obtain ⟨o, ho, -⟩ := h.owner_lt e pv he
      simp only [hn, bind_eq_error_iff] at hf
      rcases hf with hf | ⟨_, -, hf | ⟨_, -, hf⟩⟩
      · exact strncpy_ne_error (by decide) hf
      · exact writeBuf_ne_error (by decide) hf
      split_ifs at hf
      · cases hf
      rw [bind_eq_error_iff] at hf
      rcases hf with hf | ⟨pv', he', hf⟩
      · exact getPvE_ne_error (by simp [he]) hf
      rw [getPvE_eq_ok_iff, he] at he'
      cases he'
      simp only [ho, bind_eq_error_iff] at hf
      rcases hf with hf | ⟨q, -, hf⟩
      · exact getPIoc_ne_error (by decide) hf
      by_cases hdown : q.status = 2
      · rw [if_pos hdown, bind_eq_error_iff] at hf
        rcases hf with hf | ⟨_, -, hf⟩
        · exact add_ne_error (by decide) hf
        · cases hf
      · rw [if_neg hdown] at hf
        cases hf

theorem WF.addAllPvs_ne_deleted {d : Dir} (h : WF d) (fs : FileSystem) (i : IocId) :
    d.addAllPvs fs i ≠ .error .pvEDeleted := by
  rw [Dir.addAllPvs, Ne, bind_eq_error_iff]
  rintro (hf | ⟨p, -, hf⟩)
  · exact getPIoc_ne_error (by decide) hf
  rw [bind_eq_error_iff] at hf
  rcases hf with hf | ⟨path, -, hf⟩
  · exact strncpy_ne_error (by decide) hf
  cases hopen : fopen fs path with
  | none =>
      simp only [hopen] at hf
      cases hf
  | some pf =>
      simp only [hopen, parseDirectoryFP, bind_eq_error_iff] at hf
      rcases hf with hf | ⟨_, -, hf⟩
      · refine foldlM_ne_error (P := fun _ (acc : Dir × ℕ) => WF acc.1) h ?_ ?_ hf
        · intro pre token post acc acc' _ hwf hbody
          simp only [parseBody, bind_eq_ok_iff] at hbody
          obtain ⟨_, -, ⟨d₁, r⟩, hinst, hbody⟩ := hbody
          cases hbody
          exact hwf.installed (installPVName_installed hinst)
        · intro pre token post acc _ hwf hbody
          simp only [parseBody, bind_eq_error_iff] at hbody
          rcases hbody with hf | ⟨_, -, hf | ⟨_, -, hf⟩⟩
          · exact writeBuf_ne_error (by decide) hf
          · exact hwf.installPVName_ne_deleted _ _ hf
          · cases hf
      · cases hf

/-- **`remove_all_pvs` never touches a deleted entry**, where the entries on the lists are live. -/
theorem Live.removeAllPvs_ne_deleted {d : Dir} (h : Live d) (hwf : WF d) (i : IocId) :
    d.removeAllPvs i ≠ .error .pvEDeleted := by
  rw [removeAllPvs, Ne, bind_eq_error_iff]
  rintro (hf | ⟨p, hp, hf⟩)
  · exact getPIoc_ne_error (by decide) hf
  rw [getPIoc_eq_ok_iff] at hp
  simp only [bind_eq_error_iff, PIoc.getIocname, PIoc.getPathToList, strncpy_eq_ok_iff] at hf
  rcases hf with hf | ⟨_, ⟨-, rfl⟩, hf | ⟨_, ⟨-, rfl⟩, hf | ⟨checkStr, hcheck, hf⟩⟩⟩
  · exact strncpy_ne_error (by decide) hf
  · exact strncpy_ne_error (by decide) hf
  · unfold checkStrOf at hf
    split_ifs at hf
    exact writeBuf_ne_error (by decide) hf
  have hcheck' := eq_heartbeatName_of_checkStrOf hcheck
  rcases hf with hf | ⟨⟨d₁, hb⟩, -, hf⟩
  · refine foldlM_ne_error (P := fun l acc => Removing d i p l acc.1 acc.2) ?_ ?_ ?_ hf
    · exact Removing.start d i p
    · intro pre e post acc acc' hl hacc hbody
      exact hacc.body hwf hp hl rfl hcheck' hbody
    · intro pre e post acc hl hacc hbody
      have hmem : e ∈ p.pvEList := by simp [hl]
      have he : acc.1.pvEs e ≠ none := by
        rw [hacc.pvEs_of_mem hwf hp hl]
        exact h i p e hp hmem
      simp only [removeBody, bind_eq_error_iff] at hbody
      rcases hbody with hf | ⟨pv, -, hf | ⟨_, -, hf⟩⟩
      · exact getPvE_ne_error he hf
      · exact strncpy_ne_error (by decide) hf
      · split_ifs at hf <;> cases hf
  · cases hb with
    | none => cases hf
    | some pve => exact add_ne_error (by decide) hf

theorem WF.wdReload_ne_deleted {d : Dir} (hwf : WF d) (h : Live d) (i : IocId)
    (cn : Connection) : Server.wdReload d i cn ≠ .error .pvEDeleted := by
  simp only [Server.wdReload, Ne, bind_eq_error_iff, setAddr_eq_ok_iff, getPIoc_eq_ok_iff]
  rintro (hf | ⟨_, ⟨p, hp, rfl⟩, hf | ⟨q, hq, hf⟩⟩)
  · rw [setAddr, bind_eq_error_iff] at hf
    rcases hf with hf | ⟨_, -, hf⟩
    · exact getPIoc_ne_error (by decide) hf
    · cases hf
  · exact getPIoc_ne_error (by decide) hf
  · split_ifs at hf
    · exact setStatus_ne_error (by decide) hf
    · have hwf₁ := hwf.setPIoc (q := { p with addr := cn.addr p.addr }) hp rfl
        (List.Sublist.refl _)
      have h₁ := h.setPIoc (q := { p with addr := cn.addr p.addr }) hp (List.Subset.refl _)
      rw [bind_eq_error_iff] at hf
      rcases hf with hf | ⟨d₁, hrem, hf⟩
      · exact h₁.removeAllPvs_ne_deleted hwf₁ i hf
      rw [bind_eq_error_iff] at hf
      rcases hf with hf | ⟨_, -, hf⟩
      · exact (hwf₁.removeAllPvs hrem).addAllPvs_ne_deleted cn.fs i hf
      · exact setStatus_ne_error (by decide) hf
    · cases hf

end Dir

theorem directoryBody_ne_deleted {filenameIsIocname : Bool} {fs : FileSystem} {acc : Dir × ℕ}
    (hwf : acc.1.WF) (hlive : acc.1.Live) (token : Name) :
    directoryBody filenameIsIocname fs acc token ≠ .error .pvEDeleted := by
  simp only [directoryBody, Ne, bind_eq_error_iff]
  rintro (hf | ⟨_, -, hf⟩)
  · exact writeBuf_ne_error (by decide) hf
  split_ifs at hf
  · simp only [bind_eq_error_iff] at hf
    rcases hf with hf | ⟨_, -, hf | ⟨_, -, hf | ⟨_, -, hf | ⟨⟨d₁, r⟩, hinst,
      hf | ⟨⟨d₂, count⟩, hadd, hf⟩⟩⟩⟩⟩
    · exact Dir.getPIoc_ne_error (by decide) hf
    · exact strncpy_ne_error (by decide) hf
    · exact writeBuf_ne_error (by decide) hf
    · exact (hwf.installIocName _ _).installPVName_ne_deleted _ _ hf
    all_goals
      have hinst' := Dir.installPVName_installed hinst
      have hwf₁ := (hwf.installIocName _ _).installed hinst'
      have hlive₁ := (hlive.installIocName _ _).installed (hwf.installIocName _ _) hinst'
    · exact hwf₁.addAllPvs_ne_deleted fs _ hf
    · by_cases hcount : count = -1
      · rw [if_pos hcount, bind_eq_error_iff] at hf
        rcases hf with hf | ⟨_, -, hf⟩
        · rw [cleanup, bind_eq_error_iff] at hf
          rcases hf with hf | ⟨d₃, -, hf⟩
          · exact (hlive₁.addAllPvs hwf₁ hadd).removeAllPvs_ne_deleted (hwf₁.addAllPvs hadd) _ hf
          · rw [Dir.deletePIoc, bind_eq_error_iff] at hf
            rcases hf with hf | ⟨_, -, hf⟩
            · exact Dir.getPIoc_ne_error (by decide) hf
            · cases hf
        · cases hf
      · rw [if_neg hcount] at hf
        cases hf
  · cases hf

/-- Reading the directory file and the lists uses no deleted entry. -/
theorem readDirectory_ne_deleted (cfg : Config) : cfg.readDirectory ≠ .error .pvEDeleted := by
  unfold Config.readDirectory parseDirectoryFile
  cases cfg.directory with
  | none => exact fun h => nomatch h
  | some pf =>
      refine foldlM_ne_error (P := fun _ acc => acc.1.WF ∧ acc.1.Live)
        ⟨Dir.WF.empty, fun _ _ _ h => nomatch h⟩ ?_ ?_
      · rintro pre token post acc acc' - ⟨hwf, hlive⟩ hbody
        rcases Dir.directoryBody_entry hwf hbody with ⟨-, hentry⟩ | rfl
        · exact ⟨hwf.entry hentry, hlive.entry hwf hentry⟩
        · exact ⟨hwf, hlive⟩
      · rintro pre token post acc - ⟨hwf, hlive⟩
        exact directoryBody_ne_deleted hwf hlive token

/-! ## Handlers -/

section Handlers

variable {rx : Regex} {s : Server}

theorem getChan_ne_error {ca : Ca} {c : Chid} {f : Fault} (hf : f ≠ .chidCleared) :
    ca.getChan c ≠ .error f := by
  rw [Ca.getChan, Ne, deref_eq_error_iff]
  exact fun h => hf h.2.symm

theorem wdConnUp_ne_deleted (hwf : s.dir.WF) (hlive : s.dir.Live) (c : Chid) (cn : Connection) :
    s.wdConnUp c cn ≠ .error .pvEDeleted := by
  simp only [Server.wdConnUp, Ne, bind_eq_error_iff, deref_eq_error_iff]
  rintro (hf | ⟨_, -, hf | ⟨i, -, hf | ⟨_, -, hf | ⟨_, -, hf⟩⟩⟩⟩)
  · exact getChan_ne_error (by decide) hf
  · cases hf.2
  · exact strncpy_ne_error (by decide) hf
  · exact hwf.wdReload_ne_deleted hlive i cn hf
  · cases hf

theorem wdConnDown_ne_deleted (c : Chid) (now : ℕ) :
    s.wdConnDown c now ≠ .error .pvEDeleted := by
  simp only [Server.wdConnDown, Ne, bind_eq_error_iff, deref_eq_error_iff]
  rintro (hf | ⟨_, -, hf | ⟨i, -, hf | ⟨_, -, hf | ⟨_, -, hf⟩⟩⟩⟩)
  · exact getChan_ne_error (by decide) hf
  · cases hf.2
  · exact strncpy_ne_error (by decide) hf
  · exact Dir.setStatus_ne_error (by decide) hf
  · cases hf

theorem connUp_ne_deleted (hwf : s.dir.WF) (c : Chid) (cn : Connection) :
    s.connUp c cn ≠ .error .pvEDeleted := by
  simp only [Server.connUp, Ne, bind_eq_error_iff, Dir.getPIoc_eq_ok_iff]
  rintro (hf | ⟨ch, -, hf | ⟨p, hp, hf | ⟨d, hd, hf | ⟨buf, -, hf | ⟨⟨d₂, r⟩, -, hf | ⟨d₃, -, hf |
    ⟨_, -, hf⟩⟩⟩⟩⟩⟩⟩)
  · exact getChan_ne_error (by decide) hf
  · exact Dir.getPIoc_ne_error (by decide) hf
  · unfold Server.setNewAddr at hf
    split_ifs at hf
    rw [Dir.setAddr, bind_eq_error_iff] at hf
    rcases hf with hf | ⟨_, -, hf⟩
    · exact Dir.getPIoc_ne_error (by decide) hf
    · cases hf
  · exact strncpy_ne_error (by decide) hf
  · rw [setNewAddr_met hp hd] at hf
    have hwf₁ := (hwf.findOrInstallIoc _).setPIoc (q := p.met cn) hp (by simp) (by simp)
    exact hwf₁.installPVName_ne_deleted _ _ hf
  · rw [Dir.popPvE, bind_eq_error_iff] at hf
    rcases hf with hf | ⟨_, -, hf⟩
    · exact Dir.getPIoc_ne_error (by decide) hf
    · cases hf
  · exact Dir.setStatus_ne_error (by decide) hf
  · cases hf

theorem connDown_ne_deleted (hwf : s.dir.WF) (c : Chid) : s.connDown c ≠ .error .pvEDeleted := by
  simp only [Server.connDown, Ne, bind_eq_error_iff]
  rintro (hf | ⟨ch, -, hf | ⟨n, -, hf⟩⟩)
  · exact getChan_ne_error (by decide) hf
  · exact strncpy_ne_error (by decide) hf
  · cases he : s.dir.stringResTbl n with
    | none =>
        simp only [he] at hf
        cases hf
    | some e =>
        obtain ⟨pv, hpv, -⟩ := hwf.table n e he
        simp only [he, bind_eq_error_iff] at hf
        rcases hf with hf | ⟨_, -, hf⟩
        · exact Dir.getPvE_ne_error (by simp [hpv]) hf
        · cases hf

theorem pvExistTest_ne_deleted (hwf : s.dir.WF) (client pPVName : Name) (search : CaStatus)
    (now : ℕ) : s.pvExistTest rx client pPVName search now ≠ .error .pvEDeleted := by
  simp only [Server.pvExistTest, Ne, bind_eq_error_iff]
  rintro (hf | ⟨buf, -, hf⟩)
  · exact strncpy_ne_error (by decide) hf
  by_cases hn : Server.recordName buf = []
  · rw [if_pos hn] at hf
    cases hf
  rw [if_neg hn] at hf
  cases he : s.dir.stringResTbl (Server.recordName buf) with
  | some e =>
      obtain ⟨pv, hpv, -⟩ := hwf.table _ e he
      obtain ⟨i, hi, -⟩ := hwf.owner_lt e pv hpv
      simp only [he, bind_eq_error_iff] at hf
      rcases hf with hf | ⟨pv', hpv', hf⟩
      · exact Dir.getPvE_ne_error (by simp [hpv]) hf
      rw [Dir.getPvE_eq_ok_iff, hpv] at hpv'
      cases hpv'
      simp only [hi, bind_eq_error_iff] at hf
      rcases hf with hf | ⟨p, -, hf⟩
      · exact Dir.getPIoc_ne_error (by decide) hf
      · split_ifs at hf <;> cases hf
  | none =>
      simp only [he] at hf
      split_ifs at hf
      · cases hf
      · cases hf
      · cases hf
      · cases search <;> cases hf

theorem purgeLoop_ne_deleted (now tooLong : ℕ) (answers : List Server.CaAnswers)
    (pg : Server.Purge) : Server.purgeLoop now tooLong answers pg ≠ .error .pvEDeleted := by
  induction answers generalizing pg with
  | nil =>
      rw [Server.purgeLoop]
      split_ifs <;> simp
  | cons a answers ih =>
      rw [Server.purgeLoop]
      cases hrest : pg.rest with
      | nil => simp
      | cons pNN rest =>
          simp only [Ne, bind_eq_error_iff]
          rintro (hf | ⟨pg₁, -, hf⟩)
          · unfold Server.purgeTurn at hf
            split_ifs at hf
            · rw [Server.rebroadcast, bind_eq_error_iff] at hf
              rcases hf with hf | ⟨ch, -, hf⟩
              · exact getChan_ne_error (by decide) hf
              · split_ifs at hf
                · cases hf
                · cases hclear : a.clear with
                  | failed =>
                      simp only [hclear] at hf
                      cases hf
                  | normal =>
                      cases hsearch : a.search with
                      | failed =>
                          simp only [hclear, hsearch] at hf
                          cases hf
                      | normal =>
                          simp only [hclear, hsearch] at hf
                          cases hf
            · rw [Server.expire, bind_eq_error_iff] at hf
              rcases hf with hf | ⟨ch, -, hf⟩
              · exact getChan_ne_error (by decide) hf
              · cases hf
          · exact ih pg₁ hf

/-- **No event uses a deleted entry**, where the entries on the lists are live. -/
theorem handle_ne_deleted {e : Event} (hwf : s.dir.WF) (hlive : s.dir.Live)
    (hen : enabled s e = true) : handle rx s e ≠ .error .pvEDeleted := by
  cases e with
  | up c cn =>
      obtain ⟨ch, hch, -⟩ := enabled_up hen
      simp only [handle, setConnection_of_chan hch, Ne, bind_eq_error_iff]
      rintro (hf | ⟨cb, -, hf⟩)
      · rw [callbackOf, bind_eq_error_iff] at hf
        rcases hf with hf | ⟨_, -, hf⟩
        · exact getChan_ne_error (by decide) hf
        · cases hf
      · cases cb with
        | WDprocessChangeConnectionEvent => refine wdConnUp_ne_deleted ?_ ?_ c cn hf <;> assumption
        | processChangeConnectionEvent => refine connUp_ne_deleted ?_ c cn hf; assumption
  | down c now =>
      obtain ⟨ch, hch, -⟩ := enabled_down hen
      simp only [handle, setConnection_of_chan hch, Ne, bind_eq_error_iff]
      rintro (hf | ⟨cb, -, hf⟩)
      · rw [callbackOf, bind_eq_error_iff] at hf
        rcases hf with hf | ⟨_, -, hf⟩
        · exact getChan_ne_error (by decide) hf
        · cases hf
      · cases cb with
        | WDprocessChangeConnectionEvent => exact wdConnDown_ne_deleted c now hf
        | processChangeConnectionEvent => refine connDown_ne_deleted ?_ c hf; assumption
  | request client pPVName search now =>
      simp only [handle, Ne, bind_eq_error_iff]
      rintro (hf | ⟨_, -, hf⟩)
      · exact pvExistTest_ne_deleted hwf client pPVName search now hf
      · cases hf
  | purge now tooLong answers =>
      simp only [handle, Server.processPendingList, Ne, bind_eq_error_iff]
      rintro (hf | ⟨_, -, hf⟩)
      · exact purgeLoop_ne_deleted _ _ _ _ hf
      · cases hf
  | report neverLog =>
      cases neverLog <;>
        · intro hf
          cases hf

end Handlers

/-! ## Integrity in every run -/

/-- An entry on the list of an IOC of the table is live, owned by this IOC, on this list once and
on no other, and the entry that the PV table has under its name. -/
def Dir.Integrity (d : Dir) : Prop :=
  ∀ n i p e, d.iocResTbl n = some i → d.pIocs i = some p → e ∈ p.pvEList →
    ∃ pv, d.pvEs e = some pv ∧ pv.pI = some i ∧ d.stringResTbl pv.resourceName = some e ∧
      p.pvEList.count e = 1 ∧
      ∀ m j q, d.iocResTbl m = some j → d.pIocs j = some q → e ∈ q.pvEList → j = i

theorem Dir.WF.integrity_iff_live {d : Dir} (hwf : d.WF) : d.Integrity ↔ d.Live := by
  constructor
  · intro h i p e hp hmem hnone
    obtain ⟨pv, hpv, -⟩ := h p.iocname i p e ((hwf.iocTable _ i).mpr ⟨p, hp, rfl⟩) hp hmem
    rw [hnone] at hpv
    cases hpv
  · intro h n i p e _ hp hmem
    have hlive := h i p e hp hmem
    obtain ⟨pv, hpv⟩ := Option.ne_none_iff_exists'.mp hlive
    obtain ⟨ho, htab⟩ := hwf.listed i p e pv hp hmem hpv
    refine ⟨pv, hpv, ho, htab, List.count_eq_one_of_mem (hwf.nodup i p hp) hmem, ?_⟩
    intro m j q _ hq hmem'
    exact hwf.list_unique hq hp hmem' hmem hlive

/-- The disconnection of a learned PV finds no entry under its name, or one that is on no list. -/
def unlistedAtDown (s : Server) : Event → Prop
  | .down c _ => ∀ ch e, s.ca.chans c = some ch → ch.callback = .processChangeConnectionEvent →
      s.dir.stringResTbl ch.name = some e → ∀ i p, s.dir.pIocs i = some p → e ∉ p.pvEList
  | _ => True

theorem Dir.Live.handled {rx : Regex} {s s' : Server} {e : Event} (h : s.dir.Live)
    (hwf : s.dir.WF) (hok : unlistedAtDown s e) (hh : Handled rx s e s') : s'.dir.Live := by
  cases hh with
  | heartbeatUp _ _ _ _ hd => exact h.reloaded hwf hd
  | heartbeatDown _ _ _ _ hp => exact h.setPIoc hp (List.Subset.refl _)
  | learnedUp _ _ _ _ hd => exact h.learned hwf hd
  | learnedDown hch _ hcb he => exact h.forget (hok _ _ hch hcb he)
  | learnedDownFree => exact h
  | request ha => cases ha <;> exact h
  | purge _ hframe =>
      rw [hframe.dir]
      exact h
  | report => exact h

/-- The condition is exact: a step that does not meet it leaves a deleted entry on a list. -/
theorem not_live_of_listed {rx : Regex} {s s' : Server} {e : Event}
    (hok : ¬unlistedAtDown s e) (hh : Handled rx s e s') : ¬s'.dir.Live := by
  cases hh with
  | learnedDown hch _ hcb he =>
      intro hlive
      refine hok fun ch x hch' _ hx i p hp hmem => ?_
      rw [hch] at hch'
      cases hch'
      rw [he] at hx
      cases hx
      exact hlive i p _ hp hmem (by simp [Dir.deletePvE])
  | learnedDownFree hch _ _ he =>
      refine absurd (fun ch x hch' _ hx => ?_) hok
      rw [hch] at hch'
      cases hch'
      rw [he] at hx
      cases hx
  | heartbeatDown hch _ hcb =>
      refine absurd (fun ch x hch' hcb' => ?_) hok
      rw [hch] at hch'
      cases hch'
      rw [hcb] at hcb'
      cases hcb'
  | heartbeatUp => exact absurd trivial hok
  | learnedUp => exact absurd trivial hok
  | request => exact absurd trivial hok
  | purge => exact absurd trivial hok
  | report => exact absurd trivial hok

theorem startup_live {rx : Regex} {cfg : Config} {s : Server} (h : startup rx cfg = .ok s) :
    s.dir.Live :=
  (startup_dir_induct (D := Dir.Live) h (fun _ _ _ h => nomatch h)
    fun _ _ _ _ hwf hlive he => hlive.entry hwf he).2

/-- **Referential integrity.**  In every run in which the disconnection of a learned PV never
deletes an entry that is on a list, the directory keeps its integrity, and neither startup nor
`remove_all_pvs` nor any event uses a deleted entry. -/
theorem referential_integrity (rx : Regex) (start : Config → Prop) :
    (∀ cfg : Config, cfg.readDirectory ≠ .error .pvEDeleted) ∧
    ∀ s, Reachable (nameServer rx start) unlistedAtDown s →
      s.dir.Integrity ∧ (∀ i, s.dir.removeAllPvs i ≠ .error .pvEDeleted) ∧
      ∀ e, enabled s e = true → handle rx s e ≠ .error .pvEDeleted := by
  refine ⟨readDirectory_ne_deleted, fun s hs => ?_⟩
  obtain ⟨hwf, hlive⟩ := reachable_induct (I := fun s => s.dir.Live) hs
    (fun _ _ _ h _ => startup_live h) fun _ _ _ hwf hlive hok hh => hlive.handled hwf hok hh
  exact ⟨hwf.integrity_iff_live.mpr hlive, hlive.removeAllPvs_ne_deleted hwf,
    fun e hen => handle_ne_deleted hwf hlive hen⟩

/-- `unlistedAtDown`, executable. -/
def unlistedAtDownB (s : Server) : Event → Bool
  | .down c _ =>
      match s.ca.chans c with
      | none => true
      | some ch => decide (ch.callback = .WDprocessChangeConnectionEvent) ||
          (s.dir.stringResTbl ch.name).all fun e =>
            (List.range s.dir.nextPIoc).all fun i =>
              (s.dir.pIocs i).all fun p => decide (e ∉ p.pvEList)
  | _ => true

theorem unlistedAtDown_of_eq_true {s : Server} {e : Event} (hwf : s.dir.WF)
    (h : unlistedAtDownB s e = true) : unlistedAtDown s e := by
  cases e with
  | down c now =>
      intro ch x hch hcb hx i p hp
      have hi := hwf.pIocs_lt i p hp
      simp only [unlistedAtDownB, hch, hcb, hx, Option.all_some, List.all_eq_true, List.mem_range,
        Bool.or_eq_true, decide_eq_true_eq, reduceCtorEq, false_or] at h
      have hall := h i hi
      rw [hp] at hall
      simpa using hall
  | up => trivial
  | request => trivial
  | purge => trivial
  | report => trivial

/-- A learned PV comes and goes at a site whose lists do not change. -/
def learnedAndLost : List Event :=
  [.up 0 (connectionTo "a:1" 1 ""), .request [] "z".toList .normal 1,
    .up 1 (connectionTo "b:2" 2 ""), .down 1 3]

set_option maxRecDepth 10000 in
theorem referential_integrity_learned : ∃ s,
    run literal unlistedAtDownB oneIoc learnedAndLost = some s ∧ s.dir.Integrity := by
  have hrun : (run literal unlistedAtDownB oneIoc learnedAndLost).isSome = true := by decide
  obtain ⟨s, hs⟩ := Option.isSome_iff_exists.mp hrun
  have hreach : Reachable (nameServer literal fun _ => True) unlistedAtDown s :=
    reachable_of_run (fun _ _ => unlistedAtDown_of_eq_true) trivial hs
  exact ⟨s, hs, ((referential_integrity literal fun _ => True).2 s hreach).1⟩

/-- A PV is requested while its IOC is down, brought in by the IOC's new list, and found at a
gateway afterwards: the gateway's disconnection deletes it. -/
def listedThenLearned : List Event :=
  [.up 0 (connectionTo "a:1" 1 ""), .request [] "z".toList .normal 1, .down 0 2,
    .up 0 (connectionTo "a:1" 1 "A:heartbeat z"), .up 1 (connectionTo "b:2" 2 ""), .down 1 3]

set_option maxRecDepth 10000 in
theorem referential_integrity_fails : ¬ ∀ (rx : Regex) (start : Config → Prop) (s : Server),
    Reachable (nameServer rx start) (fun _ _ => True) s → s.dir.Integrity := by
  intro h
  have hrun : (run literal (fun _ _ => true) oneIoc listedThenLearned).any (fun s =>
      (s.dir.pIocs 0).any (fun p => decide (2 ∈ p.pvEList)) && (s.dir.pvEs 2).isNone) = true := by
    decide
  obtain ⟨s, hs, hbad⟩ := (Option.any_eq_true _ _).mp hrun
  have hreach : Reachable (nameServer literal fun _ => True) (fun _ _ => True) s :=
    reachable_of_run (fun _ _ _ _ => trivial) trivial hs
  have hwf := reachable_wf hreach
  rw [Bool.and_eq_true] at hbad
  obtain ⟨p, hp, hmem⟩ := (Option.any_eq_true _ _).mp hbad.1
  exact hwf.integrity_iff_live.mp (h _ _ s hreach) 0 p 2 hp (of_decide_eq_true hmem)
    (Option.isNone_iff_eq_none.mp hbad.2)

end CaNameserver
