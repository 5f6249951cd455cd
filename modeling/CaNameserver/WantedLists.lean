import CaNameserver.Rollback
import Mathlib.Data.Finset.Card

/-!
# The lists that are wanted

Every pathname of the directory file names the signal list of an IOC.  The IOC is named after the
pathname; it is loaded if its list has its heartbeat and no IOC of its name has been loaded before.
That is what `parseDirectoryFile` is for, and what its loop does, though it decides both in a
roundabout way: it enters the IOC first, takes the heartbeat as a PV of it, and learns from the
return code of a failed insertion that the list has it.

The loop is followed pathname by pathname.  A pathname that does not begin with `#` and whose IOC
is not in the table is tried (`directoryBody_wanted`); any other is passed over
(`directoryBody_passed`), whatever its file contains (`directoryBody_idle_iff`).  So the loaded IOCs
are a function of the pathnames seen so far:

* `wanted`: the list at a path is one of the IOC of the given name.
* `wantedNames`: the IOCs for which there is one.
* `Loaded`: under each name, the first wanted list has given its IOC, and each has been counted.
* `directoryLoop_loaded`: this is what the loop has done at its end.

Rejected IOCs take part in it: `directoryBody_wanted` says that they come and go without a trace in
the table of IOCs.  What they leave among the PVs is the subject of `LeftBehind`.
-/

namespace CaNameserver

open CStr Fallible

variable {filenameIsIocname : Bool} {fs : FileSystem}

/-! ## Lists that are wanted -/

/-- The list at `path` is one of the IOC `name`: it is named after it and has its heartbeat.  A file
that cannot be opened has no `signals`. -/
def wanted (filenameIsIocname : Bool) (fs : FileSystem) (name path : Name) : Bool :=
  decide (iocNameOf filenameIsIocname path = name) &&
    (signals fs path).contains (name ++ heartbeat)

/-- The IOCs for which there is a wanted list. -/
def wantedNames (filenameIsIocname : Bool) (fs : FileSystem) (paths : List Name) : Finset Name :=
  ((paths.filter fun path => wanted filenameIsIocname fs (iocNameOf filenameIsIocname path)
    path).map (iocNameOf filenameIsIocname)).toFinset

theorem wanted_iff {name path : Name} : wanted filenameIsIocname fs name path = true ↔
    iocNameOf filenameIsIocname path = name ∧ name ++ heartbeat ∈ signals fs path := by
  rw [wanted, Bool.and_eq_true, decide_eq_true_iff, List.contains_iff_mem]

theorem mem_wantedNames_iff {paths : List Name} {name : Name} :
    name ∈ wantedNames filenameIsIocname fs paths ↔
      ∃ path ∈ paths, wanted filenameIsIocname fs name path = true := by
  simp only [wantedNames, List.mem_toFinset, List.mem_map, List.mem_filter]
  constructor
  · rintro ⟨path, ⟨hpath, hwanted⟩, rfl⟩
    exact ⟨path, hpath, hwanted⟩
  · rintro ⟨path, hpath, hwanted⟩
    have hname := (wanted_iff.mp hwanted).1
    exact ⟨path, ⟨hpath, hname ▸ hwanted⟩, hname⟩

theorem mem_wantedNames_iff_find? {paths : List Name} {name : Name} :
    name ∈ wantedNames filenameIsIocname fs paths ↔
      paths.find? (wanted filenameIsIocname fs name) ≠ none := by
  simp only [mem_wantedNames_iff, Ne, List.find?_eq_none, not_forall, not_not, exists_prop]

theorem wantedNames_concat (paths : List Name) (path : Name) :
    wantedNames filenameIsIocname fs (paths ++ [path]) =
      if wanted filenameIsIocname fs (iocNameOf filenameIsIocname path) path then
        insert (iocNameOf filenameIsIocname path) (wantedNames filenameIsIocname fs paths)
      else wantedNames filenameIsIocname fs paths := by
  rw [wantedNames, List.filter_append, List.filter_cons, List.filter_nil]
  split_ifs with h
  · rw [List.map_append, List.toFinset_append, Finset.union_comm]
    rfl
  · rw [List.append_nil]
    rfl

/-! ## One word -/

namespace Dir

/-- What stands in the table of IOCs is what the IOCs say of themselves. -/
theorem WF.iocs_eq_iff {d : Dir} (hwf : WF d) {name : Name} {o : Option Name} :
    (d.iocResTbl name).map d.site = o.map (fun path => some (name, path)) ↔
      ∀ path, (∃ i, d.site i = some (name, path)) ↔ o = some path := by
  have hsite : ∀ path, (∃ i, d.site i = some (name, path)) ↔
      (d.iocResTbl name).map d.site = some (some (name, path)) := by
    intro path
    simp only [Option.map_eq_some_iff, site_eq_some_iff, hwf.iocTable]
    constructor
    · rintro ⟨i, p, hp, hname, hpath⟩
      exact ⟨i, ⟨p, hp, hname⟩, p, hp, hname, hpath⟩
    · rintro ⟨i, -, p, hp, hname, hpath⟩
      exact ⟨i, p, hp, hname, hpath⟩
  simp only [hsite]
  constructor
  · intro h path
    rw [h]
    cases o with
    | none => simp
    | some path' => simp
  · intro h
    cases o with
    | some path => exact (h path).mpr rfl
    | none =>
        cases hi : d.iocResTbl name with
        | none => rfl
        | some i =>
            obtain ⟨p, hp, hname⟩ := (hwf.iocTable name i).mp hi
            refine absurd ((h p.pathToList).mp ?_) (Option.some_ne_none _).symm
            rw [hi, Option.map_some, site_of_pIocs hp, hname]

/-- A pathname of an IOC that is not in the table: it is entered if its list is wanted, and counted
then. -/
theorem directoryBody_wanted {token : Name} {acc acc' : Dir × ℕ} (hwf : WF acc.1)
    (hpath : isPath (cstr token) = true)
    (hfree : acc.1.iocResTbl (iocNameOf filenameIsIocname (cstr token)) = none)
    (h : directoryBody filenameIsIocname fs acc token = .ok acc') :
    acc'.1.nextPIoc = acc.1.nextPIoc + 1 ∧
    if wanted filenameIsIocname fs (iocNameOf filenameIsIocname (cstr token)) (cstr token) then
      acc'.2 = acc.2 + 1 ∧ ∀ j, acc'.1.site j = if j = acc.1.nextPIoc then
        some (iocNameOf filenameIsIocname (cstr token), cstr token) else acc.1.site j
    else acc'.2 = acc.2 ∧ acc'.1.site = acc.1.site := by
  obtain ⟨d₁, r, d₂, count, hinst, hadd, hcases⟩ := directoryBody_new hwf hpath hfree h
  have hhead := loaded_header hfree hinst hadd
  have hnext : d₂.nextPIoc = acc.1.nextPIoc + 1 := by
    rw [addAllPvs_nextPIoc hadd, hinst.nextPIoc, installIocName, hfree]
  have haccepted : count ≠ -1 ↔
      wanted filenameIsIocname fs (iocNameOf filenameIsIocname (cstr token)) (cstr token) = true := by
    obtain ⟨p, hp⟩ := addAllPvs_pIoc hadd
    have hp₂ := header_of_pIocs hp
    rw [← addAllPvs_header hadd, hhead, if_pos rfl] at hp₂
    have hname : iocNameOf filenameIsIocname (cstr token) = p.iocname :=
      congrArg PIoc.iocname (Option.some.inj hp₂)
    have hlist : cstr token = p.pathToList := congrArg PIoc.pathToList (Option.some.inj hp₂)
    have hheart : p.heartbeatName = iocNameOf filenameIsIocname (cstr token) ++ heartbeat := by
      rw [PIoc.heartbeatName, hname]
    rw [addAllPvs_accepted_iff hadd hp (hheart ▸ hinst.mem), wanted_iff, and_iff_right rfl, hheart,
      ← hlist]
  rcases hcases with ⟨hcount, rfl⟩ | ⟨hcount, p, d₃, q, hp, hrem, hq, rfl⟩
  · refine ⟨hnext, ?_⟩
    rw [if_pos (haccepted.mp hcount)]
    refine ⟨rfl, fun j => ?_⟩
    rw [site_eq_header, hhead, site_eq_header]
    split_ifs <;> rfl
  · refine ⟨hrem.nextPIoc.trans hnext, ?_⟩
    rw [if_neg (fun hw => haccepted.mpr hw hcount)]
    refine ⟨rfl, funext fun j => ?_⟩
    rw [site_eq_header, rejected_header hwf hfree hinst hadd hp hrem, ← site_eq_header]

/-- Any other word is passed over. -/
theorem directoryBody_passed {token : Name} {acc acc' : Dir × ℕ}
    (hcond : ¬ (isPath (cstr token) = true ∧
      acc.1.iocResTbl (iocNameOf filenameIsIocname (cstr token)) = none)) :
    directoryBody filenameIsIocname fs acc token = .ok acc' ↔ token.length < 200 ∧ acc' = acc := by
  rw [directoryBody]
  simp only [if_neg hcond, bind_eq_ok_iff, writeBuf_eq_ok_iff, pure_eq_ok_iff]
  simp

/-- **What a word does not touch**: whatever the files contain, it changes nothing, exactly if it is
passed over. -/
theorem directoryBody_idle_iff {token : Name} {acc acc' : Dir × ℕ} (hwf : WF acc.1)
    (h : directoryBody filenameIsIocname fs acc token = .ok acc') :
    (∀ fs', directoryBody filenameIsIocname fs' acc token = .ok acc) ↔
      (isPath (cstr token) = true →
        acc.1.iocResTbl (iocNameOf filenameIsIocname (cstr token)) ≠ none) := by
  rw [← not_and]
  constructor
  · rintro hall ⟨hpath, hfree⟩
    exact absurd (directoryBody_wanted hwf hpath hfree (hall fs)).1 (Nat.succ_ne_self _).symm
  · intro hcond fs'
    exact (directoryBody_passed hcond).mpr ⟨((directoryBody_passed hcond).mp h).1, rfl⟩

end Dir

/-! ## The loop -/

/-- What has been loaded from `paths`: under each name the first that is wanted, each counted. -/
structure Loaded (filenameIsIocname : Bool) (fs : FileSystem) (paths : List Name)
    (acc : Dir × ℕ) : Prop where
  wf : acc.1.WF
  iocs : ∀ name path, (∃ i, acc.1.site i = some (name, path)) ↔
    paths.find? (wanted filenameIsIocname fs name) = some path
  count : acc.2 = (wantedNames filenameIsIocname fs paths).card

namespace Loaded

variable {paths : List Name} {acc acc' : Dir × ℕ} {name path : Name}

theorem free_iff (h : Loaded filenameIsIocname fs paths acc) :
    acc.1.iocResTbl name = none ↔ paths.find? (wanted filenameIsIocname fs name) = none := by
  have heq := h.wf.iocs_eq_iff.mpr (h.iocs name)
  rw [← Option.map_eq_none_iff (f := acc.1.site), heq, Option.map_eq_none_iff]

/-- A pathname whose IOC is there, or whose list is not wanted, makes no difference. -/
theorem pass (h : Loaded filenameIsIocname fs paths acc) (hwf : acc'.1.WF)
    (hsite : acc'.1.site = acc.1.site) (hcount : acc'.2 = acc.2)
    (hpass : wanted filenameIsIocname fs (iocNameOf filenameIsIocname path) path = true →
      paths.find? (wanted filenameIsIocname fs (iocNameOf filenameIsIocname path)) ≠ none) :
    Loaded filenameIsIocname fs (paths ++ [path]) acc' := by
  refine ⟨hwf, fun name path' => ?_, ?_⟩
  · rw [hsite, h.iocs, List.find?_append]
    cases hfind : paths.find? (wanted filenameIsIocname fs name) with
    | some path₀ => rfl
    | none =>
        rw [Option.none_or, List.find?_singleton]
        split_ifs with hw
        · have hname := (wanted_iff.mp hw).1
          exact absurd (hname ▸ hfind) (hpass (hname ▸ hw))
        · rfl
  · rw [hcount, h.count, wantedNames_concat]
    split_ifs with hw
    · rw [Finset.insert_eq_of_mem (mem_wantedNames_iff_find?.mpr (hpass hw))]
    · rfl

/-- A wanted list of a name that is free gives its IOC. -/
theorem load (h : Loaded filenameIsIocname fs paths acc) (hwf : acc'.1.WF)
    (hfree : acc.1.iocResTbl (iocNameOf filenameIsIocname path) = none)
    (hw : wanted filenameIsIocname fs (iocNameOf filenameIsIocname path) path = true)
    (hcount : acc'.2 = acc.2 + 1) (hsite : ∀ j, acc'.1.site j = if j = acc.1.nextPIoc then
      some (iocNameOf filenameIsIocname path, path) else acc.1.site j) :
    Loaded filenameIsIocname fs (paths ++ [path]) acc' := by
  have hnone := h.free_iff.mp hfree
  have hnew : acc.1.site acc.1.nextPIoc = none := by
    rw [Dir.site, Option.map_eq_none_iff]
    cases hp : acc.1.pIocs acc.1.nextPIoc with
    | none => rfl
    | some p => exact absurd (h.wf.pIocs_lt _ p hp) (lt_irrefl _)
  refine ⟨hwf, fun name path' => ?_, ?_⟩
  · have hsites : (∃ i, acc'.1.site i = some (name, path')) ↔
        (iocNameOf filenameIsIocname path = name ∧ path = path') ∨
          ∃ i, acc.1.site i = some (name, path') := by
      constructor
      · rintro ⟨i, hi⟩
        rw [hsite] at hi
        split_ifs at hi
        · cases hi
          exact Or.inl ⟨rfl, rfl⟩
        · exact Or.inr ⟨i, hi⟩
      · rintro (⟨rfl, rfl⟩ | ⟨i, hi⟩)
        · exact ⟨acc.1.nextPIoc, by rw [hsite, if_pos rfl]⟩
        · refine ⟨i, ?_⟩
          rw [hsite, if_neg, hi]
          rintro rfl
          rw [hnew] at hi
          cases hi
    rw [hsites, h.iocs, List.find?_append, List.find?_singleton]
    by_cases hname : iocNameOf filenameIsIocname path = name
    · subst hname
      rw [hnone, Option.none_or, if_pos hw, Option.some.injEq]
      simp
    · have hother : wanted filenameIsIocname fs name path = false := by
        rw [Bool.eq_false_iff]
        exact fun hw' => hname (wanted_iff.mp hw').1
      rw [if_neg (Bool.eq_false_iff.mp hother), Option.or_none, or_iff_right fun h => hname h.1]
  · rw [hcount, h.count, wantedNames_concat, if_pos hw,
      Finset.card_insert_of_notMem fun hmem => mem_wantedNames_iff_find?.mp hmem hnone]

/-- One turn of the loop. -/
theorem step (h : Loaded filenameIsIocname fs paths acc) {token : Name}
    (hbody : directoryBody filenameIsIocname fs acc token = .ok acc') :
    Loaded filenameIsIocname fs (paths ++ [cstr token].filter isPath) acc' := by
  by_cases hcond : isPath (cstr token) = true ∧
      acc.1.iocResTbl (iocNameOf filenameIsIocname (cstr token)) = none
  · obtain ⟨hpath, hfree⟩ := hcond
    have hwf : acc'.1.WF := by
      rcases Dir.directoryBody_entry h.wf hbody with ⟨-, hentry⟩ | rfl
      · exact h.wf.entry hentry
      · exact h.wf
    have hcases := (Dir.directoryBody_wanted h.wf hpath hfree hbody).2
    rw [List.filter_cons, if_pos hpath, List.filter_nil]
    split_ifs at hcases with hw
    · exact h.load hwf hfree hw hcases.1 hcases.2
    · exact h.pass hwf hcases.2 hcases.1 fun hw' => absurd hw' hw
  · obtain ⟨-, rfl⟩ := (Dir.directoryBody_passed hcond).mp hbody
    rw [List.filter_cons]
    split_ifs with hpath
    · exact h.pass h.wf rfl rfl fun _ hfind => hcond ⟨hpath, h.free_iff.mpr hfind⟩
    · rw [List.filter_nil, List.append_nil]
      exact h

end Loaded

/-- **What the loop loads.** -/
theorem directoryLoop_loaded {tokens : List Name} {acc : Dir × ℕ}
    (h : tokens.foldlM (directoryBody filenameIsIocname fs) (Dir.empty, 0) = .ok acc) :
    Loaded filenameIsIocname fs ((tokens.map cstr).filter isPath) acc := by
  refine foldlM_prefix_induct (P := fun pre acc =>
    Loaded filenameIsIocname fs ((pre.map cstr).filter isPath) acc) h ?_ ?_
  · refine ⟨.empty, fun name path => iff_of_false ?_ ?_, rfl⟩
    · rintro ⟨i, hi⟩
      cases hi
    · intro hfind
      cases hfind
  · intro pre token post acc acc' _ hL hbody
    rw [List.map_append, List.filter_append]
    exact hL.step hbody

end CaNameserver
