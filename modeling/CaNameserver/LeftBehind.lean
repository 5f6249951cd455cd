import CaNameserver.WantedLists

/-!
# Heartbeats left behind

A rejected IOC is deleted, but its heartbeat stays in the PV table and points to it (`Rollback`).
From then on the table is not safe to use: when a later list names that heartbeat, `installPVName`
follows the pointer.  So whether the directory file can be read to its end depends on which
heartbeats have been left behind by then, and on which lists name them.

Both are functions of the pathnames, like the loaded IOCs themselves.

* `Taken`: when its turn comes, the IOC of the pathname is not in the table.
* `ListedBy`: a list that has been accepted has the name.
* `LeftBehind`: the name is the heartbeat of an IOC that was rejected, and nobody had it before.  It
  is left behind for good: nobody is down, so that no other IOC takes it.
* `Strewn`: these are the PVs in the table, and the second kind are those whose IOC is gone.  One
  pathname keeps this, `Strewn.step`; there are three cases, whether it is passed over, accepted or
  rejected.

With it the conditions of `LoaderRuns` on the directory before a pathname become conditions on the
files:

* `PathReads`: a pathname that is taken goes through.
* `DirectoryReads`: every word does.
* `parseDirectoryFile_defined_iff`: startup reads its directory file to the end exactly then.
-/

namespace CaNameserver

open CStr Fallible

variable {filenameIsIocname : Bool} {fs : FileSystem}

/-! ## What the pathnames say -/

/-- When its turn comes after `pre`, no IOC of the pathname's name has been loaded. -/
def Taken (filenameIsIocname : Bool) (fs : FileSystem) (pre : List Name) (path : Name) : Prop :=
  pre.find? (wanted filenameIsIocname fs (iocNameOf filenameIsIocname path)) = none

/-- One of the lists that have been accepted has the name `n`. -/
def ListedBy (filenameIsIocname : Bool) (fs : FileSystem) (paths : List Name) (n : Name) : Prop :=
  ∃ pre path post, paths = pre ++ path :: post ∧ Taken filenameIsIocname fs pre path ∧
    wanted filenameIsIocname fs (iocNameOf filenameIsIocname path) path = true ∧
    n ∈ signals fs path

/-- One of the lists that have been rejected is for the IOC with the heartbeat `n`, which no list
had before. -/
def LeftBehind (filenameIsIocname : Bool) (fs : FileSystem) (paths : List Name) (n : Name) : Prop :=
  ∃ pre path post, paths = pre ++ path :: post ∧ Taken filenameIsIocname fs pre path ∧
    wanted filenameIsIocname fs (iocNameOf filenameIsIocname path) path = false ∧
    path ≠ [] ∧ n = iocNameOf filenameIsIocname path ++ heartbeat ∧
    ¬ ListedBy filenameIsIocname fs pre n

theorem listedBy_concat {paths : List Name} {path n : Name} :
    ListedBy filenameIsIocname fs (paths ++ [path]) n ↔
      ListedBy filenameIsIocname fs paths n ∨ Taken filenameIsIocname fs paths path ∧
        wanted filenameIsIocname fs (iocNameOf filenameIsIocname path) path = true ∧
        n ∈ signals fs path :=
  exists_split_concat_iff

theorem leftBehind_concat {paths : List Name} {path n : Name} :
    LeftBehind filenameIsIocname fs (paths ++ [path]) n ↔
      LeftBehind filenameIsIocname fs paths n ∨ Taken filenameIsIocname fs paths path ∧
        wanted filenameIsIocname fs (iocNameOf filenameIsIocname path) path = false ∧
        path ≠ [] ∧ n = iocNameOf filenameIsIocname path ++ heartbeat ∧
        ¬ ListedBy filenameIsIocname fs paths n :=
  exists_split_concat_iff

/-! ## One pathname -/

namespace Dir

section New

variable {d d₁ d₂ d₃ : Dir} {name path n : Name} {p : PIoc} {r count : ℤ}

/-- The names in the table once the list has been read. -/
theorem Loading.names_iff (h : Loading d) (hfree : d.iocResTbl name = none)
    (hinst : Installed (d.installIocName name path).1 (name ++ heartbeat) d.nextPIoc d₁ r)
    (hadd : d₁.addAllPvs fs d.nextPIoc = .ok (d₂, count)) :
    d₂.stringResTbl n ≠ none ↔
      d.stringResTbl n ≠ none ∨ n = name ++ heartbeat ∨ n ∈ signals fs path := by
  have hgrown := (h.grown hfree hinst).addAllPvs (h.installIocName hfree).noneDown hadd
  have htab₀ : (d.installIocName name path).1.stringResTbl = d.stringResTbl := by
    rw [Dir.installIocName, hfree]
  obtain ⟨p, hp, -⟩ := hgrown.pIocs_self hfree
  have hlisted := h.listed_iff hfree hinst hadd (n := n)
  by_cases hn : d.stringResTbl n = none
  · rw [or_iff_right (not_not.mpr hn), ← hlisted.trans (and_iff_right hn)]
    constructor
    · intro hthere
      exact hgrown.listed n _ p ((hgrown.new n (htab₀ ▸ hn)).resolve_left hthere) hp
    · rintro ⟨e, -, he, -⟩
      rw [he]
      exact Option.some_ne_none e
  · refine iff_of_true ?_ (Or.inl hn)
    rw [(hgrown.names n (htab₀ ▸ hn)).1, htab₀]
    exact hn

theorem Loading.ownerThere_iff (h : Loading d) (hfree : d.iocResTbl name = none)
    (hinst : Installed (d.installIocName name path).1 (name ++ heartbeat) d.nextPIoc d₁ r)
    (hadd : d₁.addAllPvs fs d.nextPIoc = .ok (d₂, count)) :
    d₂.OwnerThere n ↔ d.OwnerThere n := by
  have hgrown := (h.grown hfree hinst).addAllPvs (h.installIocName hfree).noneDown hadd
  have hthere : (d.installIocName name path).1.pIocs d.nextPIoc ≠ none := by
    rw [installIocName_pIocs hfree, if_pos rfl]
    exact Option.some_ne_none _
  exact (hgrown.ownerThere_iff (h.installIocName hfree).wf hthere n).trans
    (h.wf.ownerThere_installIocName hfree n)

/-- The names in the table once the list has been rejected. -/
theorem Loading.rejected_names_iff (h : Loading d) (hfree : d.iocResTbl name = none)
    (hinst : Installed (d.installIocName name path).1 (name ++ heartbeat) d.nextPIoc d₁ r)
    (hadd : d₁.addAllPvs fs d.nextPIoc = .ok (d₂, count)) (hp : d₂.pIocs d.nextPIoc = some p)
    (hrem : Removed d₂ d.nextPIoc p d₃) (m : Name) :
    (d₃.drop d.nextPIoc m).stringResTbl n ≠ none ↔
      d.stringResTbl n ≠ none ∨ path ≠ [] ∧ n = name ++ heartbeat := by
  change d₃.stringResTbl n ≠ none ↔ _
  by_cases hn : d.stringResTbl n = none
  · rw [or_iff_right (not_not.mpr hn)]
    by_cases hleft : path ≠ [] ∧ n = name ++ heartbeat
    · refine iff_of_true (fun hnone => ?_) hleft
      obtain ⟨hpath, rfl⟩ := hleft
      have hown := h.rejected_heartbeat hfree hinst hadd hp hrem hn hpath
      rw [owner, hnone] at hown
      cases hown
    · refine iff_of_false (not_not.mpr ?_) hleft
      refine h.rejected_absent hfree hinst hadd hp hrem hn ?_
      by_contra hcon
      exact hleft ⟨fun hpath => hcon (Or.inr hpath), not_not.mp fun hne => hcon (Or.inl hne)⟩
  · refine iff_of_true ?_ (Or.inl hn)
    rw [(h.rejected_names hfree hinst hadd hp hrem hn).1]
    exact hn

/-- The PVs whose IOC is gone once the list has been rejected. -/
theorem Loading.rejected_ownerThere_iff (h : Loading d) (hfree : d.iocResTbl name = none)
    (hinst : Installed (d.installIocName name path).1 (name ++ heartbeat) d.nextPIoc d₁ r)
    (hadd : d₁.addAllPvs fs d.nextPIoc = .ok (d₂, count)) (hp : d₂.pIocs d.nextPIoc = some p)
    (hrem : Removed d₂ d.nextPIoc p d₃) (m : Name) :
    (d₃.drop d.nextPIoc m).OwnerThere n ↔ d.OwnerThere n ∧
      ¬ (path ≠ [] ∧ n = name ++ heartbeat ∧ d.stringResTbl n = none) := by
  have hpIocs : ∀ o, (d₃.drop d.nextPIoc m).pIocs o ≠ none ↔ d.pIocs o ≠ none := by
    intro o
    rw [Ne, ← header_eq_none_iff, rejected_header h.wf hfree hinst hadd hp hrem, header_eq_none_iff]
  have howner : (d₃.drop d.nextPIoc m).owner n = d₃.owner n := rfl
  unfold OwnerThere
  simp only [howner, hpIocs]
  by_cases hn : d.stringResTbl n = none
  · have hold : d.owner n = none := h.wf.owner_eq_none_iff.mpr hn
    by_cases hleft : path ≠ [] ∧ n = name ++ heartbeat
    · refine iff_of_false (fun hall => ?_) fun hcon => hcon.2 ⟨hleft.1, hleft.2, hn⟩
      obtain ⟨hpath, rfl⟩ := hleft
      refine hall _ (h.rejected_heartbeat hfree hinst hadd hp hrem hn hpath) ?_
      cases hx : d.pIocs d.nextPIoc with
      | none => rfl
      | some x => exact absurd (h.wf.pIocs_lt _ x hx) (lt_irrefl _)
    · refine iff_of_true (fun o ho => ?_) ⟨fun o ho => ?_, fun hcon => hleft ⟨hcon.1, hcon.2.1⟩⟩
      · have habsent : d₃.stringResTbl n = none := by
          by_contra hthere
          rcases (h.rejected_names_iff hfree hinst hadd hp hrem m).mp hthere with hthere | hcon
          · exact hthere hn
          · exact hleft hcon
        rw [owner, habsent] at ho
        cases ho
      · rw [hold] at ho
        cases ho
  · rw [(h.rejected_names hfree hinst hadd hp hrem hn).owner]
    exact (and_iff_left fun hcon => hn hcon.2.2).symm

end New

/-- The PVs in the table after the pathnames `paths`, and those of them whose IOC is gone. -/
structure Strewn (filenameIsIocname : Bool) (fs : FileSystem) (paths : List Name) (d : Dir) :
    Prop where
  names : ∀ n, d.stringResTbl n ≠ none ↔
    ListedBy filenameIsIocname fs paths n ∨ LeftBehind filenameIsIocname fs paths n
  owners : ∀ n, d.OwnerThere n ↔ ¬ LeftBehind filenameIsIocname fs paths n

theorem Strewn.empty : Strewn filenameIsIocname fs [] Dir.empty := by
  have hnil : ∀ {R : List Name → Name → Prop},
      ¬ ∃ pre path post, ([] : List Name) = pre ++ path :: post ∧ R pre path := by
    rintro R ⟨pre, path, post, heq, -⟩
    exact List.append_ne_nil_of_right_ne_nil pre (List.cons_ne_nil path post) heq.symm
  refine ⟨fun n => iff_of_false (fun h => h rfl) ?_, fun n => iff_of_true nofun hnil⟩
  exact fun h => h.elim hnil hnil

section Step

variable {paths : List Name} {path : Name} {d d' : Dir}

/-- A pathname whose IOC is there changes neither. -/
theorem Strewn.pass (h : Strewn filenameIsIocname fs paths d)
    (hnot : ¬ Taken filenameIsIocname fs paths path) :
    Strewn filenameIsIocname fs (paths ++ [path]) d := by
  have hlisted : ∀ n, ListedBy filenameIsIocname fs (paths ++ [path]) n ↔
      ListedBy filenameIsIocname fs paths n := fun n =>
    listedBy_concat.trans (or_iff_left fun hc => hnot hc.1)
  have hleft : ∀ n, LeftBehind filenameIsIocname fs (paths ++ [path]) n ↔
      LeftBehind filenameIsIocname fs paths n := fun n =>
    leftBehind_concat.trans (or_iff_left fun hc => hnot hc.1)
  refine ⟨fun n => ?_, fun n => ?_⟩
  · rw [h.names, hlisted, hleft]
  · rw [h.owners, hleft]

/-- A list that is accepted adds its names. -/
theorem Strewn.accept (h : Strewn filenameIsIocname fs paths d)
    (htaken : Taken filenameIsIocname fs paths path)
    (hw : wanted filenameIsIocname fs (iocNameOf filenameIsIocname path) path = true)
    (hnames : ∀ n, d'.stringResTbl n ≠ none ↔ d.stringResTbl n ≠ none ∨
      n = iocNameOf filenameIsIocname path ++ heartbeat ∨ n ∈ signals fs path)
    (howners : ∀ n, d'.OwnerThere n ↔ d.OwnerThere n) :
    Strewn filenameIsIocname fs (paths ++ [path]) d' := by
  have hnot : ¬ wanted filenameIsIocname fs (iocNameOf filenameIsIocname path) path = false := by
    rw [hw]
    exact Bool.noConfusion
  have hleft : ∀ n, LeftBehind filenameIsIocname fs (paths ++ [path]) n ↔
      LeftBehind filenameIsIocname fs paths n := fun n =>
    leftBehind_concat.trans (or_iff_left fun hc => hnot hc.2.1)
  refine ⟨fun n => ?_, fun n => ?_⟩
  · have hmem : n = iocNameOf filenameIsIocname path ++ heartbeat ∨ n ∈ signals fs path ↔
        n ∈ signals fs path := by
      refine or_iff_right_of_imp ?_
      rintro rfl
      exact (wanted_iff.mp hw).2
    rw [hnames, h.names, hmem, listedBy_concat, hleft, and_iff_right htaken, and_iff_right hw,
      or_right_comm]
  · rw [howners, h.owners, hleft]

/-- A list that is rejected leaves its heartbeat, if that is new. -/
theorem Strewn.reject (h : Strewn filenameIsIocname fs paths d)
    (htaken : Taken filenameIsIocname fs paths path)
    (hw : wanted filenameIsIocname fs (iocNameOf filenameIsIocname path) path = false)
    (hnames : ∀ n, d'.stringResTbl n ≠ none ↔ d.stringResTbl n ≠ none ∨
      path ≠ [] ∧ n = iocNameOf filenameIsIocname path ++ heartbeat)
    (howners : ∀ n, d'.OwnerThere n ↔ d.OwnerThere n ∧ ¬ (path ≠ [] ∧
      n = iocNameOf filenameIsIocname path ++ heartbeat ∧ d.stringResTbl n = none)) :
    Strewn filenameIsIocname fs (paths ++ [path]) d' := by
  have hnot : ¬ wanted filenameIsIocname fs (iocNameOf filenameIsIocname path) path = true := by
    rw [hw]
    exact Bool.noConfusion
  have hfree : ∀ n, d.stringResTbl n = none ↔ ¬ (ListedBy filenameIsIocname fs paths n ∨
      LeftBehind filenameIsIocname fs paths n) := fun n => by
    rw [← h.names, not_not]
  have hlisted : ∀ n, ListedBy filenameIsIocname fs (paths ++ [path]) n ↔
      ListedBy filenameIsIocname fs paths n := fun n =>
    listedBy_concat.trans (or_iff_left fun hc => hnot hc.2.1)
  refine ⟨fun n => ?_, fun n => ?_⟩
  · rw [hnames, h.names, hlisted, leftBehind_concat, and_iff_right htaken, and_iff_right hw]
    tauto
  · rw [howners, h.owners, hfree, leftBehind_concat, and_iff_right htaken, and_iff_right hw]
    tauto

end Step

end Dir

/-! ## The loop -/

/-- What is known between two words, the pathnames among those before being `paths`. -/
structure Between (filenameIsIocname : Bool) (fs : FileSystem) (paths : List Name)
    (acc : Dir × ℕ) : Prop where
  loaded : Loaded filenameIsIocname fs paths acc
  loading : acc.1.Loading
  strewn : Dir.Strewn filenameIsIocname fs paths acc.1

theorem Between.taken_iff {paths : List Name} {acc : Dir × ℕ} {path : Name}
    (h : Between filenameIsIocname fs paths acc) :
    Taken filenameIsIocname fs paths path ↔
      acc.1.iocResTbl (iocNameOf filenameIsIocname path) = none :=
  h.loaded.free_iff.symm

/-- One turn of the loop. -/
theorem Between.step {paths : List Name} {acc acc' : Dir × ℕ} {token : Name}
    (h : Between filenameIsIocname fs paths acc)
    (hbody : directoryBody filenameIsIocname fs acc token = .ok acc') :
    Between filenameIsIocname fs (paths ++ [cstr token].filter isPath) acc' := by
  refine ⟨h.loaded.step hbody, ?_, ?_⟩
  · rcases Dir.directoryBody_entry h.loading.wf hbody with ⟨-, hentry⟩ | rfl
    · exact h.loading.entry hentry
    · exact h.loading
  by_cases hcond : isPath (cstr token) = true ∧
      acc.1.iocResTbl (iocNameOf filenameIsIocname (cstr token)) = none
  · obtain ⟨hpath, hfree⟩ := hcond
    rw [List.filter_cons, if_pos hpath, List.filter_nil]
    have htaken := h.taken_iff.mpr hfree
    obtain ⟨d₁, r, d₂, count, hinst, hadd, hcases⟩ :=
      Dir.directoryBody_new h.loading.wf hpath hfree hbody
    have haccepted : count ≠ -1 ↔
        wanted filenameIsIocname fs (iocNameOf filenameIsIocname (cstr token)) (cstr token) =
          true := by
      obtain ⟨p, hp, hname, hlist⟩ := (h.loading.grown hfree hinst).pIocs_self hfree
      have hheart : p.heartbeatName =
          iocNameOf filenameIsIocname (cstr token) ++ heartbeat := by
        rw [PIoc.heartbeatName, hname]
      rw [Dir.addAllPvs_accepted_iff hadd hp (hheart ▸ hinst.mem), wanted_iff, and_iff_right rfl,
        hheart, hlist]
    rcases hcases with ⟨hcount, rfl⟩ | ⟨hcount, p, d₃, q, hp, hrem, -, rfl⟩
    · exact h.strewn.accept htaken (haccepted.mp hcount)
        (fun n => h.loading.names_iff hfree hinst hadd)
        fun n => h.loading.ownerThere_iff hfree hinst hadd
    · refine h.strewn.reject htaken ?_
        (fun n => h.loading.rejected_names_iff hfree hinst hadd hp hrem q.iocname)
        fun n => h.loading.rejected_ownerThere_iff hfree hinst hadd hp hrem q.iocname
      exact Bool.eq_false_iff.mpr fun hw => haccepted.mpr hw hcount
  · obtain ⟨-, rfl⟩ := (Dir.directoryBody_passed hcond).mp hbody
    rw [List.filter_cons]
    split_ifs with hpath
    · exact h.strewn.pass fun htaken => hcond ⟨hpath, h.taken_iff.mp htaken⟩
    · rw [List.filter_nil, List.append_nil]
      exact h.strewn

/-! ## When the directory file can be read -/

/-- A pathname goes through, after `pre`, when it is taken: the strings fit, its list names no
heartbeat left behind other than its own, and if it is rejected what it has added can be read
back. -/
structure PathReads (filenameIsIocname : Bool) (fs : FileSystem) (pre : List Name) (path : Name) :
    Prop where
  tStr : (iocNameOf filenameIsIocname path ++ heartbeat).length < pvNameSz
  pathStr : path.length < pathNameSz - 1
  pvNameStr : ∀ w ∈ listWords fs path, w.length < pvNameSz
  owners : ∀ n ∈ signals fs path, n ≠ iocNameOf filenameIsIocname path ++ heartbeat →
    ¬ LeftBehind filenameIsIocname fs pre n
  removal : iocNameOf filenameIsIocname path ++ heartbeat ∉ signals fs path →
    ∀ n, n = iocNameOf filenameIsIocname path ++ heartbeat ∨ n ∈ signals fs path →
      ¬ ListedBy filenameIsIocname fs pre n → ¬ LeftBehind filenameIsIocname fs pre n →
        n.length < pvNameSz - 1

/-- The words of the directory file fit `input`, and the pathnames that are taken go through. -/
def DirectoryReads (filenameIsIocname : Bool) (fs : FileSystem) (tokens : List Name) : Prop :=
  ∀ pre token post, tokens = pre ++ token :: post → token.length < 200 ∧
    (isPath (cstr token) = true →
      Taken filenameIsIocname fs ((pre.map cstr).filter isPath) (cstr token) →
        PathReads filenameIsIocname fs ((pre.map cstr).filter isPath) (cstr token))

/-- One word goes through. -/
theorem Between.directoryBody_defined_iff {paths : List Name} {acc : Dir × ℕ}
    (h : Between filenameIsIocname fs paths acc) (token : Name) :
    Defined (directoryBody filenameIsIocname fs acc token) ↔ token.length < 200 ∧
      (isPath (cstr token) = true → Taken filenameIsIocname fs paths (cstr token) →
        PathReads filenameIsIocname fs paths (cstr token)) := by
  rw [h.taken_iff]
  by_cases hcond : isPath (cstr token) = true ∧
      acc.1.iocResTbl (iocNameOf filenameIsIocname (cstr token)) = none
  · obtain ⟨hpath, hfree⟩ := hcond
    have hfree' : ∀ n, acc.1.stringResTbl n = none ↔ ¬ ListedBy filenameIsIocname fs paths n ∧
        ¬ LeftBehind filenameIsIocname fs paths n := fun n => by
      rw [← not_or, ← h.strewn.names, not_not]
    rw [imp_iff_right hpath, imp_iff_right hfree,
      h.loading.directoryBody_defined_iff fs acc.2 hpath hfree]
    refine and_congr_right fun _ => ?_
    simp only [Dir.RemovalReads, hfree', and_imp]
    constructor
    · rintro ⟨hreads, hremoval⟩
      exact ⟨hreads.tStr, hreads.pathStr, hreads.pvNameStr,
        fun n hn hne => (h.strewn.owners n).mp (hreads.owners n hn hne), hremoval⟩
    · intro hreads
      exact ⟨⟨hreads.tStr, hreads.pathStr, hreads.pvNameStr,
        fun n hn hne => (h.strewn.owners n).mpr (hreads.owners n hn hne)⟩, hreads.removal⟩
  · have hpassed : Defined (directoryBody filenameIsIocname fs acc token) ↔ token.length < 200 := by
      constructor
      · rintro ⟨acc', hbody⟩
        exact ((Dir.directoryBody_passed hcond).mp hbody).1
      · intro hlen
        exact ⟨acc, (Dir.directoryBody_passed hcond).mpr ⟨hlen, rfl⟩⟩
    rw [hpassed]
    exact (and_iff_left fun hpath hfree => absurd ⟨hpath, hfree⟩ hcond).symm

/-- **When the directory file can be read to its end.** -/
theorem parseDirectoryFile_defined_iff {pf : List Char} :
    Defined (parseDirectoryFile filenameIsIocname fs pf) ↔
      DirectoryReads filenameIsIocname fs (words pf) := by
  refine defined_foldlM_iff (P := fun pre acc =>
    Between filenameIsIocname fs ((pre.map cstr).filter isPath) acc) ?_ ?_ ?_
  · exact ⟨directoryLoop_loaded rfl, .empty, .empty⟩
  · intro pre token post acc acc' _ h hbody
    rw [List.map_append, List.filter_append]
    exact h.step hbody
  · exact fun pre token post acc _ h => h.directoryBody_defined_iff token

end CaNameserver
