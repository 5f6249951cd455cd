import CaNameserver.LeftBehind

/-!
# The directory file

The directory file names the signal lists of the IOCs, and its lines that begin with `#` are
comments.  But `parseDirectoryFile` does not know lines.  It reads words, passes over those that
begin with `#`, and takes the other words of a comment for pathnames: `# A/s` loads the IOC `A`
(`comment_loaded`).

## Two readings of the file

`lineWords` are the words with whether they stand on a comment line.  `pathsNamed` are the pathnames
as the lines have them, all words of the lines that are no comments; `pathsSeen` are those of the
loop, all words that do not begin with `#`.  What is loaded is under each name the first wanted list
of `pathsSeen` (`directoryLoop_loaded`), what is wanted is the first of `pathsNamed`
(`LoadsWanted`).  The two readings differ about two kinds of words: one of a comment line that does
not begin with `#`, and one of another line that does.

## When the difference does not matter

A word of the first kind does no harm exactly if its IOC has been loaded when its turn comes.  One
of the second kind would have been wanted only if it named a list with the right heartbeat, and then
it is not missed exactly if its IOC has been loaded before by both readings.  This is
`CommentsLate`, a condition on the file and the lists.

* `CommentsLate.find?_eq`: then both readings find the same list under each name; by induction on
  the words, for a word that the two see differently changes neither.
* `commentsLate_of_find?`: and if they do, and the comment lines are passed over, the comments come
  late; the first word of a comment that was not passed over would have been loaded.
* `loadsWanted_iff_late`: so what has been loaded at the end of the file is what is wanted.
* `loadsWanted_iff`: with the condition that the end is reached, which is that of `LeftBehind`.
-/

namespace CaNameserver

open CStr Fallible

variable {filenameIsIocname : Bool} {fs : FileSystem}

/-! ## Lines -/

/-- The first character of a line that is not blank is a `#`. -/
def isComment (line : Name) : Bool := decide ((line.dropWhile isSpace).head? = some '#')

/-- The words of the file, each with whether it stands on a comment line. -/
def lineWords (pf : List Char) : List (Bool × Name) :=
  (pf.splitOn '\n').flatMap fun line => (words line).map fun w => (isComment line, w)

/-- The pathnames of the lines that are no comments. -/
def pathsNamed (ws : List (Bool × Name)) : List Name := (ws.filter (!·.1)).map (cstr ·.2)

/-- The pathnames that the loop sees. -/
def pathsSeen (ws : List (Bool × Name)) : List Name := (ws.map (cstr ·.2)).filter isPath

/-- What is loaded is what the lines that are no comments name: the tables have, under each name,
the first of these pathnames that is wanted, and nothing else; the IOCs are counted; and no word of
a comment line has had any effect. -/
structure LoadsWanted (filenameIsIocname : Bool) (fs : FileSystem) (pf : List Char) (d : Dir)
    (requested : ℕ) : Prop where
  iocs : ∀ name, (d.iocResTbl name).map d.site =
    ((pathsNamed (lineWords pf)).find? (wanted filenameIsIocname fs name)).map
      fun path => some (name, path)
  count : requested = (wantedNames filenameIsIocname fs (pathsNamed (lineWords pf))).card
  comments : ∀ pre w post acc, lineWords pf = pre ++ (true, w) :: post →
    (pre.map Prod.snd).foldlM (directoryBody filenameIsIocname fs) (Dir.empty, 0) = .ok acc →
    ∀ fs', directoryBody filenameIsIocname fs' acc w = .ok acc

/-- Of the words `pre`, one that is on no comment line and does not begin with `#` gives the IOC
that `path` is named after. -/
def GivenBefore (filenameIsIocname : Bool) (fs : FileSystem) (pre : List (Bool × Name))
    (path : Name) : Prop :=
  ∃ w, (false, w) ∈ pre ∧ isPath (cstr w) = true ∧
    wanted filenameIsIocname fs (iocNameOf filenameIsIocname path) (cstr w) = true

/-- The words about which the lines and the loop disagree come too late to matter. -/
structure CommentsLate (filenameIsIocname : Bool) (fs : FileSystem)
    (ws : List (Bool × Name)) : Prop where
  /-- a word of a comment line that does not begin with `#` -/
  comment : ∀ pre w post, ws = pre ++ (true, w) :: post → isPath (cstr w) = true →
    GivenBefore filenameIsIocname fs pre (cstr w)
  /-- a wanted list with a name that begins with `#`, on another line -/
  mark : ∀ pre w post, ws = pre ++ (false, w) :: post → isPath (cstr w) = false →
    wanted filenameIsIocname fs (iocNameOf filenameIsIocname (cstr w)) (cstr w) = true →
      GivenBefore filenameIsIocname fs pre (cstr w)

theorem map_snd_lineWords (pf : List Char) : (lineWords pf).map Prod.snd = words pf := by
  rw [lineWords, List.map_flatMap, ← flatMap_words_splitOn pf]
  refine List.flatMap_congr fun line _ => ?_
  rw [List.map_map]
  exact List.map_id _

theorem pathsNamed_append (pre post : List (Bool × Name)) :
    pathsNamed (pre ++ post) = pathsNamed pre ++ pathsNamed post := by
  rw [pathsNamed, List.filter_append, List.map_append]
  rfl

theorem pathsSeen_append (pre post : List (Bool × Name)) :
    pathsSeen (pre ++ post) = pathsSeen pre ++ pathsSeen post := by
  rw [pathsSeen, List.map_append, List.filter_append]
  rfl

/-- A first pathname that is wanted stands on some line. -/
theorem exists_of_find?_pathsSeen {ws : List (Bool × Name)} {name path : Name}
    (h : (pathsSeen ws).find? (wanted filenameIsIocname fs name) = some path) :
    ∃ pre c w post, ws = pre ++ (c, w) :: post ∧ cstr w = path ∧ isPath path = true ∧
      wanted filenameIsIocname fs name path = true ∧
      (pathsSeen pre).find? (wanted filenameIsIocname fs name) = none := by
  induction ws using List.reverseRecOn with
  | nil => cases h
  | append_singleton ws x ih =>
      rw [pathsSeen_append, List.find?_append, Option.or_eq_some_iff] at h
      rcases h with h | ⟨hnone, h⟩
      · obtain ⟨pre, c, w, post, rfl, hw⟩ := ih h
        exact ⟨pre, c, w, post ++ [x], by simp, hw⟩
      · obtain ⟨c, w⟩ := x
        have hmem := List.mem_of_find?_eq_some h
        have hwanted := List.find?_some h
        rw [pathsSeen, List.mem_filter, List.map_singleton, List.mem_singleton] at hmem
        exact ⟨ws, c, w, [], rfl, hmem.1.symm, hmem.2, hwanted, hnone⟩

section Late

variable {ws : List (Bool × Name)}

/-- If they come late, the loop loads what the lines name. -/
theorem CommentsLate.find?_eq (h : CommentsLate filenameIsIocname fs ws) (name : Name) :
    (pathsSeen ws).find? (wanted filenameIsIocname fs name) =
      (pathsNamed ws).find? (wanted filenameIsIocname fs name) := by
  -- induction on the words, for a word that the two see differently changes neither
  induction ws using List.reverseRecOn with
  | nil => rfl
  | append_singleton ws x ih =>
      have hlate : CommentsLate filenameIsIocname fs ws := by
        refine ⟨fun pre w post heq => h.comment pre w (post ++ [x]) ?_,
          fun pre w post heq => h.mark pre w (post ++ [x]) ?_⟩
        · rw [heq, List.append_assoc, List.cons_append]
        · rw [heq, List.append_assoc, List.cons_append]
      have hgiven : ∀ path, GivenBefore filenameIsIocname fs ws path →
          wanted filenameIsIocname fs name path = true →
          (pathsNamed ws).find? (wanted filenameIsIocname fs name) ≠ none := by
        rintro path ⟨w, hmem, -, hw⟩ hwanted
        rw [(wanted_iff.mp hwanted).1] at hw
        rw [Ne, List.find?_eq_none]
        refine fun hnone => hnone (cstr w) ?_ hw
        exact List.mem_map.mpr ⟨(false, w), List.mem_filter.mpr ⟨hmem, rfl⟩, rfl⟩
      have hrest : ∀ o : Option Name, (pathsNamed ws).find? (wanted filenameIsIocname fs name) ≠
          none → ((pathsNamed ws).find? (wanted filenameIsIocname fs name)).or o =
            (pathsNamed ws).find? (wanted filenameIsIocname fs name) := by
        intro o hne
        obtain ⟨path, hpath⟩ := Option.ne_none_iff_exists'.mp hne
        rw [hpath, Option.some_or]
      obtain ⟨c, w⟩ := x
      rw [pathsSeen_append, pathsNamed_append, List.find?_append, List.find?_append, ih hlate]
      by_cases hw : wanted filenameIsIocname fs name (cstr w) = true
      · have hwown : wanted filenameIsIocname fs (iocNameOf filenameIsIocname (cstr w)) (cstr w) =
            true := (wanted_iff.mp hw).1.symm ▸ hw
        cases c with
        | true =>
            cases hpath : isPath (cstr w) with
            | true =>
                have hne := hgiven _ (h.comment ws w [] rfl hpath) hw
                rw [hrest _ hne, hrest _ hne]
            | false => simp [pathsSeen, pathsNamed, hpath]
        | false =>
            cases hpath : isPath (cstr w) with
            | true => simp [pathsSeen, pathsNamed, hpath]
            | false =>
                have hne := hgiven _ (h.mark ws w [] rfl hpath hwown) hw
                rw [hrest _ hne, hrest _ hne]
      · have hnone : ∀ l : List Name, (∀ path ∈ l, path = cstr w) →
            l.find? (wanted filenameIsIocname fs name) = none := by
          intro l hl
          rw [List.find?_eq_none]
          intro path hpath
          rw [hl path hpath]
          exact hw
        rw [hnone (pathsSeen [(c, w)]), hnone (pathsNamed [(c, w)])]
        · intro path hpath
          obtain ⟨y, hy, rfl⟩ := List.mem_map.mp hpath
          rw [List.mem_singleton.mp (List.mem_filter.mp hy).1]
        · intro path hpath
          exact List.mem_singleton.mp (List.mem_filter.mp hpath).1

/-- If the loop loads what the lines name, and passes over the comment lines, they come late. -/
theorem commentsLate_of_find?
    (hsame : ∀ name, (pathsSeen ws).find? (wanted filenameIsIocname fs name) =
      (pathsNamed ws).find? (wanted filenameIsIocname fs name))
    (hpassed : ∀ pre w post, ws = pre ++ (true, w) :: post → isPath (cstr w) = true →
      (pathsSeen pre).find? (wanted filenameIsIocname fs
        (iocNameOf filenameIsIocname (cstr w))) ≠ none) :
    CommentsLate filenameIsIocname fs ws := by
  refine ⟨fun pre w post heq hpath => ?_, fun pre w post heq hpath hw => ?_⟩
  · obtain ⟨path, hfind⟩ := Option.ne_none_iff_exists'.mp (hpassed pre w post heq hpath)
    obtain ⟨pre', c, w', post', rfl, rfl, hpath', hw', hnone⟩ := exists_of_find?_pathsSeen hfind
    cases c with
    | false => exact ⟨w', List.mem_append_right _ (List.mem_cons_self ..), hpath', hw'⟩
    | true =>
        -- the first such word would have been passed over
        refine absurd hnone ?_
        rw [← (wanted_iff.mp hw').1]
        refine hpassed pre' w' (post' ++ (true, w) :: post) ?_ hpath'
        rw [heq, List.append_assoc, List.cons_append]
  · have hnamed : pathsNamed ws = pathsNamed pre ++ cstr w :: pathsNamed post := by
      rw [heq, pathsNamed_append]
      rfl
    have hfind := hsame (iocNameOf filenameIsIocname (cstr w))
    rw [hnamed, List.find?_append, List.find?_cons_of_pos hw] at hfind
    have hseen : ∀ path, (pathsSeen ws).find? (wanted filenameIsIocname fs
        (iocNameOf filenameIsIocname (cstr w))) = some path → isPath path = true :=
      fun path h => (List.mem_filter.mp (List.mem_of_find?_eq_some h)).2
    cases hpre : (pathsNamed pre).find? (wanted filenameIsIocname fs
        (iocNameOf filenameIsIocname (cstr w))) with
    | none =>
        rw [hpre, Option.none_or] at hfind
        rw [hseen _ hfind] at hpath
        cases hpath
    | some path =>
        rw [hpre, Option.some_or] at hfind
        obtain ⟨⟨c, w'⟩, hmem, rfl⟩ := List.mem_map.mp (List.mem_of_find?_eq_some hpre)
        obtain ⟨hmem, hc⟩ := List.mem_filter.mp hmem
        cases c with
        | true => cases hc
        | false => exact ⟨w', hmem, hseen _ hfind, List.find?_some hpre⟩

end Late

/-- A word of the file, reached by the loop. -/
theorem directoryLoop_split {pre post : List (Bool × Name)} {c : Bool} {w : Name} {acc' : Dir × ℕ}
    (h : ((pre ++ (c, w) :: post).map Prod.snd).foldlM (directoryBody filenameIsIocname fs)
      (Dir.empty, 0) = .ok acc') :
    ∃ acc acc₁, (pre.map Prod.snd).foldlM (directoryBody filenameIsIocname fs) (Dir.empty, 0) =
        .ok acc ∧ Loaded filenameIsIocname fs (pathsSeen pre) acc ∧
      directoryBody filenameIsIocname fs acc w = .ok acc₁ := by
  rw [List.map_append, List.foldlM_append, bind_eq_ok_iff] at h
  obtain ⟨acc, hpre, h⟩ := h
  rw [List.map_cons, List.foldlM_cons, bind_eq_ok_iff] at h
  obtain ⟨acc₁, hw, -⟩ := h
  have hL := directoryLoop_loaded hpre
  rw [List.map_map] at hL
  exact ⟨acc, acc₁, hpre, hL, hw⟩

/-- What has been loaded at the end is what is wanted, if the comments come late. -/
theorem loadsWanted_iff_late {pf : List Char} {d : Dir} {requested : ℕ}
    (h : parseDirectoryFile filenameIsIocname fs pf = .ok (d, requested)) :
    LoadsWanted filenameIsIocname fs pf d requested ↔
      CommentsLate filenameIsIocname fs (lineWords pf) := by
  rw [parseDirectoryFile, ← map_snd_lineWords] at h
  have hL := directoryLoop_loaded h
  rw [List.map_map] at hL
  have hiocs : (∀ name, (d.iocResTbl name).map d.site =
      ((pathsNamed (lineWords pf)).find? (wanted filenameIsIocname fs name)).map
        fun path => some (name, path)) ↔
      ∀ name, (pathsSeen (lineWords pf)).find? (wanted filenameIsIocname fs name) =
        (pathsNamed (lineWords pf)).find? (wanted filenameIsIocname fs name) := by
    refine forall_congr' fun name => ?_
    rw [hL.wf.iocs_eq_iff, Option.ext_iff]
    exact forall_congr' fun path => by rw [hL.iocs name path]; rfl
  have hcomments : (∀ pre w post acc, lineWords pf = pre ++ (true, w) :: post →
      (pre.map Prod.snd).foldlM (directoryBody filenameIsIocname fs) (Dir.empty, 0) = .ok acc →
      ∀ fs', directoryBody filenameIsIocname fs' acc w = .ok acc) ↔
      ∀ pre w post, lineWords pf = pre ++ (true, w) :: post → isPath (cstr w) = true →
        (pathsSeen pre).find? (wanted filenameIsIocname fs
          (iocNameOf filenameIsIocname (cstr w))) ≠ none := by
    refine forall₃_congr fun pre w post => ?_
    constructor
    · intro hidle heq hpath hnone
      rw [heq] at h
      obtain ⟨acc, acc₁, hpre, hL', hw⟩ := directoryLoop_split h
      exact (Dir.directoryBody_idle_iff hL'.wf hw).mp (hidle acc heq hpre) hpath
        (hL'.free_iff.mpr hnone)
    · intro hpassed acc heq hpre
      rw [heq] at h
      obtain ⟨acc', acc₁, hpre', hL', hw⟩ := directoryLoop_split h
      cases hpre.symm.trans hpre'
      refine (Dir.directoryBody_idle_iff hL'.wf hw).mpr fun hpath hfree => ?_
      exact hpassed heq hpath (hL'.free_iff.mp hfree)
  constructor
  · intro hloads
    exact commentsLate_of_find? (hiocs.mp hloads.iocs) (hcomments.mp hloads.comments)
  · intro hlate
    refine ⟨hiocs.mpr hlate.find?_eq, ?_, hcomments.mpr fun pre w post heq hpath => ?_⟩
    · have hnames : wantedNames filenameIsIocname fs (pathsSeen (lineWords pf)) =
          wantedNames filenameIsIocname fs (pathsNamed (lineWords pf)) := by
        refine Finset.ext fun name => ?_
        rw [mem_wantedNames_iff_find?, mem_wantedNames_iff_find?, hlate.find?_eq]
      rw [← hnames]
      exact hL.count
    · obtain ⟨w', hmem, hpath', hw'⟩ := hlate.comment pre w post heq hpath
      rw [Ne, List.find?_eq_none]
      refine fun hnone => hnone (cstr w') ?_ hw'
      exact List.mem_filter.mpr ⟨List.mem_map_of_mem hmem, hpath'⟩

/-- **When startup loads what is wanted**: its directory file can be read to the end, and the
comments come late. -/
theorem loadsWanted_iff {pf : List Char} :
    (∃ d requested, parseDirectoryFile filenameIsIocname fs pf = .ok (d, requested) ∧
      LoadsWanted filenameIsIocname fs pf d requested) ↔
      CommentsLate filenameIsIocname fs (lineWords pf) ∧
        DirectoryReads filenameIsIocname fs (words pf) := by
  rw [← parseDirectoryFile_defined_iff]
  constructor
  · rintro ⟨d, requested, hrun, hloads⟩
    exact ⟨(loadsWanted_iff_late hrun).mp hloads, (d, requested), hrun⟩
  · rintro ⟨hlate, ⟨d, requested⟩, hrun⟩
    exact ⟨d, requested, hrun, (loadsWanted_iff_late hrun).mpr hlate⟩

/-- Every list has the heartbeat of the IOC `A`. -/
def listsOfA : FileSystem := fun _ => some "A:heartbeat".toList

/-- **A pathname that has been commented out is loaded**, if a blank follows the `#`. -/
theorem comment_loaded : ¬ ∀ (filenameIsIocname : Bool) (fs : FileSystem) (pf : List Char) (d : Dir)
    (requested : ℕ), parseDirectoryFile filenameIsIocname fs pf = .ok (d, requested) →
      LoadsWanted filenameIsIocname fs pf d requested := by
  intro hall
  obtain ⟨d, hd⟩ : ∃ d, parseDirectoryFile false listsOfA "# A/s\n".toList = .ok (d, 1) :=
    ⟨_, rfl⟩
  have hcount := (hall false listsOfA "# A/s\n".toList d 1 hd).count
  exact absurd hcount (by decide)

end CaNameserver
