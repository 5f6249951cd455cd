import CaNameserver.Comments
import CaNameserver.FinalNewline
import CaNameserver.PvlistBuffers

/-!
# Rules and the lines before them

`readPvList` keeps its variables from one line to the next.  All of them are set before they are
used, but for `lev`: a group without a level leaves it alone, and the rule gets the level that an
earlier line has left, or whatever was in the variable at the beginning.  This module says which
lines give the rules that they would give alone.

## What a line contributes

A `Contribution` is the entries of a line for the three kinds of list, levels included, and
`contributionOf` reads them off the line and the level that has been left.  Levels are the only
place in which that level can show (`contributionOf_eq_iff`): it does where a command with a
pattern that compiles has a group and no level (`LevelOpen`).  What the line leaves in turn is
`levelGiven`: the level if it has one, 1 if it has no group or a level that is no number, and what
was there otherwise.  Commands that are unknown set it, too; `DENY`, `ORDER` and lines without a
command do not.

## Reading

`secondPass_adds` and `readLine_adds` say that reading a line puts its contribution at the heads
of the lists (`Adds`) and leaves its level.  For a `DENY` with hosts the second pass reads another
text, the one with the addresses; that makes no difference to levels (`firstPass_level`).  From
what has been added the contribution can be read off again (`Adds.unique`), so that `Contributes`
may speak of the difference between two readings of the file, up to the line and with it.

## The file

`OwnRule` says of a line that it contributes after the lines before it what it contributes alone,
and that a rule without a level gets level 1.  The level that the lines before leave is computed
from their text (`levelBefore`).

* `ownRule_iff`: the entries of every line are its own exactly if all lines that are open find a
  1, and the lines stay inside their buffers.
* `level_leaks`: a level that leaks.
-/

namespace CaNameserver

open CStr Fallible

namespace GateAs

variable {rx : Regex} {aToIPAddr : Resolver}

/-! ## What a line contributes -/

/-- Entries, for the three kinds of list. -/
@[ext] structure Contribution where
  deny : List GateAsEntry
  allow : List GateAsEntry
  denyFrom : Name → List GateAsEntry

/-- No entries. -/
def Contribution.nothing : Contribution := ⟨[], [], fun _ => []⟩

/-- The entries have been put at the heads of their lists. -/
structure Adds (c : Contribution) (g g' : GateAs) : Prop where
  deny : g'.denyList = c.deny ++ g.denyList
  allow : g'.allowList = c.allow ++ g.allowList
  denyFrom : ∀ host, (g'.denyFromTable host).getD [] =
    c.denyFrom host ++ (g.denyFromTable host).getD []

theorem Adds.nothing (g : GateAs) : Adds .nothing g g := ⟨rfl, rfl, fun _ => rfl⟩

/-- What has been added can be read off. -/
theorem Adds.unique {c c' : Contribution} {g g' : GateAs} (h : Adds c g g') (h' : Adds c' g g') :
    c = c' := by
  refine Contribution.ext ?_ ?_ (funext fun host => ?_)
  · exact List.append_cancel_right (h.deny.symm.trans h'.deny)
  · exact List.append_cancel_right (h.allow.symm.trans h'.allow)
  · exact List.append_cancel_right ((h.denyFrom host).symm.trans (h'.denyFrom host))

/-- The alias of a rule, and the group and level arguments; `none` for an `ALIAS` without a real
name. -/
def ruleArgs (cmd r : Name) : Option (Option Name × List Name) :=
  if isAlias cmd then
    match tokens blanks r with
    | [] => none
    | rname :: args => some (some rname, args)
  else some (none, tokens blanks r)

/-- The level that the arguments set: none where there is a group alone. -/
def argLevel : List Name → Option ℤ
  | [] => some 1
  | [_] => none
  | _ :: asl :: _ => some ((scanInt asl).getD 1)

/-- The level that a line sets.  Commands that are unknown set it, too. -/
def levelGiven (line : Name) : Option ℤ :=
  match patternCmd line with
  | none => none
  | some (_, cmd, r) =>
      if isDeny cmd ∨ isOrder cmd then none
      else (ruleArgs cmd r).bind fun args => argLevel args.2

/-- The entries of a command whose pattern compiles, where `lev` is the level that earlier lines
have left. -/
def cmdContribution (lev : ℤ) (pattern cmd r : Name) : Contribution :=
  if isDeny cmd then
    match tokens hostDelim (afterFrom r) with
    | [] => { Contribution.nothing with deny := [.ofPattern pattern] }
    | hosts =>
        { Contribution.nothing with
          denyFrom := fun host => List.replicate (hosts.count host) (.ofPattern pattern) }
  else if isAllow cmd then
    match ruleArgs cmd r with
    | none => .nothing
    | some (rname, args) =>
        { Contribution.nothing with
          allow := [⟨pattern, rname, some (args.headD defaultGroup), (argLevel args).getD lev⟩] }
  else .nothing

/-- The entries of a line. -/
def contributionOf (rx : Regex) (lev : ℤ) (line : Name) : Contribution :=
  match patternCmd line with
  | none => .nothing
  | some (pattern, cmd, r) =>
      if rx.compiles pattern then cmdContribution lev pattern cmd r else .nothing

/-- An `ALLOW`, `ALIAS`, `PATTERN` or `PV` whose pattern compiles, with a group and no level. -/
def LevelOpen (rx : Regex) (line : Name) : Prop :=
  ∃ pattern cmd r, patternCmd line = some (pattern, cmd, r) ∧ rx.compiles pattern = true ∧
    isAllow cmd = true ∧ ∃ rname asg, ruleArgs cmd r = some (rname, [asg])

theorem isDeny_of_isAllow {cmd : Name} (h : isAllow cmd = true) : isDeny cmd = false := by
  rw [Bool.eq_false_iff]
  intro hdeny
  rw [isAllow_of_isDeny hdeny] at h
  cases h

theorem argLevel_eq_none_iff {args : List Name} : argLevel args = none ↔ ∃ asg, args = [asg] := by
  match args with
  | [] => simp [argLevel]
  | [asg] => simp [argLevel]
  | _ :: _ :: _ => simp [argLevel]

/-- **Levels are the only difference.**  What a line contributes depends on the lines before it
exactly if it is open. -/
theorem contributionOf_eq_iff (rx : Regex) (lev lev' : ℤ) (line : Name) :
    contributionOf rx lev line = contributionOf rx lev' line ↔ (LevelOpen rx line → lev = lev') := by
  have hself : ∀ {pattern cmd r : Name}, patternCmd line = some (pattern, cmd, r) →
      (LevelOpen rx line ↔ rx.compiles pattern = true ∧ isAllow cmd = true ∧
        ∃ rname asg, ruleArgs cmd r = some (rname, [asg])) := by
    intro pattern cmd r hcmd
    constructor
    · rintro ⟨_, _, _, h, h'⟩
      cases hcmd.symm.trans h
      exact h'
    · exact fun h => ⟨pattern, cmd, r, hcmd, h⟩
  rw [contributionOf, contributionOf]
  cases hcmd : patternCmd line with
  | none =>
      refine iff_of_true rfl ?_
      rintro ⟨_, _, _, h, -⟩
      cases hcmd.symm.trans h
  | some x =>
      obtain ⟨pattern, cmd, r⟩ := x
      rw [hself hcmd]
      dsimp only
      by_cases hcomp : rx.compiles pattern = true
      · rw [if_pos hcomp, if_pos hcomp, cmdContribution, cmdContribution]
        by_cases hallow : isAllow cmd = true
        · rw [if_neg (Bool.eq_false_iff.mp (isDeny_of_isAllow hallow)), if_pos hallow,
            if_neg (Bool.eq_false_iff.mp (isDeny_of_isAllow hallow)), if_pos hallow]
          cases hargs : ruleArgs cmd r with
          | none => simp
          | some args =>
              obtain ⟨rname, args⟩ := args
              dsimp only
              constructor
              · rintro heq ⟨-, -, rname', asg, h⟩
                cases h
                simpa [argLevel] using congrArg Contribution.allow heq
              · intro h
                cases hlevel : argLevel args with
                | some l => rfl
                | none =>
                    obtain ⟨asg, rfl⟩ := argLevel_eq_none_iff.mp hlevel
                    rw [h ⟨hcomp, hallow, rname, asg, rfl⟩]
        · rw [if_neg hallow, if_neg hallow]
          exact iff_of_true rfl fun h => absurd h.2.1 hallow
      · rw [if_neg hcomp, if_neg hcomp]
        exact iff_of_true rfl fun h => absurd h.1 hcomp

/-! ## The second pass -/

/-- An allowing command, read. -/
theorem readAllow_adds {st : Reader} {pattern cmd r : Name} {rname : Option Name}
    (hdeny : isDeny cmd = false) {args : List Name} (hargs : ruleArgs cmd r = some (rname, args))
    {r' : Name} (hr' : tokens blanks r' = args) :
    Adds (if rx.compiles pattern then cmdContribution st.lev pattern cmd r else .nothing) st.gate
        (readAllow rx st pattern cmd rname r').gate ∧
      (readAllow rx st pattern cmd rname r').lev = (argLevel args).getD st.lev := by
  have hread : readAllow rx st pattern cmd rname r' =
      let lev := (argLevel args).getD st.lev
      let e : GateAsEntry := ⟨pattern, rname, some (args.headD defaultGroup), lev⟩
      if isAllow cmd then ⟨{ st.gate with allowList := init rx e st.gate.allowList }, lev⟩
      else ⟨st.gate, lev⟩ := by
    rw [readAllow, ← hr']
    cases hs : strtok blanks r' with
    | none =>
        rw [strtok_eq_none_iff.mp hs]
        rfl
    | some p =>
        obtain ⟨asg, r₁⟩ := p
        rw [tokens_of_strtok hs]
        dsimp only
        cases hs₁ : strtok blanks r₁ with
        | none =>
            rw [strtok_eq_none_iff.mp hs₁]
            rfl
        | some q =>
            obtain ⟨asl, r₂⟩ := q
            rw [tokens_of_strtok hs₁]
            rfl
  rw [hread, cmdContribution, if_neg (Bool.eq_false_iff.mp hdeny), hargs]
  by_cases hallow : isAllow cmd = true
  · rw [if_pos hallow, if_pos hallow, init]
    refine ⟨?_, rfl⟩
    by_cases hcomp : rx.compiles pattern = true
    · simp only [hcomp, if_true]
      exact ⟨rfl, rfl, fun _ => rfl⟩
    · simp only [hcomp, Bool.false_eq_true, if_false]
      exact .nothing st.gate
  · rw [if_neg hallow, if_neg hallow, ite_self]
    exact ⟨.nothing st.gate, rfl⟩

theorem deny_adds (rx : Regex) (st : Reader) (pattern : Name) {cmd r : Name}
    (hdeny : isDeny cmd = true) :
    Adds (if rx.compiles pattern then cmdContribution st.lev pattern cmd r else .nothing) st.gate
        (deny rx pattern st (tokens hostDelim (afterFrom r))).gate ∧
      (deny rx pattern st (tokens hostDelim (afterFrom r))).lev = st.lev := by
  rw [cmdContribution, if_pos hdeny]
  by_cases hcomp : rx.compiles pattern = true
  · rw [if_pos hcomp]
    cases tokens hostDelim (afterFrom r) with
    | nil =>
        have hinit : init rx (GateAsEntry.ofPattern pattern) st.gate.denyList =
            GateAsEntry.ofPattern pattern :: st.gate.denyList := if_pos hcomp
        rw [deny, hinit]
        exact ⟨⟨rfl, rfl, fun _ => rfl⟩, rfl⟩
    | cons hname hosts =>
        have h := scoped_foldl hcomp (hname :: hosts) st
        refine ⟨⟨h.denyList, h.allowList, fun host => ?_⟩, h.lev⟩
        show _ = List.replicate ((hname :: hosts).count host) (GateAsEntry.ofPattern pattern) ++ _
        by_cases hmem : host ∈ hname :: hosts
        · rw [deny, h.denied host hmem]
          rfl
        · rw [deny, h.others host hmem, List.count_eq_zero.mpr hmem, List.replicate_zero,
            List.nil_append]
  · rw [if_neg hcomp, deny_of_not_compiles (Bool.eq_false_iff.mpr hcomp)]
    exact ⟨.nothing st.gate, rfl⟩

/-- **The second pass** adds the entries of the line, and leaves the level that it gives. -/
theorem secondPass_adds (rx : Regex) (st : Reader) (line : Name) :
    Adds (contributionOf rx st.lev line) st.gate (secondPass rx st line).gate ∧
      (secondPass rx st line).lev = (levelGiven line).getD st.lev := by
  rw [contributionOf, levelGiven, secondPass]
  cases patternCmd line with
  | none => exact ⟨.nothing st.gate, rfl⟩
  | some x =>
      obtain ⟨pattern, cmd, r⟩ := x
      dsimp only
      by_cases hdeny : isDeny cmd = true
      · rw [if_pos hdeny, if_pos (Or.inl hdeny)]
        have h := deny_adds rx st pattern (r := r) hdeny
        cases hhosts : tokens hostDelim (afterFrom r) with
        | nil =>
            rw [hhosts] at h
            exact h
        | cons hname hosts =>
            rw [hhosts] at h
            exact h
      rw [if_neg hdeny]
      have hdeny' := Bool.eq_false_iff.mpr hdeny
      by_cases horder : isOrder cmd = true
      · rw [if_pos horder, if_pos (Or.inr horder), readOrder_eq, cmdContribution, if_neg hdeny,
          if_neg (Bool.eq_false_iff.mp (isAllow_of_isOrder horder)), ite_self]
        cases orderArg r with
        | none => exact ⟨.nothing st.gate, rfl⟩
        | some o => exact ⟨⟨rfl, rfl, fun _ => rfl⟩, rfl⟩
      rw [if_neg horder, if_neg (not_or.mpr ⟨hdeny, horder⟩)]
      by_cases halias : isAlias cmd = true
      · rw [if_pos halias]
        cases hs : strtok blanks r with
        | none =>
            have hargs : ruleArgs cmd r = none := by
              rw [ruleArgs, if_pos halias, strtok_eq_none_iff.mp hs]
            rw [hargs, cmdContribution, if_neg hdeny, if_pos (isAllow_of_isAlias halias), hargs,
              ite_self]
            exact ⟨.nothing st.gate, rfl⟩
        | some y =>
            obtain ⟨rname, r'⟩ := y
            have hargs : ruleArgs cmd r = some (some rname, tokens blanks r') := by
              rw [ruleArgs, if_pos halias, tokens_of_strtok hs]
            rw [hargs]
            exact readAllow_adds hdeny' hargs rfl
      · have hargs : ruleArgs cmd r = some (none, tokens blanks r) := by
          rw [ruleArgs, if_neg halias]
        rw [if_neg halias, hargs]
        exact readAllow_adds hdeny' hargs rfl

/-! ## The line and its copy -/

/-- What a line of the file contributes. -/
def lineContribution (rx : Regex) (aToIPAddr : Resolver) (lev : ℤ) (l : Name) : Contribution :=
  match firstPass aToIPAddr (l ++ ['\n']) with
  | .ok (some line) => contributionOf rx lev line
  | _ => .nothing

/-- The level that a line leaves. -/
def levelAfter (lev : ℤ) (l : Name) : ℤ := (levelGiven (copyOf l)).getD lev

theorem not_levelOpen_of_isDeny {line pattern cmd r : Name}
    (hcmd : patternCmd line = some (pattern, cmd, r)) (hdeny : isDeny cmd = true) :
    ¬ LevelOpen rx line := by
  rintro ⟨_, _, _, h, -, hallow, -⟩
  cases hcmd.symm.trans h
  rw [isAllow_of_isDeny hdeny] at hallow
  cases hallow

theorem levelGiven_of_isDeny {line pattern cmd r : Name}
    (hcmd : patternCmd line = some (pattern, cmd, r)) (hdeny : isDeny cmd = true) :
    levelGiven line = none := by
  rw [levelGiven, hcmd]
  exact if_pos (Or.inl hdeny)

/-- **The second pass reads what the copy says about levels**: for a `DENY` with hosts it reads
another text, but neither is about a level. -/
theorem firstPass_level (rx : Regex) {l : Name} (hmark : '#' ∉ l) {o : Option Name}
    (ho : firstPass aToIPAddr (l ++ ['\n']) = .ok o) :
    o.bind levelGiven = levelGiven (copyOf l) ∧
      ((∃ line ∈ o, LevelOpen rx line) ↔ LevelOpen rx (copyOf l)) := by
  have hnil : cstr (l ++ ['\n']) ≠ [] := (firstPass_ok_iff.mp ⟨o, ho⟩).ne_nil
  have hcut : cutAt '#' (cstr (l ++ ['\n'])) = cstr (l ++ ['\n']) := by
    refine cutAt_eq_self fun hmem => ?_
    have hmem' := mem_of_mem_cutAt hmem
    simp [hmark] at hmem'
  have hconcat : copyOf l ++ [(cstr (l ++ ['\n'])).getLast hnil] = cstr (l ++ ['\n']) :=
    List.dropLast_append_getLast hnil
  cases hcmd : patternCmd (cutAt '#' (cstr (l ++ ['\n']))) with
  | none =>
      cases ho.symm.trans (firstPass_skip hnil hcmd)
      rw [hcut, ← hconcat] at hcmd
      have hcopy := patternCmd_concat_none hcmd
      refine ⟨by rw [levelGiven, hcopy]; rfl, iff_of_false ?_ ?_⟩
      · rintro ⟨_, h, -⟩
        cases h
      · rintro ⟨_, _, _, h, -⟩
        cases hcopy.symm.trans h
  | some x =>
      obtain ⟨pattern, cmd, r⟩ := x
      by_cases hhosts : isDeny cmd ∧ skip hostDelim (afterFrom r) ≠ []
      · rw [firstPass_deny hcmd hhosts] at ho
        cases hl : spliceHosts aToIPAddr (cstr (l ++ ['\n'])).dropLast
            (cutAt '#' (cstr (l ++ ['\n']))) (afterFrom r) with
        | error f =>
            rw [hl] at ho
            cases ho
        | ok line =>
            rw [hl] at ho
            cases ho
            obtain ⟨r₁, hr₁, -⟩ := patternCmd_of_splice hcmd hhosts.2 hl
            rw [hcut, ← hconcat] at hcmd
            obtain ⟨r₂, -, hr₂⟩ | ⟨rfl, -⟩ | ⟨rfl, -⟩ := patternCmd_concat hcmd
            · refine ⟨?_, iff_of_false ?_ (not_levelOpen_of_isDeny hr₂ hhosts.1)⟩
              · rw [levelGiven_of_isDeny hr₂ hhosts.1]
                exact levelGiven_of_isDeny hr₁ hhosts.1
              · rintro ⟨_, h, hopen⟩
                cases h
                exact not_levelOpen_of_isDeny hr₁ hhosts.1 hopen
            · exact absurd rfl hhosts.2
            · exact absurd rfl hhosts.2
      · cases ho.symm.trans (firstPass_copy hcmd hhosts)
        refine ⟨rfl, ?_, fun h => ⟨_, rfl, h⟩⟩
        rintro ⟨_, h, hopen⟩
        cases h
        exact hopen

/-- A line of the file, read. -/
theorem readLine_adds {l : Name} (hmark : '#' ∉ l) {st st' : Reader}
    (h : readLine rx aToIPAddr st (l ++ ['\n']) = .ok st') :
    Adds (lineContribution rx aToIPAddr st.lev l) st.gate st'.gate ∧
      st'.lev = levelAfter st.lev l := by
  rw [readLine, bind_eq_ok_iff] at h
  obtain ⟨o, ho, h⟩ := h
  rw [lineContribution, ho, levelAfter, ← (firstPass_level rx hmark ho).1]
  cases o with
  | none =>
      cases h
      exact ⟨.nothing st.gate, rfl⟩
  | some line =>
      cases h
      exact secondPass_adds rx st line

/-- Levels make the difference for open lines alone. -/
theorem lineContribution_eq_iff {l : Name} (hmark : '#' ∉ l)
    (hshort : Short aToIPAddr (l ++ ['\n'])) (lev lev' : ℤ) :
    lineContribution rx aToIPAddr lev l = lineContribution rx aToIPAddr lev' l ↔
      (LevelOpen rx (copyOf l) → lev = lev') := by
  obtain ⟨o, ho⟩ := firstPass_ok_iff.mpr hshort
  rw [lineContribution, lineContribution, ho, ← (firstPass_level rx hmark ho).2]
  cases o with
  | none => simp
  | some line =>
      simp only [contributionOf_eq_iff, Option.mem_some_iff, exists_eq_left']

/-- An open line enters its rule with the level it finds. -/
theorem lineContribution_open {l : Name} (hmark : '#' ∉ l) (hshort : Short aToIPAddr (l ++ ['\n']))
    (hopen : LevelOpen rx (copyOf l)) (lev : ℤ) :
    ∃ e, (lineContribution rx aToIPAddr lev l).allow = [e] ∧ e.level = lev := by
  obtain ⟨o, ho⟩ := firstPass_ok_iff.mpr hshort
  obtain ⟨line, rfl, pattern, cmd, r, hcmd, hcomp, hallow, rname, asg, hargs⟩ :=
    (firstPass_level rx hmark ho).2.mpr hopen
  refine ⟨⟨pattern, rname, some asg, lev⟩, ?_, rfl⟩
  rw [lineContribution, ho]
  show (contributionOf rx lev line).allow = _
  rw [contributionOf, hcmd]
  dsimp only
  rw [if_pos hcomp, cmdContribution, if_neg (Bool.eq_false_iff.mp (isDeny_of_isAllow hallow)),
    if_pos hallow, hargs]
  rfl

/-! ## The file -/

/-- A line without a comment that `fgets` reads in one piece. -/
structure PlainLine (l : Name) : Prop where
  newline : '\n' ∉ l
  mark : '#' ∉ l
  length : l.length < 1023

/-- After the lines `pre`, the line contributes `c`. -/
def Contributes (rx : Regex) (aToIPAddr : Resolver) (lev : ℤ) (pre : List Name) (line : Name)
    (c : Contribution) : Prop :=
  ∃ g g', readPvList rx aToIPAddr lev (textFile pre) = .ok g ∧
    readPvList rx aToIPAddr lev (textFile (pre ++ [line])) = .ok g' ∧ Adds c g g'

/-- The level that the lines have left. -/
def levelBefore (lev : ℤ) (pre : List Name) : ℤ := pre.foldl levelAfter lev

/-- The line contributes after `pre` what it contributes alone, and a rule without a level gets
level 1; `lev` and `lev'` are what the variable holds at the beginning. -/
structure OwnRule (rx : Regex) (aToIPAddr : Resolver) (lev lev' : ℤ) (pre : List Name)
    (line : Name) : Prop where
  alone : ∀ c, Contributes rx aToIPAddr lev pre line c ↔ Contributes rx aToIPAddr lev' [] line c
  default : LevelOpen rx (copyOf line) →
    ∀ c, Contributes rx aToIPAddr lev pre line c → ∀ e ∈ c.allow, e.level = 1

theorem PlainLine.fits {l : Name} (h : PlainLine l) :
    '\n' ∉ l ∧ l.length + 1 < gateMaxPvlistLineLength :=
  ⟨h.newline, Nat.succ_lt_succ h.length⟩

/-- The level in the variable after some lines. -/
theorem foldlM_lev {pre : List Name} (hpre : ∀ l ∈ pre, PlainLine l) {st st' : Reader}
    (h : (pre.map (· ++ ['\n'])).foldlM (readLine rx aToIPAddr) st = .ok st') :
    st'.lev = levelBefore st.lev pre := by
  induction pre generalizing st with
  | nil =>
      cases h
      rfl
  | cons l pre ih =>
      rw [List.map_cons, List.foldlM_cons, bind_eq_ok_iff] at h
      obtain ⟨st₁, hst₁, h⟩ := h
      rw [ih (fun l' hl' => hpre l' (List.mem_cons_of_mem l hl')) h, levelBefore, levelBefore,
        List.foldl_cons, (readLine_adds (hpre l (List.mem_cons_self ..)).mark hst₁).2]

/-- The contribution of a line of the file. -/
theorem contributes_iff {pre : List Name} {line : Name} (hpre : ∀ l ∈ pre, PlainLine l)
    (hline : PlainLine line) {lev : ℤ} {c : Contribution} :
    Contributes rx aToIPAddr lev pre line c ↔
      (∀ l ∈ pre, Short aToIPAddr (l ++ ['\n'])) ∧ Short aToIPAddr (line ++ ['\n']) ∧
        c = lineContribution rx aToIPAddr (levelBefore lev pre) line := by
  have hfits : ∀ l ∈ pre ++ [line], '\n' ∉ l ∧ l.length + 1 < gateMaxPvlistLineLength := by
    intro l hl
    rcases List.mem_append.mp hl with hl | hl
    · exact (hpre l hl).fits
    · rw [List.mem_singleton.mp hl]
      exact hline.fits
  have hread : ∀ {g g' : GateAs}, readPvList rx aToIPAddr lev (textFile pre) = .ok g →
      readPvList rx aToIPAddr lev (textFile (pre ++ [line])) = .ok g' →
      Adds (lineContribution rx aToIPAddr (levelBefore lev pre) line) g g' := by
    intro g g' hg hg'
    rw [readPvList, fgetsLines_textFile fun l hl => (hpre l hl).fits, bind_eq_ok_iff] at hg
    rw [readPvList, fgetsLines_textFile hfits, List.map_append, List.foldlM_append, bind_assoc,
      bind_eq_ok_iff] at hg'
    obtain ⟨st, hst, hg⟩ := hg
    obtain ⟨st₁, hst₁, hg'⟩ := hg'
    cases hst.symm.trans hst₁
    cases hg
    rw [List.map_singleton, List.foldlM_cons, bind_assoc, bind_eq_ok_iff] at hg'
    obtain ⟨st', hst', hg'⟩ := hg'
    cases hg'
    have hlev : st.lev = levelBefore lev pre := foldlM_lev hpre hst
    rw [← hlev]
    exact (readLine_adds hline.mark hst').1
  have hok : ∀ {ls : List Name}, (∀ l ∈ ls, '\n' ∉ l ∧ l.length + 1 < gateMaxPvlistLineLength) →
      ((∃ g, readPvList rx aToIPAddr lev (textFile ls) = .ok g) ↔
        ∀ l ∈ ls, Short aToIPAddr (l ++ ['\n'])) := by
    intro ls hls
    rw [readPvList_textFile_ok_iff hls]
    exact forall₂_congr fun l _ => firstPass_ok_iff
  constructor
  · rintro ⟨g, g', hg, hg', hadds⟩
    refine ⟨(hok fun l hl => (hpre l hl).fits).mp ⟨g, hg⟩, ?_, hadds.unique (hread hg hg')⟩
    exact (hok hfits).mp ⟨g', hg'⟩ line (List.mem_append_right _ (List.mem_singleton_self line))
  · rintro ⟨hshort, hshort', rfl⟩
    obtain ⟨g, hg⟩ := (hok fun l hl => (hpre l hl).fits).mpr hshort
    obtain ⟨g', hg'⟩ := (hok hfits).mpr fun l hl => by
      rcases List.mem_append.mp hl with hl | hl
      · exact hshort l hl
      · rwa [List.mem_singleton.mp hl]
    exact ⟨g, g', hg, hg', hread hg hg'⟩

/-- **When a line's rule is its own.** -/
theorem ownRule_line_iff {pre : List Name} {line : Name} (hpre : ∀ l ∈ pre, PlainLine l)
    (hline : PlainLine line) (lev lev' : ℤ) :
    OwnRule rx aToIPAddr lev lev' pre line ↔
      (Short aToIPAddr (line ++ ['\n']) → (∀ l ∈ pre, Short aToIPAddr (l ++ ['\n'])) ∧
        (LevelOpen rx (copyOf line) → levelBefore lev pre = 1 ∧ lev' = 1)) := by
  have hcontributes : ∀ c, Contributes rx aToIPAddr lev pre line c ↔ _ := fun c =>
    contributes_iff hpre hline
  have halone : ∀ c, Contributes rx aToIPAddr lev' [] line c ↔
      Short aToIPAddr (line ++ ['\n']) ∧ c = lineContribution rx aToIPAddr lev' line := by
    intro c
    rw [contributes_iff (fun l hl => absurd hl List.not_mem_nil) hline,
      and_iff_right fun l hl => absurd hl List.not_mem_nil]
    rfl
  constructor
  · intro h hshort
    have hown := (hcontributes _).mp ((h.alone _).mpr ((halone _).mpr ⟨hshort, rfl⟩))
    refine ⟨hown.1, fun hopen => ?_⟩
    obtain ⟨e, he, hlev⟩ := lineContribution_open hline.mark hshort hopen (levelBefore lev pre)
    have hone : levelBefore lev pre = 1 := by
      rw [← hlev]
      refine h.default hopen _ ((hcontributes _).mpr ⟨hown.1, hshort, rfl⟩) e ?_
      rw [he]
      exact List.mem_singleton_self e
    refine ⟨hone, ?_⟩
    rw [← (lineContribution_eq_iff hline.mark hshort lev' _).mp hown.2.2 hopen] at hone
    exact hone
  · intro h
    refine ⟨fun c => ?_, fun hopen c hc e he => ?_⟩
    · rw [hcontributes, halone]
      constructor
      · rintro ⟨-, hshort, rfl⟩
        refine ⟨hshort, (lineContribution_eq_iff hline.mark hshort _ _).mpr fun hopen => ?_⟩
        rw [((h hshort).2 hopen).1, ((h hshort).2 hopen).2]
      · rintro ⟨hshort, rfl⟩
        refine ⟨(h hshort).1, hshort, ?_⟩
        refine (lineContribution_eq_iff hline.mark hshort _ _).mpr fun hopen => ?_
        rw [((h hshort).2 hopen).1, ((h hshort).2 hopen).2]
    · obtain ⟨-, hshort, rfl⟩ := (hcontributes c).mp hc
      obtain ⟨e', he', hlev⟩ := lineContribution_open hline.mark hshort hopen (levelBefore lev pre)
      rw [he', List.mem_singleton] at he
      rw [he, hlev]
      exact ((h hshort).2 hopen).1

/-- **When the rules of a file are their own.**  The lines before stay inside their buffers, and
whenever a line gives a group and no level, the level that they have left happens to be 1, and so
does the one that the line finds alone. -/
theorem ownRule_iff (rx : Regex) (aToIPAddr : Resolver) (lev lev' : ℤ) (ls : List Name)
    (hls : ∀ l ∈ ls, PlainLine l) :
    (∀ pre line post, ls = pre ++ line :: post → OwnRule rx aToIPAddr lev lev' pre line) ↔
      ∀ pre line post, ls = pre ++ line :: post → Short aToIPAddr (line ++ ['\n']) →
        (∀ l ∈ pre, Short aToIPAddr (l ++ ['\n'])) ∧
          (LevelOpen rx (copyOf line) → levelBefore lev pre = 1 ∧ lev' = 1) := by
  refine forall₃_congr fun pre line post => forall_congr' fun heq => ?_
  refine ownRule_line_iff (fun l hl => hls l ?_) (hls line ?_) lev lev'
  · rw [heq]
    exact List.mem_append_left _ hl
  · rw [heq]
    exact List.mem_append_right _ (List.mem_cons_self ..)

/-- A level that is given, and a rule without a group. -/
theorem ownRule_twoLines :
    let nowhere : Resolver := fun _ _ => none
    let ls := ["x ALLOW g 5".toList, "y ALLOW".toList]
    (∀ pre line post, ls = pre ++ line :: post → OwnRule literal nowhere 0 0 pre line) ↔
      ∀ pre line post, ls = pre ++ line :: post → Short nowhere (line ++ ['\n']) →
        (∀ l ∈ pre, Short nowhere (l ++ ['\n'])) ∧
          (LevelOpen literal (copyOf line) → levelBefore 0 pre = 1 ∧ (0 : ℤ) = 1) := by
  intro nowhere ls
  refine ownRule_iff literal nowhere 0 0 ls fun l hl => ?_
  rcases List.mem_pair.mp hl with rfl | rfl
  · exact ⟨by decide, by decide, by decide⟩
  · exact ⟨by decide, by decide, by decide⟩

/-- **A level that leaks**: after `x ALLOW g 5` the rule of `y ALLOW g` has level 5. -/
theorem level_leaks : ¬ ∀ (rx : Regex) (aToIPAddr : Resolver) (lev lev' : ℤ) (ls : List Name),
    (∀ l ∈ ls, PlainLine l) →
      ∀ pre line post, ls = pre ++ line :: post → OwnRule rx aToIPAddr lev lev' pre line := by
  intro hall
  let nowhere : Resolver := fun _ _ => none
  let five : GateAsEntry := ⟨['x'], none, some ['g'], 5⟩
  let leaked : GateAsEntry := ⟨['y'], none, some ['g'], 5⟩
  have hplain : ∀ l ∈ ["x ALLOW g 5".toList, "y ALLOW g".toList], PlainLine l := by
    intro l hl
    rcases List.mem_pair.mp hl with rfl | rfl
    · exact ⟨by decide, by decide, by decide⟩
    · exact ⟨by decide, by decide, by decide⟩
  have hown := hall literal nowhere 1 1 _ hplain ["x ALLOW g 5".toList] "y ALLOW g".toList [] rfl
  have hopen : LevelOpen literal (copyOf "y ALLOW g".toList) :=
    ⟨['y'], "ALLOW".toList, ['g'], rfl, rfl, rfl, none, ['g'], rfl⟩
  have hread : readPvList literal nowhere 1 (textFile ["x ALLOW g 5".toList]) =
      .ok { GateAs.empty with allowList := [five] } := rfl
  have hread' : readPvList literal nowhere 1 (textFile ["x ALLOW g 5".toList, "y ALLOW g".toList]) =
      .ok { GateAs.empty with allowList := [leaked, five] } := rfl
  have hlevel := hown.default hopen { Contribution.nothing with allow := [leaked] }
    ⟨_, _, hread, hread', rfl, rfl, fun _ => rfl⟩ leaked (List.mem_singleton_self leaked)
  exact absurd hlevel (by decide)

end GateAs

end CaNameserver
