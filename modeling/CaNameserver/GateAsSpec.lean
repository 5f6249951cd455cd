import CaNameserver.GateAs
import CaNameserver.Lib.AccessRules

/-!
# What a pvlist file says

A pvlist file is read as a sequence of rules (`AccessRules`): to deny a pattern to everyone or to
one host, to allow it, or to set the order of evaluation.  Each line gives the rules that its
second pass enters (`lineRules`), and the lists and the table of a `gateAs` hold the rules of all
lines.

## Holding rules

`GateAs.Holds g rules` says that the lists have the patterns of the rules, each kind on its own
list and the last one first, that the table has for each host the list of its rules, and that the
order is the one set last.  Every command that is read adds its rules (`Holds.secondPass`), and so
does every line (`Holds.readLine`); hosts are entered one after the other (`Holds.initHosts`), and
a pattern that does not compile enters nothing.

## Deciding

`findEntry` goes over the lists in an order that depends on the order of evaluation, and returns
the entry that decides.  It finds one exactly if the rules allow the name
(`Holds.findEntry_isSome_iff`).  From here on the access rules are a matter of `AccessRules`.

* `readPvList_holds`: a file is read as the rules of its lines.
* `readPvList_ok_iff`: it is read to its end if each of its lines passes the first pass.

The groups and levels of the entries, which only a report shows, are not part of a rule.
-/

namespace CaNameserver

open CStr Fallible AccessRules

/-- A rule of a pvlist file. -/
abbrev AccessRule := Rule Name Name

namespace GateAs

variable {rx : Regex} {aToIPAddr : Resolver}

/-! ## The rules of a line -/

/-- The order an `ORDER` command sets. -/
def orderArg (r : Name) : Option Bool :=
  match tokens hostDelim r with
  | hname :: rname :: _ =>
      if strcasecmp hname ['A', 'L', 'L', 'O', 'W'] ∧ strcasecmp rname ['D', 'E', 'N', 'Y'] then
        some true
      else if strcasecmp hname ['D', 'E', 'N', 'Y'] ∧
          strcasecmp rname ['A', 'L', 'L', 'O', 'W'] then
        some false
      else none
  | _ => none

/-- A command other than `DENY` and `ORDER` enters a rule: an `ALIAS` only with a real name. -/
def entersAllow (cmd r : Name) : Bool :=
  if isAlias cmd then !(tokens blanks r).isEmpty else isAllow cmd

/-- The rules a `DENY` command enters. -/
def denyRules (pattern : Name) : List Name → List AccessRule
  | [] => [.deny pattern]
  | hosts => hosts.map (.denyFrom · pattern)

/-- The rules of a command. -/
def cmdRules (rx : Regex) (pattern cmd r : Name) : List AccessRule :=
  if isDeny cmd then
    if rx.compiles pattern then denyRules pattern (tokens hostDelim (afterFrom r)) else []
  else if isOrder cmd then (orderArg r).toList.map .order
  else if rx.compiles pattern ∧ entersAllow cmd r then [.allow pattern]
  else []

theorem cmdRules_deny {pattern cmd r : Name} (h : isDeny cmd = true) : cmdRules rx pattern cmd r =
    if rx.compiles pattern then denyRules pattern (tokens hostDelim (afterFrom r)) else [] :=
  if_pos h

theorem cmdRules_order {pattern cmd r : Name} (h : isOrder cmd = true) :
    cmdRules rx pattern cmd r = (orderArg r).toList.map .order := by
  have hdeny : isDeny cmd = false := strcasecmp_of_ne h (by decide)
  rw [cmdRules, if_neg (by simp [hdeny]), if_pos h]

theorem cmdRules_other {pattern cmd r : Name} (hdeny : isDeny cmd = false)
    (horder : isOrder cmd = false) : cmdRules rx pattern cmd r =
      if rx.compiles pattern ∧ entersAllow cmd r then [.allow pattern] else [] := by
  rw [cmdRules, if_neg (show ¬ isDeny cmd = true by simp [hdeny]),
    if_neg (show ¬ isOrder cmd = true by simp [horder])]

/-- The rules the second pass over a line enters. -/
def secondPassRules (rx : Regex) (line : Name) : List AccessRule :=
  match patternCmd line with
  | none => []
  | some (pattern, cmd, r) => cmdRules rx pattern cmd r

/-- The rules of a line of the file. -/
def lineRules (rx : Regex) (aToIPAddr : Resolver) (line : Name) : List AccessRule :=
  match firstPass aToIPAddr line with
  | .ok (some l) => secondPassRules rx l
  | _ => []

/-! ## The rules that are in force -/

/-- `GATE_ALLOW_FIRST` lets the denying rules win. -/
def EvalOrder.ofDenyWins (b : Bool) : EvalOrder := if b then .allowFirst else .denyFirst

/-- The lists and the table hold the rules of a sequence, and no others. -/
structure Holds (g : GateAs) (rules : List AccessRule) : Prop where
  evalOrder : g.evalOrder = EvalOrder.ofDenyWins (denyWins rules)
  denyList : g.denyList.map (·.pattern) = (rules.filterMap Rule.deny?).reverse
  allowList : g.allowList.map (·.pattern) = (rules.filterMap Rule.allow?).reverse
  denyFrom : ∀ h, ((g.denyFromTable h).getD []).map (·.pattern) =
    (rules.filterMap (Rule.denyFrom? h)).reverse
  used : g.denyFromListUsed = rules.any Rule.isDenyFrom

variable {g : GateAs} {rules : List AccessRule}

theorem Holds.empty : Holds GateAs.empty [] where
  evalOrder := rfl
  denyList := rfl
  allowList := rfl
  denyFrom _ := rfl
  used := rfl

theorem denyWins_append_of_order_free {rules' : List AccessRule}
    (h : ∀ r ∈ rules', r.order? = none) : denyWins (rules ++ rules') = denyWins rules := by
  rw [denyWins, denyWins, List.filterMap_append, List.filterMap_eq_nil_iff.mpr h, List.append_nil]

theorem denyWins_append_order (o : Bool) : denyWins (rules ++ [.order o]) = o := by
  simp [denyWins, Rule.order?]

/-- An `ORDER` command with valid arguments. -/
theorem Holds.setOrder (h : Holds g rules) (o : Bool) :
    Holds { g with evalOrder := EvalOrder.ofDenyWins o } (rules ++ [.order o]) where
  evalOrder := by rw [denyWins_append_order]
  denyList := by simpa [List.filterMap_cons, Rule.deny?] using h.denyList
  allowList := by simpa [List.filterMap_cons, Rule.allow?] using h.allowList
  denyFrom x := by simpa [List.filterMap_cons, Rule.denyFrom?] using h.denyFrom x
  used := by simpa [Rule.isDenyFrom] using h.used

theorem Holds.addDeny (h : Holds g rules) (e : GateAsEntry) :
    Holds { g with denyList := e :: g.denyList } (rules ++ [.deny e.pattern]) where
  evalOrder := by
    rw [denyWins_append_of_order_free (by simp [Rule.order?])]
    exact h.evalOrder
  denyList := by simp [Rule.deny?, h.denyList]
  allowList := by simpa [List.filterMap_cons, Rule.allow?] using h.allowList
  denyFrom x := by simpa [List.filterMap_cons, Rule.denyFrom?] using h.denyFrom x
  used := by simpa [Rule.isDenyFrom] using h.used

theorem Holds.addAllow (h : Holds g rules) (e : GateAsEntry) :
    Holds { g with allowList := e :: g.allowList } (rules ++ [.allow e.pattern]) where
  evalOrder := by
    rw [denyWins_append_of_order_free (by simp [Rule.order?])]
    exact h.evalOrder
  denyList := by simpa [List.filterMap_cons, Rule.deny?] using h.denyList
  allowList := by simp [Rule.allow?, h.allowList]
  denyFrom x := by simpa [List.filterMap_cons, Rule.denyFrom?] using h.denyFrom x
  used := by simpa [Rule.isDenyFrom] using h.used

/-- A rule for one host: the host's list is created with the first. -/
theorem Holds.initHost (h : Holds g rules) {pattern : Name} (hp : rx.compiles pattern = true)
    (hname : Name) : Holds (g.initHost rx pattern hname) (rules ++ [.denyFrom hname pattern]) := by
  rw [GateAs.initHost, if_pos hp]
  refine ⟨?_, ?_, ?_, fun x => ?_, ?_⟩
  · rw [denyWins_append_of_order_free (by simp [Rule.order?])]
    exact h.evalOrder
  · simpa [List.filterMap_cons, Rule.deny?] using h.denyList
  · simpa [List.filterMap_cons, Rule.allow?] using h.allowList
  · by_cases hx : x = hname
    · subst hx
      simp [Rule.denyFrom?, h.denyFrom, GateAsEntry.ofPattern]
    · simp [Rule.denyFrom?, h.denyFrom, Function.update_of_ne hx, Ne.symm hx]
  · simp [Rule.isDenyFrom]

theorem Holds.initHosts {pattern : Name} (hp : rx.compiles pattern = true) :
    ∀ {hosts : List Name} {g : GateAs} {rules : List AccessRule}, Holds g rules →
      Holds (hosts.foldl (GateAs.initHost rx pattern) g)
        (rules ++ hosts.map (.denyFrom · pattern))
  | [], _, _, h => by simpa using h
  | hname :: hosts, _, _, h => by
      have hrest : Holds (hosts.foldl (GateAs.initHost rx pattern) _) _ :=
        Holds.initHosts hp (h.initHost hp hname)
      simpa using hrest

theorem foldl_initHost_of_not_compiles {pattern : Name} (hp : rx.compiles pattern = false)
    (hosts : List Name) : hosts.foldl (GateAs.initHost rx pattern) g = g := by
  induction hosts with
  | nil => rfl
  | cons hname hosts ih => rwa [List.foldl_cons, GateAs.initHost, if_neg (by simp [hp])]

/-! ## Reading -/

theorem readOrder_eq (g : GateAs) (r : Name) :
    readOrder g r = match orderArg r with
      | none => g
      | some o => { g with evalOrder := EvalOrder.ofDenyWins o } := by
  rw [readOrder, orderArg, tokens_eq_strtok]
  cases strtok hostDelim r with
  | none => rfl
  | some x =>
      obtain ⟨hname, r⟩ := x
      dsimp only
      rw [tokens_eq_strtok]
      cases strtok hostDelim r with
      | none => rfl
      | some y =>
          dsimp only
          split_ifs with hallow hdeny
          · rfl
          · rfl
          · rfl

/-- The group and the level of a rule play no part in what it allows. -/
theorem Holds.readAllow {st : Reader} {pattern cmd : Name} (h : Holds st.gate rules)
    (rname : Option Name) (r : Name) : Holds (readAllow rx st pattern cmd rname r).gate
      (rules ++ if rx.compiles pattern ∧ isAllow cmd then [.allow pattern] else []) := by
  obtain ⟨e, lev, he, hst⟩ : ∃ (e : GateAsEntry) (lev : ℤ), e.pattern = pattern ∧
      GateAs.readAllow rx st pattern cmd rname r =
        if isAllow cmd then
          ⟨{ st.gate with allowList := init rx e st.gate.allowList }, lev⟩
        else ⟨st.gate, lev⟩ := ⟨⟨pattern, rname, _, _⟩, _, rfl, rfl⟩
  rw [hst]
  by_cases hcmd : isAllow cmd
  · rw [if_pos hcmd]
    by_cases hp : rx.compiles pattern
    · rw [if_pos ⟨hp, hcmd⟩, init, he, if_pos hp, ← he]
      exact h.addAllow e
    · rw [if_neg fun hc => hp hc.1, init, he, if_neg hp, List.append_nil]
      exact h
  · rw [if_neg hcmd, if_neg fun hc => hcmd hc.2, List.append_nil]
    exact h

theorem isAllow_of_isAlias {cmd : Name} (h : isAlias cmd = true) : isAllow cmd = true := by
  simp [isAllow, h]

/-- **The second pass** enters the rules of a line. -/
theorem Holds.secondPass {st : Reader} (h : Holds st.gate rules) (line : Name) :
    Holds (GateAs.secondPass rx st line).gate (rules ++ secondPassRules rx line) := by
  rw [GateAs.secondPass, secondPassRules]
  cases patternCmd line with
  | none =>
      rw [List.append_nil]
      exact h
  | some x =>
      obtain ⟨pattern, cmd, r⟩ := x
      dsimp only
      rw [cmdRules]
      by_cases hdeny : isDeny cmd
      · rw [if_pos hdeny, if_pos hdeny]
        cases tokens hostDelim (afterFrom r) with
        | nil =>
            by_cases hp : rx.compiles pattern
            · rw [if_pos hp]
              dsimp only
              rw [init, if_pos (show rx.compiles (GateAsEntry.ofPattern pattern).pattern = _ from hp)]
              exact h.addDeny (GateAsEntry.ofPattern pattern)
            · rw [if_neg hp, List.append_nil]
              dsimp only
              rw [init, if_neg (show ¬ rx.compiles (GateAsEntry.ofPattern pattern).pattern from hp)]
              exact h
        | cons hname hosts =>
            by_cases hp : rx.compiles pattern
            · rw [if_pos hp]
              exact h.initHosts hp
            · rw [if_neg hp, List.append_nil]
              dsimp only
              rw [foldl_initHost_of_not_compiles (by simpa using hp)]
              exact h
      · rw [if_neg hdeny, if_neg hdeny]
        by_cases horder : isOrder cmd
        · rw [if_pos horder, if_pos horder]
          dsimp only
          rw [readOrder_eq]
          cases orderArg r with
          | none => simpa using h
          | some o => exact h.setOrder o
        · rw [if_neg horder, if_neg horder, entersAllow]
          by_cases halias : isAlias cmd
          · rw [if_pos halias, if_pos halias]
            cases hr : strtok blanks r with
            | none =>
                rw [strtok_eq_none_iff.mp hr]
                simpa using h
            | some y =>
                have hread : Holds (GateAs.readAllow rx st pattern cmd (some y.1) y.2).gate _ :=
                  h.readAllow (some y.1) y.2
                rw [tokens_of_strtok hr]
                simpa [isAllow_of_isAlias halias] using hread
          · rw [if_neg halias, if_neg halias]
            exact h.readAllow none r

theorem Holds.readLine {st st' : Reader} {line : Name} (h : Holds st.gate rules)
    (hst : GateAs.readLine rx aToIPAddr st line = .ok st') :
    Holds st'.gate (rules ++ lineRules rx aToIPAddr line) := by
  rw [GateAs.readLine, bind_eq_ok_iff] at hst
  obtain ⟨o, ho, hst⟩ := hst
  rw [lineRules, ho]
  cases o with
  | none =>
      cases hst
      rwa [List.append_nil]
  | some l =>
      cases hst
      exact h.secondPass l

/-- **A file is read as the rules of its lines.** -/
theorem readPvList_holds {lev : ℤ} {lfile : List Char}
    (h : readPvList rx aToIPAddr lev lfile = .ok g) :
    Holds g ((fgetsLines gateMaxPvlistLineLength lfile).flatMap (lineRules rx aToIPAddr)) := by
  rw [readPvList, bind_eq_ok_iff] at h
  obtain ⟨st, hst, h⟩ := h
  cases h
  refine foldlM_prefix_induct
    (P := fun pre st => Holds st.gate (pre.flatMap (lineRules rx aToIPAddr))) hst Holds.empty ?_
  intro pre line post st st' _ hpre hline
  rw [List.flatMap_append, List.flatMap_singleton]
  exact hpre.readLine hline

/-- A file is read to its end exactly if each of its lines passes the first pass. -/
theorem readPvList_ok_iff {lev : ℤ} {lfile : List Char} :
    (∃ g, readPvList rx aToIPAddr lev lfile = .ok g) ↔
      ∀ line ∈ fgetsLines gateMaxPvlistLineLength lfile, ∃ o, firstPass aToIPAddr line = .ok o := by
  rw [readPvList]
  generalize fgetsLines gateMaxPvlistLineLength lfile = lines
  generalize (⟨GateAs.empty, lev⟩ : Reader) = st
  induction lines generalizing st with
  | nil => simp [pure_eq_ok_iff]
  | cons line lines ih =>
      have hline : (∃ st', readLine rx aToIPAddr st line = .ok st') ↔
          ∃ o, firstPass aToIPAddr line = .ok o := by
        rw [readLine]
        cases firstPass aToIPAddr line with
        | error f => simp [bind_eq_ok_iff]
        | ok o => cases o <;> simp [bind_eq_ok_iff, pure_eq_ok_iff]
      rw [List.forall_mem_cons, ← hline, List.foldlM_cons]
      constructor
      · rintro ⟨g, hg⟩
        rw [bind_assoc, bind_eq_ok_iff] at hg
        obtain ⟨st', hst', hg⟩ := hg
        exact ⟨⟨st', hst'⟩, (ih st').mp ⟨g, hg⟩⟩
      · rintro ⟨⟨st', hst'⟩, hrest⟩
        obtain ⟨g, hg⟩ := (ih st').mpr hrest
        refine ⟨g, ?_⟩
        rw [bind_assoc, bind_eq_ok_iff]
        exact ⟨st', hst', hg⟩

/-- A file of newline-terminated lines. -/
def textFile (ls : List Name) : List Char := ls.flatMap (· ++ ['\n'])

theorem fgetsLines_textFile {ls : List Name}
    (h : ∀ l ∈ ls, '\n' ∉ l ∧ l.length + 1 < gateMaxPvlistLineLength) :
    fgetsLines gateMaxPvlistLineLength (textFile ls) = ls.map (· ++ ['\n']) :=
  fgetsLines_lines h

theorem readPvList_textFile_holds {lev : ℤ} {ls : List Name}
    (hls : ∀ l ∈ ls, '\n' ∉ l ∧ l.length + 1 < gateMaxPvlistLineLength)
    (h : readPvList rx aToIPAddr lev (textFile ls) = .ok g) :
    Holds g (ls.flatMap fun l => lineRules rx aToIPAddr (l ++ ['\n'])) := by
  have hg := readPvList_holds h
  rwa [fgetsLines_textFile hls, List.flatMap_map] at hg

theorem readPvList_textFile_ok_iff {lev : ℤ} {ls : List Name}
    (hls : ∀ l ∈ ls, '\n' ∉ l ∧ l.length + 1 < gateMaxPvlistLineLength) :
    (∃ g, readPvList rx aToIPAddr lev (textFile ls) = .ok g) ↔
      ∀ l ∈ ls, ∃ o, firstPass aToIPAddr (l ++ ['\n']) = .ok o := by
  rw [readPvList_ok_iff, fgetsLines_textFile hls]
  simp

/-! ## Deciding -/

/-- The library reports a match of a pattern with the whole of a name. -/
def Matches (rx : Regex) (pv pattern : Name) : Prop := rx.matchEnd pattern pv = some pv.length

theorem isSome_findEntryInList_iff {pv : Name} {list : List GateAsEntry} :
    (findEntryInList rx pv list).isSome = true ↔
      ∃ p ∈ list.map (·.pattern), Matches rx pv p := by
  simp [findEntryInList, fullMatch, Matches]

variable {pv : Name}

theorem Holds.isSome_denyList (h : Holds g rules) :
    (findEntryInList rx pv g.denyList).isSome = true ↔ ∃ p, Rule.deny p ∈ rules ∧ Matches rx pv p := by
  rw [isSome_findEntryInList_iff, h.denyList]
  simp

theorem Holds.isSome_allowList (h : Holds g rules) :
    (findEntryInList rx pv g.allowList).isSome = true ↔
      ∃ p, Rule.allow p ∈ rules ∧ Matches rx pv p := by
  rw [isSome_findEntryInList_iff, h.allowList]
  simp

theorem Holds.isSome_denyFrom (h : Holds g rules) (host : Option Name) :
    ((host.bind g.denyFromTable).bind (findEntryInList rx pv)).isSome = true ↔
      ∃ x p, host = some x ∧ Rule.denyFrom x p ∈ rules ∧ Matches rx pv p := by
  cases host with
  | none => simp
  | some x =>
      have hx : ((g.denyFromTable x).bind (findEntryInList rx pv)).isSome = true ↔
          ∃ p ∈ ((g.denyFromTable x).getD []).map (·.pattern), Matches rx pv p := by
        cases g.denyFromTable x with
        | none => simp
        | some list => exact isSome_findEntryInList_iff
      rw [Option.bind_some, hx, h.denyFrom]
      simp

/-- **`findEntry` decides as the rules say.** -/
theorem Holds.findEntry_isSome_iff (h : Holds g rules) (host : Option Name) :
    (g.findEntry rx pv host).isSome = true ↔ Allows rules (Matches rx pv) host := by
  have hfrom : ((host.bind g.denyFromTable).bind (findEntryInList rx pv)).isSome = true ↔ _ :=
    h.isSome_denyFrom host
  have hdeny : (findEntryInList rx pv g.denyList).isSome = true ↔ _ := h.isSome_denyList
  have hallow : (findEntryInList rx pv g.allowList).isSome = true ↔ _ := h.isSome_allowList
  have horder : g.evalOrder = .allowFirst ↔ denyWins rules = true := by
    rw [h.evalOrder, EvalOrder.ofDenyWins]
    split_ifs with hw <;> simp [hw]
  rw [GateAs.findEntry]
  split_ifs with hf hd
  · rw [hfrom] at hf
    obtain ⟨x, p, hx, hp, hm⟩ := hf
    exact ⟨fun hc => (by cases hc), fun hc => absurd hm (hc.notFrom x p hx hp)⟩
  · rw [horder, hdeny] at hd
    obtain ⟨hw, p, hp, hm⟩ := hd
    exact ⟨fun hc => (by cases hc), fun hc => absurd hm (hc.notDenied hw p hp)⟩
  · rw [hfrom] at hf
    rw [horder, hdeny] at hd
    rw [hallow]
    constructor
    · intro ha
      exact ⟨fun x p hx hp hm => hf ⟨x, p, hx, hp, hm⟩, fun hw p hp hm => hd ⟨hw, p, hp, hm⟩, ha⟩
    · exact fun hc => hc.allowed

end GateAs

end CaNameserver
