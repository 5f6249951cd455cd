import CaNameserver.GateAsSpec

/-!
# The two passes over a line

`readPvList` looks at a line twice.  The first pass cuts the comment off, takes the line apart to
see whether it is a `DENY` with hosts, and if so writes it anew with the addresses of the hosts.
The second pass takes apart what the first one has prepared: the copy of the line for most
commands, and the line with the addresses for a `DENY` with hosts.  Nothing of the first analysis
is handed on but this text.

## The head of a line

Pattern and command are the first two words.  Whatever comes after a blank does not change them,
and whatever comes without a blank belongs to the command (`patternCmd_cases`).  So the second
pass finds the command of the first one, unless a comment has run into it or the line ends with it
(`patternCmd_copy`).

## The hosts of a `DENY`

The addresses are put in the place of the hosts, separated by blanks.  They are words of their
own, made of digits and dots, and none of them is `FROM` (`hostAddress_word`).  So the second pass
finds exactly these (`patternCmd_of_splice`); the hosts that have not been resolved are not there.

## The rules of a line

* `lineRules_copy`: what a line gives that is copied.
* `lineRules_deny`: what a `DENY` with hosts gives.
* `firstPass_skip`, `lineRules_of_none`: a line without a command is skipped and gives nothing.
-/

namespace CaNameserver

open CStr Fallible AccessRules

/-! ## Dotted addresses -/

theorem InAddr.mem_dotted {x : InAddr} {c : Char} (h : c ∈ x.dotted) : c.isDigit ∨ c = '.' := by
  have hdec : ∀ {n : ℕ}, c ∈ decimal n → c.isDigit := fun hc =>
    Nat.isDigit_of_mem_toDigits (by decide) (by decide) hc
  simp only [InAddr.dotted, List.mem_append, List.mem_cons] at h
  rcases h with ((h | rfl | h) | rfl | h) | rfl | h
  · exact Or.inl (hdec h)
  · exact Or.inr rfl
  · exact Or.inl (hdec h)
  · exact Or.inr rfl
  · exact Or.inl (hdec h)
  · exact Or.inr rfl
  · exact Or.inl (hdec h)

theorem InAddr.dot_mem_dotted (x : InAddr) : '.' ∈ x.dotted := by
  simp [InAddr.dotted]

theorem InAddr.not_mem_dotted {x : InAddr} {c : Char} (hd : c.isDigit = false) (hc : c ≠ '.') :
    c ∉ x.dotted := by
  intro h
  rcases InAddr.mem_dotted h with h | h
  · rw [hd] at h
    cases h
  · exact hc h

namespace GateAs

variable {rx : Regex} {aToIPAddr : Resolver}

/-- The key of a host that resolves. -/
def hostAddress (aToIPAddr : Resolver) (hname : Name) : Option Name :=
  (aToIPAddr hname 0).map (·.sinAddr.dotted)

theorem expandHost_eq (hname : Name) :
    expandHost aToIPAddr hname = (hostAddress aToIPAddr hname).toList.flatMap (· ++ [' ']) := by
  rw [expandHost, hostAddress]
  cases aToIPAddr hname 0 with
  | none => rfl
  | some a =>
      have hcolon : ':' ∉ a.sinAddr.dotted := InAddr.not_mem_dotted rfl (by decide)
      have hcut : cutAt ':' (ipAddrToDottedIP a) = a.sinAddr.dotted := by
        rw [ipAddrToDottedIP, cutAt_append_of_not_mem hcolon]
        simp [cutAt]
      simp [hcut]

theorem flatMap_expandHost (hosts : List Name) :
    hosts.flatMap (expandHost aToIPAddr) =
      (hosts.filterMap (hostAddress aToIPAddr)).flatMap (· ++ [' ']) := by
  induction hosts with
  | nil => rfl
  | cons hname hosts ih =>
      rw [List.flatMap_cons, ih, expandHost_eq, List.filterMap_cons]
      cases hostAddress aToIPAddr hname with
      | none => rfl
      | some w => simp

/-- The keys are words of their own, and none of them is `FROM`. -/
theorem hostAddress_word {hosts : List Name} {w : Name}
    (hw : w ∈ hosts.filterMap (hostAddress aToIPAddr)) :
    (w ≠ [] ∧ ∀ x ∈ w, x ∉ hostDelim) ∧ strcasecmp w ['F', 'R', 'O', 'M'] = false := by
  obtain ⟨hname, -, hw⟩ := List.mem_filterMap.mp hw
  obtain ⟨a, -, rfl⟩ := Option.map_eq_some_iff.mp hw
  have hdot := a.sinAddr.dot_mem_dotted
  refine ⟨⟨List.ne_nil_of_mem hdot, fun x hx hdelim => ?_⟩, ?_⟩
  · rcases InAddr.mem_dotted hx with hdigit | rfl
    · simp only [hostDelim, List.mem_cons, List.not_mem_nil, or_false] at hdelim
      rcases hdelim with rfl | rfl | rfl | rfl <;> cases hdigit
    · exact absurd hdelim (by decide)
  · exact strcasecmp_of_mem hdot (by decide)

/-! ## The head of a line -/

theorem patternCmd_eq_some_iff {l pattern cmd r : Name} :
    patternCmd l = some (pattern, cmd, r) ↔
      ∃ r₁, strtok blanks l = some (pattern, r₁) ∧ strtok blanks r₁ = some (cmd, r) := by
  rw [patternCmd]
  cases strtok blanks l with
  | none => simp
  | some y =>
      obtain ⟨p, r₁⟩ := y
      simp only [Option.bind_eq_bind, Option.bind_some, Option.bind_eq_some_iff, Option.pure_def,
        Option.some.injEq, Prod.mk.injEq]
      constructor
      · rintro ⟨⟨m, r₂⟩, hs, rfl, rfl, rfl⟩
        exact ⟨r₁, ⟨rfl, rfl⟩, hs⟩
      · rintro ⟨_, ⟨rfl, rfl⟩, hs⟩
        exact ⟨(cmd, r), hs, rfl, rfl, rfl⟩

/-- **The head of a line**: a blank after it ends the command, and any other character goes on
with it. -/
theorem patternCmd_cases {l pattern cmd r : Name} (h : patternCmd l = some (pattern, cmd, r)) :
    ∃ head : Name, patternCmd head = some (pattern, cmd, []) ∧
      (∀ c ∈ blanks, ∀ x, patternCmd (head ++ c :: x) = some (pattern, cmd, x)) ∧
      (∀ c ∉ blanks, ∀ x, ∃ cmd' r', patternCmd (head ++ c :: x) = some (pattern, cmd', r') ∧
        c ∈ cmd') ∧
      ((l = head ∧ r = []) ∨ ∃ c ∈ blanks, l = head ++ c :: r) := by
  obtain ⟨r₁, hs₁, hs₂⟩ := patternCmd_eq_some_iff.mp h
  obtain ⟨pre₁, hlead₁, ⟨-, rfl⟩ | ⟨c₁, hc₁, rfl⟩⟩ := strtok_cases hs₁
  · cases hs₂
  obtain ⟨pre₂, hlead₂, hr₁⟩ := strtok_cases hs₂
  have hhead : ∀ x, strtok blanks (pre₁ ++ (pattern ++ c₁ :: (pre₂ ++ cmd)) ++ x) =
      some (pattern, pre₂ ++ (cmd ++ x)) := by
    intro x
    have hassoc : pre₁ ++ (pattern ++ c₁ :: (pre₂ ++ cmd)) ++ x =
        pre₁ ++ (pattern ++ c₁ :: (pre₂ ++ (cmd ++ x))) := by simp
    rw [hassoc, hlead₁.strtok_cons hc₁]
  refine ⟨pre₁ ++ (pattern ++ c₁ :: (pre₂ ++ cmd)), ?_, fun c hc x => ?_, fun c hc x => ?_, ?_⟩
  · have hempty := hhead []
    rw [List.append_nil, List.append_nil] at hempty
    exact patternCmd_eq_some_iff.mpr ⟨_, hempty, hlead₂.strtok_end⟩
  · exact patternCmd_eq_some_iff.mpr ⟨_, hhead _, hlead₂.strtok_cons hc x⟩
  · obtain ⟨cmd', r', hcmd', hmem⟩ := hlead₂.strtok_run_on hc x
    exact ⟨cmd', r', patternCmd_eq_some_iff.mpr ⟨_, hhead _, hcmd'⟩, hmem⟩
  · rcases hr₁ with ⟨rfl, rfl⟩ | ⟨c₂, hc₂, rfl⟩
    · exact Or.inl ⟨rfl, rfl⟩
    · exact Or.inr ⟨c₂, hc₂, by simp⟩

/-- The second pass finds the command of the first one, unless a comment has run into it or the
line ends with it. -/
theorem patternCmd_copy {line pattern cmd r pattern' cmd' r' : Name}
    (h : patternCmd (cutAt '#' line) = some (pattern, cmd, r))
    (h' : patternCmd line.dropLast = some (pattern', cmd', r')) :
    cmd' = cmd ∨ '#' ∈ cmd' ∨ r' = [] := by
  obtain ⟨head, hhead, hblank, hrun, hr⟩ := patternCmd_cases h
  have hself : ∀ {x y z : Name}, patternCmd line.dropLast = some (x, y, z) → cmd' = y := by
    intro x y z hxyz
    rw [hxyz] at h'
    cases h'
    rfl
  rcases eq_cutAt_append '#' line with hall | ⟨rest, hrest⟩
  · rcases hr with ⟨hr, -⟩ | ⟨c, hc, hr⟩
    · -- the line ends with its command, the last letter of which is lost
      obtain ⟨head', -, hblank', -, ⟨-, rfl⟩ | ⟨c, hc, hline⟩⟩ := patternCmd_cases h'
      · exact Or.inr (Or.inr rfl)
      have hne : line ≠ [] := by
        rintro rfl
        cases h'
      obtain ⟨x, hx⟩ : ∃ x, line = head' ++ c :: (r' ++ [x]) := by
        refine ⟨line.getLast hne, ?_⟩
        rw [← List.cons_append, ← List.append_assoc, ← hline, List.dropLast_append_getLast]
      have hback := hblank' c hc (r' ++ [x])
      rw [← hx, ← hall, hr, hhead] at hback
      simp at hback
    · rw [hall] at hr
      rw [hr] at hself
      cases r with
      | nil => exact Or.inl (hself (by simpa using hhead))
      | cons d r => exact Or.inl (hself (by simpa using hblank c hc _))
  · rcases hr with ⟨hr, -⟩ | ⟨c, hc, hr⟩
    · rw [hr] at hrest
      rw [hrest] at h'
      cases rest with
      | nil =>
          rw [show (head ++ ['#']).dropLast = head by simp, hhead] at h'
          cases h'
          exact Or.inl rfl
      | cons d rest =>
          obtain ⟨cmd'', r'', hcmd'', hmem⟩ := hrun '#' (by decide) (d :: rest).dropLast
          rw [show (head ++ '#' :: d :: rest).dropLast = head ++ '#' :: (d :: rest).dropLast by simp,
            hcmd''] at h'
          cases h'
          exact Or.inr (Or.inl hmem)
    · rw [hr] at hrest
      have hcut : line.dropLast = head ++ c :: (r ++ '#' :: rest).dropLast := by
        rw [hrest, List.append_assoc, List.dropLast_append_of_ne_nil (by simp), List.cons_append,
          List.dropLast_cons_of_ne_nil (by simp)]
      exact Or.inl (hself (by rw [hcut, hblank c hc]))

/-! ## The hosts of a `DENY` -/

theorem afterFrom_of_words {r : Name}
    (h : ∀ t ∈ (tokens hostDelim r).head?, strcasecmp t ['F', 'R', 'O', 'M'] = false) :
    afterFrom r = r := by
  rw [afterFrom]
  cases hs : strtok hostDelim r with
  | none => rfl
  | some y =>
      have ht := h y.1 (by rw [tokens_of_strtok (t := y.1) (r := y.2) hs]; rfl)
      dsimp only
      rw [if_neg (by simp [ht])]

/-- Whatever list of words replaces the hosts of a line, these words are the hosts of the new
line. -/
theorem exists_host_head {r : Name} (h : skip hostDelim (afterFrom r) ≠ []) :
    ∃ lead, r = lead ++ skip hostDelim (afterFrom r) ∧
      ∀ ws : List Name, (∀ w ∈ ws, (w ≠ [] ∧ ∀ x ∈ w, x ∉ hostDelim) ∧
        strcasecmp w ['F', 'R', 'O', 'M'] = false) →
        tokens hostDelim (afterFrom (lead ++ ws.flatMap (· ++ [' ']))) = ws := by
  have hread : ∀ ws : List Name, (∀ w ∈ ws, (w ≠ [] ∧ ∀ x ∈ w, x ∉ hostDelim) ∧
      strcasecmp w ['F', 'R', 'O', 'M'] = false) →
      tokens hostDelim (ws.flatMap (· ++ [' '])) = ws := fun ws hws =>
    tokens_flatMap (by decide) fun w hw => (hws w hw).1
  obtain ⟨pre, hpre, hsplit⟩ := skip_eq_append hostDelim (afterFrom r)
  have hplain : afterFrom r = r → ∃ lead, r = lead ++ skip hostDelim (afterFrom r) ∧
      ∀ ws : List Name, (∀ w ∈ ws, (w ≠ [] ∧ ∀ x ∈ w, x ∉ hostDelim) ∧
        strcasecmp w ['F', 'R', 'O', 'M'] = false) →
        tokens hostDelim (afterFrom (lead ++ ws.flatMap (· ++ [' ']))) = ws := by
    intro hself
    refine ⟨pre, hself.symm.trans hsplit, fun ws hws => ?_⟩
    have htokens : tokens hostDelim (pre ++ ws.flatMap (· ++ [' '])) = ws := by
      rw [tokens_append hpre, hread ws hws]
    rw [afterFrom_of_words, htokens]
    rw [htokens]
    intro t ht
    exact (hws t (List.mem_of_mem_head? ht)).2
  cases hs : strtok hostDelim r with
  | none => exact hplain (by rw [afterFrom, hs])
  | some y =>
      obtain ⟨t, r'⟩ := y
      by_cases hfrom : strcasecmp t ['F', 'R', 'O', 'M'] = true
      · have hafter : afterFrom r = r' := by
          rw [afterFrom, hs]
          exact if_pos hfrom
        rw [hafter] at h hsplit ⊢
        obtain ⟨pre', hlead, ⟨-, rfl⟩ | ⟨c, hc, hr⟩⟩ := strtok_cases hs
        · exact absurd rfl h
        refine ⟨pre' ++ (t ++ c :: pre), by rw [hr]; simp [← hsplit], fun ws hws => ?_⟩
        have hassoc : pre' ++ (t ++ c :: pre) ++ ws.flatMap (· ++ [' ']) =
            pre' ++ (t ++ c :: (pre ++ ws.flatMap (· ++ [' ']))) := by simp
        rw [hassoc, afterFrom, hlead.strtok_cons hc]
        dsimp only
        rw [if_pos hfrom, tokens_append hpre, hread ws hws]
      · exact hplain (by rw [afterFrom, hs]; exact if_neg hfrom)

/-- **The second pass over a `DENY` with hosts** finds the addresses of those that resolve. -/
theorem patternCmd_of_splice {line pattern cmd r l : Name}
    (hcmd : patternCmd (cutAt '#' (cstr line)) = some (pattern, cmd, r))
    (hhosts : skip hostDelim (afterFrom r) ≠ [])
    (hl : spliceHosts aToIPAddr (cstr line).dropLast (cutAt '#' (cstr line)) (afterFrom r) =
      .ok l) :
    ∃ r', patternCmd l = some (pattern, cmd, r') ∧ tokens hostDelim (afterFrom r') =
      (tokens hostDelim (afterFrom r)).filterMap (hostAddress aToIPAddr) := by
  obtain ⟨-, rfl⟩ := writeBuf_eq_ok_iff.mp hl
  obtain ⟨lead, hlead, hwords⟩ := exists_host_head hhosts
  obtain ⟨head, -, hblank, -, ⟨-, rfl⟩ | ⟨c, hc, hinbuf⟩⟩ := patternCmd_cases hcmd
  · exact absurd rfl hhosts
  obtain ⟨rest, hrest⟩ : cutAt '#' (cstr line) <+: cstr line := List.takeWhile_prefix _
  have hcopy : (cstr line).dropLast = (head ++ c :: lead) ++
      (skip hostDelim (afterFrom r) ++ rest).dropLast := by
    have hline : cstr line = (head ++ c :: lead) ++ (skip hostDelim (afterFrom r) ++ rest) := by
      rw [← hrest, hinbuf]
      conv_lhs => rw [hlead]
      simp
    rw [hline, List.dropLast_append_of_ne_nil (by simp [hhosts])]
  have hlength : (cutAt '#' (cstr line)).length - (skip hostDelim (afterFrom r)).length =
      (head ++ c :: lead).length := by
    have hr := congrArg List.length hlead
    rw [List.length_append] at hr
    rw [hinbuf, List.length_append, List.length_append, List.length_cons, List.length_cons]
    omega
  rw [hlength, hcopy, List.take_left', flatMap_expandHost]
  · refine ⟨_, ?_, hwords _ fun w hw => hostAddress_word hw⟩
    rw [List.append_assoc, List.cons_append]
    exact hblank c hc _
  · rfl

/-! ## The end of a line -/

theorem patternCmd_eq_none_iff {l : Name} : patternCmd l = none ↔ (tokens blanks l).length < 2 := by
  cases hs : strtok blanks l with
  | none => simp [patternCmd, hs, strtok_eq_none_iff.mp hs]
  | some y =>
      cases hs' : strtok blanks y.2 with
      | none => simp [patternCmd, hs, hs', tokens_of_strtok hs, strtok_eq_none_iff.mp hs']
      | some z => simp [patternCmd, hs, hs', tokens_of_strtok hs, tokens_of_strtok hs']

/-- A blank at the end changes neither the pattern nor the command. -/
theorem patternCmd_append_blank {l pattern cmd r : Name} {c : Char} (hc : c ∈ blanks)
    (h : patternCmd l = some (pattern, cmd, r)) :
    patternCmd (l ++ [c]) = some (pattern, cmd, r ++ [c]) ∨
      (r = [] ∧ patternCmd (l ++ [c]) = some (pattern, cmd, [])) := by
  obtain ⟨head, -, hblank, -, ⟨rfl, rfl⟩ | ⟨d, hd, rfl⟩⟩ := patternCmd_cases h
  · exact Or.inr ⟨rfl, hblank c hc []⟩
  · refine Or.inl ?_
    rw [List.append_assoc, List.cons_append]
    exact hblank d hd _

/-- The hosts after the optional `FROM`. -/
theorem tokens_afterFrom (r : Name) : tokens hostDelim (afterFrom r) =
    match tokens hostDelim r with
    | [] => []
    | t :: ts => if strcasecmp t ['F', 'R', 'O', 'M'] then ts else t :: ts := by
  rw [afterFrom]
  cases hs : strtok hostDelim r with
  | none => simp [strtok_eq_none_iff.mp hs]
  | some y =>
      obtain ⟨t, r'⟩ := y
      rw [tokens_of_strtok hs]
      dsimp only
      split_ifs with hfrom
      · rfl
      · exact tokens_of_strtok hs

theorem tokens_afterFrom_append_delim {c : Char} (hc : c ∈ hostDelim) (r : Name) :
    tokens hostDelim (afterFrom (r ++ [c])) = tokens hostDelim (afterFrom r) := by
  rw [tokens_afterFrom, tokens_afterFrom, tokens_append_delim hc]

/-- The end of the line is read as the end of the command, or of the hosts. -/
theorem patternCmd_newline {s pattern cmd r : Name}
    (hcmd : patternCmd s = some (pattern, cmd, r)) : ∃ r',
    patternCmd (s ++ ['\n']) = some (pattern, cmd, r') ∧
    tokens hostDelim (afterFrom r') = tokens hostDelim (afterFrom r) ∧
    (r ≠ [] → r' = r ++ ['\n']) := by
  rcases patternCmd_append_blank (show '\n' ∈ blanks by decide) hcmd with h | ⟨rfl, h⟩
  · exact ⟨_, h, tokens_afterFrom_append_delim (by decide) r, fun _ => rfl⟩
  · exact ⟨_, h, rfl, fun hr => absurd rfl hr⟩

theorem afterFrom_append_delim {c : Char} (hc : c ∈ hostDelim) {r : Name}
    (h : skip hostDelim (afterFrom r) ≠ []) : afterFrom (r ++ [c]) = afterFrom r ++ [c] := by
  cases hs : strtok hostDelim r with
  | none =>
      have hr : afterFrom r = r := by rw [afterFrom, hs]
      rw [hr] at h
      exact absurd (skip_eq_nil_iff.mpr (strtok_eq_none_iff.mp hs)) h
  | some y =>
      obtain ⟨t, r'⟩ := y
      obtain ⟨pre, hlead, ⟨rfl, rfl⟩ | ⟨d, hd, rfl⟩⟩ := strtok_cases hs
      · by_cases hfrom : strcasecmp t ['F', 'R', 'O', 'M'] = true
        · rw [afterFrom, hs] at h
          simp [hfrom, skip] at h
        · have hr : afterFrom (pre ++ t) = pre ++ t := by
            rw [afterFrom, hs]
            exact if_neg hfrom
          rw [hr, afterFrom, List.append_assoc, hlead.strtok_cons hc]
          exact if_neg hfrom
      · have hs' : strtok hostDelim (pre ++ (t ++ d :: r') ++ [c]) = some (t, r' ++ [c]) := by
          rw [List.append_assoc, List.append_assoc, List.cons_append]
          exact hlead.strtok_cons hd _
        rw [afterFrom, hs', afterFrom, hs]
        dsimp only
        split_ifs with hfrom
        · rfl
        · rfl

/-! ## The rules of a line -/

theorem cstr_ne_nil_of_patternCmd {line pattern cmd r : Name}
    (h : patternCmd (cutAt '#' (cstr line)) = some (pattern, cmd, r)) : cstr line ≠ [] := by
  intro hnil
  rw [hnil] at h
  cases h

theorem lineRules_of_none {line : Name} (h : patternCmd (cutAt '#' (cstr line)) = none) :
    lineRules rx aToIPAddr line = [] := by
  rw [lineRules, firstPass]
  split_ifs with hnil
  · rfl
  · simp only [h]

/-- A line without a command is skipped. -/
theorem firstPass_skip {line : Name} (hnil : cstr line ≠ [])
    (h : patternCmd (cutAt '#' (cstr line)) = none) : firstPass aToIPAddr line = .ok none := by
  rw [firstPass, if_neg hnil]
  simp only [h]

theorem firstPass_copy {line pattern cmd r : Name}
    (h : patternCmd (cutAt '#' (cstr line)) = some (pattern, cmd, r))
    (hcmd : ¬ (isDeny cmd ∧ skip hostDelim (afterFrom r) ≠ [])) :
    firstPass aToIPAddr line = .ok (some (cstr line).dropLast) := by
  rw [firstPass, if_neg (cstr_ne_nil_of_patternCmd h)]
  simp only [h]
  exact if_neg hcmd

/-- The second pass reads the copy of the line. -/
theorem lineRules_copy {line pattern cmd r : Name}
    (h : patternCmd (cutAt '#' (cstr line)) = some (pattern, cmd, r))
    (hcmd : ¬ (isDeny cmd ∧ skip hostDelim (afterFrom r) ≠ [])) :
    lineRules rx aToIPAddr line = secondPassRules rx (cstr line).dropLast := by
  rw [lineRules, firstPass_copy h hcmd]

theorem firstPass_deny {line pattern cmd r : Name}
    (h : patternCmd (cutAt '#' (cstr line)) = some (pattern, cmd, r))
    (hcmd : isDeny cmd ∧ skip hostDelim (afterFrom r) ≠ []) :
    firstPass aToIPAddr line =
      (spliceHosts aToIPAddr (cstr line).dropLast (cutAt '#' (cstr line)) (afterFrom r)).map some := by
  rw [firstPass, if_neg (cstr_ne_nil_of_patternCmd h)]
  simp only [h]
  exact if_pos hcmd

/-- The rules of a `DENY` with hosts: their addresses are denied. -/
theorem lineRules_deny {line pattern cmd r : Name} {o : Option Name}
    (h : patternCmd (cutAt '#' (cstr line)) = some (pattern, cmd, r))
    (hcmd : isDeny cmd ∧ skip hostDelim (afterFrom r) ≠ [])
    (ho : firstPass aToIPAddr line = .ok o) :
    lineRules rx aToIPAddr line =
      if rx.compiles pattern then
        denyRules pattern ((tokens hostDelim (afterFrom r)).filterMap (hostAddress aToIPAddr))
      else [] := by
  rw [firstPass_deny h hcmd] at ho
  cases hl : spliceHosts aToIPAddr (cstr line).dropLast (cutAt '#' (cstr line)) (afterFrom r) with
  | error f =>
      rw [hl] at ho
      cases ho
  | ok l =>
      obtain ⟨r', hr', htokens⟩ := patternCmd_of_splice h hcmd.2 hl
      rw [lineRules, firstPass_deny h hcmd, hl]
      show secondPassRules rx l = _
      rw [secondPassRules, hr']
      dsimp only
      rw [cmdRules, if_pos hcmd.1, htokens]

end GateAs

end CaNameserver
