import CaNameserver.Entries

/-!
# A file without a final newline

The copy of a line that the second pass reads lacks its last character, which is meant to be the
newline.  The last line of a file may have none.  What is lost then is the last letter of a word:
of the command, of a host, of an alias, of a group, or of a level; or it is a blank, and nothing
is lost.  This module says exactly when it matters.

## One line

`LastIdle` says of a line that its last character makes no difference to what the second pass
enters.  It is decided by what the character belongs to.

* If the line ends with its command, the command without its last letter is another one.  No two
  commands that enter a rule differ in this way (`not_bareRule_concat`), so the letter matters
  exactly if one of the two would enter something.
* If it belongs to the hosts of a `DENY`, it is the end of a host's name, or a blank
  (`agrees_deny_iff`).
* If it belongs to the arguments of an allowing command, it is the end of an alias, a group or a
  level (`allowArgs_concat_iff`).  An alias or a group is another one without its last letter;
  levels are not compared.

`lastIdle_iff` puts the cases together.  An `ORDER` sets what is in force already, or not.

## The last line of a file

`LastLineIdle` is the same for the last line, where there are more cases in which nothing is lost:
the line has a terminator in it, it has no command before its comment, or it is a `DENY` with
hosts, which the second pass reads from the addresses.  Two outcomes are compared by
`SameOutcome`, errors included; lines do to readings that are alike what they do
(`readLine_sameOutcome`), so that only the last line counts.

* `finalNewline_iff`: a missing newline changes nothing exactly in that case.
* `finalNewline_lost`: a rule that is lost with the newline.
-/

namespace CaNameserver

open CStr Fallible

namespace GateAs

variable {rx : Regex} {aToIPAddr : Resolver}

/-! ## The last character of a line -/

/-- A command that enters a rule without arguments. -/
def bareRule (cmd : Name) : Bool := isDeny cmd || entersAllow cmd []

/-- The arguments of an allowing command that are text of its entry: an alias and a group. -/
def textArgs (cmd : Name) : ℕ := if isAlias cmd then 2 else 1

/-- The last character of a line does not matter to what the second pass enters, where `order` is in
force: it is a delimiter, or belongs to an argument without effect or to a level, or the pattern
does not compile; where it is the last letter of the command, neither the command nor what is left
of it enters a rule without arguments, and of an `ORDER` the same order comes out. -/
def LastIdle (rx : Regex) (order : EvalOrder) (line : Name) : Prop :=
  match patternCmd line with
  | none => True
  | some (pattern, cmd, []) =>
      (∃ c ∈ line.getLast?, c ∈ blanks) ∨ rx.compiles pattern = false ∨
        (bareRule cmd = false ∧ bareRule cmd.dropLast = false)
  | some (pattern, cmd, r) =>
      if isDeny cmd then (∃ c ∈ r.getLast?, c ∈ hostDelim) ∨ rx.compiles pattern = false
      else if isOrder cmd then
        (orderArg r).elim order EvalOrder.ofDenyWins =
          (orderArg r.dropLast).elim order EvalOrder.ofDenyWins
      else if isAllow cmd then
        (∃ c ∈ r.getLast?, c ∈ blanks) ∨ rx.compiles pattern = false ∨
          textArgs cmd < (tokens blanks r).length
      else True

/-- The head of a line without its last character. -/
theorem patternCmd_concat {l pattern cmd r : Name} {c : Char}
    (h : patternCmd (l ++ [c]) = some (pattern, cmd, r)) :
    (∃ r', r = r' ++ [c] ∧ patternCmd l = some (pattern, cmd, r')) ∨
    (r = [] ∧ c ∈ blanks ∧ patternCmd l = some (pattern, cmd, [])) ∨
    (r = [] ∧ c ∉ blanks ∧ ∃ cmd', cmd = cmd' ++ [c] ∧
      ((cmd' = [] ∧ patternCmd l = none) ∨ patternCmd l = some (pattern, cmd', []))) := by
  obtain ⟨r₁, hs₁, hs₂⟩ := patternCmd_eq_some_iff.mp h
  obtain ⟨pre₁, hlead₁, ⟨-, rfl⟩ | ⟨c₁, hc₁, hl⟩⟩ := strtok_cases hs₁
  · cases hs₂
  obtain ⟨pre₂, hlead₂, ⟨rfl, rfl⟩ | ⟨c₂, hc₂, rfl⟩⟩ := strtok_cases hs₂
  · -- the line ends with its command
    rcases List.eq_nil_or_concat' cmd with rfl | ⟨cmd', x, rfl⟩
    · exact absurd rfl hlead₂.ne_nil
    have hassoc : pre₁ ++ (pattern ++ c₁ :: (pre₂ ++ (cmd' ++ [x]))) =
        (pre₁ ++ (pattern ++ c₁ :: (pre₂ ++ cmd'))) ++ [x] := by simp
    rw [hassoc] at hl
    obtain ⟨rfl, hx⟩ := List.append_inj' hl rfl
    cases hx
    refine Or.inr (Or.inr ⟨rfl, hlead₂.not_mem c (by simp), cmd', rfl, ?_⟩)
    have hpattern := hlead₁.strtok_cons hc₁ (pre₂ ++ cmd')
    by_cases hnil : cmd' = []
    · subst hnil
      refine Or.inl ⟨rfl, patternCmd_eq_none_iff.mpr ?_⟩
      rw [tokens_of_strtok hpattern, tokens_append hlead₂.delims]
      exact Nat.lt_succ_self 1
    · refine Or.inr (patternCmd_eq_some_iff.mpr ⟨_, hpattern, Leads.strtok_end ?_⟩)
      exact ⟨hlead₂.delims, hnil, fun y hy => hlead₂.not_mem y (List.mem_append_left _ hy)⟩
  · rcases List.eq_nil_or_concat' r with rfl | ⟨r', x, rfl⟩
    · have hassoc : pre₁ ++ (pattern ++ c₁ :: (pre₂ ++ (cmd ++ [c₂]))) =
          (pre₁ ++ (pattern ++ c₁ :: (pre₂ ++ cmd))) ++ [c₂] := by simp
      rw [hassoc] at hl
      obtain ⟨rfl, hx⟩ := List.append_inj' hl rfl
      cases hx
      exact Or.inr (Or.inl ⟨rfl, hc₂, patternCmd_eq_some_iff.mpr
        ⟨_, hlead₁.strtok_cons hc₁ _, hlead₂.strtok_end⟩⟩)
    · have hassoc : pre₁ ++ (pattern ++ c₁ :: (pre₂ ++ (cmd ++ c₂ :: (r' ++ [x])))) =
          (pre₁ ++ (pattern ++ c₁ :: (pre₂ ++ (cmd ++ c₂ :: r')))) ++ [x] := by simp
      rw [hassoc] at hl
      obtain ⟨rfl, hx⟩ := List.append_inj' hl rfl
      cases hx
      exact Or.inl ⟨r', rfl, patternCmd_eq_some_iff.mpr
        ⟨_, hlead₁.strtok_cons hc₁ _, hlead₂.strtok_cons hc₂ r'⟩⟩

/-- A line without a command has none when it gets shorter. -/
theorem patternCmd_concat_none {l : Name} {c : Char} (h : patternCmd (l ++ [c]) = none) :
    patternCmd l = none := by
  rw [patternCmd_eq_none_iff] at h ⊢
  by_cases hc : c ∈ blanks
  · rwa [tokens_append_delim hc] at h
  · obtain ⟨ts, t, hts, ht⟩ := tokens_append_of_not_mem hc l
    rw [hts, List.length_append, List.length_singleton] at h
    rw [ht, List.length_append]
    split_ifs
    · exact Nat.lt_of_succ_lt h
    · exact h

/-! ### A command at the end -/

theorem cmdEntered_nil {pattern cmd : Name} : cmdEntered rx pattern cmd [] =
    if bareRule cmd ∧ rx.compiles pattern then
      if isDeny cmd then .deny pattern [] else .allow pattern none defaultGroup
    else .nothing := by
  rw [cmdEntered, bareRule, entersAllow, allowArgs]
  have htokens : ∀ delim : List Char, tokens delim [] = [] := fun _ => rfl
  have hfrom : afterFrom [] = [] := rfl
  have horder : orderArg [] = none := rfl
  rw [hfrom, horder, htokens, htokens]
  by_cases hdeny : isDeny cmd = true
  · by_cases hp : rx.compiles pattern = true
    · simp [hdeny, hp]
    · simp [hdeny, hp]
  · by_cases hord : isOrder cmd = true
    · have hallow : isAllow cmd = false := by
        have hne : ∀ b, ['O', 'R', 'D', 'E', 'R'].map toLower ≠ b.map toLower →
            strcasecmp cmd b = false := fun _ => strcasecmp_of_ne hord
        rw [isAllow, isAlias, hne _ (by decide), hne _ (by decide), hne _ (by decide),
          hne _ (by decide)]
        rfl
      simp [hdeny, hord, hallow]
    · by_cases halias : isAlias cmd = true
      · simp [hdeny, hord, halias]
      · by_cases hallow : isAllow cmd = true
        · simp [hdeny, hord, halias, hallow]
        · simp [hdeny, hord, halias, hallow]

theorem bareRule_iff {cmd : Name} : bareRule cmd = true ↔
    cmd.map toLower ∈ [['d', 'e', 'n', 'y'], ['a', 'l', 'l', 'o', 'w'],
      ['p', 'a', 't', 't', 'e', 'r', 'n'], ['p', 'v']] := by
  have htokens : (tokens blanks []).isEmpty = true := rfl
  have hlower : ['D', 'E', 'N', 'Y'].map toLower = ['d', 'e', 'n', 'y'] ∧
      ['A', 'L', 'I', 'A', 'S'].map toLower = ['a', 'l', 'i', 'a', 's'] ∧
      ['A', 'L', 'L', 'O', 'W'].map toLower = ['a', 'l', 'l', 'o', 'w'] ∧
      ['P', 'A', 'T', 'T', 'E', 'R', 'N'].map toLower = ['p', 'a', 't', 't', 'e', 'r', 'n'] ∧
      ['P', 'V'].map toLower = ['p', 'v'] := by decide
  rw [bareRule, entersAllow, isDeny, isAllow, isAlias, htokens]
  simp only [strcasecmp, hlower]
  by_cases halias : cmd.map toLower = ['a', 'l', 'i', 'a', 's']
  · simp [halias]
  · simp [halias, or_assoc]

/-- A command and the same with one letter more are not both commands that enter a rule. -/
theorem not_bareRule_concat {cmd : Name} {c : Char} (h : bareRule cmd = true) :
    bareRule (cmd ++ [c]) = false := by
  rw [Bool.eq_false_iff]
  intro h'
  rw [bareRule_iff] at h h'
  rw [List.map_append, List.map_singleton] at h'
  generalize cmd.map toLower = w at h h'
  simp only [List.mem_cons, List.not_mem_nil, or_false] at h
  rcases h with rfl | rfl | rfl | rfl
  · simp at h'
  · simp at h'
  · simp at h'
  · simp at h'

/-- The last letter of a line that ends with its command. -/
theorem agrees_command_iff (order : EvalOrder) {pattern cmd : Name} {c : Char} :
    (cmdEntered rx pattern cmd []).Agrees order (cmdEntered rx pattern (cmd ++ [c]) []) ↔
      rx.compiles pattern = false ∨ (bareRule (cmd ++ [c]) = false ∧ bareRule cmd = false) := by
  have hapart : ∀ x : Name, ¬ Entered.Agrees order .nothing
      (if isDeny x then .deny pattern [] else .allow pattern none defaultGroup) ∧
      ¬ Entered.Agrees order
        (if isDeny x then .deny pattern [] else .allow pattern none defaultGroup) .nothing := by
    intro x
    by_cases hdeny : isDeny x = true
    · rw [if_pos hdeny]
      exact ⟨fun h => List.cons_ne_nil _ _ h.denied, fun h => List.cons_ne_nil _ _ h.denied.symm⟩
    · rw [if_neg hdeny]
      exact ⟨fun h => List.cons_ne_nil _ _ h.allowed, fun h => List.cons_ne_nil _ _ h.allowed.symm⟩
  rw [cmdEntered_nil, cmdEntered_nil]
  cases hp : rx.compiles pattern with
  | false => simpa using Entered.Agrees.refl order .nothing
  | true =>
      cases hcmd : bareRule cmd with
      | true =>
          rw [not_bareRule_concat hcmd]
          simpa using (hapart cmd).2
      | false =>
          cases hconcat : bareRule (cmd ++ [c]) with
          | true => simpa using (hapart (cmd ++ [c])).1
          | false => simpa using Entered.Agrees.refl order .nothing

/-- A command with no pattern that compiles enters nothing without arguments. -/
theorem cmdEntered_nil_empty (pattern : Name) : cmdEntered rx pattern [] [] = .nothing := by
  rw [cmdEntered_nil, if_neg]
  intro h
  exact absurd h.1 (by decide)

/-! ### An argument at the end -/

/-- A host that is read to its last letter, or not. -/
theorem hosts_concat {c : Char} (hc : c ∉ hostDelim) (r : Name) :
    (∃ us t, tokens hostDelim (afterFrom (r ++ [c])) = us ++ [t ++ [c]] ∧
      (tokens hostDelim (afterFrom r) = us ∨ tokens hostDelim (afterFrom r) = us ++ [t])) ∨
    (tokens hostDelim (afterFrom (r ++ [c])) = [] ∧ tokens hostDelim (afterFrom r) ≠ []) := by
  obtain ⟨ts, t, hts, ht⟩ := tokens_append_of_not_mem hc r
  rw [tokens_afterFrom, tokens_afterFrom, hts, ht]
  cases ts with
  | cons s ts =>
      refine Or.inl ?_
      rw [List.cons_append, List.cons_append]
      dsimp only
      by_cases hfrom : strcasecmp s ['F', 'R', 'O', 'M'] = true
      · rw [if_pos hfrom, if_pos hfrom]
        refine ⟨ts, t, rfl, ?_⟩
        split_ifs
        · exact Or.inl (List.append_nil ts)
        · exact Or.inr rfl
      · rw [if_neg hfrom, if_neg hfrom]
        refine ⟨s :: ts, t, rfl, ?_⟩
        split_ifs
        · exact Or.inl (List.append_nil (s :: ts))
        · exact Or.inr rfl
  | nil =>
      rw [List.nil_append, List.nil_append]
      dsimp only
      by_cases hfrom : strcasecmp (t ++ [c]) ['F', 'R', 'O', 'M'] = true
      · -- `FROM` without its last letter is a host
        have hlen : t.length = 3 := by
          rw [strcasecmp, decide_eq_true_iff] at hfrom
          simpa using congrArg List.length hfrom
        have hne : t ≠ [] := fun hnil => by simp [hnil] at hlen
        have hfrom' : strcasecmp t ['F', 'R', 'O', 'M'] ≠ true := by
          intro h
          rw [strcasecmp, decide_eq_true_iff] at h
          have hlength := congrArg List.length h
          simp [hlen] at hlength
        refine Or.inr ⟨if_pos hfrom, ?_⟩
        rw [if_neg hne]
        dsimp only
        rw [if_neg hfrom']
        exact List.cons_ne_nil t []
      · refine Or.inl ⟨[], t, if_neg hfrom, ?_⟩
        by_cases hnil : t = []
        · rw [if_pos hnil]
          exact Or.inl rfl
        · rw [if_neg hnil]
          dsimp only
          by_cases hfrom' : strcasecmp t ['F', 'R', 'O', 'M'] = true
          · exact Or.inl (if_pos hfrom')
          · exact Or.inr (if_neg hfrom')

/-- The last character of a host. -/
theorem agrees_deny_iff {order : EvalOrder} {pattern r : Name} {c : Char} :
    Entered.Agrees order (.deny pattern (tokens hostDelim (afterFrom r)))
      (.deny pattern (tokens hostDelim (afterFrom (r ++ [c])))) ↔ c ∈ hostDelim := by
  constructor
  · intro h
    by_contra hc
    rcases hosts_concat hc r with ⟨us, t, hus, ht⟩ | ⟨hnil, hne⟩
    · have hcount := congrArg List.length (h.deniedFrom (t ++ [c]))
      have hself : t ≠ t ++ [c] := fun heq => by simpa using congrArg List.length heq
      rw [hus] at hcount
      rcases ht with ht | ht
      · rw [ht] at hcount
        simp [Entered.deniedFrom] at hcount
      · rw [ht] at hcount
        simp [Entered.deniedFrom, hself] at hcount
    · have hdenied := h.denied
      rw [hnil] at hdenied
      cases hhosts : tokens hostDelim (afterFrom r) with
      | nil => exact hne hhosts
      | cons hname hosts =>
          rw [hhosts] at hdenied
          cases hdenied
  · intro hc
    rw [tokens_afterFrom_append_delim hc]
    exact .refl order _

/-- A group is not the same without its last letter, nor is it the default group. -/
theorem headD_group_ne (t : Name) (c : Char) :
    t ++ [c] ≠ (if t = [] then [] else [t]).headD defaultGroup := by
  intro h
  have hlength := congrArg List.length h
  split_ifs at hlength with hnil
  · subst hnil
    simp [defaultGroup] at hlength
  · simp at hlength

/-- The last character of an alias, a group or a level. -/
theorem allowArgs_concat_iff {cmd : Name} (hcmd : isAllow cmd = true) (r : Name) (c : Char) :
    allowArgs cmd (r ++ [c]) = allowArgs cmd r ↔
      c ∈ blanks ∨ textArgs cmd < (tokens blanks (r ++ [c])).length := by
  by_cases hc : c ∈ blanks
  · rw [allowArgs, allowArgs, tokens_append_delim hc]
    exact iff_of_true rfl (Or.inl hc)
  rw [or_iff_right hc]
  obtain ⟨ts, t, hts, ht⟩ := tokens_append_of_not_mem hc r
  rw [allowArgs, allowArgs, hts, ht, textArgs]
  by_cases halias : isAlias cmd = true
  · rw [if_pos halias, if_pos halias, if_pos halias]
    cases ts with
    | nil =>
        refine iff_of_false (fun h => ?_) (by simp)
        by_cases hnil : t = []
        · rw [if_pos hnil] at h
          cases h
        · rw [if_neg hnil] at h
          have hname := congrArg List.length (Option.some.inj (Prod.mk.inj (Option.some.inj h)).1)
          simp at hname
    | cons s ts =>
        cases ts with
        | nil =>
            refine iff_of_false (fun h => ?_) (by simp)
            exact headD_group_ne t c (Prod.mk.inj (Option.some.inj h)).2
        | cons s' ts => exact iff_of_true rfl (by simp)
  · rw [if_neg halias, if_neg halias, if_neg halias, if_pos hcmd, if_pos hcmd]
    cases ts with
    | nil =>
        refine iff_of_false (fun h => ?_) (by simp)
        exact headD_group_ne t c (Prod.mk.inj (Option.some.inj h)).2
    | cons s ts => exact iff_of_true rfl (by simp)

/-- Different texts of an entry are told apart. -/
theorem agrees_allow_iff (order : EvalOrder) (pattern : Name)
    (args args' : Option (Option Name × Name)) :
    Entered.Agrees order (args.elim .nothing fun args => .allow pattern args.1 args.2)
      (args'.elim .nothing fun args => .allow pattern args.1 args.2) ↔ args' = args := by
  constructor
  · intro h
    have hallowed := h.allowed
    cases args with
    | none =>
        cases args' with
        | none => rfl
        | some p' => cases hallowed
    | some p =>
        cases args' with
        | none => cases hallowed
        | some p' =>
            obtain ⟨rname, asg⟩ := p
            obtain ⟨rname', asg'⟩ := p'
            cases hallowed
            rfl
  · rintro rfl
    exact .refl order _

/-- **The last character of a line** that goes on after its command. -/
theorem agrees_concat_iff {order : EvalOrder} {pattern cmd r : Name} {c : Char} :
    (cmdEntered rx pattern cmd r).Agrees order (cmdEntered rx pattern cmd (r ++ [c])) ↔
      if isDeny cmd then c ∈ hostDelim ∨ rx.compiles pattern = false
      else if isOrder cmd then
        (orderArg (r ++ [c])).elim order EvalOrder.ofDenyWins =
          (orderArg r).elim order EvalOrder.ofDenyWins
      else if isAllow cmd then
        c ∈ blanks ∨ rx.compiles pattern = false ∨ textArgs cmd < (tokens blanks (r ++ [c])).length
      else True := by
  rw [cmdEntered, cmdEntered]
  by_cases hdeny : isDeny cmd = true
  · rw [if_pos hdeny, if_pos hdeny, if_pos hdeny]
    cases hp : rx.compiles pattern with
    | false => simpa using Entered.Agrees.refl order .nothing
    | true => simpa using agrees_deny_iff
  rw [if_neg hdeny, if_neg hdeny, if_neg hdeny]
  by_cases horder : isOrder cmd = true
  · rw [if_pos horder, if_pos horder, if_pos horder]
    have hforce : ∀ o : Option Bool, (o.elim Entered.nothing .order).inForce order =
        o.elim order EvalOrder.ofDenyWins := by
      intro o
      cases o with
      | none => rfl
      | some o => rfl
    constructor
    · intro h
      have h' := h.inForce
      rwa [hforce, hforce] at h'
    · intro h
      refine ⟨by rw [hforce, hforce, h], ?_, fun host => ?_, ?_⟩
      · cases orderArg r <;> cases orderArg (r ++ [c]) <;> rfl
      · cases orderArg r <;> cases orderArg (r ++ [c]) <;> rfl
      · cases orderArg r <;> cases orderArg (r ++ [c]) <;> rfl
  rw [if_neg horder, if_neg horder, if_neg horder]
  by_cases hallow : isAllow cmd = true
  · rw [if_pos hallow]
    cases hp : rx.compiles pattern with
    | false =>
        have hnothing : ∀ args : Option (Option Name × Name), (args.elim Entered.nothing fun args =>
            if false = true then .allow pattern args.1 args.2 else .nothing) = .nothing := by
          intro args
          cases args with
          | none => rfl
          | some p => rfl
        rw [hnothing, hnothing]
        exact iff_of_true (.refl order _) (Or.inr (Or.inl rfl))
    | true =>
        have hallowed := agrees_allow_iff order pattern (allowArgs cmd r) (allowArgs cmd (r ++ [c]))
        rw [allowArgs_concat_iff hallow] at hallowed
        simpa using hallowed
  · rw [if_neg hallow]
    have hnone : ∀ r, allowArgs cmd r = none := by
      intro r
      rw [allowArgs, if_neg fun h => hallow (isAllow_of_isAlias h), if_neg hallow]
    rw [hnone, hnone]
    exact iff_of_true (.refl order _) trivial

/-- **Whether the last character of a line matters** to what is entered. -/
theorem lastIdle_iff (rx : Regex) (order : EvalOrder) (l : Name) (c : Char) :
    LastIdle rx order (l ++ [c]) ↔ (entered rx l).Agrees order (entered rx (l ++ [c])) := by
  rw [LastIdle, entered, entered]
  cases hcmd : patternCmd (l ++ [c]) with
  | none =>
      rw [patternCmd_concat_none hcmd]
      exact iff_of_true trivial (.refl order _)
  | some x =>
      obtain ⟨pattern, cmd, r⟩ := x
      rcases patternCmd_concat hcmd with ⟨r', rfl, hl⟩ | ⟨rfl, hc, hl⟩ | ⟨rfl, hc, cmd', rfl, hl⟩
      · rw [hl]
        dsimp only
        rw [agrees_concat_iff]
        cases hr : r' ++ [c] with
        | nil => simp at hr
        | cons d r =>
            dsimp only
            rw [← hr]
            simp
      · rw [hl]
        refine iff_of_true (Or.inl ⟨c, ?_, hc⟩) (.refl order _)
        rw [List.getLast?_append, List.getLast?_singleton]
        rfl
      · have hlast : ¬ ∃ d ∈ (l ++ [c]).getLast?, d ∈ blanks := by
          rw [List.getLast?_append, List.getLast?_singleton]
          rintro ⟨d, hd, hblank⟩
          cases hd
          exact hc hblank
        dsimp only
        rw [or_iff_right hlast, List.dropLast_concat, ← agrees_command_iff order]
        rcases hl with ⟨rfl, hl⟩ | hl
        · rw [hl, cmdEntered_nil_empty]
        · rw [hl]

/-! ## The last line of a file -/

/-- The last line of a file may lack its newline: it ends with a terminator in its middle, or has
no command before a comment, or is a `DENY` with hosts; or its last character does not matter. -/
def LastLineIdle (rx : Regex) (order : EvalOrder) (last : Name) : Prop :=
  '\x00' ∈ last ∨ patternCmd (cutAt '#' last) = none ∨
    (∃ pattern cmd r, patternCmd (cutAt '#' last) = some (pattern, cmd, r) ∧ isDeny cmd = true ∧
      tokens hostDelim (afterFrom r) ≠ []) ∨
    LastIdle rx order last

/-- Two outcomes of reading agree. -/
def SameOutcome (rx : Regex) : Except Fault GateAs → Except Fault GateAs → Prop
  | .ok g, .ok g' => Alike rx g g'
  | .error f, .error f' => f = f'
  | _, _ => False

/-- A line does to readings that are alike what it does. -/
theorem readLine_sameOutcome (aToIPAddr : Resolver) {st st' : Reader}
    (h : Alike rx st.gate st'.gate) (line : Name) :
    SameOutcome rx ((readLine rx aToIPAddr st line).map Reader.gate)
      ((readLine rx aToIPAddr st' line).map Reader.gate) := by
  rw [readLine, readLine]
  cases firstPass aToIPAddr line with
  | error f => exact rfl
  | ok o =>
      cases o with
      | none => exact h
      | some l =>
          exact ((secondPass_enters rx st l).alike_iff (secondPass_enters rx st' l) h).mpr
            (.refl _ _)

/-- The newline after a line is part of it, unless there is a terminator before it. -/
theorem cstr_append_newline (l : Name) :
    cstr (l ++ ['\n']) = if '\x00' ∈ l then cstr l else l ++ ['\n'] := by
  split_ifs with h
  · exact cutAt_append_of_mem h
  · refine cutAt_eq_self fun hmem => ?_
    rcases List.mem_append.mp hmem with hmem | hmem
    · exact h hmem
    · exact absurd hmem (by decide)

/-- The first pass finds the same with and without the newline. -/
theorem patternCmd_lastLine {last pattern cmd r : Name}
    (h : patternCmd (cutAt '#' last) = some (pattern, cmd, r)) :
    ∃ r', patternCmd (cutAt '#' (last ++ ['\n'])) = some (pattern, cmd, r') ∧
      tokens hostDelim (afterFrom r') = tokens hostDelim (afterFrom r) ∧
      (skip hostDelim (afterFrom r) ≠ [] →
        (cutAt '#' (last ++ ['\n'])).length - (skip hostDelim (afterFrom r')).length =
          (cutAt '#' last).length - (skip hostDelim (afterFrom r)).length) := by
  by_cases hhash : '#' ∈ last
  · rw [cutAt_append_of_mem hhash]
    exact ⟨r, h, rfl, fun _ => rfl⟩
  rw [cutAt_append_of_not_mem hhash, cutAt_eq_self hhash] at *
  obtain ⟨r', h', htokens, hr⟩ := patternCmd_newline h
  refine ⟨r', h', htokens, fun hhosts => ?_⟩
  have hne : r ≠ [] := by
    rintro rfl
    exact hhosts rfl
  rw [hr hne, afterFrom_append_delim (by decide) hhosts, skip_append_of_ne_nil hhosts]
  simp [cutAt]

/-- **The last line**, read without and with its newline. -/
theorem lastLine_iff (aToIPAddr : Resolver) {st st' : Reader} (h : Alike rx st.gate st'.gate)
    {last : Name} (hnil : last ≠ []) :
    SameOutcome rx ((readLine rx aToIPAddr st last).map Reader.gate)
        ((readLine rx aToIPAddr st' (last ++ ['\n'])).map Reader.gate) ↔
      LastLineIdle rx st.gate.evalOrder last := by
  by_cases hnul : '\x00' ∈ last
  · -- what follows the terminator is not read
    have hsame : readLine rx aToIPAddr st' (last ++ ['\n']) = readLine rx aToIPAddr st' last := by
      have hcstr : cstr (last ++ ['\n']) = cstr last := by rw [cstr_append_newline, if_pos hnul]
      rw [readLine, readLine, firstPass, firstPass, hcstr]
    rw [hsame]
    exact iff_of_true (readLine_sameOutcome aToIPAddr h last) (Or.inl hnul)
  have hlast : cstr last = last := cutAt_eq_self hnul
  have hline : cstr (last ++ ['\n']) = last ++ ['\n'] := by rw [cstr_append_newline, if_neg hnul]
  rw [LastLineIdle, or_iff_right hnul]
  cases hcmd : patternCmd (cutAt '#' last) with
  | none =>
      have hcmd' : patternCmd (cutAt '#' (last ++ ['\n'])) = none := by
        by_cases hhash : '#' ∈ last
        · rwa [cutAt_append_of_mem hhash]
        · rw [cutAt_eq_self hhash, patternCmd_eq_none_iff] at hcmd
          rwa [cutAt_append_of_not_mem hhash, patternCmd_eq_none_iff,
            show cutAt '#' ['\n'] = ['\n'] from rfl, tokens_append_delim (by decide)]
      have hread : readLine rx aToIPAddr st last = .ok st := by
        rw [readLine, firstPass_skip (by rwa [hlast]) (by rwa [hlast])]
        rfl
      have hread' : readLine rx aToIPAddr st' (last ++ ['\n']) = .ok st' := by
        rw [readLine, firstPass_skip (by simp [hline]) (by rwa [hline])]
        rfl
      rw [hread, hread']
      exact iff_of_true h (Or.inl rfl)
  | some x =>
      obtain ⟨pattern, cmd, r⟩ := x
      obtain ⟨r', hcmd', htokens, hlength⟩ := patternCmd_lastLine hcmd
      rw [← hlast] at hcmd
      rw [← hline] at hcmd'
      by_cases hdeny : isDeny cmd = true ∧ tokens hostDelim (afterFrom r) ≠ []
      · -- the addresses replace the end of the line
        have hsame : readLine rx aToIPAddr st' (last ++ ['\n']) =
            readLine rx aToIPAddr st' last := by
          have hhosts : skip hostDelim (afterFrom r) ≠ [] := fun h =>
            hdeny.2 (skip_eq_nil_iff.mp h)
          have hspliced : splicedLength aToIPAddr (cutAt '#' (cstr (last ++ ['\n']))) r' =
              splicedLength aToIPAddr (cutAt '#' (cstr last)) r := by
            rw [splicedLength, splicedLength, resolved, resolved, htokens, hline, hlast,
              hlength hhosts]
          rw [readLine_deny hcmd hdeny.1 hdeny.2,
            readLine_deny hcmd' hdeny.1 (by rw [htokens]; exact hdeny.2), hspliced, resolved,
            resolved, htokens]
        rw [hsame]
        exact iff_of_true (readLine_sameOutcome aToIPAddr h last)
          (Or.inr (Or.inl ⟨pattern, cmd, r, rfl, hdeny⟩))
      · have hcopy : ¬ (isDeny cmd ∧ skip hostDelim (afterFrom r) ≠ []) := by
          rwa [ne_eq, skip_eq_nil_iff]
        have hcopy' : ¬ (isDeny cmd ∧ skip hostDelim (afterFrom r') ≠ []) := by
          rwa [ne_eq, skip_eq_nil_iff, htokens]
        have hread : readLine rx aToIPAddr st last = .ok (secondPass rx st last.dropLast) := by
          rw [readLine, firstPass_copy hcmd hcopy, hlast]
          rfl
        have hread' : readLine rx aToIPAddr st' (last ++ ['\n']) =
            .ok (secondPass rx st' last) := by
          rw [readLine, firstPass_copy hcmd' hcopy', hline, List.dropLast_concat]
          rfl
        rw [hread, hread']
        obtain ⟨l, c, rfl⟩ := List.eq_nil_or_concat' last |>.resolve_left hnil
        rw [List.dropLast_concat]
        have hiff := (secondPass_enters rx st l).alike_iff (secondPass_enters rx st' (l ++ [c])) h
        rw [← lastIdle_iff] at hiff
        refine hiff.trans ⟨fun h => Or.inr (Or.inr h), ?_⟩
        rintro (h | ⟨pattern', cmd', r'', h, hdeny'⟩ | h)
        · cases h
        · cases h
          exact absurd hdeny' hdeny
        · exact h

/-- Lines do to readings that are alike what they do. -/
theorem foldlM_sameOutcome (aToIPAddr : Resolver) (lines : List Name) {st st' : Reader}
    (h : Alike rx st.gate st'.gate) :
    SameOutcome rx ((lines.foldlM (readLine rx aToIPAddr) st).map Reader.gate)
      ((lines.foldlM (readLine rx aToIPAddr) st').map Reader.gate) := by
  induction lines generalizing st st' with
  | nil => exact h
  | cons line lines ih =>
      have hline := readLine_sameOutcome aToIPAddr h line
      rw [List.foldlM_cons, List.foldlM_cons]
      cases hst : readLine rx aToIPAddr st line with
      | error f =>
          cases hst' : readLine rx aToIPAddr st' line with
          | error f' =>
              rw [hst, hst'] at hline
              exact hline
          | ok t' =>
              rw [hst, hst'] at hline
              exact hline.elim
      | ok t =>
          cases hst' : readLine rx aToIPAddr st' line with
          | error f' =>
              rw [hst, hst'] at hline
              exact hline.elim
          | ok t' =>
              rw [hst, hst'] at hline
              exact ih hline

theorem readPvList_eq_map (rx : Regex) (aToIPAddr : Resolver) (lev : ℤ) (lfile : List Char) :
    readPvList rx aToIPAddr lev lfile =
      ((fgetsLines gateMaxPvlistLineLength lfile).foldlM (readLine rx aToIPAddr)
        ⟨GateAs.empty, lev⟩).map Reader.gate := by
  rw [readPvList]
  cases (fgetsLines gateMaxPvlistLineLength lfile).foldlM (readLine rx aToIPAddr)
    ⟨GateAs.empty, lev⟩ with
  | error f => rfl
  | ok st => rfl

/-- **When a missing newline changes nothing.**  A file and the same with a newline after its last
line are read alike exactly if that line may lack its newline in the order that the lines before
leave in force. -/
theorem finalNewline_iff (rx : Regex) (aToIPAddr : Resolver) (lev lev' : ℤ) (ls : List Name)
    (last : Name) (hls : ∀ l ∈ ls, '\n' ∉ l ∧ l.length < 1023) (hnil : last ≠ [])
    (hnl : '\n' ∉ last) (hlen : last.length < 1022) :
    SameOutcome rx (readPvList rx aToIPAddr lev (textFile ls ++ last))
        (readPvList rx aToIPAddr lev' (textFile ls ++ last ++ ['\n'])) ↔
      ∀ g, readPvList rx aToIPAddr lev (textFile ls) = .ok g →
        LastLineIdle rx g.evalOrder last := by
  have hshort : ∀ l ∈ ls, '\n' ∉ l ∧ l.length + 1 < gateMaxPvlistLineLength := fun l hl =>
    ⟨(hls l hl).1, Nat.succ_lt_succ (hls l hl).2⟩
  have hlines : fgetsLines gateMaxPvlistLineLength (textFile ls ++ last) =
      ls.map (· ++ ['\n']) ++ [last] :=
    fgetsLines_lines_append hshort hnil hnl (Nat.succ_lt_succ (Nat.lt_succ_of_lt hlen))
  have hlines' : fgetsLines gateMaxPvlistLineLength (textFile ls ++ last ++ ['\n']) =
      ls.map (· ++ ['\n']) ++ [last ++ ['\n']] := by
    have hfile : textFile ls ++ last ++ ['\n'] = textFile (ls ++ [last]) := by simp [textFile]
    rw [hfile, fgetsLines_textFile, List.map_append]
    · rfl
    · intro l hl
      rcases List.mem_append.mp hl with hl | hl
      · exact hshort l hl
      · rw [List.mem_singleton.mp hl]
        exact ⟨hnl, Nat.succ_lt_succ (Nat.lt_succ_of_lt hlen)⟩
  have hempty : Alike rx (⟨GateAs.empty, lev⟩ : Reader).gate (⟨GateAs.empty, lev'⟩ : Reader).gate :=
    .refl rx GateAs.empty
  have hbefore := foldlM_sameOutcome aToIPAddr (ls.map (· ++ ['\n'])) hempty
  have hsingle : ∀ (st : Reader) (line : Name), [line].foldlM (readLine rx aToIPAddr) st =
      readLine rx aToIPAddr st line := by
    intro st line
    rw [List.foldlM_cons]
    exact bind_pure _
  rw [readPvList_eq_map, readPvList_eq_map, readPvList_eq_map, hlines, hlines',
    fgetsLines_textFile hshort, List.foldlM_append, List.foldlM_append]
  cases hst : (ls.map (· ++ ['\n'])).foldlM (readLine rx aToIPAddr) ⟨GateAs.empty, lev⟩ with
  | error f =>
      cases hst' : (ls.map (· ++ ['\n'])).foldlM (readLine rx aToIPAddr) ⟨GateAs.empty, lev'⟩ with
      | error f' =>
          rw [hst, hst'] at hbefore
          refine iff_of_true hbefore fun g hg => ?_
          cases hg
      | ok st' =>
          rw [hst, hst'] at hbefore
          exact hbefore.elim
  | ok st =>
      cases hst' : (ls.map (· ++ ['\n'])).foldlM (readLine rx aToIPAddr) ⟨GateAs.empty, lev'⟩ with
      | error f' =>
          rw [hst, hst'] at hbefore
          exact hbefore.elim
      | ok st' =>
          rw [hst, hst'] at hbefore
          have hlast := lastLine_iff aToIPAddr hbefore hnil
          rw [← hsingle, ← hsingle] at hlast
          refine hlast.trans ⟨fun h g hg => ?_, fun h => h st.gate rfl⟩
          cases hg
          exact h

/-- A last line that denies a pattern to hosts. -/
theorem finalNewline_hosts :
    let nowhere : Resolver := fun _ _ => none
    let ls := ["x ALLOW".toList]
    let last := "y DENY FROM h".toList
    SameOutcome literal (readPvList literal nowhere 0 (textFile ls ++ last))
      (readPvList literal nowhere 1 (textFile ls ++ last ++ ['\n'])) := by
  intro nowhere ls last
  refine (finalNewline_iff literal nowhere 0 1 ls last (by decide) (by decide) (by decide)
    (by decide)).mpr fun g _ => Or.inr (Or.inr (Or.inl ?_))
  exact ⟨['y'], ['D', 'E', 'N', 'Y'], "FROM h".toList, rfl, rfl, by decide⟩

/-- **A rule lost with the newline**: without it, the last line `x DENY` denies nothing. -/
theorem finalNewline_lost :
    let nowhere : Resolver := fun _ _ => none
    ¬ SameOutcome literal (readPvList literal nowhere 0 "x DENY".toList)
      (readPvList literal nowhere 0 "x DENY\n".toList) := by
  intro nowhere h
  have hread : readPvList literal nowhere 0 "x DENY".toList = .ok GateAs.empty := rfl
  have hread' : readPvList literal nowhere 0 "x DENY\n".toList =
      .ok { GateAs.empty with denyList := [GateAsEntry.ofPattern ['x']] } := rfl
  rw [hread, hread'] at h
  exact List.cons_ne_nil _ _ h.denyList

end GateAs

end CaNameserver
