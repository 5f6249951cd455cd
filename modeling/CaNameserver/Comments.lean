import CaNameserver.AccessOrder

/-!
# Comments

The first pass reads a line without its comment, and the second pass reads the copy, comment
included.  A comment is harmless after most commands, for the words they do not expect are not
looked at.  This module says for every file whether its comments matter.

## Where a comment does harm

* After a `DENY` for everyone, the words of the comment are taken for hosts: the rule is lost, and
  there are rules for these hosts instead (`denyCommented`).
* Where it follows the command without a blank, the command becomes an unknown one, and its rule
  is lost (`runsIntoCmd`).
* Where it follows the second word of an `ORDER` in this way, the order is lost
  (`orderCommented`).
* After an `ALIAS` without a real name, it supplies one, and a rule is won (`aliasCommented`).

Nowhere else: `CommentEffect` is the relation between the rules that a line gives with and without
its comment, with one constructor for each of these and one for equality, and
`lineRules_uncommented` proves it of every line.

## Cutting a comment off

The proof follows the two passes.  Where the second pass reads the addresses that the first one
has put in, the comment has been cut off before (`lineRules_uncommented_deny`).  Where it reads
the copy, either the comment runs into the command, or the command is the same in both
(`uncommented_cuts`) and the comment is among the words of its arguments (`commentEffect_apart`).
A `#` behind a terminator is no comment at all.

## Files

A file and the file without its comments are compared by what they decide (`SameAccess`): the same
names are allowed to the same clients, and the lists hold the same patterns.  The order of
evaluation that is in force at the end may be another one as long as it decides nothing.
`HarmlessComments` is the condition: no `DENY` for everyone has a comment, the rules that are lost
otherwise are those that are won, and the order is the same or there is no name that it would
decide about.

* `comments_harmless_iff`: a file and the file without its comments are the same exactly then.
* `comments_change_access`: a comment that lets everybody in.
-/

namespace CaNameserver

open CStr Fallible AccessRules

namespace GateAs

variable {rx : Regex} {aToIPAddr : Resolver}

/-! ## What a comment does to a line -/

/-- What the second pass reads of a line, unless it is a `DENY` with hosts. -/
def copyOf (l : Name) : Name := (cstr (l ++ ['\n'])).dropLast

/-- The line without its comment. -/
def uncommented (l : Name) : Name := cutAt '#' l

theorem not_mem_uncommented (l : Name) : '#' ∉ uncommented l := not_mem_cutAt _ _

/-- The pattern, the command and the rest of a line whose comment is in the copy. -/
def commentCmd (l : Name) : Option (Name × Name × Name) :=
  if (copyOf l).contains '#' then patternCmd (uncommented l) else none

/-- The comment runs into the command. -/
def runsIntoCmd (l : Name) : Bool := (patternCmd (copyOf l)).any fun x => x.2.1.contains '#'

/-- A `DENY` for everyone with a comment. -/
def denyCommented (rx : Regex) (l : Name) : Option Name :=
  (commentCmd l).bind fun (pattern, cmd, r) =>
    if isDeny cmd ∧ (tokens hostDelim (afterFrom r)).isEmpty ∧ rx.compiles pattern then some pattern
    else none

/-- An `ALLOW`, `PATTERN` or `PV` into which a comment runs. -/
def allowCommented (rx : Regex) (l : Name) : Option Name :=
  (commentCmd l).bind fun (pattern, cmd, _) =>
    if isAllow cmd ∧ ¬ isAlias cmd ∧ runsIntoCmd l ∧ rx.compiles pattern then some pattern
    else none

/-- An `ALIAS` with a comment in the place of the real name. -/
def aliasCommented (rx : Regex) (l : Name) : Option Name :=
  (commentCmd l).bind fun (pattern, cmd, r) =>
    if isAlias cmd ∧ (tokens blanks r).isEmpty ∧ ¬ runsIntoCmd l ∧ rx.compiles pattern then
      some pattern
    else none

/-- An `ORDER` whose words are valid without its comment, and not with it. -/
def orderCommented (l : Name) : Bool :=
  (commentCmd l).any fun (_, cmd, r) => isOrder cmd && (orderArg r).isSome &&
    ((patternCmd (copyOf l)).all fun x => (orderArg x.2.2).isNone)

/-- The effect of a comment on the rules of a line: those it has with the comment, and those it
would have without. -/
inductive CommentEffect (rx : Regex) (l : Name) : List AccessRule → List AccessRule → Prop
  | kept {rules : List AccessRule} (hd : denyCommented rx l = none) (ha : allowCommented rx l = none)
      (hl : aliasCommented rx l = none) (ho : orderCommented l = false) :
      CommentEffect rx l rules rules
  | denyLost {rules : List AccessRule} {p : Name} (hd : denyCommented rx l = some p)
      (ha : allowCommented rx l = none) (hl : aliasCommented rx l = none)
      (ho : orderCommented l = false) (hfrom : ∀ r ∈ rules, r.isDenyFrom = true) :
      CommentEffect rx l rules [.deny p]
  | allowLost {p : Name} (hd : denyCommented rx l = none) (ha : allowCommented rx l = some p)
      (hl : aliasCommented rx l = none) (ho : orderCommented l = false) :
      CommentEffect rx l [] [.allow p]
  | allowWon {p : Name} (hd : denyCommented rx l = none) (ha : allowCommented rx l = none)
      (hl : aliasCommented rx l = some p) (ho : orderCommented l = false) :
      CommentEffect rx l [.allow p] []
  | orderLost {o : Bool} (hd : denyCommented rx l = none) (ha : allowCommented rx l = none)
      (hl : aliasCommented rx l = none) (ho : orderCommented l = true) :
      CommentEffect rx l [] [.order o]

variable {l : Name} {rules rules' : List AccessRule}

/-- A comment turns a `DENY` for everyone into rules for its words. -/
theorem CommentEffect.deny?_eq (h : CommentEffect rx l rules rules') :
    rules'.filterMap Rule.deny? = rules.filterMap Rule.deny? ++ (denyCommented rx l).toList := by
  cases h with
  | kept hd => simp [hd]
  | denyLost hd _ _ _ hfrom =>
      have hnone : rules.filterMap Rule.deny? = [] :=
        List.filterMap_eq_nil_iff.mpr fun r hr => Rule.deny?_of_isDenyFrom (hfrom r hr)
      simp [hd, hnone, Rule.deny?]
  | allowLost hd => simp [hd, List.filterMap_cons, Rule.deny?]
  | allowWon hd => simp [hd, List.filterMap_cons, Rule.deny?]
  | orderLost hd => simp [hd, List.filterMap_cons, Rule.deny?]

theorem CommentEffect.allow?_perm (h : CommentEffect rx l rules rules') :
    (rules'.filterMap Rule.allow? ++ (aliasCommented rx l).toList).Perm
      (rules.filterMap Rule.allow? ++ (allowCommented rx l).toList) := by
  cases h with
  | kept _ ha hl => simp [ha, hl]
  | denyLost _ ha hl _ hfrom =>
      have hnone : rules.filterMap Rule.allow? = [] :=
        List.filterMap_eq_nil_iff.mpr fun r hr => Rule.allow?_of_isDenyFrom (hfrom r hr)
      simp [ha, hl, hnone, List.filterMap_cons, Rule.allow?]
  | allowLost _ ha hl => simp [ha, hl, Rule.allow?]
  | allowWon _ ha hl => simp [ha, hl, Rule.allow?]
  | orderLost _ ha hl => simp [ha, hl, List.filterMap_cons, Rule.allow?]

theorem CommentEffect.denyFrom?_eq (h : CommentEffect rx l rules rules')
    (hd : denyCommented rx l = Option.none) (host : Name) :
    rules'.filterMap (Rule.denyFrom? host) = rules.filterMap (Rule.denyFrom? host) := by
  cases h with
  | kept => rfl
  | denyLost hd' =>
      rw [hd] at hd'
      cases hd'
  | allowLost => rfl
  | allowWon => rfl
  | orderLost => rfl

/-- A comment only ever takes an order away. -/
theorem CommentEffect.order?_eq (h : CommentEffect rx l rules rules') :
    rules.filterMap Rule.order? =
      if orderCommented l = true then [] else rules'.filterMap Rule.order? := by
  cases h with
  | kept _ _ _ ho => simp [ho]
  | denyLost _ _ _ ho hfrom =>
      have hnone : rules.filterMap Rule.order? = [] :=
        List.filterMap_eq_nil_iff.mpr fun r hr => Rule.order?_of_isDenyFrom (hfrom r hr)
      simp [ho, hnone, List.filterMap_cons, Rule.order?]
  | allowLost _ _ _ ho => simp [ho, List.filterMap_cons, Rule.order?]
  | allowWon _ _ _ ho => simp [ho, List.filterMap_cons, Rule.order?]
  | orderLost _ _ _ ho => simp [ho]

/-! ## Words of a comment -/

theorem tokens_append_mark {delim : Name} (h : '#' ∉ delim) (r x : Name) :
    tokens delim (r ++ '#' :: x) ≠ [] := by
  obtain ⟨t, r', hs, -⟩ := strtok_append_cons h r x
  rw [tokens_of_strtok hs]
  exact List.cons_ne_nil _ _

/-- There is always a host in a comment. -/
theorem tokens_afterFrom_append_mark (r x : Name) :
    tokens hostDelim (afterFrom (r ++ '#' :: x)) ≠ [] := by
  obtain ⟨t, r', hs, ht⟩ := strtok_append_cons (show '#' ∉ hostDelim by decide) r x
  rw [afterFrom, hs]
  dsimp only
  split_ifs with hfrom
  · rcases ht with ht | ⟨r'', -, rfl⟩
    · rw [strcasecmp_of_mem ht (by decide)] at hfrom
      cases hfrom
    · exact tokens_append_mark (by decide) r'' x
  · exact tokens_append_mark (by decide) r x

theorem orderArg_of_strtok {r t₁ r₁ t₂ r₂ : Name} (h₁ : strtok hostDelim r = some (t₁, r₁))
    (h₂ : strtok hostDelim r₁ = some (t₂, r₂)) : orderArg r =
      if strcasecmp t₁ ['A', 'L', 'L', 'O', 'W'] ∧ strcasecmp t₂ ['D', 'E', 'N', 'Y'] then some true
      else if strcasecmp t₁ ['D', 'E', 'N', 'Y'] ∧ strcasecmp t₂ ['A', 'L', 'L', 'O', 'W'] then
        some false
      else none := by
  rw [orderArg, tokens_of_strtok h₁, tokens_of_strtok h₂]

theorem orderArg_eq_none {r t₁ r₁ t₂ r₂ : Name} (h₁ : strtok hostDelim r = some (t₁, r₁))
    (h₂ : strtok hostDelim r₁ = some (t₂, r₂)) (h : '#' ∈ t₁ ∨ '#' ∈ t₂) : orderArg r = none := by
  rw [orderArg_of_strtok h₁ h₂]
  rcases h with h | h
  · simp [strcasecmp_of_mem (b := ['A', 'L', 'L', 'O', 'W']) h (by decide),
      strcasecmp_of_mem (b := ['D', 'E', 'N', 'Y']) h (by decide)]
  · simp [strcasecmp_of_mem (b := ['A', 'L', 'L', 'O', 'W']) h (by decide),
      strcasecmp_of_mem (b := ['D', 'E', 'N', 'Y']) h (by decide)]

/-- An order that is set with the comment is set without it. -/
theorem orderArg_append_mark {r x : Name} {o : Bool} (h : orderArg (r ++ '#' :: x) = some o) :
    orderArg r = some o := by
  obtain ⟨t₁, r₁, hs₁, h₁⟩ := strtok_append_cons (show '#' ∉ hostDelim by decide) r x
  cases hs₂ : strtok hostDelim r₁ with
  | none =>
      rw [orderArg, tokens_of_strtok hs₁, strtok_eq_none_iff.mp hs₂] at h
      cases h
  | some y =>
      obtain ⟨t₂, r₂⟩ := y
      rcases h₁ with hmark | ⟨r₁', hr, rfl⟩
      · rw [orderArg_eq_none hs₁ hs₂ (Or.inl hmark)] at h
        cases h
      obtain ⟨t, r', hs, ht⟩ := strtok_append_cons (show '#' ∉ hostDelim by decide) r₁' x
      rw [hs₂, Option.some.injEq, Prod.mk.injEq] at hs
      obtain ⟨rfl, rfl⟩ := hs
      rcases ht with hmark | ⟨r₂', hr', -⟩
      · rw [orderArg_eq_none hs₁ hs₂ (Or.inr hmark)] at h
        cases h
      · rw [orderArg_of_strtok hs₁ hs₂] at h
        rw [orderArg_of_strtok hr hr', h]

/-! ## The effect of a comment -/

/-- A command that is an `ALIAS` is no other command; `DENY` and `ORDER` allow nothing. -/
theorem isAllow_of_isDeny {cmd : Name} (h : isDeny cmd = true) : isAllow cmd = false := by
  rw [isAllow, isAlias, strcasecmp_of_ne h (by decide), strcasecmp_of_ne h (by decide),
    strcasecmp_of_ne h (by decide), strcasecmp_of_ne h (by decide)]
  rfl

theorem isAllow_of_isOrder {cmd : Name} (h : isOrder cmd = true) : isAllow cmd = false := by
  rw [isAllow, isAlias, strcasecmp_of_ne h (by decide), strcasecmp_of_ne h (by decide),
    strcasecmp_of_ne h (by decide), strcasecmp_of_ne h (by decide)]
  rfl

theorem isOrder_of_isDeny {cmd : Name} (h : isDeny cmd = true) : isOrder cmd = false :=
  strcasecmp_of_ne h (by decide)

theorem isAlias_of_isDeny {cmd : Name} (h : isDeny cmd = true) : isAlias cmd = false :=
  strcasecmp_of_ne h (by decide)

theorem isAlias_of_isOrder {cmd : Name} (h : isOrder cmd = true) : isAlias cmd = false :=
  strcasecmp_of_ne h (by decide)

section Effect

variable {pattern cmd r r' : Name}

/-- A comment that runs into the command loses what the command enters. -/
theorem commentEffect_runsInto (hc : commentCmd l = some (pattern, cmd, []))
    (hrun : runsIntoCmd l = true) :
    CommentEffect rx l [] (cmdRules rx pattern cmd []) := by
  have hlias : aliasCommented rx l = none := by simp [aliasCommented, hc, hrun]
  have hoc : orderCommented l = false := by simp [orderCommented, hc, orderArg, tokens, tokensFrom]
  cases hdeny : isDeny cmd with
  | true =>
      have hallow : allowCommented rx l = none := by
        simp [allowCommented, hc, isAllow_of_isDeny hdeny]
      rw [cmdRules_deny hdeny]
      cases hp : rx.compiles pattern with
      | true =>
          exact .denyLost (by simp [denyCommented, hc, hdeny, hp, afterFrom, strtok, skip, tokens,
            tokensFrom]) hallow hlias hoc (by simp)
      | false => exact .kept (by simp [denyCommented, hc, hp]) hallow hlias hoc
  | false =>
      have hdc : denyCommented rx l = none := by simp [denyCommented, hc, hdeny]
      cases horder : isOrder cmd with
      | true =>
          rw [cmdRules_order horder]
          exact .kept hdc (by simp [allowCommented, hc, isAllow_of_isOrder horder]) hlias hoc
      | false =>
          rw [cmdRules_other hdeny horder]
          cases hl : isAlias cmd with
          | true =>
              rw [if_neg (by simp [entersAllow, hl, tokens, tokensFrom])]
              exact .kept hdc (by simp [allowCommented, hc, hl]) hlias hoc
          | false =>
              by_cases hallow : rx.compiles pattern = true ∧ isAllow cmd = true
              · rw [if_pos (by simpa [entersAllow, hl] using hallow)]
                exact .allowLost hdc (by simp [allowCommented, hc, hl, hrun, hallow]) hlias hoc
              · rw [if_neg (by simpa [entersAllow, hl] using hallow)]
                refine .kept hdc ?_ hlias hoc
                simp only [allowCommented, hc, Option.bind_some, ite_eq_right_iff]
                rintro ⟨ha, -, -, hp⟩
                exact absurd ⟨hp, ha⟩ hallow

theorem isDenyFrom_denyRules {hosts : List Name} (h : hosts ≠ []) {x : AccessRule}
    (hx : x ∈ denyRules pattern hosts) : x.isDenyFrom = true := by
  obtain ⟨hname, hosts, rfl⟩ := List.exists_cons_of_ne_nil h
  obtain ⟨_, -, rfl⟩ := List.mem_map.mp hx
  rfl

/-- A comment that stands apart is a list of hosts to a `DENY`, a real name to an `ALIAS`, and no
word of an `ORDER` unless it runs into one. -/
theorem commentEffect_apart {x : Name} (hc : commentCmd l = some (pattern, cmd, r))
    (hcopy : patternCmd (copyOf l) = some (pattern, cmd, r ++ '#' :: x)) (hmark : '#' ∉ cmd)
    (hhosts : isDeny cmd = true → tokens hostDelim (afterFrom r) = []) :
    CommentEffect rx l (cmdRules rx pattern cmd (r ++ '#' :: x)) (cmdRules rx pattern cmd r) := by
  have hrun : runsIntoCmd l = false := by simp [runsIntoCmd, hcopy, hmark]
  have hallow : allowCommented rx l = none := by simp [allowCommented, hc, hrun]
  cases hdeny : isDeny cmd with
  | true =>
      have hlias : aliasCommented rx l = none := by
        simp [aliasCommented, hc, isAlias_of_isDeny hdeny]
      have horder : orderCommented l = false := by
        simp [orderCommented, hc, isOrder_of_isDeny hdeny]
      rw [cmdRules_deny hdeny, cmdRules_deny hdeny, hhosts hdeny]
      cases hp : rx.compiles pattern with
      | true =>
          exact .denyLost (by simp [denyCommented, hc, hdeny, hhosts hdeny, hp]) hallow hlias horder
            fun _ => isDenyFrom_denyRules (tokens_afterFrom_append_mark r x)
      | false => exact .kept (by simp [denyCommented, hc, hp]) hallow hlias horder
  | false =>
      have hdc : denyCommented rx l = none := by simp [denyCommented, hc, hdeny]
      cases horder : isOrder cmd with
      | true =>
          have hlias : aliasCommented rx l = none := by
            simp [aliasCommented, hc, isAlias_of_isOrder horder]
          rw [cmdRules_order horder, cmdRules_order horder]
          cases hx : orderArg (r ++ '#' :: x) with
          | some o =>
              rw [orderArg_append_mark hx]
              exact .kept hdc hallow hlias (by simp [orderCommented, hc, hcopy, hx])
          | none =>
              cases hr : orderArg r with
              | none => exact .kept hdc hallow hlias (by simp [orderCommented, hc, hr])
              | some o =>
                  exact .orderLost hdc hallow hlias
                    (by simp [orderCommented, hc, hcopy, hx, hr, horder])
      | false =>
          have hoc : orderCommented l = false := by simp [orderCommented, hc, horder]
          rw [cmdRules_other hdeny horder, cmdRules_other hdeny horder]
          by_cases hwon : isAlias cmd = true ∧ tokens blanks r = [] ∧ rx.compiles pattern = true
          · obtain ⟨hl, hr, hp⟩ := hwon
            have htokens := tokens_append_mark (show '#' ∉ blanks by decide) r x
            rw [if_pos ⟨hp, by simp [entersAllow, hl, htokens]⟩,
              if_neg (by simp [entersAllow, hl, hr])]
            exact .allowWon hdc hallow (by simp [aliasCommented, hc, hl, hr, hrun, hp]) hoc
          · have hlias : aliasCommented rx l = none := by
              simp only [aliasCommented, hc, Option.bind_some, ite_eq_right_iff]
              rintro ⟨hl, hr, -, hp⟩
              exact absurd ⟨hl, by simpa using hr, hp⟩ hwon
            have hsame : rx.compiles pattern = true ∧ entersAllow cmd (r ++ '#' :: x) = true ↔
                rx.compiles pattern = true ∧ entersAllow cmd r = true := by
              refine and_congr_right fun hp => ?_
              rw [entersAllow, entersAllow]
              split_ifs with hl
              · have hr : tokens blanks r ≠ [] := fun hr => hwon ⟨hl, hr, hp⟩
                simp [tokens_append_mark (show '#' ∉ blanks by decide) r x, hr]
              · rfl
            simp only [hsame]
            exact .kept hdc hallow hlias hoc

end Effect

/-! ## Cutting a comment off -/

/-- A comment that a terminator hides is no comment. -/
theorem cstr_uncommented (h : '#' ∉ cstr (l ++ ['\n'])) :
    cstr (uncommented l ++ ['\n']) = cstr (l ++ ['\n']) := by
  by_cases hnul : '\x00' ∈ l
  · obtain ⟨k, rest, rfl, hk⟩ := List.eq_append_cons_of_mem hnul
    have hcstr : ∀ x : Name, cstr (k ++ '\x00' :: x) = k := by
      intro x
      rw [show cstr _ = cutAt '\x00' _ from rfl, cutAt_append_of_not_mem hk]
      simp [cutAt]
    rw [List.append_assoc, List.cons_append, hcstr] at h
    rw [uncommented, cutAt_append_of_not_mem h, show cutAt '#' ('\x00' :: rest) =
      '\x00' :: cutAt '#' rest by simp [cutAt]]
    rw [List.append_assoc, List.cons_append, List.append_assoc, List.cons_append, hcstr, hcstr]
  · have hline : cstr (l ++ ['\n']) = l ++ ['\n'] := cutAt_eq_self (by simp [hnul])
    rw [hline] at h
    rw [uncommented, cutAt_eq_self fun hl => h (List.mem_append_left _ hl)]

theorem cstr_of_mark (h : '#' ∈ cstr (l ++ ['\n'])) :
    ∃ rest, cstr (l ++ ['\n']) = uncommented l ++ '#' :: rest ∧ '\x00' ∉ uncommented l := by
  obtain ⟨rest, hrest⟩ : cstr (l ++ ['\n']) <+: l ++ ['\n'] := List.takeWhile_prefix _
  have hl : '#' ∈ l := by
    have hmem : '#' ∈ l ++ ['\n'] := by
      rw [← hrest]
      exact List.mem_append_left _ h
    simpa using hmem
  have hcut : cutAt '#' (cstr (l ++ ['\n'])) = uncommented l := by
    have hstep : cutAt '#' (cstr (l ++ ['\n']) ++ rest) = _ := cutAt_append_of_mem h
    rw [← hstep, hrest, cutAt_append_of_mem hl, uncommented]
  have hnul : '\x00' ∉ uncommented l := by
    rw [← hcut]
    exact fun hx => not_mem_cutAt '\x00' _ (mem_of_mem_cutAt hx)
  rcases eq_cutAt_append '#' (cstr (l ++ ['\n'])) with hself | ⟨rest', hrest'⟩
  · rw [← hself] at h
    exact absurd h (not_mem_cutAt _ _)
  · rw [hcut] at hrest'
    exact ⟨rest', hrest', hnul⟩

/-- The line a comment has been cut off. -/
theorem cstr_newline {b : Name} (h : '\x00' ∉ b) : cstr (b ++ ['\n']) = b ++ ['\n'] :=
  cutAt_eq_self (by simp [h])

theorem firstPass_congr {line line' : Name} (h : cstr line = cstr line') :
    firstPass aToIPAddr line = firstPass aToIPAddr line' := by
  simp only [firstPass, h]

/-- The addresses of the hosts are put in the same place. -/
theorem spliceHosts_newline {b r copy : Name}
    (h : skip hostDelim (afterFrom r) ≠ []) :
    spliceHosts aToIPAddr b (b ++ ['\n']) (afterFrom (r ++ ['\n'])) =
      spliceHosts aToIPAddr (b ++ copy) b (afterFrom r) := by
  have hdelim : '\n' ∈ hostDelim := by decide
  rw [spliceHosts, spliceHosts, afterFrom_append_delim hdelim h, skip_append_of_ne_nil h,
    tokens_append_delim hdelim, List.length_append, List.length_append,
    Nat.add_sub_add_right, List.take_append_of_le_length (Nat.sub_le _ _)]

theorem commentCmd_of_copy (h : '#' ∉ copyOf l) : commentCmd l = none := by
  simp [commentCmd, h]

theorem commentEffect_of_none (h : commentCmd l = none) : CommentEffect rx l rules rules :=
  .kept (by simp [denyCommented, h]) (by simp [allowCommented, h]) (by simp [aliasCommented, h])
    (by simp [orderCommented, h])

/-- A comment after the hosts of a `DENY` has none. -/
theorem commentEffect_hosts {pattern cmd r : Name}
    (hcmd : patternCmd (uncommented l) = some (pattern, cmd, r)) (hdeny : isDeny cmd = true)
    (hhosts : tokens hostDelim (afterFrom r) ≠ []) : CommentEffect rx l rules rules := by
  by_cases hmark : (copyOf l).contains '#' = true
  · have hc : commentCmd l = some (pattern, cmd, r) := by rw [commentCmd, if_pos hmark, hcmd]
    exact .kept (by simp [denyCommented, hc, hhosts])
      (by simp [allowCommented, hc, isAllow_of_isDeny hdeny])
      (by simp [aliasCommented, hc, isAlias_of_isDeny hdeny])
      (by simp [orderCommented, hc, isOrder_of_isDeny hdeny])
  · exact commentEffect_of_none (by rw [commentCmd, if_neg hmark])

/-- The effect of a comment where the second pass reads the copy. -/
theorem commentEffect_copy {pattern cmd r rest : Name}
    (hline : cstr (l ++ ['\n']) = uncommented l ++ '#' :: rest)
    (hcmd : patternCmd (uncommented l) = some (pattern, cmd, r))
    (hhosts : isDeny cmd = true → tokens hostDelim (afterFrom r) = []) :
    CommentEffect rx l (secondPassRules rx (copyOf l)) (cmdRules rx pattern cmd r) := by
  have hself : copyOf l = uncommented l →
      CommentEffect rx l (secondPassRules rx (copyOf l)) (cmdRules rx pattern cmd r) := by
    intro heq
    have hrules : secondPassRules rx (copyOf l) = cmdRules rx pattern cmd r := by
      rw [heq, secondPassRules, hcmd]
    rw [hrules]
    refine commentEffect_of_none (commentCmd_of_copy ?_)
    rw [heq]
    exact not_mem_uncommented l
  have hcopy : copyOf l = uncommented l ++ ('#' :: rest).dropLast := by
    rw [copyOf, hline, List.dropLast_append_of_ne_nil (List.cons_ne_nil _ _)]
  cases rest with
  | nil => exact hself (by simpa using hcopy)
  | cons d rest =>
      rw [List.dropLast_cons_of_ne_nil (List.cons_ne_nil _ _)] at hcopy
      have hc : commentCmd l = some (pattern, cmd, r) := by
        rw [commentCmd, if_pos (by simp [hcopy]), hcmd]
      obtain ⟨head, -, hblank, hrun, ⟨hb, rfl⟩ | ⟨c, hcb, hb⟩⟩ := patternCmd_cases hcmd
      · obtain ⟨cmd', r', hcmd', hmark⟩ := hrun '#' (by decide) (d :: rest).dropLast
        rw [← hb, ← hcopy] at hcmd'
        have hrules : secondPassRules rx (copyOf l) = [] := by
          rw [secondPassRules, hcmd']
          exact cmdRules_of_mark hmark
        rw [hrules]
        exact commentEffect_runsInto hc (by simp [runsIntoCmd, hcmd', hmark])
      · have hcmd' : patternCmd (copyOf l) =
            some (pattern, cmd, r ++ '#' :: (d :: rest).dropLast) := by
          rw [hcopy, hb, List.append_assoc, List.cons_append]
          exact hblank c hcb _
        have hmark : '#' ∉ cmd := by
          obtain ⟨r₁, hs₁, hs₂⟩ := patternCmd_eq_some_iff.mp hcmd
          intro hmem
          have htoken : cmd ∈ tokens blanks (uncommented l) := by
            rw [tokens_of_strtok hs₁, tokens_of_strtok hs₂]
            simp
          exact not_mem_uncommented l (mem_of_mem_tokens htoken hmem)
        have hrules : secondPassRules rx (copyOf l) =
            cmdRules rx pattern cmd (r ++ '#' :: (d :: rest).dropLast) := by
          rw [secondPassRules, hcmd']
        rw [hrules]
        exact commentEffect_apart hc hcmd' hmark hhosts

/-- A line whose comment is read, as it is and without the comment. -/
theorem uncommented_cuts (hvisible : '#' ∈ cstr (l ++ ['\n'])) : ∃ rest,
    cstr (l ++ ['\n']) = uncommented l ++ '#' :: rest ∧
    cutAt '#' (cstr (l ++ ['\n'])) = uncommented l ∧
    cstr (uncommented l ++ ['\n']) = uncommented l ++ ['\n'] ∧
    cutAt '#' (cstr (uncommented l ++ ['\n'])) = uncommented l ++ ['\n'] := by
  obtain ⟨rest, hline, hnul⟩ := cstr_of_mark hvisible
  have hline' := cstr_newline hnul
  refine ⟨rest, hline, ?_, hline', ?_⟩
  · rw [hline, cutAt_append_of_not_mem (not_mem_uncommented l)]
    simp [cutAt]
  · rw [hline']
    exact cutAt_eq_self (by simpa using not_mem_uncommented l)

theorem lineRules_uncommented_none (hvisible : '#' ∈ cstr (l ++ ['\n']))
    (hcmd : patternCmd (uncommented l) = none) :
    Fits aToIPAddr (uncommented l) ∧
      CommentEffect rx l (lineRules rx aToIPAddr (l ++ ['\n']))
        (lineRules rx aToIPAddr (uncommented l ++ ['\n'])) := by
  obtain ⟨rest, -, hcut, hline', hcut'⟩ := uncommented_cuts hvisible
  have hcmd' : patternCmd (cutAt '#' (cstr (uncommented l ++ ['\n']))) = none := by
    rw [hcut', patternCmd_eq_none_iff, tokens_append_delim (by decide)]
    exact patternCmd_eq_none_iff.mp hcmd
  have hnone : patternCmd (cutAt '#' (cstr (l ++ ['\n']))) = none := by rw [hcut, hcmd]
  rw [lineRules_of_none hnone, lineRules_of_none hcmd']
  refine ⟨⟨none, ?_⟩, commentEffect_of_none ?_⟩
  · rw [firstPass, if_neg (by simp [hline'])]
    simp only [hcmd']
  · rw [commentCmd]
    split_ifs
    · exact hcmd
    · rfl

/-- The first pass reads the hosts of a `DENY` up to the comment. -/
theorem lineRules_uncommented_deny {pattern cmd r : Name} (hok : Fits aToIPAddr l)
    (hvisible : '#' ∈ cstr (l ++ ['\n']))
    (hcmd : patternCmd (uncommented l) = some (pattern, cmd, r))
    (hhosts : isDeny cmd = true ∧ skip hostDelim (afterFrom r) ≠ []) :
    Fits aToIPAddr (uncommented l) ∧
      CommentEffect rx l (lineRules rx aToIPAddr (l ++ ['\n']))
        (lineRules rx aToIPAddr (uncommented l ++ ['\n'])) := by
  obtain ⟨rest, hline, hcut, hline', hcut'⟩ := uncommented_cuts hvisible
  obtain ⟨r', hnewline, htokens, hr⟩ := patternCmd_newline hcmd
  have hsome : patternCmd (cutAt '#' (cstr (l ++ ['\n']))) = some (pattern, cmd, r) := by
    rw [hcut, hcmd]
  have hsome' : patternCmd (cutAt '#' (cstr (uncommented l ++ ['\n']))) =
      some (pattern, cmd, r') := by
    rw [hcut', hnewline]
  have hhosts' : isDeny cmd = true ∧ skip hostDelim (afterFrom r') ≠ [] := by
    rwa [Ne, skip_eq_nil_iff, htokens, ← skip_eq_nil_iff]
  have hne : r ≠ [] := by
    rintro rfl
    exact hhosts.2 rfl
  have hcopy' : (cstr (uncommented l ++ ['\n'])).dropLast = uncommented l := by
    rw [hline', List.dropLast_concat]
  have hfirst : firstPass aToIPAddr (uncommented l ++ ['\n']) =
      firstPass aToIPAddr (l ++ ['\n']) := by
    rw [firstPass_deny hsome hhosts, firstPass_deny hsome' hhosts', hcopy', hcut', hcut, hr hne,
      hline, List.dropLast_append_of_ne_nil (List.cons_ne_nil _ _),
      spliceHosts_newline hhosts.2]
  obtain ⟨o, ho⟩ := hok
  refine ⟨⟨o, hfirst.trans ho⟩, ?_⟩
  rw [lineRules_deny hsome hhosts ho, lineRules_deny hsome' hhosts' (hfirst.trans ho), htokens]
  exact commentEffect_hosts hcmd hhosts.1 fun h => hhosts.2 (skip_eq_nil_iff.mpr h)

/-- Any other line is copied for the second pass, which reads the comment as well. -/
theorem lineRules_uncommented_copy {pattern cmd r : Name} (hvisible : '#' ∈ cstr (l ++ ['\n']))
    (hcmd : patternCmd (uncommented l) = some (pattern, cmd, r))
    (hhosts : ¬ (isDeny cmd = true ∧ skip hostDelim (afterFrom r) ≠ [])) :
    Fits aToIPAddr (uncommented l) ∧
      CommentEffect rx l (lineRules rx aToIPAddr (l ++ ['\n']))
        (lineRules rx aToIPAddr (uncommented l ++ ['\n'])) := by
  obtain ⟨rest, hline, hcut, hline', hcut'⟩ := uncommented_cuts hvisible
  obtain ⟨r', hnewline, htokens, -⟩ := patternCmd_newline hcmd
  have hsome : patternCmd (cutAt '#' (cstr (l ++ ['\n']))) = some (pattern, cmd, r) := by
    rw [hcut, hcmd]
  have hsome' : patternCmd (cutAt '#' (cstr (uncommented l ++ ['\n']))) =
      some (pattern, cmd, r') := by
    rw [hcut', hnewline]
  have hhosts' : ¬ (isDeny cmd = true ∧ skip hostDelim (afterFrom r') ≠ []) := by
    rwa [Ne, skip_eq_nil_iff, htokens, ← skip_eq_nil_iff]
  have hcopy' : (cstr (uncommented l ++ ['\n'])).dropLast = uncommented l := by
    rw [hline', List.dropLast_concat]
  have hrules : secondPassRules rx (uncommented l) = cmdRules rx pattern cmd r := by
    rw [secondPassRules, hcmd]
  refine ⟨⟨_, firstPass_copy hsome' hhosts'⟩, ?_⟩
  rw [lineRules_copy hsome hhosts, lineRules_copy hsome' hhosts', hcopy', hrules]
  refine commentEffect_copy hline hcmd fun hdeny => ?_
  rw [← skip_eq_nil_iff]
  by_contra hne
  exact hhosts ⟨hdeny, hne⟩

/-- **What cutting the comment off a line does**: the line is still read, and the rules it gives
are the same, or differ as `CommentEffect` says. -/
theorem lineRules_uncommented (hok : Fits aToIPAddr l) :
    Fits aToIPAddr (uncommented l) ∧
      CommentEffect rx l (lineRules rx aToIPAddr (l ++ ['\n']))
        (lineRules rx aToIPAddr (uncommented l ++ ['\n'])) := by
  by_cases hvisible : '#' ∈ cstr (l ++ ['\n'])
  · cases hcmd : patternCmd (uncommented l) with
    | none => exact lineRules_uncommented_none hvisible hcmd
    | some y =>
        by_cases hhosts : isDeny y.2.1 = true ∧ skip hostDelim (afterFrom y.2.2) ≠ []
        · exact lineRules_uncommented_deny hok hvisible hcmd hhosts
        · exact lineRules_uncommented_copy hvisible hcmd hhosts
  · have hsame := cstr_uncommented hvisible
    have hfirst : firstPass aToIPAddr (uncommented l ++ ['\n']) =
        firstPass aToIPAddr (l ++ ['\n']) := firstPass_congr hsame
    rw [Fits, hfirst, lineRules, lineRules, hfirst]
    refine ⟨hok, commentEffect_of_none (commentCmd_of_copy fun h => hvisible ?_)⟩
    exact List.dropLast_subset _ h

/-! ## Files -/

/-- The rules of a file without its comments. -/
def uncommentedRules (rx : Regex) (aToIPAddr : Resolver) (ls : List Name) : List AccessRule :=
  ls.flatMap fun l => lineRules rx aToIPAddr (uncommented l ++ ['\n'])

/-- Two rule bases allow the same searches, and their lists hold the same patterns, each of them
as often. -/
structure SameAccess (rx : Regex) (g g' : GateAs) : Prop where
  decision : ∀ pv host, (g.findEntry rx pv host).isSome = (g'.findEntry rx pv host).isSome
  denyList : (g.denyList.map (·.pattern)).Perm (g'.denyList.map (·.pattern))
  allowList : (g.allowList.map (·.pattern)).Perm (g'.allowList.map (·.pattern))
  denyFrom : ∀ host, (((g.denyFromTable host).getD []).map (·.pattern)).Perm
    (((g'.denyFromTable host).getD []).map (·.pattern))

/-- The condition under which comments do not matter. -/
structure HarmlessComments (rx : Regex) (aToIPAddr : Resolver) (ls : List Name) : Prop where
  /-- no `DENY` for everyone has a comment -/
  deny : ∀ l ∈ ls, denyCommented rx l = none
  /-- the rules lost where a comment runs into an `ALLOW` are those won where it gives an `ALIAS`
  its real name -/
  allow : (ls.filterMap (allowCommented rx)).Perm (ls.filterMap (aliasCommented rx))
  /-- the `ORDER` lines that a comment runs into may be left out, or do not matter -/
  order : denyWins (uncommentedRules rx aToIPAddr (ls.filter (!orderCommented ·))) =
      denyWins (uncommentedRules rx aToIPAddr ls) ∨
    ∀ pv, ¬ Conflict (uncommentedRules rx aToIPAddr ls) (Matches rx pv)

variable {ls : List Name} {g g' : GateAs}

/-- The lists hold the same patterns exactly if the rules do. -/
theorem Holds.perm_iff (h : Holds g rules) (h' : Holds g' rules') :
    ((g.denyList.map (·.pattern)).Perm (g'.denyList.map (·.pattern)) ↔
      (rules.filterMap Rule.deny?).Perm (rules'.filterMap Rule.deny?)) ∧
    ((g.allowList.map (·.pattern)).Perm (g'.allowList.map (·.pattern)) ↔
      (rules.filterMap Rule.allow?).Perm (rules'.filterMap Rule.allow?)) ∧
    ∀ host, (((g.denyFromTable host).getD []).map (·.pattern)).Perm
        (((g'.denyFromTable host).getD []).map (·.pattern)) ↔
      (rules.filterMap (Rule.denyFrom? host)).Perm (rules'.filterMap (Rule.denyFrom? host)) := by
  have hrev : ∀ x y : List Name, x.reverse.Perm y.reverse ↔ x.Perm y := fun x y =>
    ⟨fun hp => ((List.reverse_perm x).symm.trans hp).trans (List.reverse_perm y),
      fun hp => ((List.reverse_perm x).trans hp).trans (List.reverse_perm y).symm⟩
  refine ⟨?_, ?_, fun host => ?_⟩
  · rw [h.denyList, h'.denyList, hrev]
  · rw [h.allowList, h'.allowList, hrev]
  · rw [h.denyFrom, h'.denyFrom, hrev]

theorem Holds.decision_iff (rx : Regex) (h : Holds g rules) (h' : Holds g' rules') :
    (∀ pv host, (g.findEntry rx pv host).isSome = (g'.findEntry rx pv host).isSome) ↔
      ∀ pv host, Allows rules (Matches rx pv) host ↔ Allows rules' (Matches rx pv) host := by
  simp only [Bool.eq_iff_iff, h.findEntry_isSome_iff, h'.findEntry_isSome_iff]

section File

variable (heffect : ∀ l ∈ ls, CommentEffect rx l (lineRules rx aToIPAddr (l ++ ['\n']))
  (lineRules rx aToIPAddr (uncommented l ++ ['\n'])))

include heffect

theorem deny?_uncommentedRules : ((uncommentedRules rx aToIPAddr ls).filterMap Rule.deny?).Perm
    ((ls.flatMap fun l => lineRules rx aToIPAddr (l ++ ['\n'])).filterMap Rule.deny? ++
      ls.filterMap (denyCommented rx)) := by
  have h := perm_flatMap_filterMap (u := fun _ => none) (v := denyCommented rx)
    (k := Rule.deny?) (l := ls)
    (f := fun l => lineRules rx aToIPAddr (uncommented l ++ ['\n']))
    (g := fun l => lineRules rx aToIPAddr (l ++ ['\n']))
    fun l hl => by rw [(heffect l hl).deny?_eq, Option.toList_none, List.append_nil]
  simpa [uncommentedRules] using h

theorem allow?_uncommentedRules : ((uncommentedRules rx aToIPAddr ls).filterMap Rule.allow? ++
      ls.filterMap (aliasCommented rx)).Perm
    ((ls.flatMap fun l => lineRules rx aToIPAddr (l ++ ['\n'])).filterMap Rule.allow? ++
      ls.filterMap (allowCommented rx)) :=
  perm_flatMap_filterMap fun l hl => (heffect l hl).allow?_perm

theorem denyFrom?_uncommentedRules (hd : ∀ l ∈ ls, denyCommented rx l = none) (host : Name) :
    (uncommentedRules rx aToIPAddr ls).filterMap (Rule.denyFrom? host) =
      (ls.flatMap fun l => lineRules rx aToIPAddr (l ++ ['\n'])).filterMap
        (Rule.denyFrom? host) := by
  rw [uncommentedRules, List.filterMap_flatMap, List.filterMap_flatMap]
  exact List.flatMap_congr fun l hl => (heffect l hl).denyFrom?_eq (hd l hl) host

theorem order?_uncommentedRules :
    denyWins (ls.flatMap fun l => lineRules rx aToIPAddr (l ++ ['\n'])) =
      denyWins (uncommentedRules rx aToIPAddr (ls.filter (!orderCommented ·))) := by
  have horders : (ls.flatMap fun l => lineRules rx aToIPAddr (l ++ ['\n'])).filterMap Rule.order? =
      (uncommentedRules rx aToIPAddr (ls.filter (!orderCommented ·))).filterMap Rule.order? := by
    induction ls with
    | nil => rfl
    | cons l ls ih =>
        have ih' := ih fun l' hl' => heffect l' (List.mem_cons_of_mem l hl')
        rw [List.flatMap_cons, List.filterMap_append, ih',
          (heffect l (List.mem_cons_self ..)).order?_eq, List.filter_cons]
        cases horder : orderCommented l with
        | true => simp
        | false => simp [uncommentedRules]
  rw [denyWins, denyWins, horders]

end File

/-- **When comments do not matter**: a file is read as it is without its comments exactly if no
rule is lost or won through a comment and the order in force is not. -/
theorem comments_harmless_iff (rx : Regex) (aToIPAddr : Resolver) (lev lev' : ℤ) (ls : List Name)
    (hls : ∀ l ∈ ls, '\n' ∉ l ∧ l.length < 1023) (g : GateAs)
    (hg : readPvList rx aToIPAddr lev (textFile ls) = .ok g) :
    ∃ g', readPvList rx aToIPAddr lev' (textFile (ls.map uncommented)) = .ok g' ∧
      (SameAccess rx g g' ↔ HarmlessComments rx aToIPAddr ls) := by
  have hshort : ∀ l ∈ ls, '\n' ∉ l ∧ l.length + 1 < gateMaxPvlistLineLength := fun l hl =>
    ⟨(hls l hl).1, Nat.add_lt_add_right (hls l hl).2 1⟩
  have hshort' : ∀ l ∈ ls.map uncommented, '\n' ∉ l ∧ l.length + 1 < gateMaxPvlistLineLength := by
    intro l' hl'
    obtain ⟨l, hl, rfl⟩ := List.mem_map.mp hl'
    obtain ⟨hnl, hlen⟩ := hshort l hl
    have hle : (uncommented l).length ≤ l.length :=
      List.Sublist.length_le (List.takeWhile_sublist _)
    exact ⟨fun h => hnl (mem_of_mem_cutAt h), by omega⟩
  have hcut : ∀ l ∈ ls, Fits aToIPAddr (uncommented l) ∧
      CommentEffect rx l (lineRules rx aToIPAddr (l ++ ['\n']))
        (lineRules rx aToIPAddr (uncommented l ++ ['\n'])) := fun l hl =>
    lineRules_uncommented ((readPvList_textFile_ok_iff hshort).mp ⟨g, hg⟩ l hl)
  have heffect := fun l hl => (hcut l hl).2
  obtain ⟨g', hg'⟩ : ∃ g',
      readPvList rx aToIPAddr lev' (textFile (ls.map uncommented)) = .ok g' := by
    refine (readPvList_textFile_ok_iff hshort').mpr fun l' hl' => ?_
    obtain ⟨l, hl, rfl⟩ := List.mem_map.mp hl'
    exact (hcut l hl).1
  have hrules := readPvList_textFile_holds hshort hg
  have hrules' : Holds g' (uncommentedRules rx aToIPAddr ls) := by
    have h := readPvList_textFile_holds hshort' hg'
    rwa [List.flatMap_map] at h
  obtain ⟨hdeny, hallow, hfrom⟩ := hrules.perm_iff hrules'
  have hdenySum := deny?_uncommentedRules heffect
  have hallowSum := allow?_uncommentedRules heffect
  have hdecision := hrules.decision_iff rx hrules'
  refine ⟨g', hg', ?_, ?_⟩
  · intro h
    have hd := hdeny.mp h.denyList
    have ha := hallow.mp h.allowList
    have hnil : ls.filterMap (denyCommented rx) = [] := by
      have hlen := (hd.trans hdenySum).length_eq
      rw [List.length_append] at hlen
      exact List.eq_nil_of_length_eq_zero (by omega)
    refine ⟨List.filterMap_eq_nil_iff.mp hnil, ?_, ?_⟩
    · exact ((List.perm_append_left_iff _).mp ((ha.append_right _).trans hallowSum)).symm
    · have hmem := mem_iff_of_perm hd.symm ha.symm fun host => ((hfrom host).mp (h.denyFrom host)).symm
      rw [← order?_uncommentedRules heffect, or_iff_not_imp_left]
      intro hne pv
      exact ((forall_allows_iff hmem).mp (hdecision.mp h.decision pv)).resolve_left hne
  · intro h
    have hnil : ls.filterMap (denyCommented rx) = [] := List.filterMap_eq_nil_iff.mpr h.deny
    have hd := hdenySum.symm
    rw [hnil, List.append_nil] at hd
    have ha := ((List.perm_append_right_iff _).mp (hallowSum.trans (h.allow.append_left _))).symm
    have hf := fun host => List.Perm.of_eq (denyFrom?_uncommentedRules heffect h.deny host).symm
    have hmem := mem_iff_of_perm hd.symm ha.symm fun host => (hf host).symm
    refine ⟨hdecision.mpr fun pv => (forall_allows_iff hmem).mpr ?_, hdeny.mpr hd, hallow.mpr ha,
      fun host => (hfrom host).mpr (hf host)⟩
    rw [order?_uncommentedRules heffect]
    exact h.order.imp_right fun hno => hno pv

/-- A comment of its own line, one after a host and one after an `ALLOW`. -/
theorem comments_harmless_threeLines :
    let ls := ["# rules", "z DENY FROM h # not h", "z ALLOW # the others"].map String.toList
    ∃ g g', readPvList literal (fun _ _ => some ⟨afInet, 0, InAddr.loopback⟩) 0 (textFile ls) = .ok g ∧
      readPvList literal (fun _ _ => some ⟨afInet, 0, InAddr.loopback⟩) 0
        (textFile (ls.map uncommented)) = .ok g' ∧ SameAccess literal g g' := by
  intro ls
  have hread : (readPvList literal (fun _ _ => some ⟨afInet, 0, InAddr.loopback⟩) 0
      (textFile ls)).isOk = true := by
    set_option maxRecDepth 10000 in decide
  cases hg : readPvList literal (fun _ _ => some ⟨afInet, 0, InAddr.loopback⟩) 0 (textFile ls) with
  | error f =>
      rw [hg] at hread
      cases hread
  | ok g =>
      obtain ⟨g', hg', hsame⟩ := comments_harmless_iff literal _ 0 0 ls (by decide) g hg
      refine ⟨g, g', rfl, hg', hsame.mpr ⟨by decide, by decide, Or.inl ?_⟩⟩
      set_option maxRecDepth 10000 in decide

/-- The words of the comment are taken for hosts, and nobody else is denied. -/
theorem comments_change_access : ¬ ∀ (rx : Regex) (aToIPAddr : Resolver) (lev lev' : ℤ)
    (ls : List Name), (∀ l ∈ ls, '\n' ∉ l ∧ l.length < 1023) →
    ∀ g, readPvList rx aToIPAddr lev (textFile ls) = .ok g →
      ∃ g', readPvList rx aToIPAddr lev' (textFile (ls.map uncommented)) = .ok g' ∧
        SameAccess rx g g' := by
  intro h
  have hrun : (readPvList literal (fun _ _ => none) 0
        (textFile ["z ALLOW".toList, "z DENY # all".toList])).toOption.any (fun g =>
      (g.findEntry literal ['z'] none).isSome) = true ∧
      (readPvList literal (fun _ _ => none) 0 (textFile (["z ALLOW".toList,
        "z DENY # all".toList].map uncommented))).toOption.any (fun g =>
      (g.findEntry literal ['z'] none).isNone) = true := by
    set_option maxRecDepth 10000 in decide
  obtain ⟨hwith, hwithout⟩ := hrun
  obtain ⟨g, hg, hfound⟩ := (Option.any_eq_true _ _).mp hwith
  obtain ⟨g₁, hg₁, hdenied⟩ := (Option.any_eq_true _ _).mp hwithout
  cases hread : readPvList literal (fun _ _ => none) 0
      (textFile ["z ALLOW".toList, "z DENY # all".toList]) with
  | error f =>
      rw [hread] at hg
      cases hg
  | ok g₀ =>
      rw [hread] at hg
      cases hg
      obtain ⟨g', hg', hsame⟩ := h literal _ 0 0 _ (by decide) g hread
      rw [hg'] at hg₁
      cases hg₁
      rw [hsame.decision, Option.isSome_iff_ne_none] at hfound
      exact hfound (Option.isNone_iff_eq_none.mp hdenied)

end GateAs

end CaNameserver
