import CaNameserver.DenyScope

/-!
# What a line enters

The rules of `GateAsSpec` leave out the alias and the group of an entry.  Here they are kept, and
only the level is left out, which may come from an earlier line or from nowhere.  This is what two
readings of a file are compared by.

## Entering

`entered` reads off a line what its second pass enters: nothing, an entry of the deny list,
entries for some hosts, an entry of the allow list, or an order.  `Enters` says that the lists
have got exactly that at their heads, levels aside, and `secondPass_enters` that they have.

## Comparing

`Alike` says of two readings that they have the same order and the same entries, levels aside, and
so answer every question in the same way: entries are matched by their patterns, and answer with
their alias and group (`Alike.of_entries`).  If the same lines are read into readings that are
alike they stay alike, and what has been entered into readings that were alike can be told apart
from the result (`Enters.alike_iff`): they are alike afterwards exactly if the same has been
entered, or an order that was in force already (`Agrees`).
-/

namespace CaNameserver

open CStr Fallible

namespace GateAs

variable {rx : Regex}

/-! ## What a line enters -/

/-- The pattern, the alias and the group of an entry. -/
abbrev EntryText := Name × Option Name × Option Name

/-- An entry without its level. -/
def text (e : GateAsEntry) : EntryText := (e.pattern, e.realname, e.group)

/-- What the second pass over a line enters. -/
inductive Entered where
  | nothing
  | order (denyWins : Bool)
  | deny (pattern : Name) (hosts : List Name)
  | allow (pattern : Name) (rname : Option Name) (asg : Name)

/-- The alias and the group that an allowing command enters. -/
def allowArgs (cmd r : Name) : Option (Option Name × Name) :=
  if isAlias cmd then
    match tokens blanks r with
    | [] => none
    | rname :: ts => some (some rname, ts.headD defaultGroup)
  else if isAllow cmd then some (none, (tokens blanks r).headD defaultGroup)
  else none

/-- What a command enters. -/
def cmdEntered (rx : Regex) (pattern cmd r : Name) : Entered :=
  if isDeny cmd then
    if rx.compiles pattern then .deny pattern (tokens hostDelim (afterFrom r)) else .nothing
  else if isOrder cmd then (orderArg r).elim .nothing .order
  else (allowArgs cmd r).elim .nothing fun args =>
    if rx.compiles pattern then .allow pattern args.1 args.2 else .nothing

/-- What a line enters. -/
def entered (rx : Regex) (line : Name) : Entered :=
  match patternCmd line with
  | none => .nothing
  | some (pattern, cmd, r) => cmdEntered rx pattern cmd r

namespace Entered

/-- The order in force afterwards. -/
def inForce (order : EvalOrder) : Entered → EvalOrder
  | .order o => EvalOrder.ofDenyWins o
  | _ => order

/-- The new entries of the deny list. -/
def denied : Entered → List EntryText
  | deny pattern [] => [(pattern, none, none)]
  | _ => []

/-- The new entries for a host. -/
def deniedFrom (host : Name) : Entered → List EntryText
  | deny pattern hosts => List.replicate (hosts.count host) (pattern, none, none)
  | _ => []

/-- The new entries of the allow list. -/
def allowed : Entered → List EntryText
  | allow pattern rname asg => [(pattern, rname, some asg)]
  | _ => []

/-- Entering the one or the other comes to the same where `order` is in force. -/
structure Agrees (order : EvalOrder) (x y : Entered) : Prop where
  inForce : y.inForce order = x.inForce order
  denied : y.denied = x.denied
  deniedFrom : ∀ host, y.deniedFrom host = x.deniedFrom host
  allowed : y.allowed = x.allowed

theorem Agrees.refl (order : EvalOrder) (x : Entered) : x.Agrees order x :=
  ⟨rfl, rfl, fun _ => rfl, rfl⟩

end Entered

/-- `x` has been entered. -/
structure Enters (x : Entered) (g g' : GateAs) : Prop where
  evalOrder : g'.evalOrder = x.inForce g.evalOrder
  denyList : g'.denyList.map text = x.denied ++ g.denyList.map text
  denyFrom : ∀ host, (g'.denyFromTable host).map (·.map text) =
    if x.deniedFrom host = [] then (g.denyFromTable host).map (·.map text)
    else some (x.deniedFrom host ++ ((g.denyFromTable host).getD []).map text)
  allowList : g'.allowList.map text = x.allowed ++ g.allowList.map text

theorem Enters.nothing (g : GateAs) : Enters .nothing g g where
  evalOrder := rfl
  denyList := rfl
  denyFrom _ := (if_pos rfl).symm
  allowList := rfl

theorem enters_readAllow {st : Reader} {pattern cmd : Name} (hcmd : isAllow cmd = true)
    (rname : Option Name) (r : Name) :
    Enters (if rx.compiles pattern then
        .allow pattern rname ((tokens blanks r).headD defaultGroup) else .nothing)
      st.gate (readAllow rx st pattern cmd rname r).gate := by
  obtain ⟨lev, hst⟩ : ∃ lev, readAllow rx st pattern cmd rname r =
      let e : GateAsEntry := ⟨pattern, rname, some ((tokens blanks r).headD defaultGroup), lev⟩
      ⟨{ st.gate with allowList := init rx e st.gate.allowList }, lev⟩ := by
    rw [readAllow]
    cases hs : strtok blanks r with
    | none =>
        rw [strtok_eq_none_iff.mp hs]
        exact ⟨1, if_pos hcmd⟩
    | some p =>
        obtain ⟨asg, r'⟩ := p
        rw [tokens_of_strtok hs]
        dsimp only
        cases strtok blanks r' with
        | none => exact ⟨_, if_pos hcmd⟩
        | some q => exact ⟨_, if_pos hcmd⟩
  rw [hst]
  dsimp only
  rw [init]
  by_cases hp : rx.compiles pattern = true
  · rw [if_pos hp, if_pos hp]
    exact ⟨rfl, rfl, fun _ => (if_pos rfl).symm, rfl⟩
  · rw [if_neg hp, if_neg hp]
    exact .nothing st.gate

theorem enters_deny (rx : Regex) (pattern : Name) (st : Reader) (hosts : List Name) :
    Enters (if rx.compiles pattern then .deny pattern hosts else .nothing) st.gate
      (deny rx pattern st hosts).gate := by
  by_cases hp : rx.compiles pattern = true
  · rw [if_pos hp]
    cases hosts with
    | nil =>
        have hinit : init rx (GateAsEntry.ofPattern pattern) st.gate.denyList =
            GateAsEntry.ofPattern pattern :: st.gate.denyList := if_pos hp
        rw [deny, hinit]
        exact ⟨rfl, rfl, fun _ => (if_pos rfl).symm, rfl⟩
    | cons hname hosts =>
        have h := scoped_foldl hp (hname :: hosts) st
        refine ⟨h.evalOrder, congrArg _ h.denyList, fun host => ?_, congrArg _ h.allowList⟩
        by_cases hmem : host ∈ hname :: hosts
        · have hcount : (hname :: hosts).count host ≠ 0 := fun hzero =>
            List.count_eq_zero.mp hzero hmem
          rw [deny, h.denied host hmem, Entered.deniedFrom, if_neg (by simpa using hcount)]
          simp [text, GateAsEntry.ofPattern]
        · rw [deny, h.others host hmem, Entered.deniedFrom, List.count_eq_zero.mpr hmem,
            List.replicate_zero, if_pos rfl]
  · rw [if_neg hp, deny_of_not_compiles (Bool.eq_false_iff.mpr hp)]
    exact .nothing st.gate

/-- **The second pass** enters what the line says. -/
theorem secondPass_enters (rx : Regex) (st : Reader) (line : Name) :
    Enters (entered rx line) st.gate (secondPass rx st line).gate := by
  rw [entered, secondPass]
  cases patternCmd line with
  | none => exact .nothing st.gate
  | some x =>
      obtain ⟨pattern, cmd, r⟩ := x
      dsimp only
      rw [cmdEntered]
      by_cases hdeny : isDeny cmd = true
      · rw [if_pos hdeny, if_pos hdeny]
        have h := enters_deny rx pattern st (tokens hostDelim (afterFrom r))
        cases hhosts : tokens hostDelim (afterFrom r) with
        | nil =>
            rw [hhosts] at h
            exact h
        | cons hname hosts =>
            rw [hhosts] at h
            exact h
      · rw [if_neg hdeny, if_neg hdeny]
        by_cases horder : isOrder cmd = true
        · rw [if_pos horder, if_pos horder, readOrder_eq]
          cases orderArg r with
          | none => exact .nothing st.gate
          | some o => exact ⟨rfl, rfl, fun _ => (if_pos rfl).symm, rfl⟩
        · rw [if_neg horder, if_neg horder, allowArgs]
          by_cases halias : isAlias cmd = true
          · rw [if_pos halias, if_pos halias]
            cases hs : strtok blanks r with
            | none =>
                rw [strtok_eq_none_iff.mp hs]
                exact .nothing st.gate
            | some y =>
                obtain ⟨rname, r'⟩ := y
                rw [tokens_of_strtok hs]
                exact enters_readAllow (isAllow_of_isAlias halias) (some rname) r'
          · rw [if_neg halias, if_neg halias]
            by_cases hallow : isAllow cmd = true
            · rw [if_pos hallow]
              exact enters_readAllow hallow none r
            · rw [if_neg hallow]
              have hst : readAllow rx st pattern cmd none r = ⟨st.gate, _⟩ := if_neg hallow
              rw [hst]
              exact .nothing st.gate

/-! ## Two readings -/

/-- Two readings agree: on the order, on the entries up to their levels, and so on every
question. -/
structure Alike (rx : Regex) (g g' : GateAs) : Prop where
  evalOrder : g'.evalOrder = g.evalOrder
  denyList : g'.denyList.map text = g.denyList.map text
  denyFrom : ∀ host, (g'.denyFromTable host).map (·.map text) =
    (g.denyFromTable host).map (·.map text)
  allowList : g'.allowList.map text = g.allowList.map text
  answer : ∀ pv host, (g'.findEntry rx pv host).map text = (g.findEntry rx pv host).map text

theorem Alike.refl (rx : Regex) (g : GateAs) : Alike rx g g :=
  ⟨rfl, rfl, fun _ => rfl, rfl, fun _ _ => rfl⟩

theorem findEntryInList_text (rx : Regex) (pv : Name) {list list' : List GateAsEntry}
    (h : list'.map text = list.map text) :
    (findEntryInList rx pv list').map text = (findEntryInList rx pv list).map text := by
  have htext : ∀ list : List GateAsEntry, (findEntryInList rx pv list).map text =
      (list.map text).find? fun t => decide (rx.matchEnd t.1 pv = some pv.length) := by
    intro list
    rw [findEntryInList, List.find?_map]
    rfl
  rw [htext, htext, h]

/-- Entries answer a question without their levels. -/
theorem Alike.of_entries {g g' : GateAs} (horder : g'.evalOrder = g.evalOrder)
    (hdeny : g'.denyList.map text = g.denyList.map text)
    (hfrom : ∀ host, (g'.denyFromTable host).map (·.map text) =
      (g.denyFromTable host).map (·.map text))
    (hallow : g'.allowList.map text = g.allowList.map text) : Alike rx g g' := by
  refine ⟨horder, hdeny, hfrom, hallow, fun pv host => ?_⟩
  have hsome : ∀ {list list' : List GateAsEntry}, list'.map text = list.map text →
      ((findEntryInList rx pv list').isSome ↔ (findEntryInList rx pv list).isSome) := by
    intro list list' h
    rw [← Option.isSome_map, ← Option.isSome_map (x := findEntryInList rx pv list),
      findEntryInList_text rx pv h]
  have hhost : ((host.bind g'.denyFromTable).bind (findEntryInList rx pv)).isSome ↔
      ((host.bind g.denyFromTable).bind (findEntryInList rx pv)).isSome := by
    cases host with
    | none => rfl
    | some x =>
        have hx := hfrom x
        rw [Option.bind_some, Option.bind_some]
        cases hl : g.denyFromTable x with
        | none =>
            rw [hl, Option.map_none, Option.map_eq_none_iff] at hx
            rw [hx]
        | some list =>
            rw [hl, Option.map_some, Option.map_eq_some_iff] at hx
            obtain ⟨list', hl', htext⟩ := hx
            rw [hl', Option.bind_some, Option.bind_some]
            exact hsome htext
  rw [findEntry, findEntry]
  simp only [hhost, horder, hsome hdeny]
  split_ifs
  · rfl
  · rfl
  · exact findEntryInList_text rx pv hallow

theorem map_getD_text (o : Option (List GateAsEntry)) :
    (o.getD []).map text = (o.map (·.map text)).getD [] := by
  cases o with
  | none => rfl
  | some list => rfl

theorem Enters.denyFrom_getD {x : Entered} {g g' : GateAs} (h : Enters x g g') (host : Name) :
    ((g'.denyFromTable host).getD []).map text =
      x.deniedFrom host ++ ((g.denyFromTable host).getD []).map text := by
  rw [map_getD_text, h.denyFrom]
  split_ifs with hnil
  · rw [hnil, List.nil_append, map_getD_text]
  · rfl

/-- **Entries are told apart.**  What has been entered into readings that were alike leaves them
alike exactly if it agrees. -/
theorem Enters.alike_iff {x y : Entered} {g₁ g₁' g₂ g₂' : GateAs} (h₁ : Enters x g₁ g₁')
    (h₂ : Enters y g₂ g₂') (h : Alike rx g₁ g₂) :
    Alike rx g₁' g₂' ↔ x.Agrees g₁.evalOrder y := by
  have hold : ∀ host, ((g₂.denyFromTable host).getD []).map text =
      ((g₁.denyFromTable host).getD []).map text := by
    intro host
    rw [map_getD_text, map_getD_text, h.denyFrom]
  constructor
  · intro h'
    refine ⟨?_, ?_, fun host => ?_, ?_⟩
    · rw [← h₁.evalOrder, ← h'.evalOrder, h₂.evalOrder, h.evalOrder]
    · have hlist := h'.denyList
      rw [h₁.denyList, h₂.denyList, h.denyList] at hlist
      exact List.append_cancel_right hlist
    · have hlist : ((g₂'.denyFromTable host).getD []).map text =
          ((g₁'.denyFromTable host).getD []).map text := by
        rw [map_getD_text, map_getD_text, h'.denyFrom]
      rw [h₁.denyFrom_getD, h₂.denyFrom_getD, hold] at hlist
      exact List.append_cancel_right hlist
    · have hlist := h'.allowList
      rw [h₁.allowList, h₂.allowList, h.allowList] at hlist
      exact List.append_cancel_right hlist
  · intro hagrees
    refine .of_entries ?_ ?_ (fun host => ?_) ?_
    · rw [h₁.evalOrder, h₂.evalOrder, h.evalOrder, hagrees.inForce]
    · rw [h₁.denyList, h₂.denyList, h.denyList, hagrees.denied]
    · rw [h₁.denyFrom, h₂.denyFrom, h.denyFrom, hagrees.deniedFrom, hold]
    · rw [h₁.allowList, h₂.allowList, h.allowList, hagrees.allowed]

end GateAs

end CaNameserver
