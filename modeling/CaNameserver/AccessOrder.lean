import CaNameserver.Runs
import CaNameserver.TwoPasses

/-!
# The order of the rules

What a pvlist file allows does not depend on the order of its lines, except for the `ORDER` lines
among themselves, nor on lines being repeated.  Rules are matched in the reverse order of their
insertion, and the parser hands `lev` on from one line to the next; neither reaches a decision.

* `order?_lineRules`: only `ORDER` lines have an order to set.
* `access_rearranged`: a rearranged file is read, and decides every search as the original does.
-/

namespace CaNameserver

open CStr Fallible AccessRules

namespace GateAs

variable {rx : Regex} {aToIPAddr : Resolver}

/-- The command of a line is `ORDER`. -/
def isOrderLine (l : Name) : Bool :=
  (patternCmd (cutAt '#' (cstr (l ++ ['\n'])))).any fun x => isOrder x.2.1

/-- The line passes the first pass: its hosts replaced by their addresses, it fits the buffer. -/
def Fits (aToIPAddr : Resolver) (l : Name) : Prop :=
  ∃ o, firstPass aToIPAddr (l ++ ['\n']) = .ok o

theorem order?_denyRules {pattern : Name} {hosts : List Name} {r : AccessRule}
    (h : r ∈ denyRules pattern hosts) : r.order? = none := by
  cases hosts with
  | nil =>
      obtain rfl := List.mem_singleton.mp h
      rfl
  | cons hname hosts =>
      obtain ⟨_, -, rfl⟩ := List.mem_map.mp h
      rfl

theorem order?_cmdRules {pattern cmd r : Name} {x : AccessRule} (hcmd : isOrder cmd = false)
    (h : x ∈ cmdRules rx pattern cmd r) : x.order? = none := by
  rw [cmdRules, if_neg (show ¬ isOrder cmd = true by simp [hcmd])] at h
  split_ifs at h with hdeny hp hallow
  · exact order?_denyRules h
  · cases h
  · obtain rfl := List.mem_singleton.mp h
    rfl
  · cases h

/-- A `#` in a command makes it unknown. -/
theorem cmdRules_of_mark {pattern cmd r : Name} (h : '#' ∈ cmd) :
    cmdRules rx pattern cmd r = [] := by
  have hdeny : isDeny cmd = false := strcasecmp_of_mem h (by decide)
  have horder : isOrder cmd = false := strcasecmp_of_mem h (by decide)
  have halias : isAlias cmd = false := strcasecmp_of_mem h (by decide)
  have hallow : isAllow cmd = false := by
    rw [isAllow, halias, strcasecmp_of_mem h (by decide), strcasecmp_of_mem h (by decide),
      strcasecmp_of_mem h (by decide)]
    rfl
  simp [cmdRules, hdeny, horder, entersAllow, halias, hallow]

/-- An `ORDER` command without arguments sets nothing. -/
theorem order?_cmdRules_nil {pattern cmd : Name} {x : AccessRule}
    (h : x ∈ cmdRules rx pattern cmd []) : x.order? = none := by
  by_cases horder : isOrder cmd = true
  · rw [cmdRules] at h
    split_ifs at h with hdeny hp
    · exact order?_denyRules h
    · cases h
    · cases h
  · exact order?_cmdRules (by simpa using horder) h

/-- **Only `ORDER` lines set an order.**  A line of the second pass has the command of the first
one, unless a comment has run into it or its last letter is gone with the last of the line. -/
theorem order?_lineRules {l : Name} (h : isOrderLine l = false) {x : AccessRule}
    (hx : x ∈ lineRules rx aToIPAddr (l ++ ['\n'])) : x.order? = none := by
  rw [isOrderLine] at h
  generalize l ++ ['\n'] = line at h hx
  cases hcmd : patternCmd (cutAt '#' (cstr line)) with
  | none =>
      rw [lineRules_of_none hcmd] at hx
      cases hx
  | some y =>
      obtain ⟨pattern, cmd, r⟩ := y
      rw [hcmd] at h
      replace h : isOrder cmd = false := h
      by_cases hhosts : isDeny cmd ∧ skip hostDelim (afterFrom r) ≠ []
      · cases ho : firstPass aToIPAddr line with
        | error f =>
            rw [lineRules, ho] at hx
            cases hx
        | ok o =>
            rw [lineRules_deny hcmd hhosts ho] at hx
            split_ifs at hx with hp
            · exact order?_denyRules hx
            · cases hx
      · rw [lineRules_copy hcmd hhosts] at hx
        cases hcopy : patternCmd (cstr line).dropLast with
        | none =>
            rw [secondPassRules, hcopy] at hx
            cases hx
        | some z =>
            obtain ⟨pattern', cmd', r'⟩ := z
            rw [secondPassRules, hcopy] at hx
            replace hx : x ∈ cmdRules rx pattern' cmd' r' := hx
            rcases patternCmd_copy hcmd hcopy with rfl | hmark | rfl
            · exact order?_cmdRules h hx
            · rw [cmdRules_of_mark hmark] at hx
              cases hx
            · exact order?_cmdRules_nil hx

/-- **Rules may be reordered and repeated**: the file is read all the same, the deny-from list is
in use or not as before, and every search is decided as before. -/
theorem access_rearranged (rx : Regex) (aToIPAddr : Resolver) (lev lev' : ℤ) (ls ls' : List Name)
    (hls : ∀ l ∈ ls, '\n' ∉ l ∧ l.length < 1023 ∧ Fits aToIPAddr l)
    (h : Rearranged isOrderLine ls ls') :
    ∃ g g', readPvList rx aToIPAddr lev (textFile ls) = .ok g ∧
      readPvList rx aToIPAddr lev' (textFile ls') = .ok g' ∧
      g'.denyFromListUsed = g.denyFromListUsed ∧
      ∀ pv host, (g'.findEntry rx pv host).isSome = (g.findEntry rx pv host).isSome := by
  have hshort : ∀ l ∈ ls, '\n' ∉ l ∧ l.length + 1 < gateMaxPvlistLineLength := fun l hl =>
    ⟨(hls l hl).1, Nat.add_lt_add_right (hls l hl).2.1 1⟩
  have hshort' : ∀ l ∈ ls', '\n' ∉ l ∧ l.length + 1 < gateMaxPvlistLineLength := fun l hl =>
    hshort l ((h.mem_iff l).mp hl)
  obtain ⟨g, hg⟩ : ∃ g, readPvList rx aToIPAddr lev (textFile ls) = .ok g :=
    (readPvList_textFile_ok_iff hshort).mpr fun l hl => (hls l hl).2.2
  obtain ⟨g', hg'⟩ : ∃ g', readPvList rx aToIPAddr lev' (textFile ls') = .ok g' :=
    (readPvList_textFile_ok_iff hshort').mpr fun l hl => (hls l ((h.mem_iff l).mp hl)).2.2
  have hrules := readPvList_textFile_holds hshort hg
  have hrules' := readPvList_textFile_holds hshort' hg'
  refine ⟨g, g', hg, hg', ?_, fun pv host => ?_⟩
  · rw [hrules.used, hrules'.used, Bool.eq_iff_iff, List.any_eq_true, List.any_eq_true]
    simp only [List.mem_flatMap, h.mem_iff]
  · rw [Bool.eq_iff_iff, hrules.findEntry_isSome_iff, hrules'.findEntry_isSome_iff]
    exact h.allows_iff fun l _ hl r hr => order?_lineRules hl hr

/-- Three rules, and the same with the allowing one moved up and repeated. -/
theorem access_rearranged_threeRules :
    let ls := ["z DENY FROM h", "z ORDER DENY,ALLOW", "z ALLOW"].map String.toList
    let ls' := ["z ALLOW", "z DENY FROM h", "z ALLOW", "z ORDER DENY,ALLOW"].map String.toList
    let atLoopback : Resolver := fun _ _ => some ⟨afInet, 0, InAddr.loopback⟩
    ∃ g g', readPvList literal atLoopback 0 (textFile ls) = .ok g ∧
      readPvList literal atLoopback 1 (textFile ls') = .ok g' ∧
      g'.denyFromListUsed = g.denyFromListUsed ∧
      ∀ pv host, (g'.findEntry literal pv host).isSome = (g.findEntry literal pv host).isSome := by
  intro ls ls' atLoopback
  have hmem : "z ALLOW".toList ∈ ls := by decide
  have hls : ∀ l ∈ ls, '\n' ∉ l ∧ l.length < 1023 ∧ Fits atLoopback l := by
    simp only [ls, List.map_cons, List.map_nil, List.forall_mem_cons]
    exact ⟨⟨by decide, by decide, _, rfl⟩, ⟨by decide, by decide, _, rfl⟩,
      ⟨by decide, by decide, _, rfl⟩, by simp⟩
  refine access_rearranged literal atLoopback 0 1 ls ls' hls ?_
  exact .trans (.duplicate hmem (by decide)) (.perm (by decide) (by decide))

end GateAs

end CaNameserver
