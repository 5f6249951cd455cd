import CaNameserver.TwoPasses
import CaNameserver.Runs
import Mathlib.Data.List.Induction

/-!
# What one `DENY` line with hosts changes

The first pass rewrites such a line: its hosts are replaced by the addresses of those that
resolve, and the second pass reads the result from scratch.  As long as an address is left the
pattern is denied to the addresses and to nobody else.  When none is left the second pass reads a
`DENY` without hosts, which denies the pattern to everybody.

## Scope

`Scoped` says what the line ought to have done: its pattern has been entered once for each of the
hosts that resolve, at the heads of their lists; the deny list, the allow list, the order and the
level are as before, and so is what any other host is answered, because the rules of a host are
looked up under this host alone (`findEntry_congr`).  Rules for hosts that are entered one after
the other are scoped to them (`scoped_foldl`).

## The line

`resolved` has the addresses and `splicedLength` the length of the rewritten line, both read off
the line.  The rewritten line has an outcome exactly if it fits its buffer, and then
`readLine_deny` says what has been read, for any number of addresses.

* `deny_scoped_iff`: the line has an outcome and is scoped exactly if a host resolves and the
  pattern compiles, or neither, and the rewritten line fits its buffer.
* `deny_unresolved`: a rule whose only host does not resolve.
-/

namespace CaNameserver

open CStr Fallible

namespace GateAs

variable {rx : Regex} {aToIPAddr : Resolver}

/-- The addresses of the hosts of a `DENY` line that resolve; `r` is what follows the command. -/
def resolved (aToIPAddr : Resolver) (r : Name) : List Name :=
  (tokens hostDelim (afterFrom r)).filterMap (hostAddress aToIPAddr)

/-- How long the line is that the second pass reads: what comes before the first host, and the
addresses with a blank after each. -/
def splicedLength (aToIPAddr : Resolver) (inbuf r : Name) : ℕ :=
  inbuf.length - (skip hostDelim (afterFrom r)).length +
    ((resolved aToIPAddr r).flatMap (· ++ [' '])).length

/-- The line has entered its pattern once for each of the `hosts`, at the head of their lists; for
any other host it might as well not be there. -/
structure Scoped (rx : Regex) (pattern : Name) (hosts : List Name) (st st' : Reader) : Prop where
  denyList : st'.gate.denyList = st.gate.denyList
  allowList : st'.gate.allowList = st.gate.allowList
  evalOrder : st'.gate.evalOrder = st.gate.evalOrder
  lev : st'.lev = st.lev
  denied : ∀ host ∈ hosts, st'.gate.denyFromTable host =
    some (List.replicate (hosts.count host) (GateAsEntry.ofPattern pattern) ++
      (st.gate.denyFromTable host).getD [])
  others : ∀ host, host ∉ hosts → st'.gate.denyFromTable host = st.gate.denyFromTable host
  elsewhere : ∀ pv host, (∀ x ∈ host, x ∉ hosts) →
    st'.gate.findEntry rx pv host = st.gate.findEntry rx pv host

/-- A host's rules are looked up under the host alone. -/
theorem findEntry_congr {g g' : GateAs} {pv : Name} {host : Option Name}
    (hdeny : g'.denyList = g.denyList) (hallow : g'.allowList = g.allowList)
    (horder : g'.evalOrder = g.evalOrder)
    (hfrom : ∀ x ∈ host, g'.denyFromTable x = g.denyFromTable x) :
    g'.findEntry rx pv host = g.findEntry rx pv host := by
  have hbind : host.bind g'.denyFromTable = host.bind g.denyFromTable := by
    cases host with
    | none => rfl
    | some x => exact hfrom x rfl
  rw [findEntry, findEntry, hbind, hdeny, hallow, horder]

/-! ## The rules of hosts, one after the other -/

/-- A rule for one more host at the end. -/
theorem Scoped.snoc {pattern : Name} {hosts : List Name} {st st' : Reader}
    (h : Scoped rx pattern hosts st st') (hp : rx.compiles pattern = true) (hname : Name) :
    Scoped rx pattern (hosts ++ [hname]) st
      { st' with gate := st'.gate.initHost rx pattern hname } := by
  have htable : ∀ host, (st'.gate.initHost rx pattern hname).denyFromTable host =
      if host = hname then some (GateAsEntry.ofPattern pattern ::
        (st'.gate.denyFromTable hname).getD []) else st'.gate.denyFromTable host := by
    intro host
    rw [initHost, if_pos hp]
    exact Function.update_apply ..
  have hsame : ∀ host, host ∉ hosts ++ [hname] →
      (st'.gate.initHost rx pattern hname).denyFromTable host = st.gate.denyFromTable host := by
    intro host hhost
    rw [List.mem_append, List.mem_singleton, not_or] at hhost
    rw [htable, if_neg hhost.2, h.others host hhost.1]
  have hrest : (st'.gate.initHost rx pattern hname).denyList = st.gate.denyList ∧
      (st'.gate.initHost rx pattern hname).allowList = st.gate.allowList ∧
      (st'.gate.initHost rx pattern hname).evalOrder = st.gate.evalOrder := by
    rw [initHost, if_pos hp]
    exact ⟨h.denyList, h.allowList, h.evalOrder⟩
  refine ⟨hrest.1, hrest.2.1, hrest.2.2, h.lev, fun host hhost => ?_, hsame,
    fun pv host hx => findEntry_congr hrest.1 hrest.2.1 hrest.2.2 fun x hxh => hsame x (hx x hxh)⟩
  show (st'.gate.initHost rx pattern hname).denyFromTable host = _
  rw [htable]
  by_cases heq : host = hname
  · subst heq
    rw [if_pos rfl, List.count_append, List.count_singleton_self, List.replicate_succ,
      List.cons_append]
    by_cases hmem : host ∈ hosts
    · rw [h.denied host hmem, Option.getD_some]
    · rw [h.others host hmem, List.count_eq_zero.mpr hmem, List.replicate_zero, List.nil_append]
  · have hmem : host ∈ hosts := by
      rw [List.mem_append, List.mem_singleton] at hhost
      exact hhost.resolve_right heq
    rw [if_neg heq, h.denied host hmem, List.count_append,
      List.count_eq_zero.mpr (fun hc => heq (List.mem_singleton.mp hc)), Nat.add_zero]

theorem Scoped.refl (rx : Regex) (pattern : Name) (st : Reader) : Scoped rx pattern [] st st where
  denyList := rfl
  allowList := rfl
  evalOrder := rfl
  lev := rfl
  denied := fun _ hhost => absurd hhost List.not_mem_nil
  others := fun _ _ => rfl
  elsewhere := fun _ _ _ => rfl

/-- **The rules of a list of hosts** are scoped to them. -/
theorem scoped_foldl {pattern : Name} (hp : rx.compiles pattern = true) (hosts : List Name)
    (st : Reader) :
    Scoped rx pattern hosts st { st with gate := hosts.foldl (initHost rx pattern) st.gate } := by
  induction hosts using List.reverseRecOn with
  | nil => exact .refl rx pattern st
  | append_singleton hosts hname ih =>
      rw [List.foldl_append]
      exact ih.snoc hp hname

/-! ## The line -/

/-- The rewritten line is defined exactly if it fits its buffer. -/
theorem spliceHosts_eq {tempInbuf inbuf r : Name}
    (hlen : inbuf.length - (skip hostDelim (afterFrom r)).length ≤ tempInbuf.length) :
    spliceHosts aToIPAddr tempInbuf inbuf (afterFrom r) =
      if splicedLength aToIPAddr inbuf r < gateMaxPvlistLineLength then
        .ok (tempInbuf.take (inbuf.length - (skip hostDelim (afterFrom r)).length) ++
          (tokens hostDelim (afterFrom r)).flatMap (expandHost aToIPAddr))
      else .error .overflow := by
  have hlength : (tempInbuf.take (inbuf.length - (skip hostDelim (afterFrom r)).length) ++
      (tokens hostDelim (afterFrom r)).flatMap (expandHost aToIPAddr)).length =
      splicedLength aToIPAddr inbuf r := by
    rw [List.length_append, List.length_take, Nat.min_eq_left hlen, flatMap_expandHost,
      splicedLength, resolved]
  rw [spliceHosts, ← hlength]
  rfl

/-- What stands before the first host is in the copy of the line. -/
theorem head_le_copy (line : Name) {r : Name} (hskip : skip hostDelim (afterFrom r) ≠ []) :
    (cutAt '#' (cstr line)).length - (skip hostDelim (afterFrom r)).length ≤
      (cstr line).dropLast.length := by
  have hpos := List.length_pos_iff.mpr hskip
  have hle : (cutAt '#' (cstr line)).length ≤ (cstr line).length :=
    (List.takeWhile_sublist _).length_le
  rw [List.length_dropLast]
  omega

/-- A pattern is denied to the hosts, or to everybody if there is none. -/
def deny (rx : Regex) (pattern : Name) (st : Reader) : List Name → Reader
  | [] => { st with gate := { st.gate with
      denyList := init rx (GateAsEntry.ofPattern pattern) st.gate.denyList } }
  | hname :: hosts => { st with gate := (hname :: hosts).foldl (initHost rx pattern) st.gate }

theorem deny_of_not_compiles {pattern : Name} (hp : rx.compiles pattern = false) (st : Reader)
    (hosts : List Name) : deny rx pattern st hosts = st := by
  cases hosts with
  | nil => rw [deny, init, if_neg (by simp [GateAsEntry.ofPattern, hp])]
  | cons hname hosts => rw [deny, foldl_initHost_of_not_compiles hp]

/-- **A `DENY` line with hosts, read**: its pattern is denied to the addresses. -/
theorem readLine_deny {st : Reader} {line pattern cmd r : Name}
    (hcmd : patternCmd (cutAt '#' (cstr line)) = some (pattern, cmd, r)) (hdeny : isDeny cmd = true)
    (hhosts : tokens hostDelim (afterFrom r) ≠ []) :
    readLine rx aToIPAddr st line =
      if splicedLength aToIPAddr (cutAt '#' (cstr line)) r < gateMaxPvlistLineLength then
        .ok (deny rx pattern st (resolved aToIPAddr r))
      else .error .overflow := by
  have hskip : skip hostDelim (afterFrom r) ≠ [] := fun hnil => hhosts (skip_eq_nil_iff.mp hnil)
  have hfirst : firstPass aToIPAddr line = _ := firstPass_deny hcmd ⟨hdeny, hskip⟩
  have hlen := head_le_copy line hskip
  rw [readLine, hfirst]
  split_ifs with hfits
  · have hl : spliceHosts aToIPAddr (cstr line).dropLast _ (afterFrom r) = _ := spliceHosts_eq hlen
    rw [if_pos hfits] at hl
    obtain ⟨r', hr', htokens⟩ := patternCmd_of_splice hcmd hskip hl
    rw [hl]
    show Except.ok (secondPass rx st _) = _
    rw [secondPass, hr']
    dsimp only
    rw [if_pos hdeny, htokens, resolved]
    cases (tokens hostDelim (afterFrom r)).filterMap (hostAddress aToIPAddr) with
    | nil => rfl
    | cons hname hosts => rfl
  · rw [spliceHosts_eq hlen, if_neg hfits]
    rfl

/-- **When a `DENY` line with hosts stays scoped to them.** -/
theorem deny_scoped_iff {st : Reader} {line pattern cmd r : Name}
    (hcmd : patternCmd (cutAt '#' (cstr line)) = some (pattern, cmd, r)) (hdeny : isDeny cmd = true)
    (hhosts : tokens hostDelim (afterFrom r) ≠ []) :
    (∃ st', readLine rx aToIPAddr st line = .ok st' ∧
      Scoped rx pattern (resolved aToIPAddr r) st st') ↔
    (rx.compiles pattern = true ↔ resolved aToIPAddr r ≠ []) ∧
      splicedLength aToIPAddr (cutAt '#' (cstr line)) r < gateMaxPvlistLineLength := by
  rw [readLine_deny hcmd hdeny hhosts]
  split_ifs with hfits
  · rw [and_iff_left hfits]
    have hst : (∃ st', (.ok (deny rx pattern st (resolved aToIPAddr r)) : Except Fault Reader) =
        .ok st' ∧ Scoped rx pattern (resolved aToIPAddr r) st st') ↔
        Scoped rx pattern (resolved aToIPAddr r) st
          (deny rx pattern st (resolved aToIPAddr r)) := by
      constructor
      · rintro ⟨st', hst', h⟩
        cases hst'
        exact h
      · intro h
        exact ⟨_, rfl, h⟩
    rw [hst]
    cases hres : resolved aToIPAddr r with
    | nil =>
        -- nobody is left: the pattern is denied to everybody, if it compiles
        rw [deny, init]
        cases hp : rx.compiles pattern with
        | false =>
            rw [if_neg (by simp [GateAsEntry.ofPattern, hp])]
            simpa using Scoped.refl rx pattern st
        | true =>
            rw [if_pos (show rx.compiles (GateAsEntry.ofPattern pattern).pattern = true from hp)]
            constructor
            · intro h
              exact absurd h.denyList (List.cons_ne_self _ _)
            · intro h
              exact absurd rfl (h.mp rfl)
    | cons hname hosts =>
        rw [deny]
        cases hp : rx.compiles pattern with
        | true => simpa using scoped_foldl hp (hname :: hosts) st
        | false =>
            rw [foldl_initHost_of_not_compiles hp]
            constructor
            · intro h
              have hself := h.denied hname (List.mem_cons_self ..)
              rw [List.count_cons_self, List.replicate_succ, List.cons_append] at hself
              cases hn : st.gate.denyFromTable hname with
              | none =>
                  rw [hn] at hself
                  cases hself
              | some list =>
                  rw [hn, Option.getD_some] at hself
                  have hlength := congrArg List.length (Option.some.inj hself)
                  simp at hlength
                  omega
            · intro h
              exact absurd (h.mpr (List.cons_ne_nil hname hosts)) Bool.false_ne_true
  · constructor
    · rintro ⟨st', hst', -⟩
      cases hst'
    · rintro ⟨-, hfits'⟩
      exact absurd hfits' hfits

/-- A host that resolves. -/
theorem deny_scoped_iff_resolved :
    let atLoopback : Resolver := fun _ _ => some ⟨afInet, 0, InAddr.loopback⟩
    let r := "FROM h\n".toList
    (∃ st', readLine literal atLoopback ⟨empty, 0⟩ "x DENY FROM h\n".toList = .ok st' ∧
      Scoped literal ['x'] (resolved atLoopback r) ⟨empty, 0⟩ st') ↔
    (literal.compiles ['x'] = true ↔ resolved atLoopback r ≠ []) ∧
      splicedLength atLoopback (cutAt '#' (cstr "x DENY FROM h\n".toList)) r <
        gateMaxPvlistLineLength := by
  intro atLoopback r
  have hcmd : patternCmd (cutAt '#' (cstr "x DENY FROM h\n".toList)) =
      some (['x'], ['D', 'E', 'N', 'Y'], r) := rfl
  exact deny_scoped_iff hcmd rfl (by decide)

/-- **A rule whose only host does not resolve denies the pattern to everybody.** -/
theorem deny_unresolved :
    let nowhere : Resolver := fun _ _ => none
    let r := "FROM h\n".toList
    ¬ ∃ st', readLine literal nowhere ⟨empty, 0⟩ "x DENY FROM h\n".toList = .ok st' ∧
      Scoped literal ['x'] (resolved nowhere r) ⟨empty, 0⟩ st' := by
  intro nowhere r
  rintro ⟨st', hst', h⟩
  have hcmd : patternCmd (cutAt '#' (cstr "x DENY FROM h\n".toList)) =
      some (['x'], ['D', 'E', 'N', 'Y'], r) := rfl
  have hnone : resolved nowhere r = [] := by decide
  rw [readLine_deny hcmd rfl (by decide), if_pos (by decide), hnone] at hst'
  cases hst'
  exact absurd h.denyList (List.cons_ne_self _ _)

end GateAs

end CaNameserver
