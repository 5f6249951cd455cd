import CaNameserver.DenyScope

/-!
# The line buffers of the pvlist reader

`readPvList` has three buffers of 1024 bytes: `inbuf`, into which `fgets` reads a line and where
`strtok` puts terminators, `tempInbuf`, a copy of the line less its last character, and
`inbufWithIPs`, the line that the second pass reads.  The copy is cut at `strlen(inbuf) - 1`,
before its beginning if the line begins with a NUL; and a rewritten line grows with its hosts,
whose addresses may be longer than their names.

## The writes

`lineWrites` has every index that the first pass writes, statement by statement: the line as it is
read, its copy, the terminator that cuts the copy, the terminators of `strtok` at the ends of the
words that it looks at, and the line for the second pass.  `readPvListWrites` has them for all
lines of a file.  `strtok` writes where a word ends, inside the line (`atRest_inside`).  The line
for the second pass is the only one that can be too long (`spliceWrites_inside_iff`).

## The condition

`Short` is a condition on the line alone: it does not begin with a NUL, and if it is a `DENY` with
hosts, its head and the addresses of those hosts that resolve fit the buffer together.

* `readPvList_inside_iff`: every write stays inside exactly if all lines are short, and exactly
  then the model of the parser has an outcome.
-/

namespace CaNameserver

open CStr Fallible

namespace GateAs

variable {rx : Regex} {aToIPAddr : Resolver}

/-! ## The writes -/

/-- The line buffers. -/
inductive Buffer where
  | inbuf
  | tempInbuf
  | inbufWithIPs
  deriving DecidableEq, Repr

/-- A write: the buffer and the index. -/
abbrev Write := Buffer × ℤ

/-- The indices below `n`. -/
def fill (b : Buffer) (n : ℕ) : List Write := (List.range n).map fun i => (b, (i : ℤ))

/-- Where one call of `strtok` puts its terminator: at the delimiter that ends the token. -/
def strtokStop (delim l : Name) : Option ℕ :=
  let n := l.length - ((skip delim l).dropWhile (· ∉ delim)).length
  if n < l.length then some n else none

/-- Where all the calls do until the string is used up; `pos` characters have been read, and
`inToken` says whether the last one belongs to a token. -/
def strtokStops (delim : Name) : Bool → ℕ → Name → List ℕ
  | _, _, [] => []
  | inToken, pos, c :: l =>
      if c ∈ delim then
        if inToken then pos :: strtokStops delim false (pos + 1) l
        else strtokStops delim false (pos + 1) l
      else strtokStops delim true (pos + 1) l

/-- The writes at positions of the rest `r` of the line. -/
def atRest (inbuf r : Name) (stops : List ℕ) : List Write :=
  stops.map fun n => (.inbuf, ((inbuf.length - r.length + n : ℕ) : ℤ))

/-- The terminators that `strtok` puts into the line while its words are looked at. -/
def tokenWrites (inbuf : Name) : List Write :=
  atRest inbuf inbuf (strtokStop blanks inbuf).toList ++
    match strtok blanks inbuf with
    | none => []
    | some (_, r) =>
        atRest inbuf r (strtokStop blanks r).toList ++
          match strtok blanks r with
          | none => []
          | some (cmd, r) =>
              if isDeny cmd then atRest inbuf r (strtokStops hostDelim false 0 r) else []

/-- The writes into `inbufWithIPs`: the head of the line and the addresses of its hosts, or a copy
of the whole line, with a terminator behind it. -/
def spliceWrites (aToIPAddr : Resolver) (tempInbuf inbuf : Name) : List Write :=
  match patternCmd inbuf with
  | none => []
  | some (_, cmd, r) =>
      if isDeny cmd ∧ skip hostDelim (afterFrom r) ≠ [] then
        fill .inbufWithIPs (splicedLength aToIPAddr inbuf r + 1)
      else fill .inbufWithIPs (tempInbuf.length + 1)

/-- The writes of the first pass over a line that `fgets` has read. -/
def lineWrites (aToIPAddr : Resolver) (line : Name) : List Write :=
  let buf := cstr line
  -- fgets(inbuf, sizeof(inbuf), fd)
  fill .inbuf (line.length + 1) ++
  -- strncpy(tempInbuf, inbuf, strlen(inbuf)); tempInbuf[strlen(inbuf)-1] = 0
  (fill .tempInbuf buf.length ++ [(.tempInbuf, (buf.length : ℤ) - 1)]) ++
  -- if((ptr = strchr(inbuf, '#'))) *ptr = 0
  (if '#' ∈ buf then [(.inbuf, ((cutAt '#' buf).length : ℤ))] else []) ++
  tokenWrites (cutAt '#' buf) ++ spliceWrites aToIPAddr buf.dropLast (cutAt '#' buf)

/-- The writes of `readPvList`. -/
def readPvListWrites (aToIPAddr : Resolver) (lfile : List Char) : List Write :=
  (fgetsLines gateMaxPvlistLineLength lfile).flatMap (lineWrites aToIPAddr)

/-- The index is one of the buffer's. -/
def Write.Inside (w : Write) : Prop := 0 ≤ w.2 ∧ w.2 < gateMaxPvlistLineLength

/-- A line that stays inside the buffers: it does not begin with a NUL, and if it is a `DENY` with
hosts, it is short enough with their addresses. -/
structure Short (aToIPAddr : Resolver) (line : Name) : Prop where
  ne_nil : cstr line ≠ []
  spliced : ∀ pattern cmd r, patternCmd (cutAt '#' (cstr line)) = some (pattern, cmd, r) →
    isDeny cmd = true → tokens hostDelim (afterFrom r) ≠ [] →
      splicedLength aToIPAddr (cutAt '#' (cstr line)) r < gateMaxPvlistLineLength

/-! ## Where they go -/

theorem forall_fill {P : Write → Prop} {b : Buffer} {n : ℕ} :
    (∀ w ∈ fill b n, P w) ↔ ∀ i < n, P (b, (i : ℤ)) := by
  simp [fill]

theorem fill_inside_iff {b : Buffer} {n : ℕ} :
    (∀ w ∈ fill b n, w.Inside) ↔ n ≤ gateMaxPvlistLineLength := by
  rw [forall_fill]
  constructor
  · intro h
    by_contra hlt
    have hlast : (gateMaxPvlistLineLength : ℤ) < gateMaxPvlistLineLength :=
      (h gateMaxPvlistLineLength (not_le.mp hlt)).2
    exact absurd hlast (Int.lt_irrefl _)
  · intro h i hi
    exact ⟨Int.natCast_nonneg i, Int.ofNat_lt.mpr (lt_of_lt_of_le hi h)⟩

theorem strtokStops_lt (delim : Name) : ∀ (l : Name) (inToken : Bool) (pos : ℕ),
    ∀ n ∈ strtokStops delim inToken pos l, n < pos + l.length := by
  intro l
  induction l with
  | nil => exact fun _ _ _ h => nomatch h
  | cons c l ih =>
      intro inToken pos n hn
      rw [List.length_cons]
      rw [strtokStops] at hn
      split_ifs at hn
      · rcases List.mem_cons.mp hn with rfl | hn
        · omega
        · have := ih _ _ n hn
          omega
      · have := ih _ _ n hn
        omega
      · have := ih _ _ n hn
        omega

theorem strtokStop_lt {delim l : Name} : ∀ n ∈ (strtokStop delim l).toList, n < l.length := by
  intro n hn
  rw [strtokStop] at hn
  split_ifs at hn with h
  · rw [Option.toList_some, List.mem_singleton] at hn
    omega
  · cases hn

/-- Terminators that go to characters of the line are inside if the line is. -/
theorem atRest_inside {inbuf r : Name} {stops : List ℕ} (hlen : inbuf.length < gateMaxPvlistLineLength)
    (hr : r.length ≤ inbuf.length) (hstops : ∀ n ∈ stops, n < r.length) :
    ∀ w ∈ atRest inbuf r stops, w.Inside := by
  intro w hw
  rw [atRest, List.mem_map] at hw
  obtain ⟨n, hn, rfl⟩ := hw
  have hlt := hstops n hn
  refine ⟨Int.natCast_nonneg _, Int.ofNat_lt.mpr ?_⟩
  omega

theorem length_le_of_strtok {delim l t r : Name} (h : strtok delim l = some (t, r)) :
    r.length ≤ l.length := by
  obtain ⟨pre, -, ⟨rfl, rfl⟩ | ⟨c, -, rfl⟩⟩ := strtok_cases h
  · simp
  · simp only [List.length_append, List.length_cons]
    omega

theorem tokenWrites_inside {inbuf : Name} (hlen : inbuf.length < gateMaxPvlistLineLength) :
    ∀ w ∈ tokenWrites inbuf, w.Inside := by
  rw [tokenWrites, List.forall_mem_append]
  refine ⟨atRest_inside hlen le_rfl strtokStop_lt, ?_⟩
  cases hs : strtok blanks inbuf with
  | none => exact fun _ h => nomatch h
  | some p =>
      obtain ⟨pattern, r⟩ := p
      have hr := length_le_of_strtok hs
      rw [List.forall_mem_append]
      refine ⟨atRest_inside hlen hr strtokStop_lt, ?_⟩
      cases hs' : strtok blanks r with
      | none => exact fun _ h => nomatch h
      | some q =>
          obtain ⟨cmd, r'⟩ := q
          have hr' := (length_le_of_strtok hs').trans hr
          dsimp only
          split_ifs
          · refine atRest_inside hlen hr' fun n hn => ?_
            simpa using strtokStops_lt hostDelim r' false 0 n hn
          · exact fun _ h => nomatch h

/-- **The second line buffer** holds what is written to it if the line is short. -/
theorem spliceWrites_inside_iff {line : Name} (hnil : cstr line ≠ [])
    (hlen : line.length < gateMaxPvlistLineLength) :
    (∀ w ∈ spliceWrites aToIPAddr (cstr line).dropLast (cutAt '#' (cstr line)), w.Inside) ↔
      Short aToIPAddr line := by
  have hcopy : (cstr line).dropLast.length + 1 ≤ gateMaxPvlistLineLength := by
    have hle : (cstr line).length ≤ line.length := (List.takeWhile_sublist _).length_le
    rw [List.length_dropLast]
    omega
  rw [spliceWrites]
  cases hcmd : patternCmd (cutAt '#' (cstr line)) with
  | none => exact iff_of_true (fun _ h => nomatch h) ⟨hnil, fun _ _ _ h => nomatch hcmd.symm.trans h⟩
  | some x =>
      obtain ⟨pattern, cmd, r⟩ := x
      dsimp only
      split_ifs with hdeny
      · have hhosts : tokens hostDelim (afterFrom r) ≠ [] := fun h => hdeny.2 (skip_eq_nil_iff.mpr h)
        rw [fill_inside_iff, Nat.succ_le_iff]
        constructor
        · intro h
          refine ⟨hnil, fun pattern' cmd' r' h' _ _ => ?_⟩
          cases hcmd.symm.trans h'
          exact h
        · exact fun h => h.spliced pattern cmd r hcmd hdeny.1 hhosts
      · rw [fill_inside_iff]
        refine iff_of_true hcopy ⟨hnil, fun pattern' cmd' r' h' hd hhosts => ?_⟩
        cases hcmd.symm.trans h'
        exact absurd ⟨hd, fun h => hhosts (skip_eq_nil_iff.mp h)⟩ hdeny

/-- **The writes of a line** stay inside exactly if it is short. -/
theorem lineWrites_inside_iff {line : Name} (hlen : line.length < gateMaxPvlistLineLength) :
    (∀ w ∈ lineWrites aToIPAddr line, w.Inside) ↔ Short aToIPAddr line := by
  have hbuf : (cstr line).length ≤ line.length := (List.takeWhile_sublist _).length_le
  have hcut : (cutAt '#' (cstr line)).length ≤ (cstr line).length :=
    (List.takeWhile_sublist _).length_le
  have hmark : ∀ w ∈ (if '#' ∈ cstr line then
      [(Buffer.inbuf, ((cutAt '#' (cstr line)).length : ℤ))] else []), Write.Inside w := by
    intro w hw
    split_ifs at hw
    · rw [List.mem_singleton] at hw
      subst hw
      exact ⟨Int.natCast_nonneg _, Int.ofNat_lt.mpr (by omega)⟩
    · cases hw
  have hlast : Write.Inside (.tempInbuf, ((cstr line).length : ℤ) - 1) ↔ cstr line ≠ [] := by
    rw [← List.length_pos_iff, Write.Inside]
    dsimp only
    omega
  simp only [lineWrites, List.forall_mem_append, fill_inside_iff, List.forall_mem_singleton, hlast]
  constructor
  · rintro ⟨⟨⟨⟨-, -, hnil⟩, -⟩, -⟩, hsplice⟩
    exact (spliceWrites_inside_iff hnil hlen).mp hsplice
  · intro h
    exact ⟨⟨⟨⟨hlen, by omega, h.ne_nil⟩, hmark⟩, tokenWrites_inside (by omega)⟩,
      (spliceWrites_inside_iff h.ne_nil hlen).mpr h⟩

/-- The first pass has an outcome exactly if the line is short. -/
theorem firstPass_ok_iff {line : Name} :
    (∃ o, firstPass aToIPAddr line = .ok o) ↔ Short aToIPAddr line := by
  by_cases hnil : cstr line = []
  · refine iff_of_false ?_ fun h => h.ne_nil hnil
    rintro ⟨o, ho⟩
    rw [firstPass, if_pos hnil] at ho
    cases ho
  cases hcmd : patternCmd (cutAt '#' (cstr line)) with
  | none =>
      refine iff_of_true ⟨_, firstPass_skip hnil hcmd⟩ ⟨hnil, fun _ _ _ h => ?_⟩
      cases hcmd.symm.trans h
  | some x =>
      obtain ⟨pattern, cmd, r⟩ := x
      by_cases hdeny : isDeny cmd = true ∧ skip hostDelim (afterFrom r) ≠ []
      · have hhosts : tokens hostDelim (afterFrom r) ≠ [] := fun h => hdeny.2 (skip_eq_nil_iff.mpr h)
        have hfirst : firstPass aToIPAddr line = _ := firstPass_deny hcmd hdeny
        rw [hfirst, spliceHosts_eq (head_le_copy line hdeny.2)]
        split_ifs with hfits
        · refine iff_of_true ⟨_, rfl⟩ ⟨hnil, fun pattern' cmd' r' h' _ _ => ?_⟩
          cases hcmd.symm.trans h'
          exact hfits
        · refine iff_of_false ?_ fun h => hfits (h.spliced pattern cmd r hcmd hdeny.1 hhosts)
          rintro ⟨o, ho⟩
          cases ho
      · refine iff_of_true ⟨_, firstPass_copy hcmd hdeny⟩ ⟨hnil, fun pattern' cmd' r' h' hd hhosts => ?_⟩
        cases hcmd.symm.trans h'
        exact absurd ⟨hd, fun h => hhosts (skip_eq_nil_iff.mp h)⟩ hdeny

/-! ## The file -/

/-- `fgets` leaves room for the terminator. -/
theorem length_lt_of_mem_fgetsLines {lfile : List Char} :
    ∀ line ∈ fgetsLines gateMaxPvlistLineLength lfile, line.length < gateMaxPvlistLineLength := by
  suffices H : ∀ (l cur : List Char), cur.length + 1 < gateMaxPvlistLineLength →
      ∀ line ∈ fgetsFrom gateMaxPvlistLineLength cur l, line.length < gateMaxPvlistLineLength from
    H lfile [] (by decide)
  intro l
  induction l with
  | nil =>
      intro cur hcur line hline
      rw [fgetsFrom] at hline
      split_ifs at hline
      · cases hline
      · rw [List.mem_singleton] at hline
        rw [hline, List.length_reverse]
        omega
  | cons c l ih =>
      intro cur hcur line hline
      rw [fgetsFrom] at hline
      split_ifs at hline with hc
      · rcases List.mem_cons.mp hline with rfl | hline
        · rw [List.length_reverse, List.length_cons]
          exact hcur
        · exact ih [] (by decide) line hline
      · refine ih (c :: cur) ?_ line hline
        rw [List.length_cons]
        have := (not_or.mp hc).2
        omega

/-- **When the reader stays inside its buffers.**  Every write does exactly if all lines are short,
and exactly then the reader has an outcome. -/
theorem readPvList_inside_iff (rx : Regex) (aToIPAddr : Resolver) (lev : ℤ) (lfile : List Char) :
    ((∀ w ∈ readPvListWrites aToIPAddr lfile, w.Inside) ↔
      ∀ line ∈ fgetsLines gateMaxPvlistLineLength lfile, Short aToIPAddr line) ∧
    ((∃ g, readPvList rx aToIPAddr lev lfile = .ok g) ↔
      ∀ line ∈ fgetsLines gateMaxPvlistLineLength lfile, Short aToIPAddr line) := by
  constructor
  · rw [readPvListWrites]
    constructor
    · intro h line hline
      refine (lineWrites_inside_iff (length_lt_of_mem_fgetsLines line hline)).mp fun w hw => ?_
      exact h w (List.mem_flatMap.mpr ⟨line, hline, hw⟩)
    · intro h w hw
      obtain ⟨line, hline, hw⟩ := List.mem_flatMap.mp hw
      exact (lineWrites_inside_iff (length_lt_of_mem_fgetsLines line hline)).mpr (h line hline) w hw
  · rw [readPvList_ok_iff]
    exact forall₂_congr fun line _ => firstPass_ok_iff

/-- A line that begins with a NUL: the copy is cut before its beginning. -/
theorem readPvList_underrun : ¬ ∀ (aToIPAddr : Resolver) (lfile : List Char),
    ∀ w ∈ readPvListWrites aToIPAddr lfile, w.Inside := by
  intro hall
  have h := hall (fun _ _ => none) ['\x00', '\n'] (.tempInbuf, -1) (by decide)
  exact absurd h.1 (by decide)

end GateAs

end CaNameserver
