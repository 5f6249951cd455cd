import CaNameserver.GateAs
import CaNameserver.Lib.Regexp

/-!
# Rules and whole names

`findEntryInList` asks the regular expression library for one match at the start of the name and
accepts it if it ends where the name ends.  Whether this finds every pattern that has the name in
its language depends on which match the library reports: `re_match` of the GNU library reports the
longest, `pcre_exec` with `PCRE_ANCHORED` the one that Perl prefers.

* `Backend.Reports`: the match each library reports; `Backend.regex` are matchers that do so.
* `WholeName`: a rule applies to a name exactly if the name is in the language of its pattern.
* `wholeName_iff`: with the GNU library it always does; with the other, for names that some
  pattern prefers to match as a whole.

What a pattern's text means as a regular expression is a parameter.
-/

namespace CaNameserver

open CStr

namespace GateAs

/-- The regular expression libraries between which `USE_PCRE` chooses. -/
inductive Backend where
  | gnuRegex
  | pcre
  deriving DecidableEq

/-- The end of the match that a library reports at the start of a name. -/
def Backend.Reports : Backend → Regexp Char → Name → ℕ → Prop
  | gnuRegex, r, name, n => IsGreatest (r.lengths name) n
  | pcre, r, name, n => ∃ path rest, r.First name path rest ∧ n + rest.length = name.length

/-- `rx` reports what the library `b` does, for patterns that mean what `meaning` says. -/
def Backend.Implements (b : Backend) (rx : Regex) (meaning : Name → Regexp Char) : Prop :=
  ∀ pattern name n, rx.matchEnd pattern name = some n ↔ b.Reports (meaning pattern) name n

/-- Matchers that report what the libraries do. -/
def Backend.regex (meaning : Name → Regexp Char) : Backend → Regex
  | gnuRegex => ⟨fun _ => true, fun pattern name => (meaning pattern).longestEnd name⟩
  | pcre => ⟨fun _ => true, fun pattern name => (meaning pattern).firstEnd name⟩

theorem Backend.implements_regex (b : Backend) (meaning : Name → Regexp Char) :
    b.Implements (b.regex meaning) meaning := by
  cases b with
  | gnuRegex => exact fun _ _ _ => Regexp.longestEnd_eq_some_iff
  | pcre => exact fun _ _ _ => Regexp.firstEnd_eq_some_iff

section

variable {b : Backend} {rx : Regex} {meaning : Name → Regexp Char}

/-- A whole name is matched by the GNU library if the pattern's language contains it, and by the
other if the pattern prefers to match the whole of it. -/
theorem fullMatch_iff (hb : b.Implements rx meaning) (name : Name) (e : GateAsEntry) :
    fullMatch rx name e = true ↔
      match b with
      | .gnuRegex => name ∈ (meaning e.pattern).lang
      | .pcre => (meaning e.pattern).PrefersWhole name := by
  rw [fullMatch, decide_eq_true_iff, hb]
  cases b with
  | gnuRegex => exact Regexp.isGreatest_length_iff
  | pcre => rw [Regexp.prefersWhole_iff, Regexp.firstEnd_eq_some_iff, Backend.Reports]

/-- The rules of a list apply to a name exactly if the whole name is in the language of one of the
patterns; as rules of `DENY` they deny it then. -/
structure WholeName (rx : Regex) (meaning : Name → Regexp Char) (list : List GateAsEntry)
    (name : Name) : Prop where
  found : (findEntryInList rx name list).isSome ↔ ∃ e ∈ list, name ∈ (meaning e.pattern).lang
  denied : ∀ g : GateAs, g.evalOrder = .allowFirst → g.denyList = list →
    (∃ e ∈ list, name ∈ (meaning e.pattern).lang) → ∀ host, g.findEntry rx name host = none
  deniedFrom : ∀ (g : GateAs) host, g.denyFromTable host = some list →
    (∃ e ∈ list, name ∈ (meaning e.pattern).lang) → g.findEntry rx name (some host) = none

/-- Denials follow from what is found. -/
theorem WholeName.of_found {list : List GateAsEntry} {name : Name}
    (h : (findEntryInList rx name list).isSome ↔ ∃ e ∈ list, name ∈ (meaning e.pattern).lang) :
    WholeName rx meaning list name := by
  refine ⟨h, ?_, ?_⟩
  · intro g horder hlist hmem host
    rw [findEntry, hlist]
    split_ifs with hhost hdeny
    · rfl
    · rfl
    · exact absurd ⟨horder, h.mpr hmem⟩ hdeny
  · intro g host hlist hmem
    rw [findEntry, Option.bind_some, hlist, Option.bind_some, if_pos (h.mpr hmem)]

/-- **When rules apply to whole names.** -/
theorem wholeName_iff (hb : b.Implements rx meaning) (list : List GateAsEntry) (name : Name) :
    WholeName rx meaning list name ↔
      b = .gnuRegex ∨ ((∃ e ∈ list, name ∈ (meaning e.pattern).lang) →
        ∃ e ∈ list, (meaning e.pattern).PrefersWhole name) := by
  have hfound : (findEntryInList rx name list).isSome ↔ ∃ e ∈ list, fullMatch rx name e = true := by
    rw [findEntryInList, List.find?_isSome]
  cases b with
  | gnuRegex =>
      refine iff_of_true (.of_found ?_) (Or.inl rfl)
      rw [hfound]
      exact exists_congr fun e => and_congr_right fun _ => fullMatch_iff hb name e
  | pcre =>
      have hprefers : (findEntryInList rx name list).isSome ↔
          ∃ e ∈ list, (meaning e.pattern).PrefersWhole name := by
        rw [hfound]
        exact exists_congr fun e => and_congr_right fun _ => fullMatch_iff hb name e
      rw [or_iff_right (by decide), ← hprefers]
      constructor
      · exact fun h => h.found.mpr
      · intro h
        refine .of_found ⟨fun hsome => ?_, h⟩
        obtain ⟨e, he, hwhole⟩ := hprefers.mp hsome
        exact ⟨e, he, hwhole.mem_lang⟩

end

/-- Patterns that are words, separated by bars. -/
def alternatives (pattern : Name) : Regexp Char :=
  (tokens ['|'] pattern).foldr
    (fun w r => .alt (w.foldr (fun c r => .seq (.chars (· == c)) r) .epsilon) r)
    (.chars fun _ => false)

/-- The longer word comes first. -/
theorem wholeName_longerFirst :
    WholeName (Backend.pcre.regex alternatives) alternatives
      [GateAsEntry.ofPattern "ab|a".toList] "ab".toList := by
  refine (wholeName_iff (Backend.implements_regex .pcre alternatives) _ _).mpr (Or.inr fun _ => ?_)
  refine ⟨_, List.mem_singleton_self _, Regexp.prefersWhole_iff.mpr ?_⟩
  decide

/-- **A pattern whose language contains the name need not match it.**  The shorter word comes
first, and Perl prefers it. -/
theorem not_wholeName_shorterFirst :
    Backend.pcre.Implements (Backend.pcre.regex alternatives) alternatives ∧
      ¬ WholeName (Backend.pcre.regex alternatives) alternatives
        [GateAsEntry.ofPattern "a|ab".toList] "ab".toList := by
  refine ⟨Backend.implements_regex .pcre alternatives, fun h => ?_⟩
  have hlang : "ab".toList ∈ (alternatives "a|ab".toList).lang :=
    Regexp.mem_lang_iff_nil.mpr ⟨[true, false], Regexp.mem_traces_iff.mp (by decide)⟩
  have hfound := h.found.mpr ⟨_, List.mem_singleton_self _, hlang⟩
  exact absurd hfound (by decide)

end GateAs

end CaNameserver
