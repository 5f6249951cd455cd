import Mathlib.Computability.Language
import Mathlib.Order.Bounds.Basic

/-!
# Regular expressions and the matches a library reports

A regular expression may match the beginning of a text in several ways, and a library that is
asked for one match has to choose.  One kind of library tries the ways in an order of preference
and stops at the first, the other reports the longest.  This module has both, and says for each
when the match that is reported is the whole text.

## Ways to match

A way to match is described by its *path*, the answers to the choices on the way: which side of an
alternative, and at each repetition whether to go on.  `Parses r l u k` says that with the path
`u` the expression `r` matches the text `l` up to its rest `k`.  A repetition whose body has
matched nothing is over, so that paths are finite.  The beginnings that are matched in some way
are the words of the language (`mem_lang_iff`).

## Preference

The order of preference of Perl compares two paths at the first choice they answer differently
(`Before`): the left alternative comes first, a greedy repetition goes on first, a lazy one stops
first.  `First` is the way to match that comes before all others.

`traces` is a backtracking matcher: it lists the matches as it finds them, each with its path.  It
finds all of them and no others (`mem_traces_iff`), and in the order of preference
(`ordered_traces`), by induction on the expression, and for a repetition on the length of the
text.  So the first one that it finds is the preferred one (`first_iff_head?`).

## Length

`lengths` is the set of the lengths of the beginnings that are matched, and `longestEnd` the
largest.  It is that of the text exactly if the text is in the language (`isGreatest_length_iff`);
the preferred match may be shorter all the same (`prefersWhole_iff`).
-/

/-- Regular expressions with greedy and lazy repetition. -/
inductive Regexp (α : Type*) where
  | epsilon
  | chars (p : α → Bool)
  | alt (r s : Regexp α)
  | seq (r s : Regexp α)
  | star (greedy : Bool) (r : Regexp α)

namespace Regexp

variable {α : Type*}

/-- The language of an expression. -/
def lang : Regexp α → Language α
  | epsilon => 1
  | chars p => {w | ∃ c, p c = true ∧ w = [c]}
  | alt r s => r.lang + s.lang
  | seq r s => r.lang * s.lang
  | star _ r => KStar.kstar r.lang

/-! ## Ways to match -/

/-- `Parses r l u k`: with the choices `u`, the expression `r` matches the text `l` up to its rest
`k`.  The answer `false` is the one that is tried first: the left side of an alternative, and to go
on where the repetition is greedy.  A repetition ends with the first iteration that matches
nothing. -/
inductive Parses : Regexp α → List α → List Bool → List α → Prop
  | epsilon {l : List α} : Parses .epsilon l [] l
  | chars {p : α → Bool} {c : α} {l : List α} (h : p c = true) : Parses (.chars p) (c :: l) [] l
  | altLeft {r s : Regexp α} {l k : List α} {u : List Bool} (h : Parses r l u k) :
      Parses (.alt r s) l (false :: u) k
  | altRight {r s : Regexp α} {l k : List α} {u : List Bool} (h : Parses s l u k) :
      Parses (.alt r s) l (true :: u) k
  | seq {r s : Regexp α} {l m k : List α} {u v : List Bool} (hr : Parses r l u m)
      (hs : Parses s m v k) : Parses (.seq r s) l (u ++ v) k
  | stop {greedy : Bool} {r : Regexp α} {l : List α} : Parses (.star greedy r) l [greedy] l
  | emptyIteration {greedy : Bool} {r : Regexp α} {l : List α} {u : List Bool}
      (h : Parses r l u l) : Parses (.star greedy r) l ((!greedy) :: u) l
  | iteration {greedy : Bool} {r : Regexp α} {l m k : List α} {u v : List Bool}
      (hr : Parses r l u m) (hlt : m.length < l.length) (hs : Parses (.star greedy r) m v k) :
      Parses (.star greedy r) l ((!greedy) :: (u ++ v)) k

theorem append_mem_kstar {L : Language α} {w w' : List α} (h : w ∈ L)
    (h' : w' ∈ KStar.kstar L) : w ++ w' ∈ KStar.kstar L := by
  rw [← Language.one_add_self_mul_kstar_eq_kstar]
  exact Or.inr (Language.append_mem_mul h h')

/-- What is matched is in the language. -/
theorem Parses.exists_mem_lang {r : Regexp α} {l k : List α} {u : List Bool}
    (h : Parses r l u k) : ∃ w ∈ r.lang, l = w ++ k := by
  induction h with
  | epsilon => exact ⟨[], rfl, rfl⟩
  | @chars p c l h => exact ⟨[c], ⟨c, h, rfl⟩, rfl⟩
  | altLeft _ ih =>
      obtain ⟨w, hw, hl⟩ := ih
      exact ⟨w, Or.inl hw, hl⟩
  | altRight _ ih =>
      obtain ⟨w, hw, hl⟩ := ih
      exact ⟨w, Or.inr hw, hl⟩
  | seq _ _ ihr ihs =>
      obtain ⟨w, hw, rfl⟩ := ihr
      obtain ⟨w', hw', rfl⟩ := ihs
      exact ⟨w ++ w', Language.append_mem_mul hw hw', (List.append_assoc ..).symm⟩
  | stop => exact ⟨[], Language.nil_mem_kstar _, rfl⟩
  | emptyIteration _ _ => exact ⟨[], Language.nil_mem_kstar _, rfl⟩
  | iteration _ _ _ ihr ihs =>
      obtain ⟨w, hw, rfl⟩ := ihr
      obtain ⟨w', hw', rfl⟩ := ihs
      exact ⟨w ++ w', append_mem_kstar hw hw', (List.append_assoc ..).symm⟩

/-- A match that takes nothing off the text leaves it as it is. -/
theorem Parses.eq_of_length_le {r : Regexp α} {l k : List α} {u : List Bool}
    (h : Parses r l u k) (hlen : l.length ≤ k.length) : k = l := by
  obtain ⟨w, -, rfl⟩ := h.exists_mem_lang
  rw [List.length_append] at hlen
  have hw : w = [] := List.length_eq_zero_iff.mp (by omega)
  rw [hw, List.nil_append]

/-- Every word of the language is matched, whatever follows it. -/
theorem exists_parses {r : Regexp α} {w : List α} (h : w ∈ r.lang) (k : List α) :
    ∃ u, Parses r (w ++ k) u k := by
  induction r generalizing w k with
  | epsilon =>
      cases h
      exact ⟨[], .epsilon⟩
  | chars p =>
      obtain ⟨c, hc, rfl⟩ := h
      exact ⟨[], .chars hc⟩
  | alt r s ihr ihs =>
      rcases h with h | h
      · obtain ⟨u, hu⟩ := ihr h k
        exact ⟨_, .altLeft hu⟩
      · obtain ⟨u, hu⟩ := ihs h k
        exact ⟨_, .altRight hu⟩
  | seq r s ihr ihs =>
      obtain ⟨w₁, h₁, w₂, h₂, rfl⟩ := Language.mem_mul.mp h
      obtain ⟨u, hu⟩ := ihr h₁ (w₂ ++ k)
      obtain ⟨v, hv⟩ := ihs h₂ k
      rw [List.append_assoc]
      exact ⟨_, .seq hu hv⟩
  | star greedy r ih =>
      obtain ⟨ws, rfl, hws⟩ := Language.mem_kstar.mp h
      clear h
      induction ws with
      | nil => exact ⟨_, .stop⟩
      | cons w ws ihws =>
          obtain ⟨v, hv⟩ := ihws fun y hy => hws y (List.mem_cons_of_mem w hy)
          obtain ⟨u, hu⟩ := ih (hws w (List.mem_cons_self ..)) (ws.flatten ++ k)
          rw [List.flatten_cons, List.append_assoc]
          cases w with
          | nil => exact ⟨v, hv⟩
          | cons c w =>
              exact ⟨_, .iteration hu (Nat.lt_succ_of_le (List.suffix_append w _).length_le) hv⟩

/-- **The beginnings that are matched** are the words of the language. -/
theorem mem_lang_iff {r : Regexp α} {w k : List α} :
    w ∈ r.lang ↔ ∃ u, Parses r (w ++ k) u k := by
  constructor
  · exact fun h => exists_parses h k
  · rintro ⟨u, hu⟩
    obtain ⟨w', hw', heq⟩ := hu.exists_mem_lang
    rwa [List.append_cancel_right heq]

theorem mem_lang_iff_nil {r : Regexp α} {w : List α} : w ∈ r.lang ↔ ∃ u, Parses r w u [] := by
  have h := mem_lang_iff (r := r) (w := w) (k := [])
  rwa [List.append_nil] at h

/-! ## The order of preference -/

/-- At the first choice that `u` and `v` answer differently, `u` takes what is tried first. -/
inductive Before : List Bool → List Bool → Prop
  | here {u v : List Bool} : Before (false :: u) (true :: v)
  | cons {u v : List Bool} (b : Bool) (h : Before u v) : Before (b :: u) (b :: v)

theorem Before.asymm {u v : List Bool} (h : Before u v) : ¬ Before v u := by
  induction h with
  | here =>
      intro h'
      cases h'
  | cons b _ ih =>
      intro h'
      cases h' with
      | cons _ h' => exact ih h'

theorem Before.append {u v : List Bool} (h : Before u v) (x y : List Bool) :
    Before (u ++ x) (v ++ y) := by
  induction h with
  | here => exact .here
  | cons b _ ih => exact .cons b ih

theorem Before.prepend {u v : List Bool} (h : Before u v) (x : List Bool) :
    Before (x ++ u) (x ++ v) := by
  induction x with
  | nil => exact h
  | cons b x ih => exact .cons b ih

/-- The way to match that is preferred to all others. -/
structure First (r : Regexp α) (l : List α) (u : List Bool) (k : List α) : Prop where
  parses : Parses r l u k
  before : ∀ v m, Parses r l v m → (v, m) = (u, k) ∨ Before u v

/-- Of all ways to match a beginning of the text, the preferred one matches the whole. -/
def PrefersWhole (r : Regexp α) (l : List α) : Prop := ∃ u, First r l u []

/-! ## Backtracking -/

/-- The matches of a repetition in the order they are tried; an iteration that matches nothing is
the last.  A fuel greater than the length of the text does not run out. -/
def loop (greedy : Bool) (body : List α → List (List Bool × List α)) :
    ℕ → List α → List (List Bool × List α)
  | 0, _ => []
  | fuel + 1, l =>
      let again := (body l).flatMap fun t =>
        if t.2.length < l.length then
          (loop greedy body fuel t.2).map fun t' => ((!greedy) :: (t.1 ++ t'.1), t'.2)
        else [((!greedy) :: t.1, t.2)]
      if greedy then again ++ [([greedy], l)] else ([greedy], l) :: again

/-- All matches in the order they are tried, each with its path and the rest of the text. -/
def traces : Regexp α → List α → List (List Bool × List α)
  | epsilon, l => [([], l)]
  | chars _, [] => []
  | chars p, c :: l => if p c then [([], l)] else []
  | alt r s, l =>
      (r.traces l).map (fun t => (false :: t.1, t.2)) ++
        (s.traces l).map (fun t => (true :: t.1, t.2))
  | seq r s, l => (r.traces l).flatMap fun t => (s.traces t.2).map fun t' => (t.1 ++ t'.1, t'.2)
  | star greedy r, l => loop greedy r.traces (l.length + 1) l

/-- Where the first match ends. -/
def firstEnd (r : Regexp α) (l : List α) : Option ℕ :=
  (r.traces l).head?.map fun t => l.length - t.2.length

/-- Where the longest match ends. -/
def longestEnd (r : Regexp α) (l : List α) : Option ℕ :=
  ((r.traces l).map fun t => l.length - t.2.length).max?

/-- One turn of a repetition. -/
theorem mem_loop_succ_iff {greedy : Bool} {body : List α → List (List Bool × List α)} {fuel : ℕ}
    {l k : List α} {u : List Bool} :
    (u, k) ∈ loop greedy body (fuel + 1) l ↔
      (u = [greedy] ∧ k = l) ∨
      (∃ v m, (v, m) ∈ body l ∧ ¬ m.length < l.length ∧ u = (!greedy) :: v ∧ k = m) ∨
      ∃ v m v', (v, m) ∈ body l ∧ m.length < l.length ∧ (v', k) ∈ loop greedy body fuel m ∧
        u = (!greedy) :: (v ++ v') := by
  have hagain : (u, k) ∈ ((body l).flatMap fun t =>
      if t.2.length < l.length then
        (loop greedy body fuel t.2).map fun t' => ((!greedy) :: (t.1 ++ t'.1), t'.2)
      else [((!greedy) :: t.1, t.2)]) ↔
      (∃ v m, (v, m) ∈ body l ∧ ¬ m.length < l.length ∧ u = (!greedy) :: v ∧ k = m) ∨
      ∃ v m v', (v, m) ∈ body l ∧ m.length < l.length ∧ (v', k) ∈ loop greedy body fuel m ∧
        u = (!greedy) :: (v ++ v') := by
    rw [List.mem_flatMap]
    constructor
    · rintro ⟨⟨v, m⟩, hbody, hmem⟩
      split_ifs at hmem with hlt
      · obtain ⟨⟨v', k'⟩, hloop, heq⟩ := List.mem_map.mp hmem
        cases heq
        exact Or.inr ⟨v, m, v', hbody, hlt, hloop, rfl⟩
      · cases List.mem_singleton.mp hmem
        exact Or.inl ⟨v, m, hbody, hlt, rfl, rfl⟩
    · rintro (⟨v, m, hbody, hlt, rfl, rfl⟩ | ⟨v, m, v', hbody, hlt, hloop, rfl⟩)
      · exact ⟨(v, k), hbody, by rw [if_neg hlt]; exact List.mem_singleton_self _⟩
      · exact ⟨(v, m), hbody, by rw [if_pos hlt]; exact List.mem_map.mpr ⟨(v', k), hloop, rfl⟩⟩
  rw [loop]
  cases greedy with
  | false => rw [if_neg Bool.false_ne_true, List.mem_cons, hagain, Prod.mk.injEq]
  | true => rw [if_pos rfl, List.mem_append, hagain, List.mem_singleton, Prod.mk.injEq, or_comm]

/-- **The matcher tries every way to match**, and no other. -/
theorem mem_traces_iff {r : Regexp α} {l k : List α} {u : List Bool} :
    (u, k) ∈ r.traces l ↔ Parses r l u k := by
  induction r generalizing l k u with
  | epsilon =>
      rw [traces, List.mem_singleton, Prod.mk.injEq]
      constructor
      · rintro ⟨rfl, rfl⟩
        exact .epsilon
      · rintro ⟨⟩
        exact ⟨rfl, rfl⟩
  | chars p =>
      constructor
      · intro h
        cases l with
        | nil => cases h
        | cons c l =>
            rw [traces] at h
            split_ifs at h with hc
            · cases List.mem_singleton.mp h
              exact .chars hc
            · cases h
      · intro h
        cases h with
        | chars hc =>
            rw [traces, if_pos hc]
            exact List.mem_singleton_self _
  | alt r s ihr ihs =>
      rw [traces, List.mem_append]
      constructor
      · rintro (h | h)
        · obtain ⟨⟨v, m⟩, hmem, heq⟩ := List.mem_map.mp h
          cases heq
          exact .altLeft (ihr.mp hmem)
        · obtain ⟨⟨v, m⟩, hmem, heq⟩ := List.mem_map.mp h
          cases heq
          exact .altRight (ihs.mp hmem)
      · intro h
        cases h with
        | altLeft h => exact Or.inl (List.mem_map.mpr ⟨_, ihr.mpr h, rfl⟩)
        | altRight h => exact Or.inr (List.mem_map.mpr ⟨_, ihs.mpr h, rfl⟩)
  | seq r s ihr ihs =>
      rw [traces, List.mem_flatMap]
      constructor
      · rintro ⟨⟨v, m⟩, hr, hmem⟩
        obtain ⟨⟨v', m'⟩, hs, heq⟩ := List.mem_map.mp hmem
        cases heq
        exact .seq (ihr.mp hr) (ihs.mp hs)
      · intro h
        cases h with
        | @seq _ _ _ m _ v v' hr hs =>
            exact ⟨(v, m), ihr.mpr hr, List.mem_map.mpr ⟨(v', k), ihs.mpr hs, rfl⟩⟩
  | star greedy r ih =>
      -- the fuel outlasts the text, which every iteration but the last shortens
      suffices H : ∀ fuel (l : List α) u, l.length < fuel →
          ((u, k) ∈ loop greedy r.traces fuel l ↔ Parses (.star greedy r) l u k) from
        H (l.length + 1) l u (Nat.lt_succ_self _)
      intro fuel
      induction fuel with
      | zero => exact fun l u hfuel => absurd hfuel (Nat.not_lt_zero _)
      | succ fuel ihfuel =>
          intro l u hfuel
          rw [mem_loop_succ_iff]
          constructor
          · rintro (⟨rfl, rfl⟩ | ⟨v, m, hbody, hlt, rfl, rfl⟩ | ⟨v, m, v', hbody, hlt, hloop, rfl⟩)
            · exact .stop
            · have hparses := ih.mp hbody
              cases hparses.eq_of_length_le (not_lt.mp hlt)
              exact .emptyIteration hparses
            · exact .iteration (ih.mp hbody) hlt ((ihfuel m v' (by omega)).mp hloop)
          · intro h
            cases h with
            | stop => exact Or.inl ⟨rfl, rfl⟩
            | emptyIteration h => exact Or.inr (Or.inl ⟨_, _, ih.mpr h, lt_irrefl _, rfl, rfl⟩)
            | @iteration _ _ _ m _ v v' hr hlt hs =>
                exact Or.inr (Or.inr ⟨v, m, v', ih.mpr hr, hlt,
                  (ihfuel m v' (by omega)).mpr hs, rfl⟩)

/-! ### The order of the matches -/

/-- Paths that stand in the order of preference. -/
def Ordered (ts : List (List Bool × List α)) : Prop := ts.Pairwise fun t t' => Before t.1 t'.1

/-- Paths that are continued stay in order. -/
theorem Ordered.flatMap {ts : List (List Bool × List α)} (h : Ordered ts) (x : List Bool)
    {f : List Bool × List α → List (List Bool × List α)}
    (hf : ∀ t ∈ ts, ∃ ts', Ordered ts' ∧ f t = ts'.map fun t' => (x ++ (t.1 ++ t'.1), t'.2)) :
    Ordered (ts.flatMap f) := by
  rw [Ordered, List.pairwise_flatMap]
  constructor
  · intro t ht
    obtain ⟨ts', hord, heq⟩ := hf t ht
    rw [heq, List.pairwise_map]
    exact hord.imp fun hb => (hb.prepend t.1).prepend x
  · refine h.imp_of_mem fun {t t'} ht ht' hb => ?_
    obtain ⟨ts₁, -, heq₁⟩ := hf t ht
    obtain ⟨ts₂, -, heq₂⟩ := hf t' ht'
    intro y hy z hz
    rw [heq₁, List.mem_map] at hy
    rw [heq₂, List.mem_map] at hz
    obtain ⟨y', -, rfl⟩ := hy
    obtain ⟨z', -, rfl⟩ := hz
    exact (hb.append y'.1 z'.1).prepend x

theorem ordered_loop {greedy : Bool} {body : List α → List (List Bool × List α)}
    (hbody : ∀ l, Ordered (body l)) (fuel : ℕ) (l : List α) :
    Ordered (loop greedy body fuel l) := by
  induction fuel generalizing l with
  | zero => exact List.Pairwise.nil
  | succ fuel ih =>
      have hagain : Ordered ((body l).flatMap fun t =>
          if t.2.length < l.length then
            (loop greedy body fuel t.2).map fun t' => ((!greedy) :: (t.1 ++ t'.1), t'.2)
          else [((!greedy) :: t.1, t.2)]) := by
        refine (hbody l).flatMap [!greedy] fun t _ => ?_
        by_cases hlt : t.2.length < l.length
        · exact ⟨_, ih t.2, if_pos hlt⟩
        · refine ⟨[([], t.2)], List.pairwise_singleton .., ?_⟩
          rw [if_neg hlt, List.map_singleton, List.append_nil]
          rfl
      have hhead : ∀ t ∈ (body l).flatMap (fun t =>
          if t.2.length < l.length then
            (loop greedy body fuel t.2).map fun t' => ((!greedy) :: (t.1 ++ t'.1), t'.2)
          else [((!greedy) :: t.1, t.2)]), ∃ u, t.1 = (!greedy) :: u := by
        intro t ht
        obtain ⟨t', -, ht⟩ := List.mem_flatMap.mp ht
        split_ifs at ht
        · obtain ⟨t'', -, rfl⟩ := List.mem_map.mp ht
          exact ⟨_, rfl⟩
        · cases List.mem_singleton.mp ht
          exact ⟨_, rfl⟩
      rw [loop]
      cases greedy with
      | false =>
          rw [if_neg Bool.false_ne_true]
          refine List.pairwise_cons.mpr ⟨fun t ht => ?_, hagain⟩
          obtain ⟨u, hu⟩ := hhead t ht
          rw [hu]
          exact .here
      | true =>
          rw [if_pos rfl]
          refine List.pairwise_append.mpr ⟨hagain, List.pairwise_singleton .., ?_⟩
          intro t ht t' ht'
          obtain ⟨u, hu⟩ := hhead t ht
          cases List.mem_singleton.mp ht'
          rw [hu]
          exact .here

/-- **The matcher tries the preferred ways to match first.** -/
theorem ordered_traces (r : Regexp α) (l : List α) : Ordered (r.traces l) := by
  induction r generalizing l with
  | epsilon => exact List.pairwise_singleton ..
  | chars p =>
      cases l with
      | nil => exact List.Pairwise.nil
      | cons c l =>
          rw [traces]
          split_ifs
          · exact List.pairwise_singleton ..
          · exact List.Pairwise.nil
  | alt r s ihr ihs =>
      refine List.pairwise_append.mpr ⟨?_, ?_, ?_⟩
      · exact List.pairwise_map.mpr ((ihr l).imp fun hb => hb.cons false)
      · exact List.pairwise_map.mpr ((ihs l).imp fun hb => hb.cons true)
      · intro t ht t' ht'
        obtain ⟨_, -, rfl⟩ := List.mem_map.mp ht
        obtain ⟨_, -, rfl⟩ := List.mem_map.mp ht'
        exact .here
  | seq r s ihr ihs => exact (ihr l).flatMap [] fun t _ => ⟨_, ihs t.2, rfl⟩
  | star greedy r ih => exact ordered_loop ih (l.length + 1) l

/-- **The first match that is tried is the preferred one.** -/
theorem first_iff_head? {r : Regexp α} {l k : List α} {u : List Bool} :
    First r l u k ↔ (r.traces l).head? = some (u, k) := by
  constructor
  · rintro ⟨hparses, hbefore⟩
    have hmem := mem_traces_iff.mpr hparses
    have hord := ordered_traces r l
    cases htraces : r.traces l with
    | nil =>
        rw [htraces] at hmem
        cases hmem
    | cons t ts =>
        rw [htraces] at hmem hord
        have ht : Parses r l t.1 t.2 := mem_traces_iff.mp (htraces ▸ List.mem_cons_self ..)
        rcases List.mem_cons.mp hmem with heq | hmem
        · rw [heq, List.head?_cons]
        · rcases hbefore t.1 t.2 ht with heq | hb
          · rw [← heq, List.head?_cons]
          · exact absurd hb ((List.pairwise_cons.mp hord).1 _ hmem).asymm
  · intro h
    obtain ⟨ts, hts⟩ := List.head?_eq_some_iff.mp h
    have hord := ordered_traces r l
    rw [hts] at hord
    refine ⟨mem_traces_iff.mp (hts ▸ List.mem_cons_self ..), fun v m hv => ?_⟩
    have hmem := mem_traces_iff.mpr hv
    rw [hts] at hmem
    rcases List.mem_cons.mp hmem with heq | hmem
    · exact Or.inl heq
    · exact Or.inr ((List.pairwise_cons.mp hord).1 _ hmem)

theorem Parses.length_le {r : Regexp α} {l k : List α} {u : List Bool} (h : Parses r l u k) :
    k.length ≤ l.length := by
  obtain ⟨w, -, rfl⟩ := h.exists_mem_lang
  exact (List.suffix_append w k).length_le

theorem firstEnd_eq_some_iff {r : Regexp α} {l : List α} {n : ℕ} :
    r.firstEnd l = some n ↔ ∃ u k, First r l u k ∧ n + k.length = l.length := by
  rw [firstEnd, Option.map_eq_some_iff]
  constructor
  · rintro ⟨⟨u, k⟩, hhead, rfl⟩
    have hfirst := first_iff_head?.mpr hhead
    exact ⟨u, k, hfirst, Nat.sub_add_cancel hfirst.parses.length_le⟩
  · rintro ⟨u, k, hfirst, hn⟩
    exact ⟨(u, k), first_iff_head?.mp hfirst, by rw [← hn, Nat.add_sub_cancel]⟩

theorem prefersWhole_iff {r : Regexp α} {l : List α} :
    PrefersWhole r l ↔ r.firstEnd l = some l.length := by
  rw [firstEnd_eq_some_iff]
  constructor
  · rintro ⟨u, hu⟩
    exact ⟨u, [], hu, rfl⟩
  · rintro ⟨u, k, hu, hk⟩
    have hnil : k = [] := List.length_eq_zero_iff.mp (by omega)
    exact ⟨u, hnil ▸ hu⟩

/-- A text whose preferred match is the whole is in the language. -/
theorem PrefersWhole.mem_lang {r : Regexp α} {l : List α} (h : PrefersWhole r l) : l ∈ r.lang := by
  obtain ⟨u, hu⟩ := h
  exact mem_lang_iff_nil.mpr ⟨u, hu.parses⟩

/-! ## The longest match -/

/-- The lengths of the beginnings of a text that are in the language. -/
def lengths (r : Regexp α) (l : List α) : Set ℕ :=
  {n | ∃ w k, w ∈ r.lang ∧ l = w ++ k ∧ w.length = n}

theorem mem_lengths_iff {r : Regexp α} {l : List α} {n : ℕ} :
    n ∈ r.lengths l ↔ ∃ u k, Parses r l u k ∧ n + k.length = l.length := by
  constructor
  · rintro ⟨w, k, hw, rfl, rfl⟩
    obtain ⟨u, hu⟩ := exists_parses hw k
    exact ⟨u, k, hu, (List.length_append ..).symm⟩
  · rintro ⟨u, k, hu, hn⟩
    obtain ⟨w, hw, rfl⟩ := hu.exists_mem_lang
    rw [List.length_append] at hn
    exact ⟨w, k, hw, rfl, by omega⟩

theorem longestEnd_eq_some_iff {r : Regexp α} {l : List α} {n : ℕ} :
    r.longestEnd l = some n ↔ IsGreatest (r.lengths l) n := by
  have hmem : ∀ m, m ∈ (r.traces l).map (fun t => l.length - t.2.length) ↔ m ∈ r.lengths l := by
    intro m
    rw [List.mem_map, mem_lengths_iff]
    constructor
    · rintro ⟨⟨u, k⟩, ht, rfl⟩
      have hu := mem_traces_iff.mp ht
      exact ⟨u, k, hu, Nat.sub_add_cancel hu.length_le⟩
    · rintro ⟨u, k, hu, hm⟩
      exact ⟨(u, k), mem_traces_iff.mpr hu, by rw [← hm, Nat.add_sub_cancel]⟩
  rw [longestEnd, List.max?_eq_some_iff, hmem, IsGreatest, mem_upperBounds]
  simp only [hmem]

/-- **The longest match is the whole text** exactly if the text is in the language. -/
theorem isGreatest_length_iff {r : Regexp α} {l : List α} :
    IsGreatest (r.lengths l) l.length ↔ l ∈ r.lang := by
  constructor
  · rintro ⟨⟨w, k, hw, hl, hlen⟩, -⟩
    have hk : k = [] := by
      have := congrArg List.length hl
      rw [List.length_append] at this
      exact List.length_eq_zero_iff.mp (by omega)
    rwa [hl, hk, List.append_nil]
  · intro h
    refine ⟨⟨l, [], h, (List.append_nil l).symm, rfl⟩, ?_⟩
    rintro _ ⟨w, k, -, rfl, rfl⟩
    exact (List.prefix_append w k).length_le

end Regexp
