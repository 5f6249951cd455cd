import CaNameserver.System
import Mathlib.Data.List.Basic

/-!
# The IOC name of a pathname

The name of an IOC is a component of the pathname of its list: the last one, or the one before it.
`basename_st` and `dirname_st` look for both separators.  `basename_st` prefers a `/` wherever it
stands, and `dirname_st` cuts at the last `/` and at the last `\`, of which the earlier one
decides.  Where a pathname mixes the two, neither need be the separator before the last component.

## Pathnames

`IocPath` is a pathname of at least two components, taken apart: the last two, what stands between
them, which is any mixture of separators, and what precedes them, with a separator at its end or
nothing at all.  A component has no separator in it.  So every pathname that has two components is
the `text` of one.

## The last separator of a kind

`afterLast c` and `beforeLast c` are what `strrchr` is used for.  A text with a `c` in it has a
last one (`exists_last_of_mem`), and it is unique.  The separators of the last joint decide nearly
everything: the kind of the last one, and whether there is one of the other kind, there or
earlier.

## When the components are found

* `iocname_base_iff`: the last component is found unless the last separator is a `\` and there is
  a `/`.
* `iocname_dir_iff`: the next-to-last one is found where all separators are of one kind and the
  last joint is a single one (`Plain`), and otherwise only by coincidence: the text before the
  last `\` happens to end in a component of the same name (`Coincident`, `EndsIn`).
* `iocname_iff`: both.
* `iocname_drive`: an IOC called `C:`.
-/

namespace CaNameserver

/-! ## Pathnames -/

/-- The two separators. -/
inductive Sep where
  | slash
  | backslash
  deriving DecidableEq, Repr

namespace Sep

/-- The character. -/
def char : Sep → Char
  | slash => '/'
  | backslash => '\\'

/-- The other separator. -/
def other : Sep → Sep
  | slash => backslash
  | backslash => slash

theorem char_injective : Function.Injective char := by
  intro s t h
  cases s <;> cases t <;> first | rfl | exact absurd h (by decide)

theorem other_ne (s : Sep) : s.other ≠ s := by
  cases s <;> decide

theorem eq_or_eq_other (s t : Sep) : t = s ∨ t = s.other := by
  cases s <;> cases t <;> decide

/-- A text of separators. -/
def text (seps : List Sep) : Name := seps.map char

end Sep

/-- A component of a pathname. -/
structure Component where
  name : Name
  ne_nil : name ≠ []
  noSep : ∀ s : Sep, s.char ∉ name

/-- What stands between two components: any mixture of separators. -/
structure Joint where
  seps : List Sep
  ne_nil : seps ≠ []

/-- A pathname of two components or more. -/
structure IocPath where
  /-- separators before the first component -/
  lead : List Sep
  /-- the components before the next-to-last one, each with what follows it -/
  front : List (Component × Joint)
  dir : Component
  joint : Joint
  base : Component

namespace IocPath

variable (p : IocPath)

/-- What precedes the next-to-last component. -/
def before : Name :=
  Sep.text p.lead ++ p.front.flatMap fun c => c.1.name ++ Sep.text c.2.seps

/-- The pathname as it is written. -/
def text : Name := p.before ++ p.dir.name ++ Sep.text p.joint.seps ++ p.base.name

/-- Nothing precedes the next-to-last component, or a separator does. -/
theorem before_cases : p.before = [] ∨ ∃ u s, p.before = u ++ [Sep.char s] := by
  have hsep : ∀ u seps, seps ≠ [] → ∃ v s, u ++ Sep.text seps = v ++ [Sep.char s] := by
    intro u seps hne
    obtain ⟨init, s, rfl⟩ := (List.eq_nil_or_concat' seps).resolve_left hne
    exact ⟨u ++ Sep.text init, s, by simp [Sep.text]⟩
  rw [before]
  rcases List.eq_nil_or_concat' p.front with hnil | ⟨init, c, hc⟩
  · rw [hnil, List.flatMap_nil, List.append_nil]
    by_cases hlead : p.lead = []
    · exact Or.inl (by rw [hlead]; rfl)
    · exact Or.inr (by simpa using hsep [] p.lead hlead)
  · rw [hc, List.flatMap_append, List.flatMap_singleton, ← List.append_assoc, ← List.append_assoc]
    exact Or.inr (hsep _ c.2.seps c.2.ne_nil)

/-- The last separator, and the text before it. -/
theorem joint_cases : ∃ init s, p.joint.seps = init ++ [s] ∧
    p.text = (p.before ++ p.dir.name ++ Sep.text init) ++ s.char :: p.base.name := by
  obtain ⟨init, s, hs⟩ := (List.eq_nil_or_concat' p.joint.seps).resolve_left p.joint.ne_nil
  refine ⟨init, s, hs, ?_⟩
  rw [text, hs]
  simp [Sep.text]

end IocPath

/-! ## The last separator of a kind -/

theorem afterLast_append {c : Char} {v : Name} (h : c ∉ v) (u : Name) :
    afterLast c (u ++ c :: v) = v := by
  have hall : ∀ x ∈ v.reverse, decide (x ≠ c) = true := by
    intro x hx
    rw [decide_eq_true_iff]
    rintro rfl
    exact h (List.mem_reverse.mp hx)
  rw [afterLast, List.reverse_append, List.reverse_cons, List.append_assoc,
    List.takeWhile_append_of_pos hall]
  simp

theorem beforeLast_append {c : Char} {v : Name} (h : c ∉ v) (u : Name) :
    beforeLast c (u ++ c :: v) = u := by
  have hall : ∀ x ∈ v.reverse, decide (x ≠ c) = true := by
    intro x hx
    rw [decide_eq_true_iff]
    rintro rfl
    exact h (List.mem_reverse.mp hx)
  rw [beforeLast, List.reverse_append, List.reverse_cons, List.append_assoc,
    List.dropWhile_append_of_pos hall]
  simp

/-- A text with a `c` in it has a last one. -/
theorem exists_last_of_mem {c : Char} {l : Name} (h : c ∈ l) :
    ∃ u v, l = u ++ c :: v ∧ c ∉ v := by
  obtain ⟨s, t, hst, hs⟩ := List.eq_append_cons_of_mem (List.mem_reverse.mpr h)
  refine ⟨t.reverse, s.reverse, ?_, fun hv => hs (List.mem_reverse.mp hv)⟩
  rw [← List.reverse_reverse l, hst]
  simp

/-- The last `c` is unique. -/
theorem eq_of_last {c : Char} {u v u' v' : Name} (h : u ++ c :: v = u' ++ c :: v') (hv : c ∉ v)
    (hv' : c ∉ v') : u = u' ∧ v = v' := by
  constructor
  · rw [← beforeLast_append hv u, h, beforeLast_append hv']
  · rw [← afterLast_append hv u, h, afterLast_append hv']

/-! ## The helpers -/

/-- `u` is the component `d`, or ends in a separator and `d`; a `\` separates only where there is
no `/` at all. -/
def EndsIn (u d : Name) : Prop :=
  u = d ∨ (∃ w, u = w ++ '/' :: d) ∨ ('/' ∉ u ∧ ∃ w, u = w ++ '\\' :: d)

theorem basenameSt_eq_iff {d : Name} (hd : ∀ s : Sep, s.char ∉ d) (u : Name) :
    basenameSt u = d ↔ EndsIn u d := by
  have hslash : '/' ∉ d := hd .slash
  have hback : '\\' ∉ d := hd .backslash
  rw [basenameSt, EndsIn]
  split_ifs with hs hb
  · obtain ⟨w, v, rfl, hv⟩ := exists_last_of_mem hs
    rw [afterLast_append hv]
    constructor
    · rintro rfl
      exact Or.inr (Or.inl ⟨w, rfl⟩)
    · rintro (heq | ⟨w', heq⟩ | ⟨hno, -⟩)
      · exact absurd (heq ▸ hs) hslash
      · exact (eq_of_last heq hv hslash).2
      · exact absurd hs hno
  · obtain ⟨w, v, rfl, hv⟩ := exists_last_of_mem hb
    rw [afterLast_append hv]
    constructor
    · rintro rfl
      exact Or.inr (Or.inr ⟨hs, w, rfl⟩)
    · rintro (heq | ⟨w', heq⟩ | ⟨-, w', heq⟩)
      · exact absurd (heq ▸ hb) hback
      · exact absurd (heq ▸ by simp) hs
      · exact (eq_of_last heq hv hback).2
  · constructor
    · exact Or.inl
    · rintro (heq | ⟨w, heq⟩ | ⟨-, w, heq⟩)
      · exact heq
      · exact absurd (heq ▸ by simp) hs
      · exact absurd (heq ▸ by simp) hb

theorem EndsIn.suffix {u d : Name} (h : EndsIn u d) : ∃ w, u = w ++ d := by
  rcases h with rfl | ⟨w, rfl⟩ | ⟨-, w, rfl⟩
  · exact ⟨[], rfl⟩
  · exact ⟨w ++ ['/'], by simp⟩
  · exact ⟨w ++ ['\\'], by simp⟩

/-- Where there is one kind of separator, `dirname_st` cuts at the last one. -/
theorem dirnameSt_one {s : Sep} {u v : Name} (hv : s.char ∉ v)
    (hother : s.other.char ∉ u ++ s.char :: v) : dirnameSt (u ++ s.char :: v) = u := by
  have hmem : s.char ∈ u ++ s.char :: v := by simp
  cases s with
  | slash =>
      have hs : '/' ∈ u ++ '/' :: v := hmem
      have hb : '\\' ∉ u ++ '/' :: v := hother
      show dirnameSt (u ++ '/' :: v) = u
      rw [dirnameSt, if_pos hs, if_neg hb]
      exact beforeLast_append hv u
  | backslash =>
      have hs : '/' ∉ u ++ '\\' :: v := hother
      have hb : '\\' ∈ u ++ '\\' :: v := hmem
      have hcut : beforeLast '\\' (u ++ '\\' :: v) = u := beforeLast_append hv u
      show dirnameSt (u ++ '\\' :: v) = u
      rw [dirnameSt, if_neg hs, if_pos hb, hcut, List.take_left' rfl]

/-- Where there are both, it cuts at the last one of the kind whose last one comes earlier. -/
theorem dirnameSt_both {s : Sep} {u v : Name} (hv : s.other.char ∉ v) (hs : s.char ∈ v) :
    dirnameSt (u ++ s.other.char :: v) = u := by
  obtain ⟨w, x, rfl, hx⟩ := exists_last_of_mem hs
  clear hs
  have hsplit : u ++ s.other.char :: (w ++ s.char :: x) =
      (u ++ s.other.char :: w) ++ s.char :: x := by simp
  have hmem : s.char ∈ u ++ s.other.char :: (w ++ s.char :: x) := by simp
  have hmem' : s.other.char ∈ u ++ s.other.char :: (w ++ s.char :: x) := by simp
  cases s with
  | slash =>
      have hs : '/' ∈ u ++ '\\' :: (w ++ '/' :: x) := hmem
      have hb : '\\' ∈ u ++ '\\' :: (w ++ '/' :: x) := hmem'
      have hcut : beforeLast '/' (u ++ '\\' :: (w ++ '/' :: x)) = u ++ '\\' :: w := by
        rw [show u ++ '\\' :: (w ++ '/' :: x) = _ from hsplit]
        exact beforeLast_append hx _
      have hcut' : beforeLast '\\' (u ++ '\\' :: (w ++ '/' :: x)) = u := beforeLast_append hv u
      show dirnameSt (u ++ '\\' :: (w ++ '/' :: x)) = u
      rw [dirnameSt, if_pos hs, if_pos hb, hcut, hcut', List.take_left' rfl]
  | backslash =>
      have hs : '/' ∈ u ++ '/' :: (w ++ '\\' :: x) := hmem'
      have hb : '\\' ∈ u ++ '/' :: (w ++ '\\' :: x) := hmem
      have hcut : beforeLast '\\' (u ++ '/' :: (w ++ '\\' :: x)) = u ++ '/' :: w := by
        rw [show u ++ '/' :: (w ++ '\\' :: x) = _ from hsplit]
        exact beforeLast_append hx _
      have hcut' : beforeLast '/' (u ++ '/' :: (w ++ '\\' :: x)) = u := beforeLast_append hv u
      show dirnameSt (u ++ '/' :: (w ++ '\\' :: x)) = u
      rw [dirnameSt, if_pos hs, if_pos hb, hcut, hcut']
      exact List.take_of_length_le (by simp)

namespace IocPath

variable (p : IocPath)

/-- **The last component** is found unless the last separator is a `\` and there is a `/`. -/
theorem iocname_base_iff : iocname true p.text = p.base.name ↔
    '/' ∉ p.text ∨ p.joint.seps.getLast? = some .slash := by
  obtain ⟨init, s, hs, htext⟩ := p.joint_cases
  have hlast : p.joint.seps.getLast? = some s := by
    rw [hs, List.getLast?_concat]
  rw [hlast, Option.some.injEq]
  show basenameSt p.text = p.base.name ↔ _
  rw [basenameSt_eq_iff p.base.noSep, EndsIn]
  constructor
  · rintro (heq | ⟨w, heq⟩ | ⟨hno, -⟩)
    · have hmem : s.char ∈ p.base.name := by
        rw [← heq, htext]
        simp
      exact absurd hmem (p.base.noSep s)
    · refine Or.inr (Sep.char_injective ?_)
      have hrev := congrArg List.reverse (htext.symm.trans heq)
      simp only [List.reverse_append, List.reverse_cons, List.append_assoc,
        List.append_cancel_left_eq, List.singleton_append] at hrev
      exact (List.cons.inj hrev).1
    · exact Or.inl hno
  · rintro (hno | rfl)
    · cases s with
      | slash => exact absurd (by rw [htext]; simp [Sep.char]) hno
      | backslash => exact Or.inr (Or.inr ⟨hno, _, htext⟩)
    · exact Or.inr (Or.inl ⟨_, htext⟩)

/-- Before the joint stands the next-to-last component, if the joint is a single separator and all
separators are of its kind. -/
theorem endsIn_dir_iff {init : List Sep} {s : Sep} (hs : p.joint.seps = init ++ [s])
    (hkind : s.other.char ∉ p.text) :
    EndsIn (p.before ++ p.dir.name ++ Sep.text init) p.dir.name ↔ init = [] := by
  constructor
  · intro h
    obtain ⟨w, hw⟩ := h.suffix
    rcases List.eq_nil_or_concat' init with hnil | ⟨init', t, ht⟩
    · exact hnil
    · -- the text would end in a separator and in the component
      have hlast := congrArg List.getLast? hw
      rw [ht, Sep.text, List.map_append, ← List.append_assoc, List.map_singleton,
        List.getLast?_concat, List.getLast?_append_of_ne_nil _ p.dir.ne_nil] at hlast
      exact absurd (List.mem_of_getLast? hlast.symm) (p.dir.noSep t)
  · rintro rfl
    have hback : ∀ c ∈ p.before ++ p.dir.name, c ∈ p.text := by
      intro c hc
      rw [text, List.append_assoc]
      exact List.mem_append_left _ hc
    rw [Sep.text, List.map_nil, List.append_nil]
    rcases p.before_cases with hnil | ⟨u, t, hu⟩
    · rw [hnil, List.nil_append]
      exact Or.inl rfl
    · rcases s.eq_or_eq_other t with rfl | rfl
      · have hsplit : p.before ++ p.dir.name = u ++ t.char :: p.dir.name := by
          rw [hu, List.append_assoc, List.singleton_append]
        cases t with
        | slash => exact Or.inr (Or.inl ⟨u, hsplit⟩)
        | backslash => exact Or.inr (Or.inr ⟨fun hmem => hkind (hback _ hmem), u, hsplit⟩)
      · exact absurd (hback _ (by rw [hu]; simp)) hkind

/-- **The next-to-last component** is found where all separators are of one kind and the last joint
is a single one, or where it is what the earlier cut leaves. -/
theorem iocname_dir_iff {init : List Sep} {s : Sep} (hs : p.joint.seps = init ++ [s])
    (htext : p.text = (p.before ++ p.dir.name ++ Sep.text init) ++ s.char :: p.base.name) :
    iocname false p.text = p.dir.name ↔ (s.other.char ∉ p.text ∧ init = []) ∨
      ∃ u v, p.text = u ++ s.other.char :: v ∧ s.other.char ∉ v ∧ EndsIn u p.dir.name := by
  show basenameSt (dirnameSt p.text) = p.dir.name ↔ _
  rw [basenameSt_eq_iff p.dir.noSep]
  by_cases hmem : s.other.char ∈ p.text
  · rw [or_iff_right (fun h => h.1 hmem)]
    -- the last separator of the other kind is not the last separator
    obtain ⟨u, v, huv, hv⟩ : ∃ u v, p.before ++ p.dir.name ++ Sep.text init =
        u ++ s.other.char :: v ∧ s.other.char ∉ v := by
      refine exists_last_of_mem ?_
      rw [htext, List.mem_append, List.mem_cons] at hmem
      rcases hmem with h | h | h
      · exact h
      · exact absurd (Sep.char_injective h) s.other_ne
      · exact absurd h (p.base.noSep _)
    have hv' : s.other.char ∉ v ++ s.char :: p.base.name := by
      rw [List.mem_append, List.mem_cons, not_or, not_or]
      exact ⟨hv, fun h => s.other_ne (Sep.char_injective h), p.base.noSep _⟩
    have hsplit : p.text = u ++ s.other.char :: (v ++ s.char :: p.base.name) := by
      rw [htext, huv, List.append_assoc, List.cons_append]
    rw [hsplit, dirnameSt_both hv' (by simp)]
    constructor
    · exact fun h => ⟨u, _, rfl, hv', h⟩
    · rintro ⟨u', v', heq, hv'', h⟩
      rwa [(eq_of_last heq hv' hv'').1]
  · have hnone : ¬ ∃ u v, p.text = u ++ s.other.char :: v ∧ s.other.char ∉ v ∧
        EndsIn u p.dir.name := by
      rintro ⟨u, v, heq, -⟩
      exact hmem (by rw [heq]; simp)
    rw [or_iff_left hnone, and_iff_right hmem, ← p.endsIn_dir_iff hs hmem]
    have hcut : dirnameSt p.text = p.before ++ p.dir.name ++ Sep.text init := by
      rw [htext]
      exact dirnameSt_one (p.base.noSep s) (htext ▸ hmem)
    rw [hcut]

/-- All separators are of one kind, and a single one stands between the last two components. -/
def Plain : Prop := ∃ s, p.joint.seps = [s] ∧ Sep.char (Sep.other s) ∉ p.text

/-- The last separator is a `/`, and what precedes the last `\` happens to end in a component of
the name of the next-to-last one. -/
def Coincident : Prop := p.joint.seps.getLast? = some .slash ∧
  ∃ u v, p.text = u ++ '\\' :: v ∧ '\\' ∉ v ∧ EndsIn u p.dir.name

/-- **When `iocname` finds the components.** -/
theorem iocname_iff : (iocname false p.text = p.dir.name ∧ iocname true p.text = p.base.name) ↔
    p.Plain ∨ p.Coincident := by
  obtain ⟨init, s, hs, htext⟩ := p.joint_cases
  have hlast : p.joint.seps.getLast? = some s := by
    rw [hs, List.getLast?_concat]
  have hsingle : ∀ t, p.joint.seps = [t] ↔ init = [] ∧ s = t := by
    intro t
    rw [hs]
    cases init with
    | nil => simp
    | cons a l => simp
  rw [p.iocname_dir_iff hs htext, p.iocname_base_iff, Plain, Coincident, hlast, Option.some.injEq]
  constructor
  · rintro ⟨⟨hkind, hnil⟩ | ⟨u, v, heq, hv, hends⟩, hbase⟩
    · exact Or.inl ⟨s, (hsingle s).mpr ⟨hnil, rfl⟩, hkind⟩
    · cases s with
      | slash => exact Or.inr ⟨rfl, u, v, heq, hv, hends⟩
      | backslash =>
          have hmem : '/' ∈ p.text := by
            rw [heq]
            simp [Sep.other, Sep.char]
          exact absurd (hbase.resolve_right (by decide)) (not_not.mpr hmem)
  · rintro (⟨t, ht, hkind⟩ | ⟨rfl, u, v, heq, hv, hends⟩)
    · obtain ⟨hnil, rfl⟩ := (hsingle t).mp ht
      refine ⟨Or.inl ⟨hkind, hnil⟩, ?_⟩
      cases s with
      | slash => exact Or.inr rfl
      | backslash => exact Or.inl hkind
    · exact ⟨Or.inr ⟨u, v, heq, hv, hends⟩, Or.inr rfl⟩

end IocPath

/-- A component, its characters checked. -/
def Component.ofName (n : Name) (h : n ≠ [] ∧ '/' ∉ n ∧ '\\' ∉ n) : Component where
  name := n
  ne_nil := h.1
  noSep
    | .slash => h.2.1
    | .backslash => h.2.2

/-- `C:\iocs/iocmag/signal.list`. -/
def drivePath : IocPath where
  lead := []
  front := [(.ofName "C:".toList (by decide), ⟨[.backslash], by decide⟩),
    (.ofName "iocs".toList (by decide), ⟨[.slash], by decide⟩)]
  dir := .ofName "iocmag".toList (by decide)
  joint := ⟨[.slash], by decide⟩
  base := .ofName "signal.list".toList (by decide)

/-- The last `\` decides, and the IOC is called `C:`. -/
theorem iocname_drive : ¬ ∀ p : IocPath,
    iocname false p.text = p.dir.name ∧ iocname true p.text = p.base.name := by
  intro hall
  have hdir : iocname false drivePath.text = "C:".toList := by decide
  exact absurd (hdir.symm.trans (hall drivePath).1) (by decide)

end CaNameserver
