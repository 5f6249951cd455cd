import Mathlib.Data.Int.Notation
import Mathlib.Data.List.TakeWhile
import Mathlib.Data.Nat.Notation

/-!
# C strings and the text functions of the C library

A C string is the list of its characters, without the terminator; a buffer with embedded
terminators is read up to the first one (`cstr`).  The functions here are those of the library as
far as they return: none of them knows about the size of a buffer, except where that size decides
what is read.

## Cutting and tokens

`cutAt` is `if ((p = strchr(s, c))) *p = 0`: it takes nothing off, or the first `c` with all that
follows.  Text after the cut does not matter (`cutAt_append_of_mem`).

`strtok` returns the next token and what is left for the next call; the delimiter that ends the
token is overwritten, and so is lost.  A program that calls it with one set of delimiters over and
over sees `tokens`.  Three questions come up about a string that is made longer: where its first
token ends (`Leads`, `strtok_append_cons`), what its tokens are if a delimiter comes in between
(`tokens_append_cons`), and what they are if none does (`tokens_append_of_not_mem`).

## Words and lines

`words` are the words that `fscanf` reads with a `%s` between white space; none of them goes over
the end of a line (`flatMap_words_splitOn`).  `fgetsLines` are the strings that repeated calls of
`fgets` leave in a buffer of a given size: a line that is too long comes in pieces.  A file of
lines that fit is read line by line (`fgetsLines_lines`), and so is one that lacks the last
newline.

## Numbers

`number` reads a decimal number at the start of a string, after white space and a sign.  What a
program gets is stored in an `int` (`asInt`): a number too large for a `long` is read as the
largest one, and the `int` keeps the low half of it.  `scanInt` and `atoi` differ in what they do
where there is no number.  A number that is written in decimal is read back if it is an `int`
(`atoi_decimal`).
-/

namespace CStr

/-- The string a buffer holds: what stands before the first terminator. -/
def cstr (l : List Char) : List Char := l.takeWhile (· ≠ '\x00')

/-- Overwrite the first `c` by a terminator, if there is one. -/
def cutAt (c : Char) (l : List Char) : List Char := l.takeWhile (· ≠ c)

theorem not_mem_cutAt (c : Char) (l : List Char) : c ∉ cutAt c l := by
  intro h
  simpa using List.mem_takeWhile_imp h

theorem cutAt_eq_self {c : Char} {l : List Char} (h : c ∉ l) : cutAt c l = l := by
  refine List.takeWhile_eq_self_iff.mpr fun x hx => ?_
  rw [decide_eq_true_iff]
  rintro rfl
  exact h hx

theorem mem_of_mem_cutAt {c x : Char} {l : List Char} (h : x ∈ cutAt c l) : x ∈ l :=
  (List.takeWhile_prefix _).subset h

theorem cutAt_append_of_not_mem {c : Char} {l l' : List Char} (h : c ∉ l) :
    cutAt c (l ++ l') = l ++ cutAt c l' := by
  refine List.takeWhile_append_of_pos fun x hx => ?_
  rw [decide_eq_true_iff]
  rintro rfl
  exact h hx

/-- Text after the cut does not matter. -/
theorem cutAt_append_of_mem {c : Char} {l l' : List Char} (h : c ∈ l) :
    cutAt c (l ++ l') = cutAt c l := by
  obtain ⟨s, t, rfl, hs⟩ := List.eq_append_cons_of_mem h
  rw [List.append_assoc, cutAt_append_of_not_mem hs, cutAt_append_of_not_mem hs, List.cons_append]
  simp [cutAt]

/-- The cut takes nothing off, or the first `c` with all that follows. -/
theorem eq_cutAt_append (c : Char) (l : List Char) :
    cutAt c l = l ∨ ∃ rest, l = cutAt c l ++ c :: rest := by
  by_cases h : c ∈ l
  · obtain ⟨s, t, rfl, hs⟩ := List.eq_append_cons_of_mem h
    refine Or.inr ⟨t, ?_⟩
    rw [cutAt_append_of_not_mem hs]
    simp [cutAt]
  · exact Or.inl (cutAt_eq_self h)

/-! ## Tokens -/

/-- What `strtok` finds after the leading delimiters. -/
def skip (delim l : List Char) : List Char := l.dropWhile (· ∈ delim)

/-- One call of `strtok`: the next token and the string the following call resumes from.  The
delimiter that ends the token is overwritten by a terminator. -/
def strtok (delim l : List Char) : Option (List Char × List Char) :=
  match skip delim l with
  | [] => none
  | c :: r => some ((c :: r).takeWhile (· ∉ delim), ((c :: r).dropWhile (· ∉ delim)).tail)

/-- The tokens repeated calls of `strtok` return; `cur` is the token being read, backwards. -/
def tokensFrom (delim : List Char) : List Char → List Char → List (List Char)
  | cur, [] => if cur = [] then [] else [cur.reverse]
  | cur, c :: l =>
      if c ∈ delim then
        if cur = [] then tokensFrom delim [] l else cur.reverse :: tokensFrom delim [] l
      else tokensFrom delim (c :: cur) l

/-- The tokens repeated calls of `strtok` return. -/
def tokens (delim l : List Char) : List (List Char) := tokensFrom delim [] l

theorem tokensFrom_cons (delim : List Char) (c : Char) (cur l : List Char) :
    tokensFrom delim (c :: cur) l =
      ((c :: cur).reverse ++ l.takeWhile (· ∉ delim)) ::
        tokens delim (l.dropWhile (· ∉ delim)).tail := by
  induction l generalizing c cur with
  | nil => simp [tokensFrom, tokens]
  | cons x l ih =>
      by_cases hx : x ∈ delim
      · simp [tokensFrom, tokens, hx]
      · rw [tokensFrom, if_neg hx, ih]
        simp [hx]

/-- `tokens` are what `strtok` returns, call after call. -/
theorem tokens_eq_strtok (delim l : List Char) :
    tokens delim l =
      match strtok delim l with
      | none => []
      | some (t, r) => t :: tokens delim r := by
  induction l with
  | nil => rfl
  | cons x l ih =>
      by_cases hx : x ∈ delim
      · have hs : strtok delim (x :: l) = strtok delim l := by
          simp [strtok, skip, hx]
        rw [hs, ← ih]
        simp [tokens, tokensFrom, hx]
      · have hs : strtok delim (x :: l) = some (x :: l.takeWhile (· ∉ delim),
            (l.dropWhile (· ∉ delim)).tail) := by
          simp [strtok, skip, hx]
        rw [hs]
        simp [tokens, tokensFrom, hx, tokensFrom_cons]

theorem strtok_eq_none_iff {delim l : List Char} : strtok delim l = none ↔ tokens delim l = [] := by
  rw [tokens_eq_strtok]
  cases strtok delim l with
  | none => simp
  | some p => simp

theorem tokens_of_strtok {delim l t r : List Char} (h : strtok delim l = some (t, r)) :
    tokens delim l = t :: tokens delim r := by
  rw [tokens_eq_strtok, h]

theorem mem_of_mem_tokens {delim : List Char} {l t : List Char} {x : Char}
    (ht : t ∈ tokens delim l) (hx : x ∈ t) : x ∈ l := by
  suffices H : ∀ (l cur : List Char), ∀ t ∈ tokensFrom delim cur l, ∀ x ∈ t, x ∈ cur ∨ x ∈ l from
    (H l [] t ht x hx).resolve_left List.not_mem_nil
  intro l
  induction l with
  | nil =>
      intro cur t ht x hx
      rw [tokensFrom] at ht
      split_ifs at ht with hcur
      · cases ht
      · rw [List.mem_singleton] at ht
        subst ht
        exact Or.inl (List.mem_reverse.mp hx)
  | cons c l ih =>
      intro cur t ht x hx
      rw [tokensFrom] at ht
      split_ifs at ht with hc hcur
      · rcases ih [] t ht x hx with h | h
        · cases h
        · exact Or.inr (List.mem_cons_of_mem c h)
      · rcases List.mem_cons.mp ht with rfl | ht
        · exact Or.inl (List.mem_reverse.mp hx)
        · rcases ih [] t ht x hx with h | h
          · cases h
          · exact Or.inr (List.mem_cons_of_mem c h)
      · rcases ih (c :: cur) t ht x hx with h | h
        · rcases List.mem_cons.mp h with rfl | h
          · exact Or.inr (List.mem_cons_self ..)
          · exact Or.inl h
        · exact Or.inr (List.mem_cons_of_mem c h)

/-! ### Where a token stands -/

/-- `t` is a token that stands after nothing but delimiters. -/
structure Leads (delim pre t : List Char) : Prop where
  delims : ∀ x ∈ pre, x ∈ delim
  ne_nil : t ≠ []
  not_mem : ∀ x ∈ t, x ∉ delim

theorem skip_append {delim pre l : List Char} (h : ∀ x ∈ pre, x ∈ delim) :
    skip delim (pre ++ l) = skip delim l :=
  List.dropWhile_append_of_pos fun x hx => by simpa using h x hx

/-- What `skip` leaves begins with no delimiter. -/
theorem skip_eq_append (delim l : List Char) :
    ∃ pre, (∀ x ∈ pre, x ∈ delim) ∧ l = pre ++ skip delim l :=
  ⟨l.takeWhile (· ∈ delim), fun _ hx => by simpa using List.mem_takeWhile_imp hx,
    List.takeWhile_append_dropWhile.symm⟩

theorem tokens_append {delim pre l : List Char} (h : ∀ x ∈ pre, x ∈ delim) :
    tokens delim (pre ++ l) = tokens delim l := by
  rw [tokens_eq_strtok, tokens_eq_strtok (l := l), strtok, strtok, skip_append h]

/-- A token ends at the first delimiter after it. -/
theorem Leads.strtok_cons {delim pre t : List Char} (h : Leads delim pre t) {c : Char}
    (hc : c ∈ delim) (l : List Char) : strtok delim (pre ++ (t ++ c :: l)) = some (t, l) := by
  obtain ⟨x, u, rfl⟩ := List.exists_cons_of_ne_nil h.ne_nil
  have hx : x ∉ delim := h.not_mem x (List.mem_cons_self ..)
  have hall : ∀ y ∈ x :: u, decide (y ∉ delim) = true := by
    intro y hy
    simpa using h.not_mem y hy
  have hskip : skip delim (x :: u ++ c :: l) = x :: (u ++ c :: l) := by
    simp [skip, hx]
  rw [strtok, skip_append h.delims, hskip]
  dsimp only
  rw [← List.cons_append, List.takeWhile_append_of_pos hall, List.dropWhile_append_of_pos hall]
  simp [hc]

/-- A token ends at the end of the string. -/
theorem Leads.strtok_end {delim pre t : List Char} (h : Leads delim pre t) :
    strtok delim (pre ++ t) = some (t, []) := by
  obtain ⟨x, u, rfl⟩ := List.exists_cons_of_ne_nil h.ne_nil
  have hx : x ∉ delim := h.not_mem x (List.mem_cons_self ..)
  have hall : ∀ y ∈ x :: u, decide (y ∉ delim) = true := by
    intro y hy
    simpa using h.not_mem y hy
  have hskip : skip delim (x :: u) = x :: u := by
    simp [skip, hx]
  rw [strtok, skip_append h.delims, hskip]
  dsimp only
  rw [List.takeWhile_eq_self_iff.mpr hall, List.dropWhile_eq_nil_iff.mpr hall, List.tail_nil]

theorem strtok_cases {delim l t r : List Char} (h : strtok delim l = some (t, r)) :
    ∃ pre, Leads delim pre t ∧
      ((l = pre ++ t ∧ r = []) ∨ ∃ c ∈ delim, l = pre ++ (t ++ c :: r)) := by
  obtain ⟨pre, hpre, hl⟩ := skip_eq_append delim l
  rw [strtok] at h
  cases hs : skip delim l with
  | nil =>
      rw [hs] at h
      cases h
  | cons x u =>
      rw [hs] at h hl
      dsimp only at h
      rw [Option.some.injEq, Prod.mk.injEq] at h
      obtain ⟨ht, hr⟩ := h
      have hx : x ∉ delim := by
        have hhead := List.head?_dropWhile_not (· ∈ delim) l
        rw [show l.dropWhile (· ∈ delim) = _ from hs] at hhead
        simpa using hhead
      have hsplit := (List.takeWhile_append_dropWhile (p := (· ∉ delim)) (l := x :: u))
      rw [ht] at hsplit
      have hlead : Leads delim pre t := by
        refine ⟨hpre, ?_, ?_⟩
        · rw [← ht]
          simp [hx]
        · intro y hy
          rw [← ht] at hy
          simpa using List.mem_takeWhile_imp hy
      refine ⟨pre, hlead, ?_⟩
      cases hd : (x :: u).dropWhile (· ∉ delim) with
      | nil =>
          rw [hd, List.append_nil] at hsplit
          rw [hd, List.tail_nil] at hr
          exact Or.inl ⟨by rw [hl, hsplit], hr.symm⟩
      | cons c v =>
          have hc : c ∈ delim := by
            have hhead := List.head?_dropWhile_not (· ∉ delim) (x :: u)
            rw [hd] at hhead
            simpa using hhead
          rw [hd] at hsplit
          rw [hd, List.tail_cons] at hr
          exact Or.inr ⟨c, hc, by rw [hl, ← hsplit, hr]⟩

/-- A token goes on with a character that is no delimiter. -/
theorem Leads.strtok_run_on {delim pre t : List Char} (h : Leads delim pre t) {c : Char}
    (hc : c ∉ delim) (l : List Char) :
    ∃ u r, strtok delim (pre ++ (t ++ c :: l)) = some (u, r) ∧ c ∈ u := by
  obtain ⟨x, t', rfl⟩ := List.exists_cons_of_ne_nil h.ne_nil
  have hx : x ∉ delim := h.not_mem x (List.mem_cons_self ..)
  have hall : ∀ y ∈ x :: t', decide (y ∉ delim) = true := by
    intro y hy
    simpa using h.not_mem y hy
  have hskip : skip delim (x :: t' ++ c :: l) = x :: (t' ++ c :: l) := by
    simp [skip, hx]
  refine ⟨_, _, by rw [strtok, skip_append h.delims, hskip], ?_⟩
  rw [← List.cons_append, List.takeWhile_append_of_pos hall]
  simp [hc]

/-- The first token of a string that goes on after a character `c` which is no delimiter either
has `c` in it, or is the first token of what precedes `c`. -/
theorem strtok_append_cons {delim : List Char} {c : Char} (hc : c ∉ delim) (l x : List Char) :
    ∃ t r, strtok delim (l ++ c :: x) = some (t, r) ∧
      (c ∈ t ∨ ∃ r', strtok delim l = some (t, r') ∧ r = r' ++ c :: x) := by
  cases hl : strtok delim l with
  | none =>
      obtain ⟨pre, hpre, hskip⟩ := skip_eq_append delim l
      have hnil : skip delim l = [] := by
        rw [strtok] at hl
        cases hs : skip delim l with
        | nil => rfl
        | cons y u =>
            rw [hs] at hl
            cases hl
      rw [hnil, List.append_nil] at hskip
      have hs : skip delim (l ++ c :: x) = c :: x := by
        rw [hskip, skip_append hpre]
        simp [skip, hc]
      refine ⟨_, _, by rw [strtok, hs], Or.inl ?_⟩
      simp [hc]
  | some p =>
      obtain ⟨t, r⟩ := p
      obtain ⟨pre, hlead, ⟨rfl, rfl⟩ | ⟨d, hd, rfl⟩⟩ := strtok_cases hl
      · obtain ⟨u, r, hu, hmem⟩ := hlead.strtok_run_on hc x
        exact ⟨u, r, by rw [List.append_assoc, hu], Or.inl hmem⟩
      · refine ⟨t, r ++ c :: x, ?_, Or.inr ⟨r, rfl, rfl⟩⟩
        rw [List.append_assoc, List.append_assoc, List.cons_append]
        exact hlead.strtok_cons hd _

theorem skip_eq_nil_iff {delim l : List Char} : skip delim l = [] ↔ tokens delim l = [] := by
  rw [← strtok_eq_none_iff, strtok]
  cases skip delim l with
  | nil => simp
  | cons c r => simp

/-- A delimiter separates the tokens before it from those after it. -/
theorem tokens_append_cons {delim : List Char} {c : Char} (hc : c ∈ delim) (l r : List Char) :
    tokens delim (l ++ c :: r) = tokens delim l ++ tokens delim r := by
  suffices H : ∀ cur, tokensFrom delim cur (l ++ c :: r) =
      tokensFrom delim cur l ++ tokens delim r from H []
  induction l with
  | nil =>
      intro cur
      by_cases hcur : cur = []
      · simp [tokensFrom, tokens, hc, hcur]
      · simp [tokensFrom, tokens, hc, hcur]
  | cons x l ih =>
      intro cur
      rw [List.cons_append, tokensFrom, tokensFrom, ih, ih]
      split_ifs <;> rfl

/-- A delimiter at the end adds no token. -/
theorem tokens_append_delim {delim : List Char} {c : Char} (hc : c ∈ delim) (l : List Char) :
    tokens delim (l ++ [c]) = tokens delim l := by
  rw [tokens_append_cons hc]
  exact List.append_nil _

/-- Any other character at the end goes on with the last token, or is one of its own. -/
theorem tokens_append_of_not_mem {delim : List Char} {c : Char} (hc : c ∉ delim) (l : List Char) :
    ∃ ts t, tokens delim (l ++ [c]) = ts ++ [t ++ [c]] ∧
      tokens delim l = ts ++ if t = [] then [] else [t] := by
  suffices H : ∀ cur, ∃ ts t, tokensFrom delim cur (l ++ [c]) = ts ++ [t ++ [c]] ∧
      tokensFrom delim cur l = ts ++ if t = [] then [] else [t] from H []
  induction l with
  | nil =>
      intro cur
      refine ⟨[], cur.reverse, ?_, ?_⟩
      · simp [tokensFrom, hc]
      · simp [tokensFrom]
  | cons x l ih =>
      intro cur
      rw [List.cons_append, tokensFrom, tokensFrom]
      by_cases hx : x ∈ delim
      · obtain ⟨ts, t, hts, ht⟩ := ih []
        rw [if_pos hx, if_pos hx, hts, ht]
        by_cases hcur : cur = []
        · exact ⟨ts, t, if_pos hcur, if_pos hcur⟩
        · exact ⟨cur.reverse :: ts, t, if_neg hcur, if_neg hcur⟩
      · rw [if_neg hx, if_neg hx]
        exact ih (x :: cur)

theorem skip_append_of_ne_nil {delim l : List Char} (h : skip delim l ≠ []) (x : List Char) :
    skip delim (l ++ x) = skip delim l ++ x := by
  rw [skip, List.dropWhile_append, if_neg]
  · rfl
  · rw [List.isEmpty_iff]
    exact h

/-- Words written with a delimiter after each are read back. -/
theorem tokens_flatMap {delim : List Char} {c : Char} (hc : c ∈ delim) {ws : List (List Char)}
    (h : ∀ w ∈ ws, w ≠ [] ∧ ∀ x ∈ w, x ∉ delim) :
    tokens delim (ws.flatMap (· ++ [c])) = ws := by
  induction ws with
  | nil => rfl
  | cons w ws ih =>
      obtain ⟨hw, hwd⟩ := h w (List.mem_cons_self ..)
      have hlead : Leads delim [] w := ⟨by simp, hw, hwd⟩
      have hs := hlead.strtok_cons hc (ws.flatMap (· ++ [c]))
      rw [List.nil_append] at hs
      rw [List.flatMap_cons, List.append_assoc, List.singleton_append, tokens_of_strtok hs,
        ih fun w' hw' => h w' (List.mem_cons_of_mem w hw')]

/-! ## Words and lines of a file -/

/-- `isspace`, in the C locale. -/
def isSpace (c : Char) : Bool :=
  c = ' ' ∨ c = '\t' ∨ c = '\n' ∨ c = '\x0b' ∨ c = '\x0c' ∨ c = '\r'

/-- The white space characters. -/
def spaces : List Char := [' ', '\t', '\n', '\x0b', '\x0c', '\r']

/-- The words of a text, as `fscanf` with `" %s "` reads them one by one. -/
def words (l : List Char) : List (List Char) := tokens spaces l

/-- No word goes over the end of a line. -/
theorem flatMap_words_splitOn (l : List Char) : (l.splitOn '\n').flatMap words = words l := by
  suffices H : ∀ ls : List (List Char), words (['\n'].intercalate ls) = ls.flatMap words by
    rw [← H, List.intercalate_splitOn]
  intro ls
  induction ls with
  | nil => rfl
  | cons line ls ih =>
      by_cases hls : ls = []
      · subst hls
        simp
      · rw [List.intercalate_cons_of_ne_nil hls, List.append_assoc, List.singleton_append, words,
          tokens_append_cons (by decide), List.flatMap_cons, ← ih]
        rfl

/-- What repeated calls `fgets(buf, size, fd)` read: a call stops after a newline or after
`size - 1` characters.  `cur` is what the current call has read so far, backwards. -/
def fgetsFrom (size : ℕ) : List Char → List Char → List (List Char)
  | cur, [] => if cur = [] then [] else [cur.reverse]
  | cur, c :: l =>
      if c = '\n' ∨ cur.length + 2 = size then (c :: cur).reverse :: fgetsFrom size [] l
      else fgetsFrom size (c :: cur) l

/-- What repeated calls `fgets(buf, size, fd)` read from a file. -/
def fgetsLines (size : ℕ) (l : List Char) : List (List Char) := fgetsFrom size [] l

theorem fgetsFrom_line {size : ℕ} (cur l rest : List Char) (hnl : '\n' ∉ l)
    (hlen : cur.length + l.length + 1 < size) :
    fgetsFrom size cur (l ++ '\n' :: rest) =
      (cur.reverse ++ l ++ ['\n']) :: fgetsFrom size [] rest := by
  induction l generalizing cur with
  | nil => simp [fgetsFrom]
  | cons c l ih =>
      have hc : c ≠ '\n' := fun h => hnl (h ▸ List.mem_cons_self ..)
      have hl : '\n' ∉ l := fun h => hnl (List.mem_cons_of_mem c h)
      have hsize : ¬ (c = '\n' ∨ cur.length + 2 = size) := by
        rw [List.length_cons] at hlen
        exact fun h => h.elim hc (by omega)
      rw [List.cons_append, fgetsFrom, if_neg hsize, ih (c :: cur) hl (by simp at hlen ⊢; omega)]
      simp

/-- A file of newline-terminated lines that fit the buffer is read line by line. -/
theorem fgetsLines_lines {size : ℕ} {ls : List (List Char)}
    (h : ∀ l ∈ ls, '\n' ∉ l ∧ l.length + 1 < size) :
    fgetsLines size (ls.flatMap (· ++ ['\n'])) = ls.map (· ++ ['\n']) := by
  induction ls with
  | nil => rfl
  | cons l ls ih =>
      obtain ⟨hnl, hlen⟩ := h l (List.mem_cons_self ..)
      have ih' := ih fun l' hl' => h l' (List.mem_cons_of_mem l hl')
      rw [fgetsLines] at ih' ⊢
      rw [List.flatMap_cons, List.append_assoc, List.singleton_append,
        fgetsFrom_line [] l _ hnl (by simpa using hlen), ih']
      simp

/-- So is one whose last line has no newline. -/
theorem fgetsLines_lines_append {size : ℕ} {ls : List (List Char)} {last : List Char}
    (h : ∀ l ∈ ls, '\n' ∉ l ∧ l.length + 1 < size) (hnil : last ≠ []) (hnl : '\n' ∉ last)
    (hlen : last.length + 1 < size) :
    fgetsLines size (ls.flatMap (· ++ ['\n']) ++ last) = ls.map (· ++ ['\n']) ++ [last] := by
  have hlast : ∀ (l cur : List Char), '\n' ∉ l → cur.length + l.length + 1 < size →
      cur.reverse ++ l ≠ [] → fgetsFrom size cur l = [cur.reverse ++ l] := by
    intro l
    induction l with
    | nil =>
        intro cur _ _ hne
        rw [fgetsFrom, if_neg (by simpa using hne), List.append_nil]
    | cons c l ih =>
        intro cur hnl hlen _
        rw [List.length_cons] at hlen
        have hc : ¬ (c = '\n' ∨ cur.length + 2 = size) := by
          rintro (rfl | hsize)
          · exact hnl (List.mem_cons_self ..)
          · omega
        rw [fgetsFrom, if_neg hc, ih (c :: cur) (fun hl => hnl (List.mem_cons_of_mem c hl))
          (by rw [List.length_cons]; omega) (by simp)]
        simp
  induction ls with
  | nil =>
      rw [List.flatMap_nil, List.nil_append, fgetsLines,
        hlast last [] hnl (by simpa using hlen) (by simpa using hnil)]
      rfl
  | cons l ls ih =>
      obtain ⟨hnl', hlen'⟩ := h l (List.mem_cons_self ..)
      have ih' := ih fun l' hl' => h l' (List.mem_cons_of_mem l hl')
      rw [fgetsLines] at ih' ⊢
      rw [List.flatMap_cons, List.append_assoc, List.append_assoc, List.singleton_append,
        fgetsFrom_line [] l _ hnl' (by simpa using hlen'), ih']
      rfl

/-! ## Numbers and letter case -/

/-- `tolower`, in the C locale. -/
def toLower (c : Char) : Char :=
  if 'A' ≤ c ∧ c ≤ 'Z' then Char.ofNat (c.toNat + 32) else c

/-- `strcasecmp(a, b) == 0`. -/
def strcasecmp (a b : List Char) : Bool := a.map toLower = b.map toLower

/-- A word with a character that is not in `b`, in either case, is not `b`. -/
theorem strcasecmp_of_mem {a b : List Char} {c : Char} (h : c ∈ a)
    (hc : toLower c ∉ b.map toLower) : strcasecmp a b = false := by
  rw [strcasecmp, decide_eq_false_iff_not]
  intro heq
  rw [← heq] at hc
  exact hc (List.mem_map_of_mem h)

/-- A word is one of two different words at most. -/
theorem strcasecmp_of_ne {a b b' : List Char} (h : strcasecmp a b = true)
    (hne : b.map toLower ≠ b'.map toLower) : strcasecmp a b' = false := by
  rw [strcasecmp, decide_eq_true_iff] at h
  rw [strcasecmp, decide_eq_false_iff_not, h]
  exact hne

/-- The value of a string of digits, read after `acc`. -/
def digits : ℕ → List Char → ℕ
  | acc, [] => acc
  | acc, c :: l => if c.isDigit then digits (10 * acc + (c.toNat - 48)) l else acc

/-- The number at the start of a string, if there is one. -/
def number (l : List Char) : Option ℤ :=
  match l.dropWhile isSpace with
  | '-' :: r => if (r.head?.map Char.isDigit).getD false then some (-Int.ofNat (digits 0 r)) else none
  | '+' :: r => if (r.head?.map Char.isDigit).getD false then some (Int.ofNat (digits 0 r)) else none
  | r => if (r.head?.map Char.isDigit).getD false then some (Int.ofNat (digits 0 r)) else none

/-- What is stored in an `int`: a number too large for a `long` is read as the largest one, and
the `int` keeps the low half of it. -/
def asInt (n : ℤ) : ℤ := (Int64.ofIntClamp n).toInt32.toInt

/-- `sscanf(s, "%d", &n)`: `n`, if there is a number. -/
def scanInt (l : List Char) : Option ℤ := (number l).map asInt

/-- `atoi`: zero where there is no number. -/
def atoi (l : List Char) : ℤ := (scanInt l).getD 0

/-- A number in decimal. -/
def decimal (n : ℕ) : List Char := Nat.toDigits 10 n

theorem isDigit_of_mem_decimal {n : ℕ} {c : Char} (h : c ∈ decimal n) : c.isDigit = true :=
  Nat.isDigit_of_mem_toDigits (by decide) (by decide) h

theorem digits_eq_ofDigitChars {l : List Char} (h : ∀ c ∈ l, c.isDigit = true) (acc : ℕ) :
    digits acc l = Nat.ofDigitChars 10 l acc := by
  induction l generalizing acc with
  | nil => rfl
  | cons c l ih =>
      obtain ⟨hc, hl⟩ := List.forall_mem_cons.mp h
      rw [digits, if_pos hc, ih hl, Nat.ofDigitChars_cons]
      rfl

/-- What is written is read back. -/
theorem number_decimal (n : ℕ) : number (decimal n) = some (n : ℤ) := by
  have hvalue : digits 0 (decimal n) = n := by
    rw [digits_eq_ofDigitChars fun _ => isDigit_of_mem_decimal]
    exact Nat.ofDigitChars_ten_toDigits
  cases hl : decimal n with
  | nil => exact absurd hl Nat.toDigits_ne_nil
  | cons c l =>
      have hc : c.isDigit = true := isDigit_of_mem_decimal (hl ▸ List.mem_cons_self)
      have hne : ∀ d : Char, d.isDigit = false → c ≠ d := by
        rintro d hd rfl
        rw [hc] at hd
        cases hd
      have hspace : isSpace c = false := by
        rw [isSpace, decide_eq_false_iff_not]
        rintro (h | h | h | h | h | h) <;> exact hne _ (by decide) h
      rw [number, List.dropWhile_cons_of_neg (by rw [hspace]; exact Bool.false_ne_true)]
      split
      · rename_i heq
        exact absurd (List.cons.inj heq).1 (hne _ (by decide))
      · rename_i heq
        exact absurd (List.cons.inj heq).1 (hne _ (by decide))
      · rw [List.head?_cons, Option.map_some, Option.getD_some, if_pos hc, ← hl, hvalue]
        rfl

/-- An `int` is stored as it is. -/
theorem asInt_eq_self {n : ℤ} (hmin : -2147483648 ≤ n) (hmax : n < 2147483648) : asInt n = n := by
  rw [asInt, Int64.toInt32_ofIntClamp (by omega) (by omega),
    Int32.toInt_ofInt_of_le (by omega) (by omega)]

/-- A number that is written is read back, if it is an `int`. -/
theorem atoi_decimal {n : ℕ} (h : n < 2147483648) : atoi (decimal n) = n := by
  rw [atoi, scanInt, number_decimal, Option.map_some, Option.getD_some,
    asInt_eq_self (by omega) (by omega)]

end CStr
