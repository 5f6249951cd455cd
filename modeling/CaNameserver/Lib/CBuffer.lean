import CaNameserver.Lib.CString
import Mathlib.Data.List.Basic

/-!
# Character arrays of C

A `char` array of fixed size with all its bytes, those too that nobody has set.  It is a string if
one of its bytes is a terminator; otherwise there is nothing to be read.

* `CBuffer`, `read`: the array and the string in it.
* `strncpy`: `strncpy(buf, src, sizeof(buf) - 1)`, which does not touch the last byte.
* `cut`: a terminator is written over the first occurrence of a character.
* `read_strncpy_eq_some_iff`: what is read back is the source, cut to the array; if the source fills
  all but the last byte, it is read back exactly if that byte is a terminator already.
-/

namespace CStr

/-- `char buf[size]`. -/
structure CBuffer (size : ℕ) where
  bytes : List Char
  length_eq : bytes.length = size

namespace CBuffer

variable {size : ℕ} {s src : List Char} {b : CBuffer size}

/-- The string in the array, if it is terminated. -/
def read (b : CBuffer size) : Option (List Char) :=
  if '\x00' ∈ b.bytes then some (cstr b.bytes) else none

/-- `strncpy(buf, src, size - 1)`: the source, terminators up to the last byte, and the last byte as
it was. -/
def strncpy (b : CBuffer size) (src : List Char) : CBuffer size where
  bytes := (cstr src ++ List.replicate (size - 1) '\x00').take (size - 1) ++
    b.bytes.drop (size - 1)
  length_eq := by
    rw [List.length_append, List.length_take, List.length_append, List.length_replicate,
      List.length_drop, b.length_eq]
    omega

/-- `buf[i] = c`. -/
def set (b : CBuffer size) (i : ℕ) (c : Char) : CBuffer size where
  bytes := b.bytes.set i c
  length_eq := by rw [List.length_set, b.length_eq]

/-- Look for `c` up to the end of the string, and write a terminator over it. -/
def cut (b : CBuffer size) (c : Char) : Option (CBuffer size) :=
  b.read.map fun s => if c ∈ s then b.set (s.takeWhile (· ≠ c)).length '\x00' else b

theorem bytes_strncpy (hsrc : '\x00' ∉ src) : (b.strncpy src).bytes =
    (src ++ List.replicate (size - 1) '\x00').take (size - 1) ++ b.bytes.drop (size - 1) := by
  show (cutAt '\x00' src ++ _).take _ ++ _ = _
  rw [cutAt_eq_self hsrc]

theorem read_eq_some_iff : b.read = some s ↔ ∃ rest, b.bytes = s ++ '\x00' :: rest ∧ '\x00' ∉ s := by
  rw [read]
  constructor
  · intro h
    split_ifs at h with hmem
    cases h
    obtain ⟨u, rest, hsplit, hu⟩ := List.eq_append_cons_of_mem hmem
    have hcstr : cstr b.bytes = u := by
      rw [hsplit, show cstr _ = cutAt '\x00' _ from rfl, cutAt_append_of_not_mem hu]
      simp [cutAt]
    rw [hcstr]
    exact ⟨rest, hsplit, hu⟩
  · rintro ⟨rest, hsplit, hs⟩
    rw [if_pos (by rw [hsplit]; simp), hsplit, show cstr _ = cutAt '\x00' _ from rfl,
      cutAt_append_of_not_mem hs]
    simp [cutAt]

/-- A short source is followed by a terminator. -/
theorem read_strncpy_of_lt (hsrc : '\x00' ∉ src) (hlen : src.length < size - 1) :
    (b.strncpy src).read = some src := by
  obtain ⟨k, hk⟩ : ∃ k, size - 1 = src.length + (k + 1) := ⟨size - 1 - src.length - 1, by omega⟩
  refine read_eq_some_iff.mpr ⟨List.replicate k '\x00' ++ b.bytes.drop (size - 1), ?_, hsrc⟩
  rw [bytes_strncpy hsrc, hk, List.take_length_add_append, List.take_replicate,
    Nat.min_eq_left (Nat.le_add_left _ _), List.replicate_succ, List.append_assoc,
    List.cons_append]

/-- A source that fills all but the last byte is cut there, and followed by that byte. -/
theorem bytes_strncpy_of_le (hsrc : '\x00' ∉ src) (hsize : 0 < size)
    (hlen : size - 1 ≤ src.length) :
    (b.strncpy src).bytes = src.take (size - 1) ++ b.bytes.getLast?.toList := by
  have hlast : b.bytes.drop (size - 1) = b.bytes.getLast?.toList := by
    rcases List.eq_nil_or_concat' b.bytes with hnil | ⟨init, c, hinit⟩
    · rw [hnil]
      simp
    · have hlength := b.length_eq
      rw [hinit, List.length_append, List.length_singleton] at hlength
      rw [hinit, List.getLast?_concat, List.drop_append, List.drop_eq_nil_of_le (by omega),
        show size - 1 - init.length = 0 by omega]
      rfl
  rw [bytes_strncpy hsrc, hlast, List.take_append_of_le_length hlen]

/-- **Reading back**: the source, cut to the array, if its end is there. -/
theorem read_strncpy_eq_some_iff (hsrc : '\x00' ∉ src) (hsize : 0 < size) :
    (b.strncpy src).read = some s ↔
      s = src.take (size - 1) ∧ (src.length < size - 1 ∨ b.bytes.getLast? = some '\x00') := by
  rcases Nat.lt_or_ge src.length (size - 1) with hlt | hge
  · rw [read_strncpy_of_lt hsrc hlt, List.take_of_length_le hlt.le, Option.some.injEq, eq_comm]
    exact (and_iff_left (Or.inl hlt)).symm
  · have htake : '\x00' ∉ src.take (size - 1) := fun hx => hsrc (List.mem_of_mem_take hx)
    rw [read_eq_some_iff, bytes_strncpy_of_le hsrc hsize hge, or_iff_right (not_lt.mpr hge)]
    constructor
    · rintro ⟨rest, heq, hs⟩
      cases hlast : b.bytes.getLast? with
      | none =>
          rw [hlast, Option.toList_none, List.append_nil] at heq
          exact absurd (by rw [heq]; simp) htake
      | some c =>
          rw [hlast] at heq
          rcases List.eq_nil_or_concat' rest with hnil | ⟨init, x, hinit⟩
          · rw [hnil] at heq
            obtain ⟨hs', hc⟩ := List.append_inj' heq rfl
            exact ⟨hs'.symm, congrArg some (List.cons.inj hc).1⟩
          · -- the terminator would be in the source
            rw [hinit, ← List.cons_append, ← List.append_assoc] at heq
            exact absurd (by rw [(List.append_inj' heq rfl).1]; simp) htake
    · rintro ⟨rfl, hlast⟩
      rw [hlast]
      exact ⟨[], rfl, htake⟩

/-- A source that the array has room for. -/
theorem read_strncpy_iff (hsrc : '\x00' ∉ src) (hlen : src.length < size) :
    (b.strncpy src).read = some src ↔
      src.length < size - 1 ∨ b.bytes.getLast? = some '\x00' := by
  rw [read_strncpy_eq_some_iff hsrc (Nat.zero_lt_of_lt hlen),
    List.take_of_length_le (Nat.le_sub_one_of_lt hlen), and_iff_right rfl]

/-- What is read back is the source, or nothing. -/
theorem eq_of_read_strncpy (hsrc : '\x00' ∉ src) (hlen : src.length < size)
    (h : (b.strncpy src).read = some s) : s = src := by
  have hs := ((read_strncpy_eq_some_iff hsrc (Nat.zero_lt_of_lt hlen)).mp h).1
  rwa [List.take_of_length_le (Nat.le_sub_one_of_lt hlen)] at hs

/-- An array that holds no terminator gets one exactly from a short source. -/
theorem read_strncpy_of_not_mem (hsrc : '\x00' ∉ src) (hb : '\x00' ∉ b.bytes) :
    (b.strncpy src).read = if src.length < size - 1 then some src else none := by
  split_ifs with hlen
  · exact read_strncpy_of_lt hsrc hlen
  · rw [read, if_neg]
    rw [bytes_strncpy hsrc, List.take_append_of_le_length (not_lt.mp hlen), List.mem_append, not_or]
    exact ⟨fun hx => hsrc (List.mem_of_mem_take hx), fun hx => hb (List.mem_of_mem_drop hx)⟩

/-- **Cutting the string** in the array. -/
theorem read_cut {c : Char} (h : b.read = some s) : (b.cut c).bind read = some (cutAt c s) := by
  obtain ⟨rest, hsplit, hs⟩ := read_eq_some_iff.mp h
  rw [cut, h, Option.map_some, Option.bind_some]
  split_ifs with hmem
  · obtain ⟨u, v, rfl, hu⟩ := List.eq_append_cons_of_mem hmem
    have hcut : cutAt c (u ++ c :: v) = u := by
      rw [cutAt_append_of_not_mem hu]
      simp [cutAt]
    rw [show (u ++ c :: v).takeWhile (· ≠ c) = _ from hcut, hcut]
    refine read_eq_some_iff.mpr ⟨v ++ '\x00' :: rest, ?_, fun hx => hs (List.mem_append_left _ hx)⟩
    rw [set]
    dsimp only
    rw [hsplit, List.append_assoc, List.set_append_right _ _ (le_refl _), Nat.sub_self,
      List.cons_append, List.set_cons_zero]
  · rw [cutAt_eq_self hmem]
    exact h

theorem read_ne_none_of_cut {c : Char} {b' : CBuffer size} (h : b.cut c = some b') :
    b.read ≠ none := by
  intro hnone
  rw [cut, hnone] at h
  cases h

end CBuffer

end CStr
