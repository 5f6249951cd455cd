import Mathlib.Algebra.Ring.Int.Defs
import Mathlib.Algebra.Ring.Nat
import CaNameserver.Lib.CString
import CaNameserver.Basic

/-!
# The command line

`main` reads its arguments in a loop with a switch.  It looks at the second character of an
argument only: `-d`, `xd` and `-debug` are the same option.  Seven options take the next argument
as their value, unless it begins with a dash, and two take none; anything else is refused, and the
loop ends.  This module says which command lines are accepted and what they set.

## What can go wrong

Two executions have no defined outcome.  The second character of an *empty* argument lies behind
the string.  And the values of `-l` and `-p` are logged as they are read, through the 1024
characters of `log_message`; a longer one is written past them, unless an earlier `-d` has set a
log level that keeps the message out.  So the outcome is an `Except`, and inside it the answer of
the program.

## A grammar

The loop is taken apart from the front.  An `Item` is an option with its value, `Item.apply` is
what it sets and `Item.message` what it logs.  Every command line is a sequence of valid items
followed by a rest at which the loop ends, and there are only five kinds of such rests (`Ends`,
`takenApart`).  The items in front are read one by one as long as their messages fit
(`commandLine_items`), and the first that does not fit ends the run (`commandLine_unfit`).  What
the items set is then a fold, and the fold is described without its order: an option has the last
value given to it (`Settings.of`, `foldl_apply_default`).

* `commandLine_iff`: the command lines that are accepted, with the settings, those that are
  refused, with the error, and those without a defined outcome.
* `commandLine_words`: settings can be written as a command line that is read back.
-/

namespace CaNameserver

open CStr Fallible

/-- The variables of `main` that options set.  `debugLevel` is the log level as well. -/
structure Settings where
  debugLevel : ℤ
  fileName : Name
  homeDir : Name
  pvPrefix : Option Name
  logFile : Name
  pvlistFile : Option Name
  serverMode : Bool
  hashTableSize : ℕ
  filenameIsIocname : Bool
  deriving DecidableEq, Repr

/-- What is set without options. -/
def Settings.default : Settings where
  debugLevel := 2
  fileName := "pvDirectory.txt".toList
  homeDir := "./".toList
  pvPrefix := none
  logFile := "log.file".toList
  pvlistFile := none
  serverMode := false
  hashTableSize := 0
  filenameIsIocname := false

/-- The message before the usage.  For a value that is missing, `argv[i-1]` is the null pointer at
the end of `argv`. -/
inductive UsageError where
  | invalid (option : Option Name)
  | invalidValue (option value : Name)
  deriving DecidableEq, Repr

/-- A branch of the switch: what it sets, and the message about it, if there is one. -/
inductive OptionKind where
  | value (set : Name → Settings → Settings) (message : Name → Option Name)
  | flag (set : Settings → Settings)
  /-- `?` falls through to the default -/
  | unknown

/-- A branch that sets something without a word. -/
def OptionKind.silent (set : Name → Settings → Settings) : OptionKind := .value set fun _ => none

/-- The text before the value of `-l`, in its message. -/
def logFileText : Name := "logging to file: ".toList

/-- The text before the value of `-p`, in its message. -/
def pvlistFileText : Name := "pvlist file: ".toList

/-- `"logging to file: %s\n"`. -/
def logFileMessage (v : Name) : Name := logFileText ++ v ++ ['\n']

/-- `"pvlist file: %s\n"`. -/
def pvlistFileMessage (v : Name) : Name := pvlistFileText ++ v ++ ['\n']

theorem length_logFileMessage (v : Name) : (logFileMessage v).length = v.length + 18 := by
  have htext : logFileText.length = 17 := by unfold logFileText; simp
  simp only [logFileMessage, List.length_append, List.length_singleton, htext]
  omega

theorem length_pvlistFileMessage (v : Name) : (pvlistFileMessage v).length = v.length + 14 := by
  have htext : pvlistFileText.length = 13 := by unfold pvlistFileText; simp
  simp only [pvlistFileMessage, List.length_append, List.length_singleton, htext]
  omega

/-- The switch. -/
def optionKind (c : Char) : OptionKind :=
  if c = 'd' then .silent fun v o => { o with debugLevel := atoi v }
  else if c = 'f' then .silent fun v o => { o with fileName := v }
  else if c = 'c' then .silent fun v o => { o with homeDir := v }
  else if c = 'x' then .silent fun v o => { o with pvPrefix := some v }
  else if c = 'l' then
    .value (fun v o => { o with logFile := v }) fun v => some (logFileMessage v)
  else if c = 'p' then
    .value (fun v o => { o with pvlistFile := some v }) fun v => some (pvlistFileMessage v)
  else if c = 's' then .flag fun o => { o with serverMode := true }
  -- `hash_table_size` is unsigned
  else if c = 'h' then .silent fun v o => { o with hashTableSize := (atoi v % 2 ^ 32).toNat }
  else if c = 'n' then .flag fun o => { o with filenameIsIocname := true }
  else .unknown

/-- `argv[i][1]`; the terminator of a string of one character, and nothing of an empty one. -/
def optionChar (arg : Name) : Option Char := (arg ++ ['\x00'])[1]?

/-- The message of a branch, at level `INFO`; what is printed does not matter here. -/
def logged (o : Settings) (message : Option Name) : Except Fault (Option Name) :=
  message.elim (.ok none) (logMessage o.debugLevel info)

/-- The loop in `main`. -/
def commandLine (o : Settings) : List Name → Except Fault (Except UsageError Settings)
  | [] => .ok (.ok o)
  | arg :: rest => do
      let c ← deref (optionChar arg) .unterminated
      match optionKind c with
      | .value set message =>
          match rest with
          | [] => .ok (.error (.invalid none))
          | v :: rest =>
              if v.head? = some '-' then .ok (.error (.invalidValue arg v))
              else do
                let _ ← logged o (message v)
                commandLine (set v o) rest
      | .flag set => commandLine (set o) rest
      | .unknown => .ok (.error (.invalid (some arg)))

/-! ## The grammar -/

/-- An option. -/
inductive Item where
  | value (arg v : Name)
  | flag (arg : Name)

/-- The arguments it is made of. -/
def Item.words : Item → List Name
  | .value arg v => [arg, v]
  | .flag arg => [arg]

/-- The options that take a value. -/
def valueChars : List Char := ['d', 'f', 'c', 'x', 'l', 'p', 'h']

/-- The options that take none. -/
def flagChars : List Char := ['s', 'n']

/-- It is an option, and has a value if it takes one. -/
def Item.valid : Item → Bool
  | .value arg v => (optionChar arg).any valueChars.contains && v.head? != some '-'
  | .flag arg => (optionChar arg).any flagChars.contains

/-- What it sets. -/
def Item.apply (o : Settings) : Item → Settings
  | .value arg v =>
      (optionChar arg).elim o fun c =>
        match optionKind c with
        | .value set _ => set v o
        | _ => o
  | .flag arg =>
      (optionChar arg).elim o fun c =>
        match optionKind c with
        | .flag set => set o
        | _ => o

/-- What it logs. -/
def Item.message : Item → Option Name
  | .value arg v =>
      if optionChar arg = some 'l' then some (logFileMessage v)
      else if optionChar arg = some 'p' then some (pvlistFileMessage v)
      else none
  | .flag _ => none

/-- Its message is above the log level, or fits `text`. -/
def Item.Fits (logLevel : ℤ) (it : Item) : Prop :=
  ∀ m, it.message = some m → logLevel < info ∨ m.length < 1024

/-- The messages of all items fit, each at the log level that the items before it leave. -/
def MessagesFit (o : Settings) (items : List Item) : Prop :=
  ∀ pre it post, items = pre ++ it :: post → it.Fits (pre.foldl Item.apply o).debugLevel

/-- Where the loop ends, and with what: `none` behind a string, `some none` at the last argument. -/
inductive Ends : List Name → Option (Option UsageError) → Prop
  | nil : Ends [] (some none)
  | empty {rest : List Name} : Ends ([] :: rest) none
  | missing {arg : Name} {c : Char} (hc : optionChar arg = some c) (hv : c ∈ valueChars) :
      Ends [arg] (some (some (.invalid none)))
  | dash {arg v : Name} {rest : List Name} {c : Char} (hc : optionChar arg = some c)
      (hv : c ∈ valueChars) (hdash : v.head? = some '-') :
      Ends (arg :: v :: rest) (some (some (.invalidValue arg v)))
  | unknown {arg : Name} {rest : List Name} {c : Char} (hc : optionChar arg = some c)
      (hv : c ∉ valueChars) (hf : c ∉ flagChars) :
      Ends (arg :: rest) (some (some (.invalid (some arg))))

section Grammar

variable {arg v : Name} {rest args : List Name} {c : Char} {o o' : Settings} {items : List Item}

theorem optionKind_value (h : c ∈ valueChars) : ∃ set message, optionKind c = .value set message ∧
    ∀ arg v, optionChar arg = some c → (Item.value arg v).message = message v := by
  simp only [valueChars, List.mem_cons, List.not_mem_nil, or_false] at h
  rcases h with rfl | rfl | rfl | rfl | rfl | rfl | rfl <;> refine ⟨_, _, rfl, fun arg v hc => ?_⟩ <;>
    rw [Item.message, hc] <;> rfl

theorem optionKind_flag (h : c ∈ flagChars) : ∃ set, optionKind c = .flag set := by
  simp only [flagChars, List.mem_cons, List.not_mem_nil, or_false] at h
  rcases h with rfl | rfl <;> exact ⟨_, rfl⟩

theorem optionKind_unknown (hv : c ∉ valueChars) (hf : c ∉ flagChars) : optionKind c = .unknown := by
  simp only [valueChars, flagChars, List.mem_cons, List.not_mem_nil, or_false, not_or] at hv hf
  simp only [optionKind, hv, hf, if_false]

theorem optionChar_eq_none_iff : optionChar arg = none ↔ arg = [] := by
  cases arg with
  | nil => exact iff_of_true rfl rfl
  | cons a l => cases l <;> exact iff_of_false (fun h => nomatch h) fun h => nomatch h

/-- One option is read. -/
theorem commandLine_item {it : Item} (h : it.valid = true) :
    commandLine o (it.words ++ rest) =
      logged o it.message >>= fun _ => commandLine (it.apply o) rest := by
  cases it with
  | value arg v =>
      obtain ⟨hc, hv⟩ := Bool.and_eq_true_iff.mp h
      obtain ⟨c, hc, hmem⟩ := (Option.any_eq_true _ _).mp hc
      obtain ⟨set, message, hset, hmessage⟩ := optionKind_value (List.contains_iff_mem.mp hmem)
      rw [bne_iff_ne] at hv
      rw [hmessage arg v hc]
      simp only [Item.words, List.cons_append, List.nil_append, commandLine, Item.apply, hc, hset,
        deref_some, ok_bind, Option.elim_some, if_neg hv]
  | flag arg =>
      obtain ⟨c, hc, hmem⟩ := (Option.any_eq_true _ _).mp h
      obtain ⟨set, hset⟩ := optionKind_flag (List.contains_iff_mem.mp hmem)
      simp only [Item.words, List.cons_append, List.nil_append, commandLine, Item.apply, hc, hset,
        deref_some, ok_bind, Option.elim_some]
      rfl

theorem logged_of_fits {it : Item} (h : it.Fits o.debugLevel) :
    ∃ text, logged o it.message = .ok text := by
  cases hm : it.message with
  | none => exact ⟨none, rfl⟩
  | some m =>
      rw [logged, Option.elim_some]
      by_cases hlevel : o.debugLevel < info
      · exact ⟨none, logMessage_eq_ok_iff.mpr (Or.inl ⟨hlevel, rfl⟩)⟩
      · exact ⟨some m, logMessage_eq_ok_iff.mpr
          (Or.inr ⟨hlevel, (h m hm).resolve_left hlevel, rfl⟩)⟩

theorem logged_of_not_fits {it : Item} (h : ¬it.Fits o.debugLevel) :
    logged o it.message = .error .overflow := by
  simp only [Item.Fits, not_forall, not_or] at h
  obtain ⟨m, hm, hlevel, hlen⟩ := h
  rw [hm, logged, Option.elim_some, logMessage, if_neg hlevel, writeBuf, if_neg hlen]
  rfl

theorem messagesFit_cons {it : Item} :
    MessagesFit o (it :: items) ↔ it.Fits o.debugLevel ∧ MessagesFit (it.apply o) items := by
  constructor
  · intro h
    refine ⟨h [] it items rfl, fun pre it' post hsplit => ?_⟩
    exact h (it :: pre) it' post (by rw [hsplit, List.cons_append])
  · rintro ⟨hit, hitems⟩ pre it' post hsplit
    cases pre with
    | nil =>
        cases hsplit
        exact hit
    | cons x pre =>
        cases hsplit
        exact hitems pre it' post rfl

/-- Options are read one after the other, if their messages fit. -/
theorem commandLine_items (h : ∀ it ∈ items, it.valid = true) (hfit : MessagesFit o items) :
    commandLine o (items.flatMap Item.words ++ rest) =
      commandLine (items.foldl Item.apply o) rest := by
  induction items generalizing o with
  | nil => rfl
  | cons it items ih =>
      obtain ⟨hit, hitems⟩ := List.forall_mem_cons.mp h
      obtain ⟨hfirst, hrest⟩ := messagesFit_cons.mp hfit
      obtain ⟨text, htext⟩ := logged_of_fits hfirst
      rw [List.flatMap_cons, List.append_assoc, commandLine_item hit, htext, ok_bind,
        ih hitems hrest, List.foldl_cons]

/-- The first message that does not fit is the end. -/
theorem commandLine_unfit (h : ∀ it ∈ items, it.valid = true) (hfit : ¬MessagesFit o items) :
    commandLine o (items.flatMap Item.words ++ rest) = .error .overflow := by
  induction items generalizing o with
  | nil => exact absurd (fun pre it post hsplit => absurd hsplit (by simp)) hfit
  | cons it items ih =>
      obtain ⟨hit, hitems⟩ := List.forall_mem_cons.mp h
      rw [List.flatMap_cons, List.append_assoc, commandLine_item hit]
      by_cases hfirst : it.Fits o.debugLevel
      · obtain ⟨text, htext⟩ := logged_of_fits hfirst
        rw [htext, ok_bind]
        exact ih hitems fun hrest => hfit (messagesFit_cons.mpr ⟨hfirst, hrest⟩)
      · rw [logged_of_not_fits hfirst]
        rfl

/-- The end of the loop. -/
theorem commandLine_ends {r : Option (Option UsageError)} (h : Ends rest r) :
    commandLine o rest =
      r.elim (.error .unterminated) fun e => .ok (e.elim (.ok o) .error) := by
  cases h with
  | nil => rfl
  | empty => rw [commandLine]; rfl
  | missing hc hv =>
      obtain ⟨set, message, hset, -⟩ := optionKind_value hv
      simp only [commandLine, hc, hset, deref_some, ok_bind]
      rfl
  | dash hc hv hdash =>
      obtain ⟨set, message, hset, -⟩ := optionKind_value hv
      simp only [commandLine, hc, hset, deref_some, ok_bind, if_pos hdash]
      rfl
  | unknown hc hv hf =>
      simp only [commandLine, hc, optionKind_unknown hv hf, deref_some, ok_bind]
      rfl

/-- Options as far as possible, and the end. -/
def TakenApart (args : List Name) : Prop :=
  ∃ (items : List Item) (rest : List Name) (r : Option (Option UsageError)),
    args = items.flatMap Item.words ++ rest ∧ (∀ it ∈ items, it.valid = true) ∧ Ends rest r

theorem TakenApart.ends {r : Option (Option UsageError)} (h : Ends args r) : TakenApart args :=
  ⟨[], args, r, rfl, fun _ hit => absurd hit List.not_mem_nil, h⟩

theorem TakenApart.cons (it : Item) (hit : it.valid = true) (h : TakenApart rest) :
    TakenApart (it.words ++ rest) := by
  obtain ⟨items, rest', r, rfl, hitems, hr⟩ := h
  refine ⟨it :: items, rest', r, ?_, List.forall_mem_cons.mpr ⟨hit, hitems⟩, hr⟩
  rw [List.flatMap_cons, List.append_assoc]

/-- **Every command line is taken apart.** -/
theorem takenApart (args : List Name) : TakenApart args := by
  induction hlen : args.length using Nat.strongRecOn generalizing args with
  | ind n ih =>
      cases args with
      | nil => exact .ends .nil
      | cons arg rest =>
          rw [List.length_cons] at hlen
          cases hc : optionChar arg with
          | none =>
              obtain rfl := optionChar_eq_none_iff.mp hc
              exact .ends .empty
          | some c =>
              by_cases hv : c ∈ valueChars
              · cases rest with
                | nil => exact .ends (.missing hc hv)
                | cons v rest =>
                    rw [List.length_cons] at hlen
                    by_cases hdash : v.head? = some '-'
                    · exact .ends (.dash hc hv hdash)
                    · refine TakenApart.cons (.value arg v) ?_ (ih rest.length (by omega) rest rfl)
                      rw [Item.valid, hc, Option.any_some, List.contains_iff_mem.mpr hv,
                        Bool.true_and, bne_iff_ne]
                      exact hdash
              · by_cases hf : c ∈ flagChars
                · refine TakenApart.cons (.flag arg) ?_ (ih rest.length (by omega) rest rfl)
                  rw [Item.valid, hc, Option.any_some, List.contains_iff_mem.mpr hf]
                · exact .ends (.unknown hc hv hf)

end Grammar

/-! ## What is set -/

/-- The value an option gives to `c`. -/
def Item.valueOf (c : Char) : Item → Option Name
  | .value arg v => if optionChar arg = some c then some v else none
  | .flag _ => none

/-- The option is the flag `c`. -/
def Item.isFlag (c : Char) : Item → Bool
  | .value _ _ => false
  | .flag arg => optionChar arg = some c

/-- The last value given to `c`. -/
def lastValue (c : Char) (items : List Item) : Option Name :=
  items.foldl (fun last it => (it.valueOf c).or last) none

/-- The flag `c` is given. -/
def flagged (c : Char) (items : List Item) : Bool := items.any (Item.isFlag c)

/-- Settings by the values and the flags. -/
def Settings.of (value : Char → Option Name) (flag : Char → Bool) : Settings where
  debugLevel := (value 'd').elim 2 atoi
  fileName := (value 'f').getD "pvDirectory.txt".toList
  homeDir := (value 'c').getD "./".toList
  pvPrefix := value 'x'
  logFile := (value 'l').getD "log.file".toList
  pvlistFile := value 'p'
  serverMode := flag 's'
  hashTableSize := (value 'h').elim 0 fun v => (atoi v % 2 ^ 32).toNat
  filenameIsIocname := flag 'n'

section Last

variable {items : List Item} {args : List Name} {o : Settings} {c : Char}

theorem optionKind_value_of (h : c ∈ valueChars) {set : Name → Settings → Settings}
    {message : Name → Option Name} (hset : optionKind c = .value set message) (v : Name)
    (value : Char → Option Name) (flag : Char → Bool) :
    set v (.of value flag) = .of (Function.update value c (some v)) flag := by
  simp only [valueChars, List.mem_cons, List.not_mem_nil, or_false] at h
  rcases h with rfl | rfl | rfl | rfl | rfl | rfl | rfl <;> cases hset <;> rfl

theorem optionKind_flag_of (h : c ∈ flagChars) {set : Settings → Settings}
    (hset : optionKind c = .flag set) (value : Char → Option Name) (flag : Char → Bool) :
    set (.of value flag) = .of value (Function.update flag c true) := by
  simp only [flagChars, List.mem_cons, List.not_mem_nil, or_false] at h
  rcases h with rfl | rfl <;> cases hset <;> rfl

theorem Item.apply_of {it : Item} (h : it.valid = true) (value : Char → Option Name)
    (flag : Char → Bool) : it.apply (.of value flag) =
      .of (fun c => (it.valueOf c).or (value c)) fun c => flag c || it.isFlag c := by
  cases it with
  | value arg v =>
      obtain ⟨hc, -⟩ := Bool.and_eq_true_iff.mp h
      obtain ⟨c, hc, hmem⟩ := (Option.any_eq_true _ _).mp hc
      obtain ⟨set, message, hset, -⟩ := optionKind_value (List.contains_iff_mem.mp hmem)
      simp only [Item.apply, hc, hset, Option.elim_some]
      rw [optionKind_value_of (List.contains_iff_mem.mp hmem) hset]
      congr 1
      · funext d
        rw [Item.valueOf, hc]
        by_cases hd : d = c
        · rw [hd, Function.update_self, if_pos rfl, Option.some_or]
        · rw [Function.update_of_ne hd, if_neg fun h => hd (Option.some.inj h).symm, Option.none_or]
      · funext d
        rw [Item.isFlag, Bool.or_false]
  | flag arg =>
      obtain ⟨c, hc, hmem⟩ := (Option.any_eq_true _ _).mp h
      obtain ⟨set, hset⟩ := optionKind_flag (List.contains_iff_mem.mp hmem)
      simp only [Item.apply, hc, hset, Option.elim_some]
      rw [optionKind_flag_of (List.contains_iff_mem.mp hmem) hset]
      congr 1
      funext d
      rw [Item.isFlag, hc]
      by_cases hd : d = c
      · rw [hd, Function.update_self, decide_eq_true rfl, Bool.or_true]
      · rw [Function.update_of_ne hd, decide_eq_false fun h => hd (Option.some.inj h).symm,
          Bool.or_false]

/-- **The last value counts.** -/
theorem foldl_apply_of (h : ∀ it ∈ items, it.valid = true) (value : Char → Option Name)
    (flag : Char → Bool) : items.foldl Item.apply (.of value flag) =
      .of (fun c => items.foldl (fun last it => (it.valueOf c).or last) (value c)) fun c =>
        flag c || flagged c items := by
  induction items generalizing value flag with
  | nil => exact congrArg (Settings.of value) (funext fun c => (Bool.or_false (flag c)).symm)
  | cons it items ih =>
      obtain ⟨hit, hitems⟩ := List.forall_mem_cons.mp h
      rw [List.foldl_cons, Item.apply_of hit, ih hitems]
      congr 1
      funext c
      rw [flagged, flagged, List.any_cons, Bool.or_assoc]

/-- What the options leave of the defaults. -/
theorem foldl_apply_default (h : ∀ it ∈ items, it.valid = true) :
    items.foldl Item.apply .default =
      .of (fun c => lastValue c items) fun c => flagged c items := by
  exact (foldl_apply_of h (fun _ => none) fun _ => false).trans
    (congrArg _ (funext fun c => Bool.false_or (flagged c items)))

/-- The log level when an option is read: the last one given before it. -/
theorem messagesFit_default_iff (h : ∀ it ∈ items, it.valid = true) :
    MessagesFit .default items ↔ ∀ pre it post, items = pre ++ it :: post → ∀ m, it.message = some m →
      (lastValue 'd' pre).elim 2 atoi < 2 ∨ m.length < 1024 := by
  refine forall_congr' fun pre => forall_congr' fun it => forall_congr' fun post =>
    forall_congr' fun hsplit => ?_
  rw [foldl_apply_default fun x hx => h x (hsplit ▸ List.mem_append_left _ hx)]
  exact Iff.rfl

/-- **What is accepted and what is refused.**  A command line is accepted if it consists of
options, each with its value, and the last value of an option is the one that counts.  Otherwise
the loop ends at the first argument that is no option, or whose value is missing or begins with a
dash, with the error that says so.  In both cases the options that are read are logged at the log
level of the moment, each in fewer than 1024 characters; a longer message overruns `text`. -/
theorem commandLine_iff (args : List Name) :
    (∀ o, commandLine .default args = .ok (.ok o) ↔ ∃ items : List Item,
      args = items.flatMap Item.words ∧ (∀ it ∈ items, it.valid = true) ∧
      MessagesFit .default items ∧
      o = .of (fun c => lastValue c items) fun c => flagged c items) ∧
    (∀ e, commandLine .default args = .ok (.error e) ↔ ∃ (items : List Item) (rest : List Name),
      args = items.flatMap Item.words ++ rest ∧ (∀ it ∈ items, it.valid = true) ∧
      MessagesFit .default items ∧ Ends rest (some (some e))) ∧
    (commandLine .default args = .error .overflow ↔ ∃ (items : List Item) (rest : List Name),
      args = items.flatMap Item.words ++ rest ∧ (∀ it ∈ items, it.valid = true) ∧
      ¬MessagesFit .default items) := by
  obtain ⟨items, rest, r, hargs, hitems, hr⟩ := takenApart args
  have hfits : MessagesFit .default items → commandLine .default args =
      r.elim (.error .unterminated) fun e =>
        .ok (e.elim (.ok (items.foldl Item.apply .default)) .error) := fun hfit => by
    rw [hargs, commandLine_items hitems hfit, commandLine_ends hr]
  have hunfit : ¬MessagesFit .default items → commandLine .default args = .error .overflow :=
    fun hfit => hargs ▸ commandLine_unfit hitems hfit
  refine ⟨fun o => ⟨fun h => ?_, ?_⟩, fun e => ⟨fun h => ?_, ?_⟩, fun h => ?_, ?_⟩
  · by_cases hfit : MessagesFit .default items
    · rw [hfits hfit, foldl_apply_default hitems] at h
      cases hr with
      | nil =>
          cases h
          exact ⟨items, by rw [hargs, List.append_nil], hitems, hfit, rfl⟩
      | _ => cases h
    · cases (hunfit hfit).symm.trans h
  · rintro ⟨items, rfl, hitems, hfit, rfl⟩
    have hread : commandLine .default (items.flatMap Item.words ++ []) =
        commandLine (items.foldl Item.apply .default) [] := commandLine_items hitems hfit
    rw [List.append_nil, foldl_apply_default hitems] at hread
    rw [hread, commandLine]
  · by_cases hfit : MessagesFit .default items
    · rw [hfits hfit] at h
      cases r with
      | none => cases h
      | some e' =>
          cases e' with
          | none => cases h
          | some e' =>
              cases h
              exact ⟨items, rest, hargs, hitems, hfit, hr⟩
    · cases (hunfit hfit).symm.trans h
  · rintro ⟨items, rest, rfl, hitems, hfit, hr⟩
    rw [commandLine_items hitems hfit, commandLine_ends hr]
    rfl
  · refine ⟨items, rest, hargs, hitems, fun hfit => ?_⟩
    rw [hfits hfit] at h
    cases r <;> cases h
  · rintro ⟨items, rest, rfl, hitems, hfit⟩
    exact commandLine_unfit hitems hfit

end Last

/-! ## Settings as a command line -/

/-- The options for all settings. -/
def Settings.items (o : Settings) : List Item :=
  [.value "-d".toList (decimal o.debugLevel.toNat), .value "-f".toList o.fileName,
    .value "-c".toList o.homeDir, .value "-l".toList o.logFile,
    .value "-h".toList (decimal o.hashTableSize)] ++
  (o.pvPrefix.toList.map (.value "-x".toList) ++ o.pvlistFile.toList.map (.value "-p".toList)) ++
  ((if o.serverMode then [.flag "-s".toList] else []) ++
    if o.filenameIsIocname then [.flag "-n".toList] else [])

def Settings.words (o : Settings) : List Name := o.items.flatMap Item.words

/-- Numbers are read as `int`, no value begins with a dash, and the names that are logged fit. -/
structure Settings.Writable (o : Settings) : Prop where
  debugLevel : 0 ≤ o.debugLevel ∧ o.debugLevel < 2 ^ 31
  hashTableSize : o.hashTableSize < 2 ^ 31
  names : ∀ v ∈ [o.fileName, o.homeDir, o.logFile] ++ (o.pvPrefix.toList ++ o.pvlistFile.toList),
    v.head? ≠ some '-'
  messages : o.debugLevel < info ∨
    o.logFile.length < 1006 ∧ ∀ v ∈ o.pvlistFile, v.length < 1010

theorem head?_decimal (n : ℕ) : (decimal n).head? ≠ some '-' := by
  intro h
  have hdigit := isDigit_of_mem_decimal (List.mem_of_mem_head? h)
  cases hdigit

theorem Settings.Writable.valid {o : Settings} (h : o.Writable) : ∀ it ∈ o.items, it.valid = true := by
  have hvalue : ∀ {arg v : Name}, (optionChar arg).any valueChars.contains = true →
      v.head? ≠ some '-' → (Item.value arg v).valid = true := fun hc hv =>
    Bool.and_eq_true_iff.mpr ⟨hc, bne_iff_ne.mpr hv⟩
  have hnames := h.names
  simp only [List.mem_append, List.mem_cons, List.not_mem_nil, or_false, Option.mem_toList]
    at hnames
  intro it hit
  rw [items, List.mem_append, List.mem_append, List.mem_append, List.mem_append] at hit
  rcases hit with (hit | hit | hit) | hit | hit
  · simp only [List.mem_cons, List.not_mem_nil, or_false] at hit
    rcases hit with rfl | rfl | rfl | rfl | rfl
    · exact hvalue rfl (head?_decimal _)
    · exact hvalue rfl (hnames _ (Or.inl (Or.inl rfl)))
    · exact hvalue rfl (hnames _ (Or.inl (Or.inr (Or.inl rfl))))
    · exact hvalue rfl (hnames _ (Or.inl (Or.inr (Or.inr rfl))))
    · exact hvalue rfl (head?_decimal _)
  · obtain ⟨v, hv, rfl⟩ := List.mem_map.mp hit
    exact hvalue rfl (hnames v (Or.inr (Or.inl (Option.mem_toList.mp hv))))
  · obtain ⟨v, hv, rfl⟩ := List.mem_map.mp hit
    exact hvalue rfl (hnames v (Or.inr (Or.inr (Option.mem_toList.mp hv))))
  · split at hit
    · rw [List.mem_singleton.mp hit]
      rfl
    · cases hit
  · split at hit
    · rw [List.mem_singleton.mp hit]
      rfl
    · cases hit

/-- Only `-d` sets the log level. -/
theorem Item.apply_debugLevel {it : Item} (h : it.valueOf 'd' = none) (o : Settings) :
    (it.apply o).debugLevel = o.debugLevel := by
  cases it with
  | value arg v =>
      rw [Item.apply]
      cases hc : optionChar arg with
      | none => rfl
      | some c =>
          have hne : c ≠ 'd' := by
            rintro rfl
            rw [Item.valueOf, if_pos hc] at h
            cases h
          rw [Option.elim_some, optionKind, if_neg hne]
          split_ifs <;> rfl
  | flag arg =>
      rw [Item.apply]
      cases hc : optionChar arg with
      | none => rfl
      | some c =>
          rw [Option.elim_some, optionKind]
          split_ifs <;> rfl

theorem messagesFit_of_level {o : Settings} {items : List Item}
    (h : ∀ it ∈ items, it.valueOf 'd' = none ∧ it.Fits o.debugLevel) : MessagesFit o items := by
  induction items generalizing o with
  | nil => exact fun pre it post hsplit => absurd hsplit (by simp)
  | cons it items ih =>
      obtain ⟨⟨hlevel, hit⟩, hitems⟩ := List.forall_mem_cons.mp h
      refine messagesFit_cons.mpr ⟨hit, ih ?_⟩
      rw [Item.apply_debugLevel hlevel]
      exact hitems

theorem Settings.Writable.debugLevel_read {o : Settings} (h : o.Writable) :
    atoi (decimal o.debugLevel.toNat) = o.debugLevel := by
  have hbounds := h.debugLevel
  rw [atoi_decimal (by omega), Int.toNat_of_nonneg hbounds.1]

/-- The log level is set first, and what is logged then fits. -/
theorem Settings.Writable.messagesFit {o : Settings} (h : o.Writable) :
    MessagesFit .default o.items := by
  have hquiet : ∀ {x : Item} {n : ℤ}, x.message = none → x.Fits n := fun hnone m hm => by
    cases hnone.symm.trans hm
  have hlogFile : (Item.value "-l".toList o.logFile).Fits o.debugLevel := by
    intro m hm
    obtain rfl : logFileMessage o.logFile = m := Option.some.inj hm
    refine h.messages.imp id fun hlen => ?_
    have hlog := hlen.1
    rw [length_logFileMessage]
    omega
  have hpvlistFile : ∀ v ∈ o.pvlistFile, (Item.value "-p".toList v).Fits o.debugLevel := by
    intro v hv m hm
    obtain rfl : pvlistFileMessage v = m := Option.some.inj hm
    refine h.messages.imp id fun hlen => ?_
    have hlist := hlen.2 v hv
    rw [length_pvlistFileMessage]
    omega
  refine messagesFit_cons.mpr ⟨hquiet rfl, messagesFit_of_level fun it hit => ?_⟩
  have hlevel : ((Item.value "-d".toList (decimal o.debugLevel.toNat)).apply .default).debugLevel =
      o.debugLevel := h.debugLevel_read
  rw [hlevel]
  rcases List.mem_append.mp hit with hit | hit
  · rcases List.mem_append.mp hit with hit | hit
    · simp only [List.mem_cons, List.not_mem_nil, or_false] at hit
      rcases hit with rfl | rfl | rfl | rfl
      · exact ⟨rfl, hquiet rfl⟩
      · exact ⟨rfl, hquiet rfl⟩
      · exact ⟨rfl, hlogFile⟩
      · exact ⟨rfl, hquiet rfl⟩
    · rcases List.mem_append.mp hit with hit | hit
      · obtain ⟨v, -, rfl⟩ := List.mem_map.mp hit
        exact ⟨rfl, hquiet rfl⟩
      · obtain ⟨v, hv, rfl⟩ := List.mem_map.mp hit
        exact ⟨rfl, hpvlistFile v (Option.mem_toList.mp hv)⟩
  · have hflag : ∀ arg, (Item.flag arg).valueOf 'd' = none ∧ (Item.flag arg).Fits o.debugLevel :=
      fun _ => ⟨rfl, hquiet rfl⟩
    rcases List.mem_append.mp hit with hit | hit
    · split at hit
      · exact List.mem_singleton.mp hit ▸ hflag _
      · cases hit
    · split at hit
      · exact List.mem_singleton.mp hit ▸ hflag _
      · cases hit

/-- **Round trip.**  The command line that is made of settings sets them. -/
theorem commandLine_words (o : Settings) (h : o.Writable) :
    commandLine .default o.words = .ok (.ok o) := by
  have hread : commandLine .default (o.items.flatMap Item.words ++ []) =
      commandLine (o.items.foldl Item.apply .default) [] := commandLine_items h.valid h.messagesFit
  rw [List.append_nil, commandLine] at hread
  rw [Settings.words, hread]
  congr 2
  obtain ⟨debugLevel, fileName, homeDir, pvPrefix, logFile, pvlistFile, serverMode, hashTableSize,
    filenameIsIocname⟩ := o
  have hdebug : atoi (decimal debugLevel.toNat) = debugLevel := h.debugLevel_read
  have hsize : (atoi (decimal hashTableSize) % 2 ^ 32).toNat = hashTableSize := by
    have hlt := h.hashTableSize
    dsimp only at hlt
    rw [atoi_decimal (by omega)]
    omega
  have hnumbers : (⟨atoi (decimal debugLevel.toNat), fileName, homeDir, pvPrefix, logFile, pvlistFile,
      serverMode, (atoi (decimal hashTableSize) % 2 ^ 32).toNat, filenameIsIocname⟩ : Settings) =
      ⟨debugLevel, fileName, homeDir, pvPrefix, logFile, pvlistFile, serverMode, hashTableSize,
        filenameIsIocname⟩ := by
    rw [hdebug, hsize]
  refine Eq.trans ?_ hnumbers
  cases pvPrefix <;> cases pvlistFile <;> cases serverMode <;> cases filenameIsIocname <;> rfl

/-- A server in the background, with its own log and a prefix. -/
theorem commandLine_words_server :
    let o : Settings := ⟨3, "pvs".toList, "/ns".toList, some "ns:".toList, "ns.log".toList, none,
      true, 300000, true⟩
    commandLine .default o.words = .ok (.ok o) := by
  intro o
  exact commandLine_words o ⟨by decide, by decide, by decide, by decide⟩

end CaNameserver
