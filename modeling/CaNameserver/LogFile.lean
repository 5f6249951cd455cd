import Mathlib.Data.List.Basic
import CaNameserver.Basic
import CaNameserver.Lib.History

/-!
# The log file

`setup_logging` begins a new log at startup, and again after every `SIGUSR2`.  An old log that is
not empty is first moved to a name with the time in seconds; if that name is taken the old log is
emptied all the same.  What the program prints must not be lost on the way, and this module says
how far that is true.

## The files

Directory entries point to files, as `link` and `unlink` see them, and `stdout` and `stderr` point
to a file of their own (`LogFiles`): a stream does not notice that its file has been renamed.  At
first both go to a terminal.  The directory can be written to, so that the only thing that fails
is a `link` to a name that exists.

The failure is reported on `stderr`.  Once `freopen` has made a file of it, `stderr` is buffered,
and the text is still in the buffer when `fopen(log_file,"w")` empties the file; `freopen` then
writes it out.  So the new log begins with the complaint about the old one.  `log_message` writes
both buffers out before and after it prints, so nothing is held over from one event to the next.

A run ends where a buffer is overrun: a message that is printed is formatted into 1024 characters,
and the name of the closed log into 200.

## The account

`LogBook` is a history that the code does not have: all that was printed, and the logs that were
closed, with their text and their file.  The invariant (`LogFiles.Booked`) ties the files to it.

* The closed logs and the log itself, one after the other, are what was printed.
* A name for a second is free as long as it was free at first and no log was closed in that
  second.
* A closed log is under its name, as it was, if the name was free, and otherwise the name is
  another file's.

There is one lemma for each way in which `setup_logging` can go (`SetUp`: no log, an empty one,
one that is moved, one that stays) and one for a message; `LogFiles.Booked.step` puts them
together.

* `log_kept`: the invariant for every run, with the events that are defined.
-/

namespace CaNameserver

open CStr Fallible Transition

/-- Directory entries point to files. -/
structure LogFiles where
  names : Name → Option ℕ
  contents : ℕ → List Char
  fresh : ℕ
  /-- where `stdout` and `stderr` go; at first to a terminal -/
  out : Option ℕ

namespace LogFiles

/-- What is written to `stdout` or `stderr` and leaves the buffer. -/
def print (f : LogFiles) (text : List Char) : LogFiles :=
  { f with
    contents := f.out.elim f.contents fun i => Function.update f.contents i (f.contents i ++ text) }

theorem print_of_none {f : LogFiles} (h : f.out = none) (text : List Char) : f.print text = f := by
  cases f
  cases h
  rfl

theorem print_of_some {f : LogFiles} {i : ℕ} (h : f.out = some i) (text : List Char) :
    f.print text =
      { f with contents := Function.update f.contents i (f.contents i ++ text) } := by
  cases f
  cases h
  rfl

theorem print_nil (f : LogFiles) : f.print [] = f := by
  cases hout : f.out with
  | none => exact print_of_none hout []
  | some i => rw [print_of_some hout, List.append_nil, Function.update_eq_self]

/-- The text before the new name. -/
def moveFailed : Name := "Failure to move old log to new name ".toList

/-- `link` and, if it succeeds, `unlink`; with what `stderr` holds afterwards. -/
def move (f : LogFiles) (i : ℕ) (logFile curTime : Name) : LogFiles × List Char :=
  if (f.names curTime).isSome then (f, moveFailed ++ curTime)
  else
    ({ f with names := Function.update (Function.update f.names curTime (some i)) logFile none }, [])

/-- `fopen(log_file,"w")`, after which both streams are opened anew for appending.  What `stderr`
held goes to its old file. -/
def openNew (f : LogFiles) (logFile : Name) (held : List Char) : LogFiles :=
  (f.names logFile).elim
    { ({ names := Function.update f.names logFile (some f.fresh)
         contents := Function.update f.contents f.fresh []
         fresh := f.fresh + 1
         out := f.out } : LogFiles).print held with out := some f.fresh }
    fun i =>
      { ({ f with contents := Function.update f.contents i [] } : LogFiles).print held with
        out := some i }

/-- The text of the old log, if `stat` finds one. -/
def old (f : LogFiles) (logFile : Name) : List Char := ((f.names logFile).map f.contents).getD []

end LogFiles

/-- The name an old log is moved to: `%s.%lu`. -/
def archive (logFile : Name) (t : ℕ) : Name := logFile ++ '.' :: decimal t

/-- `setup_logging`, in a directory that can be written to. -/
def setupLogging (logFile : Name) (t : ℕ) (f : LogFiles) : Except Fault LogFiles := do
  let moved ← (f.names logFile).elim (.ok (f, [])) fun i =>
    if f.contents i = [] then .ok (f, [])
    else do
      let curTime ← writeBuf 200 (archive logFile t)
      return f.move i logFile curTime
  return moved.1.openNew logFile moved.2

/-- `log_message`, which prints the time before the message. -/
def LogFiles.logMessage (logLevel level : ℤ) (buf message : List Char) (f : LogFiles) :
    Except Fault LogFiles := do
  let text ← CaNameserver.logMessage logLevel level message
  return text.elim f fun text => f.print (buf ++ "  ".toList ++ text)

/-- What is done to the log. -/
inductive LogEvent where
  | setup (t : ℕ)
  | message (level : ℤ) (buf text : List Char)

/-- One event. -/
def LogFiles.next (logFile : Name) (logLevel : ℤ) (f : LogFiles) : LogEvent → Except Fault LogFiles
  | .setup t => setupLogging logFile t f
  | .message level buf text => f.logMessage logLevel level buf text

/-- The event overruns no buffer: not the name of the closed log, nor a message that is printed. -/
def LogEvent.Fits (logFile : Name) (logLevel : ℤ) (f : LogFiles) : LogEvent → Prop
  | .setup t => f.old logFile = [] ∨ (archive logFile t).length < 200
  | .message level _ text => logLevel < level ∨ text.length < 1024

/-- The runs of the log.  At first the streams go elsewhere, and the old log, if there is one, has
no second name. -/
def logging (logFile : Name) (logLevel : ℤ) : System LogFiles LogEvent where
  init f := f.out = none ∧ (∀ n i, f.names n = some i → i < f.fresh) ∧
    ∀ n i, f.names logFile = some i → f.names n = some i → n = logFile
  step f e f' := f.next logFile logLevel e = .ok f'

/-! ## What was printed -/

/-- A log that is not empty when the next one is begun. -/
structure ClosedLog where
  t : ℕ
  text : List Char
  file : ℕ

/-- The names that were taken at first, the text of the old log and all that was printed to the
logs, and the logs that were closed, the last one first. -/
structure LogBook where
  taken : Name → Bool
  printed : List Char
  closed : List ClosedLog

/-- The log to be closed, if there is one. -/
def LogFiles.closing (f : LogFiles) (logFile : Name) (t : ℕ) : Option ClosedLog :=
  (f.names logFile).bind fun i => if f.contents i = [] then none else some ⟨t, f.contents i, i⟩

/-- What is said about a log that cannot be moved; on a terminal it is not in the account. -/
def LogFiles.complaint (f : LogFiles) (logFile : Name) (t : ℕ) : List Char :=
  if f.out = none ∨ f.old logFile = [] ∨ f.names (archive logFile t) = none then []
  else moveFailed ++ archive logFile t

/-- What an event adds. -/
def LogBook.next (logFile : Name) (logLevel : ℤ) (f : LogFiles) (e : LogEvent) (b : LogBook) :
    LogBook :=
  match e with
  | .setup t =>
      { b with
        printed := b.printed ++ f.complaint logFile t
        closed := (f.closing logFile t).toList ++ b.closed }
  | .message level buf text =>
      if f.out = none ∨ logLevel < level then b
      else { b with printed := b.printed ++ (buf ++ "  ".toList ++ text) }

/-- The log, with its history. -/
def bookedLogging (logFile : Name) (logLevel : ℤ) : System (LogFiles × LogBook) LogEvent :=
  (logging logFile logLevel).remember
    (fun f => ⟨fun n => (f.names n).isSome, f.old logFile, []⟩) (LogBook.next logFile logLevel)

/-- A closed log is kept if it is the first one of its second, and nobody else had the name. -/
def LogBook.keeps (b : LogBook) (logFile : Name) (t : ℕ) (earlier : List ClosedLog) : Prop :=
  b.taken (archive logFile t) = false ∧ ∀ c ∈ earlier, c.t ≠ t

/-! ## The invariant -/

section Booked

variable {logFile : Name} {logLevel : ℤ} {f f' : LogFiles} {b : LogBook}

theorem archive_ne (logFile : Name) (t : ℕ) : archive logFile t ≠ logFile := by
  intro h
  have hlen := congrArg List.length h
  rw [archive, List.length_append, List.length_cons] at hlen
  omega

theorem archive_injective (logFile : Name) : Function.Injective (archive logFile) := by
  intro t u h
  have hdigits := (List.cons.inj (List.append_cancel_left h)).2
  have hback := congrArg (fun l => Nat.ofDigitChars 10 l 0) hdigits
  simpa only [decimal, Nat.ofDigitChars_toDigits (by decide : 1 < 10) (le_refl 10)] using hback

/-- What ties the files to their history. -/
structure LogFiles.Booked (logFile : Name) (f : LogFiles) (b : LogBook) : Prop where
  lt : ∀ n i, f.names n = some i → i < f.fresh
  single : ∀ n i, f.names logFile = some i → f.names n = some i → n = logFile
  out : ∀ i, f.out = some i → f.names logFile = some i
  whole : (b.closed.reverse.map ClosedLog.text).flatten ++ f.old logFile = b.printed
  free : ∀ t, f.names (archive logFile t) = none ↔ b.keeps logFile t b.closed
  closed : ∀ later c earlier, b.closed = later ++ c :: earlier →
    (b.keeps logFile c.t earlier →
      f.names (archive logFile c.t) = some c.file ∧ f.contents c.file = c.text) ∧
    (¬b.keeps logFile c.t earlier → ∃ j, f.names (archive logFile c.t) = some j ∧ j ≠ c.file)

/-- What `setup_logging` does, if the streams go to the log or elsewhere. -/
inductive LogFiles.SetUp (logFile : Name) (t : ℕ) (f : LogFiles) : LogFiles → Prop
  | created (hnone : f.names logFile = none) :
      SetUp logFile t f
        { names := Function.update f.names logFile (some f.fresh)
          contents := Function.update f.contents f.fresh []
          fresh := f.fresh + 1
          out := some f.fresh }
  | emptied {i : ℕ} (hi : f.names logFile = some i) (htext : f.contents i = []) :
      SetUp logFile t f
        { f with contents := Function.update f.contents i [], out := some i }
  | stayed {i : ℕ} (hi : f.names logFile = some i) (htext : f.contents i ≠ [])
      (htaken : (f.names (archive logFile t)).isSome = true) :
      SetUp logFile t f
        { f with contents := Function.update f.contents i (f.complaint logFile t), out := some i }
  | moved {i : ℕ} (hi : f.names logFile = some i) (htext : f.contents i ≠ [])
      (hfree : f.names (archive logFile t) = none) :
      SetUp logFile t f
        { names := Function.update (Function.update f.names (archive logFile t) (some i)) logFile
            (some f.fresh)
          contents := Function.update f.contents f.fresh []
          fresh := f.fresh + 1
          out := some f.fresh }

theorem old_of_some {i : ℕ} (hi : f.names logFile = some i) : f.old logFile = f.contents i := by
  rw [LogFiles.old, hi]
  rfl

theorem complaint_of_old {t : ℕ} (h : f.old logFile = []) : f.complaint logFile t = [] :=
  if_pos (Or.inr (Or.inl h))

theorem complaint_of_free {t : ℕ} (h : f.names (archive logFile t) = none) :
    f.complaint logFile t = [] :=
  if_pos (Or.inr (Or.inr h))

/-- A file that is empty, and what the streams had before. -/
theorem openNew_nil {i : ℕ} (hi : f.names logFile = some i) :
    f.openNew logFile [] =
      { f with contents := Function.update f.contents i [], out := some i } := by
  rw [LogFiles.openNew, hi, Option.elim_some, LogFiles.print_nil]

theorem openNew_created (hnone : f.names logFile = none) :
    f.openNew logFile [] =
      { names := Function.update f.names logFile (some f.fresh)
        contents := Function.update f.contents f.fresh []
        fresh := f.fresh + 1
        out := some f.fresh } := by
  rw [LogFiles.openNew, hnone, Option.elim_none, LogFiles.print_nil]

/-- What `stderr` holds is written to the log after it was emptied. -/
theorem openNew_held {i t : ℕ} (hout : ∀ i, f.out = some i → f.names logFile = some i)
    (hi : f.names logFile = some i) (htext : f.contents i ≠ [])
    (htaken : (f.names (archive logFile t)).isSome = true) :
    f.openNew logFile (LogFiles.moveFailed ++ archive logFile t) =
      { f with contents := Function.update f.contents i (f.complaint logFile t), out := some i } := by
  rw [LogFiles.openNew, hi, Option.elim_some]
  cases hfout : f.out with
  | none =>
      rw [LogFiles.print_of_none rfl, LogFiles.complaint, if_pos (Or.inl hfout)]
  | some k =>
      obtain rfl : k = i := Option.some.inj ((hout k hfout).symm.trans hi)
      have hnot : ¬(f.out = none ∨ f.old logFile = [] ∨ f.names (archive logFile t) = none) := by
        rw [old_of_some hi, hfout]
        rintro (h | h | h)
        · cases h
        · exact htext h
        · rw [h] at htaken
          cases htaken
      rw [LogFiles.print_of_some rfl, LogFiles.complaint, if_neg hnot]
      dsimp only
      rw [Function.update_self, Function.update_idem, List.nil_append]

theorem setupLogging_setUp {t : ℕ} (hout : ∀ i, f.out = some i → f.names logFile = some i)
    (h : setupLogging logFile t f = .ok f') : f.SetUp logFile t f' := by
  obtain ⟨g, hg, hopen⟩ := bind_eq_ok_iff.mp h
  cases hopen
  cases hlog : f.names logFile with
  | none =>
      rw [hlog] at hg
      cases hg
      rw [openNew_created hlog]
      exact .created hlog
  | some i =>
      rw [hlog, Option.elim_some] at hg
      split_ifs at hg with htext
      · cases hg
        rw [openNew_nil hlog]
        exact .emptied hlog htext
      · obtain ⟨curTime, hbuf, hg⟩ := bind_eq_ok_iff.mp hg
        cases hg
        obtain ⟨-, rfl⟩ := writeBuf_eq_ok_iff.mp hbuf
        rw [LogFiles.move]
        split_ifs with htaken
        · rw [openNew_held hout hlog htext htaken]
          exact .stayed hlog htext htaken
        · rw [Option.not_isSome_iff_eq_none] at htaken
          rw [openNew_created (Function.update_self _ _ _)]
          dsimp only
          rw [Function.update_idem]
          exact .moved hlog htext htaken

/-- An event is defined exactly if it fits its buffers. -/
theorem next_defined_iff (e : LogEvent) :
    (∃ f', f.next logFile logLevel e = .ok f') ↔ e.Fits logFile logLevel f := by
  cases e with
  | message level buf text =>
      change (∃ f', f.logMessage logLevel level buf text = .ok f') ↔ logLevel < level ∨ text.length < 1024
      constructor
      · rintro ⟨f', h⟩
        obtain ⟨m, hm, -⟩ := bind_eq_ok_iff.mp h
        exact (logMessage_eq_ok_iff.mp hm).imp And.left fun h => h.2.1
      · intro h
        by_cases hlevel : logLevel < level
        · exact ⟨_, bind_eq_ok_iff.mpr ⟨_, logMessage_eq_ok_iff.mpr (Or.inl ⟨hlevel, rfl⟩), rfl⟩⟩
        · exact ⟨_, bind_eq_ok_iff.mpr ⟨_, logMessage_eq_ok_iff.mpr
            (Or.inr ⟨hlevel, h.resolve_left hlevel, rfl⟩), rfl⟩⟩
  | setup t =>
      change (∃ f', setupLogging logFile t f = .ok f') ↔
        f.old logFile = [] ∨ (archive logFile t).length < 200
      rw [setupLogging]
      cases hlog : f.names logFile with
      | none =>
          have hold : f.old logFile = [] := by
            rw [LogFiles.old, hlog]
            rfl
          exact iff_of_true ⟨_, rfl⟩ (Or.inl hold)
      | some i =>
          rw [old_of_some hlog, Option.elim_some]
          split_ifs with htext
          · exact iff_of_true ⟨_, rfl⟩ (Or.inl htext)
          · constructor
            · rintro ⟨f', h⟩
              obtain ⟨m, hm, -⟩ := bind_eq_ok_iff.mp h
              obtain ⟨curTime, hbuf, -⟩ := bind_eq_ok_iff.mp hm
              exact Or.inr (writeBuf_eq_ok_iff.mp hbuf).1
            · intro h
              refine ⟨_, bind_eq_ok_iff.mpr ⟨_, bind_eq_ok_iff.mpr
                ⟨_, writeBuf_eq_ok_iff.mpr ⟨h.resolve_left htext, rfl⟩, rfl⟩, rfl⟩⟩

/-- What holds of the closed logs and of one more. -/
theorem forall_closed_cons {Q : ClosedLog → List ClosedLog → Prop} {c : ClosedLog}
    {l : List ClosedLog} (hc : Q c l) (hl : ∀ later d earlier, l = later ++ d :: earlier → Q d earlier) :
    ∀ later d earlier, c :: l = later ++ d :: earlier → Q d earlier := by
  intro later d earlier h
  cases later with
  | nil =>
      cases h
      exact hc
  | cons x later => exact hl later d earlier (List.cons.inj h).2

namespace LogFiles.Booked

theorem old_eq {names : Name → Option ℕ} {contents : ℕ → List Char} {fresh : ℕ} {out : Option ℕ} {i : ℕ}
    (hi : names logFile = some i) :
    (⟨names, contents, fresh, out⟩ : LogFiles).old logFile = contents i := by
  change ((names logFile).map contents).getD [] = contents i
  rw [hi]
  rfl

/-- The log, as it is closed. -/
theorem whole_eq (h : f.Booked logFile b) {i : ℕ} (hi : f.names logFile = some i) :
    (b.closed.reverse.map ClosedLog.text).flatten ++ f.contents i = b.printed :=
  (congrArg _ (old_eq hi).symm).trans h.whole

/-- The log is not one of the archives. -/
theorem archive_file_ne (h : f.Booked logFile b) {t i j : ℕ} (hi : f.names logFile = some i)
    (hj : f.names (archive logFile t) = some j) : j ≠ i := by
  rintro rfl
  exact archive_ne logFile t (h.single _ _ hi hj)

/-- **A message.** -/
theorem print (h : f.Booked logFile b) {i : ℕ} (hi : f.out = some i) (text : List Char) :
    ({ f with contents := Function.update f.contents i (f.contents i ++ text) } : LogFiles).Booked
      logFile { b with printed := b.printed ++ text } := by
  have hlog := h.out i hi
  refine ⟨h.lt, h.single, h.out, ?_, h.free, ?_⟩
  · rw [old_eq hlog, Function.update_self, ← h.whole_eq hlog, List.append_assoc]
  · intro later c earlier hc
    obtain ⟨hkept, hlost⟩ := h.closed later c earlier hc
    refine ⟨fun hk => ?_, hlost⟩
    obtain ⟨hname, htext⟩ := hkept hk
    refine ⟨hname, ?_⟩
    dsimp only
    rw [Function.update_of_ne (h.archive_file_ne hlog hname), htext]

/-- There was no log, and now there is an empty one. -/
theorem created (h : f.Booked logFile b) (hnone : f.names logFile = none) :
    ({ names := Function.update f.names logFile (some f.fresh)
       contents := Function.update f.contents f.fresh []
       fresh := f.fresh + 1
       out := some f.fresh } : LogFiles).Booked logFile b := by
  have hother : ∀ t, Function.update f.names logFile (some f.fresh) (archive logFile t) =
      f.names (archive logFile t) := fun t => Function.update_of_ne (archive_ne logFile t) _ _
  refine ⟨?_, ?_, ?_, ?_, ?_, ?_⟩
  · intro n i hn
    dsimp only at hn ⊢
    by_cases hlog : n = logFile
    · rw [hlog, Function.update_self, Option.some_inj] at hn
      omega
    · rw [Function.update_of_ne hlog] at hn
      exact Nat.lt_succ_of_lt (h.lt n i hn)
  · intro n i hi hn
    dsimp only at hi hn
    rw [Function.update_self, Option.some_inj] at hi
    by_contra hlog
    rw [Function.update_of_ne hlog] at hn
    exact absurd (h.lt n i hn) (hi ▸ lt_irrefl _)
  · intro i hi
    rw [← hi]
    exact Function.update_self _ _ _
  · have hold : f.old logFile = [] := by
      rw [old, hnone]
      rfl
    have hwhole := h.whole
    rw [hold] at hwhole
    have hnew : (⟨Function.update f.names logFile (some f.fresh),
        Function.update f.contents f.fresh [], f.fresh + 1, some f.fresh⟩ : LogFiles).old logFile = [] :=
      (old_eq (Function.update_self _ _ _)).trans (Function.update_self _ _ _)
    rw [hnew]
    exact hwhole
  · intro t
    dsimp only
    rw [hother]
    exact h.free t
  · intro later c earlier hc
    obtain ⟨hkept, hlost⟩ := h.closed later c earlier hc
    dsimp only
    rw [hother]
    refine ⟨fun hk => ⟨(hkept hk).1, ?_⟩, hlost⟩
    rw [Function.update_of_ne (Nat.ne_of_lt (h.lt _ _ (hkept hk).1)), (hkept hk).2]

/-- The log was empty. -/
theorem reopened (h : f.Booked logFile b) {i : ℕ} (hi : f.names logFile = some i)
    (htext : f.contents i = []) :
    ({ f with contents := Function.update f.contents i [], out := some i } : LogFiles).Booked
      logFile b := by
  rw [show Function.update f.contents i [] = f.contents from htext ▸ Function.update_eq_self i _]
  exact ⟨h.lt, h.single, fun j hj => Option.some.inj hj ▸ hi, h.whole, h.free, h.closed⟩

/-- A log is closed: what it says is in the list, and the new one says nothing. -/
theorem whole_closed (h : f.Booked logFile b) {i t : ℕ} (hi : f.names logFile = some i) :
    (((⟨t, f.contents i, i⟩ :: b.closed).reverse.map ClosedLog.text).flatten ++ []) = b.printed := by
  have hwhole := h.whole_eq hi
  rw [List.reverse_cons, List.map_append, List.flatten_append, List.append_nil]
  simpa only [List.map_cons, List.map_nil, List.flatten_cons, List.flatten_nil, List.append_nil]
    using hwhole

/-- The log was not empty, but the name is taken. -/
theorem lost (h : f.Booked logFile b) {i t : ℕ} (hi : f.names logFile = some i)
    (htaken : (f.names (archive logFile t)).isSome = true) (text : List Char) :
    ({ f with contents := Function.update f.contents i text, out := some i } : LogFiles).Booked
      logFile
      { b with printed := b.printed ++ text, closed := ⟨t, f.contents i, i⟩ :: b.closed } := by
  obtain ⟨j, hj⟩ := Option.isSome_iff_exists.mp htaken
  have hnot : ¬b.keeps logFile t b.closed := by
    rw [← h.free, hj]
    exact fun h => nomatch h
  refine ⟨h.lt, h.single, fun j hj => Option.some.inj hj ▸ hi, ?_, ?_, forall_closed_cons ?_ ?_⟩
  · rw [old_eq hi, Function.update_self, ← h.whole_closed hi (t := t), List.append_nil]
  · intro u
    constructor
    · intro hu
      obtain ⟨hfree, hall⟩ := (h.free u).mp hu
      refine ⟨hfree, List.forall_mem_cons.mpr ⟨?_, hall⟩⟩
      rintro rfl
      cases hj.symm.trans hu
    · rintro ⟨hfree, hall⟩
      exact (h.free u).mpr ⟨hfree, (List.forall_mem_cons.mp hall).2⟩
  · exact ⟨fun hk => absurd hk hnot, fun _ => ⟨j, hj, h.archive_file_ne hi hj⟩⟩
  · intro later c earlier hc
    obtain ⟨hkept, hlost⟩ := h.closed later c earlier hc
    refine ⟨fun hk => ⟨(hkept hk).1, ?_⟩, hlost⟩
    dsimp only
    rw [Function.update_of_ne (h.archive_file_ne hi (hkept hk).1), (hkept hk).2]

/-- The log was not empty, and is moved. -/
theorem moved (h : f.Booked logFile b) {i t : ℕ} (hi : f.names logFile = some i)
    (hfree : f.names (archive logFile t) = none) :
    ({ names := Function.update (Function.update f.names (archive logFile t) (some i)) logFile
         (some f.fresh)
       contents := Function.update f.contents f.fresh []
       fresh := f.fresh + 1
       out := some f.fresh } : LogFiles).Booked logFile
      { b with closed := ⟨t, f.contents i, i⟩ :: b.closed } := by
  have hlt := h.lt _ _ hi
  have hself : Function.update (Function.update f.names (archive logFile t) (some i)) logFile
      (some f.fresh) (archive logFile t) = some i := by
    rw [Function.update_of_ne (archive_ne logFile t), Function.update_self]
  have hother : ∀ n, n ≠ logFile → n ≠ archive logFile t →
      Function.update (Function.update f.names (archive logFile t) (some i)) logFile (some f.fresh) n =
        f.names n := fun n hlog harch => by
    rw [Function.update_of_ne hlog, Function.update_of_ne harch]
  have hnew : ∀ u, u ≠ t → Function.update (Function.update f.names (archive logFile t) (some i)) logFile
      (some f.fresh) (archive logFile u) = f.names (archive logFile u) := fun u hu =>
    hother _ (archive_ne logFile u) ((archive_injective logFile).ne hu)
  refine ⟨?_, ?_, ?_, ?_, ?_, forall_closed_cons ?_ ?_⟩
  · intro n j hn
    dsimp only at hn ⊢
    by_cases hlog : n = logFile
    · rw [hlog, Function.update_self, Option.some_inj] at hn
      omega
    by_cases harch : n = archive logFile t
    · rw [harch, hself, Option.some_inj] at hn
      omega
    · rw [hother n hlog harch] at hn
      exact Nat.lt_succ_of_lt (h.lt n j hn)
  · intro n j hj hn
    dsimp only at hj hn
    rw [Function.update_self, Option.some_inj] at hj
    by_contra hlog
    by_cases harch : n = archive logFile t
    · rw [harch, hself, Option.some_inj] at hn
      omega
    · rw [hother n hlog harch] at hn
      exact absurd (h.lt n j hn) (hj ▸ lt_irrefl _)
  · intro j hj
    rw [← hj]
    exact Function.update_self _ _ _
  · rw [old_eq (Function.update_self _ _ _), Function.update_self]
    exact h.whole_closed hi
  · intro u
    dsimp only
    by_cases hu : u = t
    · subst hu
      rw [hself]
      exact iff_of_false (fun h => nomatch h) fun hk => hk.2 _ List.mem_cons_self rfl
    · rw [hnew u hu, h.free u]
      refine and_congr_right fun _ => ⟨fun hall => ?_, fun hall => (List.forall_mem_cons.mp hall).2⟩
      exact List.forall_mem_cons.mpr ⟨fun htu => hu htu.symm, hall⟩
  · refine ⟨fun _ => ⟨hself, ?_⟩, fun hnot => absurd ((h.free t).mp hfree) hnot⟩
    exact Function.update_of_ne (Nat.ne_of_lt hlt) _ _
  · intro later c earlier hc
    obtain ⟨hkept, hlost⟩ := h.closed later c earlier hc
    -- its name was not free any more
    have hct : ∀ {j}, f.names (archive logFile c.t) = some j → c.t ≠ t := by
      rintro j hj rfl
      cases hfree.symm.trans hj
    dsimp only
    constructor
    · intro hk
      obtain ⟨hname, htext⟩ := hkept hk
      rw [hnew _ (hct hname), Function.update_of_ne (Nat.ne_of_lt (h.lt _ _ hname))]
      exact ⟨hname, htext⟩
    · intro hk
      obtain ⟨j, hj, hne⟩ := hlost hk
      rw [hnew _ (hct hj)]
      exact ⟨j, hj, hne⟩

/-- **One event.** -/
theorem step (h : f.Booked logFile b) {e : LogEvent} (hst : (logging logFile logLevel).step f e f') :
    f'.Booked logFile (b.next logFile logLevel f e) := by
  cases e with
  | message level buf text =>
      obtain ⟨m, hm, hprint⟩ := bind_eq_ok_iff.mp hst
      cases hprint
      rw [LogBook.next]
      rcases logMessage_eq_ok_iff.mp hm with ⟨hlevel, rfl⟩ | ⟨hlevel, -, rfl⟩
      · rw [if_pos (Or.inr hlevel)]
        exact h
      rw [Option.elim_some]
      cases hout : f.out with
      | none =>
          rw [if_pos (Or.inl rfl), print_of_none hout]
          exact h
      | some i =>
          rw [if_neg fun hor => hor.elim (fun h => nomatch h) hlevel, print_of_some hout]
          exact h.print hout _
  | setup t =>
      rw [LogBook.next, LogFiles.closing]
      cases setupLogging_setUp h.out hst with
      | created hnone =>
          have hold : f.old logFile = [] := by
            rw [old, hnone]
            rfl
          rw [hnone, complaint_of_old hold, List.append_nil]
          exact h.created hnone
      | @emptied i hi htext =>
          rw [hi, Option.bind_some, if_pos htext, complaint_of_old ((old_of_some hi).trans htext),
            List.append_nil]
          exact h.reopened hi htext
      | @stayed i hi htext htaken =>
          rw [hi, Option.bind_some, if_neg htext]
          exact h.lost hi htaken _
      | @moved i hi htext hfree =>
          rw [hi, Option.bind_some, if_neg htext, complaint_of_free hfree, List.append_nil]
          exact h.moved hi hfree

end LogFiles.Booked

/-- **No text is lost, unless two logs are closed in one second.**  What was in the old log and
all that was printed since is, in order, the text of the closed logs and of the log itself.  A
closed log is kept under its second, unchanged, if it was the first of this second and the name
was free when the program began; otherwise the file of that name is another one.  The run can go
on with every event whose text and name fit their buffers, and with no other. -/
theorem log_kept (logFile : Name) (logLevel : ℤ) {f : LogFiles} {b : LogBook}
    (h : Reachable (bookedLogging logFile logLevel) (fun _ _ => True) (f, b)) :
    (b.closed.reverse.map ClosedLog.text).flatten ++ f.old logFile = b.printed ∧
    (∀ later c earlier, b.closed = later ++ c :: earlier →
      (b.taken (archive logFile c.t) = false ∧ (∀ d ∈ earlier, d.t ≠ c.t) →
        f.names (archive logFile c.t) = some c.file ∧ f.contents c.file = c.text) ∧
      (¬(b.taken (archive logFile c.t) = false ∧ ∀ d ∈ earlier, d.t ≠ c.t) →
        ∃ j, f.names (archive logFile c.t) = some j ∧ j ≠ c.file)) ∧
    ∀ e, (∃ f', f.next logFile logLevel e = .ok f') ↔ e.Fits logFile logLevel f := by
  have hall : f.Booked logFile b := by
    refine Reachable.remembered (fun _ _ => True) (I := LogFiles.Booked logFile) (J := fun _ => True)
      h (fun _ _ => trivial) ?_ ?_
    · rintro f ⟨hout, hlt, hsingle⟩ -
      refine ⟨hlt, hsingle, fun i hi => ?_, List.nil_append _, fun t => ?_, fun later c earlier hc => ?_⟩
      · cases hout.symm.trans hi
      · rw [LogBook.keeps, ← Option.not_isSome_iff_eq_none, Bool.not_eq_true]
        exact ⟨fun hnone => ⟨hnone, fun _ hc => nomatch hc⟩, And.left⟩
      · exact absurd hc (List.append_ne_nil_of_right_ne_nil _ (List.cons_ne_nil _ _)).symm
    · exact fun f e f' b _ hI _ hst => hI.step hst
  exact ⟨hall.whole, hall.closed, next_defined_iff⟩

end Booked

/-! ## A run -/

/-- One event. -/
def LogFiles.bookedNext (logFile : Name) (logLevel : ℤ) (x : LogFiles × LogBook) (e : LogEvent) :
    Option (LogFiles × LogBook) :=
  (x.1.next logFile logLevel e).toOption.map fun f => (f, x.2.next logFile logLevel x.1 e)

theorem LogFiles.step_of_bookedNext {logFile : Name} {logLevel : ℤ} {x y : LogFiles × LogBook}
    {e : LogEvent} (h : bookedNext logFile logLevel x e = some y) :
    True ∧ (bookedLogging logFile logLevel).step x e y := by
  obtain ⟨f, hf, rfl⟩ := Option.map_eq_some_iff.mp h
  exact ⟨trivial, toOption_eq_some_iff.mp hf, rfl⟩

/-- There is an old log when the program begins.  Two logs are closed in the same second, and a
third one later. -/
def twoInASecond : List LogEvent :=
  [.setup 5, .message 2 "a".toList "b".toList, .message 3 [] "c".toList, .setup 5,
    .message 2 "d".toList "e".toList, .setup 7]

theorem log_kept_twoInASecond : ∃ f b,
    Reachable (bookedLogging "log".toList 2) (fun _ _ => True) (f, b) ∧
    (f.names "log.5".toList, f.names "log.7".toList, f.names "log".toList) =
      (some 0, some 1, some 2) ∧
    (f.contents 0, f.contents 1) = ("old".toList, LogFiles.moveFailed ++ "log.5d  e".toList) ∧
    b.printed = "olda  b".toList ++ LogFiles.moveFailed ++ "log.5d  e".toList ∧
    ((b.closed.reverse.map ClosedLog.text).flatten ++ f.old "log".toList = b.printed ∧
    (∀ later c earlier, b.closed = later ++ c :: earlier →
      (b.taken (archive "log".toList c.t) = false ∧ (∀ d ∈ earlier, d.t ≠ c.t) →
        f.names (archive "log".toList c.t) = some c.file ∧ f.contents c.file = c.text) ∧
      (¬(b.taken (archive "log".toList c.t) = false ∧ ∀ d ∈ earlier, d.t ≠ c.t) →
        ∃ j, f.names (archive "log".toList c.t) = some j ∧ j ≠ c.file)) ∧
    ∀ e, (∃ f', f.next "log".toList 2 e = .ok f') ↔ e.Fits "log".toList 2 f) := by
  let f₀ : LogFiles :=
    ⟨Function.update (fun _ => none) "log".toList (some 0), fun _ => "old".toList, 1, none⟩
  let b₀ : LogBook := ⟨fun n => (f₀.names n).isSome, f₀.old "log".toList, []⟩
  have hold : ∀ n i, f₀.names n = some i → n = "log".toList ∧ i = 0 := by
    intro n i hn
    dsimp only [f₀] at hn
    by_cases hlog : n = "log".toList
    · rw [hlog, Function.update_self] at hn
      exact ⟨hlog, (Option.some.inj hn).symm⟩
    · rw [Function.update_of_ne hlog] at hn
      cases hn
  have hinit : (bookedLogging "log".toList 2).init (f₀, b₀) :=
    ⟨⟨rfl, fun n i hn => (hold n i hn).2 ▸ Nat.zero_lt_one, fun n i _ hn => (hold n i hn).1⟩, rfl⟩
  have hrun : (twoInASecond.foldlM (LogFiles.bookedNext "log".toList 2) (f₀, b₀)).any (fun x =>
      decide ((x.1.names "log.5".toList, x.1.names "log.7".toList, x.1.names "log".toList) =
          (some 0, some 1, some 2) ∧
        (x.1.contents 0, x.1.contents 1) =
          ("old".toList, LogFiles.moveFailed ++ "log.5d  e".toList) ∧
        x.2.printed = "olda  b".toList ++ LogFiles.moveFailed ++ "log.5d  e".toList)) = true := by
    decide +kernel
  obtain ⟨⟨f, b⟩, hfb, hend⟩ := (Option.any_eq_true _ _).mp hrun
  obtain ⟨hnames, hcontents, hprinted⟩ := of_decide_eq_true hend
  have hreach : Reachable (bookedLogging "log".toList 2) (fun _ _ => True) (f, b) :=
    ⟨_, _, hinit, .of_foldlM (fun _ _ _ => LogFiles.step_of_bookedNext) hfb⟩
  exact ⟨f, b, hreach, hnames, hcontents, hprinted, log_kept "log".toList 2 hreach⟩

end CaNameserver
