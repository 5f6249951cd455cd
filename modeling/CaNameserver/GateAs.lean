import CaNameserver.Basic

/-!
# Broadcast access rules

`gateAs.cc` reads the pvlist file of the `-p` option, in the configured default build: with
`USE_DENYFROM`, without negated patterns.  A line is tokenised twice.  The first pass works on
`inbuf`, from which the comment has been cut, and prepares `inbufWithIPs`: for a `DENY` with hosts
the head of the line followed by the addresses of those hosts that resolve, for every other line a
copy of the line as it was read, comment included, less its last character.  The second pass
tokenises that copy from scratch and builds the rules.

The regular expression library, the resolver and the value of the uninitialised `lev` are
parameters.
-/

namespace CaNameserver

open CStr Fallible

/-- `#define GATE_MAX_PVLIST_LINE_LENGTH 1024u`. -/
def gateMaxPvlistLineLength : ℕ := 1024

/-- The library behind `compilePattern` and `findEntryInList`: which patterns compile, and where
the match it reports at the start of a string ends. -/
structure Regex where
  compiles : Name → Bool
  matchEnd : Name → Name → Option ℕ

/-- `class gateAsEntry`; `realname` is its `alias`. -/
structure GateAsEntry where
  pattern : Name
  realname : Option Name
  group : Option Name
  level : ℤ
  deriving DecidableEq, Repr

/-- `new gateAsEntry(pattern)`: the defaults of the constructor. -/
def GateAsEntry.ofPattern (pattern : Name) : GateAsEntry := ⟨pattern, none, none, 1⟩

/-- `GATE_ALLOW_FIRST` and `GATE_DENY_FIRST`. -/
inductive EvalOrder where
  | allowFirst
  | denyFirst
  deriving DecidableEq, Repr

/-- `class gateAs`. -/
structure GateAs where
  evalOrder : EvalOrder
  denyFromListUsed : Bool
  denyFromTable : Name → Option (List GateAsEntry)
  denyList : List GateAsEntry
  allowList : List GateAsEntry

namespace GateAs

/-- `gateAs::default_group`. -/
def defaultGroup : Name := ['D', 'E', 'F', 'A', 'U', 'L', 'T']

/-- The delimiters of patterns, commands and groups. -/
def blanks : Name := [' ', '\t', '\n']

/-- The delimiters of host lists. -/
def hostDelim : Name := [',', ' ', '\t', '\n']

/-- No rules, in the order the constructor sets. -/
def empty : GateAs := ⟨.allowFirst, false, fun _ => none, [], []⟩

/-! ## Looking up -/

/-- The library reports a match of the whole name. -/
def fullMatch (rx : Regex) (pv : Name) (e : GateAsEntry) : Bool :=
  decide (rx.matchEnd e.pattern pv = some pv.length)

/-- `gateAs::findEntryInList`. -/
def findEntryInList (rx : Regex) (pv : Name) (list : List GateAsEntry) : Option GateAsEntry :=
  list.find? (fullMatch rx pv)

/-- `gateAs::findEntry`; `none` is the default host 0. -/
def findEntry (rx : Regex) (g : GateAs) (pv : Name) (host : Option Name) : Option GateAsEntry :=
  if ((host.bind g.denyFromTable).bind (findEntryInList rx pv)).isSome then none
  else if g.evalOrder = .allowFirst ∧ (findEntryInList rx pv g.denyList).isSome then none
  else findEntryInList rx pv g.allowList

/-! ## The first pass -/

/-- `ipAddrToDottedIP`. -/
def ipAddrToDottedIP (a : SockAddr) : Name := a.sinAddr.dotted ++ ':' :: decimal a.sinPort

/-- What a host of a `DENY` line is replaced by: its address and a blank, or nothing. -/
def expandHost (aToIPAddr : Resolver) (hname : Name) : Name :=
  match aToIPAddr hname 0 with
  | some a => cutAt ':' (ipAddrToDottedIP a) ++ [' ']
  | none => []

/-- What follows the optional `FROM` of a `DENY` line. -/
def afterFrom (r : Name) : Name :=
  match strtok hostDelim r with
  | none => r
  | some (hname, r') => if strcasecmp hname ['F', 'R', 'O', 'M'] then r' else r

/-- The pattern and the command of a line, and the rest of the line. -/
def patternCmd (l : Name) : Option (Name × Name × Name) := do
  let (pattern, r) ← strtok blanks l
  let (cmd, r) ← strtok blanks r
  return (pattern, cmd, r)

/-- `strcasecmp(cmd, "DENY") == 0`. -/
def isDeny (cmd : Name) : Bool := strcasecmp cmd ['D', 'E', 'N', 'Y']

/-- `strcasecmp(cmd, "ORDER") == 0`. -/
def isOrder (cmd : Name) : Bool := strcasecmp cmd ['O', 'R', 'D', 'E', 'R']

/-- `strcasecmp(cmd, "ALIAS") == 0`. -/
def isAlias (cmd : Name) : Bool := strcasecmp cmd ['A', 'L', 'I', 'A', 'S']

/-- The line with its hosts resolved; `inbuf` is the line without its comment, `r` what follows
the optional `FROM`. -/
def spliceHosts (aToIPAddr : Resolver) (tempInbuf inbuf r : Name) : Except Fault Name :=
  let line := tempInbuf.take (inbuf.length - (skip hostDelim r).length) ++
    (tokens hostDelim r).flatMap (expandHost aToIPAddr)
  writeBuf gateMaxPvlistLineLength line

/-- The first pass over a line read by `fgets`: `inbufWithIPs`, or `none` for a line that is
skipped.  `tempInbuf[strlen(inbuf)-1]` is a write before the buffer if the line is empty. -/
def firstPass (aToIPAddr : Resolver) (line : Name) : Except Fault (Option Name) :=
  if cstr line = [] then .error .overflow
  else
    let tempInbuf := (cstr line).dropLast
    let inbuf := cutAt '#' (cstr line)
    match patternCmd inbuf with
    | none => .ok none
    | some (_, cmd, r) =>
        if isDeny cmd ∧ skip hostDelim (afterFrom r) ≠ [] then do
          let l ← spliceHosts aToIPAddr tempInbuf inbuf (afterFrom r)
          return some l
        else .ok (some tempInbuf)

/-! ## The second pass -/

/-- `gateAsEntry::init` for the global lists: the new head of the list, if the pattern compiles. -/
def init (rx : Regex) (e : GateAsEntry) (list : List GateAsEntry) : List GateAsEntry :=
  if rx.compiles e.pattern then e :: list else list

/-- `gateAsEntry::init` for the rules of one host, and `denyFromListUsed`. -/
def initHost (rx : Regex) (pattern : Name) (g : GateAs) (hname : Name) : GateAs :=
  if rx.compiles pattern then
    { g with
      denyFromTable := Function.update g.denyFromTable hname
        (some (GateAsEntry.ofPattern pattern :: (g.denyFromTable hname).getD []))
      denyFromListUsed := true }
  else g

/-- What survives from one line to the next: the rules, and the parser's `lev`. -/
structure Reader where
  gate : GateAs
  lev : ℤ

/-- The `ORDER` command. -/
def readOrder (g : GateAs) (r : Name) : GateAs :=
  match strtok hostDelim r with
  | none => g
  | some (hname, r) =>
      match strtok hostDelim r with
      | none => g
      | some (rname, _) =>
          if strcasecmp hname ['A', 'L', 'L', 'O', 'W'] ∧ strcasecmp rname ['D', 'E', 'N', 'Y'] then
            { g with evalOrder := .allowFirst }
          else if strcasecmp hname ['D', 'E', 'N', 'Y'] ∧
              strcasecmp rname ['A', 'L', 'L', 'O', 'W'] then
            { g with evalOrder := .denyFirst }
          else g

/-- The commands that enter a rule into the allow list. -/
def isAllow (cmd : Name) : Bool :=
  strcasecmp cmd ['A', 'L', 'L', 'O', 'W'] || isAlias cmd ||
    strcasecmp cmd ['P', 'A', 'T', 'T', 'E', 'R', 'N'] || strcasecmp cmd ['P', 'V']

/-- The group and level arguments and the rule itself, for a command other than `DENY` and
`ORDER`.  A group without a level leaves `lev` as the previous lines left it. -/
def readAllow (rx : Regex) (st : Reader) (pattern cmd : Name) (rname : Option Name) (r : Name) :
    Reader :=
  let (asg, lev) :=
    match strtok blanks r with
    | none => (defaultGroup, 1)
    | some (asg, r) =>
        match strtok blanks r with
        | none => (asg, st.lev)
        | some (asl, _) => (asg, (scanInt asl).getD 1)
  if isAllow cmd then
    ⟨{ st.gate with allowList := init rx ⟨pattern, rname, some asg, lev⟩ st.gate.allowList }, lev⟩
  else ⟨st.gate, lev⟩

/-- The second pass over a line. -/
def secondPass (rx : Regex) (st : Reader) (line : Name) : Reader :=
  match patternCmd line with
  | none => st
  | some (pattern, cmd, r) =>
      if isDeny cmd then
        match tokens hostDelim (afterFrom r) with
        | [] =>
            { st with gate := { st.gate with
                denyList := init rx (GateAsEntry.ofPattern pattern) st.gate.denyList } }
        | hosts => { st with gate := hosts.foldl (initHost rx pattern) st.gate }
      else if isOrder cmd then
        { st with gate := readOrder st.gate r }
      else if isAlias cmd then
        match strtok blanks r with
        | none => st
        | some (rname, r) => readAllow rx st pattern cmd (some rname) r
      else readAllow rx st pattern cmd none r

/-! ## The file -/

/-- One turn of the loop of `readPvList`. -/
def readLine (rx : Regex) (aToIPAddr : Resolver) (st : Reader) (line : Name) :
    Except Fault Reader := do
  match ← firstPass aToIPAddr line with
  | none => return st
  | some l => return secondPass rx st l

/-- `gateAs::readPvList` on the rules of a new `gateAs`. -/
def readPvList (rx : Regex) (aToIPAddr : Resolver) (lev : ℤ) (lfile : List Char) :
    Except Fault GateAs := do
  let st ← (fgetsLines gateMaxPvlistLineLength lfile).foldlM (readLine rx aToIPAddr)
    ⟨GateAs.empty, lev⟩
  return st.gate

end GateAs

end CaNameserver
