import CaNameserver.Lib.CString
import CaNameserver.Lib.Fallible

/-!
# The objects of the name server

The records of `directoryServer.h` and `pvServer.h`, the constants of the fixed buffers, and the
executions that C++ gives no meaning to.

A name is a C string.  The objects keep their names in buffers of fixed size, filled by
`strncpy(buf, src, size - 1)` without a terminator being written: a source of `size - 1`
characters or more leaves a buffer whose last byte was never set, and reading it as a string
reads that byte.  `strncpy` below is the string read back, and such a read is a `Fault`.  The
same holds of every other execution without a meaning --- following a pointer to a deleted object,
deleting it again, writing past a buffer --- so that a run of the model ends where the program's
behaviour does.
-/

namespace CaNameserver

open CStr Fallible

/-- A C string: a PV name, an IOC name, a path. -/
abbrev Name := List Char

/-- `#define HOST_NAME_SZ 80`. -/
def hostNameSz : ℕ := 80

/-- `#define PV_NAME_SZ 80`. -/
def pvNameSz : ℕ := 80

/-- `#define PATH_NAME_SZ 120`. -/
def pathNameSz : ℕ := 120

/-- `#define HEARTBEAT ":heartbeat"`. -/
def heartbeat : Name := [':', 'h', 'e', 'a', 'r', 't', 'b', 'e', 'a', 't']

/-- Executions with no defined outcome. -/
inductive Fault where
  /-- a deleted `pvE` is read, or deleted again -/
  | pvEDeleted
  /-- a deleted `pIoc` is read -/
  | pIocDeleted
  /-- a null `pIoc` pointer is followed -/
  | nullPIoc
  /-- a null `FILE` pointer is followed -/
  | nullFile
  /-- a channel is used after `ca_clear_channel` -/
  | chidCleared
  /-- an uninitialised `chid` is used -/
  | chidUnset
  /-- a fixed buffer is written outside its bounds -/
  | overflow
  /-- a string is read that has no terminator, or past its terminator -/
  | unterminated
  /-- the handler does not come back -/
  | noReturn
  deriving DecidableEq, Repr

/-- The string in a `size`-byte buffer after `strncpy(buf, src, size - 1)`. -/
def strncpy (size : ℕ) (src : Name) : Except Fault Name :=
  if src.length < size - 1 then .ok src else .error .unterminated

/-- The string in a `size`-byte buffer after `s` and its terminator have been written to it, by
`sprintf`, `fscanf` or character by character. -/
def writeBuf (size : ℕ) (s : Name) : Except Fault Name :=
  if s.length < size then .ok s else .error .overflow

theorem strncpy_eq_ok_iff {size : ℕ} {src s : Name} :
    strncpy size src = .ok s ↔ src.length < size - 1 ∧ s = src := by
  unfold strncpy
  split_ifs with h <;> simp [h, eq_comm]

theorem writeBuf_eq_ok_iff {size : ℕ} {t s : Name} :
    writeBuf size t = .ok s ↔ t.length < size ∧ s = t := by
  unfold writeBuf
  split_ifs with h <;> simp [h, eq_comm]

theorem strncpy_ne_error {size : ℕ} {src : Name} {f : Fault} (hf : f ≠ .unterminated) :
    strncpy size src ≠ .error f := by
  unfold strncpy
  split_ifs
  · simp
  · simpa using hf.symm

theorem writeBuf_ne_error {size : ℕ} {t : Name} {f : Fault} (hf : f ≠ .overflow) :
    writeBuf size t ≠ .error f := by
  unfold writeBuf
  split_ifs
  · simp
  · simpa using hf.symm

/-! ## Log messages -/

/-- `#define INFO 2`, the level of most messages. -/
def info : ℤ := 2

/-- `log_message`: what it prints after the time.  A message above the log level is not looked at;
any other is formatted into `static char text[MAX_MESSAGE_CHARS]`. -/
def logMessage (logLevel level : ℤ) (message : Name) : Except Fault (Option Name) :=
  if logLevel < level then .ok none else (writeBuf 1024 message).map some

theorem logMessage_eq_ok_iff {logLevel level : ℤ} {message : Name} {text : Option Name} :
    logMessage logLevel level message = .ok text ↔
      (logLevel < level ∧ text = none) ∨
        (¬logLevel < level ∧ message.length < 1024 ∧ text = some message) := by
  unfold logMessage
  split_ifs with hlevel
  · simp [hlevel, eq_comm]
  · unfold writeBuf
    split_ifs with hlen <;> simp [Except.map, hlevel, hlen, eq_comm]

/-! ## Addresses -/

/-- `struct in_addr`, byte by byte. -/
structure InAddr where
  a : Fin 256
  b : Fin 256
  c : Fin 256
  d : Fin 256
  deriving DecidableEq, Repr

/-- `struct sockaddr_in`, the port in host order. -/
structure SockAddr where
  sinFamily : ℕ
  sinPort : ℕ
  sinAddr : InAddr
  deriving DecidableEq, Repr

/-- `0.0.0.0`. -/
def InAddr.zero : InAddr := ⟨0, 0, 0, 0⟩

/-- `127.0.0.1`. -/
def InAddr.loopback : InAddr := ⟨127, 0, 0, 1⟩

/-- `AF_INET`. -/
def afInet : ℕ := 2

/-- `memset(&addr, 0, sizeof(addr))`. -/
def SockAddr.zero : SockAddr := ⟨0, 0, InAddr.zero⟩

/-- `aToIPAddr(host, port, &addr)`: the address it fills in, or `none` where it returns an error
and leaves the address as it was. -/
abbrev Resolver := Name → ℤ → Option SockAddr

/-- The dotted decimal of an address. -/
def InAddr.dotted (x : InAddr) : Name :=
  decimal x.a ++ '.' :: decimal x.b ++ '.' :: decimal x.c ++ '.' :: decimal x.d

/-! ## The objects -/

/-- Addresses of `pvE` objects. -/
abbrev PvEId := ℕ

/-- Addresses of `pIoc` objects. -/
abbrev IocId := ℕ

/-- Channel access channel identifiers. -/
abbrev Chid := ℕ

/-- `class pvE`: an entry of the PV hash table. -/
structure PvE where
  /-- `stringId`, the key it is stored under; also what was copied to `name` -/
  resourceName : Name
  pI : Option IocId
  deriving DecidableEq, Repr

/-- `pvE::get_name()`. -/
def PvE.getName (e : PvE) : Except Fault Name := strncpy pvNameSz e.resourceName

/-- `class pIoc`: an IOC, loaded from a signal list or learned. -/
structure PIoc where
  /-- `stringId`, the key it is stored under; also what was copied to `iocname` -/
  iocname : Name
  /-- the signal list, empty for a learned IOC -/
  pathToList : Name
  /-- 0 before the first connection, 1 up, 2 down -/
  status : ℕ
  addr : SockAddr
  /-- the `pvEIoc` nodes, by the `pvE` each of them holds -/
  pvEList : List PvEId
  deriving DecidableEq, Repr

/-- `pIoc::get_iocname()`. -/
def PIoc.getIocname (p : PIoc) : Except Fault Name := strncpy hostNameSz p.iocname

/-- `pIoc::get_pathToList()`. -/
def PIoc.getPathToList (p : PIoc) : Except Fault Name := strncpy pathNameSz p.pathToList

/-- The name of the PV that tells whether an IOC is up. -/
def PIoc.heartbeatName (p : PIoc) : Name := p.iocname ++ heartbeat

/-- `class namenode`: a search waiting for its connection. -/
structure Namenode where
  name : Name
  otime : ℕ
  chd : Chid
  /-- 1 for a heartbeat, whose search is repeated when it times out -/
  rebroadcast : Bool
  deriving DecidableEq, Repr

/-- `struct nsStats`: the `pvExistTest` counts. -/
structure NsStats where
  request : ℕ
  broadcast : ℕ
  broadcastDenied : ℕ
  pending : ℕ
  iocError : ℕ
  hit : ℕ
  iocDown : ℕ
  deriving DecidableEq, Repr

/-- All counts at zero, as in the constructor and at the end of `show`. -/
def NsStats.zero : NsStats := ⟨0, 0, 0, 0, 0, 0, 0⟩

end CaNameserver
