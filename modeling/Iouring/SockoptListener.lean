-- `Ring.SockoptListener`: it opens a socket, resolves the address, sets the
-- options, binds and listens, and has more than a dozen ways out. Which address
-- it binds depends on the form in which the resolver returns it, and not every
-- way out closes the socket.
import Mathlib.Data.List.Basic
import Mathlib.Tactic.Common

namespace iouring.sockopt_listener

/-! ## The system -/

abbrev Errno := UInt64

/-- `AF_INET`, `AF_INET6` and `AF_UNIX`. -/
inductive Domain where
  | inet
  | inet6
  | unix
  deriving DecidableEq, Repr

/-- `SOCK_STREAM` and `SOCK_DGRAM`. -/
inductive SockType where
  | stream
  | dgram
  deriving DecidableEq, Repr

/-- `SockaddrInet4`, `SockaddrInet6` and `SockaddrUnix`. -/
inductive Sockaddr where
  | inet4 (port : Int) (addr : Vector UInt8 4)
  | inet6 (port : Int) (addr : Vector UInt8 16)
  | unix (name : String)
  deriving DecidableEq, Repr

/-- `net.TCPAddr` or `net.UDPAddr`, with its `String()`. -/
structure NetAddr where
  ip : List UInt8
  port : Int
  string : String
  deriving DecidableEq, Repr

/-- What the system answers to one call of `SockoptListener`. `resolve` is
`ResolveTCPAddr` for the tcp networks and `ResolveUDPAddr` for the udp ones; the
file that `FastOpenAllowed` reads and the outcome of `setsockopt` are given for
each place in the list of options. -/
structure Host where
  socket : Domain → SockType → Except Errno Nat
  resolve : String → String → Except String NetAddr
  readFile : Nat → Except Errno (List UInt8)
  setsockopt : Nat → Option Errno
  bind : Option Errno
  listen : Option Errno

/-- The system calls that `SockoptListener` makes. -/
inductive Call where
  | socket (domain : Domain) (typ : SockType) (answer : Except Errno Nat)
  | setsockopt (fd level opt value : Int)
  | bind (fd : Int) (sa : Sockaddr)
  | listen (fd backlog : Int)
  | close (fd : Int)

inductive Error where
  | text (s : String)
  | errno (e : Errno)
  | readFile (path : String) (e : Errno)
  | atoi (num : List UInt8)
  deriving DecidableEq, Repr

/-- The calls of a function, in order, and how it ends. -/
abbrev Calls (α : Type) := List Call × Except Error α

/-- The calls of one part after those of another, unless the first part returns an error. -/
def Calls.andThen {α β : Type} (m : Calls α) (f : α → Calls β) : Calls β :=
  match m.2 with
  | .ok a => (m.1 ++ (f a).1, (f a).2)
  | .error e => (m.1, .error e)

/-- `err = call; if err != nil { syscall.Close(fd); return nil, err }`. -/
def orClose (fd : Int) (call : Call) (answer : Option Errno) : Calls Unit :=
  match answer with
  | none => ([call], .ok ())
  | some e => ([call, .close fd], .error (.errno e))

/-! ## FastOpenAllowed -/

def digit (b : UInt8) : Option Nat :=
  if 0x30 ≤ b ∧ b ≤ 0x39 then some (b.toNat - 0x30) else none

def digits (acc : Nat) : List UInt8 → Option Nat
  | [] => some acc
  | b :: bs => (digit b).bind fun d => digits (10 * acc + d) bs

/-- The digits of a decimal number, of which there is one at least. -/
def decimal (s : List UInt8) : Option Nat := if s = [] then none else digits 0 s

/-- `strconv.Atoi`: an optional sign, digits, and the range of a 64-bit int. -/
def atoi (s : List UInt8) : Option Int :=
  match s with
  | 0x2d :: ds => (decimal ds).bind fun n => if n ≤ 0x8000000000000000 then some (-n) else none
  | 0x2b :: ds => (decimal ds).bind fun n => if n < 0x8000000000000000 then some n else none
  | ds => (decimal ds).bind fun n => if n < 0x8000000000000000 then some n else none

/-- `FastOpenAllowed`, with what the read of the file returns. -/
def fastOpenAllowed (file : Except Errno (List UInt8)) : Option Error :=
  match file with
  | .error e => some (.readFile "/proc/sys/net/ipv4/tcp_fack" e)
  | .ok b =>
    let s := b.filter (· ≠ 0x0a)
    match atoi s with
    | none => some (.atoi s)
    | some allowed =>
      if allowed ≠ 3 then some (.text "set /proc/sys/net/ipv4/tcp_fastopen to 3") else none

/-! ## SockoptListener -/

/-- `copy` into an array of zeros. -/
def copyInto (n : Nat) (ip : List UInt8) : Vector UInt8 n :=
  Vector.ofFn fun i => ip.getD i 0

/-- A case of the switch for an internet address. `named` says whether it puts the
address into the listener. -/
structure Inet where
  domain : Domain
  typ : SockType
  network : String
  named : Bool
  sockaddr : NetAddr → Sockaddr

def inet4 (a : NetAddr) : Sockaddr := .inet4 a.port (copyInto 4 a.ip)

def inet6 (a : NetAddr) : Sockaddr := .inet6 a.port (copyInto 16 a.ip)

/-- `case "tcp", "tcp4"`. -/
def tcp4 : Inet := ⟨.inet, .stream, "tcp", true, inet4⟩

/-- `case "tcp6"`. -/
def tcp6 : Inet := ⟨.inet6, .stream, "tcp", true, inet6⟩

/-- `case "udp", "udp4"`, which does not set the address of the listener. -/
def udp4 : Inet := ⟨.inet, .dgram, "udp", false, inet4⟩

/-- `case "udp6"`, with a socket for the other family. -/
def udp6 : Inet := ⟨.inet, .dgram, "udp", true, inet6⟩

/-- The cases of the switch. -/
inductive Case where
  | inet (c : Inet)
  | unix

def Case.domain : Case → Domain
  | .inet c => c.domain
  | .unix => .unix

def Case.typ : Case → SockType
  | .inet c => c.typ
  | .unix => .stream

/-- `switch network`, with `none` for the default case. -/
def caseOf (network : String) : Option Case :=
  if network = "tcp" ∨ network = "tcp4" then some (.inet tcp4)
  else if network = "tcp6" then some (.inet tcp6)
  else if network = "unix" then some .unix
  else if network = "udp" ∨ network = "udp4" then some (.inet udp4)
  else if network = "udp6" then some (.inet udp6)
  else none

/-- What the switch leaves: the descriptor, the address to bind, and the address of
the listener. -/
structure Opened where
  fd : Nat
  sockAddr : Sockaddr
  net : String
  s : String
  deriving DecidableEq, Repr

/-- The listener that is returned, with the file that owns the descriptor. -/
structure Listener where
  f : Nat
  net : String
  s : String
  deriving DecidableEq, Repr

/-- The call of `syscall.Socket` with its answer. -/
def socketCall (h : Host) (c : Case) : Call := .socket c.domain c.typ (h.socket c.domain c.typ)

/-- A case of the switch for an internet address. The error of the resolver is in a
variable of its own, so the check behind the switch does not see it. -/
def openInet (h : Host) (network address : String) (c : Inet) : Calls Opened :=
  match h.socket c.domain c.typ with
  | .error _ => ([socketCall h (.inet c)], .error (.text "could not open socket"))
  | .ok fd =>
    match h.resolve network address with
    | .error _ => ([socketCall h (.inet c)], .error (.text "could not open socket"))
    | .ok a =>
      ([socketCall h (.inet c)], .ok
        { fd := fd
          sockAddr := c.sockaddr a
          net := if c.named then c.network else network
          s := if c.named then a.string else "" })

/-- `case "unix"` with the check behind the switch: a socket that could not be opened
is the descriptor -1. -/
def openUnix (h : Host) (network address : String) : Calls Opened :=
  match h.socket .unix .stream with
  | .error e => ([socketCall h .unix, .close (-1)], .error (.errno e))
  | .ok fd => ([socketCall h .unix], .ok ⟨fd, .unix address, network, ""⟩)

/-- The switch. -/
def openSocket (h : Host) (network address : String) : Calls Opened :=
  match caseOf network with
  | some (.inet c) => openInet h network address c
  | some .unix => openUnix h network address
  | none => ([], .error (.text ("unknown network family: " ++ network)))

def SOReuseport : Int := 0x0F
def TCPFastopen : Int := 0x17
def SOL_SOCKET : Int := 1
def SOL_TCP : Int := 6
def SOMAXCONN : Int := 128

/-- One turn of the loop over the options. -/
def setOption (h : Host) (fd : Int) (i : Nat) (sockopt : Int) : Calls Unit :=
  if sockopt = SOReuseport then
    orClose fd (.setsockopt fd SOL_SOCKET sockopt 1) (h.setsockopt i)
  else if sockopt = TCPFastopen then
    match fastOpenAllowed (h.readFile i) with
    | some err => ([], .error err)
    | none => orClose fd (.setsockopt fd SOL_TCP sockopt 1) (h.setsockopt i)
  else ([], .ok ())

/-- The loop over the options, from place `i` on. -/
def setOptions (h : Host) (fd : Int) : Nat → List Int → Calls Unit
  | _, [] => ([], .ok ())
  | i, sockopt :: sockopts =>
    (setOption h fd i sockopt).andThen fun _ => setOptions h fd (i + 1) sockopts

/-- `Bind`, `Listen` and the listener. -/
def listenOn (h : Host) (o : Opened) : Calls Listener :=
  (orClose o.fd (.bind o.fd o.sockAddr) h.bind).andThen fun _ =>
    (orClose o.fd (.listen o.fd SOMAXCONN) h.listen).andThen fun _ =>
      ([], .ok ⟨o.fd, o.net, o.s⟩)

def sockoptListener (h : Host) (network address : String) (sockopts : List Int) :
    Calls Listener :=
  (openSocket h network address).andThen fun o =>
    (setOptions h o.fd 0 sockopts).andThen fun _ => listenOn h o

/-! ## What is opened, closed and bound -/

/-- The socket that a call has opened. -/
def Call.opened : Call → Option Nat
  | .socket _ _ (.ok fd) => some fd
  | _ => none

/-- The descriptor that a call has closed. A close of -1 closes nothing. -/
def Call.closed : Call → Option Nat
  | .close fd => fd.toNat?
  | _ => none

/-- The address that a call asks to bind. -/
def Call.bound : Call → Option Sockaddr
  | .bind _ sa => some sa
  | _ => none

def opened (calls : List Call) : List Nat := calls.filterMap Call.opened

def closed (calls : List Call) : List Nat := calls.filterMap Call.closed

def bound (calls : List Call) : List Sockaddr := calls.filterMap Call.bound

theorem opened_append (l l' : List Call) : opened (l ++ l') = opened l ++ opened l' :=
  List.filterMap_append

theorem closed_append (l l' : List Call) : closed (l ++ l') = closed l ++ closed l' :=
  List.filterMap_append

theorem bound_append (l l' : List Call) : bound (l ++ l') = bound l ++ bound l' :=
  List.filterMap_append

theorem Calls.andThen_ok {α β : Type} {m : Calls α} {f : α → Calls β} {a : α} (h : m.2 = .ok a) :
    m.andThen f = (m.1 ++ (f a).1, (f a).2) := by
  unfold Calls.andThen
  rw [h]

theorem Calls.andThen_error {α β : Type} {m : Calls α} {f : α → Calls β} {e : Error}
    (h : m.2 = .error e) : m.andThen f = (m.1, .error e) := by
  unfold Calls.andThen
  rw [h]

/-- A host on which every step succeeds and the resolver returns `a`. -/
def Host.willing (a : NetAddr) : Host :=
  ⟨fun _ _ => .ok 3, fun _ _ => .ok a, fun _ => .ok [0x33, 0x0a], fun _ => none, none, none⟩

end iouring.sockopt_listener
