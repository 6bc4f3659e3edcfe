import Mathlib

/-!
# Sockets (`ep_sock.h`, `ep_fcntl.h`)

The functions that connect and the functions that serve, with the system calls they make. What the kernel
answers is an input: each address comes with the outcomes of the calls that are made for it. A call that
returns 0 or -1 has a `Bool` as its outcome, where `true` is 0; a descriptor, or -1, is an `Option Nat`. The
constants have the values of Linux.
-/

namespace Libep

def afUnspec : Int := 0
def afLocal : Int := 1
def afInet : Int := 2
def afInet6 : Int := 10
def sockStream : Int := 1
def sockDgram : Int := 2
def aiPassive : Int := 1
def solSocket : Int := 1
def soReuseaddr : Int := 2
def ipprotoIpv6 : Int := 41
def ipv6V6only : Int := 26
def oNonblock : Nat := 0x800
def einprogress : Int := 115

/-- A string without its `NUL`. -/
abbrev CStr := List Char

/-- A socket address: one that `getaddrinfo` found, or a `struct sockaddr_un`. -/
inductive SockAddr where
  | inet (addr : Nat)
  | unix (path : CStr)
  deriving DecidableEq

/-- `struct addrinfo`, as an element of the list `getaddrinfo` returns. -/
structure AddrInfo where
  family : Int
  socktype : Int
  protocol : Int
  addr : SockAddr
  deriving DecidableEq

/-- The `hints` of `getaddrinfo`. -/
structure AddrHints where
  flags : Int
  family : Int
  socktype : Int
  deriving DecidableEq

/-- What `connect` returns: 0, or -1 and the value of `errno`. -/
inductive SysRet where
  | ok
  | fail (errno : Int)
  deriving DecidableEq

/-- A system call with its outcome, or a call of `getaddrinfo` or `freeaddrinfo`. -/
inductive SysCall where
  | getaddrinfo (node service : Option CStr) (hints : AddrHints) (res : Option Nat)
  /-- `none` is a pointer that nothing was written to. -/
  | freeaddrinfo (res : Option Nat)
  | socket (domain type protocol : Int) (fd : Option Nat)
  | setsockopt (fd : Nat) (level optname val : Int) (ok : Bool)
  | getfl (fd : Nat) (flags : Option Nat)
  | setfl (fd : Nat) (flags : Nat) (ok : Bool)
  | bind (fd : Nat) (addr : SockAddr) (ok : Bool)
  | connect (fd : Nat) (addr : SockAddr) (ret : SysRet)
  | listen (fd : Nat) (backlog : Int) (ok : Bool)
  | chmod (path : CStr) (mode : Nat)
  | close (fd : Nat)
  deriving DecidableEq

/-- The result of a function, with the calls it makes. -/
structure Sys (α : Type) where
  ret : α
  calls : List SysCall

instance : Monad Sys where
  pure a := ⟨a, []⟩
  bind x f := ⟨(f x.ret).ret, x.calls ++ (f x.ret).calls⟩

/-- Make a call that returns `r`. -/
def sys {α : Type} (c : SysCall) (r : α) : Sys α := ⟨r, [c]⟩

/-- `close(s)` -/
def sysClose (s : Nat) : Sys Unit := sys (.close s) ()

/-- `ep_nonblock`. -/
def epNonblock (fd : Nat) (getfl : Option Nat) (setfl : Bool) : Sys Bool := do
  match ← sys (.getfl fd getfl) getfl with
  | none => return false
  | some flags => sys (.setfl fd (flags ||| oNonblock) setfl) setfl

/-- `ep_reuseaddr_enable`. -/
def epReuseaddrEnable (fd : Nat) (reuseaddr : Bool) : Sys Bool :=
  sys (.setsockopt fd solSocket soReuseaddr 1 reuseaddr) reuseaddr

/-- `ep_v6only`. -/
def epV6only (s : Nat) (v6only : Bool) : Sys Bool := do
  if ← sys (.setsockopt s ipprotoIpv6 ipv6V6only 1 v6only) v6only then return true
  else
    sysClose s
    return false

/-- `ep_listen`. -/
def epListen (s : Nat) (sa : SockAddr) (backlog : Int) (bind listen : Bool) : Sys Bool := do
  if ← sys (.bind s sa bind) bind then sys (.listen s backlog listen) listen
  else return false

/-- `ep_createsocket`. -/
def epCreatesocket (domain : Int) (socket : Option Nat) (reuseaddr : Bool) : Sys (Option Nat) := do
  match ← sys (.socket domain sockStream 0 socket) socket with
  | none => return none
  | some s =>
    if ← epReuseaddrEnable s reuseaddr then return some s
    else
      sysClose s
      return none

/-- `snprintf(portstr, 6, "%d", port)` -/
def portstr (port : Int) : CStr := (toString port).toList.take 5

/-- `strncpy(sa.sun_path, path, sizeof(sa.sun_path) - 1)`. A path of 107 bytes or more leaves no zero in what is
copied, and the byte behind it, `last`, belongs to `sun_path` unless it is 0. -/
def sunPath (path : CStr) (last : Option Char) : CStr :=
  path.take 107 ++ if path.length < 107 then [] else last.toList

/-! ### Clients -/

/-- An address of the source, and whether the descriptor can be bound to it. -/
structure BindTry where
  addr : SockAddr
  bind : Bool
  deriving DecidableEq

/-- An address of the host, and the outcomes of the calls for it: `source` is what `getaddrinfo` finds for the
source, with the pointer it returns. -/
structure ConnectTry where
  info : AddrInfo
  socket : Option Nat
  reuseaddr : Bool
  getfl : Option Nat
  setfl : Bool
  source : Option (Nat × List BindTry)
  connect : SysRet
  deriving DecidableEq

/-- Where the statements before `connect` lead. -/
inductive ConnectPc where
  | next
  | err (s : Nat)
  | ret (s : Nat)
  | connect (s : Nat)
  deriving DecidableEq

/-- The loop over the addresses of the source: `bound`. -/
def bindLoop (s : Nat) : List BindTry → Sys Bool
  | [] => return false
  | b :: bs => do
    if ← sys (.bind s b.addr b.bind) b.bind then return true
    else bindLoop s bs

section
variable (hints : AddrHints) (source : Option CStr) (nonblock : Bool)

/-- The statements `if (source) { .. }`. -/
def connectBind (s : Nat) (p : ConnectTry) : Sys ConnectPc := do
  match source with
  | none => return .connect s
  | some source =>
    match ← sys (.getaddrinfo (some source) none hints (p.source.map Prod.fst)) p.source with
    | none => return .err s
    | some (bservinfo, bs) =>
      let bound ← bindLoop s bs
      sys (.freeaddrinfo (some bservinfo)) ()
      return if bound then .connect s else .ret s

/-- The statements for one address of the host, up to `connect`. They are the same for TCP and UDP. -/
def connectPrepare (p : ConnectTry) : Sys ConnectPc := do
  match ← sys (.socket p.info.family p.info.socktype p.info.protocol p.socket) p.socket with
  | none => return .next
  | some s =>
    if ← epReuseaddrEnable s p.reuseaddr then
      if nonblock then
        if ← epNonblock s p.getfl p.setfl then connectBind hints source s p
        else return .err s
      else connectBind hints source s p
    else return .err s

/-- The statements at the label `err`. -/
def connectErr : Option Nat → Sys (Option Nat)
  | some s => do
    sysClose s
    return none
  | none => return none

/-- The loop of `ep_generictcpconnect`, with the value of `s`. -/
def tcpConnectLoop : List ConnectTry → (s : Option Nat) → Sys (Option Nat)
  | [], s => connectErr s
  | p :: ps, _ => do
    match ← connectPrepare hints source nonblock p with
    | .next => tcpConnectLoop ps none
    | .err s => connectErr (some s)
    | .ret s => return some s
    | .connect s =>
      match ← sys (.connect s p.info.addr p.connect) p.connect with
      | .ok => return some s
      | .fail errno =>
        if errno = einprogress ∧ nonblock then return some s
        else
          sysClose s
          tcpConnectLoop ps none

/-- The loop of `ep_genericudpconnect`, with the value of `s`. -/
def udpConnectLoop : List ConnectTry → (s : Option Nat) → Sys (Option Nat)
  | [], s => connectErr s
  | p :: ps, _ => do
    match ← connectPrepare hints source nonblock p with
    | .next => udpConnectLoop ps none
    | .err s => connectErr (some s)
    | .ret s => return some s
    | .connect s =>
      match ← sys (.connect s p.info.addr p.connect) p.connect with
      | .ok => return some s
      | .fail _ =>
        sysClose s
        udpConnectLoop ps none

end

/-- What `getaddrinfo` finds for the host, with the pointer it returns. -/
abbrev Lookup (τ : Type) := Option (Nat × List τ)

/-- `ep_generictcpconnect`. -/
def epGenerictcpconnect (host : CStr) (port : Int) (source : Option CStr) (nonblock : Bool)
    (lookup : Lookup ConnectTry) : Sys (Option Nat) := do
  let hints : AddrHints := ⟨0, afUnspec, sockStream⟩
  match ← sys (.getaddrinfo (some host) (some (portstr port)) hints (lookup.map Prod.fst)) lookup with
  | none => return none
  | some (servinfo, ps) =>
    let s ← tcpConnectLoop hints source nonblock ps none
    sys (.freeaddrinfo (some servinfo)) ()
    return s

/-- `ep_genericudpconnect`. -/
def epGenericudpconnect (host : CStr) (port : Int) (source : Option CStr) (nonblock : Bool)
    (lookup : Lookup ConnectTry) : Sys (Option Nat) := do
  let hints : AddrHints := ⟨0, afUnspec, sockDgram⟩
  match ← sys (.getaddrinfo (some host) (some (portstr port)) hints (lookup.map Prod.fst)) lookup with
  | none => return none
  | some (servinfo, ps) =>
    let s ← udpConnectLoop hints source nonblock ps none
    sys (.freeaddrinfo (some servinfo)) ()
    return s

/-- The outcomes of the calls of the functions for Unix sockets. -/
structure UnixTry where
  socket : Option Nat
  reuseaddr : Bool
  connect : SysRet
  bind : Bool
  listen : Bool
  deriving DecidableEq

/-- `ep_genericunixconnect`. It returns `s`, and not its variable `ret`. The last byte of `sa.sun_path` is what
the stack held, `last`. -/
def epGenericunixconnect (path : CStr) (nonblock : Bool) (last : Option Char) (t : UnixTry) : Sys (Option Nat) := do
  match ← epCreatesocket afLocal t.socket t.reuseaddr with
  | none => return none
  | some s =>
    if nonblock then
      sysClose s
      return some s
    else
      match ← sys (.connect s (.unix (sunPath path last)) t.connect) t.connect with
      | .ok => return some s
      | .fail errno =>
        if ¬nonblock ∨ errno ≠ einprogress then sysClose s
        return some s

/-! ### Servers -/

/-- An address to serve at, and the outcomes of the calls for it. -/
structure ServerTry where
  info : AddrInfo
  socket : Option Nat
  v6only : Bool
  reuseaddr : Bool
  bind : Bool
  listen : Bool
  deriving DecidableEq

/-- Where the statements before `ep_listen`, or `bind`, lead. -/
inductive ServerPc where
  | next
  | err
  | ready (s : Nat)
  deriving DecidableEq

section
variable (af : Int)

/-- The statements for one address, up to `ep_listen` or `bind`. They are the same for TCP and UDP. -/
def serverPrepare (p : ServerTry) : Sys ServerPc := do
  match ← sys (.socket p.info.family p.info.socktype p.info.protocol p.socket) p.socket with
  | none => return .next
  | some s =>
    if ← (if af = afInet6 then epV6only s p.v6only else pure true) then
      if ← epReuseaddrEnable s p.reuseaddr then return .ready s
      else return .err
    else return .err

/-- The loop of `ep__tcpserver`, with the statements that set `s` to -1. -/
def tcpServerLoop (backlog : Int) : List ServerTry → Sys (Option Nat)
  | [] => return none
  | p :: ps => do
    match ← serverPrepare af p with
    | .next => tcpServerLoop backlog ps
    | .err => return none
    | .ready s =>
      if ← epListen s p.info.addr backlog p.bind p.listen then return some s
      else return none

/-- The loop of `ep__udpserver`, with the statements that set `s` to -1. -/
def udpServerLoop : List ServerTry → Sys (Option Nat)
  | [] => return none
  | p :: ps => do
    match ← serverPrepare af p with
    | .next => udpServerLoop ps
    | .err => return none
    | .ready s =>
      if ← sys (.bind s p.info.addr p.bind) p.bind then return some s
      else return none

end

/-- `ep__tcpserver`. When the lookup fails, nothing is written to `servinfo`. -/
def epTcpserverAf (port : Int) (bindaddr : Option CStr) (af backlog : Int)
    (lookup : Lookup ServerTry) : Sys (Option Nat) := do
  let hints : AddrHints := ⟨aiPassive, af, sockStream⟩
  match ← sys (.getaddrinfo bindaddr (some (portstr port)) hints (lookup.map Prod.fst)) lookup with
  | none =>
    sys (.freeaddrinfo none) ()
    return none
  | some (servinfo, ps) =>
    let s ← tcpServerLoop af backlog ps
    sys (.freeaddrinfo (some servinfo)) ()
    return s

/-- `ep__udpserver`. When the lookup fails, nothing is written to `servinfo`. -/
def epUdpserverAf (port : Int) (bindaddr : Option CStr) (af : Int) (lookup : Lookup ServerTry) :
    Sys (Option Nat) := do
  let hints : AddrHints := ⟨aiPassive, af, sockDgram⟩
  match ← sys (.getaddrinfo bindaddr (some (portstr port)) hints (lookup.map Prod.fst)) lookup with
  | none =>
    sys (.freeaddrinfo none) ()
    return none
  | some (servinfo, ps) =>
    let s ← udpServerLoop af ps
    sys (.freeaddrinfo (some servinfo)) ()
    return s

/-- `ep_unixserver`. It clears `sa` first. -/
def epUnixserver (path : CStr) (perm : Nat) (backlog : Int) (t : UnixTry) : Sys (Option Nat) := do
  match ← epCreatesocket afLocal t.socket t.reuseaddr with
  | none => return none
  | some s =>
    if ← epListen s (.unix (sunPath path none)) backlog t.bind t.listen then
      if perm ≠ 0 then sys (.chmod (sunPath path none) perm) ()
      return some s
    else return none

end Libep
