import Libep.PollApi

/-!
# The epoll engine (`ep_epoll.h`)

The kernel is a parameter: `epoll_ctl` and `epoll_wait` are functions of the rest of the world `K`. The
buffer `ee` has `sz` entries, and an access to another one is out of bounds.
-/

namespace Libep

/-- `EPOLLIN`. -/
def epollIn : UInt32 := 0x1

/-- `EPOLLPRI`. -/
def epollPri : UInt32 := 0x2

/-- `EPOLLOUT`. -/
def epollOut : UInt32 := 0x4

/-- `EPOLLERR`. -/
def epollErr : UInt32 := 0x8

/-- `EPOLLHUP`. -/
def epollHup : UInt32 := 0x10

/-- `EPOLLRDHUP`. -/
def epollRdhup : UInt32 := 0x2000

/-- `struct epoll_event`. -/
structure EpollEvent where
  events : UInt32
  data : UInt64
  deriving DecidableEq

/-- The operations of `epoll_ctl`. -/
inductive EpollCtl where
  | add
  | mod
  | del
  deriving DecidableEq

/-- The answer of `epoll_wait`: a negative result, -1 - `e`, or the events it stores. -/
inductive WaitOutcome where
  | fail (e : Nat)
  | batch (events : List EpollEvent)
  deriving DecidableEq

namespace WaitOutcome

/-- The events stored in the buffer. -/
def events : WaitOutcome → List EpollEvent
  | fail _ => []
  | batch events => events

/-- What `epoll_wait` returns. -/
def ret : WaitOutcome → Int
  | fail e => -1 - e
  | batch events => events.length

end WaitOutcome

/-- The system calls on an epoll descriptor. -/
structure EpollKernel (K : Type) where
  epoll_ctl : K → (efd : Int) → EpollCtl → (fd : Int) → Option EpollEvent → Int × K
  epoll_wait : K → (efd maxevents : Int) → (timeout : Int32) → WaitOutcome × K
  /-- `epoll_wait` stores `maxevents` events at most. -/
  wait_le : ∀ k efd maxevents timeout,
    0 < (epoll_wait k efd maxevents timeout).1.ret →
      (epoll_wait k efd maxevents timeout).1.ret ≤ maxevents

/-- `ep_epoll_state_t`. -/
structure EpollState where
  efd : Int
  ready : Int
  sz : Int
  ee : Nat → EpollEvent

/-- `ep_epoll_init`, for the result of `epoll_create`; `oom` says that `calloc` fails. -/
def epEpollInit (s : EpollState) (efd : Int) (oom : Bool) : Int × EpollState :=
  if efd < 0 then (-1, s)
  else if oom then (-1, s)
  else (0, { efd, ready := 0, sz := 128, ee := fun _ => ⟨0, 0⟩ })

/-- The mask that `ep_epoll_add` and `ep_epoll_mod` pass to the kernel. -/
def epollMask (events : UInt32) : UInt32 :=
  let mask : UInt32 := 0
  let mask := if events &&& epReadable ≠ 0 then mask ||| epollIn else mask
  let mask := if events &&& epWritable ≠ 0 then mask ||| epollOut else mask
  if events &&& epExcept ≠ 0 then mask ||| epollPri else mask

/-- The bits that `ep_epoll_fetch` stores for the bits of the kernel. -/
def epollBits (events : UInt32) : UInt32 :=
  let bits : UInt32 := 0
  let bits :=
    if events &&& epollIn ≠ 0 ∨ events &&& epollHup ≠ 0 ∨ events &&& epollRdhup ≠ 0 then
      bits ||| epReadable
    else bits
  let bits := if events &&& epollOut ≠ 0 then bits ||| epWritable else bits
  let bits := if events &&& epollPri ≠ 0 then bits ||| epExcept else bits
  if events &&& epollErr ≠ 0 then bits ||| epError else bits

section
variable {K : Type} (kernel : EpollKernel K) (s : EpollState) (k : K)

/-- `ep_epoll_add`. -/
def epEpollAdd (fd : Int) (events : UInt32) (data : UInt64) : Int × K :=
  kernel.epoll_ctl k s.efd .add fd (some ⟨epollMask events, data⟩)

/-- `ep_epoll_mod`. -/
def epEpollMod (fd : Int) (events : UInt32) (data : UInt64) : Int × K :=
  kernel.epoll_ctl k s.efd .mod fd (some ⟨epollMask events, data⟩)

/-- `ep_epoll_del`. -/
def epEpollDel (fd : Int) : Int × K := kernel.epoll_ctl k s.efd .del fd none

/-- The buffer after the kernel stored events in its first entries. -/
def storeEvents (events : List EpollEvent) (ee : Nat → EpollEvent) (i : Nat) : EpollEvent :=
  events.getD i (ee i)

/-- `ep_epoll_wait`, with the answer of the kernel. -/
def epEpollWait (timeout : Int32) : WaitOutcome × Int × EpollState × K :=
  let (o, k) := kernel.epoll_wait k s.efd s.sz timeout
  (o, o.ret, { s with ready := o.ret, ee := storeEvents o.events s.ee }, k)

/-- `ep_epoll_fetch`. -/
def epEpollFetch (out : Out) : Res (Int × EpollState × Out) :=
  if s.ready > 0 then
    let ret := s.ready
    let i := s.ready - 1
    if i < s.sz then
      let ee := s.ee i.toNat
      return (ret, { s with ready := i }, out.store (epollBits ee.events) ee.data)
    else .error .invalid
  else return (0, s, out)

end

/-- The epoll engine. Changing the registration leaves `ep_epoll_state_t` alone. -/
def epollApi {K : Type} (kernel : EpollKernel K) : PollApi EpollState WaitOutcome K where
  add s k fd events data :=
    let (ret, k) := epEpollAdd kernel s k fd events data
    return (ret, s, k)
  mod s k fd events data :=
    let (ret, k) := epEpollMod kernel s k fd events data
    return (ret, s, k)
  del s k fd :=
    let (ret, k) := epEpollDel kernel s k fd
    return (ret, s, k)
  wait s k timeout := return epEpollWait kernel s k timeout
  fetch := epEpollFetch

end Libep
