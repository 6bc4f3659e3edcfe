import Libep.PollApi

/-!
# The kqueue engine (`ep_kqueue.h`)

The kernel is a parameter, as it is of the epoll engine. `kevent(2)` is called in two ways, to change one
filter and to wait, and is a function for each of them.
-/

namespace Libep

/-- `EVFILT_READ`. -/
def evfiltRead : Int16 := -1

/-- `EVFILT_WRITE`. -/
def evfiltWrite : Int16 := -2

/-- `EV_ADD`. -/
def evAdd : UInt16 := 0x1

/-- `EV_DELETE`. -/
def evDelete : UInt16 := 0x2

/-- `EV_DISABLE`. -/
def evDisable : UInt16 := 0x8

/-- `EV_OOBAND`, which is a flag, as the number `ep_kqueue_fetch` takes a filter for. -/
def evOoband : Int16 := 0x2000

/-- `EV_ERROR`. -/
def evError : UInt16 := 0x4000

/-- `EV_EOF`. -/
def evEof : UInt16 := 0x8000

/-- `struct kevent`, without the members that `EV_SET` is given 0 for. -/
structure Kevent where
  ident : Int
  filter : Int16
  flags : UInt16
  udata : UInt64
  deriving DecidableEq

/-- `struct timespec`. -/
structure Timespec where
  tv_sec : Int
  tv_nsec : Int
  deriving DecidableEq

/-- What a wait returns, and the events it stores. -/
abbrev KeventAnswer := Int × List Kevent

/-- `kevent(2)`. -/
structure KqueueKernel (K : Type) where
  /-- `kevent(kq, &change, 1, NULL, 0, timeout)`; `timeout` is a pointer. -/
  kevent_change : K → (kq : Int) → (change : Kevent) → (timeout : UInt64) → Int × K
  /-- `kevent(kq, NULL, 0, eventlist, nevents, timeout)` -/
  kevent_wait : K → (kq nevents : Int) → Option Timespec → KeventAnswer × K
  /-- The list has room for `nevents` events. -/
  wait_le : ∀ k kq nevents timeout,
    0 < (kevent_wait k kq nevents timeout).1.1 → (kevent_wait k kq nevents timeout).1.1 ≤ nevents

/-- `ep_kqueue_state_t`. -/
structure KqueueState where
  efd : Int
  ready : Int
  sz : Int
  ee : Nat → Kevent

/-- `ep_kqueue_init`, for the result of `kqueue`; `oom` says that `calloc` fails. -/
def epKqueueInit (s : KqueueState) (efd : Int) (oom : Bool) : Int × KqueueState :=
  if efd < 0 then (-1, s)
  else if oom then (-1, s)
  else (0, { efd, ready := 0, sz := 128, ee := fun _ => ⟨0, 0, 0, 0⟩ })

section
variable {K : Type} (kernel : KqueueKernel K) (s : KqueueState) (k : K)

/-- `EV_SET(&ev, fd, filter, flags, 0, 0, udata)` and the call of `kevent` with it, with the test of its
result: -1 ends the function. -/
def keventOr (fd : Int) (filter : Int16) (flags : UInt16) (udata timeout : UInt64)
    (next : K → Int × K) : Int × K :=
  let (ret, k) := kernel.kevent_change k s.efd ⟨fd, filter, flags, udata⟩ timeout
  if ret = -1 then (-1, k) else next k

/-- `if (events & bit) { .. }` with the addition of a filter in it. -/
def addFilter (fd : Int) (events bit : UInt32) (filter : Int16) (data : UInt64) (next : K → Int × K) :
    Int × K :=
  if events &&& bit ≠ 0 then keventOr kernel s k fd filter evAdd data 0 next else next k

/-- `ep_kqueue_add`. -/
def epKqueueAdd (fd : Int) (events : UInt32) (data : UInt64) : Int × K :=
  addFilter kernel s k fd events epReadable evfiltRead data fun k =>
    addFilter kernel s k fd events epWritable evfiltWrite data fun k => (0, k)

/-- `EV_ADD` for a bit of the mask, `EV_DISABLE` for another one. -/
def filterFlags (events bit : UInt32) : UInt16 := if events &&& bit ≠ 0 then evAdd else evDisable

/-- `ep_kqueue_mod`; the second call of `kevent` is given `data.ptr` for its timeout. -/
def epKqueueMod (fd : Int) (events : UInt32) (data : UInt64) : Int × K :=
  keventOr kernel s k fd evfiltRead (filterFlags events epReadable) data 0 fun k =>
    keventOr kernel s k fd evfiltWrite (filterFlags events epWritable) data data fun k => (0, k)

/-- `ep_kqueue_del`. -/
def epKqueueDel (fd : Int) : Int × K :=
  keventOr kernel s k fd evfiltRead evDelete 0 0 fun k =>
    keventOr kernel s k fd evfiltWrite evDelete 0 0 fun k => (0, k)

/-- The timeout `ep_kqueue_wait` passes to `kevent`: `NULL` for a negative one. -/
def kqueueTimeout (timeout : Int32) : Option Timespec :=
  if timeout ≥ 0 then some ⟨timeout.toInt.tdiv 1000, timeout.toInt.tmod 1000 * 1000000⟩ else none

/-- `ep_kqueue_wait`, with the answer of the kernel. -/
def epKqueueWait (timeout : Int32) : KeventAnswer × Int × KqueueState × K :=
  let (o, k) := kernel.kevent_wait k s.efd s.sz (kqueueTimeout timeout)
  (o, o.1, { s with ready := o.1, ee := fun i => o.2.getD i (s.ee i) }, k)

/-- The bits that `ep_kqueue_fetch` stores for an event. -/
def kqueueBits (ee : Kevent) : UInt32 :=
  let bits : UInt32 := 0
  let bits :=
    if ee.filter = evfiltRead ∨ ee.flags &&& evEof ≠ 0 then bits ||| epReadable
    else if ee.filter = evfiltWrite then bits ||| epWritable
    else if ee.filter = evOoband then bits ||| epExcept
    else bits
  if ee.flags &&& evError ≠ 0 then bits ||| epError else bits

/-- `ep_kqueue_fetch`. -/
def epKqueueFetch (out : Out) : Res (Int × KqueueState × Out) :=
  if s.ready > 0 then
    let ret := s.ready
    let i := s.ready - 1
    if i < s.sz then
      let ee := s.ee i.toNat
      return (ret, { s with ready := i }, out.store (kqueueBits ee) ee.udata)
    else .error .invalid
  else return (0, s, out)

end

/-- The kqueue engine. Changing the registration leaves `ep_kqueue_state_t` alone. -/
def kqueueApi {K : Type} (kernel : KqueueKernel K) : PollApi KqueueState KeventAnswer K where
  add s k fd events data :=
    let (ret, k) := epKqueueAdd kernel s k fd events data
    return (ret, s, k)
  mod s k fd events data :=
    let (ret, k) := epKqueueMod kernel s k fd events data
    return (ret, s, k)
  del s k fd :=
    let (ret, k) := epKqueueDel kernel s k fd
    return (ret, s, k)
  wait s k timeout := return epKqueueWait kernel s k timeout
  fetch := epKqueueFetch

end Libep
