import Libep.PollApi
import Libep.Timer

/-!
# The select engine (`ep_select.h`)

`size` is `FD_SETSIZE`, a constant of the system. An `fd_set` is the set of its descriptors; setting,
clearing or testing a descriptor outside `0 .. size - 1` accesses memory out of bounds, and so does an
index of the arrays `data` and `ee` from `size` on. The kernel is an input: `epSelectWait` takes the
function `select`.
-/

namespace Libep

/-- `ep_select_event_t`. -/
structure SelectEvent where
  data : UInt64
  events : UInt32
  deriving DecidableEq

/-- `ep_select_state_t`. -/
structure SelectState where
  fds : Finset Nat
  rfds : Finset Nat
  wfds : Finset Nat
  efds : Finset Nat
  maxfd : Int
  ready : Int
  data : Nat → UInt64
  ee : Nat → SelectEvent
  /-- The indices of `ee` that the last wait wrote; no part of the program. -/
  wrote : Finset Nat

/-- What `select(2)` leaves in the three sets, and what it returns. -/
structure SelectResult where
  ret : Int
  rfds : Finset Nat
  wfds : Finset Nat
  efds : Finset Nat

section
variable (size : Nat)

/-- `FD_SET`. -/
def fdSet (fd : Int) (s : Finset Nat) : Res (Finset Nat) :=
  if 0 ≤ fd ∧ fd < size then .ok (insert fd.toNat s) else .error .invalid

/-- `FD_CLR`. -/
def fdClr (fd : Int) (s : Finset Nat) : Res (Finset Nat) :=
  if 0 ≤ fd ∧ fd < size then .ok (s.erase fd.toNat) else .error .invalid

/-- `state->data[fd].u64 = data.u64` -/
def setData (s : SelectState) (fd : Int) (data : UInt64) : Res SelectState :=
  if 0 ≤ fd ∧ fd < size then .ok { s with data := Function.update s.data fd.toNat data }
  else .error .invalid

/-- `ep_select_init`; `ee` is what `malloc` finds in memory, and the flags say which of the two
allocations fail. -/
def epSelectInit (s : SelectState) (dataOom eeOom : Bool) (ee : Nat → SelectEvent) :
    Int × SelectState :=
  if dataOom then (-1, s)
  else if eeOom then (-1, s)
  else (0, {
    fds := ∅, rfds := ∅, wfds := ∅, efds := ∅, maxfd := -1, ready := 0
    data := fun _ => 0, ee, wrote := ∅ })

/-- `if (events & bit) FD_SET(fd, set)` -/
def addWhen (events bit : UInt32) (fd : Int) (set : Finset Nat) : Res (Finset Nat) :=
  if events &&& bit ≠ 0 then fdSet size fd set else .ok set

/-- `if (events & bit) FD_SET(fd, set); else FD_CLR(fd, set);` -/
def setTo (events bit : UInt32) (fd : Int) (set : Finset Nat) : Res (Finset Nat) :=
  if events &&& bit ≠ 0 then fdSet size fd set else fdClr size fd set

/-- `ep_select_add`. -/
def epSelectAdd (s : SelectState) (fd : Int) (events : UInt32) (data : UInt64) :
    Res (Int × SelectState) :=
  if fd ≥ size then return (-1, s)
  else do
    let rfds ← addWhen size events epReadable fd s.rfds
    let wfds ← addWhen size events epWritable fd s.wfds
    let efds ← addWhen size events epExcept fd s.efds
    let maxfd := if fd > s.maxfd then fd else s.maxfd
    return (0, ← setData size { s with rfds, wfds, efds, maxfd } fd data)

/-- `ep_select_mod`. -/
def epSelectMod (s : SelectState) (fd : Int) (events : UInt32) (data : UInt64) :
    Res (Int × SelectState) :=
  if fd ≥ size then return (-1, s)
  else do
    let rfds ← setTo size events epReadable fd s.rfds
    let wfds ← setTo size events epWritable fd s.wfds
    let efds ← setTo size events epExcept fd s.efds
    return (0, ← setData size { s with rfds, wfds, efds } fd data)

/-- The loop `while (--maxfd >= 0) if (FD_ISSET(maxfd, fds)) break;` and the `maxfd` it ends with. -/
def lastSet (fds : Finset Nat) : (maxfd : Nat) → Int
  | 0 => -1
  | maxfd + 1 => if maxfd ∈ fds then maxfd else lastSet fds maxfd

/-- `ep_select_del`. -/
def epSelectDel (s : SelectState) (fd : Int) : Res (Int × SelectState) := do
  let fds ← fdClr size fd s.fds
  let rfds ← fdClr size fd s.rfds
  let wfds ← fdClr size fd s.wfds
  let efds ← fdClr size fd s.efds
  let maxfd := if fd = s.maxfd then lastSet fds fd.toNat else s.maxfd
  return (0, { s with fds, rfds, wfds, efds, maxfd })

/-- The bits of the descriptor `i`, as the loop of `ep_select_wait` computes them. -/
def readyBits (rfds wfds efds : Finset Nat) (i : Nat) : UInt32 :=
  let events : UInt32 := 0
  let events := if i ∈ rfds then events ||| epReadable else events
  let events := if i ∈ wfds then events ||| epWritable else events
  if i ∈ efds then events ||| epExcept else events

/-- The loop of `ep_select_wait`, with `k` descriptors left from `i` on. -/
def selectFill (r : SelectResult) : (k i j : Nat) → SelectState → Res SelectState
  | 0, _, _, s => return s
  | k + 1, i, j, s =>
    if (j : Int) < r.ret then
      let events := readyBits r.rfds r.wfds r.efds i
      if events ≠ 0 then
        if j < size then
          selectFill r k (i + 1) (j + 1)
            { s with ee := Function.update s.ee j ⟨s.data i, events⟩, wrote := insert j s.wrote }
        else .error .invalid
      else selectFill r k (i + 1) j s
    else return s

/-- The timeout `ep_select_wait` passes to `select(2)`: `NULL` for a negative one. -/
def selectTimeout (timeout : Int32) : Option Timeval :=
  if timeout ≥ 0 then some ⟨timeout.toInt.tdiv 1000, timeout.toInt.tmod 1000 * 1000⟩ else none

/-- `ep_select_wait`. -/
def epSelectWait
    (select : (nfds : Int) → (rfds wfds efds : Finset Nat) → Option Timeval → SelectResult)
    (s : SelectState) (timeout : Int32) : Res (Int × SelectState) := do
  let r := select (s.maxfd + 1) s.rfds s.wfds s.efds (selectTimeout timeout)
  let s ← selectFill size r size 0 0 { s with ready := r.ret, wrote := ∅ }
  return (r.ret, s)

/-- `ep_select_fetch`, with the event it stores. -/
def epSelectFetch (s : SelectState) : Res ((Int × Option SelectEvent) × SelectState) :=
  if s.ready > 0 then
    if (s.ready - 1).toNat < size then
      return ((s.ready, some (s.ee (s.ready - 1).toNat)), { s with ready := s.ready - 1 })
    else .error .invalid
  else return ((0, none), s)

/-- Fetch until it returns 0: the results before that, with the events stored. -/
def fetchAll : (fuel : Nat) → SelectState → Res (List (Int × SelectEvent))
  | 0, _ => .error .fuel
  | fuel + 1, s => do
    match ← epSelectFetch size s with
    | ((ret, some e), s) => do return (ret, e) :: (← fetchAll fuel s)
    | ((_, none), _) => return []

end

/-- The system call on the three sets of an `ep_select_state_t`. -/
structure SelectKernel (K : Type) where
  select : K → (nfds : Int) → (rfds wfds efds : Finset Nat) → Option Timeval → SelectResult × K

/-- The select engine. Changing the registration leaves the rest of the world alone. -/
def selectApi (size : Nat) {K : Type} (kernel : SelectKernel K) :
    PollApi SelectState SelectResult K where
  add s k fd events data := do
    let (ret, s) ← epSelectAdd size s fd events data
    return (ret, s, k)
  mod s k fd events data := do
    let (ret, s) ← epSelectMod size s fd events data
    return (ret, s, k)
  del s k fd := do
    let (ret, s) ← epSelectDel size s fd
    return (ret, s, k)
  wait s k timeout := do
    let (r, k) := kernel.select k (s.maxfd + 1) s.rfds s.wfds s.efds (selectTimeout timeout)
    let (ret, s) ← epSelectWait size (fun _ _ _ _ _ => r) s timeout
    return (r, ret, s, k)
  fetch s out := do
    let ((ret, e), s) ← epSelectFetch size s
    return (ret, s, (e.map fun e => out.store e.events e.data).getD out)

end Libep
