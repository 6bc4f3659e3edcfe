import Libep.Machine

/-!
# Events and engines (`ep_pollapi.h`)

The event bits every engine reports. `ep_data_t` is a union that the engines copy through `u64`; it is a
`UInt64` here. An `int` that carries event bits is a `UInt32`.

The header selects an engine when it is compiled. The event loop takes the engine as a parameter.
-/

namespace Libep

/-- `EP_NONE`. -/
def epNone : UInt32 := 0

/-- `EP_READABLE`. -/
def epReadable : UInt32 := 1

/-- `EP_WRITABLE`. -/
def epWritable : UInt32 := (1 : UInt32) <<< 1

/-- `EP_EXCEPT`. -/
def epExcept : UInt32 := (1 : UInt32) <<< 2

/-- `EP_ERROR`. -/
def epError : UInt32 := (1 : UInt32) <<< 3

/-- What the arguments `int *events` and `ep_data_t *data` of a fetch point to; `none` is `NULL`. -/
structure Out where
  events : Option UInt32
  data : Option UInt64
  deriving DecidableEq

/-- Store an event through both pointers. -/
def Out.store (out : Out) (events : UInt32) (data : UInt64) : Out :=
  ⟨out.events.map fun _ => events, out.data.map fun _ => data⟩

/-- An engine: `P` is its `ep_pollstate_t`, `K` the rest of the world, with the kernel in it. A wait also
gives, beside its result, the answer `O` of the kernel. -/
structure PollApi (P O K : Type) where
  add : P → K → (fd : Int) → (events : UInt32) → (data : UInt64) → Res (Int × P × K)
  mod : P → K → (fd : Int) → (events : UInt32) → (data : UInt64) → Res (Int × P × K)
  del : P → K → (fd : Int) → Res (Int × P × K)
  wait : P → K → (timeout : Int32) → Res (O × Int × P × K)
  fetch : P → Out → Res (Int × P × Out)

/-- A call that changes a registration. -/
inductive PollCall where
  | add (fd : Int) (events : UInt32) (data : UInt64)
  | mod (fd : Int) (events : UInt32) (data : UInt64)
  | del (fd : Int)
  deriving DecidableEq

namespace PollCall

/-- The descriptor a call is for. -/
def fd : PollCall → Int
  | add fd _ _ | mod fd _ _ | del fd => fd

def exec {P O K : Type} (api : PollApi P O K) (s : P) (k : K) : PollCall → Res (Int × P × K)
  | add fd events data => api.add s k fd events data
  | mod fd events data => api.mod s k fd events data
  | del fd => api.del s k fd

end PollCall

/-- Calls one after the other, with their results. -/
def pollRun {P O K : Type} (api : PollApi P O K) : P → K → List PollCall → Res (List Int × P × K)
  | s, k, [] => return ([], s, k)
  | s, k, c :: cs => do
    let (ret, s, k) ← c.exec api s k
    let (rets, s, k) ← pollRun api s k cs
    return (ret :: rets, s, k)

end Libep
