import Libep.SkipList

/-!
# Timers (`ep_timer.h`)

A timer list is a skip list of `ep_timer_node_t` blocks, scored by deadline. A block is named by a
number that stands for its address; `malloc` hands out the numbers in order, so a number names one
allocation and is not used again after `free`. The skip list node is the first member of the block
and shares its address. Of the other members, `timer` points to the one timer there is and is
left out; reading it is an access to the block.

Inputs from outside are the clock (`gettimeofday`), the outcome of `malloc`, the sequence of
`random_level` results (`Timer.random`), and what the callbacks do: `ep_timer_execute` takes a
function that runs a callback on the timer and on a world `W` of the caller's choice.
-/

namespace Libep
open SkipList

/-- The levels of `SKIPLIST_DECLARE_TYPE(timer, 8, uint64_t, 0.25)`. -/
def timerLevel : Nat := 8

/-- `ep_timer_node_t` without its skip list node: the period (0 for a one-shot), the callback and
its argument. -/
structure TimerNode where
  ms : UInt64
  cb : Nat
  arg : Nat
  deriving DecidableEq

/-- `ep_timer_t`, with the memory of its blocks. -/
structure Timer where
  sl : SkipList UInt64 Nat
  now : UInt64
  /-- The blocks, beside their skip list nodes; `sl.live` says which are allocated. -/
  node : Nat → TimerNode
  /-- The block the next `malloc` hands out. -/
  brk : Nat
  /-- The blocks passed to `free`, in that order. -/
  freed : List Nat
  /-- How many calls of `random()` in a row pass the test in the next runs of `random_level`. -/
  random : Nat → Nat

/-- `struct timeval`. -/
structure Timeval where
  tv_sec : Int
  tv_usec : Int
  deriving DecidableEq

/-- `tv.tv_sec * 1000 + tv.tv_usec / 1000`, as a `uint64_t`. -/
def Timeval.ms (tv : Timeval) : UInt64 := .ofInt (tv.tv_sec * 1000 + tv.tv_usec.tdiv 1000)

/-- A call `timer_node->cb(timer_node->arg)`, and the block it is made for. -/
structure Firing where
  id : Nat
  cb : Nat
  arg : Nat
  deriving DecidableEq

namespace Timer

/-- Read `timer_node->cb` and `timer_node->arg`. -/
def firing (t : Timer) (a : Nat) : Res Firing :=
  if t.sl.live a then .ok ⟨a, (t.node a).cb, (t.node a).arg⟩ else .error .invalid

/-- Read `timer_node->ms`. -/
def ms (t : Timer) (a : Nat) : Res UInt64 :=
  if t.sl.live a then .ok (t.node a).ms else .error .invalid

end Timer

/-- `ep_timer_init`. -/
def epTimerInit (t : Timer) : Timer := { t with sl := skiplistInit t.sl }

/-- `ep__timer_node_create`, when `malloc` succeeds. -/
def epTimerNodeCreate (t : Timer) : Nat × Timer :=
  (t.brk, { t with sl := { t.sl with live := Function.update t.sl.live t.brk true }, brk := t.brk + 1 })

/-- `ep__timer_node_destroy`. -/
def epTimerNodeDestroy (t : Timer) (a : Nat) : Res Timer :=
  if t.sl.live a then
    .ok { t with sl := { t.sl with live := Function.update t.sl.live a false }, freed := t.freed ++ [a] }
  else .error .invalid

/-- `ep_timer_updatetime`, for the reading `tv` of the clock. -/
def epTimerUpdatetime (t : Timer) (tv : Timeval) : Timer :=
  { t with now := tv.ms }

/-- `ep_timer_gettime`. -/
def epTimerGettime (t : Timer) : UInt64 := t.now

section
variable (fuel : Nat)

/-- `skiplist_insert(timer, &timer->sl, &node->n)`. -/
def timerInsert (t : Timer) (a : Nat) : Res Timer := do
  let sl ← skiplistInsert timerLevel fuel t.sl a (t.random 0)
  return { t with sl, random := fun i => t.random (i + 1) }

/-- The common body of `ep_timer_run_after` and `ep_timer_run_every`, which differ in the period
they store; `oom` says that `malloc` fails. -/
def timerRun (t : Timer) (oom : Bool) (period ms : UInt64) (cb arg : Nat) :
    Res (Option Nat × Timer) :=
  if oom then return (none, t)
  else do
    let (a, t) := epTimerNodeCreate t
    let t := { t with
      node := Function.update t.node a ⟨period, cb, arg⟩
      sl := skiplistNodeInit t.sl a (epTimerGettime t + ms) }
    return (some a, ← timerInsert fuel t a)

/-- `ep_timer_run_after`. -/
def epTimerRunAfter (t : Timer) (oom : Bool) (ms : UInt64) (cb arg : Nat) :
    Res (Option Nat × Timer) := timerRun fuel t oom 0 ms cb arg

/-- `ep_timer_run_every`. -/
def epTimerRunEvery (t : Timer) (oom : Bool) (ms : UInt64) (cb arg : Nat) :
    Res (Option Nat × Timer) := timerRun fuel t oom ms ms cb arg

/-- `ep_timer_fini`. -/
def epTimerFini (t : Timer) : Res Timer :=
  skiplistForEachClear fuel Timer.sl (fun t sl => { t with sl }) epTimerNodeDestroy t

/-- `ep_timer_clear`; it reads `node->timer` first. -/
def epTimerClear (t : Timer) (id : Nat) : Res Timer :=
  if t.sl.live id then do
    let sl ← skiplistDelete timerLevel fuel t.sl id
    epTimerNodeDestroy { t with sl } id
  else .error .invalid

/-- `node ? node->forward[0] : NULL` -/
def forwardOrNull (t : Timer) : Option Nat → Res (Option Nat)
  | none => .ok none
  | some a => t.sl.forward (.node a) 0

variable {W : Type} (call : Firing → Timer × W → Res (Timer × W))

/-- What the body of `ep_timer_execute` does with the node after its callback: re-arm it or destroy
it. -/
def rearmOrDestroy (t : Timer) (a : Nat) : Res Timer := do
  let ms ← t.ms a
  if ms > 0 then
    let score ← t.sl.score a
    timerInsert fuel { t with sl := t.sl.setScore a (score + ms) } a
  else epTimerNodeDestroy t a

/-- The loop of `ep_timer_execute` under the header of `skiplist_shift_lte`. -/
def executeLoop : Nat → Timer × W → (node n : Option Nat) → (max_times : Int32) → Res (Timer × W)
  | 0, _, _, _, _ => .error .fuel
  | _ + 1, s, none, _, _ => return s
  | k + 1, (t, w), some a, n, max_times => do
    let f ← t.firing a
    let (t, w) ← call f (t, w)
    let t ← rearmOrDestroy fuel t a
    let (max_times, stop) :=
      if max_times ≥ 0 then (max_times - 1, decide (max_times - 1 ≤ 0)) else (max_times, false)
    if stop then return (t, w)
    else executeLoop k (t, w) n (← forwardOrNull t n) max_times

/-- `ep_timer_execute`. -/
def epTimerExecute (s : Timer × W) (now : UInt64) (max_times : Int32) : Res (Timer × W) := do
  let (t, w) := s
  let (node, sl) ← skiplistExtractLte timerLevel fuel t.sl now
  let t := { t with sl }
  executeLoop fuel call fuel (t, w) node (← forwardOrNull t node) max_times

/-- `ep_timer_execute_now`. -/
def epTimerExecuteNow (s : Timer × W) (tv : Timeval) (limit : Int32) : Res (Timer × W) :=
  let t := epTimerUpdatetime s.1 tv
  epTimerExecute fuel call (t, s.2) t.now limit

end

/-- `ep_timer_nearest_diff`: the difference is a `uint64_t` and is returned as an `int`. -/
def epTimerNearestDiff (t : Timer) : Res Int32 := do
  let ret : UInt64 ←
    match ← t.sl.forward .header 0 with
    | some a => do
      let now := epTimerGettime t
      let nearest ← t.sl.score a
      pure (if nearest > now then nearest - now else 0)
    | none => pure (-1)
  return ret.toUInt32.toInt32

/-! ### Calls of the interface -/

/-- A call a program, or one of its callbacks, makes on the timer. -/
inductive TimerOp where
  | updatetime (tv : Timeval)
  | runAfter (oom : Bool) (ms : UInt64) (cb arg : Nat)
  | runEvery (oom : Bool) (ms : UInt64) (cb arg : Nat)
  | clear (id : Nat)
  deriving DecidableEq

section
variable (fuel : Nat)

def TimerOp.exec (t : Timer) : TimerOp → Res Timer
  | .updatetime tv => return epTimerUpdatetime t tv
  | .runAfter oom ms cb arg => do return (← epTimerRunAfter fuel t oom ms cb arg).2
  | .runEvery oom ms cb arg => do return (← epTimerRunEvery fuel t oom ms cb arg).2
  | .clear id => epTimerClear fuel t id

/-- Calls one after the other. -/
def execOps (t : Timer) : List TimerOp → Res Timer
  | [] => return t
  | op :: ops => do execOps (← op.exec fuel t) ops

/-- Callbacks that use the timer only: the `k`-th callback of a call of `ep_timer_execute` makes the
calls `script k`. The world is the record of the callbacks that ran. What a callback does in a given
run is such a list, whatever it decides by; so a statement about every `script` is one about every
set of callbacks. -/
def callScript (script : Nat → List TimerOp) (f : Firing) (s : Timer × List Firing) :
    Res (Timer × List Firing) := do
  let t ← execOps fuel s.1 (script s.2.length)
  return (t, s.2 ++ [f])

end

/-- What happens to a timer: a call from outside the callbacks, or an execution. -/
inductive TimerStep where
  | call (op : TimerOp)
  | execute (now : UInt64) (max_times : Int32) (script : Nat → List TimerOp)

/-- The executions of a run: the time of each and the callbacks it made. -/
abbrev TimerLog := List (UInt64 × List Firing)

section
variable (fuel : Nat)

def TimerStep.exec (t : Timer) : TimerStep → Res (Timer × TimerLog)
  | .call op => do return (← op.exec fuel t, [])
  | .execute now max_times script => do
    let (t, fired) ← epTimerExecute fuel (callScript fuel script) (t, []) now max_times
    return (t, [(now, fired)])

def execSteps : Timer → List TimerStep → Res (Timer × TimerLog)
  | t, [] => return (t, [])
  | t, s :: steps => do
    let (t, log) ← s.exec fuel t
    let (t, log') ← execSteps t steps
    return (t, log ++ log')

end

end Libep
