import Libep.ListHead

/-!
# Task queues (`ep_task_queue.h`, `ep_callback.h`)

Several queues share one memory of `ep_callback_t` blocks, as the two queues of the event loop do; `Q`
names the queues. A block is named by a number, as in `Libep.Timer`, and its `list` member has the
address of the block. A callback runs on the memory and on a world `W` of the caller's choice.
-/

namespace Libep

/-- The address of a `list_head_t`: the member of a queue, or that of a block. -/
inductive TaskRef (Q : Type) where
  | head (q : Q)
  | task (a : Nat)
  deriving DecidableEq

/-- `ep_callback_t` without its links. -/
structure Callback where
  fn : Nat
  arg : Nat
  deriving DecidableEq

/-- The queues, with the memory of their blocks. -/
structure Tasks (Q : Type) where
  list : ListMem (TaskRef Q)
  /-- The blocks, beside their links; `list.live` says which are allocated. -/
  cb : Nat → Callback
  /-- The block the next `malloc` hands out. -/
  brk : Nat
  /-- The blocks passed to `free`, in that order. -/
  freed : List Nat

/-- A call `cb->fn(cb->arg)`, and the block it is made for. -/
structure TaskCall where
  id : Nat
  fn : Nat
  arg : Nat
  deriving DecidableEq

variable {Q W : Type} [DecidableEq Q]

namespace Tasks

/-- Read `cb->fn` and `cb->arg`. -/
def call (s : Tasks Q) (a : Nat) : Res TaskCall :=
  if s.list.live (.task a) then .ok ⟨a, (s.cb a).fn, (s.cb a).arg⟩ else .error .invalid

/-- `free(cb)` -/
def free (s : Tasks Q) (a : Nat) : Res (Tasks Q) :=
  if s.list.live (.task a) then
    .ok { s with
      list := { s.list with live := Function.update s.list.live (.task a) false }
      freed := s.freed ++ [a] }
  else .error .invalid

end Tasks

/-- `list_entry(pos, ep_callback_t, list)`; the list member of a queue lies in no block. -/
def taskEntry : Option (TaskRef Q) → Res Nat
  | some (.task a) => .ok a
  | _ => .error .invalid

/-- `ep_task_queue_init`. -/
def epTaskQueueInit (s : Tasks Q) (q : Q) : Res (Tasks Q) := do
  return { s with list := ← initListHead s.list (.head q) }

/-- `ep_task_queue_push`; `oom` says that `malloc` fails. -/
def epTaskQueuePush (s : Tasks Q) (q : Q) (oom : Bool) (fn arg : Nat) :
    Res (Option Nat × Tasks Q) :=
  if oom then return (none, s)
  else do
    let cb := s.brk
    let list := { s.list with live := Function.update s.list.live (.task cb) true }
    let list ← initListHead list (.task cb)
    let list ← listAddTail list (.task cb) (.head q)
    return (some cb, { s with list, cb := Function.update s.cb cb ⟨fn, arg⟩, brk := cb + 1 })

/-- `ep_task_cancel`. -/
def epTaskCancel (s : Tasks Q) (id : Nat) : Res (Tasks Q) := do
  let list ← listDel s.list (some (.task id))
  { s with list }.free id

section
variable (q : Q)

/-- The loop of `ep_task_queue_fini`, under the header of `list_for_each_safe`. -/
def finiLoop : Nat → Tasks Q → (pos n : Option (TaskRef Q)) → Res (Tasks Q)
  | 0, _, _, _ => .error .fuel
  | k + 1, s, pos, n =>
    if pos = some (.head q) then return s
    else do
      let cb ← taskEntry pos
      let s := { s with list := ← listDel s.list pos }
      let s ← s.free cb
      finiLoop k s n (← s.list.getNext n)

/-- `ep_task_queue_fini`. -/
def epTaskQueueFini (fuel : Nat) (s : Tasks Q) : Res (Tasks Q) := do
  let pos ← s.list.getNext (some (.head q))
  finiLoop q fuel s pos (← s.list.getNext pos)

end

section
variable (q : Q) (call : TaskCall → Tasks Q × W → Res (Tasks Q × W))

/-- The loop of `ep_task_queue_run`, under the header of `list_for_each_safe`. -/
def runLoop : Nat → Tasks Q × W → (pos n : Option (TaskRef Q)) → Res (Tasks Q × W)
  | 0, _, _, _ => .error .fuel
  | k + 1, (s, w), pos, n =>
    if pos = some (.head q) then return (s, w)
    else do
      let s := { s with list := ← listDel s.list pos }
      let cb ← taskEntry pos
      let (s, w) ← call (← s.call cb) (s, w)
      let s ← s.free cb
      runLoop k (s, w) n (← s.list.getNext n)

/-- `ep_task_queue_run`. -/
def epTaskQueueRun (fuel : Nat) (s : Tasks Q × W) : Res (Tasks Q × W) := do
  let pos ← s.1.list.getNext (some (.head q))
  runLoop q call fuel s pos (← s.1.list.getNext pos)

/-- The loop of `ep_task_queue_run_keep`, under the header of `list_for_each`. -/
def runKeepLoop : Nat → Tasks Q × W → (pos : Option (TaskRef Q)) → Res (Tasks Q × W)
  | 0, _, _ => .error .fuel
  | k + 1, (s, w), pos =>
    if pos = some (.head q) then return (s, w)
    else do
      let cb ← taskEntry pos
      let (s, w) ← call (← s.call cb) (s, w)
      runKeepLoop k (s, w) (← s.list.getNext pos)

/-- `ep_task_queue_run_keep`. -/
def epTaskQueueRunKeep (fuel : Nat) (s : Tasks Q × W) : Res (Tasks Q × W) := do
  runKeepLoop q call fuel s (← s.1.list.getNext (some (.head q)))

/-- `ep_task_queue_run_once`. -/
def epTaskQueueRunOnce (s : Tasks Q × W) : Res (Tasks Q × W) := do
  let (s, w) := s
  if ← listEmpty s.list (.head q) then return (s, w)
  else
    let cb ← taskEntry (← s.list.getNext (some (.head q)))
    let s := { s with list := ← listDel s.list (some (.task cb)) }
    let (s, w) ← call (← s.call cb) (s, w)
    return (← s.free cb, w)

end

/-! ### Callbacks that push -/

/-- A call of `ep_task_queue_push`; `oom` says that its `malloc` fails. -/
structure Push where
  oom : Bool
  fn : Nat
  arg : Nat
  deriving DecidableEq

/-- What happened to the tasks of a queue: those pushed, the calls made, and those cancelled. -/
structure TaskLog where
  pushed : List TaskCall
  invoked : List TaskCall
  cancelled : List Nat
  deriving DecidableEq

section
variable (q : Q)

def pushTask (s : Tasks Q × TaskLog) (p : Push) : Res (Tasks Q × TaskLog) := do
  let (ret, t) ← epTaskQueuePush s.1 q p.oom p.fn p.arg
  let new : Option TaskCall := ret.map fun cb => ⟨cb, p.fn, p.arg⟩
  return (t, { s.2 with pushed := s.2.pushed ++ new.toList })

def pushTasks : Tasks Q × TaskLog → List Push → Res (Tasks Q × TaskLog)
  | s, [] => return s
  | s, p :: ps => do pushTasks (← pushTask q s p) ps

/-- Callbacks that push onto the queue only: the `k`-th callback makes the calls `script k`. What a
callback does in a given run is such a list, whatever it decides by. -/
def pushScript (script : Nat → List Push) (c : TaskCall) (s : Tasks Q × TaskLog) :
    Res (Tasks Q × TaskLog) :=
  pushTasks q (s.1, { s.2 with invoked := s.2.invoked ++ [c] }) (script s.2.invoked.length)

end

/-! ### Callbacks that push and cancel -/

/-- A call that a callback makes: `ep_task_queue_push`, or `ep_task_cancel`. -/
inductive TaskAct where
  | push (p : Push)
  | cancel (id : Nat)
  deriving DecidableEq

/-- What happened to a task of a queue; a list of these is a record in the order of time. -/
inductive TaskNote where
  | pushed (t : TaskCall)
  | invoked (t : TaskCall)
  | cancelled (id : Nat)
  deriving DecidableEq

/-- The tasks pushed. -/
def pushedOf (notes : List TaskNote) : List TaskCall :=
  notes.flatMap fun | .pushed t => [t] | _ => []

/-- The calls made. -/
def invokedOf (notes : List TaskNote) : List TaskCall :=
  notes.flatMap fun | .invoked t => [t] | _ => []

/-- The tasks cancelled. -/
def cancelledOf (notes : List TaskNote) : List Nat :=
  notes.flatMap fun | .cancelled id => [id] | _ => []

section
variable (q : Q)

def TaskAct.exec (s : Tasks Q × List TaskNote) : TaskAct → Res (Tasks Q × List TaskNote)
  | push p => do
    let (ret, t) ← epTaskQueuePush s.1 q p.oom p.fn p.arg
    let new : Option TaskNote := ret.map fun cb => .pushed ⟨cb, p.fn, p.arg⟩
    return (t, s.2 ++ new.toList)
  | cancel id => do return (← epTaskCancel s.1 id, s.2 ++ [.cancelled id])

def execActs : Tasks Q × List TaskNote → List TaskAct → Res (Tasks Q × List TaskNote)
  | s, [] => return s
  | s, a :: as => do execActs (← a.exec q s) as

/-- Callbacks that push onto the queue and cancel tasks: the `k`-th callback makes the calls `script k`. -/
def actScript (script : Nat → List TaskAct) (c : TaskCall) (s : Tasks Q × List TaskNote) :
    Res (Tasks Q × List TaskNote) :=
  execActs q (s.1, s.2 ++ [.invoked c]) (script (invokedOf s.2).length)

end

end Libep
