import Libep.PollApi
import Libep.TaskQueue
import Libep.Timer

/-!
# The event loop (`ep.h`)

The loop is over any engine. What is outside the library is `Env`: the clock, and what the callbacks do.
A callback makes calls of the interface, and does not call the loop; which calls it makes may depend on
the whole state it finds.
-/

namespace Libep

/-- `ep__waittime`, for the reading `tv` of the clock. -/
def epWaittime (timer : Timer) (tv : Timeval) (hint : Int32) : Res (Int32 × Timer) := do
  let timer := epTimerUpdatetime timer tv
  let waittime ← epTimerNearestDiff timer
  let waittime :=
    if waittime < 0 then hint
    else if hint < 0 ∨ waittime < hint then waittime else hint
  return (waittime, timer)

/-- The task queues of `ep_state_t`. -/
inductive Tick where
  | nexttick
  | everytick
  deriving DecidableEq

/-- A call of a callback. -/
inductive EpCall where
  | task (q : Tick) (c : TaskCall)
  | timer (f : Firing)
  deriving DecidableEq

/-- What an observer of the loop sees: a callback that starts, and a wait with the answer of the
kernel. -/
inductive Obs (O : Type) where
  | call (c : EpCall)
  | wait (timeout : Int32) (o : O)
  deriving DecidableEq

/-- `ep_state_t`, with the memory of its tasks and the rest of the world. -/
structure EpState (P K : Type) where
  ps : P
  tasks : Tasks Tick
  timer : Timer
  world : K

/-- The state of a run, with the record of what the loop did. -/
structure EpLoop (P O K : Type) extends EpState P K where
  log : List (Obs O)

/-- A call of the interface, but for those of the loop. -/
inductive EpAction where
  | add (fd : Int) (events : UInt32) (data : UInt64)
  | mod (fd : Int) (events : UInt32) (data : UInt64)
  | del (fd : Int)
  | settimeout (oom : Bool) (ms : UInt64) (cb arg : Nat)
  | setinterval (oom : Bool) (ms : UInt64) (cb arg : Nat)
  | cleartimeout (id : Nat)
  | clearinterval (id : Nat)
  | nexttick (oom : Bool) (cb arg : Nat)
  | everytick (oom : Bool) (cb arg : Nat)
  | cleartask (id : Nat)
  deriving DecidableEq

/-- What the loop depends on beside its engine. -/
structure Env (P K : Type) where
  gettimeofday : K → Timeval × K
  /-- The calls a callback makes, and the world after what else it does. -/
  callback : EpCall → EpState P K → List EpAction × K

section
variable {P O K : Type}

/-- `ep_init`; `init` is the initialisation of the engine. -/
def epInit (init : P → Int × P) (st : EpState P K) : Res (Int × EpState P K) := do
  let (ret, ps) := init st.ps
  let tasks ← epTaskQueueInit st.tasks .nexttick
  let tasks ← epTaskQueueInit tasks .everytick
  return (if ret < 0 then -1 else 0, { st with ps, tasks, timer := epTimerInit st.timer })

/-- `ep_fini`; `fini` is the end of the engine. -/
def epFini (fini : P → K → P × K) (fuel : Nat) (st : EpState P K) : Res (Int × EpState P K) := do
  let (ps, world) := fini st.ps st.world
  let timer ← epTimerFini fuel st.timer
  let tasks ← epTaskQueueFini .nexttick fuel st.tasks
  let tasks ← epTaskQueueFini .everytick fuel tasks
  return (0, { ps, tasks, timer, world })

variable (fuel : Nat) (api : PollApi P O K) (env : Env P K) (st : EpLoop P O K)

/-- `ep_add`. -/
def epAdd (fd : Int) (events : UInt32) (data : UInt64) : Res (Int × EpLoop P O K) := do
  let (ret, ps, world) ← api.add st.ps st.world fd events data
  return (ret, { st with ps, world })

/-- `ep_mod`. -/
def epMod (fd : Int) (events : UInt32) (data : UInt64) : Res (Int × EpLoop P O K) := do
  let (ret, ps, world) ← api.mod st.ps st.world fd events data
  return (ret, { st with ps, world })

/-- `ep_del`. -/
def epDel (fd : Int) : Res (Int × EpLoop P O K) := do
  let (ret, ps, world) ← api.del st.ps st.world fd
  return (ret, { st with ps, world })

/-- `ep_timer_updatetime(&state->timer)` -/
def epUpdatetime : EpLoop P O K :=
  let (tv, world) := env.gettimeofday st.world
  { st with timer := epTimerUpdatetime st.timer tv, world }

/-- `ep_settimeout`. -/
def epSettimeout (oom : Bool) (ms : UInt64) (cb arg : Nat) : Res (Option Nat × EpLoop P O K) := do
  let st := epUpdatetime env st
  let (ret, timer) ← epTimerRunAfter fuel st.timer oom ms cb arg
  return (ret, { st with timer })

/-- `ep_setinterval`. -/
def epSetinterval (oom : Bool) (ms : UInt64) (cb arg : Nat) : Res (Option Nat × EpLoop P O K) := do
  let st := epUpdatetime env st
  let (ret, timer) ← epTimerRunEvery fuel st.timer oom ms cb arg
  return (ret, { st with timer })

/-- `ep_cleartimeout`. -/
def epCleartimeout (id : Nat) : Res (EpLoop P O K) := do
  return { st with timer := ← epTimerClear fuel st.timer id }

/-- `ep_clearinterval`. -/
def epClearinterval (id : Nat) : Res (EpLoop P O K) := do
  return { st with timer := ← epTimerClear fuel st.timer id }

/-- `ep_nexttick`. -/
def epNexttick (oom : Bool) (cb arg : Nat) : Res (Option Nat × EpLoop P O K) := do
  let (ret, tasks) ← epTaskQueuePush st.tasks .nexttick oom cb arg
  return (ret, { st with tasks })

/-- `ep_everytick`. -/
def epEverytick (oom : Bool) (cb arg : Nat) : Res (Option Nat × EpLoop P O K) := do
  let (ret, tasks) ← epTaskQueuePush st.tasks .everytick oom cb arg
  return (ret, { st with tasks })

/-- `ep_cleartask`. -/
def epCleartask (id : Nat) : Res (EpLoop P O K) := do
  return { st with tasks := ← epTaskCancel st.tasks id }

def EpAction.exec : EpAction → Res (EpLoop P O K)
  | add fd events data => do return (← epAdd api st fd events data).2
  | mod fd events data => do return (← epMod api st fd events data).2
  | del fd => do return (← epDel api st fd).2
  | settimeout oom ms cb arg => do return (← epSettimeout fuel env st oom ms cb arg).2
  | setinterval oom ms cb arg => do return (← epSetinterval fuel env st oom ms cb arg).2
  | cleartimeout id => epCleartimeout fuel st id
  | clearinterval id => epClearinterval fuel st id
  | nexttick oom cb arg => do return (← epNexttick st oom cb arg).2
  | everytick oom cb arg => do return (← epEverytick st oom cb arg).2
  | cleartask id => epCleartask st id

def execActions : EpLoop P O K → List EpAction → Res (EpLoop P O K)
  | st, [] => return st
  | st, a :: as => do execActions (← a.exec fuel api env st) as

/-- Call a callback. -/
def runCallback (c : EpCall) : Res (EpLoop P O K) :=
  let (actions, world) := env.callback c st.toEpState
  execActions fuel api env { st with world, log := st.log ++ [.call c] } actions

/-- Call a task while its queue is run. -/
def taskCall (q : Tick) (c : TaskCall) (s : Tasks Tick × EpLoop P O K) :
    Res (Tasks Tick × EpLoop P O K) := do
  let st ← runCallback fuel api env { s.2 with tasks := s.1 } (.task q c)
  return (st.tasks, st)

/-- Call a timer while the timers are executed. -/
def timerCall (f : Firing) (s : Timer × EpLoop P O K) : Res (Timer × EpLoop P O K) := do
  let st ← runCallback fuel api env { s.2 with timer := s.1 } (.timer f)
  return (st.timer, st)

/-- `ep_task_queue_run(&state->nexttick)` -/
def epRunNexttick : Res (EpLoop P O K) := do
  let (tasks, st) ← epTaskQueueRun .nexttick (taskCall fuel api env .nexttick) fuel (st.tasks, st)
  return { st with tasks }

/-- `ep_task_queue_run_keep(&state->everytick)` -/
def epRunEverytick : Res (EpLoop P O K) := do
  let (tasks, st) ←
    epTaskQueueRunKeep .everytick (taskCall fuel api env .everytick) fuel (st.tasks, st)
  return { st with tasks }

/-- `ep_timer_execute_now(&state->timer, 128)` -/
def epExecuteTimers : Res (EpLoop P O K) := do
  let (tv, world) := env.gettimeofday st.world
  let (timer, st) ←
    epTimerExecuteNow fuel (timerCall fuel api env) (st.timer, { st with world }) tv 128
  return { st with timer }

/-- `ep_pollapi_wait(&state->ps, ep__waittime(&state->timer, waittime))` -/
def epWait (waittime : Int32) : Res (Int × EpLoop P O K) := do
  let (tv, world) := env.gettimeofday st.world
  let (timeout, timer) ← epWaittime st.timer tv waittime
  let (o, ret, ps, world) ← api.wait st.ps world timeout
  return (ret, { st with ps, timer, world, log := st.log ++ [.wait timeout o] })

/-- The statements of `ep__for_each_start` before its wait. -/
def epBeforeWait : Res (EpLoop P O K) := do
  let st ← epRunNexttick fuel api env st
  let st ← epRunEverytick fuel api env st
  epExecuteTimers fuel api env st

/-- The statements of `ep__for_each_start`, which `ep_iterate` has too, with the result of the wait. -/
def epTurn (waittime : Int32) : Res (Int × EpLoop P O K) := do
  let st ← epBeforeWait fuel api env st
  epWait api env st waittime

/-- `ep__for_each_start`. -/
def epForEachStart (waittime : Int32) : Res (EpLoop P O K) := do
  return (← epTurn fuel api env st waittime).2

/-- `ep_pollapi_fetch(&state->ps, events, data)` -/
def epFetch (out : Out) : Res (Int × Out × EpLoop P O K) := do
  let (ret, ps, out) ← api.fetch st.ps out
  return (ret, out, { st with ps })

/-- `ep_iterate`. -/
def epIterate (waittime : Int32) (out : Out) : Res (Int × Out × EpLoop P O K) := do
  let (ret, out, st) ← epFetch api st out
  if ret ≤ 0 then
    let (ret, st) ← epTurn fuel api env st waittime
    if ret > 0 then
      let (_, out, st) ← epFetch api st out
      return (ret, out, st)
    else return (ret, out, st)
  else return (ret, out, st)

end

/-- A call of `ep_iterate`: its result, what its pointers pointed to before and after, and what an
observer saw during it. -/
structure Report (O : Type) where
  ret : Int
  out : Out
  out' : Out
  obs : List (Obs O)
  deriving DecidableEq

section
variable {P O K : Type} (fuel : Nat) (api : PollApi P O K) (env : Env P K)

end

end Libep
