import Libep.Ep
import Libep.Theory.Program

/-!
# Programs that run the loop

The two ways to use the event loop, with a body that handles the events:
`while (1) ep_for_each(state, waittime, &events, &data) { body }` and
`while (1) if (ep_iterate(state, waittime, &events, &data) > 0) { body }`. Both are made of the same
statements, in a different order. The macro and the function are written out. At the end, the calls of any
program.
-/

namespace Libep

/-- A statement of one of the programs. -/
inductive LoopStmt where
  | nexttick
  | everytick
  | timers
  | wait
  | fetch
  | body
  deriving DecidableEq

/-- What an observer sees of a statement, with the state it finds. A fetch is not seen; what it delivers
is what the body finds. -/
inductive LoopObs (P O K : Type) where
  | nexttick (st : EpLoop P O K)
  | everytick (st : EpLoop P O K)
  | timers (st : EpLoop P O K)
  | wait (timeout : Int32) (st : EpLoop P O K)
  | deliver (out : Out) (st : EpLoop P O K)

section
variable {P O K : Type} (fuel : Nat) (api : PollApi P O K) (env : Env P K) (waittime : Int32)

/-- `ep__waittime(&state->timer, waittime)` -/
def epWaitArgument (st : EpLoop P O K) : Res (Int32 × EpLoop P O K) := do
  let (tv, world) := env.gettimeofday st.world
  let (timeout, timer) ← epWaittime st.timer tv waittime
  return (timeout, { st with timer, world })

/-- `ep_pollapi_wait(&state->ps, timeout)` -/
def epPollWait (st : EpLoop P O K) (timeout : Int32) : Res (Int × EpLoop P O K) := do
  let (o, ret, ps, world) ← api.wait st.ps st.world timeout
  return (ret, { st with ps, world, log := st.log ++ [.wait timeout o] })

/-- The body: the calls it makes for what it finds in its variables and in the state, and the world after
what else it does. It does not leave the loop, and neither polls nor fetches. -/
abbrev Handler (P K : Type) := Out → EpState P K → List EpAction × K

variable (handler : Handler P K)

def runBody (st : EpLoop P O K) (out : Out) : Res (EpLoop P O K) :=
  let (actions, world) := handler out st.toEpState
  execActions fuel api env { st with world } actions

/-- Run a statement: what is seen of it, and its result (0 if it has none) with the state and the
variables of the program after it. -/
def LoopStmt.exec : LoopStmt → EpLoop P O K × Out →
    List (LoopObs P O K) × Res (Int × EpLoop P O K × Out)
  | nexttick, (st, out) =>
    ([.nexttick st], do return (0, ← epRunNexttick fuel api env st, out))
  | everytick, (st, out) =>
    ([.everytick st], do return (0, ← epRunEverytick fuel api env st, out))
  | timers, (st, out) =>
    ([.timers st], do return (0, ← epExecuteTimers fuel api env st, out))
  | wait, (st, out) =>
    match epWaitArgument env waittime st with
    | .ok (timeout, st) => ([.wait timeout st], do
        let (ret, st) ← epPollWait api st timeout
        return (ret, st, out))
    | .error e => ([], .error e)
  | fetch, (st, out) => ([], do
      let (ret, out, st) ← epFetch api st out
      return (ret, st, out))
  | body, (st, out) =>
    ([.deliver out st], do return (0, ← runBody fuel api env handler st out, out))

end

/-- `while (1) ep_for_each(..) { body }`; a point of the program is its statement. -/
def forEachProgram : Program LoopStmt LoopStmt Int where
  stmt := id
  next
    | .nexttick, _ => .everytick
    | .everytick, _ => .timers
    | .timers, _ => .wait
    | .wait, _ => .fetch
    | .fetch, ret => if ret > 0 then .body else .nexttick
    | .body, _ => .fetch

/-- The points of the other program; `ep_iterate` has two fetches. -/
inductive IteratePc where
  | fetch
  | nexttick
  | everytick
  | timers
  | wait
  | fetchNew
  | body
  deriving DecidableEq

/-- `while (1) if (ep_iterate(..) > 0) { body }` -/
def iterateProgram : Program IteratePc LoopStmt Int where
  stmt
    | .fetch | .fetchNew => .fetch
    | .nexttick => .nexttick
    | .everytick => .everytick
    | .timers => .timers
    | .wait => .wait
    | .body => .body
  next
    | .fetch, ret => if ret ≤ 0 then .nexttick else .body
    | .nexttick, _ => .everytick
    | .everytick, _ => .timers
    | .timers, _ => .wait
    -- `ep_iterate` returns the result of the wait, whatever the fetch after it returns
    | .wait, ret => if ret > 0 then .fetchNew else .fetch
    | .fetchNew, _ => .body
    | .body, _ => .fetch

/-! ### Any program -/

/-- What a program does: it uses the loop, fetches by itself, makes another call of the interface, or does
something else to the world. -/
inductive LoopCall (K : Type) where
  | iterate (waittime : Int32) (out : Out)
  | forEachStart (waittime : Int32)
  | fetch (out : Out)
  | action (a : EpAction)
  | other (f : K → K)

section
variable {P O K : Type} (fuel : Nat) (api : PollApi P O K) (env : Env P K)

def LoopCall.exec (st : EpLoop P O K) : LoopCall K → Res (EpLoop P O K)
  | iterate waittime out => do return (← epIterate fuel api env st waittime out).2.2
  | forEachStart waittime => epForEachStart fuel api env st waittime
  | fetch out => do return (← epFetch api st out).2.2
  | action a => a.exec fuel api env st
  | other f => return { st with world := f st.world }

/-- A run of a program. What a program does in a given run is such a list, whatever it decides by. -/
def loopRun : EpLoop P O K → List (LoopCall K) → Res (EpLoop P O K)
  | st, [] => return st
  | st, c :: cs => do loopRun (← c.exec fuel api env st) cs

end

end Libep
