import Libep.Loop
import Libep.Verify.Ep.Turn

/-!
# The calls a run makes of its engine

`api.recorded` is the engine `api` with a record of the calls made of it, those of the callbacks included.
A run on it is the run on `api`, as nothing reads the record; and what every call of the engine keeps
holds at the end of a run.
-/

namespace Libep
open Relation (ReflTransGen)

/-- A call of an engine, with what came of it; for a fetch, what the pointers of the caller point to before and after
it. -/
inductive PollEvent (O : Type) where
  | call (c : PollCall) (ret : Int)
  | wait (o : O) (ret : Int)
  | fetch (ret : Int) (out out' : Out)
  deriving DecidableEq

variable {P O K : Type}

/-- The engine, with a record of its calls beside its state. -/
def PollApi.recorded (api : PollApi P O K) : PollApi (P × List (PollEvent O)) O K where
  add s k fd events data := do
    let (ret, ps, k) ← api.add s.1 k fd events data
    return (ret, (ps, s.2 ++ [.call (.add fd events data) ret]), k)
  mod s k fd events data := do
    let (ret, ps, k) ← api.mod s.1 k fd events data
    return (ret, (ps, s.2 ++ [.call (.mod fd events data) ret]), k)
  del s k fd := do
    let (ret, ps, k) ← api.del s.1 k fd
    return (ret, (ps, s.2 ++ [.call (.del fd) ret]), k)
  wait s k timeout := do
    let (o, ret, ps, k) ← api.wait s.1 k timeout
    return (o, ret, (ps, s.2 ++ [.wait o ret]), k)
  fetch s out := do
    let (ret, ps, out') ← api.fetch s.1 out
    return (ret, (ps, s.2 ++ [.fetch ret out out']), out')

namespace EpLoop

/-- The state, with a record. -/
def record (st : EpLoop P O K) (tr : List (PollEvent O)) : EpLoop (P × List (PollEvent O)) O K :=
  { st with ps := (st.ps, tr) }

/-- The state without its record. -/
def erase (st : EpLoop (P × List (PollEvent O)) O K) : EpLoop P O K := { st with ps := st.ps.1 }

@[simp] theorem erase_record (st : EpLoop P O K) (tr : List (PollEvent O)) :
    (st.record tr).erase = st := rfl

end EpLoop

/-- A call of the engine with a record is one of the engine. -/
theorem PollCall.exec_recorded {api : PollApi P O K} {c : PollCall} {s s' : P × List (PollEvent O)} {k k' : K}
    {ret : Int} (h : c.exec api.recorded s k = .ok (ret, s', k')) :
    ∃ ps', c.exec api s.1 k = .ok (ret, ps', k') ∧ s' = (ps', s.2 ++ [.call c ret]) := by
  cases c <;>
  · obtain ⟨⟨ret, ps', k'⟩, hexec, h⟩ := Res.bind_eq_ok.1 h
    cases h
    exact ⟨ps', hexec, rfl⟩

/-- Callbacks that do not look at the record. -/
def Env.recorded (O : Type) (env : Env P K) : Env (P × List (PollEvent O)) K where
  gettimeofday := env.gettimeofday
  callback c st := env.callback c { st with ps := st.ps.1 }

/-! ### The record changes nothing -/

section
variable {S C W W' : Type}

/-- A call that does to one part of a world what another one does to that part alone. -/
def Covers (e : W → W') (call : C → S × W → Res (S × W)) (call' : C → S × W' → Res (S × W')) : Prop :=
  ∀ c s w, Prod.map id e <$> call c (s, w) = call' c (s, e w)

variable {e : W → W'}

theorem executeLoop_covers {call : Firing → Timer × W → Res (Timer × W)}
    {call' : Firing → Timer × W' → Res (Timer × W')} (H : Covers e call call') {fuel k : Nat} {t : Timer}
    {w : W} {node n : Option Nat} {max_times : Int32} :
    Prod.map id e <$> executeLoop fuel call k (t, w) node n max_times =
      executeLoop fuel call' k (t, e w) node n max_times := by
  induction k generalizing t w node n max_times with
  | zero => rfl
  | succ k ih =>
    cases node with
    | none => rfl
    | some a =>
      simp only [executeLoop, map_bind]
      refine congrArg _ (funext fun f => ?_)
      rw [← H f t w, bind_map_left]
      refine congrArg _ (funext fun r => congrArg _ (funext fun t₁ => ?_))
      obtain ⟨t', w'⟩ := r
      generalize (if max_times ≥ 0 then _ else _ : Int32 × Bool) = left
      split
      · rfl
      · rw [map_bind]
        exact congrArg _ (funext fun n' => ih)

theorem epTimerExecuteNow_covers {call : Firing → Timer × W → Res (Timer × W)}
    {call' : Firing → Timer × W' → Res (Timer × W')} (H : Covers e call call') {fuel : Nat} {t : Timer}
    {w : W} {tv : Timeval} {limit : Int32} :
    Prod.map id e <$> epTimerExecuteNow fuel call (t, w) tv limit =
      epTimerExecuteNow fuel call' (t, e w) tv limit := by
  simp only [epTimerExecuteNow, epTimerExecute, map_bind, executeLoop_covers H]

variable {Q : Type} [DecidableEq Q] {q : Q} {fuel k : Nat} {s : Tasks Q} {w : W}
variable {pos n : Option (TaskRef Q)}
variable {call : TaskCall → Tasks Q × W → Res (Tasks Q × W)}
variable {call' : TaskCall → Tasks Q × W' → Res (Tasks Q × W')}

theorem runLoop_covers (H : Covers e call call') :
    Prod.map id e <$> runLoop q call k (s, w) pos n = runLoop q call' k (s, e w) pos n := by
  induction k generalizing s w pos n with
  | zero => rfl
  | succ k ih =>
    unfold runLoop
    split
    · rfl
    · simp only [map_bind]
      refine congrArg _ (funext fun l => congrArg _ (funext fun cb => congrArg _ (funext fun c => ?_)))
      rw [← H, bind_map_left]
      refine congrArg _ (funext fun r => congrArg _ (funext fun s₁ => congrArg _ (funext fun n' => ?_)))
      exact ih

theorem epTaskQueueRun_covers (H : Covers e call call') :
    Prod.map id e <$> epTaskQueueRun q call fuel (s, w) = epTaskQueueRun q call' fuel (s, e w) := by
  simp only [epTaskQueueRun, map_bind, runLoop_covers H]

theorem runKeepLoop_covers (H : Covers e call call') :
    Prod.map id e <$> runKeepLoop q call k (s, w) pos = runKeepLoop q call' k (s, e w) pos := by
  induction k generalizing s w pos with
  | zero => rfl
  | succ k ih =>
    unfold runKeepLoop
    split
    · rfl
    · simp only [map_bind]
      refine congrArg _ (funext fun cb => congrArg _ (funext fun c => ?_))
      rw [← H, bind_map_left]
      exact congrArg _ (funext fun r => congrArg _ (funext fun n' => ih))

theorem epTaskQueueRunKeep_covers (H : Covers e call call') :
    Prod.map id e <$> epTaskQueueRunKeep q call fuel (s, w) =
      epTaskQueueRunKeep q call' fuel (s, e w) := by
  simp only [epTaskQueueRunKeep, map_bind, runKeepLoop_covers H]

end

namespace EpLoop
variable {fuel : Nat} {api : PollApi P O K} {env : Env P K}
variable {st : EpLoop (P × List (PollEvent O)) O K}

theorem exec_recorded (a : EpAction) :
    erase <$> a.exec fuel api.recorded (env.recorded O) st = a.exec fuel api env st.erase := by
  cases a with
  | add | mod | del =>
    simp only [EpAction.exec, epAdd, epMod, epDel, PollApi.recorded, map_bind, bind_assoc, pure_bind]
    rfl
  | settimeout | setinterval =>
    simp only [EpAction.exec, epSettimeout, epSetinterval, map_bind, bind_assoc, pure_bind]
    rfl
  | cleartimeout | clearinterval | cleartask =>
    simp only [EpAction.exec, epCleartimeout, epClearinterval, epCleartask, map_bind]
    rfl
  | nexttick | everytick =>
    simp only [EpAction.exec, epNexttick, epEverytick, map_bind, bind_assoc, pure_bind]
    rfl

theorem execActions_recorded {as : List EpAction} :
    erase <$> execActions fuel api.recorded (env.recorded O) st as =
      execActions fuel api env st.erase as := by
  induction as generalizing st with
  | nil => rfl
  | cons a as ih =>
    unfold execActions
    rw [map_bind, ← exec_recorded, bind_map_left]
    exact congrArg _ (funext fun st => ih)

theorem runCallback_recorded (c : EpCall) :
    erase <$> runCallback fuel api.recorded (env.recorded O) st c =
      runCallback fuel api env st.erase c := execActions_recorded

theorem taskCall_recorded (q : Tick) :
    Covers erase (taskCall fuel api.recorded (env.recorded O) q) (taskCall fuel api env q) := by
  intro c s w
  unfold taskCall
  rw [map_bind, show { w.erase with tasks := s } = erase { w with tasks := s } from rfl,
    ← runCallback_recorded, bind_map_left]
  rfl

theorem timerCall_recorded :
    Covers erase (timerCall fuel api.recorded (env.recorded O)) (timerCall fuel api env) := by
  intro c s w
  unfold timerCall
  rw [map_bind, show { w.erase with timer := s } = erase { w with timer := s } from rfl,
    ← runCallback_recorded, bind_map_left]
  rfl

theorem epRunNexttick_recorded :
    erase <$> epRunNexttick fuel api.recorded (env.recorded O) st =
      epRunNexttick fuel api env st.erase := by
  unfold epRunNexttick
  rw [map_bind, show st.erase.tasks = st.tasks from rfl,
    ← epTaskQueueRun_covers (taskCall_recorded .nexttick), bind_map_left]
  rfl

theorem epRunEverytick_recorded :
    erase <$> epRunEverytick fuel api.recorded (env.recorded O) st =
      epRunEverytick fuel api env st.erase := by
  unfold epRunEverytick
  rw [map_bind, show st.erase.tasks = st.tasks from rfl,
    ← epTaskQueueRunKeep_covers (taskCall_recorded .everytick), bind_map_left]
  rfl

theorem epExecuteTimers_recorded :
    erase <$> epExecuteTimers fuel api.recorded (env.recorded O) st =
      epExecuteTimers fuel api env st.erase := by
  set world := (env.gettimeofday st.world).2 with hworld
  set tv := (env.gettimeofday st.world).1 with htv
  show erase <$> (epTimerExecuteNow fuel (timerCall fuel api.recorded (env.recorded O))
      (st.timer, { st with world }) tv 128 >>= fun r => pure { r.2 with timer := r.1 }) =
    epTimerExecuteNow fuel (timerCall fuel api env) (st.timer, erase { st with world }) tv 128 >>=
      fun r => pure { r.2 with timer := r.1 }
  rw [map_bind, ← epTimerExecuteNow_covers timerCall_recorded, bind_map_left]
  rfl

theorem epWait_recorded (waittime : Int32) :
    Prod.map id erase <$> epWait api.recorded (env.recorded O) st waittime =
      epWait api env st.erase waittime := by
  simp only [epWait, PollApi.recorded, map_bind, bind_assoc, pure_bind]
  rfl

theorem epTurn_recorded (waittime : Int32) :
    Prod.map id erase <$> epTurn fuel api.recorded (env.recorded O) st waittime =
      epTurn fuel api env st.erase waittime := by
  simp only [epTurn, epBeforeWait, bind_assoc, map_bind, epWait_recorded]
  rw [← epRunNexttick_recorded, bind_map_left]
  refine congrArg _ (funext fun st => ?_)
  rw [← epRunEverytick_recorded, bind_map_left]
  refine congrArg _ (funext fun st => ?_)
  rw [← epExecuteTimers_recorded, bind_map_left]

theorem epFetch_recorded (out : Out) :
    Prod.map id (Prod.map id erase) <$> epFetch api.recorded st out = epFetch api st.erase out := by
  simp only [epFetch, PollApi.recorded, map_bind, bind_assoc, pure_bind]
  rfl

theorem epIterate_recorded (waittime : Int32) (out : Out) :
    Prod.map id (Prod.map id erase) <$>
        epIterate fuel api.recorded (env.recorded O) st waittime out =
      epIterate fuel api env st.erase waittime out := by
  unfold epIterate
  rw [map_bind, ← epFetch_recorded, bind_map_left]
  refine congrArg _ (funext fun r => ?_)
  obtain ⟨ret, out₁, st₁⟩ := r
  dsimp only [Prod.map_apply, id_eq]
  split
  · rw [map_bind, ← epTurn_recorded, bind_map_left]
    refine congrArg _ (funext fun r => ?_)
    obtain ⟨m, st₂⟩ := r
    dsimp only [Prod.map_apply, id_eq]
    split
    · rw [map_bind, ← epFetch_recorded, bind_map_left]
      rfl
    · rfl
  · rfl

theorem loopCall_recorded (c : LoopCall K) :
    erase <$> c.exec fuel api.recorded (env.recorded O) st = c.exec fuel api env st.erase := by
  cases c with
  | iterate waittime out =>
    simp only [LoopCall.exec, map_bind]
    rw [← epIterate_recorded, bind_map_left]
    rfl
  | forEachStart waittime =>
    simp only [LoopCall.exec, epForEachStart, map_bind]
    rw [← epTurn_recorded, bind_map_left]
    rfl
  | fetch out =>
    simp only [LoopCall.exec, map_bind]
    rw [← epFetch_recorded, bind_map_left]
    rfl
  | action a => exact exec_recorded a
  | other f => rfl

/-- The run on the recorded engine is the run on the engine. -/
theorem loopRun_recorded {cs : List (LoopCall K)} :
    erase <$> loopRun fuel api.recorded (env.recorded O) st cs = loopRun fuel api env st.erase cs := by
  induction cs generalizing st with
  | nil => rfl
  | cons c cs ih =>
    unfold loopRun
    rw [map_bind, ← loopCall_recorded, bind_map_left]
    exact congrArg _ (funext fun st => ih)

/-- So every run has a record. -/
theorem exists_record {st st' : EpLoop P O K} {cs : List (LoopCall K)} (tr : List (PollEvent O))
    (h : loopRun fuel api env st cs = .ok st') :
    ∃ tr', loopRun fuel api.recorded (env.recorded O) (st.record tr) cs = .ok (st'.record tr') := by
  have hrec := @loopRun_recorded P O K fuel api env (st.record tr) cs
  rw [erase_record, h] at hrec
  cases hrun : loopRun fuel api.recorded (env.recorded O) (st.record tr) cs with
  | error e =>
    rw [hrun] at hrec
    cases hrec
  | ok st'' =>
    rw [hrun] at hrec
    cases hrec
    exact ⟨st''.ps.2, rfl⟩

end EpLoop

end Libep
