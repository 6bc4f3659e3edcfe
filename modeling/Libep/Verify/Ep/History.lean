import Libep.Verify.Ep.Record

/-!
# The history of a run

What a run of the loop does beside its result: the calls of the interface that the program and its callbacks make, each
with the time that the clock shows and the block that it hands out, and the turns, each with the callbacks that it
calls. The statements of a turn are followed with notes of the callbacks in the world, and the notes change nothing.
`loopRun_history` is the rule of the runs: what each call does to the state and to the history, and so the whole run.
-/

namespace Libep
open Relation (ReflTransGen)

/-! ### Calls with notes -/

section
variable {S C W T : Type}

/-- A call, with a note of it in the world. -/
def noted (note : C → S × W → S × W → T) (call : C → S × W → Res (S × W)) (c : C)
    (s : S × W × List T) : Res (S × W × List T) := do
  let s' ← call c (s.1, s.2.1)
  return (s'.1, s'.2, s.2.2 ++ [note c (s.1, s.2.1) s'])

/-- The notes change nothing. -/
theorem noted_covers {note : C → S × W → S × W → T} {call : C → S × W → Res (S × W)} :
    Covers Prod.fst (noted note call) call := by
  rintro c s ⟨w, notes⟩
  unfold noted
  cases call c (s, w) <;> rfl

theorem noted_bind {x : Res (S × W × List T)} {y : Res (S × W)} (f : S → W → W)
    (h : Prod.map id Prod.fst <$> x = y) :
    Prod.fst <$> (x >>= fun r => pure (f r.1 r.2.1, r.2.2)) = y >>= fun r => pure (f r.1 r.2) := by
  rw [← h]
  cases x <;> rfl

theorem exists_of_map_fst {x : Res (W × T)} {w : W} (h : Prod.fst <$> x = .ok w) :
    ∃ n, x = .ok (w, n) := by
  cases x with
  | error e => cases h
  | ok r =>
    cases h
    exact ⟨r.2, rfl⟩

end

/-! ### A turn with notes -/

section
variable {P O K T : Type} (fuel : Nat) (api : PollApi P O K) (env : Env P K)

section
variable (note : EpCall → EpLoop P O K → EpLoop P O K → T)

/-- The note of a task, by the states before and after it. -/
def noteTask (q : Tick) (c : TaskCall) (s s' : Tasks Tick × EpLoop P O K) : T :=
  note (.task q c) { s.2 with tasks := s.1 } { s'.2 with tasks := s'.1 }

/-- The note of a timer. -/
def noteTimer (f : Firing) (s s' : Timer × EpLoop P O K) : T :=
  note (.timer f) { s.2 with timer := s.1 } { s'.2 with timer := s'.1 }

/-- `ep_task_queue_run(&state->nexttick)`, with notes. -/
def notedNexttick (w : EpLoop P O K × List T) : Res (EpLoop P O K × List T) := do
  let (tasks, st, notes) ← epTaskQueueRun .nexttick
    (noted (noteTask note .nexttick) (taskCall fuel api env .nexttick)) fuel (w.1.tasks, w)
  return ({ st with tasks }, notes)

/-- `ep_task_queue_run_keep(&state->everytick)`, with notes. -/
def notedEverytick (w : EpLoop P O K × List T) : Res (EpLoop P O K × List T) := do
  let (tasks, st, notes) ← epTaskQueueRunKeep .everytick
    (noted (noteTask note .everytick) (taskCall fuel api env .everytick)) fuel (w.1.tasks, w)
  return ({ st with tasks }, notes)

/-- `ep_timer_execute_now(&state->timer, 128)`, with notes. -/
def notedTimers (w : EpLoop P O K × List T) : Res (EpLoop P O K × List T) := do
  let (tv, world) := env.gettimeofday w.1.world
  let (timer, st, notes) ← epTimerExecuteNow fuel (noted (noteTimer note) (timerCall fuel api env))
    (w.1.timer, { w.1 with world }, w.2) tv 128
  return ({ st with timer }, notes)

variable {fuel api env note} {st st' : EpLoop P O K} {notes : List T}

theorem notedNexttick_fst :
    Prod.fst <$> notedNexttick fuel api env note (st, notes) = epRunNexttick fuel api env st :=
  noted_bind (fun tasks (st : EpLoop P O K) => { st with tasks }) (epTaskQueueRun_covers noted_covers)

theorem notedEverytick_fst :
    Prod.fst <$> notedEverytick fuel api env note (st, notes) = epRunEverytick fuel api env st :=
  noted_bind (fun tasks (st : EpLoop P O K) => { st with tasks }) (epTaskQueueRunKeep_covers noted_covers)

theorem notedTimers_fst :
    Prod.fst <$> notedTimers fuel api env note (st, notes) = epExecuteTimers fuel api env st :=
  noted_bind (fun timer (st : EpLoop P O K) => { st with timer }) (epTimerExecuteNow_covers noted_covers)

theorem exists_notedNexttick (note : EpCall → EpLoop P O K → EpLoop P O K → T) (notes : List T)
    (h : epRunNexttick fuel api env st = .ok st') :
    ∃ notes', notedNexttick fuel api env note (st, notes) = .ok (st', notes') :=
  exists_of_map_fst (notedNexttick_fst.trans h)

theorem exists_notedEverytick (note : EpCall → EpLoop P O K → EpLoop P O K → T) (notes : List T)
    (h : epRunEverytick fuel api env st = .ok st') :
    ∃ notes', notedEverytick fuel api env note (st, notes) = .ok (st', notes') :=
  exists_of_map_fst (notedEverytick_fst.trans h)

theorem exists_notedTimers (note : EpCall → EpLoop P O K → EpLoop P O K → T) (notes : List T)
    (h : epExecuteTimers fuel api env st = .ok st') :
    ∃ notes', notedTimers fuel api env note (st, notes) = .ok (st', notes') :=
  exists_of_map_fst (notedTimers_fst.trans h)

end

/-! ### The calls of the interface -/

/-- A call of the interface in a run: what the clock shows when it is made, and the block that it hands out. -/
structure Act where
  action : EpAction
  clock : Timeval
  made : Option Nat
  deriving DecidableEq

/-- The block that a call hands out. -/
def EpAction.made (st : EpLoop P O K) : EpAction → Option Nat
  | settimeout oom ms cb arg => (epSettimeout fuel env st oom ms cb arg).toOption.bind Prod.fst
  | setinterval oom ms cb arg => (epSetinterval fuel env st oom ms cb arg).toOption.bind Prod.fst
  | nexttick oom cb arg => (epNexttick st oom cb arg).toOption.bind Prod.fst
  | everytick oom cb arg => (epEverytick st oom cb arg).toOption.bind Prod.fst
  | _ => none

def EpAction.act (st : EpLoop P O K) (a : EpAction) : Act :=
  ⟨a, (env.gettimeofday st.world).1, a.made fuel env st⟩

/-- The calls that `execActions` makes. -/
def actsOf : EpLoop P O K → List EpAction → List Act
  | _, [] => []
  | st, a :: as => a.act fuel env st ::
    match a.exec fuel api env st with
    | .ok st => actsOf st as
    | .error _ => []

/-- A callback in a run, with the calls that it makes. -/
structure CallHistory where
  call : EpCall
  acts : List Act
  deriving DecidableEq

/-- The callback `c` that begins in the state `st`. -/
def CallHistory.note (c : EpCall) (st _ : EpLoop P O K) : CallHistory :=
  let (actions, world) := env.callback c st.toEpState
  ⟨c, actsOf fuel api env { st with world, log := st.log ++ [.call c] } actions⟩

/-- A turn: the callbacks of its parts, and what the clock shows when the timers are executed and at the wait. -/
structure TurnHistory where
  nexttick : List CallHistory
  everytick : List CallHistory
  executed : Timeval
  timers : List CallHistory
  waited : Timeval
  deriving DecidableEq

def turnHistory (st : EpLoop P O K) : Res TurnHistory := do
  let w₁ ← notedNexttick fuel api env (CallHistory.note fuel api env) (st, [])
  let w₂ ← notedEverytick fuel api env (CallHistory.note fuel api env) (w₁.1, [])
  let w₃ ← notedTimers fuel api env (CallHistory.note fuel api env) (w₂.1, [])
  return ⟨w₁.2, w₂.2, (env.gettimeofday w₂.1.world).1, w₃.2, (env.gettimeofday w₃.1.world).1⟩

inductive LoopEvent where
  | action (a : Act)
  | turn (u : TurnHistory)
  deriving DecidableEq

/-- The calls of the interface, those of the callbacks included. -/
def LoopEvent.acts : LoopEvent → List Act
  | action a => [a]
  | turn u => (u.nexttick ++ u.everytick ++ u.timers).flatMap CallHistory.acts

def historyActs (h : List LoopEvent) : List Act := h.flatMap LoopEvent.acts

/-- The history of a call of a program. -/
def LoopCall.history (st : EpLoop P O K) : LoopCall K → Res (List LoopEvent)
  | iterate _ out => do
    let (ret, _, st) ← epFetch api st out
    if ret ≤ 0 then return [.turn (← turnHistory fuel api env st)] else return []
  | forEachStart _ => return [.turn (← turnHistory fuel api env st)]
  | action a => return [.action (a.act fuel env st)]
  | _ => return []

/-- The history of a run. -/
def loopHistory : EpLoop P O K → List (LoopCall K) → Res (List LoopEvent)
  | _, [] => return []
  | st, c :: cs => do
    let h ← c.history fuel api env st
    return h ++ (← loopHistory (← c.exec fuel api env st) cs)

/-! ### What a call does to the history -/

variable {fuel api env} {st st' : EpLoop P O K}

/-- The parts of a turn that has a result, with their notes. -/
theorem epTurn_history {waittime : Int32} {ret : Int} (h : epTurn fuel api env st waittime = .ok (ret, st')) :
    ∃ u st₁ st₂ st₃, turnHistory fuel api env st = .ok u ∧
      notedNexttick fuel api env (CallHistory.note fuel api env) (st, []) = .ok (st₁, u.nexttick) ∧
      notedEverytick fuel api env (CallHistory.note fuel api env) (st₁, []) = .ok (st₂, u.everytick) ∧
      notedTimers fuel api env (CallHistory.note fuel api env) (st₂, []) = .ok (st₃, u.timers) ∧
      u.executed = (env.gettimeofday st₂.world).1 ∧ u.waited = (env.gettimeofday st₃.world).1 ∧
      epWait api env st₃ waittime = .ok (ret, st') := by
  obtain ⟨st₁, st₂, st₃, h₁, h₂, h₃, hwait⟩ := epTurn_ok h
  obtain ⟨notes₁, h₁⟩ := exists_notedNexttick (CallHistory.note fuel api env) [] h₁
  obtain ⟨notes₂, h₂⟩ := exists_notedEverytick (CallHistory.note fuel api env) [] h₂
  obtain ⟨notes₃, h₃⟩ := exists_notedTimers (CallHistory.note fuel api env) [] h₃
  refine ⟨⟨notes₁, notes₂, _, notes₃, _⟩, st₁, st₂, st₃, ?_, h₁, h₂, h₃, rfl, rfl, hwait⟩
  simp only [turnHistory, h₁, h₂, h₃, Res.ok_bind]
  rfl

/-- What a call of a program does: nothing that is seen, a call of the interface, or a turn. -/
inductive Does (fuel : Nat) (api : PollApi P O K) (env : Env P K) (st : EpLoop P O K) :
    List LoopEvent → EpLoop P O K → Prop
  | nothing (ps : P) (world : K) : Does fuel api env st [] { st with ps, world }
  | action {a : EpAction} {st' : EpLoop P O K} : a.exec fuel api env st = .ok st' →
    Does fuel api env st [.action (a.act fuel env st)] st'
  | turn (ps ps' : P) {u : TurnHistory} {waittime : Int32} {ret : Int} {st' : EpLoop P O K} :
    turnHistory fuel api env { st with ps } = .ok u →
    epTurn fuel api env { st with ps } waittime = .ok (ret, st') →
    Does fuel api env st [.turn u] { st' with ps := ps' }

theorem epFetch_ps {out out' : Out} {ret : Int} (h : epFetch api st out = .ok (ret, out', st')) :
    ∃ ps, st' = { st with ps } := by
  obtain ⟨_, -, h⟩ := Res.bind_eq_ok.1 h
  cases h
  exact ⟨_, rfl⟩

theorem LoopCall.does {c : LoopCall K} (h : c.exec fuel api env st = .ok st') :
    ∃ es, c.history fuel api env st = .ok es ∧ Does fuel api env st es st' := by
  cases c with
  | iterate waittime out =>
    obtain ⟨⟨ret, out', st₃⟩, hrun, h⟩ := Res.bind_eq_ok.1 h
    cases h
    obtain ⟨⟨n, out₁, st₁⟩, hfetch, hrun⟩ := Res.bind_eq_ok.1 hrun
    obtain ⟨ps, rfl⟩ := epFetch_ps hfetch
    dsimp only at hrun
    split at hrun
    · next hn =>
      obtain ⟨⟨m, st₂⟩, hturn, hrun⟩ := Res.bind_eq_ok.1 hrun
      obtain ⟨u, -, -, -, hu, -⟩ := epTurn_history hturn
      have hhist : LoopCall.history fuel api env st (.iterate waittime out) = .ok [.turn u] := by
        simp only [history, hfetch, Res.ok_bind, if_pos hn, hu]
        rfl
      dsimp only at hrun
      split at hrun
      · obtain ⟨⟨n', out₂, st₄⟩, hfetch', hrun⟩ := Res.bind_eq_ok.1 hrun
        cases hrun
        obtain ⟨ps', rfl⟩ := epFetch_ps hfetch'
        exact ⟨_, hhist, .turn ps ps' hu hturn⟩
      · cases hrun
        exact ⟨_, hhist, .turn ps st₃.ps hu hturn⟩
    · next hn =>
      cases hrun
      refine ⟨[], ?_, .nothing ps st.world⟩
      simp only [history, hfetch, Res.ok_bind, if_neg hn]
      rfl
  | forEachStart waittime =>
    obtain ⟨⟨ret, st₁⟩, hturn, h⟩ := Res.bind_eq_ok.1 h
    cases h
    obtain ⟨u, -, -, -, hu, -⟩ := epTurn_history hturn
    refine ⟨[.turn u], ?_, .turn st.ps st₁.ps hu hturn⟩
    simp only [history, hu, Res.ok_bind]
    rfl
  | fetch out =>
    obtain ⟨_, hrun, h⟩ := Res.bind_eq_ok.1 h
    cases h
    obtain ⟨ps, hst⟩ := epFetch_ps hrun
    exact ⟨[], rfl, hst ▸ .nothing ps st.world⟩
  | action a => exact ⟨_, rfl, .action h⟩
  | other f =>
    cases h
    exact ⟨[], rfl, .nothing st.ps (f st.world)⟩

/-- The rule of the runs: what holds of every call, and of the calls one after the other, holds of a run. -/
theorem loopRun_history {R : EpLoop P O K → List LoopEvent → EpLoop P O K → Prop} (refl : ∀ st, R st [] st)
    (step : ∀ {st es st₁ es' st'}, Does fuel api env st es st₁ → R st₁ es' st' → R st (es ++ es') st')
    {cs : List (LoopCall K)} (h : loopRun fuel api env st cs = .ok st') :
    ∃ es, loopHistory fuel api env st cs = .ok es ∧ R st es st' := by
  induction cs generalizing st with
  | nil =>
    cases h
    exact ⟨[], rfl, refl _⟩
  | cons c cs ih =>
    obtain ⟨st₁, hc, h⟩ := Res.bind_eq_ok.1 h
    obtain ⟨es, hes, hdoes⟩ := LoopCall.does hc
    obtain ⟨es', hes', hR⟩ := ih h
    refine ⟨es ++ es', ?_, step hdoes hR⟩
    simp only [loopHistory, hes, hc, hes', Res.ok_bind]
    rfl

/-! ### What the notes say -/

/-- The note of a callback that was called. -/
theorem taskCall_noted {q : Tick} {c : TaskCall} {s s' : Tasks Tick} {w w' : EpLoop P O K × List CallHistory}
    (h : noted (noteTask (CallHistory.note fuel api env) q) (taskCall fuel api env q) c (s, w) = .ok (s', w')) :
    ∃ st', runCallback fuel api env { w.1 with tasks := s } (.task q c) = .ok st' ∧ s' = st'.tasks ∧
      w' = (st', w.2 ++ [CallHistory.note fuel api env (.task q c) { w.1 with tasks := s } st']) := by
  obtain ⟨⟨s₁, st₁⟩, hcall, h⟩ := Res.bind_eq_ok.1 h
  cases h
  obtain ⟨st', hrun, h⟩ := Res.bind_eq_ok.1 hcall
  cases h
  exact ⟨_, hrun, rfl, rfl⟩

theorem timerCall_noted {f : Firing} {t t' : Timer} {w w' : EpLoop P O K × List CallHistory}
    (h : noted (noteTimer (CallHistory.note fuel api env)) (timerCall fuel api env) f (t, w) = .ok (t', w')) :
    ∃ st', runCallback fuel api env { w.1 with timer := t } (.timer f) = .ok st' ∧ t' = st'.timer ∧
      w' = (st', w.2 ++ [CallHistory.note fuel api env (.timer f) { w.1 with timer := t } st']) := by
  obtain ⟨⟨t₁, st₁⟩, hcall, h⟩ := Res.bind_eq_ok.1 h
  cases h
  obtain ⟨st', hrun, h⟩ := Res.bind_eq_ok.1 hcall
  cases h
  exact ⟨_, hrun, rfl, rfl⟩

end

end Libep
