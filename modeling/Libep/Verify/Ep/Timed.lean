import Libep.Verify.Ep.Safe
import Libep.Verify.Timer.Ledger

/-!
# The timers of a loop

For its timers, a run of the loop is a run of the timer alone, which its history tells: a callback is the calls of the
timer that it makes, and a turn is one execution, with limit 128 and at a time that the clock showed. So what holds of
every run of a timer holds of the timers of every loop.
-/

namespace Libep
open Filter
open Relation (ReflTransGen)

theorem execOps_singleton {fuel : Nat} {t : Timer} (op : TimerOp) :
    execOps fuel t [op] = op.exec fuel t := bind_pure _

theorem execOps_append {fuel : Nat} {t t' : Timer} {ops ops' : List TimerOp}
    (h : execOps fuel t ops = .ok t') : execOps fuel t (ops ++ ops') = execOps fuel t' ops' := by
  induction ops generalizing t with
  | nil =>
    cases h
    rfl
  | cons op ops ih =>
    obtain ⟨t₁, h₁, h⟩ := Res.bind_eq_ok.1 h
    rw [List.cons_append, execOps, h₁]
    exact ih h

theorem execSteps_cons {fuel : Nat} {t t' t'' : Timer} {s : TimerStep} {steps : List TimerStep}
    {log log' : TimerLog} (h : s.exec fuel t = .ok (t', log))
    (h' : execSteps fuel t' steps = .ok (t'', log')) :
    execSteps fuel t (s :: steps) = .ok (t'', log ++ log') := by
  rw [execSteps, h, Res.ok_bind]
  dsimp only
  rw [h']
  rfl

theorem execSteps_append {fuel : Nat} {t t' t'' : Timer} {steps steps' : List TimerStep}
    {log log' : TimerLog} (h : execSteps fuel t steps = .ok (t', log))
    (h' : execSteps fuel t' steps' = .ok (t'', log')) :
    execSteps fuel t (steps ++ steps') = .ok (t'', log ++ log') := by
  induction steps generalizing t log with
  | nil =>
    cases h
    exact h'
  | cons s steps ih =>
    obtain ⟨⟨t₁, log₁⟩, h₁, h⟩ := Res.bind_eq_ok.1 h
    obtain ⟨⟨t₂, log₂⟩, h₂, h⟩ := Res.bind_eq_ok.1 h
    cases h
    rw [List.append_assoc]
    exact execSteps_cons h₁ (ih h₂)

theorem execSteps_calls {fuel : Nat} {t t' : Timer} {ops : List TimerOp} (h : execOps fuel t ops = .ok t') :
    execSteps fuel t (ops.map .call) = .ok (t', []) := by
  induction ops generalizing t with
  | nil =>
    cases h
    rfl
  | cons op ops ih =>
    obtain ⟨t₁, h₁, h⟩ := Res.bind_eq_ok.1 h
    have hstep : (TimerStep.call op).exec fuel t = .ok (t₁, []) := by
      rw [TimerStep.exec, h₁]
      rfl
    exact execSteps_cons hstep (ih h)

/-! ### The clock of the timer, and the next block -/

section
variable {fuel : Nat} {t t' : Timer} {a : Nat}

theorem timerInsert_keeps (h : timerInsert fuel t a = .ok t') : t'.now = t.now ∧ t'.brk = t.brk := by
  obtain ⟨sl, -, h⟩ := Res.bind_eq_ok.1 h
  cases h
  exact ⟨rfl, rfl⟩

theorem epTimerNodeDestroy_keeps (h : epTimerNodeDestroy t a = .ok t') : t'.now = t.now ∧ t'.brk = t.brk := by
  unfold epTimerNodeDestroy at h
  split at h
  · cases h
    exact ⟨rfl, rfl⟩
  · cases h

theorem epTimerClear_keeps (h : epTimerClear fuel t a = .ok t') : t'.now = t.now ∧ t'.brk = t.brk := by
  unfold epTimerClear at h
  split at h
  · obtain ⟨sl, -, h⟩ := Res.bind_eq_ok.1 h
    exact @epTimerNodeDestroy_keeps { t with sl } t' a h
  · cases h

theorem rearmOrDestroy_keeps (h : rearmOrDestroy fuel t a = .ok t') : t'.now = t.now ∧ t'.brk = t.brk := by
  obtain ⟨ms, -, h⟩ := Res.bind_eq_ok.1 h
  split at h
  · obtain ⟨score, -, h⟩ := Res.bind_eq_ok.1 h
    exact @timerInsert_keeps fuel { t with sl := t.sl.setScore a (score + ms) } t' a h
  · exact epTimerNodeDestroy_keeps h

/-- A timer that is started has the next block. -/
theorem timerRun_made {period ms : UInt64} {cb arg : Nat} {ret : Option Nat}
    (h : timerRun fuel t false period ms cb arg = .ok (ret, t')) :
    ret = some t.brk ∧ t'.now = t.now ∧ t'.brk = t.brk + 1 := by
  obtain ⟨t₁, h₁, h⟩ := Res.bind_eq_ok.1 h
  cases h
  obtain ⟨hnow, hbrk⟩ := timerInsert_keeps h₁
  exact ⟨rfl, hnow, hbrk⟩

theorem TimerOp.exec_births {op : TimerOp} (h : op.exec fuel t = .ok t') :
    t'.now = op.nowAfter t.now ∧ t'.brk = t.brk + (op.births t.now t.brk).length := by
  cases op with
  | updatetime tv =>
    cases h
    exact ⟨rfl, rfl⟩
  | clear id => exact epTimerClear_keeps h
  | runAfter oom ms cb arg | runEvery oom ms cb arg =>
    obtain ⟨⟨ret, t₁⟩, h₁, h⟩ := Res.bind_eq_ok.1 h
    cases h
    cases oom with
    | true =>
      cases h₁
      exact ⟨rfl, rfl⟩
    | false =>
      obtain ⟨-, hnow, hbrk⟩ := timerRun_made h₁
      exact ⟨hnow, hbrk⟩

theorem execOps_births {ops : List TimerOp} (h : execOps fuel t ops = .ok t') :
    t'.now = nowAfter t.now ops ∧ t'.brk = t.brk + (births t.now t.brk ops).length := by
  induction ops generalizing t with
  | nil =>
    cases h
    exact ⟨rfl, rfl⟩
  | cons op ops ih =>
    obtain ⟨t₁, h₁, h⟩ := Res.bind_eq_ok.1 h
    obtain ⟨hnow₁, hbrk₁⟩ := TimerOp.exec_births h₁
    obtain ⟨hnow, hbrk⟩ := ih h
    rw [hnow₁, hbrk₁] at hbrk
    rw [hnow₁] at hnow
    refine ⟨hnow, ?_⟩
    rw [hbrk, births, List.length_append, Nat.add_assoc]

theorem births_append {ops ops' : List TimerOp} {now : UInt64} {brk : Nat} :
    births now brk (ops ++ ops') = births now brk ops ++
      births (nowAfter now ops) (brk + (births now brk ops).length) ops' := by
  induction ops generalizing now brk with
  | nil => rfl
  | cons op ops ih =>
    simp only [List.cons_append, births, ih, List.append_assoc, List.length_append, Nat.add_assoc]
    rfl

end

/-! ### The timer in a history -/

/-- The calls of the timer that an action makes, when the clock shows `tv`. -/
def EpAction.timerOps (tv : Timeval) : EpAction → List TimerOp
  | .settimeout oom ms cb arg => [.updatetime tv, .runAfter oom ms cb arg]
  | .setinterval oom ms cb arg => [.updatetime tv, .runEvery oom ms cb arg]
  | .cleartimeout id | .clearinterval id => [.clear id]
  | _ => []

namespace Act

def timerOps (x : Act) : List TimerOp := x.action.timerOps x.clock

/-- The timer that a call starts. -/
def birth (x : Act) : Option Birth :=
  match x.action, x.made with
  | .settimeout _ ms _ _, some id => some ⟨id, x.clock.ms, ms, 0⟩
  | .setinterval _ ms _ _, some id => some ⟨id, x.clock.ms, ms, ms⟩
  | _, _ => none

/-- The call clears the timer `id`. -/
def Clears (x : Act) (id : Nat) : Prop := x.action = .cleartimeout id ∨ x.action = .clearinterval id

end Act

namespace CallHistory

def timerOps (c : CallHistory) : List TimerOp := c.acts.flatMap Act.timerOps

def firing (c : CallHistory) : Option Firing :=
  match c.call with
  | .timer f => some f
  | .task _ _ => none

end CallHistory

/-- What the `k`-th callback does. -/
def scriptOf (cs : List CallHistory) (k : Nat) : List TimerOp := (cs[k]?.map CallHistory.timerOps).getD []

/-- The steps of the timer in a turn. -/
def TurnHistory.timerSteps (u : TurnHistory) : List TimerStep :=
  ((u.nexttick ++ u.everytick).flatMap CallHistory.timerOps).map .call ++
    [.call (.updatetime u.executed), .execute u.executed.ms 128 (scriptOf u.timers), .call (.updatetime u.waited)]

/-- The execution of a turn: its time, and the timers that it called. -/
def TurnHistory.execution (u : TurnHistory) : UInt64 × List Firing :=
  (u.executed.ms, u.timers.filterMap CallHistory.firing)

def LoopEvent.timerSteps : LoopEvent → List TimerStep
  | action x => x.timerOps.map .call
  | turn u => u.timerSteps

def LoopEvent.executions : LoopEvent → TimerLog
  | action _ => []
  | turn u => [u.execution]

/-- The steps of the timer in a run. -/
def timerSteps (h : List LoopEvent) : List TimerStep := h.flatMap LoopEvent.timerSteps

/-- The executions of a run: the time of each, and the timers that it called. -/
def executions (h : List LoopEvent) : TimerLog := h.flatMap LoopEvent.executions

/-- The timers that are started in a run. -/
def historyBirths (h : List LoopEvent) : List Birth := (historyActs h).filterMap Act.birth

theorem calls_scriptOf (cs : List CallHistory) :
    calls (scriptOf cs) 0 cs.length = cs.flatMap CallHistory.timerOps := by
  suffices ∀ pre, calls (scriptOf (pre ++ cs)) pre.length cs.length = cs.flatMap CallHistory.timerOps from this []
  intro pre
  induction cs generalizing pre with
  | nil => rfl
  | cons c cs ih =>
    have := ih (pre ++ [c])
    rw [List.append_assoc, List.length_append] at this
    rw [List.length_cons, calls, List.flatMap_cons]
    refine congrArg₂ _ ?_ this
    simp [scriptOf]

/-! ### Callbacks -/

section
variable {P O K : Type} {env : Env P K} {fuel : Nat} {t t' t'' : Timer} {xs xs' : List Act}

/-- A time that is set is one that the clock showed. -/
def TimerOp.Clocked (env : Env P K) : TimerOp → Prop
  | .updatetime tv => ∃ k, tv = (env.gettimeofday k).1
  | _ => True

/-- The calls `xs` take the timer from `t` to `t'`, and start the timers that they say. -/
structure Works (fuel : Nat) (env : Env P K) (t : Timer) (xs : List Act) (t' : Timer) : Prop where
  run : execOps fuel t (xs.flatMap Act.timerOps) = .ok t'
  births : xs.filterMap Act.birth = births t.now t.brk (xs.flatMap Act.timerOps)
  clocked : ∀ op ∈ xs.flatMap Act.timerOps, op.Clocked env

namespace Works

theorem refl (t : Timer) : Works fuel env t [] t := ⟨rfl, rfl, nofun⟩

theorem trans (H : Works fuel env t xs t') (H' : Works fuel env t' xs' t'') : Works fuel env t (xs ++ xs') t'' where
  run := by rw [List.flatMap_append, execOps_append H.run, H'.run]
  births := by
    obtain ⟨hnow, hbrk⟩ := execOps_births H.run
    rw [List.filterMap_append, List.flatMap_append, births_append, H.births, H'.births, hnow, hbrk]
  clocked op hop := by
    rw [List.flatMap_append] at hop
    exact (List.mem_append.1 hop).elim (H.clocked op) (H'.clocked op)

/-- A call that leaves the timer alone. -/
theorem of_not_timer {x : Act} (hops : x.timerOps = []) (hbirth : x.birth = none) : Works fuel env t [x] t := by
  refine ⟨?_, ?_, ?_⟩
  · rw [List.flatMap_singleton, hops]
    rfl
  · rw [List.flatMap_singleton, hops, List.filterMap_cons_none hbirth]
    rfl
  · rw [List.flatMap_singleton, hops]
    exact nofun

/-- A call that starts a timer, if there is memory for it. -/
theorem of_started {x : Act} {op : TimerOp} {oom : Bool} {period ms : UInt64} {cb arg k}
    (hrun : timerRun fuel (epTimerUpdatetime t x.clock) oom period ms cb arg = .ok (x.made, t'))
    (hops : x.timerOps = [.updatetime x.clock, op])
    (hexec : ∀ t, op.exec fuel t = timerRun fuel t oom period ms cb arg >>= fun r => pure r.2)
    (hbirth : x.birth = x.made.map (⟨·, x.clock.ms, ms, period⟩))
    (hbirths : ∀ now brk, op.births now brk = if oom then [] else [⟨brk, now, ms, period⟩])
    (hclock : x.clock = (env.gettimeofday k).1) (hop : op.Clocked env) : Works fuel env t [x] t' := by
  refine ⟨?_, ?_, ?_⟩
  · rw [List.flatMap_singleton, hops, execOps, TimerOp.exec]
    refine (execOps_singleton op).trans ?_
    rw [hexec, hrun]
    rfl
  · have hmade : x.made = if oom then none else some t.brk := by
      cases oom with
      | true => exact (congrArg Prod.fst (Except.ok.inj hrun)).symm
      | false => exact (timerRun_made hrun).1
    rw [List.flatMap_singleton, hops, Libep.births, Libep.births, Libep.births, hbirths]
    cases oom <;> simp [hbirth, hmade, TimerOp.births, TimerOp.nowAfter]
  · rw [List.flatMap_singleton, hops]
    simp only [List.mem_cons, List.not_mem_nil, or_false, forall_eq_or_imp, forall_eq]
    exact ⟨⟨_, hclock⟩, hop⟩

/-- A call that clears a timer. -/
theorem of_cleared {x : Act} {id : Nat} (hrun : epTimerClear fuel t id = .ok t') (hops : x.timerOps = [.clear id])
    (hbirth : x.birth = none) : Works fuel env t [x] t' := by
  refine ⟨?_, ?_, ?_⟩
  · rw [List.flatMap_singleton, hops]
    exact (execOps_singleton (.clear id)).trans hrun
  · rw [List.flatMap_singleton, hops, List.filterMap_cons_none hbirth]
    rfl
  · rw [List.flatMap_singleton, hops]
    simp [TimerOp.Clocked]

end Works

section
variable {api : PollApi P O K} {st st' : EpLoop P O K}

theorem EpAction.exec_works {a : EpAction} (h : a.exec fuel api env st = .ok st') :
    Works fuel env st.timer [a.act fuel env st] st'.timer ∧ st'.log = st.log := by
  cases a with
  | add | mod | del =>
    obtain ⟨_, h, hst⟩ := Res.bind_eq_ok.1 h
    obtain ⟨_, -, h⟩ := Res.bind_eq_ok.1 h
    cases h
    cases hst
    exact ⟨.of_not_timer rfl rfl, rfl⟩
  | nexttick | everytick =>
    obtain ⟨_, h, hst⟩ := Res.bind_eq_ok.1 h
    obtain ⟨_, -, h⟩ := Res.bind_eq_ok.1 h
    cases h
    cases hst
    exact ⟨.of_not_timer rfl rfl, rfl⟩
  | cleartask id =>
    obtain ⟨_, -, h⟩ := Res.bind_eq_ok.1 h
    cases h
    exact ⟨.of_not_timer rfl rfl, rfl⟩
  | cleartimeout id | clearinterval id =>
    obtain ⟨t, hrun, h⟩ := Res.bind_eq_ok.1 h
    cases h
    exact ⟨.of_cleared hrun rfl rfl, rfl⟩
  | settimeout oom ms cb arg =>
    obtain ⟨_, hset, hst⟩ := Res.bind_eq_ok.1 h
    obtain ⟨⟨ret, t⟩, hrun, hret⟩ := Res.bind_eq_ok.1 hset
    cases hret
    cases hst
    have hmade : (EpAction.settimeout oom ms cb arg).made fuel env st = ret := by
      rw [EpAction.made, hset]
      rfl
    refine ⟨.of_started (hmade ▸ hrun) rfl (fun _ => rfl) ?_ (fun _ _ => by cases oom <;> rfl) rfl trivial, rfl⟩
    rw [Act.birth, EpAction.act, hmade]
    cases ret <;> rfl
  | setinterval oom ms cb arg =>
    obtain ⟨_, hset, hst⟩ := Res.bind_eq_ok.1 h
    obtain ⟨⟨ret, t⟩, hrun, hret⟩ := Res.bind_eq_ok.1 hset
    cases hret
    cases hst
    have hmade : (EpAction.setinterval oom ms cb arg).made fuel env st = ret := by
      rw [EpAction.made, hset]
      rfl
    refine ⟨.of_started (hmade ▸ hrun) rfl (fun _ => rfl) ?_ (fun _ _ => by cases oom <;> rfl) rfl trivial, rfl⟩
    rw [Act.birth, EpAction.act, hmade]
    cases ret <;> rfl

theorem execActions_works {as : List EpAction} (h : execActions fuel api env st as = .ok st') :
    Works fuel env st.timer (actsOf fuel api env st as) st'.timer ∧ st'.log = st.log := by
  induction as generalizing st with
  | nil =>
    cases h
    exact ⟨.refl _, rfl⟩
  | cons a as ih =>
    obtain ⟨st₁, ha, h⟩ := Res.bind_eq_ok.1 h
    obtain ⟨H₁, hlog₁⟩ := a.exec_works ha
    obtain ⟨H, hlog⟩ := ih h
    rw [actsOf, ha]
    exact ⟨H₁.trans H, hlog.trans hlog₁⟩

theorem runCallback_works {c : EpCall} (h : runCallback fuel api env st c = .ok st') (st'' : EpLoop P O K) :
    Works fuel env st.timer (CallHistory.note fuel api env c st st'').acts st'.timer ∧
      st'.log = st.log ++ [.call c] :=
  @execActions_works _ _ _ env fuel api
    { st with world := (env.callback c st.toEpState).2, log := st.log ++ [.call c] } st' _ h

/-! ### The passes -/

/-- What a pass over a task queue does to the timer. -/
structure Passes (fuel : Nat) (env : Env P K) (q : Tick) (st st' : EpLoop P O K) (cs : List CallHistory) : Prop where
  works : Works fuel env st.timer (cs.flatMap CallHistory.acts) st'.timer
  tasks : ∀ c ∈ cs, ∃ t, c.call = .task q t
  log : st'.log = st.log ++ cs.map fun c => .call c.call

theorem passes_of_called {q : Tick} {w w' : EpLoop P O K × List CallHistory}
    (h : ReflTransGen (CallStep (noted (noteTask (CallHistory.note fuel api env) q) (taskCall fuel api env q))) w w') :
    ∃ cs, w'.2 = w.2 ++ cs ∧ Passes fuel env q w.1 w'.1 cs := by
  induction h with
  | refl => exact ⟨[], (List.append_nil _).symm, .refl _, nofun, (List.append_nil _).symm⟩
  | tail _ h ih =>
    obtain ⟨cs, hnotes, H⟩ := ih
    obtain ⟨c, s, s', h⟩ := h
    obtain ⟨st₁, hrun, rfl, rfl⟩ := taskCall_noted h
    obtain ⟨Hc, hlog⟩ := runCallback_works hrun st₁
    refine ⟨cs ++ [_], by rw [hnotes, List.append_assoc], ?_, fun c' hc' => ?_, ?_⟩
    · rw [List.flatMap_append, List.flatMap_singleton]
      exact H.works.trans Hc
    · rcases List.mem_append.1 hc' with hc' | hc'
      · exact H.tasks c' hc'
      · exact ⟨c, by rw [List.mem_singleton.1 hc']; rfl⟩
    · rw [hlog, H.log, List.append_assoc, List.map_append]
      rfl

theorem notedNexttick_passes {cs : List CallHistory}
    (h : notedNexttick fuel api env (CallHistory.note fuel api env) (st, []) = .ok (st', cs)) :
    Passes fuel env .nexttick st st' cs := by
  obtain ⟨⟨tasks, w⟩, hrun, h⟩ := Res.bind_eq_ok.1 h
  cases h
  obtain ⟨cs, hnotes, H⟩ := passes_of_called (epTaskQueueRun_called hrun)
  rw [hnotes]
  exact ⟨H.works, H.tasks, H.log⟩

theorem notedEverytick_passes {cs : List CallHistory}
    (h : notedEverytick fuel api env (CallHistory.note fuel api env) (st, []) = .ok (st', cs)) :
    Passes fuel env .everytick st st' cs := by
  obtain ⟨⟨tasks, w⟩, hrun, h⟩ := Res.bind_eq_ok.1 h
  cases h
  obtain ⟨cs, hnotes, H⟩ := passes_of_called (epTaskQueueRunKeep_called hrun)
  rw [hnotes]
  exact ⟨H.works, H.tasks, H.log⟩

end

/-! ### The execution of the timers -/

/-- The callbacks `cs` of an execution, of which the timer is `t` at the beginning. -/
structure Turns (fuel : Nat) (env : Env P K) (t : Timer) (cs : List CallHistory) : Prop where
  timers : cs.map CallHistory.call = (cs.filterMap CallHistory.firing).map .timer
  births : (cs.flatMap CallHistory.acts).filterMap Act.birth =
    births t.now t.brk (cs.flatMap CallHistory.timerOps)
  clocked : ∀ c ∈ cs, ∀ op ∈ c.timerOps, op.Clocked env

theorem Turns.length_firing {t : Timer} {cs : List CallHistory} (H : Turns fuel env t cs) :
    cs.length = (cs.filterMap CallHistory.firing).length := by
  have := congrArg List.length H.timers
  rwa [List.length_map, List.length_map] at this

section
variable {W : Type} {call : Firing → Timer × W → Res (Timer × W)} {notes : W → List CallHistory} {w w' : W}

/-- What the callbacks do to the timer are calls, of which there are notes. -/
def Scripted (fuel : Nat) (env : Env P K) (call : Firing → Timer × W → Res (Timer × W))
    (notes : W → List CallHistory) : Prop :=
  ∀ f t w t' w', call f (t, w) = .ok (t', w') →
    ∃ xs, Works fuel env t xs t' ∧ notes w' = notes w ++ [⟨.timer f, xs⟩]

theorem executeLoop_scripted (H : Scripted fuel env call notes) {k : Nat} {node n : Option Nat} {m : Int32}
    (h : executeLoop fuel call k (t, w) node n m = .ok (t', w')) :
    ∃ cs, notes w' = notes w ++ cs ∧ Turns fuel env t cs ∧ Alarms.limit m cs.length = cs.length ∧
      ∀ (script : Nat → List TimerOp) (fired : List Firing),
        (∀ i c, cs[i]? = some c → script (fired.length + i) = c.timerOps) →
        executeLoop fuel (callScript fuel script) k (t, fired) node n m =
          .ok (t', fired ++ cs.filterMap CallHistory.firing) := by
  induction k generalizing t w node n m with
  | zero => cases h
  | succ k ih =>
    cases node with
    | none =>
      cases h
      exact ⟨[], by simp, ⟨rfl, rfl, nofun⟩, Alarms.limit_zero, fun _ _ _ => by
        rw [List.filterMap_nil, List.append_nil]
        rfl⟩
    | some a =>
      rw [executeLoop] at h
      obtain ⟨f, hf, h⟩ := Res.bind_eq_ok.1 h
      obtain ⟨⟨t₁, w₁⟩, hcall, h⟩ := Res.bind_eq_ok.1 h
      obtain ⟨t₂, hfinish, h⟩ := Res.bind_eq_ok.1 h
      obtain ⟨xs, Hxs, hnote⟩ := H _ _ _ _ _ hcall
      have hscript : ∀ {script : Nat → List TimerOp} {fired : List Firing},
          script fired.length = CallHistory.timerOps ⟨.timer f, xs⟩ →
          callScript fuel script f (t, fired) = .ok (t₁, fired ++ [f]) := fun hs => by
        rw [callScript, hs, CallHistory.timerOps, Hxs.run]
        rfl
      generalize hleft : (if m ≥ 0 then _ else _ : Int32 × Bool) = left at h
      obtain ⟨m', stop⟩ := left
      cases stop with
      | true =>
        cases h
        refine ⟨[⟨.timer f, xs⟩], hnote, ⟨rfl, ?_, ?_⟩, ?_, fun script fired hs => ?_⟩
        · rw [List.flatMap_singleton, List.flatMap_singleton]
          exact Hxs.births
        · intro c hc
          obtain rfl := List.mem_singleton.1 hc
          exact Hxs.clocked
        · split at hleft
          · next hm =>
            obtain ⟨-, hstop⟩ := Prod.mk.inj hleft
            exact Alarms.limit_succ_of_stop hm (of_decide_eq_true hstop)
          · cases hleft
        rw [executeLoop, hf, Res.ok_bind, hscript (hs 0 _ rfl), Res.ok_bind]
        dsimp only
        rw [hfinish, Res.ok_bind, hleft]
        rfl
      | false =>
        obtain ⟨n', hn, h⟩ := Res.bind_eq_ok.1 h
        obtain ⟨cs, hnotes, Hcs, hlimit, hrun⟩ := ih h
        refine ⟨⟨.timer f, xs⟩ :: cs, ?_, ⟨?_, ?_, ?_⟩, ?_, fun script fired hs => ?_⟩
        · rw [hnotes, hnote, List.append_assoc]
          rfl
        · rw [List.map_cons, Hcs.timers]
          rfl
        · -- neither the clock of the timer nor the next block changes between the callbacks
          obtain ⟨hnow₁, hbrk₁⟩ := execOps_births Hxs.run
          obtain ⟨hnow₂, hbrk₂⟩ := rearmOrDestroy_keeps hfinish
          rw [List.flatMap_cons, List.flatMap_cons, List.filterMap_append, births_append, Hcs.births, hnow₂, hbrk₂,
            hnow₁, hbrk₁]
          exact congrArg (· ++ _) Hxs.births
        · exact List.forall_mem_cons.2 ⟨Hxs.clocked, Hcs.clocked⟩
        · rw [List.length_cons]
          split at hleft
          · next hm =>
            obtain ⟨rfl, hstop⟩ := Prod.mk.inj hleft
            rw [Alarms.limit_succ_of_go hm (of_decide_eq_false hstop), hlimit]
          · next hm =>
            cases hleft
            rw [Alarms.limit_succ_of_neg hm, hlimit]
        · rw [executeLoop, hf, Res.ok_bind, hscript (hs 0 _ rfl), Res.ok_bind]
          dsimp only
          rw [hfinish, Res.ok_bind, hleft]
          have := hrun script (fired ++ [f]) fun i c hc => by
            rw [List.length_append, List.length_singleton, Nat.add_assoc, Nat.add_comm 1]
            exact hs (i + 1) c hc
          rw [List.append_assoc] at this
          rw [show forwardOrNull t₂ n = .ok n' from hn]
          exact this

theorem epTimerExecute_scripted (H : Scripted fuel env call notes) {now : UInt64} {m : Int32}
    (h : epTimerExecute fuel call (t, w) now m = .ok (t', w')) :
    ∃ cs, notes w' = notes w ++ cs ∧ Turns fuel env t cs ∧ Alarms.limit m cs.length = cs.length ∧
      epTimerExecute fuel (callScript fuel (scriptOf cs)) (t, []) now m =
        .ok (t', cs.filterMap CallHistory.firing) := by
  rw [epTimerExecute] at h
  obtain ⟨⟨node, sl⟩, hextract, h⟩ := Res.bind_eq_ok.1 h
  obtain ⟨n, hn, h⟩ := Res.bind_eq_ok.1 h
  obtain ⟨cs, hnotes, Hcs, hlimit, hrun⟩ := executeLoop_scripted H h
  refine ⟨cs, hnotes, ⟨Hcs.timers, Hcs.births, Hcs.clocked⟩, hlimit, ?_⟩
  rw [epTimerExecute, hextract, Res.ok_bind]
  dsimp only at hn ⊢
  rw [hn, Res.ok_bind]
  refine hrun _ [] fun i c hc => ?_
  rw [List.length_nil, Nat.zero_add, scriptOf, hc]
  rfl

end

section
variable {api : PollApi P O K} {st st' : EpLoop P O K} {cs : List CallHistory}

theorem timerCall_scripted :
    Scripted fuel env (noted (noteTimer (CallHistory.note fuel api env)) (timerCall fuel api env))
      (Prod.snd : EpLoop P O K × List CallHistory → List CallHistory) := by
  intro f t w t' w' h
  obtain ⟨st₁, hrun, rfl, rfl⟩ := timerCall_noted h
  exact ⟨_, (runCallback_works hrun st₁).1, rfl⟩

theorem timers_noted {w w' : EpLoop P O K × List CallHistory}
    (h : ReflTransGen (CallStep (noted (noteTimer (CallHistory.note fuel api env)) (timerCall fuel api env))) w w') :
    ∃ cs, w'.2 = w.2 ++ cs ∧ w'.1.log = w.1.log ++ cs.map fun c => .call c.call := by
  induction h with
  | refl => exact ⟨[], (List.append_nil _).symm, (List.append_nil _).symm⟩
  | tail _ h ih =>
    obtain ⟨cs, hnotes, hlog⟩ := ih
    obtain ⟨f, t, t', h⟩ := h
    obtain ⟨st₁, hrun, rfl, rfl⟩ := timerCall_noted h
    refine ⟨cs ++ [_], by rw [hnotes, List.append_assoc], ?_⟩
    rw [(runCallback_works hrun st₁).2, hlog, List.append_assoc, List.map_append]
    rfl

/-- What the execution of a turn does. -/
theorem notedTimers_turns
    (h : notedTimers fuel api env (CallHistory.note fuel api env) (st, []) = .ok (st', cs)) :
    let tv := (env.gettimeofday st.world).1
    Turns fuel env (epTimerUpdatetime st.timer tv) cs ∧ Alarms.limit 128 cs.length = cs.length ∧
      epTimerExecute fuel (callScript fuel (scriptOf cs)) (epTimerUpdatetime st.timer tv, []) tv.ms 128 =
        .ok (st'.timer, cs.filterMap CallHistory.firing) ∧
      st'.log = st.log ++ (cs.filterMap CallHistory.firing).map fun f => .call (.timer f) := by
  obtain ⟨⟨timer, w⟩, hrun, h⟩ := Res.bind_eq_ok.1 h
  cases h
  obtain ⟨cs, hnotes, Hcs, hlimit, hexec⟩ := epTimerExecute_scripted timerCall_scripted hrun
  obtain ⟨cs', hnotes', hlog⟩ := timers_noted (epTimerExecuteNow_called hrun)
  obtain rfl : cs' = cs := List.append_cancel_left (hnotes'.symm.trans hnotes)
  replace hnotes : w.2 = cs' := hnotes
  rw [hnotes]
  refine ⟨Hcs, hlimit, hexec, ?_⟩
  have hcalls := congrArg (List.map (Obs.call (O := O))) Hcs.timers
  rw [List.map_map, List.map_map] at hcalls
  exact hlog.trans (congrArg (st.log ++ ·) hcalls)

end

/-! ### The loop -/

/-- What is seen of the timers: their callbacks, and the waits. -/
def Obs.timed {O : Type} : Obs O → Option (Option Firing)
  | .call (.timer f) => some (some f)
  | .wait _ _ => some none
  | _ => none

def timerTrace {O : Type} (log : List (Obs O)) : List (Option Firing) := log.filterMap Obs.timed

/-- A loop waits after each execution. -/
def executionTrace (log : TimerLog) : List (Option Firing) := log.flatMap fun e => e.2.map some ++ [none]

theorem timerTrace_append {l l' : List (Obs O)} : timerTrace (l ++ l') = timerTrace l ++ timerTrace l' :=
  List.filterMap_append

theorem timerTrace_calls (fired : List Firing) :
    timerTrace (O := O) (fired.map fun f => .call (.timer f)) = fired.map some := by
  simp [timerTrace, Obs.timed, List.filterMap_map, Function.comp_def]

theorem timerTrace_tasks {cs : List CallHistory} {q : Tick} (h : ∀ c ∈ cs, ∃ t, c.call = .task q t) :
    timerTrace (O := O) (cs.map fun c => .call c.call) = [] := by
  refine List.filterMap_eq_nil_iff.2 fun o ho => ?_
  obtain ⟨c, hc, rfl⟩ := List.mem_map.1 ho
  obtain ⟨t, ht⟩ := h c hc
  rw [ht]
  rfl

/-- A step of a timer in a loop. -/
def TimerStep.Clocked (env : Env P K) : TimerStep → Prop
  | .call op => op.Clocked env
  | .execute now m script => m = 128 ∧ (∃ k, now = (env.gettimeofday k).1.ms) ∧
    ∀ i, ∀ op ∈ script i, op.Clocked env

theorem TimerStep.clocked_calls {ops : List TimerOp} (h : ∀ op ∈ ops, TimerOp.Clocked env op) :
    ∀ s ∈ ops.map TimerStep.call, s.Clocked env := fun s hs => by
  obtain ⟨op, hop, rfl⟩ := List.mem_map.1 hs
  exact h op hop

theorem clocked_scriptOf {cs : List CallHistory} (h : ∀ c ∈ cs, ∀ op ∈ c.timerOps, op.Clocked env) (i : Nat) :
    ∀ op ∈ scriptOf cs i, op.Clocked env := by
  unfold scriptOf
  cases hi : cs[i]? with
  | none => exact nofun
  | some c => exact h c (List.mem_of_getElem? hi)

/-- From `st` to `st'` the timer went through the steps of the history, which starts the timers that the steps do, and
of the timers its executions are seen. -/
structure Timed (fuel : Nat) (env : Env P K) (st st' : EpLoop P O K) (h : List LoopEvent) : Prop where
  run : execSteps fuel st.timer (timerSteps h) = .ok (st'.timer, executions h)
  seen : timerTrace st'.log = timerTrace st.log ++ executionTrace (executions h)
  clocked : ∀ s ∈ timerSteps h, s.Clocked env
  births : ∀ A, st.timer.Rep A [] → A.births (timerSteps h) = historyBirths h

namespace Alarms
variable {A A' : Alarms} {steps steps' : List TimerStep} {log : TimerLog}

theorem births_append (h : A.execSteps steps = .ok (A', log)) :
    A.births (steps ++ steps') = A.births steps ++ A'.births steps' := by
  induction steps generalizing A log with
  | nil =>
    cases h
    rfl
  | cons s steps ih =>
    obtain ⟨⟨A₁, log₁⟩, h₁, h⟩ := Res.bind_eq_ok.1 h
    obtain ⟨⟨A₂, log₂⟩, h₂, h⟩ := Res.bind_eq_ok.1 h
    cases h
    simp only [List.cons_append, births, h₁, ih h₂, List.append_assoc]

theorem births_calls {ops : List TimerOp} (H : A.WF) (h : A.execSteps (ops.map .call) = .ok (A', log)) :
    A.births (ops.map .call) = Libep.births A.now A.brk ops := by
  induction ops generalizing A log with
  | nil => rfl
  | cons op ops ih =>
    obtain ⟨⟨A₁, log₁⟩, h₁, h⟩ := Res.bind_eq_ok.1 h
    obtain ⟨⟨A₂, log₂⟩, h₂, h⟩ := Res.bind_eq_ok.1 h
    cases h
    obtain ⟨A₁, hexec, h⟩ := Res.bind_eq_ok.1 h₁
    cases h
    have E := H.effect_exec hexec
    have hbrk : A₁.brk = A.brk + (op.births A.now A.brk).length := by
      rw [E.brk, TimerOp.length_births]
      simp [created]
    rw [List.map_cons, births, h₁]
    dsimp only
    rw [ih E.wf h₂, E.now, hbrk, stepOps, Libep.births, Libep.births, Libep.births, List.append_nil]
    rfl

end Alarms

section
variable {api : PollApi P O K} {st st' st'' : EpLoop P O K} {h h' : List LoopEvent} {xs : List Act}

/-- Calls that start what they say. -/
theorem Works.births_calls {t t' : Timer} (H : Works fuel env t xs t') {A : Alarms} (HA : t.Rep A []) :
    A.births ((xs.flatMap Act.timerOps).map .call) = xs.filterMap Act.birth := by
  obtain ⟨A', hA, -⟩ := HA.execSteps_ok (execSteps_calls H.run)
  rw [Alarms.births_calls HA.wf hA, H.births, HA.now, HA.brk]

namespace Timed

theorem of_same (h : st'.timer = st.timer) (h' : st'.log = st.log) : Timed fuel env st st' [] :=
  ⟨by rw [h]; rfl, by rw [h']; exact (List.append_nil _).symm, nofun, fun _ _ => rfl⟩

theorem trans (H : Timed fuel env st st' h) (H' : Timed fuel env st' st'' h') :
    Timed fuel env st st'' (h ++ h') where
  run := by
    rw [timerSteps, executions, List.flatMap_append, List.flatMap_append]
    exact execSteps_append H.run H'.run
  seen := by
    rw [H'.seen, H.seen, List.append_assoc, executionTrace, executionTrace, executionTrace, executions, executions,
      executions, List.flatMap_append, List.flatMap_append]
  clocked s hs := by
    rw [timerSteps, List.flatMap_append] at hs
    exact (List.mem_append.1 hs).elim (H.clocked s) (H'.clocked s)
  births A HA := by
    obtain ⟨A', hA, HA'⟩ := HA.execSteps_ok H.run
    rw [historyBirths, historyActs, List.flatMap_append, List.filterMap_append, timerSteps, List.flatMap_append]
    exact (Alarms.births_append hA).trans (congrArg₂ _ (H.births A HA) (H'.births A' HA'))

end Timed

theorem EpAction.exec_timed {a : EpAction} (h : a.exec fuel api env st = .ok st') :
    Timed fuel env st st' [.action (a.act fuel env st)] := by
  obtain ⟨H, hlog⟩ := a.exec_works h
  have hops : timerSteps [.action (a.act fuel env st)] = ([a.act fuel env st].flatMap Act.timerOps).map .call := by
    rw [timerSteps, List.flatMap_singleton, List.flatMap_singleton]
    rfl
  refine ⟨?_, by rw [hlog]; exact (List.append_nil _).symm, ?_, fun A HA => ?_⟩
  · rw [hops]
    exact execSteps_calls H.run
  · rw [hops]
    exact TimerStep.clocked_calls H.clocked
  · rw [hops, H.births_calls HA]
    rfl

theorem timerOps_eq (cs : List CallHistory) :
    cs.flatMap CallHistory.timerOps = (cs.flatMap CallHistory.acts).flatMap Act.timerOps :=
  List.flatMap_assoc.symm

/-- The execution of a turn, between the readings of the clock. -/
theorem execSteps_execution {t t' : Timer} {u : TurnHistory}
    (h : epTimerExecute fuel (callScript fuel (scriptOf u.timers)) (epTimerUpdatetime t u.executed, []) u.executed.ms
      128 = .ok (t', u.timers.filterMap CallHistory.firing)) :
    execSteps fuel t [.call (.updatetime u.executed), .execute u.executed.ms 128 (scriptOf u.timers),
      .call (.updatetime u.waited)] = .ok (epTimerUpdatetime t' u.waited, [u.execution]) := by
  have hclock : (TimerStep.call (.updatetime u.executed)).exec fuel t = .ok (epTimerUpdatetime t u.executed, []) := rfl
  have hexec : (TimerStep.execute u.executed.ms 128 (scriptOf u.timers)).exec fuel (epTimerUpdatetime t u.executed) =
      .ok (t', [u.execution]) := by
    rw [TimerStep.exec, h]
    rfl
  have hwait : execSteps fuel t' [.call (.updatetime u.waited)] = .ok (epTimerUpdatetime t' u.waited, []) := rfl
  exact execSteps_cons hclock (execSteps_cons hexec hwait)

/-- The timers that the callbacks of an execution start. -/
theorem Turns.births_execution {t t' : Timer} {u : TurnHistory} {A : Alarms} (HA : t.Rep A [])
    (H : Turns fuel env (epTimerUpdatetime t u.executed) u.timers)
    (h : epTimerExecute fuel (callScript fuel (scriptOf u.timers)) (epTimerUpdatetime t u.executed, []) u.executed.ms
      128 = .ok (t', u.timers.filterMap CallHistory.firing)) :
    A.births [.call (.updatetime u.executed), .execute u.executed.ms 128 (scriptOf u.timers),
      .call (.updatetime u.waited)] = (u.timers.flatMap CallHistory.acts).filterMap Act.birth := by
  have HA₁ := HA.updatetime u.executed
  have hexec : execSteps fuel (epTimerUpdatetime t u.executed)
      [.execute u.executed.ms 128 (scriptOf u.timers)] = .ok (t', [u.execution]) := by
    rw [execSteps, TimerStep.exec, h]
    rfl
  obtain ⟨A', hA, -⟩ := HA₁.execSteps_ok hexec
  obtain ⟨⟨A₂, log₂⟩, h₂, hA⟩ := Res.bind_eq_ok.1 hA
  obtain ⟨A₃, -, hstep⟩ := Res.bind_eq_ok.1 h₂
  cases hstep
  -- as many alarms have their turn as there are callbacks
  have hlog : [(u.executed.ms, (Alarms.batch { A with now := u.executed.ms } u.executed.ms 128).map Alarm.firing)] =
    [u.execution] := congrArg Prod.snd (Except.ok.inj hA)
  obtain ⟨-, hfired⟩ := Prod.mk.inj (List.cons.inj hlog).1
  have hlength := congrArg List.length hfired
  rw [List.length_map, ← H.length_firing] at hlength
  have hclock : A.execStep (.call (.updatetime u.executed)) = .ok ({ A with now := u.executed.ms }, []) := rfl
  have hrest : A₂.births [.call (.updatetime u.waited)] = [] := rfl
  rw [Alarms.births, hclock]
  dsimp only
  rw [Alarms.births, h₂]
  dsimp only
  rw [hrest, List.append_nil, Alarms.stepOps, Alarms.stepOps, hlength, calls_scriptOf, H.births, HA₁.now, HA₁.brk]
  rfl

theorem epTurn_timed {waittime : Int32} {ret : Int} (h : epTurn fuel api env st waittime = .ok (ret, st')) :
    ∃ u, turnHistory fuel api env st = .ok u ∧ Timed fuel env st st' [.turn u] := by
  obtain ⟨u, st₁, st₂, st₃, hu, hnext, hevery, htimers, hexecuted, hwaited, hwait⟩ := epTurn_history h
  have H₁ := notedNexttick_passes hnext
  have H₂ := notedEverytick_passes hevery
  obtain ⟨HT, -, hexec, hlog⟩ := notedTimers_turns htimers
  rw [← hexecuted] at HT hexec
  have HW := H₁.works.trans H₂.works
  rw [← List.flatMap_append] at HW
  obtain ⟨⟨timeout, t'⟩, hwait', h₄⟩ := Res.bind_eq_ok.1 hwait
  obtain rfl : t' = epTimerUpdatetime st₃.timer (env.gettimeofday st₃.world).1 := by
    obtain ⟨diff, -, hwait'⟩ := Res.bind_eq_ok.1 hwait'
    cases hwait'
    rfl
  obtain ⟨⟨o, n, ps, world⟩, -, h₅⟩ := Res.bind_eq_ok.1 h₄
  cases h₅
  rw [← hwaited]
  have hsteps : timerSteps [.turn u] = u.timerSteps := List.flatMap_singleton ..
  rw [TurnHistory.timerSteps, timerOps_eq] at hsteps
  refine ⟨u, hu, ?_, ?_, ?_, fun A HA => ?_⟩
  · have hrun := execSteps_append (execSteps_calls HW.run) (execSteps_execution hexec)
    rw [hsteps]
    exact hrun
  · show timerTrace (st₃.log ++ [.wait timeout o]) = _
    rw [hlog, H₂.log, H₁.log]
    simp only [timerTrace_append, timerTrace_tasks H₁.tasks, timerTrace_tasks H₂.tasks, timerTrace_calls,
      List.append_assoc]
    simp [executions, LoopEvent.executions, executionTrace, TurnHistory.execution, timerTrace, Obs.timed]
  · rw [hsteps]
    intro s hs
    rcases List.mem_append.1 hs with hs | hs
    · exact TimerStep.clocked_calls HW.clocked s hs
    · simp only [List.mem_cons, List.not_mem_nil, or_false] at hs
      rcases hs with rfl | rfl | rfl
      · exact ⟨_, hexecuted⟩
      · exact ⟨rfl, ⟨_, by rw [hexecuted]⟩, clocked_scriptOf HT.clocked⟩
      · exact ⟨_, hwaited⟩
  · obtain ⟨A₂, hA, HA₂⟩ := HA.execSteps_ok (execSteps_calls HW.run)
    rw [hsteps, Alarms.births_append hA, HW.births_calls HA, HT.births_execution HA₂ hexec]
    rw [historyBirths, historyActs, List.flatMap_singleton, LoopEvent.acts]
    simp only [List.flatMap_append, List.filterMap_append]

theorem Does.timed (H : Does fuel api env st h st') : Timed fuel env st st' h := by
  cases H with
  | nothing => exact .of_same rfl rfl
  | action h => exact EpAction.exec_timed h
  | turn ps ps' hu hturn =>
    obtain ⟨u, hu', H⟩ := epTurn_timed hturn
    cases hu.symm.trans hu'
    exact ⟨H.run, H.seen, H.clocked, H.births⟩

theorem loopRun_timed {cs : List (LoopCall K)} (hrun : loopRun fuel api env st cs = .ok st') :
    ∃ h, loopHistory fuel api env st cs = .ok h ∧ Timed fuel env st st' h :=
  loopRun_history (R := fun st h st' => Timed fuel env st st' h) (fun _ => .of_same rfl rfl)
    (fun hdoes H => hdoes.timed.trans H) hrun

end

end

section
variable {P O K : Type} {fuel : Nat} {api : PollApi P O K} {env : Env P K} {st st' : EpLoop P O K}

/-- **For its timers, every run of the loop is a run of the timer**: whatever the callbacks and the program
do from `ep_init` on, the timer is left as by those of its own steps that the history of the run tells, all executions
of which have the limit 128 and a time the clock showed; and the timer callbacks between two waits are those of one
execution, in order. -/
theorem loop_refines_timer {init : P → Int × P} {r r' : EpState P K} {n : Int} {cs : List (LoopCall K)}
    (hinit : epInit init r = .ok (n, r')) (hrun : loopRun fuel api env ⟨r', []⟩ cs = .ok st') :
    ∃ h, loopHistory fuel api env ⟨r', []⟩ cs = .ok h ∧
      execSteps fuel (epTimerInit r.timer) (timerSteps h) = .ok (st'.timer, executions h) ∧
      timerTrace st'.log = executionTrace (executions h) ∧ ∀ s ∈ timerSteps h, s.Clocked env := by
  obtain ⟨h, hhist, H⟩ := loopRun_timed hrun
  rw [← epInit_timer hinit]
  exact ⟨h, hhist, H.run, H.seen, H.clocked⟩

end

/-- A kernel without events, where a wait takes its timeout; the world is the time in milliseconds. -/
def sleepingKernel : EpollKernel Nat where
  epoll_ctl k _ _ _ _ := (0, k)
  epoll_wait k _ _ timeout := (.batch [], k + timeout.toInt.toNat)
  wait_le _ _ _ _ h := absurd h (Int.lt_irrefl 0)

/-- The function 7 starts another timer. -/
def sleepingEnv : Env EpollState Nat where
  gettimeofday k := (⟨k / 1000, k % 1000 * 1000⟩, k)
  callback c st :=
    match c with
    | .timer ⟨_, 7, _⟩ => ([.settimeout false 3 8 0], st.world)
    | _ => ([], st.world)

def rawSleeping : EpState EpollState Nat := { rawLoop [] with world := 0 }

def sleepingCalls : List (LoopCall Nat) :=
  [.action (.settimeout false 5 7 0), .iterate (-1) ⟨none, none⟩, .iterate (-1) ⟨none, none⟩,
    .iterate (-1) ⟨none, none⟩]

theorem loop_refines_timer_sleeping :
    ∃ r' st', epInit (epEpollInit · 3 false) rawSleeping = .ok (0, r') ∧
      loopRun 4 (epollApi sleepingKernel) sleepingEnv ⟨r', []⟩ sleepingCalls = .ok st' ∧
      timerTrace st'.log = [none, some ⟨0, 7, 0⟩, none, some ⟨1, 8, 0⟩, none] ∧
      ∃ h, loopHistory 4 (epollApi sleepingKernel) sleepingEnv ⟨r', []⟩ sleepingCalls = .ok h ∧
        execSteps 4 (epTimerInit rawSleeping.timer) (timerSteps h) = .ok (st'.timer, executions h) ∧
        timerTrace st'.log = executionTrace (executions h) ∧ ∀ s ∈ timerSteps h, s.Clocked sleepingEnv :=
  ⟨_, _, rfl, rfl, rfl, @loop_refines_timer _ _ _ 4 (epollApi sleepingKernel) sleepingEnv _
    (epEpollInit · 3 false) rawSleeping _ _ sleepingCalls rfl rfl⟩

/-! ### What follows for the loop -/

section
variable {P O K : Type} {fuel : Nat} {api : PollApi P O K} {env : Env P K} {st st' : EpLoop P O K}

/-- **No timer callback of a loop is early**, up to the wrap of the clock: a timer that the program or a callback starts
when the clock shows `now`, for `delay` and then every `period` milliseconds, is called for the `k`-th time by an
execution whose time is not before `now + delay + k * period`, exactly if this sum does not pass the largest time there
is. -/
theorem loop_never_early {init : P → Int × P} {r r' : EpState P K} {n : Int} {cs : List (LoopCall K)}
    (hr : r.Fresh) (hinit : epInit init r = .ok (n, r')) (hrun : loopRun fuel api env ⟨r', []⟩ cs = .ok st') :
    ∃ h, loopHistory fuel api env ⟨r', []⟩ cs = .ok h ∧ Timed fuel env ⟨r', []⟩ st' h ∧
      ∀ x ∈ historyActs h, ∀ b ∈ x.birth, ∀ k (hk : k < (firedAt b.id (executions h)).length),
        b.promised k ≤ ((firedAt b.id (executions h))[k]).toNat ↔ b.promised k < 2 ^ 64 := by
  obtain ⟨h, hhist, HT⟩ := loopRun_timed hrun
  have H₀ := hr.rep hinit
  obtain ⟨A', hA, -⟩ := H₀.execSteps_ok HT.run
  refine ⟨h, hhist, HT, fun x hx b hb => ?_⟩
  have hbirth : b ∈ (Alarms.empty r.timer.now).births (timerSteps h) := by
    rw [HT.births _ H₀]
    exact List.mem_filterMap.2 ⟨x, hx, hb⟩
  exact (H₀.wf.births_fired hA hbirth).1

theorem rawSleeping_fresh : rawSleeping.Fresh :=
  ⟨fun q => by cases q <;> rfl, fun a => by simp [rawSleeping, rawLoop], rfl, rfl, rfl, rfl, rfl⟩

/-- The first timer is started at the time 0 for 5 milliseconds, the second one by the callback of the first one. -/
theorem loop_never_early_sleeping :
    ∃ r' st' h, epInit (epEpollInit · 3 false) rawSleeping = .ok (0, r') ∧
      loopRun 4 (epollApi sleepingKernel) sleepingEnv ⟨r', []⟩ sleepingCalls = .ok st' ∧
      loopHistory 4 (epollApi sleepingKernel) sleepingEnv ⟨r', []⟩ sleepingCalls = .ok h ∧
      historyBirths h = [⟨0, 0, 5, 0⟩, ⟨1, 5, 3, 0⟩] ∧ firedAt 0 (executions h) = [5] ∧
      firedAt 1 (executions h) = [8] ∧
      ∀ x ∈ historyActs h, ∀ b ∈ x.birth, ∀ k (hk : k < (firedAt b.id (executions h)).length),
        b.promised k ≤ ((firedAt b.id (executions h))[k]).toNat ↔ b.promised k < 2 ^ 64 := by
  obtain ⟨h, hhist, -, H⟩ := @loop_never_early _ _ _ 4 (epollApi sleepingKernel) sleepingEnv _ (epEpollInit · 3 false)
    rawSleeping _ _ sleepingCalls rawSleeping_fresh rfl rfl
  refine ⟨_, _, h, rfl, rfl, hhist, ?_, ?_, ?_, H⟩
  all_goals
    cases hhist
    rfl

/-- **The blocks of the timers of a loop.** When a run from `ep_init` on has a result, `ep_fini` leaves no block
of a timer but of those that the limit of 128 callbacks a turn cut off and no call of the run cleared afterwards, which
are never freed; each of the others was freed once. With no more than 128 timers in all, none is cut off. -/
theorem loop_frees_timers {init : P → Int × P} {r r' : EpState P K} {n : Int} {cs : List (LoopCall K)}
    (hr : r.Fresh) (hinit : epInit init r = .ok (n, r')) (hrun : loopRun fuel api env ⟨r', []⟩ cs = .ok st')
    (fini : P → K → P × K) :
    ∃ h, loopHistory fuel api env ⟨r', []⟩ cs = .ok h ∧ Timed fuel env ⟨r', []⟩ st' h ∧
      ∀ᶠ fuel' in atTop, ∃ r'', epFini fini fuel' st'.toEpState = .ok (0, r'') ∧
        (r''.timer.freed ++ (Alarms.empty r.timer.now).lost (timerSteps h) []).Perm (List.range st'.timer.brk) ∧
        (st'.timer.brk ≤ 128 → r''.timer.freed.Perm (List.range st'.timer.brk)) := by
  obtain ⟨h, hhist, HT⟩ := loopRun_timed hrun
  refine ⟨h, hhist, HT, ?_⟩
  obtain ⟨A', hA, H'⟩ := (hr.rep hinit).execSteps_ok HT.run
  have HA := (Alarms.Ledger.empty r.timer.now).execSteps hA
  have Hsound := hr.sound_of_run hinit hrun
  filter_upwards [Hsound.fini fini, eventually_gt_atTop A'.brk] with fuel' hfini hfuel
  obtain ⟨r'', hfini, htimer, -⟩ := hfini
  obtain ⟨t'', htimer', hperm, -⟩ := H'.fini_ledger HA hfuel
  cases htimer.symm.trans htimer'
  refine ⟨r'', hfini, hperm, fun hbrk => ?_⟩
  have hlost := (Alarms.Ledger.lost_eq_nil (n := 128) (.empty _) hA (fun now m script hmem => ?_)
    (H'.brk ▸ hbrk)).2
  · rwa [hlost, List.append_nil] at hperm
  · rw [(HT.clocked _ hmem).1]
    decide

theorem loop_frees_timers_sleeping :
    ∃ r' st' h, epInit (epEpollInit · 3 false) rawSleeping = .ok (0, r') ∧
      loopRun 4 (epollApi sleepingKernel) sleepingEnv ⟨r', []⟩ sleepingCalls = .ok st' ∧ st'.timer.brk = 2 ∧
      loopHistory 4 (epollApi sleepingKernel) sleepingEnv ⟨r', []⟩ sleepingCalls = .ok h ∧
      ∀ᶠ fuel' in atTop, ∃ r'', epFini (fun ps k => (ps, k)) fuel' st'.toEpState = .ok (0, r'') ∧
        (r''.timer.freed ++ (Alarms.empty 0).lost (timerSteps h) []).Perm (List.range st'.timer.brk) ∧
        (st'.timer.brk ≤ 128 → r''.timer.freed.Perm (List.range st'.timer.brk)) := by
  obtain ⟨h, hhist, -, H⟩ := @loop_frees_timers _ _ _ 4 (epollApi sleepingKernel) sleepingEnv _
    (epEpollInit · 3 false) rawSleeping _ _ sleepingCalls rawSleeping_fresh rfl rfl fun ps k => (ps, k)
  exact ⟨_, _, h, rfl, rfl, rfl, hhist, H⟩

end

end Libep
