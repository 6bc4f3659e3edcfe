import Libep.Ep

/-!
# What a turn of the event loop does to its engine

A turn runs the tasks and the timers and then waits. The loops of the task queue and of the timers touch
the world of the callbacks through calls of callbacks only; and a callback changes the engine by its
registration calls only. So up to its wait a turn moves the engine along every relation that the
registration calls respect, and records nothing but callbacks.
-/

namespace Libep
open Relation (ReflTransGen)

/-! ### The loops -/

section
variable {S C W : Type}

/-- A call takes the world from `w` to `w'`. -/
def CallStep (call : C → S × W → Res (S × W)) (w w' : W) : Prop :=
  ∃ c s s', call c (s, w) = .ok (s', w')

end

section
variable {W : Type} {fuel : Nat} {t t' : Timer} {w w' : W}
variable {call : Firing → Timer × W → Res (Timer × W)}

theorem executeLoop_called {k : Nat} {node n : Option Nat} {max_times : Int32}
    (h : executeLoop fuel call k (t, w) node n max_times = .ok (t', w')) :
    ReflTransGen (CallStep call) w w' := by
  induction k generalizing t w node n max_times with
  | zero => cases h
  | succ k ih =>
    cases node with
    | none =>
      cases h
      exact .refl
    | some a =>
      simp only [executeLoop, Res.bind_eq_ok] at h
      obtain ⟨f, -, ⟨t₁, w₁⟩, hcall, t₂, -, h⟩ := h
      have hstep : CallStep call w w₁ := ⟨f, t, t₁, hcall⟩
      -- whatever is left of `max_times`, the loop stops or goes on
      generalize (if max_times ≥ 0 then _ else _ : Int32 × Bool) = left at h
      split at h
      · cases h
        exact .single hstep
      · obtain ⟨n', -, h⟩ := Res.bind_eq_ok.1 h
        exact .head hstep (ih h)

theorem epTimerExecuteNow_called {tv : Timeval} {limit : Int32}
    (h : epTimerExecuteNow fuel call (t, w) tv limit = .ok (t', w')) :
    ReflTransGen (CallStep call) w w' := by
  simp only [epTimerExecuteNow, epTimerExecute, Res.bind_eq_ok] at h
  obtain ⟨_, -, _, -, h⟩ := h
  exact executeLoop_called h

end

section
variable {Q W : Type} [DecidableEq Q] {fuel k : Nat} {q : Q} {s s' : Tasks Q} {w w' : W}
variable {call : TaskCall → Tasks Q × W → Res (Tasks Q × W)} {pos n : Option (TaskRef Q)}

theorem runLoop_called (h : runLoop q call k (s, w) pos n = .ok (s', w')) :
    ReflTransGen (CallStep call) w w' := by
  induction k generalizing s w pos n with
  | zero => cases h
  | succ k ih =>
    rw [runLoop] at h
    split at h
    · cases h
      exact .refl
    · simp only [Res.bind_eq_ok] at h
      obtain ⟨_, -, _, -, c, -, ⟨s₁, w₁⟩, hcall, _, -, _, -, h⟩ := h
      exact .head ⟨c, _, s₁, hcall⟩ (ih h)

theorem epTaskQueueRun_called (h : epTaskQueueRun q call fuel (s, w) = .ok (s', w')) :
    ReflTransGen (CallStep call) w w' := by
  simp only [epTaskQueueRun, Res.bind_eq_ok] at h
  obtain ⟨_, -, _, -, h⟩ := h
  exact runLoop_called h

theorem runKeepLoop_called (h : runKeepLoop q call k (s, w) pos = .ok (s', w')) :
    ReflTransGen (CallStep call) w w' := by
  induction k generalizing s w pos with
  | zero => cases h
  | succ k ih =>
    rw [runKeepLoop] at h
    split at h
    · cases h
      exact .refl
    · simp only [Res.bind_eq_ok] at h
      obtain ⟨_, -, c, -, ⟨s₁, w₁⟩, hcall, _, -, h⟩ := h
      exact .head ⟨c, _, s₁, hcall⟩ (ih h)

theorem epTaskQueueRunKeep_called (h : epTaskQueueRunKeep q call fuel (s, w) = .ok (s', w')) :
    ReflTransGen (CallStep call) w w' := by
  simp only [epTaskQueueRunKeep, Res.bind_eq_ok] at h
  obtain ⟨_, -, h⟩ := h
  exact runKeepLoop_called h

end

/-! ### The engine under calls of the interface -/

variable {P O K : Type} {fuel : Nat} {api : PollApi P O K} {env : Env P K}
variable {st st' st'' : EpLoop P O K} {R : P → P → Prop}

/-- The registration calls of an engine move it along `R`. -/
structure PollApi.Registers (api : PollApi P O K) (R : P → P → Prop) : Prop where
  refl : ∀ ps, R ps ps
  trans : ∀ {ps ps' ps''}, R ps ps' → R ps' ps'' → R ps ps''
  add : ∀ {ps k fd events data ret ps' k'}, api.add ps k fd events data = .ok (ret, ps', k') → R ps ps'
  mod : ∀ {ps k fd events data ret ps' k'}, api.mod ps k fd events data = .ok (ret, ps', k') → R ps ps'
  del : ∀ {ps k fd ret ps' k'}, api.del ps k fd = .ok (ret, ps', k') → R ps ps'

/-- A call of the interface moves the engine along `R` and records nothing. -/
theorem EpAction.exec_engine {a : EpAction} (H : api.Registers R)
    (h : a.exec fuel api env st = .ok st') : R st.ps st'.ps ∧ st'.log = st.log := by
  cases a with
  | add =>
    obtain ⟨_, h, hst⟩ := Res.bind_eq_ok.1 h
    obtain ⟨_, hadd, h⟩ := Res.bind_eq_ok.1 h
    cases h
    cases hst
    exact ⟨H.add hadd, rfl⟩
  | mod =>
    obtain ⟨_, h, hst⟩ := Res.bind_eq_ok.1 h
    obtain ⟨_, hmod, h⟩ := Res.bind_eq_ok.1 h
    cases h
    cases hst
    exact ⟨H.mod hmod, rfl⟩
  | del =>
    obtain ⟨_, h, hst⟩ := Res.bind_eq_ok.1 h
    obtain ⟨_, hdel, h⟩ := Res.bind_eq_ok.1 h
    cases h
    cases hst
    exact ⟨H.del hdel, rfl⟩
  | settimeout | setinterval | nexttick | everytick =>
    obtain ⟨_, h, hst⟩ := Res.bind_eq_ok.1 h
    obtain ⟨_, -, h⟩ := Res.bind_eq_ok.1 h
    cases h
    cases hst
    exact ⟨H.refl _, rfl⟩
  | cleartimeout | clearinterval | cleartask =>
    obtain ⟨_, -, h⟩ := Res.bind_eq_ok.1 h
    cases h
    exact ⟨H.refl _, rfl⟩

theorem execActions_engine {as : List EpAction} (H : api.Registers R)
    (h : execActions fuel api env st as = .ok st') : R st.ps st'.ps ∧ st'.log = st.log := by
  induction as generalizing st with
  | nil =>
    cases h
    exact ⟨H.refl _, rfl⟩
  | cons a as ih =>
    obtain ⟨st₁, ha, h⟩ := Res.bind_eq_ok.1 h
    obtain ⟨hR₁, hlog₁⟩ := a.exec_engine H ha
    obtain ⟨hR, hlog⟩ := ih h
    exact ⟨H.trans hR₁ hR, hlog.trans hlog₁⟩

/-- From `st` to `st'` the engine moved along `R`, and nothing was recorded but callbacks. -/
structure OnlyCalls (R : P → P → Prop) (st st' : EpLoop P O K) : Prop where
  ps : R st.ps st'.ps
  log : ∃ cs : List EpCall, st'.log = st.log ++ cs.map .call

namespace OnlyCalls

theorem refl (H : api.Registers R) (st : EpLoop P O K) : OnlyCalls R st st :=
  ⟨H.refl _, [], (List.append_nil _).symm⟩

theorem trans (H : api.Registers R) (h : OnlyCalls R st st') (h' : OnlyCalls R st' st'') :
    OnlyCalls R st st'' := by
  obtain ⟨cs, hcs⟩ := h.log
  obtain ⟨cs', hcs'⟩ := h'.log
  exact ⟨H.trans h.ps h'.ps, cs ++ cs', by rw [hcs', hcs, List.map_append, List.append_assoc]⟩

end OnlyCalls

theorem runCallback_onlyCalls {c : EpCall} (H : api.Registers R)
    (h : runCallback fuel api env st c = .ok st') : OnlyCalls R st st' := by
  obtain ⟨hR, hlog⟩ := execActions_engine H h
  exact ⟨hR, [c], hlog⟩

/-- A world that only calls of callbacks touched. -/
theorem OnlyCalls.of_called {S C : Type} {call : C → S × EpLoop P O K → Res (S × EpLoop P O K)}
    (H : api.Registers R) (hstep : ∀ {w w'}, CallStep call w w' → OnlyCalls R w w')
    (h : ReflTransGen (CallStep call) st st') : OnlyCalls R st st' := by
  induction h with
  | refl => exact .refl H st
  | tail _ h ih => exact ih.trans H (hstep h)

theorem taskCall_onlyCalls {q : Tick} {w w' : EpLoop P O K} (H : api.Registers R)
    (h : CallStep (taskCall fuel api env q) w w') : OnlyCalls R w w' := by
  obtain ⟨c, s, s', h⟩ := h
  obtain ⟨st, hrun, hst⟩ := Res.bind_eq_ok.1 h
  cases hst
  have := runCallback_onlyCalls H hrun
  exact ⟨this.ps, this.log⟩

theorem timerCall_onlyCalls {w w' : EpLoop P O K} (H : api.Registers R)
    (h : CallStep (timerCall fuel api env) w w') : OnlyCalls R w w' := by
  obtain ⟨c, s, s', h⟩ := h
  obtain ⟨st, hrun, hst⟩ := Res.bind_eq_ok.1 h
  cases hst
  have := runCallback_onlyCalls H hrun
  exact ⟨this.ps, this.log⟩

/-! ### The parts of a turn -/

theorem epRunNexttick_onlyCalls (H : api.Registers R)
    (h : epRunNexttick fuel api env st = .ok st') : OnlyCalls R st st' := by
  obtain ⟨⟨tasks, st₁⟩, hrun, h⟩ := Res.bind_eq_ok.1 h
  cases h
  have := OnlyCalls.of_called H (taskCall_onlyCalls H) (epTaskQueueRun_called hrun)
  exact ⟨this.ps, this.log⟩

theorem epRunEverytick_onlyCalls (H : api.Registers R)
    (h : epRunEverytick fuel api env st = .ok st') : OnlyCalls R st st' := by
  obtain ⟨⟨tasks, st₁⟩, hrun, h⟩ := Res.bind_eq_ok.1 h
  cases h
  have := OnlyCalls.of_called H (taskCall_onlyCalls H) (epTaskQueueRunKeep_called hrun)
  exact ⟨this.ps, this.log⟩

theorem epExecuteTimers_onlyCalls (H : api.Registers R)
    (h : epExecuteTimers fuel api env st = .ok st') : OnlyCalls R st st' := by
  obtain ⟨⟨timer, st₁⟩, hrun, h⟩ := Res.bind_eq_ok.1 h
  cases h
  have := OnlyCalls.of_called H (timerCall_onlyCalls H) (epTimerExecuteNow_called hrun)
  exact ⟨this.ps, this.log⟩

/-- The parts of a turn that has a result. -/
theorem epTurn_ok {waittime : Int32} {ret : Int} (h : epTurn fuel api env st waittime = .ok (ret, st')) :
    ∃ st₁ st₂ st₃, epRunNexttick fuel api env st = .ok st₁ ∧ epRunEverytick fuel api env st₁ = .ok st₂ ∧
      epExecuteTimers fuel api env st₂ = .ok st₃ ∧ epWait api env st₃ waittime = .ok (ret, st') := by
  simp only [epTurn, epBeforeWait, Res.bind_eq_ok] at h
  obtain ⟨st₃, ⟨st₁, h₁, st₂, h₂, h₃⟩, hwait⟩ := h
  exact ⟨st₁, st₂, st₃, h₁, h₂, h₃, hwait⟩

/-- A turn is callbacks and then one wait. -/
theorem epTurn_onlyCalls {waittime : Int32} {ret : Int} (H : api.Registers R)
    (h : epTurn fuel api env st waittime = .ok (ret, st')) :
    ∃ st₁, OnlyCalls R st st₁ ∧ epWait api env st₁ waittime = .ok (ret, st') := by
  obtain ⟨sta, stb, stc, ha, hb, hc, hwait⟩ := epTurn_ok h
  have hab := (epRunNexttick_onlyCalls H ha).trans H (epRunEverytick_onlyCalls H hb)
  exact ⟨stc, hab.trans H (epExecuteTimers_onlyCalls H hc), hwait⟩

/-! ### The cases of `ep_iterate` -/

section
variable {waittime : Int32} {ret n : Int} {out out₁ out' : Out}

theorem epFetch_eq {ps : P} (h : api.fetch st.ps out = .ok (ret, ps, out')) :
    epFetch api st out = .ok (ret, out', { st with ps }) := by
  rw [epFetch, h]
  rfl

/-- The first fetch finds an event. -/
theorem epIterate_of_fetch (h : epFetch api st out = .ok (ret, out', st')) (hret : 0 < ret) :
    epIterate fuel api env st waittime out = .ok (ret, out', st') := by
  simp only [epIterate, h, Res.ok_bind, if_neg (Int.not_le.2 hret)]
  rfl

/-- The first fetch finds nothing, and neither does the wait. -/
theorem epIterate_of_idle {st₁ : EpLoop P O K} (h : epFetch api st out = .ok (n, out₁, st₁))
    (hn : n ≤ 0) (hturn : epTurn fuel api env st₁ waittime = .ok (ret, st')) (hret : ret ≤ 0) :
    epIterate fuel api env st waittime out = .ok (ret, out₁, st') := by
  simp only [epIterate, h, Res.ok_bind, if_pos hn, hturn, if_neg (Int.not_lt.2 hret)]
  rfl

end

end Libep
