import Libep.Verify.Ep.Ticks

/-!
# What is seen of a run

A call of the loop is seen as one turn, or not at all if it is an `ep_iterate` that has an event to hand out. A turn
is seen as the calls of nexttick tasks, then those of everytick tasks, then those of timers, 128 at most, and then
one wait.
-/

namespace Libep
open Relation (ReflTransGen)

variable {P O K : Type}

structure TurnLog (O : Type) where
  nexttick : List TaskCall
  everytick : List TaskCall
  timers : List Firing
  timeout : Int32
  outcome : O

namespace TurnLog

def log (u : TurnLog O) : List (Obs O) :=
  u.nexttick.map (fun t => .call (.task .nexttick t)) ++ u.everytick.map (fun t => .call (.task .everytick t)) ++
    u.timers.map (fun f => .call (.timer f)) ++ [.wait u.timeout u.outcome]

/-- A turn of a call with the hint `waittime`: timers can make its timeout shorter, but not longer. -/
structure Fits (u : TurnLog O) (waittime : Int32) : Prop where
  timers : u.timers.length ≤ 128
  timeout : u.timeout = waittime ∨ 0 ≤ u.timeout ∧ (waittime < 0 ∨ u.timeout < waittime)

end TurnLog

/-- The turns that a call makes at `st`. -/
def LoopCall.Makes (api : PollApi P O K) (st : EpLoop P O K) : LoopCall K → List (TurnLog O) → Prop
  | iterate waittime out, us => ∃ r, api.fetch st.ps out = .ok r ∧
    if 0 < r.1 then us = [] else ∃ u, us = [u] ∧ u.Fits waittime
  | forEachStart waittime, us => ∃ u, us = [u] ∧ u.Fits waittime
  | _, us => us = []

/-- The turns of a run, call by call. -/
def Makes (fuel : Nat) (api : PollApi P O K) (env : Env P K) :
    EpLoop P O K → List (LoopCall K) → List (List (TurnLog O)) → Prop
  | _, [], [] => True
  | st, c :: cs, us :: uss => c.Makes api st us ∧
    ∃ st', c.exec fuel api env st = .ok st' ∧ Makes fuel api env st' cs uss
  | _, _, _ => False

section
variable {fuel : Nat} {api : PollApi P O K} {env : Env P K} {st st' : EpLoop P O K} {q : Tick} {waittime : Int32}

theorem called_log (h : ReflTransGen (CallStep (taskCall fuel api env q)) st st') :
    ∃ ts : List TaskCall, st'.log = st.log ++ ts.map fun t => .call (.task q t) := by
  induction h with
  | refl => exact ⟨[], (List.append_nil _).symm⟩
  | tail _ h ih =>
    obtain ⟨ts, hts⟩ := ih
    obtain ⟨t, s, s', h⟩ := h
    obtain ⟨_, hrun, hst⟩ := Res.bind_eq_ok.1 h
    cases hst
    refine ⟨ts ++ [t], ?_⟩
    rw [(runCallback_works hrun st).2, hts, List.append_assoc, List.map_append]
    rfl

theorem epRunNexttick_log (h : epRunNexttick fuel api env st = .ok st') :
    ∃ ts : List TaskCall, st'.log = st.log ++ ts.map fun t => .call (.task .nexttick t) := by
  obtain ⟨⟨tasks, st₁⟩, hrun, h⟩ := Res.bind_eq_ok.1 h
  cases h
  obtain ⟨ts, hlog⟩ := called_log (epTaskQueueRun_called hrun)
  exact ⟨ts, hlog⟩

theorem epRunEverytick_log (h : epRunEverytick fuel api env st = .ok st') :
    ∃ ts : List TaskCall, st'.log = st.log ++ ts.map fun t => .call (.task .everytick t) := by
  obtain ⟨⟨tasks, st₁⟩, hrun, h⟩ := Res.bind_eq_ok.1 h
  cases h
  obtain ⟨ts, hlog⟩ := called_log (epTaskQueueRunKeep_called hrun)
  exact ⟨ts, hlog⟩

theorem epExecuteTimers_log (h : epExecuteTimers fuel api env st = .ok st') :
    ∃ fs : List Firing, st'.log = st.log ++ fs.map (fun f => .call (.timer f)) ∧ fs.length ≤ 128 := by
  obtain ⟨cs, hrun⟩ := exists_notedTimers (CallHistory.note fuel api env) [] h
  obtain ⟨HT, hlimit, -, hlog⟩ := notedTimers_turns hrun
  refine ⟨_, hlog, ?_⟩
  rw [← HT.length_firing, ← hlimit, Alarms.limit, if_neg (by decide)]
  exact Nat.min_le_right _ _

theorem epFetch_log {out out' : Out} {ret : Int} (h : epFetch api st out = .ok (ret, out', st')) :
    st'.log = st.log := by
  obtain ⟨ps, rfl⟩ := epFetch_ps h
  rfl

theorem epWaittime_fits {t t' : Timer} {tv : Timeval} {timeout : Int32}
    (h : epWaittime t tv waittime = .ok (timeout, t')) :
    timeout = waittime ∨ 0 ≤ timeout ∧ (waittime < 0 ∨ timeout < waittime) := by
  obtain ⟨diff, -, h⟩ := Res.bind_eq_ok.1 h
  cases h
  split
  · exact .inl rfl
  · next hdiff =>
    split
    · next hshort => exact .inr ⟨Int32.not_lt.1 hdiff, hshort⟩
    · exact .inl rfl

theorem epTurn_log {ret : Int} (h : epTurn fuel api env st waittime = .ok (ret, st')) :
    ∃ u : TurnLog O, u.Fits waittime ∧ st'.log = st.log ++ u.log := by
  obtain ⟨st₁, st₂, st₃, h₁, h₂, h₃, h⟩ := epTurn_ok h
  obtain ⟨ts₁, hlog₁⟩ := epRunNexttick_log h₁
  obtain ⟨ts₂, hlog₂⟩ := epRunEverytick_log h₂
  obtain ⟨fs, hlog₃, hlimit⟩ := epExecuteTimers_log h₃
  obtain ⟨⟨timeout, timer⟩, hwait, h⟩ := Res.bind_eq_ok.1 h
  obtain ⟨⟨o, n, ps, world⟩, -, h⟩ := Res.bind_eq_ok.1 h
  cases h
  refine ⟨⟨ts₁, ts₂, fs, timeout, o⟩, ⟨hlimit, epWaittime_fits hwait⟩, ?_⟩
  show st₃.log ++ [.wait timeout o] = _
  rw [hlog₃, hlog₂, hlog₁, TurnLog.log]
  simp only [List.append_assoc]

theorem LoopCall.exec_log {c : LoopCall K} (h : c.exec fuel api env st = .ok st') :
    ∃ us : List (TurnLog O), c.Makes api st us ∧ st'.log = st.log ++ us.flatMap TurnLog.log := by
  have one : ∀ u : TurnLog O, u.log = [u].flatMap TurnLog.log := fun u => (List.append_nil _).symm
  cases c with
  | iterate waittime out =>
    obtain ⟨⟨ret, out', st₃⟩, hrun, h⟩ := Res.bind_eq_ok.1 h
    cases h
    obtain ⟨⟨n, out₁, st₁⟩, hfetch, hrun⟩ := Res.bind_eq_ok.1 hrun
    have hlog := epFetch_log hfetch
    obtain ⟨r, hr, hfetch⟩ := Res.bind_eq_ok.1 hfetch
    cases hfetch
    dsimp only at hrun
    split at hrun
    · next hnone =>
      replace hnone : ¬0 < r.1 := Int.not_lt.2 hnone
      obtain ⟨⟨m, st₂⟩, hturn, hrun⟩ := Res.bind_eq_ok.1 hrun
      obtain ⟨u, hu, hlog₂⟩ := epTurn_log hturn
      rw [hlog, one] at hlog₂
      dsimp only at hrun
      split at hrun
      · obtain ⟨_, hfetch', hrun⟩ := Res.bind_eq_ok.1 hrun
        cases hrun
        exact ⟨[u], ⟨r, hr, by rw [if_neg hnone]; exact ⟨u, rfl, hu⟩⟩, (epFetch_log hfetch').trans hlog₂⟩
      · cases hrun
        exact ⟨[u], ⟨r, hr, by rw [if_neg hnone]; exact ⟨u, rfl, hu⟩⟩, hlog₂⟩
    · next hevent =>
      cases hrun
      exact ⟨[], ⟨r, hr, by rw [if_pos (Int.not_le.1 hevent)]⟩, hlog.trans (List.append_nil _).symm⟩
  | forEachStart waittime =>
    obtain ⟨⟨ret, st₁⟩, hturn, h⟩ := Res.bind_eq_ok.1 h
    cases h
    obtain ⟨u, hu, hlog⟩ := epTurn_log hturn
    exact ⟨[u], ⟨u, rfl, hu⟩, one u ▸ hlog⟩
  | fetch out =>
    obtain ⟨_, hrun, h⟩ := Res.bind_eq_ok.1 h
    cases h
    exact ⟨[], rfl, (epFetch_log hrun).trans (List.append_nil _).symm⟩
  | action a => exact ⟨[], rfl, (a.exec_works h).2.trans (List.append_nil _).symm⟩
  | other f =>
    cases h
    exact ⟨[], rfl, (List.append_nil _).symm⟩

/-- **A run is seen as its turns**, in the order of the calls: `ep__for_each_start` makes one, and `ep_iterate` does
exactly if there is no event to hand out when it is called. -/
theorem loop_turns {cs : List (LoopCall K)} (h : loopRun fuel api env st cs = .ok st') :
    ∃ uss : List (List (TurnLog O)), Makes fuel api env st cs uss ∧
      st'.log = st.log ++ uss.flatten.flatMap TurnLog.log := by
  induction cs generalizing st with
  | nil =>
    cases h
    exact ⟨[], trivial, (List.append_nil _).symm⟩
  | cons c cs ih =>
    obtain ⟨st₁, hc, h⟩ := Res.bind_eq_ok.1 h
    obtain ⟨us, hus, hlog⟩ := c.exec_log hc
    obtain ⟨uss, huss, hlog'⟩ := ih h
    refine ⟨us :: uss, ⟨hus, st₁, hc, huss⟩, ?_⟩
    rw [hlog', hlog, List.flatten_cons, List.flatMap_append, List.append_assoc]

theorem loop_turns_ticking :
    ∃ r' st', epInit (epEpollInit · 3 false) (rawLoop []) = .ok (0, r') ∧
      loopRun 3 (epollApi scriptedKernel) quietEnv ⟨r', []⟩ (tickingCalls ++ cancellingCalls) = .ok st' ∧
      ∃ uss : List (List (TurnLog WaitOutcome)),
        Makes 3 (epollApi scriptedKernel) quietEnv ⟨r', []⟩ (tickingCalls ++ cancellingCalls) uss ∧
        st'.log = [] ++ uss.flatten.flatMap TurnLog.log :=
  ⟨_, _, rfl, rfl, @loop_turns _ _ _ 3 (epollApi scriptedKernel) quietEnv _ _ (tickingCalls ++ cancellingCalls) rfl⟩

end
end Libep
