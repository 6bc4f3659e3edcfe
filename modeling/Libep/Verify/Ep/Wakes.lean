import Libep.Verify.Ep.Timed
import Libep.Verify.Timer.Order

/-!
# The loop calls its timers

The other side of `loop_never_early`. A timer that is in the list when an execution reaches its deadline is
called by it, unless a call of the run clears it, or an execution uses up its limit. And a loop without a limit to its
waits asks for a timeout that ends at the next deadline, so that a turn after the timeout calls the timer.
-/

namespace Libep
open StableList

/-- A call of the step clears the alarm `id`. -/
def TimerStep.Clears (id : Nat) : TimerStep → Prop
  | .call op => op = .clear id
  | .execute _ _ script => ∃ i, .clear id ∈ script i

namespace Alarms
variable {A A' : Alarms} {s : TimerStep} {steps : List TimerStep} {log : TimerLog} {v : Alarm} {limit : Int32}

/-- The alarm `v` is called by an execution of the log, or one of them uses up its limit. -/
def Served (limit : Int32) (v : Alarm) (log : TimerLog) : Prop :=
  ∃ c ∈ log, v.id ∈ c.2.map Firing.id ∨ c.2.length = limit.toInt.toNat

/-- An execution that does not use up its limit calls all that are due. -/
theorem batch_eq_due {now : UInt64} (hlimit : 0 < limit)
    (h : (A.batch now limit).length ≠ limit.toInt.toNat) : A.batch now limit = A.due now := by
  have hnot : ¬limit < 0 := Int32.not_lt.2 (Int32.le_of_lt hlimit)
  rw [batch, limit_eq_turnCount (Int32.ne_of_lt hlimit).symm, turnCount, if_neg hnot] at h ⊢
  rw [List.length_take] at h
  exact List.take_of_length_le (by omega)

/-- A step clears an alarm, calls it, or leaves it where it is and is not late for it. -/
theorem WF.execStep_served (H : A.WF) (hlimit : 0 < limit)
    (hs : ∀ now m script, s = .execute now m script → m = limit) (h : A.execStep s = .ok (A', log))
    (hv : v ∈ A.plain) :
    s.Clears v.id ∨ Served limit v log ∨ v ∈ A'.plain ∧ ∀ c ∈ log, c.1 < v.deadline := by
  have kept : ∀ {A₁ : Alarms} {ops es}, Effect A₁ ops es A' → v ∈ A₁.plain → .clear v.id ∈ ops ∨ v ∈ A'.plain :=
    fun {A₁ ops es} E hv => or_iff_not_imp_left.2 fun hclear => (E.plain v).2 ⟨hclear, .inl hv⟩
  cases s with
  | call op =>
    obtain ⟨A₁, h₁, h⟩ := Res.bind_eq_ok.1 h
    cases h
    exact (kept (H.effect_exec h₁) hv).imp (fun hclear => (List.mem_singleton.1 hclear).symm) fun hv =>
      .inr ⟨hv, by simp⟩
  | execute now m script =>
    obtain ⟨A₁, h₁, h⟩ := Res.bind_eq_ok.1 h
    cases h
    obtain rfl := hs now m script rfl
    obtain ⟨e, he, rfl⟩ := List.mem_map.1 hv
    by_cases hlt : now < e.deadline
    · have hv' : e.plain ∈ (A.detach now).plain := List.mem_map_of_mem (mem_above.2 ⟨he, hlt⟩)
      refine (kept (H.effect_execute h₁) hv').imp (fun hclear => ?_) fun hv => .inr ⟨hv, fun c hc => ?_⟩
      · obtain ⟨i, -, hclear⟩ := mem_calls.1 hclear
        exact ⟨_, hclear⟩
      rw [List.mem_singleton.1 hc]
      exact hlt
    · refine .inr (.inl ⟨_, List.mem_singleton_self _, ?_⟩)
      by_cases hfull : (A.batch now m).length = m.toInt.toNat
      · exact .inr ((List.length_map _).trans hfull)
      · have hdue : e ∈ A.batch now m := by
          rw [batch_eq_due hlimit hfull]
          exact mem_upTo.2 ⟨he, UInt64.not_lt.1 hlt⟩
        exact .inl (by rw [List.map_map]; exact List.mem_map_of_mem (f := Firing.id ∘ Alarm.firing) hdue)

/-- **An alarm is served**: if the time of an execution reaches its deadline, the alarm is called, or an
execution uses up its limit, or the alarm is cleared. -/
theorem WF.execSteps_served (H : A.WF) (hlimit : 0 < limit)
    (hs : ∀ now m script, .execute now m script ∈ steps → m = limit)
    (h : A.execSteps steps = .ok (A', log)) (hv : v ∈ A.plain) :
    (∃ s ∈ steps, s.Clears v.id) ∨ Served limit v log ∨ v ∈ A'.plain ∧ ∀ c ∈ log, c.1 < v.deadline := by
  induction steps generalizing A log with
  | nil =>
    cases h
    exact .inr (.inr ⟨hv, by simp⟩)
  | cons s steps ih =>
    obtain ⟨⟨A₁, log₁⟩, h₁, h⟩ := Res.bind_eq_ok.1 h
    obtain ⟨⟨A₂, log₂⟩, h₂, h⟩ := Res.bind_eq_ok.1 h
    cases h
    have H₁ := (Ledger.brk_le H h₁).1
    have served : ∀ {l}, Served limit v l → l ⊆ log₁ ++ log₂ → Served limit v (log₁ ++ log₂) :=
      fun ⟨c, hc, hserved⟩ hsub => ⟨c, hsub hc, hserved⟩
    rcases H.execStep_served hlimit (fun now m script e => hs now m script (e ▸ List.mem_cons_self)) h₁ hv
      with hclear | hserved | ⟨hv₁, hlt₁⟩
    · exact .inl ⟨s, List.mem_cons_self, hclear⟩
    · exact .inr (.inl (served hserved (List.subset_append_left _ _)))
    · rcases ih H₁ (fun now m script hmem => hs now m script (List.mem_cons_of_mem _ hmem)) h₂ hv₁
        with ⟨s', hs', hclear⟩ | hserved | ⟨hv₂, hlt₂⟩
      · exact .inl ⟨s', List.mem_cons_of_mem _ hs', hclear⟩
      · exact .inr (.inl (served hserved (List.subset_append_right _ _)))
      · exact .inr (.inr ⟨hv₂, fun c hc => (List.mem_append.1 hc).elim (hlt₁ c) (hlt₂ c)⟩)

end Alarms

section
variable {P O K : Type} {fuel : Nat} {api : PollApi P O K} {env : Env P K} {init : P → Int × P} {r r' : EpState P K}
  {n : Int} {cs cs' : List (LoopCall K)} {st st' st'' : EpLoop P O K} {h : List LoopEvent}

theorem Act.clears_of_mem {x : Act} {id : Nat} (h : .clear id ∈ x.timerOps) : x.Clears id := by
  obtain ⟨a, clock, made⟩ := x
  cases a with
  | cleartimeout | clearinterval =>
    cases List.mem_singleton.1 h
    simp [Act.Clears]
  | _ => simp [Act.timerOps, EpAction.timerOps] at h

/-- The clears of the steps are calls of the run. -/
theorem exists_clears {s : TimerStep} {id : Nat} (hs : s ∈ timerSteps h) (hclear : s.Clears id) :
    ∃ x ∈ historyActs h, x.Clears id := by
  obtain ⟨e, he, hs⟩ := List.mem_flatMap.1 hs
  suffices ∃ x ∈ e.acts, x.Clears id by
    obtain ⟨x, hx, hclears⟩ := this
    exact ⟨x, List.mem_flatMap.2 ⟨e, he, hx⟩, hclears⟩
  have called : ∀ {u : TurnHistory} {c}, c ∈ u.nexttick ++ u.everytick ++ u.timers → .clear id ∈ c.timerOps →
      ∃ x ∈ (LoopEvent.turn u).acts, x.Clears id := fun hc h => by
    obtain ⟨x, hx, h⟩ := List.mem_flatMap.1 h
    exact ⟨x, List.mem_flatMap.2 ⟨_, hc, hx⟩, Act.clears_of_mem h⟩
  cases e with
  | action x =>
    obtain ⟨op, hop, rfl⟩ := List.mem_map.1 hs
    cases hclear
    exact ⟨x, List.mem_singleton_self x, Act.clears_of_mem hop⟩
  | turn u =>
    rcases List.mem_append.1 hs with hs | hs
    · obtain ⟨op, hop, rfl⟩ := List.mem_map.1 hs
      cases hclear
      obtain ⟨c, hc, hop⟩ := List.mem_flatMap.1 hop
      exact called (List.mem_append_left _ hc) hop
    · simp only [List.mem_cons, List.not_mem_nil, or_false] at hs
      rcases hs with rfl | rfl | rfl
      · cases hclear
      · obtain ⟨i, hclear⟩ := hclear
        unfold scriptOf at hclear
        cases hi : u.timers[i]? with
        | none => simp [hi] at hclear
        | some c =>
          rw [hi] at hclear
          exact called (List.mem_append_right _ (List.mem_of_getElem? hi)) hclear
      · cases hclear

/-- A timer is called, cleared, or still to come. -/
theorem Timed.served {A : Alarms} {id : Nat} (H : st.timer.Rep A []) (HT : Timed fuel env st st' h)
    (hid : st.timer.Listed id) :
    (∃ x ∈ historyActs h, x.Clears id) ∨ (∃ c ∈ executions h, id ∈ c.2.map Firing.id ∨ c.2.length = 128) ∨
      ∀ c ∈ executions h, c.1 < (st.timer.sl.node id).score := by
  obtain ⟨A', hA, H'⟩ := H.execSteps_ok HT.run
  obtain ⟨e, he, rfl⟩ := List.mem_map.1 (H.listed.1 hid)
  have hlimit : ∀ now m script, .execute now m script ∈ timerSteps h → m = 128 := fun now m script hmem =>
    (HT.clocked _ hmem).1
  rcases H.wf.execSteps_served (by decide) hlimit hA (List.mem_map_of_mem he)
    with ⟨s, hs, hclear⟩ | hserved | ⟨-, hlt⟩
  · exact .inl (exists_clears hs hclear)
  · exact .inr (.inl hserved)
  · refine .inr (.inr ?_)
    rw [H.score he]
    exact hlt

/-- **Every timer is called.** From any state of a run on, a timer that is in the list is called as soon as the
time of a turn reaches its deadline, unless a call of the run cleared it or a turn used up the limit of 128
callbacks. -/
theorem loop_serves_timers (hr : r.Fresh) (hinit : epInit init r = .ok (n, r'))
    (hrun : loopRun fuel api env ⟨r', []⟩ cs = .ok st) (hrun' : loopRun fuel api env st cs' = .ok st') :
    ∃ h, loopHistory fuel api env st cs' = .ok h ∧ Timed fuel env st st' h ∧ ∀ id, st.timer.Listed id →
      ∀ c ∈ executions h, (st.timer.sl.node id).score ≤ c.1 → (∃ x ∈ historyActs h, x.Clears id) ∨
        ∃ c ∈ executions h, id ∈ c.2.map Firing.id ∨ c.2.length = 128 := by
  obtain ⟨h₀, -, HT₀⟩ := loopRun_timed hrun
  obtain ⟨A, -, H⟩ := (hr.rep hinit).execSteps_ok HT₀.run
  obtain ⟨h, hhist, HT⟩ := loopRun_timed hrun'
  refine ⟨h, hhist, HT, fun id hid c hc hle => ?_⟩
  rcases HT.served H hid with hclear | hserved | hlt
  · exact .inl hclear
  · exact .inr hserved
  · exact absurd (hlt c hc) (UInt64.not_lt.2 hle)

/-- The first turn leaves the timer in the list, and the second one calls it at its deadline. -/
theorem loop_serves_timers_sleeping :
    ∃ r' st st' h, epInit (epEpollInit · 3 false) rawSleeping = .ok (0, r') ∧
      loopRun 4 (epollApi sleepingKernel) sleepingEnv ⟨r', []⟩ (sleepingCalls.take 2) = .ok st ∧
      loopRun 4 (epollApi sleepingKernel) sleepingEnv st (sleepingCalls.drop 2) = .ok st' ∧
      loopHistory 4 (epollApi sleepingKernel) sleepingEnv st (sleepingCalls.drop 2) = .ok h ∧
      executions h = [(5, [⟨0, 7, 0⟩]), (8, [⟨1, 8, 0⟩])] ∧ (historyActs h).map Act.action = [.settimeout false 3 8 0] ∧
      ∀ id, st.timer.Listed id → ∀ c ∈ executions h, (st.timer.sl.node id).score ≤ c.1 →
        (∃ x ∈ historyActs h, x.Clears id) ∨ ∃ c ∈ executions h, id ∈ c.2.map Firing.id ∨ c.2.length = 128 := by
  obtain ⟨h, hhist, -, H⟩ := @loop_serves_timers _ _ _ 4 (epollApi sleepingKernel) sleepingEnv
    (epEpollInit · 3 false) rawSleeping _ _ (sleepingCalls.take 2) (sleepingCalls.drop 2) _ _ rawSleeping_fresh
    rfl rfl rfl
  refine ⟨_, _, _, h, rfl, rfl, rfl, hhist, ?_, ?_, H⟩
  all_goals
    cases hhist
    rfl

/-- The timeout of the wait of a turn is computed from the timers it leaves. -/
theorem epTurn_timeout {waittime : Int32} {ret : Int} (h : epTurn fuel api env st waittime = .ok (ret, st')) :
    ∃ pre timeout o tv, st'.log = pre ++ [.wait timeout o] ∧ st'.timer.now = tv.ms ∧
      epWaittime st'.timer tv waittime = .ok (timeout, st'.timer) := by
  obtain ⟨st₁, st₂, st₃, -, -, -, h⟩ := epTurn_ok h
  obtain ⟨⟨timeout, timer⟩, hwait, h⟩ := Res.bind_eq_ok.1 h
  obtain ⟨⟨o, m, ps, world⟩, -, h⟩ := Res.bind_eq_ok.1 h
  cases h
  obtain rfl : timer = epTimerUpdatetime st₃.timer (env.gettimeofday st₃.world).1 := by
    obtain ⟨diff, -, hwait⟩ := Res.bind_eq_ok.1 hwait
    cases hwait
    rfl
  exact ⟨_, timeout, o, _, rfl, rfl, hwait⟩

/-- The same of a call that waits. -/
theorem LoopCall.exec_timeout {waittime : Int32} {c : LoopCall K}
    (hc : c = .forEachStart waittime ∨ ∃ out, c = .iterate waittime out)
    (h : c.exec fuel api env st = .ok st') {new : List (Obs O)} {timeout : Int32} {o : O}
    (hlog : st'.log = st.log ++ (new ++ [.wait timeout o])) :
    ∃ tv, st'.timer.now = tv.ms ∧ epWaittime st'.timer tv waittime = .ok (timeout, st'.timer) := by
  have turn : ∀ {st₁ st₂ ret}, epTurn fuel api env st₁ waittime = .ok (ret, st₂) → st'.log = st₂.log →
      st'.timer = st₂.timer →
      ∃ tv, st'.timer.now = tv.ms ∧ epWaittime st'.timer tv waittime = .ok (timeout, st'.timer) := by
    intro st₁ st₂ ret h hlog₂ htimer
    obtain ⟨pre, timeout', o', tv, hlog', hnow, hwait⟩ := epTurn_timeout h
    rw [← hlog₂, hlog, ← List.append_assoc] at hlog'
    obtain ⟨-, hlast⟩ := List.append_inj' hlog' rfl
    cases hlast
    rw [htimer]
    exact ⟨tv, hnow, hwait⟩
  rcases hc with rfl | ⟨out, rfl⟩
  · obtain ⟨⟨ret, st₁⟩, hturn, h⟩ := Res.bind_eq_ok.1 h
    cases h
    exact turn hturn rfl rfl
  · obtain ⟨⟨ret, out', st₃⟩, hrun, h⟩ := Res.bind_eq_ok.1 h
    cases h
    obtain ⟨⟨m, out₁, st₁⟩, hfetch, hrun⟩ := Res.bind_eq_ok.1 hrun
    obtain ⟨_, -, hfetch⟩ := Res.bind_eq_ok.1 hfetch
    cases hfetch
    dsimp only at hrun
    split at hrun
    · obtain ⟨⟨m', st₂⟩, hturn, hrun⟩ := Res.bind_eq_ok.1 hrun
      dsimp only at hrun
      split at hrun
      · obtain ⟨⟨m'', out₂, st₄⟩, hfetch', hrun⟩ := Res.bind_eq_ok.1 hrun
        cases hrun
        obtain ⟨_, -, hfetch'⟩ := Res.bind_eq_ok.1 hfetch'
        cases hfetch'
        exact turn hturn rfl rfl
      · cases hrun
        exact turn hturn rfl rfl
    · cases hrun
      simp at hlog

/-- The timeout of a wait without a limit ends at the next deadline, if that is near. -/
theorem deadline_le_timeout {t : Timer} {A : Alarms} {tv : Timeval} {waittime timeout : Int32} {id : Nat}
    (H : t.Rep A []) (hw : waittime < 0) (hnow : t.now = tv.ms)
    (h : epWaittime t tv waittime = .ok (timeout, t)) (hid : t.Listed id)
    (hleast : ∀ id', t.Listed id' → (t.sl.node id).score ≤ (t.sl.node id').score)
    (hnear : (t.sl.node id).score.toNat - t.now.toNat < 2 ^ 31) :
    ((t.sl.node id).score.toNat : Int) ≤ t.now.toNat + timeout.toInt := by
  obtain ⟨e, he, rfl⟩ := List.mem_map.1 (H.listed.1 hid)
  have hleast' : ∀ e' ∈ A.list, e.deadline ≤ e'.deadline := fun e' he' => by
    rw [← H.score he, ← H.score he']
    exact hleast _ (H.listed.2 (List.mem_map_of_mem he'))
  obtain ⟨w, t', hrun, -, hw'⟩ := H.epWaittime tv waittime
  cases hrun.symm.trans h
  rw [H.score he] at hnear ⊢
  rw [hnow] at hnear ⊢
  have hneg : waittime.toInt < 0 := Int32.lt_iff_toInt_lt.1 hw
  have hw'' := hw' e he hleast' _ rfl
  have hmod : (e.deadline.toNat - tv.ms.toNat) % 2 ^ 32 = e.deadline.toNat - tv.ms.toNat :=
    Nat.mod_eq_of_lt (by omega)
  rw [hmod, if_pos ⟨hnear, .inl hneg⟩] at hw''
  omega

/-- **A loop wakes up for its timers.** After a call that waits without a limit, the turns of the program call
each timer with the least deadline as soon as the clock shows that the timeout of the wait is over, unless a call of
the run clears it or the limit of 128 callbacks is used up. The deadline must be nearer than 2^31 milliseconds. -/
theorem loop_wakes_timers (hr : r.Fresh) (hinit : epInit init r = .ok (n, r'))
    (hrun : loopRun fuel api env ⟨r', []⟩ cs = .ok st) {waittime : Int32} (hw : waittime < 0) {c : LoopCall K}
    (hc : c = .forEachStart waittime ∨ ∃ out, c = .iterate waittime out)
    (hwait : c.exec fuel api env st = .ok st') {new : List (Obs O)} {timeout : Int32} {o : O}
    (hlog : st'.log = st.log ++ (new ++ [.wait timeout o])) (hrun' : loopRun fuel api env st' cs' = .ok st'') :
    ∃ h, loopHistory fuel api env st' cs' = .ok h ∧ Timed fuel env st' st'' h ∧ ∀ id, st'.timer.Listed id →
      (∀ id', st'.timer.Listed id' → (st'.timer.sl.node id).score ≤ (st'.timer.sl.node id').score) →
      (st'.timer.sl.node id).score.toNat - st'.timer.now.toNat < 2 ^ 31 →
      ∀ c ∈ executions h, st'.timer.now.toNat + timeout.toInt ≤ c.1.toNat → (∃ x ∈ historyActs h, x.Clears id) ∨
        ∃ c ∈ executions h, id ∈ c.2.map Firing.id ∨ c.2.length = 128 := by
  obtain ⟨h₀, -, HT₀⟩ := loopRun_timed hrun
  obtain ⟨A₀, -, H₀⟩ := (hr.rep hinit).execSteps_ok HT₀.run
  obtain ⟨h₁, -, hdoes⟩ := c.does hwait
  obtain ⟨A, -, H⟩ := H₀.execSteps_ok hdoes.timed.run
  obtain ⟨h, hhist, HT⟩ := loopRun_timed hrun'
  obtain ⟨tv, hnow, htimeout⟩ := LoopCall.exec_timeout hc hwait hlog
  refine ⟨h, hhist, HT, fun id hid hleast hnear c hmem hle => ?_⟩
  have hreach := deadline_le_timeout H hw hnow htimeout hid hleast hnear
  rcases HT.served H hid with hclear | hserved | hlt
  · exact .inl hclear
  · exact .inr hserved
  · have := UInt64.lt_iff_toNat_lt.1 (hlt c hmem)
    omega

/-- The wait has the timeout 5, and the next turn calls the timer. -/
theorem loop_wakes_timers_sleeping :
    ∃ r' st st' st'' h, epInit (epEpollInit · 3 false) rawSleeping = .ok (0, r') ∧
      loopRun 4 (epollApi sleepingKernel) sleepingEnv ⟨r', []⟩ (sleepingCalls.take 1) = .ok st ∧
      LoopCall.exec 4 (epollApi sleepingKernel) sleepingEnv st (.iterate (-1) ⟨none, none⟩) = .ok st' ∧
      st'.log = st.log ++ ([] ++ [.wait 5 (.batch [])]) ∧
      loopRun 4 (epollApi sleepingKernel) sleepingEnv st' (sleepingCalls.drop 2) = .ok st'' ∧
      loopHistory 4 (epollApi sleepingKernel) sleepingEnv st' (sleepingCalls.drop 2) = .ok h ∧
      executions h = [(5, [⟨0, 7, 0⟩]), (8, [⟨1, 8, 0⟩])] ∧ (historyActs h).map Act.action = [.settimeout false 3 8 0] ∧
      ∀ id, st'.timer.Listed id →
        (∀ id', st'.timer.Listed id' → (st'.timer.sl.node id).score ≤ (st'.timer.sl.node id').score) →
        (st'.timer.sl.node id).score.toNat - st'.timer.now.toNat < 2 ^ 31 →
        ∀ c ∈ executions h, st'.timer.now.toNat + (5 : Int32).toInt ≤ c.1.toNat →
          (∃ x ∈ historyActs h, x.Clears id) ∨ ∃ c ∈ executions h, id ∈ c.2.map Firing.id ∨ c.2.length = 128 := by
  obtain ⟨h, hhist, -, H⟩ := @loop_wakes_timers _ _ _ 4 (epollApi sleepingKernel) sleepingEnv
    (epEpollInit · 3 false) rawSleeping _ _ (sleepingCalls.take 1) (sleepingCalls.drop 2) _ _ _ rawSleeping_fresh
    rfl rfl (-1) (by decide) (.iterate (-1) ⟨none, none⟩) (.inr ⟨_, rfl⟩) rfl [] 5 (.batch []) rfl rfl
  refine ⟨_, _, _, _, h, rfl, rfl, rfl, rfl, rfl, hhist, ?_, ?_, H⟩
  all_goals
    cases hhist
    rfl

end

end Libep
