import Libep.Verify.Ep.Ticks
import Libep.Verify.Timer.Returns

/-!
# The loop returns

A turn ends, if what the tasks queue becomes less: the pass over the nexttick queue goes on with tasks that are
queued in it, and so does the pass over the everytick queue. The work that is left is the weight of the tasks that
are still to be called, and the budget of the world. With that, every run of a program within the contract has a
result.
-/

namespace Libep
open Filter

variable {P O K : Type}

section
variable (weight : Tick → Nat → Nat → Nat) (budget : Tick → K → Nat)

/-- What the tasks of a queue queue there gets less: a task has a weight, by its function and its argument, and
the world a budget. With no budget, a callback may queue tasks that weigh less than its own does, all together. -/
structure Subsides (api : PollApi P O K) (env : Env P K) : Prop where
  callback : ∀ q t (st : EpState P K),
    weigh weight q ((env.callback (.task q t) st).1.flatMap EpAction.ticks) +
      budget q (env.callback (.task q t) st).2 < weight q t.fn t.arg + budget q st.world
  clock : ∀ q k, budget q (env.gettimeofday k).2 ≤ budget q k
  call : ∀ q {c : PollCall} {ps k r}, c.exec api ps k = .ok r → budget q r.2.2 ≤ budget q k

end

section
variable {fuel : Nat} {api : PollApi P O K} {env : Env P K} {legal : P → PollCall → Prop}
  {Inv : P → Prop} {J : EpState P K → Prop} {weight : Tick → Nat → Nat → Nat} {budget : Tick → K → Nat}
  {b : Scheduler} {st st' : EpLoop P O K} {q : Tick} {t : TaskCall}

/-! ### The work that is left -/

theorem EpAction.exec_budget (S : Subsides weight budget api env) {a : EpAction}
    (h : a.exec fuel api env st = .ok st') : budget q st'.world ≤ budget q st.world := by
  cases a with
  | add fd events data =>
    obtain ⟨_, h, hst⟩ := Res.bind_eq_ok.1 h
    obtain ⟨_, hrun, h⟩ := Res.bind_eq_ok.1 h
    cases h
    cases hst
    exact S.call q (show (PollCall.add fd events data).exec api _ _ = _ from hrun)
  | mod fd events data =>
    obtain ⟨_, h, hst⟩ := Res.bind_eq_ok.1 h
    obtain ⟨_, hrun, h⟩ := Res.bind_eq_ok.1 h
    cases h
    cases hst
    exact S.call q (show (PollCall.mod fd events data).exec api _ _ = _ from hrun)
  | del fd =>
    obtain ⟨_, h, hst⟩ := Res.bind_eq_ok.1 h
    obtain ⟨_, hrun, h⟩ := Res.bind_eq_ok.1 h
    cases h
    cases hst
    exact S.call q (show (PollCall.del fd).exec api _ _ = _ from hrun)
  | settimeout | setinterval =>
    obtain ⟨_, h, hst⟩ := Res.bind_eq_ok.1 h
    obtain ⟨_, -, h⟩ := Res.bind_eq_ok.1 h
    cases h
    cases hst
    exact S.clock q _
  | nexttick | everytick =>
    obtain ⟨_, h, hst⟩ := Res.bind_eq_ok.1 h
    obtain ⟨_, -, h⟩ := Res.bind_eq_ok.1 h
    cases h
    cases hst
    exact Nat.le_refl _
  | cleartimeout | clearinterval | cleartask =>
    obtain ⟨_, -, h⟩ := Res.bind_eq_ok.1 h
    cases h
    exact Nat.le_refl _

theorem execActions_budget (S : Subsides weight budget api env) {as : List EpAction}
    (h : execActions fuel api env st as = .ok st') : budget q st'.world ≤ budget q st.world := by
  induction as generalizing st with
  | nil =>
    cases h
    exact Nat.le_refl _
  | cons a as ih =>
    obtain ⟨st₁, ha, h⟩ := Res.bind_eq_ok.1 h
    exact Nat.le_trans (ih h) (a.exec_budget S ha)

/-- A callback of a task leaves less to do in its queue than there was with it. -/
theorem runCallback_subsides (S : Subsides weight budget api env) (H : st.tasks.Scheduled b)
    (h : runCallback fuel api env st (.task q t) = .ok st') (n : Nat) :
    ∃ b', st'.tasks.Scheduled b' ∧ b.Edited b' ∧
      b'.load weight q n + budget q st'.world <
        b.load weight q n + weight q t.fn t.arg + budget q st.world := by
  obtain ⟨b', T, E, hticks⟩ := runCallback_ticked h H st'
  have hload : b'.load weight q n ≤ b.load weight q n + weigh weight q (queuings _) := Scheduler.load_run T.run
  rw [hticks] at hload
  have hbudget : budget q st'.world ≤ budget q (env.callback (.task q t) st.toEpState).2 :=
    execActions_budget S h
  have := S.callback q t st.toEpState
  exact ⟨b', T.tasks, E, by omega⟩

/-! ### Callbacks -/

variable {out : List Nat} {es : List Alarm} {spared : Nat → Prop} {s : Tasks Tick} {L : Tick → List Nat}

theorem EpAction.exec_cut {a : EpAction} {fuel' : Nat} (h : fuel ≤ fuel') :
    CutShort .fuel (a.exec fuel api env st) (a.exec fuel' api env st) := by
  cases a with
  | settimeout | setinterval =>
    exact ((timerRun_cut h).bind fun _ => .refl _ _).bind fun _ => .refl _ _
  | cleartimeout | clearinterval => exact (epTimerClear_cut h).bind fun _ => .refl _ _
  | _ => exact .refl _ _

/-- A legal call returns. -/
theorem EpAction.exec_returns (C : api.Safe legal Inv) {a : EpAction}
    (H : Served (· = .fuel) Inv out es spared s L st.toEpState) (ha : a.Legal legal spared st.toEpState) :
    Settles atTop fun n => a.exec n api env st := by
  obtain ⟨⟨L', HL, -⟩, ⟨A, HA, -⟩, hI⟩ := H
  -- the clock is read before a timer is started
  have timed : ∀ (op : TimerOp) (tv : Timeval), op.Legal (epTimerUpdatetime st.timer tv) →
      ∃ n t, op.exec n (epTimerUpdatetime st.timer tv) = .ok t := fun op tv hop => by
    have H : (epTimerUpdatetime st.timer tv).Rep { A with now := tv.ms } es :=
      HA.exec (.updatetime tv) (Nat.lt_succ_self (A.brk + 1))
    obtain ⟨t, ht⟩ := H.exec_returns op hop
    obtain ⟨n, hn⟩ := ht.exists
    exact ⟨n, t, hn⟩
  have pushed : ∀ q oom fn arg, ∃ r, epTaskQueuePush st.tasks q oom fn arg = .ok r := fun q oom fn arg => by
    obtain ⟨ret, s', L'', hpush, -⟩ := HL.push q oom fn arg
    exact ⟨_, hpush⟩
  obtain ⟨n, st', h⟩ : ∃ n st', a.exec n api env st = .ok st' := by
    cases a with
    | add fd events data =>
      obtain ⟨r, hr, -⟩ := C.call (k := st.world) hI ha
      exact ⟨0, _, Res.bind_eq_ok.2 ⟨_, Res.bind_eq_ok.2 ⟨r, hr, rfl⟩, rfl⟩⟩
    | mod fd events data =>
      obtain ⟨r, hr, -⟩ := C.call (k := st.world) hI ha
      exact ⟨0, _, Res.bind_eq_ok.2 ⟨_, Res.bind_eq_ok.2 ⟨r, hr, rfl⟩, rfl⟩⟩
    | del fd =>
      obtain ⟨r, hr, -⟩ := C.call (k := st.world) hI ha
      exact ⟨0, _, Res.bind_eq_ok.2 ⟨_, Res.bind_eq_ok.2 ⟨r, hr, rfl⟩, rfl⟩⟩
    | settimeout oom ms cb arg =>
      obtain ⟨n, t, ht⟩ := timed (.runAfter oom ms cb arg) (env.gettimeofday st.world).1 trivial
      obtain ⟨r, hr, -⟩ := Res.bind_eq_ok.1 ht
      exact ⟨n, _, Res.bind_eq_ok.2 ⟨_, Res.bind_eq_ok.2 ⟨r, hr, rfl⟩, rfl⟩⟩
    | setinterval oom ms cb arg =>
      obtain ⟨n, t, ht⟩ := timed (.runEvery oom ms cb arg) (env.gettimeofday st.world).1 trivial
      obtain ⟨r, hr, -⟩ := Res.bind_eq_ok.1 ht
      exact ⟨n, _, Res.bind_eq_ok.2 ⟨_, Res.bind_eq_ok.2 ⟨r, hr, rfl⟩, rfl⟩⟩
    | cleartimeout id | clearinterval id =>
      obtain ⟨t, ht⟩ := HA.exec_returns (.clear id) ha
      obtain ⟨n, hn⟩ := ht.exists
      exact ⟨n, _, Res.bind_eq_ok.2 ⟨t, hn, rfl⟩⟩
    | nexttick oom cb arg =>
      obtain ⟨r, hr⟩ := pushed .nexttick oom cb arg
      exact ⟨0, _, Res.bind_eq_ok.2 ⟨_, Res.bind_eq_ok.2 ⟨r, hr, rfl⟩, rfl⟩⟩
    | everytick oom cb arg =>
      obtain ⟨r, hr⟩ := pushed .everytick oom cb arg
      exact ⟨0, _, Res.bind_eq_ok.2 ⟨_, Res.bind_eq_ok.2 ⟨r, hr, rfl⟩, rfl⟩⟩
    | cleartask id =>
      obtain ⟨⟨q, hq⟩, -⟩ := ha
      obtain ⟨s', L'', hcancel, -⟩ := HL.cancel (HL.toRep.queued.1 hq)
      exact ⟨0, _, Res.bind_eq_ok.2 ⟨s', hcancel, rfl⟩⟩
  exact .of_cutShort exec_cut h

theorem execActions_returns (C : ∀ n, Contract n api env legal Inv J) {as : List EpAction} (Hs : s.Rep L)
    (H : Served (· = .fuel) Inv out es spared s L st.toEpState)
    (has : ∀ᶠ n in atTop, LegalActions n api env legal spared st as) :
    Settles atTop fun n => execActions n api env st as := by
  induction as generalizing st with
  | nil => exact .of_eq rfl
  | cons a as ih =>
    obtain ⟨n, ha, -⟩ := has.exists
    refine (a.exec_returns (C n).toSafe H ha).bind fun st' hrun => ih ?_ ?_
    · obtain ⟨n, hrun⟩ := hrun.exists
      exact (a.exec_ends (C n).contractFor Hs H (.inr ha)).result hrun
    · filter_upwards [has, hrun] with n has hrun
      exact has.2 st' hrun

/-- A callback returns. -/
theorem runCallback_returns (C : ∀ n, Contract n api env legal Inv J) (st : EpLoop P O K) {c : EpCall}
    (H : st.tasks.Held L out) (Ht : ∃ A, st.timer.Rep A es ∧ ∀ e ∈ es, A.live e.id) (hI : Inv st.ps)
    (hJ : J st.toEpState) : Settles atTop fun n => runCallback n api env st c := by
  obtain ⟨A, HA, hes⟩ := Ht
  let st₁ : EpLoop P O K := { st with world := (env.callback c st.toEpState).2, log := st.log ++ [.call c] }
  have Hs : Served (· = .fuel) Inv out es (c.Spares st.tasks) st.tasks L st₁.toEpState :=
    .refl st₁ H ⟨A, HA, .inr hes⟩ hI
  exact execActions_returns C H.toRep Hs (.of_forall fun n => ((C n).callback ⟨⟨L, H⟩, A, HA, hes⟩ hI hJ).1)

/-! ### The passes over the queues -/

variable {w : EpLoop P O K} {pos n : Option (TaskRef Tick)}

theorem taskCall_returns (C : ∀ n, Contract n api env legal Inv J) {c : TaskCall} (H : s.Held L out)
    (hI : BesideTasks Inv J (s, w)) : Settles atTop fun n => taskCall n api env q c (s, w) := by
  obtain ⟨⟨A, HA⟩, hI, hJ⟩ := hI
  exact (runCallback_returns C { w with tasks := s } H ⟨A, HA, by simp⟩ hI hJ).bind fun _ _ => .of_eq rfl

theorem Scheduler.NexttickAt.exists_next (hpos : b.NexttickAt pos) (H : s.Scheduled b) :
    ∃ n, s.list.getNext pos = .ok n := by
  rcases hpos with ⟨t, l, hL, -, rfl⟩ | ⟨-, rfl⟩
  · have hids : (b.queue .nexttick).map TaskCall.id = [] ++ t.id :: l.map TaskCall.id := by simp [hL]
    exact ⟨_, H.held.toRep.next_task hids⟩
  · exact ⟨_, H.held.toRep.next_head .nexttick⟩

/-- Each call of the pass leaves less work than there was. -/
theorem runLoop_returns (C : ∀ n, Contract n api env legal Inv J) (S : Subsides weight budget api env)
    {v : Nat} (hv : b.load weight .nexttick 0 + budget .nexttick w.world < v) (H : s.Scheduled b)
    (hrunning : b.running = none) (hI : BesideTasks Inv J (s, w)) (hpos : b.NexttickAt pos)
    (hn : s.list.getNext pos = .ok n) :
    Settles (atTop ×ˢ atTop) fun p : ℕ × ℕ =>
      runLoop .nexttick (taskCall p.1 api env .nexttick) p.2 (s, w) pos n := by
  induction v generalizing s w b pos n with
  | zero => exact absurd hv (Nat.not_lt_zero _)
  | succ v ih =>
    refine .of_succ ?_
    rcases hpos with ⟨t, l, hL, hphase, rfl⟩ | ⟨hphase, rfl⟩
    · obtain ⟨m, b₁, hdel, hcb, hstep₁, H₁, hL₁, hrunning₁, hphase₁⟩ := H.take hrunning hphase hL
      have hids : (b.queue .nexttick).map TaskCall.id = [] ++ t.id :: l.map TaskCall.id := by simp [hL]
      have hheld := H.held
      rw [hrunning] at hheld
      have hheld₁ := H₁.held
      rw [hrunning₁] at hheld₁
      have hI₁ := (nexttick_serves (C 0).contractFor).unlink hheld hids hdel hI
      rw [hheld.toRep.next_task hids] at hn
      cases hn
      simp only [runLoop, hdel, taskEntry, Res.ok_bind, hcb]
      refine ((taskCall_returns C hheld₁ hI₁).comp tendsto_fst).bind ?_
      rintro ⟨s₂, w₂⟩ hcall
      obtain ⟨p, hcall⟩ := hcall.exists
      obtain ⟨hI₂, L₂, hheld₂, -, hspare⟩ := ((nexttick_serves (C p.1).contractFor).call hheld₁ hI₁).result hcall
      obtain ⟨_, hrun, hst⟩ := Res.bind_eq_ok.1 hcall
      cases hst
      obtain ⟨b₂, H₂, E₂, hless⟩ := runCallback_subsides S H₁ hrun 0
      obtain ⟨s₃, hfree, -, H₃⟩ := H₂.finish (E₂.running.trans hrunning₁)
      have hphase₂ := E₂.phase.trans hphase₁
      have hpos : Scheduler.NexttickAt { b₂ with running := none, freed := b₂.freed ++ [t.id] }
          (some (((l.map TaskCall.id).map .task).headD (.head .nexttick))) := by
        cases l with
        | nil => exact .inr ⟨hphase₂, rfl⟩
        | cons u l =>
          have hu : w₂.tasks.list.live (.task u.id) := hspare.resolve_left (by simp) u.id (by simp [hL₁])
          have hne : b₂.running ≠ some u.id := by
            have hsorted := H.ordered.sorted .nexttick
            rw [hL] at hsorted
            have : t.id < u.id := List.rel_of_pairwise_cons hsorted List.mem_cons_self
            rw [E₂.running, hrunning₁]
            simpa using this.ne
          obtain ⟨u', l', hL', hid⟩ := H₂.first_of_live H₁.ordered E₂.mem hne hL₁ hu
          exact .inl ⟨u', l', hL', hphase₂, by rw [hid]; rfl⟩
      obtain ⟨n, hn⟩ := hpos.exists_next H₃
      simp only [hfree, Res.ok_bind, hn]
      refine ih ?_ H₃ rfl ((nexttick_serves (C 0).contractFor).free hheld₂ hfree hI₂) hpos hn
      have hload : b.load weight .nexttick 0 = weight .nexttick t.fn t.arg + b₁.load weight .nexttick 0 :=
        Scheduler.load_of_cons (t := t) (l := l) (by simp [hL]) (by simp [hL₁])
      replace hless : b₂.load weight .nexttick 0 + budget .nexttick w₂.world <
        b₁.load weight .nexttick 0 + weight .nexttick t.fn t.arg + budget .nexttick w.world := hless
      show b₂.load weight .nexttick 0 + budget .nexttick w₂.world < v
      omega
    · exact .of_eq rfl

theorem epRunNexttick_returns (C : ∀ n, Contract n api env legal Inv J) (S : Subsides weight budget api env)
    (Hs : st.tasks.Scheduled b) (hb : b.Idle) (H : st.toEpState.Sound Inv J) :
    Settles atTop fun n => epRunNexttick n api env st := by
  have hstep : b.step .turn = some _ := if_pos hb
  obtain ⟨n, hn⟩ := b.nexttickAt_turn.exists_next (Hs.of_phase hstep)
  refine Settles.bind ?_ fun _ _ => .of_eq rfl
  simp only [epTaskQueueRun, Hs.held.toRep.next_head .nexttick, hn, Res.ok_bind]
  exact (runLoop_returns C S (Nat.lt_succ_self _) (Hs.of_phase hstep) hb.1 ⟨H.timer, H.engine, H.program⟩
    b.nexttickAt_turn hn).diag

theorem runKeepLoop_returns (C : ∀ n, Contract n api env legal Inv J) (S : Subsides weight budget api env)
    {v m : Nat} (hv : b.load weight .everytick m + budget .everytick w.world < v) (H : s.Scheduled b)
    (hrunning : b.running = none) (hI : BesideTasks Inv J (s, w)) (hm : m ∈ b.phase.start)
    (hpos : pos = some ((((b.rest m).map TaskCall.id).map .task).headD (.head .everytick))) :
    Settles (atTop ×ˢ atTop) fun p : ℕ × ℕ =>
      runKeepLoop .everytick (taskCall p.1 api env .everytick) p.2 (s, w) pos := by
  induction v generalizing s w b pos m with
  | zero => exact absurd hv (Nat.not_lt_zero _)
  | succ v ih =>
    refine .of_succ ?_
    cases hrest : b.rest m with
    | nil =>
      rw [hrest] at hpos
      obtain rfl : pos = some (.head .everytick) := hpos
      exact .of_eq rfl
    | cons t l =>
      rw [hrest] at hpos
      have ht : t ∈ b.queue .everytick := List.mem_of_mem_filter (hrest ▸ List.mem_cons_self)
      have hid : t.id ∈ (b.queue .everytick).map TaskCall.id := List.mem_map_of_mem ht
      have hcb : s.call t.id = .ok t := by rw [Tasks.call, if_pos (H.held.live .everytick _ hid), H.cb _ t ht]
      obtain rfl : pos = some (.task t.id) := hpos
      have hheld := H.held
      rw [hrunning] at hheld
      have hstep : b.step (.call .everytick t) = some _ := if_pos ⟨hrunning, m, hm, by rw [hrest]; rfl⟩
      have H₁ := H.of_phase hstep
      simp only [runKeepLoop, taskEntry, Res.ok_bind, hcb]
      refine ((taskCall_returns C hheld hI).comp tendsto_fst).bind ?_
      rintro ⟨s₂, w₂⟩ hcall
      obtain ⟨p, hcall⟩ := hcall.exists
      obtain ⟨hI₂, L₂, hheld₂, -, hlive⟩ :=
        ((everytick_serves (C p.1).contractFor).call (c := t) hheld hid hI).result hcall
      obtain ⟨_, hrun, hst⟩ := Res.bind_eq_ok.1 hcall
      cases hst
      obtain ⟨b₂, H₂, E₂, hless⟩ := runCallback_subsides S H₁ hrun (t.id + 1)
      have hrunning₂ : b₂.running = none := E₂.running.trans hrunning
      obtain ⟨v', hv', hid'⟩ := H₂.mem_of_live H₁.ordered E₂.mem (by simp [hrunning₂]) ht
        (hlive.resolve_left (by simp))
      obtain ⟨l₁, l₂, hL⟩ := List.append_of_mem hv'
      have hids : (b₂.queue .everytick).map TaskCall.id = l₁.map TaskCall.id ++ v'.id :: l₂.map TaskCall.id := by
        simp [hL]
      have hn := H₂.held.toRep.next_task hids
      rw [hid'] at hn
      simp only [hn, Res.ok_bind]
      have hrest₂ := H₂.ordered.rest_succ hL
      rw [hid'] at hrest₂
      refine ih ?_ H₂ hrunning₂ hI₂ (m := t.id + 1) (by rw [E₂.phase]; rfl) (by rw [hrest₂])
      have hload : b.load weight .everytick m =
          weight .everytick t.fn t.arg + b.load weight .everytick (t.id + 1) :=
        Scheduler.load_of_cons hrest (H.ordered.rest_of_cons hrest)
      replace hless : b₂.load weight .everytick (t.id + 1) + budget .everytick w₂.world <
        b.load weight .everytick (t.id + 1) + weight .everytick t.fn t.arg + budget .everytick w.world := hless
      omega

theorem epRunEverytick_returns (C : ∀ n, Contract n api env legal Inv J) (S : Subsides weight budget api env)
    (Hs : st.tasks.Scheduled b) (hrunning : b.running = none) (hphase : b.phase = .nexttick false)
    (H : st.toEpState.Sound Inv J) : Settles atTop fun n => epRunEverytick n api env st := by
  have hm : 0 ∈ b.phase.start := by
    rw [hphase]
    rfl
  refine Settles.bind ?_ fun _ _ => .of_eq rfl
  simp only [epTaskQueueRunKeep, Hs.held.toRep.next_head .everytick, Res.ok_bind]
  exact (runKeepLoop_returns C S (Nat.lt_succ_self _) Hs hrunning ⟨H.timer, H.engine, H.program⟩ hm
    (by rw [b.rest_zero])).diag

/-! ### A turn -/

theorem timerCall_returns (C : ∀ n, Contract n api env legal Inv J) {t : Timer} {A : Alarms} {f : Firing}
    (HA : t.Rep A es) (hes : ∀ e ∈ es, A.live e.id) (hI : BesideTimer Inv J (t, w)) :
    Settles atTop fun n => timerCall n api env f (t, w) := by
  obtain ⟨⟨L, H⟩, hI, hJ⟩ := hI
  exact (runCallback_returns C { w with timer := t } H ⟨A, HA, hes⟩ hI hJ).bind fun _ _ => .of_eq rfl

theorem epExecuteTimers_returns (C : ∀ n, Contract n api env legal Inv J) (H : st.toEpState.Sound Inv J) :
    Settles atTop fun n => epExecuteTimers n api env st := by
  obtain ⟨A, HA⟩ := H.timer
  have hI : BesideTimer Inv J (st.timer, { st with world := (env.gettimeofday st.world).2 }) :=
    ⟨H.tasks, H.engine, (C 0).clock H.inOrder H.program⟩
  exact (epTimerExecuteNow_returns (fun n => timers_serve (C n).contractFor) (timerCall_returns C) HA hI).bind
    fun _ _ => .of_eq rfl

variable {ι : Type} {l : Filter ι} {waittime : Int32}

theorem epWait_returns (C : api.Safe legal Inv) (H : st.toEpState.Sound Inv J) :
    Settles l fun _ => epWait api env st waittime := by
  obtain ⟨A, HA⟩ := H.timer
  obtain ⟨timeout, hw⟩ := exists_epWaittime HA (env.gettimeofday st.world).1 waittime
  obtain ⟨r, hr, -⟩ : ∃ r, api.wait st.ps (env.gettimeofday st.world).2 timeout = .ok r ∧ Inv r.2.2.1 :=
    C.wait H.engine
  exact .of_eq (Res.bind_eq_ok.2 ⟨_, hw, Res.bind_eq_ok.2 ⟨r, hr, rfl⟩⟩)

theorem epBeforeWait_returns (C : ∀ n, Contract n api env legal Inv J) (S : Subsides weight budget api env)
    (Hs : st.tasks.Scheduled b) (hb : b.Idle) (H : st.toEpState.Sound Inv J) :
    Settles atTop fun n => epBeforeWait n api env st := by
  refine (epRunNexttick_returns C S Hs hb H).bind fun st₁ h₁ => ?_
  obtain ⟨n, h₁⟩ := h₁.exists
  obtain ⟨notes, hnotes⟩ := exists_notedNexttick (CallHistory.note n api env) [] h₁
  obtain ⟨b₁, T₁, hrunning₁, hphase₁⟩ := notedNexttick_ticked Hs hb.1 hb.2 hnotes
  have H₁ := (epRunNexttick_ends (C n).contractFor H).result h₁
  refine (epRunEverytick_returns C S T₁.tasks hrunning₁ hphase₁ H₁).bind fun st₂ h₂ => ?_
  obtain ⟨n, h₂⟩ := h₂.exists
  exact epExecuteTimers_returns C ((epRunEverytick_ends (C n).contractFor H₁).result h₂)

theorem epTurn_returns (C : ∀ n, Contract n api env legal Inv J) (S : Subsides weight budget api env)
    (Hs : st.tasks.Scheduled b) (hb : b.Idle) (H : st.toEpState.Sound Inv J) :
    Settles atTop fun n => epTurn n api env st waittime := by
  refine (epBeforeWait_returns C S Hs hb H).bind fun st₁ h₁ => ?_
  obtain ⟨n, h₁⟩ := h₁.exists
  exact epWait_returns (C n).toSafe ((epBeforeWait_ends (C n).contractFor H).result h₁)

theorem epFetch_returns (C : api.Safe legal Inv) {o : Out} (hI : Inv st.ps) :
    Settles l fun _ => epFetch api st o := by
  obtain ⟨r, hr, -⟩ : ∃ r, api.fetch st.ps o = .ok r ∧ Inv r.2.1 := C.fetch hI
  exact .of_eq (Res.bind_eq_ok.2 ⟨r, hr, rfl⟩)

theorem epIterate_returns (C : ∀ n, Contract n api env legal Inv J) (S : Subsides weight budget api env)
    (Hs : st.tasks.Scheduled b) (hb : b.Idle) (H : st.toEpState.Sound Inv J) {o : Out} :
    Settles atTop fun n => epIterate n api env st waittime o := by
  refine (epFetch_returns (C 0).toSafe H.engine).bind ?_
  rintro ⟨ret, o₁, st₁⟩ hfetch
  obtain ⟨_, hfetch⟩ := hfetch.exists
  have H₁ := (epFetch_ends (C 0).contractFor H).result hfetch
  dsimp only
  split
  · refine (epTurn_returns C S (epFetch_tasks hfetch ▸ Hs) hb H₁).bind ?_
    rintro ⟨ret, st₂⟩ hturn
    obtain ⟨n, hturn⟩ := hturn.exists
    have H₂ := (epTurn_ends (C n).contractFor H₁).result hturn
    dsimp only
    split
    · exact (epFetch_returns (C 0).toSafe H₂.engine).bind fun _ _ => .of_eq rfl
    · exact .of_eq rfl
  · exact .of_eq rfl

/-! ### Runs -/

theorem LoopCall.exec_returns (C : ∀ n, Contract n api env legal Inv J) (S : Subsides weight budget api env)
    (Hs : st.tasks.Scheduled b) (hb : b.Idle) (H : st.toEpState.Sound Inv J) {c : LoopCall K}
    (hc : ∀ᶠ n in atTop, LegalProgram n api env legal J st [c]) :
    Settles atTop fun n => c.exec n api env st := by
  cases c with
  | iterate waittime o => exact (epIterate_returns C S Hs hb H).bind fun _ _ => .of_eq rfl
  | forEachStart waittime => exact (epTurn_returns C S Hs hb H).bind fun _ _ => .of_eq rfl
  | fetch o => exact (epFetch_returns (C 0).toSafe H.engine).bind fun _ _ => .of_eq rfl
  | action a =>
    obtain ⟨n, ha, -⟩ := hc.exists
    obtain ⟨⟨L, HL⟩, ⟨A, HA⟩, hI, -⟩ := H
    have Hs : Served (· = .fuel) Inv [] [] (fun _ => False) st.tasks L st.toEpState :=
      .refl st HL ⟨A, HA, .inr (by simp)⟩ hI
    exact a.exec_returns (C 0).toSafe Hs ha
  | other f => exact .of_eq rfl

theorem LegalProgram.cons {c : LoopCall K} {cs : List (LoopCall K)}
    (h : LegalProgram fuel api env legal J st (c :: cs)) : LegalProgram fuel api env legal J st [c] ∧
      ∀ st', c.exec fuel api env st = .ok st' → LegalProgram fuel api env legal J st' cs := by
  cases c with
  | action a => exact ⟨⟨h.1, fun st' hrun => ⟨(h.2 st' hrun).1, trivial⟩⟩, fun st' hrun => (h.2 st' hrun).2⟩
  | other f =>
    refine ⟨⟨h.1, trivial⟩, fun st' hrun => ?_⟩
    cases hrun
    exact h.2
  | iterate | forEachStart | fetch => exact ⟨fun _ _ => trivial, h⟩

theorem loopRun_returns (C : ∀ n, Contract n api env legal Inv J) (S : Subsides weight budget api env)
    {cs : List (LoopCall K)} (Hs : st.tasks.Scheduled b) (hb : b.Idle) (H : st.toEpState.Sound Inv J)
    (hcs : ∀ᶠ n in atTop, LegalProgram n api env legal J st cs) :
    Settles atTop fun n => loopRun n api env st cs := by
  induction cs generalizing st b with
  | nil => exact .of_eq rfl
  | cons c cs ih =>
    have hcs := hcs.mono fun n h => h.cons
    refine (c.exec_returns C S Hs hb H (hcs.mono fun n h => h.1)).bind fun st₁ hrun => ?_
    obtain ⟨n, hlegal, hrun₁⟩ := (hcs.and hrun).exists
    obtain ⟨_, -, hdoes⟩ := c.does hrun₁
    obtain ⟨b₁, T, hb₁⟩ := hdoes.ticked Hs hb
    have hone : loopRun n api env st [c] = .ok st₁ := Res.bind_eq_ok.2 ⟨st₁, hrun₁, rfl⟩
    refine ih T.tasks hb₁ ((loopRun_ends (C n).contractFor H (.inr hlegal.1)).result hone) ?_
    filter_upwards [hcs, hrun] with n hlegal hrun
    exact hlegal.2 st₁ hrun

end

/-- **Programs return.** If a program keeps the contract, and the work of its tasks gets less, each run of it from
`ep_init` on has a result, which is the same for all bounds on the loops that are large enough. So has `ep_fini`
after it. -/
theorem loop_returns {api : PollApi P O K} {env : Env P K} {legal : P → PollCall → Prop} {Inv : P → Prop}
    {J : EpState P K → Prop} {weight : Tick → Nat → Nat → Nat} {budget : Tick → K → Nat} {init : P → Int × P}
    {r r' : EpState P K} {n : Int} {cs : List (LoopCall K)} (C : ∀ fuel, Contract fuel api env legal Inv J)
    (S : Subsides weight budget api env) (hr : r.Fresh) (hinit : epInit init r = .ok (n, r')) (hI : Inv r'.ps)
    (hJ : J r') (hcs : ∀ᶠ fuel in atTop, LegalProgram fuel api env legal J ⟨r', []⟩ cs) :
    ∃ st', (∀ᶠ fuel in atTop, loopRun fuel api env ⟨r', []⟩ cs = .ok st') ∧
      ∀ fini : P → K → P × K, ∀ᶠ fuel in atTop, ∃ r'', epFini fini fuel st'.toEpState = .ok (0, r'') := by
  have H : r'.Sound Inv J := hr.sound hinit hI hJ
  obtain ⟨st', hrun⟩ : Settles atTop fun fuel => loopRun fuel api env ⟨r', []⟩ cs :=
    loopRun_returns C S (hr.scheduled hinit) ⟨rfl, rfl⟩ H hcs
  refine ⟨st', hrun, fun fini => ?_⟩
  obtain ⟨fuel, hrun, hlegal⟩ := (hrun.and hcs).exists
  filter_upwards [((loopRun_ends (C fuel).contractFor H (.inr hlegal)).result hrun).fini fini] with fuel' hfini
  obtain ⟨r'', h, -⟩ := hfini
  exact ⟨r'', h⟩

/-- `ep_nexttick` or `ep_everytick`, with memory for the task. -/
def Tick.push (fn arg : Nat) : Tick → EpAction
  | .nexttick => .nexttick false fn arg
  | .everytick => .everytick false fn arg

/-- A program that only queues tasks keeps the contract, if the engine does. -/
theorem pushing_contract {fuel : Nat} {api : PollApi P O K} {env : Env P K} {legal : P → PollCall → Prop}
    {Inv : P → Prop} (hapi : api.Safe legal Inv)
    (h : ∀ c st, ∀ a ∈ (env.callback c st).1, ∃ q fn arg, a = Tick.push fn arg q) :
    Contract fuel api env legal Inv fun _ => True where
  toSafe := hapi
  callback {st c out es} _ _ _ := by
    refine ⟨?_, fun _ _ => trivial⟩
    rw [LegalCallback]
    generalize ({ st with world := _, log := _ } : EpLoop P O K) = st₁
    have has := h c st.toEpState
    generalize (env.callback c st.toEpState).1 = as at has ⊢
    induction as generalizing st₁ with
    | nil => trivial
    | cons a as ih =>
      refine ⟨?_, fun st₂ _ => ih st₂ fun a ha => has a (List.mem_cons_of_mem _ ha)⟩
      obtain ⟨q, fn, arg, rfl⟩ := has a List.mem_cons_self
      cases q <;> trivial
  clock _ _ := trivial
  updatetime _ _ := trivial
  extract _ _ _ := trivial
  finish _ _ _ := trivial
  unlink _ _ _ _ := trivial
  free _ _ _ := trivial
  waited _ _ _ := trivial
  fetched _ _ _ := trivial

/-- A nexttick task queues one with the argument before its own, an everytick task one with its argument. -/
def countdownEnv : Env EpollState (List WaitOutcome) where
  gettimeofday k := (⟨0, 0⟩, k)
  callback c st :=
    match c with
    | .task .nexttick ⟨_, fn, arg + 1⟩ => ([.nexttick false fn arg], st.world)
    | .task .everytick t => ([.nexttick false t.fn t.arg], st.world)
    | _ => ([], st.world)

theorem countdown_contract (fuel : Nat) :
    Contract fuel (epollApi scriptedKernel) countdownEnv (fun _ _ => True) EpollState.InBounds fun _ => True := by
  refine pushing_contract (epoll_safe scriptedKernel) fun c st a ha => ?_
  simp only [countdownEnv] at ha
  split at ha
  · exact ⟨.nexttick, _, _, List.mem_singleton.1 ha⟩
  · exact ⟨.nexttick, _, _, List.mem_singleton.1 ha⟩
  · cases ha

/-- The tasks that a task leads to in its own queue, with itself. -/
def countdownWeight : Tick → Nat → Nat → Nat
  | .nexttick, _, arg => arg + 1
  | .everytick, _, _ => 1

theorem countdown_subsides : Subsides countdownWeight (fun _ _ => 0) (epollApi scriptedKernel) countdownEnv where
  callback q t st := by
    obtain ⟨id, fn, arg⟩ := t
    cases q with
    | nexttick =>
      cases arg with
      | zero => exact Nat.zero_lt_one
      | succ arg => exact Nat.lt_succ_self (arg + 1)
    | everytick => exact Nat.zero_lt_one
  clock _ _ := Nat.le_refl _
  call _ _ _ _ _ _ := Nat.le_refl _

def countdownCalls : List (LoopCall (List WaitOutcome)) :=
  [.action (.nexttick false 2 2), .action (.everytick false 3 1), .forEachStart (-1), .forEachStart (-1)]

theorem loop_returns_countdown :
    ∃ r' st st', epInit (epEpollInit · 3 false) (rawLoop []) = .ok (0, r') ∧
      loopRun 5 (epollApi scriptedKernel) countdownEnv ⟨r', []⟩ countdownCalls = .ok st ∧
      (tickCalls .nexttick (tickTrace st.log)).map TaskCall.arg = [2, 1, 1, 0, 0] ∧
      (∀ᶠ fuel in atTop, loopRun fuel (epollApi scriptedKernel) countdownEnv ⟨r', []⟩ countdownCalls = .ok st') ∧
      ∀ᶠ fuel in atTop, ∃ r'', epFini (fun ps k => (ps, k)) fuel st'.toEpState = .ok (0, r'') := by
  obtain ⟨st', hrun, hfini⟩ := @loop_returns EpollState WaitOutcome (List WaitOutcome) (epollApi scriptedKernel)
    countdownEnv (fun _ _ => True) EpollState.InBounds (fun _ => True) countdownWeight (fun _ _ => 0)
    (epEpollInit · 3 false) (rawLoop []) _ _ countdownCalls countdown_contract countdown_subsides (rawLoop_fresh _)
    rfl (by simp [EpollState.InBounds]) trivial
    (.of_forall fun fuel => ⟨trivial, fun _ _ => ⟨trivial, trivial, fun _ _ => ⟨trivial, fun _ _ _ _ => trivial⟩⟩⟩)
  exact ⟨_, _, st', rfl, rfl, rfl, hrun, hfini _⟩

end Libep
