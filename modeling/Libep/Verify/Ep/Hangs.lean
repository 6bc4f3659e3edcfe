import Libep.Verify.Ep.Returns

/-!
# Turns that do not end

A turn calls tasks that are queued in it, so a program can keep it going: with an everytick task that queues
another one each time, or with two nexttick tasks. One nexttick task does not: its pass ends with the task that was
the last one when it was taken out.
-/

namespace Libep
open Filter

variable {P O K : Type}

/-- Whatever else a callback of the queue does, in the end it queues a task there. -/
def Requeues (env : Env P K) (q : Tick) : Prop :=
  ∀ t (st : EpState P K), ∃ as fn arg, (env.callback (.task q t) st).1 = as ++ [q.push fn arg]

/-- What a turn has to find, for its pass over a queue not to end. A nexttick task could cancel an everytick task
before it is called. -/
def Tasks.Busy (s : Tasks Tick) : Tick → Prop
  | .nexttick => ∃ a a', a ≠ a' ∧ s.Queued .nexttick a ∧ s.Queued .nexttick a'
  | .everytick => (∃ a, s.Queued .everytick a) ∧ ∀ a, ¬s.Queued .nexttick a

section
variable {fuel k : Nat} {api : PollApi P O K} {env : Env P K} {st st' : EpLoop P O K} {b : Scheduler}
  {s : Tasks Tick} {w : EpLoop P O K} {r : Tasks Tick × EpLoop P O K} {pos n : Option (TaskRef Tick)} {q : Tick}
  {t u : TaskCall} {l : List TaskCall} {as as' : List EpAction}

theorem execActions_append : execActions fuel api env st (as ++ as') =
    execActions fuel api env st as >>= fun st => execActions fuel api env st as' := by
  induction as generalizing st with
  | nil => rfl
  | cons a as ih =>
    rw [List.cons_append, execActions, execActions]
    cases a.exec fuel api env st with
    | ok st₁ => exact ih
    | error e => rfl

theorem Tick.exec_push {fn arg : Nat} (H : st.tasks.Scheduled b)
    (h : (q.push fn arg).exec fuel api env st = .ok st') :
    ∃ b', st'.tasks.Scheduled b' ∧ b.Edited b' ∧ ⟨b.next, fn, arg⟩ ∈ b'.queue q := by
  obtain ⟨s', b', hrun, hstep, H', E⟩ := H.push q fn arg
  have hst : st'.tasks = s' := by
    cases q with
    | nexttick | everytick =>
      obtain ⟨_, h, hst⟩ := Res.bind_eq_ok.1 h
      obtain ⟨r, hpush, h⟩ := Res.bind_eq_ok.1 h
      cases h
      cases hst
      cases hrun.symm.trans hpush
      rfl
  refine ⟨b', hst ▸ H', E, ?_⟩
  obtain ⟨-, hstep⟩ := Option.ite_none_right_eq_some.1 hstep
  cases hstep
  exact mem_update_append.2 (.inr ⟨rfl, rfl⟩)

theorem runCallback_requeues (R : Requeues env q) (H : st.tasks.Scheduled b)
    (h : runCallback fuel api env st (.task q t) = .ok st') :
    ∃ b', st'.tasks.Scheduled b' ∧ b.Edited b' ∧ ∃ u ∈ b'.queue q, b.next ≤ u.id := by
  obtain ⟨as, fn, arg, has⟩ := R t st.toEpState
  simp only [runCallback, has, execActions_append] at h
  obtain ⟨st₁, h₁, h⟩ := Res.bind_eq_ok.1 h
  obtain ⟨b₁, T, E, -⟩ := @execActions_ticked _ _ _ fuel api env
    { st with world := (env.callback (.task q t) st.toEpState).2, log := st.log ++ [.call (.task q t)] } st₁ b as H h₁
  obtain ⟨st₂, h₂, h⟩ := Res.bind_eq_ok.1 h
  cases h
  obtain ⟨b₂, H₂, E₂, hu⟩ := Tick.exec_push T.tasks h₂
  exact ⟨b₂, H₂, E.trans E₂, _, hu, E.next⟩

/-! ### The passes -/

/-- The task that the pass goes on with is never the last one of its queue. -/
theorem runLoop_hangs (R : Requeues env .nexttick) (H : s.Scheduled b) (hrunning : b.running = none)
    (hphase : b.phase = .nexttick true) (hL : b.queue .nexttick = t :: u :: l) (hpos : pos = some (.task t.id))
    (hn : s.list.getNext pos = .ok n) :
    runLoop .nexttick (taskCall fuel api env .nexttick) k (s, w) pos n ≠ .ok r := by
  induction k generalizing s w b t u l pos n with
  | zero => exact fun h => nomatch h
  | succ k ih =>
    intro h
    subst hpos
    obtain ⟨m, b₁, hdel, hcb, hstep₁, H₁, hL₁, hrunning₁, hphase₁⟩ := H.take hrunning hphase hL
    rw [runLoop, if_neg (by simp), hdel, Res.ok_bind, taskEntry, Res.ok_bind] at h
    dsimp only at h
    rw [hcb, Res.ok_bind] at h
    obtain ⟨⟨s₂, w₂⟩, hcall, h⟩ := Res.bind_eq_ok.1 h
    obtain ⟨_, hrun, hst⟩ := Res.bind_eq_ok.1 hcall
    cases hst
    obtain ⟨b₂, H₂, E₂, v, hv, hle⟩ := runCallback_requeues R H₁ hrun
    obtain ⟨s₃, hfree, -, H₃⟩ := H₂.finish (E₂.running.trans hrunning₁)
    dsimp only at h
    rw [hfree, Res.ok_bind] at h
    obtain ⟨n', hn', h⟩ := Res.bind_eq_ok.1 h
    have hids : (b.queue .nexttick).map TaskCall.id = [] ++ t.id :: (u :: l).map TaskCall.id := by simp [hL]
    rw [H.held.toRep.next_task hids] at hn
    cases hn
    obtain ⟨u', l', hL', hid⟩ := H₃.first_of_live H₁.ordered E₂.mem (by simp) hL₁ (ListMem.live_of_getNext hn')
    replace hL' : b₂.queue .nexttick = u' :: l' := hL'
    have hlt : u.id < b₁.next := H₁.ordered.lt .nexttick u (by simp [hL₁])
    cases l' with
    | nil =>
      rw [hL', List.mem_singleton] at hv
      rw [hv, hid] at hle
      omega
    | cons v' l' => exact ih H₃ rfl ((E₂.phase.trans hphase₁).trans (by simp)) hL' (by rw [hid]; rfl) hn' h

/-- There is a task behind the one that the pass is at. -/
theorem runKeepLoop_hangs (R : Requeues env .everytick) (H : s.Scheduled b) (hrunning : b.running = none) {m : Nat}
    (hrest : b.rest m ≠ [])
    (hpos : pos = some ((((b.rest m).map TaskCall.id).map .task).headD (.head .everytick))) :
    runKeepLoop .everytick (taskCall fuel api env .everytick) k (s, w) pos ≠ .ok r := by
  induction k generalizing s w b pos m with
  | zero => exact fun h => nomatch h
  | succ k ih =>
    intro h
    obtain ⟨t, l, hcons⟩ := List.exists_cons_of_ne_nil hrest
    rw [hcons] at hpos
    obtain rfl : pos = some (.task t.id) := hpos
    have ht : t ∈ b.queue .everytick := List.mem_of_mem_filter (hcons ▸ List.mem_cons_self)
    have hcb : s.call t.id = .ok t := by
      rw [Tasks.call, if_pos (H.held.live .everytick _ (List.mem_map_of_mem ht)), H.cb _ t ht]
    rw [runKeepLoop, if_neg (by simp), taskEntry, Res.ok_bind, hcb, Res.ok_bind] at h
    obtain ⟨⟨s₂, w₂⟩, hcall, h⟩ := Res.bind_eq_ok.1 h
    obtain ⟨_, hrun, hst⟩ := Res.bind_eq_ok.1 hcall
    cases hst
    obtain ⟨n, hn, h⟩ := Res.bind_eq_ok.1 h
    obtain ⟨b₂, H₂, E₂, u, hu, hle⟩ := runCallback_requeues R H hrun
    have hrunning₂ : b₂.running = none := E₂.running.trans hrunning
    obtain ⟨v, hv, hid⟩ := H₂.mem_of_live H.ordered E₂.mem (by simp [hrunning₂]) ht (ListMem.live_of_getNext hn)
    obtain ⟨l₁, l₂, hL⟩ := List.append_of_mem hv
    have hids : (b₂.queue .everytick).map TaskCall.id = l₁.map TaskCall.id ++ v.id :: l₂.map TaskCall.id := by
      simp [hL]
    rw [← hid, H₂.held.toRep.next_task hids] at hn
    cases hn
    have hmem : u ∈ b₂.rest (v.id + 1) := by
      have := H.ordered.lt _ t ht
      refine List.mem_filter.2 ⟨hu, decide_eq_true ?_⟩
      omega
    exact ih H₂ hrunning₂ (List.ne_nil_of_mem hmem) (by rw [H₂.ordered.rest_succ hL]) h

/-! ### The turn -/

theorem epRunNexttick_hangs (R : Requeues env .nexttick) (H : st.tasks.Scheduled b) (hb : b.Idle)
    (hbusy : st.tasks.Busy .nexttick) : epRunNexttick fuel api env st ≠ .ok st' := by
  intro h
  obtain ⟨a, a', hne, ha, ha'⟩ := hbusy
  obtain ⟨x, hx, rfl⟩ := List.mem_map.1 (H.held.toRep.queued.1 ha)
  obtain ⟨y, hy, rfl⟩ := List.mem_map.1 (H.held.toRep.queued.1 ha')
  obtain ⟨t, u, l, hL⟩ : ∃ t u l, b.queue .nexttick = t :: u :: l := by
    cases hL : b.queue .nexttick with
    | nil => simp [hL] at hx
    | cons t l =>
      cases l with
      | nil =>
        rw [hL, List.mem_singleton] at hx hy
        exact absurd (by rw [hx, hy]) hne
      | cons u l => exact ⟨t, u, l, rfl⟩
  obtain ⟨⟨tasks, st₁⟩, hrun, -⟩ := Res.bind_eq_ok.1 h
  obtain ⟨pos, hpos, hrun⟩ := Res.bind_eq_ok.1 hrun
  obtain ⟨n, hn, hrun⟩ := Res.bind_eq_ok.1 hrun
  rw [H.held.toRep.next_head .nexttick, hL] at hpos
  cases hpos
  have hstep : b.step .turn = some _ := if_pos hb
  exact runLoop_hangs R (H.of_phase hstep) hb.1 (by simp [hL]) hL rfl hn hrun

theorem epRunEverytick_hangs (R : Requeues env .everytick) (H : st.tasks.Scheduled b) (hrunning : b.running = none)
    (hL : b.queue .everytick ≠ []) : epRunEverytick fuel api env st ≠ .ok st' := by
  intro h
  obtain ⟨⟨tasks, st₁⟩, hrun, -⟩ := Res.bind_eq_ok.1 h
  obtain ⟨pos, hpos, hrun⟩ := Res.bind_eq_ok.1 hrun
  rw [H.held.toRep.next_head .everytick] at hpos
  cases hpos
  rw [← b.rest_zero] at hL
  exact runKeepLoop_hangs R H hrunning hL (by rw [b.rest_zero]) hrun

/-- With nothing to call, the pass over the nexttick queue does nothing. -/
theorem epRunNexttick_nil (H : st.tasks.Scheduled b) (hL : b.queue .nexttick = [])
    (h : epRunNexttick fuel api env st = .ok st') : st' = st := by
  obtain ⟨⟨tasks, st₁⟩, hrun, h⟩ := Res.bind_eq_ok.1 h
  cases h
  obtain ⟨pos, hpos, hrun⟩ := Res.bind_eq_ok.1 hrun
  obtain ⟨n, hn, hrun⟩ := Res.bind_eq_ok.1 hrun
  rw [H.held.toRep.next_head .nexttick, hL] at hpos
  cases hpos
  cases fuel with
  | zero => cases hrun
  | succ fuel =>
    cases hrun
    rfl

theorem epTurn_hangs {waittime : Int32} {r : Int × EpLoop P O K} (R : Requeues env q) (H : st.tasks.Scheduled b)
    (hb : b.Idle) (hbusy : st.tasks.Busy q) : epTurn fuel api env st waittime ≠ .ok r := by
  intro h
  obtain ⟨st₁, st₂, st₃, h₁, h₂, -, -⟩ := epTurn_ok h
  cases q with
  | nexttick => exact epRunNexttick_hangs R H hb hbusy h₁
  | everytick =>
    obtain ⟨⟨a, ha⟩, hnone⟩ := hbusy
    have hnil : b.queue .nexttick = [] :=
      List.eq_nil_iff_forall_not_mem.2 fun t ht => hnone t.id (H.held.toRep.queued.2 (List.mem_map_of_mem ht))
    obtain ⟨t, ht, -⟩ := List.mem_map.1 (H.held.toRep.queued.1 ha)
    cases epRunNexttick_nil H hnil h₁
    exact epRunEverytick_hangs R H hb.1 (List.ne_nil_of_mem ht) h₂

/-! ### One nexttick task -/

/-- A queue in which all tasks have one number. -/
theorem Scheduler.Ordered.queue_eq_singleton {q : Tick} (H : b.Ordered) (ht : t ∈ b.queue q)
    (hid : ∀ u ∈ b.queue q, u.id = t.id) : b.queue q = [t] := by
  have hsorted := H.sorted q
  cases hq : b.queue q with
  | nil => simp [hq] at ht
  | cons u l =>
    rw [hq] at ht hid hsorted
    cases l with
    | nil => rw [List.mem_singleton.1 ht]
    | cons v l =>
      have hlt : u.id < v.id := List.rel_of_pairwise_cons hsorted List.mem_cons_self
      rw [hid u List.mem_cons_self, hid v (by simp)] at hlt
      exact absurd hlt (Nat.lt_irrefl _)

/-- The pass goes on with the head of the queue, which the task has behind it when it is taken out. -/
theorem runLoop_single {legal : P → PollCall → Prop} {Inv : P → Prop} {J : EpState P K → Prop}
    (C : ∀ n, Contract n api env legal Inv J) (H : s.Scheduled b) (hrunning : b.running = none)
    (hphase : b.phase = .nexttick true) (hL : b.queue .nexttick = [t]) (hI : BesideTasks Inv J (s, w)) :
    ∃ s' w', (∀ᶠ p : ℕ × ℕ in atTop ×ˢ atTop,
        runLoop .nexttick (taskCall p.1 api env .nexttick) p.2 (s, w) (some (.task t.id)) (some (.head .nexttick)) =
          .ok (s', w')) ∧ w'.log = w.log ++ [.call (.task .nexttick t)] := by
  obtain ⟨m, b₁, hdel, hcb, hstep₁, H₁, hL₁, hrunning₁, hphase₁⟩ := H.take hrunning hphase hL
  have hids : (b.queue .nexttick).map TaskCall.id = [] ++ t.id :: [] := by simp [hL]
  have hheld := H.held
  rw [hrunning] at hheld
  have hheld₁ := H₁.held
  rw [hrunning₁] at hheld₁
  have hI₁ := (nexttick_serves (C 0).contractFor).unlink hheld hids hdel hI
  obtain ⟨⟨s₂, w₂⟩, hcall⟩ := taskCall_returns (q := .nexttick) C hheld₁ hI₁
  obtain ⟨n, hcall₀⟩ := hcall.exists
  obtain ⟨_, hrun, hst⟩ := Res.bind_eq_ok.1 hcall₀
  cases hst
  obtain ⟨b₂, T₂, E₂, -⟩ := runCallback_ticked hrun H₁ w
  obtain ⟨s₃, hfree, -, H₃⟩ := T₂.tasks.finish (E₂.running.trans hrunning₁)
  refine ⟨s₃, w₂, ?_, (runCallback_works hrun w).2⟩
  filter_upwards [tendsto_fst.eventually hcall, tendsto_snd.eventually (eventually_ge_atTop 2)] with p hcall hp
  obtain ⟨k, hk⟩ := Nat.exists_eq_add_of_le' hp
  rw [hk, runLoop, if_neg (by simp), hdel, Res.ok_bind, taskEntry, Res.ok_bind]
  dsimp only
  rw [hcb, Res.ok_bind, hcall, Res.ok_bind]
  dsimp only
  rw [hfree, Res.ok_bind, H₃.held.toRep.next_head .nexttick, Res.ok_bind, runLoop, if_pos rfl]
  rfl

theorem epRunNexttick_single {legal : P → PollCall → Prop} {Inv : P → Prop} {J : EpState P K → Prop}
    (C : ∀ n, Contract n api env legal Inv J) (Hs : st.tasks.Scheduled b) (hb : b.Idle)
    (H : st.toEpState.Sound Inv J) (hL : b.queue .nexttick = [t]) :
    ∃ st', (∀ᶠ n in atTop, epRunNexttick n api env st = .ok st') ∧
      st'.log = st.log ++ [.call (.task .nexttick t)] := by
  have hstep : b.step .turn = some _ := if_pos hb
  obtain ⟨s', w', hrun, hlog⟩ := runLoop_single C (Hs.of_phase hstep) hb.1 (by simp [hL]) hL
    ⟨H.timer, H.engine, H.program⟩
  have hids : (b.queue .nexttick).map TaskCall.id = [] ++ t.id :: [] := by simp [hL]
  refine ⟨{ w' with tasks := s' }, ?_, hlog⟩
  filter_upwards [(tendsto_id.prodMk tendsto_id).eventually hrun] with n hrun
  have hhead : st.tasks.list.getNext (some (.head .nexttick)) = .ok (some (.task t.id)) := by
    rw [Hs.held.toRep.next_head .nexttick, hL]
    rfl
  have hnext := Hs.held.toRep.next_task hids
  simp only [epRunNexttick, epTaskQueueRun, hhead, hnext, Res.ok_bind]
  exact Res.bind_eq_ok.2 ⟨_, hrun, rfl⟩

end

section
variable {fuel : Nat} {api : PollApi P O K} {env : Env P K} {legal : P → PollCall → Prop} {Inv : P → Prop}
  {J : EpState P K → Prop} {init : P → Int × P} {r r' : EpState P K} {n : Int} {cs : List (LoopCall K)}
  {st : EpLoop P O K} {q : Tick}

/-- **Turns need not end.** A program that keeps the contract, and whose callbacks of a queue each queue a task there:
where a turn finds two nexttick tasks, or an everytick task and no nexttick task, it exceeds every bound on its
loops. Where it finds one nexttick task its pass over them calls that task and ends, whatever the task queues. -/
theorem loop_hangs (C : ∀ fuel, Contract fuel api env legal Inv J) (hr : r.Fresh)
    (hinit : epInit init r = .ok (n, r')) (hI : Inv r'.ps) (hJ : J r')
    (hcs : LegalProgram fuel api env legal J ⟨r', []⟩ cs) (hrun : loopRun fuel api env ⟨r', []⟩ cs = .ok st) :
    (∀ q, Requeues env q → st.tasks.Busy q → ∀ waittime fuel',
      epForEachStart fuel' api env st waittime = .error .fuel) ∧
    ∀ id, (∀ id', st.tasks.Queued .nexttick id' ↔ id' = id) →
      ∃ st', (∀ᶠ fuel' in atTop, epRunNexttick fuel' api env st = .ok st') ∧
        st'.log = st.log ++ [.call (.task .nexttick ⟨id, (st.tasks.cb id).fn, (st.tasks.cb id).arg⟩)] := by
  obtain ⟨_, b, -, T, hb⟩ := hr.ticked hinit hrun
  have H : st.toEpState.Sound Inv J :=
    (loopRun_ends (C fuel).contractFor (hr.sound hinit hI hJ) (.inr hcs)).result hrun
  refine ⟨fun q R hbusy waittime fuel' => ?_, fun id hid => ?_⟩
  · cases hturn : epTurn fuel' api env st waittime with
    | ok r => exact absurd hturn (epTurn_hangs R T.tasks hb hbusy)
    | error e =>
      obtain rfl : e = .fuel := (epTurn_ends (C fuel').contractFor H).allowed hturn
      rw [epForEachStart, hturn]
      rfl
  · have hmem : ∀ t ∈ b.queue .nexttick, t.id = id := fun t ht =>
      (hid t.id).1 (T.tasks.held.toRep.queued.2 (List.mem_map_of_mem ht))
    obtain ⟨t, ht, rfl⟩ := List.mem_map.1 (T.tasks.held.toRep.queued.1 ((hid id).2 rfl))
    rw [T.tasks.cb .nexttick t ht]
    exact epRunNexttick_single C T.tasks hb H (T.tasks.ordered.queue_eq_singleton ht hmem)

end

/-- A task queues itself again. -/
def requeueEnv : Env EpollState (List WaitOutcome) where
  gettimeofday k := (⟨0, 0⟩, k)
  callback c st :=
    match c with
    | .task q t => ([q.push t.fn t.arg], st.world)
    | .timer _ => ([], st.world)

theorem requeue_contract (fuel : Nat) :
    Contract fuel (epollApi scriptedKernel) requeueEnv (fun _ _ => True) EpollState.InBounds fun _ => True := by
  refine pushing_contract (epoll_safe scriptedKernel) fun c st a ha => ?_
  cases c with
  | task q t => exact ⟨q, t.fn, t.arg, List.mem_singleton.1 ha⟩
  | timer f => cases ha

/-- A nexttick task, with a turn that ends, and a second one. -/
def requeueCalls : List (LoopCall (List WaitOutcome)) :=
  [.action (.nexttick false 2 0), .forEachStart (-1), .action (.nexttick false 2 1)]

theorem loop_hangs_requeue :
    ∃ r' st st₁, epInit (epEpollInit · 3 false) (rawLoop []) = .ok (0, r') ∧
      loopRun 2 (epollApi scriptedKernel) requeueEnv ⟨r', []⟩ requeueCalls = .ok st ∧
      (∀ fuel, epForEachStart fuel (epollApi scriptedKernel) requeueEnv st (-1) = .error .fuel) ∧
      loopRun 2 (epollApi scriptedKernel) requeueEnv ⟨r', []⟩ (requeueCalls.take 1) = .ok st₁ ∧
      ∃ st', (∀ᶠ fuel in atTop, epRunNexttick fuel (epollApi scriptedKernel) requeueEnv st₁ = .ok st') ∧
        st'.log = [.call (.task .nexttick ⟨0, 2, 0⟩)] := by
  have hfresh := rawLoop_fresh []
  have hI : EpollState.InBounds (epEpollInit (rawLoop []).ps 3 false).2 :=
    fun h => absurd h (Int.lt_irrefl 0)
  obtain ⟨hhangs, -⟩ := @loop_hangs _ _ _ 2 (epollApi scriptedKernel) requeueEnv (fun _ _ => True) EpollState.InBounds
    (fun _ => True) (epEpollInit · 3 false) (rawLoop []) _ _ requeueCalls _ requeue_contract hfresh rfl hI trivial
    ⟨trivial, fun _ _ => ⟨trivial, fun _ _ => ⟨trivial, fun _ _ => ⟨trivial, trivial⟩⟩⟩⟩ rfl
  obtain ⟨-, hends⟩ := @loop_hangs _ _ _ 2 (epollApi scriptedKernel) requeueEnv (fun _ _ => True) EpollState.InBounds
    (fun _ => True) (epEpollInit · 3 false) (rawLoop []) _ _ (requeueCalls.take 1) _ requeue_contract hfresh rfl hI
    trivial ⟨trivial, fun _ _ => ⟨trivial, trivial⟩⟩ rfl
  refine ⟨_, _, _, rfl, rfl, hhangs .nexttick (fun t _ => ⟨[], t.fn, t.arg, rfl⟩)
    ⟨1, 2, by decide, ⟨[1, 2], ⟨⟨rfl, rfl, rfl⟩, ⟨rfl, rfl, rfl⟩, by simp⟩, by simp⟩,
      ⟨[1, 2], ⟨⟨rfl, rfl, rfl⟩, ⟨rfl, rfl, rfl⟩, by simp⟩, by simp⟩⟩ (-1), rfl, hends 0 fun id => ?_⟩
  rw [← List.mem_singleton]
  exact Tasks.queued_of_ring ⟨⟨rfl, rfl⟩, ⟨rfl, rfl⟩, by simp⟩

end Libep
