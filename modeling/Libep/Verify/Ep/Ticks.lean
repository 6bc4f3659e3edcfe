import Libep.Verify.Ep.Timed
import Libep.Verify.Ep.Scheduler

/-!
# The loop schedules its tasks

The two queues of a loop, with what its turns do to them, refine the scheduler of `Libep.Verify.Ep.Scheduler`:
whatever the callbacks and the program do, the history of a run that has a result is a run of the scheduler, with the
same calls and the same waits. So what holds of every run of the scheduler holds of the tasks of every loop.
-/

namespace Libep
open Chain
open Relation (ReflTransGen)

variable {P O K : Type}

def Obs.tick : Obs O → Option (Option (Tick × TaskCall))
  | .call (.task q t) => some (some (q, t))
  | .call (.timer _) => none
  | .wait _ _ => some none

/-- What is seen of the tasks. -/
def tickTrace (log : List (Obs O)) : TickTrace := log.filterMap Obs.tick

theorem tickTrace_append {l l' : List (Obs O)} : tickTrace (l ++ l') = tickTrace l ++ tickTrace l' :=
  List.filterMap_append

theorem none_mem_tickTrace {log : List (Obs O)} :
    none ∈ tickTrace log ↔ ∃ timeout o, .wait timeout o ∈ log := by
  simp only [tickTrace, List.mem_filterMap]
  constructor
  · rintro ⟨e, he, h⟩
    cases e with
    | wait timeout o => exact ⟨timeout, o, he⟩
    | call c => cases c <;> cases h
  · exact fun ⟨timeout, o, h⟩ => ⟨_, h, rfl⟩

theorem some_mem_tickTrace {log : List (Obs O)} {q : Tick} {t : TaskCall} :
    some (q, t) ∈ tickTrace log ↔ .call (.task q t) ∈ log := by
  simp only [tickTrace, List.mem_filterMap]
  constructor
  · rintro ⟨e, he, h⟩
    cases e with
    | wait timeout o => cases h
    | call c =>
      cases c with
      | task q' t' =>
        cases h
        exact he
      | timer f => cases h
  · exact fun h => ⟨_, h, rfl⟩

/-! ### The scheduler in a history -/

/-- What a call does to the queues. -/
def Act.tick (x : Act) : Option TickEvent :=
  match x.action, x.made with
  | .nexttick _ cb arg, some id => some (.queued .nexttick ⟨id, cb, arg⟩)
  | .everytick _ cb arg, some id => some (.queued .everytick ⟨id, cb, arg⟩)
  | .cleartask id, _ => some (.cancelled id)
  | _, _ => none

def CallHistory.ticks (c : CallHistory) : List TickEvent :=
  match c.call with
  | .task .nexttick t => .call .nexttick t :: c.acts.filterMap Act.tick ++ [.done t.id]
  | .task .everytick t => .call .everytick t :: c.acts.filterMap Act.tick
  | .timer _ => c.acts.filterMap Act.tick

def TurnHistory.ticks (u : TurnHistory) : List TickEvent :=
  .turn :: u.nexttick.flatMap CallHistory.ticks ++ (u.everytick.flatMap CallHistory.ticks ++ [.timers]) ++
    u.timers.flatMap CallHistory.ticks ++ [.wait]

def LoopEvent.ticks : LoopEvent → List TickEvent
  | action x => x.tick.toList
  | turn u => u.ticks

/-- The events of the scheduler in a run. -/
def historyTicks (h : List LoopEvent) : List TickEvent := h.flatMap LoopEvent.ticks

/-- A task is cancelled by a call. -/
theorem Act.tick_eq_cancelled {x : Act} {id : Nat} (h : x.tick = some (.cancelled id)) : x.action = .cleartask id := by
  unfold Act.tick at h
  split at h
  · cases h
  · cases h
  · next heq =>
    cases h
    exact heq
  · cases h

theorem CallHistory.exists_of_cancelled {c : CallHistory} {id : Nat} (h : .cancelled id ∈ c.ticks) :
    ∃ x ∈ c.acts, x.action = .cleartask id := by
  have hmem : .cancelled id ∈ c.acts.filterMap Act.tick := by
    unfold CallHistory.ticks at h
    split at h <;> simpa using h
  obtain ⟨x, hx, htick⟩ := List.mem_filterMap.1 hmem
  exact ⟨x, hx, Act.tick_eq_cancelled htick⟩

theorem exists_of_cancelled {h : List LoopEvent} {id : Nat} (hmem : .cancelled id ∈ historyTicks h) :
    ∃ x ∈ historyActs h, x.action = .cleartask id := by
  obtain ⟨e, he, hmem⟩ := List.mem_flatMap.1 hmem
  suffices ∃ x ∈ e.acts, x.action = .cleartask id by
    obtain ⟨x, hx, hcancel⟩ := this
    exact ⟨x, List.mem_flatMap.2 ⟨e, he, hx⟩, hcancel⟩
  cases e with
  | action x => exact ⟨x, List.mem_singleton_self x, Act.tick_eq_cancelled (Option.mem_toList.1 hmem)⟩
  | turn u =>
    obtain ⟨c, hc, hmem⟩ : ∃ c ∈ u.nexttick ++ u.everytick ++ u.timers, .cancelled id ∈ c.ticks := by
      simp only [LoopEvent.ticks, TurnHistory.ticks, List.mem_append, List.mem_cons, List.mem_flatMap,
        List.not_mem_nil, reduceCtorEq, false_or, or_false] at hmem
      simp only [List.mem_append]
      rcases hmem with (⟨c, hc, h⟩ | ⟨c, hc, h⟩) | ⟨c, hc, h⟩
      · exact ⟨c, .inl (.inl hc), h⟩
      · exact ⟨c, .inl (.inr hc), h⟩
      · exact ⟨c, .inr hc, h⟩
    obtain ⟨x, hx, hcancel⟩ := c.exists_of_cancelled hmem
    exact ⟨x, List.mem_flatMap.2 ⟨c, hc, hx⟩, hcancel⟩

/-! ### What the memory holds -/

/-- The memory holds the queues of the scheduler. -/
structure Tasks.Scheduled (s : Tasks Tick) (b : Scheduler) : Prop where
  held : s.Held (fun q => (b.queue q).map TaskCall.id) b.running.toList
  cb : ∀ q, ∀ t ∈ b.queue q, s.cb t.id = ⟨t.fn, t.arg⟩
  next : s.brk = b.next
  freed : s.freed = b.freed
  ordered : b.Ordered

/-- From `b` on, a scheduler does `tr`, ends with what is in the memory, and shows what the log shows. -/
structure Ticked (log log' : List (Obs O)) (b : Scheduler) (tr : List TickEvent) (s' : Tasks Tick)
    (b' : Scheduler) : Prop where
  run : b.run tr = some b'
  tasks : s'.Scheduled b'
  shown : tickTrace log' = tickTrace log ++ seen tr

namespace Ticked
variable {log log' log'' : List (Obs O)} {b b' b'' : Scheduler} {tr tr' : List TickEvent} {s s' s'' : Tasks Tick}
  {e : TickEvent}

theorem refl (H : s.Scheduled b) (log : List (Obs O)) : Ticked log log b [] s b :=
  ⟨rfl, H, (List.append_nil _).symm⟩

theorem trans (H : Ticked log log' b tr s' b') (H' : Ticked log' log'' b' tr' s'' b'') :
    Ticked log log'' b (tr ++ tr') s'' b'' where
  run := Scheduler.run_append.2 ⟨b', H.run, H'.run⟩
  tasks := H'.tasks
  shown := by rw [H'.shown, H.shown, seen_append, List.append_assoc]

end Ticked

/-- Tasks were queued and cancelled. -/
structure Scheduler.Edited (b b' : Scheduler) : Prop where
  mem : ∀ q, ∀ t ∈ b'.queue q, t ∈ b.queue q ∨ b.next ≤ t.id
  next : b.next ≤ b'.next
  running : b'.running = b.running
  phase : b'.phase = b.phase

namespace Scheduler.Edited
variable {b b' b'' : Scheduler} {q : Tick} {t u : TaskCall} {l : List TaskCall}

theorem refl (b : Scheduler) : b.Edited b := ⟨fun _ _ h => .inl h, Nat.le_refl _, rfl, rfl⟩

theorem trans (H : b.Edited b') (H' : b'.Edited b'') : b.Edited b'' where
  mem q t ht := (H'.mem q t ht).elim (H.mem q t) fun h => .inr (Nat.le_trans H.next h)
  next := Nat.le_trans H.next H'.next
  running := H'.running.trans H.running
  phase := H'.phase.trans H.phase

end Scheduler.Edited

namespace Tasks.Scheduled
variable {s s' : Tasks Tick} {b : Scheduler} {q : Tick} {t : TaskCall} {l : List TaskCall}

/-- `ep_task_queue_push`. -/
theorem push (H : s.Scheduled b) (q : Tick) (fn arg : Nat) :
    ∃ s' b', epTaskQueuePush s q false fn arg = .ok (some b.next, s') ∧
      b.step (.queued q ⟨b.next, fn, arg⟩) = some b' ∧ s'.Scheduled b' ∧ b.Edited b' := by
  obtain ⟨s', hrun, H', -, -, hcb, hbrk, hfreed⟩ := H.held.pushed q fn arg
  have hstep : b.step (.queued q ⟨b.next, fn, arg⟩) = some _ := if_pos rfl
  rw [H.next] at hrun H' hcb hbrk
  refine ⟨s', _, hrun, hstep, ⟨?_, fun q' u hu => ?_, hbrk, hfreed.trans H.freed, H.ordered.step hstep⟩,
    ⟨fun q' u hu => (Scheduler.step_mem hstep hu).imp_right Eq.ge, Nat.le_succ _, rfl, rfl⟩⟩
  · convert H' using 2 with q'
    rcases eq_or_ne q' q with rfl | hq
    · simp
    · simp [hq]
  · rw [hcb]
    rcases mem_update_append.1 hu with hu | ⟨-, rfl⟩
    · rw [Function.update_of_ne (Nat.ne_of_lt (H.ordered.lt q' u hu)), H.cb q' u hu]
    · rw [Function.update_self]

/-- `ep_task_cancel`. -/
theorem cancel (H : s.Scheduled b) {id : Nat} (h : epTaskCancel s id = .ok s') :
    ∃ b', b.step (.cancelled id) = some b' ∧ s'.Scheduled b' ∧ b.Edited b' := by
  obtain ⟨q, hid⟩ := H.held.queued_of_cancel h
  obtain ⟨s'', hrun, H', -, -, hcb, hbrk, hfreed⟩ := H.held.cancelled hid
  cases hrun.symm.trans h
  have hmem : id ∈ (b.queue .nexttick ++ b.queue .everytick).map TaskCall.id := by
    rw [List.map_append, List.mem_append]
    cases q with
    | nexttick => exact .inl hid
    | everytick => exact .inr hid
  have hstep : b.step (.cancelled id) = some _ := if_pos hmem
  refine ⟨_, hstep, ⟨?_, fun q t ht => ?_, hbrk.trans H.next, by rw [hfreed, H.freed], H.ordered.step hstep⟩,
    fun q t ht => .inl (List.mem_of_mem_filter ht), Nat.le_refl _, rfl, rfl⟩
  · convert H' using 2 with q'
    rw [List.filter_map]
    rfl
  · rw [hcb]
    exact H.cb q t (List.mem_of_mem_filter ht)

end Tasks.Scheduled

/-! ### Callbacks -/

section
variable {fuel : Nat} {api : PollApi P O K} {env : Env P K} {st st' : EpLoop P O K} {b : Scheduler}

/-- The tasks that a call queues, if there is memory for them. -/
def EpAction.ticks : EpAction → List (Tick × Nat × Nat)
  | .nexttick false cb arg => [(.nexttick, cb, arg)]
  | .everytick false cb arg => [(.everytick, cb, arg)]
  | _ => []

/-- A call of the interface queues or cancels at most one task. -/
theorem EpAction.exec_ticked {a : EpAction} (H : st.tasks.Scheduled b)
    (h : a.exec fuel api env st = .ok st') :
    ∃ b', Ticked st.log st'.log b ([a.act fuel env st].filterMap Act.tick) st'.tasks b' ∧ b.Edited b' ∧
      queuings ([a.act fuel env st].filterMap Act.tick) = a.ticks := by
  have pushed : ∀ {q : Tick} {oom : Bool} {fn arg : Nat} {ret s'} {x : Act},
      epTaskQueuePush st.tasks q oom fn arg = .ok (ret, s') →
      x.tick = ret.map (fun id => .queued q ⟨id, fn, arg⟩) →
      ∃ b', Ticked st.log st.log b ([x].filterMap Act.tick) s' b' ∧ b.Edited b' ∧
        queuings ([x].filterMap Act.tick) = if oom then [] else [(q, fn, arg)] := by
    intro q oom fn arg ret s' x h htick
    cases oom with
    | true =>
      cases h
      rw [List.filterMap_cons_none htick]
      exact ⟨_, .refl H _, .refl _, rfl⟩
    | false =>
      obtain ⟨s'', b', hrun, hstep, H', E⟩ := H.push q fn arg
      cases hrun.symm.trans h
      rw [List.filterMap_cons_some htick]
      exact ⟨_, ⟨Scheduler.run_singleton.trans hstep, H', (List.append_nil _).symm⟩, E, rfl⟩
  cases a with
  | add | mod | del =>
    obtain ⟨_, h, hst⟩ := Res.bind_eq_ok.1 h
    obtain ⟨_, -, h⟩ := Res.bind_eq_ok.1 h
    cases h
    cases hst
    exact ⟨_, .refl H _, .refl _, rfl⟩
  | settimeout | setinterval =>
    obtain ⟨_, h, hst⟩ := Res.bind_eq_ok.1 h
    obtain ⟨_, -, h⟩ := Res.bind_eq_ok.1 h
    cases h
    cases hst
    exact ⟨_, .refl H _, .refl _, rfl⟩
  | cleartimeout | clearinterval =>
    obtain ⟨_, -, h⟩ := Res.bind_eq_ok.1 h
    cases h
    exact ⟨_, .refl H _, .refl _, rfl⟩
  | nexttick oom cb arg =>
    obtain ⟨_, hpush, hst⟩ := Res.bind_eq_ok.1 h
    obtain ⟨r, hrun, h⟩ := Res.bind_eq_ok.1 hpush
    cases h
    cases hst
    have htick : Act.tick (EpAction.act fuel env st (.nexttick oom cb arg)) =
        r.1.map fun id => .queued .nexttick ⟨id, cb, arg⟩ := by
      rw [Act.tick, EpAction.act, EpAction.made, hpush]
      cases r.1 <;> rfl
    cases oom <;> exact pushed hrun htick
  | everytick oom cb arg =>
    obtain ⟨_, hpush, hst⟩ := Res.bind_eq_ok.1 h
    obtain ⟨r, hrun, h⟩ := Res.bind_eq_ok.1 hpush
    cases h
    cases hst
    have htick : Act.tick (EpAction.act fuel env st (.everytick oom cb arg)) =
        r.1.map fun id => .queued .everytick ⟨id, cb, arg⟩ := by
      rw [Act.tick, EpAction.act, EpAction.made, hpush]
      cases r.1 <;> rfl
    cases oom <;> exact pushed hrun htick
  | cleartask id =>
    obtain ⟨s', hrun, h⟩ := Res.bind_eq_ok.1 h
    cases h
    obtain ⟨b', hstep, H', E⟩ := H.cancel hrun
    exact ⟨_, ⟨Scheduler.run_singleton.trans hstep, H', (List.append_nil _).symm⟩, E, rfl⟩

theorem execActions_ticked {as : List EpAction} (H : st.tasks.Scheduled b)
    (h : execActions fuel api env st as = .ok st') :
    ∃ b', Ticked st.log st'.log b ((actsOf fuel api env st as).filterMap Act.tick) st'.tasks b' ∧ b.Edited b' ∧
      queuings ((actsOf fuel api env st as).filterMap Act.tick) = as.flatMap EpAction.ticks := by
  induction as generalizing st b with
  | nil =>
    cases h
    exact ⟨_, .refl H _, .refl _, rfl⟩
  | cons a as ih =>
    obtain ⟨st₁, ha, h⟩ := Res.bind_eq_ok.1 h
    obtain ⟨b₁, T₁, E₁, hq₁⟩ := EpAction.exec_ticked H ha
    obtain ⟨b₂, T₂, E₂, hq₂⟩ := ih T₁.tasks h
    have hacts : actsOf fuel api env st (a :: as) = [a.act fuel env st] ++ actsOf fuel api env st₁ as := by
      rw [actsOf, ha]
      rfl
    rw [hacts, List.filterMap_append]
    exact ⟨_, T₁.trans T₂, E₁.trans E₂, by rw [queuings_append, hq₁, hq₂, List.flatMap_cons]⟩

theorem runCallback_ticked {c : EpCall} (h : runCallback fuel api env st c = .ok st')
    (H : st.tasks.Scheduled b) (st'' : EpLoop P O K) :
    ∃ b', Ticked (st.log ++ [.call c]) st'.log b ((CallHistory.note fuel api env c st st'').acts.filterMap Act.tick)
        st'.tasks b' ∧ b.Edited b' ∧
      queuings ((CallHistory.note fuel api env c st st'').acts.filterMap Act.tick) =
        (env.callback c st.toEpState).1.flatMap EpAction.ticks :=
  @execActions_ticked _ _ _ fuel api env
    { st with world := (env.callback c st.toEpState).2, log := st.log ++ [.call c] } st' b _ H h

/-- The callbacks of the timers. -/
theorem ticked_of_called {w w' : EpLoop P O K × List CallHistory} (H : w.1.tasks.Scheduled b)
    (h : ReflTransGen (CallStep (noted (noteTimer (CallHistory.note fuel api env)) (timerCall fuel api env))) w w') :
    ∃ cs b', w'.2 = w.2 ++ cs ∧ Ticked w.1.log w'.1.log b (cs.flatMap CallHistory.ticks) w'.1.tasks b' ∧
      b.Edited b' := by
  induction h with
  | refl => exact ⟨[], _, (List.append_nil _).symm, .refl H _, .refl _⟩
  | @tail w₁ w₂ _ h ih =>
    obtain ⟨cs, b₁, hnotes, T₁, E₁⟩ := ih
    obtain ⟨f, t, t', h⟩ := h
    obtain ⟨st₂, hrun, rfl, rfl⟩ := timerCall_noted h
    obtain ⟨b₂, T₂, E₂, -⟩ := runCallback_ticked hrun T₁.tasks st₂
    have hshown : tickTrace (w₁.1.log ++ [.call (.timer f)]) = tickTrace w₁.1.log := by
      rw [tickTrace_append]
      exact List.append_nil _
    refine ⟨cs ++ [_], b₂, by rw [hnotes, List.append_assoc], ?_, E₁.trans E₂⟩
    rw [List.flatMap_append, List.flatMap_singleton]
    exact T₁.trans ⟨T₂.run, T₂.tasks, by rw [T₂.shown, hshown]; rfl⟩

end

/-! ### The pass over the nexttick queue -/

/-- The pass is at its next task, or at the end. -/
def Scheduler.NexttickAt (b : Scheduler) (pos : Option (TaskRef Tick)) : Prop :=
  (∃ t l, b.queue .nexttick = t :: l ∧ b.phase = .nexttick true ∧ pos = some (.task t.id)) ∨
    b.phase = .nexttick false ∧ pos = some (.head .nexttick)

theorem Scheduler.nexttickAt_turn (b : Scheduler) :
    Scheduler.NexttickAt { b with phase := .nexttick (b.queue .nexttick ≠ []) }
      (some ((((b.queue .nexttick).map TaskCall.id).map .task).headD (.head .nexttick))) := by
  cases hL : b.queue .nexttick with
  | nil => exact .inr ⟨by simp, rfl⟩
  | cons t l => exact .inl ⟨t, l, hL, by simp, rfl⟩

namespace Tasks.Scheduled
variable {s s' : Tasks Tick} {b b' : Scheduler} {q : Tick} {t u : TaskCall} {l : List TaskCall} {id : Nat}

/-- The first task of the nexttick queue is taken out, to be called. -/
theorem take (H : s.Scheduled b) (hrunning : b.running = none) (hphase : b.phase = .nexttick true)
    (hL : b.queue .nexttick = t :: l) :
    ∃ m b', listDel s.list (some (.task t.id)) = .ok m ∧ Tasks.call { s with list := m } t.id = .ok t ∧
      b.step (.call .nexttick t) = some b' ∧ Tasks.Scheduled { s with list := m } b' ∧
      b'.queue .nexttick = l ∧ b'.running = some t.id ∧ b'.phase = .nexttick (l ≠ []) := by
  have ht : t ∈ b.queue .nexttick := by simp [hL]
  have hids : (b.queue .nexttick).map TaskCall.id = [] ++ t.id :: l.map TaskCall.id := by simp [hL]
  obtain ⟨m, hdel, -, H'⟩ := H.held.unlink hids
  have hstep : b.step (.call .nexttick t) = some _ := if_pos ⟨hrunning, hphase, by rw [hL]; rfl⟩
  rw [hL, List.tail_cons] at hstep
  have hlive : m.live (.task t.id) := H'.out_live t.id List.mem_cons_self
  refine ⟨m, _, hdel, ?_, hstep, ⟨?_, fun q u hu => ?_, H.next, H.freed, H.ordered.step hstep⟩,
    Function.update_self .nexttick l b.queue, rfl, rfl⟩
  · rw [Tasks.call, if_pos hlive, H.cb _ t ht]
  · have hqueue : (fun q => (Function.update b.queue .nexttick l q).map TaskCall.id) =
        fun q => ((b.queue q).map TaskCall.id).filter (· ≠ t.id) := by
      rw [← H.held.toRep.unlinked hids]
      funext q
      cases q <;> rfl
    rw [← hqueue, hrunning] at H'
    exact H'
  · refine H.cb q u ?_
    cases q with
    | nexttick => exact hL ▸ List.mem_cons_of_mem _ hu
    | everytick => exact hu

/-- The block of a task that is over is freed. -/
theorem finish (H : s.Scheduled b) (hrunning : b.running = some id) :
    ∃ s', s.free id = .ok s' ∧ b.step (.done id) = some { b with running := none, freed := b.freed ++ [id] } ∧
      s'.Scheduled { b with running := none, freed := b.freed ++ [id] } := by
  have hheld := H.held
  rw [hrunning] at hheld
  obtain ⟨s', hfree, H', hbrk, -⟩ := hheld.free
  obtain ⟨hfreed, hcb, -⟩ := Held.free_eq hfree
  have hstep : b.step (.done id) = some _ := if_pos hrunning
  exact ⟨s', hfree, hstep, H', fun q u hu => hcb ▸ H.cb q u hu, hbrk.trans H.next, by rw [hfreed, H.freed],
    H.ordered.step hstep⟩

/-- A task of a queue is still there, if its block is still allocated. -/
theorem mem_of_live (H : s'.Scheduled b') (hb : b.Ordered)
    (hmem : ∀ q, ∀ t ∈ b'.queue q, t ∈ b.queue q ∨ b.next ≤ t.id) (hrunning : b'.running ≠ some u.id)
    (hu : u ∈ b.queue q) (hlive : s'.list.live (.task u.id)) : ∃ v ∈ b'.queue q, v.id = u.id := by
  rcases H.held.held u.id hlive with ⟨q', hid⟩ | hout
  · obtain ⟨v, hv, hvu⟩ := List.mem_map.1 hid
    rcases hmem q' v hv with hv' | hle
    · exact ⟨v, hb.disjoint hv' hu hvu ▸ hv, hvu⟩
    · have := hb.lt q u hu
      omega
  · exact absurd (Option.mem_toList.1 hout) hrunning

/-- The first task of a queue is then still the first one. -/
theorem first_of_live (H : s'.Scheduled b') (hb : b.Ordered)
    (hmem : ∀ q, ∀ t ∈ b'.queue q, t ∈ b.queue q ∨ b.next ≤ t.id) (hrunning : b'.running ≠ some u.id)
    (hL : b.queue q = u :: l) (hlive : s'.list.live (.task u.id)) :
    ∃ u' l', b'.queue q = u' :: l' ∧ u'.id = u.id := by
  have hu : u ∈ b.queue q := by simp [hL]
  have hlt := hb.lt q u hu
  obtain ⟨v, hv, hvu⟩ := H.mem_of_live hb hmem hrunning hu hlive
  cases hL' : b'.queue q with
  | nil => simp [hL'] at hv
  | cons u' l' =>
    refine ⟨u', l', rfl, ?_⟩
    have hsorted' := H.ordered.sorted q
    have hsorted := hb.sorted q
    rw [hL'] at hsorted' hv
    rw [hL] at hsorted
    rcases List.mem_cons.1 hv with rfl | hv
    · exact hvu
    · have hlt' := List.rel_of_pairwise_cons hsorted' hv
      rcases hmem q u' (by simp [hL']) with hu' | hle
      · rw [hL] at hu'
        rcases List.mem_cons.1 hu' with rfl | hu'
        · rfl
        · have := List.rel_of_pairwise_cons hsorted hu'
          omega
      · omega

/-- Only the phase changes. -/
theorem of_phase (H : s.Scheduled b) {e : TickEvent} {p : Phase} (h : b.step e = some { b with phase := p }) :
    s.Scheduled { b with phase := p } :=
  ⟨H.held, H.cb, H.next, H.freed, H.ordered.step h⟩

end Tasks.Scheduled

section
variable {fuel k : Nat} {api : PollApi P O K} {env : Env P K} {st st' : EpLoop P O K} {b : Scheduler}
  {s s' : Tasks Tick} {w w' : EpLoop P O K × List CallHistory} {pos n : Option (TaskRef Tick)} {cs : List CallHistory}

theorem runLoop_ticked (H : s.Scheduled b) (hrunning : b.running = none)
    (hpos : b.NexttickAt pos) (hn : s.list.getNext pos = .ok n)
    (h : runLoop .nexttick (noted (noteTask (CallHistory.note fuel api env) .nexttick)
      (taskCall fuel api env .nexttick)) k (s, w) pos n = .ok (s', w')) :
    ∃ cs b', w'.2 = w.2 ++ cs ∧ Ticked w.1.log w'.1.log b (cs.flatMap CallHistory.ticks) s' b' ∧
      b'.running = none ∧ b'.phase = .nexttick false := by
  induction k generalizing s w b pos n with
  | zero => cases h
  | succ k ih =>
    rw [runLoop] at h
    rcases hpos with ⟨t, l, hL, hphase, rfl⟩ | ⟨hphase, rfl⟩
    · rw [if_neg (by simp)] at h
      obtain ⟨m, b₁, hdel, hcb, hstep₁, H₁, hL₁, hrunning₁, hphase₁⟩ := H.take hrunning hphase hL
      rw [hdel, Res.ok_bind, taskEntry, Res.ok_bind] at h
      dsimp only at h
      rw [hcb, Res.ok_bind] at h
      obtain ⟨⟨s₂, w₂⟩, hcall, h⟩ := Res.bind_eq_ok.1 h
      obtain ⟨st₂, hrun, rfl, rfl⟩ := taskCall_noted hcall
      obtain ⟨b₂, T₂, E₂, -⟩ := runCallback_ticked hrun H₁ st₂
      obtain ⟨s₃, hfree, hstep₃, H₃⟩ := T₂.tasks.finish (E₂.running.trans hrunning₁)
      dsimp only at h
      rw [hfree, Res.ok_bind] at h
      obtain ⟨n', hn', h⟩ := Res.bind_eq_ok.1 h
      have hids : (b.queue .nexttick).map TaskCall.id = [] ++ t.id :: l.map TaskCall.id := by simp [hL]
      rw [H.held.toRep.next_task hids] at hn
      cases hn
      have T₁ : Ticked w.1.log (w.1.log ++ [.call (.task .nexttick t)]) b [.call .nexttick t] _ b₁ :=
        ⟨Scheduler.run_singleton.trans hstep₁, H₁, tickTrace_append⟩
      have T₃ : Ticked st₂.log st₂.log b₂ [.done t.id] s₃ _ :=
        ⟨Scheduler.run_singleton.trans hstep₃, H₃, (List.append_nil _).symm⟩
      have hphase₂ := E₂.phase.trans hphase₁
      have hpos : Scheduler.NexttickAt { b₂ with running := none, freed := b₂.freed ++ [t.id] }
          (some (((l.map TaskCall.id).map .task).headD (.head .nexttick))) := by
        cases l with
        | nil => exact .inr ⟨hphase₂, rfl⟩
        | cons u l =>
          obtain ⟨u', l', hL', hid⟩ := H₃.first_of_live H₁.ordered E₂.mem (by simp) hL₁
            (ListMem.live_of_getNext hn')
          exact .inl ⟨u', l', hL', hphase₂, by rw [hid]; rfl⟩
      obtain ⟨cs, b', hnotes, T, hend⟩ := ih H₃ rfl hpos hn' h
      refine ⟨_ :: cs, b', by rw [hnotes, List.append_assoc]; rfl, ?_, hend⟩
      rw [List.flatMap_cons]
      exact ((T₁.trans T₂).trans T₃).trans T
    · rw [if_pos rfl] at h
      cases h
      exact ⟨[], _, (List.append_nil _).symm, .refl H _, hrunning, hphase⟩

theorem notedNexttick_ticked (H : st.tasks.Scheduled b) (hrunning : b.running = none)
    (hphase : b.phase = .outside)
    (h : notedNexttick fuel api env (CallHistory.note fuel api env) (st, []) = .ok (st', cs)) :
    ∃ b', Ticked st.log st'.log b (.turn :: cs.flatMap CallHistory.ticks) st'.tasks b' ∧ b'.running = none ∧
      b'.phase = .nexttick false := by
  obtain ⟨⟨tasks, st₁⟩, hrun, h⟩ := Res.bind_eq_ok.1 h
  cases h
  have hstep : b.step .turn = some _ := if_pos ⟨hrunning, hphase⟩
  obtain ⟨pos, hpos, hrun⟩ := Res.bind_eq_ok.1 hrun
  obtain ⟨n, hn, hrun⟩ := Res.bind_eq_ok.1 hrun
  rw [H.held.toRep.next_head .nexttick] at hpos
  cases hpos
  obtain ⟨cs, b', hnotes, T, hend⟩ := runLoop_ticked (H.of_phase hstep) hrunning b.nexttickAt_turn hn hrun
  rw [hnotes]
  exact ⟨b', ⟨by rw [Scheduler.run_cons, hstep]; exact T.run, T.tasks, T.shown⟩, hend⟩

/-! ### The pass over the everytick queue -/

theorem runKeepLoop_ticked (H : s.Scheduled b) (hrunning : b.running = none) {m : Nat} (hm : m ∈ b.phase.start)
    (hpos : pos = some ((((b.rest m).map TaskCall.id).map .task).headD (.head .everytick)))
    (h : runKeepLoop .everytick (noted (noteTask (CallHistory.note fuel api env) .everytick)
      (taskCall fuel api env .everytick)) k (s, w) pos = .ok (s', w')) :
    ∃ cs b', w'.2 = w.2 ++ cs ∧ Ticked w.1.log w'.1.log b (cs.flatMap CallHistory.ticks ++ [.timers]) s' b' ∧
      b'.running = none ∧ b'.phase = .timers := by
  induction k generalizing s w b pos m with
  | zero => cases h
  | succ k ih =>
    rw [runKeepLoop] at h
    cases hrest : b.rest m with
    | nil =>
      rw [hrest] at hpos
      obtain rfl : pos = some (.head .everytick) := hpos
      rw [if_pos rfl] at h
      cases h
      have hstep : b.step .timers = some _ := if_pos ⟨hrunning, m, hm, hrest⟩
      exact ⟨[], _, (List.append_nil _).symm,
        ⟨Scheduler.run_singleton.trans hstep, H.of_phase hstep, (List.append_nil _).symm⟩, hrunning, rfl⟩
    | cons t l =>
      rw [hrest] at hpos
      have ht : t ∈ b.queue .everytick := List.mem_of_mem_filter (hrest ▸ List.mem_cons_self)
      have hcb : s.call t.id = .ok t := by
        rw [Tasks.call, if_pos (H.held.live .everytick _ (List.mem_map_of_mem ht)), H.cb _ t ht]
      obtain rfl : pos = some (.task t.id) := hpos
      rw [if_neg (by simp), taskEntry, Res.ok_bind, hcb, Res.ok_bind] at h
      obtain ⟨⟨s₂, w₂⟩, hcall, h⟩ := Res.bind_eq_ok.1 h
      obtain ⟨st₂, hrun, rfl, rfl⟩ := taskCall_noted hcall
      obtain ⟨n, hn, h⟩ := Res.bind_eq_ok.1 h
      have hstep : b.step (.call .everytick t) = some _ := if_pos ⟨hrunning, m, hm, by rw [hrest]; rfl⟩
      have H₁ := H.of_phase hstep
      obtain ⟨b₂, T₂, E₂, -⟩ := runCallback_ticked hrun H₁ st₂
      have T₁ : Ticked w.1.log (w.1.log ++ [.call (.task .everytick t)]) b [.call .everytick t] s _ :=
        ⟨Scheduler.run_singleton.trans hstep, H₁, tickTrace_append⟩
      have hrunning₂ : b₂.running = none := E₂.running.trans hrunning
      obtain ⟨v, hv, hid⟩ := T₂.tasks.mem_of_live H₁.ordered E₂.mem (by simp [hrunning₂]) ht
        (ListMem.live_of_getNext hn)
      obtain ⟨l₁, l₂, hL⟩ := List.append_of_mem hv
      have hids : (b₂.queue .everytick).map TaskCall.id = l₁.map TaskCall.id ++ v.id :: l₂.map TaskCall.id := by
        simp [hL]
      rw [← hid, T₂.tasks.held.toRep.next_task hids] at hn
      cases hn
      have hrest₂ := T₂.tasks.ordered.rest_succ hL
      obtain ⟨cs, b', hnotes, T, hend⟩ := ih T₂.tasks hrunning₂ (m := v.id + 1) (by rw [E₂.phase, hid]; rfl)
        (by rw [hrest₂]) h
      refine ⟨_ :: cs, b', by rw [hnotes, List.append_assoc]; rfl, ?_, hend⟩
      rw [List.flatMap_cons, List.append_assoc]
      exact (T₁.trans T₂).trans T

theorem notedEverytick_ticked (H : st.tasks.Scheduled b) (hrunning : b.running = none)
    (hphase : b.phase = .nexttick false)
    (h : notedEverytick fuel api env (CallHistory.note fuel api env) (st, []) = .ok (st', cs)) :
    ∃ b', Ticked st.log st'.log b (cs.flatMap CallHistory.ticks ++ [.timers]) st'.tasks b' ∧ b'.running = none ∧
      b'.phase = .timers := by
  obtain ⟨⟨tasks, st₁⟩, hrun, h⟩ := Res.bind_eq_ok.1 h
  cases h
  obtain ⟨pos, hpos, hrun⟩ := Res.bind_eq_ok.1 hrun
  rw [H.held.toRep.next_head .everytick] at hpos
  cases hpos
  have hm : 0 ∈ b.phase.start := by
    rw [hphase]
    rfl
  obtain ⟨cs, b', hnotes, T, hend⟩ := runKeepLoop_ticked H hrunning hm (by rw [b.rest_zero]) hrun
  rw [hnotes]
  exact ⟨b', ⟨T.run, T.tasks, T.shown⟩, hend⟩

/-! ### A turn -/

theorem notedTimers_ticked (H : st.tasks.Scheduled b)
    (h : notedTimers fuel api env (CallHistory.note fuel api env) (st, []) = .ok (st', cs)) :
    ∃ b', Ticked st.log st'.log b (cs.flatMap CallHistory.ticks) st'.tasks b' ∧ b.Edited b' := by
  obtain ⟨⟨timer, w⟩, hrun, h⟩ := Res.bind_eq_ok.1 h
  cases h
  obtain ⟨cs, b', hnotes, T, E⟩ := @ticked_of_called _ _ _ fuel api env b
    ({ st with world := (env.gettimeofday st.world).2 }, []) w H (epTimerExecuteNow_called hrun)
  rw [hnotes]
  exact ⟨b', T, E⟩

theorem epTurn_ticked {waittime : Int32} {ret : Int} (H : st.tasks.Scheduled b) (hrunning : b.running = none)
    (hphase : b.phase = .outside) (h : epTurn fuel api env st waittime = .ok (ret, st')) :
    ∃ u b', turnHistory fuel api env st = .ok u ∧ Ticked st.log st'.log b u.ticks st'.tasks b' ∧
      b'.running = none ∧ b'.phase = .outside := by
  obtain ⟨u, st₁, st₂, st₃, hu, h₁, h₂, h₃, -, -, h⟩ := epTurn_history h
  obtain ⟨b₁, T₁, hrunning₁, hphase₁⟩ := notedNexttick_ticked H hrunning hphase h₁
  obtain ⟨b₂, T₂, hrunning₂, hphase₂⟩ := notedEverytick_ticked T₁.tasks hrunning₁ hphase₁ h₂
  obtain ⟨b₃, T₃, E₃⟩ := notedTimers_ticked T₂.tasks h₃
  have hrunning₃ := E₃.running.trans hrunning₂
  obtain ⟨⟨timeout, timer⟩, -, h⟩ := Res.bind_eq_ok.1 h
  obtain ⟨⟨o, n, ps, world⟩, -, h⟩ := Res.bind_eq_ok.1 h
  cases h
  have hstep : b₃.step .wait = some _ := if_pos ⟨hrunning₃, E₃.phase.trans hphase₂⟩
  have T₄ : Ticked st₃.log (st₃.log ++ [.wait timeout o]) b₃ [.wait] st₃.tasks _ :=
    ⟨Scheduler.run_singleton.trans hstep, T₃.tasks.of_phase hstep, tickTrace_append⟩
  exact ⟨u, _, hu, ((T₁.trans T₂).trans T₃).trans T₄, hrunning₃, rfl⟩

/-! ### Runs -/

/-- No turn is going on. -/
def Scheduler.Idle (b : Scheduler) : Prop := b.running = none ∧ b.phase = .outside

theorem Does.ticked {h : List LoopEvent} (H : st.tasks.Scheduled b) (hb : b.Idle)
    (hdoes : Does fuel api env st h st') :
    ∃ b', Ticked st.log st'.log b (historyTicks h) st'.tasks b' ∧ b'.Idle := by
  cases hdoes with
  | nothing => exact ⟨b, .refl H _, hb⟩
  | @action a _ h =>
    obtain ⟨b', T, E, -⟩ := EpAction.exec_ticked H h
    refine ⟨b', ?_, E.running.trans hb.1, E.phase.trans hb.2⟩
    have hticks : historyTicks [.action (a.act fuel env st)] = [a.act fuel env st].filterMap Act.tick := by
      rw [historyTicks, List.flatMap_singleton, LoopEvent.ticks]
      cases htick : (a.act fuel env st).tick with
      | none => rw [List.filterMap_cons_none htick]; rfl
      | some e => rw [List.filterMap_cons_some htick]; rfl
    rw [hticks]
    exact T
  | turn ps ps' hu hturn =>
    have H₀ : ({ st with ps } : EpLoop P O K).tasks.Scheduled b := H
    obtain ⟨u, b', hu', T, hidle⟩ := epTurn_ticked H₀ hb.1 hb.2 hturn
    cases hu.symm.trans hu'
    rw [historyTicks, List.flatMap_singleton]
    exact ⟨b', ⟨T.run, T.tasks, T.shown⟩, hidle⟩

theorem loopRun_ticked {cs : List (LoopCall K)} (H : st.tasks.Scheduled b) (hb : b.Idle)
    (hrun : loopRun fuel api env st cs = .ok st') :
    ∃ h b', loopHistory fuel api env st cs = .ok h ∧ Ticked st.log st'.log b (historyTicks h) st'.tasks b' ∧
      b'.Idle := by
  obtain ⟨h, hhist, hR⟩ := loopRun_history (R := fun st h st' => ∀ b : Scheduler, st.tasks.Scheduled b → b.Idle →
    ∃ b', Ticked st.log st'.log b (historyTicks h) st'.tasks b' ∧ b'.Idle) (fun _ b H hb => ⟨b, .refl H _, hb⟩)
    (fun hdoes ih b H hb => by
      obtain ⟨b₁, T₁, hb₁⟩ := hdoes.ticked H hb
      obtain ⟨b₂, T₂, hb₂⟩ := ih b₁ T₁.tasks hb₁
      rw [historyTicks, List.flatMap_append]
      exact ⟨b₂, T₁.trans T₂, hb₂⟩) hrun
  obtain ⟨b', T, hb'⟩ := hR b H hb
  exact ⟨h, b', hhist, T, hb'⟩

end

section
variable {fuel : Nat} {api : PollApi P O K} {env : Env P K} {init : P → Int × P} {r r' : EpState P K} {n : Int}
  {cs cs' : List (LoopCall K)} {st st' : EpLoop P O K}

theorem EpState.Fresh.scheduled (H : r.Fresh) (h : epInit init r = .ok (n, r')) :
    r'.tasks.Scheduled Scheduler.init := by
  obtain ⟨hheld, hbrk, hfreed⟩ := H.held h
  exact ⟨hheld, fun _ _ h => (nomatch h), hbrk, hfreed, Scheduler.ordered_init⟩

theorem EpState.Fresh.ticked (H : r.Fresh) (h : epInit init r = .ok (n, r'))
    (hrun : loopRun fuel api env ⟨r', []⟩ cs = .ok st') :
    ∃ h b, loopHistory fuel api env ⟨r', []⟩ cs = .ok h ∧
      Ticked [] st'.log Scheduler.init (historyTicks h) st'.tasks b ∧ b.Idle := by
  refine loopRun_ticked ?_ ⟨rfl, rfl⟩ hrun
  exact H.scheduled h

/-- **The loop refines a scheduler**: whatever the callbacks and the program do, a run from `ep_init` on is a run
of the scheduler, with what the calls of its history queue and cancel, with the same calls of tasks and the same waits,
and with what is in the memory at the end. -/
theorem loop_refines_scheduler (hr : r.Fresh) (hinit : epInit init r = .ok (n, r'))
    (hrun : loopRun fuel api env ⟨r', []⟩ cs = .ok st') :
    ∃ h b, loopHistory fuel api env ⟨r', []⟩ cs = .ok h ∧ Scheduler.init.run (historyTicks h) = some b ∧ b.Idle ∧
      st'.tasks.Scheduled b ∧ tickTrace st'.log = seen (historyTicks h) := by
  obtain ⟨h, b, hhist, T, hb⟩ := hr.ticked hinit hrun
  exact ⟨h, b, hhist, T.run, hb, T.tasks, T.shown⟩

/-- A task of each queue, and a turn. -/
def tickingCalls : List (LoopCall (List WaitOutcome)) :=
  [.action (.nexttick false 2 0), .action (.everytick false 3 0), .iterate (-1) ⟨none, none⟩]

/-- Two tasks, one of which is cancelled, and a turn. -/
def cancellingCalls : List (LoopCall (List WaitOutcome)) :=
  [.action (.nexttick false 2 0), .action (.nexttick false 2 1), .action (.cleartask 2), .forEachStart (-1)]

theorem loop_refines_scheduler_ticking :
    ∃ r' st' h b, epInit (epEpollInit · 3 false) (rawLoop []) = .ok (0, r') ∧
      loopRun 3 (epollApi scriptedKernel) quietEnv ⟨r', []⟩ (tickingCalls ++ cancellingCalls) = .ok st' ∧
      loopHistory 3 (epollApi scriptedKernel) quietEnv ⟨r', []⟩ (tickingCalls ++ cancellingCalls) = .ok h ∧
      tickTrace st'.log = [some (.nexttick, ⟨0, 2, 0⟩), some (.everytick, ⟨1, 3, 0⟩), none,
        some (.nexttick, ⟨3, 2, 1⟩), some (.everytick, ⟨1, 3, 0⟩), none] ∧
      (historyActs h).filterMap Act.tick = [.queued .nexttick ⟨0, 2, 0⟩, .queued .everytick ⟨1, 3, 0⟩,
        .queued .nexttick ⟨2, 2, 0⟩, .queued .nexttick ⟨3, 2, 1⟩, .cancelled 2] ∧
      Scheduler.init.run (historyTicks h) = some b ∧ b.Idle ∧ st'.tasks.Scheduled b ∧
      tickTrace st'.log = seen (historyTicks h) := by
  obtain ⟨h, b, hhist, H⟩ := @loop_refines_scheduler _ _ _ 3 (epollApi scriptedKernel) quietEnv
    (epEpollInit · 3 false) (rawLoop []) _ _ (tickingCalls ++ cancellingCalls) _ (rawLoop_fresh _) rfl rfl
  refine ⟨_, _, h, b, rfl, rfl, hhist, rfl, ?_, H⟩
  cases hhist
  rfl

/-- **Tasks are called in order, and once.** In every run, the tasks of the nexttick queue are called in the
order in which they were queued, each at most once, and between two waits so are those of the everytick queue; and
no task is called whose block was freed, because it was called before or was cancelled. -/
theorem loop_tasks_in_order (hr : r.Fresh) (hinit : epInit init r = .ok (n, r'))
    (hrun : loopRun fuel api env ⟨r', []⟩ cs = .ok st) (hrun' : loopRun fuel api env st cs' = .ok st') :
    (tickCalls .nexttick (tickTrace st'.log)).Pairwise (fun t u => t.id < u.id) ∧
      (∀ pre mid post, st'.log = pre ++ (mid ++ post) → (∀ timeout o, .wait timeout o ∉ mid) →
        (tickCalls .everytick (tickTrace mid)).Pairwise fun t u => t.id < u.id) ∧
      ∀ new, st'.log = st.log ++ new → ∀ q t, .call (.task q t) ∈ new → t.id ∉ st.tasks.freed := by
  obtain ⟨h, b, -, T, hb⟩ := hr.ticked hinit hrun
  obtain ⟨h', b', -, T', hb'⟩ := loopRun_ticked T.tasks hb hrun'
  have hall := T.trans T'
  have hshown : tickTrace st'.log = seen (historyTicks h ++ historyTicks h') := hall.shown
  refine ⟨hshown ▸ (Scheduler.ordered_init.history hall.run).sorted, fun pre mid post hlog hwait => ?_,
    fun new hlog q t hmem => ?_⟩
  · rw [hlog, tickTrace_append, tickTrace_append] at hshown
    obtain ⟨tr₁, tr₂, htr, -, h₂⟩ := List.filterMap_eq_append_iff.1 hshown.symm
    obtain ⟨tr₂, tr₃, rfl, h₂, -⟩ := List.filterMap_eq_append_iff.1 h₂
    have hrun := hall.run
    rw [htr] at hrun
    obtain ⟨b₁, -, hrun⟩ := Scheduler.run_append.1 hrun
    obtain ⟨b₂, hrun, -⟩ := Scheduler.run_append.1 hrun
    replace h₂ : seen tr₂ = tickTrace mid := h₂
    rw [← h₂]
    refine Scheduler.everytick_sorted hrun fun hmem => ?_
    obtain ⟨timeout, o, hmem⟩ := none_mem_tickTrace.1 (h₂ ▸ none_mem_seen.2 hmem)
    exact hwait timeout o hmem
  · have hnew : tickTrace new = seen (historyTicks h') := by
      have h := T'.shown
      rw [hlog, tickTrace_append] at h
      exact List.append_cancel_left h
    rw [T.tasks.freed]
    refine (T.tasks.ordered.history T'.run).live q t (mem_tickCalls.2 ?_)
    exact hnew ▸ some_mem_tickTrace.2 hmem

theorem loop_tasks_in_order_ticking :
    ∃ r' st st' new, epInit (epEpollInit · 3 false) (rawLoop []) = .ok (0, r') ∧
      loopRun 3 (epollApi scriptedKernel) quietEnv ⟨r', []⟩ tickingCalls = .ok st ∧
      loopRun 3 (epollApi scriptedKernel) quietEnv st cancellingCalls = .ok st' ∧
      (tickCalls .nexttick (tickTrace st'.log)).map TaskCall.id = [0, 3] ∧
      (tickCalls .nexttick (tickTrace st'.log)).Pairwise (fun t u => t.id < u.id) ∧
      st.tasks.freed = [0] ∧ st'.log = st.log ++ new ∧
      ∀ q t, .call (.task q t) ∈ new → t.id ∉ st.tasks.freed := by
  obtain ⟨hsorted, -, hfreed⟩ := @loop_tasks_in_order _ _ _ 3 (epollApi scriptedKernel) quietEnv
    (epEpollInit · 3 false) (rawLoop []) _ _ tickingCalls cancellingCalls _ _ (rawLoop_fresh _) rfl rfl rfl
  exact ⟨_, _, _, _, rfl, rfl, rfl, rfl, hsorted, rfl, rfl, hfreed _ rfl⟩

/-- **Every turn serves its tasks.** Whatever a run did before, a call of `ep_iterate` or `ep__for_each_start` that
waits calls each task that was in a queue when it began, with the function and the argument that were stored, unless a
callback cancelled the task in the meantime. -/
theorem loop_serves_tasks (hr : r.Fresh) (hinit : epInit init r = .ok (n, r'))
    (hrun : loopRun fuel api env ⟨r', []⟩ cs = .ok st) {c : LoopCall K} (hc : c.exec fuel api env st = .ok st')
    {new : List (Obs O)} (hlog : st'.log = st.log ++ new) {timeout : Int32} {o : O}
    (hwait : .wait timeout o ∈ new) :
    ∃ h, c.history fuel api env st = .ok h ∧ ∀ q id, st.tasks.Queued q id →
      .call (.task q ⟨id, (st.tasks.cb id).fn, (st.tasks.cb id).arg⟩) ∈ new ∨
        ∃ x ∈ historyActs h, x.action = .cleartask id := by
  obtain ⟨h₀, b, -, T, hb⟩ := hr.ticked hinit hrun
  obtain ⟨h, hhist, hdoes⟩ := c.does hc
  refine ⟨h, hhist, fun q id hq => ?_⟩
  cases hdoes with
  | nothing =>
    obtain rfl : new = [] := by simpa using hlog
    cases hwait
  | action ha =>
    obtain rfl : new = [] := by simpa [(EpAction.exec_works ha).2] using hlog
    cases hwait
  | @turn ps ps' u _ _ st₁ hu hturn =>
    have H₀ : ({ st with ps } : EpLoop P O K).tasks.Scheduled b := T.tasks
    obtain ⟨u', b', hu', T', -, hphase⟩ := epTurn_ticked H₀ hb.1 hb.2 hturn
    cases hu.symm.trans hu'
    have hnew : tickTrace new = seen u.ticks := by
      have h := T'.shown
      rw [show st₁.log = st.log ++ new from hlog, tickTrace_append] at h
      exact List.append_cancel_left h
    obtain ⟨t, ht, rfl⟩ := List.mem_map.1 (T.tasks.held.toRep.queued.1 hq)
    rw [T.tasks.cb q t ht]
    rcases Scheduler.serves T.tasks.ordered T'.run hphase ht with hcall | hcancel
    · refine .inl (some_mem_tickTrace.1 (hnew ▸ some_mem_seen.2 ?_))
      exact List.mem_cons_of_mem _ hcall
    · refine .inr (exists_of_cancelled ?_)
      rw [historyTicks, List.flatMap_singleton]
      exact List.mem_cons_of_mem _ hcancel

/-- The first turn has called the nexttick task; the second one calls the everytick task, and nothing is cancelled. -/
theorem loop_serves_tasks_ticking :
    ∃ r' st st' new h, epInit (epEpollInit · 3 false) (rawLoop []) = .ok (0, r') ∧
      loopRun 3 (epollApi scriptedKernel) quietEnv ⟨r', []⟩ tickingCalls = .ok st ∧
      LoopCall.exec 3 (epollApi scriptedKernel) quietEnv st (.forEachStart (-1)) = .ok st' ∧
      st'.log = st.log ++ new ∧
      LoopCall.history 3 (epollApi scriptedKernel) quietEnv st (.forEachStart (-1)) = .ok h ∧ historyActs h = [] ∧
      (.call (.task .everytick ⟨1, 3, 0⟩) ∈ new ∨ ∃ x ∈ historyActs h, x.action = .cleartask 1) := by
  obtain ⟨h, hhist, H⟩ := @loop_serves_tasks _ _ _ 3 (epollApi scriptedKernel) quietEnv
    (epEpollInit · 3 false) (rawLoop []) _ _ tickingCalls _ _ (rawLoop_fresh _) rfl rfl
    (.forEachStart (-1)) rfl _ rfl (-1) (.fail 0) (by decide)
  refine ⟨_, _, _, _, h, rfl, rfl, rfl, rfl, hhist, ?_, H .everytick 1 ⟨[1], ⟨⟨rfl, rfl⟩, ⟨rfl, rfl⟩, by simp⟩, by simp⟩⟩
  cases hhist
  rfl

end

end Libep
