import Libep.Loop
import Libep.Verify.TaskQueue.Held
import Libep.Verify.Timer.Ends
import Libep.Verify.Timer.Waittime

/-!
# The contract of the loop

The loop trusts its users. `Contract` says what it needs of them: of the engine, that a legal call of it has
no fault, and of the callbacks, that they cancel only tasks that are in a queue, but not the one the pass over
the queue goes on with, and clear only timers that are in the list, which those of a batch are not. Then every
part of the loop keeps the memory of the tasks and of the timers in order.

The rules are for any set `E` of faults that are allowed. With all of them allowed nothing is needed of the
users, and the rules are about what is left by the runs that have a result.
-/

namespace Libep
open Chain

variable {P O K : Type}

/-! ### The contract -/

/-- The task that the pass a callback is called by goes on with. -/
def EpCall.Spares (s : Tasks Tick) : EpCall → Nat → Prop
  | .task .nexttick _, id => s.list.next (.head .nexttick) = some (.task id)
  | .task .everytick c, id => id = c.id
  | .timer _, _ => False

/-- A call is legal: of the engine if `legal` says so, and it takes back only what is there. -/
def EpAction.Legal (legal : P → PollCall → Prop) (spared : Nat → Prop) (st : EpState P K) : EpAction → Prop
  | .add fd events data => legal st.ps (.add fd events data)
  | .mod fd events data => legal st.ps (.mod fd events data)
  | .del fd => legal st.ps (.del fd)
  | .cleartimeout id | .clearinterval id => st.timer.Listed id
  | .cleartask id => (∃ q, st.tasks.Queued q id) ∧ ¬spared id
  | _ => True

section
variable (fuel : Nat) (api : PollApi P O K) (env : Env P K) (legal : P → PollCall → Prop)

/-- Each call is legal where it is made. -/
def LegalActions (spared : Nat → Prop) : EpLoop P O K → List EpAction → Prop
  | _, [] => True
  | st, a :: as => a.Legal legal spared st.toEpState ∧
    ∀ st', a.exec fuel api env st = .ok st' → LegalActions spared st' as

/-- The calls of a callback are legal. -/
def LegalCallback (st : EpLoop P O K) (c : EpCall) : Prop :=
  LegalActions fuel api env legal (c.Spares st.tasks)
    { st with world := (env.callback c st.toEpState).2, log := st.log ++ [.call c] }
    (env.callback c st.toEpState).1

/-- The tasks and the timers are in order, while blocks `out` of running tasks are not in a queue and a batch
`es` is not in the list. -/
def InOrder (st : EpState P K) (out : List Nat) (es : List Alarm) : Prop :=
  (∃ L, st.tasks.Held L out) ∧ ∃ A, st.timer.Rep A es ∧ ∀ e ∈ es, A.live e.id

/-- What the loop needs of its engine: legal calls have a result and keep `Inv`. -/
structure PollApi.Safe (Inv : P → Prop) : Prop where
  call : ∀ {ps k c}, Inv ps → legal ps c → ∃ r, c.exec api ps k = .ok r ∧ Inv r.2.1
  wait : ∀ {ps k timeout}, Inv ps → ∃ r, api.wait ps k timeout = .ok r ∧ Inv r.2.2.1
  fetch : ∀ {ps out}, Inv ps → ∃ r, api.fetch ps out = .ok r ∧ Inv r.2.1

/-- What the loop needs of its engine, of the callbacks and of the clock. `J` is an invariant of the program,
which its callbacks restore and the loop does not disturb by what it does between them. -/
structure Contract (Inv : P → Prop) (J : EpState P K → Prop) : Prop extends api.Safe legal Inv where
  callback : ∀ {st : EpLoop P O K} {c out es}, InOrder st.toEpState out es → Inv st.ps →
    J st.toEpState → LegalCallback fuel api env legal st c ∧
      ∀ st', runCallback fuel api env st c = .ok st' → J st'.toEpState
  clock : ∀ {st}, InOrder st [] [] → J st → J { st with world := (env.gettimeofday st.world).2 }
  updatetime : ∀ {st tv}, InOrder st [] [] → J st → J { st with timer := epTimerUpdatetime st.timer tv }
  extract : ∀ {st now first sl}, InOrder st [] [] →
    skiplistExtractLte timerLevel fuel st.timer.sl now = .ok (first, sl) →
    J st → J { st with timer := { st.timer with sl } }
  finish : ∀ {st e es timer}, InOrder st [] (e :: es) → rearmOrDestroy fuel st.timer e.id = .ok timer →
    J st → J { st with timer }
  unlink : ∀ {st a list}, InOrder st [] [] → st.tasks.list.next (.head .nexttick) = some (.task a) →
    listDel st.tasks.list (some (.task a)) = .ok list → J st → J { st with tasks := { st.tasks with list } }
  free : ∀ {st a tasks}, InOrder st [a] [] → st.tasks.free a = .ok tasks → J st → J { st with tasks }
  waited : ∀ {st timeout o ret ps world}, InOrder st [] [] →
    api.wait st.ps st.world timeout = .ok (o, ret, ps, world) → J st → J { st with ps, world }
  fetched : ∀ {st out ret ps out'}, InOrder st [] [] → api.fetch st.ps out = .ok (ret, ps, out') →
    J st → J { st with ps }

/-- The contract, or no need of one: every fault is allowed, and nothing is to be kept. -/
def ContractFor (E : Fault → Prop) (Inv : P → Prop) (J : EpState P K → Prop) : Prop :=
  E .fuel ∧ (¬E .invalid ∧ Contract fuel api env legal Inv J ∨
    E .invalid ∧ (∀ ps, Inv ps) ∧ ∀ st, J st)

end

section
variable {fuel : Nat} {api : PollApi P O K} {env : Env P K} {legal : P → PollCall → Prop}
  {E : Fault → Prop} {Inv : P → Prop} {J : EpState P K → Prop}

theorem Contract.contractFor (C : Contract fuel api env legal Inv J) :
    ContractFor fuel api env legal (· = .fuel) Inv J := ⟨rfl, .inl ⟨by simp, C⟩⟩

namespace ContractFor

/-- What is so with the contract, and without one if all results are as wanted. -/
theorem ends {α : Type} {x : Res α} {Q : α → Prop} (H : ContractFor fuel api env legal E Inv J)
    (h : Contract fuel api env legal Inv J → ¬E .invalid → Ends E x Q)
    (h' : (∀ ps, Inv ps) → (∀ st, J st) → ∀ a, x = .ok a → Q a) : Ends E x Q := by
  obtain ⟨hfuel, ⟨hE, C⟩ | ⟨hE, hInv, hJ⟩⟩ := H
  · exact h C hE
  · refine .of_result (fun e => ?_) (h' hInv hJ)
    cases e with
    | fuel => exact hfuel
    | invalid => exact hE

theorem keep (H : ContractFor fuel api env legal E Inv J) {st : EpState P K}
    (h : Contract fuel api env legal Inv J → ¬E .invalid → J st) : J st :=
  H.2.elim (fun H => h H.2 H.1) fun H => H.2.2 st

theorem call (H : ContractFor fuel api env legal E Inv J) {ps : P} {k : K} {c : PollCall}
    (hI : Inv ps) (hc : E .invalid ∨ legal ps c) : Ends E (c.exec api ps k) fun r => Inv r.2.1 :=
  H.ends (fun C hE => .of_exists (C.call hI (hc.resolve_left hE))) fun hInv _ _ _ => hInv _

theorem wait (H : ContractFor fuel api env legal E Inv J) {ps : P} {k : K} {timeout : Int32}
    (hI : Inv ps) : Ends E (api.wait ps k timeout) fun r => Inv r.2.2.1 :=
  H.ends (fun C _ => .of_exists (C.wait hI)) fun hInv _ _ _ => hInv _

theorem fetch (H : ContractFor fuel api env legal E Inv J) {ps : P} {out : Out} (hI : Inv ps) :
    Ends E (api.fetch ps out) fun r => Inv r.2.1 :=
  H.ends (fun C _ => .of_exists (C.fetch hI)) fun hInv _ _ _ => hInv _

end ContractFor

end

/-! ### Callbacks -/

section
variable {fuel : Nat} {api : PollApi P O K} {env : Env P K} {legal : P → PollCall → Prop}
  {E : Fault → Prop} {Inv : P → Prop} {J : EpState P K → Prop}
  {out : List Nat} {es : List Alarm} {spared : Nat → Prop} {s : Tasks Tick} {L : Tick → List Nat}
  {st : EpLoop P O K}

/-- What calls made from the tasks `s` on leave. -/
structure Served (E : Fault → Prop) (Inv : P → Prop) (out : List Nat) (es : List Alarm)
    (spared : Nat → Prop) (s : Tasks Tick) (L : Tick → List Nat) (st : EpState P K) : Prop where
  tasks : ∃ L', st.tasks.Held L' out ∧ s.Edits st.tasks L L' ∧
    (E .invalid ∨ ∀ id, spared id → s.list.live (.task id) → st.tasks.list.live (.task id))
  timer : ∃ A, st.timer.Rep A es ∧ Spared E A es
  engine : Inv st.ps

theorem Served.refl (st : EpLoop P O K) (H : st.tasks.Held L out) (Ht : ∃ A, st.timer.Rep A es ∧ Spared E A es)
    (hI : Inv st.ps) : Served E Inv out es spared st.tasks L st.toEpState :=
  ⟨⟨L, H, .refl H.toRep, .inr fun _ _ h => h⟩, Ht, hI⟩

/-- A call that is legal or excused. -/
theorem EpAction.exec_ends (C : ContractFor fuel api env legal E Inv J) {a : EpAction}
    (Hs : s.Rep L) (H : Served E Inv out es spared s L st.toEpState)
    (ha : E .invalid ∨ a.Legal legal spared st.toEpState) :
    Ends E (a.exec fuel api env st) fun st' => Served E Inv out es spared s L st'.toEpState := by
  obtain ⟨⟨L', HL, edits, hspared⟩, ⟨A, HA, hes⟩, hI⟩ := H
  have polled : ∀ {c : PollCall}, (E .invalid ∨ legal st.ps c) →
      Ends E (c.exec api st.ps st.world >>= fun r =>
        (.ok (r.1, { st with ps := r.2.1, world := r.2.2 }) : Res (Int × EpLoop P O K)))
        fun r => Served E Inv out es spared s L r.2.toEpState := fun hc =>
    (C.call hI hc).bind fun r _ hI => .ok ⟨⟨L', HL, edits, hspared⟩, ⟨A, HA, hes⟩, hI⟩
  -- the clock is read before a timer is started
  have timed : ∀ (op : TimerOp) (tv : Timeval), (E .invalid ∨ op.Legal (epTimerUpdatetime st.timer tv)) →
      Ends E (op.exec fuel (epTimerUpdatetime st.timer tv))
        fun timer => ∃ A, timer.Rep A es ∧ Spared E A es := fun op tv hop => by
    have H : (epTimerUpdatetime st.timer tv).Rep { A with now := tv.ms } es :=
      HA.exec (.updatetime tv) (Nat.lt_succ_self (A.brk + 1))
    exact H.exec_ends op C.1 hes hop
  have pushed : ∀ (q : Tick) (oom : Bool) (fn arg : Nat),
      Ends E (epTaskQueuePush st.tasks q oom fn arg >>= fun r =>
        (.ok (r.1, { st with tasks := r.2 }) : Res (Option Nat × EpLoop P O K)))
        fun r => Served E Inv out es spared s L r.2.toEpState := fun q oom fn arg => by
    obtain ⟨ret, s', L'', hpush, H', edits', hlive⟩ := HL.push q oom fn arg
    rw [hpush]
    exact .ok ⟨⟨L'', H', edits.trans Hs edits', hspared.imp_right fun h id hs hid => hlive id (h id hs hid)⟩,
      ⟨A, HA, hes⟩, hI⟩
  cases a with
  | add fd events data => exact (polled ha).bind fun _ _ h => .ok h
  | mod fd events data => exact (polled ha).bind fun _ _ h => .ok h
  | del fd => exact (polled ha).bind fun _ _ h => .ok h
  | settimeout oom ms cb arg =>
    have := (timed (.runAfter oom ms cb arg) (env.gettimeofday st.world).1 (.inr trivial)).of_map
    refine (this.bind (R := fun r => Served E Inv out es spared s L r.2.toEpState) ?_).bind
      fun _ _ h => .ok h
    exact fun r _ h => .ok ⟨⟨L', HL, edits, hspared⟩, h, hI⟩
  | setinterval oom ms cb arg =>
    have := (timed (.runEvery oom ms cb arg) (env.gettimeofday st.world).1 (.inr trivial)).of_map
    refine (this.bind (R := fun r => Served E Inv out es spared s L r.2.toEpState) ?_).bind
      fun _ _ h => .ok h
    exact fun r _ h => .ok ⟨⟨L', HL, edits, hspared⟩, h, hI⟩
  | cleartimeout id | clearinterval id =>
    exact (HA.exec_ends (.clear id) C.1 hes ha).bind fun _ _ h =>
      .ok ⟨⟨L', HL, edits, hspared⟩, h, hI⟩
  | nexttick oom cb arg => exact (pushed .nexttick oom cb arg).bind fun _ _ h => .ok h
  | everytick oom cb arg => exact (pushed .everytick oom cb arg).bind fun _ _ h => .ok h
  | cleartask id =>
    rw [exec, epCleartask]
    refine Ends.bind (Q := fun tasks => ∃ L'', tasks.Held L'' out ∧ st.tasks.Edits tasks L' L'' ∧
      (E .invalid ∨ ∀ a, a ≠ id → st.tasks.list.live (.task a) → tasks.list.live (.task a))) ?_
      fun tasks _ ⟨L'', H', edits', hlive⟩ => ?_
    · by_cases hid : ∃ q, id ∈ L' q
      · obtain ⟨q, hid⟩ := hid
        obtain ⟨s', L'', hcancel, H', edits', hlive⟩ := HL.cancel hid
        exact .of_exists ⟨s', hcancel, L'', H', edits', .inr hlive⟩
      · have hE : E .invalid := ha.resolve_right fun h => hid <| by
          obtain ⟨⟨q, h⟩, -⟩ := h
          exact ⟨q, HL.toRep.queued.1 h⟩
        refine .of_result (fun e => ?_) fun s' h => absurd (HL.queued_of_cancel h) hid
        cases e with
        | fuel => exact C.1
        | invalid => exact hE
    · refine .ok ⟨⟨L'', H', edits.trans Hs edits', ?_⟩, ⟨A, HA, hes⟩, hI⟩
      rcases ha with hE | ⟨-, hid⟩
      · exact .inl hE
      · rcases hlive with hE | hlive
        · exact .inl hE
        · exact hspared.imp_right fun h a hs hlive' =>
            hlive a (fun e => hid (e ▸ hs)) (h a hs hlive')

theorem execActions_ends (C : ContractFor fuel api env legal E Inv J) {as : List EpAction}
    (Hs : s.Rep L) (H : Served E Inv out es spared s L st.toEpState)
    (has : E .invalid ∨ LegalActions fuel api env legal spared st as) :
    Ends E (execActions fuel api env st as) fun st' => Served E Inv out es spared s L st'.toEpState := by
  induction as generalizing st with
  | nil => exact .ok H
  | cons a as ih =>
    exact (a.exec_ends C Hs H (has.imp_right And.left)).bind fun st' hrun H' =>
      ih H' (has.imp_right fun h => h.2 st' hrun)

/-- A callback. -/
theorem runCallback_ends (C : ContractFor fuel api env legal E Inv J) (st : EpLoop P O K) {c : EpCall}
    (H : st.tasks.Held L out) (Ht : ∃ A, st.timer.Rep A es ∧ Spared E A es) (hI : Inv st.ps)
    (hJ : J st.toEpState) :
    Ends E (runCallback fuel api env st c) fun st' =>
      Served E Inv out es (c.Spares st.tasks) st.tasks L st'.toEpState ∧ J st'.toEpState := by
  have hlegal : (E .invalid ∧ ∀ st, J st) ∨ LegalCallback fuel api env legal st c ∧
      ∀ st', runCallback fuel api env st c = .ok st' → J st'.toEpState := by
    rcases C.2 with ⟨hE, C⟩ | ⟨hE, -, hJ⟩
    · obtain ⟨A, HA, hes⟩ := Ht
      exact .inr (C.callback ⟨⟨L, H⟩, A, HA, hes.resolve_left hE⟩ hI hJ)
    · exact .inl ⟨hE, hJ⟩
  have hactions : Ends E (runCallback fuel api env st c) fun st' =>
      Served E Inv out es (c.Spares st.tasks) st.tasks L st'.toEpState :=
    execActions_ends C H.toRep
      (.refl { st with world := (env.callback c st.toEpState).2, log := st.log ++ [.call c] } H Ht hI)
      (hlegal.imp And.left And.left)
  exact Ends.mono hactions fun st' hrun H' =>
    ⟨H', hlegal.elim (fun h => h.2 _) fun h => h.2 st' hrun⟩

/-! ### The parts of a turn -/

/-- A loop between the callbacks. -/
structure EpState.Sound (Inv : P → Prop) (J : EpState P K → Prop) (st : EpState P K) : Prop where
  tasks : ∃ L, st.tasks.Held L []
  timer : ∃ A, st.timer.Rep A []
  engine : Inv st.ps
  program : J st

/-- The loop without its tasks, while a pass over a queue works on them. -/
def BesideTasks (Inv : P → Prop) (J : EpState P K → Prop) (r : Tasks Tick × EpLoop P O K) : Prop :=
  (∃ A, r.2.timer.Rep A []) ∧ Inv r.2.ps ∧ J { r.2.toEpState with tasks := r.1 }

/-- The loop without its timers, while they are executed. -/
def BesideTimer (Inv : P → Prop) (J : EpState P K → Prop) (r : Timer × EpLoop P O K) : Prop :=
  (∃ L, r.2.tasks.Held L []) ∧ Inv r.2.ps ∧ J { r.2.toEpState with timer := r.1 }

theorem BesideTasks.inOrder {w : EpLoop P O K} (hI : BesideTasks Inv J (s, w)) (H : s.Held L out) :
    InOrder { w.toEpState with tasks := s } out [] := by
  obtain ⟨⟨A, HA⟩, -⟩ := hI
  exact ⟨⟨L, H⟩, A, HA, by simp⟩

theorem BesideTimer.inOrder {t : Timer} {A : Alarms} {w : EpLoop P O K} (hI : BesideTimer Inv J (t, w))
    (HA : t.Rep A es) (hes : ∀ e ∈ es, A.live e.id) : InOrder { w.toEpState with timer := t } [] es :=
  ⟨hI.1, A, HA, hes⟩

theorem EpState.Sound.inOrder {st : EpState P K} (H : st.Sound Inv J) : InOrder st [] [] := by
  obtain ⟨A, HA⟩ := H.timer
  exact ⟨H.tasks, A, HA, by simp⟩

theorem taskCall_ends (C : ContractFor fuel api env legal E Inv J) {q : Tick} {c : TaskCall}
    {w : EpLoop P O K} (H : s.Held L out) (hI : BesideTasks Inv J (s, w)) :
    Ends E (taskCall fuel api env q c (s, w)) fun r => BesideTasks Inv J r ∧
      ∃ L', r.1.Held L' out ∧ s.Edits r.1 L L' ∧
        (E .invalid ∨ ∀ id, (EpCall.task q c).Spares s id → s.list.live (.task id) →
          r.1.list.live (.task id)) := by
  obtain ⟨⟨A, HA⟩, hI, hJ⟩ := hI
  refine (runCallback_ends C { w with tasks := s } H ⟨A, HA, .inr (by simp)⟩ hI hJ).bind
    fun st' _ ⟨H', hJ'⟩ => ?_
  obtain ⟨A', HA', -⟩ := H'.timer
  exact .ok ⟨⟨⟨A', HA'⟩, H'.engine, hJ'⟩, H'.tasks⟩

theorem nexttick_serves (C : ContractFor fuel api env legal E Inv J) :
    ServesRun E .nexttick (taskCall fuel api env .nexttick) (BesideTasks (O := O) Inv J) where
  unlink {s w L a l m} H hL hdel hI := by
    refine ⟨hI.1, hI.2.1, C.keep fun C _ => ?_⟩
    have hfirst := (H.ring .nexttick).next_head
    rw [hL] at hfirst
    exact C.unlink (hI.inOrder H) hfirst hdel hI.2.2
  call {s w L c} H hI := by
    refine (taskCall_ends C H hI).mono fun r _ ⟨hI', L', H', edits, hspared⟩ =>
      ⟨hI', L', H', edits, hspared.imp_right fun h u hu => ?_⟩
    obtain ⟨l, hL⟩ := List.head?_eq_some_iff.1 hu
    refine h u ?_ (H.live .nexttick u (by simp [hL]))
    have hfirst := (H.ring .nexttick).next_head
    rwa [hL] at hfirst
  free {s w L a s'} H hfree hI := by
    refine ⟨hI.1, hI.2.1, C.keep fun C _ => ?_⟩
    have hJ := C.free (hI.inOrder H) hfree hI.2.2
    exact hJ

theorem everytick_serves (C : ContractFor fuel api env legal E Inv J) :
    ServesKeep E .everytick (taskCall fuel api env .everytick) (BesideTasks (O := O) Inv J) where
  call {s w L c} H hc hI := by
    refine (taskCall_ends C H hI).mono fun r _ ⟨hI', L', H', edits, hspared⟩ =>
      ⟨hI', L', H', edits, hspared.imp_right fun h => ?_⟩
    exact h c.id rfl (H.live .everytick c.id hc)

theorem timers_serve (C : ContractFor fuel api env legal E Inv J) :
    ServesExecute E fuel (timerCall fuel api env) (BesideTimer (O := O) Inv J) where
  updatetime {t w A tv} HA hI := ⟨hI.1, hI.2.1, C.keep fun C _ =>
    C.updatetime (hI.inOrder HA (by simp)) hI.2.2⟩
  extract {t w A now first sl} HA h hI := ⟨hI.1, hI.2.1, C.keep fun C _ =>
    C.extract (hI.inOrder HA (by simp)) h hI.2.2⟩
  call {t w A es f} HA hes hI := by
    obtain ⟨⟨L, H⟩, hI, hJ⟩ := hI
    refine (runCallback_ends C { w with timer := t } H ⟨A, HA, hes⟩ hI hJ).bind
      fun st' _ ⟨H', hJ'⟩ => ?_
    obtain ⟨L', HL', -⟩ := H'.tasks
    exact .ok ⟨⟨⟨L', HL'⟩, H'.engine, hJ'⟩, H'.timer⟩
  finish {t w A e es t'} HA hes h hI := by
    refine ⟨hI.1, hI.2.1, C.keep fun C hE => ?_⟩
    have hJ := C.finish (hI.inOrder HA (hes.resolve_left hE)) h hI.2.2
    exact hJ

variable {waittime : Int32}

theorem epRunNexttick_ends (C : ContractFor fuel api env legal E Inv J)
    (H : st.toEpState.Sound Inv J) :
    Ends E (epRunNexttick fuel api env st) fun st' => st'.toEpState.Sound Inv J := by
  obtain ⟨⟨L, HL⟩, HA, hI, hJ⟩ := H
  exact (epTaskQueueRun_ends C.1 (nexttick_serves C) HL ⟨HA, hI, hJ⟩).bind
    fun r _ ⟨hI', hL'⟩ => .ok ⟨hL', hI'.1, hI'.2.1, hI'.2.2⟩

theorem epRunEverytick_ends (C : ContractFor fuel api env legal E Inv J)
    (H : st.toEpState.Sound Inv J) :
    Ends E (epRunEverytick fuel api env st) fun st' => st'.toEpState.Sound Inv J := by
  obtain ⟨⟨L, HL⟩, HA, hI, hJ⟩ := H
  exact (epTaskQueueRunKeep_ends C.1 (everytick_serves C) HL ⟨HA, hI, hJ⟩).bind
    fun r _ ⟨hI', hL'⟩ => .ok ⟨hL', hI'.1, hI'.2.1, hI'.2.2⟩

theorem epExecuteTimers_ends (C : ContractFor fuel api env legal E Inv J)
    (H : st.toEpState.Sound Inv J) :
    Ends E (epExecuteTimers fuel api env st) fun st' => st'.toEpState.Sound Inv J := by
  have hclock : J { st.toEpState with world := (env.gettimeofday st.world).2 } :=
    C.keep fun C _ => C.clock H.inOrder H.program
  obtain ⟨HL, ⟨A, HA⟩, hI, -⟩ := H
  exact (epTimerExecuteNow_ends (w := { st with world := (env.gettimeofday st.world).2 }) C.1
    (timers_serve C) HA ⟨HL, hI, hclock⟩).bind
    fun r _ ⟨hI', hA'⟩ => .ok ⟨hI'.1, hA', hI'.2.1, hI'.2.2⟩

theorem exists_epWaittime {t : Timer} {A : Alarms} (H : t.Rep A []) (tv : Timeval) (waittime : Int32) :
    ∃ w, epWaittime t tv waittime = .ok (w, epTimerUpdatetime t tv) := by
  rw [epWaittime, (H.updatetime tv).epTimerNearestDiff]
  exact ⟨_, rfl⟩

theorem epWait_ends (C : ContractFor fuel api env legal E Inv J) (H : st.toEpState.Sound Inv J) :
    Ends E (epWait api env st waittime) fun r => r.2.toEpState.Sound Inv J := by
  set tv := (env.gettimeofday st.world).1
  set world := (env.gettimeofday st.world).2
  have horder := H.inOrder
  obtain ⟨HL, ⟨A, HA⟩, hI, hJ⟩ := H
  have HA' := HA.updatetime tv
  obtain ⟨w, hw⟩ := exists_epWaittime HA tv waittime
  have hJ' : J { st.toEpState with world, timer := epTimerUpdatetime st.timer tv } := by
    refine C.keep fun C _ => ?_
    have horder' : InOrder { st.toEpState with world } [] [] := horder
    exact C.updatetime horder' (C.clock horder hJ)
  rw [epWait]
  dsimp only
  rw [hw, Res.ok_bind]
  have horder' : InOrder { st.toEpState with world, timer := epTimerUpdatetime st.timer tv } [] [] :=
    ⟨HL, _, HA', by simp⟩
  exact (C.wait (k := world) hI).bind fun r hrun hI' =>
    .ok ⟨HL, ⟨_, HA'⟩, hI', C.keep fun C _ => C.waited horder' hrun hJ'⟩

theorem epBeforeWait_ends (C : ContractFor fuel api env legal E Inv J) (H : st.toEpState.Sound Inv J) :
    Ends E (epBeforeWait fuel api env st) fun st' => st'.toEpState.Sound Inv J :=
  (epRunNexttick_ends C H).bind fun _ _ H => (epRunEverytick_ends C H).bind fun _ _ H =>
    epExecuteTimers_ends C H

theorem epTurn_ends (C : ContractFor fuel api env legal E Inv J) (H : st.toEpState.Sound Inv J) :
    Ends E (epTurn fuel api env st waittime) fun r => r.2.toEpState.Sound Inv J :=
  (epBeforeWait_ends C H).bind fun _ _ H => epWait_ends C H

theorem epFetch_ends (C : ContractFor fuel api env legal E Inv J) (H : st.toEpState.Sound Inv J)
    {out : Out} : Ends E (epFetch api st out) fun r => r.2.2.toEpState.Sound Inv J := by
  refine (C.fetch H.engine).bind fun r hrun hI => .ok ⟨H.tasks, H.timer, hI, C.keep fun C _ => ?_⟩
  exact C.fetched H.inOrder hrun H.program

theorem epIterate_ends (C : ContractFor fuel api env legal E Inv J) (H : st.toEpState.Sound Inv J)
    {out : Out} :
    Ends E (epIterate fuel api env st waittime out) fun r => r.2.2.toEpState.Sound Inv J := by
  refine (epFetch_ends C H).bind fun ⟨ret, out, st₁⟩ _ H₁ => ?_
  dsimp only
  split
  · refine (epTurn_ends C H₁).bind fun ⟨ret, st₂⟩ _ H₂ => ?_
    dsimp only
    split
    · exact (epFetch_ends C H₂).bind fun r _ H₃ => .ok H₃
    · exact .ok H₂
  · exact .ok H₁

end

/-! ### Runs -/

/-- The calls that a program makes itself are legal, and restore its invariant. -/
def LegalProgram (fuel : Nat) (api : PollApi P O K) (env : Env P K) (legal : P → PollCall → Prop)
    (J : EpState P K → Prop) : EpLoop P O K → List (LoopCall K) → Prop
  | _, [] => True
  | st, .action a :: cs => a.Legal legal (fun _ => False) st.toEpState ∧
    ∀ st', a.exec fuel api env st = .ok st' → J st'.toEpState ∧ LegalProgram fuel api env legal J st' cs
  | st, .other f :: cs => J { st.toEpState with world := f st.world } ∧
    LegalProgram fuel api env legal J { st with world := f st.world } cs
  | st, c :: cs => ∀ st', c.exec fuel api env st = .ok st' → LegalProgram fuel api env legal J st' cs

section
variable {fuel : Nat} {api : PollApi P O K} {env : Env P K} {legal : P → PollCall → Prop}
  {E : Fault → Prop} {Inv : P → Prop} {J : EpState P K → Prop} {st : EpLoop P O K}

/-- **A run** has the faults `E` at most, and leaves the loop as it should be. -/
theorem loopRun_ends (C : ContractFor fuel api env legal E Inv J) {cs : List (LoopCall K)}
    (H : st.toEpState.Sound Inv J) (hcs : E .invalid ∨ LegalProgram fuel api env legal J st cs) :
    Ends E (loopRun fuel api env st cs) fun st' => st'.toEpState.Sound Inv J := by
  induction cs generalizing st with
  | nil => exact .ok H
  | cons c cs ih =>
    rw [loopRun]
    cases c with
    | iterate waittime out =>
      exact ((epIterate_ends C H).bind (R := fun st' => st'.toEpState.Sound Inv J) fun r _ H' => .ok H').bind
        fun st' hrun H' => ih H' (hcs.imp_right fun h => h st' hrun)
    | forEachStart waittime =>
      exact ((epTurn_ends C H).bind (R := fun st' => st'.toEpState.Sound Inv J) fun r _ H' => .ok H').bind
        fun st' hrun H' => ih H' (hcs.imp_right fun h => h st' hrun)
    | fetch out =>
      exact ((epFetch_ends C H).bind (R := fun st' => st'.toEpState.Sound Inv J) fun r _ H' => .ok H').bind
        fun st' hrun H' => ih H' (hcs.imp_right fun h => h st' hrun)
    | action a =>
      obtain ⟨⟨L, HL⟩, ⟨A, HA⟩, hI, hJ⟩ := H
      have H' : Served E Inv [] [] (fun _ => False) st.tasks L st.toEpState :=
        .refl st HL ⟨A, HA, .inr (by simp)⟩ hI
      refine (a.exec_ends C HL.toRep H' (hcs.imp_right And.left)).bind fun st' hrun H'' => ?_
      obtain ⟨L', HL', -⟩ := H''.tasks
      obtain ⟨A', HA', -⟩ := H''.timer
      refine ih ⟨⟨L', HL'⟩, ⟨A', HA'⟩, H''.engine, ?_⟩ (hcs.imp_right fun h => (h.2 st' hrun).2)
      rcases C.2 with ⟨hE, -⟩ | ⟨-, -, hJ⟩
      · exact ((hcs.resolve_left hE).2 st' hrun).1
      · exact hJ _
    | other f =>
      show Ends E (loopRun fuel api env { st with world := f st.world } cs) _
      refine ih ⟨H.tasks, H.timer, H.engine, ?_⟩
        (hcs.imp_right And.right)
      rcases C.2 with ⟨hE, -⟩ | ⟨-, -, hJ⟩
      · exact (hcs.resolve_left hE).1
      · exact hJ _

end

end Libep
