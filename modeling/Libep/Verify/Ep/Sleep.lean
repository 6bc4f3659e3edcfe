import Libep.Verify.Ep.Deliver
import Libep.Verify.Ep.History
import Libep.Verify.TaskQueue.Owned

/-!
# The tasks of the next tick at a wait

The timeout of a wait depends on the timers only. A turn runs the nexttick tasks first, so what is in their
queue at the wait was scheduled later in the turn: by the last nexttick task, an everytick task or a timer.
`nexttick_at_wait` says so; `waits_with_nexttick` is a loop that sleeps on such a task.
-/

namespace Libep
open Relation (ReflTransGen)

/-! ### The callbacks of a turn -/

/-- A callback that was called, with the tasks it found and those it left. -/
structure Called where
  call : EpCall
  before : Tasks Tick
  after : Tasks Tick

namespace Called

/-- No nexttick task was left to run. -/
def Late (c : Called) : Prop :=
  match c.call with
  | .task .nexttick _ => listEmpty c.before.list (.head .nexttick) = .ok true
  | .task .everytick _ | .timer _ => True

/-- The note of a callback, by the states before and after it. -/
def note {P O K : Type} (call : EpCall) (st st' : EpLoop P O K) : Called := ⟨call, st.tasks, st'.tasks⟩

/-- The callback scheduled the task `a` for the next tick. -/
def Scheduled (c : Called) (a : Nat) : Prop :=
  c.before.brk ≤ a ∧ ∃ L, c.after.Rep L ∧ a ∈ L .nexttick

end Called

section
variable {P O K : Type} (fuel : Nat) (api : PollApi P O K) (env : Env P K)

/-- A turn up to its wait, and the callbacks it called. -/
def notedTurn (st : EpLoop P O K) : Res (EpLoop P O K × List Called) := do
  let w ← notedNexttick fuel api env Called.note (st, [])
  let w ← notedEverytick fuel api env Called.note w
  notedTimers fuel api env Called.note w

variable {fuel api env} {st st' st₁ : EpLoop P O K} {notes notes' : List Called}

/-- The turn with notes is the turn. -/
theorem notedTurn_fst : Prod.fst <$> notedTurn fuel api env st = epBeforeWait fuel api env st := by
  unfold notedTurn epBeforeWait
  rw [map_bind, ← @notedNexttick_fst _ _ _ _ fuel api env Called.note st [], bind_map_left]
  refine congrArg _ (funext fun w => ?_)
  rw [map_bind, ← @notedEverytick_fst _ _ _ _ fuel api env Called.note w.1 w.2, bind_map_left]
  exact congrArg _ (funext fun w => notedTimers_fst)

/-- So every turn has its notes. -/
theorem exists_notes (h : epBeforeWait fuel api env st = .ok st₁) :
    ∃ notes, notedTurn fuel api env st = .ok (st₁, notes) :=
  exists_of_map_fst (notedTurn_fst.trans h)

/-! ### What callbacks do to the tasks -/

variable {L : Tick → List Nat} {s s' : Tasks Tick}

theorem EpAction.exec_owned {a : EpAction} (H : st.tasks.Owned L) (h : a.exec fuel api env st = .ok st') :
    ∃ L', st'.tasks.Owned L' ∧ st.tasks.Edits st'.tasks L L' := by
  cases a with
  | add | mod | del | settimeout | setinterval =>
    obtain ⟨_, h, hst⟩ := Res.bind_eq_ok.1 h
    obtain ⟨_, -, h⟩ := Res.bind_eq_ok.1 h
    cases h
    cases hst
    exact ⟨L, H, .refl H.toRep⟩
  | cleartimeout | clearinterval =>
    obtain ⟨_, -, h⟩ := Res.bind_eq_ok.1 h
    cases h
    exact ⟨L, H, .refl H.toRep⟩
  | nexttick | everytick =>
    obtain ⟨_, h, hst⟩ := Res.bind_eq_ok.1 h
    obtain ⟨_, hpush, h⟩ := Res.bind_eq_ok.1 h
    cases h
    cases hst
    exact H.push hpush
  | cleartask =>
    obtain ⟨_, hcancel, h⟩ := Res.bind_eq_ok.1 h
    cases h
    exact H.cancel hcancel

theorem execActions_owned {as : List EpAction} (H : st.tasks.Owned L)
    (h : execActions fuel api env st as = .ok st') :
    ∃ L', st'.tasks.Owned L' ∧ st.tasks.Edits st'.tasks L L' := by
  induction as generalizing st L with
  | nil =>
    cases h
    exact ⟨L, H, .refl H.toRep⟩
  | cons a as ih =>
    obtain ⟨st₁, ha, h⟩ := Res.bind_eq_ok.1 h
    obtain ⟨L₁, H₁, E₁⟩ := a.exec_owned H ha
    obtain ⟨L', H', E'⟩ := ih H₁ h
    exact ⟨L', H', E₁.trans H.toRep E'⟩

theorem runCallback_owned {c : EpCall} (H : st.tasks.Owned L)
    (h : runCallback fuel api env st c = .ok st') :
    ∃ L', st'.tasks.Owned L' ∧ st.tasks.Edits st'.tasks L L' :=
  @execActions_owned _ _ _ fuel api env { st with
    world := (env.callback c st.toEpState).2, log := st.log ++ [.call c] } st' L _ H h

theorem taskCall_owned {q : Tick} {c : TaskCall}
    (h : taskCall fuel api env q c (s, st) = .ok (s', st')) (H : s.Owned L) :
    ∃ L', s'.Owned L' ∧ s.Edits s' L L' := by
  obtain ⟨st₁, hrun, h⟩ := Res.bind_eq_ok.1 h
  cases h
  exact @runCallback_owned _ _ _ _ _ _ { st with tasks := s } _ _ _ H hrun

theorem timerCall_owned {f : Firing} {t t' : Timer}
    (h : timerCall fuel api env f (t, st) = .ok (t', st')) (H : st.tasks.Owned L) :
    ∃ L', st'.tasks.Owned L' ∧ st.tasks.Edits st'.tasks L L' := by
  obtain ⟨st₁, hrun, h⟩ := Res.bind_eq_ok.1 h
  cases h
  exact @runCallback_owned _ _ _ _ _ _ { st with timer := t } _ _ _ H hrun

/-! ### The parts of a turn -/

/-- A task that a late callback scheduled. -/
def LeftBy (notes : List Called) (a : Nat) : Prop := ∃ c ∈ notes, c.Late ∧ c.Scheduled a

/-- The tasks of the next tick were scheduled by late callbacks. -/
def Accounted (s : Tasks Tick) (notes : List Called) : Prop :=
  ∃ L, s.Owned L ∧ ∀ a ∈ L .nexttick, LeftBy notes a

/-- A late callback. -/
theorem Accounted.late {c : Called} (hlate : c.Late)
    (hc : ∀ {L}, c.before.Owned L → ∃ L', c.after.Owned L' ∧ c.before.Edits c.after L L')
    (H : Accounted c.before notes) : Accounted c.after (notes ++ [c]) := by
  obtain ⟨L, hL, hleft⟩ := H
  obtain ⟨L', hL', E⟩ := hc hL
  refine ⟨L', hL', fun a ha => ?_⟩
  obtain ⟨new, hnext, hnew⟩ := E.lists .nexttick
  have ha' := ha
  rw [hnext, List.mem_append] at ha'
  rcases ha' with hold | hmem
  · obtain ⟨d, hd, hd'⟩ := hleft a (List.mem_of_mem_filter hold)
    exact ⟨d, List.mem_append_left _ hd, hd'⟩
  · exact ⟨c, List.mem_append_right _ (List.mem_singleton_self c), hlate, hnew a hmem, L', hL'.toRep, ha⟩

/-- The last callback of the nexttick tasks is late. -/
theorem nexttick_leaves : Leaves .nexttick
    (noted (noteTask Called.note .nexttick) (taskCall fuel api env .nexttick)) fun w a => LeftBy w.2 a := by
  intro c s w s' w' L h H
  obtain ⟨⟨s₁, st₁⟩, hcall, h⟩ := Res.bind_eq_ok.1 h
  cases h
  obtain ⟨L', H', E⟩ := taskCall_owned hcall H
  refine ⟨L', H', E, fun hnil a ha => ?_⟩
  have hlate : (noteTask Called.note .nexttick c (s, w.1) (s₁, st₁)).Late := by
    show listEmpty s.list (.head .nexttick) = .ok true
    simp [listEmpty, H.toRep.next_head, hnil]
  refine ⟨_, List.mem_append_right _ (List.mem_singleton_self _), hlate, ?_, L', H'.toRep, ha⟩
  obtain ⟨new, hnext, hnew⟩ := E.lists .nexttick
  rw [hnext, hnil] at ha
  exact hnew a ha

theorem notedNexttick_accounted (H : st.tasks.Owned L)
    (h : notedNexttick fuel api env Called.note (st, notes) = .ok (st', notes')) : Accounted st'.tasks notes' := by
  obtain ⟨⟨tasks, w⟩, hrun, h⟩ := Res.bind_eq_ok.1 h
  cases h
  obtain ⟨L', H', hleft⟩ := epTaskQueueRun_leaves nexttick_leaves H hrun
  exact ⟨L', H', hleft⟩

theorem notedEverytick_accounted (H : Accounted st.tasks notes)
    (h : notedEverytick fuel api env Called.note (st, notes) = .ok (st', notes')) : Accounted st'.tasks notes' := by
  obtain ⟨⟨tasks, w⟩, hrun, h⟩ := Res.bind_eq_ok.1 h
  obtain ⟨pos, -, hrun⟩ := Res.bind_eq_ok.1 hrun
  cases h
  refine @runKeepLoop_keeps _ _ _ _ _ _ _ _ _ _ _ (fun s w => Accounted s w.2) ?_ H hrun
  intro c s w s' w' hcall H
  obtain ⟨⟨s₁, st₁⟩, hrun, h⟩ := Res.bind_eq_ok.1 hcall
  cases h
  exact @Accounted.late _ (noteTask Called.note .everytick c (s, w.1) (s₁, st₁)) trivial (taskCall_owned hrun) H

theorem notedTimers_accounted (H : Accounted st.tasks notes)
    (h : notedTimers fuel api env Called.note (st, notes) = .ok (st', notes')) : Accounted st'.tasks notes' := by
  obtain ⟨⟨timer, w⟩, hrun, h⟩ := Res.bind_eq_ok.1 h
  cases h
  have hcalled := epTimerExecuteNow_called hrun
  clear hrun h
  induction hcalled with
  | refl => exact H
  | @tail w w' _ hcall ih =>
    obtain ⟨f, t, t', hcall⟩ := hcall
    obtain ⟨⟨t₁, st₁⟩, hrun, h⟩ := Res.bind_eq_ok.1 hcall
    cases h
    exact @Accounted.late _ (noteTimer Called.note f (t, w.1) (t₁, st₁)) trivial (timerCall_owned hrun) ih

theorem epBeforeWait_accounted (H : st.tasks.Owned L) (h : epBeforeWait fuel api env st = .ok st₁) :
    ∃ notes, notedTurn fuel api env st = .ok (st₁, notes) ∧ Accounted st₁.tasks notes := by
  obtain ⟨notes, hrun⟩ := exists_notes h
  obtain ⟨w₁, hnexttick, hrest⟩ := Res.bind_eq_ok.1 hrun
  obtain ⟨w₂, heverytick, htimers⟩ := Res.bind_eq_ok.1 hrest
  have H₁ := notedNexttick_accounted H hnexttick
  have H₂ := notedEverytick_accounted H₁ heverytick
  exact ⟨notes, hrun, notedTimers_accounted H₂ htimers⟩

/-! ### Runs -/

variable {waittime : Int32} {out out' : Out} {n ret : Int}

theorem epFetch_tasks (h : epFetch api st out = .ok (n, out', st')) : st'.tasks = st.tasks := by
  obtain ⟨_, -, h⟩ := Res.bind_eq_ok.1 h
  cases h
  rfl

theorem epWait_tasks (h : epWait api env st waittime = .ok (ret, st')) : st'.tasks = st.tasks := by
  obtain ⟨_, -, h⟩ := Res.bind_eq_ok.1 h
  obtain ⟨_, -, h⟩ := Res.bind_eq_ok.1 h
  cases h
  rfl

theorem epTurn_owned (H : st.tasks.Owned L) (h : epTurn fuel api env st waittime = .ok (ret, st')) :
    ∃ L', st'.tasks.Owned L' := by
  obtain ⟨st₁, hbefore, hwait⟩ := Res.bind_eq_ok.1 h
  obtain ⟨notes, -, L', H', -⟩ := epBeforeWait_accounted H hbefore
  rw [epWait_tasks hwait]
  exact ⟨L', H'⟩

theorem epIterate_owned (H : st.tasks.Owned L)
    (h : epIterate fuel api env st waittime out = .ok (ret, out', st')) : ∃ L', st'.tasks.Owned L' := by
  obtain ⟨⟨n, out₁, st₁⟩, hfetch, h⟩ := Res.bind_eq_ok.1 h
  rw [← epFetch_tasks hfetch] at H
  dsimp only at h
  split at h
  · obtain ⟨⟨m, st₂⟩, hturn, h⟩ := Res.bind_eq_ok.1 h
    obtain ⟨L', H'⟩ := epTurn_owned H hturn
    dsimp only at h
    split at h
    · obtain ⟨⟨n', out₂, st₃⟩, hfetch', h⟩ := Res.bind_eq_ok.1 h
      cases h
      rw [epFetch_tasks hfetch']
      exact ⟨L', H'⟩
    · cases h
      exact ⟨L', H'⟩
  · cases h
    exact ⟨L, H⟩

theorem loopRun_owned {cs : List (LoopCall K)} (H : st.tasks.Owned L)
    (h : loopRun fuel api env st cs = .ok st') : ∃ L', st'.tasks.Owned L' := by
  induction cs generalizing st L with
  | nil =>
    cases h
    exact ⟨L, H⟩
  | cons c cs ih =>
    obtain ⟨st₁, hc, h⟩ := Res.bind_eq_ok.1 h
    have H₁ : ∃ L', st₁.tasks.Owned L' := by
      cases c with
      | iterate waittime out =>
        obtain ⟨⟨ret, out', st₂⟩, hiter, hc⟩ := Res.bind_eq_ok.1 hc
        cases hc
        exact epIterate_owned H hiter
      | forEachStart waittime =>
        obtain ⟨⟨ret, st₂⟩, hturn, hc⟩ := Res.bind_eq_ok.1 hc
        cases hc
        exact epTurn_owned H hturn
      | fetch out =>
        obtain ⟨⟨ret, out', st₂⟩, hfetch, hc⟩ := Res.bind_eq_ok.1 hc
        cases hc
        rw [epFetch_tasks hfetch]
        exact ⟨L, H⟩
      | action a =>
        obtain ⟨L', H', -⟩ := a.exec_owned H hc
        exact ⟨L', H'⟩
      | other f =>
        cases hc
        exact ⟨L, H⟩
    obtain ⟨L₁, H₁⟩ := H₁
    exact ih H₁ h

/-- After `ep_init`, when no block is allocated. -/
theorem epInit_owned {init : P → Int × P} {r r' : EpState P K}
    (hhead : ∀ q, r.tasks.list.live (.head q)) (hlive : ∀ a, ¬r.tasks.list.live (.task a))
    (h : epInit init r = .ok (n, r')) : r'.tasks.Owned fun _ => [] := by
  obtain ⟨tasks₁, h₁, h⟩ := Res.bind_eq_ok.1 h
  obtain ⟨tasks₂, h₂, h⟩ := Res.bind_eq_ok.1 h
  obtain ⟨m₁, hinit₁, hring₁, F₁⟩ := initListHead_spec (hhead .nexttick)
  have hhead₁ : ∀ q, m₁.live (.head q) := by
    rw [F₁.live]
    exact hhead
  obtain ⟨m₂, hinit₂, hring₂, F₂⟩ := initListHead_spec (hhead₁ .everytick)
  rw [epTaskQueueInit, hinit₁] at h₁
  cases h₁
  rw [epTaskQueueInit, hinit₂] at h₂
  cases h₂
  cases h
  refine ⟨⟨fun q => ?_, fun q => ?_, fun _ => nofun, fun _ => nofun, fun _ _ _ => nofun⟩, fun a ha _ => ?_⟩
  · cases q with
    | nexttick => exact F₂.ring hring₁ (by simp)
    | everytick => exact hring₂
  · show m₂.live (.head q)
    rw [F₂.live]
    exact hhead₁ q
  · replace ha : m₂.live (.task a) := ha
    rw [F₂.live, F₁.live] at ha
    exact absurd ha (hlive a)

end

/-- The call `c` of the loop makes a turn, and so a wait, from the state `st₀`. -/
inductive TurnOf {P O K : Type} (api : PollApi P O K) : LoopCall K → EpLoop P O K → EpLoop P O K → Prop
  | iterate {st st₀ : EpLoop P O K} {waittime : Int32} {out out' : Out} {n : Int} :
    epFetch api st out = .ok (n, out', st₀) → n ≤ 0 → TurnOf api (.iterate waittime out) st st₀
  | forEachStart {st : EpLoop P O K} {waittime : Int32} : TurnOf api (.forEachStart waittime) st st

/-- **The next tick at a wait.** In every run of a program, when a call of `ep_iterate` or
`ep__for_each_start` comes to its wait, the tasks in the nexttick queue were scheduled in this turn by late
callbacks: by an everytick task, by a timer, or by a nexttick task with none behind it. -/
theorem nexttick_at_wait {P O K : Type} {fuel : Nat} {api : PollApi P O K} {env : Env P K}
    {st st' st₀ st₁ : EpLoop P O K} {L : Tick → List Nat} {cs : List (LoopCall K)} {c : LoopCall K}
    (H : st.tasks.Owned L) (hrun : loopRun fuel api env st cs = .ok st') (hturn : TurnOf api c st' st₀)
    (hwait : epBeforeWait fuel api env st₀ = .ok st₁) :
    ∃ notes, notedTurn fuel api env st₀ = .ok (st₁, notes) ∧ Accounted st₁.tasks notes ∧
      ((∀ d ∈ notes, d.Late → ∀ a, ¬d.Scheduled a) →
        listEmpty st₁.tasks.list (.head .nexttick) = .ok true) := by
  obtain ⟨L', H'⟩ := loopRun_owned H hrun
  have H₀ : st₀.tasks.Owned L' := by
    cases hturn with
    | iterate hfetch _ =>
      rw [epFetch_tasks hfetch]
      exact H'
    | forEachStart => exact H'
  obtain ⟨notes, hnotes, hacc⟩ := epBeforeWait_accounted H₀ hwait
  refine ⟨notes, hnotes, hacc, fun hquiet => ?_⟩
  obtain ⟨L₁, H₁, hleft⟩ := hacc
  have hnil : L₁ .nexttick = [] := by
    apply List.eq_nil_iff_forall_not_mem.2
    intro a ha
    obtain ⟨d, hd, hlate, hsched⟩ := hleft a ha
    exact hquiet d hd hlate a hsched
  simp [listEmpty, H₁.toRep.next_head, hnil]

/-- A loop whose kernel reports an event at the first wait. -/
def busyLoop : EpLoop EpollState WaitOutcome (List WaitOutcome) := freshLoop [.batch [⟨epollIn, 10⟩]]

/-- An everytick task that schedules a task for the next tick. -/
def busyCalls : List (LoopCall (List WaitOutcome)) := [.action (.everytick false 1 0)]

/-- The wait of the loop: the task it finds in the queue was scheduled by the everytick task. -/
theorem nexttick_at_wait_sample :
    ∃ st st₁ notes, loopRun 3 (epollApi scriptedKernel) quietEnv busyLoop busyCalls = .ok st ∧
      epBeforeWait 3 (epollApi scriptedKernel) quietEnv st = .ok st₁ ∧
      notedTurn 3 (epollApi scriptedKernel) quietEnv st = .ok (st₁, notes) ∧
      Accounted st₁.tasks notes := by
  have H : busyLoop.tasks.Owned fun _ => [] :=
    @epInit_owned _ _ _ (epEpollInit · 3 false) (rawLoop [.batch [⟨epollIn, 10⟩]]) _
      (fun q => by cases q <;> rfl) (fun a => by simp [rawLoop]) rfl
  obtain ⟨notes, hnotes, hacc, -⟩ := @nexttick_at_wait _ _ _ 3 (epollApi scriptedKernel) quietEnv
    busyLoop _ _ _ _ busyCalls (.iterate (-1) ⟨some 0, some 0⟩) H rfl (.iterate rfl (Int.le_refl 0)) rfl
  exact ⟨_, _, notes, rfl, rfl, hnotes, hacc⟩

/-- The task is in the queue at a wait without timeout. -/
theorem waits_with_nexttick :
    ∃ st st₁ st₂, loopRun 3 (epollApi scriptedKernel) quietEnv busyLoop busyCalls = .ok st ∧
      TurnOf (epollApi scriptedKernel) (.iterate (-1) ⟨some 0, some 0⟩) st st ∧
      epBeforeWait 3 (epollApi scriptedKernel) quietEnv st = .ok st₁ ∧
      epWaitArgument quietEnv (-1) st₁ = .ok (-1, st₂) ∧
      listEmpty st₁.tasks.list (.head .nexttick) = .ok false :=
  ⟨_, _, _, rfl, .iterate rfl (Int.le_refl 0), rfl, rfl, rfl⟩

end Libep
