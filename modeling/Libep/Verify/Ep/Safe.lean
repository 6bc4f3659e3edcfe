import Libep.Verify.Ep.Engines
import Libep.Verify.Ep.Sleep
import Libep.Verify.Timer.Fini

/-!
# From `ep_init` to `ep_fini`

A program within the contract never makes the loop access memory that is not allocated: `loop_memory_safe`.
And whatever a program does, if the loop goes on, the blocks of its tasks are freed once each and by the end all
of them: `loop_frees_tasks`.
-/

namespace Libep
open Filter

variable {P O K : Type}

/-- Memory for the state, before anything else was allocated. -/
structure EpState.Fresh (r : EpState P K) : Prop where
  head : ∀ q, r.tasks.list.live (.head q)
  task : ∀ a, ¬r.tasks.list.live (.task a)
  task_brk : r.tasks.brk = 0
  task_freed : r.tasks.freed = []
  timer : r.timer.sl.live = fun _ => false
  timer_brk : r.timer.brk = 0
  timer_freed : r.timer.freed = []

section
variable {Inv : P → Prop} {J : EpState P K → Prop} {init : P → Int × P}
  {r r' : EpState P K} {n : Int}

theorem epInit_timer (h : epInit init r = .ok (n, r')) : r'.timer = epTimerInit r.timer := by
  obtain ⟨_, -, h⟩ := Res.bind_eq_ok.1 h
  obtain ⟨_, -, h⟩ := Res.bind_eq_ok.1 h
  cases h
  rfl

theorem EpState.Fresh.rep (H : r.Fresh) (h : epInit init r = .ok (n, r')) :
    r'.timer.Rep (.empty r.timer.now) [] := by
  rw [epInit_timer h]
  exact .init H.timer H.timer_brk H.timer_freed

theorem EpState.Fresh.held (H : r.Fresh) (h : epInit init r = .ok (n, r')) :
    r'.tasks.Held (fun _ => []) [] ∧ r'.tasks.brk = 0 ∧ r'.tasks.freed = [] := by
  have hO : r'.tasks.Owned fun _ => [] := epInit_owned H.head H.task h
  simp only [epInit, epTaskQueueInit, Res.bind_eq_ok] at h
  obtain ⟨tasks₁, ⟨m₁, hinit₁, h₁⟩, tasks₂, ⟨m₂, hinit₂, h₂⟩, h⟩ := h
  cases h₁
  cases h₂
  cases h
  obtain ⟨_, h₁, -, F₁⟩ := initListHead_spec (H.head .nexttick)
  cases hinit₁.symm.trans h₁
  have hhead : m₁.live (.head .everytick) := by
    rw [F₁.live]
    exact H.head _
  obtain ⟨_, h₂, -, F₂⟩ := initListHead_spec hhead
  cases hinit₂.symm.trans h₂
  refine ⟨.init hO (fun a => ?_) H.task_brk H.task_freed, H.task_brk, H.task_freed⟩
  show ¬m₂.live (.task a)
  rw [F₂.live, F₁.live]
  exact H.task a

theorem EpState.Fresh.sound (H : r.Fresh) (h : epInit init r = .ok (n, r')) (hI : Inv r'.ps) (hJ : J r') :
    r'.Sound Inv J :=
  ⟨⟨_, (H.held h).1⟩, ⟨_, H.rep h⟩, hI, hJ⟩

/-- `ep_fini`, with a bound that is large enough. -/
theorem EpState.Sound.fini (H : r.Sound Inv J) (fini : P → K → P × K) :
    ∀ᶠ fuel in atTop, ∃ r', epFini fini fuel r = .ok (0, r') ∧ epTimerFini fuel r.timer = .ok r'.timer ∧
      r'.tasks.Held (fun _ => []) [] ∧ r'.tasks.brk = r.tasks.brk := by
  obtain ⟨⟨L, HL⟩, ⟨A, HA⟩, -, -⟩ := H
  filter_upwards [eventually_gt_atTop A.brk, eventually_gt_atTop (L .nexttick).length,
    eventually_gt_atTop (L .everytick).length] with fuel hbrk hnext hevery
  obtain ⟨timer, htimer, -⟩ := HA.fini hbrk
  obtain ⟨tasks₁, hfini₁, H₁, hbrk₁⟩ := epTaskQueueFini_spec HL hnext
  have hevery₁ : (Function.update L .nexttick [] .everytick).length < fuel := by simpa using hevery
  obtain ⟨tasks₂, hfini₂, H₂, hbrk₂⟩ := epTaskQueueFini_spec H₁ hevery₁
  have hempty : Function.update (Function.update L .nexttick []) .everytick [] = fun _ => [] := by
    funext q
    cases q <;> simp
  rw [hempty] at H₂
  have hfini : epFini fini fuel r = .ok (0, ⟨(fini r.ps r.world).1, tasks₂, timer, (fini r.ps r.world).2⟩) := by
    simp only [epFini, htimer, hfini₁, hfini₂, Res.ok_bind]
    rfl
  exact ⟨_, hfini, htimer, H₂, hbrk₂.trans hbrk₁⟩

end

/-- **Memory safety.** A program that keeps the contract, from `ep_init` on: no run of it accesses or frees
memory that is not allocated, whatever the bound on the loops is, and neither does `ep_fini` at its end. -/
theorem loop_memory_safe {fuel : Nat} {api : PollApi P O K} {env : Env P K} {legal : P → PollCall → Prop}
    {Inv : P → Prop} {J : EpState P K → Prop} {init : P → Int × P} {r r' : EpState P K} {n : Int}
    {cs : List (LoopCall K)} (C : Contract fuel api env legal Inv J) (hr : r.Fresh)
    (hinit : epInit init r = .ok (n, r')) (hI : Inv r'.ps) (hJ : J r')
    (hcs : LegalProgram fuel api env legal J ⟨r', []⟩ cs) :
    loopRun fuel api env ⟨r', []⟩ cs ≠ .error .invalid ∧
      ∀ st', loopRun fuel api env ⟨r', []⟩ cs = .ok st' → ∀ fini : P → K → P × K,
        ∀ᶠ fuel' in atTop, ∃ r'', epFini fini fuel' st'.toEpState = .ok (0, r'') := by
  have H : Ends (· = .fuel) (loopRun fuel api env ⟨r', []⟩ cs) fun st' => st'.toEpState.Sound Inv J :=
    loopRun_ends C.contractFor (hr.sound hinit hI hJ) (.inr hcs)
  refine ⟨fun h => absurd (H.allowed h) (by simp), fun st' hrun fini => ?_⟩
  filter_upwards [(H.result hrun).fini fini] with fuel' hfini
  obtain ⟨r'', h, -⟩ := hfini
  exact ⟨r'', h⟩

/-- The answers of the kernel, and the task that is to be stopped. -/
abbrev StopWorld := List WaitOutcome × Option Nat

/-- `scriptedKernel`, beside the memory of the program. -/
def scriptedBeside : EpollKernel StopWorld where
  epoll_ctl k _ _ _ _ := (0, k)
  epoll_wait k efd maxevents timeout :=
    let (o, answers) := scriptedKernel.epoll_wait k.1 efd maxevents timeout
    (o, answers, k.2)
  wait_le k := scriptedKernel.wait_le k.1

/-- The function 2, called by the next tick, stops the task that is stored. -/
def stoppingEnv : Env EpollState StopWorld where
  gettimeofday k := (⟨0, 0⟩, k)
  callback c st :=
    match c, st.world.2 with
    | .task .nexttick ⟨_, 2, _⟩, some id => ([.cleartask id], st.world.1, none)
    | _, _ => ([], st.world)

/-- The task that is stored is in the queue of the every tick. -/
def Stored (st : EpState EpollState StopWorld) : Prop :=
  ∀ id, st.world.2 = some id → st.tasks.Queued .everytick id

theorem stopping_contract (fuel : Nat) :
    Contract fuel (epollApi scriptedBeside) stoppingEnv (fun _ _ => True) EpollState.InBounds Stored where
  toSafe := epoll_safe scriptedBeside
  callback {st c out es} H _ hJ := by
    obtain ⟨⟨L, HL⟩, -⟩ := H
    rw [LegalCallback, runCallback]
    simp only [stoppingEnv]
    split
    · next id _ arg id' hid =>
      have hid' : id' ∈ L .everytick := HL.toRep.queued.1 (hJ id' hid)
      refine ⟨⟨⟨⟨_, hJ id' hid⟩, fun h => ?_⟩, fun _ _ => trivial⟩, fun st' h => ?_⟩
      · -- the task that the pass goes on with is in the other queue
        obtain ⟨l, hL⟩ := HL.toRep.first_of_next h
        exact HL.disjoint .nexttick .everytick (by simp) id' (by simp [hL]) hid'
      · obtain ⟨st₁, h₁, h⟩ := Res.bind_eq_ok.1 h
        obtain ⟨tasks, -, h₁⟩ := Res.bind_eq_ok.1 h₁
        cases h₁
        cases h
        exact fun _ h => nomatch h
    · exact ⟨trivial, fun st' h => by cases h; exact hJ⟩
  clock _ hJ := hJ
  updatetime _ hJ := hJ
  extract _ _ hJ := hJ
  finish _ _ hJ := hJ
  unlink {st a list} H hfirst hdel hJ id hid := by
    obtain ⟨⟨L, HL⟩, -⟩ := H
    obtain ⟨l, hL⟩ := HL.toRep.first_of_next hfirst
    obtain ⟨m, hdel', -, H'⟩ := HL.unlink (show L .nexttick = [] ++ a :: l from hL)
    cases hdel.symm.trans hdel'
    have hid := HL.toRep.queued.1 (hJ id hid)
    refine H'.toRep.queued.2 (List.mem_filter.2 ⟨hid, ?_⟩)
    have hne : id ≠ a := fun e =>
      HL.disjoint .everytick .nexttick (by simp) id hid (by simp [hL, e])
    simpa using hne
  free {st a tasks} H hfree hJ id hid := by
    obtain ⟨⟨L, HL⟩, -⟩ := H
    obtain ⟨s', hfree', H', -⟩ := HL.free
    cases hfree.symm.trans hfree'
    exact H'.toRep.queued.2 (HL.toRep.queued.1 (hJ id hid))
  waited {st timeout o ret ps world} _ hrun hJ := by
    cases hrun
    exact hJ
  fetched _ _ hJ := hJ

/-- An everytick task, and a task that stops it in the next turn. -/
def stoppingCalls : List (LoopCall StopWorld) :=
  [.action (.everytick false 3 0), .other fun k => (k.1, some 0), .iterate (-1) ⟨some 0, some 0⟩,
    .action (.nexttick false 2 0), .iterate (-1) ⟨some 0, some 0⟩]

/-- The loop before `ep_init`. -/
def rawStopping : EpState EpollState StopWorld :=
  { rawLoop [] with world := ([.batch [⟨epollIn, 10⟩], .batch []], none) }

/-- The function of a task that is called. -/
def Obs.taskFn {O : Type} : Obs O → Option (Tick × Nat)
  | .call (.task q c) => some (q, c.fn)
  | _ => none

theorem loop_memory_safe_stopping :
    ∃ r' st', epInit (epEpollInit · 3 false) rawStopping = .ok (0, r') ∧
      loopRun 4 (epollApi scriptedBeside) stoppingEnv ⟨r', []⟩ stoppingCalls = .ok st' ∧
      st'.log.map Obs.taskFn =
        [some (.everytick, 3), none, some (.nexttick, 2), none] ∧
      ∀ᶠ fuel' in atTop, ∃ r'', epFini (fun ps k => (ps, k)) fuel' st'.toEpState = .ok (0, r'') := by
  have hfresh : rawStopping.Fresh :=
    ⟨fun q => by cases q <;> rfl, fun a => by simp [rawStopping, rawLoop], rfl, rfl, rfl, rfl, rfl⟩
  obtain ⟨-, h⟩ := @loop_memory_safe EpollState WaitOutcome StopWorld 4 (epollApi scriptedBeside) stoppingEnv
    (fun _ _ => True) EpollState.InBounds Stored (epEpollInit · 3 false) rawStopping _ _ stoppingCalls
    (stopping_contract 4) hfresh rfl (by simp [EpollState.InBounds]) (by rintro _ ⟨⟩)
    ⟨trivial, fun st' h => by
      cases h
      refine ⟨by rintro _ ⟨⟩, fun id h => ?_, fun st' h => ?_⟩
      · cases h
        exact ⟨[0], ⟨⟨rfl, rfl⟩, ⟨rfl, rfl⟩, by simp⟩, by simp⟩
      · cases h
        refine ⟨trivial, fun st' h => ?_⟩
        cases h
        refine ⟨fun id h => ?_, fun _ _ => trivial⟩
        cases h
        exact ⟨[0], ⟨⟨rfl, rfl⟩, ⟨rfl, rfl⟩, by simp⟩, by simp⟩⟩
  exact ⟨_, _, rfl, rfl, rfl, h _ rfl _⟩

/-- Every run that has a result leaves the memory of the tasks and of the timers in order. -/
theorem EpState.Fresh.sound_of_run {fuel : Nat} {api : PollApi P O K} {env : Env P K} {init : P → Int × P}
    {r r' : EpState P K} {n : Int} {cs : List (LoopCall K)} {st' : EpLoop P O K} (H : r.Fresh)
    (h : epInit init r = .ok (n, r')) (hrun : loopRun fuel api env ⟨r', []⟩ cs = .ok st') :
    st'.toEpState.Sound (fun _ => True) fun _ => True := by
  have C : ContractFor fuel api env (fun _ _ => False) (fun _ => True) (fun _ => True) (fun _ => True) :=
    ⟨trivial, .inr ⟨trivial, fun _ => trivial, fun _ => trivial⟩⟩
  have hends : Ends (fun _ => True) (loopRun fuel api env ⟨r', []⟩ cs) fun st' =>
      st'.toEpState.Sound (fun _ => True) fun _ => True :=
    loopRun_ends C (H.sound h trivial trivial) (.inl trivial)
  exact hends.result hrun

/-- **The blocks of the tasks.** Whatever the callbacks and the program do, if a run from `ep_init` on has a
result, `ep_fini` frees the rest of the blocks that were handed out for tasks: each was freed once. -/
theorem loop_frees_tasks {fuel : Nat} {api : PollApi P O K} {env : Env P K} {init : P → Int × P}
    {r r' : EpState P K} {n : Int} {cs : List (LoopCall K)} {st' : EpLoop P O K} (hr : r.Fresh)
    (hinit : epInit init r = .ok (n, r')) (hrun : loopRun fuel api env ⟨r', []⟩ cs = .ok st')
    (fini : P → K → P × K) :
    ∀ᶠ fuel' in atTop, ∃ r'', epFini fini fuel' st'.toEpState = .ok (0, r'') ∧
      r''.tasks.freed.Perm (List.range st'.tasks.brk) ∧ ∀ a, ¬r''.tasks.list.live (.task a) := by
  have H := hr.sound_of_run hinit hrun
  filter_upwards [H.fini fini] with fuel' hfini
  obtain ⟨r'', hfini, -, H', hbrk⟩ := hfini
  have hdead : ∀ a, ¬r''.tasks.list.live (.task a) := fun a ha => by
    have := H'.held a ha
    simp at this
  refine ⟨r'', hfini, ?_, hdead⟩
  refine (List.perm_ext_iff_of_nodup H'.freed_nodup List.nodup_range).2 fun a => ?_
  rw [H'.mem_freed, List.mem_range, hbrk]
  exact ⟨And.left, fun h => ⟨h, hdead a⟩⟩

theorem rawLoop_fresh (world : List WaitOutcome) : (rawLoop world).Fresh :=
  ⟨fun q => by cases q <;> rfl, fun a => by simp [rawLoop], rfl, rfl, rfl, rfl, rfl⟩

theorem loop_frees_tasks_busy :
    ∃ r' st', epInit (epEpollInit · 3 false) (rawLoop [.batch [⟨epollIn, 10⟩]]) = .ok (0, r') ∧
      loopRun 3 (epollApi scriptedKernel) quietEnv ⟨r', []⟩ (busyCalls ++ [.iterate (-1) ⟨none, none⟩]) =
        .ok st' ∧ st'.tasks.brk = 2 ∧
      ∀ᶠ fuel' in atTop, ∃ r'', epFini (fun ps k => (ps, k)) fuel' st'.toEpState = .ok (0, r'') ∧
        r''.tasks.freed.Perm (List.range st'.tasks.brk) ∧ ∀ a, ¬r''.tasks.list.live (.task a) :=
  ⟨_, _, rfl, rfl, rfl, @loop_frees_tasks _ _ _ 3 (epollApi scriptedKernel) quietEnv
    (epEpollInit · 3 false) (rawLoop [.batch [⟨epollIn, 10⟩]]) _ _ (busyCalls ++ [.iterate (-1) ⟨none, none⟩]) _
    (rawLoop_fresh _) rfl rfl _⟩

end Libep
