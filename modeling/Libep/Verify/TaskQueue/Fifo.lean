import Libep.Verify.TaskQueue.Rep

/-!
# A task queue is a queue

The calls of `ep_task_queue.h` in any order, and the pushes of the callbacks that run in between, as the
steps of a machine that stops in every callback: so what holds of its states holds in the middle of a pass,
too, and in passes that never end. `epTaskQueueRun_events` and `epTaskQueueRunOnce_events` say that the functions
of the code are runs of the machine; `task_queue_fifo` is the law of its states.
-/

namespace Libep
open Chain

/-- Where the machine is: outside the queue, in the callback of the block `a` in a run whose `n` is given,
or in that of `ep_task_queue_run_once`. -/
inductive TaskPc (Q : Type) where
  | idle
  | running (a : Nat) (n : Option (TaskRef Q))
  | once (a : Nat)

/-- A state of the machine. -/
structure TaskConfig (Q : Type) where
  tasks : Tasks Q
  pc : TaskPc Q
  log : TaskLog

/-- A step: a call from outside the callbacks, a push from anywhere, or the return of the callback. -/
inductive TaskEvent where
  | push (p : Push)
  | cancel (id : Nat)
  | run
  | runOnce
  | ret

section
variable {Q : Type} [DecidableEq Q] (q : Q)

/-- The statements of `ep_task_queue_run` from the test of the loop to the call. -/
def startTask (s : Tasks Q) (log : TaskLog) (pos n : Option (TaskRef Q)) : Res (TaskConfig Q) :=
  if pos = some (.head q) then return ⟨s, .idle, log⟩
  else do
    let s := { s with list := ← listDel s.list pos }
    let cb ← taskEntry pos
    return ⟨s, .running cb n, { log with invoked := log.invoked ++ [← s.call cb] }⟩

/-- The statements between two stops. -/
def TaskEvent.exec (c : TaskConfig Q) : TaskEvent → Res (TaskConfig Q)
  | push p => do
    let (tasks, log) ← pushTask q (c.tasks, c.log) p
    return { c with tasks, log }
  | cancel id => do
    return { c with
      tasks := ← epTaskCancel c.tasks id
      log := { c.log with cancelled := c.log.cancelled ++ [id] } }
  | run => do
    let pos ← c.tasks.list.getNext (some (.head q))
    startTask q c.tasks c.log pos (← c.tasks.list.getNext pos)
  | runOnce => do
    if ← listEmpty c.tasks.list (.head q) then return c
    else
      let cb ← taskEntry (← c.tasks.list.getNext (some (.head q)))
      let s := { c.tasks with list := ← listDel c.tasks.list (some (.task cb)) }
      return ⟨s, .once cb, { c.log with invoked := c.log.invoked ++ [← s.call cb] }⟩
  | ret =>
    match c.pc with
    | .idle => return c
    | .running a n => do
      let s ← c.tasks.free a
      startTask q s c.log n (← s.list.getNext n)
    | .once a => do return ⟨← c.tasks.free a, .idle, c.log⟩

/-- A run of the machine. -/
def taskRun : TaskConfig Q → List TaskEvent → Res (TaskConfig Q)
  | c, [] => return c
  | c, e :: es => do taskRun (← e.exec q c) es

end

/-- The tasks that were pushed and neither called nor cancelled yet. -/
def TaskLog.Pending (log : TaskLog) (id : Nat) : Prop :=
  id ∈ log.pushed.map TaskCall.id ∧ id ∉ log.invoked.map TaskCall.id ∧ id ∉ log.cancelled

/-- Outside the callbacks a queue may be run and a pending task cancelled; a callback may push and return,
and where there is none, `ret` does nothing. -/
def TaskEvent.Enabled (c : TaskConfig Unit) : TaskEvent → Prop
  | push _ | ret => True
  | cancel id => c.pc = .idle ∧ c.log.Pending id
  | run | runOnce => c.pc = .idle

/-- Every event of the run is enabled where it happens. -/
def LegalTasks : TaskConfig Unit → List TaskEvent → Prop
  | _, [] => True
  | c, e :: es => e.Enabled c ∧ ∀ c', e.exec () c = .ok c' → LegalTasks c' es

/-! ### The invariant -/

/-- The record of a queue that holds `l`, whose next block is `brk`. -/
structure TaskLog.Fifo (log : TaskLog) (l : List TaskCall) (brk : Nat) : Prop where
  law : log.invoked ++ l = log.pushed.filter fun t => t.id ∉ log.cancelled
  nodup : (log.pushed.map TaskCall.id).Nodup
  lt : ∀ t ∈ log.pushed, t.id < brk
  cancelled : ∀ id ∈ log.cancelled, id < brk

namespace TaskLog.Fifo
variable {log : TaskLog} {l l₁ l₂ : List TaskCall} {t : TaskCall} {brk : Nat}

theorem nodup_all (H : log.Fifo l brk) : ((log.invoked ++ l).map TaskCall.id).Nodup := by
  rw [H.law]
  exact H.nodup.sublist (List.filter_sublist.map _)

theorem push (H : log.Fifo l brk) (ht : t.id = brk) :
    Fifo { log with pushed := log.pushed ++ [t] } (l ++ [t]) (brk + 1) := by
  refine ⟨?_, ?_, fun u hu => ?_, fun id hid => Nat.lt_succ_of_lt (H.cancelled id hid)⟩
  · have hnot : t.id ∉ log.cancelled := fun h => Nat.lt_irrefl _ (ht ▸ H.cancelled _ h)
    rw [← List.append_assoc, H.law, List.filter_append]
    simp [hnot]
  · rw [List.map_append, List.nodup_append]
    refine ⟨H.nodup, by simp, fun a ha b hb => ?_⟩
    obtain ⟨u, hu, rfl⟩ := List.mem_map.1 ha
    have := H.lt u hu
    simp only [List.map_cons, List.map_nil, List.mem_singleton] at hb
    omega
  · rcases List.mem_append.1 hu with hu | hu
    · exact Nat.lt_succ_of_lt (H.lt u hu)
    · rw [List.mem_singleton.1 hu, ht]
      exact Nat.lt_succ_self _

theorem invoke (H : log.Fifo (t :: l) brk) :
    Fifo { log with invoked := log.invoked ++ [t] } l brk := by
  refine ⟨?_, H.nodup, H.lt, H.cancelled⟩
  rw [List.append_assoc]
  exact H.law

/-- A task that was called is not in the queue any more. -/
theorem notMem (H : log.Fifo l brk) {a : Nat} (ha : a ∈ log.invoked.map TaskCall.id) :
    a ∉ l.map TaskCall.id := by
  have hnd := H.nodup_all
  rw [List.map_append] at hnd
  exact fun h => (List.nodup_append.1 hnd).2.2 a ha a h rfl

theorem mem_pushed (H : log.Fifo l brk) (ht : t ∈ log.invoked ++ l) : t ∈ log.pushed := by
  rw [H.law] at ht
  exact List.mem_of_mem_filter ht

theorem cancel (H : log.Fifo (l₁ ++ t :: l₂) brk) :
    Fifo { log with cancelled := log.cancelled ++ [t.id] } (l₁ ++ l₂) brk := by
  have hnd := H.nodup_all
  rw [← List.append_assoc] at hnd
  refine ⟨?_, H.nodup, H.lt, fun id hid => ?_⟩
  · calc log.invoked ++ (l₁ ++ l₂)
        = (log.invoked ++ (l₁ ++ t :: l₂)).filter fun u => u.id ≠ t.id := by
          rw [← List.append_assoc, ← List.append_assoc, filter_key_ne hnd]
      _ = log.pushed.filter fun u => u.id ∉ log.cancelled ++ [t.id] := by
          rw [H.law, List.filter_filter]
          apply List.filter_congr
          intro u _
          rw [← Bool.decide_and]
          simp [and_comm]
  · rcases List.mem_append.1 hid with hid | hid
    · exact H.cancelled id hid
    · rw [List.mem_singleton.1 hid]
      exact H.lt t (H.mem_pushed (by simp))

/-- A pending task is in the queue. -/
theorem pending (H : log.Fifo l brk) {id : Nat} (hid : log.Pending id) :
    ∃ l₁ t l₂, l = l₁ ++ t :: l₂ ∧ t.id = id := by
  obtain ⟨hp, hi, hc⟩ := hid
  obtain ⟨t, ht, rfl⟩ := List.mem_map.1 hp
  have hall : t ∈ log.invoked ++ l := by
    rw [H.law]
    exact List.mem_filter.2 ⟨ht, by simpa using hc⟩
  rcases List.mem_append.1 hall with h | h
  · exact absurd (List.mem_map_of_mem h) hi
  · obtain ⟨l₁, l₂, hl⟩ := List.append_of_mem h
    exact ⟨l₁, t, l₂, hl, rfl⟩

end TaskLog.Fifo

/-- Where a run goes on: at the head, or at the first task of the queue `l`. -/
def AtFirst (l : List TaskCall) (n : Option (TaskRef Unit)) : Prop :=
  n = some (.head ()) ∨ ∃ t l', l = t :: l' ∧ n = some (.task t.id)

theorem atFirst_first (l : List TaskCall) : AtFirst l (some (Tasks.Holds.first l)) := by
  cases l with
  | nil => exact .inl rfl
  | cons t l => exact .inr ⟨t, l, rfl, rfl⟩

/-- The block of a callback is allocated. -/
def TaskPc.Ok (s : Tasks Unit) (log : TaskLog) (l : List TaskCall) : TaskPc Unit → Prop
  | .idle => True
  | .running a n => s.list.live (.task a) ∧ a ∈ log.invoked.map TaskCall.id ∧ AtFirst l n
  | .once a => s.list.live (.task a) ∧ a ∈ log.invoked.map TaskCall.id

/-- The queue of a configuration holds `l`. -/
structure TaskConfig.Fifo (c : TaskConfig Unit) (l : List TaskCall) : Prop where
  holds : c.tasks.Holds l
  log : c.log.Fifo l c.tasks.brk
  pc : c.pc.Ok c.tasks c.log l

namespace TaskConfig.Fifo
variable {c : TaskConfig Unit} {s : Tasks Unit} {log : TaskLog} {l : List TaskCall}
  {pos : Option (TaskRef Unit)}

/-- From the test of the loop to the call: the first task leaves the queue, and its successor was read
before. -/
theorem start (H : s.Holds l) (Hlog : log.Fifo l s.brk) (hpos : AtFirst l pos) :
    ∃ c' l', (s.list.getNext pos >>= fun n => startTask () s log pos n) = .ok c' ∧ c'.Fifo l' := by
  rcases hpos with rfl | ⟨t, l, rfl, rfl⟩
  · exact ⟨⟨s, .idle, log⟩, l, by simp [H.next_head, startTask], H, Hlog, trivial⟩
  · obtain ⟨m, hdel, hlive, hcall, H'⟩ := H.take
    have hnext := @Tasks.Holds.next_task s [] l t H
    refine ⟨⟨{ s with list := m }, .running t.id (some (Tasks.Holds.first l)),
      { log with invoked := log.invoked ++ [t] }⟩, l, ?_, H', Hlog.invoke, hlive, by simp,
      atFirst_first l⟩
    simp [hnext, startTask, hdel, taskEntry, hcall]

theorem push (H : c.Fifo l) (p : Push) :
    ∃ c' l', (TaskEvent.push p).exec () c = .ok c' ∧ c'.Fifo l' := by
  obtain ⟨s, pc, log⟩ := c
  obtain ⟨s', new, hrun, H', hnew, hbrk, hlive⟩ := @Tasks.Holds.pushTask _ _ log H.holds p
  refine ⟨⟨s', pc, { log with pushed := log.pushed ++ new }⟩, l ++ new,
    by rw [TaskEvent.exec, hrun]; rfl, H', ?_, ?_⟩
  · cases hp : p.oom with
    | true =>
      obtain rfl : new = [] := by simpa [hp] using hnew
      simpa [hbrk] using H.log
    | false =>
      obtain rfl : new = [⟨s.brk, p.fn, p.arg⟩] := by simpa [hp] using hnew
      rw [hbrk]
      exact H.log.push rfl
  · -- a push appends, so the first task stays the first
    have hfirst : ∀ n, AtFirst l n → AtFirst (l ++ new) n := by
      rintro n (h | ⟨t, l', rfl, h⟩)
      · exact .inl h
      · exact .inr ⟨t, l' ++ new, rfl, h⟩
    cases pc with
    | idle => trivial
    | running a n => exact ⟨hlive _ H.pc.1, H.pc.2.1, hfirst n H.pc.2.2⟩
    | once a => exact ⟨hlive _ H.pc.1, H.pc.2⟩

theorem exec (H : c.Fifo l) {e : TaskEvent} (he : e.Enabled c) :
    ∃ c' l', e.exec () c = .ok c' ∧ c'.Fifo l' := by
  obtain ⟨s, pc, log⟩ := c
  cases e with
  | push p => exact H.push p
  | cancel id =>
    obtain ⟨hpc, hid⟩ := he
    obtain rfl : pc = .idle := hpc
    obtain ⟨l₁, t, l₂, rfl, rfl⟩ := H.log.pending hid
    obtain ⟨s', hcancel, H', hbrk, -⟩ := H.holds.cancel
    exact ⟨⟨s', .idle, { log with cancelled := log.cancelled ++ [t.id] }⟩, l₁ ++ l₂,
      by simp [TaskEvent.exec, hcancel], H', hbrk ▸ H.log.cancel, trivial⟩
  | run =>
    obtain rfl : pc = .idle := he
    obtain ⟨c', l', hrun, H'⟩ := start H.holds H.log (atFirst_first l)
    exact ⟨c', l', by simp only [TaskEvent.exec, H.holds.next_head, Res.ok_bind]; exact hrun, H'⟩
  | runOnce =>
    obtain rfl : pc = .idle := he
    have hhead := H.holds.next_head
    cases l with
    | nil =>
      refine ⟨_, [], ?_, H⟩
      simp [TaskEvent.exec, listEmpty, hhead, Tasks.Holds.first]
    | cons t l =>
      obtain ⟨m, hdel, hlive, hcall, H'⟩ := H.holds.take
      refine ⟨⟨{ s with list := m }, .once t.id, { log with invoked := log.invoked ++ [t] }⟩, l, ?_, H',
        H.log.invoke, hlive, by simp⟩
      simp [TaskEvent.exec, listEmpty, hhead, Tasks.Holds.first, taskEntry, hdel, hcall]
  | ret =>
    cases pc with
    | idle => exact ⟨_, l, rfl, H⟩
    | running a n =>
      obtain ⟨hlive, ha, hn⟩ := H.pc
      obtain ⟨s', hfree, H', hbrk⟩ := H.holds.free (H.log.notMem ha) hlive
      obtain ⟨c', l', hrun, H''⟩ := start H' (hbrk ▸ H.log) hn
      exact ⟨c', l', by simp only [TaskEvent.exec, hfree, Res.ok_bind]; exact hrun, H''⟩
    | once a =>
      obtain ⟨hlive, ha⟩ := H.pc
      obtain ⟨s', hfree, H', hbrk⟩ := H.holds.free (H.log.notMem ha) hlive
      exact ⟨⟨s', .idle, log⟩, l, by simp [TaskEvent.exec, hfree], H', hbrk ▸ H.log, trivial⟩

end TaskConfig.Fifo

/-! ### Runs -/

theorem taskRun_fifo {c : TaskConfig Unit} {l : List TaskCall} (H : c.Fifo l) {es : List TaskEvent}
    (hes : LegalTasks c es) : ∃ c' l', taskRun () c es = .ok c' ∧ c'.Fifo l' := by
  induction es generalizing c l with
  | nil => exact ⟨c, l, rfl, H⟩
  | cons e es ih =>
    obtain ⟨c₁, l₁, hrun₁, H₁⟩ := H.exec hes.1
    obtain ⟨c', l', hrun, H'⟩ := ih H₁ (hes.2 c₁ hrun₁)
    exact ⟨c', l', by simp [taskRun, hrun₁, hrun], H'⟩

/-! ### The functions of the code -/

section
variable {Q : Type} [DecidableEq Q] {q : Q} {s s' : Tasks Q} {log log' : TaskLog}

theorem taskRun_append (c : TaskConfig Q) (es es' : List TaskEvent) :
    taskRun q c (es ++ es') = taskRun q c es >>= fun c => taskRun q c es' := by
  induction es generalizing c with
  | nil => rfl
  | cons e es ih =>
    simp only [List.cons_append, taskRun]
    cases e.exec q c with
    | error e => rfl
    | ok c => exact ih c

/-- Only steps of callbacks. -/
def Inside (es : List TaskEvent) : Prop := ∀ e ∈ es, e = .ret ∨ ∃ p, e = .push p

theorem Inside.pushes (ps : List Push) : Inside (ps.map .push) := by
  intro e he
  obtain ⟨p, -, rfl⟩ := List.mem_map.1 he
  exact .inr ⟨p, rfl⟩

theorem Inside.ret : Inside [.ret] := fun _ he => .inl (List.mem_singleton.1 he)

theorem Inside.append {es es' : List TaskEvent} (H : Inside es) (H' : Inside es') :
    Inside (es ++ es') := fun e he => (List.mem_append.1 he).elim (H e) (H' e)

/-- Steps of callbacks are legal. -/
theorem Inside.legal {es : List TaskEvent} (H : Inside es) (c : TaskConfig Unit) : LegalTasks c es := by
  induction es generalizing c with
  | nil => trivial
  | cons e es ih =>
    refine ⟨?_, fun c' _ => ih (fun e' he => H e' (List.mem_cons_of_mem _ he)) c'⟩
    rcases H e List.mem_cons_self with rfl | ⟨p, rfl⟩
    · trivial
    · trivial

theorem pushTasks_events (pc : TaskPc Q) {ps : List Push}
    (h : pushTasks q (s, log) ps = .ok (s', log')) :
    taskRun q ⟨s, pc, log⟩ (ps.map .push) = .ok ⟨s', pc, log'⟩ := by
  induction ps generalizing s log with
  | nil => cases h; rfl
  | cons p ps ih =>
    obtain ⟨⟨t, log₁⟩, hp, hps⟩ := Res.bind_eq_ok.1 h
    simp [taskRun, TaskEvent.exec, hp, ih hps]

/-- The loop of `ep_task_queue_run` is a run of the machine. -/
theorem runLoop_events {script : Nat → List Push} {k : Nat} {pos n : Option (TaskRef Q)}
    (h : runLoop q (pushScript q script) k (s, log) pos n = .ok (s', log')) :
    ∃ es, Inside es ∧
      (startTask q s log pos n >>= fun c => taskRun q c es) = .ok ⟨s', .idle, log'⟩ := by
  induction k generalizing s log pos n with
  | zero => cases h
  | succ k ih =>
    unfold runLoop at h
    split at h
    · rename_i hpos
      cases h
      exact ⟨[], nofun, by simp [startTask, hpos, taskRun]⟩
    · rename_i hpos
      obtain ⟨m, hdel, h⟩ := Res.bind_eq_ok.1 h
      obtain ⟨cb, hcb, h⟩ := Res.bind_eq_ok.1 h
      obtain ⟨t, ht, h⟩ := Res.bind_eq_ok.1 h
      obtain ⟨⟨s₁, log₁⟩, hpush, h⟩ := Res.bind_eq_ok.1 h
      obtain ⟨s₂, hfree, h⟩ := Res.bind_eq_ok.1 h
      obtain ⟨n', hn', h⟩ := Res.bind_eq_ok.1 h
      obtain ⟨es, hin, hes⟩ := ih h
      refine ⟨(script log.invoked.length).map .push ++ [.ret] ++ es,
        ((Inside.pushes _).append .ret).append hin, ?_⟩
      have hstart : startTask q s log pos n = .ok ⟨{ s with list := m }, .running cb n,
          { log with invoked := log.invoked ++ [t] }⟩ := by
        simp [startTask, hpos, hdel, hcb, ht]
      have hp := pushTasks_events (.running cb n) hpush
      rw [hstart, Res.ok_bind, List.append_assoc, taskRun_append, hp]
      simp [taskRun, TaskEvent.exec, hfree, hn', hes]

theorem epTaskQueueRun_events {script : Nat → List Push} {fuel : Nat}
    (h : epTaskQueueRun q (pushScript q script) fuel (s, log) = .ok (s', log')) :
    ∃ es, Inside es ∧ taskRun q ⟨s, .idle, log⟩ (.run :: es) = .ok ⟨s', .idle, log'⟩ := by
  obtain ⟨pos, hpos, h⟩ := Res.bind_eq_ok.1 h
  obtain ⟨n, hn, h⟩ := Res.bind_eq_ok.1 h
  obtain ⟨es, hin, hes⟩ := runLoop_events h
  exact ⟨es, hin, by simp [taskRun, TaskEvent.exec, hpos, hn, hes]⟩

theorem epTaskQueueRunOnce_events {script : Nat → List Push}
    (h : epTaskQueueRunOnce q (pushScript q script) (s, log) = .ok (s', log')) :
    ∃ es, Inside es ∧ taskRun q ⟨s, .idle, log⟩ (.runOnce :: es) = .ok ⟨s', .idle, log'⟩ := by
  obtain ⟨b, hb, h⟩ := Res.bind_eq_ok.1 h
  cases b with
  | true =>
    cases h
    exact ⟨[], nofun, by simp [taskRun, TaskEvent.exec, hb]⟩
  | false =>
    obtain ⟨p, hp, h⟩ := Res.bind_eq_ok.1 h
    obtain ⟨cb, hcb, h⟩ := Res.bind_eq_ok.1 h
    obtain ⟨m, hdel, h⟩ := Res.bind_eq_ok.1 h
    obtain ⟨t, ht, h⟩ := Res.bind_eq_ok.1 h
    obtain ⟨⟨s₁, log₁⟩, hpush, h⟩ := Res.bind_eq_ok.1 h
    obtain ⟨s₂, hfree, h⟩ := Res.bind_eq_ok.1 h
    cases h
    have hp' := pushTasks_events (.once cb) hpush
    refine ⟨(script log.invoked.length).map .push ++ [.ret], (Inside.pushes _).append .ret, ?_⟩
    have hstart : TaskEvent.runOnce.exec q ⟨s, .idle, log⟩ = .ok ⟨{ s with list := m }, .once cb,
        { log with invoked := log.invoked ++ [t] }⟩ := by
      simp [TaskEvent.exec, hb, hp, hcb, hdel, ht]
    rw [taskRun, hstart, Res.ok_bind, taskRun_append, hp']
    simp [taskRun, TaskEvent.exec, hfree]

end

/-- A call of either function is the step of that name, followed by steps of the callbacks. -/
structure TaskConfig.CallsAreRuns (c : TaskConfig Unit) : Prop where
  run : ∀ {script fuel s' log'}, epTaskQueueRun () (pushScript () script) fuel (c.tasks, c.log) = .ok (s', log') →
    ∃ es, Inside es ∧ taskRun () c (.run :: es) = .ok ⟨s', .idle, log'⟩
  runOnce : ∀ {script s' log'}, epTaskQueueRunOnce () (pushScript () script) (c.tasks, c.log) = .ok (s', log') →
    ∃ es, Inside es ∧ taskRun () c (.runOnce :: es) = .ok ⟨s', .idle, log'⟩

theorem TaskConfig.callsAreRuns {c : TaskConfig Unit} (hc : c.pc = .idle) : c.CallsAreRuns := by
  obtain ⟨s, pc, log⟩ := c
  cases hc
  exact ⟨epTaskQueueRun_events, epTaskQueueRunOnce_events⟩

/-- The law of the queue over a call of `ep_task_queue_run`. -/
theorem TaskConfig.Fifo.epTaskQueueRun {s s' : Tasks Unit} {log log' : TaskLog} {l : List TaskCall}
    (H : Fifo ⟨s, .idle, log⟩ l) {script : Nat → List Push} {fuel : Nat}
    (h : Libep.epTaskQueueRun () (pushScript () script) fuel (s, log) = .ok (s', log')) :
    ∃ l', Fifo ⟨s', .idle, log'⟩ l' := by
  obtain ⟨es, hin, hes⟩ := epTaskQueueRun_events h
  obtain ⟨c', l', hrun, H'⟩ := taskRun_fifo H (show LegalTasks _ (.run :: es) from ⟨rfl, fun c' _ => hin.legal c'⟩)
  cases hes.symm.trans hrun
  exact ⟨l', H'⟩

/-- The law of the queue over a call of `ep_task_queue_run_once`. -/
theorem TaskConfig.Fifo.epTaskQueueRunOnce {s s' : Tasks Unit} {log log' : TaskLog}
    {l : List TaskCall} (H : Fifo ⟨s, .idle, log⟩ l) {script : Nat → List Push}
    (h : Libep.epTaskQueueRunOnce () (pushScript () script) (s, log) = .ok (s', log')) :
    ∃ l', Fifo ⟨s', .idle, log'⟩ l' := by
  obtain ⟨es, hin, hes⟩ := epTaskQueueRunOnce_events h
  obtain ⟨c', l', hrun, H'⟩ := taskRun_fifo H (show LegalTasks _ (.runOnce :: es) from ⟨rfl, fun c' _ => hin.legal c'⟩)
  cases hes.symm.trans hrun
  exact ⟨l', H'⟩

/-! ### From the first state -/

/-- `ep_task_queue_init`. -/
theorem Tasks.Holds.init {s : Tasks Unit} (hs : s.list.live (.head ())) :
    ∃ s', epTaskQueueInit s () = .ok s' ∧ s'.Holds [] := by
  obtain ⟨m, hinit, hring, F⟩ := initListHead_spec hs
  exact ⟨{ s with list := m }, by simp [epTaskQueueInit, hinit],
    ⟨fun _ => hring, fun _ => by show m.live _; rw [F.live]; exact hs, nofun, nofun, nofun⟩, nofun⟩

/-- **A task queue is a queue.** From `ep_task_queue_init`, in every state that pushes, cancellations of
pending tasks, `ep_task_queue_run` and `ep_task_queue_run_once` lead to, with any pushes of the callbacks, the
links form a ring through the pending tasks, and the calls made, followed by the pending tasks, are the
tasks pushed without those cancelled, in push order and each once. The two functions, called between the
others, are such steps. -/
theorem task_queue_fifo (mem : Tasks Unit) (hmem : mem.list.live (.head ())) (es : List TaskEvent)
    (hes : ∀ s, epTaskQueueInit mem () = .ok s → LegalTasks ⟨s, .idle, ⟨[], [], []⟩⟩ es) :
    ∃ s c l, epTaskQueueInit mem () = .ok s ∧ taskRun () ⟨s, .idle, ⟨[], [], []⟩⟩ es = .ok c ∧
      Ring c.tasks.list.next c.tasks.list.prev (.head ()) (l.map fun t => .task t.id) ∧
      c.log.invoked ++ l = c.log.pushed.filter (fun t => t.id ∉ c.log.cancelled) ∧
      (c.log.pushed.map TaskCall.id).Nodup ∧ (c.pc = .idle → c.CallsAreRuns) := by
  obtain ⟨s, hinit, H⟩ := Tasks.Holds.init hmem
  obtain ⟨c, l, hrun, H'⟩ :=
    taskRun_fifo (c := ⟨s, .idle, ⟨[], [], []⟩⟩) ⟨H, ⟨rfl, .nil, nofun, nofun⟩, trivial⟩ (hes s hinit)
  exact ⟨s, c, l, hinit, hrun, H'.holds.ring, H'.log.law, H'.log.nodup, TaskConfig.callsAreRuns⟩

theorem legalTasks_cons {c c' : TaskConfig Unit} {e : TaskEvent} {es : List TaskEvent}
    (h : e.exec () c = .ok c') (he : e.Enabled c) (H : LegalTasks c' es) : LegalTasks c (e :: es) := by
  refine ⟨he, fun c'' h' => ?_⟩
  rw [h] at h'
  cases h'
  exact H

/-- No block yet, and one queue. -/
def sampleTasks : Tasks Unit :=
  ⟨⟨fun _ => none, fun _ => none, fun y => decide (y = .head ())⟩, fun _ => ⟨0, 0⟩, 0, []⟩

/-- The last task of a run pushes one, and a task is cancelled. -/
def sampleEvents : List TaskEvent :=
  [.push ⟨false, 1, 1⟩, .push ⟨false, 2, 2⟩, .cancel 0, .run, .push ⟨false, 3, 3⟩, .ret, .runOnce]

theorem task_queue_fifo_sample :
    ∃ s c l, epTaskQueueInit sampleTasks () = .ok s ∧
      taskRun () ⟨s, .idle, ⟨[], [], []⟩⟩ sampleEvents = .ok c ∧
      Ring c.tasks.list.next c.tasks.list.prev (.head ()) (l.map fun t => .task t.id) ∧
      c.log.invoked ++ l = c.log.pushed.filter (fun t => t.id ∉ c.log.cancelled) ∧
      (c.log.pushed.map TaskCall.id).Nodup ∧ (c.pc = .idle → c.CallsAreRuns) := by
  refine task_queue_fifo sampleTasks rfl sampleEvents fun s hs => ?_
  cases hs
  refine legalTasks_cons rfl trivial (legalTasks_cons rfl trivial (legalTasks_cons rfl ⟨rfl, ?_⟩
    (legalTasks_cons rfl rfl (legalTasks_cons rfl trivial (legalTasks_cons rfl trivial
    (legalTasks_cons rfl rfl trivial))))))
  exact ⟨by decide, by decide, by decide⟩

end Libep
