import Libep.Verify.TaskQueue.Fifo

/-!
# What a pass runs

`ep_task_queue_run` reads the successor of a task before it calls it. What the last task of the queue pushes
stays for the next run, since its successor was the head; what any other task pushes is appended to tasks
that are still to run, and runs in the same pass. `task_queue_run_iff` says when a pass runs just the tasks
it found.
-/

namespace Libep
open Chain Tasks.Holds

variable {s s' : Tasks Unit} {l : List TaskCall} {t : TaskCall} {log log' : TaskLog}
  {script : Nat → List Push}

theorem Tasks.Holds.pushTasks (H : s.Holds l) (ps : List Push) :
    ∃ s' new, Libep.pushTasks () (s, log) ps = .ok (s', { log with pushed := log.pushed ++ new }) ∧
      s'.Holds (l ++ new) ∧ (new = [] ↔ ∀ p ∈ ps, p.oom) ∧ (∀ u ∈ new, s.brk ≤ u.id) ∧
      ∀ y, s.list.live y → s'.list.live y := by
  induction ps generalizing s l log with
  | nil => exact ⟨s, [], by simp [Libep.pushTasks], by simpa using H, by simp, nofun, fun _ h => h⟩
  | cons p ps ih =>
    obtain ⟨s₁, new₁, hrun₁, H₁, hnew₁, hbrk, hlive₁⟩ := @pushTask _ _ log H p
    obtain ⟨s', new, hrun, H', hnew, hge, hlive⟩ := @ih s₁ (l ++ new₁)
      { log with pushed := log.pushed ++ new₁ } H₁
    refine ⟨s', new₁ ++ new, ?_, by rwa [← List.append_assoc], ?_, fun u hu => ?_,
      fun y hy => hlive y (hlive₁ y hy)⟩
    · rw [Libep.pushTasks, hrun₁, Res.ok_bind, hrun, List.append_assoc]
    · rw [List.append_eq_nil_iff, hnew, List.forall_mem_cons, hnew₁]
      cases p.oom <;> simp
    · rcases List.mem_append.1 hu with hu | hu
      · rw [hnew₁] at hu
        split at hu
        · cases hu
        · rw [List.mem_singleton.1 hu]
      · exact Nat.le_trans (by omega) (hge u hu)

/-- The rest of a pass, from the first task of the queue on. -/
def passFrom (script : Nat → List Push) (fuel : Nat) (s : Tasks Unit) (log : TaskLog)
    (l : List TaskCall) : Res (Tasks Unit × TaskLog) :=
  s.list.getNext (some (first l)) >>= runLoop () (pushScript () script) fuel (s, log) (some (first l))

theorem epTaskQueueRun_eq (H : s.Holds l) (fuel : Nat) :
    epTaskQueueRun () (pushScript () script) fuel (s, log) = passFrom script fuel s log l := by
  simp only [epTaskQueueRun, H.next_head, Res.ok_bind]
  rfl

theorem passFrom_nil (H : s.Holds l) (fuel : Nat) :
    passFrom script (fuel + 1) s log [] = .ok (s, log) := by
  have hfirst : first [] = .head () := rfl
  rw [passFrom, hfirst, H.next_head]
  simp [runLoop]

/-- One task of a pass: what it pushes is behind the tasks that were there. -/
theorem passFrom_cons (H : s.Holds (t :: l)) :
    ∃ s' new, s'.Holds (l ++ new) ∧ (new = [] ↔ ∀ p ∈ script log.invoked.length, p.oom) ∧
      ∀ fuel, passFrom script (fuel + 1) s log (t :: l) = passFrom script fuel s'
        { log with invoked := log.invoked ++ [t], pushed := log.pushed ++ new } l := by
  obtain ⟨m, hdel, hlive, hcall, H₁⟩ := H.take
  obtain ⟨s₂, new, hpush, H₂, hnew, hge, hlive₂⟩ := @Tasks.Holds.pushTasks _ _
    { log with invoked := log.invoked ++ [t] } H₁ (script log.invoked.length)
  have hfresh : t.id ∉ (l ++ new).map TaskCall.id := by
    rw [List.map_append, List.mem_append, not_or]
    refine ⟨(List.nodup_cons.1 H.nodup).1, fun h => ?_⟩
    obtain ⟨u, hu, he⟩ := List.mem_map.1 h
    have h1 := hge u hu
    have h2 := H.lt List.mem_cons_self
    simp only at h1
    omega
  obtain ⟨s', hfree, H', -⟩ := H₂.free hfresh (hlive₂ _ hlive)
  refine ⟨s', new, H', hnew, fun fuel => ?_⟩
  have hnext : s.list.getNext (some (.task t.id)) = .ok (some (first l)) := @next_task s [] l t H
  have hscript : pushScript () script t ({ s with list := m }, log) =
      .ok (s₂, { log with invoked := log.invoked ++ [t], pushed := log.pushed ++ new }) := hpush
  have hfirst : first (t :: l) = .task t.id := rfl
  rw [passFrom, hfirst, hnext, Res.ok_bind, runLoop, if_neg (by simp), hdel]
  simp only [Res.ok_bind, taskEntry, hcall, hscript, hfree]
  rfl

/-- A pass in which only its last task pushes runs the tasks it finds, and leaves what was pushed. -/
theorem passFrom_quiet (H : s.Holds l)
    (hq : ∀ k, k + 1 < l.length → ∀ p ∈ script (log.invoked.length + k), p.oom) {fuel : Nat}
    (hf : l.length < fuel) :
    ∃ s' new, passFrom script fuel s log l =
        .ok (s', { log with invoked := log.invoked ++ l, pushed := log.pushed ++ new }) ∧
      s'.Holds new := by
  induction l generalizing s log fuel with
  | nil =>
    obtain ⟨fuel, rfl⟩ := Nat.exists_eq_succ_of_ne_zero (Nat.ne_of_gt hf)
    exact ⟨s, [], by simp [passFrom_nil H], H⟩
  | cons t l ih =>
    obtain ⟨fuel, rfl⟩ := Nat.exists_eq_succ_of_ne_zero (Nat.ne_of_gt (Nat.zero_lt_of_lt hf))
    obtain ⟨s₁, new, H₁, hnew, hpass⟩ := @passFrom_cons _ _ _ log script H
    rw [hpass]
    cases l with
    | nil =>
      -- the successor that was read is the head
      obtain ⟨fuel, rfl⟩ := Nat.exists_eq_succ_of_ne_zero
        (Nat.ne_of_gt (Nat.zero_lt_of_lt (Nat.lt_of_succ_lt_succ hf)))
      exact ⟨s₁, new, passFrom_nil H₁ fuel, H₁⟩
    | cons u l =>
      obtain rfl : new = [] := hnew.2 (hq 0 (by simp))
      rw [List.append_nil] at H₁
      obtain ⟨s', new, hrun, H'⟩ := @ih s₁ { log with
          invoked := log.invoked ++ [t], pushed := log.pushed ++ [] } H₁ (fun k hk p hp => by
        rw [List.length_append, List.length_singleton, Nat.add_assoc, Nat.add_comm 1 k] at hp
        exact hq (k + 1) (by simpa using hk) p hp) fuel (by simpa using hf)
      refine ⟨s', new, ?_, H'⟩
      simpa using hrun

/-- A pass runs at least the tasks it finds, and no other task only if no task but the last one pushes. -/
theorem passFrom_length {fuel : Nat} (H : s.Holds l)
    (h : passFrom script fuel s log l = .ok (s', log')) :
    log.invoked.length + l.length ≤ log'.invoked.length ∧
      (log'.invoked.length = log.invoked.length + l.length →
        ∀ k, k + 1 < l.length → ∀ p ∈ script (log.invoked.length + k), p.oom) := by
  induction fuel generalizing s l log with
  | zero =>
    obtain ⟨n, -, h⟩ := Res.bind_eq_ok.1 h
    cases h
  | succ fuel ih =>
    cases l with
    | nil =>
      rw [passFrom_nil H] at h
      cases h
      exact ⟨Nat.le_refl _, fun _ k hk => absurd hk (by simp)⟩
    | cons t l =>
      obtain ⟨s₁, new, H₁, hnew, hpass⟩ := @passFrom_cons _ _ _ log script H
      rw [hpass] at h
      cases l with
      | nil =>
        cases fuel with
        | zero =>
          obtain ⟨n, -, h⟩ := Res.bind_eq_ok.1 h
          cases h
        | succ fuel =>
          rw [passFrom_nil H₁] at h
          cases h
          exact ⟨by simp, fun _ k hk => absurd hk (by simp)⟩
      | cons u l =>
        obtain ⟨hlen, heq⟩ := ih (l := u :: (l ++ new)) H₁ h
        simp only [List.length_append, List.length_cons] at hlen heq ⊢
        refine ⟨by omega, fun h' k hk p hp => ?_⟩
        have hnil : new.length = 0 := by omega
        cases k with
        | zero => exact hnew.1 (List.eq_nil_of_length_eq_zero hnil) p hp
        | succ k =>
          refine heq (by simp; omega) k (by omega) p ?_
          rw [Nat.add_assoc]
          simpa [Nat.add_comm] using hp

/-- A pass over two tasks or more, all of which push, never ends. -/
theorem passFrom_endless (hscript : ∀ k, ∃ p ∈ script k, ¬p.oom) (H : s.Holds l) (hl : 1 < l.length)
    (fuel : Nat) : ∀ r, passFrom script fuel s log l ≠ .ok r := by
  induction fuel generalizing s l log with
  | zero =>
    intro r h
    obtain ⟨n, -, h⟩ := Res.bind_eq_ok.1 h
    cases h
  | succ fuel ih =>
    match l, hl with
    | t :: u :: l, _ =>
      obtain ⟨s₁, new, H₁, hnew, hpass⟩ := @passFrom_cons _ _ _ log script H
      have hne : new ≠ [] := fun h => by
        obtain ⟨p, hp, hoom⟩ := hscript log.invoked.length
        exact hoom (hnew.1 h p hp)
      rw [hpass]
      apply ih (l := u :: (l ++ new)) H₁
      have := List.length_pos_of_ne_nil hne
      simp
      omega

/-- `ep_task_queue_run` ends, calls exactly the tasks `l`, in this order, and leaves exactly the tasks that
were pushed meanwhile. -/
def RunsEntry (s : Tasks Unit) (l : List TaskCall) (script : Nat → List Push) : Prop :=
  ∃ n, ∀ fuel, n ≤ fuel → ∃ s' log',
    epTaskQueueRun () (pushScript () script) fuel (s, ⟨[], [], []⟩) = .ok (s', log') ∧
    log'.invoked = l ∧ s'.Holds log'.pushed

/-- **What a pass runs.** `ep_task_queue_run` on a queue of the tasks `l` ends and calls just these tasks,
in order, and leaves what the callbacks pushed, exactly when no callback pushes a task but that of the last
task of `l`. -/
theorem task_queue_run_iff (H : s.Holds l) :
    RunsEntry s l script ↔ ∀ k, k + 1 < l.length → ∀ p ∈ script k, p.oom := by
  constructor
  · rintro ⟨n, hn⟩
    obtain ⟨s', log', hrun, hinv, -⟩ := hn n (Nat.le_refl n)
    rw [epTaskQueueRun_eq H] at hrun
    have := (passFrom_length H hrun).2 (by simp [hinv])
    simpa using this
  · intro hq
    refine ⟨l.length + 1, fun fuel hf => ?_⟩
    obtain ⟨s', new, hrun, H'⟩ := @passFrom_quiet _ _ ⟨[], [], []⟩ script H (by simpa using hq) fuel hf
    exact ⟨s', _, by rw [epTaskQueueRun_eq H]; exact hrun, rfl, H'⟩

/-- A queue of two tasks. -/
def twoTasks : Res (Tasks Unit × TaskLog) := do
  let s ← epTaskQueueInit sampleTasks ()
  pushTasks () (s, ⟨[], [], []⟩) [⟨false, 1, 1⟩, ⟨false, 2, 2⟩]

theorem twoTasks_holds :
    ∃ s log, twoTasks = .ok (s, log) ∧ log.pushed = [⟨0, 1, 1⟩, ⟨1, 2, 2⟩] ∧ s.Holds log.pushed := by
  obtain ⟨s, hinit, H⟩ := Tasks.Holds.init (s := sampleTasks) rfl
  obtain ⟨s', new, hpush, H', -⟩ := @Tasks.Holds.pushTasks _ _ ⟨[], [], []⟩ H
    [⟨false, 1, 1⟩, ⟨false, 2, 2⟩]
  refine ⟨s', _, by rw [twoTasks, hinit, Res.ok_bind, hpush], ?_, H'⟩
  cases hinit
  cases hpush
  rfl

/-- A pass over two tasks, of which the second pushes. -/
theorem task_queue_run_iff_sample :
    ∃ s log, twoTasks = .ok (s, log) ∧
      RunsEntry s log.pushed fun k => if k = 1 then [⟨false, 3, 3⟩] else [] := by
  obtain ⟨s, log, hrun, hpushed, H⟩ := twoTasks_holds
  refine ⟨s, log, hrun, (task_queue_run_iff H).2 fun k hk => ?_⟩
  rw [hpushed] at hk
  rw [if_neg (by simpa using Nat.ne_of_lt hk)]
  nofun

/-- Two tasks that are pushed again by their callbacks keep a pass from ending. -/
theorem task_queue_run_endless :
    ∃ s log, twoTasks = .ok (s, log) ∧ ¬RunsEntry s log.pushed (fun _ => [⟨false, 1, 1⟩]) ∧
      ¬∃ fuel r, epTaskQueueRun () (pushScript () fun _ => [⟨false, 1, 1⟩]) fuel
        (s, ⟨[], [], []⟩) = .ok r := by
  obtain ⟨s, log, hrun, hpushed, H⟩ := twoTasks_holds
  have hend : ∀ fuel r, epTaskQueueRun () (pushScript () fun _ => [⟨false, 1, 1⟩]) fuel
      (s, ⟨[], [], []⟩) ≠ .ok r := by
    intro fuel r
    rw [epTaskQueueRun_eq H]
    exact passFrom_endless (fun _ => ⟨_, List.mem_singleton_self _, by simp⟩) H (by simp [hpushed])
      fuel r
  refine ⟨s, log, hrun, ?_, fun ⟨fuel, r, h⟩ => hend fuel r h⟩
  rintro ⟨n, hn⟩
  obtain ⟨s', log', h, -⟩ := hn n (Nat.le_refl n)
  exact hend n _ h

end Libep
