import Libep.Verify.TaskQueue.Pass

/-!
# Cancelling a task in the callback of another

`ep_task_queue_run` has read the successor of a task when it calls it. A callback that cancels that successor
frees the block the run goes on at; any other pending task it may cancel. `cancel_pending_iff` says so.
-/

namespace Libep
open Chain Tasks.Holds

section notes
variable {notes notes' : List TaskNote} {t : TaskCall} {ids : List Nat}

@[simp] theorem pushedOf_append : pushedOf (notes ++ notes') = pushedOf notes ++ pushedOf notes' :=
  List.flatMap_append

@[simp] theorem invokedOf_append : invokedOf (notes ++ notes') = invokedOf notes ++ invokedOf notes' :=
  List.flatMap_append

@[simp] theorem cancelledOf_append :
    cancelledOf (notes ++ notes') = cancelledOf notes ++ cancelledOf notes' :=
  List.flatMap_append

theorem cancels_notes : invokedOf (ids.map .cancelled) = [] ∧ cancelledOf (ids.map .cancelled) = ids := by
  induction ids with
  | nil => exact ⟨rfl, rfl⟩
  | cons id ids ih => exact ⟨ih.1, congrArg (id :: ·) ih.2⟩

/-- The record of one callback that cancels. -/
@[simp] theorem invokedOf_callback : invokedOf (.invoked t :: ids.map .cancelled) = [t] :=
  congrArg (t :: ·) cancels_notes.1

@[simp] theorem cancelledOf_callback : cancelledOf (.invoked t :: ids.map .cancelled) = ids :=
  cancels_notes.2

end notes

section
variable {s : Tasks Unit} {l l₁ l₂ : List TaskCall} {t : TaskCall} {notes : List TaskNote}
  {ids : List Nat}

/-- Cancelling tasks of the queue, each once. -/
theorem Tasks.Holds.cancels (H : s.Holds l) (hnd : ids.Nodup) (hids : ∀ id ∈ ids, id ∈ l.map TaskCall.id) :
    ∃ s', execActs () (s, notes) (ids.map .cancel) = .ok (s', notes ++ ids.map .cancelled) ∧
      s'.Holds (l.filter (·.id ∉ ids)) ∧
      ∀ a, s'.list.live (.task a) = (s.list.live (.task a) && decide (a ∉ ids)) := by
  induction ids generalizing s l notes with
  | nil => exact ⟨s, by simp [execActs], by simpa using H, by simp⟩
  | cons id ids ih =>
    obtain ⟨s₁, hcancel, H₁, -, hlive₁⟩ := H.cancel_mem (hids id List.mem_cons_self)
    have hnd' := List.nodup_cons.1 hnd
    have hids' : ∀ a ∈ ids, a ∈ (l.filter (·.id ≠ id)).map TaskCall.id := by
      intro a ha
      obtain ⟨t, ht, rfl⟩ := List.mem_map.1 (hids a (List.mem_cons_of_mem _ ha))
      have hne : t.id ≠ id := fun h => hnd'.1 (h ▸ ha)
      exact List.mem_map_of_mem (List.mem_filter.2 ⟨ht, by simpa using hne⟩)
    obtain ⟨s', hrun, H', hlive⟩ := @ih s₁ _ (notes ++ [.cancelled id]) H₁ hnd'.2 hids'
    refine ⟨s', ?_, ?_, fun a => ?_⟩
    · rw [List.map_cons, execActs, TaskAct.exec, hcancel]
      simp [hrun]
    · have hfilter : l.filter (fun t => decide (t.id ∉ id :: ids)) =
          (l.filter (·.id ≠ id)).filter fun t => decide (t.id ∉ ids) := by
        rw [List.filter_filter]
        refine List.filter_congr fun t _ => ?_
        simp [Bool.and_comm]
      rw [hfilter]
      exact H'
    · rw [hlive, hlive₁]
      rcases eq_or_ne a id with rfl | hne
      · simp
      · simp [hne]

/-! ### The pass -/

/-- The tasks that are pending when `k` callbacks have run: the `k`-th cancels `script k`. -/
def pendingAt (script : Nat → List Nat) (l : List TaskCall) : Nat → List TaskCall
  | 0 => l
  | k + 1 => (pendingAt script l k).tail.filter (·.id ∉ script k)

/-- Every callback cancels tasks that are pending then, each once. -/
def LegalCancels (script : Nat → List Nat) (l : List TaskCall) : Prop :=
  ∀ k, pendingAt script l k ≠ [] →
    (script k).Nodup ∧ ∀ id ∈ script k, id ∈ (pendingAt script l k).tail.map TaskCall.id

/-- No callback cancels the task that is next behind its own. -/
def SparesNext (script : Nat → List Nat) (l : List TaskCall) : Prop :=
  ∀ k, ∀ t ∈ (pendingAt script l k).tail.head?, t.id ∉ script k

/-- Callbacks that cancel only. -/
def cancelScript (script : Nat → List Nat) : TaskCall → Tasks Unit × List TaskNote →
    Res (Tasks Unit × List TaskNote) :=
  actScript () fun k => (script k).map .cancel

/-- The rest of a pass, from the first task of the queue on. -/
def cancelPass (script : Nat → List Nat) (fuel : Nat) (s : Tasks Unit) (notes : List TaskNote)
    (l : List TaskCall) : Res (Tasks Unit × List TaskNote) :=
  s.list.getNext (some (first l)) >>=
    runLoop () (cancelScript script) fuel (s, notes) (some (first l))

variable {script : Nat → List Nat} {s' : Tasks Unit} {notes' : List TaskNote} {k fuel : Nat}

theorem cancelPass_nil (H : s.Holds []) : cancelPass script (fuel + 1) s notes [] = .ok (s, notes) := by
  have hfirst : first [] = .head () := rfl
  rw [cancelPass, hfirst, H.next_head]
  simp [runLoop]

/-- One task of a pass, up to the read of the next successor. -/
theorem cancelPass_cons (H : s.Holds (t :: l)) (hk : (invokedOf notes).length = k)
    (hnd : (script k).Nodup) (hids : ∀ id ∈ script k, id ∈ l.map TaskCall.id) :
    ∃ s', s'.Holds (l.filter (·.id ∉ script k)) ∧
      (∀ u ∈ l, s'.list.live (.task u.id) = decide (u.id ∉ script k)) ∧
      ∀ fuel, cancelPass script (fuel + 1) s notes (t :: l) = (s'.list.getNext (some (first l)) >>=
        runLoop () (cancelScript script) fuel (s', notes ++ .invoked t :: (script k).map .cancelled)
          (some (first l))) := by
  obtain ⟨m, hdel, hlive, hcall, H₁⟩ := H.take
  obtain ⟨s₂, hrun, H₂, hlive₂⟩ := @Tasks.Holds.cancels _ _ (notes ++ [.invoked t]) _ H₁ hnd hids
  have hfresh : t.id ∉ l.map TaskCall.id := (List.nodup_cons.1 H.nodup).1
  have ht : t.id ∉ script k := fun h => hfresh (hids _ h)
  have hlive' : s₂.list.live (.task t.id) = true := by
    rw [hlive₂]
    simpa using ⟨hlive, ht⟩
  obtain ⟨s', hfree, H', -⟩ := H₂.free
    (fun h => hfresh ((List.filter_sublist.map _).subset h)) hlive'
  have hfree' : s₂.free t.id = .ok _ := if_pos hlive'
  refine ⟨s', H', fun u hu => ?_, fun fuel => ?_⟩
  · cases hfree.symm.trans hfree'
    have hne : u.id ≠ t.id := fun h => hfresh (h ▸ List.mem_map_of_mem hu)
    have hu' : m.live (.task u.id) = true := H₁.rep.live () u.id (List.mem_map_of_mem hu)
    show Function.update s₂.list.live (.task t.id) false (.task u.id) = _
    rw [Function.update_of_ne (by simpa using hne), hlive₂]
    simp [hu']
  · have hnext : s.list.getNext (some (.task t.id)) = .ok (some (first l)) := @next_task s [] l t H
    have hscript : cancelScript script t ({ s with list := m }, notes) =
        .ok (s₂, notes ++ .invoked t :: (script k).map .cancelled) := by
      rw [cancelScript, actScript, hk, hrun, List.append_assoc]
      rfl
    have hfirst : first (t :: l) = .task t.id := rfl
    rw [cancelPass, hfirst, hnext, Res.ok_bind, runLoop, if_neg (by simp), hdel]
    simp only [Res.ok_bind, taskEntry, hcall, hscript, hfree]

/-- The place a run goes on at, when its task is not cancelled. -/
theorem first_filter {p : TaskCall → Bool} (h : ∀ t ∈ l.head?, p t) : first (l.filter p) = first l := by
  cases l with
  | nil => rfl
  | cons t l => rw [List.filter_cons_of_pos (h t rfl)]; rfl

/-- One task of a pass, whose callback spares the next one. -/
theorem cancelPass_next {q : List TaskCall} (hp : pendingAt script l k = t :: q)
    (hlegal : LegalCancels script l) (hspare : ∀ u ∈ q.head?, u.id ∉ script k)
    (H : s.Holds (pendingAt script l k)) (hk : (invokedOf notes).length = k) :
    ∃ s', s'.Holds (pendingAt script l (k + 1)) ∧
      ∀ fuel, cancelPass script (fuel + 1) s notes (pendingAt script l k) =
        cancelPass script fuel s' (notes ++ .invoked t :: (script k).map .cancelled)
          (pendingAt script l (k + 1)) := by
  obtain ⟨hnd, hids⟩ := hlegal k (by simp [hp])
  have hsucc : pendingAt script l (k + 1) = q.filter (·.id ∉ script k) := by
    rw [pendingAt, hp]
    rfl
  have hfirst : first q = first (pendingAt script l (k + 1)) := by
    rw [hsucc, first_filter fun u hu => by simpa using hspare u hu]
  rw [hp] at H hids ⊢
  obtain ⟨s', H', -, hpass⟩ := cancelPass_cons H hk hnd hids
  rw [← hsucc] at H'
  exact ⟨s', H', fun fuel => by rw [hpass, hfirst]; rfl⟩

/-- A pass that spares the next task runs the tasks that are not cancelled. -/
theorem cancelPass_spares (hlegal : LegalCancels script l) (hspare : SparesNext script l) (n : Nat)
    (H : s.Holds (pendingAt script l k)) (hk : (invokedOf notes).length = k)
    (hn : (pendingAt script l k).length ≤ n) (hf : n < fuel) :
    ∃ s' notes', cancelPass script fuel s notes (pendingAt script l k) = .ok (s', notes ++ notes') ∧
      s'.Holds [] ∧ invokedOf notes' = (pendingAt script l k).filter (·.id ∉ cancelledOf notes') ∧
      ∀ id ∈ cancelledOf notes', id ∈ (pendingAt script l k).map TaskCall.id := by
  induction n generalizing s notes k fuel with
  | zero =>
    obtain ⟨fuel, rfl⟩ := Nat.exists_eq_succ_of_ne_zero (Nat.ne_of_gt hf)
    have hnil := List.eq_nil_of_length_eq_zero (Nat.le_zero.1 hn)
    rw [hnil] at H ⊢
    exact ⟨s, [], by rw [cancelPass_nil H, List.append_nil], H, rfl, nofun⟩
  | succ n ih =>
    obtain ⟨fuel, rfl⟩ := Nat.exists_eq_succ_of_ne_zero (Nat.ne_of_gt (Nat.zero_lt_of_lt hf))
    cases hp : pendingAt script l k with
    | nil =>
      rw [hp] at H
      exact ⟨s, [], by rw [cancelPass_nil H, List.append_nil], H, rfl, nofun⟩
    | cons t q =>
      have hnext := hspare k
      rw [hp] at hnext
      obtain ⟨s₁, H₁, hpass⟩ := cancelPass_next hp hlegal hnext H hk
      have hids := (hlegal k (by simp [hp])).2
      have hsucc : pendingAt script l (k + 1) = q.filter (·.id ∉ script k) := by
        rw [pendingAt, hp]
        rfl
      rw [hp] at H hids hn hpass
      obtain ⟨s', notes', hrun, H', hinv, hsub⟩ := @ih s₁
        (notes ++ .invoked t :: (script k).map .cancelled) (k + 1) fuel H₁ (by simp [hk])
        (by rw [hsucc]; exact Nat.le_trans (List.length_filter_le _ _) (by simpa using hn))
        (Nat.lt_of_succ_lt_succ hf)
      have hcancelled : cancelledOf (.invoked t :: (script k).map .cancelled ++ notes') =
          script k ++ cancelledOf notes' := by
        rw [cancelledOf_append, cancelledOf_callback]
      have hall : ∀ id ∈ script k ++ cancelledOf notes', id ∈ q.map TaskCall.id := by
        intro id hid
        rcases List.mem_append.1 hid with h | h
        · exact hids id h
        · have := hsub id h
          rw [hsucc] at this
          exact (List.filter_sublist.map _).subset this
      refine ⟨s', .invoked t :: (script k).map .cancelled ++ notes', ?_, H', ?_, ?_⟩
      · rw [hpass, ← List.append_assoc]
        exact hrun
      · have ht : t.id ∉ script k ++ cancelledOf notes' := fun h =>
          (List.nodup_cons.1 H.nodup).1 (hall _ h)
        rw [hcancelled, List.filter_cons_of_pos (by simpa using ht), invokedOf_append,
          invokedOf_callback, hinv, hsucc, List.filter_filter, List.singleton_append]
        refine congrArg (t :: ·) (List.filter_congr fun u _ => ?_)
        simp [Bool.and_comm]
      · rw [hcancelled]
        exact fun id hid => List.mem_cons_of_mem _ (hall id hid)

/-- A callback that cancels the next task frees the block the pass goes on at. -/
theorem cancelPass_cancels_next {u : TaskCall} {q : List TaskCall} (H : s.Holds (t :: u :: q))
    (hk : (invokedOf notes).length = k) (hnd : (script k).Nodup)
    (hids : ∀ id ∈ script k, id ∈ (u :: q).map TaskCall.id) (hu : u.id ∈ script k) (fuel : Nat) :
    cancelPass script (fuel + 1) s notes (t :: u :: q) = .error .invalid := by
  obtain ⟨s₁, -, hlive, hpass⟩ := cancelPass_cons H hk hnd hids
  have hdead := hlive u List.mem_cons_self
  rw [decide_eq_false (not_not.2 hu)] at hdead
  have hfirst : first (u :: q) = .task u.id := rfl
  rw [hpass, hfirst]
  simp [ListMem.getNext_dead, hdead]

/-- When nothing is pending, nothing is from there on. -/
theorem pendingAt_nil (h : pendingAt script l k = []) {j : Nat} (hj : k ≤ j) :
    pendingAt script l j = [] := by
  induction j, hj using Nat.le_induction with
  | base => exact h
  | succ j _ ih => rw [pendingAt, ih]; rfl

/-- A pass that ends spares the next task at each of its callbacks. -/
theorem cancelPass_ok (hlegal : LegalCancels script l) (H : s.Holds (pendingAt script l k))
    (hk : (invokedOf notes).length = k) {r : Tasks Unit × List TaskNote}
    (h : cancelPass script fuel s notes (pendingAt script l k) = .ok r) {j : Nat} (hj : k ≤ j) :
    ∀ t ∈ (pendingAt script l j).tail.head?, t.id ∉ script j := by
  induction fuel generalizing s notes k with
  | zero =>
    obtain ⟨n, -, h⟩ := Res.bind_eq_ok.1 h
    cases h
  | succ fuel ih =>
    cases hp : pendingAt script l k with
    | nil =>
      rw [pendingAt_nil hp hj]
      nofun
    | cons t q =>
      have hspare : ∀ u ∈ q.head?, u.id ∉ script k := by
        cases q with
        | nil => nofun
        | cons u q =>
          intro v hv hmem
          cases hv
          obtain ⟨hnd, hids⟩ := hlegal k (by simp [hp])
          rw [hp] at H hids h
          cases (cancelPass_cancels_next H hk hnd hids hmem fuel).symm.trans h
      rcases Nat.lt_or_eq_of_le hj with hlt | rfl
      · obtain ⟨s₁, H₁, hpass⟩ := cancelPass_next hp hlegal hspare H hk
        rw [hpass] at h
        exact ih H₁ (by simp [hk]) h hlt
      · rw [hp]
        exact hspare

theorem epTaskQueueRun_cancel (H : s.Holds l) (fuel : Nat) :
    epTaskQueueRun () (cancelScript script) fuel (s, []) = cancelPass script fuel s [] l := by
  simp only [epTaskQueueRun, H.next_head, Res.ok_bind]
  rfl

/-- `ep_task_queue_run` on the tasks `l` ends; it calls exactly those that are not cancelled, in this order,
and leaves a well formed queue without tasks. -/
def RunsUncancelled (s : Tasks Unit) (l : List TaskCall) (script : Nat → List Nat) : Prop :=
  ∃ n, ∀ fuel, n ≤ fuel → ∃ s' notes,
    epTaskQueueRun () (cancelScript script) fuel (s, []) = .ok (s', notes) ∧
    invokedOf notes = l.filter (·.id ∉ cancelledOf notes) ∧ s'.Holds []

/-- **When a callback may cancel another task.** `ep_task_queue_run` on a queue of the tasks `l`, with callbacks
that cancel pending tasks, calls those that are not cancelled and touches live tasks only, exactly when no
callback cancels the task that is next behind its own. -/
theorem cancel_pending_iff (H : s.Holds l) (hlegal : LegalCancels script l) :
    RunsUncancelled s l script ↔ SparesNext script l := by
  constructor
  · rintro ⟨n, hn⟩ j
    obtain ⟨s', notes, hrun, -⟩ := hn n (Nat.le_refl n)
    rw [epTaskQueueRun_cancel H] at hrun
    exact @cancelPass_ok s l [] script 0 n hlegal H rfl _ hrun j (Nat.zero_le j)
  · intro hspare
    refine ⟨l.length + 1, fun fuel hf => ?_⟩
    obtain ⟨s', notes, hrun, H', hinv, -⟩ := @cancelPass_spares s l [] script 0 fuel hlegal hspare l.length H
      rfl (Nat.le_refl _) hf
    exact ⟨s', notes, by rw [epTaskQueueRun_cancel H]; exact hrun, hinv, H'⟩

end

/-- A third task behind two tasks. -/
def threeTasks : Res (Tasks Unit × TaskLog) := do pushTask () (← twoTasks) ⟨false, 3, 3⟩

theorem threeTasks_holds : ∃ s log, threeTasks = .ok (s, log) ∧
    log.pushed = [⟨0, 1, 1⟩, ⟨1, 2, 2⟩, ⟨2, 3, 3⟩] ∧ s.Holds log.pushed := by
  obtain ⟨s, log, hrun, hpushed, H⟩ := twoTasks_holds
  obtain ⟨s', new, hpush, H', -⟩ := @Tasks.Holds.pushTask _ _ log H ⟨false, 3, 3⟩
  refine ⟨s', _, by rw [threeTasks, hrun, Res.ok_bind, hpush], ?_, H'⟩
  cases hrun
  cases hpush
  rfl

/-- Calls of `ep_task_cancel` by the first callback only. -/
def firstCancels (ids : List Nat) (k : Nat) : List Nat := if k = 0 then ids else []

/-- The first task cancels the third. -/
theorem cancel_pending_iff_sample :
    ∃ s log, threeTasks = .ok (s, log) ∧ RunsUncancelled s log.pushed (firstCancels [2]) := by
  obtain ⟨s, log, hrun, hpushed, H⟩ := threeTasks_holds
  refine ⟨s, log, hrun, (cancel_pending_iff H fun k _ => ?_).2 fun k => ?_⟩
  · cases k with
    | zero => rw [hpushed]; decide
    | succ k => exact ⟨.nil, by simp [firstCancels]⟩
  · cases k with
    | zero => rw [hpushed]; decide
    | succ k => simp [firstCancels]

/-- The first task cancels the second: the pass reads the links of the block that was freed. -/
theorem cancel_next_invalid :
    ∃ s log, twoTasks = .ok (s, log) ∧ LegalCancels (firstCancels [1]) log.pushed ∧
      ¬RunsUncancelled s log.pushed (firstCancels [1]) ∧
      ∀ fuel, epTaskQueueRun () (cancelScript (firstCancels [1])) (fuel + 1) (s, []) =
        .error .invalid := by
  obtain ⟨s, log, hrun, hpushed, H⟩ := twoTasks_holds
  have hinvalid : ∀ fuel, epTaskQueueRun () (cancelScript (firstCancels [1])) (fuel + 1) (s, []) =
      .error .invalid := by
    intro fuel
    rw [epTaskQueueRun_cancel H]
    rw [hpushed] at H ⊢
    exact cancelPass_cancels_next H rfl (by decide) (by decide) (by decide) fuel
  refine ⟨s, log, hrun, fun k _ => ?_, ?_, hinvalid⟩
  · cases k with
    | zero => rw [hpushed]; decide
    | succ k => exact ⟨.nil, by simp [firstCancels]⟩
  · rintro ⟨n, hn⟩
    obtain ⟨s', notes, h, -⟩ := hn (n + 1) (Nat.le_succ n)
    cases (hinvalid n).symm.trans h

end Libep
