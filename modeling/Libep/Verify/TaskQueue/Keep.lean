import Libep.Verify.TaskQueue.Cancel

/-!
# Changes of a queue during `ep_task_queue_run_keep`

`ep_task_queue_run_keep` reads the successor of a task when its callback has returned. So a callback may push
tasks, which run in the same pass, and cancel any task but its own: the links of its own block are read when
it is freed. `KeepPass` is such a pass without memory; `keep_tolerates_iff` says when the code is one.
-/

namespace Libep
open Chain Tasks.Holds

/-! ### The loop, one round at a time -/

section
variable {Q W : Type} [DecidableEq Q] (q : Q) (call : TaskCall → Tasks Q × W → Res (Tasks Q × W))

/-- A round of the loop of `ep_task_queue_run_keep`; at the head it is over. -/
def keepStep (s : Tasks Q × W) (pos : Option (TaskRef Q)) :
    Res ((Tasks Q × W) × Option (TaskRef Q)) :=
  if pos = some (.head q) then return (s, pos)
  else do
    let cb ← taskEntry pos
    let s ← call (← s.1.call cb) s
    return (s, ← s.1.list.getNext pos)

/-- The first `k` rounds of `ep_task_queue_run_keep`, and where it goes on. -/
def keepRounds : Nat → Tasks Q × W → Res ((Tasks Q × W) × Option (TaskRef Q))
  | 0, s => do return (s, ← s.1.list.getNext (some (.head q)))
  | k + 1, s => do
    let (s, pos) ← keepRounds k s
    keepStep q call s pos

variable {q call} {s s' : Tasks Q × W} {pos : Option (TaskRef Q)} {k : Nat}

theorem runKeepLoop_head (k : Nat) : runKeepLoop q call (k + 1) s (some (.head q)) = .ok s := by
  rw [runKeepLoop, if_pos rfl]
  rfl

theorem runKeepLoop_succ (h : pos ≠ some (.head q)) (k : Nat) :
    runKeepLoop q call (k + 1) s pos = keepStep q call s pos >>= fun r => runKeepLoop q call k r.1 r.2 := by
  obtain ⟨t, w⟩ := s
  rw [runKeepLoop, if_neg h]
  unfold keepStep
  rw [if_neg h]
  simp only [bind_assoc, pure_bind]

/-- After `k` rounds the pass goes on where they end. -/
theorem keepRounds_loop (h : keepRounds q call k s = .ok (s', pos)) (j : Nat) :
    epTaskQueueRunKeep q call (k + (j + 1)) s = runKeepLoop q call (j + 1) s' pos := by
  induction k generalizing s' pos j with
  | zero =>
    obtain ⟨p, hp, h⟩ := Res.bind_eq_ok.1 h
    cases h
    rw [epTaskQueueRunKeep, hp, Nat.zero_add]
    rfl
  | succ k ih =>
    obtain ⟨⟨s₁, p₁⟩, h₁, hstep⟩ := Res.bind_eq_ok.1 h
    rw [Nat.add_assoc, Nat.add_comm 1, ih h₁]
    dsimp only at hstep
    rcases eq_or_ne p₁ (some (.head q)) with rfl | hp
    · rw [keepStep, if_pos rfl] at hstep
      cases hstep
      rw [runKeepLoop_head, runKeepLoop_head]
    · rw [runKeepLoop_succ hp, hstep]
      rfl

/-- A pass that is over after `k` rounds. -/
theorem keepRounds_over (h : keepRounds q call k s = .ok (s', some (.head q))) {fuel : Nat}
    (hf : k < fuel) : epTaskQueueRunKeep q call fuel s = .ok s' := by
  obtain ⟨j, rfl⟩ := Nat.exists_eq_add_of_lt hf
  rw [Nat.add_assoc, keepRounds_loop h, runKeepLoop_head]

/-- A pass that is not. -/
theorem keepRounds_fuel {r : (Tasks Q × W) × Option (TaskRef Q)}
    (h : keepRounds q call k s = .ok (s', pos)) (hpos : pos ≠ some (.head q))
    (hnext : keepRounds q call (k + 1) s = .ok r) :
    epTaskQueueRunKeep q call (k + 1) s = .error .fuel := by
  rw [keepRounds, h] at hnext
  rw [keepRounds_loop h 0, runKeepLoop_succ hpos]
  exact congrArg (· >>= fun r => runKeepLoop q call 0 r.1 r.2) hnext

end

/-! ### A pass without memory -/

/-- The tasks that were not cancelled. -/
def uncancelled (notes : List TaskNote) (l : List TaskCall) : List TaskCall :=
  l.filter (·.id ∉ cancelledOf notes)

/-- A pass: the tasks behind it and ahead of it, also those cancelled since, as they were pushed; the block
the next push gets; and what happened. -/
structure KeepPass where
  passed : List TaskCall
  ahead : List TaskCall
  brk : Nat
  notes : List TaskNote

namespace KeepPass

def tasks (P : KeepPass) : List TaskCall := P.passed ++ P.ahead

/-- The queue. -/
def queue (P : KeepPass) : List TaskCall := uncancelled P.notes P.tasks

def act (P : KeepPass) : TaskAct → KeepPass
  | .push p =>
    if p.oom then P
    else
      let t : TaskCall := ⟨P.brk, p.fn, p.arg⟩
      { P with ahead := P.ahead ++ [t], brk := P.brk + 1, notes := P.notes ++ [.pushed t] }
  | .cancel id => { P with notes := P.notes ++ [.cancelled id] }

def acts (P : KeepPass) (as : List TaskAct) : KeepPass := as.foldl act P

/-- Tasks are cancelled while they are in the queue. -/
def Allows : KeepPass → List TaskAct → Prop
  | _, [] => True
  | P, .push p :: as => (P.act (.push p)).Allows as
  | P, .cancel id :: as => id ∈ P.queue.map TaskCall.id ∧ (P.act (.cancel id)).Allows as

/-- The next task is called. -/
def call (P : KeepPass) : Option (TaskCall × KeepPass) :=
  match P.ahead.dropWhile (·.id ∈ cancelledOf P.notes) with
  | [] => none
  | t :: ahead => some (t, { P with
      passed := P.passed ++ P.ahead.takeWhile (·.id ∈ cancelledOf P.notes) ++ [t]
      ahead, notes := P.notes ++ [.invoked t] })

/-- The first `k` rounds, of which the `k`-th callback makes the calls `script k`. -/
def rounds (script : Nat → List TaskAct) (P : KeepPass) : Nat → KeepPass
  | 0 => P
  | k + 1 =>
    match (rounds script P k).call with
    | none => rounds script P k
    | some (_, P') => P'.acts (script k)

end KeepPass

/-- What holds of the tasks `l` of a queue in a pass with the record `notes`, which has passed the tasks
`passed` and not `ahead`. -/
structure PassLaw (l passed ahead : List TaskCall) (notes : List TaskNote) : Prop where
  /-- Tasks are passed in the order in which they were pushed. -/
  tasks : passed ++ ahead = l ++ pushedOf notes
  nodup : ((passed ++ ahead).map TaskCall.id).Nodup
  invoked : (invokedOf notes).Sublist passed
  /-- A task that is passed was called, unless it was cancelled before. -/
  passed : ∀ t ∈ passed, t ∈ invokedOf notes ∨ t.id ∈ cancelledOf notes
  /-- No task is called after it was cancelled. -/
  late : notes.Pairwise fun a b => ∀ t, a = .cancelled t.id → b ≠ .invoked t

/-- The invariant of a pass over the tasks `l`. -/
structure KeepPass.Inv (P : KeepPass) (l : List TaskCall) : Prop extends
    PassLaw l P.passed P.ahead P.notes where
  lt : ∀ t ∈ P.tasks, t.id < P.brk
  cancelled : ∀ id ∈ cancelledOf P.notes, id < P.brk

section
variable {l : List TaskCall} {notes : List TaskNote} {t : TaskCall} {id : Nat}

@[simp] theorem pushedOf_invoked : pushedOf [.invoked t] = [] := rfl
@[simp] theorem pushedOf_cancelled : pushedOf [.cancelled id] = [] := rfl
@[simp] theorem invokedOf_pushed : invokedOf [.pushed t] = [] := rfl
@[simp] theorem invokedOf_invoked : invokedOf [.invoked t] = [t] := rfl
@[simp] theorem invokedOf_cancelled : invokedOf [.cancelled id] = [] := rfl
@[simp] theorem cancelledOf_pushed : cancelledOf [.pushed t] = [] := rfl
@[simp] theorem cancelledOf_invoked : cancelledOf [.invoked t] = [] := rfl
@[simp] theorem cancelledOf_cancelled : cancelledOf [.cancelled id] = [id] := rfl

theorem uncancelled_cancelled :
    uncancelled (notes ++ [.cancelled id]) l = (uncancelled notes l).filter (·.id ≠ id) := by
  rw [uncancelled, uncancelled, List.filter_filter]
  refine List.filter_congr fun t _ => ?_
  simp [and_comm]

/-- What is in the record as cancelled. -/
theorem mem_cancelledOf : id ∈ cancelledOf notes ↔ .cancelled id ∈ notes := by
  induction notes with
  | nil => simp [cancelledOf]
  | cons a notes ih =>
    have hcons : cancelledOf (a :: notes) = cancelledOf [a] ++ cancelledOf notes := @cancelledOf_append [a] notes
    rw [hcons, List.mem_append, ih, List.mem_cons]
    cases a <;> simp

end

namespace KeepPass
variable {P P' : KeepPass} {l : List TaskCall} {t : TaskCall} {a : TaskAct} {as : List TaskAct} {id : Nat}

@[simp] theorem acts_nil : P.acts [] = P := rfl

@[simp] theorem acts_cons : P.acts (a :: as) = (P.act a).acts as := rfl

/-- A callback does not move the pass. -/
theorem acts_passed : (P.acts as).passed = P.passed := by
  induction as generalizing P with
  | nil => rfl
  | cons a as ih =>
    rw [acts_cons, ih]
    cases a with
    | push p => cases hp : p.oom <;> simp [act, hp]
    | cancel id => rfl

/-- A callback makes no calls of others. -/
theorem acts_invoked : invokedOf (P.acts as).notes = invokedOf P.notes := by
  induction as generalizing P with
  | nil => rfl
  | cons a as ih =>
    rw [acts_cons, ih]
    cases a with
    | push p => cases hp : p.oom <;> simp [act, hp]
    | cancel id => simp [act]

theorem acts_cancelled :
    id ∈ cancelledOf (P.acts as).notes ↔ id ∈ cancelledOf P.notes ∨ .cancel id ∈ as := by
  induction as generalizing P with
  | nil => simp
  | cons a as ih =>
    rw [acts_cons, ih]
    cases a with
    | push p => cases hp : p.oom <;> simp [act, hp]
    | cancel id' => simp [act, or_assoc]

theorem call_none (h : P.call = none) : uncancelled P.notes P.ahead = [] := by
  rw [call] at h
  split at h
  · next hdrop =>
    rw [List.dropWhile_eq_nil_iff] at hdrop
    exact List.filter_eq_nil_iff.2 fun u hu => by simpa using hdrop u hu
  · cases h

/-- The pass skips the tasks that were cancelled. -/
theorem call_some (h : P.call = some (t, P')) :
    ∃ skipped ahead, P.ahead = skipped ++ t :: ahead ∧ (∀ u ∈ skipped, u.id ∈ cancelledOf P.notes) ∧
      t.id ∉ cancelledOf P.notes ∧ P' = { P with
        passed := P.passed ++ skipped ++ [t], ahead, notes := P.notes ++ [.invoked t] } := by
  rw [call] at h
  split at h
  · cases h
  · next u ahead hdrop =>
    cases h
    refine ⟨_, ahead, by rw [← hdrop, List.takeWhile_append_dropWhile],
      fun u hu => by simpa using List.mem_takeWhile_imp hu, ?_, rfl⟩
    have := List.head?_dropWhile_not (fun u : TaskCall => decide (u.id ∈ cancelledOf P.notes)) P.ahead
    rw [hdrop] at this
    simpa using this

/-! ### The invariant of a pass -/

namespace Inv

theorem push (H : P.Inv l) (p : Push) : (P.act (.push p)).Inv l := by
  cases hp : p.oom with
  | true =>
    have hact : P.act (.push p) = P := by rw [act, if_pos hp]
    rwa [hact]
  | false =>
    have hact : P.act (.push p) = { P with
        ahead := P.ahead ++ [⟨P.brk, p.fn, p.arg⟩], brk := P.brk + 1
        notes := P.notes ++ [.pushed ⟨P.brk, p.fn, p.arg⟩] } := by
      rw [act, if_neg (by simp [hp])]
    rw [hact]
    refine ⟨⟨?_, ?_, ?_, ?_, ?_⟩, fun u hu => ?_, fun id hid => ?_⟩
    · rw [← List.append_assoc, H.tasks, pushedOf_append, List.append_assoc]
      rfl
    · rw [← List.append_assoc, List.map_append, List.nodup_append]
      refine ⟨H.nodup, by simp, fun a ha b hb => ?_⟩
      obtain ⟨u, hu, rfl⟩ := List.mem_map.1 ha
      rw [List.map_singleton, List.mem_singleton] at hb
      rw [hb]
      exact Nat.ne_of_lt (H.lt u hu)
    · rw [invokedOf_append, invokedOf_pushed, List.append_nil]
      exact H.invoked
    · rw [invokedOf_append, cancelledOf_append, invokedOf_pushed, cancelledOf_pushed, List.append_nil,
        List.append_nil]
      exact H.passed
    · rw [List.pairwise_append]
      exact ⟨H.late, List.pairwise_singleton .., fun a _ b hb t _ => by simp [List.mem_singleton.1 hb]⟩
    · rw [tasks, ← List.append_assoc, List.mem_append] at hu
      rcases hu with hu | hu
      · exact Nat.lt_succ_of_lt (H.lt u hu)
      · rw [List.mem_singleton.1 hu]
        exact Nat.lt_succ_self _
    · rw [cancelledOf_append, cancelledOf_pushed, List.append_nil] at hid
      exact Nat.lt_succ_of_lt (H.cancelled id hid)

theorem cancel (H : P.Inv l) (hid : id ∈ P.queue.map TaskCall.id) : (P.act (.cancel id)).Inv l := by
  obtain ⟨u, hu, rfl⟩ := List.mem_map.1 hid
  refine ⟨⟨?_, H.nodup, ?_, fun t ht => ?_, ?_⟩, H.lt, fun id hid => ?_⟩
  · show _ = l ++ pushedOf (P.notes ++ [TaskNote.cancelled u.id])
    rw [pushedOf_append, pushedOf_cancelled, List.append_nil]
    exact H.tasks
  · show (invokedOf (P.notes ++ [TaskNote.cancelled u.id])).Sublist _
    rw [invokedOf_append, invokedOf_cancelled, List.append_nil]
    exact H.invoked
  · show t ∈ invokedOf (P.notes ++ [TaskNote.cancelled u.id]) ∨ t.id ∈ cancelledOf (P.notes ++ [TaskNote.cancelled u.id])
    rw [invokedOf_append, cancelledOf_append, invokedOf_cancelled, List.append_nil, List.mem_append]
    exact (H.passed t ht).imp_right .inl
  · show (P.notes ++ [TaskNote.cancelled u.id]).Pairwise _
    rw [List.pairwise_append]
    exact ⟨H.late, List.pairwise_singleton .., fun a _ b hb t _ => by simp [List.mem_singleton.1 hb]⟩
  · replace hid : id ∈ cancelledOf (P.notes ++ [TaskNote.cancelled u.id]) := hid
    rw [cancelledOf_append, List.mem_append, cancelledOf_cancelled, List.mem_singleton] at hid
    rcases hid with hid | rfl
    · exact H.cancelled id hid
    · exact H.lt u (List.mem_of_mem_filter hu)

theorem acts (H : P.Inv l) (h : P.Allows as) : (P.acts as).Inv l := by
  induction as generalizing P with
  | nil => exact H
  | cons a as ih =>
    cases a with
    | push p => exact ih (H.push p) h
    | cancel id => exact ih (H.cancel h.1) h.2

theorem call (H : P.Inv l) (h : P.call = some (t, P')) : P'.Inv l := by
  obtain ⟨skipped, ahead, hahead, hskipped, ht, rfl⟩ := call_some h
  have htasks : P.passed ++ skipped ++ [t] ++ ahead = P.tasks := by
    rw [tasks, hahead]
    simp
  refine ⟨⟨?_, ?_, ?_, fun u hu => ?_, ?_⟩, fun u hu => H.lt u ?_, ?_⟩
  · rw [htasks, pushedOf_append, pushedOf_invoked, List.append_nil]
    exact H.tasks
  · rw [htasks]
    exact H.nodup
  · rw [invokedOf_append, invokedOf_invoked]
    exact (H.invoked.trans (List.sublist_append_left ..)).append_right _
  · rw [invokedOf_append, cancelledOf_append, cancelledOf_invoked, List.append_nil, List.mem_append]
    rcases List.mem_append.1 hu with hu | hu
    · rcases List.mem_append.1 hu with hu | hu
      · exact (H.passed u hu).imp_left .inl
      · exact .inr (hskipped u hu)
    · exact .inl (.inr hu)
  · rw [List.pairwise_append]
    refine ⟨H.late, List.pairwise_singleton .., fun a ha b hb u hau hbu => ?_⟩
    rw [List.mem_singleton.1 hb] at hbu
    cases hbu
    exact ht (mem_cancelledOf.2 (hau ▸ ha))
  · rw [← htasks]
    exact hu
  · rw [cancelledOf_append, cancelledOf_invoked, List.append_nil]
    exact H.cancelled

end Inv

/-! ### The code's pass -/

/-- The memory of a pass. -/
structure Rep (P : KeepPass) (s : Tasks Unit) : Prop where
  holds : s.Holds P.queue
  brk : s.brk = P.brk

variable {s : Tasks Unit} {notes : List TaskNote}

/-- A call that a callback makes. -/
theorem Rep.act (R : P.Rep s) (H : P.Inv l) (ha : P.Allows [a]) :
    ∃ s', a.exec () (s, P.notes) = .ok (s', (P.act a).notes) ∧ (P.act a).Rep s' ∧ s.brk ≤ s'.brk ∧
      ∀ id < s.brk, s'.list.live (.task id) = (s.list.live (.task id) && decide (a ≠ .cancel id)) := by
  cases a with
  | push p =>
    cases hp : p.oom with
    | true =>
      have hact : P.act (.push p) = P := by rw [KeepPass.act, if_pos hp]
      rw [hact]
      exact ⟨s, by simp [TaskAct.exec, epTaskQueuePush, hp], R, Nat.le_refl _, fun _ _ => by simp⟩
    | false =>
      obtain ⟨s', hpush, H', hbrk, hlive⟩ := R.holds.push p.fn p.arg
      have hact : P.act (.push p) = { P with
          ahead := P.ahead ++ [⟨s.brk, p.fn, p.arg⟩], brk := s.brk + 1
          notes := P.notes ++ [.pushed ⟨s.brk, p.fn, p.arg⟩] } := by
        rw [KeepPass.act, if_neg (by simp [hp]), R.brk]
      have hfresh : s.brk ∉ cancelledOf P.notes := by
        rw [R.brk]
        exact fun h => Nat.lt_irrefl _ (H.cancelled _ h)
      refine ⟨s', by simp [TaskAct.exec, hp, hpush, hact], ⟨?_, by rw [hbrk, hact]⟩, by omega,
        fun id hid => ?_⟩
      · have hqueue : (P.act (.push p)).queue = P.queue ++ [⟨s.brk, p.fn, p.arg⟩] := by
          simp [hact, queue, tasks, uncancelled, ← List.append_assoc, hfresh]
        rw [hqueue]
        exact H'
      · rw [hlive, Function.update_of_ne (by simpa using Nat.ne_of_lt hid)]
        simp
  | cancel id =>
    obtain ⟨s', hcancel, H', hbrk, hlive⟩ := R.holds.cancel_mem ha.1
    refine ⟨s', by simp [TaskAct.exec, hcancel, KeepPass.act], ⟨?_, hbrk.trans R.brk⟩, by omega,
      fun id' _ => ?_⟩
    · have hqueue : (P.act (.cancel id)).queue = P.queue.filter (·.id ≠ id) := uncancelled_cancelled
      rw [hqueue]
      exact H'
    · rw [hlive]
      rcases eq_or_ne id' id with rfl | hne
      · simp
      · simp [hne, hne.symm]

/-- The calls that a callback makes. -/
theorem Rep.acts (R : P.Rep s) (H : P.Inv l) (ha : P.Allows as) :
    ∃ s', execActs () (s, P.notes) as = .ok (s', (P.acts as).notes) ∧ (P.acts as).Rep s' ∧
      ∀ id < s.brk, s'.list.live (.task id) = (s.list.live (.task id) && decide (.cancel id ∉ as)) := by
  induction as generalizing P s with
  | nil => exact ⟨s, rfl, R, by simp⟩
  | cons a as ih =>
    have ha' : P.Allows [a] ∧ (P.act a).Allows as := by
      cases a with
      | push p => exact ⟨trivial, ha⟩
      | cancel id => exact ⟨⟨ha.1, trivial⟩, ha.2⟩
    obtain ⟨s₁, hact, R₁, hbrk, hlive₁⟩ := R.act H ha'.1
    obtain ⟨s', hrun, R', hlive⟩ := ih R₁ (H.acts ha'.1) ha'.2
    refine ⟨s', by rw [execActs, hact, Res.ok_bind, hrun, acts_cons], R', fun id hid => ?_⟩
    rw [hlive id (Nat.lt_of_lt_of_le hid hbrk), hlive₁ id hid]
    simp [Bool.and_assoc, eq_comm]

/-- Where a pass goes on. -/
def pos (P : KeepPass) : Option (TaskRef Unit) := some (first (uncancelled P.notes P.ahead))

theorem uncancelled_cons {l₁ l₂ : List TaskCall} (ht : t.id ∉ cancelledOf notes) :
    uncancelled notes (l₁ ++ t :: l₂) = uncancelled notes l₁ ++ t :: uncancelled notes l₂ := by
  rw [uncancelled, List.filter_append, List.filter_cons_of_pos (by simpa using ht)]
  rfl

/-- The place behind a task that was not cancelled. -/
theorem Rep.next {l₁ : List TaskCall} (R : P.Rep s) (hpassed : P.passed = l₁ ++ [t])
    (ht : t.id ∉ cancelledOf P.notes) : s.list.getNext (some (.task t.id)) = .ok P.pos := by
  have hqueue : P.queue = uncancelled P.notes l₁ ++ t :: uncancelled P.notes P.ahead := by
    rw [queue, tasks, hpassed, List.append_assoc, List.singleton_append, uncancelled_cons ht]
  have H := R.holds
  rw [hqueue] at H
  exact H.next_task

/-- A round that calls a task, whose callback makes the calls `as`. -/
theorem Rep.round {script : Nat → List TaskAct} (R : P.Rep s) (H : P.Inv l)
    (hcall : P.call = some (t, P')) (hscript : script (invokedOf P.notes).length = as)
    (ha : P'.Allows as) :
    ∃ s', (P'.acts as).Rep s' ∧ keepStep () (actScript () script) (s, P.notes) P.pos =
      (if .cancel t.id ∈ as then .error .invalid
      else .ok ((s', (P'.acts as).notes), (P'.acts as).pos)) := by
  have H' := H.call hcall
  obtain ⟨skipped, ahead, hahead, hskipped, ht, rfl⟩ := call_some hcall
  have hqueue : P.queue = uncancelled P.notes (P.passed ++ skipped) ++ t :: uncancelled P.notes ahead := by
    rw [queue, tasks, hahead, ← List.append_assoc, uncancelled_cons ht]
  have htq : t ∈ P.queue := by
    rw [hqueue]
    exact List.mem_append_right _ List.mem_cons_self
  have hpos : P.pos = some (.task t.id) := by
    have hnil : uncancelled P.notes skipped = [] :=
      List.filter_eq_nil_iff.2 fun u hu => by simpa using hskipped u hu
    rw [pos, hahead, uncancelled_cons ht, hnil]
    rfl
  have hlive : s.list.live (.task t.id) = true := R.holds.rep.live () t.id (List.mem_map_of_mem htq)
  have hread : s.call t.id = .ok t := by rw [Tasks.call, if_pos hlive, R.holds.cb t htq]
  -- the call changes the record only
  have R' : Rep { P with
      passed := P.passed ++ skipped ++ [t], ahead, notes := P.notes ++ [.invoked t] } s := by
    refine ⟨?_, R.brk⟩
    have := R.holds
    rw [queue, tasks, hahead] at this
    simpa [queue, tasks, uncancelled] using this
  obtain ⟨s', hrun, R'', hlive'⟩ := R'.acts H' ha
  have hlt : t.id < s.brk := R.holds.lt htq
  refine ⟨s', R'', ?_⟩
  rw [keepStep, hpos, if_neg (by simp)]
  simp only [taskEntry, Res.ok_bind, hread, actScript, hscript, hrun]
  split
  · next hmem =>
    have hdead := hlive' t.id hlt
    rw [decide_eq_false (not_not.2 hmem), Bool.and_false] at hdead
    simp [ListMem.getNext_dead, hdead]
  · next hmem =>
    have hnot : t.id ∉ cancelledOf (KeepPass.acts { P with
        passed := P.passed ++ skipped ++ [t], ahead, notes := P.notes ++ [.invoked t] } as).notes := by
      rw [acts_cancelled, cancelledOf_append, cancelledOf_invoked, List.append_nil, not_or]
      exact ⟨ht, hmem⟩
    rw [R''.next acts_passed hnot]
    rfl

variable {script : Nat → List TaskAct}

/-- The start of a pass. -/
def start (s : Tasks Unit) (l : List TaskCall) : KeepPass := ⟨[], l, s.brk, []⟩

/-- Every callback cancels tasks that are in the queue then, each once. -/
def Legal (P : KeepPass) (script : Nat → List TaskAct) : Prop :=
  ∀ k t P', (P.rounds script k).call = some (t, P') → P'.Allows (script k)

/-- No callback cancels the task it is called for. -/
def SparesItself (P : KeepPass) (script : Nat → List TaskAct) : Prop :=
  ∀ k t P', (P.rounds script k).call = some (t, P') → .cancel t.id ∉ script k

theorem start_inv (H : s.Holds l) : (start s l).Inv l :=
  ⟨⟨(List.append_nil l).symm, H.nodup, .slnil, nofun, .nil⟩, fun _ ht => H.lt ht, nofun⟩

theorem start_rep (H : s.Holds l) : (start s l).Rep s := by
  refine ⟨?_, rfl⟩
  have hqueue : (start s l).queue = l := List.filter_eq_self.2 fun _ _ => rfl
  rwa [hqueue]

theorem rounds_none {k : Nat} (h : (P.rounds script k).call = none) :
    P.rounds script (k + 1) = P.rounds script k := by
  rw [rounds, h]

theorem rounds_some {k : Nat} (h : (P.rounds script k).call = some (t, P')) :
    P.rounds script (k + 1) = P'.acts (script k) := by
  rw [rounds, h]

theorem call_invoked (h : P.call = some (t, P')) : invokedOf P'.notes = invokedOf P.notes ++ [t] := by
  obtain ⟨skipped, ahead, -, -, -, rfl⟩ := call_some h
  rw [invokedOf_append, invokedOf_invoked]

/-- The code's pass up to a callback that cancels its own task. -/
theorem rounds_rep (H : s.Holds l) (hlegal : (start s l).Legal script) {k : Nat}
    (hspare : ∀ j < k, ∀ t P', ((start s l).rounds script j).call = some (t, P') →
      .cancel t.id ∉ script j) :
    ∃ s' P, P = (start s l).rounds script k ∧
      keepRounds () (actScript () script) k (s, []) = .ok ((s', P.notes), P.pos) ∧ P.Rep s' ∧ P.Inv l ∧
      ((invokedOf P.notes).length = k ∨ P.call = none) := by
  induction k with
  | zero =>
    refine ⟨s, start s l, rfl, ?_, start_rep H, start_inv H, .inl rfl⟩
    have hpos : (start s l).pos = some (first l) :=
      congrArg (some ∘ first) (List.filter_eq_self.2 fun _ _ => rfl)
    rw [keepRounds, H.next_head, hpos]
    rfl
  | succ k ih =>
    obtain ⟨s₁, P, hP, hrun, R, Hi, hlen⟩ := ih fun j hj => hspare j (Nat.lt_succ_of_lt hj)
    have hnext : keepRounds () (actScript () script) (k + 1) (s, []) =
        keepStep () (actScript () script) (s₁, P.notes) P.pos := by rw [keepRounds, hrun, Res.ok_bind]
    rw [hnext]
    cases hcall : P.call with
    | none =>
      refine ⟨s₁, P, by rw [rounds_none (hP ▸ hcall), hP], ?_, R, Hi, .inr hcall⟩
      have hpos : P.pos = some (.head ()) := by
        rw [pos, call_none hcall]
        rfl
      rw [hpos, keepStep, if_pos rfl]
      rfl
    | some r =>
      obtain ⟨t, P'⟩ := r
      have hk := hlen.resolve_right (by simp [hcall])
      have ha := hlegal k t P' (hP ▸ hcall)
      obtain ⟨s', R', hstep⟩ := R.round Hi hcall (congrArg script hk) ha
      rw [if_neg (hspare k (Nat.lt_succ_self k) t P' (hP ▸ hcall))] at hstep
      refine ⟨s', _, (rounds_some (hP ▸ hcall)).symm, hstep, R', (Hi.call hcall).acts ha, .inl ?_⟩
      rw [acts_invoked, call_invoked hcall, List.length_append, hk, List.length_singleton]

/-- The queue is what was pushed and not cancelled. -/
theorem Rep.holds_pushed (R : P.Rep s) (H : P.Inv l) :
    s.Holds (uncancelled P.notes (l ++ pushedOf P.notes)) := by
  rw [← H.tasks]
  exact R.holds

end KeepPass

/-! ### When a pass tolerates changes -/

/-- `ep_task_queue_run_keep` on the tasks `l`. After each round, and when the pass is over, the tasks that
were passed are those called and those cancelled before; no freed block is touched; and the queue holds the
tasks that were not cancelled, as they were pushed. -/
structure ToleratesChanges (s : Tasks Unit) (l : List TaskCall) (script : Nat → List TaskAct) : Prop where
  rounds : ∀ k, ∃ s' notes passed ahead,
    keepRounds () (actScript () script) k (s, []) =
      .ok ((s', notes), some (first (uncancelled notes ahead))) ∧
    PassLaw l passed ahead notes ∧ s'.Holds (uncancelled notes (l ++ pushedOf notes)) ∧
    ((invokedOf notes).length = k ∨ ∀ fuel, k < fuel →
      epTaskQueueRunKeep () (actScript () script) fuel (s, []) = .ok (s', notes))
  result : ∀ fuel, epTaskQueueRunKeep () (actScript () script) fuel (s, []) = .error .fuel ∨
    ∃ s' notes, epTaskQueueRunKeep () (actScript () script) fuel (s, []) = .ok (s', notes) ∧
      PassLaw l (l ++ pushedOf notes) [] notes ∧ s'.Holds (uncancelled notes (l ++ pushedOf notes))

section
variable {s : Tasks Unit} {l passed ahead : List TaskCall} {notes : List TaskNote}
  {script : Nat → List TaskAct}

/-- When all that is ahead was cancelled, all is passed. -/
theorem PassLaw.over (H : PassLaw l passed ahead notes) (h : uncancelled notes ahead = []) :
    PassLaw l (l ++ pushedOf notes) [] notes := by
  rw [← H.tasks]
  refine ⟨by rw [List.append_nil, H.tasks], by simpa using H.nodup,
    H.invoked.trans (List.sublist_append_left ..), fun t ht => ?_, H.late⟩
  rcases List.mem_append.1 ht with ht | ht
  · exact H.passed t ht
  · have := List.filter_eq_nil_iff.1 h t ht
    exact .inr (by simpa using this)

theorem first_eq_head (h : first l = .head ()) : l = [] := by
  cases l with
  | nil => rfl
  | cons t l => cases h

/-- A pass in which no callback cancels the task it is called for. -/
theorem tolerates_of_spares (H : s.Holds l) (hlegal : (KeepPass.start s l).Legal script)
    (hspare : (KeepPass.start s l).SparesItself script) : ToleratesChanges s l script := by
  have hrounds := fun k => @KeepPass.rounds_rep _ _ _ H hlegal k fun j _ => hspare j
  refine ⟨fun k => ?_, fun fuel => ?_⟩
  · obtain ⟨s', P, -, hrun, R, Hi, hlen⟩ := hrounds k
    refine ⟨s', P.notes, P.passed, P.ahead, hrun, Hi.toPassLaw, R.holds_pushed Hi,
      hlen.imp_right fun hcall fuel hf => ?_⟩
    rw [KeepPass.pos, KeepPass.call_none hcall] at hrun
    exact keepRounds_over hrun hf
  · cases fuel with
    | zero =>
      left
      rw [epTaskQueueRunKeep, H.next_head]
      rfl
    | succ k =>
      obtain ⟨s', P, -, hrun, R, Hi, -⟩ := hrounds k
      rcases eq_or_ne P.pos (some (.head ())) with hpos | hpos
      · right
        rw [hpos] at hrun
        exact ⟨s', P.notes, keepRounds_over hrun (Nat.lt_succ_self k),
          Hi.over (first_eq_head (Option.some.inj hpos)), R.holds_pushed Hi⟩
      · left
        obtain ⟨s₂, P₂, -, hnext, -⟩ := hrounds (k + 1)
        exact keepRounds_fuel hrun hpos hnext

/-- **When a pass tolerates changes.** `ep_task_queue_run_keep` on a queue of the tasks `l`, with callbacks
that push and cancel, calls each task once, in order, unless it was cancelled before, and leaves those that
were not cancelled, exactly when no callback cancels the task it is called for. -/
theorem keep_tolerates_iff (H : s.Holds l) (hlegal : (KeepPass.start s l).Legal script) :
    ToleratesChanges s l script ↔ (KeepPass.start s l).SparesItself script := by
  refine ⟨fun h k => ?_, tolerates_of_spares H hlegal⟩
  induction k using Nat.strong_induction_on with
  | h k ih =>
    intro t P' hcall hmem
    obtain ⟨s₁, P, rfl, hrun, R, Hi, hlen⟩ := KeepPass.rounds_rep H hlegal ih
    have hk := hlen.resolve_right (by simp [hcall])
    obtain ⟨s', -, hstep⟩ := R.round Hi hcall (congrArg script hk) (hlegal k t P' hcall)
    rw [if_pos hmem] at hstep
    obtain ⟨s₂, notes, passed, ahead, hnext, -⟩ := h.rounds (k + 1)
    rw [keepRounds, hrun, Res.ok_bind] at hnext
    cases hstep.symm.trans hnext

end

/-- Calls of the first callback only. -/
def firstActs (as : List TaskAct) (k : Nat) : List TaskAct := if k = 0 then as else []

theorem firstActs_legal {P : KeepPass} {as : List TaskAct}
    (h : ∀ t P', P.call = some (t, P') → P'.Allows as) : P.Legal (firstActs as) := by
  intro k t P' hcall
  cases k with
  | zero => exact h t P' hcall
  | succ k => exact trivial

/-- The first task pushes one and cancels the second. -/
theorem keep_tolerates_iff_sample :
    ∃ s log, twoTasks = .ok (s, log) ∧
      ToleratesChanges s log.pushed (firstActs [.push ⟨false, 3, 3⟩, .cancel 1]) := by
  obtain ⟨s, log, hrun, hpushed, H⟩ := twoTasks_holds
  refine ⟨s, log, hrun, (keep_tolerates_iff H (firstActs_legal fun t P' hcall => ?_)).2
    fun k t P' hcall => ?_⟩
  · rw [hpushed] at hcall
    cases hcall
    exact ⟨List.mem_cons_of_mem _ List.mem_cons_self, trivial⟩
  · cases k with
    | zero =>
      rw [hpushed] at hcall
      cases hcall
      decide
    | succ k => exact List.not_mem_nil

/-- The first task cancels itself: the pass reads the link of the block that was freed. -/
theorem keep_cancels_itself :
    ∃ s log, twoTasks = .ok (s, log) ∧ (KeepPass.start s log.pushed).Legal (firstActs [.cancel 0]) ∧
      ¬ToleratesChanges s log.pushed (firstActs [.cancel 0]) ∧
      ∀ fuel, epTaskQueueRunKeep () (actScript () (firstActs [.cancel 0])) (fuel + 1) (s, []) =
        .error .invalid := by
  obtain ⟨s, log, hrun, hpushed, H⟩ := twoTasks_holds
  have hlegal : (KeepPass.start s log.pushed).Legal (firstActs [.cancel 0]) := by
    refine firstActs_legal fun t P' hcall => ?_
    rw [hpushed] at hcall
    cases hcall
    exact ⟨List.mem_cons_self, trivial⟩
  have hcall : ∃ P', (KeepPass.start s log.pushed).call = some (⟨0, 1, 1⟩, P') := by
    rw [hpushed]
    exact ⟨_, rfl⟩
  obtain ⟨P', hcall⟩ := hcall
  refine ⟨s, log, hrun, hlegal, fun h => ?_, fun fuel => ?_⟩
  · exact (keep_tolerates_iff H hlegal).1 h 0 _ P' hcall List.mem_cons_self
  · obtain ⟨s₁, P, rfl, hrounds, R, Hi, -⟩ := @KeepPass.rounds_rep _ _ _ H hlegal 0 nofun
    obtain ⟨s', -, hstep⟩ := R.round Hi hcall (show firstActs [.cancel 0] _ = [.cancel 0] from rfl)
      (hlegal 0 _ P' hcall)
    have hne : ((KeepPass.start s log.pushed).rounds (firstActs [.cancel 0]) 0).pos ≠ some (.head ()) := by
      rw [hpushed]
      nofun
    have := keepRounds_loop hrounds fuel
    rw [Nat.zero_add, runKeepLoop_succ hne, hstep, if_pos (by decide)] at this
    exact this

end Libep
