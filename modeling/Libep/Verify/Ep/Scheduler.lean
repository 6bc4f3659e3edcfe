import Libep.Ep

/-!
# A scheduler of tasks

What a loop is to its tasks, without their memory: two queues, and turns. A turn takes tasks out of the nexttick
queue and calls them, up to one that was the last of the queue when it was taken. Then it calls the tasks of the
everytick queue in their order, with those that are queued during the pass, and leaves them where they are. In
between and outside of the turns, tasks are queued and cancelled.
-/

namespace Libep

/-- Where a turn is: not begun, in the pass over the nexttick queue, which may have more to call, in the pass over
the everytick queue, with the tasks from a number on still to be called, or after the passes. -/
inductive Phase where
  | outside
  | nexttick (more : Bool)
  | everytick (start : Nat)
  | timers
  deriving DecidableEq

/-- Where the pass over the everytick queue goes on. -/
def Phase.start : Phase → Option Nat
  | .nexttick false => some 0
  | .everytick n => some n
  | _ => none

/-- In this phase the task `id` of the queue `q` is still to be called. -/
def Phase.Before : Phase → Tick → Nat → Prop
  | .nexttick more, .nexttick, _ => more
  | .nexttick _, .everytick, _ => True
  | .everytick n, .everytick, id => n ≤ id
  | _, _, _ => False

theorem Phase.not_before_nexttick {p : Phase} {n id : Nat} (h : n ∈ p.start) : ¬p.Before .nexttick id := by
  cases p with
  | nexttick more => cases more <;> simp_all [start, Before]
  | _ => exact not_false

inductive TickEvent where
  | queued (q : Tick) (t : TaskCall)
  | cancelled (id : Nat)
  | turn
  | call (q : Tick) (t : TaskCall)
  /-- A nexttick task is over, and its block is freed. -/
  | done (id : Nat)
  | timers
  | wait
  deriving DecidableEq

structure Scheduler where
  queue : Tick → List TaskCall
  /-- The number of the next task. -/
  next : Nat
  /-- The nexttick task that is being called. -/
  running : Option Nat
  freed : List Nat
  phase : Phase

namespace Scheduler

def init : Scheduler := ⟨fun _ => [], 0, none, [], .outside⟩

/-- The tasks that a pass over the everytick queue has still to call. -/
def rest (b : Scheduler) (n : Nat) : List TaskCall := (b.queue .everytick).filter (n ≤ ·.id)

theorem rest_zero (b : Scheduler) : b.rest 0 = b.queue .everytick :=
  List.filter_eq_self.2 fun _ _ => decide_eq_true (Nat.zero_le _)

theorem mem_rest {b : Scheduler} {n : Nat} {t : TaskCall} (hn : n ∈ b.phase.start) (ht : t ∈ b.queue .everytick)
    (h : b.phase.Before .everytick t.id) : t ∈ b.rest n := by
  refine List.mem_filter.2 ⟨ht, ?_⟩
  revert hn h
  cases b.phase with
  | nexttick more => cases more <;> simp +contextual [Phase.start, eq_comm]
  | everytick m => simp +contextual [Phase.start, Phase.Before]
  | _ => simp [Phase.start]

def step (b : Scheduler) : TickEvent → Option Scheduler
  | .queued q t =>
    if t.id = b.next then
      some { b with queue := Function.update b.queue q (b.queue q ++ [t]), next := b.next + 1 }
    else none
  | .cancelled id =>
    if id ∈ (b.queue .nexttick ++ b.queue .everytick).map TaskCall.id then
      some { b with queue := fun q => (b.queue q).filter (·.id ≠ id), freed := b.freed ++ [id] }
    else none
  | .turn =>
    if b.running = none ∧ b.phase = .outside then
      some { b with phase := .nexttick (b.queue .nexttick ≠ []) }
    else none
  | .call .nexttick t =>
    if b.running = none ∧ b.phase = .nexttick true ∧ (b.queue .nexttick).head? = some t then
      let l := (b.queue .nexttick).tail
      some { b with
        queue := Function.update b.queue .nexttick l
        running := some t.id
        phase := .nexttick (l ≠ []) }
    else none
  | .call .everytick t =>
    if b.running = none ∧ ∃ n ∈ b.phase.start, (b.rest n).head? = some t then
      some { b with phase := .everytick (t.id + 1) }
    else none
  | .done id =>
    if b.running = some id then some { b with running := none, freed := b.freed ++ [id] } else none
  | .timers =>
    if b.running = none ∧ ∃ n ∈ b.phase.start, b.rest n = [] then some { b with phase := .timers } else none
  | .wait =>
    if b.running = none ∧ b.phase = .timers then some { b with phase := .outside } else none

def run (b : Scheduler) (tr : List TickEvent) : Option Scheduler := tr.foldlM step b

section
variable {b b' b'' : Scheduler} {tr tr' : List TickEvent} {e : TickEvent}

@[simp] theorem run_nil : b.run [] = some b := rfl

@[simp] theorem run_cons : b.run (e :: tr) = (b.step e).bind (run · tr) := rfl

theorem run_append : b.run (tr ++ tr') = some b'' ↔ ∃ b', b.run tr = some b' ∧ b'.run tr' = some b'' := by
  rw [run, List.foldlM_append]
  exact Option.bind_eq_some_iff

theorem run_singleton : b.run [e] = b.step e := by
  rw [run_cons]
  cases b.step e <;> rfl

end

end Scheduler

/-! ### What is seen of a run -/

/-- The calls of tasks, and the waits. -/
abbrev TickTrace := List (Option (Tick × TaskCall))

def TickEvent.seen : TickEvent → Option (Option (Tick × TaskCall))
  | .call q t => some (some (q, t))
  | .wait => some none
  | _ => none

def seen (tr : List TickEvent) : TickTrace := tr.filterMap TickEvent.seen

/-- The tasks of a queue that are called. -/
def tickCalls (q : Tick) (l : TickTrace) : List TaskCall :=
  l.filterMap fun | some c => if c.1 = q then some c.2 else none | none => none

section
variable {tr tr' : List TickEvent} {q : Tick} {t : TaskCall} {l l' : TickTrace}

theorem seen_append : seen (tr ++ tr') = seen tr ++ seen tr' := List.filterMap_append

theorem tickCalls_append : tickCalls q (l ++ l') = tickCalls q l ++ tickCalls q l' := List.filterMap_append

theorem none_mem_seen : none ∈ seen tr ↔ .wait ∈ tr := by
  simp only [seen, List.mem_filterMap]
  constructor
  · rintro ⟨e, he, h⟩
    cases e with
    | wait => exact he
    | _ => cases h
  · exact fun h => ⟨_, h, rfl⟩

theorem some_mem_seen : some (q, t) ∈ seen tr ↔ .call q t ∈ tr := by
  simp only [seen, List.mem_filterMap]
  constructor
  · rintro ⟨e, he, h⟩
    cases e with
    | call q' t' =>
      cases h
      exact he
    | _ => cases h
  · exact fun h => ⟨_, h, rfl⟩

theorem mem_tickCalls : t ∈ tickCalls q l ↔ some (q, t) ∈ l := by
  simp only [tickCalls, List.mem_filterMap]
  constructor
  · rintro ⟨c, hc, h⟩
    cases c with
    | none => cases h
    | some c =>
      obtain ⟨hq, h⟩ := Option.ite_none_right_eq_some.1 h
      cases h
      exact hq ▸ hc
  · exact fun h => ⟨_, h, if_pos rfl⟩

theorem mem_tickCalls_seen : t ∈ tickCalls q (seen tr) ↔ .call q t ∈ tr := mem_tickCalls.trans some_mem_seen

end

/-! ### What a scheduler keeps -/

theorem mem_update_append {Q α : Type} [DecidableEq Q] {f : Q → List α} {q q' : Q} {a u : α} :
    u ∈ Function.update f q (f q ++ [a]) q' ↔ u ∈ f q' ∨ q' = q ∧ u = a := by
  rcases eq_or_ne q' q with rfl | hq
  · simp
  · simp [hq]

namespace Scheduler
variable {b b' b'' : Scheduler} {tr tr' : List TickEvent} {e : TickEvent} {q : Tick} {t : TaskCall}

/-- The queues are in the order of the numbers, and what is over is not in them. -/
structure Ordered (b : Scheduler) : Prop where
  sorted : ∀ q, (b.queue q).Pairwise fun t u => t.id < u.id
  lt : ∀ q, ∀ t ∈ b.queue q, t.id < b.next
  disjoint : ∀ {q q' t u}, t ∈ b.queue q → u ∈ b.queue q' → t.id = u.id → q = q'
  running : ∀ id, b.running = some id → id < b.next ∧ ∀ q, ∀ t ∈ b.queue q, t.id ≠ id
  freed : ∀ id ∈ b.freed, id < b.next ∧ ∀ q, ∀ t ∈ b.queue q, t.id ≠ id

theorem ordered_init : init.Ordered where
  sorted _ := .nil
  lt _ _ h := nomatch h
  disjoint h := nomatch h
  running _ h := nomatch h
  freed _ h := nomatch h

/-- Fewer tasks, and another phase. -/
theorem Ordered.of_sublist (H : b.Ordered) (hqueue : ∀ q, (b'.queue q).Sublist (b.queue q))
    (hnext : b'.next = b.next)
    (hrunning : ∀ id, b'.running = some id → id < b.next ∧ ∀ q, ∀ t ∈ b'.queue q, t.id ≠ id)
    (hfreed : ∀ id ∈ b'.freed, id < b.next ∧ ∀ q, ∀ t ∈ b'.queue q, t.id ≠ id) : b'.Ordered where
  sorted q := (H.sorted q).sublist (hqueue q)
  lt q t ht := hnext ▸ H.lt q t ((hqueue q).mem ht)
  disjoint ht hu := H.disjoint ((hqueue _).mem ht) ((hqueue _).mem hu)
  running := hnext ▸ hrunning
  freed := hnext ▸ hfreed

/-- After a task come those behind it in the queue. -/
theorem Ordered.rest_succ (H : b.Ordered) {l₁ l₂ : List TaskCall} (h : b.queue .everytick = l₁ ++ t :: l₂) :
    b.rest (t.id + 1) = l₂ := by
  have hsorted := H.sorted .everytick
  rw [h, List.pairwise_append] at hsorted
  obtain ⟨-, hsorted, hcross⟩ := hsorted
  have h₁ : l₁.filter (t.id + 1 ≤ ·.id) = [] := List.filter_eq_nil_iff.2 fun u hu => by
    have := hcross u hu t List.mem_cons_self
    simp only [decide_eq_true_eq]
    omega
  have h₂ : l₂.filter (t.id + 1 ≤ ·.id) = l₂ := List.filter_eq_self.2 fun u hu =>
    decide_eq_true (List.rel_of_pairwise_cons hsorted hu)
  rw [rest, h, List.filter_append, h₁, List.nil_append, List.filter_cons_of_neg (by simp), h₂]

theorem Ordered.step (H : b.Ordered) (h : b.step e = some b') : b'.Ordered := by
  cases e with
  | queued q t =>
    obtain ⟨hid, h⟩ := Option.ite_none_right_eq_some.1 h
    cases h
    have hmem : ∀ {q' u}, u ∈ Function.update b.queue q (b.queue q ++ [t]) q' →
        u ∈ b.queue q' ∨ q' = q ∧ u = t := mem_update_append.1
    refine ⟨fun q' => ?_, fun q' u hu => ?_, fun {q₁ q₂ u v} hu hv huv => ?_, fun id hr => ?_, fun id hf => ?_⟩
    · show (Function.update b.queue q (b.queue q ++ [t]) q').Pairwise _
      rcases eq_or_ne q' q with rfl | hq
      · rw [Function.update_self]
        refine List.pairwise_append.2 ⟨H.sorted q', List.pairwise_singleton .., fun u hu v hv => ?_⟩
        obtain rfl := List.mem_singleton.1 hv
        exact hid ▸ H.lt q' u hu
      · rw [Function.update_of_ne hq]
        exact H.sorted q'
    · rcases hmem hu with hu | ⟨-, rfl⟩
      · exact Nat.lt_succ_of_lt (H.lt q' u hu)
      · exact hid ▸ Nat.lt_succ_self _
    · rcases hmem hu with hu' | ⟨hq₁, rfl⟩ <;> rcases hmem hv with hv' | ⟨hq₂, rfl⟩
      · exact H.disjoint hu' hv' huv
      · exact absurd (huv.trans hid) (Nat.ne_of_lt (H.lt _ u hu'))
      · exact absurd (huv.symm.trans hid) (Nat.ne_of_lt (H.lt _ v hv'))
      · exact hq₁.trans hq₂.symm
    · obtain ⟨hlt, hne⟩ := H.running id hr
      refine ⟨Nat.lt_succ_of_lt hlt, fun q' u hu => ?_⟩
      rcases hmem hu with hu | ⟨-, rfl⟩
      · exact hne q' u hu
      · exact hid ▸ (Nat.ne_of_lt hlt).symm
    · obtain ⟨hlt, hne⟩ := H.freed id hf
      refine ⟨Nat.lt_succ_of_lt hlt, fun q' u hu => ?_⟩
      rcases hmem hu with hu | ⟨-, rfl⟩
      · exact hne q' u hu
      · exact hid ▸ (Nat.ne_of_lt hlt).symm
  | cancelled id =>
    obtain ⟨hid, h⟩ := Option.ite_none_right_eq_some.1 h
    cases h
    refine H.of_sublist (fun q => List.filter_sublist) rfl (fun i hr => ?_) fun i hf => ?_
    · obtain ⟨hlt, hne⟩ := H.running i hr
      exact ⟨hlt, fun q u hu => hne q u (List.mem_of_mem_filter hu)⟩
    · rcases List.mem_append.1 hf with hf | hf
      · obtain ⟨hlt, hne⟩ := H.freed i hf
        exact ⟨hlt, fun q u hu => hne q u (List.mem_of_mem_filter hu)⟩
      · obtain rfl := List.mem_singleton.1 hf
        refine ⟨?_, fun q u hu => by simpa using (List.mem_filter.1 hu).2⟩
        obtain ⟨u, hu, rfl⟩ := List.mem_map.1 hid
        exact (List.mem_append.1 hu).elim (H.lt _ u) (H.lt _ u)
  | turn | wait | timers =>
    obtain ⟨-, h⟩ := Option.ite_none_right_eq_some.1 h
    cases h
    exact H.of_sublist (fun q => .refl _) rfl H.running H.freed
  | call q t =>
    cases q with
    | nexttick =>
      obtain ⟨⟨-, -, hfirst⟩, h⟩ := Option.ite_none_right_eq_some.1 h
      obtain ⟨l, hl⟩ := List.head?_eq_some_iff.1 hfirst
      cases h
      have hqueue : ∀ q', (Function.update b.queue .nexttick (b.queue .nexttick).tail q').Sublist
          (b.queue q') := by
        intro q'
        rcases eq_or_ne q' .nexttick with rfl | hq
        · rw [Function.update_self]
          exact List.tail_sublist _
        · rw [Function.update_of_ne hq]
      refine H.of_sublist hqueue rfl (fun id hr => ?_) fun id hf => ?_
      · cases hr
        have ht : t ∈ b.queue .nexttick := by simp [hl]
        refine ⟨H.lt _ t ht, fun q' u hu htu => ?_⟩
        obtain rfl := H.disjoint ((hqueue q').mem hu) ht htu
        replace hu : u ∈ Function.update b.queue .nexttick (b.queue .nexttick).tail .nexttick := hu
        rw [Function.update_self, hl, List.tail_cons] at hu
        have hsorted := H.sorted .nexttick
        rw [hl] at hsorted
        exact absurd htu (Nat.ne_of_gt (List.rel_of_pairwise_cons hsorted hu))
      · obtain ⟨hlt, hne⟩ := H.freed id hf
        exact ⟨hlt, fun q u hu => hne q u ((hqueue q).mem hu)⟩
    | everytick =>
      obtain ⟨-, h⟩ := Option.ite_none_right_eq_some.1 h
      cases h
      exact H.of_sublist (fun q => .refl _) rfl H.running H.freed
  | done id =>
    obtain ⟨hr, h⟩ := Option.ite_none_right_eq_some.1 h
    cases h
    refine H.of_sublist (fun q => .refl _) rfl (fun _ h => nomatch h) fun i hf => ?_
    rcases List.mem_append.1 hf with hf | hf
    · exact H.freed i hf
    · obtain rfl := List.mem_singleton.1 hf
      exact H.running i hr

/-! ### Runs -/

/-- What each step keeps. -/
theorem run_induction {I : List TickEvent → Scheduler → Prop} (hnil : I [] b)
    (hstep : ∀ {tr b' e b''}, I tr b' → b'.step e = some b'' → I (tr ++ [e]) b'')
    (h : b.run tr = some b') : I tr b' := by
  induction tr using List.reverseRecOn generalizing b' with
  | nil =>
    cases h
    exact hnil
  | append_singleton tr e ih =>
    obtain ⟨b₁, h₁, h⟩ := run_append.1 h
    exact hstep (ih h₁) (run_singleton.symm.trans h)

/-- Only a task that is queued makes a queue longer. -/
theorem step_queue (h : b.step e = some b') :
    (∃ q t, e = .queued q t ∧ b'.queue = Function.update b.queue q (b.queue q ++ [t])) ∨
      ∀ q, (b'.queue q).Sublist (b.queue q) := by
  cases e with
  | queued q t =>
    obtain ⟨-, h⟩ := Option.ite_none_right_eq_some.1 h
    cases h
    exact .inl ⟨q, t, rfl, rfl⟩
  | cancelled id =>
    obtain ⟨-, h⟩ := Option.ite_none_right_eq_some.1 h
    cases h
    exact .inr fun q => List.filter_sublist
  | turn | wait | timers | done =>
    obtain ⟨-, h⟩ := Option.ite_none_right_eq_some.1 h
    cases h
    exact .inr fun q => .refl _
  | call q t =>
    cases q with
    | nexttick =>
      obtain ⟨-, h⟩ := Option.ite_none_right_eq_some.1 h
      cases h
      refine .inr fun q => ?_
      show (Function.update b.queue .nexttick (b.queue .nexttick).tail q).Sublist (b.queue q)
      rcases eq_or_ne q .nexttick with rfl | hq
      · rw [Function.update_self]
        exact List.tail_sublist _
      · rw [Function.update_of_ne hq]
    | everytick =>
      obtain ⟨-, h⟩ := Option.ite_none_right_eq_some.1 h
      cases h
      exact .inr fun q => .refl _

/-- A step adds at most the next task to a queue. -/
theorem step_mem (h : b.step e = some b') {u : TaskCall} (hu : u ∈ b'.queue q) :
    u ∈ b.queue q ∨ u.id = b.next := by
  rcases step_queue h with ⟨q', t, rfl, hqueue⟩ | hsub
  · obtain ⟨hid, -⟩ := Option.ite_none_right_eq_some.1 h
    rw [hqueue] at hu
    rcases mem_update_append.1 hu with hu | ⟨-, rfl⟩
    · exact .inl hu
    · exact .inr hid
  · exact .inl ((hsub q).mem hu)

theorem step_next (h : b.step e = some b') : b.next ≤ b'.next := by
  cases e with
  | call q t => cases q <;> (obtain ⟨-, h⟩ := Option.ite_none_right_eq_some.1 h; cases h; exact Nat.le_refl _)
  | queued q t =>
    obtain ⟨-, h⟩ := Option.ite_none_right_eq_some.1 h
    cases h
    exact Nat.le_succ _
  | _ =>
    obtain ⟨-, h⟩ := Option.ite_none_right_eq_some.1 h
    cases h
    exact Nat.le_refl _

theorem step_freed (h : b.step e = some b') : b.freed ⊆ b'.freed := by
  cases e with
  | call q t => cases q <;> (obtain ⟨-, h⟩ := Option.ite_none_right_eq_some.1 h; cases h; exact List.Subset.refl _)
  | cancelled id | done id =>
    obtain ⟨-, h⟩ := Option.ite_none_right_eq_some.1 h
    cases h
    exact List.subset_append_left _ _
  | _ =>
    obtain ⟨-, h⟩ := Option.ite_none_right_eq_some.1 h
    cases h
    exact List.Subset.refl _

/-- A task is called while it is in its queue. -/
theorem mem_of_call (h : b.step (.call q t) = some b') : t ∈ b.queue q := by
  cases q with
  | nexttick =>
    obtain ⟨⟨-, -, hfirst⟩, -⟩ := Option.ite_none_right_eq_some.1 h
    exact List.mem_of_mem_head? hfirst
  | everytick =>
    obtain ⟨⟨-, n, -, hfirst⟩, -⟩ := Option.ite_none_right_eq_some.1 h
    exact List.mem_of_mem_filter (List.mem_of_mem_head? hfirst)

theorem tickCalls_append_singleton :
    tickCalls q (seen (tr ++ [e])) = tickCalls q (seen tr) ++ tickCalls q (seen [e]) := by
  rw [seen_append, tickCalls_append]

theorem tickCalls_call (t : TaskCall) : tickCalls q (seen [.call q t]) = [t] := by
  simp [seen, TickEvent.seen, tickCalls]

theorem tickCalls_of_ne (h : ∀ t, e ≠ .call q t) : tickCalls q (seen [e]) = [] := by
  refine List.eq_nil_iff_forall_not_mem.2 fun t ht => h t ?_
  exact (List.mem_singleton.1 (mem_tickCalls_seen.1 ht)).symm

/-- What a run from `b₀` has behind it. -/
structure History (b₀ : Scheduler) (tr : List TickEvent) (b : Scheduler) : Prop where
  ordered : b.Ordered
  sorted : (tickCalls .nexttick (seen tr)).Pairwise fun t u => t.id < u.id
  before : ∀ t ∈ tickCalls .nexttick (seen tr), t.id < b.next ∧ ∀ u ∈ b.queue .nexttick, t.id < u.id
  freed : b₀.freed ⊆ b.freed
  live : ∀ q, ∀ t ∈ tickCalls q (seen tr), t.id ∉ b₀.freed
  cancelled : ∀ id, .cancelled id ∈ tr → id ∈ b.freed

theorem History.step {b₀ : Scheduler} (H : b₀.History tr b) (h : b.step e = some b') :
    b₀.History (tr ++ [e]) b' := by
  have hordered := H.ordered.step h
  have hold : ∀ t ∈ tickCalls .nexttick (seen tr),
      t.id < b'.next ∧ ∀ u ∈ b'.queue .nexttick, t.id < u.id := fun t ht => by
    obtain ⟨hlt, hbefore⟩ := H.before t ht
    refine ⟨Nat.lt_of_lt_of_le hlt (step_next h), fun u hu => ?_⟩
    rcases step_mem h hu with hu | hu
    · exact hbefore u hu
    · exact hu ▸ hlt
  have hnext : (tickCalls .nexttick (seen (tr ++ [e]))).Pairwise (fun t u => t.id < u.id) ∧
      ∀ t ∈ tickCalls .nexttick (seen (tr ++ [e])), t.id < b'.next ∧ ∀ u ∈ b'.queue .nexttick, t.id < u.id := by
    by_cases hcall : ∃ t, e = .call .nexttick t
    · obtain ⟨t, rfl⟩ := hcall
      have ht := mem_of_call h
      rw [tickCalls_append_singleton, tickCalls_call]
      refine ⟨List.pairwise_append.2 ⟨H.sorted, List.pairwise_singleton .., fun u hu v hv => ?_⟩, fun u hu => ?_⟩
      · obtain rfl := List.mem_singleton.1 hv
        exact (H.before u hu).2 v ht
      · rcases List.mem_append.1 hu with hu | hu
        · exact hold u hu
        · obtain rfl := List.mem_singleton.1 hu
          have hsorted := H.ordered.sorted .nexttick
          obtain ⟨⟨-, -, hfirst⟩, h⟩ := Option.ite_none_right_eq_some.1 h
          obtain ⟨l, hl⟩ := List.head?_eq_some_iff.1 hfirst
          cases h
          refine ⟨H.ordered.lt _ u ht, fun v hv => ?_⟩
          replace hv : v ∈ Function.update b.queue .nexttick (b.queue .nexttick).tail .nexttick := hv
          rw [Function.update_self, hl] at hv
          rw [hl] at hsorted
          exact List.rel_of_pairwise_cons hsorted hv
    · rw [tickCalls_append_singleton, tickCalls_of_ne fun t he => hcall ⟨t, he⟩, List.append_nil]
      exact ⟨H.sorted, hold⟩
  refine ⟨hordered, hnext.1, hnext.2, List.Subset.trans H.freed (step_freed h), fun q t ht => ?_, fun id hid => ?_⟩
  · rw [tickCalls_append_singleton, List.mem_append] at ht
    rcases ht with ht | ht
    · exact H.live q t ht
    · obtain rfl := List.mem_singleton.1 (mem_tickCalls_seen.1 ht)
      exact fun hfreed => (H.ordered.freed _ (H.freed hfreed)).2 q t (mem_of_call h) rfl
  · rcases List.mem_append.1 hid with hid | hid
    · exact step_freed h (H.cancelled id hid)
    · obtain rfl := List.mem_singleton.1 hid
      obtain ⟨-, h⟩ := Option.ite_none_right_eq_some.1 h
      cases h
      exact List.mem_append_right _ (List.mem_singleton_self id)

theorem Ordered.history (H : b.Ordered) (h : b.run tr = some b') : b.History tr b' :=
  run_induction (I := b.History) ⟨H, .nil, by simp [seen, tickCalls], List.Subset.refl _,
    by simp [seen, tickCalls], by simp⟩ (fun H h => H.step h) h

/-- Up to the next wait, the everytick tasks are called in the order of their numbers. -/
theorem everytick_sorted (h : b.run tr = some b') (hw : .wait ∉ tr) :
    (tickCalls .everytick (seen tr)).Pairwise fun t u => t.id < u.id := by
  refine (run_induction (I := fun tr b => .wait ∉ tr →
    (tickCalls .everytick (seen tr)).Pairwise (fun t u => t.id < u.id) ∧
      (∀ n ∈ b.phase.start, ∀ t ∈ tickCalls .everytick (seen tr), t.id < n) ∧
      (b.phase = .outside ∨ (∃ more, b.phase = .nexttick more) → tickCalls .everytick (seen tr) = []))
    (fun _ => ⟨.nil, by simp [seen, tickCalls], fun _ => rfl⟩) (fun {tr b e b'} H h hw => ?_) h hw).1
  obtain ⟨hsorted, hstart, hnone⟩ := H fun hmem => hw (List.mem_append_left _ hmem)
  rw [tickCalls_append_singleton]
  cases e with
  | wait => exact absurd (List.mem_append_right _ (List.mem_singleton_self _)) hw
  | queued | cancelled | done =>
    rw [tickCalls_of_ne (by simp), List.append_nil]
    obtain ⟨-, h⟩ := Option.ite_none_right_eq_some.1 h
    cases h
    exact ⟨hsorted, hstart, hnone⟩
  | turn =>
    rw [tickCalls_of_ne (by simp), List.append_nil]
    obtain ⟨⟨-, hphase⟩, h⟩ := Option.ite_none_right_eq_some.1 h
    cases h
    have hnil := hnone (.inl hphase)
    exact ⟨hsorted, by simp [hnil], fun _ => hnil⟩
  | timers =>
    rw [tickCalls_of_ne (by simp), List.append_nil]
    obtain ⟨-, h⟩ := Option.ite_none_right_eq_some.1 h
    cases h
    exact ⟨hsorted, by simp [Phase.start], by simp⟩
  | call q t =>
    cases q with
    | nexttick =>
      rw [tickCalls_of_ne (by simp), List.append_nil]
      obtain ⟨⟨-, hphase, -⟩, h⟩ := Option.ite_none_right_eq_some.1 h
      cases h
      have hnil := hnone (.inr ⟨_, hphase⟩)
      exact ⟨hsorted, by simp [hnil], fun _ => hnil⟩
    | everytick =>
      rw [tickCalls_call]
      obtain ⟨⟨-, n, hn, hfirst⟩, h⟩ := Option.ite_none_right_eq_some.1 h
      have hle : n ≤ t.id := by simpa using (List.mem_filter.1 (List.mem_of_mem_head? hfirst)).2
      cases h
      refine ⟨List.pairwise_append.2 ⟨hsorted, List.pairwise_singleton .., fun u hu v hv => ?_⟩,
        fun m hm u hu => ?_, by simp⟩
      · obtain rfl := List.mem_singleton.1 hv
        exact Nat.lt_of_lt_of_le (hstart n hn u hu) hle
      · cases hm
        rcases List.mem_append.1 hu with hu | hu
        · exact Nat.lt_succ_of_lt (Nat.lt_of_lt_of_le (hstart n hn u hu) hle)
        · rw [List.mem_singleton.1 hu]
          exact Nat.lt_succ_self _

/-! ### Service -/

/-- A task that a turn has still to call is called, cancelled, or still to be called. -/
theorem step_before (H : b.Ordered) (h : b.step e = some b') (ht : t ∈ b.queue q)
    (hbefore : b.phase.Before q t.id) :
    e = .call q t ∨ e = .cancelled t.id ∨ t ∈ b'.queue q ∧ b'.phase.Before q t.id := by
  cases e with
  | queued q' u =>
    obtain ⟨-, h⟩ := Option.ite_none_right_eq_some.1 h
    cases h
    exact .inr (.inr ⟨mem_update_append.2 (.inl ht), hbefore⟩)
  | cancelled id =>
    obtain ⟨-, h⟩ := Option.ite_none_right_eq_some.1 h
    cases h
    rcases eq_or_ne t.id id with rfl | hne
    · exact .inr (.inl rfl)
    · exact .inr (.inr ⟨List.mem_filter.2 ⟨ht, by simpa using hne⟩, hbefore⟩)
  | turn | wait =>
    obtain ⟨⟨-, hphase⟩, -⟩ := Option.ite_none_right_eq_some.1 h
    rw [hphase] at hbefore
    cases q <;> cases hbefore
  | done id =>
    obtain ⟨-, h⟩ := Option.ite_none_right_eq_some.1 h
    cases h
    exact .inr (.inr ⟨ht, hbefore⟩)
  | timers =>
    obtain ⟨⟨-, n, hn, hrest⟩, -⟩ := Option.ite_none_right_eq_some.1 h
    cases q with
    | nexttick => exact absurd hbefore (Phase.not_before_nexttick hn)
    | everytick =>
      have := mem_rest hn ht hbefore
      rw [hrest] at this
      cases this
  | call q' u =>
    cases q' with
    | nexttick =>
      obtain ⟨⟨-, hphase, hfirst⟩, h⟩ := Option.ite_none_right_eq_some.1 h
      obtain ⟨l, hl⟩ := List.head?_eq_some_iff.1 hfirst
      cases h
      cases q with
      | everytick => exact .inr (.inr ⟨ht, trivial⟩)
      | nexttick =>
        rw [hl] at ht
        rcases List.mem_cons.1 ht with rfl | ht
        · exact .inl rfl
        · refine .inr (.inr ⟨?_, ?_⟩)
          · show t ∈ Function.update b.queue .nexttick (b.queue .nexttick).tail .nexttick
            rwa [Function.update_self, hl]
          · show decide ((b.queue .nexttick).tail ≠ []) = true
            rw [hl]
            exact decide_eq_true (List.ne_nil_of_mem ht)
    | everytick =>
      obtain ⟨⟨-, n, hn, hfirst⟩, h⟩ := Option.ite_none_right_eq_some.1 h
      obtain ⟨l, hl⟩ := List.head?_eq_some_iff.1 hfirst
      cases h
      cases q with
      | nexttick => exact absurd hbefore (Phase.not_before_nexttick hn)
      | everytick =>
        have hsorted : (b.rest n).Pairwise fun t u => t.id < u.id := (H.sorted .everytick).sublist List.filter_sublist
        have hmem := mem_rest hn ht hbefore
        rw [hl] at hmem hsorted
        rcases List.mem_cons.1 hmem with rfl | hmem
        · exact .inl rfl
        · exact .inr (.inr ⟨ht, List.rel_of_pairwise_cons hsorted hmem⟩)

/-- **Every turn serves its tasks**: a task that is in one of the queues at the begin of a turn is called in it,
unless it is cancelled in it. -/
theorem serves (H : b.Ordered) (h : b.run (.turn :: tr) = some b') (hphase : b'.phase = .outside)
    (ht : t ∈ b.queue q) : .call q t ∈ tr ∨ .cancelled t.id ∈ tr := by
  obtain ⟨b₁, h₁, h⟩ := Option.bind_eq_some_iff.1 h
  have H₁ := H.step h₁
  obtain ⟨-, h₁⟩ := Option.ite_none_right_eq_some.1 h₁
  cases h₁
  have hstart : (Phase.nexttick (b.queue .nexttick ≠ [])).Before q t.id := by
    cases q with
    | nexttick => exact decide_eq_true (List.ne_nil_of_mem ht)
    | everytick => trivial
  have := run_induction (I := fun tr b' => b'.Ordered ∧
    (.call q t ∈ tr ∨ .cancelled t.id ∈ tr ∨ t ∈ b'.queue q ∧ b'.phase.Before q t.id))
    ⟨H₁, .inr (.inr ⟨ht, hstart⟩)⟩ (fun {tr b e b'} ⟨H, hserved⟩ h => ⟨H.step h, ?_⟩) h
  · obtain ⟨-, hcall | hcancel | ⟨-, hbefore⟩⟩ := this
    · exact .inl hcall
    · exact .inr hcancel
    · rw [hphase] at hbefore
      cases q <;> cases hbefore
  · rcases hserved with hcall | hcancel | ⟨ht, hbefore⟩
    · exact .inl (List.mem_append_left _ hcall)
    · exact .inr (.inl (List.mem_append_left _ hcancel))
    · rcases step_before H h ht hbefore with rfl | rfl | hnext
      · exact .inl (by simp)
      · exact .inr (.inl (by simp))
      · exact .inr (.inr hnext)

end Scheduler

/-! ### The work that is left -/

/-- The tasks that are queued: with the queue, the function and the argument. -/
def TickEvent.queuing : TickEvent → Option (Tick × Nat × Nat)
  | .queued q t => some (q, t.fn, t.arg)
  | _ => none

def queuings (tr : List TickEvent) : List (Tick × Nat × Nat) := tr.filterMap TickEvent.queuing

theorem queuings_append {tr tr' : List TickEvent} : queuings (tr ++ tr') = queuings tr ++ queuings tr' :=
  List.filterMap_append

section
variable (weight : Tick → Nat → Nat → Nat)

/-- The weight of those tasks that are for the queue `q`. -/
def weigh (q : Tick) (l : List (Tick × Nat × Nat)) : Nat :=
  (l.map fun p => if p.1 = q then weight q p.2.1 p.2.2 else 0).sum

/-- The weight of the tasks of the queue `q` with numbers from `n` on. -/
def Scheduler.load (b : Scheduler) (q : Tick) (n : Nat) : Nat :=
  (((b.queue q).filter (n ≤ ·.id)).map fun t => weight q t.fn t.arg).sum

variable {weight}

theorem weigh_append {q : Tick} {l l' : List (Tick × Nat × Nat)} :
    weigh weight q (l ++ l') = weigh weight q l + weigh weight q l' := by
  rw [weigh, List.map_append, List.sum_append, weigh, weigh]

namespace Scheduler
variable {b b' : Scheduler} {tr : List TickEvent} {e : TickEvent} {q : Tick} {t : TaskCall} {l : List TaskCall} {n : Nat}

theorem load_of_sublist (h : (b'.queue q).Sublist (b.queue q)) : b'.load weight q n ≤ b.load weight q n :=
  ((h.filter _).map _).sum_le_sum fun _ _ => Nat.zero_le _

theorem load_of_cons {n' : Nat} (h : (b.queue q).filter (n ≤ ·.id) = t :: l)
    (h' : (b'.queue q).filter (n' ≤ ·.id) = l) :
    b.load weight q n = weight q t.fn t.arg + b'.load weight q n' := by
  rw [load, load, h, h', List.map_cons, List.sum_cons]

theorem load_step (h : b.step e = some b') :
    b'.load weight q n ≤ b.load weight q n + weigh weight q (queuings [e]) := by
  rcases step_queue h with ⟨q', t, rfl, hqueue⟩ | hsub
  · rw [load, hqueue]
    rcases eq_or_ne q q' with rfl | hq
    · rw [Function.update_self, List.filter_append, List.map_append, List.sum_append]
      refine Nat.add_le_add_left ?_ _
      have hone : (([t].filter (n ≤ ·.id)).map fun t => weight q t.fn t.arg).sum ≤ weight q t.fn t.arg := by
        rw [List.filter_singleton]
        cases decide (n ≤ t.id) <;> simp
      simpa [weigh, queuings, TickEvent.queuing] using hone
    · rw [Function.update_of_ne hq]
      exact Nat.le_add_right _ _
  · exact Nat.le_add_right_of_le (load_of_sublist (hsub q))

theorem load_run (h : b.run tr = some b') :
    b'.load weight q n ≤ b.load weight q n + weigh weight q (queuings tr) := by
  refine run_induction (I := fun tr b' => b'.load weight q n ≤ b.load weight q n + weigh weight q (queuings tr))
    (Nat.le_refl _) (fun {tr b₁ e b₂} ih hstep => ?_) h
  have : b₂.load weight q n ≤ b₁.load weight q n + weigh weight q (queuings [e]) := load_step hstep
  rw [queuings_append, weigh_append]
  omega

/-- What is left after the first of the tasks that are left. -/
theorem Ordered.rest_of_cons (H : b.Ordered) (h : b.rest n = t :: l) : b.rest (t.id + 1) = l := by
  have hsorted : (b.rest n).Pairwise fun t u => t.id < u.id := (H.sorted .everytick).sublist List.filter_sublist
  have hle : n ≤ t.id := by
    have : t ∈ b.rest n := by simp [h]
    simpa using (List.mem_filter.1 this).2
  have hfilter : (b.rest n).filter (t.id + 1 ≤ ·.id) = b.rest (t.id + 1) := by
    rw [rest, List.filter_filter]
    refine List.filter_congr fun u _ => ?_
    rw [← Bool.decide_and, decide_eq_decide]
    omega
  rw [h] at hsorted
  rw [← hfilter, h, List.filter_cons_of_neg (by simp)]
  exact List.filter_eq_self.2 fun u hu => decide_eq_true (List.rel_of_pairwise_cons hsorted hu)

end Scheduler
end

end Libep
