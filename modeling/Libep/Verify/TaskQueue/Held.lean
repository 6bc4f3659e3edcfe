import Libep.Theory.Outcome
import Libep.Verify.TaskQueue.Owned

/-!
# The blocks of the task queues

Beside the rings, `s.Held L out` keeps the books of the allocator: a block that is allocated is in a queue,
or is one of the blocks `out` of tasks that are running, and a block that was handed out and is not allocated
any more was freed once. So a block is lost only by its queue, and a queue loses no block.
-/

namespace Libep
open Chain

namespace Tasks
variable {Q : Type}

/-- The blocks are in the queues `L`, or those of the running tasks `out`; the others were freed once. -/
structure Held (s : Tasks Q) (L : Q → List Nat) (out : List Nat) extends Owned s L where
  out_nodup : out.Nodup
  out_live : ∀ a ∈ out, s.list.live (.task a)
  out_notMem : ∀ a ∈ out, ∀ q, a ∉ L q
  held : ∀ a, s.list.live (.task a) → (∃ q, a ∈ L q) ∨ a ∈ out
  live_lt : ∀ a, s.list.live (.task a) → a < s.brk
  freed_nodup : s.freed.Nodup
  mem_freed : ∀ a, a ∈ s.freed ↔ a < s.brk ∧ ¬s.list.live (.task a)

/-- The block `a` is in the queue `q`. -/
def Queued (s : Tasks Q) (q : Q) (a : Nat) : Prop :=
  ∃ l : List Nat, Ring s.list.next s.list.prev (.head q) (l.map .task) ∧ a ∈ l

variable {s s' : Tasks Q} {L L' : Q → List Nat} {out : List Nat} {q : Q} {a : Nat} {l l₁ l₂ : List Nat}

theorem queued_of_ring (H : Ring s.list.next s.list.prev (.head q) (l.map .task)) : s.Queued q a ↔ a ∈ l := by
  constructor
  · rintro ⟨l', hl', ha⟩
    rwa [← List.map_injective_iff.2 (fun _ _ h => TaskRef.task.inj h) (hl'.unique H)]
  · exact fun ha => ⟨_, H, ha⟩

theorem Rep.queued (H : Rep s L) : s.Queued q a ↔ a ∈ L q :=
  queued_of_ring (H.ring q)

/-- The block after the head is the first of the queue. -/
theorem Rep.first_of_next (H : Rep s L) (h : s.list.next (.head q) = some (.task a)) : ∃ l, L q = a :: l := by
  have hfirst := (H.ring q).next_head
  rw [h] at hfirst
  cases hL : L q with
  | nil => simp [hL] at hfirst
  | cons b l =>
    rw [hL] at hfirst
    cases hfirst
    exact ⟨l, rfl⟩

theorem Rep.unique (H : Rep s L) (H' : Rep s L') : L = L' := by
  funext q
  exact List.map_injective_iff.2 (fun _ _ h => TaskRef.task.inj h) ((H.ring q).unique (H'.ring q))

namespace Held

/-- Queues that were just initialised, before the first `malloc`. -/
theorem init (H : Owned s fun _ => []) (hlive : ∀ a, ¬s.list.live (.task a)) (hbrk : s.brk = 0)
    (hfreed : s.freed = []) : Held s (fun _ => []) [] where
  toOwned := H
  out_nodup := .nil
  out_live := by simp
  out_notMem := by simp
  held a ha := absurd ha (hlive a)
  live_lt a ha := absurd ha (hlive a)
  freed_nodup := by rw [hfreed]; exact .nil
  mem_freed a := by simp [hfreed, hbrk]

variable [DecidableEq Q]

/-- `ep_task_queue_push`, if there is memory. -/
theorem pushed (H : Held s L out) (q : Q) (fn arg : Nat) :
    ∃ s', epTaskQueuePush s q false fn arg = .ok (some s.brk, s') ∧
      Held s' (Function.update L q (L q ++ [s.brk])) out ∧
      Edits s s' L (Function.update L q (L q ++ [s.brk])) ∧
      (∀ a, s.list.live (.task a) → s'.list.live (.task a)) ∧
      s'.cb = Function.update s.cb s.brk ⟨fn, arg⟩ ∧ s'.brk = s.brk + 1 ∧ s'.freed = s.freed := by
  obtain ⟨s', hrun, H', hcb, hbrk, hlive, -⟩ := H.toRep.push q fn arg
  obtain ⟨L', O, E⟩ := H.toOwned.push hrun
  obtain rfl := H'.unique O.toRep
  have hfreed : s'.freed = s.freed := by
    simp only [epTaskQueuePush, Bool.false_eq_true, if_false, Res.bind_eq_ok] at hrun
    obtain ⟨m₁, -, m₂, -, h⟩ := hrun
    cases h
    rfl
  have hold : ∀ a, a ≠ s.brk → s'.list.live (.task a) = s.list.live (.task a) := by
    intro a ha
    rw [hlive, Function.update_of_ne (by simpa using ha)]
  have hnew : s'.list.live (.task s.brk) := by rw [hlive, Function.update_self]
  have hmono : ∀ a, s.list.live (.task a) → s'.list.live (.task a) := fun a ha => by
    rwa [hold a (Nat.ne_of_lt (H.live_lt a ha))]
  refine ⟨s', hrun, ⟨O, H.out_nodup, fun a ha => hmono a (H.out_live a ha),
    fun a ha q' h => ?_, fun a ha => ?_, fun a ha => ?_, by rw [hfreed]; exact H.freed_nodup,
    fun a => ?_⟩, E, hmono, hcb, hbrk, hfreed⟩
  · rcases Rep.mem_pushed.1 h with h | ⟨-, rfl⟩
    · exact H.out_notMem a ha q' h
    · exact Nat.lt_irrefl _ (H.live_lt _ (H.out_live _ ha))
  · rcases eq_or_ne a s.brk with rfl | hne
    · exact .inl ⟨q, Rep.mem_pushed.2 (.inr ⟨rfl, rfl⟩)⟩
    · rw [hold a hne] at ha
      exact (H.held a ha).imp_left (Exists.imp fun _ h => Rep.mem_pushed.2 (.inl h))
  · rcases eq_or_ne a s.brk with rfl | hne
    · omega
    · rw [hold a hne] at ha
      have := H.live_lt a ha
      omega
  · rw [hfreed, H.mem_freed, hbrk]
    rcases eq_or_ne a s.brk with rfl | hne
    · simp [hnew]
    · rw [hold a hne]
      constructor
      · exact fun h => ⟨by omega, h.2⟩
      · exact fun h => ⟨by omega, h.2⟩

/-- `ep_task_queue_push`. -/
theorem push (H : Held s L out) (q : Q) (oom : Bool) (fn arg : Nat) :
    ∃ ret s' L', epTaskQueuePush s q oom fn arg = .ok (ret, s') ∧ Held s' L' out ∧ Edits s s' L L' ∧
      ∀ a, s.list.live (.task a) → s'.list.live (.task a) := by
  cases oom with
  | true => exact ⟨none, s, L, rfl, H, .refl H.toRep, fun _ h => h⟩
  | false =>
    obtain ⟨s', hrun, H', E, hlive, -⟩ := H.pushed q fn arg
    exact ⟨_, s', _, hrun, H', E, hlive⟩

/-- `list_del` of a block of a queue, which is then that of a running task. -/
theorem unlink (H : Held s L out) (hq : L q = l₁ ++ a :: l₂) :
    ∃ m, listDel s.list (some (.task a)) = .ok m ∧ m.live = s.list.live ∧
      Held { s with list := m } (fun q' => (L q').filter (· ≠ a)) (a :: out) := by
  have ha : a ∈ L q := by simp [hq]
  obtain ⟨m, hdel, hlive, O⟩ := H.toOwned.unlink hq
  refine ⟨m, hdel, hlive, O, List.nodup_cons.2 ⟨fun h => H.out_notMem a h q ha, H.out_nodup⟩,
    fun b hb => ?_, fun b hb q' h => ?_, fun b hb => ?_, fun b hb => ?_, H.freed_nodup, fun b => ?_⟩
  · show m.live _
    rw [hlive]
    rcases List.mem_cons.1 hb with rfl | hb
    · exact H.live q b ha
    · exact H.out_live b hb
  · obtain ⟨h, hne⟩ := List.mem_filter.1 h
    rcases List.mem_cons.1 hb with rfl | hb
    · simp at hne
    · exact H.out_notMem b hb q' h
  · replace hb : m.live (.task b) := hb
    rw [hlive] at hb
    rcases eq_or_ne b a with rfl | hne
    · exact .inr List.mem_cons_self
    · rcases H.held b hb with ⟨q', h⟩ | h
      · exact .inl ⟨q', List.mem_filter.2 ⟨h, by simpa using hne⟩⟩
      · exact .inr (List.mem_cons_of_mem _ h)
  · replace hb : m.live (.task b) := hb
    rw [hlive] at hb
    exact H.live_lt b hb
  · show b ∈ s.freed ↔ b < s.brk ∧ ¬m.live (.task b)
    rw [hlive]
    exact H.mem_freed b

/-- `free` of the block of a task that ran. -/
theorem free (H : Held s L (a :: out)) :
    ∃ s', s.free a = .ok s' ∧ Held s' L out ∧ s'.brk = s.brk ∧
      s'.list.live = Function.update s.list.live (.task a) false := by
  have ha := H.out_live a List.mem_cons_self
  have hfree : s.free a = .ok _ := if_pos ha
  obtain ⟨O, hlive, hbrk⟩ := H.toOwned.free (H.out_notMem a List.mem_cons_self) hfree
  have hold : ∀ b, b ≠ a → Function.update s.list.live (.task a) false (.task b) =
      s.list.live (.task b) := fun b hb => Function.update_of_ne (by simpa using hb) _ _
  refine ⟨_, hfree, ⟨O, (List.nodup_cons.1 H.out_nodup).2, fun b hb => ?_,
    fun b hb => H.out_notMem b (List.mem_cons_of_mem _ hb), fun b hb => ?_, fun b hb => ?_, ?_, fun b => ?_⟩,
    hbrk, rfl⟩
  · have hne : b ≠ a := fun e => (List.nodup_cons.1 H.out_nodup).1 (e ▸ hb)
    exact (hold b hne).trans (H.out_live b (List.mem_cons_of_mem _ hb))
  · rcases eq_or_ne b a with rfl | hne
    · rw [hlive, Function.update_self] at hb
      cases hb
    · rw [hlive, hold b hne] at hb
      exact (H.held b hb).imp_right fun h => (List.mem_cons.1 h).resolve_left hne
  · rcases eq_or_ne b a with rfl | hne
    · rw [hlive, Function.update_self] at hb
      cases hb
    · rw [hlive, hold b hne] at hb
      exact H.live_lt b hb
  · refine List.nodup_append.2 ⟨H.freed_nodup, List.nodup_singleton _, ?_⟩
    rintro b hb c hc rfl
    obtain rfl := List.mem_singleton.1 hc
    exact ((H.mem_freed b).1 hb).2 ha
  · rw [List.mem_append, List.mem_singleton, H.mem_freed, hlive]
    rcases eq_or_ne b a with rfl | hne
    · simpa using H.live_lt b ha
    · rw [hold b hne]
      simp [hne]

/-- `free` touches nothing but the books of the allocator. -/
theorem free_eq (h : s.free a = .ok s') : s'.freed = s.freed ++ [a] ∧ s'.cb = s.cb ∧ s'.brk = s.brk := by
  rw [Tasks.free] at h
  split at h
  · cases h
    exact ⟨rfl, rfl, rfl⟩
  · cases h

/-- `ep_task_cancel` of a block of a queue. -/
theorem cancelled (H : Held s L out) (ha : a ∈ L q) :
    ∃ s', epTaskCancel s a = .ok s' ∧ Held s' (fun q' => (L q').filter (· ≠ a)) out ∧
      Edits s s' L (fun q' => (L q').filter (· ≠ a)) ∧
      (∀ b, b ≠ a → s.list.live (.task b) → s'.list.live (.task b)) ∧
      s'.cb = s.cb ∧ s'.brk = s.brk ∧ s'.freed = s.freed ++ [a] := by
  obtain ⟨l₁, l₂, hq⟩ := List.append_of_mem ha
  obtain ⟨m, hdel, hlive, H₁⟩ := H.unlink hq
  obtain ⟨s', hfree, H', -, hlive'⟩ := H₁.free
  have hrun : epTaskCancel s a = .ok s' := by rw [epTaskCancel, hdel, Res.ok_bind, hfree]
  obtain ⟨L', O, E⟩ := H.toOwned.cancel hrun
  obtain rfl := H'.toRep.unique O.toRep
  obtain ⟨hfreed, hcb, hbrk⟩ := free_eq hfree
  refine ⟨s', hrun, H', E, fun b hb h => ?_, hcb, hbrk, hfreed⟩
  rw [hlive', Function.update_of_ne (by simpa using hb)]
  exact (congrFun hlive _).trans h

theorem cancel (H : Held s L out) (ha : a ∈ L q) :
    ∃ s' L', epTaskCancel s a = .ok s' ∧ Held s' L' out ∧ Edits s s' L L' ∧
      ∀ b, b ≠ a → s.list.live (.task b) → s'.list.live (.task b) := by
  obtain ⟨s', hrun, H', E, hlive, -⟩ := H.cancelled ha
  exact ⟨s', _, hrun, H', E, hlive⟩

/-- `ep_task_cancel` of a block of no queue faults. -/
theorem queued_of_cancel (H : Held s L out) (h : epTaskCancel s a = .ok s') : ∃ q, a ∈ L q := by
  by_contra hmem
  rw [not_exists] at hmem
  obtain ⟨m, hdel, -⟩ := Res.bind_eq_ok.1 h
  obtain ⟨p, -, hdel⟩ := Res.bind_eq_ok.1 hdel
  obtain ⟨n, hnext, hdel⟩ := Res.bind_eq_ok.1 hdel
  have hlive := ListMem.live_of_getNext hnext
  rw [ListMem.getNext_eq hlive, H.detached a hlive hmem] at hnext
  cases hnext
  cases hdel

omit [DecidableEq Q] in
/-- The queues without their first block. -/
theorem filter_first (H : Rep s L) (hq : L q = a :: l) : (L q).filter (· ≠ a) = l := by
  have hnd : ([] ++ a :: l).Nodup := hq ▸ H.nodup q
  rw [hq]
  exact filter_ne_middle hnd

omit [DecidableEq Q] in
/-- A block that is still allocated after edits is still in its queue. -/
theorem mem_of_edits (E : Edits s s' L L') (ha : a ∈ L q)
    (hlive : s'.list.live (.task a)) : a ∈ L' q := by
  obtain ⟨new, hL', -⟩ := E.lists q
  rw [hL']
  exact List.mem_append_left _ (List.mem_filter.2 ⟨ha, hlive⟩)

end Held

end Tasks

/-! ### The loops -/

section
open Tasks
variable {Q W : Type} [DecidableEq Q] {q : Q} {call : TaskCall → Tasks Q × W → Res (Tasks Q × W)}
  {E : Fault → Prop} {I : Tasks Q × W → Prop} {s s' : Tasks Q} {w w' : W} {L : Q → List Nat}
  {k fuel : Nat} {pos n : Option (TaskRef Q)} {l : List Nat}

/-- What `ep_task_queue_run` on `q` needs of the callbacks, if `E` are the faults it may have: they keep `I`,
edit the queues, and do not cancel the task that is next. -/
structure ServesRun (E : Fault → Prop) (q : Q) (call : TaskCall → Tasks Q × W → Res (Tasks Q × W))
    (I : Tasks Q × W → Prop) : Prop where
  unlink : ∀ {s w L a l m}, s.Held L [] → L q = a :: l → listDel s.list (some (.task a)) = .ok m →
    I (s, w) → I ({ s with list := m }, w)
  call : ∀ {s w L c}, s.Held L [c.id] → I (s, w) → Ends E (call c (s, w)) fun r => I r ∧
    ∃ L', r.1.Held L' [c.id] ∧ s.Edits r.1 L L' ∧
      (E .invalid ∨ ∀ u ∈ (L q).head?, r.1.list.live (.task u))
  free : ∀ {s w L a s'}, s.Held L [a] → s.free a = .ok s' → I (s, w) → I (s', w)

theorem runLoop_ends (hE : E .fuel) (S : ServesRun E q call I) (H : s.Held L []) (hI : I (s, w))
    (hn : s.list.getNext pos = .ok n)
    (hpos : pos = some (((L q).map .task).headD (.head q)) ∨ pos = some (.head q)) :
    Ends E (runLoop q call k (s, w) pos n) fun r => I r ∧ ∃ L', r.1.Held L' [] := by
  induction k generalizing s w L pos n with
  | zero => exact .error hE
  | succ k ih =>
    rw [runLoop]
    split
    · exact .ok ⟨hI, L, H⟩
    · next hhead =>
      replace hpos := hpos.resolve_right hhead
      cases hL : L q with
      | nil =>
        rw [hL] at hpos
        exact absurd hpos hhead
      | cons a l =>
        obtain rfl : pos = some (.task a) := by rw [hpos, hL]; rfl
        obtain ⟨m, hdel, hlive, H₁⟩ := H.unlink (show L q = [] ++ a :: l from hL)
        have ha : m.live (.task a) := H₁.out_live a List.mem_cons_self
        rw [hdel, Res.ok_bind, taskEntry, Res.ok_bind, Tasks.call, if_pos ha, Res.ok_bind]
        refine (S.call H₁ (S.unlink H hL hdel hI)).bind ?_
        rintro ⟨s₂, w₂⟩ - ⟨hI₂, L₂, H₂, edits, hspare⟩
        replace H₂ : s₂.Held L₂ [a] := H₂
        obtain ⟨s₃, hfree, H₃, -, hlive₃⟩ := H₂.free
        have hI₃ := S.free H₂ hfree hI₂
        dsimp only
        rw [hfree, Res.ok_bind]
        rw [Held.filter_first H.toRep hL] at hspare
        rw [H.toRep.next_task (show L q = [] ++ a :: l from hL)] at hn
        cases hn
        cases l with
        | nil =>
          -- the successor that was read is the head
          rw [List.map_nil, List.headD_nil, H₃.toRep.next_head q, Res.ok_bind]
          exact ih H₃ hI₃ (H₃.toRep.next_head q) (.inr rfl)
        | cons u l =>
          have hne : u ≠ a := fun e => by
            have := H.toRep.nodup q
            rw [hL, e] at this
            simp at this
          by_cases hu : s₃.list.live (.task u)
          · have hfirst : s₃.list.getNext (some (.task u)) = .ok _ := ListMem.getNext_eq hu
            rw [List.map_cons, List.headD_cons, hfirst, Res.ok_bind]
            rw [hlive₃, Function.update_of_ne (by simpa using hne)] at hu
            exact ih H₃ hI₃ hfirst
              (.inl (congrArg some (edits.first (Held.filter_first H.toRep hL) hu).symm))
          · rw [List.map_cons, List.headD_cons, ListMem.getNext_dead hu]
            refine .error (hspare.resolve_right fun h => hu ?_)
            rw [hlive₃, Function.update_of_ne (by simpa using hne)]
            exact h u (by simp)

/-- `ep_task_queue_run`, with the faults `E` at most. -/
theorem epTaskQueueRun_ends (hE : E .fuel) (S : ServesRun E q call I) (H : s.Held L [])
    (hI : I (s, w)) :
    Ends E (epTaskQueueRun q call fuel (s, w)) fun r => I r ∧ ∃ L', r.1.Held L' [] := by
  have hpos := H.toRep.next_head q
  have hfirst : s.list.live (((L q).map .task).headD (.head q)) :=
    H.toRep.place_live (headD_mem (TaskRef.head q) ((L q).map TaskRef.task))
  rw [epTaskQueueRun, hpos, Res.ok_bind, ListMem.getNext_eq hfirst, Res.ok_bind]
  exact runLoop_ends hE S H hI (ListMem.getNext_eq hfirst) (.inl rfl)

/-- What `ep_task_queue_run_keep` on `q` needs of the callbacks: as `ServesRun`, but it is their own task
that they do not cancel. -/
structure ServesKeep (E : Fault → Prop) (q : Q) (call : TaskCall → Tasks Q × W → Res (Tasks Q × W))
    (I : Tasks Q × W → Prop) : Prop where
  call : ∀ {s w L c}, s.Held L [] → c.id ∈ L q → I (s, w) → Ends E (call c (s, w)) fun r => I r ∧
    ∃ L', r.1.Held L' [] ∧ s.Edits r.1 L L' ∧ (E .invalid ∨ r.1.list.live (.task c.id))

theorem runKeepLoop_ends (hE : E .fuel) (S : ServesKeep E q call I) (H : s.Held L []) (hI : I (s, w))
    (hpos : pos = some (.head q) ∨ ∃ a ∈ L q, pos = some (.task a)) :
    Ends E (runKeepLoop q call k (s, w) pos) fun r => I r ∧ ∃ L', r.1.Held L' [] := by
  induction k generalizing s w L pos with
  | zero => exact .error hE
  | succ k ih =>
    rw [runKeepLoop]
    split
    · exact .ok ⟨hI, L, H⟩
    · next hhead =>
      obtain ⟨a, ha, rfl⟩ := hpos.resolve_left hhead
      rw [taskEntry, Res.ok_bind, Tasks.call, if_pos (H.live q a ha), Res.ok_bind]
      refine (S.call H ha hI).bind ?_
      rintro ⟨s', w'⟩ - ⟨hI', L', H', edits, hspare⟩
      dsimp only
      by_cases hlive : s'.list.live (.task a)
      · obtain ⟨l₁, l₂, hL'⟩ := List.append_of_mem (Held.mem_of_edits edits ha hlive)
        rw [H'.toRep.next_task hL', Res.ok_bind]
        refine ih H' hI' ?_
        cases l₂ with
        | nil => exact .inl rfl
        | cons u l₂ => exact .inr ⟨u, by simp [hL'], rfl⟩
      · rw [ListMem.getNext_dead hlive]
        exact .error (hspare.resolve_right hlive)

/-- `ep_task_queue_run_keep`, with the faults `E` at most. -/
theorem epTaskQueueRunKeep_ends (hE : E .fuel) (S : ServesKeep E q call I) (H : s.Held L [])
    (hI : I (s, w)) :
    Ends E (epTaskQueueRunKeep q call fuel (s, w)) fun r => I r ∧ ∃ L', r.1.Held L' [] := by
  rw [epTaskQueueRunKeep, H.toRep.next_head q, Res.ok_bind]
  refine runKeepLoop_ends hE S H hI ?_
  cases L q with
  | nil => exact .inl rfl
  | cons a l => exact .inr ⟨a, List.mem_cons_self, rfl⟩

/-- `ep_task_queue_fini` frees the blocks of its queue. -/
theorem finiLoop_spec (H : s.Held L []) (hL : L q = l) (hk : l.length < k)
    (hn : s.list.getNext (some ((l.map .task).headD (.head q))) = .ok n) :
    ∃ s', finiLoop q k s (some ((l.map .task).headD (.head q))) n = .ok s' ∧
      s'.Held (Function.update L q []) [] ∧ s'.brk = s.brk := by
  induction l generalizing s L k n with
  | nil =>
    obtain ⟨k, rfl⟩ := Nat.exists_eq_succ_of_ne_zero (Nat.ne_of_gt hk)
    have hsame : Function.update L q [] = L := by rw [← hL, Function.update_eq_self]
    exact ⟨s, by rw [finiLoop, List.map_nil, List.headD_nil, if_pos rfl]; rfl, by rwa [hsame], rfl⟩
  | cons a l ih =>
    obtain ⟨k, rfl⟩ := Nat.exists_eq_succ_of_ne_zero (Nat.ne_of_gt (Nat.zero_lt_of_lt hk))
    have hq : L q = [] ++ a :: l := hL
    obtain ⟨m, hdel, -, H₁⟩ := H.unlink hq
    obtain ⟨s₁, hfree, H₂, hbrk, -⟩ := H₁.free
    have hrest : (fun q' => (L q').filter (· ≠ a)) = Function.update L q l := (H.toRep.unlinked hq).symm
    rw [hrest] at H₂
    rw [List.map_cons, List.headD_cons, H.toRep.next_task hq] at hn
    cases hn
    have hfirst : s₁.list.live ((l.map .task).headD (.head q)) := by
      have hL₂ : Function.update L q l q = l := Function.update_self ..
      have := H₂.toRep.place_live (headD_mem (TaskRef.head q) ((Function.update L q l q).map TaskRef.task))
      rwa [hL₂] at this
    obtain ⟨s', hrun, H', hbrk'⟩ := ih (k := k) H₂ (Function.update_self ..) (by simpa using hk)
      (ListMem.getNext_eq hfirst)
    rw [Function.update_idem] at H'
    refine ⟨s', ?_, H', hbrk'.trans hbrk⟩
    rw [finiLoop, List.map_cons, List.headD_cons, if_neg (by simp), taskEntry, Res.ok_bind, hdel]
    simp only [Res.ok_bind, hfree, ListMem.getNext_eq hfirst]
    exact hrun

theorem epTaskQueueFini_spec (H : s.Held L []) (hfuel : (L q).length < fuel) :
    ∃ s', epTaskQueueFini q fuel s = .ok s' ∧ s'.Held (Function.update L q []) [] ∧ s'.brk = s.brk := by
  have hfirst : s.list.live (((L q).map .task).headD (.head q)) :=
    H.toRep.place_live (headD_mem (TaskRef.head q) ((L q).map TaskRef.task))
  rw [epTaskQueueFini, H.toRep.next_head q, Res.ok_bind, ListMem.getNext_eq hfirst, Res.ok_bind]
  exact finiLoop_spec H rfl hfuel (ListMem.getNext_eq hfirst)

end

end Libep
